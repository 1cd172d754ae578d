import DMTree.Proofs.NodeSteps

/-!
# Steps that change the index

A record is entered into a locked inner node, a full inner node is split while a record is entered,
and the root is replaced. On the bottom level entering the record of a new leaf also renews the record
of the leaf it was split from, and ends the split.
-/

namespace DMTree

open Conc Segments

variable {E : Env} {M : Mode} {m m' : Cluster} {g g' : TreeView} {n n' nd : InnerNode}
  {r : Record} {a b s : Gaddr} {i j : NodeView} {t u : Tid} {x y : LeafView} {ℓ : Nat}
  {lo hi k : Key}

/-- The client `t` enters records with keys from `lo` up to `hi` on the level `ℓ`. -/
structure Enters (t : Tid) (ℓ : Nat) (lo hi : Key) (g g' : TreeView) : Prop where
  levels : LevelsOk g'
  edit : LevelEdit lo hi (g.lvl ℓ) (g'.lvl ℓ)
  lvl : ∀ ℓ', ℓ' ≠ ℓ → g'.lvl ℓ' = g.lvl ℓ'
  leaf : g'.leaf = g.leaf
  chain : g'.chain = g.chain
  inner : g'.inner = g.inner
  top : g'.top = g.top
  iown : g'.iown = g.iown
  rown : g'.rown = g.rown
  rtok : g'.rtok = g.rtok
  priv : g'.priv = g.priv
  eff : g'.eff = g.eff
  indexed : ∀ a, g.st a ≠ .fresh → g'.st a ≠ .fresh
  closed : ∀ a, (g'.st a).closed = true → (g.st a).closed = true
  listed : ∀ a, g.st a = .listed → g'.st a = .listed
  moving : ∀ a s, g'.st a = .moving s ↔ g.st a = .moving s
  opened : ∀ a s u, u ≠ t → (g'.st a = .opened u s ↔ g.st a = .opened u s)
  ipend : ∀ a u, u ≠ t → (g'.ipend a = some u ↔ g.ipend a = some u)
  ipend_le : ∀ a u, g'.ipend a = some u → g.ipend a = some u
  ipend_top : ∀ a i, g.inner a = some i → i.lev = g.top → g'.ipend a = g.ipend a

theorem Enters.grows (h : Enters t ℓ lo hi g g') : IndexGrows g g' :=
  ⟨h.leaf, h.closed, h.indexed, by rw [h.inner]; exact fun _ _ h => h⟩

/-! ## The record of a leaf -/

/-- The record that the index should have for a leaf. -/
def LeafView.record (x : LeafView) (a : Gaddr) : Record := .make x.min a x.tab x.cap x.tver

/-- The new leaf `s` of a split is entered, and the record of the leaf `a` is renewed. Where both
start with the same key, the record of `a` is lost. -/
def TreeView.enterLeaf (g : TreeView) (a s : Gaddr) (x y : LeafView) : TreeView :=
  { g with
    lvl := Function.update g.lvl 0
      (put Record.key (y.record s) (put Record.key (x.record a) (g.lvl 0)))
    st := Function.update (Function.update g.st a (if x.min < y.min then .listed else .orphan)) s
      .listed }

/-- Where the record of a leaf that has been split stands. -/
theorem LevelsOk.opened_spot (h : LevelsOk g) (hst : g.st a = .opened t s) (hx : g.leaf a = some x)
    (hy : g.leaf s = some y) : ∃ l₁ r₀ l₂, g.lvl 0 = l₁ ++ r₀ :: l₂ ∧ r₀.key = x.min ∧
      r₀.addr = a ∧ bound Record.key KeyMax l₂ = y.pmax := by
  obtain ⟨r₀, hr₀, hk, haddr⟩ := h.idx a x hx (by rw [hst]; simp) (by rw [hst]; simp)
  obtain ⟨l₁, l₂, hl⟩ := List.append_of_mem hr₀
  have hseg := h.seg 0
  rw [hl] at hseg
  obtain ⟨_, _, x', hx', _, _, _, _, hv⟩ := hseg.item
  rcases hv with ⟨hc, _⟩ | ⟨t', s', y', hs', _, hy', hb⟩
  · rw [haddr, hst] at hc
    cases hc
  · rw [haddr, hst] at hs'
    cases hs'
    rw [hy] at hy'
    cases hy'
    exact ⟨l₁, r₀, l₂, hl, hk, haddr, hb⟩

/-- What is known about a split that has been published. -/
theorem TreeInv.opened_pair (h : TreeInv E M m g) (hst : g.st a = .opened t s)
    (hx : g.leaf a = some x) (hy : g.leaf s = some y) :
    PairOk g a s x y ∧ x.pmax = y.min ∧ x.min ≤ y.min ∧ s ≠ a := by
  obtain ⟨x', y', hx', hy', hp⟩ := h.levels.pair a s (by rw [hst]; rfl)
  rw [hx] at hx'
  rw [hy] at hy'
  cases hx'
  cases hy'
  have hok := h.leaves.ok a x hx
  have hrest := hok.rest (by rw [hst]; simp)
  refine ⟨hp, hrest.2.1.symm.trans hp.min.symm, hp.min ▸ hok.min_le, ?_⟩
  rintro rfl
  have hf := hp.fresh
  rw [hst] at hf
  cases hf

section EnterLeaf

variable (h : TreeInv E M m g) (hst : g.st a = .opened t s) (hx : g.leaf a = some x)
  (hy : g.leaf s = some y)

include h hst hx hy

/-- The bottom level after the leaf has been entered. -/
theorem enterLeaf_lvl {l₁ l₂ : List Record} {r₀ : Record} (hl : g.lvl 0 = l₁ ++ r₀ :: l₂)
    (hk : r₀.key = x.min) (hb : bound Record.key KeyMax l₂ = y.pmax) :
    put Record.key (y.record s) (put Record.key (x.record a) (g.lvl 0)) =
      l₁ ++ ((if x.min < y.min then [x.record a, y.record s] else [y.record s]) ++ l₂) := by
  obtain ⟨hp, _, hle, _⟩ := h.opened_pair hst hx hy
  have hsort := h.levels.sorted 0
  rw [hl] at hsort
  have hput : put Record.key (x.record a) (g.lvl 0) = l₁ ++ x.record a :: l₂ := by
    rw [hl]
    exact put_replace hsort hk.symm
  have hsort' : Sorted Record.key (l₁ ++ x.record a :: l₂) := by
    rw [← hput]
    exact (h.levels.sorted 0).put
  have hseg := h.levels.seg 0
  rw [hl] at hseg
  rw [hput]
  by_cases hlt : x.min < y.min
  · rw [if_pos hlt]
    refine put_behind hsort' hlt fun b hb' => ?_
    have hge := ((segs_append.mp hseg).2.2.2).bound_le_mem hb'
    rw [hb] at hge
    exact hp.lt.trans_le hge
  · rw [if_neg hlt]
    exact put_replace hsort' (le_antisymm (not_lt.mp hlt) hle)

/-- Other records lead to other leaves. -/
theorem recOk_enterLeaf {l₁ l₂ : List Record} {r₀ : Record} (hl : g.lvl 0 = l₁ ++ r₀ :: l₂)
    (hk : r₀.key = x.min) {r : Record} (hr : r ∈ l₁ ∨ r ∈ l₂) (ho : RecOk g 0 r k) :
    RecOk (g.enterLeaf a s x y) 0 r k := by
  obtain ⟨hp, -, -, -⟩ := h.opened_pair hst hx hy
  obtain ⟨hv, z, hz, h1, h2, h3, h4, h5⟩ := ho
  have hsort := h.levels.sorted 0
  rw [hl] at hsort
  have hra : r.addr ≠ a := by
    intro hra
    rw [hra, hx] at hz
    cases hz
    have hkey : r.key = r₀.key := h3.symm.trans hk.symm
    rcases hr with hr | hr
    · exact (hsort.left_lt hr).ne hkey
    · exact (hsort.lt_right hr).ne hkey.symm
  have hrs : r.addr ≠ s := by
    intro hrs
    rw [hrs, hp.fresh] at h4
    exact h4 rfl
  have hsame : (g.enterLeaf a s x y).st r.addr = g.st r.addr := by
    simp only [TreeView.enterLeaf, Function.update_of_ne hrs, Function.update_of_ne hra]
  simp only [RecOk, hsame]
  exact ⟨hv, z, hz, h1, h2, h3, h4, h5⟩

theorem segs_enterLeaf : Segs Record.key (RecOk (g.enterLeaf a s x y) 0) KeyMax
    ((g.enterLeaf a s x y).lvl 0) := by
  obtain ⟨hp, hpm, hle, hsa⟩ := h.opened_pair hst hx hy
  obtain ⟨l₁, r₀, l₂, hl, hk, -, hb⟩ := h.levels.opened_spot hst hx hy
  have hseg := h.levels.seg 0
  have hlvl : (g.enterLeaf a s x y).lvl 0 =
      l₁ ++ ((if x.min < y.min then [x.record a, y.record s] else [y.record s]) ++ l₂) := by
    rw [← enterLeaf_lvl h hst hx hy hl hk hb]
    simp only [TreeView.enterLeaf, Function.update_self]
  have hs : (g.enterLeaf a s x y).st s = .listed := by
    simp only [TreeView.enterLeaf, Function.update_self]
  have hrs : RecOk (g.enterLeaf a s x y) 0 (y.record s) y.pmax := by
    refine ⟨rfl, y, hy, rfl, rfl, rfl, ?_, Or.inl ⟨?_, rfl, rfl⟩⟩
    · change (g.enterLeaf a s x y).st s ≠ .fresh
      rw [hs]
      simp
    · change ((g.enterLeaf a s x y).st s).closed = false
      rw [hs]
      rfl
  rw [hlvl]
  rw [hl] at hseg
  refine hseg.splice (fun r k hr => recOk_enterLeaf h hst hx hy hl hk (Or.inl hr))
    (fun r k hr => recOk_enterLeaf h hst hx hy hl hk (Or.inr hr)) ?_ ?_
  · rw [hb]
    by_cases hlt : x.min < y.min
    · have hsta : (g.enterLeaf a s x y).st a = .listed := by
        simp only [TreeView.enterLeaf, Function.update_of_ne (Ne.symm hsa), Function.update_self,
          if_pos hlt]
      rw [if_pos hlt]
      refine ⟨hlt, ⟨rfl, x, hx, rfl, rfl, rfl, ?_, Or.inl ⟨?_, rfl, hpm.symm⟩⟩, hp.lt, hrs, trivial⟩
      · change (g.enterLeaf a s x y).st a ≠ .fresh
        rw [hsta]
        simp
      · change ((g.enterLeaf a s x y).st a).closed = false
        rw [hsta]
        rfl
    · rw [if_neg hlt]
      exact ⟨hp.lt, hrs, trivial⟩
  · rw [hk]
    by_cases hlt : x.min < y.min
    · rw [if_pos hlt]
      rfl
    · rw [if_neg hlt]
      exact (le_antisymm hle (not_lt.mp hlt)).symm

theorem idx_enterLeaf (c : Gaddr) (z : LeafView) (hz : g.leaf c = some z)
    (h1 : (g.enterLeaf a s x y).st c ≠ .fresh) (h2 : (g.enterLeaf a s x y).st c ≠ .orphan) :
    ∃ r ∈ (g.enterLeaf a s x y).lvl 0, r.key = z.min ∧ r.addr = c := by
  obtain ⟨hp, -, hle, hsa⟩ := h.opened_pair hst hx hy
  obtain ⟨l₁, r₀, l₂, hl, hk, haddr, hb⟩ := h.levels.opened_spot hst hx hy
  have hlvl : (g.enterLeaf a s x y).lvl 0 =
      l₁ ++ ((if x.min < y.min then [x.record a, y.record s] else [y.record s]) ++ l₂) := by
    rw [← enterLeaf_lvl h hst hx hy hl hk hb]
    simp only [TreeView.enterLeaf, Function.update_self]
  rw [hlvl]
  by_cases hcs : c = s
  · subst hcs
    rw [hy] at hz
    cases hz
    refine ⟨y.record c, ?_, rfl, rfl⟩
    by_cases hlt : x.min < y.min
    · simp [hlt]
    · simp [hlt]
  by_cases hca : c = a
  · subst hca
    rw [hx] at hz
    cases hz
    have hlt : x.min < y.min := by
      by_contra hlt
      simp only [TreeView.enterLeaf, Function.update_of_ne hcs, Function.update_self,
        if_neg hlt] at h2
      exact h2 rfl
    exact ⟨x.record c, by simp [hlt], rfl, rfl⟩
  simp only [TreeView.enterLeaf, Function.update_of_ne hcs, Function.update_of_ne hca] at h1 h2
  obtain ⟨r, hr, hrk, hra⟩ := h.levels.idx c z hz h1 h2
  refine ⟨r, ?_, hrk, hra⟩
  rw [hl] at hr
  rcases List.mem_append.mp hr with hr | hr
  · exact List.mem_append_left _ hr
  · rcases List.mem_cons.mp hr with rfl | hr
    · exact absurd (hra.symm.trans haddr) hca
    · exact List.mem_append_right _ (List.mem_append_right _ hr)

theorem levels_enterLeaf : LevelsOk (g.enterLeaf a s x y) := by
  obtain ⟨hp, -, -, hsa⟩ := h.opened_pair hst hx hy
  have hnone : ∀ c d, ((g.enterLeaf a s x y).st c).partner = some d →
      c ≠ s ∧ c ≠ a ∧ (g.st c).partner = some d := by
    intro c d hc
    by_cases hcs : c = s
    · subst hcs
      simp only [TreeView.enterLeaf, Function.update_self, Status.partner] at hc
      cases hc
    by_cases hca : c = a
    · subst hca
      simp only [TreeView.enterLeaf, Function.update_of_ne hcs, Function.update_self] at hc
      by_cases hlt : x.min < y.min
      · rw [if_pos hlt] at hc
        cases hc
      · rw [if_neg hlt] at hc
        cases hc
    simp only [TreeView.enterLeaf, Function.update_of_ne hcs, Function.update_of_ne hca] at hc
    exact ⟨hcs, hca, hc⟩
  refine ⟨?_, idx_enterLeaf h hst hx hy, ?_, ?_, ?_, ?_⟩
  · intro ℓ
    cases ℓ with
    | zero => exact segs_enterLeaf h hst hx hy
    | succ ℓ =>
      simp only [TreeView.enterLeaf, Function.update_of_ne (Nat.succ_ne_zero ℓ)]
      exact h.levels.seg (ℓ + 1)
  · intro b i hb hpend hlev
    simp only [TreeView.enterLeaf, Function.update_of_ne (Nat.succ_ne_zero i.lev)]
    exact h.levels.pidx b i hb hpend hlev
  · intro c d hc
    obtain ⟨hcs, hca, hc'⟩ := hnone c d hc
    obtain ⟨z, w, hz, hw, hpw⟩ := h.levels.pair c d hc'
    have hds : d ≠ s := by
      rintro rfl
      exact hca (h.levels.partner_inj c a d hc' (by rw [hst]; rfl))
    have hda : d ≠ a := by
      rintro rfl
      have hf := hpw.fresh
      rw [hst] at hf
      cases hf
    refine ⟨z, w, hz, hw, ?_, hpw.tver, hpw.own, hpw.min, hpw.lt, ?_⟩
    · simp only [TreeView.enterLeaf, Function.update_of_ne hds, Function.update_of_ne hda]
      exact hpw.fresh
    · simp only [TreeView.enterLeaf, Function.update_of_ne hcs, Function.update_of_ne hca]
      exact hpw.pmax
  · intro c d e hc hd
    exact h.levels.partner_inj c d e (hnone c e hc).2.2 (hnone d e hd).2.2
  · intro c hc
    have hcs : c ≠ s := by
      rintro rfl
      exact absurd (hc.symm.trans hy) (by simp)
    have hca : c ≠ a := by
      rintro rfl
      exact absurd (hc.symm.trans hx) (by simp)
    simp only [TreeView.enterLeaf, Function.update_of_ne hcs, Function.update_of_ne hca]
    exact h.levels.fresh c hc

theorem enters_enterLeaf (h1 : lo ≤ x.min) (h2 : y.min < hi) :
    Enters t 0 lo hi g (g.enterLeaf a s x y) := by
  obtain ⟨hp, -, hle, hsa⟩ := h.opened_pair hst hx hy
  have hst' : ∀ c, (c = s ∧ (g.enterLeaf a s x y).st c = .listed) ∨
      (c = a ∧ ((g.enterLeaf a s x y).st c = .listed ∨ (g.enterLeaf a s x y).st c = .orphan)) ∨
      (c ≠ s ∧ c ≠ a ∧ (g.enterLeaf a s x y).st c = g.st c) := by
    intro c
    by_cases hcs : c = s
    · exact Or.inl ⟨hcs, by simp only [TreeView.enterLeaf, hcs, Function.update_self]⟩
    by_cases hca : c = a
    · refine Or.inr (Or.inl ⟨hca, ?_⟩)
      subst hca
      simp only [TreeView.enterLeaf, Function.update_of_ne hcs, Function.update_self]
      by_cases hlt : x.min < y.min
      · exact Or.inl (if_pos hlt)
      · exact Or.inr (if_neg hlt)
    · refine Or.inr (Or.inr ⟨hcs, hca, ?_⟩)
      simp only [TreeView.enterLeaf, Function.update_of_ne hcs, Function.update_of_ne hca]
  exact {
    levels := levels_enterLeaf h hst hx hy
    edit := by
      simp only [TreeView.enterLeaf, Function.update_self]
      exact ((LevelEdit.refl (h.levels.sorted 0)).put h1 (hle.trans_lt h2)).put (h1.trans hle) h2
    lvl := fun ℓ hℓ => by simp only [TreeView.enterLeaf, Function.update_of_ne hℓ]
    leaf := rfl
    chain := rfl
    inner := rfl
    top := rfl
    iown := rfl
    rown := rfl
    rtok := rfl
    priv := rfl
    eff := rfl
    indexed := by
      intro c hc
      rcases hst' c with ⟨-, h⟩ | ⟨-, h | h⟩ | ⟨-, -, h⟩ <;> rw [h]
      · simp
      · simp
      · simp
      · exact hc
    closed := by
      intro c hc
      rcases hst' c with ⟨-, h⟩ | ⟨rfl, -⟩ | ⟨-, -, h⟩
      · rw [h] at hc
        cases hc
      · rw [hst]
        rfl
      · rw [← h]
        exact hc
    listed := by
      intro c hc
      rcases hst' c with ⟨-, h⟩ | ⟨rfl, -⟩ | ⟨-, -, h⟩
      · exact h
      · rw [hst] at hc
        cases hc
      · rw [h, hc]
    moving := by
      intro c d
      rcases hst' c with ⟨rfl, h⟩ | ⟨rfl, h | h⟩ | ⟨-, -, h⟩ <;> rw [h]
      · rw [hp.fresh]
        simp
      · rw [hst]
        simp
      · rw [hst]
        simp
    opened := by
      intro c d u hu
      rcases hst' c with ⟨rfl, h⟩ | ⟨rfl, h | h⟩ | ⟨-, -, h⟩ <;> rw [h]
      · rw [hp.fresh]
        simp
      · rw [hst]
        simp [Ne.symm hu]
      · rw [hst]
        simp [Ne.symm hu]
    ipend := fun _ _ _ => Iff.rfl
    ipend_le := fun _ _ h => h
    ipend_top := fun _ _ _ _ => rfl }

end EnterLeaf

/-! ## The record of an inner node -/

/-- The node `r` leads to is entered on the level `ℓ`. -/
def TreeView.enterNode (g : TreeView) (ℓ : Nat) (r : Record) : TreeView :=
  { g with
    lvl := Function.update g.lvl ℓ (put Record.key r (g.lvl ℓ))
    ipend := Function.update g.ipend r.addr none }

section EnterNode

variable (h : TreeInv E M m g) (hr : g.inner r.addr = some ⟨ℓ, r.key⟩) (hv : r.valid = true)
  (hk : r.key < KeyMax)

include h hr hv hk

theorem levels_enterNode : LevelsOk (g.enterNode (ℓ + 1) r) := by
  have hother : ∀ ℓ', ℓ' ≠ ℓ + 1 → (g.enterNode (ℓ + 1) r).lvl ℓ' = g.lvl ℓ' := fun ℓ' hℓ => by
    simp only [TreeView.enterNode, Function.update_of_ne hℓ]
  have hthis : (g.enterNode (ℓ + 1) r).lvl (ℓ + 1) = put Record.key r (g.lvl (ℓ + 1)) := by
    simp only [TreeView.enterNode, Function.update_self]
  refine ⟨?_, ?_, ?_, ?_, h.levels.partner_inj, h.levels.fresh⟩
  · intro ℓ'
    by_cases hℓ : ℓ' = ℓ + 1
    · subst hℓ
      have hseg := h.levels.seg (ℓ + 1)
      rw [hthis]
      refine (h.levels.sorted (ℓ + 1)).put.segs ?_ ?_
      · intro s hs
        rcases mem_put.mp hs with rfl | ⟨hs, -⟩
        · exact hk
        · exact hseg.lt_hi hs
      · intro s b hs
        rcases mem_put.mp hs with rfl | ⟨hs, -⟩
        · exact ⟨hv, hr⟩
        · obtain ⟨l₁, l₂, hl⟩ := List.append_of_mem hs
          rw [hl] at hseg
          exact hseg.item.2
    · rw [hother ℓ' hℓ]
      refine (h.levels.seg ℓ').mono fun s b _ hs => ?_
      cases ℓ' <;> exact hs
  · rw [hother 0 (Nat.succ_ne_zero ℓ).symm]
    exact h.levels.idx
  · intro b i hb hpend hlev
    by_cases hbr : b = r.addr
    · subst hbr
      have hi : i = ⟨ℓ, r.key⟩ := Option.some.inj (hb.symm.trans hr)
      subst hi
      exact ⟨r, by rw [hthis]; exact mem_put.mpr (Or.inl rfl), rfl, rfl⟩
    · simp only [TreeView.enterNode, Function.update_of_ne hbr] at hpend
      obtain ⟨s, hs, hsk, hsa⟩ := h.levels.pidx b i hb hpend hlev
      refine ⟨s, ?_, hsk, hsa⟩
      by_cases hℓ : i.lev = ℓ
      · rw [hℓ] at hs ⊢
        rw [hthis]
        refine mem_put.mpr (Or.inr ⟨hs, fun hkey => hbr ?_⟩)
        have hi : i = ⟨ℓ, r.key⟩ := by
          cases i
          simp_all
        exact h.inner_inj (hi ▸ hb) hr
      · rw [hother _ (by omega)]
        exact hs
  · intro c d hc
    obtain ⟨z, w, hz, hw, hp⟩ := h.levels.pair c d hc
    exact ⟨z, w, hz, hw, hp.fresh, hp.tver, hp.own, hp.min, hp.lt, hp.pmax⟩

theorem enters_enterNode (hpend : g.ipend r.addr = some t) (hℓ : ℓ < g.top) (h1 : lo ≤ r.key)
    (h2 : r.key < hi) : Enters t (ℓ + 1) lo hi g (g.enterNode (ℓ + 1) r) := by
  have hsame : ∀ b, b ≠ r.addr → (g.enterNode (ℓ + 1) r).ipend b = g.ipend b := fun b hb => by
    simp only [TreeView.enterNode, Function.update_of_ne hb]
  have hnone : (g.enterNode (ℓ + 1) r).ipend r.addr = none := by
    simp only [TreeView.enterNode, Function.update_self]
  exact {
    levels := levels_enterNode h hr hv hk
    edit := by
      simp only [TreeView.enterNode, Function.update_self]
      exact (LevelEdit.refl (h.levels.sorted _)).put h1 h2
    lvl := fun ℓ' hℓ => by simp only [TreeView.enterNode, Function.update_of_ne hℓ]
    leaf := rfl
    chain := rfl
    inner := rfl
    top := rfl
    iown := rfl
    rown := rfl
    rtok := rfl
    priv := rfl
    eff := rfl
    indexed := fun _ h => h
    closed := fun _ h => h
    listed := fun _ h => h
    moving := fun _ _ => Iff.rfl
    opened := fun _ _ _ _ => Iff.rfl
    ipend := by
      intro b u hu
      by_cases hb : b = r.addr
      · subst hb
        rw [hnone, hpend]
        simp [Ne.symm hu]
      · rw [hsame b hb]
    ipend_le := by
      intro b u hb'
      by_cases hb : b = r.addr
      · subst hb
        rw [hnone] at hb'
        cases hb'
      · rwa [hsame b hb] at hb'
    ipend_top := by
      intro b i hb hlev
      refine hsame b ?_
      rintro rfl
      have hi : i = ⟨ℓ, r.key⟩ := Option.some.inj (hb.symm.trans hr)
      subst hi
      exact absurd hlev hℓ.ne }

end EnterNode

/-! ## The node that takes the record -/

/-- A locked node takes the records and is written without the lock. -/
theorem NodeStored.insert (h : NodeStored E g a i n) (he : Enters t i.lev i.min n.hdr.maxKey g g')
    (hw : n'.Wf) (hc : n'.checkConsistent E.hash = true) (hh : n'.hdr = n.hdr)
    (hl : n'.lock = false)
    (hr : n'.recs = slice Record.key i.min n.hdr.maxKey (g'.lvl i.lev)) :
    NodeStored E (g'.setNodeLock a none) a i n' where
  wf := hw
  crc := hc
  min := by rw [hh]; exact h.min
  lt := by rw [hh]; exact h.lt
  le := by rw [hh]; exact h.le
  bottom := by rw [hh]; exact h.bottom
  recs := by rw [hh]; exact hr
  first := by
    obtain ⟨s, hs, hk⟩ := h.first
    obtain ⟨s', hs', hk'⟩ := he.edit.keys s hs
    exact ⟨s', hs', hk'.trans hk⟩
  right := by
    rw [hh]
    intro hm
    exact he.grows.inner _ _ (h.right hm)
  stray := by rw [hh]; exact h.stray
  lock := by simp [hl, TreeView.setNodeLock]
  root := by rw [hh]; exact h.root

theorem setInner_of_ne (hb : b ≠ a) : (m.setInner a n').inner b = m.inner b := Function.update_of_ne hb ..

theorem TreeInv.insertNode (h : TreeInv E M m g) (ha : g.inner a = some i)
    (hn : m.inner a = some n) (hown : g.iown a = some t)
    (he : Enters t i.lev i.min n.hdr.maxKey g g') (hh : n'.hdr = n.hdr)
    (hs : NodeStored E (g'.setNodeLock a none) a i n') :
    TreeStep E M t m g (m.setInner a n') (g'.setNodeLock a none) := by
  have hg : IndexGrows g (g'.setNodeLock a none) :=
    ⟨he.leaf, he.closed, he.indexed, he.grows.inner⟩
  have hother : ∀ b, b ≠ a → (g'.setNodeLock a none).iown b = g.iown b := by
    intro b hb
    rw [← he.iown]
    exact Function.update_of_ne hb ..
  have ho : ∀ u, g'.iown a = some u → u = t := by
    intro u hu
    rw [he.iown, hown] at hu
    exact (Option.some.inj hu).symm
  refine ⟨⟨h.leaves.index hg he.chain rfl rfl he.moving,
    he.levels.frame rfl rfl rfl rfl rfl rfl, ?_, ?_, ?_, h.cache.mono hg.le rfl,
    h.eff.index he.leaf he.eff⟩, ?_⟩
  · exact h.nodes.replace ha hn hs (by rw [hh]) rfl he.inner hother he.ipend_le he.lvl he.edit
  · refine h.root.keep hn rfl (by rw [hh]) rfl rfl he.top he.rown he.inner ?_ ?_ he.rtok he.priv
    · intro b j hb hlev hpend
      change g'.ipend b ≠ none
      rwa [he.ipend_top b j hb hlev]
    · intro ℓ hℓ
      refine he.lvl ℓ fun heq => ?_
      exact absurd (h.root.lev_le a i ha) (not_le.mpr (heq ▸ hℓ))
  · refine h.alloc.index he.leaf rfl rfl (fun b n₂ hb => ?_) fun b u hu => ?_
    · by_cases hba : b = a
      · exact ⟨n, hba ▸ hn⟩
      · rw [setInner_of_ne hba] at hb
        exact ⟨n₂, hb⟩
    · change g'.priv b = some u at hu
      rw [he.priv] at hu
      refine ⟨hu, fun hb => ?_⟩
      change g'.inner b = none
      rw [he.inner, hb]
  · refine TreeRel.index hg rfl rfl he.listed he.moving he.opened ?_ ?_
      he.ipend ?_ ?_ (fun _ _ _ => rfl) ?_ ?_
    · intro b u hu
      rw [setNodeLock_iown ho (by simp) b u hu, he.iown]
    · intro b u hu hb
      refine setInner_of_ne fun hba => hu ?_
      rw [hba, hown] at hb
      exact (Option.some.inj hb).symm
    · intro u _
      change g'.rown = some u ↔ _
      rw [he.rown]
    · intro u _
      change g'.rtok = some u ↔ _
      rw [he.rtok]
    · intro b u _
      change g'.priv b = some u ↔ _
      rw [he.priv]
    · intro b u _ hb
      exact setInner_of_ne (h.alloc.ne_priv ha hb)

/-! ## The split of a node -/

/-- The private node `b` becomes a node that is waiting to be entered one level above. -/
def TreeView.splitOff (g : TreeView) (t : Tid) (b : Gaddr) (i : NodeView) (tok : Option Tid) :
    TreeView :=
  { g with
    inner := Function.update g.inner b (some i)
    ipend := Function.update g.ipend b (some t)
    priv := Function.update g.priv b none
    rtok := tok }

theorem LevelsOk.splitOff (h : LevelsOk g) (hb : g.inner b = none) (tok : Option Tid) :
    LevelsOk (g.splitOff t b i tok) := by
  refine ⟨?_, h.idx, ?_, ?_, h.partner_inj, h.fresh⟩
  · intro ℓ
    refine (h.seg ℓ).mono fun r k _ hr => ?_
    cases ℓ with
    | zero => exact hr
    | succ ℓ =>
      have hrb : r.addr ≠ b := by
        intro hrb
        rw [RecOk, hrb, hb] at hr
        cases hr.2
      refine ⟨hr.1, ?_⟩
      simp only [TreeView.splitOff, Function.update_of_ne hrb]
      exact hr.2
  · intro c j hc hpend hlev
    by_cases hcb : c = b
    · subst hcb
      simp only [TreeView.splitOff, Function.update_self] at hpend
      cases hpend
    · simp only [TreeView.splitOff, Function.update_of_ne hcb] at hc hpend
      exact h.pidx c j hc hpend hlev
  · intro c d hc
    obtain ⟨z, w, hz, hw, hp⟩ := h.pair c d hc
    exact ⟨z, w, hz, hw, hp.fresh, hp.tver, hp.own, hp.min, hp.lt, hp.pmax⟩

section SplitNode

variable {origin sibling : InnerNode} {tok : Option Tid}
  (h : TreeInv E M m g) (ha : g.inner a = some i) (hn : m.inner a = some n)
  (hown : g.iown a = some t) (he : Enters t i.lev i.min n.hdr.maxKey g g')
  (hw : nd.Wf) (hh : nd.hdr = n.hdr) (hnew : ∀ s ∈ nd.recs, s.key ≠ r.key)
  (hput : put Record.key r nd.recs = slice Record.key i.min n.hdr.maxKey (g'.lvl i.lev))
  (hsp : Split E nd b r origin sibling k) (hb : g.priv b = some t) (hmb : m.inner b = some sibling)

include hw hnew hput hsp in
/-- The separating key is the key of a record, inside the range of the node. -/
theorem split_key : i.min < k ∧ k < n.hdr.maxKey ∧ ∃ s ∈ g'.lvl i.lev, s.key = k := by
  obtain ⟨l₁, c, l₂, hl, hne, hc⟩ := hsp.upper
  obtain ⟨d, l₀, rfl⟩ := List.exists_cons_of_ne_nil hne
  have hmem : ∀ s ∈ nd.recs, s ∈ slice Record.key i.min n.hdr.maxKey (g'.lvl i.lev) := by
    intro s hs
    rw [← hput]
    exact mem_put.mpr (Or.inr ⟨hs, hnew s hs⟩)
  have hcm := mem_slice.mp (hmem c (by rw [hl]; simp))
  have hdm := mem_slice.mp (hmem d (by rw [hl]; simp))
  have hsort := hw.sorted
  rw [hl] at hsort
  have hdc : d.key < c.key := hsort.left_lt (List.mem_cons_self ..)
  exact ⟨hc ▸ hdm.2.1.trans_lt hdc, hc ▸ hcm.2.2, c, hcm.1, hc⟩

include he hw hh hnew hput hsp in
theorem origin_stored (hs : NodeStored E g a i n) :
    NodeStored E ((g'.splitOff t b ⟨i.lev, k⟩ tok).setNodeLock a none) a i origin := by
  obtain ⟨h1, h2, -⟩ := split_key hw hnew hput hsp
  exact {
    wf := hsp.origin_wf
    crc := hsp.origin_crc
    min := by rw [hsp.origin_hdr, hh]; exact hs.min
    lt := by rw [hsp.origin_hdr]; exact h1
    le := by rw [hsp.origin_hdr]; exact h2.le.trans hs.le
    bottom := by rw [hsp.origin_hdr, hh]; exact hs.bottom
    recs := by
      rw [hsp.origin_recs, hput, hsp.origin_hdr]
      exact (slice_slice_left h2.le).symm
    first := by
      obtain ⟨s, hs', hk⟩ := hs.first
      obtain ⟨s', hs'', hk'⟩ := he.edit.keys s hs'
      exact ⟨s', hs'', hk'.trans hk⟩
    right := by
      rw [hsp.origin_hdr]
      intro _
      simp only [TreeView.splitOff, TreeView.setNodeLock, Function.update_self]
    stray := by
      rw [hsp.origin_hdr]
      intro hmax
      exact absurd (h2.trans_le hs.le) (by rw [show k = KeyMax from hmax]; exact lt_irrefl _)
    lock := by rw [hsp.origin_lock]; simp [TreeView.setNodeLock]
    root := by
      rw [hsp.origin_hdr]
      intro hroot
      cases hroot }

include ha he h hw hh hnew hput hsp hb in
theorem sibling_stored (hs : NodeStored E g a i n) :
    NodeStored E ((g'.splitOff t b ⟨i.lev, k⟩ tok).setNodeLock a none) b ⟨i.lev, k⟩ sibling := by
  obtain ⟨h1, h2, s, hs', hk⟩ := split_key hw hnew hput hsp
  have hba := h.alloc.ne_priv ha hb
  have hnone : g.iown b = none := by
    cases ho : g.iown b with
    | none => rfl
    | some u =>
      obtain ⟨j, hj⟩ := h.nodes.own b u ho
      rw [(h.alloc.priv b t hb).2.2.1] at hj
      cases hj
  exact {
    wf := hsp.sibling_wf
    crc := hsp.sibling_crc
    min := by rw [hsp.sibling_hdr]
    lt := by rw [hsp.sibling_hdr, hh]; exact h2
    le := by rw [hsp.sibling_hdr, hh]; exact hs.le
    bottom := by rw [hsp.sibling_hdr, hh]; exact hs.bottom
    recs := by
      rw [hsp.sibling_recs, hput, hsp.sibling_hdr, hh]
      exact (slice_slice_right h1.le).symm
    first := ⟨s, hs', hk⟩
    right := by
      rw [hsp.sibling_hdr, hh]
      intro hmax
      have hr := he.grows.inner _ _ (hs.right hmax)
      have hrb : n.hdr.rightAddr ≠ b := by
        intro hrb
        rw [hrb, he.inner, (h.alloc.priv b t hb).2.2.1] at hr
        cases hr
      simp only [TreeView.splitOff, TreeView.setNodeLock, Function.update_of_ne hrb]
      exact hr
    stray := by rw [hsp.sibling_hdr, hh]; exact hs.stray
    lock := by
      rw [hsp.sibling_lock]
      simp [TreeView.setNodeLock, TreeView.splitOff, Function.update_of_ne hba, he.iown, hnone]
    root := by
      rw [hsp.sibling_hdr]
      intro hroot
      cases hroot }

include he in
theorem splitNode_inner : ((g'.splitOff t b ⟨i.lev, k⟩ tok).setNodeLock a none).inner =
    Function.update g.inner b (some ⟨i.lev, k⟩) := by
  rw [← he.inner]
  rfl

include he in
theorem splitNode_priv {c : Gaddr} (hc : c ≠ b) :
    ((g'.splitOff t b ⟨i.lev, k⟩ tok).setNodeLock a none).priv c = g.priv c := by
  rw [← he.priv]
  exact Function.update_of_ne hc ..

theorem splitNode_ipend {j : NodeView} {c : Gaddr} (hc : c ≠ b) :
    ((g'.splitOff t b j tok).setNodeLock a none).ipend c = g'.ipend c := Function.update_of_ne hc ..

include h he hb in
theorem splitNode_grows : IndexGrows g ((g'.splitOff t b ⟨i.lev, k⟩ tok).setNodeLock a none) := by
  refine ⟨he.leaf, he.closed, he.indexed, fun c j hc => ?_⟩
  rw [splitNode_inner he, Function.update_of_ne (h.alloc.ne_priv hc hb).symm, hc]

include h ha hn in
/-- A node of the tree with the mark of the root is the root. -/
theorem TreeInv.root_of_mark (hM : M.rooted) (hmark : n.hdr.isRoot = true) :
    a = m.root ∧ g.rtok = none := by
  rcases h.root.unique hM a n hn hmark with hroot | ⟨u, -, hu⟩
  · exact hroot
  · exact absurd rfl (h.alloc.ne_priv ha hu)

section Root

variable (hρ : (M.rooted ∧ n.hdr.isRoot = true ∧ tok = some t) ∨
  (tok = g.rtok ∧ (M.rooted → n.hdr.isRoot = false)))

include hn hρ in
/-- Where the token is free, the root is not the node that was split. -/
theorem splitNode_mark (hM : M.rooted) (hnone : tok = none) :
    g.rtok = none ∧ ∀ n₂, m.inner m.root = some n₂ → n₂.hdr.isRoot = true →
      ∃ n₃, (m.setInner a origin).inner m.root = some n₃ ∧ n₃.hdr.isRoot = true := by
  rcases hρ with ⟨-, -, htok⟩ | ⟨htok, hmark⟩
  · exact absurd (htok.symm.trans hnone) (by simp)
  · refine ⟨htok.symm.trans hnone, fun n₂ hn₂ hroot => ⟨n₂, ?_, hroot⟩⟩
    rw [setInner_of_ne fun hra => ?_, hn₂]
    rw [hra, hn] at hn₂
    cases hn₂
    rw [hmark hM] at hroot
    cases hroot

include h ha hn he hsp hmb hρ in
/-- The halves have no mark. -/
theorem splitNode_unique (hM : M.rooted) {c : Gaddr} {n₂ : InnerNode}
    (hc : (m.setInner a origin).inner c = some n₂) (hroot : n₂.hdr.isRoot = true) :
    (c = m.root ∧ tok = none) ∨ ∃ u, tok = some u ∧
      ((g'.splitOff t b ⟨i.lev, k⟩ tok).setNodeLock a none).priv c = some u := by
  have hca : c ≠ a := by
    rintro rfl
    change Function.update m.inner c (some origin) c = some n₂ at hc
    rw [Function.update_self] at hc
    cases hc
    rw [hsp.origin_hdr] at hroot
    cases hroot
  have hcb : c ≠ b := by
    rintro rfl
    rw [setInner_of_ne hca, hmb] at hc
    cases hc
    rw [hsp.sibling_hdr] at hroot
    cases hroot
  rw [setInner_of_ne hca] at hc
  rw [splitNode_priv he hcb]
  rcases hρ with ⟨-, hmark, -⟩ | ⟨htok, -⟩
  · obtain ⟨har, hnone⟩ := h.root_of_mark ha hn hM hmark
    rcases h.root.unique hM c n₂ hc hroot with ⟨hcr, -⟩ | ⟨u, hu, -⟩
    · exact absurd (hcr.trans har.symm) hca
    · rw [hnone] at hu
      cases hu
  · rw [htok]
    exact h.root.unique hM c n₂ hc hroot

include h ha hn he hsp hb hmb hρ in
theorem splitNode_root : RootOk M (m.setInner a origin)
    ((g'.splitOff t b ⟨i.lev, k⟩ tok).setNodeLock a none) := by
  refine h.root.index rfl rfl he.top he.rown (splitNode_grows h he hb).inner (fun c j hc => ?_)
    (fun c j hc hlev hpend => ?_) (fun ℓ hℓ => ?_) (splitNode_mark hn hρ)
    (fun hM c n₂ => splitNode_unique h ha hn he hsp hmb hρ hM) fun u hu => ?_
  · rw [splitNode_inner he] at hc
    by_cases hcb : c = b
    · subst hcb
      rw [Function.update_self] at hc
      cases hc
      refine Or.inr ⟨h.root.lev_le a i ha, ?_⟩
      simp [TreeView.splitOff, TreeView.setNodeLock]
    · rw [Function.update_of_ne hcb] at hc
      exact Or.inl hc
  · rw [splitNode_ipend (h.alloc.ne_priv hc hb).symm, he.ipend_top c j hc hlev]
    exact hpend
  · refine he.lvl ℓ fun heq => ?_
    exact absurd (h.root.lev_le a i ha) (not_le.mpr (heq ▸ hℓ))
  · rcases hρ with ⟨hM, -, -⟩ | ⟨htok, -⟩
    · exact hM
    · exact h.root.tok u (htok ▸ hu)

include h ha hn hown he hb hρ in
theorem splitNode_rel : TreeRel E.hash t m g (m.setInner a origin)
    ((g'.splitOff t b ⟨i.lev, k⟩ tok).setNodeLock a none) := by
  have hlock : ∀ u, (g'.splitOff t b ⟨i.lev, k⟩ tok).iown a = some u → u = t := by
    intro u hu
    change g'.iown a = some u at hu
    rw [he.iown, hown] at hu
    exact (Option.some.inj hu).symm
  refine TreeRel.index (splitNode_grows h he hb) rfl rfl he.listed he.moving he.opened ?_ ?_ ?_ ?_ ?_
    (fun _ _ _ => rfl) ?_ fun c u _ hc => setInner_of_ne (h.alloc.ne_priv ha hc)
  · intro c u hu
    rw [setNodeLock_iown hlock (by simp) c u hu]
    change g'.iown c = some u ↔ _
    rw [he.iown]
  · intro c u hu hc
    refine setInner_of_ne fun hca => hu ?_
    rw [hca, hown] at hc
    exact (Option.some.inj hc).symm
  · intro c u hu
    by_cases hcb : c = b
    · subst hcb
      simp only [TreeView.splitOff, TreeView.setNodeLock, Function.update_self]
      refine ⟨fun h => absurd (Option.some.inj h).symm hu, fun hc => ?_⟩
      obtain ⟨j, hj⟩ := h.nodes.pend c u hc
      exact absurd rfl (h.alloc.ne_priv hj hb)
    · rw [splitNode_ipend hcb]
      exact he.ipend c u hu
  · intro u _
    change g'.rown = some u ↔ _
    rw [he.rown]
  · intro u hu
    change tok = some u ↔ _
    rcases hρ with ⟨hM, hmark, htok⟩ | ⟨htok, -⟩
    · rw [htok, (h.root_of_mark ha hn hM hmark).2]
      simp [Ne.symm hu]
    · rw [htok]
  · intro c u hu
    by_cases hcb : c = b
    · subst hcb
      simp [TreeView.splitOff, TreeView.setNodeLock, hb, Ne.symm hu]
    · rw [splitNode_priv he hcb]

end Root

include h hn he hb in
theorem splitNode_alloc : AllocOk E (m.setInner a origin)
    ((g'.splitOff t b ⟨i.lev, k⟩ tok).setNodeLock a none) := by
  refine h.alloc.index he.leaf rfl rfl (fun c n₂ hc => ?_) fun c u hu => ?_
  · by_cases hca : c = a
    · exact ⟨n, hca ▸ hn⟩
    · rw [setInner_of_ne hca] at hc
      exact ⟨n₂, hc⟩
  · have hcb : c ≠ b := by
      rintro rfl
      simp [TreeView.splitOff, TreeView.setNodeLock] at hu
    rw [splitNode_priv he hcb] at hu
    refine ⟨hu, fun hc => ?_⟩
    rw [splitNode_inner he, Function.update_of_ne hcb, hc]

include h ha hn hown he hw hh hnew hput hsp hb hmb in
/-- A full node is split: the new node is there already, and the node itself is written with the lower
half of its range, without the lock. A root that is split loses its mark. -/
theorem TreeInv.splitNode
    (hρ : (M.rooted ∧ n.hdr.isRoot = true ∧ tok = some t) ∨
      (tok = g.rtok ∧ (M.rooted → n.hdr.isRoot = false))) :
    TreeStep E M t m g (m.setInner a origin)
      ((g'.splitOff t b ⟨i.lev, k⟩ tok).setNodeLock a none) := by
  obtain ⟨n₀, hn₀, hs⟩ := h.nodes.stored a i ha
  rw [hn] at hn₀
  cases hn₀
  obtain ⟨h1, h2, -⟩ := split_key hw hnew hput hsp
  have hinner : g.inner b = none := (h.alloc.priv b t hb).2.2.1
  have hg : IndexGrows g ((g'.splitOff t b ⟨i.lev, k⟩ tok).setNodeLock a none) :=
    splitNode_grows h he hb
  have hother : ∀ c, c ≠ a →
      ((g'.splitOff t b ⟨i.lev, k⟩ tok).setNodeLock a none).iown c = g.iown c := by
    intro c hc
    rw [← he.iown]
    exact Function.update_of_ne hc ..
  refine ⟨⟨h.leaves.index hg he.chain rfl rfl he.moving,
    (he.levels.splitOff (by rw [he.inner, hinner]) tok).frame rfl rfl rfl rfl rfl rfl, ?_,
    splitNode_root h ha hn he hsp hb hmb hρ, splitNode_alloc h hn he hb, h.cache.mono hg.le rfl,
    h.eff.index he.leaf he.eff⟩, splitNode_rel h ha hn hown he hb hρ⟩
  refine h.nodes.split ha hn hinner h1 h2 (origin_stored he hw hh hnew hput hsp hs)
    (sibling_stored h ha he hw hh hnew hput hsp hb hs) (by rw [hsp.origin_hdr])
    (by rw [hsp.sibling_hdr, hh]) hmb rfl (splitNode_inner he) hother (fun c u hc => ?_) he.lvl he.edit
  by_cases hcb : c = b
  · exact Or.inr hcb
  · rw [splitNode_ipend hcb] at hc
    exact Or.inl (he.ipend_le c u hc)

end SplitNode

end DMTree
