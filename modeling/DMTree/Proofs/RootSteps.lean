import DMTree.Proofs.IndexSteps

/-!
# Allocation, private writes and the root

A client allocates an address, writes an object there that nobody else can see, takes and releases
the lock of the root pointer, and replaces the root. Steps on the caches of a compute node do not
change the abstract tree.
-/

namespace DMTree

open Conc Segments

variable {E : Env} {M : Mode} {m m' : Cluster} {g g' : TreeView} {n w : InnerNode}
  {r : Record} {a b c : Gaddr} {i j : NodeView} {t u : Tid} {x y : LeafView}

/-! ## Steps that the abstract tree does not see -/

/-- What is private to `t` changes, and the caches do. -/
theorem TreeInv.hidden (h : TreeInv E M m g)
    (hm : ∀ a, g.priv a ≠ some t → m'.leaf a = m.leaf a ∧ m'.table a = m.table a ∧
      m'.inner a = m.inner a)
    (hn : ∀ a n, m'.inner a = some n → m.inner a = some n ∨
      g.priv a = some t ∧ (n.hdr.isRoot = true → M.rooted → g.rtok = some t))
    (hr : m'.root = m.root) (hl : m'.rootLock = m.rootLock) (ha : m'.allocs = m.allocs)
    (hc : CacheOk E M m' g) : TreeStep E M t m g m' g := by
  have hin : ∀ a i, g.inner a = some i → m'.inner a = m.inner a := fun a i hi =>
    (hm a fun hp => h.alloc.ne_priv hi hp rfl).2.2
  have hleaf : ∀ a x, g.leaf a = some x → m'.leaf a = m.leaf a ∧ m'.table x.tab = m.table x.tab := by
    intro a x hx
    refine ⟨(hm a fun hp => ?_).1, (hm x.tab fun hp => ?_).2.1⟩
    · rw [(h.alloc.priv a t hp).2.1] at hx
      cases hx
    · exact (h.alloc.priv x.tab t hp).2.2.2 a x hx rfl
  refine ⟨⟨?_, h.levels, ?_, ?_, ?_, hc, h.eff⟩, ?_⟩
  · refine { h.leaves with stored := fun a x hx => ?_ }
    obtain ⟨l, tab, hs⟩ := h.leaves.stored a x hx
    obtain ⟨h1, h2⟩ := hleaf a x hx
    exact ⟨l, tab, hs.mono (.refl g) h1 h2⟩
  · refine { h.nodes with stored := fun a i hi => ?_, disjoint := ?_ }
    · rw [hin a i hi]
      exact h.nodes.stored a i hi
    · intro a b i j n n' k hi hj hlev h1 h2
      rw [hin a i hi] at h1
      rw [hin b j hj] at h2
      exact h.nodes.disjoint a b i j n n' k hi hj hlev h1 h2
  · refine ⟨hr ▸ h.root.inner, h.root.lev_le, hr ▸ h.root.top_pend, h.root.above, hl ▸ h.root.lock,
      ?_, ?_, h.root.tok⟩
    · rw [hr, hin _ _ h.root.inner]
      exact h.root.marked
    · rw [hr]
      intro hM a n hna hroot
      rcases hn a n hna with hold | ⟨hp, hmark⟩
      · exact h.root.unique hM a n hold hroot
      · exact Or.inr ⟨t, hmark hroot hM, hp⟩
  · refine ⟨?_, ?_, ?_, ?_⟩
    · intro a x hx
      unfold Used
      rw [ha]
      exact h.alloc.leaf a x hx
    · intro a x hx
      unfold Used
      rw [ha]
      by_cases hp : g.priv a = some t
      · exact (h.alloc.priv a t hp).1
      · rw [(hm a hp).2.1] at hx
        exact h.alloc.table a x hx
    · intro a n hna
      unfold Used
      rw [ha]
      rcases hn a n hna with hold | ⟨hp, -⟩
      · exact h.alloc.inner a n hold
      · exact (h.alloc.priv a t hp).1
    · intro a u hu
      unfold Used
      rw [ha]
      exact h.alloc.priv a u hu
  · refine ⟨.refl g, ?_, ?_, fun _ h => h, fun a x u _ hx _ => ⟨hx, fun h => h, fun _ h => h⟩,
      fun _ _ _ h => h, fun _ _ _ _ => Iff.rfl, fun _ _ _ => Iff.rfl, ?_, fun _ _ _ => Iff.rfl,
      fun _ _ => Iff.rfl, fun _ _ => Iff.rfl, fun _ _ _ => hr, fun _ _ _ => Iff.rfl, ?_⟩
    · intro a x x' hx hx'
      rw [hx] at hx'
      cases hx'
      exact Or.inl ⟨rfl, rfl, fun _ _ h => h⟩
    · intro a x x' hx hx' hlt
      rw [hx] at hx'
      cases hx'
      exact absurd hlt (lt_irrefl _)
    · intro a u _ ho
      obtain ⟨i, hi⟩ := h.nodes.own a u ho
      exact hin a i hi
    · intro a u hu hp
      refine hm a fun hp' => ?_
      rw [hp'] at hp
      exact hu (Option.some.inj hp).symm

/-- A step on the caches. -/
theorem TreeInv.side (h : TreeInv E M m g) (hl : m'.leaf = m.leaf) (ht : m'.table = m.table)
    (hi : m'.inner = m.inner) (hr : m'.root = m.root) (hrl : m'.rootLock = m.rootLock)
    (ha : m'.allocs = m.allocs) (hc : CacheOk E M m' g) (t : Tid) : TreeStep E M t m g m' g := by
  refine h.hidden (fun a _ => ?_) (fun a n hn => ?_) hr hrl ha hc
  · rw [hl, ht, hi]
    exact ⟨rfl, rfl, rfl⟩
  · rw [hi] at hn
    exact Or.inl hn

/-- A step that changes nothing the invariant speaks of. -/
theorem TreeInv.idle (h : TreeInv E M m g) (t : Tid) : TreeStep E M t m g m g :=
  h.side rfl rfl rfl rfl rfl rfl h.cache t

/-- A leaf is written at a private address. -/
theorem TreeInv.privLeaf (h : TreeInv E M m g) (hp : g.priv a = some t) (l : Leaf) :
    TreeStep E M t m g (m.setLeaf a l) g := by
  refine h.hidden (fun b hb => ?_) (fun _ _ hn => Or.inl hn) rfl rfl rfl (h.cache.mono (.refl g) rfl)
  have hba : b ≠ a := fun he => hb (he ▸ hp)
  exact ⟨Function.update_of_ne hba .., rfl, rfl⟩

/-- A table is written at a private address. -/
theorem TreeInv.privTable (h : TreeInv E M m g) (hp : g.priv a = some t) (tab : FPTable) :
    TreeStep E M t m g (m.setTable a tab) g := by
  refine h.hidden (fun b hb => ?_) (fun _ _ hn => Or.inl hn) rfl rfl rfl (h.cache.mono (.refl g) rfl)
  have hba : b ≠ a := fun he => hb (he ▸ hp)
  exact ⟨rfl, Function.update_of_ne hba .., rfl⟩

/-- An inner node is written at a private address. It is marked as the root only by a client that has
split the root. -/
theorem TreeInv.privNode (h : TreeInv E M m g) (hp : g.priv a = some t)
    (hroot : n.hdr.isRoot = true → M.rooted → g.rtok = some t) :
    TreeStep E M t m g (m.setInner a n) g := by
  refine h.hidden (fun b hb => ?_) (fun b n' hn => ?_) rfl rfl rfl (h.cache.mono (.refl g) rfl)
  · have hba : b ≠ a := fun he => hb (he ▸ hp)
    exact ⟨rfl, rfl, Function.update_of_ne hba ..⟩
  · change Function.update m.inner a (some n) b = some n' at hn
    by_cases hba : b = a
    · subst hba
      rw [Function.update_self] at hn
      cases hn
      exact Or.inr ⟨hp, hroot⟩
    · rw [Function.update_of_ne hba] at hn
      exact Or.inl hn

/-! ## Allocation -/

/-- The view after `t` has been given the address `a`. -/
def TreeView.give (g : TreeView) (t : Tid) (a : Gaddr) : TreeView :=
  { g with priv := Function.update g.priv a (some t) }

/-- The next address has not been handed out. -/
theorem not_used : ¬ Used E m (E.alloc m.allocs) := by
  rintro ⟨i, hi, he⟩
  exact absurd (E.alloc_inj he) hi.ne'

theorem TreeInv.allocate (h : TreeInv E M m g) (t : Tid) :
    g.priv (E.alloc m.allocs) = none ∧
      TreeStep E M t m g { m with allocs := m.allocs + 1 } (g.give t (E.alloc m.allocs)) := by
  have hused : ∀ b, Used E m b → Used E { m with allocs := m.allocs + 1 } b ∧
      b ≠ E.alloc m.allocs := by
    intro b hb
    refine ⟨?_, fun he => not_used (he ▸ hb)⟩
    obtain ⟨i, hi, he⟩ := hb
    exact ⟨i, Nat.lt_succ_of_lt hi, he⟩
  have hkeep : ∀ b u, g.priv b = some u → (g.give t (E.alloc m.allocs)).priv b = some u := by
    intro b u hb
    simp only [TreeView.give, Function.update_of_ne (hused b (h.alloc.priv b u hb).1).2, hb]
  have hnone : g.priv (E.alloc m.allocs) = none := by
    cases hp : g.priv (E.alloc m.allocs) with
    | none => rfl
    | some u => exact absurd (h.alloc.priv _ u hp).1 not_used
  have hg : IndexGrows g (g.give t (E.alloc m.allocs)) :=
    ⟨rfl, fun _ h => h, fun _ h => h, fun _ _ h => h⟩
  refine ⟨hnone, ⟨h.leaves.index hg rfl rfl rfl fun _ _ => Iff.rfl,
    h.levels.frame rfl rfl rfl rfl rfl rfl, h.nodes.congr rfl rfl rfl rfl rfl,
    h.root.congr rfl rfl rfl rfl rfl rfl rfl rfl rfl fun b u _ => hkeep b u, ⟨?_, ?_, ?_, ?_⟩,
    h.cache.mono hg.le rfl, h.eff.index rfl rfl⟩, ?_⟩
  · intro a x hx
    obtain ⟨h1, h2⟩ := h.alloc.leaf a x hx
    exact ⟨(hused _ h1).1, (hused _ h2).1⟩
  · intro a x hx
    exact (hused _ (h.alloc.table a x hx)).1
  · intro a n hn
    exact (hused _ (h.alloc.inner a n hn)).1
  · intro b u hb
    by_cases hba : b = E.alloc m.allocs
    · subst hba
      refine ⟨⟨m.allocs, Nat.lt_succ_self _, rfl⟩, ?_, ?_, ?_⟩
      · cases hl : g.leaf (E.alloc m.allocs) with
        | none => exact hl
        | some x => exact absurd (h.alloc.leaf _ x hl).1 not_used
      · cases hi : g.inner (E.alloc m.allocs) with
        | none => exact hi
        | some i =>
          obtain ⟨n, hn, -⟩ := h.nodes.stored _ i hi
          exact absurd (h.alloc.inner _ n hn) not_used
      · intro d x hx he
        exact not_used (he ▸ (h.alloc.leaf d x hx).2)
    · simp only [TreeView.give, Function.update_of_ne hba] at hb
      obtain ⟨h1, h2⟩ := h.alloc.priv b u hb
      exact ⟨(hused _ h1).1, h2⟩
  · refine TreeRel.index hg rfl rfl (fun _ h => h) (fun _ _ => Iff.rfl) (fun _ _ _ _ => Iff.rfl)
      (fun _ _ _ => Iff.rfl) (fun _ _ _ _ => rfl) (fun _ _ _ => Iff.rfl) (fun _ _ => Iff.rfl)
      (fun _ _ => Iff.rfl) (fun _ _ _ => rfl) ?_ (fun _ _ _ _ => rfl)
    intro b u hu
    by_cases hba : b = E.alloc m.allocs
    · subst hba
      rw [hnone]
      simp [TreeView.give, Ne.symm hu]
    · simp only [TreeView.give, Function.update_of_ne hba]

/-! ## The lock of the root pointer -/

/-- The view after the lock of the root pointer has been taken or released. -/
def TreeView.setRootLock (g : TreeView) (own : Option Tid) : TreeView := { g with rown := own }

theorem TreeInv.rootLock (h : TreeInv E M m g) {o : Option Tid} (ho : ∀ u, g.rown = some u → u = t)
    (ho' : ∀ u, o = some u → u = t) :
    TreeStep E M t m g (m.setLockBit o.isSome .root) (g.setRootLock o) := by
  have hg : IndexGrows g (g.setRootLock o) := ⟨rfl, fun _ h => h, fun _ h => h, fun _ _ h => h⟩
  refine ⟨⟨h.leaves.index hg rfl rfl rfl fun _ _ => Iff.rfl,
    h.levels.frame rfl rfl rfl rfl rfl rfl, h.nodes.congr rfl rfl rfl rfl rfl,
    ⟨h.root.inner, h.root.lev_le, h.root.top_pend, h.root.above, rfl, h.root.marked, h.root.unique,
      h.root.tok⟩,
    ⟨h.alloc.leaf, h.alloc.table, h.alloc.inner, h.alloc.priv⟩, h.cache.mono hg.le rfl, h.eff.index rfl rfl⟩, ?_⟩
  refine TreeRel.index hg rfl rfl (fun _ h => h) (fun _ _ => Iff.rfl) (fun _ _ _ _ => Iff.rfl)
    (fun _ _ _ => Iff.rfl) (fun _ _ _ _ => rfl) (fun _ _ _ => Iff.rfl) ?_
    (fun _ _ => Iff.rfl) (fun _ _ _ => rfl) (fun _ _ _ => Iff.rfl) (fun _ _ _ _ => rfl)
  intro u hu
  exact ⟨fun h => absurd (ho' u h) hu, fun h => absurd (ho u h) hu⟩

theorem TreeInv.lockRoot (h : TreeInv E M m g) (hbit : m.lockBit .root = some false) (t : Tid) :
    g.rown = none ∧ TreeStep E M t m g (m.setLockBit true .root) (g.setRootLock (some t)) := by
  have hnone : g.rown = none := by
    have hlock := h.root.lock
    simp only [Cluster.lockBit, Option.some.injEq] at hbit
    rw [hbit] at hlock
    simpa using hlock.symm
  refine ⟨hnone, TreeInv.rootLock h (o := some t) ?_ ?_⟩
  · intro u hu
    rw [hnone] at hu
    cases hu
  · intro u hu
    exact (Option.some.inj hu).symm

theorem TreeInv.unlockRoot (h : TreeInv E M m g) (hown : g.rown = some t) :
    TreeStep E M t m g (m.setLockBit false .root) (g.setRootLock none) := by
  refine TreeInv.rootLock h (o := none) ?_ ?_
  · intro u hu
    rw [hown] at hu
    exact (Option.some.inj hu).symm
  · intro u hu
    cases hu

/-! ## The new root -/

/-- The view after the root pointer has been set to the private node `b`, whose records lead to the
old root and to the node of `r`. -/
def TreeView.raise (g : TreeView) (b root : Gaddr) (r : Record) (tok : Option Tid) : TreeView :=
  { g with
    inner := Function.update g.inner b (some ⟨g.top + 1, KeyNull⟩)
    lvl := Function.update g.lvl (g.top + 1) [.make KeyNull root .Null 0 0, r]
    top := g.top + 1
    ipend := Function.update g.ipend r.addr none
    priv := Function.update g.priv b none
    rtok := tok }

section Raise

variable {tok : Option Tid} (h : TreeInv E M m g) (hb : g.priv b = some t)
  (hr : g.inner r.addr = some ⟨g.top, r.key⟩) (hv : r.valid = true) (hk : KeyNull < r.key)
  (hk' : r.key < KeyMax)

/-- The nodes are those of before and the new root. -/
theorem raise_inner {root d : Gaddr} (hd : (g.raise b root r tok).inner d = some j) :
    (d = b ∧ j = ⟨g.top + 1, KeyNull⟩) ∨ (d ≠ b ∧ g.inner d = some j) := by
  by_cases hdb : d = b
  · subst hdb
    simp only [TreeView.raise, Function.update_self] at hd
    exact Or.inl ⟨rfl, (Option.some.inj hd).symm⟩
  · simp only [TreeView.raise, Function.update_of_ne hdb] at hd
    exact Or.inr ⟨hdb, hd⟩

theorem raise_lvl {root : Gaddr} {ℓ : Nat} (hℓ : ℓ ≠ g.top + 1) :
    (g.raise b root r tok).lvl ℓ = g.lvl ℓ := Function.update_of_ne hℓ ..

include h hb in
theorem raise_keeps {d : Gaddr} (hd : g.inner d = some j) :
    (g.raise b m.root r tok).inner d = some j := by
  simp only [TreeView.raise, Function.update_of_ne (h.alloc.ne_priv hd hb).symm, hd]

include h hb in
theorem raise_grows : IndexGrows g (g.raise b m.root r tok) :=
  ⟨rfl, fun _ h => h, fun _ h => h, fun _ _ => raise_keeps h hb⟩

include h hr hv hk hk' hb in
theorem levels_raise : LevelsOk (g.raise b m.root r tok) := by
  refine ⟨?_, ?_, ?_, ?_, h.levels.partner_inj, h.levels.fresh⟩
  · intro ℓ
    by_cases hℓ : ℓ = g.top + 1
    · subst hℓ
      have hlvl : (g.raise b m.root r tok).lvl (g.top + 1) = [.make KeyNull m.root .Null 0 0, r] := by
        simp only [TreeView.raise, Function.update_self]
      rw [hlvl]
      exact ⟨hk, ⟨rfl, raise_keeps h hb h.root.inner⟩, hk', ⟨hv, raise_keeps h hb hr⟩, trivial⟩
    · rw [raise_lvl hℓ]
      refine (h.levels.seg ℓ).mono fun s e _ hs => ?_
      cases ℓ with
      | zero => exact hs
      | succ ℓ => exact ⟨hs.1, raise_keeps h hb hs.2⟩
  · rw [raise_lvl (Nat.succ_ne_zero g.top).symm]
    exact h.levels.idx
  · intro d j hd hpend hlev
    change j.lev < g.top + 1 at hlev
    obtain ⟨-, rfl⟩ | ⟨-, hd⟩ := raise_inner hd
    · exact absurd hlev (lt_irrefl _)
    by_cases hjt : j.lev = g.top
    · have hlvl : (g.raise b m.root r tok).lvl (j.lev + 1) =
          [.make KeyNull m.root .Null 0 0, r] := by
        simp only [TreeView.raise, hjt, Function.update_self]
      rw [hlvl]
      by_cases hdr : d = r.addr
      · subst hdr
        have hj : j = ⟨g.top, r.key⟩ := Option.some.inj (hd.symm.trans hr)
        exact ⟨r, by simp, by rw [hj], rfl⟩
      · simp only [TreeView.raise, Function.update_of_ne hdr] at hpend
        rcases h.root.top_pend d j hd hjt with rfl | hne'
        · have hj : j = ⟨g.top, KeyNull⟩ := Option.some.inj (hd.symm.trans h.root.inner)
          exact ⟨_, List.mem_cons_self .., by rw [hj]; rfl, rfl⟩
        · exact absurd hpend hne'
    · rw [raise_lvl (by omega)]
      refine h.levels.pidx d j hd ?_ (by omega)
      have hdr : d ≠ r.addr := by
        rintro rfl
        have hj : j = ⟨g.top, r.key⟩ := Option.some.inj (hd.symm.trans hr)
        exact hjt (by rw [hj])
      simpa only [TreeView.raise, Function.update_of_ne hdr] using hpend
  · intro d e hd
    obtain ⟨z, y, hz, hy, hp⟩ := h.levels.pair d e hd
    exact ⟨z, y, hz, hy, hp.fresh, hp.tver, hp.own, hp.min, hp.lt, hp.pmax⟩

variable (hw : w.Wf) (hrecs : w.recs = [.make KeyNull m.root .Null 0 0, r])
  (hh : w.hdr = { rightAddr := E.stray b, isRoot := true })
  (hc : w.checkConsistent E.hash = true) (hl : w.lock = false) (hmb : m.inner b = some w)

include h hb hk' hw hrecs hh hc hl in
theorem raise_stored :
    NodeStored E (g.raise b m.root r tok) b ⟨g.top + 1, KeyNull⟩ w where
  wf := hw
  crc := hc
  min := by rw [hh]
  lt := by rw [hh]; exact keyNull_lt_keyMax
  le := by rw [hh]
  bottom := by
    rw [hh]
    simp
  recs := by
    rw [hrecs, hh]
    simp only [TreeView.raise, Function.update_self]
    rw [slice_cons_of_mem (a := Record.make KeyNull m.root .Null 0 0) (keyNull_le _)
      keyNull_lt_keyMax, slice_cons_of_mem (keyNull_le _) hk']
    rfl
  first := by
    refine ⟨.make KeyNull m.root .Null 0 0, ?_, rfl⟩
    simp only [TreeView.raise, Function.update_self]
    exact List.mem_cons_self ..
  right := by
    rw [hh]
    intro hlt
    exact absurd hlt (lt_irrefl _)
  stray := by
    rw [hh]
    intro _ j
    exact (E.stray_ne b j).symm
  lock := by
    have hnone : g.iown b = none := by
      cases ho : g.iown b with
      | none => rfl
      | some u =>
        obtain ⟨j, hj⟩ := h.nodes.own b u ho
        rw [(h.alloc.priv b t hb).2.2.1] at hj
        cases hj
    rw [hl]
    simp [TreeView.raise, hnone]
  root := by
    rw [hh]
    exact fun _ => ⟨rfl, rfl⟩

include h hb hr hk' hw hrecs hh hc hl hmb in
theorem nodes_raise : NodesOk E { m with root := b } (g.raise b m.root r tok) := by
  refine ⟨?_, ?_, ?_, ?_⟩
  · intro d j hd
    obtain ⟨rfl, rfl⟩ | ⟨-, hd⟩ := raise_inner hd
    · exact ⟨w, hmb, raise_stored h hb hk' hw hrecs hh hc hl⟩
    · obtain ⟨n, hn, hs⟩ := h.nodes.stored d j hd
      have hlvl : (g.raise b m.root r tok).lvl j.lev = g.lvl j.lev :=
        raise_lvl (Nat.lt_succ_of_le (h.root.lev_le d j hd)).ne
      refine ⟨n, hn, hs.off (fun _ _ => raise_keeps h hb) rfl ?_ ?_⟩
      · rw [hlvl]
      · rw [hlvl]
        exact hs.first
  · intro d e j j' n n' k hd he hlev hn hn' h1 h2 h3 h4
    rcases raise_inner hd with ⟨hdb, rfl⟩ | ⟨-, hd⟩ <;> rcases raise_inner he with ⟨heb, rfl⟩ | ⟨-, he⟩
    · exact hdb.trans heb.symm
    · have hle := h.root.lev_le e j' he
      rw [← hlev] at hle
      exact absurd hle (Nat.not_succ_le_self _)
    · have hle := h.root.lev_le d j hd
      rw [hlev] at hle
      exact absurd hle (Nat.not_succ_le_self _)
    · exact h.nodes.disjoint d e j j' n n' k hd he hlev hn hn' h1 h2 h3 h4
  · intro d u hd
    obtain ⟨j, hj⟩ := h.nodes.own d u hd
    exact ⟨j, raise_keeps h hb hj⟩
  · intro d u hd
    by_cases hdr : d = r.addr
    · exact ⟨_, raise_keeps h hb (hdr ▸ hr)⟩
    · simp only [TreeView.raise, Function.update_of_ne hdr] at hd
      obtain ⟨j, hj⟩ := h.nodes.pend d u hd
      exact ⟨j, raise_keeps h hb hj⟩

variable (htok : (M.rooted ∧ g.rtok = some t ∧ tok = none ∧ ∀ d, g.priv d = some t → d = b) ∨
  (¬ M.rooted ∧ tok = g.rtok))

include h hh hmb htok in
theorem root_raise : RootOk M { m with root := b } (g.raise b m.root r tok) := by
  refine ⟨?_, ?_, ?_, ?_, h.root.lock, fun _ _ => ⟨w, hmb, by rw [hh]⟩, ?_, ?_⟩
  · simp only [TreeView.raise, Function.update_self]
  · intro d j hd
    change j.lev ≤ g.top + 1
    obtain ⟨-, rfl⟩ | ⟨-, hd⟩ := raise_inner hd
    · exact le_rfl
    · exact (h.root.lev_le d j hd).trans (Nat.le_succ _)
  · intro d j hd hlev
    change j.lev = g.top + 1 at hlev
    obtain ⟨rfl, -⟩ | ⟨-, hd⟩ := raise_inner hd
    · exact Or.inl rfl
    · have := h.root.lev_le d j hd
      omega
  · intro ℓ hℓ
    change g.top + 1 < ℓ at hℓ
    rw [raise_lvl (by omega)]
    exact h.root.above ℓ (by omega)
  · intro hM d n hd hroot
    rcases htok with ⟨-, htok, hnone, honly⟩ | ⟨hno, -⟩
    · refine Or.inl ⟨?_, hnone⟩
      rcases h.root.unique hM d n hd hroot with ⟨-, hn⟩ | ⟨u, hu, hp⟩
      · rw [htok] at hn
        cases hn
      · rw [htok] at hu
        cases hu
        exact honly d hp
    · exact absurd hM hno
  · intro u hu
    change tok = some u at hu
    rcases htok with ⟨hM, -⟩ | ⟨-, htok⟩
    · exact hM
    · exact h.root.tok u (htok ▸ hu)

include h hb htok in
theorem rel_raise (hown : g.rown = some t) (hpend : g.ipend r.addr = some t) :
    TreeRel E.hash t m g { m with root := b } (g.raise b m.root r tok) := by
  refine TreeRel.index (raise_grows h hb) rfl rfl (fun _ h => h) (fun _ _ => Iff.rfl)
    (fun _ _ _ _ => Iff.rfl) (fun _ _ _ => Iff.rfl) (fun _ _ _ _ => rfl) ?_ (fun _ _ => Iff.rfl)
    ?_ ?_ ?_ (fun _ _ _ _ => rfl)
  · intro d u hu
    by_cases hdr : d = r.addr
    · subst hdr
      rw [hpend]
      simp [TreeView.raise, Ne.symm hu]
    · simp only [TreeView.raise, Function.update_of_ne hdr]
  · intro u hu
    change tok = some u ↔ _
    rcases htok with ⟨-, htok, hnone, -⟩ | ⟨-, htok⟩
    · rw [htok, hnone]
      simp [Ne.symm hu]
    · rw [htok]
  · rintro u hu (ho | ho)
    · rw [hown] at ho
      exact absurd (Option.some.inj ho).symm hu
    · rcases htok with ⟨-, htok, -⟩ | ⟨hno, -⟩
      · rw [htok] at ho
        exact absurd (Option.some.inj ho).symm hu
      · exact absurd (h.root.tok u ho) hno
  · intro d u hu
    by_cases hdb : d = b
    · subst hdb
      rw [hb]
      simp [TreeView.raise, Ne.symm hu]
    · simp only [TreeView.raise, Function.update_of_ne hdb]

include h hb hr hv hk hk' hw hrecs hh hc hl hmb htok in
/-- The client that holds the lock of the root pointer replaces the root. -/
theorem TreeInv.raise (hown : g.rown = some t) (hpend : g.ipend r.addr = some t) :
    TreeStep E M t m g { m with root := b } (g.raise b m.root r tok) := by
  have hg : IndexGrows g (g.raise b m.root r tok) := raise_grows h hb
  refine ⟨⟨h.leaves.index hg rfl rfl rfl fun _ _ => Iff.rfl, levels_raise h hb hr hv hk hk',
    nodes_raise h hb hr hk' hw hrecs hh hc hl hmb, root_raise h hh hmb htok,
    ⟨h.alloc.leaf, h.alloc.table, h.alloc.inner, fun d u hd => ?_⟩, h.cache.mono hg.le rfl,
    h.eff.index rfl rfl⟩, rel_raise h hb htok hown hpend⟩
  have hdb : d ≠ b := by
    rintro rfl
    simp [TreeView.raise] at hd
  simp only [TreeView.raise, Function.update_of_ne hdb] at hd ⊢
  exact h.alloc.priv d u hd

end Raise

end DMTree
