import DMTree.Protocol

/-!
# What the invariant of the tree says about lookups

Knowledge about records and nodes survives every change of the tree. A lookup in a node that covers
the key finds the record of its level with the greatest key up to it, and the record of the bottom
level leads to the leaf that has the key in its range, unless that leaf is being split.
-/

namespace DMTree

open Conc Segments

variable {E : Env} {M : Mode} {m m' : Cluster} {g g' g'' : TreeView} {n : InnerNode} {r : Record}
  {k : Key} {a b : Gaddr} {i : NodeView} {ℓ : Nat} {t u : Tid} {x y : LeafView}

/-! ## Knowledge -/

theorem TreeView.Le.refl (g : TreeView) : g.Le g where
  leaf := fun _ x h => ⟨x, h, rfl, rfl, rfl, .inr ⟨rfl, rfl, id⟩⟩
  indexed := fun _ h => h
  inner := fun _ _ h => h

theorem SnapRec.mono (h : SnapRec g r k) (hle : g.Le g') : SnapRec g' r k := by
  obtain ⟨⟨x, hx, htab, hcap, hmin, hpos, hver, hclosed, hlt⟩, hidx, hkey, hk⟩ := h
  obtain ⟨y, hy, htab', hmin', hcap', hv⟩ := hle.leaf r.addr x hx
  refine ⟨⟨y, hy, htab'.trans htab, hcap'.trans hcap, hmin'.trans hmin, by omega, ?_, ?_, ?_⟩,
    hle.indexed _ hidx, hkey, hk⟩
  · rcases hv with hv | ⟨hv, _, _⟩ <;> omega
  · intro hc
    rcases hv with hv | ⟨hv, _, hs⟩
    · omega
    · have := hclosed (hs hc)
      omega
  · intro he
    rcases hv with hv | ⟨hv, hp, _⟩
    · omega
    · rw [hp]
      exact hlt (by omega)

theorem SnapNode.mono (h : SnapNode E g n) (hle : g.Le g') : SnapNode E g' n where
  search := fun hb k hk => ⟨(h.search hb k hk).1.mono hle, (h.search hb k hk).2⟩
  child := by
    intro hb r hr
    obtain ⟨ℓ, hi⟩ := h.child hb r hr
    exact ⟨ℓ, hle.inner _ _ hi⟩
  right := by
    intro hm
    obtain ⟨ℓ, hi⟩ := h.right hm
    exact ⟨ℓ, hle.inner _ _ hi⟩

theorem CacheOk.mono (h : CacheOk E M m g) (hle : g.Le g') (hn : m'.node = m.node) :
    CacheOk E M m' g' where
  remote := by
    rw [hn]
    intro i e he
    obtain ⟨κ, hκ, hk⟩ := h.remote i e he
    exact ⟨κ, hle.inner _ _ hκ, hk⟩
  node := by
    rw [hn]
    intro i e he b hb
    obtain ⟨h1, h2⟩ := h.node i e he b hb
    exact ⟨h1.mono hle, h2⟩
  wf := by
    rw [hn]
    exact h.wf

/-! ## Lookups -/

/-- `r` is the record for `k` on the level `ℓ`. -/
def Floor (g : TreeView) (ℓ : Nat) (k : Key) (r : Record) : Prop :=
  ∃ l₁ l₂, g.lvl ℓ = l₁ ++ r :: l₂ ∧ r.key ≤ k ∧ ∀ s ∈ l₂, k < s.key

/-- A lookup in a node that covers the key. -/
theorem NodeStored.search_floor (h : NodeStored E g a i n) (hs : Sorted Record.key (g.lvl i.lev))
    (hk : n.checkHdr k = true) :
    Floor g i.lev k (n.search E.under k) ∧ n.search E.under k ∈ n.recs ∧
      i.min ≤ (n.search E.under k).key := by
  obtain ⟨hmin, hmax⟩ := InnerNode.checkHdr_iff.mp hk
  rw [h.min] at hmin
  obtain ⟨r₀, hr₀, hk₀⟩ := h.first
  obtain ⟨l₁, r, l₂, hl, hrk, hl₂⟩ := Segments.exists_floor ⟨r₀, hr₀, hk₀.le.trans hmin⟩
  have hge : i.min ≤ r.key := by
    rw [← hk₀]
    rw [hl] at hs hr₀
    exact hs.le_floor hl₂ hr₀ (hk₀.le.trans hmin)
  have hrecs : n.recs = slice Record.key i.min n.hdr.maxKey l₁ ++
      r :: slice Record.key i.min n.hdr.maxKey l₂ := by
    rw [h.recs, hl, slice_append, slice_cons_of_mem hge (hrk.trans_lt hmax)]
  have hsearch : n.search E.under k = r :=
    h.wf.search_eq hrecs hrk fun s hs => hl₂ s (mem_slice.mp hs).1
  rw [hsearch]
  exact ⟨⟨l₁, l₂, hl, hrk, hl₂⟩, by rw [hrecs]; simp, hge⟩

/-- The segment of the record for `k` contains `k`. -/
theorem LevelsOk.floor (h : LevelsOk g) (hf : Floor g ℓ k r) (hk : k < KeyMax) :
    ∃ b, k < b ∧ RecOk g ℓ r b := by
  obtain ⟨l₁, l₂, hl, _, hl₂⟩ := hf
  have hseg := h.seg ℓ
  rw [hl] at hseg
  exact ⟨_, bound_of_forall_lt hl₂ hk, hseg.item.2⟩

/-- The record for `k` on the bottom level. -/
theorem TreeInv.snapRec (h : TreeInv E M m g) (hf : Floor g 0 k r) (hk : k < KeyMax) :
    SnapRec g r k := by
  obtain ⟨b, hb, _, x, hx, htab, hcap, hmin, hst, hv⟩ := h.levels.floor hf hk
  obtain ⟨_, _, _, hrk, _⟩ := hf
  have hpos := (h.leaves.ok _ x hx).cap_pos
  refine ⟨⟨x, hx, htab, hcap, hmin, hpos, ?_⟩, hst, hrk, hk⟩
  rcases hv with ⟨hc, hv, rfl⟩ | ⟨t, s, y, hs, hv, _, _⟩
  · exact ⟨hv.le, fun hc' => by simp [hc] at hc', fun _ => hb⟩
  · exact ⟨by omega, fun _ => by omega, fun hv' => by omega⟩

theorem LevelsOk.sorted (h : LevelsOk g) (ℓ : Nat) : Sorted Record.key (g.lvl ℓ) := (h.seg ℓ).sorted

/-- The image of a node that can be reached. -/
theorem TreeInv.snapNode (h : TreeInv E M m g) (hn : NodeStored E g a i n) : SnapNode E g n where
  search := by
    intro hb k hk
    have hlev : i.lev = 0 := by simpa [hn.bottom] using hb
    obtain ⟨hf, _, hge⟩ := hn.search_floor (h.levels.sorted _) hk
    have hlt : k < KeyMax := (InnerNode.checkHdr_iff.mp hk).2.trans_le hn.le
    rw [hlev] at hf
    exact ⟨h.snapRec hf hlt, hn.min ▸ hge⟩
  child := by
    intro hb r hr
    have hlev : i.lev ≠ 0 := by simpa [hn.bottom] using hb
    obtain ⟨ℓ, hℓ⟩ := Nat.exists_eq_succ_of_ne_zero hlev
    rw [hn.recs, hℓ] at hr
    obtain ⟨l₁, l₂, hl⟩ := List.append_of_mem (mem_slice.mp hr).1
    have hseg := h.levels.seg (ℓ + 1)
    rw [hl] at hseg
    exact ⟨ℓ, hseg.item.2.2⟩
  right := fun hm => ⟨i.lev, hn.right hm⟩

/-- Nodes of a level that start with the same key are the same. -/
theorem TreeInv.inner_inj (h : TreeInv E M m g) (ha : g.inner a = some i) (hb : g.inner b = some i) :
    a = b := by
  obtain ⟨n, hn, hs⟩ := h.nodes.stored a i ha
  obtain ⟨n', hn', hs'⟩ := h.nodes.stored b i hb
  exact h.nodes.disjoint a b i i n n' i.min ha hb rfl hn hn' le_rfl hs.lt le_rfl hs'.lt

/-- A table is written at an address that has been handed out. -/
theorem AllocOk.table_update {c : Gaddr} {o : Option FPTable} (h : AllocOk E m g) (hc : Used E m c)
    (b : Gaddr) (tab : FPTable) (hb : Function.update m.table c o b = some tab) : Used E m b := by
  by_cases hbc : b = c
  · exact hbc ▸ hc
  · rw [Function.update_of_ne hbc] at hb
    exact h.table b tab hb

/-- An address that is never handed out is not the address of a node. -/
theorem AllocOk.inner_none (h : AllocOk E m g) (ha : ∀ j, E.alloc j ≠ a) : m.inner a = none := by
  cases hn : m.inner a with
  | none => rfl
  | some n =>
    obtain ⟨j, _, hj⟩ := h.inner a n hn
    exact absurd hj.symm (ha j)

/-! ## Stability -/

theorem TreeRel.lown_iff (h : TreeRel E.hash t m g m' g') (hu : u ≠ t) :
    g'.lown a = some u ↔ g.lown a = some u := by
  refine ⟨h.lown a u hu, fun ho => ?_⟩
  obtain ⟨x, hx, hown⟩ := Option.bind_eq_some_iff.mp ho
  exact Option.bind_eq_some_iff.mpr ⟨x, (h.locked a x u hu hx hown).1, hown⟩

theorem Owned.stable {o : Holding} (h : Owned u g o) (hr : TreeRel E.hash t m g m' g') (hu : u ≠ t) :
    Owned u g' o where
  leaf := fun a => (hr.lown_iff hu).trans (h.leaf a)
  node := fun a => (hr.iown a u hu).trans (h.node a)
  root := (hr.rown u hu).trans h.root
  opened := fun a s => (hr.opened a s u hu).trans (h.opened a s)
  ipend := fun a => (hr.ipend a u hu).trans (h.ipend a)
  tok := (hr.rtok u hu).trans h.tok
  priv := fun a => (hr.priv a u hu).trans (h.priv a)

end DMTree
