import DMTree.Proofs.RootSteps

/-!
# The split of a leaf

A full leaf is split in two writes. With the first one, which rewrites the leaf, the new leaf and its
table become part of the chain. The second one writes the table of the leaf with the next version and
releases the lock; the records of both leaves are entered into the index later.
-/

namespace DMTree

open Conc Segments

variable {E : Env} {M : Mode} {m m' : Cluster} {g g' : TreeView} {a b s fs : Gaddr} {t u : Tid}
  {x y z : LeafView} {l : Leaf} {tab : FPTable} {p q : EntryPos} {c cap' : Nat} {rz : Resized}

/-! ## The first write -/

/-- The pairs that stay, and those that move. -/
def lowerPairs (x : LeafView) (p : EntryPos) (cap' : Nat) : List EntryPos :=
  (sortedPairs p x.kv).take (splitPoint x.cap cap')

def upperPairs (x : LeafView) (p : EntryPos) (cap' : Nat) : List EntryPos :=
  (sortedPairs p x.kv).drop (splitPoint x.cap cap')

/-- The leaf after the first write. -/
def LeafView.lower (x : LeafView) (p q : EntryPos) (cap' : Nat) (s : Gaddr) : LeafView :=
  { x with max := q.key, ver := x.ver + 1, right := some s, kv := lowerPairs x p cap' }

/-- The new leaf. -/
def LeafView.upper (H : Hashes) (x : LeafView) (p q : EntryPos) (cap' : Nat) (fs : Gaddr) :
    LeafView where
  tab := fs
  min := q.key
  cap := cap'
  max := x.max
  ver := 0
  right := x.right
  kv := upperPairs x p cap'
  fps := (upperPairs x p cap').map fun p => calKeyFp H p.key
  tver := 0
  pmax := x.max
  own := none

/-- `s` is put right behind `a`. -/
def insertBehind (a s : Gaddr) (l : List Gaddr) : List Gaddr :=
  l.flatMap fun b => if b = a then [b, s] else [b]

theorem insertBehind_of_notMem {l : List Gaddr} (h : a ∉ l) : insertBehind a s l = l := by
  induction l with
  | nil => rfl
  | cons b l ih =>
    have hb : b ≠ a := fun he => h (he ▸ List.mem_cons_self ..)
    have hl : a ∉ l := fun hm => h (List.mem_cons_of_mem _ hm)
    have ih' := ih hl
    simp only [insertBehind] at ih' ⊢
    simp [hb, ih']

theorem insertBehind_eq {l₁ l₂ : List Gaddr} (h : (l₁ ++ a :: l₂).Nodup) :
    insertBehind a s (l₁ ++ a :: l₂) = l₁ ++ a :: s :: l₂ := by
  have hnd := List.nodup_append.mp h
  have h₁ : a ∉ l₁ := fun hm => hnd.2.2 a hm a (List.mem_cons_self ..) rfl
  have h₂ : a ∉ l₂ := (List.nodup_cons.mp hnd.2.1).1
  have e₁ := insertBehind_of_notMem (s := s) h₁
  have e₂ := insertBehind_of_notMem (s := s) h₂
  simp only [insertBehind] at e₁ e₂ ⊢
  simp [e₁, e₂]

/-- The view after the first write of the split. -/
def TreeView.linkLeaf (g : TreeView) (H : Hashes) (a s fs : Gaddr) (x : LeafView) (p q : EntryPos)
    (cap' c : Nat) : TreeView :=
  { g with
    leaf := Function.update (Function.update g.leaf a (some (x.lower p q cap' s))) s
      (some (x.upper H p q cap' fs))
    chain := insertBehind a s g.chain
    st := Function.update g.st a (.moving s)
    priv := Function.update (Function.update g.priv s none) fs none
    eff := g.eff ++ [(c, p)] }

/-- Every pair stays or moves. -/
theorem mem_lower_upper (x : LeafView) (p : EntryPos) (cap' : Nat) (d : EntryPos) :
    (d ∈ lowerPairs x p cap' ∨ d ∈ upperPairs x p cap') ↔ d = p ∨ d ∈ x.kv := by
  rw [← List.mem_append, lowerPairs, upperPairs, List.take_append_drop, perm_sortedPairs.mem_iff,
    List.mem_cons]

/-- The leaves after the write. -/
theorem link_leaf {H : Hashes} (hb : (g.linkLeaf H a s fs x p q cap' c).leaf b = some z) :
    (b = s ∧ z = x.upper H p q cap' fs) ∨ (b = a ∧ b ≠ s ∧ z = x.lower p q cap' s) ∨
      (b ≠ a ∧ b ≠ s ∧ g.leaf b = some z) := by
  by_cases hbs : b = s
  · subst hbs
    simp only [TreeView.linkLeaf, Function.update_self] at hb
    exact Or.inl ⟨rfl, (Option.some.inj hb).symm⟩
  by_cases hba : b = a
  · subst hba
    simp only [TreeView.linkLeaf, Function.update_of_ne hbs, Function.update_self] at hb
    exact Or.inr (Or.inl ⟨rfl, hbs, (Option.some.inj hb).symm⟩)
  · simp only [TreeView.linkLeaf, Function.update_of_ne hbs, Function.update_of_ne hba] at hb
    exact Or.inr (Or.inr ⟨hba, hbs, hb⟩)

theorem link_st_self {H : Hashes} : (g.linkLeaf H a s fs x p q cap' c).st a = .moving s := by
  simp only [TreeView.linkLeaf, Function.update_self]

theorem link_st_ne {H : Hashes} (hb : b ≠ a) : (g.linkLeaf H a s fs x p q cap' c).st b = g.st b := by
  simp only [TreeView.linkLeaf, Function.update_of_ne hb]

/-- A slot below the length `n` holds the key. -/
theorem exists_slot {l : List EntryPos} {d : EntryPos} (hd : d ∈ l) {n : Nat} (hn : l.length ≤ n) :
    ∃ i : Nat, i < n ∧ (l[i]?).map EntryPos.key = some d.key := by
  obtain ⟨i, hi⟩ := List.mem_iff_getElem?.mp hd
  exact ⟨i, (List.getElem?_eq_some_iff.mp hi).1.trans_le hn, by rw [hi]; rfl⟩

/-- What `t` has prepared: the leaf `a` is full and locked, the new leaf and its table are written at
private addresses, and `rz` are the images for the pair `p`. -/
structure SplitReady (E : Env) (t : Tid) (m : Cluster) (g : TreeView) (a s fs : Gaddr) (x : LeafView)
    (l : Leaf) (p q : EntryPos) (cap' : Nat) (rz : Resized) : Prop where
  leaf : g.leaf a = some x
  own : x.own = some t
  st : g.st a = .listed
  rest : x.fps = x.kv.map fun p => calKeyFp E.hash p.key
  full : x.kv.length = x.cap
  image : HdrHolds g x l.hdr
  new : ∀ q ∈ x.kv, q.key ≠ p.key
  range : x.min ≤ p.key ∧ p.key < x.max
  cap_le : x.cap ≤ cap' ∧ cap' ≤ maxNodeCapacity ∧ cap' ≤ 2 * x.cap
  resized : ResizedAs E.hash l p x.kv x.cap cap' s fs q rz
  ne : s ≠ fs
  priv : g.priv s = some t ∧ g.priv fs = some t
  tok : g.rtok ≠ some t
  sibling : m.leaf s = some rz.sibling
  siblingTable : m.table fs = some rz.siblingTable

namespace SplitReady

variable (h : TreeInv E M m g) (hr : SplitReady E t m g a s fs x l p q cap' rz)

include hr

theorem cut_mem : q ∈ sortedPairs p x.kv := List.mem_of_getElem? hr.resized.cut

theorem cut_upper : q ∈ upperPairs x p cap' := by
  have hcut := hr.resized.cut
  refine List.mem_of_getElem? (i := 0) ?_
  rw [upperPairs, List.getElem?_drop, Nat.add_zero]
  exact hcut

theorem length_lower : (lowerPairs x p cap').length = splitPoint x.cap cap' := by
  have hle : splitPoint x.cap cap' ≤ x.cap := splitPoint_le
  have hlen : (sortedPairs p x.kv).length = x.kv.length + 1 := length_sortedPairs
  have hfull := hr.full
  rw [lowerPairs, List.length_take, hlen]
  omega

theorem length_upper : (upperPairs x p cap').length = x.cap + 1 - splitPoint x.cap cap' := by
  have hlen : (sortedPairs p x.kv).length = x.kv.length + 1 := length_sortedPairs
  rw [upperPairs, List.length_drop, hlen, hr.full]

theorem upper_half : (cap' + 1) / 2 ≤ (upperPairs x p cap').length := by
  obtain ⟨h1, -, h2⟩ := hr.cap_le
  rw [hr.length_upper]
  simp only [splitPoint]
  by_cases hc : cap' > x.cap
  · rw [if_pos hc]
    omega
  · rw [if_neg hc]
    omega

include h

theorem sorted : Sorted EntryPos.key (sortedPairs p x.kv) :=
  sorted_sortedPairs (h.leaves.ok a x hr.leaf).keys hr.new

theorem pair_range (d : EntryPos) (hd : d ∈ sortedPairs p x.kv) : x.min ≤ d.key ∧ d.key < x.max := by
  rcases List.mem_cons.mp (perm_sortedPairs.mem_iff.mp hd) with rfl | hd
  · exact hr.range
  · exact (h.leaves.ok a x hr.leaf).range d hd

theorem cut_range : x.min ≤ q.key ∧ q.key < x.max := pair_range h hr q (hr.cut_mem)

theorem lower_range (d : EntryPos) (hd : d ∈ lowerPairs x p cap') : x.min ≤ d.key ∧ d.key < q.key :=
  ⟨(pair_range h hr d (List.mem_of_mem_take hd)).1,
    (hr.resized.cut_spec (sorted h hr)).1 d hd⟩

theorem upper_range (d : EntryPos) (hd : d ∈ upperPairs x p cap') : q.key ≤ d.key ∧ d.key < x.max :=
  ⟨(hr.resized.cut_spec (sorted h hr)).2 d hd, (pair_range h hr d (List.mem_of_mem_drop hd)).2⟩

theorem keys_lower : ((lowerPairs x p cap').map EntryPos.key).Nodup :=
  ((sorted h hr).nodup_keys).sublist ((List.take_sublist ..).map _)

theorem keys_upper : ((upperPairs x p cap').map EntryPos.key).Nodup :=
  ((sorted h hr).nodup_keys).sublist ((List.drop_sublist ..).map _)

/-- A leaf that keeps a part of its range, other than the first leaf, keeps half of its pairs. -/
theorem lower_first (h1 : KeyNull < x.min) (h2 : x.min < q.key) :
    x.min ∈ (lowerPairs x p cap').map EntryPos.key ∧
      (x.cap + 1) / 2 ≤ (lowerPairs x p cap').length := by
  have hmin := ((h.leaves.ok a x hr.leaf).first h1 (h2.trans (cut_range h hr).2)).1
  obtain ⟨d, hd, hdk⟩ := List.mem_map.mp hmin
  have hdl : d ∈ lowerPairs x p cap' := by
    rcases (mem_lower_upper x p cap' d).mpr (Or.inr hd) with hl | hu
    · exact hl
    · have hge := (upper_range h hr d hu).1
      rw [hdk] at hge
      exact absurd h2 (not_lt.mpr hge)
  refine ⟨hdk ▸ List.mem_map_of_mem hdl, ?_⟩
  have hpos : 0 < (lowerPairs x p cap').length := List.length_pos_of_mem hdl
  rw [hr.length_lower] at hpos ⊢
  simp only [splitPoint] at hpos ⊢
  by_cases hc : cap' > x.cap
  · rw [if_pos hc] at hpos
    exact absurd hpos (lt_irrefl _)
  · rw [if_neg hc]

/-! The addresses -/

theorem leaf_none : g.leaf s = none := (h.alloc.priv s t hr.priv.1).2.1

theorem ne_leaf : s ≠ a := by
  rintro rfl
  have hnone := leaf_none h hr
  rw [hr.leaf] at hnone
  cases hnone

theorem st_fresh : g.st s = .fresh := h.levels.fresh s (leaf_none h hr)

/-- What the write keeps of every leaf. -/
theorem link_kept (hb : g.leaf b = some z) :
    ∃ z', (g.linkLeaf E.hash a s fs x p q cap' c).leaf b = some z' ∧ z'.tab = z.tab ∧
      z'.min = z.min ∧ z'.cap = z.cap ∧ z'.tver = z.tver ∧ z'.pmax = z.pmax ∧ z'.own = z.own ∧
      z'.fps = z.fps ∧ (b ≠ a → z' = z) := by
  have hbs : b ≠ s := by
    rintro rfl
    rw [leaf_none h hr] at hb
    cases hb
  by_cases hba : b = a
  · subst hba
    rw [hr.leaf] at hb
    cases hb
    exact ⟨x.lower p q cap' s, by
      simp only [TreeView.linkLeaf, Function.update_of_ne hbs, Function.update_self],
      rfl, rfl, rfl, rfl, rfl, rfl, rfl, fun hne => absurd rfl hne⟩
  · exact ⟨z, by
      simp only [TreeView.linkLeaf, Function.update_of_ne hbs, Function.update_of_ne hba, hb],
      rfl, rfl, rfl, rfl, rfl, rfl, rfl, fun _ => rfl⟩

theorem link_le : g.Le (g.linkLeaf E.hash a s fs x p q cap' c) where
  leaf := by
    intro b z hb
    obtain ⟨z', hz', h1, h2, h3, h4, h5, -, -, -⟩ := link_kept h hr (c := c) hb
    refine ⟨z', hz', h1, h2, h3, Or.inr ⟨h4, h5, fun hc => ?_⟩⟩
    by_cases hba : b = a
    · rw [hba, link_st_self] at hc
      cases hc
    · rwa [link_st_ne hba] at hc
  indexed := by
    intro b hb
    by_cases hba : b = a
    · rw [hba, link_st_self]
      simp
    · rwa [link_st_ne hba]
  inner := fun _ _ h => h

/-! The invariant -/

theorem lower_ok : (x.lower p q cap' s).Ok E.hash (.moving s) := by
  have hold := h.leaves.ok a x hr.leaf
  have hrest := hold.rest (by rw [hr.st]; simp)
  have hlen : x.fps.length = x.cap := by rw [hr.rest, List.length_map, hr.full]
  obtain ⟨hq1, hq2⟩ := cut_range h hr
  exact {
    cap_pos := hold.cap_pos
    cap_le := hold.cap_le
    min_le := hq1
    max_le := hq2.le.trans hold.max_le
    keys := keys_lower h hr
    range := lower_range h hr
    rest := fun hb => absurd rfl (hb s)
    moving := by
      intro _ _
      refine ⟨?_, hlen, ?_⟩
      · change x.ver + 1 = x.tver + 1
        rw [hrest.1]
      · change x.own.isSome = true
        rw [hr.own]
        rfl
    first := by
      intro h1 h2
      refine ⟨(lower_first h hr h1 h2).1, ?_⟩
      have hpos := hold.cap_pos
      change (x.cap + 1) / 2 ≤ x.fps.length
      rw [hlen]
      omega }

theorem upper_ok : (x.upper E.hash p q cap' fs).Ok E.hash .fresh := by
  have hold := h.leaves.ok a x hr.leaf
  have hpos := hold.cap_pos
  obtain ⟨hc1, hc2, -⟩ := hr.cap_le
  exact {
    cap_pos := hpos.trans_le hc1
    cap_le := hc2
    min_le := (cut_range h hr).2.le
    max_le := hold.max_le
    keys := keys_upper h hr
    range := upper_range h hr
    rest := fun _ => ⟨rfl, rfl, Or.inl rfl⟩
    moving := by
      intro b hb
      cases hb
    first := by
      intro _ _
      refine ⟨List.mem_map_of_mem (hr.cut_upper), ?_⟩
      change (cap' + 1) / 2 ≤ ((upperPairs x p cap').map _).length
      rw [List.length_map]
      exact hr.upper_half }

theorem stored_lower (ht : m.table x.tab = some tab) : LeafStored E.hash (m.setLeaf a rz.current)
    (g.linkLeaf E.hash a s fs x p q cap' c) a (x.lower p q cap' s) rz.current tab := by
  obtain ⟨_, tab', hs⟩ := h.leaves.stored a x hr.leaf
  have htab : tab' = tab := Option.some.inj (hs.table.symm.trans ht)
  subst htab
  have hcur := hr.resized.current_hdr
  exact {
    leaf := Function.update_self ..
    table := hs.table
    min := by rw [hcur]; exact hr.image.min
    max := by rw [hcur]; rfl
    cap := by rw [hcur]; exact hr.image.cap
    ver := by
      rw [hcur]
      change l.hdr.version + 1 = x.ver + 1
      rw [hr.image.ver]
    entries := by
      have he := hr.resized.current
      rw [hr.image.ver] at he
      exact he
    fps := hs.fps
    lock := hs.lock
    right := by
      rw [hcur]
      refine ⟨rfl, x.upper E.hash p q cap' fs, ?_, rfl, rfl, rfl⟩
      simp only [TreeView.linkLeaf, Function.update_self] }

theorem stored_upper : LeafStored E.hash (m.setLeaf a rz.current)
    (g.linkLeaf E.hash a s fs x p q cap' c) s (x.upper E.hash p q cap' fs) rz.sibling
    rz.siblingTable := by
  have hsib := hr.resized.sibling_hdr
  exact {
    leaf := (Function.update_of_ne (ne_leaf h hr) ..).trans hr.sibling
    table := hr.siblingTable
    min := by rw [hsib]; rfl
    max := by rw [hsib]; exact hr.image.max
    cap := by rw [hsib]; rfl
    ver := by rw [hsib]; rfl
    entries := hr.resized.sibling
    fps := hr.resized.siblingTable
    lock := hr.resized.siblingLock
    right := by
      have hright := hr.image.right.mono (link_le h hr (c := c))
      rw [hsib]
      change RightLink _ _ _ x.right
      cases hxr : x.right <;> rw [hxr] at hright <;> exact hright }

/-- Every leaf lies in the range of an old one, and only the two halves lie in the same one. -/
theorem link_cover (hb : (g.linkLeaf E.hash a s fs x p q cap' c).leaf b = some z) : ∃ b₀ z₀,
    g.leaf b₀ = some z₀ ∧ z₀.min ≤ z.min ∧ z.max ≤ z₀.max ∧
      (b₀ = a → b = a ∧ z.max = q.key ∨ b = s ∧ z.min = q.key) ∧ (b₀ ≠ a → b = b₀) := by
  obtain ⟨hq1, hq2⟩ := cut_range h hr
  rcases link_leaf hb with ⟨rfl, rfl⟩ | ⟨rfl, -, rfl⟩ | ⟨hba, -, hb⟩
  · exact ⟨a, x, hr.leaf, hq1, le_rfl, fun _ => Or.inr ⟨rfl, rfl⟩, fun hne => absurd rfl hne⟩
  · exact ⟨b, x, hr.leaf, le_rfl, hq2.le, fun _ => Or.inl ⟨rfl, rfl⟩, fun hne => absurd rfl hne⟩
  · exact ⟨b, z, hb, le_rfl, le_rfl, fun he => absurd he hba, fun _ => rfl⟩

theorem link_disjoint (b d : Gaddr) (z w : LeafView) (k : Key)
    (hb : (g.linkLeaf E.hash a s fs x p q cap' c).leaf b = some z)
    (hd : (g.linkLeaf E.hash a s fs x p q cap' c).leaf d = some w) (h1 : z.min ≤ k) (h2 : k < z.max)
    (h3 : w.min ≤ k) (h4 : k < w.max) : b = d := by
  obtain ⟨b₀, z₀, e1, e2, e3, e4, e5⟩ := link_cover h hr hb
  obtain ⟨d₀, w₀, f1, f2, f3, f4, f5⟩ := link_cover h hr hd
  have hbd : b₀ = d₀ := h.leaves.disjoint b₀ d₀ z₀ w₀ k e1 f1 (e2.trans h1) (h2.trans_le e3)
    (f2.trans h3) (h4.trans_le f3)
  by_cases hba : b₀ = a
  · rcases e4 hba with ⟨rfl, hz⟩ | ⟨rfl, hz⟩ <;> rcases f4 (hbd ▸ hba) with ⟨rfl, hw⟩ | ⟨rfl, hw⟩
    · rfl
    · exact absurd (hz ▸ h2) (not_lt.mpr (hw ▸ h3))
    · exact absurd (hw ▸ h4) (not_lt.mpr (hz ▸ h1))
    · rfl
  · exact (e5 hba).trans (hbd.trans (f5 (hbd ▸ hba)).symm)

omit h in
/-- The tables are those of the old leaves and the new one. -/
theorem link_tab (hb : (g.linkLeaf E.hash a s fs x p q cap' c).leaf b = some z) :
    (b = s ∧ z.tab = fs) ∨ ∃ z₀, g.leaf b = some z₀ ∧ z₀.tab = z.tab := by
  rcases link_leaf hb with ⟨rfl, rfl⟩ | ⟨rfl, -, rfl⟩ | ⟨-, -, hb⟩
  · exact Or.inl ⟨rfl, rfl⟩
  · exact Or.inr ⟨x, hr.leaf, rfl⟩
  · exact Or.inr ⟨z, hb, rfl⟩

theorem tab_ne (hb : g.leaf b = some z) : z.tab ≠ fs := (h.alloc.priv fs t hr.priv.2).2.2.2 b z hb

/-! The chain -/

/-- Where the leaf stands in the chain. -/
theorem chain_split : ∃ c₁ c₂, g.chain = c₁ ++ a :: c₂ ∧ a ∉ c₁ ∧ a ∉ c₂ ∧ s ∉ g.chain ∧
    (g.linkLeaf E.hash a s fs x p q cap' c).chain = c₁ ++ a :: s :: c₂ := by
  have hmem : a ∈ g.chain := (h.leaves.chain_mem a).mpr (by rw [hr.leaf]; rfl)
  obtain ⟨c₁, c₂, hc⟩ := List.append_of_mem hmem
  have hnd := h.leaves.chain_nodup
  rw [hc] at hnd
  have hnd' := List.nodup_append.mp hnd
  refine ⟨c₁, c₂, hc, fun hm => hnd'.2.2 a hm a (List.mem_cons_self ..) rfl,
    (List.nodup_cons.mp hnd'.2.1).1, fun hm => ?_, ?_⟩
  · have hs := (h.leaves.chain_mem s).mp hm
    rw [leaf_none h hr] at hs
    cases hs
  · simp only [TreeView.linkLeaf]
    rw [hc]
    exact insertBehind_eq hnd

theorem follows_link {d : Gaddr} (hb : b ≠ a) (hf : Follows g b d) :
    Follows (g.linkLeaf E.hash a s fs x p q cap' c) b d := by
  obtain ⟨z, hz, hright⟩ := hf
  obtain ⟨z', hz', -, -, -, -, -, -, -, he⟩ := link_kept h hr (c := c) hz
  exact ⟨z', hz', (he hb).symm ▸ hright⟩

theorem chain_link : (g.linkLeaf E.hash a s fs x p q cap' c).chain.IsChain
    (Follows (g.linkLeaf E.hash a s fs x p q cap' c)) := by
  obtain ⟨c₁, c₂, hc, h1, h2, -, hc'⟩ := chain_split h hr (c := c)
  have hold := h.leaves.chain_follows
  rw [hc] at hold
  obtain ⟨hl, hrest, hlast⟩ := List.isChain_append.mp hold
  obtain ⟨hnext, htail⟩ := List.isChain_cons.mp hrest
  have has : Follows (g.linkLeaf E.hash a s fs x p q cap' c) a s := by
    refine ⟨x.lower p q cap' s, ?_, rfl⟩
    simp only [TreeView.linkLeaf, Function.update_of_ne (Ne.symm (ne_leaf h hr)), Function.update_self]
  rw [hc']
  refine List.isChain_append.mpr ⟨?_, List.isChain_cons_cons.mpr ⟨has, List.isChain_cons.mpr ⟨?_, ?_⟩⟩,
    ?_⟩
  · exact hl.imp_of_mem_imp fun b d hb _ => follows_link h hr fun he => h1 (he ▸ hb)
  · intro d hd
    obtain ⟨x', hx', hright⟩ := hnext d hd
    rw [hr.leaf] at hx'
    cases hx'
    exact ⟨x.upper E.hash p q cap' fs, by simp only [TreeView.linkLeaf, Function.update_self], hright⟩
  · exact htail.imp_of_mem_imp fun b d hb _ => follows_link h hr fun he => h2 (he ▸ hb)
  · intro b hb d hd
    refine follows_link h hr (fun he => h1 (he ▸ List.mem_of_mem_getLast? hb)) (hlast b hb d ?_)
    exact hd

theorem leaves_link : LeavesOk E (m.setLeaf a rz.current) (g.linkLeaf E.hash a s fs x p q cap' c) := by
  obtain ⟨c₁, c₂, hc, h1, h2, hs, hc'⟩ := chain_split h hr (c := c)
  have hsa := ne_leaf h hr
  refine ⟨?_, ?_, ?_, link_disjoint h hr, ?_, ?_, ?_, chain_link h hr, ?_⟩
  · intro b z hb
    rcases link_leaf hb with ⟨rfl, rfl⟩ | ⟨rfl, -, rfl⟩ | ⟨hba, -, hb⟩
    · rw [link_st_ne hsa, st_fresh h hr]
      exact upper_ok h hr
    · rw [link_st_self]
      exact lower_ok h hr
    · rw [link_st_ne hba]
      exact h.leaves.ok b z hb
  · intro b z hb
    rcases link_leaf hb with ⟨rfl, rfl⟩ | ⟨rfl, -, rfl⟩ | ⟨hba, -, hb⟩
    · exact ⟨_, _, stored_upper h hr⟩
    · obtain ⟨_, tab, hst⟩ := h.leaves.stored b x hr.leaf
      exact ⟨_, tab, stored_lower h hr hst.table⟩
    · obtain ⟨l', tab, hst⟩ := h.leaves.stored b z hb
      exact ⟨l', tab, hst.mono (link_le h hr) (Function.update_of_ne hba ..) rfl⟩
  · intro b d z w hb hd he
    rcases hr.link_tab hb with ⟨rfl, hz⟩ | ⟨z₀, hz₀, hz⟩ <;>
      rcases hr.link_tab hd with ⟨rfl, hw⟩ | ⟨w₀, hw₀, hw⟩
    · rfl
    · exact absurd (hw.trans (he.symm.trans hz)) (tab_ne h hr hw₀)
    · exact absurd (hz.trans (he.trans hw)) (tab_ne h hr hz₀)
    · exact h.leaves.tab_inj b d z₀ w₀ hz₀ hw₀ (hz.trans (he.trans hw.symm))
  · intro b
    have hmem : b ∈ (g.linkLeaf E.hash a s fs x p q cap' c).chain ↔ b = s ∨ b ∈ g.chain := by
      rw [hc', hc]
      simp only [List.mem_append, List.mem_cons]
      tauto
    rw [hmem, h.leaves.chain_mem b]
    by_cases hbs : b = s
    · simp [TreeView.linkLeaf, hbs]
    by_cases hba : b = a
    · subst hba
      simp [TreeView.linkLeaf, Function.update_of_ne hbs, hr.leaf]
    · simp [TreeView.linkLeaf, Function.update_of_ne hba, hbs]
  · have hnd := h.leaves.chain_nodup
    rw [hc] at hnd hs
    rw [hc']
    have hperm : (c₁ ++ a :: s :: c₂).Perm (s :: (c₁ ++ a :: c₂)) := by
      have hmiddle : (c₁ ++ [a] ++ s :: c₂).Perm (s :: (c₁ ++ [a] ++ c₂)) := List.perm_middle
      simpa using hmiddle
    exact hperm.nodup_iff.mpr (List.nodup_cons.mpr ⟨hs, hnd⟩)
  · have hhead := h.leaves.chain_head
    rw [hc] at hhead
    rw [hc', ← hhead]
    cases c₁ <;> rfl
  · intro b z hb hz
    rw [hc'] at hb
    cases c₂ with
    | nil =>
      have hbs : b = s := by simpa using hb.symm
      subst hbs
      simp only [TreeView.linkLeaf, Function.update_self] at hz
      cases hz
      exact h.leaves.chain_last a x (by rw [hc]; simp) hr.leaf
    | cons d c₂ =>
      have hlast : (c₁ ++ a :: d :: c₂).getLast? = some b := by
        simpa [List.getLast?_append, List.getLast?_cons_cons] using hb
      have hmem : b ∈ d :: c₂ := by
        have : (d :: c₂).getLast? = some b := by
          simpa [List.getLast?_append, List.getLast?_cons_cons] using hlast
        exact List.mem_of_mem_getLast? this
      have hba : b ≠ a := fun he => h2 (he ▸ hmem)
      have hbs : b ≠ s := by
        rintro rfl
        refine hs ?_
        rw [hc]
        exact List.mem_append_right _ (List.mem_cons_of_mem _ hmem)
      simp only [TreeView.linkLeaf, Function.update_of_ne hbs, Function.update_of_ne hba] at hz
      exact h.leaves.chain_last b z (by rw [hc, hlast]) hz

theorem levels_link : LevelsOk (g.linkLeaf E.hash a s fs x p q cap' c) := by
  have hsa := ne_leaf h hr
  obtain ⟨hq1, hq2⟩ := cut_range h hr
  have hrest := (h.leaves.ok a x hr.leaf).rest (by rw [hr.st]; simp)
  have hpart : ∀ b d, ((g.linkLeaf E.hash a s fs x p q cap' c).st b).partner = some d →
      (b = a ∧ d = s) ∨ (b ≠ a ∧ d ≠ s ∧ d ≠ a ∧ (g.st b).partner = some d) := by
    intro b d hb
    by_cases hba : b = a
    · rw [hba, link_st_self] at hb
      exact Or.inl ⟨hba, (Option.some.inj hb).symm⟩
    · rw [link_st_ne hba] at hb
      obtain ⟨_, y, _, hy, hp⟩ := h.levels.pair b d hb
      refine Or.inr ⟨hba, ?_, ?_, hb⟩
      · rintro rfl
        rw [leaf_none h hr] at hy
        cases hy
      · rintro rfl
        have hf := hp.fresh
        rw [hr.st] at hf
        cases hf
  refine ⟨?_, ?_, h.levels.pidx, ?_, ?_, ?_⟩
  · intro ℓ
    refine (h.levels.seg ℓ).mono fun r k _ ho => ?_
    cases ℓ with
    | succ ℓ => exact ho
    | zero =>
      obtain ⟨hv, z, hz, e1, e2, e3, e4, e5⟩ := ho
      obtain ⟨z', hz', f1, f2, f3, f4, f5, -⟩ := link_kept h hr (c := c) hz
      refine ⟨hv, z', hz', f1.trans e1, f3.trans e2, f2.trans e3, (link_le h hr).indexed _ e4, ?_⟩
      by_cases hra : r.addr = a
      · rw [hra, hr.st] at e5
        rcases e5 with ⟨-, hver, hb⟩ | ⟨u, d, y, hst, -⟩
        · rw [hra, link_st_self]
          exact Or.inl ⟨rfl, hver.trans f4.symm, hb.trans f5.symm⟩
        · cases hst
      · rw [link_st_ne hra]
        rcases e5 with ⟨hcl, hver, hb⟩ | ⟨u, d, y, hst, hver, hy, hb⟩
        · exact Or.inl ⟨hcl, hver.trans f4.symm, hb.trans f5.symm⟩
        · obtain ⟨y', hy', -, -, -, -, g5, -⟩ := link_kept h hr (c := c) hy
          exact Or.inr ⟨u, d, y', hst, hver.trans f4.symm, hy', hb.trans g5.symm⟩
  · intro b z hb hf ho
    rcases link_leaf hb with ⟨rfl, rfl⟩ | ⟨rfl, -, rfl⟩ | ⟨hba, -, hb⟩
    · rw [link_st_ne hsa, st_fresh h hr] at hf
      exact absurd rfl hf
    · exact h.levels.idx b x hr.leaf (by rw [hr.st]; simp) (by rw [hr.st]; simp)
    · rw [link_st_ne hba] at hf ho
      exact h.levels.idx b z hb hf ho
  · intro b d hb
    rcases hpart b d hb with ⟨rfl, rfl⟩ | ⟨hba, hds, hda, hb⟩
    · refine ⟨x.lower p q cap' d, x.upper E.hash p q cap' fs, ?_, ?_, ?_, rfl, rfl, rfl, hq2,
        fun _ => hrest.2.1⟩
      · simp only [TreeView.linkLeaf, Function.update_of_ne (Ne.symm hsa), Function.update_self]
      · simp only [TreeView.linkLeaf, Function.update_self]
      · rw [link_st_ne hsa]
        exact st_fresh h hr
    · obtain ⟨z, w, hz, hw, hp⟩ := h.levels.pair b d hb
      obtain ⟨z', hz', -, -, -, -, -, -, -, ez⟩ := link_kept h hr (c := c) hz
      obtain ⟨w', hw', -, -, -, -, -, -, -, ew⟩ := link_kept h hr (c := c) hw
      rw [ez hba] at hz'
      rw [ew hda] at hw'
      refine ⟨z, w, hz', hw', ?_, hp.tver, hp.own, hp.min, hp.lt, ?_⟩
      · rw [link_st_ne hda]
        exact hp.fresh
      · rw [link_st_ne hba]
        exact hp.pmax
  · intro b d e hb hd
    rcases hpart b e hb with ⟨rfl, rfl⟩ | ⟨hba, hes, -, hb⟩ <;>
      rcases hpart d e hd with ⟨hda, hes'⟩ | ⟨hda, hes', -, hd⟩
    · exact hda.symm
    · exact absurd rfl hes'
    · exact absurd hes' hes
    · exact h.levels.partner_inj b d e hb hd
  · intro b hb
    have hbs : b ≠ s := by
      rintro rfl
      simp [TreeView.linkLeaf] at hb
    have hba : b ≠ a := by
      rintro rfl
      simp [TreeView.linkLeaf, Function.update_of_ne hbs] at hb
    rw [link_st_ne hba]
    simp only [TreeView.linkLeaf, Function.update_of_ne hbs, Function.update_of_ne hba] at hb
    exact h.levels.fresh b hb

theorem eff_link : EffOk (g.linkLeaf E.hash a s fs x p q cap' c) := by
  have hsa := ne_leaf h hr
  refine h.eff.write (c := c) (p := p) (fun d => ?_) rfl
  constructor
  · rintro ⟨b, z, hb, hd⟩
    have hold : (b = a ∨ b = s) → d ∈ lowerPairs x p cap' ∨ d ∈ upperPairs x p cap' →
        d = p ∨ d.key ≠ p.key ∧ g.Has d := by
      intro _ hd
      rcases (mem_lower_upper x p cap' d).mp hd with rfl | hd
      · exact Or.inl rfl
      · exact Or.inr ⟨hr.new d hd, a, x, hr.leaf, hd⟩
    rcases link_leaf hb with ⟨rfl, rfl⟩ | ⟨rfl, -, rfl⟩ | ⟨hba, -, hb⟩
    · exact hold (Or.inr rfl) (Or.inr hd)
    · exact hold (Or.inl rfl) (Or.inl hd)
    · refine Or.inr ⟨fun hk => hba ?_, b, z, hb, hd⟩
      have hrange := hr.range
      rw [← hk] at hrange
      exact h.leaves.eq_of_mem hr.leaf hb hd hrange.1 hrange.2
  · have hnew : d = p ∨ d ∈ x.kv → (g.linkLeaf E.hash a s fs x p q cap' c).Has d := by
      intro hd
      rcases (mem_lower_upper x p cap' d).mpr hd with hd | hd
      · exact ⟨a, x.lower p q cap' s, by simp only [TreeView.linkLeaf,
          Function.update_of_ne (Ne.symm hsa), Function.update_self], hd⟩
      · exact ⟨s, x.upper E.hash p q cap' fs, by simp only [TreeView.linkLeaf,
          Function.update_self], hd⟩
    rintro (rfl | ⟨-, b, z, hb, hd⟩)
    · exact hnew (Or.inl rfl)
    · by_cases hba : b = a
      · subst hba
        rw [hr.leaf] at hb
        cases hb
        exact hnew (Or.inr hd)
      · obtain ⟨z', hz', -, -, -, -, -, -, -, ez⟩ := link_kept h hr (c := c) hb
        exact ⟨b, z', hz', by rw [ez hba]; exact hd⟩

omit h in
theorem link_priv {d : Gaddr} (hd : (g.linkLeaf E.hash a s fs x p q cap' c).priv d = some u) :
    d ≠ s ∧ d ≠ fs ∧ g.priv d = some u := by
  have hdf : d ≠ fs := by
    rintro rfl
    simp [TreeView.linkLeaf] at hd
  have hds : d ≠ s := by
    rintro rfl
    simp [TreeView.linkLeaf, Function.update_of_ne hdf] at hd
  simp only [TreeView.linkLeaf, Function.update_of_ne hdf, Function.update_of_ne hds] at hd
  exact ⟨hds, hdf, hd⟩

theorem alloc_link : AllocOk E (m.setLeaf a rz.current) (g.linkLeaf E.hash a s fs x p q cap' c) := by
  refine ⟨?_, h.alloc.table, h.alloc.inner, ?_⟩
  · intro b z hb
    rcases link_leaf hb with ⟨rfl, rfl⟩ | ⟨rfl, -, rfl⟩ | ⟨-, -, hb⟩
    · exact ⟨(h.alloc.priv b t hr.priv.1).1, (h.alloc.priv fs t hr.priv.2).1⟩
    · exact h.alloc.leaf b x hr.leaf
    · exact h.alloc.leaf b z hb
  · intro d u hd
    obtain ⟨hds, hdf, hd⟩ := hr.link_priv hd
    obtain ⟨h1, h2, h3, h4⟩ := h.alloc.priv d u hd
    have hda : d ≠ a := by
      rintro rfl
      rw [hr.leaf] at h2
      cases h2
    refine ⟨h1, ?_, h3, ?_⟩
    · simp only [TreeView.linkLeaf, Function.update_of_ne hds, Function.update_of_ne hda, h2]
    · intro b z hb he
      rcases hr.link_tab hb with ⟨-, hz⟩ | ⟨z₀, hz₀, hz⟩
      · exact hdf (he.symm.trans hz)
      · exact h4 b z₀ hz₀ (hz.trans he)

/-- The splits that are not finished after this one has begun. -/
theorem link_moving {d e : Gaddr} (hz : (g.linkLeaf E.hash a s fs x p q cap' c).leaf d = some z)
    (hs : (g.linkLeaf E.hash a s fs x p q cap' c).st d = .moving e) :
    (d = a ∧ e = s ∧ z = x.lower p q cap' s) ∨
      (d ≠ a ∧ e ≠ a ∧ e ≠ s ∧ g.leaf d = some z ∧ g.st d = .moving e) := by
  by_cases hda : d = a
  · subst hda
    rw [link_st_self] at hs
    cases hs
    rcases link_leaf hz with ⟨hds, -⟩ | ⟨-, -, rfl⟩ | ⟨hne, -⟩
    · exact absurd hds.symm (ne_leaf h hr)
    · exact Or.inl ⟨rfl, rfl, rfl⟩
    · exact absurd rfl hne
  · rw [link_st_ne hda] at hs
    have hpart : (g.st d).partner = some e := by rw [hs]; rfl
    rcases link_leaf hz with ⟨rfl, -⟩ | ⟨hd, -⟩ | ⟨-, -, hd⟩
    · rw [st_fresh h hr] at hs
      cases hs
    · exact absurd hd hda
    · refine Or.inr ⟨hda, ?_, ?_, hd, hs⟩
      · rintro rfl
        exact h.levels.partner_ne (by rw [hr.st]; simp) d hpart
      · rintro rfl
        obtain ⟨-, y, -, hy, -⟩ := h.levels.pair d e hpart
        rw [leaf_none h hr] at hy
        cases hy

omit h in
theorem fp_mem {d : EntryPos} (hd : d ∈ x.kv) : calKeyFp E.hash d.key ∈ x.fps := by
  rw [hr.rest]
  exact List.mem_map.mpr ⟨d, hd, rfl⟩

/-- The table of the leaf that is split is still the one of before. -/
theorem link_fps {d : EntryPos} (hd : d ∈ x.kv) (hb : b = a ∨ b = s) (e : Gaddr) (w : LeafView)
    (e' : Gaddr) (hw : (g.linkLeaf E.hash a s fs x p q cap' c).leaf e = some w)
    (hs : (g.linkLeaf E.hash a s fs x p q cap' c).st e = .moving e') (hor : b = e ∨ b = e') :
    calKeyFp E.hash d.key ∈ w.fps := by
  rcases link_moving h hr hw hs with ⟨-, -, rfl⟩ | ⟨h1, h2, h3, h4, -⟩
  · exact hr.fp_mem hd
  · exfalso
    rcases hb with rfl | rfl <;> rcases hor with rfl | rfl
    · exact h1 rfl
    · exact h2 rfl
    · rw [leaf_none h hr] at h4
      cases h4
    · exact h3 rfl

/-- The pairs of the leaf that is split are still found. -/
theorem stored_link_self {d : EntryPos} (hd : d ∈ x.kv) :
    (g.linkLeaf E.hash a s fs x p q cap' c).Stored E.hash d.key := by
  have hlen : x.fps.length = x.cap := by rw [hr.rest, List.length_map, hr.full]
  rcases (mem_lower_upper x p cap' d).mpr (Or.inr hd) with hd' | hd'
  · obtain ⟨j, hj, hjk⟩ := exists_slot hd' (n := x.fps.length) (by
      rw [hr.length_lower, hlen]
      exact splitPoint_le)
    exact ⟨a, x.lower p q cap' s, j, by simp only [TreeView.linkLeaf,
      Function.update_of_ne (Ne.symm (ne_leaf h hr)), Function.update_self], hj, hjk,
      link_fps h hr hd (Or.inl rfl)⟩
  · obtain ⟨j, hj, hjk⟩ := exists_slot hd' le_rfl
    refine ⟨s, x.upper E.hash p q cap' fs, j, by simp only [TreeView.linkLeaf,
      Function.update_self], ?_, hjk, link_fps h hr hd (Or.inr rfl)⟩
    change j < ((upperPairs x p cap').map _).length
    rw [List.length_map]
    exact hj

theorem stored_link {k : Key} (hk : g.Stored E.hash k) :
    (g.linkLeaf E.hash a s fs x p q cap' c).Stored E.hash k := by
  obtain ⟨b, z, i, hz, hi, hkey, hm⟩ := hk
  by_cases hba : b = a
  · subst hba
    rw [hr.leaf] at hz
    cases hz
    obtain ⟨d, hd, rfl⟩ := Option.map_eq_some_iff.mp hkey
    exact stored_link_self h hr (List.mem_of_getElem? hd)
  · obtain ⟨z', hz', -, -, -, -, -, -, -, ez⟩ := link_kept h hr (c := c) hz
    rw [ez hba] at hz'
    refine ⟨b, z, i, hz', hi, hkey, fun d' w e hw hs' hor => ?_⟩
    rcases link_moving h hr hw hs' with ⟨rfl, rfl, -⟩ | ⟨-, -, -, hd, hs'⟩
    · exfalso
      rcases hor with rfl | rfl
      · exact hba rfl
      · rw [leaf_none h hr] at hz
        cases hz
    · exact hm d' w e hd hs' hor

theorem step_link (b : Gaddr) (z z' : LeafView) (hz : g.leaf b = some z)
    (hz' : (g.linkLeaf E.hash a s fs x p q cap' c).leaf b = some z') : LeafStep z z' := by
  rcases link_leaf hz' with ⟨rfl, -⟩ | ⟨rfl, -, rfl⟩ | ⟨-, -, hb⟩
  · rw [leaf_none h hr] at hz
    cases hz
  · rw [hr.leaf] at hz
    cases hz
    refine Or.inr ⟨Nat.lt_succ_self _, (cut_range h hr).2.le, ?_, ?_⟩
    · change (lowerPairs x p cap').length ≤ _
      rw [hr.length_lower, splitPoint]
      split <;> omega
    · intro d hd hlt
      refine List.mem_map_of_mem ?_
      rcases (mem_lower_upper x p cap' d).mpr (Or.inr hd) with hd | hd
      · exact hd
      · exact absurd hlt (not_lt.mpr (upper_range h hr d hd).1)
  · rw [hz] at hb
    cases hb
    exact Or.inl ⟨rfl, rfl, fun _ _ h => h⟩

/-- The first write of the split. -/
theorem link (c : Nat) : TreeStep E M t m g (m.setLeaf a rz.current)
    (g.linkLeaf E.hash a s fs x p q cap' c) := by
  refine ⟨⟨leaves_link h hr, levels_link h hr, h.nodes.congr rfl rfl rfl rfl rfl,
    h.root.congr rfl rfl rfl rfl rfl rfl rfl rfl rfl ?_, alloc_link h hr,
    h.cache.mono (link_le h hr) rfl, eff_link h hr⟩, ?_⟩
  · intro b u hu hb
    have hut : u ≠ t := fun he => hr.tok (he ▸ hu)
    have hbs : b ≠ s := by
      rintro rfl
      exact hut (Option.some.inj (hb.symm.trans hr.priv.1))
    have hbf : b ≠ fs := by
      rintro rfl
      exact hut (Option.some.inj (hb.symm.trans hr.priv.2))
    simp only [TreeView.linkLeaf, Function.update_of_ne hbf, Function.update_of_ne hbs, hb]
  · refine ⟨link_le h hr, step_link h hr, ?_, fun k => stored_link h hr, ?_, ?_, ?_,
      fun _ _ _ => Iff.rfl, fun _ _ _ _ => rfl, fun _ _ _ => Iff.rfl, fun _ _ => Iff.rfl,
      fun _ _ => Iff.rfl, fun _ _ _ => rfl, ?_, ?_⟩
    · intro b z z' hz hz' hlt
      obtain ⟨w, hw, -, -, -, htv, -⟩ := link_kept h hr (c := c) hz
      rw [hz'] at hw
      cases hw
      exact absurd hlt (by rw [htv]; exact lt_irrefl _)
    · intro b z u hu hz ho
      have hba : b ≠ a := by
        rintro rfl
        rw [hr.leaf] at hz
        cases hz
        exact hu (Option.some.inj (ho.symm.trans hr.own))
      obtain ⟨w, hw, -, -, -, -, -, -, -, ew⟩ := link_kept h hr (c := c) hz
      rw [ew hba] at hw
      rw [link_st_ne hba]
      exact ⟨hw, fun h => h, fun _ h => h⟩
    · intro b u hu ho
      obtain ⟨z, hz, hzo⟩ := Option.bind_eq_some_iff.mp ho
      rcases link_leaf hz with ⟨rfl, rfl⟩ | ⟨rfl, -, rfl⟩ | ⟨-, -, hb⟩
      · cases hzo
      · exact absurd (Option.some.inj ((show x.own = some u from hzo).symm.trans hr.own)) hu
      · exact Option.bind_eq_some_iff.mpr ⟨z, hb, hzo⟩
    · intro b d u hu
      by_cases hba : b = a
      · rw [hba, link_st_self, hr.st]
        simp
      · rw [link_st_ne hba]
    · intro b u hu
      refine ⟨fun hb => (hr.link_priv hb).2.2, fun hb => ?_⟩
      have hbs : b ≠ s := by
        rintro rfl
        exact hu (Option.some.inj (hb.symm.trans hr.priv.1))
      have hbf : b ≠ fs := by
        rintro rfl
        exact hu (Option.some.inj (hb.symm.trans hr.priv.2))
      simp only [TreeView.linkLeaf, Function.update_of_ne hbf, Function.update_of_ne hbs, hb]
    · intro b u hu hb
      have hba : b ≠ a := by
        rintro rfl
        have hnone := (h.alloc.priv b u hb).2.1
        rw [hr.leaf] at hnone
        cases hnone
      exact ⟨Function.update_of_ne hba .., rfl, rfl⟩

end SplitReady

/-! ## The second write -/

/-- The leaf after the second write. -/
def LeafView.publish (x : LeafView) (H : Hashes) : LeafView :=
  { x with
    fps := x.kv.map fun p => calKeyFp H p.key
    tver := x.ver
    pmax := x.max
    own := none }

/-- The view after the second write of the split. -/
def TreeView.publishSplit (g : TreeView) (H : Hashes) (t : Tid) (a s : Gaddr) (x : LeafView) :
    TreeView :=
  { g with
    leaf := Function.update g.leaf a (some (x.publish H))
    st := Function.update g.st a (.opened t s) }

section Publish

variable (h : TreeInv E M m g) (hx : g.leaf a = some x) (hst : g.st a = .moving s)
  (hown : x.own = some t)

omit h hx hst hown in
theorem publish_leaf {H : Hashes} (hb : (g.publishSplit H t a s x).leaf b = some z) :
    (b = a ∧ z = x.publish H) ∨ (b ≠ a ∧ g.leaf b = some z) := by
  by_cases hba : b = a
  · subst hba
    simp only [TreeView.publishSplit, Function.update_self] at hb
    exact Or.inl ⟨rfl, (Option.some.inj hb).symm⟩
  · simp only [TreeView.publishSplit, Function.update_of_ne hba] at hb
    exact Or.inr ⟨hba, hb⟩

include hx in
/-- What the write keeps of every leaf. -/
theorem publish_kept (hb : g.leaf b = some z) :
    ∃ z', (g.publishSplit E.hash t a s x).leaf b = some z' ∧ z'.tab = z.tab ∧ z'.min = z.min ∧
      z'.cap = z.cap ∧ z'.max = z.max ∧ z'.right = z.right ∧ z'.kv = z.kv ∧ z'.ver = z.ver ∧
      (b ≠ a → z' = z) := by
  by_cases hba : b = a
  · subst hba
    rw [hx] at hb
    cases hb
    exact ⟨x.publish E.hash, by simp only [TreeView.publishSplit, Function.update_self],
      rfl, rfl, rfl, rfl, rfl, rfl, rfl, fun hne => absurd rfl hne⟩
  · exact ⟨z, by simp only [TreeView.publishSplit, Function.update_of_ne hba, hb],
      rfl, rfl, rfl, rfl, rfl, rfl, rfl, fun _ => rfl⟩

include hx in
theorem publish_old (hb : (g.publishSplit E.hash t a s x).leaf b = some z) :
    ∃ z₀, g.leaf b = some z₀ ∧ z.tab = z₀.tab ∧ z.min = z₀.min ∧ z.max = z₀.max ∧
      z.right = z₀.right ∧ z.kv = z₀.kv := by
  rcases publish_leaf hb with ⟨rfl, rfl⟩ | ⟨-, hb⟩
  · exact ⟨x, hx, rfl, rfl, rfl, rfl, rfl⟩
  · exact ⟨z, hb, rfl, rfl, rfl, rfl, rfl⟩

omit h hx hst hown in
theorem publish_st_self {H : Hashes} : (g.publishSplit H t a s x).st a = .opened t s := by
  simp only [TreeView.publishSplit, Function.update_self]

omit h hx hst hown in
theorem publish_st_ne {H : Hashes} (hb : b ≠ a) : (g.publishSplit H t a s x).st b = g.st b := by
  simp only [TreeView.publishSplit, Function.update_of_ne hb]

include h hx hst in
theorem publish_le : g.Le (g.publishSplit E.hash t a s x) where
  leaf := by
    intro b z hz
    have hver := ((h.leaves.ok a x hx).moving s hst).1
    by_cases hba : b = a
    · subst hba
      rw [hx] at hz
      cases hz
      refine ⟨x.publish E.hash, by simp only [TreeView.publishSplit, Function.update_self],
        rfl, rfl, rfl, Or.inl ?_⟩
      change x.tver < x.ver
      omega
    · refine ⟨z, by simp only [TreeView.publishSplit, Function.update_of_ne hba, hz], rfl, rfl, rfl,
        Or.inr ⟨rfl, rfl, ?_⟩⟩
      rw [publish_st_ne hba]
      exact fun hc => hc
  indexed := by
    intro b hb
    by_cases hba : b = a
    · rw [hba, publish_st_self]
      simp
    · rwa [publish_st_ne hba]
  inner := fun _ _ h => h

include h hx in
theorem publish_ok (hhalf : KeyNull < x.min → x.min < x.max → (x.cap + 1) / 2 ≤ x.kv.length) :
    (x.publish E.hash).Ok E.hash (.opened t s) := by
  have hold := h.leaves.ok a x hx
  exact {
    cap_pos := hold.cap_pos
    cap_le := hold.cap_le
    min_le := hold.min_le
    max_le := hold.max_le
    keys := hold.keys
    range := hold.range
    rest := fun _ => ⟨rfl, rfl, Or.inl rfl⟩
    moving := by
      intro b hb
      cases hb
    first := by
      intro h1 h2
      refine ⟨(hold.first h1 h2).1, ?_⟩
      change (x.cap + 1) / 2 ≤ (x.kv.map _).length
      rw [List.length_map]
      exact hhalf h1 h2 }

include h hx hst in
theorem leaves_publish
    (hhalf : KeyNull < x.min → x.min < x.max → (x.cap + 1) / 2 ≤ x.kv.length)
    (ht : TableHolds E.hash x.cap x.ver (x.kv.map fun p => calKeyFp E.hash p.key) tab)
    (hlock : tab.lock = false) :
    LeavesOk E (m.setTable x.tab tab) (g.publishSplit E.hash t a s x) := by
  have hle : g.Le (g.publishSplit E.hash t a s x) := publish_le h hx hst
  refine ⟨?_, ?_, ?_, ?_, ?_, h.leaves.chain_nodup, h.leaves.chain_head, ?_, ?_⟩
  · intro b z hb
    rcases publish_leaf hb with ⟨rfl, rfl⟩ | ⟨hba, hb⟩
    · rw [publish_st_self]
      exact publish_ok h hx hhalf
    · rw [publish_st_ne hba]
      exact h.leaves.ok b z hb
  · intro b z hb
    rcases publish_leaf hb with ⟨rfl, rfl⟩ | ⟨hba, hb⟩
    · obtain ⟨l, tab', hs⟩ := h.leaves.stored b x hx
      refine ⟨l, tab, hs.leaf, Function.update_self .., hs.min, hs.max, hs.cap, hs.ver, hs.entries,
        ht, hlock, hs.right.mono hle⟩
    · obtain ⟨l, tab', hs⟩ := h.leaves.stored b z hb
      refine ⟨l, tab', hs.mono hle rfl (Function.update_of_ne (fun he => hba ?_) ..)⟩
      exact h.leaves.tab_inj b a z x hb hx he
  · intro b d z w hb hd he
    obtain ⟨z₀, hz₀, e1, -⟩ := publish_old hx hb
    obtain ⟨w₀, hw₀, f1, -⟩ := publish_old hx hd
    exact h.leaves.tab_inj b d z₀ w₀ hz₀ hw₀ (e1.symm.trans (he.trans f1))
  · intro b d z w k hb hd h1 h2 h3 h4
    obtain ⟨z₀, hz₀, -, e1, e2, -⟩ := publish_old hx hb
    obtain ⟨w₀, hw₀, -, f1, f2, -⟩ := publish_old hx hd
    exact h.leaves.disjoint b d z₀ w₀ k hz₀ hw₀ (e1 ▸ h1) (e2 ▸ h2) (f1 ▸ h3) (f2 ▸ h4)
  · intro b
    rw [show (g.publishSplit E.hash t a s x).chain = g.chain from rfl, h.leaves.chain_mem b]
    by_cases hba : b = a
    · subst hba
      simp [TreeView.publishSplit, hx]
    · simp [TreeView.publishSplit, Function.update_of_ne hba]
  · refine h.leaves.chain_follows.imp fun b d hbd => ?_
    obtain ⟨z, hz, hr⟩ := hbd
    obtain ⟨z', hz', -, -, -, -, er, -⟩ := publish_kept (E := E) (t := t) (s := s) hx hz
    exact ⟨z', hz', er.trans hr⟩
  · intro b z hb hz
    obtain ⟨z₀, hz₀, -, -, -, er, -⟩ := publish_old hx hz
    rw [er]
    exact h.leaves.chain_last b z₀ hb hz₀

include h hx hst in
theorem levels_publish : LevelsOk (g.publishSplit E.hash t a s x) := by
  have hver := ((h.leaves.ok a x hx).moving s hst).1
  obtain ⟨x', y, hx', hy, hpair⟩ := h.levels.pair a s (by rw [hst]; rfl)
  rw [hx] at hx'
  cases hx'
  have hfresh : ∀ {b d}, (g.st b).partner = some d → d ≠ a := by
    rintro b d hb rfl
    exact h.levels.partner_ne (by rw [hst]; simp) b hb
  have hsa : s ≠ a := hfresh (b := a) (by rw [hst]; rfl)
  have hpart : ∀ b, ((g.publishSplit E.hash t a s x).st b).partner = (g.st b).partner := by
    intro b
    by_cases hba : b = a
    · rw [hba, publish_st_self, hst]
      rfl
    · rw [publish_st_ne hba]
  refine ⟨?_, ?_, h.levels.pidx, ?_, ?_, ?_⟩
  · intro ℓ
    refine (h.levels.seg ℓ).mono fun r k _ ho => ?_
    cases ℓ with
    | succ ℓ => exact ho
    | zero =>
      obtain ⟨hv, z, hz, e1, e2, e3, e4, e5⟩ := ho
      obtain ⟨z', hz', f1, f2, f3, -, -, -, -, ez⟩ := publish_kept (E := E) (t := t) (s := s) hx hz
      refine ⟨hv, z', hz', f1.trans e1, f3.trans e2, f2.trans e3,
        (publish_le h hx hst).indexed _ e4, ?_⟩
      by_cases hra : r.addr = a
      · rw [hra, hx] at hz
        cases hz
        rw [hra, hst] at e5
        have hz'' : z' = x.publish E.hash := by
          rcases publish_leaf hz' with ⟨-, he⟩ | ⟨hne, -⟩
          · exact he
          · exact absurd hra hne
        rcases e5 with ⟨-, hrv, hb⟩ | ⟨u, d, w, hw, -⟩
        · refine Or.inr ⟨t, s, y, ?_, ?_, ?_, ?_⟩
          · rw [hra, publish_st_self]
          · rw [hz'']
            change r.version + 1 = x.ver
            omega
          · simp only [TreeView.publishSplit, Function.update_of_ne hsa, hy]
          · rw [hb]
            exact (hpair.pmax (by rw [hst]; rfl)).symm
        · cases hw
      · rw [publish_st_ne hra, ez hra]
        rcases e5 with hcl | ⟨u, d, w, hw, hrv, hd, hb⟩
        · exact Or.inl hcl
        · have hda : d ≠ a := hfresh (b := r.addr) (by rw [hw]; rfl)
          refine Or.inr ⟨u, d, w, hw, hrv, ?_, hb⟩
          simp only [TreeView.publishSplit, Function.update_of_ne hda, hd]
  · intro b z hb hf ho
    obtain ⟨z₀, hz₀, -, hmin, -⟩ := publish_old hx hb
    rw [hmin]
    by_cases hba : b = a
    · exact h.levels.idx b z₀ hz₀ (by rw [hba, hst]; simp) (by rw [hba, hst]; simp)
    · rw [publish_st_ne hba] at hf ho
      exact h.levels.idx b z₀ hz₀ hf ho
  · intro b d hb
    rw [hpart] at hb
    have hda : d ≠ a := hfresh hb
    obtain ⟨z, w, hz, hw, hp⟩ := h.levels.pair b d hb
    obtain ⟨z', hz', -, -, -, hmax, -, -, -, ez⟩ := publish_kept (E := E) (t := t) (s := s) hx hz
    refine ⟨z', w, hz', ?_, ?_, hp.tver, hp.own, hp.min.trans hmax.symm, hp.lt, ?_⟩
    · simp only [TreeView.publishSplit, Function.update_of_ne hda, hw]
    · rw [publish_st_ne hda]
      exact hp.fresh
    · intro hcl
      by_cases hba : b = a
      · rw [hba, publish_st_self] at hcl
        cases hcl
      · rw [publish_st_ne hba] at hcl
        rw [ez hba]
        exact hp.pmax hcl
  · intro b d e hb hd
    rw [hpart] at hb hd
    exact h.levels.partner_inj b d e hb hd
  · intro b hb
    have hba : b ≠ a := by
      rintro rfl
      simp [TreeView.publishSplit] at hb
    rw [publish_st_ne hba]
    simp only [TreeView.publishSplit, Function.update_of_ne hba] at hb
    exact h.levels.fresh b hb

include h hx hst hown in
theorem rel_publish : TreeRel E.hash t m g (m.setTable x.tab tab) (g.publishSplit E.hash t a s x) := by
  refine ⟨publish_le h hx hst, ?_, ?_, ?_, ?_, ?_, ?_, fun _ _ _ => Iff.rfl, fun _ _ _ _ => rfl,
    fun _ _ _ => Iff.rfl, fun _ _ => Iff.rfl, fun _ _ => Iff.rfl, fun _ _ _ => rfl,
    fun _ _ _ => Iff.rfl, ?_⟩
  · intro b z z' hz hz'
    obtain ⟨z₁, hz₁, -, -, -, hmax, -, hkv, hver, -⟩ :=
      publish_kept (E := E) (t := t) (s := s) hx hz
    rw [hz'] at hz₁
    cases hz₁
    exact Or.inl ⟨hver, hmax, by rw [hkv]; exact fun _ _ h => h⟩
  · intro b z z' hz hz' hlt
    rcases publish_leaf hz' with ⟨rfl, -⟩ | ⟨-, hb⟩
    · exact ⟨s, hst⟩
    · rw [hz] at hb
      cases hb
      exact absurd hlt (lt_irrefl _)
  · rintro k ⟨b, z, i, hz, hi, hk, hm⟩
    obtain ⟨z', hz', -, -, -, -, -, hkv, -, ez⟩ := publish_kept (E := E) (t := t) (s := s) hx hz
    refine ⟨b, z', i, hz', ?_, by rw [hkv]; exact hk, fun d w e hw hs hor => ?_⟩
    rotate_left
    · have hda : d ≠ a := by
        rintro rfl
        rw [publish_st_self] at hs
        cases hs
      rw [publish_st_ne hda] at hs
      rcases publish_leaf hw with ⟨hd, -⟩ | ⟨-, hd⟩
      · exact absurd hd hda
      · exact hm d w e hd hs hor
    by_cases hba : b = a
    · have hz'' : z' = x.publish E.hash := by
        rcases publish_leaf hz' with ⟨-, he⟩ | ⟨hne, -⟩
        · exact he
        · exact absurd hba hne
      have hlen : z'.fps.length = z'.kv.length := by
        rw [hz'']
        exact List.length_map ..
      rw [hlen, hkv]
      obtain ⟨d, hd, -⟩ := Option.map_eq_some_iff.mp hk
      exact (List.getElem?_eq_some_iff.mp hd).1
    · rw [ez hba]
      exact hi
  · intro b z u hu hz ho
    have hba : b ≠ a := by
      rintro rfl
      rw [hx] at hz
      cases hz
      exact hu (Option.some.inj (ho.symm.trans hown))
    rw [publish_st_ne hba]
    refine ⟨?_, fun h => h, fun _ h => h⟩
    simp only [TreeView.publishSplit, Function.update_of_ne hba, hz]
  · intro b u hu ho
    obtain ⟨z, hz, hzo⟩ := Option.bind_eq_some_iff.mp ho
    rcases publish_leaf hz with ⟨rfl, rfl⟩ | ⟨-, hb⟩
    · cases hzo
    · exact Option.bind_eq_some_iff.mpr ⟨z, hb, hzo⟩
  · intro b d u hu
    by_cases hba : b = a
    · rw [hba, publish_st_self, hst]
      simp [Ne.symm hu]
    · rw [publish_st_ne hba]
  · intro b u hu hb
    exact ⟨rfl, Function.update_of_ne ((h.alloc.priv b u hb).2.2.2 a x hx).symm .., rfl⟩

include h hx hst hown in
/-- The client that holds the lock writes the table with the next version, which releases the
lock. -/
theorem TreeInv.publishSplit
    (hhalf : KeyNull < x.min → x.min < x.max → (x.cap + 1) / 2 ≤ x.kv.length)
    (ht : TableHolds E.hash x.cap x.ver (x.kv.map fun p => calKeyFp E.hash p.key) tab)
    (hlock : tab.lock = false) :
    TreeStep E M t m g (m.setTable x.tab tab) (g.publishSplit E.hash t a s x) := by
  refine ⟨⟨leaves_publish h hx hst hhalf ht hlock, levels_publish h hx hst,
    h.nodes.congr rfl rfl rfl rfl rfl,
    h.root.congr rfl rfl rfl rfl rfl rfl rfl rfl rfl fun _ _ _ h => h,
    ⟨?_, h.alloc.table_update (h.alloc.leaf a x hx).2, h.alloc.inner, ?_⟩,
    h.cache.mono (publish_le h hx hst) rfl, h.eff.same (fun d => ?_) rfl⟩,
    rel_publish h hx hst hown⟩
  · intro b z hb
    obtain ⟨z₀, hz₀, htab, -⟩ := publish_old hx hb
    rw [htab]
    exact h.alloc.leaf b z₀ hz₀
  · intro b u hb
    obtain ⟨h1, h2, h3, h4⟩ := h.alloc.priv b u hb
    have hba : b ≠ a := by
      rintro rfl
      rw [hx] at h2
      cases h2
    refine ⟨h1, by simp only [TreeView.publishSplit, Function.update_of_ne hba, h2], h3, ?_⟩
    intro d z hz
    obtain ⟨z₀, hz₀, htab, -⟩ := publish_old hx hz
    rw [htab]
    exact h4 d z₀ hz₀
  · constructor
    · rintro ⟨b, z, hz, hd⟩
      obtain ⟨z₀, hz₀, -, -, -, -, hkv⟩ := publish_old hx hz
      exact ⟨b, z₀, hz₀, hkv ▸ hd⟩
    · rintro ⟨b, z, hz, hd⟩
      obtain ⟨z', hz', -, -, -, -, -, hkv, -⟩ := publish_kept (E := E) (t := t) (s := s) hx hz
      exact ⟨b, z', hz', hkv ▸ hd⟩

end Publish

end DMTree
