import DMTree.Proofs.ViewProofs

/-!
# Steps on leaves

Every step that writes a leaf or its fingerprint table, as a change of the abstract tree: the lock is
taken or released, a pair is replaced, a pair is added in two steps, and a full leaf is split in two
steps. Each of them keeps the invariant and stays within what a client may change.
-/

namespace DMTree

open Conc Segments

variable {E : Env} {M : Mode} {m m' : Cluster} {g g' : TreeView} {n : InnerNode} {a b : Gaddr}
  {i : NodeView} {t u : Tid} {x y : LeafView} {l : Leaf} {tab : FPTable} {p q : EntryPos} {c : Nat}

/-- A step of the client `t` that keeps the invariant and stays within what it may change. -/
abbrev TreeStep (E : Env) (M : Mode) (t : Tid) (m : Cluster) (g : TreeView) (m' : Cluster)
    (g' : TreeView) : Prop :=
  TreeInv E M m' g' ∧ TreeRel E.hash t m g m' g'

/-! ## Parts of the invariant that a step does not touch -/

theorem NodeStored.congr (h : NodeStored E g a i n) (hl : g'.lvl = g.lvl) (hi : g'.inner = g.inner)
    (ho : g'.iown a = g.iown a) : NodeStored E g' a i n where
  wf := h.wf
  crc := h.crc
  min := h.min
  lt := h.lt
  le := h.le
  bottom := h.bottom
  recs := by rw [hl]; exact h.recs
  first := by rw [hl]; exact h.first
  right := by rw [hi]; exact h.right
  stray := h.stray
  lock := by rw [ho]; exact h.lock
  root := h.root

theorem NodesOk.congr (h : NodesOk E m g) (hm : m'.inner = m.inner) (hl : g'.lvl = g.lvl)
    (hi : g'.inner = g.inner) (ho : g'.iown = g.iown) (hp : g'.ipend = g.ipend) :
    NodesOk E m' g' where
  stored := by
    rw [hm, hi]
    intro a i ha
    obtain ⟨n, hn, hs⟩ := h.stored a i ha
    exact ⟨n, hn, hs.congr hl hi (by rw [ho])⟩
  disjoint := by
    rw [hm, hi]
    exact h.disjoint
  own := by rw [ho, hi]; exact h.own
  pend := by rw [hp, hi]; exact h.pend

theorem RootOk.congr (h : RootOk M m g) (hr : m'.root = m.root) (hl : m'.rootLock = m.rootLock)
    (hm : m'.inner = m.inner) (hi : g'.inner = g.inner) (ht : g'.top = g.top)
    (hv : g'.lvl = g.lvl) (hp : g'.ipend = g.ipend) (ho : g'.rown = g.rown) (hk : g'.rtok = g.rtok)
    (hpr : ∀ a u, g.rtok = some u → g.priv a = some u → g'.priv a = some u) : RootOk M m' g' where
  inner := by rw [hi, hr, ht]; exact h.inner
  lev_le := by rw [hi, ht]; exact h.lev_le
  top_pend := by rw [hi, ht, hr, hp]; exact h.top_pend
  above := by rw [ht, hv]; exact h.above
  lock := by rw [hl, ho]; exact h.lock
  marked := by rw [hk, hm, hr]; exact h.marked
  unique := by
    rw [hk, hm, hr]
    intro hM a n hn hroot
    refine (h.unique hM a n hn hroot).imp_right ?_
    rintro ⟨u, hu, hpu⟩
    exact ⟨u, hu, hpr a u hu hpu⟩
  tok := by rw [hk]; exact h.tok

/-! ## Contents -/

theorem lastValue_append (l : List EntryPos) (p : EntryPos) :
    lastValue (l ++ [p]) = Function.update (lastValue l) p.key (some p.value) := by
  simp [lastValue, List.foldl_append]

theorem EffOk.same (h : EffOk g) (hh : ∀ q, g'.Has q ↔ g.Has q) (he : g'.eff = g.eff) : EffOk g' := by
  intro q
  rw [he]
  exact (hh q).trans (h q)

/-- A write takes effect. -/
theorem EffOk.write (h : EffOk g) (hh : ∀ q, g'.Has q ↔ q = p ∨ q.key ≠ p.key ∧ g.Has q)
    (he : g'.eff = g.eff ++ [(c, p)]) : EffOk g' := by
  intro q
  rw [he, List.map_append, List.map_singleton, lastValue_append]
  refine (hh q).trans ?_
  by_cases hk : q.key = p.key
  · rw [hk, Function.update_self]
    constructor
    · rintro (rfl | ⟨hne, _⟩)
      · rfl
      · exact absurd rfl hne
    · intro hv
      left
      cases p
      cases q
      simp_all
  · rw [Function.update_of_ne hk]
    constructor
    · rintro (rfl | ⟨_, hq⟩)
      · exact absurd rfl hk
      · exact (h q).mp hq
    · exact fun hv => .inr ⟨hk, (h q).mpr hv⟩

/-- A pair whose key is in the range of a leaf is in that leaf. -/
theorem LeavesOk.eq_of_mem (h : LeavesOk E m g) (hx : g.leaf a = some x) (hy : g.leaf b = some y)
    (hq : q ∈ y.kv) (h1 : x.min ≤ q.key) (h2 : q.key < x.max) : b = a := by
  obtain ⟨h3, h4⟩ := (h.ok b y hy).range q hq
  exact h.disjoint b a y x q.key hy hx h3 h4 h1 h2

/-! ## Storage -/

/-- A right link stays right. -/
theorem RightLink.mono {h : LeafHeader} {k : Key} {r : Option Gaddr} (hr : RightLink g h k r)
    (hle : g.Le g') : RightLink g' h k r := by
  cases r with
  | none => exact hr
  | some b =>
    obtain ⟨hb, y, hy, h1, h2, h3⟩ := hr
    obtain ⟨y', hy', ht', hm', hc', _⟩ := hle.leaf b y hy
    exact ⟨hb, y', hy', h1.trans ht'.symm, h2.trans hc'.symm, hm'.trans h3⟩

/-- The header of a leaf, as its view has it. -/
structure HdrHolds (g : TreeView) (x : LeafView) (h : LeafHeader) : Prop where
  min : h.minKey = x.min
  max : h.maxKey = x.max
  cap : h.capacity = x.cap
  ver : h.version = x.ver
  right : RightLink g h x.max x.right

theorem HdrHolds.mono {h : LeafHeader} (hh : HdrHolds g x h) (hle : g.Le g') : HdrHolds g' x h :=
  { hh with right := hh.right.mono hle }

theorem LeafStored.hdr (h : LeafStored E.hash m g a x l tab) : HdrHolds g x l.hdr :=
  ⟨h.min, h.max, h.cap, h.ver, h.right⟩

theorem LeafStored.mono (h : LeafStored E.hash m g a x l tab) (hle : g.Le g')
    (hl : m'.leaf a = m.leaf a) (ht : m'.table x.tab = m.table x.tab) :
    LeafStored E.hash m' g' a x l tab where
  leaf := hl.trans h.leaf
  table := ht.trans h.table
  min := h.min
  max := h.max
  cap := h.cap
  ver := h.ver
  entries := h.entries
  fps := h.fps
  lock := h.lock
  right := h.right.mono hle

/-- The leaf at `a` and the table at `c` are written. -/
def Cluster.putLeaf (m : Cluster) (a : Gaddr) (l : Leaf) (c : Gaddr) (t : FPTable) : Cluster :=
  { m with leaf := Function.update m.leaf a (some l), table := Function.update m.table c (some t) }

/-- The view of the leaf `a` is replaced, and `eff` becomes the list of writes. -/
def TreeView.putLeaf (g : TreeView) (a : Gaddr) (x : LeafView) (eff : List (Nat × EntryPos)) :
    TreeView :=
  { g with leaf := Function.update g.leaf a (some x), eff := eff }

/-- The contents of a leaf and its lock are replaced. -/
def LeafView.edit (x : LeafView) (kv : List EntryPos) (fps : List UInt8) (own : Option Tid) :
    LeafView :=
  { x with kv := kv, fps := fps, own := own }

section Edit

variable (kv : List EntryPos) (fps : List UInt8) (own : Option Tid) (eff : List (Nat × EntryPos))

/-- Every leaf is what it was, up to an edit. -/
theorem leaf_edit (hx : g.leaf a = some x) (hy : g.leaf b = some y) :
    ∃ kv' fps' own', (g.putLeaf a (x.edit kv fps own) eff).leaf b = some (y.edit kv' fps' own') := by
  by_cases hb : b = a
  · subst hb
    rw [hx] at hy
    cases hy
    exact ⟨kv, fps, own, by simp [TreeView.putLeaf]⟩
  · exact ⟨y.kv, y.fps, y.own, by simp [TreeView.putLeaf, Function.update_of_ne hb, hy, LeafView.edit]⟩

theorem edit_le (hx : g.leaf a = some x) : g.Le (g.putLeaf a (x.edit kv fps own) eff) where
  leaf := by
    intro b y hy
    obtain ⟨kv', fps', own', h⟩ := leaf_edit kv fps own eff hx hy
    exact ⟨_, h, rfl, rfl, rfl, .inr ⟨rfl, rfl, id⟩⟩
  indexed := fun _ h => h
  inner := fun _ _ h => h

variable {kv fps own eff}

theorem edit_leaf_inv (hx : g.leaf a = some x)
    (hy : (g.putLeaf a (x.edit kv fps own) eff).leaf b = some y) :
    (b = a ∧ y = x.edit kv fps own) ∨ (b ≠ a ∧ g.leaf b = some y) := by
  by_cases hb : b = a
  · subst hb
    simp only [TreeView.putLeaf, Function.update_self, Option.some.injEq] at hy
    exact .inl ⟨rfl, hy.symm⟩
  · rw [TreeView.putLeaf] at hy
    simp only [Function.update_of_ne hb] at hy
    exact .inr ⟨hb, hy⟩

theorem edit_leaf_old (hx : g.leaf a = some x)
    (hy : (g.putLeaf a (x.edit kv fps own) eff).leaf b = some y) :
    ∃ z kv' fps' own', g.leaf b = some z ∧ y = z.edit kv' fps' own' := by
  rcases edit_leaf_inv hx hy with ⟨rfl, rfl⟩ | ⟨_, hy⟩
  · exact ⟨x, kv, fps, own, hx, rfl⟩
  · exact ⟨y, _, _, _, hy, rfl⟩

theorem LeavesOk.edit (h : LeavesOk E m g) (hx : g.leaf a = some x)
    (hst : LeafStored E.hash (m.putLeaf a l x.tab tab) g a (x.edit kv fps own) l tab)
    (hok : (x.edit kv fps own).Ok E.hash (g.st a)) :
    LeavesOk E (m.putLeaf a l x.tab tab) (g.putLeaf a (x.edit kv fps own) eff) where
  ok := by
    intro b y hy
    rcases edit_leaf_inv hx hy with ⟨rfl, rfl⟩ | ⟨_, hy⟩
    · exact hok
    · exact h.ok b y hy
  stored := by
    intro b y hy
    have hle := edit_le kv fps own eff hx
    rcases edit_leaf_inv hx hy with ⟨rfl, rfl⟩ | ⟨hb, hy⟩
    · exact ⟨l, tab, hst.mono hle rfl rfl⟩
    · obtain ⟨l', tab', hs⟩ := h.stored b y hy
      have htab : y.tab ≠ x.tab := fun he => hb (h.tab_inj b a y x hy hx he)
      exact ⟨l', tab', hs.mono hle (Function.update_of_ne hb ..) (Function.update_of_ne htab ..)⟩
  tab_inj := by
    intro b c y z hy hz he
    obtain ⟨y', _, _, _, hy', rfl⟩ := edit_leaf_old hx hy
    obtain ⟨z', _, _, _, hz', rfl⟩ := edit_leaf_old hx hz
    exact h.tab_inj b c y' z' hy' hz' he
  disjoint := by
    intro b c y z k hy hz
    obtain ⟨y', _, _, _, hy', rfl⟩ := edit_leaf_old hx hy
    obtain ⟨z', _, _, _, hz', rfl⟩ := edit_leaf_old hx hz
    exact h.disjoint b c y' z' k hy' hz'
  chain_mem := by
    intro b
    rw [show (g.putLeaf a (x.edit kv fps own) eff).chain = g.chain from rfl, h.chain_mem b]
    by_cases hb : b = a
    · subst hb
      simp [TreeView.putLeaf, hx]
    · simp [TreeView.putLeaf, Function.update_of_ne hb]
  chain_nodup := h.chain_nodup
  chain_head := h.chain_head
  chain_follows := by
    refine h.chain_follows.imp fun b c hbc => ?_
    obtain ⟨y, hy, hr⟩ := hbc
    obtain ⟨_, _, _, hy'⟩ := leaf_edit kv fps own eff hx hy
    exact ⟨_, hy', hr⟩
  chain_last := by
    intro b y hb hy
    obtain ⟨y', _, _, _, hy', rfl⟩ := edit_leaf_old hx hy
    exact h.chain_last b y' hb hy'

theorem RecOk.edit (hx : g.leaf a = some x) {ℓ : Nat} {r : Record} {k : Key} (h : RecOk g ℓ r k) :
    RecOk (g.putLeaf a (x.edit kv fps own) eff) ℓ r k := by
  cases ℓ with
  | succ ℓ => exact h
  | zero =>
    obtain ⟨hv, y, hy, h1, h2, h3, h4, h5⟩ := h
    obtain ⟨_, _, _, hy'⟩ := leaf_edit kv fps own eff hx hy
    refine ⟨hv, _, hy', h1, h2, h3, h4, h5.imp id ?_⟩
    rintro ⟨t, s, z, hs, hver, hz, hb⟩
    obtain ⟨_, _, _, hz'⟩ := leaf_edit kv fps own eff hx hz
    exact ⟨t, s, _, hs, hver, hz', hb⟩

theorem LevelsOk.edit (h : LevelsOk g) (hx : g.leaf a = some x)
    (hown : ∀ b, (g.st b).partner = some a → own = none) :
    LevelsOk (g.putLeaf a (x.edit kv fps own) eff) where
  seg := fun ℓ => (h.seg ℓ).mono fun _ _ _ hr => hr.edit hx
  idx := by
    intro b y hy
    obtain ⟨y', _, _, _, hy', rfl⟩ := edit_leaf_old hx hy
    exact h.idx b y' hy'
  pidx := h.pidx
  pair := by
    intro b s hs
    obtain ⟨y, z, hy, hz, hp⟩ := h.pair b s hs
    obtain ⟨_, _, _, hy'⟩ := leaf_edit kv fps own eff hx hy
    by_cases hsa : s = a
    · subst hsa
      rw [hx] at hz
      cases hz
      refine ⟨_, x.edit kv fps own, hy', by simp [TreeView.putLeaf], ?_⟩
      exact ⟨hp.fresh, hp.tver, hown b hs, hp.min, hp.lt, hp.pmax⟩
    · refine ⟨_, z, hy', by simp [TreeView.putLeaf, Function.update_of_ne hsa, hz], ?_⟩
      exact ⟨hp.fresh, hp.tver, hp.own, hp.min, hp.lt, hp.pmax⟩
  partner_inj := h.partner_inj
  fresh := by
    intro b hb
    refine h.fresh b ?_
    by_cases hba : b = a
    · subst hba
      simp [TreeView.putLeaf] at hb
    · simpa [TreeView.putLeaf, Function.update_of_ne hba] using hb

/-- The contents of a leaf and its lock are changed, together with the list of writes. -/
theorem TreeInv.edit (h : TreeInv E M m g) (hx : g.leaf a = some x)
    (hst : LeafStored E.hash (m.putLeaf a l x.tab tab) g a (x.edit kv fps own) l tab)
    (hok : (x.edit kv fps own).Ok E.hash (g.st a))
    (hown : ∀ b, (g.st b).partner = some a → own = none)
    (heff : EffOk (g.putLeaf a (x.edit kv fps own) eff)) :
    TreeInv E M (m.putLeaf a l x.tab tab) (g.putLeaf a (x.edit kv fps own) eff) where
  leaves := h.leaves.edit hx hst hok
  levels := h.levels.edit hx hown
  nodes := h.nodes.congr rfl rfl rfl rfl rfl
  root := h.root.congr rfl rfl rfl rfl rfl rfl rfl rfl rfl fun _ _ _ h => h
  alloc := {
    leaf := by
      intro b y hy
      obtain ⟨y', _, _, _, hy', rfl⟩ := edit_leaf_old hx hy
      exact h.alloc.leaf b y' hy'
    table := h.alloc.table_update (h.alloc.leaf a x hx).2
    inner := h.alloc.inner
    priv := by
      intro b u hu
      obtain ⟨h1, h2, h3, h4⟩ := h.alloc.priv b u hu
      have hb : b ≠ a := by
        rintro rfl
        rw [hx] at h2
        cases h2
      refine ⟨h1, by simp [TreeView.putLeaf, Function.update_of_ne hb, h2], h3, ?_⟩
      intro d y hy
      obtain ⟨y', _, _, _, hy', rfl⟩ := edit_leaf_old hx hy
      exact h4 d y' hy' }
  cache := h.cache.mono (edit_le kv fps own eff hx) rfl
  eff := heff

/-- The same as a step of the client `t`, which holds the lock before or after. -/
theorem TreeRel.edit (h : TreeInv E M m g) (hx : g.leaf a = some x)
    (ho : ∀ u, x.own = some u → u = t) (ho' : ∀ u, own = some u → u = t)
    (hstep : ∀ (i : Nat) k, (x.kv[i]?).map EntryPos.key = some k →
      (kv[i]?).map EntryPos.key = some k) (hfps : x.fps <+: fps) :
    TreeRel E.hash t m g (m.putLeaf a l x.tab tab) (g.putLeaf a (x.edit kv fps own) eff) where
  le := edit_le kv fps own eff hx
  step := by
    intro b y y' hy hy'
    rcases edit_leaf_inv hx hy' with ⟨rfl, rfl⟩ | ⟨_, hy'⟩
    · rw [hx] at hy
      cases hy
      exact .inl ⟨rfl, rfl, hstep⟩
    · rw [hy] at hy'
      cases hy'
      exact .inl ⟨rfl, rfl, fun _ _ h => h⟩
  tver := by
    intro b y y' hy hy' hlt
    obtain ⟨z, _, _, _, hz, rfl⟩ := edit_leaf_old hx hy'
    rw [hy] at hz
    cases hz
    exact absurd hlt (lt_irrefl _)
  stored := by
    rintro k ⟨b, y, i, hy, hi, hk, hm⟩
    have hm' : ∀ d z s, (g.putLeaf a (x.edit kv fps own) eff).leaf d = some z →
        g.st d = .moving s → b = d ∨ b = s → calKeyFp E.hash k ∈ z.fps := by
      intro d z s hz hs hb
      rcases edit_leaf_inv hx hz with ⟨rfl, rfl⟩ | ⟨_, hz⟩
      · exact hfps.subset (hm d x s hx hs hb)
      · exact hm d z s hz hs hb
    by_cases hb : b = a
    · subst hb
      rw [hx] at hy
      cases hy
      exact ⟨b, x.edit kv fps own, i, by simp [TreeView.putLeaf], hi.trans_le hfps.length_le,
        hstep i k hk, hm'⟩
    · exact ⟨b, y, i, by simp [TreeView.putLeaf, Function.update_of_ne hb, hy], hi, hk, hm'⟩
  locked := by
    intro b y u hu hy hown
    have hb : b ≠ a := by
      rintro rfl
      rw [hx] at hy
      cases hy
      exact hu (ho u hown)
    exact ⟨by simp [TreeView.putLeaf, Function.update_of_ne hb, hy], id, fun _ h => h⟩
  lown := by
    intro b u hu hown
    obtain ⟨y, hy, hyo⟩ := Option.bind_eq_some_iff.mp hown
    rcases edit_leaf_inv hx hy with ⟨rfl, rfl⟩ | ⟨_, hy⟩
    · exact absurd (ho' u hyo) hu
    · exact Option.bind_eq_some_iff.mpr ⟨y, hy, hyo⟩
  opened := fun _ _ _ _ => Iff.rfl
  iown := fun _ _ _ => Iff.rfl
  inner := fun _ _ _ _ => rfl
  ipend := fun _ _ _ => Iff.rfl
  rown := fun _ _ => Iff.rfl
  rtok := fun _ _ => Iff.rfl
  root := fun _ _ _ => rfl
  priv := fun _ _ _ => Iff.rfl
  mine := by
    intro b u hu hp
    obtain ⟨_, h2, _, h4⟩ := h.alloc.priv b u hp
    have hb : b ≠ a := by
      rintro rfl
      rw [hx] at h2
      cases h2
    exact ⟨Function.update_of_ne hb .., Function.update_of_ne (h4 a x hx).symm .., rfl⟩

theorem LeafStored.edit {l' : Leaf} {tab' : FPTable} (h : LeafStored E.hash m g a x l tab)
    (hh : l'.hdr = l.hdr) (he : EntriesHold x.cap x.ver kv l'.entries)
    (hf : TableHolds E.hash x.cap x.tver fps tab') (hl : tab'.lock = own.isSome) :
    LeafStored E.hash (m.putLeaf a l' x.tab tab') g a (x.edit kv fps own) l' tab' where
  leaf := Function.update_self ..
  table := Function.update_self ..
  min := by rw [hh]; exact h.min
  max := by rw [hh]; exact h.max
  cap := by rw [hh]; exact h.cap
  ver := by rw [hh]; exact h.ver
  entries := he
  fps := hf
  lock := hl
  right := by rw [hh]; exact h.right

end Edit

/-! ## The lock of a leaf -/

theorem setLockBit_table (hl : m.leaf a = some l) (ht : m.table b = some tab) (lock : Bool) :
    m.setLockBit lock (.table b) = m.putLeaf a l b { tab with lock := lock } := by
  simp only [Cluster.setLockBit, Cluster.putLeaf, ht, Option.map_some, ← hl,
    Function.update_eq_self]

theorem setTable_putLeaf (hl : m.leaf a = some l) : m.setTable b tab = m.putLeaf a l b tab := by
  simp only [Cluster.setTable, Cluster.putLeaf, ← hl, Function.update_eq_self]

theorem setLeaf_putLeaf (ht : m.table b = some tab) : m.setLeaf a l = m.putLeaf a l b tab := by
  simp only [Cluster.setLeaf, Cluster.putLeaf, ← ht, Function.update_eq_self]

/-- A leaf that is not fresh is not the new leaf of a split. -/
theorem LevelsOk.partner_ne (h : LevelsOk g) (ha : g.st a ≠ .fresh) (b : Gaddr) :
    (g.st b).partner ≠ some a := by
  intro hb
  obtain ⟨_, _, _, _, hp⟩ := h.pair b a hb
  exact ha hp.fresh

/-- The view after the lock of the leaf `a` has been taken or released. -/
def TreeView.setLeafLock (g : TreeView) (a : Gaddr) (x : LeafView) (own : Option Tid) : TreeView :=
  g.putLeaf a (x.edit x.kv x.fps own) g.eff

/-- Fingerprints and locks say nothing about the contents. -/
theorem has_edit (hx : g.leaf a = some x) (fps : List UInt8) (own : Option Tid)
    (eff : List (Nat × EntryPos)) : (g.putLeaf a (x.edit x.kv fps own) eff).Has q ↔ g.Has q := by
  constructor
  · rintro ⟨b, y, hy, hq⟩
    rcases edit_leaf_inv hx hy with ⟨rfl, rfl⟩ | ⟨_, hy⟩
    · exact ⟨b, x, hx, hq⟩
    · exact ⟨b, y, hy, hq⟩
  · rintro ⟨b, y, hy, hq⟩
    by_cases hb : b = a
    · subst hb
      rw [hx] at hy
      cases hy
      exact ⟨b, x.edit x.kv fps own, by simp [TreeView.putLeaf], hq⟩
    · exact ⟨b, y, by simp [TreeView.putLeaf, Function.update_of_ne hb, hy], hq⟩

/-- The lock of a leaf is taken. -/
theorem TreeInv.lockLeaf (h : TreeInv E M m g) (hx : g.leaf a = some x) (hst : g.st a ≠ .fresh)
    (hbit : m.lockBit (.table x.tab) = some false) (t : Tid) :
    x.own = none ∧
    TreeStep E M t m g (m.setLockBit true (.table x.tab)) (g.setLeafLock a x (some t)) := by
  obtain ⟨l, tab, hs⟩ := h.leaves.stored a x hx
  have hown : x.own = none := by
    have hlock := hs.lock
    simp only [Cluster.lockBit, hs.table, Option.map_some, Option.some.injEq] at hbit
    rw [hbit] at hlock
    simpa using hlock.symm
  have hold := h.leaves.ok a x hx
  rw [setLockBit_table hs.leaf hs.table]
  refine ⟨hown, h.edit hx (hs.edit rfl hs.entries (hs.fps.lock true) rfl) ?_ ?_ ?_,
    TreeRel.edit h hx ?_ ?_ (fun _ _ hk => hk) (List.prefix_refl _)⟩
  · have hrest : x.fps = x.kv.map (fun p => calKeyFp E.hash p.key) ∨ ∃ b, g.st a = .moving b := by
      by_cases hm : ∃ b, g.st a = .moving b
      · exact .inr hm
      · left
        rcases (hold.rest fun b hb => hm ⟨b, hb⟩).2.2 with hr | ⟨ho, _⟩
        · exact hr
        · rw [hown] at ho
          cases ho
    exact {
      cap_pos := hold.cap_pos
      cap_le := hold.cap_le
      min_le := hold.min_le
      max_le := hold.max_le
      keys := hold.keys
      range := hold.range
      rest := fun hb => ⟨(hold.rest hb).1, (hold.rest hb).2.1, .inl (hrest.resolve_right
        fun ⟨b, hm⟩ => hb b hm)⟩
      moving := fun b hb => ⟨(hold.moving b hb).1, (hold.moving b hb).2.1, rfl⟩
      first := hold.first }
  · exact fun b hb => absurd hb (h.levels.partner_ne hst b)
  · exact h.eff.same (fun q => has_edit hx ..) rfl
  · intro u hu
    rw [hown] at hu
    cases hu
  · intro u hu
    cases hu
    rfl

/-- The lock of a leaf is released by its holder. -/
theorem TreeInv.unlockLeaf (h : TreeInv E M m g) (hx : g.leaf a = some x) (hown : x.own = some t)
    (hm : ∀ b, g.st a ≠ .moving b) (hfps : x.fps = x.kv.map fun p => calKeyFp E.hash p.key) :
    TreeStep E M t m g (m.setLockBit false (.table x.tab)) (g.setLeafLock a x none) := by
  obtain ⟨l, tab, hs⟩ := h.leaves.stored a x hx
  have hold := h.leaves.ok a x hx
  rw [setLockBit_table hs.leaf hs.table]
  refine ⟨h.edit hx (hs.edit rfl hs.entries (hs.fps.lock false) rfl) ?_ (fun _ _ => rfl) ?_,
    TreeRel.edit h hx ?_ ?_ (fun _ _ hk => hk) (List.prefix_refl _)⟩
  · exact {
      cap_pos := hold.cap_pos
      cap_le := hold.cap_le
      min_le := hold.min_le
      max_le := hold.max_le
      keys := hold.keys
      range := hold.range
      rest := fun hb => ⟨(hold.rest hb).1, (hold.rest hb).2.1, .inl hfps⟩
      moving := fun b hb => absurd hb (hm b)
      first := hold.first }
  · exact h.eff.same (fun q => has_edit hx ..) rfl
  · intro u hu
    rw [hown] at hu
    cases hu
    rfl
  · intro u hu
    cases hu

/-! ## Pairs -/

theorem key_inj (h : (x.kv.map EntryPos.key).Nodup) {i j : Nat} {p q : EntryPos}
    (hi : x.kv[i]? = some p) (hj : x.kv[j]? = some q) (hk : p.key = q.key) : i = j := by
  have hi' : (x.kv.map EntryPos.key)[i]? = some p.key := by simp [hi]
  have hj' : (x.kv.map EntryPos.key)[j]? = some p.key := by simp [hj, hk]
  have hlt : i < (x.kv.map EntryPos.key).length := (List.getElem?_eq_some_iff.mp hi').1
  exact (List.getElem?_inj hlt h).mp (hi'.trans hj'.symm)

theorem map_key_set {kv : List EntryPos} {i : Nat} (hi : kv[i]? = some q) (hk : q.key = p.key) :
    (kv.set i p).map EntryPos.key = kv.map EntryPos.key := by
  rw [List.map_set, ← hk]
  have hi' : (kv.map EntryPos.key)[i]? = some q.key := by simp [hi]
  obtain ⟨hlt, he⟩ := List.getElem?_eq_some_iff.mp hi'
  rw [← he]
  exact List.set_getElem_self ..

theorem getElem?_key_set {kv : List EntryPos} {i : Nat} (hi : kv[i]? = some q) (hk : q.key = p.key)
    (j : Nat) : ((kv.set i p)[j]?).map EntryPos.key = (kv[j]?).map EntryPos.key := by
  rw [← List.getElem?_map, map_key_set hi hk, List.getElem?_map]

/-- The pairs of a leaf that is not being split change, and its fingerprints do not. -/
theorem LeafView.Ok.pairs {H : Hashes} {s : Status} (h : x.Ok H s) (hs : ∀ b, s ≠ .moving b)
    {kv : List EntryPos} {own : Option Tid} (hkeys : (kv.map EntryPos.key).Nodup)
    (hrange : ∀ p ∈ kv, x.min ≤ p.key ∧ p.key < x.max)
    (hsub : x.kv.map EntryPos.key ⊆ kv.map EntryPos.key)
    (hfps : x.fps = kv.map (fun p => calKeyFp H p.key) ∨ own.isSome = true ∧ ∃ kv' p,
      kv = kv' ++ [p] ∧ x.fps = kv'.map fun p => calKeyFp H p.key) :
    (x.edit kv x.fps own).Ok H s where
  cap_pos := h.cap_pos
  cap_le := h.cap_le
  min_le := h.min_le
  max_le := h.max_le
  keys := hkeys
  range := hrange
  rest := fun _ => ⟨(h.rest hs).1, (h.rest hs).2.1, hfps⟩
  moving := fun b hb => absurd hb (hs b)
  first := fun h1 h2 => ⟨hsub (h.first h1 h2).1, (h.first h1 h2).2⟩

/-- A pair is written to the leaf that is responsible for its key. -/
theorem TreeInv.has_write (h : TreeInv E M m g) (hx : g.leaf a = some x)
    (hr : x.min ≤ p.key ∧ p.key < x.max) {kv : List EntryPos} {fps : List UInt8} {own : Option Tid}
    {eff : List (Nat × EntryPos)} (hkv : ∀ r, r ∈ kv ↔ r = p ∨ r.key ≠ p.key ∧ r ∈ x.kv)
    (r : EntryPos) :
    (g.putLeaf a (x.edit kv fps own) eff).Has r ↔ r = p ∨ r.key ≠ p.key ∧ g.Has r := by
  constructor
  · rintro ⟨b, y, hy, hmem⟩
    rcases edit_leaf_inv hx hy with ⟨rfl, rfl⟩ | ⟨hb, hy⟩
    · rcases (hkv r).mp hmem with rfl | ⟨hne, hmem⟩
      · exact .inl rfl
      · exact .inr ⟨hne, b, x, hx, hmem⟩
    · refine .inr ⟨fun hrk => hb ?_, b, y, hy, hmem⟩
      rw [← hrk] at hr
      exact h.leaves.eq_of_mem hx hy hmem hr.1 hr.2
  · have hset : (g.putLeaf a (x.edit kv fps own) eff).leaf a = some (x.edit kv fps own) := by
      simp [TreeView.putLeaf]
    rintro (rfl | ⟨hne, b, y, hy, hmem⟩)
    · exact ⟨a, _, hset, (hkv r).mpr (.inl rfl)⟩
    · by_cases hb : b = a
      · subst hb
        rw [hx] at hy
        cases hy
        exact ⟨b, _, hset, (hkv r).mpr (.inr ⟨hne, hmem⟩)⟩
      · exact ⟨b, y, by simp [TreeView.putLeaf, Function.update_of_ne hb, hy], hmem⟩

theorem mem_set_key (h : (x.kv.map EntryPos.key).Nodup) {i : Nat} (hi : x.kv[i]? = some q)
    (hk : q.key = p.key) (r : EntryPos) :
    r ∈ x.kv.set i p ↔ r = p ∨ r.key ≠ p.key ∧ r ∈ x.kv := by
  have hlt : i < x.kv.length := (List.getElem?_eq_some_iff.mp hi).1
  constructor
  · intro hr
    obtain ⟨j, hj⟩ := List.mem_iff_getElem?.mp hr
    by_cases hij : i = j
    · subst hij
      rw [List.getElem?_set_self hlt] at hj
      exact .inl (Option.some.inj hj).symm
    · rw [List.getElem?_set_ne hij] at hj
      refine .inr ⟨fun hrk => hij ?_, List.mem_of_getElem? hj⟩
      exact key_inj h hi hj (hk.trans hrk.symm)
  · rintro (rfl | ⟨hrk, hr⟩)
    · exact List.mem_set hlt ..
    · obtain ⟨j, hj⟩ := List.mem_iff_getElem?.mp hr
      have hij : i ≠ j := by
        rintro rfl
        rw [hi] at hj
        cases hj
        exact hrk hk
      exact List.mem_of_getElem? (i := j) ((List.getElem?_set_ne hij).trans hj)

/-- The holder of the lock replaces the value of a pair. -/
theorem TreeInv.replacePair (h : TreeInv E M m g) (hx : g.leaf a = some x) (hown : x.own = some t)
    (hst : g.st a = .listed) (hfps : x.fps = x.kv.map fun p => calKeyFp E.hash p.key)
    (hl : m.leaf a = some l) {i : Nat} (hi : x.kv[i]? = some q) (hk : q.key = p.key) (c : Nat) :
    TreeStep E M t m g (m.setLeaf a { l with entries := l.entries.set i (liveEntry x.ver p) })
      (g.putLeaf a (x.edit (x.kv.set i p) x.fps (some t)) (g.eff ++ [(c, p)])) := by
  obtain ⟨l', tab, hs⟩ := h.leaves.stored a x hx
  rw [hs.leaf] at hl
  cases hl
  have hold := h.leaves.ok a x hx
  have hlt : i < x.kv.length := (List.getElem?_eq_some_iff.mp hi).1
  have hmk := map_key_set hi hk
  have hfp : ∀ kv : List EntryPos, kv.map (fun p => calKeyFp E.hash p.key) =
      (kv.map EntryPos.key).map (calKeyFp E.hash) := fun kv => by simp
  have hr := hold.range q (List.mem_of_getElem? hi)
  rw [hk] at hr
  rw [setLeaf_putLeaf hs.table]
  refine ⟨h.edit hx (hs.edit rfl (hs.entries.set hlt) hs.fps (by rw [hs.lock, hown])) ?_ ?_ ?_,
    TreeRel.edit h hx ?_ ?_ (fun j k hj => ?_) (List.prefix_refl _)⟩
  · refine hold.pairs (by simp [hst]) (by rw [hmk]; exact hold.keys) (fun r hmem => ?_)
      (by rw [hmk]; exact List.Subset.refl _) (.inl (by rw [hfp, hmk, ← hfp]; exact hfps))
    rcases (mem_set_key hold.keys hi hk r).mp hmem with rfl | ⟨-, hmem⟩
    · exact hr
    · exact hold.range r hmem
  · exact fun b hb => absurd hb (h.levels.partner_ne (by rw [hst]; simp) b)
  · exact h.eff.write (c := c) (p := p) (h.has_write hx hr (mem_set_key hold.keys hi hk)) rfl
  · intro u hu
    rw [hown] at hu
    cases hu
    rfl
  · intro u hu
    cases hu
    rfl
  · rw [getElem?_key_set hi hk]
    exact hj

/-- The holder of the lock fills the first free slot. -/
theorem TreeInv.addPair (h : TreeInv E M m g) (hx : g.leaf a = some x) (hown : x.own = some t)
    (hst : g.st a = .listed) (hfps : x.fps = x.kv.map fun p => calKeyFp E.hash p.key)
    (hl : m.leaf a = some l) (hlt : x.kv.length < x.cap) (hnew : ∀ q ∈ x.kv, q.key ≠ p.key)
    (hr : x.min ≤ p.key ∧ p.key < x.max) (c : Nat) :
    TreeStep E M t m g (m.setLeaf a { l with entries := l.entries.set x.kv.length (liveEntry x.ver p) })
      (g.putLeaf a (x.edit (x.kv ++ [p]) x.fps (some t)) (g.eff ++ [(c, p)])) := by
  obtain ⟨l', tab, hs⟩ := h.leaves.stored a x hx
  rw [hs.leaf] at hl
  cases hl
  have hold := h.leaves.ok a x hx
  have hmem : ∀ r, r ∈ x.kv ++ [p] ↔ r = p ∨ r.key ≠ p.key ∧ r ∈ x.kv := by
    intro r
    rw [List.mem_append, List.mem_singleton, or_comm]
    exact or_congr_right ⟨fun hq => ⟨hnew r hq, hq⟩, And.right⟩
  rw [setLeaf_putLeaf hs.table]
  refine ⟨h.edit hx (hs.edit rfl (hs.entries.append hlt) hs.fps (by rw [hs.lock, hown])) ?_ ?_ ?_,
    TreeRel.edit h hx ?_ ?_ (fun j k hj => ?_) (List.prefix_refl _)⟩
  · refine hold.pairs (by simp [hst]) ?_ (fun r hq => ?_) ?_ (.inr ⟨rfl, x.kv, p, rfl, hfps⟩)
    · rw [List.map_append]
      refine List.nodup_append.mpr ⟨hold.keys, by simp, ?_⟩
      intro k hk k' hk'
      obtain ⟨q, hq, rfl⟩ := List.mem_map.mp hk
      rw [List.mem_singleton.mp hk']
      exact hnew q hq
    · rcases (hmem r).mp hq with rfl | ⟨-, hq⟩
      · exact hr
      · exact hold.range r hq
    · rw [List.map_append]
      exact List.subset_append_left ..
  · exact fun b hb => absurd hb (h.levels.partner_ne (by rw [hst]; simp) b)
  · exact h.eff.write (c := c) (p := p) (h.has_write hx hr hmem) rfl
  · intro u hu
    rw [hown] at hu
    cases hu
    rfl
  · intro u hu
    cases hu
    rfl
  · have hlt : j < x.kv.length := by
      by_contra hge
      rw [List.getElem?_eq_none (by omega)] at hj
      cases hj
    rw [List.getElem?_append_left hlt]
    exact hj

/-- The holder of the lock writes the table with the fingerprint of the new pair, which releases the
lock. -/
theorem TreeInv.publishPair (h : TreeInv E M m g) (hx : g.leaf a = some x) (hown : x.own = some t)
    (hst : g.st a = .listed) {kv : List EntryPos} (hkv : x.kv = kv ++ [p])
    (hfps : x.fps = kv.map fun p => calKeyFp E.hash p.key) {tab' : FPTable}
    (ht : TableHolds E.hash x.cap x.tver (x.fps ++ [calKeyFp E.hash p.key]) tab')
    (hlock : tab'.lock = false) :
    TreeStep E M t m g (m.setTable x.tab tab')
      (g.putLeaf a (x.edit x.kv (x.fps ++ [calKeyFp E.hash p.key]) none) g.eff) := by
  obtain ⟨l, tab, hs⟩ := h.leaves.stored a x hx
  have hold := h.leaves.ok a x hx
  rw [setTable_putLeaf hs.leaf]
  refine ⟨h.edit hx (hs.edit rfl hs.entries ht (by rw [hlock]; rfl)) ?_ (fun _ _ => rfl) ?_,
    TreeRel.edit h hx ?_ ?_ (fun _ _ hk => hk) (List.prefix_append ..)⟩
  · exact {
      cap_pos := hold.cap_pos
      cap_le := hold.cap_le
      min_le := hold.min_le
      max_le := hold.max_le
      keys := hold.keys
      range := hold.range
      rest := by
        refine fun hb => ⟨(hold.rest hb).1, (hold.rest hb).2.1, .inl ?_⟩
        change x.fps ++ [calKeyFp E.hash p.key] = x.kv.map _
        rw [hkv, hfps]
        simp
      moving := fun b hb => by
        rw [hst] at hb
        cases hb
      first := by
        intro h1 h2
        obtain ⟨h3, h4⟩ := hold.first h1 h2
        refine ⟨h3, h4.trans ?_⟩
        simp [LeafView.edit] }
  · exact h.eff.same (fun q => has_edit hx ..) rfl
  · intro u hu
    rw [hown] at hu
    cases hu
    rfl
  · intro u hu
    cases hu

end DMTree
