import DMTree.Proofs.RepresentationProofs

/-!
# Records of any age

A client goes to a leaf with a record that it has found in a copy of an inner node, and the copy may be
old. The version of the fingerprint table tells whether the record is still good: as long as the table
has the version of the record, and the leaf is not in the middle of a split, the record leads to the
leaf that owns the key and is the record that the index has now.
-/

namespace DMTree

open Conc

variable {E : Env} {F : Flags} {M : Mode} {m : Cluster} {g : TreeView} {a : Gaddr} {k : Key}
  {x : LeafView}

/-- Two records of the same leaf, with the same version. -/
def Record.Same (r r' : Record) : Prop :=
  r'.key = r.key ∧ r'.addr = r.addr ∧ r'.fpAddr = r.fpAddr ∧ r'.capacity = r.capacity ∧
    r'.version = r.version

/-- The leaf `a` is not in the middle of a split: its lock is free, or it has not been rewritten since
the lock was taken. -/
def Settled (l : TreeLog E F) (a f : Gaddr) (t : FPTable) : Prop := t.lock = false ∨ ¬ rewritten l a f

/-- A leaf that is not in the middle of a split has the range that goes with its version. -/
theorem WorldInv.settled {y : TreeWorld E F} (hi : WorldInv M y) {l : Leaf} {t : FPTable}
    (hx : y.ghost.view.leaf a = some x) (hs : LeafStored E.hash y.mem y.ghost.view a x l t)
    (hset : Settled y.log a x.tab t) : x.max = x.pmax := by
  have hok := hi.tree.leaves.ok a x hx
  have hmoving : ∀ s, y.ghost.view.st a ≠ .moving s := by
    intro s hmv
    rcases hset with hfree | hnot
    · rw [hs.lock, (hok.moving s hmv).2.2] at hfree
      cases hfree
    · exact hnot (hi.moving a x s hx hmv)
  exact (hok.rest hmoving).2.1

/-- A leaf that is in no record yet has the range that goes with its version. -/
theorem LeavesOk.max_of_fresh (h : LeavesOk E m g) (hx : g.leaf a = some x) (hst : g.st a = .fresh) :
    x.max = x.pmax := ((h.ok a x hx).rest fun s hs => by rw [hst] at hs; cases hs).2.1

/-- The record of the index for a key leads to the leaf that owns the key, if that leaf is in the index
and not in the middle of a split. -/
theorem TreeInv.floor_same {r r' : Record} (h : TreeInv E M m g) (hr : SnapRec g r k)
    (hx : g.leaf r.addr = some x) (hver : r.version = x.tver) (hmax : k < x.max)
    (hf : Floor g 0 k r') : r.Same r' := by
  obtain ⟨⟨x₁, hx₁, htab, hcap, hmin, -, -, hclosed, -⟩, hidx, hkey, hk⟩ := hr
  obtain rfl := Option.some.inj (hx.symm.trans hx₁)
  have hopen : (g.st r.addr).closed ≠ true := fun hc => absurd (hclosed hc) (by omega)
  obtain ⟨b, hb, -, x', hx', htab', hcap', hmin', -, hv⟩ := h.levels.floor hf hk
  obtain ⟨-, -, -, hkey', -⟩ := hf
  -- the owner of the key is unique
  have howner : ∀ a y, g.leaf a = some y → y.min ≤ k → k < y.max → a = r.addr := by
    intro a y hy h1 h2
    exact h.leaves.disjoint a r.addr y x k hy hx h1 h2 (hmin.trans_le hkey) hmax
  have hsibling : ∀ s y, (g.st r'.addr).partner = some s → g.leaf s = some y → x'.max ≤ k →
      k < y.pmax → False := by
    intro s y hp hy h1 h2
    obtain ⟨x₂, y₂, hx₂, hy₂, hpair⟩ := h.levels.pair r'.addr s hp
    obtain rfl := Option.some.inj (hx'.symm.trans hx₂)
    obtain rfl := Option.some.inj (hy.symm.trans hy₂)
    have hs := howner s y hy (by rw [hpair.min]; exact h1)
      (by rw [h.leaves.max_of_fresh hy hpair.fresh]; exact h2)
    exact hidx (hs ▸ hpair.fresh)
  have hle' : x'.min ≤ k := hmin'.trans_le hkey'
  rcases hv with ⟨-, hver', rfl⟩ | ⟨t, s, y, hst, -, hy, rfl⟩
  · have hin : k < x'.max := by
      by_contra hge
      cases hst : g.st r'.addr with
      | moving s =>
        obtain ⟨x₂, y, hx₂, hy, hpair⟩ := h.levels.pair r'.addr s (by rw [hst]; rfl)
        obtain rfl := Option.some.inj (hx'.symm.trans hx₂)
        refine hsibling s y (by rw [hst]; rfl) hy (not_lt.mp hge) ?_
        rw [hpair.pmax (by rw [hst]; rfl)]
        exact hb
      | _ =>
        have hrest := ((h.leaves.ok _ x' hx').rest fun s hs => by rw [hst] at hs; cases hs).2.1
        exact hge (hrest ▸ hb)
    have haddr := howner r'.addr x' hx' hle' hin
    rw [haddr] at hx'
    obtain rfl := Option.some.inj (hx.symm.trans hx')
    exact ⟨hmin'.symm.trans hmin, haddr, htab'.symm.trans htab, hcap'.symm.trans hcap,
      hver'.trans hver.symm⟩
  · exfalso
    by_cases hin : k < x'.max
    · have haddr := howner r'.addr x' hx' hle' hin
      rw [haddr] at hst
      exact hopen (by rw [hst]; rfl)
    · exact hsibling s y (by rw [hst]; rfl) hy (not_lt.mp hin) hb

/-- In every run, a record that is found in a copy of a bottom node of any age leads to the leaf that
owns the key, and is the record that the index has now, if the table has its version and the leaf is
not in the middle of a split; and as long as the version stays, so does the range of the leaf. -/
theorem records_validated (E : Env) (F : Flags) (me : Nat) (c₀ c : TreeConfig E F)
    (h₀ : Reach (treeMachine E) (treeGuard E F {}) (treeInit E F me) c₀) (b : Gaddr)
    (hb : IndexNode c₀.mem b) (n : InnerNode) (hn : c₀.mem.inner b = some n)
    (hbottom : n.hdr.nextIsLeaf = true) (k : Key) (hk : n.checkHdr k = true) (r : Record)
    (hr : n.search E.under k = r) (h : Reach (treeMachine E) (treeGuard E F {}) c₀ c) (tab : FPTable)
    (htab : c.mem.table r.fpAddr = some tab) (hver : tab.version = r.version)
    (hset : Settled c.log r.addr r.fpAddr tab) :
    (∃ l, c.mem.leaf r.addr = some l ∧ l.hdr.capacity = r.capacity ∧ l.hdr.minKey ≤ k ∧
      k < l.hdr.maxKey) ∧
    (∀ b' n', IndexNode c.mem b' → c.mem.inner b' = some n' → n'.hdr.nextIsLeaf = true →
      n'.checkHdr k = true → r.Same (n'.search E.under k)) ∧
    ∀ c' tab', Reach (treeMachine E) (treeGuard E F {}) c c' → c'.mem.table r.fpAddr = some tab' →
      tab'.version = r.version → Settled c'.log r.addr r.fpAddr tab' →
      ∃ l l', c.mem.leaf r.addr = some l ∧ c'.mem.leaf r.addr = some l' ∧
        l'.hdr.minKey = l.hdr.minKey ∧ l'.hdr.maxKey = l.hdr.maxKey := by
  obtain ⟨g₀, hg₀, -⟩ := tree_at h₀
  obtain ⟨i, hi⟩ := hg₀.1.tree.indexNode hb
  obtain ⟨n₀, hn₀, hs₀⟩ := hg₀.1.tree.nodes.stored b i hi
  obtain rfl := Option.some.inj (hn.symm.trans hn₀)
  obtain ⟨g, hg, hle⟩ := hg₀.reach h
  have htree := hg.1.tree
  obtain ⟨hrec, -⟩ := ((hg₀.1.tree.snapNode hs₀).mono hle).search hbottom k hk
  rw [hr] at hrec
  obtain ⟨x, hx, hxt, hcap, hmin, -, -, -, hlt⟩ := hrec.leaf
  obtain ⟨l, tab₁, hs⟩ := htree.leaves.stored r.addr x hx
  rw [← hxt] at htab hset
  obtain rfl := Option.some.inj (htab.symm.trans hs.table)
  have hv : r.version = x.tver := hver.symm.trans hs.fps.version
  have hmax := hg.1.settled hx hs hset
  have hkmax : k < x.max := hmax ▸ hlt hv
  refine ⟨⟨l, hs.leaf, hs.cap.trans hcap, ?_, ?_⟩, ?_, ?_⟩
  · rw [hs.min, hmin]
    exact hrec.key_le
  · rw [hs.max]
    exact hkmax
  · intro b' n' hb' hn' hbot' hk'
    obtain ⟨i', hi'⟩ := htree.indexNode hb'
    obtain ⟨n₁, hn₁, hs'⟩ := htree.nodes.stored b' i' hi'
    obtain rfl := Option.some.inj (hn'.symm.trans hn₁)
    have hlev : i'.lev = 0 := by simpa [hs'.bottom] using hbot'
    have hf := (hs'.search_floor (htree.levels.sorted _) hk').1
    rw [hlev] at hf
    exact htree.floor_same hrec hx hv hkmax hf
  · intro c' tab' hreach htab' hver' hset'
    obtain ⟨g', hg', hle⟩ := hg.reach hreach
    obtain ⟨x', hx', hxt', hmin', -, hv'⟩ := hle.leaf r.addr x hx
    obtain ⟨l', tab₂, hs'⟩ := hg'.1.tree.leaves.stored r.addr x' hx'
    rw [← hxt, ← hxt'] at htab' hset'
    obtain rfl := Option.some.inj (htab'.symm.trans hs'.table)
    have hv₂ : r.version = x'.tver := hver'.symm.trans hs'.fps.version
    have hmax' := hg'.1.settled hx' hs' hset'
    obtain hlt' | ⟨-, hpmax, -⟩ := hv'
    · omega
    · exact ⟨l, l', hs.leaf, hs'.leaf, by rw [hs'.min, hs.min, hmin'],
        by rw [hs'.max, hs.max, hmax', hmax, hpmax]⟩

/-- The record of the leaf that is split off. -/
def splitRecord : Record := .make (.ofNat 17) (Env.plain.alloc 3) (Env.plain.alloc 4) 32 0

/-- A copy of the root from before client 1 overwrites the pair of the key 20 leads it to the leaf. -/
theorem records_validated_split : ∃ (c₀ c : PlainConfig) (n : InnerNode),
    AfterSplit c ∧ c₀.mem.inner c₀.mem.root = some n ∧
    n.search Env.plain.under (.ofNat 20) = splitRecord ∧
    ∃ l, c.mem.leaf splitRecord.addr = some l ∧ l.hdr.capacity = 32 ∧ l.hdr.minKey ≤ Key.ofNat 20 ∧
      Key.ofNat 20 < l.hdr.maxKey := by
  have hcopy : (runPastSplit.bind fun c => (c.mem.inner c.mem.root).map fun n =>
      n.hdr.nextIsLeaf && (n.checkHdr (.ofNat 20) &&
      decide (n.search Env.plain.under (.ofNat 20) = splitRecord))) = some true := by decide +kernel
  have htable : (runAfterSplit.bind fun c => (c.mem.table splitRecord.fpAddr).map fun t =>
      decide (t.version = splitRecord.version) && !t.lock) = some true := by decide +kernel
  obtain ⟨c₀, c, hrun₀, hrun, hc⟩ := exists_afterSplit
  rw [hrun₀, Option.bind_some] at hcopy
  rw [hrun, Option.bind_some] at htable
  obtain ⟨n, hn, hcopy⟩ := Option.map_eq_some_iff.mp hcopy
  obtain ⟨tab, htab, htable⟩ := Option.map_eq_some_iff.mp htable
  simp only [Bool.and_eq_true, decide_eq_true_eq] at hcopy htable
  obtain ⟨hbottom, hk, hr⟩ := hcopy
  exact ⟨c₀, c, n, hc, hn, hr, (records_validated _ _ 1 c₀ c (runPastSplit_reach {} hrun₀) _ .root n hn
    hbottom _ hk _ hr (runAfterSplit_reach {} hrun₀ hrun) tab htab htable.1
    (.inl (by simpa using htable.2))).1⟩

end DMTree
