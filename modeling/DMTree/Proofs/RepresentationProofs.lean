import DMTree.Proofs.ContentsProofs

/-!
# How leaves are stored

A leaf consists of three objects that are written separately: its slots, its header and its fingerprint
table. When no call is in progress they agree with each other and with the leaf to the right.
-/

namespace DMTree

open Conc Segments

variable {E : Env} {F : Flags} {M : Mode} {m : Cluster} {g g' g'' : TreeView} {a b f : Gaddr} 
  {x : LeafView}

/-! ## What can be reached -/

/-- The inner nodes that can be reached from the root. -/
inductive IndexNode (m : Cluster) : Gaddr → Prop where
  | root : IndexNode m m.root
  | child {b : Gaddr} {n : InnerNode} {r : Record} (hb : IndexNode m b) (hn : m.inner b = some n)
      (hinner : n.hdr.nextIsLeaf = false) (hr : r ∈ n.recs) : IndexNode m r.addr
  | right {b : Gaddr} {n : InnerNode} (hb : IndexNode m b) (hn : m.inner b = some n)
      (hmax : n.hdr.maxKey < KeyMax) : IndexNode m n.hdr.rightAddr

/-- The leaves that can be reached from the records of the index or along the right links from the head
leaf, with the addresses of their tables. -/
inductive LeafWithTable (E : Env) (m : Cluster) : Gaddr → Gaddr → Prop where
  | head : LeafWithTable E m (headAddr E) (headFpAddr E)
  | record {b : Gaddr} {n : InnerNode} {r : Record} (hb : IndexNode m b) (hn : m.inner b = some n)
      (hbottom : n.hdr.nextIsLeaf = true) (hr : r ∈ n.recs) : LeafWithTable E m r.addr r.fpAddr
  | right {a f : Gaddr} {l : Leaf} (ha : LeafWithTable E m a f) (hl : m.leaf a = some l)
      (hright : l.hdr.rightAddr ≠ .Null) : LeafWithTable E m l.hdr.rightAddr l.hdr.rightFpAddr

theorem TreeInv.indexNode (h : TreeInv E M m g) (hb : IndexNode m b) : ∃ i, g.inner b = some i := by
  induction hb with
  | root => exact ⟨_, h.root.inner⟩
  | @child b n r _ hn hinner hr ih =>
    obtain ⟨i, hi⟩ := ih
    obtain ⟨n', hn', hs⟩ := h.nodes.stored b i hi
    obtain rfl := Option.some.inj (hn.symm.trans hn')
    obtain ⟨ℓ, hℓ⟩ := (h.snapNode hs).child hinner r hr
    exact ⟨_, hℓ⟩
  | @right b n _ hn hmax ih =>
    obtain ⟨i, hi⟩ := ih
    obtain ⟨n', hn', hs⟩ := h.nodes.stored b i hi
    obtain rfl := Option.some.inj (hn.symm.trans hn')
    exact ⟨_, hs.right hmax⟩

/-- The head leaf has its table. -/
def HeadTable (E : Env) (g : TreeView) : Prop :=
  ∃ x, g.leaf (headAddr E) = some x ∧ x.tab = headFpAddr E

theorem HeadTable.mono (h : HeadTable E g) (hle : g.Le g') : HeadTable E g' := by
  obtain ⟨x, hx, htab⟩ := h
  obtain ⟨x', hx', htab', -⟩ := hle.leaf _ x hx
  exact ⟨x', hx', htab'.trans htab⟩

theorem TreeInv.leafWithTable (h : TreeInv E M m g) (hhead : HeadTable E g)
    (ha : LeafWithTable E m a f) : ∃ x, g.leaf a = some x ∧ x.tab = f := by
  induction ha with
  | head => exact hhead
  | @record b n r hb hn hbottom hr =>
    obtain ⟨i, hi⟩ := h.indexNode hb
    obtain ⟨n', hn', hs⟩ := h.nodes.stored b i hi
    obtain rfl := Option.some.inj (hn.symm.trans hn')
    have hlev : i.lev = 0 := by simpa [hs.bottom] using hbottom
    rw [hs.recs, hlev] at hr
    obtain ⟨l₁, l₂, hl⟩ := List.append_of_mem (mem_slice.mp hr).1
    have hseg := h.levels.seg 0
    rw [hl] at hseg
    obtain ⟨-, x, hx, htab, -⟩ := hseg.item.2
    exact ⟨x, hx, htab⟩
  | @right a f l _ hl hright ih =>
    obtain ⟨x, hx, -⟩ := ih
    obtain ⟨l', t, hs⟩ := h.leaves.stored a x hx
    obtain rfl := Option.some.inj (hl.symm.trans hs.leaf)
    have hlink := hs.right
    cases hr : x.right with
    | none =>
      rw [hr] at hlink
      exact absurd hlink.1 hright
    | some b =>
      rw [hr] at hlink
      obtain ⟨rfl, y, hy, htab, -⟩ := hlink
      exact ⟨y, hy, htab.symm⟩

/-! ## Runs -/

theorem TreeView.Le.trans (h : g.Le g') (h' : g'.Le g'') : g.Le g'' where
  leaf := by
    intro a x hx
    obtain ⟨x', hx', htab, hmin, hcap, hv⟩ := h.leaf a x hx
    obtain ⟨x'', hx'', htab', hmin', hcap', hv'⟩ := h'.leaf a x' hx'
    refine ⟨x'', hx'', htab'.trans htab, hmin'.trans hmin, hcap'.trans hcap, ?_⟩
    rcases hv with hv | ⟨hv, hp, hc⟩ <;> rcases hv' with hv' | ⟨hv', hp', hc'⟩
    · exact Or.inl (by omega)
    · exact Or.inl (by omega)
    · exact Or.inl (by omega)
    · exact Or.inr ⟨by omega, hp'.trans hp, fun hs => hc (hc' hs)⟩
  indexed := fun a ha => h'.indexed a (h.indexed a ha)
  inner := fun a i hi => h'.inner a i (h.inner a i hi)

/-- What is known in a configuration, with the abstract tree. -/
abbrev TreeAt (M : Mode) (c : TreeConfig E F) (g : TreeGhost) : Prop :=
  ConfigAt (treeDisc E F M) TreeIdle (TreePost M) c g

/-- Knowledge about the tree survives every run. -/
theorem TreeAt.reach {c c' : TreeConfig E F} {g : TreeGhost} (hc : TreeAt M c g)
    (h : Reach (treeMachine E) (treeGuard E F M) c c') : ∃ g', TreeAt M c' g' ∧ g.view.Le g'.view :=
  ConfigAt.reach tree_keeps (P := fun g g' => g.view.Le g'.view) (fun g => .refl g.view)
    (fun _ _ _ => .trans) (fun _ _ _ hr => hr.tree.le) hc h

/-- In every configuration of every run the head leaf has its table. -/
theorem tree_at {me : Nat} {c : TreeConfig E F}
    (h : Reach (treeMachine E) (treeGuard E F M) (treeInit E F me) c) :
    ∃ g, TreeAt M c g ∧ HeadTable E g.view := by
  have hinit : TreeAt M (treeInit E F me) ⟨initView E, fun _ => initView E⟩ :=
    ⟨init_worldInv me, fun t => ⟨⟨Or.inl rfl, init_owned t⟩, fun _ k v h => by cases h⟩⟩
  obtain ⟨g, hg, hle⟩ := hinit.reach h
  exact ⟨g, hg, HeadTable.mono ⟨initLeafView E, if_pos rfl, rfl⟩ hle⟩

/-- No client is in a call. -/
def Quiescent (c : TreeConfig E F) : Prop := ∀ t, ∃ it, c.thr t = .idle it

/-- When no client is in a call, no leaf is locked. -/
theorem TreeAt.unlocked {c : TreeConfig E F} {g : TreeGhost} (hc : TreeAt M c g) (hq : Quiescent c)
    (hx : g.view.leaf a = some x) : x.own = none := by
  cases hown : x.own with
  | none => rfl
  | some t =>
    obtain ⟨it, ht⟩ := hq t
    have hidle := hc.2 t
    rw [ht] at hidle
    have hlown : g.view.lown a = some t := by
      unfold TreeView.lown
      rw [hx]
      exact hown
    exact absurd ((hidle.1.2.leaf a).mp hlown) (by simp)

/-! ## A run that comes to rest -/

/-- The head leaf is split, and then client 1 overwrites a pair of the new leaf. -/
def runAfterSplit : Option PlainConfig :=
  runPastSplit.bind (Config.finish (treeMachine Env.plain) plainCheck 1 50)

/-- No client is in a call, the leaf has been split and the pair has been overwritten. -/
structure AfterSplit (c : PlainConfig) : Prop where
  quiescent : Quiescent c
  pairs : (contents Env.plain c.mem).length = 33
  overwritten : ⟨.ofNat 20, 77⟩ ∈ contents Env.plain c.mem
  head : (c.mem.leaf (headAddr Env.plain)).map (fun l => decide (l.hdr.rightAddr = .Null)) = some false

theorem runAfterSplit_reach (M : Mode) {c₀ c : PlainConfig} (h₀ : runPastSplit = some c₀)
    (h : runAfterSplit = some c) :
    Reach (treeMachine Env.plain) (treeGuard Env.plain cacheOnly M) c₀ c := by
  rw [runAfterSplit, h₀, Option.bind_some] at h
  exact finish_reach (fun _ _ _ _ => guard_of_stepCheck) 1 50 h

theorem exists_afterSplit : ∃ c₀ c, runPastSplit = some c₀ ∧ runAfterSplit = some c ∧ AfterSplit c := by
  have hrun : (runAfterSplit.map fun c =>
      c.log.all (fun e => decide (e.tid < 3)) && ((List.range 3).all (isIdle c) &&
      (decide ((contents Env.plain c.mem).length = 33) &&
      (decide (⟨.ofNat 20, 77⟩ ∈ contents Env.plain c.mem) &&
      decide ((c.mem.leaf (headAddr Env.plain)).map (fun l => decide (l.hdr.rightAddr = .Null)) =
        some false))))) = some true := by decide +kernel
  obtain ⟨c, hrun, hc⟩ := Option.map_eq_some_iff.mp hrun
  simp only [Bool.and_eq_true, decide_eq_true_eq] at hc
  obtain ⟨hlog, hidle, h1, h2, h3⟩ := hc
  obtain ⟨c₀, hrun₀, -⟩ := Option.bind_eq_some_iff.mp hrun
  have hreach := (runPastSplit_reach {} hrun₀).trans (runAfterSplit_reach {} hrun₀ hrun)
  refine ⟨c₀, c, hrun₀, hrun, fun t => ?_, h1, h2, h3⟩
  by_cases ht : t < 3
  · exact exists_of_isIdle (List.all_eq_true.mp hidle t (List.mem_range.mpr ht))
  · refine idle_of_no_event hreach ⟨_, rfl⟩ fun e he htid => ht ?_
    rw [← htid]
    exact of_decide_eq_true (List.all_eq_true.mp hlog e he)

/-! ## Leaves at rest -/

/-- A leaf with `n` pairs, and its table. -/
structure LeafRep (H : Hashes) (l : Leaf) (t : FPTable) (n : Nat) : Prop where
  slots : l.entries.length = l.hdr.capacity
  fps : t.fp.length = l.hdr.capacity
  /-- The fingerprints are in front. -/
  front : ∀ i f, t.fp[i]? = some f → (f ≠ 0 ↔ i < n)
  valid : ∀ (i : Nat) e, l.entries[i]? = some e → (e.valid = true ↔ i < n)
  fp : ∀ (i : Nat) e, l.entries[i]? = some e → i < n → t.fp[i]? = some (calKeyFp H e.key)
  distinct : (l.pairs.map EntryPos.key).Nodup
  range : ∀ p ∈ l.pairs, l.hdr.minKey ≤ p.key ∧ p.key < l.hdr.maxKey
  slotVersion : ∀ e ∈ l.entries, e.version = l.hdr.version
  tableVersion : t.version = l.hdr.version
  consistent : t.checkConsistent H = true
  lock : t.lock = false

/-- The header of a leaf agrees with the leaf to the right, if there is one. -/
structure RightRep (E : Env) (m : Cluster) (hdr : LeafHeader) : Prop where
  last : hdr.rightAddr = .Null → hdr.maxKey = KeyMax
  leaf : hdr.rightAddr ≠ .Null → ∃ l, m.leaf hdr.rightAddr = some l ∧
    l.hdr.capacity = hdr.rightCapacity ∧ l.hdr.minKey = hdr.maxKey
  table : ∀ f, LeafWithTable E m hdr.rightAddr f → f = hdr.rightFpAddr

theorem LeafView.Ok.rep {H : Hashes} {s : Status} {l : Leaf} {t : FPTable} (h : x.Ok H s)
    (hs : LeafStored H m g a x l t) (hown : x.own = none) : LeafRep H l t x.kv.length := by
  have hmoving : ∀ b, s ≠ .moving b := fun b hb => by simpa [hown] using (h.moving b hb).2.2
  obtain ⟨hver, -, hfps⟩ := h.rest hmoving
  have hfps : x.fps = x.kv.map fun p => calKeyFp H p.key := by
    rcases hfps with hfps | ⟨hsome, -⟩
    · exact hfps
    · simp [hown] at hsome
  obtain ⟨free, hes, hfree, hcap⟩ := hs.entries
  have hlive : ∀ (i : Nat) e, l.entries[i]? = some e →
      (∃ p, x.kv[i]? = some p ∧ e = liveEntry x.ver p) ∨
        (x.kv.length ≤ i ∧ e.valid = false ∧ e.version = x.ver) := by
    intro i e he
    rw [hes] at he
    by_cases hi : i < x.kv.length
    · rw [List.getElem?_append_left (by simpa using hi), List.getElem?_map] at he
      obtain ⟨p, hp, rfl⟩ := Option.map_eq_some_iff.mp he
      exact Or.inl ⟨p, hp, rfl⟩
    · rw [List.getElem?_append_right (by simpa using hi)] at he
      exact Or.inr ⟨by omega, hfree e (List.mem_of_getElem? he)⟩
  have hlt : ∀ {i : Nat} {p : EntryPos}, x.kv[i]? = some p → i < x.kv.length :=
    fun hp => (List.getElem?_eq_some_iff.mp hp).1
  have hpairs := hs.entries.pairs
  exact {
    slots := by rw [hs.entries.length, hs.cap]
    fps := by
      rw [hs.fps.fp_length, hs.cap]
    front := by
      intro i f hf
      rw [hs.fps.fp, hfps] at hf
      by_cases hi : i < x.kv.length
      · rw [List.getElem?_append_left (by simpa using hi), List.getElem?_map] at hf
        obtain ⟨p, -, rfl⟩ := Option.map_eq_some_iff.mp hf
        exact iff_of_true (calKeyFp_ne_zero p.key) hi
      · rw [List.getElem?_append_right (by simpa using hi)] at hf
        have hzero := List.eq_of_mem_replicate (List.mem_of_getElem? hf)
        exact iff_of_false (fun hne => hne hzero) hi
    valid := by
      intro i e he
      rcases hlive i e he with ⟨p, hp, rfl⟩ | ⟨hi, hinv, -⟩
      · exact iff_of_true rfl (hlt hp)
      · exact iff_of_false (by simp [hinv]) (by omega)
    fp := by
      intro i e he hi
      rcases hlive i e he with ⟨p, hp, rfl⟩ | ⟨hle, -⟩
      · rw [hs.fps.fp, hfps, List.getElem?_append_left (by simpa using hi), List.getElem?_map, hp]
        rfl
      · omega
    distinct := by
      rw [hpairs]
      exact h.keys
    range := by
      rw [hpairs, hs.min, hs.max]
      exact h.range
    slotVersion := by
      intro e he
      obtain ⟨i, hi⟩ := List.mem_iff_getElem?.mp he
      rw [hs.ver]
      rcases hlive i e hi with ⟨p, -, rfl⟩ | ⟨-, -, hv⟩
      · rfl
      · exact hv
    tableVersion := by rw [hs.fps.version, hs.ver, hver]
    consistent := hs.fps.crc
    lock := by rw [hs.lock, hown]; rfl }

theorem TreeInv.rightRep {l : Leaf} {t : FPTable} (h : TreeInv E M m g) (hhead : HeadTable E g)
    (hs : LeafStored E.hash m g a x l t) : RightRep E m l.hdr := by
  have hlink := hs.right
  cases hr : x.right with
  | none =>
    rw [hr] at hlink
    refine ⟨fun _ => hs.max.trans hlink.2, fun hne => absurd hlink.1 hne, fun f hf => ?_⟩
    obtain ⟨y, hy, -⟩ := h.leafWithTable hhead hf
    exact absurd hlink.1 (h.alloc.leaf_ne_null hy)
  | some b =>
    rw [hr] at hlink
    obtain ⟨hb, y, hy, htab, hcap, hmin⟩ := hlink
    obtain ⟨l', t', hs'⟩ := h.leaves.stored b y hy
    rw [← hb] at hy
    refine ⟨fun hnull => absurd hnull (h.alloc.leaf_ne_null hy),
      fun _ => ⟨l', by rw [hb]; exact hs'.leaf, ?_, ?_⟩, fun f hf => ?_⟩
    · rw [hs'.cap, hcap]
    · rw [hs'.min, hmin, hs.max]
    · obtain ⟨y', hy', rfl⟩ := h.leafWithTable hhead hf
      obtain rfl := Option.some.inj (hy.symm.trans hy')
      exact htab.symm

/-- In every state of every run in which no client is in a call, the leaves that can be reached are in
order, and agree with the leaves to the right. -/
theorem leaves_represented (E : Env) (F : Flags) (me : Nat) (c : TreeConfig E F)
    (h : Reach (treeMachine E) (treeGuard E F {}) (treeInit E F me) c) (hq : Quiescent c) (a f : Gaddr)
    (ha : LeafWithTable E c.mem a f) :
    ∃ l t n, c.mem.leaf a = some l ∧ c.mem.table f = some t ∧ LeafRep E.hash l t n ∧
      RightRep E c.mem l.hdr := by
  obtain ⟨g, hg, hhead⟩ := tree_at h
  have htree := hg.1.tree
  obtain ⟨x, hx, rfl⟩ := htree.leafWithTable hhead ha
  obtain ⟨l, t, hs⟩ := htree.leaves.stored a x hx
  exact ⟨l, t, x.kv.length, hs.leaf, hs.table, (htree.leaves.ok a x hx).rep hs (hg.unlocked hq hx),
    htree.rightRep hhead hs⟩

/-- The head leaf after its split, and the new leaf to the right. -/
theorem leaves_represented_split : ∃ c : PlainConfig, AfterSplit c ∧
    ∃ l t n, c.mem.leaf (headAddr Env.plain) = some l ∧ c.mem.table (headFpAddr Env.plain) = some t ∧
      LeafRep Env.plain.hash l t n ∧ RightRep Env.plain c.mem l.hdr := by
  obtain ⟨c₀, c, hrun₀, hrun, hc⟩ := exists_afterSplit
  have hreach := (runPastSplit_reach {} hrun₀).trans (runAfterSplit_reach {} hrun₀ hrun)
  exact ⟨c, hc, leaves_represented _ _ 1 c hreach hc.quiescent _ _ .head⟩

end DMTree
