import DMTree.Proofs.RemoteAllocProofs
import DMTree.Conc.Proofs.SoloProofs

/-!
# Local copies of fingerprint tables

`leaf_search` keeps a copy of a remote fingerprint table in the memory of its own node, at the offset
the table has on its primary. All tables of compute nodes are cut from one region, so their offsets
differ, whatever node they are renamed to. That ends when `compute_alloc` falls back to memory nodes:
the offset of a table is then an offset of a memory node, which may be larger than the own node. What
different calls return stays apart on every node, with and without falling back.
-/

namespace DMTree.RemoteAlloc

open Conc

variable {S : Setup}

/-! ## Without falling back -/

/-- If no call has fallen back, or the only memory node is smaller than the own node, `leaf_search`
copies from the memory of its node, and what it overwrites belongs to no other table. -/
theorem localCopies_apart (hM : 0 < S.memoryNumber) {nodes : Nat → Nat} {c : AllocConfig S}
    (h : Reach (allocMachine S) (sizesFit S) (allocInit S nodes) c) (me : Nat)
    (hcompute : S.memoryNumber ≤ me) (hme : (kLeafCacheSize - 1) * MB + 64 ≤ S.dsmSize me)
    (hback : FallenBack c.log → S.memoryNumber = 1 ∧ S.dsmSize 0 + 64 ≤ S.dsmSize me) :
    ∀ (i : Nat) t size a, c.log[i]? = some (.ret t (.alloc .compute size) (some a)) →
      localRead a ⊆ Set.Iio (S.dsmSize me) ∧
      ∀ (j : Nat) u size' b, c.log[j]? = some (.ret u (.alloc .compute size') (some b)) → i ≠ j →
        (b.nodeID = me → Disjoint (localWrite me a size) (Set.Ico b.offset (b.offset + size'))) ∧
        Disjoint (localWrite me a size) (localWrite me b size') := by
  obtain ⟨g, hinv⟩ := reach_allocInv hM h
  intro i t size a hi
  obtain ⟨k, a', hp, hn⟩ := hinv.returned i t .compute size a hi
  refine ⟨?_, fun j u size' b hj hij => ?_⟩
  · rintro o ⟨-, ho⟩
    rw [Set.mem_Iio]
    cases k with
    | memory =>
      obtain ⟨hoff, -, hf⟩ := hn
      obtain ⟨hone, hsize⟩ := hback (hf rfl)
      have hnode : a'.nodeID = 0 := by
        have hhome : a'.nodeID < S.memoryNumber := hp.home
        omega
      have hhigh := hp.high
      rw [hnode] at hhigh
      omega
    | compute =>
      have hlt := hn.2.2.2.1
      omega
  · obtain ⟨k', b', hp', hn'⟩ := hinv.returned j u .compute size' b hj
    -- a table of a memory node has node 0 and no local copy
    have hzero : ∀ {a a' : Gaddr} {size : Nat} {o : Owner},
        Piece S c.log g.own .memory a' size o → Named S c.log .compute .memory a' a → a.nodeID = 0 := by
      intro a a' size o hp hn
      have hhome : a'.nodeID < S.memoryNumber := hp.home
      have hone := (hback (hn.2.2 rfl)).1
      rw [hn.2.1]
      omega
    have hapart : k = .compute → k' = .compute →
        Disjoint (Set.Ico a.offset (a.offset + size)) (Set.Ico b.offset (b.offset + size')) := by
      rintro rfl rfl
      rw [Set.disjoint_left]
      intro o ho ho'
      have hsame : a'.nodeID = b'.nodeID := hp.home.trans hp'.home.symm
      refine absurd ((hp.owns (a'.nodeID, o) ?_).symm.trans (hp'.owns (a'.nodeID, o) ?_)) ?_
      · exact ⟨rfl, hn.1 ▸ ho⟩
      · exact ⟨hsame, hn'.1 ▸ ho'⟩
      · exact fun heq => hij (by cases heq; rfl)
    cases k with
    | memory => simp [localWrite, hzero hp hn]
    | compute =>
      cases k' with
      | memory =>
        have hb := hzero hp' hn'
        refine ⟨fun hb' => ?_, by simp [localWrite, hb]⟩
        omega
      | compute =>
        unfold localWrite
        split <;> [skip; simp]
        refine ⟨fun _ => hapart rfl rfl, ?_⟩
        split <;> [exact hapart rfl rfl; simp]

/-- The sizes of `test/server.cc` and `test/ycsbc.cc`: one memory node of 80 GB and six compute nodes of
16 GB. -/
def shipped : Setup := ⟨1, 6, fun n => if n = 0 then 80 * GB else 16 * GB, fun _ => 1⟩

/-- Two threads of node 1 allocate tables for 32 and 64 entries; thread 9 serves. -/
def twoTables : List (Move (allocClient shipped)) :=
  [.call 0 (AllocOp.alloc .compute 56)] ++ Move.steps 0 4 ++ [.call 9 (AllocOp.serve 1 0 0)] ++
    Move.steps 9 2 ++ Move.steps 0 8 ++ [.call 2 (AllocOp.alloc .compute 88)] ++ Move.steps 2 6

/-- Whether an event is that `compute_alloc` falls back. -/
def isFallBack : Event AllocSig AllocOp (Option Gaddr) → Bool
  | .act _ .setUseMemoryFp _ => true
  | _ => false

theorem not_fallenBack {l : AllocLog S} (h : l.all (fun ev => !isFallBack ev) = true) :
    ¬ FallenBack l := by
  rintro ⟨i, t, hi⟩
  have hev := List.all_eq_true.mp h _ (List.mem_of_getElem? hi)
  simp [isFallBack] at hev

/-- The theorem at this run, for the local copies on node 4. -/
theorem localCopies_apart_two : ∃ c : AllocConfig shipped,
    (Reach (allocMachine shipped) (sizesFit shipped) (allocInit shipped fun _ => 0) c ∧
      c.log[15]? = some (.ret 0 (.alloc .compute 56) (some ⟨3, kChunkSize⟩)) ∧
      c.log[22]? = some (.ret 2 (.alloc .compute 88) (some ⟨3, kChunkSize + 56⟩))) ∧
    localRead ⟨3, kChunkSize⟩ ⊆ Set.Iio (shipped.dsmSize 4) ∧
    Disjoint (localWrite 4 ⟨3, kChunkSize⟩ 56) (localWrite 4 ⟨3, kChunkSize + 56⟩ 88) := by
  have hev : ((allocInit shipped fun _ => 0).runIf (allocMachine shipped)
      (fun _ _ _ _ => true) twoTables).map
      (fun c => (c.log.all (fun ev => !isFallBack ev),
        [c.log[15]?.bind returnOf, c.log[22]?.bind returnOf])) =
      some (true, [some ⟨0, .compute, 56, ⟨3, kChunkSize⟩⟩,
        some ⟨2, .compute, 88, ⟨3, kChunkSize + 56⟩⟩]) := by
    decide +kernel
  obtain ⟨c, hrun, hcheck⟩ := Option.map_eq_some_iff.mp hev
  obtain ⟨hback, h1, h2, -⟩ : _ ∧ _ ∧ _ ∧ _ := by
    simpa only [Prod.mk.injEq, List.cons.injEq] using hcheck
  obtain ⟨ev1, hev1, h1⟩ := Option.bind_eq_some_iff.mp h1
  obtain ⟨ev2, hev2, h2⟩ := Option.bind_eq_some_iff.mp h2
  obtain rfl := eq_of_returnOf h1
  obtain rfl := eq_of_returnOf h2
  have hreach : Reach (allocMachine shipped) (sizesFit shipped) (allocInit shipped fun _ => 0) c := by
    refine runIf_reach (fun _ _ _ _ _ => trivial) twoTables ?_ hrun
    delta twoTables
    simp [sizesFit, kChunkSize, MB]
  obtain ⟨hread, hwrite⟩ := localCopies_apart (by decide) hreach 4 (by decide) (by decide)
    (fun h => absurd h (not_fallenBack hback)) 15 0 56 _ hev1
  exact ⟨c, ⟨hreach, hev1, hev2⟩, hread, (hwrite 22 2 88 _ hev2 (by decide)).2⟩

/-! ## The memory node is larger -/

/-- The node whose directory is asked for chunks. -/
def Kind.site : Kind → Nat
  | .memory => 0
  | .compute => 1

/-- Node 1 is in state `s`, and the directories have handed out the chunks before `tail`. -/
structure Stock (m : State) (s : NodeState) (tail : Kind → Nat) : Prop where
  node : m.node 1 = s
  start : ∀ k : Kind, (m.directory k.site 0).start = ⟨k.site, 0⟩
  len : ∀ k : Kind, (m.directory k.site 0).bitmapLen = shipped.dsmSize k.site / kChunkSize
  next : ∀ k : Kind, (m.directory k.site 0).bitmapTail = tail k
  free : ∀ (k : Kind) (n : Nat), tail k ≤ n → (m.directory k.site 0).bitmap n = false
  requests : ∀ k : Kind, m.requests k.site 0 = []

variable {c : AllocConfig shipped} {op : AllocOp} {m m' : State} {s : NodeState} {tail : Kind → Nat}
  {size : Nat} {k : Kind}

theorem Stock.setNode (h : Stock m s tail) (s' : NodeState) : Stock (m.setNode 1 s') s' tail :=
  ⟨by simp [setNode_node], h.start, h.len, h.next, h.free, h.requests⟩

/-- Thread 0 runs `p`, and thread 9 is free to serve a request. -/
structure Doing (c : AllocConfig shipped) (op : AllocOp)
    (p : Prog AllocSig (Option Gaddr × AllocLoc)) (m : State) : Prop where
  busy : c.thr 0 = .busy op p
  server : c.thr 9 = .idle {}
  mem : c.mem = m

/-- The runs of `shipped`. -/
abbrev Runs₀ (c c' : AllocConfig shipped) : Prop := Reach (allocMachine shipped) (sizesFit shipped) c c'

theorem Doing.moves {p p' : Prog AllocSig (Option Gaddr × AllocLoc)} {tr : Trace AllocSig}
    (h : Doing c op p m) (hm : Moves (allocMachine shipped) 0 p m tr p' m') :
    ∃ c', Runs₀ c c' ∧ Doing c' op p' m' :=
  ⟨_, hm.reach (fun _ _ _ => trivial) h.mem h.busy, by simp, by simp [h.server], rfl⟩

/-- Thread 0 executes a command. -/
theorem Doing.act (cmd : AllocCmd) {f : cmd.Resp → Prog AllocSig (Option Gaddr × AllocLoc)}
    {r : cmd.Resp} (h : Doing c op (issue cmd >>= f) m)
    (he : (allocMachine shipped).exec 0 cmd m = some (r, m')) :
    ∃ c', Runs₀ c c' ∧ Doing c' op (f r) m' :=
  h.moves (.act he (.refl _ _))

/-- Thread 9 serves a request. -/
theorem Doing.serve {p : Prog AllocSig (Option Gaddr × AllocLoc)} (h : Doing c op p m) {n : Nat}
    (he : (allocMachine shipped).exec 9 (.serve n 0 0) m = some ((), m')) :
    ∃ c', Runs₀ c c' ∧ Doing c' op p m' := by
  obtain ⟨tr, hreach⟩ := Runs.reach (M := allocMachine shipped) (G := sizesFit shipped) (t := 9)
    (fun _ _ _ => trivial) (AllocOp.serve n 0 0) trivial h.server
    ⟨_, .act (h.mem ▸ he) (.refl _ _)⟩
  exact ⟨_, hreach, by simp [h.busy], by simp, rfl⟩

theorem exec_rpcWait {t : Tid} {a : Gaddr} (h : m.reply t = some a) :
    (allocMachine S).exec t .rpcWait m =
      some (a, { m with reply := Function.update m.reply t none }) := by
  simp [allocMachine, h]

/-- The directory that is asked for a chunk, after it has handed it out. -/
def Stock.served (m : State) (k : Kind) : GlobalAllocator :=
  let d := m.directory k.site 0
  { d with bitmap := Function.update d.bitmap d.bitmapTail true, bitmapTail := d.bitmapTail + 1 }

theorem Stock.exec_serve (h : Stock m s tail) (hlt : tail k < shipped.dsmSize k.site / kChunkSize) :
    (allocMachine shipped).exec 9 (.serve k.site 0 0)
      (m.setRequests k.site 0 (m.requests k.site 0 ++ [0])) =
    some ((), ((m.setRequests k.site 0 (m.requests k.site 0 ++ [0])).setRequests k.site 0 []).grant
      k.site 0 (Stock.served m k) 0 ⟨k.site, tail k * kChunkSize⟩) := by
  have hc : (m.directory k.site 0).allocChunck =
      some (⟨k.site, tail k * kChunkSize⟩, Stock.served m k) := by
    unfold GlobalAllocator.allocChunck
    rw [if_neg (by rw [h.len, h.next]; omega), if_pos (h.free k _ (h.next k).ge)]
    simp [Stock.served, h.next, h.start]
  have hr : (m.setRequests k.site 0 (m.requests k.site 0 ++ [0])).requests k.site 0 = [0] := by
    simp [State.setRequests, h.requests]
  have hd : (m.setRequests k.site 0 (m.requests k.site 0 ++ [0])).directory k.site 0 =
      m.directory k.site 0 := rfl
  simp [allocMachine, hr, hd, hc]

theorem site_ne {k k' : Kind} (h : k' ≠ k) : k'.site ≠ k.site := by
  cases k <;> cases k' <;> first | exact absurd rfl h | decide

/-- A directory has handed out a chunk, and no request is left. -/
theorem Stock.granted (h : Stock m s tail) (k : Kind) (addr : Gaddr) (reply : Option Gaddr) :
    Stock
      { m with
        directory := Function.update m.directory k.site
          (Function.update (m.directory k.site) 0 (Stock.served m k))
        requests := Function.update m.requests k.site (Function.update (m.requests k.site) 0 [])
        reply := Function.update (Function.update m.reply 0 (some addr)) 0 reply }
      s (Function.update tail k (tail k + 1)) := by
  have hself : Function.update m.directory k.site
      (Function.update (m.directory k.site) 0 (Stock.served m k)) k.site 0 = Stock.served m k := by
    simp
  have hdir : ∀ k', k' ≠ k → Function.update m.directory k.site
      (Function.update (m.directory k.site) 0 (Stock.served m k)) k'.site 0 =
        m.directory k'.site 0 := fun k' hk' => by rw [Function.update_of_ne (site_ne hk')]
  refine ⟨h.node, fun k' => ?_, fun k' => ?_, fun k' => ?_, fun k' n hn => ?_, fun k' => ?_⟩
  all_goals rcases eq_or_ne k' k with rfl | hk'
  · exact (congrArg _ hself).trans (h.start k')
  · exact (congrArg _ (hdir k' hk')).trans (h.start k')
  · exact (congrArg _ hself).trans (h.len k')
  · exact (congrArg _ (hdir k' hk')).trans (h.len k')
  · refine (congrArg _ hself).trans ?_
    simp [Stock.served, h.next]
  · rw [Function.update_of_ne hk']
    exact (congrArg _ (hdir k' hk')).trans (h.next k')
  · rw [Function.update_self] at hn
    refine (congrArg (fun d => d.bitmap n) hself).trans ?_
    rw [Stock.served, h.next]
    exact (Function.update_of_ne (by omega) ..).trans (h.free k' n (by omega))
  · rw [Function.update_of_ne hk'] at hn
    exact (congrArg (fun d => d.bitmap n) (hdir k' hk')).trans (h.free k' n hn)
  · simp
  · simpa [site_ne hk'] using h.requests k'

/-- The allocator of node 1 has a new chunk. -/
def NodeState.stocked (s : NodeState) (k : Kind) (addr : Gaddr) : NodeState :=
  let a := (s.allocator k).setChunck addr
  { s with allocator := Function.update s.allocator k a }

/-- Taking a chunk. -/
theorem Doing.takeChunck {f : Unit → Prog AllocSig (Option Gaddr × AllocLoc)}
    (h : Doing c op (takeChunck k k.site 0 >>= f) m) (hs : Stock m s tail)
    (hlt : tail k < shipped.dsmSize k.site / kChunkSize) :
    ∃ c' m', Runs₀ c c' ∧ Doing c' op (f ()) m' ∧
      Stock m' (s.stocked k ⟨k.site, tail k * kChunkSize⟩) (Function.update tail k (tail k + 1)) := by
  obtain ⟨c1, hr1, h1⟩ := h.act (.rpcCallDir k.site 0) rfl
  obtain ⟨c2, hr2, h2⟩ := h1.serve (n := k.site) (hs.exec_serve hlt)
  obtain ⟨c3, hr3, h3⟩ := h2.act .rpcWait
    (exec_rpcWait (a := ⟨k.site, tail k * kChunkSize⟩) (by simp [State.grant]))
  obtain ⟨c4, hr4, h4⟩ := h3.act (.setChunck k ⟨k.site, tail k * kChunkSize⟩) (f := f) rfl
  refine ⟨c4, _, hr1.trans (hr2.trans (hr3.trans hr4)), h4, ?_⟩
  have hst := (hs.granted k ⟨k.site, tail k * kChunkSize⟩ none).setNode
    (s.stocked k ⟨k.site, tail k * kChunkSize⟩)
  have hone : shipped.nodeOf 0 = 1 := rfl
  simpa [State.grant, State.setRequests, NodeState.stocked, State.setNode, hone, hs.node] using hst

/-- What a command of thread 0 does to the state of its node. -/
def NodeState.step (s : NodeState) : (cmd : AllocCmd) → Option (cmd.Resp × NodeState)
  | .lock => if s.allocLock = none then some ((), { s with allocLock := some 0 }) else none
  | .unlock => some ((), { s with allocLock := none })
  | .loadUseMemoryFp => some (s.useMemoryFp, s)
  | .setUseMemoryFp => some ((), { s with useMemoryFp := true })
  | .loadNodes k => some (s.allocNodes k, s)
  | .storeNodes k v => some ((), { s with allocNodes := Function.update s.allocNodes k v })
  | .malloc k size => some (((s.allocator k).malloc size).1,
      { s with allocator := Function.update s.allocator k ((s.allocator k).malloc size).2 })
  | _ => none

theorem Stock.exec {cmd : AllocCmd} {r : cmd.Resp} {s' : NodeState} (hs : Stock m s tail)
    (h : s.step cmd = some (r, s')) :
    ∃ m', (allocMachine shipped).exec 0 cmd m = some (r, m') ∧ Stock m' s' tail := by
  have hone : shipped.nodeOf 0 = 1 := rfl
  obtain rfl := hs.node
  cases cmd with
  | lock =>
    simp only [NodeState.step] at h
    split at h
    · next hfree =>
      cases h
      exact ⟨_, by simp [allocMachine, hone, hfree], hs.setNode _⟩
    · cases h
  | unlock => cases h; exact ⟨_, rfl, hs.setNode _⟩
  | loadUseMemoryFp => cases h; exact ⟨_, rfl, hs⟩
  | setUseMemoryFp => cases h; exact ⟨_, rfl, hs.setNode _⟩
  | loadNodes k => cases h; exact ⟨_, rfl, hs⟩
  | storeNodes k v => cases h; exact ⟨_, rfl, hs.setNode _⟩
  | malloc k size => cases h; exact ⟨_, rfl, hs.setNode _⟩
  | setChunck k addr => cases h
  | rpcCallDir node dir => cases h
  | rpcWait => cases h
  | serve node dir i => cases h

/-- Thread 0 executes a command on the state of its node. -/
theorem Doing.step (cmd : AllocCmd) {f : cmd.Resp → Prog AllocSig (Option Gaddr × AllocLoc)}
    {r : cmd.Resp} {s' : NodeState} (h : Doing c op (issue cmd >>= f) m) (hs : Stock m s tail)
    (he : s.step cmd = some (r, s')) :
    ∃ c' m', Runs₀ c c' ∧ Doing c' op (f r) m' ∧ Stock m' s' tail := by
  obtain ⟨m', he, hs'⟩ := hs.exec he
  obtain ⟨c', hr, h'⟩ := h.act _ he
  exact ⟨c', m', hr, h', hs'⟩

/-- The chunk of an allocator is used up. -/
def LocalAllocator.Full (a : LocalAllocator) : Prop :=
  a.logHeads = [] ∨ a.head.offset + kChunkSize ≤ a.cur.offset

theorem malloc_full {a : LocalAllocator} (h : a.Full) (hpos : 0 < size) :
    a.malloc size = ((a.cur, true), a) := by
  refine if_pos (h.imp_right fun h => ?_)
  omega

/-- The allocator after a range has been cut off a new chunk. -/
def LocalAllocator.cut (a : LocalAllocator) (addr : Gaddr) (size : Nat) : LocalAllocator :=
  ((a.setChunck addr).malloc size).2

theorem malloc_setChunck (a : LocalAllocator) (addr : Gaddr) (hsize : size ≤ kChunkSize) :
    (a.setChunck addr).malloc size = ((addr, false), a.cut addr size) := by
  have hneg : ¬ ((a.setChunck addr).logHeads = [] ∨ (a.setChunck addr).cur.offset + size >
      (a.setChunck addr).head.offset + kChunkSize) := by
    simpa [LocalAllocator.setChunck] using hsize
  rw [LocalAllocator.cut, LocalAllocator.malloc, if_neg hneg]
  rfl

theorem cut_full (a : LocalAllocator) (addr : Gaddr) : (a.cut addr kChunkSize).Full := by
  simp [LocalAllocator.cut, LocalAllocator.malloc, LocalAllocator.setChunck, LocalAllocator.Full]

theorem step_malloc_full (h : (s.allocator k).Full) (hpos : 0 < size) :
    s.step (.malloc k size) = some (((s.allocator k).cur, true), s) := by
  simp only [NodeState.step, malloc_full h hpos, Function.update_eq_self]

theorem step_malloc_new (a : LocalAllocator) (addr : Gaddr) (h : s.allocator k = a.setChunck addr)
    (hsize : size ≤ kChunkSize) :
    s.step (.malloc k size) = some ((addr, false),
      { s with allocator := Function.update s.allocator k (a.cut addr size) }) := by
  simp only [NodeState.step, h, malloc_setChunck a addr hsize]

/-- What a call leaves on node 1; `next` is the compute node that is named next. -/
structure After (s s' : NodeState) (k : Kind) (a : LocalAllocator) (next : Nat) : Prop where
  lock : s'.allocLock = none
  back : s'.useMemoryFp = s.useMemoryFp
  next : s'.allocNodes .compute = next
  allocator : s'.allocator = Function.update s.allocator k a

theorem lastDir : 0 + 1 = nrDirectory := rfl

theorem Doing.memoryTarget {loc : AllocLoc} {f : Nat → Prog AllocSig (Option Gaddr × AllocLoc)}
    (h : Doing c op (memoryTarget shipped loc >>= f) m) (hs : Stock m s tail)
    (hloc : LocOk shipped loc) :
    ∃ c' m', Runs₀ c c' ∧ Doing c' op (f 0) m' ∧ Stock m' s tail := by
  unfold RemoteAlloc.memoryTarget at h
  cases htar : loc.memoryTarget with
  | some n =>
    obtain rfl : n = 0 := Nat.lt_one_iff.mp (hloc.target n htar)
    rw [htar] at h
    exact ⟨c, m, .refl, h, hs⟩
  | none =>
    rw [htar] at h
    obtain ⟨c1, m1, hr1, h1, hs1⟩ := h.step (.loadNodes .memory)
      (f := fun n => f (n % shipped.memoryNumber)) hs rfl
    have hmod : s.allocNodes .memory % shipped.memoryNumber = 0 := Nat.mod_one _
    rw [hmod] at h1
    exact ⟨c1, m1, hr1, h1, hs1⟩

theorem Doing.nextNode {n : Nat} {f : Unit → Prog AllocSig (Option Gaddr × AllocLoc)}
    (h : Doing c op (nextNode k n >>= f) m) (hs : Stock m s tail) :
    ∃ c' m', Runs₀ c c' ∧ Doing c' op (f ()) m' ∧
      Stock m' { s with allocNodes := Function.update s.allocNodes k ((s.allocNodes k + 1) % n) }
        tail := by
  obtain ⟨c1, m1, hr1, h1, hs1⟩ := h.step (.loadNodes k)
    (f := fun v => issue (.storeNodes k ((v + 1) % n)) >>= f) hs rfl
  obtain ⟨c2, m2, hr2, h2, hs2⟩ := h1.step _ hs1 rfl
  exact ⟨c2, m2, hr1.trans hr2, h2, hs2⟩

/-- `memory_alloc` with a used up chunk. -/
theorem Doing.memoryAlloc {loc : AllocLoc}
    {f : Gaddr × AllocLoc → Prog AllocSig (Option Gaddr × AllocLoc)}
    (h : Doing c op (memoryAlloc shipped 0 size loc >>= f) m) (hs : Stock m s tail)
    (hlock : s.allocLock = none) (hloc : LocOk shipped loc) (hfull : (s.allocator .memory).Full)
    (hpos : 0 < size) (hsize : size ≤ kChunkSize) (hlt : tail .memory < 2560) :
    ∃ c' m' s' loc', Runs₀ c c' ∧ Doing c' op (f (⟨0, tail .memory * kChunkSize⟩, loc')) m' ∧
      Stock m' s' (Function.update tail .memory (tail .memory + 1)) ∧
      After s s' .memory ((s.allocator .memory).cut ⟨0, tail .memory * kChunkSize⟩ size)
        (s.allocNodes .compute) ∧ LocOk shipped loc' := by
  unfold RemoteAlloc.memoryAlloc at h
  simp only [dir_eq_zero hloc.memoryDir, bind_assoc] at h
  obtain ⟨c1, m1, hr1, h1, hs1⟩ := h.step .lock hs (if_pos hlock)
  obtain ⟨c2, m2, hr2, h2, hs2⟩ := Doing.memoryTarget h1 hs1 hloc
  obtain ⟨c3, m3, hr3, h3, hs3⟩ := h2.step _ hs2 (step_malloc_full hfull hpos)
  simp only [if_true, bind_assoc] at h3
  obtain ⟨c4, m4, hr4, h4, hs4⟩ := Doing.takeChunck (k := .memory) h3 hs3 hlt
  rw [nextMemoryDir, if_pos lastDir] at h4
  simp only [bind_assoc, pure_bind] at h4
  obtain ⟨c5, m5, hr5, h5, hs5⟩ := Doing.nextNode (k := .memory) h4 hs4
  obtain ⟨c6, m6, hr6, h6, hs6⟩ := h5.step (.loadNodes .memory) hs5 rfl
  obtain ⟨c7, m7, hr7, h7, hs7⟩ := h6.step _ hs6 (step_malloc_new (s.allocator .memory)
    ⟨0, tail .memory * kChunkSize⟩ (by simp [NodeState.stocked, Kind.site]) hsize)
  obtain ⟨c8, m8, hr8, h8, hs8⟩ := h7.step .unlock hs7 rfl
  refine ⟨c8, m8, _, _, hr1.trans (hr2.trans (hr3.trans (hr4.trans (hr5.trans (hr6.trans
    (hr7.trans hr8)))))), h8, hs8, ⟨rfl, rfl, rfl, ?_⟩, ?_⟩
  · simp [NodeState.stocked]
  · refine ⟨?_, fun d hd => ?_, hloc.computeDir⟩
    · rintro n ⟨⟩
      simp [shipped, Nat.mod_one]
    · cases hd
      rfl

/-- `compute_alloc` after the test of `use_memory_fp`, with a used up chunk. -/
theorem Doing.computeMalloc {f : Gaddr × Nat → Prog AllocSig (Option Gaddr × AllocLoc)}
    (h : Doing c op (computeMalloc shipped size 0 >>= f) m) (hs : Stock m s tail)
    (hfull : (s.allocator .compute).Full) (hpos : 0 < size) (hsize : size ≤ kChunkSize)
    (hlt : tail .compute < 512) :
    ∃ c' m' s', Runs₀ c c' ∧ Doing c' op (f (⟨1, tail .compute * kChunkSize⟩, 0)) m' ∧
      Stock m' s' (Function.update tail .compute (tail .compute + 1)) ∧
      s'.useMemoryFp = s.useMemoryFp ∧
      s'.allocNodes .compute = (s.allocNodes .compute + 1) % 6 ∧
      s'.allocator = Function.update s.allocator .compute
        ((s.allocator .compute).cut ⟨1, tail .compute * kChunkSize⟩ size) := by
  unfold RemoteAlloc.computeMalloc at h
  simp only [bind_assoc] at h
  obtain ⟨c1, m1, hr1, h1, hs1⟩ := h.step _ hs (step_malloc_full hfull hpos)
  simp only [if_true, bind_assoc] at h1
  obtain ⟨c2, m2, hr2, h2, hs2⟩ := Doing.takeChunck (k := .compute) h1 hs1 hlt
  rw [nextComputeDir, if_pos lastDir] at h2
  simp only [bind_assoc, pure_bind] at h2
  obtain ⟨c3, m3, hr3, h3, hs3⟩ := Doing.nextNode h2 hs2
  obtain ⟨c4, m4, hr4, h4, hs4⟩ := h3.step _ hs3 (step_malloc_new (s.allocator .compute)
    ⟨1, tail .compute * kChunkSize⟩ (by simp [NodeState.stocked, Kind.site]) hsize)
  exact ⟨c4, m4, _, hr1.trans (hr2.trans (hr3.trans hr4)), h4, hs4, rfl, rfl,
    by simp [NodeState.stocked]⟩

/-- Between two calls of thread 0, with the chunks of its node used up. -/
def Ready (c : AllocConfig shipped) (tail : Kind → Nat) (back : Bool) : Prop :=
  ∃ s loc, c.thr 0 = .idle loc ∧ c.thr 9 = .idle {} ∧ Stock c.mem s tail ∧ LocOk shipped loc ∧
    s.allocLock = none ∧ s.useMemoryFp = back ∧ s.allocNodes .compute = tail .compute % 6 ∧
    ∀ k, (s.allocator k).Full

/-- In the run from `c` to `c'` thread 0 has been given a whole chunk at `addr`. -/
def Given (c c' : AllocConfig shipped) (k : Kind) (addr : Gaddr) : Prop :=
  ∃ i : Nat, c.log.length ≤ i ∧ c'.log[i]? = some (.ret 0 (.alloc k kChunkSize) (some addr))

/-- The return stays where it is in the history. -/
theorem Given.later {c₁ c₂ : AllocConfig shipped} {addr : Gaddr} (h : Given c c₁ k addr)
    (hr : Runs₀ c₁ c₂) : ∃ i : Nat, c.log.length ≤ i ∧ i < c₁.log.length ∧
      c₂.log[i]? = some (.ret 0 (.alloc k kChunkSize) (some addr)) := by
  obtain ⟨i, hi, hlog⟩ := h
  have hlt := (List.getElem?_eq_some_iff.mp hlog).1
  obtain ⟨rest, hrest⟩ := hr.log_prefix
  refine ⟨i, hi, hlt, ?_⟩
  rw [← hrest, List.getElem?_append_left hlt]
  exact hlog

theorem Runs₀.given {c₁ c₂ : AllocConfig shipped} {addr : Gaddr} (h : Runs₀ c c₁)
    (hlog : c₂.log = c₁.log ++ [.ret 0 (.alloc k kChunkSize) (some addr)]) : Given c c₂ k addr := by
  refine ⟨c₁.log.length, h.log_prefix.length_le, ?_⟩
  rw [hlog]
  exact getElem?_concat_last ..

theorem Doing.ret {addr : Gaddr} {loc : AllocLoc} (h : Doing c op (pure (some addr, loc)) m) :
    ∃ c' : AllocConfig shipped, Runs₀ c c' ∧ c'.thr 0 = .idle loc ∧ c'.thr 9 = .idle {} ∧
      c'.mem = m ∧ c'.log = c.log ++ [.ret 0 op (some addr)] :=
  ⟨_, .single (.ret 0 h.busy), by simp, by simp [h.server], h.mem, rfl⟩

/-- A call that starts. -/
theorem Ready.call {back : Bool} (h : Ready c tail back) (k : Kind) (size : Nat) (hpos : 0 < size)
    (hsize : size ≤ kChunkSize) :
    ∃ c' s loc, Runs₀ c c' ∧ Doing c' (.alloc k size)
        ((allocClient shipped).code 0 (.alloc k size) loc) c.mem ∧ Stock c.mem s tail ∧
      LocOk shipped loc ∧ s.allocLock = none ∧ s.useMemoryFp = back ∧
      s.allocNodes .compute = tail .compute % 6 ∧ ∀ k, (s.allocator k).Full := by
  obtain ⟨s, loc, ht, ht9, hs, hrest⟩ := h
  have hg : (sizesFit shipped).call 0 (.alloc k size) := ⟨hpos, hsize⟩
  exact ⟨_, s, loc, .single (.call 0 _ ht hg), ⟨by simp, by simp [ht9], rfl⟩, hs, hrest⟩

theorem After.full {s' : NodeState} {a : LocalAllocator} {n : Nat} (h : After s s' k a n) (ha : a.Full)
    (hs : ∀ k, (s.allocator k).Full) (k' : Kind) : (s'.allocator k').Full := by
  rw [h.allocator]
  rcases eq_or_ne k' k with rfl | hne
  · rwa [Function.update_self]
  · rw [Function.update_of_ne hne]
    exact hs k'

/-- A call of `memory_alloc` uses up a chunk of the memory node. -/
theorem Ready.memory {back : Bool} (h : Ready c tail back) (hlt : tail .memory < 2560) :
    ∃ c', Runs₀ c c' ∧ Ready c' (Function.update tail .memory (tail .memory + 1)) back ∧
      Given c c' .memory ⟨0, tail .memory * kChunkSize⟩ := by
  obtain ⟨c1, s, loc, hr1, h1, hs, hloc, hlock, hback, hnext, hfull⟩ :=
    h.call .memory kChunkSize (by decide) le_rfl
  obtain ⟨c2, m2, s2, loc2, hr2, h2, hs2, ha, hloc2⟩ :=
    Doing.memoryAlloc h1 hs hlock hloc (hfull _) (by decide) le_rfl hlt
  obtain ⟨c3, hr3, ht, ht9, hmem, hlog⟩ := Doing.ret h2
  exact ⟨c3, hr1.trans (hr2.trans hr3), ⟨s2, loc2, ht, ht9, hmem ▸ hs2, hloc2, ha.lock,
    ha.back.trans hback, ha.next.trans hnext, ha.full (cut_full ..) hfull⟩,
    Runs₀.given (hr1.trans hr2) hlog⟩

/-- A call of `compute_alloc` uses up a chunk of node 1; from the 128th chunk on it falls back, and uses
up one of the memory node as well. -/
theorem Ready.compute (h : Ready c tail false) (hlt : tail .compute < 512)
    (hmem : tail .memory < 2560) :
    ∃ c', Runs₀ c c' ∧
      (tail .compute < 128 → Ready c' (Function.update tail .compute (tail .compute + 1)) false ∧
        Given c c' .compute ⟨(tail .compute + 1) % 6 + 1, tail .compute * kChunkSize⟩) ∧
      (128 ≤ tail .compute → Ready c' (Function.update (Function.update tail .compute
        (tail .compute + 1)) .memory (tail .memory + 1)) true ∧
        Given c c' .compute ⟨0, tail .memory * kChunkSize⟩) := by
  obtain ⟨c1, s, loc, hr1, h1, hs, hloc, hlock, hback, hnext, hfull⟩ :=
    h.call .compute kChunkSize (by decide) le_rfl
  simp only [computeAlloc, dir_eq_zero hloc.computeDir, bind_assoc] at h1
  obtain ⟨c2, m2, hr2, h2, hs2⟩ := h1.step .lock hs (if_pos hlock)
  obtain ⟨c3, m3, hr3, h3, hs3⟩ := h2.step .loadUseMemoryFp hs2 rfl
  simp only [hback, Bool.false_eq_true, if_false, bind_assoc] at h3
  obtain ⟨c4, m4, s4, hr4, h4, hs4, hb4, hn4, ha4⟩ :=
    Doing.computeMalloc h3 hs3 (hfull _) (by decide) le_rfl hlt
  have hnext4 : s4.allocNodes .compute = (tail .compute + 1) % 6 := by
    rw [hn4, hnext]
    omega
  obtain ⟨c5, m5, hr5, h5, hs5⟩ := h4.step .unlock hs4 rfl
  obtain ⟨c6, m6, hr6, h6, hs6⟩ := h5.step (.loadNodes .compute) hs5 rfl
  have hr := hr1.trans (hr2.trans (hr3.trans (hr4.trans (hr5.trans hr6))))
  have hloc' : LocOk shipped { loc with computeDir := some 0 } := by
    refine ⟨hloc.target, hloc.memoryDir, ?_⟩
    rintro d ⟨⟩
    rfl
  have hafter : After s { s4 with allocLock := none } .compute _ _ := ⟨rfl, hb4, rfl, ha4⟩
  have hfull' : ∀ k, (s4.allocator k).Full := hafter.full (cut_full ..) hfull
  by_cases hoff : tail .compute < 128
  · rw [if_neg (by simp only [kLeafCacheSize, MB, kChunkSize]; omega)] at h6
    obtain ⟨c7, hr7, ht, ht9, hm, hlog⟩ := Doing.ret h6
    refine ⟨c7, hr.trans hr7, fun _ => ⟨⟨{ s4 with allocLock := none }, _, ht, ht9, hm ▸ hs6, hloc',
      rfl, hb4.trans hback, ?_, hfull'⟩, ?_⟩, fun h => absurd hoff (not_lt.mpr h)⟩
    · rw [Function.update_self]
      exact hnext4
    · refine Runs₀.given hr (hlog.trans ?_)
      rw [← hnext4]
      rfl
  · rw [if_pos (by simp only [kLeafCacheSize, MB, kChunkSize]; omega)] at h6
    simp only [bind_assoc] at h6
    obtain ⟨c7, m7, hr7, h7, hs7⟩ := h6.step .setUseMemoryFp hs6 rfl
    obtain ⟨c8, m8, s8, loc8, hr8, h8, hs8, ha8, hloc8⟩ :=
      Doing.memoryAlloc h7 hs7 rfl hloc' (hfull' _) (by decide) le_rfl hmem
    obtain ⟨c9, hr9, ht, ht9, hm, hlog⟩ := Doing.ret h8
    refine ⟨c9, hr.trans (hr7.trans (hr8.trans hr9)), fun h => absurd h hoff, fun _ =>
      ⟨⟨s8, loc8, ht, ht9, hm ▸ hs8, hloc8, ha8.lock, ha8.back, ?_, ha8.full (cut_full ..) hfull'⟩,
        Runs₀.given (hr.trans (hr7.trans hr8)) hlog⟩⟩
    rw [Function.update_of_ne (by decide), Function.update_self]
    exact ha8.next.trans hnext4

/-- How many chunks the directories of the memory node and of node 1 have handed out, with the first
one of each, which they keep. -/
def tails (memory compute : Nat) : Kind → Nat
  | .memory => memory
  | .compute => compute

theorem update_tails_memory (i j i' : Nat) :
    Function.update (tails i j) .memory i' = tails i' j := by
  funext k
  cases k <;> simp [tails]

theorem update_tails_compute (i j j' : Nat) :
    Function.update (tails i j) .compute j' = tails i j' := by
  funext k
  cases k <;> simp [tails]

theorem ready_init : Ready (allocInit shipped fun _ => 0) (tails 1 1) false := by
  have hinv := (allocInit_inv shipped fun _ => 0).directory
  refine ⟨(allocInit shipped fun _ => 0).mem.node 1, {}, rfl, rfl, ⟨rfl, fun k => (hinv k.site).1,
    fun k => (hinv k.site).2.1, fun k => ?_, fun k n hn => ?_, fun _ => rfl⟩, ⟨nofun, nofun, nofun⟩,
    rfl, rfl, rfl, fun _ => .inl rfl⟩
  · cases k <;> rfl
  · have hne : n ≠ 0 := by cases k <;> exact Nat.ne_of_gt hn
    exact beq_eq_false_iff_ne.mpr hne

/-- Calls of `compute_alloc` use up the chunks of node 1. -/
theorem Ready.computes {i : Nat} (h : Ready c (tails 1 i) false) (n : Nat) (hn : i + n ≤ 128) :
    ∃ c', Runs₀ c c' ∧ Ready c' (tails 1 (i + n)) false := by
  induction n with
  | zero => exact ⟨c, .refl, h⟩
  | succ n ih =>
    obtain ⟨c₁, hr, h₁⟩ := ih (by omega)
    obtain ⟨c₂, hr₂, h₂, -⟩ := h₁.compute (by simp only [tails]; omega) (by simp [tails])
    refine ⟨c₂, hr.trans hr₂, ?_⟩
    rw [← Nat.add_assoc, ← update_tails_compute]
    exact (h₂ (by simp only [tails]; omega)).1

/-- The call of `compute_alloc` that falls back. -/
theorem Ready.fallBack (h : Ready c (tails 1 128) false) :
    ∃ c', Runs₀ c c' ∧ Ready c' (tails 2 129) true ∧ Given c c' .compute ⟨0, kChunkSize⟩ := by
  obtain ⟨c₁, hr, -, h₁⟩ := h.compute (by simp [tails]) (by simp [tails])
  obtain ⟨hready, hgiven⟩ := h₁ (by simp [tails])
  rw [update_tails_compute, update_tails_memory] at hready
  exact ⟨c₁, hr, hready, hgiven⟩

/-- After falling back, calls of `memory_alloc` use up the chunks of the memory node. -/
theorem exists_ready_memory (n : Nat) (hn : n < 2558) :
    ∃ c, Runs₀ (allocInit shipped fun _ => 0) c ∧ Ready c (tails (n + 2) 129) true := by
  induction n with
  | zero =>
    obtain ⟨c, hr, h⟩ := ready_init.computes 127 (by decide)
    obtain ⟨c', hr', h', -⟩ := h.fallBack
    exact ⟨c', hr.trans hr', h'⟩
  | succ n ih =>
    obtain ⟨c, hr, h⟩ := ih (by omega)
    obtain ⟨c', hr', h', -⟩ := h.memory (by simp only [tails]; omega)
    rw [update_tails_memory] at h'
    exact ⟨c', hr.trans hr', h'⟩

/-- Ranges that different calls return do not share a byte, none of them touches the first chunk of a
node, and they are aligned if the sizes are. -/
theorem allocations_disjoint (hM : 0 < S.memoryNumber) {nodes : Nat → Nat} {c : AllocConfig S}
    (h : Reach (allocMachine S) (sizesFit S) (allocInit S nodes) c) :
    (∀ (i j : Nat) t u k k' size size' a b, c.log[i]? = some (.ret t (.alloc k size) (some a)) →
      c.log[j]? = some (.ret u (.alloc k' size') (some b)) → i ≠ j →
      Disjoint (range a size) (range b size')) ∧
    ∀ (i : Nat) t k size a, c.log[i]? = some (.ret t (.alloc k size) (some a)) →
      (∀ b ∈ range a size, kChunkSize ≤ b.2) ∧ (SizesAligned c.log → 8 ∣ a.offset) := by
  obtain ⟨g, hinv⟩ := reach_allocInv hM h
  refine ⟨fun i j t u k k' size size' a b hi hj hij => ?_, fun i t k size a hi => ?_⟩
  · obtain ⟨k₁, a₁, hp₁, hn₁⟩ := hinv.returned i t k size a hi
    obtain ⟨k₂, b₁, hp₂, hn₂⟩ := hinv.returned j u k' size' b hj
    exact named_disjoint hp₁ hp₂ hn₁ hn₂ fun heq => hij (by cases heq; rfl)
  · obtain ⟨k', a', hp, hn⟩ := hinv.returned i t k size a hi
    refine ⟨fun b hb => ?_, fun ha => ?_⟩
    · exact (hn.1 ▸ hp.low).trans hb.2.1
    · exact hn.1 ▸ hp.aligned ha

/-- The theorem at a run of one thread: the table that `compute_alloc` puts on node 1 is renamed to
node 3; when the region of node 1 is used up, `compute_alloc` falls back to the memory node, whose next
chunk goes to `memory_alloc`. -/
theorem allocations_disjoint_fallback : ∃ c : AllocConfig shipped,
    Reach (allocMachine shipped) (sizesFit shipped) (allocInit shipped fun _ => 0) c ∧
    (∃ i j l : Nat,
      c.log[i]? = some (.ret 0 (.alloc .compute kChunkSize) (some ⟨3, kChunkSize⟩)) ∧
      c.log[j]? = some (.ret 0 (.alloc .compute kChunkSize) (some ⟨0, kChunkSize⟩)) ∧
      c.log[l]? = some (.ret 0 (.alloc .memory kChunkSize) (some ⟨0, 2 * kChunkSize⟩))) ∧
    Disjoint (range ⟨3, kChunkSize⟩ kChunkSize) (range ⟨0, kChunkSize⟩ kChunkSize) ∧
    Disjoint (range ⟨0, kChunkSize⟩ kChunkSize) (range ⟨0, 2 * kChunkSize⟩ kChunkSize) ∧
    (∀ b ∈ range ⟨3, kChunkSize⟩ kChunkSize, kChunkSize ≤ b.2) ∧
    (SizesAligned c.log → 8 ∣ (⟨0, 2 * kChunkSize⟩ : Gaddr).offset) := by
  obtain ⟨c₁, hr₁, h₁, -⟩ := ready_init.compute (by decide) (by decide)
  obtain ⟨h₁, hg₁⟩ := h₁ (by decide)
  rw [update_tails_compute] at h₁
  obtain ⟨c₂, hr₂, h₂⟩ := h₁.computes 126 (by decide)
  obtain ⟨c₃, hr₃, h₃, hg₃⟩ := h₂.fallBack
  obtain ⟨c₄, hr₄, -, hg₄⟩ := h₃.memory (by decide)
  have hr : Runs₀ (allocInit shipped fun _ => 0) c₄ := hr₁.trans (hr₂.trans (hr₃.trans hr₄))
  obtain ⟨i, -, hi, hi'⟩ := hg₁.later (hr₂.trans (hr₃.trans hr₄))
  obtain ⟨j, hj, hjlt, hj'⟩ := hg₃.later hr₄
  obtain ⟨l, hl, hl'⟩ := hg₄
  obtain ⟨hdisj, hplace⟩ := allocations_disjoint (by decide) hr
  have hij : i ≠ j := (hi.trans_le (hr₂.log_prefix.length_le.trans hj)).ne
  exact ⟨c₄, hr, ⟨i, j, l, hi', hj', hl'⟩, hdisj _ _ _ _ _ _ _ _ _ _ hi' hj' hij,
    hdisj _ _ _ _ _ _ _ _ _ _ hj' hl' (hjlt.trans_le hl).ne, (hplace _ _ _ _ _ hi').1,
    (hplace _ _ _ _ _ hl').2⟩

/-- With the sizes of the tests, a node reads past its memory: after the fallback and 510 further chunks
of the memory node, the fingerprint table of a leaf gets the offset 16 GB, where the memory of a compute
node ends. -/
theorem exists_localRead_outside : ∃ c : AllocConfig shipped,
    Reach (allocMachine shipped) (sizesFit shipped) (allocInit shipped fun _ => 0) c ∧
    ∃ (i : Nat) (addr : Gaddr),
      c.log[i]? = some (.ret 0 (.alloc .compute (fpTableSize 32)) (some addr)) ∧
      ¬ localRead addr ⊆ Set.Iio (shipped.dsmSize 1) := by
  obtain ⟨c, hr, h⟩ := exists_ready_memory 510 (by decide)
  obtain ⟨c1, s, loc, hr1, h1, hs, hloc, hlock, hback, -, hfull⟩ :=
    h.call .compute (fpTableSize 32) (by decide) (by decide)
  simp only [computeAlloc, dir_eq_zero hloc.computeDir, bind_assoc] at h1
  obtain ⟨c2, m2, hr2, h2, hs2⟩ := h1.step .lock hs (if_pos hlock)
  obtain ⟨c3, m3, hr3, h3, hs3⟩ := h2.step .loadUseMemoryFp hs2 rfl
  simp only [hback, if_true, bind_assoc] at h3
  obtain ⟨c4, m4, hr4, h4, hs4⟩ := h3.step .unlock hs3 rfl
  obtain ⟨c5, m5, s5, loc5, hr5, h5, hs5, -⟩ :=
    Doing.memoryAlloc h4 hs4 rfl hloc (hfull _) (by decide) (by decide) (by decide)
  obtain ⟨c6, hr6, -, -, -, hlog⟩ := Doing.ret h5
  refine ⟨c6, hr.trans (hr1.trans (hr2.trans (hr3.trans (hr4.trans (hr5.trans hr6))))),
    c5.log.length, ⟨0, 512 * kChunkSize⟩, ?_, ?_⟩
  · rw [hlog]
    exact getElem?_concat_last ..
  · intro hsub
    exact absurd (hsub (⟨le_rfl, by decide⟩ : 512 * kChunkSize ∈ localRead ⟨0, 512 * kChunkSize⟩))
      (by decide)

end DMTree.RemoteAlloc
