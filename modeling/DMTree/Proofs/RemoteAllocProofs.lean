import DMTree.RemoteAlloc
import DMTree.Lib.Ownership
import DMTree.Conc.Proofs.OutlineProofs
import DMTree.Conc.Proofs.LogProofs

/-!
# Remote allocation never overlaps

Every byte of every node has one owner: the directory it is still free in, a reply on its way, the
allocator of a compute node, the call that has just cut it off, or the call that has returned it. Each
step hands bytes from one owner to the next, so ranges of different calls cannot overlap.
-/

namespace DMTree.RemoteAlloc

open Conc Ownership

/-- The owner of a byte. -/
inductive Owner where
  /-- A directory has not handed it out. -/
  | free
  /-- It is in a reply to thread `t`. -/
  | reply (t : Tid)
  /-- It is in the current chunk of an allocator of node `n`. -/
  | chunck (n : Nat) (k : Kind)
  /-- A call of thread `t` has it. -/
  | held (t : Tid)
  /-- The call that returned at position `i` of the history has it. -/
  | returned (i : Nat)

variable {S : Setup} {l : AllocLog S} {own own' : Nat × Nat → Owner} {t u : Tid} {k : Kind}
  {a addr : Gaddr} {size : Nat}

/-! ## Ranges -/

theorem range_subset {size' : Nat} (h : addr.nodeID = a.nodeID) (h1 : a.offset ≤ addr.offset)
    (h2 : addr.offset + size' ≤ a.offset + size) : range addr size' ⊆ range a size := by
  rintro b ⟨hb, hlo, hhi⟩
  exact ⟨hb.trans h, by omega, by omega⟩

/-- Where the memory of a kind comes from. -/
def Kind.Home (S : Setup) : Kind → Nat → Prop
  | .memory, n => n < S.memoryNumber
  | .compute, n => n = S.memoryNumber

/-! ## The invariant -/

/-- A chunk that a directory has handed out. -/
structure ChunckAt (S : Setup) (a : Gaddr) : Prop where
  low : kChunkSize ≤ a.offset
  high : a.offset + kChunkSize ≤ S.dsmSize a.nodeID
  aligned : 8 ∣ a.offset

/-- An allocator of node `n` that has a chunk. -/
structure LocalOk (S : Setup) (l : AllocLog S) (own : Nat × Nat → Owner) (n : Nat) (k : Kind)
    (a : LocalAllocator) : Prop where
  chunck : ChunckAt S a.head
  home : k.Home S a.head.nodeID
  node : a.cur.nodeID = a.head.nodeID
  low : a.head.offset ≤ a.cur.offset
  high : a.cur.offset ≤ a.head.offset + kChunkSize
  rest : Owns own (range a.cur (a.head.offset + kChunkSize - a.cur.offset)) (.chunck n k)
  aligned : SizesAligned l → 8 ∣ a.cur.offset

/-- A range that has been cut off a chunk of kind `k`. -/
structure Piece (S : Setup) (l : AllocLog S) (own : Nat × Nat → Owner) (k : Kind) (a : Gaddr)
    (size : Nat) (o : Owner) : Prop where
  home : k.Home S a.nodeID
  low : kChunkSize ≤ a.offset
  high : a.offset + size ≤ S.dsmSize a.nodeID
  owns : Owns own (range a size) o
  aligned : SizesAligned l → 8 ∣ a.offset

/-- A value of `alloc_compute_nodes`: the node it starts with, or one of the compute nodes. -/
def NodeFits (S : Setup) (n : Nat) : Prop :=
  0 < S.computeNumber → n < S.computeNumber ∨ ∃ t, n = S.nodeOf t

/-- What a call of kind `k` returns for a range that it has cut off at `a`: a range from a compute node
is renamed, and a call for one may have fallen back. -/
def Named (S : Setup) (l : AllocLog S) (k k' : Kind) (a addr : Gaddr) : Prop :=
  addr.offset = a.offset ∧
  match k' with
  | .memory => addr.nodeID = a.nodeID ∧ (k = .compute → FallenBack l)
  | .compute => k = .compute ∧ S.memoryNumber ≤ addr.nodeID ∧
      addr.offset < (kLeafCacheSize - 1) * MB ∧ NodeFits S (addr.nodeID - S.memoryNumber)

/-- What the proof keeps track of: the owners, and the node each thread has sent a request to whose
reply it has not taken. -/
structure AllocGhost where
  own : Nat × Nat → Owner
  target : Tid → Option Nat

/-- The invariant. -/
structure AllocInv (S : Setup) (m : State) (l : AllocLog S) (g : AllocGhost) : Prop where
  directory : ∀ n, (m.directory n 0).start = ⟨n, 0⟩ ∧
    (m.directory n 0).bitmapLen = S.dsmSize n / kChunkSize ∧ 1 ≤ (m.directory n 0).bitmapTail
  free : ∀ n, Owns g.own { b | b.1 = n ∧ (m.directory n 0).bitmapTail * kChunkSize ≤ b.2 } .free
  requests : ∀ n d, (m.requests n d).Nodup ∧
    ∀ t ∈ m.requests n d, d = 0 ∧ g.target t = some n ∧ m.reply t = none
  reply : ∀ t a, m.reply t = some a → g.target t = some a.nodeID ∧ ChunckAt S a ∧
    Owns g.own (range a kChunkSize) (.reply t)
  allocator : ∀ n k, ((m.node n).allocator k).logHeads ≠ [] →
    LocalOk S l g.own n k ((m.node n).allocator k)
  fallback : ∀ n, (m.node n).useMemoryFp = true → FallenBack l
  returned : ∀ (i : Nat) t k size addr, l[i]? = some (.ret t (.alloc k size) (some addr)) →
    ∃ k' a, Piece S l g.own k' a size (.returned i) ∧ Named S l k k' a addr
  nodes : ∀ t, NodeFits S ((m.node (S.nodeOf t)).allocNodes .compute)

/-- The world of the threads. -/
abbrev AllocWorld (S : Setup) := World (allocClient S) State AllocGhost

/-- What a step of another thread leaves to thread `t`. -/
structure Leaves (S : Setup) (t : Tid) (x x' : AllocWorld S) : Prop where
  held : ∀ b, x.ghost.own b = .held t → x'.ghost.own b = .held t
  target : x'.ghost.target t = x.ghost.target t
  locked : (x.mem.node (S.nodeOf t)).allocLock = some t →
    (x'.mem.node (S.nodeOf t)).allocLock = some t ∧
      (x'.mem.node (S.nodeOf t)).allocator = (x.mem.node (S.nodeOf t)).allocator ∧
      (x'.mem.node (S.nodeOf t)).allocNodes = (x.mem.node (S.nodeOf t)).allocNodes

/-- The discipline of the threads. -/
abbrev allocDisc (S : Setup) : Discipline (allocClient S) State AllocGhost where
  machine := allocMachine S
  guard := sizesFit S
  Inv x := AllocInv S x.mem x.log x.ghost
  Rel u x x' := (∃ ev, x'.log = x.log ++ [ev]) ∧ ∀ t, t ≠ u → Leaves S t x x'
  MayFail := Empty.elim

/-! ## Longer histories -/

section Append

variable {ev : Event AllocSig AllocOp (Option Gaddr)}

theorem SizesAligned.of_append (h : SizesAligned (l ++ [ev])) : SizesAligned l :=
  fun i t k size hi => h i t k size (getElem?_concat hi ev)

theorem FallenBack.append (h : FallenBack l) (ev : Event AllocSig AllocOp (Option Gaddr)) :
    FallenBack (S := S) (l ++ [ev]) := by
  obtain ⟨i, t, hi⟩ := h
  exact ⟨i, t, getElem?_concat hi ev⟩

theorem Named.append {k' : Kind} (h : Named S l k k' a addr)
    (ev : Event AllocSig AllocOp (Option Gaddr)) : Named S (l ++ [ev]) k k' a addr := by
  obtain ⟨ho, h⟩ := h
  cases k' with
  | memory => exact ⟨ho, h.1, fun hk => (h.2 hk).append ev⟩
  | compute => exact ⟨ho, h⟩

theorem LocalOk.append {n : Nat} {b : LocalAllocator} (h : LocalOk S l own n k b) :
    LocalOk S (l ++ [ev]) own n k b :=
  { h with aligned := fun ha => h.aligned ha.of_append }

theorem Piece.append {o : Owner} (h : Piece S l own k a size o) :
    Piece S (l ++ [ev]) own k a size o :=
  { h with aligned := fun ha => h.aligned ha.of_append }

end Append

theorem LocalOk.owns {n : Nat} {b : LocalAllocator} (h : LocalOk S l own n k b)
    (ho : Owns own' (range b.cur (b.head.offset + kChunkSize - b.cur.offset)) (.chunck n k)) :
    LocalOk S l own' n k b := { h with rest := ho }

/-! ## Steps -/

section Steps

variable {m : State} {g : AllocGhost} {ev : Event AllocSig AllocOp (Option Gaddr)}

/-- A step that leaves directories, messages, allocators and owners as they are. -/
theorem AllocInv.quiet {m' : State} (h : AllocInv S m l g)
    (hev : ∀ t k size addr, ev ≠ .ret t (.alloc k size) (some addr))
    (hd : m'.directory = m.directory) (hq : m'.requests = m.requests) (hr : m'.reply = m.reply)
    (ha : ∀ n, (m'.node n).allocator = (m.node n).allocator)
    (hn : ∀ t, NodeFits S ((m'.node (S.nodeOf t)).allocNodes .compute))
    (hf : ∀ n, (m'.node n).useMemoryFp = true → FallenBack (S := S) (l ++ [ev])) :
    AllocInv S m' (l ++ [ev]) g where
  directory := hd ▸ h.directory
  free := hd ▸ h.free
  requests := by
    rw [hq, hr]
    exact h.requests
  reply := hr ▸ h.reply
  allocator n k hne := by
    rw [ha] at hne ⊢
    exact (h.allocator n k hne).append
  fallback := hf
  returned i t k size addr hi := by
    rcases getElem?_concat_iff.mp hi with hi | ⟨-, rfl⟩
    · obtain ⟨k', a, hp, hn⟩ := h.returned i t k size addr hi
      exact ⟨k', a, hp.append, hn.append ev⟩
    · exact absurd rfl (hev t k size addr)
  nodes := hn

theorem setNode_node (m : State) (n : Nat) (s : NodeState) (n' : Nat) :
    (m.setNode n s).node n' = if n' = n then s else m.node n' := by
  simp only [State.setNode, Function.update_apply]

/-- The allocator `k` of node `n` is changed. -/
def setAllocator (m : State) (n : Nat) (k : Kind) (b : LocalAllocator) : State :=
  m.setNode n { m.node n with allocator := Function.update (m.node n).allocator k b }

theorem setAllocator_allocator (m : State) (n : Nat) (k : Kind) (b : LocalAllocator) (n' : Nat)
    (k' : Kind) : ((setAllocator m n k b).node n').allocator k' =
      if n' = n ∧ k' = k then b else (m.node n').allocator k' := by
  by_cases hn : n' = n
  · subst hn
    by_cases hk : k' = k
    · subst hk
      simp [setAllocator, State.setNode]
    · simp [setAllocator, State.setNode, hk]
  · simp [setAllocator, State.setNode, hn]

theorem setAllocator_useMemoryFp (m : State) (n : Nat) (k : Kind) (b : LocalAllocator) (n' : Nat) :
    ((setAllocator m n k b).node n').useMemoryFp = (m.node n').useMemoryFp := by
  by_cases hn : n' = n
  · subst hn
    simp [setAllocator, State.setNode]
  · simp [setAllocator, State.setNode, hn]

theorem setAllocator_allocLock (m : State) (n : Nat) (k : Kind) (b : LocalAllocator) (n' : Nat) :
    ((setAllocator m n k b).node n').allocLock = (m.node n').allocLock := by
  by_cases hn : n' = n
  · subst hn
    simp [setAllocator, State.setNode]
  · simp [setAllocator, State.setNode, hn]

theorem setAllocator_allocNodes (m : State) (n : Nat) (k : Kind) (b : LocalAllocator) (n' : Nat) :
    ((setAllocator m n k b).node n').allocNodes = (m.node n').allocNodes := by
  by_cases hn : n' = n
  · subst hn
    simp [setAllocator, State.setNode]
  · simp [setAllocator, State.setNode, hn]

theorem setRequests_requests (m : State) (node dir : Nat) (ts : List Tid) (n d : Nat) :
    (m.setRequests node dir ts).requests n d =
      if n = node ∧ d = dir then ts else m.requests n d := by
  by_cases hn : n = node
  · subst hn
    by_cases hd : d = dir
    · subst hd
      simp [State.setRequests]
    · simp [State.setRequests, hd]
  · simp [State.setRequests, hn]

/-- What calls have returned stays with them when others hand bytes over. -/
theorem AllocInv.returned_give (h : AllocInv S m l g) {s : Set (Nat × Nat)} {o p : Owner}
    (hs : Owns g.own s o) (ho : ∀ i, o ≠ .returned i)
    (hev : ∀ t k size addr, ev ≠ .ret t (.alloc k size) (some addr)) (i : Nat) (t : Tid) (k : Kind)
    (size : Nat) (addr : Gaddr)
    (hi : (l ++ [ev])[i]? = some (Event.ret t (AllocOp.alloc k size) (some addr))) :
    ∃ k' a, Piece S (l ++ [ev]) (give g.own s p) k' a size (.returned i) ∧
      Named S (l ++ [ev]) k k' a addr := by
  rcases getElem?_concat_iff.mp hi with hi | ⟨-, rfl⟩
  · obtain ⟨k', a, hp, hn⟩ := h.returned i t k size addr hi
    exact ⟨k', a, { hp.append with owns := hp.owns.give_of_ne hs (ho i).symm }, hn.append ev⟩
  · exact absurd rfl (hev t k size addr)

/-- A range is cut off the chunk of an allocator. -/
theorem AllocInv.malloc (h : AllocInv S m l g) (t : Tid) {n : Nat} {b : LocalAllocator}
    (hb : (m.node n).allocator k = b) (hne : b.logHeads ≠ [])
    (hfit : b.cur.offset + size ≤ b.head.offset + kChunkSize) (hal : SizesAligned l → 8 ∣ size)
    (hev : ∀ t k size addr, ev ≠ .ret t (.alloc k size) (some addr)) :
    AllocInv S (setAllocator m n k { b with cur := { b.cur with offset := b.cur.offset + size } })
        (l ++ [ev]) { g with own := give g.own (range b.cur size) (.held t) } ∧
      Piece S (l ++ [ev]) (give g.own (range b.cur size) (.held t)) k b.cur size (.held t) := by
  have hok : LocalOk S l g.own n k b := hb ▸ h.allocator n k (hb ▸ hne)
  have hcut : Owns g.own (range b.cur size) (.chunck n k) :=
    hok.rest.mono (range_subset rfl le_rfl (by omega))
  constructor
  · refine ⟨h.directory, fun n => (h.free n).give_of_ne hcut nofun, h.requests, fun t' a ha => ?_,
      fun n' k' hne' => ?_, fun n' hf => ?_, h.returned_give hcut nofun hev, fun u => ?_⟩
    · obtain ⟨h1, h2, h3⟩ := h.reply t' a ha
      exact ⟨h1, h2, h3.give_of_ne hcut nofun⟩
    · rw [setAllocator_allocator] at hne' ⊢
      split at hne'
      · next heq =>
        obtain ⟨rfl, rfl⟩ := heq
        rw [if_pos ⟨rfl, rfl⟩]
        refine ⟨hok.chunck, hok.home, hok.node, by have := hok.low; dsimp only; omega, hfit, ?_, ?_⟩
        · have hrest : Owns g.own (range { b.cur with offset := b.cur.offset + size }
              (b.head.offset + kChunkSize - (b.cur.offset + size))) (.chunck n' k') :=
            hok.rest.mono (range_subset rfl (Nat.le_add_right ..) (by dsimp only; omega))
          refine hrest.give (Set.disjoint_left.mpr ?_)
          rintro x ⟨-, hlo, -⟩ ⟨-, -, hhi⟩
          exact absurd hhi (not_lt.mpr hlo)
        · exact fun hal' => (hok.aligned hal'.of_append).add (hal hal'.of_append)
      · next heq =>
        rw [if_neg heq]
        refine ((h.allocator n' k' hne').owns ?_).append
        exact (h.allocator n' k' hne').rest.give_of_ne hcut
          fun heq' => heq ⟨by cases heq'; rfl, by cases heq'; rfl⟩
    · rw [setAllocator_useMemoryFp] at hf
      exact (h.fallback n' hf).append ev
    · rw [setAllocator_allocNodes]
      exact h.nodes u
  · have hn := hok.node
    refine ⟨hn ▸ hok.home, hok.chunck.low.trans hok.low, ?_, owns_give _ _ _, fun hal' =>
      hok.aligned hal'.of_append⟩
    rw [hn]
    exact hfit.trans hok.chunck.high

/-- A thread gives the chunk that it has got to an allocator of its node. -/
theorem AllocInv.setChunck (h : AllocInv S m l g) {n : Nat} (ha : ChunckAt S a)
    (hhome : k.Home S a.nodeID) (hown : Owns g.own (range a kChunkSize) (.held t)) (b : LocalAllocator)
    (hev : ∀ t k size addr, ev ≠ .ret t (.alloc k size) (some addr)) :
    AllocInv S (setAllocator m n k (b.setChunck a)) (l ++ [ev])
      { g with own := give g.own (range a kChunkSize) (.chunck n k) } := by
  refine ⟨h.directory, fun n => (h.free n).give_of_ne hown nofun, h.requests, fun t' a ha => ?_,
    fun n' k' hne' => ?_, fun n' hf => ?_, h.returned_give hown nofun hev, fun u => ?_⟩
  · obtain ⟨h1, h2, h3⟩ := h.reply t' a ha
    exact ⟨h1, h2, h3.give_of_ne hown nofun⟩
  · rw [setAllocator_allocator] at hne' ⊢
    split at hne'
    · next heq =>
      obtain ⟨rfl, rfl⟩ := heq
      rw [if_pos ⟨rfl, rfl⟩]
      refine ⟨ha, hhome, rfl, le_rfl, Nat.le_add_right .., ?_, fun _ => ha.aligned⟩
      exact (owns_give _ _ _).mono (range_subset rfl le_rfl (by dsimp only [LocalAllocator.setChunck]; omega))
    · next heq =>
      rw [if_neg heq]
      exact ((h.allocator n' k' hne').owns
        ((h.allocator n' k' hne').rest.give_of_ne hown nofun)).append
  · rw [setAllocator_useMemoryFp] at hf
    exact (h.fallback n' hf).append ev
  · rw [setAllocator_allocNodes]
    exact h.nodes u

/-- A thread that has no request on its way sends one. -/
theorem AllocInv.rpcCallDir (h : AllocInv S m l g) (ht : g.target t = none) (node : Nat)
    (hev : ∀ t k size addr, ev ≠ .ret t (.alloc k size) (some addr)) :
    AllocInv S (m.setRequests node 0 (m.requests node 0 ++ [t])) (l ++ [ev])
      { g with target := Function.update g.target t (some node) } := by
  have hno : ∀ n d, t ∉ m.requests n d := by
    intro n d hmem
    have := ((h.requests n d).2 t hmem).2.1
    rw [ht] at this
    cases this
  have hrt : m.reply t = none := by
    cases hr : m.reply t with
    | none => rfl
    | some a =>
      have := (h.reply t a hr).1
      rw [ht] at this
      cases this
  have hold : ∀ n d, (m.requests n d).Nodup ∧ ∀ u ∈ m.requests n d, d = 0 ∧
      Function.update g.target t (some node) u = some n ∧ m.reply u = none := by
    intro n d
    refine ⟨(h.requests n d).1, fun u hu => ?_⟩
    have hut : u ≠ t := fun heq => hno n d (heq ▸ hu)
    rw [Function.update_of_ne hut]
    exact (h.requests n d).2 u hu
  refine ⟨h.directory, h.free, fun n d => ?_, fun u a hu => ?_, fun n k hne =>
    (h.allocator n k hne).append, fun n hf => (h.fallback n hf).append ev, fun i u k size addr hi => ?_,
    h.nodes⟩
  · rw [setRequests_requests]
    split
    · next hnd =>
      obtain ⟨rfl, rfl⟩ := hnd
      refine ⟨(h.requests n 0).1.append (List.nodup_singleton t)
        (List.disjoint_singleton.mpr (hno n 0)), fun u hu => ?_⟩
      rcases List.mem_append.mp hu with hu | hu
      · exact (hold n 0).2 u hu
      · rw [List.mem_singleton.mp hu]
        exact ⟨rfl, Function.update_self .., hrt⟩
    · exact hold n d
  · have hut : u ≠ t := by
      rintro rfl
      rw [State.setRequests, hrt] at hu
      cases hu
    obtain ⟨h1, h2⟩ := h.reply u a hu
    exact ⟨(Function.update_of_ne hut ..).trans h1, h2⟩
  · rcases getElem?_concat_iff.mp hi with hi | ⟨-, rfl⟩
    · obtain ⟨k', a, hp, hn⟩ := h.returned i u k size addr hi
      exact ⟨k', a, hp.append, hn.append ev⟩
    · exact absurd rfl (hev u k size addr)

/-- A thread takes its reply. -/
theorem AllocInv.rpcWait (h : AllocInv S m l g) (hr : m.reply t = some a)
    (hev : ∀ t k size addr, ev ≠ .ret t (.alloc k size) (some addr)) :
    AllocInv S { m with reply := Function.update m.reply t none } (l ++ [ev])
      ⟨give g.own (range a kChunkSize) (.held t), Function.update g.target t none⟩ := by
  obtain ⟨-, -, hown⟩ := h.reply t a hr
  refine ⟨h.directory, fun n => (h.free n).give_of_ne hown nofun, fun n d => ⟨(h.requests n d).1,
    fun u hu => ?_⟩, fun u b hu => ?_, fun n k hne => ?_, fun n hf => (h.fallback n hf).append ev,
    h.returned_give hown nofun hev, h.nodes⟩
  · obtain ⟨h1, h2, h3⟩ := (h.requests n d).2 u hu
    have hut : u ≠ t := by
      rintro rfl
      rw [hr] at h3
      cases h3
    simp only [Function.update_of_ne hut]
    exact ⟨h1, h2, h3⟩
  · by_cases hut : u = t
    · subst hut
      simp at hu
    · simp only [Function.update_of_ne hut] at hu ⊢
      obtain ⟨h1, h2, h3⟩ := h.reply u b hu
      exact ⟨h1, h2, h3.give_of_ne hown fun heq => hut (by cases heq; rfl)⟩
  · exact ((h.allocator n k hne).owns ((h.allocator n k hne).rest.give_of_ne hown nofun)).append

/-- The chunk that a directory hands out is free. -/
theorem AllocInv.allocChunck (h : AllocInv S m l g) {node : Nat} {d : GlobalAllocator}
    (hc : (m.directory node 0).allocChunck = some (a, d)) :
    (a = ⟨node, (m.directory node 0).bitmapTail * kChunkSize⟩ ∧
      d = { m.directory node 0 with
        bitmap := Function.update (m.directory node 0).bitmap (m.directory node 0).bitmapTail true
        bitmapTail := (m.directory node 0).bitmapTail + 1 }) ∧
    ChunckAt S a ∧ Owns g.own (range a kChunkSize) .free := by
  obtain ⟨hstart, hlen, hpos⟩ := h.directory node
  obtain ⟨hlt, rfl, rfl⟩ : (m.directory node 0).bitmapTail < (m.directory node 0).bitmapLen ∧
      a = ⟨node, (m.directory node 0).bitmapTail * kChunkSize⟩ ∧
      d = { m.directory node 0 with
        bitmap := Function.update (m.directory node 0).bitmap (m.directory node 0).bitmapTail true
        bitmapTail := (m.directory node 0).bitmapTail + 1 } := by
    unfold GlobalAllocator.allocChunck at hc
    split at hc
    · cases hc
    · split at hc
      · simp only [Option.some.injEq, Prod.mk.injEq] at hc
        refine ⟨by omega, ?_, hc.2.symm⟩
        rw [← hc.1, hstart, Nat.zero_add]
      · cases hc
  refine ⟨⟨rfl, rfl⟩, ⟨Nat.le_mul_of_pos_left _ hpos, ?_, Dvd.dvd.mul_left (by decide) _⟩,
    (h.free node).mono fun b hb => ⟨hb.1, hb.2.1⟩⟩
  have hle : ((m.directory node 0).bitmapTail + 1) * kChunkSize ≤ S.dsmSize node := by
    refine (Nat.mul_le_mul_right _ (Nat.succ_le_of_lt hlt)).trans ?_
    rw [hlen]
    exact Nat.div_mul_le_self ..
  rwa [Nat.add_mul, Nat.one_mul] at hle

/-- A directory serves a request. -/
theorem AllocInv.serve (h : AllocInv S m l g) {node dir i : Nat} {u : Tid} {d : GlobalAllocator}
    (hi : (m.requests node dir)[i]? = some u)
    (hc : (m.directory node dir).allocChunck = some (a, d))
    (hev : ∀ t k size addr, ev ≠ .ret t (.alloc k size) (some addr)) :
    AllocInv S ((m.setRequests node dir ((m.requests node dir).eraseIdx i)).grant node dir d u a)
      (l ++ [ev]) { g with own := give g.own (range a kChunkSize) (.reply u) } := by
  obtain ⟨rfl, htu, hru⟩ := (h.requests node dir).2 u (List.mem_of_getElem? hi)
  obtain ⟨hstart, hlen, hpos⟩ := h.directory node
  obtain ⟨⟨rfl, rfl⟩, hchunck, hown⟩ := h.allocChunck hc
  have hdir : ∀ n, n ≠ node → (m.grant node 0 { m.directory node 0 with
        bitmap := Function.update (m.directory node 0).bitmap (m.directory node 0).bitmapTail true
        bitmapTail := (m.directory node 0).bitmapTail + 1 } u
        ⟨node, (m.directory node 0).bitmapTail * kChunkSize⟩).directory n 0 = m.directory n 0 :=
    fun n hn => by simp [State.grant, hn]
  refine ⟨fun n => ?_, fun n => ?_, fun n d => ?_, fun v b hv => ?_, fun n k hne => ?_,
    fun n hf => (h.fallback n hf).append ev, h.returned_give hown nofun hev, h.nodes⟩
  · by_cases hn : n = node
    · subst hn
      simpa [State.grant, State.setRequests] using ⟨hstart, hlen⟩
    · exact hdir n hn ▸ h.directory n
  · by_cases hn : n = node
    · subst hn
      have hrest : Owns g.own { b : Nat × Nat | b.1 = n ∧
          ((m.directory n 0).bitmapTail + 1) * kChunkSize ≤ b.2 } .free :=
        (h.free n).mono fun b hb => ⟨hb.1, le_trans (Nat.mul_le_mul_right _ (Nat.le_succ _)) hb.2⟩
      simp only [State.grant, Function.update_self]
      refine hrest.give (Set.disjoint_left.mpr ?_)
      rintro b ⟨-, hlo⟩ ⟨-, -, hhi⟩
      rw [Nat.add_mul, Nat.one_mul] at hlo
      exact absurd hhi (not_lt.mpr hlo)
    · have hfree : Owns g.own { b : Nat × Nat | b.1 = n ∧
          (m.directory n 0).bitmapTail * kChunkSize ≤ b.2 } .free := h.free n
      simp only [State.grant, State.setRequests, Function.update_of_ne hn]
      refine hfree.give (Set.disjoint_left.mpr ?_)
      rintro b ⟨hb, -⟩ ⟨hb', -⟩
      exact hn (hb.symm.trans hb')
  · have hne : ∀ v, v ∈ (m.setRequests node 0 ((m.requests node 0).eraseIdx i)).requests n d →
        v ≠ u ∧ v ∈ m.requests n d := by
      intro v hv
      rw [setRequests_requests] at hv
      split at hv
      · next heq =>
        obtain ⟨rfl, rfl⟩ := heq
        refine ⟨?_, List.mem_of_mem_eraseIdx hv⟩
        rintro rfl
        obtain ⟨j, hj, hv⟩ := List.mem_eraseIdx_iff_getElem?.mp hv
        obtain ⟨hlt', hiv⟩ := List.getElem?_eq_some_iff.mp hi
        obtain ⟨hlt'', hjv⟩ := List.getElem?_eq_some_iff.mp hv
        exact hj ((h.requests n 0).1.getElem_inj_iff.mp (hjv.trans hiv.symm))
      · next heq =>
        refine ⟨?_, hv⟩
        rintro rfl
        obtain ⟨hd, htv, -⟩ := (h.requests n d).2 v hv
        rw [htu] at htv
        exact heq ⟨by cases htv; rfl, hd⟩
    refine ⟨?_, fun v hv => ?_⟩
    · have hnd : ((m.setRequests node 0 ((m.requests node 0).eraseIdx i)).requests n d).Nodup := by
        rw [setRequests_requests]
        split
        · exact (h.requests node 0).1.sublist (List.eraseIdx_sublist ..)
        · exact (h.requests n d).1
      exact hnd
    · obtain ⟨hvu, hv⟩ := hne v hv
      obtain ⟨h1, h2, h3⟩ := (h.requests n d).2 v hv
      exact ⟨h1, h2, (Function.update_of_ne hvu ..).trans h3⟩
  · by_cases hvu : v = u
    · subst hvu
      simp only [State.grant, Function.update_self, Option.some.injEq] at hv
      subst hv
      exact ⟨htu, hchunck, owns_give _ _ _⟩
    · simp only [State.grant, State.setRequests, Function.update_of_ne hvu] at hv
      obtain ⟨h1, h2, h3⟩ := h.reply v b hv
      exact ⟨h1, h2, h3.give_of_ne hown nofun⟩
  · exact ((h.allocator n k hne).owns ((h.allocator n k hne).rest.give_of_ne hown nofun)).append

/-- A call returns the range that it has cut off. -/
theorem AllocInv.ret (h : AllocInv S m l g) {k' : Kind} (hp : Piece S l g.own k' a size (.held t))
    (hn : Named S l k k' a addr) :
    AllocInv S m (l ++ [.ret t (.alloc k size) (some addr)])
      { g with own := give g.own (range a size) (.returned l.length) } := by
  have hown := hp.owns
  refine ⟨h.directory, fun n => (h.free n).give_of_ne hown nofun, h.requests, fun u b hu => ?_,
    fun n k hne => ?_, fun n hf => (h.fallback n hf).append _, fun i u k₁ size₁ addr₁ hi => ?_,
    h.nodes⟩
  · obtain ⟨h1, h2, h3⟩ := h.reply u b hu
    exact ⟨h1, h2, h3.give_of_ne hown nofun⟩
  · exact ((h.allocator n k hne).owns ((h.allocator n k hne).rest.give_of_ne hown nofun)).append
  · rcases getElem?_concat_iff.mp hi with hi | ⟨rfl, heq⟩
    · obtain ⟨k₂, b, hp', hn'⟩ := h.returned i u k₁ size₁ addr₁ hi
      exact ⟨k₂, b, { hp'.append with owns := hp'.owns.give_of_ne hown nofun }, hn'.append _⟩
    · cases heq
      exact ⟨k', a, { hp.append with owns := owns_give _ _ _ }, hn.append _⟩

end Steps

/-! ## What a thread knows -/

section Assertions

variable {size : Nat} {a : Gaddr} {x x' : AllocWorld S}

/-- Thread `t` is in a call for `size` bytes with a request to `node` on its way, or none; and
`compute_alloc` has fallen back if `back` says so. -/
structure InCallAt (S : Setup) (t : Tid) (size : Nat) (back : Prop) (node : Option Nat)
    (x : AllocWorld S) : Prop where
  out : x.ghost.target t = node
  size : SizesAligned x.log → 8 ∣ size
  back : back → FallenBack x.log

/-- Thread `t` is in a call and has no request on its way. -/
abbrev InCall (S : Setup) (t : Tid) (size : Nat) (back : Prop) : AllocWorld S → Prop :=
  InCallAt S t size back none

/-- Thread `t` holds `alloc_lock` of its node. -/
def Locked (S : Setup) (t : Tid) (x : AllocWorld S) : Prop :=
  (x.mem.node (S.nodeOf t)).allocLock = some t

/-- The allocator has a new chunk. -/
def NewChunck (S : Setup) (t : Tid) (k : Kind) (x : AllocWorld S) : Prop :=
  ((x.mem.node (S.nodeOf t)).allocator k).logHeads ≠ [] ∧
    ((x.mem.node (S.nodeOf t)).allocator k).cur = ((x.mem.node (S.nodeOf t)).allocator k).head

/-- The node of thread `t` has turned to one of the first `number` nodes of kind `k`. -/
def Turned (S : Setup) (t : Tid) (k : Kind) (number : Nat) (x : AllocWorld S) : Prop :=
  0 < number → (x.mem.node (S.nodeOf t)).allocNodes k < number

/-- The call of thread `t` has cut off a range. -/
def Holding (S : Setup) (t : Tid) (k : Kind) (a : Gaddr) (size : Nat) (x : AllocWorld S) : Prop :=
  Piece S x.log x.ghost.own k a size (.held t)

/-- The history gets longer, and nothing changes that the assertions speak about. -/
structure Same (x x' : AllocWorld S) : Prop where
  log : ∃ ev, x'.log = x.log ++ [ev]
  ghost : x'.ghost = x.ghost
  lock : ∀ n, (x'.mem.node n).allocLock = (x.mem.node n).allocLock
  allocator : ∀ n, (x'.mem.node n).allocator = (x.mem.node n).allocator
  nodes : ∀ n, (x'.mem.node n).allocNodes = (x.mem.node n).allocNodes

theorem InCallAt.mono {back : Prop} {node node' : Option Nat} (h : InCallAt S t size back node x)
    (hl : ∃ ev, x'.log = x.log ++ [ev]) (ht : x'.ghost.target t = node') :
    InCallAt S t size back node' x' := by
  obtain ⟨ev, hl⟩ := hl
  refine ⟨ht, fun ha => h.size ?_, fun hb => ?_⟩
  · rw [hl] at ha
    exact ha.of_append
  · rw [hl]
    exact (h.back hb).append ev

theorem Holding.mono (h : Holding S t k a size x) (hl : ∃ ev, x'.log = x.log ++ [ev])
    (ho : ∀ b, x.ghost.own b = .held t → x'.ghost.own b = .held t) : Holding S t k a size x' := by
  obtain ⟨ev, hl⟩ := hl
  rw [Holding, hl]
  exact { Piece.append h with owns := fun b hb => ho b (h.owns b hb) }

theorem inCall_stable {back : Prop} {node : Option Nat} :
    (allocDisc S).Stable t (InCallAt S t size back node) :=
  fun _ _ _ hu _ _ hr h => h.mono hr.1 ((hr.2 t hu.symm).target.trans h.out)

theorem locked_stable : (allocDisc S).Stable t (Locked S t) :=
  fun _ _ _ hu _ _ hr h => ((hr.2 t hu.symm).locked h).1

theorem newChunck_stable :
    (allocDisc S).Stable t fun x => Locked S t x ∧ NewChunck S t k x := by
  rintro u x x' hu - - hr ⟨hl, hn⟩
  obtain ⟨hl', ha, -⟩ := (hr.2 t hu.symm).locked hl
  exact ⟨hl', by rwa [NewChunck, ha]⟩

theorem turned_stable {number : Nat} :
    (allocDisc S).Stable t fun x => Locked S t x ∧ Turned S t k number x := by
  rintro u x x' hu - - hr ⟨hl, hn⟩
  obtain ⟨hl', -, ha⟩ := (hr.2 t hu.symm).locked hl
  exact ⟨hl', by rwa [Turned, ha]⟩

theorem holding_stable : (allocDisc S).Stable t (Holding S t k a size) :=
  fun _ _ _ hu _ _ hr h => h.mono hr.1 (hr.2 t hu.symm).held

theorem Same.inCall {back : Prop} (hs : Same x x') (h : InCall S t size back x) :
    InCall S t size back x' := h.mono hs.log (by rw [hs.ghost, h.out])

theorem Same.locked (hs : Same x x') (h : Locked S t x) : Locked S t x' := (hs.lock _).trans h

theorem Same.newChunck (hs : Same x x') (h : NewChunck S t k x) : NewChunck S t k x' := by
  rwa [NewChunck, hs.allocator]

theorem Same.holding (hs : Same x x') (h : Holding S t k a size x) : Holding S t k a size x' :=
  h.mono hs.log fun b hb => by rwa [hs.ghost]

theorem Same.leaves (hs : Same x x') (u : Tid) : Leaves S u x x' where
  held b hb := by rwa [hs.ghost]
  target := by rw [hs.ghost]
  locked h := ⟨(hs.lock _).trans h, hs.allocator _, hs.nodes _⟩

end Assertions

/-! ## Outlines of the commands -/

section Commands

variable {size : Nat} {a : Gaddr}

/-- The commands that change nothing but `use_memory_fp`. -/
def AllocCmd.Neutral : AllocCmd → Prop
  | .loadUseMemoryFp | .setUseMemoryFp | .loadNodes _ => True
  | _ => False

theorem neutral_outline {c : AllocCmd} (hc : c.Neutral) {P : AllocWorld S → Prop}
    {Q : c.Resp → AllocWorld S → Prop} (hQ : ∀ r, (allocDisc S).Stable t (Q r))
    (h : ∀ x r m, AllocInv S x.mem x.log x.ghost → P x →
      (allocMachine S).exec t c x.mem = some (r, m) →
      Same x ⟨m, x.log ++ [.act t c r], x.ghost⟩ → Q r ⟨m, x.log ++ [.act t c r], x.ghost⟩) :
    Outline (allocDisc S) t (issue c) P Q := by
  refine Outline.cmd False.elim hQ ?_
  intro x r m hi hx _ he
  have hsame : m.directory = x.mem.directory ∧ m.requests = x.mem.requests ∧
      m.reply = x.mem.reply ∧ (∀ n, (m.node n).allocLock = (x.mem.node n).allocLock ∧
        (m.node n).allocator = (x.mem.node n).allocator ∧
        (m.node n).allocNodes = (x.mem.node n).allocNodes) ∧
      ∀ n, (m.node n).useMemoryFp = true → FallenBack (S := S) (x.log ++ [.act t c r]) := by
    have hback : ∀ n, (x.mem.node n).useMemoryFp = true →
        FallenBack (S := S) (x.log ++ [.act t c r]) := fun n hn => (hi.fallback n hn).append _
    cases c <;> try exact hc.elim
    case loadUseMemoryFp =>
      obtain ⟨-, rfl⟩ := Prod.mk.injEq .. ▸ Option.some.injEq .. ▸ he
      exact ⟨rfl, rfl, rfl, fun _ => ⟨rfl, rfl, rfl⟩, hback⟩
    case loadNodes =>
      obtain ⟨-, rfl⟩ := Prod.mk.injEq .. ▸ Option.some.injEq .. ▸ he
      exact ⟨rfl, rfl, rfl, fun _ => ⟨rfl, rfl, rfl⟩, hback⟩
    case setUseMemoryFp =>
      obtain ⟨-, rfl⟩ := Prod.mk.injEq .. ▸ Option.some.injEq .. ▸ he
      refine ⟨rfl, rfl, rfl, fun n => ?_, fun n hn => ⟨_, t, getElem?_concat_last ..⟩⟩
      rw [setNode_node]
      split
      · next h =>
        subst h
        exact ⟨rfl, rfl, rfl⟩
      · exact ⟨rfl, rfl, rfl⟩
  obtain ⟨h1, h2, h3, h4, h5⟩ := hsame
  have hs : Same x ⟨m, x.log ++ [.act t c r], x.ghost⟩ :=
    ⟨⟨_, rfl⟩, rfl, fun n => (h4 n).1, fun n => (h4 n).2.1, fun n => (h4 n).2.2⟩
  exact ⟨x.ghost, hi.quiet (fun _ _ _ _ => Event.act_ne_ret) h1 h2 h3 (fun n => (h4 n).2.1)
      (fun u => (h4 _).2.2 ▸ hi.nodes u) h5,
    ⟨⟨_, rfl⟩, fun u _ => hs.leaves u⟩, h x r m hi hx he hs⟩

theorem lock_outline {back : Prop} :
    Outline (allocDisc S) t (issue .lock) (InCall S t size back)
      fun _ x => InCall S t size back x ∧ Locked S t x := by
  refine Outline.cmd False.elim (fun _ => inCall_stable.and locked_stable) ?_
  intro x r m hi hx _ he
  obtain ⟨hfree, rfl⟩ : (x.mem.node (S.nodeOf t)).allocLock = none ∧
      x.mem.setNode (S.nodeOf t) { x.mem.node (S.nodeOf t) with allocLock := some t } = m := by
    simp only [allocMachine] at he
    split at he
    · next hfree => exact ⟨hfree, by simpa using he⟩
    · cases he
  have ha : ∀ n, ((x.mem.setNode (S.nodeOf t)
      { x.mem.node (S.nodeOf t) with allocLock := some t }).node n).allocator =
        (x.mem.node n).allocator ∧ ((x.mem.setNode (S.nodeOf t)
      { x.mem.node (S.nodeOf t) with allocLock := some t }).node n).allocNodes =
        (x.mem.node n).allocNodes := by
    intro n
    rw [setNode_node]
    split
    · next h => simp [h]
    · exact ⟨rfl, rfl⟩
  refine ⟨x.ghost, hi.quiet (fun _ _ _ _ => Event.act_ne_ret) rfl rfl rfl (fun n => (ha n).1)
      (fun u => (ha _).2 ▸ hi.nodes u) fun n hn => ?_,
    ⟨⟨_, rfl⟩, fun u hu => ⟨fun _ h => h, rfl, fun hl => ⟨?_, ha _⟩⟩⟩, hx.mono ⟨_, rfl⟩ hx.out, ?_⟩
  · rw [setNode_node] at hn
    split at hn
    · exact (hi.fallback _ hn).append _
    · exact (hi.fallback n hn).append _
  · rw [setNode_node]
    split
    · next h =>
      rw [h, hfree] at hl
      cases hl
    · exact hl
  · simp [Locked, setNode_node]

/-- `unlock` keeps an assertion that is about neither the lock nor an allocator. -/
theorem unlock_outline {P : AllocWorld S → Prop} (hP : (allocDisc S).Stable t P)
    (hmem : ∀ x m ev, P x → P ⟨m, x.log ++ [ev], x.ghost⟩) :
    Outline (allocDisc S) t (issue .unlock) (fun x => P x ∧ Locked S t x) fun _ => P := by
  refine Outline.cmd False.elim (fun _ => hP) ?_
  rintro x r m hi ⟨hx, hlock⟩ _ he
  obtain rfl : x.mem.setNode (S.nodeOf t) { x.mem.node (S.nodeOf t) with allocLock := none } = m := by
    simpa [allocMachine] using he
  have ha : ∀ n, ((x.mem.setNode (S.nodeOf t)
      { x.mem.node (S.nodeOf t) with allocLock := none }).node n).allocator =
        (x.mem.node n).allocator ∧ ((x.mem.setNode (S.nodeOf t)
      { x.mem.node (S.nodeOf t) with allocLock := none }).node n).allocNodes =
        (x.mem.node n).allocNodes := by
    intro n
    rw [setNode_node]
    split
    · next h => simp [h]
    · exact ⟨rfl, rfl⟩
  refine ⟨x.ghost, hi.quiet (fun _ _ _ _ => Event.act_ne_ret) rfl rfl rfl (fun n => (ha n).1)
      (fun u => (ha _).2 ▸ hi.nodes u) fun n hn => ?_,
    ⟨⟨_, rfl⟩, fun u hu => ⟨fun _ h => h, rfl, fun hl => ⟨?_, ha _⟩⟩⟩, hmem x _ _ hx⟩
  · rw [setNode_node] at hn
    split at hn
    · exact (hi.fallback _ hn).append _
    · exact (hi.fallback n hn).append _
  · rw [setNode_node]
    split
    · next h =>
      rw [h, hlock] at hl
      exact absurd (Option.some.inj hl).symm hu
    · exact hl

/-- A step of the lock holder on an allocator of its node. -/
theorem leaves_of_locked {x : AllocWorld S} (hlock : Locked S t x) {b : LocalAllocator}
    {ev : Event AllocSig AllocOp (Option Gaddr)} {g : AllocGhost} {u : Tid} (hu : u ≠ t)
    (hown : ∀ b, x.ghost.own b = .held u → g.own b = .held u)
    (htar : g.target u = x.ghost.target u) :
    Leaves S u x ⟨setAllocator x.mem (S.nodeOf t) k b, x.log ++ [ev], g⟩ := by
  refine ⟨hown, htar, fun hl => ?_⟩
  have hne : S.nodeOf u ≠ S.nodeOf t := by
    intro heq
    rw [heq] at hl
    exact hu (Option.some.inj (hl.symm.trans hlock))
  exact ⟨(setAllocator_allocLock ..).trans hl, by simp [setAllocator, setNode_node, hne],
    by simp [setAllocator, setNode_node, hne]⟩

/-- `malloc` cuts off a range, or reports that it needs a chunk, which does not happen when the chunk
is new. -/
theorem malloc_outline {back : Prop} (hsize : size ≤ kChunkSize) (fresh : Prop) :
    Outline (allocDisc S) t (issue (.malloc k size))
      (fun x => InCall S t size back x ∧ Locked S t x ∧ (fresh → NewChunck S t k x))
      fun r x => InCall S t size back x ∧ Locked S t x ∧ (fresh → r.2 = false) ∧
        (r.2 = false → Holding S t k r.1 size x) := by
  refine Outline.cmd False.elim (fun r => inCall_stable.and (locked_stable.and
    (.and (Discipline.stable_const _) (.imp fun _ => holding_stable)))) ?_
  rintro x r m hi ⟨hx, hlock, hfresh⟩ _ he
  obtain ⟨rfl, rfl⟩ : (((x.mem.node (S.nodeOf t)).allocator k).malloc size).1 = r ∧
      setAllocator x.mem (S.nodeOf t) k (((x.mem.node (S.nodeOf t)).allocator k).malloc size).2 = m := by
    simpa [allocMachine, setAllocator] using he
  generalize hb : (x.mem.node (S.nodeOf t)).allocator k = b
  by_cases hfit : b.logHeads = [] ∨ b.cur.offset + size > b.head.offset + kChunkSize
  · have hm : b.malloc size = ((b.cur, true), b) := by rw [LocalAllocator.malloc, if_pos hfit]
    rw [hm]
    have hself : setAllocator x.mem (S.nodeOf t) k b = x.mem := by
      rw [setAllocator, ← hb, Function.update_eq_self, State.setNode, Function.update_eq_self]
    rw [hself]
    refine ⟨x.ghost, hi.quiet (fun _ _ _ _ => Event.act_ne_ret) rfl rfl rfl (fun _ => rfl) hi.nodes fun n hn =>
      (hi.fallback n hn).append _, ⟨⟨_, rfl⟩, fun u _ => ⟨fun _ h => h, rfl, fun h => ⟨h, rfl, rfl⟩⟩⟩,
      hx.mono ⟨_, rfl⟩ hx.out, hlock, fun hf => ?_, nofun⟩
    obtain ⟨hne, hcur⟩ := hfresh hf
    rw [hb] at hne hcur
    rcases hfit with hnil | hgt
    · exact absurd hnil hne
    · rw [hcur] at hgt
      omega
  · have hm : b.malloc size =
        ((b.cur, false), { b with cur := { b.cur with offset := b.cur.offset + size } }) := by
      rw [LocalAllocator.malloc, if_neg hfit]
    rw [hm]
    rw [not_or, not_lt] at hfit
    obtain ⟨hinv, hpiece⟩ := hi.malloc t hb hfit.1 hfit.2 hx.size
      fun _ _ _ _ => Event.act_ne_ret (S := AllocSig) (t := t) (c := .malloc k size) (r := (b.cur, false))
    have hok := hi.allocator (S.nodeOf t) k (hb ▸ hfit.1)
    rw [hb] at hok
    have hcut : Owns x.ghost.own (range b.cur size) (.chunck (S.nodeOf t) k) :=
      hok.rest.mono (range_subset rfl le_rfl (by omega))
    refine ⟨_, hinv, ⟨⟨_, rfl⟩, fun u hu => leaves_of_locked hlock hu
      (fun y hy => give_eq_of_ne hy hcut nofun) rfl⟩, hx.mono ⟨_, rfl⟩ hx.out,
      (setAllocator_allocLock ..).trans hlock, fun _ => rfl, fun _ => hpiece⟩

/-- Thread `t` has got a chunk. -/
def GotChunck (S : Setup) (t : Tid) (k : Kind) (a : Gaddr) (x : AllocWorld S) : Prop :=
  ChunckAt S a ∧ k.Home S a.nodeID ∧ Owns x.ghost.own (range a kChunkSize) (.held t)

theorem gotChunck_stable : (allocDisc S).Stable t (GotChunck S t k a) :=
  fun _ _ _ hu _ _ hr h => ⟨h.1, h.2.1, fun b hb => (hr.2 t hu.symm).held b (h.2.2 b hb)⟩

theorem rpcCallDir_outline {back : Prop} (node : Nat) :
    Outline (allocDisc S) t (issue (.rpcCallDir node 0))
      (fun x => InCall S t size back x ∧ Locked S t x)
      fun _ x => InCallAt S t size back (some node) x ∧ Locked S t x := by
  refine Outline.cmd False.elim (fun _ => inCall_stable.and locked_stable) ?_
  rintro x r m hi ⟨hx, hlock⟩ _ he
  obtain rfl : x.mem.setRequests node 0 (x.mem.requests node 0 ++ [t]) = m := by
    simpa [allocMachine] using he
  exact ⟨_, hi.rpcCallDir hx.out node (fun _ _ _ _ => Event.act_ne_ret), ⟨⟨_, rfl⟩, fun u hu =>
    ⟨fun _ h => h, Function.update_of_ne hu .., fun h => ⟨h, rfl, rfl⟩⟩⟩,
    hx.mono ⟨_, rfl⟩ (Function.update_self ..), hlock⟩

theorem rpcWait_outline {back : Prop} {node : Nat} (hhome : k.Home S node) :
    Outline (allocDisc S) t (issue .rpcWait)
      (fun x => InCallAt S t size back (some node) x ∧ Locked S t x)
      fun a x => InCall S t size back x ∧ Locked S t x ∧ GotChunck S t k a x := by
  refine Outline.cmd False.elim (fun _ => inCall_stable.and (locked_stable.and gotChunck_stable)) ?_
  rintro x a m hi ⟨hx, hlock⟩ _ he
  obtain ⟨hr, rfl⟩ : x.mem.reply t = some a ∧
      { x.mem with reply := Function.update x.mem.reply t none } = m := by
    simp only [allocMachine] at he
    split at he
    · next b hb =>
      simp only [Option.some.injEq, Prod.mk.injEq] at he
      exact ⟨he.1 ▸ hb, he.2⟩
    · cases he
  obtain ⟨htar, hchunck, hown⟩ := hi.reply t a hr
  rw [hx.out] at htar
  refine ⟨_, hi.rpcWait hr (fun _ _ _ _ => Event.act_ne_ret), ⟨⟨_, rfl⟩, fun u hu =>
    ⟨fun b hb => give_eq_of_ne hb hown nofun, Function.update_of_ne hu .., fun h => ⟨h, rfl, rfl⟩⟩⟩,
    hx.mono ⟨_, rfl⟩ (Function.update_self ..), hlock, hchunck, ?_, owns_give _ _ _⟩
  rwa [← Option.some.inj htar]

theorem setChunck_outline {back : Prop} :
    Outline (allocDisc S) t (issue (.setChunck k a))
      (fun x => InCall S t size back x ∧ Locked S t x ∧ GotChunck S t k a x)
      fun _ x => InCall S t size back x ∧ Locked S t x ∧ NewChunck S t k x := by
  refine Outline.cmd False.elim (fun _ => inCall_stable.and newChunck_stable) ?_
  rintro x r m hi ⟨hx, hlock, hchunck, hhome, hown⟩ _ he
  obtain rfl : setAllocator x.mem (S.nodeOf t) k
      (((x.mem.node (S.nodeOf t)).allocator k).setChunck a) = m := by
    simpa [allocMachine, setAllocator] using he
  refine ⟨_, hi.setChunck hchunck hhome hown _ (fun _ _ _ _ => Event.act_ne_ret), ⟨⟨_, rfl⟩, fun u hu =>
    leaves_of_locked hlock hu (fun y hy => give_eq_of_ne hy hown ?_) rfl⟩, hx.mono ⟨_, rfl⟩ hx.out,
    (setAllocator_allocLock ..).trans hlock, ?_⟩
  · exact fun heq => hu (by cases heq; rfl)
  · simp [NewChunck, setAllocator_allocator, LocalAllocator.setChunck]

/-- Taking a chunk. -/
theorem takeChunck_outline {back : Prop} {node : Nat} (hhome : k.Home S node) :
    Outline (allocDisc S) t (takeChunck k node 0)
      (fun x => InCall S t size back x ∧ Locked S t x)
      fun _ x => InCall S t size back x ∧ Locked S t x ∧ NewChunck S t k x :=
  Outline.bind (rpcCallDir_outline node) fun _ =>
    Outline.bind (rpcWait_outline hhome) fun _ => setChunck_outline

theorem storeNodes_outline {back : Prop} {number v : Nat} (hv : 0 < number → v < number)
    (hk : k = .compute → number = S.computeNumber) :
    Outline (allocDisc S) t (issue (.storeNodes k v))
      (fun x => InCall S t size back x ∧ Locked S t x ∧ NewChunck S t k x)
      fun _ x => InCall S t size back x ∧ (Locked S t x ∧ NewChunck S t k x) ∧
        Locked S t x ∧ Turned S t k number x := by
  refine Outline.cmd False.elim (fun _ => inCall_stable.and (newChunck_stable.and turned_stable)) ?_
  rintro x r m hi ⟨hx, hlock, hnew⟩ _ he
  obtain rfl : x.mem.setNode (S.nodeOf t) { x.mem.node (S.nodeOf t) with
      allocNodes := Function.update (x.mem.node (S.nodeOf t)).allocNodes k v } = m := by
    simpa [allocMachine] using he
  have ha : ∀ n, ((x.mem.setNode (S.nodeOf t) { x.mem.node (S.nodeOf t) with
      allocNodes := Function.update (x.mem.node (S.nodeOf t)).allocNodes k v }).node n).allocator =
        (x.mem.node n).allocator := by
    intro n
    rw [setNode_node]
    split
    · next h => rw [h]
    · rfl
  refine ⟨x.ghost, hi.quiet (fun _ _ _ _ => Event.act_ne_ret) rfl rfl rfl ha ?_ fun n hn => ?_,
    ⟨⟨_, rfl⟩, fun u hu => ⟨fun _ h => h, rfl, fun hl => ?_⟩⟩, hx.mono ⟨_, rfl⟩ hx.out,
    ⟨?_, by rwa [NewChunck, ha]⟩, ?_, fun hn => ?_⟩
  · intro u
    rw [setNode_node]
    split
    · change NodeFits S (Function.update (x.mem.node (S.nodeOf t)).allocNodes k v .compute)
      by_cases hcomp : k = .compute
      · subst hcomp
        rw [Function.update_self]
        exact fun hpos => .inl (hk rfl ▸ hv (hk rfl ▸ hpos))
      · rw [Function.update_of_ne (Ne.symm hcomp)]
        exact hi.nodes t
    · exact hi.nodes u
  · rw [setNode_node] at hn
    split at hn
    · exact (hi.fallback _ hn).append _
    · exact (hi.fallback n hn).append _
  · have hne : S.nodeOf u ≠ S.nodeOf t := by
      intro heq
      rw [heq] at hl
      exact hu (Option.some.inj (hl.symm.trans hlock))
    rw [setNode_node, if_neg hne]
    exact ⟨hl, rfl, rfl⟩
  · simpa [Locked, setNode_node] using hlock
  · simpa [Locked, setNode_node] using hlock
  · simpa [setNode_node] using hv hn

/-- Turning to the next node. -/
theorem nextNode_outline {back : Prop} (number : Nat) (hk : k = .compute → number = S.computeNumber) :
    Outline (allocDisc S) t (nextNode k number)
      (fun x => InCall S t size back x ∧ Locked S t x ∧ NewChunck S t k x)
      fun _ x => InCall S t size back x ∧ (Locked S t x ∧ NewChunck S t k x) ∧
        Locked S t x ∧ Turned S t k number x :=
  Outline.bind (neutral_outline (c := .loadNodes k) trivial
      (fun _ => inCall_stable.and newChunck_stable)
      fun _ _ _ _ hx _ hs => ⟨hs.inCall hx.1, hs.locked hx.2.1, hs.newChunck hx.2.2⟩)
    fun _ => storeNodes_outline (Nat.mod_lt _) hk

end Commands

/-! ## Outlines of the functions -/

section Functions

/-- The target node that a thread keeps is a memory node, and the directory is the only one. -/
structure LocOk (S : Setup) (loc : AllocLoc) : Prop where
  target : ∀ n, loc.memoryTarget = some n → n < S.memoryNumber
  memoryDir : ∀ d, loc.memoryDir = some d → d = 0
  computeDir : ∀ d, loc.computeDir = some d → d = 0

/-- What a call of kind `k` is about to return. -/
def Returning (S : Setup) (t : Tid) (k : Kind) (size : Nat) (addr : Gaddr) (x : AllocWorld S) : Prop :=
  x.ghost.target t = none ∧ ∃ k' a, Holding S t k' a size x ∧ Named S x.log k k' a addr

theorem holdingCall_stable {back : Prop} :
    (allocDisc S).Stable t fun x => InCall S t size back x ∧ Holding S t k a size x :=
  inCall_stable.and holding_stable

/-- Releasing the lock with a range cut off. -/
theorem unlock_holding {back : Prop} :
    Outline (allocDisc S) t (issue .unlock)
      (fun x => (InCall S t size back x ∧ Holding S t k a size x) ∧ Locked S t x)
      fun _ x => InCall S t size back x ∧ Holding S t k a size x :=
  unlock_outline holdingCall_stable fun _ _ _ hx =>
    ⟨hx.1.mono ⟨_, rfl⟩ hx.1.out, hx.2.mono ⟨_, rfl⟩ fun _ h => h⟩

theorem dir_eq_zero {d : Option Nat} (h : ∀ n, d = some n → n = 0) (n : Nat) :
    d.getD (n % nrDirectory) = 0 := by
  cases d with
  | none => exact Nat.mod_one n
  | some d => exact h d rfl

theorem memoryTarget_outline {back : Prop} (hM : 0 < S.memoryNumber) {loc : AllocLoc}
    (hloc : LocOk S loc) :
    Outline (allocDisc S) t (memoryTarget S loc) (fun x => InCall S t size back x ∧ Locked S t x)
      fun node x => node < S.memoryNumber ∧ InCall S t size back x ∧ Locked S t x := by
  unfold memoryTarget
  cases htar : loc.memoryTarget with
  | some n => exact Outline.pure fun x _ hx => ⟨hloc.target n htar, hx⟩
  | none =>
    refine Outline.bind (neutral_outline (c := .loadNodes .memory) trivial
      (fun _ => inCall_stable.and locked_stable)
      fun _ _ _ _ hx _ hs => ⟨hs.inCall hx.1, hs.locked hx.2⟩) fun n => ?_
    exact Outline.pure fun x _ hx => ⟨Nat.mod_lt _ hM, hx⟩

theorem nextMemoryDir_outline {back : Prop} (hM : 0 < S.memoryNumber) (node : Nat) :
    Outline (allocDisc S) t (nextMemoryDir S node 0)
      (fun x => InCall S t size back x ∧ Locked S t x ∧ NewChunck S t .memory x)
      fun r x => r.1 < S.memoryNumber ∧ r.2 = 0 ∧ InCall S t size back x ∧ Locked S t x ∧
        NewChunck S t .memory x := by
  refine Outline.bind (nextNode_outline S.memoryNumber nofun) fun _ => ?_
  refine Outline.bind (neutral_outline (c := .loadNodes .memory) trivial
    (Q := fun n x => n < S.memoryNumber ∧ InCall S t size back x ∧ Locked S t x ∧
      NewChunck S t .memory x) (fun _ => .and (Discipline.stable_const _)
      (inCall_stable.and newChunck_stable)) ?_) fun n => ?_
  · rintro x n m - ⟨hx, ⟨hl, hn⟩, -, hturn⟩ he hs
    obtain ⟨rfl, -⟩ := Prod.mk.injEq .. ▸ Option.some.injEq .. ▸ he
    exact ⟨hturn hM, hs.inCall hx, hs.locked hl, hs.newChunck hn⟩
  · exact Outline.pure fun x _ hx => ⟨hx.1, rfl, hx.2⟩

theorem memoryAlloc_outline (hM : 0 < S.memoryNumber) (hsize : size ≤ kChunkSize) {loc : AllocLoc}
    (hloc : LocOk S loc) (k : Kind) :
    Outline (allocDisc S) t (memoryAlloc S t size loc) (InCall S t size (k = .compute))
      fun r x => Returning S t k size r.1 x ∧ LocOk S r.2 := by
  have hreturn : ∀ (addr : Gaddr) (node : Nat), node < S.memoryNumber →
      ∀ x, (InCall S t size (k = .compute) x ∧ Holding S t .memory addr size x) →
      Returning S t k size addr x ∧
        LocOk S { loc with memoryTarget := some node, memoryDir := some 0 } := by
    intro addr node hnode x ⟨hx, hh⟩
    refine ⟨⟨hx.out, .memory, addr, hh, rfl, rfl, hx.back⟩, ?_, ?_, hloc.computeDir⟩
    · rintro n ⟨⟩
      exact hnode
    · rintro d ⟨⟩
      rfl
  refine Outline.bind lock_outline fun _ => ?_
  refine Outline.bind (memoryTarget_outline hM hloc) fun node => ?_
  refine Outline.of_fact (φ := node < S.memoryNumber) (fun _ _ hx => hx.1) fun hnode => ?_
  simp only [dir_eq_zero hloc.memoryDir]
  refine Outline.bind ((malloc_outline hsize False).mono fun x _ hx => ⟨hx.2.1, hx.2.2, False.elim⟩)
    fun r => ?_
  obtain ⟨addr, needChunk⟩ := r
  cases needChunk with
  | false =>
    refine Outline.bind (unlock_holding.mono fun x _ hx => ⟨⟨hx.1, hx.2.2.2 rfl⟩, hx.2.1⟩) fun _ => ?_
    exact Outline.pure fun x _ hx => hreturn addr node hnode x hx
  | true =>
    refine Outline.bind ((takeChunck_outline (k := .memory) hnode).mono fun x _ hx =>
      ⟨hx.1, hx.2.1⟩) fun _ => ?_
    refine Outline.bind (nextMemoryDir_outline hM node) fun r => ?_
    obtain ⟨node', dir⟩ := r
    refine Outline.of_fact (φ := node' < S.memoryNumber ∧ dir = 0) (fun _ _ hx => ⟨hx.1, hx.2.1⟩)
      fun ⟨hnode', hdir⟩ => ?_
    subst hdir
    refine Outline.bind ((malloc_outline hsize True).mono fun x _ hx =>
      ⟨hx.2.2.1, hx.2.2.2.1, fun _ => hx.2.2.2.2⟩) fun r => ?_
    obtain ⟨addr', need⟩ := r
    refine Outline.bind (unlock_holding.mono fun x _ hx =>
      ⟨⟨hx.1, hx.2.2.2 (hx.2.2.1 trivial)⟩, hx.2.1⟩) fun _ => ?_
    exact Outline.pure fun x _ hx => hreturn addr' node' hnode' x hx

theorem computeMalloc_outline (hsize : size ≤ kChunkSize) :
    Outline (allocDisc S) t (computeMalloc S size 0)
      (fun x => InCall S t size False x ∧ Locked S t x)
      fun r x => r.2 = 0 ∧ (InCall S t size False x ∧ Holding S t .compute r.1 size x) ∧
        Locked S t x := by
  refine Outline.bind ((malloc_outline hsize False).mono fun x _ hx => ⟨hx.1, hx.2, False.elim⟩)
    fun r => ?_
  obtain ⟨addr, needChunk⟩ := r
  cases needChunk with
  | false => exact Outline.pure fun x _ hx => ⟨rfl, ⟨hx.1, hx.2.2.2 rfl⟩, hx.2.1⟩
  | true =>
    refine Outline.bind ((takeChunck_outline (k := .compute) (Nat.zero_add _)).mono fun x _ hx =>
      ⟨hx.1, hx.2.1⟩) fun _ => ?_
    refine Outline.bind (Q := fun dir x => dir = 0 ∧ InCall S t size False x ∧ Locked S t x ∧
      NewChunck S t .compute x) ?_ fun dir => ?_
    · refine Outline.bind (nextNode_outline S.computeNumber fun _ => rfl) fun _ => ?_
      exact Outline.pure fun x _ hx => ⟨rfl, hx.1, hx.2.1⟩
    · refine Outline.of_fact (φ := dir = 0) (fun _ _ hx => hx.1) fun hdir => ?_
      subst hdir
      refine Outline.bind ((malloc_outline hsize True).mono fun x _ hx =>
        ⟨hx.2.1, hx.2.2.1, fun _ => hx.2.2.2⟩) fun r => ?_
      exact Outline.pure fun x _ hx => ⟨rfl, ⟨hx.1, hx.2.2.2 (hx.2.2.1 trivial)⟩, hx.2.1⟩

theorem computeAlloc_outline (hM : 0 < S.memoryNumber) (hsize : size ≤ kChunkSize) {loc : AllocLoc}
    (hloc : LocOk S loc) :
    Outline (allocDisc S) t (computeAlloc S t size loc) (InCall S t size False)
      fun r x => Returning S t .compute size r.1 x ∧ LocOk S r.2 := by
  refine Outline.bind lock_outline fun _ => ?_
  refine Outline.bind (neutral_outline (c := .loadUseMemoryFp) trivial
    (Q := fun b x => InCall S t size (b = true) x ∧ Locked S t x)
    (fun _ => inCall_stable.and locked_stable) ?_) fun useMemoryFp => ?_
  · rintro x b m hi hx he hs
    obtain ⟨rfl, -⟩ := Prod.mk.injEq .. ▸ Option.some.injEq .. ▸ he
    have hc := hs.inCall hx.1
    exact ⟨⟨hc.out, hc.size, fun hb => (hi.fallback _ hb).append _⟩, hs.locked hx.2⟩
  cases useMemoryFp with
  | true =>
    refine Outline.bind (unlock_outline inCall_stable fun _ _ _ hx => hx.mono ⟨_, rfl⟩ hx.out)
      fun _ => ?_
    exact (memoryAlloc_outline hM hsize hloc .compute).mono fun x _ hx =>
      ⟨hx.out, hx.size, fun _ => hx.back rfl⟩
  | false =>
    simp only [dir_eq_zero hloc.computeDir]
    refine Outline.bind ((computeMalloc_outline hsize).mono fun x _ hx =>
      ⟨⟨hx.1.out, hx.1.size, False.elim⟩, hx.2⟩) fun r => ?_
    obtain ⟨addr, dir⟩ := r
    refine Outline.of_fact (φ := dir = 0) (fun _ _ hx => hx.1) fun hdir => ?_
    subst hdir
    have hloc' : LocOk S { loc with computeDir := some 0 } := by
      refine ⟨hloc.target, hloc.memoryDir, ?_⟩
      rintro d ⟨⟩
      rfl
    refine Outline.bind (unlock_holding.mono fun x _ hx => hx.2) fun _ => ?_
    refine Outline.bind (neutral_outline (c := .loadNodes .compute) trivial
      (Q := fun n x => (InCall S t size False x ∧ Holding S t .compute addr size x) ∧ NodeFits S n)
      (fun _ => holdingCall_stable.and (Discipline.stable_const _)) ?_) fun n => ?_
    · rintro x n m hi hx he hs
      obtain ⟨rfl, -⟩ := Prod.mk.injEq .. ▸ Option.some.injEq .. ▸ he
      exact ⟨⟨hs.inCall hx.1, hs.holding hx.2⟩, hi.nodes t⟩
    refine Outline.ite (fun _ => ?_) fun hoff => ?_
    · refine Outline.bind (neutral_outline (c := .setUseMemoryFp) trivial
        (Q := fun _ => InCall S t size (Kind.compute = .compute)) (fun _ => inCall_stable) ?_)
        fun _ => memoryAlloc_outline hM hsize hloc' .compute
      rintro x _ m - hx - hs
      have hc := hs.inCall hx.1.1
      exact ⟨hc.out, hc.size, fun _ => ⟨_, t, getElem?_concat_last ..⟩⟩
    · refine Outline.pure fun x _ hx => ⟨⟨hx.1.1.out, .compute, addr, hx.1.2, rfl, rfl, ?_, ?_, ?_⟩, hloc'⟩
      · exact Nat.le_add_left ..
      · exact not_le.mp hoff
      · rw [Nat.add_sub_cancel]
        exact hx.2

/-- The thread of a directory. -/
theorem serve_outline (node dir i : Nat) :
    Outline (allocDisc S) t (issue (.serve node dir i)) (fun x => x.ghost.target t = none)
      fun _ x => x.ghost.target t = none := by
  refine Outline.cmd False.elim (fun _ => fun _ _ _ hu _ _ hr h => ((hr.2 t hu.symm).target).trans h) ?_
  rintro x r m hi hx _ he
  obtain ⟨u, a, d, hu, hc, rfl⟩ : ∃ u a d, (x.mem.requests node dir)[i]? = some u ∧
      (x.mem.directory node dir).allocChunck = some (a, d) ∧
      (x.mem.setRequests node dir ((x.mem.requests node dir).eraseIdx i)).grant node dir d u a = m := by
    simp only [allocMachine] at he
    split at he
    · next u a d hu hc => exact ⟨u, a, d, hu, hc, by simpa using he⟩
    · cases he
  obtain ⟨rfl, -⟩ := (hi.requests node dir).2 u (List.mem_of_getElem? hu)
  have hown := (hi.allocChunck hc).2.2
  exact ⟨_, hi.serve hu hc (fun _ _ _ _ => Event.act_ne_ret), ⟨⟨_, rfl⟩, fun v _ =>
    ⟨fun b hb => give_eq_of_ne hb hown nofun, rfl, fun h => ⟨h, rfl, rfl⟩⟩⟩, hx⟩

end Functions

/-! ## Runs -/

/-- What a thread is about to return. -/
def AllocReturns (S : Setup) (t : Tid) (op : AllocOp) (res : Option Gaddr) (x : AllocWorld S) : Prop :=
  match op, res with
  | .alloc k size, some addr => Returning S t k size addr x
  | .serve _ _ _, none => x.ghost.target t = none
  | _, _ => False

theorem target_stable {o : Option Nat} : (allocDisc S).Stable t fun x => x.ghost.target t = o :=
  fun _ _ _ hu _ _ hr h => (hr.2 t hu.symm).target.trans h

/-- What a thread knows when a call starts. -/
def Called (S : Setup) (t : Tid) (op : AllocOp) (x : AllocWorld S) : Prop :=
  match op with
  | .alloc _ size => InCall S t size False x
  | .serve _ _ _ => x.ghost.target t = none

theorem alloc_keeps (hM : 0 < S.memoryNumber) :
    Keeps (allocDisc S) (fun t loc x => x.ghost.target t = none ∧ LocOk S loc)
      (fun t op loc x => Called S t op x ∧ LocOk S loc)
      (fun t op res loc x => AllocReturns S t op res x ∧ LocOk S loc) where
  idle_stable _ _ := target_stable.and (Discipline.stable_const _)
  pre_stable t op _ := by
    refine .and ?_ (Discipline.stable_const _)
    cases op with
    | alloc k size => exact inCall_stable
    | serve node dir i => exact target_stable
  call := by
    rintro t op loc x hg hi ⟨hx, hloc⟩
    refine ⟨x.ghost, hi.quiet (fun _ _ _ _ => nofun) rfl rfl rfl (fun _ => rfl) hi.nodes
      fun n hn => (hi.fallback n hn).append _, ⟨⟨_, rfl⟩, fun u _ =>
        ⟨fun _ h => h, rfl, fun h => ⟨h, rfl, rfl⟩⟩⟩, ?_, hloc⟩
    cases op with
    | alloc k size =>
      exact ⟨hx, fun ha => ha _ _ _ _ (getElem?_concat_last ..), False.elim⟩
    | serve node dir i => exact hx
  code := by
    intro t op loc hg
    refine Outline.of_fact (φ := LocOk S loc) (fun _ _ hx => hx.2) fun hloc => ?_
    rcases op with ⟨_ | _, size⟩ | ⟨node, dir, i⟩
    · refine Outline.bind ((memoryAlloc_outline hM hg.2 hloc .memory).mono fun x _ hx =>
        ⟨hx.1.out, hx.1.size, nofun⟩) fun r => ?_
      exact Outline.pure fun x _ hx => hx
    · refine Outline.bind ((computeAlloc_outline hM hg.2 hloc).mono fun x _ hx => hx.1) fun r => ?_
      exact Outline.pure fun x _ hx => hx
    · refine Outline.bind ((serve_outline node dir i).mono fun x _ hx => hx.1) fun _ => ?_
      exact Outline.pure fun x _ hx => ⟨hx, hloc⟩
  ret := by
    rintro t op res loc x hi ⟨hx, hloc⟩
    rcases op with ⟨k, size⟩ | ⟨node, dir, i⟩ <;> rcases res with _ | addr
    · exact hx.elim
    · obtain ⟨hout, k', a, hp, hn⟩ := hx
      exact ⟨_, hi.ret hp hn, ⟨⟨_, rfl⟩, fun u hu => ⟨fun b hb => give_eq_of_ne hb hp.owns
        fun heq => hu (by cases heq; rfl), rfl, fun h => ⟨h, rfl, rfl⟩⟩⟩, hout, hloc⟩
    · exact ⟨x.ghost, hi.quiet (fun _ _ _ _ => nofun) rfl rfl rfl (fun _ => rfl) hi.nodes
        fun n hn => (hi.fallback n hn).append _, ⟨⟨_, rfl⟩, fun u _ =>
          ⟨fun _ h => h, rfl, fun h => ⟨h, rfl, rfl⟩⟩⟩, hx, hloc⟩
    · exact hx.elim

/-- Returned ranges with different owners are disjoint: ranges of one kind keep their offsets, and only
those from compute nodes get the name of a compute node. -/
theorem named_disjoint {k₁ k₂ k₁' k₂' : Kind} {a b a' b' : Gaddr} {size' : Nat} {o o' : Owner}
    (hp : Piece S l own k₁' a size o) (hp' : Piece S l own k₂' b size' o')
    (hn : Named S l k₁ k₁' a a') (hn' : Named S l k₂ k₂' b b') (ho : o ≠ o') :
    Disjoint (range a' size) (range b' size') := by
  have hraw : a.nodeID = b.nodeID → ∀ n, ¬ ((a.offset ≤ n ∧ n < a.offset + size) ∧
      b.offset ≤ n ∧ n < b.offset + size') := by
    rintro hnode n ⟨h1, h2⟩
    refine ho ((hp.owns (a.nodeID, n) ⟨rfl, h1⟩).symm.trans ?_)
    exact hp'.owns (a.nodeID, n) ⟨hnode, h2⟩
  rw [Set.disjoint_left]
  rintro ⟨n, m⟩ ⟨hx, hx'⟩ ⟨hy, hy'⟩
  obtain ⟨hoff, hn⟩ := hn
  obtain ⟨hoff', hn'⟩ := hn'
  rw [hoff] at hx'
  rw [hoff'] at hy'
  refine hraw ?_ m ⟨hx', hy'⟩
  have hhome := hp.home
  have hhome' := hp'.home
  rcases k₁' with _ | _ <;> rcases k₂' with _ | _ <;> simp only [Kind.Home] at hhome hhome' hn hn' <;>
    omega

theorem allocInit_inv (S : Setup) (nodes : Nat → Nat) :
    AllocInv S (State.init S nodes) [] ⟨fun _ => .free, fun _ => none⟩ where
  directory n := ⟨by simp [State.init, Setup.chunckAlloc, GlobalAllocator.new],
    by simp [State.init, Setup.chunckAlloc, GlobalAllocator.new, nrDirectory], le_rfl⟩
  free _ _ _ := rfl
  requests _ _ := ⟨List.nodup_nil, nofun⟩
  reply _ _ h := nomatch h
  allocator _ _ h := absurd rfl h
  fallback _ h := nomatch h
  returned _ _ _ _ _ h := nomatch h
  nodes t _ := .inr ⟨t, rfl⟩

/-- The invariant holds along every run. -/
theorem reach_allocInv (hM : 0 < S.memoryNumber) {nodes : Nat → Nat} {c : AllocConfig S}
    (h : Reach (allocMachine S) (sizesFit S) (allocInit S nodes) c) :
    ∃ g, AllocInv S c.mem c.log g := by
  have h0 : ConfigOk (allocDisc S) (fun t loc x => x.ghost.target t = none ∧ LocOk S loc)
      (fun t op res loc x => AllocReturns S t op res x ∧ LocOk S loc) (allocInit S nodes) :=
    ⟨⟨fun _ => .free, fun _ => none⟩, allocInit_inv S nodes, fun t => ⟨rfl, nofun, nofun, nofun⟩⟩
  obtain ⟨g, hinv, -⟩ := (alloc_keeps hM).reach h0 h
  exact ⟨g, hinv⟩

/-- The addresses that calls return have room in a `Gaddr`. -/
theorem addresses_fit (hM : 0 < S.memoryNumber) (hS : S.Addressable) {nodes : Nat → Nat}
    {c : AllocConfig S} (h : Reach (allocMachine S) (sizesFit S) (allocInit S nodes) c) {i : Nat}
    {addr : Gaddr} (hi : c.log[i]? = some (.ret t (.alloc k size) (some addr))) :
    addr.nodeID < 2 ^ 16 ∧ addr.offset + size ≤ 2 ^ 48 := by
  obtain ⟨g, hinv⟩ := reach_allocInv hM h
  obtain ⟨k', a, hp, hoff, hn⟩ := hinv.returned i t k size addr hi
  have hnodes := hS.nodes
  refine ⟨?_, hoff ▸ hp.high.trans (hS.dsmSize _)⟩
  cases k' with
  | memory =>
    have hhome : a.nodeID < S.memoryNumber := hp.home
    rw [hn.1]
    omega
  | compute =>
    rcases hn.2.2.2 hS.computeNumber with hlt | ⟨u, hu⟩
    · omega
    · have hnode := hS.nodeOf u
      omega

/-- A call that has returned an address. -/
structure Returned where
  t : Tid
  kind : Kind
  size : Nat
  addr : Gaddr
  deriving DecidableEq

/-- The call that the event is the return of. -/
def returnOf : Event AllocSig AllocOp (Option Gaddr) → Option Returned
  | .ret t (.alloc k size) (some addr) => some ⟨t, k, size, addr⟩
  | _ => none

theorem eq_of_returnOf {ev : Event AllocSig AllocOp (Option Gaddr)}
    (h : returnOf ev = some ⟨t, k, size, a⟩) : ev = .ret t (.alloc k size) (some a) := by
  unfold returnOf at h
  split at h
  · cases h
    rfl
  · cases h

end DMTree.RemoteAlloc
