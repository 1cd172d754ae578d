import DMTree.Conc.Exec
import DMTree.KVConfig

/-!
# Remote allocation

`LocalAllocator`, `DMVerbs::memory_alloc` and `DMVerbs::compute_alloc` of `DMVerbs.h` and the chunk
allocator of `Directory.h`. A compute node takes chunks from the directories of other nodes and cuts
them up itself: `memory_alloc` from the memory nodes in turn, `compute_alloc` from the first compute
node, whatever node it then names as the primary.

Threads belong to compute nodes and share the allocators of their node. The commands are the accesses
to what threads share and the two halves of a remote call; `serve` is the thread of a directory. The
target node that `compute_alloc` keeps but does not use is left out, and so is what `free` does, which
is nothing.
-/

namespace DMTree.RemoteAlloc

open Conc

/-! ## Constants -/

/-- `define::MB` -/
def MB : Nat := 1024 * 1024

/-- `define::GB` -/
def GB : Nat := 1024 * MB

/-- `define::kChunkSize` -/
def kChunkSize : Nat := 32 * MB

/-- `NR_DIRECTORY` -/
def nrDirectory : Nat := 1

/-- `define::kLeafCacheSize`, in MB -/
def kLeafCacheSize : Nat := 1024 * 8 / 2

/-- The configuration all nodes share, with the memory of each node. The nodes `0 .. memoryNumber - 1`
are the memory nodes. -/
structure Setup where
  /-- `MemoryNumber` -/
  memoryNumber : Nat
  /-- `ComputeNumber` -/
  computeNumber : Nat
  /-- The size of the memory of each node, in bytes. -/
  dsmSize : Nat → Nat
  /-- The node of a thread. -/
  nodeOf : Tid → Nat

/-- What the fields of a `Gaddr` have room for: 48 bits of offset and 16 bits of node. The counter of
`compute_alloc` starts at the number of the own node, to which it adds `MemoryNumber`. -/
structure Setup.Addressable (S : Setup) : Prop where
  dsmSize : ∀ n, S.dsmSize n ≤ 2 ^ 48
  computeNumber : 0 < S.computeNumber
  nodes : S.memoryNumber + S.computeNumber + S.memoryNumber ≤ 2 ^ 16
  nodeOf : ∀ t, S.nodeOf t < S.memoryNumber + S.computeNumber

/-! ## Allocators -/

/-- `LocalAllocator` -/
structure LocalAllocator where
  head : Gaddr := Gaddr.Null
  cur : Gaddr := Gaddr.Null
  logHeads : List Gaddr := []

/-- `LocalAllocator::malloc`: the address and `need_chunck` -/
def LocalAllocator.malloc (a : LocalAllocator) (size : Nat) : (Gaddr × Bool) × LocalAllocator :=
  if a.logHeads = [] ∨ a.cur.offset + size > a.head.offset + kChunkSize then ((a.cur, true), a)
  else ((a.cur, false), { a with cur := { a.cur with offset := a.cur.offset + size } })

/-- `LocalAllocator::set_chunck` -/
def LocalAllocator.setChunck (a : LocalAllocator) (addr : Gaddr) : LocalAllocator :=
  ⟨addr, addr, a.logHeads ++ [addr]⟩

/-- `GlobalAllocator` -/
structure GlobalAllocator where
  start : Gaddr
  bitmapLen : Nat
  bitmap : Nat → Bool
  bitmapTail : Nat

/-- The constructor of `GlobalAllocator`. -/
def GlobalAllocator.new (start : Gaddr) (size : Nat) : GlobalAllocator :=
  ⟨start, size / kChunkSize, fun i => i == 0, 1⟩

/-- `GlobalAllocator::alloc_chunck`: `none` when one of its assertions fails. -/
def GlobalAllocator.allocChunck (a : GlobalAllocator) : Option (Gaddr × GlobalAllocator) :=
  if a.bitmapTail ≥ a.bitmapLen then none
  else if a.bitmap a.bitmapTail = false then
    some ({ a.start with offset := a.start.offset + a.bitmapTail * kChunkSize },
      { a with bitmap := Function.update a.bitmap a.bitmapTail true, bitmapTail := a.bitmapTail + 1 })
  else none

/-- The chunk allocator of directory `dirID` of a node, as its constructor makes it. -/
def Setup.chunckAlloc (S : Setup) (nodeID dirID : Nat) : GlobalAllocator :=
  let perDirectoryDsmSize := S.dsmSize nodeID / nrDirectory
  .new ⟨nodeID, perDirectoryDsmSize * dirID⟩ perDirectoryDsmSize

/-! ## State and commands -/

/-- The two kinds of nodes memory is allocated from. -/
inductive Kind where
  | memory
  | compute
  deriving DecidableEq

/-- What the threads of a compute node share. -/
structure NodeState where
  /-- `alloc_lock` -/
  allocLock : Option Tid
  /-- `use_memory_fp` -/
  useMemoryFp : Bool
  /-- `alloc_memory_nodes`, `alloc_compute_nodes` -/
  allocNodes : Kind → Nat
  /-- `local_memory_allocator`, `local_compute_allocator` -/
  allocator : Kind → LocalAllocator

/-- The nodes, the directories, and the messages between them. -/
structure State where
  node : Nat → NodeState
  /-- The chunk allocator of each directory. -/
  directory : Nat → Nat → GlobalAllocator
  /-- The requests a directory has not served. -/
  requests : Nat → Nat → List Tid
  /-- The reply that a thread has not taken. -/
  reply : Tid → Option Gaddr

/-- The accesses to shared variables, remote calls, and the directories. -/
inductive AllocCmd where
  | lock
  | unlock
  | loadUseMemoryFp
  /-- `use_memory_fp = true` -/
  | setUseMemoryFp
  | loadNodes (k : Kind)
  | storeNodes (k : Kind) (n : Nat)
  | malloc (k : Kind) (size : Nat)
  | setChunck (k : Kind) (addr : Gaddr)
  /-- `rpc_call_dir` with `RpcType::MALLOC` -/
  | rpcCallDir (node dir : Nat)
  /-- `rpc_wait` -/
  | rpcWait
  /-- `Directory::process_message`, for the `i`-th request that has arrived -/
  | serve (node dir i : Nat)
  deriving DecidableEq

/-- The answers. -/
@[reducible] def AllocCmd.Resp : AllocCmd → Type
  | lock => Unit
  | unlock => Unit
  | loadUseMemoryFp => Bool
  | setUseMemoryFp => Unit
  | loadNodes _ => Nat
  | storeNodes _ _ => Unit
  | malloc _ _ => Gaddr × Bool
  | setChunck _ _ => Unit
  | rpcCallDir _ _ => Unit
  | rpcWait => Gaddr
  | serve _ _ _ => Unit

/-- The language of the threads. -/
abbrev AllocSig : Sig := ⟨AllocCmd, AllocCmd.Resp, Empty⟩

/-- The node `n` is changed. -/
def State.setNode (m : State) (n : Nat) (s : NodeState) : State :=
  { m with node := Function.update m.node n s }

/-- The requests to directory `dir` of a node are changed. -/
def State.setRequests (m : State) (node dir : Nat) (ts : List Tid) : State :=
  { m with requests := Function.update m.requests node (Function.update (m.requests node) dir ts) }

/-- Directory `dir` of a node serves a request of thread `u`: the chunk is the reply. -/
def State.grant (m : State) (node dir : Nat) (d : GlobalAllocator) (u : Tid) (addr : Gaddr) : State :=
  { m with
    directory := Function.update m.directory node (Function.update (m.directory node) dir d)
    reply := Function.update m.reply u (some addr) }

/-- The meaning of the commands. A directory that has no chunk left stops, and with it the run. -/
def allocMachine (S : Setup) : Machine AllocSig State where
  exec t c m :=
    let n := S.nodeOf t
    let s := m.node n
    match c with
    | .lock =>
      if s.allocLock = none then some ((), m.setNode n { s with allocLock := some t }) else none
    | .unlock => some ((), m.setNode n { s with allocLock := none })
    | .loadUseMemoryFp => some (s.useMemoryFp, m)
    | .setUseMemoryFp => some ((), m.setNode n { s with useMemoryFp := true })
    | .loadNodes k => some (s.allocNodes k, m)
    | .storeNodes k v =>
      some ((), m.setNode n { s with allocNodes := Function.update s.allocNodes k v })
    | .malloc k size =>
      some (((s.allocator k).malloc size).1, m.setNode n
        { s with allocator := Function.update s.allocator k ((s.allocator k).malloc size).2 })
    | .setChunck k addr =>
      some ((), m.setNode n
        { s with allocator := Function.update s.allocator k ((s.allocator k).setChunck addr) })
    | .rpcCallDir node dir => some ((), m.setRequests node dir (m.requests node dir ++ [t]))
    | .rpcWait =>
      match m.reply t with
      | some addr => some (addr, { m with reply := Function.update m.reply t none })
      | none => none
    | .serve node dir i =>
      match (m.requests node dir)[i]?, (m.directory node dir).allocChunck with
      | some u, some (addr, d) =>
        some ((), (m.setRequests node dir ((m.requests node dir).eraseIdx i)).grant node dir d u addr)
      | _, _ => none

/-! ## The functions -/

/-- A single command. -/
def issue (c : AllocCmd) : Prog AllocSig c.Resp := Prog.cmd (S := AllocSig) c

/-- The `thread_local` variables of the two functions, `none` before they are initialised. -/
structure AllocLoc where
  /-- `next_target_node` of `memory_alloc` -/
  memoryTarget : Option Nat := none
  /-- `next_target_dir_id` of `memory_alloc` -/
  memoryDir : Option Nat := none
  /-- `next_target_dir_id` of `compute_alloc` -/
  computeDir : Option Nat := none

/-- Take a chunk from a directory. -/
def takeChunck (k : Kind) (node dir : Nat) : Prog AllocSig Unit := do
  issue (.rpcCallDir node dir)
  let addr ← issue .rpcWait
  issue (.setChunck k addr)

/-- `alloc_memory_nodes = (alloc_memory_nodes + 1) % conf.MemoryNumber`, and likewise for the compute
nodes. -/
def nextNode (k : Kind) (number : Nat) : Prog AllocSig Unit := do
  let n ← issue (.loadNodes k)
  issue (.storeNodes k ((n + 1) % number))

/-- `next_target_node` of `memory_alloc`, initialised at the first call of a thread. -/
def memoryTarget (S : Setup) (loc : AllocLoc) : Prog AllocSig Nat :=
  match loc.memoryTarget with
  | some n => pure n
  | none => do
    let n ← issue (.loadNodes .memory)
    pure (n % S.memoryNumber)

/-- The next directory of `memory_alloc`, and its node. -/
def nextMemoryDir (S : Setup) (nextTargetNode nextTargetDirId : Nat) : Prog AllocSig (Nat × Nat) := do
  if nextTargetDirId + 1 = nrDirectory then
    nextNode .memory S.memoryNumber
    let n ← issue (.loadNodes .memory)
    return (n, 0)
  else
    return (nextTargetNode, nextTargetDirId + 1)

/-- The next directory of `compute_alloc`. -/
def nextComputeDir (S : Setup) (nextTargetDirId : Nat) : Prog AllocSig Nat := do
  if nextTargetDirId + 1 = nrDirectory then
    nextNode .compute S.computeNumber
    return 0
  else
    return nextTargetDirId + 1

/-- `DMVerbs::memory_alloc` -/
def memoryAlloc (S : Setup) (t : Tid) (size : Nat) (loc : AllocLoc) :
    Prog AllocSig (Gaddr × AllocLoc) := do
  issue .lock
  let node ← memoryTarget S loc
  let dir := loc.memoryDir.getD ((t + S.nodeOf t) % nrDirectory)
  let (addr, needChunk) ← issue (.malloc .memory size)
  if needChunk then
    takeChunck .memory node dir
    let (node, dir) ← nextMemoryDir S node dir
    let (addr, _) ← issue (.malloc .memory size)
    issue .unlock
    return (addr, { loc with memoryTarget := some node, memoryDir := some dir })
  else
    issue .unlock
    return (addr, { loc with memoryTarget := some node, memoryDir := some dir })

/-- The part of `compute_alloc` that cuts off a range, after the test of `use_memory_fp`: the address
and the next directory. -/
def computeMalloc (S : Setup) (size dir : Nat) : Prog AllocSig (Gaddr × Nat) := do
  let (addr, needChunk) ← issue (.malloc .compute size)
  if needChunk then
    takeChunck .compute (0 + S.memoryNumber) dir
    let dir ← nextComputeDir S dir
    let (addr, _) ← issue (.malloc .compute size)
    return (addr, dir)
  else
    return (addr, dir)

/-- `DMVerbs::compute_alloc` -/
def computeAlloc (S : Setup) (t : Tid) (size : Nat) (loc : AllocLoc) :
    Prog AllocSig (Gaddr × AllocLoc) := do
  issue .lock
  let useMemoryFp ← issue .loadUseMemoryFp
  if useMemoryFp then
    issue .unlock
    memoryAlloc S t size loc
  else
    let (addr, dir) ← computeMalloc S size (loc.computeDir.getD ((t + S.nodeOf t) % nrDirectory))
    let loc := { loc with computeDir := some dir }
    issue .unlock
    let n ← issue (.loadNodes .compute)
    let addr : Gaddr := { addr with nodeID := n + S.memoryNumber }
    if addr.offset ≥ (kLeafCacheSize - 1) * MB then
      issue .setUseMemoryFp
      memoryAlloc S t size loc
    else
      return (addr, loc)

/-! ## The threads -/

/-- The calls: those of the compute nodes, and the steps of the directories. -/
inductive AllocOp where
  | alloc (k : Kind) (size : Nat)
  | serve (node dir i : Nat)
  deriving DecidableEq

/-- The threads of the compute nodes and of the directories, which return no address. -/
abbrev allocClient (S : Setup) : Client AllocSig where
  Op := AllocOp
  Res := Option Gaddr
  Loc := AllocLoc
  code t op loc :=
    match op with
    | .alloc .memory size => do
      let (addr, loc) ← memoryAlloc S t size loc
      return (some addr, loc)
    | .alloc .compute size => do
      let (addr, loc) ← computeAlloc S t size loc
      return (some addr, loc)
    | .serve node dir i => do
      issue (.serve node dir i)
      return (none, loc)

/-- Sizes are positive and at most that of a chunk. -/
def sizesFit (S : Setup) : Guard (allocClient S) State where
  call _ op :=
    match op with
    | .alloc _ size => 0 < size ∧ size ≤ kChunkSize
    | .serve _ _ _ => True
  act _ _ _ _ := True

/-- Configurations of the threads. -/
abbrev AllocConfig (S : Setup) := Config (allocClient S) State

/-- Histories. -/
abbrev AllocLog (S : Setup) := Log (allocClient S)

/-- The state after the constructors; what `alloc_memory_nodes` starts with is not defined. -/
def State.init (S : Setup) (allocMemoryNodes : Nat → Nat) : State where
  node n :=
    { allocLock := none
      useMemoryFp := false
      allocNodes := fun k => match k with
        | .memory => allocMemoryNodes n
        | .compute => n
      allocator := fun _ => {} }
  directory := S.chunckAlloc
  requests _ _ := []
  reply _ := none

/-- No call has been made. -/
def allocInit (S : Setup) (allocMemoryNodes : Nat → Nat) : AllocConfig S :=
  ⟨State.init S allocMemoryNodes, [], fun _ => .idle {}⟩

/-! ## What is to hold -/

/-- The bytes of the range of `size` bytes at `a`: pairs of a node and an offset. -/
def range (a : Gaddr) (size : Nat) : Set (Nat × Nat) :=
  { b | b.1 = a.nodeID ∧ a.offset ≤ b.2 ∧ b.2 < a.offset + size }

/-- All sizes that calls ask for are multiples of 8. -/
def SizesAligned {S : Setup} (l : AllocLog S) : Prop :=
  ∀ (i : Nat) t k size, l[i]? = some (.call t (.alloc k size)) → 8 ∣ size

/-- `compute_alloc` has fallen back to memory nodes somewhere. -/
def FallenBack {S : Setup} (l : AllocLog S) : Prop :=
  ∃ (i : Nat) (t : Tid), l[i]? = some (.act t .setUseMemoryFp ())

/-- The size of a fingerprint table of `capacity` entries (`FPTable::get_size`). -/
def fpTableSize (capacity : Nat) : Nat := capacity + 8 * 3

/-- The bytes of the memory of the own node that `leaf_search` copies, as offsets. -/
def localRead (fpAddr : Gaddr) : Set Nat := Set.Ico fpAddr.offset (fpAddr.offset + 64)

/-- The bytes of the memory of its node `me` that `leaf_search` may overwrite with the remote table of
`size` bytes, as offsets. -/
def localWrite (me : Nat) (fpAddr : Gaddr) (size : Nat) : Set Nat :=
  if fpAddr.nodeID ≠ me ∧ fpAddr.nodeID ≠ 0 then Set.Ico fpAddr.offset (fpAddr.offset + size) else ∅

end DMTree.RemoteAlloc
