import DMTree.RemoteAlloc
import DMTree.SkipVector.SlabAllocator

/-!
# The layout of memory node 0

A memory node of a SkipVectorDM deployment holds the three pools of `skipvector/Config.h`, the chunks
that its directory hands out to the tree, the pointer to the root of the tree, and the word that
`update_root` locks. The constants come from `skipvector/Config.h` and `RdmaConfig.h`; the directory
reserves chunks for the pools in its constructor.
-/

namespace DMTree.SkipVector

open RemoteAlloc (MB kChunkSize GlobalAllocator)

/-! ## Constants -/

def kLeafHandleSize : Nat := 8
def kLeafContentSize : Nat := 1152
def kIndexNodeSize : Nat := 1152

def kSlabHandleBytes : Nat := 256 * MB
def kSlabLeafBytes : Nat := 512 * MB
def kSlabIndexBytes : Nat := 512 * MB
def kSkipVectorRegionBytes : Nat := kSlabHandleBytes + kSlabLeafBytes + kSlabIndexBytes

def kSkipVectorRegionBase : Nat := 0
def kHandlePoolBase : Nat := kSkipVectorRegionBase
def kLeafPoolBase : Nat := kHandlePoolBase + kSlabHandleBytes
def kIndexPoolBase : Nat := kLeafPoolBase + kSlabLeafBytes

def kNumHandleSlots : Nat := kSlabHandleBytes / kLeafHandleSize
def kNumLeafSlots : Nat := kSlabLeafBytes / kLeafContentSize
def kNumIndexSlots : Nat := kSlabIndexBytes / kIndexNodeSize

/-- The slot of the handle of the head leaf. -/
def kHeadLeafHandleOffset : Nat := kHandlePoolBase

/-- `define::kRootPointerStoreOffest` -/
def kRootPointerStoreOffest : Nat := kChunkSize / 2

/-- `define::kLockStartAddr` -/
def kLockStartAddr : Nat := 0

/-! ## Pools and directory -/

/-- The pools of `SlabPools`. -/
inductive Pool where
  | handles
  | leaves
  | indices
  deriving DecidableEq

/-- The constructor of `SlabPools`. -/
def Pool.new : Pool → Option SlabAllocator
  | .handles => SlabAllocator.new kHandlePoolBase kLeafHandleSize kNumHandleSlots 1
  | .leaves => SlabAllocator.new kLeafPoolBase kLeafContentSize kNumLeafSlots 0
  | .indices => SlabAllocator.new kIndexPoolBase kIndexNodeSize kNumIndexSlots 0

/-- Take `n` chunks and forget them. -/
def burn : Nat → GlobalAllocator → Option GlobalAllocator
  | 0, a => some a
  | n + 1, a => do
    let (_, a) ← a.allocChunck
    burn n a

/-- The chunk allocator of directory 0 of node 0, as the constructor of `Directory` leaves it. -/
def newChunckAlloc (dsmSize : Nat) : Option GlobalAllocator :=
  let nChunks := (kSkipVectorRegionBytes + kChunkSize - 1) / kChunkSize
  burn nChunks (.new ⟨0, 0⟩ dsmSize)

/-- The allocators, with the slots and chunks they have handed out. -/
structure Region where
  pool : Pool → SlabAllocator
  chunckAlloc : GlobalAllocator
  /-- The offsets that `alloc` has returned and that have not been freed. -/
  live : Pool → List Nat
  /-- The offsets of the chunks that have been handed out. -/
  chuncks : List Nat

/-- The region after the constructors. -/
def Region.init (dsmSize : Nat) : Option Region := do
  let handles ← Pool.handles.new
  let leaves ← Pool.leaves.new
  let indices ← Pool.indices.new
  let chunckAlloc ← newChunckAlloc dsmSize
  let pool : Pool → SlabAllocator
    | .handles => handles
    | .leaves => leaves
    | .indices => indices
  return { pool := pool, chunckAlloc := chunckAlloc, live := fun _ => [], chuncks := [] }

/-- The calls of the allocators. -/
inductive RegionCall where
  | alloc (p : Pool)
  | free (p : Pool) (offset : Nat)
  | allocChunck
  deriving DecidableEq

/-- One call: `none` when an assertion fails. -/
def Region.step (r : Region) : RegionCall → Option Region
  | .alloc p => do
    let (offset, a) ← (r.pool p).alloc
    let live := if offset = kBad then r.live p else offset :: r.live p
    return { r with pool := Function.update r.pool p a, live := Function.update r.live p live }
  | .free p offset => do
    let a ← (r.pool p).free offset
    let live := (r.live p).erase offset
    return { r with pool := Function.update r.pool p a, live := Function.update r.live p live }
  | .allocChunck => do
    let (addr, a) ← r.chunckAlloc.allocChunck
    return { r with chunckAlloc := a, chuncks := addr.offset :: r.chuncks }

/-- The regions that sequences of calls lead to. -/
def Region.Reach (r r' : Region) : Prop :=
  Relation.ReflTransGen (fun r r' => ∃ call, r.step call = some r') r r'

/-! ## What is to hold -/

/-- What lies in the memory of node 0. -/
inductive Item where
  | slot (p : Pool) (offset : Nat)
  | headLeafHandle
  | chunck (offset : Nat)
  | rootPointer
  | rootLock
  deriving DecidableEq

/-- The size of the slots of a pool. -/
def Pool.slotSize : Pool → Nat
  | .handles => kLeafHandleSize
  | .leaves => kLeafContentSize
  | .indices => kIndexNodeSize

/-- The bytes of an item, as offsets. -/
def Item.bytes : Item → Set Nat
  | .slot p offset => Set.Ico offset (offset + p.slotSize)
  | .headLeafHandle => Set.Ico kHeadLeafHandleOffset (kHeadLeafHandleOffset + kLeafHandleSize)
  | .chunck offset => Set.Ico offset (offset + kChunkSize)
  | .rootPointer => Set.Ico kRootPointerStoreOffest (kRootPointerStoreOffest + 8)
  | .rootLock => Set.Ico kLockStartAddr (kLockStartAddr + 8)

/-- Everything that lies in the memory of node 0. -/
def Region.items (r : Region) : List Item :=
  [.rootLock, .rootPointer, .headLeafHandle] ++ r.chuncks.map .chunck ++
    (r.live .handles).map (.slot .handles) ++ (r.live .leaves).map (.slot .leaves) ++
    (r.live .indices).map (.slot .indices)

/-- The items that share bytes: the lock of the root with the handle of the head leaf, and the pointer to
the root with a slot of the handle pool. -/
def Item.Clash (x y : Item) : Prop :=
  (x, y) = (.rootLock, .headLeafHandle) ∨ (x, y) = (.headLeafHandle, .rootLock) ∨
  (x, y) = (.rootPointer, .slot .handles kRootPointerStoreOffest) ∨
  (x, y) = (.slot .handles kRootPointerStoreOffest, .rootPointer)

end DMTree.SkipVector
