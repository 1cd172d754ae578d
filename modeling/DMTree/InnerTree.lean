import DMTree.KVConfig

/-!
# Inner nodes

`InnerTree.h`. An inner node is an array of records, each of which leads to a child (an inner node,
or a leaf with its fingerprint table). The valid records come first; the others keep stale contents.
-/

namespace DMTree

/-- `InnerNodeCapacity` -/
def innerNodeCapacity : Nat := 32

/-- `Record`. The version has 56 bits in the source; that it wraps is not modelled. -/
structure Record where
  valid : Bool := false
  version : Nat := 0
  key : Key := KeyNull
  addr : Gaddr := .Null
  fpAddr : Gaddr := .Null
  capacity : Nat := 0
  deriving DecidableEq

/-- `Record(k, a, f_a, c, v)` -/
def Record.make (k : Key) (a fa : Gaddr) (c v : Nat) : Record := ⟨true, v, k, a, fa, c⟩

/-- The copy constructor: a copy is valid. -/
def Record.copy (r : Record) : Record := { r with valid := true }

/-- `valid = 0` -/
def Record.drop (r : Record) : Record := { r with valid := false }

/-- `InnerHeader`. Its constructor leaves `right_addr` uninitialised. -/
structure InnerHeader where
  maxKey : Key := KeyMax
  minKey : Key := KeyNull
  rightAddr : Gaddr
  isRoot : Bool := false
  nextIsLeaf : Bool := false
  deriving DecidableEq

/-- The hash functions of the source. They are fixed; nothing is assumed about their values. -/
structure Hashes where
  /-- `CityHash32` over the header and the records of an inner node -/
  node : InnerHeader → List Record → UInt32
  /-- `CityHash32` over the version and the fingerprints of a table -/
  table : Nat → List UInt8 → UInt32
  /-- `FNVHash64(MurmurHash3_x86_32(key)) % UINT32_MAX` -/
  key : Key → UInt32

/-- `InnerNode` -/
structure InnerNode where
  hdr : InnerHeader
  record : List Record
  crc : UInt32 := 0
  lock : Bool := false
  deriving DecidableEq

namespace InnerNode

variable (H : Hashes) (n : InnerNode)

/-- `set_consistent` -/
def setConsistent : InnerNode := { n with crc := H.node n.hdr n.record }

/-- `check_consistent` -/
def checkConsistent : Bool := n.crc == H.node n.hdr n.record

/-- `check_hdr` -/
def checkHdr (k : Key) : Bool := decide (n.hdr.maxKey > k) && decide (n.hdr.minKey ≤ k)

/-- `set_hdr` -/
def setHdr (h : InnerHeader) : InnerNode := { n with hdr := h }.setConsistent H

/-- `unlock` -/
def unlock : InnerNode := { n with lock := false }

/-- `sort_node`: the first `count` records are sorted, where `count` is the number of valid ones. -/
def sortNode : InnerNode :=
  let count := n.record.countP (·.valid)
  { n with record :=
      (n.record.take count).insertionSort (fun a b => a.key ≤ b.key) ++ n.record.drop count }

/-- `search`: the record before the first one that is invalid or has a greater key. When there is
none the source reads in front of the array; `under` is what it finds there. -/
def search (under : InnerHeader → Record) (k : Key) : Record :=
  ((n.record.takeWhile fun r => r.valid && decide (r.key ≤ k)).getLast?).getD (under n.hdr)

/-- `insert`: `none` when the node has no room. -/
def insert (r : Record) : Option InnerNode :=
  match n.record.findIdx? fun s => !s.valid || s.key == r.key with
  | none => none
  | some i =>
    if (n.record[i]?.map (·.valid)).getD false then
      some ({ n with record := n.record.set i r }.setConsistent H)
    else
      some (({ n with record := n.record.set i r.copy }.sortNode).setConsistent H)

/-- `split(true, mig_records, record_pos)`: the records from the middle on become invalid. -/
def splitOrigin : InnerNode :=
  { n with record := n.record.take (innerNodeCapacity / 2) ++
      (n.record.drop (innerNodeCapacity / 2)).map Record.drop }.setConsistent H

/-- The records that `split(true, mig_records, record_pos)` hands to the sibling; the first of them
is `record_pos`. -/
def migRecords : List Record := (n.record.drop (innerNodeCapacity / 2)).map Record.copy

/-- `split(false, mig_records, ..)` -/
def splitSibling (mig : List Record) : InnerNode :=
  { n with record := mig.map Record.copy ++ n.record.drop mig.length }.setConsistent H

end InnerNode

/-- A node whose memory is zero. -/
def InnerNode.zero : InnerNode where
  hdr := { maxKey := KeyNull, rightAddr := .Null }
  record := List.replicate innerNodeCapacity {}

/-- `InnerTree`, the variables of a client that survive a call. -/
structure InnerTree where
  localRootAddr : Gaddr := .Null
  /-- The vector `path`, last element first. -/
  path : List Record := []

end DMTree
