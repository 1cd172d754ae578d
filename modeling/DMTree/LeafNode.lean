import DMTree.InnerTree

/-!
# Leaves

`LeafNode.h`. A leaf is a hash table in two parts: an array of entries with a header in memory of a
memory node, and a table of fingerprints (`FPTable`), usually in memory of a compute node. The lock
of a leaf is the last word of its fingerprint table.
-/

namespace DMTree

/-- `LeafNodeCapacity` -/
def leafNodeCapacity : Nat := 32

/-- `MaxNodeCapacity` -/
def maxNodeCapacity : Nat := 128

/-- `Entry`, without the checksum of `ENABLE_ENTRY_CRC`. The version has 56 bits in the source; it is
the version of the leaf, whose type is smaller. -/
structure Entry where
  valid : Bool := false
  version : Nat := 0
  key : Key := KeyNull
  value : Value := 0
  deriving DecidableEq

/-- `EntryPos` -/
structure EntryPos where
  key : Key
  value : Value
  deriving DecidableEq

namespace Entry

variable (e : Entry)

/-- `add_version` -/
def addVersion : Entry := { e with version := e.version + 1 }

/-- `search`: the value when the entry holds `k` -/
def search (k : Key) : Option Value := if e.valid && e.key == k then some e.value else none

/-- `insert`: `none` when the entry holds another key. -/
def insert (k : Key) (v : Value) : Option Entry :=
  if !e.valid then some { e with key := k, value := v, valid := true }
  else if e.key == k then some { e with value := v }
  else none

/-- `clean` -/
def clean : Entry := { e with valid := false, key := KeyNull }

/-- The conversion to `EntryPos`. -/
def pos : EntryPos := ⟨e.key, e.value⟩

end Entry

/-- `FPTable`; its capacity is the length of `fp`. -/
structure FPTable where
  version : Nat := 0
  fp : List UInt8
  crc : UInt32 := 0
  lock : Bool := false
  deriving DecidableEq

namespace FPTable

variable (H : Hashes) (t : FPTable)

/-- `set_consistent` -/
def setConsistent : FPTable := { t with crc := H.table t.version t.fp }

/-- `check_consistent` -/
def checkConsistent : Bool := t.crc == H.table t.version t.fp

/-- `get_entry_num` -/
def getEntryNum : Nat := t.fp.countP (· ≠ 0)

/-- `insert`: the slot that takes the fingerprint, `none` when there is none free. -/
def insert (f : UInt8) : Option (Nat × FPTable) :=
  match t.fp.findIdx? (· == 0) with
  | none => none
  | some i => some (i, { t with fp := t.fp.set i f }.setConsistent H)

/-- `set_version` -/
def setVersion (v : Nat) : FPTable := { t with version := v }.setConsistent H

/-- `unlock` -/
def unlock : FPTable := { t with lock := false }

end FPTable

/-- A table whose memory is zero. -/
def FPTable.zero (capacity : Nat) : FPTable := { fp := List.replicate capacity 0 }

/-- `LeafHeader`. The version is an `int` in the source: the model is right as long as it is below
`2 ^ 31`, which runs of the tree are assumed to keep to (`treeGuard`). -/
structure LeafHeader where
  maxKey : Key := KeyMax
  minKey : Key := KeyNull
  capacity : Nat := 0
  version : Nat := 0
  rightAddr : Gaddr
  rightFpAddr : Gaddr
  rightCapacity : Nat := 0
  deriving DecidableEq

/-- `update_right` -/
def LeafHeader.updateRight (h : LeafHeader) (a fa : Gaddr) (c : Nat) : LeafHeader :=
  { h with rightAddr := a, rightFpAddr := fa, rightCapacity := c }

/-- The header and the entries of a leaf. -/
structure Leaf where
  hdr : LeafHeader
  entries : List Entry
  deriving DecidableEq

/-- `LeafNode::cal_key_fp` -/
def calKeyFp (H : Hashes) (k : Key) : UInt8 :=
  let f := (H.key k >>> 24).toUInt8
  if f = 0 then 1 else f

/-! ## The computation of `leaf_resize` -/

/-- The entries of the leaf that is split, as pairs, with the new pair in front. -/
def nodeEntries (leaf : Leaf) (p : EntryPos) : List EntryPos :=
  p :: (leaf.entries.filter (·.valid)).map Entry.pos

/-- The entries of the leaf that is split, after `add_version` and `clean`. -/
def cleanEntries (leaf : Leaf) : List Entry :=
  leaf.entries.map fun e => if e.valid then e.addVersion.clean else e.addVersion

/-- The loop that inserts pairs into a table and a leaf: `none` when one of its assertions fails. -/
def fillLeaf (H : Hashes) : List EntryPos → FPTable → List Entry → Option (FPTable × List Entry)
  | [], t, es => some (t, es)
  | p :: ps, t, es =>
    match t.insert H (calKeyFp H p.key) with
    | none => none
    | some (i, t') =>
      match es[i]?.bind fun e => e.insert p.key p.value with
      | none => none
      | some e => fillLeaf H ps t' (es.set i e)

/-- The four images that `leaf_resize` writes. -/
structure Resized where
  current : Leaf
  currentTable : FPTable
  sibling : Leaf
  siblingTable : FPTable

/-- `leaf_resize` on a leaf with `capacity` slots, up to the first write: `none` when one of its
assertions fails. The four images are apart from each other. The source builds them in RDMA buffers
that can overlap when the capacity is 64 or 128; `Raw.leafResize` works on those, and computes the same
where they do not overlap (`Raw.leafResize_run`). -/
def resizeLeaf (H : Hashes) (leaf : Leaf) (p : EntryPos) (capacity siblingCapacity : Nat)
    (siblingAddr siblingFpAddr : Gaddr) : Option Resized :=
  let entries := (nodeEntries leaf p).insertionSort fun a b => a.key ≤ b.key
  let split := if siblingCapacity > capacity then 0 else entries.length / 2
  match entries[split]? with
  | none => none
  | some q =>
    let currentHdr := { (leaf.hdr.updateRight siblingAddr siblingFpAddr siblingCapacity) with
      version := leaf.hdr.version + 1, maxKey := q.key }
    let siblingHdr := { leaf.hdr with version := 0, capacity := siblingCapacity, minKey := q.key }
    match fillLeaf H (entries.take split)
        ((FPTable.zero capacity).setVersion H currentHdr.version) (cleanEntries leaf),
      fillLeaf H (entries.drop split) (FPTable.zero siblingCapacity)
        (List.replicate siblingCapacity {}) with
    | some (t, es), some (t', es') => some ⟨⟨currentHdr, es⟩, t, ⟨siblingHdr, es'⟩, t'⟩
    | _, _ => none

end DMTree
