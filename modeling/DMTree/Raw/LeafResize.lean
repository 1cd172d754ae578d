import DMTree.DMCache
import DMTree.Raw.FPTable

/-!
# Splitting a leaf in the RDMA buffers

`DMTree::leaf_resize` up to the writes, on the buffers in which it puts the four images that it writes:
the leaf and its fingerprint table behind one another in a page buffer, the sibling and its table in a
sibling buffer. `RdmaBuffer` hands out page and sibling buffers of 2 KB in rotation, next to each other
in one allocation.
-/

namespace DMTree.Raw

open Bytes Buffers

/-- The four buffers of `leaf_resize`. -/
inductive Buffer where
  | buffer
  | curFpBuffer
  | siblingBuffer
  | sibFpBuffer
  deriving DecidableEq

/-! ## Entries -/

/-- `sizeof(LeafHeader)`: two keys, two `int`s, two addresses and a 64-bit capacity. -/
def headerSize : Nat := 2 * keySize + 4 + 4 + 8 + 8 + 8

/-- `sizeof(Entry)`: a word for `valid` and `version`, a key and a value. -/
def entrySize : Nat := 8 + keySize + 8

/-- `LeafNode::cur_node_size` -/
def curNodeSize (capacity : Nat) : Nat := headerSize + capacity * entrySize

/-- `LeafNode::get_entry_offset` -/
def getEntryOffset (i : Nat) : Nat := headerSize + i * entrySize

/-- `version++`, where `valid` has the lowest 8 bits of the word and `version` the other 56. -/
def addVersion (raw : Nat) : Nat := raw % 2 ^ 8 + (raw / 2 ^ 8 + 1) % 2 ^ 56 * 2 ^ 8

/-- The loop over the entries of the leaf, from entry `i` on with `n` entries left: every entry gets a
new version, and valid ones are cleaned and collected. -/
def collectEntries : Nat → Nat → Code Buffer (List EntryPos)
  | 0, _ => return []
  | n + 1, i => do
    let off := getEntryOffset i
    let raw ← Code.get .buffer off 8
    Code.put .buffer off (leBytes 8 (addVersion (leNat raw)))
    let valid ← Code.get .buffer off 1
    if valid = [1] then do
      let key ← Code.get .buffer (off + 8) keySize
      let value ← Code.get .buffer (off + 8 + keySize) 8
      Code.put .buffer off [0] -- `clean`
      Code.put .buffer (off + 8) (List.replicate keySize 0)
      let es ← collectEntries n (i + 1)
      return ⟨Key.ofBytes key, UInt64.ofNat (leNat value)⟩ :: es
    else collectEntries n (i + 1)

/-- `Entry::insert` for the entry at an offset of a buffer. -/
def insertEntry (b : Buffer) (off : Nat) (p : EntryPos) : Code Buffer Bool := do
  let valid ← Code.get b off 1
  if valid = [0] then do
    Code.put b (off + 8) p.key.bytes
    Code.put b (off + 8 + keySize) (leBytes 8 p.value.toNat)
    Code.put b off [1]
    return true
  else do
    let key ← Code.get b (off + 8) keySize
    if key = p.key.bytes then do
      Code.put b (off + 8 + keySize) (leBytes 8 p.value.toNat)
      return true
    else return false

section

variable (H : Hashes) (cityHash32 : List UInt8 → UInt32)

/-- One round of the loop that splits the pairs: a pair goes into a table and its leaf. -/
def insertPair (t : FPTable Buffer) (b : Buffer) (p : EntryPos) : Code Buffer Unit := do
  let e ← t.insert cityHash32 (calKeyFp H p.key)
  match e with
  | none => .fail
  | some e => do
    let done ← insertEntry b (getEntryOffset e) p
    Code.assert done

/-- Several rounds for one of the two tables. -/
def insertPairs (t : FPTable Buffer) (b : Buffer) : List EntryPos → Code Buffer Unit
  | [] => return ()
  | p :: ps => do
    insertPair H cityHash32 t b p
    insertPairs t b ps

/-! ## Headers -/

/-- A header with the bytes from an offset on replaced. -/
def setField (hdr : List UInt8) (off : Nat) (bs : List UInt8) : List UInt8 :=
  hdr.take off ++ bs ++ hdr.drop (off + bs.length)

/-- `version` of a header. -/
def hdrVersion (hdr : List UInt8) : Nat := leNat ((hdr.drop 52).take 4)

/-- An `int` as a 64-bit number. -/
def signExtend (v : Nat) : Nat := if v < 2 ^ 31 then v else v + (2 ^ 64 - 2 ^ 32)

/-- `current_hdr`: `version++`, `update_right` and `max_key`. -/
def currentHdr (hdr : List UInt8) (siblingAddr siblingFpAddr : UInt64) (siblingCapacity : Nat)
    (maxKey : Key) : List UInt8 :=
  let hdr := setField hdr 52 (leBytes 4 (hdrVersion hdr + 1))
  let hdr := setField hdr 56 (leBytes 8 siblingAddr.toNat)
  let hdr := setField hdr 64 (leBytes 8 siblingFpAddr.toNat)
  let hdr := setField hdr 72 (leBytes 8 siblingCapacity)
  setField hdr 0 maxKey.bytes

/-- `sibling_hdr`: `version = 0`, `capacity` and `min_key`. -/
def siblingHdr (hdr : List UInt8) (siblingCapacity : Nat) (minKey : Key) : List UInt8 :=
  let hdr := setField hdr 52 (leBytes 4 0)
  let hdr := setField hdr 48 (leBytes 4 siblingCapacity)
  setField hdr keySize minKey.bytes

/-! ## `leaf_resize` -/

/-- The images that `leaf_resize` writes. -/
structure Images where
  sibling : List UInt8
  siblingTable : List UInt8
  current : List UInt8
  currentTable : List UInt8
  deriving DecidableEq

/-- `leaf_resize` from the loop over the entries on: `entries` are the collected pairs with the new one
in front, and the sibling gets addresses. -/
def splitEntries (capacity siblingCapacity : Nat) (siblingAddr siblingFpAddr : UInt64)
    (entries : List EntryPos) : Code Buffer Images := do
  let curFpTable := FPTable.attach Buffer.curFpBuffer 0 capacity
  let sibFpTable := FPTable.attach Buffer.sibFpBuffer 0 siblingCapacity
  let split := if siblingCapacity > capacity then 0 else entries.length / 2
  let entries := entries.insertionSort fun a b => a.key ≤ b.key
  Code.put .siblingBuffer 0 (List.replicate (curNodeSize siblingCapacity) 0)
  Code.put .sibFpBuffer 0 (List.replicate sibFpTable.getSize 0)
  let hdr ← Code.get .buffer 0 headerSize
  match entries[split]? with
  | none => .fail
  | some q => do
    let curHdr := currentHdr hdr siblingAddr siblingFpAddr siblingCapacity q.key
    curFpTable.setVersion cityHash32 (signExtend (hdrVersion curHdr))
    insertPairs H cityHash32 curFpTable .buffer (entries.take split)
    insertPairs H cityHash32 sibFpTable .siblingBuffer (entries.drop split)
    Code.put .buffer 0 curHdr
    Code.put .siblingBuffer 0 (siblingHdr hdr siblingCapacity q.key)
    let sibling ← Code.get .siblingBuffer 0 (curNodeSize siblingCapacity)
    let siblingTable ← Code.get .sibFpBuffer 0 sibFpTable.getSize
    let current ← Code.get .buffer 0 (curNodeSize capacity)
    let currentTable ← Code.get .curFpBuffer 0 curFpTable.getSize
    return ⟨sibling, siblingTable, current, currentTable⟩

/-- `DMTree::leaf_resize` up to the writes: `leaf` holds the bytes of the leaf in remote memory, `p` is
the new pair. -/
def leafResize (leaf : Mem) (p : EntryPos) (capacity siblingCapacity : Nat)
    (siblingAddr siblingFpAddr : UInt64) : Code Buffer Images := do
  let curFpTable := FPTable.attach Buffer.curFpBuffer 0 capacity
  Code.put .curFpBuffer 0 (List.replicate curFpTable.getSize 0)
  Code.put .buffer 0 (bytesAt leaf 0 (curNodeSize capacity)) -- `read_sync`
  let entries ← collectEntries capacity 0
  splitEntries H cityHash32 capacity siblingCapacity siblingAddr siblingFpAddr (p :: entries)

end

/-- The sizes of the four buffers for given capacities. -/
def bufferSize (capacity siblingCapacity : Nat) : Buffer → Nat
  | .buffer => curNodeSize capacity
  | .curFpBuffer => capacity + 8 * 3
  | .siblingBuffer => curNodeSize siblingCapacity
  | .sibFpBuffer => siblingCapacity + 8 * 3

/-! ## `RdmaBuffer` -/

/-- `kPageSize` -/
def kPageSize : Nat := 2 * 1024

/-- `kPageBufferCnt` -/
def kPageBufferCnt : Nat := 8

/-- `kSiblingBufferCnt` -/
def kSiblingBufferCnt : Nat := 8

/-- `kCasBufferCnt` -/
def kCasBufferCnt : Nat := 64

/-- `RdmaBuffer`, with the fields that page and sibling buffers depend on. -/
structure RdmaBuffer where
  buffer : Nat
  pageBufferCur : Nat
  siblingBufferCur : Nat

namespace RdmaBuffer

variable (r : RdmaBuffer)

/-- `page_buffer`, behind the CAS buffers, the unlock word and the zero word. -/
def pageBuffer : Nat := r.buffer + 8 * kCasBufferCnt + 8 + 8

/-- `sibling_buffer` -/
def siblingBuffer : Nat := r.pageBuffer + kPageSize * kPageBufferCnt

/-- `get_page_buffer` -/
def getPageBuffer : Nat × RdmaBuffer :=
  let cur := (r.pageBufferCur + 1) % kPageBufferCnt
  (r.pageBuffer + cur * kPageSize, { r with pageBufferCur := cur })

/-- `get_sibling_buffer` -/
def getSiblingBuffer : Nat × RdmaBuffer :=
  let cur := (r.siblingBufferCur + 1) % kSiblingBufferCnt
  (r.siblingBuffer + cur * kPageSize, { r with siblingBufferCur := cur })

/-- Where `leaf_resize` puts its buffers. -/
def place (capacity siblingCapacity : Nat) : Buffer → Nat
  | .buffer => r.getPageBuffer.1
  | .curFpBuffer => r.getPageBuffer.1 + curNodeSize capacity
  | .siblingBuffer => r.getPageBuffer.2.getSiblingBuffer.1
  | .sibFpBuffer => r.getPageBuffer.2.getSiblingBuffer.1 + curNodeSize siblingCapacity

/-- The leaf and its table end before the sibling begins. -/
def Fits (capacity siblingCapacity : Nat) : Prop :=
  r.place capacity siblingCapacity .curFpBuffer + (capacity + 8 * 3) ≤
    r.place capacity siblingCapacity .siblingBuffer

instance (capacity siblingCapacity : Nat) : Decidable (r.Fits capacity siblingCapacity) :=
  inferInstanceAs (Decidable (_ ≤ _))

end RdmaBuffer

/-- The capacities that leaves can have: the initial one, and what `adapt_capacity` makes of one. -/
inductive LeafCapacity : Nat → Prop where
  | initial : LeafCapacity leafNodeCapacity
  | adapt {c : Nat} (grow : Bool) (h : LeafCapacity c) : LeafCapacity (adaptCapacity grow c)

end DMTree.Raw
