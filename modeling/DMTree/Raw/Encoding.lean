import DMTree.Raw.LeafResize

/-!
# Leaves and fingerprint tables as bytes

The layout of `Entry`, `LeafHeader` and `FPTable` in memory. `valid` and `version` of an entry share a
word, of which `valid` has the lowest byte. The lock word of a table is 0 or 1.
-/

namespace DMTree

open Bytes

/-- The word of an address: `nodeID` has the lowest 16 bits and `offset` the other 48. -/
def Gaddr.word (a : Gaddr) : UInt64 := .ofNat (a.nodeID % 2 ^ 16 + a.offset * 2 ^ 16)

/-- `valid` as a byte. -/
def validByte (valid : Bool) : UInt8 := if valid then 1 else 0

/-- The bytes of an entry. -/
def Entry.bytes (e : Entry) : List UInt8 :=
  validByte e.valid :: leBytes 7 e.version ++ e.key.bytes ++ leBytes 8 e.value.toNat

/-- The fields of a header, in the order in which they lie in memory. -/
def LeafHeader.fields (h : LeafHeader) : List (List UInt8) :=
  [h.maxKey.bytes, h.minKey.bytes, leBytes 4 h.capacity, leBytes 4 h.version,
    leBytes 8 h.rightAddr.word.toNat, leBytes 8 h.rightFpAddr.word.toNat, leBytes 8 h.rightCapacity]

/-- The bytes of a header. -/
def LeafHeader.bytes (h : LeafHeader) : List UInt8 := h.fields.flatten

/-- The bytes of a leaf: the header, and the entries behind it. -/
def Leaf.bytes (l : Leaf) : List UInt8 := l.hdr.bytes ++ l.entries.flatMap Entry.bytes

/-- The bytes of a fingerprint table. -/
def FPTable.bytes (t : FPTable) : List UInt8 :=
  leBytes 8 t.version ++ t.fp ++ leBytes 8 t.crc.toNat ++ leBytes 8 (if t.lock then 1 else 0)

/-- The images of what `leaf_resize` has computed. -/
def Resized.images (x : Resized) : Raw.Images :=
  ⟨x.sibling.bytes, x.siblingTable.bytes, x.current.bytes, x.currentTable.bytes⟩

/-- The checksum of a table is `CityHash32` over the bytes of its version and its fingerprints. -/
def Hashes.OfBytes (H : Hashes) (cityHash32 : List UInt8 → UInt32) : Prop :=
  ∀ v fp, H.table v fp = cityHash32 (leBytes 8 v ++ fp)

end DMTree
