import DMTree.Wire
import DMTree.Lib.Crc

/-!
# The contents of a skip vector leaf

`LeafContents` of `skipvector/LeafContents.h`: a packed structure whose last fields are a checksum over
all bytes in front of it, and padding. `boost::crc_32_type` is the standard CRC-32.
-/

namespace DMTree.SkipVector

open Bytes Crc

/-- `kFanoutData` -/
def kFanoutData : Nat := 32

/-- The generator of CRC-32, highest power in the lowest bit. -/
def crc32Poly : BitVec 32 := BitVec.reverse 0x04C11DB7#32

/-- `boost::crc_32_type`: process bytes, and the checksum of them. -/
def crc32 (bs : List UInt8) : UInt32 :=
  ⟨register crc32Poly (BitVec.allOnes 32) (bitsOf bs) ^^^ BitVec.allOnes 32⟩

-- the check value of CRC-32, for the digits 1 to 9
example : crc32 [0x31, 0x32, 0x33, 0x34, 0x35, 0x36, 0x37, 0x38, 0x39] =
    0xCBF43926 := by decide +kernel

/-- `LeafContents` -/
structure LeafContents where
  kmin : Key
  kmax : Key
  nextHandleOffset : UInt64
  isOrphan : UInt32
  entryCount : UInt32
  keys : Vector Key kFanoutData
  vals : Vector Value kFanoutData
  crc : UInt32
  pad0 : UInt32

namespace LeafContents

/-- `offsetof(LeafContents, crc)` -/
def crcSpanBytes : Nat := 2 * keySize + 8 + 4 + 4 + kFanoutData * keySize + kFanoutData * 8

variable (c : LeafContents)

/-- The bytes of the structure up to the checksum. -/
def span : List UInt8 :=
  c.kmin.bytes ++ c.kmax.bytes ++ leBytes 8 c.nextHandleOffset.toNat ++
    leBytes 4 c.isOrphan.toNat ++ leBytes 4 c.entryCount.toNat ++
    c.keys.toList.flatMap Key.bytes ++ c.vals.toList.flatMap fun v => leBytes 8 v.toNat

/-- `compute_and_set_crc` -/
def computeAndSetCrc : LeafContents := { c with crc := crc32 c.span }

/-- `verify_crc` -/
def verifyCrc : Bool := c.crc == crc32 c.span

/-- `c'` is `c` with at least one bit of the span altered, all of them among the 32 bits from bit `p`
on. -/
structure Burst (p : Nat) (c c' : LeafContents) : Prop where
  crc : c'.crc = c.crc
  outside : ∀ i : Nat, i < p ∨ p + 32 ≤ i → (bitsOf c'.span)[i]? = (bitsOf c.span)[i]?
  altered : ∃ i : Nat, (bitsOf c'.span)[i]? ≠ (bitsOf c.span)[i]?

end LeafContents

end DMTree.SkipVector
