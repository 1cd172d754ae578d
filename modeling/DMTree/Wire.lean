import DMTree.KVConfig
import DMTree.Lib.Bytes

/-!
# Keys as bytes

A key is its 24 bytes in the order in which `memcmp` compares them: the number that stands for it
here, most significant byte first.
-/

namespace DMTree

open Bytes

/-- `KEY_SIZE` -/
def keySize : Nat := 24

namespace Key

/-- The bytes of a key. -/
def bytes (k : Key) : List UInt8 := (leBytes keySize k.val).reverse

/-- The key that bytes stand for. -/
def ofBytes (bs : List UInt8) : Key := Key.ofNat (leNat bs.reverse)

@[simp] theorem length_bytes (k : Key) : k.bytes.length = keySize := by simp [bytes]

/-- Every string of 24 bytes is the string of its key. -/
theorem bytes_ofBytes {bs : List UInt8} (h : bs.length = keySize) : (ofBytes bs).bytes = bs := by
  have hlt : leNat bs.reverse < 2 ^ (8 * 24) := by
    have hle := leNat_lt bs.reverse
    rw [List.length_reverse, h] at hle
    exact hle.trans_eq (by decide)
  have hval : (ofBytes bs).val = leNat bs.reverse := Nat.mod_eq_of_lt hlt
  have hbytes := leBytes_leNat bs.reverse
  rw [List.length_reverse, h] at hbytes
  rw [bytes, hval, hbytes, List.reverse_reverse]

/-- A key is the key of its bytes. -/
theorem ofBytes_bytes (k : Key) : ofBytes k.bytes = k := by
  refine Fin.ext ?_
  have hlt : k.val < 256 ^ keySize := lt_of_lt_of_eq k.isLt (by decide)
  have hval : leNat (leBytes keySize k.val) = k.val := by
    rw [leNat_leBytes, Nat.mod_eq_of_lt hlt]
  simp only [ofBytes, bytes, List.reverse_reverse, hval]
  exact Nat.mod_eq_of_lt k.isLt

end Key

end DMTree
