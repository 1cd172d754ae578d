import Mathlib

/-!
# Keys, values and global addresses

`KVConfig.h` and the address type of `RdmaConfig.h`.
-/

namespace DMTree

/-- `KeyType`: 24 bytes, ordered by `memcmp`. Read as a big-endian number the order is that of the
numbers. -/
def Key : Type := Fin (2 ^ (8 * 24))

instance : LinearOrder Key := inferInstanceAs (LinearOrder (Fin (2 ^ (8 * 24))))

/-- The key with the given number. -/
def Key.ofNat (n : Nat) : Key := Fin.ofNat (2 ^ (8 * 24)) n

/-- `KeyNull`: 24 zero bytes. -/
def KeyNull : Key := Key.ofNat 0

/-- `KeyMax`: 24 times the letter `z`. -/
def KeyMax : Key := Key.ofNat 0x7a7a7a7a7a7a7a7a7a7a7a7a7a7a7a7a7a7a7a7a7a7a7a7a

/-- `ValueType`. -/
abbrev Value := UInt64

/-- `ValueNull`. -/
def ValueNull : Value := 0

/-- A global address: a node and an offset in its memory. They have 16 and 48 bits in the source, which
is enough for what the allocators hand out (`RemoteAlloc.addresses_fit`). -/
structure Gaddr where
  /-- The machine. -/
  nodeID : Nat
  /-- The offset in the memory of that machine. -/
  offset : Nat
  deriving DecidableEq, Repr

/-- `Gaddr::Null`. -/
def Gaddr.Null : Gaddr := ⟨0, 0⟩

theorem keyNull_le (k : Key) : KeyNull ≤ k := Nat.zero_le k.val

theorem keyNull_lt_keyMax : KeyNull < KeyMax := by decide

end DMTree
