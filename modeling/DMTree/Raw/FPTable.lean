import DMTree.Wire
import DMTree.Lib.Buffers

/-!
# Fingerprint tables in memory

`FPTable` of `LeafNode.h` as the source has it: an object with four pointers into a buffer that it does
not own. `attach` derives the pointers from the capacity; the mutators go through them. A pointer is
an offset in its buffer.

The loops count with an `int` up to a 64-bit capacity; a counter that overflows is undefined behaviour.
-/

namespace DMTree.Raw

open Bytes Buffers

variable {ι : Type}

/-- `FPTable` -/
structure FPTable (ι : Type) where
  /-- The buffer that the pointers point into. -/
  buffer : ι
  version : Nat
  fp : Nat
  crc : Nat
  lock : Nat
  capacity : Nat
  deriving DecidableEq

/-- `i++` for an `int` -/
def incInt (i : Nat) : Code ι Nat := if i + 1 < 2 ^ 31 then pure (i + 1) else .fail

namespace FPTable

/-- `attach` -/
def attach (buffer : ι) (off c : Nat) : FPTable ι where
  buffer := buffer
  version := off
  fp := off + 8
  crc := off + 8 + c
  lock := off + 8 + c + 8
  capacity := c

variable (cityHash32 : List UInt8 → UInt32) (t : FPTable ι)

/-- `get_size` -/
def getSize : Nat := t.capacity + 8 * 3

/-- `set_consistent` -/
def setConsistent : Code ι Unit := do
  let bs ← Code.get t.buffer t.version (t.getSize - 8 * 2)
  Code.put t.buffer t.crc (leBytes 8 (cityHash32 bs).toNat)

/-- `check_consistent` -/
def checkConsistent : Code ι Bool := do
  let bs ← Code.get t.buffer t.version (t.getSize - 8 * 2)
  let crc ← Code.get t.buffer t.crc 4
  return leNat crc == (cityHash32 bs).toNat

/-- `get_version` -/
def getVersion : Code ι Nat := do
  let bs ← Code.get t.buffer t.version 8
  return leNat bs

/-- The loop of `insert` from slot `i` on, with `n` slots left. -/
def insertLoop (f : UInt8) : Nat → Nat → Code ι (Option Nat)
  | 0, _ => return none
  | n + 1, i => do
    let slot ← Code.get t.buffer (t.fp + i) 1
    if slot = [0] then do
      Code.put t.buffer (t.fp + i) [f]
      t.setConsistent cityHash32
      return some i
    else do
      let i ← incInt i
      insertLoop f n i

/-- `insert`: the slot that takes the fingerprint, `none` when it returns false. -/
def insert (f : UInt8) : Code ι (Option Nat) := t.insertLoop cityHash32 f t.capacity 0

/-- `add_version`: `*version++` increments the pointer and not what it points to. -/
def addVersion : Code ι (FPTable ι) := do
  let _ ← Code.get t.buffer t.version 8
  let t : FPTable ι := { t with version := t.version + 8 }
  t.setConsistent cityHash32
  return t

/-- `set_version` -/
def setVersion (v : Nat) : Code ι Unit := do
  Code.put t.buffer t.version (leBytes 8 v)
  t.setConsistent cityHash32

/-- `unlock` -/
def unlock : Code ι Unit := Code.put t.buffer t.lock (leBytes 8 0)

/-- The loop of `clean` from slot `i` on, with `n` slots left. -/
def cleanLoop : Nat → Nat → Code ι Unit
  | 0, _ => return ()
  | n + 1, i => do
    Code.put t.buffer (t.fp + i) [0]
    let i ← incInt i
    cleanLoop n i

/-- `clean` -/
def clean : Code ι Unit := do
  t.cleanLoop t.capacity 0
  t.setConsistent cityHash32

/-! ## Sequences of calls -/

/-- The mutators. -/
inductive Call where
  | insert (f : UInt8)
  | setVersion (v : UInt64)
  | addVersion
  | clean
  | unlock
  deriving DecidableEq

/-- A call on the object: what becomes of the object, and what `insert` returns. -/
def call : Call → Code ι (FPTable ι × Option Nat)
  | .insert f => do
    let e ← t.insert cityHash32 f
    return (t, e)
  | .setVersion v => do
    t.setVersion cityHash32 v.toNat
    return (t, none)
  | .addVersion => do
    let t ← t.addVersion cityHash32
    return (t, none)
  | .clean => do
    t.clean cityHash32
    return (t, none)
  | .unlock => do
    t.unlock
    return (t, none)

/-- Calls on the same object, one after another. -/
def callAll (t : FPTable ι) : List Call → Code ι (FPTable ι × List (Option Nat))
  | [] => return (t, [])
  | c :: cs => do
    let r ← t.call cityHash32 c
    let rs ← callAll r.1 cs
    return (rs.1, r.2 :: rs.2)

end FPTable

/-! ## What the table is for -/

/-- The fields of a fingerprint table that a caller sees. -/
structure Fields where
  version : Nat
  fp : List UInt8
  lock : Nat
  deriving DecidableEq

/-- What a call does to the fields, and what it returns. -/
def Fields.call (c : Fields) : FPTable.Call → Fields × Option Nat
  | .insert f =>
    match c.fp.findIdx? (· == 0) with
    | none => (c, none)
    | some i => ({ c with fp := c.fp.set i f }, some i)
  | .setVersion v => ({ c with version := v.toNat }, none)
  | .addVersion => ({ c with version := (c.version + 1) % 2 ^ 64 }, none)
  | .clean => ({ c with fp := List.replicate c.fp.length 0 }, none)
  | .unlock => ({ c with lock := 0 }, none)

/-- What calls do one after another. -/
def Fields.callAll (c : Fields) : List FPTable.Call → Fields × List (Option Nat)
  | [] => (c, [])
  | d :: ds =>
    let r := c.call d
    let rs := Fields.callAll r.1 ds
    (rs.1, r.2 :: rs.2)

/-- The fields of the table of capacity `n` that was attached at address `a`. -/
def fieldsAt (m : Mem) (a n : Nat) : Fields where
  version := leNat (bytesAt m a 8)
  fp := bytesAt m (a + 8) n
  lock := leNat (bytesAt m (a + 8 + n + 8) 8)

end DMTree.Raw
