import Mathlib

/-!
# Slab allocator

`SlabAllocator` of `skipvector/SlabAllocator.h`: a pool of slots of one size over a bitmap. `alloc` looks
for a free slot from a hint on, at most once around the pool; the slots before `first_free_` are reserved
and never handed out. Both calls run under one mutex, so they are atomic.

A failed assertion, or an access to the bitmap outside of it, has the result `none`.
-/

namespace DMTree.SkipVector

/-- `SlabAllocator::kBad` -/
def kBad : Nat := 2 ^ 64 - 1

/-- `SlabAllocator` -/
structure SlabAllocator where
  base : Nat
  slotSize : Nat
  numSlots : Nat
  bitmap : List Bool
  nextHint : Nat
  firstFree : Nat
  usedCount : Nat

namespace SlabAllocator

/-- The constructor. -/
def new (baseOffset slotSize numSlots firstReserved : Nat) : Option SlabAllocator :=
  if firstReserved ≤ numSlots then
    some
      { base := baseOffset
        slotSize := slotSize
        numSlots := numSlots
        bitmap := List.replicate firstReserved true ++ List.replicate (numSlots - firstReserved) false
        nextHint := firstReserved
        firstFree := firstReserved
        usedCount := firstReserved }
  else none

/-- The hint after slot `nextHint` has been looked at. -/
def advance (a : SlabAllocator) : Nat :=
  let next := (a.nextHint + 1) % a.numSlots
  if next < a.firstFree then a.firstFree else next

/-- The loop of `alloc`, with `tries` rounds left. -/
def allocLoop : Nat → SlabAllocator → Option (Nat × SlabAllocator)
  | 0, a => some (kBad, a)
  | tries + 1, a =>
    match a.bitmap[a.nextHint]? with
    | none => none
    | some false =>
      some (a.base + a.nextHint * a.slotSize,
        { a with
          bitmap := a.bitmap.set a.nextHint true
          nextHint := a.advance
          usedCount := a.usedCount + 1 })
    | some true => allocLoop tries { a with nextHint := a.advance }

/-- `SlabAllocator::alloc` -/
def alloc (a : SlabAllocator) : Option (Nat × SlabAllocator) := allocLoop a.numSlots a

/-- The indices of the bitmap that the loop of `alloc` reads, with `tries` rounds left; the last of
them is the one that it writes when it finds the bit clear. -/
def loopIndices : Nat → SlabAllocator → List Nat
  | 0, _ => []
  | tries + 1, a =>
    a.nextHint :: match a.bitmap[a.nextHint]? with
      | some true => loopIndices tries { a with nextHint := a.advance }
      | _ => []

/-- The indices of the bitmap that `alloc` reads. -/
def allocIndices (a : SlabAllocator) : List Nat := loopIndices a.numSlots a

/-- `SlabAllocator::free` -/
def free (a : SlabAllocator) (offset : Nat) : Option SlabAllocator :=
  let rel := offset - a.base
  let idx := rel / a.slotSize
  if a.base ≤ offset ∧ rel % a.slotSize = 0 ∧ idx < a.numSlots ∧ a.firstFree ≤ idx ∧
      a.bitmap[idx]? = some true then
    some { a with bitmap := a.bitmap.set idx false, usedCount := a.usedCount - 1 }
  else none

/-- `SlabAllocator::owns` -/
def owns (a : SlabAllocator) (offset : Nat) : Bool :=
  decide (a.base ≤ offset ∧ offset < a.base + a.numSlots * a.slotSize)

/-- `SlabAllocator::slot_of` -/
def slotOf (a : SlabAllocator) (offset : Nat) : Option Nat :=
  if a.owns offset then some ((offset - a.base) / a.slotSize) else none

/-- `SlabAllocator::offset_of` -/
def offsetOf (a : SlabAllocator) (slotIdx : Nat) : Option Nat :=
  if slotIdx < a.numSlots then some (a.base + slotIdx * a.slotSize) else none

/-! ## Histories of calls -/

/-- A call, with the offset that it returned or was given. -/
inductive Call where
  | alloc (offset : Nat)
  | free (offset : Nat)

/-- The offsets that the calls have handed out and not taken back. -/
def allocated (calls : List Call) : List Nat :=
  calls.foldl
    (fun live call =>
      match call with
      | .alloc offset => if offset = kBad then live else offset :: live
      | .free offset => live.erase offset)
    []

/-- `a` is what the calls make of `a₀`; only what is allocated is freed. -/
inductive After (a₀ : SlabAllocator) : List Call → SlabAllocator → Prop where
  | new : After a₀ [] a₀
  | alloc {calls : List Call} {a a' : SlabAllocator} {offset : Nat} (h : After a₀ calls a)
      (he : a.alloc = some (offset, a')) : After a₀ (calls ++ [.alloc offset]) a'
  | free {calls : List Call} {a a' : SlabAllocator} {offset : Nat} (h : After a₀ calls a)
      (hlegal : offset ∈ allocated calls) (he : a.free offset = some a') :
      After a₀ (calls ++ [.free offset]) a'

/-- `a` is what some calls make of `a₀`; a call of `free` is any that passes the assertions. -/
inductive Reachable (a₀ : SlabAllocator) : SlabAllocator → Prop where
  | new : Reachable a₀ a₀
  | alloc {a a' : SlabAllocator} {offset : Nat} (h : Reachable a₀ a)
      (he : a.alloc = some (offset, a')) : Reachable a₀ a'
  | free {a a' : SlabAllocator} {offset : Nat} (h : Reachable a₀ a)
      (he : a.free offset = some a') : Reachable a₀ a'

/-- The hint and all indices that `alloc` uses lie in the bitmap, and `alloc` fails properly when no
slot is free. -/
structure InRange (a : SlabAllocator) : Prop where
  nextHint : a.nextHint < a.numSlots
  indices : ∀ i ∈ a.allocIndices, i < a.numSlots
  full : (∀ i < a.numSlots, a.bitmap[i]? = some true) → ∃ a', a.alloc = some (kBad, a')

end SlabAllocator

end DMTree.SkipVector
