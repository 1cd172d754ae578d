import Mathlib

/-!
# Leaf handles

`LeafHandle.h` of the skip vector. A handle is one word, so that it can be replaced by a
compare-and-swap: the offset of the leaf and a tag that packs a structure version (12 bits) above a
content version (20 bits). A writer publishes a new version of a leaf by bumping its handle.
-/

namespace DMTree.SkipVector

/-- `LeafHandle`: the two halves of the word. -/
structure LeafHandle where
  tag : BitVec 32
  offset : BitVec 32
  deriving DecidableEq

namespace LeafHandle

/-- `kContentVerBits` -/
def contentVerBits : Nat := 20

/-- `kStructVerBits` -/
def structVerBits : Nat := 12

/-- `kContentVerMask` -/
def contentVerMask : BitVec 32 := (1 <<< contentVerBits) - 1

/-- `kStructVerMask` -/
def structVerMask : BitVec 32 := (1 <<< structVerBits) - 1

/-- `kStructVerShift` -/
def structVerShift : Nat := contentVerBits

/-- `make_tag` -/
def makeTag (sv cv : BitVec 32) : BitVec 32 :=
  ((sv &&& structVerMask) <<< structVerShift) ||| (cv &&& contentVerMask)

variable (h : LeafHandle)

/-- `raw`: the tag is the lower half of the word. -/
def raw : BitVec 64 := h.offset ++ h.tag

/-- `struct_ver` -/
def structVer : BitVec 32 := (h.tag >>> structVerShift) &&& structVerMask

/-- `content_ver` -/
def contentVer : BitVec 32 := h.tag &&& contentVerMask

/-- `newer_than` -/
def newerThan (o : LeafHandle) : Bool :=
  if h.structVer ≠ o.structVer then decide (h.structVer > o.structVer)
  else decide (h.contentVer > o.contentVer)

/-- `bump_content` -/
def bumpContent : LeafHandle := ⟨makeTag h.structVer (h.contentVer + 1), h.offset⟩

/-- `bump_struct` -/
def bumpStruct (newOffset : BitVec 32) : LeafHandle := ⟨makeTag (h.structVer + 1) 0, newOffset⟩

/-- The ways to bump a handle. -/
inductive Bump where
  | content
  | struct (newOffset : BitVec 32)
  deriving DecidableEq

/-- One bump. -/
def bump : Bump → LeafHandle
  | .content => h.bumpContent
  | .struct o => h.bumpStruct o

/-- The handle after a sequence of bumps. -/
def after (bs : List Bump) : LeafHandle := bs.foldl bump h

/-- The version that a bump increases is not at its greatest value. -/
def hasRoom : Bump → Prop
  | .content => h.contentVer ≠ contentVerMask
  | .struct _ => h.structVer ≠ structVerMask

instance (b : Bump) : Decidable (h.hasRoom b) := by
  cases b <;> unfold hasRoom <;> infer_instance

/-- The handle after the bumps is newer than the first one, and its word occurs nowhere before. -/
def Forward (bs : List Bump) : Prop :=
  (h.after bs).newerThan h = true ∧ h.newerThan (h.after bs) = false ∧
    ∀ i < bs.length, (h.after bs).raw ≠ (h.after (bs.take i)).raw

end LeafHandle

end DMTree.SkipVector
