import DMTree.SkipVector.LeafContents

/-!
# The checksum of a leaf detects short bursts
-/

namespace DMTree.SkipVector.LeafContents

open Bytes Crc

variable {c c' : LeafContents} {p : Nat}

/-! ## The covered span -/

theorem length_flatMap_const {α β : Type} {f : α → List β} {n : Nat} (h : ∀ a, (f a).length = n)
    (l : List α) : (l.flatMap f).length = l.length * n := by
  induction l with
  | nil => simp
  | cons a l ih => simp [h, ih, Nat.add_mul, Nat.add_comm]

theorem span_crc (c : LeafContents) (crc : UInt32) :
    ({ c with crc := crc } : LeafContents).span = c.span := rfl

theorem length_span (c : LeafContents) : c.span.length = crcSpanBytes := by
  have hk := length_flatMap_const Key.length_bytes c.keys.toList
  have hv := length_flatMap_const (fun v : Value => length_leBytes 8 v.toNat) c.vals.toList
  simp only [span, List.length_append, hk, hv, Key.length_bytes, length_leBytes, Vector.length_toList,
    crcSpanBytes]
  omega

theorem length_bitsOf (bs : List UInt8) : (bitsOf bs).length = bs.length * 8 :=
  length_flatMap_const (fun b => by simp) bs

theorem bitsOf_append (bs bs' : List UInt8) : bitsOf (bs ++ bs') = bitsOf bs ++ bitsOf bs' :=
  List.flatMap_append

/-! ## Bursts -/

/-- The bits of two lists that agree outside of a window, cut at its ends. -/
theorem exists_window {l l' : List Bool} {n : Nat} (hlen : l.length = l'.length)
    (hout : ∀ i, i < p ∨ p + n ≤ i → l'[i]? = l[i]?) :
    ∃ pre a a' post, l = pre ++ a ++ post ∧ l' = pre ++ a' ++ post ∧ a.length = a'.length ∧
      a.length ≤ n := by
  refine ⟨l.take p, (l.drop p).take n, (l'.drop p).take n, l.drop (p + n), ?_, ?_, ?_, ?_⟩
  · rw [List.append_assoc, ← List.drop_drop, List.take_append_drop, List.take_append_drop]
  · have hpre : l.take p = l'.take p := by
      refine List.ext_getElem? fun i => ?_
      rw [List.getElem?_take, List.getElem?_take]
      by_cases hi : i < p
      · rw [if_pos hi, if_pos hi, hout i (Or.inl hi)]
      · rw [if_neg hi, if_neg hi]
    have hpost : l.drop (p + n) = l'.drop (p + n) := by
      refine List.ext_getElem? fun i => ?_
      rw [List.getElem?_drop, List.getElem?_drop, hout _ (Or.inr (Nat.le_add_right _ _))]
    rw [hpre, hpost, List.append_assoc, ← List.drop_drop, List.take_append_drop,
      List.take_append_drop]
  · simp [hlen]
  · simp

theorem crc32Poly_msb : crc32Poly.msb = true := by decide +kernel

theorem Burst.crc32_ne (h : Burst p c c') : crc32 c'.span ≠ crc32 c.span := by
  have hlen : (bitsOf c.span).length = (bitsOf c'.span).length := by
    rw [length_bitsOf, length_bitsOf, length_span, length_span]
  obtain ⟨pre, a, a', post, h1, h2, hl, hw⟩ := exists_window hlen h.outside
  have hne : a' ≠ a := by
    rintro rfl
    obtain ⟨i, hi⟩ := h.altered
    exact hi (by rw [h1, h2])
  have hreg := register_ne_of_burst (r := BitVec.allOnes 32) crc32Poly_msb pre post
    hl.symm (hl ▸ hw) hne
  rw [← h1, ← h2] at hreg
  intro heq
  have hbits := congrArg UInt32.toBitVec heq
  simp only [crc32] at hbits
  exact hreg ((BitVec.xor_left_inj _).mp hbits)

/-- A burst of at most 32 bits in the covered span is detected, and the checksum is right again when
it is undone. -/
theorem verifyCrc_of_burst (h : Burst p c.computeAndSetCrc c') :
    c'.verifyCrc = false ∧
      ∀ c'' : LeafContents, c''.span = c.span → c''.crc = c'.crc → c''.verifyCrc = true := by
  have hcrc : c'.crc = crc32 c.span := h.crc
  refine ⟨?_, fun c'' hspan hcrc'' => ?_⟩
  · have hne : crc32 c'.span ≠ crc32 c.span := h.crc32_ne
    simpa [verifyCrc, hcrc] using hne.symm
  · simp [verifyCrc, hspan, hcrc'', hcrc]

/-- A leaf whose slots are all in use, with `n` as its `is_orphan`. -/
def filled (n : UInt32) : LeafContents where
  kmin := .ofNat 100
  kmax := .ofNat 9000
  nextHandleOffset := 0x1f40
  isOrphan := n
  entryCount := UInt32.ofNat kFanoutData
  keys := Vector.ofFn fun i => .ofNat (100 + 7 * i)
  vals := Vector.ofFn fun i => UInt64.ofNat (1000003 * i)
  crc := 0
  pad0 := 0

/-- The bits of a string, seen from the start of a part of it. -/
theorem getElem?_bitsOf {pre bs post : List UInt8} (i : Nat) :
    (bitsOf (pre ++ bs ++ post))[i]? =
      if i < pre.length * 8 then (bitsOf pre)[i]?
      else if i - pre.length * 8 < bs.length * 8 then (bitsOf bs)[i - pre.length * 8]?
      else (bitsOf post)[i - pre.length * 8 - bs.length * 8]? := by
  rw [List.append_assoc, bitsOf_append, bitsOf_append, List.getElem?_append, List.getElem?_append,
    length_bitsOf, length_bitsOf]

/-- Eleven bits of `is_orphan` are flipped, on both sides of a byte boundary. -/
theorem filled_burst : Burst 453 (filled 0).computeAndSetCrc
    { filled 0xffe0 with crc := crc32 (filled 0).span } := by
  obtain ⟨pre, post, hpre, hspan⟩ : ∃ pre post : List UInt8, pre.length = 56 ∧
      ∀ n, (filled n).span = pre ++ leBytes 4 n.toNat ++ post :=
    ⟨(filled 0).kmin.bytes ++ (filled 0).kmax.bytes ++ leBytes 8 (filled 0).nextHandleOffset.toNat,
      leBytes 4 (filled 0).entryCount.toNat ++ (filled 0).keys.toList.flatMap Key.bytes ++
        (filled 0).vals.toList.flatMap fun v => leBytes 8 v.toNat,
      by simp [keySize], fun n => by simp [span, filled]⟩
  have hbits : ∀ n i, (bitsOf (filled n).span)[i]? =
      if i < 448 then (bitsOf pre)[i]?
      else if i - 448 < 32 then (bitsOf (leBytes 4 n.toNat))[i - 448]?
      else (bitsOf post)[i - 448 - 32]? := by
    intro n i
    rw [hspan, getElem?_bitsOf, hpre, length_leBytes]
  have hlow : ∀ j < 5, (bitsOf (leBytes 4 (0xffe0 : UInt32).toNat))[j]? =
      (bitsOf (leBytes 4 (0 : UInt32).toNat))[j]? := by decide
  refine ⟨rfl, fun i hi => ?_, 453, ?_⟩
  · rw [computeAndSetCrc, span_crc (filled 0xffe0), span_crc (filled 0), hbits, hbits]
    by_cases hlt : i < 448
    · rw [if_pos hlt, if_pos hlt]
    · rw [if_neg hlt, if_neg hlt]
      by_cases hw : i - 448 < 32
      · rw [if_pos hw, if_pos hw]
        exact hlow _ (by omega)
      · rw [if_neg hw, if_neg hw]
  · rw [computeAndSetCrc, span_crc (filled 0xffe0), span_crc (filled 0), hbits, hbits]
    have hbit : (bitsOf (leBytes 4 (0xffe0 : UInt32).toNat))[5]? ≠
        (bitsOf (leBytes 4 (0 : UInt32).toNat))[5]? := by decide
    simpa using hbit

/-- The burst is detected. -/
theorem verifyCrc_of_burst_filled :
    Burst 453 (filled 0).computeAndSetCrc { filled 0xffe0 with crc := crc32 (filled 0).span } ∧
      ({ filled 0xffe0 with crc := crc32 (filled 0).span } : LeafContents).verifyCrc = false ∧
      ∀ c'' : LeafContents, c''.span = (filled 0).span → c''.crc = crc32 (filled 0).span →
        c''.verifyCrc = true :=
  ⟨filled_burst, verifyCrc_of_burst filled_burst⟩

end DMTree.SkipVector.LeafContents
