import Mathlib

/-!
# Cyclic redundancy checks

The shift register of a reflected CRC: bits enter at the low end, and the generator `P` is added when
the bit that is shifted out differs from the one that comes in. The register is linear in its contents
and its input, so two inputs can be compared by running the register on their difference. When the
highest bit of `P` is set a step can be undone, and a register that starts at zero cannot come back to
zero within as many bits as it is wide unless all of them are zero.
-/

namespace Crc

/-- The bits of a byte string, least significant bit of each byte first. -/
def bitsOf (bs : List UInt8) : List Bool :=
  bs.flatMap fun b => (List.range 8).map b.toBitVec.getLsbD

variable {w : Nat} (P : BitVec w)

/-- One bit enters the register. -/
def step (r : BitVec w) (b : Bool) : BitVec w :=
  (r >>> 1) ^^^ if r.getLsbD 0 ^^ b then P else 0#w

/-- The register after the bits have entered. -/
def register (r : BitVec w) (bits : List Bool) : BitVec w := bits.foldl (step P) r

variable {P} {r r' : BitVec w} {b b' : Bool} {bits bits' : List Bool} {j : Nat}

/-! ## Linearity -/

theorem step_xor : step P (r ^^^ r') (b ^^ b') = step P r b ^^^ step P r' b' := by
  have hshift : (r ^^^ r') >>> 1 = (r >>> 1) ^^^ (r' >>> 1) := BitVec.ushiftRight_xor_distrib ..
  have hcond : ((r ^^^ r').getLsbD 0 ^^ (b ^^ b')) =
      ((r.getLsbD 0 ^^ b) ^^ (r'.getLsbD 0 ^^ b')) := by
    rw [BitVec.getLsbD_xor]
    cases r.getLsbD 0 <;> cases r'.getLsbD 0 <;> cases b <;> cases b' <;> rfl
  unfold step
  rw [hshift, hcond]
  generalize r >>> 1 = x
  generalize r' >>> 1 = y
  refine BitVec.eq_of_getLsbD_eq fun i _ => ?_
  cases r.getLsbD 0 ^^ b <;> cases r'.getLsbD 0 ^^ b' <;>
    simp [Bool.xor_comm, Bool.xor_left_comm]

theorem register_xor : ∀ {bits bits' : List Bool} {r r' : BitVec w}, bits.length = bits'.length →
    register P (r ^^^ r') (bits.zipWith (· ^^ ·) bits') = register P r bits ^^^ register P r' bits' := by
  intro bits
  induction bits with
  | nil =>
    intro bits' r r' h
    rw [List.eq_nil_of_length_eq_zero h.symm]
    rfl
  | cons b bits ih =>
    intro bits' r r' h
    cases bits' with
    | nil => cases h
    | cons b' bits' =>
      have hrest : register P (step P r b ^^^ step P r' b') (bits.zipWith (· ^^ ·) bits') =
          register P (step P r b) bits ^^^ register P (step P r' b') bits' := ih (Nat.succ.inj h)
      rw [← step_xor] at hrest
      exact hrest

theorem register_append : register P r (bits ++ bits') = register P (register P r bits) bits' :=
  List.foldl_append

/-! ## Steps backwards -/

/-- A register whose highest bit is clear was only shifted by its last step. -/
theorem shifted_of_msb (hP : P.msb = true) (h : (step P r b).msb = false) :
    b = r.getLsbD 0 ∧ step P r b = r >>> 1 := by
  have hw : 0 < w := by
    rcases Nat.eq_zero_or_pos w with rfl | hw
    · simp [BitVec.msb, BitVec.getMsbD] at hP
    · exact hw
  by_cases hc : (r.getLsbD 0 ^^ b) = true
  · -- the generator was added: its highest bit is in the register
    exfalso
    have hstep : step P r b = (r >>> 1) ^^^ P := by rw [step, if_pos hc]
    rw [hstep, BitVec.msb_xor, hP] at h
    simp [BitVec.msb_ushiftRight] at h
  · have hb : b = r.getLsbD 0 := by
      cases hb : b <;> cases hr : r.getLsbD 0 <;> simp_all
    exact ⟨hb, by rw [step, if_neg hc, BitVec.xor_zero]⟩

theorem msb_of_toNat_lt (h : r.toNat < 2 ^ (w - 1)) : r.msb = false :=
  BitVec.msb_eq_false_iff_two_mul_lt.mpr (by
    rcases Nat.eq_zero_or_pos w with rfl | hw
    · have := r.isLt
      omega
    · have hpow : 2 ^ w = 2 * 2 ^ (w - 1) := by
        conv_lhs => rw [show w = (w - 1) + 1 by omega, Nat.pow_succ, Nat.mul_comm]
      omega)

/-- A register that ends below `2 ^ j` was below `2 ^ (j + n)` before `n` bits. -/
theorem toNat_lt_of_register (hP : P.msb = true) :
    ∀ {bits : List Bool} {r : BitVec w}, j + bits.length ≤ w →
      (register P r bits).toNat < 2 ^ j → r.toNat < 2 ^ (j + bits.length) := by
  intro bits
  induction bits with
  | nil =>
    intro r _ h
    exact h
  | cons b bits ih =>
    intro r hw h
    simp only [List.length_cons] at hw ⊢
    have hlt : (step P r b).toNat < 2 ^ (j + bits.length) := ih (by omega) h
    have hmsb : (step P r b).msb = false :=
      msb_of_toNat_lt (hlt.trans_le (Nat.pow_le_pow_right (by decide) (by omega)))
    rw [(shifted_of_msb hP hmsb).2, BitVec.toNat_ushiftRight, Nat.shiftRight_eq_div_pow] at hlt
    rw [← Nat.add_assoc, Nat.pow_succ]
    omega

/-- A register that starts at zero and comes back to it within its width has only seen zeros. -/
theorem all_false_of_register (hP : P.msb = true) :
    ∀ {bits : List Bool}, bits.length ≤ w → register P 0#w bits = 0#w → ∀ b ∈ bits, b = false := by
  intro bits
  induction bits with
  | nil =>
    intro _ _ b hb
    cases hb
  | cons b bits ih =>
    intro hw h
    simp only [List.length_cons] at hw
    have hback : (step P 0#w b).toNat < 2 ^ (0 + bits.length) := by
      refine toNat_lt_of_register hP (by omega) (lt_of_eq_of_lt ?_ (Nat.two_pow_pos 0))
      exact congrArg BitVec.toNat h
    have hmsb : (step P 0#w b).msb = false :=
      msb_of_toNat_lt (hback.trans_le (Nat.pow_le_pow_right (by decide) (by omega)))
    obtain ⟨hb, hstep⟩ := shifted_of_msb hP hmsb
    have hb : b = false := by simpa using hb
    have hzero : step P 0#w b = 0#w := by simpa using hstep
    intro c hc
    rcases List.mem_cons.mp hc with rfl | hc
    · exact hb
    · refine ih (by omega) ?_ c hc
      rw [register, List.foldl_cons, hzero] at h
      exact h

theorem eq_zero_of_step (hP : P.msb = true) (h : step P r false = 0#w) : r = 0#w := by
  obtain ⟨hlow, hshift⟩ := shifted_of_msb hP (by rw [h]; exact BitVec.msb_zero)
  have hhigh : r.toNat / 2 = 0 := by
    have hnat := congrArg BitVec.toNat (hshift.symm.trans h)
    simpa [BitVec.toNat_ushiftRight, Nat.shiftRight_eq_div_pow] using hnat
  have hbit : r.toNat % 2 = 0 := by
    rw [BitVec.getLsbD, Nat.testBit_zero] at hlow
    have hne := of_decide_eq_false hlow.symm
    omega
  apply BitVec.eq_of_toNat_eq
  rw [BitVec.toNat_zero]
  omega

/-- Registers that agree after the same bits agreed before. -/
theorem register_injective (hP : P.msb = true) :
    ∀ {bits : List Bool} {r r' : BitVec w}, register P r bits = register P r' bits → r = r' := by
  intro bits
  induction bits with
  | nil =>
    intro r r' h
    exact h
  | cons b bits ih =>
    intro r r' h
    have hstep : step P r b = step P r' b := ih h
    have hdiff : step P (r ^^^ r') (b ^^ b) = step P r b ^^^ step P r' b := step_xor
    rw [Bool.xor_self, hstep, BitVec.xor_self] at hdiff
    exact BitVec.xor_eq_zero_iff.mp (eq_zero_of_step hP hdiff)

/-- Inputs that differ, and only inside a window no longer than the register, are told apart. -/
theorem register_ne_of_burst (hP : P.msb = true) (pre post : List Bool)
    (hlen : bits.length = bits'.length) (hw : bits.length ≤ w) (hne : bits ≠ bits') :
    register P r (pre ++ bits ++ post) ≠ register P r (pre ++ bits' ++ post) := by
  intro h
  simp only [register_append] at h
  have hmid := register_injective hP h
  have hdiff : register P (register P r pre ^^^ register P r pre) (bits.zipWith (· ^^ ·) bits') =
      register P (register P r pre) bits ^^^ register P (register P r pre) bits' := register_xor hlen
  rw [BitVec.xor_self, hmid, BitVec.xor_self] at hdiff
  have hall := all_false_of_register hP (by simpa [hlen] using hw) hdiff
  refine hne (List.ext_getElem hlen fun i h1 h2 => ?_)
  have hi : (bits[i] ^^ bits'[i]) = false :=
    hall _ (List.mem_iff_getElem.mpr ⟨i, by simp [h1, h2], by simp⟩)
  simpa using hi

end Crc
