import Mathlib

/-!
# Numbers as bytes, and byte-addressed memory

Little-endian encodings of a fixed length, and a flat memory that is read and written a range at a
time. A write is described by what it does inside its range and that it does nothing outside of it.
-/

namespace Bytes

/-! ## Little-endian numbers -/

/-- The lowest `n` bytes of `x`, least significant byte first. -/
def leBytes : Nat → Nat → List UInt8
  | 0, _ => []
  | n + 1, x => UInt8.ofNat x :: leBytes n (x / 256)

/-- The number that bytes encode, least significant byte first. -/
def leNat : List UInt8 → Nat
  | [] => 0
  | b :: bs => b.toNat + 256 * leNat bs

@[simp] theorem length_leBytes (n x : Nat) : (leBytes n x).length = n := by
  induction n generalizing x with
  | zero => rfl
  | succ n ih => simp [leBytes, ih]

theorem leNat_lt (bs : List UInt8) : leNat bs < 256 ^ bs.length := by
  induction bs with
  | nil => simp [leNat]
  | cons b bs ih =>
    have hb : b.toNat < 256 := b.toNat_lt
    have hpow : 256 ^ (b :: bs).length = 256 * 256 ^ bs.length := by
      rw [List.length_cons, Nat.pow_succ, Nat.mul_comm]
    rw [leNat, hpow]
    omega

theorem leNat_leBytes (n x : Nat) : leNat (leBytes n x) = x % 256 ^ n := by
  induction n generalizing x with
  | zero => simp [leBytes, leNat, Nat.mod_one]
  | succ n ih =>
    have hx : (UInt8.ofNat x).toNat = x % 256 := UInt8.toNat_ofNat'
    rw [leBytes, leNat, ih, hx, Nat.pow_succ, Nat.mul_comm (256 ^ n) 256, Nat.mod_mul]

/-- Every string of bytes is the encoding of its number. -/
theorem leBytes_leNat (bs : List UInt8) : leBytes bs.length (leNat bs) = bs := by
  induction bs with
  | nil => rfl
  | cons b bs ih =>
    have hb : b.toNat < 256 := b.toNat_lt
    have hdiv : (b.toNat + 256 * leNat bs) / 256 = leNat bs := by omega
    have hlow : UInt8.ofNat (b.toNat + 256 * leNat bs) = b := by
      apply UInt8.toNat_inj.mp
      rw [UInt8.toNat_ofNat']
      omega
    rw [List.length_cons, leNat, leBytes, hdiv, ih, hlow]

/-- Only the lowest bytes of a number are written. -/
theorem leBytes_mod (n x : Nat) : leBytes n (x % 256 ^ n) = leBytes n x := by
  have h := leBytes_leNat (leBytes n x)
  rwa [length_leBytes, leNat_leBytes] at h

theorem leBytes_zero (n : Nat) : leBytes n 0 = List.replicate n 0 := by
  induction n with
  | zero => rfl
  | succ n ih => rw [leBytes, Nat.zero_div, ih, List.replicate_succ]; rfl

/-! ## Memory -/

/-- A byte-addressed memory. -/
abbrev Mem := Nat → UInt8

/-- The `n` bytes from address `a` on. -/
def bytesAt (m : Mem) (a n : Nat) : List UInt8 := (List.range n).map fun i => m (a + i)

/-- The memory after `bs` has been written from address `a` on. -/
def setBytes (m : Mem) (a : Nat) (bs : List UInt8) : Mem :=
  fun x => if a ≤ x then (bs[x - a]?).getD (m x) else m x

section

variable {m m' : Mem} {a b n i x : Nat} {bs : List UInt8}

@[simp] theorem length_bytesAt : (bytesAt m a n).length = n := by simp [bytesAt]

theorem getElem?_bytesAt (hi : i < n) : (bytesAt m a n)[i]? = some (m (a + i)) := by
  simp [bytesAt, hi]

/-- A byte inside the range that is written. -/
theorem setBytes_inside (hi : i < bs.length) : setBytes m a bs (a + i) = bs[i] := by
  simp [setBytes, hi]

/-- A byte outside the range that is written. -/
theorem setBytes_outside (hx : x < a ∨ a + bs.length ≤ x) : setBytes m a bs x = m x := by
  unfold setBytes
  by_cases ha : a ≤ x
  · have hnone : bs[x - a]? = none := List.getElem?_eq_none (by omega)
    rw [if_pos ha, hnone, Option.getD_none]
  · rw [if_neg ha]

/-- A range is read back as it was written. -/
theorem bytesAt_setBytes_self (hn : n = bs.length) : bytesAt (setBytes m a bs) a n = bs := by
  subst hn
  refine List.ext_getElem (by simp) fun i h1 h2 => ?_
  simp only [bytesAt, List.getElem_map, List.getElem_range]
  exact setBytes_inside h2

theorem bytesAt_congr (h : ∀ i < n, m (a + i) = m' (b + i)) : bytesAt m a n = bytesAt m' b n := by
  refine List.map_congr_left fun i hi => ?_
  exact h i (List.mem_range.mp hi)

/-- A range that does not meet the written one. -/
theorem bytesAt_setBytes_of_disjoint (h : b + n ≤ a ∨ a + bs.length ≤ b) :
    bytesAt (setBytes m a bs) b n = bytesAt m b n := by
  refine bytesAt_congr fun i hi => setBytes_outside ?_
  omega

/-- The range after a shorter one and the rest of it. -/
theorem bytesAt_add {k : Nat} : bytesAt m a (n + k) = bytesAt m a n ++ bytesAt m (a + n) k := by
  simp only [bytesAt, List.range_add, List.map_append, List.map_map]
  congr 1
  refine List.map_congr_left fun i _ => ?_
  simp [Nat.add_assoc]

/-- A part of a range. -/
theorem take_drop_bytesAt {k : Nat} (h : i + k ≤ n) :
    ((bytesAt m a n).drop i).take k = bytesAt m (a + i) k := by
  obtain ⟨j, rfl⟩ := Nat.exists_eq_add_of_le h
  rw [bytesAt_add, bytesAt_add, List.append_assoc, List.drop_left' length_bytesAt,
    List.take_left' length_bytesAt]

/-- A memory that starts with given bytes. -/
theorem bytesAt_getD : bytesAt (fun x => bs.getD x 0) 0 bs.length = bs := by
  refine List.ext_getElem length_bytesAt fun i h1 h2 => ?_
  simp only [bytesAt, List.getElem_map, List.getElem_range, Nat.zero_add]
  rw [List.getD_eq_getElem?_getD, List.getElem?_eq_getElem h2, Option.getD_some]

/-- One byte is written. -/
theorem bytesAt_setBytes_byte {y : UInt8} :
    bytesAt (setBytes m (a + i) [y]) a n = (bytesAt m a n).set i y := by
  refine List.ext_getElem (by simp) fun j hj _ => ?_
  rw [List.getElem_set]
  simp only [bytesAt, List.getElem_map, List.getElem_range]
  by_cases hij : i = j
  · subst hij
    rw [if_pos rfl]
    exact setBytes_inside (m := m) (a := a + i) (i := 0) (show 0 < [y].length by simp)
  · rw [if_neg hij]
    refine setBytes_outside ?_
    rw [List.length_singleton]
    omega

/-! ## Bytes that stand in memory -/

/-- The bytes `bs` stand at address `a`. -/
def At (m : Mem) (a : Nat) (bs : List UInt8) : Prop := bytesAt m a bs.length = bs

theorem At.read (h : At m a bs) (hn : bs.length = n) : bytesAt m a n = bs := hn ▸ h

/-- A part of bytes that stand in memory. -/
theorem At.part {k : Nat} (h : At m a bs) (hi : i + k ≤ bs.length) :
    bytesAt m (a + i) k = (bs.drop i).take k := by
  rw [← take_drop_bytesAt hi, h.read rfl]

theorem at_singleton {y : UInt8} : At m a [y] ↔ m a = y := by simp [At, bytesAt]

theorem at_append {cs : List UInt8} : At m a (bs ++ cs) ↔ At m a bs ∧ At m (a + bs.length) cs := by
  unfold At
  rw [List.length_append, bytesAt_add]
  refine ⟨fun h => List.append_inj h length_bytesAt, fun ⟨h1, h2⟩ => ?_⟩
  rw [h1, h2]

/-- Bytes stay where none of them is written. -/
theorem At.frame (h : At m a bs) (hm : ∀ y, a ≤ y → y < a + bs.length → m' y = m y) : At m' a bs :=
  (bytesAt_congr fun i hi => hm _ (by omega) (by omega)).trans h

theorem at_setBytes : At (setBytes m a bs) a bs := bytesAt_setBytes_self rfl

theorem At.setBytes {cs : List UInt8} (h : At m b cs) (hd : b + cs.length ≤ a ∨ a + bs.length ≤ b) :
    At (setBytes m a bs) b cs := (bytesAt_setBytes_of_disjoint hd).trans h

/-- A part of a range of equal bytes. -/
theorem At.replicate {k : Nat} {y : UInt8} (h : At m a (List.replicate n y)) (hi : i + k ≤ n) :
    At m (a + i) (List.replicate k y) := by
  obtain ⟨j, rfl⟩ := Nat.exists_eq_add_of_le hi
  rw [← List.replicate_append_replicate, ← List.replicate_append_replicate, at_append, at_append,
    List.length_replicate] at h
  exact h.1.2

/-- One byte is replaced. -/
theorem At.set {y : UInt8} (h : At m a bs) :
    At (Bytes.setBytes m (a + i) [y]) a (bs.set i y) := by
  unfold At
  rw [List.length_set, bytesAt_setBytes_byte, h]

end

end Bytes
