import DMTree.Raw.FPTable

/-!
# The mutators of a fingerprint table

Each mutator but `add_version` changes its own field and the checksum, and leaves the checksum right.
`add_version` moves the version pointer of the object, so that later calls read and write behind the
version.
-/

namespace DMTree.Raw

open Bytes Buffers

namespace FPTable

variable {ι : Type} {H : List UInt8 → UInt32} {place : ι → Nat} {b : ι} {n a : Nat} {m m' : Mem}
  {c : Fields} {i k : Nat}

/-! ## The fields in memory -/

/-- The table of capacity `n` at address `a` has the fields `c` and the right checksum. -/
structure Holds (H : List UInt8 → UInt32) (m : Mem) (a n : Nat) (c : Fields) : Prop where
  fields : fieldsAt m a n = c
  crc : leNat (bytesAt m (a + 8 + n) 4) = (H (bytesAt m a (n + 8))).toNat

/-- Two memories that differ at most inside the table. -/
def SameOutside (m m' : Mem) (a n : Nat) : Prop := ∀ x, x < a ∨ a + (n + 24) ≤ x → m' x = m x

theorem SameOutside.trans {m'' : Mem} (h : SameOutside m m' a n) (h' : SameOutside m' m'' a n) :
    SameOutside m m'' a n := fun x hx => (h' x hx).trans (h x hx)

theorem sameOutside_setBytes {bs : List UInt8} {x : Nat} (h1 : a ≤ x) (h2 : x + bs.length ≤ a + (n + 24)) :
    SameOutside m (setBytes m x bs) a n := fun y hy => setBytes_outside (by omega)

theorem take_leBytes (x : Nat) : ∀ {k n : Nat}, k ≤ n → (leBytes n x).take k = leBytes k x := by
  intro k n h
  induction n generalizing k x with
  | zero =>
    obtain rfl : k = 0 := by omega
    rfl
  | succ n ih =>
    cases k with
    | zero => rfl
    | succ k => simp [leBytes, ih (x / 256) (Nat.le_of_succ_le_succ h)]

/-- The lower half of a 64-bit word that was stored. -/
theorem leNat_low_word {x : Nat} (hx : x < 2 ^ 32) :
    leNat (bytesAt (setBytes m a (leBytes 8 x)) a 4) = x := by
  have hread : bytesAt (setBytes m a (leBytes 8 x)) a 4 = leBytes 4 x := by
    have hall : bytesAt (setBytes m a (leBytes 8 x)) a (4 + 4) = leBytes 8 x :=
      bytesAt_setBytes_self (by simp)
    rw [bytesAt_add] at hall
    have htake := congrArg (List.take 4) hall
    rwa [take_leBytes x (by decide), List.take_left' length_bytesAt] at htake
  rw [hread, leNat_leBytes]
  exact Nat.mod_eq_of_lt (by omega)

/-! ## The checksum -/

theorem setConsistent_run (m : Mem) :
    ((attach b 0 n).setConsistent H).run place m =
      some ((), setBytes m (place b + 8 + n) (leBytes 8 (H (bytesAt m (place b) (n + 8))).toNat)) := by
  have hsize : n + 8 * 3 - 8 * 2 = n + 8 := by omega
  simp only [setConsistent, attach, getSize, Nat.zero_add, hsize]
  rw [Code.run_bind_of (Code.run_get ..), Code.run_put, Nat.add_zero, ← Nat.add_assoc]

/-- The checksum is right after it has been set, and the fields are what they were. -/
theorem holds_setConsistent :
    Holds H (setBytes m (a + 8 + n) (leBytes 8 (H (bytesAt m a (n + 8))).toNat)) a n (fieldsAt m a n) where
  fields := by
    have h1 : bytesAt (setBytes m (a + 8 + n) (leBytes 8 (H (bytesAt m a (n + 8))).toNat)) a 8 = bytesAt m a 8 :=
      bytesAt_setBytes_of_disjoint (by omega)
    have h2 : bytesAt (setBytes m (a + 8 + n) (leBytes 8 (H (bytesAt m a (n + 8))).toNat)) (a + 8) n =
        bytesAt m (a + 8) n := bytesAt_setBytes_of_disjoint (by omega)
    have h3 : bytesAt (setBytes m (a + 8 + n) (leBytes 8 (H (bytesAt m a (n + 8))).toNat)) (a + 8 + n + 8) 8 =
        bytesAt m (a + 8 + n + 8) 8 := bytesAt_setBytes_of_disjoint (by simp)
    simp only [fieldsAt, h1, h2, h3]
  crc := by
    have hspan : bytesAt (setBytes m (a + 8 + n) (leBytes 8 (H (bytesAt m a (n + 8))).toNat)) a (n + 8) =
        bytesAt m a (n + 8) := bytesAt_setBytes_of_disjoint (by omega)
    rw [leNat_low_word (UInt32.toNat_lt _), hspan]

/-- A change of the fields, and the checksum set after it. -/
theorem setConsistent_step (place : ι → Nat) (b : ι) {m : Mem} (hm : fieldsAt m' (place b) n = c)
    (hout : SameOutside m m' (place b) n) :
    ∃ m'', ((attach b 0 n).setConsistent H).run place m' = some ((), m'') ∧
      Holds H m'' (place b) n c ∧ SameOutside m m'' (place b) n := by
  refine ⟨_, setConsistent_run m', hm ▸ holds_setConsistent, hout.trans ?_⟩
  exact sameOutside_setBytes (by omega) (by simp; omega)

theorem Holds.checkConsistent (h : Holds H m (place b) n c) :
    ((attach b 0 n).checkConsistent H).run place m = some (true, m) := by
  have hsize : n + 8 * 3 - 8 * 2 = n + 8 := by omega
  have hcrc := h.crc
  simp only [FPTable.checkConsistent, attach, getSize, Nat.zero_add, hsize]
  rw [Code.run_bind_of (Code.run_get ..), Code.run_bind_of (Code.run_get ..), Code.run_pure,
    Nat.add_zero, ← Nat.add_assoc]
  simp [hcrc]

theorem holds_of_checkConsistent
    (h : ((attach b 0 n).checkConsistent H).run place m = some (true, m)) :
    Holds H m (place b) n (fieldsAt m (place b) n) := by
  refine ⟨rfl, ?_⟩
  have hsize : n + 8 * 3 - 8 * 2 = n + 8 := by omega
  simp only [FPTable.checkConsistent, attach, getSize, Nat.zero_add, hsize] at h
  rw [Code.run_bind_of (Code.run_get ..), Code.run_bind_of (Code.run_get ..), Code.run_pure,
    Nat.add_zero, ← Nat.add_assoc] at h
  simpa using congrArg (Option.map Prod.fst) h

theorem Holds.getVersion (h : Holds H m (place b) n c) :
    (attach b 0 n).getVersion.run place m = some (c.version, m) := by
  rw [← h.fields]
  rfl

/-! ## The mutators -/

theorem Holds.setVersion (h : Holds H m (place b) n c) {v : Nat} (hv : v < 2 ^ 64) :
    ∃ m', ((attach b 0 n).setVersion H v).run place m = some ((), m') ∧
      Holds H m' (place b) n { c with version := v } ∧ SameOutside m m' (place b) n := by
  have hfields : fieldsAt (setBytes m (place b) (leBytes 8 v)) (place b) n = { c with version := v } := by
    have h1 : leNat (bytesAt (setBytes m (place b) (leBytes 8 v)) (place b) 8) = v := by
      rw [bytesAt_setBytes_self (by simp), leNat_leBytes]
      exact Nat.mod_eq_of_lt (by omega)
    have h2 : bytesAt (setBytes m (place b) (leBytes 8 v)) (place b + 8) n = bytesAt m (place b + 8) n :=
      bytesAt_setBytes_of_disjoint (by simp)
    have h3 : bytesAt (setBytes m (place b) (leBytes 8 v)) (place b + 8 + n + 8) 8 =
        bytesAt m (place b + 8 + n + 8) 8 := bytesAt_setBytes_of_disjoint (by rw [length_leBytes]; omega)
    simp only [fieldsAt, h1, h2, h3, ← h.fields]
  obtain ⟨m', hrun, hh, hout⟩ := setConsistent_step (H := H) place b hfields
    (show SameOutside m _ _ _ from sameOutside_setBytes le_rfl (by rw [length_leBytes]; omega))
  refine ⟨m', ?_, hh, hout⟩
  rw [FPTable.setVersion, Code.run_bind_of (Code.run_put ..)]
  exact hrun

theorem Holds.unlock (h : Holds H m (place b) n c) :
    ∃ m', (attach b 0 n).unlock.run place m = some ((), m') ∧
      Holds H m' (place b) n { c with lock := 0 } ∧ SameOutside m m' (place b) n := by
  refine ⟨setBytes m (place b + 8 + n + 8) (leBytes 8 0), ?_, ⟨?_, ?_⟩, ?_⟩
  · simp only [FPTable.unlock, attach, Nat.zero_add, Code.run_put, Nat.add_assoc]
  · have h1 : bytesAt (setBytes m (place b + 8 + n + 8) (leBytes 8 0)) (place b) 8 = bytesAt m (place b) 8 :=
      bytesAt_setBytes_of_disjoint (by omega)
    have h2 : bytesAt (setBytes m (place b + 8 + n + 8) (leBytes 8 0)) (place b + 8) n =
        bytesAt m (place b + 8) n := bytesAt_setBytes_of_disjoint (by omega)
    have h3 : leNat (bytesAt (setBytes m (place b + 8 + n + 8) (leBytes 8 0)) (place b + 8 + n + 8) 8) = 0 := by
      rw [bytesAt_setBytes_self (by simp), leNat_leBytes, Nat.zero_mod]
    simp only [fieldsAt, h1, h2, h3, ← h.fields]
  · rw [bytesAt_setBytes_of_disjoint (by omega), bytesAt_setBytes_of_disjoint (by omega)]
    exact h.crc
  · exact sameOutside_setBytes (by omega) (by simp; omega)

/-- One slot is written. -/
theorem fieldsAt_slot {f : UInt8} (hi : i < n) (h : fieldsAt m a n = c) :
    fieldsAt (setBytes m (a + (8 + i)) [f]) a n = { c with fp := c.fp.set i f } := by
  have h1 : bytesAt (setBytes m (a + (8 + i)) [f]) a 8 = bytesAt m a 8 := bytesAt_setBytes_of_disjoint (by omega)
  have h2 : bytesAt (setBytes m (a + (8 + i)) [f]) (a + 8) n = (bytesAt m (a + 8) n).set i f := by
    rw [← Nat.add_assoc]
    exact bytesAt_setBytes_byte
  have h3 : bytesAt (setBytes m (a + (8 + i)) [f]) (a + 8 + n + 8) 8 = bytesAt m (a + 8 + n + 8) 8 :=
    bytesAt_setBytes_of_disjoint (by simp; omega)
  subst h
  simp only [fieldsAt, h1, h2, h3]

theorem sameOutside_slot {f : UInt8} (hi : i < n) :
    SameOutside m (setBytes m (a + (8 + i)) [f]) a n :=
  sameOutside_setBytes (by omega) (by simp; omega)

theorem incInt_run (hi : i + 1 < 2 ^ 31) : (incInt i : Code ι Nat).run place m = some (i + 1, m) := by
  rw [incInt, if_pos hi]
  rfl

theorem slot_eq {fp : List UInt8} (hfp : bytesAt m (a + 8) n = fp) (hi : i < fp.length) :
    bytesAt m (a + (8 + i)) 1 = [fp[i]] := by
  subst hfp
  simp only [bytesAt, List.range_one, List.map_cons, List.map_nil, List.getElem_map,
    List.getElem_range, Nat.add_zero, Nat.add_assoc]

/-- The loop of `insert` runs through a table without a free slot. -/
theorem insertLoop_full {fp : List UInt8} (hfp : bytesAt m (place b + 8) n = fp) (hn : n < 2 ^ 31)
    (f : UInt8) (hno : fp.findIdx? (· == 0) = none) :
    ∀ k i, i + k = n → ((attach b 0 n).insertLoop H f k i).run place m = some (none, m) := by
  have hlen : fp.length = n := by rw [← hfp, length_bytesAt]
  intro k
  induction k with
  | zero => exact fun _ _ => rfl
  | succ k ih =>
    intro i hi
    have hin : i < fp.length := by omega
    have hne : fp[i] ≠ 0 := by
      simpa using List.findIdx?_eq_none_iff.mp hno _ (List.getElem_mem hin)
    have hrun := ih (i + 1) (by omega)
    simp only [insertLoop, attach, Nat.zero_add] at hrun ⊢
    rw [Code.run_bind_of (Code.run_get ..), slot_eq hfp hin, if_neg (by simpa using hne),
      Code.run_bind_of (incInt_run (by omega))]
    exact hrun

/-- The loop of `insert` takes the first free slot and sets the checksum. -/
theorem insertLoop_found {fp : List UInt8} (hfp : bytesAt m (place b + 8) n = fp) {j : Nat}
    (hj : fp.findIdx? (· == 0) = some j) (hn : j < 2 ^ 31) (f : UInt8) :
    ∀ k i, i + k = n → i ≤ j → ((attach b 0 n).insertLoop H f k i).run place m =
      (((attach b 0 n).setConsistent H).run place (setBytes m (place b + (8 + j)) [f])).map
        fun x => (some j, x.2) := by
  obtain ⟨hlt, hzero, hfirst⟩ := List.findIdx?_eq_some_iff_getElem.mp hj
  have hlen : fp.length = n := by rw [← hfp, length_bytesAt]
  intro k
  induction k with
  | zero =>
    intro i hi hle
    omega
  | succ k ih =>
    intro i hi hle
    simp only [insertLoop, attach, Nat.zero_add]
    rw [Code.run_bind_of (Code.run_get ..), slot_eq hfp (show i < fp.length by omega)]
    by_cases hij : i = j
    · subst hij
      have hz : fp[i] = 0 := by simpa using hzero
      rw [if_pos (by rw [hz]), Code.run_bind_of (Code.run_put ..), Code.run_bind]
      cases Code.run place (setConsistent H (attach b 0 n)) (setBytes m (place b + (8 + i)) [f]) <;> rfl
    · have hne : fp[i] ≠ 0 := by simpa using hfirst i (by omega)
      have hrun := ih (i + 1) (by omega) (by omega)
      simp only [attach, Nat.zero_add] at hrun
      rw [if_neg (by simpa using hne), Code.run_bind_of (incInt_run (by omega))]
      exact hrun

theorem Holds.insert (h : Holds H m (place b) n c) (hn : n < 2 ^ 31) (f : UInt8) :
    ∃ m', ((attach b 0 n).insert H f).run place m = some ((c.call (.insert f)).2, m') ∧
      Holds H m' (place b) n (c.call (.insert f)).1 ∧ SameOutside m m' (place b) n := by
  have hfp : bytesAt m (place b + 8) n = c.fp := by rw [← h.fields]; rfl
  cases hfind : c.fp.findIdx? (· == 0) with
  | none =>
    refine ⟨m, ?_, by simpa [Fields.call, hfind] using h, fun _ _ => rfl⟩
    simp only [Fields.call, hfind]
    exact insertLoop_full hfp hn f hfind n 0 (Nat.zero_add n)
  | some j =>
    have hj : j < n := by
      have hlt := (List.findIdx?_eq_some_iff_getElem.mp hfind).1
      rwa [← hfp, length_bytesAt] at hlt
    have hcall : c.call (.insert f) = ({ c with fp := c.fp.set j f }, some j) := by
      simp [Fields.call, hfind]
    obtain ⟨m', hrun, hh, hout⟩ := setConsistent_step (H := H) place b
      (fieldsAt_slot (f := f) hj h.fields) (sameOutside_slot hj)
    refine ⟨m', ?_, hcall ▸ hh, hout⟩
    rw [hcall]
    refine (insertLoop_found hfp hfind (hj.trans hn) f n 0 (Nat.zero_add n) (Nat.zero_le j)).trans ?_
    rw [hrun]
    rfl

/-- The loop of `clean` has cleared the slots from `i` on. -/
theorem cleanLoop_run (place : ι → Nat) (b : ι) (hn : n < 2 ^ 31) :
    ∀ k i m c, i + k = n → fieldsAt m (place b) n = c →
      ∃ m', ((attach b 0 n).cleanLoop k i).run place m = some ((), m') ∧
        fieldsAt m' (place b) n = { c with fp := c.fp.take i ++ List.replicate k 0 } ∧
        SameOutside m m' (place b) n := by
  intro k
  induction k with
  | zero =>
    intro i m c hi h
    have hlen : c.fp.length = n := by rw [← h]; exact length_bytesAt
    refine ⟨m, rfl, ?_, fun _ _ => rfl⟩
    rw [List.replicate_zero, List.append_nil, List.take_of_length_le (by omega)]
    exact h
  | succ k ih =>
    intro i m c hi h
    have hlen : c.fp.length = n := by rw [← h]; exact length_bytesAt
    obtain ⟨m', hrun, hf, hout⟩ := ih (i + 1) _ _ (by omega)
      (fieldsAt_slot (f := 0) (show i < n by omega) h)
    refine ⟨m', ?_, ?_, (sameOutside_slot (show i < n by omega)).trans hout⟩
    · simp only [cleanLoop]
      rw [Code.run_bind_of (Code.run_put ..), Code.run_bind_of (incInt_run (by omega))]
      simpa only [attach, Nat.zero_add] using hrun
    · have hset : (c.fp.set i 0).take (i + 1) = c.fp.take i ++ [0] := by
        rw [List.take_succ_eq_append_getElem (by rw [List.length_set]; omega), List.getElem_set_self,
          List.take_set_of_le le_rfl]
      rw [hf, hset, List.append_assoc, List.replicate_succ]
      rfl

theorem Holds.clean (h : Holds H m (place b) n c) (hn : n < 2 ^ 31) :
    ∃ m', ((attach b 0 n).clean H).run place m = some ((), m') ∧
      Holds H m' (place b) n { c with fp := List.replicate c.fp.length 0 } ∧
      SameOutside m m' (place b) n := by
  have hlen : c.fp.length = n := by rw [← h.fields]; exact length_bytesAt
  obtain ⟨m₁, hrun₁, hf, hout⟩ := cleanLoop_run place b hn n 0 m c (Nat.zero_add n)
    h.fields
  obtain ⟨m', hrun, hh, hout'⟩ := setConsistent_step (H := H) place b hf hout
  refine ⟨m', ?_, ?_, hout'⟩
  · exact (Code.run_bind_of hrun₁).trans hrun
  · rw [hlen]
    simpa using hh

/-! ## Sequences of calls -/

/-- A call of any mutator but `add_version`. -/
theorem Holds.call (h : Holds H m (place b) n c) (hn : n < 2 ^ 31) {d : Call} (hd : d ≠ .addVersion) :
    ∃ m', ((attach b 0 n).call H d).run place m = some ((attach b 0 n, (c.call d).2), m') ∧
      Holds H m' (place b) n (c.call d).1 ∧ SameOutside m m' (place b) n := by
  cases d with
  | insert f =>
    obtain ⟨m', hrun, hh, hout⟩ := h.insert hn f
    exact ⟨m', Code.run_bind_of hrun, hh, hout⟩
  | setVersion v =>
    obtain ⟨m', hrun, hh, hout⟩ := h.setVersion v.toNat_lt
    exact ⟨m', Code.run_bind_of hrun, hh, hout⟩
  | addVersion => exact absurd rfl hd
  | clean =>
    obtain ⟨m', hrun, hh, hout⟩ := h.clean hn
    exact ⟨m', Code.run_bind_of hrun, hh, hout⟩
  | unlock =>
    obtain ⟨m', hrun, hh, hout⟩ := h.unlock
    exact ⟨m', Code.run_bind_of hrun, hh, hout⟩

theorem Holds.callAll (place : ι → Nat) (b : ι) (hn : n < 2 ^ 31) {ds : List Call}
    (hds : Call.addVersion ∉ ds) :
    ∀ {m : Mem} {c : Fields}, Holds H m (place b) n c →
      ∃ m', ((attach b 0 n).callAll H ds).run place m =
          some ((attach b 0 n, (c.callAll ds).2), m') ∧
        Holds H m' (place b) n (c.callAll ds).1 ∧ SameOutside m m' (place b) n := by
  induction ds with
  | nil =>
    intro m c h
    exact ⟨m, rfl, h, fun _ _ => rfl⟩
  | cons d ds ih =>
    intro m c h
    obtain ⟨m₁, hrun₁, hh₁, hout₁⟩ := h.call hn (d := d) (by rintro rfl; simp at hds)
    obtain ⟨m', hrun, hh, hout⟩ := ih (fun hmem => hds (List.mem_cons_of_mem _ hmem)) hh₁
    refine ⟨m', ?_, hh, hout₁.trans hout⟩
    rw [FPTable.callAll, Code.run_bind_of hrun₁, Code.run_bind_of hrun]
    rfl

/-- Calls of the mutators other than `add_version` on a table with a right checksum: the object keeps
its pointers, every field has the value that the calls imply, `insert` has returned the first free
slot, the checksum is right, and no byte outside of the table has changed. -/
theorem mutators_wellFormed (H : List UInt8 → UInt32) (a n : Nat) (m : Mem) (ds : List Call)
    (hn : n < 2 ^ 31) (hds : Call.addVersion ∉ ds)
    (hm : ((attach () 0 n).checkConsistent H).run (fun _ => a) m = some (true, m)) :
    ∃ m', ((attach () 0 n).callAll H ds).run (fun _ => a) m =
        some ((attach () 0 n, ((fieldsAt m a n).callAll ds).2), m') ∧
      fieldsAt m' a n = ((fieldsAt m a n).callAll ds).1 ∧
      ((attach () 0 n).checkConsistent H).run (fun _ => a) m' = some (true, m') ∧
      (attach () 0 n).getVersion.run (fun _ => a) m' =
        some (((fieldsAt m a n).callAll ds).1.version, m') ∧
      ∀ x, x < a ∨ a + (n + 24) ≤ x → m' x = m x := by
  have h : Holds H m a n (fieldsAt m a n) := holds_of_checkConsistent hm
  obtain ⟨m', hrun, hh, hout⟩ := Holds.callAll (fun _ => a) () hn hds h
  exact ⟨m', hrun, hh.fields, hh.checkConsistent, hh.getVersion, hout⟩

/-- An empty table of capacity 8 takes a fingerprint, a version and another fingerprint. -/
theorem mutators_wellFormed_three :
    ∃ m', ((attach () 0 8).callAll (fun _ => 0) [.insert 5, .setVersion 3, .insert 6]).run (fun _ => 0)
        (fun _ => 0) =
          some ((attach () 0 8, ((fieldsAt (fun _ => 0) 0 8).callAll
            [.insert 5, .setVersion 3, .insert 6]).2), m') ∧
      fieldsAt m' 0 8 = ((fieldsAt (fun _ => 0) 0 8).callAll [.insert 5, .setVersion 3, .insert 6]).1 ∧
      ((attach () 0 8).checkConsistent fun _ => 0).run (fun _ => 0) m' = some (true, m') ∧
      (attach () 0 8).getVersion.run (fun _ => 0) m' =
        some (((fieldsAt (fun _ => 0) 0 8).callAll
          [.insert 5, .setVersion 3, .insert 6]).1.version, m') ∧
      ∀ x, x < 0 ∨ 0 + (8 + 24) ≤ x → m' x = 0 :=
  mutators_wellFormed (fun _ => 0) 0 8 (fun _ => 0) [.insert 5, .setVersion 3, .insert 6] (by decide)
    (by decide) rfl

/-- A table with version 0 and fingerprints 1 in all of its 8 slots, apart from the checksum. -/
def onesTable : Mem := fun x => if x < 8 then 0 else 1

theorem addVersion_run (m : Mem) :
    ((attach () 0 8).callAll H [.addVersion]).run (fun _ => 0) m =
      some (({ attach () 0 8 with version := 8 }, [none]),
        setBytes m 16 (leBytes 8 (H (bytesAt m 8 16)).toNat)) := rfl

/-- Whatever the hash function is: after `add_version` the version that is read need not be the old one
plus one. It is read where the fingerprints are. -/
theorem addVersion_misreads :
    ¬ ∃ H : List UInt8 → UInt32, ∀ m : Mem,
      ((attach () 0 8).checkConsistent H).run (fun _ => 0) m = some (true, m) →
        ∃ t rs m', ((attach () 0 8).callAll H [.addVersion]).run (fun _ => 0) m = some ((t, rs), m') ∧
          t.getVersion.run (fun _ => 0) m' =
            some (((fieldsAt m 0 8).callAll [.addVersion]).1.version, m') := by
  rintro ⟨H, h⟩
  have hold : Holds H _ 0 8 (fieldsAt onesTable 0 8) := holds_setConsistent
  have hcheck : ((attach () 0 8).checkConsistent H).run (fun _ => 0) _ = _ := hold.checkConsistent
  obtain ⟨t, rs, m', hrun, hver⟩ := h _ hcheck
  rw [addVersion_run] at hrun
  cases hrun
  have hread : leNat (bytesAt _ 8 8) = _ := congrArg Prod.fst (Option.some.inj hver)
  rw [bytesAt_setBytes_of_disjoint (by omega), bytesAt_setBytes_of_disjoint (by omega)] at hread
  have hfields := hold.fields
  simp only [Fields.callAll, Fields.call, hfields] at hread
  exact absurd hread (by decide)

end FPTable

end DMTree.Raw
