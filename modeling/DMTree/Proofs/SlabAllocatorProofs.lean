import DMTree.SkipVector.SlabAllocator

/-!
# The slots of a slab allocator

A slab allocator keeps the slots it has handed out marked in its bitmap: `alloc` returns a slot that was
not marked, and `free` takes one that was.
-/

namespace DMTree.SkipVector.SlabAllocator

variable {a a' : SlabAllocator} {offset : Nat} {live : List Nat}

/-- The allocators that the constructor makes of the same arguments. -/
structure Same (a a' : SlabAllocator) : Prop where
  base : a'.base = a.base
  slotSize : a'.slotSize = a.slotSize
  numSlots : a'.numSlots = a.numSlots
  firstFree : a'.firstFree = a.firstFree

theorem Same.refl (a : SlabAllocator) : Same a a := ⟨rfl, rfl, rfl, rfl⟩

theorem Same.trans {a'' : SlabAllocator} (h : Same a a') (h' : Same a' a'') : Same a a'' :=
  ⟨h'.base.trans h.base, h'.slotSize.trans h.slotSize, h'.numSlots.trans h.numSlots,
    h'.firstFree.trans h.firstFree⟩

/-- An allocator whose hint is between the reserved slots and the end of the pool. -/
structure Ranged (a : SlabAllocator) : Prop where
  length : a.bitmap.length = a.numSlots
  room : a.firstFree < a.numSlots
  low : a.firstFree ≤ a.nextHint
  high : a.nextHint < a.numSlots

/-- An allocator that has slots to hand out. -/
structure Ok (a : SlabAllocator) : Prop extends a.Ranged where
  slotSize : 0 < a.slotSize

/-- The two adjustments of the hint keep it between the reserved slots and the end of the pool. -/
theorem advance_bounds (hroom : a.firstFree < a.numSlots) :
    a.firstFree ≤ a.advance ∧ a.advance < a.numSlots := by
  have hmod : (a.nextHint + 1) % a.numSlots < a.numSlots := Nat.mod_lt _ (by omega)
  unfold SlabAllocator.advance
  by_cases hlt : (a.nextHint + 1) % a.numSlots < a.firstFree
  · simp only [if_pos hlt]
    exact ⟨le_rfl, hroom⟩
  · simp only [if_neg hlt]
    exact ⟨not_lt.mp hlt, hmod⟩

theorem Ranged.next (h : a.Ranged) : Ranged { a with nextHint := a.advance } :=
  { h with low := (advance_bounds h.room).1, high := (advance_bounds h.room).2 }

/-- The slots that are handed out are those of `live`. -/
structure Tracks (a : SlabAllocator) (live : List Nat) : Prop where
  nodup : live.Nodup
  mem : ∀ o, o ∈ live ↔ ∃ i, a.firstFree ≤ i ∧ a.bitmap[i]? = some true ∧ o = a.base + i * a.slotSize

theorem Ok.offset_inj (h : a.Ok) {i j : Nat}
    (hij : a.base + i * a.slotSize = a.base + j * a.slotSize) : i = j :=
  Nat.eq_of_mul_eq_mul_right h.slotSize (Nat.add_left_cancel hij)

/-- What `alloc` does: it finds all slots marked, or it marks one that was not. -/
inductive Allocates (a : SlabAllocator) : Nat → SlabAllocator → Prop where
  | full {a' : SlabAllocator} (hs : Same a a') (hb : a'.bitmap = a.bitmap) (ho : a'.Ranged) :
      Allocates a kBad a'
  | slot {a' : SlabAllocator} (i : Nat) (hlow : a.firstFree ≤ i) (hfree : a.bitmap[i]? = some false)
      (hs : Same a a') (hb : a'.bitmap = a.bitmap.set i true) (ho : a'.Ranged) :
      Allocates a (a.base + i * a.slotSize) a'

theorem allocLoop_allocates (h : a.Ranged) (tries : Nat) :
    ∃ offset a', allocLoop tries a = some (offset, a') ∧ a.Allocates offset a' := by
  induction tries generalizing a with
  | zero => exact ⟨kBad, a, rfl, .full (.refl a) rfl h⟩
  | succ tries ih =>
    obtain ⟨b, hb⟩ : ∃ b, a.bitmap[a.nextHint]? = some b :=
      ⟨_, List.getElem?_eq_getElem (h.length.symm ▸ h.high)⟩
    unfold allocLoop
    rw [hb]
    cases b with
    | false =>
      exact ⟨_, _, rfl, .slot a.nextHint h.low hb ⟨rfl, rfl, rfl, rfl⟩ rfl
        { h.next with length := (List.length_set ..).trans h.length }⟩
    | true =>
      obtain ⟨offset, a', hrun, ha⟩ := ih h.next
      refine ⟨offset, a', hrun, ?_⟩
      cases ha with
      | full hs hb ho => exact .full ⟨hs.base, hs.slotSize, hs.numSlots, hs.firstFree⟩ hb ho
      | slot i hi hfree hs hb ho =>
        exact .slot i hi hfree ⟨hs.base, hs.slotSize, hs.numSlots, hs.firstFree⟩ hb ho

theorem Ranged.allocates (h : a.Ranged) (he : a.alloc = some (offset, a')) : a.Allocates offset a' := by
  obtain ⟨offset', a'', hrun, ha⟩ := allocLoop_allocates h a.numSlots
  obtain ⟨rfl, rfl⟩ : offset' = offset ∧ a'' = a' := by
    simpa using (Option.some.inj (hrun.symm.trans he))
  exact ha

theorem Allocates.same (h : a.Allocates offset a') : Same a a' := by
  cases h with
  | full hs _ _ => exact hs
  | slot _ _ _ hs _ _ => exact hs

theorem Allocates.ranged (h : a.Allocates offset a') : a'.Ranged := by
  cases h with
  | full _ _ ho => exact ho
  | slot _ _ _ _ _ ho => exact ho

/-- The offset of a slot is not `kBad`. -/
theorem offset_lt_kBad (h : a.Ok) (hfit : a.base + a.numSlots * a.slotSize < 2 ^ 64) {i : Nat} {b : Bool}
    (hi : a.bitmap[i]? = some b) : a.base + i * a.slotSize < kBad := by
  have hlt : i < a.numSlots := h.length ▸ (List.getElem?_eq_some_iff.mp hi).1
  have hmul : (i + 1) * a.slotSize ≤ a.numSlots * a.slotSize := Nat.mul_le_mul_right _ hlt
  have hpos := h.slotSize
  rw [Nat.add_mul] at hmul
  unfold kBad
  omega

/-- `alloc` hands out a slot that no caller has. -/
theorem Tracks.alloc (ht : a.Tracks live) (h : a.Ok)
    (hfit : a.base + a.numSlots * a.slotSize < 2 ^ 64) (ha : a.Allocates offset a') :
    a'.Tracks (if offset = kBad then live else offset :: live) := by
  cases ha with
  | full hs hb _ =>
    rw [if_pos rfl]
    exact ⟨ht.nodup, fun o => by rw [hb, hs.base, hs.slotSize, hs.firstFree]; exact ht.mem o⟩
  | slot i hlow hfree hs hb _ =>
    rw [if_neg (offset_lt_kBad h hfit hfree).ne]
    have hget : ∀ j, a'.bitmap[j]? = some true ↔ j = i ∨ a.bitmap[j]? = some true := by
      intro j
      have hlt := (List.getElem?_eq_some_iff.mp hfree).1
      rw [hb, List.getElem?_set]
      by_cases hj : i = j
      · subst hj
        simp [hlt]
      · rw [if_neg hj]
        simp [Ne.symm hj]
    refine ⟨List.nodup_cons.mpr ⟨fun hmem => ?_, ht.nodup⟩, fun o => ?_⟩
    · obtain ⟨j, -, hj, heq⟩ := (ht.mem _).mp hmem
      obtain rfl := h.offset_inj heq
      rw [hfree] at hj
      cases hj
    · simp only [List.mem_cons, ht.mem, hs.base, hs.slotSize, hs.firstFree, hget]
      constructor
      · rintro (rfl | ⟨j, h1, h2, h3⟩)
        · exact ⟨i, hlow, .inl rfl, rfl⟩
        · exact ⟨j, h1, .inr h2, h3⟩
      · rintro ⟨j, h1, rfl | h2, h3⟩
        · exact .inl h3
        · exact .inr ⟨j, h1, h2, h3⟩

/-- `free` clears one bit. -/
theorem Ranged.free (h : a.Ranged) (he : a.free offset = some a') : Same a a' ∧ a'.Ranged := by
  simp only [SlabAllocator.free] at he
  split at he
  · cases he
    exact ⟨⟨rfl, rfl, rfl, rfl⟩, { h with length := (List.length_set ..).trans h.length }⟩
  · cases he

/-- `free` takes back a slot that was handed out. -/
theorem Tracks.free (ht : a.Tracks live) (h : a.Ok) (he : a.free offset = some a') :
    a'.Tracks (live.erase offset) := by
  simp only [SlabAllocator.free] at he
  split at he
  · next hc =>
    obtain ⟨hbase, hmod, hlt, hlow, hset⟩ := hc
    cases he
    have hoff : offset = a.base + (offset - a.base) / a.slotSize * a.slotSize := by
      have hdiv := Nat.div_add_mod (offset - a.base) a.slotSize
      rw [hmod, Nat.mul_comm] at hdiv
      omega
    refine ⟨ht.nodup.erase _, fun o => ?_⟩
    rw [ht.nodup.mem_erase_iff, ht.mem]
    constructor
    · rintro ⟨hne, j, h1, h2, h3⟩
      refine ⟨j, h1, ?_, h3⟩
      rw [List.getElem?_set_ne]
      · exact h2
      · rintro rfl
        exact hne (h3.trans hoff.symm)
    · rintro ⟨j, h1, h2, h3⟩
      have hne : (offset - a.base) / a.slotSize ≠ j := by
        rintro rfl
        rw [List.getElem?_set_self (h.length.symm ▸ hlt)] at h2
        cases h2
      rw [List.getElem?_set_ne hne] at h2
      refine ⟨fun heq => hne ?_, j, h1, h2, h3⟩
      exact h.offset_inj (hoff.symm.trans (heq.symm.trans h3))
  · cases he

/-- The allocator that the constructor makes. -/
theorem new_ok {base slotSize numSlots firstReserved : Nat}
    (he : new base slotSize numSlots firstReserved = some a) (hs : 0 < slotSize)
    (hr : firstReserved < numSlots) : a.Ok ∧ a.Tracks [] := by
  rw [new, if_pos hr.le] at he
  cases he
  refine ⟨⟨⟨?_, hr, le_rfl, hr⟩, hs⟩, List.nodup_nil, fun o => ?_⟩
  · simp [hr.le]
  · simp only [List.not_mem_nil, false_iff, not_exists, not_and]
    intro i hi hset
    rw [List.getElem?_append_right (by simpa using hi), List.getElem?_replicate] at hset
    split at hset <;> cases hset

/-! ## The search for a free slot -/

/-- How many rounds of `alloc` go by before it looks at slot `i`. -/
def gap (a : SlabAllocator) (i : Nat) : Nat :=
  if a.nextHint ≤ i then i - a.nextHint else a.numSlots - a.nextHint + (i - a.firstFree)

theorem Ok.gap_lt (h : a.Ok) {i : Nat} (hlow : a.firstFree ≤ i) (hi : i < a.numSlots) :
    a.gap i < a.numSlots := by
  have hroom := h.room
  have hl := h.low
  have hh := h.high
  unfold gap
  split <;> omega

/-- A round that does not look at slot `i` comes one step closer to it, over the end of the pool too. -/
theorem Ok.gap_advance (h : a.Ok) {i : Nat} (hlow : a.firstFree ≤ i) (hi : i < a.numSlots)
    (hne : i ≠ a.nextHint) : gap { a with nextHint := a.advance } i + 1 = a.gap i := by
  have hroom := h.room
  have hl := h.low
  have hh := h.high
  have hadv : a.advance = if a.nextHint + 1 < a.numSlots then a.nextHint + 1 else a.firstFree := by
    simp only [SlabAllocator.advance]
    by_cases hlt : a.nextHint + 1 < a.numSlots
    · rw [Nat.mod_eq_of_lt hlt, if_pos hlt, if_neg (by omega)]
    · have hend : a.nextHint + 1 = a.numSlots := by omega
      rw [hend, Nat.mod_self, if_neg (Nat.lt_irrefl _)]
      by_cases h0 : 0 < a.firstFree
      · rw [if_pos h0]
      · rw [if_neg h0]
        omega
  unfold gap
  simp only [hadv]
  by_cases hlt : a.nextHint + 1 < a.numSlots
  · rw [if_pos hlt]
    split <;> split <;> omega
  · rw [if_neg hlt, if_pos hlow]
    split <;> omega

/-- The loop comes to a free slot that is fewer rounds away than it has left. -/
theorem allocLoop_finds (h : a.Ok) {i : Nat} (hlow : a.firstFree ≤ i)
    (hfree : a.bitmap[i]? = some false) {tries : Nat} (hgap : a.gap i < tries)
    (he : allocLoop tries a = some (offset, a')) :
    ∃ j, a.bitmap[j]? = some false ∧ offset = a.base + j * a.slotSize := by
  induction tries generalizing a with
  | zero => omega
  | succ tries ih =>
    have hi : i < a.numSlots := h.length ▸ (List.getElem?_eq_some_iff.mp hfree).1
    obtain ⟨b, hb⟩ : ∃ b, a.bitmap[a.nextHint]? = some b :=
      ⟨_, List.getElem?_eq_getElem (h.length.symm ▸ h.high)⟩
    unfold allocLoop at he
    rw [hb] at he
    cases b with
    | false =>
      obtain ⟨rfl, -⟩ := Prod.mk.inj (Option.some.inj he)
      exact ⟨a.nextHint, hb, rfl⟩
    | true =>
      have hne : i ≠ a.nextHint := by
        rintro rfl
        rw [hfree] at hb
        cases hb
      have hnext := h.gap_advance hlow hi hne
      exact ih (a := { a with nextHint := a.advance }) ⟨h.next, h.slotSize⟩ hlow hfree (by omega) he

/-- `used_count` stays the number of bits that are set. -/
theorem allocLoop_usedCount (h : a.usedCount = a.bitmap.count true) {tries : Nat}
    (he : allocLoop tries a = some (offset, a')) : a'.usedCount = a'.bitmap.count true := by
  induction tries generalizing a with
  | zero =>
    obtain ⟨-, rfl⟩ := Prod.mk.inj (Option.some.inj he)
    exact h
  | succ tries ih =>
    unfold allocLoop at he
    split at he
    · cases he
    · next hfree =>
      obtain ⟨-, rfl⟩ := Prod.mk.inj (Option.some.inj he)
      obtain ⟨hlt, hbit⟩ := List.getElem?_eq_some_iff.mp hfree
      rw [List.count_set hlt, hbit]
      simp [h]
    · exact ih (a := { a with nextHint := a.advance }) h he

/-! ## Histories -/

theorem allocated_alloc (calls : List Call) (offset : Nat) :
    allocated (calls ++ [.alloc offset]) =
      if offset = kBad then allocated calls else offset :: allocated calls := by
  simp [allocated]

theorem allocated_free (calls : List Call) (offset : Nat) :
    allocated (calls ++ [.free offset]) = (allocated calls).erase offset := by
  simp [allocated]

/-- What holds between two calls. -/
structure Kept (a₀ a : SlabAllocator) (live : List Nat) : Prop where
  same : Same a₀ a
  ok : a.Ok
  tracks : a.Tracks live
  count : a.usedCount = a.bitmap.count true

theorem Kept.fits {a₀ : SlabAllocator} (h : Kept a₀ a live)
    (hfit : a₀.base + a₀.numSlots * a₀.slotSize < 2 ^ 64) :
    a.base + a.numSlots * a.slotSize < 2 ^ 64 := by
  rwa [h.same.base, h.same.numSlots, h.same.slotSize]

theorem Kept.alloc {a₀ : SlabAllocator} (h : Kept a₀ a live)
    (hfit : a₀.base + a₀.numSlots * a₀.slotSize < 2 ^ 64) (he : a.alloc = some (offset, a')) :
    Kept a₀ a' (if offset = kBad then live else offset :: live) := by
  have ha := h.ok.allocates he
  exact ⟨h.same.trans ha.same, ⟨ha.ranged, ha.same.slotSize ▸ h.ok.slotSize⟩,
    h.tracks.alloc h.ok (h.fits hfit) ha, allocLoop_usedCount h.count he⟩

theorem free_usedCount (h : a.usedCount = a.bitmap.count true) (he : a.free offset = some a') :
    a'.usedCount = a'.bitmap.count true := by
  simp only [SlabAllocator.free] at he
  split at he
  · next hc =>
    obtain ⟨-, -, -, -, hset⟩ := hc
    cases he
    obtain ⟨hlt, hbit⟩ := List.getElem?_eq_some_iff.mp hset
    rw [List.count_set hlt, hbit]
    simp [h]
  · cases he

theorem Kept.free {a₀ : SlabAllocator} (h : Kept a₀ a live) (he : a.free offset = some a') :
    Kept a₀ a' (live.erase offset) := by
  obtain ⟨hs, ho⟩ := h.ok.toRanged.free he
  exact ⟨h.same.trans hs, ⟨ho, hs.slotSize ▸ h.ok.slotSize⟩, h.tracks.free h.ok he,
    free_usedCount h.count he⟩

/-- Every history of calls keeps the pool in order. -/
theorem After.kept {a₀ : SlabAllocator} {calls : List Call} (hrun : After a₀ calls a)
    (h₀ : Kept a₀ a₀ []) (hfit : a₀.base + a₀.numSlots * a₀.slotSize < 2 ^ 64) :
    Kept a₀ a (allocated calls) := by
  induction hrun with
  | new => exact h₀
  | alloc _ he ih =>
    rw [allocated_alloc]
    exact ih.alloc hfit he
  | free _ _ he ih =>
    rw [allocated_free]
    exact ih.free he

theorem new_kept {base slotSize numSlots firstReserved : Nat}
    (he : new base slotSize numSlots firstReserved = some a) (hs : 0 < slotSize)
    (hr : firstReserved < numSlots) : Kept a a [] := by
  obtain ⟨hok, htr⟩ := new_ok he hs hr
  refine ⟨.refl a, hok, htr, ?_⟩
  rw [new, if_pos hr.le] at he
  cases he
  simp [List.count_append, List.count_replicate]

/-- The offset of slot `i` is aligned and owned, and `slot_of` finds the slot again. -/
theorem Ok.offset_facts (h : a.Ok) {i : Nat} (hi : i < a.numSlots) :
    (a.base + i * a.slotSize - a.base) % a.slotSize = 0 ∧ a.owns (a.base + i * a.slotSize) = true ∧
      a.slotOf (a.base + i * a.slotSize) = some i ∧
      a.offsetOf i = some (a.base + i * a.slotSize) := by
  have hmul : i * a.slotSize < a.numSlots * a.slotSize := Nat.mul_lt_mul_of_pos_right hi h.slotSize
  have howns : a.owns (a.base + i * a.slotSize) = true := by
    simp only [owns, decide_eq_true_eq]
    omega
  refine ⟨?_, howns, ?_, if_pos hi⟩
  · rw [Nat.add_sub_cancel_left, Nat.mul_mod_left]
  · rw [slotOf, if_pos howns, Nat.add_sub_cancel_left, Nat.mul_div_cancel _ h.slotSize]

/-- What is allocated can be freed. -/
theorem Kept.free_isSome {a₀ : SlabAllocator} (h : Kept a₀ a live) (hmem : offset ∈ live) :
    (a.free offset).isSome = true := by
  obtain ⟨i, hlow, hset, rfl⟩ := (h.tracks.mem offset).mp hmem
  have hi : i < a.numSlots := h.ok.length ▸ (List.getElem?_eq_some_iff.mp hset).1
  have hdiv : (a.base + i * a.slotSize - a.base) / a.slotSize = i := by
    rw [Nat.add_sub_cancel_left, Nat.mul_div_cancel _ h.ok.slotSize]
  have hmod := (h.ok.offset_facts hi).1
  simp only [SlabAllocator.free, hdiv]
  rw [if_pos ⟨Nat.le_add_right _ _, hmod, hi, hlow, hset⟩]
  rfl

/-- `alloc` fails only when all slots are in use. -/
theorem Kept.alloc_eq_kBad {a₀ : SlabAllocator} (h : Kept a₀ a live)
    (hfit : a₀.base + a₀.numSlots * a₀.slotSize < 2 ^ 64) (he : a.alloc = some (offset, a')) :
    offset = kBad ↔ ∀ i, a.firstFree ≤ i → i < a.numSlots → a.base + i * a.slotSize ∈ live := by
  constructor
  · intro hbad i hlow hi
    by_contra hmem
    -- a slot that is not in use is free in the bitmap, and the search comes to it
    have hfree : a.bitmap[i]? = some false := by
      have hlt : i < a.bitmap.length := h.ok.length.symm ▸ hi
      cases hb : a.bitmap[i]? with
      | none => exact absurd hlt (by simpa using hb)
      | some b =>
        cases b with
        | false => rfl
        | true => exact absurd ((h.tracks.mem _).mpr ⟨i, hlow, hb, rfl⟩) hmem
    obtain ⟨j, hj, rfl⟩ := allocLoop_finds h.ok hlow hfree (h.ok.gap_lt hlow hi) he
    exact absurd hbad (offset_lt_kBad h.ok (h.fits hfit) hj).ne
  · intro hall
    cases h.ok.allocates he with
    | full => rfl
    | slot i hlow hfree =>
      have hi : i < a.numSlots := h.ok.length ▸ (List.getElem?_eq_some_iff.mp hfree).1
      obtain ⟨j, -, hset, heq⟩ := (h.tracks.mem _).mp (hall i hlow hi)
      obtain rfl := h.ok.offset_inj heq
      rw [hfree] at hset
      cases hset

/-- What `alloc` returns when it does not fail. -/
theorem Kept.alloc_offset {a₀ : SlabAllocator} (h : Kept a₀ a live)
    (he : a.alloc = some (offset, a')) (hne : offset ≠ kBad) :
    (offset - a.base) % a.slotSize = 0 ∧ a.owns offset = true ∧
      a.base + a.firstFree * a.slotSize ≤ offset ∧
      (∃ i, a.slotOf offset = some i ∧ a.offsetOf i = some offset) ∧ offset ∉ live := by
  cases h.ok.allocates he with
  | full => exact absurd rfl hne
  | slot i hlow hfree =>
    have hi : i < a.numSlots := h.ok.length ▸ (List.getElem?_eq_some_iff.mp hfree).1
    obtain ⟨hmod, howns, hslot, hoff⟩ := h.ok.offset_facts hi
    have hmul : a.firstFree * a.slotSize ≤ i * a.slotSize := Nat.mul_le_mul_right _ hlow
    refine ⟨hmod, howns, by omega, ⟨i, hslot, hoff⟩, fun hmem => ?_⟩
    obtain ⟨j, -, hset, heq⟩ := (h.tracks.mem _).mp hmem
    obtain rfl := h.ok.offset_inj heq
    rw [hfree] at hset
    cases hset

/-- After any calls: no assertion fails, `alloc` finds a slot exactly when one is not in use, what it
returns is a slot that is not reserved and not allocated, and `used_count` counts the bits. -/
theorem alloc_correct {base slotSize numSlots firstReserved : Nat} {a₀ : SlabAllocator}
    {calls : List Call} (hs : 0 < slotSize) (hr : firstReserved < numSlots)
    (hfit : base + numSlots * slotSize < 2 ^ 64)
    (hnew : new base slotSize numSlots firstReserved = some a₀) (hrun : After a₀ calls a) :
    (∀ offset ∈ allocated calls, (a.free offset).isSome = true) ∧
      a.usedCount = a.bitmap.count true ∧
      ∃ offset a', a.alloc = some (offset, a') ∧
        (offset = kBad ↔ ∀ i, firstReserved ≤ i → i < numSlots →
          base + i * slotSize ∈ allocated calls) ∧
        (offset ≠ kBad → (offset - base) % slotSize = 0 ∧ a.owns offset = true ∧
          base + firstReserved * slotSize ≤ offset ∧
          (∃ i, a.slotOf offset = some i ∧ a.offsetOf i = some offset) ∧
          offset ∉ allocated calls) := by
  have h₀ := new_kept hnew hs hr
  rw [new, if_pos hr.le] at hnew
  cases hnew
  have h := hrun.kept h₀ hfit
  obtain ⟨offset, a', he, -⟩ := allocLoop_allocates h.ok.toRanged a.numSlots
  refine ⟨fun o ho => h.free_isSome ho, h.count, offset, a', he, ?_, fun hne => ?_⟩
  · have hbad := h.alloc_eq_kBad hfit he
    rwa [h.same.base, h.same.slotSize, h.same.numSlots, h.same.firstFree] at hbad
  · have hoff := h.alloc_offset he hne
    rwa [h.same.base, h.same.slotSize, h.same.firstFree] at hoff

/-- Three slots, the first of them reserved; the other two have been taken, and one was freed. -/
theorem alloc_correct_three :
    ∃ a, After ⟨0, 8, 3, [true, false, false], 1, 1, 1⟩ [.alloc 8, .alloc 16, .free 8] a ∧
      (∀ offset ∈ allocated [.alloc 8, .alloc 16, .free 8], (a.free offset).isSome = true) ∧
      a.usedCount = a.bitmap.count true ∧
      ∃ offset a', a.alloc = some (offset, a') ∧
        (offset = kBad ↔ ∀ i, 1 ≤ i → i < 3 →
          0 + i * 8 ∈ allocated [.alloc 8, .alloc 16, .free 8]) ∧
        (offset ≠ kBad → (offset - 0) % 8 = 0 ∧ a.owns offset = true ∧ 0 + 1 * 8 ≤ offset ∧
          (∃ i, a.slotOf offset = some i ∧ a.offsetOf i = some offset) ∧
          offset ∉ allocated [.alloc 8, .alloc 16, .free 8]) := by
  have hrun : After ⟨0, 8, 3, [true, false, false], 1, 1, 1⟩ [.alloc 8, .alloc 16, .free 8]
      ⟨0, 8, 3, [true, false, true], 1, 1, 2⟩ :=
    @After.free _ [.alloc 8, .alloc 16] _ _ _ (@After.alloc _ [.alloc 8] _ _ _
      (@After.alloc _ [] _ _ _ .new rfl) rfl) (by decide) rfl
  exact ⟨_, hrun, alloc_correct (by decide) (by decide) (by decide) rfl hrun⟩

/-! ## Bounds -/

section

variable {a₀ : SlabAllocator}

theorem Ranged.loopIndices (h : a.Ranged) (tries : Nat) : ∀ i ∈ loopIndices tries a, i < a.numSlots := by
  induction tries generalizing a with
  | zero =>
    intro i hi
    cases hi
  | succ tries ih =>
    intro i hi
    unfold SlabAllocator.loopIndices at hi
    rcases List.mem_cons.mp hi with rfl | hi
    · exact h.high
    · split at hi
      · exact ih h.next i hi
      · cases hi

/-- With every bit set `alloc` finds no slot. -/
theorem Ranged.alloc_full (h : a.Ranged) (hall : ∀ i < a.numSlots, a.bitmap[i]? = some true) :
    ∃ a', a.alloc = some (kBad, a') := by
  obtain ⟨offset, a', he, ha⟩ := allocLoop_allocates h a.numSlots
  cases ha with
  | full => exact ⟨a', he⟩
  | slot i _ hfree =>
    have hi : i < a.numSlots := h.length ▸ (List.getElem?_eq_some_iff.mp hfree).1
    rw [hall i hi] at hfree
    cases hfree

theorem Ranged.inRange (h : a.Ranged) : a.InRange where
  nextHint := h.high
  indices := h.loopIndices _
  full := h.alloc_full

theorem Ranged.reachable (h : a₀.Ranged) (hr : Reachable a₀ a) : Same a₀ a ∧ a.Ranged := by
  induction hr with
  | new => exact ⟨.refl _, h⟩
  | alloc _ he ih =>
    have ha := ih.2.allocates he
    exact ⟨ih.1.trans ha.same, ha.ranged⟩
  | free _ he ih =>
    obtain ⟨hs, ho⟩ := ih.2.free he
    exact ⟨ih.1.trans hs, ho⟩

/-- The hint and the indices of `alloc` stay in the pool exactly when not all slots are reserved. -/
theorem inRange_iff {base slotSize numSlots firstReserved : Nat}
    (hnew : new base slotSize numSlots firstReserved = some a₀) :
    (∀ a, Reachable a₀ a → a.numSlots = numSlots ∧ a.InRange) ↔ firstReserved < numSlots := by
  unfold new at hnew
  split at hnew
  · next hle =>
    cases hnew
    constructor
    · intro h
      exact (h _ .new).2.nextHint
    · intro hlt a hr
      obtain ⟨hs, hb⟩ := Ranged.reachable ⟨by simp [hle], hlt, le_rfl, hlt⟩ hr
      exact ⟨hs.numSlots, hb.inRange⟩
  · cases hnew

end

/-- A handle pool of three slots, the first of them reserved. -/
theorem inRange_iff_three :
    new 0 8 3 1 = some ⟨0, 8, 3, [true, false, false], 1, 1, 1⟩ ∧
      ((∀ a, Reachable ⟨0, 8, 3, [true, false, false], 1, 1, 1⟩ a → a.numSlots = 3 ∧ a.InRange) ↔
        1 < 3) := ⟨rfl, inRange_iff (show new 0 8 3 1 = _ from rfl)⟩

/-- The constructor accepts a pool all of whose slots are reserved, and the first `alloc` reads
behind its bitmap. -/
theorem exists_index_outside :
    ∃ a₀, new 0 8 1 1 = some a₀ ∧ a₀.nextHint = 1 ∧ a₀.allocIndices = [1] ∧ a₀.numSlots = 1 ∧
      a₀.alloc = none := ⟨_, rfl, rfl, rfl, rfl, rfl⟩

end DMTree.SkipVector.SlabAllocator
