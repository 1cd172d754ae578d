import Mathlib

/-!
# Sorted lists of keyed items, and the segments they cut

A list of items that is strictly sorted by key is a finite map. Together with an upper end `hi` it
also cuts an interval of keys into segments: an item owns the keys from its own up to the key of the
next item. This is what a level of a B-tree is, whatever the nodes are into which it is divided:
a node holds the items of a `slice`.
-/

namespace Segments

variable {α K : Type} [LinearOrder K] (key : α → K)

/-- Strictly sorted by key. -/
def Sorted (l : List α) : Prop := l.Pairwise fun a b => key a < key b

/-- Insert `x`, replacing an item with the same key. -/
def put (x : α) (l : List α) : List α :=
  l.filter (fun a => key a < key x) ++ x :: l.filter fun a => key x < key a

/-- The items with keys from `lo` up to but not including `hi`. -/
def slice (lo hi : K) (l : List α) : List α := l.filter fun a => lo ≤ key a ∧ key a < hi

/-- The end of the segment before the items `l`. -/
def bound (hi : K) : List α → K
  | [] => hi
  | a :: _ => key a

/-- The items are sorted below `hi`, and `φ a b` holds of every item `a` whose segment ends at `b`. -/
def Segs (φ : α → K → Prop) (hi : K) : List α → Prop
  | [] => True
  | a :: l => key a < bound key hi l ∧ φ a (bound key hi l) ∧ Segs φ hi l

variable {key} {φ ψ : α → K → Prop} {hi lo k : K} {l l₁ l₂ : List α} {a b x : α}

/-! ## Sorted lists -/

theorem Sorted.append_left (h : Sorted key (l₁ ++ l₂)) : Sorted key l₁ :=
  (List.pairwise_append.mp h).1

theorem Sorted.append_right (h : Sorted key (l₁ ++ l₂)) : Sorted key l₂ :=
  (List.pairwise_append.mp h).2.1

theorem Sorted.filter (h : Sorted key l) (p : α → Bool) : Sorted key (l.filter p) :=
  List.Pairwise.filter p h

theorem Sorted.left_lt (h : Sorted key (l₁ ++ a :: l₂)) (hb : b ∈ l₁) : key b < key a :=
  (List.pairwise_append.mp h).2.2 b hb a List.mem_cons_self

theorem Sorted.lt_right (h : Sorted key (l₁ ++ a :: l₂)) (hb : b ∈ l₂) : key a < key b :=
  (List.pairwise_cons.mp h.append_right).1 b hb

/-- Keys identify the items. -/
theorem Sorted.eq_of_key (h : Sorted key l) (ha : a ∈ l) (hb : b ∈ l) (hk : key a = key b) : a = b := by
  by_contra hne
  rcases List.Pairwise.forall_of_forall_of_flip (R := fun a b => a = b ∨ key a ≠ key b)
    (fun _ _ => Or.inl rfl) (h.imp fun hlt => Or.inr hlt.ne) (h.imp fun hlt => Or.inr hlt.ne')
    ha hb with he | he
  · exact hne he
  · exact he hk

theorem Sorted.nodup_keys (h : Sorted key l) : (l.map key).Nodup :=
  (List.pairwise_map.mpr (h.imp fun hlt => hlt.ne))

/-- Where the key `k` falls in a list of items. -/
theorem exists_floor (h : ∃ a ∈ l, key a ≤ k) :
    ∃ l₁ r l₂, l = l₁ ++ r :: l₂ ∧ key r ≤ k ∧ ∀ b ∈ l₂, k < key b := by
  induction l with
  | nil =>
    obtain ⟨a, ha, _⟩ := h
    cases ha
  | cons c l ih =>
    by_cases hnext : ∃ b ∈ l, key b ≤ k
    · obtain ⟨l₁, r, l₂, rfl, hr, hl⟩ := ih hnext
      exact ⟨c :: l₁, r, l₂, rfl, hr, hl⟩
    · have hgt : ∀ b ∈ l, k < key b := fun b hb => not_le.mp fun hle => hnext ⟨b, hb, hle⟩
      obtain ⟨a, ha, hk⟩ := h
      rcases List.mem_cons.mp ha with rfl | ha
      · exact ⟨[], a, l, rfl, hk, hgt⟩
      · exact absurd hk (not_le.mpr (hgt a ha))

/-- The items up to the place of `k` are those with a key up to `k`. -/
theorem Sorted.le_floor (h : Sorted key (l₁ ++ a :: l₂)) (hl : ∀ b ∈ l₂, k < key b)
    (hx : x ∈ l₁ ++ a :: l₂) (hk : key x ≤ k) : key x ≤ key a := by
  rcases List.mem_append.mp hx with hx | hx
  · exact (h.left_lt hx).le
  · rcases List.mem_cons.mp hx with rfl | hx
    · exact le_rfl
    · exact absurd hk (not_le.mpr (hl x hx))

/-! ## Insertion -/

theorem mem_put : a ∈ put key x l ↔ a = x ∨ a ∈ l ∧ key a ≠ key x := by
  simp only [put, List.mem_append, List.mem_filter, List.mem_cons, decide_eq_true_eq]
  constructor
  · rintro (⟨h, hlt⟩ | rfl | ⟨h, hlt⟩)
    · exact Or.inr ⟨h, hlt.ne⟩
    · exact Or.inl rfl
    · exact Or.inr ⟨h, hlt.ne'⟩
  · rintro (rfl | ⟨h, hne⟩)
    · exact Or.inr (Or.inl rfl)
    · rcases lt_or_gt_of_ne hne with hlt | hlt
      · exact Or.inl ⟨h, hlt⟩
      · exact Or.inr (Or.inr ⟨h, hlt⟩)

theorem Sorted.put (h : Sorted key l) : Sorted key (put key x l) := by
  refine List.pairwise_append.mpr ⟨h.filter _, List.pairwise_cons.mpr ⟨?_, h.filter _⟩, ?_⟩
  · intro b hb
    simpa using (List.mem_filter.mp hb).2
  · intro a ha b hb
    have hax : key a < key x := by simpa using (List.mem_filter.mp ha).2
    rcases List.mem_cons.mp hb with rfl | hb
    · exact hax
    · have hxb : key x < key b := by simpa using (List.mem_filter.mp hb).2
      exact hax.trans hxb

/-- Insertion at a place where the smaller keys end and the greater ones begin. -/
theorem put_append (h₁ : ∀ b ∈ l₁, key b < key x) (h₂ : ∀ b ∈ l₂, key x < key b) :
    put key x (l₁ ++ l₂) = l₁ ++ x :: l₂ := by
  have e1 : l₁.filter (fun a => key a < key x) = l₁ := by simpa using h₁
  have e2 : l₂.filter (fun a => key a < key x) = [] := by simpa using fun b hb => (h₂ b hb).le
  have e3 : l₁.filter (fun a => key x < key a) = [] := by simpa using fun b hb => (h₁ b hb).le
  have e4 : l₂.filter (fun a => key x < key a) = l₂ := by simpa using h₂
  simp only [put, List.filter_append, e1, e2, e3, e4, List.append_nil, List.nil_append]

/-- Replacement of the item with the same key. -/
theorem put_replace (h : Sorted key (l₁ ++ a :: l₂)) (hk : key x = key a) :
    put key x (l₁ ++ a :: l₂) = l₁ ++ x :: l₂ := by
  have h₁ : ∀ b ∈ l₁, key b < key x := fun b hb => hk ▸ h.left_lt hb
  have h₂ : ∀ b ∈ l₂, key x < key b := fun b hb => hk ▸ h.lt_right hb
  rw [← put_append h₁ h₂]
  simp [put, hk]

/-- Insertion right behind an item. -/
theorem put_behind (h : Sorted key (l₁ ++ a :: l₂)) (hk : key a < key x)
    (hl : ∀ b ∈ l₂, key x < key b) : put key x (l₁ ++ a :: l₂) = l₁ ++ a :: x :: l₂ := by
  have h₁ : ∀ b ∈ l₁ ++ [a], key b < key x := by
    intro b hb
    rcases List.mem_append.mp hb with hb | hb
    · exact (h.left_lt hb).trans hk
    · rw [List.mem_singleton.mp hb]
      exact hk
  have hput := put_append h₁ hl
  simpa using hput

theorem length_put_of_mem (h : Sorted key l) (ha : a ∈ l) (hk : key x = key a) :
    (put key x l).length = l.length := by
  obtain ⟨l₁, l₂, rfl⟩ := List.append_of_mem ha
  rw [put_replace h hk]
  simp

theorem length_put_of_not_mem (hx : ∀ a ∈ l, key a ≠ key x) :
    (put key x l).length = l.length + 1 := by
  have hsplit : (l.filter fun a => key a < key x).length + (l.filter fun a => key x < key a).length =
      l.length := by
    rw [← List.countP_eq_length_filter, ← List.countP_eq_length_filter,
      List.length_eq_countP_add_countP (fun a => decide (key a < key x))]
    congr 1
    refine List.countP_congr fun a ha => ?_
    have hne := hx a ha
    simp only [decide_eq_true_eq, not_lt]
    exact ⟨le_of_lt, fun hle => lt_of_le_of_ne hle hne.symm⟩
  simp only [put, List.length_append, List.length_cons]
  omega

theorem length_put_le (h : Sorted key l) : (put key x l).length ≤ l.length + 1 := by
  by_cases hx : ∃ a ∈ l, key a = key x
  · obtain ⟨a, ha, hk⟩ := hx
    rw [length_put_of_mem h ha hk.symm]
    exact Nat.le_succ _
  · exact (length_put_of_not_mem fun a ha hk => hx ⟨a, ha, hk⟩).le

/-- Insertion of an item with a new key. -/
theorem put_perm (h : Sorted key l) (hx : ∀ a ∈ l, key a ≠ key x) : (put key x l).Perm (x :: l) := by
  have hnd : (put key x l).Nodup := h.put.nodup_keys.of_map
  have hnd' : (x :: l).Nodup := by
    refine List.nodup_cons.mpr ⟨fun hmem => ?_, h.nodup_keys.of_map⟩
    exact hx x hmem rfl
  refine (List.perm_ext_iff_of_nodup hnd hnd').mpr fun a => ?_
  rw [mem_put, List.mem_cons]
  constructor
  · rintro (h | h)
    · exact Or.inl h
    · exact Or.inr h.1
  · rintro (h | h)
    · exact Or.inl h
    · exact Or.inr ⟨h, hx a h⟩

/-! ## Slices -/

theorem mem_slice : a ∈ slice key lo hi l ↔ a ∈ l ∧ lo ≤ key a ∧ key a < hi := by
  simp [slice, List.mem_filter]

theorem slice_append : slice key lo hi (l₁ ++ l₂) = slice key lo hi l₁ ++ slice key lo hi l₂ :=
  List.filter_append ..

theorem slice_cons_of_mem (h₁ : lo ≤ key a) (h₂ : key a < hi) :
    slice key lo hi (a :: l) = a :: slice key lo hi l := by
  simp [slice, h₁, h₂]

theorem slice_cons_of_not_mem (h : ¬ (lo ≤ key a ∧ key a < hi)) :
    slice key lo hi (a :: l) = slice key lo hi l := by
  rw [slice, List.filter_cons_of_neg (by simpa using h)]
  rfl

/-- A change outside the slice is not seen in it. -/
theorem slice_put_of_not_mem (h : ¬ (lo ≤ key x ∧ key x < hi)) (hs : Sorted key l) :
    slice key lo hi (put key x l) = slice key lo hi l := by
  by_cases hx : ∃ a ∈ l, key a = key x
  · obtain ⟨a, ha, hk⟩ := hx
    obtain ⟨l₁, l₂, rfl⟩ := List.append_of_mem ha
    rw [put_replace hs hk.symm, slice_append, slice_append, slice_cons_of_not_mem h,
      slice_cons_of_not_mem (hk ▸ h)]
  · have hcut : l = l.filter (fun a => key a < key x) ++ l.filter (fun a => key x < key a) := by
      have hne : ∀ a ∈ l, key a ≠ key x := fun a ha hk => hx ⟨a, ha, hk⟩
      clear hx
      induction l with
      | nil => rfl
      | cons a l ih =>
        have hs' := List.pairwise_cons.mp hs
        have ih' := ih hs'.2 fun b hb => hne b (List.mem_cons_of_mem _ hb)
        rcases lt_or_gt_of_ne (hne a List.mem_cons_self) with hlt | hlt
        · rw [List.filter_cons_of_pos (by simpa using hlt),
            List.filter_cons_of_neg (by simpa using hlt.le), List.cons_append, ← ih']
        · have hall : ∀ b ∈ l, key x < key b := fun b hb => hlt.trans (hs'.1 b hb)
          have e1 : l.filter (fun b => key b < key x) = [] := by
            simpa using fun b hb => (hall b hb).le
          have e2 : l.filter (fun b => key x < key b) = l := by simpa using hall
          rw [List.filter_cons_of_neg (by simpa using hlt.le),
            List.filter_cons_of_pos (by simpa using hlt), e1, e2, List.nil_append]
    conv_rhs => rw [hcut]
    rw [put, slice_append, slice_append, slice_cons_of_not_mem h]

/-- A change inside the slice is the same change of the slice. -/
theorem slice_put_of_mem (h₁ : lo ≤ key x) (h₂ : key x < hi) :
    slice key lo hi (put key x l) = put key x (slice key lo hi l) := by
  rw [put, slice_append, slice_cons_of_mem h₁ h₂]
  simp only [put, slice, List.filter_filter, Bool.and_comm]

theorem slice_slice_left (hk : k ≤ hi) :
    slice key lo k l = (slice key lo hi l).filter fun a => key a < k := by
  rw [slice, slice, List.filter_filter]
  refine List.filter_congr fun a _ => ?_
  simp only [Bool.decide_and]
  by_cases h : key a < k
  · simp [h, h.trans_le hk]
  · simp [h]

theorem slice_slice_right (hk : lo ≤ k) :
    slice key k hi l = (slice key lo hi l).filter fun a => k ≤ key a := by
  rw [slice, slice, List.filter_filter]
  refine List.filter_congr fun a _ => ?_
  by_cases h : k ≤ key a
  · simp [h, hk.trans h]
  · simp [h]

/-- A sorted list is cut by the key of one of its items. -/
theorem Sorted.filter_lt (h : Sorted key (l₁ ++ a :: l₂)) :
    (l₁ ++ a :: l₂).filter (fun b => key b < key a) = l₁ := by
  have e1 : l₁.filter (fun b => key b < key a) = l₁ := by simpa using fun b hb => h.left_lt hb
  have e2 : l₂.filter (fun b => key b < key a) = [] := by simpa using fun b hb => (h.lt_right hb).le
  simp [e1, e2]

theorem Sorted.filter_ge (h : Sorted key (l₁ ++ a :: l₂)) :
    (l₁ ++ a :: l₂).filter (fun b => key a ≤ key b) = a :: l₂ := by
  have e1 : l₁.filter (fun b => key a ≤ key b) = [] := by simpa using fun b hb => h.left_lt hb
  have e2 : l₂.filter (fun b => key a ≤ key b) = l₂ := by simpa using fun b hb => (h.lt_right hb).le
  simp [e1, e2]

theorem filter_lt_put_of_lt (hx : key x < k) :
    (put key x l).filter (fun b => key b < k) = put key x (l.filter fun b => key b < k) := by
  rw [put, put, List.filter_append, List.filter_cons_of_pos (by simpa using hx)]
  simp only [List.filter_filter, Bool.and_comm]

theorem filter_lt_put_of_ge (hx : k ≤ key x) :
    (put key x l).filter (fun b => key b < k) = l.filter fun b => key b < k := by
  rw [put, List.filter_append, List.filter_cons_of_neg (by simpa using hx)]
  simp only [List.filter_filter]
  have e1 : l.filter (fun b => decide (key b < k) && decide (key x < key b)) = [] := by
    simp only [List.filter_eq_nil_iff, Bool.and_eq_true, decide_eq_true_eq, not_and, not_lt]
    exact fun a _ h => h.le.trans hx
  rw [e1, List.append_nil]
  refine List.filter_congr fun a _ => ?_
  by_cases h : key a < k
  · simp [h, h.trans_le hx]
  · simp [h]

theorem filter_ge_put_of_ge (hx : k ≤ key x) :
    (put key x l).filter (fun b => k ≤ key b) = put key x (l.filter fun b => k ≤ key b) := by
  rw [put, put, List.filter_append, List.filter_cons_of_pos (by simpa using hx)]
  simp only [List.filter_filter, Bool.and_comm]

theorem filter_ge_put_of_lt (hx : key x < k) :
    (put key x l).filter (fun b => k ≤ key b) = l.filter fun b => k ≤ key b := by
  rw [put, List.filter_append, List.filter_cons_of_neg (by simpa using hx)]
  simp only [List.filter_filter]
  have e1 : l.filter (fun b => decide (k ≤ key b) && decide (key b < key x)) = [] := by
    simp only [List.filter_eq_nil_iff, Bool.and_eq_true, decide_eq_true_eq, not_and, not_lt]
    exact fun a _ h => hx.le.trans h
  rw [e1, List.nil_append]
  refine List.filter_congr fun a _ => ?_
  by_cases h : k ≤ key a
  · simp [h, hx.trans_le h]
  · simp [h]

/-! ## Segments -/

theorem bound_of_forall_lt (hl : ∀ b ∈ l, k < key b) (hk : k < hi) : k < bound key hi l := by
  cases l with
  | nil => exact hk
  | cons b l => exact hl b List.mem_cons_self

theorem segs_append :
    Segs key φ hi (l₁ ++ l₂) ↔ Segs key φ (bound key hi l₂) l₁ ∧ Segs key φ hi l₂ := by
  induction l₁ with
  | nil => simp [Segs]
  | cons a l₁ ih =>
    have hb : bound key hi (l₁ ++ l₂) = bound key (bound key hi l₂) l₁ := by cases l₁ <;> rfl
    simp only [List.cons_append, Segs, hb, ih, and_assoc]

theorem Segs.mono (h : Segs key φ hi l) (hm : ∀ a b, a ∈ l → φ a b → ψ a b) : Segs key ψ hi l := by
  induction l with
  | nil => trivial
  | cons a l ih =>
    exact ⟨h.1, hm _ _ List.mem_cons_self h.2.1,
      ih h.2.2 fun a b ha => hm a b (List.mem_cons_of_mem _ ha)⟩

theorem Segs.bound_le (h : Segs key φ hi l) : bound key hi l ≤ hi := by
  induction l with
  | nil => exact le_rfl
  | cons a l ih => exact (h.1.trans_le (ih h.2.2)).le

theorem Segs.lt_hi (h : Segs key φ hi l) (ha : a ∈ l) : key a < hi := by
  induction l with
  | nil => cases ha
  | cons b l ih =>
    rcases List.mem_cons.mp ha with rfl | ha
    · exact h.1.trans_le h.2.2.bound_le
    · exact ih h.2.2 ha

theorem Segs.bound_le_mem (h : Segs key φ hi l) (ha : a ∈ l) : bound key hi l ≤ key a := by
  induction l with
  | nil => cases ha
  | cons b l ih =>
    rcases List.mem_cons.mp ha with rfl | ha
    · exact le_rfl
    · exact h.1.le.trans (ih h.2.2 ha)

theorem Segs.sorted (h : Segs key φ hi l) : Sorted key l := by
  induction l with
  | nil => exact List.Pairwise.nil
  | cons a l ih =>
    exact List.pairwise_cons.mpr ⟨fun b hb => h.1.trans_le (h.2.2.bound_le_mem hb), ih h.2.2⟩

/-- What is known about an item in the middle. -/
theorem Segs.item (h : Segs key φ hi (l₁ ++ a :: l₂)) :
    key a < bound key hi l₂ ∧ φ a (bound key hi l₂) := by
  have h2 := (segs_append.mp h).2
  exact ⟨h2.1, h2.2.1⟩

/-- Segments whose ends do not matter. -/
theorem Sorted.segs (h : Sorted key l) (hk : ∀ a ∈ l, key a < hi) (hφ : ∀ a b, a ∈ l → φ a b) :
    Segs key φ hi l := by
  induction l with
  | nil => trivial
  | cons a l ih =>
    obtain ⟨hlt, hs⟩ := List.pairwise_cons.mp h
    refine ⟨?_, hφ a _ List.mem_cons_self, ih hs (fun b hb => hk b (List.mem_cons_of_mem _ hb))
      fun b c hb => hφ b c (List.mem_cons_of_mem _ hb)⟩
    exact bound_of_forall_lt hlt (hk a List.mem_cons_self)

/-- An item is replaced by items that cut the same segment. -/
theorem Segs.splice {m : List α} (h : Segs key φ hi (l₁ ++ a :: l₂))
    (h₁ : ∀ b c, b ∈ l₁ → φ b c → ψ b c) (h₂ : ∀ b c, b ∈ l₂ → φ b c → ψ b c)
    (hm : Segs key ψ (bound key hi l₂) m) (hb : bound key (bound key hi l₂) m = key a) :
    Segs key ψ hi (l₁ ++ (m ++ l₂)) := by
  obtain ⟨hl, _, _, hr⟩ := segs_append.mp h
  refine segs_append.mpr ⟨?_, segs_append.mpr ⟨hm, hr.mono h₂⟩⟩
  have hb' : bound key hi (m ++ l₂) = key a := by
    rw [← hb]
    cases m <;> rfl
  rw [hb']
  exact hl.mono h₁

end Segments
