import DMTree.SkipVector.LeafHandle

/-!
# The order of leaf handles

A tag is the number `struct_ver * 2^20 + content_ver`, and a handle is newer when its tag is greater.
A bump increases the tag, unless the version it bumps is at its greatest value: then `make_tag` masks
the carry off, and an older handle comes back.
-/

namespace DMTree.SkipVector

namespace LeafHandle

variable {h o : LeafHandle} {b : Bump} {bs : List Bump}

/-! ## Tags as numbers -/

theorem structVer_toNat (h : LeafHandle) : h.structVer.toNat = h.tag.toNat / 2 ^ 20 := by
  have hlt := h.tag.isLt
  rw [structVer, BitVec.toNat_and, BitVec.toNat_ushiftRight,
    show structVerMask.toNat = 2 ^ 12 - 1 from rfl, Nat.and_two_pow_sub_one_eq_mod,
    show structVerShift = 20 from rfl, Nat.shiftRight_eq_div_pow]
  omega

theorem contentVer_toNat (h : LeafHandle) : h.contentVer.toNat = h.tag.toNat % 2 ^ 20 := by
  rw [contentVer, BitVec.toNat_and, show contentVerMask.toNat = 2 ^ 20 - 1 from rfl,
    Nat.and_two_pow_sub_one_eq_mod]

theorem makeTag_toNat (sv cv : BitVec 32) :
    (makeTag sv cv).toNat = sv.toNat % 2 ^ 12 * 2 ^ 20 + cv.toNat % 2 ^ 20 := by
  have hs : sv.toNat % 2 ^ 12 < 2 ^ 12 := Nat.mod_lt _ (by decide)
  have hc : cv.toNat % 2 ^ 20 < 2 ^ 20 := Nat.mod_lt _ (by decide)
  rw [makeTag, BitVec.toNat_or, BitVec.toNat_shiftLeft, BitVec.toNat_and, BitVec.toNat_and,
    show structVerMask.toNat = 2 ^ 12 - 1 from rfl, show contentVerMask.toNat = 2 ^ 20 - 1 from rfl,
    Nat.and_two_pow_sub_one_eq_mod, Nat.and_two_pow_sub_one_eq_mod,
    show structVerShift = 20 from rfl, Nat.mod_eq_of_lt (a := (sv.toNat % 2 ^ 12) <<< 20),
    ← Nat.shiftLeft_add_eq_or_of_lt hc, Nat.shiftLeft_eq]
  rw [Nat.shiftLeft_eq]
  omega

theorem newerThan_iff : h.newerThan o = true ↔ o.tag.toNat < h.tag.toNat := by
  have hs := h.structVer_toNat
  have hs' := o.structVer_toNat
  have hc := h.contentVer_toNat
  have hc' := o.contentVer_toNat
  unfold newerThan
  split
  · next hne =>
    have hne' : h.structVer.toNat ≠ o.structVer.toNat := fun he => hne (BitVec.eq_of_toNat_eq he)
    rw [decide_eq_true_iff, gt_iff_lt, BitVec.lt_def]
    omega
  · next heq =>
    have heq' : h.structVer.toNat = o.structVer.toNat := congrArg BitVec.toNat (not_not.mp heq)
    rw [decide_eq_true_iff, gt_iff_lt, BitVec.lt_def]
    omega

theorem newerThan_asymm (hn : h.newerThan o = true) : o.newerThan h = false := by
  rw [newerThan_iff] at hn
  rw [← Bool.not_eq_true, newerThan_iff]
  omega

theorem raw_toNat (h : LeafHandle) : h.raw.toNat = h.offset.toNat * 2 ^ 32 + h.tag.toNat := by
  rw [raw, BitVec.toNat_append, ← Nat.shiftLeft_add_eq_or_of_lt h.tag.isLt, Nat.shiftLeft_eq]

theorem raw_inj : h.raw = o.raw ↔ h = o := by
  refine ⟨fun he => ?_, fun he => he ▸ rfl⟩
  have hraw := congrArg BitVec.toNat he
  rw [raw_toNat, raw_toNat] at hraw
  have hlt := h.tag.isLt
  have hlt' := o.tag.isLt
  have htag : h.tag = o.tag := BitVec.eq_of_toNat_eq (by omega)
  have hoff : h.offset = o.offset := BitVec.eq_of_toNat_eq (by omega)
  cases h
  cases o
  simp_all

/-! ## Bumps -/

theorem bumpContent_tag (h : LeafHandle) : h.bumpContent.tag.toNat =
    h.tag.toNat / 2 ^ 20 * 2 ^ 20 + (h.tag.toNat % 2 ^ 20 + 1) % 2 ^ 20 := by
  have hlt := h.tag.isLt
  have hs := h.structVer_toNat
  have hc := h.contentVer_toNat
  have hone : (h.contentVer + 1).toNat = h.contentVer.toNat + 1 := by
    rw [BitVec.toNat_add, show (1 : BitVec 32).toNat = 1 from rfl, Nat.mod_eq_of_lt]
    omega
  rw [bumpContent, makeTag_toNat, hone, hs, hc]
  omega

theorem bumpStruct_tag (h : LeafHandle) (o : BitVec 32) : (h.bumpStruct o).tag.toNat =
    (h.tag.toNat / 2 ^ 20 + 1) % 2 ^ 12 * 2 ^ 20 := by
  have hlt := h.tag.isLt
  have hs := h.structVer_toNat
  have hone : (h.structVer + 1).toNat = h.structVer.toNat + 1 := by
    rw [BitVec.toNat_add, show (1 : BitVec 32).toNat = 1 from rfl, Nat.mod_eq_of_lt]
    omega
  rw [bumpStruct, makeTag_toNat, hone, hs, show (0 : BitVec 32).toNat = 0 from rfl]
  omega

theorem hasRoom_content : h.hasRoom .content ↔ h.tag.toNat % 2 ^ 20 ≠ 2 ^ 20 - 1 := by
  rw [← contentVer_toNat, hasRoom, ne_eq, ne_eq, ← BitVec.toNat_inj]
  rfl

theorem hasRoom_struct {f : BitVec 32} : h.hasRoom (.struct f) ↔ h.tag.toNat / 2 ^ 20 ≠ 2 ^ 12 - 1 := by
  rw [← structVer_toNat, hasRoom, ne_eq, ne_eq, ← BitVec.toNat_inj]
  rfl

/-- A bump with room increases the tag. -/
theorem tag_lt_bump (hr : h.hasRoom b) : h.tag.toNat < (h.bump b).tag.toNat := by
  have hlt := h.tag.isLt
  cases b with
  | content =>
    rw [hasRoom_content] at hr
    rw [bump, bumpContent_tag]
    omega
  | struct f =>
    rw [hasRoom_struct] at hr
    rw [bump, bumpStruct_tag]
    omega

theorem after_append (bs : List Bump) (b : Bump) : h.after (bs ++ [b]) = (h.after bs).bump b := by
  simp [after, List.foldl_append]

/-- Every bump of a sequence has room. -/
def AllRoom (h : LeafHandle) (bs : List Bump) : Prop :=
  ∀ (i : Nat) b, bs[i]? = some b → (h.after (bs.take i)).hasRoom b

theorem AllRoom.append (ha : h.AllRoom (bs ++ [b])) : h.AllRoom bs ∧ (h.after bs).hasRoom b := by
  constructor
  · intro i c hi
    have hlt : i < bs.length := (List.getElem?_eq_some_iff.mp hi).1
    have hr := ha i c (by rw [List.getElem?_append_left hlt]; exact hi)
    rwa [List.take_append_of_le_length hlt.le] at hr
  · have hr := ha bs.length b (by simp)
    rwa [List.take_append_of_le_length le_rfl, List.take_length] at hr

/-- With room all the way, the tags increase. -/
theorem AllRoom.tag_lt (ha : h.AllRoom bs) {i : Nat} (hi : i < bs.length) :
    (h.after (bs.take i)).tag.toNat < (h.after bs).tag.toNat := by
  induction bs using List.reverseRecOn with
  | nil => simp at hi
  | append_singleton bs b ih =>
    obtain ⟨hbs, hb⟩ := ha.append
    have hlast := tag_lt_bump hb
    rw [after_append]
    rw [List.length_append, List.length_singleton] at hi
    rcases Nat.lt_or_ge i bs.length with hlt | hge
    · rw [List.take_append_of_le_length hlt.le]
      exact (ih hbs hlt).trans hlast
    · obtain rfl : i = bs.length := by omega
      rw [List.take_append_of_le_length le_rfl, List.take_length]
      exact hlast

theorem AllRoom.forward (ha : h.AllRoom bs) (hne : bs ≠ []) : h.Forward bs := by
  have hpos : 0 < bs.length := List.length_pos_iff.mpr hne
  have hnew : (h.after bs).newerThan h = true := newerThan_iff.mpr (ha.tag_lt hpos)
  refine ⟨hnew, newerThan_asymm hnew, fun i hi he => ?_⟩
  have hlt := ha.tag_lt hi
  rw [raw_inj.mp he] at hlt
  exact lt_irrefl _ hlt

/-! ## Where the order breaks -/

/-- As long as only the content is bumped the offset stays, and the structure version is that of the
first handle; after a structure bump there is a handle with content version `0`. -/
theorem AllRoom.base (ha : h.AllRoom bs) :
    (h.after bs).tag.toNat / 2 ^ 20 = h.tag.toNat / 2 ^ 20 ∨
    ∃ i ≤ bs.length, (h.after (bs.take i)).tag.toNat = (h.after bs).tag.toNat / 2 ^ 20 * 2 ^ 20 ∧
      (h.after (bs.take i)).offset = (h.after bs).offset := by
  induction bs using List.reverseRecOn with
  | nil => exact .inl rfl
  | append_singleton bs b ih =>
    obtain ⟨hbs, hb⟩ := ha.append
    rw [after_append]
    cases b with
    | content =>
      have htag := (h.after bs).bumpContent_tag
      rw [hasRoom_content] at hb
      have hdiv : (h.after bs).bumpContent.tag.toNat / 2 ^ 20 = (h.after bs).tag.toNat / 2 ^ 20 := by
        omega
      rw [bump, hdiv]
      refine (ih hbs).imp_right ?_
      rintro ⟨i, hi, h1, h2⟩
      refine ⟨i, by rw [List.length_append]; omega, ?_⟩
      rw [List.take_append_of_le_length hi]
      exact ⟨h1, h2⟩
    | struct f =>
      have htag := (h.after bs).bumpStruct_tag f
      refine .inr ⟨bs.length + 1, by simp, ?_⟩
      rw [List.take_of_length_le (by simp), after_append]
      refine ⟨?_, rfl⟩
      rw [bump, htag]
      omega

/-- A bump without room brings an older handle back. -/
theorem not_forward (ha : h.AllRoom bs) (hb : ¬ (h.after bs).hasRoom b) :
    ¬ h.Forward (bs ++ [b]) := by
  rintro ⟨hnew, -, hraw⟩
  rw [newerThan_iff, after_append] at hnew
  have hlt := (h.after bs).tag.isLt
  cases b with
  | content =>
    rw [hasRoom_content, not_not] at hb
    have htag := (h.after bs).bumpContent_tag
    rw [bump] at hnew
    rcases ha.base with hdiv | ⟨i, hi, h1, h2⟩
    · omega
    · refine hraw i (by simp; omega) ?_
      rw [raw_inj, after_append, List.take_append_of_le_length hi, bump]
      have heq : (h.after bs).bumpContent.tag = (h.after (bs.take i)).tag :=
        BitVec.eq_of_toNat_eq (by omega)
      have hoff : (h.after bs).bumpContent.offset = (h.after (bs.take i)).offset := h2.symm
      exact LeafHandle.mk.injEq .. |>.mpr ⟨heq, hoff⟩
  | struct f =>
    rw [hasRoom_struct, not_not] at hb
    have htag := (h.after bs).bumpStruct_tag f
    rw [bump] at hnew
    omega

/-- The handles of a sequence of bumps move forward all the way exactly when no bump meets a version
at its greatest value. -/
theorem forward_iff_allRoom (h : LeafHandle) (bs : List Bump) :
    (∀ i, 0 < i → i ≤ bs.length → h.Forward (bs.take i)) ↔
      ∀ (i : Nat) b, bs[i]? = some b → (h.after (bs.take i)).hasRoom b := by
  constructor
  · intro hf
    change h.AllRoom bs
    induction bs using List.reverseRecOn with
    | nil => exact fun i b hb => by simp at hb
    | append_singleton bs b ih =>
      have hbs : h.AllRoom bs := by
        refine ih fun i h0 hi => ?_
        have hpre := hf i h0 (by rw [List.length_append]; omega)
        rwa [List.take_append_of_le_length hi] at hpre
      have hroom : (h.after bs).hasRoom b := by
        by_contra hno
        have hall := hf (bs.length + 1) (by omega) (by simp)
        rw [List.take_of_length_le (by simp)] at hall
        exact not_forward hbs hno hall
      intro i c hc
      rcases Nat.lt_or_ge i bs.length with hlt | hge
      · rw [List.getElem?_append_left hlt] at hc
        rw [List.take_append_of_le_length hlt.le]
        exact hbs i c hc
      · have hi : i < (bs ++ [b]).length := (List.getElem?_eq_some_iff.mp hc).1
        obtain rfl : i = bs.length := by
          rw [List.length_append, List.length_singleton] at hi
          omega
        rw [List.take_append_of_le_length le_rfl, List.take_length]
        simp only [List.getElem?_concat_length, Option.some.injEq] at hc
        exact hc ▸ hroom
  · intro ha i h0 hi
    have htake : h.AllRoom (bs.take i) := by
      intro j b hb
      have hj : j < (bs.take i).length := (List.getElem?_eq_some_iff.mp hb).1
      rw [List.length_take] at hj
      rw [List.getElem?_take_of_lt (by omega)] at hb
      rw [List.take_take, Nat.min_eq_left (by omega)]
      exact ha j b hb
    exact htake.forward (by rw [← List.length_pos_iff, List.length_take]; omega)

/-- The content version is at its greatest value, and one bump of the content makes an older handle. -/
theorem not_forward_of_content_wrap :
    ¬ ∀ (h : LeafHandle) (bs : List Bump), bs ≠ [] → h.Forward bs := by
  intro hall
  have hf := hall ⟨0x000fffff, 0⟩ [.content] (by simp)
  exact absurd hf.1 (by decide)

end LeafHandle

end DMTree.SkipVector
