import DMTree.Conc.History

/-!
# Histories grow at their end

What stands at a position of a history stays there, and a position that the history does not have
yet is later than all it has.
-/

namespace Conc

variable {S : Sig} {C : Client S} {ε : Type} {l : List ε} {e a : ε} {i : Nat} {p : ε → Bool}

/-- What stands in a history after one more event. -/
theorem getElem?_concat_iff :
    (l ++ [e])[i]? = some a ↔ l[i]? = some a ∨ i = l.length ∧ e = a := by
  rcases Nat.lt_trichotomy i l.length with h | h | h
  · rw [List.getElem?_append_left h]
    constructor
    · exact Or.inl
    · rintro (h' | ⟨rfl, -⟩)
      · exact h'
      · omega
  · subst h
    simp
  · rw [List.getElem?_eq_none (by simp; omega), List.getElem?_eq_none (by omega)]
    constructor
    · rintro ⟨⟩
    · rintro (⟨⟨⟩⟩ | ⟨rfl, -⟩)
      omega

/-- What stands at a position stays there. -/
theorem getElem?_concat (h : l[i]? = some a) (e : ε) : (l ++ [e])[i]? = some a :=
  getElem?_concat_iff.mpr (Or.inl h)

/-- The new event stands at the end. -/
theorem getElem?_concat_last (l : List ε) (e : ε) : (l ++ [e])[l.length]? = some e := by simp

theorem lt_of_getElem? (h : l[i]? = some a) : i < l.length :=
  (List.getElem?_eq_some_iff.mp h).1

/-! ## Last positions -/

@[simp] theorem lastPos_nil : lastPos p [] = 0 := rfl

@[simp] theorem lastPos_concat :
    lastPos p (l ++ [e]) = if p e then l.length + 1 else lastPos p l := by
  have hlen : ∀ (l : List ε) (a : Nat × Nat),
      (l.foldl (fun a e => (a.1 + 1, if p e then a.1 + 1 else a.2)) a).1 = a.1 + l.length := by
    intro l
    induction l with
    | nil => simp
    | cons e l ih =>
      intro a
      rw [List.foldl_cons, ih, List.length_cons]
      omega
  simp [lastPos, List.foldl_append, hlen]

theorem lastPos_concat_of (h : p e = true) : lastPos p (l ++ [e]) = l.length + 1 := by simp [h]

theorem lastPos_concat_of_not (h : p e = false) : lastPos p (l ++ [e]) = lastPos p l := by simp [h]

theorem lastPos_le : lastPos p l ≤ l.length := by
  induction l using List.reverseRecOn with
  | nil => simp
  | append_singleton l e ih =>
    simp only [lastPos_concat, List.length_append, List.length_singleton]
    split <;> omega

/-- No event that satisfies `p` comes after the last one. -/
theorem lt_lastPos (h : l[i]? = some a) (ha : p a = true) : i < lastPos p l := by
  induction l using List.reverseRecOn with
  | nil => simp at h
  | append_singleton l e ih =>
    rw [lastPos_concat]
    rcases getElem?_concat_iff.mp h with h | ⟨rfl, rfl⟩
    · have hi := lt_of_getElem? h
      have := ih h
      split <;> omega
    · simp [ha]

/-- The event at the last position satisfies `p`. -/
theorem exists_lastPos (h : 0 < lastPos p l) :
    ∃ a, l[lastPos p l - 1]? = some a ∧ p a = true := by
  induction l using List.reverseRecOn with
  | nil => simp at h
  | append_singleton l e ih =>
    rw [lastPos_concat] at h ⊢
    split at h
    · next he => exact ⟨e, by simp [he]⟩
    · next he =>
      obtain ⟨a, h1, h2⟩ := ih h
      exact ⟨a, by simpa [he] using getElem?_concat h1 e, h2⟩

/-! ## Last calls -/

@[simp] theorem lastCall_call {l : Log C} {t u : Tid} {op : C.Op} :
    lastCall (l ++ [.call u op]) t = if u = t then some op else lastCall l t := by
  simp [lastCall, List.foldl_append]

@[simp] theorem lastCall_act {l : Log C} {t u : Tid} {c : S.Cmd} {r : S.Resp c} :
    lastCall (l ++ [.act u c r]) t = lastCall l t := by
  simp [lastCall, List.foldl_append]

@[simp] theorem lastCall_ret {l : Log C} {t u : Tid} {op : C.Op} {res : C.Res} :
    lastCall (l ++ [.ret u op res]) t = lastCall l t := by
  simp [lastCall, List.foldl_append]

/-- The steps of other threads leave the last call of a thread. -/
theorem lastCall_other {l : Log C} {t : Tid} {e : Event S C.Op C.Res} (h : e.tid ≠ t) :
    lastCall (l ++ [e]) t = lastCall l t := by
  cases e with
  | call u op => simpa [Event.tid] using fun h' => absurd h' h
  | act u c r => simp
  | ret u op res => simp

/-- The last call of a thread stands in the history. -/
theorem exists_of_lastCall {l : Log C} {t : Tid} {op : C.Op} (h : lastCall l t = some op) :
    ∃ i : Nat, l[i]? = some (Event.call t op) := by
  induction l using List.reverseRecOn with
  | nil => simp [lastCall] at h
  | append_singleton l e ih =>
    by_cases he : e = .call t op
    · exact ⟨l.length, by simp [he]⟩
    · have hl : lastCall l t = some op := by
        cases e with
        | call u op' =>
          rw [lastCall_call] at h
          split at h
          · next hu =>
            cases h
            exact absurd (by rw [hu]) he
          · exact h
        | act u c r => simpa using h
        | ret u op' res => simpa using h
      obtain ⟨i, hi⟩ := ih hl
      exact ⟨i, getElem?_concat hi e⟩

/-- A thread that has made a call has a last one. -/
theorem lastCall_ne_none {l : Log C} {t : Tid} {op : C.Op} (h : l[i]? = some (Event.call t op)) :
    lastCall l t ≠ none := by
  induction l using List.reverseRecOn with
  | nil => simp at h
  | append_singleton l e ih =>
    cases e with
    | call u op' =>
      rw [lastCall_call]
      by_cases hu : u = t
      · simp [hu]
      · rw [if_neg hu]
        rcases getElem?_concat_iff.mp h with h | ⟨-, he⟩
        · exact ih h
        · cases he
          exact absurd rfl hu
    | act u c r =>
      rw [lastCall_act]
      rcases getElem?_concat_iff.mp h with h | ⟨-, he⟩
      · exact ih h
      · cases he
    | ret u op' res =>
      rw [lastCall_ret]
      rcases getElem?_concat_iff.mp h with h | ⟨-, he⟩
      · exact ih h
      · cases he

end Conc
