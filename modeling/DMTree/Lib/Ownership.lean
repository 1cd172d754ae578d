import Mathlib

/-!
# Ownership maps

A map that gives every element of a space an owner. Sets with different owners are disjoint, so that
a proof of disjointness only has to follow who owns what; `give` hands a set over.
-/

namespace Ownership

variable {β ω : Type*} {f : β → ω} {s s' : Set β} {o o' p : ω}

/-- All of `s` belongs to `o`. -/
def Owns (f : β → ω) (s : Set β) (o : ω) : Prop := ∀ b ∈ s, f b = o

open Classical in
/-- Hand `s` over to `o`. -/
noncomputable def give (f : β → ω) (s : Set β) (o : ω) : β → ω := s.piecewise (fun _ => o) f

theorem Owns.mono (h : Owns f s o) (hs : s' ⊆ s) : Owns f s' o := fun b hb => h b (hs hb)

theorem Owns.disjoint (h : Owns f s o) (h' : Owns f s' o') (ho : o ≠ o') : Disjoint s s' := by
  refine Set.disjoint_left.mpr fun b hb hb' => ho ?_
  rw [← h b hb, h' b hb']

theorem give_of_mem {b : β} (h : b ∈ s) : give f s o b = o := by
  simp [give, h]

theorem give_of_notMem {b : β} (h : b ∉ s) : give f s o b = f b := by
  simp [give, h]

theorem owns_give (f : β → ω) (s : Set β) (o : ω) : Owns (give f s o) s o :=
  fun _ => give_of_mem

/-- What is not handed over stays with its owner. -/
theorem Owns.give (h : Owns f s o) (hd : Disjoint s s') : Owns (give f s' p) s o := by
  intro b hb
  rw [give_of_notMem (Set.disjoint_left.mp hd hb)]
  exact h b hb

/-- What belongs to one owner stays with it when another one hands something over. -/
theorem Owns.give_of_ne (h : Owns f s o) (h' : Owns f s' o') (ho : o ≠ o') :
    Owns (Ownership.give f s' p) s o := h.give (h.disjoint h' ho)

/-- A single element. -/
theorem give_eq_of_ne {b : β} (h : f b = o) (h' : Owns f s' o') (ho : o ≠ o') :
    Ownership.give f s' p b = o := by
  rw [give_of_notMem fun hb => ho (h.symm.trans (h' b hb))]
  exact h

end Ownership
