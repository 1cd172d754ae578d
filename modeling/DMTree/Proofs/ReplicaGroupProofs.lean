import DMTree.SkipVector.ReplicaGroup
import DMTree.Conc.Proofs.OutlineProofs

/-!
# The loops of a group call

Masks as sets of replicas, and outlines of the loops of `ReplicaGroup.cc` that hold on any network:
whatever the network guarantees about a post and about a poll, the loops carry to the end of the call.
-/

namespace DMTree.SkipVector

open Conc

/-! ## Masks -/

@[simp] theorem getLsbD_bit (i j : Nat) : (bit i).getLsbD j = (decide (j < 32) && decide (i = j)) := by
  rw [bit, BitVec.getLsbD_shiftLeft, BitVec.getLsbD_one]
  by_cases hj : j < 32
  · simp only [hj, decide_true, Bool.true_and]
    by_cases hij : i = j
    · subst hij
      simp
    · simp only [hij, decide_false, Bool.and_eq_false_imp, Bool.not_eq_true', decide_eq_false_iff_not]
      simp
      omega
  · simp [hj]

/-- The test of a bit. -/
theorem and_bit_eq_zero (m : Mask) (i : Nat) : m &&& bit i = 0 ↔ m.getLsbD i = false := by
  constructor
  · intro h
    by_cases hi : i < 32
    · have hbit := congrArg (fun w : Mask => w.getLsbD i) h
      simp only [BitVec.getLsbD_and, getLsbD_bit, hi, decide_true, Bool.and_true] at hbit
      exact hbit.trans (BitVec.getLsbD_zero ..)
    · exact BitVec.getLsbD_of_ge _ _ (by omega)
  · intro h
    refine BitVec.eq_of_getLsbD_eq fun j hj => ?_
    by_cases hij : i = j
    · subst hij
      simp [h]
    · simp [hij]

theorem Mask.Is.empty : Mask.Is 0 [] := fun i => by simp

theorem Mask.Is.add {m : Mask} {is : List Nat} (h : m.Is is) {i : Nat} (hi : i < 32) :
    Mask.Is (m ||| bit i) (is ++ [i]) := by
  intro j
  rw [BitVec.getLsbD_or, getLsbD_bit, Bool.or_eq_true, h j, List.mem_append, List.mem_singleton]
  refine or_congr_right ?_
  simp only [Bool.and_eq_true, decide_eq_true_eq]
  constructor
  · exact fun h => h.2.symm
  · rintro rfl
    exact ⟨hi, rfl⟩

theorem Mask.Is.congr {m : Mask} {is js : List Nat} (h : m.Is is) (hij : ∀ i, i ∈ is ↔ i ∈ js) :
    m.Is js := fun i => (h i).trans (hij i)

/-- The replicas of a mask, as a set of `popcount` elements. -/
def Mask.toFinset (m : Mask) : Finset Nat := (Finset.range 32).filter fun i => m.getLsbD i = true

@[simp] theorem Mask.mem_toFinset {m : Mask} {i : Nat} : i ∈ m.toFinset ↔ m.getLsbD i = true := by
  rw [Mask.toFinset, Finset.mem_filter, Finset.mem_range, and_iff_right_iff_imp]
  exact fun h => BitVec.lt_of_getLsbD h

theorem Mask.card_toFinset (m : Mask) : m.toFinset.card = popcount m := by
  have hl : m.toFinset = ((List.range 32).filter m.getLsbD).toFinset := by
    ext i
    rw [Mask.mem_toFinset, List.mem_toFinset, List.mem_filter, List.mem_range]
    exact ⟨fun h => ⟨BitVec.lt_of_getLsbD h, h⟩, fun h => h.2⟩
  rw [hl, List.toFinset_card_of_nodup (List.nodup_range.filter _), popcount,
    List.countP_eq_length_filter]

/-- The number of bits of a mask that is known. -/
theorem Mask.Is.popcount {m : Mask} {is : List Nat} (h : m.Is is) (hn : is.Nodup) :
    popcount m = is.length := by
  rw [← Mask.card_toFinset, ← List.toFinset_card_of_nodup hn]
  congr 1
  ext i
  rw [Mask.mem_toFinset, List.mem_toFinset, h i]

theorem alive_nodup (n : Nat) (dropMask : Mask) : (alive n dropMask).Nodup :=
  List.nodup_range.filter _

theorem mem_alive {n i : Nat} {dropMask : Mask} :
    i ∈ alive n dropMask ↔ i < n ∧ dropMask.getLsbD i = false := by
  simp [alive]

/-! ## The loops -/

section Loops

variable {V σ γ : Type} {C : Client (ReplicaSig V)} {D : Discipline C σ γ} {t : Tid}

/-- The loop that posts a verb: `F js` stands when it has been posted to `js`. -/
theorem postAll_outline {F : List Nat → World C σ γ → Prop} (dropMask : Mask) (v : Verb V)
    (is js : List Nat) (h : (js ++ is).Nodup)
    (hpost : ∀ js, ∀ i ∈ is, i ∉ js →
      Outline D t (issue (.post i v)) (F js) fun _ => F (js ++ [i])) :
    Outline D t (postAll dropMask v is js.length) (F js) fun k x =>
      F (js ++ is.filter fun i => !dropMask.getLsbD i) x ∧
        k = (js ++ is.filter fun i => !dropMask.getLsbD i).length := by
  induction is generalizing js with
  | nil => exact Outline.pure fun x _ hx => by simpa using hx
  | cons i is ih =>
    have hi : i ∉ js := fun hi => (List.nodup_append.mp h).2.2 i hi i (List.mem_cons_self ..) rfl
    rw [postAll]
    refine Outline.ite (fun hd => ?_) fun hd => ?_
    · have hbit : dropMask.getLsbD i = true := by
        rwa [ne_eq, and_bit_eq_zero, Bool.not_eq_false] at hd
      have hrest := ih js (h.sublist (by simp)) fun js j hj => hpost js j (List.mem_cons_of_mem i hj)
      simpa [List.filter_cons, hbit] using hrest
    · have hbit : dropMask.getLsbD i = false := by
        rwa [ne_eq, not_not, and_bit_eq_zero] at hd
      refine Outline.bind (hpost js i (List.mem_cons_self ..) hi) fun _ => ?_
      have hrest := ih (js ++ [i]) (by simpa using h)
        fun js j hj => hpost js j (List.mem_cons_of_mem i hj)
      simpa [List.filter_cons, hbit] using hrest

/-- `G i` after a poll that found the verb at replica `i` completed, and `H` after any other poll. -/
def AfterPoll (G : Nat → Prop) (H : Prop) : Option Wc → Prop
  | some ⟨true, i⟩ => G i
  | _ => H

/-- The loop that polls: `F js` stands when the completions of `js` have been found. A number that
gets smaller with every poll is asked for where outlines show that loops end. -/
theorem waitQuorum_outline {F : List Nat → Nat → World C σ γ → Prop} {Q : List Nat → World C σ γ → Prop}
    {posted quorum : Nat} (hF : ∀ js n, D.Stable t (F js n))
    (hpoll : ∀ js n, js.length < posted → Outline D t (issue (V := V) .ibvPollCq) (F js n)
      fun wc x => match wc with
        | some ⟨true, i⟩ => i < 32 ∧ ∃ n', (D.Total → n' < n) ∧ F (js ++ [i]) n' x
        | _ => ∃ n', (D.Total → n' < n) ∧ F js n' x)
    (hdone : ∀ js n x, D.Inv x → F js n x → js.length = posted → Q js x) :
    Outline D t (waitQuorum posted quorum) (fun x => ∃ n, F [] n x)
      fun mask x => ∃ js, mask.Is js ∧ js.length = posted ∧ Q js x := by
  refine Outline.loop_down (J := fun s n x => ∃ js, s.successMask.Is js ∧
      js.length = s.completions ∧ s.completions ≤ posted ∧ F js n x)
    (fun x _ hx => hx.imp fun n hn => ⟨[], .empty, rfl, Nat.zero_le _, hn⟩)
    (fun s n => Discipline.Stable.exists fun js => .and (Discipline.stable_const _)
      (.and (Discipline.stable_const _) (.and (Discipline.stable_const _) (hF js n)))) fun s n => ?_
  refine Outline.of_exists fun js => ?_
  refine Outline.of_fact (φ := s.successMask.Is js ∧ js.length = s.completions ∧
    s.completions ≤ posted) (fun x _ hx => ⟨hx.1, hx.2.1, hx.2.2.1⟩) fun hs => ?_
  obtain ⟨hm, hl, hle⟩ := hs
  refine Outline.ite (fun hlt => ?_) fun hge => Outline.pure fun x hi hx =>
    ⟨js, hm, by omega, hdone js n x hi hx.2.2.2 (by omega)⟩
  refine Outline.bind (Q := fun r x => if r.1 then r.2 < 32 ∧ ∃ n', (D.Total → n' < n) ∧
      F (js ++ [r.2]) n' x else ∃ n', (D.Total → n' < n) ∧ F js n' x) ?_ fun r => ?_
  · refine Outline.bind (Outline.bind ((hpoll js n (by omega)).mono fun x _ hx => hx.2.2.2)
      (R := fun r x => AfterPoll
        (fun i => r.1 = 1 ∧ i < 32 ∧ ∃ n', (D.Total → n' < n) ∧ F (js ++ [i]) n' x)
        (r.1 ≠ 1 ∧ ∃ n', (D.Total → n' < n) ∧ F js n' x) r.2) fun wc => ?_) fun r => ?_
    · rcases wc with _ | ⟨_ | _, i⟩
      · exact Outline.pure fun x _ hx => ⟨Int.zero_ne_one, hx⟩
      · exact Outline.pure fun x _ hx => ⟨by simp, hx⟩
      · exact Outline.pure fun x _ hx => ⟨rfl, hx⟩
    · obtain ⟨res, _ | ⟨_ | _, i⟩⟩ := r
      · exact Outline.pure fun x _ hx => by simpa [hx.1] using hx.2
      · exact Outline.pure fun x _ hx => by simpa [hx.1] using hx.2
      · refine Outline.pure fun x _ hx => ?_
        obtain rfl : res = 1 := hx.1
        simpa using hx.2
  · obtain ⟨ok, i⟩ := r
    cases ok with
    | false =>
      refine Outline.pure fun x _ hx => ?_
      obtain ⟨n', hn, hx⟩ := hx
      exact ⟨n', hn, js, hm, hl, hle, hx⟩
    | true =>
      refine Outline.bind (Outline.assert (Q := fun _ x => i < 32 ∧ ∃ n', (D.Total → n' < n) ∧
        F (js ++ [i]) n' x) (fun x _ hx _ => hx) fun x _ hx hf => ?_) fun _ => ?_
      · exact absurd hx.1 (by simpa using hf)
      · refine Outline.pure fun x _ hx => ?_
        obtain ⟨hi, n', hn, hx⟩ := hx
        exact ⟨n', hn, js ++ [i], hm.add hi, by simp [hl], hlt, hx⟩

/-- The loop that collects the wins: `H ls ws` stands when `ls` have been looked at and `ws` are the
wins among them. -/
theorem collectWins_outline [DecidableEq V] {H : List Nat → List Nat → World C σ γ → Prop}
    (expected : V) (completed : Mask)
    (hload : ∀ ls ws i, completed.getLsbD i = true → Outline D t (issue (.load i)) (H ls ws)
      fun v => H (ls ++ [i]) (if v = expected then ws ++ [i] else ws))
    (hskip : ∀ ls ws i x, completed.getLsbD i = false → H ls ws x → H (ls ++ [i]) ws x)
    (is ls ws : List Nat) (wins : Mask) (hw : wins.Is ws) :
    Outline D t (collectWins expected completed is wins) (H ls ws)
      fun m x => ∃ ws', m.Is ws' ∧ H (ls ++ is) ws' x := by
  induction is generalizing ls ws wins with
  | nil => exact Outline.pure fun x _ hx => ⟨ws, hw, by simpa using hx⟩
  | cons i is ih =>
    have hls : ls ++ i :: is = ls ++ [i] ++ is := by simp
    rw [hls, collectWins]
    refine Outline.ite (fun hc => ?_) fun hc => ?_
    · rw [and_bit_eq_zero] at hc
      exact (ih (ls ++ [i]) ws wins hw).mono fun x _ hx => hskip ls ws i x hc hx
    · rw [and_bit_eq_zero, Bool.not_eq_false] at hc
      refine Outline.bind (hload ls ws i hc) fun v => ?_
      refine Outline.ite (fun hv => ?_) fun hv => ?_
      · rw [if_pos hv]
        exact ih _ _ _ (hw.add (BitVec.lt_of_getLsbD hc))
      · rw [if_neg hv]
        exact ih _ _ _ hw

/-- The caller looks at its buffers: `K vs` stands when it has seen `vs`. -/
theorem loadAll_outline {K : List V → World C σ γ → Prop}
    (hload : ∀ vs : List V, Outline D t (issue (.load vs.length)) (K vs) fun v => K (vs ++ [v]))
    (k : Nat) (vs : List V) :
    Outline D t (loadAll (List.range' vs.length k)) (K vs)
      fun ws x => ws.length = k ∧ K (vs ++ ws) x := by
  induction k generalizing vs with
  | zero => exact Outline.pure fun x _ hx => by simpa using hx
  | succ k ih =>
    rw [List.range'_succ, loadAll]
    refine Outline.bind (hload vs) fun v => ?_
    have hrest := ih (vs ++ [v])
    rw [List.length_append, List.length_singleton] at hrest
    refine Outline.bind hrest fun ws => Outline.pure fun x _ ⟨hlen, hx⟩ => ⟨by simp [hlen], ?_⟩
    rwa [List.append_assoc] at hx

end Loops

end DMTree.SkipVector
