import DMTree.Proofs.ReplicaGroupProofs
import DMTree.Conc.Proofs.SoloProofs

/-!
# When a group call returns

`pollOnce` turns a failed completion into `-1`, `poll_rdma_cq_once` turns that into `false`, and
`wait_quorum_` takes `false` for "nothing yet": a failed completion is consumed but not counted. So a
call returns exactly when none of its verbs fails.
-/

namespace DMTree.SkipVector

open Conc

/-! ## Sequences of polls -/

@[simp] theorem completions_append (ps qs : List (Option Wc)) :
    completions (ps ++ qs) = completions ps ++ completions qs := List.filterMap_append ..

@[simp] theorem succeeded_append (ps qs : List (Option Wc)) :
    succeeded (ps ++ qs) = succeeded ps ++ succeeded qs := by
  simp [succeeded]

theorem succeeded_length_le (ps : List (Option Wc)) :
    (succeeded ps).length ≤ (completions ps).length := by
  rw [succeeded, List.length_map]
  exact List.length_filter_le ..

/-- As many successes as completions: nothing failed. -/
theorem all_success_of_length {ps : List (Option Wc)}
    (h : (succeeded ps).length = (completions ps).length) :
    ∀ w ∈ completions ps, w.success = true := by
  rw [succeeded, List.length_map, List.length_filter_eq_length_iff] at h
  exact h

theorem succeeded_of_all_success {ps : List (Option Wc)}
    (h : ∀ w ∈ completions ps, w.success = true) :
    succeeded ps = (completions ps).map Wc.wrId := by
  rw [succeeded, List.filter_eq_self.mpr h]

theorem CompleteOnce.succeeded_nodup {n : Nat} {dropMask : Mask} {ps : List (Option Wc)}
    (h : CompleteOnce n dropMask ps) : (succeeded ps).Nodup := by
  refine ((h.nodup_iff.mpr (alive_nodup _ _)).sublist ?_)
  exact List.filter_sublist.map _

theorem CompleteOnce.lt {n : Nat} {dropMask : Mask} {ps : List (Option Wc)}
    (h : CompleteOnce n dropMask ps) {i : Nat} (hi : i ∈ succeeded ps) : i < n := by
  have hmem : i ∈ (completions ps).map Wc.wrId := by
    obtain ⟨w, hw, rfl⟩ := List.mem_map.mp hi
    exact List.mem_map_of_mem (List.mem_filter.mp hw).1
  exact (mem_alive.mp (h.mem_iff.mp hmem)).1

/-! ## The call alone with its polls -/

section

variable {V : Type} [DecidableEq V] {n : Nat} {total : Prop} {t : Tid} {dropMask : Mask}
  {m₀ : Polls V}

/-- Only thread `t` takes steps. -/
abbrev pollsDisc (V : Type) [DecidableEq V] (n : Nat) (t : Tid) (total : Prop) :
    Discipline (replicaClient V n) (Polls V) Unit where
  machine := pollsMachine
  guard := Guard.all
  Inv _ := True
  Rel u _ _ := u = t
  MayFail _ := False
  Total := total

theorem polls_stable (P : World (replicaClient V n) (Polls V) Unit → Prop) :
    (pollsDisc V n t total).Stable t P := fun _ _ _ hu _ _ hr _ => absurd hr hu

/-- A command in terms of its answer and the state it leaves. -/
theorem polls_cmd {c : ReplicaCmd V} {P : World (replicaClient V n) (Polls V) Unit → Prop}
    {Q : c.Resp → World (replicaClient V n) (Polls V) Unit → Prop}
    (h : ∀ x, P x → ∃ r m, pollsMachine.exec t c x.mem = some (r, m) ∧
      ∀ l, Q r ⟨m, l, ()⟩) : Outline (pollsDisc V n t total) t (issue c) P Q := by
  refine Outline.cmd ?_ (fun _ => polls_stable _) ?_
  · intro _ x _ hx
    obtain ⟨r, m, he, -⟩ := h x hx
    exact ⟨trivial, Option.isSome_iff_exists.mpr ⟨_, he⟩⟩
  · intro x r m _ hx _ he
    obtain ⟨r', m', he', hq⟩ := h x hx
    obtain ⟨rfl, rfl⟩ : r' = r ∧ m' = m := by
      have heq : some (r', m') = some (r, m) := he'.symm.trans he
      simpa using heq
    exact ⟨(), trivial, rfl, hq _⟩

/-- The polls `ps` of `m₀` have been consumed, and the last of them was a completion if all verbs have
succeeded. -/
structure Polled (m₀ : Polls V) (posted : Nat) (m : Polls V) (ps : List (Option Wc)) : Prop where
  split : m₀.polls = ps ++ m.polls
  buf : m.buf = m₀.buf
  last : ps = [] ∨ (succeeded ps).length < posted ∨ ∃ qs w, ps = qs ++ [some w]

omit [DecidableEq V] in
/-- The next poll, while verbs are missing. -/
theorem Polled.next {posted : Nat} {m : Polls V} {ps qs : List (Option Wc)} {p : Option Wc}
    (h : Polled m₀ posted m ps) (hm : m.polls = p :: qs)
    (hlast : (succeeded (ps ++ [p])).length < posted ∨ p.isSome) :
    Polled m₀ posted ⟨qs, m.buf⟩ (ps ++ [p]) := by
  refine ⟨by rw [h.split, hm]; simp, h.buf, .inr ?_⟩
  rcases hlast with hlast | hp
  · exact .inl hlast
  · obtain ⟨w, rfl⟩ := Option.isSome_iff_exists.mp hp
    exact .inr ⟨ps, w, rfl⟩

/-- What is known when all posted verbs have succeeded. -/
structure AllPolled (m₀ m : Polls V) : Prop where
  success : ∀ w ∈ completions m₀.polls, w.success = true
  buf : m.buf = m₀.buf
  consumed : ∃ ps, m₀.polls = ps ++ m.polls ∧ completions m.polls = [] ∧
    (ps = [] ∨ ∃ qs w, ps = qs ++ [some w])

omit [DecidableEq V] in
theorem Polled.all {m : Polls V} {ps : List (Option Wc)}
    (h : Polled m₀ (completions m₀.polls).length m ps)
    (hl : (succeeded ps).length = (completions m₀.polls).length) :
    AllPolled m₀ m ∧ succeeded ps = succeeded m₀.polls := by
  have hle := succeeded_length_le ps
  have hsum : (completions m₀.polls).length =
      (completions ps).length + (completions m.polls).length := by
    rw [h.split, completions_append, List.length_append]
  have hrest : completions m.polls = [] := List.length_eq_zero_iff.mp (by omega)
  have hsucc : succeeded m.polls = [] := by simp [succeeded, hrest]
  have hps : succeeded ps = succeeded m₀.polls := by
    rw [h.split, succeeded_append, hsucc, List.append_nil]
  refine ⟨⟨all_success_of_length (by rw [← hps, hl]), h.buf, ps, h.split, hrest, ?_⟩, hps⟩
  rcases h.last with hnil | hlt | hw
  · exact .inl hnil
  · omega
  · exact .inr hw

/-- The wait returns only when everything has succeeded; and if nothing fails, it does. -/
theorem polls_waitQuorum (hn : n ≤ 32) (hc : CompleteOnce n dropMask m₀.polls)
    (ht : total → ∀ w ∈ completions m₀.polls, w.success = true) (quorum : Nat) :
    Outline (pollsDisc V n t total) t (waitQuorum (alive n dropMask).length quorum)
      (fun x => x.mem = m₀)
      fun mask x => mask.Is (succeeded m₀.polls) ∧ AllPolled m₀ x.mem := by
  have hposted : (alive n dropMask).length = (completions m₀.polls).length := by
    rw [← hc.length_eq, List.length_map]
  rw [hposted]
  refine ((waitQuorum_outline (F := fun js k x => ∃ ps, Polled m₀ (completions m₀.polls).length
      x.mem ps ∧ succeeded ps = js ∧ k = x.mem.polls.length)
    (Q := fun js x => js = succeeded m₀.polls ∧ AllPolled m₀ x.mem) (fun _ _ => polls_stable _)
    (fun js k hjs => polls_cmd ?_) ?_).mono ?_).post ?_
  · rintro ⟨m, _, _⟩ ⟨ps, hp, rfl, rfl⟩
    dsimp only at hp
    refine ⟨m.polls.headD none, ⟨m.polls.tail, m.buf⟩, rfl, fun l => ?_⟩
    cases hm : m.polls with
    | nil =>
      refine ⟨0, fun htot => ?_, ps, ?_, rfl, rfl⟩
      · -- all completions have been consumed, and none of them failed
        have hsplit : m₀.polls = ps := by simpa [hm] using hp.split
        rw [succeeded_of_all_success (hsplit ▸ ht htot), List.length_map, hsplit] at hjs
        omega
      · exact ⟨by simpa [hm] using hp.split, hp.buf, hp.last⟩
    | cons p qs =>
      have hdown : total → qs.length < (p :: qs).length := fun _ => Nat.lt_succ_self _
      rcases p with _ | ⟨_ | _, i⟩
      · exact ⟨_, hdown, _, hp.next hm (.inl (by simpa [succeeded, completions] using hjs)),
          by simp [succeeded, completions], rfl⟩
      · exact ⟨_, hdown, _, hp.next hm (.inr rfl), by simp [succeeded, completions], rfl⟩
      · refine ⟨?_, _, hdown, _, hp.next hm (.inr rfl), by simp [succeeded, completions], rfl⟩
        have hi : i ∈ succeeded m₀.polls := by
          rw [hp.split, hm]
          simp [succeeded, completions]
        exact (hc.lt hi).trans_le hn
  · rintro js k x - ⟨ps, hp, rfl, -⟩ hl
    exact (hp.all hl).symm
  · rintro x - rfl
    exact ⟨_, [], ⟨rfl, rfl, .inl rfl⟩, rfl, rfl⟩
  · rintro mask x - ⟨js, hmask, -, rfl, hall⟩
    exact ⟨hmask, hall⟩

theorem polls_postAll (v : Verb V) :
    Outline (pollsDisc V n t total) t (postAll dropMask v (List.range n) 0) (fun x => x.mem = m₀)
      fun k x => x.mem = m₀ ∧ k = (alive n dropMask).length := by
  refine (postAll_outline (F := fun _ x => x.mem = m₀) dropMask v (List.range n) []
    List.nodup_range fun js i _ _ => polls_cmd ?_).post fun k x _ hx => hx
  rintro x rfl
  exact ⟨(), x.mem, rfl, fun _ => rfl⟩

/-- What the mask of the wins is in the end. -/
theorem polls_collectWins (hc : CompleteOnce n dropMask m₀.polls) (expected : V) {completed : Mask}
    (hcm : completed.Is (succeeded m₀.polls)) :
    Outline (pollsDisc V n t total) t (collectWins expected completed (List.range n) 0)
      (fun x => AllPolled m₀ x.mem) fun wins x =>
        wins.Is ((succeeded m₀.polls).filter fun i => m₀.buf i = expected) ∧ AllPolled m₀ x.mem := by
  refine ((collectWins_outline (H := fun ls ws x => AllPolled m₀ x.mem ∧ ∀ i, i ∈ ws ↔ i ∈ ls ∧
      i ∈ succeeded m₀.polls ∧ m₀.buf i = expected) expected completed
    (fun ls ws i hi => polls_cmd ?_) ?_ (List.range n) [] [] 0 .empty).mono ?_).post ?_
  · rintro x ⟨hall, hws⟩
    refine ⟨x.mem.buf i, x.mem, rfl, fun l => ⟨hall, fun j => ?_⟩⟩
    have hsi := (hcm i).mp hi
    rw [hall.buf]
    split
    · next hv =>
      rw [List.mem_append, List.mem_append, List.mem_singleton, hws j]
      constructor
      · rintro (⟨h1, h2⟩ | rfl)
        · exact ⟨.inl h1, h2⟩
        · exact ⟨.inr rfl, hsi, hv⟩
      · rintro ⟨h1 | rfl, h2⟩
        · exact .inl ⟨h1, h2⟩
        · exact .inr rfl
    · next hv =>
      rw [List.mem_append, List.mem_singleton, hws j]
      constructor
      · rintro ⟨h1, h2⟩
        exact ⟨.inl h1, h2⟩
      · rintro ⟨h1 | rfl, h2⟩
        · exact ⟨h1, h2⟩
        · exact absurd h2.2 hv
  · rintro ls ws i x hi ⟨hall, hws⟩
    refine ⟨hall, fun j => ?_⟩
    rw [hws j, List.mem_append, List.mem_singleton]
    constructor
    · rintro ⟨h1, h2⟩
      exact ⟨.inl h1, h2⟩
    · rintro ⟨h1 | rfl, h2⟩
      · exact ⟨h1, h2⟩
      · rw [(hcm j).mpr h2.1] at hi
        cases hi
  · exact fun x _ hall => ⟨hall, by simp⟩
  · rintro wins x - ⟨ws, hwins, hall, hws⟩
    refine ⟨hwins.congr fun i => ?_, hall⟩
    rw [hws i, List.mem_filter, List.nil_append, List.mem_range, decide_eq_true_eq]
    exact ⟨fun h => h.2, fun h => ⟨hc.lt h.1, h⟩⟩

theorem GroupCall.counted_nodup {a : GroupCall V} (hc : CompleteOnce n a.dropMask m₀.polls) :
    (a.counted m₀).Nodup := hc.succeeded_nodup.filter _

/-- The result of the call, once its mask is known. -/
theorem AllPolled.settles {a : GroupCall V} (hc : CompleteOnce n a.dropMask m₀.polls) {m : Polls V}
    (h : AllPolled m₀ m) {mask : Mask} (hm : mask.Is (a.counted m₀)) :
    a.Settles m₀ (decide (popcount mask ≥ a.quorum), mask) m := by
  refine ⟨h.consumed, hm, ?_⟩
  rw [hm.popcount (GroupCall.counted_nodup hc), decide_eq_false_iff_not, not_le]

/-- The outline of a whole call. -/
theorem polls_run (total : Prop) (hn : n ≤ 32) (a : GroupCall V) (hc : CompleteOnce n a.dropMask m₀.polls)
    (ht : total → ∀ w ∈ completions m₀.polls, w.success = true) :
    Outline (pollsDisc V n t total) t (a.run n) (fun x => x.mem = m₀)
      fun r x => AllPolled m₀ x.mem ∧ a.Settles m₀ r x.mem := by
  -- the two calls without wins count every success
  have hsimple : ∀ v : Verb V, a.counted m₀ = succeeded m₀.polls →
      Outline (pollsDisc V n t total) t (do
        let posted ← postAll a.dropMask v (List.range n) 0
        let mask ← waitQuorum posted a.quorum
        return (decide (popcount mask ≥ a.quorum), mask)) (fun x => x.mem = m₀)
        fun r x => AllPolled m₀ x.mem ∧ a.Settles m₀ r x.mem := by
    intro v hcount
    refine Outline.bind (polls_postAll v) fun k => ?_
    refine Outline.of_fact (φ := k = (alive n a.dropMask).length) (fun _ _ hx => hx.2) fun hk => ?_
    subst hk
    refine Outline.bind ((polls_waitQuorum hn hc ht a.quorum).mono fun _ _ hx => hx.1) fun mask => ?_
    exact Outline.pure fun x _ ⟨hmask, hall⟩ => ⟨hall, hall.settles hc (hcount ▸ hmask)⟩
  unfold GroupCall.run
  cases hv : a.verb with
  | read => exact hsimple .read (by simp [GroupCall.counted, hv])
  | write d => exact hsimple (.write d) (by simp [GroupCall.counted, hv])
  | cas e d =>
    refine Outline.bind (polls_postAll _) fun k => ?_
    refine Outline.of_fact (φ := k = (alive n a.dropMask).length) (fun _ _ hx => hx.2) fun hk => ?_
    subst hk
    refine Outline.bind ((polls_waitQuorum hn hc ht a.quorum).mono fun _ _ hx => hx.1) fun mask => ?_
    refine Outline.of_fact (φ := mask.Is (succeeded m₀.polls)) (fun _ _ hx => hx.1) fun hmask => ?_
    refine Outline.bind ((polls_collectWins hc e hmask).mono fun _ _ hx => hx.2) fun wins => ?_
    refine Outline.pure fun x _ ⟨hwins, hall⟩ => ⟨hall, hall.settles hc ?_⟩
    simpa [GroupCall.counted, hv] using hwins

/-- A call that returns has had no failed completion. -/
theorem all_success_of_runs (hn : n ≤ 32) {a : GroupCall V}
    (hc : CompleteOnce n a.dropMask m₀.polls) {r : Bool × Mask} {m : Polls V}
    (h : Runs pollsMachine t (a.run n) m₀ r m) : ∀ w ∈ completions m₀.polls, w.success = true := by
  have ho := polls_run (t := t) False hn a hc False.elim
  obtain ⟨_, _, -, hall, -⟩ := ho.runs_post (x := ⟨m₀, [], ()⟩) (fun _ _ _ => trivial) trivial rfl h
  exact hall.success

/-- A call on any network on which each of its verbs completes once: it returns right after the last
completion, with the replicas that count and the right result, exactly when no verb fails. -/
theorem settles_iff_no_failure (hn : n ≤ 32) (a : GroupCall V) (m : Polls V)
    (hc : CompleteOnce n a.dropMask m.polls) (t : Tid) :
    (∃ r m', Runs pollsMachine t (a.run n) m r m' ∧ a.Settles m r m') ↔
      ∀ w ∈ completions m.polls, w.success = true := by
  constructor
  · rintro ⟨r, m', hr, -⟩
    exact all_success_of_runs hn hc hr
  · intro hs
    have ho := polls_run (t := t) True hn a hc fun _ => hs
    obtain ⟨tr, r, m', g, hm, -, -, -, hset⟩ :=
      ho.runs trivial (fun _ h => h) (x := ⟨m, [], ()⟩) trivial rfl
    exact ⟨r, m', ⟨tr, hm⟩, hset⟩

end

/-- The theorem at a CAS on three replicas, one of them dropped, of which one wins. -/
theorem settles_iff_no_failure_cas :
    CompleteOnce 3 (bit 1) [none, some ⟨true, 2⟩, none, some ⟨true, 0⟩] ∧
    ((∃ r m', Runs pollsMachine 0 (GroupCall.run 3 ⟨.cas 5 6, bit 1, 2⟩)
        ⟨[none, some ⟨true, 2⟩, none, some ⟨true, 0⟩], fun i => i + 5⟩ r m' ∧
      GroupCall.Settles ⟨.cas 5 6, bit 1, 2⟩
        ⟨[none, some ⟨true, 2⟩, none, some ⟨true, 0⟩], fun i => i + 5⟩ r m') ↔
      ∀ w ∈ completions [none, some ⟨true, 2⟩, none, some ⟨true, 0⟩], w.success = true) := by
  have hc : CompleteOnce 3 (bit 1) [none, some ⟨true, 2⟩, none, some ⟨true, 0⟩] := by
    unfold CompleteOnce
    decide
  exact ⟨hc, settles_iff_no_failure (V := Nat) (by decide) ⟨.cas 5 6, bit 1, 2⟩
    ⟨[none, some ⟨true, 2⟩, none, some ⟨true, 0⟩], fun i => i + 5⟩ hc 0⟩

/-- The only verb of a read fails: the completion is consumed, and the call never returns. -/
theorem no_return_after_failure : CompleteOnce 1 0 [some ⟨false, 0⟩] ∧
    ¬ ∃ r m', Runs pollsMachine 0 (GroupCall.run 1 ⟨.read, 0, 1⟩)
      (⟨[some ⟨false, 0⟩], fun _ => 0⟩ : Polls Nat) r m' := by
  have hc : CompleteOnce 1 0 [some ⟨false, 0⟩] := by
    unfold CompleteOnce
    decide
  refine ⟨hc, ?_⟩
  rintro ⟨r, m', hr⟩
  have hs := all_success_of_runs (by decide) (a := ⟨.read, 0, 1⟩) hc hr ⟨false, 0⟩ (by decide)
  cases hs

end DMTree.SkipVector
