import DMTree.SkipVector.Keeper
import DMTree.Conc.Proofs.OutlineProofs
import DMTree.Conc.Proofs.LogProofs

/-!
# What the barrier guarantees

The counter never exceeds the number of nodes that have arrived, so that no node passes before all
have arrived. It falls behind exactly when a memory node sets it after a compute node has incremented
it: then it never reaches the number of compute nodes.
-/

namespace DMTree.SkipVector

open Conc

variable {M C : Nat} {l : KeeperLog} {e : Event KeeperSig KeeperOp Unit} {t u : Tid}

/-! ## Histories -/

theorem arrived_append (l : KeeperLog) (e : Event KeeperSig KeeperOp Unit) :
    arrived (l ++ [e]) = arrived l ++ (incrementOf e).toList := by
  rw [arrived, List.filterMap_append]
  cases he : incrementOf e <;> simp [he, arrived]

theorem mem_arrived : t ∈ arrived l ↔ ∃ i : Nat, l[i]? = some (.act t .increment true) := by
  constructor
  · intro h
    obtain ⟨e, he, hi⟩ := List.mem_filterMap.mp h
    obtain ⟨i, hi'⟩ := List.mem_iff_getElem?.mp he
    refine ⟨i, ?_⟩
    unfold incrementOf at hi
    split at hi
    · cases hi
      exact hi'
    · cases hi
  · rintro ⟨i, hi⟩
    exact List.mem_filterMap.mpr ⟨_, List.mem_of_getElem? hi, rfl⟩

theorem OneCallEach.of_append (h : OneCallEach (l ++ [e])) : OneCallEach l :=
  fun i j t op op' hi hj => h i j t op op' (getElem?_concat hi e) (getElem?_concat hj e)

/-- The node whose call the event is. -/
def callOf : Event KeeperSig KeeperOp Unit → Option Tid
  | .call t _ => some t
  | _ => none

theorem oneCallEach_of_callers (h : (l.filterMap callOf).Nodup) : OneCallEach l := by
  induction l using List.reverseRecOn with
  | nil => exact fun i j t op op' hi => by simp at hi
  | append_singleton l e ih =>
    rw [List.filterMap_append, List.nodup_append] at h
    obtain ⟨hl, -, hne⟩ := h
    have hold : ∀ {i : Nat} {t : Tid} {op op' : KeeperOp}, l[i]? = some (.call t op) →
        e ≠ .call t op' := by
      rintro i t op op' hi rfl
      exact hne t (List.mem_filterMap.mpr ⟨_, List.mem_of_getElem? hi, rfl⟩) t (by simp [callOf]) rfl
    intro i j t op op' hi hj
    rcases getElem?_concat_iff.mp hi with hi | ⟨hin, hi⟩ <;>
      rcases getElem?_concat_iff.mp hj with hj | ⟨hjn, hj⟩
    · exact ih hl i j t op op' hi hj
    · exact absurd hj (hold hi)
    · exact absurd hi (hold hj)
    · rw [hin, hjn]

/-- A node that makes one call at most. -/
theorem OneCallEach.count_le (h : OneCallEach l) (t : Tid) : l.countP (Event.isCall t) ≤ 1 := by
  induction l using List.reverseRecOn with
  | nil => simp
  | append_singleton l e ih =>
    have hl := ih h.of_append
    rw [List.countP_append, List.countP_singleton]
    split
    · next he =>
      have hnone : l.countP (Event.isCall t) = 0 := by
        rw [List.countP_eq_zero]
        intro e' he' hc
        obtain ⟨i, hi⟩ := List.mem_iff_getElem?.mp he'
        cases e with
        | call t' op =>
          cases e' with
          | call u' op' =>
            simp only [Event.isCall, beq_iff_eq] at he hc
            subst he hc
            have hlt := lt_of_getElem? hi
            have := h i l.length _ _ _ (getElem?_concat hi _) (getElem?_concat_last l _)
            omega
          | act _ _ _ => simp [Event.isCall] at hc
          | ret _ _ _ => simp [Event.isCall] at hc
        | act _ _ _ => simp [Event.isCall] at he
        | ret _ _ _ => simp [Event.isCall] at he
      omega
    · omega

/-- One more event: the counter has now been set after an arrival, or it had been before. -/
theorem resetAfterArrival_append : ResetAfterArrival (l ++ [e]) ↔
    ResetAfterArrival l ∨ (∃ u, e = .act u .set ()) ∧ arrived l ≠ [] := by
  constructor
  · rintro ⟨i, j, t, u, hij, hi, hj⟩
    rcases getElem?_concat_iff.mp hj with hj | ⟨rfl, rfl⟩
    · have hjl := lt_of_getElem? hj
      rcases getElem?_concat_iff.mp hi with hi | ⟨rfl, -⟩
      · exact .inl ⟨i, j, t, u, hij, hi, hj⟩
      · omega
    · rcases getElem?_concat_iff.mp hi with hi | ⟨rfl, -⟩
      · exact .inr ⟨⟨u, rfl⟩, List.ne_nil_of_mem (mem_arrived.mpr ⟨i, hi⟩)⟩
      · omega
  · rintro (⟨i, j, t, u, hij, hi, hj⟩ | ⟨⟨u, rfl⟩, hne⟩)
    · exact ⟨i, j, t, u, hij, getElem?_concat hi e, getElem?_concat hj e⟩
    · obtain ⟨t, ht⟩ := List.exists_mem_of_ne_nil _ hne
      obtain ⟨i, hi⟩ := mem_arrived.mp ht
      exact ⟨i, l.length, t, u, lt_of_getElem? hi, getElem?_concat hi _, getElem?_concat_last l _⟩

/-! ## The discipline of the nodes -/

/-- All compute nodes have arrived, as far as every node makes one call at most. -/
def AllArrived (M C : Nat) (l : KeeperLog) : Prop :=
  OneCallEach l → ∀ u, M ≤ u → u < M + C → u ∈ arrived l

/-- The invariant of the counter `m` and the history `l`. -/
structure KeeperInv (M C : Nat) (m : Option Nat) (l : KeeperLog) : Prop where
  unset : m = none → arrived l = [] ∧ ∀ (i : Nat) t, l[i]? ≠ some (.act t .set ())
  le : ∀ v, m = some v → v ≤ (arrived l).length
  eq : ∀ v, m = some v → (v = (arrived l).length ↔ ¬ ResetAfterArrival l)
  nodes : ∀ t ∈ arrived l, M ≤ t ∧ t < M + C
  calls : ∀ t, (arrived l).count t ≤ l.countP (Event.isCall t)
  ret : ∀ (i : Nat) t n, l[i]? = some (.ret t (.barrier n) ()) → AllArrived M C (l.take i)

/-- The discipline of the nodes: no ghost state, and a step adds an event. -/
abbrev keeperDisc (M C : Nat) : Discipline keeperClient (Option Nat) Unit where
  machine := keeperMachine
  guard := keeperGuard M C
  Inv x := KeeperInv M C x.mem x.log
  Rel t x x' := ∃ e, x'.log = x.log ++ [e] ∧ e.tid = t
  MayFail := Empty.elim

/-- A counter that has reached the number of compute nodes. -/
theorem KeeperInv.allArrived {m : Option Nat} (h : KeeperInv M C m l)
    (hC : C ≤ (arrived l).length) : AllArrived M C l := by
  intro ho u h1 h2
  have hnd : (arrived l).Nodup :=
    List.nodup_iff_count_le_one.mpr fun t => (h.calls t).trans (ho.count_le t)
  have hsub : (arrived l).toFinset ⊆ Finset.Ico M (M + C) := by
    intro t ht
    rw [List.mem_toFinset] at ht
    exact Finset.mem_Ico.mpr (h.nodes t ht)
  have hcard : (Finset.Ico M (M + C)).card ≤ (arrived l).toFinset.card := by
    rw [Nat.card_Ico, List.toFinset_card_of_nodup hnd]
    omega
  have heq := Finset.eq_of_subset_of_card_le hsub hcard
  rw [← List.mem_toFinset, heq]
  exact Finset.mem_Ico.mpr ⟨h1, h2⟩

/-- An event that neither sets nor increments the counter. -/
theorem KeeperInv.other {m : Option Nat} (h : KeeperInv M C m l) (hi : incrementOf e = none)
    (hs : ∀ u, e ≠ .act u .set ()) (hr : ∀ t n, e = .ret t (.barrier n) () → AllArrived M C l) :
    KeeperInv M C m (l ++ [e]) := by
  have ha : arrived (l ++ [e]) = arrived l := by simp [arrived_append, hi]
  have hreset : ResetAfterArrival (l ++ [e]) ↔ ResetAfterArrival l := by
    rw [resetAfterArrival_append]
    exact or_iff_left fun ⟨⟨u, hu⟩, _⟩ => hs u hu
  refine ⟨?_, by rw [ha]; exact h.le, by rw [ha]; simpa only [hreset] using h.eq,
    by rw [ha]; exact h.nodes, ?_, ?_⟩
  · intro hm
    rw [ha]
    refine ⟨(h.unset hm).1, fun i t hi => ?_⟩
    rcases getElem?_concat_iff.mp hi with hi | ⟨-, hi⟩
    · exact (h.unset hm).2 i t hi
    · exact hs t hi
  · intro t
    rw [ha, List.countP_append]
    exact (h.calls t).trans (Nat.le_add_right _ _)
  · intro i t n hi
    rcases getElem?_concat_iff.mp hi with hi | ⟨rfl, rfl⟩
    · rw [List.take_append_of_le_length (lt_of_getElem? hi).le]
      exact h.ret i t n hi
    · rw [List.take_append_of_le_length le_rfl, List.take_length]
      exact hr t n rfl

/-- What stands in the history about returns, after an event that is not a return. -/
theorem KeeperInv.ret_append {m : Option Nat} (h : KeeperInv M C m l)
    (he : ∀ t n, e ≠ .ret t (.barrier n) ()) (i : Nat) (t : Tid) (n : Nat)
    (hi : (l ++ [e])[i]? = some (.ret t (.barrier n) ())) :
    AllArrived M C ((l ++ [e]).take i) := by
  rcases getElem?_concat_iff.mp hi with hi | ⟨-, hi⟩
  · rw [List.take_append_of_le_length (lt_of_getElem? hi).le]
    exact h.ret i t n hi
  · exact absurd hi (he t n)

/-- The counter is set to zero. -/
theorem KeeperInv.set {m : Option Nat} (h : KeeperInv M C m l) (t : Tid) :
    KeeperInv M C (some 0) (l ++ [.act t .set ()]) := by
  have ha : arrived (l ++ [.act t .set ()]) = arrived l := by simp [arrived_append, incrementOf]
  refine ⟨nofun, fun v _ => ?_, fun v hv => ?_, by rw [ha]; exact h.nodes, ?_,
    h.ret_append nofun⟩
  · next hv =>
    cases hv
    exact Nat.zero_le _
  · cases hv
    rw [ha, resetAfterArrival_append, not_or, not_and_or, not_not]
    constructor
    · intro h0
      have hnil : arrived l = [] := List.length_eq_zero_iff.mp h0.symm
      refine ⟨?_, .inr hnil⟩
      rintro ⟨i, _, t', _, _, hi, _⟩
      have hmem := mem_arrived.mpr ⟨i, hi⟩
      rw [hnil] at hmem
      cases hmem
    · rintro ⟨-, hno | hnil⟩
      · exact absurd ⟨t, rfl⟩ hno
      · rw [hnil]
        rfl
  · intro u
    rw [ha, List.countP_append]
    exact (h.calls u).trans (Nat.le_add_right _ _)

/-- The counter is incremented by a node whose call has not done so. -/
theorem KeeperInv.increment {v : Nat} (h : KeeperInv M C (some v) l) (ht : M ≤ t ∧ t < M + C)
    (hc : (arrived l).count t + 1 ≤ l.countP (Event.isCall t)) :
    KeeperInv M C (some (v + 1)) (l ++ [.act t .increment true]) := by
  have ha : arrived (l ++ [.act t .increment true]) = arrived l ++ [t] := by
    simp [arrived_append, incrementOf]
  refine ⟨nofun, fun w hw => ?_, fun w hw => ?_, ?_, ?_,
    h.ret_append nofun⟩
  · cases hw
    rw [ha, List.length_append, List.length_singleton]
    exact Nat.succ_le_succ (h.le v rfl)
  · cases hw
    have hreset : ¬ (∃ u, (Event.act t KeeperCmd.increment true :
        Event KeeperSig KeeperOp Unit) = .act u .set ()) := by
      rintro ⟨u, hu⟩
      cases hu
    rw [ha, List.length_append, List.length_singleton, resetAfterArrival_append,
      or_iff_left fun hx => hreset hx.1, ← h.eq v rfl]
    omega
  · rw [ha]
    intro u hu
    rcases List.mem_append.mp hu with hu | hu
    · exact h.nodes u hu
    · rw [List.mem_singleton.mp hu]
      exact ht
  · intro u
    rw [ha, List.count_append, List.countP_append]
    by_cases hu : u = t
    · subst hu
      simp only [List.count_singleton_self]
      omega
    · have h0 : [t].count u = 0 := List.count_eq_zero.mpr (by simpa using hu)
      have := h.calls u
      omega

/-! ## Outlines -/

/-- The call of the compute node `t` has not incremented the counter yet. -/
def Arriving (M C : Nat) (t : Tid) (x : World keeperClient (Option Nat) Unit) : Prop :=
  (M ≤ t ∧ t < M + C) ∧ (arrived x.log).count t + 1 ≤ x.log.countP (Event.isCall t)

theorem arriving_stable (t : Tid) : (keeperDisc M C).Stable t (Arriving M C t) := by
  rintro u x x' hu - - ⟨e, hl, he⟩ ⟨h1, h2⟩
  refine ⟨h1, ?_⟩
  rw [hl, arrived_append, List.count_append, List.countP_append]
  have h0 : (incrementOf e).toList.count t = 0 := by
    refine List.count_eq_zero.mpr fun hm => hu ?_
    rw [← he]
    unfold incrementOf at hm
    split at hm
    · exact (List.mem_singleton.mp hm).symm
    · simp at hm
  omega

/-- A request that only reads. -/
theorem get_outline (t : Tid) : Outline (keeperDisc M C) t (request .get) (fun _ => True)
    fun v x => ∀ w, v = some w → w ≤ (arrived x.log).length := by
  refine Outline.cmd False.elim (fun v => ?_) ?_
  · rintro u x x' - - - ⟨e, hl, -⟩ h w hw
    rw [hl, arrived_append, List.length_append]
    exact (h w hw).trans (Nat.le_add_right _ _)
  · intro x v m hi _ _ he
    simp only [keeperMachine, Option.some.injEq, Prod.mk.injEq] at he
    obtain ⟨rfl, rfl⟩ := he
    refine ⟨(), hi.other rfl nofun nofun,
      ⟨_, rfl, rfl⟩, fun w hw => ?_⟩
    rw [arrived_append, List.length_append]
    exact (hi.le w hw).trans (Nat.le_add_right _ _)

theorem memGet_outline (t : Tid) : Outline (keeperDisc M C) t memGet (fun _ => True)
    fun v x => v ≤ (arrived x.log).length := by
  refine Outline.loop id (J := fun _ _ => True) (fun _ _ _ => trivial)
    (fun _ => Discipline.stable_const _) fun _ => Outline.bind (get_outline t) fun v => ?_
  cases v with
  | none => exact Outline.pure fun _ _ _ => trivial
  | some v => exact Outline.pure fun x _ hx => hx v rfl

theorem memFetchAndAdd_outline (t : Tid) :
    Outline (keeperDisc M C) t memFetchAndAdd (Arriving M C t) fun _ _ => True := by
  refine Outline.loop id (J := fun _ => Arriving M C t) (fun _ _ h => h)
    (fun _ => arriving_stable t) fun _ => ?_
  refine Outline.cmd_bind False.elim (R := fun ok x => ok = false → Arriving M C t x)
    (fun ok => Discipline.Stable.imp fun _ => arriving_stable t) ?_ fun ok => ?_
  · intro x ok m hi hx _ he
    simp only [keeperMachine, Option.some.injEq, Prod.mk.injEq] at he
    obtain ⟨rfl, rfl⟩ := he
    cases hm : x.mem with
    | none =>
      refine ⟨(), (hm ▸ hi : KeeperInv M C none x.log).other rfl nofun nofun,
        ⟨_, rfl, rfl⟩, fun _ => ⟨hx.1, ?_⟩⟩
      simp only [arrived_append, incrementOf, Option.toList_none, List.append_nil,
        List.countP_append, Option.isSome_none]
      exact hx.2.trans (Nat.le_add_right _ _)
    | some v =>
      exact ⟨(), (hm ▸ hi : KeeperInv M C (some v) x.log).increment hx.1 hx.2, ⟨_, rfl, rfl⟩, nofun⟩
  · cases ok with
    | true => exact Outline.pure fun _ _ _ => trivial
    | false => exact Outline.pure fun x _ hx => hx rfl

theorem barrier_outline (t : Tid) : Outline (keeperDisc M C) t (barrier C) (Arriving M C t)
    fun _ x => AllArrived M C x.log := by
  refine Outline.bind (memFetchAndAdd_outline t) fun _ => ?_
  refine Outline.loop id (J := fun _ _ => True) (fun _ _ _ => trivial)
    (fun _ => Discipline.stable_const _) fun _ => Outline.bind (memGet_outline t) fun v => ?_
  refine Outline.ite (fun hv => Outline.pure fun x hi hx => ?_) fun _ => Outline.pure fun _ _ _ => trivial
  exact hi.allArrived (hv ▸ hx)

theorem setBarrier_outline (t : Tid) :
    Outline (keeperDisc M C) t setBarrier (fun _ => True) fun _ _ => True := by
  refine Outline.cmd False.elim (fun _ => Discipline.stable_const _) ?_
  intro x v m hi _ _ he
  simp only [keeperMachine, Option.some.injEq, Prod.mk.injEq] at he
  obtain ⟨-, rfl⟩ := he
  exact ⟨(), hi.set t, ⟨_, rfl, rfl⟩, trivial⟩

/-- What a node knows when it starts a call, and when the call is about to return. -/
theorem keeper_keeps (M C : Nat) : Keeps (keeperDisc M C) (fun _ _ _ => True)
    (fun t op _ x => ∀ n, op = .barrier n → Arriving M C t x)
    (fun _ op _ _ x => ∀ n, op = .barrier n → AllArrived M C x.log) where
  idle_stable := fun _ _ => Discipline.stable_const _
  pre_stable := fun t _ _ => Discipline.Stable.forall fun _ => Discipline.Stable.imp fun _ =>
    arriving_stable t
  call := by
    intro t op _ x hg hi _
    refine ⟨(), hi.other rfl nofun nofun,
      ⟨_, rfl, rfl⟩, fun n hn => ?_⟩
    rcases hg with ⟨-, rfl⟩ | ⟨h1, h2, -⟩
    · cases hn
    · refine ⟨⟨h1, h2⟩, ?_⟩
      simp only [arrived_append, incrementOf, Option.toList_none, List.append_nil,
        List.countP_append, List.countP_singleton, Event.isCall, beq_self_eq_true, if_true]
      exact Nat.succ_le_succ (hi.calls t)
  code := by
    intro t op _ hg
    rcases hg with ⟨-, rfl⟩ | ⟨-, -, rfl⟩
    · exact Outline.bind ((setBarrier_outline t).mono fun _ _ _ => trivial)
        fun _ => Outline.pure fun _ _ _ _ h => by cases h
    · exact Outline.bind ((barrier_outline t).mono fun x _ h => h C rfl)
        fun _ => Outline.pure fun _ _ h _ _ => h
  ret := by
    intro t op res _ x hi hp
    exact ⟨(), hi.other rfl (fun _ h => by cases h) (fun _ n h => hp n (by cases h; rfl)),
      ⟨_, rfl, rfl⟩, trivial⟩

theorem keeper_inv {c : KeeperConfig}
    (h : Reach keeperMachine (keeperGuard M C) keeperInit c) : KeeperInv M C c.mem c.log := by
  have h0 : ConfigOk (keeperDisc M C) (fun _ _ _ => True)
      (fun _ op _ _ x => ∀ n, op = .barrier n → AllArrived M C x.log) keeperInit := by
    refine ⟨(), ⟨fun _ => ⟨rfl, fun i t hi => by simp [keeperInit] at hi⟩, nofun,
      nofun, nofun, fun t => by simp [keeperInit, arrived],
      fun i t n hi => by simp [keeperInit] at hi⟩, fun _ => trivial⟩
  obtain ⟨_, hi, _⟩ := (keeper_keeps M C).reach h0 h
  exact hi

/-- No compute node returns from the barrier before all have arrived; and once all requests have been
executed, the counter is the number of compute nodes exactly when no memory node set it after a
compute node had arrived. -/
theorem barrier_correct (hM : 0 < M) {c : KeeperConfig}
    (h : Reach keeperMachine (keeperGuard M C) keeperInit c) (ho : OneCallEach c.log) :
    (∀ (i : Nat) t n, c.log[i]? = some (.ret t (.barrier n) ()) →
      ∀ u, M ≤ u → u < M + C → ∃ j < i, c.log[j]? = some (.act u .increment true)) ∧
    (AllExecuted M C c.log → (c.mem = some C ↔ ¬ ResetAfterArrival c.log)) := by
  have hi := keeper_inv h
  refine ⟨fun i t n hret u h1 h2 => ?_, fun ⟨hset, hall⟩ => ?_⟩
  · have hlt := lt_of_getElem? hret
    have hpre : OneCallEach (c.log.take i) := by
      intro a b t' op op' ha hb
      rw [List.getElem?_take] at ha hb
      split at ha
      · split at hb
        · exact ho a b t' op op' ha hb
        · cases hb
      · cases ha
    obtain ⟨j, hj⟩ := mem_arrived.mp (hi.ret i t n hret hpre u h1 h2)
    rw [List.getElem?_take] at hj
    split at hj
    · next hji => exact ⟨j, hji, hj⟩
    · cases hj
  · have hlen : (arrived c.log).length = C := by
      have hnd : (arrived c.log).Nodup :=
        List.nodup_iff_count_le_one.mpr fun t => (hi.calls t).trans (ho.count_le t)
      have heq : (arrived c.log).toFinset = Finset.Ico M (M + C) := by
        ext t
        rw [List.mem_toFinset, Finset.mem_Ico]
        exact ⟨hi.nodes t, fun ⟨h1, h2⟩ => hall t h1 h2⟩
      rw [← List.toFinset_card_of_nodup hnd, heq, Nat.card_Ico]
      omega
    cases hm : c.mem with
    | none =>
      obtain ⟨i, hset⟩ := hset 0 hM
      exact absurd hset ((hi.unset hm).2 i 0)
    | some v =>
      rw [← hi.eq v hm, hlen, Option.some.injEq]

/-- The memory nodes 0 and 1 set the counter after the compute node 2 has tried to increment it; then
the compute nodes 2 and 3 arrive, and node 2 reads the counter once before node 3 has arrived. -/
def setInTime : List (Move keeperClient) :=
  [.call 2 (KeeperOp.barrier 2)] ++ Move.steps 2 2 ++ [.call 0 KeeperOp.setBarrier] ++ Move.steps 0 2 ++
    [.call 1 KeeperOp.setBarrier] ++ Move.steps 1 2 ++ Move.steps 2 5 ++
    [.call 3 (KeeperOp.barrier 2)] ++ Move.steps 3 6 ++ Move.steps 2 4

/-- The theorem at a run of two memory nodes and two compute nodes, in which both pass. -/
theorem barrier_correct_inTime : ∃ c : KeeperConfig,
    (Reach keeperMachine (keeperGuard 2 2) keeperInit c ∧ OneCallEach c.log ∧
      AllExecuted 2 2 c.log ∧ c.mem = some 2 ∧ c.log[1]? = some (.act 2 .increment false) ∧
      c.log[9]? = some (.act 2 .get (some 1)) ∧ c.log[13]? = some (.ret 3 (.barrier 2) ()) ∧
      c.log[15]? = some (.ret 2 (.barrier 2) ())) ∧
    (∀ (i : Nat) t n, c.log[i]? = some (.ret t (.barrier n) ()) →
      ∀ u, 2 ≤ u → u < 2 + 2 → ∃ j < i, c.log[j]? = some (.act u .increment true)) ∧
    (AllExecuted 2 2 c.log → (c.mem = some 2 ↔ ¬ ResetAfterArrival c.log)) := by
  have hev : (keeperInit.runIf keeperMachine (fun _ _ _ _ => true) setInTime).map
      (fun c => (c.mem, c.log)) = some (some 2, [.call 2 (.barrier 2), .act 2 .increment false,
        .call 0 .setBarrier, .act 0 .set (), .ret 0 .setBarrier (), .call 1 .setBarrier,
        .act 1 .set (), .ret 1 .setBarrier (), .act 2 .increment true, .act 2 .get (some 1),
        .call 3 (.barrier 2), .act 3 .increment true, .act 3 .get (some 2), .ret 3 (.barrier 2) (),
        .act 2 .get (some 2), .ret 2 (.barrier 2) ()]) := rfl
  obtain ⟨c, hrun, hcl⟩ := Option.map_eq_some_iff.mp hev
  obtain ⟨hmem, hlog⟩ := Prod.mk.injEq .. ▸ hcl
  have hreach : Reach keeperMachine (keeperGuard 2 2) keeperInit c := by
    refine runIf_reach (fun _ _ _ _ _ => trivial) setInTime ?_ hrun
    delta setInTime
    simp [keeperGuard]
  have hone : OneCallEach c.log := by
    rw [hlog]
    exact oneCallEach_of_callers (by decide)
  have hall : AllExecuted 2 2 c.log := by
    rw [hlog]
    refine ⟨fun t ht => ?_, fun t h1 h2 => ?_⟩
    · obtain rfl | rfl : t = 0 ∨ t = 1 := by omega
      · exact ⟨3, rfl⟩
      · exact ⟨6, rfl⟩
    · obtain rfl | rfl : t = 2 ∨ t = 3 := by omega
      · decide
      · decide
  refine ⟨c, ⟨hreach, hone, hall, hmem, ?_⟩, barrier_correct Nat.two_pos hreach hone⟩
  rw [hlog]
  exact ⟨rfl, rfl, rfl, rfl⟩

/-- The memory node 1 sets the counter after the compute node 2 has arrived. -/
def setTooLate : List (Move keeperClient) :=
  [.call 0 KeeperOp.setBarrier] ++ Move.steps 0 2 ++ [.call 2 (KeeperOp.barrier 1)] ++ Move.steps 2 2 ++
    [.call 1 KeeperOp.setBarrier] ++ Move.steps 1 2

/-- With two memory nodes an arrival can be lost. -/
theorem exists_lostArrival : ¬ ∀ c : KeeperConfig,
    Reach keeperMachine (keeperGuard 2 1) keeperInit c → OneCallEach c.log →
      AllExecuted 2 1 c.log → c.mem = some 1 := by
  intro h
  have hev : (keeperInit.runIf keeperMachine (fun _ _ _ _ => true) setTooLate).map
      (fun c => (c.mem, c.log)) = some (some 0, [.call 0 .setBarrier, .act 0 .set (),
        .ret 0 .setBarrier (), .call 2 (.barrier 1), .act 2 .increment true, .call 1 .setBarrier,
        .act 1 .set (), .ret 1 .setBarrier ()]) := rfl
  obtain ⟨c, hrun, hcl⟩ := Option.map_eq_some_iff.mp hev
  obtain ⟨hmem, hlog⟩ := Prod.mk.injEq .. ▸ hcl
  have hreach : Reach keeperMachine (keeperGuard 2 1) keeperInit c := by
    refine runIf_reach (fun _ _ _ _ _ => trivial) setTooLate ?_ hrun
    delta setTooLate
    simp [keeperGuard]
  have hone : OneCallEach c.log := by
    rw [hlog]
    exact oneCallEach_of_callers (by decide)
  have hall : AllExecuted 2 1 c.log := by
    rw [hlog]
    refine ⟨fun t ht => ?_, fun t h1 h2 => ?_⟩
    · obtain rfl | rfl : t = 0 ∨ t = 1 := by omega
      · exact ⟨1, rfl⟩
      · exact ⟨6, rfl⟩
    · obtain rfl : t = 2 := by omega
      decide
  have := h c hreach hone hall
  rw [hmem] at this
  cases this

end DMTree.SkipVector
