import DMTree.Conc.Exec
import DMTree.Proofs.TurnOutlines

/-!
# What a lock node promises

Tickets are served one at a time and in order, and a read that is handed over takes over a result for its
own key, in every run with fewer than 2^32 calls in flight. If moreover the run settles, the lock node is
idle again when no call uses it; a call that finds the key of a later epoch can leave that key behind.
-/

namespace DMTree

open Conc LockTurns

variable {hash : Key → Nat} {s : Side} {i : Nat} {t u : Tid} {mode : Prop}

/-! ## Ticket discipline -/

section Queue

variable {x : LockView hash}

theorem LockTurns.SideInv.away_iff (h : SideInv s i x) :
    place s i x.log t ≠ .away ↔ (x.g.q s).tick t ≠ none := by
  rw [h.places t]
  constructor
  · exact fun hp hn => hp (placeIn_none hn)
  · intro hn
    obtain ⟨c, hc⟩ := Option.ne_none_iff_exists'.mp hn
    exact placeIn_ne_away hc

theorem LockTurns.SideInv.turn_of_place (h : SideInv s i x) (ht : place s i x.log t = .turn) :
    (x.g.q s).turn = some t := by
  rw [h.places t] at ht
  unfold placeIn at ht
  split at ht
  · cases ht
  · split at ht
    · assumption
    · cases ht

theorem LockTurns.SideInv.mem_holders (h : SideInv s i x) :
    t ∈ holders s i x.log ↔ (x.g.q s).tick t ≠ none := by
  unfold holders
  rw [Finset.mem_filter, h.away_iff]
  refine ⟨fun hm => hm.2, fun hn => ⟨?_, hn⟩⟩
  exact List.mem_toFinset.mpr (mem_of_engaged (h.inFlight t hn))

theorem LockTurns.SideInv.ticketDiscipline {m : NodeState} (h : SideInv s i x)
    (hm : m.locks i = x.node) : TicketDiscipline s i m x.log where
  length := by
    rw [hm, h.ticket, h.current, queueLength_mod h.wf.le h.wf.fits]
    exact (h.full.card h.wf fun t => h.mem_holders).symm
  one := by
    intro t u ht hu
    have hturn := h.turn_of_place ht
    rw [h.turn_of_place hu] at hturn
    exact (Option.some.inj hturn).symm
  first := by
    intro t u ht hu hne
    have htick := h.wf.turn t (h.turn_of_place ht)
    obtain ⟨d, hd⟩ := Option.ne_none_iff_exists'.mp (h.away_iff.mp hu)
    refine h.order t u _ d htick hd ?_
    have hle := (h.wf.range u d hd).1
    have hcd : (x.g.q s).cur ≠ d := by
      rintro rfl
      exact hne (h.wf.inj u t _ hd htick)
    omega
  atMost := by
    intro t
    have hc := h.counts t
    cases htick : (x.g.q s).tick t with
    | none =>
      rw [htick] at hc
      exact ⟨hc.1.le, hc.2⟩
    | some c =>
      rw [htick] at hc
      have hc' : tally s i x.log t = (1, 0) := hc
      rw [hc']
      exact ⟨Nat.zero_le _, le_rfl⟩
  once := by
    intro t hno
    have hc := h.counts t
    cases htick : (x.g.q s).tick t with
    | none =>
      rw [htick] at hc
      exact hc.1
    | some c =>
      have hen := h.inFlight t (by rw [htick]; exact Option.some_ne_none c)
      exact absurd (hno.symm.trans hen) Bool.false_ne_true

end Queue

theorem reach_fewCalls {c : NodeConfig hash}
    (h : Reach nodeMachine (fewCalls hash i) (nodeInit hash) c) :
    Reach nodeMachine (turnGuard hash i False) (nodeInit hash) c :=
  h.mono (fun _ _ _ => trivial) fun _ _ _ _ hf => ⟨hf, False.elim⟩

theorem reach_settles {c : NodeConfig hash}
    (h : Reach nodeMachine (settles hash i) (nodeInit hash) c) :
    Reach nodeMachine (turnGuard hash i True) (nodeInit hash) c :=
  h.mono (fun _ _ _ => trivial) fun _ _ _ _ hf => ⟨hf.1, fun _ => hf.2⟩

/-- In every run with fewer than 2^32 calls in flight the tickets of both sides of a lock node are served
one at a time and in order, and every ticket is followed by one increment of `current`. -/
theorem ticketDiscipline_of_fewCalls (hash : Key → Nat) (i : Nat) (c : NodeConfig hash)
    (h : Reach nodeMachine (fewCalls hash i) (nodeInit hash) c) (s : Side) :
    TicketDiscipline s i c.mem c.log := by
  obtain ⟨g, hi⟩ := lockInv_of_reach (reach_fewCalls h)
  exact (hi.side s).ticketDiscipline rfl

/-- A schedule under a check on its commands, as a run with few calls. -/
theorem reach_fewCalls_of_runIf {c : NodeConfig hash} {ms : List (Move (nodeClient hash))}
    (h : (nodeInit hash).runIf nodeMachine (fun _ l _ cmd => decide (FewCalls i l cmd)) ms = some c) :
    Reach nodeMachine (fewCalls hash i) (nodeInit hash) c :=
  runIf_reach (fun _ l _ cmd hc => of_decide_eq_true (p := FewCalls i l cmd) hc) ms
    (fun m _ => by cases m <;> trivial) h

/-- Reads 0 and 1 of one key queue up. -/
def queueUp : List (Move (nodeClient fun _ => 0)) :=
  [.call 0 (NodeOp.read (Key.ofNat 1) 9)] ++ Move.steps 0 7 ++
    [.call 1 (NodeOp.read (Key.ofNat 1) 9)] ++ Move.steps 1 4

/-- The condition is met by a run in which one read has the turn and another one waits. -/
theorem ticketDiscipline_of_fewCalls_queue :
    ∃ c : NodeConfig fun _ => 0, Reach nodeMachine (fewCalls (fun _ => 0) 0) (nodeInit fun _ => 0) c ∧
      place .read 0 c.log 0 = .turn ∧ place .read 0 c.log 1 = .waiting 1 ∧
      TicketDiscipline .read 0 c.mem c.log := by
  have hev : ((nodeInit fun _ => 0).runIf nodeMachine
      (fun _ l _ cmd => decide (FewCalls 0 l cmd)) queueUp).map (fun c =>
        decide (place .read 0 c.log 0 = .turn) && decide (place .read 0 c.log 1 = .waiting 1)) =
      some true := by decide +kernel
  obtain ⟨c, hrun, hcheck⟩ := Option.map_eq_some_iff.mp hev
  simp only [Bool.and_eq_true, decide_eq_true_eq] at hcheck
  have hreach := reach_fewCalls_of_runIf hrun
  exact ⟨c, hreach, hcheck.1, hcheck.2, ticketDiscipline_of_fewCalls _ _ c hreach .read⟩

/-! ## Delegated results -/

/-- In every run with fewer than 2^32 calls in flight, a read that is handed over takes over a result that
was looked up for its own key, and that is the last result published. -/
theorem ownResults_of_fewCalls (hash : Key → Nat) (i : Nat) (c : NodeConfig hash)
    (h : Reach nodeMachine (fewCalls hash i) (nodeInit hash) c) : OwnResults i c.log := by
  obtain ⟨g, hi⟩ := lockInv_of_reach (reach_fewCalls h)
  exact hi.hand.own

/-- Read 1 queues up behind read 0 and takes over its result. -/
def takeOver : List (Move (nodeClient fun _ => 0)) :=
  queueUp ++ Move.steps 0 26 ++ Move.steps 1 23

/-- Thread `t` takes over the result `v`. -/
def takesResult (t : Tid) (v : Value) : NodeEvent → Bool
  | .act u (.lock _ .loadRetValue) v' => u == t && v' == v
  | _ => false

/-- The condition is met by a run with a handover. -/
theorem ownResults_of_fewCalls_handover :
    ∃ c : NodeConfig fun _ => 0, Reach nodeMachine (fewCalls (fun _ => 0) 0) (nodeInit fun _ => 0) c ∧
      c.log.any (takesResult 1 ValueNull) = true ∧ OwnResults 0 c.log := by
  have hev : ((nodeInit fun _ => 0).runIf nodeMachine
      (fun _ l _ cmd => decide (FewCalls 0 l cmd)) takeOver).map (fun c =>
        c.log.any (takesResult 1 ValueNull)) = some true := by decide +kernel
  obtain ⟨c, hrun, hcheck⟩ := Option.map_eq_some_iff.mp hev
  have hreach := reach_fewCalls_of_runIf hrun
  exact ⟨c, hreach, hcheck, ownResults_of_fewCalls _ _ c hreach⟩

/-! ## Idle lock nodes -/

section Idle

variable {x : LockView hash}

/-- The queues are empty when no call is in flight. -/
theorem LockTurns.LockInv.empty (h : LockInv i mode x)
    (hno : ∀ s t, engaged s i x.log t = false) (s : Side) :
    (x.g.q s).next = (x.g.q s).cur ∧ (x.g.q s).turn = none := by
  have hside := h.side s
  have hout : ∀ t, (x.g.q s).tick t = none := by
    intro t
    by_contra hn
    exact absurd ((hno s t).symm.trans (hside.inFlight t hn)) Bool.false_ne_true
  refine ⟨hside.full.empty hside.wf hout, ?_⟩
  cases hturn : (x.g.q s).turn with
  | none => rfl
  | some t => exact absurd hturn (hside.toQueueAt.not_turn (hout t))

theorem LockTurns.LockInv.idle (h : LockInv i True x)
    (hno : ∀ s t, engaged s i x.log t = false) : x.node.Idle := by
  have hrest := h.rest trivial
  have hduty : ∀ s, x.g.duty s = {} := fun s => hrest.win.free s (h.empty hno s).2
  have hwindow : ∀ s, x.node.window s = 0 := by
    intro s
    have hle := hrest.win.window s
    rw [(h.empty hno s).1] at hle
    omega
  refine ⟨fun s => ?_, hwindow, ?_⟩
  · by_contra hk
    rcases hrest.key.key s hk with ⟨u, hu⟩ | hlt
    · exact absurd ((hno s u).symm.trans (hrest.key.installer s u hu)) Bool.false_ne_true
    · rw [(h.empty hno s).1] at hlt
      omega
  · cases hs : x.node.windowStart with
    | false => rfl
    | true =>
      -- nobody is there to watch the window
      obtain ⟨s, hw⟩ := hrest.win.start hs
      unfold Anchor at hw
      rw [hduty, hwindow] at hw
      rcases hw with hc | ⟨hne | hown, -⟩ | ⟨hz, -⟩
      · cases hc
      · exact absurd rfl hne
      · cases hown
      · cases hz

end Idle

/-- In every run that settles, a lock node with no call in flight is idle. -/
theorem idle_of_settles (hash : Key → Nat) (i : Nat) (c : NodeConfig hash)
    (h : Reach nodeMachine (settles hash i) (nodeInit hash) c)
    (hno : ∀ s t, engaged s i c.log t = false) : (c.mem.locks i).Idle := by
  obtain ⟨g, hi⟩ := lockInv_of_reach (reach_settles h)
  exact hi.idle hno

/-- Only threads that have made a step can be in flight. -/
theorem not_engaged_of_all {l : NodeLog hash} {n : Nat} (htid : ∀ e ∈ l, e.tid < n)
    (hno : ∀ t < n, engaged s i l t = false) (t : Tid) : engaged s i l t = false := by
  by_cases ht : t < n
  · exact hno t ht
  · cases he : engaged s i l t with
    | false => rfl
    | true =>
      obtain ⟨e, hmem, rfl⟩ := List.mem_map.mp (mem_of_engaged he)
      exact absurd (htid e hmem) ht

/-- All threads below `n`, and no other ones, have taken part, and none is in flight at lock node 0. -/
def allBack (n : Nat) (l : NodeLog fun _ => 0) : Bool :=
  l.all (fun e => decide (e.tid < n)) &&
    (List.range n).all fun t => !engaged .read 0 l t && !engaged .write 0 l t

theorem not_engaged_of_allBack {n : Nat} {l : NodeLog fun _ => 0} (h : allBack n l = true) (s : Side)
    (t : Tid) : engaged s 0 l t = false := by
  simp only [allBack, Bool.and_eq_true, List.all_eq_true, decide_eq_true_eq, List.mem_range,
    Bool.not_eq_true'] at h
  refine not_engaged_of_all h.1 (fun t ht => ?_) t
  cases s with
  | read => exact (h.2 t ht).1
  | write => exact (h.2 t ht).2

/-- Read 1 takes over the result of read 0, and write 2 comes after both. -/
def serveAll : List (Move (nodeClient fun _ => 0)) :=
  takeOver ++ [.call 2 (NodeOp.write (Key.ofNat 2) 5 0)] ++ Move.steps 2 34

/-- The condition is met by a run with a handover and with a write of another key. -/
theorem idle_of_settles_served :
    ∃ c : NodeConfig fun _ => 0, Reach nodeMachine (settles (fun _ => 0) 0) (nodeInit fun _ => 0) c ∧
      allBack 3 c.log = true ∧ c.log.any (takesResult 1 ValueNull) = true ∧ (c.mem.locks 0).Idle := by
  have hev : ((nodeInit fun _ => 0).runIf nodeMachine
      (fun m l t cmd => decide (FewCalls 0 l cmd) && decide (Settles 0 m l t cmd)) serveAll).map
      (fun c => allBack 3 c.log && c.log.any (takesResult 1 ValueNull)) = some true := by
    decide +kernel
  obtain ⟨c, hrun, hcheck⟩ := Option.map_eq_some_iff.mp hev
  rw [Bool.and_eq_true] at hcheck
  have hreach : Reach nodeMachine (settles (fun _ => 0) 0) (nodeInit fun _ => 0) c := by
    refine runIf_reach (fun m l t cmd h => ?_) serveAll (fun m _ => by cases m <;> trivial) hrun
    simp only [Bool.and_eq_true, decide_eq_true_eq] at h
    exact h
  exact ⟨c, hreach, hcheck.1, hcheck.2,
    idle_of_settles _ _ c hreach (not_engaged_of_allBack hcheck.1)⟩

/-- Read 1 has compared its key with the owner key, and takes its ticket in the epoch of read 2, which has
another key. It finds that key when its turn comes, and leaves it behind as the last one in the queue. -/
def leaveKey : List (Move (nodeClient fun _ => 0)) :=
  [.call 0 (NodeOp.read (Key.ofNat 1) 9)] ++ Move.steps 0 4 ++
    [.call 1 (NodeOp.read (Key.ofNat 1) 9)] ++ Move.steps 1 3 ++ Move.steps 0 32 ++
    [.call 2 (NodeOp.read (Key.ofNat 2) 9)] ++ Move.steps 2 4 ++ Move.steps 1 1 ++
    Move.steps 2 29 ++ Move.steps 1 11

/-- Without the condition an owner key can stay behind when all calls have returned. -/
theorem exists_keyLeft :
    ¬ ∀ c : NodeConfig fun _ => 0,
      Reach nodeMachine (fewCalls (fun _ => 0) 0) (nodeInit fun _ => 0) c →
      (∀ s t, engaged s 0 c.log t = false) → (c.mem.locks 0).Idle := by
  intro h
  have hev : ((nodeInit fun _ => 0).runIf nodeMachine
      (fun _ l _ cmd => decide (FewCalls 0 l cmd)) leaveKey).map (fun c =>
        allBack 3 c.log && decide ((c.mem.locks 0).uniqueKey .read = some (Key.ofNat 2))) =
      some true := by decide +kernel
  obtain ⟨c, hrun, hcheck⟩ := Option.map_eq_some_iff.mp hev
  simp only [Bool.and_eq_true, decide_eq_true_eq] at hcheck
  have hidle := h c (reach_fewCalls_of_runIf hrun) (not_engaged_of_allBack hcheck.1)
  have hnone := hidle.uniqueKey .read
  rw [hcheck.2] at hnone
  cases hnone

end DMTree
