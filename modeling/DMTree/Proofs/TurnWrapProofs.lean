import DMTree.Proofs.TurnProofs

/-!
# More than 2^32 reads at a lock node

The counters of a lock node have 32 bits. If 2^32 + 1 reads have passed the check of the queue length
before any of them takes a ticket, two of them get the same one and have the turn at the same time. The
second one can then see the handover flag of a later epoch, and take over a result for another key.
-/

namespace DMTree

open Conc LockTurns

variable {k : Key} {value : Value} {t : Tid}

/-! ## Reads that have not acquired -/

/-- `read(k, value)` with `p` left to do of `acquire`. -/
def pendingRead (k : Key) (value : Value) (p : LockProg (Bool × Bool)) :
    NodeProg (Option Value × Unit) := do
  let v ← (do
    let lockRes ← onLock 0 p
    if lockRes.1 && !lockRes.2 then do
      let out ← onLock 0 (releaseLocalReadLock lockRes false value)
      return out.2
    else do
      let value ← Prog.cmd (S := NodeSig) (.remoteRead k)
      let out ← onLock 0 (releaseLocalReadLock lockRes false value)
      return out.2 : NodeProg Value)
  return (some v, ())

/-- `acquire`, from the ticket on. -/
def fromTicket (k : Key) : LockProg (Bool × Bool) := do
  let ticket ← access (.incTicket .read)
  waitTurn .read ticket
  takeTurn .read k

/-- `acquire`, with a ticket. -/
def withTicket (k : Key) (ticket : Nat) : LockProg (Bool × Bool) := do
  waitTurn .read ticket
  takeTurn .read k

/-- `acquire`, from the check of the queue length on. -/
def fromLength (k : Key) : LockProg (Bool × Bool) := do
  let ticket ← access (.loadTicket .read)
  let current ← access (.loadCurrent .read)
  if queueLength ticket current > maxHoclHandover then return (false, true) else fromTicket k

/-- Lock node 0 in the given state, the other ones untouched. -/
def memOf (n : LocalLockNode) : NodeState := { locks := Function.update (fun _ => {}) 0 n }

theorem exec_memOf {n : LocalLockNode} {d : LockCmd} :
    nodeMachine.exec t (.lock 0 d) (memOf n) = (n.exec d).map fun a => (a.1, memOf a.2) := by
  simp [nodeMachine, memOf]

/-- One access of a read that has not acquired. -/
theorem reach_access {l : NodeLog fun _ => 0} {thr : Tid → Thread (nodeClient fun _ => 0)}
    {n n' : LocalLockNode} {d : LockCmd} {r : d.Resp} {f : d.Resp → LockProg (Bool × Bool)}
    {p : LockProg (Bool × Bool)}
    (ht : thr t = .busy (NodeOp.read k value) (pendingRead k value (.act d f)))
    (hn : n.exec d = some (r, n')) (hp : f r = p) :
    Reach nodeMachine (readsOfAnyKey fun _ => 0) ⟨memOf n, l, thr⟩
      ⟨memOf n', l ++ [.act t (.lock 0 d) r],
        Function.update thr t (.busy (NodeOp.read k value) (pendingRead k value p))⟩ := by
  subst hp
  have hact : thr t = .busy (NodeOp.read k value)
      (.act (NodeCmd.lock 0 d) fun r => pendingRead k value (f r)) := ht
  have he : nodeMachine.exec t (NodeCmd.lock 0 d) (memOf n) = some (r, memOf n') := by
    rw [exec_memOf, hn]
    rfl
  exact .single (Step.act (c := ⟨memOf n, l, thr⟩) t (NodeCmd.lock 0 d) hact trivial he)

/-! ## The crowd gathers -/

section Crowd

/-- The lock node with the key of the first epoch. -/
def keyHeld (k : Key) : LocalLockNode :=
  { uniqueKey := Function.update (fun _ => none) .read (some k) }

/-- The lock node after `t` tickets have been taken. -/
def ticketsTaken (k : Key) (t : Nat) : LocalLockNode :=
  { keyHeld k with ticket := Function.update (fun _ => 0) .read (t % 2 ^ 32) }

/-- The reads below `n`, of which those below `t` have a ticket. -/
def crowd (k : Key) (value : Value) (n t : Nat) (u : Tid) : Thread (nodeClient fun _ => 0) :=
  if u < t then .busy (NodeOp.read k value) (pendingRead k value (withTicket k (u % 2 ^ 32)))
  else if u < n then .busy (NodeOp.read k value) (pendingRead k value (fromTicket k))
  else .idle ()

/-- A run after which the lock node is `node`, the reads below `n` have been called and those below `t`
have a ticket. -/
def Crowded (k : Key) (value : Value) (n t : Nat) (node : LocalLockNode) : Prop :=
  ∃ l, Reach nodeMachine (readsOfAnyKey fun _ => 0) (nodeInit fun _ => 0)
      ⟨memOf node, l, crowd k value n t⟩ ∧
    ∀ u < n, lastCall l u = some (NodeOp.read k value)

/-- One more read compares its key with the owner key and finds the queue empty. -/
theorem Crowded.enter {n : Nat} {node : LocalLockNode} {r : Option Key}
    (h : Crowded k value n 0 node)
    (hcas : node.exec (.casUniqueKey .read k) = some (r, keyHeld k)) (hr : r.any (· ≠ k) = false) :
    Crowded k value (n + 1) 0 (keyHeld k) := by
  obtain ⟨l, hreach, hcalls⟩ := h
  have hidle : crowd k value n 0 n = .idle () := by simp [crowd]
  have h1 : Reach nodeMachine (readsOfAnyKey fun _ => 0) ⟨memOf node, l, crowd k value n 0⟩
      ⟨memOf node, l ++ [.call n (NodeOp.read k value)], Function.update (crowd k value n 0) n
        (.busy (NodeOp.read k value) (pendingRead k value (acquireLocalReadLock k)))⟩ :=
    .single (.call n _ hidle ⟨k, value, rfl⟩)
  have h2 := h1.trans (reach_access (p := fromLength k) (Function.update_self _ _ _) hcas
    (if_neg (by rw [hr]; exact Bool.false_ne_true)))
  have h3 := h2.trans (reach_access (Function.update_self _ _ _) rfl rfl)
  have hlen : ¬ queueLength 0 0 > maxHoclHandover := by decide
  have h4 := h3.trans (reach_access (p := fromTicket k) (Function.update_self _ _ _) rfl
    (if_neg hlen))
  simp only [Function.update_idem] at h4
  have hthr : Function.update (crowd k value n 0) n
      (.busy (NodeOp.read k value) (pendingRead k value (fromTicket k))) =
      crowd k value (n + 1) 0 := by
    refine funext fun u : Nat => ?_
    by_cases hu : u = n
    · subst hu
      simp [crowd]
    · have hiff : u < n + 1 ↔ u < n := by omega
      simp [Function.update_of_ne hu, crowd, hiff]
  rw [hthr] at h4
  refine ⟨_, hreach.trans h4, fun u hu => ?_⟩
  rw [lastCall_act, lastCall_act, lastCall_act, lastCall_call]
  by_cases hun : n = u
  · rw [if_pos hun]
  · rw [if_neg hun]
    exact hcalls u (by omega)

/-- Any number of reads can gather. -/
theorem crowded_gathered (k : Key) (value : Value) (n : Nat) :
    Crowded k value (n + 1) 0 (keyHeld k) := by
  induction n with
  | zero =>
    have hinit : Crowded k value 0 0 {} := by
      refine ⟨[], ?_, fun u hu => absurd hu (Nat.not_lt_zero u)⟩
      have hmem : memOf {} = {} := by simp [memOf]
      have hthr : crowd k value 0 0 = fun _ => .idle () := by
        funext u
        simp [crowd]
      rw [hmem, hthr]
      exact .refl
    exact hinit.enter rfl rfl
  | succ n ih => exact ih.enter (r := some k) rfl (by simp)

/-- One more read takes a ticket. -/
theorem Crowded.takeTicket {n t : Nat} (ht : t < n) (h : Crowded k value n t (ticketsTaken k t)) :
    Crowded k value n (t + 1) (ticketsTaken k (t + 1)) := by
  obtain ⟨l, hreach, hcalls⟩ := h
  have hbusy : crowd k value n t t =
      .busy (NodeOp.read k value) (pendingRead k value (fromTicket k)) := by
    simp [crowd, ht]
  have hexec : (ticketsTaken k t).exec (.incTicket .read) =
      some (t % 2 ^ 32, ticketsTaken k (t + 1)) := by
    simp [LocalLockNode.exec, ticketsTaken]
  have h1 := hreach.trans (reach_access (p := withTicket k (t % 2 ^ 32)) hbusy hexec rfl)
  have hthr : Function.update (crowd k value n t) t
      (.busy (NodeOp.read k value) (pendingRead k value (withTicket k (t % 2 ^ 32)))) =
      crowd k value n (t + 1) := by
    refine funext fun u : Nat => ?_
    by_cases hu : u = t
    · subst hu
      simp [crowd]
    · have hiff : u < t + 1 ↔ u < t := by omega
      simp [Function.update_of_ne hu, crowd, hiff]
  rw [hthr] at h1
  refine ⟨_, h1, fun u hu => ?_⟩
  rw [lastCall_act]
  exact hcalls u hu

/-- All of them take their tickets. -/
theorem crowded_ticketed (k : Key) (value : Value) {n t : Nat} (ht : t ≤ n + 1) :
    Crowded k value (n + 1) t (ticketsTaken k t) := by
  induction t with
  | zero =>
    have hnode : ticketsTaken k 0 = keyHeld k := by
      have hticket : Function.update (fun _ : Side => 0) .read (0 % 2 ^ 32) = fun _ => 0 :=
        Function.update_eq_self _ _
      unfold ticketsTaken
      rw [hticket]
      rfl
    rw [hnode]
    exact crowded_gathered k value n
  | succ t ih => exact (ih (by omega)).takeTicket (by omega)

end Crowd

/-! ## A result for another key -/

section Foreign

variable {hash : Key → Nat} {l l' : NodeLog hash} {u : Tid} {i : Nat}

/-- What a thread has looked up depends on the history since its last call. -/
theorem lookup_append (hcall : l'.any (Event.isCall t) = true) : lookup (l ++ l') t = lookup l' t := by
  induction l' using List.reverseRecOn with
  | nil => cases hcall
  | append_singleton l' e ih =>
    rw [← List.append_assoc, lookup_concat, lookup_concat]
    cases hl : l'.any (Event.isCall t) with
    | true => rw [ih hl]
    | false =>
      -- `e` itself is the call
      rw [List.any_append, hl] at hcall
      have he : Event.isCall t e = true := by simpa using hcall
      unfold Event.isCall at he
      split at he
      · next w op =>
        have hw : w = t := by simpa using he
        simp [nextLookup, hw]
      · cases he

theorem lastCall_append (hcall : l'.any (Event.isCall t) = false) :
    lastCall (l ++ l') t = lastCall l t := by
  induction l' using List.reverseRecOn with
  | nil => rw [List.append_nil]
  | append_singleton l' e ih =>
    rw [List.any_append, Bool.or_eq_false_iff] at hcall
    rw [← List.append_assoc, lastCall_concat_of_not (by simpa using hcall.2), ih hcall.1]

/-- A read of `k` takes over the result of a call that has looked up another key. -/
theorem not_ownResults {p q : Nat} {v v' : Value} {k' : Key}
    (hq : l'[q]? = some (.act t (.lock i .loadRetValue) v))
    (hcall : lastCall l t = some (.read k value)) (hno : (l'.take q).any (Event.isCall t) = false)
    (hp : l'[p]? = some (.act u (.lock i (.storeRetValue v')) ())) (hpq : p < q)
    (hlast : ∀ p' < q, p < p' → ∀ e, l'[p']? = some e → publishes i e = false)
    (hmade : (l'.take p).any (Event.isCall u) = true) (hlook : lookup (l'.take p) u = some (k', v'))
    (hk : k' ≠ k) : ¬ OwnResults i (l ++ l') := by
  intro h
  have hshift : ∀ {j e}, l'[j]? = some e → (l ++ l')[l.length + j]? = some e := by
    intro j e he
    rw [List.getElem?_append_right (Nat.le_add_right _ _), Nat.add_sub_cancel_left]
    exact he
  have htake : ∀ j, (l ++ l').take (l.length + j) = l ++ l'.take j := fun j =>
    List.take_length_add_append j
  obtain ⟨k1, value1, r, hcall1, ⟨w, hw, hlook1⟩, hlast1⟩ := h _ t v (hshift hq)
  rw [htake, lastCall_append hno, hcall] at hcall1
  cases hcall1
  have hget : ∀ j < l.length + q, ((l ++ l').take (l.length + q))[j]? = (l ++ l')[j]? :=
    fun j hj => List.getElem?_take_of_lt hj
  -- the last result published is the one at `p`
  have hr : r = l.length + p := by
    have hrq : r < l.length + q := by
      have hlt := lt_of_getElem? hw
      rw [List.length_take] at hlt
      omega
    rcases Nat.lt_trichotomy r (l.length + p) with hlt | heq | hgt
    · have hpub := hlast1 (l.length + p) _ hlt (by
        rw [hget _ (by omega)]
        exact hshift hp)
      simp [publishes] at hpub
    · exact heq
    · rw [hget _ hrq] at hw
      have hsuffix : l'[r - l.length]? = some (.act w (.lock i (.storeRetValue v)) ()) := by
        rw [← hw, List.getElem?_append_right (by omega)]
      have hpub := hlast (r - l.length) (by omega) (by omega) _ hsuffix
      simp [publishes] at hpub
  subst hr
  rw [hget _ (by omega), hshift hp] at hw
  cases hw
  rw [List.take_take, min_eq_left (by omega), htake, lookup_append hmade, hlook] at hlook1
  cases hlook1
  exact hk rfl

end Foreign

/-- Read 2^32 has the same ticket as read 0. It takes its turn, and releases after read 0 has ended the
epoch and the reads of another key have begun the next one. -/
def wrapAround : List (Move (nodeClient fun _ => 0)) :=
  Move.steps (2 ^ 32) 7 ++ Move.steps 0 32 ++
    [.call (2 ^ 32 + 1) (NodeOp.read (Key.ofNat 2) 9)] ++ Move.steps (2 ^ 32 + 1) 4 ++
    [.call (2 ^ 32 + 2) (NodeOp.read (Key.ofNat 2) 9)] ++ Move.steps (2 ^ 32 + 2) 4 ++
    Move.steps (2 ^ 32 + 1) 29 ++ Move.steps (2 ^ 32) 3

/-- Thread `t` takes over a result at lock node 0. -/
def copiesResult (t : Tid) : NodeEvent → Bool
  | .act u (.lock j .loadRetValue) _ => u == t && j == 0
  | _ => false

/-- Thread `t` publishes `v` at lock node 0. -/
def storesResult (t : Tid) (v : Value) : NodeEvent → Bool
  | .act u (.lock j (.storeRetValue v')) _ => u == t && j == 0 && v' == v
  | _ => false

/-- The end of that run: read 2^32 takes over a result, the last one published before is that of read
2^32 + 1, which has looked up another key. -/
def wrongResult (l : NodeLog fun _ => 0) : Bool :=
  l[77]?.any (copiesResult (2 ^ 32)) && !(l.take 77).any (Event.isCall (2 ^ 32)) &&
    l[55]?.any (storesResult (2 ^ 32 + 1) 0) &&
    ((List.range 77).all fun p => decide (p ≤ 55) || l[p]?.all fun e => !publishes 0 e) &&
    (l.take 55).any (Event.isCall (2 ^ 32 + 1)) &&
    decide (lookup (l.take 55) (2 ^ 32 + 1) = some (Key.ofNat 2, 0))

theorem eq_of_copiesResult {e : NodeEvent} (h : copiesResult t e = true) :
    ∃ v, e = .act t (.lock 0 .loadRetValue) v := by
  unfold copiesResult at h
  split at h
  · next u j v =>
    obtain ⟨rfl, rfl⟩ : u = t ∧ j = 0 := by simpa using h
    exact ⟨v, rfl⟩
  · cases h

theorem eq_of_storesResult {e : NodeEvent} {v : Value} (h : storesResult t v e = true) :
    e = .act t (.lock 0 (.storeRetValue v)) () := by
  unfold storesResult at h
  split at h
  · next u j v' r =>
    obtain ⟨⟨rfl, rfl⟩, rfl⟩ : (u = t ∧ j = 0) ∧ v' = v := by simpa using h
    rfl
  · cases h

/-- With any number of reads in flight, a read can take over a result for another key. -/
theorem exists_foreignResult :
    ¬ ∀ c : NodeConfig fun _ => 0,
      Reach nodeMachine (readsOfAnyKey fun _ => 0) (nodeInit fun _ => 0) c → OwnResults 0 c.log := by
  intro h
  obtain ⟨l, hreach, hcalls⟩ :=
    crowded_ticketed (Key.ofNat 1) 9 (n := 2 ^ 32) (t := 2 ^ 32 + 1) le_rfl
  have hev : (Config.runIf nodeMachine (fun _ _ _ _ => true)
      (⟨memOf (ticketsTaken (Key.ofNat 1) (2 ^ 32 + 1)), [],
        crowd (Key.ofNat 1) 9 (2 ^ 32 + 1) (2 ^ 32 + 1)⟩ : NodeConfig fun _ => 0) wrapAround).map
      (fun c => wrongResult c.log) = some true := by decide +kernel
  obtain ⟨c, hrun, hcheck⟩ := Option.map_eq_some_iff.mp hev
  -- the same moves, after the history of the crowd
  have hlong := congrArg (Option.map (Config.after l)) hrun
  rw [← runIf_after (fun _ _ _ _ _ => rfl)] at hlong
  have hstart : Config.after l (⟨memOf (ticketsTaken (Key.ofNat 1) (2 ^ 32 + 1)), [],
      crowd (Key.ofNat 1) 9 (2 ^ 32 + 1) (2 ^ 32 + 1)⟩ : NodeConfig fun _ => 0) =
      ⟨memOf (ticketsTaken (Key.ofNat 1) (2 ^ 32 + 1)), l,
        crowd (Key.ofNat 1) 9 (2 ^ 32 + 1) (2 ^ 32 + 1)⟩ := by
    simp [Config.after]
  rw [hstart] at hlong
  have hend : Reach nodeMachine (readsOfAnyKey fun _ => 0) (nodeInit fun _ => 0) (c.after l) := by
    refine hreach.trans (runIf_reach (fun _ _ _ _ _ => trivial) wrapAround ?_ hlong)
    delta wrapAround
    simp [readsOfAnyKey]
  simp only [wrongResult, Bool.and_eq_true, Bool.not_eq_true', List.all_eq_true, List.mem_range,
    Bool.or_eq_true, decide_eq_true_eq] at hcheck
  obtain ⟨⟨⟨⟨⟨hcopy, hno⟩, hstore⟩, hlast⟩, hmade⟩, hlook⟩ := hcheck
  obtain ⟨e, he, hcopy⟩ := (Option.any_eq_true _ _).mp hcopy
  obtain ⟨v, rfl⟩ := eq_of_copiesResult hcopy
  obtain ⟨e', he', hstore⟩ := (Option.any_eq_true _ _).mp hstore
  obtain rfl := eq_of_storesResult hstore
  refine not_ownResults he (hcalls _ (Nat.lt_succ_self _)) hno he' (by decide) (fun p hp hlt e hpe => ?_)
    hmade hlook (by decide +kernel) (h _ hend)
  rcases hlast p hp with hle | hall
  · omega
  · rw [hpe] at hall
    simpa using hall

end DMTree
