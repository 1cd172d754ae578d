import DMTree.Delegation

/-!
# Turns at a lock node

What the history of a compute node says about its calls at the lock node with index `i`: who holds a
ticket, who has the turn, who has installed its key, what a read has looked up. On top of that the
three promises of a lock node: tickets are served one at a time and in order, a delegated read takes
over a result for its own key, and the lock node is idle again when no call uses it.
-/

namespace DMTree

open Conc

/-- The other half of a lock node. -/
def Side.other : Side → Side
  | .read => .write
  | .write => .read

/-- Where a call stands in a queue. -/
inductive Place where
  /-- It has no ticket. -/
  | away
  /-- It has a ticket and waits for its turn. -/
  | waiting (ticket : Nat)
  /-- It has seen its ticket in `current`. -/
  | turn
  deriving DecidableEq

section

variable {hash : Key → Nat}

/-! ## The calls of a thread -/

/-- The place of thread `t` after one more event. -/
def nextPlace (s : Side) (i : Nat) (t : Tid) (p : Place) : NodeEvent → Place
  | .act u (.lock j (.incTicket s')) ticket =>
    if u = t ∧ j = i ∧ s' = s then .waiting ticket else p
  | .act u (.lock j (.loadCurrent s')) current =>
    if u = t ∧ j = i ∧ s' = s ∧ p = .waiting current then .turn else p
  | .act u (.lock j (.incCurrent s')) _ => if u = t ∧ j = i ∧ s' = s then .away else p
  | _ => p

/-- The place of thread `t` in the queue of side `s` of lock node `i`. -/
def place (s : Side) (i : Nat) (l : NodeLog hash) (t : Tid) : Place :=
  l.foldl (nextPlace s i t) .away

/-- One more event, for the tickets taken and the turns passed on in the current call. -/
def nextTally (s : Side) (i : Nat) (t : Tid) (a : Nat × Nat) : NodeEvent → Nat × Nat
  | .call u _ => if u = t then (0, 0) else a
  | .act u (.lock j (.incTicket s')) _ => if u = t ∧ j = i ∧ s' = s then (a.1 + 1, a.2) else a
  | .act u (.lock j (.incCurrent s')) _ => if u = t ∧ j = i ∧ s' = s then (a.1, a.2 + 1) else a
  | _ => a

/-- How often thread `t` has incremented `ticket` and `current` in its last call. -/
def tally (s : Side) (i : Nat) (l : NodeLog hash) (t : Tid) : Nat × Nat :=
  l.foldl (nextTally s i t) (0, 0)

/-- One more event, for whether a call is in flight. -/
def nextEngaged (s : Side) (i : Nat) (t : Tid) (a : Bool) : NodeEvent → Bool
  | .call u _ => if u = t then false else a
  | .act u (.lock j (.casUniqueKey s' _)) _ => if u = t ∧ j = i ∧ s' = s then true else a
  | .ret u _ _ => if u = t then false else a
  | _ => a

/-- A call of thread `t` has entered `acquire` on side `s` of lock node `i`, and has not returned. -/
def engaged (s : Side) (i : Nat) (l : NodeLog hash) (t : Tid) : Bool :=
  l.foldl (nextEngaged s i t) false

/-- One more event, for whether the key in the lock node awaits the ticket of its call. -/
def nextFresh (s : Side) (i : Nat) (t : Tid) (a : Bool) : NodeEvent → Bool
  | .call u _ => if u = t then false else a
  | .act u (.lock j (.casUniqueKey s' _)) found =>
    if u = t ∧ j = i ∧ s' = s ∧ found = none then true else a
  | .act u (.lock j (.incTicket s')) _ => if u = t ∧ j = i ∧ s' = s then false else a
  | _ => a

/-- The last call of thread `t` has installed its key and has no ticket yet. -/
def fresh (s : Side) (i : Nat) (l : NodeLog hash) (t : Tid) : Bool :=
  l.foldl (nextFresh s i t) false

/-- One more event, for what has been looked up. -/
def nextLookup (t : Tid) (a : Option (Key × Value)) : NodeEvent → Option (Key × Value)
  | .call u _ => if u = t then none else a
  | .act u (.remoteRead k) v => if u = t then some (k, v) else a
  | _ => a

/-- The key that thread `t` has looked up in its last call, with the answer. -/
def lookup (l : NodeLog hash) (t : Tid) : Option (Key × Value) := l.foldl (nextLookup t) none

/-! ## Ticket discipline -/

/-- The calls in flight on side `s` of lock node `i`. -/
def callers (s : Side) (i : Nat) (l : NodeLog hash) : Finset Tid :=
  (l.map Event.tid).toFinset.filter fun t => engaged s i l t = true

/-- The calls with a ticket. -/
def holders (s : Side) (i : Nat) (l : NodeLog hash) : Finset Tid :=
  (l.map Event.tid).toFinset.filter fun t => place s i l t ≠ .away

/-- A ticket of lock node `i` is only taken while fewer than 2^32 calls of its side are in flight. -/
def FewCalls (i : Nat) (l : NodeLog hash) : NodeCmd → Prop
  | .lock j (.incTicket s) => j = i → (callers s i l).card < 2 ^ 32
  | _ => True

instance (i : Nat) (l : NodeLog hash) : (c : NodeCmd) → Decidable (FewCalls i l c)
  | .lock _ (.incTicket _) => inferInstanceAs (Decidable (_ = _ → _ < _))
  | .lock _ (.loadTicket _) | .lock _ (.casUniqueKey _ _) | .lock _ (.loadUniqueKey _)
  | .lock _ (.clearUniqueKey _) | .lock _ (.storeWcBuffer _) | .lock _ .loadWcBuffer
  | .lock _ (.loadCurrent _) | .lock _ (.incCurrent _) | .lock _ (.loadWindow _)
  | .lock _ (.storeWindow _ _) | .lock _ (.decWindow _) | .lock _ (.loadHandover _)
  | .lock _ (.storeHandover _ _) | .lock _ .casWindowStart | .lock _ .clearWindowStart
  | .lock _ (.storeRes _) | .lock _ (.storeRetValue _) | .lock _ .loadRes | .lock _ .loadRetValue
  | .lock _ (.lock _) | .lock _ (.unlock _) | .remoteRead _ | .remoteWrite _ _ => .isTrue trivial

/-- Runs with any calls of which fewer than 2^32 are in flight at lock node `i`. -/
def fewCalls (hash : Key → Nat) (i : Nat) : Guard (nodeClient hash) NodeState where
  call _ _ := True
  act _ l _ c := FewCalls i l c

/-- Tickets of side `s` of lock node `i` are served one at a time and in order. -/
structure TicketDiscipline (s : Side) (i : Nat) (m : NodeState) (l : NodeLog hash) : Prop where
  /-- The counters count the calls with a ticket. -/
  length : queueLength ((m.locks i).ticket s) ((m.locks i).current s) = (holders s i l).card
  /-- At most one call has the turn. -/
  one : ∀ t u, place s i l t = .turn → place s i l u = .turn → t = u
  /-- It took its ticket before all others in the queue. -/
  first : ∀ t u, place s i l t = .turn → place s i l u ≠ .away → u ≠ t →
    lastPos (takesTicket s i t) l < lastPos (takesTicket s i u) l
  /-- No call takes a second ticket, or increments `current` without a ticket or twice. -/
  atMost : ∀ t, (tally s i l t).2 ≤ (tally s i l t).1 ∧ (tally s i l t).1 ≤ 1
  /-- A call that has taken a ticket increments `current` before it returns. -/
  once : ∀ t, engaged s i l t = false → (tally s i l t).2 = (tally s i l t).1

/-! ## Delegated results -/

/-- Position `p` of a history is the last result published in lock node `i`: the value `v`, which the
publishing call has looked up for key `k`. -/
structure PublishedAt (i : Nat) (l : NodeLog hash) (k : Key) (v : Value) (p : Nat) : Prop where
  store : ∃ u, l[p]? = some (.act u (.lock i (.storeRetValue v)) ()) ∧
    lookup (l.take p) u = some (k, v)
  last : ∀ p' e, p < p' → l[p']? = some e → publishes i e = false

/-- Every result that a read of `k` takes over at lock node `i` was published by a call that had looked
it up for the same key, and no other result was published in between. -/
def OwnResults (i : Nat) (l : NodeLog hash) : Prop :=
  ∀ (q : Nat) t v, l[q]? = some (.act t (.lock i .loadRetValue) v) →
    ∃ k value p, lastCall (l.take q) t = some (.read k value) ∧ PublishedAt i (l.take q) k v p

/-- Runs in which all calls are reads, of whatever keys. -/
def readsOfAnyKey (hash : Key → Nat) : Guard (nodeClient hash) NodeState where
  call _ op := ∃ k value, op = .read k value
  act _ _ _ _ := True

/-! ## Idle lock nodes -/

/-- A lock node that is ready for the next call of any key. -/
structure LocalLockNode.Idle (n : LocalLockNode) : Prop where
  uniqueKey : ∀ s, n.uniqueKey s = none
  window : ∀ s, n.window s = 0
  windowStart : n.windowStart = false

/-- The condition on a step under which a lock node becomes idle again: a call that has the turn finds
its own key in the lock node, and a read that has installed its key goes to remote memory only with a
ticket. -/
def Settles (i : Nat) (m : NodeState) (l : NodeLog hash) (t : Tid) : NodeCmd → Prop
  | .lock j (.loadUniqueKey s) => j = i → place s i l t ≠ .away →
      (m.locks i).uniqueKey s = (lastCall l t).map NodeOp.key
  | .remoteRead _ => fresh .read i l t = false
  | _ => True

instance (i : Nat) (m : NodeState) (l : NodeLog hash) (t : Tid) :
    (c : NodeCmd) → Decidable (Settles i m l t c)
  | .lock _ (.loadUniqueKey _) => inferInstanceAs (Decidable (_ = _ → _ ≠ _ → _ = _))
  | .remoteRead _ => inferInstanceAs (Decidable (_ = false))
  | .lock _ (.loadTicket _) | .lock _ (.casUniqueKey _ _) | .lock _ (.incTicket _)
  | .lock _ (.clearUniqueKey _) | .lock _ (.storeWcBuffer _) | .lock _ .loadWcBuffer
  | .lock _ (.loadCurrent _) | .lock _ (.incCurrent _) | .lock _ (.loadWindow _)
  | .lock _ (.storeWindow _ _) | .lock _ (.decWindow _) | .lock _ (.loadHandover _)
  | .lock _ (.storeHandover _ _) | .lock _ .casWindowStart | .lock _ .clearWindowStart
  | .lock _ (.storeRes _) | .lock _ (.storeRetValue _) | .lock _ .loadRes | .lock _ .loadRetValue
  | .lock _ (.lock _) | .lock _ (.unlock _) | .remoteWrite _ _ => .isTrue trivial

/-- Runs in which all steps settle, with fewer than 2^32 calls in flight at lock node `i`. -/
def settles (hash : Key → Nat) (i : Nat) : Guard (nodeClient hash) NodeState where
  call _ _ := True
  act m l t c := FewCalls i l c ∧ Settles i m l t c

end

end DMTree
