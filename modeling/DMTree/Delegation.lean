import DMTree.Combining

/-!
# What read delegation promises

A read that is handed over returns the value that another read, the winner, has looked up. The
statements are about histories with reads of one key, any writes of the compute node, and updates by
clients of other compute nodes.
-/

namespace DMTree

open Conc

/-- Thread `t` looks up a remote entry. -/
def looksUp (t : Tid) : NodeEvent → Bool
  | .act u (.remoteRead _) _ => u == t
  | _ => false

/-- Some thread publishes a result in `ret_value` of lock node `i`. -/
def publishes (i : Nat) : NodeEvent → Bool
  | .act _ (.lock j (.storeRetValue _)) _ => j == i
  | _ => false

variable {hash : Key → Nat}

/-- The remote value of `k` after a history. -/
def remoteVal (k : Key) (l : NodeLog hash) : Value :=
  l.foldl (fun a e => match e with
    | .act _ (.remoteWrite k' v) _ => if k' = k then v else a
    | _ => a) ValueNull

/-- When the lookup behind the result published in lock node `i` was made: the last lookup of the
thread that published it. -/
def publishedAt (i : Nat) (l : NodeLog hash) : Nat :=
  match l[lastPos (publishes i) l - 1]? with
  | some e => lastPos (looksUp e.tid) (l.take (lastPos (publishes i) l))
  | none => 0

/-- Every read of `k` that has returned yields a value that was the remote value of `k` at an instant
between its invocation and its return. -/
def FreshReads (k : Key) (l : NodeLog hash) : Prop :=
  ∀ q t value v, l[q]? = some (.ret t (.read k value) (some v)) →
    ∃ j ≤ q, (∀ c op, l[c]? = some (.call t op) → c < q → c < j) ∧ remoteVal k (l.take j) = v

/-- The calls in question: reads of `k`, and writes and updates of any key. -/
def readsOf (k : Key) : NodeOp → Prop
  | .read k' _ => k' = k
  | .write _ _ _ => True
  | .update _ _ => True

/-- Runs in which all reads are reads of `k`. -/
def onlyReads (hash : Key → Nat) (k : Key) : Guard (nodeClient hash) NodeState where
  call _ op := readsOf k op
  act _ _ _ _ := True

/-- The condition on a step under which delegation is fresh: a read takes over a published result only
if it has queued up before the lookup behind it, and the tickets of a queue are told apart by 32
bits. -/
def QueuedBeforeLookup (m : NodeState) (l : NodeLog hash) (t : Tid) : NodeCmd → Prop
  | .lock i .loadRetValue => lastPos (takesTicket .read i t) l < publishedAt i l
  | .lock i (.incTicket .read) =>
    queueLength ((m.locks i).ticket .read) ((m.locks i).current .read) + 1 < 2 ^ 32
  | _ => True

instance (m : NodeState) (l : NodeLog hash) (t : Tid) :
    (c : NodeCmd) → Decidable (QueuedBeforeLookup m l t c)
  | .lock _ .loadRetValue => inferInstanceAs (Decidable (_ < _))
  | .lock _ (.incTicket .read) => inferInstanceAs (Decidable (_ < _))
  | .lock _ (.loadTicket _) | .lock _ (.incTicket .write) | .lock _ (.casUniqueKey _ _)
  | .lock _ (.loadUniqueKey _) | .lock _ (.clearUniqueKey _) | .lock _ (.loadCurrent _)
  | .lock _ (.incCurrent _) | .lock _ (.loadWindow _) | .lock _ (.storeWindow _ _)
  | .lock _ (.decWindow _) | .lock _ (.loadHandover _) | .lock _ (.storeHandover _ _)
  | .lock _ .casWindowStart | .lock _ .clearWindowStart | .lock _ (.storeRes _)
  | .lock _ (.storeRetValue _) | .lock _ .loadRes | .lock _ (.storeWcBuffer _)
  | .lock _ .loadWcBuffer | .lock _ (.lock _) | .lock _ (.unlock _) | .remoteRead _
  | .remoteWrite _ _ => .isTrue trivial

/-- Runs in which all reads are reads of `k` and those handed over have queued up in time. -/
def readsInTime (hash : Key → Nat) (k : Key) : Guard (nodeClient hash) NodeState where
  call _ op := readsOf k op
  act := QueuedBeforeLookup

end DMTree
