import DMTree.Conc.History
import DMTree.ComputeNode

/-!
# What write combining promises

A call `write(k, v)` that is handed over returns without going to remote memory, because a write of
another call is to carry its value, or one stored after it. The statements here are about histories of
the calls of one compute node.
-/

namespace DMTree

open Conc

/-- What happens on a compute node. -/
abbrev NodeEvent := Event NodeSig NodeOp (Option Value)

/-! ## Steps of the calls -/

/-- Thread `t` stores into the `wc_buffer` of lock node `i`. -/
def storesWc (i : Nat) (t : Tid) : NodeEvent → Bool
  | .act u (.lock j (.storeWcBuffer _)) _ => u == t && j == i
  | _ => false

/-- Thread `t` samples the `wc_buffer` of lock node `i`. -/
def samplesWc (i : Nat) (t : Tid) : NodeEvent → Bool
  | .act u (.lock j .loadWcBuffer) _ => u == t && j == i
  | _ => false

/-- Thread `t` takes a ticket of lock node `i`. -/
def takesTicket (s : Side) (i : Nat) (t : Tid) : NodeEvent → Bool
  | .act u (.lock j (.incTicket s')) _ => u == t && j == i && s' == s
  | _ => false

/-- Thread `t` passes the turn of lock node `i` on. -/
def passesTurn (s : Side) (i : Nat) (t : Tid) : NodeEvent → Bool
  | .act u (.lock j (.incCurrent s')) _ => u == t && j == i && s' == s
  | _ => false

section

variable {hash : Key → Nat}

/-- Thread `t` has a ticket of lock node `i`. -/
def InQueue (s : Side) (i : Nat) (l : NodeLog hash) (t : Tid) : Prop :=
  lastPos (passesTurn s i t) l < lastPos (takesTicket s i t) l

instance (s : Side) (i : Nat) (l : NodeLog hash) (t : Tid) : Decidable (InQueue s i l t) :=
  inferInstanceAs (Decidable (_ < _))

/-- Position `p` of the history is the store of `v` into the `wc_buffer` of lock node `i` by `t`. -/
def Stores (i : Nat) (l : NodeLog hash) (p : Nat) (t : Tid) (v : Value) : Prop :=
  l[p]? = some (.act t (.lock i (.storeWcBuffer v)) ())

/-! ## No lost update -/

/-- Between the positions `s` and `q` some remote write of `k` carries a value that was stored into
`wc_buffer` at `s` or later. -/
def Carried (hash : Key → Nat) (k : Key) (l : NodeLog hash) (s q : Nat) : Prop :=
  ∃ p j u u' v, s ≤ p ∧ p < j ∧ j < q ∧ Stores (hash k) l p u v ∧
    l[j]? = some (.act u' (.remoteWrite k v) ())

/-- Every write of `k` that has returned is accounted for remotely: after the call was made, it stored
its value, and that value or one stored later was carried to remote memory before the call
returned. -/
def NoLostUpdate (hash : Key → Nat) (k : Key) (l : NodeLog hash) : Prop :=
  ∀ q t v n res, l[q]? = some (.ret t (.write k v n) res) →
    ∃ s < q, Stores (hash k) l s t v ∧ (∀ c op, l[c]? = some (.call t op) → c < q → c < s) ∧
      Carried hash k l s q

/-- Runs in which all calls are writes of `k`. -/
def onlyWrites (hash : Key → Nat) (k : Key) : Guard (nodeClient hash) NodeState where
  call _ op := ∃ v n, op = .write k v n
  act _ _ _ _ := True

/-- The winner's sampling comes after the stores of all calls that queue behind it: each of them has
made its last store before the winner `t` last sampled `wc_buffer`, and it sampled in its current
call. -/
def SampledQueue (i : Nat) (l : NodeLog hash) (t : Tid) : Prop :=
  ∀ u ∈ l.map Event.tid, u ≠ t → InQueue .write i l u →
    lastPos (Event.isCall t) l < lastPos (samplesWc i t) l ∧
      lastPos (storesWc i u) l < lastPos (samplesWc i t) l

instance (i : Nat) (l : NodeLog hash) (t : Tid) : Decidable (SampledQueue i l t) :=
  inferInstanceAs (Decidable (∀ u ∈ _, u ≠ t → InQueue .write i l u → _ ∧ _))

/-- The condition on a step under which combining is safe: a release that was not handed over counts
the queue only when every call in it was there to be sampled, and the tickets of a queue are told
apart by 32 bits. -/
def CombinesInTime (m : NodeState) (l : NodeLog hash) (t : Tid) : NodeCmd → Prop
  | .lock i (.loadTicket .write) => (m.locks i).handover .write = false → SampledQueue i l t
  | .lock i (.incTicket .write) =>
    queueLength ((m.locks i).ticket .write) ((m.locks i).current .write) + 1 < 2 ^ 32
  | _ => True

instance (m : NodeState) (l : NodeLog hash) (t : Tid) :
    (c : NodeCmd) → Decidable (CombinesInTime m l t c)
  | .lock i (.loadTicket .write) =>
    inferInstanceAs (Decidable (_ = false → SampledQueue i l t))
  | .lock _ (.incTicket .write) => inferInstanceAs (Decidable (_ < _))
  | .lock _ (.loadTicket .read) | .lock _ (.incTicket .read) | .lock _ (.casUniqueKey _ _)
  | .lock _ (.loadUniqueKey _) | .lock _ (.clearUniqueKey _) | .lock _ (.storeWcBuffer _)
  | .lock _ .loadWcBuffer | .lock _ (.loadCurrent _) | .lock _ (.incCurrent _)
  | .lock _ (.loadWindow _) | .lock _ (.storeWindow _ _) | .lock _ (.decWindow _)
  | .lock _ (.loadHandover _) | .lock _ (.storeHandover _ _) | .lock _ .casWindowStart
  | .lock _ .clearWindowStart | .lock _ (.storeRes _) | .lock _ (.storeRetValue _)
  | .lock _ .loadRes | .lock _ .loadRetValue | .lock _ (.lock _) | .lock _ (.unlock _)
  | .remoteRead _ | .remoteWrite _ _ => .isTrue trivial

/-- Runs in which all calls are writes of `k` and all steps combine in time. -/
def writesInTime (hash : Key → Nat) (k : Key) : Guard (nodeClient hash) NodeState where
  call _ op := ∃ v n, op = .write k v n
  act := CombinesInTime

/-! ## Value integrity -/

/-- `v` has been passed to a write of `k`. -/
def Passed (k : Key) (v : Value) (l : NodeLog hash) : Prop :=
  ∃ (c : Nat) (t : Tid) (n : Nat), l[c]? = some (.call t (.write k v n))

/-- Every value written remotely under a key has before been passed to a write of that key. -/
def ValueIntegrity (l : NodeLog hash) : Prop :=
  ∀ j t k v, l[j]? = some (.act t (.remoteWrite k v) ()) → Passed k v (l.take j)

/-- Runs in which all calls are writes, of whatever keys. -/
def writesOfAnyKey (hash : Key → Nat) : Guard (nodeClient hash) NodeState where
  call _ op := ∃ k v n, op = .write k v n
  act _ _ _ _ := True

/-- A write installs its key as the owner of lock node `i`. -/
def installsKey (i : Nat) : NodeEvent → Bool
  | .act _ (.lock j (.casUniqueKey .write _)) none => j == i
  | _ => false

/-- Some thread stores into the `wc_buffer` of lock node `i`. -/
def storesAny (i : Nat) : NodeEvent → Bool
  | .act _ (.lock j (.storeWcBuffer _)) _ => j == i
  | _ => false

/-- The condition on a step under which combining keeps the values of different keys apart: the
buffer is stored and sampled only while the key of the call owns the lock node, and it is sampled only
after a store of the owner's epoch. -/
def UnderOwnKey (m : NodeState) (l : NodeLog hash) (t : Tid) : NodeCmd → Prop
  | .lock i (.storeWcBuffer _) => (m.locks i).uniqueKey .write = (lastCall l t).map NodeOp.key
  | .lock i .loadWcBuffer => (m.locks i).uniqueKey .write = (lastCall l t).map NodeOp.key ∧
      lastPos (installsKey i) l < lastPos (storesAny i) l
  | _ => True

instance (m : NodeState) (l : NodeLog hash) (t : Tid) :
    (c : NodeCmd) → Decidable (UnderOwnKey m l t c)
  | .lock _ (.storeWcBuffer _) => inferInstanceAs (Decidable (_ = _))
  | .lock _ .loadWcBuffer => inferInstanceAs (Decidable (_ = _ ∧ _ < _))
  | .lock _ (.loadTicket _) | .lock _ (.incTicket _) | .lock _ (.casUniqueKey _ _)
  | .lock _ (.loadUniqueKey _) | .lock _ (.clearUniqueKey _) | .lock _ (.loadCurrent _)
  | .lock _ (.incCurrent _) | .lock _ (.loadWindow _) | .lock _ (.storeWindow _ _)
  | .lock _ (.decWindow _) | .lock _ (.loadHandover _) | .lock _ (.storeHandover _ _)
  | .lock _ .casWindowStart | .lock _ .clearWindowStart | .lock _ (.storeRes _)
  | .lock _ (.storeRetValue _) | .lock _ .loadRes | .lock _ .loadRetValue | .lock _ (.lock _)
  | .lock _ (.unlock _) | .remoteRead _ | .remoteWrite _ _ => .isTrue trivial

/-- Runs in which all calls are writes and the buffer is used under the own key. -/
def writesUnderOwnKey (hash : Key → Nat) : Guard (nodeClient hash) NodeState where
  call _ op := ∃ k v n, op = .write k v n
  act := UnderOwnKey

end

end DMTree
