import DMTree.Conc.Exec

/-!
# Operations on all replicas

`ReplicaGroup.cc` over `poll_rdma_cq_once` of `DMVerbs.cc` and `pollOnce` of `Operation.cpp`. A call
posts one verb to every replica that is not dropped, with the number of the replica as `wr_id`, and
polls the completion queue until as many successful completions have come as verbs were posted.

All calls are about one word (or one range of bytes), whose contents have the type `V`. `Fabric` is
the network: a posted verb is performed at its replica at some time, and at some later time it
completes, which stores its answer in the buffer of the client and adds an entry to the completion
queue. `Polls` is the network seen from one call: what its polls will find.
-/

namespace DMTree.SkipVector

open Conc

/-! ## Verbs and completions -/

/-- A one-sided verb on the word. -/
inductive Verb (V : Type) where
  | read
  | write (d : V)
  | cas (expected desired : V)
  deriving DecidableEq

section

variable {V : Type}

/-- What the verb leaves at a replica that holds `old`. -/
def Verb.result [DecidableEq V] (old : V) : Verb V → V
  | read => old
  | write d => d
  | cas expected desired => if old = expected then desired else old

/-- What the verb returns to its buffer from a replica that holds `old`. -/
def Verb.answer (old : V) : Verb V → Option V
  | read => some old
  | write _ => none
  | cas _ _ => some old

end

/-- An entry of a completion queue (`ibv_wc`). -/
structure Wc where
  /-- `status == IBV_WC_SUCCESS` -/
  success : Bool
  /-- `wr_id` -/
  wrId : Nat
  deriving DecidableEq

/-- What performing a verb does: the replica, and its contents before and after. -/
structure Change (V : Type) where
  replica : Nat
  before : V
  after : V
  deriving DecidableEq

/-- The commands of the clients, and those of the network. -/
inductive ReplicaCmd (V : Type) where
  /-- `read_tagged`, `write_tagged`, `cas_tagged` to replica `i`, with `wr_id` `i` -/
  | post (i : Nat) (v : Verb V)
  /-- `ibv_poll_cq` for one entry -/
  | ibvPollCq
  /-- `*(prev_vals[i])`, and `bufs[i]` -/
  | load (i : Nat)
  /-- A posted verb of client `u` is performed at its replica. -/
  | perform (u : Tid) (k : Nat)
  /-- A performed verb of client `u` completes. -/
  | deliver (u : Tid) (k : Nat)

/-- The answers. -/
@[reducible] def ReplicaCmd.Resp {V : Type} : ReplicaCmd V → Type
  | post _ _ => Unit
  | ibvPollCq => Option Wc
  | load _ => V
  | perform _ _ => Change V
  | deliver _ _ => Unit

/-- The assertion of `wait_quorum_`. -/
inductive ReplicaErr where
  /-- `wr_id must be a valid replica index` -/
  | wrId
  deriving DecidableEq

/-- The language of the clients. -/
abbrev ReplicaSig (V : Type) : Sig := ⟨ReplicaCmd V, ReplicaCmd.Resp, ReplicaErr⟩

/-! ## The calls -/

/-- A mask of replicas (`uint32_t`). -/
abbrev Mask := BitVec 32

/-- `1u << i` -/
def bit (i : Nat) : Mask := 1#32 <<< i

/-- `__builtin_popcount` -/
def popcount (m : Mask) : Nat := (List.range 32).countP m.getLsbD

section

variable {V : Type}

/-- A single command. -/
def issue (c : ReplicaCmd V) : Prog (ReplicaSig V) c.Resp := Prog.cmd (S := ReplicaSig V) c

/-- `pollOnce(cq, 1, wc)`: its result, and the entry if there was one. -/
def pollOnce : Prog (ReplicaSig V) (Int × Option Wc) := do
  let wc ← issue (V := V) .ibvPollCq
  match wc with
  | none => return (0, none)
  | some wc => if wc.success then return (1, some wc) else return (-1, some wc)

/-- `DMVerbs::poll_rdma_cq_once`: the `wr_id` is that of an entry only if there was one. -/
def pollRdmaCqOnce : Prog (ReplicaSig V) (Bool × Nat) := do
  let (res, wc) ← pollOnce
  return (res == 1, (wc.map Wc.wrId).getD 0)

/-- The variables of the loop of `wait_quorum_`. -/
structure WaitState where
  successMask : Mask := 0
  successes : Nat := 0
  completions : Nat := 0

/-- `ReplicaGroup::wait_quorum_` -/
def waitQuorum (posted _quorum : Nat) : Prog (ReplicaSig V) Mask :=
  Prog.loop (fun s : WaitState => do
    if s.completions < posted then
      let (ok, wrId) ← pollRdmaCqOnce
      if ok then
        Prog.assert (wrId < 32) .wrId
        return .inl ⟨s.successMask ||| bit wrId, s.successes + 1, s.completions + 1⟩
      else
        return .inl s
    else
      return .inr s.successMask) {}

/-- The loop over the replicas `is` that posts the verb to those that are not dropped. -/
def postAll (dropMask : Mask) (v : Verb V) : List Nat → Nat → Prog (ReplicaSig V) Nat
  | [], posted => return posted
  | i :: is, posted => do
    if dropMask &&& bit i ≠ 0 then
      postAll dropMask v is posted
    else
      issue (.post i v)
      postAll dropMask v is (posted + 1)

/-- `ReplicaGroup::read_all`: the result and `*success_mask` -/
def readAll (numReplicas : Nat) (dropMask : Mask) (quorum : Nat) :
    Prog (ReplicaSig V) (Bool × Mask) := do
  let posted ← postAll dropMask .read (List.range numReplicas) 0
  let mask ← waitQuorum posted quorum
  return (decide (popcount mask ≥ quorum), mask)

/-- `ReplicaGroup::write_all`: the result and `*success_mask` -/
def writeAll (numReplicas : Nat) (dropMask : Mask) (buf : V) (quorum : Nat) :
    Prog (ReplicaSig V) (Bool × Mask) := do
  let posted ← postAll dropMask (.write buf) (List.range numReplicas) 0
  let mask ← waitQuorum posted quorum
  return (decide (popcount mask ≥ quorum), mask)

/-- The loop over the replicas `is` that looks for the wins among the completed ones. -/
def collectWins [DecidableEq V] (expected : V) (completed : Mask) :
    List Nat → Mask → Prog (ReplicaSig V) Mask
  | [], wins => return wins
  | i :: is, wins => do
    if completed &&& bit i = 0 then
      collectWins expected completed is wins
    else
      let prev ← issue (.load i)
      if prev = expected then
        collectWins expected completed is (wins ||| bit i)
      else
        collectWins expected completed is wins

/-- `ReplicaGroup::cas_all`: the result and `*won_mask` -/
def casAll [DecidableEq V] (numReplicas : Nat) (dropMask : Mask) (expected desired : V)
    (quorum : Nat) : Prog (ReplicaSig V) (Bool × Mask) := do
  let posted ← postAll dropMask (.cas expected desired) (List.range numReplicas) 0
  let completed ← waitQuorum posted quorum
  let wins ← collectWins expected completed (List.range numReplicas) 0
  return (decide (popcount wins ≥ quorum), wins)

end

/-- A call of a `ReplicaGroup`, with the drop mask that is set during the call. -/
structure GroupCall (V : Type) where
  verb : Verb V
  dropMask : Mask
  quorum : Nat
  deriving DecidableEq

/-- The function that is called. -/
def GroupCall.run {V : Type} [DecidableEq V] (numReplicas : Nat) (a : GroupCall V) :
    Prog (ReplicaSig V) (Bool × Mask) :=
  match a.verb with
  | .read => readAll numReplicas a.dropMask a.quorum
  | .write d => writeAll numReplicas a.dropMask d a.quorum
  | .cas e d => casAll numReplicas a.dropMask e d a.quorum

/-! ## The network -/

/-- The replicas, the verbs on their way, and the memory of the clients. -/
structure Fabric (V : Type) where
  /-- The contents of the word at each replica. -/
  word : Nat → V
  /-- Verbs that have been posted and not performed, with their replica. -/
  posted : Tid → List (Nat × Verb V)
  /-- Verbs that have been performed and not completed, with their answer. -/
  performed : Tid → List (Nat × Option V)
  /-- The `wr_id` of the completions that have not been polled. -/
  cq : Tid → List Nat
  /-- The buffers of the clients, one for each replica. -/
  buf : Tid → Nat → V

section

variable {V : Type} [DecidableEq V]

namespace Fabric

/-- Nothing is on its way. -/
def init (word : Nat → V) (buf : Tid → Nat → V) : Fabric V :=
  ⟨word, fun _ => [], fun _ => [], fun _ => [], buf⟩

/-- Client `t` posts a verb. -/
def post (m : Fabric V) (t : Tid) (i : Nat) (v : Verb V) : Fabric V :=
  { m with posted := Function.update m.posted t (m.posted t ++ [(i, v)]) }

/-- Client `t` takes the first entry of its completion queue. -/
def poll (m : Fabric V) (t : Tid) : Option Wc × Fabric V :=
  match m.cq t with
  | [] => (none, m)
  | i :: is => (some ⟨true, i⟩, { m with cq := Function.update m.cq t is })

/-- The `k`-th posted verb `(i, v)` of client `u` is performed. -/
def performAt (m : Fabric V) (u : Tid) (k i : Nat) (v : Verb V) : Fabric V :=
  { m with
    word := Function.update m.word i (v.result (m.word i))
    posted := Function.update m.posted u ((m.posted u).eraseIdx k)
    performed := Function.update m.performed u (m.performed u ++ [(i, v.answer (m.word i))]) }

/-- The `k`-th performed verb of client `u`, at replica `i` and with answer `a`, completes. -/
def deliverAt (m : Fabric V) (u : Tid) (k i : Nat) (a : Option V) : Fabric V :=
  { m with
    performed := Function.update m.performed u ((m.performed u).eraseIdx k)
    cq := Function.update m.cq u (m.cq u ++ [i])
    buf := Function.update m.buf u (Function.update (m.buf u) i (a.getD (m.buf u i))) }

end Fabric

/-- The network on which every posted verb is performed and completes successfully, once each and in
any order. -/
def fabricMachine : Machine (ReplicaSig V) (Fabric V) where
  exec t c m :=
    match c with
    | .post i v => some ((), m.post t i v)
    | .ibvPollCq => some (m.poll t)
    | .load i => some (m.buf t i, m)
    | .perform u k =>
      match (m.posted u)[k]? with
      | some (i, v) => some (⟨i, m.word i, v.result (m.word i)⟩, m.performAt u k i v)
      | none => none
    | .deliver u k =>
      match (m.performed u)[k]? with
      | some (i, a) => some ((), m.deliverAt u k i a)
      | none => none

/-- What a client sees of the network during one call: what its polls will find, in this order and
nothing after that, and what its buffers hold when the completions have come. -/
structure Polls (V : Type) where
  polls : List (Option Wc)
  buf : Nat → V

/-- The network of one call, in which verbs may also fail. -/
def pollsMachine : Machine (ReplicaSig V) (Polls V) where
  exec _ c m :=
    match c with
    | .post _ _ => some ((), m)
    | .ibvPollCq => some (m.polls.headD none, { m with polls := m.polls.tail })
    | .load i => some (m.buf i, m)
    | .perform _ _ => none
    | .deliver _ _ => none

/-! ## What a call is to report -/

/-- The mask of a list of replicas. -/
def Mask.Is (m : Mask) (is : List Nat) : Prop := ∀ i, m.getLsbD i = true ↔ i ∈ is

/-- The replicas below `n` that are not dropped: those a verb is posted to. -/
def alive (n : Nat) (dropMask : Mask) : List Nat :=
  (List.range n).filter fun i => !dropMask.getLsbD i

/-- The completions among the polls. -/
def completions (ps : List (Option Wc)) : List Wc := ps.filterMap id

/-- The replicas whose verb succeeded. -/
def succeeded (ps : List (Option Wc)) : List Nat := ((completions ps).filter Wc.success).map Wc.wrId

/-- Every posted verb completes once, successfully or not. -/
def CompleteOnce (n : Nat) (dropMask : Mask) (ps : List (Option Wc)) : Prop :=
  ((completions ps).map Wc.wrId).Perm (alive n dropMask)

/-- The replicas that count for the result: the verb succeeded, and won if it is a CAS. -/
def GroupCall.counted (a : GroupCall V) (m : Polls V) : List Nat :=
  (succeeded m.polls).filter fun i =>
    match a.verb with
    | .cas e _ => m.buf i = e
    | _ => true

/-- The call consumes the completions of its verbs, returns right after the last of them, and reports
the replicas that count. -/
structure GroupCall.Settles (a : GroupCall V) (m : Polls V) (r : Bool × Mask) (m' : Polls V) :
    Prop where
  consumed : ∃ ps, m.polls = ps ++ m'.polls ∧ completions m'.polls = [] ∧
    (ps = [] ∨ ∃ qs w, ps = qs ++ [some w])
  mask : r.2.Is (a.counted m)
  failed : r.1 = false ↔ (a.counted m).length < a.quorum

/-! ## The clients -/

/-- The calls: those of the clients, and the steps of the network. -/
inductive ReplicaOp (V : Type) where
  | group (a : GroupCall V)
  | perform (u : Tid) (k : Nat)
  | deliver (u : Tid) (k : Nat)

/-- What a call leaves with its caller: the result, the mask, and the buffers. -/
structure Outcome (V : Type) where
  ok : Bool
  mask : Mask
  bufs : List V
  deriving DecidableEq

/-- The caller looks at its buffers. -/
def loadAll : List Nat → Prog (ReplicaSig V) (List V)
  | [] => return []
  | i :: is => do
    let v ← issue (.load i)
    let vs ← loadAll is
    return v :: vs

/-- The clients of a group of `n` replicas. A step of the network has no outcome. -/
abbrev replicaClient (V : Type) [DecidableEq V] (n : Nat) : Client (ReplicaSig V) where
  Op := ReplicaOp V
  Res := Option (Outcome V)
  Loc := Unit
  code _ op _ :=
    match op with
    | .group a => do
      let (ok, mask) ← a.run n
      let bufs ← loadAll (List.range n)
      return (some ⟨ok, mask, bufs⟩, ())
    | .perform u k => do
      let _ ← issue (V := V) (.perform u k)
      return (none, ())
    | .deliver u k => do
      issue (V := V) (.deliver u k)
      return (none, ())

/-- Configurations of the clients and the network. -/
abbrev ReplicaConfig (V : Type) [DecidableEq V] (n : Nat) := Config (replicaClient V n) (Fabric V)

/-- Histories. -/
abbrev ReplicaLog (V : Type) [DecidableEq V] (n : Nat) := Log (replicaClient V n)

/-- No call has been made. -/
def replicaInit {n : Nat} (word : Nat → V) (buf : Tid → Nat → V) : ReplicaConfig V n :=
  ⟨Fabric.init word buf, [], fun _ => .idle ()⟩

/-! ## Runs of `cas_all` -/

/-- Clients only call `cas_all`, with a majority of the `n` replicas for the quorum. -/
def casOnly (V : Type) [DecidableEq V] (n : Nat) : Guard (replicaClient V n) (Fabric V) where
  call _ op :=
    match op with
    | .group a => (∃ e d, a.verb = .cas e d) ∧ n < 2 * a.quorum
    | .perform _ _ => True
    | .deliver _ _ => True
  act _ _ _ _ := True

/-- The desired values of distinct calls differ, and they differ from the initial contents. -/
structure FreshDesired {n : Nat} (word : Nat → V) (l : ReplicaLog V n) : Prop where
  distinct : ∀ (i j : Nat) t u a b e e' d, l[i]? = some (.call t (.group a)) →
    l[j]? = some (.call u (.group b)) → a.verb = .cas e d → b.verb = .cas e' d → i = j
  initial : ∀ (i : Nat) t a e d, l[i]? = some (.call t (.group a)) → a.verb = .cas e d →
    ∀ r < n, word r ≠ d

/-- Replica `r` has come to hold `d` in the history. -/
def CameToHold {n : Nat} (l : ReplicaLog V n) (r : Nat) (d : V) : Prop :=
  ∃ (i : Nat) (t u : Tid) (k : Nat) (e : V), l[i]? = some (.act t (.perform u k) ⟨r, e, d⟩)

/-! ## Runs of one client -/

/-- Only `client` makes calls, with a majority of the `n` replicas for the quorum, and it only reads
and writes. -/
def oneClient (V : Type) [DecidableEq V] (n : Nat) (client : Tid) :
    Guard (replicaClient V n) (Fabric V) where
  call t op :=
    match op with
    | .group a => t = client ∧ (∀ e d, a.verb ≠ .cas e d) ∧ n < 2 * a.quorum
    | .perform _ _ => t ≠ client
    | .deliver _ _ => t ≠ client
  act _ _ _ _ := True

/-- What the most recent `write_all` that returned had written, and its result. -/
def lastWrite {n : Nat} (l : ReplicaLog V n) : Option (V × Bool) :=
  l.foldl (fun last e =>
    match e with
    | .ret _ (.group ⟨.write d, _, _⟩) (some r) => some (d, r.ok)
    | _ => last) none

end

end DMTree.SkipVector
