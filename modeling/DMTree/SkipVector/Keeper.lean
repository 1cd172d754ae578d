import DMTree.Conc.Exec

/-!
# The barrier over memcached

`set_barrier` and `barrier(key, cs_num)` of `RdmaKeeper.h`, on `memSet`, `memFetchAndAdd` and
`memGet` of `Keeper.h`. The memory nodes set the counter of a barrier to zero; a compute node
increments it and waits until it reads the number of compute nodes. Every request is atomic at
memcached. A request that fails on the way changes nothing and is repeated, so it is left out; an
increment or a get of a key that does not exist fails at memcached and is repeated by the code.
-/

namespace DMTree.SkipVector

open Conc

/-- The requests for the key of one barrier. -/
inductive KeeperCmd where
  /-- `memcached_set` to `"0"` -/
  | set
  /-- `memcached_increment` by one: whether the key exists -/
  | increment
  /-- `memcached_get` -/
  | get
  deriving DecidableEq

/-- The answers. -/
@[reducible] def KeeperCmd.Resp : KeeperCmd → Type
  | set => Unit
  | increment => Bool
  | get => Option Nat

/-- The language of the nodes. -/
abbrev KeeperSig : Sig := ⟨KeeperCmd, KeeperCmd.Resp, Empty⟩

/-- The meaning of the requests on the counter, `none` when the key does not exist. -/
def keeperMachine : Machine KeeperSig (Option Nat) where
  exec _ c v :=
    match c with
    | .set => some ((), some 0)
    | .increment => some (v.isSome, v.map (· + 1))
    | .get => some (v, v)

/-- A single request. -/
def request (c : KeeperCmd) : Prog KeeperSig c.Resp := Prog.cmd (S := KeeperSig) c

/-- `RdmaKeeper::set_barrier` -/
def setBarrier : Prog KeeperSig Unit := request .set

/-- `Keeper::memFetchAndAdd` -/
def memFetchAndAdd : Prog KeeperSig Unit :=
  Prog.loop (fun _ : Unit => do
    let ok ← request .increment
    if ok then return .inr () else return .inl ()) ()

/-- `Keeper::memGet` -/
def memGet : Prog KeeperSig Nat :=
  Prog.loop (fun _ : Unit => do
    let v ← request .get
    match v with
    | some v => return .inr v
    | none => return .inl ()) ()

/-- `RdmaKeeper::barrier(key, cs_num)` -/
def barrier (csNum : Nat) : Prog KeeperSig Unit := do
  memFetchAndAdd
  Prog.loop (fun _ : Unit => do
    let v ← memGet
    if v = csNum then return .inr () else return .inl ()) ()

/-- The calls of the nodes. -/
inductive KeeperOp where
  | setBarrier
  | barrier (csNum : Nat)
  deriving DecidableEq

/-- The nodes. -/
abbrev keeperClient : Client KeeperSig where
  Op := KeeperOp
  Res := Unit
  Loc := Unit
  code _ op _ :=
    match op with
    | .setBarrier => do
      setBarrier
      return ((), ())
    | .barrier csNum => do
      barrier csNum
      return ((), ())

/-- Histories of the requests. -/
abbrev KeeperLog := Log keeperClient

/-- Configurations of the nodes. -/
abbrev KeeperConfig := Config keeperClient (Option Nat)

/-- The key does not exist, and no call has been made. -/
def keeperInit : KeeperConfig := ⟨none, [], fun _ => .idle ()⟩

/-- The nodes `0 .. M - 1` are memory nodes and the nodes `M .. M + C - 1` compute nodes. -/
def keeperGuard (M C : Nat) : Guard keeperClient (Option Nat) where
  call t op := (t < M ∧ op = .setBarrier) ∨ (M ≤ t ∧ t < M + C ∧ op = .barrier C)
  act _ _ _ _ := True

/-! ## Histories -/

/-- Every node makes one call at most. -/
def OneCallEach (l : KeeperLog) : Prop :=
  ∀ (i j : Nat) t op op', l[i]? = some (.call t op) → l[j]? = some (.call t op') → i = j

/-- The node whose increment the event is. -/
def incrementOf : Event KeeperSig KeeperOp Unit → Option Tid
  | .act t .increment true => some t
  | _ => none

/-- The nodes that have arrived, in the order of their increments. -/
def arrived (l : KeeperLog) : List Tid := l.filterMap incrementOf

/-- Every memory node has set the counter and every compute node has incremented it. -/
def AllExecuted (M C : Nat) (l : KeeperLog) : Prop :=
  (∀ t < M, ∃ i : Nat, l[i]? = some (.act t .set ())) ∧ ∀ t, M ≤ t → t < M + C → t ∈ arrived l

/-- The counter has been set after a node had arrived. -/
def ResetAfterArrival (l : KeeperLog) : Prop :=
  ∃ (i j : Nat) (t u : Tid), i < j ∧ l[i]? = some (.act t .increment true) ∧
    l[j]? = some (.act u .set ())

end DMTree.SkipVector
