import DMTree.LocalLockTable

/-!
# The calls of one compute node, as the lock table sees them

`DMTree::read` and `DMTree::write` with read delegation and write combining on. What they do between
`acquire` and `release` is, for the lock table, one access to the remote entry of the key:
`leaf_search` looks it up, `leaf_insert` writes it after sampling `wc_buffer`. Clients of other
compute nodes update remote entries without going through this lock table.
-/

namespace DMTree

open Conc

/-- The steps of the calls: accesses to the lock node with index `i`, and accesses to the remote
entry of a key. -/
inductive NodeCmd where
  | lock (i : Nat) (c : LockCmd)
  | remoteRead (k : Key)
  | remoteWrite (k : Key) (v : Value)
  deriving DecidableEq

/-- The answers. -/
@[reducible] def NodeCmd.Resp : NodeCmd → Type
  | lock _ c => c.Resp
  | remoteRead _ => Value
  | remoteWrite _ _ => Unit

/-- The language of the calls. -/
abbrev NodeSig : Sig := ⟨NodeCmd, NodeCmd.Resp, Empty⟩

/-- Programs of the calls. -/
abbrev NodeProg (α : Type) := Prog NodeSig α

/-- The lock table of the compute node and the remote entries. -/
structure NodeState where
  /-- `local_locks` -/
  locks : Nat → LocalLockNode := fun _ => {}
  /-- The values in remote memory. Every key has an entry: `leaf_search` leaves the variable of the
  caller alone when it finds none, and that is not modelled here (`DMTree.read` has it). -/
  remote : Key → Value := fun _ => ValueNull

/-- The meaning of the steps. -/
def nodeMachine : Machine NodeSig NodeState where
  exec _ c s :=
    match c with
    | .lock i c =>
      ((s.locks i).exec c).map fun a => (a.1, { s with locks := Function.update s.locks i a.2 })
    | .remoteRead k => some (s.remote k, s)
    | .remoteWrite k v => some ((), { s with remote := Function.update s.remote k v })

/-- A function of the lock table, applied to the lock node with index `i`. -/
def onLock (i : Nat) {α : Type} (p : LockProg α) : NodeProg α :=
  p.lift (fun c => Prog.cmd (S := NodeSig) (.lock i c)) Empty.elim

section Calls

-- `hash` is `Hash::get_hashed_lock_index`
variable (hash : Key → Nat)

/-- `DMTree::leaf_insert` for a key with `n` slots of other keys under the same fingerprint: the
value is sampled from `wc_buffer` at each of them, and once more right before the remote write. -/
def combinedInsert (k : Key) : Nat → Value → NodeProg Unit
  | 0, v => do
    let v ← onLock (hash k) (getCombiningValue k v)
    Prog.cmd (S := NodeSig) (.remoteWrite k v)
  | n + 1, v => do
    let v ← onLock (hash k) (getCombiningValue k v)
    combinedInsert k n v

/-- `DMTree::write` -/
def combinedWrite (k : Key) (v : Value) (n : Nat) : NodeProg Unit := do
  let lockRes ← onLock (hash k) (acquireLocalWriteLock k v)
  if lockRes.1 && !lockRes.2 then -- write_handover
    onLock (hash k) (releaseLocalWriteLock lockRes)
  else do
    combinedInsert hash k n v
    onLock (hash k) (releaseLocalWriteLock lockRes)

/-- `DMTree::read` of a key that has an entry; `value` is what the caller's argument holds before the
call. -/
def delegatedRead (k : Key) (value : Value) : NodeProg Value := do
  let lockRes ← onLock (hash k) (acquireLocalReadLock k)
  if lockRes.1 && !lockRes.2 then do -- read_handover
    let out ← onLock (hash k) (releaseLocalReadLock lockRes false value)
    return out.2
  else do
    let value ← Prog.cmd (S := NodeSig) (.remoteRead k)
    let out ← onLock (hash k) (releaseLocalReadLock lockRes false value)
    return out.2

/-- The calls. -/
inductive NodeOp where
  /-- `write(k, v)`; `n` slots of the leaf hold other keys with the fingerprint of `k`. -/
  | write (k : Key) (v : Value) (n : Nat)
  /-- `read(k, value)` -/
  | read (k : Key) (value : Value)
  /-- A client of another compute node writes the remote entry of `k`. -/
  | update (k : Key) (v : Value)
  deriving DecidableEq

/-- The key of a call. -/
def NodeOp.key : NodeOp → Key
  | write k _ _ => k
  | read k _ => k
  | update k _ => k

/-- The clients; a read returns its value. -/
abbrev nodeClient : Client NodeSig where
  Op := NodeOp
  Res := Option Value
  Loc := Unit
  code _ op l :=
    match op with
    | .write k v n => do
      combinedWrite hash k v n
      return (none, l)
    | .read k value => do
      let v ← delegatedRead hash k value
      return (some v, l)
    | .update k v => do
      Prog.cmd (S := NodeSig) (.remoteWrite k v)
      return (none, l)

/-- Histories of the calls. -/
abbrev NodeLog := Log (nodeClient hash)

/-- Configurations of the calls. -/
abbrev NodeConfig := Config (nodeClient hash) NodeState

/-- No call has been made. -/
def nodeInit : NodeConfig hash := ⟨{}, [], fun _ => .idle ()⟩

end Calls

end DMTree
