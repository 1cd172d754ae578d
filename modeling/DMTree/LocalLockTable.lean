import DMTree.KVConfig
import DMTree.Conc.Pool

/-!
# The local lock table: read delegation and write combining

`LocalLockTable.h`. The threads of one compute node meet in a `LocalLockNode`, to which a key hashes.
Reads (and likewise writes) of the node queue up by tickets; the first of them, the winner, goes to
remote memory, and those behind it that are inside the current time window take over its result
(`read_handover`) or have been combined into its write (`write_handover`).

Every access to a shared field is a command of its own, so that the calls interleave between any two
of them. A critical section of `r_lock` or `w_lock` is the commands between `lock` and `unlock`.
`wc_lock` protects single accesses to `wc_buffer`, which are atomic here.
-/

namespace DMTree

open Conc

/-- The read half or the write half of a lock node. -/
inductive Side where
  | read
  | write
  deriving DecidableEq, Repr

/-- `LocalLockNode`. The counters are 32 bits wide; `Side` selects between the `read_` and the
`write_` field. A key pointer is the key it points to. -/
structure LocalLockNode where
  /-- `read_current`, `write_current` -/
  current : Side → Nat := fun _ => 0
  /-- `read_ticket`, `write_ticket` -/
  ticket : Side → Nat := fun _ => 0
  /-- `read_handover`, `write_handover` -/
  handover : Side → Bool := fun _ => false
  /-- `window_start` -/
  windowStart : Bool := false
  /-- `read_window`, `write_window` -/
  window : Side → Nat := fun _ => 0
  /-- `r_lock`, `w_lock`: held or not -/
  mutex : Side → Bool := fun _ => false
  /-- `unique_read_key`, `unique_write_key` -/
  uniqueKey : Side → Option Key := fun _ => none
  /-- `res` -/
  res : Bool := false
  /-- `ret_value` -/
  retValue : Value := 0
  /-- `wc_buffer` -/
  wcBuffer : Value := 0

/-- `MAX_HOCL_HANDOVER` -/
def maxHoclHandover : Nat := 8

/-- The accesses to the fields of a lock node. -/
inductive LockCmd where
  /-- `unique_key.compare_exchange_strong(nullptr, new Key(k))`; answers the key found there -/
  | casUniqueKey (s : Side) (k : Key)
  | loadUniqueKey (s : Side)
  /-- `unique_key = nullptr` -/
  | clearUniqueKey (s : Side)
  | storeWcBuffer (v : Value)
  | loadWcBuffer
  | loadTicket (s : Side)
  /-- `ticket.fetch_add(1)` -/
  | incTicket (s : Side)
  | loadCurrent (s : Side)
  /-- `current.fetch_add(1)` -/
  | incCurrent (s : Side)
  | loadWindow (s : Side)
  | storeWindow (s : Side) (n : Nat)
  /-- `--window` -/
  | decWindow (s : Side)
  | loadHandover (s : Side)
  | storeHandover (s : Side) (b : Bool)
  /-- `window_start.compare_exchange_strong(false, true)` -/
  | casWindowStart
  /-- `window_start = false` -/
  | clearWindowStart
  | storeRes (b : Bool)
  | storeRetValue (v : Value)
  | loadRes
  | loadRetValue
  | lock (s : Side)
  | unlock (s : Side)
  deriving DecidableEq

/-- The answers of the accesses. -/
@[reducible] def LockCmd.Resp : LockCmd → Type
  | casUniqueKey _ _ => Option Key
  | loadUniqueKey _ => Option Key
  | loadWcBuffer => Value
  | loadTicket _ => Nat
  | incTicket _ => Nat
  | loadCurrent _ => Nat
  | loadWindow _ => Nat
  | loadHandover _ => Bool
  | casWindowStart => Bool
  | loadRes => Bool
  | loadRetValue => Value
  | _ => Unit

/-- The language of the lock table; its functions assert nothing. -/
abbrev LockSig : Sig := ⟨LockCmd, LockCmd.Resp, Empty⟩

namespace LocalLockNode

/-- One access. A fetch-and-add wraps at 32 bits. -/
def exec (n : LocalLockNode) : (c : LockCmd) → Option (c.Resp × LocalLockNode)
  | .casUniqueKey s k =>
    match n.uniqueKey s with
    | none => some (none, { n with uniqueKey := Function.update n.uniqueKey s (some k) })
    | some k' => some (some k', n)
  | .loadUniqueKey s => some (n.uniqueKey s, n)
  | .clearUniqueKey s => some ((), { n with uniqueKey := Function.update n.uniqueKey s none })
  | .storeWcBuffer v => some ((), { n with wcBuffer := v })
  | .loadWcBuffer => some (n.wcBuffer, n)
  | .loadTicket s => some (n.ticket s, n)
  | .incTicket s =>
    some (n.ticket s, { n with ticket := Function.update n.ticket s ((n.ticket s + 1) % 2 ^ 32) })
  | .loadCurrent s => some (n.current s, n)
  | .incCurrent s =>
    some ((), { n with current := Function.update n.current s ((n.current s + 1) % 2 ^ 32) })
  | .loadWindow s => some (n.window s, n)
  | .storeWindow s w => some ((), { n with window := Function.update n.window s w })
  | .decWindow s =>
    some ((), { n with window := Function.update n.window s ((2 ^ 32 + n.window s - 1) % 2 ^ 32) })
  | .loadHandover s => some (n.handover s, n)
  | .storeHandover s b => some ((), { n with handover := Function.update n.handover s b })
  | .casWindowStart => some (!n.windowStart, { n with windowStart := true })
  | .clearWindowStart => some ((), { n with windowStart := false })
  | .storeRes b => some ((), { n with res := b })
  | .storeRetValue v => some ((), { n with retValue := v })
  | .loadRes => some (n.res, n)
  | .loadRetValue => some (n.retValue, n)
  | .lock s =>
    if n.mutex s then none else some ((), { n with mutex := Function.update n.mutex s true })
  | .unlock s => some ((), { n with mutex := Function.update n.mutex s false })

end LocalLockNode

/-- Programs over one lock node. -/
abbrev LockProg (α : Type) := Prog LockSig α

/-- A single access. -/
def access (c : LockCmd) : LockProg c.Resp := Prog.cmd (S := LockSig) c

/-- `while(ticket != current) { .. current = node.current.load(); }` -/
def waitTurn (s : Side) (ticket : Nat) : LockProg Unit :=
  Prog.loop (fun _ : Unit => do
    let current ← access (.loadCurrent s)
    if ticket ≠ current then return .inl () else return .inr ()) ()

/-- `if(node.window) { --node.window; if(!node.read_window && !node.write_window)
node.window_start = false; }` -/
def leaveWindow (s : Side) : LockProg Unit := do
  let w ← access (.loadWindow s)
  if w = 0 then return () else do
    access (.decWindow s)
    let r ← access (.loadWindow .read)
    if r ≠ 0 then return () else do
      let w ← access (.loadWindow .write)
      if w ≠ 0 then return () else access .clearWindowStart

/-- `((1UL << 32) + ticket - current) % (1UL << 32)` -/
def queueLength (ticket current : Nat) : Nat := (2 ^ 32 + ticket - current) % 2 ^ 32

/-- `if(!node.window) node.handover = false; return node.handover;` -/
def testWindow (s : Side) : LockProg Bool := do
  let w ← access (.loadWindow s)
  if w = 0 then do
    access (.storeHandover s false)
    access (.loadHandover s)
  else access (.loadHandover s)

/-- What `acquire` does from the turn on: a call whose key is no longer the owner key leaves the
queue and is conflicted, any other call sees whether it is handed over. -/
def takeTurn (s : Side) (k : Key) : LockProg (Bool × Bool) := do
  let uniqueKey ← access (.loadUniqueKey s)
  if uniqueKey ≠ some k then do -- conflict keys
    leaveWindow s
    access (.incCurrent s)
    return (false, true)
  else do
    let handover ← testWindow s
    return (handover, false)

/-- `LocalLockTable::acquire_local_read_lock`: whether the call is handed over, and whether it is
conflicted. -/
def acquireLocalReadLock (k : Key) : LockProg (Bool × Bool) := do
  let uniqueKey ← access (.casUniqueKey .read k)
  if uniqueKey.any (· ≠ k) then return (false, true) else do -- conflict keys
    let ticket ← access (.loadTicket .read)
    let current ← access (.loadCurrent .read)
    if queueLength ticket current > maxHoclHandover then return (false, true) else do
      let ticket ← access (.incTicket .read) -- acquire local lock
      waitTurn .read ticket
      takeTurn .read k

/-- The end of an epoch: `release` drops the owner key when nobody waits behind it. -/
def nextEpoch (s : Side) : LockProg Unit := do
  let handover ← access (.loadHandover s)
  if handover then return () else access (.clearUniqueKey s)

/-- The last part of `release`: leave the window and pass the turn on, under the mutex. -/
def passTurn (s : Side) : LockProg Unit := do
  access (.lock s)
  leaveWindow s
  access (.incCurrent s)
  access (.unlock s)

/-- The winner publishes its result in the lock node, the others take it over. -/
def shareResult (res : Bool) (value : Value) : LockProg (Bool × Value) := do
  let handover ← access (.loadHandover .read)
  if handover then do -- losers accept the ret val from winner
    let res ← access .loadRes
    let value ← access .loadRetValue
    return (res, value)
  else do -- winner
    access (.storeRes res)
    access (.storeRetValue value)
    return (res, value)

/-- Read time window start: the windows are sized by the queues as they stand. -/
def startReadWindow (ticket current : Nat) : LockProg Unit := do
  let handover ← access (.loadHandover .read)
  if handover then return () else do
    let start ← access .casWindowStart
    if start then do
      access (.storeWindow .read (queueLength ticket current))
      access (.lock .write)
      let wCurrent ← access (.loadCurrent .write)
      let wTicket ← access (.loadTicket .write)
      access (.storeWindow .write (queueLength wTicket wCurrent))
      access (.unlock .write)
    else return ()

/-- `LocalLockTable::release_local_read_lock`, from the turn of a call that is not conflicted. -/
def releaseTurnRead (res : Bool) (value : Value) : LockProg (Bool × Value) := do
  let out ← shareResult res value
  let ticket ← access (.loadTicket .read)
  let current ← access (.loadCurrent .read)
  startReadWindow ticket current
  access (.storeHandover .read (decide (ticket ≠ (current + 1) % 2 ^ 32)))
  nextEpoch .read
  passTurn .read
  return out

/-- `LocalLockTable::release_local_read_lock`. -/
def releaseLocalReadLock (acquireRet : Bool × Bool) (res : Bool) (value : Value) :
    LockProg (Bool × Value) :=
  if acquireRet.2 then return (res, value) else releaseTurnRead res value

/-- `LocalLockTable::acquire_local_write_lock`: whether the call is handed over, and whether it is
conflicted. -/
def acquireLocalWriteLock (k : Key) (v : Value) : LockProg (Bool × Bool) := do
  let uniqueKey ← access (.casUniqueKey .write k)
  if uniqueKey.any (· ≠ k) then return (false, true) else do -- conflict keys
    access (.storeWcBuffer v) -- local overwrite (combining)
    let ticket ← access (.incTicket .write) -- acquire local lock
    waitTurn .write ticket
    takeTurn .write k

/-- `LocalLockTable::get_combining_value`: the value to write in place of `v`. -/
def getCombiningValue (k : Key) (v : Value) : LockProg Value := do
  let uniqueKey ← access (.loadUniqueKey .write)
  if uniqueKey = some k then access .loadWcBuffer else return v

/-- Write time window start. The source adds: write_window is for promising in-window insert after
the remote insert, insert after the remote insert is not handover. -/
def startWriteWindow (ticket current : Nat) : LockProg Unit := do
  let handover ← access (.loadHandover .write)
  if handover then return () else do
    let start ← access .casWindowStart
    if start then do
      access (.lock .read)
      let rCurrent ← access (.loadCurrent .read)
      let rTicket ← access (.loadTicket .read)
      access (.storeWindow .read (queueLength rTicket rCurrent))
      access (.unlock .read)
      access (.storeWindow .write (queueLength ticket current))
    else return ()

/-- `LocalLockTable::release_local_write_lock`, from the turn of a call that is not conflicted. -/
def releaseTurnWrite : LockProg Unit := do
  let ticket ← access (.loadTicket .write)
  let current ← access (.loadCurrent .write)
  startWriteWindow ticket current
  access (.storeHandover .write (decide (ticket ≠ (current + 1) % 2 ^ 32)))
  nextEpoch .write
  passTurn .write

/-- `LocalLockTable::release_local_write_lock`. -/
def releaseLocalWriteLock (acquireRet : Bool × Bool) : LockProg Unit :=
  if acquireRet.2 then return () else releaseTurnWrite

end DMTree
