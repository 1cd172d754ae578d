import DMTree.Conc.Exec
import DMTree.Conc.Proofs.LogProofs
import DMTree.Conc.Proofs.OutlineProofs
import DMTree.Proofs.ComputeNodeProofs
import DMTree.Combining

/-!
# Write combining keeps the values of different keys apart under the own key

The invariant ties the buffer of a lock node to its owner: once the owner's epoch has seen a store, the
buffer holds a value that was passed to a write of the owner key.
-/

namespace DMTree

open Conc

variable {hash : Key → Nat} {l : NodeLog hash} {e : NodeEvent} {t : Tid} {k : Key} {v b : Value}
  {n : Nat}

theorem Passed.concat (h : Passed k v l) : Passed k v (l ++ [e]) := by
  obtain ⟨c, t, n, hc⟩ := h
  exact ⟨c, t, n, getElem?_concat hc e⟩

theorem passed_of_lastCall (h : lastCall l t = some (.write k v n)) : Passed k v l := by
  obtain ⟨i, hi⟩ := exists_of_lastCall h
  exact ⟨i, t, n, hi⟩

theorem ValueIntegrity.concat (h : ValueIntegrity l)
    (he : ∀ t k v, e = .act t (.remoteWrite k v) () → Passed k v l) :
    ValueIntegrity (l ++ [e]) := by
  intro j t k v hj
  rcases getElem?_concat_iff.mp hj with hj | ⟨rfl, he'⟩
  · rw [List.take_append_of_le_length (lt_of_getElem? hj).le]
    exact h j t k v hj
  · simpa using he t k v he'

/-- Since the owner key of lock node `i` was installed, a value has been stored. -/
def StoredInEpoch (i : Nat) (l : NodeLog hash) : Prop :=
  lastPos (installsKey i) l < lastPos (storesAny i) l

/-- The invariant of runs of writes. -/
structure IntegrityInv (x : World (nodeClient hash) NodeState Unit) : Prop where
  buffer : ∀ i k, (x.mem.locks i).uniqueKey .write = some k → StoredInEpoch i x.log →
    Passed k (x.mem.locks i).wcBuffer x.log
  done : ValueIntegrity x.log

/-- The discipline of the writers. -/
def integrityDiscipline (hash : Key → Nat) : Discipline (nodeClient hash) NodeState Unit where
  machine := nodeMachine
  guard := writesUnderOwnKey hash
  Inv := IntegrityInv
  Rel t x x' := ∃ e : NodeEvent, x'.log = x.log ++ [e] ∧ e.tid = t
  MayFail _ := True

theorem stable_lastCall {op : NodeOp} :
    (integrityDiscipline hash).Stable t fun x => lastCall x.log t = some op := by
  rintro u x x' hu hi hi' ⟨e, hlog, het⟩ h
  rw [hlog, lastCall_other (by rw [het]; exact hu)]
  exact h

theorem stable_passed : (integrityDiscipline hash).Stable t fun x => Passed k v x.log := by
  rintro u x x' hu hi hi' ⟨e, hlog, het⟩ h
  rw [hlog]
  exact h.concat

/-- The commands that install or clear an owner key, or store. -/
def LockCmd.touchesBuffer : LockCmd → Bool
  | .casUniqueKey .write _ | .clearUniqueKey .write | .storeWcBuffer _ => true
  | _ => false

/-- An access that does not touch the owner key or the buffer leaves both. -/
theorem exec_untouched {m m' : LocalLockNode} {c : LockCmd} {r : c.Resp}
    (hc : c.touchesBuffer = false) (h : m.exec c = some (r, m')) :
    m'.uniqueKey .write = m.uniqueKey .write ∧ m'.wcBuffer = m.wcBuffer := by
  cases c with
  | casUniqueKey s k =>
    cases s with
    | read =>
      simp only [LocalLockNode.exec] at h
      split at h <;> cases h <;> simp
    | write => cases hc
  | clearUniqueKey s =>
    cases s with
    | read => cases h; simp
    | write => cases hc
  | storeWcBuffer v => cases hc
  | lock s =>
    simp only [LocalLockNode.exec] at h
    split at h <;> cases h
    exact ⟨rfl, rfl⟩
  | _ => cases h; exact ⟨rfl, rfl⟩

/-- The events that decide whether a store has been made in the owner's epoch. -/
theorem storedInEpoch_concat {i : Nat} (h1 : installsKey i e = false) (h2 : storesAny i e = false) :
    StoredInEpoch i (l ++ [e]) ↔ StoredInEpoch i l := by
  unfold StoredInEpoch
  rw [lastPos_concat_of_not h1, lastPos_concat_of_not h2]

/-- The invariant over a step that leaves the buffer of lock node `i`. -/
theorem IntegrityInv.buffer_concat {x : World (nodeClient hash) NodeState Unit}
    (hi : IntegrityInv x) {i : Nat} {m : LocalLockNode}
    (hu : m.uniqueKey .write = (x.mem.locks i).uniqueKey .write)
    (hb : m.wcBuffer = (x.mem.locks i).wcBuffer)
    (h1 : installsKey i e = false) (h2 : storesAny i e = false) {k : Key}
    (hk : m.uniqueKey .write = some k) (hs : StoredInEpoch i (x.log ++ [e])) :
    Passed k m.wcBuffer (x.log ++ [e]) := by
  rw [hb]
  exact (hi.buffer i k (hu ▸ hk) ((storedInEpoch_concat h1 h2).mp hs)).concat

theorem installsKey_ne {i j : Nat} (hij : j ≠ i) (c : LockCmd) (r : c.Resp) :
    installsKey j (.act t (.lock i c) r) = false := by
  unfold installsKey
  split
  · next he => cases he; simpa using Ne.symm hij
  · rfl

theorem storesAny_ne {i j : Nat} (hij : j ≠ i) (c : LockCmd) (r : c.Resp) :
    storesAny j (.act t (.lock i c) r) = false := by
  unfold storesAny
  split
  · next he => cases he; simpa using Ne.symm hij
  · rfl

theorem installsKey_untouched {i : Nat} {c : LockCmd} (hc : c.touchesBuffer = false) (r : c.Resp) :
    installsKey i (.act t (.lock i c) r) = false := by
  unfold installsKey
  split
  · next he => cases he; cases hc
  · rfl

theorem storesAny_untouched {i : Nat} {c : LockCmd} (hc : c.touchesBuffer = false) (r : c.Resp) :
    storesAny i (.act t (.lock i c) r) = false := by
  unfold storesAny
  split
  · next he => cases he; cases hc
  · rfl

/-- What an access of a call `write(k, v)` leaves in the buffer of its lock node. -/
theorem IntegrityInv.lock_step {x : World (nodeClient hash) NodeState Unit} (hi : IntegrityInv x)
    {i : Nat} {c : LockCmd} {r : c.Resp} {m : LocalLockNode}
    (hcall : lastCall x.log t = some (.write k v n)) (hc : ∀ w, c = .storeWcBuffer w → w = v)
    (hg : UnderOwnKey x.mem x.log t (.lock i c)) (he : (x.mem.locks i).exec c = some (r, m))
    {k' : Key} (hk : m.uniqueKey .write = some k')
    (hs : StoredInEpoch i (x.log ++ [.act t (.lock i c) r])) :
    Passed k' m.wcBuffer (x.log ++ [.act t (.lock i c) r]) := by
  by_cases hb : c.touchesBuffer = true
  · unfold LockCmd.touchesBuffer at hb
    split at hb
    · next k'' =>
      simp only [LocalLockNode.exec] at he
      split at he
      · -- the key is installed: no store of the new epoch has been made
        cases he
        unfold StoredInEpoch at hs
        rw [lastPos_concat_of (by simp [installsKey]), lastPos_concat_of_not rfl] at hs
        have := lastPos_le (p := storesAny i) (l := x.log)
        omega
      · cases he
        exact hi.buffer_concat rfl rfl rfl rfl hk hs
    · cases he
      simp at hk
    · next w =>
      cases he
      obtain rfl := hc w rfl
      have hown : (x.mem.locks i).uniqueKey .write = some k := by
        simpa [UnderOwnKey, hcall, NodeOp.key] using hg
      obtain rfl : k = k' := Option.some.inj (hown.symm.trans hk)
      exact (passed_of_lastCall hcall).concat
    · cases hb
  · have hb : c.touchesBuffer = false := by simpa using hb
    obtain ⟨h1, h2⟩ := exec_untouched hb he
    exact hi.buffer_concat h1 h2 (installsKey_untouched hb r) (storesAny_untouched hb r) hk hs

/-- A command that stores nothing but `v`. -/
def LockCmd.StoresOnly (v : Value) (c : LockCmd) : Prop := ∀ w, c = .storeWcBuffer w → w = v

/-- An access of a call `write(k, v)` that stores nothing but `v`. -/
theorem integrity_lock_cmd {i : Nat} {c : LockCmd} (hc : c.StoresOnly v) :
    (integrityDiscipline hash).Cmd t (.lock i c) (fun x => lastCall x.log t = some (.write k v n))
      fun _ x => lastCall x.log t = some (.write k v n) := by
  intro x r m hi hcall hg he
  obtain ⟨m', hm, rfl⟩ := exec_lock he
  refine ⟨(), ⟨?_, ?_⟩, ⟨_, rfl, rfl⟩, lastCall_act.trans hcall⟩
  · intro j k' hk hs
    by_cases hji : j = i
    · subst hji
      simp only [Function.update_self] at hk ⊢
      exact hi.lock_step hcall hc hg hm hk hs
    · simp only [Function.update_of_ne hji] at hk ⊢
      exact hi.buffer_concat rfl rfl (installsKey_ne hji c r) (storesAny_ne hji c r) hk hs
  · exact hi.done.concat (by rintro _ _ _ ⟨⟩)

/-- A function of the lock table that stores nothing but `v`. -/
theorem integrity_lock_outline {i : Nat} {α : Type} {p : LockProg α}
    (hp : p.All (LockCmd.StoresOnly v)) :
    Outline (integrityDiscipline hash) t (onLock i p)
      (fun x => lastCall x.log t = some (.write k v n))
      fun _ x => lastCall x.log t = some (.write k v n) := by
  refine Outline.all id (φ := fun c => ∃ d, c = NodeCmd.lock i d ∧ d.StoresOnly v) ?_
    stable_lastCall (fun _ => trivial) ?_
  · exact all_onLock (hp.imp fun c hc => ⟨c, rfl, hc⟩)
  · rintro _ ⟨c, rfl, hc⟩
    exact integrity_lock_cmd hc

/-- The value a call takes over was passed to a write of its key. -/
theorem integrity_sample_outline {i : Nat} :
    Outline (integrityDiscipline hash) t (onLock i (getCombiningValue k b))
      (fun x => lastCall x.log t = some (.write k v n) ∧ Passed k b x.log)
      fun r x => lastCall x.log t = some (.write k v n) ∧ Passed k r x.log := by
  have hS : ∀ b, (integrityDiscipline hash).Stable t fun x =>
      lastCall x.log t = some (.write k v n) ∧ Passed k b x.log :=
    fun b => .and stable_lastCall stable_passed
  simp only [getCombiningValue, onLock_bind, onLock_ite, onLock_pure]
  refine Outline.cmd_bind False.elim (fun _ => hS b) ?_ fun r => ?_
  · rintro x r m hi ⟨hcall, hpass⟩ hg he
    obtain ⟨g, h1, h2, h3⟩ := integrity_lock_cmd (by rintro w ⟨⟩) x r m hi hcall hg he
    exact ⟨g, h1, h2, h3, hpass.concat⟩
  refine Outline.ite (fun _ => Outline.cmd False.elim hS ?_) fun _ => Outline.pure fun x _ hx => hx
  rintro x r m hi ⟨hcall, -⟩ hg he
  obtain ⟨g, h1, h2, h3⟩ := integrity_lock_cmd (by rintro w ⟨⟩) x r m hi hcall hg he
  refine ⟨g, h1, h2, h3, ?_⟩
  obtain ⟨m', hm, -⟩ := exec_lock he
  cases hm
  have hg' : (x.mem.locks i).uniqueKey .write = (lastCall x.log t).map NodeOp.key ∧
      StoredInEpoch i x.log := hg
  rw [hcall] at hg'
  exact (hi.buffer i k hg'.1 hg'.2).concat

/-- `leaf_insert`, as the lock table sees it. -/
theorem integrity_insert_outline (m : Nat) :
    ∀ b, Outline (integrityDiscipline hash) t (combinedInsert hash k m b)
      (fun x => lastCall x.log t = some (.write k v n) ∧ Passed k b x.log)
      fun _ x => lastCall x.log t = some (.write k v n) := by
  induction m with
  | zero =>
    refine fun b => Outline.bind integrity_sample_outline fun r => Outline.cmd False.elim
      (fun _ => stable_lastCall) ?_
    rintro x r' m hi ⟨hcall, hpass⟩ - he
    have hm := exec_remoteWrite he
    subst hm
    refine ⟨(), ⟨?_, ?_⟩, ⟨_, rfl, rfl⟩, lastCall_act.trans hcall⟩
    · exact fun j k' hk hs => hi.buffer_concat rfl rfl rfl rfl hk hs
    · refine hi.done.concat fun t' k' v' he' => ?_
      cases he'
      exact hpass
  | succ m ih => exact fun b => Outline.bind integrity_sample_outline fun r => ih r

theorem acquireLocalWriteLock_storesOnly :
    (acquireLocalWriteLock k v).All (LockCmd.StoresOnly v) := by
  unfold acquireLocalWriteLock waitTurn takeTurn leaveWindow testWindow
  repeat' first
    | exact Prog.all_pure _
    | exact (Prog.all_cmd (S := LockSig) _).mpr (by rintro w ⟨⟩; rfl)
    | exact (Prog.all_cmd (S := LockSig) _).mpr (by rintro w ⟨⟩)
    | apply Prog.All.bind
    | apply Prog.All.ite
    | apply Prog.All.loop
    | intro _

theorem releaseLocalWriteLock_storesOnly (r : Bool × Bool) :
    (releaseLocalWriteLock r).All (LockCmd.StoresOnly v) := by
  unfold releaseLocalWriteLock releaseTurnWrite startWriteWindow nextEpoch passTurn leaveWindow
  repeat' first
    | exact Prog.all_pure _
    | exact (Prog.all_cmd (S := LockSig) _).mpr (by rintro w ⟨⟩)
    | apply Prog.All.bind
    | apply Prog.All.ite
    | intro _

/-- `write(k, v)` -/
theorem integrity_write_outline (m : Nat) :
    Outline (integrityDiscipline hash) t (combinedWrite hash k v m)
      (fun x => lastCall x.log t = some (.write k v n)) fun _ _ => True := by
  unfold combinedWrite
  refine Outline.bind (integrity_lock_outline acquireLocalWriteLock_storesOnly) fun r => ?_
  have hrel : Outline (integrityDiscipline hash) t (onLock (hash k) (releaseLocalWriteLock r))
      (fun x => lastCall x.log t = some (.write k v n)) fun _ _ => True :=
    (integrity_lock_outline (releaseLocalWriteLock_storesOnly r)).post fun _ _ _ _ => trivial
  refine Outline.ite (fun _ => hrel) fun _ => ?_
  refine Outline.bind ((integrity_insert_outline m v).mono fun x _ hx => ?_) fun _ => hrel
  exact ⟨hx, passed_of_lastCall hx⟩

/-- The calls keep the discipline. -/
theorem integrityKeeps (hash : Key → Nat) :
    Keeps (integrityDiscipline hash) (fun _ _ _ => True)
      (fun t op _ x => lastCall x.log t = some op) fun _ _ _ _ _ => True where
  idle_stable _ _ := Discipline.stable_const _
  pre_stable _ _ _ := stable_lastCall
  call := by
    intro t op l x hg hi _
    refine ⟨(), ⟨?_, ?_⟩, ⟨_, rfl, rfl⟩, lastCall_call.trans (if_pos rfl)⟩
    · exact fun j k hk hs => hi.buffer_concat rfl rfl rfl rfl hk hs
    · exact hi.done.concat (by rintro _ _ _ ⟨⟩)
  code := by
    rintro t op l ⟨k, v, n, rfl⟩
    exact Outline.bind (integrity_write_outline n) fun _ => Outline.pure fun _ _ _ => trivial
  ret := by
    intro t op res l x hi _
    refine ⟨(), ⟨?_, ?_⟩, ⟨_, rfl, rfl⟩, trivial⟩
    · exact fun j k hk hs => hi.buffer_concat rfl rfl rfl rfl hk hs
    · exact hi.done.concat (by rintro _ _ _ ⟨⟩)

/-- In every run of concurrent writes that use the buffer under their own key, every value written
remotely under a key was passed to a write of that key. -/
theorem valueIntegrity_of_underOwnKey (hash : Key → Nat) (c : NodeConfig hash)
    (h : Reach nodeMachine (writesUnderOwnKey hash) (nodeInit hash) c) : ValueIntegrity c.log := by
  have hinit : ConfigOk (integrityDiscipline hash) (fun _ _ _ => True) (fun _ _ _ _ _ => True)
      (nodeInit hash) := ⟨(), ⟨nofun, nofun⟩, fun _ => trivial⟩
  obtain ⟨g, hi, -⟩ := (integrityKeeps hash).reach hinit h
  exact hi.done

/-- Calls 0 and 1 are combined while call 2, on another key of the same lock node, is conflicted. -/
def conflictedThird : List (Move (nodeClient fun _ => 0)) :=
  [.call 0 (NodeOp.write (Key.ofNat 1) 1 0)] ++ Move.steps 0 3 ++
    [.call 1 (NodeOp.write (Key.ofNat 1) 2 0)] ++ Move.steps 1 3 ++
    [.call 2 (NodeOp.write (Key.ofNat 2) 3 0)] ++ Move.steps 2 4 ++ Move.steps 0 29 ++
    Move.steps 1 20

/-- The remote write of `v` under `k`. -/
def writesRemote (k : Key) (v : Value) : NodeEvent → Bool
  | .act _ (.remoteWrite k' v') _ => k' == k && v' == v
  | _ => false

/-- A call `write(k, v)` is made. -/
def passesValue (k : Key) (v : Value) : NodeEvent → Bool
  | .call _ (.write k' v' _) => k' == k && v' == v
  | _ => false

/-- The condition is met by a run in which a value is combined and two keys share the lock node. -/
theorem valueIntegrity_of_underOwnKey_conflict :
    ∃ c : NodeConfig fun _ => 0,
      Reach nodeMachine (writesUnderOwnKey fun _ => 0) (nodeInit fun _ => 0) c ∧
      (c.log.any (writesRemote (Key.ofNat 1) 2) && c.log.any (writesRemote (Key.ofNat 2) 3)) = true ∧
      ValueIntegrity c.log := by
  have hev : ((nodeInit fun _ => 0).runIf nodeMachine
      (fun m l t cmd => decide (UnderOwnKey m l t cmd)) conflictedThird).map (fun c =>
        c.log.any (writesRemote (Key.ofNat 1) 2) && c.log.any (writesRemote (Key.ofNat 2) 3)) =
      some true := by decide +kernel
  obtain ⟨c, hrun, hcheck⟩ := Option.map_eq_some_iff.mp hev
  have hreach : Reach nodeMachine (writesUnderOwnKey fun _ => 0) (nodeInit fun _ => 0) c := by
    refine runIf_reach (fun m l t cmd h =>
      of_decide_eq_true (p := UnderOwnKey m l t cmd) h) conflictedThird ?_ hrun
    delta conflictedThird
    simp [writesUnderOwnKey]
  exact ⟨c, hreach, hcheck, valueIntegrity_of_underOwnKey _ c hreach⟩

/-- Call 0 has passed the key comparison when the epoch of its key ends; it stores its value in the
epoch of call 2, which has another key. -/
def storeInWrongEpoch : List (Move (nodeClient fun _ => 0)) :=
  [.call 0 (NodeOp.write (Key.ofNat 1) 1 0)] ++ Move.steps 0 1 ++
    [.call 1 (NodeOp.write (Key.ofNat 1) 2 0)] ++ Move.steps 1 34 ++
    [.call 2 (NodeOp.write (Key.ofNat 2) 3 0)] ++ Move.steps 2 2 ++ Move.steps 0 1 ++
    Move.steps 2 10

/-- Without the condition a value can be written under a key it was never passed for. -/
theorem exists_foreignValue :
    ¬ ∀ c, Reach nodeMachine (writesOfAnyKey fun _ => 0) (nodeInit fun _ => 0) c →
      ValueIntegrity c.log := by
  intro h
  have hev : ((nodeInit fun _ => 0).runIf nodeMachine (fun _ _ _ _ => true) storeInWrongEpoch).map
      (fun c => c.log[48]?.any (writesRemote (Key.ofNat 2) 1) &&
        c.log.all fun e => !passesValue (Key.ofNat 2) 1 e) = some true := by decide +kernel
  obtain ⟨c, hrun, hcheck⟩ := Option.map_eq_some_iff.mp hev
  simp only [Bool.and_eq_true, List.all_eq_true, Bool.not_eq_true'] at hcheck
  obtain ⟨hwrite, hnone⟩ := hcheck
  have hint := h c (runIf_reach (fun _ _ _ _ _ => trivial) storeInWrongEpoch
    (by delta storeInWrongEpoch; simp [writesOfAnyKey]) hrun)
  obtain ⟨e, he, hwrite⟩ := (Option.any_eq_true _ _).mp hwrite
  obtain ⟨t, rfl⟩ : ∃ t, e = .act t (.remoteWrite (Key.ofNat 2) 1) () := by
    unfold writesRemote at hwrite
    split at hwrite
    · next t k' v' r =>
      obtain ⟨rfl, rfl⟩ : k' = Key.ofNat 2 ∧ v' = 1 := by simpa using hwrite
      exact ⟨t, rfl⟩
    · cases hwrite
  obtain ⟨j, u, n, hj⟩ := hint 48 t _ _ he
  have hmem := List.mem_of_mem_take (List.mem_of_getElem? hj)
  simpa [passesValue] using hnone _ hmem

end DMTree
