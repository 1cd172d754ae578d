import DMTree.Conc.Exec
import DMTree.Conc.Proofs.LogProofs
import DMTree.Conc.Proofs.OutlineProofs
import DMTree.Proofs.ComputeNodeProofs
import DMTree.Proofs.LockQueueProofs
import DMTree.Delegation

/-!
# Delegated reads are fresh when they queue up before the lookup

A published result is the remote value at its lookup. The read queue keeps `read_handover` with the
call that has the turn, so that a call that is handed over really takes over a published result.
-/

namespace DMTree

open Conc

variable {hash : Key → Nat} {k : Key} {l : NodeLog hash} {e : NodeEvent} {t : Tid} {i a : Nat}
  {v : Value}

/-! ## Histories -/

theorem remoteVal_concat (h : ∀ t v, e ≠ .act t (.remoteWrite k v) ()) :
    remoteVal k (l ++ [e]) = remoteVal k l := by
  simp only [remoteVal, List.foldl_append, List.foldl_cons, List.foldl_nil]
  split
  · next t k' v r =>
    rw [if_neg]
    rintro rfl
    exact h t v rfl
  · rfl

theorem remoteVal_write {k' : Key} :
    remoteVal k (l ++ [.act t (.remoteWrite k' v) ()]) = if k' = k then v else remoteVal k l := by
  simp [remoteVal, List.foldl_append]

theorem publishedAt_concat_of_not (h : publishes i e = false) :
    publishedAt i (l ++ [e]) = publishedAt i l := by
  unfold publishedAt
  rw [lastPos_concat_of_not h]
  have hle := lastPos_le (p := publishes i) (l := l)
  rcases Nat.eq_zero_or_pos (lastPos (publishes i) l) with h0 | h0
  · simp only [h0, List.take_zero, lastPos_nil]
    split <;> split <;> rfl
  · rw [List.getElem?_append_left (by omega), List.take_append_of_le_length hle]

theorem publishedAt_concat (h : publishes i e = true) :
    publishedAt i (l ++ [e]) = lastPos (looksUp e.tid) (l ++ [e]) := by
  unfold publishedAt
  rw [lastPos_concat_of h, Nat.add_sub_cancel, getElem?_concat_last,
    List.take_of_length_le (by simp)]

theorem publishedAt_le : publishedAt i l ≤ l.length := by
  unfold publishedAt
  split
  · exact lastPos_le.trans (List.length_take_le' _ _)
  · exact Nat.zero_le _

theorem FreshReads.concat (h : FreshReads k l)
    (he : ∀ t value v, e = .ret t (.read k value) (some v) →
      ∃ j ≤ l.length, lastPos (Event.isCall t) l ≤ j ∧ remoteVal k (l.take j) = v) :
    FreshReads k (l ++ [e]) := by
  intro q t value v hq
  rcases getElem?_concat_iff.mp hq with hq | ⟨rfl, he'⟩
  · obtain ⟨j, hj, h1, h2⟩ := h q t value v hq
    have hlt := lt_of_getElem? hq
    refine ⟨j, hj, fun c op hc hcq => ?_, ?_⟩
    · rcases getElem?_concat_iff.mp hc with hc | ⟨rfl, -⟩
      · exact h1 c op hc hcq
      · omega
    · rw [List.take_append_of_le_length (by omega)]
      exact h2
  · obtain ⟨j, hj, h1, h2⟩ := he t value v he'
    refine ⟨j, hj, fun c op hc hcq => ?_, ?_⟩
    · rcases getElem?_concat_iff.mp hc with hc | ⟨rfl, -⟩
      · exact (lt_lastPos (p := Event.isCall t) hc (by simp [Event.isCall])).trans_le h1
      · omega
    · rw [List.take_append_of_le_length hj]
      exact h2

/-! ## The invariant -/

abbrev DelegWorld (hash : Key → Nat) := World (nodeClient hash) NodeState Tickets

/-- The invariant of runs whose only reads are reads of `k`; the ghost state is the read queue. -/
structure DelegInv (hash : Key → Nat) (k : Key) (x : DelegWorld hash) : Prop
    extends QueueAt .read (x.mem.locks (hash k)) x.ghost where
  remote : x.mem.remote k = remoteVal k x.log
  shared : 0 < publishedAt (hash k) x.log → (x.mem.locks (hash k)).retValue =
    remoteVal k (x.log.take (publishedAt (hash k) x.log - 1))
  done : FreshReads k x.log

/-- What a step of `t` leaves to the others: their tickets, and `read_handover` to the one that has
the turn. -/
structure DelegRel (hash : Key → Nat) (k : Key) (t : Tid) (x x' : DelegWorld hash) : Prop where
  log : ∃ e : NodeEvent, x'.log = x.log ++ [e] ∧ e.tid = t
  tick : ∀ u, u ≠ t → x'.ghost.tick u = x.ghost.tick u
  turn : ∀ u, u ≠ t → x.ghost.turn = some u → x'.ghost.turn = some u ∧
    (x'.mem.locks (hash k)).handover .read = (x.mem.locks (hash k)).handover .read
  granted : ∀ u, u ≠ t → x'.ghost.turn = some u → x.ghost.turn = some u

/-- The discipline of the readers. -/
def delegDiscipline (hash : Key → Nat) (k : Key) : Discipline (nodeClient hash) NodeState Tickets where
  machine := nodeMachine
  guard := readsInTime hash k
  Inv := DelegInv hash k
  Rel := DelegRel hash k
  MayFail _ := True

/-! ## What a thread knows -/

/-- An event that leaves the last call, lookup and read ticket of a thread. -/
structure CalmFor (i : Nat) (t : Tid) (e : NodeEvent) : Prop where
  call : Event.isCall t e = false
  lookup : looksUp t e = false
  ticket : takesTicket .read i t e = false

theorem calmFor_other (h : e.tid ≠ t) : CalmFor i t e := by
  refine ⟨?_, ?_, ?_⟩
  · cases e <;> simp_all [Event.isCall, Event.tid]
  · unfold looksUp
    split
    · simp_all [Event.tid]
    · rfl
  · unfold takesTicket
    split
    · simp_all [Event.tid]
    · rfl

/-- A fact about the history that only calls, lookups and tickets of `t` can destroy. -/
def Lasting (i : Nat) (t : Tid) (L : NodeLog hash → Prop) : Prop :=
  ∀ l e, CalmFor i t e → L l → L (l ++ [e])

/-- Thread `t` has made its last call at `a`. -/
def Called (t : Tid) (a : Nat) (l : NodeLog hash) : Prop := lastPos (Event.isCall t) l = a

/-- ... and has taken a read ticket in it. -/
def Ticketed (i : Nat) (t : Tid) (a : Nat) (l : NodeLog hash) : Prop :=
  Called t a l ∧ a < lastPos (takesTicket .read i t) l

/-- ... and has looked up `v` in it. -/
def Looked (k : Key) (t : Tid) (a : Nat) (v : Value) (l : NodeLog hash) : Prop :=
  Called t a l ∧ ∃ b, lastPos (looksUp t) l = b + 1 ∧ a ≤ b ∧ v = remoteVal k (l.take b)

/-- `v` was the remote value at an instant since the last call of `t`. -/
def FreshVal (k : Key) (t : Tid) (a : Nat) (v : Value) (l : NodeLog hash) : Prop :=
  Called t a l ∧ ∃ j ≤ l.length, a ≤ j ∧ remoteVal k (l.take j) = v

theorem lasting_called : Lasting i t fun l : NodeLog hash => Called t a l := by
  intro l e he h
  unfold Called
  rw [lastPos_concat_of_not he.call]
  exact h

theorem lasting_ticketed : Lasting i t fun l : NodeLog hash => Ticketed i t a l := by
  intro l e he h
  refine ⟨lasting_called l e he h.1, ?_⟩
  rw [lastPos_concat_of_not he.ticket]
  exact h.2

theorem lasting_looked : Lasting i t fun l : NodeLog hash => Looked k t a v l := by
  rintro l e he ⟨h, b, hb, hab, hv⟩
  have hle := lastPos_le (p := looksUp t) (l := l)
  refine ⟨lasting_called l e he h, b, ?_, hab, ?_⟩
  · rw [lastPos_concat_of_not he.lookup]
    exact hb
  · rw [List.take_append_of_le_length (by omega)]
    exact hv

theorem FreshVal.concat (h : FreshVal k t a v l) (he : Event.isCall t e = false) :
    FreshVal k t a v (l ++ [e]) := by
  obtain ⟨h, j, hj, haj, hv⟩ := h
  refine ⟨?_, j, ?_, haj, ?_⟩
  · unfold Called
    rw [lastPos_concat_of_not he]
    exact h
  · simp only [List.length_append]
    omega
  · rw [List.take_append_of_le_length hj]
    exact hv

theorem lasting_freshVal : Lasting i t fun l : NodeLog hash => FreshVal k t a v l :=
  fun _ _ he h => h.concat he.call

theorem Looked.fresh (h : Looked k t a v l) : FreshVal k t a v l := by
  obtain ⟨h, b, hb, hab, hv⟩ := h
  have hle := lastPos_le (p := looksUp t) (l := l)
  exact ⟨h, b, by omega, hab, hv.symm⟩

/-- Thread `t` has no read ticket. -/
def AwayR (t : Tid) (x : DelegWorld hash) : Prop := x.ghost.tick t = none

/-- Thread `t` waits with ticket `c`. -/
def WaitsR (t : Tid) (c : Nat) (x : DelegWorld hash) : Prop :=
  x.ghost.tick t = some c ∧ x.ghost.turn ≠ some t

/-- Thread `t` has the turn, and `read_handover` is `h`. -/
def TurnR (hash : Key → Nat) (k : Key) (t : Tid) (h : Bool) (x : DelegWorld hash) : Prop :=
  x.ghost.turn = some t ∧ (x.mem.locks (hash k)).handover .read = h

/-- An assertion about the queue and `read_handover` that the steps of others keep. -/
structure FramedR (hash : Key → Nat) (k : Key) (t : Tid) (F : DelegWorld hash → Prop) : Prop where
  stable : (delegDiscipline hash k).Stable t F
  frame : ∀ x m l, (m.locks (hash k)).handover .read = (x.mem.locks (hash k)).handover .read →
    F x → F ⟨m, l, x.ghost⟩

theorem framedR_away : FramedR hash k t (AwayR t) where
  stable := fun _ _ _ hu _ _ hr h => (hr.tick t (Ne.symm hu)).trans h
  frame := fun _ _ _ _ h => h

theorem framedR_waits {c : Nat} : FramedR hash k t (WaitsR t c) where
  stable := fun _ _ _ hu _ _ hr h =>
    ⟨(hr.tick t (Ne.symm hu)).trans h.1, fun h' => h.2 (hr.granted t (Ne.symm hu) h')⟩
  frame := fun _ _ _ _ h => h

theorem framedR_turn {h : Bool} : FramedR hash k t (TurnR hash k t h) where
  stable := by
    intro u x x' hu _ _ hr ht
    obtain ⟨h1, h2⟩ := hr.turn t (Ne.symm hu) ht.1
    exact ⟨h1, h2.trans ht.2⟩
  frame := fun _ _ _ hh h => ⟨h.1, hh.trans h.2⟩

theorem stable_lasting {L : NodeLog hash → Prop} (hL : Lasting (hash k) t L) :
    (delegDiscipline hash k).Stable t fun x => L x.log := by
  intro u x x' hu hi hi' hr h
  obtain ⟨e, hlog, het⟩ := hr.log
  simp only [hlog]
  exact hL _ e (calmFor_other (by rw [het]; exact hu)) h

theorem FramedR.stable_and {L : NodeLog hash → Prop} {F : DelegWorld hash → Prop}
    (hF : FramedR hash k t F) (hL : Lasting (hash k) t L) :
    (delegDiscipline hash k).Stable t fun x => L x.log ∧ F x :=
  .and (stable_lasting hL) hF.stable

/-! ## Steps -/

/-- The fields of a lock node that the read queue is about. -/
structure SameReads (n n' : LocalLockNode) : Prop where
  ticket : n'.ticket .read = n.ticket .read
  current : n'.current .read = n.current .read
  handover : n'.handover .read = n.handover .read
  retValue : n'.retValue = n.retValue

/-- A step that neither publishes a result nor returns keeps what is published. -/
theorem DelegInv.shared_concat {x : DelegWorld hash} (hi : DelegInv hash k x) {n : LocalLockNode}
    (hn : n.retValue = (x.mem.locks (hash k)).retValue) (he : publishes (hash k) e = false)
    (hp : 0 < publishedAt (hash k) (x.log ++ [e])) :
    n.retValue = remoteVal k ((x.log ++ [e]).take (publishedAt (hash k) (x.log ++ [e]) - 1)) := by
  rw [publishedAt_concat_of_not he] at hp ⊢
  have hle := publishedAt_le (i := hash k) (l := x.log)
  rw [hn, hi.shared hp, List.take_append_of_le_length (by omega)]

/-- A step that leaves the read queue alone. -/
theorem neutral_step {x : DelegWorld hash} {m : NodeState} (hi : DelegInv hash k x)
    (he : publishes (hash k) e = false) (hr : ∀ u op res, e ≠ .ret u op res) (het : e.tid = t)
    (hs : SameReads (x.mem.locks (hash k)) (m.locks (hash k)))
    (hm : m.remote k = remoteVal k (x.log ++ [e])) :
    DelegInv hash k ⟨m, x.log ++ [e], x.ghost⟩ ∧ DelegRel hash k t x ⟨m, x.log ++ [e], x.ghost⟩ := by
  constructor
  · exact { hi.toQueueAt.same hs.ticket hs.current with
            remote := hm
            shared := hi.shared_concat hs.retValue he
            done := hi.done.concat fun t value v h => absurd h (hr t _ _) }
  · exact { log := ⟨e, rfl, het⟩, tick := fun _ _ => rfl,
            turn := fun u _ h => ⟨h, hs.handover⟩, granted := fun _ _ h => h }

/-- The accesses that leave the read queue alone. -/
def LockCmd.sparesReads : LockCmd → Bool
  | .incTicket .read | .incCurrent .read | .storeHandover .read _ | .storeRetValue _ => false
  | _ => true

theorem exec_sparesReads {n n' : LocalLockNode} {c : LockCmd} {r : c.Resp}
    (hc : c.sparesReads = true) (h : n.exec c = some (r, n')) : SameReads n n' := by
  cases c with
  | casUniqueKey s k =>
    simp only [LocalLockNode.exec] at h
    split at h <;> cases h <;> exact ⟨rfl, rfl, rfl, rfl⟩
  | incTicket s =>
    cases s with
    | read => cases hc
    | write => cases h; exact ⟨by simp, rfl, rfl, rfl⟩
  | incCurrent s =>
    cases s with
    | read => cases hc
    | write => cases h; exact ⟨rfl, by simp, rfl, rfl⟩
  | storeHandover s b =>
    cases s with
    | read => cases hc
    | write => cases h; exact ⟨rfl, rfl, by simp, rfl⟩
  | storeRetValue v => cases hc
  | lock s =>
    simp only [LocalLockNode.exec] at h
    split at h <;> cases h
    exact ⟨rfl, rfl, rfl, rfl⟩
  | _ => cases h; exact ⟨rfl, rfl, rfl, rfl⟩

theorem publishes_sparesReads {c : LockCmd} {j : Nat} (hc : c.sparesReads = true) (r : c.Resp) :
    publishes i (.act t (.lock j c) r) = false := by
  unfold publishes
  split
  · next he => cases he; cases hc
  · rfl

theorem calmFor_sparesReads {c : LockCmd} {j : Nat} (hc : c.sparesReads = true) (r : c.Resp) :
    CalmFor i t (.act t (.lock j c) r) := by
  refine ⟨rfl, rfl, ?_⟩
  unfold takesTicket
  split
  · next u j' s' r' he =>
    cases he
    cases s' with
    | read => cases hc
    | write => simp
  · rfl

section Neutral

variable {L : NodeLog hash → Prop} {F : DelegWorld hash → Prop} {α : Type}

theorem neutral_cmd (hF : FramedR hash k t F) (hL : Lasting (hash k) t L) {c : LockCmd} {j : Nat}
    (hc : c.sparesReads = true) :
    (delegDiscipline hash k).Cmd t (.lock j c) (fun x => L x.log ∧ F x) fun _ x => L x.log ∧ F x := by
  rintro x r m hi ⟨hl, hf⟩ - he
  obtain ⟨n', hn, rfl⟩ := exec_lock he
  have hs : SameReads (x.mem.locks (hash k)) (Function.update x.mem.locks j n' (hash k)) := by
    by_cases hj : hash k = j
    · subst hj
      simpa using exec_sparesReads hc hn
    · rw [Function.update_of_ne hj]
      exact ⟨rfl, rfl, rfl, rfl⟩
  have hstep := neutral_step (e := .act t (.lock j c) r)
    (m := { x.mem with locks := Function.update x.mem.locks j n' }) hi
    (publishes_sparesReads hc r) (by rintro _ _ _ ⟨⟩) rfl hs
    (by rw [remoteVal_concat (by rintro _ _ ⟨⟩)]; exact hi.remote)
  exact ⟨x.ghost, hstep.1, hstep.2, hL _ _ (calmFor_sparesReads hc r) hl,
    hF.frame _ _ _ hs.handover hf⟩

/-- A function of the lock table that leaves the read queue alone. -/
theorem neutral_outline (hF : FramedR hash k t F) (hL : Lasting (hash k) t L) {p : LockProg α}
    {j : Nat} (hp : p.All fun c : LockCmd => c.sparesReads = true) :
    Outline (delegDiscipline hash k) t (onLock j p) (fun x => L x.log ∧ F x)
      fun _ x => L x.log ∧ F x := by
  refine Outline.all id (φ := fun c => ∃ d, c = NodeCmd.lock j d ∧ d.sparesReads = true) ?_
    (hF.stable_and hL) (fun _ => trivial) ?_
  · exact all_onLock (hp.imp fun c hc => ⟨c, rfl, hc⟩)
  · rintro _ ⟨c, rfl, hc⟩
    exact neutral_cmd hF hL hc

/-- A remote write. -/
theorem remoteWrite_cmd (hF : FramedR hash k t F) (hL : Lasting (hash k) t L) {k' : Key} :
    (delegDiscipline hash k).Cmd t (.remoteWrite k' v) (fun x => L x.log ∧ F x)
      fun _ x => L x.log ∧ F x := by
  rintro x r m hi ⟨hl, hf⟩ - he
  have hm := exec_remoteWrite he
  subst hm
  have hstep := neutral_step (e := .act t (.remoteWrite k' v) r)
    (m := { x.mem with remote := Function.update x.mem.remote k' v }) hi rfl (by rintro _ _ _ ⟨⟩) rfl
    ⟨rfl, rfl, rfl, rfl⟩ ?_
  · exact ⟨x.ghost, hstep.1, hstep.2, hL _ _ ⟨rfl, rfl, rfl⟩ hl, hF.frame _ _ _ rfl hf⟩
  · change Function.update x.mem.remote k' v k = _
    rw [remoteVal_write, ← hi.remote, Function.update_apply]
    simp only [eq_comm]

end Neutral

/-! ## The queue -/

section Queue

variable {L : NodeLog hash → Prop} {c : Nat} {h : Bool}

theorem incTicketRead_cmd :
    (delegDiscipline hash k).Cmd t (.lock (hash k) (.incTicket .read))
      (fun x => Called t a x.log ∧ AwayR t x)
      fun r x => ∃ c : Nat, r = c % 2 ^ 32 ∧ Ticketed (hash k) t a x.log ∧ WaitsR t c x := by
  rintro x r m hi ⟨hl, ht⟩ hg he
  obtain ⟨n', hn, rfl⟩ := exec_lock he
  cases hn
  have hcalled : Called t a (x.log ++ [.act t (.lock (hash k) (.incTicket .read))
      ((x.mem.locks (hash k)).ticket .read)]) := by
    unfold Called
    rw [lastPos_concat_of_not rfl]
    exact hl
  refine ⟨x.ghost.take t, ?_, ?_, x.ghost.next, hi.ticket, ⟨hcalled, ?_⟩, ?_,
    hi.toQueueAt.not_turn ht⟩
  · have hq := hi.toQueueAt.take ht hg
    refine { (?_ : QueueAt _ _ _) with remote := ?_, shared := ?_, done := ?_ }
    · simpa using hq
    · rw [remoteVal_concat (by rintro _ _ ⟨⟩)]
      exact hi.remote
    · refine hi.shared_concat ?_ rfl
      simp
    · exact hi.done.concat (by rintro _ _ _ ⟨⟩)
  · refine { log := ⟨_, rfl, rfl⟩, tick := fun u hu => ?_, granted := fun _ _ h => h,
             turn := fun u hu h => by simp [Tickets.take, h] }
    simp [Tickets.take, Function.update_of_ne hu]
  · rw [lastPos_concat_of (by simp [takesTicket])]
    have := lastPos_le (p := Event.isCall t) (l := x.log)
    rw [hl] at this
    omega
  · simp [Tickets.take]

theorem loadCurrentRead_cmd (hL : Lasting (hash k) t L) :
    (delegDiscipline hash k).Cmd t (.lock (hash k) (.loadCurrent .read))
      (fun x => L x.log ∧ WaitsR t c x)
      fun r x => L x.log ∧ if c % 2 ^ 32 = r then ∃ h, TurnR hash k t h x else WaitsR t c x := by
  rintro x r m hi ⟨hl, ht⟩ hg he
  obtain ⟨g, h1, h2, h3, h4⟩ := neutral_cmd framedR_waits hL rfl x r m hi ⟨hl, ht⟩ hg he
  obtain ⟨n', hn, rfl⟩ := exec_lock he
  cases hn
  have hsame : Function.update x.mem.locks (hash k) (x.mem.locks (hash k)) = x.mem.locks :=
    Function.update_eq_self _ _
  simp only [hsame] at h1 h2 h3 h4 ⊢
  split
  · next heq =>
    have hstep := neutral_step (t := t) (e := .act t (.lock (hash k) (.loadCurrent .read))
        ((x.mem.locks (hash k)).current .read)) (m := x.mem) hi rfl (by rintro _ _ _ ⟨⟩) rfl
      ⟨rfl, rfl, rfl, rfl⟩ (by rw [remoteVal_concat (by rintro _ _ ⟨⟩)]; exact hi.remote)
    have hcur : c = x.ghost.cur := hi.toQueueAt.eq_cur ht.1 heq
    have hno := hi.toQueueAt.turn_none (hcur ▸ ht.1) ht.2
    refine ⟨x.ghost.grant t, ?_, ?_, h3, _, rfl, rfl⟩
    · exact { hi.toQueueAt.grant (hcur ▸ ht.1) with
              remote := hstep.1.remote, shared := hstep.1.shared, done := hstep.1.done }
    · refine { log := ⟨_, rfl, rfl⟩, tick := fun _ _ => rfl, turn := fun u hu h => ?_,
               granted := fun u hu h => ?_ }
      · rw [hno] at h; cases h
      · exact absurd (Option.some.inj h).symm hu
  · exact ⟨g, h1, h2, h3, h4⟩

theorem waitTurnRead_outline (hL : Lasting (hash k) t L) :
    Outline (delegDiscipline hash k) t (onLock (hash k) (waitTurn .read (c % 2 ^ 32)))
      (fun x => L x.log ∧ WaitsR t c x) fun _ x => L x.log ∧ ∃ h, TurnR hash k t h x := by
  simp only [waitTurn, onLock_loop, onLock_bind, onLock_ite, onLock_pure]
  refine Outline.loop id (J := fun _ x => L x.log ∧ WaitsR t c x) (fun _ _ h => h)
    (fun _ => framedR_waits.stable_and hL) fun _ => ?_
  refine Outline.cmd_bind False.elim (fun r => ?_) (loadCurrentRead_cmd hL) fun r => ?_
  · split
    · exact .and (stable_lasting hL) (.exists fun _ => framedR_turn.stable)
    · exact framedR_waits.stable_and hL
  · refine Outline.ite (fun hne => Outline.pure fun x _ hx => ?_)
      fun heq => Outline.pure fun x _ hx => ?_
    · rwa [if_neg hne] at hx
    · rwa [if_pos (not_not.mp heq)] at hx

/-- Passing the turn on. -/
theorem leaveRead_outline (hL : Lasting (hash k) t L) :
    Outline (delegDiscipline hash k) t (Prog.cmd (S := NodeSig) (.lock (hash k) (.incCurrent .read)))
      (fun x => L x.log ∧ TurnR hash k t h x) fun _ x => L x.log ∧ AwayR t x := by
  refine Outline.cmd False.elim (fun _ => framedR_away.stable_and hL) ?_
  rintro x r m hi ⟨hl, ht⟩ - he
  obtain ⟨n', hn, rfl⟩ := exec_lock he
  cases hn
  refine ⟨x.ghost.leave t, ?_, ?_, hL _ _ ⟨rfl, rfl, rfl⟩ hl, ?_⟩
  · have hq := hi.toQueueAt.leave ht.1
    refine { (?_ : QueueAt _ _ _) with remote := ?_, shared := ?_, done := ?_ }
    · simpa using hq
    · rw [remoteVal_concat (by rintro _ _ ⟨⟩)]
      exact hi.remote
    · refine hi.shared_concat ?_ rfl
      simp
    · exact hi.done.concat (by rintro _ _ _ ⟨⟩)
  · refine { log := ⟨_, rfl, rfl⟩, tick := fun u hu => ?_, turn := ?_, granted := ?_ }
    · simp [Tickets.leave, Function.update_of_ne hu]
    · intro u hu hturn
      rw [ht.1] at hturn
      exact absurd (Option.some.inj hturn).symm hu
    · rintro u - ⟨⟩
  · simp [AwayR, Tickets.leave]

/-- The one that has the turn sets `read_handover`. -/
theorem storeHandoverRead_cmd (hL : Lasting (hash k) t L) {b : Bool} :
    (delegDiscipline hash k).Cmd t (.lock (hash k) (.storeHandover .read b))
      (fun x => L x.log ∧ TurnR hash k t h x) fun _ x => L x.log ∧ TurnR hash k t b x := by
  rintro x r m hi ⟨hl, ht⟩ - he
  obtain ⟨n', hn, rfl⟩ := exec_lock he
  cases hn
  refine ⟨x.ghost, ?_, ?_, hL _ _ ⟨rfl, rfl, rfl⟩ hl, ht.1, by simp⟩
  · refine { hi.toQueueAt.same ?_ ?_ with remote := ?_, shared := ?_, done := ?_ }
    · simp
    · simp
    · rw [remoteVal_concat (by rintro _ _ ⟨⟩)]
      exact hi.remote
    · refine hi.shared_concat ?_ rfl
      simp
    · exact hi.done.concat (by rintro _ _ _ ⟨⟩)
  · refine { log := ⟨_, rfl, rfl⟩, tick := fun _ _ => rfl, turn := ?_, granted := fun _ _ h => h }
    intro u hu hturn
    rw [ht.1] at hturn
    exact absurd (Option.some.inj hturn).symm hu

/-- The one that has the turn reads `read_handover`. -/
theorem loadHandoverRead_cmd (hL : Lasting (hash k) t L) :
    (delegDiscipline hash k).Cmd t (.lock (hash k) (.loadHandover .read))
      (fun x => L x.log ∧ TurnR hash k t h x)
      fun r x => h = r ∧ L x.log ∧ TurnR hash k t h x := by
  rintro x r m hi ⟨hl, ht⟩ hg he
  obtain ⟨g, h1, h2, h3⟩ := neutral_cmd framedR_turn hL rfl x r m hi ⟨hl, ht⟩ hg he
  obtain ⟨n', hn, rfl⟩ := exec_lock he
  cases hn
  exact ⟨g, h1, h2, ht.2.symm, h3⟩

end Queue

/-! ## Calls -/

section Calls

variable {L : NodeLog hash → Prop} {h : Bool} {value : Value}

theorem leaveWindow_sparesReads (s : Side) :
    (leaveWindow s).All fun c : LockCmd => c.sparesReads = true := by
  unfold leaveWindow
  repeat' first
    | exact Prog.all_pure _
    | exact (Prog.all_cmd (S := LockSig) _).mpr rfl
    | apply Prog.All.bind
    | apply Prog.All.ite
    | intro _

theorem startReadWindow_sparesReads (ticket current : Nat) :
    (startReadWindow ticket current).All fun c : LockCmd => c.sparesReads = true := by
  unfold startReadWindow
  repeat' first
    | exact Prog.all_pure _
    | exact (Prog.all_cmd (S := LockSig) _).mpr rfl
    | apply Prog.All.bind
    | apply Prog.All.ite
    | intro _

theorem nextEpoch_sparesReads (s : Side) :
    (nextEpoch s).All fun c : LockCmd => c.sparesReads = true := by
  unfold nextEpoch
  repeat' first
    | exact Prog.all_pure _
    | exact (Prog.all_cmd (S := LockSig) _).mpr rfl
    | apply Prog.All.bind
    | apply Prog.All.ite
    | intro _

/-- What a read knows after `acquire`. -/
def AcquiredR (hash : Key → Nat) (k : Key) (t : Tid) (a : Nat) (r : Bool × Bool)
    (x : DelegWorld hash) : Prop :=
  if r.2 then Called t a x.log ∧ AwayR t x
  else Ticketed (hash k) t a x.log ∧ TurnR hash k t r.1 x

theorem testWindowRead_outline (hL : Lasting (hash k) t L) :
    Outline (delegDiscipline hash k) t (onLock (hash k) (testWindow .read))
      (fun x => L x.log ∧ TurnR hash k t h x) fun r x => L x.log ∧ TurnR hash k t r x := by
  have hload : ∀ h, Outline (delegDiscipline hash k) t (onLock (hash k) (access (.loadHandover .read)))
      (fun x => L x.log ∧ TurnR hash k t h x) fun r x => L x.log ∧ TurnR hash k t r x := by
    intro h
    refine Outline.cmd False.elim (fun r => framedR_turn.stable_and hL) fun x r m hi hx hg he => ?_
    obtain ⟨g, h1, h2, rfl, h4⟩ := loadHandoverRead_cmd hL x r m hi hx hg he
    exact ⟨g, h1, h2, h4⟩
  simp only [testWindow, onLock_bind, onLock_ite]
  refine Outline.cmd_bind False.elim (fun _ => framedR_turn.stable_and hL) (neutral_cmd framedR_turn hL rfl)
    fun w => Outline.ite (fun _ => ?_) fun _ => hload h
  exact Outline.cmd_bind False.elim (fun _ => framedR_turn.stable_and hL) (storeHandoverRead_cmd hL)
    fun _ => hload false

theorem takeTurnRead_outline :
    Outline (delegDiscipline hash k) t (onLock (hash k) (takeTurn .read k))
      (fun x => Ticketed (hash k) t a x.log ∧ ∃ h, TurnR hash k t h x)
      (AcquiredR hash k t a) := by
  refine Outline.mono (R := fun x => ∃ h, Ticketed (hash k) t a x.log ∧ TurnR hash k t h x)
    (Outline.of_exists fun h => ?_) fun x _ ⟨hl, h, ht⟩ => ⟨h, hl, ht⟩
  simp only [takeTurn, onLock_bind, onLock_ite, onLock_pure]
  refine Outline.cmd_bind False.elim (fun _ => framedR_turn.stable_and lasting_ticketed)
    (neutral_cmd framedR_turn lasting_ticketed rfl) fun _ => Outline.ite (fun _ => ?_) fun _ => ?_
  · refine Outline.bind (neutral_outline framedR_turn lasting_ticketed
      (leaveWindow_sparesReads .read)) fun _ => ?_
    refine Outline.bind (leaveRead_outline lasting_ticketed) fun _ => Outline.pure fun x _ hx => ?_
    exact ⟨hx.1.1, hx.2⟩
  · exact Outline.bind (testWindowRead_outline lasting_ticketed) fun r =>
      Outline.pure fun x _ hx => hx

/-- `acquire_local_read_lock` -/
theorem acquireLocalReadLock_outline :
    Outline (delegDiscipline hash k) t (onLock (hash k) (acquireLocalReadLock k))
      (fun x => Called t a x.log ∧ AwayR t x) (AcquiredR hash k t a) := by
  have hS : (delegDiscipline hash k).Stable t fun x => Called t a x.log ∧ AwayR t x :=
    framedR_away.stable_and lasting_called
  have hN : ∀ c : LockCmd, c.sparesReads = true → (delegDiscipline hash k).Cmd t (.lock (hash k) c)
      (fun x => Called t a x.log ∧ AwayR t x) fun _ x => Called t a x.log ∧ AwayR t x :=
    fun c hc => neutral_cmd framedR_away lasting_called hc
  simp only [acquireLocalReadLock, onLock_bind, onLock_ite, onLock_pure]
  refine Outline.cmd_bind False.elim (fun _ => hS) (hN _ rfl) fun r =>
    Outline.ite (fun _ => Outline.pure fun x _ hx => hx) fun _ => ?_
  refine Outline.cmd_bind False.elim (fun _ => hS) (hN _ rfl) fun _ => ?_
  refine Outline.cmd_bind False.elim (fun _ => hS) (hN _ rfl) fun _ =>
    Outline.ite (fun _ => Outline.pure fun x _ hx => hx) fun _ => ?_
  refine Outline.cmd_bind False.elim (fun r => .exists fun c => .and (Discipline.stable_const _)
    (framedR_waits.stable_and lasting_ticketed)) incTicketRead_cmd fun r =>
      Outline.of_exists fun c => ?_
  refine Outline.of_fact (fun x _ hx => hx.1) fun hr => ?_
  subst hr
  refine Outline.mono ?_ fun x _ hx => hx.2
  exact Outline.bind (waitTurnRead_outline lasting_ticketed) fun _ => takeTurnRead_outline

/-- A read that is handed over takes over a result that was looked up after it had queued up. -/
theorem loadRetValue_cmd :
    (delegDiscipline hash k).Cmd t (.lock (hash k) .loadRetValue)
      (fun x => Ticketed (hash k) t a x.log ∧ TurnR hash k t h x)
      fun r x => FreshVal k t a r x.log ∧ TurnR hash k t h x := by
  rintro x r m hi ⟨hl, ht⟩ hg he
  obtain ⟨g, h1, h2, h3, h4⟩ := neutral_cmd framedR_turn lasting_ticketed rfl x r m hi ⟨hl, ht⟩ hg he
  obtain ⟨n', hn, rfl⟩ := exec_lock he
  cases hn
  refine ⟨g, h1, h2, ?_, h4⟩
  have hq : lastPos (takesTicket .read (hash k) t) x.log < publishedAt (hash k) x.log := hg
  have hle := publishedAt_le (i := hash k) (l := x.log)
  have hval : FreshVal k t a (x.mem.locks (hash k)).retValue x.log := by
    refine ⟨hl.1, publishedAt (hash k) x.log - 1, by omega, ?_, ?_⟩
    · have := hl.2
      omega
    · exact (hi.shared (by omega)).symm
  exact hval.concat rfl

/-- The winner publishes what it has looked up. -/
theorem storeRetValue_cmd :
    (delegDiscipline hash k).Cmd t (.lock (hash k) (.storeRetValue v))
      (fun x => Looked k t a v x.log ∧ TurnR hash k t h x)
      fun _ x => FreshVal k t a v x.log ∧ TurnR hash k t h x := by
  rintro x r m hi ⟨hl, ht⟩ - he
  obtain ⟨n', hn, rfl⟩ := exec_lock he
  cases hn
  refine ⟨x.ghost, ?_, ?_, hl.fresh.concat rfl, ht.1, by simpa using ht.2⟩
  · refine { hi.toQueueAt.same ?_ ?_ with remote := ?_, shared := ?_, done := ?_ }
    · simp
    · simp
    · rw [remoteVal_concat (by rintro _ _ ⟨⟩)]
      exact hi.remote
    · obtain ⟨-, b, hb, hab, hv⟩ := hl
      have hle := lastPos_le (p := looksUp t) (l := x.log)
      have hpub : publishedAt (hash k) (x.log ++ [.act t (.lock (hash k) (.storeRetValue v)) ()]) =
          b + 1 := by
        rw [publishedAt_concat (by simp [publishes]), lastPos_concat_of_not rfl]
        exact hb
      intro _
      simp only [hpub, Function.update_self, Nat.add_sub_cancel]
      rw [List.take_append_of_le_length (by omega)]
      exact hv
    · exact hi.done.concat (by rintro _ _ _ ⟨⟩)
  · exact { log := ⟨_, rfl, rfl⟩, tick := fun _ _ => rfl, granted := fun _ _ h => h,
            turn := fun u hu hturn => ⟨hturn, by simp⟩ }

/-- The lookup. -/
theorem remoteRead_cmd {F : DelegWorld hash → Prop} (hF : FramedR hash k t F) :
    (delegDiscipline hash k).Cmd t (.remoteRead k) (fun x => Called t a x.log ∧ F x)
      fun r x => Looked k t a r x.log ∧ F x := by
  rintro x r m hi ⟨hl, hf⟩ - he
  simp only [delegDiscipline, nodeMachine, Option.some.injEq, Prod.mk.injEq] at he
  obtain ⟨rfl, rfl⟩ := he
  have hstep := neutral_step (t := t) (e := .act t (.remoteRead k) (x.mem.remote k)) (m := x.mem) hi
    rfl (by rintro _ _ _ ⟨⟩) rfl ⟨rfl, rfl, rfl, rfl⟩
    (by rw [remoteVal_concat (by rintro _ _ ⟨⟩)]; exact hi.remote)
  refine ⟨x.ghost, hstep.1, hstep.2, ⟨?_, x.log.length, ?_, ?_, ?_⟩, hF.frame _ _ _ rfl hf⟩
  · unfold Called
    rw [lastPos_concat_of_not rfl]
    exact hl
  · exact lastPos_concat_of (by simp [looksUp])
  · have := lastPos_le (p := Event.isCall t) (l := x.log)
    rw [hl] at this
    exact this
  · rw [List.take_append_of_le_length le_rfl, List.take_length]
    exact hi.remote

/-- The winner shares its result, the others take it over. -/
theorem shareResult_outline (res : Bool) :
    Outline (delegDiscipline hash k) t (onLock (hash k) (shareResult res value))
      (fun x => (if h then Ticketed (hash k) t a x.log else Looked k t a value x.log) ∧
        TurnR hash k t h x)
      fun out x => FreshVal k t a out.2 x.log ∧ TurnR hash k t h x := by
  simp only [shareResult, onLock_bind, onLock_ite, onLock_pure]
  cases h with
  | true =>
    simp only [if_true]
    refine Outline.cmd_bind False.elim (fun r => .and (Discipline.stable_const _)
      (framedR_turn.stable_and lasting_ticketed)) (loadHandoverRead_cmd lasting_ticketed) fun r => ?_
    refine Outline.of_fact (fun x _ hx => hx.1) fun hr => ?_
    subst hr
    refine Outline.mono (R := fun x => Ticketed (hash k) t a x.log ∧ TurnR hash k t true x) ?_
      fun x _ hx => hx.2
    simp only [if_true]
    refine Outline.cmd_bind False.elim (fun _ => framedR_turn.stable_and lasting_ticketed)
      (neutral_cmd framedR_turn lasting_ticketed rfl) fun _ => ?_
    exact Outline.cmd_bind False.elim (fun _ => framedR_turn.stable_and lasting_freshVal) loadRetValue_cmd
      fun _ => Outline.pure fun x _ hx => hx
  | false =>
    simp only [Bool.false_eq_true, if_false]
    refine Outline.cmd_bind False.elim (fun r => .and (Discipline.stable_const _)
      (framedR_turn.stable_and lasting_looked)) (loadHandoverRead_cmd lasting_looked) fun r => ?_
    refine Outline.of_fact (fun x _ hx => hx.1) fun hr => ?_
    subst hr
    refine Outline.mono (R := fun x => Looked k t a value x.log ∧ TurnR hash k t false x) ?_
      fun x _ hx => hx.2
    simp only [Bool.false_eq_true, if_false]
    refine Outline.cmd_bind False.elim (fun _ => framedR_turn.stable_and lasting_looked)
      (neutral_cmd framedR_turn lasting_looked rfl) fun _ => ?_
    exact Outline.cmd_bind False.elim (fun _ => framedR_turn.stable_and lasting_freshVal) storeRetValue_cmd
      fun _ => Outline.pure fun x _ hx => hx

/-- `release_local_read_lock` of a call that has the turn. -/
theorem releaseTurnRead_outline (res : Bool) :
    Outline (delegDiscipline hash k) t (onLock (hash k) (releaseTurnRead res value))
      (fun x => (if h then Ticketed (hash k) t a x.log else Looked k t a value x.log) ∧
        TurnR hash k t h x)
      fun out x => FreshVal k t a out.2 x.log ∧ AwayR t x := by
  simp only [releaseTurnRead, passTurn, onLock_bind, onLock_pure]
  refine Outline.bind (shareResult_outline res) fun out => ?_
  have hL : Lasting (hash k) t fun l : NodeLog hash => FreshVal k t a out.2 l := lasting_freshVal
  have hS : ∀ h, (delegDiscipline hash k).Stable t fun x => FreshVal k t a out.2 x.log ∧
      TurnR hash k t h x := fun h => framedR_turn.stable_and hL
  refine Outline.cmd_bind False.elim (fun _ => hS h) (neutral_cmd framedR_turn hL rfl) fun ticket => ?_
  refine Outline.cmd_bind False.elim (fun _ => hS h) (neutral_cmd framedR_turn hL rfl) fun current => ?_
  refine Outline.bind (neutral_outline framedR_turn hL (startReadWindow_sparesReads _ _)) fun _ => ?_
  refine Outline.cmd_bind False.elim (fun _ => hS _) (storeHandoverRead_cmd hL) fun _ => ?_
  refine Outline.bind (neutral_outline framedR_turn hL (nextEpoch_sparesReads .read)) fun _ => ?_
  refine Outline.bind (Q := fun _ x => FreshVal k t a out.2 x.log ∧ AwayR t x) ?_
    fun _ => Outline.pure fun x _ hx => hx
  refine Outline.cmd_bind False.elim (fun _ => hS _) (neutral_cmd framedR_turn hL rfl) fun _ => ?_
  refine Outline.bind (neutral_outline framedR_turn hL (leaveWindow_sparesReads .read)) fun _ => ?_
  refine Outline.bind (leaveRead_outline hL) fun _ => ?_
  exact Outline.cmd False.elim (fun _ => framedR_away.stable_and hL) (neutral_cmd framedR_away hL rfl)

/-- `read(k, value)` -/
theorem delegatedRead_outline :
    Outline (delegDiscipline hash k) t (delegatedRead hash k value)
      (fun x => Called t a x.log ∧ AwayR t x)
      fun v x => FreshVal k t a v x.log ∧ AwayR t x := by
  unfold delegatedRead
  refine Outline.bind acquireLocalReadLock_outline fun r => ?_
  obtain ⟨ho, conflict⟩ := r
  cases conflict with
  | true =>
    simp only [Bool.not_true, Bool.and_false, Bool.false_eq_true, if_false, if_true,
      releaseLocalReadLock, onLock_pure]
    refine Outline.cmd_bind False.elim (fun _ => framedR_away.stable_and lasting_looked)
      (remoteRead_cmd framedR_away) fun v => Outline.pure fun x _ hx => ⟨hx.1.fresh, hx.2⟩
  | false =>
    simp only [Bool.not_false, Bool.and_true, Bool.false_eq_true, if_false,
      releaseLocalReadLock]
    cases ho with
    | true =>
      exact Outline.bind ((releaseTurnRead_outline (h := true) false).mono fun x _ hx => hx)
        fun out => Outline.pure fun x _ hx => hx
    | false =>
      simp only [Bool.false_eq_true, if_false]
      refine Outline.cmd_bind False.elim
        (R := fun v x => Looked k t a v x.log ∧ TurnR hash k t false x)
        (fun _ => framedR_turn.stable_and lasting_looked) ?_ fun v => ?_
      · exact fun x r m hi hx => remoteRead_cmd framedR_turn x r m hi ⟨hx.1.1, hx.2⟩
      · exact Outline.bind ((releaseTurnRead_outline (h := false) false).mono fun x _ hx => hx)
          fun out => Outline.pure fun x _ hx => hx

theorem acquireLocalWriteLock_sparesReads (k' : Key) :
    (acquireLocalWriteLock k' v).All fun c : LockCmd => c.sparesReads = true := by
  unfold acquireLocalWriteLock waitTurn takeTurn testWindow
  repeat' first
    | exact Prog.all_pure _
    | exact (Prog.all_cmd (S := LockSig) _).mpr rfl
    | exact leaveWindow_sparesReads _
    | apply Prog.All.bind
    | apply Prog.All.ite
    | apply Prog.All.loop
    | intro _

theorem releaseLocalWriteLock_sparesReads (r : Bool × Bool) :
    (releaseLocalWriteLock r).All fun c : LockCmd => c.sparesReads = true := by
  unfold releaseLocalWriteLock releaseTurnWrite startWriteWindow passTurn
  repeat' first
    | exact Prog.all_pure _
    | exact (Prog.all_cmd (S := LockSig) _).mpr rfl
    | exact leaveWindow_sparesReads _
    | exact nextEpoch_sparesReads _
    | apply Prog.All.bind
    | apply Prog.All.ite
    | intro _

theorem getCombiningValue_sparesReads (k' : Key) :
    (getCombiningValue k' v).All fun c : LockCmd => c.sparesReads = true := by
  unfold getCombiningValue
  repeat' first
    | exact Prog.all_pure _
    | exact (Prog.all_cmd (S := LockSig) _).mpr rfl
    | apply Prog.All.bind
    | apply Prog.All.ite
    | intro _

/-- A write leaves the read queue alone, though not the windows. -/
theorem combinedWrite_outline_reads (k' : Key) (n : Nat) :
    Outline (delegDiscipline hash k) t (combinedWrite hash k' v n)
      (fun x => Called t a x.log ∧ AwayR t x) fun _ x => Called t a x.log ∧ AwayR t x := by
  have hins : ∀ n v, Outline (delegDiscipline hash k) t (combinedInsert hash k' n v)
      (fun x => Called t a x.log ∧ AwayR t x) fun _ x => Called t a x.log ∧ AwayR t x := by
    intro n
    induction n with
    | zero =>
      refine fun v => Outline.bind (neutral_outline framedR_away lasting_called
        (getCombiningValue_sparesReads k')) fun r => Outline.cmd False.elim
          (fun _ => framedR_away.stable_and lasting_called) ?_
      exact remoteWrite_cmd framedR_away lasting_called
    | succ n ih =>
      exact fun v => Outline.bind (neutral_outline framedR_away lasting_called
        (getCombiningValue_sparesReads k')) fun r => ih r
  unfold combinedWrite
  refine Outline.bind (neutral_outline framedR_away lasting_called
    (acquireLocalWriteLock_sparesReads k')) fun r => ?_
  have hrel : Outline (delegDiscipline hash k) t (onLock (hash k') (releaseLocalWriteLock r))
      (fun x => Called t a x.log ∧ AwayR t x) fun _ x => Called t a x.log ∧ AwayR t x :=
    neutral_outline framedR_away lasting_called (releaseLocalWriteLock_sparesReads r)
  exact Outline.ite (fun _ => hrel) fun _ => Outline.bind (hins n v) fun _ => hrel

end Calls

/-! ## Whole runs -/

/-- What a call has to show when it returns. -/
def ReturnsFresh (k : Key) (t : Tid) : NodeOp → Option Value → DelegWorld hash → Prop
  | .read k' _, some v, x => k' = k ∧ ∃ a, FreshVal k t a v x.log
  | .read _ _, none, _ => False
  | _, _, _ => True

/-- The calls keep the discipline. -/
theorem delegKeeps (hash : Key → Nat) (k : Key) :
    Keeps (delegDiscipline hash k) (fun t _ => AwayR t)
      (fun t _ _ x => ∃ a, Called t a x.log ∧ AwayR t x)
      fun t op res _ x => ReturnsFresh k t op res x ∧ AwayR t x where
  idle_stable _ _ := framedR_away.stable
  pre_stable _ _ _ := .exists fun _ => framedR_away.stable_and lasting_called
  call := by
    intro t op l x hg hi hidle
    have hstep := neutral_step (t := t) (e := .call t op) (m := x.mem) hi rfl
      (by rintro _ _ _ ⟨⟩) rfl ⟨rfl, rfl, rfl, rfl⟩
      (by rw [remoteVal_concat (by rintro _ _ ⟨⟩)]; exact hi.remote)
    exact ⟨x.ghost, hstep.1, hstep.2, _, rfl, hidle⟩
  code := by
    rintro t op l hg
    refine Outline.of_exists fun a => ?_
    cases op with
    | write k' v n =>
      exact Outline.bind (combinedWrite_outline_reads k' n) fun _ =>
        Outline.pure fun x _ hx => ⟨trivial, hx.2⟩
    | read k' value =>
      obtain rfl : k' = k := hg
      exact Outline.bind delegatedRead_outline fun v =>
        Outline.pure fun x _ hx => ⟨⟨rfl, a, hx.1⟩, hx.2⟩
    | update k' v =>
      refine Outline.cmd_bind False.elim (fun _ => framedR_away.stable_and lasting_called)
        (remoteWrite_cmd framedR_away lasting_called) fun _ => ?_
      exact Outline.pure fun x _ hx => ⟨trivial, hx.2⟩
  ret := by
    rintro t op res l x hi ⟨hret, haway⟩
    refine ⟨x.ghost, ?_, ?_, haway⟩
    · refine { hi.toQueueAt with remote := ?_, shared := ?_, done := ?_ }
      · rw [remoteVal_concat (by rintro _ _ ⟨⟩)]
        exact hi.remote
      · exact hi.shared_concat rfl rfl
      · refine hi.done.concat fun t' value v he => ?_
        cases he
        obtain ⟨-, a, hcalled, j, hj, haj, hv⟩ := hret
        exact ⟨j, hj, hcalled ▸ haj, hv⟩
    · exact { log := ⟨_, rfl, rfl⟩, tick := fun _ _ => rfl, granted := fun _ _ h => h,
              turn := fun u hu h => ⟨h, rfl⟩ }

/-- In every run in which the reads of `k` that are handed over have queued up before the lookup, every
read returns a value that was current at some instant of the call. -/
theorem freshReads_of_inTime (hash : Key → Nat) (k : Key) (c : NodeConfig hash)
    (h : Reach nodeMachine (readsInTime hash k) (nodeInit hash) c) : FreshReads k c.log := by
  have hinit : ConfigOk (delegDiscipline hash k) (fun t _ => AwayR t)
      (fun t op res _ x => ReturnsFresh k t op res x ∧ AwayR t x) (nodeInit hash) := by
    refine ⟨Tickets.empty, ?_, fun _ => rfl⟩
    exact { QueueAt.empty with remote := rfl, shared := nofun, done := nofun }
  obtain ⟨g, hi, -⟩ := (delegKeeps hash k).reach hinit h
  exact hi.done

/-- Read 2 queues up before the lookup of read 0, which comes after the update. -/
def queueInTime : List (Move (nodeClient fun _ => 0)) :=
  [.call 0 (NodeOp.read (Key.ofNat 1) 9)] ++ Move.steps 0 4 ++
    [.call 1 (NodeOp.update (Key.ofNat 1) 2)] ++ Move.steps 1 2 ++
    [.call 2 (NodeOp.read (Key.ofNat 1) 9)] ++ Move.steps 2 4 ++ Move.steps 0 29 ++ Move.steps 2 23

/-- Thread `t` returns `v` from a read of `k`. -/
def returnsRead (t : Tid) (k : Key) (v : Value) : NodeEvent → Bool
  | .ret u (.read k' _) (some v') => u == t && k' == k && v' == v
  | _ => false

/-- The condition is met by a run with a handover: read 2 returns the value without a lookup of its
own. -/
theorem freshReads_of_inTime_handover :
    ∃ c : NodeConfig fun _ => 0,
      Reach nodeMachine (readsInTime (fun _ => 0) (Key.ofNat 1)) (nodeInit fun _ => 0) c ∧
      (c.log.any (returnsRead 2 (Key.ofNat 1) 2) && c.log.all fun e => !looksUp 2 e) = true ∧
      FreshReads (Key.ofNat 1) c.log := by
  have hev : ((nodeInit fun _ => 0).runIf nodeMachine
      (fun m l t cmd => decide (QueuedBeforeLookup m l t cmd)) queueInTime).map (fun c =>
        c.log.any (returnsRead 2 (Key.ofNat 1) 2) && c.log.all fun e => !looksUp 2 e) = some true := by
    decide +kernel
  obtain ⟨c, hrun, hcheck⟩ := Option.map_eq_some_iff.mp hev
  have hreach : Reach nodeMachine (readsInTime (fun _ => 0) (Key.ofNat 1)) (nodeInit fun _ => 0) c := by
    refine runIf_reach (fun m l t cmd h =>
      of_decide_eq_true (p := QueuedBeforeLookup m l t cmd) h) queueInTime ?_ hrun
    delta queueInTime
    simp [readsInTime, readsOf]
  exact ⟨c, hreach, hcheck, freshReads_of_inTime _ _ c hreach⟩

/-- Read 2 is made after the lookup of read 0 and after an update, and queues up before read 0
releases. -/
def queueTooLate : List (Move (nodeClient fun _ => 0)) :=
  [.call 0 (NodeOp.read (Key.ofNat 1) 9)] ++ Move.steps 0 11 ++
    [.call 1 (NodeOp.update (Key.ofNat 1) 2)] ++ Move.steps 1 2 ++
    [.call 2 (NodeOp.read (Key.ofNat 1) 9)] ++ Move.steps 2 4 ++ Move.steps 0 22 ++ Move.steps 2 23

/-- Without the condition a read can return a value that was overwritten before it was invoked. -/
theorem exists_staleRead :
    ¬ ∀ c, Reach nodeMachine (onlyReads (fun _ => 0) (Key.ofNat 1)) (nodeInit fun _ => 0) c →
      FreshReads (Key.ofNat 1) c.log := by
  intro h
  have hev : ((nodeInit fun _ => 0).runIf nodeMachine (fun _ _ _ _ => true) queueTooLate).map
      (fun c => c.log[62]?.any (returnsRead 2 (Key.ofNat 1) 0) && c.log[14]?.any (Event.isCall 2) &&
        (List.range 63).all fun j => j ≤ 14 || remoteVal (Key.ofNat 1) (c.log.take j) == 2) =
      some true := by decide +kernel
  obtain ⟨c, hrun, hcheck⟩ := Option.map_eq_some_iff.mp hev
  simp only [Bool.and_eq_true, List.all_eq_true] at hcheck
  obtain ⟨⟨hret, hcall⟩, hval⟩ := hcheck
  have hfresh := h c (runIf_reach (fun _ _ _ _ _ => trivial) queueTooLate
    (by delta queueTooLate; simp [onlyReads, readsOf]) hrun)
  obtain ⟨e, he, hret⟩ := (Option.any_eq_true _ _).mp hret
  obtain ⟨e', he', hcall⟩ := (Option.any_eq_true _ _).mp hcall
  obtain ⟨value, rfl⟩ : ∃ value, e = .ret 2 (.read (Key.ofNat 1) value) (some 0) := by
    unfold returnsRead at hret
    split at hret
    · next u k' value v =>
      obtain ⟨⟨rfl, rfl⟩, rfl⟩ : (u = 2 ∧ k' = Key.ofNat 1) ∧ v = 0 := by simpa using hret
      exact ⟨value, rfl⟩
    · cases hret
  obtain ⟨op, rfl⟩ : ∃ op, e' = .call 2 op := by
    unfold Event.isCall at hcall
    split at hcall
    · next u op =>
      obtain rfl : u = 2 := by simpa using hcall
      exact ⟨op, rfl⟩
    · cases hcall
  obtain ⟨j, hj, hc, hv⟩ := hfresh 62 2 value 0 he
  have hlt := hc 14 op he' (by omega)
  have hj2 := hval j (List.mem_range.mpr (by omega))
  simp only [hv, Bool.or_eq_true, decide_eq_true_eq, beq_iff_eq] at hj2
  rcases hj2 with h14 | h2
  · omega
  · exact absurd h2 (by decide)

end DMTree
