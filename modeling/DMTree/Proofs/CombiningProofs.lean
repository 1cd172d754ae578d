import DMTree.Conc.Exec
import DMTree.Proofs.CombiningSteps

/-!
# Write combining loses no update when it combines in time
-/

namespace DMTree

open Conc

variable {hash : Key → Nat} {k : Key} {t : Tid} {a s : Nat} {v b : Value}

/-! ## The remote write -/

/-- Thread `t` has stored `v` in its current call, and this store and all those before its sampling
have been carried. -/
def Written (hash : Key → Nat) (k : Key) (t : Tid) (a s : Nat) (v : Value) (l : NodeLog hash) : Prop :=
  Stored hash k t a s v l ∧ Carried hash k l s l.length ∧ CarriedSample hash k t a l

theorem Written.concat {l : NodeLog hash} {e : NodeEvent} (h : Written hash k t a s v l)
    (he : QuietFor (hash k) t e) : Written hash k t a s v (l ++ [e]) :=
  ⟨h.1.concat he, h.2.1.grow, h.2.2.concat he.samples⟩

section Insert

variable {F : CombWorld hash → Prop}

/-- Taking over the value in `wc_buffer`. -/
theorem sample_outline (hF : Framed hash k F) (hFs : (combDiscipline hash k).Stable t F) :
    Outline (combDiscipline hash k) t (onLock (hash k) (getCombiningValue k b))
      (fun x => (Stored hash k t a s v x.log ∧ Sampled hash k t a s b x.log) ∧ F x)
      fun r x => (Stored hash k t a s v x.log ∧ Sampled hash k t a s r x.log) ∧ F x := by
  have hL : ∀ (b : Value) (l : NodeLog hash) e, QuietFor (hash k) t e →
      Stored hash k t a s v l ∧ Sampled hash k t a s b l →
        Stored hash k t a s v (l ++ [e]) ∧ Sampled hash k t a s b (l ++ [e]) :=
    fun b l e he h => ⟨h.1.concat he, h.2.concat he.samples⟩
  have hS : ∀ b, (combDiscipline hash k).Stable t fun x =>
      (Stored hash k t a s v x.log ∧ Sampled hash k t a s b x.log) ∧ F x :=
    fun b => .and (stable_log (hL b)) hFs
  simp only [getCombiningValue, onLock_bind, onLock_ite, onLock_pure]
  refine Outline.cmd_bind False.elim (fun _ => hS b) (load_cmd hF (hL b) rfl ?_) fun r => ?_
  · intro m r m' he
    obtain ⟨n', hn, rfl⟩ := exec_lock he
    cases hn
    simp
  refine Outline.ite (fun _ => Outline.cmd False.elim hS ?_) fun _ => Outline.pure fun x _ hx => hx
  rintro x r m hi ⟨⟨hst, -⟩, hf⟩ - he
  obtain ⟨n', hn, rfl⟩ := exec_lock he
  cases hn
  have hsame : Function.update x.mem.locks (hash k) (x.mem.locks (hash k)) = x.mem.locks :=
    Function.update_eq_self _ _
  simp only [hsame]
  have hstep := plain_step (e := .act t (.lock (hash k) .loadWcBuffer)
      (x.mem.locks (hash k)).wcBuffer) (m := x.mem) hi
    ⟨fun _ => rfl, fun _ => rfl, fun _ => rfl, by rintro _ _ _ ⟨⟩⟩ rfl (frame_refl _) hi.node.upto
    (fun u c hc hlt => (hi.log.queued u c hc).2.2 hlt) (Or.inr ⟨sameWindow_refl _, rfl⟩)
  refine ⟨x.ghost, hstep.1, hstep.2, ⟨⟨?_, ?_, hst.stores.concat, hst.after⟩, ?_⟩,
    hF _ _ _ (sameWindow_refl _) hf⟩
  · rw [lastPos_concat_of_not rfl]; exact hst.called
  · rw [lastPos_concat_of_not rfl]; exact hst.last
  -- the buffer holds the last of all stores so far
  · obtain ⟨p, u, h1, h2⟩ := hi.log.buffer t (by rw [hst.last]; omega)
    refine ⟨p, u, ?_, h1.concat, fun _ u' _ => ?_⟩
    · have := h2 t
      rw [hst.last] at this
      omega
    · rw [lastPos_concat_of_not rfl]
      exact h2 u'

/-- The remote write carries the stores up to the last sampling. -/
theorem remoteWrite_outline (hF : Framed hash k F) (hFs : (combDiscipline hash k).Stable t F) :
    Outline (combDiscipline hash k) t (Prog.cmd (S := NodeSig) (.remoteWrite k b))
      (fun x => (Stored hash k t a s v x.log ∧ Sampled hash k t a s b x.log) ∧ F x)
      fun _ x => Written hash k t a s v x.log ∧ F x := by
  refine Outline.cmd False.elim (fun _ => .and (stable_log (L := Written hash k t a s v) fun l e he h =>
    h.concat he) hFs) ?_
  rintro x r m hi ⟨⟨hst, p, u, hp, hs, hl⟩, hf⟩ - he
  have hm := exec_remoteWrite he
  subst hm
  have hstep := plain_step (e := .act t (.remoteWrite k b) r)
    (m := { x.mem with remote := Function.update x.mem.remote k b }) hi
    (plain_act (c := .remoteWrite k b) rfl r) rfl (frame_refl _) hi.node.upto
    (fun u c hc hlt => (hi.log.queued u c hc).2.2 hlt) (Or.inr ⟨sameWindow_refl _, rfl⟩)
  have hq : QuietFor (hash k) t (.act t (.remoteWrite k b) r) :=
    quietFor_act (c := .remoteWrite k b) rfl r
  have hcarry : ∀ s', s' ≤ p → Carried hash k (x.log ++ [.act t (.remoteWrite k b) r]) s'
      (x.log ++ [Event.act (S := NodeSig) t (.remoteWrite k b) r]).length := by
    intro s' hs'
    have hlt := lt_of_getElem? hs
    exact ⟨p, x.log.length, u, t, b, hs', hlt, by simp, hs.concat, getElem?_concat_last _ _⟩
  refine ⟨x.ghost, hstep.1, hstep.2, ⟨hst.concat hq, hcarry s hp, ?_⟩, hF _ _ _ (sameWindow_refl _) hf⟩
  intro ha u' hpos hu'
  obtain ⟨h1, h2⟩ := lastPos_stores_concat hq.samples hu'
  rw [lastPos_concat_of_not hq.samples] at ha
  have hle := hl ha u' h2
  rw [← h1] at hle
  exact hcarry _ (Nat.sub_le_of_le_add hle)

/-- `leaf_insert`, as the lock table sees it. -/
theorem combinedInsert_outline (hF : Framed hash k F) (hFs : (combDiscipline hash k).Stable t F)
    (n : Nat) :
    ∀ b, Outline (combDiscipline hash k) t (combinedInsert hash k n b)
      (fun x => (Stored hash k t a s v x.log ∧ Sampled hash k t a s b x.log) ∧ F x)
      fun _ x => Written hash k t a s v x.log ∧ F x := by
  induction n with
  | zero => exact fun b => Outline.bind (sample_outline hF hFs) fun r => remoteWrite_outline hF hFs
  | succ n ih => exact fun b => Outline.bind (sample_outline hF hFs) fun r => ih r

end Insert

/-! ## Release -/

/-- What a call knows at its release when it was handed over or not: its store has been carried, and
if it is the winner, so have the stores before its sampling. -/
def Releasable (hash : Key → Nat) (k : Key) (t : Tid) (a s : Nat) (v : Value) (h : Bool)
    (l : NodeLog hash) : Prop :=
  Stored hash k t a s v l ∧ Carried hash k l s l.length ∧ (h = false → CarriedSample hash k t a l)

theorem Releasable.concat {h : Bool} {l : NodeLog hash} {e : NodeEvent}
    (hr : Releasable hash k t a s v h l) (he : QuietFor (hash k) t e) :
    Releasable hash k t a s v h (l ++ [e]) :=
  ⟨hr.1.concat he, hr.2.1.grow, fun hf => (hr.2.2 hf).concat he.samples⟩

variable {w c U : Nat} {h : Bool} {L : NodeLog hash → Prop}

/-- The winner counts the queue: all calls in it have been carried, so that they make up the next
window. A call that was handed over counts it only to see whether it is the last. -/
theorem loadTicket_cmd (hpos : h = true → c < U) :
    (combDiscipline hash k).Cmd t (.lock (hash k) (.loadTicket .write))
      (fun x => Releasable hash k t a s v h x.log ∧ Turn hash k t w h (decide (0 < w)) c U x)
      fun r x => ∃ T U' : Nat, (r = T % 2 ^ 32 ∧ c < U' ∧ U' ≤ T ∧ T - c < 2 ^ 32 ∧
          (h = true → U' = U) ∧ (h = false → U' = T)) ∧
        Releasable hash k t a s v h x.log ∧ Turn hash k t w h (decide (0 < w)) c U' x := by
  rintro x r m hi ⟨hrel, ht⟩ hg he
  obtain ⟨n', hn, rfl⟩ := exec_lock he
  cases hn
  have hcur := hi.node.wf.turn t ht.turn
  have hlt := hi.node.wf.range t _ hcur
  have hfits := hi.node.wf.fits
  have hsame : Function.update x.mem.locks (hash k) (x.mem.locks (hash k)) = x.mem.locks :=
    Function.update_eq_self _ _
  simp only [hsame]
  have hq : QuietFor (hash k) t (.act t (.lock (hash k) (.loadTicket .write))
      ((x.mem.locks (hash k)).ticket .write)) :=
    quietFor_act (c := .lock (hash k) (.loadTicket .write)) rfl _
  rw [ht.cur] at hlt hfits
  -- the end of the window that the release leaves behind
  obtain ⟨U', h1, h2, h3, hcov⟩ : ∃ U', (c < U' ∧ U' ≤ x.ghost.q.next) ∧ (h = true → U' = U) ∧
      (h = false → U' = x.ghost.q.next) ∧ ∀ u c', x.ghost.q.tick u = some c' → c' < U' →
        Carried hash k x.log (lastPos (storesWc (hash k) u) x.log - 1) x.log.length := by
    cases h with
    | true =>
      refine ⟨U, ⟨hpos rfl, ht.upto ▸ hi.node.upto⟩, fun _ => rfl, nofun, fun u c' hu hc' => ?_⟩
      exact (hi.log.queued u c' hu).2.2 (ht.upto.symm ▸ hc')
    | false =>
      refine ⟨_, ⟨hlt.2, le_rfl⟩, nofun, fun _ => rfl, fun u c' hu _ => ?_⟩
      by_cases hut : u = t
      · subst hut
        rw [hrel.1.last]
        exact hrel.2.1
      · obtain ⟨hin, hst, -⟩ := hi.log.queued u c' hu
        have hgd : SampledQueue (hash k) x.log t := hg ht.handover
        obtain ⟨hs1, hs2⟩ := hgd u (tid_mem_of_inQueue hin) hut hin
        rw [hrel.1.called] at hs1
        exact hrel.2.2 rfl hs1 u hst hs2
  have hstep := plain_step (t := t) (m := x.mem) hi (plain_act (t := t)
    (c := .lock (hash k) (.loadTicket .write)) rfl ((x.mem.locks (hash k)).ticket .write)) rfl
    (frame_refl _) h1.2 hcov (Or.inl ht.turn)
  refine ⟨⟨x.ghost.q, U'⟩, hstep.1, hstep.2, x.ghost.q.next, U',
    ⟨hi.node.ticket, h1.1, h1.2, hfits, h2, h3⟩, hrel.concat hq, ?_⟩
  exact ⟨ht.turn, ht.cur, rfl, ht.window, ht.handover, ht.start⟩

/-- The winner opens the window that it has counted; a call that was handed over leaves the window as
it is. -/
theorem startWriteWindow_outline (hL : ∀ l e, QuietFor (hash k) t e → L l → L (l ++ [e])) {T : Nat}
    (hcU : c < U) (hUT : U ≤ T) (hT : T - c < 2 ^ 32) (ht : h = true → w = U - c)
    (hf : h = false → w = 0 ∧ U = T) :
    Outline (combDiscipline hash k) t
      (onLock (hash k) (startWriteWindow (T % 2 ^ 32) (c % 2 ^ 32)))
      (fun x => L x.log ∧ Turn hash k t w h (decide (0 < w)) c U x)
      fun _ x => L x.log ∧ Turn hash k t (U - c) h (decide (0 < U - c)) c U x := by
  simp only [startWriteWindow, onLock_bind, onLock_ite, onLock_pure]
  refine turn_load hL rfl (φ := (h = ·)) (fun _ => rfl) (fun n g _ _ _ hh _ => hh.symm) ?_
  rintro _ rfl
  have hstart : decide (0 < U - c) = true := decide_eq_true (Nat.sub_pos_of_lt hcU)
  refine Outline.ite (fun hh => ?_) fun hh => ?_
  · rw [← ht hh]
    exact Outline.pure fun x _ hx => hx
  · obtain ⟨rfl, rfl⟩ := hf (by simpa using hh)
    refine turn_bind hL rfl (φ := (· = true)) (m := 0) (n := h) (o := true) ?_ ?_
    · intro n g r n' hn hc hw hh hs he
      cases he
      exact ⟨⟨rfl, rfl, id, fun _ => Or.inl, rfl⟩, hw, hh, rfl, by simp [hs]⟩
    rintro _ rfl
    simp only [if_true]
    refine turn_bind hL rfl (φ := fun _ => True) (m := 0) (n := h) (o := true) ?_ fun _ _ => ?_
    · intro n g r n' hn hc hw hh hs he
      simp only [LocalLockNode.exec] at he
      split at he
      · cases he
      · cases he
        exact ⟨⟨rfl, rfl, id, fun _ => Or.inl, rfl⟩, hw, hh, hs, trivial⟩
    refine turn_load hL rfl (φ := (0 = ·)) (fun _ => rfl) (fun n g hn _ _ _ _ => hn.readCurrent.symm) ?_
    rintro _ rfl
    refine turn_load hL rfl (φ := (0 = ·)) (fun _ => rfl) (fun n g hn _ _ _ _ => hn.readTicket.symm) ?_
    rintro _ rfl
    refine turn_bind hL rfl (φ := fun _ => True) (m := 0) (n := h) (o := true) ?_ fun _ _ => ?_
    · intro n g r n' hn hc hw hh hs he
      cases he
      exact ⟨⟨rfl, rfl, fun _ => rfl, fun _ => Or.inl, rfl⟩, hw, hh, hs, trivial⟩
    refine turn_bind hL rfl (φ := fun _ => True) (m := 0) (n := h) (o := true) ?_ fun _ _ => ?_
    · intro n g r n' hn hc hw hh hs he
      cases he
      exact ⟨⟨rfl, rfl, id, fun _ => Or.inl, rfl⟩, hw, hh, hs, trivial⟩
    rw [hstart, queueLength_mod hcU.le hT]
    refine turn_last hL rfl ?_
    intro n g r n' hn hc hw hh hs he
    cases he
    exact ⟨⟨rfl, rfl, id, fun _ => Or.inl, rfl⟩, by simp, hh, hs⟩

/-- The owner key is dropped or not. -/
theorem nextEpoch_outline (hL : ∀ l e, QuietFor (hash k) t e → L l → L (l ++ [e])) {ws : Bool} :
    Outline (combDiscipline hash k) t (onLock (hash k) (nextEpoch .write))
      (fun x => L x.log ∧ Turn hash k t w h ws c U x)
      fun _ x => L x.log ∧ Turn hash k t w h ws c U x := by
  simp only [nextEpoch, onLock_bind, onLock_ite, onLock_pure]
  refine turn_load hL rfl (φ := fun _ => True) (fun _ => rfl) (fun _ _ _ _ _ _ _ => trivial) ?_
  intro r _
  refine Outline.ite (fun _ => Outline.pure fun x _ hx => hx) fun _ => turn_last hL rfl ?_
  intro n g r n' hn hc hw hh hs he
  cases he
  exact ⟨⟨rfl, rfl, id, fun k' hk' => by simp at hk', rfl⟩, hw, hh, hs⟩

/-- The turn is passed on, under the mutex. -/
theorem passTurn_outline (hL : ∀ l e, QuietFor (hash k) t e → L l → L (l ++ [e]))
    (hw : w = U - c) (hlt : w < 2 ^ 32) (hh : c + 1 < U → h = true) :
    Outline (combDiscipline hash k) t (onLock (hash k) (passTurn .write))
      (fun x => L x.log ∧ Turn hash k t w h (decide (0 < w)) c U x)
      fun _ x => L x.log ∧ Away t x := by
  simp only [passTurn, onLock_bind]
  refine turn_bind hL rfl (φ := fun _ => True) (m := w) (n := h) (o := decide (0 < w)) ?_
    fun _ _ => ?_
  · intro n g r n' hn hc hw hh hs he
    simp only [LocalLockNode.exec] at he
    split at he
    · cases he
    · cases he
      exact ⟨⟨rfl, rfl, id, fun _ => Or.inl, rfl⟩, hw, hh, hs, trivial⟩
  refine Outline.bind (leaveWindow_outline hL hlt) fun _ => ?_
  refine Outline.bind (leave_outline hL (by omega) (fun h0 => hh (by omega))) fun _ => ?_
  refine Outline.cmd False.elim (fun _ => .and (stable_log hL) stable_away) (quiet_cmd framed_away hL rfl ?_)
  intro m r m' he
  obtain ⟨n', hn, rfl⟩ := exec_lock he
  cases hn
  simp only [Function.update_self]
  exact ⟨⟨rfl, rfl, id, fun _ => Or.inl, rfl⟩, rfl, rfl, rfl⟩

/-- `release_local_write_lock` of a call that has the turn. -/
theorem releaseTurnWrite_outline (hw : w = U - c) (ht : h = true → 0 < w) (hf : h = false → w = 0) :
    Outline (combDiscipline hash k) t (onLock (hash k) releaseTurnWrite)
      (fun x => Releasable hash k t a s v h x.log ∧ Turn hash k t w h (decide (0 < w)) c U x)
      fun _ x => Releasable hash k t a s v h x.log ∧ Away t x := by
  have hL : ∀ (l : NodeLog hash) e, QuietFor (hash k) t e → Releasable hash k t a s v h l →
      Releasable hash k t a s v h (l ++ [e]) := fun l e he hr => hr.concat he
  simp only [releaseTurnWrite, onLock_bind]
  refine Outline.cmd_bind False.elim ?_ (loadTicket_cmd fun hh => by have := ht hh; omega) fun r => ?_
  · exact fun r => .exists fun T => .exists fun U' =>
      .and (Discipline.stable_const _) (.and (stable_log hL) stable_turn)
  refine Outline.of_exists fun T => Outline.of_exists fun U' => ?_
  refine Outline.of_fact (fun x _ hx => hx.1) fun ⟨hr, h1, h2, h3, h4, h5⟩ => ?_
  subst hr
  refine Outline.mono ?_ fun x _ hx => hx.2
  refine turn_load hL rfl (φ := (c % 2 ^ 32 = ·)) (fun _ => rfl)
    (fun n g hn hc _ _ _ => by rw [← hc]; exact hn.current.symm) ?_
  rintro _ rfl
  refine Outline.bind (startWriteWindow_outline hL h1 h2 h3 ?_ fun hh => ⟨hf hh, h5 hh⟩) fun _ => ?_
  · intro hh
    rw [h4 hh]
    exact hw
  refine turn_bind hL rfl (φ := fun _ => True) (m := U' - c)
    (n := decide (T % 2 ^ 32 ≠ (c % 2 ^ 32 + 1) % 2 ^ 32)) (o := decide (0 < U' - c)) ?_
    fun _ _ => ?_
  · intro n g r n' hn hc hw hh hs he
    cases he
    exact ⟨⟨rfl, rfl, id, fun _ => Or.inl, rfl⟩, hw, by simp, hs, trivial⟩
  refine Outline.bind (nextEpoch_outline hL) fun _ => ?_
  refine passTurn_outline hL rfl (by omega) fun hlt => ?_
  -- somebody of the window waits, so the queue is longer than the call itself
  rw [decide_eq_true_iff]
  omega

/-! ## Acquire -/

/-- Thread `t` has made its last call at `a` and has neither stored nor sampled in it. -/
def Entered (hash : Key → Nat) (k : Key) (t : Tid) (a : Nat) (l : NodeLog hash) : Prop :=
  lastPos (Event.isCall t) l = a ∧ lastPos (samplesWc (hash k) t) l ≤ a

theorem Entered.concat {l : NodeLog hash} {e : NodeEvent} (h : Entered hash k t a l)
    (he : QuietFor (hash k) t e) : Entered hash k t a (l ++ [e]) := by
  unfold Entered
  rw [lastPos_concat_of_not he.call, lastPos_concat_of_not he.samples]
  exact h

/-- Thread `t` has stored `v` in its last call and has not sampled in it. -/
def Queued (hash : Key → Nat) (k : Key) (t : Tid) (a s : Nat) (v : Value) (l : NodeLog hash) : Prop :=
  Stored hash k t a s v l ∧ lastPos (samplesWc (hash k) t) l ≤ a

theorem Queued.concat {l : NodeLog hash} {e : NodeEvent} (h : Queued hash k t a s v l)
    (he : QuietFor (hash k) t e) : Queued hash k t a s v (l ++ [e]) := by
  refine ⟨h.1.concat he, ?_⟩
  rw [lastPos_concat_of_not he.samples]
  exact h.2

/-- Thread `t` waits with ticket `c`. -/
def Waits (t : Tid) (c : Nat) (x : CombWorld hash) : Prop :=
  x.ghost.q.tick t = some c ∧ x.ghost.q.turn ≠ some t

theorem stable_waits : (combDiscipline hash k).Stable t (Waits t c) := by
  intro u x x' hu hi hi' hr ht
  exact ⟨(hr.tick t (Ne.symm hu)).trans ht.1, fun h => ht.2 (hr.granted t (Ne.symm hu) h)⟩

/-- Thread `t` has the turn and finds the window as it was while nobody had it. -/
def TurnStart (hash : Key → Nat) (k : Key) (t : Tid) (x : CombWorld hash) : Prop :=
  ∃ w h c U, (w = U - c ∧ (0 < w → h = true)) ∧ Turn hash k t w h (decide (0 < w)) c U x

theorem stable_turnStart : (combDiscipline hash k).Stable t (TurnStart hash k t) :=
  .exists fun _ => .exists fun _ => .exists fun _ => .exists fun _ =>
    .and (Discipline.stable_const _) stable_turn

/-- The first step: the owner key is `k` afterwards, whoever installed it. -/
theorem casUniqueKey_cmd :
    (combDiscipline hash k).Cmd t (.lock (hash k) (.casUniqueKey .write k))
      (fun x => Entered hash k t a x.log ∧ Away t x)
      fun r x => r.any (· ≠ k) = false ∧ Entered hash k t a x.log ∧ Away t x := by
  rintro x r m hi ⟨hl, ht⟩ hg he
  have hq := quiet_cmd (L := Entered hash k t a) (F := Away t) (t := t)
    (d := .lock (hash k) (.casUniqueKey .write k)) framed_away (fun l e he h => h.concat he) rfl ?_
    x r m hi ⟨hl, ht⟩ hg he
  · obtain ⟨g, h1, h2, h3⟩ := hq
    refine ⟨g, h1, h2, ?_, h3⟩
    obtain ⟨n', hn, -⟩ := exec_lock he
    simp only [LocalLockNode.exec] at hn
    split at hn
    · cases hn; rfl
    · next k' hk' =>
      cases hn
      simp [hi.node.owner k' hk']
  · intro m r m' he
    obtain ⟨n', hn, rfl⟩ := exec_lock he
    simp only [Function.update_self]
    simp only [LocalLockNode.exec] at hn
    split at hn
    · cases hn
      refine ⟨⟨rfl, rfl, id, fun k' hk' => Or.inr ?_, rfl⟩, rfl, rfl, rfl⟩
      simpa using hk'.symm
    · cases hn
      exact ⟨frame_refl _, sameWindow_refl _⟩

/-- The store into `wc_buffer`. -/
theorem storeWcBuffer_cmd :
    (combDiscipline hash k).Cmd t (.lock (hash k) (.storeWcBuffer v))
      (fun x => Entered hash k t a x.log ∧ Away t x)
      fun _ x => ∃ s, Queued hash k t a s v x.log ∧ Away t x := by
  rintro x r m ⟨hnode, hlog⟩ ⟨hl, ht⟩ - he
  obtain ⟨n', hn, rfl⟩ := exec_lock he
  cases hn
  have hne : ∀ u c, x.ghost.q.tick u = some c → u ≠ t := by
    rintro u c hu rfl
    rw [ht] at hu
    cases hu
  have hother : ∀ u, u ≠ t → storesWc (hash k) u
      (.act t (.lock (hash k) (.storeWcBuffer v)) ()) = false := fun u hu => by
    simp [storesWc, Ne.symm hu]
  have hown : storesWc (hash k) t (.act t (.lock (hash k) (.storeWcBuffer v)) ()) = true := by
    simp [storesWc]
  refine ⟨x.ghost, ⟨?_, ?_⟩, ?_, x.log.length, ⟨⟨?_, ?_, getElem?_concat_last _ _, ?_⟩, ?_⟩, ht⟩
  · simp only [Function.update_self]
    exact { hnode with calm := fun hno => (hnode.calm hno).same ⟨rfl, rfl, rfl⟩ }
  · simp only [Function.update_self]
    refine ⟨?_, ?_, hlog.done.concat (by rintro _ _ _ ⟨⟩)⟩
    · intro u c hu
      obtain ⟨h1, h2, h3⟩ := hlog.queued u c hu
      have hu' := hother u (hne u c hu)
      rw [lastPos_concat_of_not hu']
      refine ⟨?_, h2, fun hlt => (h3 hlt).grow⟩
      unfold InQueue
      rw [lastPos_concat_of_not rfl, lastPos_concat_of_not rfl]
      exact h1
    · intro u _
      refine ⟨x.log.length, t, getElem?_concat_last _ _, fun w => ?_⟩
      have := lastPos_le (p := storesWc (hash k) w) (l := x.log)
      rw [lastPos_concat]
      split <;> omega
  · exact { log := ⟨_, rfl, rfl⟩, tick := fun _ _ => rfl, granted := fun _ _ h => h,
            turn := fun u hu hturn => by simp [hturn] }
  · rw [lastPos_concat_of_not rfl]; exact hl.1
  · exact lastPos_concat_of hown
  · have := lastPos_le (p := Event.isCall t) (l := x.log)
    rw [hl.1] at this
    exact this
  · rw [lastPos_concat_of_not rfl]; exact hl.2

/-- Taking a ticket. -/
theorem incTicket_cmd :
    (combDiscipline hash k).Cmd t (.lock (hash k) (.incTicket .write))
      (fun x => Queued hash k t a s v x.log ∧ Away t x)
      fun r x => ∃ c : Nat, r = c % 2 ^ 32 ∧ Queued hash k t a s v x.log ∧ Waits t c x := by
  rintro x r m ⟨hnode, hlog⟩ ⟨hl, ht⟩ hg he
  obtain ⟨n', hn, rfl⟩ := exec_lock he
  cases hn
  have hturn := hnode.toQueueAt.not_turn ht
  have hq : QuietFor (hash k) t (.act t (.lock (hash k) (.incTicket .write))
      ((x.mem.locks (hash k)).ticket .write)) := ⟨rfl, rfl, rfl⟩
  have hlt := hnode.upto
  refine ⟨⟨x.ghost.q.take t, x.ghost.upto⟩, ⟨?_, ?_⟩, ?_, x.ghost.q.next, hnode.ticket,
    hl.concat hq, ?_, hturn⟩
  · simp only [Function.update_self]
    refine { hnode.toQueueAt.take ht hg with
             readTicket := ?_, readCurrent := ?_, readWindow := ?_, owner := ?_, upto := ?_,
             calm := ?_ }
    · simpa using hnode.readTicket
    · simpa using hnode.readCurrent
    · simpa using hnode.readWindow
    · simpa using hnode.owner
    · simp only [Tickets.take]; omega
    · intro hno
      obtain ⟨h1, h2, h3⟩ := hnode.calm hno
      exact ⟨h1, h2, h3⟩
  · simp only [Function.update_self]
    refine ⟨?_, ?_, hlog.done.concat (by rintro _ _ _ ⟨⟩)⟩
    · intro u c hu
      rw [lastPos_concat_of_not rfl]
      by_cases hut : u = t
      · subst hut
        simp only [Tickets.take, Function.update_self, Option.some.injEq] at hu
        refine ⟨?_, by rw [hl.1.last]; omega, fun hlt' => ?_⟩
        · unfold InQueue
          rw [lastPos_concat_of_not rfl, lastPos_concat_of (by simp [takesTicket])]
          exact Nat.lt_succ_of_le lastPos_le
        · exact absurd hlt' (by dsimp only; omega)
      · simp only [Tickets.take, Function.update_of_ne hut] at hu
        obtain ⟨h1, h2, h3⟩ := hlog.queued u c hu
        refine ⟨?_, h2, fun hlt => (h3 hlt).grow⟩
        unfold InQueue
        rw [lastPos_concat_of_not rfl, lastPos_concat_of_not (by simp [takesTicket, Ne.symm hut])]
        exact h1
    · intro u hu
      rw [lastPos_concat_of_not rfl] at hu
      obtain ⟨p, u', h1, h2⟩ := hlog.buffer u hu
      refine ⟨p, u', h1.concat, fun w => ?_⟩
      rw [lastPos_concat_of_not rfl]
      exact h2 w
  · refine { log := ⟨_, rfl, rfl⟩, tick := fun u hu => ?_, granted := fun _ _ h => h,
             turn := fun u hu h => by simp [Tickets.take, h] }
    simp [Tickets.take, Function.update_of_ne hu]
  · simp [Tickets.take]

/-- One look at the turn: a waiting call notices that its turn has come. -/
theorem loadCurrent_cmd (hL : ∀ l e, QuietFor (hash k) t e → L l → L (l ++ [e])) :
    (combDiscipline hash k).Cmd t (.lock (hash k) (.loadCurrent .write))
      (fun x => L x.log ∧ Waits t c x)
      fun r x => L x.log ∧ if c % 2 ^ 32 = r then TurnStart hash k t x else Waits t c x := by
  rintro x r m hi ⟨hl, ht⟩ - he
  obtain ⟨n', hn, rfl⟩ := exec_lock he
  cases hn
  have hsame : Function.update x.mem.locks (hash k) (x.mem.locks (hash k)) = x.mem.locks :=
    Function.update_eq_self _ _
  simp only [hsame]
  have hstep := plain_step (t := t) (m := x.mem) hi (plain_act (t := t)
    (c := .lock (hash k) (.loadCurrent .write)) rfl ((x.mem.locks (hash k)).current .write)) rfl
    (frame_refl _) hi.node.upto (fun u c hc hlt => (hi.log.queued u c hc).2.2 hlt)
    (Or.inr ⟨sameWindow_refl _, rfl⟩)
  have hlog := hL _ _ (quietFor_act (c := .lock (hash k) (.loadCurrent .write)) rfl
    ((x.mem.locks (hash k)).current .write)) hl
  split
  · next heq =>
    -- the ticket is the current one, and nobody has the turn yet
    have hcur : c = x.ghost.q.cur := hi.node.toQueueAt.eq_cur ht.1 heq
    have hno : x.ghost.q.turn = none := hi.node.toQueueAt.turn_none (hcur ▸ ht.1) ht.2
    obtain ⟨h1, h2, h3⟩ := hi.node.calm hno
    refine ⟨⟨x.ghost.q.grant t, x.ghost.upto⟩, ⟨?_, ?_⟩, ?_, hlog, ?_⟩
    · exact { hi.node.toQueueAt.grant (hcur ▸ ht.1), hstep.1.node with
              calm := fun h => by cases h }
    · exact ⟨hstep.1.log.queued, hstep.1.log.buffer, hstep.1.log.done⟩
    · refine { log := ⟨_, rfl, rfl⟩, tick := fun _ _ => rfl, turn := fun u hu h => ?_,
               granted := fun u hu h => ?_ }
      · rw [hno] at h; cases h
      · exact absurd (Option.some.inj h).symm hu
    · exact ⟨_, _, _, _, ⟨h1, h2⟩, ⟨rfl, rfl, rfl, rfl, rfl, h3⟩⟩
  · exact ⟨x.ghost, hstep.1, hstep.2, hlog, ht⟩

theorem waitTurn_outline (hL : ∀ l e, QuietFor (hash k) t e → L l → L (l ++ [e])) :
    Outline (combDiscipline hash k) t (onLock (hash k) (waitTurn .write (c % 2 ^ 32)))
      (fun x => L x.log ∧ Waits t c x) fun _ x => L x.log ∧ TurnStart hash k t x := by
  have hS : (combDiscipline hash k).Stable t fun x => L x.log ∧ Waits t c x :=
    .and (stable_log hL) stable_waits
  have hS' : (combDiscipline hash k).Stable t fun x => L x.log ∧ TurnStart hash k t x :=
    .and (stable_log hL) stable_turnStart
  simp only [waitTurn, onLock_loop, onLock_bind, onLock_ite, onLock_pure]
  refine Outline.loop id (J := fun _ x => L x.log ∧ Waits t c x) (fun _ _ h => h) (fun _ => hS)
    fun _ => ?_
  refine Outline.cmd_bind False.elim (fun r => ?_) (loadCurrent_cmd hL) fun r => ?_
  · split
    · exact hS'
    · exact hS
  · refine Outline.ite (fun hne => Outline.pure fun x _ hx => ?_)
      fun heq => Outline.pure fun x _ hx => ?_
    · rwa [if_neg hne] at hx
    · rwa [if_pos (not_not.mp heq)] at hx

/-- What a call knows after `acquire`: a conflicted call is out of the queue, any other has the turn,
and it is handed over when it is in the window. -/
def Acquired (hash : Key → Nat) (k : Key) (t : Tid) (r : Bool × Bool) (x : CombWorld hash) : Prop :=
  if r.2 then Away t x
  else ∃ w c U, (w = U - c ∧ (r.1 = true → 0 < w) ∧ (r.1 = false → w = 0)) ∧
    Turn hash k t w r.1 (decide (0 < w)) c U x

/-- The window test. -/
theorem testWindow_outline (hL : ∀ l e, QuietFor (hash k) t e → L l → L (l ++ [e]))
    (hw : w = U - c) (hh : 0 < w → h = true) :
    Outline (combDiscipline hash k) t (onLock (hash k) (testWindow .write))
      (fun x => L x.log ∧ Turn hash k t w h (decide (0 < w)) c U x)
      fun r x => L x.log ∧ Acquired hash k t (r, false) x := by
  simp only [testWindow, onLock_bind, onLock_ite]
  refine turn_load hL rfl (φ := (w = ·)) (fun _ => rfl) (fun n g _ _ hw _ _ => hw.symm) ?_
  rintro _ rfl
  refine Outline.ite (fun h0 => ?_) fun h0 => ?_
  · have hw0 : w = 0 := h0
    refine turn_bind hL rfl (φ := fun _ => True) (m := w) (n := false) (o := decide (0 < w)) ?_
      fun _ _ => ?_
    · intro n g r n' hn hc hw hh hs he
      cases he
      exact ⟨⟨rfl, rfl, id, fun _ => Or.inl, rfl⟩, hw, by simp, hs, trivial⟩
    refine turn_load hL rfl (φ := (false = ·)) (f := pure) (fun _ => rfl)
      (fun n g _ _ _ hh _ => hh.symm) ?_
    rintro _ rfl
    exact Outline.pure fun x _ hx => ⟨hx.1, w, c, U, ⟨hw, nofun, fun _ => hw0⟩, hx.2⟩
  · have hpos : 0 < w := Nat.pos_of_ne_zero h0
    have htrue := hh hpos
    subst htrue
    refine turn_load hL rfl (φ := (true = ·)) (f := pure) (fun _ => rfl)
      (fun n g _ _ _ hh _ => hh.symm) ?_
    rintro _ rfl
    exact Outline.pure fun x _ hx => ⟨hx.1, w, c, U, ⟨hw, fun _ => hpos, nofun⟩, hx.2⟩

theorem takeTurn_outline (hL : ∀ l e, QuietFor (hash k) t e → L l → L (l ++ [e])) :
    Outline (combDiscipline hash k) t (onLock (hash k) (takeTurn .write k))
      (fun x => L x.log ∧ TurnStart hash k t x)
      fun r x => L x.log ∧ Acquired hash k t r x := by
  refine Outline.mono (R := fun x => ∃ w h c U, L x.log ∧ (w = U - c ∧ (0 < w → h = true)) ∧
    Turn hash k t w h (decide (0 < w)) c U x) ?_ fun x _ ⟨hl, w, h, c, U, hf, hx⟩ =>
      ⟨w, h, c, U, hl, hf, hx⟩
  refine Outline.of_exists fun w => Outline.of_exists fun h => Outline.of_exists fun c =>
    Outline.of_exists fun U => ?_
  refine Outline.of_fact (φ := (w = U - c ∧ (0 < w → h = true)) ∧ w < 2 ^ 32) ?_
    fun ⟨⟨hw, hh⟩, hlt⟩ => Outline.mono (R := fun x => L x.log ∧
      Turn hash k t w h (decide (0 < w)) c U x) ?_ fun x _ hx => ⟨hx.1, hx.2.2⟩
  · rintro x hi ⟨-, hf, ht⟩
    have h1 := hi.node.upto
    have h2 := hi.node.wf.fits
    rw [ht.upto] at h1
    rw [ht.cur] at h2
    exact ⟨hf, by omega⟩
  simp only [takeTurn, onLock_bind, onLock_ite, onLock_pure]
  refine turn_load hL rfl (φ := fun _ => True) (fun _ => rfl) (fun _ _ _ _ _ _ _ => trivial) ?_
  intro r _
  refine Outline.ite (fun _ => ?_) fun _ => ?_
  · refine Outline.bind (leaveWindow_outline hL hlt) fun _ => ?_
    refine Outline.bind (leave_outline hL (by omega) (fun h0 => hh (by omega))) fun _ => ?_
    exact Outline.pure fun x _ hx => hx
  · refine Outline.bind (testWindow_outline hL hw hh) fun r => ?_
    exact Outline.pure fun x _ hx => hx

/-- `acquire_local_write_lock` -/
theorem acquireLocalWriteLock_outline :
    Outline (combDiscipline hash k) t (onLock (hash k) (acquireLocalWriteLock k v))
      (fun x => Entered hash k t a x.log ∧ Away t x)
      fun r x => ∃ s, Queued hash k t a s v x.log ∧ Acquired hash k t r x := by
  have hE : (combDiscipline hash k).Stable t fun x => Entered hash k t a x.log ∧ Away t x :=
    .and (stable_log fun l e he h => h.concat he) stable_away
  have hL : ∀ s (l : NodeLog hash) e, QuietFor (hash k) t e → Queued hash k t a s v l →
      Queued hash k t a s v (l ++ [e]) := fun s l e he h => h.concat he
  simp only [acquireLocalWriteLock, onLock_bind, onLock_ite, onLock_pure]
  refine Outline.cmd_bind False.elim (fun r => .and (Discipline.stable_const _) hE) casUniqueKey_cmd fun r => ?_
  refine Outline.of_fact (fun x _ hx => hx.1) fun hr => ?_
  rw [if_neg (by simpa using hr)]
  refine Outline.mono ?_ fun x _ hx => hx.2
  refine Outline.cmd_bind False.elim (fun _ => .exists fun s => .and (stable_log (hL s)) stable_away)
    storeWcBuffer_cmd fun _ => Outline.of_exists fun s => ?_
  refine Outline.cmd_bind False.elim (fun _ => .exists fun c => .and (Discipline.stable_const _)
    (.and (stable_log (hL s)) stable_waits)) incTicket_cmd fun r => Outline.of_exists fun c => ?_
  refine Outline.of_fact (fun x _ hx => hx.1) fun hr => ?_
  subst hr
  refine Outline.mono ?_ fun x _ hx => hx.2
  refine Outline.bind (waitTurn_outline (hL s)) fun _ => ?_
  exact (takeTurn_outline (hL s)).post fun r x _ hx => ⟨s, hx⟩

/-! ## Whole calls and whole runs -/

/-- `write(k, v)` -/
theorem combinedWrite_outline (n : Nat) :
    Outline (combDiscipline hash k) t (combinedWrite hash k v n)
      (fun x => Entered hash k t a x.log ∧ Away t x)
      fun _ x => ∃ s, (Stored hash k t a s v x.log ∧ Carried hash k x.log s x.log.length) ∧
        Away t x := by
  unfold combinedWrite
  refine Outline.bind acquireLocalWriteLock_outline fun r => Outline.of_exists fun s => ?_
  have hdone : ∀ (h : Bool) (x : CombWorld hash), Releasable hash k t a s v h x.log ∧ Away t x →
      ∃ s, (Stored hash k t a s v x.log ∧ Carried hash k x.log s x.log.length) ∧ Away t x :=
    fun h x hx => ⟨s, ⟨hx.1.1, hx.1.2.1⟩, hx.2⟩
  have hval : ∀ l : NodeLog hash, Queued hash k t a s v l → Sampled hash k t a s v l :=
    fun l hl => ⟨s, t, le_rfl, hl.1.stores, fun hlt => absurd hl.2 (by omega)⟩
  obtain ⟨ho, conflict⟩ := r
  cases conflict with
  | true =>
    simp only [Acquired, Bool.not_true, Bool.and_false, Bool.false_eq_true, if_false, if_true,
      releaseLocalWriteLock, onLock_pure]
    refine Outline.bind ((combinedInsert_outline framed_away stable_away n v).mono
      fun x _ hx => ⟨⟨hx.1.1, hval _ hx.1⟩, hx.2⟩) fun _ => Outline.pure fun x _ hx => ?_
    exact ⟨s, ⟨hx.1.1, hx.1.2.1⟩, hx.2⟩
  | false =>
    simp only [Acquired, Bool.not_false, Bool.and_true, Bool.false_eq_true, if_false,
      releaseLocalWriteLock]
    refine Outline.mono (R := fun x => ∃ w c U, (w = U - c ∧ (ho = true → 0 < w) ∧
      (ho = false → w = 0)) ∧ Queued hash k t a s v x.log ∧
        Turn hash k t w ho (decide (0 < w)) c U x) ?_
      fun x _ ⟨hq, w, c, U, hf, ht⟩ => ⟨w, c, U, hf, hq, ht⟩
    refine Outline.of_exists fun w => Outline.of_exists fun c => Outline.of_exists fun U => ?_
    refine Outline.of_fact (fun x _ hx => hx.1) fun ⟨hw, hT, hF⟩ => ?_
    cases ho with
    | true =>
      -- handed over: the call is in the window, and the window has been carried
      refine ((releaseTurnWrite_outline hw hT hF).post fun _ x _ hx => hdone _ x hx).mono ?_
      rintro x hi ⟨-, hq, ht⟩
      have hpos := hT rfl
      have hcar := (hi.log.queued t _ (hi.node.wf.turn t ht.turn)).2.2
        (by rw [ht.cur, ht.upto]; omega)
      rw [hq.1.last] at hcar
      exact ⟨⟨hq.1, hcar, nofun⟩, ht⟩
    | false =>
      simp only [Bool.false_eq_true, if_false]
      refine Outline.bind ((combinedInsert_outline framed_turn stable_turn n v).mono
        fun x _ hx => ⟨⟨hx.2.1.1, hval _ hx.2.1⟩, hx.2.2⟩) fun _ => ?_
      refine ((releaseTurnWrite_outline hw hT hF).post fun _ x _ hx => hdone _ x hx).mono ?_
      exact fun x _ hx => ⟨⟨hx.1.1, hx.1.2.1, fun _ => hx.1.2.2⟩, hx.2⟩

/-- The calls keep the discipline. -/
theorem combKeeps (hash : Key → Nat) (k : Key) :
    Keeps (combDiscipline hash k) (fun t _ => Away t)
      (fun t _ _ x => ∃ a, Entered hash k t a x.log ∧ Away t x)
      fun t op _ _ x => ∃ a v n s, op = .write k v n ∧
        (Stored hash k t a s v x.log ∧ Carried hash k x.log s x.log.length) ∧ Away t x where
  idle_stable _ _ := stable_away
  pre_stable _ _ _ := .exists fun _ => .and (stable_log fun l e he h => h.concat he) stable_away
  call := by
    intro t op l x hg hi hidle
    have hp : Plain (hash k) (.call t op) :=
      ⟨fun _ => rfl, fun _ => rfl, fun _ => rfl, by rintro _ _ _ ⟨⟩⟩
    have hstep := plain_step (t := t) (m := x.mem) hi hp rfl (frame_refl _) hi.node.upto
      (fun u c hc hlt => (hi.log.queued u c hc).2.2 hlt) (Or.inr ⟨sameWindow_refl _, rfl⟩)
    refine ⟨x.ghost, hstep.1, hstep.2, x.log.length + 1, ⟨?_, ?_⟩, hidle⟩
    · exact lastPos_concat_of (by simp [Event.isCall])
    · exact lastPos_le.trans (by simp)
  code := by
    rintro t op l ⟨v, n, rfl⟩
    refine Outline.of_exists fun a => ?_
    refine Outline.bind (combinedWrite_outline n) fun _ => Outline.pure fun x _ hx => ?_
    obtain ⟨s, hs, haway⟩ := hx
    exact ⟨a, v, n, s, rfl, hs, haway⟩
  ret := by
    rintro t op res l x hi ⟨a, v, n, s, rfl, ⟨hst, hcar⟩, haway⟩
    refine ⟨x.ghost, ⟨?_, ?_⟩, ?_, haway⟩
    · exact hi.node
    · refine ⟨?_, ?_, ?_⟩
      · intro u c hu
        obtain ⟨h1, h2, h3⟩ := hi.log.queued u c hu
        rw [lastPos_concat_of_not rfl]
        refine ⟨?_, h2, fun hlt => (h3 hlt).grow⟩
        unfold InQueue
        rw [lastPos_concat_of_not rfl, lastPos_concat_of_not rfl]
        exact h1
      · intro u hu
        rw [lastPos_concat_of_not rfl] at hu
        obtain ⟨p, u', h1, h2⟩ := hi.log.buffer u hu
        refine ⟨p, u', h1.concat, fun w => ?_⟩
        rw [lastPos_concat_of_not rfl]
        exact h2 w
      · exact hi.log.done.ret hst hcar
    · exact { log := ⟨_, rfl, rfl⟩, tick := fun _ _ => rfl, granted := fun _ _ h => h,
              turn := fun u hu h => ⟨h, rfl, rfl, rfl, rfl, rfl⟩ }

theorem combInit (hash : Key → Nat) (k : Key) :
    ConfigOk (combDiscipline hash k) (fun t _ => Away t)
      (fun t op _ _ x => ∃ a v n s, op = .write k v n ∧
        (Stored hash k t a s v x.log ∧ Carried hash k x.log s x.log.length) ∧ Away t x)
      (nodeInit hash) := by
  refine ⟨⟨Tickets.empty, 0⟩, ⟨?_, ?_⟩, fun _ => rfl⟩
  · exact { QueueAt.empty with
            readTicket := rfl, readCurrent := rfl, readWindow := rfl, owner := nofun,
            upto := le_rfl, calm := fun _ => ⟨rfl, nofun, rfl⟩ }
  · exact ⟨nofun, nofun, nofun⟩

/-- In every run of concurrent writes of one key that combine in time, no update is lost. -/
theorem noLostUpdate_of_inTime (hash : Key → Nat) (k : Key) (c : NodeConfig hash)
    (h : Reach nodeMachine (writesInTime hash k) (nodeInit hash) c) : NoLostUpdate hash k c.log := by
  obtain ⟨g, hi, -⟩ := (combKeeps hash k).reach (combInit hash k) h
  exact hi.log.done

/-- The value of call 1 is combined in time: it is in `wc_buffer` when call 0 samples it. -/
def storeInTime : List (Move (nodeClient fun _ => 0)) :=
  [.call 0 (NodeOp.write (Key.ofNat 1) 1 0)] ++ Move.steps 0 3 ++
    [.call 1 (NodeOp.write (Key.ofNat 1) 2 0)] ++ Move.steps 1 3 ++ Move.steps 0 29 ++
    Move.steps 1 20

/-- A write of `k` by `t` returns. -/
def returnsWrite (t : Tid) (k : Key) : NodeEvent → Bool
  | .ret u (.write k' _ _) _ => u == t && k' == k
  | _ => false

/-- A remote write. -/
def isRemoteWrite : NodeEvent → Bool
  | .act _ (.remoteWrite _ _) _ => true
  | _ => false

/-- The condition is met by a run with a handover: both calls return, and only one has gone to remote
memory. -/
theorem noLostUpdate_of_inTime_handover :
    ∃ c : NodeConfig fun _ => 0,
      Reach nodeMachine (writesInTime (fun _ => 0) (Key.ofNat 1)) (nodeInit fun _ => 0) c ∧
      (c.log.any (returnsWrite 0 (Key.ofNat 1)) && c.log.any (returnsWrite 1 (Key.ofNat 1)) &&
        c.log.countP isRemoteWrite == 1) = true ∧
      NoLostUpdate (fun _ => 0) (Key.ofNat 1) c.log := by
  have hev : ((nodeInit fun _ => 0).runIf nodeMachine
      (fun m l t cmd => decide (CombinesInTime m l t cmd)) storeInTime).map (fun c =>
        c.log.any (returnsWrite 0 (Key.ofNat 1)) && c.log.any (returnsWrite 1 (Key.ofNat 1)) &&
        c.log.countP isRemoteWrite == 1) = some true := by decide +kernel
  obtain ⟨c, hrun, hcheck⟩ := Option.map_eq_some_iff.mp hev
  have hreach : Reach nodeMachine (writesInTime (fun _ => 0) (Key.ofNat 1)) (nodeInit fun _ => 0) c := by
    refine runIf_reach (fun m l t cmd h =>
      of_decide_eq_true (p := CombinesInTime m l t cmd) h) storeInTime ?_ hrun
    delta storeInTime
    simp [writesInTime]
  exact ⟨c, hreach, hcheck, noLostUpdate_of_inTime _ _ c hreach⟩

/-- Call 1 stores its value and queues up between the remote write of call 0 and its release. -/
def storeTooLate : List (Move (nodeClient fun _ => 0)) :=
  [.call 0 (NodeOp.write (Key.ofNat 1) 1 0)] ++ Move.steps 0 12 ++
    [.call 1 (NodeOp.write (Key.ofNat 1) 2 0)] ++ Move.steps 1 3 ++ Move.steps 0 20 ++
    Move.steps 1 20

/-- Without the condition an update can be lost: call 1 is counted into the window and handed over,
but the value that call 0 carried is older than its own. -/
theorem exists_lostUpdate :
    ¬ ∀ c, Reach nodeMachine (onlyWrites (fun _ => 0) (Key.ofNat 1)) (nodeInit fun _ => 0) c →
      NoLostUpdate (fun _ => 0) (Key.ofNat 1) c.log := by
  intro h
  have hev : ((nodeInit fun _ => 0).runIf nodeMachine (fun _ _ _ _ => true) storeTooLate).map
      (fun c => c.log[54]?.any (returnsWrite 1 (Key.ofNat 1)) && c.log[12]?.any (Event.isCall 1) &&
        (c.log.drop 12).all fun e => !isRemoteWrite e) = some true := by decide +kernel
  obtain ⟨c, hrun, hcheck⟩ := Option.map_eq_some_iff.mp hev
  simp only [Bool.and_eq_true, List.all_eq_true, Bool.not_eq_true'] at hcheck
  obtain ⟨⟨hret, hcall⟩, hnone⟩ := hcheck
  have hlost := h c (runIf_reach (fun _ _ _ _ _ => trivial) storeTooLate
    (by delta storeTooLate; simp [onlyWrites]) hrun)
  obtain ⟨e, he, hret⟩ := (Option.any_eq_true _ _).mp hret
  obtain ⟨e', he', hcall⟩ := (Option.any_eq_true _ _).mp hcall
  obtain ⟨v, n, res, rfl⟩ : ∃ v n res, e = .ret 1 (.write (Key.ofNat 1) v n) res := by
    unfold returnsWrite at hret
    split at hret
    · next u k' v n res =>
      obtain ⟨rfl, rfl⟩ : u = 1 ∧ k' = Key.ofNat 1 := by simpa using hret
      exact ⟨v, n, res, rfl⟩
    · cases hret
  obtain ⟨op, rfl⟩ : ∃ op, e' = .call 1 op := by
    unfold Event.isCall at hcall
    split at hcall
    · next u op =>
      obtain rfl : u = 1 := by simpa using hcall
      exact ⟨op, rfl⟩
    · cases hcall
  -- the store of call 1 comes after its call, and no remote write comes after that
  obtain ⟨s, -, -, hs, p, j, u, u', b, h1, h2, -, -, hj⟩ := hlost 54 1 v n res he
  have hlt := hs 12 op he' (by omega)
  have hmem : Event.act u' (NodeCmd.remoteWrite (Key.ofNat 1) b) () ∈ c.log.drop 12 := by
    refine List.mem_of_getElem? (i := j - 12) ?_
    rw [List.getElem?_drop, Nat.add_sub_cancel' (by omega)]
    exact hj
  simpa [isRemoteWrite] using hnone _ hmem

end DMTree
