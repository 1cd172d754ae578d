import DMTree.Proofs.TurnCommands

/-!
# Proof outlines of the calls at a lock node

The functions of the lock table, from the assertions and the rules of `TurnCommands`. A call goes from
no ticket to a waiting ticket, to the turn, and back to no ticket; in runs that settle its duties go with
it.
-/

namespace DMTree.LockTurns

open Conc

variable {hash : Key → Nat} {i : Nat} {mode : Prop} {t : Tid} {s : Side} {k : Key} {v : Value}
  {op : NodeOp} {A F W : LockView hash → Prop} {L : NodeLog hash → Prop} {α : Type}

/-- A quiet access that answers nothing of interest, and then the rest. -/
theorem quiet_bind {c : LockCmd} {f : c.Resp → NodeProg α}
    {Q : α → World (nodeClient hash) NodeState LockGhost → Prop} (hc : c.quiet = true)
    (hok : StatusOk i mode t A L F W)
    (hf : ∀ r, Outline (turnDiscipline hash i mode) t (f r) (At i (Status mode A L F W)) Q) :
    Outline (turnDiscipline hash i mode) t (Prog.cmd (S := NodeSig) (.lock i c) >>= f)
      (At i (Status mode A L F W)) Q :=
  Outline.cmd_bind False.elim (fun _ => hok.stable)
    (quiet_cmd hc (fun _ => hok) fun _ _ _ _ _ _ _ hx _ => hx.node) hf

/-! ## Waiting -/

theorem waitTurn_outline {c : Nat} (hL : LogFact i t L) :
    Outline (turnDiscipline hash i mode) t (onLock i (waitTurn s (c % 2 ^ 32)))
      (At i (Status mode (Waits s t c) L (fun _ => True) fun _ => True))
      fun _ => At i (Status mode (HasTurn s t) L (fun _ => True) (Tasked s {})) := by
  have hwait : StatusOk i mode t (Waits s t c) L (fun _ => True) fun _ => True :=
    statusOk_plain fact_waits hL
  have hturn : StatusOk i mode t (HasTurn s t) L (fun _ => True) (Tasked s {}) :=
    ⟨fact_hasTurn, hL, fact_const _, winFact_tasked⟩
  simp only [waitTurn, onLock_loop, onLock_bind, onLock_ite, onLock_pure]
  refine Outline.loop id
    (J := fun _ => At i (Status mode (Waits s t c) L (fun _ => True) fun _ => True))
    (fun _ _ h => h) (fun _ => hwait.stable) fun _ => ?_
  refine Outline.cmd_bind False.elim (fun r => ?_) (waits_cmd hL) fun r => ?_
  · split
    · exact hturn.stable
    · exact hwait.stable
  · refine Outline.ite (fun hne => Outline.pure fun x _ hx => ?_)
      fun heq => Outline.pure fun x _ hx => ?_
    · rwa [if_neg hne] at hx
    · rwa [if_pos (not_not.mp heq)] at hx

/-! ## Leaving the window -/

section Leave

/-- The duties of a call that has handed over. -/
def passing : Duty := { passed := true }

/-- The duties of a call that has left the window and looks whether it is over. -/
def checking : Duty := { passed := true, left := true, check := true }

theorem setDuty_eq {g : LockGhost} {d : Duty} (h : g.duty s = d) : g.setDuty s d = g := by
  subst h
  simp [LockGhost.setDuty]

/-- The window of side `s`, as the call that holds the mutex has seen it. -/
def Leaves (s : Side) (t : Tid) (d : Duty) (w : Nat) (x : LockView hash) : Prop :=
  Tasked s d x ∧ Owns s t x ∧ x.node.window s = w

theorem winFact_leaves {d : Duty} {w : Nat} :
    WinFact i mode t (HasTurn s t) fun x : LockView hash => Leaves s t d w x where
  stable := by
    rintro hm u x x' hu hr ht ⟨hd, ho, hw⟩
    refine ⟨winFact_tasked.stable hm u x x' hu hr ht hd, (hr.owner s t (Ne.symm hu)).mpr ho, ?_⟩
    rw [(hr.frozen hm s t (Ne.symm hu) ho).2 ht]
    exact hw
  frame := fun x n e hw h => ⟨h.1, h.2.1, (congrFun hw.window s).trans h.2.2⟩

theorem winFact_tasked_owns {o : Side} {d : Duty} :
    WinFact i mode t (HasTurn s t) fun x : LockView hash => Tasked s d x ∧ Owns o t x :=
  winFact_tasked.and winFact_owns

variable (hL : LogFact i t L) (hF : Fact i mode t (HasTurn s t) F)

include hL hF

/-- `if(node.window)` -/
theorem loadWindow_cmd :
    (turnDiscipline hash i mode).Cmd t (.lock i (.loadWindow s))
      (At i (Status mode (HasTurn s t) L F fun x => Tasked s passing x ∧ Owns s t x))
      fun r => At i (Status mode (HasTurn s t) L F
        (Leaves s t (if r = 0 then leaving else passing) r)) := by
  refine duty_cmd (c := .loadWindow s) (d := fun r => if r = 0 then leaving else passing) rfl
    (fun r => ⟨fact_hasTurn, hL, hF, winFact_leaves⟩) ?_
  rintro hm x r n hi ht - ⟨hd, ho⟩ hn
  cases hn
  have hwin := (hi.rest hm).win
  have hd' : x.g.duty s = passing := hd
  refine ⟨?_, ?_, fun _ _ _ _ _ => rfl, setDuty_self, ho, rfl⟩
  · split
    · next hz => exact hwin.outside ht hd' ho hz ((hi.side s).wf.range t _ ((hi.side s).wf.turn t ht)).2
    · rw [setDuty_eq hd']
      exact hwin
  · rw [hd']
    split <;> rfl

/-- `--node.window` -/
theorem decWindow_cmd {w : Nat} (hw : w ≠ 0) :
    (turnDiscipline hash i mode).Cmd t (.lock i (.decWindow s))
      (At i (Status mode (HasTurn s t) L F (Leaves s t passing w)))
      fun _ => At i (Status mode (HasTurn s t) L F fun x => Tasked s checking x ∧ Owns s t x) := by
  refine duty_cmd (c := .decWindow s) (d := fun _ => checking) rfl
    (fun _ => ⟨fact_hasTurn, hL, hF, winFact_tasked_owns⟩) ?_
  rintro hm x r n hi ht - ⟨hd, ho, rfl⟩ hn
  cases hn
  have hd' : x.g.duty s = passing := hd
  have ho' : x.g.owner s = some t := ho
  have hwin := (hi.rest hm).win
  refine ⟨hwin.leaveWindow ht hd' rfl ho ?_, ?_, ?_, setDuty_self, ho⟩
  · have hle := hwin.window s
    have hfits := (hi.side s).wf.fits
    omega
  · rw [hd']
    rfl
  · intro s' u hu hown _
    have hs : s' ≠ s := by
      rintro rfl
      rw [ho'] at hown
      exact hu (Option.some.inj hown).symm
    exact Function.update_of_ne hs _ _

/-- `if(!node.read_window && !node.write_window)`, for one of the two. -/
theorem checkWindow_cmd {s' : Side} :
    (turnDiscipline hash i mode).Cmd t (.lock i (.loadWindow s'))
      (At i (Status mode (HasTurn s t) L F fun x => Tasked s checking x ∧ Owns s t x))
      fun r => At i (Status mode (HasTurn s t) L F fun x =>
        Tasked s (if r ≠ 0 then leaving else checking) x ∧ Owns s t x) := by
  refine duty_cmd (c := .loadWindow s') (d := fun r => if r ≠ 0 then leaving else checking) rfl
    (fun r => ⟨fact_hasTurn, hL, hF, winFact_tasked_owns⟩) ?_
  rintro hm x r n hi ht - ⟨hd, ho⟩ hn
  cases hn
  have hwin := (hi.rest hm).win
  have hd' : x.g.duty s = checking := hd
  refine ⟨?_, ?_, fun _ _ _ _ _ => rfl, setDuty_self, ho⟩
  · split
    · next hz => exact hwin.goesOn ht hd' rfl rfl (HasTurn.other_ne ht hi) hz
    · rw [setDuty_eq hd']
      exact hwin
  · rw [hd']
    split <;> rfl

/-- `node.window_start = false` -/
theorem clearWindowStart_cmd :
    (turnDiscipline hash i mode).Cmd t (.lock i .clearWindowStart)
      (At i (Status mode (HasTurn s t) L F fun x => Tasked s checking x ∧ Owns s t x))
      fun _ => At i (Status mode (HasTurn s t) L F fun x => Tasked s leaving x ∧ Owns s t x) := by
  refine duty_cmd (c := .clearWindowStart) (d := fun _ => leaving) rfl
    (fun _ => ⟨fact_hasTurn, hL, hF, winFact_tasked_owns⟩) ?_
  rintro hm x r n hi ht - ⟨hd, ho⟩ hn
  cases hn
  have hd' : x.g.duty s = checking := hd
  refine ⟨(hi.rest hm).win.finish ht hd', ?_, fun _ _ _ _ _ => rfl, setDuty_self, ho⟩
  rw [hd']
  rfl

/-- A call leaves the window and ends it if it is over. -/
theorem leaveWindow_outline :
    Outline (turnDiscipline hash i mode) t (onLock i (leaveWindow s))
      (At i (Status mode (HasTurn s t) L F fun x => Tasked s passing x ∧ Owns s t x))
      fun _ => At i (Status mode (HasTurn s t) L F fun x => Tasked s leaving x ∧ Owns s t x) := by
  have hok : ∀ d, StatusOk i mode t (HasTurn s t) L F fun x => Tasked s d x ∧ Owns s t x :=
    fun d => ⟨fact_hasTurn, hL, hF, winFact_tasked_owns⟩
  simp only [leaveWindow, onLock_bind, onLock_ite, onLock_pure]
  refine Outline.cmd_bind False.elim
    (fun r => StatusOk.stable ⟨fact_hasTurn, hL, hF, winFact_leaves⟩) (loadWindow_cmd hL hF)
    fun w => Outline.ite (fun hw => Outline.pure fun x _ hx => ?_) fun hw => ?_
  · rw [if_pos hw] at hx
    exact ⟨hx.queue, hx.log, hx.node, fun hm => ⟨(hx.windows hm).1, (hx.windows hm).2.1⟩⟩
  rw [if_neg hw]
  refine Outline.cmd_bind False.elim (fun _ => (hok _).stable) (decWindow_cmd hL hF hw) fun _ => ?_
  refine Outline.cmd_bind False.elim (fun _ => (hok _).stable) (checkWindow_cmd hL hF) fun r =>
    Outline.ite (fun hr => Outline.pure fun x _ hx => ?_) fun hr => ?_
  · rwa [if_pos hr] at hx
  rw [if_neg hr]
  refine Outline.cmd_bind False.elim (fun _ => (hok _).stable) (checkWindow_cmd hL hF) fun w =>
    Outline.ite (fun hw => Outline.pure fun x _ hx => ?_) fun hw => ?_
  · rwa [if_pos hw] at hx
  rw [if_neg hw]
  exact Outline.cmd False.elim (fun _ => (hok _).stable) (clearWindowStart_cmd hL hF)

end Leave

/-- `release` passes the turn on. -/
theorem passTurn_outline (hF : Fact i mode t (HasTurn s t) F) :
    Outline (turnDiscipline hash i mode) t (onLock i (passTurn s))
      (At i (Status mode (HasTurn s t) (Enrolled i t op) F (Tasked s passing)))
      fun _ => At i (Status mode (Out t) (Enrolled i t op) (fun _ => True) fun _ => True) := by
  have hL : LogFact i t fun l : NodeLog hash => Enrolled i t op l := logFact_enrolled
  simp only [passTurn, onLock_bind]
  refine Outline.cmd_bind False.elim (fun _ => StatusOk.stable
    ⟨fact_hasTurn, hL, hF, winFact_tasked_owns⟩)
    (mutexLock_cmd (D := fun d => d s = passing) ⟨fact_hasTurn, hL, hF, winFact_tasked_owns⟩)
    fun _ => ?_
  refine Outline.bind (leaveWindow_outline hL hF) fun _ => ?_
  refine Outline.cmd_bind False.elim (fun _ => StatusOk.stable
    ⟨fact_out, hL, fact_const _, winFact_owns⟩) incCurrent_cmd fun _ => ?_
  have hno : ∀ (x : LockView hash) o, LockInv i mode x → Out t x → (x.g.q o).turn ≠ some t :=
    fun x o hi hx => (hi.side o).toQueueAt.not_turn (hx o)
  refine Outline.mono (Outline.cmd False.elim (fun _ => StatusOk.stable
    ⟨fact_out, hL, fact_const _, winFact_const _⟩) (mutexUnlock_cmd (D := fun _ => True)
      ⟨fact_out, hL, fact_const _, winFact_const _⟩ (fun x => hno x s) fun x hi hx _ _ => hno x _ hi hx))
    fun x _ hx => ?_
  exact ⟨hx.queue, hx.log, trivial, fun hm => ⟨trivial, hx.windows hm⟩⟩

/-! ## Starting a window -/

section Start

/-- The duties of a call that has started a window; `b` tells whether its own part is still to come. -/
def starting (b : Bool) : Duty := { own := b, other := true }

/-- `current` of the other side under its mutex. -/
def Counted (s o : Side) (t : Tid) (d : Duty) (current : Nat) (x : LockView hash) : Prop :=
  (Tasked s d x ∧ Owns o t x) ∧ Current o current x

/-- The queue of the other side has been sampled: there is nobody in it, or a window of size `z` is due. -/
def Sampled (s o : Side) (t : Tid) (b : Bool) (z : Nat) (x : LockView hash) : Prop :=
  (Tasked s (if z = 0 then { own := b, zero := true } else starting b) x ∧ Owns o t x) ∧
    z ≤ (x.g.q o).next - (x.g.q o).cur

theorem winFact_counted {o : Side} {d : Duty} {c : Nat} :
    WinFact i mode t (HasTurn s t) fun x : LockView hash => Counted s o t d c x where
  stable := by
    rintro hm u x x' hu hr ht ⟨hd, hc⟩
    refine ⟨winFact_tasked_owns.stable hm u x x' hu hr ht hd, ?_⟩
    unfold Current
    rw [(hr.frozen hm o t (Ne.symm hu) hd.2).1]
    exact hc
  frame := fun _ _ _ _ h => h

theorem winFact_sampled {o : Side} {b : Bool} {z : Nat} :
    WinFact i mode t (HasTurn s t) fun x : LockView hash => Sampled s o t b z x where
  stable := by
    rintro hm u x x' hu hr ht ⟨hd, hz⟩
    refine ⟨winFact_tasked_owns.stable hm u x x' hu hr ht hd, ?_⟩
    have hnext := hr.next o
    rw [(hr.frozen hm o t (Ne.symm hu) hd.2).1]
    omega
  frame := fun _ _ _ _ h => h

variable (hL : LogFact i t L) (hF : Fact i mode t (HasTurn s t) F)

include hL hF

/-- The starter loads `current` of the other side. -/
theorem countOther_cmd {o : Side} {d : Duty} :
    (turnDiscipline hash i mode).Cmd t (.lock i (.loadCurrent o))
      (At i (Status mode (HasTurn s t) L F fun x => Tasked s d x ∧ Owns o t x))
      fun r => At i (Status mode (HasTurn s t) L F (Counted s o t d r)) :=
  look_cmd (G := fun _ => F) (fun _ => ⟨fact_hasTurn, hL, hF, winFact_counted⟩)
    (fun _ hi hx => HasTurn.not_waiting hx hi o)
    fun _ hi hx => ⟨hx.node, fun hm => ⟨hx.windows hm, (hi.side o).current⟩⟩

/-- The starter loads `ticket` of the other side. -/
theorem sampleOther_cmd {b : Bool} {c : Nat} :
    (turnDiscipline hash i mode).Cmd t (.lock i (.loadTicket s.other))
      (At i (Status mode (HasTurn s t) L F (Counted s s.other t (starting b) c)))
      fun r => At i (Status mode (HasTurn s t) L F (Sampled s s.other t b (queueLength r c))) := by
  refine duty_cmd (c := .loadTicket s.other)
    (d := fun r => if queueLength r c = 0 then { own := b, zero := true } else starting b) rfl
    (fun r => ⟨fact_hasTurn, hL, hF, winFact_sampled⟩) ?_
  rintro hm x r n hi ht - ⟨⟨hd, ho⟩, hc⟩ hn
  cases hn
  have hd' : x.g.duty s = starting b := hd
  have hc' : c = (x.g.q s.other).cur % 2 ^ 32 := hc
  have hside := hi.side s.other
  have hz : queueLength (x.node.ticket s.other) c =
      (x.g.q s.other).next - (x.g.q s.other).cur := by
    rw [hside.ticket, hc', queueLength_mod hside.wf.le hside.wf.fits]
  have hwin := (hi.rest hm).win
  refine ⟨?_, ?_, fun _ _ _ _ _ => rfl, ⟨setDuty_self, ho⟩, hz.le⟩
  · split
    · next h0 =>
      have hle := hside.wf.le
      refine hwin.sampleZero ht hd' rfl ho (by omega) ?_
      cases hturn : (x.g.q s.other).turn with
      | none => rfl
      | some u =>
        have hlt := (hside.wf.range u _ (hside.wf.turn u hturn)).2
        omega
    · rw [setDuty_eq hd']
      exact hwin
  · rw [hd']
    split <;> rfl

/-- The starter stores the part of the other side. -/
theorem storeOther_cmd {b : Bool} {z : Nat} :
    (turnDiscipline hash i mode).Cmd t (.lock i (.storeWindow s.other z))
      (At i (Status mode (HasTurn s t) L F (Sampled s s.other t b z)))
      fun _ => At i (Status mode (HasTurn s t) L F fun x =>
        Tasked s { own := b } x ∧ Owns s.other t x) := by
  refine duty_cmd (c := .storeWindow s.other z) (d := fun _ => { own := b }) rfl
    (fun _ => ⟨fact_hasTurn, hL, hF, winFact_tasked_owns⟩) ?_
  rintro hm x r n hi ht - ⟨⟨hd, ho⟩, hz⟩ hn
  cases hn
  have ho' : x.g.owner s.other = some t := ho
  have hwin := (hi.rest hm).win
  have hno := HasTurn.other_ne ht hi
  refine ⟨?_, ?_, ?_, setDuty_self, ho⟩
  · by_cases h0 : z = 0
    · rw [if_pos h0] at hd
      subst h0
      exact hwin.storeZero ht hd rfl hno ho
    · rw [if_neg h0] at hd
      exact hwin.storeOther ht hd rfl hno ho h0 hz
  · have hd' : x.g.duty s = _ := hd
    rw [hd']
    split <;> rfl
  · intro s' u hu hown _
    have hs : s' ≠ s.other := by
      rintro rfl
      rw [ho'] at hown
      exact hu (Option.some.inj hown).symm
    exact Function.update_of_ne hs _ _

/-- The starter sizes the window of the other side under its mutex. -/
theorem sample_outline {b : Bool} {f : NodeProg α}
    {Q : α → World (nodeClient hash) NodeState LockGhost → Prop}
    (hf : Outline (turnDiscipline hash i mode) t f
      (At i (Status mode (HasTurn s t) L F (Tasked s { own := b }))) Q) :
    Outline (turnDiscipline hash i mode) t (do
      Prog.cmd (S := NodeSig) (.lock i (.lock s.other))
      let current ← Prog.cmd (S := NodeSig) (.lock i (.loadCurrent s.other))
      let ticket ← Prog.cmd (S := NodeSig) (.lock i (.loadTicket s.other))
      Prog.cmd (S := NodeSig) (.lock i (.storeWindow s.other (queueLength ticket current)))
      Prog.cmd (S := NodeSig) (.lock i (.unlock s.other))
      f) (At i (Status mode (HasTurn s t) L F (Tasked s (starting b)))) Q := by
  refine Outline.cmd_bind False.elim (fun _ => StatusOk.stable
    ⟨fact_hasTurn, hL, hF, winFact_tasked_owns⟩)
    (mutexLock_cmd (D := fun d => d s = starting b) ⟨fact_hasTurn, hL, hF, winFact_tasked_owns⟩)
    fun _ => ?_
  refine Outline.cmd_bind False.elim (fun _ => StatusOk.stable
    ⟨fact_hasTurn, hL, hF, winFact_counted⟩) (countOther_cmd hL hF) fun c => ?_
  refine Outline.cmd_bind False.elim (fun _ => StatusOk.stable
    ⟨fact_hasTurn, hL, hF, winFact_sampled⟩) (sampleOther_cmd hL hF) fun T => ?_
  refine Outline.cmd_bind False.elim (fun _ => StatusOk.stable
    ⟨fact_hasTurn, hL, hF, winFact_tasked_owns⟩) (storeOther_cmd hL hF) fun _ => ?_
  refine Outline.cmd_bind False.elim (fun _ => StatusOk.stable
    ⟨fact_hasTurn, hL, hF, winFact_tasked⟩)
    (mutexUnlock_cmd (D := fun d => d s = { own := b }) ⟨fact_hasTurn, hL, hF, winFact_tasked⟩
      (fun x hi hx => HasTurn.other_ne hx hi) fun x _ _ hd hz => ?_) fun _ => hf
  rw [Side.other_other, hd] at hz
  cases hz

/-- `window_start.compare_exchange_strong(false, true)` -/
theorem casWindowStart_cmd :
    (turnDiscipline hash i mode).Cmd t (.lock i .casWindowStart)
      (At i (Status mode (HasTurn s t) L F (Tasked s {})))
      fun r => At i (Status mode (HasTurn s t) L F
        (Tasked s (if r = true then starting true else {}))) := by
  refine duty_cmd (c := .casWindowStart) (d := fun r => if r = true then starting true else {}) rfl
    (fun r => ⟨fact_hasTurn, hL, hF, winFact_tasked⟩) ?_
  rintro hm x r n hi ht - hd hn
  cases hn
  have hd' : x.g.duty s = {} := hd
  have hwin := (hi.rest hm).win
  refine ⟨?_, ?_, fun _ _ _ _ _ => rfl, setDuty_self⟩
  · cases hs : x.node.windowStart with
    | false => exact hwin.begin ht hd'
    | true =>
      have hsame : x.g.setDuty s (if (!true) = true then starting true else {}) = x.g :=
        setDuty_eq hd'
      rw [hsame]
      exact hwin.same ⟨rfl, hs.symm, rfl⟩
  · rw [hd']
    split <;> rfl

/-- The starter stores the part of its own side. -/
theorem storeOwn_cmd {ticket current : Nat} {b : Bool} (hb : s = .write → b = false)
    (hseen : ∀ x, F x → Seen s ticket x ∧ Current s current x) :
    (turnDiscipline hash i mode).Cmd t (.lock i (.storeWindow s (queueLength ticket current)))
      (At i (Status mode (HasTurn s t) L F (Tasked s { own := true, other := b })))
      fun _ => At i (Status mode (HasTurn s t) L F (Tasked s { other := b })) := by
  refine duty_cmd (c := .storeWindow s (queueLength ticket current)) (d := fun _ => { other := b }) rfl
    (fun _ => ⟨fact_hasTurn, hL, hF, winFact_tasked⟩) ?_
  intro hm x r n hi ht hx hd hn
  cases hn
  have hd' : x.g.duty s = { own := true, other := b } := hd
  have ht' : (x.g.q s).turn = some t := ht
  obtain ⟨h1, h2⟩ := hseen x hx
  obtain ⟨hne, hle⟩ := h1.queueLength h2 hi
  refine ⟨(hi.rest hm).win.storeOwn ht hd' rfl (fun hs => ⟨hb hs, rfl⟩) hne hle, ?_, ?_, setDuty_self⟩
  · rw [hd']
  · intro s' u hu _ hturn
    have hs : s' ≠ s := by
      rintro rfl
      rw [ht'] at hturn
      exact hu (Option.some.inj hturn).symm
    exact Function.update_of_ne hs _ _

end Start

/-- Read time window start. -/
theorem startReadWindow_outline {ticket current : Nat} (hL : LogFact i t L)
    (hF : Fact i mode t (HasTurn .read t) F)
    (hseen : ∀ x, F x → Seen .read ticket x ∧ Current .read current x) :
    Outline (turnDiscipline hash i mode) t (onLock i (startReadWindow ticket current))
      (At i (Status mode (HasTurn .read t) L F (Tasked .read {})))
      fun _ => At i (Status mode (HasTurn .read t) L F (Tasked .read {})) := by
  have hok : ∀ d, StatusOk i mode t (HasTurn .read t) L F fun x => Tasked .read d x :=
    fun d => ⟨fact_hasTurn, hL, hF, winFact_tasked⟩
  simp only [startReadWindow, onLock_bind, onLock_ite, onLock_pure]
  refine quiet_bind rfl (hok _) fun h => Outline.ite (fun _ => Outline.pure fun _ _ hx => hx) fun _ => ?_
  refine Outline.cmd_bind False.elim (fun _ => (hok _).stable) (casWindowStart_cmd hL hF) fun r =>
    Outline.ite (fun hr => ?_) fun hr => Outline.pure fun x _ hx => ?_
  · rw [if_pos hr]
    refine Outline.cmd_bind False.elim (fun _ => (hok _).stable)
      (storeOwn_cmd hL hF (b := true) (by rintro ⟨⟩) hseen) fun _ => ?_
    have hlast := sample_outline (s := .read) (b := false) (f := pure ()) hL hF
      (Outline.pure (Q := fun _ => At i (Status mode (HasTurn .read t) L F (Tasked .read {})))
        fun _ _ hx => hx)
    exact hlast
  · rwa [if_neg hr] at hx

/-- Write time window start. -/
theorem startWriteWindow_outline {ticket current : Nat} (hL : LogFact i t L)
    (hF : Fact i mode t (HasTurn .write t) F)
    (hseen : ∀ x, F x → Seen .write ticket x ∧ Current .write current x) :
    Outline (turnDiscipline hash i mode) t (onLock i (startWriteWindow ticket current))
      (At i (Status mode (HasTurn .write t) L F (Tasked .write {})))
      fun _ => At i (Status mode (HasTurn .write t) L F (Tasked .write {})) := by
  have hok : ∀ d, StatusOk i mode t (HasTurn .write t) L F fun x => Tasked .write d x :=
    fun d => ⟨fact_hasTurn, hL, hF, winFact_tasked⟩
  simp only [startWriteWindow, onLock_bind, onLock_ite, onLock_pure]
  refine quiet_bind rfl (hok _) fun h => Outline.ite (fun _ => Outline.pure fun _ _ hx => hx) fun _ => ?_
  refine Outline.cmd_bind False.elim (fun _ => (hok _).stable) (casWindowStart_cmd hL hF) fun r =>
    Outline.ite (fun hr => ?_) fun hr => Outline.pure fun x _ hx => ?_
  · rw [if_pos hr]
    refine sample_outline (s := .write) (b := true) hL hF ?_
    exact Outline.cmd False.elim (fun _ => (hok _).stable)
      (storeOwn_cmd hL hF (b := false) (fun _ => rfl) hseen)
  · rwa [if_neg hr] at hx

/-! ## Release -/

/-- The end of an epoch: the handover flag says whether somebody waits. -/
theorem nextEpoch_outline {h : Bool} (hL : LogFact i t L) :
    Outline (turnDiscipline hash i mode) t (onLock i (nextEpoch s))
      (At i (Status mode (HasTurn s t) L (Holds s k h) (Tasked s { passed := h })))
      fun _ => At i (Status mode (HasTurn s t) L (fun _ => True) (Tasked s passing)) := by
  have hok : ∀ r d, StatusOk i mode t (HasTurn s t) L (fun x => r = h ∧ x.node.handover s = h)
      fun x => Tasked s d x :=
    fun r d => ⟨fact_hasTurn, hL, (fact_const _).and fact_handover, winFact_tasked⟩
  simp only [nextEpoch, onLock_bind, onLock_ite, onLock_pure]
  refine Outline.cmd_bind False.elim (fun r => (hok r _).stable)
    (quiet_cmd (c := .loadHandover s) (G := fun r x => r = h ∧ x.node.handover s = h) rfl
      (fun r => hok r _) ?_) fun r => ?_
  · intro m x r n _ _ _ hx hn
    cases hn
    exact ⟨hx.node.handover, hx.node.handover⟩
  refine Outline.of_fact (fun x _ hx => hx.node.1) fun hr => ?_
  subst hr
  refine Outline.ite (fun hr => Outline.pure fun x _ hx => ?_) fun hr => ?_
  · subst hr
    exact ⟨hx.queue, hx.log, trivial, hx.windows⟩
  · have hr' : r = false := by simpa using hr
    subst hr'
    refine Outline.mono (Outline.cmd False.elim
      (fun _ => StatusOk.stable ⟨fact_hasTurn, hL, fact_const _, winFact_tasked⟩)
      (clearUniqueKey_cmd hL (d := {}))) fun x _ hx => ?_
    exact ⟨hx.queue, hx.log, hx.node.2, hx.windows⟩

/-- What a call that has the turn knows when it has seen the queue. -/
def Ready (s : Side) (i : Nat) (k : Key) (ticket current : Nat) (x : LockView hash) : Prop :=
  (x.node.uniqueKey s = some k ∧ (s = .read → Published i k x)) ∧ Seen s ticket x ∧
    Current s current x

theorem fact_shared : Fact i mode t (HasTurn s t) fun x : LockView hash =>
    x.node.uniqueKey s = some k ∧ (s = .read → Published i k x) :=
  fact_key.and (.imp fun hs => hs ▸ fact_published)

theorem fact_ready {ticket current : Nat} :
    Fact i mode t (HasTurn s t) fun x : LockView hash => Ready s i k ticket current x :=
  fact_shared.and (fact_seen.and fact_current)

/-- The last part of `release`. -/
theorem handOver_outline {ticket current : Nat} {f : Unit → NodeProg α}
    {Q : α → World (nodeClient hash) NodeState LockGhost → Prop}
    (hf : Outline (turnDiscipline hash i mode) t (f ())
      (At i (Status mode (Out t) (Enrolled i t op) (fun _ => True) fun _ => True)) Q) :
    Outline (turnDiscipline hash i mode) t (do
      onLock i (access (.storeHandover s (decide (ticket ≠ (current + 1) % 2 ^ 32))))
      onLock i (nextEpoch s)
      onLock i (passTurn s) >>= f)
      (At i (Status mode (HasTurn s t) (Enrolled i t op) (Ready s i k ticket current) (Tasked s {})))
      Q := by
  have hL : LogFact i t fun l : NodeLog hash => Enrolled i t op l := logFact_enrolled
  refine Outline.cmd_bind False.elim
    (fun _ => StatusOk.stable ⟨fact_hasTurn, hL, fact_holds, winFact_tasked⟩)
    (storeHandover_cmd (k := k) (d := {}) hL fun x _ _ hx => ⟨hx.1.1, fun hb => ⟨?_, hx.1.2⟩⟩) fun _ => ?_
  · exact hx.2.1.behind hx.2.2 (of_decide_eq_true hb)
  refine Outline.bind (nextEpoch_outline hL) fun _ => ?_
  exact Outline.bind (passTurn_outline (fact_const _)) fun _ => hf

/-- A call that has the turn loads the counters. -/
theorem loadCounters_outline {f : Nat → Nat → NodeProg α}
    {Q : α → World (nodeClient hash) NodeState LockGhost → Prop} {d : Duty}
    (hf : ∀ ticket current, Outline (turnDiscipline hash i mode) t (f ticket current)
      (At i (Status mode (HasTurn s t) (Enrolled i t op) (Ready s i k ticket current)
        (Tasked s d))) Q) :
    Outline (turnDiscipline hash i mode) t (do
      let ticket ← onLock i (access (.loadTicket s))
      let current ← onLock i (access (.loadCurrent s))
      f ticket current)
      (At i (Status mode (HasTurn s t) (Enrolled i t op)
        (fun x => x.node.uniqueKey s = some k ∧ (s = .read → Published i k x)) (Tasked s d))) Q := by
  have hL : LogFact i t fun l : NodeLog hash => Enrolled i t op l := logFact_enrolled
  refine Outline.cmd_bind False.elim
    (fun _ => StatusOk.stable ⟨fact_hasTurn, hL, fact_shared.and fact_seen, winFact_tasked⟩)
    (quiet_cmd (c := .loadTicket s) (G := fun r x =>
      (x.node.uniqueKey s = some k ∧ (s = .read → Published i k x)) ∧ Seen s r x) rfl
      (fun r => ⟨fact_hasTurn, hL, fact_shared.and fact_seen, winFact_tasked⟩) ?_) fun ticket => ?_
  · intro m x r n _ _ hi hx hn
    cases hn
    have hside := hi.side s
    exact ⟨hx.node, _, hside.ticket, (hside.wf.range t _ (hside.wf.turn t hx.queue)).2, le_rfl⟩
  · refine Outline.cmd_bind False.elim
      (fun _ => StatusOk.stable ⟨fact_hasTurn, hL, fact_ready, winFact_tasked⟩)
      (look_cmd (G := fun r => Ready s i k ticket r) (V := fun _ x => Tasked s d x)
        (fun r => ⟨fact_hasTurn, hL, fact_ready, winFact_tasked⟩)
        (fun x hi hx => HasTurn.not_waiting hx hi s) fun x hi hx => ?_) fun current => hf ticket current
    exact ⟨⟨hx.node.1, hx.node.2, (hi.side s).current⟩, hx.windows⟩

/-- `release_local_write_lock` of a call that has the turn. -/
theorem releaseTurnWrite_outline {h : Bool} :
    Outline (turnDiscipline hash i mode) t (onLock i releaseTurnWrite)
      (At i (Status mode (HasTurn .write t) (Enrolled i t op) (Holds .write k h) (Tasked .write {})))
      fun _ => At i (Status mode (Out t) (Enrolled i t op) (fun _ => True) fun _ => True) := by
  simp only [releaseTurnWrite, onLock_bind]
  rw [← bind_pure (onLock i (passTurn .write))]
  refine Outline.mono (R := At i (Status mode (HasTurn .write t) (Enrolled i t op)
    (fun x => x.node.uniqueKey .write = some k ∧ (Side.write = .read → Published i k x))
    (Tasked .write {}))) (loadCounters_outline fun ticket current => ?_) fun x _ hx => ?_
  · refine Outline.bind (startWriteWindow_outline logFact_enrolled fact_ready fun x hx => hx.2)
      fun _ => ?_
    exact handOver_outline (Outline.pure fun x _ hx => hx)
  · exact ⟨hx.queue, hx.log, ⟨hx.node.key, by rintro ⟨⟩⟩, hx.windows⟩

section Results

variable {h : Bool} {value value' : Value}

/-- The winner shares its result, the others take it over. -/
theorem shareResult_outline (res : Bool) :
    Outline (turnDiscipline hash i mode) t (onLock i (shareResult res value'))
      (At i (Status mode (HasTurn .read t) (fun l => Enrolled i t (.read k value) l ∧
        (h = false → LookedUp t k value' l)) (Holds .read k h) (Tasked .read {})))
      fun _ => At i (Status mode (HasTurn .read t) (Enrolled i t (.read k value))
        (fun x => x.node.uniqueKey .read = some k ∧ (Side.read = .read → Published i k x))
        (Tasked .read {})) := by
  simp only [shareResult, onLock_bind, onLock_ite, onLock_pure]
  have hE : LogFact i t fun l : NodeLog hash => Enrolled i t (.read k value) l := logFact_enrolled
  have hL : LogFact i t fun l : NodeLog hash => Enrolled i t (.read k value) l ∧
      (h = false → LookedUp t k value' l) := hE.and (.imp fun _ => logFact_lookedUp)
  have hF : ∀ r, Fact i mode t (HasTurn .read t) fun x : LockView hash => r = h ∧ Holds .read k h x ∧
      (h = true → Published i k x) :=
    fun r => (fact_const _).and (fact_holds.and (.imp fun _ => fact_published))
  refine Outline.cmd_bind False.elim
    (fun r => StatusOk.stable ⟨fact_hasTurn, hL, hF r, winFact_tasked⟩)
    (quiet_cmd (c := .loadHandover .read) (G := fun r x => r = h ∧ Holds .read k h x ∧
      (h = true → Published i k x)) rfl (fun r => ⟨fact_hasTurn, hL, hF r, winFact_tasked⟩) ?_)
    fun r => ?_
  · intro m x r n _ _ hi hx hn
    cases hn
    refine ⟨hx.node.handover, hx.node, fun hh => ?_⟩
    obtain ⟨k', p, hk', hp⟩ := hi.hand.handed (hx.node.handover.trans hh)
    obtain rfl : k' = k := Option.some.inj (hk'.symm.trans hx.node.key)
    exact ⟨p, hp⟩
  refine Outline.of_fact (fun x _ hx => hx.node.1) fun hr => ?_
  subst hr
  cases r with
  | true =>
    simp only [if_true]
    have hF' : Fact i mode t (HasTurn .read t) fun x : LockView hash =>
        Holds .read k true x ∧ Published i k x := fact_holds.and fact_published
    have hok : StatusOk i mode t (HasTurn .read t)
        (fun l : NodeLog hash => Enrolled i t (.read k value) l)
        (fun x => Holds .read k true x ∧ Published i k x) fun x => Tasked .read {} x :=
      ⟨fact_hasTurn, hE, hF', winFact_tasked⟩
    refine Outline.mono (quiet_bind (c := .loadRes) rfl hok fun _ => ?_) fun x _ hx =>
      ⟨hx.queue, hx.log.1, ⟨hx.node.2.1, hx.node.2.2 trivial⟩, hx.windows⟩
    refine Outline.cmd_bind False.elim (fun _ => hok.stable)
      (loadRetValue_cmd hok (fun l hl => hl.1) fun x hx => hx.1) fun _ => Outline.pure fun x _ hx => ?_
    exact ⟨hx.queue, hx.log, ⟨hx.node.1.key, fun _ => hx.node.2⟩, hx.windows⟩
  | false =>
    simp only [Bool.false_eq_true, if_false]
    have hL' : LogFact i t fun l : NodeLog hash => Enrolled i t (.read k value) l ∧
        LookedUp t k value' l := hE.and logFact_lookedUp
    have hok : StatusOk i mode t (HasTurn .read t) (fun l : NodeLog hash =>
        Enrolled i t (.read k value) l ∧ LookedUp t k value' l) (fun x => Holds .read k false x)
        fun x => Tasked .read {} x := ⟨fact_hasTurn, hL', fact_holds, winFact_tasked⟩
    refine Outline.mono (quiet_bind (c := .storeRes res) rfl hok fun _ => ?_) fun x _ hx =>
      ⟨hx.queue, ⟨hx.log.1, hx.log.2 trivial⟩, hx.node.2.1, hx.windows⟩
    refine Outline.cmd_bind False.elim (fun _ => StatusOk.stable
      ⟨fact_hasTurn, hE, fact_holds.and fact_published, winFact_tasked⟩)
      (storeRetValue_cmd hE winFact_tasked) fun _ => Outline.pure fun x _ hx => ?_
    exact ⟨hx.queue, hx.log, ⟨hx.node.1.key, fun _ => hx.node.2⟩, hx.windows⟩

/-- `release_local_read_lock` of a call that has the turn. -/
theorem releaseTurnRead_outline (res : Bool) :
    Outline (turnDiscipline hash i mode) t (onLock i (releaseTurnRead res value'))
      (At i (Status mode (HasTurn .read t) (fun l => Enrolled i t (.read k value) l ∧
        (h = false → LookedUp t k value' l)) (Holds .read k h) (Tasked .read {})))
      fun _ => At i (Status mode (Out t) (Enrolled i t (.read k value)) (fun _ => True)
        fun _ => True) := by
  simp only [releaseTurnRead, onLock_bind, onLock_pure]
  refine Outline.bind (shareResult_outline res) fun out => ?_
  refine loadCounters_outline fun ticket current => ?_
  refine Outline.bind (startReadWindow_outline logFact_enrolled fact_ready fun x hx => hx.2) fun _ => ?_
  exact handOver_outline (Outline.pure fun x _ hx => hx)

end Results

/-! ## Acquire -/

section Acquire

/-- What a call knows after `acquire`. -/
def Acquired (s : Side) (i : Nat) (mode : Prop) (t : Tid) (op : NodeOp) (r : Bool × Bool)
    (x : LockView hash) : Prop :=
  if r.2 then Status mode (Out t) (Bounced s i t op) (fun _ => True) (fun _ => True) x
  else Status mode (HasTurn s t) (Enrolled i t op) (Holds s op.key r.1) (Tasked s {}) x

theorem testWindow_outline (hL : LogFact i t L) :
    Outline (turnDiscipline hash i mode) t (onLock i (testWindow s))
      (At i (Status mode (HasTurn s t) L (fun x => x.node.uniqueKey s = some k) (Tasked s {})))
      fun r => At i (Status mode (HasTurn s t) L (Holds s k r) (Tasked s {})) := by
  have hok : ∀ h, StatusOk i mode t (HasTurn s t) L (fun x => Holds s k h x) fun x => Tasked s {} x :=
    fun h => ⟨fact_hasTurn, hL, fact_holds, winFact_tasked⟩
  have hload : Outline (turnDiscipline hash i mode) t (onLock i (access (.loadHandover s)))
      (At i (Status mode (HasTurn s t) L (fun x => x.node.uniqueKey s = some k) (Tasked s {})))
      fun r => At i (Status mode (HasTurn s t) L (Holds s k r) (Tasked s {})) := by
    refine Outline.cmd False.elim (fun r => (hok r).stable)
      (quiet_cmd (c := .loadHandover s) (G := fun r x => Holds s k r x) rfl hok ?_)
    intro m x r n _ _ _ hx hn
    cases hn
    exact ⟨hx.node, rfl⟩
  simp only [testWindow, onLock_bind, onLock_ite]
  refine quiet_bind rfl ⟨fact_hasTurn, hL, fact_key, winFact_tasked⟩ fun w =>
    Outline.ite (fun _ => ?_) fun _ => hload
  refine Outline.cmd_bind False.elim (fun _ => (hok _).stable)
    (storeHandover_cmd (k := k) (d := {}) hL fun x _ _ hx => ⟨hx, by rintro ⟨⟩⟩) fun _ => ?_
  exact hload.mono fun x _ hx => ⟨hx.queue, hx.log, hx.node.key, hx.windows⟩

/-- What `acquire` does from the turn on. A call finds its own key if the run settles. -/
theorem takeTurn_outline (hk : op.key = k) :
    Outline (turnDiscipline hash i mode) t (onLock i (takeTurn s k))
      (At i (Status mode (HasTurn s t) (Enrolled i t op) (fun _ => True) (Tasked s {})))
      fun r => At i (Acquired s i mode t op r) := by
  subst hk
  have hL : LogFact i t fun l : NodeLog hash => Enrolled i t op l := logFact_enrolled
  have hF : ∀ r : Option Key, Fact i mode t (HasTurn s t) fun x : LockView hash =>
      (mode → r = some op.key) ∧ (r = some op.key → x.node.uniqueKey s = some op.key) :=
    fun r => (fact_const _).and (.imp fun _ => fact_key)
  simp only [takeTurn, onLock_bind, onLock_ite, onLock_pure]
  refine Outline.cmd_bind False.elim
    (fun r => StatusOk.stable ⟨fact_hasTurn, hL, hF r, winFact_tasked⟩)
    (quiet_cmd (c := .loadUniqueKey s) (G := fun r x => (mode → r = some op.key) ∧
      (r = some op.key → x.node.uniqueKey s = some op.key)) rfl
      (fun r => ⟨fact_hasTurn, hL, hF r, winFact_tasked⟩) ?_) fun r => ?_
  · intro m x r n hnode hg hi hx hn
    cases hn
    refine ⟨fun hm => ?_, id⟩
    have hplace : place s i x.log t ≠ .away := by
      rw [(hi.side s).places t]
      exact placeIn_ne_away ((hi.side s).wf.turn t hx.queue)
    have hkey := hg.2 hm rfl hplace
    rw [hnode, hx.log.1] at hkey
    exact hkey
  refine Outline.ite (fun hr => ?_) fun hr => ?_
  · -- the key of another epoch
    refine Outline.of_fact (φ := ¬ mode) (fun x _ hx hm => hr (hx.node.1 hm)) fun hm => ?_
    refine Outline.mono (R := At i (Status mode (HasTurn s t) (Enrolled i t op) (fun _ => True)
      fun x => Tasked s passing x ∧ Owns s t x)) ?_ fun x _ hx =>
        ⟨hx.queue, hx.log, trivial, fun h => absurd h hm⟩
    refine Outline.bind (leaveWindow_outline hL (fact_const _)) fun _ => ?_
    refine Outline.cmd_bind False.elim (fun _ => StatusOk.stable
      ⟨fact_out, hL, fact_const _, winFact_owns⟩) incCurrent_cmd fun _ => Outline.pure fun x _ hx => ?_
    exact ⟨hx.queue, hx.log.bounced, trivial, fun _ => trivial⟩
  · refine Outline.bind ((testWindow_outline (k := op.key) hL).mono fun x _ hx => ?_)
      fun r => Outline.pure fun x _ hx => hx
    exact ⟨hx.queue, hx.log, hx.node.2 (not_not.mp hr), hx.windows⟩

/-- From the ticket to the end of `acquire`. -/
theorem enterQueue_outline (hk : op.key = k) :
    Outline (turnDiscipline hash i mode) t (do
      let ticket ← onLock i (access (.incTicket s))
      onLock i (waitTurn s ticket)
      onLock i (takeTurn s k))
      (At i (Status mode (Out t) (Admitted s i t op) (fun _ => True) fun _ => True))
      fun r => At i (Acquired s i mode t op r) := by
  have hstable : ∀ r : Nat, (turnDiscipline hash i mode).Stable t (At i fun x => ∃ c, r = c % 2 ^ 32 ∧
      Status mode (Waits s t c) (Enrolled i t op) (fun _ => True) (fun _ => True) x) :=
    fun r => .exists fun c => .and (Discipline.stable_const _)
      (statusOk_plain fact_waits logFact_enrolled).stable
  refine Outline.cmd_bind False.elim hstable incTicket_cmd fun r => Outline.of_exists fun c => ?_
  refine Outline.of_fact (fun x _ hx => hx.1) fun hr => ?_
  subst hr
  refine Outline.mono ?_ fun x _ hx => hx.2
  exact Outline.bind (waitTurn_outline logFact_enrolled) fun _ => takeTurn_outline hk

variable {value : Value}

/-- `acquire_local_read_lock` -/
theorem acquireLocalReadLock_outline :
    Outline (turnDiscipline hash i mode) t (onLock i (acquireLocalReadLock k))
      (At i (Status mode (Out t) (Starting i t (.read k value)) (fun _ => True) fun _ => True))
      fun r => At i (Acquired .read i mode t (.read k value) r) := by
  have hL : LogFact i t fun l : NodeLog hash => Admitted .read i t (.read k value) l :=
    logFact_admitted
  have hok : StatusOk i mode t (Out t) _ (fun _ => True) fun _ => True := statusOk_plain fact_out hL
  have hbounce : ∀ x : LockView hash, Status mode (Out t) (Admitted .read i t (.read k value))
      (fun _ => True) (fun _ => True) x → Acquired .read i mode t (.read k value) (false, true) x := by
    intro x hx
    refine ⟨hx.queue, ⟨hx.log.call, ?_⟩, trivial, fun _ => trivial⟩
    rintro s' (rfl | ⟨⟨⟩⟩)
    exact hx.log.other
  simp only [acquireLocalReadLock, onLock_bind, onLock_ite, onLock_pure]
  refine Outline.cmd_bind False.elim (fun r => StatusOk.stable (statusOk_plain fact_out
    (hL.and (.imp fun _ => logFact_fresh)))) casUniqueKey_cmd fun r => ?_
  refine Outline.mono (R := At i (Status mode (Out t) (Admitted .read i t (.read k value))
    (fun _ => True) fun _ => True)) ?_ fun x _ hx => ⟨hx.queue, hx.log.1, trivial, fun _ => trivial⟩
  refine Outline.ite (fun _ => Outline.pure fun x _ hx => hbounce _ hx) fun _ => ?_
  refine quiet_bind rfl hok fun ticket => ?_
  refine Outline.cmd_bind False.elim (fun _ => hok.stable)
    (look_cmd (G := fun _ _ => True) (V := fun _ _ => True) (fun _ => hok)
      (fun x hi hx => Out.not_waiting hx hi .read) fun _ _ _ => ⟨trivial, fun _ => trivial⟩)
    fun current => Outline.ite (fun _ => Outline.pure fun x _ hx => hbounce _ hx) fun _ => ?_
  exact enterQueue_outline rfl

/-- `acquire_local_write_lock` -/
theorem acquireLocalWriteLock_outline {n : Nat} :
    Outline (turnDiscipline hash i mode) t (onLock i (acquireLocalWriteLock k v))
      (At i (Status mode (Out t) (Starting i t (.write k v n)) (fun _ => True) fun _ => True))
      fun r => At i (Acquired .write i mode t (.write k v n) r) := by
  have hL : LogFact i t fun l : NodeLog hash => Admitted .write i t (.write k v n) l :=
    logFact_admitted
  have hok : StatusOk i mode t (Out t) _ (fun _ => True) fun _ => True := statusOk_plain fact_out hL
  simp only [acquireLocalWriteLock, onLock_bind, onLock_ite, onLock_pure]
  refine Outline.cmd_bind False.elim (fun r => StatusOk.stable (statusOk_plain fact_out
    (hL.and (.imp fun _ => logFact_fresh)))) casUniqueKey_cmd fun r => ?_
  refine Outline.ite (fun hr => Outline.pure fun x _ hx => ?_) fun _ => ?_
  · refine ⟨hx.queue, ⟨hx.log.1.call, fun s' _ => ?_⟩, trivial, fun _ => trivial⟩
    cases s' with
    | read => exact hx.log.1.other
    | write =>
      refine hx.log.2 ?_
      rintro rfl
      cases hr
  · refine Outline.mono (R := At i (Status mode (Out t) (Admitted .write i t (.write k v n))
      (fun _ => True) fun _ => True)) ?_ fun x _ hx => ⟨hx.queue, hx.log.1, trivial, fun _ => trivial⟩
    exact quiet_bind rfl hok fun _ => enterQueue_outline rfl

end Acquire

/-! ## Calls -/

section Calls

variable {value : Value}

/-- The commands of a call that are of no interest for lock node `i`. -/
def Harmless (i : Nat) : NodeCmd → Prop
  | .lock j c => j = i → c.quiet = true
  | _ => True

theorem quietEvent_harmless {c : NodeCmd} (hc : Harmless i c) (r : c.Resp) :
    QuietEvent i (.act t c r) := by
  cases c with
  | lock j d => exact quietEvent_lock (fun hj => LockCmd.loose_of_quiet (hc hj)) r
  | _ =>
    exact ⟨fun _ => ⟨fun _ _ => rfl, fun _ => rfl, fun _ _ => rfl, fun _ => rfl⟩, fun _ _ _ => rfl,
      rfl, by rintro _ _ ⟨⟩⟩

/-- A fact about the calls of `t` that does not depend on the harmless commands. -/
def Roams (i : Nat) (t : Tid) (L : NodeLog hash → Prop) : Prop :=
  ∀ l c r, Harmless i c → L l → L (l ++ [.act t c r])

theorem roams_enrolled : Roams i t fun l : NodeLog hash => Enrolled i t op l := by
  intro l c r hc hl
  refine ⟨lastCall_act.trans hl.1, fun s => ?_⟩
  rw [fresh_concat, (quietEvent_harmless hc r).fresh]
  exact hl.2 s

theorem roams_bounced : Roams i t fun l : NodeLog hash => Bounced s i t op l := by
  intro l c r hc hl
  refine ⟨lastCall_act.trans hl.1, fun s' hs => ?_⟩
  rw [fresh_concat, (quietEvent_harmless hc r).fresh]
  exact hl.2 s' hs

/-- A program all of whose commands are harmless. -/
theorem harmless_outline {p : NodeProg α} (hp : p.All (Harmless i)) (hok : StatusOk i mode t A L F W)
    (hL : Roams i t L) :
    Outline (turnDiscipline hash i mode) t p (At i (Status mode A L F W))
      fun _ => At i (Status mode A L F W) := by
  refine Outline.all id hp hok.stable (fun _ => trivial) fun c hc => ?_
  by_cases hlock : ∃ d, c = .lock i d
  · obtain ⟨d, rfl⟩ := hlock
    exact quiet_cmd (hc rfl) (fun _ => hok) fun _ _ _ _ _ _ _ hx _ => hx.node
  · exact elsewhere_cmd (M := fun _ => L) (fun _ => hok) (fun d h => hlock ⟨d, h⟩)
      fun _ l r _ hl => hL l c r hc hl

theorem all_onLock_elsewhere {j : Nat} (hj : j ≠ i) (p : LockProg α) :
    (onLock j p).All (Harmless i) :=
  all_onLock (Prog.all_of_forall (fun _ h => absurd h hj) p)

/-- `leaf_insert` samples the write-combining buffer and writes. -/
theorem combinedInsert_harmless (n : Nat) (v : Value) :
    (combinedInsert hash k n v).All (Harmless i) := by
  have hsample : ∀ v, (onLock (hash k) (getCombiningValue k v)).All (Harmless i) := by
    intro v
    refine all_onLock ?_
    unfold getCombiningValue
    refine .bind ((Prog.all_cmd (S := LockSig) _).mpr fun _ => rfl) fun _ => .ite ?_ (Prog.all_pure _)
    exact (Prog.all_cmd (S := LockSig) _).mpr fun _ => rfl
  induction n generalizing v with
  | zero => exact (hsample v).bind fun _ => (Prog.all_cmd (S := NodeSig) _).mpr trivial
  | succ n ih => exact (hsample v).bind fun v => ih v

/-- No key of a call of `t` waits for a ticket, in runs that settle. -/
def Settled (i : Nat) (mode : Prop) (t : Tid) (l : NodeLog hash) : Prop :=
  mode → ∀ s, fresh s i l t = false

theorem logFact_settled : LogFact i t fun l : NodeLog hash => Settled i mode t l :=
  .imp fun _ l e he h s => logFact_fresh l e he (h s)

/-- `write(k, v)` at lock node `i` -/
theorem combinedWrite_outline {n : Nat} (hk : hash k = i) :
    Outline (turnDiscipline hash i mode) t (combinedWrite hash k v n)
      (At i (Status mode (Out t) (Starting i t (.write k v n)) (fun _ => True) fun _ => True))
      fun _ => At i (Status mode (Out t) (Settled i mode t) (fun _ => True) fun _ => True) := by
  subst hk
  unfold combinedWrite
  refine Outline.bind acquireLocalWriteLock_outline fun r => ?_
  obtain ⟨ho, conflict⟩ := r
  cases conflict with
  | true =>
    simp only [Bool.not_true, Bool.and_false, Bool.false_eq_true, if_false, if_true,
      releaseLocalWriteLock, onLock_pure]
    refine Outline.bind (harmless_outline (combinedInsert_harmless n v)
      (statusOk_plain fact_out logFact_bounced) roams_bounced) fun _ => Outline.pure fun x _ hx => ?_
    exact ⟨hx.queue, fun _ s => hx.log.2 s (Or.inr rfl), trivial, fun _ => trivial⟩
  | false =>
    have hrelease : ∀ h, Outline (turnDiscipline hash (hash k) mode) t
        (onLock (hash k) releaseTurnWrite)
        (At (hash k) (Status mode (HasTurn .write t) (Enrolled (hash k) t (.write k v n))
          (Holds .write k h) (Tasked .write {})))
        fun _ => At (hash k) (Status mode (Out t) (Settled (hash k) mode t) (fun _ => True)
          fun _ => True) := by
      intro h
      refine releaseTurnWrite_outline.post fun _ x _ hx => ?_
      exact ⟨hx.queue, fun _ => hx.log.2, trivial, fun _ => trivial⟩
    simp only [Bool.not_false, Bool.and_true, Bool.false_eq_true, if_false, releaseLocalWriteLock]
    refine Outline.ite (fun _ => hrelease ho) fun _ => ?_
    refine Outline.bind (harmless_outline (combinedInsert_harmless n v)
      ⟨fact_hasTurn, logFact_enrolled, fact_holds, winFact_tasked⟩ roams_enrolled) fun _ => hrelease ho

/-- `read(k, value)` at lock node `i`. A read without a ticket has not left its key, in runs that
settle. -/
theorem delegatedRead_outline (hk : hash k = i) :
    Outline (turnDiscipline hash i mode) t (delegatedRead hash k value)
      (At i (Status mode (Out t) (Starting i t (.read k value)) (fun _ => True) fun _ => True))
      fun _ => At i (Status mode (Out t) (Settled i mode t) (fun _ => True) fun _ => True) := by
  subst hk
  unfold delegatedRead
  refine Outline.bind acquireLocalReadLock_outline fun r => ?_
  obtain ⟨ho, conflict⟩ := r
  cases conflict with
  | true =>
    simp only [Bool.not_true, Bool.and_false, Bool.false_eq_true, if_false, if_true,
      releaseLocalReadLock, onLock_pure]
    refine Outline.cmd_bind False.elim
      (fun _ => StatusOk.stable (statusOk_plain fact_out logFact_settled))
      (elsewhere_cmd (c := .remoteRead k) (M := fun _ => Settled (hash k) mode t)
        (fun _ => statusOk_plain fact_out logFact_settled) (by rintro _ ⟨⟩) ?_)
      fun v => Outline.pure fun x _ hx => hx
    intro m l r hg hl hm s
    rw [fresh_concat]
    change fresh s (hash k) l t = false
    cases s with
    | read => exact hg.2 hm
    | write => exact hl.2 _ (Or.inl rfl)
  | false =>
    have hrelease : ∀ h value', Outline (turnDiscipline hash (hash k) mode) t (do
        let out ← onLock (hash k) (releaseTurnRead false value')
        return out.2)
        (At (hash k) (Status mode (HasTurn .read t) (fun l => Enrolled (hash k) t (.read k value) l ∧
          (h = false → LookedUp t k value' l)) (Holds .read k h) (Tasked .read {})))
        fun _ => At (hash k) (Status mode (Out t) (Settled (hash k) mode t) (fun _ => True)
          fun _ => True) := by
      intro h value'
      refine Outline.bind (releaseTurnRead_outline false) fun _ => Outline.pure fun x _ hx => ?_
      exact ⟨hx.queue, fun _ => hx.log.2, trivial, fun _ => trivial⟩
    simp only [Bool.not_false, Bool.and_true, Bool.false_eq_true, if_false, releaseLocalReadLock]
    cases ho with
    | true =>
      simp only [if_true]
      refine (hrelease true value).mono fun x _ hx => ?_
      exact ⟨hx.queue, ⟨hx.log, by rintro ⟨⟩⟩, hx.node, hx.windows⟩
    | false =>
      simp only [Bool.false_eq_true, if_false]
      have hL : ∀ v, LogFact (hash k) t fun l : NodeLog hash =>
          Enrolled (hash k) t (.read k value) l ∧ (false = false → LookedUp t k v l) :=
        fun v => logFact_enrolled.and (.imp fun _ => logFact_lookedUp)
      refine Outline.cmd_bind False.elim
        (fun v => StatusOk.stable ⟨fact_hasTurn, hL v, fact_holds, winFact_tasked⟩)
        (elsewhere_cmd (c := .remoteRead k) (M := fun v l => Enrolled (hash k) t (.read k value) l ∧
          (false = false → LookedUp t k v l))
          (fun v => ⟨fact_hasTurn, hL v, fact_holds, winFact_tasked⟩) (by rintro _ ⟨⟩) ?_)
        fun v => hrelease false v
      intro m l v _ hl
      refine ⟨roams_enrolled l (.remoteRead k) v trivial hl, fun _ => ?_⟩
      unfold LookedUp
      rw [lookup_concat]
      simp [nextLookup]

/-- A call whose key belongs to another lock node. -/
theorem elsewhere_outline {p : NodeProg α} (hp : p.All (Harmless i)) :
    Outline (turnDiscipline hash i mode) t p
      (At i (Status mode (Out t) (Starting i t op) (fun _ => True) fun _ => True))
      fun _ => At i (Status mode (Out t) (Settled i mode t) (fun _ => True) fun _ => True) := by
  have hok : StatusOk i mode t (Out t) (fun l : NodeLog hash => Enrolled i t op l) (fun _ => True)
      fun _ => True := statusOk_plain fact_out logFact_enrolled
  refine ((harmless_outline hp hok roams_enrolled).mono fun x _ hx => ?_).post fun _ x _ hx => ?_
  · exact ⟨hx.queue, hx.log.1, trivial, fun _ => trivial⟩
  · exact ⟨hx.queue, fun _ => hx.log.2, trivial, fun _ => trivial⟩

theorem combinedWrite_harmless {n : Nat} (hk : hash k ≠ i) :
    (combinedWrite hash k v n).All (Harmless i) :=
  (all_onLock_elsewhere hk _).bind fun _ => .ite (all_onLock_elsewhere hk _)
    ((combinedInsert_harmless n v).bind fun _ => all_onLock_elsewhere hk _)

theorem delegatedRead_harmless (hk : hash k ≠ i) : (delegatedRead hash k value).All (Harmless i) :=
  (all_onLock_elsewhere hk _).bind fun _ =>
    .ite ((all_onLock_elsewhere hk _).bind fun _ => Prog.all_pure _)
      (((Prog.all_cmd (S := NodeSig) _).mpr trivial).bind fun _ =>
        (all_onLock_elsewhere hk _).bind fun _ => Prog.all_pure _)

end Calls

/-! ## Whole runs -/

/-- What a thread knows between two calls. -/
def Between (i : Nat) (mode : Prop) (t : Tid) :
    World (nodeClient hash) NodeState LockGhost → Prop :=
  At i (Status mode (Out t) (Settled i mode t) (fun _ => True) fun _ => True)

/-- The calls keep the discipline of lock node `i`. -/
theorem turnKeeps (hash : Key → Nat) (i : Nat) (mode : Prop) :
    Keeps (turnDiscipline hash i mode) (fun t _ => Between i mode t)
      (fun t op _ => At i (Status mode (Out t) (Starting i t op) (fun _ => True) fun _ => True))
      fun t _ _ _ => Between i mode t where
  idle_stable _ _ := (statusOk_plain fact_out logFact_settled).stable
  pre_stable _ _ _ := (statusOk_plain fact_out logFact_starting).stable
  call := by
    intro t op l x _ hi hx
    refine ⟨x.ghost, LockInv.boundary hi hx.queue (fun hm => hx.log hm) (Or.inl ⟨op, rfl⟩),
      .quiet .refl (fun _ => rfl) rfl rfl, hx.queue, ⟨⟨?_, fun s => ?_⟩, fun s => ?_⟩, trivial,
      fun _ => trivial⟩
    · change lastCall (x.log ++ [.call t op]) t = some op
      rw [lastCall_call, if_pos rfl]
    · change fresh s i (x.log ++ [.call t op]) t = false
      rw [fresh_concat]
      simp [nextFresh]
    · change tally s i (x.log ++ [.call t op]) t = (0, 0)
      rw [tally_concat]
      simp [nextTally]
  code := by
    intro t op l _
    cases op with
    | write k v n =>
      refine Outline.bind ?_ fun _ => Outline.pure fun x _ hx => hx
      by_cases hk : hash k = i
      · exact combinedWrite_outline hk
      · exact elsewhere_outline (combinedWrite_harmless hk)
    | read k value =>
      refine Outline.bind ?_ fun _ => Outline.pure fun x _ hx => hx
      by_cases hk : hash k = i
      · exact delegatedRead_outline hk
      · exact elsewhere_outline (delegatedRead_harmless hk)
    | update k v =>
      refine Outline.bind (elsewhere_outline ?_) fun _ => Outline.pure fun x _ hx => hx
      exact (Prog.all_cmd (S := NodeSig) _).mpr trivial
  ret := by
    intro t op res l x hi hx
    refine ⟨x.ghost, LockInv.boundary hi hx.queue (fun hm => hx.log hm) (Or.inr ⟨op, res, rfl⟩),
      .quiet .refl (fun _ => rfl) rfl rfl, hx.queue, fun hm s => ?_, trivial, fun _ => trivial⟩
    change fresh s i (x.log ++ [.ret t op res]) t = false
    rw [fresh_concat]
    exact hx.log hm s

/-- The ghost state in the beginning. -/
def LockGhost.init : LockGhost := ⟨fun _ => Tickets.empty, fun _ => {}, fun _ => none⟩

theorem lockInv_init (hash : Key → Nat) (i : Nat) (mode : Prop) :
    LockInv i mode (⟨{}, [], LockGhost.init⟩ : LockView hash) where
  side := fun s => { QueueAt.empty with
    full := fun _ _ h => absurd h (Nat.not_lt_zero _)
    places := fun _ => rfl
    order := by rintro _ _ _ _ ⟨⟩
    inFlight := fun _ h => absurd rfl h
    counts := fun _ => ⟨rfl, Nat.zero_le _⟩ }
  apart := fun _ => Or.inl rfl
  hand := ⟨by rintro ⟨⟩, by rintro _ _ _ ⟨⟩⟩
  rest := fun _ => by
    refine ⟨⟨fun _ => rfl, fun _ _ => rfl, ?_, ?_, ?_, ?_, fun _ => Nat.zero_le _, ?_⟩,
      fun _ h => absurd rfl h, ?_⟩
    · rintro _ ⟨⟩
    · rintro _ ⟨⟩
    · rintro _ ⟨⟩
    · rintro (⟨⟨⟩⟩ | ⟨⟨⟩⟩)
    · rintro ⟨⟩
    · rintro _ _ ⟨⟩

/-- In every configuration of every run the invariant holds, and idle threads have no ticket. -/
theorem lockInv_of_reach {c : NodeConfig hash}
    (h : Reach nodeMachine (turnGuard hash i mode) (nodeInit hash) c) :
    ∃ g, LockInv i mode (⟨c.mem.locks i, c.log, g⟩ : LockView hash) := by
  have hinit : ConfigOk (turnDiscipline hash i mode) (fun t _ => Between i mode t)
      (fun t _ _ _ => Between i mode t) (nodeInit hash) := by
    refine ⟨LockGhost.init, lockInv_init hash i mode, fun t => ⟨fun _ => rfl, fun _ _ => rfl, trivial,
      fun _ => trivial⟩⟩
  obtain ⟨g, hi, -⟩ := (turnKeeps hash i mode).reach hinit h
  exact ⟨g, hi⟩

end DMTree.LockTurns
