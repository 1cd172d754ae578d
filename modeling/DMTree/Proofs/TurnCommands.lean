import DMTree.Proofs.TurnSteps

/-!
# What a call at a lock node knows, and what its accesses do

The assertions at the control points of a call, in runs with fewer than 2^32 calls in flight, and a rule
for each access. In runs that settle (`mode`) the assertions also follow the duties of a call that has
the turn.
-/

namespace DMTree.LockTurns

open Conc

variable {hash : Key → Nat} {i : Nat} {mode : Prop} {t : Tid} {s : Side} {k : Key} {v : Value}

/-- A state of a run, as lock node `i` sees it. -/
def viewAt (i : Nat) (x : World (nodeClient hash) NodeState LockGhost) : LockView hash :=
  ⟨x.mem.locks i, x.log, x.ghost⟩

/-- Runs with fewer than 2^32 calls in flight, which settle if `mode` holds. -/
def turnGuard (hash : Key → Nat) (i : Nat) (mode : Prop) : Guard (nodeClient hash) NodeState where
  call _ _ := True
  act m l t c := FewCalls i l c ∧ (mode → Settles i m l t c)

/-- The discipline of the calls at lock node `i`. -/
def turnDiscipline (hash : Key → Nat) (i : Nat) (mode : Prop) :
    Discipline (nodeClient hash) NodeState LockGhost where
  machine := nodeMachine
  guard := turnGuard hash i mode
  Inv x := LockInv i mode (viewAt i x)
  Rel t x x' := LockRel i mode t (viewAt i x) (viewAt i x')
  MayFail _ := True

/-- An assertion about lock node `i`. -/
def At (i : Nat) (F : LockView hash → Prop) (x : World (nodeClient hash) NodeState LockGhost) : Prop :=
  F (viewAt i x)

/-! ## Assertions -/

section Assertions

variable {A F G W : LockView hash → Prop} {L : NodeLog hash → Prop}

/-- A fact that survives the steps of the others as long as `A` holds, and the own steps that leave the
fields of the lock node and the queues. -/
structure Fact (i : Nat) (mode : Prop) (t : Tid) (A F : LockView hash → Prop) : Prop where
  stable : ∀ u x x', u ≠ t → LockRel i mode u x x' → A x → F x → F x'
  frame : ∀ x n g e, SameCore x.node n → g.q = x.g.q → publishes i e = false → F x →
    F ⟨n, x.log ++ [e], g⟩

/-- A fact about the windows and the duties. -/
structure WinFact (i : Nat) (mode : Prop) (t : Tid) (A W : LockView hash → Prop) : Prop where
  stable : mode → ∀ u x x', u ≠ t → LockRel i mode u x x' → A x → W x → W x'
  frame : ∀ x n e, SameWindows x.node n → W x → W ⟨n, x.log ++ [e], x.g⟩

/-- A fact about the calls of `t`. -/
def LogFact (i : Nat) (t : Tid) (L : NodeLog hash → Prop) : Prop :=
  ∀ l e, SparesFor i t e → L l → L (l ++ [e])

/-- What a call knows: where it stands in the queues, its history, facts about the lock node, and in
runs that settle facts about the windows. -/
structure Status (mode : Prop) (A : LockView hash → Prop) (L : NodeLog hash → Prop)
    (F W : LockView hash → Prop) (x : LockView hash) : Prop where
  queue : A x
  log : L x.log
  node : F x
  windows : mode → W x

/-- An assertion that the others leave. -/
structure StatusOk (i : Nat) (mode : Prop) (t : Tid) (A : LockView hash → Prop)
    (L : NodeLog hash → Prop) (F W : LockView hash → Prop) : Prop where
  queue : Fact i mode t (fun _ => True) A
  log : LogFact i t L
  node : Fact i mode t A F
  windows : WinFact i mode t A W

theorem StatusOk.stable (h : StatusOk i mode t A L F W) :
    (turnDiscipline hash i mode).Stable t (At i (Status mode A L F W)) := by
  intro u x x' hu _ _ hr hx
  obtain ⟨e, hlog, het, -⟩ := hr.log
  refine ⟨?_, ?_, ?_, fun hm => ?_⟩
  · exact h.queue.stable u _ _ hu hr trivial hx.queue
  · rw [hlog]
    refine h.log _ _ (sparesFor_other ?_) hx.log
    rw [het]
    exact hu
  · exact h.node.stable u _ _ hu hr hx.queue hx.node
  · exact h.windows.stable hm u _ _ hu hr hx.queue (hx.windows hm)

theorem Fact.and (hF : Fact i mode t A F) (hG : Fact i mode t A G) :
    Fact i mode t A fun x => F x ∧ G x where
  stable := fun u x x' hu hr ha h => ⟨hF.stable u x x' hu hr ha h.1, hG.stable u x x' hu hr ha h.2⟩
  frame := fun x n g e hc hq he h => ⟨hF.frame x n g e hc hq he h.1, hG.frame x n g e hc hq he h.2⟩

theorem Fact.imp {p : Prop} (hF : p → Fact i mode t A F) : Fact i mode t A fun x => p → F x where
  stable := fun u x x' hu hr ha h hp => (hF hp).stable u x x' hu hr ha (h hp)
  frame := fun x n g e hc hq he h hp => (hF hp).frame x n g e hc hq he (h hp)

theorem fact_const (p : Prop) : Fact i mode t A fun _ => p where
  stable := fun _ _ _ _ _ _ h => h
  frame := fun _ _ _ _ _ _ _ h => h

theorem WinFact.and {V : LockView hash → Prop} (hW : WinFact i mode t A W)
    (hW' : WinFact i mode t A V) : WinFact i mode t A fun x => W x ∧ V x where
  stable := fun hm u x x' hu hr ha h =>
    ⟨hW.stable hm u x x' hu hr ha h.1, hW'.stable hm u x x' hu hr ha h.2⟩
  frame := fun x n e hw h => ⟨hW.frame x n e hw h.1, hW'.frame x n e hw h.2⟩

theorem winFact_const (p : Prop) : WinFact i mode t A fun _ => p where
  stable := fun _ _ _ _ _ _ _ h => h
  frame := fun _ _ _ _ h => h

theorem LogFact.and {M : NodeLog hash → Prop} (hL : LogFact i t L) (hL' : LogFact i t M) :
    LogFact i t fun l => L l ∧ M l := fun l e he h => ⟨hL l e he h.1, hL' l e he h.2⟩

theorem LogFact.imp {p : Prop} (hL : p → LogFact i t L) : LogFact i t fun l => p → L l :=
  fun l e he h hp => hL hp l e he (h hp)

end Assertions

/-! ### Places -/

/-- Thread `t` has no ticket. -/
def Out (t : Tid) (x : LockView hash) : Prop := ∀ s, (x.g.q s).tick t = none

/-- Thread `t` waits with ticket `c`. -/
def Waits (s : Side) (t : Tid) (c : Nat) (x : LockView hash) : Prop :=
  (x.g.q s).tick t = some c ∧ (x.g.q s).turn ≠ some t

/-- Thread `t` has the turn. -/
def HasTurn (s : Side) (t : Tid) (x : LockView hash) : Prop := (x.g.q s).turn = some t

theorem fact_out : Fact i mode t (fun _ => True) fun x : LockView hash => Out t x where
  stable := fun _ _ _ hu hr _ h s => (hr.tick s t (Ne.symm hu)).trans (h s)
  frame := by
    intro x n g e _ hq _ h s
    dsimp only
    rw [hq]
    exact h s

theorem fact_waits {c : Nat} : Fact i mode t (fun _ => True) fun x : LockView hash => Waits s t c x where
  stable := fun _ _ _ hu hr _ h => ⟨(hr.tick s t (Ne.symm hu)).trans h.1,
    fun h' => h.2 ((hr.turn s t (Ne.symm hu)).mp h')⟩
  frame := by
    intro x n g e _ hq _ h
    unfold Waits
    dsimp only
    rw [hq]
    exact h

theorem fact_hasTurn : Fact i mode t (fun _ => True) fun x : LockView hash => HasTurn s t x where
  stable := fun _ _ _ hu hr _ h => (hr.turn s t (Ne.symm hu)).mpr h
  frame := by
    intro x n g e _ hq _ h
    unfold HasTurn
    dsimp only
    rw [hq]
    exact h

/-- A call that has a turn waits in no queue. -/
theorem HasTurn.not_waiting {x : LockView hash} (ht : HasTurn s t x) (hi : LockInv i mode x)
    (s' : Side) (r : Nat) : place s' i x.log t ≠ .waiting r := by
  rw [(hi.side s').places t]
  have htick := (hi.side s).wf.turn t ht
  by_cases hs : s' = s
  · subst hs
    rw [placeIn_turn htick ht]
    exact Place.noConfusion
  · rw [placeIn_none]
    · exact Place.noConfusion
    · cases s <;> cases s' <;> rcases hi.apart t with h | h <;> simp_all

theorem Out.not_waiting {x : LockView hash} (ht : Out t x) (hi : LockInv i mode x) (s : Side)
    (r : Nat) : place s i x.log t ≠ .waiting r := by
  rw [(hi.side s).places t, placeIn_none (ht s)]
  exact Place.noConfusion

/-- A call that has the turn of one side has no ticket of the other one. -/
theorem HasTurn.other_none {x : LockView hash} (ht : HasTurn s t x) (hi : LockInv i mode x) :
    (x.g.q s.other).tick t = none := by
  have htick := (hi.side s).wf.turn t ht
  cases s <;> rcases hi.apart t with h | h <;> simp_all [Side.other]

theorem HasTurn.other_ne {x : LockView hash} (ht : HasTurn s t x) (hi : LockInv i mode x) :
    (x.g.q s.other).turn ≠ some t :=
  (hi.side s.other).toQueueAt.not_turn (ht.other_none hi)

/-! ### Histories -/

/-- The call `op` of thread `t` has left no key that waits for a ticket. -/
def Enrolled (i : Nat) (t : Tid) (op : NodeOp) (l : NodeLog hash) : Prop :=
  lastCall l t = some op ∧ ∀ s, fresh s i l t = false

/-- The call `op` of thread `t` has not touched the counters. -/
def Untouched (i : Nat) (t : Tid) (l : NodeLog hash) : Prop := ∀ s, tally s i l t = (0, 0)

/-- The call `op` of thread `t` has passed the comparison of the keys. -/
structure Admitted (s : Side) (i : Nat) (t : Tid) (op : NodeOp) (l : NodeLog hash) : Prop where
  call : lastCall l t = some op
  untouched : Untouched i t l
  inFlight : engaged s i l t = true
  other : fresh s.other i l t = false

/-- The call `op` of thread `t` goes to remote memory without a ticket; a read may have left its key. -/
def Bounced (s : Side) (i : Nat) (t : Tid) (op : NodeOp) (l : NodeLog hash) : Prop :=
  lastCall l t = some op ∧ ∀ s', (s' = .write ∨ s = .write) → fresh s' i l t = false

/-- Thread `t` has looked up `v` for `k`. -/
def LookedUp (t : Tid) (k : Key) (v : Value) (l : NodeLog hash) : Prop := lookup l t = some (k, v)

theorem lastCall_concat_of_not {l : NodeLog hash} {e : NodeEvent} (h : Event.isCall t e = false) :
    lastCall (l ++ [e]) t = lastCall l t := by
  cases e with
  | call u op =>
    have hu : u ≠ t := by simpa [Event.isCall] using h
    rw [lastCall_call, if_neg hu]
  | act u c r => exact lastCall_act
  | ret u op res => exact lastCall_ret

section Logs

variable {op : NodeOp}

theorem logFact_call : LogFact i t fun l : NodeLog hash => lastCall l t = some op :=
  fun _ _ he h => (lastCall_concat_of_not he.call).trans h

theorem logFact_fresh : LogFact i t fun l : NodeLog hash => fresh s i l t = false := by
  intro l e he h
  rw [fresh_concat, he.fresh, h]

theorem logFact_untouched : LogFact i t fun l : NodeLog hash => Untouched i t l := by
  intro l e he h s
  rw [tally_concat, he.tally, h s]

theorem logFact_enrolled : LogFact i t fun l : NodeLog hash => Enrolled i t op l :=
  fun l e he h => ⟨logFact_call l e he h.1, fun s => logFact_fresh l e he (h.2 s)⟩

theorem logFact_admitted : LogFact i t fun l : NodeLog hash => Admitted s i t op l := by
  intro l e he h
  refine ⟨logFact_call l e he h.call, logFact_untouched l e he h.untouched, ?_,
    logFact_fresh l e he h.other⟩
  rw [engaged_concat, h.inFlight]
  exact he.engaged s

theorem logFact_bounced : LogFact i t fun l : NodeLog hash => Bounced s i t op l :=
  fun l e he h => ⟨logFact_call l e he h.1, fun s' hs => logFact_fresh l e he (h.2 s' hs)⟩

theorem logFact_lookedUp : LogFact i t fun l : NodeLog hash => LookedUp t k v l := by
  intro l e he h
  unfold LookedUp
  rw [lookup_concat, he.lookup]
  exact h

theorem Enrolled.bounced {l : NodeLog hash} (h : Enrolled i t op l) : Bounced s i t op l :=
  ⟨h.1, fun s' _ => h.2 s'⟩

end Logs

/-! ### The lock node -/

/-- The owner key and the handover flag. -/
structure Holds (s : Side) (k : Key) (h : Bool) (x : LockView hash) : Prop where
  key : x.node.uniqueKey s = some k
  handover : x.node.handover s = h

/-- The ticket counter has been seen at `ticket`, after the current call took its own. -/
def Seen (s : Side) (ticket : Nat) (x : LockView hash) : Prop :=
  ∃ n, ticket = n % 2 ^ 32 ∧ (x.g.q s).cur < n ∧ n ≤ (x.g.q s).next

/-- `current` has been seen at `current`. -/
def Current (s : Side) (current : Nat) (x : LockView hash) : Prop :=
  current = (x.g.q s).cur % 2 ^ 32

/-- The result in the lock node is one for `k`. -/
def Published (i : Nat) (k : Key) (x : LockView hash) : Prop :=
  ∃ p, PublishedAt i x.log k x.node.retValue p

theorem fact_key : Fact i mode t (HasTurn s t) fun x : LockView hash => x.node.uniqueKey s = some k where
  stable := fun _ _ _ hu hr ht h => (hr.held s t (Ne.symm hu) ht).key k h
  frame := fun _ _ _ _ hc _ _ h => (congrFun hc.uniqueKey s).trans h

theorem fact_handover {h : Bool} :
    Fact i mode t (HasTurn s t) fun x : LockView hash => x.node.handover s = h where
  stable := fun _ _ _ hu hr ht h => (hr.held s t (Ne.symm hu) ht).handover.trans h
  frame := fun _ _ _ _ hc _ _ h => (congrFun hc.handover s).trans h

theorem fact_holds {h : Bool} :
    Fact i mode t (HasTurn s t) fun x : LockView hash => Holds s k h x where
  stable := fun u x x' hu hr ht hx =>
    ⟨fact_key.stable u x x' hu hr ht hx.key, fact_handover.stable u x x' hu hr ht hx.handover⟩
  frame := fun _ _ _ _ hc _ _ hx =>
    ⟨(congrFun hc.uniqueKey s).trans hx.key, (congrFun hc.handover s).trans hx.handover⟩

theorem fact_seen {ticket : Nat} :
    Fact i mode t (HasTurn s t) fun x : LockView hash => Seen s ticket x where
  stable := by
    rintro u x x' hu hr ht ⟨n, hn, hlt, hle⟩
    refine ⟨n, hn, ?_, hle.trans (hr.next s)⟩
    rw [(hr.held s t (Ne.symm hu) ht).cur]
    exact hlt
  frame := by
    intro x n g e _ hq _ h
    unfold Seen
    dsimp only
    rw [hq]
    exact h

theorem fact_current {current : Nat} :
    Fact i mode t (HasTurn s t) fun x : LockView hash => Current s current x where
  stable := by
    intro u x x' hu hr ht h
    unfold Current
    rw [(hr.held s t (Ne.symm hu) ht).cur]
    exact h
  frame := by
    intro x n g e _ hq _ h
    unfold Current
    dsimp only
    rw [hq]
    exact h

theorem fact_published : Fact i mode t (HasTurn .read t) fun x : LockView hash => Published i k x where
  stable := by
    rintro u x x' hu hr ht ⟨p, hp⟩
    obtain ⟨e, hlog, -, hpub⟩ := hr.log
    have hno : publishes i e = false := by
      cases he : publishes i e with
      | false => rfl
      | true => exact absurd (Option.some.inj ((hpub he).symm.trans ht)) hu
    refine ⟨p, ?_⟩
    rw [hlog, hr.result t (Ne.symm hu) ht]
    exact hp.concat hno
  frame := by
    rintro x n g e hc _ he ⟨p, hp⟩
    refine ⟨p, ?_⟩
    dsimp only
    rw [hc.retValue]
    exact hp.concat he

/-- The queue as it was seen. -/
theorem Seen.queueLength {ticket current : Nat} {x : LockView hash} (hs : Seen s ticket x)
    (hc : Current s current x) (hi : LockInv i mode x) :
    queueLength ticket current ≠ 0 ∧
      queueLength ticket current ≤ (x.g.q s).next - (x.g.q s).cur := by
  obtain ⟨n, rfl, hlt, hle⟩ := hs
  obtain rfl : current = (x.g.q s).cur % 2 ^ 32 := hc
  have hfits := (hi.side s).wf.fits
  rw [queueLength_mod hlt.le (by omega)]
  omega

/-- A call that sees another ticket than the next one has somebody behind it. -/
theorem Seen.behind {ticket current : Nat} {x : LockView hash} (hs : Seen s ticket x)
    (hc : Current s current x) (hne : ticket ≠ (current + 1) % 2 ^ 32) :
    (x.g.q s).cur + 1 < (x.g.q s).next := by
  obtain ⟨n, rfl, hlt, hle⟩ := hs
  obtain rfl : current = (x.g.q s).cur % 2 ^ 32 := hc
  have hn : n ≠ (x.g.q s).cur + 1 := by
    rintro rfl
    apply hne
    omega
  omega

/-! ### Windows -/

/-- The duties of the call with the turn. -/
def Tasked (s : Side) (d : Duty) (x : LockView hash) : Prop := x.g.duty s = d

/-- Thread `t` holds the mutex of side `o`. -/
def Owns (o : Side) (t : Tid) (x : LockView hash) : Prop := x.g.owner o = some t

theorem winFact_tasked {d : Duty} :
    WinFact i mode t (HasTurn s t) fun x : LockView hash => Tasked s d x where
  stable := fun _ _ _ _ hu hr ht h => (hr.held s t (Ne.symm hu) ht).duty.trans h
  frame := fun _ _ _ _ h => h

theorem winFact_owns {o : Side} {A : LockView hash → Prop} :
    WinFact i mode t A fun x : LockView hash => Owns o t x where
  stable := fun _ _ _ _ hu hr _ h => (hr.owner o t (Ne.symm hu)).mpr h
  frame := fun _ _ _ _ h => h

/-! ## Commands -/

/-- An access to lock node `i`, described by what it does to the view. -/
theorem lock_cmd {c : LockCmd} {P : LockView hash → Prop} {R : c.Resp → LockView hash → Prop}
    (h : ∀ m x r n, m.locks i = x.node → (turnGuard hash i mode).act m x.log t (.lock i c) →
      LockInv i mode x → P x → x.node.exec c = some (r, n) →
      ∃ g, LockInv i mode ⟨n, x.log ++ [.act t (.lock i c) r], g⟩ ∧
        LockRel i mode t x ⟨n, x.log ++ [.act t (.lock i c) r], g⟩ ∧
        R r ⟨n, x.log ++ [.act t (.lock i c) r], g⟩) :
    (turnDiscipline hash i mode).Cmd t (.lock i c) (At i P) fun r => At i (R r) := by
  intro x r m hi hP hg he
  obtain ⟨n, hn, rfl⟩ := exec_lock he
  obtain ⟨g, h1, h2, h3⟩ := h x.mem (viewAt i x) r n rfl hg hi hP hn
  have hview : viewAt i (⟨{ x.mem with locks := Function.update x.mem.locks i n },
      x.log ++ [.act t (.lock i c) r], g⟩ : World (nodeClient hash) NodeState LockGhost) =
      ⟨n, x.log ++ [.act t (.lock i c) r], g⟩ := by
    simp [viewAt]
  refine ⟨g, ?_, ?_, ?_⟩
  · change LockInv i mode (viewAt i _)
    rw [hview]
    exact h1
  · change LockRel i mode t (viewAt i x) (viewAt i _)
    rw [hview]
    exact h2
  · change R r (viewAt i _)
    rw [hview]
    exact h3


theorem sparesFor_lock {j : Nat} {c : LockCmd} {r : c.Resp}
    (he : QuietEvent i (.act t (.lock j c) r)) : SparesFor i t (.act t (.lock j c) r) :=
  ⟨rfl, fun s a => (he.calm s).tally t a, fun s a => he.fresh s t a, fun _ => rfl,
    fun s => (he.calm s).engaged t⟩

section Commands

variable {A F W : LockView hash → Prop} {L : NodeLog hash → Prop}

/-- An access that leaves the queues, the owner keys and the results. -/
theorem mild_cmd {c : LockCmd} {G V : c.Resp → LockView hash → Prop}
    (hok : ∀ r, StatusOk i mode t A L (G r) (V r))
    (hcore : ∀ n n' r, LocalLockNode.exec n c = some (r, n') → SameCore n n')
    (hev : ∀ r, SparesFor i t (.act t (.lock i c) r) ∧ publishes i (.act t (.lock i c) r) = false)
    (h : ∀ m x r n, m.locks i = x.node → (turnGuard hash i mode).act m x.log t (.lock i c) →
      LockInv i mode x → Status mode A L F W x → x.node.exec c = some (r, n) → G r x ∧
        ∃ g, g.q = x.g.q ∧ LockInv i mode ⟨n, x.log ++ [.act t (.lock i c) r], g⟩ ∧
          LockRel i mode t x ⟨n, x.log ++ [.act t (.lock i c) r], g⟩ ∧
          (mode → V r ⟨n, x.log ++ [.act t (.lock i c) r], g⟩)) :
    (turnDiscipline hash i mode).Cmd t (.lock i c) (At i (Status mode A L F W))
      fun r => At i (Status mode A L (G r) (V r)) := by
  refine lock_cmd fun m x r n hm hg hi hx hn => ?_
  obtain ⟨hF, g, hq, h1, h2, hW⟩ := h m x r n hm hg hi hx hn
  have hc := hcore _ _ _ hn
  obtain ⟨hs, hp⟩ := hev r
  exact ⟨g, h1, h2, (hok r).queue.frame x n g _ hc hq hp hx.queue, (hok r).log _ _ hs hx.log,
    (hok r).node.frame x n g _ hc hq hp hF, hW⟩

/-- An access that leaves a lock node as it is. -/
theorem quiet_cmd {c : LockCmd} {G : c.Resp → LockView hash → Prop} (hc : c.quiet = true)
    (hok : ∀ r, StatusOk i mode t A L (G r) W)
    (h : ∀ m x r n, m.locks i = x.node → (turnGuard hash i mode).act m x.log t (.lock i c) →
      LockInv i mode x → Status mode A L F W x → x.node.exec c = some (r, n) → G r x) :
    (turnDiscipline hash i mode).Cmd t (.lock i c) (At i (Status mode A L F W))
      fun r => At i (Status mode A L (G r) W) := by
  have hloose := LockCmd.loose_of_quiet hc
  refine mild_cmd (V := fun _ => W) hok (fun n n' r hn => exec_loose hloose hn)
    (fun r => ?_) fun m x r n hm hg hi hx hn => ⟨h m x r n hm hg hi hx hn, x.g, rfl, ?_, ?_, ?_⟩
  · have he : QuietEvent i (.act t (.lock i c) r) := quietEvent_lock (fun _ => hloose) r
    exact ⟨sparesFor_lock he, he.publish⟩
  · exact hi.quiet (exec_loose hloose hn) (fun _ => exec_quiet hc hn)
      (quietEvent_lock (fun _ => hloose) r)
  · exact .quiet (exec_loose hloose hn) (fun _ => (exec_quiet hc hn).window)
      (quietEvent_lock (i := i) (fun _ => hloose) r).publish rfl
  · exact fun hm => (hok r).windows.frame x n _ (exec_quiet hc hn) (hx.windows hm)

/-- A call looks at `current` of a queue in which it does not wait. -/
theorem look_cmd {G V : Nat → LockView hash → Prop}
    (hok : ∀ r, StatusOk i mode t A L (G r) (V r))
    (hp : ∀ x, LockInv i mode x → A x → ∀ r, place s i x.log t ≠ .waiting r)
    (h : ∀ x, LockInv i mode x → Status mode A L F W x → G (x.node.current s) x ∧
      (mode → V (x.node.current s) x)) :
    (turnDiscipline hash i mode).Cmd t (.lock i (.loadCurrent s)) (At i (Status mode A L F W))
      fun r => At i (Status mode A L (G r) (V r)) := by
  refine mild_cmd (c := .loadCurrent s) hok (fun n n' r hn => ?_) (fun r => ?_)
    fun m x r n _ _ hi hx hn => ?_
  · cases hn
    exact .refl
  · exact ⟨⟨rfl, fun _ _ => rfl, fun _ _ => rfl, fun _ => rfl, fun _ => rfl⟩, rfl⟩
  · cases hn
    obtain ⟨hF, hW⟩ := h x hi hx
    exact ⟨hF, x.g, rfl, hi.look (hp x hi hx.queue _), .quiet .refl (fun _ => rfl) rfl rfl,
      fun hm => (hok _).windows.frame x _ _ .refl (hW hm)⟩

/-- The call with the turn works on the windows. -/
theorem duty_cmd {c : LockCmd} {d : c.Resp → Duty} {V : c.Resp → LockView hash → Prop}
    (hc : c.loose = true) (hok : ∀ r, StatusOk i mode t (HasTurn s t) L F (V r))
    (h : mode → ∀ x r n, LockInv i mode x → HasTurn s t x → F x → W x →
      x.node.exec c = some (r, n) → WindowInv n (x.g.setDuty s (d r)) ∧
        (d r).passed = (x.g.duty s).passed ∧
        (∀ s' u, u ≠ t → x.g.owner s' = some u → (x.g.q s').turn = some u →
          n.window s' = x.node.window s') ∧
        V r ⟨n, x.log ++ [.act t (.lock i c) r], x.g.setDuty s (d r)⟩) :
    (turnDiscipline hash i mode).Cmd t (.lock i c) (At i (Status mode (HasTurn s t) L F W))
      fun r => At i (Status mode (HasTurn s t) L F (V r)) := by
  have he : ∀ r, QuietEvent i (.act t (.lock i c) r) := quietEvent_lock fun _ => hc
  refine mild_cmd (G := fun _ => F) hok (fun n n' r hn => exec_loose hc hn)
    (fun r => ⟨sparesFor_lock (he r), (he r).publish⟩) fun m x r n _ _ hi hx hn => ⟨hx.node, ?_⟩
  have hcore := exec_loose hc hn
  by_cases hm : mode
  · obtain ⟨hwin, hpass, hown, hW⟩ := h hm x r n hi hx.queue hx.node (hx.windows hm) hn
    refine ⟨x.g.setDuty s (d r), rfl, ?_, ?_, fun _ => hW⟩
    · refine hi.windows hcore rfl (fun _ s' => ?_) (fun _ => hwin) (he r)
      by_cases hs : s' = s
      · subst hs
        rw [setDuty_self, hpass]
      · obtain rfl := Side.eq_other hs
        rw [setDuty_other]
    · exact .duty hx.queue _ (fun s' _ _ hk => (congrFun hcore.uniqueKey s').trans hk)
        (fun s' _ => congrFun hcore.handover s') (fun _ => hown) hcore.retValue (he r).publish rfl
  · exact ⟨x.g, rfl, hi.quiet hcore (fun h => absurd h hm) (he r),
      .quiet hcore (fun h => absurd h hm) (he r).publish rfl, fun h => absurd h hm⟩

/-- A call takes a mutex. -/
theorem mutexLock_cmd {o : Side} {D : (Side → Duty) → Prop}
    (hok : StatusOk i mode t A L F fun x => D x.g.duty ∧ Owns o t x) :
    (turnDiscipline hash i mode).Cmd t (.lock i (.lock o))
      (At i (Status mode A L F fun x => D x.g.duty))
      fun _ => At i (Status mode A L F fun x => D x.g.duty ∧ Owns o t x) := by
  have he : ∀ r, QuietEvent i (.act t (.lock i (.lock o)) r) :=
    quietEvent_lock (c := .lock o) fun _ => rfl
  refine mild_cmd (G := fun _ => F) (V := fun _ x => D x.g.duty ∧ Owns o t x) (fun _ => hok)
    (fun n n' r hn => exec_loose rfl hn) (fun r => ⟨sparesFor_lock (he r), (he r).publish⟩)
    fun m x r n _ _ hi hx hn => ⟨hx.node, ?_⟩
  have hcore := exec_loose rfl hn
  by_cases hm : mode
  · obtain ⟨hfree, hn'⟩ : x.node.mutex o = false ∧
        n = { x.node with mutex := Function.update x.node.mutex o true } := by
      simp only [LocalLockNode.exec] at hn
      split at hn
      · cases hn
      · next hmo =>
        cases hn
        exact ⟨by simpa using hmo, rfl⟩
    have hwin := (hi.rest hm).win
    have hnone : x.g.owner o = none := by
      have hmo := hwin.mutex o
      rw [hfree] at hmo
      simpa using hmo.symm
    refine ⟨x.g.setOwner o (some t), rfl, ?_, ?_, fun _ => ⟨hx.windows hm, setOwner_self⟩⟩
    · refine hi.windows hcore rfl (fun _ _ => rfl) (fun _ => ?_) (he r)
      rw [hn']
      exact hwin.lock hfree t
    · refine .mutex hcore ?_ (fun u _ => ?_) (fun u hu => ?_) (he r).publish rfl
      · rw [hn']
      · rw [hnone]
        exact (Option.some_ne_none u).symm
      · exact fun h => hu (Option.some.inj h).symm
  · exact ⟨x.g, rfl, hi.quiet hcore (fun h => absurd h hm) (he r),
      .quiet hcore (fun h => absurd h hm) (he r).publish rfl, fun h => absurd h hm⟩

/-- A call gives a mutex back. -/
theorem mutexUnlock_cmd {o : Side} {D : (Side → Duty) → Prop}
    (hok : StatusOk i mode t A L F fun x => D x.g.duty)
    (hturn : ∀ x, LockInv i mode x → A x → (x.g.q o).turn ≠ some t)
    (hzero : ∀ x, LockInv i mode x → A x → D x.g.duty → (x.g.duty o.other).zero = true →
      (x.g.q o.other).turn ≠ some t) :
    (turnDiscipline hash i mode).Cmd t (.lock i (.unlock o))
      (At i (Status mode A L F fun x => D x.g.duty ∧ Owns o t x))
      fun _ => At i (Status mode A L F fun x => D x.g.duty) := by
  have he : ∀ r, QuietEvent i (.act t (.lock i (.unlock o)) r) :=
    quietEvent_lock (c := .unlock o) fun _ => rfl
  refine mild_cmd (G := fun _ => F) (V := fun _ x => D x.g.duty) (fun _ => hok)
    (fun n n' r hn => exec_loose rfl hn) (fun r => ⟨sparesFor_lock (he r), (he r).publish⟩)
    fun m x r n _ _ hi hx hn => ⟨hx.node, ?_⟩
  have hcore := exec_loose rfl hn
  by_cases hm : mode
  · have hwin := (hi.rest hm).win
    obtain ⟨hD, hown⟩ := hx.windows hm
    change x.g.owner o = some t at hown
    have hleft : (x.g.duty o).left = false := by
      cases hl : (x.g.duty o).left with
      | false => rfl
      | true => exact absurd ((hwin.left o hl).symm.trans hown) (hturn x hi hx.queue)
    have hz : (x.g.duty o.other).zero = false := by
      cases hz : (x.g.duty o.other).zero with
      | false => rfl
      | true =>
        have hturn' := hwin.zero _ hz
        rw [Side.other_other] at hturn'
        exact absurd (hturn'.symm.trans hown) (hzero x hi hx.queue hD hz)
    cases hn
    refine ⟨x.g.setOwner o none, rfl, ?_, ?_, fun _ => hD⟩
    · exact hi.windows hcore rfl (fun _ _ => rfl) (fun _ => hwin.setOwner none hleft hz) (he _)
    · refine .mutex hcore rfl (fun u hu => ?_) (fun u _ => (Option.some_ne_none u).symm) rfl rfl
      rw [hown]
      exact fun h => hu (Option.some.inj h).symm
  · exact ⟨x.g, rfl, hi.quiet hcore (fun h => absurd h hm) (he r),
      .quiet hcore (fun h => absurd h hm) (he r).publish rfl, fun h => absurd h hm⟩

/-- A step that is not an access to lock node `i`. -/
theorem elsewhere_cmd {c : NodeCmd} {M : c.Resp → NodeLog hash → Prop}
    (hok : ∀ r, StatusOk i mode t A (M r) F W) (hc : ∀ d, c ≠ .lock i d)
    (hL : ∀ m l r, (turnGuard hash i mode).act m l t c → L l → M r (l ++ [.act t c r])) :
    (turnDiscipline hash i mode).Cmd t c (At i (Status mode A L F W))
      fun r => At i (Status mode A (M r) F W) := by
  intro x r m hi hx hg he
  have hnode : m.locks i = x.mem.locks i := by
    cases c with
    | lock j d =>
      have hj : i ≠ j := by
        rintro rfl
        exact hc d rfl
      obtain ⟨n, -, rfl⟩ := exec_lock he
      exact Function.update_of_ne hj _ _
    | remoteRead k =>
      cases he
      rfl
    | remoteWrite k v =>
      cases he
      rfl
  have hev : QuietEvent i (.act t c r) := by
    cases c with
    | lock j d =>
      refine quietEvent_lock (fun hj => ?_) r
      subst hj
      exact absurd rfl (hc d)
    | _ =>
      exact ⟨fun _ => ⟨fun _ _ => rfl, fun _ => rfl, fun _ _ => rfl, fun _ => rfl⟩,
        fun _ _ _ => rfl, rfl, by rintro _ _ ⟨⟩⟩
  have hview : viewAt i (⟨m, x.log ++ [.act t c r], x.ghost⟩ :
      World (nodeClient hash) NodeState LockGhost) =
      ⟨(viewAt i x).node, x.log ++ [.act t c r], x.ghost⟩ := by
    simp [viewAt, hnode]
  refine ⟨x.ghost, ?_, ?_, ?_⟩
  · change LockInv i mode (viewAt i _)
    rw [hview]
    exact LockInv.quiet hi .refl (fun _ => .refl) hev
  · change LockRel i mode t (viewAt i x) (viewAt i _)
    rw [hview]
    exact .quiet .refl (fun _ => rfl) hev.publish rfl
  · change Status mode A (M r) F W (viewAt i _)
    rw [hview]
    exact ⟨(hok r).queue.frame _ _ _ _ .refl rfl hev.publish hx.queue, hL _ _ r hg hx.log,
      (hok r).node.frame _ _ _ _ .refl rfl hev.publish hx.node,
      fun hm => (hok r).windows.frame _ _ _ .refl (hx.windows hm)⟩

/-! ### The queue -/

variable {op : NodeOp} {d : Duty} {b : Bool}

/-- A call has been made and has done nothing yet. -/
def Starting (i : Nat) (t : Tid) (op : NodeOp) (l : NodeLog hash) : Prop :=
  Enrolled i t op l ∧ Untouched i t l

theorem logFact_starting : LogFact i t fun l : NodeLog hash => Starting i t op l :=
  logFact_enrolled.and logFact_untouched

/-- A call without any facts about the lock node. -/
theorem statusOk_plain (hA : Fact i mode t (fun _ => True) A) (hL : LogFact i t L) :
    StatusOk i mode t A L (fun _ => True) fun _ => True :=
  ⟨hA, hL, fact_const _, winFact_const _⟩

theorem quietEvent_found {k' : Key} : QuietEvent i (.act t (.lock i (.casUniqueKey s k)) (some k')) := by
  refine ⟨fun s' => ⟨fun _ _ => rfl, fun _ => rfl, fun _ _ => rfl, fun u => ?_⟩, fun s' u a => ?_, rfl,
    by rintro _ _ ⟨⟩⟩
  · simp [nextEngaged]
  · simp [nextFresh]

/-- `unique_key.compare_exchange_strong(nullptr, new Key(k))` -/
theorem casUniqueKey_cmd :
    (turnDiscipline hash i mode).Cmd t (.lock i (.casUniqueKey s k))
      (At i (Status mode (Out t) (Starting i t op) (fun _ => True) fun _ => True))
      fun r => At i (Status mode (Out t)
        (fun l => Admitted s i t op l ∧ (r ≠ none → fresh s i l t = false))
        (fun _ => True) fun _ => True) := by
  refine lock_cmd fun m x r n _ _ hi hx hn => ?_
  obtain ⟨⟨hcall, hfresh⟩, hunt⟩ := hx.log
  have hadm : ∀ r : Option Key,
      Admitted s i t op (x.log ++ [.act t (.lock i (.casUniqueKey s k)) r]) := by
    intro r
    refine ⟨lastCall_act.trans hcall, fun s' => ?_, ?_, ?_⟩
    · rw [tally_concat]
      exact hunt s'
    · rw [engaged_concat]
      simp [nextEngaged]
    · rw [fresh_concat, hfresh]
      simp [nextFresh, (Side.other_ne s).symm]
  simp only [LocalLockNode.exec] at hn
  split at hn
  · next hk =>
    cases hn
    exact ⟨x.g, hi.install hk, .install hk, hx.queue, ⟨hadm none, fun h => absurd rfl h⟩, trivial,
      fun _ => trivial⟩
  · next k' hk =>
    cases hn
    refine ⟨x.g, hi.quiet .refl (fun _ => .refl) quietEvent_found,
      .quiet .refl (fun _ => rfl) rfl rfl, hx.queue, ⟨hadm _, fun _ => ?_⟩, trivial, fun _ => trivial⟩
    rw [fresh_concat, hfresh]
    simp [nextFresh]

/-- `ticket.fetch_add(1)` -/
theorem incTicket_cmd :
    (turnDiscipline hash i mode).Cmd t (.lock i (.incTicket s))
      (At i (Status mode (Out t) (Admitted s i t op) (fun _ => True) fun _ => True))
      fun r => At i fun x => ∃ c, r = c % 2 ^ 32 ∧
        Status mode (Waits s t c) (Enrolled i t op) (fun _ => True) (fun _ => True) x := by
  refine lock_cmd fun m x r n _ hg hi hx hn => ?_
  cases hn
  have hlog := hx.log
  refine ⟨_, hi.take hx.queue (hlog.untouched s) hlog.inFlight (hg.1 rfl), .take, (x.g.q s).next,
    (hi.side s).ticket, ⟨?_, ?_⟩, ⟨lastCall_act.trans hlog.call, fun s' => ?_⟩, trivial,
    fun _ => trivial⟩
  · simp [LockGhost.setQueue, Tickets.take]
  · rw [(take_queue x.g s s).1]
    exact (hi.side s).toQueueAt.not_turn (hx.queue s)
  · rw [fresh_concat]
    by_cases hs : s = s'
    · simp [nextFresh, hs]
    · obtain rfl := Side.eq_other (Ne.symm hs)
      simp [nextFresh, hs, hlog.other]

/-- A waiting call looks at `current`. -/
theorem waits_cmd {c : Nat} (hL : LogFact i t L) :
    (turnDiscipline hash i mode).Cmd t (.lock i (.loadCurrent s))
      (At i (Status mode (Waits s t c) L (fun _ => True) fun _ => True))
      fun r => At i (if c % 2 ^ 32 = r then
        Status mode (HasTurn s t) L (fun _ => True) (Tasked s {})
        else Status mode (Waits s t c) L (fun _ => True) fun _ => True) := by
  refine lock_cmd fun m x r n _ _ hi hx hn => ?_
  cases hn
  obtain ⟨htick, hturn⟩ := hx.queue
  have hlog : L (x.log ++ [.act t (.lock i (.loadCurrent s)) (x.node.current s)]) :=
    hL _ _ ⟨rfl, fun _ _ => rfl, fun _ _ => rfl, fun _ => rfl, fun _ => rfl⟩ hx.log
  split
  · next hr =>
    obtain rfl := (hi.side s).toQueueAt.eq_cur htick hr
    have hno := (hi.side s).toQueueAt.turn_none htick hturn
    refine ⟨_, hi.grant htick hno, .grant hno _, ?_, hlog, trivial, fun hm => ?_⟩
    · simp [HasTurn, LockGhost.setQueue, Tickets.grant]
    · exact (hi.rest hm).win.free s hno
  · next hr =>
    refine ⟨x.g, hi.look ?_, .quiet .refl (fun _ => rfl) rfl rfl, hx.queue, hlog, trivial,
      fun _ => trivial⟩
    rw [(hi.side s).places t, placeIn_waiting htick hturn]
    exact fun h => hr (Place.waiting.inj h)

/-- `current.fetch_add(1)` -/
theorem incCurrent_cmd :
    (turnDiscipline hash i mode).Cmd t (.lock i (.incCurrent s))
      (At i (Status mode (HasTurn s t) (Enrolled i t op) F fun x => Tasked s leaving x ∧ Owns s t x))
      fun _ => At i (Status mode (Out t) (Enrolled i t op) (fun _ => True) (Owns s t)) := by
  refine lock_cmd fun m x r n _ _ hi hx hn => ?_
  cases hn
  have hd : mode → x.g.duty s = leaving := fun hm => (hx.windows hm).1
  refine ⟨_, hi.leave hx.queue hd, .leave hi hx.queue hd, fun s' => ?_,
    ⟨lastCall_act.trans hx.log.1, fun s' => ?_⟩, trivial, fun hm => (hx.windows hm).2⟩
  · by_cases hs : s' = s
    · subst hs
      dsimp only
      rw [leave_queue]
      simp [Tickets.leave]
    · obtain rfl := Side.eq_other hs
      dsimp only
      rw [(leave_other x.g hs).1]
      exact hx.queue.other_none hi
  · rw [fresh_concat]
    exact hx.log.2 s'

/-! ### Handovers and results -/

/-- The call with the turn sets the handover flag. -/
theorem storeHandover_cmd (hL : LogFact i t L)
    (hF : ∀ x, LockInv i mode x → HasTurn s t x → F x → x.node.uniqueKey s = some k ∧
      (b = true → (x.g.q s).cur + 1 < (x.g.q s).next ∧ (s = .read → Published i k x))) :
    (turnDiscipline hash i mode).Cmd t (.lock i (.storeHandover s b))
      (At i (Status mode (HasTurn s t) L F (Tasked s d)))
      fun _ => At i (Status mode (HasTurn s t) L (Holds s k b) (Tasked s { d with passed := b })) := by
  refine lock_cmd fun m x r n _ _ hi hx hn => ?_
  cases hn
  obtain ⟨hk, hb⟩ := hF x hi hx.queue hx.node
  refine ⟨x.g.pass s b, hi.handover hx.queue (fun h => (hb h).1) (fun hs h => ?_),
    .handover hx.queue, hx.queue, ?_, ⟨hk, by simp⟩, fun hm => ?_⟩
  · obtain ⟨p, hp⟩ := (hb h).2 hs
    subst hs
    exact ⟨k, p, hk, hp⟩
  · exact hL _ _ ⟨rfl, fun _ _ => rfl, fun _ _ => rfl, fun _ => rfl, fun _ => rfl⟩ hx.log
  · have hd : x.g.duty s = d := hx.windows hm
    simp [Tasked, LockGhost.pass, hd]

/-- `unique_key = nullptr` -/
theorem clearUniqueKey_cmd (hL : LogFact i t L) :
    (turnDiscipline hash i mode).Cmd t (.lock i (.clearUniqueKey s))
      (At i (Status mode (HasTurn s t) L (fun x => x.node.handover s = false) (Tasked s d)))
      fun _ => At i (Status mode (HasTurn s t) L (fun _ => True)
        (Tasked s { d with passed := true })) := by
  refine lock_cmd fun m x r n _ _ hi hx hn => ?_
  cases hn
  refine ⟨x.g.pass s true, hi.clear hx.queue hx.node, .clear hx.queue, hx.queue, ?_, trivial,
    fun hm => ?_⟩
  · exact hL _ _ ⟨rfl, fun _ _ => rfl, fun _ _ => rfl, fun _ => rfl, fun _ => rfl⟩ hx.log
  · have hd : x.g.duty s = d := hx.windows hm
    simp [Tasked, LockGhost.pass, hd]

/-- The winner publishes what it has looked up. -/
theorem storeRetValue_cmd (hL : LogFact i t L) (hW : WinFact i mode t (HasTurn .read t) W) :
    (turnDiscipline hash i mode).Cmd t (.lock i (.storeRetValue v))
      (At i (Status mode (HasTurn .read t) (fun l => L l ∧ LookedUp t k v l) (Holds .read k false) W))
      fun _ => At i (Status mode (HasTurn .read t) L
        (fun x => Holds .read k false x ∧ Published i k x) W) := by
  refine lock_cmd fun m x r n _ _ hi hx hn => ?_
  cases hn
  refine ⟨x.g, hi.publish hx.node.handover, .publish hx.queue, hx.queue, ?_,
    ⟨⟨hx.node.key, hx.node.handover⟩, x.log.length, ⟨t, getElem?_concat_last _ _, ?_⟩, ?_⟩,
    fun hm => hW.frame x _ _ ⟨rfl, rfl, rfl⟩ (hx.windows hm)⟩
  · exact hL _ _ ⟨rfl, fun _ _ => rfl, fun _ _ => rfl, fun _ => rfl, fun _ => rfl⟩ hx.log.1
  · rw [List.take_append_of_le_length le_rfl, List.take_length]
    exact hx.log.2
  · intro p e hp he
    have hlt := lt_of_getElem? he
    rw [List.length_append, List.length_singleton] at hlt
    omega

/-- A call that is handed over takes over the result. -/
theorem loadRetValue_cmd {value : Value} (hok : StatusOk i mode t (HasTurn .read t) L F W)
    (hcall : ∀ l, L l → lastCall l t = some (.read k value)) (hF : ∀ x, F x → Holds .read k true x) :
    (turnDiscipline hash i mode).Cmd t (.lock i .loadRetValue)
      (At i (Status mode (HasTurn .read t) L F W))
      fun _ => At i (Status mode (HasTurn .read t) L F W) := by
  refine lock_cmd fun m x r n _ _ hi hx hn => ?_
  cases hn
  have hh := hF x hx.node
  refine ⟨x.g, hi.copy hh.handover hh.key (hcall _ hx.log), .quiet .refl (fun _ => rfl) rfl rfl,
    hx.queue, ?_, hok.node.frame _ _ _ _ .refl rfl rfl hx.node,
    fun hm => hok.windows.frame x _ _ .refl (hx.windows hm)⟩
  exact hok.log _ _ ⟨rfl, fun _ _ => rfl, fun _ _ => rfl, fun _ => rfl, fun _ => rfl⟩ hx.log

end Commands

end DMTree.LockTurns
