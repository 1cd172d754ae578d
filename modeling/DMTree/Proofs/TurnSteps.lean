import DMTree.Conc.Proofs.LogProofs
import DMTree.Conc.Proofs.OutlineProofs
import DMTree.Proofs.ComputeNodeProofs
import DMTree.Proofs.LockQueueProofs
import DMTree.Turns

/-!
# The steps of the calls at a lock node

The two queues of a lock node, the owner key and the handover flag under every access. The windows are
followed by the duties of the two calls that have a turn: what such a call still has to store into the
windows, and whether it is to end the window. A window that has been started is always watched by
someone who will find it over.
-/

namespace DMTree

open Conc

variable {hash : Key → Nat} {l : NodeLog hash} {e : NodeEvent} {s : Side} {i j : Nat} {t u : Tid}
  {k : Key} {v : Value} {mode : Prop}

/-! ## Histories -/

theorem place_concat : place s i (l ++ [e]) t = nextPlace s i t (place s i l t) e := by
  simp [place, List.foldl_append]

theorem tally_concat : tally s i (l ++ [e]) t = nextTally s i t (tally s i l t) e := by
  simp [tally, List.foldl_append]

theorem engaged_concat : engaged s i (l ++ [e]) t = nextEngaged s i t (engaged s i l t) e := by
  simp [engaged, List.foldl_append]

theorem fresh_concat : fresh s i (l ++ [e]) t = nextFresh s i t (fresh s i l t) e := by
  simp [fresh, List.foldl_append]

theorem lookup_concat : lookup (l ++ [e]) t = nextLookup t (lookup l t) e := by
  simp [lookup, List.foldl_append]

@[simp] theorem Side.other_other (s : Side) : s.other.other = s := by cases s <;> rfl

theorem Side.other_ne (s : Side) : s.other ≠ s := by cases s <;> simp [Side.other]

theorem Side.eq_other {s s' : Side} (h : s' ≠ s) : s' = s.other := by
  cases s <;> cases s' <;> simp_all [Side.other]

theorem PublishedAt.concat {p : Nat} (h : PublishedAt i l k v p) (he : publishes i e = false) :
    PublishedAt i (l ++ [e]) k v p := by
  obtain ⟨⟨u, hu, hlook⟩, hlast⟩ := h
  have hp := lt_of_getElem? hu
  refine ⟨⟨u, getElem?_concat hu e, ?_⟩, fun p' e' hp' he' => ?_⟩
  · rw [List.take_append_of_le_length hp.le]
    exact hlook
  · rcases getElem?_concat_iff.mp he' with he' | ⟨-, rfl⟩
    · exact hlast p' e' hp' he'
    · exact he

theorem OwnResults.concat (h : OwnResults i l)
    (he : ∀ t v, e = .act t (.lock i .loadRetValue) v → ∃ k value p,
      lastCall l t = some (.read k value) ∧ PublishedAt i l k v p) : OwnResults i (l ++ [e]) := by
  intro q t v hq
  rcases getElem?_concat_iff.mp hq with hq | ⟨rfl, he'⟩
  · rw [List.take_append_of_le_length (lt_of_getElem? hq).le]
    exact h q t v hq
  · rw [List.take_append_of_le_length le_rfl, List.take_length]
    exact he t v he'

/-- The accesses that leave a lock node as it is, as far as the calls depend on it. -/
def LockCmd.quiet : LockCmd → Bool
  | .loadUniqueKey _ | .storeWcBuffer _ | .loadWcBuffer | .loadTicket _ | .loadWindow _
  | .loadHandover _ | .storeRes _ | .loadRes => true
  | _ => false

/-- The accesses that leave everything but the windows and the mutexes. -/
def LockCmd.loose : LockCmd → Bool
  | .storeWindow _ _ | .decWindow _ | .casWindowStart | .clearWindowStart | .lock _ | .unlock _ => true
  | c => c.quiet

theorem LockCmd.loose_of_quiet {c : LockCmd} (h : c.quiet = true) : c.loose = true := by
  cases c <;> first | exact h | rfl

namespace LockTurns

/-- An event that leaves the queue of side `s` of lock node `i` as it is. -/
structure Calm (s : Side) (i : Nat) (e : NodeEvent) : Prop where
  place : ∀ t p, nextPlace s i t p e = p
  ticket : ∀ t, takesTicket s i t e = false
  tally : ∀ t a, nextTally s i t a e = a
  engaged : ∀ t, nextEngaged s i t true e = true

/-- An event that leaves what is known about thread `t` from its own steps. -/
structure SparesFor (i : Nat) (t : Tid) (e : NodeEvent) : Prop where
  call : Event.isCall t e = false
  tally : ∀ s a, nextTally s i t a e = a
  fresh : ∀ s a, nextFresh s i t a e = a
  lookup : ∀ a, nextLookup t a e = a
  engaged : ∀ s, nextEngaged s i t true e = true

theorem sparesFor_other (h : e.tid ≠ t) : SparesFor i t e := by
  refine ⟨?_, fun s a => ?_, fun s a => ?_, fun a => ?_, fun s => ?_⟩
  · cases e <;> simp_all [Event.isCall, Event.tid]
  · unfold nextTally
    split <;> simp_all [Event.tid]
  · unfold nextFresh
    split <;> simp_all [Event.tid]
  · unfold nextLookup
    split <;> simp_all [Event.tid]
  · unfold nextEngaged
    split <;> simp_all [Event.tid]

/-- The place of a thread does not depend on the events of the others. -/
theorem nextPlace_other (h : e.tid ≠ t) (p : Place) : nextPlace s i t p e = p := by
  unfold nextPlace
  split <;> simp_all [Event.tid]

theorem nextEngaged_other (h : e.tid ≠ t) (a : Bool) : nextEngaged s i t a e = a := by
  unfold nextEngaged
  split <;> simp_all [Event.tid]

theorem takesTicket_other (h : e.tid ≠ t) : takesTicket s i t e = false := by
  unfold takesTicket
  split <;> simp_all [Event.tid]

/-! ## Views -/

/-- What a call that has the turn has still to do, as far as the others depend on it. -/
structure Duty where
  /-- It has handed over to a waiting call, or dropped the owner key. -/
  passed : Bool := false
  /-- It has started a window and is to store its own part. -/
  own : Bool := false
  /-- ... and the part of the other side. -/
  other : Bool := false
  /-- It is to store zero as the part of the other side. -/
  zero : Bool := false
  /-- It has left the window. -/
  left : Bool := false
  /-- It has left the window and is to see whether the window is over. -/
  check : Bool := false

/-- The ghost state of a lock node. -/
structure LockGhost where
  /-- The queues. -/
  q : Side → Tickets
  /-- The duties of the calls that have the turns. -/
  duty : Side → Duty
  /-- Who holds the mutexes. -/
  owner : Side → Option Tid

namespace LockGhost

variable (g : LockGhost) (s : Side)

/-- Another queue for one side. -/
def setQueue (q : Tickets) : LockGhost := { g with q := Function.update g.q s q }

/-- Other duties for one side. -/
def setDuty (d : Duty) : LockGhost := { g with duty := Function.update g.duty s d }

/-- Another owner for the mutex of one side. -/
def setOwner (t : Option Tid) : LockGhost := { g with owner := Function.update g.owner s t }

end LockGhost

/-- A lock node with the history and the ghost state. -/
structure LockView (hash : Key → Nat) where
  node : LocalLockNode
  log : NodeLog hash
  g : LockGhost

/-- The place of a thread in a queue. -/
def placeIn (q : Tickets) (t : Tid) : Place :=
  match q.tick t with
  | none => .away
  | some c => if q.turn = some t then .turn else .waiting (c % 2 ^ 32)

/-- What the calls of a thread have done to the counters. -/
def TallyOk : Option Nat → Nat × Nat → Prop
  | none, a => a.2 = a.1 ∧ a.1 ≤ 1
  | some _, a => a = (1, 0)

/-- The queue of one side, as the history tells it. -/
structure SideInv (s : Side) (i : Nat) (x : LockView hash) : Prop
    extends QueueAt s x.node (x.g.q s) where
  full : (x.g.q s).Full
  places : ∀ t, place s i x.log t = placeIn (x.g.q s) t
  order : ∀ t u c d, (x.g.q s).tick t = some c → (x.g.q s).tick u = some d → c < d →
    lastPos (takesTicket s i t) x.log < lastPos (takesTicket s i u) x.log
  inFlight : ∀ t, (x.g.q s).tick t ≠ none → engaged s i x.log t = true
  counts : ∀ t, TallyOk ((x.g.q s).tick t) (tally s i x.log t)

/-- A read that is handed over finds the result of the owner key. -/
structure HandInv (i : Nat) (x : LockView hash) : Prop where
  handed : x.node.handover .read = true →
    ∃ k p, x.node.uniqueKey .read = some k ∧ PublishedAt i x.log k x.node.retValue p
  own : OwnResults i x.log

/-- The window of a side will be left by someone who sees whether it is over. -/
def Anchor (s : Side) (n : LocalLockNode) (g : LockGhost) : Prop :=
  (n.window s ≠ 0 ∨ (g.duty s).own = true) ∧ (g.duty s.other).zero = false

/-- Someone will end the window. -/
def Watched (n : LocalLockNode) (g : LockGhost) : Prop :=
  ∃ s, (g.duty s).check = true ∨ Anchor s n g ∨
    ((g.duty s).zero = true ∧ (g.duty s.other).other = true)

/-- The windows: none of them is larger than its queue, and a window that has been started is watched.
Parts of a window are stored under the mutex of their side, or by the call with the turn. -/
structure WindowInv (n : LocalLockNode) (g : LockGhost) : Prop where
  mutex : ∀ s, n.mutex s = (g.owner s).isSome
  free : ∀ s, (g.q s).turn = none → g.duty s = {}
  left : ∀ s, (g.duty s).left = true → g.owner s = (g.q s).turn
  zero : ∀ s, (g.duty s).zero = true → g.owner s.other = (g.q s).turn
  apart : ∀ s, (g.duty s).zero = true → (g.duty s).other = false
  later : ((g.duty .write).other = true ∨ (g.duty .write).zero = true) → (g.duty .write).own = true
  window : ∀ s, n.window s + (g.duty s).left.toNat ≤ (g.q s).next - (g.q s).cur
  start : n.windowStart = true → Watched n g

/-- The owner keys: the call that has installed one takes a ticket, and the last call of its epoch
drops it. -/
structure KeyInv (i : Nat) (x : LockView hash) : Prop where
  key : ∀ s, x.node.uniqueKey s ≠ none → (∃ u, fresh s i x.log u = true) ∨
    (x.g.q s).cur + (x.g.duty s).passed.toNat < (x.g.q s).next
  installer : ∀ s u, fresh s i x.log u = true → engaged s i x.log u = true

/-- What is followed in runs that settle. -/
structure RestInv (i : Nat) (x : LockView hash) : Prop where
  win : WindowInv x.node x.g
  key : KeyInv i x

/-- The invariant of lock node `i`; the windows and owner keys are followed in runs that settle. -/
structure LockInv (i : Nat) (mode : Prop) (x : LockView hash) : Prop where
  side : ∀ s, SideInv s i x
  apart : ∀ t, (x.g.q .read).tick t = none ∨ (x.g.q .write).tick t = none
  hand : HandInv i x
  rest : mode → RestInv i x

/-- What the others leave to the call that has the turn of side `s`. -/
structure Held (s : Side) (x x' : LockView hash) : Prop where
  duty : x'.g.duty s = x.g.duty s
  handover : x'.node.handover s = x.node.handover s
  cur : (x'.g.q s).cur = (x.g.q s).cur
  key : ∀ k, x.node.uniqueKey s = some k → x'.node.uniqueKey s = some k

/-- What a step of `t` leaves to the others. -/
structure LockRel (i : Nat) (mode : Prop) (t : Tid) (x x' : LockView hash) : Prop where
  log : ∃ e : NodeEvent, x'.log = x.log ++ [e] ∧ e.tid = t ∧
    (publishes i e = true → (x.g.q .read).turn = some t)
  tick : ∀ s u, u ≠ t → (x'.g.q s).tick u = (x.g.q s).tick u
  turn : ∀ s u, u ≠ t → ((x'.g.q s).turn = some u ↔ (x.g.q s).turn = some u)
  owner : ∀ s u, u ≠ t → (x'.g.owner s = some u ↔ x.g.owner s = some u)
  next : ∀ s, (x.g.q s).next ≤ (x'.g.q s).next
  held : ∀ s u, u ≠ t → (x.g.q s).turn = some u → Held s x x'
  frozen : mode → ∀ s u, u ≠ t → x.g.owner s = some u → (x'.g.q s).cur = (x.g.q s).cur ∧
    ((x.g.q s).turn = some u → x'.node.window s = x.node.window s)
  result : ∀ u, u ≠ t → (x.g.q .read).turn = some u → x'.node.retValue = x.node.retValue

/-! ## Quiet steps -/

section Quiet

variable {x : LockView hash} {n : LocalLockNode} {g : LockGhost} {p : Nat}

/-- An event after which all threads have the same places and counts. -/
theorem SideInv.same (h : SideInv s i x) (ht : n.ticket s = x.node.ticket s)
    (hc : n.current s = x.node.current s) (hq : g.q s = x.g.q s)
    (hp : ∀ t, nextPlace s i t (place s i x.log t) e = place s i x.log t)
    (htake : ∀ t, takesTicket s i t e = false)
    (hen : ∀ t, (x.g.q s).tick t ≠ none → nextEngaged s i t true e = true)
    (htal : ∀ t, TallyOk ((x.g.q s).tick t) (nextTally s i t (tally s i x.log t) e)) :
    SideInv s i ⟨n, x.log ++ [e], g⟩ := by
  have hside : QueueAt s n (g.q s) := by
    rw [hq]
    exact h.toQueueAt.same ht hc
  refine { hside with full := ?_, places := ?_, order := ?_, inFlight := ?_, counts := ?_ }
  · rw [hq]
    exact h.full
  · intro u
    rw [place_concat, hp, hq]
    exact h.places u
  · intro u w c d hu hw hcd
    rw [lastPos_concat_of_not (htake u), lastPos_concat_of_not (htake w)]
    rw [hq] at hu hw
    exact h.order u w c d hu hw hcd
  · intro u hu
    rw [hq] at hu
    rw [engaged_concat, h.inFlight u hu]
    exact hen u hu
  · intro u
    rw [tally_concat, hq]
    exact htal u

theorem SideInv.calm (h : SideInv s i x) (ht : n.ticket s = x.node.ticket s)
    (hc : n.current s = x.node.current s) (hq : g.q s = x.g.q s) (he : Calm s i e) :
    SideInv s i ⟨n, x.log ++ [e], g⟩ := by
  refine h.same ht hc hq (fun u => he.place u _) he.ticket (fun u _ => he.engaged u) fun u => ?_
  rw [he.tally]
  exact h.counts u

theorem HandInv.mono (h : HandInv i x)
    (hh : n.handover .read = true → x.node.handover .read = true ∧
      ∀ k, x.node.uniqueKey .read = some k → n.uniqueKey .read = some k)
    (hv : n.retValue = x.node.retValue) (he : publishes i e = false)
    (hr : ∀ t v, e ≠ .act t (.lock i .loadRetValue) v) : HandInv i ⟨n, x.log ++ [e], g⟩ where
  handed := by
    intro hn
    obtain ⟨hx, hk⟩ := hh hn
    obtain ⟨k, p, hkey, hp⟩ := h.handed hx
    refine ⟨k, p, hk k hkey, ?_⟩
    change PublishedAt i (x.log ++ [e]) k n.retValue p
    rw [hv]
    exact hp.concat he
  own := h.own.concat fun t v ht => absurd ht (hr t v)

/-- An event that says nothing about lock node `i`. -/
structure QuietEvent (i : Nat) (e : NodeEvent) : Prop where
  calm : ∀ s, Calm s i e
  fresh : ∀ s t a, nextFresh s i t a e = a
  publish : publishes i e = false
  result : ∀ t v, e ≠ .act t (.lock i .loadRetValue) v

theorem quietEvent_lock {c : LockCmd} (hc : j = i → c.loose = true) (r : c.Resp) :
    QuietEvent i (.act t (.lock j c) r) := by
  by_cases hj : j = i
  · have hc := hc hj
    cases c <;> first
      | exact absurd hc Bool.false_ne_true
      | exact ⟨fun _ => ⟨fun _ _ => rfl, fun _ => rfl, fun _ _ => rfl, fun _ => rfl⟩,
          fun _ _ _ => rfl, rfl, by rintro _ _ ⟨⟩⟩
  · refine ⟨fun s => ⟨fun u p => ?_, fun u => ?_, fun u a => ?_, fun u => ?_⟩, fun s u a => ?_, ?_,
      ?_⟩
    · cases c <;> simp [nextPlace, hj]
    · cases c <;> simp [takesTicket, hj]
    · cases c <;> simp [nextTally, hj]
    · cases c <;> simp [nextEngaged]
    · cases c <;> simp [nextFresh, hj]
    · cases c <;> simp [publishes, hj]
    · rintro _ _ ⟨⟩
      exact hj rfl

/-- The fields that the calls depend on, apart from the windows. -/
structure SameCore (n n' : LocalLockNode) : Prop where
  ticket : n'.ticket = n.ticket
  current : n'.current = n.current
  handover : n'.handover = n.handover
  uniqueKey : n'.uniqueKey = n.uniqueKey
  retValue : n'.retValue = n.retValue

/-- The windows and the mutexes. -/
structure SameWindows (n n' : LocalLockNode) : Prop where
  window : n'.window = n.window
  windowStart : n'.windowStart = n.windowStart
  mutex : n'.mutex = n.mutex

theorem SameCore.refl : SameCore n n := ⟨rfl, rfl, rfl, rfl, rfl⟩

theorem SameWindows.refl : SameWindows n n := ⟨rfl, rfl, rfl⟩

theorem exec_loose {n' : LocalLockNode} {c : LockCmd} {r : c.Resp} (hc : c.loose = true)
    (h : n.exec c = some (r, n')) : SameCore n n' := by
  cases c with
  | lock s =>
    simp only [LocalLockNode.exec] at h
    split at h <;> cases h
    exact ⟨rfl, rfl, rfl, rfl, rfl⟩
  | casUniqueKey _ _ | clearUniqueKey _ | incTicket _ | loadCurrent _ | incCurrent _
  | storeHandover _ _ | storeRetValue _ | loadRetValue => exact absurd hc Bool.false_ne_true
  | _ =>
    cases h
    exact ⟨rfl, rfl, rfl, rfl, rfl⟩

theorem exec_quiet {n' : LocalLockNode} {c : LockCmd} {r : c.Resp} (hc : c.quiet = true)
    (h : n.exec c = some (r, n')) : SameWindows n n' := by
  cases c <;> first
    | exact absurd hc Bool.false_ne_true
    | (cases h; exact ⟨rfl, rfl, rfl⟩)

/-- Who watches the window depends on some of the duties only. -/
theorem Watched.flags {n' : LocalLockNode} {g' : LockGhost} (h : Watched n g)
    (hw : n'.window = n.window) (hc : ∀ s, (g'.duty s).check = (g.duty s).check)
    (ho : ∀ s, (g'.duty s).own = (g.duty s).own) (hz : ∀ s, (g'.duty s).zero = (g.duty s).zero)
    (hot : ∀ s, (g'.duty s).other = (g.duty s).other) : Watched n' g' := by
  unfold Watched Anchor at *
  simpa only [hw, hc, ho, hz, hot] using h

theorem Watched.same {n' : LocalLockNode} {g' : LockGhost} (h : Watched n g)
    (hw : n'.window = n.window) (hd : g'.duty = g.duty) : Watched n' g' :=
  h.flags hw (fun _ => by rw [hd]) (fun _ => by rw [hd]) (fun _ => by rw [hd]) fun _ => by rw [hd]

theorem WindowInv.same {n' : LocalLockNode} (h : WindowInv n g) (hw : SameWindows n n') :
    WindowInv n' g where
  mutex := by
    rw [hw.mutex]
    exact h.mutex
  free := h.free
  left := h.left
  zero := h.zero
  apart := h.apart
  later := h.later
  window := by
    rw [hw.window]
    exact h.window
  start := by
    intro hs
    rw [hw.windowStart] at hs
    exact (h.start hs).same hw.window rfl

/-- The owner keys under an event that is not about them. -/
theorem KeyInv.calm (h : KeyInv i x) (hk : n.uniqueKey = x.node.uniqueKey) (hq : g.q = x.g.q)
    (hd : ∀ s, (g.duty s).passed = (x.g.duty s).passed)
    (hf : ∀ s t a, nextFresh s i t a e = a) (he : ∀ s t, nextEngaged s i t true e = true) :
    KeyInv i ⟨n, x.log ++ [e], g⟩ where
  key := by
    intro s hs
    change n.uniqueKey s ≠ none at hs
    rw [hk] at hs
    simp only [fresh_concat, hf, hq, hd]
    exact h.key s hs
  installer := by
    intro s u hu
    simp only [fresh_concat, hf] at hu
    rw [engaged_concat, h.installer s u hu]
    exact he s u

theorem QuietEvent.engaged (h : QuietEvent i e) (s : Side) (t : Tid) :
    nextEngaged s i t true e = true := (h.calm s).engaged t

/-- A step that is about the windows and the mutexes at most. -/
theorem LockInv.windows (h : LockInv i mode x) (hc : SameCore x.node n) (hq : g.q = x.g.q)
    (hp : mode → ∀ s, (g.duty s).passed = (x.g.duty s).passed) (hw : mode → WindowInv n g)
    (he : QuietEvent i e) : LockInv i mode ⟨n, x.log ++ [e], g⟩ where
  side := fun s => (h.side s).calm (congrFun hc.ticket s) (congrFun hc.current s) (congrFun hq s)
    (he.calm s)
  apart := by
    intro t
    dsimp only
    rw [hq]
    exact h.apart t
  hand := by
    refine h.hand.mono (fun hh => ?_) hc.retValue he.publish he.result
    rw [hc.handover] at hh
    rw [hc.uniqueKey]
    exact ⟨hh, fun _ hk => hk⟩
  rest := fun hm => ⟨hw hm, (h.rest hm).key.calm hc.uniqueKey hq (hp hm) he.fresh he.engaged⟩

/-- A step that leaves everything that the calls depend on. -/
theorem LockInv.quiet (h : LockInv i mode x) (hc : SameCore x.node n)
    (hw : mode → SameWindows x.node n) (he : QuietEvent i e) :
    LockInv i mode ⟨n, x.log ++ [e], x.g⟩ :=
  h.windows hc rfl (fun _ _ => rfl) (fun hm => (h.rest hm).win.same (hw hm)) he

theorem LockRel.quiet (hc : SameCore x.node n) (hw : mode → n.window = x.node.window)
    (he : publishes i e = false) (het : e.tid = t) : LockRel i mode t x ⟨n, x.log ++ [e], x.g⟩ where
  log := ⟨e, rfl, het, fun h => absurd (he.symm.trans h) Bool.false_ne_true⟩
  tick := fun _ _ _ => rfl
  turn := fun _ _ _ => Iff.rfl
  owner := fun _ _ _ => Iff.rfl
  next := fun _ => le_rfl
  held := fun s _ _ _ => ⟨rfl, congrFun hc.handover s, rfl, fun _ hk =>
    (congrFun hc.uniqueKey s).trans hk⟩
  frozen := fun hm s _ _ _ => ⟨rfl, fun _ => congrFun (hw hm) s⟩
  result := fun _ _ _ => hc.retValue

/-- A mutex changes hands. -/
theorem LockRel.mutex {o : Side} {w : Option Tid} (hc : SameCore x.node n)
    (hw : n.window = x.node.window) (hold : ∀ u, u ≠ t → x.g.owner o ≠ some u)
    (hnew : ∀ u, u ≠ t → w ≠ some u) (he : publishes i e = false) (het : e.tid = t) :
    LockRel i mode t x ⟨n, x.log ++ [e], x.g.setOwner o w⟩ where
  log := ⟨e, rfl, het, fun h => absurd (he.symm.trans h) Bool.false_ne_true⟩
  tick := fun _ _ _ => rfl
  turn := fun _ _ _ => Iff.rfl
  owner := by
    intro s u hu
    by_cases hs : s = o
    · subst hs
      simp only [LockGhost.setOwner, Function.update_self]
      exact iff_of_false (hnew u hu) (hold u hu)
    · simp only [LockGhost.setOwner, Function.update_of_ne hs]
  next := fun _ => le_rfl
  held := fun s _ _ _ => ⟨rfl, congrFun hc.handover s, rfl, fun _ hk =>
    (congrFun hc.uniqueKey s).trans hk⟩
  frozen := fun _ s _ _ _ => ⟨rfl, fun _ => congrFun hw s⟩
  result := fun _ _ _ => hc.retValue

end Quiet

/-! ## Tickets -/

section Tickets

variable {x : LockView hash} {g : LockGhost} {q : Tickets}

/-- A call in flight has left its traces in the history. -/
theorem mem_of_engaged (h : engaged s i l u = true) : u ∈ l.map Event.tid := by
  induction l using List.reverseRecOn with
  | nil => cases h
  | append_singleton l e ih =>
    by_cases he : e.tid = u
    · simp [he]
    · rw [engaged_concat, nextEngaged_other he] at h
      have hmem := ih h
      simp only [List.map_append, List.mem_append]
      exact Or.inl hmem

/-- The steps that move one queue leave the other one. -/
theorem calm_side {s' : Side} (hs : s' ≠ s) {c : LockCmd}
    (hc : c = .incTicket s ∨ c = .loadCurrent s ∨ c = .incCurrent s) (r : c.Resp) :
    Calm s' i (.act t (.lock j c) r) := by
  rcases hc with rfl | rfl | rfl
  all_goals
    refine ⟨fun u p => ?_, fun u => ?_, fun u a => ?_, fun u => ?_⟩
    · simp [nextPlace, Ne.symm hs]
    · simp [takesTicket, Ne.symm hs]
    · simp [nextTally, Ne.symm hs]
    · simp [nextEngaged]

/-- With fewer than 2^32 calls in flight a ticket can be told from those that are out. -/
theorem SideInv.room (h : SideInv s i x) (ht : (x.g.q s).tick t = none)
    (he : engaged s i x.log t = true) (hfew : (callers s i x.log).card < 2 ^ 32) :
    queueLength (x.node.ticket s) (x.node.current s) + 1 < 2 ^ 32 := by
  have hmem : ∀ u, engaged s i x.log u = true → u ∈ callers s i x.log := by
    intro u hu
    refine Finset.mem_filter.mpr ⟨List.mem_toFinset.mpr (mem_of_engaged hu), hu⟩
  have hmem' : ∀ u, u ∈ (callers s i x.log).filter (fun u => (x.g.q s).tick u ≠ none) ↔
      (x.g.q s).tick u ≠ none := by
    intro u
    rw [Finset.mem_filter]
    exact ⟨fun hu => hu.2, fun hu => ⟨hmem u (h.inFlight u hu), hu⟩⟩
  have hcard := h.full.card h.wf hmem'
  have hlt : ((callers s i x.log).filter fun u => (x.g.q s).tick u ≠ none).card <
      (callers s i x.log).card := by
    refine Finset.card_lt_card (Finset.filter_ssubset.mpr ⟨t, hmem t he, ?_⟩)
    simpa using ht
  rw [h.ticket, h.current, queueLength_mod h.wf.le h.wf.fits]
  omega

theorem placeIn_none (h : q.tick t = none) : placeIn q t = .away := by
  simp [placeIn, h]

theorem placeIn_ne_away {c : Nat} (h : q.tick t = some c) : placeIn q t ≠ .away := by
  simp only [placeIn, h]
  split <;> simp

theorem placeIn_waiting {c : Nat} (h : q.tick t = some c) (ht : q.turn ≠ some t) :
    placeIn q t = .waiting (c % 2 ^ 32) := by
  simp [placeIn, h, ht]

theorem placeIn_turn {c : Nat} (h : q.tick t = some c) (ht : q.turn = some t) :
    placeIn q t = .turn := by
  simp [placeIn, h, ht]

theorem placeIn_congr {q' : Tickets} (h : q'.tick t = q.tick t)
    (ht : q'.turn = some t ↔ q.turn = some t) : placeIn q' t = placeIn q t := by
  simp [placeIn, h, ht]

/-- `ticket.fetch_add(1)` -/
theorem SideInv.take (h : SideInv s i x) (ht : (x.g.q s).tick t = none)
    (htally : tally s i x.log t = (0, 0)) (he : engaged s i x.log t = true)
    (hfew : (callers s i x.log).card < 2 ^ 32) (hg : g.q s = (x.g.q s).take t) :
    SideInv s i ⟨{ x.node with
        ticket := Function.update x.node.ticket s ((x.node.ticket s + 1) % 2 ^ 32) },
      x.log ++ [.act t (.lock i (.incTicket s)) (x.node.ticket s)], g⟩ := by
  have hturn := h.toQueueAt.not_turn ht
  have hq := h.toQueueAt.take ht (h.room ht he hfew)
  rw [← hg] at hq
  have htake : ∀ u, u ≠ t → ((x.g.q s).take t).tick u = (x.g.q s).tick u := by
    intro u hu
    simp [Tickets.take, Function.update_of_ne hu]
  have hself : ((x.g.q s).take t).tick t = some (x.g.q s).next := by simp [Tickets.take]
  refine { hq with full := ?_, places := ?_, order := ?_, inFlight := ?_, counts := ?_ }
  · rw [hg]
    exact h.full.take ht
  · intro u
    rw [place_concat, hg]
    by_cases hu : u = t
    · subst hu
      rw [placeIn_waiting hself hturn]
      simp [nextPlace, h.ticket]
    · rw [nextPlace_other (by exact Ne.symm hu), h.places u]
      exact (placeIn_congr (htake u hu) Iff.rfl).symm
  · intro u w c d hu hw hcd
    rw [hg] at hu hw
    have hne : u ≠ t := by
      rintro rfl
      rw [hself] at hu
      have hwu : w ≠ u := by
        rintro rfl
        rw [hself] at hw
        cases hu
        cases hw
        exact lt_irrefl _ hcd
      rw [htake w hwu] at hw
      have hr := (h.wf.range w d hw).2
      cases hu
      omega
    rw [htake u hne] at hu
    rw [lastPos_concat_of_not (takesTicket_other (by exact Ne.symm hne))]
    by_cases hwt : w = t
    · subst hwt
      rw [lastPos_concat_of (by simp [takesTicket])]
      exact Nat.lt_succ_of_le lastPos_le
    · rw [lastPos_concat_of_not (takesTicket_other (by exact Ne.symm hwt))]
      rw [htake w hwt] at hw
      exact h.order u w c d hu hw hcd
  · intro u hu
    rw [hg] at hu
    rw [engaged_concat]
    change engaged s i x.log u = true
    by_cases hut : u = t
    · exact hut ▸ he
    · rw [htake u hut] at hu
      exact h.inFlight u hu
  · intro u
    rw [tally_concat, hg]
    by_cases hut : u = t
    · subst hut
      rw [hself, htally]
      simp [nextTally, TallyOk]
    · rw [htake u hut, (sparesFor_other (by exact Ne.symm hut)).tally]
      exact h.counts u

/-- The call with the turn still holds a ticket. -/
theorem SideInv.passed_le (h : SideInv s i x) (hr : RestInv i x) :
    (x.g.q s).cur + (x.g.duty s).passed.toNat ≤ (x.g.q s).next := by
  cases hturn : (x.g.q s).turn with
  | none =>
    rw [hr.win.free s hturn]
    exact h.wf.le
  | some u =>
    have hlt := (h.wf.range u _ (h.wf.turn u hturn)).2
    have hle := Bool.toNat_le (x.g.duty s).passed
    omega

theorem take_queue (g : LockGhost) (s s' : Side) :
    ((g.setQueue s ((g.q s).take t)).q s').turn = (g.q s').turn ∧
      ((g.setQueue s ((g.q s).take t)).q s').cur = (g.q s').cur ∧
      (g.q s').next ≤ ((g.setQueue s ((g.q s).take t)).q s').next := by
  by_cases he : s' = s
  · subst he
    simp [LockGhost.setQueue, Tickets.take]
  · simp [LockGhost.setQueue, Function.update_of_ne he]

theorem WindowInv.take {n n' : LocalLockNode} (h : WindowInv n g) (hw : SameWindows n n') :
    WindowInv n' (g.setQueue s ((g.q s).take t)) := by
  have h := h.same hw
  refine ⟨h.mutex, ?_, ?_, ?_, h.apart, h.later, ?_, fun hs => (h.start hs).same rfl rfl⟩
  · intro s' hs'
    rw [(take_queue g s s').1] at hs'
    exact h.free s' hs'
  · intro s' hs'
    rw [(take_queue g s s').1]
    exact h.left s' hs'
  · intro s' hs'
    rw [(take_queue g s s').1]
    exact h.zero s' hs'
  · intro s'
    have hw := h.window s'
    have hn := take_queue (t := t) g s s'
    change n'.window s' + (g.duty s').left.toNat ≤ _
    omega

theorem KeyInv.take (h : RestInv i x) (hs : SideInv s i x) {n : LocalLockNode}
    (hn : n.uniqueKey = x.node.uniqueKey) (r : Nat) :
    KeyInv i ⟨n, x.log ++ [.act t (.lock i (.incTicket s)) r],
      x.g.setQueue s ((x.g.q s).take t)⟩ := by
  have hfresh : ∀ s' u, fresh s' i (x.log ++ [.act t (.lock i (.incTicket s)) r]) u =
      if t = u ∧ s = s' then false else fresh s' i x.log u := by
    intro s' u
    rw [fresh_concat]
    simp [nextFresh]
  refine ⟨fun s' hk => ?_, fun s' u hu => ?_⟩
  · change n.uniqueKey s' ≠ none at hk
    rw [hn] at hk
    have hq := take_queue (t := t) x.g s s'
    change _ ∨ _ + (x.g.duty s').passed.toNat < _
    dsimp only
    rcases h.key.key s' hk with ⟨u, hu⟩ | hlt
    · by_cases he : t = u ∧ s = s'
      · -- the installer itself takes the ticket
        obtain ⟨-, rfl⟩ := he
        have hle := hs.passed_le h
        simp only [LockGhost.setQueue, Function.update_self, Tickets.take]
        right
        omega
      · refine Or.inl ⟨u, ?_⟩
        rw [hfresh, if_neg he]
        exact hu
    · right
      omega
  · rw [hfresh] at hu
    rw [engaged_concat]
    split at hu
    · cases hu
    · exact h.key.installer s' u hu

/-- A call takes a ticket. -/
theorem LockInv.take (h : LockInv i mode x) (ht : ∀ s, (x.g.q s).tick t = none)
    (htally : tally s i x.log t = (0, 0)) (he : engaged s i x.log t = true)
    (hfew : (callers s i x.log).card < 2 ^ 32) :
    LockInv i mode ⟨{ x.node with
        ticket := Function.update x.node.ticket s ((x.node.ticket s + 1) % 2 ^ 32) },
      x.log ++ [.act t (.lock i (.incTicket s)) (x.node.ticket s)],
      x.g.setQueue s ((x.g.q s).take t)⟩ where
  side := by
    intro s'
    by_cases hs : s' = s
    · subst hs
      exact (h.side s').take (ht s') htally he hfew (by simp [LockGhost.setQueue])
    · refine (h.side s').calm ?_ rfl ?_ (calm_side hs (Or.inl rfl) _)
      · simp [Function.update_of_ne hs]
      · simp [LockGhost.setQueue, Function.update_of_ne hs]
  apart := by
    intro u
    by_cases hu : u = t
    · subst hu
      cases s with
      | read => exact Or.inr ((by simp [LockGhost.setQueue, ht .write]))
      | write => exact Or.inl ((by simp [LockGhost.setQueue, ht .read]))
    · have hsame : ∀ s', ((x.g.setQueue s ((x.g.q s).take t)).q s').tick u = (x.g.q s').tick u := by
        intro s'
        by_cases hs : s' = s
        · subst hs
          simp [LockGhost.setQueue, Tickets.take, Function.update_of_ne hu]
        · simp [LockGhost.setQueue, Function.update_of_ne hs]
      simp only [hsame]
      exact h.apart u
  hand := h.hand.mono (fun hh => ⟨hh, fun _ hk => hk⟩) rfl rfl (by rintro _ _ ⟨⟩)
  rest := fun hm => ⟨(h.rest hm).win.take ⟨rfl, rfl, rfl⟩, .take (h.rest hm) (h.side s) (by rfl) _⟩

theorem LockRel.take : LockRel i mode t x ⟨{ x.node with
        ticket := Function.update x.node.ticket s ((x.node.ticket s + 1) % 2 ^ 32) },
      x.log ++ [.act t (.lock i (.incTicket s)) (x.node.ticket s)],
      x.g.setQueue s ((x.g.q s).take t)⟩ where
  log := ⟨_, rfl, rfl, by rintro ⟨⟩⟩
  tick := by
    intro s' u hu
    by_cases hs : s' = s
    · subst hs
      simp [LockGhost.setQueue, Tickets.take, Function.update_of_ne hu]
    · simp [LockGhost.setQueue, Function.update_of_ne hs]
  turn := by
    intro s' u _
    rw [(take_queue x.g s s').1]
  owner := fun _ _ _ => Iff.rfl
  next := fun s' => (take_queue x.g s s').2.2
  held := fun s' _ _ _ => ⟨rfl, rfl, (take_queue x.g s s').2.1, fun _ hk => hk⟩
  frozen := fun _ s' _ _ _ => ⟨(take_queue x.g s s').2.1, fun _ => rfl⟩
  result := fun _ _ _ => rfl

/-! ## Turns -/

/-- A call looks at `current` and does not find the ticket it waits with. -/
theorem LockInv.look (h : LockInv i mode x) {r : Nat} (hr : place s i x.log t ≠ .waiting r) :
    LockInv i mode ⟨x.node, x.log ++ [.act t (.lock i (.loadCurrent s)) r], x.g⟩ where
  side := by
    intro s'
    by_cases hs : s' = s
    · subst hs
      refine (h.side s').same rfl rfl rfl (fun u => ?_) (fun _ => rfl) (fun _ _ => rfl)
        fun u => (h.side s').counts u
      simp only [nextPlace]
      rw [if_neg]
      rintro ⟨rfl, -, -, hp⟩
      exact hr hp
    · exact (h.side s').calm rfl rfl rfl (calm_side hs (Or.inr (Or.inl rfl)) _)
  apart := h.apart
  hand := h.hand.mono (fun hh => ⟨hh, fun _ hk => hk⟩) rfl rfl (by rintro _ _ ⟨⟩)
  rest := fun hm => ⟨(h.rest hm).win, (h.rest hm).key.calm rfl rfl (fun _ => rfl)
    (fun _ _ _ => rfl) fun _ _ => rfl⟩

theorem grant_queue (g : LockGhost) (s s' : Side) :
    ((g.setQueue s ((g.q s).grant t)).q s').tick = (g.q s').tick ∧
      ((g.setQueue s ((g.q s).grant t)).q s').cur = (g.q s').cur ∧
      ((g.setQueue s ((g.q s).grant t)).q s').next = (g.q s').next ∧
      (s' ≠ s → (g.setQueue s ((g.q s).grant t)).q s' = g.q s') := by
  by_cases he : s' = s
  · subst he
    simp [LockGhost.setQueue, Tickets.grant]
  · simp [LockGhost.setQueue, Function.update_of_ne he]

theorem WindowInv.grant {n : LocalLockNode} (h : WindowInv n g) (hno : (g.q s).turn = none) :
    WindowInv n (g.setQueue s ((g.q s).grant t)) := by
  have hd := h.free s hno
  refine ⟨h.mutex, ?_, ?_, ?_, h.apart, h.later, ?_, fun hs => (h.start hs).same rfl rfl⟩
  · intro s' hs'
    by_cases he : s' = s
    · subst he
      exact hd
    · rw [(grant_queue g s s').2.2.2 he] at hs'
      exact h.free s' hs'
  · intro s' hl
    change (g.duty s').left = true at hl
    by_cases he : s' = s
    · subst he
      rw [hd] at hl
      cases hl
    · rw [(grant_queue g s s').2.2.2 he]
      exact h.left s' hl
  · intro s' hz
    change (g.duty s').zero = true at hz
    by_cases he : s' = s
    · subst he
      rw [hd] at hz
      cases hz
    · rw [(grant_queue g s s').2.2.2 he]
      exact h.zero s' hz
  · intro s'
    obtain ⟨-, hc, hn, -⟩ := grant_queue (t := t) g s s'
    rw [hc, hn]
    exact h.window s'

/-- A waiting call finds its ticket in `current`. -/
theorem LockInv.grant (h : LockInv i mode x) (ht : (x.g.q s).tick t = some (x.g.q s).cur)
    (hno : (x.g.q s).turn = none) :
    LockInv i mode ⟨x.node, x.log ++ [.act t (.lock i (.loadCurrent s)) (x.node.current s)],
      x.g.setQueue s ((x.g.q s).grant t)⟩ where
  side := by
    intro s'
    by_cases hs : s' = s
    · subst hs
      have hside := h.side s'
      have hg : (x.g.setQueue s' ((x.g.q s').grant t)).q s' = (x.g.q s').grant t := by
        simp [LockGhost.setQueue]
      have hq : QueueAt s' x.node ((x.g.setQueue s' ((x.g.q s').grant t)).q s') := by
        rw [hg]
        exact hside.toQueueAt.grant ht
      refine { hq with full := ?_, places := ?_, order := ?_, inFlight := ?_, counts := ?_ }
      · rw [hg]
        exact hside.full
      · intro u
        rw [place_concat, hside.places u, hg]
        by_cases hu : u = t
        · subst hu
          have hturn : placeIn ((x.g.q s').grant u) u = .turn :=
            placeIn_turn (q := (x.g.q s').grant u) ht rfl
          rw [placeIn_waiting ht (by rw [hno]; simp), hturn]
          simp [nextPlace, hside.current]
        · rw [nextPlace_other (by exact Ne.symm hu)]
          have htick : ((x.g.q s').grant t).tick u = (x.g.q s').tick u := rfl
          refine (placeIn_congr htick ?_).symm
          simp [Tickets.grant, hno, Ne.symm hu]
      · intro u w c d hu hw hcd
        rw [hg] at hu hw
        rw [lastPos_concat_of_not rfl, lastPos_concat_of_not rfl]
        exact hside.order u w c d hu hw hcd
      · intro u hu
        rw [hg] at hu
        rw [engaged_concat]
        exact hside.inFlight u hu
      · intro u
        rw [tally_concat, hg]
        exact hside.counts u
    · refine (h.side s').calm rfl rfl ?_ (calm_side hs (Or.inr (Or.inl rfl)) _)
      exact (grant_queue x.g s s').2.2.2 hs
  apart := by
    intro u
    rw [(grant_queue x.g s .read).1, (grant_queue x.g s .write).1]
    exact h.apart u
  hand := h.hand.mono (fun hh => ⟨hh, fun _ hk => hk⟩) rfl rfl (by rintro _ _ ⟨⟩)
  rest := by
    intro hm
    refine ⟨(h.rest hm).win.grant hno, ⟨fun s' hk => ?_, fun s' u hu => ?_⟩⟩
    · obtain ⟨-, hc, hn, -⟩ := grant_queue (t := t) x.g s s'
      simp only [hc, hn, fresh_concat]
      exact (h.rest hm).key.key s' hk
    · rw [fresh_concat] at hu
      rw [engaged_concat]
      exact (h.rest hm).key.installer s' u hu

theorem LockRel.grant (hno : (x.g.q s).turn = none) (r : Nat) :
    LockRel i mode t x ⟨x.node, x.log ++ [.act t (.lock i (.loadCurrent s)) r],
      x.g.setQueue s ((x.g.q s).grant t)⟩ where
  log := ⟨_, rfl, rfl, by rintro ⟨⟩⟩
  tick := fun s' u _ => congrFun (grant_queue x.g s s').1 u
  turn := by
    intro s' u hu
    by_cases hs : s' = s
    · subst hs
      simp [LockGhost.setQueue, Tickets.grant, hno, Ne.symm hu]
    · rw [(grant_queue x.g s s').2.2.2 hs]
  owner := fun _ _ _ => Iff.rfl
  next := fun s' => (grant_queue x.g s s').2.2.1.ge
  held := fun s' _ _ _ => ⟨rfl, rfl, (grant_queue x.g s s').2.1, fun _ hk => hk⟩
  frozen := fun _ s' _ _ _ => ⟨(grant_queue x.g s s').2.1, fun _ => rfl⟩
  result := fun _ _ _ => rfl

/-- The ghost state after a call has passed the turn on. -/
def LockGhost.leave (g : LockGhost) (s : Side) (t : Tid) : LockGhost :=
  (g.setQueue s ((g.q s).leave t)).setDuty s {}

theorem leave_queue (g : LockGhost) (s : Side) : (g.leave s t).q s = (g.q s).leave t := by
  simp [LockGhost.leave, LockGhost.setQueue, LockGhost.setDuty]

theorem leave_duty (g : LockGhost) (s : Side) : (g.leave s t).duty s = {} := by
  simp [LockGhost.leave, LockGhost.setDuty]

theorem leave_other (g : LockGhost) {s s' : Side} (hs : s' ≠ s) :
    (g.leave s t).q s' = g.q s' ∧ (g.leave s t).duty s' = g.duty s' := by
  simp [LockGhost.leave, LockGhost.setQueue, LockGhost.setDuty, Function.update_of_ne hs]

/-- What a call has to have done before it passes the turn on. -/
def leaving : Duty := { passed := true, left := true }

theorem WindowInv.leave {n n' : LocalLockNode} (h : WindowInv n g) (hd : g.duty s = leaving)
    (hw : SameWindows n n') : WindowInv n' (g.leave s t) := by
  have h := h.same hw
  have hflag : ∀ s', ((g.leave s t).duty s').check = (g.duty s').check ∧
      ((g.leave s t).duty s').own = (g.duty s').own ∧
      ((g.leave s t).duty s').zero = (g.duty s').zero ∧
      ((g.leave s t).duty s').other = (g.duty s').other := by
    intro s'
    by_cases hs : s' = s
    · subst hs
      rw [leave_duty, hd]
      exact ⟨rfl, rfl, rfl, rfl⟩
    · rw [(leave_other g hs).2]
      exact ⟨rfl, rfl, rfl, rfl⟩
  refine ⟨h.mutex, ?_, ?_, ?_, ?_, ?_, ?_, ?_⟩
  · intro s' hs'
    by_cases hs : s' = s
    · subst hs
      exact leave_duty g s'
    · rw [(leave_other g hs).1] at hs'
      rw [(leave_other g hs).2]
      exact h.free s' hs'
  · intro s' hl
    by_cases hs : s' = s
    · subst hs
      rw [leave_duty] at hl
      cases hl
    · rw [(leave_other g hs).2] at hl
      rw [(leave_other g hs).1]
      exact h.left s' hl
  · intro s' hz
    by_cases hs : s' = s
    · subst hs
      rw [leave_duty] at hz
      cases hz
    · rw [(leave_other g hs).2] at hz
      rw [(leave_other g hs).1]
      exact h.zero s' hz
  · intro s' hz
    rw [(hflag s').2.2.1] at hz
    rw [(hflag s').2.2.2]
    exact h.apart s' hz
  · rw [(hflag .write).2.2.1, (hflag .write).2.2.2, (hflag .write).2.1]
    exact h.later
  · intro s'
    have hw := h.window s'
    by_cases hs : s' = s
    · subst hs
      rw [hd] at hw
      rw [leave_duty, leave_queue]
      simp only [Tickets.leave, leaving, Bool.toNat_true, Bool.toNat_false] at hw ⊢
      omega
    · rw [(leave_other g hs).1, (leave_other g hs).2]
      exact hw
  · intro hs
    exact (h.start hs).flags rfl (fun s' => (hflag s').1) (fun s' => (hflag s').2.1)
      (fun s' => (hflag s').2.2.1) fun s' => (hflag s').2.2.2

theorem SideInv.leave (h : SideInv s i x) (ht : (x.g.q s).turn = some t)
    (hg : g.q s = (x.g.q s).leave t) :
    SideInv s i ⟨{ x.node with
        current := Function.update x.node.current s ((x.node.current s + 1) % 2 ^ 32) },
      x.log ++ [.act t (.lock i (.incCurrent s)) ()], g⟩ := by
  have hq := h.toQueueAt.leave ht
  rw [← hg] at hq
  have hself : ((x.g.q s).leave t).tick t = none := by simp [Tickets.leave]
  have hoth : ∀ u, u ≠ t → ((x.g.q s).leave t).tick u = (x.g.q s).tick u := by
    intro u hu
    simp [Tickets.leave, Function.update_of_ne hu]
  have hne : ∀ u, ((x.g.q s).leave t).tick u ≠ none → u ≠ t := by
    rintro u hu rfl
    exact hu hself
  have htick := h.wf.turn t ht
  refine { hq with full := ?_, places := ?_, order := ?_, inFlight := ?_, counts := ?_ }
  · rw [hg]
    exact h.full.leave h.wf ht
  · intro u
    rw [place_concat, hg]
    by_cases hu : u = t
    · subst hu
      rw [placeIn_none hself]
      simp [nextPlace]
    · rw [nextPlace_other (by exact Ne.symm hu), h.places u]
      refine (placeIn_congr (hoth u hu) ?_).symm
      simp [Tickets.leave, ht, Ne.symm hu]
  · intro u w c d hu hw hcd
    rw [hg] at hu hw
    rw [lastPos_concat_of_not rfl, lastPos_concat_of_not rfl]
    rw [hoth u (hne u (by rw [hu]; simp))] at hu
    rw [hoth w (hne w (by rw [hw]; simp))] at hw
    exact h.order u w c d hu hw hcd
  · intro u hu
    rw [hg] at hu
    rw [engaged_concat]
    rw [hoth u (hne u hu)] at hu
    exact h.inFlight u hu
  · intro u
    rw [tally_concat, hg]
    have hcount := h.counts u
    by_cases hu : u = t
    · subst hu
      rw [htick] at hcount
      change tally s i x.log u = (1, 0) at hcount
      rw [hself, hcount]
      simp [nextTally, TallyOk]
    · rw [hoth u hu, (sparesFor_other (by exact Ne.symm hu)).tally]
      exact hcount

/-- The call with the turn passes it on. -/
theorem LockInv.leave (h : LockInv i mode x) (ht : (x.g.q s).turn = some t)
    (hd : mode → x.g.duty s = leaving) :
    LockInv i mode ⟨{ x.node with
        current := Function.update x.node.current s ((x.node.current s + 1) % 2 ^ 32) },
      x.log ++ [.act t (.lock i (.incCurrent s)) ()], x.g.leave s t⟩ where
  side := by
    intro s'
    by_cases hs : s' = s
    · subst hs
      exact (h.side s').leave ht (leave_queue x.g s')
    · refine (h.side s').calm rfl ?_ (leave_other x.g hs).1 (calm_side hs (Or.inr (Or.inr rfl)) _)
      simp [Function.update_of_ne hs]
  apart := by
    have hsub : ∀ s' u, (x.g.q s').tick u = none → ((x.g.leave s t).q s').tick u = none := by
      intro s' u hu
      by_cases hs : s' = s
      · subst hs
        rw [leave_queue]
        by_cases hut : u = t
        · simp [Tickets.leave, hut]
        · simpa [Tickets.leave, Function.update_of_ne hut] using hu
      · rw [(leave_other x.g hs).1]
        exact hu
    intro u
    exact (h.apart u).imp (hsub .read u) (hsub .write u)
  hand := h.hand.mono (fun hh => ⟨hh, fun _ hk => hk⟩) rfl rfl (by rintro _ _ ⟨⟩)
  rest := by
    intro hm
    refine ⟨(h.rest hm).win.leave (hd hm) ⟨rfl, rfl, rfl⟩, ⟨fun s' hk => ?_, fun s' u hu => ?_⟩⟩
    · simp only [fresh_concat]
      refine ((h.rest hm).key.key s' hk).imp (fun hf => hf) fun hlt => ?_
      by_cases hs : s' = s
      · subst hs
        rw [hd hm] at hlt
        rw [leave_queue, leave_duty]
        simp only [Tickets.leave, leaving, Bool.toNat_true, Bool.toNat_false] at hlt ⊢
        omega
      · rw [(leave_other x.g hs).1, (leave_other x.g hs).2]
        exact hlt
    · rw [fresh_concat] at hu
      rw [engaged_concat]
      exact (h.rest hm).key.installer s' u hu

theorem LockRel.leave (h : LockInv i mode x) (ht : (x.g.q s).turn = some t)
    (hd : mode → x.g.duty s = leaving) :
    LockRel i mode t x ⟨{ x.node with
        current := Function.update x.node.current s ((x.node.current s + 1) % 2 ^ 32) },
      x.log ++ [.act t (.lock i (.incCurrent s)) ()], x.g.leave s t⟩ := by
  have hno : ∀ u, u ≠ t → (x.g.q s).turn ≠ some u := by
    intro u hu hturn
    rw [ht] at hturn
    exact hu (Option.some.inj hturn).symm
  refine ⟨⟨_, rfl, rfl, by rintro ⟨⟩⟩, ?_, ?_, fun _ _ _ => Iff.rfl, ?_, ?_, ?_, fun _ _ _ => rfl⟩
  · intro s' u hu
    by_cases hs : s' = s
    · subst hs
      rw [leave_queue]
      simp [Tickets.leave, Function.update_of_ne hu]
    · rw [(leave_other x.g hs).1]
  · intro s' u hu
    by_cases hs : s' = s
    · subst hs
      rw [leave_queue]
      exact iff_of_false (by rintro ⟨⟩) (hno u hu)
    · rw [(leave_other x.g hs).1]
  · intro s'
    by_cases hs : s' = s
    · subst hs
      rw [leave_queue]
      exact le_rfl
    · rw [(leave_other x.g hs).1]
  · intro s' u hu hturn
    have hs : s' ≠ s := by
      rintro rfl
      exact hno u hu hturn
    exact ⟨(leave_other x.g hs).2, rfl, by rw [(leave_other x.g hs).1], fun _ hk => hk⟩
  · intro hm s' u hu hown
    have hs : s' ≠ s := by
      rintro rfl
      have hleft := (h.rest hm).win.left s' (by rw [hd hm]; rfl)
      rw [hown, ht] at hleft
      exact hu (Option.some.inj hleft)
    exact ⟨by rw [(leave_other x.g hs).1], fun _ => rfl⟩

end Tickets

/-! ## Calls and owner keys -/

section Keys

variable {x : LockView hash} {b : Bool} {d : Duty}

/-- A thread without tickets makes a call or returns from one. -/
theorem LockInv.boundary (h : LockInv i mode x) (ht : ∀ s, (x.g.q s).tick t = none)
    (hf : mode → ∀ s, fresh s i x.log t = false)
    (he : (∃ op, e = .call t op) ∨ ∃ op res, e = .ret t op res) :
    LockInv i mode ⟨x.node, x.log ++ [e], x.g⟩ := by
  have htid : e.tid = t := by rcases he with ⟨op, rfl⟩ | ⟨op, res, rfl⟩ <;> rfl
  refine ⟨fun s => ?_, h.apart, ?_, fun hm => ⟨(h.rest hm).win, ?_, ?_⟩⟩
  · refine (h.side s).same rfl rfl rfl (fun u => ?_) (fun u => ?_) (fun u hu => ?_) fun u => ?_
    · rcases he with ⟨op, rfl⟩ | ⟨op, res, rfl⟩ <;> rfl
    · rcases he with ⟨op, rfl⟩ | ⟨op, res, rfl⟩ <;> rfl
    · refine nextEngaged_other ?_ true
      rintro rfl
      exact hu (htid ▸ ht s)
    · have hcount := (h.side s).counts u
      by_cases hu : u = t
      · subst hu
        rw [ht s] at hcount ⊢
        rcases he with ⟨op, rfl⟩ | ⟨op, res, rfl⟩
        · simp [nextTally, TallyOk]
        · exact hcount
      · rw [(sparesFor_other (by rw [htid]; exact Ne.symm hu)).tally]
        exact hcount
  · refine h.hand.mono (fun hh => ⟨hh, fun _ hk => hk⟩) rfl ?_ ?_
    · rcases he with ⟨op, rfl⟩ | ⟨op, res, rfl⟩ <;> rfl
    · rcases he with ⟨op, rfl⟩ | ⟨op, res, rfl⟩ <;> rintro _ _ ⟨⟩
  · intro s hk
    refine ((h.rest hm).key.key s hk).imp ?_ id
    rintro ⟨u, hu⟩
    have hut : e.tid ≠ u := by
      rintro rfl
      rw [htid, hf hm s] at hu
      cases hu
    exact ⟨u, by rw [fresh_concat, (sparesFor_other hut).fresh, hu]⟩
  · intro s u hu
    have hut : e.tid ≠ u := by
      rintro rfl
      rw [htid, fresh_concat, hf hm s] at hu
      rcases he with ⟨op, rfl⟩ | ⟨op, res, rfl⟩
      · simp [nextFresh] at hu
      · cases hu
    rw [fresh_concat, (sparesFor_other hut).fresh] at hu
    rw [engaged_concat, nextEngaged_other hut]
    exact (h.rest hm).key.installer s u hu

/-- A call finds no owner key and installs its own. -/
theorem LockInv.install (h : LockInv i mode x) (hk : x.node.uniqueKey s = none) :
    LockInv i mode ⟨{ x.node with uniqueKey := Function.update x.node.uniqueKey s (some k) },
      x.log ++ [.act t (.lock i (.casUniqueKey s k)) none], x.g⟩ := by
  have hcalm : ∀ s', Calm s' i (.act t (.lock i (.casUniqueKey s k)) none) := fun s' =>
    ⟨fun _ _ => rfl, fun _ => rfl, fun _ _ => rfl, fun _ => by simp [nextEngaged]⟩
  have hfresh : ∀ s' u, fresh s' i (x.log ++ [.act t (.lock i (.casUniqueKey s k)) none]) u =
      if t = u ∧ s = s' then true else fresh s' i x.log u := by
    intro s' u
    rw [fresh_concat]
    simp [nextFresh]
  refine ⟨fun s' => (h.side s').calm rfl rfl rfl (hcalm s'), h.apart, ?_, fun hm =>
    ⟨(h.rest hm).win.same ⟨rfl, rfl, rfl⟩, ?_, ?_⟩⟩
  · refine h.hand.mono (fun hh => ⟨hh, fun k' hk' => ?_⟩) rfl rfl (by rintro _ _ ⟨⟩)
    have hs : Side.read ≠ s := by
      rintro rfl
      rw [hk] at hk'
      cases hk'
    simpa [Function.update_of_ne hs] using hk'
  · intro s' hs'
    by_cases hs : s' = s
    · subst hs
      exact Or.inl ⟨t, by rw [hfresh, if_pos ⟨rfl, rfl⟩]⟩
    · have hold : x.node.uniqueKey s' ≠ none := by simpa [Function.update_of_ne hs] using hs'
      refine ((h.rest hm).key.key s' hold).imp ?_ id
      rintro ⟨u, hu⟩
      exact ⟨u, by rw [hfresh, if_neg fun he => hs he.2.symm]; exact hu⟩
  · intro s' u hu
    rw [hfresh] at hu
    rw [engaged_concat]
    split at hu
    · next he =>
      obtain ⟨rfl, rfl⟩ := he
      simp [nextEngaged]
    · rw [(h.rest hm).key.installer s' u hu]
      exact (hcalm s').engaged u

theorem LockRel.install (hk : x.node.uniqueKey s = none) :
    LockRel i mode t x ⟨{ x.node with uniqueKey := Function.update x.node.uniqueKey s (some k) },
      x.log ++ [.act t (.lock i (.casUniqueKey s k)) none], x.g⟩ where
  log := ⟨_, rfl, rfl, by rintro ⟨⟩⟩
  tick := fun _ _ _ => rfl
  turn := fun _ _ _ => Iff.rfl
  owner := fun _ _ _ => Iff.rfl
  next := fun _ => le_rfl
  held := by
    refine fun s' _ _ _ => ⟨rfl, rfl, rfl, fun k' hk' => ?_⟩
    have hs : s' ≠ s := by
      rintro rfl
      rw [hk] at hk'
      cases hk'
    simpa [Function.update_of_ne hs] using hk'
  frozen := fun _ _ _ _ _ => ⟨rfl, fun _ => rfl⟩
  result := fun _ _ _ => rfl

/-- The duties change, and with them only what the others do not depend on. -/
theorem LockRel.duty {n : LocalLockNode} (ht : (x.g.q s).turn = some t) (d : Duty)
    (hkey : ∀ s' k, s' ≠ s → x.node.uniqueKey s' = some k → n.uniqueKey s' = some k)
    (hh : ∀ s', s' ≠ s → n.handover s' = x.node.handover s')
    (hw : mode → ∀ s' u, u ≠ t → x.g.owner s' = some u → (x.g.q s').turn = some u →
      n.window s' = x.node.window s')
    (hv : n.retValue = x.node.retValue) (he : publishes i e = false) (het : e.tid = t) :
    LockRel i mode t x ⟨n, x.log ++ [e], x.g.setDuty s d⟩ where
  log := ⟨e, rfl, het, fun h => absurd (he.symm.trans h) Bool.false_ne_true⟩
  tick := fun _ _ _ => rfl
  turn := fun _ _ _ => Iff.rfl
  owner := fun _ _ _ => Iff.rfl
  next := fun _ => le_rfl
  held := by
    intro s' u hu hturn
    have hs : s' ≠ s := by
      rintro rfl
      rw [ht] at hturn
      exact hu (Option.some.inj hturn).symm
    exact ⟨by simp [LockGhost.setDuty, Function.update_of_ne hs], hh s' hs, rfl,
      fun k hk => hkey s' k hs hk⟩
  frozen := fun hm s' u hu ho => ⟨rfl, hw hm s' u hu ho⟩
  result := fun _ _ _ => hv

end Keys

/-! ## Windows -/

section Windows

variable {n n' : LocalLockNode} {g : LockGhost} {d : Duty} {o : Side} {z : Nat}

@[simp] theorem setDuty_self : (g.setDuty s d).duty s = d := by simp [LockGhost.setDuty]

@[simp] theorem setDuty_other : (g.setDuty s d).duty s.other = g.duty s.other := by
  simp [LockGhost.setDuty, Function.update_of_ne (Side.other_ne s)]

/-- The call with the turn gets other duties. -/
theorem WindowInv.setDuty (h : WindowInv n g) (ht : (g.q s).turn = some t)
    (hm : n'.mutex = n.mutex) (hleft : d.left = true → g.owner s = some t)
    (hzero : d.zero = true → g.owner s.other = some t) (hapart : d.zero = true → d.other = false)
    (hlater : s = .write → d.other = true ∨ d.zero = true → d.own = true)
    (hwin : n'.window s + d.left.toNat ≤ (g.q s).next - (g.q s).cur)
    (hoth : n'.window s.other + (g.duty s.other).left.toNat ≤
      (g.q s.other).next - (g.q s.other).cur)
    (hstart : n'.windowStart = true → Watched n' (g.setDuty s d)) :
    WindowInv n' (g.setDuty s d) := by
  refine ⟨fun s' => ?_, fun s' hs' => ?_, fun s' hl => ?_, fun s' hz => ?_, fun s' hz => ?_, ?_,
    fun s' => ?_, hstart⟩
  · rw [hm]
    exact h.mutex s'
  · have hs : s' ≠ s := by
      rintro rfl
      exact Option.some_ne_none t (ht.symm.trans hs')
    obtain rfl := Side.eq_other hs
    rw [setDuty_other]
    exact h.free _ hs'
  · by_cases hs : s' = s
    · subst hs
      rw [setDuty_self] at hl
      exact (hleft hl).trans ht.symm
    · obtain rfl := Side.eq_other hs
      rw [setDuty_other] at hl
      exact h.left _ hl
  · by_cases hs : s' = s
    · subst hs
      rw [setDuty_self] at hz
      exact (hzero hz).trans ht.symm
    · obtain rfl := Side.eq_other hs
      rw [setDuty_other] at hz
      exact h.zero _ hz
  · by_cases hs : s' = s
    · subst hs
      rw [setDuty_self] at hz ⊢
      exact hapart hz
    · obtain rfl := Side.eq_other hs
      rw [setDuty_other] at hz ⊢
      exact h.apart _ hz
  · by_cases hs : Side.write = s
    · subst hs
      rw [setDuty_self]
      exact hlater rfl
    · have hd : (g.setDuty s d).duty .write = g.duty .write := by
        simp [LockGhost.setDuty, Function.update_of_ne hs]
      rw [hd]
      exact h.later
  · by_cases hs : s' = s
    · subst hs
      rw [setDuty_self]
      exact hwin
    · obtain rfl := Side.eq_other hs
      rw [setDuty_other]
      exact hoth

/-- Duties that nobody watches for. -/
theorem Watched.setDuty (h : Watched n g) (hw : n'.window = n.window)
    (hc : d.check = (g.duty s).check) (ho : d.own = (g.duty s).own)
    (hz : d.zero = (g.duty s).zero) (hot : d.other = (g.duty s).other) :
    Watched n' (g.setDuty s d) := by
  have hcase : ∀ (f : Duty → Bool), f d = f (g.duty s) →
      ∀ s', f ((g.setDuty s d).duty s') = f (g.duty s') := by
    intro f hf s'
    by_cases hs : s' = s
    · subst hs
      rw [setDuty_self, hf]
    · obtain rfl := Side.eq_other hs
      rw [setDuty_other]
  exact h.flags hw (hcase _ hc) (hcase _ ho) (hcase _ hz) (hcase _ hot)

/-- The windows do not depend on whether a call has handed over. -/
theorem WindowInv.passed (h : WindowInv n g) (ht : (g.q s).turn = some t) (hw : SameWindows n n')
    (b : Bool) : WindowInv n' (g.setDuty s { g.duty s with passed := b }) := by
  refine h.setDuty ht hw.mutex ?_ ?_ (h.apart s) ?_ ?_ ?_ ?_
  · exact fun hl => (h.left s hl).trans ht
  · exact fun hz => (h.zero s hz).trans ht
  · rintro rfl
    exact h.later
  · rw [hw.window]
    exact h.window s
  · rw [hw.window]
    exact h.window s.other
  · intro hs
    rw [hw.windowStart] at hs
    exact (h.start hs).setDuty hw.window rfl rfl rfl rfl

/-- A call starts the window. -/
theorem WindowInv.begin (h : WindowInv n g) (ht : (g.q s).turn = some t) (hd : g.duty s = {}) :
    WindowInv { n with windowStart := true } (g.setDuty s { own := true, other := true }) := by
  refine h.setDuty ht rfl (fun hl => by cases hl) (fun hz => by cases hz) (fun hz => by cases hz)
    (fun _ _ => rfl) ?_ (h.window s.other) fun _ => ?_
  · have hw := h.window s
    rw [hd] at hw
    exact hw
  · cases hz : (g.duty s.other).zero with
    | false =>
      refine ⟨s, Or.inr (Or.inl ⟨Or.inr ?_, ?_⟩)⟩
      · rw [setDuty_self]
      · rw [setDuty_other, hz]
    | true =>
      refine ⟨s.other, Or.inr (Or.inr ⟨?_, ?_⟩)⟩
      · rw [setDuty_other, hz]
      · rw [Side.other_other, setDuty_self]

/-- The starter stores the window of its own side. -/
theorem WindowInv.storeOwn (h : WindowInv n g) (ht : (g.q s).turn = some t) (hd : g.duty s = d)
    (hleft : d.left = false) (hlater : s = .write → d.other = false ∧ d.zero = false) (hz : z ≠ 0)
    (hle : z ≤ (g.q s).next - (g.q s).cur) :
    WindowInv { n with window := Function.update n.window s z }
      (g.setDuty s { d with own := false }) := by
  subst hd
  have hother : Function.update n.window s z s.other = n.window s.other :=
    Function.update_of_ne (Side.other_ne s) _ _
  refine h.setDuty ht rfl ?_ ?_ (h.apart s) ?_ ?_ ?_ fun hs => ?_
  · exact fun hl => (h.left s hl).trans ht
  · exact fun hl => (h.zero s hl).trans ht
  · intro hs ho
    obtain ⟨h1, h2⟩ := hlater hs
    rcases ho with ho | ho
    · exact absurd (h1.symm.trans ho) Bool.false_ne_true
    · exact absurd (h2.symm.trans ho) Bool.false_ne_true
  · simpa [hleft] using hle
  · dsimp only
    rw [hother]
    exact h.window s.other
  · cases hzo : (g.duty s.other).zero with
    | false =>
      refine ⟨s, Or.inr (Or.inl ⟨Or.inl ?_, ?_⟩)⟩
      · simpa using hz
      · rw [setDuty_other, hzo]
    | true =>
      -- the own side is not an anchor, so someone else watches and goes on
      obtain ⟨s', hw⟩ := h.start hs
      refine ⟨s', ?_⟩
      by_cases hs' : s' = s
      · subst hs'
        rw [setDuty_self, setDuty_other]
        rcases hw with hc | ha | hr
        · exact Or.inl hc
        · exact absurd (hzo.symm.trans ha.2) Bool.noConfusion
        · exact Or.inr (Or.inr hr)
      · obtain rfl := Side.eq_other hs'
        unfold Anchor at hw ⊢
        dsimp only
        rw [setDuty_other, Side.other_other, setDuty_self, hother]
        rw [Side.other_other] at hw
        exact hw

/-- The starter samples the queue of the other side and finds it empty. -/
theorem WindowInv.sampleZero (h : WindowInv n g) (ht : (g.q s).turn = some t) (hd : g.duty s = d)
    (ho : d.other = true) (hown : g.owner s.other = some t)
    (hempty : (g.q s.other).next = (g.q s.other).cur) (hno : (g.q s.other).turn = none) :
    WindowInv n (g.setDuty s { d with other := false, zero := true }) := by
  subst hd
  have hfree := h.free s.other hno
  refine h.setDuty ht rfl ?_ (fun _ => hown) (fun _ => rfl) ?_ (h.window s) (h.window s.other)
    fun hs => ?_
  · exact fun hl => (h.left s hl).trans ht
  · rintro rfl -
    exact h.later (Or.inl ho)
  · have hzo : n.window s.other = 0 := by
      have := h.window s.other
      omega
    have hzs : (g.duty s).zero = false := by
      cases hz : (g.duty s).zero with
      | false => rfl
      | true => exact absurd ((h.apart s hz).symm.trans ho) Bool.false_ne_true
    obtain ⟨s', hw⟩ := h.start hs
    by_cases hs' : s' = s
    · subst hs'
      refine ⟨s', ?_⟩
      unfold Anchor at hw ⊢
      rw [setDuty_self, setDuty_other]
      rcases hw with hc | ha | hr
      · exact Or.inl hc
      · exact Or.inr (Or.inl ha)
      · exact absurd (hzs.symm.trans hr.1) Bool.false_ne_true
    · -- nobody has the turn of the other side
      obtain rfl := Side.eq_other hs'
      unfold Anchor at hw
      rw [hfree] at hw
      rcases hw with hc | ⟨hne | hown, -⟩ | hr
      · cases hc
      · exact absurd hzo hne
      · cases hown
      · cases hr.1

/-- The starter stores a window of the other side that is not empty. -/
theorem WindowInv.storeOther (h : WindowInv n g) (ht : (g.q s).turn = some t) (hd : g.duty s = d)
    (hzero : d.zero = false) (hno : (g.q s.other).turn ≠ some t) (hown : g.owner s.other = some t)
    (hz : z ≠ 0) (hle : z ≤ (g.q s.other).next - (g.q s.other).cur) :
    WindowInv { n with window := Function.update n.window s.other z }
      (g.setDuty s { d with other := false }) := by
  subst hd
  have hself : Function.update n.window s.other z s = n.window s :=
    Function.update_of_ne (Side.other_ne s).symm _ _
  refine h.setDuty ht rfl ?_ ?_ (fun _ => rfl) ?_ ?_ ?_ fun _ => ?_
  · exact fun hl => (h.left s hl).trans ht
  · exact fun hl => (h.zero s hl).trans ht
  · rintro rfl (ho | ho)
    · cases ho
    · exact h.later (Or.inr ho)
  · dsimp only
    rw [hself]
    exact h.window s
  · cases hl : (g.duty s.other).left with
    | false => simpa using hle
    | true =>
      rw [h.left _ hl] at hown
      exact absurd hown hno
  · refine ⟨s.other, Or.inr (Or.inl ⟨Or.inl ?_, ?_⟩)⟩
    · simpa using hz
    · rw [Side.other_other, setDuty_self]
      exact hzero

/-- The starter stores zero. -/
theorem WindowInv.storeZero (h : WindowInv n g) (ht : (g.q s).turn = some t) (hd : g.duty s = d)
    (hzero : d.zero = true) (hno : (g.q s.other).turn ≠ some t) (hown : g.owner s.other = some t) :
    WindowInv { n with window := Function.update n.window s.other 0 }
      (g.setDuty s { d with zero := false }) := by
  subst hd
  have hself : Function.update n.window s.other 0 s = n.window s :=
    Function.update_of_ne (Side.other_ne s).symm _ _
  refine h.setDuty ht rfl ?_ (fun hl => by cases hl) (fun hl => by cases hl) ?_ ?_ ?_ fun hs => ?_
  · exact fun hl => (h.left s hl).trans ht
  · rintro rfl -
    exact h.later (Or.inr hzero)
  · dsimp only
    rw [hself]
    exact h.window s
  · cases hl : (g.duty s.other).left with
    | false => simp
    | true =>
      rw [h.left _ hl] at hown
      exact absurd hown hno
  · obtain ⟨s', hw⟩ := h.start hs
    by_cases hs' : s' = s
    · subst hs'
      rcases hw with hc | ha | hr
      · exact ⟨s', Or.inl (by rw [setDuty_self]; exact hc)⟩
      · refine ⟨s', Or.inr (Or.inl ?_)⟩
        unfold Anchor at ha ⊢
        dsimp only
        rw [setDuty_self, setDuty_other, hself]
        exact ha
      · -- the other side has a starter too: one of the two is an anchor
        cases s' with
        | read =>
          refine ⟨.write, Or.inr (Or.inl ⟨Or.inr ?_, ?_⟩)⟩
          · exact (congrArg Duty.own setDuty_other).trans (h.later (Or.inl hr.2))
          · exact congrArg Duty.zero setDuty_self
        | write =>
          refine ⟨.write, Or.inr (Or.inl ⟨Or.inr ?_, ?_⟩)⟩
          · rw [setDuty_self]
            exact h.later (Or.inr hr.1)
          · rw [setDuty_other]
            cases hz : (g.duty Side.write.other).zero with
            | false => rfl
            | true => exact absurd ((h.apart _ hz).symm.trans hr.2) Bool.false_ne_true
    · obtain rfl := Side.eq_other hs'
      rcases hw with hc | ha | hr
      · exact ⟨s.other, Or.inl (by rw [setDuty_other]; exact hc)⟩
      · refine absurd ha.2 ?_
        rw [Side.other_other, hzero]
        exact Bool.noConfusion
      · rw [Side.other_other, h.apart s hzero] at hr
        cases hr.2

theorem setOwner_self {w : Option Tid} : (g.setOwner o w).owner o = w := by
  simp [LockGhost.setOwner]

theorem setOwner_of_ne {w : Option Tid} (h : s ≠ o) : (g.setOwner o w).owner s = g.owner s := by
  simp [LockGhost.setOwner, Function.update_of_ne h]

/-- A mutex changes hands while no duty depends on it. -/
theorem WindowInv.setOwner (h : WindowInv n g) (w : Option Tid)
    (hl : (g.duty o).left = false) (hz : (g.duty o.other).zero = false) :
    WindowInv { n with mutex := Function.update n.mutex o w.isSome } (g.setOwner o w) := by
  refine ⟨fun s => ?_, h.free, fun s hs => ?_, fun s hs => ?_, h.apart, h.later, h.window, fun hs =>
    (h.start hs).same rfl rfl⟩
  · by_cases ho : s = o
    · subst ho
      rw [setOwner_self]
      simp
    · rw [setOwner_of_ne ho]
      simpa [Function.update_of_ne ho] using h.mutex s
  · have ho : s ≠ o := by
      rintro rfl
      exact absurd (hl.symm.trans hs) Bool.false_ne_true
    rw [setOwner_of_ne ho]
    exact h.left s hs
  · have ho : s.other ≠ o := by
      rintro rfl
      rw [Side.other_other] at hz
      exact absurd (hz.symm.trans hs) Bool.false_ne_true
    rw [setOwner_of_ne ho]
    exact h.zero s hs

theorem WindowInv.lock (h : WindowInv n g) (hm : n.mutex o = false) (t : Tid) :
    WindowInv { n with mutex := Function.update n.mutex o true } (g.setOwner o (some t)) := by
  have hnone : g.owner o = none := by
    have hmo := h.mutex o
    rw [hm] at hmo
    simpa using hmo.symm
  refine h.setOwner (some t) ?_ ?_
  · cases hl : (g.duty o).left with
    | false => rfl
    | true =>
      have hturn := h.left o hl
      rw [hnone] at hturn
      rw [h.free o hturn.symm] at hl
      cases hl
  · cases hz : (g.duty o.other).zero with
    | false => rfl
    | true =>
      have hturn := h.zero _ hz
      rw [Side.other_other, hnone] at hturn
      rw [h.free _ hturn.symm] at hz
      cases hz

/-- The call with the turn finds that it is in no window. -/
theorem WindowInv.outside (h : WindowInv n g) (ht : (g.q s).turn = some t) (hd : g.duty s = d)
    (hown : g.owner s = some t) (hw : n.window s = 0) (hlt : (g.q s).cur < (g.q s).next) :
    WindowInv n (g.setDuty s { d with left := true }) := by
  subst hd
  refine h.setDuty ht rfl (fun _ => hown) (fun hz => (h.zero s hz).trans ht) (h.apart s) ?_ ?_
    (h.window s.other) fun hs => (h.start hs).setDuty rfl rfl rfl rfl rfl
  · rintro rfl
    exact h.later
  · rw [hw]
    simp only [Bool.toNat_true]
    omega

/-- The call with the turn leaves the window. -/
theorem WindowInv.leaveWindow (h : WindowInv n g) (ht : (g.q s).turn = some t) (hd : g.duty s = d)
    (hleft : d.left = false) (hown : g.owner s = some t) (hw : n.window s = z + 1) :
    WindowInv { n with window := Function.update n.window s z }
      (g.setDuty s { d with left := true, check := true }) := by
  subst hd
  have hother : Function.update n.window s z s.other = n.window s.other :=
    Function.update_of_ne (Side.other_ne s) _ _
  refine h.setDuty ht rfl (fun _ => hown) (fun hz => (h.zero s hz).trans ht) (h.apart s) ?_ ?_ ?_
    fun hs => ⟨s, Or.inl ?_⟩
  · rintro rfl
    exact h.later
  · have hwin := h.window s
    rw [hw, hleft] at hwin
    simpa using hwin
  · dsimp only
    rw [hother]
    exact h.window s.other
  · rw [setDuty_self]

/-- The window goes on, as the call that has left it finds. -/
theorem WindowInv.goesOn (h : WindowInv n g) (ht : (g.q s).turn = some t) (hd : g.duty s = d)
    (hleft : d.left = true) (hzero : d.zero = false) (hno : (g.q s.other).turn ≠ some t)
    {s' : Side} (hw : n.window s' ≠ 0) : WindowInv n (g.setDuty s { d with check := false }) := by
  subst hd
  refine h.setDuty ht rfl (fun hl => (h.left s hl).trans ht) (fun hz => (h.zero s hz).trans ht)
    (h.apart s) ?_ (h.window s) (h.window s.other) fun hs => ⟨s', Or.inr (Or.inl ⟨Or.inl hw, ?_⟩)⟩
  · rintro rfl
    exact h.later
  · by_cases hs' : s' = s
    · subst hs'
      rw [setDuty_other]
      cases hz : (g.duty s'.other).zero with
      | false => rfl
      | true =>
        -- a starter of the other side would hold the same mutex
        have howner := h.zero _ hz
        rw [Side.other_other, h.left s' hleft, ht] at howner
        exact absurd howner.symm hno
    · obtain rfl := Side.eq_other hs'
      rw [Side.other_other, setDuty_self]
      exact hzero

/-- The window is over. -/
theorem WindowInv.finish (h : WindowInv n g) (ht : (g.q s).turn = some t) (hd : g.duty s = d) :
    WindowInv { n with windowStart := false } (g.setDuty s { d with check := false }) := by
  subst hd
  refine h.setDuty ht rfl (fun hl => (h.left s hl).trans ht) (fun hz => (h.zero s hz).trans ht)
    (h.apart s) ?_ (h.window s) (h.window s.other) fun hs => by cases hs
  rintro rfl
  exact h.later

end Windows

/-! ## Handovers and results -/

section Handovers

variable {x : LockView hash} {b : Bool}

/-- The ghost state after the call with the turn has handed over, or has decided not to. -/
def LockGhost.pass (g : LockGhost) (s : Side) (b : Bool) : LockGhost :=
  g.setDuty s { g.duty s with passed := b }

theorem pass_other {g : LockGhost} {s' : Side} (hs : s' ≠ s) :
    (g.pass s b).duty s' = g.duty s' := by
  simp [LockGhost.pass, LockGhost.setDuty, Function.update_of_ne hs]

/-- The call with the turn sets the handover flag. -/
theorem LockInv.handover (h : LockInv i mode x) (ht : (x.g.q s).turn = some t)
    (hb : b = true → (x.g.q s).cur + 1 < (x.g.q s).next)
    (hpub : s = .read → b = true → ∃ k p, x.node.uniqueKey .read = some k ∧
      PublishedAt i x.log k x.node.retValue p) :
    LockInv i mode ⟨{ x.node with handover := Function.update x.node.handover s b },
      x.log ++ [.act t (.lock i (.storeHandover s b)) ()], x.g.pass s b⟩ := by
  refine ⟨fun s' => ?_, h.apart, ⟨fun hh => ?_, ?_⟩, fun hm => ⟨?_, fun s' hk => ?_, fun s' u hu => ?_⟩⟩
  · exact (h.side s').calm rfl rfl rfl
      ⟨fun _ _ => rfl, fun _ => rfl, fun _ _ => rfl, fun _ => rfl⟩
  · by_cases hs : Side.read = s
    · subst hs
      have hb' : b = true := by simpa using hh
      obtain ⟨k, p, hk, hp⟩ := hpub rfl hb'
      exact ⟨k, p, hk, hp.concat rfl⟩
    · have hold : x.node.handover .read = true := by simpa [Function.update_of_ne hs] using hh
      obtain ⟨k, p, hk, hp⟩ := h.hand.handed hold
      exact ⟨k, p, hk, hp.concat rfl⟩
  · exact h.hand.own.concat (by rintro _ _ ⟨⟩)
  · refine (h.rest hm).win.passed ht ?_ b
    exact ⟨rfl, rfl, rfl⟩
  · refine ((h.rest hm).key.key s' hk).imp (fun hf => ?_) fun hlt => ?_
    · simp only [fresh_concat]
      exact hf
    · by_cases hs : s' = s
      · subst hs
        simp only [LockGhost.pass, setDuty_self]
        change (x.g.q s').cur + b.toNat < (x.g.q s').next
        cases b with
        | false => exact (Nat.le_add_right _ _).trans_lt hlt
        | true => exact hb rfl
      · dsimp only
        rw [pass_other hs]
        exact hlt
  · rw [fresh_concat] at hu
    rw [engaged_concat]
    exact (h.rest hm).key.installer s' u hu

theorem LockRel.handover (ht : (x.g.q s).turn = some t) :
    LockRel i mode t x ⟨{ x.node with handover := Function.update x.node.handover s b },
      x.log ++ [.act t (.lock i (.storeHandover s b)) ()], x.g.pass s b⟩ :=
  .duty ht _ (fun _ _ _ hk => hk) (fun _ hs => Function.update_of_ne hs _ _)
    (fun _ _ _ _ _ _ => rfl) rfl rfl rfl

/-- The last call of an epoch drops the owner key. -/
theorem LockInv.clear (h : LockInv i mode x) (ht : (x.g.q s).turn = some t)
    (hh : x.node.handover s = false) :
    LockInv i mode ⟨{ x.node with uniqueKey := Function.update x.node.uniqueKey s none },
      x.log ++ [.act t (.lock i (.clearUniqueKey s)) ()], x.g.pass s true⟩ := by
  refine ⟨fun s' => ?_, h.apart, ?_, fun hm => ⟨?_, fun s' hk => ?_, fun s' u hu => ?_⟩⟩
  · exact (h.side s').calm rfl rfl rfl
      ⟨fun _ _ => rfl, fun _ => rfl, fun _ _ => rfl, fun _ => rfl⟩
  · refine h.hand.mono (fun hread => ⟨hread, fun k hk => ?_⟩) rfl rfl (by rintro _ _ ⟨⟩)
    have hs : Side.read ≠ s := by
      rintro rfl
      exact absurd (hh.symm.trans hread) Bool.false_ne_true
    simpa [Function.update_of_ne hs] using hk
  · refine (h.rest hm).win.passed ht ?_ true
    exact ⟨rfl, rfl, rfl⟩
  · have hs : s' ≠ s := by
      rintro rfl
      simp at hk
    have hold : x.node.uniqueKey s' ≠ none := by simpa [Function.update_of_ne hs] using hk
    dsimp only
    rw [pass_other hs]
    simp only [fresh_concat]
    exact (h.rest hm).key.key s' hold
  · rw [fresh_concat] at hu
    rw [engaged_concat]
    exact (h.rest hm).key.installer s' u hu

theorem LockRel.clear (ht : (x.g.q s).turn = some t) :
    LockRel i mode t x ⟨{ x.node with uniqueKey := Function.update x.node.uniqueKey s none },
      x.log ++ [.act t (.lock i (.clearUniqueKey s)) ()], x.g.pass s true⟩ :=
  .duty ht _ (fun _ _ hs hk => (Function.update_of_ne hs _ _).trans hk) (fun _ _ => rfl)
    (fun _ _ _ _ _ _ => rfl) rfl rfl rfl

/-- The winner stores its result. -/
theorem LockInv.publish (h : LockInv i mode x) (hh : x.node.handover .read = false) :
    LockInv i mode ⟨{ x.node with retValue := v },
      x.log ++ [.act t (.lock i (.storeRetValue v)) ()], x.g⟩ := by
  refine ⟨fun s => ?_, h.apart, ⟨fun hread => ?_, ?_⟩, fun hm => ⟨(h.rest hm).win.same ⟨rfl, rfl, rfl⟩,
    (h.rest hm).key.calm rfl rfl (fun _ => rfl) (fun _ _ _ => rfl) fun _ _ => rfl⟩⟩
  · exact (h.side s).calm rfl rfl rfl ⟨fun _ _ => rfl, fun _ => rfl, fun _ _ => rfl, fun _ => rfl⟩
  · exact absurd (hh.symm.trans hread) Bool.false_ne_true
  · exact h.hand.own.concat (by rintro _ _ ⟨⟩)

theorem LockRel.publish (ht : (x.g.q .read).turn = some t) :
    LockRel i mode t x ⟨{ x.node with retValue := v },
      x.log ++ [.act t (.lock i (.storeRetValue v)) ()], x.g⟩ where
  log := ⟨_, rfl, rfl, fun _ => ht⟩
  tick := fun _ _ _ => rfl
  turn := fun _ _ _ => Iff.rfl
  owner := fun _ _ _ => Iff.rfl
  next := fun _ => le_rfl
  held := fun _ _ _ _ => ⟨rfl, rfl, rfl, fun _ hk => hk⟩
  frozen := fun _ _ _ _ _ => ⟨rfl, fun _ => rfl⟩
  result := fun _ hu hturn => absurd (Option.some.inj (hturn.symm.trans ht)) hu

/-- A call that is handed over takes over the result. -/
theorem LockInv.copy (h : LockInv i mode x) (hh : x.node.handover .read = true)
    (hk : x.node.uniqueKey .read = some k) {value : Value}
    (hcall : lastCall x.log t = some (.read k value)) :
    LockInv i mode ⟨x.node, x.log ++ [.act t (.lock i .loadRetValue) x.node.retValue], x.g⟩ := by
  obtain ⟨k', p, hk', hp⟩ := h.hand.handed hh
  obtain rfl : k' = k := Option.some.inj (hk'.symm.trans hk)
  refine ⟨fun s => ?_, h.apart, ⟨fun _ => ⟨k', p, hk, hp.concat rfl⟩, h.hand.own.concat ?_⟩, fun hm =>
    ⟨(h.rest hm).win, (h.rest hm).key.calm rfl rfl (fun _ => rfl) (fun _ _ _ => rfl) fun _ _ => rfl⟩⟩
  · exact (h.side s).calm rfl rfl rfl ⟨fun _ _ => rfl, fun _ => rfl, fun _ _ => rfl, fun _ => rfl⟩
  · rintro u v ⟨⟩
    exact ⟨k', value, p, hcall, hp⟩

end Handovers

end LockTurns

end DMTree
