import DMTree.Conc.Proofs.LogProofs
import DMTree.Conc.Proofs.OutlineProofs
import DMTree.Proofs.LockQueueProofs
import DMTree.Proofs.ComputeNodeProofs
import DMTree.Combining

/-!
# The invariant of write combining, and its steps

The tickets of the queue are ghost numbers without wrap-around. While nobody has the turn, the window
is the part of the queue up to ghost ticket `upto`, and every call in it has been carried; the calls of
a window were in the queue when the winner counted it, and the condition says that the winner had
sampled after their stores.
-/

namespace DMTree

open Conc

/-- The queue of writes, and the end of the current window. -/
structure CombGhost where
  q : Tickets
  /-- The first ticket behind the window. -/
  upto : Nat

section

variable {hash : Key → Nat} {k : Key} {l : NodeLog hash} {e : NodeEvent} {t u : Tid} {i : Nat}

/-! ## Histories -/

theorem Stores.concat {p : Nat} {v : Value} (h : Stores i l p t v) : Stores i (l ++ [e]) p t v :=
  getElem?_concat h e

theorem Carried.concat {s q q' : Nat} (h : Carried hash k l s q) (hq : q ≤ q') :
    Carried hash k (l ++ [e]) s q' := by
  obtain ⟨p, j, u, u', v, h1, h2, h3, h4, h5⟩ := h
  exact ⟨p, j, u, u', v, h1, h2, by omega, h4.concat, getElem?_concat h5 e⟩

theorem Carried.grow {s : Nat} (h : Carried hash k l s l.length) :
    Carried hash k (l ++ [e]) s (l ++ [e]).length :=
  h.concat (by simp)

theorem tid_mem_of_inQueue {s : Side} (h : InQueue s i l t) : t ∈ l.map Event.tid := by
  obtain ⟨a, ha, hs⟩ := exists_lastPos (Nat.zero_lt_of_lt h)
  unfold takesTicket at hs
  split at hs
  · next u j s' r =>
    simp only [Bool.and_eq_true, beq_iff_eq] at hs
    exact List.mem_map.mpr ⟨_, List.mem_of_getElem? ha, hs.1.1⟩
  · cases hs

/-- An event that is none of the steps the invariant looks at. -/
structure Plain (i : Nat) (e : NodeEvent) : Prop where
  stores : ∀ u, storesWc i u e = false
  takes : ∀ u, takesTicket .write i u e = false
  passes : ∀ u, passesTurn .write i u e = false
  ret : ∀ u op res, e ≠ .ret u op res

/-- The commands other than those that store, sample, take a ticket or pass the turn. -/
def NodeCmd.isQuiet : NodeCmd → Bool
  | .lock _ (.storeWcBuffer _) | .lock _ .loadWcBuffer | .lock _ (.incTicket _)
  | .lock _ (.incCurrent _) => false
  | _ => true

theorem plain_act {c : NodeCmd} (hc : c.isQuiet = true) (r : c.Resp) :
    Plain i (.act t c r) := by
  refine ⟨fun u => ?_, fun u => ?_, fun u => ?_, fun u op res h => by cases h⟩
  · unfold storesWc
    split
    · next he => cases he; simp [NodeCmd.isQuiet] at hc
    · rfl
  · unfold takesTicket
    split
    · next he => cases he; simp [NodeCmd.isQuiet] at hc
    · rfl
  · unfold passesTurn
    split
    · next he => cases he; simp [NodeCmd.isQuiet] at hc
    · rfl

/-- An event that leaves the last call, store and sampling of a thread. -/
structure QuietFor (i : Nat) (t : Tid) (e : NodeEvent) : Prop where
  call : Event.isCall t e = false
  stores : storesWc i t e = false
  samples : samplesWc i t e = false

theorem quietFor_act {c : NodeCmd} (hc : c.isQuiet = true) (r : c.Resp) :
    QuietFor i t (.act t c r) := by
  refine ⟨rfl, (plain_act hc r).stores t, ?_⟩
  unfold samplesWc
  split
  · next he => cases he; simp [NodeCmd.isQuiet] at hc
  · rfl

theorem quietFor_other (h : e.tid ≠ t) : QuietFor i t e := by
  refine ⟨?_, ?_, ?_⟩
  · cases e <;> simp_all [Event.isCall, Event.tid]
  · unfold storesWc
    split
    · simp_all [Event.tid]
    · rfl
  · unfold samplesWc
    split
    · simp_all [Event.tid]
    · rfl

/-- Thread `t` has made its last call at `a`, and in it has stored `v` at position `s`. -/
structure Stored (hash : Key → Nat) (k : Key) (t : Tid) (a s : Nat) (v : Value)
    (l : NodeLog hash) : Prop where
  called : lastPos (Event.isCall t) l = a
  last : lastPos (storesWc (hash k) t) l = s + 1
  stores : Stores (hash k) l s t v
  after : a ≤ s

/-! ## The invariant -/

/-- What holds of the window of a lock node while nobody has the turn. -/
structure Calm (n : LocalLockNode) (g : CombGhost) : Prop where
  window : n.window .write = g.upto - g.q.cur
  handover : 0 < n.window .write → n.handover .write = true
  start : n.windowStart = decide (0 < n.window .write)

/-- The counters of a lock node whose only calls are writes of `k`. -/
structure CombNode (k : Key) (n : LocalLockNode) (g : CombGhost) : Prop
    extends QueueAt .write n g.q where
  readTicket : n.ticket .read = 0
  readCurrent : n.current .read = 0
  readWindow : n.window .read = 0
  owner : ∀ k', n.uniqueKey .write = some k' → k' = k
  upto : g.upto ≤ g.q.next
  calm : g.q.turn = none → Calm n g

/-- The history: the calls of the window have been carried, and `wc_buffer` holds the value of the
last store. -/
structure CombLog (hash : Key → Nat) (k : Key) (l : NodeLog hash) (g : CombGhost) (b : Value) :
    Prop where
  queued : ∀ u c, g.q.tick u = some c →
    InQueue .write (hash k) l u ∧ 0 < lastPos (storesWc (hash k) u) l ∧
      (c < g.upto → Carried hash k l (lastPos (storesWc (hash k) u) l - 1) l.length)
  buffer : ∀ u, 0 < lastPos (storesWc (hash k) u) l →
    ∃ p u', Stores (hash k) l p u' b ∧ ∀ w, lastPos (storesWc (hash k) w) l ≤ p + 1
  done : NoLostUpdate hash k l

abbrev CombWorld (hash : Key → Nat) := World (nodeClient hash) NodeState CombGhost

/-- The invariant of runs whose only calls are writes of `k`. -/
structure CombInv (hash : Key → Nat) (k : Key) (x : CombWorld hash) : Prop where
  node : CombNode k (x.mem.locks (hash k)) x.ghost
  log : CombLog hash k x.log x.ghost (x.mem.locks (hash k)).wcBuffer

/-- What a step of `t` leaves to the others: their tickets, and everything about the window to the
one that has the turn. -/
structure CombRel (hash : Key → Nat) (k : Key) (t : Tid) (x x' : CombWorld hash) : Prop where
  log : ∃ e : NodeEvent, x'.log = x.log ++ [e] ∧ e.tid = t
  tick : ∀ u, u ≠ t → x'.ghost.q.tick u = x.ghost.q.tick u
  turn : ∀ u, u ≠ t → x.ghost.q.turn = some u →
    x'.ghost.q.turn = some u ∧ x'.ghost.q.cur = x.ghost.q.cur ∧ x'.ghost.upto = x.ghost.upto ∧
    (x'.mem.locks (hash k)).window .write = (x.mem.locks (hash k)).window .write ∧
    (x'.mem.locks (hash k)).handover .write = (x.mem.locks (hash k)).handover .write ∧
    (x'.mem.locks (hash k)).windowStart = (x.mem.locks (hash k)).windowStart
  granted : ∀ u, u ≠ t → x'.ghost.q.turn = some u → x.ghost.q.turn = some u

/-- The discipline of the writers. -/
def combDiscipline (hash : Key → Nat) (k : Key) : Discipline (nodeClient hash) NodeState CombGhost where
  machine := nodeMachine
  guard := writesInTime hash k
  Inv := CombInv hash k
  Rel := CombRel hash k
  MayFail _ := False

theorem NoLostUpdate.concat (h : NoLostUpdate hash k l) (he : ∀ u op res, e ≠ .ret u op res) :
    NoLostUpdate hash k (l ++ [e]) := by
  intro q t v n res hq
  rcases getElem?_concat_iff.mp hq with hq | ⟨-, rfl⟩
  · obtain ⟨s, hs, h1, h2, h3⟩ := h q t v n res hq
    refine ⟨s, hs, h1.concat, fun c op hc hcq => ?_, h3.concat le_rfl⟩
    rcases getElem?_concat_iff.mp hc with hc | ⟨rfl, -⟩
    · exact h2 c op hc hcq
    · have := lt_of_getElem? hq
      omega
  · exact absurd rfl (he t _ res)

/-- A write returns whose store has been carried. -/
theorem NoLostUpdate.ret (h : NoLostUpdate hash k l) {a s n : Nat} {v : Value} {res : Option Value}
    (hst : Stored hash k t a s v l) (hcar : Carried hash k l s l.length) :
    NoLostUpdate hash k (l ++ [.ret t (.write k v n) res]) := by
  intro q u v' n' res' hq
  rcases getElem?_concat_iff.mp hq with hq' | ⟨rfl, he⟩
  · have hlt := lt_of_getElem? hq'
    obtain ⟨s, hs, h1, h2, h3⟩ := h q u v' n' res' hq'
    refine ⟨s, hs, h1.concat, fun c op hc hcq => ?_, h3.concat le_rfl⟩
    rcases getElem?_concat_iff.mp hc with hc | ⟨rfl, -⟩
    · exact h2 c op hc hcq
    · omega
  · cases he
    refine ⟨s, lt_of_getElem? hst.stores, hst.stores.concat, fun c op hc hcq => ?_,
      hcar.concat le_rfl⟩
    rcases getElem?_concat_iff.mp hc with hc | ⟨rfl, -⟩
    · have := lt_lastPos (p := Event.isCall t) hc (by simp [Event.isCall])
      have := hst.called
      have := hst.after
      omega
    · omega

/-- The history part of the invariant over a plain step, where the window may be replaced by one all
of whose calls have been carried. -/
theorem CombLog.plain {g : CombGhost} {b : Value} (h : CombLog hash k l g b)
    (he : Plain (hash k) e) {U : Nat}
    (hU : ∀ u c, g.q.tick u = some c → c < U →
      Carried hash k l (lastPos (storesWc (hash k) u) l - 1) l.length) :
    CombLog hash k (l ++ [e]) ⟨g.q, U⟩ b where
  queued := by
    intro u c hc
    obtain ⟨h1, h2, -⟩ := h.queued u c hc
    refine ⟨?_, ?_, fun hlt => ?_⟩
    · simpa [InQueue, he.takes u, he.passes u] using h1
    · simpa [he.stores u] using h2
    · rw [lastPos_concat_of_not (he.stores u)]
      exact (hU u c hc hlt).grow
  buffer := by
    intro u hu
    simp only [lastPos_concat, he.stores] at hu ⊢
    obtain ⟨p, u', h1, h2⟩ := h.buffer u hu
    exact ⟨p, u', h1.concat, h2⟩
  done := h.done.concat he.ret

/-! ## Steps -/

/-- What an access leaves alone when it does not touch the queue. -/
structure Frame (k : Key) (n n' : LocalLockNode) : Prop where
  ticket : n'.ticket = n.ticket
  current : n'.current = n.current
  readWindow : n.window .read = 0 → n'.window .read = 0
  owner : ∀ k', n'.uniqueKey .write = some k' → n.uniqueKey .write = some k' ∨ k' = k
  buffer : n'.wcBuffer = n.wcBuffer

/-- The fields that belong to the one that has the turn. -/
structure SameWindow (n n' : LocalLockNode) : Prop where
  window : n'.window .write = n.window .write
  handover : n'.handover .write = n.handover .write
  start : n'.windowStart = n.windowStart

theorem Calm.same {n n' : LocalLockNode} {g : CombGhost} (h : Calm n g) (hs : SameWindow n n') :
    Calm n' g := by
  refine ⟨?_, ?_, ?_⟩
  · rw [hs.window, h.window]
  · rw [hs.window, hs.handover]; exact h.handover
  · rw [hs.window, hs.start]; exact h.start

/-- A plain step that takes no ticket and passes no turn: what belongs to the turn is changed only by
the one that has it. -/
theorem plain_step {x : CombWorld hash} {m : NodeState} {U : Nat} (hi : CombInv hash k x)
    (he : Plain (hash k) e) (het : e.tid = t)
    (hn : Frame k (x.mem.locks (hash k)) (m.locks (hash k)))
    (hUn : U ≤ x.ghost.q.next)
    (hU : ∀ u c, x.ghost.q.tick u = some c → c < U →
      Carried hash k x.log (lastPos (storesWc (hash k) u) x.log - 1) x.log.length)
    (hw : x.ghost.q.turn = some t ∨
      SameWindow (x.mem.locks (hash k)) (m.locks (hash k)) ∧ U = x.ghost.upto) :
    CombInv hash k ⟨m, x.log ++ [e], ⟨x.ghost.q, U⟩⟩ ∧
      CombRel hash k t x ⟨m, x.log ++ [e], ⟨x.ghost.q, U⟩⟩ := by
  obtain ⟨hnode, hlog⟩ := hi
  refine ⟨⟨?_, ?_⟩, ?_⟩
  · refine { hnode.toQueueAt.same (by rw [hn.ticket]) (by rw [hn.current]) with
             readTicket := ?_, readCurrent := ?_, readWindow := hn.readWindow hnode.readWindow,
             owner := fun k' hk' => (hn.owner k' hk').elim (hnode.owner k') id, upto := hUn, calm := ?_ }
    · rw [hn.ticket]; exact hnode.readTicket
    · rw [hn.current]; exact hnode.readCurrent
    · intro hnone
      rcases hw with hw | ⟨hs, rfl⟩
      · rw [hw] at hnone; cases hnone
      · exact (hnode.calm hnone).same hs
  · rw [hn.buffer]
    exact hlog.plain he hU
  · refine { log := ⟨e, rfl, het⟩, tick := fun _ _ => rfl, turn := ?_,
             granted := fun _ _ h => h }
    intro u hu hturn
    rcases hw with hw | ⟨hs, rfl⟩
    · rw [hw] at hturn
      exact absurd (Option.some.inj hturn).symm hu
    · exact ⟨hturn, rfl, rfl, hs.window, hs.handover, hs.start⟩

/-! ## What a thread knows -/

/-- `b` is the value of a store that is not older than the own one, and if `t` has sampled in its
current call, not older than any store before that. -/
def Sampled (hash : Key → Nat) (k : Key) (t : Tid) (a s : Nat) (b : Value) (l : NodeLog hash) :
    Prop :=
  ∃ p u, s ≤ p ∧ Stores (hash k) l p u b ∧
    (a < lastPos (samplesWc (hash k) t) l → ∀ u',
      lastPos (storesWc (hash k) u') l < lastPos (samplesWc (hash k) t) l →
        lastPos (storesWc (hash k) u') l ≤ p + 1)

/-- All stores before the sampling of `t` in its current call have been carried. -/
def CarriedSample (hash : Key → Nat) (k : Key) (t : Tid) (a : Nat) (l : NodeLog hash) : Prop :=
  a < lastPos (samplesWc (hash k) t) l → ∀ u', 0 < lastPos (storesWc (hash k) u') l →
    lastPos (storesWc (hash k) u') l < lastPos (samplesWc (hash k) t) l →
      Carried hash k l (lastPos (storesWc (hash k) u') l - 1) l.length

variable {a s : Nat} {v b : Value}

theorem Stored.concat (h : Stored hash k t a s v l) (he : QuietFor (hash k) t e) :
    Stored hash k t a s v (l ++ [e]) where
  called := by rw [lastPos_concat_of_not he.call]; exact h.called
  last := by rw [lastPos_concat_of_not he.stores]; exact h.last
  stores := h.stores.concat
  after := h.after

/-- A store that comes after a sampling is later than it. -/
theorem lastPos_stores_concat (ht : samplesWc i t e = false)
    (h : lastPos (storesWc i u) (l ++ [e]) < lastPos (samplesWc i t) (l ++ [e])) :
    lastPos (storesWc i u) (l ++ [e]) = lastPos (storesWc i u) l ∧
      lastPos (storesWc i u) l < lastPos (samplesWc i t) l := by
  rw [lastPos_concat_of_not ht] at h
  rw [lastPos_concat] at h ⊢
  have := lastPos_le (p := samplesWc i t) (l := l)
  split at h
  · omega
  · next hu => simp [hu, h]

theorem Sampled.concat (h : Sampled hash k t a s b l) (he : samplesWc (hash k) t e = false) :
    Sampled hash k t a s b (l ++ [e]) := by
  obtain ⟨p, u, hp, hs, hl⟩ := h
  refine ⟨p, u, hp, hs.concat, fun ha u' hu' => ?_⟩
  obtain ⟨h1, h2⟩ := lastPos_stores_concat he hu'
  rw [lastPos_concat_of_not he] at ha
  rw [h1]
  exact hl ha u' h2

theorem CarriedSample.concat (h : CarriedSample hash k t a l)
    (he : samplesWc (hash k) t e = false) : CarriedSample hash k t a (l ++ [e]) := by
  intro ha u' hpos hu'
  obtain ⟨h1, h2⟩ := lastPos_stores_concat he hu'
  rw [lastPos_concat_of_not he] at ha
  rw [h1] at hpos ⊢
  exact (h ha u' hpos h2).grow

/-- What `t` knows about the window while it has the turn. -/
structure Turn (hash : Key → Nat) (k : Key) (t : Tid) (w : Nat) (h ws : Bool) (c U : Nat)
    (x : CombWorld hash) : Prop where
  turn : x.ghost.q.turn = some t
  cur : x.ghost.q.cur = c
  upto : x.ghost.upto = U
  window : (x.mem.locks (hash k)).window .write = w
  handover : (x.mem.locks (hash k)).handover .write = h
  start : (x.mem.locks (hash k)).windowStart = ws

/-- Thread `t` has no ticket. -/
def Away (t : Tid) (x : CombWorld hash) : Prop := x.ghost.q.tick t = none

theorem stable_log {L : NodeLog hash → Prop}
    (hL : ∀ l e, QuietFor (hash k) t e → L l → L (l ++ [e])) :
    (combDiscipline hash k).Stable t fun x => L x.log := by
  intro u x x' hu hi hi' hr h
  obtain ⟨e, hlog, het⟩ := hr.log
  simp only [hlog]
  exact hL _ e (quietFor_other (by rw [het]; exact hu)) h

theorem stable_turn {w c U : Nat} {h ws : Bool} :
    (combDiscipline hash k).Stable t (Turn hash k t w h ws c U) := by
  intro u x x' hu hi hi' hr ht
  obtain ⟨h1, h2, h3, h4, h5, h6⟩ := hr.turn t (Ne.symm hu) ht.turn
  exact ⟨h1, h2.trans ht.cur, h3.trans ht.upto, h4.trans ht.window, h5.trans ht.handover,
    h6.trans ht.start⟩

theorem stable_away : (combDiscipline hash k).Stable t (Away t) := by
  intro u x x' hu hi hi' hr ht
  exact (hr.tick t (Ne.symm hu)).trans ht

/-! ## Steps while having the turn -/

section Holder

variable {w w' c U : Nat} {h h' ws ws' : Bool} {L : NodeLog hash → Prop} {α : Type}
  {Q : α → CombWorld hash → Prop}

/-- An access of the one that has the turn, and then the rest of its program. -/
theorem turn_bind {m : Nat} {n o : Bool}
    (hL : ∀ l e, QuietFor (hash k) t e → L l → L (l ++ [e])) {d : LockCmd}
    (hd : (NodeCmd.lock (hash k) d).isQuiet = true) {φ : d.Resp → Prop}
    (hex : ∀ y g r y', CombNode k y g → g.q.cur = c → y.window .write = w →
      y.handover .write = h → y.windowStart = ws → y.exec d = some (r, y') →
      Frame k y y' ∧ y'.window .write = m ∧ y'.handover .write = n ∧ y'.windowStart = o ∧ φ r)
    {f : d.Resp → NodeProg α}
    (hf : ∀ r, φ r → Outline (combDiscipline hash k) t (f r)
      (fun x => L x.log ∧ Turn hash k t m n o c U x) Q) :
    Outline (combDiscipline hash k) t (Prog.cmd (S := NodeSig) (.lock (hash k) d) >>= f)
      (fun x => L x.log ∧ Turn hash k t w h ws c U x) Q := by
  refine Outline.cmd_bind False.elim (R := fun r x => φ r ∧ L x.log ∧ Turn hash k t m n o c U x) ?_ ?_ ?_
  · exact fun r => .and (Discipline.stable_const _) (.and (stable_log hL) stable_turn)
  · rintro x r s' hi ⟨hl, ht⟩ - he
    obtain ⟨y', hn, rfl⟩ := exec_lock he
    obtain ⟨hfr, hw, hh, hs, hφ⟩ :=
      hex _ _ r y' hi.node ht.cur ht.window ht.handover ht.start hn
    have hstep := plain_step (e := .act t (.lock (hash k) d) r) (U := x.ghost.upto) hi
      (m := { x.mem with locks := Function.update x.mem.locks (hash k) y' })
      (plain_act hd r) rfl (by simpa using hfr) hi.node.upto
      (fun u c hc hlt => (hi.log.queued u c hc).2.2 hlt) (Or.inl ht.turn)
    refine ⟨x.ghost, hstep.1, hstep.2, hφ, hL _ _ (quietFor_act hd r) hl, ?_⟩
    exact ⟨ht.turn, ht.cur, ht.upto, by simpa using hw, by simpa using hh, by simpa using hs⟩
  · intro r
    refine Outline.of_fact (φ := φ r) (fun x _ hx => hx.1) fun hφ => ?_
    exact (hf r hφ).mono fun x _ hx => hx.2

/-- The last access of a program of the one that has the turn. -/
theorem turn_last (hL : ∀ l e, QuietFor (hash k) t e → L l → L (l ++ [e])) {d : LockCmd}
    (hd : (NodeCmd.lock (hash k) d).isQuiet = true)
    (hex : ∀ n g r n', CombNode k n g → g.q.cur = c → n.window .write = w →
      n.handover .write = h → n.windowStart = ws → n.exec d = some (r, n') →
      Frame k n n' ∧ n'.window .write = w' ∧ n'.handover .write = h' ∧ n'.windowStart = ws') :
    Outline (combDiscipline hash k) t (Prog.cmd (S := NodeSig) (.lock (hash k) d))
      (fun x => L x.log ∧ Turn hash k t w h ws c U x)
      fun _ x => L x.log ∧ Turn hash k t w' h' ws' c U x :=
  turn_bind hL hd (φ := fun _ => True) (m := w') (n := h') (o := ws')
    (fun n g r n' hn hc hw hh hs he => by simpa using hex n g r n' hn hc hw hh hs he)
    fun r _ => Outline.pure (a := r) fun _ _ hx => hx

/-- An access of the one that has the turn which changes nothing. -/
theorem turn_load (hL : ∀ l e, QuietFor (hash k) t e → L l → L (l ++ [e])) {d : LockCmd}
    (hd : (NodeCmd.lock (hash k) d).isQuiet = true) {φ : d.Resp → Prop} {val : LocalLockNode → d.Resp}
    (hex : ∀ n, n.exec d = some (val n, n))
    (hφ : ∀ n g, CombNode k n g → g.q.cur = c → n.window .write = w → n.handover .write = h →
      n.windowStart = ws → φ (val n))
    {f : d.Resp → NodeProg α}
    (hf : ∀ r, φ r → Outline (combDiscipline hash k) t (f r)
      (fun x => L x.log ∧ Turn hash k t w h ws c U x) Q) :
    Outline (combDiscipline hash k) t (Prog.cmd (S := NodeSig) (.lock (hash k) d) >>= f)
      (fun x => L x.log ∧ Turn hash k t w h ws c U x) Q := by
  refine turn_bind hL hd (φ := φ) ?_ hf
  intro n g r n' hn hc hw hh hs he
  rw [hex n] at he
  cases he
  exact ⟨⟨rfl, rfl, id, fun _ => Or.inl, rfl⟩, hw, hh, hs, hφ n g hn hc hw hh hs⟩

/-- `leaveWindow` of the one that has the turn. -/
theorem leaveWindow_outline (hL : ∀ l e, QuietFor (hash k) t e → L l → L (l ++ [e]))
    (hw : w < 2 ^ 32) :
    Outline (combDiscipline hash k) t (onLock (hash k) (leaveWindow .write))
      (fun x => L x.log ∧ Turn hash k t w h (decide (0 < w)) c U x)
      fun _ x => L x.log ∧ Turn hash k t (w - 1) h (decide (0 < w - 1)) c U x := by
  simp only [leaveWindow, onLock_bind, onLock_ite, onLock_pure]
  refine turn_load hL rfl (φ := (w = ·)) (fun _ => rfl) (fun n g _ _ hw _ _ => hw.symm) ?_
  rintro _ rfl
  refine Outline.ite (fun h0 => ?_) fun h0 => ?_
  · subst h0
    exact Outline.pure fun x _ hx => hx
  · refine turn_bind hL rfl (φ := fun _ => True) (m := w - 1) (n := h) (o := decide (0 < w)) ?_ ?_
    · intro n g r n' hn hc hwn hh hs he
      cases he
      have hw0 : w ≠ 0 := h0
      have hdec : (2 ^ 32 + w - 1) % 2 ^ 32 = w - 1 := by omega
      refine ⟨⟨rfl, rfl, by simp, fun _ => Or.inl, rfl⟩, ?_, hh, hs, trivial⟩
      simp only [Function.update_self, hwn]
      exact hdec
    rintro - -
    refine turn_load hL rfl (φ := (· = 0)) (fun _ => rfl) (fun n g hn _ _ _ _ => hn.readWindow) ?_
    rintro _ rfl
    refine Outline.ite (fun h0 => absurd rfl h0) fun _ => ?_
    refine turn_load hL rfl (φ := (w - 1 = ·)) (fun _ => rfl) (fun n g _ _ hw _ _ => hw.symm) ?_
    rintro _ rfl
    have hd : decide (0 < w) = true := decide_eq_true (Nat.pos_of_ne_zero h0)
    refine Outline.ite (fun h1 => ?_) fun h1 => ?_
    · have hd1 : decide (0 < w - 1) = true := decide_eq_true (Nat.pos_of_ne_zero h1)
      rw [hd, hd1]
      exact Outline.pure fun x _ hx => hx
    · have hw1 : w - 1 = 0 := not_not.mp h1
      have hd1 : decide (0 < w - 1) = false := by rw [hw1]; rfl
      rw [hd1]
      refine turn_last hL rfl ?_
      intro n g r n' hn hc hwn hh hs he
      cases he
      exact ⟨⟨rfl, rfl, id, fun _ => Or.inl, rfl⟩, hwn, hh, rfl⟩

/-- Passing the turn on. -/
theorem leave_outline (hL : ∀ l e, QuietFor (hash k) t e → L l → L (l ++ [e]))
    (hw : w = U - (c + 1)) (hh : 0 < w → h = true) :
    Outline (combDiscipline hash k) t (Prog.cmd (S := NodeSig) (.lock (hash k) (.incCurrent .write)))
      (fun x => L x.log ∧ Turn hash k t w h (decide (0 < w)) c U x)
      fun _ x => L x.log ∧ Away t x := by
  refine Outline.cmd False.elim (fun _ => .and (stable_log hL) stable_away) ?_
  rintro x r m ⟨hnode, hlog⟩ ⟨hl, ht⟩ - he
  obtain ⟨n', hn, rfl⟩ := exec_lock he
  cases hn
  have hne : ∀ u c', (x.ghost.q.leave t).tick u = some c' → u ≠ t ∧ x.ghost.q.tick u = some c' := by
    intro u c' hu
    by_cases hut : u = t
    · subst hut
      simp [Tickets.leave] at hu
    · exact ⟨hut, by simpa [Tickets.leave, Function.update_of_ne hut] using hu⟩
  refine ⟨⟨x.ghost.q.leave t, x.ghost.upto⟩, ⟨?_, ?_⟩, ?_, hL _ _ ⟨rfl, rfl, rfl⟩ hl, ?_⟩
  · simp only [Function.update_self]
    refine { hnode.toQueueAt.leave ht.turn with
             readTicket := ?_, readCurrent := ?_, readWindow := ?_, owner := ?_,
             upto := hnode.upto, calm := ?_ }
    · simpa using hnode.readTicket
    · simpa using hnode.readCurrent
    · simpa using hnode.readWindow
    · simpa using hnode.owner
    · rintro -
      refine ⟨?_, ?_, ?_⟩
      · simp only [Tickets.leave]
        rw [ht.window, ht.upto, ht.cur, hw]
      · dsimp only
        rw [ht.window, ht.handover]
        exact hh
      · dsimp only
        rw [ht.window, ht.start]
  · simp only [Function.update_self]
    refine ⟨?_, ?_, hlog.done.concat (by rintro _ _ _ ⟨⟩)⟩
    · intro u c' hu
      obtain ⟨hut, hu⟩ := hne u c' hu
      obtain ⟨h1, h2, h3⟩ := hlog.queued u c' hu
      refine ⟨?_, ?_, fun hlt => ?_⟩
      · simpa [InQueue, takesTicket, passesTurn, Ne.symm hut] using h1
      · simpa [storesWc] using h2
      · rw [lastPos_concat_of_not rfl]
        exact (h3 hlt).grow
    · intro u hu
      rw [lastPos_concat_of_not rfl] at hu
      obtain ⟨p, u', h1, h2⟩ := hlog.buffer u hu
      refine ⟨p, u', h1.concat, fun w => ?_⟩
      rw [lastPos_concat_of_not rfl]
      exact h2 w
  · refine { log := ⟨_, rfl, rfl⟩, tick := fun u hu => ?_, turn := ?_, granted := ?_ }
    · simp [Tickets.leave, Function.update_of_ne hu]
    · intro u hu hturn
      rw [ht.turn] at hturn
      exact absurd (Option.some.inj hturn).symm hu
    · rintro u - ⟨⟩
  · simp [Away, Tickets.leave]

end Holder

/-! ## Steps that leave the window alone -/

section Bystander

variable {L : NodeLog hash → Prop} {F : CombWorld hash → Prop}

/-- What depends only on the ghost state and on the fields that belong to the turn. -/
def Framed (hash : Key → Nat) (k : Key) (F : CombWorld hash → Prop) : Prop :=
  ∀ x m l, SameWindow (x.mem.locks (hash k)) (m.locks (hash k)) → F x → F ⟨m, l, x.ghost⟩

theorem framed_away : Framed hash k (Away t) := fun _ _ _ _ h => h

theorem framed_turn {w c U : Nat} {h ws : Bool} : Framed hash k (Turn hash k t w h ws c U) :=
  fun _ _ _ hs h => ⟨h.turn, h.cur, h.upto, hs.window.trans h.window, hs.handover.trans h.handover,
    hs.start.trans h.start⟩

/-- A step that is neither a store nor a sampling and leaves the window alone. -/
theorem quiet_cmd (hF : Framed hash k F)
    (hL : ∀ l e, QuietFor (hash k) t e → L l → L (l ++ [e])) {d : NodeCmd} (hd : d.isQuiet = true)
    (hex : ∀ m r m', nodeMachine.exec t d m = some (r, m') →
      Frame k (m.locks (hash k)) (m'.locks (hash k)) ∧
        SameWindow (m.locks (hash k)) (m'.locks (hash k))) :
    (combDiscipline hash k).Cmd t d (fun x => L x.log ∧ F x) fun _ x => L x.log ∧ F x := by
  rintro x r m hi ⟨hl, hf⟩ - he
  obtain ⟨h1, h2⟩ := hex _ _ _ he
  have hstep := plain_step (e := .act t d r) hi (plain_act hd r) rfl h1 hi.node.upto
    (fun u c hc hlt => (hi.log.queued u c hc).2.2 hlt) (Or.inr ⟨h2, rfl⟩)
  exact ⟨x.ghost, hstep.1, hstep.2, hL _ _ (quietFor_act hd r) hl, hF _ _ _ h2 hf⟩

theorem frame_refl (n : LocalLockNode) : Frame k n n := ⟨rfl, rfl, id, fun _ => Or.inl, rfl⟩

theorem sameWindow_refl (n : LocalLockNode) : SameWindow n n := ⟨rfl, rfl, rfl⟩

/-- A step that does not change the lock node. -/
theorem load_cmd (hF : Framed hash k F)
    (hL : ∀ l e, QuietFor (hash k) t e → L l → L (l ++ [e])) {d : NodeCmd} (hd : d.isQuiet = true)
    (hex : ∀ m r m', nodeMachine.exec t d m = some (r, m') →
      m'.locks (hash k) = m.locks (hash k)) :
    (combDiscipline hash k).Cmd t d (fun x => L x.log ∧ F x) fun _ x => L x.log ∧ F x := by
  refine quiet_cmd hF hL hd fun m r m' he => ?_
  rw [hex m r m' he]
  exact ⟨frame_refl _, sameWindow_refl _⟩

end Bystander

end

end DMTree
