import DMTree.Proofs.SplitSteps
import DMTree.Conc.Proofs.LogProofs
import DMTree.Conc.Proofs.OutlineProofs

/-!
# Steps of a run

What a step on the abstract tree means for a run with its history: the holders of the locks, the order
of the writes, and what has been read. `StepOk` collects what has to be shown of a step, and
`StepOk.does` concludes that it keeps the discipline.
-/

namespace DMTree

open Conc Segments

variable {E : Env} {F : Flags} {M : Mode} {t u : Tid} {l : TreeLog E F}
  {e : Event TreeSig TreeOp TreeRes} {w : LockWord} {op : TreeOp}

/-! ## The clock -/

theorem lockClock_concat : lockClock (l ++ [e]) = (lockClock l).tick e := by
  simp [lockClock, List.foldl_append]

/-- The event is not a call and takes no lock of a leaf. -/
def isPlain : Event TreeSig TreeOp TreeRes → Bool
  | .call _ _ => false
  | .act _ (.cas (.table _)) true => false
  | _ => true

theorem tick_plain (h : isPlain e = true) (x : LockClock) :
    x.tick e = { x with now := x.now + 1 } := by
  unfold LockClock.tick
  split
  · cases h
  · cases h
  · rfl

theorem tick_now (x : LockClock) : (x.tick e).now = x.now + 1 := by
  unfold LockClock.tick
  split <;> rfl

theorem lockClock_now : (lockClock l).now = l.length := by
  induction l using List.reverseRecOn with
  | nil => rfl
  | append_singleton l e ih =>
    rw [lockClock_concat, tick_now, ih, List.length_append]
    rfl

theorem time_le (c : Nat) : (lockClock l).time c ≤ l.length := by
  induction l using List.reverseRecOn with
  | nil => exact le_rfl
  | append_singleton l e ih =>
    rw [lockClock_concat, List.length_append]
    unfold LockClock.tick
    split
    · exact ih.trans (Nat.le_succ _)
    · next v a =>
      by_cases hc : c = (lockClock l).cur v
      · subst hc
        simp only [Function.update_self, lockClock_now]
        exact le_rfl
      · simp only [Function.update_of_ne hc]
        exact ih.trans (Nat.le_succ _)
    · exact ih.trans (Nat.le_succ _)

theorem cur_le (t : Tid) : (lockClock l).cur t ≤ l.length := by
  induction l using List.reverseRecOn with
  | nil => exact le_rfl
  | append_singleton l e ih =>
    rw [lockClock_concat, List.length_append]
    unfold LockClock.tick
    split
    · next v op =>
      by_cases ht : t = v
      · subst ht
        simp only [Function.update_self, lockClock_now]
        exact Nat.le_succ _
      · simp only [Function.update_of_ne ht]
        exact ih.trans (Nat.le_succ _)
    · exact ih.trans (Nat.le_succ _)
    · exact ih.trans (Nat.le_succ _)

/-- The steps of other clients leave the position of the last call. -/
theorem cur_other (h : e.tid ≠ t) : (lockClock (l ++ [e])).cur t = (lockClock l).cur t := by
  rw [lockClock_concat]
  unfold LockClock.tick
  split
  · next v op => exact Function.update_of_ne (fun he => h he.symm) ..
  · rfl
  · rfl

theorem cur_act {c : TreeCmd} {r : c.Resp} :
    (lockClock (l ++ [.act u c r])).cur t = (lockClock l).cur t := by
  rw [lockClock_concat]
  unfold LockClock.tick
  split
  · next heq => cases heq
  · rfl
  · rfl

/-- Where the last call of a client stands. -/
theorem getElem?_cur (h : lastCall l t = some op) :
    l[(lockClock l).cur t]? = some (.call t op) := by
  induction l using List.reverseRecOn with
  | nil => cases h
  | append_singleton l e ih =>
    by_cases he : e.isCall t = true
    · cases e with
      | call v op' =>
        have hv : v = t := by simpa [Event.isCall] using he
        subst hv
        have hop : some op' = some op := (lastCall_call.trans (if_pos rfl)).symm.trans h
        cases hop
        rw [lockClock_concat]
        simp only [LockClock.tick, Function.update_self, lockClock_now]
        exact getElem?_concat_last ..
      | act v c r => cases he
      | ret v op' res => cases he
    · cases e with
      | call v op' =>
        have hv : (Event.call v op' : Event TreeSig TreeOp TreeRes).tid ≠ t := by
          simpa [Event.isCall, Event.tid] using he
        rw [lastCall_other hv] at h
        rw [cur_other hv]
        exact getElem?_concat (ih h) _
      | act v c r =>
        rw [lastCall_act] at h
        rw [cur_act]
        exact getElem?_concat (ih h) _
      | ret v op' res =>
        rw [lastCall_ret] at h
        rw [lockClock_concat, tick_plain rfl]
        exact getElem?_concat (ih h) _

/-- The calls of two clients stand at different positions. -/
theorem cur_ne (h : lastCall l t = some op) {op' : TreeOp} (h' : lastCall l u = some op')
    (hu : u ≠ t) : (lockClock l).cur u ≠ (lockClock l).cur t := by
  intro he
  have h1 := getElem?_cur h
  have h2 := getElem?_cur h'
  rw [he, h1] at h2
  cases h2
  exact hu rfl

theorem holder_concat : holder (l ++ [e]) w = holderStep w (holder l w) e := by
  simp [holder, List.foldl_append]

/-! ## Rewritten leaves -/

theorem rewritten_concat {a c : Gaddr} (h : rewritten l a c) (he : isLeafLock c e = false) :
    rewritten (l ++ [e]) a c := by
  unfold rewritten at h ⊢
  rw [lastPos_concat_of_not he, lastPos_concat]
  have := lastPos_le (p := isRewrite a) (l := l)
  split <;> omega

theorem rewritten_of_rewrite {a c : Gaddr} (he : isRewrite a e = true) : rewritten (l ++ [e]) a c := by
  have hlock : isLeafLock c e = false := by
    unfold isRewrite at he
    split at he
    · rfl
    · cases he
  unfold rewritten
  rw [lastPos_concat_of_not hlock, lastPos_concat_of he]
  exact Nat.lt_succ_of_le lastPos_le

/-- A copy of a table stays one. -/
theorem CopyOk.mono {H : Hashes} {m m' : Cluster} {g g' : TreeView} {c : Gaddr} {tab : FPTable}
    (h : CopyOk H g c tab) (hr : TreeRel H u m g m' g') : CopyOk H g' c tab := by
  obtain ⟨a, x, hx, htab, hle, hslots⟩ := h
  obtain ⟨x', hx', htab', -, hcap, -⟩ := hr.le.leaf a x hx
  refine ⟨a, x', hx', htab'.trans htab, ?_⟩
  rcases hr.step a x x' hx hx' with ⟨hver, -, hkeys⟩ | ⟨hlt, -⟩
  · refine ⟨hver ▸ hle, fun hv i hi hne => ?_⟩
    obtain ⟨k, hk, hst⟩ := hslots (hver ▸ hv) i (hcap ▸ hi) hne
    exact ⟨k, hkeys i k hk, hr.stored k hst⟩
  · exact ⟨hle.trans hlt.le, fun hv => absurd hv (by omega)⟩

theorem CopyAt.mono {H : Hashes} {m m' : Cluster} {g g' : TreeView} {d : Nat} {tab : FPTable}
    (h : CopyAt H g d tab) (hr : TreeRel H u m g m' g') : CopyAt H g' d tab := by
  obtain ⟨c, hd, hc, hcopy⟩ := h
  exact ⟨c, hd, hc, hcopy.mono hr⟩

/-! ## A step of a client -/

variable {x : TreeWorld E F} {m' : Cluster} {g' : TreeView}

/-- The current call of the client, a write, takes effect with the pair `p`, in a leaf the client has
locked. -/
structure TakesEffect (t : Tid) (x : TreeWorld E F) (p : EntryPos) : Prop where
  call : ∃ v, lastCall x.log t = some (.write p.key v) ∧ (F.writeCombining = false → v = p.value)
  fresh : ∀ w ∈ x.ghost.view.eff, w.1 ≠ (lockClock x.log).cur t
  leaf : ∃ a y, x.ghost.view.leaf a = some y ∧ y.own = some t ∧ y.min ≤ p.key ∧ p.key < y.max
  order : ∀ w ∈ x.ghost.view.eff, w.2.key = p.key →
    (lockClock x.log).time w.1 < (lockClock x.log).time ((lockClock x.log).cur t)

/-- What has to be shown of a step of the client `t` that ends with the event `e`. -/
structure StepOk (M : Mode) (t : Tid) (x : TreeWorld E F) (m' : Cluster) (g' : TreeView)
    (e : Event TreeSig TreeOp TreeRes) : Prop where
  tid : e.tid = t
  step : TreeStep E M t x.mem x.ghost.view m' g'
  snap : ∀ u a n, e = .act u (.readNode a) n → SnapNode E g' n
  moving : ∀ a y s, g'.leaf a = some y → g'.st a = .moving s → isRewrite a e = true ∨
    ∃ y₀, x.ghost.view.leaf a = some y₀ ∧ y₀.tab = y.tab ∧ x.ghost.view.st a = .moving s ∧
      isLeafLock y.tab e = false
  held : ∀ w u, holderStep w (holder x.log w) e = some u ↔ g'.Holds u w
  law : ∀ c r, e = .act t c r → (∃ op, lastCall x.log t = some op) ∧ x.ghost.view.Lawful t c
  quiet : (∀ c r, e = .act t c r → c.quiet = true) → g' = x.ghost.view
  copies : ∀ i d tab, (m'.node i).localFp d = some tab →
    (x.mem.node i).localFp d = some tab ∨ CopyAt E.hash x.ghost.view d tab
  locks : (∀ c r, e = .act t c r → c.isLock = false) →
    ∀ i, (m'.node i).locks = (x.mem.node i).locks
  fresh : ∀ a, e = .act t (.cas (.table a)) true →
    ∀ w ∈ x.ghost.view.eff, w.1 ≠ (lockClock x.log).cur t
  eff : g'.eff = x.ghost.view.eff ∨ ∃ p, isPlain e = true ∧
    g'.eff = x.ghost.view.eff ++ [((lockClock x.log).cur t, p)] ∧ TakesEffect t x p
  done : ∀ op, e = .call t op → F.writeCombining = false →
    ∀ k v, lastCall x.log t = some (.write k v) →
      ∃ w ∈ x.ghost.view.eff, w.1 = (lockClock x.log).cur t
  answer : ∀ op r, e = .ret t op r →
    ResultOk E F M x.ghost.past ((lockClock x.log).cur t) x.log.length op r

/-- The ghost state after a step. -/
def nextGhost (x : TreeWorld E F) (g' : TreeView) : TreeGhost :=
  ⟨g', Function.update x.ghost.past (x.log.length + 1) g'⟩

theorem StepOk.eff_mem (h : StepOk M t x m' g' e) {w : Nat × EntryPos}
    (hw : w ∈ x.ghost.view.eff) : w ∈ g'.eff := by
  rcases h.eff with he | ⟨p, -, he, -⟩ <;> rw [he]
  · exact hw
  · exact List.mem_append_left _ hw

/-- The lock times of the writes that have taken effect do not change. -/
theorem StepOk.time (h : StepOk M t x m' g' e) {w : Nat × EntryPos} (hw : w ∈ x.ghost.view.eff) :
    (lockClock (x.log ++ [e])).time w.1 = (lockClock x.log).time w.1 := by
  rw [lockClock_concat]
  unfold LockClock.tick
  split
  · rfl
  · next v a =>
    have hv : v = t := h.tid
    subst hv
    exact Function.update_of_ne (h.fresh a rfl w hw) ..
  · rfl

theorem StepOk.order (hi : WorldInv M x) (h : StepOk M t x m' g' e) :
    g'.eff.Pairwise fun w w' => w.2.key = w'.2.key →
      (lockClock (x.log ++ [e])).time w.1 < (lockClock (x.log ++ [e])).time w'.1 := by
  have hold : x.ghost.view.eff.Pairwise fun w w' => w.2.key = w'.2.key →
      (lockClock (x.log ++ [e])).time w.1 < (lockClock (x.log ++ [e])).time w'.1 := by
    refine hi.order.imp_of_mem fun hw hw' hlt hk => ?_
    rw [h.time hw, h.time hw']
    exact hlt hk
  rcases h.eff with he | ⟨p, hplain, he, hp⟩ <;> rw [he]
  · exact hold
  · refine List.pairwise_append.mpr ⟨hold, List.pairwise_singleton .., fun w hw w' hw' hk => ?_⟩
    rw [List.mem_singleton.mp hw'] at hk ⊢
    rw [h.time hw, lockClock_concat, tick_plain hplain]
    exact hp.order w hw hk

theorem StepOk.calls (hi : WorldInv M x) (h : StepOk M t x m' g' e) (w : Nat × EntryPos)
    (hw : w ∈ g'.eff) : ∃ u v, (x.log ++ [e])[w.1]? = some (.call u (.write w.2.key v)) ∧
      (F.writeCombining = false → v = w.2.value) := by
  have hold : w ∈ x.ghost.view.eff → ∃ u v, (x.log ++ [e])[w.1]? =
      some (.call u (.write w.2.key v)) ∧ (F.writeCombining = false → v = w.2.value) := by
    intro hw
    obtain ⟨u, v, hlog, hv⟩ := hi.calls w hw
    exact ⟨u, v, getElem?_concat hlog e, hv⟩
  rcases h.eff with he | ⟨p, -, he, hp⟩ <;> rw [he] at hw
  · exact hold hw
  · rcases List.mem_append.mp hw with hw | hw
    · exact hold hw
    · rw [List.mem_singleton.mp hw]
      obtain ⟨v, hc, hv⟩ := hp.call
      exact ⟨t, v, getElem?_concat (getElem?_cur hc) e, hv⟩

theorem StepOk.once (hi : WorldInv M x) (h : StepOk M t x m' g' e) : (g'.eff.map Prod.fst).Nodup := by
  rcases h.eff with he | ⟨p, -, he, hp⟩ <;> rw [he]
  · exact hi.once
  · rw [List.map_append]
    refine List.nodup_append.mpr ⟨hi.once, List.nodup_singleton _, fun i hi' j hj => ?_⟩
    obtain ⟨w, hw, rfl⟩ := List.mem_map.mp hi'
    rw [List.mem_singleton.mp hj]
    exact hp.fresh w hw

theorem StepOk.done_next (hi : WorldInv M x) (h : StepOk M t x m' g' e)
    (hF : F.writeCombining = false) (i : Nat) (u : Tid) (k : Key) (v : Value)
    (hlog : (x.log ++ [e])[i]? = some (.call u (.write k v))) :
    i = (lockClock (x.log ++ [e])).cur u ∨ ∃ w ∈ g'.eff, w.1 = i := by
  have hmem : (∃ w ∈ x.ghost.view.eff, w.1 = i) → ∃ w ∈ g'.eff, w.1 = i := by
    rintro ⟨w, hw, rfl⟩
    exact ⟨w, h.eff_mem hw, rfl⟩
  rcases getElem?_concat_iff.mp hlog with hold | ⟨rfl, rfl⟩
  · rcases hi.done hF i u k v hold with hcur | hdone
    · by_cases he : e.isCall u = true
      · cases e with
        | call v' op =>
          have hv : v' = u := by simpa [Event.isCall] using he
          have ht : v' = t := h.tid
          rw [← hv, ht] at hold hcur
          rw [hcur] at hold
          right
          refine hmem ?_
          rw [hcur]
          -- the call at the last position is the last call
          cases hl : lastCall x.log t with
          | none =>
            exfalso
            exact lastCall_ne_none hold hl
          | some op' =>
            have h2 := getElem?_cur hl
            rw [hold] at h2
            cases h2
            exact h.done op (by rw [ht]) hF k v hl
        | act v' c r => cases he
        | ret v' op res => cases he
      · left
        rw [hcur]
        cases e with
        | call v' op =>
          have hv : (Event.call v' op : Event TreeSig TreeOp TreeRes).tid ≠ u := by
            simpa [Event.isCall, Event.tid] using he
          exact (cur_other hv).symm
        | act v' c r => exact cur_act.symm
        | ret v' op res => rw [lockClock_concat, tick_plain rfl]
    · exact Or.inr (hmem hdone)
  · left
    rw [lockClock_concat]
    simp only [LockClock.tick, Function.update_self, lockClock_now]

theorem past_le {i : Nat} (hi : i ≤ x.log.length) : (nextGhost x g').past i = x.ghost.past i :=
  Function.update_of_ne (by omega) ..

theorem past_next : (nextGhost x g').past (x.log.length + 1) = g' := Function.update_self ..

theorem StepOk.returned_next (hi : WorldInv M x) (h : StepOk M t x m' g' e)
    (hF : F.writeCombining = false) (i j : Nat) (u : Tid) (k : Key) (v : Value) (r : TreeRes)
    (hji : j < i) (hil : i ≤ (x.log ++ [e]).length)
    (hlog : (x.log ++ [e])[j]? = some (.ret u (.write k v) r)) :
    ((nextGhost x g').past i).Stored E.hash k := by
  rw [List.length_append, List.length_singleton] at hil
  rcases getElem?_concat_iff.mp hlog with hold | ⟨hj, he⟩
  · have hj : j < x.log.length := (List.getElem?_eq_some_iff.mp hold).1
    by_cases hil' : i ≤ x.log.length
    · rw [past_le hil']
      exact hi.returned hF i j u k v r hji hil' hold
    · have hi' : i = x.log.length + 1 := by omega
      subst hi'
      rw [past_next]
      refine h.step.2.stored k ?_
      have hst := hi.returned hF x.log.length j u k v r hj le_rfl hold
      rwa [hi.past] at hst
  · have hi' : i = x.log.length + 1 := by omega
    have hu : u = t := by
      have := h.tid
      rw [he] at this
      exact this
    subst hi' hu
    rw [past_next]
    have hok := h.answer _ r he
    cases r with
    | done =>
      have hst := (hok hF).1
      rw [hi.past] at hst
      exact h.step.2.stored k hst
    | _ => exact hok.elim

/-- The result of a call depends on the time until its return only. -/
theorem ResultOk.congr {past past' : Nat → TreeView} {i j : Nat} {r : TreeRes}
    (h : ResultOk E F M past i j op r) (hij : i ≤ j) (hp : ∀ d ≤ j, past' d = past d) :
    ResultOk E F M past' i j op r := by
  have hseen : ∀ P : TreeView → Prop, (∃ d, i < d ∧ d ≤ j ∧ P (past d)) →
      ∃ d, i < d ∧ d ≤ j ∧ P (past' d) := by
    rintro P ⟨d, h1, h2, h3⟩
    exact ⟨d, h1, h2, by rwa [hp d h2]⟩
  unfold ResultOk at h ⊢
  split at h
  · rw [hp j le_rfl]
    exact h
  · rw [hp i hij]
    exact fun hF => (h hF).imp_left (hseen fun g => g.Shows E M _)
  · rw [hp i hij]
    exact ⟨fun p hp => ⟨hseen (·.Has p) (h.1 p hp).1, (h.1 p hp).2⟩, h.2⟩
  · exact h.elim

theorem StepOk.answers_next (hi : WorldInv M x) (h : StepOk M t x m' g' e) (j : Nat) (u : Tid)
    (op : TreeOp) (r : TreeRes) (hlog : (x.log ++ [e])[j]? = some (.ret u op r)) :
    ResultOk E F M (nextGhost x g').past ((lockClock ((x.log ++ [e]).take j)).cur u) j op r := by
  rcases getElem?_concat_iff.mp hlog with hold | ⟨rfl, he⟩
  · have hj : j < x.log.length := lt_of_getElem? hold
    rw [List.take_append_of_le_length hj.le]
    refine (hi.answers j u op r hold).congr ?_ fun d hd => past_le (hd.trans hj.le)
    exact (cur_le u).trans (List.length_take_le ..)
  · have hu : u = t := by
      have := h.tid
      rw [he] at this
      exact this
    subst hu
    rw [List.take_left]
    exact (h.answer op r he).congr (cur_le u) fun d hd => past_le hd

theorem StepOk.trail_next (hi : WorldInv M x) (h : StepOk M t x m' g' e) (i : Nat)
    (hil : i ≤ (x.log ++ [e]).length) : EffOk ((nextGhost x g').past i) ∧
      ∀ w ∈ ((nextGhost x g').past i).eff, w.1 < i := by
  rw [List.length_append, List.length_singleton] at hil
  by_cases hil' : i ≤ x.log.length
  · rw [past_le hil']
    exact hi.trail i hil'
  · have hi' : i = x.log.length + 1 := by omega
    subst hi'
    rw [past_next]
    refine ⟨h.step.1.eff, fun w hw => ?_⟩
    have hold : ∀ w ∈ x.ghost.view.eff, w.1 < x.log.length := by
      rw [← hi.past]
      exact (hi.trail _ le_rfl).2
    rcases h.eff with he | ⟨p, -, he, hp⟩ <;> rw [he] at hw
    · exact (hold w hw).trans (Nat.lt_succ_self _)
    · rcases List.mem_append.mp hw with hw | hw
      · exact (hold w hw).trans (Nat.lt_succ_self _)
      · rw [List.mem_singleton.mp hw]
        exact Nat.lt_succ_of_le (cur_le t)

theorem StepOk.grows_next (hi : WorldInv M x) (h : StepOk M t x m' g' e) (i : Nat)
    (hil : i < (x.log ++ [e]).length) :
    ((nextGhost x g').past i).eff <+: ((nextGhost x g').past (i + 1)).eff ∧
    (∀ k, ((nextGhost x g').past i).Stored E.hash k →
      ((nextGhost x g').past (i + 1)).Stored E.hash k) ∧
    ∀ u op, (x.log ++ [e])[i]? = some (.call u op) →
      (nextGhost x g').past (i + 1) = (nextGhost x g').past i := by
  rw [List.length_append, List.length_singleton] at hil
  by_cases hil' : i < x.log.length
  · rw [past_le hil'.le, past_le (Nat.succ_le_of_lt hil'), List.getElem?_append_left hil']
    exact hi.grows i hil'
  · have hi' : i = x.log.length := by omega
    subst hi'
    rw [past_next, past_le le_rfl, hi.past, getElem?_concat_last]
    refine ⟨?_, h.step.2.stored, fun u op he => h.quiet fun c r hc => ?_⟩
    · rcases h.eff with he | ⟨p, -, he, -⟩ <;> rw [he]
      exact List.prefix_append ..
    · rw [hc] at he
      cases he

/-- A step that is all right keeps the discipline. -/
theorem StepOk.does (hi : WorldInv M x) (h : StepOk M t x m' g' e) {R : TreeWorld E F → Prop}
    (hR : R ⟨m', x.log ++ [e], nextGhost x g'⟩) : (treeDisc E F M).Does t x m' e R := by
  refine ⟨nextGhost x g', ?_, ?_, hR⟩
  · exact {
      tree := h.step.1
      snap := by
        intro i u a n hlog
        rcases getElem?_concat_iff.mp hlog with hold | ⟨-, he⟩
        · exact (hi.snap i u a n hold).mono h.step.2.le
        · exact h.snap u a n he
      moving := by
        intro a y s hy hs
        rcases h.moving a y s hy hs with he | ⟨y₀, hy₀, htab, hs₀, he⟩
        · exact rewritten_of_rewrite he
        · rw [← htab] at he ⊢
          exact rewritten_concat (hi.moving a y₀ s hy₀ hs₀) he
      calls := h.calls hi
      once := h.once hi
      done := h.done_next hi
      held := by
        intro w u
        rw [holder_concat]
        exact h.held w u
      order := h.order hi
      copies := by
        intro i d tab htab
        refine CopyAt.mono ?_ h.step.2
        exact (h.copies i d tab htab).elim (hi.copies i d tab) id
      past := by
        rw [List.length_append]
        exact Function.update_self ..
      start := by
        rw [past_le (Nat.zero_le _)]
        exact hi.start
      trail := h.trail_next hi
      grows := h.grows_next hi
      returned := h.returned_next hi
      answers := h.answers_next hi }
  · exact {
      tree := h.step.2
      event := ⟨e, rfl, h.tid, h.law, fun c r he hq => h.quiet (by
        intro c' r' he'
        rw [he] at he'
        cases he'
        exact hq), h.locks, h.fresh⟩
      eff := by
        rcases h.eff with he | ⟨p, -, he, hp⟩
        · exact Or.inl he
        · obtain ⟨v, hc, -⟩ := hp.call
          obtain ⟨a, y, hy⟩ := hp.leaf
          exact Or.inr ⟨p, a, y, _, he, hc, hy⟩
      past := by
        intro i hi
        exact Function.update_of_ne (by omega) .. }

end DMTree
