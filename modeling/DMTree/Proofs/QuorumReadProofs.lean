import DMTree.Proofs.FabricProofs
import DMTree.Conc.Proofs.LogProofs

/-!
# Quorum reads of one client

With one client, a call starts when nothing of the call before is on its way. So the mask of a call is
the set of the replicas that were not dropped during it, a write has reached all of them when it
returns, and a read returns what they hold. A quorum that was written and a quorum that is read have a
replica in common.
-/

namespace DMTree.SkipVector

open Conc

variable {V : Type} [DecidableEq V] {n : Nat} {l : ReplicaLog V n} {client : Tid}
  {ev : Event (ReplicaSig V) (ReplicaOp V) (Option (Outcome V))}

/-! ## The invariant -/

/-- A majority of the replicas holds `d`. -/
def MajorityHolds (n : Nat) (word : Nat → V) (d : V) : Prop :=
  ∃ s : Finset Nat, n < 2 * s.card ∧ ∀ i ∈ s, i < n ∧ word i = d

/-- What a call reports: the replicas that were not dropped, and, if it is a read that returns true
after a successful write, the bytes of that write at one of them. -/
def Reports (n : Nat) (last : Option (V × Bool)) (a : GroupCall V) (r : Outcome V) : Prop :=
  r.mask.Is (alive n a.dropMask) ∧ (a.verb = .read → r.ok = true → ∀ d, last = some (d, true) →
    ∃ i, r.mask.getLsbD i = true ∧ r.bufs[i]? = some d)

/-- The invariant of the network and the history; `g` is about the client. -/
structure RangeInv (client : Tid) (m : Fabric V) (l : ReplicaLog V n) (g : CallGhost V) : Prop where
  kind : ∀ e d, g.verb ≠ .cas e d
  wrote : ∀ d, g.verb = .write d → ∀ i ∈ m.past client g, m.word i = d
  answer : g.verb = .read → ∀ i a, (i, a) ∈ m.performed client → a = some (m.word i)
  buf : g.verb = .read → ∀ i ∈ m.cq client ++ g.polled, m.buf client i = m.word i
  last : g.verb = .read → ∀ d, lastWrite l = some (d, true) → MajorityHolds n m.word d
  returns : ∀ (k : Nat) t a r, l[k]? = some (.ret t (.group a) (some r)) →
    Reports n (lastWrite (l.take k)) a r

/-- The discipline of the client and the network. -/
abbrev rangeDisc (V : Type) [DecidableEq V] (n : Nat) (client : Tid) :
    Discipline (replicaClient V n) (Fabric V) (Tid → CallGhost V) where
  machine := fabricMachine
  guard := oneClient V n client
  Inv x := Flights n x.mem x.ghost ∧ (∀ u, u ≠ client → (x.ghost u).posted = []) ∧
    RangeInv client x.mem x.log (x.ghost client)
  Rel t x x' := (∀ u, u ≠ t → x'.ghost u = x.ghost u) ∧
    ((x.ghost client).verb = .read → x'.mem.word = x.mem.word)
  MayFail _ := False

/-! ## Histories -/

/-- The event is not the return of a call of the client. -/
def NoReturn (ev : Event (ReplicaSig V) (ReplicaOp V) (Option (Outcome V))) : Prop :=
  ∀ t a r, ev ≠ .ret t (.group a) (some r)

theorem lastWrite_append (hr : NoReturn ev) : lastWrite (l ++ [ev]) = lastWrite l := by
  rw [lastWrite, List.foldl_append]
  simp only [List.foldl_cons, List.foldl_nil]
  split
  · next heq => exact absurd rfl (hr _ _ _)
  · rfl

theorem lastWrite_ret_write {t : Tid} {a : GroupCall V} {r : Outcome V} {d : V}
    (ha : a.verb = .write d) :
    lastWrite (l ++ [.ret t (.group a) (some r)]) = some (d, r.ok) := by
  obtain ⟨v, _, _⟩ := a
  subst ha
  rw [lastWrite, List.foldl_append]
  rfl

theorem lastWrite_ret_read {t : Tid} {a : GroupCall V} {r : Outcome V} (ha : a.verb = .read) :
    lastWrite (l ++ [.ret t (.group a) (some r)]) = lastWrite l := by
  obtain ⟨v, _, _⟩ := a
  subst ha
  rw [lastWrite, List.foldl_append]
  rfl

/-! ## Steps -/

section Steps

variable {m m' : Fabric V} {g g' : CallGhost V} {t : Tid}

theorem RangeInv.returns_append (h : RangeInv client m l g) (hr : NoReturn ev) (k : Nat) (t : Tid)
    (a : GroupCall V) (r : Outcome V)
    (hk : (l ++ [ev])[k]? = some (Event.ret t (.group a) (some r))) :
    Reports n (lastWrite ((l ++ [ev]).take k)) a r := by
  rcases getElem?_concat_iff.mp hk with hk | ⟨-, rfl⟩
  · rw [List.take_append_of_le_length (lt_of_getElem? hk).le]
    exact h.returns k t a r hk
  · exact absurd rfl (hr t a r)

/-- The call that returns reports as it should. -/
theorem RangeInv.returns_ret (h : RangeInv client m l g) {a : GroupCall V} {r : Outcome V}
    (hrep : Reports n (lastWrite l) a r) (k : Nat) (t' : Tid) (a' : GroupCall V) (r' : Outcome V)
    (hk : (l ++ [Event.ret t (.group a) (some r)])[k]? =
      some (Event.ret t' (.group a') (some r'))) :
    Reports n (lastWrite (n := n) ((l ++ [Event.ret t (ReplicaOp.group a) (some r)]).take k)) a' r' := by
  rcases getElem?_concat_iff.mp hk with hk | ⟨rfl, heq⟩
  · rw [List.take_append_of_le_length (lt_of_getElem? hk).le]
    exact h.returns k t' a' r' hk
  · cases heq
    rwa [List.take_append_of_le_length le_rfl, List.take_length]

/-- A step that changes neither a word nor an answer. -/
theorem RangeInv.frame (h : RangeInv client m l g) (hr : NoReturn ev) (hw : m'.word = m.word)
    (hp : m'.performed = m.performed) (hb : m'.buf = m.buf) (hv : g'.verb = g.verb)
    (hq : ∀ i, i ∈ m'.cq client ++ g'.polled ↔ i ∈ m.cq client ++ g.polled) :
    RangeInv client m' (l ++ [ev]) g' where
  kind := hv ▸ h.kind
  wrote d hd i hi := by
    rw [Fabric.past, hp, List.mem_append, hq, ← List.mem_append] at hi
    rw [hw]
    exact h.wrote d (hv ▸ hd) i hi
  answer hd i a ha := by
    rw [hp] at ha
    rw [hw]
    exact h.answer (hv ▸ hd) i a ha
  buf hd i hi := by
    rw [hb, hw]
    exact h.buf (hv ▸ hd) i ((hq i).mp hi)
  last hd d hl := by
    rw [lastWrite_append hr] at hl
    rw [hw]
    exact h.last (hv ▸ hd) d hl
  returns := h.returns_append hr

/-- A verb of the client is performed. -/
theorem RangeInv.perform (h : RangeInv client m l g) (hr : NoReturn ev) {k i : Nat} :
    RangeInv client (m.performAt client k i g.verb) (l ++ [ev]) g := by
  have hword : g.verb = .read → (m.performAt client k i g.verb).word = m.word := by
    intro hv
    rw [hv]
    exact Function.update_eq_self ..
  refine ⟨h.kind, fun d hd j hj => ?_, fun hd j a ha => ?_, fun hd j hj => ?_, fun hd d hl => ?_,
    h.returns_append hr⟩
  · by_cases hji : j = i
    · subst hji
      simp [Fabric.performAt, hd, Verb.result]
    · have hpast : j ∈ m.past client g := by
        simpa [Fabric.past, Fabric.performAt, hji] using hj
      simpa [Fabric.performAt, Function.update_of_ne hji] using h.wrote d hd j hpast
  · rw [hword hd]
    simp only [Fabric.performAt, Function.update_self, List.mem_append, List.mem_singleton,
      Prod.mk.injEq] at ha
    rcases ha with ha | ⟨rfl, rfl⟩
    · exact h.answer hd j a ha
    · rw [hd]
      rfl
  · rw [hword hd]
    exact h.buf hd j hj
  · rw [lastWrite_append hr] at hl
    rw [hword hd]
    exact h.last hd d hl

/-- A verb of the client completes. -/
theorem RangeInv.deliver (h : RangeInv client m l g) (hr : NoReturn ev) {k i : Nat} {a : Option V}
    (hk : (m.performed client)[k]? = some (i, a)) :
    RangeInv client (m.deliverAt client k i a) (l ++ [ev]) g := by
  refine ⟨h.kind, fun d hd j hj => ?_, fun hd j a' ha => ?_, fun hd j hj => ?_, fun hd d hl => ?_,
    h.returns_append hr⟩
  · have hmove := (Flight.move hk (m.cq client) g.polled).mem_iff (a := j)
    exact h.wrote d hd j (hmove.mp (by simpa [Fabric.past, Fabric.deliverAt] using hj))
  · simp only [Fabric.deliverAt, Function.update_self] at ha
    exact h.answer hd j a' (List.mem_of_mem_eraseIdx ha)
  · simp only [Fabric.deliverAt, Function.update_self] at hj ⊢
    by_cases hji : j = i
    · subst hji
      rw [Function.update_self, h.answer hd j a (List.mem_of_getElem? hk)]
      rfl
    · rw [Function.update_of_ne hji]
      exact h.buf hd j (by simpa [hji] using hj)
  · rw [lastWrite_append hr] at hl
    exact h.last hd d hl

/-- The client makes a call. -/
theorem RangeInv.call (h : RangeInv client m l g) (hfl : Flight m client g) (hd : g.Done)
    (hlast : ∀ d, lastWrite l = some (d, true) → MajorityHolds n m.word d) {a : GroupCall V}
    (ha : ∀ e d, a.verb ≠ .cas e d) :
    RangeInv client m (l ++ [.call t (.group a)]) ⟨a.verb, [], []⟩ := by
  have hr : NoReturn (V := V) (.call t (.group a)) := fun _ _ _ => Event.call_ne_ret
  obtain ⟨-, hperf, hcq, -⟩ := hfl.done hd
  refine ⟨ha, fun d _ i hi => ?_, fun _ i b hb => ?_, fun _ i hi => ?_, fun _ d hl => ?_,
    h.returns_append hr⟩
  · simp [Fabric.past, hperf, hcq] at hi
  · simp [hperf] at hb
  · simp [hcq] at hi
  · rw [lastWrite_append hr] at hl
    exact hlast d hl

/-- A call of the client returns. -/
theorem RangeInv.ret (h : RangeInv client m l g) (hfl : Flight m client g) (hd : g.Done)
    {a : GroupCall V} {r : Outcome V} (hrep : Reports n (lastWrite l) a r)
    (hlast : ∀ d, lastWrite (l ++ [.ret t (.group a) (some r)]) = some (d, true) →
      MajorityHolds n m.word d) :
    RangeInv client m (l ++ [.ret t (.group a) (some r)]) ⟨.read, [], []⟩ := by
  obtain ⟨-, hperf, hcq, -⟩ := hfl.done hd
  refine ⟨nofun, nofun, fun _ i b hb => ?_, fun _ i hi => ?_, fun _ => hlast, h.returns_ret hrep⟩
  · simp [hperf] at hb
  · simp [hcq] at hi

end Steps

/-! ## Outlines -/

section Outlines

variable {v : Verb V} {P M : List Nat}

/-- The client is in a call with the verb `v`, has posted it to `P` and polled the completions of
`M`. -/
def InCall (client : Tid) (v : Verb V) (P M : List Nat)
    (x : World (replicaClient V n) (Fabric V) (Tid → CallGhost V)) : Prop :=
  x.ghost client = ⟨v, P, M⟩

theorem inCall_stable :
    (rangeDisc V n client).Stable client (InCall client v P M) := by
  rintro u x x' hu - - ⟨hg, -⟩ h
  exact (hg client hu.symm).trans h

theorem range_post {i : Nat} (hi : i ∉ P) (hin : i < n) :
    Outline (rangeDisc V n client) client (issue (.post i v)) (InCall client v P [])
      fun _ => InCall client v (P ++ [i]) [] := by
  refine Outline.cmd False.elim (fun _ => inCall_stable) ?_
  rintro x r m ⟨hfl, hoth, hinv⟩ (hx : _ = _) - he
  obtain rfl : x.mem.post client i v = m := by simpa [fabricMachine] using he
  rw [hx] at hinv
  refine ⟨Function.update x.ghost client ⟨v, P ++ [i], []⟩, ⟨?_, fun u hu => ?_, ?_⟩,
    ⟨fun u hu => Function.update_of_ne hu .., fun _ => rfl⟩, Function.update_self ..⟩
  · have hpost := hfl.post (t := client) (v := v) (by rw [hx]) (by rwa [hx]) hin
    rwa [hx] at hpost
  · simpa [Function.update_of_ne hu] using hoth u hu
  · simp only [Function.update_self]
    refine hinv.frame ?_ ?_ ?_ ?_ ?_ ?_
    exacts [fun _ _ _ => Event.act_ne_ret, rfl, rfl, rfl, rfl, fun _ => .rfl]

theorem range_poll (hn : n ≤ 32) :
    Outline (rangeDisc V n client) client (issue (V := V) .ibvPollCq) (InCall client v P M)
      fun wc x => match wc with
        | some ⟨true, i⟩ => i < 32 ∧ InCall client v P (M ++ [i]) x
        | _ => InCall client v P M x := by
  refine Outline.cmd False.elim (fun wc => ?_) ?_
  · rcases wc with _ | ⟨_ | _, i⟩
    · exact inCall_stable
    · exact inCall_stable
    · exact .and (Discipline.stable_const _) inCall_stable
  rintro x r m ⟨hfl, hoth, hinv⟩ (hx : _ = _) - he
  rcases exec_poll he with ⟨-, rfl, rfl⟩ | ⟨i, is, hcq, rfl, rfl⟩
  · exact ⟨x.ghost, ⟨hfl, hoth, hinv.frame (fun _ _ _ => Event.act_ne_ret) rfl rfl rfl rfl fun _ => .rfl⟩,
      ⟨fun _ _ => rfl, fun _ => rfl⟩, hx⟩
  · have hin := hfl.lt client i ((hfl.flight client).polled_mem hcq)
    rw [hx] at hinv
    refine ⟨Function.update x.ghost client ⟨v, P, M ++ [i]⟩, ⟨?_, fun u hu => ?_, ?_⟩,
      ⟨fun u hu => Function.update_of_ne hu .., fun _ => rfl⟩, hin.trans_le hn,
      Function.update_self ..⟩
    · have hpoll := hfl.poll hcq
      rwa [hx] at hpoll
    · simpa [Function.update_of_ne hu] using hoth u hu
    · have hmem : ∀ j, j ∈ Function.update x.mem.cq client is client ++ (M ++ [i]) ↔
          j ∈ x.mem.cq client ++ M := by
        intro j
        simp only [Function.update_self, hcq, List.mem_append, List.mem_cons, List.not_mem_nil,
          or_false]
        tauto
      simp only [Function.update_self]
      refine hinv.frame ?_ ?_ ?_ ?_ ?_ hmem
      exacts [fun _ _ _ => Event.act_ne_ret, rfl, rfl, rfl, rfl]

/-- A group call up to its return. -/
theorem range_run (hn : n ≤ 32) (a : GroupCall V) (ha : ∀ e d, a.verb ≠ .cas e d) :
    Outline (rangeDisc V n client) client (a.run n) (InCall client a.verb [] [])
      fun r x => ∃ M, r.2.Is M ∧ M.length = (alive n a.dropMask).length ∧
        r.1 = decide (popcount r.2 ≥ a.quorum) ∧
        InCall client a.verb (alive n a.dropMask) M x := by
  have hrun : a.run n = do
      let posted ← postAll a.dropMask a.verb (List.range n) 0
      let mask ← waitQuorum posted a.quorum
      return (decide (popcount mask ≥ a.quorum), mask) := by
    cases hv : a.verb with
    | read => rw [GroupCall.run, hv]; rfl
    | write d => rw [GroupCall.run, hv]; rfl
    | cas e d => exact absurd hv (ha e d)
  rw [hrun]
  refine Outline.bind (postAll_outline (F := fun P => InCall client a.verb P []) a.dropMask _
    (List.range n) [] List.nodup_range
    fun P i hi hP => range_post hP (List.mem_range.mp hi)) fun k => ?_
  refine Outline.of_fact (φ := k = (alive n a.dropMask).length) (fun _ _ hx => hx.2) fun hk => ?_
  subst hk
  refine Outline.bind ((waitQuorum_outline
    (F := fun M _ => InCall client a.verb (alive n a.dropMask) M)
    (Q := InCall client a.verb (alive n a.dropMask)) (fun _ _ => inCall_stable)
    (fun M k _ => (range_poll hn).post fun wc x _ hx => ?_) fun M _ x _ hx _ => hx).mono
      fun x _ hx => ⟨0, hx.1⟩) fun mask => Outline.pure ?_
  · rcases wc with _ | ⟨_ | _, i⟩
    · exact ⟨0, fun h => h.elim, hx⟩
    · exact ⟨0, fun h => h.elim, hx⟩
    · exact ⟨hx.1, 0, fun h => h.elim, hx.2⟩
  · rintro x - ⟨M, hmask, hlen, hx⟩
    exact ⟨M, hmask, hlen, rfl, hx⟩

/-- The buffers of a read hold what the replicas hold. -/
def BufsOk (v : Verb V) (M : List Nat) (vs : List V)
    (x : World (replicaClient V n) (Fabric V) (Tid → CallGhost V)) : Prop :=
  v = .read → ∀ j ∈ M, j < vs.length → vs[j]? = some (x.mem.word j)

theorem range_load (vs : List V) :
    Outline (rangeDisc V n client) client (issue (.load vs.length))
      (fun x => InCall client v P M x ∧ BufsOk v M vs x)
      fun b x => InCall client v P M x ∧ BufsOk v M (vs ++ [b]) x := by
  refine Outline.cmd False.elim (fun b => ?_) ?_
  · rintro u x x' hu hi hi' hr ⟨hx, hb⟩
    refine ⟨inCall_stable u x x' hu hi hi' hr hx, fun hv j hj hlt => ?_⟩
    rw [hr.2 (by rw [hx]; exact hv)]
    exact hb hv j hj hlt
  · rintro x b m ⟨hfl, hoth, hinv⟩ ⟨hx, hb⟩ - he
    obtain ⟨rfl, rfl⟩ : x.mem.buf client vs.length = b ∧ x.mem = m := by
      simpa [fabricMachine] using he
    refine ⟨x.ghost, ⟨hfl, hoth, hinv.frame (fun _ _ _ => Event.act_ne_ret) rfl rfl rfl rfl fun _ => .rfl⟩,
      ⟨fun _ _ => rfl, fun _ => rfl⟩, hx, fun hv j hj hlt => ?_⟩
    rw [List.length_append, List.length_singleton] at hlt
    rcases Nat.lt_succ_iff_lt_or_eq.mp hlt with hlt | rfl
    · rw [List.getElem?_append_left hlt]
      exact hb hv j hj hlt
    · rw [InCall] at hx
      have hbuf := hinv.buf (by rw [hx]; exact hv) vs.length (by simp [hx, hj])
      simp [hbuf]

/-- A step of the network. -/
theorem range_network {t : Tid} (ht : t ≠ client) (c : ReplicaCmd V)
    (hc : (∃ u k, c = .perform u k) ∨ ∃ u k, c = .deliver u k) :
    Outline (rangeDisc V n client) t (issue c) (fun x => (x.ghost t).Done)
      fun _ x => (x.ghost t).Done := by
  refine Outline.cmd False.elim (fun _ => ?_) ?_
  · rintro u x x' hu - - ⟨hg, -⟩ h
    rwa [hg t hu.symm]
  rintro x r m ⟨hfl, hoth, hinv⟩ hx - he
  -- only the client has verbs on their way
  have hclient : ∀ u i, i ∈ (x.ghost u).posted → u = client := by
    intro u i hi
    by_contra hu
    rw [hoth u hu] at hi
    cases hi
  rcases hc with ⟨u, k, rfl⟩ | ⟨u, k, rfl⟩
  · obtain ⟨i, v, hk, rfl, rfl⟩ := exec_perform he
    obtain rfl := hclient u i ((hfl.flight u).posted_mem hk)
    obtain rfl := (hfl.flight u).posted_verb hk
    refine ⟨x.ghost, ⟨hfl.perform hk, hoth, hinv.perform fun _ _ _ => Event.act_ne_ret⟩,
      ⟨fun _ _ => rfl, fun hv => ?_⟩, hx⟩
    simp only [Fabric.performAt, hv]
    exact Function.update_eq_self ..
  · obtain ⟨i, a, hk, rfl⟩ := exec_deliver he
    obtain rfl := hclient u i ((hfl.flight u).past_subset (List.mem_append_left _
      (List.mem_map_of_mem (f := Prod.fst) (List.mem_of_getElem? hk))))
    exact ⟨x.ghost, ⟨hfl.deliver hk, hoth, hinv.deliver (fun _ _ _ => Event.act_ne_ret) hk⟩,
      ⟨fun _ _ => rfl, fun _ => rfl⟩, hx⟩

/-- What is known of a call that is about to return. -/
def RangeReturns (client t : Tid) (op : ReplicaOp V) (res : Option (Outcome V))
    (x : World (replicaClient V n) (Fabric V) (Tid → CallGhost V)) : Prop :=
  (x.ghost t).Done ∧ ((∀ a, op ≠ .group a) → t ≠ client) ∧
  ∀ a, op = .group a → t = client ∧ n < 2 * a.quorum ∧ ∃ r M, res = some r ∧
    r.mask.Is M ∧ r.ok = decide (popcount r.mask ≥ a.quorum) ∧ r.bufs.length = n ∧
    InCall client a.verb (alive n a.dropMask) M x ∧ BufsOk a.verb M r.bufs x

/-- What the client reports when it returns. -/
theorem reports_of_returns {x : World (replicaClient V n) (Fabric V) (Tid → CallGhost V)}
    (hfl : Flight x.mem client (x.ghost client)) (hlt : ∀ i ∈ (x.ghost client).posted, i < n)
    (hinv : RangeInv client x.mem x.log (x.ghost client)) {a : GroupCall V} {r : Outcome V}
    {M : List Nat} (hd : (x.ghost client).Done) (hq : n < 2 * a.quorum) (hmask : r.mask.Is M)
    (hok : r.ok = decide (popcount r.mask ≥ a.quorum)) (hlen : r.bufs.length = n)
    (hx : InCall client a.verb (alive n a.dropMask) M x) (hb : BufsOk a.verb M r.bufs x) :
    Reports n (lastWrite x.log) a r := by
  obtain ⟨-, -, -, hall⟩ := hfl.done hd
  rw [InCall] at hx
  rw [hx] at hall hlt
  refine ⟨hmask.congr hall, fun hv htrue d hl => ?_⟩
  obtain ⟨s, hs, hword⟩ := hinv.last (by rw [hx]; exact hv) d hl
  -- the quorum that was read and the one that was written meet
  have hcard : a.quorum ≤ r.mask.toFinset.card := by
    rw [Mask.card_toFinset]
    exact of_decide_eq_true (hok.symm.trans htrue)
  obtain ⟨i, hi⟩ : (s ∩ r.mask.toFinset).Nonempty := by
    refine Finset.inter_nonempty_of_card_lt_card_add_card (s := Finset.range n)
      (fun i hi => Finset.mem_range.mpr (hword i hi).1) (fun i hi => ?_) ?_
    · exact Finset.mem_range.mpr (hlt i ((hall i).mp ((hmask i).mp (Mask.mem_toFinset.mp hi))))
    · rw [Finset.card_range]
      omega
  obtain ⟨h1, h2⟩ := Finset.mem_inter.mp hi
  obtain ⟨hin, rfl⟩ := hword i h1
  have hbit := Mask.mem_toFinset.mp h2
  exact ⟨i, hbit, hb hv i ((hmask i).mp hbit) (hlen ▸ hin)⟩

/-- A write that returns true has reached a majority. -/
theorem majority_of_returns {x : World (replicaClient V n) (Fabric V) (Tid → CallGhost V)}
    (hfl : Flight x.mem client (x.ghost client)) (hlt : ∀ i ∈ (x.ghost client).posted, i < n)
    (hinv : RangeInv client x.mem x.log (x.ghost client)) {a : GroupCall V} {r : Outcome V}
    {M : List Nat} {d : V} (hv : a.verb = .write d) (hd : (x.ghost client).Done)
    (hq : n < 2 * a.quorum) (hmask : r.mask.Is M)
    (hok : r.ok = decide (popcount r.mask ≥ a.quorum))
    (hx : InCall client a.verb (alive n a.dropMask) M x) (htrue : r.ok = true) :
    MajorityHolds n x.mem.word d := by
  obtain ⟨-, -, -, hall⟩ := hfl.done hd
  rw [InCall] at hx
  rw [hx] at hall hlt
  refine ⟨r.mask.toFinset, ?_, fun i hi => ?_⟩
  · have hcard : popcount r.mask ≥ a.quorum := of_decide_eq_true (hok.symm.trans htrue)
    rw [Mask.card_toFinset]
    omega
  · have hM := (hmask i).mp (Mask.mem_toFinset.mp hi)
    refine ⟨hlt i ((hall i).mp hM), hinv.wrote d (by rw [hx]; exact hv) i ?_⟩
    simp [Fabric.past, hx, hM]

/-- The client and the network keep the discipline. -/
theorem range_keeps (hn : n ≤ 32) : Keeps (rangeDisc V n client)
    (fun t _ x => (x.ghost t).Done ∧ (t = client → (x.ghost t).verb = .read))
    (fun t op _ x => (x.ghost t).Done ∧
      ∀ a, op = .group a → t = client ∧ InCall client a.verb [] [] x)
    (fun t op res _ => RangeReturns client t op res) where
  idle_stable := by
    rintro t _ u x x' hu - - ⟨hg, -⟩ h
    rwa [hg t hu.symm]
  pre_stable := by
    rintro t op _ u x x' hu - - ⟨hg, -⟩ ⟨hd, h⟩
    refine ⟨by rwa [hg t hu.symm], fun a ha => ?_⟩
    obtain ⟨rfl, hx⟩ := h a ha
    exact ⟨rfl, (hg t hu.symm).trans hx⟩
  call := by
    rintro t op _ x hg ⟨hfl, hoth, hinv⟩ ⟨hd, hread⟩
    have hnet : (∀ a, op ≠ .group a) →
        (rangeDisc V n client).Does t x x.mem (.call t op) fun x' => (x'.ghost t).Done ∧
          ∀ a, op = .group a → t = client ∧ InCall client a.verb [] [] x' := by
      intro hop
      exact ⟨x.ghost, ⟨hfl, hoth, hinv.frame (fun _ _ _ => Event.call_ne_ret) rfl rfl rfl rfl fun _ => .rfl⟩,
        ⟨fun _ _ => rfl, fun _ => rfl⟩, hd, fun a ha => absurd ha (hop a)⟩
    cases op with
    | perform u k => exact hnet (by simp)
    | deliver u k => exact hnet (by simp)
    | group a =>
      obtain ⟨rfl, ha, hq⟩ := hg
      have hlast := hinv.last (hread rfl)
      refine ⟨Function.update x.ghost t ⟨a.verb, [], []⟩, ⟨hfl.restart hd _, fun u hu => ?_, ?_⟩,
        ⟨fun u hu => Function.update_of_ne hu .., fun _ => rfl⟩, by simp [CallGhost.Done], ?_⟩
      · simpa [Function.update_of_ne hu] using hoth u hu
      · simp only [Function.update_self]
        exact hinv.call (hfl.flight t) hd hlast ha
      · rintro _ ⟨⟩
        exact ⟨rfl, Function.update_self ..⟩
  code := by
    intro t op _ hg
    cases op with
    | perform u k =>
      exact Outline.bind ((range_network hg _ (.inl ⟨u, k, rfl⟩)).mono fun _ _ hx => hx.1)
        fun _ => Outline.pure fun _ _ hx => ⟨hx, fun _ => hg, by simp⟩
    | deliver u k =>
      exact Outline.bind ((range_network hg _ (.inr ⟨u, k, rfl⟩)).mono fun _ _ hx => hx.1)
        fun _ => Outline.pure fun _ _ hx => ⟨hx, fun _ => hg, by simp⟩
    | group a =>
      obtain ⟨rfl, ha, hq⟩ := hg
      refine Outline.bind ((range_run hn a ha).mono fun x _ hx => (hx.2 a rfl).2) fun r => ?_
      refine Outline.of_exists fun M => ?_
      refine Outline.of_fact (φ := r.2.Is M ∧ M.length = (alive n a.dropMask).length ∧
        r.1 = decide (popcount r.2 ≥ a.quorum)) (fun _ _ hx => ⟨hx.1, hx.2.1, hx.2.2.1⟩)
        fun hr => ?_
      obtain ⟨hmask, hlen, hok⟩ := hr
      have hloads := loadAll_outline (D := rangeDisc V n t) (t := t)
        (K := fun vs x => InCall t a.verb (alive n a.dropMask) M x ∧ BufsOk a.verb M vs x)
        range_load n []
      rw [List.length_nil, ← List.range_eq_range'] at hloads
      refine Outline.bind (hloads.mono fun x _ hx => ⟨hx.2.2.2, fun _ _ _ h => absurd h (by simp)⟩)
        fun bufs => Outline.pure fun x _ hx => ?_
      obtain ⟨hbl, hx, hb⟩ := hx
      refine ⟨?_, fun h => absurd rfl (h a), ?_⟩
      · rw [hx]
        exact hlen
      · rintro _ ⟨⟩
        exact ⟨rfl, hq, _, M, rfl, hmask, hok, hbl, hx, hb⟩
  ret := by
    rintro t op res _ x ⟨hfl, hoth, hinv⟩ ⟨hd, hne, hpost⟩
    have hnet : (∀ a, op ≠ .group a) → (rangeDisc V n client).Does t x x.mem (.ret t op res)
        fun x' => (x'.ghost t).Done ∧ (t = client → (x'.ghost t).verb = .read) := by
      intro hop
      have hr : NoReturn (.ret t op res) := by
        rintro _ a _ ⟨⟩
        exact hop a rfl
      exact ⟨x.ghost, ⟨hfl, hoth, hinv.frame hr rfl rfl rfl rfl fun _ => .rfl⟩,
        ⟨fun _ _ => rfl, fun _ => rfl⟩, hd, fun ht => absurd ht (hne hop)⟩
    cases op with
    | perform u k => exact hnet (by simp)
    | deliver u k => exact hnet (by simp)
    | group a =>
      obtain ⟨rfl, hq, r, M, rfl, hmask, hok, hlen, hx, hb⟩ := hpost a rfl
      have hrep := reports_of_returns (hfl.flight t) (hfl.lt t) hinv hd hq hmask hok hlen hx hb
      refine ⟨Function.update x.ghost t ⟨.read, [], []⟩, ⟨hfl.restart hd _, fun u hu => ?_, ?_⟩,
        ⟨fun u hu => Function.update_of_ne hu .., fun _ => rfl⟩, by simp [CallGhost.Done], by simp⟩
      · simpa [Function.update_of_ne hu] using hoth u hu
      · simp only [Function.update_self]
        refine hinv.ret (hfl.flight t) hd hrep fun d hl => ?_
        cases hv : a.verb with
        | read =>
          rw [lastWrite_ret_read hv] at hl
          exact hinv.last (by rw [hx]; exact hv) d hl
        | write d' =>
          rw [lastWrite_ret_write hv, Option.some.injEq, Prod.mk.injEq] at hl
          obtain ⟨rfl, htrue⟩ := hl
          exact majority_of_returns (hfl.flight t) (hfl.lt t) hinv hv hd hq hmask hok hx htrue
        | cas e d' => exact absurd (by rw [hx]; exact hv) (hinv.kind e d')

end Outlines

/-! ## The theorem -/

/-- The mask of every call is the set of the replicas that were not dropped during it; and a read that
returns true after a write that returned true has the bytes of that write from one of them. -/
theorem readAll_sees_lastWrite (hn : n ≤ 32) {word : Nat → V} {buf : Tid → Nat → V}
    {c : ReplicaConfig V n}
    (h : Reach fabricMachine (oneClient V n client) (replicaInit word buf) c) (k : Nat) (t : Tid)
    (a : GroupCall V) (r : Outcome V) (hk : c.log[k]? = some (.ret t (.group a) (some r))) :
    r.mask.Is (alive n a.dropMask) ∧ (a.verb = .read → r.ok = true → ∀ d,
      lastWrite (c.log.take k) = some (d, true) →
        ∃ i, r.mask.getLsbD i = true ∧ r.bufs[i]? = some d) := by
  have h0 : ConfigOk (rangeDisc V n client)
      (fun t _ x => (x.ghost t).Done ∧ (t = client → (x.ghost t).verb = .read))
      (fun t op res _ => RangeReturns client t op res) (replicaInit word buf) := by
    refine ⟨fun _ => ⟨.read, [], []⟩, ⟨.init word buf .read, fun _ _ => rfl, nofun, nofun, ?_, ?_, ?_,
      ?_⟩, fun _ => ⟨rfl, fun _ => rfl⟩⟩
    all_goals simp [replicaInit, Fabric.init, lastWrite]
  obtain ⟨g, ⟨-, -, hinv⟩, -⟩ := (range_keeps hn).reach h0 h
  exact hinv.returns k t a r hk

/-- A write with replica 1 dropped, and then a read with replica 0 dropped. -/
def writeThenRead : List (Move (replicaClient Nat 3)) :=
  [.call 0 (ReplicaOp.group ⟨.write 7, bit 1, 2⟩)] ++ Move.steps 0 2 ++
    network (.perform 0 1) ++ network (.perform 0 0) ++ network (.deliver 0 0) ++
    network (.deliver 0 0) ++ Move.steps 0 9 ++
    [.call 0 (ReplicaOp.group ⟨.read, bit 0, 2⟩)] ++ Move.steps 0 2 ++
    network (.perform 0 0) ++ network (.perform 0 0) ++ network (.deliver 0 1) ++
    network (.deliver 0 0) ++ Move.steps 0 9

/-- The call that the event is the return of. -/
def returnOf : Event (ReplicaSig V) (ReplicaOp V) (Option (Outcome V)) →
    Option (Tid × GroupCall V × Outcome V)
  | .ret t (.group a) (some r) => some (t, a, r)
  | _ => none

omit [DecidableEq V] in
theorem eq_of_returnOf {t : Tid} {a : GroupCall V} {r : Outcome V}
    (h : returnOf ev = some (t, a, r)) : ev = .ret t (.group a) (some r) := by
  unfold returnOf at h
  split at h
  · cases h
    rfl
  · cases h

/-- The theorem at the read of this run, which finds the bytes at replica 2 only. -/
theorem readAll_sees_lastWrite_once : ∃ c : ReplicaConfig Nat 3,
    (Reach fabricMachine (oneClient Nat 3 0) (replicaInit (fun _ => 0) fun _ _ => 0) c ∧
      c.log[41]? = some (.ret 0 (.group ⟨.read, bit 0, 2⟩) (some ⟨true, 6, [0, 0, 7]⟩)) ∧
      lastWrite (c.log.take 41) = some (7, true)) ∧
    Mask.Is 6 (alive 3 (bit 0)) ∧ (Verb.read = (.read : Verb Nat) → true = true → ∀ d,
      lastWrite (c.log.take 41) = some (d, true) →
        ∃ i, (6 : Mask).getLsbD i = true ∧ [0, 0, 7][i]? = some d) := by
  have hev : ((replicaInit (fun _ => 0) fun _ _ => 0).runIf fabricMachine (fun _ _ _ _ => true)
      writeThenRead).map (fun c => (c.log[41]?.bind returnOf, lastWrite (c.log.take 41))) =
      some (some (0, ⟨.read, bit 0, 2⟩, ⟨true, 6, [0, 0, 7]⟩), some (7, true)) := by
    decide +kernel
  obtain ⟨c, hrun, hcheck⟩ := Option.map_eq_some_iff.mp hev
  obtain ⟨hret, hlast⟩ := Prod.mk.injEq .. ▸ hcheck
  obtain ⟨ev, hev', hret⟩ := Option.bind_eq_some_iff.mp hret
  obtain rfl := eq_of_returnOf hret
  have hreach : Reach fabricMachine (oneClient Nat 3 0) (replicaInit (fun _ => 0) fun _ _ => 0) c := by
    refine runIf_reach (fun _ _ _ _ _ => trivial) writeThenRead ?_ hrun
    delta writeThenRead
    simp [network, oneClient]
  have hsees := readAll_sees_lastWrite (by decide) hreach 41 0 _ _ hev'
  exact ⟨c, ⟨hreach, hev', hlast⟩, hsees⟩

end DMTree.SkipVector
