import DMTree.Conc.Linear
import DMTree.Conc.Proofs.LogProofs

/-!
# Linearizations from instants

`Points.linearizable`: the calls, each at the instant at which it takes effect or at which it looks,
are a linearization.
-/

namespace Conc

variable {S : Sig} {C : Client S} {σ : Type} {l : Log C} {t : Tid} {i j : Nat} {op : C.Op}

/-! ## Open calls -/

theorem openCall_concat {e : Event S C.Op C.Res} :
    openCall (l ++ [e]) t = openStep t l.length (openCall l t) e := by
  have hlen : ∀ (l : Log C) (a : Nat × Option (Nat × C.Op)),
      (l.foldl (fun a e => (a.1 + 1, openStep t a.1 a.2 e)) a).1 = a.1 + l.length := by
    intro l
    induction l with
    | nil => simp
    | cons e l ih =>
      intro a
      rw [List.foldl_cons, ih, List.length_cons]
      omega
  simp [openCall, List.foldl_append, hlen]

/-- An open call stands in the history. -/
theorem getElem?_openCall (h : openCall l t = some (i, op)) : l[i]? = some (.call t op) := by
  induction l using List.reverseRecOn with
  | nil => cases h
  | append_singleton l e ih =>
    rw [openCall_concat] at h
    cases e with
    | call u op' =>
      simp only [openStep] at h
      split at h
      · next hu =>
        cases h
        rw [hu]
        exact getElem?_concat_last ..
      · exact getElem?_concat (ih h) _
    | act u c r => exact getElem?_concat (ih h) _
    | ret u op' r =>
      simp only [openStep] at h
      split at h
      · cases h
      · exact getElem?_concat (ih h) _

/-- An open call comes after the returns of the thread. -/
theorem ret_lt_openCall {op' : C.Op} {res : C.Res} (h : openCall l t = some (i, op))
    (hj : l[j]? = some (.ret t op' res)) : j < i := by
  induction l using List.reverseRecOn with
  | nil => cases h
  | append_singleton l e ih =>
    rw [openCall_concat] at h
    rcases getElem?_concat_iff.mp hj with hold | ⟨-, rfl⟩
    · cases e with
      | call u op'' =>
        simp only [openStep] at h
        split at h
        · cases h
          exact lt_of_getElem? hold
        · exact ih h hold
      | act u c r => exact ih h hold
      | ret u op'' r =>
        simp only [openStep] at h
        split at h
        · cases h
        · exact ih h hold
    · simp [openStep] at h

/-- A call that is open before `j` was made before `j`. -/
theorem call_of_openCall_take (h : openCall (l.take j) t = some (i, op)) :
    i < j ∧ l[i]? = some (.call t op) := by
  have hcall := getElem?_openCall h
  have hij : i < j := by
    have := lt_of_getElem? hcall
    rw [List.length_take] at this
    omega
  rw [List.getElem?_take_of_lt hij] at hcall
  exact ⟨hij, hcall⟩

/-- A call that has returned at `i` is not open after `i`. -/
theorem le_of_openCall_take {p : Nat} {u : Tid} {op' : C.Op} {res : C.Res}
    (hret : l[i]? = some (.ret t op res)) (hopen : openCall (l.take i) t = some (p, op))
    (hopen' : openCall (l.take j) u = some (p, op')) : j ≤ i := by
  obtain ⟨hpi, hcall⟩ := call_of_openCall_take hopen
  obtain ⟨-, hcall'⟩ := call_of_openCall_take hopen'
  rw [hcall] at hcall'
  obtain ⟨rfl, -⟩ := Event.call.inj (Option.some.inj hcall')
  by_contra hij
  rw [not_le] at hij
  rw [← List.getElem?_take_of_lt hij] at hret
  exact absurd (ret_lt_openCall hopen' hret) hpi.not_gt

/-- One more event; a return ends the open call. -/
theorem LogOk.ret_concat {c : Config C σ} (h : LogOk c) {e : Event S C.Op C.Res}
    (he : ∀ t op res, e = .ret t op res → ∃ i, openCall c.log t = some (i, op)) (j : Nat) (t : Tid)
    (op : C.Op) (res : C.Res) (hj : (c.log ++ [e])[j]? = some (.ret t op res)) :
    ∃ i, openCall ((c.log ++ [e]).take j) t = some (i, op) := by
  rcases getElem?_concat_iff.mp hj with hj | ⟨rfl, rfl⟩
  · rw [List.take_append_of_le_length (lt_of_getElem? hj).le]
    exact h.ret j t op res hj
  · rw [List.take_left]
    exact he t op res rfl

/-- The threads after a step of `t` in a call of `op`. -/
theorem LogOk.busy_update {c : Config C σ} (h : LogOk c) {p : Prog S (C.Res × C.Loc)}
    (ht : c.thr t = .busy op p) {p' : Prog S (C.Res × C.Loc)} (u : Tid) (op' : C.Op)
    (q : Prog S (C.Res × C.Loc)) (hu : Function.update c.thr t (.busy op p') u = .busy op' q) :
    ∃ i, openCall c.log u = some (i, op') := by
  by_cases hut : u = t
  · subst hut
    simp only [Function.update_self, Thread.busy.injEq] at hu
    exact hu.1 ▸ h.busy u op p ht
  · rw [Function.update_of_ne hut] at hu
    exact h.busy u op' q hu

theorem LogOk.step {M : Machine S σ} {G : Guard C σ} {c c' : Config C σ} (h : LogOk c)
    (hs : Step M G c c') : LogOk c' := by
  cases hs with
  | @call l t op ht hg =>
    refine ⟨fun u op' p hu => ?_, h.ret_concat fun _ _ _ he => by cases he⟩
    rw [openCall_concat]
    by_cases hut : u = t
    · subst hut
      simp only [Function.update_self, Thread.busy.injEq] at hu
      exact ⟨c.log.length, by simp [openStep, hu.1]⟩
    · simp only [Function.update_of_ne hut] at hu
      simpa [openStep, Ne.symm hut] using h.busy u op' p hu
  | @act op m t cmd k r ht hg he =>
    refine ⟨fun u op' p hu => ?_, h.ret_concat fun _ _ _ he => by cases he⟩
    rw [openCall_concat]
    exact h.busy_update ht u op' p hu
  | @iter op ι β t body y k ht => exact ⟨fun u op' p hu => h.busy_update ht u op' p hu, h.ret⟩
  | @ret op res loc t ht =>
    refine ⟨fun u op' p hu => ?_, h.ret_concat fun _ _ _ he => ?_⟩
    · rw [openCall_concat]
      by_cases hut : u = t
      · subst hut
        simp at hu
      · simp only [Function.update_of_ne hut] at hu
        simpa [openStep, Ne.symm hut] using h.busy u op' p hu
    · cases he
      exact h.busy t op _ ht

/-- Histories of runs are in order. -/
theorem LogOk.reach {M : Machine S σ} {G : Guard C σ} {c₀ c : Config C σ} (h₀ : LogOk c₀)
    (h : Reach M G c₀ c) : LogOk c := by
  induction h with
  | refl => exact h₀
  | tail _ hs ih => exact ih.step hs

/-! ## Runs of an object -/

section Runs

variable {Op Res : Type} {O : Object Op Res} {s s' s'' : O.State} {ops ops' : List (Placed Op Res)}

theorem Object.Runs.append (h : O.Runs s ops s') (h' : O.Runs s' ops' s'') :
    O.Runs s (ops ++ ops') s'' := by
  induction h with
  | nil s => exact h'
  | cons hd _ ih => exact .cons hd (ih h')

/-- Calls that leave the state. -/
theorem Object.Runs.still (h : ∀ a ∈ ops, O.Does s a.op a.res s) : O.Runs s ops s := by
  induction ops with
  | nil => exact .nil s
  | cons a ops ih =>
    obtain ⟨ha, hops⟩ := List.forall_mem_cons.mp h
    exact .cons ha (ih hops)

end Runs

/-! ## Linearizations -/

section Points

variable {O : Object C.Op C.Res} {K : C.Op → Prop} {st : Nat → O.State}
  {upd : Nat → List (Placed C.Op C.Res)} {d d' : Nat} {a a' : Placed C.Op C.Res}

/-- The call that returns at `j` is not among the updates, and `d` is an instant at which it
looks. -/
structure Looks (O : Object C.Op C.Res) (K : C.Op → Prop) (l : Log C) (st : Nat → O.State)
    (upd : Nat → List (Placed C.Op C.Res)) (j d : Nat) (a : Placed C.Op C.Res) : Prop where
  ret : ∃ t, l[j]? = some (.ret t a.op a.res) ∧ openCall (l.take j) t = some (a.pos, a.op)
  kind : K a.op
  other : ∀ d, ∀ b ∈ upd d, b.pos ≠ a.pos
  lt : a.pos < d
  le : d ≤ j
  does : O.Does (st d) a.op a.res (st d)

/-- A call returns once. -/
theorem Looks.inj (h : Looks O K l st upd i d a) (h' : Looks O K l st upd j d' a')
    (hp : a.pos = a'.pos) : i = j := by
  obtain ⟨t, hret, hopen⟩ := h.ret
  obtain ⟨t', hret', hopen'⟩ := h'.ret
  rw [← hp] at hopen'
  exact le_antisymm (le_of_openCall_take hret' hopen' hopen) (le_of_openCall_take hret hopen hopen')

open Classical in
/-- The instant that is chosen for the call that returns at `j`. -/
noncomputable def look (O : Object C.Op C.Res) (K : C.Op → Prop) (l : Log C) (st : Nat → O.State)
    (upd : Nat → List (Placed C.Op C.Res)) (j : Nat) : Option (Nat × Placed C.Op C.Res) :=
  if h : ∃ q : Nat × Placed C.Op C.Res, Looks O K l st upd j q.1 q.2 then some h.choose else none

theorem look_some (h : look O K l st upd j = some (d, a)) : Looks O K l st upd j d a := by
  unfold look at h
  split at h
  · next hq =>
    have := hq.choose_spec
    rw [Option.some.inj h] at this
    exact this
  · cases h

/-- The call that is chosen for `j` is the one that returns there. -/
theorem Looks.chosen (h : Looks O K l st upd j d a) :
    ∃ d', look O K l st upd j = some (d', a) := by
  obtain ⟨⟨d', a'⟩, hq⟩ : ∃ q, look O K l st upd j = some q := by
    unfold look
    rw [dif_pos ⟨(d, a), h⟩]
    exact ⟨_, rfl⟩
  obtain ⟨t, hret, hopen⟩ := h.ret
  obtain ⟨t', hret', hopen'⟩ := (look_some hq).ret
  rw [hret] at hret'
  obtain ⟨rfl, hop, hres⟩ := Event.ret.inj (Option.some.inj hret')
  rw [hopen] at hopen'
  obtain ⟨hpos, -⟩ := Prod.mk.inj (Option.some.inj hopen')
  obtain rfl : a = a' := by
    cases a
    cases a'
    cases hop
    cases hres
    cases hpos
    rfl
  exact ⟨d', hq⟩

/-- The call that looks at the instant `d` and returns at `j`. -/
noncomputable def lookAt (O : Object C.Op C.Res) (K : C.Op → Prop) (l : Log C)
    (st : Nat → O.State) (upd : Nat → List (Placed C.Op C.Res)) (d j : Nat) :
    Option (Placed C.Op C.Res) :=
  (look O K l st upd j).bind fun q => if q.1 = d then some q.2 else none

theorem lookAt_eq_some : lookAt O K l st upd d j = some a ↔ look O K l st upd j = some (d, a) := by
  unfold lookAt
  constructor
  · intro h
    obtain ⟨q, hq, h⟩ := Option.bind_eq_some_iff.mp h
    split at h
    · next hd =>
      cases h
      rw [hq, ← hd]
    · cases h
  · intro h
    rw [h, Option.bind_some, if_pos rfl]

/-- The calls at the instant `d`: first those that change the object. -/
noncomputable def instant (O : Object C.Op C.Res) (K : C.Op → Prop) (l : Log C)
    (st : Nat → O.State) (upd : Nat → List (Placed C.Op C.Res)) (d : Nat) :
    List (Placed C.Op C.Res) :=
  upd d ++ (List.range l.length).filterMap (lookAt O K l st upd d)

theorem mem_instant : a ∈ instant O K l st upd d ↔
    a ∈ upd d ∨ ∃ j < l.length, look O K l st upd j = some (d, a) := by
  simp only [instant, List.mem_append, List.mem_filterMap, List.mem_range, lookAt_eq_some]

namespace Points

variable (h : Points O K l st upd)
include h

/-- A call stands at an instant after it was made and before it returns. -/
theorem instant_call (ha : a ∈ instant O K l st upd d) :
    K a.op ∧ a.pos < d ∧ ∃ t, l[a.pos]? = some (.call t a.op) := by
  rcases mem_instant.mp ha with ha | ⟨j, hj, ha⟩
  · exact h.call d a ha
  · have hl := look_some ha
    obtain ⟨t, hret, hopen⟩ := hl.ret
    exact ⟨hl.kind, hl.lt, t, (call_of_openCall_take hopen).2⟩

theorem instant_ret (ha : a ∈ instant O K l st upd d) {res : C.Res}
    (hret : l[j]? = some (.ret t op res)) (hopen : openCall (l.take j) t = some (a.pos, op)) :
    d ≤ j := by
  rcases mem_instant.mp ha with ha | ⟨j', hj', ha⟩
  · exact h.ret d a ha j t op res hret hopen
  · -- the call has returned at `j'` already
    have hl := look_some ha
    obtain ⟨t', hret', hopen'⟩ := hl.ret
    exact hl.le.trans (le_of_openCall_take hret hopen hopen')

/-- A call that stands before another one was made before that one returned. -/
theorem instant_realTime (hle : d ≤ d') (ha : a ∈ instant O K l st upd d)
    (ha' : a' ∈ instant O K l st upd d') (j : Nat) (t : Tid) (op : C.Op) (res : C.Res)
    (hret : l[j]? = some (.ret t op res)) (hopen : openCall (l.take j) t = some (a'.pos, op)) :
    a.pos < j := by
  have h1 := (h.instant_call ha).2.1
  have h2 := h.instant_ret ha' hret hopen
  omega

theorem instant_once (ha : a ∈ instant O K l st upd d) (ha' : a' ∈ instant O K l st upd d')
    (hp : a.pos = a'.pos) : d = d' := by
  rcases mem_instant.mp ha with ha | ⟨i, hi, ha⟩ <;>
    rcases mem_instant.mp ha' with ha' | ⟨j, hj, ha'⟩
  · exact h.once d d' a a' ha ha' hp
  · exact absurd hp ((look_some ha').other d a ha)
  · exact absurd hp.symm ((look_some ha).other d' a' ha')
  · have hij := (look_some ha).inj (look_some ha') hp
    subst hij
    rw [ha] at ha'
    cases ha'
    rfl

theorem instant_nodup : ((instant O K l st upd d).map Placed.pos).Nodup := by
  unfold instant
  rw [List.map_append]
  refine List.nodup_append.mpr ⟨h.nodup d, ?_, fun p hp q hq => ?_⟩
  · refine List.pairwise_map.mpr (List.pairwise_filterMap.mpr ?_)
    refine List.pairwise_lt_range.imp fun {i j} hij b hb b' hb' hp => ?_
    have := (look_some (lookAt_eq_some.mp hb)).inj (look_some (lookAt_eq_some.mp hb')) hp
    omega
  · obtain ⟨b, hb, rfl⟩ := List.mem_map.mp hp
    obtain ⟨b', hb', rfl⟩ := List.mem_map.mp hq
    obtain ⟨j, -, hj⟩ := List.mem_filterMap.mp hb'
    exact (look_some (lookAt_eq_some.mp hj)).other d b hb

theorem instant_legal (hd : d < l.length) :
    O.Runs (st d) (instant O K l st upd (d + 1)) (st (d + 1)) := by
  refine (h.legal d hd).append (.still fun a ha => ?_)
  obtain ⟨j, -, hj⟩ := List.mem_filterMap.mp ha
  exact (look_some (lookAt_eq_some.mp hj)).does

/-- The calls up to an instant lead to the state of that instant. -/
theorem runs_upTo (n : Nat) (hn : n ≤ l.length) :
    O.Runs O.init ((List.range n).flatMap fun d => instant O K l st upd (d + 1)) (st n) := by
  induction n with
  | zero =>
    rw [← h.start]
    exact .nil _
  | succ n ih =>
    rw [List.range_succ, List.flatMap_append, List.flatMap_singleton]
    exact (ih (by omega)).append (h.instant_legal (by omega))

/-- The calls in the order of their instants are a linearization. -/
theorem linearizable : Linearizable O K l := by
  refine ⟨(List.range l.length).flatMap fun d => instant O K l st upd (d + 1), ?_⟩
  exact {
    calls := by
      intro a ha
      obtain ⟨d, -, ha⟩ := List.mem_flatMap.mp ha
      obtain ⟨hk, -, hcall⟩ := h.instant_call ha
      exact ⟨hk, hcall⟩
    once := by
      refine List.pairwise_map.mpr (List.pairwise_flatMap.mpr ⟨fun d _ => ?_, ?_⟩)
      · exact List.pairwise_map.mp h.instant_nodup
      · refine List.pairwise_lt_range.imp fun {d d'} hlt a ha a' ha' hp => ?_
        have := h.instant_once ha ha' hp
        omega
    complete := by
      intro j t op res hret hk
      obtain ⟨i, hopen, hor⟩ := h.complete j t op res hret hk
      refine ⟨i, hopen, List.mem_flatMap.mpr ?_⟩
      rcases hor with ⟨d, hd, ha⟩ | ⟨hno, d, hlt, hle, hdoes⟩
      · exact ⟨d, List.mem_range.mpr hd, mem_instant.mpr (Or.inl ha)⟩
      · have hl : Looks O K l st upd j d ⟨i, op, res⟩ :=
          ⟨⟨t, hret, hopen⟩, hk, hno, hlt, hle, hdoes⟩
        obtain ⟨d', ha⟩ := hl.chosen
        have hj := lt_of_getElem? hret
        have hlt' := (look_some ha).lt
        have hle' := (look_some ha).le
        refine ⟨d' - 1, List.mem_range.mpr (by omega), mem_instant.mpr (Or.inr ⟨j, hj, ?_⟩)⟩
        rw [ha, Nat.sub_add_cancel (by omega)]
    realTime := by
      refine List.pairwise_flatMap.mpr ⟨fun d _ => ?_, ?_⟩
      · exact List.pairwise_of_forall_mem_list fun a ha b hb => h.instant_realTime le_rfl ha hb
      · exact List.pairwise_lt_range.imp fun {d d'} hlt a ha b hb =>
          h.instant_realTime (Nat.succ_le_succ hlt.le) ha hb
    legal := ⟨_, h.runs_upTo _ le_rfl⟩ }

end Points

end Points

end Conc
