import DMTree.Proofs.FabricProofs
import DMTree.Conc.Proofs.LogProofs

/-!
# At most one winner

At every replica the word never returns to a value it has left, because every value is brought to a
replica by one call only. So at each replica at most one call can win with a given expected value, and
two majorities have a replica in common.
-/

namespace DMTree.SkipVector

open Conc

variable {V : Type} [DecidableEq V] {n : Nat} {word : Nat → V} {l : ReplicaLog V n}
  {ev : Event (ReplicaSig V) (ReplicaOp V) (Option (Outcome V))}

/-! ## Histories of one replica -/

/-- Replica `i` has gone from `e` to another value `d`. -/
def Swapped (l : ReplicaLog V n) (i : Nat) (e d : V) : Prop :=
  e ≠ d ∧ ∃ (k : Nat) (t u : Tid) (j : Nat), l[k]? = some (.act t (.perform u j) ⟨i, e, d⟩)

/-- Replica `i` has held `v`. -/
def Seen (word : Nat → V) (l : ReplicaLog V n) (i : Nat) (v : V) : Prop :=
  v = word i ∨ ∃ e, Swapped l i e v

theorem swapped_append {i : Nat} {e d : V} : Swapped (l ++ [ev]) i e d ↔
    Swapped l i e d ∨ e ≠ d ∧ ∃ t u j, ev = .act t (.perform u j) ⟨i, e, d⟩ := by
  constructor
  · rintro ⟨hne, k, t, u, j, hk⟩
    rcases getElem?_concat_iff.mp hk with hk | ⟨-, rfl⟩
    · exact .inl ⟨hne, k, t, u, j, hk⟩
    · exact .inr ⟨hne, t, u, j, rfl⟩
  · rintro (⟨hne, k, t, u, j, hk⟩ | ⟨hne, t, u, j, rfl⟩)
    · exact ⟨hne, k, t, u, j, getElem?_concat hk ev⟩
    · exact ⟨hne, l.length, t, u, j, getElem?_concat_last l _⟩

theorem Swapped.append {i : Nat} {e d : V} (h : Swapped l i e d)
    (ev : Event (ReplicaSig V) (ReplicaOp V) (Option (Outcome V))) :
    Swapped (l ++ [ev]) i e d := swapped_append.mpr (.inl h)

theorem Swapped.of_take {i k : Nat} {e d : V} (h : Swapped (l.take k) i e d) : Swapped l i e d := by
  obtain ⟨hne, j, t, u, j', hj⟩ := h
  rw [List.getElem?_take] at hj
  split at hj
  · exact ⟨hne, j, t, u, j', hj⟩
  · cases hj

theorem Seen.append {i : Nat} {v : V} (h : Seen word l i v)
    (ev : Event (ReplicaSig V) (ReplicaOp V) (Option (Outcome V))) :
    Seen word (l ++ [ev]) i v := by
  rcases h with h | ⟨e, h⟩
  · exact .inl h
  · exact .inr ⟨e, h.append ev⟩

/-- The event changes no replica. -/
def Still (ev : Event (ReplicaSig V) (ReplicaOp V) (Option (Outcome V))) : Prop :=
  ∀ i e d t u j, e ≠ d → ev ≠ .act t (.perform u j) ⟨i, e, d⟩

omit [DecidableEq V] in
/-- Only commands change replicas. -/
theorem still_of_ne_act (h : ∀ t c r, ev ≠ .act t c r) : Still ev := fun _ _ _ t _ _ _ => h t _ _

omit [DecidableEq V] in
theorem still_act {t : Tid} {c : ReplicaCmd V} {r : c.Resp} (h : ∀ u j, c ≠ .perform u j) :
    Still (V := V) (.act t c r) := by
  intro _ _ _ _ u j _ heq
  cases heq
  exact h u j rfl

theorem Still.swapped (h : Still ev) {i : Nat} {e d : V} :
    Swapped (l ++ [ev]) i e d ↔ Swapped l i e d := by
  rw [swapped_append]
  refine or_iff_left ?_
  rintro ⟨hne, t, u, j, he⟩
  exact h i e d t u j hne he

theorem Still.seen (h : Still ev) {i : Nat} {v : V} :
    Seen word (l ++ [ev]) i v ↔ Seen word l i v :=
  or_congr_right (exists_congr fun _ => h.swapped)

theorem FreshDesired.of_append (h : FreshDesired word (l ++ [ev])) : FreshDesired word l where
  distinct i j t u a b e e' d hi hj :=
    h.distinct i j t u a b e e' d (getElem?_concat hi ev) (getElem?_concat hj ev)
  initial i t a e d hi := h.initial i t a e d (getElem?_concat hi ev)

/-! ## The invariant -/

/-- Client `t` has called with the verb `v`. -/
def Called (l : ReplicaLog V n) (t : Tid) (v : Verb V) : Prop :=
  ∃ (k : Nat) (a : GroupCall V), l[k]? = some (.call t (.group a)) ∧ a.verb = v

/-- The word at the replicas and its history. -/
structure WordOk (word : Nat → V) (l : ReplicaLog V n) (now : Nat → V) : Prop where
  current : ∀ i, Seen word l i (now i)
  left : ∀ i e d, Swapped l i e d → Seen word l i e ∧ e ≠ now i
  once : ∀ i e d d', Swapped l i e d → Swapped l i e d' → d = d'
  called : ∀ i e d, Swapped l i e d → ∃ t e', Called l t (.cas e' d)

/-- The current call of client `u`, a CAS from `e` to `d`. -/
structure ClientOk (word : Nat → V) (l : ReplicaLog V n) (m : Fabric V) (u : Tid) (g : CallGhost V)
    (e d : V) : Prop where
  called : Called l u (.cas e d)
  own : ∀ i < n, Seen word l i d → i ∈ m.past u g
  answer : ∀ i a, (i, a) ∈ m.performed u → ∃ v, a = some v ∧ (v = e → Swapped l i e d)
  buf : ∀ i ∈ m.cq u ++ g.polled, m.buf u i = e → Swapped l i e d

/-- The calls that have returned. -/
structure ReturnsOk (l : ReplicaLog V n) : Prop where
  won : ∀ (k : Nat) t a r e d, l[k]? = some (.ret t (.group a) (some r)) → r.ok = true →
    a.verb = .cas e d → n < 2 * a.quorum ∧ ∃ s : Finset Nat, a.quorum ≤ s.card ∧
      ∀ i ∈ s, i < n ∧ Swapped (l.take k) i e d
  called : ∀ (k : Nat) t a r, l[k]? = some (.ret t (.group a) r) → Called l t a.verb
  once : ∀ (k k' : Nat) t t' a a' r r' e e' d, l[k]? = some (.ret t (.group a) r) →
    l[k']? = some (.ret t' (.group a') r') → a.verb = .cas e d → a'.verb = .cas e' d → k = k'

/-- The invariant of the clients of `cas_all`, as long as the desired values are fresh. -/
structure CasInv (word : Nat → V) (m : Fabric V) (l : ReplicaLog V n) (g : Tid → CallGhost V) :
    Prop where
  words : WordOk word l m.word
  client : ∀ u, (∃ e d, (g u).verb = .cas e d ∧ ClientOk word l m u (g u) e d) ∨
    (g u).verb = .read ∧ (g u).posted = []
  returns : ReturnsOk l

/-- The discipline of the clients. -/
abbrev casDisc (word : Nat → V) (n : Nat) :
    Discipline (replicaClient V n) (Fabric V) (Tid → CallGhost V) where
  machine := fabricMachine
  guard := casOnly V n
  Inv x := Flights n x.mem x.ghost ∧ (FreshDesired word x.log → CasInv word x.mem x.log x.ghost)
  Rel t x x' := (∃ ev, x'.log = x.log ++ [ev] ∧ ev.tid = t ∧
    ∀ a r, ev = .ret t (.group a) r → Called x.log t a.verb) ∧ ∀ u, u ≠ t → x'.ghost u = x.ghost u
  MayFail _ := False

section
variable {t : Tid} {x : World (replicaClient V n) (Fabric V) (Tid → CallGhost V)} {m : Fabric V}
  {g : Tid → CallGhost V}

theorem casRel_act {c : ReplicaCmd V} {r : c.Resp} (hg : ∀ u, u ≠ t → g u = x.ghost u) :
    (casDisc word n).Rel t x ⟨m, x.log ++ [.act t c r], g⟩ :=
  ⟨⟨_, rfl, rfl, fun _ _ heq => absurd heq Event.act_ne_ret⟩, hg⟩

theorem casRel_call {op : ReplicaOp V} (hg : ∀ u, u ≠ t → g u = x.ghost u) :
    (casDisc word n).Rel t x ⟨m, x.log ++ [.call t op], g⟩ :=
  ⟨⟨_, rfl, rfl, fun _ _ heq => absurd heq Event.call_ne_ret⟩, hg⟩

end

theorem Called.append {t : Tid} {v : Verb V} (h : Called l t v)
    (ev : Event (ReplicaSig V) (ReplicaOp V) (Option (Outcome V))) : Called (l ++ [ev]) t v := by
  obtain ⟨k, a, hk, hv⟩ := h
  exact ⟨k, a, getElem?_concat hk ev, hv⟩

/-- Two clients with the same desired value are the same. -/
theorem Called.unique (hf : FreshDesired word l) {t u : Tid} {e e' d : V}
    (h : Called l t (.cas e d)) (h' : Called l u (.cas e' d)) : t = u ∧ e = e' := by
  obtain ⟨k, a, hk, hv⟩ := h
  obtain ⟨k', a', hk', hv'⟩ := h'
  obtain rfl := hf.distinct k k' t u a a' e e' d hk hk' hv hv'
  obtain ⟨rfl, rfl⟩ : t = u ∧ a = a' := by simpa using hk.symm.trans hk'
  exact ⟨rfl, by simpa using hv.symm.trans hv'⟩

theorem Called.not_initial (hf : FreshDesired word l) {t : Tid} {e d : V}
    (h : Called l t (.cas e d)) {i : Nat} (hi : i < n) : word i ≠ d := by
  obtain ⟨k, a, hk, hv⟩ := h
  exact hf.initial k t a e d hk hv i hi

/-! ## Steps -/

theorem WordOk.still {now : Nat → V} (h : WordOk word l now) (hs : Still ev) :
    WordOk word (l ++ [ev]) now where
  current i := (h.current i).append ev
  left i e d hsw := by
    obtain ⟨h1, h2⟩ := h.left i e d (hs.swapped.mp hsw)
    exact ⟨h1.append ev, h2⟩
  once i e d d' h1 h2 := h.once i e d d' (hs.swapped.mp h1) (hs.swapped.mp h2)
  called i e d hsw := by
    obtain ⟨t, e', hc⟩ := h.called i e d (hs.swapped.mp hsw)
    exact ⟨t, e', hc.append ev⟩

/-- A replica goes to a value that it has not held. -/
theorem WordOk.swap {now : Nat → V} (h : WordOk word l now) {i : Nat} {d e' : V} {t u c : Tid}
    {k : Nat} (hd : ¬ Seen word l i d) (hc : Called l c (.cas e' d)) :
    WordOk word (l ++ [.act t (.perform u k) ⟨i, now i, d⟩]) (Function.update now i d) := by
  have hne : now i ≠ d := fun heq => hd (heq ▸ h.current i)
  have hsw : ∀ {j : Nat} {e d' : V}, Swapped (l ++ [.act t (.perform u k) ⟨i, now i, d⟩]) j e d' →
      Swapped l j e d' ∨ j = i ∧ e = now i ∧ d' = d := by
    intro j e d' hs
    rcases swapped_append.mp hs with hs | ⟨-, t', u', j', he⟩
    · exact .inl hs
    · cases he
      exact .inr ⟨rfl, rfl, rfl⟩
  refine ⟨fun j => ?_, fun j e d' hs => ?_, fun j e d₁ d₂ h₁ h₂ => ?_, fun j e d' hs => ?_⟩
  · by_cases hj : j = i
    · subst hj
      rw [Function.update_self]
      exact .inr ⟨now j, swapped_append.mpr (.inr ⟨hne, t, u, k, rfl⟩)⟩
    · rw [Function.update_of_ne hj]
      exact (h.current j).append _
  · rcases hsw hs with hs | ⟨rfl, rfl, rfl⟩
    · obtain ⟨hseen, hnow⟩ := h.left j e d' hs
      refine ⟨hseen.append _, ?_⟩
      by_cases hj : j = i
      · subst hj
        rw [Function.update_self]
        rintro rfl
        exact hd hseen
      · rwa [Function.update_of_ne hj]
    · rw [Function.update_self]
      exact ⟨(h.current j).append _, hne⟩
  · rcases hsw h₁ with h₁' | ⟨hj₁, he₁, hd₁⟩ <;> rcases hsw h₂ with h₂' | ⟨hj₂, he₂, hd₂⟩
    · exact h.once j e d₁ d₂ h₁' h₂'
    · exact absurd (hj₂ ▸ he₂) (h.left j e d₁ h₁').2
    · exact absurd (hj₁ ▸ he₁) (h.left j e d₂ h₂').2
    · rw [hd₁, hd₂]
  · rcases hsw hs with hs | ⟨rfl, rfl, rfl⟩
    · obtain ⟨t', e'', hc'⟩ := h.called j e d' hs
      exact ⟨t', e'', hc'.append _⟩
    · exact ⟨c, e', hc.append _⟩

/-- The part of the network that concerns the current call of client `u` stays as it is, and so do the
values it may find at the replicas. -/
theorem ClientOk.frame {m m' : Fabric V} {u : Tid} {g g' : CallGhost V} {e d : V}
    (h : ClientOk word l m u g e d) (hseen : ∀ i < n, Seen word (l ++ [ev]) i d → Seen word l i d)
    (hp : m'.performed u = m.performed u) (hb : m'.buf u = m.buf u)
    (hq : ∀ i, i ∈ m'.cq u ++ g'.polled ↔ i ∈ m.cq u ++ g.polled) :
    ClientOk word (l ++ [ev]) m' u g' e d where
  called := h.called.append ev
  own i hi hs := by
    have := h.own i hi (hseen i hi hs)
    rw [Fabric.past, List.mem_append] at this ⊢
    rwa [hp, hq]
  answer i a hi := by
    obtain ⟨v, hv, hs⟩ := h.answer i a (hp ▸ hi)
    exact ⟨v, hv, fun he => (hs he).append ev⟩
  buf i hi he := (h.buf i ((hq i).mp hi) (hb ▸ he)).append ev

theorem ReturnsOk.other (h : ReturnsOk l) (hr : ∀ t a r, ev ≠ .ret t (.group a) r) :
    ReturnsOk (l ++ [ev]) := by
  have hold : ∀ {k : Nat} {t : Tid} {a : GroupCall V} {r : Option (Outcome V)},
      (l ++ [ev])[k]? = some (.ret t (.group a) r) → l[k]? = some (.ret t (.group a) r) := by
    intro k t a r hk
    rcases getElem?_concat_iff.mp hk with hk | ⟨-, rfl⟩
    · exact hk
    · exact absurd rfl (hr t a r)
  refine ⟨fun k t a r e d hk => ?_, fun k t a r hk => (h.called k t a r (hold hk)).append ev,
    fun k k' t t' a a' r r' e e' d hk hk' => h.once k k' t t' a a' r r' e e' d (hold hk) (hold hk')⟩
  rw [List.take_append_of_le_length (lt_of_getElem? (hold hk)).le]
  exact h.won k t a r e d (hold hk)

/-- A call returns: nobody has returned with its desired value, and if it has won there is a majority
of replicas at which it has. -/
theorem ReturnsOk.ret (h : ReturnsOk l) {t : Tid} {a : GroupCall V} {r : Outcome V} {e d : V}
    (hv : a.verb = .cas e d) (hc : Called l t a.verb)
    (hno : ∀ (k : Nat) t' a' r' e', l[k]? = some (.ret t' (.group a') r') → a'.verb ≠ .cas e' d)
    (hwon : r.ok = true → n < 2 * a.quorum ∧ ∃ s : Finset Nat, a.quorum ≤ s.card ∧
      ∀ i ∈ s, i < n ∧ Swapped l i e d) :
    ReturnsOk (l ++ [.ret t (.group a) (some r)]) := by
  refine ⟨fun k t' a' r' e' d' hk hok hv' => ?_, fun k t' a' r' hk => ?_,
    fun k k' t₁ t₂ a₁ a₂ r₁ r₂ e₁ e₂ d' hk hk' hv₁ hv₂ => ?_⟩
  · rcases getElem?_concat_iff.mp hk with hk | ⟨rfl, he⟩
    · rw [List.take_append_of_le_length (lt_of_getElem? hk).le]
      exact h.won k t' a' r' e' d' hk hok hv'
    · cases he
      rw [List.take_append_of_le_length le_rfl, List.take_length]
      obtain ⟨rfl, rfl⟩ : e = e' ∧ d = d' := by simpa using hv.symm.trans hv'
      exact hwon hok
  · rcases getElem?_concat_iff.mp hk with hk | ⟨rfl, he⟩
    · exact (h.called k t' a' r' hk).append _
    · cases he
      exact hc.append _
  · rcases getElem?_concat_iff.mp hk with hk | ⟨hkl, he⟩ <;>
      rcases getElem?_concat_iff.mp hk' with hk' | ⟨hkl', he'⟩
    · exact h.once k k' t₁ t₂ a₁ a₂ r₁ r₂ e₁ e₂ d' hk hk' hv₁ hv₂
    · cases he'
      obtain ⟨-, rfl⟩ : e = e₂ ∧ d = d' := by simpa using hv.symm.trans hv₂
      exact absurd hv₁ (hno k t₁ a₁ r₁ e₁ hk)
    · cases he
      obtain ⟨-, rfl⟩ : e = e₁ ∧ d = d' := by simpa using hv.symm.trans hv₁
      exact absurd hv₂ (hno k' t₂ a₂ r₂ e₂ hk')
    · rw [hkl, hkl']

/-- The own CAS of client `u` is performed at replica `i`. -/
theorem ClientOk.perform {m : Fabric V} {u : Tid} {g : CallGhost V} {e d : V} {i k : Nat}
    (h : ClientOk word l m u g e d)
    (hseen : ∀ j < n, Seen word (l ++ [ev]) j d → Seen word l j d ∨ j = i)
    (hans : m.word i = e → Swapped (l ++ [ev]) i e d) :
    ClientOk word (l ++ [ev]) (m.performAt u k i (.cas e d)) u g e d where
  called := h.called.append ev
  own j hj hs := by
    simp only [Fabric.past, Fabric.performAt, Function.update_self, List.map_append, List.map_cons,
      List.map_nil, List.append_assoc, List.mem_append, List.mem_singleton]
    rcases hseen j hj hs with hs | rfl
    · have := h.own j hj hs
      simp only [Fabric.past, List.mem_append] at this
      tauto
    · exact .inr (.inl rfl)
  answer j a ha := by
    simp only [Fabric.performAt, Function.update_self, List.mem_append, List.mem_singleton,
      Prod.mk.injEq] at ha
    rcases ha with ha | ⟨rfl, rfl⟩
    · obtain ⟨v, hv, hs⟩ := h.answer j a ha
      exact ⟨v, hv, fun he => (hs he).append ev⟩
    · exact ⟨m.word j, rfl, hans⟩
  buf j hj he := (h.buf j hj he).append ev

/-- A verb is performed. -/
theorem CasInv.perform {m : Fabric V} {g : Tid → CallGhost V} (h : CasInv word m l g)
    (hfl : Flights n m g) (hf : FreshDesired word l) (t : Tid) {u : Tid} {k i : Nat} {v : Verb V}
    (hk : (m.posted u)[k]? = some (i, v)) :
    CasInv word (m.performAt u k i v)
      (l ++ [.act t (.perform u k) ⟨i, m.word i, v.result (m.word i)⟩]) g := by
  have hi := (hfl.flight u).posted_mem hk
  obtain ⟨e, d, hv, hu⟩ : ∃ e d, (g u).verb = .cas e d ∧ ClientOk word l m u (g u) e d := by
    rcases h.client u with hu | ⟨-, hnil⟩
    · exact hu
    · rw [hnil] at hi
      cases hi
  obtain rfl : v = .cas e d := ((hfl.flight u).posted_verb hk).trans hv
  have hd : ¬ Seen word l i d := fun hs => (hfl.flight u).not_past hk (hu.own i (hfl.lt u i hi) hs)
  -- the invariant of the other clients and of the calls does not depend on the outcome
  have hrest : ∀ d', (∀ j v', Seen word (l ++ [.act t (.perform u k) ⟨i, m.word i, d'⟩]) j v' →
        Seen word l j v' ∨ j = i ∧ v' = d) →
      WordOk word (l ++ [.act t (.perform u k) ⟨i, m.word i, d'⟩])
        (Function.update m.word i d') →
      (m.word i = e → Swapped (l ++ [.act t (.perform u k) ⟨i, m.word i, d'⟩]) i e d) →
      (Verb.cas e d).result (m.word i) = d' →
      CasInv word (m.performAt u k i (.cas e d))
        (l ++ [.act t (.perform u k) ⟨i, m.word i, d'⟩]) g := by
    intro d' hseen hwords hans hres
    refine ⟨by rw [Fabric.performAt, hres]; exact hwords, fun w => ?_,
      h.returns.other fun _ _ _ => Event.act_ne_ret⟩
    by_cases hw : w = u
    · subst hw
      exact .inl ⟨e, d, hv, hu.perform (fun j _ hs => (hseen j d hs).imp_right And.left) hans⟩
    · refine (h.client w).imp_left ?_
      rintro ⟨e', d'', hv', hw'⟩
      refine ⟨e', d'', hv', hw'.frame (fun j _ hs => ?_) (Function.update_of_ne hw ..) rfl
        fun _ => .rfl⟩
      rcases hseen j d'' hs with hs | ⟨-, rfl⟩
      · exact hs
      · exact absurd (hw'.called.unique hf hu.called).1 hw
  by_cases he : m.word i = e
  · have hres : (Verb.cas e d).result (m.word i) = d := by simp [Verb.result, he]
    rw [hres]
    have hne : m.word i ≠ d := fun heq => hd (heq ▸ h.words.current i)
    refine hrest d (fun j v' hs => ?_) (h.words.swap hd hu.called) (fun _ => ?_) hres
    · rcases hs with hs | ⟨e', hs⟩
      · exact .inl (.inl hs)
      · rcases swapped_append.mp hs with hs | ⟨-, t', u', j', heq⟩
        · exact .inl (.inr ⟨e', hs⟩)
        · cases heq
          exact .inr ⟨rfl, rfl⟩
    · exact swapped_append.mpr (.inr ⟨he ▸ hne, t, u, k, by rw [he]⟩)
  · have hres : (Verb.cas e d).result (m.word i) = m.word i := by simp [Verb.result, he]
    rw [hres]
    have hstill : Still (.act t (.perform u k) ⟨i, m.word i, m.word i⟩ :
        Event (ReplicaSig V) (ReplicaOp V) (Option (Outcome V))) := by
      intro j e' d' t' u' j' hne heq
      cases heq
      exact hne rfl
    refine hrest _ (fun j v' hs => .inl (hstill.seen.mp hs)) ?_ (fun he' => absurd he' he) hres
    rw [Function.update_eq_self]
    exact h.words.still hstill

/-- A verb completes. -/
theorem CasInv.deliver {m : Fabric V} {g : Tid → CallGhost V} (h : CasInv word m l g)
    (hfl : Flights n m g) (t : Tid) {u : Tid} {k i : Nat} {a : Option V} (hk : (m.performed u)[k]? = some (i, a)) :
    CasInv word (m.deliverAt u k i a) (l ++ [.act t (.deliver u k) ()]) g := by
  have hstill : Still (.act t (.deliver u k) () :
      Event (ReplicaSig V) (ReplicaOp V) (Option (Outcome V))) := by
    intro _ _ _ _ _ _ _ heq
    cases heq
  refine ⟨h.words.still hstill, fun w => ?_,
    h.returns.other fun _ _ _ => Event.act_ne_ret⟩
  refine (h.client w).imp_left ?_
  rintro ⟨e, d, hv, hw⟩
  refine ⟨e, d, hv, ?_⟩
  by_cases hwu : w = u
  · subst hwu
    have hi := (hfl.flight w).not_completed hk
    refine ⟨hw.called.append _, fun j hj hs => ?_, fun j a' ha => ?_, fun j hj hb => ?_⟩
    · have hpast := hw.own j hj (hstill.seen.mp hs)
      have hmove := (Flight.move hk (m.cq w) (g w).polled).mem_iff (a := j)
      simpa [Fabric.past, Fabric.deliverAt] using hmove.mpr hpast
    · simp only [Fabric.deliverAt, Function.update_self] at ha
      obtain ⟨v, hv', hs⟩ := hw.answer j a' (List.mem_of_mem_eraseIdx ha)
      exact ⟨v, hv', fun he => (hs he).append _⟩
    · simp only [Fabric.deliverAt, Function.update_self] at hb hj
      by_cases hji : j = i
      · subst hji
        obtain ⟨v, rfl, hs⟩ := hw.answer j a (List.mem_of_getElem? hk)
        rw [Function.update_self] at hb
        exact (hs hb).append _
      · rw [Function.update_of_ne hji] at hb
        refine (hw.buf j ?_ hb).append _
        simpa [hji] using hj
  · refine hw.frame (fun j _ hs => hstill.seen.mp hs) (Function.update_of_ne hwu ..)
      (Function.update_of_ne hwu ..) fun j => ?_
    simp only [Fabric.deliverAt, Function.update_of_ne hwu]

/-- A step that changes no word and nothing of the current calls. -/
theorem CasInv.still {m : Fabric V} {g : Tid → CallGhost V} (h : CasInv word m l g) (hs : Still ev)
    (hr : ∀ t a r, ev ≠ .ret t (.group a) r) : CasInv word m (l ++ [ev]) g := by
  refine ⟨h.words.still hs, fun u => (h.client u).imp_left ?_, h.returns.other hr⟩
  rintro ⟨e, d, hv, hu⟩
  exact ⟨e, d, hv, hu.frame (fun j _ hj => hs.seen.mp hj) rfl rfl fun _ => .rfl⟩

/-- Client `t` posts its verb or polls a completion. -/
theorem CasInv.own {m m' : Fabric V} {g : Tid → CallGhost V} (h : CasInv word m l g) (hs : Still ev)
    (hr : ∀ t a r, ev ≠ .ret t (.group a) r) (hw : m'.word = m.word)
    (hp : m'.performed = m.performed) (hb : m'.buf = m.buf) {t : Tid} {e d : V}
    {P M P' M' : List Nat} (hg : g t = ⟨.cas e d, P, M⟩) (hcq : ∀ u, u ≠ t → m'.cq u = m.cq u)
    (hq : ∀ i, i ∈ m'.cq t ++ M' ↔ i ∈ m.cq t ++ M) :
    CasInv word m' (l ++ [ev]) (Function.update g t ⟨.cas e d, P', M'⟩) := by
  refine ⟨hw ▸ h.words.still hs, fun u => ?_, h.returns.other hr⟩
  by_cases hu : u = t
  · subst hu
    rw [Function.update_self]
    rcases h.client u with ⟨e', d', hv, hc⟩ | ⟨hv, -⟩
    · rw [hg] at hv hc
      cases hv
      exact .inl ⟨e, d, rfl, hc.frame (fun j _ hj => hs.seen.mp hj) (by rw [hp]) (by rw [hb]) hq⟩
    · rw [hg] at hv
      cases hv
  · rw [Function.update_of_ne hu]
    refine (h.client u).imp_left ?_
    rintro ⟨e', d', hv, hc⟩
    exact ⟨e', d', hv, hc.frame (fun j _ hj => hs.seen.mp hj) (by rw [hp]) (by rw [hb])
      fun i => by rw [hcq u hu]⟩

/-- A client makes a call. -/
theorem CasInv.call {m : Fabric V} {g : Tid → CallGhost V} (h : CasInv word m l g)
    (hfl : Flights n m g) {t : Tid} (hd : (g t).Done) {a : GroupCall V} {e d : V}
    (hv : a.verb = .cas e d) (hf : FreshDesired word (l ++ [.call t (.group a)])) :
    CasInv word m (l ++ [.call t (.group a)])
      (Function.update g t ⟨.cas e d, [], []⟩) := by
  have hs : Still (V := V) (.call t (.group a)) := still_of_ne_act (by simp)
  have hcalled : Called (l ++ [.call t (.group a)]) t (.cas e d) :=
    ⟨l.length, a, getElem?_concat_last l _, hv⟩
  obtain ⟨-, hperf, hcq, -⟩ := (hfl.flight t).done hd
  refine ⟨h.words.still hs, fun u => ?_, h.returns.other fun _ _ _ => Event.call_ne_ret⟩
  by_cases hu : u = t
  · subst hu
    rw [Function.update_self]
    refine .inl ⟨e, d, rfl, hcalled, fun i hi hseen => ?_, ?_, ?_⟩
    · -- a replica that has held the new value would have got it from an earlier call
      rcases hs.seen.mp hseen with rfl | ⟨e', hsw⟩
      · exact absurd rfl (hcalled.not_initial hf hi)
      · obtain ⟨t', e'', k, a', hk, hv'⟩ := h.words.called i e' d hsw
        have hlt := lt_of_getElem? hk
        have := hf.distinct k l.length t' u a' a e'' e d (getElem?_concat hk _)
          (getElem?_concat_last l _) hv' hv
        omega
    · simp [hperf]
    · simp [hcq]
  · rw [Function.update_of_ne hu]
    refine (h.client u).imp_left ?_
    rintro ⟨e', d', hv', hu'⟩
    exact ⟨e', d', hv', hu'.frame (fun j _ hj => hs.seen.mp hj) rfl rfl fun _ => .rfl⟩

/-- A call returns. -/
theorem CasInv.ret {m : Fabric V} {g : Tid → CallGhost V} (h : CasInv word m l g) {t : Tid}
    {a : GroupCall V} {r : Outcome V} {e d : V} (hv : a.verb = .cas e d) (hc : Called l t a.verb)
    (hno : ∀ (k : Nat) t' a' r' e', l[k]? = some (.ret t' (.group a') r') → a'.verb ≠ .cas e' d)
    (hwon : r.ok = true → n < 2 * a.quorum ∧ ∃ s : Finset Nat, a.quorum ≤ s.card ∧
      ∀ i ∈ s, i < n ∧ Swapped l i e d) :
    CasInv word m (l ++ [.ret t (.group a) (some r)]) g := by
  have hs : Still (V := V) (.ret t (.group a) (some r)) := still_of_ne_act (by simp)
  refine ⟨h.words.still hs, fun u => (h.client u).imp_left ?_, h.returns.ret hv hc hno hwon⟩
  rintro ⟨e', d', hv', hu'⟩
  exact ⟨e', d', hv', hu'.frame (fun j _ hj => hs.seen.mp hj) rfl rfl fun _ => .rfl⟩

/-! ## Outlines -/

section Outlines

variable {t : Tid} {e d : V} {P M : List Nat}

/-- Client `t` is in a CAS from `e` to `d`, has posted it to `P` and polled the completions of `M`;
no call with this desired value has returned. -/
structure InCas (word : Nat → V) (t : Tid) (e d : V) (P M : List Nat)
    (x : World (replicaClient V n) (Fabric V) (Tid → CallGhost V)) : Prop where
  ghost : x.ghost t = ⟨.cas e d, P, M⟩
  called : Called x.log t (.cas e d)
  fresh : FreshDesired word x.log → ∀ (k : Nat) t' a' r' e',
    x.log[k]? = some (.ret t' (.group a') r') → a'.verb ≠ .cas e' d

theorem inCas_stable : (casDisc word n).Stable t (InCas word t e d P M) := by
  rintro u x x' hu - - ⟨⟨ev, hl, htid, hret⟩, hg⟩ h
  refine ⟨(hg t hu.symm).trans h.ghost, hl ▸ h.called.append ev, fun hf k t' a' r' e' hk hv => ?_⟩
  rw [hl] at hf hk
  rcases getElem?_concat_iff.mp hk with hk | ⟨-, rfl⟩
  · exact h.fresh hf.of_append k t' a' r' e' hk hv
  · obtain rfl : t' = u := htid
    have hc := hret a' r' rfl
    rw [hv] at hc
    exact hu (hc.unique hf.of_append h.called).1

/-- An own command. -/
theorem InCas.act {x : World (replicaClient V n) (Fabric V) (Tid → CallGhost V)}
    (h : InCas word t e d P M x) {P' M' : List Nat} (m : Fabric V) (c : ReplicaCmd V) (r : c.Resp)
    {g : Tid → CallGhost V} (hg : g t = ⟨.cas e d, P', M'⟩) :
    InCas word t e d P' M' ⟨m, x.log ++ [.act t c r], g⟩ := by
  refine ⟨hg, h.called.append _, fun hf k t' a' r' e' hk => ?_⟩
  rcases getElem?_concat_iff.mp hk with hk | ⟨-, heq⟩
  · exact h.fresh hf.of_append k t' a' r' e' hk
  · cases heq

theorem cas_post {i : Nat} (hi : i ∉ P) (hin : i < n) :
    Outline (casDisc word n) t (issue (.post i (.cas e d))) (InCas word t e d P [])
      fun _ => InCas word t e d (P ++ [i]) [] := by
  refine Outline.cmd False.elim (fun _ => inCas_stable) ?_
  rintro x r m ⟨hfl, hinv⟩ hx - he
  obtain rfl : x.mem.post t i (.cas e d) = m := by simpa [fabricMachine] using he
  refine ⟨Function.update x.ghost t ⟨.cas e d, P ++ [i], []⟩, ⟨?_, fun hf => ?_⟩,
    casRel_act fun u hu => Function.update_of_ne hu ..,
    hx.act _ _ _ (Function.update_self ..)⟩
  · have hpost := hfl.post (t := t) (v := .cas e d) (by rw [hx.ghost]) (by rwa [hx.ghost]) hin
    rwa [hx.ghost] at hpost
  · refine (hinv hf.of_append).own ?_ ?_ ?_ ?_ ?_ hx.ghost ?_ ?_
    exacts [still_act (by simp), fun _ _ _ => Event.act_ne_ret, rfl, rfl, rfl, fun _ _ => rfl,
      fun _ => .rfl]

theorem cas_poll (hn : n ≤ 32) :
    Outline (casDisc word n) t (issue (V := V) .ibvPollCq) (InCas word t e d P M)
      fun wc x => match wc with
        | some ⟨true, i⟩ => i < 32 ∧ InCas word t e d P (M ++ [i]) x
        | _ => InCas word t e d P M x := by
  refine Outline.cmd False.elim (fun wc => ?_) ?_
  · rcases wc with _ | ⟨_ | _, i⟩
    · exact inCas_stable
    · exact inCas_stable
    · exact .and (Discipline.stable_const _) inCas_stable
  rintro x r m ⟨hfl, hinv⟩ hx - he
  rcases exec_poll he with ⟨-, rfl, rfl⟩ | ⟨i, is, hcq, rfl, rfl⟩
  · have hs : ∀ u j, (.ibvPollCq : ReplicaCmd V) ≠ .perform u j := by simp
    exact ⟨x.ghost, ⟨hfl, fun hf => (hinv hf.of_append).still (still_act hs) fun _ _ _ => Event.act_ne_ret⟩,
      casRel_act fun _ _ => rfl, hx.act _ _ _ hx.ghost⟩
  · have hin := hfl.lt t i ((hfl.flight t).polled_mem hcq)
    refine ⟨Function.update x.ghost t ⟨.cas e d, P, M ++ [i]⟩, ⟨?_, fun hf => ?_⟩,
      casRel_act fun u hu => Function.update_of_ne hu .., hin.trans_le hn,
      hx.act _ _ _ (Function.update_self ..)⟩
    · have hpoll := hfl.poll hcq
      rwa [hx.ghost] at hpoll
    · have hmem : ∀ j, j ∈ Function.update x.mem.cq t is t ++ (M ++ [i]) ↔ j ∈ x.mem.cq t ++ M := by
        intro j
        simp only [Function.update_self, hcq, List.mem_append, List.mem_cons, List.not_mem_nil,
          or_false]
        tauto
      refine (hinv hf.of_append).own ?_ ?_ ?_ ?_ ?_ hx.ghost ?_ hmem
      exacts [still_act (by simp), fun _ _ _ => Event.act_ne_ret, rfl, rfl, rfl,
        fun u hu => Function.update_of_ne hu ..]

/-- A load of a buffer whose completion has been polled: if it holds the expected value, the replica
has been swapped by this call. -/
theorem cas_load {K : World (replicaClient V n) (Fabric V) (Tid → CallGhost V) → Prop}
    (hK : (casDisc word n).Stable t K) (i : Nat)
    (hact : ∀ x c r, K x → K ⟨x.mem, x.log ++ [.act t c r], x.ghost⟩) :
    Outline (casDisc word n) t (issue (.load i)) (fun x => InCas word t e d P M x ∧ K x)
      fun v x => InCas word t e d P M x ∧ K x ∧
        (i ∈ M → i < n ∧ (v = e → FreshDesired word x.log → Swapped x.log i e d)) := by
  refine Outline.cmd False.elim (fun v => inCas_stable.and (hK.and ?_)) ?_
  · rintro u x x' - - - ⟨⟨ev, hl, -⟩, -⟩ h hi
    refine ⟨(h hi).1, fun hv hf => ?_⟩
    rw [hl] at hf ⊢
    exact ((h hi).2 hv hf.of_append).append ev
  · rintro x v m ⟨hfl, hi⟩ ⟨hx, hk⟩ - he
    obtain ⟨rfl, rfl⟩ : x.mem.buf t i = v ∧ x.mem = m := by simpa [fabricMachine] using he
    have hs : ∀ u j, (.load i : ReplicaCmd V) ≠ .perform u j := by simp
    refine ⟨x.ghost, ⟨hfl, fun hf => (hi hf.of_append).still (still_act hs) fun _ _ _ => Event.act_ne_ret⟩,
      casRel_act fun _ _ => rfl, hx.act _ _ _ hx.ghost, hact _ _ _ hk,
      fun him => ⟨?_, fun hv hf => ?_⟩⟩
    · refine hfl.lt t i ((hfl.flight t).past_subset ?_)
      simp [Fabric.past, hx.ghost, him]
    · obtain ⟨e', d', hv', hc⟩ | ⟨hv', -⟩ := (hi hf.of_append).client t
      · rw [hx.ghost] at hv'
        cases hv'
        exact (hc.buf i (by simp [hx.ghost, him]) hv).append _
      · rw [hx.ghost] at hv'
        cases hv'

/-- The replicas in `ws` have been swapped by the call from `e` to `d`. -/
def Winning (word : Nat → V) (e d : V) (ws : List Nat)
    (x : World (replicaClient V n) (Fabric V) (Tid → CallGhost V)) : Prop :=
  ∀ i ∈ ws, i < n ∧ (FreshDesired word x.log → Swapped x.log i e d)

theorem winning_stable {ws : List Nat} : (casDisc word n).Stable t (Winning word e d ws) := by
  rintro u x x' - - - ⟨⟨ev, hl, -⟩, -⟩ h i hi
  refine ⟨(h i hi).1, fun hf => ?_⟩
  rw [hl] at hf ⊢
  exact ((h i hi).2 hf.of_append).append ev

theorem Winning.act {ws : List Nat}
    {x : World (replicaClient V n) (Fabric V) (Tid → CallGhost V)} (h : Winning word e d ws x)
    (c : ReplicaCmd V) (r : c.Resp) :
    Winning word e d ws ⟨x.mem, x.log ++ [.act t c r], x.ghost⟩ :=
  fun i hi => ⟨(h i hi).1, fun hf => ((h i hi).2 hf.of_append).append _⟩

/-- The outline of `cas_all`. -/
theorem casAll_outline (hn : n ≤ 32) (dropMask : Mask) (quorum : Nat) :
    Outline (casDisc word n) t (casAll n dropMask e d quorum) (InCas word t e d [] [])
      fun r x => ∃ P M ws, P.length = M.length ∧ InCas word t e d P M x ∧ Winning word e d ws x ∧
        r.2.Is ws ∧ r.1 = decide (popcount r.2 ≥ quorum) := by
  refine Outline.bind (postAll_outline (F := fun P => InCas word t e d P []) dropMask _
    (List.range n) [] List.nodup_range
    fun P i hi hP => cas_post hP (List.mem_range.mp hi)) fun k => ?_
  refine Outline.of_fact (φ := k = (alive n dropMask).length) (fun _ _ hx => hx.2) fun hk => ?_
  subst hk
  refine Outline.bind ((waitQuorum_outline
    (F := fun M _ => InCas word t e d (alive n dropMask) M)
    (Q := InCas word t e d (alive n dropMask)) (fun _ _ => inCas_stable)
    (fun M k _ => (cas_poll hn).post fun wc x _ hx => ?_) fun M _ x _ hx _ => hx).mono
      fun x _ hx => ⟨0, hx.1⟩) fun completed => ?_
  · rcases wc with _ | ⟨_ | _, i⟩
    · exact ⟨0, fun h => h.elim, hx⟩
    · exact ⟨0, fun h => h.elim, hx⟩
    · exact ⟨hx.1, 0, fun h => h.elim, hx.2⟩
  refine Outline.of_exists fun M => ?_
  refine Outline.of_fact (φ := completed.Is M ∧ M.length = (alive n dropMask).length)
    (fun _ _ hx => ⟨hx.1, hx.2.1⟩) fun hc => ?_
  obtain ⟨hM, hlen⟩ := hc
  refine Outline.bind ((collectWins_outline (H := fun _ ws x =>
      InCas word t e d (alive n dropMask) M x ∧ Winning word e d ws x) e completed
    (fun _ ws i hi => (cas_load winning_stable i fun x c r h => h.act c r).post ?_)
    (fun _ _ _ _ _ hx => hx) (List.range n) [] [] 0 .empty).mono
      fun x _ hx => ⟨hx.2.2, nofun⟩) fun wins => Outline.pure ?_
  · rintro v x - ⟨hx, hw, hwon⟩
    refine ⟨hx, ?_⟩
    obtain ⟨hin, hsw⟩ := hwon ((hM i).mp hi)
    split
    · next hv =>
      intro j hj
      rcases List.mem_append.mp hj with hj | hj
      · exact hw j hj
      · rw [List.mem_singleton.mp hj]
        exact ⟨hin, hsw hv⟩
    · exact hw
  · rintro x - ⟨ws, hws, hx, hw⟩
    exact ⟨_, M, ws, hlen.symm, hx, hw, hws, rfl⟩

/-- A step of the network, taken by a thread that has nothing on its way. -/
theorem cas_network (c : ReplicaCmd V) (hc : (∃ u k, c = .perform u k) ∨ ∃ u k, c = .deliver u k) :
    Outline (casDisc word n) t (issue c) (fun x => (x.ghost t).Done)
      fun _ x => (x.ghost t).Done := by
  refine Outline.cmd False.elim (fun _ => ?_) ?_
  · rintro u x x' hu - - ⟨-, hg⟩ h
    rwa [hg t hu.symm]
  · rintro x r m ⟨hfl, hinv⟩ hx - he
    rcases hc with ⟨u, k, rfl⟩ | ⟨u, k, rfl⟩
    · obtain ⟨i, v, hk, rfl, rfl⟩ := exec_perform he
      exact ⟨x.ghost, ⟨hfl.perform hk, fun hf => (hinv hf.of_append).perform hfl hf.of_append t hk⟩,
        casRel_act fun _ _ => rfl, hx⟩
    · obtain ⟨i, a, hk, rfl⟩ := exec_deliver he
      exact ⟨x.ghost, ⟨hfl.deliver hk, fun hf => (hinv hf.of_append).deliver hfl t hk⟩,
        casRel_act fun _ _ => rfl, hx⟩

/-- What is known of a call that is about to return. -/
def CasReturns (word : Nat → V) (t : Tid) (op : ReplicaOp V) (res : Option (Outcome V))
    (x : World (replicaClient V n) (Fabric V) (Tid → CallGhost V)) : Prop :=
  (x.ghost t).Done ∧ ∀ a, op = .group a → ∃ r e d P M ws, res = some r ∧ a.verb = .cas e d ∧
    n < 2 * a.quorum ∧ InCas word t e d P M x ∧ Winning word e d ws x ∧ r.mask.Is ws ∧
    r.ok = decide (popcount r.mask ≥ a.quorum)

/-- The clients keep the discipline. -/
theorem cas_keeps (hn : n ≤ 32) : Keeps (casDisc word n) (fun t _ x => (x.ghost t).Done)
    (fun t op _ x => (x.ghost t).Done ∧
      ∀ a e d, op = .group a → a.verb = .cas e d → InCas word t e d [] [] x)
    (fun t op res _ => CasReturns word t op res) where
  idle_stable := by
    rintro t _ u x x' hu - - ⟨-, hg⟩ h
    rwa [hg t hu.symm]
  pre_stable := by
    intro t op _
    refine .and ?_ (.forall fun a => .forall fun e => .forall fun d => .imp fun _ => .imp fun _ =>
      inCas_stable)
    rintro u x x' hu - - ⟨-, hg⟩ h
    rwa [hg t hu.symm]
  call := by
    rintro t op _ x hg ⟨hfl, hinv⟩ hidle
    have hnet : (∀ a, op ≠ .group a) →
        (casDisc word n).Does t x x.mem (.call t op) fun x' => (x'.ghost t).Done ∧
          ∀ a e d, op = .group a → a.verb = .cas e d → InCas word t e d [] [] x' := by
      intro hop
      exact ⟨x.ghost, ⟨hfl, fun hf => (hinv hf.of_append).still (still_of_ne_act (by simp)) fun _ _ _ => Event.call_ne_ret⟩,
        casRel_call fun _ _ => rfl, hidle, fun a _ _ ha => absurd ha (hop a)⟩
    cases op with
    | perform u k => exact hnet (by simp)
    | deliver u k => exact hnet (by simp)
    | group a =>
      obtain ⟨⟨e, d, hv⟩, -⟩ := hg
      refine ⟨Function.update x.ghost t ⟨.cas e d, [], []⟩, ⟨hfl.restart hidle _, fun hf =>
        (hinv hf.of_append).call hfl hidle hv hf⟩, casRel_call fun u hu => Function.update_of_ne hu ..,
        by simp [CallGhost.Done], ?_⟩
      rintro a' e' d' ⟨⟩ hv'
      obtain ⟨rfl, rfl⟩ : e = e' ∧ d = d' := by simpa using hv.symm.trans hv'
      refine ⟨Function.update_self .., ⟨_, a, getElem?_concat_last _ _, hv⟩,
        fun hf k t' a' r' e' hk hv'' => ?_⟩
      -- a call that has returned was made before this one
      rcases getElem?_concat_iff.mp hk with hk | ⟨-, heq⟩
      · obtain ⟨j, b, hj, hb⟩ := (hinv hf.of_append).returns.called k t' a' r' hk
        have hlt := lt_of_getElem? hj
        have := hf.distinct j _ t' t b a e' e d (getElem?_concat hj _)
          (getElem?_concat_last _ _) (hb.trans hv'') hv
        omega
      · cases heq
  code := by
    intro t op _ hg
    cases op with
    | perform u k =>
      exact Outline.bind ((cas_network _ (.inl ⟨u, k, rfl⟩)).mono fun _ _ hx => hx.1)
        fun _ => Outline.pure fun _ _ hx => ⟨hx, by simp⟩
    | deliver u k =>
      exact Outline.bind ((cas_network _ (.inr ⟨u, k, rfl⟩)).mono fun _ _ hx => hx.1)
        fun _ => Outline.pure fun _ _ hx => ⟨hx, by simp⟩
    | group a =>
      obtain ⟨⟨e, d, hv⟩, hq⟩ := hg
      have hrun : a.run n = casAll n a.dropMask e d a.quorum := by rw [GroupCall.run, hv]
      simp only [hrun]
      refine Outline.bind ((casAll_outline hn a.dropMask a.quorum).mono fun x _ hx =>
        hx.2 a e d rfl hv) fun r => ?_
      refine Outline.of_exists fun P => Outline.of_exists fun M => Outline.of_exists fun ws => ?_
      refine Outline.of_fact (φ := P.length = M.length ∧ r.2.Is ws ∧
        r.1 = decide (popcount r.2 ≥ a.quorum)) (fun _ _ hx => ⟨hx.1, hx.2.2.2⟩)
        fun hr => ?_
      obtain ⟨hPM, hmask, hok⟩ := hr
      have hloads := loadAll_outline (D := casDisc word n) (t := t)
        (K := fun _ x => InCas word t e d P M x ∧ Winning word e d ws x)
        (fun vs => (cas_load winning_stable vs.length fun x c r h => h.act c r).post
          fun v x _ hx => ⟨hx.1, hx.2.1⟩) n []
      rw [List.length_nil, ← List.range_eq_range'] at hloads
      refine Outline.bind (hloads.mono fun x _ hx => ⟨hx.2.1, hx.2.2.1⟩) fun bufs =>
        Outline.pure fun x _ hx => ?_
      obtain ⟨-, hx, hw⟩ := hx
      refine ⟨?_, ?_⟩
      · rw [hx.ghost]
        exact hPM.symm
      · rintro _ ⟨⟩
        exact ⟨_, e, d, P, M, ws, rfl, hv, hq, hx, hw, hmask, hok⟩
  ret := by
    rintro t op res _ x ⟨hfl, hinv⟩ ⟨hd, hpost⟩
    have hnet : (∀ a, op ≠ .group a) →
        (casDisc word n).Does t x x.mem (.ret t op res) fun x' => (x'.ghost t).Done := by
      intro hop
      have hr : ∀ t' a r', (.ret t op res :
          Event (ReplicaSig V) (ReplicaOp V) (Option (Outcome V))) ≠ .ret t' (.group a) r' := by
        rintro _ a _ ⟨⟩
        exact hop a rfl
      exact ⟨x.ghost, ⟨hfl, fun hf => (hinv hf.of_append).still (still_of_ne_act (by simp)) hr⟩,
        ⟨⟨_, rfl, rfl, fun a r' heq => absurd heq (hr t a r')⟩, fun _ _ => rfl⟩, hd⟩
    cases op with
    | perform u k => exact hnet (by simp)
    | deliver u k => exact hnet (by simp)
    | group a =>
      obtain ⟨r, e, d, P, M, ws, rfl, hv, hq, hx, hw, hmask, hok⟩ := hpost a rfl
      have hc : Called x.log t a.verb := hv ▸ hx.called
      refine ⟨x.ghost, ⟨hfl, fun hf => (hinv hf.of_append).ret hv hc (hx.fresh hf.of_append)
        fun htrue => ⟨hq, r.mask.toFinset, ?_, fun i hi => ?_⟩⟩, ⟨⟨_, rfl, rfl, ?_⟩, fun _ _ => rfl⟩,
        hd⟩
      · rw [Mask.card_toFinset]
        exact of_decide_eq_true (hok.symm.trans htrue)
      · obtain ⟨hin, hsw⟩ := hw i ((hmask i).mp (Mask.mem_toFinset.mp hi))
        exact ⟨hin, hsw hf.of_append⟩
      · rintro a' r' ⟨⟩
        exact hc

end Outlines

/-! ## The theorem -/

theorem cas_inv (hn : n ≤ 32) {buf : Tid → Nat → V} {c : ReplicaConfig V n}
    (h : Reach fabricMachine (casOnly V n) (replicaInit word buf) c)
    (hf : FreshDesired word c.log) : ReturnsOk c.log ∧ WordOk word c.log c.mem.word := by
  have h0 : ConfigOk (casDisc word n) (fun t _ x => (x.ghost t).Done)
      (fun t op res _ => CasReturns word t op res) (replicaInit word buf) := by
    refine ⟨fun _ => ⟨.read, [], []⟩, ⟨.init word buf .read, fun _ => ⟨⟨fun i => .inl rfl, ?_, ?_, ?_⟩,
      fun u => .inr ⟨rfl, rfl⟩, ?_, ?_, ?_⟩⟩, fun _ => rfl⟩
    all_goals simp [Swapped, replicaInit]
  obtain ⟨g, ⟨-, hinv⟩, -⟩ := (cas_keeps hn).reach h0 h
  exact ⟨(hinv hf).returns, (hinv hf).words⟩

/-- For each expected value at most one `cas_all` returns true, and a `cas_all` that returns true has
brought its desired value to a quorum of replicas. -/
theorem casAll_atMostOneWinner (hn : n ≤ 32) {buf : Tid → Nat → V} {c : ReplicaConfig V n}
    (h : Reach fabricMachine (casOnly V n) (replicaInit word buf) c)
    (hf : FreshDesired word c.log) (e : V) :
    (∀ (k k' : Nat) t t' a a' r r' d d', c.log[k]? = some (.ret t (.group a) (some r)) →
      c.log[k']? = some (.ret t' (.group a') (some r')) → a.verb = .cas e d → a'.verb = .cas e d' →
      r.ok = true → r'.ok = true → k = k') ∧
    ∀ (k : Nat) t a r d, c.log[k]? = some (.ret t (.group a) (some r)) → a.verb = .cas e d →
      r.ok = true → ∃ s : Finset Nat, a.quorum ≤ s.card ∧
        ∀ i ∈ s, i < n ∧ CameToHold (c.log.take k) i d := by
  obtain ⟨hret, hword⟩ := cas_inv hn h hf
  constructor
  · intro k k' t t' a a' r r' d d' hk hk' hv hv' hok hok'
    obtain ⟨hq, s, hs, hsw⟩ := hret.won k t a r e d hk hok hv
    obtain ⟨hq', s', hs', hsw'⟩ := hret.won k' t' a' r' e d' hk' hok' hv'
    -- two majorities of the replicas meet
    obtain ⟨i, hi⟩ : (s ∩ s').Nonempty := by
      refine Finset.inter_nonempty_of_card_lt_card_add_card (s := Finset.range n)
        (fun i hi => Finset.mem_range.mpr (hsw i hi).1)
        (fun i hi => Finset.mem_range.mpr (hsw' i hi).1) ?_
      rw [Finset.card_range]
      omega
    obtain ⟨h1, h2⟩ := Finset.mem_inter.mp hi
    obtain rfl : d = d' := hword.once i e d d' ((hsw i h1).2.of_take) ((hsw' i h2).2.of_take)
    exact hret.once k k' t t' a a' _ _ e e d hk hk' hv hv'
  · intro k t a r d hk hv hok
    obtain ⟨-, s, hs, hsw⟩ := hret.won k t a r e d hk hok hv
    refine ⟨s, hs, fun i hi => ?_⟩
    obtain ⟨hin, -, k', t', u, j, hk'⟩ := hsw i hi
    exact ⟨hin, k', t', u, j, e, hk'⟩

/-! ## A race -/

/-- The desired value of the call that the event is. -/
def desiredOf : Event (ReplicaSig V) (ReplicaOp V) (Option (Outcome V)) → Option V
  | .call _ (.group ⟨.cas _ d, _, _⟩) => some d
  | _ => none

omit [DecidableEq V] in
theorem desiredOf_call {t : Tid} {a : GroupCall V} {e d : V} (h : a.verb = .cas e d) :
    desiredOf (.call t (.group a)) = some d := by
  obtain ⟨v, _, _⟩ := a
  subst h
  rfl

theorem freshDesired_of_calls (hd : (l.filterMap desiredOf).Nodup)
    (hw : ∀ d ∈ l.filterMap desiredOf, ∀ r < n, word r ≠ d) : FreshDesired word l where
  distinct := by
    induction l using List.reverseRecOn with
    | nil => exact fun i j t u a b e e' d hi => by simp at hi
    | append_singleton l ev ih =>
      rw [List.filterMap_append, List.nodup_append] at hd
      obtain ⟨hl, -, hne⟩ := hd
      have hold : ∀ {i : Nat} {t u : Tid} {a b : GroupCall V} {e e' d : V},
          l[i]? = some (.call t (.group a)) → a.verb = .cas e d → b.verb = .cas e' d →
            ev ≠ .call u (.group b) := by
        rintro i t u a b e e' d hi ha hb rfl
        exact hne d (List.mem_filterMap.mpr ⟨_, List.mem_of_getElem? hi, desiredOf_call ha⟩) d
          (by simp [desiredOf_call hb]) rfl
      intro i j t u a b e e' d hi hj ha hb
      rcases getElem?_concat_iff.mp hi with hi | ⟨hin, hi⟩ <;>
        rcases getElem?_concat_iff.mp hj with hj | ⟨hjn, hj⟩
      · refine ih hl (fun d hd => hw d ?_) i j t u a b e e' d hi hj ha hb
        rw [List.filterMap_append]
        exact List.mem_append_left _ hd
      · exact absurd hj (hold hi ha hb)
      · exact absurd hi (hold hj hb ha)
      · rw [hin, hjn]
  initial i t a e d hi ha :=
    hw d (List.mem_filterMap.mpr ⟨_, List.mem_of_getElem? hi, desiredOf_call ha⟩)

/-- Clients 0 and 1 try to take the word from 0; the first two CAS of client 0 come first, and then
the third of client 1. -/
def casRace : List (Move (replicaClient Nat 3)) :=
  [.call 0 (ReplicaOp.group ⟨.cas 0 1, 0, 2⟩)] ++ Move.steps 0 3 ++
    [.call 1 (ReplicaOp.group ⟨.cas 0 2, 0, 2⟩)] ++ Move.steps 1 3 ++
    network (.perform 0 0) ++ network (.perform 0 0) ++ network (.perform 1 2) ++
    network (.perform 0 0) ++ network (.perform 1 0) ++ network (.perform 1 0) ++
    network (.deliver 0 2) ++ network (.deliver 0 0) ++ network (.deliver 0 0) ++
    network (.deliver 1 0) ++ network (.deliver 1 0) ++ network (.deliver 1 0) ++
    Move.steps 0 14 ++ Move.steps 1 14

/-- The result of the `cas_all` of client `t` that the event is the return of. -/
def casResult (t : Tid) : Event (ReplicaSig Nat) (ReplicaOp Nat) (Option (Outcome Nat)) → Option Bool
  | .ret u (.group _) (some r) => if u = t then some r.ok else none
  | _ => none

/-- The theorem at a run in which client 0 wins and client 1 loses. -/
theorem casAll_atMostOneWinner_race : ∃ c : ReplicaConfig Nat 3,
    (Reach fabricMachine (casOnly Nat 3) (replicaInit (fun _ => 0) fun _ _ => 0) c ∧
      FreshDesired (fun _ => 0) c.log ∧ c.log.filterMap (casResult 0) = [true] ∧
      c.log.filterMap (casResult 1) = [false]) ∧
    (∀ (k k' : Nat) t t' a a' r r' d d', c.log[k]? = some (.ret t (.group a) (some r)) →
      c.log[k']? = some (.ret t' (.group a') (some r')) → a.verb = .cas 0 d → a'.verb = .cas 0 d' →
      r.ok = true → r'.ok = true → k = k') ∧
    ∀ (k : Nat) t a r d, c.log[k]? = some (.ret t (.group a) (some r)) → a.verb = .cas 0 d →
      r.ok = true → ∃ s : Finset Nat, a.quorum ≤ s.card ∧
        ∀ i ∈ s, i < 3 ∧ CameToHold (c.log.take k) i d := by
  have hev : ((replicaInit (fun _ => 0) fun _ _ => 0).runIf fabricMachine (fun _ _ _ _ => true)
      casRace).map (fun c => (c.log.filterMap desiredOf, c.log.filterMap (casResult 0),
        c.log.filterMap (casResult 1))) = some ([1, 2], [true], [false]) := by
    decide +kernel
  obtain ⟨c, hrun, hcheck⟩ := Option.map_eq_some_iff.mp hev
  obtain ⟨hdes, hwin, hlose⟩ : _ ∧ _ ∧ _ := by simpa using hcheck
  have hreach : Reach fabricMachine (casOnly Nat 3) (replicaInit (fun _ => 0) fun _ _ => 0) c := by
    refine runIf_reach (fun _ _ _ _ _ => trivial) casRace ?_ hrun
    delta casRace
    simp [network, casOnly]
  have hfresh : FreshDesired (fun _ => 0) c.log :=
    freshDesired_of_calls (by rw [hdes]; decide) (by rw [hdes]; simp)
  exact ⟨c, ⟨hreach, hfresh, hwin, hlose⟩, casAll_atMostOneWinner (by decide) hreach hfresh 0⟩

end DMTree.SkipVector
