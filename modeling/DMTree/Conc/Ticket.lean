import DMTree.Conc.Prog

/-!
# Ticket queues

The abstract queue behind a ticket lock: tickets are handed out in order, and the holder of the ticket
`cur` has the turn. The counters of an implementation are these numbers modulo `N`; as long as fewer
than `N` tickets are out at once, a wrapped counter tells as much as the number itself.
-/

namespace Conc

/-- A queue of threads. -/
structure Tickets where
  /-- The next ticket to be handed out. -/
  next : Nat
  /-- The ticket whose turn it is. -/
  cur : Nat
  /-- The ticket a thread holds. -/
  tick : Tid → Option Nat
  /-- The thread that has noticed its turn. -/
  turn : Option Tid

namespace Tickets

/-- The empty queue. -/
def empty : Tickets := ⟨0, 0, fun _ => none, none⟩

/-- Thread `t` takes a ticket. -/
def take (q : Tickets) (t : Tid) : Tickets :=
  { q with next := q.next + 1, tick := Function.update q.tick t (some q.next) }

/-- Thread `t` notices its turn. -/
def grant (q : Tickets) (t : Tid) : Tickets := { q with turn := some t }

/-- Thread `t` passes the turn on. -/
def leave (q : Tickets) (t : Tid) : Tickets :=
  { q with cur := q.cur + 1, tick := Function.update q.tick t none, turn := none }

/-- A well-formed queue with counters modulo `N`. -/
structure WF (N : Nat) (q : Tickets) : Prop where
  le : q.cur ≤ q.next
  fits : q.next - q.cur < N
  range : ∀ t c, q.tick t = some c → q.cur ≤ c ∧ c < q.next
  inj : ∀ t u c, q.tick t = some c → q.tick u = some c → t = u
  turn : ∀ t, q.turn = some t → q.tick t = some q.cur

variable {N : Nat} {q : Tickets} {t u : Tid}

theorem WF.empty (hN : 0 < N) : WF N Tickets.empty where
  le := le_rfl
  fits := by simpa [Tickets.empty] using hN
  range := by simp [Tickets.empty]
  inj := by simp [Tickets.empty]
  turn := by simp [Tickets.empty]

theorem WF.take (h : q.WF N) (ht : q.tick t = none) (hN : q.next - q.cur + 1 < N) :
    (q.take t).WF N where
  le := by have := h.le; simp only [Tickets.take]; omega
  fits := by have := h.le; simp only [Tickets.take]; omega
  range := by
    intro u c hc
    have hle := h.le
    by_cases hu : u = t
    · subst hu
      simp only [Tickets.take, Function.update_self, Option.some.injEq] at hc ⊢
      omega
    · simp only [Tickets.take, Function.update_of_ne hu] at hc ⊢
      have := h.range u c hc
      omega
  inj := by
    intro u v c hu hv
    by_cases hut : u = t
    · by_cases hvt : v = t
      · rw [hut, hvt]
      · subst hut
        simp only [Tickets.take, Function.update_self, Function.update_of_ne hvt,
          Option.some.injEq] at hu hv
        have := h.range v c hv
        omega
    · by_cases hvt : v = t
      · subst hvt
        simp only [Tickets.take, Function.update_self, Function.update_of_ne hut,
          Option.some.injEq] at hu hv
        have := h.range u c hu
        omega
      · simp only [Tickets.take, Function.update_of_ne hut, Function.update_of_ne hvt] at hu hv
        exact h.inj u v c hu hv
  turn := by
    intro u hu
    have hut : u ≠ t := by
      rintro rfl
      rw [h.turn _ hu] at ht
      cases ht
    simp only [Tickets.take, Function.update_of_ne hut]
    exact h.turn u hu

theorem WF.grant (h : q.WF N) (ht : q.tick t = some q.cur) : (q.grant t).WF N where
  le := h.le
  fits := h.fits
  range := h.range
  inj := h.inj
  turn := by
    intro u hu
    simp only [Tickets.grant, Option.some.injEq] at hu
    subst hu
    exact ht

theorem WF.leave (h : q.WF N) (ht : q.turn = some t) : (q.leave t).WF N := by
  have hcur := h.turn t ht
  have hlt := h.range t _ hcur
  have hfits := h.fits
  have hrange : ∀ u c, (q.leave t).tick u = some c → q.tick u = some c ∧ q.cur + 1 ≤ c := by
    intro u c hc
    have hut : u ≠ t := by
      rintro rfl
      simp [Tickets.leave] at hc
    simp only [Tickets.leave, Function.update_of_ne hut] at hc
    refine ⟨hc, ?_⟩
    have hge := (h.range u c hc).1
    have hne : c ≠ q.cur := fun e => hut (h.inj u t c hc (e ▸ hcur))
    omega
  exact
    { le := by simp only [Tickets.leave]; omega
      fits := by simp only [Tickets.leave]; omega
      range := fun u c hc => ⟨(hrange u c hc).2, (h.range u c (hrange u c hc).1).2⟩
      inj := fun u v c hu hv => h.inj u v c (hrange u c hu).1 (hrange v c hv).1
      turn := by simp [Tickets.leave] }

/-- Nobody else has the turn of the holder of the current ticket. -/
theorem WF.turn_eq (h : q.WF N) (ht : q.tick t = some q.cur) (hu : q.turn = some u) : u = t :=
  h.inj u t _ (h.turn u hu) ht

/-- A ticket that equals the current one modulo `N` is the current one. -/
theorem WF.eq_cur (h : q.WF N) {c : Nat} (hc : q.tick t = some c) (he : c % N = q.cur % N) :
    c = q.cur := by
  obtain ⟨h1, h2⟩ := h.range t c hc
  have hfits := h.fits
  have hsub : (c - q.cur) % N = 0 := by
    have hmod : q.cur ≡ c [MOD N] := he.symm
    exact Nat.eq_zero_of_dvd_of_lt ((Nat.modEq_iff_dvd' h1).mp hmod) (by omega) ▸ Nat.zero_mod N
  rw [Nat.mod_eq_of_lt (by omega)] at hsub
  omega

/-! ## Full queues -/

/-- Every ticket that is out is held by a thread. -/
def Full (q : Tickets) : Prop := ∀ c, q.cur ≤ c → c < q.next → ∃ t, q.tick t = some c

theorem Full.take (h : q.Full) (ht : q.tick t = none) : (q.take t).Full := by
  intro c h1 h2
  simp only [Tickets.take] at h1 h2 ⊢
  by_cases hc : c = q.next
  · exact ⟨t, by rw [Function.update_self, hc]⟩
  · obtain ⟨u, hu⟩ := h c h1 (by omega)
    have hut : u ≠ t := by
      rintro rfl
      rw [ht] at hu
      cases hu
    exact ⟨u, by rw [Function.update_of_ne hut, hu]⟩

theorem Full.leave (h : q.Full) (hq : q.WF N) (ht : q.turn = some t) : (q.leave t).Full := by
  intro c h1 h2
  simp only [Tickets.leave] at h1 h2 ⊢
  obtain ⟨u, hu⟩ := h c (by omega) h2
  have hut : u ≠ t := by
    rintro rfl
    rw [hq.turn _ ht] at hu
    cases hu
    omega
  exact ⟨u, by rw [Function.update_of_ne hut, hu]⟩

/-- The tickets that are out are as many as the threads that hold one. -/
theorem Full.card (h : q.Full) (hq : q.WF N) {ts : Finset Tid}
    (hts : ∀ t, t ∈ ts ↔ q.tick t ≠ none) : ts.card = q.next - q.cur := by
  have hmap : (Finset.Ico q.cur q.next).card = ts.card := by
    refine (Finset.card_nbij (fun t => (q.tick t).getD 0) ?_ ?_ ?_).symm
    · intro t ht
      obtain ⟨c, hc⟩ := Option.ne_none_iff_exists'.mp ((hts t).mp ht)
      have hr := hq.range t c hc
      simpa [hc] using hr
    · intro t ht u hu he
      obtain ⟨c, hc⟩ := Option.ne_none_iff_exists'.mp ((hts t).mp ht)
      obtain ⟨d, hd⟩ := Option.ne_none_iff_exists'.mp ((hts u).mp hu)
      simp only [hc, hd, Option.getD_some] at he
      exact hq.inj t u c hc (he ▸ hd)
    · intro c hc
      obtain ⟨h1, h2⟩ := Finset.mem_Ico.mp hc
      obtain ⟨t, ht⟩ := h c h1 h2
      exact ⟨t, (hts t).mpr (by rw [ht]; exact Option.some_ne_none c), by simp [ht]⟩
  rw [← hmap, Nat.card_Ico]

/-- A queue without threads is empty. -/
theorem Full.empty (h : q.Full) (hq : q.WF N) (hno : ∀ t, q.tick t = none) : q.next = q.cur := by
  by_contra hne
  have hle := hq.le
  obtain ⟨t, ht⟩ := h q.cur le_rfl (by omega)
  rw [hno t] at ht
  cases ht

end Tickets

end Conc
