import DMTree.Conc.Outline

/-!
# Rules for proof outlines, and what they give for a whole run

The rules compose outlines along the syntax of programs. `Keeps.reach` is the result they are for: in
every configuration of every run the invariant holds, and every thread is at a control point whose
assertion holds.
-/

namespace Conc

variable {S : Sig} {σ γ : Type} {C : Client S} {D : Discipline C σ γ} {t : Tid} {α β ι : Type}

/-! ## Stability -/

namespace Discipline

theorem stable_const (p : Prop) : D.Stable t fun _ => p := fun _ _ _ _ _ _ _ h => h

theorem Stable.and {P Q : World C σ γ → Prop} (hP : D.Stable t P) (hQ : D.Stable t Q) :
    D.Stable t fun x => P x ∧ Q x :=
  fun u x x' hu hi hi' hr h => ⟨hP u x x' hu hi hi' hr h.1, hQ u x x' hu hi hi' hr h.2⟩

theorem Stable.exists {P : ι → World C σ γ → Prop} (h : ∀ i, D.Stable t (P i)) :
    D.Stable t fun x => ∃ i, P i x := by
  rintro u x x' hu hi hi' hr ⟨i, hp⟩
  exact ⟨i, h i u x x' hu hi hi' hr hp⟩

theorem Stable.forall {P : ι → World C σ γ → Prop} (h : ∀ i, D.Stable t (P i)) :
    D.Stable t fun x => ∀ i, P i x :=
  fun u x x' hu hi hi' hr hp i => h i u x x' hu hi hi' hr (hp i)

theorem Stable.imp {p : Prop} {P : World C σ γ → Prop} (h : p → D.Stable t P) :
    D.Stable t fun x => p → P x :=
  fun u x x' hu hi hi' hr hp hq => h hq u x x' hu hi hi' hr (hp hq)

/-- A stronger precondition and a weaker postcondition. -/
theorem Cmd.imp {c : S.Cmd} {P P' : World C σ γ → Prop} {R R' : S.Resp c → World C σ γ → Prop}
    (h : D.Cmd t c P R) (hP : ∀ x, P' x → P x) (hR : ∀ r x, R r x → R' r x) :
    D.Cmd t c P' R' := by
  intro x r m hi hx hg he
  obtain ⟨g, h1, h2, h3⟩ := h x r m hi (hP x hx) hg he
  exact ⟨g, h1, h2, hR r _ h3⟩

end Discipline

/-! ## Rules -/

namespace Outline

open Discipline

theorem mono {p : Prog S α} {P R : World C σ γ → Prop} {Q : α → World C σ γ → Prop}
    (h : Outline D t p R Q) (hP : ∀ x, D.Inv x → P x → R x) : Outline D t p P Q := by
  cases p with
  | ret a => exact fun x hi hx => h x hi (hP x hi hx)
  | fail e => exact fun x hi hx => h x hi (hP x hi hx)
  | act c k =>
    obtain ⟨A, hc, hx, hk⟩ := h
    exact ⟨A, fun x r m hi hx => hc x r m hi (hP x hi hx),
      fun hT x hi hp => hx hT x hi (hP x hi hp), hk⟩
  | iter body i k =>
    obtain ⟨J, K, h0, hJ, hb, hk⟩ := h
    exact ⟨J, K, fun x hi hx => h0 x hi (hP x hi hx), hJ, hb, hk⟩

/-- Sequential composition; the induction follows the syntax of the first program. -/
theorem bind {p : Prog S α} {f : α → Prog S β} {P : World C σ γ → Prop}
    {Q : α → World C σ γ → Prop} {R : β → World C σ γ → Prop}
    (hp : Outline D t p P Q) (hf : ∀ a, Outline D t (f a) (Q a) R) :
    Outline D t (p >>= f) P R := by
  change Outline D t (Prog.bind p f) P R
  induction p generalizing P with
  | ret a => exact (hf a).mono hp
  | fail e => exact hp
  | act c k ih =>
    obtain ⟨A, hc, hx, hk⟩ := hp
    exact ⟨A, hc, hx, fun r => ⟨(hk r).1, ih r (hk r).2 hf⟩⟩
  | iter body i k _ ih =>
    obtain ⟨J, K, h0, hJ, hb, hk⟩ := hp
    exact ⟨J, K, h0, hJ, hb, fun b => ih b (hk b) hf⟩

theorem post {p : Prog S α} {P : World C σ γ → Prop} {Q R : α → World C σ γ → Prop}
    (h : Outline D t p P Q) (hQ : ∀ a x, D.Inv x → Q a x → R a x) : Outline D t p P R := by
  induction p generalizing P with
  | ret a => exact fun x hi hx => hQ a x hi (h x hi hx)
  | fail e => exact h
  | act c k ih =>
    obtain ⟨A, hc, hx, hk⟩ := h
    exact ⟨A, hc, hx, fun r => ⟨(hk r).1, ih r (hk r).2 hQ⟩⟩
  | iter body i k _ ih =>
    obtain ⟨J, K, h0, hJ, hb, hk⟩ := h
    exact ⟨J, K, h0, hJ, hb, fun b => ih b (hk b) hQ⟩

theorem pure {a : α} {P : World C σ γ → Prop} {Q : α → World C σ γ → Prop}
    (h : ∀ x, D.Inv x → P x → Q a x) : Outline D t (Pure.pure a) P Q := h

theorem fail {e : S.Err} {P : World C σ γ → Prop} {Q : α → World C σ γ → Prop}
    (h : ∀ x, D.Inv x → P x → D.MayFail e) : Outline D t (Prog.fail e) P Q := h

theorem cmd {c : S.Cmd} {P : World C σ γ → Prop} {Q : S.Resp c → World C σ γ → Prop}
    (hx : D.Total → D.Enabled t c P) (hs : ∀ r, D.Stable t (Q r)) (h : D.Cmd t c P Q) :
    Outline D t (Prog.cmd c) P Q :=
  ⟨Q, h, hx, fun r => ⟨hs r, fun _ _ hx => hx⟩⟩

/-- A command, and then the rest of the program. -/
theorem cmd_bind {c : S.Cmd} {f : S.Resp c → Prog S α} {P : World C σ γ → Prop}
    {R : S.Resp c → World C σ γ → Prop} {Q : α → World C σ γ → Prop}
    (hx : D.Total → D.Enabled t c P) (hs : ∀ r, D.Stable t (R r)) (h : D.Cmd t c P R)
    (hf : ∀ r, Outline D t (f r) (R r) Q) : Outline D t (Prog.cmd c >>= f) P Q :=
  bind (cmd hx hs h) hf

/-- A loop whose rounds are numbered downwards. -/
theorem loop_down {body : ι → Prog S (ι ⊕ β)} {i : ι} {P : World C σ γ → Prop}
    {J : ι → Nat → World C σ γ → Prop} {Q : β → World C σ γ → Prop}
    (h0 : ∀ x, D.Inv x → P x → ∃ n, J i n x) (hJ : ∀ j n, D.Stable t (J j n))
    (hb : ∀ j n, Outline D t (body j) (J j n)
      (Sum.elim (fun j' x => ∃ n', (D.Total → n' < n) ∧ J j' n' x) Q)) :
    Outline D t (Prog.loop body i) P Q :=
  ⟨J, Q, h0, hJ, hb, fun _ _ _ hx => hx⟩

/-- A loop that is not claimed to end. -/
theorem loop {body : ι → Prog S (ι ⊕ β)} {i : ι} {P : World C σ γ → Prop}
    {J : ι → World C σ γ → Prop} {Q : β → World C σ γ → Prop}
    (hT : ¬ D.Total) (h0 : ∀ x, D.Inv x → P x → J i x) (hJ : ∀ j, D.Stable t (J j))
    (hb : ∀ j, Outline D t (body j) (J j) (Sum.elim J Q)) :
    Outline D t (Prog.loop body i) P Q := by
  refine loop_down (J := fun j _ => J j) (fun x hi hx => ⟨0, h0 x hi hx⟩) (fun j _ => hJ j)
    fun j n => (hb j).post ?_
  rintro (j' | b) x _ hx
  · exact ⟨0, fun h => absurd h hT, hx⟩
  · exact hx

theorem assert {b : Bool} {e : S.Err} {P : World C σ γ → Prop} {Q : Unit → World C σ γ → Prop}
    (ht : ∀ x, D.Inv x → P x → b = true → Q () x)
    (hf : ∀ x, D.Inv x → P x → b = false → D.MayFail e) :
    Outline D t (Prog.assert b e) P Q := by
  cases b with
  | true => exact fun x hi hx => ht x hi hx rfl
  | false => exact fun x hi hx => hf x hi hx rfl

/-- An assertion, and what comes after it. -/
theorem assert_bind {b : Bool} {e : S.Err} {f : Unit → Prog S α} {P : World C σ γ → Prop}
    {Q : α → World C σ γ → Prop} (hf : ∀ x, D.Inv x → P x → b = false → D.MayFail e)
    (h : b = true → Outline D t (f ()) P Q) : Outline D t (Prog.assert b e >>= f) P Q := by
  cases b with
  | false => exact fun x hi hx => hf x hi hx rfl
  | true => exact h rfl

theorem ite {b : Prop} [Decidable b] {p q : Prog S α} {P : World C σ γ → Prop}
    {Q : α → World C σ γ → Prop} (hp : b → Outline D t p P Q) (hq : ¬ b → Outline D t q P Q) :
    Outline D t (if b then p else q) P Q := by
  split
  · exact hp ‹_›
  · exact hq ‹_›

/-- Two branches, and what comes after both. -/
theorem ite_join {b : Prop} [Decidable b] {p q : Prog S α} {f : α → Prog S β}
    {P : World C σ γ → Prop} {R : α → World C σ γ → Prop} {Q : β → World C σ γ → Prop}
    (hp : b → Outline D t p P R) (hq : ¬ b → Outline D t q P R)
    (hf : ∀ c, Outline D t (f c) (R c) Q) : Outline D t (if b then p >>= f else q >>= f) P Q :=
  ite (fun hb => bind (hp hb) hf) fun hb => bind (hq hb) hf

/-- A branch that ends where the other one is, and what comes after both. -/
theorem ite_bind {b : Prop} [Decidable b] {p : Prog S α} {a : α} {f : α → Prog S β}
    {P : World C σ γ → Prop} {R : α → World C σ γ → Prop} {Q : β → World C σ γ → Prop}
    (hp : b → Outline D t p P R) (ha : ¬ b → ∀ x, D.Inv x → P x → R a x)
    (hf : ∀ c, Outline D t (f c) (R c) Q) : Outline D t (if b then p >>= f else f a) P Q :=
  ite (fun hb => bind (hp hb) hf) fun hb => (hf a).mono (ha hb)

/-- A pure fact that the assertion gives may be used for the rest of the program. -/
theorem of_fact {p : Prog S α} {P : World C σ γ → Prop} {Q : α → World C σ γ → Prop} {φ : Prop}
    (hφ : ∀ x, D.Inv x → P x → φ) (h : φ → Outline D t p P Q) : Outline D t p P Q := by
  by_cases hp : φ
  · exact h hp
  · have hno : ∀ x, D.Inv x → ¬ P x := fun x hi hx => hp (hφ x hi hx)
    cases p with
    | ret a => exact fun x hi hx => absurd hx (hno x hi)
    | fail e => exact fun x hi hx => absurd hx (hno x hi)
    | act c k =>
      refine ⟨fun _ _ => False, fun x r m hi hx => absurd hx (hno x hi),
        fun _ x hi hx => absurd hx (hno x hi), fun r => ⟨?_, ?_⟩⟩
      · exact stable_const _
      · exact absurd_outline (k r)
    | iter body i k =>
      refine ⟨fun _ _ _ => False, fun _ _ => False, fun x hi hx => absurd hx (hno x hi),
        fun _ _ => ?_, fun j _ => ?_, fun b => absurd_outline (k b)⟩
      · exact stable_const _
      · exact absurd_outline (body j)
where
  /-- Nothing has to be shown of a program that is never reached. -/
  absurd_outline {α : Type} (p : Prog S α) {Q : α → World C σ γ → Prop} :
      Outline D t p (fun _ => False) Q := by
    induction p with
    | ret a => exact fun x _ hx => hx.elim
    | fail e => exact fun x _ hx => hx.elim
    | act c k ih =>
      exact ⟨fun _ _ => False, fun x r m _ hx => hx.elim, fun _ x _ hx => hx.elim,
        fun r => ⟨stable_const _, ih r⟩⟩
    | iter body i k ihb ihk =>
      exact ⟨fun _ _ _ => False, fun _ _ => False, fun x _ hx => hx.elim,
        fun _ _ => stable_const _, fun j _ => ihb j, fun b => ihk b⟩

/-- A loop is entered, or started again. -/
theorem unroll {body : ι → Prog S (ι ⊕ β)} {i : ι} {k : β → Prog S α} {P : World C σ γ → Prop}
    {Q : α → World C σ γ → Prop} (h : Outline D t (.iter body i k) P Q) {x : World C σ γ}
    (hi : D.Inv x) (hx : P x) :
    ∃ P', P' x ∧ D.Stable t P' ∧ Outline D t (Prog.unroll body i k) P' Q := by
  obtain ⟨J, K, h0, hJ, hb, hk⟩ := h
  obtain ⟨n, hn⟩ := h0 x hi hx
  refine ⟨J i n, hn, hJ i n, Outline.bind (hb i n) ?_⟩
  rintro (j | b)
  · refine ⟨J, K, ?_, hJ, hb, hk⟩
    rintro y _ ⟨n', _, hj⟩
    exact ⟨n', hj⟩
  · exact hk b

/-- An outline for each value of a logical variable. -/
theorem of_exists {p : Prog S α} {P : ι → World C σ γ → Prop} {Q : α → World C σ γ → Prop}
    (h : ∀ i, Outline D t p (P i) Q) : Outline D t p (fun x => ∃ i, P i x) Q := by
  induction p generalizing P with
  | ret a => exact fun x hi ⟨i, hx⟩ => h i x hi hx
  | fail e => exact fun x hi ⟨i, hx⟩ => h i x hi hx
  | act c k ih =>
    choose R hc hx hk using h
    refine ⟨fun r x => ∃ i, R i r x, ?_, fun hT x hi ⟨i, hp⟩ => hx i hT x hi hp,
      fun r => ⟨.exists fun i => (hk i r).1, ?_⟩⟩
    · rintro x r m hi ⟨i, hx⟩ hg he
      obtain ⟨g, h1, h2, h3⟩ := hc i x r m hi hx hg he
      exact ⟨g, h1, h2, i, h3⟩
    · exact ih r fun i => (hk i r).2
  | iter body j k ihb ihk =>
    choose J K h0 hJ hb hk using h
    refine ⟨fun j n x => ∃ i, J i j n x, fun b x => ∃ i, K i b x, ?_,
      fun j n => .exists fun i => hJ i j n, fun j n => ?_, fun b => ihk b fun i => hk i b⟩
    · rintro x hi ⟨i, hx⟩
      obtain ⟨n, hn⟩ := h0 i x hi hx
      exact ⟨n, i, hn⟩
    · refine ihb j fun i => (hb i j n).post ?_
      rintro (j' | b) x _ hx
      · obtain ⟨n', hn, hj⟩ := hx
        exact ⟨n', hn, i, hj⟩
      · exact ⟨i, hx⟩

/-- A program all of whose commands keep `P`. -/
theorem all {φ : S.Cmd → Prop} {p : Prog S α} {P : World C σ γ → Prop} (hT : ¬ D.Total)
    (hp : p.All φ) (hP : D.Stable t P) (hf : ∀ e, D.MayFail e)
    (hc : ∀ c, φ c → D.Cmd t c P fun _ => P) : Outline D t p P fun _ => P := by
  induction p with
  | ret a => exact fun x _ hx => hx
  | fail e => exact fun _ _ _ => hf e
  | act c k ih =>
    exact ⟨fun _ => P, hc c hp.1, fun h => absurd h hT, fun r => ⟨hP, ih r (hp.2 r)⟩⟩
  | iter body i k ihb ihk =>
    refine ⟨fun _ _ => P, fun _ => P, fun _ _ hx => ⟨0, hx⟩, fun _ _ => hP, fun j _ => ?_,
      fun b => ihk b (hp.2 b)⟩
    refine (ihb j (hp.1 j)).post ?_
    rintro (j' | b) x _ hx
    · exact ⟨0, fun h => absurd h hT, hx⟩
    · exact hx

end Outline

/-! ## Whole runs -/

variable {Idle : Tid → C.Loc → World C σ γ → Prop} {Pre : Tid → C.Op → C.Loc → World C σ γ → Prop}
  {Post : Tid → C.Op → C.Res → C.Loc → World C σ γ → Prop}

/-- A step of `t` leaves what is known about another thread. -/
theorem ThreadOk.stable (hk : Keeps D Idle Pre Post) {x x' : World C σ γ} {u : Tid} (hu : u ≠ t)
    (hi : D.Inv x) (hi' : D.Inv x') (hr : D.Rel u x x') {th : Thread C}
    (h : ThreadOk D Idle Post x t th) : ThreadOk D Idle Post x' t th := by
  cases th with
  | idle l => exact hk.idle_stable t l u x x' hu hi hi' hr h
  | busy op p =>
    obtain ⟨P, hP, hs, ho⟩ := h
    exact ⟨P, hs u x x' hu hi hi' hr hP, hs, ho⟩

/-- The state of knowledge in a configuration: the invariant holds for the ghost state, and every
thread is where its outline says. -/
def ConfigAt (D : Discipline C σ γ) (Idle : Tid → C.Loc → World C σ γ → Prop)
    (Post : Tid → C.Op → C.Res → C.Loc → World C σ γ → Prop) (c : Config C σ) (g : γ) : Prop :=
  D.Inv ⟨c.mem, c.log, g⟩ ∧ ∀ t, ThreadOk D Idle Post ⟨c.mem, c.log, g⟩ t (c.thr t)

/-- The state of knowledge for some ghost state. -/
def ConfigOk (D : Discipline C σ γ) (Idle : Tid → C.Loc → World C σ γ → Prop)
    (Post : Tid → C.Op → C.Res → C.Loc → World C σ γ → Prop) (c : Config C σ) : Prop :=
  ∃ g, ConfigAt D Idle Post c g

/-- A step of `t` that keeps the discipline, seen from all threads. -/
theorem ConfigAt.does (hk : Keeps D Idle Pre Post) {c : Config C σ} {g : γ} {m : σ}
    {e : Event S C.Op C.Res} {R : World C σ γ → Prop} (th : Thread C) (hc : ConfigAt D Idle Post c g)
    (hd : D.Does t ⟨c.mem, c.log, g⟩ m e R) (hR : ∀ x, R x → ThreadOk D Idle Post x t th) :
    ∃ g', ConfigAt D Idle Post ⟨m, c.log ++ [e], Function.update c.thr t th⟩ g' ∧
      D.Rel t ⟨c.mem, c.log, g⟩ ⟨m, c.log ++ [e], g'⟩ := by
  obtain ⟨g', hi', hr, hR'⟩ := hd
  refine ⟨g', ⟨hi', fun u => ?_⟩, hr⟩
  by_cases hu : u = t
  · subst hu
    simpa using hR _ hR'
  · simpa [Function.update_of_ne hu] using (hc.2 u).stable hk (Ne.symm hu) hc.1 hi' hr

/-- One step of a run keeps the discipline. -/
theorem ConfigAt.step (hk : Keeps D Idle Pre Post) {c c' : Config C σ} {g : γ}
    (hc : ConfigAt D Idle Post c g) (h : Step D.machine D.guard c c') :
    ∃ g', ConfigAt D Idle Post c' g' ∧
      ((c'.mem = c.mem ∧ c'.log = c.log ∧ g' = g) ∨
        ∃ t, D.Rel t ⟨c.mem, c.log, g⟩ ⟨c'.mem, c'.log, g'⟩) := by
  cases h with
  | @call l t op ht hg =>
    have hidle := hc.2 t
    rw [ht] at hidle
    obtain ⟨g', h1, h2⟩ := hc.does hk (.busy op (C.code t op l)) (hk.call t op l _ hg hc.1 hidle)
      fun x hx => ⟨_, hx, hk.pre_stable t op l, hk.code t op l hg⟩
    exact ⟨g', h1, Or.inr ⟨t, h2⟩⟩
  | @act op m t cmd k r ht hg he =>
    have hbusy := hc.2 t
    rw [ht] at hbusy
    obtain ⟨P, hP, _, R, hcmd, _, hkr⟩ := hbusy
    obtain ⟨g', h1, h2⟩ := hc.does hk (.busy op (k r)) (hcmd _ r m hc.1 hP hg he)
      fun x hx => ⟨_, hx, (hkr r).1, (hkr r).2⟩
    exact ⟨g', h1, Or.inr ⟨t, h2⟩⟩
  | @iter op ι β t body i k ht =>
    refine ⟨g, ⟨hc.1, fun u => ?_⟩, Or.inl ⟨rfl, rfl, rfl⟩⟩
    by_cases hu : u = t
    · subst hu
      have hbusy := hc.2 u
      rw [ht] at hbusy
      obtain ⟨P, hP, _, ho⟩ := hbusy
      simp only [Function.update_self]
      exact ho.unroll hc.1 hP
    · simpa [Function.update_of_ne hu] using hc.2 u
  | @ret op res l t ht =>
    have hbusy := hc.2 t
    rw [ht] at hbusy
    obtain ⟨P, hP, _, ho⟩ := hbusy
    obtain ⟨g', h1, h2⟩ := hc.does hk (.idle l)
      (hk.ret t op res l _ hc.1 (ho _ hc.1 hP)) fun x hx => hx
    exact ⟨g', h1, Or.inr ⟨t, h2⟩⟩

/-- What every step of every thread may change bounds what a run may change. -/
theorem ConfigAt.reach (hk : Keeps D Idle Pre Post) {P : γ → γ → Prop} (hrefl : ∀ g, P g g)
    (htrans : ∀ g g' g'', P g g' → P g' g'' → P g g'')
    (hrel : ∀ t x x', D.Rel t x x' → P x.ghost x'.ghost) {c c' : Config C σ} {g : γ}
    (hc : ConfigAt D Idle Post c g) (h : Reach D.machine D.guard c c') :
    ∃ g', ConfigAt D Idle Post c' g' ∧ P g g' := by
  induction h with
  | refl => exact ⟨g, hc, hrefl g⟩
  | tail _ hs ih =>
    obtain ⟨g₁, hc₁, hP⟩ := ih
    obtain ⟨g₂, hc₂, ⟨-, -, rfl⟩ | ⟨t, hr⟩⟩ := hc₁.step hk hs
    · exact ⟨_, hc₂, hP⟩
    · exact ⟨g₂, hc₂, htrans _ _ _ hP (hrel t _ _ hr)⟩

/-- The discipline is kept in every configuration of every run. -/
theorem Keeps.reach (hk : Keeps D Idle Pre Post) {c c' : Config C σ} (hc : ConfigOk D Idle Post c)
    (h : Reach D.machine D.guard c c') : ConfigOk D Idle Post c' := by
  obtain ⟨g, hg⟩ := hc
  obtain ⟨g', hg', -⟩ := hg.reach hk (P := fun _ _ => True) (fun _ => trivial)
    (fun _ _ _ _ _ => trivial) (fun _ _ _ _ => trivial) h
  exact ⟨g', hg'⟩

/-- An assertion that may not fail is not failed. -/
theorem ConfigOk.not_failed {c : Config C σ} (hc : ConfigOk D Idle Post c) {t : Tid} {op : C.Op}
    {e : S.Err} (he : ¬ D.MayFail e) : c.thr t ≠ .busy op (.fail e) := by
  intro ht
  obtain ⟨g, hi, hth⟩ := hc
  have hbusy := hth t
  rw [ht] at hbusy
  obtain ⟨P, hP, _, ho⟩ := hbusy
  exact he (ho _ hi hP)

end Conc
