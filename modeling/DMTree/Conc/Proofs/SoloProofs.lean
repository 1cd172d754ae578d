import DMTree.Conc.Proofs.OutlineProofs
import DMTree.Conc.Proofs.ProgProofs

/-!
# One thread running alone

What a thread can do alone (`Moves`) composes along the syntax of programs, and it is a run of the
system of all threads. Under a discipline that asks for it, an outline gives that a program started
where its precondition holds returns (`Outline.runs`).
-/

namespace Conc

variable {S : Sig} {σ γ : Type} {C : Client S} {M : Machine S σ} {t : Tid} {α β ι : Type}

namespace Moves

theorem trans {p p' p'' : Prog S α} {s s' s'' : σ} {tr tr' : Trace S}
    (h : Moves M t p s tr p' s') (h' : Moves M t p' s' tr' p'' s'') :
    Moves M t p s (tr ++ tr') p'' s'' := by
  induction h with
  | refl => exact h'
  | act he _ ih => exact .act he (ih h')
  | iter _ ih => exact .iter (ih h')

/-- The first of two programs moves. -/
theorem bind {p p' : Prog S α} {s s' : σ} {tr : Trace S} (h : Moves M t p s tr p' s')
    (f : α → Prog S β) : Moves M t (p >>= f) s tr (p' >>= f) s' := by
  change Moves M t (Prog.bind p f) s tr (Prog.bind p' f) s'
  induction h with
  | refl => exact .refl _ _
  | act he _ ih => exact .act he ih
  | @iter ι β body x k _ _ _ _ _ ih =>
    refine .iter ?_
    have hu : Prog.unroll body x (fun b => Prog.bind (k b) f) =
        Prog.bind (Prog.unroll body x k) f := by
      rw [Prog.unroll, Prog.unroll, Prog.bind_assoc]
      refine congrArg _ (funext fun y => ?_)
      cases y <;> rfl
    rw [hu]
    exact ih

/-- A round of a loop that is not the last one. -/
theorem iter_again {body : ι → Prog S (ι ⊕ β)} {x y : ι} {k : β → Prog S α} {s s' : σ}
    {tr : Trace S} (h : Moves M t (body x) s tr (.ret (.inl y)) s') :
    Moves M t (.iter body x k) s tr (.iter body y k) s' :=
  .iter (h.bind (Prog.again body k))

/-- The last round of a loop. -/
theorem iter_done {body : ι → Prog S (ι ⊕ β)} {x : ι} {b : β} {k : β → Prog S α} {s s' : σ}
    {tr : Trace S} (h : Moves M t (body x) s tr (.ret (.inr b)) s') :
    Moves M t (.iter body x k) s tr (k b) s' :=
  .iter (h.bind (Prog.again body k))

/-- What a thread can do alone is a run of the system. -/
theorem reach {G : Guard C σ} (hG : ∀ m l c, G.act m l t c) {p p' : Prog S (C.Res × C.Loc)}
    {s s' : σ} {tr : Trace S} (h : Moves M t p s tr p' s') :
    ∀ {c : Config C σ} {op : C.Op}, c.mem = s → c.thr t = .busy op p →
      Reach M G c ⟨s', c.log ++ tr.map fun e => .act t e.1 e.2,
        Function.update c.thr t (.busy op p')⟩ := by
  induction h with
  | refl p s =>
    rintro c op rfl ht
    rw [← ht, Function.update_eq_self, List.map_nil, List.append_nil]
  | @act cm k p' s s' s'' r tr he _ ih =>
    rintro c op rfl ht
    have hstep : Step M G c ⟨s', c.log ++ [.act t cm r], Function.update c.thr t (.busy op (k r))⟩ :=
      .act t cm ht (hG _ _ _) he
    refine .head hstep ?_
    have hrest := @ih ⟨s', c.log ++ [.act t cm r], Function.update c.thr t (.busy op (k r))⟩ op rfl
      (Function.update_self ..)
    rw [Function.update_idem, List.append_assoc] at hrest
    exact hrest
  | @iter ι β body x k p' s s' tr _ ih =>
    rintro c op rfl ht
    have hstep : Step M G c
        ⟨c.mem, c.log, Function.update c.thr t (.busy op (Prog.unroll body x k))⟩ := .iter t ht
    refine .head hstep ?_
    have hrest := @ih ⟨c.mem, c.log, Function.update c.thr t (.busy op (Prog.unroll body x k))⟩ op rfl
      (Function.update_self ..)
    rw [Function.update_idem] at hrest
    exact hrest

end Moves

/-- A call that a thread can run alone is a run of the system. -/
theorem Runs.reach {G : Guard C σ} (hG : ∀ m l c, G.act m l t c) {c : Config C σ} (op : C.Op)
    {l l' : C.Loc} {res : C.Res} {m : σ} (hcall : G.call t op) (ht : c.thr t = .idle l)
    (h : Runs M t (C.code t op l) c.mem (res, l') m) :
    ∃ tr : Trace S, Reach M G c ⟨m, (c.log ++ [.call t op] ++ tr.map fun e => .act t e.1 e.2) ++
      [.ret t op res], Function.update c.thr t (.idle l')⟩ := by
  obtain ⟨tr, hm⟩ := h
  have hstart : Step M G c ⟨c.mem, c.log ++ [.call t op],
      Function.update c.thr t (.busy op (C.code t op l))⟩ := .call t op ht hcall
  have hmoves := hm.reach hG (c := ⟨c.mem, c.log ++ [.call t op],
    Function.update c.thr t (.busy op (C.code t op l))⟩) rfl (Function.update_self ..)
  rw [Function.update_idem] at hmoves
  have hret := Step.ret (M := M) (G := G) (c := ⟨m, c.log ++ [.call t op] ++
    tr.map fun e => .act t e.1 e.2, Function.update c.thr t (.busy op (.ret (res, l')))⟩) t
    (Function.update_self ..)
  rw [Function.update_idem] at hret
  exact ⟨tr, (Relation.ReflTransGen.head hstart hmoves).tail hret⟩

/-- The trace of a run of thread `t`, as events. -/
def Trace.events (t : Tid) (tr : Trace S) : Log C := tr.map fun e => .act t e.1 e.2

variable {D : Discipline C σ γ}

/-- The steps of thread `t` under the discipline. -/
def Discipline.Steps (D : Discipline C σ γ) (t : Tid) : World C σ γ → World C σ γ → Prop :=
  Relation.ReflTransGen fun x x' => D.Inv x ∧ D.Inv x' ∧ D.Rel t x x'

/-- From `x`, the program of thread `t` returns and establishes `Q`. -/
def Discipline.Returns (D : Discipline C σ γ) (t : Tid) (p : Prog S α) (x : World C σ γ)
    (Q : α → World C σ γ → Prop) : Prop :=
  ∃ tr a m g, Moves D.machine t p x.mem tr (.ret a) m ∧ D.Inv ⟨m, x.log ++ tr.events t, g⟩ ∧
    D.Steps t x ⟨m, x.log ++ tr.events t, g⟩ ∧ Q a ⟨m, x.log ++ tr.events t, g⟩

namespace Discipline.Returns

theorem ret {a : α} {x : World C σ γ} {Q : α → World C σ γ → Prop} (hi : D.Inv x) (hq : Q a x) :
    D.Returns t (.ret a) x Q := by
  have hx : (⟨x.mem, x.log ++ Trace.events t ([] : Trace S), x.ghost⟩ : World C σ γ) = x := by
    simp [Trace.events]
  exact ⟨[], a, x.mem, x.ghost, .refl _ _, by rwa [hx], by rw [hx]; exact .refl, by rwa [hx]⟩

/-- After moving to another program, that program returns. -/
theorem after {p p' : Prog S α} {x : World C σ γ} {tr : Trace S} {m : σ} {g : γ}
    {Q : α → World C σ γ → Prop} (hm : Moves D.machine t p x.mem tr p' m)
    (hs : D.Steps t x ⟨m, x.log ++ tr.events t, g⟩)
    (h : D.Returns t p' ⟨m, x.log ++ tr.events t, g⟩ Q) : D.Returns t p x Q := by
  obtain ⟨tr', a, m', g', hm', hi', hs', hq⟩ := h
  have hlog : x.log ++ tr.events t ++ tr'.events t = x.log ++ (tr ++ tr').events t := by
    simp [Trace.events]
  simp only [hlog] at hi' hs' hq
  exact ⟨tr ++ tr', a, m', g', hm.trans hm', hi', hs.trans hs', hq⟩

end Discipline.Returns

/-- Wherever a program with an outline gets to alone, the rest of it has an outline. -/
theorem Outline.moves (hG : ∀ m l c, D.guard.act m l t c) {p p' : Prog S α} {s m : σ}
    {tr : Trace S} (hm : Moves D.machine t p s tr p' m) {P : World C σ γ → Prop}
    {Q : α → World C σ γ → Prop} (h : Outline D t p P Q) {x : World C σ γ} (hx : x.mem = s)
    (hi : D.Inv x) (hp : P x) :
    ∃ g P', D.Inv ⟨m, x.log ++ tr.events t, g⟩ ∧ P' ⟨m, x.log ++ tr.events t, g⟩ ∧
      Outline D t p' P' Q := by
  induction hm generalizing P x with
  | refl p s =>
    subst hx
    refine ⟨x.ghost, P, ?_, ?_, h⟩ <;> simpa [Trace.events]
  | @act c k p' s s' s'' r tr he _ ih =>
    subst hx
    obtain ⟨R, hc, -, hk⟩ := h
    obtain ⟨g, hi', -, hR⟩ := hc x r s' hi hp (hG _ _ _) he
    obtain ⟨g', P', h'⟩ := ih (hk r).2 rfl hi' hR
    refine ⟨g', P', ?_⟩
    simpa [Trace.events] using h'
  | iter _ ih =>
    obtain ⟨P', hp', -, ho⟩ := h.unroll hi hp
    exact ih ho hx hi hp'

/-- Whatever a program with an outline returns alone satisfies its postcondition. -/
theorem Outline.runs_post (hG : ∀ m l c, D.guard.act m l t c) {p : Prog S α}
    {P : World C σ γ → Prop} {Q : α → World C σ γ → Prop} (h : Outline D t p P Q)
    {x : World C σ γ} (hi : D.Inv x) (hp : P x) {a : α} {m : σ}
    (hr : Runs D.machine t p x.mem a m) : ∃ l g, D.Inv ⟨m, l, g⟩ ∧ Q a ⟨m, l, g⟩ := by
  obtain ⟨tr, hm⟩ := hr
  obtain ⟨g, P', hi', hp', ho⟩ := h.moves hG hm rfl hi hp
  exact ⟨_, g, hi', ho _ hi' hp'⟩

/-- Where its precondition holds, a program with an outline returns and establishes its
postcondition; the induction follows the syntax, and within a loop its numbering. -/
theorem Outline.runs (hT : D.Total) (hF : ∀ e, ¬ D.MayFail e) {p : Prog S α}
    {P : World C σ γ → Prop} {Q : α → World C σ γ → Prop} (h : Outline D t p P Q) :
    ∀ {x : World C σ γ}, D.Inv x → P x → D.Returns t p x Q := by
  induction p generalizing P with
  | ret a => exact fun hi hp => .ret hi (h _ hi hp)
  | fail e => exact fun hi hp => absurd (h _ hi hp) (hF e)
  | act c k ih =>
    intro x hi hp
    obtain ⟨R, hc, hen, hk⟩ := h
    obtain ⟨hg, hex⟩ := hen hT x hi hp
    obtain ⟨⟨r, m⟩, he⟩ := Option.isSome_iff_exists.mp hex
    obtain ⟨g, hi', hr, hR⟩ := hc x r m hi hp hg he
    exact .after (.act he (.refl _ _)) (.single ⟨hi, hi', hr⟩)
      (ih r (hk r).2 hi' hR)
  | @iter α ι β body i k ihb ihk =>
    intro x hi hp
    obtain ⟨J, K, h0, _, hb, hk⟩ := h
    have hloop : ∀ n j (y : World C σ γ), D.Inv y → J j n y →
        D.Returns t (.iter body j k) y Q := by
      intro n
      induction n using Nat.strong_induction_on with
      | _ n ih =>
        intro j y hi hj
        obtain ⟨tr, a, m, g, hm, hi', hs, hq⟩ := ihb j (hb j n) hi hj
        cases a with
        | inl j' =>
          obtain ⟨n', hn, hj'⟩ := hq
          exact .after hm.iter_again hs (ih n' (hn hT) j' _ hi' hj')
        | inr b => exact .after hm.iter_done hs (ihk b (hk b) hi' hq)
    obtain ⟨n, hn⟩ := h0 x hi hp
    exact hloop n i x hi hn

end Conc
