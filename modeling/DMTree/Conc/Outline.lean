import DMTree.Conc.Pool

/-!
# Proof outlines under interference

A `Discipline` says how threads behave towards each other: an invariant of the shared state, and for
each thread `t` the relation `Rel t` that bounds what one of its steps may change. Both speak about a
`World`, which is a state of the run together with ghost state; ghost state is chosen by the proof at
every step and never influences a program.

`Outline D t p P Q` is a proof outline of the program `p` of thread `t`: an assertion for every
control point, with `P` at the start and `Q` at the end, such that every command keeps the discipline
and every assertion is stable under the steps of the other threads.
-/

namespace Conc

variable {S : Sig} {σ γ : Type} {C : Client S}

/-- A state of a run with ghost state. -/
structure World (C : Client S) (σ γ : Type) where
  /-- The shared state. -/
  mem : σ
  /-- The history. -/
  log : Log C
  /-- The ghost state. -/
  ghost : γ

/-- How the threads of a system behave towards each other. -/
structure Discipline (C : Client S) (σ γ : Type) where
  /-- The meaning of the commands. -/
  machine : Machine S σ
  /-- The calls and steps under consideration. -/
  guard : Guard C σ
  /-- The invariant of the shared state. -/
  Inv : World C σ γ → Prop
  /-- What one step of a thread may change. -/
  Rel : Tid → World C σ γ → World C σ γ → Prop
  /-- The assertions that are not claimed to hold. -/
  MayFail : S.Err → Prop
  /-- Whether outlines also show that loops end and that commands can be executed. -/
  Total : Prop := False

namespace Discipline

variable (D : Discipline C σ γ)

/-- `P` survives every step of a thread other than `t`. -/
def Stable (t : Tid) (P : World C σ γ → Prop) : Prop :=
  ∀ u x x', u ≠ t → D.Inv x → D.Inv x' → D.Rel u x x' → P x → P x'

/-- Appending the event `e` (and passing to the shared state `m`) is a step of `t` from `x` that
keeps the discipline and establishes `R`. -/
def Does (t : Tid) (x : World C σ γ) (m : σ) (e : Event S C.Op C.Res)
    (R : World C σ γ → Prop) : Prop :=
  ∃ g, D.Inv ⟨m, x.log ++ [e], g⟩ ∧ D.Rel t x ⟨m, x.log ++ [e], g⟩ ∧ R ⟨m, x.log ++ [e], g⟩

/-- Executing `c` where `P` holds keeps the discipline and establishes `R r` for the answer `r`. -/
def Cmd (t : Tid) (c : S.Cmd) (P : World C σ γ → Prop) (R : S.Resp c → World C σ γ → Prop) : Prop :=
  ∀ x r m, D.Inv x → P x → D.guard.act x.mem x.log t c → D.machine.exec t c x.mem = some (r, m) →
    D.Does t x m (.act t c r) (R r)

/-- The command `c` can be executed wherever `P` holds. -/
def Enabled (t : Tid) (c : S.Cmd) (P : World C σ γ → Prop) : Prop :=
  ∀ x, D.Inv x → P x → D.guard.act x.mem x.log t c ∧ (D.machine.exec t c x.mem).isSome

end Discipline

/-- A proof outline of the program of thread `t` with precondition `P` and postcondition `Q`. The
assertion `J` at the head of a loop has a number that gets smaller with every round, as far as the
discipline asks for it. -/
def Outline (D : Discipline C σ γ) (t : Tid) :
    {α : Type} → Prog S α → (World C σ γ → Prop) → (α → World C σ γ → Prop) → Prop
  | _, .ret a, P, Q => ∀ x, D.Inv x → P x → Q a x
  | _, .fail e, P, _ => ∀ x, D.Inv x → P x → D.MayFail e
  | _, .act c k, P, Q => ∃ R : S.Resp c → World C σ γ → Prop,
      D.Cmd t c P R ∧ (D.Total → D.Enabled t c P) ∧
        ∀ r, D.Stable t (R r) ∧ Outline D t (k r) (R r) Q
  | _, .iter (ι := ι) (β := β) body i k, P, Q =>
      ∃ (J : ι → Nat → World C σ γ → Prop) (K : β → World C σ γ → Prop),
        (∀ x, D.Inv x → P x → ∃ n, J i n x) ∧ (∀ j n, D.Stable t (J j n)) ∧
        (∀ j n, Outline D t (body j) (J j n)
          (Sum.elim (fun j' x => ∃ n', (D.Total → n' < n) ∧ J j' n' x) K)) ∧
        ∀ b, Outline D t (k b) (K b) Q

/-- The obligations under which a system of threads keeps a discipline: for the calls that the guard
allows, every call has an outline from `Pre` to `Post`, and `Idle` is what a thread knows between two
calls. -/
structure Keeps (D : Discipline C σ γ) (Idle : Tid → C.Loc → World C σ γ → Prop)
    (Pre : Tid → C.Op → C.Loc → World C σ γ → Prop)
    (Post : Tid → C.Op → C.Res → C.Loc → World C σ γ → Prop) : Prop where
  idle_stable : ∀ t l, D.Stable t (Idle t l)
  pre_stable : ∀ t op l, D.Stable t (Pre t op l)
  call : ∀ t op l x, D.guard.call t op → D.Inv x → Idle t l x →
    D.Does t x x.mem (.call t op) (Pre t op l)
  code : ∀ t op l, D.guard.call t op →
    Outline D t (C.code t op l) (Pre t op l) fun a => Post t op a.1 a.2
  ret : ∀ t op res l x, D.Inv x → Post t op res l x → D.Does t x x.mem (.ret t op res) (Idle t l)

/-- What is known about a thread in a configuration. -/
def ThreadOk (D : Discipline C σ γ) (Idle : Tid → C.Loc → World C σ γ → Prop)
    (Post : Tid → C.Op → C.Res → C.Loc → World C σ γ → Prop) (x : World C σ γ) (t : Tid) :
    Thread C → Prop
  | .idle l => Idle t l x
  | .busy op p => ∃ P, P x ∧ D.Stable t P ∧ Outline D t p P fun a => Post t op a.1 a.2

end Conc
