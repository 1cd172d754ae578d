import Mathlib

/-!
# Programs over atomic commands

A client program is a tree of atomic commands on a shared state. Between two commands a program
only computes on its own variables, so a command is also the granularity at which programs of
different threads interleave. Loops (`goto` back to a label, `while (true)`) are kept in the syntax
as `iter`, so that a program needs no fuel and may run forever.

* `Prog S α` is the type of programs that return an `α`.
* `Machine S σ` gives the meaning of the commands on a shared state `σ`.
* `Moves M t p s tr p' s'` is what thread `t` can do with nobody else moving, and `Runs M t p s a s'`
  is the case that it returns `a`.
-/

namespace Conc

/-- A thread. -/
abbrev Tid := Nat

/-- The atomic commands of a language, the answer each of them gives, and the assertions of its
programs. -/
structure Sig where
  /-- The commands. -/
  Cmd : Type
  /-- The answer of a command. -/
  Resp : Cmd → Type
  /-- The assertions a program can fail. -/
  Err : Type

/-- Programs that return an `α`. -/
inductive Prog (S : Sig) : Type → Type 1 where
  /-- Return. -/
  | ret {α : Type} (a : α) : Prog S α
  /-- A failed assertion: the thread stops here. -/
  | fail {α : Type} (e : S.Err) : Prog S α
  /-- Issue the command `c` and go on with its answer. -/
  | act {α : Type} (c : S.Cmd) (k : S.Resp c → Prog S α) : Prog S α
  /-- Run `body` from `x`, and again from `y` as long as it returns `Sum.inl y`; go on with `k b`
  when it returns `Sum.inr b`. -/
  | iter {α ι β : Type} (body : ι → Prog S (ι ⊕ β)) (x : ι) (k : β → Prog S α) : Prog S α

namespace Prog

variable {S T : Sig} {α β ι : Type}

/-- Sequential composition. -/
def bind : Prog S α → (α → Prog S β) → Prog S β
  | ret a, f => f a
  | fail e, _ => fail e
  | act c k, f => act c fun r => bind (k r) f
  | iter body x k, f => iter body x fun b => bind (k b) f

instance : Monad (Prog S) where
  pure := ret
  bind := bind

/-- A single command. -/
def cmd (c : S.Cmd) : Prog S (S.Resp c) := act c ret

/-- A loop whose result is the value it is left with. -/
def loop (body : ι → Prog S (ι ⊕ β)) (x : ι) : Prog S β := iter body x ret

/-- `assert(b)`. -/
def assert (b : Bool) (e : S.Err) : Prog S Unit := if b then ret () else fail e

/-- What a loop does after one run of its body. -/
def again (body : ι → Prog S (ι ⊕ β)) (k : β → Prog S α) : ι ⊕ β → Prog S α
  | .inl y => iter body y k
  | .inr b => k b

/-- One unrolling of a loop. -/
def unroll (body : ι → Prog S (ι ⊕ β)) (x : ι) (k : β → Prog S α) : Prog S α :=
  bind (body x) (again body k)

/-- Every command the program can issue satisfies `φ`. -/
def All (φ : S.Cmd → Prop) : {α : Type} → Prog S α → Prop
  | _, ret _ => True
  | _, fail _ => True
  | _, act c k => φ c ∧ ∀ r, All φ (k r)
  | _, iter body _ k => (∀ x, All φ (body x)) ∧ ∀ b, All φ (k b)

/-- Translation of programs along a translation of the commands. -/
def lift (f : (c : S.Cmd) → Prog T (S.Resp c)) (g : S.Err → T.Err) :
    {α : Type} → Prog S α → Prog T α
  | _, ret a => ret a
  | _, fail e => fail (g e)
  | _, act c k => bind (f c) fun r => lift f g (k r)
  | _, iter body x k => iter (fun y => lift f g (body y)) x fun b => lift f g (k b)

end Prog

/-- The meaning of the commands on a shared state: `none` when the command cannot be executed in
that state (a mutex that is taken, an address that holds no such object). -/
structure Machine (S : Sig) (σ : Type) where
  /-- Thread `t` executes `c`. -/
  exec : Tid → (c : S.Cmd) → σ → Option (S.Resp c × σ)

variable {S : Sig} {σ α : Type}

/-- The commands a thread executes and their answers. -/
abbrev Trace (S : Sig) := List (Σ c : S.Cmd, S.Resp c)

/-- Thread `t` alone takes the program `p` from the state `s` to the rest `p'` of it and the state
`s'`, executing the commands `tr`. -/
inductive Moves (M : Machine S σ) (t : Tid) : Prog S α → σ → Trace S → Prog S α → σ → Prop where
  | refl (p : Prog S α) (s : σ) : Moves M t p s [] p s
  | act {c : S.Cmd} {k : S.Resp c → Prog S α} {p' : Prog S α} {s s' s'' : σ} {r : S.Resp c}
      {tr : Trace S} (he : M.exec t c s = some (r, s')) (h : Moves M t (k r) s' tr p' s'') :
      Moves M t (.act c k) s (⟨c, r⟩ :: tr) p' s''
  | iter {ι β : Type} {body : ι → Prog S (ι ⊕ β)} {x : ι} {k : β → Prog S α} {p' : Prog S α}
      {s s' : σ} {tr : Trace S} (h : Moves M t (Prog.unroll body x k) s tr p' s') :
      Moves M t (.iter body x k) s tr p' s'

/-- Thread `t` runs the program alone, and it returns `a`. A program that fails an assertion, gets
stuck or runs forever has no such run. -/
def Runs (M : Machine S σ) (t : Tid) (p : Prog S α) (s : σ) (a : α) (s' : σ) : Prop :=
  ∃ tr, Moves M t p s tr (.ret a) s'

end Conc
