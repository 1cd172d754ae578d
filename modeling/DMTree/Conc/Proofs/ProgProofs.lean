import DMTree.Conc.Prog

/-!
# Laws of programs

Programs form a lawful monad, and a translation of the commands commutes with the operations.
-/

namespace Conc.Prog

variable {S T : Sig} {α β δ ι : Type}

theorem bind_ret (p : Prog S α) : bind p ret = p := by
  induction p with
  | ret a => rfl
  | fail e => rfl
  | act c k ih => exact congrArg (act c) (funext ih)
  | iter body x k _ ih => exact congrArg (iter body x) (funext ih)

theorem bind_assoc (p : Prog S α) (f : α → Prog S β) (g : β → Prog S δ) :
    bind (bind p f) g = bind p fun a => bind (f a) g := by
  induction p with
  | ret a => rfl
  | fail e => rfl
  | act c k ih => exact congrArg (act c) (funext fun r => ih r f)
  | iter body x k _ ih => exact congrArg (iter body x) (funext fun b => ih b f)

instance : LawfulMonad (Prog S) :=
  LawfulMonad.mk' (Prog S) bind_ret (fun _ _ => rfl) bind_assoc

section Lift

variable {f : (c : S.Cmd) → Prog T (S.Resp c)} {g : S.Err → T.Err}

@[simp] theorem lift_bind (p : Prog S α) (h : α → Prog S β) :
    lift f g (p >>= h) = lift f g p >>= fun a => lift f g (h a) := by
  change lift f g (bind p h) = bind (lift f g p) fun a => lift f g (h a)
  induction p with
  | ret a => rfl
  | fail e => rfl
  | act c k ih =>
    simp only [bind, lift, bind_assoc]
    exact congrArg _ (funext fun r => ih r h)
  | iter body x k _ ih => exact congrArg (iter _ x) (funext fun b => ih b h)

@[simp] theorem lift_ite (b : Prop) [Decidable b] (p q : Prog S α) :
    lift f g (if b then p else q) = if b then lift f g p else lift f g q := by
  split <;> rfl

end Lift

/-! ## Programs all of whose commands satisfy a condition -/

section All

variable {φ : S.Cmd → Prop}

@[simp] theorem all_pure (a : α) : All φ (pure a : Prog S α) := trivial

@[simp] theorem all_cmd (c : S.Cmd) : All φ (cmd c) ↔ φ c := by simp [cmd, All]

theorem All.imp {ψ : S.Cmd → Prop} {p : Prog S α} (h : All φ p) (hi : ∀ c, φ c → ψ c) : All ψ p := by
  induction p with
  | ret a => trivial
  | fail e => trivial
  | act c k ih => exact ⟨hi c h.1, fun r => ih r (h.2 r)⟩
  | iter body x k ihb ihk => exact ⟨fun y => ihb y (h.1 y), fun b => ihk b (h.2 b)⟩

theorem all_of_forall (h : ∀ c, φ c) (p : Prog S α) : All φ p := by
  induction p with
  | ret a => trivial
  | fail e => trivial
  | act c k ih => exact ⟨h c, ih⟩
  | iter body x k ihb ihk => exact ⟨ihb, ihk⟩

theorem All.bind {p : Prog S α} {h : α → Prog S β} (hp : All φ p) (hh : ∀ a, All φ (h a)) :
    All φ (p >>= h) := by
  change All φ (Prog.bind p h)
  induction p with
  | ret a => exact hh a
  | fail e => trivial
  | act c k ih => exact ⟨hp.1, fun r => ih r (hp.2 r) hh⟩
  | iter body x k _ ih => exact ⟨hp.1, fun b => ih b (hp.2 b) hh⟩

theorem All.loop {body : ι → Prog S (ι ⊕ β)} {x : ι} (h : ∀ y, All φ (body y)) :
    All φ (loop body x) := ⟨h, fun _ => trivial⟩

theorem All.ite {b : Prop} [Decidable b] {p q : Prog S α} (hp : All φ p) (hq : All φ q) :
    All φ (if b then p else q) := by
  split
  · exact hp
  · exact hq

end All

end Conc.Prog
