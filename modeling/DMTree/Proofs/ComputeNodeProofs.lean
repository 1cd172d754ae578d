import DMTree.Conc.Proofs.ProgProofs
import DMTree.ComputeNode

/-!
# The lock table inside the calls of a compute node
-/

namespace DMTree

open Conc

variable {i : Nat} {α β ι : Type}

@[simp] theorem onLock_pure (a : α) : onLock i (pure a) = pure a := rfl

@[simp] theorem onLock_bind (p : LockProg α) (f : α → LockProg β) :
    onLock i (p >>= f) = onLock i p >>= fun a => onLock i (f a) := Prog.lift_bind p f

@[simp] theorem onLock_ite (b : Prop) [Decidable b] (p q : LockProg α) :
    onLock i (if b then p else q) = if b then onLock i p else onLock i q := Prog.lift_ite b p q

@[simp] theorem onLock_loop (body : ι → LockProg (ι ⊕ β)) (x : ι) :
    onLock i (Prog.loop body x) = Prog.loop (fun y => onLock i (body y)) x := rfl

/-- The commands of a function of the lock table, inside a call. -/
theorem all_onLock {φ : NodeCmd → Prop} {p : LockProg α} (h : p.All fun c => φ (.lock i c)) :
    (onLock i p).All φ := by
  induction p with
  | ret a => trivial
  | fail e => trivial
  | act c k ih => exact ⟨h.1, fun r => ih r (h.2 r)⟩
  | iter body x k ihb ihk => exact ⟨fun y => ihb y (h.1 y), fun b => ihk b (h.2 b)⟩

/-- An access changes one lock node. -/
theorem exec_lock {t : Tid} {c : LockCmd} {s m : NodeState} {r : c.Resp}
    (h : nodeMachine.exec t (.lock i c) s = some (r, m)) :
    ∃ n, (s.locks i).exec c = some (r, n) ∧
      m = { s with locks := Function.update s.locks i n } := by
  simp only [nodeMachine, Option.map_eq_some_iff] at h
  obtain ⟨⟨r', n⟩, hn, he⟩ := h
  cases he
  exact ⟨n, hn, rfl⟩

theorem exec_remoteWrite {t : Tid} {k : Key} {v : Value} {s m : NodeState} {r : Unit}
    (h : nodeMachine.exec t (.remoteWrite k v) s = some (r, m)) :
    m = { s with remote := Function.update s.remote k v } := by
  simp only [nodeMachine, Option.some.injEq, Prod.mk.injEq] at h
  exact h.2.symm

end DMTree
