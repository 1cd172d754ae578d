import DMTree.Conc.Ticket
import DMTree.LocalLockTable

/-!
# The queue of one side of a lock node

The 32-bit counters of a lock node, read as a queue of tickets without wrap-around.
-/

namespace DMTree

open Conc

/-- The counters of side `s` stand for the queue `q`. -/
structure QueueAt (s : Side) (n : LocalLockNode) (q : Tickets) : Prop where
  wf : q.WF (2 ^ 32)
  ticket : n.ticket s = q.next % 2 ^ 32
  current : n.current s = q.cur % 2 ^ 32

variable {s : Side} {n n' : LocalLockNode} {q : Tickets} {t : Tid} {c T : Nat}

/-- The length of a queue, computed from the counters. -/
theorem queueLength_mod (h1 : c ≤ T) (h2 : T - c < 2 ^ 32) :
    queueLength (T % 2 ^ 32) (c % 2 ^ 32) = T - c := by
  unfold queueLength
  omega

theorem QueueAt.empty : QueueAt s {} Tickets.empty := ⟨Tickets.WF.empty (by decide), rfl, rfl⟩

theorem QueueAt.same (h : QueueAt s n q) (ht : n'.ticket s = n.ticket s)
    (hc : n'.current s = n.current s) : QueueAt s n' q :=
  ⟨h.wf, ht.trans h.ticket, hc.trans h.current⟩

/-- `ticket.fetch_add(1)` -/
theorem QueueAt.take (h : QueueAt s n q) (ht : q.tick t = none)
    (hroom : queueLength (n.ticket s) (n.current s) + 1 < 2 ^ 32) :
    QueueAt s { n with ticket := Function.update n.ticket s ((n.ticket s + 1) % 2 ^ 32) }
      (q.take t) := by
  rw [h.ticket, h.current, queueLength_mod h.wf.le h.wf.fits] at hroom
  exact ⟨h.wf.take ht hroom, by simp [Tickets.take, h.ticket], h.current⟩

/-- A waiting call sees that its turn has come. -/
theorem QueueAt.eq_cur (h : QueueAt s n q) (hc : q.tick t = some c)
    (he : c % 2 ^ 32 = n.current s) : c = q.cur :=
  h.wf.eq_cur hc (he.trans h.current)

theorem QueueAt.grant (h : QueueAt s n q) (ht : q.tick t = some q.cur) : QueueAt s n (q.grant t) :=
  ⟨h.wf.grant ht, h.ticket, h.current⟩

/-- Nobody has the turn that a waiting call is about to take. -/
theorem QueueAt.turn_none (h : QueueAt s n q) (ht : q.tick t = some q.cur)
    (hno : q.turn ≠ some t) : q.turn = none := by
  cases hturn : q.turn with
  | none => rfl
  | some u => exact absurd (h.wf.turn_eq ht hturn ▸ hturn) hno

/-- `current.fetch_add(1)` -/
theorem QueueAt.leave (h : QueueAt s n q) (ht : q.turn = some t) :
    QueueAt s { n with current := Function.update n.current s ((n.current s + 1) % 2 ^ 32) }
      (q.leave t) :=
  ⟨h.wf.leave ht, h.ticket, by simp [Tickets.leave, h.current]⟩

/-- A thread without a ticket does not have the turn. -/
theorem QueueAt.not_turn (h : QueueAt s n q) (ht : q.tick t = none) : q.turn ≠ some t := by
  intro hturn
  have := h.wf.turn t hturn
  rw [ht] at this
  cases this

end DMTree
