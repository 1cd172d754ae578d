import DMTree.Conc.History

/-!
# Linearizability

A history is linearizable when its calls can be put in one order, each of them between its call and
its return, in which a sequential object gives the answers that were given. A call that has not
returned may stand in the order or be left out.
-/

namespace Conc

variable {S : Sig} {C : Client S}

/-- The open call of `t` after one more event, which stands at the position `n`. -/
def openStep (t : Tid) (n : Nat) (o : Option (Nat × C.Op)) : Event S C.Op C.Res → Option (Nat × C.Op)
  | .call u op => if u = t then some (n, op) else o
  | .act _ _ _ => o
  | .ret u _ _ => if u = t then none else o

/-- The call of `t` that has not returned: its position, and the call. -/
def openCall (l : Log C) (t : Tid) : Option (Nat × C.Op) :=
  (l.foldl (fun a e => (a.1 + 1, openStep t a.1 a.2 e)) (0, none)).2

/-- A sequential object. -/
structure Object (Op Res : Type) where
  State : Type
  init : State
  /-- In a state, a call may have a result and lead to a state. -/
  Does : State → Op → Res → State → Prop

/-- A call of a history: where it was made, and its result. -/
structure Placed (Op Res : Type) where
  pos : Nat
  op : Op
  res : Res

/-- Calls, one after another. -/
inductive Object.Runs {Op Res : Type} (O : Object Op Res) :
    O.State → List (Placed Op Res) → O.State → Prop where
  | nil (s : O.State) : Runs O s [] s
  | cons {s s' s'' : O.State} {a : Placed Op Res} {l : List (Placed Op Res)}
      (h : O.Does s a.op a.res s') (hl : Runs O s' l s'') : Runs O s (a :: l) s''

/-- `ops` is a linearization of the calls in `K`. -/
structure Linearizes (O : Object C.Op C.Res) (K : C.Op → Prop) (l : Log C)
    (ops : List (Placed C.Op C.Res)) : Prop where
  /-- They are calls of the history. -/
  calls : ∀ a ∈ ops, K a.op ∧ ∃ t, l[a.pos]? = some (.call t a.op)
  once : (ops.map Placed.pos).Nodup
  /-- Every call that has returned is among them, with its result. -/
  complete : ∀ (j : Nat) t op res, l[j]? = some (.ret t op res) → K op →
    ∃ i, openCall (l.take j) t = some (i, op) ∧ (⟨i, op, res⟩ : Placed C.Op C.Res) ∈ ops
  /-- A call that has returned comes before all that are made later. -/
  realTime : ops.Pairwise fun a b => ∀ (j : Nat) t op res, l[j]? = some (.ret t op res) →
    openCall (l.take j) t = some (b.pos, op) → a.pos < j
  legal : ∃ s, O.Runs O.init ops s

/-- The calls in `K` have a linearization. -/
def Linearizable (O : Object C.Op C.Res) (K : C.Op → Prop) (l : Log C) : Prop :=
  ∃ ops, Linearizes O K l ops

/-- Instants at which calls take effect: the object is in the state `st d` when the history has the
length `d`, and the calls `upd d` have led there. A call that is not among these leaves the object as
it is at some instant between call and return. -/
structure Points (O : Object C.Op C.Res) (K : C.Op → Prop) (l : Log C) (st : Nat → O.State)
    (upd : Nat → List (Placed C.Op C.Res)) : Prop where
  start : st 0 = O.init
  legal : ∀ d < l.length, O.Runs (st d) (upd (d + 1)) (st (d + 1))
  call : ∀ d, ∀ a ∈ upd d, K a.op ∧ a.pos < d ∧ ∃ t, l[a.pos]? = some (.call t a.op)
  ret : ∀ d, ∀ a ∈ upd d, ∀ (j : Nat) t op res, l[j]? = some (.ret t op res) →
    openCall (l.take j) t = some (a.pos, op) → d ≤ j
  nodup : ∀ d, ((upd d).map Placed.pos).Nodup
  once : ∀ d d' a a', a ∈ upd d → a' ∈ upd d' → a.pos = a'.pos → d = d'
  /-- What a call that has returned has done. -/
  complete : ∀ (j : Nat) t op res, l[j]? = some (.ret t op res) → K op →
    ∃ i, openCall (l.take j) t = some (i, op) ∧
      ((∃ d < l.length, (⟨i, op, res⟩ : Placed C.Op C.Res) ∈ upd (d + 1)) ∨
        (∀ d, ∀ a ∈ upd d, a.pos ≠ i) ∧ ∃ d, i < d ∧ d ≤ j ∧ O.Does (st d) op res (st d))

/-- Every return in the history belongs to an open call, and a thread inside a call has one. -/
structure LogOk {σ : Type} (c : Config C σ) : Prop where
  busy : ∀ t op p, c.thr t = .busy op p → ∃ i, openCall c.log t = some (i, op)
  ret : ∀ (j : Nat) t op res, c.log[j]? = some (.ret t op res) →
    ∃ i, openCall (c.log.take j) t = some (i, op)

end Conc
