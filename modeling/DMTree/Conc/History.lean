import DMTree.Conc.Pool

/-!
# Positions in a history

Statements about a run speak of what happened when. `lastPos p l` counts the events of `l` up to and
including the last one that satisfies `p`, so that it is `0` when there is none and otherwise one more
than the position of that event.
-/

namespace Conc

variable {ε : Type}

/-- The number of events up to and including the last one that satisfies `p`. -/
def lastPos (p : ε → Bool) (l : List ε) : Nat :=
  (l.foldl (fun a e => (a.1 + 1, if p e then a.1 + 1 else a.2)) (0, 0)).2

/-- Thread `t` makes a call. -/
def Event.isCall {S : Sig} {Op Res : Type} (t : Tid) : Event S Op Res → Bool
  | .call u _ => u == t
  | _ => false

/-- The last call that thread `t` has made. -/
def lastCall {S : Sig} {C : Client S} (l : Log C) (t : Tid) : Option C.Op :=
  l.foldl (fun a e => match e with
    | .call u op => if u = t then some op else a
    | _ => a) none

end Conc
