import DMTree.Conc.Prog

/-!
# Threads that share a state

Any number of threads issue calls one after another; the commands of different threads interleave
arbitrarily. A configuration carries the whole history of the run (`log`), which is what statements
about a run quantify over: a position in the log is an instant of the run.
-/

namespace Conc

/-- The code the threads run: the calls a client can make, what they return, the variables a thread
keeps from one call to the next, and the program of each call. -/
structure Client (S : Sig) where
  /-- The calls. -/
  Op : Type
  /-- The results. -/
  Res : Type
  /-- The variables of a thread that survive a call. -/
  Loc : Type
  /-- The program thread `t` runs for a call. -/
  code : Tid → Op → Loc → Prog S (Res × Loc)

/-- What happens in a run. -/
inductive Event (S : Sig) (Op Res : Type) where
  /-- Thread `t` makes a call. -/
  | call (t : Tid) (op : Op)
  /-- Thread `t` executes a command, which answers `r`. -/
  | act (t : Tid) (c : S.Cmd) (r : S.Resp c)
  /-- The call of thread `t` returns. -/
  | ret (t : Tid) (op : Op) (res : Res)

theorem Event.call_ne_ret {S : Sig} {Op Res : Type} {t t' : Tid} {op op' : Op} {res : Res} :
    (.call t op : Event S Op Res) ≠ .ret t' op' res := nofun

theorem Event.act_ne_ret {S : Sig} {Op Res : Type} {t t' : Tid} {c : S.Cmd} {r : S.Resp c} {op : Op}
    {res : Res} : (.act t c r : Event S Op Res) ≠ .ret t' op res := nofun

/-- The thread of an event. -/
def Event.tid {S : Sig} {Op Res : Type} : Event S Op Res → Tid
  | call t _ => t
  | act t _ _ => t
  | ret t _ _ => t

/-- A thread is between two calls, or inside one. -/
inductive Thread {S : Sig} (C : Client S) where
  | idle (l : C.Loc)
  | busy (op : C.Op) (p : Prog S (C.Res × C.Loc))

/-- The history of a run, oldest event first. -/
abbrev Log {S : Sig} (C : Client S) := List (Event S C.Op C.Res)

/-- A configuration of a run. -/
structure Config {S : Sig} (C : Client S) (σ : Type) where
  /-- The shared state. -/
  mem : σ
  /-- The history. -/
  log : Log C
  /-- The threads. -/
  thr : Tid → Thread C

variable {S : Sig} {σ : Type} {C : Client S}

/-- A condition on the calls that are made and on the steps that are taken: it sees the shared state
and the history before the step. -/
structure Guard (C : Client S) (σ : Type) where
  /-- The calls a run may contain. -/
  call : Tid → C.Op → Prop
  /-- The commands a run may execute, in the state they are executed in. -/
  act : σ → Log C → Tid → S.Cmd → Prop

/-- The guard that allows everything. -/
def Guard.all : Guard C σ := ⟨fun _ _ => True, fun _ _ _ _ => True⟩

/-- One step of one thread. -/
inductive Step (M : Machine S σ) (G : Guard C σ) : Config C σ → Config C σ → Prop where
  /-- An idle thread makes a call. -/
  | call {c : Config C σ} {l : C.Loc} (t : Tid) (op : C.Op) (ht : c.thr t = .idle l)
      (hg : G.call t op) :
      Step M G c ⟨c.mem, c.log ++ [.call t op],
        Function.update c.thr t (.busy op (C.code t op l))⟩
  /-- A thread executes its next command. -/
  | act {c : Config C σ} {op : C.Op} {m : σ} (t : Tid) (cmd : S.Cmd)
      {k : S.Resp cmd → Prog S (C.Res × C.Loc)} {r : S.Resp cmd}
      (ht : c.thr t = .busy op (.act cmd k)) (hg : G.act c.mem c.log t cmd)
      (he : M.exec t cmd c.mem = some (r, m)) :
      Step M G c ⟨m, c.log ++ [.act t cmd r], Function.update c.thr t (.busy op (k r))⟩
  /-- A thread enters a loop or starts it again. -/
  | iter {c : Config C σ} {op : C.Op} {ι β : Type} (t : Tid) {body : ι → Prog S (ι ⊕ β)} {x : ι}
      {k : β → Prog S (C.Res × C.Loc)} (ht : c.thr t = .busy op (.iter body x k)) :
      Step M G c ⟨c.mem, c.log, Function.update c.thr t (.busy op (Prog.unroll body x k))⟩
  /-- A call returns. -/
  | ret {c : Config C σ} {op : C.Op} {res : C.Res} {l : C.Loc} (t : Tid)
      (ht : c.thr t = .busy op (.ret (res, l))) :
      Step M G c ⟨c.mem, c.log ++ [.ret t op res], Function.update c.thr t (.idle l)⟩

/-- The configurations of the runs from `c`. -/
abbrev Reach (M : Machine S σ) (G : Guard C σ) : Config C σ → Config C σ → Prop :=
  Relation.ReflTransGen (Step M G)

/-- A run under a guard is a run under any weaker guard. -/
theorem Reach.mono {M : Machine S σ} {G G' : Guard C σ} {c c' : Config C σ}
    (h : Reach M G c c') (hcall : ∀ t op, G.call t op → G'.call t op)
    (hact : ∀ m l t cmd, G.act m l t cmd → G'.act m l t cmd) : Reach M G' c c' := by
  induction h with
  | refl => exact .refl
  | tail _ hs ih =>
    refine ih.tail ?_
    cases hs with
    | call t op ht hg => exact .call t op ht (hcall t op hg)
    | act t cmd ht hg he => exact .act t cmd ht (hact _ _ t cmd hg) he
    | iter t ht => exact .iter t ht
    | ret t ht => exact .ret t ht

/-- A run adds to the history. -/
theorem Reach.log_prefix {M : Machine S σ} {G : Guard C σ} {c c' : Config C σ}
    (h : Reach M G c c') : c.log <+: c'.log := by
  induction h with
  | refl => exact List.prefix_rfl
  | tail _ hs ih =>
    refine ih.trans ?_
    cases hs with
    | call t op ht hg => exact List.prefix_append ..
    | act t cmd ht hg he => exact List.prefix_append ..
    | iter t ht => exact List.prefix_rfl
    | ret t ht => exact List.prefix_append ..

end Conc
