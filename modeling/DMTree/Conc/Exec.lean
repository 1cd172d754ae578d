import DMTree.Conc.Pool

/-!
# Running a schedule

A schedule fixes who moves next; with the commands deterministic it fixes the run. `Config.runIf`
executes a schedule as long as every command passes a check, and `runIf_reach` says that what it
computes is a run of the system.
-/

namespace Conc

variable {S : Sig} {σ : Type} {C : Client S}

/-- One entry of a schedule. -/
inductive Move (C : Client S) where
  /-- Thread `t` makes a call. -/
  | call (t : Tid) (op : C.Op)
  /-- Thread `t` takes its next step. -/
  | step (t : Tid)

/-- `n` steps of thread `t`. -/
def Move.steps (t : Tid) (n : Nat) : List (Move C) := List.replicate n (.step t)

section

-- `ok` is checked in the state a command is executed in
variable (M : Machine S σ) (ok : σ → Log C → Tid → S.Cmd → Bool)

/-- One entry of a schedule, executed: `none` when the thread cannot move. -/
def Config.moveIf (c : Config C σ) : Move C → Option (Config C σ)
  | .call t op =>
    match c.thr t with
    | .idle l => some ⟨c.mem, c.log ++ [.call t op],
        Function.update c.thr t (.busy op (C.code t op l))⟩
    | .busy _ _ => none
  | .step t =>
    match c.thr t with
    | .idle _ => none
    | .busy op (.ret (res, l)) =>
      some ⟨c.mem, c.log ++ [.ret t op res], Function.update c.thr t (.idle l)⟩
    | .busy _ (.fail _) => none
    | .busy op (.act cmd k) =>
      if ok c.mem c.log t cmd then
        match M.exec t cmd c.mem with
        | some (r, m) =>
          some ⟨m, c.log ++ [.act t cmd r], Function.update c.thr t (.busy op (k r))⟩
        | none => none
      else none
    | .busy op (.iter body x k) =>
      some ⟨c.mem, c.log, Function.update c.thr t (.busy op (Prog.unroll body x k))⟩

/-- A schedule, executed. -/
def Config.runIf (c : Config C σ) : List (Move C) → Option (Config C σ)
  | [] => some c
  | m :: ms =>
    match c.moveIf M ok m with
    | some c' => c'.runIf ms
    | none => none

/-- Thread `t` takes steps until it is in no call, fewer than `n`. -/
def Config.finish (t : Tid) : Nat → Config C σ → Option (Config C σ)
  | 0, _ => none
  | n + 1, c =>
    match c.thr t with
    | .idle _ => some c
    | .busy _ _ => (c.moveIf M ok (.step t)).bind (Config.finish t n)

/-- Thread `t` makes calls one after another, each of fewer than `n` steps. -/
def Config.serve (t : Tid) (n : Nat) : List C.Op → Config C σ → Option (Config C σ)
  | [], c => some c
  | op :: ops, c =>
    ((c.moveIf M ok (.call t op)).bind (Config.finish M ok t n)).bind (Config.serve t n ops)

end

/-- A schedule of calls that the guard allows. -/
def Guard.AllowsCalls (G : Guard C σ) (ms : List (Move C)) : Prop :=
  ∀ m ∈ ms, match m with
    | .call t op => G.call t op
    | .step _ => True

variable {M : Machine S σ} {ok : σ → Log C → Tid → S.Cmd → Bool} {G : Guard C σ}

@[simp] theorem allowsCalls_append (ms ms' : List (Move C)) :
    G.AllowsCalls (ms ++ ms') ↔ G.AllowsCalls ms ∧ G.AllowsCalls ms' := List.forall_mem_append

@[simp] theorem allowsCalls_nil : G.AllowsCalls [] := nofun

@[simp] theorem allowsCalls_call (t : Tid) (op : C.Op) (ms : List (Move C)) :
    G.AllowsCalls (.call t op :: ms) ↔ G.call t op ∧ G.AllowsCalls ms := List.forall_mem_cons

@[simp] theorem allowsCalls_steps (t : Tid) (n : Nat) : G.AllowsCalls (Move.steps t n) := by
  intro m hm
  rw [List.eq_of_mem_replicate hm]
  trivial

theorem moveIf_step (hok : ∀ m l t cmd, ok m l t cmd = true → G.act m l t cmd)
    {c c' : Config C σ} {m : Move C} (hm : G.AllowsCalls [m]) (h : c.moveIf M ok m = some c') :
    Step M G c c' := by
  cases m with
  | call t op =>
    simp only [Config.moveIf] at h
    split at h
    · next l ht =>
      cases h
      exact .call t op ht (hm _ (List.mem_singleton_self _))
    · cases h
  | step t =>
    simp only [Config.moveIf] at h
    split at h
    · cases h
    · next op res l ht =>
      cases h
      exact .ret t ht
    · cases h
    · next op cmd k ht =>
      split at h
      · next hcheck =>
        split at h
        · next r m he =>
          cases h
          exact .act t cmd ht (hok _ _ _ _ hcheck) he
        · cases h
      · cases h
    · next op _ _ body x k ht =>
      cases h
      exact .iter t ht

/-- A schedule all of whose commands pass a check that implies the guard is a run. -/
theorem runIf_reach (hok : ∀ m l t cmd, ok m l t cmd = true → G.act m l t cmd)
    (ms : List (Move C)) (hms : G.AllowsCalls ms) :
    ∀ {c c' : Config C σ}, c.runIf M ok ms = some c' → Reach M G c c' := by
  induction ms with
  | nil =>
    intro c c' h
    cases h
    exact .refl
  | cons m ms ih =>
    intro c c' h
    simp only [Config.runIf] at h
    split at h
    · next c1 hm =>
      have hstep := moveIf_step hok (fun m' h' => hms m' (by
        rw [List.mem_singleton.mp h']; exact List.mem_cons_self)) hm
      exact .head hstep (ih (fun m' h' => hms m' (List.mem_cons_of_mem _ h')) h)
    · cases h

theorem finish_reach (hok : ∀ m l t cmd, ok m l t cmd = true → G.act m l t cmd) (t : Tid) (n : Nat) :
    ∀ {c c' : Config C σ}, c.finish M ok t n = some c' → Reach M G c c' := by
  induction n with
  | zero =>
    intro c c' h
    cases h
  | succ n ih =>
    intro c c' h
    simp only [Config.finish] at h
    split at h
    · cases h
      exact .refl
    · obtain ⟨c₁, hm, hrest⟩ := Option.bind_eq_some_iff.mp h
      exact .head (moveIf_step hok (allowsCalls_steps t 1) hm) (ih hrest)

/-- Calls that the guard allows, made one after another. -/
theorem serve_reach (hok : ∀ m l t cmd, ok m l t cmd = true → G.act m l t cmd) (t : Tid) (n : Nat)
    (ops : List C.Op) (hops : ∀ op ∈ ops, G.call t op) :
    ∀ {c c' : Config C σ}, c.serve M ok t n ops = some c' → Reach M G c c' := by
  induction ops with
  | nil =>
    intro c c' h
    cases h
    exact .refl
  | cons op ops ih =>
    intro c c' h
    obtain ⟨hop, hops⟩ := List.forall_mem_cons.mp hops
    obtain ⟨c₂, hcall, hrest⟩ := Option.bind_eq_some_iff.mp h
    obtain ⟨c₁, hm, hfin⟩ := Option.bind_eq_some_iff.mp hcall
    have hstep : Step M G c c₁ := moveIf_step hok (by simpa using hop) hm
    exact .head hstep ((finish_reach hok t n hfin).trans (ih hops hrest))

/-! ## Longer histories -/

/-- A configuration with the history `l` before its own. -/
def Config.after (l : Log C) (c : Config C σ) : Config C σ := { c with log := l ++ c.log }

/-- A move does not depend on the history, if the check does not. -/
theorem moveIf_after (hok : ∀ m l l' t cmd, ok m l t cmd = ok m l' t cmd) (l : Log C)
    (c : Config C σ) (m : Move C) :
    (c.after l).moveIf M ok m = (c.moveIf M ok m).map (Config.after l) := by
  have hmem : (c.after l).mem = c.mem := rfl
  have hthr : (c.after l).thr = c.thr := rfl
  cases m with
  | call t op =>
    simp only [Config.moveIf, hthr]
    split
    · simp [Config.after]
    · rfl
  | step t =>
    simp only [Config.moveIf, hmem, hthr]
    split
    · rfl
    · simp [Config.after]
    · rfl
    · next op cmd k _ =>
      rw [hok c.mem (c.after l).log c.log]
      split
      · split
        · simp [Config.after]
        · rfl
      · rfl
    · rfl

theorem runIf_after (hok : ∀ m l l' t cmd, ok m l t cmd = ok m l' t cmd) (l : Log C)
    (ms : List (Move C)) (c : Config C σ) :
    (c.after l).runIf M ok ms = (c.runIf M ok ms).map (Config.after l) := by
  induction ms generalizing c with
  | nil => rfl
  | cons m ms ih =>
    simp only [Config.runIf, moveIf_after hok]
    cases c.moveIf M ok m with
    | none => rfl
    | some c' => exact ih c'

/-- A thread that was in no call and has done nothing since is in no call. -/
theorem idle_of_no_event {c c' : Config C σ} {u : Tid} (h : Reach M G c c')
    (hidle : ∃ l, c.thr u = .idle l) (hlog : ∀ e ∈ c'.log, e.tid ≠ u) : ∃ l, c'.thr u = .idle l := by
  induction h with
  | refl => exact hidle
  | tail _ hs ih =>
    -- a step of another thread leaves the thread alone
    have hother : ∀ {c : Config C σ} {e : Event S C.Op C.Res} {th : Thread C},
        ((∀ e ∈ c.log, e.tid ≠ u) → ∃ l, c.thr u = .idle l) → (∀ d ∈ c.log ++ [e], d.tid ≠ u) →
        ∃ l, Function.update c.thr e.tid th u = .idle l := by
      intro c e th ih hlog
      obtain ⟨hold, hnew⟩ := List.forall_mem_append.mp hlog
      rw [Function.update_of_ne (hnew e (List.mem_singleton_self e)).symm]
      exact ih hold
    cases hs with
    | call t op ht hg => exact hother ih hlog
    | act t cmd ht hg he => exact hother ih hlog
    | ret t ht => exact hother ih hlog
    | iter t ht =>
      obtain ⟨l, hl⟩ := ih hlog
      have hne : u ≠ t := by
        rintro rfl
        rw [ht] at hl
        cases hl
      exact ⟨l, (Function.update_of_ne hne ..).trans hl⟩

end Conc
