import DMTree.Proofs.ReplicaGroupProofs

/-!
# Verbs on their way

For each client the proofs keep track of its current call (`CallGhost`): the verb, the replicas it has
been posted to, and those whose completion has been polled. `Flight` says that a posted verb that has
not been polled is at exactly one place of the network.
-/

namespace DMTree.SkipVector

open Conc

/-- What a client has done in its current call. -/
structure CallGhost (V : Type) where
  verb : Verb V
  posted : List Nat := []
  polled : List Nat := []

/-- All completions have been polled. -/
def CallGhost.Done {V : Type} (g : CallGhost V) : Prop := g.polled.length = g.posted.length

/-- The verbs of client `u` are on their way, or have been polled. -/
structure Flight {V : Type} (m : Fabric V) (u : Tid) (g : CallGhost V) : Prop where
  perm : ((m.posted u).map Prod.fst ++ ((m.performed u).map Prod.fst ++ (m.cq u ++ g.polled))).Perm
    g.posted
  nodup : g.posted.Nodup
  verb : ∀ e ∈ m.posted u, e.2 = g.verb

section

variable {V : Type} {m m' : Fabric V} {t u : Tid} {g : CallGhost V} {i k : Nat} {v : Verb V}
  {a : Option V}

/-! ## Places -/

/-- The replicas at which the verb of client `u` has been performed. -/
def Fabric.past (m : Fabric V) (u : Tid) (g : CallGhost V) : List Nat :=
  (m.performed u).map Prod.fst ++ (m.cq u ++ g.polled)

namespace Flight

theorem congr (h : Flight m u g) (h1 : m'.posted u = m.posted u)
    (h2 : m'.performed u = m.performed u) (h3 : m'.cq u = m.cq u) : Flight m' u g := by
  refine ⟨?_, h.nodup, by rw [h1]; exact h.verb⟩
  rw [h1, h2, h3]
  exact h.perm

/-- No replica occurs twice. -/
theorem places (h : Flight m u g) : ((m.posted u).map Prod.fst ++ m.past u g).Nodup :=
  h.perm.nodup_iff.mpr h.nodup

/-- A verb that is still to be performed has not been performed. -/
theorem not_past (h : Flight m u g) (hk : (m.posted u)[k]? = some (i, v)) : i ∉ m.past u g := by
  intro hi
  have hmem : i ∈ (m.posted u).map Prod.fst :=
    List.mem_map_of_mem (f := Prod.fst) (List.mem_of_getElem? hk)
  exact (List.nodup_append.mp h.places).2.2 i hmem i hi rfl

/-- A verb that is still to complete has not completed. -/
theorem not_completed (h : Flight m u g) (hk : (m.performed u)[k]? = some (i, a)) :
    i ∉ m.cq u ++ g.polled := by
  intro hi
  have hmem : i ∈ (m.performed u).map Prod.fst :=
    List.mem_map_of_mem (f := Prod.fst) (List.mem_of_getElem? hk)
  have hpast := (List.nodup_append.mp h.places).2.1
  exact (List.nodup_append.mp hpast).2.2 i hmem i hi rfl

theorem past_subset (h : Flight m u g) (hi : i ∈ m.past u g) : i ∈ g.posted :=
  h.perm.mem_iff.mp (List.mem_append_right _ hi)

theorem posted_mem (h : Flight m u g) (hk : (m.posted u)[k]? = some (i, v)) : i ∈ g.posted :=
  h.perm.mem_iff.mp (List.mem_append_left _
    (List.mem_map_of_mem (f := Prod.fst) (List.mem_of_getElem? hk)))

/-- Nothing is on its way. -/
theorem done (h : Flight m u g) (hd : g.Done) :
    m.posted u = [] ∧ m.performed u = [] ∧ m.cq u = [] ∧ ∀ i, i ∈ g.polled ↔ i ∈ g.posted := by
  have hlen := h.perm.length_eq
  simp only [List.length_append, List.length_map] at hlen
  rw [CallGhost.Done] at hd
  have h1 : m.posted u = [] := List.length_eq_zero_iff.mp (by omega)
  have h2 : m.performed u = [] := List.length_eq_zero_iff.mp (by omega)
  have h3 : m.cq u = [] := List.length_eq_zero_iff.mp (by omega)
  refine ⟨h1, h2, h3, fun i => ?_⟩
  have := h.perm.mem_iff (a := i)
  simpa [h1, h2, h3] using this

/-- A new call. -/
theorem restart (h : Flight m u g) (hd : g.Done) (v : Verb V) : Flight m u ⟨v, [], []⟩ := by
  obtain ⟨h1, h2, h3, -⟩ := h.done hd
  refine ⟨by simp [h1, h2, h3], List.nodup_nil, by simp [h1]⟩

theorem post (h : Flight m t g) (hi : i ∉ g.posted) :
    Flight (m.post t i g.verb) t { g with posted := g.posted ++ [i] } := by
  refine ⟨?_, ?_, ?_⟩
  · simp only [Fabric.post, Function.update_self, List.map_append, List.map_cons, List.map_nil]
    rw [List.append_assoc]
    refine .trans (.append_left _ List.perm_append_comm) ?_
    rw [← List.append_assoc]
    exact h.perm.append_right _
  · exact h.nodup.append (List.nodup_singleton i) (List.disjoint_singleton.mpr hi)
  · intro e he
    simp only [Fabric.post, Function.update_self, List.mem_append, List.mem_singleton] at he
    rcases he with he | rfl
    · exact h.verb e he
    · rfl

theorem poll {is : List Nat} (h : Flight m t g) (hcq : m.cq t = i :: is) :
    Flight { m with cq := Function.update m.cq t is } t { g with polled := g.polled ++ [i] } := by
  refine ⟨?_, h.nodup, h.verb⟩
  simp only [Function.update_self]
  refine .trans ?_ h.perm
  rw [hcq]
  refine .append_left _ (.append_left _ ?_)
  rw [← List.append_assoc]
  exact List.perm_append_singleton i (is ++ g.polled)

theorem polled_mem {is : List Nat} (h : Flight m t g) (hcq : m.cq t = i :: is) :
    i ∈ g.posted := h.past_subset (by simp [Fabric.past, hcq])

/-- An entry of a list of verbs moves to a later place. -/
theorem move {α : Type} {l : List (Nat × α)} {x : α} (hk : l[k]? = some (i, x)) (is js : List Nat) :
    ((l.eraseIdx k).map Prod.fst ++ (is ++ i :: js)).Perm (l.map Prod.fst ++ (is ++ js)) := by
  obtain ⟨hlt, hx⟩ := List.getElem?_eq_some_iff.mp hk
  have hl := (List.getElem_cons_eraseIdx_perm hlt).map Prod.fst
  rw [hx, List.map_cons] at hl
  refine .trans ?_ (hl.append_right (is ++ js))
  rw [← List.append_assoc, List.cons_append, ← List.append_assoc]
  exact List.perm_middle

theorem perform [DecidableEq V] (h : Flight m u g) (hk : (m.posted u)[k]? = some (i, v)) :
    Flight (m.performAt u k i v) u g := by
  refine ⟨.trans ?_ h.perm, h.nodup, fun e he => ?_⟩
  · have hmove := move hk ((m.performed u).map Prod.fst) (m.cq u ++ g.polled)
    simpa [Fabric.performAt] using hmove
  · simp only [Fabric.performAt, Function.update_self] at he
    exact h.verb e (List.mem_of_mem_eraseIdx he)

theorem deliver (h : Flight m u g) (hk : (m.performed u)[k]? = some (i, a)) :
    Flight (m.deliverAt u k i a) u g := by
  refine ⟨.trans ?_ h.perm, h.nodup, h.verb⟩
  have hmove := (move hk (m.cq u) g.polled).append_left ((m.posted u).map Prod.fst)
  simpa [Fabric.deliverAt] using hmove

theorem posted_verb (h : Flight m u g) (hk : (m.posted u)[k]? = some (i, v)) : v = g.verb :=
  h.verb (i, v) (List.mem_of_getElem? hk)

end Flight

/-! ## All clients -/

/-- The verbs of all clients of a group of `n` replicas. -/
structure Flights (n : Nat) (m : Fabric V) (g : Tid → CallGhost V) : Prop where
  flight : ∀ u, Flight m u (g u)
  lt : ∀ u, ∀ i ∈ (g u).posted, i < n

namespace Flights

variable {n : Nat} {g : Tid → CallGhost V}

theorem init (word : Nat → V) (buf : Tid → Nat → V) (v : Verb V) :
    Flights n (Fabric.init word buf) fun _ => ⟨v, [], []⟩ :=
  ⟨fun _ => ⟨.refl _, List.nodup_nil, nofun⟩, nofun⟩

/-- A step that concerns client `t` only. -/
theorem update (h : Flights n m g) {g' : CallGhost V} (ht : Flight m' t g')
    (hlt : ∀ i ∈ g'.posted, i < n) (h1 : ∀ u, u ≠ t → m'.posted u = m.posted u)
    (h2 : ∀ u, u ≠ t → m'.performed u = m.performed u) (h3 : ∀ u, u ≠ t → m'.cq u = m.cq u) :
    Flights n m' (Function.update g t g') := by
  constructor
  · intro u
    by_cases hu : u = t
    · subst hu
      rwa [Function.update_self]
    · rw [Function.update_of_ne hu]
      exact (h.flight u).congr (h1 u hu) (h2 u hu) (h3 u hu)
  · intro u
    by_cases hu : u = t
    · subst hu
      rwa [Function.update_self]
    · rw [Function.update_of_ne hu]
      exact h.lt u

theorem restart (h : Flights n m g) (hd : (g t).Done) (v : Verb V) :
    Flights n m (Function.update g t ⟨v, [], []⟩) :=
  h.update ((h.flight t).restart hd v) nofun (fun _ _ => rfl) (fun _ _ => rfl) fun _ _ => rfl

theorem post (h : Flights n m g) (hv : (g t).verb = v) (hi : i ∉ (g t).posted) (hin : i < n) :
    Flights n (m.post t i v)
      (Function.update g t { g t with posted := (g t).posted ++ [i] }) := by
  subst hv
  refine h.update ((h.flight t).post hi) (fun j hj => ?_) (fun u hu => Function.update_of_ne hu ..)
    (fun _ _ => rfl) fun _ _ => rfl
  rcases List.mem_append.mp hj with hj | hj
  · exact h.lt t j hj
  · rwa [List.mem_singleton.mp hj]

theorem poll {is : List Nat} (h : Flights n m g) (hcq : m.cq t = i :: is) :
    Flights n { m with cq := Function.update m.cq t is }
      (Function.update g t { g t with polled := (g t).polled ++ [i] }) :=
  h.update ((h.flight t).poll hcq) (h.lt t) (fun _ _ => rfl) (fun _ _ => rfl)
    fun _ hu => Function.update_of_ne hu ..

theorem perform [DecidableEq V] (h : Flights n m g) (hk : (m.posted t)[k]? = some (i, v)) :
    Flights n (m.performAt t k i v) g := by
  have hstep := h.update ((h.flight t).perform hk) (h.lt t) (fun u hu => Function.update_of_ne hu ..)
    (fun u hu => Function.update_of_ne hu ..) fun _ _ => rfl
  rwa [Function.update_eq_self] at hstep

theorem deliver (h : Flights n m g) (hk : (m.performed t)[k]? = some (i, a)) :
    Flights n (m.deliverAt t k i a) g := by
  have hstep := h.update ((h.flight t).deliver hk) (h.lt t) (fun _ _ => rfl)
    (fun u hu => Function.update_of_ne hu ..) fun u hu => Function.update_of_ne hu ..
  rwa [Function.update_eq_self] at hstep

end Flights

/-! ## What the commands do -/

section Exec

variable [DecidableEq V] {r : Option Wc} {c : Change V}

theorem exec_poll (h : fabricMachine.exec t .ibvPollCq m = some (r, m')) :
    (m.cq t = [] ∧ r = none ∧ m' = m) ∨ ∃ i is, m.cq t = i :: is ∧ r = some ⟨true, i⟩ ∧
      m' = { m with cq := Function.update m.cq t is } := by
  simp only [fabricMachine, Option.some.injEq] at h
  cases hcq : m.cq t with
  | nil =>
    rw [Fabric.poll, hcq] at h
    obtain ⟨rfl, rfl⟩ := Prod.mk.injEq .. ▸ h
    exact .inl ⟨rfl, rfl, rfl⟩
  | cons i is =>
    rw [Fabric.poll, hcq] at h
    obtain ⟨rfl, rfl⟩ := Prod.mk.injEq .. ▸ h
    exact .inr ⟨i, is, rfl, rfl, rfl⟩

theorem exec_perform (h : fabricMachine.exec t (.perform u k) m = some (c, m')) :
    ∃ i v, (m.posted u)[k]? = some (i, v) ∧ c = ⟨i, m.word i, v.result (m.word i)⟩ ∧
      m' = m.performAt u k i v := by
  simp only [fabricMachine] at h
  split at h
  · next i v hk =>
    obtain ⟨rfl, rfl⟩ : _ ∧ _ := by simpa using h
    exact ⟨i, v, hk, rfl, rfl⟩
  · cases h

theorem exec_deliver {r : Unit} (h : fabricMachine.exec t (.deliver u k) m = some (r, m')) :
    ∃ i a, (m.performed u)[k]? = some (i, a) ∧ m' = m.deliverAt u k i a := by
  simp only [fabricMachine] at h
  split at h
  · next i a hk =>
    obtain rfl : _ = _ := by simpa using h
    exact ⟨i, a, hk, rfl⟩
  · cases h

end Exec

end

/-- A step of the network, taken by thread 2: an entry of a schedule. -/
def network (op : ReplicaOp Nat) : List (Move (replicaClient Nat 3)) :=
  [.call 2 op] ++ Move.steps 2 2

end DMTree.SkipVector
