import DMTree.Conc.Exec
import DMTree.Conc.Proofs.LinearProofs
import DMTree.Proofs.TreeProofs

/-!
# Histories of the tree

What the clients can tell from the answers they get. Without write combining and read delegation the
writes and the reads are linearizable: a write takes effect when its pair has been written and its
fingerprint is in the table, and a read looks at the tree at some instant between call and return.

The runs are those that `treeGuard` allows: the images of a split do not overlap in the RDMA buffers,
versions of leaves stay below 2^31, and local copies of tables stay apart. Linearizability also needs
that a copy which was read in part or while it was written does not pass the check by chance
(`Mode.exact`); the other results do not.
-/

namespace DMTree

open Conc

variable {E : Env} {F : Flags} {M : Mode} {t : Tid} {op : TreeOp} {x : TreeWorld E F} {k : Key}
  {H : Hashes} {g g' : TreeView} {i j d : Nat} {w : Nat × EntryPos}

/-- The tree as a map. A read of a key that is not there leaves the variable of the caller or sets
it to `ValueNull`. -/
def treeObject : Object TreeOp TreeRes where
  State := Key → Option Value
  init _ := none
  Does s op res s' :=
    match op, res with
    | .write k v, .done => s' = Function.update s k (some v)
    | .read k v, .value w => s' = s ∧ (s k = some w ∨ s k = none ∧ (w = v ∨ w = ValueNull))
    | _, _ => False

/-- Writes and reads of one key. -/
def TreeOp.isPoint : TreeOp → Bool
  | .scan _ _ _ => false
  | _ => true

/-! ## Sequences of writes -/

/-- Writes, one after another. -/
def putAll (s : Key → Option Value) (l : List EntryPos) : Key → Option Value :=
  l.foldl (fun f p => Function.update f p.key (some p.value)) s

/-- The value of a key is that of its last write. -/
theorem putAll_apply (s : Key → Option Value) (l : List EntryPos) (k : Key) :
    putAll s l k =
      (((l.filter fun p => decide (p.key = k)).getLast?).map EntryPos.value).or (s k) := by
  induction l using List.reverseRecOn with
  | nil => rfl
  | append_singleton l p ih =>
    simp only [putAll, List.foldl_append, List.foldl_cons, List.foldl_nil, List.filter_append]
    by_cases hp : p.key = k
    · simp [hp]
    · rw [Function.update_of_ne (Ne.symm hp)]
      simpa [hp, putAll] using ih

/-- Only the writes of a key matter for its value. -/
theorem putAll_congr {s : Key → Option Value} {l l' : List EntryPos}
    (h : (l.filter fun p => decide (p.key = k)) = l'.filter fun p => decide (p.key = k)) :
    putAll s l k = putAll s l' k := by
  rw [putAll_apply, putAll_apply, h]

/-- A write as a call. -/
def placedWrite (w : Nat × EntryPos) : Placed TreeOp TreeRes :=
  ⟨w.1, .write w.2.key w.2.value, .done⟩

theorem runs_writes (s : treeObject.State) (l : List (Nat × EntryPos)) :
    treeObject.Runs s (l.map placedWrite) (putAll s (l.map Prod.snd)) := by
  induction l generalizing s with
  | nil => exact .nil s
  | cons w l ih => exact .cons (a := placedWrite w) rfl (ih _)

/-! ## Writes that readers see -/

open Classical in
/-- The writes that have taken effect and whose key is found. -/
noncomputable def visible (H : Hashes) (g : TreeView) : List (Nat × EntryPos) :=
  g.eff.filter fun w => decide (g.Stored H w.2.key)

open Classical in
/-- The writes that are visible in `g'` and were not in `g`. -/
noncomputable def published (H : Hashes) (g g' : TreeView) : List (Nat × EntryPos) :=
  (visible H g').filter fun w => decide (w ∉ visible H g)

theorem mem_visible : w ∈ visible H g ↔ w ∈ g.eff ∧ g.Stored H w.2.key := by
  simp [visible]

theorem mem_published : w ∈ published H g g' ↔ w ∈ visible H g' ∧ w ∉ visible H g := by
  simp [published]

/-- All writes of a key that is found are visible. -/
theorem visible_filter (hk : g.Stored H k) :
    ((visible H g).filter fun w => decide (w.2.key = k)) =
      g.eff.filter fun w => decide (w.2.key = k) := by
  unfold visible
  rw [List.filter_filter]
  refine List.filter_congr fun w _ => ?_
  by_cases hw : w.2.key = k
  · simp [hw, hk]
  · simp [hw]

/-- No write of another key is. -/
theorem visible_filter_of_not (hk : ¬ g.Stored H k) :
    ((visible H g).filter fun w => decide (w.2.key = k)) = [] := by
  refine List.filter_eq_nil_iff.mpr fun w hw hwk => hk ?_
  obtain rfl : w.2.key = k := of_decide_eq_true hwk
  exact (mem_visible.mp hw).2

/-- The writes of a key that is found have been visible before. -/
theorem eff_filter_not_visible (hk : g.Stored H k) :
    ((g.eff.filter fun w => decide (w.2.key = k)).filter
      fun w => decide (w ∉ visible H g)) = [] := by
  refine List.filter_eq_nil_iff.mpr fun w hw hno => of_decide_eq_true hno (mem_visible.mpr ?_)
  obtain ⟨hmem, hwk⟩ := List.mem_filter.mp hw
  exact ⟨hmem, (of_decide_eq_true hwk : w.2.key = k) ▸ hk⟩

/-- Later writes have not. -/
theorem filter_not_visible {r : List (Nat × EntryPos)} (hnd : ((g.eff ++ r).map Prod.fst).Nodup) :
    (r.filter fun w => decide (w ∉ visible H g)) = r := by
  refine List.filter_eq_self.mpr fun w hw => ?_
  rw [decide_eq_true_iff]
  intro hin
  exact List.disjoint_of_nodup_append (hnd.of_map _) (mem_visible.mp hin).1 hw

/-- For each key, what is published comes after what was visible. -/
theorem visible_published (hpre : g.eff <+: g'.eff)
    (hst : ∀ k, g.Stored H k → g'.Stored H k) (hnd : (g'.eff.map Prod.fst).Nodup) (k : Key) :
    ((visible H g').filter fun w => decide (w.2.key = k)) =
      (visible H g ++ published H g g').filter fun w => decide (w.2.key = k) := by
  have hcomm : ((published H g g').filter fun w => decide (w.2.key = k)) =
      ((visible H g').filter fun w => decide (w.2.key = k)).filter
        fun w => decide (w ∉ visible H g) := by
    unfold published
    rw [List.filter_filter, List.filter_filter]
    exact List.filter_congr fun w _ => Bool.and_comm ..
  rw [List.filter_append, hcomm]
  by_cases hk : g.Stored H k
  · obtain ⟨r, hr⟩ := hpre
    rw [visible_filter (hst k hk), visible_filter hk, ← hr, List.filter_append, List.filter_append]
    have hnew : ((r.filter fun w => decide (w.2.key = k)).filter
        fun w => decide (w ∉ visible H g)) = r.filter fun w => decide (w.2.key = k) := by
      refine filter_not_visible (hnd.sublist (List.Sublist.map _ ?_))
      rw [← hr]
      exact List.filter_sublist.append_left _
    rw [eff_filter_not_visible hk, hnew, List.nil_append]
  · rw [visible_filter_of_not hk, List.nil_append]
    refine (List.filter_eq_self.mpr fun w hw => ?_).symm
    rw [decide_eq_true_iff]
    intro hin
    refine hk ?_
    obtain rfl : w.2.key = k := of_decide_eq_true (List.mem_filter.mp hw).2
    exact (mem_visible.mp hin).2

/-- The map that readers see. -/
noncomputable def shown (H : Hashes) (g : TreeView) : Key → Option Value :=
  putAll (fun _ => none) ((visible H g).map Prod.snd)

theorem filter_map_snd (l : List (Nat × EntryPos)) :
    ((l.map Prod.snd).filter fun p => decide (p.key = k)) =
      (l.filter fun w => decide (w.2.key = k)).map Prod.snd := by
  rw [List.filter_map]
  rfl

theorem shown_of_stored (hk : g.Stored H k) : shown H g k = lastValue (g.eff.map Prod.snd) k := by
  refine putAll_congr ?_
  rw [filter_map_snd, filter_map_snd, visible_filter hk]

theorem shown_of_not (hk : ¬ g.Stored H k) : shown H g k = none := by
  unfold shown
  rw [putAll_apply, filter_map_snd, visible_filter_of_not hk]
  rfl

/-- Publishing writes is doing them. -/
theorem runs_published (hpre : g.eff <+: g'.eff)
    (hst : ∀ k, g.Stored H k → g'.Stored H k) (hnd : (g'.eff.map Prod.fst).Nodup) :
    treeObject.Runs (shown H g) ((published H g g').map placedWrite) (shown H g') := by
  have heq : shown H g' = putAll (shown H g) ((published H g g').map Prod.snd) := by
    funext k
    have happ : putAll (shown H g) ((published H g g').map Prod.snd) =
        putAll (fun _ => none) ((visible H g ++ published H g g').map Prod.snd) := by
      rw [List.map_append]
      simp [putAll, shown, List.foldl_append]
    rw [happ]
    refine putAll_congr ?_
    rw [filter_map_snd, filter_map_snd, visible_published hpre hst hnd k]
  rw [heq]
  exact runs_writes _ _

/-! ## The past -/

/-- The clock and the open call of a client agree. -/
theorem cur_of_openCall {l : TreeLog E F} (h : openCall l t = some (i, op)) :
    (lockClock l).cur t = i := by
  induction l using List.reverseRecOn with
  | nil => cases h
  | append_singleton l e ih =>
    rw [openCall_concat] at h
    cases e with
    | call u op' =>
      simp only [openStep] at h
      split at h
      · next hu =>
        cases h
        rw [hu]
        exact cur_call
      · next hu =>
        rw [cur_other (e := .call u op') hu]
        exact ih h
    | act u c r =>
      rw [cur_act]
      exact ih h
    | ret u op' r =>
      simp only [openStep] at h
      split at h
      · cases h
      · rw [cur_ret]
        exact ih h

namespace WorldInv

variable (hi : WorldInv M x)
include hi

theorem past_prefix {d' : Nat} (hle : d ≤ d') (hd : d' ≤ x.log.length) :
    (x.ghost.past d).eff <+: (x.ghost.past d').eff := by
  induction d', hle using Nat.le_induction with
  | base => exact List.prefix_rfl
  | succ n hn ih => exact (ih (by omega)).trans (hi.grows n (by omega)).1

theorem past_stored {d' : Nat} (hle : d ≤ d') (hd : d' ≤ x.log.length)
    (hk : (x.ghost.past d).Stored E.hash k) : (x.ghost.past d').Stored E.hash k := by
  induction d', hle using Nat.le_induction with
  | base => exact hk
  | succ n hn ih => exact (hi.grows n (by omega)).2.1 k (ih (by omega))

theorem past_eff (hd : d ≤ x.log.length) : (x.ghost.past d).eff <+: x.ghost.view.eff := by
  have h := hi.past_prefix hd le_rfl
  rwa [hi.past] at h

theorem past_nodup (hd : d ≤ x.log.length) : ((x.ghost.past d).eff.map Prod.fst).Nodup :=
  hi.once.sublist ((hi.past_eff hd).sublist.map _)

theorem past_visible {d' : Nat} (hle : d ≤ d') (hd : d' ≤ x.log.length)
    (hw : w ∈ visible E.hash (x.ghost.past d)) : w ∈ visible E.hash (x.ghost.past d') := by
  obtain ⟨h1, h2⟩ := mem_visible.mp hw
  exact mem_visible.mpr ⟨(hi.past_prefix hle hd).subset h1, hi.past_stored hle hd h2⟩

/-- A visible write has become visible at some instant. -/
theorem exists_published (hw : w ∈ visible E.hash (x.ghost.past j)) :
    ∃ d < j, w ∈ published E.hash (x.ghost.past d) (x.ghost.past (d + 1)) := by
  induction j with
  | zero =>
    have hmem := (mem_visible.mp hw).1
    rw [hi.start] at hmem
    cases hmem
  | succ j ih =>
    by_cases hj : w ∈ visible E.hash (x.ghost.past j)
    · obtain ⟨d, hd, hpub⟩ := ih hj
      exact ⟨d, Nat.lt_succ_of_lt hd, hpub⟩
    · exact ⟨j, Nat.lt_succ_self j, mem_published.mpr ⟨hw, hj⟩⟩

/-- It stays visible. -/
theorem not_published {d' : Nat} (hle : d ≤ d') (hd : d' ≤ x.log.length)
    (hw : w ∈ visible E.hash (x.ghost.past d)) :
    w ∉ published E.hash (x.ghost.past d') (x.ghost.past (d' + 1)) :=
  fun hpub => (mem_published.mp hpub).2 (hi.past_visible hle hd hw)

/-- A write is known by its call. -/
theorem eff_unique {w' : Nat × EntryPos} (hw : w ∈ x.ghost.view.eff) (hw' : w' ∈ x.ghost.view.eff)
    (h : w.1 = w'.1) : w = w' := List.inj_on_of_nodup_map hi.once hw hw' h

/-- Without write combining, a call has written what it was asked to. -/
theorem call_of_eff (hF : F.writeCombining = false) (hw : w ∈ x.ghost.view.eff) :
    ∃ t, x.log[w.1]? = some (.call t (.write w.2.key w.2.value)) := by
  obtain ⟨t, v, hcall, hv⟩ := hi.calls w hw
  rw [hv hF] at hcall
  exact ⟨t, hcall⟩

/-- The result of the open call that returns at `j`. -/
theorem result {res : TreeRes} (hret : x.log[j]? = some (.ret t op res))
    (hopen : openCall (x.log.take j) t = some (i, op)) :
    i < j ∧ x.log[i]? = some (.call t op) ∧ ResultOk E F M x.ghost.past i j op res := by
  obtain ⟨hij, hcall⟩ := call_of_openCall_take hopen
  have hans := hi.answers j t op res hret
  rw [cur_of_openCall hopen] at hans
  exact ⟨hij, hcall, hans⟩

end WorldInv

/-- The writes that become visible at an instant. -/
noncomputable def updates (H : Hashes) (past : Nat → TreeView) (n : Nat) :
    Nat → List (Placed TreeOp TreeRes)
  | 0 => []
  | d + 1 => if d < n then (published H (past d) (past (d + 1))).map placedWrite else []

theorem mem_updates {past : Nat → TreeView} {n : Nat} {a : Placed TreeOp TreeRes} :
    a ∈ updates H past n d ↔ ∃ d₀ < n, d = d₀ + 1 ∧
      ∃ w ∈ published H (past d₀) (past (d₀ + 1)), placedWrite w = a := by
  cases d with
  | zero => simp [updates]
  | succ d =>
    simp only [updates]
    constructor
    · intro h
      split at h
      · next hd => exact ⟨d, hd, rfl, List.mem_map.mp h⟩
      · cases h
    · rintro ⟨d₀, hd, he, h⟩
      cases he
      rw [if_pos hd]
      exact List.mem_map.mpr h

/-- No call becomes visible twice at an instant. -/
theorem WorldInv.nodup_updates (hi : WorldInv M x) (d : Nat) :
    ((updates E.hash x.ghost.past x.log.length d).map Placed.pos).Nodup := by
  cases d with
  | zero => exact List.nodup_nil
  | succ d =>
    simp only [updates]
    split
    · next hd =>
      rw [List.map_map]
      exact (hi.past_nodup (d := d + 1) hd).sublist
        ((List.filter_sublist.trans List.filter_sublist).map _)
    · exact List.nodup_nil

section Points

variable (hi : WorldInv M x) (hF : F.writeCombining = false)
include hi hF

/-- A write that becomes visible belongs to a call. -/
theorem call_of_published (hd : d < x.log.length)
    (hw : w ∈ published E.hash (x.ghost.past d) (x.ghost.past (d + 1))) :
    w ∈ x.ghost.view.eff ∧ w.1 < d + 1 ∧
      ∃ t, x.log[w.1]? = some (.call t (.write w.2.key w.2.value)) := by
  have hmem := (mem_visible.mp (mem_published.mp hw).1).1
  have hview := (hi.past_eff (d := d + 1) hd).subset hmem
  exact ⟨hview, (hi.trail (d + 1) hd).2 w hmem, hi.call_of_eff hF hview⟩

/-- A write that has returned is visible. -/
theorem visible_of_ret {v : Value} {res : TreeRes}
    (hret : x.log[j]? = some (.ret t (.write k v) res))
    (hopen : openCall (x.log.take j) t = some (i, .write k v)) :
    res = .done ∧ (i, ⟨k, v⟩) ∈ visible E.hash (x.ghost.past j) := by
  obtain ⟨-, hcall, hres⟩ := hi.result hret hopen
  have hj := lt_of_getElem? hret
  cases res with
  | done =>
    refine ⟨rfl, mem_visible.mpr ⟨?_, (hres hF).1⟩⟩
    obtain ⟨w, hw, hwi⟩ := (hres hF).2
    obtain ⟨u, hcall'⟩ := hi.call_of_eff hF ((hi.past_eff hj.le).subset hw)
    rw [hwi, hcall] at hcall'
    obtain ⟨i', p⟩ := w
    cases hcall'
    cases hwi
    exact hw
  | value v' => exact hres.elim
  | results l => exact hres.elim

/-- The instants at which writes become visible and reads look. -/
theorem tree_points (hD : F.readDelegation = false) (hM : M.exact)
    (hlog : ∀ (j : Nat) t op res, x.log[j]? = some (.ret t op res) →
      ∃ i, openCall (x.log.take j) t = some (i, op)) :
    Points (C := treeClient E F) treeObject (fun op => op.isPoint = true) x.log
      (fun d => shown E.hash (x.ghost.past d)) (updates E.hash x.ghost.past x.log.length) where
  start := by
    unfold shown visible
    rw [hi.start]
    rfl
  legal := by
    intro d hd
    obtain ⟨hpre, hst, -⟩ := hi.grows d hd
    simp only [updates, if_pos hd]
    exact runs_published hpre hst (hi.past_nodup hd)
  call := by
    intro d a ha
    obtain ⟨d, hd, rfl, w, hw, rfl⟩ := mem_updates.mp ha
    obtain ⟨-, hlt, hcall⟩ := call_of_published hi hF hd hw
    exact ⟨rfl, hlt, hcall⟩
  ret := by
    intro d a ha j t op res hret hopen
    obtain ⟨d, hd, rfl, w, hw, rfl⟩ := mem_updates.mp ha
    obtain ⟨hview, -, u, hcall⟩ := call_of_published hi hF hd hw
    obtain ⟨-, hcall', -⟩ := hi.result hret hopen
    rw [show (placedWrite w).pos = w.1 from rfl, hcall] at hcall'
    obtain ⟨-, rfl⟩ := Event.call.inj (Option.some.inj hcall')
    have hvis := (visible_of_ret hi hF hret hopen).2
    by_contra hlt
    exact hi.not_published (by omega) hd.le hvis hw
  nodup := hi.nodup_updates
  once := by
    intro d d' a a' ha ha' hp
    obtain ⟨d, hd, rfl, w, hw, rfl⟩ := mem_updates.mp ha
    obtain ⟨d', hd', rfl, w', hw', rfl⟩ := mem_updates.mp ha'
    obtain rfl := hi.eff_unique (call_of_published hi hF hd hw).1
      (call_of_published hi hF hd' hw').1 hp
    by_contra hne
    rcases Nat.lt_or_gt_of_ne (fun he => hne (congrArg (· + 1) he)) with hlt | hlt
    · exact hi.not_published hlt hd'.le (mem_published.mp hw).1 hw'
    · exact hi.not_published hlt hd.le (mem_published.mp hw').1 hw
  complete := by
    intro j t op res hret hk
    obtain ⟨i, hopen⟩ := hlog j t op res hret
    refine ⟨i, hopen, ?_⟩
    have hj := lt_of_getElem? hret
    obtain ⟨hij, hcall, hres⟩ := hi.result hret hopen
    cases op with
    | write k v =>
      left
      obtain ⟨rfl, hvis⟩ := visible_of_ret hi hF hret hopen
      obtain ⟨d, hd, hpub⟩ := hi.exists_published hvis
      exact ⟨d, hd.trans hj, mem_updates.mpr ⟨d, hd.trans hj, rfl, (i, ⟨k, v⟩), hpub, rfl⟩⟩
    | read k v =>
      right
      refine ⟨fun d a ha hpos => ?_, ?_⟩
      · obtain ⟨d, hd, rfl, w, hw, rfl⟩ := mem_updates.mp ha
        obtain ⟨-, -, u, hcall'⟩ := call_of_published hi hF hd hw
        rw [show w.1 = i from hpos, hcall] at hcall'
        cases hcall'
      cases res with
      | value w =>
        rcases hres hD with ⟨d, hlt, hle, hhas, hst⟩ | ⟨hw, hno⟩
        · refine ⟨d, hlt, hle, rfl, Or.inl ?_⟩
          rw [shown_of_stored (hst hM)]
          exact ((hi.trail d (hle.trans hj.le)).1 ⟨k, w⟩).mp hhas
        · -- nothing has changed at the call
          refine ⟨i + 1, Nat.lt_succ_self i, hij, rfl, Or.inr ⟨shown_of_not ?_, hw⟩⟩
          rw [(hi.grows i (hij.trans hj)).2.2 t _ hcall]
          exact hno
      | done => exact hres.elim
      | results l => exact hres.elim
    | scan start stop len => cases hk

end Points

/-! ## Runs -/

theorem init_logOk (me : Nat) : LogOk (treeInit E F me) :=
  ⟨fun _ _ _ h => (by cases h), fun _ _ _ _ h => by simp [treeInit] at h⟩

/-- What is known of a call that has returned. -/
theorem returned_result {me : Nat} {c : TreeConfig E F} {res : TreeRes}
    (h : Reach (treeMachine E) (treeGuard E F M) (treeInit E F me) c)
    (hret : c.log[j]? = some (.ret t op res)) :
    ∃ (g : TreeGhost) (i : Nat), WorldInv (E := E) (F := F) M ⟨c.mem, c.log, g⟩ ∧ i < j ∧
      j < c.log.length ∧ openCall (c.log.take j) t = some (i, op) ∧
      ResultOk E F M g.past i j op res := by
  obtain ⟨g, hi, -⟩ := tree_reach h
  obtain ⟨i, hopen⟩ := ((init_logOk me).reach h).ret j t _ res hret
  obtain ⟨hij, -, hres⟩ := hi.result hret hopen
  exact ⟨g, i, hi, hij, lt_of_getElem? hret, hopen, hres⟩

/-- Without write combining and read delegation, the writes and the reads of every run that the guard
allows are linearizable, whatever scans there are. -/
theorem tree_linearizable (E : Env) (F : Flags) (me : Nat) (c : TreeConfig E F)
    (hF : F.writeCombining = false) (hD : F.readDelegation = false)
    (h : Reach (treeMachine E) (treeGuard E F { exact := True }) (treeInit E F me) c) :
    Linearizable (C := treeClient E F) treeObject (fun op => op.isPoint = true) c.log := by
  obtain ⟨g, hi, -⟩ := tree_reach h
  exact (tree_points hi hF hD trivial ((init_logOk me).reach h).ret).linearizable

instance {m : Cluster} {a : Gaddr} {n : Nat} : Decidable (LocalApart E m i a n) :=
  inferInstanceAs (Decidable (∀ j < m.allocs, ∀ x ∈ m.table (E.alloc j), E.alloc j ≠ a →
    ((E.alloc j).nodeID = i ∨ (E.alloc j).nodeID ≠ 0) → _ ∨ _))

/-- The conditions on steps, those that depend on the mode included. -/
def stepCheck (E : Env) (m : Cluster) (t : Tid) : TreeCmd → Bool
  | .adaptCapacity n => decide ((E.rbuf m.adapts).Fits n (adaptCapacity (E.grow m.adapts) n))
  | .writeLeaf _ l => decide (l.hdr.version < 2 ^ 31)
  | .readLocalFp a n => decide (a.offset + 64 ≤ E.dsmSize (E.nodeOf t)) &&
      decide (LocalApart E m (E.nodeOf t) a n) &&
      decide (localRead E m (E.nodeOf t) a n = (m.localTable (E.nodeOf t) a).getD (.zero n))
  | .writeLocalFp a x => decide (a.offset + (x.fp.length + 8 * 3) ≤ E.dsmSize (E.nodeOf t)) &&
      decide (LocalApart E m (E.nodeOf t) a x.fp.length)
  | .insertCache r n => decide (r.key = n.hdr.minKey)
  | .writeNode (.origin true) a _ => decide (∃ n ∈ m.inner a, n.hdr.isRoot = true)
  | _ => true

theorem guard_of_stepCheck {m : Cluster} {l : TreeLog E F} {cmd : TreeCmd}
    (h : stepCheck E m t cmd = true) : (treeGuard E F M).act m l t cmd := by
  cases cmd with
  | adaptCapacity n =>
    simp only [stepCheck, decide_eq_true_eq] at h
    exact h
  | writeLeaf a leaf =>
    simp only [stepCheck, decide_eq_true_eq] at h
    exact h
  | readLocalFp a n =>
    simp only [stepCheck, Bool.and_eq_true, decide_eq_true_eq] at h
    exact ⟨h.1.1, fun _ => h.1.2, fun _ _ => h.2⟩
  | writeLocalFp a tab =>
    simp only [stepCheck, Bool.and_eq_true, decide_eq_true_eq] at h
    exact h
  | insertCache r n => exact fun _ => of_decide_eq_true h
  | writeNode w a n =>
    cases w with
    | origin top =>
      cases top with
      | true => exact fun _ => of_decide_eq_true h
      | false => trivial
    | _ => trivial
  | _ => trivial

/-- Only the cache is on. -/
def cacheOnly : Flags := ⟨true, false, false⟩

/-- Configurations of clients that use the cache. -/
abbrev PlainConfig := TreeConfig Env.plain cacheOnly

/-- `stepCheck`, for schedules. -/
def plainCheck (m : Cluster) (_ : TreeLog Env.plain cacheOnly) (t : Tid) (cmd : TreeCmd) : Bool :=
  stepCheck Env.plain m t cmd

/-- Writes of the keys from 1 to `n`. -/
def ascending (n : Nat) : List TreeOp :=
  (List.range n).map fun i => .write (.ofNat (i + 1)) (.ofNat (i + 101))

/-- Client 0 begins to split the head leaf: it has rewritten the leaf, but not its table. A read and a
scan on two other compute nodes have found the leaf before. -/
def splitBegins : List (Move (treeClient Env.plain cacheOnly)) :=
  [.call 1 (TreeOp.read (.ofNat 20) 9)] ++ Move.steps 1 7 ++
    [.call 2 (TreeOp.scan (.ofNat 10) (.ofNat 40) 100)] ++ Move.steps 2 7 ++
    [.call 0 (TreeOp.write (.ofNat 33) 133)] ++ Move.steps 0 12

/-- The read and the scan meet slots of the next version and look for the leaf again, until the split
is done. Then client 1 overwrites a pair; it has locked the leaf and read the slot. -/
def splitEnds : List (Move (treeClient Env.plain cacheOnly)) :=
  Move.steps 1 16 ++ Move.steps 2 9 ++ Move.steps 0 8 ++ Move.steps 1 15 ++ Move.steps 2 15 ++
    [.call 1 (TreeOp.write (.ofNat 20) 77)] ++ Move.steps 1 6

/-- The head leaf is filled and its split begins. -/
def runToSplit : Option PlainConfig :=
  ((treeInit Env.plain cacheOnly 1).serve (treeMachine Env.plain) plainCheck 0 50
    (ascending 32)).bind (·.runIf (treeMachine Env.plain) plainCheck splitBegins)

/-- The same, and the split ends. -/
def runPastSplit : Option PlainConfig :=
  runToSplit.bind (·.runIf (treeMachine Env.plain) plainCheck splitEnds)

theorem ofNat_lt_keyMax {n : Nat} (hn : n ≤ 2 ^ 64) : Key.ofNat n < KeyMax := by
  change n % 2 ^ (8 * 24) < KeyMax.val
  exact (Nat.mod_le _ _).trans_lt (hn.trans_lt (by decide))

theorem ascending_allowed {n : Nat} (hn : n < 2 ^ 64) (t : Tid) :
    ∀ op ∈ ascending n, (treeGuard Env.plain cacheOnly M).call t op := by
  intro op hop
  obtain ⟨i, hi, rfl⟩ := List.mem_map.mp hop
  have hlt := List.mem_range.mp hi
  exact fun _ => ofNat_lt_keyMax (by omega)

theorem runToSplit_reach (M : Mode) {c : PlainConfig} (h : runToSplit = some c) :
    Reach (treeMachine Env.plain) (treeGuard Env.plain cacheOnly M) (treeInit Env.plain cacheOnly 1)
      c := by
  obtain ⟨c₁, hfill, hrun⟩ := Option.bind_eq_some_iff.mp h
  have hkeys : Key.ofNat 20 < KeyMax ∧ Key.ofNat 10 < KeyMax ∧ Key.ofNat 33 < KeyMax :=
    ⟨ofNat_lt_keyMax (by decide), ofNat_lt_keyMax (by decide), ofNat_lt_keyMax (by decide)⟩
  refine (serve_reach (fun _ _ _ _ => guard_of_stepCheck) 0 50 _
    (ascending_allowed (by decide) 0) hfill).trans
      (runIf_reach (fun _ _ _ _ => guard_of_stepCheck) splitBegins ?_ hrun)
  simp [splitBegins, treeGuard, hkeys]

theorem runPastSplit_reach (M : Mode) {c : PlainConfig} (h : runPastSplit = some c) :
    Reach (treeMachine Env.plain) (treeGuard Env.plain cacheOnly M) (treeInit Env.plain cacheOnly 1)
      c := by
  obtain ⟨c₁, hbegin, hrun⟩ := Option.bind_eq_some_iff.mp h
  have hkey : Key.ofNat 20 < KeyMax := ofNat_lt_keyMax (by decide)
  refine (runToSplit_reach M hbegin).trans
    (runIf_reach (fun _ _ _ _ => guard_of_stepCheck) splitEnds ?_ hrun)
  simp [splitEnds, treeGuard, hkey]

/-- The call `op` of the thread has returned `r`. -/
def returned (t : Tid) (op : TreeOp) (r : TreeRes) : Event TreeSig TreeOp TreeRes → Bool
  | .ret u op' r' => u == t && decide (op' = op) && decide (r' = r)
  | _ => false

theorem exists_of_returned {l : TreeLog E F} {r : TreeRes} (h : l.any (returned t op r) = true) :
    ∃ j : Nat, l[j]? = some (.ret t op r) := by
  obtain ⟨e, he, hr⟩ := List.any_eq_true.mp h
  obtain ⟨j, hj⟩ := List.mem_iff_getElem?.mp he
  cases e with
  | ret u op' r' =>
    simp only [returned, Bool.and_eq_true, beq_iff_eq, decide_eq_true_eq] at hr
    obtain ⟨⟨rfl, rfl⟩, rfl⟩ := hr
    exact ⟨j, hj⟩
  | call u op' => cases hr
  | act u c r' => cases hr

/-- The thread is not in a call. -/
def isIdle (c : TreeConfig E F) (t : Tid) : Bool :=
  match c.thr t with
  | .idle _ => true
  | .busy _ _ => false

theorem exists_of_isIdle {c : TreeConfig E F} (h : isIdle c t = true) :
    ∃ it, c.thr t = .idle it := by
  unfold isIdle at h
  split at h
  · next it hit => exact ⟨it, hit⟩
  · cases h

/-- The thread has just read a slot. -/
def readsSlot (t : Tid) : Event TreeSig TreeOp TreeRes → Bool
  | .act u (.readEntry _ _) _ => u == t
  | _ => false

/-- The thread takes the lock. -/
def takesLock (t : Tid) (w : LockWord) : Event TreeSig TreeOp TreeRes → Bool
  | .act u (.cas w') true => u == t && decide (w' = w)
  | _ => false

/-- The pairs in the range of the scan. -/
def scanned : List EntryPos := (List.range 24).map fun i => ⟨.ofNat (i + 10), .ofNat (i + 110)⟩

/-- The thread puts the node at `a` in the cache. -/
def cachesNode (t : Tid) (a : Gaddr) : Event TreeSig TreeOp TreeRes → Bool
  | .act u (.insertCache r _) _ => u == t && decide (r.addr = a)
  | _ => false

/-- Client 0 has split the leaf, with the leaf and the root locked, and is in no call. The other two
clients have put the root in their caches; the read and the scan have returned, and client 1 has read a
slot. -/
structure PastSplit (c : PlainConfig) : Prop where
  split : c.log.any (returned 0 (.write (.ofNat 33) 133) .done) = true
  leafLock : c.log.any (takesLock 0 (.table (headFpAddr Env.plain))) = true
  rootLock : c.log.any (takesLock 0 (.node (rootAddr Env.plain))) = true
  idle : isIdle c 0 = true
  cached : ([1, 2].all fun t => c.log.any (cachesNode t (rootAddr Env.plain))) = true
  read : c.log.any (returned 1 (.read (.ofNat 20) 9) (.value 120)) = true
  scan : c.log.any (returned 2 (.scan (.ofNat 10) (.ofNat 40) 100) (.results scanned)) = true
  slot : c.log.getLast?.any (readsSlot 1) = true

theorem exists_pastSplit : ∃ c, runPastSplit = some c ∧ PastSplit c := by
  have hrun : (runPastSplit.map fun c =>
      c.log.any (returned 0 (.write (.ofNat 33) 133) .done) &&
      (c.log.any (takesLock 0 (.table (headFpAddr Env.plain))) &&
      (c.log.any (takesLock 0 (.node (rootAddr Env.plain))) && (isIdle c 0 &&
      (([1, 2].all fun t => c.log.any (cachesNode t (rootAddr Env.plain))) &&
      (c.log.any (returned 1 (.read (.ofNat 20) 9) (.value 120)) &&
      (c.log.any (returned 2 (.scan (.ofNat 10) (.ofNat 40) 100) (.results scanned)) &&
      c.log.getLast?.any (readsSlot 1)))))))) = some true := by decide +kernel
  obtain ⟨c, hrun, hc⟩ := Option.map_eq_some_iff.mp hrun
  simp only [Bool.and_eq_true] at hc
  obtain ⟨h1, h2, h3, h4, h5, h6, h7, h8⟩ := hc
  exact ⟨c, hrun, h1, h2, h3, h4, h5, h6, h7, h8⟩

/-- The write that splits the leaf and the read that overlaps it are linearizable. -/
theorem tree_linearizable_overlap : ∃ c : PlainConfig, PastSplit c ∧
    Linearizable (C := treeClient Env.plain cacheOnly) treeObject (fun op => op.isPoint = true)
      c.log := by
  obtain ⟨c, hrun, hc⟩ := exists_pastSplit
  exact ⟨c, hc, tree_linearizable _ _ 1 c rfl rfl (runPastSplit_reach _ hrun)⟩

/-! ### Assertions -/

/-- The assertions that depend on more than the code sees to. -/
def openErrs : List TreeErr := [.deadlock, .rootChanged, .rightNull, .bottomRightNull, .cache]

/-- In every run that the guard allows, the other assertions of the code hold. -/
theorem assertions_hold (E : Env) (F : Flags) (me : Nat) (c : TreeConfig E F)
    (h : Reach (treeMachine E) (treeGuard E F {}) (treeInit E F me) c) (t : Tid) (op : TreeOp)
    (e : TreeErr) (he : e ∉ openErrs) : c.thr t ≠ .busy op (.fail e) := by
  refine (tree_reach h).not_failed fun hmay => he ?_
  cases e <;> first | decide | exact False.elim hmay

/-- Client 1 has read the slot that it overwrites, and goes on from the check of its version. -/
theorem assertions_hold_entryVersion : ∃ c : PlainConfig, PastSplit c ∧
    ∀ e ∉ openErrs, c.thr 1 ≠ .busy (.write (.ofNat 20) 77) (.fail e) := by
  obtain ⟨c, hrun, hc⟩ := exists_pastSplit
  exact ⟨c, hc, fun e he => assertions_hold _ _ 1 c (runPastSplit_reach _ hrun) 1 _ e he⟩

/-- With the cache keyed as intended, root splits at the root only and keys below `KeyMax`, no
assertion fails but the one on lock retries. -/
theorem assertions_hold_guarded (E : Env) (F : Flags) (me : Nat) (c : TreeConfig E F)
    (hpool : 0 < E.poolSize)
    (h : Reach (treeMachine E) (treeGuard E F { keyed := True, rooted := True, bounded := True })
      (treeInit E F me) c) (t : Tid) (op : TreeOp) (e : TreeErr) (he : e ≠ .deadlock) :
    c.thr t ≠ .busy op (.fail e) := by
  refine (tree_reach h).not_failed fun hmay => ?_
  cases e <;> first
    | exact he rfl
    | exact hmay.elim
    | exact hmay trivial
    | exact hmay ⟨trivial, hpool⟩

/-- The keys are below `KeyMax`, and the cache is filled while the split goes on. -/
theorem assertions_hold_guarded_cached : ∃ c : PlainConfig, PastSplit c ∧
    ∀ t op e, e ≠ .deadlock → c.thr t ≠ .busy op (.fail e) := by
  obtain ⟨c, hrun, hc⟩ := exists_pastSplit
  exact ⟨c, hc, assertions_hold_guarded _ _ 1 c (by decide) (runPastSplit_reach _ hrun)⟩

/-- A client to which nothing belongs holds no lock. -/
theorem Owned.holds_nothing {t : Tid} {g : TreeView} (h : Owned t g {}) {w : LockWord} :
    ¬ g.Holds t w := by
  intro hw
  cases w with
  | table b =>
    obtain ⟨a, y, hy, -, hyt⟩ := hw
    have hlown : g.lown a = some t := by
      unfold TreeView.lown
      rw [hy]
      exact hyt
    exact absurd ((h.leaf a).mp hlown) (by simp)
  | node a => exact absurd ((h.node a).mp hw) (by simp)
  | root => exact absurd (h.root.mp hw) (by simp)

/-- A client that is not in a call holds no lock. -/
theorem idle_holds_nothing (E : Env) (F : Flags) (me : Nat) (c : TreeConfig E F)
    (h : Reach (treeMachine E) (treeGuard E F {}) (treeInit E F me) c) (t : Tid) (it : InnerTree)
    (ht : c.thr t = .idle it) (w : LockWord) : holder c.log w ≠ some t := by
  obtain ⟨g, hi, hth⟩ := tree_reach h
  have hidle := hth t
  rw [ht] at hidle
  exact fun hw => hidle.1.2.holds_nothing ((hi.held w t).mp hw)

/-- Client 0 has locked the leaf and the root node for the split. -/
theorem idle_holds_nothing_split : ∃ c : PlainConfig, PastSplit c ∧ ∀ w, holder c.log w ≠ some 0 := by
  obtain ⟨c, hrun, hc⟩ := exists_pastSplit
  obtain ⟨it, hit⟩ := exists_of_isIdle hc.idle
  exact ⟨c, hc, idle_holds_nothing _ _ 1 c (runPastSplit_reach _ hrun) 0 it hit⟩

/-! ### Reads and scans -/

/-- The last value of a key comes from one of the writes. -/
theorem exists_of_lastValue {l : List EntryPos} {p : EntryPos}
    (h : lastValue l p.key = some p.value) : p ∈ l := by
  change putAll (fun _ => none) l p.key = some p.value at h
  rw [putAll_apply, Option.or_none] at h
  obtain ⟨q, hq, hv⟩ := Option.map_eq_some_iff.mp h
  have hmem := List.mem_of_getLast? hq
  obtain ⟨hql, hk⟩ := List.mem_filter.mp hmem
  have hk : q.key = p.key := of_decide_eq_true hk
  obtain rfl : q = p := by
    cases q
    cases p
    simp only at hk hv
    rw [hk, hv]
  exact hql

/-- A pair that was in the tree had been written by a call of before. -/
theorem WorldInv.written (hi : WorldInv M x) (hF : F.writeCombining = false)
    (hd : d ≤ x.log.length) {p : EntryPos} (hp : (x.ghost.past d).Has p) :
    ∃ (i : Nat) (t : Tid), i < d ∧ x.log[i]? = some (.call t (.write p.key p.value)) := by
  have hlast := ((hi.trail d hd).1 p).mp hp
  obtain ⟨w, hw, rfl⟩ := List.mem_map.mp (exists_of_lastValue hlast)
  obtain ⟨t, hcall⟩ := hi.call_of_eff hF ((hi.past_eff hd).subset hw)
  exact ⟨w.1, t, (hi.trail d hd).2 w hw, hcall⟩

/-- A write of the key has returned before the position `i`. -/
def WrittenBefore (l : TreeLog E F) (i : Nat) (k : Key) : Prop :=
  ∃ (j : Nat) (t : Tid) (v : Value) (r : TreeRes), j < i ∧ l[j]? = some (.ret t (.write k v) r)

theorem WorldInv.stored_of_written (hi : WorldInv M x) (hF : F.writeCombining = false)
    (hd : i ≤ x.log.length) (h : WrittenBefore x.log i k) : (x.ghost.past i).Stored E.hash k := by
  obtain ⟨j, t, v, r, hj, hlog⟩ := h
  exact hi.returned hF i j t k v r hj hd hlog

/-- A read returns a value that was written under its key by a call made before it returned, or no
write of the key had returned when the read was made. -/
theorem read_answers (E : Env) (F : Flags) (me : Nat) (c : TreeConfig E F)
    (hF : F.writeCombining = false) (hD : F.readDelegation = false)
    (h : Reach (treeMachine E) (treeGuard E F {}) (treeInit E F me) c) (j : Nat) (t : Tid) (k : Key)
    (v : Value) (res : TreeRes) (hret : c.log[j]? = some (.ret t (.read k v) res)) :
    ∃ (i : Nat) (w : Value), openCall (c.log.take j) t = some (i, .read k v) ∧ res = .value w ∧
      ((∃ (d : Nat) (u : Tid), d < j ∧ c.log[d]? = some (.call u (.write k w))) ∨
        ((w = v ∨ w = ValueNull) ∧ ¬ WrittenBefore c.log i k)) := by
  obtain ⟨g, i, hi, hij, hj, hopen, hres⟩ := returned_result h hret
  cases res with
  | value w =>
    refine ⟨i, w, hopen, rfl, ?_⟩
    rcases hres hD with ⟨d, -, hle, hhas, -⟩ | ⟨hw, hno⟩
    · obtain ⟨d', u, hlt, hcall⟩ := hi.written hF (hle.trans hj.le) hhas
      exact Or.inl ⟨d', u, hlt.trans_le hle, hcall⟩
    · exact Or.inr ⟨hw, fun hwr => hno (hi.stored_of_written hF (hij.trans hj).le hwr)⟩
  | done => exact hres.elim
  | results l => exact hres.elim

theorem read_answers_overlap : ∃ (c : PlainConfig) (j : Nat), PastSplit c ∧
    c.log[j]? = some (.ret 1 (.read (.ofNat 20) 9) (.value 120)) ∧
    ∃ (i : Nat) (w : Value), openCall (c.log.take j) 1 = some (i, .read (.ofNat 20) 9) ∧
      TreeRes.value 120 = .value w ∧
      ((∃ (d : Nat) (u : Tid), d < j ∧ c.log[d]? = some (.call u (.write (.ofNat 20) w))) ∨
        ((w = 9 ∨ w = ValueNull) ∧ ¬ WrittenBefore c.log i (.ofNat 20))) := by
  obtain ⟨c, hrun, hc⟩ := exists_pastSplit
  obtain ⟨j, hj⟩ := exists_of_returned hc.read
  exact ⟨c, j, hc, hj, read_answers _ _ 1 c rfl rfl (runPastSplit_reach _ hrun) j 1 _ _ _ hj⟩

/-- A scan returns pairs that were written by calls made before it returned, no key twice; and unless
it has reached its length, every key of its range that a write had returned for when the scan was
made. -/
theorem scan_answers (E : Env) (F : Flags) (me : Nat) (c : TreeConfig E F)
    (hF : F.writeCombining = false)
    (h : Reach (treeMachine E) (treeGuard E F {}) (treeInit E F me) c) (j : Nat) (t : Tid)
    (start stop : Key) (len : Int) (res : TreeRes)
    (hret : c.log[j]? = some (.ret t (.scan start stop len) res)) :
    ∃ (i : Nat) (l : List EntryPos), openCall (c.log.take j) t = some (i, .scan start stop len) ∧
      res = .results l ∧
      (∀ p ∈ l, start ≤ p.key ∧ ∃ (d : Nat) (u : Tid), d < j ∧
        c.log[d]? = some (.call u (.write p.key p.value))) ∧
      (l.map EntryPos.key).Nodup ∧
      ((l.length : Int) < len → ∀ k, WrittenBefore c.log i k → start ≤ k → k ≤ stop →
        k ∈ l.map EntryPos.key) := by
  obtain ⟨g, i, hi, hij, hj, hopen, hres⟩ := returned_result h hret
  cases res with
  | results l =>
    obtain ⟨hseen, hnodup, hfull⟩ := hres
    refine ⟨i, l, hopen, rfl, fun p hp => ?_, hnodup, fun hlen k hwr hlo hhi => ?_⟩
    · obtain ⟨⟨d, -, hle, hhas⟩, hstart⟩ := hseen p hp
      obtain ⟨d', u, hlt, hcall⟩ := hi.written hF (hle.trans hj.le) hhas
      exact ⟨hstart, d', u, hlt.trans_le hle, hcall⟩
    · exact hfull hlen k (hi.stored_of_written hF (hij.trans hj).le hwr) hlo hhi
  | done => exact hres.elim
  | value w => exact hres.elim

theorem scan_answers_split : ∃ (c : PlainConfig) (j : Nat), PastSplit c ∧
    c.log[j]? = some (.ret 2 (.scan (.ofNat 10) (.ofNat 40) 100) (.results scanned)) ∧
    ∃ (i : Nat) (l : List EntryPos),
      openCall (c.log.take j) 2 = some (i, .scan (.ofNat 10) (.ofNat 40) 100) ∧
      TreeRes.results scanned = .results l ∧
      (∀ p ∈ l, Key.ofNat 10 ≤ p.key ∧ ∃ (d : Nat) (u : Tid), d < j ∧
        c.log[d]? = some (.call u (.write p.key p.value))) ∧
      (l.map EntryPos.key).Nodup ∧
      ((l.length : Int) < 100 → ∀ k, WrittenBefore c.log i k → Key.ofNat 10 ≤ k → k ≤ Key.ofNat 40 →
        k ∈ l.map EntryPos.key) := by
  obtain ⟨c, hrun, hc⟩ := exists_pastSplit
  obtain ⟨j, hj⟩ := exists_of_returned hc.scan
  exact ⟨c, j, hc, hj, scan_answers _ _ 1 c rfl (runPastSplit_reach _ hrun) j 2 _ _ _ _ hj⟩

end DMTree
