import DMTree.Proofs.ScanOutlines

/-!
# Whole runs of the tree

The calls keep the discipline of the protocol, and `init_root_node` sets it up; so it holds in every
configuration of every run.
-/

namespace DMTree

open Conc Segments

variable {E : Env} {F : Flags} {M : Mode} {t : Tid} {op : TreeOp} {x : TreeWorld E F}
  {e : Event TreeSig TreeOp TreeRes}

/-! ## Calls and returns -/

theorem cur_ret {l : TreeLog E F} {u : Tid} {r : TreeRes} :
    (lockClock (l ++ [.ret u op r])).cur t = (lockClock l).cur t := by
  rw [lockClock_concat, tick_plain rfl]

theorem cur_call {l : TreeLog E F} :
    (lockClock (l ++ [.call t op])).cur t = l.length := by
  rw [lockClock_concat]
  simp only [LockClock.tick, Function.update_self, lockClock_now]

/-- A call or a return leaves the tree. -/
theorem stepOk_local (hi : WorldInv M x) (htid : e.tid = t) (hact : ∀ u c r, e ≠ .act u c r)
    (hdone : ∀ op, e = .call t op → F.writeCombining = false →
      ∀ k v, lastCall x.log t = some (.write k v) →
        ∃ w ∈ x.ghost.view.eff, w.1 = (lockClock x.log).cur t)
    (hanswer : ∀ op r, e = .ret t op r →
      ResultOk E F M x.ghost.past ((lockClock x.log).cur t) x.log.length op r) :
    StepOk M t x x.mem x.ghost.view e where
  tid := htid
  step := hi.tree.idle t
  snap := fun u a n he => absurd he (hact _ _ _)
  moving := by
    intro a y s hy hs
    refine Or.inr ⟨y, hy, rfl, hs, ?_⟩
    cases e with
    | call u op => rfl
    | act u c r => exact absurd rfl (hact u c r)
    | ret u op r => rfl
  held := by
    intro w u
    rw [← hi.held]
    cases e with
    | call u op => exact Iff.rfl
    | act u c r => exact absurd rfl (hact u c r)
    | ret u op r => exact Iff.rfl
  law := fun c r he => absurd he (hact _ _ _)
  quiet := fun _ => rfl
  copies := fun _ _ _ => Or.inl
  locks := fun _ _ => rfl
  fresh := fun a he => absurd he (hact _ _ _)
  eff := Or.inl rfl
  done := hdone
  answer := hanswer

/-! ## What a client knows between its calls -/

/-- Between two calls a client holds nothing, and its last write has taken effect. -/
def TreeIdle (t : Tid) (it : InnerTree) : TreeWorld E F → Prop :=
  Says t fun f => (RootKnown f.view it ∧ Owned t f.view {}) ∧
    (F.writeCombining = false → ∀ k v, f.op = some (.write k v) → Effected f k v)

/-- At the start of a call, what is stored now was stored when it was made. -/
def TreePre (t : Tid) (op : TreeOp) (it : InnerTree) : TreeWorld E F → Prop :=
  Says t fun f => ((Since E f op ∧ ∀ w ∈ f.view.eff, w.1 ≠ f.pos) ∧ Owned t f.view {}) ∧
    RootKnown f.view it

/-- At the end of a call its result is right. -/
def TreePost (M : Mode) (t : Tid) (op : TreeOp) (res : TreeRes) (it : InnerTree)
    (x : TreeWorld E F) : Prop :=
  TreeIdle t it x ∧
    ResultOk E F M x.ghost.past ((lockClock x.log).cur t) x.log.length op res

theorem Enduring.rootKnown {it : InnerTree} : Enduring E M t fun f => RootKnown f.view it :=
  .know fun _ _ hle h => RootKnown.mono h hle

theorem treeIdle_stable (it : InnerTree) :
    (treeDisc E F M).Stable t (TreeIdle (E := E) (F := F) t it) := by
  refine Enduring.stable ((Enduring.rootKnown.and .owned).and ?_)
  intro u f f' hu hi h hF k v hop
  rw [hi.op] at hop
  exact Enduring.effected (E := E) (M := M) u f f' hu hi (h hF k v hop)

theorem treePre_stable (op : TreeOp) (it : InnerTree) :
    (treeDisc E F M).Stable t (TreePre (E := E) (F := F) t op it) := by
  refine Enduring.stable (Enduring.and (Enduring.and ?_ .owned) .rootKnown)
  rintro u f f' hu hi ⟨hs, hw⟩
  refine ⟨Enduring.since (E := E) (M := M) u f f' hu hi hs, fun w hmem => ?_⟩
  rw [hi.pos]
  rcases hi.eff with he | ⟨c, p, a, y, he, hc, -⟩
  · exact hw w (he ▸ hmem)
  · rw [he] at hmem
    rcases List.mem_append.mp hmem with hmem | hmem
    · exact hw w hmem
    · obtain rfl := List.mem_singleton.mp hmem
      exact hc hs.op_ne

/-- A call is made. -/
theorem treeIdle_call (it : InnerTree) (hi : WorldInv M x) (hx : TreeIdle t it x) :
    (treeDisc E F M).Does t x x.mem (.call t op) (TreePre t op it) := by
  obtain ⟨⟨hroot, hown⟩, hdone⟩ := hx
  have hok : StepOk M t x x.mem x.ghost.view (.call t op) := by
    refine stepOk_local hi rfl (fun _ _ _ h => by cases h) (fun _ _ hF k v hop => ?_)
      fun _ _ h => by cases h
    exact (hdone hF k v hop).2
  refine hok.does hi ⟨⟨⟨⟨?_, fun k hk => ?_⟩, fun w hw => ?_⟩, hown⟩, hroot⟩
  · exact lastCall_call.trans (if_pos rfl)
  · change ((nextGhost x x.ghost.view).past
      ((lockClock (x.log ++ [.call t op])).cur t)).Stored E.hash k at hk
    rw [cur_call, past_le le_rfl, hi.past] at hk
    exact hk
  · change w.1 ≠ (lockClock (x.log ++ [.call t op])).cur t
    have hw : w ∈ (x.ghost.past x.log.length).eff := by
      rw [hi.past]
      exact hw
    rw [cur_call]
    exact ((hi.trail _ le_rfl).2 w hw).ne

/-- A call returns. -/
theorem treePost_ret (res : TreeRes) (it : InnerTree) (hi : WorldInv M x)
    (hx : TreePost M t op res it x) :
    (treeDisc E F M).Does t x x.mem (.ret t op res) (TreeIdle t it) := by
  obtain ⟨⟨hknown, hdone⟩, hres⟩ := hx
  have hok : StepOk M t x x.mem x.ghost.view (.ret t op res) := by
    refine stepOk_local hi rfl (fun _ _ _ h => by cases h) (fun _ h => by cases h) ?_
    intro op' r he
    cases he
    exact hres
  refine hok.does hi ⟨hknown, fun hF k v hop => ?_⟩
  obtain ⟨-, w, hw, hpos⟩ := hdone hF k v (lastCall_ret.symm.trans hop)
  exact ⟨hop, w, hw, hpos.trans cur_ret.symm⟩

/-! ## The programs of the calls -/

/-- The program of a call, from `TreePre` to `TreePost`. -/
theorem code_outline (op : TreeOp) (it : InnerTree) (hg : (treeGuard E F M).call t op) :
    Outline (treeDisc E F M) t ((treeClient E F).code t op it) (TreePre t op it)
      fun a => TreePost M t op a.1 a.2 := by
  cases op with
  | write k v =>
    refine Outline.bind ((write_spec hg it).mono fun x _ hx => ?_) fun it' =>
      Outline.pure fun x hi hx => ?_
    · obtain ⟨⟨⟨hs, hw⟩, hown⟩, hroot⟩ := hx
      exact ⟨⟨⟨hs.1, hw⟩, hown⟩, hroot⟩
    · obtain ⟨⟨hop, hw⟩, hown, hroot⟩ := hx
      refine ⟨⟨⟨hroot, hown⟩, fun hF k' v' hop' => ?_⟩, fun hF => ?_⟩
      · rw [hop] at hop'
        cases hop'
        exact (hw hF).1
      · rw [hi.past]
        exact ⟨(hw hF).2, (hw hF).1.2⟩
  | read k v =>
    refine Outline.bind ((read_spec hg it).mono
      fun x _ hx => ⟨⟨hx.1.1.1, hx.1.2⟩, hx.2⟩) fun s => Outline.pure fun x hi hx => ?_
    obtain ⟨⟨⟨hs, hown⟩, hroot⟩, hans⟩ := hx
    refine ⟨⟨⟨hroot, hown⟩, fun _ k' v' hop => ?_⟩, hans⟩
    rw [hs.1] at hop
    cases hop
  | scan start stop len =>
    refine Outline.bind ((scan_spec hg it).mono
      fun x _ hx => ⟨⟨hx.1.1.1, hx.1.2⟩, hx.2⟩) fun s => Outline.pure fun x hi hx => ?_
    obtain ⟨⟨⟨hs, hown⟩, hroot⟩, hscan⟩ := hx
    refine ⟨⟨⟨hroot, hown⟩, fun _ k' v' hop => ?_⟩, hscan.seen, hscan.nodup, hscan.full⟩
    rw [hs.1] at hop
    cases hop

/-- The clients of the tree keep its discipline. -/
theorem tree_keeps : Keeps (treeDisc E F M) TreeIdle TreePre (TreePost M) where
  idle_stable := fun _ it => treeIdle_stable it
  pre_stable := fun _ op it => treePre_stable op it
  call := fun _ _ it _ _ hi hx => treeIdle_call it hi hx
  code := fun _ op it hg => code_outline op it hg
  ret := fun _ _ res it _ hi hx => treePost_ret res it hi hx

/-! ## `init_root_node` -/

/-- The head leaf. -/
def initLeafView (E : Env) : LeafView where
  tab := headFpAddr E
  min := KeyNull
  cap := leafNodeCapacity
  max := KeyMax
  ver := 0
  right := none
  kv := []
  fps := []
  tver := 0
  pmax := KeyMax
  own := none

/-- The record of the head leaf. -/
def headRecord (E : Env) : Record := .make KeyNull (headAddr E) (headFpAddr E) leafNodeCapacity 0

/-- The tree with one empty leaf. -/
def initView (E : Env) : TreeView where
  leaf a := if a = headAddr E then some (initLeafView E) else none
  chain := [headAddr E]
  st a := if a = headAddr E then .listed else .fresh
  inner a := if a = rootAddr E then some ⟨0, KeyNull⟩ else none
  lvl ℓ := if ℓ = 0 then [headRecord E] else []
  top := 0
  iown _ := none
  ipend _ := none
  rown := none
  rtok := none
  priv _ := none
  eff := []

/-- The memory that `init_root_node` leaves, with empty caches. -/
def bareInit (E : Env) : Cluster :=
  { initCluster E 0 with node := fun _ => { cache := .init E.poolSize } }

theorem initView_leaf {a : Gaddr} {y : LeafView} (h : (initView E).leaf a = some y) :
    a = headAddr E ∧ y = initLeafView E := by
  simp only [initView] at h
  split at h
  · next ha => exact ⟨ha, (Option.some.inj h).symm⟩
  · cases h

theorem initView_inner {a : Gaddr} {i : NodeView} (h : (initView E).inner a = some i) :
    a = rootAddr E ∧ i = ⟨0, KeyNull⟩ := by
  simp only [initView] at h
  split at h
  · next ha => exact ⟨ha, (Option.some.inj h).symm⟩
  · cases h

theorem bareInit_inner {a : Gaddr} {n : InnerNode} (h : (bareInit E).inner a = some n) :
    a = rootAddr E ∧ n = initRoot E := by
  by_cases ha : a = rootAddr E
  · subst ha
    simp only [bareInit, initCluster, Function.update_self, Option.some.injEq] at h
    exact ⟨rfl, h.symm⟩
  · simp [bareInit, initCluster, Function.update_of_ne ha] at h

theorem bareInit_root : (bareInit E).inner (rootAddr E) = some (initRoot E) := by
  simp [bareInit, initCluster]

theorem init_leaves : LeavesOk E (bareInit E) (initView E) where
  ok := by
    intro a y hy
    obtain ⟨rfl, rfl⟩ := initView_leaf hy
    exact {
      cap_pos := by
        change 0 < leafNodeCapacity
        decide
      cap_le := by
        change leafNodeCapacity ≤ maxNodeCapacity
        decide
      min_le := keyNull_lt_keyMax.le
      max_le := le_rfl
      keys := List.nodup_nil
      range := fun p hp => absurd hp List.not_mem_nil
      rest := fun _ => ⟨rfl, rfl, Or.inl rfl⟩
      moving := fun b hb => by simp [initView] at hb
      first := fun hlt => absurd hlt (lt_irrefl _) }
  stored := by
    intro a y hy
    obtain ⟨rfl, rfl⟩ := initView_leaf hy
    refine ⟨initLeaf (E.stray (headAddr E)),
      (FPTable.zero leafNodeCapacity).setConsistent E.hash, ?_⟩
    exact {
      leaf := by simp [bareInit, initCluster]
      table := by simp [bareInit, initCluster, initLeafView]
      min := rfl
      max := rfl
      cap := rfl
      ver := rfl
      entries := by
        refine ⟨List.replicate leafNodeCapacity {}, rfl, fun d hd => ?_, by simp [initLeafView]⟩
        rw [List.eq_of_mem_replicate hd]
        exact ⟨rfl, rfl⟩
      fps := {
        fp := rfl
        length := Nat.zero_le _
        ne_zero := fun f hf => absurd hf List.not_mem_nil
        version := rfl
        crc := by simp [FPTable.checkConsistent, FPTable.setConsistent] }
      lock := rfl
      right := ⟨rfl, rfl⟩ }
  tab_inj := by
    intro a b y z hy hz _
    rw [(initView_leaf hy).1, (initView_leaf hz).1]
  disjoint := by
    intro a b y z k hy hz _ _ _ _
    rw [(initView_leaf hy).1, (initView_leaf hz).1]
  chain_mem := by
    intro a
    by_cases ha : a = headAddr E <;> simp [initView, ha]
  chain_nodup := List.nodup_singleton _
  chain_head := rfl
  chain_follows := List.isChain_singleton _
  chain_last := by
    intro a y _ hy
    rw [(initView_leaf hy).2]
    rfl

theorem init_levels : LevelsOk (initView E) where
  seg := by
    intro ℓ
    cases ℓ with
    | zero =>
      refine ⟨keyNull_lt_keyMax,
        ⟨rfl, initLeafView E, ?_, rfl, rfl, rfl, ?_, Or.inl ⟨?_, rfl, rfl⟩⟩, trivial⟩
      · exact if_pos rfl
      · simp [initView, headRecord, Record.make]
      · simp [initView, headRecord, Record.make, Status.closed]
    | succ ℓ => exact trivial
  idx := by
    intro a y hy _ _
    obtain ⟨rfl, rfl⟩ := initView_leaf hy
    exact ⟨headRecord E, List.mem_singleton_self _, rfl, rfl⟩
  pidx := by
    intro b i hb _ hlt
    exact absurd hlt (Nat.not_lt_zero _)
  pair := by
    intro a s hp
    simp only [initView] at hp
    split at hp <;> cases hp
  partner_inj := by
    intro a b s hp
    simp only [initView] at hp
    split at hp <;> cases hp
  fresh := by
    intro a ha
    simp only [initView] at ha ⊢
    split at ha
    · cases ha
    · next hne => exact if_neg hne

theorem init_nodeStored : NodeStored E (initView E) (rootAddr E) ⟨0, KeyNull⟩ (initRoot E) := by
  obtain ⟨hwf, hrecs, hhdr, hcrc, hlock⟩ := initRoot_spec E
  refine ⟨hwf, hcrc, by rw [hhdr], by rw [hhdr]; exact keyNull_lt_keyMax, by rw [hhdr],
    by rw [hhdr]; rfl, ?_, ⟨headRecord E, List.mem_singleton_self _, rfl⟩, fun h => ?_, fun _ j => ?_, hlock,
    fun _ => ⟨rfl, by rw [hhdr]⟩⟩
  · rw [hrecs, hhdr]
    exact (List.filter_eq_self.mpr fun r hr => by
      rw [List.mem_singleton.mp hr]
      simpa [headRecord, Record.make] using keyNull_lt_keyMax).symm
  · rw [hhdr] at h
    exact absurd h (lt_irrefl _)
  · rw [hhdr]
    exact (E.stray_ne _ j).symm

theorem init_nodes : NodesOk E (bareInit E) (initView E) where
  stored := by
    intro a i hi
    obtain ⟨rfl, rfl⟩ := initView_inner hi
    exact ⟨initRoot E, bareInit_root, init_nodeStored⟩
  disjoint := by
    intro a b i j n n' k hi hj _ _ _ _ _ _ _
    rw [(initView_inner hi).1, (initView_inner hj).1]
  own := fun a t h => by cases h
  pend := fun a t h => by cases h

theorem init_rootOk : RootOk M (bareInit E) (initView E) where
  inner := if_pos rfl
  lev_le := by
    intro b i hi
    rw [(initView_inner hi).2]
    exact le_rfl
  top_pend := by
    intro b i hi _
    exact Or.inl (initView_inner hi).1
  above := by
    intro ℓ hℓ
    exact if_neg (Nat.pos_iff_ne_zero.mp hℓ)
  lock := rfl
  marked := by
    intro _ _
    refine ⟨initRoot E, bareInit_root, ?_⟩
    rw [(initRoot_spec E).2.2.1]
  unique := fun _ a n hn _ => Or.inl ⟨(bareInit_inner hn).1, rfl⟩
  tok := fun t h => by cases h

theorem used_init {i : Nat} (hi : i < 3) : Used E (bareInit E) (E.alloc i) := ⟨i, hi, rfl⟩

theorem init_alloc : AllocOk E (bareInit E) (initView E) where
  leaf := by
    intro a y hy
    obtain ⟨rfl, rfl⟩ := initView_leaf hy
    exact ⟨used_init (by decide), used_init (by decide)⟩
  table := by
    intro a x hx
    by_cases ha : a = headFpAddr E
    · rw [ha]
      exact used_init (by decide)
    · simp [bareInit, initCluster, Function.update_of_ne ha] at hx
  inner := by
    intro a n hn
    rw [(bareInit_inner hn).1]
    exact used_init (by decide)
  priv := fun a t h => by cases h

theorem bareInit_inv : TreeInv E M (bareInit E) (initView E) where
  leaves := init_leaves
  levels := init_levels
  nodes := init_nodes
  root := init_rootOk
  alloc := init_alloc
  cache :=
    { remote := fun _ _ h => absurd h List.not_mem_nil
      node := fun _ _ h => absurd h List.not_mem_nil
      wf := fun _ _ => DMCache.init_wf }
  eff := by
    intro p
    constructor
    · rintro ⟨a, y, hy, hp⟩
      rw [(initView_leaf hy).2] at hp
      exact absurd hp List.not_mem_nil
    · rintro ⟨⟩

/-- The client that creates the tree caches its root. -/
theorem init_cache (me : Nat) : CacheOk E M (initCluster E me) (initView E) := by
  have hbare : CacheOk E M (bareInit E) (initView E) := bareInit_inv.cache
  have hnode : ∀ d, ((initCluster E me).node d).cache = if d = me then
      ((DMCache.init E.poolSize).insertCache
        (.make KeyNull (rootAddr E) (headFpAddr E) leafNodeCapacity 0) (initRoot E)).getD
          (DMCache.init E.poolSize) else DMCache.init E.poolSize := by
    intro d
    simp only [initCluster]
    split <;> rfl
  cases hc : (DMCache.init E.poolSize).insertCache
      (.make KeyNull (rootAddr E) (headFpAddr E) leafNodeCapacity 0) (initRoot E) with
  | none =>
    refine hbare.congr fun d => ?_
    rw [hnode, hc]
    split <;> rfl
  | some c =>
    have hhdr := (initRoot_spec E).2.2.1
    have hins : CacheOk E M ((bareInit E).setCache me c) (initView E) := by
      refine hbare.insertCache hc ?_ (bareInit_inv.snapNode (M := M) init_nodeStored) ?_ fun _ => ?_
      · rw [hhdr]
        exact if_pos rfl
      · rw [hhdr]
      · rw [hhdr]
        rfl
    refine hins.congr fun d => ?_
    rw [hnode, hc]
    by_cases hd : d = me
    · subst hd
      simp [Cluster.setCache]
    · simp [Cluster.setCache, hd, bareInit]

theorem init_inv (me : Nat) : TreeInv E M (initCluster E me) (initView E) := by
  have hstep : TreeStep E M 0 (bareInit E) (initView E) (initCluster E me) (initView E) := by
    refine bareInit_inv.side ?_ ?_ ?_ ?_ ?_ ?_ (init_cache me) 0 <;> rfl
  exact hstep.1

theorem init_worldInv (me : Nat) :
    WorldInv (E := E) (F := F) M ⟨initCluster E me, [], ⟨initView E, fun _ => initView E⟩⟩ where
  tree := init_inv me
  snap := fun i t a n h => by simp at h
  moving := by
    intro a y s _ hs
    simp only [initView] at hs
    split at hs <;> cases hs
  calls := fun w hw => absurd hw List.not_mem_nil
  once := List.nodup_nil
  done := fun _ i t k v h => by simp at h
  held := by
    intro w t
    constructor
    · rintro ⟨⟩
    · cases w with
      | table c =>
        rintro ⟨a, y, hy, -, hown⟩
        rw [(initView_leaf hy).2] at hown
        cases hown
      | node a => rintro ⟨⟩
      | root => rintro ⟨⟩
  order := List.Pairwise.nil
  copies := by
    intro i a tab h
    simp only [initCluster] at h
    split at h <;> cases h
  past := rfl
  start := rfl
  trail := fun i _ => ⟨bareInit_inv (M := M).eff, fun w hw => absurd hw List.not_mem_nil⟩
  grows := fun i hi => absurd hi (Nat.not_lt_zero _)
  returned := fun _ i j t k v r _ _ h => by simp at h
  answers := fun j t op r h => by simp at h

theorem init_owned (t : Tid) : Owned t (initView E) {} where
  leaf := by
    intro a
    constructor
    · intro h
      obtain ⟨y, hy, hown⟩ := Option.bind_eq_some_iff.mp h
      rw [(initView_leaf hy).2] at hown
      cases hown
    · rintro ⟨⟩
  node := fun a => ⟨(fun h => by cases h), (fun h => by cases h)⟩
  root := ⟨(fun h => by cases h), (fun h => by cases h)⟩
  opened := by
    intro a s
    constructor
    · intro h
      simp only [initView] at h
      split at h <;> cases h
    · rintro ⟨⟩
  ipend := fun a => ⟨(fun h => by cases h), (fun h => by cases h)⟩
  tok := ⟨(fun h => by cases h), (fun h => by cases h)⟩
  priv := fun a => ⟨(fun h => by cases h), (fun h => absurd h List.not_mem_nil)⟩

/-- The discipline holds before the first call. -/
theorem init_ok (me : Nat) :
    ConfigOk (treeDisc E F M) TreeIdle (TreePost M) (treeInit E F me) :=
  ⟨⟨initView E, fun _ => initView E⟩, init_worldInv me,
    fun t => ⟨⟨Or.inl rfl, init_owned t⟩, fun _ k v h => by cases h⟩⟩

/-- The discipline holds in every configuration of every run. -/
theorem tree_reach {me : Nat} {c : TreeConfig E F}
    (h : Reach (treeMachine E) (treeGuard E F M) (treeInit E F me) c) :
    ConfigOk (treeDisc E F M) TreeIdle (TreePost M) c :=
  tree_keeps.reach (init_ok me) h

end DMTree
