import DMTree.Proofs.IndexOutlines

/-!
# Writes

`leaf_insert` and `leaf_resize`. A write takes effect when it fills or replaces a slot of its leaf, or
when it rewrites the leaf for a split. At that moment the client holds the lock of the leaf, and every
earlier write of a key of the leaf has locked it before.
-/

namespace DMTree

open Conc Segments

variable {E : Env} {F : Flags} {M : Mode} {m m' : Cluster} {t u : Tid} {g g' : TreeView}
  {a b : Gaddr} {k : Key} {v : Value} {o : Holding} {op : TreeOp} {f f' : Focus} {x y : LeafView}
  {kv : List EntryPos} {fps : List UInt8} {own : Option Tid} {eff : List (Nat × EntryPos)}
  {z : TreeWorld E F} {p q : EntryPos}

/-! ## The call -/

/-- The call of the client writes the key, and has not taken effect. -/
def Writing (f : Focus) (k : Key) (v : Value) : Prop :=
  f.op = some (.write k v) ∧ ∀ w ∈ f.view.eff, w.1 ≠ f.pos

/-- It has taken effect. -/
def Effected (f : Focus) (k : Key) (v : Value) : Prop :=
  f.op = some (.write k v) ∧ ∃ w ∈ f.view.eff, w.1 = f.pos

/-- And the key can be found. -/
def Wrote (H : Hashes) (f : Focus) (k : Key) (v : Value) : Prop :=
  Effected f k v ∧ f.view.Stored H k

theorem Enduring.writing : Enduring E M t fun f => Writing f k v := by
  rintro u f f' hu hi ⟨hop, hw⟩
  refine ⟨hi.op.trans hop, fun w hmem => ?_⟩
  rw [hi.pos]
  rcases hi.eff with he | ⟨c, p, a, y, he, hc, -⟩
  · exact hw w (he ▸ hmem)
  · rw [he] at hmem
    rcases List.mem_append.mp hmem with hmem | hmem
    · exact hw w hmem
    · obtain rfl := List.mem_singleton.mp hmem
      exact hc (by simp [hop])

theorem Abiding.writing : Abiding E fun f => Writing f k v := by
  rintro f f' hn ⟨hop, hw⟩
  refine ⟨hn.op.trans hop, fun w hmem => ?_⟩
  rw [hn.pos]
  exact hw w (hn.eff ▸ hmem)

theorem Writing.op_ne (h : Writing f k v) : f.op ≠ none := by simp [h.1]

theorem Enduring.effected : Enduring E M t fun f => Effected f k v := by
  rintro u f f' hu hi ⟨hop, w, hw, hpos⟩
  refine ⟨hi.op.trans hop, w, ?_, hpos.trans hi.pos.symm⟩
  rcases hi.eff with he | ⟨c, p, a, y, he, -⟩
  · exact he ▸ hw
  · rw [he]
    exact List.mem_append_left _ hw

theorem Effected.op_ne (h : Effected f k v) : f.op ≠ none := by simp [h.1]

theorem Enduring.wrote : Enduring E M t fun f => Wrote E.hash f k v :=
  Enduring.effected.and fun _ _ _ _ hi hs => hi.rel.stored k hs

theorem Abiding.wrote : Abiding E fun f => Wrote E.hash f k v := by
  rintro f f' hn ⟨⟨hop, w, hw, hpos⟩, hs⟩
  exact ⟨⟨hn.op.trans hop, w, hn.eff ▸ hw, hpos.trans hn.pos.symm⟩, hn.stored k hs⟩

/-! ## Leaves under a lock -/

theorem lown_putLeaf (d : Gaddr) : (g.putLeaf a (x.edit kv fps own) eff).lown d =
    if d = a then own else g.lown d := by
  by_cases hd : d = a
  · subst hd
    simp [TreeView.lown, TreeView.putLeaf, LeafView.edit]
  · simp [TreeView.lown, TreeView.putLeaf, hd]

theorem Owned.putLeaf (h : Owned t g o) (ho : own = some t ↔ o.leaf = some a) :
    Owned t (g.putLeaf a (x.edit kv fps own) eff) o := by
  refine { h with leaf := fun d => ?_ }
  rw [lown_putLeaf]
  by_cases hd : d = a
  · subst hd
    rw [if_pos rfl]
    exact ho
  · rw [if_neg hd]
    exact h.leaf d

theorem Owned.lockLeaf (h : Owned t g o) (ho : o.leaf = none) :
    Owned t (g.setLeafLock a x (some t)) { o with leaf := some a } := by
  refine { h with leaf := fun d => ?_ }
  rw [TreeView.setLeafLock, lown_putLeaf]
  by_cases hd : d = a
  · subst hd
    simp
  · simp [hd, h.leaf d, ho, Ne.symm hd]

theorem Owned.unlockLeaf (h : Owned t g o) (ho : o.leaf = some a)
    (hown : own ≠ some t) : Owned t (g.putLeaf a (x.edit kv fps own) eff) { o with leaf := none } := by
  refine { h with leaf := fun d => ?_ }
  rw [lown_putLeaf]
  by_cases hd : d = a
  · subst hd
    simp [hown]
  · simp [hd, h.leaf d, ho, Ne.symm hd]

theorem putLeaf_holds (h : TreeInv E M m g) (hx : g.leaf a = some x) (v : Tid) :
    (g.putLeaf a (x.edit kv fps own) eff).Holds v (.table x.tab) ↔ own = some v := by
  constructor
  · rintro ⟨d, y, hy, htab, hown⟩
    rcases edit_leaf_inv hx hy with ⟨rfl, rfl⟩ | ⟨hd, hy⟩
    · exact hown
    · exact absurd (h.leaves.tab_inj d a y x hy hx htab) hd
  · intro hown
    exact ⟨a, x.edit kv fps own, Function.update_self .., rfl, hown⟩

theorem putLeaf_holds_of_ne (hx : g.leaf a = some x) (v : Tid) (w : LockWord)
    (hw : w ≠ .table x.tab) : (g.putLeaf a (x.edit kv fps own) eff).Holds v w ↔ g.Holds v w := by
  cases w with
  | table c =>
    constructor
    · rintro ⟨d, y, hy, htab, hown⟩
      rcases edit_leaf_inv hx hy with ⟨rfl, rfl⟩ | ⟨hd, hy⟩
      · exact absurd (congrArg LockWord.table htab.symm) hw
      · exact ⟨d, y, hy, htab, hown⟩
    · rintro ⟨d, y, hy, htab, hown⟩
      have hd : d ≠ a := by
        rintro rfl
        rw [hx] at hy
        cases hy
        exact hw (congrArg LockWord.table htab.symm)
      exact ⟨d, y, (Function.update_of_ne hd ..).trans hy, htab, hown⟩
  | node c => exact Iff.rfl
  | root => exact Iff.rfl

theorem putLeaf_holds_same (h : TreeInv E M m g) (hx : g.leaf a = some x) (hown : own = x.own)
    (v : Tid) (w : LockWord) : (g.putLeaf a (x.edit kv fps own) eff).Holds v w ↔ g.Holds v w := by
  by_cases hw : w = .table x.tab
  · subst hw
    rw [putLeaf_holds h hx, hown]
    constructor
    · exact fun ho => ⟨a, x, hx, rfl, ho⟩
    · rintro ⟨d, y, hy, htab, ho⟩
      obtain rfl := h.leaves.tab_inj d a y x hy hx htab
      rw [hx] at hy
      cases hy
      exact ho
  · exact putLeaf_holds_of_ne hx v w hw

/-- A step of a client on a leaf that is not between the two writes of a split. -/
theorem stepOk_edit {c : TreeCmd} {r : c.Resp} (hi : WorldInv M z)
    (hop : lastCall z.log t = some op) (hy : z.ghost.view.leaf a = some y)
    (hstill : ∀ s, z.ghost.view.st a ≠ .moving s)
    (hstep : TreeStep E M t z.mem z.ghost.view m' (z.ghost.view.putLeaf a (y.edit kv fps own) eff))
    (hq : c.quiet = false) (hlock : ∀ d, d ≠ y.tab → isLeafLock d (.act t c r) = false)
    (hheld : ∀ w v, holderStep w (holder z.log w) (.act t c r) = some v ↔
      (z.ghost.view.putLeaf a (y.edit kv fps own) eff).Holds v w)
    (hlaw : z.ghost.view.Lawful t c) (hnode : m'.node = z.mem.node)
    (hfresh : isPlain (.act t c r) = true ∨ ∀ w ∈ z.ghost.view.eff, w.1 ≠ (lockClock z.log).cur t)
    (heff : eff = z.ghost.view.eff ∨ ∃ p, isPlain (.act t c r) = true ∧
      eff = z.ghost.view.eff ++ [((lockClock z.log).cur t, p)] ∧ TakesEffect t z p) :
    StepOk M t z m' (z.ghost.view.putLeaf a (y.edit kv fps own) eff) (.act t c r) where
  tid := rfl
  step := hstep
  snap := by
    intro u d n he
    cases he
    cases hq
  moving := by
    intro d w s hw hs
    have hd : d ≠ a := fun he => hstill s (he ▸ hs)
    have hw' : z.ghost.view.leaf d = some w := by
      rcases edit_leaf_inv hy hw with ⟨rfl, -⟩ | ⟨-, hw⟩
      · exact absurd rfl hd
      · exact hw
    exact Or.inr ⟨w, hw', rfl, hs, hlock _ fun he =>
      hd (hi.tree.leaves.tab_inj d a w y hw' hy he)⟩
  held := hheld
  law := by
    intro c' r' he
    cases he
    exact ⟨⟨op, hop⟩, hlaw⟩
  quiet := by
    intro hq'
    have hq' := hq' c r rfl
    rw [hq] at hq'
    cases hq'
  copies := by
    intro i b tab htab
    rw [hnode] at htab
    exact Or.inl htab
  locks := by
    intro _ i
    rw [hnode]
  fresh := by
    intro d he
    rcases hfresh with hplain | hfresh
    · rw [he] at hplain
      cases hplain
    · exact hfresh
  eff := heff
  done := by
    intro op' he
    cases he
  answer := by
    intro op' r' he
    cases he

/-- The client has locked the leaf `a`, which is at rest. -/
structure LeafHeld (E : Env) (t : Tid) (f : Focus) (a : Gaddr) (x : LeafView) : Prop where
  leaf : f.view.leaf a = some x
  own : x.own = some t
  still : ∀ s, f.view.st a ≠ .moving s
  fps : x.fps = x.kv.map fun p => calKeyFp E.hash p.key

/-- The write of the client has not taken effect, but those to the leaf that have taken effect have
locked it before. -/
structure LeafLocked (E : Env) (t : Tid) (f : Focus) (k : Key) (v : Value) (a : Gaddr)
    (x : LeafView) : Prop extends LeafHeld E t f a x where
  writing : Writing f k v
  order : ∀ w ∈ f.view.eff, x.min ≤ w.2.key → w.2.key < x.max → f.time w.1 < f.time f.pos

/-- A leaf that a client has locked does not begin to move. -/
theorem Interferes.still (hi : Interferes E M u f f') (hu : u ≠ t) (hx : f.view.leaf a = some x)
    (hown : x.own = some t) (h : ∀ s, f.view.st a ≠ .moving s) (s : Gaddr) :
    f'.view.st a ≠ .moving s := by
  intro hs
  obtain ⟨m, -, hm⟩ := hi.inv
  obtain ⟨m', -, hm'⟩ := hi.inv'
  obtain ⟨hx', -⟩ := hi.rel.locked a x t hu.symm hx hown
  have h1 := ((hm.leaves.ok a x hx).rest h).1
  have h2 := ((hm'.leaves.ok a x hx').moving s hs).1
  omega

theorem Enduring.leafHeld : Enduring E M t fun f => LeafHeld E t f a x := by
  intro u f f' hu hi h
  obtain ⟨hx', -⟩ := hi.rel.locked a x t hu.symm h.leaf h.own
  exact ⟨hx', h.own, hi.still hu h.leaf h.own h.still, h.fps⟩

theorem Enduring.leafLocked : Enduring E M t fun f => LeafLocked E t f k v a x := by
  intro u f f' hu hi h
  obtain ⟨m, -, hm⟩ := hi.inv
  have hop := h.writing.op_ne
  refine ⟨Enduring.leafHeld u f f' hu hi h.toLeafHeld, Enduring.writing u f f' hu hi h.writing,
    fun w hw h1 h2 => ?_⟩
  rw [hi.pos, hi.lock hop]
  have hold : w ∈ f.view.eff := by
    rcases hi.eff with he | ⟨c, p, d, y, he, -, hy, ho, h3, h4⟩
    · exact he ▸ hw
    · rw [he] at hw
      rcases List.mem_append.mp hw with hw | hw
      · exact hw
      · -- a write to the leaf takes effect under its lock
        obtain rfl := List.mem_singleton.mp hw
        obtain rfl := hm.leaves.disjoint a d x y p.key h.leaf hy h1 h2 h3 h4
        rw [h.leaf] at hy
        cases hy
        rw [h.own] at ho
        exact absurd (Option.some.inj ho).symm hu
  rw [hi.time w hold]
  exact h.order w hold h1 h2

theorem LeafKnown.snap {x : LeafPath} (h : LeafKnown M g k x) : SnapRec g x.path k := h.loc.snap

/-- The lock of a leaf is taken. -/
theorem lockLeaf_outline (y : LeafPath) :
    Outline (treeDisc E F M) t (lockWord (.table y.path.fpAddr))
      (Says t fun f => (Writing f k v ∧ LeafKnown M f.view k y) ∧ Owned t f.view {}) fun _ =>
        Says t fun f => (LeafKnown M f.view k y ∧ ∃ x, LeafLocked E t f k v y.path.addr x ∧
          x.tab = y.path.fpAddr) ∧ Owned t f.view { leaf := some y.path.addr } := by
  have hknown : Enduring E M t fun f => LeafKnown M f.view k y :=
    .know fun _ _ hle h => LeafKnown.mono h hle
  refine lockWord_outline ((Enduring.writing.and hknown).and .owned)
    ((hknown.and (.exists fun x => Enduring.leafLocked.and (.const _))).and .owned)
    (fun f hf => hf.1.1.op_ne) fun z hi hz hbit => ?_
  obtain ⟨⟨hw, hk⟩, hown⟩ := hz
  obtain ⟨x, hx, htab, -⟩ := hk.snap.leaf
  have hx : z.ghost.view.leaf y.path.addr = some x := hx
  rw [← htab] at hbit ⊢
  obtain ⟨hnone, hstep⟩ := hi.tree.lockLeaf hx hk.snap.indexed hbit t
  have hok := hi.tree.leaves.ok _ x hx
  have hstill : ∀ s, z.ghost.view.st y.path.addr ≠ .moving s := by
    intro s hs
    have := (hok.moving s hs).2.2
    rw [hnone] at this
    cases this
  have hfps : x.fps = x.kv.map fun p => calKeyFp E.hash p.key := by
    rcases (hok.rest hstill).2.2 with hfps | ⟨ho, -⟩
    · exact hfps
    · rw [hnone] at ho
      cases ho
  refine ⟨z.ghost.view.setLeafLock y.path.addr x (some t), stepOk_edit hi hw.1 hx hstill hstep rfl
    (fun d hd => by simp [isLeafLock, Ne.symm hd]) (held_of hi (fun w => rfl)
      (fun v => putLeaf_holds hi.tree hx v) fun v w hw => putLeaf_holds_of_ne hx v w hw) trivial rfl
    (Or.inr hw.2) (Or.inl rfl), ⟨hk.mono hstep.2.le, x.edit x.kv x.fps (some t), ?_, rfl⟩,
    hown.lockLeaf rfl⟩
  rw [focus_lock]
  refine ⟨⟨Function.update_self .., rfl, hstill, hfps⟩, hw, fun w hmem _ _ => ?_⟩
  -- the lock that has just been taken is the last one
  have hne : w.1 ≠ (focus t z).pos := hw.2 w hmem
  simp only [Function.update_self, Function.update_of_ne hne]
  exact Nat.lt_succ_of_le (time_le w.1)

section Steps

variable {χ : Focus → Prop} (hab : Abiding E χ) (hop : ∀ f, χ f → f.op ≠ none)
include hab hop

theorem unlockLeaf_rule :
    (treeDisc E F M).Cmd t (.release (.table x.tab))
      (Says t fun f => χ f ∧ LeafHeld E t f a x ∧ Owned t f.view { leaf := some a }) fun _ =>
        Says t fun f => χ f ∧ Owned t f.view {} := by
  refine cmd_rule fun z _ m hi hz _ he => ?_
  obtain ⟨hz, hh, hown⟩ := hz
  obtain ⟨_, -, hm⟩ := Option.map_eq_some_iff.mp he
  have hm : z.mem.setLockBit false (.table x.tab) = m := congrArg Prod.snd hm
  subst hm
  obtain ⟨op, hop'⟩ := Option.ne_none_iff_exists'.mp (hop _ hz)
  have hstep := hi.tree.unlockLeaf hh.leaf hh.own hh.still hh.fps
  refine ⟨z.ghost.view.setLeafLock a x none, stepOk_edit hi hop' hh.leaf hh.still hstep rfl
    (fun _ _ => rfl) (held_of hi (fun w => rfl) (fun v => putLeaf_holds hi.tree hh.leaf v)
      fun v w hw => putLeaf_holds_of_ne hh.leaf v w hw) ⟨a, x, hh.leaf, rfl, hh.own⟩ rfl (Or.inl rfl)
    (Or.inl rfl), ?_, hown.unlockLeaf rfl (Option.some_ne_none t).symm⟩
  exact hab _ _ (focus_next rfl hstep.2 rfl) hz

end Steps

/-! ## The slots of a leaf -/

/-- The leaf that the client has locked is the leaf of its key. -/
structure LeafReady (E : Env) (t : Tid) (f : Focus) (k : Key) (v : Value) (a : Gaddr)
    (x : LeafView) : Prop extends LeafLocked E t f k v a x where
  listed : f.view.st a = .listed
  range : x.min ≤ k ∧ k < x.max

theorem Enduring.leafReady : Enduring E M t fun f => LeafReady E t f k v a x := by
  intro u f f' hu hi h
  exact ⟨Enduring.leafLocked u f f' hu hi h.toLeafLocked,
    (hi.rel.locked a x t hu.symm h.leaf h.own).2.1 h.listed, h.range⟩

/-- What a record says about a leaf whose table has the version of the record. -/
structure LeafFits (r : Record) (x : LeafView) : Prop where
  tab : x.tab = r.fpAddr
  ver : x.ver = r.version
  cap : x.cap = r.capacity

/-- A leaf whose table has the version of the record is the leaf of the key. -/
theorem LeafLocked.ready {r : Record} (h : TreeInv E M m f.view)
    (hl : LeafLocked E t f k v r.addr x) (hs : SnapRec f.view r k) (hv : r.version = x.tver) :
    LeafReady E t f k v r.addr x ∧ LeafFits r x := by
  obtain ⟨x', hx', htab, hcap, hmin, -, -, hclosed, hmax⟩ := hs.leaf
  rw [hl.leaf] at hx'
  cases hx'
  obtain ⟨hver, hpmax, -⟩ := (h.leaves.ok _ x hl.leaf).rest hl.still
  have hst : f.view.st r.addr = .listed := by
    have h1 := hs.indexed
    have h2 := hl.still
    cases hst : f.view.st r.addr with
    | fresh => exact absurd hst h1
    | listed => rfl
    | moving s => exact absurd hst (h2 s)
    | opened u s =>
      rw [hst] at hclosed
      exact absurd hv (hclosed rfl).ne
    | orphan =>
      rw [hst] at hclosed
      exact absurd hv (hclosed rfl).ne
  exact ⟨⟨hl, hst, hmin ▸ hs.key_le, hpmax ▸ hmax hv⟩, htab, hver.trans hv.symm, hcap⟩

/-- The write of a client that is ready takes effect. -/
theorem LeafReady.takesEffect {w : Value} (h : LeafReady E t (focus t z) k v a x)
    (hw : F.writeCombining = false → w = v) : TakesEffect t z ⟨k, w⟩ where
  call := ⟨v, h.writing.1, fun hF => (hw hF).symm⟩
  fresh := h.writing.2
  leaf := ⟨a, x, h.leaf, h.own, h.range⟩
  order := by
    intro w hmem hk
    have hk : w.2.key = k := hk
    exact h.order w hmem (hk ▸ h.range.1) (hk ▸ h.range.2)

/-- A slot with a fingerprint is found, unless its leaf takes part in a split. -/
theorem TreeInv.stored_of_still {i : Nat} (h : TreeInv E M m g) (hx : g.leaf a = some x)
    (hst : g.st a ≠ .fresh) (hmv : ∀ s, g.st a ≠ .moving s) (hi : i < x.fps.length)
    (hk : (x.kv[i]?).map EntryPos.key = some k) : g.Stored E.hash k := by
  refine ⟨a, x, i, hx, hi, hk, fun b y s _ hs hor => ?_⟩
  rcases hor with rfl | rfl
  · exact absurd hs (hmv s)
  · obtain ⟨_, _, _, _, hp⟩ := h.levels.pair b a (by rw [hs]; rfl)
    exact absurd hp.fresh hst

theorem TreeInv.stored_of_listed {i : Nat} (h : TreeInv E M m g) (hx : g.leaf a = some x)
    (hst : g.st a = .listed) (hi : i < x.fps.length) (hk : (x.kv[i]?).map EntryPos.key = some k) :
    g.Stored E.hash k :=
  h.stored_of_still hx (by simp [hst]) (by simp [hst]) hi hk

/-- A new value for a key leaves the fingerprints. -/
theorem map_fp_set {H : Hashes} {i : Nat} (hi : kv[i]? = some q) (hk : q.key = p.key) :
    (kv.set i p).map (fun p => calKeyFp H p.key) = kv.map fun p => calKeyFp H p.key := by
  have hmap : ∀ l : List EntryPos, l.map (fun p => calKeyFp H p.key) =
    (l.map EntryPos.key).map (calKeyFp H) := fun l => by simp
  rw [hmap, map_key_set hi hk, ← hmap]

theorem combine_outline {φ : Focus → Prop} (hφ : Enduring E M t φ) (hop : ∀ f, φ f → f.op ≠ none)
    (k : Key) (w : Value) :
    Outline (treeDisc E F M) t (combine E F k w) (Says t φ) fun w' =>
      Says t fun f => φ f ∧ (F.writeCombining = false → w' = w) := by
  refine Outline.ite (fun hF => ?_) fun _ => Outline.pure fun _ _ hx => ⟨hx, fun _ => rfl⟩
  refine (onLockTable_outline hop hφ _ _).post fun _ _ _ hx => ⟨hx, fun h => ?_⟩
  rw [hF] at h
  cases h

section Slots

variable {P : TreeView → Prop} (hP : ∀ g g' : TreeView, g.Le g' → P g → P g') {w : Value}
include hP

/-- A slot that holds the key takes the new value. -/
theorem replace_rule {i : Nat} (hw : F.writeCombining = false → w = v) (hq : x.kv[i]? = some q)
    (hk : q.key = k) :
    (treeDisc E F M).Cmd t (.writeEntry a i (liveEntry x.ver ⟨k, w⟩))
      (Says t fun f => P f.view ∧ LeafReady E t f k v a x ∧ Owned t f.view { leaf := some a })
      fun _ => Says t fun f => (P f.view ∧ Wrote E.hash f k v) ∧
        LeafHeld E t f a (x.edit (x.kv.set i ⟨k, w⟩) x.fps (some t)) ∧
        Owned t f.view { leaf := some a } := by
  refine cmd_rule fun z _ m hi hz _ he => ?_
  obtain ⟨hz, hr, hown⟩ := hz
  obtain ⟨l, hl, hm⟩ := Option.map_eq_some_iff.mp he
  have hm : z.mem.setLeaf a { l with entries := l.entries.set i (liveEntry x.ver ⟨k, w⟩) } = m :=
    congrArg Prod.snd hm
  subst hm
  have hstep := hi.tree.replacePair hr.leaf hr.own hr.listed hr.fps hl hq
    (p := ⟨k, w⟩) hk ((lockClock z.log).cur t)
  have hlt : i < x.kv.length := (List.getElem?_eq_some_iff.mp hq).1
  have hfps : x.fps = (x.kv.set i ⟨k, w⟩).map fun p => calKeyFp E.hash p.key := by
    rw [map_fp_set hq hk]
    exact hr.fps
  refine ⟨_, stepOk_edit hi hr.writing.1 hr.leaf hr.still hstep rfl (fun _ _ => rfl) (fun u v => ?_)
    ?_ rfl (Or.inl rfl) (Or.inr ⟨⟨k, w⟩, rfl, rfl, hr.takesEffect hw⟩), ⟨hP _ _ hstep.2.le hz, ?_, ?_⟩,
    ⟨?_, rfl, hr.still, hfps⟩, hown.putLeaf (by simp)⟩
  · rw [putLeaf_holds_same hi.tree hr.leaf hr.own.symm]
    exact hi.held u v
  · exact (hown.leaf a).mpr rfl
  · refine ⟨lastCall_act.trans hr.writing.1, _, List.mem_append_right _ (List.mem_singleton_self _), ?_⟩
    exact (cur_act (l := z.log)).symm
  · refine hstep.1.stored_of_listed (a := a) (Function.update_self ..) hr.listed (i := i) ?_ ?_
    · change i < x.fps.length
      rw [hr.fps, List.length_map]
      exact hlt
    · change ((x.kv.set i ⟨k, w⟩)[i]?).map EntryPos.key = some k
      rw [List.getElem?_set_self hlt]
      rfl
  · exact Function.update_self ..

/-- The client has filled a slot of the leaf, and its fingerprint is not set yet. -/
structure LeafFilled (E : Env) (t : Tid) (f : Focus) (a : Gaddr) (x : LeafView) (p : EntryPos) :
    Prop where
  leaf : f.view.leaf a = some (x.edit (x.kv ++ [p]) x.fps (some t))
  listed : f.view.st a = .listed

omit hP in
theorem Enduring.leafFilled : Enduring E M t fun f => LeafFilled E t f a x p := by
  intro u f f' hu hi h
  obtain ⟨hx', hst, -⟩ := hi.rel.locked a _ t hu.symm h.leaf rfl
  exact ⟨hx', hst h.listed⟩

/-- The first free slot takes the pair. -/
theorem add_rule (hw : F.writeCombining = false → w = v) (hlt : x.kv.length < x.cap)
    (hnew : ∀ q ∈ x.kv, q.key ≠ k) :
    (treeDisc E F M).Cmd t (.writeEntry a x.kv.length (liveEntry x.ver ⟨k, w⟩))
      (Says t fun f => P f.view ∧ LeafReady E t f k v a x ∧ Owned t f.view { leaf := some a })
      fun _ => Says t fun f => P f.view ∧ Effected f k v ∧ LeafFilled E t f a x ⟨k, w⟩ ∧
        Owned t f.view { leaf := some a } := by
  refine cmd_rule fun z _ m hi hz _ he => ?_
  obtain ⟨hz, hr, hown⟩ := hz
  obtain ⟨l, hl, hm⟩ := Option.map_eq_some_iff.mp he
  have hm : z.mem.setLeaf a { l with
      entries := l.entries.set x.kv.length (liveEntry x.ver ⟨k, w⟩) } = m := congrArg Prod.snd hm
  subst hm
  have hstep := hi.tree.addPair hr.leaf hr.own hr.listed hr.fps hl hlt (p := ⟨k, w⟩) hnew hr.range
    ((lockClock z.log).cur t)
  refine ⟨_, stepOk_edit hi hr.writing.1 hr.leaf hr.still hstep rfl (fun _ _ => rfl) (fun u v => ?_)
    ((hown.leaf a).mpr rfl) rfl (Or.inl rfl) (Or.inr ⟨⟨k, w⟩, rfl, rfl, hr.takesEffect hw⟩),
    hP _ _ hstep.2.le hz, ?_, ⟨Function.update_self .., hr.listed⟩, hown.putLeaf (by simp)⟩
  · rw [putLeaf_holds_same hi.tree hr.leaf hr.own.symm]
    exact hi.held u v
  · refine ⟨lastCall_act.trans hr.writing.1, _, List.mem_append_right _ (List.mem_singleton_self _), ?_⟩
    exact (cur_act (l := z.log)).symm

/-- The table is written with the fingerprint of the new pair, which releases the lock. -/
theorem publish_rule {tab : FPTable} (hfps : x.fps = x.kv.map fun p => calKeyFp E.hash p.key)
    (ht : TableHolds E.hash x.cap x.tver (x.fps ++ [calKeyFp E.hash k]) tab)
    (hlock : tab.lock = false) :
    (treeDisc E F M).Cmd t (.writeTable x.tab tab)
      (Says t fun f => P f.view ∧ Effected f k v ∧ LeafFilled E t f a x ⟨k, w⟩ ∧
        Owned t f.view { leaf := some a })
      fun _ => Says t fun f => (P f.view ∧ Wrote E.hash f k v) ∧ Owned t f.view {} := by
  refine cmd_rule fun z _ m hi hz _ he => ?_
  obtain ⟨hz, heff, hx, hown⟩ := hz
  have hm : z.mem.setTable x.tab tab = m := congrArg Prod.snd (Option.some.inj he)
  subst hm
  have hstill : ∀ s, z.ghost.view.st a ≠ .moving s := by
    intro s hs
    have hst : z.ghost.view.st a = .listed := hx.listed
    rw [hst] at hs
    cases hs
  have hstep := hi.tree.publishPair hx.leaf rfl hx.listed (p := ⟨k, w⟩) rfl hfps ht hlock
  refine ⟨_, stepOk_edit hi heff.1 hx.leaf hstill hstep rfl (fun _ _ => rfl)
    (held_of hi (fun u => if_congr (and_iff_left hlock) rfl rfl)
      (fun v => putLeaf_holds hi.tree hx.leaf v) fun v u hu => putLeaf_holds_of_ne hx.leaf v u hu)
    ⟨hlock, Or.inl ⟨a, _, hx.leaf, rfl, rfl⟩⟩ rfl (Or.inl rfl) (Or.inl rfl),
    ⟨hP _ _ hstep.2.le hz, ?_, ?_⟩, hown.unlockLeaf rfl (Option.some_ne_none t).symm⟩
  · obtain ⟨hop, w', hw', hpos⟩ := heff
    exact ⟨lastCall_act.trans hop, w', hw', hpos.trans (cur_act (l := z.log)).symm⟩
  · refine hstep.1.stored_of_listed (a := a) (i := x.kv.length) (Function.update_self ..) hx.listed
      ?_ ?_
    · change x.kv.length < (x.fps ++ [calKeyFp E.hash k]).length
      simp [hfps]
    · change ((x.kv ++ [⟨k, w⟩])[x.kv.length]?).map EntryPos.key = some k
      simp

/-- `leaf_insert` in a free slot -/
theorem insertNew_outline {path : Record} {tab : FPTable} {i : Nat} (hfit : LeafFits path x)
    (hw : F.writeCombining = false → w = v) (hlt : x.kv.length < x.cap)
    (hnew : ∀ q ∈ x.kv, q.key ≠ k) (hfps : x.fps = x.kv.map fun p => calKeyFp E.hash p.key)
    (ht : TableHolds E.hash x.cap x.tver (x.fps ++ [calKeyFp E.hash k]) tab)
    (hi : i = x.kv.length) :
    Outline (treeDisc E F M) t (insertNew E F k path w i tab)
      (Says t fun f => P f.view ∧ LeafReady E t f k v path.addr x ∧
        Owned t f.view { leaf := some path.addr })
      fun _ => Says t fun f => (P f.view ∧ Wrote E.hash f k v) ∧ Owned t f.view {} := by
  refine Outline.bind (combine_outline ((Enduring.know hP).and (.and .leafReady .owned))
    (fun f hf => hf.2.1.writing.op_ne) k w) fun w' => ?_
  refine Outline.of_fact (φ := F.writeCombining = false → w' = w) (fun _ _ hx => hx.2) fun hw' => ?_
  subst hi
  rw [← hfit.ver, ← hfit.tab]
  refine Outline.cmd_bind False.elim
    (fun _ => ((Enduring.know hP).and (.and .effected (.and .leafFilled .owned))).stable)
    ((add_rule hP (fun hF => (hw' hF).trans (hw hF)) hlt hnew).imp (fun _ hx => hx.1)
      fun _ _ hx => hx) fun _ => ?_
  exact Outline.cmd False.elim (fun _ => (((Enduring.know hP).and .wrote).and .owned).stable)
    (publish_rule hP hfps (ht.lock false) rfl)

/-- What the loop over the slots leaves: the key was in one of them, and the lock is released, or it
is in none. -/
def Tried (E : Env) (F : Flags) (t : Tid) (f : Focus) (k : Key) (v : Value) (a : Gaddr)
    (x : LeafView) : Bool × Value → Prop
  | (true, _) => Wrote E.hash f k v ∧ Owned t f.view {}
  | (false, w) => (LeafReady E t f k v a x ∧ Owned t f.view { leaf := some a }) ∧
      (F.writeCombining = false → w = v) ∧ ∀ q ∈ x.kv, q.key ≠ k

omit hP in
/-- A slot of a locked leaf is read. -/
theorem readEntry_rule {φ : Focus → Prop} {i : Nat} (hop : ∀ f, φ f → f.op ≠ none)
    (hleaf : ∀ f, φ f → f.view.leaf a = some x) (hq : x.kv[i]? = some q) :
    (treeDisc E F M).Cmd t (.readEntry a i) (Says t φ) fun e =>
      Says t fun f => φ f ∧ e = liveEntry x.ver q := by
  refine read_rule (c := .readEntry a i) (ψ := fun e f => φ f ∧ e = liveEntry x.ver q) rfl hop
    fun z e hi hz he => ⟨hz, ?_⟩
  obtain ⟨l, hl, he⟩ := Option.bind_eq_some_iff.mp he
  obtain ⟨e', he', heq⟩ := Option.map_eq_some_iff.mp he
  have heq : e' = e := congrArg Prod.fst heq
  subst heq
  obtain ⟨l', tab, hs⟩ := hi.tree.leaves.stored a x (hleaf _ hz)
  rw [hs.leaf] at hl
  cases hl
  rw [hs.entries.getElem? hq] at he'
  exact (Option.some.inj he').symm

/-- The loop of `leaf_insert` over the slots; the slots that are left are those that may hold the
key. -/
theorem insertSlots_outline {path : Record} (hfit : LeafFits path x) (slots : List Nat) (w : Value)
    (hw : F.writeCombining = false → w = v) (hs : ∀ i ∈ slots, i < x.kv.length)
    (hc : ∀ (i : Nat) q, x.kv[i]? = some q → q.key = k → i ∈ slots) :
    Outline (treeDisc E F M) t (insertSlots E F k path slots w)
      (Says t fun f => P f.view ∧ LeafReady E t f k v path.addr x ∧
        Owned t f.view { leaf := some path.addr })
      fun y => Says t fun f => P f.view ∧ Tried E F t f k v path.addr x y := by
  have hφ : Enduring E M t fun f => P f.view ∧ LeafReady E t f k v path.addr x ∧
    Owned t f.view { leaf := some path.addr } := (Enduring.know hP).and (.and .leafReady .owned)
  have hop : ∀ f, (P f.view ∧ LeafReady E t f k v path.addr x ∧
    Owned t f.view { leaf := some path.addr }) → f.op ≠ none := fun f hf => hf.2.1.writing.op_ne
  induction slots generalizing w with
  | nil =>
    refine Outline.pure fun z _ hz => ⟨hz.1, hz.2, hw, fun q hq hk => ?_⟩
    obtain ⟨i, hi⟩ := List.mem_iff_getElem?.mp hq
    exact absurd (hc i q hi hk) List.not_mem_nil
  | cons i slots ih =>
    have hq : x.kv[i]? = some (x.kv.get ⟨i, hs i (List.mem_cons_self ..)⟩) :=
      List.getElem?_eq_getElem _
    generalize x.kv.get ⟨i, hs i (List.mem_cons_self ..)⟩ = q at hq
    refine Outline.cmd_bind False.elim (fun e => (hφ.and (.const (e = liveEntry x.ver q))).stable)
      (readEntry_rule hop (fun f hf => hf.2.1.leaf) hq) fun e => ?_
    refine Outline.of_fact (φ := e = liveEntry x.ver q) (fun _ _ hx => hx.2) fun he => ?_
    subst he
    refine Outline.assert_bind (fun _ _ _ hf => ?_) fun _ => ?_
    · simp [liveEntry, hfit.ver] at hf
    refine Outline.bind (combine_outline (hφ.and (.const _)) (fun f hf => hop f hf.1) k w)
      fun w' => ?_
    refine Outline.of_fact (φ := F.writeCombining = false → w' = w) (fun _ _ hx => hx.2) fun hw' => ?_
    have hw'' : F.writeCombining = false → w' = v := fun hF => (hw' hF).trans (hw hF)
    by_cases hk : q.key = k
    · have hins : (liveEntry x.ver q).insert k w' = some (liveEntry x.ver ⟨k, w'⟩) := by
        simp [Entry.insert, liveEntry, hk]
      simp only [hins]
      refine Outline.cmd_bind False.elim (R := fun _ => Says t fun f => (P f.view ∧
          Wrote E.hash f k v) ∧
          LeafHeld E t f path.addr (x.edit (x.kv.set i ⟨k, w'⟩) x.fps (some t)) ∧
          Owned t f.view { leaf := some path.addr })
        (fun _ => (((Enduring.know hP).and .wrote).and (.and .leafHeld .owned)).stable)
        ((replace_rule hP hw'' hq hk).imp (fun _ hx => hx.1.1) fun _ _ hx => hx) fun _ => ?_
      rw [← hfit.tab]
      refine Outline.cmd_bind False.elim (R := fun _ => Says t fun f => (P f.view ∧
          Wrote E.hash f k v) ∧ Owned t f.view {})
        (fun _ => (((Enduring.know hP).and .wrote).and .owned).stable)
        (unlockLeaf_rule (x := x.edit (x.kv.set i ⟨k, w'⟩) x.fps (some t))
          ((Abiding.know hP).and .wrote) fun f hf => hf.2.1.op_ne) fun _ => ?_
      exact Outline.pure fun _ _ hx => ⟨hx.1.1, hx.1.2, hx.2⟩
    · have hins : (liveEntry x.ver q).insert k w' = none := by
        simp [Entry.insert, liveEntry, hk]
      simp only [hins]
      refine (ih w' hw'' (fun j hj => hs j (List.mem_cons_of_mem _ hj)) fun j q' hq' hk' => ?_).mono
        fun _ _ hx => hx.1.1
      rcases List.mem_cons.mp (hc j q' hq' hk') with rfl | hj
      · rw [hq] at hq'
        cases hq'
        exact absurd hk' hk
      · exact hj

end Slots

/-! ## `leaf_resize` -/

theorem Tolerant.leafReady : Tolerant E fun f => LeafReady E t f k v a x := by
  intro f f' hn h
  refine ⟨⟨⟨hn.leaf ▸ h.leaf, h.own, hn.st ▸ h.still, h.fps⟩, Abiding.writing f f' hn.toNext h.writing,
    ?_⟩, hn.st ▸ h.listed, h.range⟩
  rw [hn.eff, hn.time, hn.pos]
  exact h.order

section Private

variable {ζ : Focus → Prop} (htol : Tolerant E ζ) (hop : ∀ f, ζ f → f.op ≠ none)
  {θ η : Cluster → Prop}
include htol hop

/-- A leaf is written at a private address. -/
theorem privLeaf_rule {l : Leaf} (hb : b ∈ o.priv) (hθ : ∀ m : Cluster, θ m → η (m.setLeaf b l)) :
    (treeDisc E F M).Cmd t (.writeLeaf b l) (Says t fun f => ζ f ∧ Owned t f.view o ∧ θ f.mem)
      fun _ => Says t fun f => ζ f ∧ Owned t f.view o ∧ η f.mem := by
  refine hidden_rule (fun _ => rfl) (fun _ h => by cases h) (fun _ _ => rfl)
    (fun f hf => hop f hf.1) fun z _ m hi hz he => ?_
  obtain ⟨hz, hown, hm⟩ := hz
  have he : z.mem.setLeaf b l = m := congrArg Prod.snd (Option.some.inj he)
  subst he
  have hmine : z.ghost.view.priv b = some t := (hown.priv b).mpr hb
  exact ⟨hi.tree.privLeaf hmine l, Or.inr hmine, fun _ => rfl, rfl, htol _ _ (.mem ..) hz, hown,
    hθ _ hm⟩

/-- A fingerprint table is written at a private address. -/
theorem privTable_rule {tab : FPTable} (hb : b ∈ o.priv) (hlock : tab.lock = false)
    (hθ : ∀ m : Cluster, θ m → η (m.setTable b tab)) :
    (treeDisc E F M).Cmd t (.writeTable b tab) (Says t fun f => ζ f ∧ Owned t f.view o ∧ θ f.mem)
      fun _ => Says t fun f => ζ f ∧ Owned t f.view o ∧ η f.mem := by
  refine hidden_rule (fun _ => rfl) (fun _ h => by cases h) (fun _ _ => rfl)
    (fun f hf => hop f hf.1) fun z _ m hi hz he => ?_
  obtain ⟨hz, hown, hm⟩ := hz
  have he : z.mem.setTable b tab = m := congrArg Prod.snd (Option.some.inj he)
  subst he
  have hmine : z.ghost.view.priv b = some t := (hown.priv b).mpr hb
  refine ⟨hi.tree.privTable hmine tab, ⟨hlock, Or.inr hmine⟩, fun w => ?_, rfl, htol _ _ (.mem ..) hz, hown,
    hθ _ hm⟩
  by_cases hw : LockWord.table b = w ∧ tab.lock = false
  · rw [← hw.1, (holder_priv hi hmine).2]
    exact if_pos ⟨rfl, hw.2⟩
  · exact if_neg hw

end Private

/-- What is stored at private addresses is not changed by others. -/
theorem Enduring.privLeaf {l : Option Leaf} (hb : b ∈ o.priv) :
    Enduring E M t fun f => Owned t f.view o ∧ f.mem.leaf b = l := by
  rintro u f f' hu hi ⟨hown, hl⟩
  refine ⟨hown.stable hi.rel hu.symm, ?_⟩
  rw [(hi.rel.mine b t hu.symm ((hown.priv b).mpr hb)).1]
  exact hl

theorem Enduring.privMem {s fs : Gaddr} {l : Option Leaf} {tab : Option FPTable} (hs : s ∈ o.priv)
    (hfs : fs ∈ o.priv) :
    Enduring E M t fun f => Owned t f.view o ∧ f.mem.leaf s = l ∧ f.mem.table fs = tab := by
  rintro u f f' hu hi ⟨hown, hl, ht⟩
  obtain ⟨hown', hl'⟩ := Enduring.privLeaf hs u f f' hu hi ⟨hown, hl⟩
  refine ⟨hown', hl', ?_⟩
  rw [(hi.rel.mine fs t hu.symm ((hown.priv fs).mpr hfs)).2.1]
  exact ht

/-- The client has rewritten the leaf `a`, and not yet its table; `r` is the record of the new leaf
`s`. -/
structure LeafMoving (t : Tid) (f : Focus) (k : Key) (a s : Gaddr) (x : LeafView) (r : Record) :
    Prop where
  leaf : f.view.leaf a = some x
  own : x.own = some t
  st : f.view.st a = .moving s
  half : KeyNull < x.min → x.min < x.max → (x.cap + 1) / 2 ≤ x.kv.length
  sibling : ∃ y, f.view.leaf s = some y ∧ r = y.record s ∧
    (k ∈ x.kv.map EntryPos.key ∨ k ∈ y.kv.map EntryPos.key)

/-- The new leaf of a split that is not published. -/
theorem TreeInv.sibling {s : Gaddr} (h : TreeInv E M m g) (hst : (g.st a).partner = some s)
    (hy : g.leaf s = some y) :
    g.st s = .fresh ∧ y.tver = 0 ∧ y.ver = 0 ∧ y.fps = y.kv.map fun p => calKeyFp E.hash p.key := by
  obtain ⟨_, y', _, hy', hp⟩ := h.levels.pair a s hst
  rw [hy] at hy'
  cases hy'
  have hok := h.leaves.ok s y hy
  rw [hp.fresh] at hok
  obtain ⟨hver, -, hfps⟩ := hok.rest fun _ h => by cases h
  refine ⟨hp.fresh, hp.tver, hver.trans hp.tver, ?_⟩
  rcases hfps with hfps | ⟨ho, -⟩
  · exact hfps
  · rw [hp.own] at ho
    cases ho

theorem Enduring.leafMoving {s : Gaddr} {r : Record} :
    Enduring E M t fun f => LeafMoving t f k a s x r := by
  intro u f f' hu hi h
  obtain ⟨m, -, hm⟩ := hi.inv
  obtain ⟨m', -, hm'⟩ := hi.inv'
  obtain ⟨hx', -, hst⟩ := hi.rel.locked a x t hu.symm h.leaf h.own
  obtain ⟨y, hy, hr, hk⟩ := h.sibling
  obtain ⟨y', hy', htab, hmin, hcap, -⟩ := hi.rel.le.leaf s y hy
  obtain ⟨-, ht, hv, -⟩ := hm.sibling (a := a) (by rw [h.st]; rfl) hy
  obtain ⟨-, ht', hv', -⟩ := hm'.sibling (a := a) (by rw [hst s h.st]; rfl) hy'
  refine ⟨hx', h.own, hst s h.st, h.half, y', hy', ?_, hk.imp_right fun hk => ?_⟩
  · rw [hr, LeafView.record, LeafView.record, htab, hmin, hcap, ht, ht']
  · rcases hi.rel.step s y y' hy hy' with ⟨-, -, hkeys⟩ | ⟨hlt, -⟩
    · obtain ⟨q, hq, rfl⟩ := List.mem_map.mp hk
      obtain ⟨i, hi⟩ := List.mem_iff_getElem?.mp hq
      obtain ⟨q', hq', hk'⟩ := Option.map_eq_some_iff.mp (hkeys i q.key (by rw [hi]; rfl))
      exact List.mem_map.mpr ⟨q', List.mem_of_getElem? hq', hk'⟩
    · omega

/-- The locks after the first write of a split. -/
theorem link_holds {s fs : Gaddr} {l : Leaf} {rz : Resized} {cap' c : Nat} (h : TreeInv E M m g)
    (hr : SplitReady E t m g a s fs x l p q cap' rz) (u : Tid) (w : LockWord) :
    (g.linkLeaf E.hash a s fs x p q cap' c).Holds u w ↔ g.Holds u w := by
  cases w with
  | table d =>
    constructor
    · rintro ⟨b, y, hy, htab, hown⟩
      rcases link_leaf hy with ⟨rfl, rfl⟩ | ⟨rfl, -, rfl⟩ | ⟨-, -, hy⟩
      · cases hown
      · exact ⟨b, x, hr.leaf, htab, hown⟩
      · exact ⟨b, y, hy, htab, hown⟩
    · rintro ⟨b, y, hy, htab, hown⟩
      obtain ⟨y', hy', ht, -, -, -, -, ho, -⟩ := SplitReady.link_kept h hr (c := c) hy
      exact ⟨b, y', hy', ht.trans htab, ho.trans hown⟩
  | node d => exact Iff.rfl
  | root => exact Iff.rfl

/-- What the client holds after it. -/
theorem Owned.link {H : Hashes} {s fs : Gaddr} {cap' c : Nat} (hg : g.leaf s = none)
    (hx : g.leaf a = some x) (hown : x.own = some t)
    (h : Owned t g { leaf := some a, priv := [fs, s] }) :
    Owned t (g.linkLeaf H a s fs x p q cap' c) { leaf := some a } := by
  have hsa : s ≠ a := by
    rintro rfl
    rw [hg] at hx
    cases hx
  refine { h with leaf := fun d => ?_, opened := fun d e => ?_, priv := fun d => ?_ }
  · by_cases hds : d = s
    · subst hds
      simp [TreeView.lown, TreeView.linkLeaf, LeafView.upper, hsa.symm]
    · by_cases hda : d = a
      · subst hda
        simp [TreeView.lown, TreeView.linkLeaf, LeafView.lower, Function.update_of_ne hsa.symm, hown]
      · have hold := h.leaf d
        simp only [TreeView.lown] at hold
        simpa [TreeView.lown, TreeView.linkLeaf, Function.update_of_ne hds,
          Function.update_of_ne hda] using hold
  · by_cases hda : d = a
    · subst hda
      simp [TreeView.linkLeaf]
    · have hold := h.opened d e
      simpa [TreeView.linkLeaf, Function.update_of_ne hda] using hold
  · by_cases hdf : d = fs
    · subst hdf
      simp [TreeView.linkLeaf]
    · by_cases hds : d = s
      · subst hds
        simp [TreeView.linkLeaf, Function.update_of_ne hdf]
      · have hold := h.priv d
        simpa [TreeView.linkLeaf, Function.update_of_ne hdf, Function.update_of_ne hds, hdf, hds]
          using hold

/-- The locks after the second write. -/
theorem publish_holds {H : Hashes} {s : Gaddr} (h : TreeInv E M m g) (hx : g.leaf a = some x)
    (u : Tid) : (g.publishSplit H t a s x).Holds u (.table x.tab) ↔ none = some u := by
  refine ⟨?_, fun h => by cases h⟩
  rintro ⟨b, y, hy, htab, hown⟩
  rcases publish_leaf hy with ⟨rfl, rfl⟩ | ⟨hb, hy⟩
  · exact hown
  · exact absurd (h.leaves.tab_inj b a y x hy hx htab) hb

theorem publish_holds_of_ne {H : Hashes} {s : Gaddr} (hx : g.leaf a = some x) (u : Tid)
    (w : LockWord) (hw : w ≠ .table x.tab) :
    (g.publishSplit H t a s x).Holds u w ↔ g.Holds u w := by
  cases w with
  | table d =>
    constructor
    · rintro ⟨b, y, hy, htab, hown⟩
      rcases publish_leaf hy with ⟨rfl, rfl⟩ | ⟨hb, hy⟩
      · exact absurd (congrArg LockWord.table htab.symm) hw
      · exact ⟨b, y, hy, htab, hown⟩
    · rintro ⟨b, y, hy, htab, hown⟩
      have hb : b ≠ a := by
        rintro rfl
        rw [hx] at hy
        cases hy
        exact hw (congrArg LockWord.table htab.symm)
      exact ⟨b, y, (Function.update_of_ne hb ..).trans hy, htab, hown⟩
  | node d => exact Iff.rfl
  | root => exact Iff.rfl

/-- What the client holds after it. -/
theorem Owned.publish {H : Hashes} {s : Gaddr} (h : Owned t g { leaf := some a }) :
    Owned t (g.publishSplit H t a s x) { opened := some (a, s) } := by
  refine { h with leaf := fun d => ?_, opened := fun d e => ?_ }
  · by_cases hd : d = a
    · subst hd
      simp [TreeView.lown, TreeView.publishSplit, LeafView.publish]
    · have hold := h.leaf d
      simp only [TreeView.lown] at hold
      simpa [TreeView.lown, TreeView.publishSplit, Function.update_of_ne hd, Ne.symm hd] using hold
  · by_cases hd : d = a
    · subst hd
      simp [TreeView.publishSplit]
    · have hold := h.opened d e
      simpa [TreeView.publishSplit, Function.update_of_ne hd, Ne.symm hd] using hold

/-- The pairs of the two leaves of a split that is published are found. -/
theorem TreeInv.stored_of_opened {s : Gaddr} (h : TreeInv E M m g) (hst : g.st a = .opened t s)
    (hb : b = a ∨ b = s) (hx : g.leaf b = some x)
    (hfps : x.fps = x.kv.map fun p => calKeyFp E.hash p.key) (hk : k ∈ x.kv.map EntryPos.key) :
    g.Stored E.hash k := by
  obtain ⟨q, hq, rfl⟩ := List.mem_map.mp hk
  obtain ⟨i, hi, hslot⟩ := exists_slot hq (n := x.fps.length) (by rw [hfps, List.length_map])
  have hpart : (g.st a).partner = some s := by rw [hst]; rfl
  refine ⟨b, x, i, hx, hi, hslot, fun d y e _ hs hor => ?_⟩
  have hpart' : (g.st d).partner = some e := by rw [hs]; rfl
  have hda : d ≠ a := by
    rintro rfl
    rw [hst] at hs
    cases hs
  obtain ⟨_, _, _, _, hp⟩ := h.levels.pair a s hpart
  obtain ⟨_, _, _, _, hp'⟩ := h.levels.pair d e hpart'
  rcases hb with rfl | rfl
  · rcases hor with rfl | rfl
    · exact absurd rfl hda
    · have hfresh := hp'.fresh
      rw [hst] at hfresh
      cases hfresh
  · rcases hor with rfl | rfl
    · have hfresh := hp.fresh
      rw [hs] at hfresh
      cases hfresh
    · exact absurd (h.levels.partner_inj d a b hpart' hpart) hda

section Resize

variable {P : TreeView → Prop} (hP : ∀ g g' : TreeView, g.Le g' → P g → P g') {w : Value}
  {s fs : Gaddr} {l : Leaf} {rz : Resized} {cap' : Nat}
include hP

/-- The leaf is rewritten: the write takes effect. -/
theorem link_rule (hw : F.writeCombining = false → w = v) (hnew : ∀ q ∈ x.kv, q.key ≠ k)
    (hfull : x.kv.length = x.cap) (hcap : x.cap ≤ cap' ∧ cap' ≤ maxNodeCapacity ∧ cap' ≤ 2 * x.cap)
    (hrz : ResizedAs E.hash l ⟨k, w⟩ x.kv x.cap cap' s fs q rz) (hne : s ≠ fs) :
    (treeDisc E F M).Cmd t (.writeLeaf a rz.current)
      (Says t fun f => ((P f.view ∧ HdrHolds f.view x l.hdr) ∧ LeafReady E t f k v a x) ∧
        Owned t f.view { leaf := some a, priv := [fs, s] } ∧ f.mem.leaf s = some rz.sibling ∧
        f.mem.table fs = some rz.siblingTable)
      fun _ => Says t fun f => P f.view ∧ Effected f k v ∧
        LeafMoving t f k a s (x.lower ⟨k, w⟩ q cap' s) (.make q.key s fs cap' 0) ∧
        Owned t f.view { leaf := some a } := by
  refine cmd_rule fun z _ m hi hz _ he => ?_
  obtain ⟨⟨⟨hz, hh⟩, hr⟩, hown, hl, ht⟩ := hz
  have hm : z.mem.setLeaf a rz.current = m := congrArg Prod.snd (Option.some.inj he)
  subst hm
  have hsr : SplitReady E t z.mem z.ghost.view a s fs x l ⟨k, w⟩ q cap' rz :=
    { leaf := hr.leaf, own := hr.own, st := hr.listed, rest := hr.fps, full := hfull, image := hh
      new := hnew, range := hr.range, cap_le := hcap, resized := hrz, ne := hne
      priv := ⟨(hown.priv s).mpr (by simp), (hown.priv fs).mpr (by simp)⟩
      tok := fun h => by cases hown.tok.mp h
      sibling := hl, siblingTable := ht }
  have hstep := SplitReady.link hi.tree hsr ((lockClock z.log).cur t)
  have hmem := (mem_lower_upper x ⟨k, w⟩ cap' ⟨k, w⟩).mpr (Or.inl rfl)
  refine ⟨_, ?_, hP _ _ hstep.2.le hz, ?_, ?_, Owned.link (SplitReady.leaf_none hi.tree hsr) hr.leaf
    hr.own hown⟩
  · exact {
      tid := rfl
      step := hstep
      snap := fun u d n he => by cases he
      moving := by
        intro d y e hy he
        rcases SplitReady.link_moving hi.tree hsr hy he with ⟨rfl, -, -⟩ | ⟨-, -, -, hy, he⟩
        · exact Or.inl (by simp [isRewrite])
        · exact Or.inr ⟨y, hy, rfl, he, rfl⟩
      held := fun u v => (hi.held u v).trans (link_holds hi.tree hsr v u).symm
      law := by
        intro c r he
        cases he
        exact ⟨⟨_, hr.writing.1⟩, Or.inl ((hown.leaf a).mpr rfl)⟩
      quiet := fun hq => by cases hq _ _ rfl
      copies := fun _ _ _ => Or.inl
      locks := fun _ _ => rfl
      fresh := fun d he => by cases he
      eff := Or.inr ⟨⟨k, w⟩, rfl, rfl, hr.takesEffect hw⟩
      done := fun op he => by cases he
      answer := fun op r he => by cases he }
  · refine ⟨lastCall_act.trans hr.writing.1, _, List.mem_append_right _ (List.mem_singleton_self _), ?_⟩
    exact (cur_act (l := z.log)).symm
  · refine ⟨?_, hr.own, link_st_self, fun h1 h2 => ?_, x.upper E.hash ⟨k, w⟩ q cap' fs, ?_, rfl, ?_⟩
    · change (Function.update (Function.update z.ghost.view.leaf a _) s _) a = _
      rw [Function.update_of_ne (SplitReady.ne_leaf hi.tree hsr).symm, Function.update_self]
    · exact (SplitReady.lower_first hi.tree hsr h1 h2).2
    · exact Function.update_self ..
    · exact hmem.imp (fun h => List.mem_map_of_mem h) fun h => List.mem_map_of_mem h

/-- The table of the leaf is rewritten, which releases the lock: the new leaf is due to be entered. -/
theorem publishSplit_rule {r : Record} {tab : FPTable}
    (ht : TableHolds E.hash x.cap x.ver (x.kv.map fun p => calKeyFp E.hash p.key) tab)
    (hlock : tab.lock = false) :
    (treeDisc E F M).Cmd t (.writeTable x.tab tab)
      (Says t fun f => P f.view ∧ Effected f k v ∧ LeafMoving t f k a s x r ∧
        Owned t f.view { leaf := some a })
      fun _ => Says t fun f => (P f.view ∧ Wrote E.hash f k v) ∧
        Due t f.view (.make x.min a x.tab x.cap x.ver) r true 0 ∧
        Owned t f.view { opened := some (a, s) } := by
  refine cmd_rule fun z _ m hi hz _ he => ?_
  obtain ⟨hz, heff, hx, hown⟩ := hz
  have hm : z.mem.setTable x.tab tab = m := congrArg Prod.snd (Option.some.inj he)
  subst hm
  have hstep := TreeInv.publishSplit hi.tree hx.leaf hx.st hx.own hx.half ht hlock
  obtain ⟨y, hy, hr, hk⟩ := hx.sibling
  have hpart : (z.ghost.view.st a).partner = some s := congrArg Status.partner hx.st
  obtain ⟨hfresh, -, -, hfps⟩ := hi.tree.sibling hpart hy
  have hsa : s ≠ a := by
    rintro rfl
    have hst : z.ghost.view.st s = .moving s := hx.st
    rw [hst] at hfresh
    cases hfresh
  have hst : (z.ghost.view.publishSplit E.hash t a s x).st a = .opened t s := publish_st_self
  have ha : (z.ghost.view.publishSplit E.hash t a s x).leaf a = some (x.publish E.hash) :=
    Function.update_self ..
  have hs : (z.ghost.view.publishSplit E.hash t a s x).leaf s = some y :=
    (Function.update_of_ne hsa ..).trans hy
  refine ⟨z.ghost.view.publishSplit E.hash t a s x, ?_, ⟨hP _ _ hstep.2.le hz, ?_, ?_⟩,
    ⟨rfl, a, s, _, y, hst, ha, hs, rfl, hr⟩, ?_⟩
  · exact {
      tid := rfl
      step := hstep
      snap := fun u d n he => by cases he
      moving := by
        intro d w e hw he
        rcases publish_leaf hw with ⟨rfl, rfl⟩ | ⟨hd, hw⟩
        · rw [hst] at he
          cases he
        · rw [publish_st_ne hd] at he
          exact Or.inr ⟨w, hw, rfl, he, rfl⟩
      held := held_of hi (fun u => if_congr (and_iff_left hlock) rfl rfl)
        (fun v => publish_holds hi.tree hx.leaf v) fun v u hu => publish_holds_of_ne hx.leaf v u hu
      law := by
        intro c r he
        cases he
        exact ⟨⟨_, heff.1⟩, hlock, Or.inl ⟨a, x, hx.leaf, rfl, hx.own⟩⟩
      quiet := fun hq => by cases hq _ _ rfl
      copies := fun _ _ _ => Or.inl
      locks := fun _ _ => rfl
      fresh := fun d he => by cases he
      eff := Or.inl rfl
      done := fun op he => by cases he
      answer := fun op r he => by cases he }
  · obtain ⟨hop, w', hw', hpos⟩ := heff
    exact ⟨lastCall_act.trans hop, w', hw', hpos.trans (cur_act (l := z.log)).symm⟩
  · rcases hk with hk | hk
    · exact hstep.1.stored_of_opened hst (Or.inl rfl) ha rfl hk
    · exact hstep.1.stored_of_opened hst (Or.inr rfl) hs hfps hk
  · exact hown.publish

omit hP in
/-- A leaf is read under its lock. -/
theorem readLeaf_rule {φ : Focus → Prop} {n : Nat} (hop : ∀ f, φ f → f.op ≠ none)
    (hleaf : ∀ f, φ f → f.view.leaf a = some x) (hn : n = x.cap) :
    (treeDisc E F M).Cmd t (.readLeaf a n) (Says t φ) fun l : Leaf =>
      Says t fun f => (φ f ∧ HdrHolds f.view x l.hdr) ∧ EntriesHold x.cap x.ver x.kv l.entries := by
  refine read_rule (c := .readLeaf a n) (ψ := fun (l : Leaf) f => (φ f ∧ HdrHolds f.view x l.hdr) ∧
    EntriesHold x.cap x.ver x.kv l.entries) rfl hop fun z l hi hz he => ?_
  obtain ⟨l', hl', heq⟩ := Option.map_eq_some_iff.mp he
  obtain ⟨l'', tab, hs⟩ := hi.tree.leaves.stored a x (hleaf _ hz)
  rw [hs.leaf] at hl'
  cases hl'
  have heq : { l' with entries := l'.entries.take n } = l := congrArg Prod.fst heq
  rw [List.take_of_length_le (hs.entries.length.trans hn.symm).le] at heq
  subst heq
  exact ⟨⟨hz, hs.hdr⟩, hs.entries⟩

omit hP in
/-- The capacity of the new leaf. -/
theorem adaptCapacity_rule {φ : Focus → Prop} {n : Nat} (hop : ∀ f, φ f → f.op ≠ none)
    (hn : n ≤ maxNodeCapacity) :
    (treeDisc E F M).Cmd t (.adaptCapacity n) (Says t φ) fun n' : Nat =>
      Says t fun f => φ f ∧ n ≤ n' ∧ n' ≤ maxNodeCapacity ∧ n' ≤ 2 * n := by
  refine side_rule (c := .adaptCapacity n) (ψ := fun (n' : Nat) f => φ f ∧ n ≤ n' ∧
    n' ≤ maxNodeCapacity ∧ n' ≤ 2 * n) rfl (fun _ h => by cases h) (fun _ => trivial) hop
    fun z n' m hi hz _ he => ?_
  have hn' : adaptCapacity (E.grow z.mem.adapts) n = n' := congrArg Prod.fst (Option.some.inj he)
  have hm : { z.mem with adapts := z.mem.adapts + 1 } = m := congrArg Prod.snd (Option.some.inj he)
  subst hn' hm
  have hstep : TreeStep E M t z.mem z.ghost.view { z.mem with adapts := z.mem.adapts + 1 }
      z.ghost.view := by
    refine hi.tree.side ?_ ?_ ?_ ?_ ?_ ?_ (hi.tree.cache.mono (.refl _) ?_) t <;> rfl
  refine ⟨rfl, hstep, fun _ _ => rfl, fun _ _ _ => Or.inl, hz, adaptCapacity_ge _ hn, ?_⟩
  unfold adaptCapacity
  split <;> omega

/-- The writes of `leaf_resize` -/
theorem writeResized_outline {path : Record} (hfit : LeafFits path x)
    (hw : F.writeCombining = false → w = v) (hnew : ∀ q ∈ x.kv, q.key ≠ k)
    (hfull : x.kv.length = x.cap) (hcap : x.cap ≤ cap' ∧ cap' ≤ maxNodeCapacity ∧ cap' ≤ 2 * x.cap)
    (hrz : ResizedAs E.hash l ⟨k, w⟩ x.kv x.cap cap' s fs q rz) (hver : l.hdr.version = x.ver)
    (hne : s ≠ fs) :
    Outline (treeDisc E F M) t (writeResized path.addr path.fpAddr s fs rz)
      (Says t fun f => ((P f.view ∧ HdrHolds f.view x l.hdr) ∧ LeafReady E t f k v path.addr x) ∧
        Owned t f.view { leaf := some path.addr, priv := [fs, s] })
      fun _ => Says t fun f => (P f.view ∧ Wrote E.hash f k v) ∧
        Due t f.view (.make x.min path.addr x.tab x.cap (x.ver + 1)) (.make q.key s fs cap' 0) true 0 ∧
        Owned t f.view { opened := some (path.addr, s) } := by
  have hQ : ∀ g g' : TreeView, g.Le g' → (P g ∧ HdrHolds g x l.hdr) → P g' ∧ HdrHolds g' x l.hdr :=
    fun g g' hle h => ⟨hP g g' hle h.1, h.2.mono hle⟩
  have hζ : Enduring E M t fun f => (P f.view ∧ HdrHolds f.view x l.hdr) ∧
      LeafReady E t f k v path.addr x := (Enduring.know hQ).and .leafReady
  have htol : Tolerant E fun f => (P f.view ∧ HdrHolds f.view x l.hdr) ∧
      LeafReady E t f k v path.addr x := (Abiding.know hQ).tolerant.and .leafReady
  refine Outline.cmd_bind False.elim (R := fun _ => Says t fun f => ((P f.view ∧
      HdrHolds f.view x l.hdr) ∧ LeafReady E t f k v path.addr x) ∧
      Owned t f.view { leaf := some path.addr, priv := [fs, s] } ∧ f.mem.leaf s = some rz.sibling)
    (fun _ => (hζ.and (.privLeaf (by simp))).stable)
    ((privLeaf_rule (θ := fun _ => True) (η := fun m => m.leaf s = some rz.sibling) htol
      (fun f hf => hf.2.writing.op_ne) (by simp) fun m _ => Function.update_self ..).imp
      (fun _ hx => ⟨hx.1, hx.2, trivial⟩) fun _ _ hx => hx) fun _ => ?_
  refine Outline.cmd_bind False.elim (R := fun _ => Says t fun f => ((P f.view ∧
      HdrHolds f.view x l.hdr) ∧ LeafReady E t f k v path.addr x) ∧
      Owned t f.view { leaf := some path.addr, priv := [fs, s] } ∧ f.mem.leaf s = some rz.sibling ∧
        f.mem.table fs = some rz.siblingTable)
    (fun _ => (hζ.and (.privMem (by simp) (by simp))).stable)
    (privTable_rule (θ := fun m => m.leaf s = some rz.sibling)
      (η := fun m => m.leaf s = some rz.sibling ∧ m.table fs = some rz.siblingTable) htol
      (fun f hf => hf.2.writing.op_ne) (by simp) hrz.siblingLock
      fun m hm => ⟨hm, Function.update_self ..⟩) fun _ => ?_
  refine Outline.cmd_bind False.elim
    (fun _ => ((Enduring.know hP).and (.and .effected (.and .leafMoving .owned))).stable)
    (link_rule hP hw hnew hfull hcap hrz hne) fun _ => ?_
  have hcur := hrz.currentTable
  rw [hver] at hcur
  rw [← hfit.tab]
  exact Outline.cmd False.elim (fun _ => (((Enduring.know hP).and .wrote).and
    (.and (.due _ _ _ _) .owned)).stable) (publishSplit_rule hP (x := x.lower ⟨k, w⟩ q cap' s) hcur
      hrz.currentLock)

/-- `leaf_resize` up to `inner_insert` -/
theorem splitLeaf_outline {path : Record} (hfit : LeafFits path x)
    (hw : F.writeCombining = false → w = v) (hnew : ∀ q ∈ x.kv, q.key ≠ k)
    (hfull : x.kv.length = x.cap) :
    Outline (treeDisc E F M) t (splitLeaf E F k path w)
      (Says t fun f => P f.view ∧ LeafReady E t f k v path.addr x ∧
        Owned t f.view { leaf := some path.addr })
      fun r => Says t fun f => (P f.view ∧ Wrote E.hash f k v) ∧ Due t f.view r.2 r.1 true 0 ∧
        ∃ s, Owned t f.view { opened := some (path.addr, s) } := by
  have hφ : Enduring E M t fun f => P f.view ∧ LeafReady E t f k v path.addr x ∧
    Owned t f.view { leaf := some path.addr } := (Enduring.know hP).and (.and .leafReady .owned)
  refine Outline.of_fact (φ := 0 < x.cap ∧ x.cap ≤ maxNodeCapacity) (fun z hi hz => ?_) fun hcap => ?_
  · have hok := hi.tree.leaves.ok _ x hz.2.1.leaf
    exact ⟨hok.cap_pos, hok.cap_le⟩
  refine Outline.bind (combine_outline hφ (fun f hf => hf.2.1.writing.op_ne) k w) fun w' => ?_
  refine Outline.of_fact (φ := F.writeCombining = false → w' = w) (fun _ _ hx => hx.2) fun hw' => ?_
  have hhdr : ∀ l : Leaf, Enduring E M t fun f => ((P f.view ∧ LeafReady E t f k v path.addr x ∧
      Owned t f.view { leaf := some path.addr }) ∧ HdrHolds f.view x l.hdr) ∧
        EntriesHold x.cap x.ver x.kv l.entries :=
    fun l => (hφ.and (.know fun _ _ hle h => HdrHolds.mono h hle)).and (.const _)
  refine Outline.cmd_bind False.elim (fun l => (hhdr l).stable) ((readLeaf_rule
    (φ := fun f => P f.view ∧ LeafReady E t f k v path.addr x ∧
      Owned t f.view { leaf := some path.addr }) (fun f hf => hf.2.1.writing.op_ne)
    (fun f hf => hf.2.1.leaf) hfit.cap.symm).imp (fun _ hx => hx.1) fun _ _ hx => hx) fun l => ?_
  refine Outline.of_fact (φ := l.hdr.version = x.ver ∧ l.hdr.minKey = x.min ∧
    EntriesHold x.cap x.ver x.kv l.entries) (fun _ _ hx => ⟨hx.1.2.ver, hx.1.2.min, hx.2⟩) fun hl => ?_
  obtain ⟨hver, hmin, hent⟩ := hl
  refine Outline.cmd_bind False.elim (R := fun n : Nat => Says t fun f => (((P f.view ∧
      LeafReady E t f k v path.addr x ∧ Owned t f.view { leaf := some path.addr }) ∧
        HdrHolds f.view x l.hdr) ∧ EntriesHold x.cap x.ver x.kv l.entries) ∧
        path.capacity ≤ n ∧ n ≤ maxNodeCapacity ∧ n ≤ 2 * path.capacity)
    (fun n => ((hhdr l).and (.const _)).stable)
    (adaptCapacity_rule (fun f hf => hf.1.1.2.1.writing.op_ne) (hfit.cap ▸ hcap.2)) fun n => ?_
  refine Outline.of_fact (φ := path.capacity ≤ n ∧ n ≤ maxNodeCapacity ∧ n ≤ 2 * path.capacity)
    (fun _ _ hx => hx.2) fun hn => ?_
  rw [← hfit.cap] at hn ⊢
  have hζ : Enduring E M t fun f => (P f.view ∧ HdrHolds f.view x l.hdr) ∧
      LeafReady E t f k v path.addr x :=
    ((Enduring.know hP).and (.know fun _ _ hle h => HdrHolds.mono h hle)).and .leafReady
  have htol : Tolerant E fun f => (P f.view ∧ HdrHolds f.view x l.hdr) ∧
      LeafReady E t f k v path.addr x :=
    ((Abiding.know hP).and (.know fun _ _ hle h => HdrHolds.mono h hle)).tolerant.and .leafReady
  refine Outline.cmd_bind False.elim (R := fun s => Says t fun f => ((P f.view ∧
      HdrHolds f.view x l.hdr) ∧ LeafReady E t f k v path.addr x) ∧
        Owned t f.view { leaf := some path.addr, priv := [s] }) (fun s => (hζ.and .owned).stable)
    ((alloc_rule (o := { leaf := some path.addr }) htol (fun f hf => hf.2.writing.op_ne)
      fun _ => True).imp (fun _ hx => ?_) fun _ _ hx => ⟨hx.1, hx.2.1⟩) fun s => ?_
  · obtain ⟨⟨⟨⟨hz, hr, hown⟩, hh⟩, -⟩, -⟩ := hx
    exact ⟨⟨⟨hz, hh⟩, hr⟩, hown, trivial⟩
  refine Outline.cmd_bind False.elim (R := fun fs => Says t fun f => (((P f.view ∧
      HdrHolds f.view x l.hdr) ∧ LeafReady E t f k v path.addr x) ∧
        Owned t f.view { leaf := some path.addr, priv := [fs, s] }) ∧ s ≠ fs)
    (fun fs => ((hζ.and .owned).and (.const _)).stable)
    ((alloc_rule (o := { leaf := some path.addr, priv := [s] }) htol
      (fun f hf => hf.2.writing.op_ne) fun _ => True).imp (fun _ hx => ⟨hx.1, hx.2, trivial⟩)
      fun fs _ hx => ⟨⟨hx.1, hx.2.1⟩, fun h => hx.2.2.2 (by simp [h])⟩) fun fs => ?_
  refine Outline.of_fact (φ := s ≠ fs) (fun _ _ hx => hx.2) fun hne => ?_
  have hent' : EntriesHold x.cap l.hdr.version x.kv l.entries := by rwa [hver]
  obtain ⟨rz, q, hrz, hspec⟩ : ∃ rz q, resizeLeaf E.hash l ⟨k, w'⟩ x.cap n s fs = some rz ∧
      ResizedAs E.hash l ⟨k, w'⟩ x.kv x.cap n s fs q rz :=
    resizeLeaf_spec hcap.1 hent' hfull hn.1
  simp only [hrz]
  refine Outline.bind ((writeResized_outline hP hfit (fun hF => (hw' hF).trans (hw hF)) hnew hfull hn
    hspec hver hne).mono fun _ _ hx => hx.1) fun _ => Outline.pure fun z _ hz => ?_
  obtain ⟨hz, hdue, hown⟩ := hz
  refine ⟨hz, ?_, s, hown⟩
  rw [hspec.sibling_hdr, hspec.current_hdr, ← hfit.tab]
  simp only [hmin, hver]
  exact hdue

end Resize

/-! ## The calls -/

section Calls

variable (hk : M.bounded → k < KeyMax) {w : Value} {y : LeafPath} {tab : FPTable}

include hk in
theorem leafResize_outline (hfit : LeafFits y.path x) (hw : F.writeCombining = false → w = v)
    (hnew : ∀ q ∈ x.kv, q.key ≠ k) (hfull : x.kv.length = x.cap) :
    Outline (treeDisc E F M) t (leafResize E F k y w)
      (Says t fun f => LeafKnown M f.view k y ∧ LeafReady E t f k v y.path.addr x ∧
        Owned t f.view { leaf := some y.path.addr })
      fun it => Says t fun f => Wrote E.hash f k v ∧ Owned t f.view {} ∧ RootKnown f.view it := by
  refine Outline.bind (splitLeaf_outline (P := fun g => LeafKnown M g k y)
    (fun _ _ hle h => h.mono hle) hfit hw hnew hfull) fun r => ?_
  refine Outline.mono (R := fun z => ∃ s, Says t (fun f => Wrote E.hash f k v ∧
      (RootKnown f.view y.it ∧ y.it.path.tail ≠ [] ∧ PathAt f.view 0 y.it.path.tail) ∧
      Due t f.view r.2 r.1 true 0 ∧ Owned t f.view { opened := some (y.path.addr, s) }) z)
    (Outline.of_exists fun s => ?_) fun z _ hz => ?_
  · exact innerInsert_outline .wrote .wrote (fun f hf => hf.1.op_ne) hk y.fromCache y.it rfl
  · obtain ⟨⟨hknown, hwrote⟩, hdue, s, hown⟩ := hz
    obtain ⟨r', rest, hpath, hne, hrest⟩ := hknown.loc.path
    refine ⟨s, hwrote, ⟨hknown.loc.root, ?_, ?_⟩, hdue, hown⟩
    · rwa [hpath]
    · rwa [hpath]

include hk in
theorem insertLocked_outline (hfit : LeafFits y.path x)
    (ht : TableHolds E.hash x.cap x.tver x.fps tab)
    (hfps : x.fps = x.kv.map fun p => calKeyFp E.hash p.key) (hlen : x.kv.length ≤ x.cap) :
    Outline (treeDisc E F M) t (insertLocked E F k v y tab)
      (Says t fun f => LeafKnown M f.view k y ∧ LeafReady E t f k v y.path.addr x ∧
        Owned t f.view { leaf := some y.path.addr })
      fun it => Says t fun f => Wrote E.hash f k v ∧ Owned t f.view {} ∧ RootKnown f.view it := by
  have hP : ∀ g g' : TreeView, g.Le g' → LeafKnown M g k y → LeafKnown M g' k y :=
    fun _ _ hle h => h.mono hle
  have hmem : ∀ i : Nat, i ∈ matching tab (calKeyFp E.hash k) y.path.capacity ↔
      x.fps[i]? = some (calKeyFp E.hash k) := fun i => by
    rw [← hfit.cap]
    exact ht.mem_matching (calKeyFp_ne_zero k)
  refine Outline.bind (insertSlots_outline hP hfit _ v (fun _ => rfl) (fun i hi => ?_)
    fun i q hq hqk => ?_) fun s => ?_
  · have hlt := (List.getElem?_eq_some_iff.mp ((hmem i).mp hi)).1
    rwa [hfps, List.length_map] at hlt
  · rw [hmem, hfps, List.getElem?_map, hq, Option.map_some, hqk]
  obtain ⟨found, w⟩ := s
  cases found with
  | true => exact Outline.pure fun z _ hz => ⟨hz.2.1, hz.2.2, hz.1.loc.root⟩
  | false =>
    refine Outline.ite (fun h => absurd h Bool.false_ne_true) fun _ => ?_
    refine Outline.of_fact (φ := (F.writeCombining = false → w = v) ∧ ∀ q ∈ x.kv, q.key ≠ k)
      (fun _ _ hz => hz.2.2) fun hfacts => ?_
    obtain ⟨hw, hnew⟩ := hfacts
    have hfl : x.fps.length = x.kv.length := by rw [hfps, List.length_map]
    rcases hlen.lt_or_eq with hlt | hfull
    · obtain ⟨tab', hins, ht', -⟩ := ht.insert_eq (f := calKeyFp E.hash k) (hfl ▸ hlt)
        (calKeyFp_ne_zero k)
      simp only [hins]
      refine Outline.bind ((insertNew_outline hP hfit hw hlt hnew hfps ht' hfl).mono
        fun _ _ hz => ⟨hz.1, hz.2.1⟩) fun _ => ?_
      exact Outline.pure fun z _ hz => ⟨hz.1.2, hz.2, hz.1.1.loc.root⟩
    · have hins := ht.insert_full (f := calKeyFp E.hash k) (hfl.trans hfull)
      simp only [hins]
      exact (leafResize_outline hk hfit hw hnew hfull).mono fun _ _ hz => ⟨hz.1, hz.2.1⟩

/-- The leaf of the key is locked, and its table, which has been read, has the version of the
record. -/
def LeafEntered (E : Env) (M : Mode) (t : Tid) (k : Key) (v : Value) (y : LeafPath) (tab : FPTable)
    (x : LeafView) (f : Focus) : Prop :=
  (LeafKnown M f.view k y ∧ LeafReady E t f k v y.path.addr x ∧
    Owned t f.view { leaf := some y.path.addr }) ∧ LeafFits y.path x ∧
    TableHolds E.hash x.cap x.tver x.fps tab ∧ x.kv.length ≤ x.cap

/-- The table of a locked leaf is read. -/
theorem readTable_rule {φ : Focus → Prop} (hop : ∀ f, φ f → f.op ≠ none)
    (hleaf : ∀ f, φ f → f.view.leaf a = some x) :
    (treeDisc E F M).Cmd t (.readTable x.tab) (Says t φ) fun tab : FPTable =>
      Says t fun f => φ f ∧ TableHolds E.hash x.cap x.tver x.fps tab := by
  refine read_rule (c := .readTable x.tab) (ψ := fun (tab : FPTable) f => φ f ∧
    TableHolds E.hash x.cap x.tver x.fps tab) rfl hop fun z tab hi hz he => ⟨hz, ?_⟩
  obtain ⟨tab', ht', heq⟩ := Option.map_eq_some_iff.mp he
  have heq : tab' = tab := congrArg Prod.fst heq
  subst heq
  obtain ⟨l, tab'', hs⟩ := hi.tree.leaves.stored a x (hleaf _ hz)
  rw [hs.table] at ht'
  cases ht'
  exact hs.fps

include hk in
theorem leafInsert_outline (y : LeafPath) :
    Outline (treeDisc E F M) t (leafInsert E F k v y)
      (Says t fun f => (Writing f k v ∧ LeafKnown M f.view k y) ∧ Owned t f.view {})
      fun it => Says t fun f => Wrote E.hash f k v ∧ Owned t f.view {} ∧ RootKnown f.view it := by
  have hknown : ∀ y, Enduring E M t fun f => LeafKnown M f.view k y := fun y =>
    .know fun _ _ hle h => LeafKnown.mono h hle
  have hloc : ∀ y, Enduring E M t fun f => (Writing f k v ∧ LeafKnown M f.view k y) ∧
    Owned t f.view {} := fun y => (Enduring.writing.and (hknown y)).and .owned
  refine Outline.assert_bind (fun z _ hz hf => ?_) fun _ => ?_
  · have hpos := hz.1.2.snap.capacity_pos
    simp only [gt_iff_lt, decide_eq_false_iff_not] at hf
    exact absurd hpos hf
  refine Outline.bind (Q := fun s => fun z => ∃ x, Says t (LeafEntered E M t k v s.1 s.2 x) z)
    (Outline.loop id (J := fun y => Says t fun f => (Writing f k v ∧ LeafKnown M f.view k y) ∧
      Owned t f.view {}) (fun _ _ hz => hz) (fun y => (hloc y).stable) fun y => ?_) fun s => ?_
  · refine Outline.bind (lockLeaf_outline y) fun _ => ?_
    refine Outline.mono (R := fun z => ∃ x, Says t (fun f => ((LeafKnown M f.view k y ∧
        LeafLocked E t f k v y.path.addr x) ∧ Owned t f.view { leaf := some y.path.addr }) ∧
        x.tab = y.path.fpAddr) z) (Outline.of_exists fun x => ?_) fun z _ hz => ?_
    swap
    · obtain ⟨⟨hy, x, hx, htab⟩, hown⟩ := hz
      exact ⟨x, ⟨⟨hy, hx⟩, hown⟩, htab⟩
    refine Outline.of_fact (φ := x.tab = y.path.fpAddr) (fun _ _ hz => hz.2) fun htab => ?_
    have hφ : Enduring E M t fun f => (LeafKnown M f.view k y ∧ LeafLocked E t f k v y.path.addr x) ∧
      Owned t f.view { leaf := some y.path.addr } := ((hknown y).and .leafLocked).and .owned
    rw [← htab]
    refine Outline.cmd_bind False.elim (R := fun tab : FPTable => Says t fun f =>
        ((LeafKnown M f.view k y ∧ LeafLocked E t f k v y.path.addr x) ∧
          Owned t f.view { leaf := some y.path.addr }) ∧
          TableHolds E.hash x.cap x.tver x.fps tab) (fun tab => (hφ.and (.const _)).stable)
      ((readTable_rule (φ := fun f => (LeafKnown M f.view k y ∧
        LeafLocked E t f k v y.path.addr x) ∧ Owned t f.view { leaf := some y.path.addr })
        (fun f hf => hf.1.2.writing.op_ne) fun f hf => hf.1.2.leaf).imp (fun _ hz => hz.1)
        fun _ _ hz => hz) fun tab => ?_
    refine Outline.of_fact (φ := TableHolds E.hash x.cap x.tver x.fps tab) (fun _ _ hz => hz.2)
      fun ht => ?_
    refine Outline.assert_bind (fun _ _ _ hf => ?_) fun _ => Outline.ite (fun _ => ?_) fun hv => ?_
    · rw [ht.crc] at hf
      cases hf
    · refine Outline.cmd_bind False.elim (R := fun _ => Says t fun f =>
          (Writing f k v ∧ LeafKnown M f.view k y) ∧ Owned t f.view {}) (fun _ => (hloc y).stable)
        ((unlockLeaf_rule (x := x) (a := y.path.addr) (χ := fun f => Writing f k v ∧
          LeafKnown M f.view k y) (Abiding.writing.and (.know fun _ _ hle h => LeafKnown.mono h hle))
          fun f hf => hf.1.op_ne).imp (fun _ hz => ?_) fun _ _ hz => hz) fun _ => ?_
      · obtain ⟨⟨⟨hy, hx⟩, hown⟩, -⟩ := hz
        exact ⟨⟨hx.writing, hy⟩, hx.toLeafHeld, hown⟩
      · refine Outline.bind ((findAgain_outline (Enduring.writing.and .owned)
          (fun f hf => hf.1.op_ne) hk true y).mono fun _ _ hz => ⟨⟨hz.1.1, hz.2⟩, hz.1.2⟩) fun y' => ?_
        exact Outline.pure fun z _ hz => ⟨⟨hz.1.1, hz.2⟩, hz.1.2⟩
    · refine Outline.pure fun z hi hz => ⟨x, ?_⟩
      obtain ⟨⟨⟨hy, hx⟩, hown⟩, -⟩ := hz
      have hv : tab.version = y.path.version := by simpa using hv
      obtain ⟨hr, hfit⟩ := hx.ready hi.tree hy.snap (hv.symm.trans ht.version)
      obtain ⟨l, tab', hs⟩ := hi.tree.leaves.stored _ x hx.leaf
      exact ⟨⟨hy, hr, hown⟩, hfit, ht, hs.entries.length_le⟩
  · refine Outline.of_exists fun x => ?_
    refine Outline.of_fact (φ := (LeafFits s.1.path x ∧ TableHolds E.hash x.cap x.tver x.fps s.2 ∧
      x.kv.length ≤ x.cap) ∧ x.fps = x.kv.map fun p => calKeyFp E.hash p.key)
      (fun _ _ hz => ⟨hz.2, hz.1.2.1.fps⟩) fun hfacts => ?_
    obtain ⟨⟨hfit, ht, hlen⟩, hfps⟩ := hfacts
    exact (insertLocked_outline hk hfit ht hfps hlen).mono fun _ _ hz => hz.1

include hk in
/-- `write`, apart from write combining -/
theorem remoteWrite_spec (it : InnerTree) :
    Outline (treeDisc E F M) t (remoteWrite E F k v it)
      (Says t fun f => (Writing f k v ∧ Owned t f.view {}) ∧ RootKnown f.view it)
      fun it' => Says t fun f => Wrote E.hash f k v ∧ Owned t f.view {} ∧ RootKnown f.view it' := by
  refine Outline.bind (locate_outline (Enduring.writing.and .owned) (fun f hf => hf.1.op_ne) hk it)
    fun y => ?_
  exact (leafInsert_outline hk y).mono fun _ _ hz => ⟨⟨hz.1.1, hz.2⟩, hz.1.2⟩

include hk in
/-- With write combining, a write may be left to another client of the compute node. -/
theorem write_spec (it : InnerTree) :
    Outline (treeDisc E F M) t (write E F k v it)
      (Says t fun f => (Writing f k v ∧ Owned t f.view {}) ∧ RootKnown f.view it)
      fun it' => Says t fun f => (f.op = some (.write k v) ∧ (F.writeCombining = false →
        Wrote E.hash f k v)) ∧ Owned t f.view {} ∧ RootKnown f.view it' := by
  have hroot : ∀ it, Enduring E M t fun f => RootKnown f.view it := fun it =>
    .know fun _ _ hle h => RootKnown.mono h hle
  refine Outline.ite (fun hF => ?_) fun _ => (remoteWrite_spec hk it).post
    fun _ _ _ hz => ⟨⟨hz.1.1.1, fun _ => hz.1⟩, hz.2⟩
  have hno : ∀ p : Prop, F.writeCombining = false → p := fun p h => by
    rw [hF] at h
    cases h
  refine Outline.bind (onLockTable_outline (fun f hf => hf.1.1.op_ne)
    ((Enduring.writing.and .owned).and (hroot it)) _ _) fun res => Outline.ite (fun _ => ?_) fun _ => ?_
  · refine Outline.bind (onLockTable_outline (fun f hf => hf.1.1.op_ne)
      ((Enduring.writing.and .owned).and (hroot it)) _ _) fun _ => ?_
    exact Outline.pure fun _ _ hz => ⟨⟨hz.1.1.1, hno _⟩, hz.1.2, hz.2⟩
  · refine Outline.bind (remoteWrite_spec hk it) fun it' => ?_
    refine Outline.bind (onLockTable_outline (fun f hf => hf.1.1.op_ne)
      (Enduring.wrote.and (.and .owned (hroot it'))) _ _) fun _ => ?_
    exact Outline.pure fun _ _ hz => ⟨⟨hz.1.1.1, hno _⟩, hz.2⟩

end Calls

end DMTree
