import DMTree.Proofs.DescentOutlines

/-!
# The insertion of records into the index

Outlines of `inner_write`, `node_split`, `update_root` and `inner_insert`. A client that has split a
leaf or an inner node owes the index a record. It locks the node that covers the key of the record and
enters it there, or splits that node and owes a record one level above.
-/

namespace DMTree

open Conc Segments

variable {E : Env} {F : Flags} {M : Mode} {m : Cluster} {t u : Tid} {g g' : TreeView} {a b : Gaddr}
  {i : NodeView} {n nd : InnerNode} {k κ : Key} {r upd : Record} {it : InnerTree}
  {path : List Record} {ℓ : Nat} {o : Holding} {op : TreeOp} {f f' : Focus} {bottom : Bool}

/-! ## Records that are due -/

/-- The record `r` that the client `t` has to enter on the level `ℓ`. On the bottom level it is that of
a new leaf, and `upd` is the new record of the leaf that was split. -/
def Due (t : Tid) (g : TreeView) (upd r : Record) : Bool → Nat → Prop
  | true, ℓ => ℓ = 0 ∧ ∃ a s x y, g.st a = .opened t s ∧ g.leaf a = some x ∧ g.leaf s = some y ∧
      upd = x.record a ∧ r = y.record s
  | false, ℓ => ∃ ℓ', ℓ = ℓ' + 1 ∧ g.inner r.addr = some ⟨ℓ', r.key⟩ ∧ g.ipend r.addr = some t ∧
      r.valid = true ∧ KeyNull < r.key ∧ r.key < KeyMax

/-- What the client holds when the record has been entered. -/
def Holding.entered (o : Holding) : Bool → Holding
  | true => { o with opened := none }
  | false => { o with ipend := none }

/-- The record of a leaf changes only when it is being split. -/
theorem TreeRel.record {H : Hashes} {m m' : Cluster} {x : LeafView} (h : TreeRel H u m g m' g')
    (hx : g.leaf a = some x) (hs : ∀ s, g.st a ≠ .moving s) :
    ∃ x', g'.leaf a = some x' ∧ x'.record a = x.record a := by
  obtain ⟨x', hx', htab, hmin, hcap, hlt | ⟨htver, -⟩⟩ := h.le.leaf a x hx
  · obtain ⟨s, hs'⟩ := h.tver a x x' hx hx' hlt
    exact absurd hs' (hs s)
  · exact ⟨x', hx', by rw [LeafView.record, LeafView.record, htab, hmin, hcap, htver]⟩

theorem Enduring.due (upd r : Record) (bottom : Bool) (ℓ : Nat) :
    Enduring E M t fun f => Due t f.view upd r bottom ℓ := by
  intro u f f' hu hi hd
  cases bottom with
  | true =>
    obtain ⟨hℓ, a, s, x, y, hst, hx, hy, hupd, hr⟩ := hd
    obtain ⟨m, -, hm⟩ := hi.inv
    obtain ⟨hp, -⟩ := hm.opened_pair hst hx hy
    obtain ⟨x', hx', ex⟩ := hi.rel.record hx (by rw [hst]; simp)
    obtain ⟨y', hy', ey⟩ := hi.rel.record hy (by rw [hp.fresh]; simp)
    exact ⟨hℓ, a, s, x', y', (hi.rel.opened a s t hu.symm).mpr hst, hx', hy', by rw [ex, hupd],
      by rw [ey, hr]⟩
  | false =>
    obtain ⟨ℓ', hℓ, hin, hpend, h⟩ := hd
    exact ⟨ℓ', hℓ, hi.rel.le.inner _ _ hin, (hi.rel.ipend _ t hu.symm).mpr hpend, h⟩

/-- The contents of a bottom node with the record of the leaf that was split brought up to date. -/
def prepare (E : Env) (bottom : Bool) (upd : Record) (n : InnerNode) : Option InnerNode :=
  if bottom then n.insert E.hash upd else some n

/-- The node `n` with the contents `nd` takes the record `r`, with which the tree becomes `g'`. -/
structure CanEnter (t : Tid) (g : TreeView) (i : NodeView) (n nd : InnerNode) (r : Record)
    (g' : TreeView) : Prop where
  enters : Enters t i.lev i.min n.hdr.maxKey g g'
  wf : nd.Wf
  hdr : nd.hdr = n.hdr
  valid : r.valid = true
  recs : put Record.key r nd.recs = slice Record.key i.min n.hdr.maxKey (g'.lvl i.lev)

/-- The node that covers the first key of a new leaf has the record of the leaf that was split. -/
theorem TreeInv.covers_opened {x y : LeafView} {s c : Gaddr} (h : TreeInv E M m g)
    (hst : g.st a = .opened t s) (hx : g.leaf a = some x) (hy : g.leaf s = some y)
    (hs : NodeStored E g c ⟨0, κ⟩ n) (hk : n.checkHdr y.min = true) :
    n.checkHdr x.min = true ∧ ∃ r₀ ∈ n.recs, r₀.key = x.min := by
  obtain ⟨hp, -, hle, -⟩ := h.opened_pair hst hx hy
  obtain ⟨l₁, r₀, l₂, hl, hr₀, -, hb⟩ := h.levels.opened_spot hst hx hy
  obtain ⟨h1, h2⟩ := InnerNode.checkHdr_iff.mp hk
  have hseg := h.levels.seg 0
  rw [hl] at hseg
  -- the node starts at a record, and there is none between the two leaves
  have hmin : κ ≤ x.min := by
    obtain ⟨s₀, hs₀, hκ⟩ := hs.first
    by_contra hlt
    rw [hl] at hs₀
    have hmem : s₀ ∈ l₂ := by
      rcases List.mem_append.mp hs₀ with h0 | h0
      · have := hseg.sorted.left_lt h0
        rw [hr₀, hκ] at this
        exact absurd this.le hlt
      · rcases List.mem_cons.mp h0 with rfl | h0
        · exact absurd (hκ.symm.trans hr₀).le hlt
        · exact h0
    have hge := ((segs_append.mp hseg).2.2.2).bound_le_mem hmem
    rw [hb, hκ] at hge
    exact absurd (hp.lt.trans_le hge) (not_lt.mpr (hs.min ▸ h1))
  have hck : n.checkHdr x.min = true :=
    InnerNode.checkHdr_iff.mpr ⟨hs.min ▸ hmin, hle.trans_lt h2⟩
  refine ⟨hck, r₀, ?_, hr₀⟩
  rw [hs.recs]
  refine mem_slice.mpr ⟨by rw [hl]; simp, hr₀ ▸ hmin, ?_⟩
  exact hr₀ ▸ hle.trans_lt h2

section Enter

variable (h : TreeInv E M m g) (hin : g.inner a = some ⟨ℓ, κ⟩) (hs : NodeStored E g a ⟨ℓ, κ⟩ n)
  (hk : n.checkHdr r.key = true)
include h hin hs hk

/-- What is entered where it is due. -/
theorem Due.enter (hd : Due t g upd r bottom ℓ) :
    (bottom = true → n.hdr.nextIsLeaf = true ∧ n.checkHdr upd.key = true) ∧
      ∃ nd g', prepare E bottom upd n = some nd ∧ CanEnter t g ⟨ℓ, κ⟩ n nd r g' ∧
        ∀ o, Owned t g o → Owned t g' (o.entered bottom) := by
  obtain ⟨hlo, hhi⟩ := InnerNode.checkHdr_iff.mp hk
  rw [hs.min] at hlo
  cases bottom with
  | true =>
    obtain ⟨rfl, c, s, x, y, hst, hx, hy, rfl, rfl⟩ := hd
    obtain ⟨hck, r₀, hr₀, hkey⟩ := h.covers_opened hst hx hy hs hk
    obtain ⟨h1, h2⟩ := InnerNode.checkHdr_iff.mp hck
    rw [hs.min] at h1
    refine ⟨fun _ => ⟨by rw [hs.bottom]; rfl, hck⟩, ?_⟩
    cases hnd : n.insert E.hash (x.record c) with
    | none => exact absurd hkey ((hs.wf.refused rfl hnd).2 r₀ hr₀)
    | some nd =>
      have hins := hs.wf.inserted rfl hnd
      refine ⟨nd, g.enterLeaf c s x y, hnd, ⟨enters_enterLeaf h hst hx hy h1 hhi, hins.wf, hins.hdr,
        rfl, ?_⟩, fun o ho => ?_⟩
      · rw [hins.recs, hs.recs]
        simp only [TreeView.enterLeaf, Function.update_self]
        rw [slice_put_of_mem (x := y.record s) hlo hhi, slice_put_of_mem (x := x.record c) h1 h2]
      · obtain ⟨hp, -, -, hsc⟩ := h.opened_pair hst hx hy
        have hoc := (ho.opened c s).mp hst
        refine { ho with opened := fun d e => ?_ }
        simp only [Holding.entered, reduceCtorEq, iff_false]
        intro hde
        by_cases hds : d = s
        · subst hds
          simp [TreeView.enterLeaf] at hde
        · by_cases hdc : d = c
          · subst hdc
            simp only [TreeView.enterLeaf, Function.update_of_ne hds, Function.update_self] at hde
            split at hde <;> cases hde
          · simp only [TreeView.enterLeaf, Function.update_of_ne hds,
              Function.update_of_ne hdc] at hde
            have hod := (ho.opened d e).mp hde
            rw [hoc] at hod
            cases hod
            exact hdc rfl
  | false =>
    obtain ⟨ℓ', rfl, hr, hpend, hv, -, hmax⟩ := hd
    refine ⟨(fun hb => by cases hb), n, g.enterNode (ℓ' + 1) r, rfl,
      ⟨enters_enterNode h hr hv hmax hpend (h.root.lev_le a _ hin) hlo hhi, hs.wf, rfl, hv, ?_⟩,
      fun o ho => ?_⟩
    · rw [hs.recs]
      simp only [TreeView.enterNode, Function.update_self]
      rw [slice_put_of_mem hlo hhi]
    · have hoc := (ho.ipend r.addr).mp hpend
      refine { ho with ipend := fun d => ?_ }
      simp only [Holding.entered, reduceCtorEq, iff_false]
      intro hd
      by_cases hdr : d = r.addr
      · subst hdr
        simp [TreeView.enterNode] at hd
      · simp only [TreeView.enterNode, Function.update_of_ne hdr] at hd
        have hod := (ho.ipend d).mp hd
        rw [hoc] at hod
        exact hdr (Option.some.inj hod).symm

end Enter

/-! ## The lock of a node -/

/-- The address of a node of the level `ℓ`, or one where there is no node. -/
def OnLevel (E : Env) (g : TreeView) (ℓ : Nat) (a : Gaddr) : Prop :=
  (∃ κ, g.inner a = some ⟨ℓ, κ⟩) ∨ ∀ j, E.alloc j ≠ a

theorem OnLevel.mono (h : OnLevel E g ℓ a) (hle : g.Le g') : OnLevel E g' ℓ a :=
  h.imp_left fun ⟨κ, hi⟩ => ⟨κ, hle.inner _ _ hi⟩

theorem setNodeLock_holds (v : Tid) (o : Option Tid) :
    (g.setNodeLock a o).Holds v (.node a) ↔ o = some v := by
  simp [TreeView.Holds, TreeView.setNodeLock]

theorem setNodeLock_holds_of_ne (v : Tid) (o : Option Tid) (w : LockWord) (hw : w ≠ .node a) :
    (g.setNodeLock a o).Holds v w ↔ g.Holds v w := by
  cases w with
  | table c => exact Iff.rfl
  | node b =>
    have hb : b ≠ a := fun hb => hw (by rw [hb])
    simp only [TreeView.Holds, TreeView.setNodeLock, Function.update_of_ne hb]
  | root => exact Iff.rfl

theorem Owned.lockNode (h : Owned t g o) (ho : o.node = none) :
    Owned t (g.setNodeLock a (some t)) { o with node := some a } := by
  refine { h with node := fun b => ?_ }
  by_cases hb : b = a
  · subst hb
    simp [TreeView.setNodeLock]
  · have hno : g.iown b ≠ some t := by
      rw [ne_eq, h.node b, ho]
      exact (Option.some_ne_none b).symm
    simp [TreeView.setNodeLock, Function.update_of_ne hb, hno, Ne.symm hb]

theorem Owned.unlockNode (h : Owned t g o) (ho : o.node = some a) :
    Owned t (g.setNodeLock a none) { o with node := none } := by
  refine { h with node := fun b => ?_ }
  by_cases hb : b = a
  · subst hb
    simp [TreeView.setNodeLock]
  · have hno : g.iown b ≠ some t := by
      rw [ne_eq, h.node b, ho]
      exact fun he => hb (Option.some.inj he).symm
    simp [TreeView.setNodeLock, Function.update_of_ne hb, hno]

/-- A node that the client has locked is not changed by others. -/
theorem Enduring.heldNode (ho : o.node = some a) :
    Enduring E M t fun f => Owned t f.view o ∧ f.mem.inner a = some n := by
  rintro u f f' hu hi ⟨hown, hn⟩
  refine ⟨hown.stable hi.rel hu.symm, ?_⟩
  rw [hi.rel.inner a t hu.symm ((hown.node a).mpr ho)]
  exact hn

theorem Tolerant.due : Tolerant E fun f => Due t f.view upd r bottom ℓ := by
  intro f f' hn hd
  cases bottom with
  | true =>
    obtain ⟨hℓ, a, s, x, y, hst, hx, hy, h⟩ := hd
    exact ⟨hℓ, a, s, x, y, hn.st ▸ hst, hn.leaf ▸ hx, hn.leaf ▸ hy, h⟩
  | false =>
    obtain ⟨ℓ', hℓ, hin, hpend, h⟩ := hd
    exact ⟨ℓ', hℓ, hn.inner ▸ hin, hn.ipend ▸ hpend, h⟩

section Locks

variable {ζ : Focus → Prop} (hζ : Enduring E M t ζ) (htol : Tolerant E ζ)
  (hop : ∀ f, ζ f → f.op ≠ none)
include hζ htol hop

theorem lockNode_outline (ho : o.node = none) (ℓ : Nat) (a : Gaddr) :
    Outline (treeDisc E F M) t (lockWord (.node a))
      (Says t fun f => ζ f ∧ Owned t f.view o ∧ OnLevel E f.view ℓ a) fun _ =>
        Says t fun f => ζ f ∧ Owned t f.view { o with node := some a } ∧
          ∃ κ, f.view.inner a = some ⟨ℓ, κ⟩ := by
  refine lockWord_outline ?_ ?_ (fun f hf => hop f hf.1) fun x hi hx hbit => ?_
  · exact hζ.and (.and .owned (.know (P := fun g => OnLevel E g ℓ a) fun _ _ hle h => h.mono hle))
  · refine hζ.and (.and .owned (.know (P := fun g => ∃ κ, g.inner a = some ⟨ℓ, κ⟩) ?_))
    rintro _ _ hle ⟨κ, hi⟩
    exact ⟨κ, hle.inner _ _ hi⟩
  · obtain ⟨hx, hown, ⟨κ, hin⟩ | hstray⟩ := hx
    · obtain ⟨op, hop'⟩ := Option.ne_none_iff_exists'.mp (hop _ hx)
      obtain ⟨-, hstep⟩ := hi.tree.lockNode hin hbit t
      have hnext : (focus t x).Minor E (focus t ⟨x.mem.setLockBit true (.node a),
          x.log ++ [.act t (.cas (.node a)) true],
          nextGhost x (x.ghost.view.setNodeLock a (some t))⟩) :=
        ⟨focus_next rfl hstep.2 rfl, rfl, rfl, rfl, rfl⟩
      refine ⟨x.ghost.view.setNodeLock a (some t), stepOk_index hop' hstep rfl (fun _ _ h => h) rfl
        rfl rfl (fun _ => rfl) (held_of hi (fun w => rfl) (fun v => setNodeLock_holds v _)
          fun v w hw => setNodeLock_holds_of_ne v _ w hw) trivial rfl, ?_, ?_, κ, hin⟩
      · exact htol _ _ hnext hx
      · exact hown.lockNode ho
    · have hn := hi.tree.alloc.inner_none hstray
      simp [Cluster.lockBit, hn] at hbit

omit hζ in
theorem unlockNode_rule (ho : o.node = some a) :
    (treeDisc E F M).Cmd t (.release (.node a)) (Says t fun f => ζ f ∧ Owned t f.view o) fun _ =>
      Says t fun f => ζ f ∧ Owned t f.view { o with node := none } := by
  refine cmd_rule fun x _ m hi hx _ he => ?_
  obtain ⟨hx, hown⟩ := hx
  obtain ⟨_, -, hm⟩ := Option.map_eq_some_iff.mp he
  have hm : x.mem.setLockBit false (.node a) = m := congrArg Prod.snd hm
  subst hm
  obtain ⟨op, hop'⟩ := Option.ne_none_iff_exists'.mp (hop _ hx)
  have hmine := (hown.node a).mpr ho
  have hstep := hi.tree.unlockNode hmine
  refine ⟨x.ghost.view.setNodeLock a none, stepOk_index hop' hstep rfl (fun _ _ h => h) rfl rfl rfl
    (fun _ => rfl) (held_of hi (fun w => rfl) (fun v => setNodeLock_holds v _)
      fun v w hw => setNodeLock_holds_of_ne v _ w hw) hmine rfl, ?_, hown.unlockNode ho⟩
  exact htol _ _ ⟨focus_next rfl hstep.2 rfl, rfl, rfl, rfl, rfl⟩ hx

/-- The node `n` at `a`, on the level `ℓ`, covers the key. -/
def Covers (f : Focus) (ℓ : Nat) (k : Key) (a : Gaddr) (n : InnerNode) : Prop :=
  (∃ κ, f.view.inner a = some ⟨ℓ, κ⟩) ∧ n.checkHdr k = true

theorem lockCovering_outline (ho : o.node = none) (ℓ : Nat) (k : Key) (addr : Gaddr) :
    Outline (treeDisc E F M) t (lockCovering E k addr)
      (Says t fun f => ζ f ∧ Owned t f.view o ∧ OnLevel E f.view ℓ addr) fun y =>
        Says t fun f => ζ f ∧ (Owned t f.view { o with node := some y.1 } ∧
          f.mem.inner y.1 = some y.2) ∧ Covers f ℓ k y.1 y.2 := by
  refine Outline.loop id (J := fun a => Says t fun f => ζ f ∧ Owned t f.view o ∧
    OnLevel E f.view ℓ a) (fun _ _ hx => hx) (fun a => ?_) fun a => ?_
  · exact (hζ.and (.and .owned (.know (P := fun g => OnLevel E g ℓ a) fun _ _ hle h =>
      h.mono hle))).stable
  refine Outline.bind (lockNode_outline hζ htol hop ho ℓ a) fun _ => ?_
  -- what has been read of the right neighbour stays true
  have hread : ∀ n : InnerNode, Enduring E M t fun f => ζ f ∧
      (Owned t f.view { o with node := some a } ∧ f.mem.inner a = some n) ∧
        (∃ κ, f.view.inner a = some ⟨ℓ, κ⟩) ∧ OnLevel E f.view ℓ n.hdr.rightAddr := by
    refine fun n => hζ.and (.and (.heldNode rfl) (.and (.know
      (P := fun g => ∃ κ, g.inner a = some ⟨ℓ, κ⟩) ?_) (.know
        (P := fun g => OnLevel E g ℓ n.hdr.rightAddr) fun _ _ hle h => h.mono hle)))
    rintro _ _ hle ⟨κ, hi⟩
    exact ⟨κ, hle.inner _ _ hi⟩
  refine Outline.cmd_bind False.elim (fun n => (hread n).stable) (readNode_rule
    (fun f hf => hop f hf.1) (fun f hf => ?_) fun x n i hi hx hn hia hs => ?_) fun n => ?_
  · obtain ⟨-, -, κ, hi⟩ := hf
    exact Or.inl ⟨_, hi⟩
  · obtain ⟨hx, hown, κ, hin⟩ := hx
    have he : i = ⟨ℓ, κ⟩ := Option.some.inj (hia.symm.trans hin)
    subst he
    refine ⟨hx, ⟨hown, hn⟩, ⟨κ, hin⟩, ?_⟩
    rcases hs.le.lt_or_eq with hlt | heq
    · exact Or.inl ⟨_, hs.right hlt⟩
    · exact Or.inr (hs.stray heq)
  · refine Outline.assert_bind (fun x hi hx hcrc => ?_) fun _ => Outline.ite (fun _ => ?_) fun hc => ?_
    · obtain ⟨-, ⟨-, hn⟩, ⟨κ, hin⟩, -⟩ := hx
      obtain ⟨n', hn', hs⟩ := hi.tree.nodes.stored a _ hin
      have hn : x.mem.inner a = some n := hn
      rw [hn] at hn'
      cases hn'
      rw [hs.crc] at hcrc
      cases hcrc
    · have hright : Enduring E M t fun f => ζ f ∧ OnLevel E f.view ℓ n.hdr.rightAddr :=
        hζ.and (.know (P := fun g => OnLevel E g ℓ n.hdr.rightAddr) fun _ _ hle h => h.mono hle)
      have hright' : Tolerant E fun f => ζ f ∧ OnLevel E f.view ℓ n.hdr.rightAddr :=
        htol.and (Abiding.tolerant (.know (P := fun g => OnLevel E g ℓ n.hdr.rightAddr)
          fun _ _ hle h => h.mono hle))
      refine Outline.bind (Outline.mono (Outline.cmd False.elim
        (fun _ => (hright.and .owned).stable) (unlockNode_rule hright' (fun f hf => hop f hf.1)
          (o := { o with node := some a }) rfl)) fun x _ hx => ?_) fun _ => Outline.pure fun x _ hx => ?_
      · exact ⟨⟨hx.1, hx.2.2.2⟩, hx.2.1.1⟩
      · obtain ⟨⟨hx, hlev⟩, hown⟩ := hx
        refine ⟨hx, ?_, hlev⟩
        have he : ({ o with node := none } : Holding) = o := by rw [← ho]
        exact he ▸ hown
    · exact Outline.pure fun x _ hx => ⟨hx.1, hx.2.1, hx.2.2.1, by simpa using hc⟩

end Locks

/-! ## `inner_write` -/

/-- The node `n`, which the client has locked, covers the key of the record that is due. -/
structure Entering (t : Tid) (f : Focus) (o : Holding) (upd r : Record) (bottom : Bool) (ℓ : Nat)
    (a : Gaddr) (n : InnerNode) : Prop where
  due : Due t f.view upd r bottom ℓ
  held : Owned t f.view o ∧ f.mem.inner a = some n
  covers : Covers f ℓ r.key a n

theorem Enduring.entering (ho : o.node = some a) :
    Enduring E M t fun f => Entering t f o upd r bottom ℓ a n := by
  intro u f f' hu hi h
  obtain ⟨⟨κ, hin⟩, hk⟩ := h.covers
  exact ⟨Enduring.due (E := E) (M := M) upd r bottom ℓ u f f' hu hi h.due,
    Enduring.heldNode (E := E) (M := M) ho u f f' hu hi h.held, ⟨κ, hi.rel.le.inner _ _ hin⟩, hk⟩

theorem Tolerant.covers : Tolerant E fun f => Covers f ℓ k a n := by
  rintro f f' hn ⟨⟨κ, hin⟩, hk⟩
  exact ⟨⟨κ, hn.inner ▸ hin⟩, hk⟩

/-- The node is not at a private address. -/
theorem Entering.ne_priv {x : TreeWorld E F} (hi : WorldInv M x)
    (h : Entering t (focus t x) o upd r bottom ℓ a n) (hb : b ∈ o.priv) : a ≠ b := by
  rintro rfl
  obtain ⟨⟨κ, hin⟩, -⟩ := h.covers
  have hin : x.ghost.view.inner a = some ⟨ℓ, κ⟩ := hin
  rw [(hi.tree.alloc.priv a t ((h.held.1.priv a).mpr hb)).2.2.1] at hin
  cases hin

/-- The record can be entered, whatever the others have done since the node was locked. -/
theorem Entering.enter {x : TreeWorld E F} (hi : WorldInv M x)
    (h : Entering t (focus t x) o upd r bottom ℓ a n) :
    ∃ κ, x.ghost.view.inner a = some ⟨ℓ, κ⟩ ∧ NodeStored E x.ghost.view a ⟨ℓ, κ⟩ n ∧
      (bottom = true → n.hdr.nextIsLeaf = true ∧ n.checkHdr upd.key = true) ∧
      ∃ nd g', prepare E bottom upd n = some nd ∧ CanEnter t x.ghost.view ⟨ℓ, κ⟩ n nd r g' ∧
        Owned t g' (o.entered bottom) := by
  obtain ⟨⟨κ, hin⟩, hk⟩ := h.covers
  have hin : x.ghost.view.inner a = some ⟨ℓ, κ⟩ := hin
  have hn : x.mem.inner a = some n := h.held.2
  obtain ⟨n', hn', hs⟩ := hi.tree.nodes.stored a _ hin
  rw [hn] at hn'
  cases hn'
  obtain ⟨hb, nd, g', hnd, hcan, hown⟩ := Due.enter hi.tree hin hs hk h.due
  exact ⟨κ, hin, hs, hb, nd, g', hnd, hcan, hown o h.held.1⟩

theorem insertUpdate_outline {χ : Focus → Prop} :
    Outline (treeDisc E F M) t (insertUpdate E upd n)
      (Says t fun f => χ f ∧ Entering t f o upd r true ℓ a n) fun nd =>
        Says t fun f => (χ f ∧ Entering t f o upd r true ℓ a n) ∧ prepare E true upd n = some nd := by
  refine Outline.assert_bind (fun x hi hx hf => ?_) fun _ =>
    Outline.assert_bind (fun x hi hx hf => ?_) fun _ => ?_
  · obtain ⟨-, -, -, hb, -⟩ := hx.2.enter hi
    rw [(hb rfl).1] at hf
    cases hf
  · obtain ⟨-, -, -, hb, -⟩ := hx.2.enter hi
    rw [(hb rfl).2] at hf
    cases hf
  · cases hins : n.insert E.hash upd with
    | none =>
      refine Outline.fail fun x hi hx => ?_
      obtain ⟨-, -, -, -, nd, -, hnd, -⟩ := hx.2.enter hi
      rw [prepare, if_pos rfl, hins] at hnd
      cases hnd
    | some nd => exact Outline.pure fun x _ hx => ⟨hx, hins⟩

@[simp] theorem Holding.entered_priv (o : Holding) (bottom : Bool) :
    (o.entered bottom).priv = o.priv := by
  cases bottom <;> rfl

@[simp] theorem Holding.entered_node (o : Holding) (bottom : Bool) :
    (o.entered bottom).node = o.node := by
  cases bottom <;> rfl

@[simp] theorem Holding.entered_tok (o : Holding) (bottom : Bool) :
    (o.entered bottom).tok = o.tok := by
  cases bottom <;> rfl

theorem Holding.entered_same (ho : o.node = none) (bottom : Bool) (a : Gaddr) :
    { ({ o with node := some a } : Holding).entered bottom with node := none } =
      o.entered bottom := by
  cases bottom <;> simp [Holding.entered, ← ho]

theorem Enters.holds {lo hi : Key} (h : Enters t ℓ lo hi g g') (v : Tid) (w : LockWord) :
    g'.Holds v w ↔ g.Holds v w := by
  cases w with
  | table c => simp only [TreeView.Holds, h.leaf]
  | node b => simp only [TreeView.Holds, h.iown]
  | root => simp only [TreeView.Holds, h.rown]

section Write

variable {ξ : Focus → Prop} (hξ : Enduring E M t ξ) (hab : Abiding E ξ)
  (hop : ∀ f, ξ f → f.op ≠ none)
include hab hop

/-- The node takes the record and is unlocked. -/
theorem writeInsert_rule {n' : InnerNode} (ho : o.node = some a)
    (hprep : prepare E bottom upd n = some nd) (hins : nd.insert E.hash r = some n') :
    (treeDisc E F M).Cmd t (.writeNode .insert a n'.unlock)
      (Says t fun f => ξ f ∧ Entering t f o upd r bottom ℓ a n) fun _ =>
        Says t fun f => ξ f ∧ Owned t f.view { o.entered bottom with node := none } := by
  refine cmd_rule fun x _ m hi hx _ he => ?_
  obtain ⟨hx, hent⟩ := hx
  have hm : x.mem.setInner a n'.unlock = m := congrArg Prod.snd (Option.some.inj he)
  subst hm
  obtain ⟨op, hop'⟩ := Option.ne_none_iff_exists'.mp (hop _ hx)
  obtain ⟨κ, hin, hs, -, nd', g', hnd, hcan, hown⟩ := hent.enter hi
  rw [hprep] at hnd
  cases hnd
  have hi' := hcan.wf.inserted hcan.valid hins
  have hmine := (hent.held.1.node a).mpr ho
  have hstored : NodeStored E (g'.setNodeLock a none) a ⟨ℓ, κ⟩ n'.unlock :=
    hs.insert hcan.enters (hi'.wf.lock false) hi'.consistent (hi'.hdr.trans hcan.hdr) rfl
      (hi'.recs.trans hcan.recs)
  have hstep : TreeStep E M t x.mem x.ghost.view (x.mem.setInner a n'.unlock)
      (g'.setNodeLock a none) :=
    hi.tree.insertNode hin hent.held.2 hmine hcan.enters (hi'.hdr.trans hcan.hdr) hstored
  refine ⟨g'.setNodeLock a none, stepOk_index hop' hstep hcan.enters.leaf
    (fun b s => (hcan.enters.moving b s).mp) hcan.enters.eff rfl rfl (fun _ => rfl)
    (held_of hi (fun w => ?_) (fun v => setNodeLock_holds v _) fun v w hw => ?_) ⟨rfl, Or.inl hmine⟩ rfl,
    ?_, ?_⟩
  · exact if_congr (and_iff_left rfl) rfl rfl
  · rw [setNodeLock_holds_of_ne v _ w hw, hcan.enters.holds]
  · exact hab _ _ (focus_next rfl hstep.2 hcan.enters.eff) hx
  · refine hown.unlockNode ?_
    cases bottom <;> exact ho

/-- What `inner_write` leaves: the record is entered, or the node at `a` has no room and is still
locked. -/
def InnerWritten (E : Env) (t : Tid) (o : Holding) (upd r : Record) (bottom : Bool) (ℓ : Nat) (a : Gaddr)
    (f : Focus) : Option InnerNode → Prop
  | none => Owned t f.view (o.entered bottom)
  | some nd => ∃ n, Entering t f { o with node := some a } upd r bottom ℓ a n ∧
      prepare E bottom upd n = some nd ∧ nd.insert E.hash r = none

include hξ in
theorem innerWrite_outline (ho : o.node = none) (addr : Gaddr) :
    Outline (treeDisc E F M) t (innerWrite E addr r upd bottom)
      (Says t fun f => (ξ f ∧ Due t f.view upd r bottom ℓ) ∧ Owned t f.view o ∧
        OnLevel E f.view ℓ addr) fun y =>
        Says t fun f => ξ f ∧ InnerWritten E t o upd r bottom ℓ y.1 f y.2 := by
  have hdue : Enduring E M t fun f => ξ f ∧ Due t f.view upd r bottom ℓ := hξ.and (.due upd r bottom ℓ)
  refine Outline.bind (lockCovering_outline hdue (hab.tolerant.and .due) (fun f hf => hop f hf.1) ho
    ℓ r.key addr) fun y => ?_
  obtain ⟨a, n⟩ := y
  refine Outline.mono (R := Says t fun f => ξ f ∧
    Entering t f { o with node := some a } upd r bottom ℓ a n) ?_
    fun x _ hx => ⟨hx.1.1, hx.1.2, hx.2.1, hx.2.2⟩
  refine Outline.ite_join (R := fun nd => Says t fun f => (ξ f ∧
    Entering t f { o with node := some a } upd r bottom ℓ a n) ∧ prepare E bottom upd n = some nd)
    (fun hb => ?_) (fun hb => Outline.pure fun x _ hx => ⟨hx, if_neg hb⟩) fun nd => ?_
  · subst hb
    exact insertUpdate_outline
  refine Outline.of_fact (φ := prepare E bottom upd n = some nd) (fun x _ hx => hx.2) fun hprep => ?_
  dsimp only
  cases hins : nd.insert E.hash r with
  | none => exact Outline.pure fun x _ hx => ⟨hx.1.1, n, hx.1.2, hprep, hins⟩
  | some n' =>
    refine Outline.bind (Outline.mono (Outline.cmd False.elim
      (fun _ => (hξ.and (.owned (o := { ({ o with node := some a } : Holding).entered bottom with
        node := none }))).stable) (writeInsert_rule hab hop rfl hprep hins)) fun x _ hx => hx.1)
      fun _ => Outline.pure fun x _ hx => ⟨hx.1, ?_⟩
    have hown := hx.2
    rwa [Holding.entered_same ho] at hown

end Write

/-! ## Private addresses -/

section Private

variable {ζ : Focus → Prop} (htol : Tolerant E ζ) (hop : ∀ f, ζ f → f.op ≠ none)
include htol hop

/-- `memory_alloc`, `compute_alloc` -/
theorem alloc_rule (θ : Cluster → Prop) :
    (treeDisc E F M).Cmd t .alloc (Says t fun f => ζ f ∧ Owned t f.view o ∧ θ f.mem) fun b =>
      Says t fun f => ζ f ∧ Owned t f.view { o with priv := b :: o.priv } ∧ θ f.mem ∧
        b ∉ o.priv := by
  refine cmd_rule (c := .alloc) (ψ := fun b f => ζ f ∧ Owned t f.view { o with priv := b :: o.priv } ∧
    θ f.mem ∧ b ∉ o.priv) fun x b m hi hx _ he => ?_
  obtain ⟨hx, hown, hθ⟩ := hx
  have hb : E.alloc x.mem.allocs = b := congrArg Prod.fst (Option.some.inj he)
  have hm : { x.mem with allocs := x.mem.allocs + 1 } = m := congrArg Prod.snd (Option.some.inj he)
  subst hb hm
  obtain ⟨op, hop'⟩ := Option.ne_none_iff_exists'.mp (hop _ hx)
  obtain ⟨hnone, hstep⟩ := hi.tree.allocate t
  refine ⟨x.ghost.view.give t (E.alloc x.mem.allocs), stepOk_index hop' hstep rfl (fun _ _ h => h)
    rfl rfl rfl (fun _ => rfl) hi.held trivial rfl, ?_, ?_, hθ, fun hmem => ?_⟩
  · exact htol _ _ ⟨focus_next rfl hstep.2 rfl, rfl, rfl, rfl, rfl⟩ hx
  · refine { hown with priv := fun d => ?_ }
    by_cases hd : d = E.alloc x.mem.allocs
    · subst hd
      simp [focus, nextGhost, TreeView.give]
    · simp only [List.mem_cons, hd, false_or, ← hown.priv d]
      simp only [focus, nextGhost, TreeView.give, Function.update_of_ne hd]
  · have hmine : x.ghost.view.priv (E.alloc x.mem.allocs) = some t := (hown.priv _).mpr hmem
    rw [hnone] at hmine
    cases hmine

/-- A node is written at a private address. -/
theorem privNode_rule {θ η : Cluster → Prop} {w : NodeWrite} (hb : b ∈ o.priv) (hlock : n.lock = false)
    (hroot : n.hdr.isRoot = true → M.rooted → o.tok = true)
    (hθ : ∀ m : Cluster, θ m → η (m.setInner b n)) :
    (treeDisc E F M).Cmd t (.writeNode w b n) (Says t fun f => ζ f ∧ Owned t f.view o ∧ θ f.mem)
      fun _ => Says t fun f => ζ f ∧ Owned t f.view o ∧ η f.mem := by
  refine hidden_rule (fun _ => rfl) (fun _ h => by cases h) (fun _ _ => rfl)
    (fun f hf => hop f hf.1) fun x _ m hi hx he => ?_
  obtain ⟨hx, hown, hm⟩ := hx
  have he : x.mem.setInner b n = m := congrArg Prod.snd (Option.some.inj he)
  subst he
  have hmine : x.ghost.view.priv b = some t := (hown.priv b).mpr hb
  refine ⟨hi.tree.privNode hmine fun h1 h2 => hown.tok.mpr (hroot h1 h2), ⟨hlock, Or.inr hmine⟩, fun v => ?_,
    rfl, htol _ _ (.mem ..) hx, hown, hθ _ hm⟩
  by_cases hv : LockWord.node b = v ∧ n.lock = false
  · rw [← hv.1, (holder_priv hi hmine).1]
    exact if_pos ⟨rfl, hv.2⟩
  · exact if_neg hv

end Private

/-! ## `node_split` -/

/-- The client has split the node at `a`, on the level `ℓ`, and owes the record `r`. With `rooted`, a
node at the start of the path is the root, and it stays the root until the client replaces it. -/
def Parted (M : Mode) (t : Tid) (f : Focus) (o : Holding) (a : Gaddr) (r : Record) (ℓ : Nat)
    (top : Bool) : Prop :=
  (∃ κ, f.view.inner a = some ⟨ℓ, κ⟩) ∧ ∃ tok : Bool,
    Owned t f.view { o with ipend := some r.addr, tok := tok } ∧
    (tok = true → top = true ∧ M.rooted ∧ f.mem.root = a) ∧ (top = true → M.rooted → tok = true)

theorem Enduring.parted {top : Bool} : Enduring E M t fun f => Parted M t f o a r ℓ top := by
  rintro u f f' hu hi ⟨⟨κ, hin⟩, tok, hown, htok, h⟩
  refine ⟨⟨κ, hi.rel.le.inner _ _ hin⟩, tok, hown.stable hi.rel hu.symm, fun ht => ?_, h⟩
  obtain ⟨h1, h2, h3⟩ := htok ht
  exact ⟨h1, h2, (hi.rel.root t hu.symm (Or.inr (hown.tok.mpr ht))).trans h3⟩

/-- What the client holds after the write that splits a node. -/
theorem Owned.splitOff {tok : Option Tid} {tok' : Bool} (h : Owned t g o) (ho : o.ipend = none)
    (hp : o.priv = [b]) (htok : tok = some t ↔ tok' = true) :
    Owned t (g.splitOff t b i tok) { o with ipend := some b, priv := [], tok := tok' } := by
  refine { h with ipend := fun d => ?_, tok := htok, priv := fun d => ?_ }
  · by_cases hd : d = b
    · subst hd
      simp [TreeView.splitOff]
    · have hno : g.ipend d ≠ some t := by
        rw [ne_eq, h.ipend d, ho]
        exact (Option.some_ne_none d).symm
      simp [TreeView.splitOff, Function.update_of_ne hd, hno, Ne.symm hd]
  · by_cases hd : d = b
    · subst hd
      simp [TreeView.splitOff]
    · have hno : g.priv d ≠ some t := by
        rw [ne_eq, h.priv d, hp]
        simp [hd]
      simp [TreeView.splitOff, Function.update_of_ne hd, hno]

/-- With `rooted`, a node that has a level above it is not marked as the root. -/
theorem TreeInv.not_root {c : Gaddr} (h : TreeInv E M m g) (hM : M.rooted)
    (hin : g.inner a = some ⟨ℓ, κ⟩) (hn : m.inner a = some n) (hc : g.inner c = some ⟨ℓ + 1, k⟩) :
    n.hdr.isRoot = false := by
  by_contra hroot
  rcases h.root.unique hM a n hn (by simpa using hroot) with ⟨rfl, -⟩ | ⟨v, -, hp⟩
  · have he := Option.some.inj (hin.symm.trans h.root.inner)
    have hle : ℓ + 1 ≤ g.top := h.root.lev_le c _ hc
    simp only [NodeView.mk.injEq] at he
    omega
  · rw [(h.alloc.priv a v hp).2.2.1] at hin
    cases hin

section Split

variable {ξ : Focus → Prop} (hξ : Enduring E M t ξ) (hab : Abiding E ξ)
  (hop : ∀ f, ξ f → f.op ≠ none)
include hab hop

/-- The node is written with the lower half of its range and unlocked. -/
theorem writeOrigin_rule {origin sibling : InnerNode} {top : Bool} (ho : o.node = some a)
    (hip : (o.entered bottom).ipend = none) (hpr : o.priv = [b]) (htk : o.tok = false)
    (hprep : prepare E bottom upd n = some nd) (hnew : ∀ s ∈ nd.recs, s.key ≠ r.key)
    (hsp : Split E nd b r origin sibling k)
    (hpar : ∀ f, ξ f → top = false → ∃ c κ, f.view.inner c = some ⟨ℓ + 1, κ⟩) :
    (treeDisc E F M).Cmd t (.writeNode (.origin top) a origin)
      (Says t fun f => (ξ f ∧ Entering t f o upd r bottom ℓ a n) ∧ f.mem.inner b = some sibling)
      fun _ => Says t fun f => ξ f ∧
        Parted M t f { o.entered bottom with node := none, priv := [] } a
          { r with key := k, addr := b } ℓ top ∧
        Due t f.view upd { r with key := k, addr := b } false (ℓ + 1) := by
  refine cmd_rule fun x _ m hi hx hg he => ?_
  obtain ⟨⟨hx, hent⟩, hsib⟩ := hx
  have hm : x.mem.setInner a origin = m := congrArg Prod.snd (Option.some.inj he)
  subst hm
  obtain ⟨op, hop'⟩ := Option.ne_none_iff_exists'.mp (hop _ hx)
  obtain ⟨κ, hin, hs, -, nd', g', hnd, hcan, hown⟩ := hent.enter hi
  rw [hprep] at hnd
  cases hnd
  have hn : x.mem.inner a = some n := hent.held.2
  have hmine := (hent.held.1.node a).mpr ho
  have hb : x.ghost.view.priv b = some t := (hent.held.1.priv b).mpr (by rw [hpr]; simp)
  obtain ⟨hk1, hk2, -⟩ := split_key hcan.wf hnew hcan.recs hsp
  -- a root that is split is marked no longer, and the client that did it has the token
  obtain ⟨tok, tok', hρ, htok, htop, hroot⟩ : ∃ (tok : Option Tid) (tok' : Bool),
      ((M.rooted ∧ n.hdr.isRoot = true ∧ tok = some t) ∨
        (tok = x.ghost.view.rtok ∧ (M.rooted → n.hdr.isRoot = false))) ∧
      (tok = some t ↔ tok' = true) ∧ (top = true → M.rooted → tok' = true) ∧
      (tok' = true → top = true ∧ M.rooted ∧ x.mem.root = a) := by
    by_cases hM : M.rooted ∧ top = true
    · obtain ⟨hM, rfl⟩ := hM
      obtain ⟨n', hn', hroot⟩ := hg hM
      rw [hn] at hn'
      cases hn'
      refine ⟨some t, true, Or.inl ⟨hM, hroot, rfl⟩, by simp, fun _ _ => rfl, fun _ => ⟨rfl, hM, ?_⟩⟩
      rcases hi.tree.root.unique hM a n hn hroot with ⟨hr, -⟩ | ⟨v, -, hp⟩
      · exact hr.symm
      · rw [(hi.tree.alloc.priv a v hp).2.2.1] at hin
        cases hin
    · have hno : x.ghost.view.rtok ≠ some t := fun h => by
        have := hent.held.1.tok.mp h
        rw [htk] at this
        cases this
      refine ⟨x.ghost.view.rtok, false, Or.inr ⟨rfl, fun hM' => ?_⟩, by simp [hno],
        fun h1 h2 => absurd ⟨h2, h1⟩ hM, fun h => by cases h⟩
      obtain ⟨c, κ', hc⟩ := hpar _ hx (by simpa [hM'] using hM)
      exact hi.tree.not_root hM' hin hn hc
  have hstep := hi.tree.splitNode hin hn hmine hcan.enters hcan.wf hcan.hdr hnew hcan.recs hsp hb
    hsib hρ
  refine ⟨_, stepOk_index hop' hstep hcan.enters.leaf
    (fun c s => (hcan.enters.moving c s).mp) hcan.enters.eff rfl rfl (fun _ => rfl)
    (held_of hi (fun w => if_congr (and_iff_left hsp.origin_lock) rfl rfl)
      (fun v => setNodeLock_holds v _) fun v w hw => ?_) ⟨hsp.origin_lock, Or.inl hmine⟩ rfl, ?_,
      ⟨?_, tok', ?_, ?_, htop⟩,
      ?_⟩
  · rw [setNodeLock_holds_of_ne v _ w hw, ← hcan.enters.holds]
    cases w <;> exact Iff.rfl
  · exact hab _ _ (focus_next rfl hstep.2 hcan.enters.eff) hx
  · exact ⟨κ, hstep.2.le.inner _ _ hin⟩
  · have hown' := (hown.splitOff (i := ⟨ℓ, k⟩) hip (by simpa using hpr) htok).unlockNode
      (a := a) (by simpa using ho)
    exact hown'
  · exact hroot
  · refine ⟨ℓ, rfl, ?_, ?_, hcan.valid, (keyNull_le κ).trans_lt hk1, hk2.trans_le hs.le⟩
    · simp [focus, nextGhost, TreeView.setNodeLock, TreeView.splitOff]
    · simp [focus, nextGhost, TreeView.setNodeLock, TreeView.splitOff]

include hξ in
theorem nodeSplit_outline {top : Bool} (ho : o.node = none) (hpr : o.priv = [])
    (htk : o.tok = false) (hip : (o.entered bottom).ipend = none)
    (hpar : ∀ f, ξ f → top = false → ∃ c κ, f.view.inner c = some ⟨ℓ + 1, κ⟩) :
    Outline (treeDisc E F M) t (nodeSplit E top a nd r)
      (Says t fun f => ξ f ∧ InnerWritten E t o upd r bottom ℓ a f (some nd)) fun r' =>
        Says t fun f => ξ f ∧ Parted M t f (o.entered bottom) a r' ℓ top ∧
          Due t f.view upd r' false (ℓ + 1) := by
  refine Outline.mono (R := fun x => ∃ n, Says t (fun f => ξ f ∧
    Entering t f { o with node := some a } upd r bottom ℓ a n) x ∧
      prepare E bottom upd n = some nd ∧ nd.insert E.hash r = none)
    (Outline.of_exists fun n => ?_) fun x _ hx => ?_
  swap
  · obtain ⟨hx, n, hent, hn⟩ := hx
    exact ⟨n, ⟨hx, hent⟩, hn⟩
  refine Outline.of_fact (φ := (prepare E bottom upd n = some nd ∧ nd.insert E.hash r = none) ∧
    nd.Wf ∧ r.valid = true) (fun x hi hx => ⟨hx.2, ?_⟩) fun hfacts => ?_
  · obtain ⟨⟨-, hent⟩, hprep, -⟩ := hx
    obtain ⟨_, _, _, _, nd', _, hnd, hcan, _⟩ := hent.enter hi
    rw [hprep] at hnd
    cases hnd
    exact ⟨hcan.wf, hcan.valid⟩
  obtain ⟨⟨hprep, hins⟩, hw, hv⟩ := hfacts
  obtain ⟨hfull, hnew⟩ := hw.refused hv hins
  have htol : Tolerant E fun f => ξ f ∧ Due t f.view upd r bottom ℓ ∧ Covers f ℓ r.key a n :=
    hab.tolerant.and (.and .due .covers)
  refine Outline.cmd_bind False.elim (R := fun b => Says t fun f => ξ f ∧
      Entering t f { o with node := some a, priv := [b] } upd r bottom ℓ a n)
    (fun b => (hξ.and (.entering rfl)).stable)
    ((alloc_rule (o := { o with node := some a }) htol (fun f hf => hop f hf.1)
      fun m => m.inner a = some n).imp
      (fun x hx => ?_) fun b x hx => ?_) fun b => ?_
  · obtain ⟨⟨hx, hent⟩, -⟩ := hx
    exact ⟨⟨hx, hent.due, hent.covers⟩, hent.held⟩
  · obtain ⟨⟨hx, hd, hcov⟩, hown, hn, -⟩ := hx
    rw [hpr] at hown
    exact ⟨hx, hd, ⟨hown, hn⟩, hcov⟩
  obtain ⟨origin, sibling, k, hsplit, hsp⟩ := splitNode_spec (E := E) hw hfull hnew hv b
  refine Outline.of_fact (φ := a ≠ b) (fun x hi hx => hx.2.ne_priv hi (by simp)) fun hne => ?_
  simp only [hsplit]
  refine Outline.cmd_bind False.elim (R := fun _ => Says t fun f => (ξ f ∧
      Entering t f { o with node := some a, priv := [b] } upd r bottom ℓ a n) ∧
        f.mem.inner b = some sibling) (fun _ => ?_)
    ((privNode_rule (o := { o with node := some a, priv := [b] }) htol (fun f hf => hop f hf.1)
      (θ := fun m => m.inner a = some n)
      (η := fun m => m.inner a = some n ∧ m.inner b = some sibling) (by simp) hsp.sibling_lock ?_
      fun m hm => ?_).imp
      (fun x hx => ?_) fun _ x hx => ?_) fun _ => ?_
  · refine Enduring.stable ?_
    rintro u f f' hu hi ⟨hf, hb⟩
    have hpriv := (hf.2.held.1.priv b).mpr (by simp)
    exact ⟨hξ.and (.entering rfl) u f f' hu hi hf,
      (hi.rel.mine b t hu.symm hpriv).2.2.trans hb⟩
  · intro hroot
    rw [hsp.sibling_hdr] at hroot
    cases hroot
  · exact ⟨(Function.update_of_ne hne ..).trans hm, Function.update_self ..⟩
  · exact ⟨⟨hx.1, hx.2.due, hx.2.covers⟩, hx.2.held⟩
  · obtain ⟨⟨hx, hd, hcov⟩, hown, hn, hb⟩ := hx
    exact ⟨⟨hx, hd, ⟨hown, hn⟩, hcov⟩, hb⟩
  refine Outline.bind (Outline.cmd False.elim (fun _ => ?_) (writeOrigin_rule hab hop rfl ?_ rfl htk
    hprep hnew hsp hpar)) fun _ => Outline.pure fun x _ hx => ?_
  · exact (hξ.and (.and .parted (.due _ _ _ _))).stable
  · cases bottom <;> exact hip
  · have he : { ({ o with node := some a, priv := [b] } : Holding).entered bottom with
        node := none, priv := [] } = o.entered bottom := by
      cases bottom <;> simp [Holding.entered, ← ho, ← hpr]
    rwa [he] at hx

end Split

/-! ## `update_root` -/

/-- The record of a node of the level `ℓ` is due one level above, where `a` has been split. -/
structure Raising (t : Tid) (f : Focus) (a : Gaddr) (r : Record) (ℓ : Nat) : Prop where
  inner : f.view.inner r.addr = some ⟨ℓ, r.key⟩
  pend : f.view.ipend r.addr = some t
  valid : r.valid = true
  lt : KeyNull < r.key
  lt_max : r.key < KeyMax
  origin : ∃ κ, f.view.inner a = some ⟨ℓ, κ⟩

theorem Enduring.raising : Enduring E M t fun f => Raising t f a r ℓ := by
  intro u f f' hu hi h
  obtain ⟨κ, hin⟩ := h.origin
  exact { h with
    inner := hi.rel.le.inner _ _ h.inner
    pend := (hi.rel.ipend _ _ hu.symm).mpr h.pend
    origin := ⟨κ, hi.rel.le.inner _ _ hin⟩ }

theorem Tolerant.raising : Tolerant E fun f => Raising t f a r ℓ := by
  intro f f' hn h
  obtain ⟨κ, hin⟩ := h.origin
  exact { h with
    inner := hn.inner ▸ h.inner
    pend := hn.ipend ▸ h.pend
    origin := ⟨κ, hn.inner ▸ hin⟩ }

/-- The root does not change while a client has locked it, nor while it has the token. -/
theorem Enduring.heldRoot {p : Prop} (ho : p → o.root = true ∨ o.tok = true) :
    Enduring E M t fun f => Owned t f.view o ∧ (p → f.mem.root = a) := by
  rintro u f f' hu hi ⟨hown, hroot⟩
  refine ⟨hown.stable hi.rel hu.symm, fun hp => ?_⟩
  rw [hi.rel.root t hu.symm ((ho hp).imp hown.root.mpr hown.tok.mpr)]
  exact hroot hp

/-- Nor does a node at a private address. -/
theorem Enduring.privInner (hb : b ∈ o.priv) :
    Enduring E M t fun f => Owned t f.view o ∧ f.mem.inner b = some n := by
  rintro u f f' hu hi ⟨hown, hn⟩
  refine ⟨hown.stable hi.rel hu.symm, ?_⟩
  rw [(hi.rel.mine b t hu.symm ((hown.priv b).mpr hb)).2.2]
  exact hn

theorem setRootLock_holds (v : Tid) (own : Option Tid) :
    (g.setRootLock own).Holds v .root ↔ own = some v := Iff.rfl

theorem setRootLock_holds_of_ne (v : Tid) (own : Option Tid) (w : LockWord) (hw : w ≠ .root) :
    (g.setRootLock own).Holds v w ↔ g.Holds v w := by
  cases w with
  | root => exact absurd rfl hw
  | _ => exact Iff.rfl

theorem Owned.lockRoot (h : Owned t g o) :
    Owned t (g.setRootLock (some t)) { o with root := true } :=
  { h with root := by simp [TreeView.setRootLock] }

theorem Owned.unlockRoot (h : Owned t g o) : Owned t (g.setRootLock none) { o with root := false } :=
  { h with root := by simp [TreeView.setRootLock] }

/-- What the client holds when the root pointer has been set. -/
theorem Owned.raise {tok : Option Tid} (h : Owned t g o) (hp : o.priv = [b])
    (hr : o.ipend = some r.addr) (htok : tok ≠ some t) :
    Owned t (g.raise b a r tok) { o with ipend := none, tok := false, priv := [] } := by
  refine { h with ipend := fun d => ?_, tok := by simpa [TreeView.raise] using htok,
                  priv := fun d => ?_ }
  · by_cases hd : d = r.addr
    · subst hd
      simp [TreeView.raise]
    · have hno : g.ipend d ≠ some t := by
        rw [ne_eq, h.ipend d, hr]
        exact fun he => hd (Option.some.inj he).symm
      simp [TreeView.raise, Function.update_of_ne hd, hno]
  · by_cases hd : d = b
    · subst hd
      simp [TreeView.raise]
    · have hno : g.priv d ≠ some t := by
        rw [ne_eq, h.priv d, hp]
        simp [hd]
      simp [TreeView.raise, Function.update_of_ne hd, hno]

section RootLock

variable {ζ : Focus → Prop} (hζ : Enduring E M t ζ) (htol : Tolerant E ζ)
  (hop : ∀ f, ζ f → f.op ≠ none)
include hζ htol hop

/-- The root is locked. With the token, it is known which node it is. -/
theorem lockRoot_outline (a : Gaddr) :
    Outline (treeDisc E F M) t (lockWord .root)
      (Says t fun f => ζ f ∧ Owned t f.view o ∧ (o.tok = true → f.mem.root = a)) fun _ =>
        Says t fun f => ζ f ∧ Owned t f.view { o with root := true } ∧
          (o.tok = true → f.mem.root = a) := by
  refine lockWord_outline (hζ.and (.heldRoot Or.inr)) (hζ.and (.heldRoot fun _ => Or.inl rfl))
    (fun f hf => hop f hf.1) fun x hi hx hbit => ?_
  obtain ⟨hx, hown, hroot⟩ := hx
  obtain ⟨op, hop'⟩ := Option.ne_none_iff_exists'.mp (hop _ hx)
  obtain ⟨-, hstep⟩ := hi.tree.lockRoot hbit t
  refine ⟨x.ghost.view.setRootLock (some t), stepOk_index hop' hstep rfl (fun _ _ h => h) rfl rfl
    rfl (fun _ => rfl) (held_of hi (fun w => rfl) (fun v => setRootLock_holds v _)
      fun v w hw => setRootLock_holds_of_ne v _ w hw) trivial rfl, ?_, hown.lockRoot, hroot⟩
  exact htol _ _ ⟨focus_next rfl hstep.2 rfl, rfl, rfl, rfl, rfl⟩ hx

omit hζ in
theorem unlockRoot_rule (ho : o.root = true) :
    (treeDisc E F M).Cmd t (.release .root) (Says t fun f => ζ f ∧ Owned t f.view o) fun _ =>
      Says t fun f => ζ f ∧ Owned t f.view { o with root := false } := by
  refine cmd_rule fun x _ m hi hx _ he => ?_
  obtain ⟨hx, hown⟩ := hx
  have hm : x.mem.setLockBit false .root = m := congrArg Prod.snd (Option.some.inj he)
  subst hm
  obtain ⟨op, hop'⟩ := Option.ne_none_iff_exists'.mp (hop _ hx)
  have hmine := hown.root.mpr ho
  have hstep := hi.tree.unlockRoot hmine
  refine ⟨x.ghost.view.setRootLock none, stepOk_index hop' hstep rfl (fun _ _ h => h) rfl rfl rfl
    (fun _ => rfl) (held_of hi (fun w => rfl) (fun v => setRootLock_holds v _)
      fun v w hw => setRootLock_holds_of_ne v _ w hw) hmine rfl, ?_, hown.unlockRoot⟩
  exact htol _ _ ⟨focus_next rfl hstep.2 rfl, rfl, rfl, rfl, rfl⟩ hx

end RootLock

section Raise

variable {ξ : Focus → Prop} (hξ : Enduring E M t ξ) (hab : Abiding E ξ)
  (hop : ∀ f, ξ f → f.op ≠ none)
include hab hop

theorem writeRoot_rule (hor : o.root = true) (hip : o.ipend = some r.addr) (hpr : o.priv = [b])
    (htk : o.tok = true ↔ M.rooted) (hw : n.Wf)
    (hrecs : n.recs = [.make KeyNull a .Null 0 0, r])
    (hh : n.hdr = { rightAddr := E.stray b, isRoot := true })
    (hc : n.checkConsistent E.hash = true) (hl : n.lock = false) :
    (treeDisc E F M).Cmd t (.writeRoot b)
      (Says t fun f => (ξ f ∧ Raising t f a r ℓ) ∧ Owned t f.view o ∧
        f.mem.root = a ∧ f.mem.inner b = some n) fun _ =>
        Says t fun f => ξ f ∧ Owned t f.view { o with ipend := none, tok := false, priv := [] } := by
  refine cmd_rule fun x _ m hi hx _ he => ?_
  obtain ⟨⟨hx, hr⟩, hown, hroot, hmb⟩ := hx
  have hm : { x.mem with root := b } = m := congrArg Prod.snd (Option.some.inj he)
  subst hm
  obtain ⟨op, hop'⟩ := Option.ne_none_iff_exists'.mp (hop _ hx)
  obtain ⟨κ, hin⟩ := hr.origin
  have hroot : x.mem.root = a := hroot
  subst hroot
  -- the node that was split is the root, so its level is that of the root
  have hlev : ℓ = x.ghost.view.top :=
    (NodeView.mk.inj (Option.some.inj (hin.symm.trans hi.tree.root.inner))).1
  subst hlev
  obtain ⟨tok, hne, htok⟩ : ∃ tok, tok ≠ some t ∧
      ((M.rooted ∧ x.ghost.view.rtok = some t ∧ tok = none ∧
          ∀ d, x.ghost.view.priv d = some t → d = b) ∨
        (¬ M.rooted ∧ tok = x.ghost.view.rtok)) := by
    by_cases hM : M.rooted
    · refine ⟨none, (Option.some_ne_none t).symm,
        Or.inl ⟨hM, hown.tok.mpr (htk.mpr hM), rfl, fun d hd => ?_⟩⟩
      have := (hown.priv d).mp hd
      rw [hpr] at this
      simpa using this
    · exact ⟨_, fun h => hM (htk.mp (hown.tok.mp h)), Or.inr ⟨hM, rfl⟩⟩
  have hmine := hown.root.mpr hor
  have hstep := TreeInv.raise hi.tree ((hown.priv b).mpr (by rw [hpr]; simp)) hr.inner hr.valid
    hr.lt hr.lt_max hw hrecs hh hc hl hmb htok hmine hr.pend
  refine ⟨_, stepOk_index hop' hstep rfl (fun _ _ h => h) rfl rfl rfl (fun _ => rfl)
    (fun w v => ?_) hmine rfl, hab _ _ (focus_next rfl hstep.2 rfl) hx, hown.raise hpr hip hne⟩
  cases w <;> exact hi.held _ v

include hξ in
theorem updateRoot_outline :
    Outline (treeDisc E F M) t (updateRoot E r a)
      (Says t fun f => ξ f ∧ Parted M t f {} a r ℓ true ∧ Due t f.view upd r false (ℓ + 1)) fun _ =>
        Says t fun f => ξ f ∧ Owned t f.view {} := by
  have hζ : Enduring E M t fun f => ξ f ∧ Raising t f a r ℓ := hξ.and .raising
  have htol : Tolerant E fun f => ξ f ∧ Raising t f a r ℓ := hab.tolerant.and .raising
  refine Outline.mono (R := fun x => ∃ tok : Bool, Says t (fun f => (ξ f ∧ Raising t f a r ℓ) ∧
    Owned t f.view { ipend := some r.addr, tok := tok } ∧ (tok = true → f.mem.root = a)) x ∧
    (tok = true ↔ M.rooted)) (Outline.of_exists fun tok => ?_) fun x _ hx => ?_
  swap
  · obtain ⟨hx, ⟨hin, tok, hown, hroot, htok⟩, ℓ', hℓ, hr, hp, hv, h1, h2⟩ := hx
    obtain rfl : ℓ = ℓ' := by omega
    exact ⟨tok, ⟨⟨hx, hr, hp, hv, h1, h2, hin⟩, hown, fun h => (hroot h).2.2⟩,
      fun h => (hroot h).2.1, htok rfl⟩
  refine Outline.of_fact (φ := tok = true ↔ M.rooted) (fun _ _ hx => hx.2) fun htok => ?_
  refine Outline.mono (R := Says t fun f => (ξ f ∧ Raising t f a r ℓ) ∧
    Owned t f.view { ipend := some r.addr, tok := tok } ∧ (tok = true → f.mem.root = a)) ?_
    fun _ _ hx => hx.1
  refine Outline.bind (lockRoot_outline hζ htol (fun f hf => hop f hf.1) a) fun _ => ?_
  refine Outline.cmd_bind False.elim (R := fun root => Says t fun f => ((ξ f ∧ Raising t f a r ℓ) ∧
      Owned t f.view { root := true, ipend := some r.addr, tok := tok } ∧
      (True → f.mem.root = root)) ∧ (tok = true → root = a))
    (fun root => ((hζ.and (.heldRoot fun _ => Or.inl rfl)).and (.const _)).stable)
    (read_rule rfl (fun f hf => hop f hf.1.1) fun x root hi hx he => ?_) fun root => ?_
  · have hroot : x.mem.root = root := congrArg Prod.fst (Option.some.inj he)
    exact ⟨⟨hx.1, hx.2.1, fun _ => hroot⟩, fun h => hroot.symm.trans (hx.2.2 h)⟩
  refine Outline.assert_bind (fun x _ hx hne hM => ?_) fun heq => ?_
  · have hroot := hx.2 (htok.mpr hM)
    simp [hroot] at hne
  obtain rfl : a = root := by simpa using heq
  refine Outline.cmd_bind False.elim (R := fun b => Says t fun f => (ξ f ∧ Raising t f a r ℓ) ∧
      Owned t f.view { root := true, ipend := some r.addr, tok := tok, priv := [b] } ∧
      (True → f.mem.root = a))
    (fun b => (hζ.and (.heldRoot fun _ => Or.inl rfl)).stable)
    ((alloc_rule htol (fun f hf => hop f hf.1) fun m => m.root = a).imp
      (fun x hx => ⟨hx.1.1, hx.1.2.1, hx.1.2.2 trivial⟩)
      fun b x hx => ⟨hx.1, hx.2.1, fun _ => hx.2.2.1⟩) fun b => ?_
  refine Outline.of_fact (φ := r.valid = true ∧ KeyNull < r.key)
    (fun x _ hx => ⟨hx.1.2.valid, hx.1.2.lt⟩) fun hr => ?_
  obtain ⟨n, hn, hw, hrecs, hh, hc, hl⟩ := newRoot_spec (E := E) (a := b) (b := a) hr.1 hr.2
  simp only [hn]
  refine Outline.cmd_bind False.elim (R := fun _ => Says t fun f => (ξ f ∧ Raising t f a r ℓ) ∧
      (Owned t f.view { root := true, ipend := some r.addr, tok := tok, priv := [b] } ∧
        (True → f.mem.root = a)) ∧
      Owned t f.view { root := true, ipend := some r.addr, tok := tok, priv := [b] } ∧
        f.mem.inner b = some n)
    (fun _ => (hζ.and (.and (.heldRoot fun _ => Or.inl rfl) (.privInner (by simp)))).stable)
    ((privNode_rule htol (fun f hf => hop f hf.1) (θ := fun m => m.root = a)
      (η := fun m => m.root = a ∧ m.inner b = some n) (by simp) hl (fun _ => htok.mpr)
      fun m hm => ⟨hm, Function.update_self ..⟩).imp
      (fun x hx => ⟨hx.1, hx.2.1, hx.2.2 trivial⟩)
      fun _ x hx => ⟨hx.1, ⟨hx.2.1, fun _ => hx.2.2.1⟩, hx.2.1, hx.2.2.2⟩) fun _ => ?_
  refine Outline.cmd_bind False.elim (R := fun _ => Says t fun f => ξ f ∧
      Owned t f.view { root := true }) (fun _ => (hξ.and .owned).stable)
    ((writeRoot_rule (ℓ := ℓ)
      (o := { root := true, ipend := some r.addr, tok := tok, priv := [b] }) hab hop rfl rfl rfl htok
      hw hrecs hh hc hl).imp (fun x hx => ⟨hx.1, hx.2.1.1, hx.2.1.2 trivial, hx.2.2.2⟩)
      fun _ x hx => hx) fun _ => ?_
  exact Outline.cmd False.elim (fun _ => (hξ.and .owned).stable)
    (unlockRoot_rule hab.tolerant hop (o := { root := true }) rfl)

end Raise

/-! ## `inner_insert` -/

/-- The records that are still to be visited lead to the level where the record is due. -/
structure Inserting (t : Tid) (f : Focus) (upd : Record) (x : InsertState) : Prop where
  known : RootKnown f.view x.it
  cached : x.fromCache = true → x.isBottom = true
  done : x.uppers = [] → Owned t f.view {}
  todo : x.uppers ≠ [] → ∃ ℓ o, PathAt f.view ℓ x.uppers ∧
    Due t f.view upd x.innerRecord x.isBottom ℓ ∧ Owned t f.view o ∧ o.entered x.isBottom = {}

theorem Enduring.inserting {x : InsertState} : Enduring E M t fun f => Inserting t f upd x := by
  intro u f f' hu hi h
  refine ⟨h.known.mono hi.rel.le, h.cached, fun he => (h.done he).stable hi.rel hu.symm, fun he => ?_⟩
  obtain ⟨ℓ, o, hp, hd, hown, ho⟩ := h.todo he
  exact ⟨ℓ, o, hp.mono hi.rel.le, Enduring.due (E := E) (M := M) _ _ _ _ u f f' hu hi hd,
    hown.stable hi.rel hu.symm, ho⟩

/-- What is known above the level where the record is due. -/
def Above (g : TreeView) (ℓ : Nat) (path : List Record) (it : InnerTree) : Prop :=
  PathAt g (ℓ + 1) path ∧ RootKnown g it

theorem Above.mono (h : Above g ℓ path it) (hle : g.Le g') : Above g' ℓ path it :=
  ⟨h.1.mono hle, h.2.mono hle⟩

theorem Above.parent (h : Above g ℓ path it) (hp : path.isEmpty = false) :
    ∃ c κ, g.inner c = some ⟨ℓ + 1, κ⟩ := by
  cases path with
  | nil => cases hp
  | cons r path =>
    obtain ⟨⟨κ, hin⟩, -⟩ := h.1
    exact ⟨r.addr, κ, hin⟩

section Insert

variable {ξ : Focus → Prop} (hξ : Enduring E M t ξ) (hab : Abiding E ξ)
  (hop : ∀ f, ξ f → f.op ≠ none)
include hξ hab hop

/-- A node on a path from the cache has no room: the path is made new from the root. -/
theorem repath_outline {α : Type} {p : Record × InnerTree → TreeProg α}
    {Q : α → TreeWorld E F → Prop} (hk : M.bounded → k < KeyMax) (it : InnerTree)
    (hp : ∀ z, Outline (treeDisc E F M) t (p z) (Says t fun f =>
      (((ξ f ∧ RootKnown f.view it) ∧ Due t f.view upd r bottom ℓ) ∧
        Owned t f.view { o with node := none }) ∧ Located f.view k z.1 z.2) Q) :
    Outline (treeDisc E F M) t (do
        verb (.release (.node a))
        let z ← findLeaf E F k it
        p z)
      (Says t fun f => (ξ f ∧ RootKnown f.view it) ∧ InnerWritten E t o upd r bottom ℓ a f (some nd))
      Q := by
  have hχ : Enduring E M t fun f => ((ξ f ∧ RootKnown f.view it) ∧ Due t f.view upd r bottom ℓ) ∧
      Owned t f.view { o with node := none } :=
    ((hξ.and (.know fun _ _ hle h => RootKnown.mono h hle)).and (.due _ _ _ _)).and .owned
  have htol : Tolerant E fun f => (ξ f ∧ RootKnown f.view it) ∧ Due t f.view upd r bottom ℓ :=
    (hab.and (.know fun _ _ hle h => RootKnown.mono h hle)).tolerant.and .due
  refine Outline.cmd_bind False.elim (fun _ => hχ.stable)
    ((unlockNode_rule htol (fun f hf => hop f hf.1.1) (o := { o with node := some a }) rfl).imp
      (fun x hx => ?_) fun _ _ hx => hx) fun _ => ?_
  · obtain ⟨hx, n, hent, -⟩ := hx
    exact ⟨⟨hx, hent.due⟩, hent.held.1⟩
  · exact Outline.bind ((findLeaf_outline hχ (fun f hf => hop f hf.1.1.1) hk it).mono
      fun x _ hx => ⟨hx, hx.1.1.2⟩) hp

theorem innerInsert_outline (hk : M.bounded → k < KeyMax) (fromCache : Bool) (it : InnerTree)
    (ho : o.entered true = {}) :
    Outline (treeDisc E F M) t (innerInsert E F k r upd fromCache it)
      (Says t fun f => ξ f ∧ (RootKnown f.view it ∧ it.path.tail ≠ [] ∧
        PathAt f.view 0 it.path.tail) ∧ Due t f.view upd r true 0 ∧ Owned t f.view o) fun it' =>
        Says t fun f => ξ f ∧ Owned t f.view {} ∧ RootKnown f.view it' := by
  refine Outline.loop id (J := fun x => Says t fun f => ξ f ∧ Inserting t f upd x)
    (fun x _ hx => ?_) (fun x => (hξ.and .inserting).stable) fun x => ?_
  · obtain ⟨hx, ⟨hroot, hne, hp⟩, hd, hown⟩ := hx
    exact ⟨hx, hroot, fun _ => rfl, fun he => absurd he hne, fun _ => ⟨0, o, hp, hd, hown, ho⟩⟩
  obtain ⟨uppers, isBottom, ir, fromCache, it⟩ := x
  cases uppers with
  | nil => exact Outline.pure fun x _ hx => ⟨hx.1, hx.2.done rfl, hx.2.known⟩
  | cons upper uppers =>
    refine Outline.mono (R := fun x => ∃ ℓ o, Says t (fun f =>
      ((ξ f ∧ Above f.view ℓ uppers it) ∧ Due t f.view upd ir isBottom ℓ) ∧ Owned t f.view o ∧
        OnLevel E f.view ℓ upper.addr) x ∧ o.entered isBottom = {} ∧
        (fromCache = true → isBottom = true))
      (Outline.of_exists fun ℓ => Outline.of_exists fun o => ?_) fun x _ hx => ?_
    swap
    · obtain ⟨ℓ, o, ⟨hin, hp⟩, hd, hown, ho⟩ := hx.2.todo (List.cons_ne_nil _ _)
      exact ⟨ℓ, o, ⟨⟨⟨hx.1, hp, hx.2.known⟩, hd⟩, hown, Or.inl hin⟩, ho, hx.2.cached⟩
    refine Outline.of_fact (φ := o.entered isBottom = {} ∧ (fromCache = true → isBottom = true))
      (fun _ _ hx => hx.2) fun hfacts => ?_
    obtain ⟨ho, hcb⟩ := hfacts
    have hnode : o.node = none := by rw [← Holding.entered_node o isBottom, ho]
    have hξ' : Enduring E M t fun f => ξ f ∧ Above f.view ℓ uppers it :=
      hξ.and (.know fun _ _ hle h => Above.mono h hle)
    have hab' : Abiding E fun f => ξ f ∧ Above f.view ℓ uppers it :=
      hab.and (.know fun _ _ hle h => Above.mono h hle)
    refine Outline.bind ((innerWrite_outline hξ' hab' (fun f hf => hop f hf.1) hnode
      upper.addr).mono fun _ _ hx => hx.1) fun y => ?_
    obtain ⟨a, w⟩ := y
    cases w with
    | none =>
      refine Outline.pure fun x _ hx => ⟨hx.1.1, ?_, hx.1.2.2⟩
      rw [← ho]
      exact hx.2
    | some nd =>
      refine Outline.ite (fun hc => ?_) fun hc => ?_
      · obtain rfl := hcb hc
        refine (repath_outline hξ hab hop hk it fun z => Outline.pure fun x _ hx => ?_).mono
          fun x _ hx => ⟨⟨hx.1.1, hx.1.2.2⟩, hx.2⟩
        obtain ⟨⟨⟨⟨hx, -⟩, hd⟩, hown⟩, hloc⟩ := hx
        obtain ⟨r', rest, hpath, hne, hrest⟩ := hloc.path
        have hℓ : ℓ = 0 := hd.1
        subst hℓ
        refine ⟨hx, hloc.root, (fun h => by cases h), fun he => ?_, fun _ => ⟨0, o, ?_, hd, ?_, ho⟩⟩
        · simp only [hpath, List.tail_cons] at he
          exact absurd he hne
        · simp only [hpath, List.tail_cons]
          exact hrest
        · have he : ({ o with node := none } : Holding) = o := by rw [← hnode]
          exact he ▸ hown
      · have hpriv : o.priv = [] := by rw [← Holding.entered_priv o isBottom, ho]
        have htok : o.tok = false := by rw [← Holding.entered_tok o isBottom, ho]
        refine Outline.bind (nodeSplit_outline hξ' hab' (fun f hf => hop f hf.1) hnode hpriv htok
          (by rw [ho]) fun f hf => hf.2.parent) fun r' => ?_
        rw [ho]
        refine Outline.ite_bind (a := ()) (R := fun _ => Says t fun f => ξ f ∧
          Inserting t f upd ⟨uppers, false, r', fromCache, it⟩) (fun he => ?_) (fun he => ?_)
          fun _ => Outline.pure fun x _ hx => hx
        · obtain rfl : uppers = [] := by simpa using he
          refine ((updateRoot_outline hξ' hab' (fun f hf => hop f hf.1)).mono
            fun _ _ hx => hx).post fun _ x _ hx => ?_
          exact ⟨hx.1.1, hx.1.2.2, fun h => absurd h hc, fun _ => hx.2, fun h => absurd rfl h⟩
        · intro x _ hx
          have hne : uppers ≠ [] := by simpa using he
          obtain ⟨⟨hx, habove⟩, ⟨-, tok, hown, htop, -⟩, hd⟩ := hx
          have htok : tok = false := by
            by_contra h
            exact he (htop (by simpa using h)).1
          subst htok
          exact ⟨hx, habove.2, fun h => absurd h hc, fun h => absurd h hne,
            fun _ => ⟨ℓ + 1, _, habove.1, hd, hown, rfl⟩⟩

end Insert

end DMTree
