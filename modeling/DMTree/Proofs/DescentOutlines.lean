import DMTree.Proofs.TreeRules

/-!
# The descent to a leaf

Outlines of the functions that take locks and of those that find the record of a leaf: `find_leaf`
from the root, and `read_bottom_inner` from a bottom node that the cache knows. A node is read without
a lock; what its image says about children and right neighbours stays true for ever.
-/

namespace DMTree

open Conc Segments

variable {E : Env} {F : Flags} {M : Mode} {t u : Tid} {g g' : TreeView} {a b : Gaddr}
  {i : NodeView} {n : InnerNode} {k : Key} {r : Record} {it it' : InnerTree} {path : List Record}
  {ℓ : Nat} {o : Holding} {op : TreeOp} {f f' : Focus}

/-! ## Locks -/

/-- A lock is taken in the end. -/
theorem lockWord_outline {w : LockWord} {φ ψ : Focus → Prop} (hφ : Enduring E M t φ)
    (hψ : Enduring E M t ψ) (hop : ∀ f, φ f → f.op ≠ none)
    (h : ∀ x, WorldInv (E := E) (F := F) M x → φ (focus t x) → x.mem.lockBit w = some false →
      ∃ g', StepOk M t x (x.mem.setLockBit true w) g' (.act t (.cas w) true) ∧
        ψ (focus t ⟨x.mem.setLockBit true w, x.log ++ [.act t (.cas w) true], nextGhost x g'⟩)) :
    Outline (treeDisc E F M) t (lockWord w) (Says t φ) fun _ => Says t ψ := by
  have hcmd : (treeDisc E F M).Cmd t (.cas w) (Says t φ) fun r =>
      Says t fun f => if r = true then ψ f else φ f := by
    refine cmd_rule (c := .cas w) (ψ := fun r f => if r = true then ψ f else φ f)
      fun x r m hi hx _ he => ?_
    obtain ⟨b, hb, hres⟩ := Option.map_eq_some_iff.mp he
    cases b with
    | false =>
      rw [if_neg Bool.false_ne_true] at hres
      have hr : true = r := congrArg Prod.fst hres
      have hm : x.mem.setLockBit true w = m := congrArg Prod.snd hres
      subst hr hm
      obtain ⟨g', hok, hψ'⟩ := h x hi hx hb
      exact ⟨g', hok, by rwa [if_pos rfl]⟩
    | true =>
      rw [if_pos rfl] at hres
      have hr : false = r := congrArg Prod.fst hres
      have hm : x.mem = m := congrArg Prod.snd hres
      subst hr hm
      obtain ⟨op, hop'⟩ := Option.ne_none_iff_exists'.mp (hop _ hx)
      have hplain : isPlain (.act t (.cas w) false) = true := by cases w <;> rfl
      refine ⟨x.ghost.view, stepOk_same hi hop' (hi.tree.idle t) ?_ hplain ?_ ?_ trivial
        (fun _ _ => rfl) (fun _ _ _ => Or.inl), ?_⟩
      · intro v c n' heq
        cases heq
      · intro v
        cases w <;> rfl
      · intro c
        cases w <;> rfl
      · rw [focus_same hi (hop _ hx) hplain, if_neg Bool.false_ne_true]
        exact hx
  refine Outline.loop id (J := fun _ => Says t φ) (fun x _ hx => hx) (fun _ => hφ.stable)
    fun retry => Outline.cmd_bind False.elim (fun b => ?_) hcmd fun b => ?_
  · cases b with
    | false => simpa using hφ.stable
    | true => simpa using hψ.stable
  · cases b with
    | true => exact Outline.pure fun x _ hx => by simpa using hx
    | false =>
      refine Outline.ite (fun h => absurd h Bool.false_ne_true) fun _ => ?_
      refine Outline.ite (fun _ => Outline.fail fun _ _ _ => trivial) fun _ => ?_
      exact Outline.pure fun x _ hx => by simpa using hx

/-! ## Knowledge about inner nodes -/

/-- The local copy of the root address is that of a node that starts the key space. -/
def RootKnown (g : TreeView) (it : InnerTree) : Prop :=
  it.localRootAddr = .Null ∨ ∃ ℓ, g.inner it.localRootAddr = some ⟨ℓ, KeyNull⟩

theorem RootKnown.mono (h : RootKnown g it) (hle : g.Le g') : RootKnown g' it :=
  h.imp_right fun ⟨ℓ, hi⟩ => ⟨ℓ, hle.inner _ _ hi⟩

/-- The nodes of a path, the last one of which is on the level `ℓ`. -/
def PathAt (g : TreeView) : Nat → List Record → Prop
  | _, [] => True
  | ℓ, r :: path => (∃ κ, g.inner r.addr = some ⟨ℓ, κ⟩) ∧ PathAt g (ℓ + 1) path

theorem PathAt.mono (h : PathAt g ℓ path) (hle : g.Le g') : PathAt g' ℓ path := by
  induction path generalizing ℓ with
  | nil => trivial
  | cons r path ih =>
    obtain ⟨⟨κ, hκ⟩, h⟩ := h
    exact ⟨⟨κ, hle.inner _ _ hκ⟩, ih h⟩

/-- What the image of the node `i` tells, however old it is. -/
structure NodeSeen (E : Env) (g : TreeView) (i : NodeView) (n : InnerNode) : Prop where
  snap : SnapNode E g n
  min : n.hdr.minKey = i.min
  le : n.hdr.maxKey ≤ KeyMax
  bottom : n.hdr.nextIsLeaf = decide (i.lev = 0)
  child : ∀ ℓ k, i.lev = ℓ + 1 → n.checkHdr k = true →
    g.inner (n.search E.under k).addr = some ⟨ℓ, (n.search E.under k).key⟩ ∧
      (n.search E.under k).key ≤ k
  right : n.hdr.maxKey < KeyMax → g.inner n.hdr.rightAddr = some ⟨i.lev, n.hdr.maxKey⟩
  stray : n.hdr.maxKey = KeyMax → ∀ j, E.alloc j ≠ n.hdr.rightAddr

theorem NodeSeen.mono (h : NodeSeen E g i n) (hle : g.Le g') : NodeSeen E g' i n :=
  ⟨h.snap.mono hle, h.min, h.le, h.bottom,
    fun ℓ k hl hk => ⟨hle.inner _ _ (h.child ℓ k hl hk).1, (h.child ℓ k hl hk).2⟩,
    fun hm => hle.inner _ _ (h.right hm), h.stray⟩

theorem TreeInv.nodeSeen {m : Cluster} (h : TreeInv E M m g) (hs : NodeStored E g a i n) :
    NodeSeen E g i n where
  snap := h.snapNode hs
  min := hs.min
  le := hs.le
  bottom := hs.bottom
  child := by
    intro ℓ k hl hk
    obtain ⟨⟨l₁, l₂, hl', hle, -⟩, -, -⟩ := hs.search_floor (h.levels.sorted _) hk
    have hseg := h.levels.seg i.lev
    rw [hl'] at hseg
    have hrec := hseg.item.2
    rw [hl] at hrec
    exact ⟨hrec.2, hle⟩
  right := hs.right
  stray := hs.stray

/-- The address of a node is not `Null`. -/
theorem TreeInv.inner_ne_null {m : Cluster} (h : TreeInv E M m g) (ha : g.inner a = some i) :
    a ≠ .Null := by
  obtain ⟨n, hn, -⟩ := h.nodes.stored a i ha
  obtain ⟨j, -, rfl⟩ := h.alloc.inner a n hn
  exact E.alloc_ne_null j

/-! ## The root address -/

/-- `get_root_addr` -/
theorem getRootAddr_outline {χ : Focus → Prop} (hχ : Enduring E M t χ)
    (hop : ∀ f, χ f → f.op ≠ none) (it : InnerTree) :
    Outline (treeDisc E F M) t (getRootAddr it)
      (Says t fun f => χ f ∧ RootKnown f.view it) fun r =>
        Says t fun f => χ f ∧ r.2 = { it with localRootAddr := r.1 } ∧
          ∃ ℓ, f.view.inner r.1 = some ⟨ℓ, KeyNull⟩ := by
  unfold getRootAddr
  refine Outline.ite (fun h => ?_) fun h => ?_
  · refine Outline.pure fun x _ hx => ?_
    obtain ⟨hx, hroot⟩ := hx
    exact ⟨hx, rfl, hroot.resolve_left h⟩
  · have hlast : ∀ r : Gaddr, Enduring E M t fun f => χ f ∧
        ∃ ℓ, f.view.inner r = some ⟨ℓ, KeyNull⟩ := fun r =>
      hχ.and (.know (P := fun g => ∃ ℓ, g.inner r = some ⟨ℓ, KeyNull⟩) fun g g' hle h => by
        obtain ⟨ℓ, hi⟩ := h
        exact ⟨ℓ, hle.inner _ _ hi⟩)
    refine Outline.cmd_bind False.elim (fun r => (hlast r).stable) (read_rule rfl
      (fun f hf => hop f hf.1) fun x r hi hx he => ?_) fun r => ?_
    · have hr : x.mem.root = r := congrArg Prod.fst (Option.some.inj he)
      subst hr
      exact ⟨hx.1, x.ghost.view.top, hi.tree.root.inner⟩
    · refine Outline.bind (Q := fun _ => Says t fun f => χ f ∧
        ∃ ℓ, f.view.inner r = some ⟨ℓ, KeyNull⟩) (Outline.assert
          (fun x _ hx _ => hx) fun x hi hx hnull => ?_) fun _ => Outline.pure fun x _ hx => ?_
      · obtain ⟨-, ℓ, hr⟩ := hx
        have hne := hi.tree.inner_ne_null hr
        simp [hne] at hnull
      · exact ⟨hx.1, rfl, hx.2⟩

/-! ## The caches -/

variable {m : Cluster} {j : Nat}

/-- Entries of a cache are emptied. -/
theorem CacheOk.emptied {c : DMCache} (h : CacheOk E M m g) (he : (m.node j).cache.Emptied c)
    (hw : ∀ N, (m.node j).cache.Wf N → c.Wf N) : CacheOk E M (m.setCache j c) g := by
  have hnode : ∀ d, d ≠ j → (m.setCache j c).node d = m.node d := fun d hd =>
    Function.update_of_ne hd ..
  have hself : (m.setCache j c).node j = { m.node j with cache := c } := Function.update_self ..
  refine ⟨fun d e hd => ?_, fun d e hd b hb => ?_, fun hM d => ?_⟩
  · by_cases hdj : d = j
    · subst hdj
      rw [hself] at hd
      obtain ⟨e', he', hk, hr, -⟩ := he.entry e hd
      rw [← hk, ← hr]
      exact h.remote d e' he'
    · rw [hnode d hdj] at hd
      exact h.remote d e hd
  · by_cases hdj : d = j
    · subst hdj
      rw [hself] at hd ⊢
      obtain ⟨e', he', -, -, hn⟩ := he.entry e hd
      rw [he.buffer]
      exact h.node d e' he' b (hn b hb)
    · rw [hnode d hdj] at hd ⊢
      exact h.node d e hd b hb
  · by_cases hdj : d = j
    · subst hdj
      rw [hself]
      exact hw _ (h.wf hM d)
    · rw [hnode d hdj]
      exact h.wf hM d

theorem setCache_locks {c : DMCache} (i : Nat) :
    ((m.setCache j c).node i).locks = (m.node i).locks := by
  by_cases hij : i = j
  · subst hij
    simp [Cluster.setCache]
  · simp [Cluster.setCache, Function.update_of_ne hij]

theorem setCache_copies {c : DMCache} {P : Nat → FPTable → Prop} (i d : Nat)
    (tab : FPTable) (h : ((m.setCache j c).node i).localFp d = some tab) :
    (m.node i).localFp d = some tab ∨ P d tab := by
  left
  by_cases hij : i = j
  · subst hij
    simpa [Cluster.setCache] using h
  · simpa [Cluster.setCache, Function.update_of_ne hij] using h

/-- A bottom node is cached. -/
theorem CacheOk.insertCache {c : DMCache} (h : CacheOk E M m g)
    (hc : (m.node j).cache.insertCache r n = some c) (hr : g.inner r.addr = some ⟨0, n.hdr.minKey⟩)
    (hs : SnapNode E g n) (hb : n.hdr.nextIsLeaf = true) (hk : M.keyed → r.key = n.hdr.minKey) :
    CacheOk E M (m.setCache j c) g := by
  have hnode : ∀ d, d ≠ j → (m.setCache j c).node d = m.node d := fun d hd =>
    Function.update_of_ne hd ..
  have hself : (m.setCache j c).node j = { m.node j with cache := c } := Function.update_self ..
  refine ⟨fun d e hd => ?_, fun d e hd b hb' => ?_, fun hM d => ?_⟩
  · by_cases hdj : d = j
    · subst hdj
      rw [hself] at hd
      rcases (DMCache.mem_insertCache hc hd).1 with ⟨e', he', hek, her⟩ | ⟨hek, her⟩
      · rw [← hek, ← her]
        exact h.remote d e' he'
      · rw [hek, her]
        exact ⟨_, hr, fun hM => (hk hM).symm⟩
    · rw [hnode d hdj] at hd
      exact h.remote d e hd
  · by_cases hdj : d = j
    · subst hdj
      rw [hself] at hd ⊢
      rcases (DMCache.mem_insertCache hc hd).2 b hb' with hbuf | ⟨e', he', hek, hen, hbuf⟩
      · exact ⟨hbuf ▸ hs, hbuf ▸ hb⟩
      · change SnapNode E g (c.buffer b) ∧ (c.buffer b).hdr.nextIsLeaf = true
        rw [hbuf]
        exact h.node d e' he' b hen
    · rw [hnode d hdj] at hd ⊢
      exact h.node d e hd b hb'
  · by_cases hdj : d = j
    · subst hdj
      rw [hself]
      exact (h.wf hM d).insertCache_some hc (hk hM).symm
    · rw [hnode d hdj]
      exact h.wf hM d

/-! ## The descent from the root -/

/-- A descent for the key `k` stands at a node that starts at or before `k`, or at an address where
there is no node, so that it does not go on. -/
structure Descends (E : Env) (g : TreeView) (k : Key) (a : Gaddr) (it : InnerTree) : Prop where
  root : RootKnown g it
  stands : ∃ r rest, it.path = r :: rest ∧ r.addr = a ∧
    ((∃ ℓ κ, κ ≤ k ∧ g.inner a = some ⟨ℓ, κ⟩ ∧ PathAt g (ℓ + 1) rest) ∨ ∀ j, E.alloc j ≠ a)

theorem Descends.mono (h : Descends E g k a it) (hle : g.Le g') : Descends E g' k a it where
  root := h.root.mono hle
  stands := by
    obtain ⟨r, rest, hp, ha, hat⟩ := h.stands
    refine ⟨r, rest, hp, ha, hat.imp_left ?_⟩
    rintro ⟨ℓ, κ, hκ, hi, hpath⟩
    exact ⟨ℓ, κ, hκ, hle.inner _ _ hi, hpath.mono hle⟩

/-- A descent for the key `k` has read the node at `a`. -/
structure Arrived (E : Env) (g : TreeView) (k : Key) (n : InnerNode) (a : Gaddr) (it : InnerTree) :
    Prop where
  root : RootKnown g it
  stands : ∃ r rest ℓ κ, it.path = r :: rest ∧ r.addr = a ∧ κ ≤ k ∧ g.inner a = some ⟨ℓ, κ⟩ ∧
    NodeSeen E g ⟨ℓ, κ⟩ n ∧ PathAt g (ℓ + 1) rest

theorem Arrived.mono (h : Arrived E g k n a it) (hle : g.Le g') : Arrived E g' k n a it where
  root := h.root.mono hle
  stands := by
    obtain ⟨r, rest, ℓ, κ, hp, ha, hκ, hi, hs, hpath⟩ := h.stands
    exact ⟨r, rest, ℓ, κ, hp, ha, hκ, hle.inner _ _ hi, hs.mono hle, hpath.mono hle⟩

theorem Arrived.descends (h : Arrived E g k n a it) : Descends E g k a it where
  root := h.root
  stands := by
    obtain ⟨r, rest, ℓ, κ, hp, ha, hκ, hi, -, hpath⟩ := h.stands
    exact ⟨r, rest, hp, ha, Or.inl ⟨ℓ, κ, hκ, hi, hpath⟩⟩

/-- A descent starts anew at a root. -/
theorem Descends.restart (hr : g.inner a = some ⟨ℓ, KeyNull⟩) (hp : it.path.length = 1) (k : Key) :
    Descends E g k a { it with localRootAddr := a, path := setLastAddr a it.path } := by
  obtain ⟨r, hr'⟩ := List.length_eq_one_iff.mp hp
  rw [hr']
  exact ⟨Or.inr ⟨ℓ, hr⟩, _, [], rfl, rfl, Or.inl ⟨ℓ, KeyNull, keyNull_le k, hr, trivial⟩⟩

/-- What `inner_search` finds: the node to go on with, or a record that leads one level down. -/
def Found (E : Env) (g : TreeView) (k : Key) : Gaddr ⊕ (Record × Bool) → InnerTree → Prop
  | .inl right, it => Descends E g k right it
  | .inr (r, true), it => RootKnown g it ∧ SnapRec g r k ∧ it.path ≠ [] ∧ PathAt g 0 it.path
  | .inr (r, false), it => RootKnown g it ∧
      ∃ ℓ, g.inner r.addr = some ⟨ℓ, r.key⟩ ∧ r.key ≤ k ∧ PathAt g (ℓ + 1) it.path

/-- The key is behind the node, so that its right neighbour is next. -/
theorem Arrived.right (h : Arrived E g k n a it) (hk : n.checkHdr k = false) :
    Descends E g k n.hdr.rightAddr { it with path := setLastAddr n.hdr.rightAddr it.path } ∧
      (k < KeyMax → ∃ i, g.inner n.hdr.rightAddr = some i) := by
  obtain ⟨r, rest, ℓ, κ, hp, -, hκ, -, hs, hpath⟩ := h.stands
  have hle : n.hdr.maxKey ≤ k := by
    by_contra hlt
    rw [InnerNode.checkHdr_iff.mpr ⟨hs.min ▸ hκ, not_le.mp hlt⟩] at hk
    cases hk
  refine ⟨⟨h.root, { r with addr := n.hdr.rightAddr }, rest, by rw [hp]; rfl, rfl, ?_⟩, fun hlt => ?_⟩
  · rcases hs.le.lt_or_eq with hlt | heq
    · exact Or.inl ⟨ℓ, n.hdr.maxKey, hle, hs.right hlt, hpath⟩
    · exact Or.inr (hs.stray heq)
  · exact ⟨_, hs.right (hle.trans_lt hlt)⟩

theorem Arrived.found (h : Arrived E g k n a it) (hk : n.checkHdr k = true) :
    Found E g k (.inr (n.search E.under k, n.hdr.nextIsLeaf)) it := by
  obtain ⟨r, rest, ℓ, κ, hp, ha, -, hi, hs, hpath⟩ := h.stands
  have hpath' : PathAt g ℓ it.path := by
    rw [hp]
    exact ⟨⟨κ, ha ▸ hi⟩, hpath⟩
  cases hb : n.hdr.nextIsLeaf with
  | true =>
    have hl : ℓ = 0 := by simpa [hb] using hs.bottom
    subst hl
    exact ⟨h.root, (hs.snap.search hb k hk).1, by rw [hp]; exact List.cons_ne_nil _ _, hpath'⟩
  | false =>
    have hl : ℓ ≠ 0 := by simpa [hb] using hs.bottom
    obtain ⟨ℓ', rfl⟩ := Nat.exists_eq_succ_of_ne_zero hl
    exact ⟨h.root, ℓ', (hs.child ℓ' k rfl hk).1, (hs.child ℓ' k rfl hk).2, hpath'⟩

/-- A node that has been read can be cached if it is a bottom node. -/
theorem Arrived.cached (h : Arrived E g k n a it) (hb : n.hdr.nextIsLeaf = true) :
    g.inner (it.path.headD {}).addr = some ⟨0, n.hdr.minKey⟩ ∧ SnapNode E g n := by
  obtain ⟨r, rest, ℓ, κ, hp, ha, -, hi, hs, -⟩ := h.stands
  have hl : ℓ = 0 := by simpa [hb] using hs.bottom
  rw [hp, List.headD_cons, ha, hi, hl, hs.min]
  exact ⟨rfl, hs.snap⟩

/-- What is known of a record for the key `k` and of the path to it. -/
structure Located (g : TreeView) (k : Key) (r : Record) (it : InnerTree) : Prop where
  root : RootKnown g it
  snap : SnapRec g r k
  path : ∃ r' rest, it.path = r' :: rest ∧ rest ≠ [] ∧ PathAt g 0 rest

theorem Located.mono (h : Located g k r it) (hle : g.Le g') : Located g' k r it where
  root := h.root.mono hle
  snap := h.snap.mono hle
  path := by
    obtain ⟨r', rest, hp, hne, hpath⟩ := h.path
    exact ⟨r', rest, hp, hne, hpath.mono hle⟩

theorem SnapRec.capacity_pos (h : SnapRec g r k) : 0 < r.capacity := by
  obtain ⟨x, -, -, hc, -, hpos, -⟩ := h.leaf
  exact hc ▸ hpos

section Descent

variable {χ : Focus → Prop} (hχ : Enduring E M t χ) (hop : ∀ f, χ f → f.op ≠ none)
include hχ hop

theorem readInner_outline (k : Key) (addr : Gaddr) (it : InnerTree) :
    Outline (treeDisc E F M) t (readInner E addr it)
      (Says t fun f => χ f ∧ Descends E f.view k addr it) fun r =>
        Says t fun f => χ f ∧ Arrived E f.view k r.1 r.2.1 r.2.2 := by
  have hd : ∀ x : Gaddr × InnerTree, Enduring E M t fun f => χ f ∧ Descends E f.view k x.1 x.2 :=
    fun x => hχ.and (.know (P := fun g => Descends E g k x.1 x.2) fun _ _ hle h => h.mono hle)
  have ha : ∀ (n : InnerNode) (x : Gaddr × InnerTree),
      Enduring E M t fun f => χ f ∧ Arrived E f.view k n x.1 x.2 := fun n x =>
    hχ.and (.know (P := fun g => Arrived E g k n x.1 x.2) fun _ _ hle h => h.mono hle)
  refine Outline.loop id (J := fun x => Says t fun f => χ f ∧ Descends E f.view k x.1 x.2)
    (fun _ _ hx => hx) (fun x => (hd x).stable) fun x => ?_
  refine Outline.cmd_bind False.elim (fun n => (ha n x).stable) (readNode_rule
    (fun f hf => hop f hf.1) (fun f hf => ?_) fun w n i hi hx hn hia hs => ?_) fun n => ?_
  · obtain ⟨_, _, r, rest, _, _, ⟨ℓ, κ, -, hi, -⟩ | hstray⟩ := hf
    · exact Or.inl ⟨_, hi⟩
    · exact Or.inr hstray
  · obtain ⟨hx, hroot, r, rest, hp, hr, ⟨ℓ, κ, hκ, hi', hpath⟩ | hstray⟩ := hx
    · have he : i = ⟨ℓ, κ⟩ := Option.some.inj (hia.symm.trans hi')
      subst he
      exact ⟨hx, hroot, r, rest, ℓ, κ, hp, hr, hκ, hi', hi.tree.nodeSeen hs, hpath⟩
    · rw [hi.tree.alloc.inner_none hstray] at hn
      cases hn
  · refine Outline.ite (fun _ => Outline.pure fun w _ hw => ⟨hw.1, hw.2.descends⟩) fun _ => ?_
    refine Outline.ite (fun hone => ?_) fun _ => Outline.pure fun w _ hw => hw
    refine Outline.bind ((getRootAddr_outline hχ hop { x.2 with localRootAddr := .Null }).mono
      fun w _ hw => ⟨hw.1, Or.inl rfl⟩) fun r => Outline.pure fun w _ hw => ?_
    obtain ⟨hw, hr, ℓ, hi⟩ := hw
    rw [Sum.elim_inl, hr]
    exact ⟨hw, Descends.restart hi hone.1 k⟩

omit hχ hop in
theorem exec_insertCache {r : Record} {n : InnerNode} {ok : Bool} {m m' : Cluster}
    (he : (treeMachine E).exec t (.insertCache r n) m = some (ok, m')) :
    ((m.node (E.nodeOf t)).cache.insertCache r n = none ∧ ok = false ∧ m' = m) ∨
      ∃ c, (m.node (E.nodeOf t)).cache.insertCache r n = some c ∧ ok = true ∧
        m' = m.setCache (E.nodeOf t) c := by
  cases hc : (m.node (E.nodeOf t)).cache.insertCache r n with
  | none =>
    simp only [treeMachine, hc] at he
    cases he
    exact Or.inl ⟨rfl, rfl, rfl⟩
  | some c =>
    simp only [treeMachine, hc] at he
    cases he
    exact Or.inr ⟨c, rfl, rfl, rfl⟩

omit hχ in
/-- `insert_cache` of a copy of a bottom node -/
theorem insertCache_rule (r : Record) (n : InnerNode) :
    (treeDisc E F M).Cmd t (.insertCache r n)
      (Says t fun f => χ f ∧ f.view.inner r.addr = some ⟨0, n.hdr.minKey⟩ ∧ SnapNode E f.view n ∧
        n.hdr.nextIsLeaf = true) fun ok =>
        Says t fun f => χ f ∧ (M.keyed ∧ 0 < E.poolSize → ok = true) := by
  refine side_rule rfl (fun _ h => by cases h) (fun _ => trivial) (fun f hf => hop f hf.1)
    fun x ok m hi hx hg he => ?_
  obtain ⟨hx, hr, hs, hb⟩ := hx
  have hg : M.keyed → r.key = n.hdr.minKey := hg
  rcases exec_insertCache he with ⟨hc, rfl, rfl⟩ | ⟨c, hc, rfl, rfl⟩
  · refine ⟨rfl, hi.tree.idle t, fun _ _ => rfl, fun _ _ _ => Or.inl, hx, fun hM => ?_⟩
    obtain ⟨c, hc', -⟩ := (hi.tree.cache.wf hM.1 (E.nodeOf t)).insertCache hM.2 (hg hM.1).symm
    rw [hc] at hc'
    cases hc'
  · have hstep : TreeStep E M t x.mem x.ghost.view (x.mem.setCache (E.nodeOf t) c) x.ghost.view := by
      refine hi.tree.side ?_ ?_ ?_ ?_ ?_ ?_ (hi.tree.cache.insertCache hc hr hs hb hg) t <;> rfl
    exact ⟨rfl, hstep, fun _ i => setCache_locks i, setCache_copies, hx, fun _ => rfl⟩

theorem cacheNode_outline (path : List Record) (n : InnerNode) :
    Outline (treeDisc E F M) t (cacheNode F path n)
      (Says t fun f => χ f ∧ (n.hdr.nextIsLeaf = true →
        f.view.inner (path.headD {}).addr = some ⟨0, n.hdr.minKey⟩ ∧ SnapNode E f.view n))
      fun _ => Says t χ := by
  refine Outline.ite (fun hc => ?_) fun _ => Outline.pure fun x _ hx => hx.1
  have hb : n.hdr.nextIsLeaf = true := (Bool.and_eq_true_iff.mp hc).2
  refine Outline.bind (Outline.mono (Outline.cmd False.elim (fun ok => (hχ.and (.const _)).stable)
    (insertCache_rule hop (path.headD {}) n)) fun x _ hx => ?_) fun ok => Outline.assert
      (fun x _ hx _ => hx.1) fun x _ hx hf => ?_
  · exact ⟨hx.1, (hx.2 hb).1, (hx.2 hb).2, hb⟩
  · intro hM
    rw [hx.2 hM] at hf
    cases hf

theorem innerSearch_outline (hk : M.bounded → k < KeyMax) (addr : Gaddr) (it : InnerTree) :
    Outline (treeDisc E F M) t (innerSearch E F k addr it)
      (Says t fun f => χ f ∧ Descends E f.view k addr it) fun r =>
        Says t fun f => χ f ∧ Found E f.view k r.1 r.2 := by
  refine Outline.bind (readInner_outline hχ hop k addr it) fun x => ?_
  obtain ⟨n, a, it⟩ := x
  refine Outline.ite (fun hc => ?_) fun hc => ?_
  · have hc : n.checkHdr k = false := by simpa using hc
    refine Outline.assert_bind (fun x hi hx hnull hM => ?_) fun _ => Outline.pure fun x _ hx =>
      ⟨hx.1, (hx.2.right hc).1⟩
    obtain ⟨i, hr⟩ := (hx.2.right hc).2 (hk hM)
    exact hi.tree.inner_ne_null hr (by simpa using hnull)
  · have hc : n.checkHdr k = true := by simpa using hc
    have harr : Enduring E M t fun f => χ f ∧ Arrived E f.view k n a it :=
      hχ.and (.know (P := fun g => Arrived E g k n a it) fun _ _ hle h => h.mono hle)
    refine Outline.bind (Outline.mono (cacheNode_outline harr (fun f hf => hop f hf.1) it.path n)
      fun x _ hx => ⟨hx, hx.2.cached⟩) fun _ => Outline.pure fun x _ hx => ⟨hx.1, hx.2.found hc⟩

/-- `find_leaf` -/
theorem findLeaf_outline (hk : M.bounded → k < KeyMax) (it : InnerTree) :
    Outline (treeDisc E F M) t (findLeaf E F k it)
      (Says t fun f => χ f ∧ RootKnown f.view it) fun r =>
        Says t fun f => χ f ∧ Located f.view k r.1 r.2 := by
  refine Outline.bind (getRootAddr_outline hχ hop it) fun r => ?_
  refine Outline.loop id (J := fun x => Says t fun f => χ f ∧ Descends E f.view k x.1 x.2)
    (fun x _ hx => ?_) (fun x => ?_) fun x => ?_
  · obtain ⟨hx, hr, ℓ, hi⟩ := hx
    exact ⟨hx, Or.inr ⟨ℓ, hr ▸ hi⟩, _, [], rfl, rfl, Or.inl ⟨ℓ, KeyNull, keyNull_le k, hi, trivial⟩⟩
  · exact (hχ.and (.know (P := fun g => Descends E g k x.1 x.2) fun _ _ hle h =>
      h.mono hle)).stable
  · refine Outline.bind (innerSearch_outline hχ hop hk x.1 x.2) fun y => ?_
    obtain ⟨right | ⟨record, nextIsLeaf⟩, it⟩ := y
    · exact Outline.pure fun x _ hx => hx
    · cases nextIsLeaf with
      | false =>
        refine Outline.pure fun x _ hx => ?_
        obtain ⟨hx, hroot, ℓ, hi, hle, hpath⟩ := hx
        exact ⟨hx, hroot, _, _, rfl, rfl, Or.inl ⟨ℓ, _, hle, hi, hpath⟩⟩
      | true =>
        refine Outline.assert_bind (fun x _ hx hcap => ?_) fun _ => Outline.pure fun x _ hx => ?_
        · have hpos := hx.2.2.1.capacity_pos
          simp [hpos] at hcap
        · obtain ⟨hx, hroot, hs, hne, hpath⟩ := hx
          exact ⟨hx, hroot, hs, _, _, rfl, hne, hpath⟩

end Descent

/-! ## The walk along the bottom -/

/-- A cached path leads to a bottom node. With `keyed`, that starts at or before `k`. -/
def Cached (M : Mode) (g : TreeView) (k : Key) (it : InnerTree) : Prop :=
  ∃ r u κ, it.path = [r, u] ∧ g.inner u.addr = some ⟨0, κ⟩ ∧ (M.keyed → κ ≤ k)

theorem Cached.mono (h : Cached M g k it) (hle : g.Le g') : Cached M g' k it := by
  obtain ⟨r, u, κ, hp, hi, hκ⟩ := h
  exact ⟨r, u, κ, hp, hle.inner _ _ hi, hκ⟩

/-- `bottom_search` stands at a bottom node, or at an address where there is no node. -/
def Walks (E : Env) (M : Mode) (g : TreeView) (k : Key) (a : Gaddr) : Prop :=
  (∃ κ, (M.keyed → κ ≤ k) ∧ g.inner a = some ⟨0, κ⟩) ∨ ∀ j, E.alloc j ≠ a

theorem Walks.mono (h : Walks E M g k a) (hle : g.Le g') : Walks E M g' k a :=
  h.imp_left fun ⟨κ, hκ, hi⟩ => ⟨κ, hκ, hle.inner _ _ hi⟩

/-- `bottom_search` has read the node at `a`. -/
def Reads (E : Env) (M : Mode) (g : TreeView) (k : Key) (a : Gaddr) (n : InnerNode) : Prop :=
  ∃ κ, (M.keyed → κ ≤ k) ∧ g.inner a = some ⟨0, κ⟩ ∧ NodeSeen E g ⟨0, κ⟩ n

theorem Reads.mono (h : Reads E M g k a n) (hle : g.Le g') : Reads E M g' k a n := by
  obtain ⟨κ, hκ, hi, hs⟩ := h
  exact ⟨κ, hκ, hle.inner _ _ hi, hs.mono hle⟩

theorem Reads.right (h : Reads E M g k a n) (hk : n.checkHdr k = false) (hlt : k < KeyMax) :
    Walks E M g k n.hdr.rightAddr ∧ (M.keyed → ∃ i, g.inner n.hdr.rightAddr = some i) := by
  obtain ⟨κ, hκ, hi, hs⟩ := h
  have hle : M.keyed → n.hdr.maxKey ≤ k := by
    intro hM
    by_contra hgt
    rw [InnerNode.checkHdr_iff.mpr ⟨hs.min ▸ hκ hM, not_le.mp hgt⟩] at hk
    cases hk
  refine ⟨?_, fun hM => ⟨_, hs.right ((hle hM).trans_lt hlt)⟩⟩
  rcases hs.le.lt_or_eq with hmax | hmax
  · exact Or.inl ⟨n.hdr.maxKey, hle, hs.right hmax⟩
  · exact Or.inr (hs.stray hmax)

section Bottom

variable {χ : Focus → Prop} (hχ : Enduring E M t χ) (hop : ∀ f, χ f → f.op ≠ none)
include hχ hop

theorem readBottom_outline (k : Key) (a : Gaddr) :
    Outline (treeDisc E F M) t (readBottom E a)
      (Says t fun f => χ f ∧ Walks E M f.view k a) fun n =>
        Says t fun f => χ f ∧ Reads E M f.view k a n := by
  have hw : Enduring E M t fun f => χ f ∧ Walks E M f.view k a :=
    hχ.and (.know (P := fun g => Walks E M g k a) fun _ _ hle h => h.mono hle)
  have hr : ∀ n, Enduring E M t fun f => χ f ∧ Reads E M f.view k a n := fun n =>
    hχ.and (.know (P := fun g => Reads E M g k a n) fun _ _ hle h => h.mono hle)
  refine Outline.loop id (J := fun _ => Says t fun f => χ f ∧ Walks E M f.view k a)
    (fun _ _ hx => hx) (fun _ => hw.stable) fun _ => ?_
  refine Outline.cmd_bind False.elim (fun n => (hr n).stable) (readNode_rule
    (fun f hf => hop f hf.1) (fun f hf => hf.2.imp_left fun ⟨κ, _, hi⟩ => ⟨_, hi⟩)
    fun x n i hi hx hn hia hs => ?_) fun n => ?_
  · obtain ⟨hx, ⟨κ, hκ, hi'⟩ | hstray⟩ := hx
    · have he : i = ⟨0, κ⟩ := Option.some.inj (hia.symm.trans hi')
      subst he
      exact ⟨hx, κ, hκ, hi', hi.tree.nodeSeen hs⟩
    · rw [hi.tree.alloc.inner_none hstray] at hn
      cases hn
  · refine Outline.ite (fun _ => Outline.pure fun x _ hx => ?_) fun _ => Outline.pure fun x _ hx => hx
    obtain ⟨hx, κ, hκ, hi, -⟩ := hx
    exact ⟨hx, Or.inl ⟨κ, hκ, hi⟩⟩

/-- `read_bottom_inner` -/
theorem readBottomInner_outline (hlt : k < KeyMax) (it : InnerTree) :
    Outline (treeDisc E F M) t (readBottomInner E F k it)
      (Says t fun f => χ f ∧ RootKnown f.view it ∧ Cached M f.view k it) fun r =>
        Says t fun f => χ f ∧ Located f.view k r.1 r.2 := by
  refine Outline.of_fact (φ := ∃ r u, it.path = [r, u]) (fun x _ hx => ?_) fun hpath => ?_
  · obtain ⟨-, -, r, u, κ, hp, -⟩ := hx
    exact ⟨r, u, hp⟩
  obtain ⟨r, u, hpath⟩ := hpath
  refine Outline.assert_bind (fun x _ _ hlen => by simp [hpath] at hlen) fun _ => ?_
  have hχ' : ∀ it' : InnerTree, Enduring E M t fun f => χ f ∧ RootKnown f.view it' := fun it' =>
    hχ.and (.know (P := fun g => RootKnown g it') fun _ _ hle h => h.mono hle)
  -- the path is the node at which the walk stands
  refine Outline.loop id (J := fun x => Says t fun f => (χ f ∧ RootKnown f.view x.2) ∧
    Walks E M f.view k x.1 ∧ ∃ r, x.2.path = [r] ∧ r.addr = x.1) (fun x _ hx => ?_) (fun x => ?_)
    fun x => ?_
  · obtain ⟨hx, hroot, r', u', κ, hp, hi, hκ⟩ := hx
    rw [hpath] at hp
    cases hp
    refine ⟨⟨hx, hroot⟩, Or.inl ⟨κ, hκ, ?_⟩, _, rfl, rfl⟩
    simpa [hpath] using hi
  · exact ((hχ' x.2).and (Enduring.and (.know (P := fun g => Walks E M g k x.1) fun _ _ hle h =>
      h.mono hle) (.const _))).stable
  · have hpre : Enduring E M t fun f => (χ f ∧ RootKnown f.view x.2) ∧
        ∃ r, x.2.path = [r] ∧ r.addr = x.1 := (hχ' x.2).and (.const _)
    refine Outline.bind ((readBottom_outline hpre (fun f hf => hop f hf.1.1) k x.1).mono
      fun w _ hw => ⟨⟨hw.1, hw.2.2⟩, hw.2.1⟩) fun n => ?_
    refine Outline.ite (fun hc => ?_) fun hc => ?_
    · have hc : n.checkHdr k = false := by simpa using hc
      refine Outline.assert_bind (fun w hi hw hnull hM => ?_) fun _ => Outline.pure fun w _ hw => ?_
      · obtain ⟨i, hr⟩ := (hw.2.right hc hlt).2 hM
        exact hi.tree.inner_ne_null hr (by simpa using hnull)
      · obtain ⟨⟨⟨hw, hroot⟩, r', hp, -⟩, hread⟩ := hw
        exact ⟨⟨hw, hroot⟩, (hread.right hc hlt).1, { r' with addr := n.hdr.rightAddr },
          by simp [hp, setLastAddr, setLast], rfl⟩
    · have hc : n.checkHdr k = true := by simpa using hc
      have hread : Enduring E M t fun f => ((χ f ∧ RootKnown f.view x.2) ∧
          ∃ r, x.2.path = [r] ∧ r.addr = x.1) ∧ Reads E M f.view k x.1 n :=
        hpre.and (.know (P := fun g => Reads E M g k x.1 n) fun _ _ hle h => h.mono hle)
      refine Outline.assert_bind (fun w _ hw hleaf => ?_) fun hb => ?_
      · obtain ⟨-, κ, -, -, hs⟩ := hw
        rw [hs.bottom] at hleaf
        cases hleaf
      -- with or without the cache, the last node of the path is the one that has been read
      refine Outline.of_fact (φ := ∃ r, x.2.path = [r] ∧ r.addr = x.1) (fun w _ hw => hw.1.2)
        fun hpath' => ?_
      obtain ⟨r', hp', hr'⟩ := hpath'
      obtain ⟨r₀, hp₀, hr₀⟩ : ∃ r₀ : Record, (if F.useCache = true then
          setLast ({ · with key := n.hdr.minKey, addr := x.1 }) x.2.path else x.2.path) = [r₀] ∧
          r₀.addr = x.1 := by
        rw [hp']
        split
        · exact ⟨_, rfl, rfl⟩
        · exact ⟨r', rfl, hr'⟩
      rw [hp₀]
      refine Outline.bind ((cacheNode_outline hread (fun f hf => hop f hf.1.1.1) [r₀] n).mono
        fun w _ hw => ⟨hw, fun _ => ?_⟩) fun _ => ?_
      · obtain ⟨-, κ, -, hi, hs⟩ := hw
        rw [List.headD_cons, hr₀, hi, hs.min]
        exact ⟨rfl, hs.snap⟩
      · refine Outline.assert_bind (fun w _ hw hcap => ?_) fun _ => Outline.pure fun w _ hw => ?_
        · obtain ⟨-, κ, -, -, hs⟩ := hw
          have hpos := (hs.snap.search hb k hc).1.capacity_pos
          simp [hpos] at hcap
        · obtain ⟨⟨⟨hw, hroot⟩, -⟩, κ, -, hi, hs⟩ := hw
          exact ⟨hw, hroot, (hs.snap.search hb k hc).1, _, [r₀], rfl, List.cons_ne_nil _ _,
            ⟨κ, hr₀ ▸ hi⟩, trivial⟩

omit hχ in
/-- `invalidate` -/
theorem invalidate_rule (k : Key) :
    (treeDisc E F M).Cmd t (.invalidate k) (Says t χ) fun _ => Says t χ := by
  refine side_rule rfl (fun _ h => by cases h) (fun _ => trivial) hop fun x _ m hi hx _ he => ?_
  have hm : x.mem.setCache (E.nodeOf t) ((x.mem.node (E.nodeOf t)).cache.invalidate k) = m :=
    congrArg Prod.snd (Option.some.inj he)
  subst hm
  have hcache := hi.tree.cache.emptied (j := E.nodeOf t) DMCache.invalidate_emptied
    fun N (hw : DMCache.Wf N _) => hw.invalidate (k := k)
  have hstep : TreeStep E M t x.mem x.ghost.view
      (x.mem.setCache (E.nodeOf t) ((x.mem.node (E.nodeOf t)).cache.invalidate k))
      x.ghost.view := by
    refine hi.tree.side ?_ ?_ ?_ ?_ ?_ ?_ hcache t <;> rfl
  exact ⟨rfl, hstep, fun _ i => setCache_locks i, setCache_copies, hx⟩

/-- A hit of `search_cache`. -/
def Hit (M : Mode) (g : TreeView) (k : Key) (hit : Record × Option (List Record)) : Prop :=
  hit.1.addr ≠ .Null → SnapRec g hit.1 k ∧ ∃ u κ, hit.2 = some [hit.1.copy, u] ∧
    g.inner u.addr = some ⟨0, κ⟩ ∧ (M.keyed → κ ≤ k)

omit hχ in
/-- `search_cache` -/
theorem searchCache_rule (k : Key) :
    (treeDisc E F M).Cmd t (.searchCache k) (Says t χ) fun hit =>
      Says t fun f => χ f ∧ Hit M f.view k hit := by
  refine side_rule rfl (fun _ h => by cases h) (fun _ => trivial) hop fun x hit m hi hx _ he => ?_
  have hhit : ((x.mem.node (E.nodeOf t)).cache.searchCache E.hash E.under k).1 = hit :=
    congrArg Prod.fst (Option.some.inj he)
  have hm : x.mem.setCache (E.nodeOf t)
      ((x.mem.node (E.nodeOf t)).cache.searchCache E.hash E.under k).2 = m :=
    congrArg Prod.snd (Option.some.inj he)
  subst hhit hm
  have hempty : DMCache.Emptied (x.mem.node (E.nodeOf t)).cache
      ((x.mem.node (E.nodeOf t)).cache.searchCache E.hash E.under k).2 := DMCache.searchCache_emptied
  have hcache := hi.tree.cache.emptied hempty fun N (hw : DMCache.Wf N _) => hw.searchCache
  have hstep : TreeStep E M t x.mem x.ghost.view (x.mem.setCache (E.nodeOf t)
      ((x.mem.node (E.nodeOf t)).cache.searchCache E.hash E.under k).2) x.ghost.view := by
    refine hi.tree.side ?_ ?_ ?_ ?_ ?_ ?_ hcache t <;> rfl
  refine ⟨rfl, hstep, fun _ i => setCache_locks i, setCache_copies, hx, fun hne => ?_⟩
  obtain ⟨e, he, b, hle, hb, hk, u, hu, heq⟩ := DMCache.searchCache_hit hne
  obtain ⟨hs, hleaf⟩ := hi.tree.cache.node _ e he b hb
  obtain ⟨κ, hκ, hkey⟩ := hi.tree.cache.remote _ e he
  rw [heq]
  exact ⟨(hs.search hleaf k hk).1, u, κ, rfl, hu ▸ hκ, fun hM => hkey hM ▸ hle⟩

/-- What a call knows about the leaf it works on. -/
structure LeafKnown (M : Mode) (g : TreeView) (k : Key) (x : LeafPath) : Prop where
  loc : Located g k x.path x.it
  cached : x.fromCache = true → x.isSyncLeaf = false → Cached M g k x.it

omit hχ hop in
theorem LeafKnown.mono {x : LeafPath} (h : LeafKnown M g k x) (hle : g.Le g') :
    LeafKnown M g' k x :=
  ⟨h.loc.mono hle, fun h1 h2 => (h.cached h1 h2).mono hle⟩

theorem findAgain_outline (hk : M.bounded → k < KeyMax) (invalidates : Bool) (x : LeafPath) :
    Outline (treeDisc E F M) t (findAgain E F invalidates k x)
      (Says t fun f => χ f ∧ LeafKnown M f.view k x) fun y =>
        Says t fun f => χ f ∧ LeafKnown M f.view k y := by
  refine Outline.of_fact (φ := k < KeyMax) (fun w _ hw => hw.2.loc.snap.lt) fun hlt => ?_
  have hstart : Enduring E M t fun f => χ f ∧ LeafKnown M f.view k x :=
    hχ.and (.know (P := fun g => LeafKnown M g k x) fun _ _ hle h => h.mono hle)
  refine Outline.ite (fun hc => ?_) fun _ => ?_
  · have hc : x.fromCache = true ∧ x.isSyncLeaf = false := by simpa using hc
    refine Outline.ite_bind (a := ()) (R := fun _ => Says t fun f => χ f ∧ LeafKnown M f.view k x)
      (fun _ => Outline.cmd False.elim (fun _ => hstart.stable)
        (invalidate_rule (fun f hf => hop f hf.1) k)) (fun _ _ _ hw => hw) fun _ => ?_
    refine Outline.bind ((readBottomInner_outline hχ hop hlt x.it).mono fun w _ hw =>
      ⟨hw.1, hw.2.loc.root, hw.2.cached hc.1 hc.2⟩) fun r => ?_
    refine Outline.assert_bind (fun w _ hw hcap => ?_) fun _ => Outline.pure fun w _ hw => ?_
    · have hpos := hw.2.snap.capacity_pos
      simp [hpos] at hcap
    · exact ⟨hw.1, hw.2, fun _ h => by cases h⟩
  · refine Outline.bind ((findLeaf_outline hχ hop hk x.it).mono fun w _ hw =>
      ⟨hw.1, hw.2.loc.root⟩) fun r => ?_
    refine Outline.assert_bind (fun w _ hw hcap => ?_) fun _ => Outline.pure fun w _ hw => ?_
    · have hpos := hw.2.snap.capacity_pos
      simp [hpos] at hcap
    · exact ⟨hw.1, hw.2, fun h => by cases h⟩

theorem locate_outline (hk : M.bounded → k < KeyMax) (it : InnerTree) :
    Outline (treeDisc E F M) t (locate E F k it)
      (Says t fun f => χ f ∧ RootKnown f.view it) fun y =>
        Says t fun f => χ f ∧ LeafKnown M f.view k y := by
  have hroot : Enduring E M t fun f => χ f ∧ RootKnown f.view it :=
    hχ.and (.know (P := fun g => RootKnown g it) fun _ _ hle h => h.mono hle)
  have hhit : ∀ hit, Enduring E M t fun f => (χ f ∧ RootKnown f.view it) ∧ Hit M f.view k hit := by
    refine fun hit => hroot.and (.know (P := fun g => Hit M g k hit) fun g g' hle h hne => ?_)
    obtain ⟨hs, u, κ, hp, hi, hκ⟩ := h hne
    exact ⟨hs.mono hle, u, κ, hp, hle.inner _ _ hi, hκ⟩
  have hcmd : Outline (treeDisc E F M) t (verb (.searchCache k))
      (Says t fun f => χ f ∧ RootKnown f.view it) fun hit =>
        Says t fun f => (χ f ∧ RootKnown f.view it) ∧ Hit M f.view k hit :=
    Outline.cmd False.elim (fun hit => (hhit hit).stable)
      (searchCache_rule (fun f hf => hop f hf.1) k)
  unfold locate
  refine Outline.ite_join (fun _ => hcmd) (fun _ => Outline.pure fun w _ hw => ?_) fun hit =>
    Outline.ite (fun hc => ?_) fun _ => ?_
  · exact ⟨hw, fun h => absurd rfl h⟩
  · have hne : hit.1.addr ≠ .Null := by simpa using (Bool.and_eq_true_iff.mp hc).2
    refine Outline.pure fun w _ hw => ?_
    obtain ⟨⟨hw, hr⟩, hh⟩ := hw
    obtain ⟨hs, u, κ, hp, hi, hκ⟩ := hh hne
    rw [hp]
    exact ⟨hw, ⟨hr, hs, _, [u], rfl, List.cons_ne_nil _ _, ⟨κ, hi⟩, trivial⟩,
      fun _ _ => ⟨_, u, κ, rfl, hi, hκ⟩⟩
  · refine Outline.bind ((findLeaf_outline hχ hop hk _).mono fun w _ hw =>
      ⟨hw.1.1, hw.1.2⟩) fun r => Outline.pure fun w _ hw => ⟨hw.1, hw.2, fun h => by cases h⟩

end Bottom

end DMTree
