import DMTree.Proofs.WorldSteps

/-!
# Rules for the steps of a client

The assertions of a client speak about a `Focus`: the memory without the caches, the abstract tree, and
what the history says about its current call. Reads and steps on the caches do not change it, so a rule
for such a command only says what the answer tells.
-/

namespace DMTree

open Conc Segments

variable {E : Env} {F : Flags} {M : Mode} {t u : Tid}

/-- The memory without locks of the root, counters and caches. -/
def Cluster.bare (m : Cluster) : Cluster :=
  { m with rootLock := false, allocs := 0, adapts := 0, localReads := 0
           node := fun _ => { cache := .init 0 } }

/-- What the assertions of a client speak about. -/
structure Focus where
  mem : Cluster
  view : TreeView
  /-- The position of its last call, and the call. -/
  pos : Nat
  op : Option TreeOp
  /-- When the calls last locked a leaf. -/
  time : Nat → Nat
  /-- The keys that were stored when the call was made. -/
  old : Key → Prop
  /-- What the tree has been at some time since then. -/
  seen : (TreeView → Prop) → Prop

/-- The focus of the client `t`. -/
def focus (t : Tid) (x : TreeWorld E F) : Focus where
  mem := x.mem.bare
  view := x.ghost.view
  pos := (lockClock x.log).cur t
  op := lastCall x.log t
  time := (lockClock x.log).time
  old := (x.ghost.past ((lockClock x.log).cur t)).Stored E.hash
  seen P := ∃ i, (lockClock x.log).cur t < i ∧ i ≤ x.log.length ∧ P (x.ghost.past i)

/-- An assertion about the focus of the client `t`. -/
def Says (t : Tid) (φ : Focus → Prop) (x : TreeWorld E F) : Prop := φ (focus t x)

variable {x : TreeWorld E F} {m' : Cluster} {g' : TreeView} {f f' : Focus}

/-- What has been seen after a step: what was seen before, and the new view. -/
theorem seen_next {e : Event TreeSig TreeOp TreeRes} (P : TreeView → Prop) :
    (∃ i, (lockClock x.log).cur t < i ∧ i ≤ (x.log ++ [e]).length ∧
      P ((nextGhost x g').past i)) ↔ (focus t x).seen P ∨ P g' := by
  have hle := cur_le (l := x.log) t
  simp only [List.length_append, List.length_singleton]
  constructor
  · rintro ⟨i, h1, h2, h3⟩
    by_cases hi : i ≤ x.log.length
    · rw [past_le hi] at h3
      exact Or.inl ⟨i, h1, hi, h3⟩
    · have hi' : i = x.log.length + 1 := by omega
      rw [hi', past_next] at h3
      exact Or.inr h3
  · rintro (⟨i, h1, h2, h3⟩ | h)
    · exact ⟨i, h1, by omega, by rwa [past_le h2]⟩
    · exact ⟨x.log.length + 1, by omega, le_rfl, by rwa [past_next]⟩

/-- The focus of a client after a step that is no lock of a leaf. -/
theorem focus_act {c : TreeCmd} {r : c.Resp} (h : isPlain (.act t c r) = true) :
    focus t ⟨m', x.log ++ [.act t c r], nextGhost x g'⟩ =
      { focus t x with
        mem := m'.bare, view := g', seen := fun P => (focus t x).seen P ∨ P g' } := by
  have hc : lockClock (x.log ++ [.act t c r]) =
      { lockClock x.log with now := (lockClock x.log).now + 1 } := by
    rw [lockClock_concat, tick_plain h]
  have hop : lastCall (x.log ++ [.act t c r]) t = lastCall x.log t := lastCall_act
  unfold focus
  simp only [hc, hop, past_le (cur_le t), Focus.mk.injEq, true_and]
  exact ⟨rfl, funext fun P => propext (seen_next P)⟩

/-- The focus of a client after it has locked a leaf. -/
theorem focus_lock {a : Gaddr} :
    focus t ⟨m', x.log ++ [.act t (.cas (.table a)) true], nextGhost x g'⟩ =
      { focus t x with
        mem := m'.bare, view := g', seen := fun P => (focus t x).seen P ∨ P g'
        time := Function.update (focus t x).time (focus t x).pos (x.log.length + 1) } := by
  have hc : lockClock (x.log ++ [.act t (.cas (.table a)) true]) =
      { lockClock x.log with
        now := (lockClock x.log).now + 1
        time := Function.update (lockClock x.log).time ((lockClock x.log).cur t)
          (x.log.length + 1) } := by
    rw [lockClock_concat, ← lockClock_now]
    rfl
  have hop : lastCall (x.log ++ [.act t (.cas (.table a)) true]) t = lastCall x.log t := lastCall_act
  unfold focus
  simp only [hc, hop, past_le (cur_le t), Focus.mk.injEq, true_and]
  exact ⟨rfl, funext fun P => propext (seen_next P)⟩

/-- What the tree is now has been seen. -/
theorem seen_now (hi : WorldInv M x) (hop : (focus t x).op ≠ none) {P : TreeView → Prop}
    (hp : P x.ghost.view) : (focus t x).seen P := by
  obtain ⟨op, hop⟩ := Option.ne_none_iff_exists'.mp hop
  have hlt := (List.getElem?_eq_some_iff.mp (getElem?_cur hop)).1
  exact ⟨x.log.length, hlt, le_rfl, by rwa [hi.past]⟩

/-- The focus of a client after a step that the abstract tree does not see. -/
theorem focus_same {c : TreeCmd} {r : c.Resp} (hi : WorldInv M x) (hop : (focus t x).op ≠ none)
    (h : isPlain (.act t c r) = true) :
    focus t ⟨m', x.log ++ [.act t c r], nextGhost x x.ghost.view⟩ =
      { focus t x with mem := m'.bare } := by
  have hseen : (fun P => (focus t x).seen P ∨ P x.ghost.view) = (focus t x).seen :=
    funext fun P => propext ⟨fun hp => hp.elim id (seen_now hi hop), Or.inl⟩
  rw [focus_act h, hseen]
  rfl

/-! ## Other clients -/

theorem TreeRel.bare {H : Hashes} {m : Cluster} {g : TreeView} (h : TreeRel H u m g m' g') :
    TreeRel H u m.bare g m'.bare g' :=
  ⟨h.le, h.step, h.tver, h.stored, h.locked, h.lown, h.opened, h.iown, h.inner, h.ipend, h.rown,
    h.rtok, h.root, h.priv, h.mine⟩

/-- The invariant of the tree, seen from a focus. -/
def FocusInv (E : Env) (M : Mode) (f : Focus) : Prop :=
  ∃ m : Cluster, m.bare = f.mem ∧ TreeInv E M m f.view

/-- What a step of another client `u` may do to the focus of a client. -/
structure Interferes (E : Env) (M : Mode) (u : Tid) (f f' : Focus) : Prop where
  inv : FocusInv E M f
  inv' : FocusInv E M f'
  rel : TreeRel E.hash u f.mem f.view f'.mem f'.view
  pos : f'.pos = f.pos
  op : f'.op = f.op
  old : f'.old = f.old
  seen : ∀ P, f.seen P → f'.seen P
  eff : f'.view.eff = f.view.eff ∨ ∃ c p a y, f'.view.eff = f.view.eff ++ [(c, p)] ∧
    (f.op ≠ none → c ≠ f.pos) ∧ f.view.leaf a = some y ∧ y.own = some u ∧ y.min ≤ p.key ∧
    p.key < y.max
  time : ∀ w ∈ f.view.eff, f'.time w.1 = f.time w.1
  lock : f.op ≠ none → f'.time f.pos = f.time f.pos

theorem interferes {x' : TreeWorld E F} (hu : u ≠ t) (hi : WorldInv M x) (hi' : WorldInv M x')
    (hr : WorldRel u x x') : Interferes E M u (focus t x) (focus t x') := by
  obtain ⟨e, hlog, he, hlaw, -, -, hfresh⟩ := hr.event
  have hne : e.tid ≠ t := he ▸ hu
  have hcur : (lockClock x'.log).cur t = (lockClock x.log).cur t := by rw [hlog, cur_other hne]
  have hpos : ∀ op', lastCall x.log t ≠ none → lastCall x.log u = some op' →
      (lockClock x.log).cur u ≠ (lockClock x.log).cur t := by
    intro op' hop hop'
    obtain ⟨op, hop⟩ := Option.ne_none_iff_exists'.mp hop
    exact cur_ne hop hop' hu
  have htime : ∀ c, (∀ a, e = .act u (.cas (.table a)) true → c ≠ (lockClock x.log).cur u) →
      (lockClock x'.log).time c = (lockClock x.log).time c := by
    intro c hc
    rw [hlog, lockClock_concat]
    unfold LockClock.tick
    split
    · rfl
    · next v a =>
      have hv : v = u := he
      subst hv
      exact Function.update_of_ne (hc a rfl) ..
    · rfl
  exact {
    inv := ⟨x.mem, rfl, hi.tree⟩
    inv' := ⟨x'.mem, rfl, hi'.tree⟩
    rel := hr.tree.bare
    pos := hcur
    op := by
      change lastCall x'.log t = lastCall x.log t
      rw [hlog, lastCall_other hne]
    old := by
      change (x'.ghost.past ((lockClock x'.log).cur t)).Stored E.hash =
        (x.ghost.past ((lockClock x.log).cur t)).Stored E.hash
      rw [hcur, hr.past _ (cur_le t)]
    seen := by
      rintro P ⟨i, h1, h2, h3⟩
      refine ⟨i, hcur ▸ h1, ?_, by rwa [hr.past i h2]⟩
      rw [hlog, List.length_append]
      omega
    eff := by
      rcases hr.eff with h | ⟨p, a, y, op', h, hop', hy, ho, h1, h2⟩
      · exact Or.inl h
      · exact Or.inr ⟨_, p, a, y, h, fun hop => hpos op' hop hop', hy, ho, h1, h2⟩
    time := fun w hw => htime w.1 fun a ha => hfresh a ha w hw
    lock := by
      intro hop
      refine htime _ fun a ha => ?_
      obtain ⟨⟨op', hop'⟩, -⟩ := hlaw _ _ ha
      exact (hpos op' hop hop').symm }

/-- Assertions about the focus that no other client can falsify. -/
def Enduring (E : Env) (M : Mode) (t : Tid) (φ : Focus → Prop) : Prop :=
  ∀ u f f', u ≠ t → Interferes E M u f f' → φ f → φ f'

theorem Enduring.stable {φ : Focus → Prop} (h : Enduring E M t φ) :
    (treeDisc E F M).Stable t (Says t φ) :=
  fun u _ _ hu hi hi' hr hx => h u _ _ hu (interferes hu hi hi' hr) hx

namespace Enduring

variable {φ ψ : Focus → Prop}

theorem const (p : Prop) : Enduring E M t fun _ => p := fun _ _ _ _ _ h => h

theorem and (h : Enduring E M t φ) (h' : Enduring E M t ψ) : Enduring E M t fun f => φ f ∧ ψ f :=
  fun u f f' hu hi hf => ⟨h u f f' hu hi hf.1, h' u f f' hu hi hf.2⟩

theorem imp {p : Prop} (h : Enduring E M t φ) : Enduring E M t fun f => p → φ f :=
  fun u f f' hu hi hf hp => h u f f' hu hi (hf hp)

/-- Knowledge that only grows. -/
theorem know {P : TreeView → Prop} (h : ∀ g g' : TreeView, g.Le g' → P g → P g') :
    Enduring E M t fun f => P f.view :=
  fun _ _ _ _ hi hf => h _ _ hi.rel.le hf

end Enduring

theorem Enduring.exists {ι : Type} {χ : ι → Focus → Prop} (h : ∀ i, Enduring E M t (χ i)) :
    Enduring E M t fun f => ∃ i, χ i f := by
  rintro u f f' hu hi ⟨i, hf⟩
  exact ⟨i, h i u f f' hu hi hf⟩

/-- What a step of the client itself, other than a write that takes effect or a lock of a leaf, does to
its focus. -/
structure Focus.Next (E : Env) (f f' : Focus) : Prop where
  op : f'.op = f.op
  pos : f'.pos = f.pos
  old : f'.old = f.old
  time : f'.time = f.time
  eff : f'.view.eff = f.view.eff
  seen : ∀ P, f.seen P → f'.seen P
  stored : ∀ k, f.view.Stored E.hash k → f'.view.Stored E.hash k
  le : f.view.Le f'.view

theorem focus_next {c : TreeCmd} {r : c.Resp} (h : isPlain (.act t c r) = true)
    (hrel : TreeRel E.hash t x.mem x.ghost.view m' g') (heff : g'.eff = x.ghost.view.eff) :
    (focus t x).Next E (focus t ⟨m', x.log ++ [.act t c r], nextGhost x g'⟩) := by
  rw [focus_act h]
  exact ⟨rfl, rfl, rfl, rfl, heff, fun _ => Or.inl, hrel.stored, hrel.le⟩

/-- Assertions that survive such steps. -/
def Abiding (E : Env) (φ : Focus → Prop) : Prop := ∀ f f', f.Next E f' → φ f → φ f'

namespace Abiding

variable {φ ψ : Focus → Prop}

theorem and (h : Abiding E φ) (h' : Abiding E ψ) : Abiding E fun f => φ f ∧ ψ f :=
  fun f f' hn hf => ⟨h f f' hn hf.1, h' f f' hn hf.2⟩

theorem know {P : TreeView → Prop} (h : ∀ g g' : TreeView, g.Le g' → P g → P g') :
    Abiding E fun f => P f.view := fun _ _ hn hf => h _ _ hn.le hf

end Abiding

/-- What a step does that changes at most locks of inner nodes and of the root, and private
addresses. -/
structure Focus.Minor (E : Env) (f f' : Focus) : Prop extends f.Next E f' where
  leaf : f'.view.leaf = f.view.leaf
  st : f'.view.st = f.view.st
  inner : f'.view.inner = f.view.inner
  ipend : f'.view.ipend = f.view.ipend

/-- Assertions that survive such steps. -/
def Tolerant (E : Env) (φ : Focus → Prop) : Prop := ∀ f f', f.Minor E f' → φ f → φ f'

theorem Abiding.tolerant {φ : Focus → Prop} (h : Abiding E φ) : Tolerant E φ :=
  fun f f' hn hf => h f f' hn.toNext hf

/-- A step on memory that the abstract tree does not see. -/
theorem Focus.Minor.mem (f : Focus) (m : Cluster) : f.Minor E { f with mem := m } where
  op := rfl
  pos := rfl
  old := rfl
  time := rfl
  eff := rfl
  seen := fun _ h => h
  stored := fun _ h => h
  le := .refl _
  leaf := rfl
  st := rfl
  inner := rfl
  ipend := rfl

theorem Tolerant.and {φ ψ : Focus → Prop} (h : Tolerant E φ) (h' : Tolerant E ψ) :
    Tolerant E fun f => φ f ∧ ψ f :=
  fun f f' hn hf => ⟨h f f' hn hf.1, h' f f' hn hf.2⟩

/-- What a client holds is its own business. -/
theorem Enduring.owned {o : Holding} : Enduring E M t fun f => Owned t f.view o :=
  fun _ _ _ hu hi ho => ho.stable hi.rel hu.symm

/-! ## Commands -/

/-- Steps that take or release no lock and rewrite no leaf. -/
def TreeCmd.isCalm : TreeCmd → Bool
  | .cas _ | .release _ | .writeTable _ _ | .writeLeaf _ _ | .writeNode _ _ _ => false
  | _ => true

section Calm

variable {c : TreeCmd} {r : c.Resp}

theorem isCalm_plain (h : c.isCalm = true) : isPlain (.act t c r) = true := by
  cases c <;> first | rfl | cases h

theorem isCalm_holder (h : c.isCalm = true) (w : LockWord) (o : Option Tid) :
    holderStep w o (.act t c r) = o := by
  cases c <;> first | rfl | cases h

theorem isCalm_leafLock (h : c.isCalm = true) (a : Gaddr) : isLeafLock a (.act t c r) = false := by
  cases c <;> first | rfl | cases h

end Calm

/-- A step that the abstract tree does not see. -/
theorem stepOk_same {c : TreeCmd} {r : c.Resp} (hi : WorldInv M x) {op : TreeOp}
    (hop : lastCall x.log t = some op)
    (hstep : TreeStep E M t x.mem x.ghost.view m' x.ghost.view)
    (hsnap : ∀ u a n, (Event.act t c r : Event TreeSig TreeOp TreeRes) = .act u (.readNode a) n →
      SnapNode E x.ghost.view n)
    (hplain : isPlain (.act t c r) = true)
    (hhold : ∀ w, holderStep w (holder x.log w) (.act t c r) = holder x.log w)
    (hlock : ∀ a, isLeafLock a (.act t c r) = false) (hlaw : x.ghost.view.Lawful t c)
    (hlocks : c.isLock = false → ∀ i, (m'.node i).locks = (x.mem.node i).locks)
    (hcopies : ∀ i d tab, (m'.node i).localFp d = some tab →
      (x.mem.node i).localFp d = some tab ∨ CopyAt E.hash x.ghost.view d tab) :
    StepOk M t x m' x.ghost.view (.act t c r) where
  tid := rfl
  step := hstep
  snap := hsnap
  moving := fun a y s hy hs => Or.inr ⟨y, hy, rfl, hs, hlock y.tab⟩
  held := by
    intro w u
    rw [hhold]
    exact hi.held w u
  law := by
    intro c' r' he
    cases he
    exact ⟨⟨op, hop⟩, hlaw⟩
  quiet := fun _ => rfl
  copies := hcopies
  locks := fun h => hlocks (h c r rfl)
  fresh := by
    intro a he
    rw [he] at hplain
    cases hplain
  eff := Or.inl rfl
  done := by
    intro op' he
    cases he
  answer := by
    intro op' r' he
    cases he

/-- The holders of the locks after a step that changes at most the holder of `w₀`. -/
theorem held_of {e : Event TreeSig TreeOp TreeRes} (hi : WorldInv M x) {w₀ : LockWord}
    {o : Option Tid} (hstep : ∀ w, holderStep w (holder x.log w) e =
      if w₀ = w then o else holder x.log w) (h₀ : ∀ v, g'.Holds v w₀ ↔ o = some v)
    (h₁ : ∀ v w, w ≠ w₀ → (g'.Holds v w ↔ x.ghost.view.Holds v w)) (w : LockWord) (v : Tid) :
    holderStep w (holder x.log w) e = some v ↔ g'.Holds v w := by
  rw [hstep]
  by_cases hw : w₀ = w
  · subst hw
    rw [if_pos rfl, h₀]
  · rw [if_neg hw, h₁ v w (Ne.symm hw), hi.held]

/-- A step of a client on what is not a leaf. -/
theorem stepOk_index {c : TreeCmd} {r : c.Resp} {op : TreeOp} (hop : lastCall x.log t = some op)
    (hstep : TreeStep E M t x.mem x.ghost.view m' g') (hleaf : g'.leaf = x.ghost.view.leaf)
    (hmv : ∀ a s, g'.st a = .moving s → x.ghost.view.st a = .moving s)
    (heff : g'.eff = x.ghost.view.eff) (hq : c.quiet = false)
    (hplain : isPlain (.act t c r) = true) (hlock : ∀ a, isLeafLock a (.act t c r) = false)
    (hheld : ∀ w v, holderStep w (holder x.log w) (.act t c r) = some v ↔ g'.Holds v w)
    (hlaw : x.ghost.view.Lawful t c) (hnode : m'.node = x.mem.node) :
    StepOk M t x m' g' (.act t c r) where
  tid := rfl
  step := hstep
  snap := by
    intro u a n he
    cases he
    cases hq
  moving := by
    intro a y s hy hs
    rw [hleaf] at hy
    exact Or.inr ⟨y, hy, rfl, hmv a s hs, hlock y.tab⟩
  held := hheld
  law := by
    intro c' r' he
    cases he
    exact ⟨⟨op, hop⟩, hlaw⟩
  quiet := by
    intro hq'
    have hq' := hq' c r rfl
    rw [hq] at hq'
    cases hq'
  copies := by
    intro i a tab htab
    rw [hnode] at htab
    exact Or.inl htab
  locks := by
    intro _ i
    rw [hnode]
  fresh := by
    intro a he
    rw [he] at hplain
    cases hplain
  eff := Or.inl heff
  done := by
    intro op' he
    cases he
  answer := by
    intro op' r' he
    cases he

section Rules

variable {c : TreeCmd} {φ : Focus → Prop} {ψ : c.Resp → Focus → Prop}

/-- The general rule: a step with a new view. -/
theorem cmd_rule (h : ∀ x r m, WorldInv (E := E) (F := F) M x → φ (focus t x) →
    (treeGuard E F M).act x.mem x.log t c → (treeMachine E).exec t c x.mem = some (r, m) →
    ∃ g', StepOk M t x m g' (.act t c r) ∧
      ψ r (focus t ⟨m, x.log ++ [.act t c r], nextGhost x g'⟩)) :
    (treeDisc E F M).Cmd t c (Says t φ) fun r => Says t (ψ r) := by
  intro x r m hi hx hg he
  obtain ⟨g', hok, hψ⟩ := h x r m hi hx hg he
  exact hok.does hi hψ

/-- A step on the caches, the counters or the lock table. -/
theorem side_rule (hc : c.isCalm = true) (hread : ∀ a, c ≠ .readNode a)
    (hlaw : ∀ g : TreeView, g.Lawful t c) (hop : ∀ f, φ f → f.op ≠ none)
    (h : ∀ x r m, WorldInv (E := E) (F := F) M x → φ (focus t x) →
      (treeGuard E F M).act x.mem x.log t c → (treeMachine E).exec t c x.mem = some (r, m) →
      m.bare = x.mem.bare ∧ TreeStep E M t x.mem x.ghost.view m x.ghost.view ∧
        (c.isLock = false → ∀ i, (m.node i).locks = (x.mem.node i).locks) ∧
        (∀ i d tab, (m.node i).localFp d = some tab →
          (x.mem.node i).localFp d = some tab ∨ CopyAt E.hash x.ghost.view d tab) ∧
        ψ r (focus t x)) :
    (treeDisc E F M).Cmd t c (Says t φ) fun r => Says t (ψ r) := by
  refine cmd_rule fun x r m hi hx hg he => ?_
  obtain ⟨hbare, hstep, hlocks, hcopies, hψ⟩ := h x r m hi hx hg he
  obtain ⟨op, hop'⟩ := Option.ne_none_iff_exists'.mp (hop _ hx)
  refine ⟨x.ghost.view, stepOk_same hi hop' hstep ?_ (isCalm_plain hc)
    (fun w => isCalm_holder hc w _) (isCalm_leafLock hc) (hlaw _) hlocks hcopies, ?_⟩
  · intro u a n heq
    cases heq
    exact absurd rfl (hread a)
  · rw [focus_same hi (hop _ hx) (isCalm_plain hc), hbare]
    exact hψ

/-- A step on memory that the abstract tree does not see yet. -/
theorem hidden_rule (hplain : ∀ r, isPlain (.act t c r) = true) (hread : ∀ a, c ≠ .readNode a)
    (hleaf : ∀ r a, isLeafLock a (.act t c r) = false) (hop : ∀ f, φ f → f.op ≠ none)
    (h : ∀ x r m, WorldInv (E := E) (F := F) M x → φ (focus t x) →
      (treeMachine E).exec t c x.mem = some (r, m) →
      TreeStep E M t x.mem x.ghost.view m x.ghost.view ∧ x.ghost.view.Lawful t c ∧
        (∀ w, holderStep w (holder x.log w) (.act t c r) = holder x.log w) ∧
        m.node = x.mem.node ∧ ψ r { focus t x with mem := m.bare }) :
    (treeDisc E F M).Cmd t c (Says t φ) fun r => Says t (ψ r) := by
  refine cmd_rule fun x r m hi hx _ he => ?_
  obtain ⟨hstep, hlaw, hhold, hnode, hψ⟩ := h x r m hi hx he
  obtain ⟨op, hop'⟩ := Option.ne_none_iff_exists'.mp (hop _ hx)
  refine ⟨x.ghost.view, stepOk_same hi hop' hstep ?_ (hplain r) hhold (hleaf r) hlaw
    (fun _ i => by rw [hnode]) (fun i a tab htab => Or.inl (by rwa [hnode] at htab)), ?_⟩
  · intro u a n heq
    cases heq
    exact absurd rfl (hread a)
  · rw [focus_same hi (hop _ hx) (hplain r)]
    exact hψ

/-- Nobody has locked a private address. -/
theorem holder_priv {a : Gaddr} (hi : WorldInv M x) (ha : x.ghost.view.priv a = some u) :
    holder x.log (.node a) = none ∧ holder x.log (.table a) = none := by
  obtain ⟨-, -, h3, h4⟩ := hi.tree.alloc.priv a u ha
  constructor
  · by_contra hne
    obtain ⟨v, hv⟩ := Option.ne_none_iff_exists'.mp hne
    obtain ⟨i, hin⟩ := hi.tree.nodes.own a v ((hi.held _ v).mp hv)
    rw [h3] at hin
    cases hin
  · by_contra hne
    obtain ⟨v, hv⟩ := Option.ne_none_iff_exists'.mp hne
    obtain ⟨b, y, hy, htab, -⟩ := (hi.held _ v).mp hv
    exact h4 b y hy htab

/-- Reads of the memory, other than of an inner node. -/
def TreeCmd.isRead : TreeCmd → Bool
  | .readTable _ | .readEntry _ _ | .readLeaf _ _ | .readRoot => true
  | _ => false

theorem isRead_exec (hc : c.isRead = true) {m m' : Cluster} {r : c.Resp}
    (he : (treeMachine E).exec t c m = some (r, m')) : m' = m := by
  cases c with
  | readTable a =>
    obtain ⟨y, -, hy⟩ := Option.map_eq_some_iff.mp he
    exact (congrArg Prod.snd hy).symm
  | readEntry a i =>
    obtain ⟨l, -, hl⟩ := Option.bind_eq_some_iff.mp he
    obtain ⟨y, -, hy⟩ := Option.map_eq_some_iff.mp hl
    exact (congrArg Prod.snd hy).symm
  | readLeaf a n =>
    obtain ⟨y, -, hy⟩ := Option.map_eq_some_iff.mp he
    exact (congrArg Prod.snd hy).symm
  | readRoot => exact (congrArg Prod.snd (Option.some.inj he)).symm
  | _ => cases hc

theorem read_rule (hc : c.isRead = true) (hop : ∀ f, φ f → f.op ≠ none)
    (h : ∀ x r, WorldInv (E := E) (F := F) M x → φ (focus t x) →
      (treeMachine E).exec t c x.mem = some (r, x.mem) → ψ r (focus t x)) :
    (treeDisc E F M).Cmd t c (Says t φ) fun r => Says t (ψ r) := by
  have hcalm : c.isCalm = true := by cases c <;> first | rfl | cases hc
  refine side_rule hcalm ?_ ?_ hop fun x r m hi hx _ he => ?_
  · rintro a rfl
    cases hc
  · intro g
    cases c <;> first | exact True.intro | cases hc
  · have hm := isRead_exec hc he
    subst hm
    exact ⟨rfl, hi.tree.idle t, fun _ _ => rfl, fun _ _ _ => Or.inl, h x r hi hx he⟩

end Rules

/-- An inner node that can be reached is read. -/
theorem readNode_rule {a : Gaddr} {φ : Focus → Prop} {ψ : InnerNode → Focus → Prop}
    (hop : ∀ f, φ f → f.op ≠ none)
    (ha : ∀ f, φ f → (∃ i, f.view.inner a = some i) ∨ ∀ j, E.alloc j ≠ a)
    (h : ∀ x n i, WorldInv (E := E) (F := F) M x → φ (focus t x) → x.mem.inner a = some n →
      x.ghost.view.inner a = some i → NodeStored E x.ghost.view a i n → ψ n (focus t x)) :
    (treeDisc E F M).Cmd t (.readNode a) (Says t φ) fun r => Says t (ψ r) := by
  refine cmd_rule fun x r m hi hx _ he => ?_
  obtain ⟨n, hn, hrn⟩ := Option.map_eq_some_iff.mp he
  have hr : n = r := congrArg Prod.fst hrn
  have hm : x.mem = m := congrArg Prod.snd hrn
  subst hr hm
  obtain ⟨i, hia⟩ : ∃ i, x.ghost.view.inner a = some i := by
    rcases ha _ hx with hia | hstray
    · exact hia
    · rw [hi.tree.alloc.inner_none hstray] at hn
      cases hn
  obtain ⟨n', hn', hs⟩ := hi.tree.nodes.stored a i hia
  rw [hn] at hn'
  cases hn'
  obtain ⟨op, hop'⟩ := Option.ne_none_iff_exists'.mp (hop _ hx)
  refine ⟨x.ghost.view, stepOk_same hi hop' (hi.tree.idle t) ?_ rfl (fun _ => rfl) (fun _ => rfl)
    trivial (fun _ _ => rfl) (fun _ _ _ => Or.inl), ?_⟩
  · intro u b n' heq
    cases heq
    exact hi.tree.snapNode hs
  · rw [focus_same hi (hop _ hx) rfl]
    exact h x n i hi hx hn hia hs

/-! ## The lock table -/

theorem setLock_cache {m : Cluster} {i j d : Nat} {n : LocalLockNode} :
    ((m.setLock i j n).node d).cache = (m.node d).cache := by
  by_cases hd : d = i
  · subst hd
    simp [Cluster.setLock]
  · simp [Cluster.setLock, Function.update_of_ne hd]

theorem setLock_localFp {m : Cluster} {i j d : Nat} {n : LocalLockNode} :
    ((m.setLock i j n).node d).localFp = (m.node d).localFp := by
  by_cases hd : d = i
  · subst hd
    simp [Cluster.setLock]
  · simp [Cluster.setLock, Function.update_of_ne hd]

/-- A step that leaves the caches. -/
theorem CacheOk.congr {m : Cluster} {g : TreeView} (h : CacheOk E M m g)
    (hc : ∀ d, (m'.node d).cache = (m.node d).cache) : CacheOk E M m' g where
  remote := by
    intro d e he
    rw [hc] at he
    exact h.remote d e he
  node := by
    intro d e he b hb
    rw [hc] at he ⊢
    exact h.node d e he b hb
  wf := by
    intro hM d
    rw [hc]
    exact h.wf hM d

section LockTable

variable {φ : Focus → Prop} (hop : ∀ f, φ f → f.op ≠ none)
include hop

theorem lock_rule (i : Nat) (c : LockCmd) :
    (treeDisc E F M).Cmd t (.lock i c) (Says t φ) fun _ => Says t φ := by
  refine side_rule rfl (fun _ h => by cases h) (fun _ => trivial) hop fun x r m hi hx _ he => ?_
  obtain ⟨a, -, ha⟩ := Option.map_eq_some_iff.mp he
  have hm : x.mem.setLock (E.nodeOf t) i a.2 = m := congrArg Prod.snd ha
  subst hm
  have hstep : TreeStep E M t x.mem x.ghost.view (x.mem.setLock (E.nodeOf t) i a.2)
      x.ghost.view := by
    refine hi.tree.side ?_ ?_ ?_ ?_ ?_ ?_ (hi.tree.cache.congr fun _ => setLock_cache) t <;> rfl
  refine ⟨rfl, hstep, (fun h => by cases h), fun d b tab htab => Or.inl ?_, hx⟩
  rwa [setLock_localFp] at htab

/-- A function of the lock table does not touch the tree. -/
theorem onLockTable_outline {α : Type} (hφ : Enduring E M t φ) (i : Nat) (p : LockProg α) :
    Outline (treeDisc E F M) t (onLockTable i p) (Says t φ) fun _ => Says t φ := by
  unfold onLockTable
  induction p with
  | ret a => exact fun _ _ hx => hx
  | fail e => exact e.elim
  | act c k ih =>
    exact Outline.cmd_bind False.elim (fun _ => hφ.stable) (lock_rule hop i c) ih
  | iter body y k ihb ihk =>
    refine ⟨fun _ _ => Says t φ, fun _ => Says t φ, fun _ _ hx => ⟨0, hx⟩, fun _ _ => hφ.stable,
      fun j _ => (ihb j).post ?_, ihk⟩
    rintro (j' | b) x _ hx
    · exact ⟨0, fun h => h.elim, hx⟩
    · exact hx

end LockTable

end DMTree
