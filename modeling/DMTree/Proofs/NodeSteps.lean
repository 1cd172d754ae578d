import DMTree.Proofs.LeafSteps

/-!
# Steps on inner nodes

The lock of an inner node is taken or released, a record is entered, and a full node is split. An
inner node is a slice of the records of its level, so entering a record changes the level within the
range of one node, and a split does nothing else.
-/

namespace DMTree

open Conc Segments

variable {E : Env} {M : Mode} {m m' : Cluster} {g g' : TreeView} {n n' : InnerNode}
  {r : Record} {a b : Gaddr} {i j : NodeView} {t : Tid} {L L' : List Record} {lo hi k : Key}

/-! ## Changes of a level -/

/-- Records with keys from `lo` up to `hi` are entered or replaced. -/
structure LevelEdit (lo hi : Key) (L L' : List Record) : Prop where
  sorted : Sorted Record.key L'
  outside : ∀ lo' hi', (∀ k, lo' ≤ k → k < hi' → ¬ (lo ≤ k ∧ k < hi)) →
    slice Record.key lo' hi' L' = slice Record.key lo' hi' L
  keys : ∀ r ∈ L, ∃ r' ∈ L', r'.key = r.key

theorem LevelEdit.refl (h : Sorted Record.key L) : LevelEdit lo hi L L :=
  ⟨h, fun _ _ _ => rfl, fun r hr => ⟨r, hr, rfl⟩⟩

theorem LevelEdit.put (h : LevelEdit lo hi L L') (h₁ : lo ≤ r.key) (h₂ : r.key < hi) :
    LevelEdit lo hi L (put Record.key r L') where
  sorted := h.sorted.put
  outside := by
    intro lo' hi' hout
    have hr : ¬ (lo' ≤ r.key ∧ r.key < hi') := fun hk => hout r.key hk.1 hk.2 ⟨h₁, h₂⟩
    rw [slice_put_of_not_mem hr h.sorted, h.outside lo' hi' hout]
  keys := by
    intro s hs
    obtain ⟨s', hs', hk⟩ := h.keys s hs
    by_cases hr : s'.key = r.key
    · exact ⟨r, mem_put.mpr (Or.inl rfl), hr.symm.trans hk⟩
    · exact ⟨s', mem_put.mpr (Or.inr ⟨hs', hr⟩), hk⟩

/-- A node that the change of a level does not concern. -/
theorem NodeStored.off (h : NodeStored E g b j n)
    (hi : ∀ c i, g.inner c = some i → g'.inner c = some i) (ho : g'.iown b = g.iown b)
    (hr : slice Record.key j.min n.hdr.maxKey (g'.lvl j.lev) =
      slice Record.key j.min n.hdr.maxKey (g.lvl j.lev))
    (hf : ∃ r ∈ g'.lvl j.lev, r.key = j.min) : NodeStored E g' b j n where
  wf := h.wf
  crc := h.crc
  min := h.min
  lt := h.lt
  le := h.le
  bottom := h.bottom
  recs := h.recs.trans hr.symm
  first := hf
  right := fun hm => hi _ _ (h.right hm)
  stray := h.stray
  lock := by rw [ho]; exact h.lock
  root := h.root

/-- The same for a node other than the one with the range that is changed. -/
theorem NodesOk.off (h : NodesOk E m g) (ha : g.inner a = some i) (hn : m.inner a = some n)
    (hi : ∀ c i, g.inner c = some i → g'.inner c = some i)
    (ho : ∀ b, b ≠ a → g'.iown b = g.iown b) (hl : ∀ ℓ, ℓ ≠ i.lev → g'.lvl ℓ = g.lvl ℓ)
    (he : LevelEdit i.min n.hdr.maxKey (g.lvl i.lev) (g'.lvl i.lev)) (hb : g.inner b = some j)
    (hba : b ≠ a) : ∃ n', m.inner b = some n' ∧ NodeStored E g' b j n' := by
  obtain ⟨n', hn', hs⟩ := h.stored b j hb
  refine ⟨n', hn', hs.off hi (ho b hba) ?_ ?_⟩
  · by_cases hlev : j.lev = i.lev
    · rw [hlev]
      refine he.outside _ _ fun k h1 h2 h3 => hba ?_
      exact h.disjoint b a j i n' n k hb ha hlev hn' hn h1 h2 h3.1 h3.2
    · rw [hl _ hlev]
  · obtain ⟨s, hs', hk⟩ := hs.first
    by_cases hlev : j.lev = i.lev
    · rw [hlev] at hs' ⊢
      obtain ⟨s', hs'', hk'⟩ := he.keys s hs'
      exact ⟨s', hs'', hk'.trans hk⟩
    · rw [hl _ hlev]
      exact ⟨s, hs', hk⟩

/-- The image of a node is replaced by one with the same range. -/
theorem NodesOk.replace (h : NodesOk E m g) (ha : g.inner a = some i) (hn : m.inner a = some n)
    (hs : NodeStored E g' a i n') (hmax : n'.hdr.maxKey = n.hdr.maxKey)
    (hm : m'.inner = Function.update m.inner a (some n')) (hi : g'.inner = g.inner)
    (ho : ∀ b, b ≠ a → g'.iown b = g.iown b)
    (hp : ∀ b u, g'.ipend b = some u → g.ipend b = some u)
    (hl : ∀ ℓ, ℓ ≠ i.lev → g'.lvl ℓ = g.lvl ℓ)
    (he : LevelEdit i.min n.hdr.maxKey (g.lvl i.lev) (g'.lvl i.lev)) : NodesOk E m' g' where
  stored := by
    intro b j hb
    rw [hi] at hb
    by_cases hba : b = a
    · subst hba
      rw [ha] at hb
      cases hb
      exact ⟨n', by rw [hm, Function.update_self], hs⟩
    · obtain ⟨n₂, hn₂, hs₂⟩ := h.off ha hn (by rw [hi]; exact fun _ _ h => h) ho hl he hb hba
      exact ⟨n₂, by rw [hm, Function.update_of_ne hba, hn₂], hs₂⟩
  disjoint := by
    have hold : ∀ b n₂, m'.inner b = some n₂ →
        ∃ n₃, m.inner b = some n₃ ∧ n₃.hdr.maxKey = n₂.hdr.maxKey := by
      intro b n₂ hb
      rw [hm] at hb
      by_cases hba : b = a
      · subst hba
        rw [Function.update_self] at hb
        cases hb
        exact ⟨n, hn, hmax.symm⟩
      · rw [Function.update_of_ne hba] at hb
        exact ⟨n₂, hb, rfl⟩
    intro b c j j' n₂ n₃ k hb hc hlev hb' hc' h1 h2 h3 h4
    rw [hi] at hb hc
    obtain ⟨p, hp, hpm⟩ := hold b n₂ hb'
    obtain ⟨q, hq, hqm⟩ := hold c n₃ hc'
    exact h.disjoint b c j j' p q k hb hc hlev hp hq h1 (hpm ▸ h2) h3 (hqm ▸ h4)
  own := by
    intro b u hb
    rw [hi]
    by_cases hba : b = a
    · exact ⟨i, hba ▸ ha⟩
    · rw [ho b hba] at hb
      exact h.own b u hb
  pend := by
    intro b u hb
    rw [hi]
    exact h.pend b u (hp b u hb)

/-- A node is split at `k`: the upper half of its range goes to the new node `b`. -/
theorem NodesOk.split (h : NodesOk E m g) (ha : g.inner a = some i) (hn : m.inner a = some n)
    (hb : g.inner b = none) {origin sibling : InnerNode} (hk : i.min < k) (hk' : k < n.hdr.maxKey)
    (ho : NodeStored E g' a i origin) (hs : NodeStored E g' b ⟨i.lev, k⟩ sibling)
    (hom : origin.hdr.maxKey = k) (hsm : sibling.hdr.maxKey = n.hdr.maxKey)
    (hmb : m.inner b = some sibling) (hm : m'.inner = Function.update m.inner a (some origin))
    (hi : g'.inner = Function.update g.inner b (some ⟨i.lev, k⟩))
    (hio : ∀ c, c ≠ a → g'.iown c = g.iown c)
    (hp : ∀ c u, g'.ipend c = some u → g.ipend c = some u ∨ c = b)
    (hl : ∀ ℓ, ℓ ≠ i.lev → g'.lvl ℓ = g.lvl ℓ)
    (he : LevelEdit i.min n.hdr.maxKey (g.lvl i.lev) (g'.lvl i.lev)) : NodesOk E m' g' := by
  have hab : a ≠ b := by
    rintro rfl
    rw [ha] at hb
    cases hb
  have hmono : ∀ c j, g.inner c = some j → g'.inner c = some j := by
    intro c j hc
    have hcb : c ≠ b := by
      rintro rfl
      rw [hb] at hc
      cases hc
    rw [hi, Function.update_of_ne hcb, hc]
  have hinv : ∀ c j, g'.inner c = some j → (c = b ∧ j = ⟨i.lev, k⟩) ∨ (c ≠ b ∧ g.inner c = some j) := by
    intro c j hc
    rw [hi] at hc
    by_cases hcb : c = b
    · subst hcb
      rw [Function.update_self] at hc
      exact Or.inl ⟨rfl, (Option.some.inj hc).symm⟩
    · rw [Function.update_of_ne hcb] at hc
      exact Or.inr ⟨hcb, hc⟩
  -- every node lies in the range of an old node, and only the two halves lie in the same one
  have hcover : ∀ c j n₂, g'.inner c = some j → m'.inner c = some n₂ → ∃ c₀ j₀ n₀,
      g.inner c₀ = some j₀ ∧ m.inner c₀ = some n₀ ∧ j₀.lev = j.lev ∧ j₀.min ≤ j.min ∧
      n₂.hdr.maxKey ≤ n₀.hdr.maxKey ∧ (c₀ = a → c = a ∧ n₂.hdr.maxKey = k ∨ c = b ∧ j.min = k) ∧
      (c₀ ≠ a → c = c₀) := by
    intro c j n₂ hc hc'
    rw [hm] at hc'
    rcases hinv c j hc with ⟨rfl, rfl⟩ | ⟨hcb, hc⟩
    · rw [Function.update_of_ne (Ne.symm hab), hmb] at hc'
      cases hc'
      exact ⟨a, i, n, ha, hn, rfl, hk.le, hsm.le, fun _ => Or.inr ⟨rfl, rfl⟩, fun h => absurd rfl h⟩
    · by_cases hca : c = a
      · subst hca
        rw [Function.update_self] at hc'
        cases hc'
        rw [ha] at hc
        cases hc
        refine ⟨c, i, n, ha, hn, rfl, le_rfl, ?_, fun _ => Or.inl ⟨rfl, hom⟩, fun h => absurd rfl h⟩
        rw [hom]
        exact hk'.le
      · rw [Function.update_of_ne hca] at hc'
        exact ⟨c, j, n₂, hc, hc', rfl, le_rfl, le_rfl, fun h => absurd h hca, fun _ => rfl⟩
  refine ⟨?_, ?_, ?_, ?_⟩
  · intro c j hc
    rw [hm]
    rcases hinv c j hc with ⟨rfl, rfl⟩ | ⟨hcb, hc⟩
    · exact ⟨sibling, by rw [Function.update_of_ne (Ne.symm hab), hmb], hs⟩
    · by_cases hca : c = a
      · subst hca
        rw [ha] at hc
        cases hc
        exact ⟨origin, Function.update_self .., ho⟩
      · obtain ⟨n₂, hn₂, hs₂⟩ := h.off ha hn hmono hio hl he hc hca
        exact ⟨n₂, by rw [Function.update_of_ne hca, hn₂], hs₂⟩
  · intro c d j j' n₂ n₃ κ hc hd hlev hc' hd' h1 h2 h3 h4
    obtain ⟨c₀, j₀, n₀, e1, e2, e3, e4, e5, e6, e7⟩ := hcover c j n₂ hc hc'
    obtain ⟨d₀, j₁, n₁, f1, f2, f3, f4, f5, f6, f7⟩ := hcover d j' n₃ hd hd'
    have hcd : c₀ = d₀ := h.disjoint c₀ d₀ j₀ j₁ n₀ n₁ κ e1 f1 (e3.trans (hlev.trans f3.symm)) e2 f2
      (e4.trans h1) (h2.trans_le e5) (f4.trans h3) (h4.trans_le f5)
    by_cases hca : c₀ = a
    · rcases e6 hca with ⟨rfl, hx⟩ | ⟨rfl, hx⟩ <;> rcases f6 (hcd ▸ hca) with ⟨rfl, hy⟩ | ⟨rfl, hy⟩
      · rfl
      · exact absurd (hx ▸ h2) (not_lt.mpr (hy ▸ h3))
      · exact absurd (hy ▸ h4) (not_lt.mpr (hx ▸ h1))
      · rfl
    · exact (e7 hca).trans (hcd.trans (f7 (hcd ▸ hca)).symm)
  · intro c u hc
    by_cases hca : c = a
    · exact ⟨i, hca ▸ hmono a i ha⟩
    · rw [hio c hca] at hc
      obtain ⟨j, hj⟩ := h.own c u hc
      exact ⟨j, hmono c j hj⟩
  · intro c u hc
    rcases hp c u hc with hc | rfl
    · obtain ⟨j, hj⟩ := h.pend c u hc
      exact ⟨j, hmono c j hj⟩
    · exact ⟨_, by rw [hi, Function.update_self]⟩

/-! ## What a step on the index leaves alone -/

/-- The view keeps its leaves, and the index only grows. -/
structure IndexGrows (g g' : TreeView) : Prop where
  leaf : g'.leaf = g.leaf
  st : ∀ a, (g'.st a).closed = true → (g.st a).closed = true
  indexed : ∀ a, g.st a ≠ .fresh → g'.st a ≠ .fresh
  inner : ∀ a i, g.inner a = some i → g'.inner a = some i

theorem IndexGrows.le (h : IndexGrows g g') : g.Le g' where
  leaf := fun a x hx => ⟨x, by rw [h.leaf, hx], rfl, rfl, rfl, Or.inr ⟨rfl, rfl, h.st a⟩⟩
  indexed := h.indexed
  inner := h.inner

theorem LeavesOk.index (h : LeavesOk E m g) (hg : IndexGrows g g') (hc : g'.chain = g.chain)
    (hml : m'.leaf = m.leaf) (hmt : m'.table = m.table)
    (hst : ∀ a b, g'.st a = .moving b ↔ g.st a = .moving b) : LeavesOk E m' g' where
  ok := by
    rw [hg.leaf]
    intro a x hx
    have hold := h.ok a x hx
    exact {
      cap_pos := hold.cap_pos
      cap_le := hold.cap_le
      min_le := hold.min_le
      max_le := hold.max_le
      keys := hold.keys
      range := hold.range
      rest := fun hb => hold.rest fun b hm => hb b ((hst a b).mpr hm)
      moving := fun b hb => hold.moving b ((hst a b).mp hb)
      first := hold.first }
  stored := by
    rw [hg.leaf]
    intro a x hx
    obtain ⟨l, tab, hs⟩ := h.stored a x hx
    exact ⟨l, tab, hs.mono hg.le (by rw [hml]) (by rw [hmt])⟩
  tab_inj := by rw [hg.leaf]; exact h.tab_inj
  disjoint := by rw [hg.leaf]; exact h.disjoint
  chain_mem := by rw [hg.leaf, hc]; exact h.chain_mem
  chain_nodup := by rw [hc]; exact h.chain_nodup
  chain_head := by rw [hc]; exact h.chain_head
  chain_follows := by
    rw [hc]
    refine h.chain_follows.imp fun a b hab => ?_
    obtain ⟨x, hx, hr⟩ := hab
    exact ⟨x, by rw [hg.leaf, hx], hr⟩
  chain_last := by rw [hc, hg.leaf]; exact h.chain_last

theorem EffOk.index (h : EffOk g) (hl : g'.leaf = g.leaf) (he : g'.eff = g.eff) : EffOk g' := by
  unfold EffOk at h ⊢
  rw [hl, he]
  exact h

/-- The root pointer stays, and no node gets a mark. -/
theorem RootOk.index (h : RootOk M m g) (hr : m'.root = m.root) (hl : m'.rootLock = m.rootLock)
    (ht : g'.top = g.top) (ho : g'.rown = g.rown)
    (hi : ∀ b j, g.inner b = some j → g'.inner b = some j)
    (hi' : ∀ b j, g'.inner b = some j → g.inner b = some j ∨ j.lev ≤ g.top ∧ g'.ipend b ≠ none)
    (hp : ∀ b j, g.inner b = some j → j.lev = g.top → g.ipend b ≠ none → g'.ipend b ≠ none)
    (hv : ∀ ℓ, g.top < ℓ → g'.lvl ℓ = g.lvl ℓ)
    (hmk : M.rooted → g'.rtok = none → g.rtok = none ∧
      ∀ n, m.inner m.root = some n → n.hdr.isRoot = true →
        ∃ n', m'.inner m.root = some n' ∧ n'.hdr.isRoot = true)
    (hun : M.rooted → ∀ a n', m'.inner a = some n' → n'.hdr.isRoot = true →
      (a = m.root ∧ g'.rtok = none) ∨ ∃ t, g'.rtok = some t ∧ g'.priv a = some t)
    (htok : ∀ t, g'.rtok = some t → M.rooted) :
    RootOk M m' g' where
  inner := by rw [hr, ht]; exact hi _ _ h.inner
  lev_le := by
    rw [ht]
    intro b j hb
    rcases hi' b j hb with hb | ⟨hle, -⟩
    · exact h.lev_le b j hb
    · exact hle
  top_pend := by
    rw [ht, hr]
    intro b j hb hlev
    rcases hi' b j hb with hb | ⟨-, hpend⟩
    · exact (h.top_pend b j hb hlev).imp_right fun hne => hp b j hb hlev hne
    · exact Or.inr hpend
  above := by
    rw [ht]
    intro ℓ hℓ
    rw [hv ℓ hℓ]
    exact h.above ℓ hℓ
  lock := by rw [hl, ho]; exact h.lock
  marked := by
    rw [hr]
    intro hM hk
    obtain ⟨hk', hmark⟩ := hmk hM hk
    obtain ⟨n, hn, hroot⟩ := h.marked hM hk'
    exact hmark n hn hroot
  unique := by
    rw [hr]
    exact hun
  tok := htok

/-- A node keeps its mark. -/
theorem RootOk.keep (h : RootOk M m g) (hn : m.inner a = some n)
    (hm : m'.inner = Function.update m.inner a (some n')) (hroot : n'.hdr.isRoot = n.hdr.isRoot)
    (hr : m'.root = m.root) (hl : m'.rootLock = m.rootLock)
    (ht : g'.top = g.top) (ho : g'.rown = g.rown) (hi : g'.inner = g.inner)
    (hp : ∀ b j, g.inner b = some j → j.lev = g.top → g.ipend b ≠ none → g'.ipend b ≠ none)
    (hv : ∀ ℓ, g.top < ℓ → g'.lvl ℓ = g.lvl ℓ) (hk : g'.rtok = g.rtok) (hpr : g'.priv = g.priv) :
    RootOk M m' g' := by
  refine h.index hr hl ht ho (by rw [hi]; exact fun _ _ h => h)
    (by rw [hi]; exact fun _ _ h => Or.inl h) hp hv ?_ ?_ (by rw [hk]; exact h.tok)
  · intro _ hk'
    refine ⟨hk ▸ hk', fun n₀ hn₀ hr₀ => ?_⟩
    rw [hm]
    by_cases hra : m.root = a
    · rw [hra, hn] at hn₀
      cases hn₀
      exact ⟨n', by rw [hra, Function.update_self], hroot.trans hr₀⟩
    · exact ⟨n₀, by rw [Function.update_of_ne hra, hn₀], hr₀⟩
  · intro hM b n₂ hb hb'
    rw [hm] at hb
    rw [hk, hpr]
    by_cases hba : b = a
    · subst hba
      rw [Function.update_self] at hb
      cases hb
      exact h.unique hM b n hn (hroot ▸ hb')
    · rw [Function.update_of_ne hba] at hb
      exact h.unique hM b n₂ hb hb'

theorem AllocOk.index (h : AllocOk E m g) (hl : g'.leaf = g.leaf) (ha : m'.allocs = m.allocs)
    (ht : m'.table = m.table)
    (hm : ∀ a n, m'.inner a = some n → ∃ n', m.inner a = some n')
    (hp : ∀ a u, g'.priv a = some u → g.priv a = some u ∧ (g.inner a = none → g'.inner a = none)) :
    AllocOk E m' g' where
  leaf := by
    rw [hl]
    intro a x hx
    obtain ⟨⟨i, hi, h1⟩, ⟨j, hj, h2⟩⟩ := h.leaf a x hx
    exact ⟨⟨i, ha ▸ hi, h1⟩, ⟨j, ha ▸ hj, h2⟩⟩
  table := by
    rw [ht]
    intro a x hx
    obtain ⟨i, hi, h1⟩ := h.table a x hx
    exact ⟨i, ha ▸ hi, h1⟩
  inner := by
    intro a n hn
    obtain ⟨n', hn'⟩ := hm a n hn
    obtain ⟨i, hi, h1⟩ := h.inner a n' hn'
    exact ⟨i, ha ▸ hi, h1⟩
  priv := by
    rw [hl]
    intro a u hu
    obtain ⟨hu', hin⟩ := hp a u hu
    obtain ⟨⟨i, hi, h1⟩, h2, h3, h4⟩ := h.priv a u hu'
    exact ⟨⟨i, ha ▸ hi, h1⟩, h2, hin h3, h4⟩

/-- A step of `t` that does not touch the leaves. -/
theorem TreeRel.index (hg : IndexGrows g g') (hml : m'.leaf = m.leaf) (hmt : m'.table = m.table)
    (hli : ∀ a, g.st a = .listed → g'.st a = .listed)
    (hmv : ∀ a s, g'.st a = .moving s ↔ g.st a = .moving s)
    (hop : ∀ a s u, u ≠ t → (g'.st a = .opened u s ↔ g.st a = .opened u s))
    (hio : ∀ a u, u ≠ t → (g'.iown a = some u ↔ g.iown a = some u))
    (hmi : ∀ a u, u ≠ t → g.iown a = some u → m'.inner a = m.inner a)
    (hip : ∀ a u, u ≠ t → (g'.ipend a = some u ↔ g.ipend a = some u))
    (hro : ∀ u, u ≠ t → (g'.rown = some u ↔ g.rown = some u))
    (hrt : ∀ u, u ≠ t → (g'.rtok = some u ↔ g.rtok = some u))
    (hr : ∀ u, u ≠ t → g.rown = some u ∨ g.rtok = some u → m'.root = m.root)
    (hp : ∀ a u, u ≠ t → (g'.priv a = some u ↔ g.priv a = some u))
    (hpm : ∀ a u, u ≠ t → g.priv a = some u → m'.inner a = m.inner a) :
    TreeRel E.hash t m g m' g' where
  le := hg.le
  step := by
    rw [hg.leaf]
    intro a x x' hx hx'
    rw [hx] at hx'
    cases hx'
    exact Or.inl ⟨rfl, rfl, fun _ _ h => h⟩
  tver := by
    rw [hg.leaf]
    intro a x x' hx hx' hlt
    rw [hx] at hx'
    cases hx'
    exact absurd hlt (lt_irrefl _)
  stored := by
    rintro k ⟨a, x, i, hx, hi, hk, hm⟩
    rw [← hg.leaf] at hx
    refine ⟨a, x, i, hx, hi, hk, fun b y s hy hs => ?_⟩
    rw [hg.leaf] at hy
    exact hm b y s hy ((hmv b s).mp hs)
  locked := by
    rw [hg.leaf]
    exact fun a x u _ hx _ => ⟨hx, hli a, fun s => (hmv a s).mpr⟩
  lown := by
    unfold TreeView.lown
    rw [hg.leaf]
    exact fun _ _ _ h => h
  opened := hop
  iown := hio
  inner := hmi
  ipend := hip
  rown := hro
  rtok := hrt
  root := hr
  priv := hp
  mine := fun a u hu hpu => ⟨by rw [hml], by rw [hmt], hpm a u hu hpu⟩

/-- The levels do not see locks, tokens and private addresses. -/
theorem LevelsOk.frame (h : LevelsOk g) (hl : g'.leaf = g.leaf) (hs : g'.st = g.st)
    (hv : g'.lvl = g.lvl) (hi : g'.inner = g.inner) (hp : g'.ipend = g.ipend)
    (ht : g'.top = g.top) : LevelsOk g' where
  seg := by
    intro ℓ
    rw [hv]
    refine (h.seg ℓ).mono fun r k _ hr => ?_
    cases ℓ with
    | zero =>
      unfold RecOk at hr ⊢
      rw [hl, hs]
      exact hr
    | succ ℓ =>
      unfold RecOk at hr ⊢
      rw [hi]
      exact hr
  idx := by rw [hl, hs, hv]; exact h.idx
  pidx := by rw [hi, hp, ht, hv]; exact h.pidx
  pair := by
    rw [hs, hl]
    intro a s has
    obtain ⟨x, y, hx, hy, hp⟩ := h.pair a s has
    exact ⟨x, y, hx, hy, hs ▸ hp.fresh, hp.tver, hp.own, hp.min, hp.lt, hs ▸ hp.pmax⟩
  partner_inj := by rw [hs]; exact h.partner_inj
  fresh := by rw [hl, hs]; exact h.fresh

/-- A private address is not the address of a node. -/
theorem AllocOk.ne_priv (h : AllocOk E m g) (ha : g.inner a = some i) {u : Tid}
    (hb : g.priv b = some u) : b ≠ a := by
  rintro rfl
  rw [(h.priv b u hb).2.2.1] at ha
  cases ha

/-! ## The lock of an inner node -/

/-- The view after the lock of the node `a` has been taken or released. -/
def TreeView.setNodeLock (g : TreeView) (a : Gaddr) (own : Option Tid) : TreeView :=
  { g with iown := Function.update g.iown a own }

/-- Only the client `t` sees its lock change. -/
theorem setNodeLock_iown {o : Option Tid} (ho : ∀ u, g.iown a = some u → u = t)
    (ho' : ∀ u, o = some u → u = t) (b : Gaddr) (u : Tid) (hu : u ≠ t) :
    (g.setNodeLock a o).iown b = some u ↔ g.iown b = some u := by
  unfold TreeView.setNodeLock
  by_cases hb : b = a
  · subst hb
    simp only [Function.update_self]
    exact ⟨fun h => absurd (ho' u h) hu, fun h => absurd (ho u h) hu⟩
  · simp only [Function.update_of_ne hb]

theorem NodeStored.setLock (h : NodeStored E g a i n) (o : Option Tid) :
    NodeStored E (g.setNodeLock a o) a i { n with lock := o.isSome } where
  wf := h.wf.lock _
  crc := h.crc
  min := h.min
  lt := h.lt
  le := h.le
  bottom := h.bottom
  recs := h.recs
  first := h.first
  right := h.right
  stray := h.stray
  lock := by simp [TreeView.setNodeLock]
  root := h.root

/-- The lock of a node is written by the client that holds it before or after. -/
theorem TreeInv.nodeLock (h : TreeInv E M m g) (ha : g.inner a = some i) {o : Option Tid}
    (ho : ∀ u, g.iown a = some u → u = t) (ho' : ∀ u, o = some u → u = t) :
    TreeStep E M t m g (m.setLockBit o.isSome (.node a)) (g.setNodeLock a o) := by
  obtain ⟨n, hn, hs⟩ := h.nodes.stored a i ha
  have hm : (m.setLockBit o.isSome (.node a)).inner =
      Function.update m.inner a (some { n with lock := o.isSome }) := by
    simp only [Cluster.setLockBit, hn, Option.map_some]
  have hg : IndexGrows g (g.setNodeLock a o) :=
    ⟨rfl, fun _ h => h, fun _ h => h, fun _ _ h => h⟩
  have hother : ∀ b, b ≠ a → (g.setNodeLock a o).iown b = g.iown b :=
    fun b hb => Function.update_of_ne hb ..
  refine ⟨⟨h.leaves.index hg rfl rfl rfl fun _ _ => Iff.rfl,
    h.levels.frame rfl rfl rfl rfl rfl rfl, ?_, ?_, ?_, h.cache.mono hg.le rfl,
    h.eff.index rfl rfl⟩, ?_⟩
  · exact h.nodes.replace ha hn (hs.setLock o) rfl hm rfl hother (fun _ _ h => h) (fun _ _ => rfl)
      (LevelEdit.refl (h.levels.sorted _))
  · exact h.root.keep hn hm rfl rfl rfl rfl rfl rfl (fun _ _ _ _ h => h) (fun _ _ => rfl) rfl rfl
  · refine h.alloc.index rfl rfl rfl (fun b n₂ hb => ?_) fun b u hu => ⟨hu, fun h => h⟩
    rw [hm] at hb
    by_cases hba : b = a
    · exact ⟨n, hba ▸ hn⟩
    · rw [Function.update_of_ne hba] at hb
      exact ⟨n₂, hb⟩
  · refine TreeRel.index hg rfl rfl (fun _ h => h) (fun _ _ => Iff.rfl) (fun _ _ _ _ => Iff.rfl)
      (setNodeLock_iown ho ho') ?_ (fun _ _ _ => Iff.rfl) (fun _ _ => Iff.rfl) (fun _ _ => Iff.rfl)
      (fun _ _ _ => rfl) (fun _ _ _ => Iff.rfl) ?_
    · intro b u hu hb
      have hba : b ≠ a := fun he => hu (ho u (he ▸ hb))
      rw [hm, Function.update_of_ne hba]
    · intro b u _ hb
      rw [hm, Function.update_of_ne (h.alloc.ne_priv ha hb)]

theorem TreeInv.lockNode (h : TreeInv E M m g) (ha : g.inner a = some i)
    (hbit : m.lockBit (.node a) = some false) (t : Tid) :
    g.iown a = none ∧
      TreeStep E M t m g (m.setLockBit true (.node a)) (g.setNodeLock a (some t)) := by
  obtain ⟨n, hn, hs⟩ := h.nodes.stored a i ha
  have hnone : g.iown a = none := by
    have hlock := hs.lock
    simp only [Cluster.lockBit, hn, Option.map_some, Option.some.injEq] at hbit
    rw [hbit] at hlock
    simpa using hlock.symm
  have hown : ∀ u, some t = some u → u = t := fun u hu => (Option.some.inj hu).symm
  have hno : ∀ u, g.iown a = some u → u = t := by
    intro u hu
    rw [hnone] at hu
    cases hu
  exact ⟨hnone, h.nodeLock ha hno hown⟩

theorem TreeInv.unlockNode (h : TreeInv E M m g) (hown : g.iown a = some t) :
    TreeStep E M t m g (m.setLockBit false (.node a)) (g.setNodeLock a none) := by
  obtain ⟨i, ha⟩ := h.nodes.own a t hown
  refine TreeInv.nodeLock h ha (o := none) ?_ ?_
  · intro u hu
    rw [hown] at hu
    exact (Option.some.inj hu).symm
  · intro u hu
    cases hu

end DMTree
