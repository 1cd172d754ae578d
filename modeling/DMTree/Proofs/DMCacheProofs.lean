import DMTree.DMCache

/-!
# Buffer accounting of the index cache

As long as every node is filed under its first key, each buffer is in the pool or linked from exactly
one entry, and whenever the pool is empty `evict_one` unlinks the buffer it pops. Hence no assertion of
the cache fails.
-/

namespace DMTree

namespace DMCache

/-- The buffers that entries point to. -/
def linked (c : DMCache) : List Nat := c.skiplist.filterMap (·.node)

/-- The accounting of a cache with `N` buffers. -/
structure Wf (N : Nat) (c : DMCache) : Prop where
  sorted : c.skiplist.Pairwise fun e e' => e'.key < e.key
  free : c.freeNodeCount = c.cachePool.length
  buffers : (c.cachePool ++ c.linked).Perm (List.range N)
  fifo : ∀ b ∈ c.linked, b ∈ c.fifoEvictPool
  fifo_lt : ∀ b ∈ c.fifoEvictPool, b < N
  filed : ∀ e ∈ c.skiplist, ∀ b, e.node = some b → (c.buffer b).hdr.minKey = e.key

variable {N : Nat} {c c' : DMCache} {k : Key} {e : CacheEntry} {b : Nat} {r : Record}
  {n : InnerNode} {p : Option Nat}

theorem init_wf : (init N).Wf N where
  sorted := List.Pairwise.nil
  free := by simp [init]
  buffers := by simp [init, linked]
  fifo := by simp [init, linked]
  fifo_lt := by simp [init]
  filed := by simp [init]

theorem mem_linked : b ∈ c.linked ↔ ∃ e ∈ c.skiplist, e.node = some b := by
  simp [linked, List.mem_filterMap]

/-! ## The skip list -/

theorem seek_congr (h : c'.skiplist = c.skiplist) : c'.seek k = c.seek k := by
  rw [seek, seek, h]

theorem seek_some (h : c.seek k = some e) : e ∈ c.skiplist ∧ e.key ≤ k := by
  refine ⟨List.mem_of_find?_eq_some h, ?_⟩
  simpa using List.find?_some h

/-- An entry is found under its own key. -/
theorem Wf.seek_eq (h : c.Wf N) (he : e ∈ c.skiplist) : c.seek e.key = some e := by
  have hs := h.sorted
  unfold seek
  generalize c.skiplist = l at hs he
  induction l with
  | nil => cases he
  | cons d l ih =>
    rw [List.pairwise_cons] at hs
    rcases List.mem_cons.mp he with rfl | he
    · simp
    · have hlt := hs.1 e he
      rw [List.find?_cons_of_neg (by simpa using hlt)]
      exact ih hs.2 he

theorem mem_setNode {d : CacheEntry} :
    d ∈ (c.setNode k p).skiplist ↔
      ∃ e ∈ c.skiplist, d = if e.key = k then { e with node := p } else e := by
  simp only [setNode, List.mem_map]
  exact ⟨fun ⟨e, he, h⟩ => ⟨e, he, h.symm⟩, fun ⟨e, he, h⟩ => ⟨e, he, h.symm⟩⟩

theorem setNode_sorted (h : c.skiplist.Pairwise fun e e' => e'.key < e.key) :
    (c.setNode k p).skiplist.Pairwise fun e e' => e'.key < e.key := by
  refine List.pairwise_map.mpr (h.imp fun {x y} hxy => ?_)
  split <;> split <;> simpa using hxy

/-- The entry of a key is split off the skip list. -/
theorem skiplist_split (h : c.skiplist.Pairwise fun e e' => e'.key < e.key) (he : e ∈ c.skiplist) :
    ∃ l₁ l₂, c.skiplist = l₁ ++ e :: l₂ ∧
      (c.setNode e.key p).skiplist = l₁ ++ { e with node := p } :: l₂ := by
  obtain ⟨l₁, l₂, hl⟩ := List.append_of_mem he
  refine ⟨l₁, l₂, hl, ?_⟩
  rw [hl] at h
  have h1 : ∀ d ∈ l₁, d.key ≠ e.key := fun d hd =>
    ((List.pairwise_append.mp h).2.2 d hd e List.mem_cons_self).ne'
  have h2 : ∀ d ∈ l₂, d.key ≠ e.key := fun d hd =>
    ((List.pairwise_cons.mp (List.pairwise_append.mp h).2.1).1 d hd).ne
  have keep : ∀ l : List CacheEntry, (∀ d ∈ l, d.key ≠ e.key) →
      l.map (fun d => if d.key = e.key then { d with node := p } else d) = l := by
    intro l hne
    conv_rhs => rw [← List.map_id l]
    exact List.map_congr_left fun d hd => if_neg (hne d hd)
  simp only [setNode, hl, List.map_append, List.map_cons, if_true, keep l₁ h1, keep l₂ h2]

/-- Unlinking the buffer of an entry. -/
theorem linked_unlink (h : c.skiplist.Pairwise fun e e' => e'.key < e.key) (he : e ∈ c.skiplist)
    (hb : e.node = some b) : c.linked.Perm (b :: (c.setNode e.key none).linked) := by
  obtain ⟨l₁, l₂, h1, h2⟩ := skiplist_split (p := none) h he
  simp only [linked, h1, h2, List.filterMap_append, List.filterMap_cons, hb]
  exact List.perm_middle

/-- Linking a buffer to an entry that has none. -/
theorem linked_link (h : c.skiplist.Pairwise fun e e' => e'.key < e.key) (he : e ∈ c.skiplist)
    (hn : e.node = none) : (c.setNode e.key (some b)).linked.Perm (b :: c.linked) := by
  obtain ⟨l₁, l₂, h1, h2⟩ := skiplist_split (p := some b) h he
  simp only [linked, h1, h2, List.filterMap_append, List.filterMap_cons, hn]
  exact List.perm_middle

theorem mem_linked_setNode (h : b ∈ (c.setNode k none).linked) : b ∈ c.linked := by
  obtain ⟨d, hd, hb⟩ := mem_linked.mp h
  obtain ⟨e, he, rfl⟩ := mem_setNode.mp hd
  split at hb
  · cases hb
  · exact mem_linked.mpr ⟨e, he, hb⟩

/-- The entries that still point to a buffer after an entry has been emptied. -/
theorem filed_setNode (h : ∀ e ∈ c.skiplist, ∀ b, e.node = some b → (c.buffer b).hdr.minKey = e.key)
    (he : e ∈ (c.setNode k none).skiplist) (hb : e.node = some b) :
    (c.buffer b).hdr.minKey = e.key := by
  obtain ⟨d, hd, rfl⟩ := mem_setNode.mp he
  split at hb
  · cases hb
  · next hk =>
    rw [if_neg hk]
    exact h d hd b hb

/-! ## The calls -/

theorem Wf.invalidate (h : c.Wf N) : (c.invalidate k).Wf N := by
  unfold DMCache.invalidate
  split
  · exact h
  · next e he =>
    split
    · exact h
    · next b hb =>
      have hmem := (seek_some he).1
      exact {
        sorted := setNode_sorted h.sorted
        free := by simp [h.free]
        buffers := by
          have hp := linked_unlink h.sorted hmem hb
          refine List.Perm.trans ?_ h.buffers
          change (c.cachePool ++ [b] ++ (c.setNode e.key none).linked).Perm _
          rw [List.append_assoc]
          exact hp.symm.append_left _
        fifo := fun b' hb' => h.fifo b' (mem_linked_setNode hb')
        fifo_lt := h.fifo_lt
        filed := fun d hd b' hb' => filed_setNode (c := c) h.filed hd hb' }

/-- A buffer that has been taken out and not yet been linked. -/
structure Taken (N : Nat) (c : DMCache) (b : Nat) : Prop where
  sorted : c.skiplist.Pairwise fun e e' => e'.key < e.key
  free : c.freeNodeCount = c.cachePool.length
  buffers : (b :: (c.cachePool ++ c.linked)).Perm (List.range N)
  fifo : ∀ b ∈ c.linked, b ∈ c.fifoEvictPool
  fifo_lt : ∀ b ∈ c.fifoEvictPool, b < N
  filed : ∀ e ∈ c.skiplist, ∀ b, e.node = some b → (c.buffer b).hdr.minKey = e.key

/-- With an empty pool, `evict_one` unlinks the buffer it pops, whatever the counter says. -/
theorem Wf.evictOne (h : c.Wf N) (hN : 0 < N) (hp : c.cachePool = []) :
    ∃ b fifo e, c.fifoEvictPool = b :: fifo ∧ e ∈ c.skiplist ∧ e.node = some b ∧
      ∀ count, ({ c with freeNodeCount := count } : DMCache).evictOne = some (some b,
        { c.setNode e.key none with fifoEvictPool := fifo, freeNodeCount := count + 1 }) := by
  have hall : ∀ b < N, b ∈ c.linked := by
    intro b hb
    have hmem := h.buffers.mem_iff.mpr (List.mem_range.mpr hb)
    rwa [hp, List.nil_append] at hmem
  cases hf : c.fifoEvictPool with
  | nil =>
    have h0 := h.fifo 0 (hall 0 hN)
    rw [hf] at h0
    cases h0
  | cons b fifo =>
    have hb : b < N := h.fifo_lt b (by rw [hf]; exact List.mem_cons_self)
    obtain ⟨e, he, heb⟩ := mem_linked.mp (hall b hb)
    refine ⟨b, fifo, e, rfl, he, heb, fun count => ?_⟩
    have hseek : c.seek (c.buffer b).hdr.minKey = some e := by
      rw [h.filed e he b heb]
      exact h.seek_eq he
    simp only [DMCache.evictOne]
    have hseek' : ∀ d : DMCache, d.skiplist = c.skiplist →
        d.seek (c.buffer b).hdr.minKey = some e := fun d hd => (seek_congr hd).trans hseek
    rw [hseek']
    · simp [setNode, heb]
    · rfl

theorem Wf.allocNodeCache (h : c.Wf N) (hN : 0 < N) :
    ∃ b c', c.allocNodeCache = some (b, c') ∧ c'.Taken N b := by
  unfold DMCache.allocNodeCache
  by_cases hfree : c.freeNodeCount ≤ 0
  · rw [if_pos hfree]
    have hpool : c.cachePool = [] := by
      have hf := h.free
      rw [hf] at hfree
      exact List.length_eq_zero_iff.mp (by omega)
    obtain ⟨b, fifo, e, hf, he, hb, hev⟩ := h.evictOne hN hpool
    refine ⟨b, { c.setNode e.key none with fifoEvictPool := fifo }, ?_, ?_⟩
    · unfold evictLoop
      rw [hev, sub_add_cancel]
      rfl
    · have hperm := linked_unlink h.sorted he hb
      have hnd : (c.cachePool ++ c.linked).Nodup := h.buffers.nodup_iff.mpr List.nodup_range
      rw [hpool, List.nil_append] at hnd
      exact {
        sorted := setNode_sorted h.sorted
        free := h.free
        buffers := by
          change (b :: (c.cachePool ++ (c.setNode e.key none).linked)).Perm _
          have hb' := h.buffers
          rw [hpool, List.nil_append] at hb' ⊢
          exact hperm.symm.trans hb'
        fifo := by
          intro b' hb'
          have hin := h.fifo b' (mem_linked_setNode hb')
          have hne : b' ≠ b := by
            rintro rfl
            exact (List.nodup_cons.mp (hperm.nodup_iff.mp hnd)).1 hb'
          rw [hf] at hin
          rcases List.mem_cons.mp hin with h' | h'
          · exact absurd h' hne
          · exact h'
        fifo_lt := fun b' hb' => h.fifo_lt b' (by rw [hf]; exact List.mem_cons_of_mem _ hb')
        filed := fun d hd b' hb' => filed_setNode (c := c) h.filed hd hb' }
  · rw [if_neg hfree]
    cases hpool : c.cachePool with
    | nil =>
      have hf := h.free
      rw [hpool] at hf
      simp at hf
      omega
    | cons b pool =>
      refine ⟨b, _, rfl, ?_⟩
      have hf := h.free
      have hb := h.buffers
      rw [hpool] at hf hb
      exact {
        sorted := h.sorted
        free := by
          change c.freeNodeCount - 1 = pool.length
          rw [hf]
          simp
        buffers := hb
        fifo := h.fifo
        fifo_lt := h.fifo_lt
        filed := h.filed }

/-- The buffer is filled. -/
theorem Taken.fill (h : c.Taken N b) (n : InnerNode) :
    ({ c with buffer := Function.update c.buffer b n } : DMCache).Taken N b where
  sorted := h.sorted
  free := h.free
  buffers := h.buffers
  fifo := h.fifo
  fifo_lt := h.fifo_lt
  filed := by
    intro e he b' hb'
    have hne : b' ≠ b := by
      rintro rfl
      have hnd := h.buffers.nodup_iff.mpr List.nodup_range
      exact (List.nodup_cons.mp hnd).1 (List.mem_append_right _ (mem_linked.mpr ⟨e, he, hb'⟩))
    change (Function.update c.buffer b n b').hdr.minKey = e.key
    rw [Function.update_of_ne hne]
    exact h.filed e he b' hb'

theorem Taken.lt (h : c.Taken N b) : b < N :=
  List.mem_range.mp (h.buffers.mem_iff.mp List.mem_cons_self)

theorem mem_orderedInsert_desc {l : List CacheEntry} {d : CacheEntry} :
    d ∈ l.orderedInsert (fun e e' => e'.key ≤ e.key) e ↔ d = e ∨ d ∈ l :=
  List.mem_orderedInsert _

theorem orderedInsert_desc {l : List CacheEntry} (h : l.Pairwise fun e e' => e'.key < e.key)
    (hne : ∀ d ∈ l, d.key ≠ e.key) :
    (l.orderedInsert (fun e e' => e'.key ≤ e.key) e).Pairwise fun e e' => e'.key < e.key := by
  induction l with
  | nil => simp
  | cons d l ih =>
    rw [List.pairwise_cons] at h
    rw [List.orderedInsert_cons]
    split
    · next hle =>
      have hlt : d.key < e.key := lt_of_le_of_ne hle (hne d List.mem_cons_self)
      refine List.pairwise_cons.mpr ⟨fun d' hd' => ?_, List.pairwise_cons.mpr h⟩
      rcases List.mem_cons.mp hd' with rfl | hd'
      · exact hlt
      · exact (h.1 d' hd').trans hlt
    · next hgt =>
      refine List.pairwise_cons.mpr ⟨fun d' hd' => ?_,
        ih h.2 fun d' hd' => hne d' (List.mem_cons_of_mem _ hd')⟩
      rcases mem_orderedInsert_desc.mp hd' with rfl | hd'
      · exact not_le.mp hgt
      · exact h.1 d' hd'

theorem Taken.link (h : c.Taken N b) (hr : (c.buffer b).hdr.minKey = r.key) : (c.link r b).Wf N := by
  unfold DMCache.link
  split
  · -- a new entry
    next hnone =>
    have hne : ∀ d ∈ c.skiplist, d.key ≠ r.key := by
      intro d hd
      simpa using List.find?_eq_none.mp hnone d hd
    have hperm : (c.skiplist.orderedInsert (fun e e' => e'.key ≤ e.key)
        (⟨r.key, some b, r.addr⟩ : CacheEntry)).Perm (⟨r.key, some b, r.addr⟩ :: c.skiplist) :=
      List.perm_orderedInsert _ _ _
    have hlinked := (hperm.filterMap (·.node))
    exact {
      sorted := orderedInsert_desc h.sorted hne
      free := h.free
      buffers := by
        refine (hlinked.append_left c.cachePool).trans (List.Perm.trans ?_ h.buffers)
        simp only [List.filterMap_cons]
        exact List.perm_middle
      fifo := by
        intro b' hb'
        obtain ⟨d, hd, hdb⟩ := mem_linked.mp hb'
        rcases mem_orderedInsert_desc.mp hd with rfl | hd
        · exact List.mem_append_right _ (by simpa using hdb.symm)
        · exact List.mem_append_left _ (h.fifo b' (mem_linked.mpr ⟨d, hd, hdb⟩))
      fifo_lt := by
        intro b' hb'
        rcases List.mem_append.mp hb' with hb' | hb'
        · exact h.fifo_lt b' hb'
        · rw [List.mem_singleton.mp hb']
          exact h.lt
      filed := by
        intro d hd b' hb'
        rcases mem_orderedInsert_desc.mp hd with rfl | hd
        · cases hb'
          exact hr
        · exact h.filed d hd b' hb' }
  · next e he =>
    have hmem := List.mem_of_find?_eq_some he
    have hkey : e.key = r.key := by simpa using List.find?_some he
    split
    · -- an entry that points to nothing
      next hn =>
      have hnone : e.node = none := by simpa using hn
      have hperm := linked_link (b := b) h.sorted hmem hnone
      rw [hkey] at hperm
      exact {
        sorted := setNode_sorted h.sorted
        free := h.free
        buffers := by
          change (c.cachePool ++ (c.setNode r.key (some b)).linked).Perm _
          exact (hperm.append_left _).trans (List.perm_middle.trans h.buffers)
        fifo := by
          intro b' hb'
          rcases List.mem_cons.mp (hperm.mem_iff.mp hb') with rfl | hb'
          · exact List.mem_append_right _ (List.mem_singleton_self _)
          · exact List.mem_append_left _ (h.fifo b' hb')
        fifo_lt := by
          intro b' hb'
          rcases List.mem_append.mp hb' with hb' | hb'
          · exact h.fifo_lt b' hb'
          · rw [List.mem_singleton.mp hb']
            exact h.lt
        filed := by
          intro d hd b' hb'
          obtain ⟨d', hd', rfl⟩ := mem_setNode.mp hd
          split at hb'
          · next hk =>
            cases hb'
            rw [if_pos hk]
            exact hr.trans hk.symm
          · next hk =>
            rw [if_neg hk]
            exact h.filed d' hd' b' hb' }
    · -- the entry is in use: the buffer goes back
      exact {
        sorted := h.sorted
        free := by simp [h.free]
        buffers := by
          change (c.cachePool ++ [b] ++ c.linked).Perm _
          rw [List.append_assoc]
          exact List.perm_middle.trans h.buffers
        fifo := h.fifo
        fifo_lt := h.fifo_lt
        filed := h.filed }

/-- A node that is filed under its first key is taken, and no assertion fails. -/
theorem Wf.insertCache (h : c.Wf N) (hN : 0 < N) (hr : n.hdr.minKey = r.key) :
    ∃ c', c.insertCache r n = some c' ∧ c'.Wf N := by
  obtain ⟨b, c₁, halloc, htaken⟩ := h.allocNodeCache hN
  have hwf := (htaken.fill n).link (r := r) (by simpa using hr)
  exact ⟨_, by simp only [DMCache.insertCache, halloc], hwf⟩

/-- A cache without buffers takes nothing. -/
theorem Wf.insertCache_zero (h : c.Wf 0) : c.insertCache r n = none := by
  have hpool : c.cachePool = [] := by
    have hlen := h.buffers.length_eq
    simp only [List.length_append, List.length_range] at hlen
    exact List.eq_nil_of_length_eq_zero (by omega)
  have hfifo : c.fifoEvictPool = [] := by
    refine List.eq_nil_iff_forall_not_mem.mpr fun b hb => ?_
    exact absurd (h.fifo_lt b hb) (Nat.not_lt_zero b)
  have hfree : c.freeNodeCount ≤ 0 := by
    rw [h.free, hpool]
    exact le_rfl
  unfold DMCache.insertCache DMCache.allocNodeCache
  rw [if_pos hfree]
  unfold evictLoop DMCache.evictOne
  simp [hfifo]

theorem Wf.insertCache_some (h : c.Wf N) (hc : c.insertCache r n = some c')
    (hr : n.hdr.minKey = r.key) : c'.Wf N := by
  rcases Nat.eq_zero_or_pos N with rfl | hN
  · rw [h.insertCache_zero] at hc
    cases hc
  · obtain ⟨c₁, hc₁, hwf⟩ := h.insertCache hN hr
    rw [hc] at hc₁
    cases hc₁
    exact hwf

theorem Wf.searchCache {H : Hashes} {under : InnerHeader → Record} (h : c.Wf N) :
    (c.searchCache H under k).2.Wf N := by
  unfold DMCache.searchCache
  split
  · exact h
  · split
    · exact h
    · dsimp only
      split
      · exact h.invalidate
      · exact h

/-! ## Sequences of calls -/

theorem Wf.exec (H : Hashes) (under : InnerHeader → Record) (h : c.Wf N) (hN : 0 < N) {call : Call}
    (hc : call.Filed) : ∃ c', c.exec H under call = some c' ∧ c'.Wf N := by
  cases call with
  | insertCache r n => exact h.insertCache hN hc
  | searchCache k => exact ⟨_, rfl, h.searchCache⟩
  | invalidate k => exact ⟨_, rfl, h.invalidate⟩

/-- The accounting holds after any calls, none of which fails an assertion. -/
theorem Wf.run (H : Hashes) (under : InnerHeader → Record) (hN : 0 < N) {calls : List Call}
    (hcalls : ∀ call ∈ calls, call.Filed) :
    ∀ {c : DMCache}, c.Wf N → ∃ c', c.run H under calls = some c' ∧ c'.Wf N := by
  induction calls with
  | nil =>
    intro c h
    exact ⟨c, rfl, h⟩
  | cons call calls ih =>
    intro c h
    obtain ⟨c₁, h₁, hwf⟩ := h.exec H under hN (hcalls call List.mem_cons_self)
    obtain ⟨c₂, h₂, hwf'⟩ := ih (fun d hd => hcalls d (List.mem_cons_of_mem _ hd)) hwf
    refine ⟨c₂, ?_, hwf'⟩
    simp only [DMCache.run, List.foldlM_cons, h₁]
    exact h₂

/-- A buffer is in the pool, or linked from one entry. -/
theorem Wf.count (h : c.Wf N) (hb : b < N) :
    c.cachePool.count b + c.skiplist.countP (fun e => e.node = some b) = 1 := by
  have hone : (List.range N).count b = 1 :=
    List.count_eq_one_of_mem List.nodup_range (List.mem_range.mpr hb)
  rw [← h.buffers.count_eq, List.count_append, linked, List.count_filterMap] at hone
  simpa only [beq_eq_decide] using hone

/-- After any calls of a cache with at least one buffer, in which nodes are filed under their first
key: the counter is the length of the pool, each buffer is in the pool or linked from exactly one
entry, a linked buffer is in the eviction queue, and with an empty pool `evict_one` unlinks the first
buffer of that queue. -/
theorem accounting_of_calls (H : Hashes) (under : InnerHeader → Record) (hN : 0 < N)
    {calls : List Call} (hcalls : ∀ call ∈ calls, call.Filed) :
    ∃ c, (init N).run H under calls = some c ∧
      c.freeNodeCount = c.cachePool.length ∧ 0 ≤ c.freeNodeCount ∧
      (∀ b < N, c.cachePool.count b + c.skiplist.countP (fun e => e.node = some b) = 1) ∧
      (∀ e ∈ c.skiplist, ∀ b, e.node = some b → b < N ∧ b ∈ c.fifoEvictPool) ∧
      (c.cachePool = [] → ∃ b fifo e, c.fifoEvictPool = b :: fifo ∧ e ∈ c.skiplist ∧
        e.node = some b ∧ c.evictOne = some (some b, { c.setNode e.key none with
          fifoEvictPool := fifo, freeNodeCount := c.freeNodeCount + 1 })) := by
  obtain ⟨c, hrun, h⟩ := Wf.run H under hN hcalls (init_wf (N := N))
  refine ⟨c, hrun, h.free, ?_, fun b hb => h.count hb, fun e he b hb => ?_, fun hp => ?_⟩
  · rw [h.free]
    exact Int.natCast_nonneg _
  · have hl : b ∈ c.linked := mem_linked.mpr ⟨e, he, hb⟩
    exact ⟨h.fifo_lt b (h.fifo b hl), h.fifo b hl⟩
  · obtain ⟨b, fifo, e, hf, he, hb, hev⟩ := h.evictOne hN hp
    exact ⟨b, fifo, e, hf, he, hb, hev c.freeNodeCount⟩

/-- Two nodes share one buffer: the first is evicted, the second invalidated. -/
theorem accounting_of_calls_evict :
    ∃ c, (init 1).run ⟨fun _ _ => 0, fun _ _ => 0, fun _ => 0⟩ (fun _ => {})
        [.insertCache {} .zero,
          .insertCache { key := KeyMax } { InnerNode.zero with hdr := ⟨KeyMax, KeyMax, .Null, false, true⟩ },
          .invalidate KeyMax] = some c ∧
      c.freeNodeCount = c.cachePool.length ∧ 0 ≤ c.freeNodeCount ∧
      (∀ b < 1, c.cachePool.count b + c.skiplist.countP (fun e => e.node = some b) = 1) ∧
      (∀ e ∈ c.skiplist, ∀ b, e.node = some b → b < 1 ∧ b ∈ c.fifoEvictPool) ∧
      (c.cachePool = [] → ∃ b fifo e, c.fifoEvictPool = b :: fifo ∧ e ∈ c.skiplist ∧
        e.node = some b ∧ c.evictOne = some (some b, { c.setNode e.key none with
          fifoEvictPool := fifo, freeNodeCount := c.freeNodeCount + 1 })) := by
  refine accounting_of_calls _ _ Nat.zero_lt_one ?_
  simp [Call.Filed, InnerNode.zero]

/-! ## What the entries point to -/

/-- `c'` has the entries of `c`, some of them emptied. -/
structure Emptied (c c' : DMCache) : Prop where
  entry : ∀ e ∈ c'.skiplist, ∃ d ∈ c.skiplist, d.key = e.key ∧ d.remoteAddr = e.remoteAddr ∧
    ∀ b, e.node = some b → d.node = some b
  buffer : c'.buffer = c.buffer

theorem Emptied.refl (h : c'.skiplist = c.skiplist) (hb : c'.buffer = c.buffer) : Emptied c c' where
  entry := fun e he => ⟨e, h ▸ he, rfl, rfl, fun _ hb => hb⟩
  buffer := hb

theorem Emptied.trans {c₁ c₂ c₃ : DMCache} (h : Emptied c₁ c₂) (h' : Emptied c₂ c₃) :
    Emptied c₁ c₃ where
  entry := by
    intro e he
    obtain ⟨d, hd, hk, hr, hn⟩ := h'.entry e he
    obtain ⟨f, hf, hk', hr', hn'⟩ := h.entry d hd
    exact ⟨f, hf, hk'.trans hk, hr'.trans hr, fun b hb => hn' b (hn b hb)⟩
  buffer := h'.buffer.trans h.buffer

theorem Emptied.setNode (h : c'.skiplist = (c.setNode k none).skiplist)
    (hb : c'.buffer = c.buffer) : Emptied c c' where
  entry := by
    intro e he
    rw [h] at he
    obtain ⟨d, hd, rfl⟩ := mem_setNode.mp he
    refine ⟨d, hd, ?_⟩
    split <;> simp
  buffer := hb

theorem invalidate_emptied : Emptied c (c.invalidate k) := by
  unfold DMCache.invalidate
  split
  · exact .refl rfl rfl
  · split
    · exact .refl rfl rfl
    · exact .setNode rfl rfl

theorem evictOne_emptied (h : c.evictOne = some (p, c')) : Emptied c c' := by
  unfold DMCache.evictOne at h
  split at h
  · cases h
  · split at h
    · cases h
    · split at h
      · cases h
        exact .refl rfl rfl
      · cases h
        exact .setNode rfl rfl

theorem evictLoop_emptied {i : Nat} : ∀ {c : DMCache}, evictLoop i c = some (b, c') →
    Emptied c c' := by
  induction i with
  | zero =>
    intro c h
    unfold evictLoop at h
    split at h
    · cases h
    · next hev =>
      cases h
      exact evictOne_emptied hev
    · cases h
  | succ i ih =>
    intro c h
    unfold evictLoop at h
    split at h
    · cases h
    · next hev =>
      cases h
      exact evictOne_emptied hev
    · next hev => exact (evictOne_emptied hev).trans (ih h)

theorem allocNodeCache_emptied (h : c.allocNodeCache = some (b, c')) : Emptied c c' := by
  unfold DMCache.allocNodeCache at h
  dsimp only at h
  split at h
  · obtain ⟨hentry, hbuffer⟩ := evictLoop_emptied h
    exact ⟨hentry, hbuffer⟩
  · split at h
    · cases h
    · cases h
      exact .refl rfl rfl

theorem searchCache_emptied {H : Hashes} {under : InnerHeader → Record} :
    Emptied c (c.searchCache H under k).2 := by
  unfold DMCache.searchCache
  split
  · exact .refl rfl rfl
  · split
    · exact .refl rfl rfl
    · dsimp only
      split
      · exact invalidate_emptied
      · exact .refl rfl rfl

theorem mem_link (he : e ∈ (c.link r b).skiplist) :
    e ∈ c.skiplist ∨ e.key = r.key ∧ e.node = some b ∧
      (e.remoteAddr = r.addr ∨ ∃ d ∈ c.skiplist, d.key = e.key ∧ d.remoteAddr = e.remoteAddr) := by
  unfold DMCache.link at he
  split at he
  · rcases mem_orderedInsert_desc.mp he with rfl | he
    · exact .inr ⟨rfl, rfl, .inl rfl⟩
    · exact .inl he
  · split at he
    · obtain ⟨d, hd, rfl⟩ := mem_setNode.mp he
      split
      · next hk => exact .inr ⟨hk, rfl, .inr ⟨d, hd, rfl, rfl⟩⟩
      · exact .inl hd
    · exact .inl he

theorem link_buffer : (c.link r b).buffer = c.buffer := by
  unfold DMCache.link
  split
  · rfl
  · split <;> rfl

/-- An entry after `insert_cache` has the address of an older entry of its key or of the record, and
points to the new node or to what the older entry pointed to. -/
theorem mem_insertCache (h : c.insertCache r n = some c') (he : e ∈ c'.skiplist) :
    ((∃ d ∈ c.skiplist, d.key = e.key ∧ d.remoteAddr = e.remoteAddr) ∨
      e.key = r.key ∧ e.remoteAddr = r.addr) ∧
    ∀ b, e.node = some b → c'.buffer b = n ∨
      ∃ d ∈ c.skiplist, d.key = e.key ∧ d.node = some b ∧ c'.buffer b = c.buffer b := by
  unfold DMCache.insertCache at h
  split at h
  · cases h
  · next b₀ c₁ halloc =>
    cases h
    have hem := allocNodeCache_emptied halloc
    have hbuf : ∀ b, (Function.update c₁.buffer b₀ n) b = n ∨
        (Function.update c₁.buffer b₀ n) b = c.buffer b := by
      intro b
      by_cases hb : b = b₀
      · exact .inl (by rw [hb, Function.update_self])
      · exact .inr (by rw [Function.update_of_ne hb, hem.buffer])
    rcases mem_link he with he | ⟨hk, hn, hr⟩
    · obtain ⟨d, hd, hk, hr, hn⟩ := hem.entry e he
      refine ⟨.inl ⟨d, hd, hk, hr⟩, fun b hb => ?_⟩
      rw [link_buffer]
      exact (hbuf b).imp_right fun h => ⟨d, hd, hk, hn b hb, h⟩
    · refine ⟨?_, fun b hb => .inl ?_⟩
      · rcases hr with hr | ⟨d, hd, hdk, hdr⟩
        · exact .inr ⟨hk, hr⟩
        · obtain ⟨f, hf, hfk, hfr, -⟩ := hem.entry d hd
          exact .inl ⟨f, hf, hfk.trans hdk, hfr.trans hdr⟩
      · rw [hn] at hb
        cases hb
        rw [link_buffer]
        exact Function.update_self ..

/-- A hit of `search_cache` is what a cached bottom node has for the key. -/
theorem searchCache_hit {H : Hashes} {under : InnerHeader → Record}
    (h : (c.searchCache H under k).1.1.addr ≠ .Null) :
    ∃ e ∈ c.skiplist, ∃ b, e.key ≤ k ∧ e.node = some b ∧ (c.buffer b).checkHdr k = true ∧
      ∃ u : Record, u.addr = e.remoteAddr ∧
        (c.searchCache H under k).1 = ((c.buffer b).search under k,
          some [((c.buffer b).search under k).copy, u]) := by
  unfold searchCache at h ⊢
  cases hs : c.seek k with
  | none => simp [hs] at h
  | some e =>
    obtain ⟨he, hle⟩ := seek_some hs
    cases hn : e.node with
    | none => simp [hs, hn] at h
    | some b =>
      simp only [hs, hn] at h ⊢
      split at h
      · exact absurd rfl h
      · next hc =>
        rw [if_neg hc]
        refine ⟨e, he, b, hle, hn, ?_, _, rfl, rfl⟩
        by_contra hno
        exact hc (by simp [hno])

end DMCache

end DMTree
