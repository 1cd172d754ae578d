import DMTree.LeafOps
import DMTree.Proofs.InnerTreeProofs

/-!
# The nodes that `node_split`, `update_root` and `init_root_node` write
-/

namespace DMTree

open Segments

variable {E : Env} {n origin sibling : InnerNode} {r : Record} {a : Gaddr} {u : Key}

/-- What a split of a full node does to its records and its header. -/
structure Split (E : Env) (n : InnerNode) (a : Gaddr) (r : Record)
    (origin sibling : InnerNode) (u : Key) : Prop where
  /-- The separating key is the key of a record of the node, but not of the first one. -/
  upper : ∃ l₁ m l₂, n.recs = l₁ ++ m :: l₂ ∧ l₁ ≠ [] ∧ m.key = u
  origin_wf : origin.Wf
  origin_recs : origin.recs = (put Record.key r n.recs).filter fun s => s.key < u
  origin_hdr : origin.hdr = { n.hdr with rightAddr := a, maxKey := u, isRoot := false }
  origin_crc : origin.checkConsistent E.hash = true
  origin_lock : origin.lock = false
  origin_room : origin.recs.length < innerNodeCapacity
  sibling_wf : sibling.Wf
  sibling_recs : sibling.recs = (put Record.key r n.recs).filter fun s => u ≤ s.key
  sibling_hdr : sibling.hdr = { n.hdr with minKey := u, isRoot := false }
  sibling_crc : sibling.checkConsistent E.hash = true
  sibling_lock : sibling.lock = false
  sibling_room : sibling.recs.length < innerNodeCapacity

/-- A record that does or does not belong into a half of a split node. -/
theorem insertHalf {h : InnerNode} {p : Prop} [Decidable p] (hw : h.Wf) (hv : r.valid = true)
    (hc : h.checkConsistent E.hash = true) (hl : h.recs.length + 1 < innerNodeCapacity) :
    ∃ h', (if p then h.insert E.hash r else some h) = some h' ∧ h'.Wf ∧
      h'.recs = (if p then put Record.key r h.recs else h.recs) ∧ h'.hdr = h.hdr ∧
      h'.lock = h.lock ∧ h'.checkConsistent E.hash = true ∧
      h'.recs.length < innerNodeCapacity := by
  have hput := length_put_le (x := r) hw.sorted
  by_cases hp : p
  · simp only [hp, if_true]
    cases hi : h.insert E.hash r with
    | none =>
      have hfull := (hw.refused hv hi).1
      omega
    | some h' =>
      have hins := hw.inserted hv hi
      refine ⟨h', rfl, hins.wf, hins.recs, hins.hdr, hins.lock, hins.consistent, ?_⟩
      rw [hins.recs]
      omega
  · simp only [hp, if_false]
    exact ⟨h, rfl, hw, rfl, rfl, rfl, hc, by omega⟩

/-- A full node that refused a record is split, and both halves have room. -/
theorem splitNode_spec (hw : n.Wf) (hf : n.recs.length = innerNodeCapacity)
    (hr : ∀ s ∈ n.recs, s.key ≠ r.key) (hv : r.valid = true) (a : Gaddr) :
    ∃ origin sibling u, splitNode E n a r = some (origin, sibling, u) ∧
      Split E n a r origin sibling u := by
  have hw' : n.unlock.Wf := hw.lock false
  obtain ⟨l₁, m, l₂, hrec, hl, h₁, h₂⟩ := hw'.exists_middle hf
  obtain ⟨hmig, howf, horec, hswf, hsrec⟩ := hw'.split_parts (H := E.hash) hrec hl h₁ h₂
    { n.hdr with rightAddr := a, maxKey := m.key, isRoot := false }
    { n.hdr with minKey := m.key, isRoot := false }
  have hupper : (n.unlock.migRecords.headD {}).key = m.key := by rw [hmig]; rfl
  have hcap : innerNodeCapacity / 2 + 1 < innerNodeCapacity := by decide
  obtain ⟨o, ho, howf', horec', hohdr, holock, hocrc, horoom⟩ := insertHalf (p := r.key < m.key) howf hv
    InnerNode.checkConsistent_setHdr (by rw [horec, h₁]; exact hcap)
  obtain ⟨s, hs, hswf', hsrec', hshdr, hslock, hscrc, hsroom⟩ := insertHalf (p := m.key < r.key) hswf hv
    InnerNode.checkConsistent_setConsistent (by rw [hsrec, List.length_cons, h₂]; exact hcap)
  refine ⟨o, s, m.key, ?_, ?_⟩
  · have hhdr : n.unlock.hdr = n.hdr := rfl
    simp only [splitNode, hupper, hhdr, ho, hs]
  have hsort : Sorted Record.key (l₁ ++ m :: l₂) := hl ▸ hw'.sorted
  have hl' : n.recs = l₁ ++ m :: l₂ := hl
  have hne : r.key ≠ m.key := fun h => hr m (by rw [hl']; simp) h.symm
  refine ⟨⟨l₁, m, l₂, hl', ?_, rfl⟩, howf', ?_, hohdr, hocrc, holock, horoom, hswf', ?_, hshdr, hscrc,
    hslock, hsroom⟩
  · rintro rfl
    simp [innerNodeCapacity] at h₁
  · rw [horec', horec, hl']
    split
    · rw [filter_lt_put_of_lt ‹_›, hsort.filter_lt]
    · rw [filter_lt_put_of_ge (not_lt.mp ‹_›), hsort.filter_lt]
  · rw [hsrec', hsrec, hl']
    split
    · rw [filter_ge_put_of_ge (le_of_lt ‹_›), hsort.filter_ge]
    · rw [filter_ge_put_of_lt (lt_of_le_of_ne (not_lt.mp ‹_›) hne), hsort.filter_ge]

theorem splitNode_upper (he : splitNode E n a r = some (origin, sibling, u)) :
    u = (n.unlock.migRecords.headD {}).key := by
  simp only [splitNode] at he
  split at he
  · exact ((Prod.mk.inj (Prod.mk.inj (Option.some.inj he)).2).2).symm
  · cases he

/-- The records of the two halves are those of the node and the new one. -/
theorem Split.perm (h : Split E n a r origin sibling u) (hs : Sorted Record.key n.recs)
    (hr : ∀ s ∈ n.recs, s.key ≠ r.key) : (origin.recs ++ sibling.recs).Perm (r :: n.recs) := by
  have hneg : (put Record.key r n.recs).filter (fun s => u ≤ s.key) =
      (put Record.key r n.recs).filter fun s => !decide (s.key < u) := by
    refine List.filter_congr fun s _ => ?_
    rw [← decide_not]
    exact decide_eq_decide.mpr not_lt.symm
  rw [h.origin_recs, h.sibling_recs, hneg]
  exact (List.filter_append_perm _ _).trans (put_perm hs hr)

/-- The first record of the sibling has the separating key. -/
theorem Split.sibling_first (h : Split E n a r origin sibling u)
    (hr : ∀ s ∈ n.recs, s.key ≠ r.key) : sibling.recs.head?.map Record.key = some u := by
  obtain ⟨l₁, m, l₂, hl, -, rfl⟩ := h.upper
  have hm : m ∈ sibling.recs := by
    have hmem : m ∈ n.recs := by simp [hl]
    rw [h.sibling_recs, List.mem_filter, mem_put]
    exact ⟨Or.inr ⟨hmem, hr m hmem⟩, by simp⟩
  have hsort := h.sibling_wf.sorted
  cases hrecs : sibling.recs with
  | nil =>
    rw [hrecs] at hm
    cases hm
  | cons s l =>
    have hs : s ∈ sibling.recs := by simp [hrecs]
    have hge : m.key ≤ s.key := by
      rw [h.sibling_recs, List.mem_filter] at hs
      simpa using hs.2
    rw [hrecs] at hm hsort
    have hle : s.key ≤ m.key := by
      rcases List.mem_cons.mp hm with rfl | hm
      · exact le_rfl
      · exact ((List.pairwise_cons.mp hsort).1 m hm).le
    simp [le_antisymm hle hge]

/-- `node_split` of a full node that refused `r`: its assertions hold, the records of the node and
`r` are divided at a key `u` that is not the key of `r`, both nodes have room, and the record for the
level above leads from `u` to the sibling. -/
theorem nodeSplit_preserves (top : Bool) (addr : Gaddr) (hw : n.Wf)
    (hfull : n.recs.length = innerNodeCapacity)
    (hrange : ∀ s ∈ n.recs, n.hdr.minKey ≤ s.key ∧ s.key < n.hdr.maxKey)
    (hfirst : n.recs.head?.map Record.key = some n.hdr.minKey) (hv : r.valid = true)
    (hkey : n.hdr.minKey ≤ r.key ∧ r.key < n.hdr.maxKey) (href : n.insert E.hash r = none) :
    ∃ (origin sibling : Gaddr → InnerNode) (u : Key),
      nodeSplit E top addr n r = (do
        let a ← verb .alloc
        verb (.writeNode .sibling a (sibling a))
        verb (.writeNode (.origin top) addr (origin a))
        return { r with key := u, addr := a }) ∧
      r.key ≠ u ∧ n.hdr.minKey < u ∧ ∀ a,
        ((origin a).recs ++ (sibling a).recs).Perm (r :: n.recs) ∧
        (origin a).Wf ∧ (origin a).hdr = { n.hdr with maxKey := u, isRoot := false, rightAddr := a } ∧
        (∀ s ∈ (origin a).recs, n.hdr.minKey ≤ s.key ∧ s.key < u) ∧
        (origin a).recs.length < innerNodeCapacity ∧
        (sibling a).Wf ∧ (sibling a).hdr = { n.hdr with minKey := u, isRoot := false } ∧
        (∀ s ∈ (sibling a).recs, u ≤ s.key ∧ s.key < n.hdr.maxKey) ∧
        (sibling a).recs.head?.map Record.key = some u ∧
        (sibling a).recs.length < innerNodeCapacity := by
  have hne := ((hw.insert_eq_none_iff hv).mp href).2
  choose origin sibling up hsplit hspec using fun a => splitNode_spec (E := E) hw hfull hne hv a
  refine ⟨origin, sibling, (n.unlock.migRecords.headD {}).key, ?_, ?_, ?_, fun a => ?_⟩
  · unfold nodeSplit
    refine congrArg _ (funext fun a => ?_)
    rw [hsplit a, splitNode_upper (hsplit a)]
  · obtain ⟨l₁, m, l₂, hl, -, hm⟩ := (hspec .Null).upper
    rw [← splitNode_upper (hsplit .Null), ← hm]
    exact fun heq => hne m (by simp [hl]) heq.symm
  · obtain ⟨l₁, m, l₂, hl, hnil, hm⟩ := (hspec .Null).upper
    rw [← splitNode_upper (hsplit .Null), ← hm]
    have hsort := hw.sorted
    cases l₁ with
    | nil => exact absurd rfl hnil
    | cons s l₁ =>
      rw [hl] at hsort hfirst
      have hs : s.key = n.hdr.minKey := by simpa using hfirst
      exact hs ▸ hsort.left_lt List.mem_cons_self
  · have h := hspec a
    have hu := splitNode_upper (hsplit a)
    have hput : ∀ s ∈ put Record.key r n.recs, n.hdr.minKey ≤ s.key ∧ s.key < n.hdr.maxKey := by
      intro s hs
      rcases mem_put.mp hs with rfl | hs
      · exact hkey
      · exact hrange s hs.1
    rw [← hu]
    refine ⟨h.perm hw.sorted hne, h.origin_wf, h.origin_hdr, ?_, h.origin_room, h.sibling_wf,
      h.sibling_hdr, ?_, h.sibling_first hne, h.sibling_room⟩
    · intro s hs
      rw [h.origin_recs, List.mem_filter] at hs
      exact ⟨(hput s hs.1).1, by simpa using hs.2⟩
    · intro s hs
      rw [h.sibling_recs, List.mem_filter] at hs
      exact ⟨by simpa using hs.2, (hput s hs.1).2⟩

/-- A full node over all keys, with a record for each of the numbers below 32. -/
def fullNode : InnerNode where
  hdr := { rightAddr := .Null, isRoot := true, nextIsLeaf := true }
  record := (List.range innerNodeCapacity).map fun i => .make (.ofNat i) ⟨1, i⟩ ⟨2, i⟩ 32 0

/-- A full root that refuses a record behind its last one. -/
theorem nodeSplit_preserves_full :
    fullNode.insert Env.plain.hash (.make (.ofNat 40) ⟨1, 40⟩ ⟨2, 40⟩ 32 0) = none ∧
      ∃ (origin sibling : Gaddr → InnerNode) (u : Key),
        nodeSplit .plain true ⟨3, 0⟩ fullNode (.make (.ofNat 40) ⟨1, 40⟩ ⟨2, 40⟩ 32 0) = (do
          let a ← verb .alloc
          verb (.writeNode .sibling a (sibling a))
          verb (.writeNode (.origin true) ⟨3, 0⟩ (origin a))
          return .make u a ⟨2, 40⟩ 32 0) := by
  have hrecs : fullNode.recs = fullNode.record := by decide +kernel
  have hw : fullNode.Wf := by
    refine ⟨by decide, by decide +kernel, ?_⟩
    rw [hrecs]
    exact List.pairwise_iff_get.mpr (by decide +kernel)
  have href : fullNode.insert Env.plain.hash (.make (.ofNat 40) ⟨1, 40⟩ ⟨2, 40⟩ 32 0) = none := by
    decide +kernel
  obtain ⟨origin, sibling, u, hprog, -⟩ := nodeSplit_preserves true ⟨3, 0⟩ hw
    (by rw [hrecs]; decide) (by rw [hrecs]; decide +kernel) (by decide +kernel) rfl
    (by decide +kernel) href
  exact ⟨href, origin, sibling, u, hprog⟩

/-- The new root has the two records it is made with. -/
theorem newRoot_spec {b : Gaddr} (hv : r.valid = true) (hk : KeyNull < r.key) :
    ∃ w, newRoot E a r b = some w ∧ w.Wf ∧
      w.recs = [.make KeyNull b .Null 0 0, r] ∧
      w.hdr = { rightAddr := E.stray a, isRoot := true } ∧
      w.checkConsistent E.hash = true ∧ w.lock = false := by
  obtain ⟨hw, hrecs⟩ := InnerNode.wf_zero_setHdr (H := E.hash)
    (h := { rightAddr := E.stray a, isRoot := true })
  cases hi : (InnerNode.zero.setHdr E.hash { rightAddr := E.stray a, isRoot := true }).insert E.hash r with
  | none =>
    have hfull := (hw.refused hv hi).1
    rw [hrecs] at hfull
    simp [innerNodeCapacity] at hfull
  | some n =>
    have hins := hw.inserted hv hi
    have hnr : n.recs = [r] := by rw [hins.recs, hrecs]; rfl
    have hv' : (Record.make KeyNull b .Null 0 0).valid = true := rfl
    cases hi' : n.insert E.hash (.make KeyNull b .Null 0 0) with
    | none =>
      have hfull := (hins.wf.refused hv' hi').1
      rw [hnr] at hfull
      simp [innerNodeCapacity] at hfull
    | some w =>
      have hins' := hins.wf.inserted hv' hi'
      refine ⟨w, ?_, hins'.wf, ?_, ?_, hins'.consistent, ?_⟩
      · simp [newRoot, hi, hi']
      · rw [hins'.recs, hnr]
        have hk' : (Record.make KeyNull b .Null 0 0).key < r.key := hk
        simp [put, hk', hk'.le]
      · rw [hins'.hdr, hins.hdr]
        rfl
      · rw [hins'.lock, hins.lock]
        rfl

/-- The first root has one record, for the head leaf. -/
theorem initRoot_spec (E : Env) :
    (initRoot E).Wf ∧
    (initRoot E).recs = [.make KeyNull (headAddr E) (headFpAddr E) leafNodeCapacity 0] ∧
    (initRoot E).hdr = { rightAddr := E.stray (rootAddr E), isRoot := true, nextIsLeaf := true } ∧
    (initRoot E).checkConsistent E.hash = true ∧ (initRoot E).lock = false := by
  have hv : (Record.make KeyNull (headAddr E) (headFpAddr E) leafNodeCapacity 0).valid = true := rfl
  obtain ⟨hw, hrecs⟩ := InnerNode.wf_zero_setHdr (H := E.hash)
    (h := { rightAddr := E.stray (rootAddr E), isRoot := true, nextIsLeaf := true })
  cases hi : (InnerNode.zero.setHdr E.hash
      { rightAddr := E.stray (rootAddr E), isRoot := true, nextIsLeaf := true }).insert E.hash
        (.make KeyNull (headAddr E) (headFpAddr E) leafNodeCapacity 0) with
  | none =>
    have hfull := (hw.refused hv hi).1
    rw [hrecs] at hfull
    simp [innerNodeCapacity] at hfull
  | some n =>
    have hins := hw.inserted hv hi
    have hn : initRoot E = n := by rw [initRoot, hi]; rfl
    rw [hn]
    refine ⟨hins.wf, by rw [hins.recs, hrecs]; rfl, ?_, hins.consistent, ?_⟩
    · rw [hins.hdr]
      rfl
    · rw [hins.lock]
      rfl

end DMTree
