import DMTree.LeafOps
import DMTree.Proofs.InnerTreeProofs

/-!
# A leaf and its fingerprint table hold a list of pairs

The slots of a leaf are filled from the front: the first of them hold pairs, the rest is free. The
fingerprint table likewise starts with the fingerprints of the pairs. `resizeLeaf` divides the sorted
pairs of a full leaf and a new one between the leaf and its sibling.
-/

namespace DMTree

open Segments

/-- The entry that holds the pair `p` in a leaf of version `v`. -/
def liveEntry (v : Nat) (p : EntryPos) : Entry := ⟨true, v, p.key, p.value⟩

/-- The entries hold the pairs `kv`, in `cap` slots of version `v`. -/
def EntriesHold (cap v : Nat) (kv : List EntryPos) (es : List Entry) : Prop :=
  ∃ free, es = kv.map (liveEntry v) ++ free ∧ (∀ e ∈ free, e.valid = false ∧ e.version = v) ∧
    kv.length + free.length = cap

/-- The table holds the fingerprints `fs`, in `cap` slots. -/
structure TableHolds (H : Hashes) (cap v : Nat) (fs : List UInt8) (t : FPTable) : Prop where
  fp : t.fp = fs ++ List.replicate (cap - fs.length) 0
  length : fs.length ≤ cap
  ne_zero : ∀ f ∈ fs, f ≠ 0
  version : t.version = v
  crc : t.checkConsistent H = true

variable {H : Hashes} {cap v : Nat} {kv : List EntryPos} {es : List Entry} {p : EntryPos}
  {fs : List UInt8} {t t' : FPTable} {f : UInt8} {i : Nat}

theorem calKeyFp_ne_zero (k : Key) : calKeyFp H k ≠ 0 := by
  simp only [calKeyFp]
  split
  · decide
  · assumption

/-! ## Entries -/

namespace EntriesHold

theorem length (h : EntriesHold cap v kv es) : es.length = cap := by
  obtain ⟨free, rfl, _, hlen⟩ := h
  simp [hlen]

theorem length_le (h : EntriesHold cap v kv es) : kv.length ≤ cap := by
  obtain ⟨free, rfl, _, hlen⟩ := h
  omega

theorem getElem? (h : EntriesHold cap v kv es) (hp : kv[i]? = some p) :
    es[i]? = some (liveEntry v p) := by
  obtain ⟨free, rfl, _, _⟩ := h
  have hi : i < kv.length := (List.getElem?_eq_some_iff.mp hp).1
  rw [List.getElem?_append_left (by simpa using hi), List.getElem?_map, hp]
  rfl

/-- The value of a pair is replaced. -/
theorem set (h : EntriesHold cap v kv es) (hi : i < kv.length) :
    EntriesHold cap v (kv.set i p) (es.set i (liveEntry v p)) := by
  obtain ⟨free, rfl, hfree, hlen⟩ := h
  refine ⟨free, ?_, hfree, by simpa using hlen⟩
  rw [List.set_append_left _ _ (by simpa using hi), List.map_set]

/-- The first free slot is filled. -/
theorem append (h : EntriesHold cap v kv es) (hlt : kv.length < cap) :
    EntriesHold cap v (kv ++ [p]) (es.set kv.length (liveEntry v p)) := by
  obtain ⟨free, rfl, hfree, hlen⟩ := h
  cases free with
  | nil =>
    simp at hlen
    omega
  | cons e free =>
    refine ⟨free, ?_, fun e' he => hfree e' (List.mem_cons_of_mem _ he), ?_⟩
    · simp
    · simp at hlen ⊢
      omega

/-- A free slot takes any pair. -/
theorem insert_free (h : EntriesHold cap v kv es) (hlt : kv.length < cap) :
    (es[kv.length]?.bind fun e => e.insert p.key p.value) = some (liveEntry v p) := by
  obtain ⟨free, rfl, hfree, hlen⟩ := h
  cases free with
  | nil =>
    simp at hlen
    omega
  | cons e free =>
    obtain ⟨h1, h2⟩ := hfree e List.mem_cons_self
    simp [Entry.insert, h1, liveEntry, ← h2]

theorem filter_valid (h : EntriesHold cap v kv es) :
    (es.filter (·.valid)).map Entry.pos = kv := by
  obtain ⟨free, rfl, hfree, _⟩ := h
  have h1 : (kv.map (liveEntry v)).filter (·.valid) = kv.map (liveEntry v) := by
    simp [liveEntry]
  have h2 : free.filter (·.valid) = [] := by
    simpa using fun e he => (hfree e he).1
  rw [List.filter_append, h1, h2, List.append_nil, List.map_map]
  conv_rhs => rw [← List.map_id kv]
  exact List.map_congr_left fun _ _ => rfl

theorem version_eq (h : EntriesHold cap v kv es) {e : Entry} (he : e ∈ es) : e.version = v := by
  obtain ⟨free, rfl, hfree, _⟩ := h
  rcases List.mem_append.mp he with he | he
  · obtain ⟨p, _, rfl⟩ := List.mem_map.mp he
    rfl
  · exact (hfree e he).2

/-- What is left of the entries after `add_version` and `clean`. -/
theorem clean (h : EntriesHold cap v kv es) (hdr : LeafHeader) :
    EntriesHold cap (v + 1) [] (cleanEntries ⟨hdr, es⟩) := by
  refine ⟨_, rfl, ?_, by simp [h.length]⟩
  intro e he
  obtain ⟨e', he', rfl⟩ := List.mem_map.mp he
  have hv := h.version_eq he'
  by_cases hvalid : e'.valid = true
  · simp [hvalid, Entry.clean, Entry.addVersion, hv]
  · simp [hvalid, Entry.addVersion, hv]

theorem zero (cap : Nat) : EntriesHold cap 0 [] (List.replicate cap {}) :=
  ⟨_, rfl, fun e he => by rw [List.eq_of_mem_replicate he]; exact ⟨rfl, rfl⟩, by simp⟩

end EntriesHold

/-! ## Fingerprint tables -/

theorem mem_matching_iff : i ∈ matching t f cap ↔ i < cap ∧ t.fp[i]? = some f := by
  rw [matching, List.mem_findIdxs_iff_exists_getElem_pos, List.getElem?_eq_some_iff]
  simp only [List.length_take, List.getElem_take, beq_iff_eq, lt_min_iff]
  exact ⟨fun ⟨h, heq⟩ => ⟨h.1, h.2, heq⟩, fun ⟨h1, h2, heq⟩ => ⟨⟨h1, h2⟩, heq⟩⟩

namespace TableHolds

theorem fp_length (h : TableHolds H cap v fs t) : t.fp.length = cap := by
  have hl := h.length
  rw [h.fp]
  simp
  omega

theorem getElem? (h : TableHolds H cap v fs t) (hi : i < fs.length) : t.fp[i]? = fs[i]? := by
  rw [h.fp, List.getElem?_append_left hi]

theorem lock (h : TableHolds H cap v fs t) (b : Bool) :
    TableHolds H cap v fs { t with lock := b } :=
  ⟨h.fp, h.length, h.ne_zero, h.version, h.crc⟩

theorem getEntryNum (h : TableHolds H cap v fs t) : t.getEntryNum = fs.length := by
  have h1 : fs.countP (· ≠ 0) = fs.length :=
    List.countP_eq_length.mpr fun f hf => by simpa using h.ne_zero f hf
  have h2 : (List.replicate (cap - fs.length) (0 : UInt8)).countP (· ≠ 0) = 0 :=
    List.countP_eq_zero.mpr fun f hf => by simp [List.eq_of_mem_replicate hf]
  rw [FPTable.getEntryNum, h.fp, List.countP_append, h1, h2, Nat.add_zero]

/-- The slots that carry a fingerprint. -/
theorem mem_matching (h : TableHolds H cap v fs t) (hf : f ≠ 0) :
    i ∈ matching t f cap ↔ fs[i]? = some f := by
  rw [mem_matching_iff]
  constructor
  · rintro ⟨-, heq⟩
    by_cases hlt : i < fs.length
    · rwa [h.getElem? hlt] at heq
    · rw [h.fp, List.getElem?_append_right (not_lt.mp hlt), List.getElem?_replicate] at heq
      split at heq
      · exact absurd (Option.some.inj heq).symm hf
      · cases heq
  · intro heq
    have hlt := (List.getElem?_eq_some_iff.mp heq).1
    exact ⟨lt_of_lt_of_le hlt h.length, by rw [h.getElem? hlt, heq]⟩

/-- A table with room takes a fingerprint in its first free slot. -/
theorem insert_eq (h : TableHolds H cap v fs t) (hlt : fs.length < cap) (hf : f ≠ 0) :
    ∃ t', t.insert H f = some (fs.length, t') ∧ TableHolds H cap v (fs ++ [f]) t' ∧
      t'.lock = t.lock := by
  have hfree : List.replicate (cap - fs.length) (0 : UInt8) =
      0 :: List.replicate (cap - (fs.length + 1)) 0 := by
    rw [← List.replicate_succ]
    congr 1
    omega
  have hidx : t.fp.findIdx? (· == 0) = some fs.length := by
    rw [h.fp, hfree]
    exact InnerNode.findIdx?_append_cons (fun b hb => by simpa using h.ne_zero b hb) (by simp)
  have hset : t.fp.set fs.length f = fs ++ [f] ++ List.replicate (cap - (fs.length + 1)) 0 := by
    rw [h.fp, hfree]
    simp
  refine ⟨({ t with fp := t.fp.set fs.length f } : FPTable).setConsistent H, ?_, ⟨?_, ?_, ?_, ?_, ?_⟩,
    rfl⟩
  · simp only [FPTable.insert, hidx]
  · change t.fp.set fs.length f = _
    rw [hset, List.length_append, List.length_singleton]
  · simpa using hlt
  · intro g hg
    rcases List.mem_append.mp hg with hg | hg
    · exact h.ne_zero g hg
    · rwa [List.mem_singleton.mp hg]
  · exact h.version
  · simp [FPTable.checkConsistent, FPTable.setConsistent]

theorem insert_full (h : TableHolds H cap v fs t) (hfull : fs.length = cap) :
    t.insert H f = none := by
  have hidx : t.fp.findIdx? (· == 0) = none := by
    rw [h.fp, hfull, Nat.sub_self, List.replicate_zero, List.append_nil, List.findIdx?_eq_none_iff]
    exact fun f hf => by simpa using h.ne_zero f hf
  simp only [FPTable.insert, hidx]

theorem zero (cap v : Nat) : TableHolds H cap v [] ((FPTable.zero cap).setVersion H v) :=
  ⟨by simp [FPTable.zero, FPTable.setVersion, FPTable.setConsistent], by simp, by simp, rfl,
    by simp [FPTable.checkConsistent, FPTable.setVersion, FPTable.setConsistent]⟩

end TableHolds

/-! ## Lookup by fingerprint -/

/-- What the loop of `leaf_search` finds in a leaf whose slots have the version of the record: it looks
at the slots with the fingerprint of the key, in order. -/
def fpLookup (H : Hashes) (t : FPTable) (leaf : Leaf) (k : Key) : Option Value :=
  (matching t (calKeyFp H k) t.fp.length).findSome? fun i => leaf.entries[i]?.bind (·.search k)

/-- A slot in which the key is found holds a pair with that key. -/
theorem EntriesHold.search_some (h : EntriesHold cap v kv es) {k : Key} {w : Value}
    (hs : (es[i]?.bind fun e => e.search k) = some w) : (⟨k, w⟩ : EntryPos) ∈ kv := by
  obtain ⟨free, rfl, hfree, -⟩ := h
  obtain ⟨e, he, hes⟩ := Option.bind_eq_some_iff.mp hs
  unfold Entry.search at hes
  split at hes
  · next hc =>
    simp only [Bool.and_eq_true, beq_iff_eq] at hc
    rcases List.mem_append.mp (List.mem_of_getElem? he) with hm | hm
    · obtain ⟨q, hq, rfl⟩ := List.mem_map.mp hm
      obtain ⟨rfl, rfl⟩ : q.key = k ∧ q.value = w := ⟨hc.2, Option.some.inj hes⟩
      exact hq
    · rw [(hfree e hm).1] at hc
      exact absurd hc.1 (by decide)
  · cases hes

/-- Every pair of a leaf is found by its fingerprint. -/
theorem fpLookup_eq_some {leaf : Leaf} (he : EntriesHold cap v kv leaf.entries)
    (ht : TableHolds H cap v (kv.map fun q => calKeyFp H q.key) t)
    (hnd : (kv.map EntryPos.key).Nodup) (hp : p ∈ kv) : fpLookup H t leaf p.key = some p.value := by
  obtain ⟨i, hi⟩ := List.mem_iff_getElem?.mp hp
  have hmem : i ∈ matching t (calKeyFp H p.key) t.fp.length := by
    rw [ht.fp_length, ht.mem_matching (calKeyFp_ne_zero _), List.getElem?_map, hi]
    rfl
  have hfound : (leaf.entries[i]?.bind fun e => e.search p.key) = some p.value := by
    rw [he.getElem? hi]
    simp [Entry.search, liveEntry]
  unfold fpLookup
  cases hw : (matching t (calKeyFp H p.key) t.fp.length).findSome? fun i =>
      leaf.entries[i]?.bind (·.search p.key) with
  | none =>
    have hnone := List.findSome?_eq_none_iff.mp hw i hmem
    rw [hfound] at hnone
    cases hnone
  | some w =>
    obtain ⟨j, -, hj⟩ := List.exists_of_findSome?_eq_some hw
    have heq := List.inj_on_of_nodup_map hnd (he.search_some hj) hp rfl
    exact congrArg some (congrArg EntryPos.value heq)

/-! ## `leaf_resize` -/

/-- The loop of `leaf_resize` fills the slots one after another, of which it may be given only those
that it needs. -/
theorem fillLeaf_eq {cap' v' : Nat} (ps : List EntryPos) (ht : TableHolds H cap v fs t)
    (he : EntriesHold cap' v' kv es) (hlen : fs.length = kv.length)
    (hfit : kv.length + ps.length ≤ cap) (hfit' : kv.length + ps.length ≤ cap') :
    ∃ t' es', fillLeaf H ps t es = some (t', es') ∧
      TableHolds H cap v (fs ++ ps.map fun p => calKeyFp H p.key) t' ∧ t'.lock = t.lock ∧
      EntriesHold cap' v' (kv ++ ps) es' := by
  induction ps generalizing fs kv t es with
  | nil => exact ⟨t, es, rfl, by simpa using ht, rfl, by simpa using he⟩
  | cons p ps ih =>
    rw [List.length_cons] at hfit hfit'
    obtain ⟨t₁, hins, ht₁, hlock⟩ := ht.insert_eq (f := calKeyFp H p.key) (by omega)
      (calKeyFp_ne_zero p.key)
    have he₁ := he.append (p := p) (by omega)
    obtain ⟨t', es', hfill, ht', hlock', he'⟩ := ih ht₁ he₁ (by simp [hlen]) (by simp; omega)
      (by simp; omega)
    refine ⟨t', es', ?_, by simpa using ht', hlock'.trans hlock, by simpa using he'⟩
    rw [fillLeaf, hins]
    simp only [hlen, he.insert_free (p := p) (by omega), hfill]

/-- The pairs of a leaf and a new pair, in order. -/
def sortedPairs (p : EntryPos) (kv : List EntryPos) : List EntryPos :=
  (p :: kv).insertionSort fun a b => a.key ≤ b.key

/-- Where `leaf_resize` divides the sorted pairs of a leaf with `cap` slots. -/
def splitPoint (cap siblingCap : Nat) : Nat := if siblingCap > cap then 0 else (cap + 1) / 2

theorem perm_sortedPairs : (sortedPairs p kv).Perm (p :: kv) := List.perm_insertionSort _ _

theorem sorted_sortedPairs (hnd : (kv.map EntryPos.key).Nodup) (hp : ∀ q ∈ kv, q.key ≠ p.key) :
    Sorted EntryPos.key (sortedPairs p kv) := by
  have : Std.Total fun a b : EntryPos => a.key ≤ b.key := ⟨fun a b => le_total _ _⟩
  have : IsTrans EntryPos fun a b => a.key ≤ b.key := ⟨fun _ _ _ => le_trans⟩
  have hle := List.pairwise_insertionSort (fun a b : EntryPos => a.key ≤ b.key) (p :: kv)
  have hnd' : ((sortedPairs p kv).map EntryPos.key).Nodup := by
    refine (perm_sortedPairs.map _).nodup_iff.mpr (List.nodup_cons.mpr ⟨?_, hnd⟩)
    intro hmem
    obtain ⟨q, hq, hqk⟩ := List.mem_map.mp hmem
    exact hp q hq hqk
  exact (hle.and (List.pairwise_map.mp hnd')).imp fun h => lt_of_le_of_ne h.1 h.2

theorem length_sortedPairs : (sortedPairs p kv).length = kv.length + 1 := by
  rw [perm_sortedPairs.length_eq, List.length_cons]

/-- What `leaf_resize` makes of a full leaf that holds `kv` and of the new pair `p`. -/
structure ResizedAs (H : Hashes) (leaf : Leaf) (p : EntryPos) (kv : List EntryPos) (cap cap' : Nat)
    (a fa : Gaddr) (q : EntryPos) (x : Resized) : Prop where
  /-- `q` is the first pair that moves to the sibling. -/
  cut : (sortedPairs p kv)[splitPoint cap cap']? = some q
  current_hdr : x.current.hdr = { leaf.hdr with
    version := leaf.hdr.version + 1, maxKey := q.key, rightAddr := a, rightFpAddr := fa
    rightCapacity := cap' }
  current : EntriesHold cap (leaf.hdr.version + 1) ((sortedPairs p kv).take (splitPoint cap cap'))
    x.current.entries
  currentTable : TableHolds H cap (leaf.hdr.version + 1)
    (((sortedPairs p kv).take (splitPoint cap cap')).map fun p => calKeyFp H p.key) x.currentTable
  currentLock : x.currentTable.lock = false
  sibling_hdr : x.sibling.hdr = { leaf.hdr with version := 0, capacity := cap', minKey := q.key }
  sibling : EntriesHold cap' 0 ((sortedPairs p kv).drop (splitPoint cap cap')) x.sibling.entries
  siblingTable : TableHolds H cap' 0
    (((sortedPairs p kv).drop (splitPoint cap cap')).map fun p => calKeyFp H p.key) x.siblingTable
  siblingLock : x.siblingTable.lock = false

theorem splitPoint_le {cap' : Nat} : splitPoint cap cap' ≤ cap := by
  simp only [splitPoint]
  split <;> omega

/-- The sibling has room for its share. -/
theorem share_le {cap' : Nat} (hcap : cap ≤ cap') (h0 : 0 < cap) :
    cap + 1 - splitPoint cap cap' ≤ cap' := by
  simp only [splitPoint]
  split <;> omega

/-- A table in zero memory becomes consistent with the first insertion; the sibling gets at least
one pair. -/
theorem fillLeaf_zero (H : Hashes) (cap : Nat) {cap' v' : Nat} (he : EntriesHold cap' v' [] es)
    {ps : List EntryPos} (hne : ps ≠ []) (hfit : ps.length ≤ cap) (hfit' : ps.length ≤ cap') :
    ∃ t' es', fillLeaf H ps (FPTable.zero cap) es = some (t', es') ∧
      TableHolds H cap 0 (ps.map fun p => calKeyFp H p.key) t' ∧ t'.lock = false ∧
      EntriesHold cap' v' ps es' := by
  have hconv : ∀ f, (FPTable.zero cap).insert H f = ((FPTable.zero cap).setVersion H 0).insert H f := by
    intro f
    simp only [FPTable.insert, FPTable.setVersion, FPTable.setConsistent, FPTable.zero]
  cases ps with
  | nil => exact absurd rfl hne
  | cons p ps =>
    obtain ⟨t', es', hfill, ht', hlock, he'⟩ := fillLeaf_eq (H := H) (p :: ps)
      (TableHolds.zero cap 0) he rfl (by simpa using hfit) (by simpa using hfit')
    refine ⟨t', es', ?_, by simpa using ht', hlock, by simpa using he'⟩
    rw [fillLeaf, hconv]
    exact hfill

theorem resizeLeaf_spec {leaf : Leaf} {cap' : Nat} {a fa : Gaddr} (h0 : 0 < cap)
    (he : EntriesHold cap leaf.hdr.version kv leaf.entries) (hfull : kv.length = cap)
    (hcap : cap ≤ cap') :
    ∃ x q, resizeLeaf H leaf p cap cap' a fa = some x ∧ ResizedAs H leaf p kv cap cap' a fa q x := by
  have hentries : (nodeEntries leaf p).insertionSort (fun a b => a.key ≤ b.key) =
      sortedPairs p kv := by
    rw [nodeEntries, he.filter_valid, sortedPairs]
  have hlen : (sortedPairs p kv).length = cap + 1 := by rw [length_sortedPairs, hfull]
  have hsplit : (if cap' > cap then 0 else (sortedPairs p kv).length / 2) = splitPoint cap cap' := by
    rw [hlen, splitPoint]
  have hle : splitPoint cap cap' ≤ cap := splitPoint_le
  have hcut : (sortedPairs p kv)[splitPoint cap cap']? =
      some ((sortedPairs p kv).get ⟨splitPoint cap cap', by omega⟩) :=
    List.getElem?_eq_getElem _
  generalize (sortedPairs p kv).get ⟨splitPoint cap cap', by omega⟩ = q at hcut
  obtain ⟨t, es, hfill, ht, hlock, hes⟩ := fillLeaf_eq (H := H)
    ((sortedPairs p kv).take (splitPoint cap cap'))
    (TableHolds.zero cap (leaf.hdr.version + 1)) (he.clean leaf.hdr) rfl
    (by simp; omega) (by simp; omega)
  have hshare : ((sortedPairs p kv).drop (splitPoint cap cap')).length ≤ cap' := by
    have hle := share_le hcap h0
    rw [List.length_drop, hlen]
    exact hle
  have hsome : (sortedPairs p kv).drop (splitPoint cap cap') ≠ [] := by
    rw [← List.length_pos_iff, List.length_drop, hlen]
    omega
  obtain ⟨t', es', hfill', ht', hlock', hes'⟩ := fillLeaf_zero H _ (EntriesHold.zero cap') hsome
    hshare hshare
  have hleaf : (⟨leaf.hdr, leaf.entries⟩ : Leaf) = leaf := rfl
  rw [hleaf] at hfill
  refine ⟨⟨⟨{ leaf.hdr with
        version := leaf.hdr.version + 1, maxKey := q.key, rightAddr := a, rightFpAddr := fa
        rightCapacity := cap' }, es⟩, t,
      ⟨{ leaf.hdr with version := 0, capacity := cap', minKey := q.key }, es'⟩, t'⟩, q, ?_, ?_⟩
  · simp only [resizeLeaf, hentries, hsplit, hcut, LeafHeader.updateRight, hfill, hfill']
  · exact ⟨hcut, rfl, by simpa using hes, by simpa using ht, hlock, rfl, hes', ht', hlock'⟩

/-- The pairs in the valid slots of a leaf. -/
def Leaf.pairs (leaf : Leaf) : List EntryPos := (leaf.entries.filter (·.valid)).map Entry.pos

/-- A leaf all of whose slots hold pairs: the keys are distinct and in its range, and every slot has
the version of the header. -/
structure FullLeaf (cap : Nat) (leaf : Leaf) : Prop where
  pos : 0 < cap
  le_max : cap ≤ maxNodeCapacity
  length : leaf.entries.length = cap
  slots : ∀ e ∈ leaf.entries, e.valid = true ∧ e.version = leaf.hdr.version
  distinct : (leaf.entries.map Entry.key).Nodup
  range : ∀ e ∈ leaf.entries, leaf.hdr.minKey ≤ e.key ∧ e.key < leaf.hdr.maxKey

theorem FullLeaf.entriesHold {leaf : Leaf} (h : FullLeaf cap leaf) :
    EntriesHold cap leaf.hdr.version (leaf.entries.map Entry.pos) leaf.entries := by
  refine ⟨[], ?_, by simp, by simp [h.length]⟩
  rw [List.append_nil, List.map_map]
  conv_lhs => rw [← List.map_id leaf.entries]
  refine List.map_congr_left fun e he => ?_
  obtain ⟨hv, hver⟩ := h.slots e he
  cases e
  simp_all [liveEntry, Entry.pos]

theorem FullLeaf.pairs {leaf : Leaf} (h : FullLeaf cap leaf) :
    leaf.pairs = leaf.entries.map Entry.pos := h.entriesHold.filter_valid

theorem adaptCapacity_ge (grow : Bool) (hcap : cap ≤ maxNodeCapacity) : cap ≤ adaptCapacity grow cap := by
  unfold adaptCapacity
  split <;> omega

/-- The first pair that moves to the sibling separates the pairs. -/
theorem ResizedAs.cut_spec {leaf : Leaf} {cap' : Nat} {a fa : Gaddr} {q : EntryPos} {x : Resized}
    (h : ResizedAs H leaf p kv cap cap' a fa q x) (hs : Sorted EntryPos.key (sortedPairs p kv)) :
    (∀ s ∈ (sortedPairs p kv).take (splitPoint cap cap'), s.key < q.key) ∧
      ∀ s ∈ (sortedPairs p kv).drop (splitPoint cap cap'), q.key ≤ s.key := by
  obtain ⟨hlt, hq⟩ := List.getElem?_eq_some_iff.mp h.cut
  have hsplit : sortedPairs p kv = (sortedPairs p kv).take (splitPoint cap cap') ++
      q :: (sortedPairs p kv).drop (splitPoint cap cap' + 1) := by
    rw [← hq, List.getElem_cons_drop, List.take_append_drop]
  have hdrop : (sortedPairs p kv).drop (splitPoint cap cap') =
      q :: (sortedPairs p kv).drop (splitPoint cap cap' + 1) := by
    rw [← hq, List.getElem_cons_drop]
  rw [hsplit] at hs
  refine ⟨fun s hmem => hs.left_lt hmem, fun s hmem => ?_⟩
  rw [hdrop] at hmem
  rcases List.mem_cons.mp hmem with rfl | hmem
  · exact le_rfl
  · exact (hs.lt_right hmem).le

/-- What `leaf_resize` is to make of `leaf`, which has `cap` slots, and the new pair `p`. -/
structure Partitioned (H : Hashes) (leaf : Leaf) (p : EntryPos) (cap cap' : Nat) (a fa : Gaddr)
    (x : Resized) : Prop where
  /-- Each pair is in exactly one of the two leaves. -/
  perm : (x.current.pairs ++ x.sibling.pairs).Perm (p :: leaf.pairs)
  nodup : ((x.current.pairs ++ x.sibling.pairs).map EntryPos.key).Nodup
  /-- The sibling's `min_key` separates them. -/
  current_range : ∀ q ∈ x.current.pairs, leaf.hdr.minKey ≤ q.key ∧ q.key < x.sibling.hdr.minKey
  sibling_range : ∀ q ∈ x.sibling.pairs, x.sibling.hdr.minKey ≤ q.key ∧ q.key < leaf.hdr.maxKey
  /-- Each pair is found by its fingerprint. -/
  current_lookup : ∀ q ∈ x.current.pairs, fpLookup H x.currentTable x.current q.key = some q.value
  sibling_lookup : ∀ q ∈ x.sibling.pairs, fpLookup H x.siblingTable x.sibling q.key = some q.value
  current_hdr : x.current.hdr = { leaf.hdr with
    version := leaf.hdr.version + 1, maxKey := x.sibling.hdr.minKey, rightAddr := a
    rightFpAddr := fa, rightCapacity := x.sibling.hdr.capacity }
  sibling_hdr : x.sibling.hdr = { leaf.hdr with
    version := 0, minKey := x.sibling.hdr.minKey, capacity := cap' }
  current_version : x.currentTable.version = leaf.hdr.version + 1 ∧
    ∀ e ∈ x.current.entries, e.version = leaf.hdr.version + 1
  sibling_version : x.siblingTable.version = 0 ∧ ∀ e ∈ x.sibling.entries, e.version = 0
  current_capacity : x.current.pairs.length ≤ x.current.entries.length ∧
    x.current.entries.length = cap ∧ x.currentTable.fp.length = cap
  sibling_capacity : x.sibling.pairs.length ≤ x.sibling.entries.length ∧
    x.sibling.entries.length = x.sibling.hdr.capacity ∧
    x.siblingTable.fp.length = x.sibling.hdr.capacity

/-- `leaf_resize` of a full leaf divides its pairs and the new pair between the leaf and its sibling,
whatever `adapt_capacity` says. -/
theorem resizeLeaf_partitioned (H : Hashes) {leaf : Leaf} (h : FullLeaf cap leaf)
    (hkey : leaf.hdr.minKey ≤ p.key ∧ p.key < leaf.hdr.maxKey)
    (hnew : ∀ e ∈ leaf.entries, e.key ≠ p.key) (grow : Bool) (a fa : Gaddr) :
    ∃ x, resizeLeaf H leaf p cap (adaptCapacity grow cap) a fa = some x ∧
      Partitioned H leaf p cap (adaptCapacity grow cap) a fa x := by
  have hcap := adaptCapacity_ge grow h.le_max
  obtain ⟨x, q, hx, hr⟩ : ∃ x q, resizeLeaf H leaf p cap (adaptCapacity grow cap) a fa = some x ∧
      ResizedAs H leaf p (leaf.entries.map Entry.pos) cap (adaptCapacity grow cap) a fa q x :=
    resizeLeaf_spec h.pos h.entriesHold (by simp [h.length]) hcap
  have hnd : ((leaf.entries.map Entry.pos).map EntryPos.key).Nodup := by
    rw [List.map_map]
    exact h.distinct
  have hne : ∀ s ∈ leaf.entries.map Entry.pos, s.key ≠ p.key := by
    intro s hs
    obtain ⟨e, he, rfl⟩ := List.mem_map.mp hs
    exact hnew e he
  have hsort := sorted_sortedPairs hnd hne
  obtain ⟨hlow, hhigh⟩ := hr.cut_spec hsort
  have hcur : x.current.pairs = _ := hr.current.filter_valid
  have hsib : x.sibling.pairs = _ := hr.sibling.filter_valid
  have hrange : ∀ s ∈ sortedPairs p (leaf.entries.map Entry.pos),
      leaf.hdr.minKey ≤ s.key ∧ s.key < leaf.hdr.maxKey := by
    intro s hs
    rcases List.mem_cons.mp (perm_sortedPairs.mem_iff.mp hs) with rfl | hs
    · exact hkey
    · obtain ⟨e, he, rfl⟩ := List.mem_map.mp hs
      exact h.range e he
  have hkeys := hsort.nodup_keys
  rw [← List.take_append_drop (splitPoint cap (adaptCapacity grow cap))
    (sortedPairs p (leaf.entries.map Entry.pos)), List.map_append] at hkeys
  obtain ⟨hnd₁, hnd₂, -⟩ := List.nodup_append.mp hkeys
  refine ⟨x, hx, ?_, ?_, ?_, ?_, ?_, ?_, ?_, ?_,
    ⟨hr.currentTable.version, fun e he => hr.current.version_eq he⟩,
    ⟨hr.siblingTable.version, fun e he => hr.sibling.version_eq he⟩,
    ⟨?_, hr.current.length, hr.currentTable.fp_length⟩, ?_, ?_, ?_⟩
  · rw [hcur, hsib, List.take_append_drop, h.pairs]
    exact perm_sortedPairs
  · rw [hcur, hsib, List.take_append_drop]
    exact hsort.nodup_keys
  · rw [hcur, hr.sibling_hdr]
    exact fun s hs => ⟨(hrange s (List.mem_of_mem_take hs)).1, hlow s hs⟩
  · rw [hsib, hr.sibling_hdr]
    exact fun s hs => ⟨hhigh s hs, (hrange s (List.mem_of_mem_drop hs)).2⟩
  · rw [hcur]
    exact fun s hs => fpLookup_eq_some hr.current hr.currentTable hnd₁ hs
  · rw [hsib]
    exact fun s hs => fpLookup_eq_some hr.sibling hr.siblingTable hnd₂ hs
  · rw [hr.current_hdr, hr.sibling_hdr]
  · rw [hr.sibling_hdr]
  · rw [hcur, hr.current.length]
    exact hr.current.length_le
  · rw [hsib, hr.sibling.length]
    exact hr.sibling.length_le
  · rw [hr.sibling.length, hr.sibling_hdr]
  · rw [hr.siblingTable.fp_length, hr.sibling_hdr]

end DMTree
