import DMTree.Proofs.RawLeafProofs

/-!
# A leaf that grows over its own table

When `adapt_capacity` doubles the capacity, `leaf_resize` moves all pairs of a leaf to the sibling. With
the sibling in the slot behind the page the table of a leaf of capacity 64 lies in the middle of the
entries of the sibling, and the last slots of the leaf in front of it. No assertion fails then: the leaf
and its table are written with what the pairs of the sibling have left there.
-/

namespace DMTree.Raw

open Bytes Buffers Code

variable {H : Hashes} {cityHash32 : List UInt8 → UInt32} {place : Buffer → Nat} {m : Mem} {a n : Nat}
  {leaf : Leaf} {p : EntryPos} {mem : Mem}

/-! ## Free entries -/

/-- Where `valid` and `version` are zero there is an entry that is not valid. -/
theorem exists_entry_of_word (h : At m a (List.replicate 8 0)) :
    ∃ e : Entry, (e.valid = false ∧ e.version = 0) ∧ At m a e.bytes := by
  have hsplit : List.replicate 8 (0 : UInt8) = [0] ++ leBytes 7 0 := by decide
  rw [hsplit, at_append, at_singleton] at h
  refine ⟨⟨false, 0, .ofBytes (bytesAt m (a + 8) keySize),
    .ofNat (leNat (bytesAt m (a + 8 + keySize) 8))⟩, ⟨rfl, rfl⟩, at_entry.mpr ⟨h.1, h.2, ?_, ?_⟩⟩
  · unfold At
    rw [Key.bytes_ofBytes length_bytesAt, length_bytesAt]
  · have hlt : leNat (bytesAt m (a + 8 + keySize) 8) < 2 ^ 64 := by
      have hlt := leNat_lt (bytesAt m (a + 8 + keySize) 8)
      rwa [length_bytesAt] at hlt
    have hback := leBytes_leNat (bytesAt m (a + 8 + keySize) 8)
    rw [length_bytesAt] at hback
    unfold At
    rw [UInt64.toNat_ofNat_of_lt' hlt, length_leBytes, hback]

/-- Where every such word is zero all entries are free, whatever their keys and values are. -/
theorem exists_entries_of_words (n : Nat) :
    ∀ {a : Nat}, (∀ i < n, At m (a + i * entrySize) (List.replicate 8 0)) →
      ∃ es, EntriesHold n 0 [] es ∧ At m a (es.flatMap Entry.bytes) := by
  induction n with
  | zero => exact fun _ => ⟨[], ⟨[], rfl, by simp, rfl⟩, rfl⟩
  | succ n ih =>
    intro a h
    have h0 := h 0 (by omega)
    rw [Nat.zero_mul, Nat.add_zero] at h0
    obtain ⟨e, he, hat⟩ := exists_entry_of_word h0
    obtain ⟨es, ⟨free, rfl, hfree, hlen⟩, hes⟩ := ih (a := a + entrySize) fun i hi => by
      have hi := h (i + 1) (by omega)
      rwa [Nat.add_mul, Nat.one_mul, Nat.add_comm (i * entrySize), ← Nat.add_assoc] at hi
    refine ⟨e :: es, ⟨e :: es, rfl, List.forall_mem_cons.mpr ⟨he, hfree⟩, ?_⟩, ?_⟩
    · simp only [List.length_nil, List.length_cons] at hlen ⊢
      omega
    · rw [List.flatMap_cons, at_append, length_entry_bytes]
      exact ⟨hat, hes⟩

/-- The bytes of the first `n` pairs come first. -/
theorem exists_front {cap ver : Nat} {kv : List EntryPos} {es : List Entry}
    (h : EntriesHold cap ver kv es) (n : Nat) :
    ∃ rest, es.flatMap Entry.bytes = ((kv.take n).map (liveEntry ver)).flatMap Entry.bytes ++ rest := by
  obtain ⟨free, rfl, -⟩ := h
  refine ⟨((kv.drop n).map (liveEntry ver) ++ free).flatMap Entry.bytes, ?_⟩
  rw [← List.flatMap_append, ← List.append_assoc, ← List.map_append, List.take_append_drop]

/-! ## The table under the sibling -/

/-- `set_version` writes two words. -/
theorem setVersion_words (cityHash32 : List UInt8 → UInt32) (place : Buffer → Nat) (b : Buffer)
    (n : Nat) (m : Mem) (v : Nat) :
    ∃ m', ((FPTable.attach b 0 n).setVersion cityHash32 v).run place m = some ((), m') ∧
      ∀ y, (y < place b ∨ place b + 8 ≤ y) → (y < place b + 8 + n ∨ place b + 8 + n + 8 ≤ y) →
        m' y = m y := by
  refine ⟨_, (run_bind_of (run_put ..)).trans (FPTable.setConsistent_run _), fun y h1 h2 => ?_⟩
  rw [setBytes_outside (by rw [length_leBytes]; omega), setBytes_outside]
  rw [length_leBytes]
  exact h1

/-- The entries that `leaf_resize` sorts. -/
abbrev sortedEntries (leaf : Leaf) (p : EntryPos) : List EntryPos :=
  (nodeEntries leaf p).insertionSort fun a b => a.key ≤ b.key

/-- What is written when a leaf of capacity 64 grows over its own table: the images are parts of the
entries `es` of the sibling, which are those of the pairs. -/
structure GrownOver (leaf : Leaf) (p : EntryPos) (a fa : UInt64) (es : List Entry) (x : Images) :
    Prop where
  holds : EntriesHold 128 0 (sortedEntries leaf p) es
  header : ∀ q, (sortedEntries leaf p)[0]? = some q →
    x.current.take headerSize = currentHdr leaf.hdr.bytes a fa 128 q.key
  current : x.current.drop (kPageSize + headerSize) = (es.flatMap Entry.bytes).take 512
  table : x.currentTable = ((es.flatMap Entry.bytes).drop 512).take 88

/-- A full leaf of capacity 64 grows, with the sibling in the slot behind the page: nothing fails, and
the table of the leaf is a part of the entries of the sibling. -/
theorem leafResize_grow (hH : H.OfBytes cityHash32) (h : FullLeaf 64 leaf)
    (hmem : bytesAt mem 0 (curNodeSize 64) = leaf.bytes)
    (hplace : place .curFpBuffer = place .buffer + curNodeSize 64)
    (hsib : place .siblingBuffer = place .buffer + kPageSize)
    (hsfp : place .sibFpBuffer = place .siblingBuffer + curNodeSize 128) (a fa : UInt64) (m : Mem) :
    ∃ images m' es, (leafResize H cityHash32 mem p 64 128 a fa).run place m = some (images, m') ∧
      GrownOver leaf p a fa es images := by
  have hsize : curNodeSize 64 = 2640 := rfl
  have hsize' : curNodeSize 128 = 5200 := rfl
  have hpage : kPageSize = 2048 := rfl
  have hhs : headerSize = 80 := rfl
  have hes : entrySize = 40 := rfl
  obtain ⟨m₀, hrun₀, hhdr₀, -, -⟩ :=
    leafResize_collect H cityHash32 128 hmem h.length hplace.ge p a fa m
  have hlen : (sortedEntries leaf p).length = 65 := by
    rw [List.length_insertionSort, nodeEntries, h.entriesHold.filter_valid, List.length_cons,
      List.length_map, h.length]
  -- the sibling and its table are cleared
  generalize hm1 : setBytes (setBytes m₀ (place .siblingBuffer) (List.replicate (curNodeSize 128) 0))
    (place .sibFpBuffer) (List.replicate (128 + 8 * 3) 0) = m₁
  have hz : At m₁ (place .siblingBuffer) (List.replicate (curNodeSize 128) 0) := by
    rw [← hm1]
    exact at_setBytes.setBytes (.inl (by rw [List.length_replicate]; omega))
  have hhdr₁ : bytesAt m₁ (place .buffer) headerSize = leaf.hdr.bytes := by
    refine At.read (hhdr₀.frame fun y _ hy => ?_) (length_header_bytes _)
    rw [length_header_bytes] at hy
    rw [← hm1, setBytes_outside (by omega), setBytes_outside (by omega)]
  have hsfp₁ : At m₁ (place .sibFpBuffer) (DMTree.FPTable.zero 128).bytes := by
    rw [bytes_zero, ← hm1]
    exact at_setBytes
  -- the version and the checksum of the table of the leaf are written over them
  obtain ⟨q, hq⟩ : ∃ q, (sortedEntries leaf p)[0]? = some q :=
    ⟨_, List.getElem?_eq_getElem (by omega)⟩
  obtain ⟨m₂, hrun₂, hout₂⟩ := setVersion_words cityHash32 place .curFpBuffer 64 m₁
    (signExtend (hdrVersion (currentHdr leaf.hdr.bytes a fa 128 q.key)))
  have hword : ∀ i < 128,
      At m₂ (place .siblingBuffer + headerSize + i * entrySize) (List.replicate 8 0) := by
    intro i hi
    rw [hes]
    have hpart := hz.replicate (i := headerSize + i * 40) (k := 8) (by omega)
    rw [← Nat.add_assoc] at hpart
    refine hpart.frame fun y h1 h2 => hout₂ y ?_ ?_
    all_goals
      rw [List.length_replicate] at h2
      omega
  obtain ⟨es₀, hfree, hent⟩ := exists_entries_of_words 128 hword
  have hsfp₂ : At m₂ (place .sibFpBuffer) (DMTree.FPTable.zero 128).bytes :=
    hsfp₁.frame fun y h1 _ => hout₂ y (by omega) (by omega)
  -- all pairs go to the sibling
  have hne : sortedEntries leaf p ≠ [] := by
    rw [← List.length_pos_iff]
    omega
  obtain ⟨t, es, hfill, -, -, hhold⟩ := fillLeaf_zero H 128 hfree hne (by omega) (by omega)
  obtain ⟨-, -, m₃, hrun₃, -, hent₃, -⟩ := insertPairs_run (b := .siblingBuffer) hH
    (by decide) _ hsfp₂ List.length_replicate hent
    (.inr (by rw [hfree.length]; omega)) hfill
  generalize hm4 : setBytes (setBytes m₃ (place .buffer)
    (currentHdr leaf.hdr.bytes a fa 128 q.key)) (place .siblingBuffer)
    (siblingHdr leaf.hdr.bytes 128 q.key) = m₄
  have hlh := length_currentHdr (length_header_bytes leaf.hdr) a fa 128 q.key
  have hls := length_siblingHdr (length_header_bytes leaf.hdr) 128 q.key
  have hent₄ : At m₄ (place .siblingBuffer + headerSize) (es.flatMap Entry.bytes) := by
    rw [← hm4]
    exact (hent₃.setBytes (.inr (by omega))).setBytes (.inr (by omega))
  have hcur₄ : At m₄ (place .buffer) (currentHdr leaf.hdr.bytes a fa 128 q.key) := by
    rw [← hm4]
    exact at_setBytes.setBytes (.inl (by omega))
  have hel : (es.flatMap Entry.bytes).length = 5120 := by
    rw [length_entries_bytes, hhold.length, hes]
  have hrun : (leafResize H cityHash32 mem p 64 128 a fa).run place m = some
      (⟨bytesAt m₄ (place .siblingBuffer) (curNodeSize 128),
        bytesAt m₄ (place .sibFpBuffer) (128 + 8 * 3), bytesAt m₄ (place .buffer) (curNodeSize 64),
        bytesAt m₄ (place .curFpBuffer) (64 + 8 * 3)⟩, m₄) := by
    rw [hrun₀]
    unfold splitEntries
    simp only [getSize_attach]
    rw [run_bind_of (run_put ..), run_bind_of (run_put ..), run_bind_of (run_get ..)]
    simp only [Nat.add_zero, hm1, hhdr₁]
    rw [if_pos (by decide : 128 > 64), hq]
    rw [run_bind_of hrun₂]
    refine (run_bind_of rfl).trans ((run_bind_of hrun₃).trans ?_)
    rw [run_bind_of (run_put ..), run_bind_of (run_put ..)]
    simp only [Nat.add_zero, hm4]
    rfl
  refine ⟨_, m₄, es, hrun, hhold, fun q' hq' => ?_, ?_, ?_⟩
  · obtain rfl := Option.some.inj (hq.symm.trans hq')
    have hpart := take_drop_bytesAt (m := m₄) (a := place .buffer) (n := curNodeSize 64) (i := 0)
      (k := headerSize) (by omega)
    rw [List.drop_zero] at hpart
    rw [hpart]
    exact hcur₄.read hlh
  · have hpart := take_drop_bytesAt (m := m₄) (a := place .buffer) (n := curNodeSize 64)
      (i := kPageSize + headerSize) (k := 512) (by omega)
    rw [List.take_of_length_le (by rw [List.length_drop, length_bytesAt]; omega)] at hpart
    rw [hpart, ← Nat.add_assoc, ← hsib]
    exact hent₄.part (i := 0) (by omega)
  · have hover : place .curFpBuffer = place .siblingBuffer + headerSize + 512 := by omega
    rw [← hent₄.part (i := 512) (k := 88) (by omega), hover]

/-! ## A leaf that has grown once -/

/-- The leaf `grownLeaf` after its pairs have been overwritten. -/
def overwritten (value : Key → Value) : Leaf :=
  { grownLeaf with entries := grownLeaf.entries.map fun e => { e with value := value e.key } }

/-- The bytes of that leaf in remote memory. -/
def overwrittenMem (value : Key → Value) : Mem := fun x => (overwritten value).bytes.getD x 0

variable (value : Key → Value) (v : Value)

theorem overwritten_keys :
    (overwritten value).entries.map Entry.key = grownLeaf.entries.map Entry.key := by
  rw [overwritten, List.map_map]
  rfl

theorem overwritten_full : FullLeaf 64 (overwritten value) where
  pos := by decide
  le_max := by decide
  length := (List.length_map _).trans grownLeaf_full.length
  slots := by
    intro e he
    obtain ⟨e', he', rfl⟩ := List.mem_map.mp he
    exact grownLeaf_full.slots e' he'
  distinct := by
    rw [overwritten_keys]
    exact grownLeaf_full.distinct
  range := by
    intro e he
    obtain ⟨e', he', rfl⟩ := List.mem_map.mp he
    exact grownLeaf_full.range e' he'

theorem overwrittenMem_bytes :
    bytesAt (overwrittenMem value) 0 (curNodeSize 64) = (overwritten value).bytes := by
  have hlen : (overwritten value).bytes.length = curNodeSize 64 := by
    rw [Leaf.bytes, List.length_append, length_header_bytes, length_entries_bytes,
      (overwritten_full value).length]
    rfl
  rw [← hlen]
  exact bytesAt_getD

/-- The pair of `overwritten value` or the new pair with the key `k`. -/
def pairOf (k : Key) : EntryPos := ⟨k, if k = .ofNat 65 then v else value k⟩

theorem nodeEntries_overwritten : nodeEntries (overwritten value) ⟨.ofNat 65, v⟩ =
    (.ofNat 65 :: grownLeaf.entries.map Entry.key).map (pairOf value v) := by
  rw [nodeEntries, (overwritten_full value).entriesHold.filter_valid, List.map_cons, overwritten,
    List.map_map, List.map_map, pairOf, if_pos rfl]
  refine congrArg _ (List.map_congr_left fun e he => ?_)
  change (⟨e.key, value e.key⟩ : EntryPos) = pairOf value v e.key
  rw [pairOf, if_neg (grownLeaf_new e he)]

/-- The pairs with the 15 smallest keys. -/
theorem take_sortedEntries : (sortedEntries (overwritten value) ⟨.ofNat 65, v⟩).take 15 =
    (List.range 15).map fun i => ⟨.ofNat (2 * i), value (.ofNat (2 * i))⟩ := by
  have hkeys : (((Key.ofNat 65 :: grownLeaf.entries.map Entry.key).insertionSort (· ≤ ·)).take 15) =
      (List.range 15).map fun i => .ofNat (2 * i) := by decide +kernel
  have hne : ∀ i ∈ List.range 15, Key.ofNat (2 * i) ≠ .ofNat 65 := by decide
  have hsort := List.map_insertionSort (r := (· ≤ ·)) (s := fun a b => a.key ≤ b.key)
    (f := pairOf value v) (l := .ofNat 65 :: grownLeaf.entries.map Entry.key) fun _ _ _ _ => Iff.rfl
  rw [sortedEntries, nodeEntries_overwritten, ← hsort, ← List.map_take, hkeys, List.map_map]
  refine List.map_congr_left fun i hi => ?_
  rw [Function.comp_apply, pairOf, if_neg (hne i hi)]

/-- The bytes of the first 15 entries of the sibling. -/
def frontBytes : List UInt8 :=
  (((List.range 15).map fun i => ⟨.ofNat (2 * i), value (.ofNat (2 * i))⟩).map (liveEntry 0)).flatMap
    Entry.bytes

/-- The header that the leaf gets. -/
def shrunkHdr (a fa : Gaddr) : LeafHeader :=
  { grownLeaf.hdr.updateRight a fa 128 with version := 6, maxKey := .ofNat 0 }

/-- The key 65 is added with the page cursor on the last page buffer and the sibling cursor on the first
sibling buffer, and the sibling has twice the capacity. -/
abbrev growRun (H : Hashes) (cityHash32 : List UInt8 → UInt32) (a fa : Gaddr) (m : Mem) :
    Option (Images × Mem) :=
  (leafResize H cityHash32 (overwrittenMem value) ⟨.ofNat 65, v⟩ 64 (adaptCapacity true 64) a.word
    fa.word).run (RdmaBuffer.place ⟨0, 6, 7⟩ 64 (adaptCapacity true 64)) m

/-- What is written then. -/
structure GrownImages (a fa : Gaddr) (x : Images) : Prop where
  header : x.current.take headerSize = (shrunkHdr a fa).bytes
  current : x.current.drop (kPageSize + headerSize) = (frontBytes value).take 512
  table : x.currentTable = (frontBytes value).drop 512

theorem growRun_images (H : Hashes) (cityHash32 : List UInt8 → UInt32) (a fa : Gaddr) (m : Mem) :
    ∃ images m', growRun value v H cityHash32 a fa m = some (images, m') ∧
      GrownImages value a fa images := by
  have hplace : RdmaBuffer.place ⟨0, 6, 7⟩ 64 128 .curFpBuffer =
      RdmaBuffer.place ⟨0, 6, 7⟩ 64 128 .buffer + curNodeSize 64 := by decide
  obtain ⟨images, m', es, hrun, h⟩ := leafResize_grow (p := ⟨.ofNat 65, v⟩)
    (H := { H with table := fun v fp => cityHash32 (leBytes 8 v ++ fp) }) (fun _ _ => rfl)
    (overwritten_full value) (overwrittenMem_bytes value) hplace (by decide) (by decide)
    a.word fa.word m
  rw [leafResize_congr] at hrun
  have hlen : (frontBytes value).length = 600 := by
    rw [frontBytes, length_entries_bytes, List.length_map, List.length_map, List.length_range]
    rfl
  obtain ⟨rest, hrest⟩ := exists_front h.holds 15
  rw [take_sortedEntries, ← frontBytes] at hrest
  have hfirst : (sortedEntries (overwritten value) ⟨.ofNat 65, v⟩)[0]? =
      some ⟨.ofNat 0, value (.ofNat 0)⟩ := by
    rw [← List.getElem?_take_of_lt (j := 15) (by omega), take_sortedEntries]
    rfl
  refine ⟨images, m', hrun, ?_, ?_, ?_⟩
  · rw [h.header _ hfirst, currentHdr_bytes]
    rfl
  · rw [h.current, hrest, List.take_append_of_le_length (by omega)]
  · rw [h.table, hrest, List.drop_append_of_le_length (by omega),
      List.take_left' (by rw [List.length_drop, hlen])]

/-- The fields of a table whose image has been written. -/
theorem fieldsAt_setBytes {bs : List UInt8} {n : Nat} (h : bs.length = n + 8 * 3) (mem : Mem)
    (c : Nat) : fieldsAt (setBytes mem c bs) c n =
      ⟨leNat (bs.take 8), (bs.drop 8).take n, leNat ((bs.drop (8 + n + 8)).take 8)⟩ := by
  have hat : At (setBytes mem c bs) c bs := at_setBytes
  have hversion := hat.part (i := 0) (k := 8) (by omega)
  have hfp := hat.part (i := 8) (k := n) (by omega)
  have hlock := hat.part (i := 8 + n + 8) (k := 8) (by omega)
  rw [Nat.add_zero, List.drop_zero] at hversion
  rw [fieldsAt, hversion, hfp, ← hlock, Nat.add_assoc c 8, Nat.add_assoc c]

/-- The words of the 13th and of the 15th value. -/
theorem frontBytes_eq : ∃ front mid, front.length = 512 ∧ mid.length = 72 ∧
    frontBytes value = front ++ (leBytes 8 (value (.ofNat 24)).toNat ++
      (mid ++ leBytes 8 (value (.ofNat 28)).toNat)) := by
  have hrange : List.range 15 = List.range 12 ++ [12, 13, 14] := rfl
  let entry (i : Nat) : Entry := liveEntry 0 ⟨.ofNat (2 * i), value (.ofNat (2 * i))⟩
  let front (i : Nat) : List UInt8 := validByte true :: leBytes 7 0 ++ (Key.ofNat (2 * i)).bytes
  have hentry : ∀ i, (entry i).bytes = front i ++ leBytes 8 (value (.ofNat (2 * i))).toNat :=
    fun _ => rfl
  have hfront : ∀ i, (front i).length = 32 := fun i => by
    simp only [front, List.length_append, List.length_cons, length_leBytes, Key.length_bytes]
    rfl
  have hbytes : frontBytes value = ((List.range 12).map entry).flatMap Entry.bytes ++
      ((entry 12).bytes ++ ((entry 13).bytes ++ (entry 14).bytes)) := by
    rw [frontBytes, List.map_map, hrange, List.map_append, List.flatMap_append]
    simp only [List.map_cons, List.map_nil, List.flatMap_cons, List.flatMap_nil, List.append_nil]
    rfl
  refine ⟨((List.range 12).map entry).flatMap Entry.bytes ++ front 12, (entry 13).bytes ++ front 14,
    ?_, ?_, ?_⟩
  · rw [List.length_append, length_entries_bytes, List.length_map, List.length_range, hfront]
    rfl
  · rw [List.length_append, length_entry_bytes, hfront]
    rfl
  · rw [hbytes, hentry 12, hentry 14]
    simp only [List.append_assoc]

theorem leNat_value (x : Value) : leNat (leBytes 8 x.toNat) = x.toNat := by
  rw [leNat_leBytes, Nat.mod_eq_of_lt (lt_of_lt_of_eq x.toNat_lt (by decide))]

/-- The version of the table is the value of the key 24, and its lock is the value of the key 28. -/
theorem GrownImages.fields {value : Key → Value} {a fa : Gaddr} {x : Images}
    (h : GrownImages value a fa x) (mem : Mem) (c : Nat) :
    (fieldsAt (setBytes mem c x.currentTable) c 64).version = (value (.ofNat 24)).toNat ∧
      (fieldsAt (setBytes mem c x.currentTable) c 64).lock = (value (.ofNat 28)).toNat := by
  obtain ⟨front, mid, hfront, hmid, heq⟩ := frontBytes_eq value
  have htable := h.table
  rw [heq, List.drop_left' hfront] at htable
  have hlen : x.currentTable.length = 64 + 8 * 3 := by
    rw [htable, List.length_append, List.length_append, length_leBytes, length_leBytes, hmid]
  rw [fieldsAt_setBytes hlen, htable]
  constructor
  · rw [List.take_left' (length_leBytes ..), leNat_value]
  · dsimp only
    rw [← List.append_assoc, List.drop_left' (by rw [List.length_append, length_leBytes, hmid]),
      List.take_of_length_le (length_leBytes ..).le, leNat_value]

/-- Another part of the leaf lies over the first entries of the sibling. -/
theorem GrownImages.slot {value : Key → Value} {a fa : Gaddr} {x : Images}
    (h : GrownImages value a fa x) {i : Nat} (hi : i < 12) :
    (x.current.drop (getEntryOffset (52 + i))).take entrySize =
      ((frontBytes value).drop (32 + i * entrySize)).take entrySize := by
  have hoff : getEntryOffset (52 + i) = kPageSize + headerSize + (32 + i * entrySize) := by
    simp only [getEntryOffset, headerSize, entrySize, kPageSize, keySize]
    omega
  rw [hoff, ← List.drop_drop, h.current, List.drop_take, List.take_take, Nat.min_eq_left]
  simp only [entrySize, keySize]
  omega

/-- The table is written with a version that is not the version of the leaf. -/
theorem growRun_versions : FullLeaf 64 (overwritten fun _ => 1) ∧
    ∀ (H : Hashes) (cityHash32 : List UInt8 → UInt32) (v : Value) (a fa : Gaddr) (m : Mem),
      ∃ images m', growRun (fun _ => 1) v H cityHash32 a fa m = some (images, m') ∧
        images.current.take headerSize = (shrunkHdr a fa).bytes ∧ (shrunkHdr a fa).version = 6 ∧
        ∀ mem c, (fieldsAt (setBytes mem c images.currentTable) c 64).version = 1 := by
  refine ⟨overwritten_full _, fun H cityHash32 v a fa m => ?_⟩
  obtain ⟨images, m', hrun, h⟩ := growRun_images (fun _ => 1) v H cityHash32 a fa m
  exact ⟨images, m', hrun, h.header, rfl, fun mem c => (h.fields mem c).1⟩

/-- Values under which the table keeps the version of the leaf from before. -/
def oldVersion (k : Key) : Value := if k = .ofNat 24 then 5 else if k = .ofNat 28 then 0 else 1

/-- The table is written unlocked and with the version from before, and the leaf with an empty range. -/
theorem growRun_stale_version : FullLeaf 64 (overwritten oldVersion) ∧
    (overwritten oldVersion).hdr.version = 5 ∧
    ∀ (H : Hashes) (cityHash32 : List UInt8 → UInt32) (v : Value) (a fa : Gaddr) (m : Mem),
      ∃ images m', growRun oldVersion v H cityHash32 a fa m = some (images, m') ∧
        images.current.take headerSize = (shrunkHdr a fa).bytes ∧
        (shrunkHdr a fa).minKey = (shrunkHdr a fa).maxKey ∧
        ∀ mem c, (fieldsAt (setBytes mem c images.currentTable) c 64).version = 5 ∧
          (fieldsAt (setBytes mem c images.currentTable) c 64).lock = 0 := by
  refine ⟨overwritten_full _, rfl, fun H cityHash32 v a fa m => ?_⟩
  obtain ⟨images, m', hrun, h⟩ := growRun_images oldVersion v H cityHash32 a fa m
  exact ⟨images, m', hrun, h.header, rfl, fun mem c => h.fields mem c⟩

end DMTree.Raw
