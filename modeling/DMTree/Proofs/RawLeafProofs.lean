import DMTree.Raw.Encoding
import DMTree.Proofs.LeafNodeProofs
import DMTree.Proofs.RawResizeProofs

/-!
# `leaf_resize` on bytes

On buffers that do not overlap, the images of `Raw.leafResize` are the bytes of what `resizeLeaf`
computes, and it fails where `resizeLeaf` fails. Each step of the one is matched with a step of the
other: the bytes of the table and of the entries stand in memory before and after it, and all other
bytes stay what they were.

Where the buffers overlap, the entries of the sibling and the table of the leaf lie on top of each
other. The split of a full leaf of capacity 64 then fails.
-/

namespace DMTree.Raw

open Bytes Buffers Code

variable {H : Hashes} {cityHash32 : List UInt8 → UInt32} {place : Buffer → Nat} {m : Mem} {a n : Nat}

/-! ## Encodings -/

theorem ofNat_leNat_value (v : Value) : UInt64.ofNat (leNat (leBytes 8 v.toNat)) = v := by
  rw [leNat_leBytes, Nat.mod_eq_of_lt (lt_of_lt_of_eq v.toNat_lt (by decide)), UInt64.ofNat_toNat]

@[simp] theorem length_entry_bytes (e : Entry) : e.bytes.length = entrySize := by
  simp [Entry.bytes, entrySize]
  omega

@[simp] theorem length_entries_bytes (es : List Entry) :
    (es.flatMap Entry.bytes).length = es.length * entrySize := by
  simp [List.length_flatMap, Nat.mul_comm]

@[simp] theorem length_header_bytes (h : LeafHeader) : h.bytes.length = headerSize := by
  simp [LeafHeader.bytes, LeafHeader.fields, headerSize]
  omega

@[simp] theorem length_table_bytes (t : DMTree.FPTable) : t.bytes.length = t.fp.length + 24 := by
  simp [FPTable.bytes]
  omega

/-- The parts of an entry in memory. -/
theorem at_entry {e : Entry} : At m a e.bytes ↔ m a = validByte e.valid ∧
    At m (a + 1) (leBytes 7 e.version) ∧ At m (a + 8) e.key.bytes ∧
    At m (a + 8 + keySize) (leBytes 8 e.value.toNat) := by
  rw [Entry.bytes, ← List.singleton_append, at_append, at_append, at_append, at_singleton]
  simp only [List.length_append, List.length_singleton, length_leBytes, Key.length_bytes, and_assoc]
  have h1 : 1 + 7 + keySize = 8 + keySize := rfl
  rw [h1, Nat.add_assoc a 8]

/-- The parts of a table in memory. -/
theorem at_table {t : DMTree.FPTable} (hn : t.fp.length = n) : At m a t.bytes ↔
    At m a (leBytes 8 t.version) ∧ At m (a + 8) t.fp ∧ At m (a + 8 + n) (leBytes 8 t.crc.toNat) ∧
      At m (a + 8 + n + 8) (leBytes 8 (if t.lock then 1 else 0)) := by
  rw [FPTable.bytes, at_append, at_append, at_append]
  simp only [List.length_append, length_leBytes, hn, and_assoc, Nat.add_assoc]

/-! ## Tables -/

section Tables

variable {b : Buffer} {t t' : DMTree.FPTable}

theorem bytes_zero (n : Nat) : (DMTree.FPTable.zero n).bytes = List.replicate (n + 8 * 3) 0 := by
  have hcrc : (0 : UInt32).toNat = 0 := rfl
  simp only [FPTable.bytes, FPTable.zero, hcrc, Bool.false_eq_true, if_false, leBytes_zero,
    List.replicate_append_replicate]
  congr 1
  omega

/-- `set_consistent` after a change of the version or the fingerprints. -/
theorem setConsistent_at (hH : H.OfBytes cityHash32) (hn : t.fp.length = n)
    (hv : At m (place b) (leBytes 8 t.version)) (hf : At m (place b + 8) t.fp)
    (hl : At m (place b + 8 + n + 8) (leBytes 8 (if t.lock then 1 else 0))) :
    ∃ m', ((FPTable.attach b 0 n).setConsistent cityHash32).run place m = some ((), m') ∧
      At m' (place b) (t.setConsistent H).bytes ∧ FPTable.SameOutside m m' (place b) n := by
  have hspan : bytesAt m (place b) (n + 8) = leBytes 8 t.version ++ t.fp := by
    have hboth : At m (place b) (leBytes 8 t.version ++ t.fp) := by
      rw [at_append, length_leBytes]
      exact ⟨hv, hf⟩
    exact hboth.read (by rw [List.length_append, length_leBytes, hn, Nat.add_comm])
  refine ⟨_, FPTable.setConsistent_run m, ?_, FPTable.sameOutside_setBytes (by omega) ?_⟩
  · rw [hspan, ← hH t.version t.fp]
    refine (at_table (t := t.setConsistent H) hn).mpr ⟨hv.setBytes ?_, hf.setBytes ?_, at_setBytes,
      hl.setBytes ?_⟩
    · rw [length_leBytes]
      omega
    · omega
    · simp only [length_leBytes]
      omega
  · rw [length_leBytes]
    omega

theorem setVersion_at (hH : H.OfBytes cityHash32) (ht : At m (place b) t.bytes) (hn : t.fp.length = n)
    (v : Nat) :
    ∃ m', ((FPTable.attach b 0 n).setVersion cityHash32 v).run place m = some ((), m') ∧
      At m' (place b) (t.setVersion H v).bytes ∧ FPTable.SameOutside m m' (place b) n := by
  obtain ⟨-, hf, -, hl⟩ := (at_table hn).mp ht
  obtain ⟨m', hrun, hm', hout⟩ := setConsistent_at (b := b) (t := { t with version := v }) hH hn
    (at_setBytes (m := m)) (hf.setBytes (by rw [length_leBytes]; omega))
    (hl.setBytes (by simp only [length_leBytes]; omega))
  refine ⟨m', (run_bind_of (run_put ..)).trans hrun, hm', FPTable.SameOutside.trans ?_ hout⟩
  exact FPTable.sameOutside_setBytes le_rfl (by rw [length_leBytes]; omega)

/-- A full table takes no fingerprint. -/
theorem insert_none_at (cityHash32 : List UInt8 → UInt32) (ht : At m (place b) t.bytes)
    (hn : t.fp.length = n) (hlt : n < 2 ^ 31) {f : UInt8} (hi : t.insert H f = none) :
    ((FPTable.attach b 0 n).insert cityHash32 f).run place m = some (none, m) := by
  obtain ⟨-, hf, -⟩ := (at_table hn).mp ht
  have hfind : t.fp.findIdx? (· == 0) = none := by
    cases hfind : t.fp.findIdx? (· == 0) with
    | none => rfl
    | some i => simp [DMTree.FPTable.insert, hfind] at hi
  exact FPTable.insertLoop_full (hf.read hn) hlt f hfind n 0 (Nat.zero_add n)

/-- `insert` of a table in memory. -/
theorem insert_some_at (hH : H.OfBytes cityHash32) (ht : At m (place b) t.bytes)
    (hn : t.fp.length = n) (hlt : n < 2 ^ 31) {f : UInt8} {i : Nat} (hi : t.insert H f = some (i, t')) :
    i < n ∧ t'.fp.length = n ∧
      ∃ m', ((FPTable.attach b 0 n).insert cityHash32 f).run place m = some (some i, m') ∧
        At m' (place b) t'.bytes ∧ FPTable.SameOutside m m' (place b) n := by
  obtain ⟨hv, hf, -, hl⟩ := (at_table hn).mp ht
  have hfind : t.fp.findIdx? (· == 0) = some i ∧
      t' = ({ t with fp := t.fp.set i f } : DMTree.FPTable).setConsistent H := by
    cases hfind : t.fp.findIdx? (· == 0) with
    | none => simp [DMTree.FPTable.insert, hfind] at hi
    | some j =>
      simp only [DMTree.FPTable.insert, hfind, Option.some.injEq, Prod.mk.injEq] at hi
      obtain ⟨rfl, rfl⟩ := hi
      exact ⟨rfl, rfl⟩
  obtain ⟨hfind, rfl⟩ := hfind
  have hin : i < n := hn ▸ (List.findIdx?_eq_some_iff_getElem.mp hfind).1
  have hlen : (t.fp.set i f).length = n := by rw [List.length_set, hn]
  obtain ⟨m', hrun, hm', hout⟩ := setConsistent_at (b := b) (n := n)
    (t := { t with fp := t.fp.set i f }) (m := setBytes m (place b + (8 + i)) [f]) hH hlen
    (hv.setBytes (by rw [length_leBytes]; omega)) (by rw [← Nat.add_assoc]; exact hf.set)
    (hl.setBytes (by simp only [List.length_singleton]; omega))
  refine ⟨hin, hlen, m', ?_, hm', (FPTable.sameOutside_slot hin).trans hout⟩
  refine (FPTable.insertLoop_found (hf.read hn) hfind (hin.trans hlt) f n 0 (Nat.zero_add n)
    (Nat.zero_le i)).trans ?_
  rw [hrun]
  rfl

end Tables

/-! ## Entries -/

section Entries

variable {b : Buffer} {es : List Entry} {e e' : Entry} {off i : Nat}

/-- `Entry::insert` refuses the key. -/
theorem insertEntry_refuse (hv : m (place b + off) ≠ 0) {p : EntryPos}
    (hk : bytesAt m (place b + (off + 8)) keySize ≠ p.key.bytes) :
    (insertEntry b off p).run place m = some (false, m) := by
  have hvalid : bytesAt m (place b + off) 1 ≠ [0] := by simpa [bytesAt] using hv
  unfold insertEntry
  rw [run_bind_of (run_get ..), if_neg hvalid, run_bind_of (run_get ..), if_neg hk]
  rfl

theorem insertEntry_none_at (he : At m (place b + off) e.bytes) {p : EntryPos}
    (hi : e.insert p.key p.value = none) : (insertEntry b off p).run place m = some (false, m) := by
  obtain ⟨hv, -, hk, -⟩ := at_entry.mp he
  obtain ⟨hvalid, hne⟩ : e.valid = true ∧ e.key ≠ p.key := by
    unfold Entry.insert at hi
    split at hi
    · cases hi
    · next hvalid =>
      split at hi
      · cases hi
      · next hne => exact ⟨by simpa using hvalid, by simpa using hne⟩
  refine insertEntry_refuse (by rw [hv, hvalid]; decide) fun heq => hne ?_
  rw [← Nat.add_assoc, hk.read (Key.length_bytes _)] at heq
  rw [← Key.ofBytes_bytes e.key, heq, Key.ofBytes_bytes]

theorem insertEntry_some_at (he : At m (place b + off) e.bytes) {p : EntryPos}
    (hi : e.insert p.key p.value = some e') :
    ∃ m', (insertEntry b off p).run place m = some (true, m') ∧ At m' (place b + off) e'.bytes ∧
      ∀ y, y < place b + off ∨ place b + off + entrySize ≤ y → m' y = m y := by
  obtain ⟨hv, hver, hk, hval⟩ := at_entry.mp he
  have hes : entrySize = 8 + keySize + 8 := rfl
  cases hvalid : e.valid with
  | false =>
    obtain rfl : { e with key := p.key, value := p.value, valid := true } = e' := by
      simpa [Entry.insert, hvalid] using hi
    rw [hvalid] at hv
    have hbyte : bytesAt m (place b + off) 1 = [0] := by simp [bytesAt, hv, validByte]
    refine ⟨setBytes (setBytes (setBytes m (place b + (off + 8)) p.key.bytes)
      (place b + (off + 8 + keySize)) (leBytes 8 p.value.toNat)) (place b + off) [1], ?_, ?_, ?_⟩
    · unfold insertEntry
      rw [run_bind_of (run_get ..), hbyte, if_pos rfl, run_bind_of (run_put ..),
        run_bind_of (run_put ..), run_bind_of (run_put ..), run_pure]
    · refine at_entry.mpr ⟨at_singleton.mp at_setBytes, ?_, ?_, ?_⟩
      · refine ((hver.setBytes ?_).setBytes ?_).setBytes ?_
        · rw [length_leBytes]
          omega
        · rw [length_leBytes]
          omega
        · simp
      · have hkey : At (setBytes m (place b + off + 8) p.key.bytes) (place b + off + 8) p.key.bytes :=
          at_setBytes
        simp only [← Nat.add_assoc]
        refine (hkey.setBytes ?_).setBytes ?_
        · rw [Key.length_bytes]
          omega
        · rw [List.length_singleton]
          omega
      · simp only [← Nat.add_assoc]
        refine at_setBytes.setBytes ?_
        rw [List.length_singleton]
        omega
    · intro y hy
      rw [setBytes_outside (by rw [List.length_singleton]; omega),
        setBytes_outside (by rw [length_leBytes]; omega),
        setBytes_outside (by rw [Key.length_bytes]; omega)]
  | true =>
    obtain ⟨hkey, rfl⟩ : e.key = p.key ∧ { e with value := p.value } = e' := by
      simpa [Entry.insert, hvalid] using hi
    rw [hvalid] at hv
    have hbyte : bytesAt m (place b + off) 1 ≠ [0] := by simp [bytesAt, hv, validByte]
    have hread : bytesAt m (place b + (off + 8)) keySize = p.key.bytes := by
      rw [← Nat.add_assoc, ← hkey]
      exact hk.read (Key.length_bytes _)
    refine ⟨setBytes m (place b + (off + 8 + keySize)) (leBytes 8 p.value.toNat), ?_, ?_, ?_⟩
    · unfold insertEntry
      rw [run_bind_of (run_get ..), if_neg hbyte, run_bind_of (run_get ..), if_pos hread,
        run_bind_of (run_put ..), run_pure]
    · simp only [← Nat.add_assoc]
      refine at_entry.mpr ⟨?_, hver.setBytes ?_, hk.setBytes ?_, at_setBytes⟩
      · rw [setBytes_outside (by omega), hv, hvalid]
      · rw [length_leBytes]
        omega
      · rw [Key.length_bytes]
        omega
    · intro y hy
      rw [setBytes_outside (by rw [length_leBytes]; omega)]

/-- The bytes of one of several entries. -/
theorem at_entries_get (h : At m a (es.flatMap Entry.bytes)) (hi : es[i]? = some e) :
    At m (a + i * entrySize) e.bytes := by
  induction es generalizing a i with
  | nil => simp at hi
  | cons e₀ es ih =>
    rw [List.flatMap_cons, at_append, length_entry_bytes] at h
    cases i with
    | zero =>
      obtain rfl : e₀ = e := by simpa using hi
      simpa using h.1
    | succ i =>
      have hrest := ih h.2 (by simpa using hi)
      rwa [Nat.add_mul, Nat.one_mul, Nat.add_comm (i * entrySize), ← Nat.add_assoc]

/-- One of several entries is replaced. -/
theorem at_entries_set {m' : Mem} (h : At m a (es.flatMap Entry.bytes)) (hi : i < es.length)
    (he : At m' (a + i * entrySize) e'.bytes)
    (hm : ∀ y, a ≤ y → y < a + es.length * entrySize →
      y < a + i * entrySize ∨ a + i * entrySize + entrySize ≤ y → m' y = m y) :
    At m' a ((es.set i e').flatMap Entry.bytes) := by
  induction es generalizing a i with
  | nil => simp at hi
  | cons e₀ es ih =>
    rw [List.flatMap_cons, at_append, length_entry_bytes] at h
    rw [List.length_cons, Nat.add_mul, Nat.one_mul] at hm
    cases i with
    | zero =>
      rw [List.set_cons_zero, List.flatMap_cons, at_append, length_entry_bytes]
      refine ⟨by simpa using he, h.2.frame fun y h1 h2 => hm y (by omega) ?_ (by omega)⟩
      rw [length_entries_bytes] at h2
      omega
    | succ i =>
      have hpos : (i + 1) * entrySize = entrySize + i * entrySize := by
        rw [Nat.add_mul, Nat.one_mul, Nat.add_comm]
      rw [hpos] at he hm
      rw [List.set_cons_succ, List.flatMap_cons, at_append, length_entry_bytes]
      refine ⟨h.1.frame fun y h1 h2 => hm y h1 ?_ (.inl ?_), ih h.2 (by simpa using hi) ?_ ?_⟩
      · rw [length_entry_bytes] at h2
        omega
      · rw [length_entry_bytes] at h2
        omega
      · rwa [← Nat.add_assoc] at he
      · intro y h1 h2 h3
        exact hm y (by omega) (by omega) (by omega)

end Entries

/-! ## The loop over the entries -/

section Collect

variable {es : List Entry} {i : Nat}

theorem leNat_word (b : UInt8) (v : Nat) :
    leNat (b :: leBytes 7 v) = b.toNat + 256 * (v % 256 ^ 7) := by
  rw [leNat, leNat_leBytes]

/-- `add_version` changes the upper bytes of the word. -/
theorem leBytes_addVersion (b : UInt8) (v : Nat) :
    leBytes 8 (addVersion (leNat (b :: leBytes 7 v))) = b :: leBytes 7 (v + 1) := by
  have hb : b.toNat < 256 := b.toNat_lt
  have hraw : addVersion (leNat (b :: leBytes 7 v)) = b.toNat + 256 * ((v + 1) % 256 ^ 7) := by
    rw [leNat_word, addVersion]
    omega
  have hdiv : (b.toNat + 256 * ((v + 1) % 256 ^ 7)) / 256 = (v + 1) % 256 ^ 7 := by omega
  have hlow : UInt8.ofNat (b.toNat + 256 * ((v + 1) % 256 ^ 7)) = b := by
    apply UInt8.toNat_inj.mp
    rw [UInt8.toNat_ofNat']
    omega
  rw [hraw, leBytes, hdiv, hlow, leBytes_mod]

/-- What the loop leaves of an entry. -/
def leftOver (e : Entry) : Entry := if e.valid then e.addVersion.clean else e.addVersion

theorem bytes_keyNull : KeyNull.bytes = List.replicate keySize 0 := by decide

/-- One round of the loop. -/
theorem collectEntries_cons {e : Entry} {k : Nat}
    (he : At m (place .buffer + getEntryOffset i) e.bytes) :
    ∃ m', (collectEntries (k + 1) i).run place m = ((collectEntries k (i + 1)).run place m').map
        (fun x => (if e.valid then e.pos :: x.1 else x.1, x.2)) ∧
      At m' (place .buffer + getEntryOffset i) (leftOver e).bytes ∧
      ∀ y, y < place .buffer + getEntryOffset i ∨ place .buffer + getEntryOffset i + entrySize ≤ y →
        m' y = m y := by
  have hes : entrySize = 8 + keySize + 8 := rfl
  obtain ⟨hv, hver, hk, hval⟩ := at_entry.mp he
  generalize hx : place .buffer + getEntryOffset i = x at *
  have hword : bytesAt m x 8 = validByte e.valid :: leBytes 7 e.version := by
    have hboth : At m x ([validByte e.valid] ++ leBytes 7 e.version) :=
      at_append.mpr ⟨at_singleton.mpr hv, hver⟩
    exact hboth.read (by simp)
  generalize hw : setBytes m x (validByte e.valid :: leBytes 7 (e.version + 1)) = w
  have hwword : At w x ([validByte e.valid] ++ leBytes 7 (e.version + 1)) := hw ▸ at_setBytes
  obtain ⟨hwv, hwver⟩ := at_append.mp hwword
  have hwk : At w (x + 8) e.key.bytes := hw ▸ hk.setBytes (by simp)
  have hwval : At w (x + 8 + keySize) (leBytes 8 e.value.toNat) := hw ▸ hval.setBytes (by simp)
  have hwout : ∀ y, y < x ∨ x + entrySize ≤ y → w y = m y := by
    intro y hy
    rw [← hw, setBytes_outside]
    simp
    omega
  have hone : bytesAt w x 1 = [validByte e.valid] := hwv.read rfl
  cases hvalid : e.valid with
  | false =>
    rw [hvalid] at hone hwv
    refine ⟨w, ?_, ?_, hwout⟩
    · rw [collectEntries, run_bind_of (run_get ..), run_bind_of (run_put ..), run_bind_of (run_get ..),
        hx, hword, leBytes_addVersion, hw, hone, if_neg (by decide)]
      simp
    · have hleft : leftOver e = { e with version := e.version + 1, valid := false } := by
        simp [leftOver, Entry.addVersion, hvalid]
      rw [hleft]
      exact at_entry.mpr ⟨at_singleton.mp hwv, hwver, hwk, hwval⟩
  | true =>
    rw [hvalid] at hone
    refine ⟨setBytes (setBytes w x [0]) (x + 8) (List.replicate keySize 0), ?_, ?_, fun y hy => ?_⟩
    · rw [collectEntries, run_bind_of (run_get ..), run_bind_of (run_put ..), run_bind_of (run_get ..),
        hx, hword, leBytes_addVersion, hw, hone, if_pos (by decide), run_bind_of (run_get ..),
        run_bind_of (run_get ..), run_bind_of (run_put ..), run_bind_of (run_put ..), run_bind]
      simp only [← Nat.add_assoc, hx, hwk.read (Key.length_bytes _), hwval.read (length_leBytes _ _),
        Key.ofBytes_bytes, ofNat_leNat_value]
      cases (collectEntries k (i + 1)).run place
        (setBytes (setBytes w x [0]) (x + 8) (List.replicate keySize 0)) <;> rfl
    · have hleft : leftOver e = ⟨false, e.version + 1, KeyNull, e.value⟩ := by
        simp [leftOver, Entry.addVersion, Entry.clean, hvalid]
      rw [hleft]
      refine at_entry.mpr ⟨?_, ?_, ?_, ?_⟩
      · rw [setBytes_outside (by omega)]
        exact at_singleton.mp at_setBytes
      · refine (hwver.setBytes ?_).setBytes ?_ <;> simp
      · rw [bytes_keyNull]
        exact at_setBytes
      · refine (hwval.setBytes ?_).setBytes ?_ <;> simp
        omega
    · rw [setBytes_outside (by rw [List.length_replicate]; omega),
        setBytes_outside (by rw [List.length_singleton]; omega), hwout y hy]

/-- The loop collects the pairs of the valid entries, and leaves the entries with a new version. -/
theorem collectEntries_run (es : List Entry) :
    ∀ {i : Nat} {m : Mem}, At m (place .buffer + getEntryOffset i) (es.flatMap Entry.bytes) →
      ∃ m', (collectEntries es.length i).run place m =
          some ((es.filter (·.valid)).map Entry.pos, m') ∧
        At m' (place .buffer + getEntryOffset i) ((es.map leftOver).flatMap Entry.bytes) ∧
        ∀ y, y < place .buffer + getEntryOffset i ∨
          place .buffer + getEntryOffset i + es.length * entrySize ≤ y → m' y = m y := by
  induction es with
  | nil => exact fun _ => ⟨_, rfl, rfl, fun _ _ => rfl⟩
  | cons e es ih =>
    intro i m h
    have hnext : getEntryOffset (i + 1) = getEntryOffset i + entrySize := by
      simp [getEntryOffset, Nat.add_mul, Nat.add_assoc]
    rw [List.flatMap_cons, at_append, length_entry_bytes] at h
    obtain ⟨m₁, hrun₁, he, hout₁⟩ := collectEntries_cons (k := es.length) h.1
    obtain ⟨m', hrun, hes, hout⟩ := ih (i := i + 1) (m := m₁) (by
      rw [hnext, ← Nat.add_assoc]
      exact h.2.frame fun y hy _ => hout₁ y (.inr hy))
    rw [hnext, ← Nat.add_assoc] at hes hout
    refine ⟨m', ?_, ?_, fun y hy => ?_⟩
    · rw [List.length_cons, hrun₁, hrun]
      cases hv : e.valid <;> simp [hv]
    · rw [List.map_cons, List.flatMap_cons, at_append, length_entry_bytes]
      exact ⟨he.frame fun y _ hy => hout y (.inl (by rwa [length_entry_bytes] at hy)), hes⟩
    · rw [List.length_cons, Nat.add_mul, Nat.one_mul] at hy
      rw [hout y (by omega), hout₁ y (by omega)]

end Collect

/-! ## The loop that inserts the pairs -/

section Insert

variable {bt b : Buffer} {t t' : DMTree.FPTable} {es es' : List Entry} {p : EntryPos}

/-- Two memories that differ at most in a table of capacity `n` and in `k` entries. -/
def SameElsewhere (place : Buffer → Nat) (bt b : Buffer) (n k : Nat) (m m' : Mem) : Prop :=
  ∀ y, (y < place bt ∨ place bt + (n + 24) ≤ y) →
    (y < place b + headerSize ∨ place b + headerSize + k * entrySize ≤ y) → m' y = m y

/-- Entries stay what they are when a table apart from them is written. -/
theorem entries_frame {m' : Mem} (he : At m (place b + headerSize) (es.flatMap Entry.bytes))
    (hd : place bt + (n + 24) ≤ place b + headerSize ∨
      place b + headerSize + es.length * entrySize ≤ place bt)
    (hout : ∀ y, y < place bt ∨ place bt + (n + 24) ≤ y → m' y = m y) :
    At m' (place b + headerSize) (es.flatMap Entry.bytes) := by
  refine he.frame fun y h1 h2 => hout y ?_
  rw [length_entries_bytes] at h2
  omega

/-- A round that succeeds. -/
theorem insertPair_run (hH : H.OfBytes cityHash32) (ht : At m (place bt) t.bytes)
    (hn : t.fp.length = n) (hlt : n < 2 ^ 31)
    (he : At m (place b + headerSize) (es.flatMap Entry.bytes))
    (hd : place bt + (n + 24) ≤ place b + headerSize ∨
      place b + headerSize + es.length * entrySize ≤ place bt) {i : Nat} {e : Entry}
    (hi : t.insert H (calKeyFp H p.key) = some (i, t'))
    (hx : (es[i]?.bind fun e => e.insert p.key p.value) = some e) :
    t'.fp.length = n ∧ ∃ m',
      (insertPair H cityHash32 (FPTable.attach bt 0 n) b p).run place m = some ((), m') ∧
      At m' (place bt) t'.bytes ∧
      At m' (place b + headerSize) ((es.set i e).flatMap Entry.bytes) ∧
      SameElsewhere place bt b n es.length m m' := by
  obtain ⟨e₀, hei, hins⟩ := Option.bind_eq_some_iff.mp hx
  have hlen : i < es.length := (List.getElem?_eq_some_iff.mp hei).1
  have hslot : i * entrySize + entrySize ≤ es.length * entrySize := by
    rw [← Nat.succ_mul]
    exact Nat.mul_le_mul_right _ hlen
  obtain ⟨-, hn', m₁, hrun₁, ht₁, hout₁⟩ := insert_some_at hH ht hn hlt hi
  have he₁ := entries_frame he hd hout₁
  have hoff : place b + getEntryOffset i = place b + headerSize + i * entrySize := by
    rw [getEntryOffset, Nat.add_assoc]
  obtain ⟨m', hrun, hm', hout⟩ := insertEntry_some_at (b := b)
    (hoff ▸ at_entries_get he₁ hei) hins
  rw [hoff] at hm' hout
  refine ⟨hn', m', ?_, ?_, at_entries_set he₁ hlen hm' fun y _ _ hy => hout y hy, fun y h1 h2 => ?_⟩
  · unfold insertPair
    rw [run_bind_of hrun₁, run_bind_of hrun]
    rfl
  · refine ht₁.frame fun y h1 h2 => hout y ?_
    rw [length_table_bytes, hn'] at h2
    omega
  · rw [hout y (by omega), hout₁ y h1]

/-- The rounds succeed where those of `fillLeaf` do. -/
theorem insertPairs_run (hH : H.OfBytes cityHash32) (hlt : n < 2 ^ 31) (ps : List EntryPos) :
    ∀ {t : DMTree.FPTable} {es : List Entry} {m : Mem}, At m (place bt) t.bytes → t.fp.length = n →
      At m (place b + headerSize) (es.flatMap Entry.bytes) →
      (place bt + (n + 24) ≤ place b + headerSize ∨
        place b + headerSize + es.length * entrySize ≤ place bt) →
      fillLeaf H ps t es = some (t', es') → t'.fp.length = n ∧ es'.length = es.length ∧
      ∃ m', (insertPairs H cityHash32 (FPTable.attach bt 0 n) b ps).run place m = some ((), m') ∧
        At m' (place bt) t'.bytes ∧ At m' (place b + headerSize) (es'.flatMap Entry.bytes) ∧
        SameElsewhere place bt b n es.length m m' := by
  induction ps with
  | nil =>
    intro t es m ht hn he _ hfill
    obtain ⟨rfl, rfl⟩ := Prod.mk.inj (Option.some.inj hfill)
    exact ⟨hn, rfl, m, rfl, ht, he, fun _ _ _ => rfl⟩
  | cons p ps ih =>
    intro t es m ht hn he hd hfill
    unfold fillLeaf at hfill
    cases hi : t.insert H (calKeyFp H p.key) with
    | none => simp [hi] at hfill
    | some r =>
      obtain ⟨i, t₁⟩ := r
      cases hx : es[i]?.bind fun e => e.insert p.key p.value with
      | none => simp [hi, hx] at hfill
      | some e =>
        simp only [hi, hx] at hfill
        obtain ⟨hn₁, m₁, hrun₁, ht₁, he₁, hout₁⟩ := insertPair_run hH ht hn hlt he hd hi hx
        obtain ⟨hn', hlen', m', hrun, ht', he', hout⟩ :=
          ih ht₁ hn₁ he₁ (by rwa [List.length_set]) hfill
        rw [List.length_set] at hout hlen'
        refine ⟨hn', hlen', m', (run_bind_of hrun₁).trans hrun, ht', he', fun y h1 h2 => ?_⟩
        rw [hout y h1 h2, hout₁ y h1 h2]

/-- The rounds fail where those of `fillLeaf` do, if there is an entry for every slot. -/
theorem insertPairs_none (hH : H.OfBytes cityHash32) (hlt : n < 2 ^ 31) (ps : List EntryPos) :
    ∀ {t : DMTree.FPTable} {es : List Entry} {m : Mem}, At m (place bt) t.bytes → t.fp.length = n →
      At m (place b + headerSize) (es.flatMap Entry.bytes) → es.length = n →
      (place bt + (n + 24) ≤ place b + headerSize ∨
        place b + headerSize + es.length * entrySize ≤ place bt) →
      fillLeaf H ps t es = none →
      (insertPairs H cityHash32 (FPTable.attach bt 0 n) b ps).run place m = none := by
  induction ps with
  | nil =>
    intro t es m _ _ _ _ _ hfill
    cases hfill
  | cons p ps ih =>
    intro t es m ht hn he hlen hd hfill
    unfold fillLeaf at hfill
    cases hi : t.insert H (calKeyFp H p.key) with
    | none =>
      have hrun := insert_none_at cityHash32 ht hn hlt hi
      exact run_bind_none ((run_bind_of hrun).trans rfl)
    | some r =>
      obtain ⟨i, t₁⟩ := r
      cases hx : es[i]?.bind fun e => e.insert p.key p.value with
      | none =>
        obtain ⟨hin, hn₁, m₁, hrun₁, -, hout₁⟩ := insert_some_at hH ht hn hlt hi
        have hei := List.getElem?_eq_getElem (hlen ▸ hin)
        rw [hei] at hx
        have hentry := at_entries_get (entries_frame he hd hout₁) hei
        rw [Nat.add_assoc, ← getEntryOffset] at hentry
        refine run_bind_none ((run_bind_of hrun₁).trans ?_)
        rw [run_bind_of (insertEntry_none_at hentry hx)]
        rfl
      | some e =>
        simp only [hi, hx] at hfill
        obtain ⟨hn₁, m₁, hrun₁, ht₁, he₁, hout₁⟩ := insertPair_run hH ht hn hlt he hd hi hx
        rw [insertPairs, run_bind_of hrun₁]
        exact ih ht₁ hn₁ he₁ (by rwa [List.length_set]) (by rwa [List.length_set]) hfill

end Insert

/-! ## Headers -/

/-- A field is replaced by one of the same length. -/
theorem setField_flatten {fs : List (List UInt8)} {i off : Nat} {new : List UInt8} (hi : i < fs.length)
    (hoff : (fs.take i).flatten.length = off) (hl : new.length = fs[i].length) :
    setField fs.flatten off new = (fs.set i new).flatten := by
  have hsplit : fs.flatten = (fs.take i).flatten ++ (fs[i] ++ (fs.drop (i + 1)).flatten) := by
    rw [← List.flatten_cons, ← List.flatten_append, List.getElem_cons_drop, List.take_append_drop]
  have hset : (fs.set i new).flatten = (fs.take i).flatten ++ new ++ (fs.drop (i + 1)).flatten := by
    rw [List.set_eq_take_append_cons_drop, if_pos hi, List.flatten_append, List.flatten_cons,
      List.append_assoc]
  subst hoff
  rw [setField, hset, hsplit, List.take_left' rfl, hl, ← List.append_assoc (fs.take i).flatten,
    List.drop_left' (by simp)]

theorem hdrVersion_bytes (h : LeafHeader) : hdrVersion h.bytes = h.version % 2 ^ 32 := by
  have hsplit : h.bytes = (h.fields.take 3).flatten ++ (leBytes 4 h.version ++
      (h.fields.drop 4).flatten) := by
    simp [LeafHeader.bytes, LeafHeader.fields]
  rw [hdrVersion, hsplit, List.drop_left' (by simp [LeafHeader.fields, keySize]),
    List.take_left' (length_leBytes ..), leNat_leBytes]
  rfl

theorem leBytes_succ_mod (v : Nat) : leBytes 4 (v % 2 ^ 32 + 1) = leBytes 4 (v + 1) := by
  rw [← leBytes_mod 4 (v % 2 ^ 32 + 1), ← leBytes_mod 4 (v + 1)]
  congr 1
  omega

theorem currentHdr_bytes (h : LeafHeader) (a fa : Gaddr) (c : Nat) (k : Key) :
    currentHdr h.bytes a.word fa.word c k =
      { h.updateRight a fa c with version := h.version + 1, maxKey := k }.bytes := by
  rw [currentHdr, hdrVersion_bytes, leBytes_succ_mod]
  simp only [LeafHeader.bytes]
  rw [setField_flatten (i := 3) (by simp [LeafHeader.fields]) (by simp [LeafHeader.fields, keySize])
      (by simp [LeafHeader.fields]),
    setField_flatten (i := 4) (by simp [LeafHeader.fields]) (by simp [LeafHeader.fields, keySize])
      (by simp [LeafHeader.fields]),
    setField_flatten (i := 5) (by simp [LeafHeader.fields]) (by simp [LeafHeader.fields, keySize])
      (by simp [LeafHeader.fields]),
    setField_flatten (i := 6) (by simp [LeafHeader.fields]) (by simp [LeafHeader.fields, keySize])
      (by simp [LeafHeader.fields]),
    setField_flatten (i := 0) (by simp [LeafHeader.fields]) (by simp [LeafHeader.fields])
      (by simp [LeafHeader.fields])]
  simp [LeafHeader.fields, LeafHeader.updateRight]

theorem siblingHdr_bytes (h : LeafHeader) (c : Nat) (k : Key) :
    siblingHdr h.bytes c k = { h with version := 0, capacity := c, minKey := k }.bytes := by
  rw [siblingHdr]
  simp only [LeafHeader.bytes]
  rw [setField_flatten (i := 3) (by simp [LeafHeader.fields]) (by simp [LeafHeader.fields, keySize])
      (by simp [LeafHeader.fields]),
    setField_flatten (i := 2) (by simp [LeafHeader.fields]) (by simp [LeafHeader.fields, keySize])
      (by simp [LeafHeader.fields]),
    setField_flatten (i := 1) (by simp [LeafHeader.fields]) (by simp [LeafHeader.fields, keySize])
      (by simp [LeafHeader.fields])]
  simp [LeafHeader.fields]

/-! ## `leaf_resize` -/

section Resize

variable {leaf : Leaf} {p : EntryPos} {cap cap' : Nat}

/-- The entries of a sibling whose memory is zero. -/
theorem entries_zero (n : Nat) :
    (List.replicate n ({} : Entry)).flatMap Entry.bytes = List.replicate (n * entrySize) 0 := by
  have hone : ({} : Entry).bytes = List.replicate entrySize 0 := by decide
  induction n with
  | zero => simp
  | succ n ih =>
    rw [List.replicate_succ, List.flatMap_cons, ih, hone, List.replicate_append_replicate, Nat.add_mul,
      Nat.one_mul, Nat.add_comm]

theorem getSize_attach (b : Buffer) (n : Nat) : (FPTable.attach b 0 n).getSize = n + 8 * 3 := rfl

theorem signExtend_of_lt {v : Nat} (h : v < 2 ^ 31) : signExtend v = v := if_pos h

/-- `leaf_resize` reads the leaf and collects its pairs. -/
theorem leafResize_collect (H : Hashes) (cityHash32 : List UInt8 → UInt32) (cap' : Nat) {mem : Mem}
    (hmem : bytesAt mem 0 (curNodeSize cap) = leaf.bytes) (hlen : leaf.entries.length = cap)
    (hd : place .buffer + curNodeSize cap ≤ place .curFpBuffer) (p : EntryPos) (a fa : UInt64)
    (m : Mem) :
    ∃ m', (leafResize H cityHash32 mem p cap cap' a fa).run place m =
        (splitEntries H cityHash32 cap cap' a fa (nodeEntries leaf p)).run place m' ∧
      At m' (place .buffer) leaf.hdr.bytes ∧
      At m' (place .buffer + headerSize) ((cleanEntries leaf).flatMap Entry.bytes) ∧
      At m' (place .curFpBuffer) (DMTree.FPTable.zero cap).bytes := by
  have hsize : curNodeSize cap = headerSize + leaf.entries.length * entrySize := by
    rw [hlen, curNodeSize]
  have h0 : getEntryOffset 0 = headerSize := by simp [getEntryOffset]
  generalize hm1 : setBytes (setBytes m (place .curFpBuffer) (List.replicate (cap + 8 * 3) 0))
    (place .buffer) leaf.bytes = m₁
  have hleaf : At m₁ (place .buffer) leaf.bytes := hm1 ▸ at_setBytes
  rw [Leaf.bytes, at_append, length_header_bytes] at hleaf
  obtain ⟨hhdr, hent⟩ := hleaf
  have hlb : leaf.bytes.length = curNodeSize cap := by rw [← hmem, length_bytesAt]
  have htab : At m₁ (place .curFpBuffer) (DMTree.FPTable.zero cap).bytes := by
    rw [bytes_zero, ← hm1]
    exact at_setBytes.setBytes (.inr (by omega))
  obtain ⟨m', hrun, hent', hout⟩ := collectEntries_run leaf.entries (i := 0) (h0 ▸ hent)
  rw [h0] at hent' hout
  refine ⟨m', ?_, hhdr.frame fun y _ hy => hout y (.inl ?_), hent', htab.frame fun y hy _ =>
    hout y (.inr (by omega))⟩
  · unfold leafResize
    simp only [FPTable.getSize, FPTable.attach]
    rw [run_bind_of (run_put ..), run_bind_of (run_put ..), hmem]
    simp only [Nat.add_zero, hm1]
    rw [← hlen, run_bind_of hrun]
    rfl
  · rwa [length_header_bytes] at hy

/-- The buffers lie one behind the other. -/
structure InLine (place : Buffer → Nat) (cap cap' : Nat) : Prop where
  table : place .buffer + curNodeSize cap ≤ place .curFpBuffer
  sibling : place .curFpBuffer + (cap + 24) ≤ place .siblingBuffer
  siblingTable : place .siblingBuffer + curNodeSize cap' ≤ place .sibFpBuffer

/-- In memory stand the entries of a leaf with `n` slots, behind the header at `x`, and its table at
`y`. -/
structure LeafAt (m : Mem) (x y n : Nat) (es : List Entry) (t : DMTree.FPTable) : Prop where
  length : es.length = n
  fp_length : t.fp.length = n
  entries : At m (x + headerSize) (es.flatMap Entry.bytes)
  table : At m y t.bytes

variable {es es₁ : List Entry} {t t₁ : DMTree.FPTable} {x y : Nat}

/-- A leaf and its table behind it stay what they are when others are written. -/
theorem LeafAt.frame {m' : Mem} (h : LeafAt m x y n es t) (hd : x + curNodeSize n ≤ y)
    (hm : ∀ z, x + headerSize ≤ z → z < y + (n + 24) → m' z = m z) : LeafAt m' x y n es t := by
  have hsize : curNodeSize n = headerSize + n * entrySize := rfl
  refine ⟨h.length, h.fp_length, h.entries.frame fun z h1 h2 => hm z h1 ?_,
    h.table.frame fun z h1 h2 => hm z (by omega) ?_⟩
  · rw [length_entries_bytes, h.length] at h2
    omega
  · rwa [length_table_bytes, h.fp_length] at h2

/-- A leaf and a table whose memory is zero. -/
theorem leafAt_zero (hs : At m x (List.replicate (curNodeSize n) 0))
    (hf : At m y (List.replicate (n + 8 * 3) 0)) :
    LeafAt m x y n (List.replicate n {}) (.zero n) := by
  refine ⟨List.length_replicate, List.length_replicate, ?_, ?_⟩
  · rw [curNodeSize, ← List.replicate_append_replicate, at_append, List.length_replicate] at hs
    rw [entries_zero]
    exact hs.2
  · rwa [bytes_zero]

section Table

variable {bt b : Buffer} (h : LeafAt m (place b) (place bt) n es t)
  (hd : place b + curNodeSize n ≤ place bt)

include h hd

theorem LeafAt.setVersion (hH : H.OfBytes cityHash32) (v : Nat) :
    ∃ m', ((FPTable.attach bt 0 n).setVersion cityHash32 v).run place m = some ((), m') ∧
      LeafAt m' (place b) (place bt) n es (t.setVersion H v) ∧
      FPTable.SameOutside m m' (place bt) n := by
  have hsize : curNodeSize n = headerSize + n * entrySize := rfl
  obtain ⟨m', hrun, htab, hout⟩ := setVersion_at hH h.table h.fp_length v
  refine ⟨m', hrun, ⟨h.length, h.fp_length, h.entries.frame fun z _ hz => hout z ?_, htab⟩, hout⟩
  rw [length_entries_bytes, h.length] at hz
  omega

/-- Pairs are inserted into a leaf and its table. -/
theorem LeafAt.insertPairs (hH : H.OfBytes cityHash32) (hn : n < 2 ^ 31) {ps : List EntryPos}
    (hfill : fillLeaf H ps t es = some (t₁, es₁)) :
    ∃ m', (Raw.insertPairs H cityHash32 (FPTable.attach bt 0 n) b ps).run place m = some ((), m') ∧
      LeafAt m' (place b) (place bt) n es₁ t₁ ∧
      ∀ z, z < place b + headerSize ∨ place bt + (n + 24) ≤ z → m' z = m z := by
  have hsize : curNodeSize n = headerSize + n * entrySize := rfl
  have hend : place b + headerSize + es.length * entrySize ≤ place bt := by
    rw [h.length]
    omega
  obtain ⟨hfp, hlen, m', hrun, htab, hent, hout⟩ :=
    insertPairs_run hH hn ps h.table h.fp_length h.entries (.inr hend) hfill
  exact ⟨m', hrun, ⟨hlen.trans h.length, hfp, hent, htab⟩, fun z hz => hout z (by omega) (by omega)⟩

theorem LeafAt.insertPairs_fail (hH : H.OfBytes cityHash32) (hn : n < 2 ^ 31) {ps : List EntryPos}
    (hfill : fillLeaf H ps t es = none) :
    (Raw.insertPairs H cityHash32 (FPTable.attach bt 0 n) b ps).run place m = none := by
  have hsize : curNodeSize n = headerSize + n * entrySize := rfl
  refine insertPairs_none hH hn ps h.table h.fp_length h.entries h.length (.inr ?_) hfill
  rw [h.length]
  omega

end Table

/-- The image of a leaf, after its header has been written, and that of its table. -/
theorem LeafAt.images (h : LeafAt m x y n es t) {hdr : LeafHeader} (hhdr : At m x hdr.bytes) :
    bytesAt m x (curNodeSize n) = Leaf.bytes ⟨hdr, es⟩ ∧ bytesAt m y (n + 8 * 3) = t.bytes := by
  have hleaf : At m x (Leaf.bytes ⟨hdr, es⟩) := by
    rw [Leaf.bytes, at_append, length_header_bytes]
    exact ⟨hhdr, h.entries⟩
  refine ⟨hleaf.read ?_, h.table.read ?_⟩
  · rw [Leaf.bytes, List.length_append, length_header_bytes, length_entries_bytes, h.length]
    rfl
  · rw [length_table_bytes, h.fp_length]

/-- The four images, after the headers have been written. -/
theorem images_eq {es' : List Entry} {t' : DMTree.FPTable} (hl : InLine place cap cap')
    (hcur : LeafAt m (place .buffer) (place .curFpBuffer) cap es t)
    (hsib : LeafAt m (place .siblingBuffer) (place .sibFpBuffer) cap' es' t') (h h' : LeafHeader) {m' : Mem}
    (hm : m' = setBytes (setBytes m (place .buffer) h.bytes) (place .siblingBuffer) h'.bytes) :
    (⟨bytesAt m' (place .siblingBuffer) (curNodeSize cap'), bytesAt m' (place .sibFpBuffer) (cap' + 8 * 3),
      bytesAt m' (place .buffer) (curNodeSize cap), bytesAt m' (place .curFpBuffer) (cap + 8 * 3)⟩ : Images) =
      Resized.images ⟨⟨h, es⟩, t, ⟨h', es'⟩, t'⟩ := by
  obtain ⟨hl1, hl2, hl3⟩ := hl
  have hhead := headerSize_le cap
  have hout : ∀ z, place .buffer + headerSize ≤ z → z < place .siblingBuffer ∨
      place .siblingBuffer + headerSize ≤ z → m' z = m z := by
    intro z h1 h2
    rw [hm, setBytes_outside (by rw [length_header_bytes]; omega),
      setBytes_outside (by rw [length_header_bytes]; omega)]
  have hb : At m' (place .buffer) h.bytes := by
    rw [hm]
    exact at_setBytes.setBytes (.inl (by rw [length_header_bytes]; omega))
  have hs : At m' (place .siblingBuffer) h'.bytes := hm ▸ at_setBytes
  obtain ⟨h1, h2⟩ := (hcur.frame hl1 fun z h1 h2 => hout z h1 (.inl (by omega))).images hb
  obtain ⟨h3, h4⟩ := (hsib.frame hl3 fun z h1 h2 => hout z (by omega) (.inr h1)).images hs
  rw [h1, h2, h3, h4]
  rfl

/-- The second half of `leaf_resize` computes the images of what `resizeLeaf` computes. -/
theorem splitEntries_run (hH : H.OfBytes cityHash32) (hl : InLine place cap cap')
    (hcap : cap < 2 ^ 31) (hcap' : cap' < 2 ^ 31) (hver : leaf.hdr.version + 1 < 2 ^ 31)
    (hhdr : At m (place .buffer) leaf.hdr.bytes)
    (hcur : LeafAt m (place .buffer) (place .curFpBuffer) cap (cleanEntries leaf) (.zero cap))
    (a fa : Gaddr) :
    ((splitEntries H cityHash32 cap cap' a.word fa.word (nodeEntries leaf p)).run place m).map
      Prod.fst = (resizeLeaf H leaf p cap cap' a fa).map Resized.images := by
  obtain ⟨hl1, hl2, hl3⟩ := hl
  have hhead := headerSize_le cap
  have hhead' := headerSize_le cap'
  -- the sibling and its table are cleared
  generalize hm1 : setBytes (setBytes m (place .siblingBuffer) (List.replicate (curNodeSize cap') 0))
    (place .sibFpBuffer) (List.replicate (cap' + 8 * 3) 0) = m₁
  have hout₁ : ∀ z, z < place .siblingBuffer → m₁ z = m z := by
    intro z hz
    rw [← hm1, setBytes_outside (by omega), setBytes_outside (by omega)]
  have hcur₁ : LeafAt m₁ _ _ _ _ _ := hcur.frame hl1 fun z _ hz => hout₁ z (by omega)
  have hsib₁ : LeafAt m₁ (place .siblingBuffer) (place .sibFpBuffer) cap' (List.replicate cap' {})
      (.zero cap') := by
    refine leafAt_zero ?_ (hm1 ▸ at_setBytes)
    rw [← hm1]
    exact at_setBytes.setBytes (.inl (by rwa [List.length_replicate]))
  have hread : bytesAt m₁ (place .buffer) headerSize = leaf.hdr.bytes :=
    (hhdr.frame fun z _ hz => hout₁ z (by rw [length_header_bytes] at hz; omega)).read
      (length_header_bytes _)
  have hlt : (leaf.hdr.version + 1) % 2 ^ 32 = leaf.hdr.version + 1 := Nat.mod_eq_of_lt (by omega)
  unfold splitEntries resizeLeaf
  simp only [getSize_attach, List.length_insertionSort]
  rw [run_bind_of (run_put ..), run_bind_of (run_put ..), run_bind_of (run_get ..)]
  simp only [Nat.add_zero, hm1, hread]
  generalize (nodeEntries leaf p).insertionSort (fun a b => a.key ≤ b.key) = entries
  generalize (if cap' > cap then 0 else (nodeEntries leaf p).length / 2) = split
  cases entries[split]? with
  | none => rfl
  | some q =>
    simp only [currentHdr_bytes, siblingHdr_bytes, hdrVersion_bytes, hlt, signExtend_of_lt hver]
    obtain ⟨m₂, hrun₂, hcur₂, hout₂⟩ := hcur₁.setVersion hl1 hH (leaf.hdr.version + 1)
    have hsib₂ := hsib₁.frame hl3 fun z hz _ => hout₂ z (.inr (by omega))
    rw [run_bind_of hrun₂]
    cases hfill : fillLeaf H (entries.take split)
        ((DMTree.FPTable.zero cap).setVersion H (leaf.hdr.version + 1)) (cleanEntries leaf) with
    | none =>
      rw [run_bind_none (hcur₂.insertPairs_fail hl1 hH hcap hfill)]
      rfl
    | some r =>
      obtain ⟨t, es⟩ := r
      obtain ⟨m₃, hrun₃, hcur₃, hout₃⟩ := hcur₂.insertPairs hl1 hH hcap hfill
      have hsib₃ := hsib₂.frame hl3 fun z hz _ => hout₃ z (.inr (by omega))
      rw [run_bind_of hrun₃]
      cases hfill' : fillLeaf H (entries.drop split) (.zero cap') (List.replicate cap' {}) with
      | none =>
        rw [run_bind_none (hsib₃.insertPairs_fail hl3 hH hcap' hfill')]
        rfl
      | some r' =>
        obtain ⟨t', es'⟩ := r'
        obtain ⟨m₄, hrun₄, hsib₄, hout₄⟩ := hsib₃.insertPairs hl3 hH hcap' hfill'
        have hcur₄ := hcur₃.frame hl1 fun z _ hz => hout₄ z (.inl (by omega))
        rw [run_bind_of hrun₄, run_bind_of (run_put ..), run_bind_of (run_put ..),
          run_bind_of (run_get ..), run_bind_of (run_get ..), run_bind_of (run_get ..),
          run_bind_of (run_get ..)]
        exact congrArg some (images_eq ⟨hl1, hl2, hl3⟩ hcur₄ hsib₄ _ _ rfl)

/-- On buffers that do not overlap, `leaf_resize` computes the images of what `resizeLeaf` computes,
and fails where it fails. -/
theorem leafResize_run (hH : H.OfBytes cityHash32) (hcap : cap < 2 ^ 31) (hcap' : cap' < 2 ^ 31)
    (hver : leaf.hdr.version + 1 < 2 ^ 31) (hlen : leaf.entries.length = cap) {mem : Mem}
    (hmem : bytesAt mem 0 (curNodeSize cap) = leaf.bytes)
    (hs : Separate (bufferSize cap cap') place) (p : EntryPos) (a fa : Gaddr) (m : Mem) :
    ((leafResize H cityHash32 mem p cap cap' a.word fa.word).run place m).map Prod.fst =
      (resizeLeaf H leaf p cap cap' a fa).map Resized.images := by
  have hl : InLine (spread cap cap') cap cap' := ⟨by simp [spread], le_rfl, le_rfl⟩
  rw [run_eq hs spread_separate (leafResize_within mem p a.word fa.word) m m]
  obtain ⟨m', hrun, hhdr, hent, htab⟩ := leafResize_collect H cityHash32 cap'
    hmem hlen hl.table p a.word fa.word m
  have hcur : LeafAt m' (spread cap cap' .buffer) (spread cap cap' .curFpBuffer) cap
      (cleanEntries leaf) (.zero cap) :=
    ⟨by rw [cleanEntries, List.length_map, hlen], List.length_replicate, hent, htab⟩
  rw [hrun]
  exact splitEntries_run hH hl hcap hcap' hver hhdr hcur a fa

end Resize

/-! ## Buffers that overlap -/

section Overlap

variable {leaf : Leaf} {p : EntryPos} {mem : Mem}

theorem insertPairs_append (t : FPTable Buffer) (b : Buffer) (ps qs : List EntryPos) :
    ∀ m, (insertPairs H cityHash32 t b (ps ++ qs)).run place m =
      ((insertPairs H cityHash32 t b ps).run place m).bind fun x =>
        (insertPairs H cityHash32 t b qs).run place x.2 := by
  induction ps with
  | nil => exact fun _ => rfl
  | cons p ps ih =>
    intro m
    rw [List.cons_append, insertPairs, insertPairs, run_bind, run_bind]
    cases (insertPair H cityHash32 t b p).run place m with
    | none => rfl
    | some x => exact ih x.2

/-- Zeros where `valid`, `version` and `key` are: an entry that is not valid. -/
theorem exists_entry_of_zeros (h : At m a (List.replicate (8 + keySize) 0)) :
    ∃ v, At m a (⟨false, 0, KeyNull, v⟩ : Entry).bytes := by
  have hsplit : List.replicate (8 + keySize) (0 : UInt8) =
      [0] ++ leBytes 7 0 ++ KeyNull.bytes := by decide
  rw [hsplit, at_append, at_append, at_singleton] at h
  obtain ⟨⟨h1, h2⟩, h3⟩ := h
  refine ⟨.ofNat (leNat (bytesAt m (a + 8 + keySize) 8)), at_entry.mpr ⟨h1, h2, h3, ?_⟩⟩
  have hlt : leNat (bytesAt m (a + 8 + keySize) 8) < 2 ^ 64 := by
    have hlt := leNat_lt (bytesAt m (a + 8 + keySize) 8)
    rwa [length_bytesAt] at hlt
  have hback := leBytes_leNat (bytesAt m (a + 8 + keySize) 8)
  rw [length_bytesAt] at hback
  unfold At
  rw [UInt64.toNat_ofNat_of_lt' hlt, length_leBytes, hback]

/-- Zeros up to the value of entry `n`: the entries up to it are free. -/
theorem exists_free_entries {n : Nat} (h : At m a (List.replicate (n * entrySize + (8 + keySize)) 0)) :
    ∃ es, EntriesHold (n + 1) 0 [] es ∧ At m a (es.flatMap Entry.bytes) := by
  rw [← List.replicate_append_replicate, ← entries_zero, at_append, length_entries_bytes,
    List.length_replicate] at h
  obtain ⟨v, hv⟩ := exists_entry_of_zeros h.2
  refine ⟨List.replicate n ({} : Entry) ++ [⟨false, 0, KeyNull, v⟩],
    ⟨_, rfl, fun e he => ?_, ?_⟩, ?_⟩
  · rcases List.mem_append.mp he with he | he
    · rw [List.eq_of_mem_replicate he]
      exact ⟨rfl, rfl⟩
    · rw [List.mem_singleton.mp he]
      exact ⟨rfl, rfl⟩
  · change 0 + (List.replicate n ({} : Entry) ++ [(⟨false, 0, KeyNull, v⟩ : Entry)]).length = n + 1
    simp
  · rw [List.flatMap_append, at_append, length_entries_bytes, List.length_replicate,
      List.flatMap_singleton]
    exact ⟨h.1, hv⟩

theorem mem_of_at {bs : List UInt8} (h : At m a bs) {i : Nat} (hi : i < bs.length) : m (a + i) ∈ bs := by
  have hget := getElem?_bytesAt (m := m) (a := a) hi
  rw [h.read rfl] at hget
  exact List.mem_of_getElem? hget

/-- The fingerprints of another table lie over an entry: it takes no key with a zero byte. -/
theorem insertEntry_overlap {b : Buffer} {off : Nat} {fs : List UInt8} {q : EntryPos}
    (hfp : At m (place b + off) fs) (hlen : 8 + keySize ≤ fs.length) (hne : ∀ f ∈ fs, f ≠ 0)
    (hq : 0 ∈ q.key.bytes) : (insertEntry b off q).run place m = some (false, m) := by
  refine insertEntry_refuse (hne _ (mem_of_at hfp (i := 0) (by omega))) fun heq => ?_
  rw [← heq] at hq
  obtain ⟨i, hi, hi0⟩ := List.mem_map.mp hq
  rw [List.mem_range] at hi
  have hmem := mem_of_at hfp (i := 8 + i) (by omega)
  rw [← Nat.add_assoc, Nat.add_assoc (place b)] at hmem
  exact hne _ hmem hi0

/-- The table of the leaf lies over the entries of the sibling from entry 13 on: the fingerprints of
the leaf make that entry valid, with a key that is not the one to be inserted. -/
theorem insertPairs_overlap (hH : H.OfBytes cityHash32) {ps : List EntryPos} {fs : List UInt8}
    (hlen : 13 < ps.length) (hkeys : ∀ q ∈ ps, 0 ∈ q.key.bytes) (hfs : fs.length = 32)
    (hne : ∀ f ∈ fs, f ≠ 0)
    (hzero : At m (place .siblingBuffer + headerSize) (List.replicate (12 * entrySize + (8 + keySize)) 0))
    (hfp : At m (place .siblingBuffer + getEntryOffset 13) fs)
    (htab : At m (place .sibFpBuffer) (DMTree.FPTable.zero 64).bytes)
    (hd : place .siblingBuffer + curNodeSize 64 ≤ place .sibFpBuffer) :
    (insertPairs H cityHash32 (FPTable.attach .sibFpBuffer 0 64) .siblingBuffer ps).run place m = none := by
  have hsize : curNodeSize 64 = headerSize + 64 * entrySize := rfl
  have hes : entrySize = 40 := rfl
  have hks : keySize = 24 := rfl
  have hoff : getEntryOffset 13 = headerSize + 13 * entrySize := rfl
  -- the entries before it take the first 13 pairs
  obtain ⟨es, hfree, hent⟩ := exists_free_entries hzero
  have hel : es.length * entrySize = 13 * 40 := by rw [hfree.length, hes]
  have htake : (ps.take 13).length = 13 := by
    rw [List.length_take]
    omega
  have hfirst : ps.take 13 ≠ [] := by
    rw [← List.length_pos_iff]
    omega
  obtain ⟨t₁, es₁, hfill, ht₁, -⟩ := fillLeaf_zero H 64 hfree hfirst (by omega) (by omega)
  obtain ⟨hn₁, -, m₁, hrun₁, htab₁, -, hout₁⟩ := insertPairs_run
    (b := .siblingBuffer) hH (by decide) (ps.take 13) htab List.length_replicate hent
    (.inr (by omega)) hfill
  have hfp₁ : At m₁ (place .siblingBuffer + getEntryOffset 13) fs :=
    hfp.frame fun y h1 h2 => hout₁ y (by omega) (by omega)
  -- the next one is refused
  obtain ⟨q, rest, hq⟩ : ∃ q rest, ps.drop 13 = q :: rest :=
    ⟨_, _, (List.getElem_cons_drop hlen).symm⟩
  have hqmem : q ∈ ps := List.mem_of_mem_drop (hq ▸ List.mem_cons_self)
  obtain ⟨t₂, hins, -⟩ := ht₁.insert_eq (f := calKeyFp H q.key)
    (by rw [List.length_map, htake]; decide)
    (calKeyFp_ne_zero q.key)
  rw [List.length_map, htake] at hins
  obtain ⟨-, -, m₂, hrun₂, -, hout₂⟩ := insert_some_at hH htab₁ hn₁
    (by decide) hins
  have hfp₂ : At m₂ (place .siblingBuffer + getEntryOffset 13) fs :=
    hfp₁.frame fun y h1 h2 => hout₂ y (by omega)
  rw [← List.take_append_drop 13 ps, insertPairs_append, hrun₁, hq]
  refine run_bind_none ((run_bind_of hrun₂).trans ?_)
  rw [run_bind_of (insertEntry_overlap hfp₂ (by omega) hne (hkeys q hqmem))]
  rfl

/-- The first half of the pairs goes into 32 free entries and a cleared table, where its fingerprints
stand then. -/
theorem fillHalf_run (hH : H.OfBytes cityHash32) {ps : List EntryPos} (hps : ps.length = 32) {v : Nat}
    {es : List Entry} (hfree : EntriesHold 32 v [] es)
    (hent : At m (place .buffer + headerSize) (es.flatMap Entry.bytes))
    (htab : At m (place .curFpBuffer) (DMTree.FPTable.zero 64).bytes)
    (hd : place .buffer + headerSize + 32 * entrySize ≤ place .curFpBuffer) (ver : Nat) :
    ∃ m₁ m₂, ((FPTable.attach .curFpBuffer 0 64).setVersion cityHash32 ver).run place m = some ((), m₁) ∧
      (insertPairs H cityHash32 (FPTable.attach .curFpBuffer 0 64) .buffer ps).run place m₁ =
        some ((), m₂) ∧
      At m₂ (place .curFpBuffer + 8) (ps.map fun q => calKeyFp H q.key) ∧
      SameElsewhere place .curFpBuffer .buffer 64 32 m m₂ := by
  rw [← hfree.length] at hd
  obtain ⟨m₁, hrun₁, htab₁, hout₁⟩ := setVersion_at hH htab List.length_replicate ver
  obtain ⟨t, es₂, hfill, ht, -⟩ := fillLeaf_eq ps (TableHolds.zero (H := H) 64 ver) hfree rfl
    (by rw [hps]; decide) (by rw [hps]; decide)
  obtain ⟨-, -, m₂, hrun₂, htab₂, -, hout₂⟩ := insertPairs_run hH (by decide) ps htab₁
    List.length_replicate (entries_frame hent (.inr hd) hout₁) (.inr hd) hfill
  rw [hfree.length] at hout₂
  refine ⟨m₁, m₂, hrun₁, hrun₂, ?_, fun y h1 h2 => (hout₂ y h1 h2).trans (hout₁ y h1)⟩
  obtain ⟨-, hfp, -⟩ := (at_table ht.fp_length).mp htab₂
  rw [ht.fp, List.nil_append, at_append] at hfp
  exact hfp.1

/-- The second half of `leaf_resize` at capacity 64, with the sibling in the slot behind the page: the
table of the leaf lies over the sibling, and the keys have a zero byte. -/
theorem splitEntries_overlap (hH : H.OfBytes cityHash32) {entries : List EntryPos}
    (hlen : entries.length = 65) (hkeys : ∀ q ∈ entries, 0 ∈ q.key.bytes) {v : Nat} {es : List Entry}
    (hfree : EntriesHold 32 v [] es) (hent : At m (place .buffer + headerSize) (es.flatMap Entry.bytes))
    (hplace : place .curFpBuffer = place .buffer + curNodeSize 64)
    (hsib : place .siblingBuffer = place .buffer + kPageSize)
    (hsfp : place .sibFpBuffer = place .siblingBuffer + curNodeSize 64) (a fa : UInt64) :
    (splitEntries H cityHash32 64 64 a fa entries).run place m = none := by
  have hsize : curNodeSize 64 = 2640 := rfl
  have hpage : kPageSize = 2048 := rfl
  have hhs : headerSize = 80 := rfl
  have hzs : 12 * entrySize + (8 + keySize) = 512 := rfl
  have hoff : getEntryOffset 13 = 600 := rfl
  have hel : es.length * entrySize = 32 * 40 := by rw [hfree.length]; rfl
  -- the sibling is cleared, and with it the table of the leaf
  generalize hm1 : setBytes (setBytes m (place .siblingBuffer) (List.replicate (curNodeSize 64) 0))
    (place .sibFpBuffer) (List.replicate (64 + 8 * 3) 0) = m₁
  have hz : At m₁ (place .siblingBuffer) (List.replicate (curNodeSize 64) 0) := by
    rw [← hm1]
    exact at_setBytes.setBytes (.inl (by rw [List.length_replicate]; omega))
  have hent₁ : At m₁ (place .buffer + headerSize) (es.flatMap Entry.bytes) := by
    refine hent.frame fun y _ hy => ?_
    rw [length_entries_bytes] at hy
    rw [← hm1, setBytes_outside (by omega), setBytes_outside (by omega)]
  have htab₁ : At m₁ (place .curFpBuffer) (DMTree.FPTable.zero 64).bytes := by
    have hpart := hz.replicate (i := 592) (k := 64 + 8 * 3) (by omega)
    rw [bytes_zero, hplace]
    rwa [hsib, Nat.add_assoc] at hpart
  have hsfp₁ : At m₁ (place .sibFpBuffer) (DMTree.FPTable.zero 64).bytes := by
    rw [bytes_zero, ← hm1]
    exact at_setBytes
  unfold splitEntries
  simp only [getSize_attach]
  rw [run_bind_of (run_put ..), run_bind_of (run_put ..), run_bind_of (run_get ..)]
  simp only [Nat.add_zero, hm1]
  have hperm := List.perm_insertionSort (fun a b : EntryPos => a.key ≤ b.key) entries
  have hsplit : (if 64 > 64 then 0 else entries.length / 2) = 32 := by rw [hlen]; rfl
  rw [hsplit]
  generalize entries.insertionSort (fun a b => a.key ≤ b.key) = sorted at hperm ⊢
  have hlen' : sorted.length = 65 := hperm.length_eq.trans hlen
  rw [List.getElem?_eq_getElem (show 32 < sorted.length by omega)]
  have htake : (sorted.take 32).length = 32 := by
    rw [List.length_take]
    omega
  obtain ⟨m₂, m₃, hrun₂, hrun₃, hfp, hout⟩ := fillHalf_run hH htake hfree hent₁ htab₁ (by omega)
    (signExtend (hdrVersion (currentHdr (bytesAt m₁ (place .buffer) headerSize) a fa 64
      (sorted.get ⟨32, by omega⟩).key)))
  -- the fingerprints of the leaf lie over entry 13 of the sibling
  have hfp₃ : At m₃ (place .siblingBuffer + getEntryOffset 13)
      ((sorted.take 32).map fun q => calKeyFp H q.key) := by
    have heq : place .siblingBuffer + getEntryOffset 13 = place .curFpBuffer + 8 := by omega
    rwa [heq]
  have hz₃ : At m₃ (place .siblingBuffer + headerSize)
      (List.replicate (12 * entrySize + (8 + keySize)) 0) := by
    refine (hz.replicate (i := headerSize) (k := 12 * entrySize + (8 + keySize)) (by omega)).frame
      fun y h1 h2 => hout y ?_ (by omega)
    rw [List.length_replicate] at h2
    omega
  have hsfp₃ : At m₃ (place .sibFpBuffer) (DMTree.FPTable.zero 64).bytes :=
    hsfp₁.frame fun y h1 _ => hout y (by omega) (by omega)
  have hrest : 13 < (sorted.drop 32).length := by
    rw [List.length_drop]
    omega
  have hfail := insertPairs_overlap hH hrest
    (fun q hq => hkeys q (hperm.mem_iff.mp (List.mem_of_mem_drop hq)))
    (by rw [List.length_map, htake]) (fun f hf => ?_) hz₃ hfp₃ hsfp₃ hsfp.ge
  · exact (run_bind_of hrun₂).trans ((run_bind_of hrun₃).trans (run_bind_none hfail))
  · obtain ⟨q, -, rfl⟩ := List.mem_map.mp hf
    exact calKeyFp_ne_zero q.key

/-- A full leaf of capacity 64 whose keys have a zero byte, with the sibling in the slot behind the
page: the split fails. -/
theorem leafResize_overlap (hH : H.OfBytes cityHash32) (h : FullLeaf 64 leaf)
    (hmem : bytesAt mem 0 (curNodeSize 64) = leaf.bytes)
    (hkeys : ∀ e ∈ leaf.entries, 0 ∈ e.key.bytes) (hp : 0 ∈ p.key.bytes)
    (hplace : place .curFpBuffer = place .buffer + curNodeSize 64)
    (hsib : place .siblingBuffer = place .buffer + kPageSize)
    (hsfp : place .sibFpBuffer = place .siblingBuffer + curNodeSize 64) (a fa : UInt64) (m : Mem) :
    (leafResize H cityHash32 mem p 64 64 a fa).run place m = none := by
  obtain ⟨m₀, hrun, -, hent, -⟩ := leafResize_collect H cityHash32 64
    hmem h.length hplace.ge p a fa m
  have hclean := h.entriesHold.clean leaf.hdr
  have hfree : EntriesHold 32 (leaf.hdr.version + 1) [] ((cleanEntries leaf).take 32) := by
    obtain ⟨free, heq, hfree, hlen⟩ := hclean
    refine ⟨free.take 32, congrArg (List.take 32) heq, fun e he => hfree e (List.mem_of_mem_take he), ?_⟩
    rw [List.length_nil, Nat.zero_add] at hlen ⊢
    rw [List.length_take, hlen]
    rfl
  have hhalf : At m₀ (place .buffer + headerSize) (((cleanEntries leaf).take 32).flatMap Entry.bytes) := by
    rw [← List.take_append_drop 32 (cleanEntries leaf), List.flatMap_append, at_append] at hent
    exact hent.1
  have hpairs : nodeEntries leaf p = p :: leaf.entries.map Entry.pos := by
    rw [nodeEntries, h.entriesHold.filter_valid]
  rw [hrun, hpairs]
  refine splitEntries_overlap hH ?_ (fun q hq => ?_) hfree hhalf hplace hsib hsfp a fa
  · rw [List.length_cons, List.length_map, h.length]
  · rcases List.mem_cons.mp hq with rfl | hq
    · exact hp
    · obtain ⟨e, he, rfl⟩ := List.mem_map.mp hq
      exact hkeys e he

/-- The hash of the checksums does not matter. -/
theorem leafResize_congr (H : Hashes) (f : Nat → List UInt8 → UInt32) (mem : Mem) (p : EntryPos)
    (cap cap' : Nat) (a fa : UInt64) :
    leafResize { H with table := f } cityHash32 mem p cap cap' a fa =
      leafResize H cityHash32 mem p cap cap' a fa := by
  have hpairs : ∀ t b ps, insertPairs { H with table := f } cityHash32 t b ps =
      insertPairs H cityHash32 t b ps := by
    intro t b ps
    induction ps with
    | nil => rfl
    | cons p ps ih => rw [insertPairs, insertPairs, ih]; rfl
  unfold leafResize splitEntries
  simp only [hpairs]

end Overlap

/-- A full leaf of capacity 64: `adapt_capacity` has doubled its capacity once. -/
def grownLeaf : Leaf where
  hdr :=
    { capacity := 64
      version := 5
      rightAddr := ⟨0, 2 ^ 25⟩
      rightFpAddr := ⟨1, 2 ^ 25⟩
      rightCapacity := 32 }
  entries := (List.range 64).map fun i => ⟨true, 5, .ofNat (2 * (37 * i % 64)), .ofNat i⟩

/-- The bytes of that leaf in remote memory. -/
def grownMem : Mem := fun x => grownLeaf.bytes.getD x 0

theorem grownLeaf_full : FullLeaf 64 grownLeaf := by
  refine ⟨by decide, by decide, by simp [grownLeaf], ?_, ?_, ?_⟩ <;> decide +kernel

theorem grownMem_bytes : bytesAt grownMem 0 (curNodeSize 64) = grownLeaf.bytes := by
  have hlen : grownLeaf.bytes.length = curNodeSize 64 := by
    rw [Leaf.bytes, List.length_append, length_header_bytes, length_entries_bytes, grownLeaf_full.length]
    rfl
  rw [← hlen]
  exact bytesAt_getD

theorem grownLeaf_range :
    grownLeaf.hdr.minKey ≤ Key.ofNat 65 ∧ Key.ofNat 65 < grownLeaf.hdr.maxKey := by decide

theorem grownLeaf_new : ∀ e ∈ grownLeaf.entries, e.key ≠ Key.ofNat 65 := by decide +kernel

/-- With the sibling in the slot behind the page, the key 65 does not get into that leaf. -/
theorem leafResize_grown (H : Hashes) (cityHash32 : List UInt8 → UInt32) (v : Value) (a fa : UInt64)
    (m : Mem) :
    (leafResize H cityHash32 grownMem ⟨.ofNat 65, v⟩ 64 64 a fa).run (RdmaBuffer.place ⟨0, 6, 7⟩ 64 64) m =
      none := by
  have hzero : ∀ e ∈ grownLeaf.entries, 0 ∈ e.key.bytes := by decide +kernel
  have hnew : 0 ∈ (Key.ofNat 65).bytes := by decide
  rw [← leafResize_congr H fun v fp => cityHash32 (leBytes 8 v ++ fp)]
  exact leafResize_overlap (p := ⟨.ofNat 65, v⟩) (fun _ _ => rfl) grownLeaf_full grownMem_bytes hzero hnew
    (by decide) (by decide) (by decide) a fa m

/-! ## Full leaves -/

section Full

variable {leaf : Leaf} {p : EntryPos} {cap : Nat} {mem : Mem}

end Full

/-- For every leaf capacity and all positions of the cursors: whatever the leaf and the new pair are,
the images are those of separate buffers, exactly when the leaf and its table end before the
sibling. -/
theorem sameImages_iff {capacity : Nat} (hc : LeafCapacity capacity) (grow : Bool) (r : RdmaBuffer) :
    (∀ (H : Hashes) (cityHash32 : List UInt8 → UInt32) (leaf : Mem) (p : EntryPos) (a fa : UInt64)
        (m m' : Mem) (place : Buffer → Nat),
      Separate (bufferSize capacity (adaptCapacity grow capacity)) place →
        ((leafResize H cityHash32 leaf p capacity (adaptCapacity grow capacity) a fa).run
            (r.place capacity (adaptCapacity grow capacity)) m).map Prod.fst =
          ((leafResize H cityHash32 leaf p capacity (adaptCapacity grow capacity) a fa).run
            place m').map Prod.fst) ↔
      r.Fits capacity (adaptCapacity grow capacity) := by
  constructor
  · intro h
    by_contra hr
    refine images_differ ⟨fun _ _ => 0, fun _ _ => 0, fun _ => 0⟩ (fun _ => 0) hc grow hr
      spread_separate 0 0 ⟨.ofNat 0, 0⟩ (fun _ => 0) (fun _ => 0) ?_
    exact h _ _ _ _ _ _ _ _ _ spread_separate
  · intro hr H cityHash32 leaf p a fa m m' place hplace
    exact run_eq (RdmaBuffer.separate hr) hplace (leafResize_within leaf p a fa) m m'

/-- A leaf that has grown once and is to have a sibling that is larger still, with the sibling two slots
behind the page. -/
theorem sameImages_iff_grown :
    LeafCapacity 64 ∧ RdmaBuffer.Fits ⟨0, 5, 7⟩ 64 (adaptCapacity true 64) ∧
      ((∀ (H : Hashes) (cityHash32 : List UInt8 → UInt32) (leaf : Mem) (p : EntryPos) (a fa : UInt64)
          (m m' : Mem) (place : Buffer → Nat),
        Separate (bufferSize 64 (adaptCapacity true 64)) place →
          ((leafResize H cityHash32 leaf p 64 (adaptCapacity true 64) a fa).run
              (RdmaBuffer.place ⟨0, 5, 7⟩ 64 (adaptCapacity true 64)) m).map Prod.fst =
            ((leafResize H cityHash32 leaf p 64 (adaptCapacity true 64) a fa).run
              place m').map Prod.fst) ↔
        RdmaBuffer.Fits ⟨0, 5, 7⟩ 64 (adaptCapacity true 64)) := by
  have hc : LeafCapacity 64 := .adapt true .initial
  refine ⟨hc, ?_, sameImages_iff hc true ⟨0, 5, 7⟩⟩
  unfold RdmaBuffer.Fits
  decide

/-- A full leaf that has grown once, with the page cursor on the last page buffer and the sibling cursor
on the first sibling buffer: on separate buffers there are images, here an assertion fails. -/
theorem images_differ_full :
    LeafCapacity 64 ∧ FullLeaf 64 grownLeaf ∧
    ∀ (H : Hashes) (cityHash32 : List UInt8 → UInt32) (v : Value) (a fa : Gaddr) (m m' : Mem),
      (leafResize H cityHash32 grownMem ⟨.ofNat 65, v⟩ 64 (adaptCapacity false 64) a.word fa.word).run
          (RdmaBuffer.place ⟨0, 6, 7⟩ 64 (adaptCapacity false 64)) m = none ∧
        ∃ images, ((leafResize H cityHash32 grownMem ⟨.ofNat 65, v⟩ 64 (adaptCapacity false 64)
          a.word fa.word).run (spread 64 (adaptCapacity false 64)) m').map Prod.fst = some images := by
  refine ⟨.adapt true .initial, grownLeaf_full, fun H cityHash32 v a fa m m' =>
    ⟨leafResize_grown H cityHash32 v a.word fa.word m, ?_⟩⟩
  rw [← leafResize_congr H fun v fp => cityHash32 (leBytes 8 v ++ fp)]
  obtain ⟨x, hx, -⟩ := resizeLeaf_partitioned { H with table := fun v fp => cityHash32 (leBytes 8 v ++ fp) }
    grownLeaf_full (p := ⟨.ofNat 65, v⟩) grownLeaf_range grownLeaf_new false a fa
  refine ⟨x.images, (leafResize_run (fun _ _ => rfl) (by decide) (by decide) (by decide)
    grownLeaf_full.length grownMem_bytes spread_separate ⟨.ofNat 65, v⟩ a fa m').trans ?_⟩
  rw [hx]
  rfl

end DMTree.Raw
