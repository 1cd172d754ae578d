import DMTree.Proofs.RawTableProofs
import DMTree.Raw.LeafResize

/-!
# When the rotating buffers of `leaf_resize` do not get into each other's way

`leaf_resize` stays inside its four buffers, so the images depend on nothing but the leaf and the new
pair as long as the buffers do not overlap. A leaf with more than 32 slots is larger than a page
buffer. The buffers then overlap at some positions of the two cursors, and clearing the sibling clears
the end of the leaf.
-/

namespace DMTree.Raw

open Bytes Buffers Code

variable {ι : Type} {size : ι → Nat} {I : Set ι} {b : ι} {n off : Nat} {H : Hashes}
  {cityHash32 : List UInt8 → UInt32}

/-! ## Inside the buffers -/

section Table

theorem setConsistent_within (hb : b ∈ I) (hn : n + 8 * 3 ≤ size b) :
    ((FPTable.attach b 0 n).setConsistent cityHash32).Within size I fun J _ => J = I := by
  unfold FPTable.setConsistent
  refine (within_get hb ?_).bind fun J bs h => ?_
  · simp only [FPTable.attach, FPTable.getSize]
    omega
  · obtain ⟨rfl, -⟩ := h
    refine within_put hb ?_
    simp only [FPTable.attach, length_leBytes]
    omega

theorem setVersion_within (hb : b ∈ I) (hn : n + 8 * 3 ≤ size b) (v : Nat) :
    ((FPTable.attach b 0 n).setVersion cityHash32 v).Within size I fun J _ => J = I := by
  unfold FPTable.setVersion
  refine (within_put hb ?_).bind fun J _ h => ?_
  · simp only [FPTable.attach, length_leBytes]
    omega
  · subst h
    exact setConsistent_within hb hn

theorem incInt_within (i : Nat) :
    (incInt i : Code ι Nat).Within size I fun J j => J = I ∧ j = i + 1 :=
  Within.ite (fun _ => within_pure ⟨rfl, rfl⟩) fun _ => trivial

theorem insertLoop_within (hb : b ∈ I) (hn : n + 8 * 3 ≤ size b) (f : UInt8) :
    ∀ k i, i + k = n → ((FPTable.attach b 0 n).insertLoop cityHash32 f k i).Within size I
      fun J e => J = I ∧ ∀ j, e = some j → j < n := by
  intro k
  induction k with
  | zero =>
    intro i _
    refine within_pure ⟨rfl, ?_⟩
    rintro j ⟨⟩
  | succ k ih =>
    intro i hi
    have hslot : (FPTable.attach b 0 n).fp + i + 1 ≤ size b := by
      simp only [FPTable.attach]
      omega
    unfold FPTable.insertLoop
    refine (within_get hb hslot).bind fun J slot h => ?_
    obtain ⟨rfl, -⟩ := h
    refine Within.ite (fun _ => ?_) fun _ => ?_
    · refine (within_put hb hslot).bind fun J _ h => ?_
      subst h
      refine (setConsistent_within hb hn).bind fun J _ h => ?_
      subst h
      refine within_pure ⟨rfl, ?_⟩
      rintro j ⟨⟩
      omega
    · refine (incInt_within i).bind fun J j h => ?_
      obtain ⟨rfl, rfl⟩ := h
      exact ih (i + 1) (by omega)

end Table

section Leaf

variable {capacity siblingCapacity : Nat}

theorem getEntryOffset_le {i : Nat} (hi : i < n) :
    getEntryOffset i + entrySize ≤ curNodeSize n := by
  have hmul : (i + 1) * entrySize ≤ n * entrySize := Nat.mul_le_mul_right _ hi
  rw [Nat.add_mul] at hmul
  unfold getEntryOffset curNodeSize
  omega

theorem collectEntries_within {size : Buffer → Nat} {I : Set Buffer} (hb : Buffer.buffer ∈ I)
    (hn : curNodeSize n ≤ size .buffer) :
    ∀ k i, i + k = n → (collectEntries k i).Within size I fun J _ => J = I := by
  intro k
  induction k with
  | zero =>
    intro i _
    exact within_pure rfl
  | succ k ih =>
    intro i hi
    have hoff := getEntryOffset_le (n := n) (i := i) (by omega)
    have hes : entrySize = 8 + keySize + 8 := rfl
    unfold collectEntries
    refine (within_get hb (by omega)).bind fun J raw h => ?_
    obtain ⟨rfl, -⟩ := h
    refine (within_put hb (by rw [length_leBytes]; omega)).bind fun J _ h => ?_
    subst h
    refine (within_get hb (by omega)).bind fun J valid h => ?_
    obtain ⟨rfl, -⟩ := h
    refine Within.ite (fun _ => ?_) fun _ => ih (i + 1) (by omega)
    refine (within_get hb (by omega)).bind fun J key h => ?_
    obtain ⟨rfl, -⟩ := h
    refine (within_get hb (by omega)).bind fun J value h => ?_
    obtain ⟨rfl, -⟩ := h
    refine (within_put hb (by simp only [List.length_singleton]; omega)).bind fun J _ h => ?_
    subst h
    refine (within_put hb (by simp only [List.length_replicate]; omega)).bind fun J _ h => ?_
    subst h
    exact (ih (i + 1) (by omega)).bind fun J es h => within_pure h

theorem insertEntry_within {size : Buffer → Nat} {I : Set Buffer} {b : Buffer} (hb : b ∈ I)
    (hoff : off + entrySize ≤ size b) (p : EntryPos) :
    (insertEntry b off p).Within size I fun J _ => J = I := by
  have hes : entrySize = 8 + keySize + 8 := rfl
  unfold insertEntry
  refine (within_get hb (by omega)).bind fun J valid h => ?_
  obtain ⟨rfl, -⟩ := h
  refine Within.ite (fun _ => ?_) fun _ => ?_
  · refine (within_put hb (by rw [Key.length_bytes]; omega)).bind fun J _ h => ?_
    subst h
    refine (within_put hb (by rw [length_leBytes]; omega)).bind fun J _ h => ?_
    subst h
    refine (within_put hb (by rw [List.length_singleton]; omega)).bind fun J _ h => ?_
    subst h
    exact within_pure rfl
  · refine (within_get hb (by omega)).bind fun J key h => ?_
    obtain ⟨rfl, -⟩ := h
    refine Within.ite (fun _ => ?_) fun _ => within_pure rfl
    refine (within_put hb (by rw [length_leBytes]; omega)).bind fun J _ h => ?_
    subst h
    exact within_pure rfl

theorem insertPair_within {size : Buffer → Nat} {I : Set Buffer} {bt b : Buffer} (ht : bt ∈ I)
    (hb : b ∈ I) (hn : n + 8 * 3 ≤ size bt) (hl : curNodeSize n ≤ size b) (p : EntryPos) :
    (insertPair H cityHash32 (FPTable.attach bt 0 n) b p).Within size I fun J _ => J = I := by
  unfold insertPair
  refine (insertLoop_within ht hn _ n 0 (Nat.zero_add n)).bind fun J e h => ?_
  obtain ⟨rfl, he⟩ := h
  cases e with
  | none => trivial
  | some e =>
    have hoff := getEntryOffset_le (he e rfl)
    refine (insertEntry_within hb (by omega) p).bind fun J done h => ?_
    subst h
    cases done with
    | false => trivial
    | true => exact within_pure rfl

theorem insertPairs_within {size : Buffer → Nat} {I : Set Buffer} {bt b : Buffer} (ht : bt ∈ I)
    (hb : b ∈ I) (hn : n + 8 * 3 ≤ size bt) (hl : curNodeSize n ≤ size b) (ps : List EntryPos) :
    (insertPairs H cityHash32 (FPTable.attach bt 0 n) b ps).Within size I fun J _ => J = I := by
  induction ps with
  | nil => exact within_pure rfl
  | cons p ps ih =>
    refine (insertPair_within ht hb hn hl p).bind fun J _ h => ?_
    subst h
    exact ih

theorem length_setField {hdr bs : List UInt8} (h : hdr.length = headerSize)
    (hb : off + bs.length ≤ headerSize) : (setField hdr off bs).length = headerSize := by
  simp only [setField, List.length_append, List.length_take, List.length_drop]
  omega

theorem length_currentHdr {hdr : List UInt8} (h : hdr.length = headerSize) (a fa : UInt64) (c : Nat)
    (k : Key) : (currentHdr hdr a fa c k).length = headerSize := by
  have hword : ∀ w x off, off + w ≤ headerSize → off + (leBytes w x).length ≤ headerSize := by
    intro w x off hle
    rwa [length_leBytes]
  unfold currentHdr
  refine length_setField (length_setField (length_setField (length_setField (length_setField h
    (hword 4 _ 52 (by decide))) (hword 8 _ 56 (by decide))) (hword 8 _ 64 (by decide)))
    (hword 8 _ 72 (by decide))) ?_
  rw [Key.length_bytes]
  decide

theorem length_siblingHdr {hdr : List UInt8} (h : hdr.length = headerSize) (c : Nat) (k : Key) :
    (siblingHdr hdr c k).length = headerSize := by
  have hword : ∀ w x off, off + w ≤ headerSize → off + (leBytes w x).length ≤ headerSize := by
    intro w x off hle
    rwa [length_leBytes]
  unfold siblingHdr
  refine length_setField (length_setField (length_setField h (hword 4 _ 52 (by decide)))
    (hword 4 _ 48 (by decide))) ?_
  rw [Key.length_bytes]
  decide

theorem headerSize_le (n : Nat) : headerSize ≤ curNodeSize n := Nat.le_add_right _ _

/-- From the second half on: the leaf and its table are in their buffers. -/
theorem splitEntries_within (a fa : UInt64) (entries : List EntryPos) :
    (splitEntries H cityHash32 capacity siblingCapacity a fa entries).Within
      (bufferSize capacity siblingCapacity) {.buffer, .curFpBuffer} fun _ _ => True := by
  have hcur := headerSize_le capacity
  have hsib := headerSize_le siblingCapacity
  unfold splitEntries
  refine (within_init (by simp [bufferSize])).bind fun J _ h => ?_
  subst h
  refine (within_init (by simp [bufferSize, FPTable.getSize, FPTable.attach])).bind fun J _ h => ?_
  subst h
  refine (within_get (by simp) (by simpa [bufferSize] using hcur)).bind fun J hdr h => ?_
  obtain ⟨rfl, hhdr⟩ := h
  split
  · trivial
  · next q _ =>
    refine (setVersion_within (by simp) (by simp [bufferSize]) _).bind fun J _ h => ?_
    subst h
    refine (insertPairs_within (by simp) (by simp) (by simp [bufferSize])
      (by simp [bufferSize]) _).bind fun J _ h => ?_
    subst h
    refine (insertPairs_within (by simp) (by simp) (by simp [bufferSize])
      (by simp [bufferSize]) _).bind fun J _ h => ?_
    subst h
    refine (within_put (by simp) (by
      rw [length_currentHdr hhdr]; simpa [bufferSize] using hcur)).bind fun J _ h => ?_
    subst h
    refine (within_put (by simp) (by
      rw [length_siblingHdr hhdr]; simpa [bufferSize] using hsib)).bind fun J _ h => ?_
    subst h
    refine (within_get (by simp) (by simp [bufferSize])).bind fun J _ h => ?_
    obtain ⟨rfl, -⟩ := h
    refine (within_get (by simp) (by simp [bufferSize, FPTable.getSize, FPTable.attach])).bind
      fun J _ h => ?_
    obtain ⟨rfl, -⟩ := h
    refine (within_get (by simp) (by simp [bufferSize])).bind fun J _ h => ?_
    obtain ⟨rfl, -⟩ := h
    refine (within_get (by simp) (by simp [bufferSize, FPTable.getSize, FPTable.attach])).bind
      fun J _ h => ?_
    exact within_pure trivial

/-- `leaf_resize` stays inside its buffers, and fills each of them before it reads from it. -/
theorem leafResize_within (leaf : Mem) (p : EntryPos) (a fa : UInt64) :
    (leafResize H cityHash32 leaf p capacity siblingCapacity a fa).Within
      (bufferSize capacity siblingCapacity) ∅ fun _ _ => True := by
  unfold leafResize
  refine (within_init (by simp [bufferSize, FPTable.getSize, FPTable.attach])).bind fun J _ h => ?_
  subst h
  refine (within_init (by simp [bufferSize])).bind fun J _ h => ?_
  subst h
  refine (collectEntries_within (by simp) le_rfl capacity 0 (Nat.zero_add _)).bind fun J es h => ?_
  subst h
  have hset : (insert Buffer.buffer (insert Buffer.curFpBuffer ∅) : Set Buffer) =
      {.buffer, .curFpBuffer} := by simp
  rw [hset]
  exact splitEntries_within a fa (p :: es)

end Leaf

/-! ## An empty leaf -/

section Empty

variable {place : Buffer → Nat} {m : Mem} {capacity siblingCapacity : Nat}

/-- In a leaf of zeros every entry gets version 1, and no pair is collected. -/
theorem collectEntries_zero (place : Buffer → Nat) (n : Nat) :
    ∀ k i m, i + k = n → (∀ o, getEntryOffset i ≤ o → o < curNodeSize n → m (place .buffer + o) = 0) →
      ∃ m', (collectEntries k i).run place m = some ([], m') ∧
        (∀ j, i ≤ j → j < n → m' (place .buffer + (getEntryOffset j + 1)) = 1) ∧
        ∀ y, y < place .buffer + getEntryOffset i ∨ place .buffer + curNodeSize n ≤ y → m' y = m y := by
  intro k
  induction k with
  | zero =>
    intro i m hi _
    exact ⟨m, rfl, fun j h1 h2 => by omega, fun _ _ => rfl⟩
  | succ k ih =>
    intro i m hi hz
    have hoff := getEntryOffset_le (n := n) (i := i) (by omega)
    have hes : entrySize = 8 + keySize + 8 := rfl
    have hnext : getEntryOffset (i + 1) = getEntryOffset i + entrySize := by
      simp [getEntryOffset, Nat.add_mul, Nat.add_assoc]
    have hraw : bytesAt m (place .buffer + getEntryOffset i) 8 = List.replicate 8 0 := by
      refine List.eq_replicate_iff.mpr ⟨length_bytesAt, fun x hx => ?_⟩
      obtain ⟨o, ho, rfl⟩ := List.mem_map.mp hx
      rw [Nat.add_assoc]
      exact hz _ (by omega) (by have := List.mem_range.mp ho; omega)
    obtain ⟨m', hrun, hone, hout⟩ := ih (i + 1)
      (setBytes m (place .buffer + getEntryOffset i) (leBytes 8 (addVersion (leNat (List.replicate 8 0)))))
      (by omega) (by
        intro o h1 h2
        rw [setBytes_outside (by rw [length_leBytes]; omega)]
        exact hz o (by omega) h2)
    refine ⟨m', ?_, ?_, ?_⟩
    · unfold collectEntries
      rw [run_bind_of (run_get ..), hraw, run_bind_of (run_put ..), run_bind_of (run_get ..)]
      have hvalid : bytesAt (setBytes m (place .buffer + getEntryOffset i)
          (leBytes 8 (addVersion (leNat (List.replicate 8 0))))) (place .buffer + getEntryOffset i) 1 =
          [0] := by
        have hall : bytesAt _ (place .buffer + getEntryOffset i) (1 + 7) =
            leBytes 8 (addVersion (leNat (List.replicate 8 0))) :=
          bytesAt_setBytes_self (m := m) (by rw [length_leBytes])
        rw [bytesAt_add] at hall
        have hhead := congrArg (List.take 1) hall
        rwa [List.take_left' length_bytesAt] at hhead
      rw [hvalid, if_neg (by decide)]
      exact hrun
    · intro j h1 h2
      by_cases hj : j = i
      · subst hj
        rw [hout _ (by omega), ← Nat.add_assoc, setBytes_inside (by rw [length_leBytes]; omega)]
        rfl
      · exact hone j (by omega) h2
    · intro y hy
      rw [hout y (by omega), setBytes_outside (by rw [length_leBytes]; omega)]

theorem setVersion_outside (cityHash32 : List UInt8 → UInt32) (place : Buffer → Nat) (b : Buffer)
    (n : Nat) (m : Mem) (v : Nat) :
    ∃ m', ((FPTable.attach b 0 n).setVersion cityHash32 v).run place m = some ((), m') ∧
      FPTable.SameOutside m m' (place b) n := by
  refine ⟨_, (run_bind_of (run_put ..)).trans (FPTable.setConsistent_run _), ?_⟩
  refine (FPTable.sameOutside_setBytes le_rfl ?_).trans (FPTable.sameOutside_setBytes (by omega) ?_)
  · rw [length_leBytes]
    omega
  · rw [length_leBytes]
    omega

/-- A table whose first slot is free takes a fingerprint there. -/
theorem insert_first (cityHash32 : List UInt8 → UInt32) (place : Buffer → Nat) (b : Buffer)
    (hn : 0 < n) (hm : m (place b + 8) = 0) (f : UInt8) :
    ∃ m', ((FPTable.attach b 0 n).insert cityHash32 f).run place m = some (some 0, m') ∧
      FPTable.SameOutside m m' (place b) n := by
  have hfind : (bytesAt m (place b + 8) n).findIdx? (· == 0) = some 0 := by
    refine List.findIdx?_eq_some_iff_getElem.mpr ⟨by rwa [length_bytesAt], ?_, by simp⟩
    simp [bytesAt, hm]
  refine ⟨_, (FPTable.insertLoop_found rfl hfind (by decide) f n 0 (Nat.zero_add n) le_rfl).trans
    (congrArg _ (FPTable.setConsistent_run _)), (FPTable.sameOutside_slot hn).trans
      (FPTable.sameOutside_setBytes (by omega) ?_)⟩
  rw [length_leBytes]
  omega

/-- An entry that is not valid takes a pair. -/
theorem insertEntry_free (place : Buffer → Nat) (b : Buffer) (off : Nat) (hm : m (place b + off) = 0)
    (p : EntryPos) :
    ∃ m', (insertEntry b off p).run place m = some (true, m') ∧
      ∀ y, y < place b + off ∨ place b + off + entrySize ≤ y → m' y = m y := by
  have hes : entrySize = 8 + keySize + 8 := rfl
  have hvalid : bytesAt m (place b + off) 1 = [0] := by simp [bytesAt, hm]
  have hrun : (insertEntry b off p).run place m = some (true,
      setBytes (setBytes (setBytes m (place b + (off + 8)) p.key.bytes) (place b + (off + 8 + keySize))
        (leBytes 8 p.value.toNat)) (place b + off) [1]) := by
    unfold insertEntry
    rw [run_bind_of (run_get ..), hvalid, if_pos rfl, run_bind_of (run_put ..),
      run_bind_of (run_put ..), run_bind_of (run_put ..), run_pure]
  refine ⟨_, hrun, fun y hy => ?_⟩
  rw [setBytes_outside (by rw [List.length_singleton]; omega),
    setBytes_outside (by rw [length_leBytes]; omega), setBytes_outside (by rw [Key.length_bytes]; omega)]

/-- The second half of `leaf_resize` for a single pair, which goes to the sibling: the bytes of the
current leaf behind its header stay what they were, unless they are cleared with the sibling. -/
theorem splitEntries_single (H : Hashes) (cityHash32 : List UInt8 → UInt32) (m : Mem) (a fa : UInt64)
    (p : EntryPos) (hs : 0 < siblingCapacity)
    (ht : place .sibFpBuffer + 8 < place .curFpBuffer ∨
      place .curFpBuffer + (capacity + 24) ≤ place .sibFpBuffer + 8)
    (ht' : place .siblingBuffer + headerSize < place .curFpBuffer ∨
      place .curFpBuffer + (capacity + 24) ≤ place .siblingBuffer + headerSize)
    (hf : place .siblingBuffer + headerSize < place .sibFpBuffer ∨
      place .sibFpBuffer + (siblingCapacity + 24) ≤ place .siblingBuffer + headerSize) :
    ∃ images m', (splitEntries H cityHash32 capacity siblingCapacity a fa [p]).run place m =
        some (images, m') ∧
      images.current = bytesAt m' (place .buffer) (curNodeSize capacity) ∧
      ∀ x, place .buffer + headerSize ≤ x →
        (x < place .curFpBuffer ∨ place .curFpBuffer + (capacity + 24) ≤ x) →
        (x < place .sibFpBuffer ∨ place .sibFpBuffer + (siblingCapacity + 24) ≤ x) →
        (x < place .siblingBuffer ∨ place .siblingBuffer + getEntryOffset 1 ≤ x) →
        m' x = if place .siblingBuffer ≤ x ∧ x < place .siblingBuffer + curNodeSize siblingCapacity
          then 0 else m x := by
  have h1 : getEntryOffset 1 = headerSize + entrySize := by simp [getEntryOffset]
  have h0 : getEntryOffset 0 = headerSize := by simp [getEntryOffset]
  have hsize := getEntryOffset_le hs
  rw [h0] at hsize
  have hes : 0 < entrySize := by decide
  have hsplit : (if siblingCapacity > capacity then 0 else [p].length / 2) = 0 := by simp
  have hsort : [p].insertionSort (fun a b => a.key ≤ b.key) = [p] := by simp
  -- the sibling and its table are cleared
  generalize hm1 : setBytes (setBytes m (place .siblingBuffer)
    (List.replicate (curNodeSize siblingCapacity) 0)) (place .sibFpBuffer)
    (List.replicate (siblingCapacity + 8 * 3) 0) = m₁
  have hz : ∀ x, (x < place .sibFpBuffer ∨ place .sibFpBuffer + (siblingCapacity + 24) ≤ x) →
      m₁ x = if place .siblingBuffer ≤ x ∧ x < place .siblingBuffer + curNodeSize siblingCapacity
        then 0 else m x := by
    intro x hx
    rw [← hm1, setBytes_outside (by rw [List.length_replicate]; omega)]
    by_cases hin : place .siblingBuffer ≤ x ∧ x < place .siblingBuffer + curNodeSize siblingCapacity
    · obtain ⟨o, rfl⟩ := Nat.exists_eq_add_of_le hin.1
      rw [if_pos hin, setBytes_inside (by rw [List.length_replicate]; omega), List.getElem_replicate]
    · rw [if_neg hin, setBytes_outside (by rw [List.length_replicate]; omega)]
  have hslot : m₁ (place .sibFpBuffer + 8) = 0 := by
    rw [← hm1, setBytes_inside (by rw [List.length_replicate]; omega), List.getElem_replicate]
  have hentry : m₁ (place .siblingBuffer + headerSize) = 0 := by
    rw [hz _ hf, if_pos (by omega)]
  -- the rest leaves both alone until the pair is inserted
  generalize hhdr : bytesAt m₁ (place .buffer) headerSize = hdr
  have hlen : hdr.length = headerSize := by rw [← hhdr, length_bytesAt]
  obtain ⟨m₂, hrun₂, hout₂⟩ := setVersion_outside cityHash32 place .curFpBuffer capacity m₁
    (signExtend (hdrVersion (currentHdr hdr a fa siblingCapacity p.key)))
  obtain ⟨m₃, hrun₃, hout₃⟩ := insert_first cityHash32 place .sibFpBuffer hs
    ((hout₂ _ ht).trans hslot) (calKeyFp H p.key)
  obtain ⟨m₄, hrun₄, hout₄⟩ := insertEntry_free place .siblingBuffer headerSize
    ((hout₃ _ hf).trans ((hout₂ _ ht').trans hentry)) p
  have hnil : ∀ t b, (insertPairs H cityHash32 t b []).run place m₂ = some ((), m₂) :=
    fun _ _ => rfl
  have hdone : (insertPairs H cityHash32 (FPTable.attach .sibFpBuffer 0 siblingCapacity) .siblingBuffer
      [p]).run place m₂ = some ((), m₄) := by
    unfold insertPairs insertPair
    rw [run_bind_of ((run_bind_of hrun₃).trans ((run_bind_of (h0 ▸ hrun₄)).trans rfl))]
    rfl
  generalize hm5 : setBytes (setBytes m₄ (place .buffer) (currentHdr hdr a fa siblingCapacity p.key))
    (place .siblingBuffer) (siblingHdr hdr siblingCapacity p.key) = m₅
  have hrun : (splitEntries H cityHash32 capacity siblingCapacity a fa [p]).run place m = some
      (⟨bytesAt m₅ (place .siblingBuffer) (curNodeSize siblingCapacity),
        bytesAt m₅ (place .sibFpBuffer) (siblingCapacity + 8 * 3),
        bytesAt m₅ (place .buffer) (curNodeSize capacity),
        bytesAt m₅ (place .curFpBuffer) (capacity + 8 * 3)⟩, m₅) := by
    unfold splitEntries
    simp only [hsplit, hsort, List.getElem?_cons_zero, List.take_zero, List.drop_zero]
    rw [run_bind_of (run_put ..), run_bind_of (run_put ..), run_bind_of (run_get ..)]
    simp only [Nat.add_zero, FPTable.getSize, FPTable.attach] at *
    rw [hm1, hhdr, run_bind_of hrun₂, run_bind_of (hnil _ _), run_bind_of hdone,
      run_bind_of (run_put ..), run_bind_of (run_put ..)]
    simp only [Nat.add_zero, hm5]
    rfl
  refine ⟨_, m₅, hrun, rfl, fun x hb hc hf hs => ?_⟩
  rw [← hm5, setBytes_outside (by rw [length_siblingHdr hlen]; omega),
    setBytes_outside (by rw [length_currentHdr hlen]; omega), hout₄ x (by omega), hout₃ x hf, hout₂ x hc,
    hz x hf]

/-- Where the version of the last entry is. -/
def lastVersion (capacity : Nat) : Nat := getEntryOffset (capacity - 1) + 1

/-- An empty leaf: the last entry has version 1, unless it is cleared with the sibling. -/
theorem leafResize_zero (H : Hashes) (cityHash32 : List UInt8 → UInt32) (place : Buffer → Nat) (m : Mem)
    (a fa : UInt64) (p : EntryPos) (hc : 0 < capacity) (hs : 0 < siblingCapacity)
    (ht : place .sibFpBuffer + 8 < place .curFpBuffer ∨
      place .curFpBuffer + (capacity + 24) ≤ place .sibFpBuffer + 8)
    (ht' : place .siblingBuffer + headerSize < place .curFpBuffer ∨
      place .curFpBuffer + (capacity + 24) ≤ place .siblingBuffer + headerSize)
    (hf : place .siblingBuffer + headerSize < place .sibFpBuffer ∨
      place .sibFpBuffer + (siblingCapacity + 24) ≤ place .siblingBuffer + headerSize)
    {x : Nat} (hx : x = place .buffer + lastVersion capacity)
    (hxt : x < place .curFpBuffer ∨ place .curFpBuffer + (capacity + 24) ≤ x)
    (hxf : x < place .sibFpBuffer ∨ place .sibFpBuffer + (siblingCapacity + 24) ≤ x)
    (hxs : x < place .siblingBuffer ∨ place .siblingBuffer + getEntryOffset 1 ≤ x) :
    ∃ images m', (leafResize H cityHash32 (fun _ => 0) p capacity siblingCapacity a fa).run place m =
        some (images, m') ∧
      images.current[lastVersion capacity]? =
        some (if place .siblingBuffer ≤ x ∧ x < place .siblingBuffer + curNodeSize siblingCapacity
          then 0 else 1) := by
  have hlast := getEntryOffset_le (n := capacity) (i := capacity - 1) (by omega)
  have hes : 1 < entrySize := by decide
  have hle : headerSize ≤ getEntryOffset (capacity - 1) := Nat.le_add_right _ _
  have hlt : lastVersion capacity < curNodeSize capacity := by
    unfold lastVersion
    omega
  generalize hm1 : setBytes (setBytes m (place .curFpBuffer) (List.replicate (capacity + 8 * 3) 0))
    (place .buffer) (bytesAt (fun _ => 0) 0 (curNodeSize capacity)) = m₁
  have hzero : ∀ o, getEntryOffset 0 ≤ o → o < curNodeSize capacity → m₁ (place .buffer + o) = 0 := by
    intro o _ ho
    rw [← hm1, setBytes_inside (by rw [length_bytesAt]; exact ho)]
    simp [bytesAt]
  obtain ⟨m₂, hrun₂, hone, -⟩ := collectEntries_zero place capacity capacity 0 m₁
    (Nat.zero_add _) hzero
  obtain ⟨images, m', hrun, hcur, hbyte⟩ := splitEntries_single H cityHash32 m₂ a fa p hs ht ht' hf
  refine ⟨images, m', ?_, ?_⟩
  · unfold leafResize
    simp only [FPTable.getSize, FPTable.attach]
    rw [run_bind_of (run_put ..), run_bind_of (run_put ..)]
    simp only [Nat.add_zero, hm1]
    rw [run_bind_of hrun₂]
    exact hrun
  · rw [hcur, getElem?_bytesAt hlt, ← hx, hbyte x (by unfold lastVersion at hx; omega) hxt hxf hxs]
    have hone := hone (capacity - 1) (Nat.zero_le _) (by omega)
    rw [← lastVersion, ← hx] at hone
    rw [hone]

end Empty

/-! ## Where the buffers lie -/

section Place

variable {capacity siblingCapacity : Nat} {place : Buffer → Nat}

/-- In separate buffers the last entry of an empty leaf gets version 1. -/
theorem leafResize_zero_separate (H : Hashes) (cityHash32 : List UInt8 → UInt32)
    (h : Separate (bufferSize capacity siblingCapacity) place)
    (hc : 0 < capacity) (hs : 0 < siblingCapacity) (a fa : UInt64) (p : EntryPos) (m : Mem) :
    ∃ images m', (leafResize H cityHash32 (fun _ => 0) p capacity siblingCapacity a fa).run place m =
      some (images, m') ∧ images.current[lastVersion capacity]? = some 1 := by
  have hlast := getEntryOffset_le (n := capacity) (i := capacity - 1) (by omega)
  have hfirst := getEntryOffset_le (n := siblingCapacity) (i := 0) hs
  have h0 : getEntryOffset 0 = headerSize := by simp [getEntryOffset]
  have h1 : getEntryOffset 1 = headerSize + entrySize := by simp [getEntryOffset]
  have hes : 1 < entrySize := by decide
  have hbt := h .buffer .curFpBuffer (by decide)
  have hbs := h .buffer .siblingBuffer (by decide)
  have hbf := h .buffer .sibFpBuffer (by decide)
  have hts := h .curFpBuffer .siblingBuffer (by decide)
  have htf := h .curFpBuffer .sibFpBuffer (by decide)
  have hsf := h .siblingBuffer .sibFpBuffer (by decide)
  simp only [bufferSize] at hbt hbs hbf hts htf hsf
  have hx : lastVersion capacity = getEntryOffset (capacity - 1) + 1 := rfl
  obtain ⟨images, m', hrun, hbyte⟩ := leafResize_zero H cityHash32 place m
    a fa p hc hs (by omega) (by omega) (by omega) rfl (by omega) (by omega) (by omega)
  refine ⟨images, m', hrun, hbyte.trans ?_⟩
  rw [if_neg (by omega)]

theorem leafCapacity_cases {c : Nat} (h : LeafCapacity c) : c = 32 ∨ c = 64 ∨ c = 128 := by
  induction h with
  | initial => exact Or.inl rfl
  | adapt grow _ ih =>
    cases grow with
    | false => exact ih
    | true => rcases ih with rfl | rfl | rfl <;> decide

theorem RdmaBuffer.separate {r : RdmaBuffer} (h : r.Fits capacity siblingCapacity) :
    Separate (bufferSize capacity siblingCapacity) (r.place capacity siblingCapacity) := by
  unfold Fits at h
  intro b c hbc
  cases b <;> cases c <;> simp only [bufferSize, RdmaBuffer.place] at h ⊢ <;> first | omega | skip
  all_goals exact absurd rfl hbc

/-- The page buffers come before the sibling buffers. -/
theorem RdmaBuffer.place_siblingBuffer (r : RdmaBuffer) (capacity siblingCapacity : Nat) :
    ∃ k, 1 ≤ k ∧ r.place capacity siblingCapacity .siblingBuffer =
      r.place capacity siblingCapacity .buffer + k * kPageSize := by
  have hp : (r.pageBufferCur + 1) % kPageBufferCnt < 8 := Nat.mod_lt _ (by decide)
  refine ⟨8 - (r.pageBufferCur + 1) % kPageBufferCnt + (r.siblingBufferCur + 1) % kSiblingBufferCnt,
    by omega, ?_⟩
  have hs : kPageSize = 2048 := rfl
  have hn : kPageBufferCnt = 8 := rfl
  simp only [RdmaBuffer.place, getPageBuffer, getSiblingBuffer, RdmaBuffer.siblingBuffer,
    RdmaBuffer.pageBuffer]
  rw [hs, hn] at *
  omega

/-- Where the buffers overlap, the images of an empty leaf are not those of separate buffers. -/
theorem images_differ (H : Hashes) (cityHash32 : List UInt8 → UInt32) {r : RdmaBuffer}
    (hc : LeafCapacity capacity) (grow : Bool)
    (hr : ¬ r.Fits capacity (adaptCapacity grow capacity))
    (h : Separate (bufferSize capacity (adaptCapacity grow capacity)) place)
    (a fa : UInt64) (p : EntryPos) (m m' : Mem) :
    ((leafResize H cityHash32 (fun _ => 0) p capacity (adaptCapacity grow capacity) a fa).run
        (r.place capacity (adaptCapacity grow capacity)) m).map Prod.fst ≠
      ((leafResize H cityHash32 (fun _ => 0) p capacity (adaptCapacity grow capacity) a fa).run
        place m').map Prod.fst := by
  generalize hsib : adaptCapacity grow capacity = siblingCapacity at *
  have hge : capacity ≤ siblingCapacity := by
    subst hsib
    rcases leafCapacity_cases hc with rfl | rfl | rfl <;> cases grow <;> decide
  have hcap := leafCapacity_cases hc
  obtain ⟨k, hk, hplace⟩ := r.place_siblingBuffer capacity siblingCapacity
  have hsize : ∀ n, curNodeSize n = 80 + n * 40 := fun _ => rfl
  have hoff : ∀ i, getEntryOffset i = 80 + i * 40 := fun _ => rfl
  have hpage : kPageSize = 2048 := rfl
  have hhdr : headerSize = 80 := rfl
  have hfp : r.place capacity siblingCapacity .curFpBuffer =
      r.place capacity siblingCapacity .buffer + curNodeSize capacity := rfl
  have hsf : r.place capacity siblingCapacity .sibFpBuffer =
      r.place capacity siblingCapacity .siblingBuffer + curNodeSize siblingCapacity := rfl
  have hlv : lastVersion capacity = getEntryOffset (capacity - 1) + 1 := rfl
  unfold RdmaBuffer.Fits at hr
  rw [hsize] at hfp hsf
  rw [hpage] at hplace
  have hk2 : k = 1 ∨ k = 2 := by omega
  obtain ⟨images, m₁, hrun, hbyte⟩ := leafResize_zero H cityHash32
    (r.place capacity siblingCapacity) m a fa p (show 0 < capacity by omega)
    (show 0 < siblingCapacity by omega) (by omega) (by omega) (by omega) rfl
    (by rw [hlv, hoff]; omega) (by rw [hlv, hoff]; omega) (by rw [hlv, hoff, hoff]; omega)
  obtain ⟨images', m₂, hrun', hbyte'⟩ := leafResize_zero_separate H cityHash32
    h (by omega) (by omega) a fa p m'
  rw [hrun, hrun']
  intro heq
  have himg : images = images' := Option.some.inj heq
  rw [himg, hbyte', if_pos (by rw [hlv, hoff, hsize]; omega)] at hbyte
  exact absurd (Option.some.inj hbyte) (by decide)

/-- Buffers one behind the other. -/
def spread (capacity siblingCapacity : Nat) : Buffer → Nat
  | .buffer => 0
  | .curFpBuffer => curNodeSize capacity
  | .siblingBuffer => curNodeSize capacity + (capacity + 8 * 3)
  | .sibFpBuffer => curNodeSize capacity + (capacity + 8 * 3) + curNodeSize siblingCapacity

theorem spread_separate : Separate (bufferSize capacity siblingCapacity)
    (spread capacity siblingCapacity) := by
  intro b c hbc
  cases b <;> cases c <;> simp only [bufferSize, spread] <;> first | omega | exact absurd rfl hbc

end Place

end DMTree.Raw
