import DMTree.InnerTree
import DMTree.Lib.Segments

/-!
# An inner node is a bounded sorted map

The valid records of a well-formed node are a strictly sorted prefix of the array. Insertion is
insertion into that sorted list, lookup finds the record with the greatest key up to the key looked
up, and a full node splits into the records below and from the middle key on.
-/

namespace DMTree

open Segments

namespace InnerNode

/-- The valid records. -/
def recs (n : InnerNode) : List Record := n.record.takeWhile (·.valid)

/-- The valid records are a strictly sorted prefix of the array. -/
structure Wf (n : InnerNode) : Prop where
  length : n.record.length = innerNodeCapacity
  dead : ∀ r ∈ n.record.dropWhile (·.valid), r.valid = false
  sorted : Sorted Record.key n.recs

variable {H : Hashes} {n n' : InnerNode} {k : Key} {r : Record}

theorem record_eq (n : InnerNode) : n.record = n.recs ++ n.record.dropWhile (·.valid) :=
  List.takeWhile_append_dropWhile.symm

theorem valid_of_mem_recs (h : r ∈ n.recs) : r.valid = true := List.mem_takeWhile_imp h

/-- An array that is a valid part followed by an invalid part. -/
theorem takeWhile_valid {l d : List Record} (hl : ∀ r ∈ l, r.valid = true)
    (hd : ∀ r ∈ d, r.valid = false) : (l ++ d).takeWhile (·.valid) = l := by
  rw [List.takeWhile_append_of_pos hl]
  cases d with
  | nil => simp
  | cons a d => simp [hd a List.mem_cons_self]

theorem dropWhile_valid {l d : List Record} (hl : ∀ r ∈ l, r.valid = true)
    (hd : ∀ r ∈ d, r.valid = false) : (l ++ d).dropWhile (·.valid) = d := by
  rw [List.dropWhile_append_of_pos hl]
  cases d with
  | nil => rfl
  | cons a d => rw [List.dropWhile_cons_of_neg (by simp [hd a List.mem_cons_self])]

/-- A node given by its valid and its invalid records. -/
theorem wf_of_record {l d : List Record} (h : n.record = l ++ d) (hl : ∀ r ∈ l, r.valid = true)
    (hd : ∀ r ∈ d, r.valid = false) (hlen : l.length + d.length = innerNodeCapacity)
    (hs : Sorted Record.key l) : n.Wf ∧ n.recs = l := by
  have hr : n.recs = l := by rw [recs, h, takeWhile_valid hl hd]
  refine ⟨⟨?_, ?_, ?_⟩, hr⟩
  · rw [h, List.length_append, hlen]
  · rw [h, dropWhile_valid hl hd]
    exact hd
  · rwa [hr]

theorem Wf.length_le (h : n.Wf) : n.recs.length ≤ innerNodeCapacity := by
  have hlen := congrArg List.length n.record_eq
  rw [h.length, List.length_append] at hlen
  omega

/-! ## Checks -/

@[simp] theorem checkConsistent_setConsistent : (n.setConsistent H).checkConsistent H = true := by
  simp [checkConsistent, setConsistent]

@[simp] theorem checkConsistent_setHdr {h : InnerHeader} :
    (n.setHdr H h).checkConsistent H = true := checkConsistent_setConsistent

theorem checkHdr_iff : n.checkHdr k = true ↔ n.hdr.minKey ≤ k ∧ k < n.hdr.maxKey := by
  simp [checkHdr, and_comm]

theorem Wf.lock (h : n.Wf) (b : Bool) : ({ n with lock := b } : InnerNode).Wf :=
  ⟨h.length, h.dead, h.sorted⟩

/-! ## Lookup -/

theorem takeWhile_floor {l₁ l₂ d : List Record} (hs : Sorted Record.key (l₁ ++ r :: l₂))
    (hv : ∀ s ∈ l₁ ++ r :: l₂, s.valid = true) (hd : ∀ s ∈ d, s.valid = false)
    (hk : r.key ≤ k) (hl : ∀ s ∈ l₂, k < s.key) :
    (l₁ ++ r :: l₂ ++ d).takeWhile (fun s => s.valid && decide (s.key ≤ k)) = l₁ ++ [r] := by
  have hpos : ∀ s ∈ l₁ ++ [r], (s.valid && decide (s.key ≤ k)) = true := by
    intro s h
    have hkey : s.key ≤ k := by
      rcases List.mem_append.mp h with h | h
      · exact (hs.left_lt h).le.trans hk
      · rwa [List.mem_singleton.mp h]
    rw [hv s (by grind), decide_eq_true hkey]
    rfl
  have hrest : (l₂ ++ d).takeWhile (fun s => s.valid && decide (s.key ≤ k)) = [] := by
    cases l₂ with
    | cons s l₂ =>
      have hlt := hl s List.mem_cons_self
      simp [hlt]
    | nil =>
      cases d with
      | nil => rfl
      | cons s d => simp [hd s List.mem_cons_self]
  have happ : l₁ ++ r :: l₂ ++ d = (l₁ ++ [r]) ++ (l₂ ++ d) := by simp
  rw [happ, List.takeWhile_append_of_pos hpos, hrest, List.append_nil]

/-- Lookup finds the record with the greatest key up to `k`. -/
theorem Wf.search_eq (h : n.Wf) {under : InnerHeader → Record} {l₁ l₂ : List Record}
    (hr : n.recs = l₁ ++ r :: l₂) (hk : r.key ≤ k) (hl : ∀ s ∈ l₂, k < s.key) :
    n.search under k = r := by
  have hs := h.sorted
  rw [hr] at hs
  rw [search, n.record_eq, hr,
    takeWhile_floor hs (fun s hs => valid_of_mem_recs (n := n) (hr ▸ hs)) h.dead hk hl]
  simp

/-! ## Insertion -/

theorem findIdx?_append_cons {α : Type} {p : α → Bool} {l₁ l₂ : List α} {a : α}
    (h : ∀ b ∈ l₁, p b = false) (ha : p a = true) :
    (l₁ ++ a :: l₂).findIdx? p = some l₁.length := by
  induction l₁ with
  | nil => simp [List.findIdx?_cons, ha]
  | cons b l₁ ih =>
    rw [List.cons_append, List.findIdx?_cons, h b List.mem_cons_self,
      ih fun c hc => h c (List.mem_cons_of_mem _ hc)]
    simp

/-- Sorting a sorted list with one more record at the end is insertion. -/
theorem insertionSort_append_singleton {l : List Record} (hs : Sorted Record.key l)
    (hr : ∀ s ∈ l, s.key ≠ r.key) :
    (l ++ [r]).insertionSort (fun a b => a.key ≤ b.key) = put Record.key r l := by
  have hput : Sorted Record.key (put Record.key r l) := hs.put
  have hperm : (put Record.key r l).Perm (l ++ [r]) :=
    (put_perm hs hr).trans (List.perm_append_singleton r l).symm
  have htotal : ∀ a b : Record, a.key ≤ b.key ∨ b.key ≤ a.key := fun a b => le_total _ _
  have : Std.Total fun a b : Record => a.key ≤ b.key := ⟨htotal⟩
  have : IsTrans Record fun a b => a.key ≤ b.key := ⟨fun _ _ _ => le_trans⟩
  refine List.Perm.eq_of_pairwise ?_ (List.pairwise_insertionSort (fun a b : Record => a.key ≤ b.key) _)
    (hput.imp le_of_lt) ((List.perm_insertionSort _ _).trans hperm.symm)
  intro a b ha hb hab hba
  have ha' : a ∈ put Record.key r l := hperm.symm.mem_iff.mp (List.mem_insertionSort _ |>.mp ha)
  exact hput.eq_of_key ha' hb (le_antisymm hab hba)

/-- What insertion into a node does. -/
structure Inserted (H : Hashes) (n : InnerNode) (r : Record) (n' : InnerNode) : Prop where
  wf : n'.Wf
  recs : n'.recs = put Record.key r n.recs
  hdr : n'.hdr = n.hdr
  lock : n'.lock = n.lock
  consistent : n'.checkConsistent H = true

/-- `insert` refuses a record exactly when the node is full and has no record with its key. -/
theorem Wf.insert_spec (h : n.Wf) (hv : r.valid = true) :
    match n.insert H r with
    | none => n.recs.length = innerNodeCapacity ∧ ∀ s ∈ n.recs, s.key ≠ r.key
    | some n' => Inserted H n r n' := by
  have hval : ∀ s ∈ n.recs, s.valid = true := fun s => valid_of_mem_recs
  have hrec := n.record_eq
  have hlen : n.recs.length + (n.record.dropWhile (·.valid)).length = innerNodeCapacity := by
    rw [← List.length_append, ← hrec, h.length]
  generalize hd : n.record.dropWhile (·.valid) = d at hrec hlen
  have hdead : ∀ s ∈ d, s.valid = false := hd ▸ h.dead
  by_cases hk : ∃ s ∈ n.recs, s.key = r.key
  · -- the record with the same key is replaced in place
    obtain ⟨s, hs, hkey⟩ := hk
    obtain ⟨l₁, l₂, hl⟩ := List.append_of_mem hs
    have hsort := h.sorted
    rw [hl] at hsort hval hrec hlen
    have hrec' : n.record = l₁ ++ s :: (l₂ ++ d) := by rw [hrec]; simp
    have hidx : n.record.findIdx? (fun s => !s.valid || s.key == r.key) = some l₁.length := by
      rw [hrec']
      refine findIdx?_append_cons (fun b hb => ?_) (by simp [hkey])
      have hb1 := hval b (by simp [hb])
      have hb2 : b.key ≠ r.key := by
        rw [← hkey]
        exact (hsort.left_lt hb).ne
      simp [hb1, hb2]
    have hat : n.record[l₁.length]? = some s := by rw [hrec']; simp
    have hset : n.record.set l₁.length r = l₁ ++ r :: l₂ ++ d := by rw [hrec']; simp
    have hput : put Record.key r n.recs = l₁ ++ r :: l₂ := by rw [hl, put_replace hsort hkey.symm]
    simp only [insert, hidx, hat, Option.map_some, Option.getD_some, hval s (by simp), if_true]
    have hw := wf_of_record (n := ({ n with record := n.record.set l₁.length r } : InnerNode).setConsistent H)
      (l := l₁ ++ r :: l₂) (d := d) hset (by grind) hdead (by simp at hlen ⊢; omega)
      (by rw [← hput]; exact h.sorted.put)
    exact ⟨hw.1, hw.2.trans hput.symm, rfl, rfl, checkConsistent_setConsistent⟩
  · have hne : ∀ s ∈ n.recs, s.key ≠ r.key := fun s hs hkey => hk ⟨s, hs, hkey⟩
    have hno : ∀ s ∈ n.recs, (!s.valid || s.key == r.key) = false := by
      intro s hs
      simp [hval s hs, hne s hs]
    cases d with
    | nil =>
      have hidx : n.record.findIdx? (fun s => !s.valid || s.key == r.key) = none := by
        rw [hrec, List.append_nil, List.findIdx?_eq_none_iff]
        exact hno
      simp only [insert, hidx]
      exact ⟨by simpa using hlen, hne⟩
    | cons s d =>
      -- the first invalid slot takes the record, and the valid ones are sorted
      have hidx : n.record.findIdx? (fun s => !s.valid || s.key == r.key) = some n.recs.length := by
        rw [hrec]
        exact findIdx?_append_cons hno (by simp [hdead s List.mem_cons_self])
      have hat : n.record[n.recs.length]? = some s := by
        conv_lhs => rw [hrec]
        simp
      have hset : n.record.set n.recs.length r.copy = (n.recs ++ [r]) ++ d := by
        have hcopy : r.copy = r := by simp [Record.copy, ← hv]
        rw [hcopy]
        conv_lhs => rw [hrec]
        simp
      have hcount : ((n.recs ++ [r]) ++ d).countP (·.valid) = (n.recs ++ [r]).length := by
        have hzero : d.countP (·.valid) = 0 := List.countP_eq_zero.mpr fun s' hs' => by
          simp [hdead s' (List.mem_cons_of_mem _ hs')]
        rw [List.countP_append, hzero, Nat.add_zero, List.countP_eq_length]
        intro s' hs'
        rcases List.mem_append.mp hs' with hs' | hs'
        · exact hval s' hs'
        · rwa [List.mem_singleton.mp hs']
      have hsort : (({ n with record := n.record.set n.recs.length r.copy } : InnerNode).sortNode).record
          = put Record.key r n.recs ++ d := by
        simp only [sortNode, hset, hcount, List.take_left, List.drop_left]
        rw [insertionSort_append_singleton h.sorted hne]
      simp only [insert, hidx, hat, Option.map_some, Option.getD_some,
        hdead s List.mem_cons_self, Bool.false_eq_true, if_false]
      have hw := wf_of_record
        (n := (({ n with record := n.record.set n.recs.length r.copy } : InnerNode).sortNode).setConsistent H)
        (l := put Record.key r n.recs) (d := d) hsort
        (fun s' hs' => by
          rcases mem_put.mp hs' with rfl | hs'
          · exact hv
          · exact hval s' hs'.1)
        (fun s' hs' => hdead s' (List.mem_cons_of_mem _ hs'))
        (by rw [length_put_of_not_mem hne]; simp at hlen; omega) h.sorted.put
      exact ⟨hw.1, hw.2, rfl, rfl, checkConsistent_setConsistent⟩

theorem Wf.inserted (h : n.Wf) (hv : r.valid = true) (hi : n.insert H r = some n') :
    Inserted H n r n' := by
  have hs := h.insert_spec (H := H) hv
  rwa [hi] at hs

theorem Wf.refused (h : n.Wf) (hv : r.valid = true) (hi : n.insert H r = none) :
    n.recs.length = innerNodeCapacity ∧ ∀ s ∈ n.recs, s.key ≠ r.key := by
  have hs := h.insert_spec (H := H) hv
  rwa [hi] at hs

/-- A new node: no record is valid. -/
theorem wf_zero_setHdr {h : InnerHeader} :
    (zero.setHdr H h).Wf ∧ (zero.setHdr H h).recs = [] :=
  wf_of_record (l := []) (d := List.replicate innerNodeCapacity {}) rfl (by simp)
    (fun r hr => by rw [List.eq_of_mem_replicate hr]) (by simp) List.Pairwise.nil

/-! ## Sequences of insertions -/

/-- `insert` refuses `r` in a node with the records `l`: all of them are needed, and none has its key. -/
def Refuses (l : List Record) (r : Record) : Prop :=
  l.length = innerNodeCapacity ∧ ∀ s ∈ l, s.key ≠ r.key

instance (l : List Record) (r : Record) : Decidable (Refuses l r) :=
  inferInstanceAs (Decidable (_ ∧ _))

theorem Wf.insert_eq_none_iff (h : n.Wf) (hv : r.valid = true) :
    n.insert H r = none ↔ Refuses n.recs r := by
  constructor
  · exact h.refused hv
  · rintro ⟨hfull, hne⟩
    cases hi : n.insert H r with
    | none => rfl
    | some n' =>
      have hins := h.inserted hv hi
      have hle := hins.wf.length_le
      rw [hins.recs, length_put_of_not_mem hne, hfull] at hle
      omega

/-- A map with room for `innerNodeCapacity` records. -/
def putWithin (l : List Record) (r : Record) : List Record :=
  if Refuses l r then l else put Record.key r l

/-- The node after one call of `insert`, which leaves it as it is when it returns false. -/
def insertInto (H : Hashes) (n : InnerNode) (r : Record) : InnerNode := (n.insert H r).getD n

theorem Wf.insertInto_spec (h : n.Wf) (hv : r.valid = true) :
    (n.insertInto H r).Wf ∧ (n.insertInto H r).recs = putWithin n.recs r := by
  have hiff := h.insert_eq_none_iff (H := H) hv
  unfold insertInto putWithin
  cases hi : n.insert H r with
  | none =>
    rw [if_pos (hiff.mp hi)]
    exact ⟨h, rfl⟩
  | some n' =>
    have hno : ¬ Refuses n.recs r := by
      intro href
      rw [hiff.mpr href] at hi
      cases hi
    have hins := h.inserted hv hi
    rw [if_neg hno]
    exact ⟨hins.wf, hins.recs⟩

theorem Wf.insertAll_spec (h : n.Wf) {rs : List Record} (hv : ∀ r ∈ rs, r.valid = true) :
    (rs.foldl (insertInto H) n).Wf ∧
      (rs.foldl (insertInto H) n).recs = rs.foldl putWithin n.recs := by
  induction rs generalizing n with
  | nil => exact ⟨h, rfl⟩
  | cons r rs ih =>
    obtain ⟨hw, hrecs⟩ := h.insertInto_spec (H := H) (hv r List.mem_cons_self)
    have hrest := ih hw fun s hs => hv s (List.mem_cons_of_mem _ hs)
    rw [hrecs] at hrest
    exact hrest

/-- Lookup of a key from the first record on. -/
theorem Wf.search_floor (h : n.Wf) (under : InnerHeader → Record) {first : Record}
    (hf : n.recs.head? = some first) (hk : first.key ≤ k) :
    n.search under k ∈ n.recs ∧ (n.search under k).key ≤ k ∧
      ∀ s ∈ n.recs, s.key ≤ k → s.key ≤ (n.search under k).key := by
  have hex : ∃ r ∈ n.recs, r.key ≤ k := ⟨first, List.mem_of_mem_head? hf, hk⟩
  obtain ⟨l₁, r, l₂, hr, hrk, hl⟩ := exists_floor hex
  have hs := h.sorted
  rw [h.search_eq hr hrk hl, hr] at *
  exact ⟨by simp, hrk, fun s hmem hsk => hs.le_floor hl hmem hsk⟩

/-- A node is a sorted map with room for `innerNodeCapacity` records: after any insertions its valid
records are a sorted prefix and those of the map, `insert` returns false exactly when the map refuses
the record, lookup finds the greatest key up to the key, and what the invalid records hold makes no
difference. -/
theorem sortedMap_of_insertions (h : n.Wf) {rs : List Record} (hv : ∀ r ∈ rs, r.valid = true)
    {m : InnerNode} (hm : m = rs.foldl (insertInto H) n) :
    m.Wf ∧ m.recs = rs.foldl putWithin n.recs ∧
      (∀ r, r.valid = true → (m.insert H r = none ↔ Refuses m.recs r)) ∧
      (∀ under k first, m.recs.head? = some first → first.key ≤ k →
        m.search under k ∈ m.recs ∧ (m.search under k).key ≤ k ∧
          ∀ s ∈ m.recs, s.key ≤ k → s.key ≤ (m.search under k).key) ∧
      ∀ n₂ m₂ : InnerNode, n₂.Wf → n₂.recs = n.recs → m₂ = rs.foldl (insertInto H) n₂ →
        m₂.recs = m.recs ∧
        (∀ r, r.valid = true → (m₂.insert H r = none ↔ m.insert H r = none)) ∧
        ∀ under k first, m.recs.head? = some first → first.key ≤ k →
          m₂.search under k = m.search under k := by
  subst hm
  obtain ⟨hw, hrecs⟩ := h.insertAll_spec (H := H) hv
  refine ⟨hw, hrecs, fun r hr => hw.insert_eq_none_iff hr,
    fun under k first hf hk => hw.search_floor under hf hk, ?_⟩
  rintro n₂ _ h₂ heq rfl
  obtain ⟨hw₂, hrecs₂⟩ := h₂.insertAll_spec (H := H) hv
  rw [heq, ← hrecs] at hrecs₂
  refine ⟨hrecs₂, fun r hr => ?_, fun under k first hf hk => ?_⟩
  · rw [hw₂.insert_eq_none_iff hr, hw.insert_eq_none_iff hr, hrecs₂]
  · -- both find the record with the greatest key up to `k`, and keys identify records
    obtain ⟨h1, h2, h3⟩ := hw.search_floor under hf hk
    obtain ⟨g1, g2, g3⟩ := hw₂.search_floor under (hrecs₂ ▸ hf) hk
    rw [hrecs₂] at g1 g3
    exact hw.sorted.eq_of_key g1 h1 (le_antisymm (h3 _ g1 g2) (g3 _ h1 h2))

/-- Hash functions that are always 0. -/
def noHash : Hashes := ⟨fun _ _ => 0, fun _ _ => 0, fun _ => 0⟩

/-- A node with 29 records. What a split has left in the other slots has keys that are inserted below,
or that lie between others. -/
def partlyStale : InnerNode where
  hdr := { rightAddr := .Null }
  record := (List.range 29).map (fun i => .make (.ofNat (10 * (i + 1))) ⟨1, i⟩ .Null 32 0) ++
    [⟨false, 7, .ofNat 155, ⟨9, 1⟩, .Null, 64⟩, ⟨false, 7, .ofNat 20, ⟨9, 2⟩, .Null, 64⟩,
      ⟨false, 7, .ofNat 158, ⟨9, 3⟩, .Null, 64⟩]

/-- Records out of order that fill the node; the second one and the fifth one have keys that are there,
and the last one finds no room. -/
def lateRecords : List Record :=
  [.make (.ofNat 155) ⟨2, 1⟩ .Null 32 3, .make (.ofNat 20) ⟨2, 2⟩ .Null 32 1,
    .make (.ofNat 5) ⟨2, 3⟩ .Null 32 0, .make (.ofNat 64) ⟨2, 4⟩ .Null 32 0,
    .make (.ofNat 155) ⟨2, 5⟩ .Null 64 4, .make (.ofNat 700) ⟨2, 6⟩ .Null 32 0]

/-- The node is full in the end, holds the later of the two records with the key 155, has refused the
key 700, and finds the record for the key 159. -/
theorem sortedMap_of_insertions_stale :
    partlyStale.Wf ∧ ∃ m, m = lateRecords.foldl (insertInto noHash) partlyStale ∧ m.Wf ∧
      m.recs.map Record.key = [5, 10, 20, 30, 40, 50, 60, 64, 70, 80, 90, 100, 110, 120, 130, 140,
        150, 155, 160, 170, 180, 190, 200, 210, 220, 230, 240, 250, 260, 270, 280, 290].map Key.ofNat ∧
      m.insert noHash (.make (.ofNat 700) ⟨2, 6⟩ .Null 32 0) = none ∧
      ∀ under, m.search under (.ofNat 159) = .make (.ofNat 155) ⟨2, 5⟩ .Null 64 4 := by
  have hw : partlyStale.Wf := by
    refine ⟨by decide, by decide +kernel, ?_⟩
    change List.Pairwise _ _
    decide +kernel
  have hv : ∀ r ∈ lateRecords, r.valid = true := by decide
  obtain ⟨hm, hrecs, hfull, hfloor, -⟩ := sortedMap_of_insertions (H := noHash) hw hv rfl
  refine ⟨hw, _, rfl, hm, ?_, (hfull _ rfl).mpr ?_, fun under => ?_⟩
  · rw [hrecs]
    decide +kernel
  · rw [hrecs]
    decide +kernel
  · -- the record that is found has the greatest key up to 159
    obtain ⟨hin, hle, hmax⟩ := hfloor under (.ofNat 159) (.make (.ofNat 5) ⟨2, 3⟩ .Null 32 0)
      (by rw [hrecs]; decide +kernel) (by decide)
    rw [hrecs] at hin hmax
    have hone : ∀ r ∈ lateRecords.foldl putWithin partlyStale.recs, r.key ≤ Key.ofNat 159 →
        Key.ofNat 155 ≤ r.key → r = .make (.ofNat 155) ⟨2, 5⟩ .Null 64 4 := by decide +kernel
    refine hone _ hin hle (hmax (.make (.ofNat 155) ⟨2, 5⟩ .Null 64 4) ?_ (by decide))
    decide +kernel

/-! ## Splitting -/

/-- The middle record of a full node. -/
theorem Wf.exists_middle (h : n.Wf) (hf : n.recs.length = innerNodeCapacity) :
    ∃ l₁ m l₂, n.record = l₁ ++ m :: l₂ ∧ n.recs = l₁ ++ m :: l₂ ∧
      l₁.length = innerNodeCapacity / 2 ∧ l₂.length + 1 = innerNodeCapacity / 2 := by
  have hd : n.record.dropWhile (·.valid) = [] := by
    have hlen := congrArg List.length n.record_eq
    rw [h.length, List.length_append, hf] at hlen
    exact List.length_eq_zero_iff.mp (by omega)
  have hrec : n.record = n.recs := by
    conv_lhs => rw [n.record_eq, hd, List.append_nil]
  have hlt : innerNodeCapacity / 2 < n.recs.length := by rw [hf]; decide
  refine ⟨n.recs.take (innerNodeCapacity / 2), n.recs[innerNodeCapacity / 2],
    n.recs.drop (innerNodeCapacity / 2 + 1), ?_, ?_, ?_, ?_⟩
  · rw [hrec, List.getElem_cons_drop, List.take_append_drop]
  · rw [List.getElem_cons_drop, List.take_append_drop]
  · rw [List.length_take, hf]
    decide
  · rw [List.length_drop, hf]
    decide

/-- The parts of a full node: the records before the middle one stay, the others move. -/
theorem Wf.split_parts (h : n.Wf) {l₁ l₂ : List Record} {m : Record}
    (hrec : n.record = l₁ ++ m :: l₂) (hl : n.recs = l₁ ++ m :: l₂)
    (h₁ : l₁.length = innerNodeCapacity / 2) (h₂ : l₂.length + 1 = innerNodeCapacity / 2)
    (ho hs : InnerHeader) :
    n.migRecords = m :: l₂ ∧
    ((n.splitOrigin H).setHdr H ho).Wf ∧ ((n.splitOrigin H).setHdr H ho).recs = l₁ ∧
    ((zero.setHdr H hs).splitSibling H n.migRecords).Wf ∧
    ((zero.setHdr H hs).splitSibling H n.migRecords).recs = m :: l₂ := by
  have hval : ∀ s ∈ l₁ ++ m :: l₂, s.valid = true := fun s hs => valid_of_mem_recs (hl ▸ hs)
  have hcopy : ∀ l : List Record, (∀ s ∈ l, s.valid = true) → l.map Record.copy = l := by
    intro l hl
    conv_rhs => rw [← List.map_id l]
    refine List.map_congr_left fun s hs => ?_
    have hv := hl s hs
    cases s
    simp_all [Record.copy]
  have htake : n.record.take (innerNodeCapacity / 2) = l₁ := by rw [hrec, ← h₁, List.take_left]
  have hdrop : n.record.drop (innerNodeCapacity / 2) = m :: l₂ := by
    rw [hrec, ← h₁, List.drop_left]
  have hmig : n.migRecords = m :: l₂ := by
    rw [migRecords, hdrop, hcopy]
    exact fun s hs => hval s (List.mem_append_right _ hs)
  have hsort := h.sorted
  rw [hl] at hsort
  have horig := wf_of_record (n := (n.splitOrigin H).setHdr H ho) (l := l₁)
    (d := (m :: l₂).map Record.drop) (by
      change n.record.take _ ++ (n.record.drop _).map Record.drop = _
      rw [htake, hdrop])
    (fun s hs => hval s (List.mem_append_left _ hs))
    (fun s hs => by
      obtain ⟨s', _, rfl⟩ := List.mem_map.mp hs
      rfl)
    (by simp [h₁, h₂, innerNodeCapacity]) hsort.append_left
  have hsib := wf_of_record (n := (zero.setHdr H hs).splitSibling H n.migRecords) (l := m :: l₂)
    (d := (List.replicate innerNodeCapacity {}).drop (m :: l₂).length) (by
      change n.migRecords.map Record.copy ++ (List.replicate _ _).drop n.migRecords.length = _
      rw [hmig, hcopy _ fun s hs => hval s (List.mem_append_right _ hs)])
    (fun s hs => hval s (List.mem_append_right _ hs))
    (fun s hs => by rw [List.eq_of_mem_replicate (List.mem_of_mem_drop hs)])
    (by simp [h₂, innerNodeCapacity]) hsort.append_right
  exact ⟨hmig, horig.1, horig.2, hsib.1, hsib.2⟩

end InnerNode

end DMTree
