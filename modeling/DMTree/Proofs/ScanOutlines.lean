import DMTree.Proofs.ReadOutlines

/-!
# Scans

`leaf_scan`. A scan goes from leaf to leaf along the right links. It reads the fingerprint table of a
leaf, and from that the number of slots in use, before it reads the leaf. The version of the leaf is
checked for the first leaf only. For the others it does not matter whether the leaf is split in between:
a leaf behind the first one is at least half full, and after a split at most half full, so that what is
left of it is in the slots that are read.
-/

namespace DMTree

open Conc Segments

variable {E : Env} {F : Flags} {M : Mode} {m m' : Cluster} {t u : Tid} {g g' : TreeView}
  {a b : Gaddr} {k start stop lo : Key} {o : Holding} {op : TreeOp} {f f' : Focus} {x y : LeafView}
  {z : TreeWorld E F} {r : Record} {tab : FPTable} {i n ver : Nat} {head : Bool} {l : Leaf}

/-! ## The slots in use -/

/-- The keys of the leaf that were stored when the call was made are in its first `n` slots. -/
def Covered (f : Focus) (x : LeafView) (n : Nat) : Prop :=
  ∀ k, f.old k → x.min ≤ k → k < x.max → ∃ i < n, (x.kv[i]?).map EntryPos.key = some k

/-- What the number of fingerprints `n` says about the leaf `a`: for the first leaf as long as its
version is `ver`, for the others whatever happens to them. -/
def Counted (f : Focus) (a : Gaddr) (ver n : Nat) (head : Bool) : Prop :=
  ∃ x, f.view.leaf a = some x ∧ (head = true → ver ≤ x.ver) ∧
    ((head = true → x.ver = ver) → Covered f x n) ∧
    (head = false → (x.cap + 1) / 2 ≤ n ∨ x.max ≤ x.min)

/-- What a rewritten leaf keeps is in the first half of its slots. -/
theorem Covered.rewritten (h : Covered f x n) (hold : f'.old = f.old) (hmin : y.min = x.min)
    (hmax : y.max ≤ x.max) (hlen : y.kv.length ≤ (x.cap + 1) / 2)
    (hkv : ∀ p ∈ x.kv, p.key < y.max → p.key ∈ y.kv.map EntryPos.key)
    (hn : (x.cap + 1) / 2 ≤ n ∨ x.max ≤ x.min) : Covered f' y n := by
  intro k hk h1 h2
  rw [hold] at hk
  rw [hmin] at h1
  obtain ⟨i, -, hi⟩ := h k hk h1 (h2.trans_le hmax)
  obtain ⟨p, hp, rfl⟩ := Option.map_eq_some_iff.mp hi
  obtain ⟨q, hq, hqk⟩ := List.mem_map.mp (hkv p (List.mem_of_getElem? hp) h2)
  obtain ⟨j, hj, hjk⟩ := exists_slot hq le_rfl
  refine ⟨j, ?_, hqk ▸ hjk⟩
  rcases hn with hn | hn
  · omega
  · exact absurd (h1.trans_lt (h2.trans_le hmax)) (not_lt.mpr hn)

theorem Enduring.counted : Enduring E M t fun f => Counted f a ver n head := by
  rintro u f f' hu hi ⟨x, hx, hver, hcov, hhalf⟩
  obtain ⟨x', hx', -, hmin, hcap, -⟩ := hi.rel.le.leaf a x hx
  refine ⟨x', hx', ?_⟩
  rcases hi.rel.step a x x' hx hx' with ⟨hv, hmax, hkeys⟩ | ⟨hv, hmax, hlen, hkv⟩
  · rw [hv, hcap, hmax, hmin]
    refine ⟨hver, fun h k hk h1 h2 => ?_, hhalf⟩
    rw [hi.old] at hk
    rw [hmin] at h1
    rw [hmax] at h2
    obtain ⟨i, hin, hik⟩ := hcov h k hk h1 h2
    exact ⟨i, hin, hkeys i k hik⟩
  · refine ⟨fun h => (hver h).trans hv.le, fun h => ?_, fun h => ?_⟩
    · cases head with
      | true =>
        have h1 := hver rfl
        have h2 := h rfl
        omega
      | false => exact (hcov fun h => by cases h).rewritten hi.old hmin hmax hlen hkv (hhalf rfl)
    · rw [hcap, hmin]
      exact (hhalf h).imp_right hmax.trans

/-- What the table of a leaf tells about it. -/
theorem TreeInv.covered (h : TreeInv E M m f.view) (hx : f.view.leaf a = some x)
    (hold : ∀ k, f.old k → f.view.Stored E.hash k) : Covered f x x.fps.length := by
  intro k hk h1 h2
  obtain ⟨b, y, j, hy, hj, hjk, -⟩ := hold k hk
  obtain ⟨p, hp, rfl⟩ := Option.map_eq_some_iff.mp hjk
  have hr := (h.leaves.ok b y hy).range p (List.mem_of_getElem? hp)
  obtain rfl := h.leaves.disjoint b a y x p.key hy hx hr.1 hr.2 h1 h2
  rw [hx] at hy
  cases hy
  exact ⟨j, hj, hjk⟩

/-! ## A leaf on the way -/

/-- The leaf `a` with its table, its capacity and its first key. -/
def Spot (g : TreeView) (a fp : Gaddr) (cap : Nat) (lo : Key) : Prop :=
  ∃ x, g.leaf a = some x ∧ x.tab = fp ∧ x.cap = cap ∧ x.min = lo

theorem Spot.mono {fp : Gaddr} {cap : Nat} (h : Spot g a fp cap lo) (hle : g.Le g') :
    Spot g' a fp cap lo := by
  obtain ⟨x, hx, htab, hcap, hmin⟩ := h
  obtain ⟨x', hx', ht, hm, hc, -⟩ := hle.leaf a x hx
  exact ⟨x', hx', ht.trans htab, hc.trans hcap, hm.trans hmin⟩

/-- The pairs in the first `n` slots of a leaf. -/
theorem reported_eq {cap v : Nat} {kv : List EntryPos} {es : List Entry} {h : LeafHeader} {c : Nat}
    (he : EntriesHold cap v kv es) (hc : n ≤ c) :
    reported start n ⟨h, es.take c⟩ = (kv.take n).filter fun p => decide (start ≤ p.key) := by
  obtain ⟨free, rfl, hfree, -⟩ := he
  have hnil : ∀ d, (free.take d).filter (fun e => e.valid && decide (start ≤ e.key)) = [] := by
    intro d
    rw [List.filter_eq_nil_iff]
    intro e he
    simp [(hfree e (List.mem_of_mem_take he)).1]
  rw [reported, List.take_take, Nat.min_eq_left hc, List.take_append, List.filter_append, hnil,
    List.append_nil, ← List.map_take, List.filter_map]
  simp only [Function.comp_def, liveEntry, Entry.pos, Bool.true_and, List.map_map, List.map_id']
  exact List.filter_congr fun p _ => decide_eq_decide.mpr Iff.rfl

/-- What a scan knows about a leaf that it has read. -/
structure LeafRead (f : Focus) (start lo : Key) (cap ver n : Nat) (head : Bool) (l : Leaf) :
    Prop where
  min : l.hdr.minKey = lo
  cap : l.hdr.capacity = cap
  le : lo ≤ l.hdr.maxKey
  le_max : l.hdr.maxKey ≤ KeyMax
  seen : ∀ p ∈ reported start n l, f.seen (·.Has p) ∧ start ≤ p.key ∧ lo ≤ p.key ∧ p.key < l.hdr.maxKey
  nodup : ((reported start n l).map EntryPos.key).Nodup
  full : (head = true → l.hdr.version = ver) → ∀ k, f.old k → start ≤ k → lo ≤ k →
    k < l.hdr.maxKey → k ∈ (reported start n l).map EntryPos.key
  pos : head = true → l.hdr.version = ver → start < l.hdr.maxKey
  right : ∃ s, RightLink f.view l.hdr l.hdr.maxKey s

theorem Enduring.leafRead {cap : Nat} :
    Enduring E M t fun f => LeafRead f start lo cap ver n head l := by
  intro u f f' hu hi h
  obtain ⟨s, hs⟩ := h.right
  refine { h with
    seen := fun p hp => ⟨hi.seen _ (h.seen p hp).1, (h.seen p hp).2⟩
    full := fun hv k hk => h.full hv k ?_
    right := ⟨s, hs.mono hi.rel.le⟩ }
  rwa [hi.old] at hk

/-- A first leaf that has the version of its record ends behind the key. -/
theorem TreeInv.start_lt (h : TreeInv E M m g) (hs : SnapRec g r start)
    (hx : g.leaf r.addr = some x) (hv : x.ver = r.version) : start < x.max := by
  obtain ⟨x', hx', -, -, -, -, hle, -, hmax⟩ := hs.leaf
  rw [hx] at hx'
  cases hx'
  have hok := h.leaves.ok _ x hx
  by_cases hstill : ∀ s, g.st r.addr ≠ .moving s
  · obtain ⟨h1, h2, -⟩ := hok.rest hstill
    exact h2 ▸ hmax (hv.symm.trans h1)
  · obtain ⟨s, hs⟩ := not_forall.mp hstill
    have hver := (hok.moving s (not_not.mp hs)).1
    omega

section Leaf

variable {φ : Focus → Prop} {fp : Gaddr} {cap : Nat} (hφ : Enduring E M t φ)
  (hsince : ∀ f, φ f → Since E f op) (hspot : ∀ f, φ f → Spot f.view a fp cap lo)
include hsince hspot

/-- The table of the leaf is read. For a leaf behind the first one nothing depends on its version. -/
theorem readTable_count (hlo : head = false → KeyNull < lo) :
    (treeDisc E F M).Cmd t (.readTable fp) (Says t φ) fun tab : FPTable =>
      Says t fun f => φ f ∧ ((head = true → tab.version = r.version) →
        Counted f a r.version tab.getEntryNum head) := by
  refine read_rule (c := .readTable fp) (ψ := fun (tab : FPTable) f => φ f ∧
    ((head = true → tab.version = r.version) → Counted f a r.version tab.getEntryNum head)) rfl
    (fun f hf => (hsince f hf).op_ne) fun z tab hi hz he => ⟨hz, fun hv => ?_⟩
  obtain ⟨tab', ht', heq⟩ := Option.map_eq_some_iff.mp he
  have heq : tab' = tab := congrArg Prod.fst heq
  subst heq
  obtain ⟨x, hx, htab, -, hmin⟩ := hspot _ hz
  obtain ⟨l, tab'', hst⟩ := hi.tree.leaves.stored _ x hx
  rw [← htab, hst.table] at ht'
  cases ht'
  have hok := hi.tree.leaves.ok a x hx
  rw [hst.fps.getEntryNum]
  refine ⟨x, hx, fun h => ?_, fun _ => hi.tree.covered hx (hsince _ hz).2, fun h => ?_⟩
  · rw [← hv h, hst.fps.version]
    by_cases hstill : ∀ s, z.ghost.view.st a ≠ .moving s
    · exact (hok.rest hstill).1.ge
    · obtain ⟨s, hs⟩ := not_forall.mp hstill
      have hver := (hok.moving s (not_not.mp hs)).1
      omega
  · by_cases hlt : x.min < x.max
    · exact Or.inl (hok.first (hmin ▸ hlo h) hlt).2
    · exact Or.inr (not_lt.mp hlt)

/-- What a read of the leaf tells. -/
theorem LeafStored.leafRead {c : Nat} (hi : WorldInv M z) (hz : φ (focus t z))
    (hcount : Counted (focus t z) a ver n head) (hc : n ≤ c)
    (hsnap : head = true → ∀ f, φ f → SnapRec f.view r start ∧ r.addr = a ∧ r.version = ver)
    (hs : LeafStored E.hash z.mem z.ghost.view a x l tab) (hx : z.ghost.view.leaf a = some x) :
    LeafRead (focus t z) start lo cap ver n head { l with entries := l.entries.take c } := by
  obtain ⟨x₁, hx₁, -, hcap, hmin⟩ := hspot _ hz
  obtain ⟨x₂, hx₂, hle, hcov, -⟩ := hcount
  have hx₁ : z.ghost.view.leaf a = some x₁ := hx₁
  have hx₂ : z.ghost.view.leaf a = some x₂ := hx₂
  rw [hx] at hx₁ hx₂
  cases hx₁
  cases hx₂
  have hok := hi.tree.leaves.ok a x hx
  have heq : reported start n { l with entries := l.entries.take c } =
      (x.kv.take n).filter fun p => decide (start ≤ p.key) := reported_eq hs.entries hc
  refine ⟨hs.min.trans hmin, hs.cap.trans hcap, ?_, ?_, fun p hp => ?_, ?_, fun hv k hk h1 h2 h3 => ?_,
    fun hh hv => ?_, x.right, ?_⟩
  · change lo ≤ l.hdr.maxKey
    rw [hs.max, ← hmin]
    exact hok.min_le
  · change l.hdr.maxKey ≤ KeyMax
    rw [hs.max]
    exact hok.max_le
  · rw [heq, List.mem_filter, decide_eq_true_eq] at hp
    have hmem := List.mem_of_mem_take hp.1
    obtain ⟨h1, h2⟩ := hok.range p hmem
    refine ⟨seen_now hi (hsince _ hz).op_ne (P := (·.Has p)) ⟨a, x, hx, hmem⟩, hp.2, hmin ▸ h1, ?_⟩
    change p.key < l.hdr.maxKey
    rwa [hs.max]
  · rw [heq]
    exact hok.keys.sublist ((List.filter_sublist.trans (List.take_sublist ..)).map _)
  · have h3 : k < l.hdr.maxKey := h3
    rw [hs.max] at h3
    obtain ⟨i, hin, hik⟩ := hcov (fun hh => hs.ver.symm.trans (hv hh)) k hk (hmin ▸ h2) h3
    obtain ⟨p, hp, rfl⟩ := Option.map_eq_some_iff.mp hik
    rw [heq]
    refine List.mem_map_of_mem (List.mem_filter.mpr ⟨?_, by simpa using h1⟩)
    exact List.mem_iff_getElem?.mpr ⟨i, by rw [List.getElem?_take_of_lt hin, hp]⟩
  · obtain ⟨hs', ha, hr⟩ := hsnap hh _ hz
    subst ha
    change start < l.hdr.maxKey
    rw [hs.max]
    exact hi.tree.start_lt hs' hx (hs.ver.symm.trans (Eq.trans hv hr.symm))
  · change RightLink z.ghost.view l.hdr l.hdr.maxKey x.right
    rw [hs.max]
    exact hs.right

include hφ in
/-- `read_table` -/
theorem readEntries_outline (cap' : Nat)
    (hsnap : head = true → ∀ f, φ f → SnapRec f.view r start ∧ r.addr = a ∧ r.version = ver) :
    Outline (treeDisc E F M) t (readEntries a n cap')
      (Says t fun f => φ f ∧ Counted f a ver n head) fun l =>
        Says t fun f => φ f ∧ LeafRead f start lo cap ver n head l := by
  have hread : ∀ l : Leaf, Enduring E M t fun f => (φ f ∧ Counted f a ver n head) ∧
    LeafRead f start lo cap ver n head l := fun l => (hφ.and .counted).and .leafRead
  refine Outline.loop id (J := fun _ => Says t fun f => φ f ∧ Counted f a ver n head)
    (fun _ _ hz => hz) (fun _ => (hφ.and .counted).stable) fun _ => ?_
  refine Outline.cmd_bind False.elim (fun l => (hread l).stable) (read_rule (c := .readLeaf a _)
    (ψ := fun (l : Leaf) f => (φ f ∧ Counted f a ver n head) ∧
      LeafRead f start lo cap ver n head l) rfl (fun f hf => (hsince f hf.1).op_ne)
      fun z l hi hz he => ⟨hz, ?_⟩) fun l => ?_
  · obtain ⟨l', hl', heq⟩ := Option.map_eq_some_iff.mp he
    have heq : { l' with entries := l'.entries.take (if n < cap' then n + 1 else n) } = l :=
      congrArg Prod.fst heq
    subst heq
    obtain ⟨x, hx, -⟩ := hspot _ hz.1
    obtain ⟨l'', tab, hs⟩ := hi.tree.leaves.stored a x hx
    rw [hs.leaf] at hl'
    cases hl'
    exact hs.leafRead hsince hspot hi hz.1 hz.2 (by split <;> omega) hsnap hx
  · cases l.entries with
    | nil => exact Outline.pure fun _ _ hz => ⟨hz.1.1, hz.2⟩
    | cons e es =>
      exact Outline.ite (fun _ => Outline.pure fun _ _ hz => ⟨hz.1.1, hz.2⟩)
        fun _ => Outline.pure fun _ _ hz => hz.1

end Leaf

/-! ## The results -/

/-- What has been collected of the keys from `start` below `hi`. -/
structure Collected (f : Focus) (start hi : Key) (results : List EntryPos) : Prop where
  seen : ∀ p ∈ results, f.seen (·.Has p) ∧ start ≤ p.key ∧ p.key < hi
  nodup : (results.map EntryPos.key).Nodup
  full : ∀ k, f.old k → start ≤ k → k < hi → k ∈ results.map EntryPos.key

/-- The results of a scan for `len` pairs. Unless there are so many, they include every key that was
stored when the call was made. -/
structure Scanned (f : Focus) (start stop : Key) (len : Int) (results : List EntryPos) : Prop where
  seen : ∀ p ∈ results, f.seen (·.Has p) ∧ start ≤ p.key
  nodup : (results.map EntryPos.key).Nodup
  full : (results.length : Int) < len → ∀ k, f.old k → start ≤ k → k ≤ stop →
    k ∈ results.map EntryPos.key

theorem Enduring.collected {hi : Key} {results : List EntryPos} :
    Enduring E M t fun f => Collected f start hi results := by
  intro u f f' hu hi h
  refine ⟨fun p hp => ⟨hi.seen _ (h.seen p hp).1, (h.seen p hp).2⟩, h.nodup, fun k hk => h.full k ?_⟩
  rwa [hi.old] at hk

/-- The next leaf is collected. -/
theorem Collected.append {results : List EntryPos} {cap : Nat} (h : Collected f start lo results)
    (hr : LeafRead f start lo cap ver n head l) (hv : head = true → l.hdr.version = ver) :
    Collected f start l.hdr.maxKey (results ++ reported start n l) := by
  refine ⟨fun p hp => ?_, ?_, fun k hk h1 h2 => ?_⟩
  · rcases List.mem_append.mp hp with hp | hp
    · obtain ⟨h1, h2, h3⟩ := h.seen p hp
      exact ⟨h1, h2, h3.trans_le hr.le⟩
    · obtain ⟨h1, h2, -, h3⟩ := hr.seen p hp
      exact ⟨h1, h2, h3⟩
  · rw [List.map_append, List.nodup_append]
    refine ⟨h.nodup, hr.nodup, fun k hk k' hk' he => ?_⟩
    obtain ⟨p, hp, rfl⟩ := List.mem_map.mp hk
    obtain ⟨q, hq, rfl⟩ := List.mem_map.mp hk'
    have h1 := (h.seen p hp).2.2
    have h2 := (hr.seen q hq).2.2.1
    rw [he] at h1
    exact absurd h2 (not_le.mpr h1)
  · rw [List.map_append, List.mem_append]
    by_cases hlt : k < lo
    · exact Or.inl (h.full k hk h1 hlt)
    · exact Or.inr (hr.full hv k hk h1 (not_lt.mp hlt) h2)

/-- A scan may end behind `stop`. -/
theorem Collected.scanned {hi : Key} {results : List EntryPos} (h : Collected f start hi results)
    (len : Int) (hstop : ∀ k, f.old k → k ≤ stop → k < hi) : Scanned f start stop len results :=
  ⟨fun p hp => ⟨(h.seen p hp).1, (h.seen p hp).2.1⟩, h.nodup,
    fun _ k hk h1 h2 => h.full k hk h1 (hstop k hk h2)⟩

/-! ## `leaf_scan` -/

/-- What a scan knows between two leaves. -/
structure Scanning (M : Mode) (f : Focus) (start : Key) (len : Int) (s : ScanState) (lo : Key) :
    Prop where
  root : RootKnown f.view s.leaf.it
  spot : Spot f.view s.addr s.leaf.path.fpAddr s.leaf.path.capacity lo
  collected : Collected f start lo s.results
  len : s.len = len - s.results.length
  head : s.headNode = true → LeafKnown M f.view start s.leaf ∧ s.leaf.path.addr = s.addr ∧
    s.results = []
  tail : s.headNode = false → KeyNull < lo

theorem Enduring.scanning {len : Int} {s : ScanState} :
    Enduring E M t fun f => Scanning M f start len s lo := by
  intro u f f' hu hi h
  exact { h with
    root := h.root.mono hi.rel.le
    spot := h.spot.mono hi.rel.le
    collected := Enduring.collected u f f' hu hi h.collected
    head := fun hh => ⟨(h.head hh).1.mono hi.rel.le, (h.head hh).2⟩ }

/-- A scan starts, or starts again. -/
theorem LeafKnown.scanning {y : LeafPath} (h : LeafKnown M f.view start y) (len : Int) :
    ∃ lo, Scanning M f start len ⟨y.path.addr, y, true, len, []⟩ lo := by
  obtain ⟨x, hx, htab, hcap, hmin, -⟩ := h.snap.leaf
  refine ⟨x.min, h.loc.root, ⟨x, hx, htab, hcap, rfl⟩, ⟨?_, List.nodup_nil, ?_⟩, by simp,
    fun _ => ⟨h, rfl, rfl⟩, fun hh => by cases hh⟩
  · intro p hp
    cases hp
  · intro k _ h1 h2
    rw [hmin] at h2
    exact absurd (h.snap.key_le.trans h1) (not_le.mpr h2)

theorem TreeInv.leaf_ne_null (h : TreeInv E M m g) (hx : g.leaf a = some x) : a ≠ .Null := by
  obtain ⟨⟨i, -, rfl⟩, -⟩ := h.alloc.leaf a x hx
  exact E.alloc_ne_null i

/-- What is known between two rounds of a scan. -/
def ScanRound (M : Mode) (t : Tid) (op : TreeOp) (start : Key) (len : Int) (s : ScanState)
    (z : TreeWorld E F) : Prop :=
  ∃ lo, Says t (fun f => (Since E f op ∧ Owned t f.view {}) ∧ Scanning M f start len s lo) z

/-- What is known at its end. -/
def ScanEnd (t : Tid) (op : TreeOp) (start stop : Key) (len : Int) (q : List EntryPos × InnerTree)
    (z : TreeWorld E F) : Prop :=
  Says t (fun f => ((Since E f op ∧ Owned t f.view {}) ∧ RootKnown f.view q.2) ∧
    Scanned f start stop len q.1) z

section Scan

variable (hk : M.bounded → start < KeyMax) {len : Int}

include hk in
/-- The scan starts again, since its first record is out of date. -/
theorem scanAgain_outline (s : ScanState) (hhead : s.headNode = true) :
    Outline (treeDisc E F M) t (do
        let leaf ← findAgain E F false start s.leaf
        return .inl { s with addr := leaf.path.addr, leaf := leaf })
      (Says t fun f => (Since E f op ∧ Owned t f.view {}) ∧ Scanning M f start len s lo)
      (Sum.elim (ScanRound M t op start len) (ScanEnd t op start stop len)) := by
  refine Outline.of_fact (φ := s.results = [] ∧ s.len = len) (fun z _ hz => ?_) fun hs => ?_
  · have hres := (hz.2.head hhead).2.2
    have hlen := hz.2.len
    rw [hres] at hlen
    exact ⟨hres, by simpa using hlen⟩
  refine Outline.bind ((findAgain_outline (Enduring.since.and .owned) (fun f hf => hf.1.op_ne) hk
    false s.leaf).mono fun _ _ hz => ⟨hz.1, (hz.2.head hhead).1⟩) fun y => ?_
  refine Outline.pure fun z _ hz => ?_
  obtain ⟨lo', hlo⟩ := hz.2.scanning len
  refine ⟨lo', hz.1, ?_⟩
  rw [hhead, hs.1, hs.2]
  exact hlo

/-- The results of a leaf are added, and the scan goes on to the right. -/
theorem scanOn_outline (s : ScanState) (l : Leaf)
    (hv : s.headNode = true → l.hdr.version = s.leaf.path.version) :
    Outline (treeDisc E F M) t
      (if l.hdr.rightAddr = .Null then
        return .inr (s.results ++ reported start n l, s.leaf.it)
      else do
        attachNode l.hdr.rightCapacity
        return .inl ⟨l.hdr.rightAddr, { s.leaf with path := { s.leaf.path with
          capacity := l.hdr.rightCapacity, fpAddr := l.hdr.rightFpAddr } }, false,
          s.len - (reported start n l).length, s.results ++ reported start n l⟩)
      (Says t fun f => ((Since E f op ∧ Owned t f.view {}) ∧ Scanning M f start len s lo) ∧
        LeafRead f start lo s.leaf.path.capacity s.leaf.path.version n s.headNode l)
      (Sum.elim (ScanRound M t op start len) (ScanEnd t op start stop len)) := by
  refine Outline.ite (fun hnull => Outline.pure fun z hi hz => ?_) fun hne => ?_
  · obtain ⟨⟨hz, hs⟩, hr⟩ := hz
    have hcol := hs.collected.append hr hv
    obtain ⟨d, hd⟩ := hr.right
    -- the last leaf ends with the key space
    have hmax : l.hdr.maxKey = KeyMax := by
      cases d with
      | none => exact hd.2
      | some d =>
        obtain ⟨hd, y, hy, -⟩ := hd
        exact absurd (hd.symm.trans hnull) (hi.tree.leaf_ne_null hy)
    refine ⟨⟨hz, hs.root⟩, hcol.scanned len fun k hk _ => ?_⟩
    obtain ⟨b, y, j, hy, -, hjk, -⟩ := hz.1.2 k hk
    obtain ⟨p, hp, rfl⟩ := Option.map_eq_some_iff.mp hjk
    have hok := hi.tree.leaves.ok b y hy
    rw [hmax]
    exact (hok.range p (List.mem_of_getElem? hp)).2.trans_le hok.max_le
  · refine Outline.assert_bind (fun z hi hz hf => ?_) fun _ => Outline.pure fun z hi hz => ?_
    · obtain ⟨d, hd⟩ := hz.2.right
      cases d with
      | none => exact absurd hd.1 hne
      | some d =>
        obtain ⟨-, y, hy, -, hcap, -⟩ := hd
        have hpos := (hi.tree.leaves.ok d y hy).cap_pos
        rw [hcap] at hf
        simp only [gt_iff_lt, decide_eq_false_iff_not] at hf
        exact absurd hpos hf
    · obtain ⟨⟨hz, hs⟩, hr⟩ := hz
      obtain ⟨d, hd⟩ := hr.right
      cases d with
      | none => exact absurd hd.1 hne
      | some d =>
        obtain ⟨rfl, y, hy, htab, hcap, hmin⟩ := hd
        refine ⟨l.hdr.maxKey, hz, hs.root, ⟨y, hy, htab.symm, hcap.symm, hmin⟩,
          hs.collected.append hr hv, ?_, (fun h => by cases h), fun _ => ?_⟩
        · simp only [hs.len, List.length_append]
          omega
        · cases hh : s.headNode with
          | true => exact (keyNull_le start).trans_lt (hr.pos hh (hv hh))
          | false => exact (hs.tail hh).trans_le hr.le

include hk in
theorem leafScan_outline (y : LeafPath) :
    Outline (treeDisc E F M) t (leafScan E F start stop len y)
      (Says t fun f => (Since E f op ∧ Owned t f.view {}) ∧ LeafKnown M f.view start y)
      (ScanEnd t op start stop len) := by
  refine Outline.assert_bind (fun z _ hz hf => ?_) fun _ => ?_
  · have hpos := hz.2.snap.capacity_pos
    simp only [gt_iff_lt, decide_eq_false_iff_not] at hf
    exact absurd hpos hf
  refine Outline.loop id (J := ScanRound M t op start len) (fun z _ hz => ?_) (fun s => ?_) fun s => ?_
  · obtain ⟨lo, hlo⟩ := hz.2.scanning len
    exact ⟨lo, hz.1, hlo⟩
  · exact Discipline.Stable.exists fun lo => ((Enduring.since.and .owned).and .scanning).stable
  refine Outline.of_exists fun lo => ?_
  have hφ : Enduring E M t fun f => (Since E f op ∧ Owned t f.view {}) ∧
    Scanning M f start len s lo := (Enduring.since.and .owned).and .scanning
  have hsince : ∀ f, ((Since E f op ∧ Owned t f.view {}) ∧ Scanning M f start len s lo) →
    Since E f op := fun f hf => hf.1.1
  have hspot : ∀ f, ((Since E f op ∧ Owned t f.view {}) ∧ Scanning M f start len s lo) →
    Spot f.view s.addr s.leaf.path.fpAddr s.leaf.path.capacity lo := fun f hf => hf.2.spot
  have hsnap : s.headNode = true → ∀ f, ((Since E f op ∧ Owned t f.view {}) ∧
      Scanning M f start len s lo) → SnapRec f.view s.leaf.path start ∧
      s.leaf.path.addr = s.addr ∧ s.leaf.path.version = s.leaf.path.version :=
    fun hh f hf => ⟨(hf.2.head hh).1.snap, (hf.2.head hh).2.1, rfl⟩
  refine Outline.ite (fun hend => Outline.pure fun z hi hz => ?_) fun _ => ?_
  · obtain ⟨hz, hs⟩ := hz
    obtain ⟨x, hx, -⟩ := hs.spot
    have hlen : s.len ≤ 0 := hend.resolve_left (hi.tree.leaf_ne_null hx)
    have hlen' := hs.len
    refine ⟨⟨hz, hs.root⟩, fun p hp => ⟨(hs.collected.seen p hp).1, (hs.collected.seen p hp).2.1⟩,
      hs.collected.nodup, fun hlt => ?_⟩
    dsimp only at hlt
    omega
  refine Outline.of_fact (φ := s.headNode = false → KeyNull < lo) (fun _ _ hz => hz.2.tail)
    fun htail => ?_
  have hread : ∀ tab : FPTable, Enduring E M t fun f => ((Since E f op ∧ Owned t f.view {}) ∧
      Scanning M f start len s lo) ∧ ((s.headNode = true → tab.version = s.leaf.path.version) →
        Counted f s.addr s.leaf.path.version tab.getEntryNum s.headNode) :=
    fun tab => hφ.and (.imp .counted)
  refine Outline.cmd_bind False.elim (fun tab => (hread tab).stable)
    (readTable_count hsince hspot htail) fun tab => Outline.ite (fun _ => ?_) fun _ =>
      Outline.ite (fun hv => ?_) fun hv => ?_
  · exact Outline.pure fun _ _ hz => ⟨lo, hz.1⟩
  · exact (scanAgain_outline hk s hv.1).mono fun _ _ hz => hz.1
  have hv : s.headNode = true → tab.version = s.leaf.path.version :=
    fun hh => not_not.mp fun hne => hv ⟨hh, hne⟩
  refine Outline.bind ((readEntries_outline hφ hsince hspot s.leaf.path.capacity hsnap).mono
    fun _ _ hz => ⟨hz.1, hz.2 hv⟩) fun l => Outline.ite (fun hv => ?_) fun hv => ?_
  · exact (scanAgain_outline hk s hv.1).mono fun _ _ hz => hz.1
  have hv : s.headNode = true → l.hdr.version = s.leaf.path.version :=
    fun hh => not_not.mp fun hne => hv ⟨hh, hne⟩
  refine Outline.assert_bind (fun z _ hz hf => ?_) fun _ => Outline.ite (fun hstop => ?_) fun _ => ?_
  · rw [hz.2.cap] at hf
    simp at hf
  · refine Outline.pure fun z _ hz => ⟨⟨hz.1.1, hz.1.2.root⟩, ?_⟩
    refine hz.1.2.collected.scanned len fun k _ hk => ?_
    exact hk.trans_lt (hz.2.min ▸ hstop)
  · exact scanOn_outline s l hv

include hk in
theorem scan_spec (it : InnerTree) :
    Outline (treeDisc E F M) t (scan E F start stop len it)
      (Says t fun f => (Since E f op ∧ Owned t f.view {}) ∧ RootKnown f.view it)
      (ScanEnd t op start stop len) :=
  Outline.bind (locate_outline (Enduring.since.and .owned) (fun _ hf => hf.1.op_ne) hk it)
    fun y => leafScan_outline hk y

end Scan

end DMTree
