import DMTree.SkipVector.Region
import DMTree.Proofs.SlabAllocatorProofs

/-!
# What lies in memory node 0

The pools and the chunks never collide: the slots of a pool stay inside the pool, and the directory
hands out chunks behind the pools only. The two words of the tree do: the lock of the root is the handle
of the head leaf, and the pointer to the root lies in the middle of the pool of handles.
-/

namespace DMTree.SkipVector

open RemoteAlloc (MB kChunkSize GlobalAllocator)

variable {r r' : Region} {p : Pool} {dsmSize : Nat}

/-- The arguments of the constructor of a pool. -/
def Pool.base : Pool → Nat
  | .handles => kHandlePoolBase
  | .leaves => kLeafPoolBase
  | .indices => kIndexPoolBase

/-- The number of slots of a pool. -/
def Pool.numSlots : Pool → Nat
  | .handles => kNumHandleSlots
  | .leaves => kNumLeafSlots
  | .indices => kNumIndexSlots

/-- The slots of a pool that are reserved. -/
def Pool.reserved : Pool → Nat
  | .handles => 1
  | _ => 0

theorem Pool.new_eq (p : Pool) : p.new = SlabAllocator.new p.base p.slotSize p.numSlots p.reserved := by
  cases p <;> rfl

theorem Pool.slotSize_pos (p : Pool) : 0 < p.slotSize := by cases p <;> decide

theorem Pool.reserved_lt (p : Pool) : p.reserved < p.numSlots := by cases p <;> decide

theorem Pool.fits (p : Pool) : p.base + p.numSlots * p.slotSize < 2 ^ 64 := by cases p <;> decide

/-- The number of chunks that the directory reserves. -/
theorem nChunks_eq : (kSkipVectorRegionBytes + kChunkSize - 1) / kChunkSize = 40 := by decide

/-! ## The invariant -/

/-- The allocator of a pool is as the constructor made it, up to what it has handed out. -/
structure PoolOk (p : Pool) (a : SlabAllocator) (live : List Nat) : Prop where
  base : a.base = p.base
  slotSize : a.slotSize = p.slotSize
  numSlots : a.numSlots = p.numSlots
  firstFree : a.firstFree = p.reserved
  ok : a.Ok
  tracks : a.Tracks live

/-- The chunks that have been handed out lie behind the reserved ones. -/
structure ChuncksOk (a : GlobalAllocator) (chuncks : List Nat) : Prop where
  start : a.start.offset = 0
  tail : 41 ≤ a.bitmapTail
  nodup : chuncks.Nodup
  mem : ∀ o ∈ chuncks, ∃ k, 41 ≤ k ∧ k < a.bitmapTail ∧ o = k * kChunkSize

/-- The invariant. -/
structure RegionInv (r : Region) : Prop where
  pool : ∀ p, PoolOk p (r.pool p) (r.live p)
  chuncks : ChuncksOk r.chunckAlloc r.chuncks

theorem PoolOk.same {a a' : SlabAllocator} {live live' : List Nat} (h : PoolOk p a live)
    (hs : a.Same a') (ho : a'.Ranged) (ht : a'.Tracks live') : PoolOk p a' live' :=
  ⟨hs.base.trans h.base, hs.slotSize.trans h.slotSize, hs.numSlots.trans h.numSlots,
    hs.firstFree.trans h.firstFree, ⟨ho, hs.slotSize ▸ h.ok.slotSize⟩, ht⟩

theorem PoolOk.alloc {a a' : SlabAllocator} {live : List Nat} {offset : Nat} (h : PoolOk p a live)
    (he : a.alloc = some (offset, a')) :
    PoolOk p a' (if offset = kBad then live else offset :: live) := by
  have ha := h.ok.allocates he
  have hfit : a.base + a.numSlots * a.slotSize < 2 ^ 64 := by
    rw [h.base, h.numSlots, h.slotSize]
    exact p.fits
  exact h.same ha.same ha.ranged (h.tracks.alloc h.ok hfit ha)

theorem PoolOk.free {a a' : SlabAllocator} {live : List Nat} {offset : Nat} (h : PoolOk p a live)
    (he : a.free offset = some a') : PoolOk p a' (live.erase offset) := by
  obtain ⟨hs, ho⟩ := h.ok.toRanged.free he
  exact h.same hs ho (h.tracks.free h.ok he)

/-- What `alloc_chunck` does. -/
theorem allocChunck_eq {a a' : GlobalAllocator} {addr : Gaddr} (he : a.allocChunck = some (addr, a')) :
    addr.offset = a.start.offset + a.bitmapTail * kChunkSize ∧ a'.start = a.start ∧
      a'.bitmapTail = a.bitmapTail + 1 := by
  unfold GlobalAllocator.allocChunck at he
  split at he
  · cases he
  · split at he
    · cases he
      exact ⟨rfl, rfl, rfl⟩
    · cases he

theorem burn_eq {n : Nat} {a a' : GlobalAllocator} (he : burn n a = some a') :
    a'.start = a.start ∧ a'.bitmapTail = a.bitmapTail + n := by
  induction n generalizing a with
  | zero =>
    cases he
    exact ⟨rfl, rfl⟩
  | succ n ih =>
    obtain ⟨⟨addr, b⟩, hb, he⟩ := Option.bind_eq_some_iff.mp he
    obtain ⟨-, hs, ht⟩ := allocChunck_eq hb
    obtain ⟨hs', ht'⟩ := ih he
    exact ⟨hs'.trans hs, by omega⟩

theorem ChuncksOk.allocChunck {a a' : GlobalAllocator} {chuncks : List Nat} {addr : Gaddr}
    (h : ChuncksOk a chuncks) (he : a.allocChunck = some (addr, a')) :
    ChuncksOk a' (addr.offset :: chuncks) := by
  obtain ⟨haddr, hs, ht⟩ := allocChunck_eq he
  rw [h.start, Nat.zero_add] at haddr
  refine ⟨hs ▸ h.start, by have := h.tail; omega, List.nodup_cons.mpr ⟨fun hmem => ?_, h.nodup⟩, ?_⟩
  · obtain ⟨k, -, hk, heq⟩ := h.mem _ hmem
    have hk' := Nat.eq_of_mul_eq_mul_right (by decide) (heq.symm.trans haddr)
    omega
  · intro o ho
    rcases List.mem_cons.mp ho with rfl | ho
    · exact ⟨a.bitmapTail, h.tail, by omega, haddr⟩
    · obtain ⟨k, h1, h2, h3⟩ := h.mem o ho
      exact ⟨k, h1, by omega, h3⟩

theorem RegionInv.pool_update (h : RegionInv r) {a : SlabAllocator} {live : List Nat}
    (hp : PoolOk p a live) :
    RegionInv { r with pool := Function.update r.pool p a, live := Function.update r.live p live } := by
  refine ⟨fun q => ?_, h.chuncks⟩
  rcases eq_or_ne q p with rfl | hne
  · simpa using hp
  · simpa [hne] using h.pool q

theorem RegionInv.step (h : RegionInv r) {call : RegionCall} (he : r.step call = some r') :
    RegionInv r' := by
  cases call with
  | alloc p =>
    obtain ⟨⟨offset, a⟩, ha, he⟩ := Option.bind_eq_some_iff.mp he
    cases he
    exact h.pool_update ((h.pool p).alloc ha)
  | free p offset =>
    obtain ⟨a, ha, he⟩ := Option.bind_eq_some_iff.mp he
    cases he
    exact h.pool_update ((h.pool p).free ha)
  | allocChunck =>
    obtain ⟨⟨addr, a⟩, ha, he⟩ := Option.bind_eq_some_iff.mp he
    cases he
    exact ⟨h.pool, h.chuncks.allocChunck ha⟩

theorem RegionInv.reach (h : RegionInv r) (hr : r.Reach r') : RegionInv r' := by
  induction hr with
  | refl => exact h
  | tail _ hstep ih =>
    obtain ⟨call, he⟩ := hstep
    exact ih.step he

theorem poolOk_new {a : SlabAllocator} (he : p.new = some a) : PoolOk p a [] := by
  rw [Pool.new_eq] at he
  obtain ⟨hok, ht⟩ := SlabAllocator.new_ok he p.slotSize_pos p.reserved_lt
  rw [SlabAllocator.new, if_pos p.reserved_lt.le] at he
  cases he
  exact ⟨rfl, rfl, rfl, rfl, hok, ht⟩

theorem init_inv (he : Region.init dsmSize = some r) : RegionInv r := by
  simp only [Region.init, Option.bind_eq_bind, Option.bind_eq_some_iff, Option.pure_def,
    Option.some.injEq] at he
  obtain ⟨handles, hh, leaves, hl, indices, hi, chunckAlloc, hc, rfl⟩ := he
  refine ⟨fun p => ?_, ?_⟩
  · cases p with
    | handles => exact poolOk_new hh
    | leaves => exact poolOk_new hl
    | indices => exact poolOk_new hi
  · rw [newChunckAlloc, nChunks_eq] at hc
    obtain ⟨hs, ht⟩ := burn_eq hc
    exact ⟨congrArg Gaddr.offset hs, ht.ge, List.nodup_nil, nofun⟩

/-! ## Items -/

/-- Where an item can lie. -/
def Item.Spot : Item → Prop
  | .slot p offset => ∃ i, p.reserved ≤ i ∧ i < p.numSlots ∧ offset = p.base + i * p.slotSize
  | .chunck offset => ∃ k, 41 ≤ k ∧ offset = k * kChunkSize
  | _ => True

theorem RegionInv.spot (h : RegionInv r) {x : Item} (hx : x ∈ r.items) : x.Spot := by
  have hslot : ∀ p, ∀ o ∈ r.live p, (Item.slot p o).Spot := by
    intro p o ho
    obtain ⟨i, h1, h2, h3⟩ := ((h.pool p).tracks.mem o).mp ho
    have hlt := (List.getElem?_eq_some_iff.mp h2).1
    rw [(h.pool p).ok.length, (h.pool p).numSlots] at hlt
    rw [(h.pool p).firstFree] at h1
    rw [(h.pool p).base, (h.pool p).slotSize] at h3
    exact ⟨i, h1, hlt, h3⟩
  simp only [Region.items, List.mem_append, List.mem_map] at hx
  rcases hx with (((hx | ⟨o, ho, rfl⟩) | ⟨o, ho, rfl⟩) | ⟨o, ho, rfl⟩) | ⟨o, ho, rfl⟩
  · simp only [List.mem_cons, List.not_mem_nil, or_false] at hx
    rcases hx with rfl | rfl | rfl <;> trivial
  · obtain ⟨k, h1, -, h3⟩ := h.chuncks.mem o ho
    exact ⟨k, h1, h3⟩
  · exact hslot _ o ho
  · exact hslot _ o ho
  · exact hslot _ o ho

theorem RegionInv.items_nodup (h : RegionInv r) : r.items.Nodup := by
  have hlive : ∀ p, ((r.live p).map (Item.slot p)).Nodup := fun p =>
    (h.pool p).tracks.nodup.map fun _ _ heq => by cases heq; rfl
  have hch : (r.chuncks.map Item.chunck).Nodup :=
    h.chuncks.nodup.map fun _ _ heq => by cases heq; rfl
  unfold Region.items
  refine ((((List.Nodup.append (by decide) hch ?_).append (hlive _) ?_).append (hlive _) ?_).append
    (hlive _) ?_)
  all_goals
    rw [List.disjoint_left]
    intro x hx hx'
    obtain ⟨o, -, rfl⟩ := List.mem_map.mp hx'
    simp at hx

/-! ## Cells

Every item fills one cell of a zone, and a zone is a row of cells of one size. The handles, the lock and
the pointer of the tree are in one zone. -/

/-- The zones of the memory of node 0, in the order of their offsets. -/
inductive Zone where
  | handles
  | leaves
  | indices
  | chuncks
  deriving DecidableEq

namespace Zone

def base : Zone → Nat
  | handles => kHandlePoolBase
  | leaves => kLeafPoolBase
  | indices => kIndexPoolBase
  | chuncks => 41 * kChunkSize

def size : Zone → Nat
  | handles => kLeafHandleSize
  | leaves => kLeafContentSize
  | indices => kIndexNodeSize
  | chuncks => kChunkSize

def rank : Zone → Nat
  | handles => 0
  | leaves => 1
  | indices => 2
  | chuncks => 3

theorem size_pos (z : Zone) : 0 < z.size := by cases z <;> decide

theorem eq_of_rank {z z' : Zone} (h : z.rank = z'.rank) : z = z' := by
  cases z <;> cases z' <;> first | rfl | exact absurd h (by decide)

end Zone

/-- The zone of the slots of a pool. -/
def Pool.zone : Pool → Zone
  | .handles => .handles
  | .leaves => .leaves
  | .indices => .indices

/-- The item fills cell `n` of zone `z`, and the cell ends before the zones behind it. -/
structure Item.InCell (x : Item) (z : Zone) (n : Nat) : Prop where
  bytes : x.bytes = Set.Ico (z.base + n * z.size) (z.base + n * z.size + z.size)
  high : ∀ z' : Zone, z.rank < z'.rank → z.base + n * z.size + z.size ≤ z'.base

theorem Item.InCell.disjoint_of_ne {x y : Item} {z z' : Zone} {n n' : Nat} (hx : x.InCell z n)
    (hy : y.InCell z' n') (hz : z ≠ z') : Disjoint x.bytes y.bytes := by
  wlog hlt : z.rank < z'.rank generalizing x y z z' n n'
  · have hne : z.rank ≠ z'.rank := fun h => hz (Zone.eq_of_rank h)
    exact (this hy hx hz.symm (by omega)).symm
  · have hend := hx.high z' hlt
    rw [hx.bytes, hy.bytes, Set.Ico_disjoint_Ico]
    omega

theorem Item.InCell.disjoint_iff {x y : Item} {z : Zone} {n n' : Nat} (hx : x.InCell z n)
    (hy : y.InCell z n') : Disjoint x.bytes y.bytes ↔ n ≠ n' := by
  rw [hx.bytes, hy.bytes, Set.Ico_disjoint_Ico]
  constructor
  · rintro h rfl
    have hpos := z.size_pos
    omega
  · intro hne
    rcases Nat.lt_or_gt_of_ne hne with h | h <;>
    · have hmul := Nat.mul_le_mul_right z.size (Nat.succ_le_of_lt h)
      rw [Nat.succ_mul] at hmul
      omega

theorem slot_inCell {i : Nat} (hi : i < p.numSlots) :
    (Item.slot p (p.base + i * p.slotSize)).InCell p.zone i := by
  have hb : p.zone.base = p.base ∧ p.zone.size = p.slotSize := by cases p <;> exact ⟨rfl, rfl⟩
  have hmul : (i + 1) * p.slotSize ≤ p.numSlots * p.slotSize := Nat.mul_le_mul_right _ hi
  rw [Nat.succ_mul] at hmul
  refine ⟨by rw [hb.1, hb.2]; rfl, fun z' hz => ?_⟩
  have hlast : p.base + p.numSlots * p.slotSize ≤ z'.base := by
    cases p <;> cases z' <;> first | exact absurd hz (by decide) | decide
  rw [hb.1, hb.2]
  omega

theorem chunck_inCell {k : Nat} (hk : 41 ≤ k) : (Item.chunck (k * kChunkSize)).InCell .chuncks (k - 41) := by
  have hoff : 41 * kChunkSize + (k - 41) * kChunkSize = k * kChunkSize := by
    rw [← Nat.add_mul, Nat.add_sub_cancel' hk]
  refine ⟨?_, fun z' hz => ?_⟩
  · simp only [Item.bytes, Zone.base, Zone.size, hoff]
  · cases z' <;> exact absurd hz (by decide)

theorem headLeafHandle_inCell : Item.headLeafHandle.InCell .handles 0 :=
  ⟨rfl, fun z' hz => by cases z' <;> first | exact absurd hz (by decide) | decide⟩

theorem rootLock_inCell : Item.rootLock.InCell .handles 0 :=
  ⟨rfl, fun z' hz => by cases z' <;> first | exact absurd hz (by decide) | decide⟩

/-- The slot of the pool of handles at the offset of the pointer to the root. -/
def rootPointerSlot : Nat := 2 ^ 21

theorem rootPointer_inCell : Item.rootPointer.InCell .handles rootPointerSlot :=
  ⟨rfl, fun z' hz => by cases z' <;> first | exact absurd hz (by decide) | decide⟩

/-- The cell of an item. -/
def Item.cell : Item → Zone × Nat
  | .slot p offset => (p.zone, (offset - p.base) / p.slotSize)
  | .headLeafHandle => (.handles, 0)
  | .chunck offset => (.chuncks, offset / kChunkSize - 41)
  | .rootPointer => (.handles, rootPointerSlot)
  | .rootLock => (.handles, 0)

theorem cell_slot (p : Pool) (i : Nat) : (Item.slot p (p.base + i * p.slotSize)).cell = (p.zone, i) := by
  simp [Item.cell, Nat.mul_div_cancel i p.slotSize_pos]

theorem cell_chunck (k : Nat) : (Item.chunck (k * kChunkSize)).cell = (.chuncks, k - 41) := by
  simp [Item.cell, Nat.mul_div_cancel k (show 0 < kChunkSize by decide)]

theorem Item.Spot.inCell {x : Item} (h : x.Spot) : x.InCell x.cell.1 x.cell.2 := by
  rcases x with ⟨p, o⟩ | _ | o | _ | _
  · obtain ⟨i, -, hi, rfl⟩ := h
    rw [cell_slot]
    exact slot_inCell hi
  · exact headLeafHandle_inCell
  · obtain ⟨k, hk, rfl⟩ := h
    rw [cell_chunck]
    exact chunck_inCell hk
  · exact rootPointer_inCell
  · exact rootLock_inCell

theorem slot_eq_of_cell {q : Pool} {o o' : Nat} (hx : (Item.slot p o).Spot) (hy : (Item.slot q o').Spot)
    (h : (Item.slot p o).cell = (Item.slot q o').cell) : Item.slot p o = Item.slot q o' := by
  obtain ⟨i, -, -, rfl⟩ := hx
  obtain ⟨j, -, -, rfl⟩ := hy
  rw [cell_slot, cell_slot, Prod.mk.injEq] at h
  obtain rfl : p = q := by cases p <;> cases q <;> first | rfl | exact absurd h.1 (by decide)
  rw [h.2]

theorem chunck_eq_of_cell {o o' : Nat} (hx : (Item.chunck o).Spot) (hy : (Item.chunck o').Spot)
    (h : (Item.chunck o).cell = (Item.chunck o').cell) : Item.chunck o = Item.chunck o' := by
  obtain ⟨i, hi, rfl⟩ := hx
  obtain ⟨j, hj, rfl⟩ := hy
  rw [cell_chunck, cell_chunck, Prod.mk.injEq] at h
  obtain rfl : i = j := by omega
  rfl

/-- The first slot of the pool of handles is reserved. -/
theorem slot_cell_ne_zero {o : Nat} (hx : (Item.slot p o).Spot) : (Item.slot p o).cell ≠ (.handles, 0) := by
  obtain ⟨i, hi, -, rfl⟩ := hx
  rw [cell_slot, Ne, Prod.mk.injEq, not_and]
  intro hz
  obtain rfl : p = .handles := by cases p <;> first | rfl | exact absurd hz (by decide)
  exact Nat.ne_of_gt hi

theorem slot_cell_rootPointer {o : Nat} (hx : (Item.slot p o).Spot) :
    (Item.slot p o).cell = Item.rootPointer.cell ↔ p = .handles ∧ o = kRootPointerStoreOffest := by
  obtain ⟨i, -, -, rfl⟩ := hx
  rw [cell_slot, Item.cell, Prod.mk.injEq]
  constructor
  · rintro ⟨hz, rfl⟩
    obtain rfl : p = .handles := by cases p <;> first | rfl | exact absurd hz (by decide)
    exact ⟨rfl, rfl⟩
  · rintro ⟨rfl, ho⟩
    refine ⟨rfl, ?_⟩
    simp only [Pool.base, kHandlePoolBase, kSkipVectorRegionBase, Pool.slotSize, kLeafHandleSize,
      kRootPointerStoreOffest, kChunkSize, MB] at ho
    unfold rootPointerSlot
    omega

/-- Different items are in one cell if and only if they clash. -/
theorem cell_eq_iff {x y : Item} (hx : x.Spot) (hy : y.Spot) (hne : x ≠ y) :
    x.cell = y.cell ↔ x.Clash y := by
  have hlock : rootPointerSlot ≠ 0 := by decide
  rcases x with ⟨p, o⟩ | _ | o | _ | _ <;> rcases y with ⟨q, o'⟩ | _ | o' | _ | _
  case slot.slot =>
    refine iff_of_false (fun heq => hne (slot_eq_of_cell hx hy heq)) (by simp [Item.Clash])
  case chunck.chunck =>
    refine iff_of_false (fun heq => hne (chunck_eq_of_cell hx hy heq)) (by simp [Item.Clash])
  case slot.headLeafHandle => exact iff_of_false (slot_cell_ne_zero hx) (by simp [Item.Clash])
  case slot.rootLock => exact iff_of_false (slot_cell_ne_zero hx) (by simp [Item.Clash])
  case headLeafHandle.slot =>
    exact iff_of_false (fun h => slot_cell_ne_zero hy h.symm) (by simp [Item.Clash])
  case rootLock.slot =>
    exact iff_of_false (fun h => slot_cell_ne_zero hy h.symm) (by simp [Item.Clash])
  case slot.rootPointer => simpa [Item.Clash] using slot_cell_rootPointer hx
  case rootPointer.slot =>
    rw [eq_comm]
    simpa [Item.Clash] using slot_cell_rootPointer hy
  case slot.chunck => exact iff_of_false (by cases p <;> simp [Item.cell, Pool.zone]) (by simp [Item.Clash])
  case chunck.slot => exact iff_of_false (by cases q <;> simp [Item.cell, Pool.zone]) (by simp [Item.Clash])
  all_goals simp_all [Item.cell, Item.Clash, hlock.symm]

/-- Different items overlap if and only if they clash. -/
theorem disjoint_iff_of_spot {x y : Item} (hx : x.Spot) (hy : y.Spot) (hne : x ≠ y) :
    Disjoint x.bytes y.bytes ↔ ¬ x.Clash y := by
  rw [← cell_eq_iff hx hy hne]
  have hcx := hx.inCell
  have hcy := hy.inCell
  by_cases hz : x.cell.1 = y.cell.1
  · rw [← hz] at hcy
    rw [hcx.disjoint_iff hcy, Prod.ext_iff, not_and]
    exact ⟨fun h _ => h, fun h => h hz⟩
  · exact iff_of_true (hcx.disjoint_of_ne hcy hz) fun h => hz (congrArg Prod.fst h)

/-! ## Runs -/

/-- Whatever slots and chunks have been handed out and taken back, different things in the memory of node
0 overlap if and only if they are the lock of the root and the handle of the head leaf, or the pointer to
the root and the handle slot at its offset. -/
theorem items_disjoint_iff {r₀ : Region} (h₀ : Region.init dsmSize = some r₀) (h : r₀.Reach r)
    {i j : Nat} {x y : Item} (hi : r.items[i]? = some x) (hj : r.items[j]? = some y) (hij : i ≠ j) :
    Disjoint x.bytes y.bytes ↔ ¬ x.Clash y := by
  have hinv := (init_inv h₀).reach h
  refine disjoint_iff_of_spot (hinv.spot (List.mem_of_getElem? hi)) (hinv.spot (List.mem_of_getElem? hj)) ?_
  rintro rfl
  obtain ⟨hilt, hi⟩ := List.getElem?_eq_some_iff.mp hi
  obtain ⟨hjlt, hj⟩ := List.getElem?_eq_some_iff.mp hj
  exact hij (hinv.items_nodup.getElem_inj_iff.mp (hi.trans hj.symm))

/-- The theorem at a leaf slot and a chunk of a node of 16 GB. -/
theorem items_disjoint_iff_chunck : ∃ r₀ r : Region,
    (Region.init (16 * RemoteAlloc.GB) = some r₀ ∧ r₀.Reach r ∧
      r.items[3]? = some (.chunck (41 * kChunkSize)) ∧ r.items[4]? = some (.slot .leaves kLeafPoolBase)) ∧
    (Disjoint (Item.chunck (41 * kChunkSize)).bytes (Item.slot .leaves kLeafPoolBase).bytes ↔
      ¬ (Item.chunck (41 * kChunkSize)).Clash (.slot .leaves kLeafPoolBase)) := by
  have hrun : ((Region.init (16 * RemoteAlloc.GB)).bind fun r₀ =>
      ((r₀.step (.alloc .leaves)).bind fun r => r.step .allocChunck).map Region.items) =
      some [.rootLock, .rootPointer, .headLeafHandle, .chunck (41 * kChunkSize),
        .slot .leaves kLeafPoolBase] := by
    decide +kernel
  obtain ⟨r₀, h₀, hrun⟩ := Option.bind_eq_some_iff.mp hrun
  obtain ⟨r, hr, hitems⟩ := Option.map_eq_some_iff.mp hrun
  obtain ⟨r₁, h₁, h₂⟩ := Option.bind_eq_some_iff.mp hr
  have hreach : r₀.Reach r := .tail (.single ⟨_, h₁⟩) ⟨_, h₂⟩
  have h3 : r.items[3]? = some (.chunck (41 * kChunkSize)) := by rw [hitems]; rfl
  have h4 : r.items[4]? = some (.slot .leaves kLeafPoolBase) := by rw [hitems]; rfl
  exact ⟨r₀, r, ⟨h₀, hreach, h3, h4⟩, items_disjoint_iff h₀ hreach h3 h4 (by decide)⟩

/-- After the constructors, the lock of the root and the handle of the head leaf are the same bytes. -/
theorem exists_items_overlap : ∃ r₀ : Region, Region.init (16 * RemoteAlloc.GB) = some r₀ ∧
    r₀.items[0]? = some .rootLock ∧ r₀.items[2]? = some .headLeafHandle ∧
    ¬ Disjoint Item.rootLock.bytes Item.headLeafHandle.bytes := by
  have hrun : (Region.init (16 * RemoteAlloc.GB)).map Region.items =
      some [.rootLock, .rootPointer, .headLeafHandle] := by
    decide +kernel
  obtain ⟨r₀, h₀, hitems⟩ := Option.map_eq_some_iff.mp hrun
  refine ⟨r₀, h₀, by rw [hitems]; rfl, by rw [hitems]; rfl, ?_⟩
  rw [Set.not_disjoint_iff]
  exact ⟨0, ⟨le_rfl, by decide⟩, ⟨le_rfl, by decide⟩⟩

end DMTree.SkipVector
