import DMTree.Proofs.HistoryProofs

/-!
# What the leaves hold

The leaves are linked to the right, from the head leaf to the end of the key space. At every instant
of a run the pairs that a walk along these links meets are those that the writes have left, in one
order of the writes that agrees with the order of the calls.
-/

namespace DMTree

open Conc

variable {E : Env} {F : Flags} {M : Mode} {m : Cluster} {g : TreeView} {x : TreeWorld E F}
  {a : Gaddr} {p : EntryPos}

/-- The addresses of the leaves from `a` on, at most `n` of them. -/
def leafWalk (m : Cluster) : Nat → Gaddr → List Gaddr
  | 0, _ => []
  | n + 1, a =>
    if a = .Null then []
    else
      match m.leaf a with
      | none => []
      | some l => a :: leafWalk m n l.hdr.rightAddr

/-- The pairs of all leaves. -/
def contents (E : Env) (m : Cluster) : List EntryPos :=
  (leafWalk m m.allocs (headAddr E)).flatMap fun a => ((m.leaf a).map Leaf.pairs).getD []

theorem leafWalk_null (n : Nat) : leafWalk m n .Null = [] := by
  cases n with
  | zero => rfl
  | succ n => exact if_pos rfl

theorem leafWalk_succ {l : Leaf} (n : Nat) (ha : a ≠ .Null) (hl : m.leaf a = some l) :
    leafWalk m (n + 1) a = a :: leafWalk m n l.hdr.rightAddr := by
  rw [leafWalk, if_neg ha, hl]

theorem AllocOk.leaf_ne_null {y : LeafView} (h : AllocOk E m g) (hy : g.leaf a = some y) :
    a ≠ .Null := by
  obtain ⟨i, -, rfl⟩ := (h.leaf a y hy).1
  exact E.alloc_ne_null i

/-- A walk follows the chain of the leaves. The induction is on the rest of the chain. -/
theorem TreeInv.leafWalk_eq (h : TreeInv E M m g) (rest : List Gaddr) :
    ∀ (n : Nat) (a : Gaddr), (a :: rest).IsChain (Follows g) →
      (∀ b y, (a :: rest).getLast? = some b → g.leaf b = some y → y.right = none) →
      (∀ b ∈ a :: rest, (g.leaf b).isSome = true) → rest.length < n →
      leafWalk m n a = a :: rest := by
  induction rest with
  | nil =>
    intro n a _ hlast hmem hn
    obtain ⟨y, hy⟩ := Option.isSome_iff_exists.mp (hmem a (List.mem_singleton_self a))
    obtain ⟨l, tab, hs⟩ := h.leaves.stored a y hy
    obtain ⟨n, rfl⟩ := Nat.exists_eq_succ_of_ne_zero (Nat.pos_iff_ne_zero.mp (by omega : 0 < n))
    have hright := hs.right
    rw [hlast a y rfl hy] at hright
    rw [leafWalk_succ n (h.alloc.leaf_ne_null hy) hs.leaf, hright.1, leafWalk_null]
  | cons b rest ih =>
    intro n a hchain hlast hmem hn
    obtain ⟨hab, hrest⟩ := List.isChain_cons_cons.mp hchain
    obtain ⟨y, hy, hyb⟩ := hab
    obtain ⟨l, tab, hs⟩ := h.leaves.stored a y hy
    obtain ⟨n, rfl⟩ := Nat.exists_eq_succ_of_ne_zero (Nat.pos_iff_ne_zero.mp (by omega : 0 < n))
    have hright := hs.right
    rw [hyb] at hright
    rw [leafWalk_succ n (h.alloc.leaf_ne_null hy) hs.leaf, hright.1, ih n b hrest]
    · intro d z hd hz
      exact hlast d z (by rw [List.getLast?_cons_cons]; exact hd) hz
    · exact fun d hd => hmem d (List.mem_cons_of_mem _ hd)
    · simpa using hn

/-- No leaf is linked twice, so there are at most as many as allocated addresses. -/
theorem TreeInv.chain_length (h : TreeInv E M m g) : g.chain.length ≤ m.allocs := by
  have hsub : g.chain ⊆ (List.range m.allocs).map E.alloc := by
    intro a ha
    obtain ⟨y, hy⟩ := Option.isSome_iff_exists.mp ((h.leaves.chain_mem a).mp ha)
    obtain ⟨i, hi, rfl⟩ := (h.alloc.leaf a y hy).1
    exact List.mem_map_of_mem (List.mem_range.mpr hi)
  simpa using (h.leaves.chain_nodup.subperm hsub).length_le

/-- The walk from the head leaf meets the leaves of the tree. -/
theorem TreeInv.leafWalk_head (h : TreeInv E M m g) :
    leafWalk m m.allocs (headAddr E) = g.chain := by
  have hlen := h.chain_length
  have hmem : ∀ b ∈ g.chain, (g.leaf b).isSome = true := fun b => (h.leaves.chain_mem b).mp
  have hlast : ∀ b y, g.chain.getLast? = some b → g.leaf b = some y → y.right = none :=
    h.leaves.chain_last
  have hchain := h.leaves.chain_follows
  obtain ⟨rest, hrest⟩ := List.head?_eq_some_iff.mp h.leaves.chain_head
  rw [hrest] at hlen hmem hlast hchain ⊢
  exact h.leafWalk_eq rest _ _ hchain hlast hmem (by simpa using hlen)

/-- The pairs of a leaf are those of its view. -/
theorem EntriesHold.pairs {cap v : Nat} {kv : List EntryPos} {l : Leaf}
    (h : EntriesHold cap v kv l.entries) : l.pairs = kv := by
  obtain ⟨free, he, hfree, -⟩ := h
  have h1 : (kv.map (liveEntry v)).filter (·.valid) = kv.map (liveEntry v) := by
    refine List.filter_eq_self.mpr fun e hmem => ?_
    obtain ⟨q, -, rfl⟩ := List.mem_map.mp hmem
    rfl
  have h2 : free.filter (·.valid) = [] :=
    List.filter_eq_nil_iff.mpr fun e hmem => by simp [(hfree e hmem).1]
  have h3 : Entry.pos ∘ liveEntry v = id := funext fun _ => rfl
  rw [Leaf.pairs, he, List.filter_append, h1, h2, List.append_nil, List.map_map, h3, List.map_id]

/-- The pairs the walk meets at the leaf `a`. -/
theorem TreeInv.pairs_eq {y : LeafView} (h : TreeInv E M m g) (hy : g.leaf a = some y) :
    ((m.leaf a).map Leaf.pairs).getD [] = y.kv := by
  obtain ⟨l, tab, hs⟩ := h.leaves.stored a y hy
  rw [hs.leaf, Option.map_some, Option.getD_some, hs.entries.pairs]

/-- What the walk meets is what the tree holds. -/
theorem TreeInv.mem_contents (h : TreeInv E M m g) : p ∈ contents E m ↔ g.Has p := by
  unfold contents
  rw [h.leafWalk_head, List.mem_flatMap]
  constructor
  · rintro ⟨a, ha, hp⟩
    obtain ⟨y, hy⟩ := Option.isSome_iff_exists.mp ((h.leaves.chain_mem a).mp ha)
    rw [h.pairs_eq hy] at hp
    exact ⟨a, y, hy, hp⟩
  · rintro ⟨a, y, hy, hp⟩
    refine ⟨a, (h.leaves.chain_mem a).mpr (by rw [hy]; rfl), ?_⟩
    rwa [h.pairs_eq hy]

/-- The walk meets no key twice: a leaf has its keys once, and the ranges of leaves are disjoint. -/
theorem TreeInv.nodup_contents (h : TreeInv E M m g) :
    ((contents E m).map EntryPos.key).Nodup := by
  unfold contents
  rw [h.leafWalk_head, List.map_flatMap, List.nodup_flatMap]
  constructor
  · intro a ha
    obtain ⟨y, hy⟩ := Option.isSome_iff_exists.mp ((h.leaves.chain_mem a).mp ha)
    rw [h.pairs_eq hy]
    exact (h.leaves.ok a y hy).keys
  · refine h.leaves.chain_nodup.imp_of_mem fun {a b} ha hb hab => ?_
    obtain ⟨y, hy⟩ := Option.isSome_iff_exists.mp ((h.leaves.chain_mem a).mp ha)
    obtain ⟨z, hz⟩ := Option.isSome_iff_exists.mp ((h.leaves.chain_mem b).mp hb)
    intro k hk hk'
    simp only [h.pairs_eq hy] at hk
    simp only [h.pairs_eq hz] at hk'
    obtain ⟨p, hp, rfl⟩ := List.mem_map.mp hk
    obtain ⟨q, hq, hqp⟩ := List.mem_map.mp hk'
    obtain ⟨h1, h2⟩ := (h.leaves.ok a y hy).range p hp
    obtain ⟨h3, h4⟩ := (h.leaves.ok b z hz).range q hq
    rw [hqp] at h3 h4
    exact hab (h.leaves.disjoint a b y z p.key hy hz h1 h2 h3 h4)

/-- A write that comes first took effect before the other one returned. -/
theorem WorldInv.eff_realTime (hi : WorldInv M x) (hF : F.writeCombining = false) :
    x.ghost.view.eff.Pairwise fun w w' => ∀ (j : Nat) t op r,
      x.log[j]? = some (.ret t op r) → openCall (x.log.take j) t = some (w'.1, op) → w.1 < j := by
  refine List.pairwise_iff_forall_sublist.mpr fun {w w'} hsub j t op r hret hopen => ?_
  have hw' : w' ∈ x.ghost.view.eff := hsub.subset (by simp)
  have hj := lt_of_getElem? hret
  obtain ⟨u, hcall⟩ := hi.call_of_eff hF hw'
  obtain ⟨-, hcall', -⟩ := hi.result hret hopen
  rw [hcall] at hcall'
  obtain ⟨-, rfl⟩ := Event.call.inj (Option.some.inj hcall')
  -- the writes of before the return are the first ones
  have hmem := (mem_visible.mp (visible_of_ret hi hF hret hopen).2).1
  obtain ⟨rest, hrest⟩ := hi.past_eff hj.le
  rw [← hrest] at hsub
  have hnd := hi.once
  rw [← hrest] at hnd
  have hno : w' ∉ rest := List.disjoint_of_nodup_append (hnd.of_map _) hmem
  obtain ⟨l₁, l₂, heq, h1, h2⟩ := List.sublist_append_iff.mp hsub
  cases l₁ with
  | nil =>
    rw [List.nil_append] at heq
    subst heq
    exact absurd (h2.subset (by simp)) hno
  | cons q l₁ =>
    rw [List.cons_append] at heq
    obtain ⟨rfl, -⟩ := List.cons.inj heq
    exact (hi.trail j hj.le).2 w (h1.subset List.mem_cons_self)

/-- At every instant of every run that the guard allows, without write combining, there is an order of
writes, among them all that have returned, that agrees with the order of the calls and leaves just the
pairs in the leaves. No key is in two pairs. -/
theorem contents_serialize (E : Env) (F : Flags) (me : Nat) (c : TreeConfig E F)
    (hF : F.writeCombining = false)
    (h : Reach (treeMachine E) (treeGuard E F {}) (treeInit E F me) c) :
    ∃ eff : List (Nat × EntryPos),
      (∀ w ∈ eff, ∃ t, c.log[w.1]? = some (.call t (.write w.2.key w.2.value))) ∧
      (eff.map Prod.fst).Nodup ∧
      (∀ (j : Nat) t k v r, c.log[j]? = some (.ret t (.write k v) r) →
        ∃ i, openCall (c.log.take j) t = some (i, .write k v) ∧ (i, ⟨k, v⟩) ∈ eff) ∧
      (eff.Pairwise fun w w' => ∀ (j : Nat) t op r, c.log[j]? = some (.ret t op r) →
        openCall (c.log.take j) t = some (w'.1, op) → w.1 < j) ∧
      ((contents E c.mem).map EntryPos.key).Nodup ∧
      ∀ p, p ∈ contents E c.mem ↔ lastValue (eff.map Prod.snd) p.key = some p.value := by
  obtain ⟨g, hi, -⟩ := tree_reach h
  refine ⟨g.view.eff, fun w hw => hi.call_of_eff hF hw, hi.once, fun j t k v r hret => ?_,
    hi.eff_realTime hF, hi.tree.nodup_contents,
    fun p => (hi.tree.mem_contents).trans (hi.tree.eff p)⟩
  obtain ⟨i, hopen⟩ := ((init_logOk me).reach h).ret j t _ r hret
  have hj : j < c.log.length := lt_of_getElem? hret
  refine ⟨i, hopen, ?_⟩
  exact (hi.past_eff hj.le).subset (mem_visible.mp (visible_of_ret hi hF hret hopen).2).1

/-- The head leaf has been rewritten for a split and its table has not. -/
structure MidSplit (c : PlainConfig) : Prop where
  leaf : (c.mem.leaf (headAddr Env.plain)).map (·.hdr.version) = some 1
  table : (c.mem.table (headFpAddr Env.plain)).map (·.version) = some 0
  pairs : (contents Env.plain c.mem).length = 33

theorem exists_midSplit : ∃ c, runToSplit = some c ∧ MidSplit c := by
  have hrun : (runToSplit.map fun c =>
      decide ((c.mem.leaf (headAddr Env.plain)).map (·.hdr.version) = some 1) &&
      (decide ((c.mem.table (headFpAddr Env.plain)).map (·.version) = some 0) &&
      decide ((contents Env.plain c.mem).length = 33))) = some true := by decide +kernel
  obtain ⟨c, hrun, hc⟩ := Option.map_eq_some_iff.mp hrun
  simp only [Bool.and_eq_true, decide_eq_true_eq] at hc
  exact ⟨c, hrun, hc.1, hc.2.1, hc.2.2⟩

/-- In the middle of a split, the two leaves together hold the pairs. -/
theorem contents_serialize_split : ∃ c : PlainConfig, MidSplit c ∧
    ∃ eff : List (Nat × EntryPos),
      (∀ w ∈ eff, ∃ t, c.log[w.1]? = some (.call t (.write w.2.key w.2.value))) ∧
      (eff.map Prod.fst).Nodup ∧
      (∀ (j : Nat) t k v r, c.log[j]? = some (.ret t (.write k v) r) →
        ∃ i, openCall (c.log.take j) t = some (i, .write k v) ∧ (i, ⟨k, v⟩) ∈ eff) ∧
      (eff.Pairwise fun w w' => ∀ (j : Nat) t op r, c.log[j]? = some (.ret t op r) →
        openCall (c.log.take j) t = some (w'.1, op) → w.1 < j) ∧
      ((contents Env.plain c.mem).map EntryPos.key).Nodup ∧
      ∀ p, p ∈ contents Env.plain c.mem ↔ lastValue (eff.map Prod.snd) p.key = some p.value := by
  obtain ⟨c, hrun, hc⟩ := exists_midSplit
  exact ⟨c, hc, contents_serialize _ _ 1 c rfl (runToSplit_reach _ hrun)⟩

end DMTree
