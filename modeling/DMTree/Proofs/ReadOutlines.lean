import DMTree.Proofs.LeafOutlines

/-!
# Reads

`leaf_search`. A read locks nothing. It reads the fingerprint table of a leaf, and then the slots whose
fingerprint is that of its key, while the leaf may be written or split. What it finds has been in the
tree at some time since the call; when it finds nothing, the key was not stored when the call was made.
-/

namespace DMTree

open Conc Segments

variable {E : Env} {F : Flags} {M : Mode} {m m' : Cluster} {t u : Tid} {g g' : TreeView}
  {a b : Gaddr} {k : Key} {v w : Value} {o : Holding} {op : TreeOp} {f f' : Focus} {x y : LeafView}
  {z : TreeWorld E F} {r : Record} {tab : FPTable} {i n ver : Nat}

/-! ## What a reader knows -/

/-- The call of the client; what was stored when it was made is still stored. -/
def Since (E : Env) (f : Focus) (op : TreeOp) : Prop :=
  f.op = some op ∧ ∀ k, f.old k → f.view.Stored E.hash k

theorem Enduring.since : Enduring E M t fun f => Since E f op := by
  rintro u f f' hu hi ⟨hop, hold⟩
  refine ⟨hi.op.trans hop, fun k hk => hi.rel.stored k (hold k ?_)⟩
  rwa [hi.old] at hk

theorem Since.op_ne (h : Since E f op) : f.op ≠ none := by simp [h.1]

/-- The slot `i` of the leaf `a` holds the key as long as the leaf has the version `ver`. -/
def SlotKey (f : Focus) (a : Gaddr) (ver i : Nat) (k : Key) : Prop :=
  ∃ x, f.view.leaf a = some x ∧ ver ≤ x.ver ∧
    (x.ver = ver → (x.kv[i]?).map EntryPos.key = some k)

theorem Enduring.slotKey : Enduring E M t fun f => SlotKey f a ver i k := by
  rintro u f f' hu hi ⟨x, hx, hle, hk⟩
  obtain ⟨x', hx', -⟩ := hi.rel.le.leaf a x hx
  refine ⟨x', hx', ?_⟩
  rcases hi.rel.step a x x' hx hx' with ⟨hver, -, hkeys⟩ | ⟨hlt, -⟩
  · exact ⟨hver ▸ hle, fun h => hkeys i k (hk (hver ▸ h))⟩
  · exact ⟨hle.trans hlt.le, fun h => absurd h (by omega)⟩

/-- The fingerprints of a leaf are those of its first slots, unless it is being split. -/
theorem LeafView.Ok.fps_getElem? {H : Hashes} {s : Status} (h : x.Ok H s)
    (hs : ∀ b, s ≠ .moving b) (hi : i < x.fps.length) :
    x.fps[i]? = (x.kv[i]?).map fun p => calKeyFp H p.key := by
  rcases (h.rest hs).2.2 with hfps | ⟨-, kv, p, hkv, hfps⟩
  · rw [hfps, List.getElem?_map]
  · rw [hfps, List.length_map] at hi
    rw [hfps, hkv, List.getElem?_map, List.getElem?_append_left hi]

/-- A key in the range of a leaf, or of the leaf that is being split off, is stored in one of the
two. -/
theorem TreeInv.stored_range (h : TreeInv E M m g) (hx : g.leaf a = some x) (h1 : x.min ≤ k)
    (h2 : k < x.pmax) (hc : (g.st a).closed = false) {b : Gaddr} (hy : g.leaf b = some y)
    (hy1 : y.min ≤ k) (hy2 : k < y.max) : b = a ∨ ∃ s, g.st a = .moving s ∧ b = s := by
  by_cases hmv : ∃ s, g.st a = .moving s
  · obtain ⟨s, hs⟩ := hmv
    have hpart : (g.st a).partner = some s := by rw [hs]; rfl
    obtain ⟨x', y', hx', hy', hp⟩ := h.levels.pair a s hpart
    rw [hx] at hx'
    cases hx'
    by_cases hlt : k < x.max
    · exact Or.inl (h.leaves.disjoint b a y x k hy hx hy1 hy2 h1 hlt)
    · have hok := h.leaves.ok s y' hy'
      rw [hp.fresh] at hok
      obtain ⟨-, hmax, -⟩ := hok.rest fun _ h => by cases h
      refine Or.inr ⟨s, hs, h.leaves.disjoint b s y y' k hy hy' hy1 hy2 ?_ ?_⟩
      · rw [hp.min]
        exact not_lt.mp hlt
      · rw [hmax, hp.pmax hc]
        exact h2
  · have hstill : ∀ s, g.st a ≠ .moving s := fun s hs => hmv ⟨s, hs⟩
    obtain ⟨-, hmax, -⟩ := (h.leaves.ok a x hx).rest hstill
    exact Or.inl (h.leaves.disjoint b a y x k hy hx hy1 hy2 h1 (hmax ▸ h2))

/-- The fingerprint of a stored key is in the table that goes with its record, at a slot that holds
the key as long as the leaf has the version of the record. -/
theorem TreeInv.slot_of_stored (h : TreeInv E M m g) (hs : SnapRec g r k)
    (hx : g.leaf r.addr = some x) (ht : TableHolds E.hash x.cap x.tver x.fps tab)
    (hv : r.version = x.tver) (hst : g.Stored E.hash k) :
    ∃ i ∈ matching tab (calKeyFp E.hash k) r.capacity, r.version ≤ x.ver ∧
      (x.ver = r.version → (x.kv[i]?).map EntryPos.key = some k) := by
  obtain ⟨x', hx', -, hcap, hmin, -, -, hclosed, hpmax⟩ := hs.leaf
  rw [hx] at hx'
  cases hx'
  have hc : (g.st r.addr).closed = false := by
    by_contra hc
    exact absurd hv (hclosed (by simpa using hc)).ne
  have hok := h.leaves.ok _ x hx
  obtain ⟨b, y, j, hy, hj, hjk, hmv⟩ := hst
  have hyr : y.min ≤ k ∧ k < y.max := by
    obtain ⟨p, hp, rfl⟩ := Option.map_eq_some_iff.mp hjk
    exact (h.leaves.ok b y hy).range p (List.mem_of_getElem? hp)
  have hmem : ∀ i, i ∈ matching tab (calKeyFp E.hash k) r.capacity ↔
      x.fps[i]? = some (calKeyFp E.hash k) := fun i => by
    rw [← hcap]
    exact ht.mem_matching (calKeyFp_ne_zero k)
  by_cases hstill : ∀ s, g.st r.addr ≠ .moving s
  · rcases h.stored_range hx (hmin ▸ hs.key_le) (hpmax hv) hc hy hyr.1 hyr.2 with rfl | ⟨s, hs, -⟩
    · rw [hx] at hy
      cases hy
      refine ⟨j, (hmem j).mpr ?_, (hv.trans (hok.rest hstill).1.symm).le, fun _ => hjk⟩
      rw [hok.fps_getElem? hstill hj]
      obtain ⟨p, hp, rfl⟩ := Option.map_eq_some_iff.mp hjk
      rw [hp, Option.map_some]
    · exact absurd hs (hstill s)
  · -- the leaf has been rewritten and its table has not: its slots have the next version
    obtain ⟨s, hs'⟩ := not_forall.mp hstill
    have hs' : g.st r.addr = .moving s := not_not.mp hs'
    have hver := (hok.moving s hs').1
    have hor : b = r.addr ∨ b = s := by
      rcases h.stored_range hx (hmin ▸ hs.key_le) (hpmax hv) hc hy hyr.1 hyr.2 with hb | ⟨s', hs'', hb⟩
      · exact Or.inl hb
      · rw [hs'] at hs''
        cases hs''
        exact Or.inr hb
    obtain ⟨i, hi⟩ := List.mem_iff_getElem?.mp (hmv r.addr x s hx hs' hor)
    exact ⟨i, (hmem i).mpr hi, by omega, fun he => by omega⟩

/-! ## Local copies of fingerprint tables -/

theorem setCopy_node {j d e : Nat} :
    ((m.setCopy j d tab).node e).cache = (m.node e).cache ∧
      ((m.setCopy j d tab).node e).locks = (m.node e).locks := by
  by_cases he : e = j
  · subst he
    simp [Cluster.setCopy]
  · simp [Cluster.setCopy, Function.update_of_ne he]

theorem setCopy_inv {j d e d' : Nat} {tab' : FPTable}
    (h : ((m.setCopy j d tab).node e).localFp d' = some tab') :
    (m.node e).localFp d' = some tab' ∨ d' = d ∧ tab' = tab := by
  by_cases he : e = j
  · subst he
    by_cases hd : d' = d
    · subst hd
      exact Or.inr ⟨rfl, by simpa [Cluster.setCopy, eq_comm] using h⟩
    · exact Or.inl (by simpa [Cluster.setCopy, Function.update_of_ne hd] using h)
  · exact Or.inl (by simpa [Cluster.setCopy, Function.update_of_ne he] using h)

/-- Tables in places of their own are not confused: one at the offset of `a` is `a`. -/
theorem LocalApart.eq_of_offset (h : LocalApart E m i a n) {c : Gaddr} (hused : Used E m c)
    (ht : m.table c = some tab) (hc : c.nodeID = i ∨ c.nodeID ≠ 0) (ho : c.offset = a.offset) :
    c = a := by
  by_contra hne
  obtain ⟨j, hj, rfl⟩ := hused
  have hapart := h j hj tab ht hne hc
  omega

/-- A copy goes where no table of the node lies. -/
theorem TreeInv.setLocalFp_eq (h : TreeInv E M m g) (ha : LocalApart E m i a n) (hi : a.nodeID ≠ i)
    (tab : FPTable) : m.setLocalFp i a tab = m.setCopy i a.offset tab := by
  have hnone : m.table ⟨i, a.offset⟩ = none := by
    cases ht : m.table ⟨i, a.offset⟩ with
    | none => rfl
    | some tab' =>
      have heq := ha.eq_of_offset (h.alloc.table _ _ ht) ht (Or.inl rfl) rfl
      exact absurd (heq ▸ rfl) hi
  unfold Cluster.setLocalFp
  rw [hnone]
  rfl

/-- A table that is zero has no fingerprints. -/
theorem SnapRec.copyOk_zero {H : Hashes} (h : SnapRec g r k) :
    CopyOk H g r.fpAddr (.zero r.capacity) := by
  obtain ⟨x, hx, htab, -⟩ := h.leaf
  refine ⟨r.addr, x, hx, htab, Nat.zero_le _, fun _ i _ hne => absurd ?_ hne⟩
  simp only [FPTable.zero, List.getElem?_replicate]
  split <;> rfl

/-- The table of a leaf that is in the index. -/
theorem TreeInv.copyOk (h : TreeInv E M m g) (hs : SnapRec g r k)
    (ht : m.table r.fpAddr = some tab) : CopyOk E.hash g r.fpAddr tab := by
  obtain ⟨x, hx, htab, -⟩ := hs.leaf
  obtain ⟨l, tab', hst⟩ := h.leaves.stored _ x hx
  rw [← htab, hst.table] at ht
  cases ht
  have hok := h.leaves.ok _ x hx
  have hver := hst.fps.version
  by_cases hmv : ∃ s, g.st r.addr = .moving s
  · obtain ⟨s, hs'⟩ := hmv
    have := (hok.moving s hs').1
    exact ⟨r.addr, x, hx, htab, by omega, fun _ => by omega⟩
  · have hstill : ∀ s, g.st r.addr ≠ .moving s := fun s hs' => hmv ⟨s, hs'⟩
    refine ⟨r.addr, x, hx, htab, (hver.trans (hok.rest hstill).1.symm).le, fun _ i hi hne => ?_⟩
    have hlt : i < tab.fp.length := by rwa [hst.fps.fp_length]
    have hmem : i ∈ matching tab ((tab.fp[i]?).getD 0) x.cap := by
      rw [mem_matching_iff, List.getElem?_eq_getElem hlt]
      exact ⟨hi, rfl⟩
    have hfp := (hst.fps.mem_matching hne).mp hmem
    have hlt := (List.getElem?_eq_some_iff.mp hfp).1
    rw [hok.fps_getElem? hstill hlt] at hfp
    obtain ⟨p, hp, -⟩ := Option.map_eq_some_iff.mp hfp
    have hkey : (x.kv[i]?).map EntryPos.key = some p.key := by rw [hp, Option.map_some]
    exact ⟨p.key, hkey, h.stored_of_still hx hs.indexed hstill hlt hkey⟩

/-- What lies in the place of a table is a copy of that table. -/
theorem WorldInv.copyOk_local (hi : WorldInv M z) (hs : SnapRec z.ghost.view r k)
    (ha : LocalApart E z.mem i r.fpAddr n) (htab : z.mem.localTable i r.fpAddr = some tab) :
    CopyOk E.hash z.ghost.view r.fpAddr tab := by
  rcases Option.or_eq_some_iff.mp htab with hown | ⟨-, hcopy⟩
  · have heq := ha.eq_of_offset (hi.tree.alloc.table _ _ hown) hown (Or.inl rfl) rfl
    rw [heq] at hown
    exact hi.tree.copyOk hs hown
  · obtain ⟨c, ho, hc, hok⟩ := hi.copies i _ tab hcopy
    obtain ⟨b, x, hx, hxc, -⟩ := id hok
    obtain ⟨l, tab', hst⟩ := hi.tree.leaves.stored b x hx
    have heq := ha.eq_of_offset (hi.tree.alloc.table _ _ hst.table) hst.table
      (Or.inr (hxc ▸ hc)) (hxc ▸ ho)
    rw [← heq, hxc]
    exact hok

section Local

variable {φ : Focus → Prop} (hop : ∀ f, φ f → f.op ≠ none)
include hop

/-- With `exact`, a local copy that passes the check is a copy of the table. -/
theorem readLocalFp_rule (hsnap : ∀ f, φ f → SnapRec f.view r k) :
    (treeDisc E F M).Cmd t (.readLocalFp r.fpAddr r.capacity) (Says t φ) fun copy : FPTable =>
      Says t fun f => φ f ∧ (r.fpAddr.nodeID ≠ 0 → M.exact → copy.checkConsistent E.hash = true →
        CopyOk E.hash f.view r.fpAddr copy) := by
  refine side_rule (c := .readLocalFp r.fpAddr r.capacity) (ψ := fun (copy : FPTable) f => φ f ∧
    (r.fpAddr.nodeID ≠ 0 → M.exact → copy.checkConsistent E.hash = true →
      CopyOk E.hash f.view r.fpAddr copy)) rfl
    (fun _ h => by cases h) (fun _ => trivial) hop fun z copy m hi hz hg he => ?_
  have hcopy : localRead E z.mem (E.nodeOf t) r.fpAddr r.capacity = copy :=
    congrArg Prod.fst (Option.some.inj he)
  have hm : { z.mem with localReads := z.mem.localReads + 1 } = m :=
    congrArg Prod.snd (Option.some.inj he)
  subst hm
  have hstep : TreeStep E M t z.mem z.ghost.view { z.mem with localReads := z.mem.localReads + 1 }
      z.ghost.view := by
    refine hi.tree.side ?_ ?_ ?_ ?_ ?_ ?_ (hi.tree.cache.congr fun _ => ?_) t <;> rfl
  refine ⟨rfl, hstep, fun _ _ => rfl, fun _ _ _ => Or.inl, hz, fun hid hM hcrc => ?_⟩
  have hs := hsnap _ hz
  obtain ⟨-, hapart, hexact⟩ := hg
  rw [← hcopy] at hcrc ⊢
  rw [hexact hM hcrc]
  cases hloc : z.mem.localTable (E.nodeOf t) r.fpAddr with
  | none => exact hs.copyOk_zero
  | some tab => exact hi.copyOk_local hs (hapart hid) hloc

theorem writeLocalFp_rule (c : Gaddr) (tab : FPTable) (hid : c.nodeID ≠ E.nodeOf t ∧ c.nodeID ≠ 0)
    (hcopy : ∀ f, φ f → CopyOk E.hash f.view c tab) :
    (treeDisc E F M).Cmd t (.writeLocalFp c tab) (Says t φ) fun _ => Says t φ := by
  refine side_rule rfl (fun _ h => by cases h) (fun _ => trivial) hop fun z _ m hi hz hg he => ?_
  have hm : z.mem.setLocalFp (E.nodeOf t) c tab = m := congrArg Prod.snd (Option.some.inj he)
  rw [hi.tree.setLocalFp_eq hg.2 hid.1] at hm
  subst hm
  have hstep : TreeStep E M t z.mem z.ghost.view (z.mem.setCopy (E.nodeOf t) c.offset tab)
      z.ghost.view := by
    refine hi.tree.side ?_ ?_ ?_ ?_ ?_ ?_ (hi.tree.cache.congr fun _ => setCopy_node.1) t <;> rfl
  refine ⟨rfl, hstep, fun _ _ => setCopy_node.2, fun i d tab' htab => ?_, hz⟩
  rcases setCopy_inv htab with hold | ⟨rfl, rfl⟩
  · exact Or.inl hold
  · exact Or.inr ⟨c, rfl, hid.2, hcopy _ hz⟩

end Local

/-- The table `tab`, if it goes with the record `r`, leads to the key. -/
def Probed (E : Env) (f : Focus) (r : Record) (tab : FPTable) (k : Key) : Prop :=
  tab.version = r.version → f.old k →
    ∃ i ∈ matching tab (calKeyFp E.hash k) r.capacity, SlotKey f r.addr r.version i k

theorem Enduring.probed : Enduring E M t fun f => Probed E f r tab k := by
  intro u f f' hu hi h hv hk
  rw [hi.old] at hk
  obtain ⟨i, hmem, hs⟩ := h hv hk
  exact ⟨i, hmem, Enduring.slotKey (E := E) (M := M) u f f' hu hi hs⟩

theorem Enduring.copyOk {c : Gaddr} : Enduring E M t fun f => CopyOk E.hash f.view c tab :=
  fun _ _ _ _ hi h => h.mono hi.rel

section Search

variable {φ : Focus → Prop} (hφ : Enduring E M t φ) (hsince : ∀ f, φ f → Since E f op)
include hφ hsince

omit hφ in
/-- The fingerprint table of a leaf is read from remote memory. -/
theorem readTable_probe (hsnap : ∀ f, φ f → SnapRec f.view r k) :
    (treeDisc E F M).Cmd t (.readTable r.fpAddr) (Says t φ) fun tab : FPTable =>
      Says t fun f => φ f ∧ CopyOk E.hash f.view r.fpAddr tab ∧ Probed E f r tab k := by
  refine read_rule (c := .readTable r.fpAddr) (ψ := fun (tab : FPTable) f => φ f ∧
    CopyOk E.hash f.view r.fpAddr tab ∧ Probed E f r tab k) rfl (fun f hf => (hsince f hf).op_ne)
    fun z tab hi hz he => ⟨hz, ?_⟩
  obtain ⟨tab', ht', heq⟩ := Option.map_eq_some_iff.mp he
  have heq : tab' = tab := congrArg Prod.fst heq
  subst heq
  have hs := hsnap _ hz
  refine ⟨hi.tree.copyOk hs ht', ?_⟩
  obtain ⟨x, hx, htab, -⟩ := hs.leaf
  obtain ⟨l, tab'', hst⟩ := hi.tree.leaves.stored _ x hx
  rw [← htab, hst.table] at ht'
  cases ht'
  intro hv hk
  obtain ⟨i, hmem, hle, hkey⟩ := hi.tree.slot_of_stored hs hx hst.fps
    (hv.symm.trans hst.fps.version) ((hsince _ hz).2 k hk)
  exact ⟨i, hmem, x, hx, hle, hkey⟩

theorem readFp_outline (hsnap : ∀ f, φ f → SnapRec f.view r k) (fromLocalFp : Bool) :
    Outline (treeDisc E F M) t (readFp E (E.nodeOf t) r fromLocalFp) (Says t φ) fun s =>
      Says t fun f => (φ f ∧ (M.exact → s.1.checkConsistent E.hash = true →
        CopyOk E.hash f.view r.fpAddr s.1)) ∧ (s.2 = false → Probed E f r s.1 k) := by
  have hop : ∀ f, φ f → f.op ≠ none := fun f hf => (hsince f hf).op_ne
  have hcopy : ∀ copy : FPTable, Enduring E M t fun f => φ f ∧ (r.fpAddr.nodeID ≠ 0 → M.exact →
      copy.checkConsistent E.hash = true → CopyOk E.hash f.view r.fpAddr copy) :=
    fun copy => hφ.and (.imp (.imp (.imp .copyOk)))
  refine Outline.cmd_bind False.elim (fun copy => (hcopy copy).stable)
    (readLocalFp_rule hop hsnap) fun copy => ?_
  refine Outline.ite (fun _ => ?_) fun hno => Outline.pure fun _ _ hz =>
    ⟨⟨hz.1, hz.2 fun hid => hno (Or.inr (Or.inr hid))⟩, fun h => by cases h⟩
  have hread : ∀ tab : FPTable, Enduring E M t fun f => φ f ∧ CopyOk E.hash f.view r.fpAddr tab ∧
    Probed E f r tab k := fun tab => hφ.and (.and .copyOk .probed)
  refine Outline.cmd_bind False.elim (fun tab => (hread tab).stable)
    (((readTable_probe hsince hsnap).imp fun _ hz => hz.1) fun _ _ hz => hz) fun tab => ?_
  refine Outline.ite_bind (a := ()) (R := fun _ => Says t fun f => φ f ∧
      CopyOk E.hash f.view r.fpAddr tab ∧ Probed E f r tab k)
    (fun hme => Outline.cmd False.elim (fun _ => (hread tab).stable)
      (writeLocalFp_rule (fun f hf => hop f hf.1) _ _ hme.2 fun f hf => hf.2.1)) (fun _ _ _ hz => hz)
    fun _ => ?_
  exact Outline.pure fun _ _ hz => ⟨⟨hz.1, fun _ _ => hz.2.1⟩, fun _ => hz.2.2⟩

/-- What the loop over the slots tells: the record is out of date, the key is found, or it is in none
of the slots. If the table was `fresh`, it was not stored when the call was made. -/
def SlotAnswer (E : Env) (M : Mode) (f : Focus) (fresh : Bool) (k : Key) (v : Value) :
    Option Bool × Value → Prop
  | (none, w) => w = v ∨ w = ValueNull
  | (some true, w) => f.seen fun g => g.Shows E M ⟨k, w⟩
  | (some false, w) => (w = v ∨ w = ValueNull) ∧ (fresh = true → ¬ f.old k)

/-- What a slot tells that has been read. -/
def SlotRead (E : Env) (M : Mode) (f : Focus) (r : Record) (k : Key) (fresh : Bool)
    (slots : List Nat) (e : Entry) : Prop :=
  (e.version = r.version → ∀ w, e.search k = some w → f.seen fun g => g.Shows E M ⟨k, w⟩) ∧
    (e.version = r.version → e.search k = none → fresh = true → f.old k →
      ∃ j ∈ slots, SlotKey f r.addr r.version j k)

omit hφ hsince in
theorem Enduring.slotRead {fresh : Bool} {slots : List Nat} {e : Entry} :
    Enduring E M t fun f => SlotRead E M f r k fresh slots e := by
  rintro u f f' hu hi ⟨h, h'⟩
  refine ⟨fun hv w hw => hi.seen _ (h hv w hw), fun h1 h2 h3 hk => ?_⟩
  rw [hi.old] at hk
  obtain ⟨j, hj, hs⟩ := h' h1 h2 h3 hk
  exact ⟨j, hj, Enduring.slotKey (E := E) (M := M) u f f' hu hi hs⟩

omit hφ in
theorem readEntry_probe {fresh : Bool} (hsnap : ∀ f, φ f → SnapRec f.view r k)
    (hcopy : ∀ f, φ f → M.exact → CopyOk E.hash f.view r.fpAddr tab)
    (hver : tab.version = r.version) (i : Nat) (hi : i < r.capacity)
    (hfp : (tab.fp[i]?).getD 0 ≠ 0) (slots : List Nat) :
    (treeDisc E F M).Cmd t (.readEntry r.addr i)
      (Says t fun f => φ f ∧ (fresh = true → f.old k →
        ∃ j ∈ i :: slots, SlotKey f r.addr r.version j k)) fun e : Entry =>
      Says t fun f => φ f ∧ SlotRead E M f r k fresh slots e := by
  refine read_rule (c := .readEntry r.addr i) (ψ := fun (e : Entry) f => φ f ∧
    SlotRead E M f r k fresh slots e) rfl (fun f hf => (hsince f hf.1).op_ne)
    fun z e hinv hz he => ?_
  obtain ⟨hz, hold⟩ := hz
  obtain ⟨l, hl, he⟩ := Option.bind_eq_some_iff.mp he
  obtain ⟨e', he', heq⟩ := Option.map_eq_some_iff.mp he
  have heq : e' = e := congrArg Prod.fst heq
  subst heq
  obtain ⟨x, hx, htab, hcap, -⟩ := (hsnap _ hz).leaf
  obtain ⟨l', tab', hs⟩ := hinv.tree.leaves.stored _ x hx
  rw [hs.leaf] at hl
  cases hl
  have hversion : e'.version = r.version → x.ver = r.version :=
    fun hv => (hs.entries.version_eq (List.mem_of_getElem? he')).symm.trans hv
  refine ⟨hz, fun hv w hw => ?_, fun hv hnone hfresh hk => ?_⟩
  · have hmem := hs.entries.search_some (i := i) (k := k) (w := w) (by rw [he']; exact hw)
    refine seen_now hinv (hsince _ hz).op_ne ⟨⟨_, x, hx, hmem⟩, fun hM => ?_⟩
    -- the slot has a fingerprint, so its key is stored
    obtain ⟨b, y, hy, htab', -, hslots⟩ := hcopy _ hz hM
    have hb : b = r.addr := hinv.tree.leaves.tab_inj b r.addr y x hy hx (htab'.trans htab.symm)
    rw [hb, show (focus t z).view.leaf r.addr = some x from hx] at hy
    cases hy
    obtain ⟨k', hk', hst⟩ := hslots ((hversion hv).trans hver.symm) i (hcap ▸ hi) hfp
    obtain ⟨p, hp, rfl⟩ := Option.map_eq_some_iff.mp hk'
    rw [hs.entries.getElem? hp] at he'
    cases he'
    have hkey : p.key = k := by
      by_contra hne
      simp [Entry.search, liveEntry, hne] at hw
    exact hkey ▸ hst
  · obtain ⟨j, hj, x', hx', hle, hkey⟩ := hold hfresh hk
    rcases List.mem_cons.mp hj with rfl | hj
    · -- the slot holds the key
      rw [hx] at hx'
      cases hx'
      obtain ⟨p, hp, rfl⟩ := Option.map_eq_some_iff.mp (hkey (hversion hv))
      rw [hs.entries.getElem? hp] at he'
      cases he'
      simp [Entry.search, liveEntry] at hnone
    · exact ⟨j, hj, x', hx', hle, hkey⟩

theorem searchSlots_outline (fresh : Bool) (hsnap : ∀ f, φ f → SnapRec f.view r k)
    (hcopy : ∀ f, φ f → M.exact → CopyOk E.hash f.view r.fpAddr tab)
    (hver : tab.version = r.version) (slots : List Nat)
    (hslots : ∀ i ∈ slots, i < r.capacity ∧ (tab.fp[i]?).getD 0 ≠ 0) (w : Value)
    (hw : w = v ∨ w = ValueNull) :
    Outline (treeDisc E F M) t (searchSlots k r slots w)
      (Says t fun f => φ f ∧ (fresh = true → f.old k →
        ∃ j ∈ slots, SlotKey f r.addr r.version j k)) fun s =>
      Says t fun f => φ f ∧ SlotAnswer E M f fresh k v s := by
  induction slots generalizing w with
  | nil =>
    refine Outline.pure fun z _ hz => ⟨hz.1, hw, fun hf hk => ?_⟩
    obtain ⟨j, hj, -⟩ := hz.2 hf hk
    exact absurd hj List.not_mem_nil
  | cons i slots ih =>
    obtain ⟨⟨hi, hfp⟩, hslots⟩ := List.forall_mem_cons.mp hslots
    have hread : ∀ e : Entry, Enduring E M t fun f => φ f ∧ SlotRead E M f r k fresh slots e :=
      fun e => hφ.and .slotRead
    refine Outline.cmd_bind False.elim (fun e => (hread e).stable)
      (readEntry_probe hsince hsnap hcopy hver i hi hfp slots) fun e =>
        Outline.ite (fun _ => ?_) fun hv => ?_
    · exact Outline.pure fun _ _ hz => ⟨hz.1, hw⟩
    · have hv : e.version = r.version := not_not.mp hv
      cases hs : e.search k with
      | some w' => exact Outline.pure fun _ _ hz => ⟨hz.1, hz.2.1 hv w' hs⟩
      | none => exact (ih hslots ValueNull (Or.inr rfl)).mono fun _ _ hz => ⟨hz.1, hz.2.2 hv hs⟩

end Search

/-! ## `leaf_search` -/

/-- The result `w` of a read whose variable held `v`. -/
def Answered (E : Env) (M : Mode) (f : Focus) (k : Key) (v w : Value) : Prop :=
  (f.seen fun g => g.Shows E M ⟨k, w⟩) ∨ ((w = v ∨ w = ValueNull) ∧ ¬ f.old k)

section Calls

variable (hk : M.bounded → k < KeyMax)
include hk

theorem leafSearch_outline (y : LeafPath) :
    Outline (treeDisc E F M) t (leafSearch E F (E.nodeOf t) k y v)
      (Says t fun f => (Since E f op ∧ Owned t f.view {}) ∧ LeafKnown M f.view k y) fun s =>
        Says t fun f => ((Since E f op ∧ Owned t f.view {}) ∧ RootKnown f.view s.2) ∧
          Answered E M f k v s.1 := by
  have hχ : Enduring E M t fun f => Since E f op ∧ Owned t f.view {} := Enduring.since.and .owned
  have hφ : ∀ y, Enduring E M t fun f => (Since E f op ∧ Owned t f.view {}) ∧
    LeafKnown M f.view k y := fun y => hχ.and (.know fun _ _ hle h => LeafKnown.mono h hle)
  have hsince : ∀ y f, ((Since E f op ∧ Owned t f.view {}) ∧ LeafKnown M f.view k y) →
    Since E f op := fun y f hf => hf.1.1
  have hsnap : ∀ (y : LeafPath) f, ((Since E f op ∧ Owned t f.view {}) ∧
    LeafKnown M f.view k y) → SnapRec f.view y.path k := fun y f hf => hf.2.snap
  refine Outline.assert_bind (fun z _ hz hf => ?_) fun _ => ?_
  · have hpos := hz.2.snap.capacity_pos
    simp only [gt_iff_lt, decide_eq_false_iff_not] at hf
    exact absurd hpos hf
  refine Outline.loop id (J := fun s : SearchState => Says t fun f =>
      ((Since E f op ∧ Owned t f.view {}) ∧ LeafKnown M f.view k s.leaf) ∧ (s.value = v ∨ s.value = ValueNull))
    (fun _ _ hz => ⟨hz, Or.inl rfl⟩) (fun s => ((hφ s.leaf).and (.const _)).stable) fun s => ?_
  obtain ⟨y, fromLocalFp, value⟩ := s
  refine Outline.of_fact (φ := value = v ∨ value = ValueNull) (fun _ _ hz => hz.2) fun hv => ?_
  have hagain : ∀ (p : LeafPath → TreeProg (SearchState ⊕ (Value × InnerTree)))
      (Q : SearchState ⊕ (Value × InnerTree) → TreeWorld E F → Prop),
      (∀ y', Outline (treeDisc E F M) t (p y') (Says t fun f => (Since E f op ∧ Owned t f.view {}) ∧
        LeafKnown M f.view k y') Q) →
      Outline (treeDisc E F M) t (findAgain E F true k y >>= p)
        (Says t fun f => (Since E f op ∧ Owned t f.view {}) ∧ LeafKnown M f.view k y) Q :=
    fun p Q hp => Outline.bind (findAgain_outline hχ (fun f hf => hf.1.op_ne) hk true y) hp
  refine Outline.bind ((readFp_outline (hφ y) (hsince y) (hsnap y) fromLocalFp).mono
    fun _ _ hz => hz.1) fun fp => Outline.ite (fun _ => ?_) fun hcrc =>
      Outline.ite (fun _ => ?_) fun hver => ?_
  · exact Outline.pure fun _ _ hz => ⟨hz.1.1, hv⟩
  · exact (hagain _ _ fun y' => Outline.pure fun _ _ hz => ⟨hz, hv⟩).mono fun _ _ hz => hz.1.1
  · have hver : fp.1.version = y.path.version := not_not.mp hver
    obtain ⟨tab, fromCopy⟩ := fp
    have hcopy : Enduring E M t fun f => ((Since E f op ∧ Owned t f.view {}) ∧
        LeafKnown M f.view k y) ∧ (M.exact → CopyOk E.hash f.view y.path.fpAddr tab) :=
      (hφ y).and (.imp .copyOk)
    have hslots : ∀ i ∈ matching tab (calKeyFp E.hash k) y.path.capacity,
        i < y.path.capacity ∧ (tab.fp[i]?).getD 0 ≠ 0 := by
      intro i hi
      obtain ⟨hlt, hfp⟩ := mem_matching_iff.mp hi
      rw [hfp]
      exact ⟨hlt, calKeyFp_ne_zero k⟩
    refine Outline.bind ((searchSlots_outline hcopy (fun f hf => hsince y f hf.1) (v := v)
      (!fromCopy) (fun f hf => hsnap y f hf.1) (fun _ hf => hf.2) hver _ hslots value hv).mono
      fun _ _ hz => ⟨⟨hz.1.1, fun hM => hz.1.2 hM (by simpa using hcrc)⟩,
        fun hf => hz.2 (by simpa using hf) hver⟩) fun found => ?_
    obtain ⟨res, w⟩ := found
    cases res with
    | none =>
      refine Outline.of_fact (φ := w = v ∨ w = ValueNull) (fun _ _ hz => hz.2) fun hw => ?_
      exact (hagain _ _ fun y' => Outline.pure fun _ _ hz => ⟨hz, hw⟩).mono fun _ _ hz => hz.1.1
    | some found =>
      cases found with
      | true => exact Outline.pure fun _ _ hz => ⟨⟨hz.1.1.1, hz.1.1.2.loc.root⟩, Or.inl hz.2⟩
      | false =>
        refine Outline.ite (fun _ => Outline.pure fun _ _ hz => ⟨hz.1.1, hz.2.1⟩) fun hc => ?_
        refine Outline.pure fun _ _ hz => ⟨⟨hz.1.1.1, hz.1.1.2.loc.root⟩, Or.inr ⟨hz.2.1, hz.2.2 ?_⟩⟩
        simpa using hc

/-- `read`, apart from read delegation -/
theorem remoteRead_spec (it : InnerTree) :
    Outline (treeDisc E F M) t (remoteRead E F (E.nodeOf t) k v it)
      (Says t fun f => (Since E f op ∧ Owned t f.view {}) ∧ RootKnown f.view it) fun s =>
        Says t fun f => ((Since E f op ∧ Owned t f.view {}) ∧ RootKnown f.view s.2) ∧
          Answered E M f k v s.1 :=
  Outline.bind (locate_outline (Enduring.since.and .owned) (fun _ hf => hf.1.op_ne) hk it)
    fun y => leafSearch_outline hk y

/-- With read delegation, the result may come from another client of the compute node. -/
theorem read_spec (it : InnerTree) :
    Outline (treeDisc E F M) t (read E F (E.nodeOf t) k v it)
      (Says t fun f => (Since E f op ∧ Owned t f.view {}) ∧ RootKnown f.view it) fun s =>
        Says t fun f => ((Since E f op ∧ Owned t f.view {}) ∧ RootKnown f.view s.2) ∧
          (F.readDelegation = false → Answered E M f k v s.1) := by
  have hroot : ∀ it, Enduring E M t fun f => (Since E f op ∧ Owned t f.view {}) ∧
    RootKnown f.view it := fun it => (Enduring.since.and .owned).and
      (.know fun _ _ hle h => RootKnown.mono h hle)
  refine Outline.ite (fun hF => ?_) fun _ => (remoteRead_spec hk it).post
    fun _ _ _ hz => ⟨hz.1, fun _ => hz.2⟩
  have hno : ∀ p : Prop, F.readDelegation = false → p := fun p h => by
    rw [hF] at h
    cases h
  refine Outline.bind (onLockTable_outline (fun f hf => hf.1.1.op_ne) (hroot it) _ _) fun res =>
    Outline.ite (fun _ => ?_) fun _ => ?_
  · refine Outline.bind (onLockTable_outline (fun f hf => hf.1.1.op_ne) (hroot it) _ _) fun _ => ?_
    exact Outline.pure fun _ _ hz => ⟨hz, hno _⟩
  · refine Outline.bind (remoteRead_spec hk it) fun s => ?_
    refine Outline.bind ((onLockTable_outline (fun f hf => hf.1.1.op_ne) (hroot s.2) _ _).mono
      fun _ _ hz => hz.1) fun _ => ?_
    exact Outline.pure fun _ _ hz => ⟨hz, hno _⟩

end Calls

end DMTree
