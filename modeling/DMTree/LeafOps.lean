import DMTree.DMInner

/-!
# Leaf operations and the calls of a client

`DMTree.cc`. A call finds a record for its key, from the index cache or by a descent, and works on
the leaf the record leads to. The record may be out of date: it carries the version the leaf had, and
a leaf whose fingerprint table has another version is looked up again.
-/

namespace DMTree

open Conc

section Code

variable (E : Env) (F : Flags)

/-- `LeafNode::attach_node` -/
def attachNode (capacity : Nat) : TreeProg Unit :=
  Prog.assert (S := TreeSig) (capacity > 0) .attachCapacity

/-- What a call knows about the leaf it works on. -/
structure LeafPath where
  /-- The record `path`; `addr` is its address. -/
  path : Record
  fromCache : Bool
  isSyncLeaf : Bool
  it : InnerTree

/-- The record of a leaf is out of date: read the bottom node again if the record came from the
cache and that has not been tried yet, otherwise descend from the root. The point operations
`invalidate` the cached node before. -/
def findAgain (invalidates : Bool) (k : Key) (x : LeafPath) : TreeProg LeafPath :=
  if x.fromCache && !x.isSyncLeaf then do
    if invalidates then verb (.invalidate k) else pure ()
    let r ← readBottomInner E F k x.it
    attachNode r.1.capacity
    return ⟨r.1, true, true, r.2⟩
  else do
    let r ← findLeaf E F k x.it
    attachNode r.1.capacity
    return ⟨r.1, false, x.isSyncLeaf, r.2⟩

/-- The start of a call: `search_cache` if the cache is used, and `find_leaf` if that has no record. -/
def locate (k : Key) (it : InnerTree) : TreeProg LeafPath := do
  let hit ← if F.useCache then verb (.searchCache k) else pure ({}, none)
  let it := { it with path := hit.2.getD it.path }
  if F.useCache && hit.1.addr ≠ .Null then return ⟨hit.1, true, false, it⟩
  else do
    let r ← findLeaf E F k it
    return ⟨r.1, false, false, r.2⟩

/-- The slots whose fingerprint is `f`, in order. -/
def matching (t : FPTable) (f : UInt8) (capacity : Nat) : List Nat :=
  (t.fp.take capacity).findIdxs (· == f)

/-! ## `leaf_search` -/

/-- The loop of `leaf_search` over the slots with the fingerprint of the key: the record is out of
date, or the key is found, or it is not. `value` is the caller's variable. -/
def searchSlots (k : Key) (path : Record) : List Nat → Value → TreeProg (Option Bool × Value)
  | [], value => return (some false, value)
  | i :: slots, value => do
    let entry ← verb (.readEntry path.addr i)
    if entry.version ≠ path.version then return (none, value)
    else
      match entry.search k with
      | some v => return (some true, v)
      | none => searchSlots k path slots ValueNull

/-- The variables of the loop of `leaf_search`. -/
structure SearchState where
  leaf : LeafPath
  fromLocalFp : Bool
  value : Value

/-- `leaf_search`, reading of the fingerprint table: from the local copy, if there is one and it is
to be used, otherwise from remote memory. -/
def readFp (me : Nat) (path : Record) (fromLocalFp : Bool) : TreeProg (FPTable × Bool) := do
  let copy ← verb (.readLocalFp path.fpAddr path.capacity)
  if (copy.fp[0]?).getD 0 = 0 ∨ fromLocalFp = false ∨ path.fpAddr.nodeID = 0 then do
    let table ← verb (.readTable path.fpAddr)
    if table.checkConsistent E.hash ∧ path.fpAddr.nodeID ≠ me ∧ path.fpAddr.nodeID ≠ 0 then
      verb (.writeLocalFp path.fpAddr table)
    else pure ()
    return (table, false)
  else return (copy, true)

/-- `leaf_search`: the value of the key in the caller's variable. -/
def leafSearch (me : Nat) (k : Key) (x : LeafPath) (value : Value) :
    TreeProg (Value × InnerTree) := do
  attachNode x.path.capacity
  Prog.loop (fun x : SearchState => do
    let path := x.leaf.path
    let fp ← readFp E me path x.fromLocalFp
    if !fp.1.checkConsistent E.hash then return .inl { x with fromLocalFp := false }
    else if fp.1.version ≠ path.version then do
      let leaf ← findAgain E F true k x.leaf
      return .inl { x with leaf := leaf, fromLocalFp := false }
    else do
      let found ← searchSlots k path (matching fp.1 (calKeyFp E.hash k) path.capacity) x.value
      match found.1 with
      | none => do
        let leaf ← findAgain E F true k x.leaf
        return .inl ⟨leaf, false, found.2⟩
      | some true => return .inr (found.2, x.leaf.it)
      | some false =>
        if fp.2 then return .inl ⟨x.leaf, false, found.2⟩
        else return .inr (found.2, x.leaf.it)) ⟨x, true, value⟩

/-! ## `leaf_insert` and `leaf_resize` -/

/-- `local_lock_table->get_combining_value`, if write combining is on. -/
def combine (k : Key) (v : Value) : TreeProg Value :=
  if F.writeCombining then onLockTable (E.lockIndex k) (getCombiningValue k v) else return v

/-- The loop of `leaf_insert` over the slots with the fingerprint of the key: whether one of them
took the value, and the value it was to take. -/
def insertSlots (k : Key) (path : Record) : List Nat → Value → TreeProg (Bool × Value)
  | [], v => return (false, v)
  | i :: slots, v => do
    let entry ← verb (.readEntry path.addr i)
    Prog.assert (S := TreeSig) (entry.version = path.version) .entryVersion
    let v ← combine E F k v
    match entry.insert k v with
    | some entry => do
      verb (.writeEntry path.addr i entry)
      verb (.release (.table path.fpAddr))
      return (true, v)
    | none => insertSlots k path slots v

/-- The writes of `leaf_resize`, the current leaf last. -/
def writeResized (addr fpAddr siblingAddr siblingFpAddr : Gaddr) (x : Resized) : TreeProg Unit := do
  verb (.writeLeaf siblingAddr x.sibling)
  verb (.writeTable siblingFpAddr x.siblingTable)
  verb (.writeLeaf addr x.current)
  verb (.writeTable fpAddr x.currentTable)

/-- `leaf_resize` up to `inner_insert`: the record of the sibling and the new record of the leaf. -/
def splitLeaf (k : Key) (path : Record) (v : Value) : TreeProg (Record × Record) := do
  let v ← combine E F k v
  let leaf ← verb (.readLeaf path.addr path.capacity)
  let siblingCapacity ← verb (.adaptCapacity path.capacity)
  let siblingAddr ← verb .alloc
  let siblingFpAddr ← verb .alloc
  match resizeLeaf E.hash leaf ⟨k, v⟩ path.capacity siblingCapacity siblingAddr siblingFpAddr with
  | none => Prog.fail (S := TreeSig) .resizeInsert
  | some x => do
    writeResized path.addr path.fpAddr siblingAddr siblingFpAddr x
    return (.make x.sibling.hdr.minKey siblingAddr siblingFpAddr siblingCapacity
        x.sibling.hdr.version,
      .make x.current.hdr.minKey path.addr path.fpAddr path.capacity x.current.hdr.version)

/-- `leaf_resize` -/
def leafResize (k : Key) (x : LeafPath) (v : Value) : TreeProg InnerTree := do
  let r ← splitLeaf E F k x.path v
  innerInsert E F k r.1 r.2 x.fromCache x.it

/-- `leaf_insert` in the free slot `i` of the table, whose contents are now `table`. -/
def insertNew (k : Key) (path : Record) (v : Value) (i : Nat) (table : FPTable) : TreeProg Unit := do
  let v ← combine E F k v
  match Entry.insert { version := path.version } k v with
  | none => Prog.fail (S := TreeSig) .entryInsert
  | some entry => do
    verb (.writeEntry path.addr i entry)
    verb (.writeTable path.fpAddr table.unlock)

/-- `leaf_insert` once the leaf is locked and its version is that of the record. -/
def insertLocked (k : Key) (v : Value) (x : LeafPath) (table : FPTable) : TreeProg InnerTree := do
  let fp := calKeyFp E.hash k
  let y ← insertSlots E F k x.path (matching table fp x.path.capacity) v
  if y.1 then return x.it
  else
    match table.insert E.hash fp with
    | some (i, table) => do
      insertNew E F k x.path y.2 i table
      return x.it
    | none => leafResize E F k x y.2

/-- `leaf_insert` -/
def leafInsert (k : Key) (v : Value) (x : LeafPath) : TreeProg InnerTree := do
  attachNode x.path.capacity
  let y ← Prog.loop (fun x : LeafPath => do
    lockWord (.table x.path.fpAddr)
    let table ← verb (.readTable x.path.fpAddr)
    Prog.assert (S := TreeSig) (table.checkConsistent E.hash) .tableCrc
    if table.version ≠ x.path.version then do
      verb (.release (.table x.path.fpAddr))
      let y ← findAgain E F true k x
      return .inl y
    else return .inr (x, table)) x
  insertLocked E F k v y.1 y.2

/-! ## `leaf_scan` -/

/-- `read_table`: read until all entries that are read have the same version. -/
def readEntries (addr : Gaddr) (entryNum capacity : Nat) : TreeProg Leaf :=
  Prog.loop (fun _ : Unit => do
    let leaf ← verb (.readLeaf addr (if entryNum < capacity then entryNum + 1 else entryNum))
    match leaf.entries with
    | [] => return .inr leaf
    | e :: es =>
      if es.all fun e' => e'.version == e.version then return .inr leaf else return .inl ()) ()

/-- The variables of the loop of `leaf_scan`. -/
structure ScanState where
  addr : Gaddr
  leaf : LeafPath
  headNode : Bool
  len : Int
  results : List EntryPos

/-- The pairs of a leaf that `leaf_scan` reports. -/
def reported (start : Key) (entryNum : Nat) (leaf : Leaf) : List EntryPos :=
  ((leaf.entries.take entryNum).filter fun e => e.valid && decide (start ≤ e.key)).map Entry.pos

/-- `leaf_scan` from `start` to `stop`: the results in the order in which they are found. -/
def leafScan (start stop : Key) (len : Int) (x : LeafPath) : TreeProg (List EntryPos × InnerTree) := do
  attachNode x.path.capacity
  Prog.loop (fun x : ScanState => do
    let path := x.leaf.path
    if x.addr = .Null ∨ x.len ≤ 0 then return .inr (x.results, x.leaf.it)
    else do
      let table ← verb (.readTable path.fpAddr)
      if !table.checkConsistent E.hash then return .inl x
      else if x.headNode ∧ table.version ≠ path.version then do
        let leaf ← findAgain E F false start x.leaf
        return .inl { x with addr := leaf.path.addr, leaf := leaf }
      else do
        let leaf ← readEntries x.addr table.getEntryNum path.capacity
        if x.headNode ∧ leaf.hdr.version ≠ path.version then do
          let leaf ← findAgain E F false start x.leaf
          return .inl { x with addr := leaf.path.addr, leaf := leaf }
        else do
          Prog.assert (S := TreeSig) (path.capacity = leaf.hdr.capacity) .scanCapacity
          if stop < leaf.hdr.minKey then return .inr (x.results, x.leaf.it)
          else do
            let found := reported start table.getEntryNum leaf
            let results := x.results ++ found
            if leaf.hdr.rightAddr = .Null then return .inr (results, x.leaf.it)
            else do
              attachNode leaf.hdr.rightCapacity
              let path := { path with
                capacity := leaf.hdr.rightCapacity, fpAddr := leaf.hdr.rightFpAddr }
              return .inl ⟨leaf.hdr.rightAddr, { x.leaf with path := path }, false,
                x.len - found.length, results⟩) ⟨x.path.addr, x, true, len, []⟩

/-! ## The calls -/

/-- `write`, apart from write combining. -/
def remoteWrite (k : Key) (v : Value) (it : InnerTree) : TreeProg InnerTree := do
  let x ← locate E F k it
  leafInsert E F k v x

/-- `DMTree::write` -/
def write (k : Key) (v : Value) (it : InnerTree) : TreeProg InnerTree :=
  if F.writeCombining then do
    let lockRes ← onLockTable (E.lockIndex k) (acquireLocalWriteLock k v)
    if lockRes.1 && !lockRes.2 then do -- write_handover
      onLockTable (E.lockIndex k) (releaseLocalWriteLock lockRes)
      return it
    else do
      let it ← remoteWrite E F k v it
      onLockTable (E.lockIndex k) (releaseLocalWriteLock lockRes)
      return it
  else remoteWrite E F k v it

/-- `read`, apart from read delegation. -/
def remoteRead (me : Nat) (k : Key) (value : Value) (it : InnerTree) :
    TreeProg (Value × InnerTree) := do
  let x ← locate E F k it
  leafSearch E F me k x value

/-- `DMTree::read` of a client on the compute node `me`; `value` is what the caller's variable holds
before the call. -/
def read (me : Nat) (k : Key) (value : Value) (it : InnerTree) : TreeProg (Value × InnerTree) :=
  if F.readDelegation then do
    let lockRes ← onLockTable (E.lockIndex k) (acquireLocalReadLock k)
    if lockRes.1 && !lockRes.2 then do -- read_handover
      let out ← onLockTable (E.lockIndex k) (releaseLocalReadLock lockRes false value)
      return (out.2, it)
    else do
      let r ← remoteRead E F me k value it
      let out ← onLockTable (E.lockIndex k) (releaseLocalReadLock lockRes false r.1)
      return (out.2, r.2)
  else remoteRead E F me k value it

/-- `DMTree::scan`, with the results it finds. -/
def scan (start stop : Key) (len : Int) (it : InnerTree) : TreeProg (List EntryPos × InnerTree) := do
  let x ← locate E F start it
  leafScan E F start stop len x

/-- The calls of a client. -/
inductive TreeOp where
  | write (k : Key) (v : Value)
  | read (k : Key) (value : Value)
  | scan (start stop : Key) (len : Int)
  deriving DecidableEq

/-- What the calls return. -/
inductive TreeRes where
  | done
  | value (v : Value)
  | results (l : List EntryPos)
  deriving DecidableEq

/-- The clients. -/
abbrev treeClient : Client TreeSig where
  Op := TreeOp
  Res := TreeRes
  Loc := InnerTree
  code t op it :=
    match op with
    | .write k v => do
      let it ← write E F k v it
      return (.done, it)
    | .read k value => do
      let r ← read E F (E.nodeOf t) k value it
      return (.value r.1, r.2)
    | .scan start stop len => do
      let r ← scan E F start stop len it
      return (.results r.1, r.2)

/-- Histories of the calls. -/
abbrev TreeLog := Log (treeClient E F)

/-- Configurations of the clients. -/
abbrev TreeConfig := Config (treeClient E F) Cluster

end Code

/-! ## `init_root_node` -/

section Init

variable (E : Env)

/-- The address of the first root. -/
def rootAddr : Gaddr := E.alloc 0

/-- The head leaf. -/
def headAddr : Gaddr := E.alloc 1

/-- The fingerprint table of the head leaf. -/
def headFpAddr : Gaddr := E.alloc 2

/-- The first root: its only record leads to the head leaf. -/
def initRoot : InnerNode :=
  ((InnerNode.zero.setHdr E.hash
    { rightAddr := E.stray (rootAddr E), isRoot := true, nextIsLeaf := true }).insert E.hash
      (.make KeyNull (headAddr E) (headFpAddr E) leafNodeCapacity 0)).getD .zero

/-- The head leaf is empty. -/
def initLeaf (right : Gaddr) : Leaf where
  hdr := { capacity := leafNodeCapacity, rightAddr := .Null, rightFpAddr := right }
  entries := List.replicate leafNodeCapacity {}

/-- The state that `init_root_node` of a client on the compute node `me` leaves. -/
def initCluster (me : Nat) : Cluster where
  leaf := Function.update (fun _ => none) (headAddr E) (some (initLeaf (E.stray (headAddr E))))
  table := Function.update (fun _ => none) (headFpAddr E)
    (some ((FPTable.zero leafNodeCapacity).setConsistent E.hash))
  inner := Function.update (fun _ => none) (rootAddr E) (some (initRoot E))
  root := rootAddr E
  allocs := 3
  node i :=
    if i = me then
      { cache := ((DMCache.init E.poolSize).insertCache
          (.make KeyNull (rootAddr E) (headFpAddr E) leafNodeCapacity 0) (initRoot E)).getD
            (DMCache.init E.poolSize) }
    else { cache := DMCache.init E.poolSize }

/-- No call has been made. -/
def treeInit (F : Flags) (me : Nat) : TreeConfig E F := ⟨initCluster E me, [], fun _ => .idle {}⟩

end Init

end DMTree
