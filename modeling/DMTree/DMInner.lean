import DMTree.Verbs

/-!
# The inner index

`DMInner.cc`: the descent to a leaf, with its walk to the right along a level, and the insertion of
records into inner nodes, which splits full nodes and replaces the root. The variables that a function
of the source changes by reference are passed in and returned.
-/

namespace DMTree

open Conc

/-- The compile-time switches of the source. -/
structure Flags where
  /-- `use_cache_mark` -/
  useCache : Bool
  /-- `ENABLE_WRITE_COMBINING` -/
  writeCombining : Bool
  /-- `ENABLE_READ_DELEGATION` -/
  readDelegation : Bool

/-- An assignment to `path[path.size() - 1]` -/
def setLast (f : Record → Record) : List Record → List Record
  | [] => []
  | r :: path => f r :: path

/-- `path[path.size() - 1].addr = a` -/
def setLastAddr (a : Gaddr) (path : List Record) : List Record := setLast ({ · with addr := a }) path

/-- `lock_node`, `lock_table`: repeat the compare-and-swap until it succeeds. -/
def lockWord (w : LockWord) : TreeProg Unit :=
  Prog.loop (fun retry : Nat => do
    let ok ← verb (.cas w)
    if ok then return .inr ()
    else if retry + 1 > 1000000 then Prog.fail (S := TreeSig) .deadlock
    else return .inl (retry + 1)) 0

/-- `get_root_addr` -/
def getRootAddr (it : InnerTree) : TreeProg (Gaddr × InnerTree) :=
  if it.localRootAddr ≠ .Null then return (it.localRootAddr, it)
  else do
    let root ← verb .readRoot
    Prog.assert (S := TreeSig) (root ≠ .Null) .rootNull
    return (root, { it with localRootAddr := root })

section Code

variable (E : Env) (F : Flags)

/-- `inner_search` from the label `inner_node_reread` to a node that is consistent and, at the start
of a path, the root: the node, its address and the client's variables. -/
def readInner (addr : Gaddr) (it : InnerTree) : TreeProg (InnerNode × Gaddr × InnerTree) :=
  Prog.loop (fun x : Gaddr × InnerTree => do
    let node ← verb (.readNode x.1)
    if !node.checkConsistent E.hash then return .inl x
    else if x.2.path.length = 1 ∧ node.hdr.isRoot ≠ true then do
      let r ← getRootAddr { x.2 with localRootAddr := .Null }
      return .inl (r.1, { r.2 with path := setLastAddr r.1 r.2.path })
    else return .inr (node, x)) (addr, it)

/-- `dmcache->insert_cache(path[path.size() - 1], node)`, if the cache is used. -/
def cacheNode (path : List Record) (node : InnerNode) : TreeProg Unit :=
  if F.useCache && node.hdr.nextIsLeaf then do
    let ok ← verb (.insertCache (path.headD {}) node)
    Prog.assert (S := TreeSig) ok .cache
  else return ()

/-- `inner_search`: the address of the right sibling, or the record for the key and whether it leads
to a leaf. -/
def innerSearch (k : Key) (addr : Gaddr) (it : InnerTree) :
    TreeProg ((Gaddr ⊕ (Record × Bool)) × InnerTree) := do
  let x ← readInner E addr it
  let node := x.1
  let it := x.2.2
  if !node.checkHdr k then do
    Prog.assert (S := TreeSig) (node.hdr.rightAddr ≠ .Null) .rightNull
    return (.inl node.hdr.rightAddr, { it with path := setLastAddr node.hdr.rightAddr it.path })
  else do
    cacheNode F it.path node
    return (.inr (node.search E.under k, node.hdr.nextIsLeaf), it)

/-- `find_leaf` -/
def findLeaf (k : Key) (it : InnerTree) : TreeProg (Record × InnerTree) := do
  let r ← getRootAddr it
  let path := [Record.make KeyNull r.1 .Null 0 0]
  Prog.loop (fun x : Gaddr × InnerTree => do
    let y ← innerSearch E F k x.1 x.2
    match y.1 with
    | .inl right => return .inl (right, y.2)
    | .inr (record, nextIsLeaf) =>
      let it := { y.2 with path := record.copy :: y.2.path }
      if nextIsLeaf then do
        Prog.assert (S := TreeSig) (record.capacity > 0) .recordCapacity
        return .inr (record, it)
      else return .inl (record.addr, it)) (r.1, { r.2 with path := path })

/-- `bottom_search` from the label `bottom_node_reread` -/
def readBottom (addr : Gaddr) : TreeProg InnerNode :=
  Prog.loop (fun _ : Unit => do
    let node ← verb (.readNode addr)
    if !node.checkConsistent E.hash then return .inl () else return .inr node) ()

/-- `read_bottom_inner` -/
def readBottomInner (k : Key) (it : InnerTree) : TreeProg (Record × InnerTree) := do
  Prog.assert (S := TreeSig) (it.path.length = 2) .pathSize
  let start := (it.path.getLastD {}).addr
  Prog.loop (fun x : Gaddr × InnerTree => do -- `bottom_search`
    let node ← readBottom E x.1
    if !node.checkHdr k then do
      Prog.assert (S := TreeSig) (node.hdr.rightAddr ≠ .Null) .bottomRightNull
      return .inl (node.hdr.rightAddr,
        { x.2 with path := setLastAddr node.hdr.rightAddr x.2.path })
    else do
      let record := node.search E.under k
      Prog.assert (S := TreeSig) node.hdr.nextIsLeaf .notBottom
      let path :=
        if F.useCache then setLast ({ · with key := node.hdr.minKey, addr := x.1 }) x.2.path
        else x.2.path
      cacheNode F path node
      Prog.assert (S := TreeSig) (record.capacity > 0) .recordCapacity
      return .inr (record, { x.2 with path := record.copy :: path }))
    (start, { it with path := [Record.make KeyNull start .Null 0 0] })

/-- `inner_write` up to the node that covers the key: lock a node, and go on to the right sibling
while the key is not in range. -/
def lockCovering (k : Key) (addr : Gaddr) : TreeProg (Gaddr × InnerNode) :=
  Prog.loop (fun addr : Gaddr => do
    lockWord (.node addr)
    let node ← verb (.readNode addr)
    Prog.assert (S := TreeSig) (node.checkConsistent E.hash) .innerCrc
    if !node.checkHdr k then do
      verb (.release (.node addr))
      return .inl node.hdr.rightAddr
    else return .inr (addr, node)) addr

/-- `inner_write`, the insertion of `update_record` into a bottom node -/
def insertUpdate (r : Record) (node : InnerNode) : TreeProg InnerNode := do
  Prog.assert (S := TreeSig) node.hdr.nextIsLeaf .notBottom
  Prog.assert (S := TreeSig) (node.checkHdr r.key) .updateHdr
  match node.insert E.hash r with
  | none => Prog.fail (S := TreeSig) .updateInsert
  | some node => return node

/-- `inner_write`: the node that covers the key of `inner_record`, and `none` when it took the record
or its contents, still locked, when it has no room. -/
def innerWrite (addr : Gaddr) (innerRecord updateRecord : Record) (isBottom : Bool) :
    TreeProg (Gaddr × Option InnerNode) := do
  let x ← lockCovering E innerRecord.key addr
  let node ← if isBottom then insertUpdate E updateRecord x.2 else pure x.2
  match node.insert E.hash innerRecord with
  | some node => do
    verb (.writeNode .insert x.1 node.unlock)
    return (x.1, none)
  | none => return (x.1, some node)

/-- The two nodes that `node_split` writes and the key that separates them: `none` when one of its
assertions fails. -/
def splitNode (node : InnerNode) (siblingAddr : Gaddr) (r : Record) :
    Option (InnerNode × InnerNode × Key) :=
  let node := node.unlock
  let upper := (node.migRecords.headD {}).key
  let origin := (node.splitOrigin E.hash).setHdr E.hash
    { node.hdr with rightAddr := siblingAddr, maxKey := upper, isRoot := false }
  let sibling := (InnerNode.zero.setHdr E.hash
    { node.hdr with minKey := upper, isRoot := false }).splitSibling E.hash node.migRecords
  match if r.key < upper then origin.insert E.hash r else some origin,
    if upper < r.key then sibling.insert E.hash r else some sibling with
  | some origin, some sibling => some (origin, sibling, upper)
  | _, _ => none

/-- `node_split`: the record for the level above. -/
def nodeSplit (top : Bool) (addr : Gaddr) (node : InnerNode) (r : Record) : TreeProg Record := do
  let siblingAddr ← verb .alloc
  match splitNode E node siblingAddr r with
  | none => Prog.fail (S := TreeSig) .splitInsert
  | some (origin, sibling, upper) => do
    verb (.writeNode .sibling siblingAddr sibling)
    verb (.writeNode (.origin top) addr origin)
    return { r with key := upper, addr := siblingAddr }

/-- The root that `update_root` writes at `addr`. -/
def newRoot (addr : Gaddr) (r : Record) (updateAddr : Gaddr) : Option InnerNode :=
  ((InnerNode.zero.setHdr E.hash { rightAddr := E.stray addr, isRoot := true }).insert E.hash r).bind
    fun node => node.insert E.hash (Record.make KeyNull updateAddr .Null 0 0)

/-- `update_root`; `path[0].addr` is `update_addr` when it is called. -/
def updateRoot (r : Record) (updateAddr : Gaddr) : TreeProg Unit := do
  lockWord .root
  let root ← verb .readRoot
  Prog.assert (S := TreeSig) (updateAddr = root) .rootChanged
  let addr ← verb .alloc
  match newRoot E addr r updateAddr with
  | none => Prog.fail (S := TreeSig) .rootInsert
  | some node => do
    verb (.writeNode .newRoot addr node)
    verb (.writeRoot addr)
    verb (.release .root)

/-- The variables of the loop of `inner_insert`. -/
structure InsertState where
  /-- `path[i - 1]`, `path[i - 2]`, .. -/
  uppers : List Record
  isBottom : Bool
  innerRecord : Record
  fromCache : Bool
  it : InnerTree

/-- `inner_insert` -/
def innerInsert (k : Key) (innerRecord updateRecord : Record) (fromCache : Bool) (it : InnerTree) :
    TreeProg InnerTree :=
  Prog.loop (fun x : InsertState =>
    match x.uppers with
    | [] => return .inr x.it
    | upper :: uppers => do
      let y ← innerWrite E upper.addr x.innerRecord updateRecord x.isBottom
      match y.2 with
      | none => return .inr x.it
      | some node =>
        if x.fromCache then do
          verb (.release (.node y.1))
          let z ← findLeaf E F k x.it
          return .inl { x with uppers := z.2.path.tail, fromCache := false, it := z.2 }
        else do
          let r ← nodeSplit E uppers.isEmpty y.1 node x.innerRecord
          if uppers.isEmpty then updateRoot E r y.1 else pure ()
          return .inl { x with uppers := uppers, isBottom := false, innerRecord := r })
    ⟨it.path.tail, true, innerRecord, fromCache, it⟩

end Code

end DMTree
