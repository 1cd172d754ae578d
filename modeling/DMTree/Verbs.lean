import DMTree.LocalLockTable
import DMTree.Raw.LeafResize

/-!
# The cluster: remote memory and compute nodes

The memory that the verbs of `DMVerbs` access holds four kinds of objects: leaves, fingerprint
tables, inner nodes and the root pointer with its lock. A verb reads or writes one object (or one
entry of a leaf, or one lock word) in one step. Allocation hands out fresh addresses, and objects at
different addresses do not overlap. A verb on an address that holds no object of its kind is never
completed.

Calls of the index cache, accesses to the local copies of fingerprint tables and to the fields of the
local lock table are steps of the compute node the client runs on. A call of the cache is one step: the
runs are those in which the threads of a node do not interleave their calls of `search_cache`,
`insert_cache` and `invalidate`, which the source does not see to. A local copy is read by an
unsynchronised `memcpy`, and what it gets while the copy is being written is left open (`Env.torn`).
-/

namespace DMTree

open Conc

/-- What the code takes from its surroundings. -/
structure Env where
  /-- The hash functions. -/
  hash : Hashes
  /-- `Hash::get_hashed_lock_index` -/
  lockIndex : Key → Nat
  /-- What `InnerNode::search` finds in front of the record array. -/
  under : InnerHeader → Record
  /-- The addresses in the order in which they are allocated. -/
  alloc : Nat → Gaddr
  /-- Allocated addresses are fresh. -/
  alloc_inj : Function.Injective alloc
  alloc_ne_null : ∀ i, alloc i ≠ .Null
  /-- What the uninitialised `right_addr` of the header of a new root at that address holds. -/
  stray : Gaddr → Gaddr
  /-- It is not an address of the tree. -/
  stray_ne : ∀ a i, stray a ≠ alloc i
  /-- Whether the `i`-th call of `adapt_capacity` finds the cache used up. -/
  grow : Nat → Bool
  /-- The cursors of the RDMA buffers in which the `i`-th split puts its images. -/
  rbuf : Nat → Raw.RdmaBuffer
  /-- The bytes in and behind `tmp_fp_buffer` that the `i`-th local read does not overwrite. -/
  junk : Nat → List UInt8 × UInt32
  /-- What the `i`-th local read finds, when it overlaps with a write to the same memory. -/
  torn : Nat → Option FPTable
  /-- The size of the memory of a compute node. -/
  dsmSize : Nat → Nat
  /-- The compute node of a client. -/
  nodeOf : Tid → Nat
  /-- The number of buffers in the pool of an index cache. -/
  poolSize : Nat

/-- Surroundings in which every client has its own compute node with room for one cached node. All
checksums are equal, the fingerprint of a key is its lowest byte, and no local read is disturbed. -/
def Env.plain : Env where
  hash := ⟨fun _ _ => 0, fun _ _ => 0, fun k => .ofNat (k.val * 2 ^ 24)⟩
  lockIndex _ := 0
  under _ := {}
  alloc i := ⟨1, 4096 * (i + 1)⟩
  alloc_inj i j h := by simpa using h
  alloc_ne_null i h := by simp [Gaddr.Null] at h
  stray _ := .Null
  stray_ne a i h := by simp [Gaddr.Null] at h
  grow _ := false
  rbuf _ := ⟨0, 0, 0⟩
  junk _ := ([], 0)
  torn _ := none
  dsmSize _ := 2 ^ 30
  nodeOf t := t + 1
  poolSize := 1

/-- The lock words. -/
inductive LockWord where
  /-- The lock of a leaf: the last word of its fingerprint table. -/
  | table (a : Gaddr)
  /-- The lock of an inner node. -/
  | node (a : Gaddr)
  /-- The lock of the root pointer. -/
  | root
  deriving DecidableEq

/-- The places in the code at which an inner node is written. -/
inductive NodeWrite where
  /-- `inner_write`, after the insertion -/
  | insert
  /-- `node_split`, the new node -/
  | sibling
  /-- `node_split`, the node that is split; `top` when it is the first node of the path -/
  | origin (top : Bool)
  /-- `update_root` -/
  | newRoot
  deriving DecidableEq

/-- The state of a compute node. -/
structure ComputeSide where
  cache : DMCache
  /-- The local copies of fingerprint tables, by their offset in the memory of the node. -/
  localFp : Nat → Option FPTable := fun _ => none
  locks : Nat → LocalLockNode := fun _ => {}

/-- The state of the cluster. -/
structure Cluster where
  leaf : Gaddr → Option Leaf
  table : Gaddr → Option FPTable
  inner : Gaddr → Option InnerNode
  root : Gaddr
  rootLock : Bool := false
  /-- How many addresses have been allocated. -/
  allocs : Nat
  /-- How often `adapt_capacity` has been called. -/
  adapts : Nat := 0
  /-- How often a local copy of a fingerprint table has been read. -/
  localReads : Nat := 0
  node : Nat → ComputeSide

/-- The steps of a client. -/
inductive TreeCmd where
  /-- `cas_sync(w, 0, 1)` -/
  | cas (w : LockWord)
  /-- `write_sync` of zero -/
  | release (w : LockWord)
  | readTable (a : Gaddr)
  | writeTable (a : Gaddr) (t : FPTable)
  | readEntry (a : Gaddr) (i : Nat)
  | writeEntry (a : Gaddr) (i : Nat) (e : Entry)
  /-- `read_sync` of the header and the first `n` entries -/
  | readLeaf (a : Gaddr) (n : Nat)
  | writeLeaf (a : Gaddr) (l : Leaf)
  | readNode (a : Gaddr)
  | writeNode (w : NodeWrite) (a : Gaddr) (n : InnerNode)
  | readRoot
  | writeRoot (a : Gaddr)
  /-- `memory_alloc`, `compute_alloc` -/
  | alloc
  | adaptCapacity (capacity : Nat)
  | searchCache (k : Key)
  /-- `insert_cache`: whether its assertions hold -/
  | insertCache (r : Record) (n : InnerNode)
  | invalidate (k : Key)
  /-- `memcpy` of 64 bytes from the local copy of a table with that capacity -/
  | readLocalFp (a : Gaddr) (capacity : Nat)
  | writeLocalFp (a : Gaddr) (t : FPTable)
  /-- An access to the lock node with index `i`. -/
  | lock (i : Nat) (c : LockCmd)
  deriving DecidableEq

/-- The answers. -/
@[reducible] def TreeCmd.Resp : TreeCmd → Type
  | cas _ => Bool
  | readTable _ => FPTable
  | readEntry _ _ => Entry
  | readLeaf _ _ => Leaf
  | readNode _ => InnerNode
  | readRoot => Gaddr
  | alloc => Gaddr
  | adaptCapacity _ => Nat
  | searchCache _ => Record × Option (List Record)
  | insertCache _ _ => Bool
  | readLocalFp _ _ => FPTable
  | lock _ c => c.Resp
  | _ => Unit

/-- The assertions of the code. -/
inductive TreeErr where
  /-- `assert(root_addr != Gaddr::Null())` in `get_root_addr` -/
  | rootNull
  /-- `assert(record.addr != Gaddr::Null())` in `inner_search` -/
  | rightNull
  /-- `assert(record.addr != Gaddr::Null())` in `bottom_search` -/
  | bottomRightNull
  /-- `assert(record.capacity > 0)` in `find_leaf` and `read_bottom_inner` -/
  | recordCapacity
  /-- `assert(capacity > 0)` in `LeafNode::attach_node` -/
  | attachCapacity
  /-- `assert(next_is_leaf)` in `bottom_search` and `inner_write` -/
  | notBottom
  /-- `assert(path.size() == 2)` in `read_bottom_inner` -/
  | pathSize
  /-- `assert(false)` after 1000000 retries of a lock -/
  | deadlock
  /-- `assert(node->check_consistent())` in `inner_write` -/
  | innerCrc
  /-- `assert(node->check_hdr(update_record.key))` in `inner_write` -/
  | updateHdr
  /-- `assert(node->insert(update_record))` in `inner_write` -/
  | updateInsert
  /-- `assert(node->insert(record))` in `node_split` -/
  | splitInsert
  /-- `assert(path[0].addr == root_addr)` in `update_root` -/
  | rootChanged
  /-- `assert(node->insert(record) && node->insert(init_record))` in `update_root` -/
  | rootInsert
  /-- `assert(fp_table->check_consistent())` in `leaf_insert` -/
  | tableCrc
  /-- `assert(entry->get_version() == path.version)` in `leaf_insert` -/
  | entryVersion
  /-- `assert(entry->insert(key, value))` in `leaf_insert` -/
  | entryInsert
  /-- `assert(fp_table->insert(fp, e_id))`, `assert(entry->insert(..))` in `leaf_resize` -/
  | resizeInsert
  /-- `assert(path.capacity == hdr->capacity)` in `leaf_scan` -/
  | scanCapacity
  /-- The assertions of `DMCache` -/
  | cache
  deriving DecidableEq

/-- The language of the clients. -/
abbrev TreeSig : Sig := ⟨TreeCmd, TreeCmd.Resp, TreeErr⟩

/-- Programs of the clients. -/
abbrev TreeProg (α : Type) := Prog TreeSig α

/-- The zero memory that is read as a table where there is no local copy, and a copy of which only
the first 64 bytes are read, the rest being `junk`. -/
def localImage (junk : List UInt8 × UInt32) (capacity : Nat) : Option FPTable → FPTable
  | none => .zero capacity
  | some t =>
    { t with
      fp := (t.fp.take 56 ++ junk.1 ++ List.replicate capacity 0).take capacity
      crc := if capacity ≤ 48 then t.crc else junk.2 }

namespace Cluster

variable (s : Cluster)

def setLeaf (a : Gaddr) (l : Leaf) : Cluster := { s with leaf := Function.update s.leaf a (some l) }

def setTable (a : Gaddr) (t : FPTable) : Cluster :=
  { s with table := Function.update s.table a (some t) }

def setInner (a : Gaddr) (n : InnerNode) : Cluster :=
  { s with inner := Function.update s.inner a (some n) }

def setCache (i : Nat) (c : DMCache) : Cluster :=
  { s with node := Function.update s.node i { s.node i with cache := c } }

/-- What lies in the memory of the compute node `i` where `get_local_fp_buffer` expects the copy of the
table `a`. It looks at the offset only: a table whose primary has that offset lies in the same
place. -/
def localTable (i : Nat) (a : Gaddr) : Option FPTable :=
  (s.table ⟨i, a.offset⟩).or ((s.node i).localFp a.offset)

/-- A copy of a table at the offset `o` of the memory of the compute node `i`. -/
def setCopy (i o : Nat) (t : FPTable) : Cluster :=
  { s with
    node := Function.update s.node i
      { s.node i with localFp := Function.update (s.node i).localFp o (some t) } }

/-- Overwrite what lies in the place of the table `a`. -/
def setLocalFp (i : Nat) (a : Gaddr) (t : FPTable) : Cluster :=
  if (s.table ⟨i, a.offset⟩).isSome then s.setTable ⟨i, a.offset⟩ t else s.setCopy i a.offset t

def setLock (i j : Nat) (n : LocalLockNode) : Cluster :=
  { s with
    node := Function.update s.node i
      { s.node i with locks := Function.update (s.node i).locks j n } }

/-- Whether a lock word is set, `none` when there is no such word. -/
def lockBit : LockWord → Option Bool
  | .table a => (s.table a).map (·.lock)
  | .node a => (s.inner a).map (·.lock)
  | .root => some s.rootLock

/-- Write a lock word. -/
def setLockBit (b : Bool) : LockWord → Cluster
  | .table a => { s with table := Function.update s.table a ((s.table a).map ({ · with lock := b })) }
  | .node a => { s with inner := Function.update s.inner a ((s.inner a).map ({ · with lock := b })) }
  | .root => { s with rootLock := b }

end Cluster

/-- What `leaf_search` on the compute node `i` copies from the place of the table `a`. -/
def localRead (E : Env) (s : Cluster) (i : Nat) (a : Gaddr) (capacity : Nat) : FPTable :=
  localImage (E.junk s.localReads) capacity ((E.torn s.localReads).or (s.localTable i a))

/-- The meaning of the steps. Each access to an object of the remote memory and each call of the index
cache takes effect at one instant. -/
def treeMachine (E : Env) : Machine TreeSig Cluster where
  exec t c s :=
    match c with
    | .cas w => (s.lockBit w).map fun b => if b then (false, s) else (true, s.setLockBit true w)
    | .release w => (s.lockBit w).map fun _ => ((), s.setLockBit false w)
    | .readTable a => (s.table a).map fun x => (x, s)
    | .writeTable a x => some ((), s.setTable a x)
    | .readEntry a i => (s.leaf a).bind fun l => (l.entries[i]?).map fun e => (e, s)
    | .writeEntry a i e => (s.leaf a).map fun l =>
        ((), s.setLeaf a { l with entries := l.entries.set i e })
    | .readLeaf a n => (s.leaf a).map fun l => ({ l with entries := l.entries.take n }, s)
    | .writeLeaf a l => some ((), s.setLeaf a l)
    | .readNode a => (s.inner a).map fun n => (n, s)
    | .writeNode _ a n => some ((), s.setInner a n)
    | .readRoot => some (s.root, s)
    | .writeRoot a => some ((), { s with root := a })
    | .alloc => some (E.alloc s.allocs, { s with allocs := s.allocs + 1 })
    | .adaptCapacity c => some (adaptCapacity (E.grow s.adapts) c, { s with adapts := s.adapts + 1 })
    | .searchCache k =>
      let r := (s.node (E.nodeOf t)).cache.searchCache E.hash E.under k
      some (r.1, s.setCache (E.nodeOf t) r.2)
    | .insertCache r n =>
      match (s.node (E.nodeOf t)).cache.insertCache r n with
      | none => some (false, s)
      | some c => some (true, s.setCache (E.nodeOf t) c)
    | .invalidate k =>
      some ((), s.setCache (E.nodeOf t) ((s.node (E.nodeOf t)).cache.invalidate k))
    | .readLocalFp a c =>
      some (localRead E s (E.nodeOf t) a c, { s with localReads := s.localReads + 1 })
    | .writeLocalFp a x => some ((), s.setLocalFp (E.nodeOf t) a x)
    | .lock i c => (((s.node (E.nodeOf t)).locks i).exec c).map fun r =>
        (r.1, s.setLock (E.nodeOf t) i r.2)

/-- A single step. -/
def verb (c : TreeCmd) : TreeProg c.Resp := Prog.cmd (S := TreeSig) c

/-- A function of the lock table, applied to the lock node with index `i`. -/
def onLockTable (i : Nat) {α : Type} (p : LockProg α) : TreeProg α :=
  p.lift (fun c => verb (.lock i c)) Empty.elim

end DMTree
