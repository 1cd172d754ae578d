import DMTree.LeafNode

/-!
# The index cache of a compute node

`DMCache.cc`. A skip list of cache entries, ordered by key; an entry points to a node buffer that
holds a copy of a bottom inner node, or to nothing. Buffers that no entry points to are in
`cache_pool`; `fifo_evict_pool` remembers the order in which buffers were filled. An entry is never
removed from the skip list.

A call is one step here. A function that fails one of its assertions answers `none`.
-/

namespace DMTree

/-- `CacheEntry`; a node pointer is the number of its buffer. -/
structure CacheEntry where
  key : Key
  node : Option Nat
  remoteAddr : Gaddr
  deriving DecidableEq

/-- `DMCache` -/
structure DMCache where
  /-- The skip list, greatest key first. -/
  skiplist : List CacheEntry := []
  skipListCount : Nat := 0
  freeNodeCount : Int
  cachePool : List Nat
  fifoEvictPool : List Nat := []
  /-- The contents of the buffers. -/
  buffer : Nat → InnerNode := fun _ => .zero

namespace DMCache

/-- The constructor, for `all_node_num - 1 = poolSize` buffers. -/
def init (poolSize : Nat) : DMCache where
  freeNodeCount := poolSize
  cachePool := List.range poolSize

variable (c : DMCache)

/-- `iter.Seek`: the entry with the greatest key up to `k`. -/
def seek (k : Key) : Option CacheEntry := c.skiplist.find? fun e => decide (e.key ≤ k)

/-- `val->node = p` for the entry of a key. -/
def setNode (k : Key) (p : Option Nat) : DMCache :=
  { c with skiplist := c.skiplist.map fun e => if e.key = k then { e with node := p } else e }

/-- `invalidate` -/
def invalidate (k : Key) : DMCache :=
  match c.seek k with
  | none => c
  | some e =>
    match e.node with
    | none => c
    | some b =>
      { c.setNode e.key none with
        freeNodeCount := c.freeNodeCount + 1, cachePool := c.cachePool ++ [b] }

/-- `evict_one`: the buffer it unlinks, if any. -/
def evictOne : Option (Option Nat × DMCache) :=
  match c.fifoEvictPool with
  | [] => none -- `assert(retry_count++ < skipList_count)` fails in the end
  | b :: fifo =>
    match c.seek (c.buffer b).hdr.minKey with
    | none => none -- `assert(0)`
    | some e =>
      match e.node with
      | none => some (none, { c with fifoEvictPool := fifo })
      | some b' =>
        some (some b', { c.setNode e.key none with
          fifoEvictPool := fifo, freeNodeCount := c.freeNodeCount + 1 })

/-- The loop of `alloc_node_cache` around `evict_one`, with the retries that are left. -/
def evictLoop : Nat → DMCache → Option (Nat × DMCache)
  | retries, c =>
    match c.evictOne with
    | none => none
    | some (some b, c') => some (b, c')
    | some (none, c') =>
      match retries with
      | 0 => none -- `assert(retry_count++ < skipList_count)`
      | n + 1 => evictLoop n c'

/-- `alloc_node_cache` -/
def allocNodeCache : Option (Nat × DMCache) :=
  let c' := { c with freeNodeCount := c.freeNodeCount - 1 }
  if c.freeNodeCount ≤ 0 then evictLoop c.skipListCount c'
  else
    match c.cachePool with
    | [] => none -- `assert(retry_count++ < skipList_count)` fails in the end
    | b :: pool => some (b, { c' with cachePool := pool })

/-- The part of `insert_cache` that links the filled buffer `b`. -/
def link (r : Record) (b : Nat) : DMCache :=
  match c.skiplist.find? fun e => decide (e.key = r.key) with
  | none =>
    { c with
      skiplist := c.skiplist.orderedInsert (fun e e' => e'.key ≤ e.key) ⟨r.key, some b, r.addr⟩
      skipListCount := c.skipListCount + 1
      fifoEvictPool := c.fifoEvictPool ++ [b] }
  | some e =>
    if e.node.isNone then
      { c.setNode r.key (some b) with fifoEvictPool := c.fifoEvictPool ++ [b] }
    else { c with freeNodeCount := c.freeNodeCount + 1, cachePool := c.cachePool ++ [b] }

/-- `insert_cache` -/
def insertCache (r : Record) (node : InnerNode) : Option DMCache :=
  match c.allocNodeCache with
  | none => none
  | some (b, c') => some ({ c' with buffer := Function.update c'.buffer b node }.link r b)

/-- `search_cache`: the record for the key, with address `Null` when it is not cached, and what is
assigned to `path` (last element first). -/
def searchCache (H : Hashes) (under : InnerHeader → Record) (k : Key) :
    (Record × Option (List Record)) × DMCache :=
  match c.seek k with
  | none => (({}, none), c)
  | some e =>
    match e.node with
    | none => (({}, none), c)
    | some b =>
      let node := c.buffer b
      let record := node.search under k
      let upper : Record := { valid := true, key := node.hdr.minKey, addr := e.remoteAddr }
      if record.capacity == 0 || !node.checkHdr k || !node.checkConsistent H ||
          !node.hdr.nextIsLeaf then
        let record := { record with addr := .Null }
        ((record, some [record.copy, upper]), c.invalidate k)
      else ((record, some [record.copy, upper]), c)

/-! ## Sequences of calls -/

/-- The calls of the cache. -/
inductive Call where
  | insertCache (r : Record) (n : InnerNode)
  | searchCache (k : Key)
  | invalidate (k : Key)

/-- An inserted node is filed under its first key. -/
def Call.Filed : Call → Prop
  | insertCache r n => n.hdr.minKey = r.key
  | searchCache _ => True
  | invalidate _ => True

/-- One call; `none` when it fails an assertion. -/
def exec (H : Hashes) (under : InnerHeader → Record) (c : DMCache) : Call → Option DMCache
  | .insertCache r n => c.insertCache r n
  | .searchCache k => some (c.searchCache H under k).2
  | .invalidate k => some (c.invalidate k)

/-- Calls, one at a time. -/
def run (H : Hashes) (under : InnerHeader → Record) (c : DMCache) (calls : List Call) :
    Option DMCache := calls.foldlM (exec H under) c

end DMCache

/-- `adapt_capacity`; `grow` says whether the cache is nearly used up. -/
def adaptCapacity (grow : Bool) (capacity : Nat) : Nat :=
  if grow then min maxNodeCapacity (capacity * 2) else capacity

end DMTree
