import DMTree.Conc.Outline
import DMTree.Conc.History
import DMTree.Proofs.NodeSplitProofs
import DMTree.Proofs.LeafNodeProofs
import DMTree.Proofs.DMCacheProofs

/-!
# The tree as a shared data structure

The clients share one abstract object, the `TreeView`: the leaves with their pairs, and for every
level of the index one sorted list of records that covers all keys. The inner nodes of a level are
slices of its list, so that a split of a node leaves the list alone. `TreeInv` ties a state of the
cluster to the view, and `TreeRel` bounds what a step of one client may change of it.

A leaf that is split is published in two steps: first its table gets the next version, and only later
the index gets the new records. In between, no record with the current version of the leaf exists, so
that no client can work on it.
-/

namespace DMTree

open Conc Segments

/-- A leaf and its fingerprint table. -/
structure LeafView where
  /-- The address of the table. -/
  tab : Gaddr
  min : Key
  cap : Nat
  /-- The leaf as it stands in memory. -/
  max : Key
  ver : Nat
  right : Option Gaddr
  kv : List EntryPos
  /-- The table as it stands in memory: its fingerprints and its version. -/
  fps : List UInt8
  tver : Nat
  /-- The end of the range that goes with the version of the table. -/
  pmax : Key
  /-- The client that holds the lock. -/
  own : Option Tid

/-- What the index knows about a leaf. -/
inductive Status where
  /-- It has not been entered yet. -/
  | fresh
  /-- Its record has the version of its table. -/
  | listed
  /-- It has been rewritten for a split that made the leaf `s`, but its table has not. -/
  | moving (s : Gaddr)
  /-- The client `t` has split it and has not yet entered the new leaf `s`. -/
  | opened (t : Tid) (s : Gaddr)
  /-- Its range is empty and its record has been replaced. -/
  | orphan
  deriving DecidableEq

/-- No record with the current version of the leaf exists. -/
def Status.closed : Status → Bool
  | opened _ _ => true
  | orphan => true
  | _ => false

/-- The new leaf of a split that is not finished. -/
def Status.partner : Status → Option Gaddr
  | moving s => some s
  | opened _ s => some s
  | _ => none

/-- An inner node that can be reached: its level, counted from the bottom, and its first key. -/
structure NodeView where
  lev : Nat
  min : Key
  deriving DecidableEq

/-- The abstract tree, and who is doing what to it. -/
structure TreeView where
  leaf : Gaddr → Option LeafView
  /-- The leaves in the order of their right links. -/
  chain : List Gaddr
  st : Gaddr → Status
  inner : Gaddr → Option NodeView
  /-- The records of a level. -/
  lvl : Nat → List Record
  /-- The level of the root. -/
  top : Nat
  /-- The client that holds the lock of an inner node. -/
  iown : Gaddr → Option Tid
  /-- The client that has split off an inner node and has not yet entered it one level above. -/
  ipend : Gaddr → Option Tid
  /-- The client that holds the lock of the root pointer. -/
  rown : Option Tid
  /-- The client that has split the root and has not yet replaced it. -/
  rtok : Option Tid
  /-- The client that has allocated an address and not yet linked it. -/
  priv : Gaddr → Option Tid
  /-- The writes in the order in which they took effect, with the calls they belong to. -/
  eff : List (Nat × EntryPos)

/-- The client that holds the lock of the leaf `a`. -/
def TreeView.lown (g : TreeView) (a : Gaddr) : Option Tid := (g.leaf a).bind (·.own)

/-- The key is in a slot that has a fingerprint. While its leaf is being split, its fingerprint is in
the table of before. -/
def TreeView.Stored (H : Hashes) (g : TreeView) (k : Key) : Prop :=
  ∃ (a : Gaddr) (x : LeafView) (i : Nat), g.leaf a = some x ∧ i < x.fps.length ∧
    (x.kv[i]?).map EntryPos.key = some k ∧ ∀ b y s, g.leaf b = some y → g.st b = .moving s →
      a = b ∨ a = s → calKeyFp H k ∈ y.fps

/-- The tree holds a pair. -/
def TreeView.Has (g : TreeView) (q : EntryPos) : Prop := ∃ a x, g.leaf a = some x ∧ q ∈ x.kv

/-- What a run is assumed to satisfy, apart from what the code sees to. -/
structure Mode where
  /-- A node is cached under its first key. -/
  keyed : Prop := False
  /-- When the first node of a path is split it is a root. -/
  rooted : Prop := False
  /-- Calls are for keys below `KeyMax`. -/
  bounded : Prop := False
  /-- What is copied of a local table passes the check only if it is the whole table. -/
  exact : Prop := False

/-! ## What clients know -/

/-- What a client knows about the record `r` it has found for the key `k`, however old it is. -/
structure SnapRec (g : TreeView) (r : Record) (k : Key) : Prop where
  leaf : ∃ x, g.leaf r.addr = some x ∧ x.tab = r.fpAddr ∧ x.cap = r.capacity ∧ x.min = r.key ∧
    0 < x.cap ∧ r.version ≤ x.tver ∧ ((g.st r.addr).closed = true → r.version < x.tver) ∧
    (r.version = x.tver → k < x.pmax)
  indexed : g.st r.addr ≠ .fresh
  key_le : r.key ≤ k
  lt : k < KeyMax

/-- A copy of an inner node that was taken at some time. -/
structure SnapNode (E : Env) (g : TreeView) (n : InnerNode) : Prop where
  search : n.hdr.nextIsLeaf = true → ∀ k, n.checkHdr k = true →
    SnapRec g (n.search E.under k) k ∧ n.hdr.minKey ≤ (n.search E.under k).key
  child : n.hdr.nextIsLeaf = false → ∀ r ∈ n.recs, ∃ ℓ, g.inner r.addr = some ⟨ℓ, r.key⟩
  right : n.hdr.maxKey < KeyMax → ∃ ℓ, g.inner n.hdr.rightAddr = some ⟨ℓ, n.hdr.maxKey⟩

/-- How the view evolves, as far as old knowledge is concerned. -/
structure TreeView.Le (g g' : TreeView) : Prop where
  leaf : ∀ a x, g.leaf a = some x → ∃ x', g'.leaf a = some x' ∧ x'.tab = x.tab ∧ x'.min = x.min ∧
    x'.cap = x.cap ∧ (x.tver < x'.tver ∨
      x'.tver = x.tver ∧ x'.pmax = x.pmax ∧ ((g'.st a).closed = true → (g.st a).closed = true))
  indexed : ∀ a, g.st a ≠ .fresh → g'.st a ≠ .fresh
  inner : ∀ a i, g.inner a = some i → g'.inner a = some i

/-! ## The leaves -/

/-- The pairs of a leaf and its fingerprints, apart from where they are stored. -/
structure LeafView.Ok (H : Hashes) (x : LeafView) (s : Status) : Prop where
  cap_pos : 0 < x.cap
  cap_le : x.cap ≤ maxNodeCapacity
  min_le : x.min ≤ x.max
  max_le : x.max ≤ KeyMax
  keys : (x.kv.map EntryPos.key).Nodup
  range : ∀ p ∈ x.kv, x.min ≤ p.key ∧ p.key < x.max
  /-- A leaf is at rest, or its holder has filled a slot and not yet set the fingerprint. -/
  rest : (∀ b, s ≠ .moving b) → x.ver = x.tver ∧ x.max = x.pmax ∧
    (x.fps = x.kv.map (fun p => calKeyFp H p.key) ∨ x.own.isSome = true ∧ ∃ kv p,
      x.kv = kv ++ [p] ∧ x.fps = kv.map fun p => calKeyFp H p.key)
  /-- Between the two writes of a split the table is full. -/
  moving : ∀ b, s = .moving b → x.ver = x.tver + 1 ∧ x.fps.length = x.cap ∧ x.own.isSome = true
  /-- A leaf other than the first one keeps the pair it starts with, and at least half of the
  others. -/
  first : KeyNull < x.min → x.min < x.max → x.min ∈ x.kv.map EntryPos.key ∧
    (x.cap + 1) / 2 ≤ x.fps.length

/-- The header of a leaf that ends at `max` leads to the leaf right of it, if there is one. -/
def RightLink (g : TreeView) (hdr : LeafHeader) (max : Key) : Option Gaddr → Prop
  | none => hdr.rightAddr = .Null ∧ max = KeyMax
  | some b => hdr.rightAddr = b ∧ ∃ y, g.leaf b = some y ∧ hdr.rightFpAddr = y.tab ∧
      hdr.rightCapacity = y.cap ∧ y.min = max

/-- A leaf is stored as its view says. -/
structure LeafStored (H : Hashes) (m : Cluster) (g : TreeView) (a : Gaddr) (x : LeafView) (l : Leaf)
    (t : FPTable) : Prop where
  leaf : m.leaf a = some l
  table : m.table x.tab = some t
  min : l.hdr.minKey = x.min
  max : l.hdr.maxKey = x.max
  cap : l.hdr.capacity = x.cap
  ver : l.hdr.version = x.ver
  entries : EntriesHold x.cap x.ver x.kv l.entries
  fps : TableHolds H x.cap x.tver x.fps t
  lock : t.lock = x.own.isSome
  right : RightLink g l.hdr x.max x.right

/-- `b` comes right behind `a` in the chain. -/
def Follows (g : TreeView) (a b : Gaddr) : Prop := ∃ x, g.leaf a = some x ∧ x.right = some b

/-- The leaves. -/
structure LeavesOk (E : Env) (m : Cluster) (g : TreeView) : Prop where
  ok : ∀ a x, g.leaf a = some x → x.Ok E.hash (g.st a)
  stored : ∀ a x, g.leaf a = some x → ∃ l t, LeafStored E.hash m g a x l t
  tab_inj : ∀ a b x y, g.leaf a = some x → g.leaf b = some y → x.tab = y.tab → a = b
  disjoint : ∀ a b x y k, g.leaf a = some x → g.leaf b = some y → x.min ≤ k → k < x.max →
    y.min ≤ k → k < y.max → a = b
  chain_mem : ∀ a, a ∈ g.chain ↔ (g.leaf a).isSome = true
  chain_nodup : g.chain.Nodup
  chain_head : g.chain.head? = some (headAddr E)
  chain_follows : g.chain.IsChain (Follows g)
  chain_last : ∀ a x, g.chain.getLast? = some a → g.leaf a = some x → x.right = none

/-! ## The index -/

/-- A record of the level `ℓ` whose segment ends at `b`. -/
def RecOk (g : TreeView) : Nat → Record → Key → Prop
  | 0, r, b => r.valid = true ∧ ∃ x, g.leaf r.addr = some x ∧ x.tab = r.fpAddr ∧
      x.cap = r.capacity ∧ x.min = r.key ∧ g.st r.addr ≠ .fresh ∧
      (((g.st r.addr).closed = false ∧ r.version = x.tver ∧ b = x.pmax) ∨
        ∃ t s y, g.st r.addr = .opened t s ∧ r.version + 1 = x.tver ∧ g.leaf s = some y ∧
          b = y.pmax)
  | ℓ + 1, r, _ => r.valid = true ∧ g.inner r.addr = some ⟨ℓ, r.key⟩

/-- A split that is not finished: the leaf `a` and the new leaf `s`. -/
structure PairOk (g : TreeView) (a s : Gaddr) (x y : LeafView) : Prop where
  fresh : g.st s = .fresh
  tver : y.tver = 0
  own : y.own = none
  min : y.min = x.max
  lt : y.min < y.pmax
  pmax : (g.st a).closed = false → y.pmax = x.pmax

/-- The levels of the index, and the leaves and nodes that are waiting to be entered. -/
structure LevelsOk (g : TreeView) : Prop where
  seg : ∀ ℓ, Segs Record.key (RecOk g ℓ) KeyMax (g.lvl ℓ)
  idx : ∀ a x, g.leaf a = some x → g.st a ≠ .fresh → g.st a ≠ .orphan →
    ∃ r ∈ g.lvl 0, r.key = x.min ∧ r.addr = a
  pidx : ∀ b i, g.inner b = some i → g.ipend b = none → i.lev < g.top →
    ∃ r ∈ g.lvl (i.lev + 1), r.key = i.min ∧ r.addr = b
  pair : ∀ a s, (g.st a).partner = some s → ∃ x y, g.leaf a = some x ∧ g.leaf s = some y ∧
    PairOk g a s x y
  partner_inj : ∀ a b s, (g.st a).partner = some s → (g.st b).partner = some s → a = b
  fresh : ∀ a, g.leaf a = none → g.st a = .fresh

/-- A node of the level of `i` is stored as a slice of the level. -/
structure NodeStored (E : Env) (g : TreeView) (a : Gaddr) (i : NodeView) (n : InnerNode) : Prop where
  wf : n.Wf
  crc : n.checkConsistent E.hash = true
  min : n.hdr.minKey = i.min
  lt : i.min < n.hdr.maxKey
  le : n.hdr.maxKey ≤ KeyMax
  bottom : n.hdr.nextIsLeaf = decide (i.lev = 0)
  recs : n.recs = slice Record.key i.min n.hdr.maxKey (g.lvl i.lev)
  first : ∃ r ∈ g.lvl i.lev, r.key = i.min
  right : n.hdr.maxKey < KeyMax → g.inner n.hdr.rightAddr = some ⟨i.lev, n.hdr.maxKey⟩
  stray : n.hdr.maxKey = KeyMax → ∀ j, E.alloc j ≠ n.hdr.rightAddr
  lock : n.lock = (g.iown a).isSome
  root : n.hdr.isRoot = true → i.min = KeyNull ∧ n.hdr.maxKey = KeyMax

/-- The inner nodes. -/
structure NodesOk (E : Env) (m : Cluster) (g : TreeView) : Prop where
  stored : ∀ a i, g.inner a = some i → ∃ n, m.inner a = some n ∧ NodeStored E g a i n
  disjoint : ∀ a b i j n n' k, g.inner a = some i → g.inner b = some j → i.lev = j.lev →
    m.inner a = some n → m.inner b = some n' → i.min ≤ k → k < n.hdr.maxKey →
    j.min ≤ k → k < n'.hdr.maxKey → a = b
  own : ∀ a t, g.iown a = some t → ∃ i, g.inner a = some i
  pend : ∀ a t, g.ipend a = some t → ∃ i, g.inner a = some i

/-- The root. With `rooted`, it is marked as the root, and no other node is. -/
structure RootOk (M : Mode) (m : Cluster) (g : TreeView) : Prop where
  inner : g.inner m.root = some ⟨g.top, KeyNull⟩
  lev_le : ∀ b i, g.inner b = some i → i.lev ≤ g.top
  top_pend : ∀ b i, g.inner b = some i → i.lev = g.top → b = m.root ∨ g.ipend b ≠ none
  above : ∀ ℓ, g.top < ℓ → g.lvl ℓ = []
  lock : m.rootLock = g.rown.isSome
  marked : M.rooted → g.rtok = none → ∃ n, m.inner m.root = some n ∧ n.hdr.isRoot = true
  unique : M.rooted → ∀ a n, m.inner a = some n → n.hdr.isRoot = true →
    (a = m.root ∧ g.rtok = none) ∨ ∃ t, g.rtok = some t ∧ g.priv a = some t
  tok : ∀ t, g.rtok = some t → M.rooted

/-! ## Allocation, caches and contents -/

/-- The address has been handed out. -/
def Used (E : Env) (m : Cluster) (a : Gaddr) : Prop := ∃ i < m.allocs, a = E.alloc i

/-- Addresses are used once. -/
structure AllocOk (E : Env) (m : Cluster) (g : TreeView) : Prop where
  leaf : ∀ a x, g.leaf a = some x → Used E m a ∧ Used E m x.tab
  table : ∀ a x, m.table a = some x → Used E m a
  inner : ∀ a n, m.inner a = some n → Used E m a
  priv : ∀ a t, g.priv a = some t → Used E m a ∧ g.leaf a = none ∧ g.inner a = none ∧
    ∀ b x, g.leaf b = some x → x.tab ≠ a

/-- The entries of the index caches are copies of bottom nodes. With `keyed`, an entry is filed under
the first key of its node, and the accounting of the buffers is right. -/
structure CacheOk (E : Env) (M : Mode) (m : Cluster) (g : TreeView) : Prop where
  remote : ∀ i, ∀ e ∈ (m.node i).cache.skiplist, ∃ κ, g.inner e.remoteAddr = some ⟨0, κ⟩ ∧
    (M.keyed → κ = e.key)
  node : ∀ i, ∀ e ∈ (m.node i).cache.skiplist, ∀ b, e.node = some b →
    SnapNode E g ((m.node i).cache.buffer b) ∧
      ((m.node i).cache.buffer b).hdr.nextIsLeaf = true
  wf : M.keyed → ∀ i, (m.node i).cache.Wf E.poolSize

/-- The value of a key after a sequence of writes. -/
def lastValue (l : List EntryPos) : Key → Option Value :=
  l.foldl (fun f p => Function.update f p.key (some p.value)) fun _ => none

/-- The leaves hold what the writes have left. -/
def EffOk (g : TreeView) : Prop := ∀ p : EntryPos,
  (∃ a x, g.leaf a = some x ∧ p ∈ x.kv) ↔ lastValue (g.eff.map Prod.snd) p.key = some p.value

/-- The invariant of the tree. -/
structure TreeInv (E : Env) (M : Mode) (m : Cluster) (g : TreeView) : Prop where
  leaves : LeavesOk E m g
  levels : LevelsOk g
  nodes : NodesOk E m g
  root : RootOk M m g
  alloc : AllocOk E m g
  cache : CacheOk E M m g
  eff : EffOk g

/-! ## What a step may change -/

/-- The pairs of a leaf keep their slots until it is rewritten, and then its range shrinks and it is
at most half full. -/
def LeafStep (x x' : LeafView) : Prop :=
  (x'.ver = x.ver ∧ x'.max = x.max ∧
    ∀ (i : Nat) k, (x.kv[i]?).map EntryPos.key = some k → (x'.kv[i]?).map EntryPos.key = some k) ∨
  (x.ver < x'.ver ∧ x'.max ≤ x.max ∧ x'.kv.length ≤ (x.cap + 1) / 2 ∧
    ∀ p ∈ x.kv, p.key < x'.max → p.key ∈ x'.kv.map EntryPos.key)

/-- What a step of the client `t` may change: nothing that another client has locked, published or
allocated for itself. -/
structure TreeRel (H : Hashes) (t : Tid) (m : Cluster) (g : TreeView) (m' : Cluster)
    (g' : TreeView) : Prop where
  le : g.Le g'
  step : ∀ a x x', g.leaf a = some x → g'.leaf a = some x' → LeafStep x x'
  tver : ∀ a x x', g.leaf a = some x → g'.leaf a = some x' → x.tver < x'.tver →
    ∃ s, g.st a = .moving s
  stored : ∀ k, g.Stored H k → g'.Stored H k
  locked : ∀ a x u, u ≠ t → g.leaf a = some x → x.own = some u → g'.leaf a = some x ∧
    (g.st a = .listed → g'.st a = .listed) ∧ ∀ s, g.st a = .moving s → g'.st a = .moving s
  lown : ∀ a u, u ≠ t → g'.lown a = some u → g.lown a = some u
  opened : ∀ a s u, u ≠ t → (g'.st a = .opened u s ↔ g.st a = .opened u s)
  iown : ∀ a u, u ≠ t → (g'.iown a = some u ↔ g.iown a = some u)
  inner : ∀ a u, u ≠ t → g.iown a = some u → m'.inner a = m.inner a
  ipend : ∀ a u, u ≠ t → (g'.ipend a = some u ↔ g.ipend a = some u)
  rown : ∀ u, u ≠ t → (g'.rown = some u ↔ g.rown = some u)
  rtok : ∀ u, u ≠ t → (g'.rtok = some u ↔ g.rtok = some u)
  root : ∀ u, u ≠ t → g.rown = some u ∨ g.rtok = some u → m'.root = m.root
  priv : ∀ a u, u ≠ t → (g'.priv a = some u ↔ g.priv a = some u)
  mine : ∀ a u, u ≠ t → g.priv a = some u → m'.leaf a = m.leaf a ∧ m'.table a = m.table a ∧
    m'.inner a = m.inner a

/-- The client `t` has locked `w`. -/
def TreeView.Holds (g : TreeView) (t : Tid) : LockWord → Prop
  | .table c => ∃ a x, g.leaf a = some x ∧ x.tab = c ∧ x.own = some t
  | .node a => g.iown a = some t
  | .root => g.rown = some t

/-- A step of the client `t` releases only locks it holds, writes only what it has locked or allocated
for itself, and writes no image with its lock set. -/
def TreeView.Lawful (g : TreeView) (t : Tid) : TreeCmd → Prop
  | .release w => g.Holds t w
  | .writeTable a x => x.lock = false ∧ (g.Holds t (.table a) ∨ g.priv a = some t)
  | .writeEntry a _ _ => g.lown a = some t
  | .writeLeaf a _ => g.lown a = some t ∨ g.priv a = some t
  | .writeNode _ a n => n.lock = false ∧ (g.iown a = some t ∨ g.priv a = some t)
  | .writeRoot _ => g.rown = some t
  | _ => True

/-- What a client holds. -/
structure Holding where
  /-- The leaf it has locked. -/
  leaf : Option Gaddr := none
  /-- The inner node it has locked. -/
  node : Option Gaddr := none
  /-- It has locked the root pointer. -/
  root : Bool := false
  /-- The leaf it has split, and the new leaf, as long as that is not entered. -/
  opened : Option (Gaddr × Gaddr) := none
  /-- The inner node it has split off, as long as that is not entered. -/
  ipend : Option Gaddr := none
  /-- It has split the root and not yet replaced it. -/
  tok : Bool := false
  /-- The addresses it has allocated and not yet linked. -/
  priv : List Gaddr := []

/-- The client `t` holds just `o`. -/
structure Owned (t : Tid) (g : TreeView) (o : Holding) : Prop where
  leaf : ∀ a, g.lown a = some t ↔ o.leaf = some a
  node : ∀ a, g.iown a = some t ↔ o.node = some a
  root : g.rown = some t ↔ o.root = true
  opened : ∀ a s, g.st a = .opened t s ↔ o.opened = some (a, s)
  ipend : ∀ a, g.ipend a = some t ↔ o.ipend = some a
  tok : g.rtok = some t ↔ o.tok = true
  priv : ∀ a, g.priv a = some t ↔ a ∈ o.priv

/-! ## Histories -/

section Histories

variable {E : Env} {F : Flags}

/-- The clock of the leaf locks: the last call of every client, and for every call when it last
locked a leaf. -/
structure LockClock where
  now : Nat := 0
  cur : Tid → Nat := fun _ => 0
  time : Nat → Nat := fun _ => 0

/-- One more event. -/
def LockClock.tick (x : LockClock) (e : Event TreeSig TreeOp TreeRes) : LockClock :=
  match e with
  | .call t _ => { x with now := x.now + 1, cur := Function.update x.cur t x.now }
  | .act t (.cas (.table _)) true =>
    { x with now := x.now + 1, time := Function.update x.time (x.cur t) (x.now + 1) }
  | _ => { x with now := x.now + 1 }

/-- The clock after a run. A call is named by its position in the history. -/
def lockClock (l : TreeLog E F) : LockClock := l.foldl LockClock.tick {}

/-- The holder of the lock `w` after one more event. A lock is released by a zero in its word, or by an
image of the object it is a part of. -/
def holderStep (w : LockWord) (o : Option Tid) : Event TreeSig TreeOp TreeRes → Option Tid
  | .act t (.cas w') true => if w' = w then some t else o
  | .act _ (.release w') _ => if w' = w then none else o
  | .act _ (.writeTable a x) _ => if .table a = w ∧ x.lock = false then none else o
  | .act _ (.writeNode _ a n) _ => if .node a = w ∧ n.lock = false then none else o
  | _ => o

/-- The client that has taken the lock `w` and not yet released it. -/
def holder (l : TreeLog E F) (w : LockWord) : Option Tid := l.foldl (holderStep w) none

/-- The event takes the lock in the fingerprint table `a`. -/
def isLeafLock (a : Gaddr) : Event TreeSig TreeOp TreeRes → Bool
  | .act _ (.cas (.table b)) true => b == a
  | _ => false

/-- The event rewrites the leaf `a`. -/
def isRewrite (a : Gaddr) : Event TreeSig TreeOp TreeRes → Bool
  | .act _ (.writeLeaf b _) _ => b == a
  | _ => false

/-- The leaf `a` has been rewritten since its lock, in the table `fa`, was last taken. -/
def rewritten (l : TreeLog E F) (a fa : Gaddr) : Prop :=
  lastPos (isLeafLock fa) l < lastPos (isRewrite a) l

end Histories

/-! ## The discipline -/

/-- A copy of the fingerprint table at `c`, however old it is: as long as the leaf has its version, its
fingerprints are those of stored keys. -/
def CopyOk (H : Hashes) (g : TreeView) (c : Gaddr) (tab : FPTable) : Prop :=
  ∃ a x, g.leaf a = some x ∧ x.tab = c ∧ tab.version ≤ x.ver ∧ (x.ver = tab.version →
    ∀ i < x.cap, (tab.fp[i]?).getD 0 ≠ 0 →
      ∃ k, (x.kv[i]?).map EntryPos.key = some k ∧ g.Stored H k)

/-- A copy of a fingerprint table at the offset `o` of the memory of a compute node. -/
def CopyAt (H : Hashes) (g : TreeView) (o : Nat) (tab : FPTable) : Prop :=
  ∃ c : Gaddr, c.offset = o ∧ c.nodeID ≠ 0 ∧ CopyOk H g c tab

/-- The abstract tree, now and when the history had a given length. -/
structure TreeGhost where
  view : TreeView
  past : Nat → TreeView

/-- Steps that change nothing but the caches and the local copies of a compute node. -/
def TreeCmd.quiet : TreeCmd → Bool
  | readTable _ | readEntry _ _ | readLeaf _ _ | readNode _ | readRoot | adaptCapacity _
  | searchCache _ | insertCache _ _ | invalidate _ | readLocalFp _ _ | writeLocalFp _ _ => true
  | _ => false

/-- Accesses to the local lock table. -/
def TreeCmd.isLock : TreeCmd → Bool
  | lock _ _ => true
  | _ => false

section Discipline

variable (E : Env) (F : Flags) (M : Mode)

/-- The tree holds a pair that readers find. -/
def TreeView.Shows (g : TreeView) (q : EntryPos) : Prop :=
  g.Has q ∧ (M.exact → g.Stored E.hash q.key)

/-- What the result of a call says that was made at `i` and returned at `j`. -/
def ResultOk (past : Nat → TreeView) (i j : Nat) : TreeOp → TreeRes → Prop
  | .write k _, .done => F.writeCombining = false →
      (past j).Stored E.hash k ∧ ∃ w ∈ (past j).eff, w.1 = i
  | .read k v, .value w => F.readDelegation = false →
      (∃ d, i < d ∧ d ≤ j ∧ (past d).Shows E M ⟨k, w⟩) ∨
        ((w = v ∨ w = ValueNull) ∧ ¬ (past i).Stored E.hash k)
  | .scan start stop len, .results l =>
      (∀ p ∈ l, (∃ d, i < d ∧ d ≤ j ∧ (past d).Has p) ∧ start ≤ p.key) ∧
      (l.map EntryPos.key).Nodup ∧ ((l.length : Int) < len → ∀ k, (past i).Stored E.hash k →
        start ≤ k → k ≤ stop → k ∈ l.map EntryPos.key)
  | _, _ => False

/-- States of a run with the abstract tree. -/
abbrev TreeWorld := World (treeClient E F) Cluster TreeGhost

/-- The table `a` with `n` fingerprints has a place of its own in the memory of the compute node `i`:
no other table that lies there or is copied there overlaps it. When the allocator sees to that is the
subject of `RemoteAlloc.localCopies_apart`. -/
def LocalApart (m : Cluster) (i : Nat) (a : Gaddr) (n : Nat) : Prop :=
  ∀ j < m.allocs, ∀ x ∈ m.table (E.alloc j), E.alloc j ≠ a →
    ((E.alloc j).nodeID = i ∨ (E.alloc j).nodeID ≠ 0) →
    a.offset + (n + 8 * 3) ≤ (E.alloc j).offset ∨ (E.alloc j).offset + (x.fp.length + 8 * 3) ≤ a.offset

/-- The calls and steps that are considered. In all of them the buffers of `leaf_resize` do not overlap,
versions of leaves do not overflow, and local copies of tables stay in the memory of the node and apart
from other tables. -/
def treeGuard : Guard (treeClient E F) Cluster where
  call _ op :=
    match op with
    | .write k _ => M.bounded → k < KeyMax
    | .read k _ => M.bounded → k < KeyMax
    | .scan start _ _ => M.bounded → start < KeyMax
  act m _ t c :=
    match c with
    | .adaptCapacity n => (E.rbuf m.adapts).Fits n (adaptCapacity (E.grow m.adapts) n)
    | .writeLeaf _ l => l.hdr.version < 2 ^ 31
    | .readLocalFp a n => a.offset + 64 ≤ E.dsmSize (E.nodeOf t) ∧
      (a.nodeID ≠ 0 → LocalApart E m (E.nodeOf t) a n) ∧
      (M.exact → (localRead E m (E.nodeOf t) a n).checkConsistent E.hash = true →
        localRead E m (E.nodeOf t) a n = (m.localTable (E.nodeOf t) a).getD (.zero n))
    | .writeLocalFp a x => a.offset + (x.fp.length + 8 * 3) ≤ E.dsmSize (E.nodeOf t) ∧
      LocalApart E m (E.nodeOf t) a x.fp.length
    | .insertCache r n => M.keyed → r.key = n.hdr.minKey
    | .writeNode (.origin true) a _ =>
      M.rooted → ∃ n ∈ m.inner a, n.hdr.isRoot = true
    | _ => True

variable {E F}

/-- The invariant of a run. -/
structure WorldInv (x : TreeWorld E F) : Prop where
  tree : TreeInv E M x.mem x.ghost.view
  /-- What has been read at any time. -/
  snap : ∀ (i : Nat) t a n, x.log[i]? = some (.act t (.readNode a) n) → SnapNode E x.ghost.view n
  /-- Between the two writes of a split the leaf has been rewritten. -/
  moving : ∀ a y s, x.ghost.view.leaf a = some y → x.ghost.view.st a = .moving s →
    rewritten x.log a y.tab
  /-- The writes that have taken effect belong to calls. -/
  calls : ∀ w ∈ x.ghost.view.eff, ∃ t v, x.log[w.1]? = some (.call t (.write w.2.key v)) ∧
    (F.writeCombining = false → v = w.2.value)
  once : (x.ghost.view.eff.map Prod.fst).Nodup
  /-- Every write but the last one of a client has taken effect. -/
  done : F.writeCombining = false → ∀ (i : Nat) t k v, x.log[i]? = some (.call t (.write k v)) →
    i = (lockClock x.log).cur t ∨ ∃ w ∈ x.ghost.view.eff, w.1 = i
  /-- The locks. -/
  held : ∀ w t, holder x.log w = some t ↔ x.ghost.view.Holds t w
  /-- The writes of a key take effect in the order of their last locks. -/
  order : x.ghost.view.eff.Pairwise fun w w' => w.2.key = w'.2.key →
    (lockClock x.log).time w.1 < (lockClock x.log).time w'.1
  /-- The local copies of fingerprint tables. -/
  copies : ∀ i o tab, (x.mem.node i).localFp o = some tab → CopyAt E.hash x.ghost.view o tab
  past : x.ghost.past x.log.length = x.ghost.view
  start : (x.ghost.past 0).eff = []
  /-- At any time the leaves held what the calls of before had written. -/
  trail : ∀ i ≤ x.log.length, EffOk (x.ghost.past i) ∧ ∀ w ∈ (x.ghost.past i).eff, w.1 < i
  /-- Nothing is taken back, and a call alone does nothing. -/
  grows : ∀ i < x.log.length, (x.ghost.past i).eff <+: (x.ghost.past (i + 1)).eff ∧
    (∀ k, (x.ghost.past i).Stored E.hash k → (x.ghost.past (i + 1)).Stored E.hash k) ∧
    ∀ t op, x.log[i]? = some (.call t op) → x.ghost.past (i + 1) = x.ghost.past i
  /-- What a write that has returned has written is found from then on. -/
  returned : F.writeCombining = false → ∀ (i j : Nat) t k v r, j < i → i ≤ x.log.length →
    x.log[j]? = some (.ret t (.write k v) r) → (x.ghost.past i).Stored E.hash k
  answers : ∀ (j : Nat) t op r, x.log[j]? = some (.ret t op r) →
    ResultOk E F M x.ghost.past ((lockClock (x.log.take j)).cur t) j op r

/-- What a step of the client `t` may change. -/
structure WorldRel (t : Tid) (x x' : TreeWorld E F) : Prop where
  tree : TreeRel E.hash t x.mem x.ghost.view x'.mem x'.ghost.view
  event : ∃ e : Event TreeSig TreeOp TreeRes, x'.log = x.log ++ [e] ∧ e.tid = t ∧
    (∀ c r, e = .act t c r → (∃ op, lastCall x.log t = some op) ∧ x.ghost.view.Lawful t c) ∧
    (∀ c r, e = .act t c r → c.quiet = true → x'.ghost.view = x.ghost.view) ∧
    ((∀ c r, e = .act t c r → c.isLock = false) →
      ∀ i, (x'.mem.node i).locks = (x.mem.node i).locks) ∧
    (∀ a, e = .act t (.cas (.table a)) true →
      ∀ w ∈ x.ghost.view.eff, w.1 ≠ (lockClock x.log).cur t)
  eff : x'.ghost.view.eff = x.ghost.view.eff ∨ ∃ p a y op,
    x'.ghost.view.eff = x.ghost.view.eff ++ [((lockClock x.log).cur t, p)] ∧
      lastCall x.log t = some op ∧
      x.ghost.view.leaf a = some y ∧ y.own = some t ∧ y.min ≤ p.key ∧ p.key < y.max
  past : ∀ i ≤ x.log.length, x'.ghost.past i = x.ghost.past i

variable (E F)

/-- The assertions that may fail. -/
def TreeMayFail : TreeErr → Prop
  | .deadlock => True
  | .rootChanged => ¬ M.rooted
  | .rightNull => ¬ M.bounded
  | .bottomRightNull => ¬ M.keyed
  | .cache => ¬ (M.keyed ∧ 0 < E.poolSize)
  | _ => False

/-- The discipline of the clients of the tree. -/
abbrev treeDisc : Discipline (treeClient E F) Cluster TreeGhost where
  machine := treeMachine E
  guard := treeGuard E F M
  Inv := WorldInv M
  Rel := WorldRel
  MayFail := TreeMayFail E M

end Discipline

end DMTree
