import CustomRedis.Model.Hashmap
import CustomRedis.Model.AvlTree

/-!
# Sorted sets

`data_structures/zset.cpp`. A `ZNode` is one block with a tree node and a map node inside, and
`container_of` goes from either to the block. Here the block has one address: the tree memory holds
its `avl_node` at that address, `data` the rest of it, and the nodes of the member map carry it as
their value. The members of the map are string nodes, so unlinking them does nothing further.
-/

namespace CustomRedis

structure ZNode where
  score : Double
  key : Bytes
  /-- `h_node.hcode` -/
  hcode : UInt64
  deriving DecidableEq, Repr

structure ZSet where
  avlRoot : Option Ptr := none
  hmap : HMap Ptr := {}
  tree : AvlMem := {}
  data : Mem ZNode := {}
  deriving DecidableEq, Repr

instance : Teardown Ptr where
  weight _ := 0
  clear p := p

/-- `*znode` -/
def ZSet.znode (zset : ZSet) (p : Ptr) : M ZNode :=
  match zset.data.read p with
  | some z => .ok z
  | none => .error .useAfterFree

/-- True if the node is smaller than the pair of score and key. -/
def zless (node : ZNode) (score : Double) (key : Bytes) : Bool :=
  if score.ne node.score then node.score.lt score
  else
    let ret := memcmp node.key key (min key.length node.key.length)
    if ret ≠ 0 then ret < 0 else node.key.length < key.length

def zsetLookup (zset : ZSet) (key : Bytes) : M (Option Ptr) :=
  if zset.avlRoot.isNone then .ok none
  else do
    let tmp ← dstrCopy key
    let hnode ← hmLookup zset.hmap ⟨strHash key, some tmp.buf⟩
    .ok (hnode.map HNode.val)

def zsetDelete (zset : ZSet) (znode : Ptr) : M ZSet := do
  let z ← zset.znode znode
  let tmp ← dstrCopy z.key
  let (tree, root) ← avlDel zset.tree znode
  let (hmap, _, _) ← hmDelete zset.hmap ⟨z.hcode, some tmp.buf⟩
  .ok { avlRoot := root, hmap := hmap, tree := tree.free znode, data := zset.data.free znode }

/-- The walk of `zset_insert` to the link that gets the new node: the node above it, and whether the link
is the right one of that node. -/
def insertLink : Nat → ZSet → Option (Ptr × Bool) → Option Ptr → Double → Bytes → M (Option (Ptr × Bool))
  | _, _, above, none, _, _ => .ok above
  | 0, _, _, some _, _, _ => .error .outOfFuel
  | fuel + 1, zset, _, some curr, score, key => do
    let z ← zset.znode curr
    let c ← zset.tree.node curr
    if zless z score key then insertLink fuel zset (some (curr, true)) c.right score key
    else insertLink fuel zset (some (curr, false)) c.left score key

/-- `*from = node` for the link found by the walk; without a node above it the link is `avl_root`, which
`avl_fix` sets anyway. -/
def attach (tree : AvlMem) (link : Option (Ptr × Bool)) (node : Ptr) : M AvlMem :=
  match link with
  | none => .ok tree
  | some (curr, true) => tree.modify curr fun c => { c with right := some node }
  | some (curr, false) => tree.modify curr fun c => { c with left := some node }

/-- The part of `zset_insert` behind the removal of an old node. `new_znode` copies the `HNode` that it gets from
`new_node` into the block of the `ZNode` and never frees it; that block is reached by nothing and has no place here. -/
def zsetAdd (zset : ZSet) (score : Double) (key : Bytes) : M ZSet := do
  let nodeKey ← dstrCopy key
  let znodeKey ← dstrCopy key
  let znode := zset.tree.next
  let zset := { zset with
    tree := zset.tree.alloc avlInit
    data := zset.data.alloc ⟨score, znodeKey.buf, strHash key⟩ }
  let (hmap, _) ← hmInsert zset.hmap ⟨strHash key, nodeKey.buf, znode⟩
  let link ← insertLink zset.tree.next zset none zset.avlRoot score key
  let tree ← attach zset.tree link znode
  let tree ← tree.modify znode fun c => { c with parent := link.map Prod.fst }
  let (tree, root) ← avlFix tree znode
  .ok { zset with avlRoot := some root, hmap := hmap, tree := tree }

/-- `zset_insert`: true for an insert, false for an update. -/
def zsetInsert (zset : ZSet) (score : Double) (key : Bytes) : M (ZSet × Bool) := do
  match ← zsetLookup zset key with
  | some node => do
    let zset ← zsetDelete zset node
    let zset ← zsetAdd zset score key
    .ok (zset, false)
  | none => do
    let zset ← zsetAdd zset score key
    .ok (zset, true)

/-- `zset_clear`. Every node of the set is freed, and nothing outside the set refers to one. -/
def zsetClear (_zset : ZSet) : ZSet := {}

/-- `del_avl_tree`. A block is freed once its children are, and the free of a block that is not live is a fault. -/
def delAvlTree : Nat → ZSet → Option Ptr → M ZSet
  | _, zset, none => .ok zset
  | 0, _, some _ => .error .outOfFuel
  | fuel + 1, zset, some node => do
    let c ← zset.tree.node node
    let zset ← delAvlTree fuel zset c.left
    let c ← zset.tree.node node
    let zset ← delAvlTree fuel zset c.right
    let _ ← zset.tree.node node
    let _ ← zset.znode node
    .ok { zset with tree := zset.tree.free node, data := zset.data.free node }

/-- `zset_clear`, with the blocks of the nodes. -/
def zsetClearNodes (zset : ZSet) : M ZSet := do
  let zset := { zset with hmap := hmClear zset.hmap }
  let zset ← delAvlTree zset.tree.next zset zset.avlRoot
  .ok { zset with avlRoot := none }

def zsetLowerBoundAux : Nat → ZSet → Option Ptr → Option Ptr → Double → Bytes → M (Option Ptr)
  | _, _, lb, none, _, _ => .ok lb
  | 0, _, _, some _, _, _ => .error .outOfFuel
  | fuel + 1, zset, lb, some curr, score, key => do
    let z ← zset.znode curr
    let c ← zset.tree.node curr
    if zless z score key then zsetLowerBoundAux fuel zset lb c.right score key
    else zsetLowerBoundAux fuel zset (some curr) c.left score key

def zsetLowerBound (zset : ZSet) (score : Double) (key : Bytes) : M (Option Ptr) :=
  zsetLowerBoundAux zset.tree.next zset none zset.avlRoot score key

/-- The loop of `zset_offset`. It climbs and then descends, so no path is longer than twice the tree. -/
def zsetOffsetAux : Nat → ZSet → Ptr → Int → Int → M (Option Ptr)
  | 0, _, _, _, _ => .error .outOfFuel
  | fuel + 1, zset, node, rank, offset =>
    if rank = offset then .ok (some node)
    else do
      let c ← zset.tree.node node
      let left ← avlSize zset.tree c.left
      let right ← avlSize zset.tree c.right
      if rank > offset ∧ toI32 (rank - toI32 left) ≤ offset then do
        let node ← AvlMem.nonNull c.left
        let c ← zset.tree.node node
        let right ← avlSize zset.tree c.right
        zsetOffsetAux fuel zset node (toI32 (rank - (1 + right))) offset
      else if rank < offset ∧ toI32 (rank + toI32 right) ≥ offset then do
        let node ← AvlMem.nonNull c.right
        let c ← zset.tree.node node
        let left ← avlSize zset.tree c.left
        zsetOffsetAux fuel zset node (toI32 (rank + (1 + left))) offset
      else
        match c.parent with
        | none => .ok none
        | some parent => do
          let pc ← zset.tree.node parent
          if pc.left = some node then zsetOffsetAux fuel zset parent (toI32 (rank + (1 + right))) offset
          else zsetOffsetAux fuel zset parent (toI32 (rank - (1 + left))) offset

def zsetOffset (zset : ZSet) (znode : Ptr) (offset : Int) : M (Option Ptr) :=
  zsetOffsetAux (2 * zset.tree.next + 1) zset znode 0 offset

end CustomRedis
