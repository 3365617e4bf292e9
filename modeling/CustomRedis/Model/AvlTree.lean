import CustomRedis.Model.Common
import CustomRedis.Lib.Mem

/-!
# The AVL tree

`data_structures/avl_tree.cpp`, over an explicit memory of nodes with parent, left and right
pointers. Every access to a node goes through `node` and `setNode`, which fault on an address that is
not allocated, and following a null link faults as well. The heights the algorithm compares are
recomputed by `avl_height` on every call; the stored ones are written but never read. A height is
far below the range of its type in any tree that fits in memory, so it is a plain number here, while
the stored size wraps around as a `uint32_t` does.

`avl_height` and the two loops are bounded by the number of blocks ever allocated, which no path in
a tree exceeds.
-/

namespace CustomRedis

structure AVLNode where
  parent : Option Ptr := none
  left : Option Ptr := none
  right : Option Ptr := none
  height : Nat := 0
  size : Nat := 0
  deriving DecidableEq, Repr

abbrev AvlMem := Mem AVLNode

namespace AvlMem

/-- `*p` -/
def node (m : AvlMem) (p : Ptr) : M AVLNode :=
  match m.read p with
  | some c => .ok c
  | none => .error .useAfterFree

/-- `*p` for a pointer that may be null -/
def deref (m : AvlMem) : Option Ptr → M AVLNode
  | some p => m.node p
  | none => .error .nullLink

/-- A pointer that is about to be dereferenced. -/
def nonNull : Option Ptr → M Ptr
  | some p => .ok p
  | none => .error .nullLink

/-- A write to fields of `*p` -/
def modify (m : AvlMem) (p : Ptr) (f : AVLNode → AVLNode) : M AvlMem := do
  let c ← m.node p
  .ok (m.set p (f c))

/-- `if (p) p->parent = par` -/
def setParent (m : AvlMem) (p par : Option Ptr) : M AvlMem :=
  match p with
  | some p => m.modify p fun c => { c with parent := par }
  | none => .ok m

end AvlMem

def avlSize (m : AvlMem) : Option Ptr → M Nat
  | none => .ok 0
  | some p => do
    let c ← m.node p
    .ok c.size

def avlHeightAux : Nat → AvlMem → Option Ptr → M Nat
  | _, _, none => .ok 0
  | 0, _, some _ => .error .outOfFuel
  | fuel + 1, m, some p => do
    let c ← m.node p
    let left ← avlHeightAux fuel m c.left
    let right ← avlHeightAux fuel m c.right
    .ok (1 + max left right)

def avlHeight (m : AvlMem) (p : Option Ptr) : M Nat := avlHeightAux m.next m p

def updateNode (m : AvlMem) (p : Ptr) : M AvlMem := do
  let c ← m.node p
  let left ← avlHeight m c.left
  let right ← avlHeight m c.right
  let sizeLeft ← avlSize m c.left
  let sizeRight ← avlSize m c.right
  m.modify p fun c => { c with height := 1 + max left right, size := (1 + sizeLeft + sizeRight) % 2 ^ 32 }

def rotateLeft (m : AvlMem) (currRoot : Ptr) : M (AvlMem × Ptr) := do
  let c ← m.node currRoot
  let newRoot ← AvlMem.nonNull c.right
  let n ← m.node newRoot
  let inner := n.left
  let m ← m.modify currRoot fun c => { c with right := inner }
  let m ← m.modify newRoot fun n => { n with left := some currRoot }
  let m ← m.modify newRoot fun n => { n with parent := c.parent }
  let m ← m.modify currRoot fun c => { c with parent := some newRoot }
  let m ← m.setParent inner (some currRoot)
  let m ← updateNode m currRoot
  let m ← updateNode m newRoot
  .ok (m, newRoot)

def rotateRight (m : AvlMem) (currRoot : Ptr) : M (AvlMem × Ptr) := do
  let c ← m.node currRoot
  let newRoot ← AvlMem.nonNull c.left
  let n ← m.node newRoot
  let inner := n.right
  let m ← m.modify currRoot fun c => { c with left := n.right }
  let m ← m.modify newRoot fun n => { n with right := some currRoot }
  let m ← m.modify newRoot fun n => { n with parent := c.parent }
  let m ← m.modify currRoot fun c => { c with parent := some newRoot }
  let m ← m.setParent inner (some currRoot)
  let m ← updateNode m currRoot
  let m ← updateNode m newRoot
  .ok (m, newRoot)

/-- One round of `avl_fix`: the node is updated and, if its sides differ by two, rotated. -/
def avlFixNode (m : AvlMem) (node : Ptr) : M (AvlMem × Ptr) := do
  let c ← m.node node
  let left ← avlHeight m c.left
  let right ← avlHeight m c.right
  let m ← updateNode m node
  if left = right + 2 then do
    let l ← AvlMem.nonNull c.left
    let lc ← m.node l
    let ll ← avlHeight m lc.left
    let lr ← avlHeight m lc.right
    let m ←
      if ll < lr then do
        let (m, newLeft) ← rotateLeft m l
        m.modify node fun c => { c with left := some newLeft }
      else .ok m
    rotateRight m node
  else if right = left + 2 then do
    let r ← AvlMem.nonNull c.right
    let rc ← m.node r
    let rr ← avlHeight m rc.right
    let rl ← avlHeight m rc.left
    let m ←
      if rr < rl then do
        let (m, newRight) ← rotateRight m r
        m.modify node fun c => { c with right := some newRight }
      else .ok m
    rotateLeft m node
  else .ok (m, node)

/-- `from = parent->left == old ? &parent->left : &parent->right; *from = new` -/
def replaceChild (m : AvlMem) (parent old : Ptr) (new : Option Ptr) : M AvlMem :=
  m.modify parent fun c => if c.left = some old then { c with left := new } else { c with right := new }

/-- `avl_fix`. The link of the parent is chosen before the rotation; the rotation leaves the links of the
parent alone, so choosing it when it is written is the same. -/
def avlFixAux : Nat → AvlMem → Ptr → M (AvlMem × Ptr)
  | 0, _, _ => .error .outOfFuel
  | fuel + 1, m, node => do
    let c ← m.node node
    let (m, newNode) ← avlFixNode m node
    match c.parent with
    | none => .ok (m, newNode)
    | some parent => do
      let m ← replaceChild m parent node (some newNode)
      avlFixAux fuel m parent

def avlFix (m : AvlMem) (node : Ptr) : M (AvlMem × Ptr) := avlFixAux m.next m node

def delSimple (m : AvlMem) (toDelete : Ptr) : M (AvlMem × Option Ptr) := do
  let c ← m.node toDelete
  if c.left.isSome ∧ c.right.isSome then .error .assertFailed
  else do
    let child := if c.left.isSome then c.left else c.right
    let m ← m.setParent child c.parent
    match c.parent with
    | none => .ok (m, child)
    | some parent => do
      let m ← replaceChild m parent toDelete child
      let (m, root) ← avlFix m parent
      .ok (m, some root)

def avlInit : AVLNode := { height := 1, size := 1 }

/-- The walk of `avl_del` to the leftmost node. -/
def leftmostAux : Nat → AvlMem → Ptr → M Ptr
  | 0, _, _ => .error .outOfFuel
  | fuel + 1, m, victim => do
    let c ← m.node victim
    match c.left with
    | some l => leftmostAux fuel m l
    | none => .ok victim

/-- The part of `avl_del` that puts `victim` in the place of `to_delete`, down to the write to the link of
the parent, with that parent. -/
def takePlace (m : AvlMem) (toDelete victim : Ptr) : M (AvlMem × Option Ptr) := do
  let c ← m.node toDelete
  let m ← m.modify victim fun _ => c
  let m ← m.setParent c.left (some victim)
  let m ← m.setParent c.right (some victim)
  match c.parent with
  | some parent => do
    let m ← replaceChild m parent toDelete (some victim)
    .ok (m, c.parent)
  | none => .ok (m, none)

def avlDel (m : AvlMem) (toDelete : Ptr) : M (AvlMem × Option Ptr) := do
  let c ← m.node toDelete
  match c.left, c.right with
  | some _, some r => do
    let victim ← leftmostAux m.next m r
    let (m, root) ← delSimple m victim
    let (m, parent) ← takePlace m toDelete victim
    -- without a parent `from` is the address of `root`
    let root ← AvlMem.nonNull (if parent.isSome then root else some victim)
    let (m, root) ← avlFix m root
    .ok (m, some root)
  | _, _ => delSimple m toDelete

end CustomRedis
