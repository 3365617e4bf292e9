import CustomRedis.Model.Common
import CustomRedis.Lib.Mem

/-!
# The heap of deadlines

`data_structures/heap.cpp`. An entry carries a deadline and a pointer to the `heap_idx` field of the node
it belongs to; `refs` is the memory of these fields, one for every node, and a write through the pointer
of an entry whose node is gone faults. `heap_parent` returns an `int32_t`, which is turned back into a
`size_t` where it is used as an index.
-/

namespace CustomRedis

structure HeapNode where
  val : Nat
  /-- the node whose `heap_idx` the pointer refers to -/
  posRef : Ptr
  deriving DecidableEq, Repr

/-- The vector of entries and the `heap_idx` fields. -/
structure Heap where
  entries : List HeapNode := []
  refs : Mem Nat := {}
  deriving DecidableEq, Repr

namespace Heap

/-- `heap[i]` -/
def get (heap : Heap) (i : Nat) : M HeapNode :=
  match heap.entries[i]? with
  | some h => .ok h
  | none => .error .outOfBounds

/-- `heap[pos] = node; *heap[pos].pos_ref = pos` -/
def put (heap : Heap) (pos : Nat) (node : HeapNode) : M Heap :=
  if pos < heap.entries.length then
    if (heap.refs.read node.posRef).isSome then
      .ok ⟨heap.entries.set pos node, heap.refs.set node.posRef pos⟩
    else .error .useAfterFree
  else .error .outOfBounds

end Heap

def heapLeft (pos : Nat) : Nat := (pos * 2 + 1) % 2 ^ 64

def heapRight (pos : Nat) : Nat := (pos * 2 + 2) % 2 ^ 64

def heapParent (pos : Nat) : Nat := toU64 (toI32 ((pos + (2 ^ 64 - 1)) % 2 ^ 64 / 2 : Nat))

/-- The loop of `heap_up` and the two writes behind it. -/
def heapUpAux : Nat → Heap → HeapNode → Nat → M Heap
  | 0, _, _, _ => .error .outOfFuel
  | fuel + 1, heap, node, pos =>
    if pos > 0 then do
      let parent ← heap.get (heapParent pos)
      if node.val ≤ parent.val then do
        let heap ← heap.put pos parent
        heapUpAux fuel heap node (heapParent pos)
      else heap.put pos node
    else heap.put pos node

def heapUp (heap : Heap) (pos : Nat) : M Heap := do
  let node ← heap.get pos
  heapUpAux (pos + 1) heap node pos

/-- The smallest of the value of the moving node and those of the children at `pos`. -/
def minVal (heap : Heap) (node : HeapNode) (pos : Nat) : Nat :=
  let val := match heap.entries[heapLeft pos]? with
    | some left => min node.val left.val
    | none => node.val
  match heap.entries[heapRight pos]? with
  | some right => min val right.val
  | none => val

/-- Both branches of the source choose the left child. -/
def nextPos (heap : Heap) (pos : Nat) : Nat :=
  match heap.entries[heapRight pos]?, heap.entries[heapLeft pos]? with
  | some right, some left => if right.val < left.val then heapLeft pos else heapLeft pos
  | _, _ => heapLeft pos

def heapDownAux : Nat → Heap → HeapNode → Nat → M Heap
  | 0, _, _, _ => .error .outOfFuel
  | fuel + 1, heap, node, pos =>
    if pos < heap.entries.length ∧ node.val ≠ minVal heap node pos then do
      let child ← heap.get (nextPos heap pos)
      let next := nextPos heap pos
      let heap ← heap.put pos child
      heapDownAux fuel heap node next
    else heap.put pos node

def heapDown (heap : Heap) (pos : Nat) : M Heap := do
  let node ← heap.get pos
  heapDownAux (heap.entries.length + 1) heap node pos

def heapFix (heap : Heap) (pos : Nat) : M Heap := do
  let node ← heap.get pos
  if pos > 0 then do
    let parent ← heap.get (heapParent pos)
    if parent.val > node.val then heapUp heap pos
    else if pos < heap.entries.length then heapDown heap pos
    else .ok heap
  else if pos < heap.entries.length then heapDown heap pos
  else .ok heap

/-- `set_ttl` of `server.cpp`, with the clock as a parameter. -/
def setTtl (heap : Heap) (now : Nat) (node : Ptr) (ttl : Nat) : M Heap :=
  heapFix { heap with entries := heap.entries ++ [⟨(now + ttl) % 2 ^ 64, node⟩] } heap.entries.length

/-- `rem_ttl` of `server.cpp`. The index of the node is read again behind the removal, where it is the
same, since nothing has been written to it. -/
def remTtl (heap : Heap) (node : Ptr) : M Heap :=
  match heap.refs.read node with
  | none => .error .useAfterFree
  | some heapIdx =>
    match heap.entries.getLast? with
    | none => .ok heap
    | some back =>
      if heapIdx < heap.entries.length then
        let heap := { heap with entries := (heap.entries.set heapIdx back).dropLast }
        if heapIdx < heap.entries.length then heapFix heap heapIdx else .ok heap
      else .ok heap

end CustomRedis
