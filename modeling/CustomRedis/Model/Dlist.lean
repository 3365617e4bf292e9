import CustomRedis.Model.Common
import CustomRedis.Lib.Mem

/-!
# Doubly linked lists

`data_structures/dlist.cpp` over an explicit memory of nodes, and the list value of the keyspace with its
head, its tail and its 32-bit size.
-/

namespace CustomRedis

structure DListNode (α : Type) where
  prev : Option Ptr := none
  next : Option Ptr := none
  val : α
  deriving DecidableEq, Repr

abbrev DListMem (α : Type) := Mem (DListNode α)

namespace DListMem

variable {α : Type}

/-- `*p` -/
def node (m : DListMem α) (p : Ptr) : M (DListNode α) :=
  match m.read p with
  | some c => .ok c
  | none => .error .useAfterFree

/-- `*p` for a link, which may be null. -/
def deref (m : DListMem α) : Option Ptr → M (DListNode α)
  | some p => m.node p
  | none => .error .nullLink

def modify (m : DListMem α) (p : Ptr) (f : DListNode α → DListNode α) : M (DListMem α) := do
  let c ← m.node p
  .ok (m.set p (f c))

def setNext (m : DListMem α) (p : Ptr) (next : Option Ptr) : M (DListMem α) :=
  m.modify p fun c => { c with next := next }

def setPrev (m : DListMem α) (p : Ptr) (prev : Option Ptr) : M (DListMem α) :=
  m.modify p fun c => { c with prev := prev }

/-- `if (p) p->next = next` -/
def setNext? (m : DListMem α) (p : Option Ptr) (next : Option Ptr) : M (DListMem α) :=
  match p with
  | some p => m.setNext p next
  | none => .ok m

def setPrev? (m : DListMem α) (p : Option Ptr) (prev : Option Ptr) : M (DListMem α) :=
  match p with
  | some p => m.setPrev p prev
  | none => .ok m

end DListMem

section Operations

variable {α : Type}

def dlistInit (m : DListMem α) (node : Ptr) : M (DListMem α) := do
  let m ← m.setPrev node (some node)
  m.setNext node (some node)

def dlistEmpty (m : DListMem α) (node : Ptr) : M Bool := do
  let c ← m.node node
  .ok (c.next == some node)

def dlistDeatach (m : DListMem α) (node : Ptr) : M (DListMem α) := do
  let c ← m.node node
  let m ← m.setNext? c.prev c.next
  m.setPrev? c.next c.prev

def dlistInsertBefore (m : DListMem α) (target node : Ptr) : M (DListMem α) := do
  let t ← m.node target
  let m ← m.setPrev target (some node)
  let m ← m.setNext node (some target)
  let m ← m.setPrev node t.prev
  m.setNext? t.prev (some node)

def dlistInsertAfter (m : DListMem α) (target node : Ptr) : M (DListMem α) := do
  let t ← m.node target
  let m ← m.setNext target (some node)
  let m ← m.setPrev node (some target)
  let m ← m.setNext node t.next
  m.setPrev? t.next (some node)

end Operations

/-- A `DList` with the nodes it owns. The value of a node is a string. -/
structure DList where
  head : Option Ptr := none
  tail : Option Ptr := none
  size : Nat := 0
  mem : DListMem Bytes := {}
  deriving DecidableEq, Repr

end CustomRedis
