import CustomRedis.Model.Dstr

/-!
# The hash map

`data_structures/hashmap.cpp`, over any type of values. A chain of the C code is linked through the
`next` field of its nodes; here a slot of a table is the list of the nodes in its chain, and a
`HNode **` is a slot together with a depth in its chain. An unallocated table is the empty list of
slots. An index `hcode & mask` is inside the table by construction, since `h_init` sets the mask to
the number of slots minus one; the other index, `migrate_pos`, is checked.

The values say through `Teardown` what `ht_unlink` does to the node it takes out of a chain. It hands
nodes with a large payload to the thread pool, so the operations return the list of nodes they handed
over.
-/

namespace CustomRedis

def maxLoadFactor : Nat := 8

def rehashingWork : Nat := 128

/-- `LARGE_SIZE_TRESHOLD` of `ht_unlink`. -/
def largeSizeTreshold : Nat := 1000

structure HNode (α : Type) where
  hcode : UInt64
  key : Bytes
  val : α
  deriving DecidableEq, Repr

structure HTab (α : Type) where
  tab : List (List (HNode α)) := []
  mask : Nat := 0
  size : Nat := 0
  deriving DecidableEq, Repr

structure HMap (α : Type) where
  older : HTab α := {}
  newer : HTab α := {}
  migratePos : Nat := 0
  deriving DecidableEq, Repr

/-- The node a lookup is made with. Only the hash and the key matter, and the key may be `NULL`. -/
structure Probe where
  hcode : UInt64
  key : Option Bytes
  deriving DecidableEq, Repr

/-- A place in a table that holds a pointer to a node. -/
structure Slot where
  pos : Nat
  depth : Nat
  deriving DecidableEq, Repr

/-- What unlinking a node does to its payload. -/
class Teardown (α : Type) where
  /-- the number of elements `ht_unlink` counts in the payload -/
  weight : α → Nat
  /-- `hn_unlink_sync` -/
  clear : α → α

namespace HTab

variable {α : Type}

/-- `htab->tab == NULL` -/
abbrev IsNull (htab : HTab α) : Prop := htab.tab = []

/-- The slot a hash code belongs to. -/
def slotOf (htab : HTab α) (hcode : UInt64) : Nat := hcode.toNat &&& htab.mask

/-- The node a slot points to. -/
def deref (htab : HTab α) (slot : Slot) : Option (HNode α) :=
  (htab.tab.getD slot.pos [])[slot.depth]?

/-- `*from = to_delete->next; htab->size--` -/
def eraseAt (htab : HTab α) (slot : Slot) : HTab α :=
  { htab with tab := htab.tab.modify slot.pos (·.eraseIdx slot.depth), size := htab.size - 1 }

/-- A write to the value of the node that a slot points to. -/
def modifyAt (htab : HTab α) (slot : Slot) (f : α → α) : HTab α :=
  { htab with
    tab := htab.tab.modify slot.pos (·.modify slot.depth fun node => { node with val := f node.val }) }

/-- All nodes in the order of the slots and of the chains. -/
def nodes (htab : HTab α) : List (HNode α) := htab.tab.flatten

end HTab

section Operations

variable {α : Type}

def hInit (n : Nat) : M (HTab α) :=
  if n > 0 ∧ (n - 1) &&& n = 0 then .ok { tab := List.replicate n [], mask := n - 1, size := 0 }
  else .error .assertFailed

def hmRehash (hmap : HMap α) : M (HMap α) := do
  let newer ← hInit (2 * (hmap.newer.mask + 1))
  .ok { older := hmap.newer, newer := newer, migratePos := 0 }

/-- The walk of `ht_lookup` along a chain. The key of the probe is only read at a node with the same hash. -/
def chainLookup (node : Probe) : List (HNode α) → Nat → M (Option Nat)
  | [], _ => .ok none
  | curr :: rest, depth =>
    if curr.hcode = node.hcode then
      match node.key with
      | none => .error .nullKey
      | some key => if strEq key curr.key then .ok (some depth) else chainLookup node rest (depth + 1)
    else chainLookup node rest (depth + 1)

def htLookup (htab : HTab α) (node : Probe) : M (Option Slot) :=
  if htab.IsNull then .ok none
  else do
    let pos := htab.slotOf node.hcode
    let depth ← chainLookup node (htab.tab.getD pos []) 0
    .ok (depth.map (Slot.mk pos))

def htInsert (htab : HTab α) (node : HNode α) : HTab α :=
  { htab with
    tab := htab.tab.modify (htab.slotOf node.hcode) (node :: ·)
    size := htab.size + 1 }

/-- The node after `ht_unlink`: torn down in place unless its payload is large. -/
def unlinked [Teardown α] (node : HNode α) : HNode α :=
  if Teardown.weight node.val ≥ largeSizeTreshold then node
  else { node with val := Teardown.clear node.val }

/-- The work `ht_unlink` hands to the thread pool. -/
def handedOver [Teardown α] (node : HNode α) : List (HNode α) :=
  if Teardown.weight node.val ≥ largeSizeTreshold then [node] else []

def htUnlink [Teardown α] (htab : HTab α) (slot : Slot) : Option (HTab α × HNode α × List (HNode α)) :=
  match htab.deref slot with
  | none => none
  | some toDelete => some (htab.eraseAt slot, unlinked toDelete, handedOver toDelete)

/-- The loop of `hm_rehash_help`. Each round moves one node or one slot on, which bounds the rounds. -/
def hmRehashLoop [Teardown α] : Nat → Nat → HMap α → List (HNode α) → M (HMap α × List (HNode α))
  | 0, _, _, _ => .error .outOfFuel
  | fuel + 1, nwork, hmap, jobs =>
    if nwork < rehashingWork ∧ hmap.older.size > 0 then
      match hmap.older.tab[hmap.migratePos]? with
      | none => .error .outOfBounds
      | some [] => hmRehashLoop fuel nwork { hmap with migratePos := hmap.migratePos + 1 } jobs
      | some (_ :: _) =>
        match htUnlink hmap.older ⟨hmap.migratePos, 0⟩ with
        | none => .error .nullLink
        | some (older, node, work) =>
          hmRehashLoop fuel (nwork + 1) { hmap with older := older, newer := htInsert hmap.newer node }
            (jobs ++ work)
    else .ok (hmap, jobs)

def hmRehashHelp [Teardown α] (hmap : HMap α) : M (HMap α × List (HNode α)) := do
  let (hmap, jobs) ← hmRehashLoop (rehashingWork + hmap.older.tab.length + 1) 0 hmap []
  if ¬hmap.older.IsNull ∧ hmap.older.size = 0 then .ok ({ hmap with older := {} }, jobs)
  else .ok (hmap, jobs)

/-- The node `hm_lookup` returns. -/
def hmLookup (hmap : HMap α) (key : Probe) : M (Option (HNode α)) := do
  match ← htLookup hmap.older key with
  | some slot => .ok (hmap.older.deref slot)
  | none =>
    match ← htLookup hmap.newer key with
    | some slot => .ok (hmap.newer.deref slot)
    | none => .ok none

/-- `hm_delete`: the map, the result and the work handed to the thread pool. -/
def hmDelete [Teardown α] (hmap : HMap α) (key : Probe) : M (HMap α × Bool × List (HNode α)) := do
  match ← htLookup hmap.older key with
  | some slot =>
    match htUnlink hmap.older slot with
    | none => .error .nullLink
    | some (older, _, jobs) => .ok ({ hmap with older := older }, true, jobs)
  | none =>
    match ← htLookup hmap.newer key with
    | some slot =>
      match htUnlink hmap.newer slot with
      | none => .error .nullLink
      | some (newer, _, jobs) => .ok ({ hmap with newer := newer }, true, jobs)
    | none => .ok (hmap, false, [])

def hmInsert [Teardown α] (hmap : HMap α) (node : HNode α) : M (HMap α × List (HNode α)) := do
  let newer ← if hmap.newer.IsNull then hInit 4 else .ok hmap.newer
  let hmap := { hmap with newer := htInsert newer node }
  let hmap ←
    if hmap.older.IsNull ∧ hmap.newer.size ≥ (hmap.newer.mask + 1) * maxLoadFactor then hmRehash hmap
    else .ok hmap
  hmRehashHelp hmap

def hmClear (_hmap : HMap α) : HMap α := {}

def hmSize (hmap : HMap α) : Nat := hmap.newer.size + hmap.older.size

def hForeach (htab : HTab α) : List Bytes := htab.tab.flatMap fun chain => chain.map HNode.key

def hmKeys (hmap : HMap α) : List Bytes := hForeach hmap.newer ++ hForeach hmap.older

/-- A write through the pointer that `hm_lookup` returns. -/
def hmModify (hmap : HMap α) (key : Probe) (f : α → α) : M (HMap α) := do
  match ← htLookup hmap.older key with
  | some slot => .ok { hmap with older := hmap.older.modifyAt slot f }
  | none =>
    match ← htLookup hmap.newer key with
    | some slot => .ok { hmap with newer := hmap.newer.modifyAt slot f }
    | none => .error .nullLink

/-- Applies a function to the value of every node, wherever it is linked. -/
def HMap.mapVal (hmap : HMap α) (f : α → α) : HMap α :=
  let g : HTab α → HTab α := fun htab =>
    { htab with tab := htab.tab.map (·.map fun node => { node with val := f node.val }) }
  { hmap with older := g hmap.older, newer := g hmap.newer }

/-- All nodes of the map in the order of `hm_keys`. -/
def HMap.nodes (hmap : HMap α) : List (HNode α) := hmap.newer.nodes ++ hmap.older.nodes

end Operations

end CustomRedis
