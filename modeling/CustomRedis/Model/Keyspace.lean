import CustomRedis.Model.Zset
import CustomRedis.Model.Heap
import CustomRedis.Model.Dlist
import CustomRedis.Model.Hyperloglog

/-!
# The keyspace

`GlobalData` of `server.h` without the connections, and the nodes of the database. `new_node` sets the
payload fields of one type only, so the payload of a node is one of seven forms: reading the field of
another type is reading memory that nobody has written. A node is one block. Its address names it in
the heap of deadlines and in the queue of the thread pool, and its `heap_idx` lives in the memory of the
heap, so a node is alive as long as that field is.

What the program takes from outside, besides its requests, is collected in `Env`.
-/

namespace CustomRedis

inductive Payload
  | str (val : Dstr)
  | zset (zset : ZSet)
  | hset (hmap : HMap Dstr)
  | list (list : DList)
  | set (set : HMap Unit)
  | bitmap (bitmap : Dstr)
  | hll (hll : Hll)
  deriving DecidableEq, Repr

def Payload.type : Payload → EntryType
  | str _ => .str
  | zset _ => .zset
  | hset _ => .hset
  | list _ => .list
  | set _ => .set
  | bitmap _ => .bitmap
  | hll _ => .hll

/-- A node of the database. -/
structure Entry where
  addr : Ptr
  payload : Payload
  deriving DecidableEq, Repr

abbrev Entry.type (e : Entry) : EntryType := e.payload.type

instance : Teardown Dstr where
  weight _ := 0
  clear s := s

instance : Teardown Unit where
  weight _ := 0
  clear u := u

/-- The size that `ht_unlink` compares with its threshold, and `hn_unlink_sync`. -/
instance : Teardown Entry where
  weight e :=
    match e.payload with
    | .zset z => hmSize z.hmap
    | .hset h => hmSize h
    | _ => 0
  clear e :=
    match e.payload with
    | .zset z => { e with payload := .zset (zsetClear z) }
    | .hset h => { e with payload := .hset (hmClear h) }
    | _ => e

structure GlobalData where
  db : HMap Entry := {}
  /-- `ttl_heap` and the `heap_idx` fields of the nodes -/
  ttl : Heap := {}
  /-- the nodes whose teardown waits in the thread pool -/
  queue : List Ptr := []
  deriving DecidableEq, Repr

/-- What a command sees of the world outside. -/
structure Env where
  /-- `get_curr_ms()` -/
  now : Nat := 0
  /-- what `malloc` left in the `heap_idx` of the node that `new_node` returns -/
  heapIdx : Nat := 2 ^ 64 - 1
  /-- what the allocator left in other fresh memory -/
  junk : Nat → UInt8 := fun _ => 0
  /-- the estimate of `hll_count` -/
  estimate : Bytes → Nat := fun _ => 0

/-- The probe node that the handlers build for a key, and the lookup with it. -/
def findNode (g : GlobalData) (key : Bytes) : M (Option (HNode Entry)) := do
  let tmp ← dstrCopy key
  hmLookup g.db ⟨strHash key, some tmp.buf⟩

/-- A node as `new_node` allocates it for a key. -/
def newNode (g : GlobalData) (key : Bytes) (payload : Payload) : M (HNode Entry) := do
  let nodeKey ← dstrCopy key
  .ok ⟨strHash key, nodeKey.buf, ⟨g.ttl.refs.next, payload⟩⟩

/-- `new_node` and `hm_insert` on the database -/
def insertNode (env : Env) (g : GlobalData) (key : Bytes) (payload : Payload) : M GlobalData := do
  let node ← newNode g key payload
  let (db, jobs) ← hmInsert g.db node
  .ok {
    db := db
    ttl := { g.ttl with refs := g.ttl.refs.alloc env.heapIdx }
    queue := g.queue ++ jobs.map fun n => n.val.addr }

/-- A write to the payload of the node that was looked up or inserted for a key. -/
def putPayload (g : GlobalData) (key : Bytes) (payload : Payload) : M GlobalData := do
  let tmp ← dstrCopy key
  let db ← hmModify g.db ⟨strHash key, some tmp.buf⟩ fun e => { e with payload := payload }
  .ok { g with db := db }

/-- The node of a key, inserted with the given payload if there is none. The insert may have moved the
new node, so its fields are read behind it. -/
def findOrInsert (env : Env) (g : GlobalData) (key : Bytes) (payload : Payload) :
    M (GlobalData × HNode Entry) := do
  match ← findNode g key with
  | some node => .ok (g, node)
  | none => do
    let g ← insertNode env g key payload
    match ← findNode g key with
    | some node => .ok (g, node)
    | none => .error .useAfterFree

/-- `hm_delete(&global_data.db, probe, true)` -/
def deleteNode (g : GlobalData) (probe : Probe) : M (GlobalData × Bool) := do
  match ← hmLookup g.db probe with
  | none => .ok (g, false)
  | some node => do
    let (db, _, jobs) ← hmDelete g.db probe
    .ok ({
      db := db
      ttl := { g.ttl with refs := g.ttl.refs.free node.val.addr }
      queue := g.queue ++ jobs.map fun n => n.val.addr }, true)

/-- A worker of the thread pool takes the next node and runs `hn_del_wrapper` on it. -/
def workerStep (g : GlobalData) : M GlobalData :=
  match g.queue with
  | [] => .ok g
  | addr :: queue =>
    if (g.ttl.refs.read addr).isSome then
      .ok { g with
        db := g.db.mapVal fun e => if e.addr = addr then Teardown.clear e else e
        queue := queue }
    else .error .useAfterFree

end CustomRedis
