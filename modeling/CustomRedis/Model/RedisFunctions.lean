import CustomRedis.Model.Keyspace
import CustomRedis.Model.OutHelpers

/-!
# The command handlers

`redis_functions.cpp`. A handler takes the keyspace, the outgoing buffer and the tokens of the request, and
returns the new keyspace, the new buffer and its return value. The pieces that many handlers repeat,
building a probe and looking a key up, are `findNode` and `findOrInsert`. Everything else stands in the
order of the source, since what a failing command has done before it fails depends on it.
-/

namespace CustomRedis

inductive ReturnVal
  | success
  | notFound
  | incorrectType
  | sizeErr
  | outOfRange
  | internalErr
  deriving DecidableEq, Repr

inductive Side
  | left
  | right
  deriving DecidableEq, Repr

structure Result where
  data : GlobalData
  out : Bytes
  ret : ReturnVal
  deriving DecidableEq, Repr

/-- `cmd[i]` -/
def arg (cmd : List Bytes) (i : Nat) : M Bytes :=
  match cmd[i]? with
  | some t => .ok t
  | none => .error .cmdIndex

/-- `find_zset`, with `none` for the `NULL` it returns at a type mismatch. -/
def findZset (g : GlobalData) (key : Bytes) : M (Option ZSet) := do
  match ← findNode g key with
  | none => .ok (some {})
  | some node =>
    match node.val.payload with
    | .zset z => .ok (some z)
    | _ => .ok none

/-- The sorted set behind a pointer that is dereferenced. -/
def derefZset : Option ZSet → M ZSet
  | some z => .ok z
  | none => .error .nullPayload

/-- `validate_hmnode`: the error reply and the return value if the node is missing or of another type. -/
def validateHmnode (out : Bytes) (node : Option (HNode Entry)) (type : EntryType) : Option (Bytes × ReturnVal) :=
  match node with
  | none => some (outErr out "key does not exist", .notFound)
  | some n =>
    if n.val.type ≠ type then
      some (outErr out "key already exists in database but is not the correct type", .incorrectType)
    else none

/-! ### Keys -/

def doGet (g : GlobalData) (out : Bytes) (cmd : List Bytes) : M Result := do
  let key ← arg cmd 1
  match ← findNode g key with
  | none => .ok ⟨g, outNotFound out, .notFound⟩
  | some node =>
    match node.val.payload with
    | .str val => .ok ⟨g, outStr out val.buf, .success⟩
    | _ => .error .uninitPayload

/-- The string of a new node: `dstr_init(0)` and an append whose return code is ignored. -/
def newStr (val : Bytes) : M Dstr :=
  match dstrInit 0 with
  | none => .error .nullStr
  | some str => do
    let (str, _) ← dstrAppend str val
    .ok str

def doSet (env : Env) (g : GlobalData) (out : Bytes) (cmd : List Bytes) : M Result := do
  let key ← arg cmd 1
  let val ← arg cmd 2
  match ← findNode g key with
  | some node =>
    match node.val.payload with
    | .str old => do
      let (new, _) ← dstrAssign old val
      let g ← putPayload g key (.str new)
      .ok ⟨g, outNull out, .success⟩
    | _ => .error .uninitPayload
  | none => do
    let new ← newStr val
    let g ← insertNode env g key (.str new)
    .ok ⟨g, outNull out, .success⟩

/-- `do_del`. Unlike the other handlers it hashes the copy of the key. -/
def doDel (g : GlobalData) (out : Bytes) (cmd : List Bytes) : M Result := do
  let key ← arg cmd 1
  let tmp ← dstrCopy key
  let (g, deleted) ← deleteNode g ⟨strHash tmp.buf, some tmp.buf⟩
  if deleted then .ok ⟨g, outNull out, .success⟩
  else .ok ⟨g, outErr out "node does not exist", .notFound⟩

def doKeys (g : GlobalData) (out : Bytes) : M Result :=
  let keys := hmKeys g.db
  .ok ⟨g, outStrs (outArr out keys.length) keys, .success⟩

/-! ### Sorted sets -/

def doZadd (env : Env) (g : GlobalData) (out : Bytes) (cmd : List Bytes) : M Result := do
  let key ← arg cmd 1
  let score := strtod (← arg cmd 2)
  let member ← arg cmd 3
  let (g, node) ← findOrInsert env g key (.zset {})
  match node.val.payload with
  | .zset z => do
    let (z, inserted) ← zsetInsert z score member
    let g ← putPayload g key (.zset z)
    .ok ⟨g, outInt out (if inserted then 1 else 0), .success⟩
  | _ => .ok ⟨g, outErr out "cant add zset to a non-zset node", .incorrectType⟩

def doZscore (g : GlobalData) (out : Bytes) (cmd : List Bytes) : M Result := do
  let key ← arg cmd 1
  let member ← arg cmd 2
  let z ← derefZset (← findZset g key)
  match ← zsetLookup z member with
  | none => .ok ⟨g, outNull out, .success⟩
  | some p => do
    let znode ← z.znode p
    .ok ⟨g, outDouble out znode.score, .success⟩

def doZrem (g : GlobalData) (out : Bytes) (cmd : List Bytes) : M Result := do
  let key ← arg cmd 1
  let member ← arg cmd 2
  let z ← derefZset (← findZset g key)
  match ← zsetLookup z member with
  | none => .ok ⟨g, outInt out 0, .success⟩
  | some p => do
    let z ← zsetDelete z p
    let g ← putPayload g key (.zset z)
    .ok ⟨g, outInt out 1, .success⟩

/-- The loop of `do_zrangequery`. The sum of the sizes is counted in 32 bits. -/
def zrangeLoop : Nat → ZSet → Option Ptr → Nat → Nat → Bytes → M (Bytes × Nat)
  | _, _, none, size, _, out => .ok (out, size)
  | 0, _, some _, _, _, _ => .error .outOfFuel
  | fuel + 1, z, some p, size, limit, out =>
    if size < limit then do
      let znode ← z.znode p
      let out := outStr (outDouble out znode.score) znode.key
      let next ← zsetOffset z p 1
      zrangeLoop fuel z next ((size + 2) % 2 ^ 32) limit out
    else .ok (out, size)

def doZrangequery (g : GlobalData) (out : Bytes) (cmd : List Bytes) : M Result := do
  let key ← arg cmd 1
  let scoreLb := strtod (← arg cmd 2)
  let keyLb ← arg cmd 3
  let offset := match cmd[4]? with
    | some t => toI32 (strtol t)
    | none => 0
  let limit := match cmd[5]? with
    | some t => toU32 (strtol t)
    | none => 2 ^ 32 - 1
  let z ← derefZset (← findZset g key)
  match ← zsetLowerBound z scoreLb keyLb with
  | none => .ok ⟨g, outArr out 0, .success⟩
  | some lb => do
    let znode ← zsetOffset z lb offset
    let (out, sizePos) := outUnknownArr out
    let (out, size) ← zrangeLoop (z.tree.next + 1) z znode 0 limit out
    .ok ⟨g, patchU32 out sizePos size, .success⟩

/-! ### Deadlines -/

def doExpire (env : Env) (g : GlobalData) (out : Bytes) (cmd : List Bytes) : M Result := do
  let key ← arg cmd 1
  let seconds ← arg cmd 2
  let ttlMs := toU64 (strtol seconds) * 1000 % 2 ^ 64
  match ← findNode g key with
  | none => .ok ⟨g, outNull out, .success⟩
  | some node => do
    let ttl ← setTtl g.ttl env.now node.val.addr ttlMs
    .ok ⟨{ g with ttl := ttl }, outNull out, .success⟩

/-- `do_ttl`. The clock is passed as a `uint32_t`. -/
def doTtl (env : Env) (g : GlobalData) (out : Bytes) (cmd : List Bytes) : M Result := do
  let key ← arg cmd 1
  match ← findNode g key with
  | none => .ok ⟨g, outNull out, .success⟩
  | some node =>
    match g.ttl.refs.read node.val.addr with
    | none => .error .useAfterFree
    | some heapIdx => do
      let h ← g.ttl.get heapIdx
      let ttl := toU64 (h.val - (env.now % 2 ^ 32 : Nat)) / 1000
      .ok ⟨g, outInt out (ttl % 2 ^ 32), .success⟩

def doPersist (g : GlobalData) (out : Bytes) (cmd : List Bytes) : M Result := do
  let key ← arg cmd 1
  match ← findNode g key with
  | none => .ok ⟨g, outNull out, .success⟩
  | some node => do
    let ttl ← remTtl g.ttl node.val.addr
    .ok ⟨{ g with ttl := ttl }, outNull out, .success⟩

/-! ### Hashes -/

/-- `do_hset`. The key of the second probe is never set: the copy of the field goes to the first one. -/
def doHset (env : Env) (g : GlobalData) (out : Bytes) (cmd : List Bytes) : M Result := do
  let key ← arg cmd 1
  let field ← arg cmd 2
  let value ← arg cmd 3
  let (g, node) ← findOrInsert env g key (.hset {})
  match node.val.payload with
  | .hset hmap => do
    let _ ← dstrCopy field
    let probe : Probe := ⟨strHash field, none⟩
    match ← hmLookup hmap probe with
    | some _ => do
      let val ← dstrCopy value
      let hmap ← hmModify hmap probe fun _ => val
      let g ← putPayload g key (.hset hmap)
      .ok ⟨g, outNull out, .success⟩
    | none => do
      let fieldKey ← dstrCopy field
      let val ← dstrCopy value
      let (hmap, _) ← hmInsert hmap ⟨strHash field, fieldKey.buf, val⟩
      let g ← putPayload g key (.hset hmap)
      .ok ⟨g, outNull out, .success⟩
  | _ => .ok ⟨g, outErr out "keyspace key is not of type hashmap", .incorrectType⟩

def doHget (g : GlobalData) (out : Bytes) (cmd : List Bytes) : M Result := do
  let key ← arg cmd 1
  let field ← arg cmd 2
  match ← findNode g key with
  | none => .ok ⟨g, outNull out, .success⟩
  | some node =>
    match node.val.payload with
    | .hset hmap => do
      let tmp ← dstrCopy field
      match ← hmLookup hmap ⟨strHash field, some tmp.buf⟩ with
      | some n => .ok ⟨g, outStr out n.val.buf, .success⟩
      | none => .ok ⟨g, outNull out, .success⟩
    | _ => .ok ⟨g, outErr out "keyspace key is not of type hashmap", .incorrectType⟩

def doHdel (g : GlobalData) (out : Bytes) (cmd : List Bytes) : M Result := do
  let key ← arg cmd 1
  let field ← arg cmd 2
  match ← findNode g key with
  | none => .ok ⟨g, outNull out, .success⟩
  | some node =>
    match node.val.payload with
    | .hset hmap => do
      let tmp ← dstrCopy field
      let (hmap, deleted, _) ← hmDelete hmap ⟨strHash field, some tmp.buf⟩
      if deleted then do
        let g ← putPayload g key (.hset hmap)
        if hmSize hmap = 0 then do
          let (g, _) ← deleteNode g ⟨node.hcode, some node.key⟩
          .ok ⟨g, outNull out, .success⟩
        else .ok ⟨g, outNull out, .success⟩
      else .ok ⟨g, outErr out "node does not exist", .notFound⟩
    | _ => .ok ⟨g, outErr out "keyspace key is not of type hashmap", .success⟩

/-- `do_hgetall`, which does not look at the type of the node. -/
def doHgetall (g : GlobalData) (out : Bytes) (cmd : List Bytes) : M Result := do
  let key ← arg cmd 1
  match ← findNode g key with
  | none => .ok ⟨g, outNull out, .success⟩
  | some node =>
    match node.val.payload with
    | .hset hmap =>
      let keys := hmKeys hmap
      .ok ⟨g, outStrs (outArr out keys.length) keys, .success⟩
    | _ => .error .uninitPayload

/-! ### Lists -/

/-- The links of `do_push` and the new size. -/
def pushNode (l : DList) (side : Side) (value : Bytes) : M DList := do
  let val ← dstrCopy value
  let node := l.mem.next
  let mem := l.mem.alloc { val := val.buf }
  let size := (l.size + 1) % 2 ^ 32
  if l.size = 0 then .ok ⟨some node, some node, size, mem⟩
  else
    match side with
    | .left =>
      match l.head with
      | none => .error .nullLink
      | some head => do
        let mem ← dlistInsertBefore mem head node
        .ok ⟨some node, l.tail, size, mem⟩
    | .right =>
      match l.tail with
      | none => .error .nullLink
      | some tail => do
        let mem ← dlistInsertAfter mem tail node
        .ok ⟨l.head, some node, size, mem⟩

def doPush (env : Env) (g : GlobalData) (out : Bytes) (cmd : List Bytes) (side : Side) : M Result := do
  let key ← arg cmd 1
  let value ← arg cmd 2
  let (g, node) ← findOrInsert env g key (.list {})
  match node.val.payload with
  | .list l => do
    let l ← pushNode l side value
    let g ← putPayload g key (.list l)
    .ok ⟨g, outInt out l.size, .success⟩
  | _ => .ok ⟨g, outErr out "node with the provided key exists and is not of type LIST", .incorrectType⟩

/-- One round of `do_pop`. -/
def popNode (l : DList) (side : Side) : M (DList × Bytes) :=
  match side with
  | .left => do
    let node ← l.mem.deref l.head
    let mem ← l.mem.setPrev? node.next none
    .ok (⟨node.next, l.tail, (l.size + (2 ^ 32 - 1)) % 2 ^ 32, mem.free (l.head.getD 0)⟩, node.val)
  | .right => do
    let node ← l.mem.deref l.tail
    let mem ← l.mem.setNext? node.prev none
    .ok (⟨l.head, node.prev, (l.size + (2 ^ 32 - 1)) % 2 ^ 32, mem.free (l.tail.getD 0)⟩, node.val)

def popLoop : Nat → DList → Side → Bytes → M (DList × Bytes)
  | 0, l, _, out => .ok (l, out)
  | n + 1, l, side, out => do
    let (l, val) ← popNode l side
    popLoop n l side (outStr out val)

/-- `do_pop`. The count is compared with the size of the list as an unsigned number. -/
def doPop (g : GlobalData) (out : Bytes) (cmd : List Bytes) (side : Side) : M Result := do
  let key ← arg cmd 1
  let count ← arg cmd 2
  match ← findNode g key with
  | none => .ok ⟨g, outErr out "key does not exist in the database", .notFound⟩
  | some node =>
    match node.val.payload with
    | .list l =>
      let size := toI32 (min (toU32 (toI32 (strtol count))) l.size : Nat)
      if size ≤ 0 then .ok ⟨g, outErr out "value must be positive", .sizeErr⟩
      else do
        let (l, out) ← popLoop size.toNat l side (outArr out (toU32 size))
        let g ← putPayload g key (.list l)
        .ok ⟨g, out, .success⟩
    | _ => .ok ⟨g, outErr out "node with the provided key exists and is not of type LIST", .incorrectType⟩

/-- `begin = begin->prev`, `n` times -/
def walkPrev (m : DListMem Bytes) : Nat → Option Ptr → M (Option Ptr)
  | 0, p => .ok p
  | n + 1, p => do
    let c ← m.deref p
    walkPrev m n c.prev

def walkNext (m : DListMem Bytes) : Nat → Option Ptr → M (Option Ptr)
  | 0, p => .ok p
  | n + 1, p => do
    let c ← m.deref p
    walkNext m n c.next

def lrangeLoop (m : DListMem Bytes) : Nat → Option Ptr → Bytes → M Bytes
  | 0, _, out => .ok out
  | n + 1, p, out => do
    let c ← m.deref p
    lrangeLoop m n c.next (outStr out c.val)

def doLrange (g : GlobalData) (out : Bytes) (cmd : List Bytes) : M Result := do
  let key ← arg cmd 1
  let start := toI32 (strtol (← arg cmd 2))
  let last := toI32 (strtol (← arg cmd 3))
  match ← findNode g key with
  | none => .ok ⟨g, outErr out "key does not exist in the database", .notFound⟩
  | some node =>
    match node.val.payload with
    | .list l =>
      let start := if start < 0 then toI32 (l.size + start) else start
      let last := if last < 0 then toI32 (l.size + last) else last
      if toU32 start ≥ l.size then .ok ⟨g, outErr out "index out of range", .outOfRange⟩
      else do
        let fromHead := toU32 start
        let fromTail := toU32 (l.size - start - 1)
        let begin ←
          if fromHead < fromTail then walkPrev l.mem fromTail l.tail else walkNext l.mem fromHead l.head
        let size := min (max 0 (toI32 (last - start + 1))).toNat l.size
        let out ← lrangeLoop l.mem size begin (outArr out size)
        .ok ⟨g, out, .success⟩
    | _ => .ok ⟨g, outErr out "node with the provided key exists and is not of type LIST", .incorrectType⟩

/-! ### Sets -/

/-- `do_sadd`. It neither looks for the value nor replies. -/
def doSadd (env : Env) (g : GlobalData) (out : Bytes) (cmd : List Bytes) : M Result := do
  let key ← arg cmd 1
  let value ← arg cmd 2
  let (g, node) ← findOrInsert env g key (.set {})
  match node.val.payload with
  | .set s => do
    let valueKey ← dstrCopy value
    let (s, _) ← hmInsert s ⟨strHash value, valueKey.buf, ()⟩
    let g ← putPayload g key (.set s)
    .ok ⟨g, out, .success⟩
  | _ => .ok ⟨g, outErr out "key already exists in the database and is not of type SET", .incorrectType⟩

/-- The set of a node, or the error reply and the return value of the set commands that only read the key. -/
def requireSet (out : Bytes) (node : Option (HNode Entry)) : Except (Bytes × ReturnVal) (HMap Unit) :=
  match node with
  | none => .error (outErr out "node with the provided key does not exist", .notFound)
  | some n =>
    match n.val.payload with
    | .set s => .ok s
    | _ => .error (outErr out "key is not of type SET", .incorrectType)

def doSrem (g : GlobalData) (out : Bytes) (cmd : List Bytes) : M Result := do
  let key ← arg cmd 1
  let value ← arg cmd 2
  match requireSet out (← findNode g key) with
  | .error (out, ret) => .ok ⟨g, out, ret⟩
  | .ok s => do
    let tmp ← dstrCopy value
    let (s, deleted, _) ← hmDelete s ⟨strHash value, some tmp.buf⟩
    let g ← putPayload g key (.set s)
    .ok ⟨g, outInt out (if deleted then 1 else 0), .success⟩

def doSmembers (g : GlobalData) (out : Bytes) (cmd : List Bytes) : M Result := do
  let key ← arg cmd 1
  match requireSet out (← findNode g key) with
  | .error (out, ret) => .ok ⟨g, out, ret⟩
  | .ok s =>
    let keys := hmKeys s
    .ok ⟨g, outStrs (outArr out keys.length) keys, .success⟩

def doScard (g : GlobalData) (out : Bytes) (cmd : List Bytes) : M Result := do
  let key ← arg cmd 1
  match requireSet out (← findNode g key) with
  | .error (out, ret) => .ok ⟨g, out, ret⟩
  | .ok s => .ok ⟨g, outInt out (hmSize s), .success⟩

/-! ### Bitmaps -/

/-- `bitmap->buf[i]`. Behind the bytes of the string stands its terminator. -/
def byteAt (bitmap : Dstr) (i : Int) : M UInt8 :=
  if 0 ≤ i ∧ i < bitmap.size then .ok (bitmap.buf.getD i.toNat 0)
  else if i = bitmap.size then .ok 0
  else .error .outOfBounds

def bitMask (bitIdx : Nat) : UInt8 := 1 <<< UInt8.ofNat bitIdx

/-- The part of `do_setbit` behind the checks: the bitmap and the previous bit, or `none` if the string
could not be extended. -/
def setBit (bitmap : Dstr) (bitIdx : Nat) (one : Bool) : M (Option (Dstr × Nat)) := do
  let byteIdx := bitIdx / 8
  let bitIdx := 7 - bitIdx % 8
  let (bitmap, err) ←
    if byteIdx ≥ bitmap.size then dstrResize bitmap (byteIdx + 1) 0 else .ok (bitmap, .ok)
  if err ≠ .ok then .ok none
  else do
    let byte ← byteAt bitmap byteIdx
    let prev := (byte >>> UInt8.ofNat bitIdx) &&& 1
    let byte := if one then byte ||| bitMask bitIdx else byte &&& ~~~(bitMask bitIdx)
    .ok (some ({ bitmap with buf := bitmap.buf.set byteIdx byte }, prev.toNat))

def doSetbit (env : Env) (g : GlobalData) (out : Bytes) (cmd : List Bytes) : M Result := do
  let key ← arg cmd 1
  let bitPos ← arg cmd 2
  let bitValue ← arg cmd 3
  match dstrInit 0 with
  | none => .error .nullStr
  | some empty => do
    let (g, node) ← findOrInsert env g key (.bitmap empty)
    match node.val.payload with
    | .bitmap bitmap =>
      let bitIdx := strtol bitPos
      if bitIdx < 0 ∨ bitIdx > 2 ^ 32 - 1 then
        .ok ⟨g, outErr out "index must be in range [0, 2^32-1]", .outOfRange⟩
      else if !strEq bitValue (text "0") && !strEq bitValue (text "1") then
        .ok ⟨g, outErr out "bit has to be 0 or 1", .incorrectType⟩
      else do
        match ← setBit bitmap bitIdx.toNat (strEq bitValue (text "1")) with
        | none => .ok ⟨g, outErr out "bitmap resize failed", .internalErr⟩
        | some (bitmap, prev) => do
          let g ← putPayload g key (.bitmap bitmap)
          .ok ⟨g, outInt out prev, .success⟩
    | _ => .ok ⟨g, outErr out "key already exists in database but is not of type BITMAP", .incorrectType⟩

def doGetbit (g : GlobalData) (out : Bytes) (cmd : List Bytes) : M Result := do
  let key ← arg cmd 1
  let bitPos ← arg cmd 2
  let node ← findNode g key
  match validateHmnode out node .bitmap, node with
  | some (out, ret), _ => .ok ⟨g, out, ret⟩
  | none, some ⟨_, _, ⟨_, .bitmap bitmap⟩⟩ =>
    let bitIdx := strtol bitPos
    if bitIdx < 0 ∨ bitIdx / 8 ≥ bitmap.size then .ok ⟨g, outErr out "index outside of range", .outOfRange⟩
    else do
      let byte ← byteAt bitmap (bitIdx / 8 % 2 ^ 32)
      let bit := (byte >>> UInt8.ofNat (7 - bitIdx % 8).toNat) &&& 1
      .ok ⟨g, outInt out bit.toNat, .success⟩
  | none, _ => .error .uninitPayload

/-- The number of one bits of a byte. -/
def popCount (byte : UInt8) : Nat := ((List.range 8).filter fun i => (byte >>> UInt8.ofNat i) &&& 1 = 1).length

/-- The loop of `do_bitcount` over bytes, `n` of them from `i` on. -/
def bitcountBytes (bitmap : Dstr) : Nat → Int → Nat → M Nat
  | 0, _, ret => .ok ret
  | n + 1, i, ret => do
    let byte ← byteAt bitmap i
    bitcountBytes bitmap n (i + 1) (ret + popCount byte)

/-- Bit `i` of a `char`, which is widened to an `int` before it is shifted. -/
def charBit (byte : UInt8) (i : Nat) : Nat := ((byte >>> UInt8.ofNat (min i 7)) &&& 1).toNat

/-- The loop of `do_bitcount` over bits. Division and remainder truncate towards zero. -/
def bitcountBits (bitmap : Dstr) : Nat → Int → Nat → M Nat
  | 0, _, ret => .ok ret
  | n + 1, i, ret => do
    let byte ← byteAt bitmap (i.tdiv 8)
    bitcountBits bitmap n (i + 1) (ret + charBit byte (7 - i.tmod 8).toNat)

def doBitcount (g : GlobalData) (out : Bytes) (cmd : List Bytes) : M Result := do
  let key ← arg cmd 1
  let start := match cmd[2]? with
    | some t => strtol t
    | none => 0
  let last := match cmd[3]? with
    | some t => strtol t
    | none => -1
  let isByteMode := cmd.length == 5 && strEq (cmd.getD 4 []) (text "BYTE")
  let node ← findNode g key
  match validateHmnode out node .bitmap, node with
  | some (out, ret), _ => .ok ⟨g, out, ret⟩
  | none, some ⟨_, _, ⟨_, .bitmap bitmap⟩⟩ =>
    let count := if isByteMode then bitmap.size else bitmap.size * 8
    let start := if start < 0 then toI64 (start + count) else start
    let last := if last < 0 then toI64 (last + count) else last
    let last := min last (count - 1)
    let rounds := (last - start + 1).toNat
    if isByteMode then do
      let ret ← bitcountBytes bitmap rounds start 0
      .ok ⟨g, outInt out ret, .success⟩
    else do
      let ret ← bitcountBits bitmap rounds start 0
      .ok ⟨g, outInt out ret, .success⟩
  | none, _ => .error .uninitPayload

/-! ### HyperLogLogs -/

def doPfadd (env : Env) (g : GlobalData) (out : Bytes) (cmd : List Bytes) : M Result := do
  let key ← arg cmd 1
  let val ← arg cmd 2
  let (g, node) ← findOrInsert env g key (.hll hllInit)
  match node.val.payload with
  | .hll hll => do
    let (hll, isAdded) ← hllAdd env.junk hll val
    let g ← putPayload g key (.hll hll)
    .ok ⟨g, outInt out isAdded, .success⟩
  | _ => .ok ⟨g, outErr out "wrong type", .incorrectType⟩

def doPfcount (env : Env) (g : GlobalData) (out : Bytes) (cmd : List Bytes) : M Result := do
  let key ← arg cmd 1
  let node ← findNode g key
  match validateHmnode out node .hll, node with
  | some (out, ret), _ => .ok ⟨g, out, ret⟩
  | none, some ⟨_, _, ⟨_, .hll hll⟩⟩ => do
    let (hll, count) ← hllCount env.estimate hll
    let g ← putPayload g key (.hll hll)
    .ok ⟨g, outInt out count, .success⟩
  | none, _ => .error .uninitPayload

/-- `do_pfmerge` has no body and so no return value. -/
def doPfmerge : M Result := .error .missingReturn

end CustomRedis
