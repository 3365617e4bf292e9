import CustomRedis.Model.Dstr
import CustomRedis.Model.OutHelpers

/-!
# The client

`handle_write` and `handle_read` of `client.cpp`. The size of a message is computed in 32 bits, and a message above the
limit is not sent. A reply is read as a whole and printed item by item. What a line prints is kept as a value here, not as
the text that `printf` makes of it, except for strings: `%s` prints what is in the block of `dstr_init` up to a zero byte,
and `junk` says what `malloc` left in the blocks.
-/

namespace CustomRedis

def clientMaxMessageLen : Nat := 4096

/-- The size of the message for a query, header excluded. -/
def querySize (query : List Bytes) : Nat := query.foldl (fun n token => (n + (5 + token.length)) % 2 ^ 32) 5

/-- The bytes of a query, or `none` where the message is refused. -/
def handleWrite (query : List Bytes) : Option Bytes :=
  let totalSize := querySize query
  if totalSize > clientMaxMessageLen then none
  else
    let buf := bufAppendU32 [] totalSize
    let buf := bufAppendU32 (bufAppendU8 buf tagArr) query.length
    some (query.foldl
      (fun buf token => bufAppend (bufAppendU32 (bufAppendU8 buf tagStr) token.length) token) buf)

/-! ### Replies -/

inductive Item
  /-- `"(arr) len=%d"`; the members are items of their own -/
  | arr (len : UInt32)
  /-- `"(str) %s"` -/
  | str (bytes : Bytes)
  /-- `"(err) %s"` -/
  | err (bytes : Bytes)
  /-- `"(double) %f"` -/
  | double (data : Double)
  /-- `"(int) %d"` -/
  | int (data : UInt32)
  /-- `"(null)"` -/
  | null
  deriving DecidableEq, Repr

/-- `str->buf` of a string from `dstr_init`, with its last byte: the first byte is set, the others are as `malloc` left
them. -/
def freshBuf (junk : Nat → UInt8) (len : Nat) : Bytes := 0 :: (List.range len).map fun i => junk (i + 1)

/-- What `%s` prints of a block. Without a zero byte in it the read goes on behind the block. -/
def printfStr (block : Bytes) : M Bytes := if 0 ∈ block then .ok (cstr block) else .error .outOfBounds

/-- The part of `print_res` behind the tag: what is printed and the new position. -/
def printItem (junk : Nat → UInt8) (buf : Bytes) (tag : UInt8) (curr : Nat) : M (Option Item × Nat) :=
  if tag = tagArr then do
    let arrSize ← bytesAt buf ⟨curr, 4⟩
    .ok (some (.arr (UInt32.ofNat (leNat 4 arrSize))), curr + 4)
  else if tag = tagStr ∨ tag = tagError then do
    let strSize := leNat 4 (← bytesAt buf ⟨curr, 4⟩)
    let curr := curr + 4
    match dstrInit strSize with
    | none => .error .nullStr
    | some _ => do
      let bytes ← bytesAt buf ⟨curr, strSize⟩
      let printed ← printfStr (bytes ++ (freshBuf junk strSize).drop strSize)
      .ok (some (if tag = tagStr then .str printed else .err printed), curr + strSize)
  else if tag = tagDouble then do
    let data ← bytesAt buf ⟨curr, 8⟩
    .ok (some (.double ⟨UInt64.ofNat (leNat 8 data)⟩), curr + 8)
  else if tag = tagInt then do
    let data ← bytesAt buf ⟨curr, 4⟩
    .ok (some (.int (UInt32.ofNat (leNat 4 data))), curr + 4)
  else if tag = tagNull then .ok (some .null, curr)
  else .ok (none, curr)

/-- `print_res`: what is printed and the position at the end. `junk n` is for the block of the call after `n` others. -/
def printRes (junk : Nat → Nat → UInt8) (buf : Bytes) (totalLen : UInt32) : Nat → Nat → Nat → M (List Item × Nat)
  | 0, _, _ => .error .outOfFuel
  | fuel + 1, n, curr =>
    if curr ≥ (4 + totalLen).toNat then .ok ([], curr)
    else do
      let tag ← bytesAt buf ⟨curr, 1⟩
      let (item, curr) ← printItem (junk n) buf (tag.headD 0) (curr + 1)
      let (items, curr) ← printRes junk buf totalLen fuel (n + 1) curr
      .ok (item.toList ++ items, curr)

/-- `read_all`: the bytes and what is left, or `none` where the connection ends before. -/
def readAll (stream : Bytes) (n : Nat) : Option (Bytes × Bytes) :=
  if n ≤ stream.length then some (stream.take n, stream.drop n) else none

/-- What `handle_read` of the client prints, the position of `print_res` at its end, and what is left of the stream. -/
structure Shown where
  items : List Item
  curr : Nat
  stream : Bytes
  deriving DecidableEq, Repr

/-- `handle_read` of the client, with `none` for its `-1`. The new size of the buffer is computed in 32 bits. -/
def clientHandleRead (junk : Nat → Nat → UInt8) (stream : Bytes) : M (Option Shown) :=
  match readAll stream 4 with
  | none => .ok none
  | some (header, stream) =>
    let totalLen := UInt32.ofNat (leNat 4 header)
    if (4 + totalLen).toNat < 4 then .error .outOfBounds
    else
      match readAll stream totalLen.toNat with
      | none => .ok none
      | some (body, stream) => do
        let buf := header ++ body
        let curr := 4 + 1 + 4 + 1
        let _ ← bytesAt buf ⟨curr, 4⟩
        let (items, curr) ← printRes junk buf totalLen (buf.length + 1) 0 (curr + 4)
        .ok (some ⟨items, curr, stream⟩)

end CustomRedis
