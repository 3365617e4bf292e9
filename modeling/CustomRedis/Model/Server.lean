import CustomRedis.Model.RedisFunctions

/-!
# The server

The parts of `server.cpp` that are about requests and about the database: parsing a frame, choosing the
handler, the loop over the frames of a connection, and the entry timeouts of `process_timers`. The loop
over the frames is generic in what a command does, so that what reaches the handlers can be told apart
from what the handlers do.

A run of the server, as far as the database sees it, is a list of events: a request, a round of the
timers, or a step of a worker of the thread pool.
-/

namespace CustomRedis

def maxMessageLen : Nat := 32 * 2 ^ 20

def maxTtlTasks : Nat := 200

/-! ### Dispatch -/

inductive Command
  | get | set | del | keys
  | hset | hget | hgetall | hdel
  | expire | ttl | persist
  | zadd | zscore | zrem | zquery
  | lpush | rpush | lpop | rpop | lrange
  | sadd | srem | smembers | scard
  | setbit | getbit | bitcount
  | pfadd | pfcount | pfmerge
  /-- `multi`, `exec`, `watch` and `discard`, which do nothing yet -/
  | todo
  | unknown
  deriving DecidableEq, Repr

/-- The conditions of `out_buffer` on the name and the number of tokens, in its order. -/
def selectCommand (name : Bytes) (argc : Nat) : Command :=
  if argc = 2 ∧ name = text "get" then .get
  else if argc = 3 ∧ name = text "set" then .set
  else if argc = 2 ∧ name = text "del" then .del
  else if argc = 1 ∧ name = text "keys" then .keys
  else if argc ≥ 4 ∧ argc % 2 = 0 ∧ name = text "hset" then .hset
  else if argc = 3 ∧ name = text "hget" then .hget
  else if argc = 2 ∧ name = text "hgetall" then .hgetall
  else if argc ≥ 3 ∧ name = text "hdel" then .hdel
  else if argc = 3 ∧ name = text "expire" then .expire
  else if argc = 2 ∧ name = text "ttl" then .ttl
  else if argc = 2 ∧ name = text "persist" then .persist
  else if argc = 4 ∧ name = text "zadd" then .zadd
  else if argc = 3 ∧ name = text "zscore" then .zscore
  else if argc = 3 ∧ name = text "zrem" then .zrem
  else if name = text "zquery" then .zquery
  else if name = text "lpush" ∧ argc = 3 then .lpush
  else if name = text "rpush" ∧ argc = 3 then .rpush
  else if name = text "lpop" ∧ argc ≥ 2 then .lpop
  else if name = text "rpop" ∧ argc ≥ 2 then .rpop
  else if name = text "lrange" ∧ argc = 4 then .lrange
  else if name = text "sadd" then .sadd
  else if name = text "srem" then .srem
  else if name = text "smembers" then .smembers
  else if name = text "scard" then .scard
  else if name = text "setbit" then .setbit
  else if name = text "getbit" then .getbit
  else if name = text "bitcount" then .bitcount
  else if name = text "pfadd" then .pfadd
  else if name = text "pfcount" then .pfcount
  else if name = text "pfmerge" then .pfmerge
  else if name = text "multi" then .todo
  else if name = text "exec" then .todo
  else if name = text "watch" then .todo
  else if name = text "discard" then .todo
  else .unknown

def runCommand (env : Env) (g : GlobalData) (out : Bytes) (cmd : List Bytes) : Command → M Result
  | .get => doGet g out cmd
  | .set => doSet env g out cmd
  | .del => doDel g out cmd
  | .keys => doKeys g out
  | .hset => doHset env g out cmd
  | .hget => doHget g out cmd
  | .hgetall => doHgetall g out cmd
  | .hdel => doHdel g out cmd
  | .expire => doExpire env g out cmd
  | .ttl => doTtl env g out cmd
  | .persist => doPersist g out cmd
  | .zadd => doZadd env g out cmd
  | .zscore => doZscore g out cmd
  | .zrem => doZrem g out cmd
  | .zquery => doZrangequery g out cmd
  | .lpush => doPush env g out cmd .left
  | .rpush => doPush env g out cmd .right
  | .lpop => doPop g out cmd .left
  | .rpop => doPop g out cmd .right
  | .lrange => doLrange g out cmd
  | .sadd => doSadd env g out cmd
  | .srem => doSrem g out cmd
  | .smembers => doSmembers g out cmd
  | .scard => doScard g out cmd
  | .setbit => doSetbit env g out cmd
  | .getbit => doGetbit g out cmd
  | .bitcount => doBitcount g out cmd
  | .pfadd => doPfadd env g out cmd
  | .pfcount => doPfcount env g out cmd
  | .pfmerge => doPfmerge
  | .todo => .ok ⟨g, out, .success⟩
  | .unknown => .ok ⟨g, outErr out "unknown command", .success⟩

/-- The command of a request: the name is compared in lower case, up to its first zero byte. -/
def commandOf (cmd : List Bytes) : Command := selectCommand ((cstr (cmd.headD [])).map tolower) cmd.length

def outBuffer (env : Env) (g : GlobalData) (out : Bytes) (cmd : List Bytes) : M (GlobalData × Bytes) := do
  let _ ← arg cmd 0
  let r ← runCommand env g out cmd (commandOf cmd)
  .ok (r.data, r.out)

/-! ### Frames -/

/-- The token loop of `parse_cmd` from a position on: what it reads, in order, and the tokens. A token of
more than half the size limit is refused by `dstr_append` before its bytes are read and stays empty. -/
def parseTokens (buf : Bytes) : Nat → Nat → List Span × M (List Bytes)
  | 0, _ => ([], .ok [])
  | n + 1, pos =>
    match bytesAt buf ⟨pos, 1⟩ with
    | .error e => ([⟨pos, 1⟩], .error e)
    | .ok _ =>
      match bytesAt buf ⟨pos + 1, 4⟩ with
      | .error e => ([⟨pos, 1⟩, ⟨pos + 1, 4⟩], .error e)
      | .ok lenBytes =>
        let tLen := leNat 4 lenBytes
        match dstrInit tLen with
        | none => ([⟨pos, 1⟩, ⟨pos + 1, 4⟩], .error .nullStr)
        | some token =>
          if tLen + dstrCap token > maxStrSize then
            let (spans, rest) := parseTokens buf n (pos + 5 + tLen)
            (⟨pos, 1⟩ :: ⟨pos + 1, 4⟩ :: spans, rest.map (token.buf :: ·))
          else
            match bytesAt buf ⟨pos + 5, tLen⟩ with
            | .error e => ([⟨pos, 1⟩, ⟨pos + 1, 4⟩, ⟨pos + 5, tLen⟩], .error e)
            | .ok t =>
              let (spans, rest) := parseTokens buf n (pos + 5 + tLen)
              (⟨pos, 1⟩ :: ⟨pos + 1, 4⟩ :: ⟨pos + 5, tLen⟩ :: spans, rest.map (t :: ·))

def parseCmd (buf : Bytes) (pos : Nat) : List Span × M (List Bytes) :=
  match bytesAt buf ⟨pos, 1⟩ with
  | .error e => ([⟨pos, 1⟩], .error e)
  | .ok _ =>
    match bytesAt buf ⟨pos + 1, 4⟩ with
    | .error e => ([⟨pos, 1⟩, ⟨pos + 1, 4⟩], .error e)
    | .ok nstr =>
      let (spans, res) := parseTokens buf (leNat 4 nstr) (pos + 5)
      (⟨pos, 1⟩ :: ⟨pos + 1, 4⟩ :: spans, res)

/-- `before_res_build`: the buffer with the fixed beginning of a reply, and where the reply starts, in 32 bits. -/
def beforeResBuild (out : Bytes) : Bytes × Nat :=
  let header := out.length % 2 ^ 32
  let out := bufAppendU32 out 0
  let out := bufAppendU32 (bufAppendU8 out tagArr) 2
  (bufAppendU32 (bufAppendU8 out tagInt) resOk, header)

def afterResBuild (out : Bytes) (header : Nat) : Bytes :=
  let mesLen := out.length - header - 4
  if mesLen > maxMessageLen then out else patchU32 out header mesLen

/-- The buffers of a connection and the state its commands work on. -/
structure Conn (δ : Type) where
  incoming : Bytes := []
  outgoing : Bytes := []
  data : δ

/-- What a command does: the new state and the new outgoing buffer. -/
abbrev Dispatch (δ : Type) := δ → Bytes → List Bytes → M (δ × Bytes)

section Frames

variable {δ : Type}

/-- The length in the header of the first frame, if the frame is complete. -/
def completeFrame (incoming : Bytes) : Option Nat :=
  if incoming.length < 4 then none
  else
    let totalLen := leNat 4 incoming
    if incoming.length < totalLen + 4 then none else some totalLen

def tryOneReq (dispatch : Dispatch δ) (conn : Conn δ) : M (Conn δ × Bool) :=
  match completeFrame conn.incoming with
  | none => .ok (conn, false)
  | some totalLen => do
    let cmd ← (parseCmd conn.incoming 4).2
    let (out, header) := beforeResBuild conn.outgoing
    let (data, out) ← dispatch conn.data out cmd
    .ok ({
      incoming := bufConsume conn.incoming (4 + totalLen)
      outgoing := afterResBuild out header
      data := data }, true)

/-- `while (try_one_req(conn)) {}`. Every frame takes at least its header off the buffer. -/
def tryAllReqs (dispatch : Dispatch δ) : Nat → Conn δ → M (Conn δ)
  | 0, _ => .error .outOfFuel
  | fuel + 1, conn => do
    let (conn, again) ← tryOneReq dispatch conn
    if again then tryAllReqs dispatch fuel conn else .ok conn

/-- `handle_read` for the bytes that `read` has returned. -/
def handleRead (dispatch : Dispatch δ) (conn : Conn δ) (rbuf : Bytes) : M (Conn δ) :=
  let conn := { conn with incoming := bufAppend conn.incoming rbuf }
  tryAllReqs dispatch (conn.incoming.length + 1) conn

end Frames

/-! ### Timers -/

/-- The node whose `heap_idx` a pointer refers to. -/
def nodeAt (g : GlobalData) (addr : Ptr) : M (HNode Entry) :=
  match g.db.nodes.find? fun n => n.val.addr = addr with
  | some n => .ok n
  | none => .error .useAfterFree

/-- The loop over the entry timeouts, for at most `n` entries. -/
def expireEntries : Nat → GlobalData → Nat → M GlobalData
  | 0, g, _ => .ok g
  | n + 1, g, now =>
    match g.ttl.entries with
    | [] => .ok g
    | h :: _ =>
      if h.val < now then do
        let hnode ← nodeAt g h.posRef
        let ttl ← remTtl g.ttl h.posRef
        let (g, _) ← deleteNode { g with ttl := ttl } ⟨hnode.hcode, some hnode.key⟩
        expireEntries n g now
      else .ok g

/-- The entry timeouts of `process_timers`. The counter is compared before it is incremented, so the loop
runs once more than `MAX_TTL_TASKS` says. -/
def processTimers (g : GlobalData) (now : Nat) : M GlobalData := expireEntries (maxTtlTasks + 1) g now

/-! ### Runs -/

/-- A request as `parse_cmd` can produce it: no token is longer than half the size limit. -/
structure Request where
  tokens : List Bytes
  short : ∀ t ∈ tokens, 2 * t.length ≤ maxStrSize

inductive Event
  | request (env : Env) (r : Request)
  | tick (now : Nat)
  | work

/-- The reply to a request, from an empty outgoing buffer. -/
def respond (env : Env) (g : GlobalData) (r : Request) : M (GlobalData × Bytes) :=
  outBuffer env g (beforeResBuild []).1 r.tokens

def serverStep (g : GlobalData) : Event → M GlobalData
  | .request env r => do
    let (g, _) ← respond env g r
    .ok g
  | .tick now => processTimers g now
  | .work => workerStep g

end CustomRedis
