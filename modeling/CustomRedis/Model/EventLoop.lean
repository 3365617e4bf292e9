import CustomRedis.Model.Server
import CustomRedis.Model.Dlist

/-!
# The event loop

`main` of `server.cpp` with `handle_accept`, `handle_read`, `handle_write`, `close_conn` and the connection
timeouts of `process_timers`. The loop is cut where it decides what to do next, so a step is one round of one of
its inner loops, or one handler. What the operating system answers comes in with the step: any list of answers is a
run. The commands and the entry timeouts are those of a service, about which nothing is assumed here.

A connection has a node in each of the three timeout lists. The nodes of one list are a memory of their own, in which
the node of a connection has the connection's address and the sentinel has address 0, so `container_of` needs no
arithmetic.
-/

namespace CustomRedis

def idleTimeoutMs : Nat := 100 * 1000

def readTimeoutMs : Nat := 10 * 1000

def writeTimeoutMs : Nat := 5 * 1000

/-! ### Connections -/

/-- The three timeout lists. -/
inductive Timeout
  | idle
  | read
  | write
  deriving DecidableEq, Repr

/-- `Conn`, without the fields of the unfinished transactions. -/
structure ConnRec where
  fd : Nat
  wantRead : Bool := false
  wantWrite : Bool := false
  wantClose : Bool := false
  incoming : Bytes := []
  outgoing : Bytes := []
  lastActiveMs : Nat := 0
  lastReadMs : Nat := 0
  lastWriteMs : Nat := 0
  deriving DecidableEq, Repr

/-- The time that a timeout is measured from. -/
def ConnRec.stamp (conn : ConnRec) : Timeout → Nat
  | .idle => conn.lastActiveMs
  | .read => conn.lastReadMs
  | .write => conn.lastWriteMs

def Timeout.limitMs : Timeout → Nat
  | .idle => idleTimeoutMs
  | .read => readTimeoutMs
  | .write => writeTimeoutMs

/-- What the commands do with their state, and the entry timeouts of `process_timers`. -/
structure Service (δ : Type) where
  dispatch : Dispatch δ
  expire : δ → Nat → M δ

/-- Where the loop stands. `args` are the entries of `poll_args` that are still to be looked at, with their
`events`. -/
inductive Phase
  /-- at the top of the loop -/
  | poll
  /-- in the loop over the sockets -/
  | sockets (args : List (Nat × UInt8))
  /-- before `if (ready & POLLIN)` -/
  | read (conn : Ptr) (ready : UInt8) (args : List (Nat × UInt8))
  /-- before `if (ready & POLLOUT)` -/
  | write (conn : Ptr) (ready : UInt8) (args : List (Nat × UInt8))
  /-- before `if ((ready & POLLERR) && conn->want_close)` -/
  | close (conn : Ptr) (ready : UInt8) (args : List (Nat × UInt8))
  /-- in `process_timers`, before one of its loops looks at its list -/
  | timers (currMs : Nat) (list : Timeout)
  deriving DecidableEq, Repr

structure Loop (δ : Type) where
  phase : Phase := .poll
  conns : Mem ConnRec
  lists : Timeout → DListMem Unit
  fdToConn : List (Option Ptr) := []
  /-- how often the clock has been read -/
  ticks : Nat := 0
  data : δ

/-- `&global_data.idle_list`, `&global_data.read_list` and `&global_data.write_list` -/
def sentinel : Ptr := 0

namespace Loop

variable {δ : Type}

/-- The state when `main` enters the loop. No connection has the address of the sentinel. -/
def init (data : δ) : Loop δ :=
  { conns := ⟨[none]⟩
    lists := fun _ => ⟨[some ⟨some sentinel, some sentinel, ()⟩]⟩
    data := data }

/-- `*conn` -/
def conn (s : Loop δ) (c : Ptr) : M ConnRec :=
  match s.conns.read c with
  | some conn => .ok conn
  | none => .error .useAfterFree

def setConn (s : Loop δ) (c : Ptr) (conn : ConnRec) : Loop δ := { s with conns := s.conns.set c conn }

def detach (s : Loop δ) (list : Timeout) (c : Ptr) : M (Loop δ) := do
  let m ← dlistDeatach (s.lists list) c
  .ok { s with lists := Function.update s.lists list m }

/-- `dlist_insert_before` the sentinel, which is the end of the list. -/
def insert (s : Loop δ) (list : Timeout) (c : Ptr) : M (Loop δ) := do
  let m ← dlistInsertBefore (s.lists list) sentinel c
  .ok { s with lists := Function.update s.lists list m }

def tick (s : Loop δ) : Loop δ := { s with ticks := s.ticks + 1 }

end Loop

/-! ### The operating system -/

def pollIn : UInt8 := 1

def pollOut : UInt8 := 4

def pollErr : UInt8 := 8

/-- `POLLERR`, `POLLHUP` and `POLLNVAL`, which `poll` may report without being asked. -/
def pollUnasked : UInt8 := 8 ||| 16 ||| 32

inductive ReadResult
  /-- `EAGAIN` or `EWOULDBLOCK` -/
  | again
  /-- another error or the end of the file -/
  | closed
  /-- at least one byte -/
  | data (first : UInt8) (rest : Bytes)
  deriving DecidableEq, Repr

inductive WriteResult
  | again
  | closed
  /-- `more + 1` bytes were taken, or all of them if there are fewer -/
  | wrote (more : Nat)
  deriving DecidableEq, Repr

/-- What the system calls return. A step uses the answers to the calls it makes. -/
structure Answer where
  /-- `poll` was interrupted -/
  interrupted : Bool := false
  /-- `none` if the listening socket is not ready, else what `accept` returns -/
  accepted : Option (Option Nat) := none
  revents : UInt8 := 0
  read : ReadResult := .again
  write : WriteResult := .again
  deriving DecidableEq, Repr

section Handlers

variable {δ : Type} (srv : Service δ) (clock : Nat → Nat)

/-! ### Handlers -/

def closeConn (s : Loop δ) (c : Ptr) : M (Loop δ) := do
  let conn ← s.conn c
  if conn.fd < s.fdToConn.length then do
    let s := { s with fdToConn := s.fdToConn.set conn.fd none }
    let s ← s.detach .idle c
    let s ← s.detach .read c
    let s ← s.detach .write c
    .ok { s with conns := s.conns.free c, lists := fun list => (s.lists list).free c }
  else .error .outOfBounds

/-- `handle_accept` and the entry of `fd_to_conn` for the new connection. -/
def handleAccept (s : Loop δ) (connfd : Nat) : M (Loop δ) := do
  let c := s.conns.next
  let conn : ConnRec :=
    { fd := connfd
      wantRead := true
      lastActiveMs := clock s.ticks
      lastReadMs := clock (s.ticks + 1)
      lastWriteMs := clock (s.ticks + 2) }
  let s := { s with
    conns := s.conns.alloc conn
    lists := fun list => (s.lists list).alloc { val := () }
    ticks := s.ticks + 3 }
  let s ← s.insert .idle c
  let fdToConn := s.fdToConn ++ List.replicate (connfd + 1 - s.fdToConn.length) none
  .ok { s with fdToConn := fdToConn.set connfd (some c) }

/-- `handle_read` -/
def readConn (s : Loop δ) (c : Ptr) (res : ReadResult) : M (Loop δ) := do
  let conn ← s.conn c
  match res with
  | .again => .ok s
  | .closed => (s.setConn c { conn with wantClose := true }).detach .read c
  | .data first rest => do
    let r ← handleRead srv.dispatch ⟨conn.incoming, conn.outgoing, s.data⟩ (first :: rest)
    let conn := { conn with incoming := r.incoming, outgoing := r.outgoing, lastReadMs := clock s.ticks }
    let s := { s.tick with data := r.data }
    if conn.outgoing.length > 0 then do
      let s ← s.detach .read c
      let s ← s.insert .write c
      let conn := { conn with wantRead := false, wantWrite := true, lastWriteMs := clock s.ticks }
      .ok (s.tick.setConn c conn)
    else .ok (s.setConn c conn)

/-- `handle_write` -/
def writeConn (s : Loop δ) (c : Ptr) (res : WriteResult) : M (Loop δ) := do
  let conn ← s.conn c
  match res with
  | .again => .ok s
  | .closed => (s.setConn c { conn with wantClose := true }).detach .write c
  | .wrote more =>
    let rv := min (more + 1) conn.outgoing.length
    if rv = 0 then (s.setConn c { conn with wantClose := true }).detach .write c
    else do
      let conn := { conn with outgoing := bufConsume conn.outgoing rv, lastWriteMs := clock s.ticks }
      let s := s.tick
      if conn.outgoing.length = 0 then do
        let s ← s.detach .write c
        let s ← s.insert .read c
        let conn := { conn with wantRead := true, wantWrite := false, lastReadMs := clock s.ticks }
        .ok (s.tick.setConn c conn)
      else .ok (s.setConn c conn)

/-- What follows a loop of `process_timers`. -/
def nextTimers (s : Loop δ) (currMs : Nat) : Timeout → M (Loop δ)
  | .idle => .ok { s with phase := .timers currMs .read }
  | .read => .ok { s with phase := .timers currMs .write }
  | .write => do
    let data ← srv.expire s.data currMs
    .ok { s with phase := .poll, data := data }

/-- One round of a loop of `process_timers`. -/
def timerRound (s : Loop δ) (currMs : Nat) (list : Timeout) : M (Loop δ) := do
  if ← dlistEmpty (s.lists list) sentinel then nextTimers srv s currMs list
  else do
    let head ← (s.lists list).node sentinel
    match head.next with
    | none => .error .nullLink
    | some c => do
      let conn ← s.conn c
      let timeoutMs := (conn.stamp list + list.limitMs) % 2 ^ 64
      if timeoutMs ≥ currMs then nextTimers srv s currMs list else closeConn s c

/-- `next_timer_ms` at a time, with the entries of `ttl_heap`. The source takes the greater one of 0 and the
difference, which is not signed. -/
def nextTimerMs (s : Loop δ) (ttlHeap : List HeapNode) (curr : Nat) : M Nat := do
  if ← dlistEmpty (s.lists .idle) sentinel then .ok idleTimeoutMs
  else do
    let head ← (s.lists .idle).node sentinel
    match head.next with
    | none => .error .nullLink
    | some c => do
      let conn ← s.conn c
      let connTimeout : Nat := (conn.lastActiveMs + idleTimeoutMs) % 2 ^ 64
      let connTimeout : Nat := match ttlHeap with
        | [] => connTimeout
        | h :: _ => min connTimeout h.val
      let pollTimeout := toU64 ((connTimeout : Int) - curr)
      .ok (max 0 pollTimeout)

/-- The last argument of `poll`, which is an `int`. -/
def pollTimeout (s : Loop δ) (ttlHeap : List HeapNode) (curr : Nat) : M Int := do
  let timer ← nextTimerMs s ttlHeap curr
  .ok (toI32 timer)

/-! ### The loop -/

/-- The entries of `poll_args` behind the listening socket. Input is asked for whether or not `want_read` is set. -/
def pollArgs (s : Loop δ) : M (List (Nat × UInt8)) :=
  (s.fdToConn.filterMap id).mapM fun c => do
    let conn ← s.conn c
    .ok (conn.fd, if conn.wantWrite then pollIn ||| pollOut else pollIn)

/-- The head of the loop over the sockets. -/
def socketReady (s : Loop δ) (fd : Nat) (ready : UInt8) (args : List (Nat × UInt8)) : M (Loop δ) := do
  match s.fdToConn[fd]? with
  | none => .error .outOfBounds
  | some none => .error .nullLink
  | some (some c) => do
    let conn ← s.conn c
    let s := s.tick.setConn c { conn with lastActiveMs := clock s.ticks }
    let s ← s.detach .idle c
    let s ← s.insert .idle c
    .ok { s with phase := .read c ready args }

def loopStep (s : Loop δ) (ans : Answer) : M (Loop δ) :=
  match s.phase with
  | .poll =>
    if ans.interrupted then .ok s
    else do
      let args ← pollArgs s
      match ans.accepted with
      | none => .ok { s with phase := .sockets args }
      | some none => .ok s
      | some (some connfd) => do
        let s ← handleAccept clock s connfd
        .ok { s with phase := .sockets args }
  | .sockets [] => .ok { s.tick with phase := .timers (clock s.ticks) .idle }
  | .sockets ((fd, events) :: args) =>
    let ready := ans.revents &&& (events ||| pollUnasked)
    if ready = 0 then .ok { s with phase := .sockets args } else socketReady clock s fd ready args
  | .read c ready args => do
    let s ← if ready &&& pollIn ≠ 0 then readConn srv clock s c ans.read else .ok s
    .ok { s with phase := .write c ready args }
  | .write c ready args => do
    let s ← if ready &&& pollOut ≠ 0 then writeConn clock s c ans.write else .ok s
    .ok { s with phase := .close c ready args }
  | .close c ready args => do
    let conn ← s.conn c
    let s ← if ready &&& pollErr ≠ 0 ∧ conn.wantClose then closeConn s c else .ok s
    .ok { s with phase := .sockets args }
  | .timers currMs list => timerRound srv s currMs list

end Handlers

/-- The commands of the database, the `n`-th of them in the environment `envs n`. -/
def redisService (envs : Nat → Env) : Service (GlobalData × Nat) where
  dispatch := fun (g, n) out cmd => do
    let (g, out) ← outBuffer (envs n) g out cmd
    .ok ((g, n + 1), out)
  expire := fun (g, n) currMs => do
    let g ← processTimers g currMs
    .ok (g, n)

end CustomRedis
