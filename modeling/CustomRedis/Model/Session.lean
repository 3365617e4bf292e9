import CustomRedis.Model.Client
import CustomRedis.Model.Server

/-!
# The client at the terminal

`handle_loop` and `main` of `client.cpp`, with the server at the other end of the connection. The client waits for the
whole reply before it reads the next line, so what a call of `handle_loop` writes is all the server has to read in that
round. The connection cuts it into pieces as it likes.
-/

namespace CustomRedis

variable {δ : Type}

/-! ### The line -/

/-- `fgets`: the bytes up to the first line feed, at most `size - 1` of them, and what is left. -/
def fgets (size : Nat) (stdin : Bytes) : Option (Bytes × Bytes) :=
  if stdin = [] then none
  else
    let n := min (size - 1) ((stdin.takeWhile (· ≠ 10)).length + 1)
    some (stdin.take n, stdin.drop n)

/-- What the calls of `strtok` on a string return, up to the `NULL`. -/
def strtok (s : Bytes) (delim : UInt8) : List Bytes := (s.splitOn delim).filter (· ≠ [])

/-- `for (; *p; p++) *p = tolower(*p);` -/
def lowerWord (buf : Bytes) : Bytes := (cstr buf).map tolower ++ buf.drop (cstr buf).length

/-- What `handle_loop` finds in a line. -/
inductive Typed
  /-- there is no line -/
  | silent
  | quit
  | clear
  | query (cmd : List Bytes)
  deriving DecidableEq, Repr

/-- The tokens of a line whose last byte is cut off, whether or not it is the line feed. -/
def tokenize (rawcmd : Bytes) : M (List Bytes) :=
  (strtok (cstr rawcmd).dropLast 32).mapM fun tmp => do
    let str ← dstrCopy tmp
    .ok str.buf

/-- The part of `handle_loop` that does not need the connection. -/
def readTyped (stdin : Bytes) : M (Typed × Bytes) :=
  match fgets 1024 stdin with
  | none => .ok (.silent, stdin)
  | some (rawcmd, stdin) => do
    match ← tokenize rawcmd with
    | [word] =>
      let word := lowerWord word
      if strEq word (text "quit") then .ok (.quit, stdin)
      else if strEq word (text "clear") then .ok (.clear, stdin)
      else .ok (.query [word], stdin)
    | cmd => .ok (.query cmd, stdin)

/-! ### The loop -/

/-- How a call of `handle_loop` ends. -/
inductive Turn
  | silent
  | quit
  | cleared
  /-- the query was not sent, or the reply not read to its end -/
  | failed
  /-- the query was sent, and this is what `handle_read` made of the reply -/
  | shown (query : List Bytes) (reply : Shown)
  deriving DecidableEq, Repr

/-- What `handle_loop` returns. -/
def Turn.ret : Turn → Int
  | .quit => 1
  | .failed => -1
  | _ => 0

/-- The client between two lines: what is still to be typed, and the connection with the server behind it. -/
structure Session (δ : Type) where
  stdin : Bytes
  conn : Conn δ

section Rounds

variable (cut : Bytes → List Bytes) (dispatch : Dispatch δ)

/-- A query and its reply. The server reads the pieces of the message, and what it writes is what the client reads. -/
def exchange (junk : Nat → Nat → UInt8) (conn : Conn δ) (query : List Bytes) : M (Turn × Conn δ) :=
  match handleWrite query with
  | none => .ok (.failed, conn)
  | some bytes => do
    let conn ← (cut bytes).foldlM (handleRead dispatch) conn
    match ← clientHandleRead junk conn.outgoing with
    | none => .ok (.failed, conn)
    | some shown => .ok (.shown query shown, { conn with outgoing := shown.stream })

def handleLoop (junk : Nat → Nat → UInt8) (s : Session δ) : M (Turn × Session δ) := do
  let (typed, stdin) ← readTyped s.stdin
  match typed with
  | .silent => .ok (.silent, ⟨stdin, s.conn⟩)
  | .quit => .ok (.quit, ⟨stdin, s.conn⟩)
  | .clear => .ok (.cleared, ⟨stdin, s.conn⟩)
  | .query query => do
    let (turn, conn) ← exchange cut dispatch junk s.conn query
    .ok (turn, ⟨stdin, conn⟩)

/-- `main` of the client up to its `n`-th round: the rounds and what is left. `junk k` is for the blocks of the round after
`k` others. -/
def clientMain (junk : Nat → Nat → Nat → UInt8) : Nat → Session δ → M (List Turn × Session δ)
  | 0, s => .ok ([], s)
  | n + 1, s => do
    let (turn, s) ← handleLoop cut dispatch (junk 0) s
    if turn.ret ≠ 0 then .ok ([turn], s)
    else do
      let (turns, s) ← clientMain (fun k => junk (k + 1)) n s
      .ok (turn :: turns, s)

end Rounds

end CustomRedis
