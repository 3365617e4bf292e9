import CustomRedis.Model.Common

/-!
# Buffers and replies

`buffer_funcs.cpp` and `out_helpers.cpp`: a buffer is a list of bytes, and every helper returns the
outgoing buffer behind it. Integers are written in the byte order of the machine, which is little-endian.
-/

namespace CustomRedis

/-- The bytes of a text. -/
def text (s : String) : Bytes := s.toList.map fun c => UInt8.ofNat c.toNat

/-- The `n` low bytes of a number, the lowest first. -/
def leBytes : Nat → Nat → Bytes
  | 0, _ => []
  | n + 1, x => UInt8.ofNat x :: leBytes n (x / 256)

def tagInt : UInt8 := 0

def tagStr : UInt8 := 1

def tagArr : UInt8 := 2

def tagNull : UInt8 := 3

def tagError : UInt8 := 4

def tagDouble : UInt8 := 5

def resOk : Nat := 0

def resErr : Nat := 1

def resNx : Nat := 2

/-- Bytes read from a buffer. -/
structure Span where
  pos : Nat
  len : Nat
  deriving DecidableEq, Repr

def bytesAt (buf : Bytes) (s : Span) : M Bytes :=
  if s.pos + s.len ≤ buf.length then .ok ((buf.drop s.pos).take s.len) else .error .outOfBounds

def bufAppend (buf data : Bytes) : Bytes := buf ++ data

def bufConsume (buf : Bytes) (len : Nat) : Bytes := buf.drop len

def bufAppendU8 (buf : Bytes) (data : UInt8) : Bytes := buf ++ [data]

def bufAppendU32 (buf : Bytes) (data : Nat) : Bytes := bufAppend buf (leBytes 4 data)

def bufAppendDouble (buf : Bytes) (data : Double) : Bytes := bufAppend buf (leBytes 8 data.bits.toNat)

/-- `buf_rem_last_res_code`. The buffer always ends in a status code where this is called. -/
def bufRemLastResCode (buf : Bytes) : Bytes := buf.take (buf.length - 4)

def outArr (out : Bytes) (len : Nat) : Bytes := bufAppendU32 (bufAppendU8 out tagArr) len

def outInt (out : Bytes) (nr : Nat) : Bytes := bufAppendU32 (bufAppendU8 out tagInt) nr

def outDouble (out : Bytes) (dbl : Double) : Bytes := bufAppendDouble (bufAppendU8 out tagDouble) dbl

def outStr (out : Bytes) (str : Bytes) : Bytes := bufAppend (bufAppendU32 (bufAppendU8 out tagStr) str.length) str

def outNotFound (out : Bytes) : Bytes := bufAppendU8 (bufAppendU32 (bufRemLastResCode out) resNx) tagNull

def outErr (out : Bytes) (errMes : String) : Bytes :=
  let mes := text errMes
  bufAppend (bufAppendU32 (bufAppendU8 (bufAppendU32 (bufRemLastResCode out) resErr) tagError) mes.length) mes

def outNull (out : Bytes) : Bytes := bufAppendU8 out tagNull

/-- `out_unknown_arr`: the buffer and the position of the length, which is filled in later. -/
def outUnknownArr (out : Bytes) : Bytes × Nat :=
  let out := bufAppendU32 (bufAppendU8 out tagArr) 0
  (out, out.length - 4)

/-- `memcpy(&buf[pos], &x, 4)` -/
def patchU32 (buf : Bytes) (pos x : Nat) : Bytes := buf.take pos ++ leBytes 4 x ++ buf.drop (pos + 4)

def outStrs (out : Bytes) (strs : List Bytes) : Bytes := strs.foldl outStr out

end CustomRedis
