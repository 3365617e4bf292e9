import CustomRedis.Model.Common

/-!
# Dynamic strings

`data_structures/dstr.cpp`. A string is its bytes, the `free` field the code keeps, and the number of
bytes its block was allocated with, header included. The code never looks at the last of these: it is
what the writes are checked against, since `free` is only the code's own idea of the room left.
-/

namespace CustomRedis

def maxStrPrealoc : Nat := 1024 * 1024

def maxStrSize : Nat := 2 ^ 30

/-- `sizeof(dstr)`: the two `size_t` fields. -/
def sizeofDstr : Nat := 16

inductive StrRet
  | ok
  | errTooLarge
  | errAllocFail
  deriving DecidableEq, Repr

structure Dstr where
  /-- the `size` bytes of the string -/
  buf : Bytes
  free : Nat
  /-- bytes passed to `malloc` or `realloc` -/
  alloc : Nat
  deriving DecidableEq, Repr

namespace Dstr

abbrev size (s : Dstr) : Nat := s.buf.length

end Dstr

/-- `dstr_init`, with `none` for the `NULL` it returns above the limit. -/
def dstrInit (len : Nat) : Option Dstr :=
  if len > maxStrSize then none else some ⟨[], len, sizeofDstr + len + 1⟩

/-- `dstr_cap`. The sum does not wrap around in a block that holds the bytes the fields promise. -/
def dstrCap (str : Dstr) : Nat := str.free + str.size

/-- `dstr_append`. The bytes and the terminator behind them are written where the old string ends. -/
def dstrAppend (str : Dstr) (toadd : Bytes) : M (Dstr × StrRet) :=
  if toadd.length + dstrCap str > maxStrSize then .ok (str, .errTooLarge)
  else
    let grown : Dstr :=
      if str.free < toadd.length then
        let newlen := str.size + str.free + toadd.length
        let newlen := newlen + min maxStrPrealoc newlen
        { str with free := newlen - str.free, alloc := sizeofDstr + newlen + 1 }
      else str
    if sizeofDstr + str.size + toadd.length + 1 ≤ grown.alloc then
      .ok ({ grown with buf := str.buf ++ toadd, free := grown.free - toadd.length }, .ok)
    else .error .outOfBounds

/-- `dstr_assign`: a fresh string of the old capacity replaces the old one, unless an error occurs. -/
def dstrAssign (str : Dstr) (toadd : Bytes) : M (Dstr × StrRet) :=
  match dstrInit (dstrCap str) with
  | none => .ok (str, .errTooLarge)
  | some tmp => do
    let (tmp, err) ← dstrAppend tmp toadd
    if err ≠ .ok then .ok (str, err) else .ok (tmp, .ok)

/-- `dstr_resize`. The padding and the terminator at `len` are written. -/
def dstrResize (str : Dstr) (len : Nat) (pad : UInt8) : M (Dstr × StrRet) :=
  if len > maxStrSize then .ok (str, .errTooLarge)
  else
    let cap := dstrCap str
    let alloc := if str.size < len ∧ cap < len then sizeofDstr + len + 1 else str.alloc
    let cap := if str.size < len ∧ cap < len then len else cap
    let buf := if str.size < len then str.buf ++ List.replicate (len - str.size) pad else str.buf.take len
    if sizeofDstr + len + 1 ≤ alloc then .ok (⟨buf, cap - len, alloc⟩, .ok) else .error .outOfBounds

/-- `dstr_reserve`. The new block has no room for the two header fields, so it may be too short for the bytes of the
string, which are `junk` from there on, and even for the header. Both sums are taken in `size_t`: one that wraps around
passes the limit, and the block shrinks. -/
def dstrReserve (junk : Nat → UInt8) (str : Dstr) (add : UInt64) : M (Dstr × StrRet) :=
  if (str.size + add.toNat) % 2 ^ 64 > maxStrSize then .ok (str, .errTooLarge)
  else if str.free ≥ add.toNat then .ok (str, .ok)
  else
    let alloc := (str.size + add.toNat + 1) % 2 ^ 64
    if sizeofDstr ≤ alloc then
      let kept := str.buf.take (alloc - sizeofDstr)
      .ok (⟨kept ++ (List.range (str.size - kept.length)).map junk, add.toNat, alloc⟩, .ok)
    else .error .outOfBounds

/-- The copy idiom of the handlers: `dstr_init(n)` followed by `dstr_append` of the `n` bytes, with the
return code ignored. -/
def dstrCopy (src : Bytes) : M Dstr :=
  match dstrInit src.length with
  | none => .error .nullStr
  | some str => do
    let (str, _) ← dstrAppend str src
    .ok str

/-- A string whose accounting is sound: what the code believes it may use is allocated. -/
def Dstr.Sound (str : Dstr) : Prop := sizeofDstr + str.size + str.free + 1 ≤ str.alloc

/-! ### What the operations do to a sound string -/

theorem dstrInit_eq {len : Nat} (h : len ≤ maxStrSize) :
    dstrInit len = some ⟨[], len, sizeofDstr + len + 1⟩ := by
  rw [dstrInit, if_neg (by omega)]

/-- On an empty or sound string an append below the limit adds the bytes. -/
theorem dstrAppend_ok {str : Dstr} {toadd : Bytes} (hs : str.Sound)
    (hle : toadd.length + dstrCap str ≤ maxStrSize) :
    ∃ str', dstrAppend str toadd = .ok (str', .ok) ∧ str'.buf = str.buf ++ toadd := by
  unfold Dstr.Sound at hs
  rw [dstrAppend, if_neg (by omega)]
  by_cases hfree : str.free < toadd.length
  · simp only [hfree, if_true]
    rw [if_pos (by omega)]
    exact ⟨_, rfl, rfl⟩
  · simp only [hfree, if_false]
    rw [if_pos (by omega)]
    exact ⟨_, rfl, rfl⟩

/-- Up to half the size limit the copy idiom copies. -/
theorem dstrCopy_ok {src : Bytes} (h : 2 * src.length ≤ maxStrSize) :
    ∃ str, dstrCopy src = .ok str ∧ str.buf = src := by
  have hinit : dstrInit src.length = some ⟨[], src.length, sizeofDstr + src.length + 1⟩ := dstrInit_eq (by omega)
  have hsound : Dstr.Sound ⟨[], src.length, sizeofDstr + src.length + 1⟩ := by simp [Dstr.Sound, Dstr.size]
  have hle : src.length + dstrCap ⟨[], src.length, sizeofDstr + src.length + 1⟩ ≤ maxStrSize := by
    simp only [dstrCap, Dstr.size, List.length_nil]
    omega
  obtain ⟨str, happ, hbuf⟩ := dstrAppend_ok hsound hle
  refine ⟨str, ?_, hbuf⟩
  rw [dstrCopy, hinit]
  simp only [happ]
  rfl

end CustomRedis
