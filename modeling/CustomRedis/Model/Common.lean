import Mathlib.Tactic

/-!
# Bytes, faults and the C library

What every other module of the model is written in: byte strings, the ways the program can leave
defined behaviour, the hash of `utils/common.h`, and the few C library functions the handlers call.
A `dstr` always carries a terminator behind its `size` bytes, so a C string function applied to one
sees its bytes up to the first zero byte.

Memory is modelled with blocks that are never reused. Every access to a block that is gone, to an
index outside a block, to a null pointer or to a field nobody has written ends the run in a `Fault`,
so a run that never faults does not depend on how the allocator picks addresses.
-/

namespace CustomRedis

abbrev Bytes := List UInt8

/-- The ways a run of the program leaves defined behaviour. -/
inductive Fault
  /-- `cmd[i]` with `i` not below `cmd.size()` -/
  | cmdIndex
  /-- the key of a probe node is dereferenced while it is `NULL` -/
  | nullKey
  /-- a `NULL` string, returned by `dstr_init` for a length above the limit, is dereferenced -/
  | nullStr
  /-- a payload field that `new_node` did not set for the node's type is read -/
  | uninitPayload
  /-- a `NULL` payload pointer is dereferenced -/
  | nullPayload
  /-- a node is accessed after it was freed -/
  | useAfterFree
  /-- an index outside a vector, a table or an allocated block -/
  | outOfBounds
  /-- a `NULL` link of a list or a tree is followed -/
  | nullLink
  /-- an `assert` fails -/
  | assertFailed
  /-- control leaves a function with a result without a `return` -/
  | missingReturn
  /-- the bound on a loop of the model is used up -/
  | outOfFuel
  deriving DecidableEq, Repr

abbrev M := Except Fault

/-- The value types of the keyspace. -/
inductive EntryType
  | str
  | zset
  | hset
  | list
  | set
  | bitmap
  | hll
  deriving DecidableEq, Repr

/-! ### C strings -/

/-- What a C string function sees of a terminated buffer. -/
def cstr (b : Bytes) : Bytes := b.takeWhile (· ≠ 0)

/-- `!strcmp(a, b)` -/
def strEq (a b : Bytes) : Bool := cstr a == cstr b

/-- `memcmp` over the first `n` bytes, compared as unsigned. -/
def memcmp : Bytes → Bytes → Nat → Int
  | a :: as, b :: bs, n + 1 => if a = b then memcmp as bs n else if a < b then -1 else 1
  | _, _, _ => 0

def tolower (c : UInt8) : UInt8 := if 65 ≤ c ∧ c ≤ 90 then c + 32 else c

def isSpace (c : UInt8) : Bool := c == 32 || (9 ≤ c && c ≤ 13)

def isDigit (c : UInt8) : Bool := 48 ≤ c && c ≤ 57

def digitsVal (b : Bytes) : Nat := b.foldl (fun n c => 10 * n + (c.toNat - 48)) 0

/-! ### Integer conversions -/

/-- Conversion to `uint32_t`. -/
def toU32 (x : Int) : Nat := (x % 2 ^ 32).toNat

/-- Conversion to `uint64_t`. -/
def toU64 (x : Int) : Nat := (x % 2 ^ 64).toNat

/-- Conversion to `int32_t`. -/
def toI32 (x : Int) : Int := (x + 2 ^ 31) % 2 ^ 32 - 2 ^ 31

theorem toI32_of_lt {x : Int} (hlow : -2 ^ 31 ≤ x) (hhigh : x < 2 ^ 31) : toI32 x = x := by
  unfold toI32
  omega

theorem toU32_of_lt {x : Nat} (h : x < 2 ^ 32) : toU32 x = x := by
  unfold toU32
  omega

/-- Conversion to `int64_t`. -/
def toI64 (x : Int) : Int := (x + 2 ^ 63) % 2 ^ 64 - 2 ^ 63

def clampI64 (x : Int) : Int := max (-2 ^ 63) (min x (2 ^ 63 - 1))

/-- `strtol(s, NULL, 10)`, which is `strtoll` on a 64-bit target: the result is clamped to the range of the type. -/
def strtol (s : Bytes) : Int :=
  match (cstr s).dropWhile isSpace with
  | 45 :: t => clampI64 (-(digitsVal (t.takeWhile isDigit)))
  | 43 :: t => clampI64 (digitsVal (t.takeWhile isDigit))
  | t => clampI64 (digitsVal (t.takeWhile isDigit))

/-! ### Doubles

Scores are stored, compared, printed and parsed, never computed with, so a double is its 64 bits. -/

structure Double where
  bits : UInt64
  deriving DecidableEq, Repr

namespace Double

/-- Exponent and mantissa, that is, all bits but the sign. -/
def mag (x : Double) : Nat := x.bits.toNat % 2 ^ 63

def isNeg (x : Double) : Bool := 2 ^ 63 ≤ x.bits.toNat

/-- The magnitude of infinity: the exponent is all ones and the mantissa is zero. -/
def infMag : Nat := 0x7FF0000000000000

def isNaN (x : Double) : Bool := infMag < x.mag

/-- The place of a number in the order of the numbers. Both zeros have the same place. -/
def ord (x : Double) : Int := if x.isNeg then -x.mag else x.mag

/-- `a < b` -/
def lt (a b : Double) : Bool := !a.isNaN && !b.isNaN && decide (a.ord < b.ord)

/-- `a != b` -/
def ne (a b : Double) : Bool := a.isNaN || b.isNaN || decide (a.ord ≠ b.ord)

def ofMag (neg : Bool) (mag : Nat) : Double := ⟨UInt64.ofNat (if neg then 2 ^ 63 + mag else mag)⟩

/-- The magnitude of the double nearest to `num / den`, ties to even. -/
def roundMag (num den : Nat) : Nat :=
  if num = 0 then 0
  else
    let l : Int := (num.log2 : Int) - den.log2
    -- `l` is the exponent of the quotient or one above it
    let big : Bool := if 0 ≤ l then den * 2 ^ l.toNat ≤ num else den ≤ num * 2 ^ (-l).toNat
    let k : Int := max ((if big then l else l - 1) - 52) (-1074)
    let n := if 0 ≤ k then num else num * 2 ^ (-k).toNat
    let d := if 0 ≤ k then den * 2 ^ k.toNat else den
    let q := n / d
    let r := n % d
    let q := if d < 2 * r ∨ (2 * r = d ∧ q % 2 = 1) then q + 1 else q
    min ((k + 1074).toNat * 2 ^ 52 + q) infMag

end Double

def isHexDigit (c : UInt8) : Bool := isDigit c || (97 ≤ tolower c && tolower c ≤ 102)

def hexVal (b : Bytes) : Nat :=
  b.foldl (fun n c => 16 * n + (if isDigit c then c.toNat - 48 else (tolower c).toNat - 87)) 0

/-- The exponent part of a number: the marker, an optional sign and at least one digit. -/
def exponentVal (marker : UInt8) (s : Bytes) : Int :=
  match s with
  | c :: t =>
    if tolower c = marker then
      match t with
      | 45 :: u => -(digitsVal (u.takeWhile isDigit))
      | 43 :: u => digitsVal (u.takeWhile isDigit)
      | u => digitsVal (u.takeWhile isDigit)
    else 0
  | [] => 0

/-- The magnitude of a number with `mant` as its digits in `base`, of which the last `frac` stand behind the point. -/
def scaledMag (base mant frac : Nat) (exp : Int) (expBase : Nat) : Nat :=
  if 0 ≤ exp then Double.roundMag (mant * expBase ^ exp.toNat) (base ^ frac)
  else Double.roundMag mant (base ^ frac * expBase ^ (-exp).toNat)

/-- The digits before and behind the point, and what follows them. -/
def splitNumber (isD : UInt8 → Bool) (s : Bytes) : Bytes × Bytes × Bytes :=
  let whole := s.takeWhile isD
  match s.dropWhile isD with
  | 46 :: t => (whole, t.takeWhile isD, t.dropWhile isD)
  | t => (whole, [], t)

/-- The magnitude a text without sign denotes: infinity, a quiet NaN, a hexadecimal or a decimal number. -/
def strtodMag (s : Bytes) : Nat :=
  let low := s.map tolower
  if [105, 110, 102].isPrefixOf low then Double.infMag
  else if [110, 97, 110].isPrefixOf low then Double.infMag + 2 ^ 51
  else
    let (hw, hf, hrest) := splitNumber isHexDigit (s.drop 2)
    if [48, 120].isPrefixOf low && !(hw ++ hf).isEmpty then
      scaledMag 16 (hexVal (hw ++ hf)) hf.length (exponentVal 112 hrest) 2
    else
      let (w, f, rest) := splitNumber isDigit s
      if (w ++ f).isEmpty then 0
      else scaledMag 10 (digitsVal (w ++ f)) f.length (exponentVal 101 rest) 10

/-- `strtod(s, NULL)` -/
def strtod (s : Bytes) : Double :=
  match (cstr s).dropWhile isSpace with
  | 45 :: t => .ofMag true (strtodMag t)
  | 43 :: t => .ofMag false (strtodMag t)
  | t => .ofMag false (strtodMag t)

/-! ### The hash -/

/-- The little-endian number in the first `n` bytes. -/
def leNat : Nat → Bytes → Nat
  | 0, _ => 0
  | n + 1, b => (b.headD 0).toNat + 256 * leNat n b.tail

/-- The loop over the 8-byte words of the key. -/
def murmurWords : Nat → Bytes → UInt64 → UInt64
  | 0, _, h => h
  | n + 1, data, h =>
    let m : UInt64 := 0xc6a4a7935bd1e995
    let k := UInt64.ofNat (leNat 8 data)
    let k := k * m
    let k := k ^^^ (k >>> 47)
    let k := k * m
    murmurWords n (data.drop 8) ((h ^^^ k) * m)

/-- The `switch` over the remaining bytes: case `n` mixes in byte `n - 1` and falls through to case `n - 1`. -/
def murmurTail : Nat → Bytes → UInt64 → UInt64
  | 0, _, h => h
  | n + 1, data2, h => murmurTail n data2 (h ^^^ (UInt64.ofNat (data2.getD n 0).toNat <<< UInt64.ofNat (8 * n)))

def murmurHash64A (key : Bytes) (seed : UInt64) : UInt64 :=
  let m : UInt64 := 0xc6a4a7935bd1e995
  let len := key.length
  let h := seed ^^^ (UInt64.ofNat len * m)
  let h := murmurWords (len / 8) key h
  let h := murmurTail (len % 8) (key.drop (len / 8 * 8)) h
  let h := if len % 8 = 0 then h else h * m
  let h := h ^^^ (h >>> 47)
  let h := h * m
  h ^^^ (h >>> 47)

def strHash (key : Bytes) : UInt64 := murmurHash64A key 0xadc83b19

end CustomRedis
