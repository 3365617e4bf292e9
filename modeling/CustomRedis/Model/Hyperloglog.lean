import CustomRedis.Model.Common

/-!
# HyperLogLog

`data_structures/hyperloglog.cpp`, byte by byte. The structure lives in a `dstr` whose `size` and `free`
fields it sets by hand, and it moves bytes around inside the block, so here `mem` is the whole allocated
part behind the header: every read and write is checked against it, and bytes nobody has written hold
what the allocator left there (`junk`). The bytes of a `dstr` are signed, which shows where they are
widened.

The estimate is `long double` arithmetic and a parameter of `hll_count`; what is done with it, the cache in
the header included, is modelled. The sum behind the estimate of a sparse structure is modelled by itself, over
rational numbers.
-/

namespace CustomRedis

def hllRegisterCnt : Nat := 16384

def hllHeaderSizeBytes : Nat := 16

def hllDenseSizeBytes : Nat := 6 * hllRegisterCnt / 8

def hllSparseMaxBytes : Nat := 3000

def hllDense : UInt8 := 0

def hllSparse : UInt8 := 1

structure Hll where
  /-- the allocated bytes behind `size` and `free` -/
  mem : Bytes
  size : Nat
  free : Nat
  deriving DecidableEq, Repr

namespace Hll

/-- `hll->buf[i]` -/
def get (hll : Hll) (i : Nat) : M UInt8 :=
  match hll.mem[i]? with
  | some b => .ok b
  | none => .error .outOfBounds

/-- `hll->buf[i] = b` -/
def put (hll : Hll) (i : Nat) (b : UInt8) : M Hll :=
  if i < hll.mem.length then .ok { hll with mem := hll.mem.set i b } else .error .outOfBounds

/-- `n` bytes from `i` on -/
def slice (hll : Hll) (i n : Nat) : M Bytes :=
  if i + n ≤ hll.mem.length then .ok ((hll.mem.drop i).take n) else .error .outOfBounds

/-- A copy of bytes to `i`. -/
def store (hll : Hll) (i : Nat) (bs : Bytes) : M Hll :=
  if i + bs.length ≤ hll.mem.length then
    .ok { hll with mem := hll.mem.take i ++ bs ++ hll.mem.drop (i + bs.length) }
  else .error .outOfBounds

/-- `memmove(dst, src, n)` inside the buffer -/
def move (hll : Hll) (dst src n : Nat) : M Hll := do
  let bs ← hll.slice src n
  hll.store dst bs

end Hll

/-! ### Helpers -/

def getEnc (hll : Hll) : M UInt8 := hll.get 4

def cacheValid (hll : Hll) : M Bool := do
  let b ← hll.get 15
  .ok (b &&& 128 == 0)

def invalidateCache (hll : Hll) : M Hll := do
  let b ← hll.get 15
  hll.put 15 (b ||| 128)

def isVal (flag : UInt8) : Bool := flag &&& 128 != 0

def isZero (flag : UInt8) : Bool := flag &&& 128 == 0 && flag &&& 64 == 0

def valValue (flag : UInt8) : UInt8 := ((flag &&& 127) >>> 2) + 1

def valCnt (flag : UInt8) : UInt8 := ((flag &&& 127) &&& 3) + 1

def zeroCnt (flag : UInt8) : UInt8 := flag + 1

def xzeroCnt (msb lsb : UInt8) : Nat := (msb &&& 191).toNat * 256 + lsb.toNat + 1

def setCache (hll : Hll) (value : Nat) : M Hll :=
  if value < 2 ^ 63 then
    hll.store 8 ((List.range 8).map fun i => UInt8.ofNat (value / 256 ^ i))
  else .error .assertFailed

def getCache (hll : Hll) : M Nat := do
  if ← cacheValid hll then do
    let bs ← hll.slice 8 8
    .ok (leNat 8 bs)
  else .error .assertFailed

/-! ### The dense encoding -/

/-- A `char` widened to `uint32_t`. -/
def charToU32 (b : UInt8) : UInt32 := if b &&& 128 = 0 then b.toUInt32 else 0xFFFFFF00 ||| b.toUInt32

/-- The byte in which a register begins. The product is computed in 32 bits. -/
def regByte (regNo : Nat) : Nat := 6 * regNo % 2 ^ 32 / 8 + hllHeaderSizeBytes

/-- The first bit of a register in that byte. -/
def regBit (regNo : Nat) : Nat := 6 * regNo % 2 ^ 32 % 8

def getReg (hll : Hll) (regNo : Nat) : M UInt8 := do
  let b0 := regByte regNo
  let fb := UInt32.ofNat (regBit regNo)
  let buf0 := charToU32 (← hll.get b0)
  let buf1 := charToU32 (← hll.get (b0 + 1))
  let reg := (buf0 >>> fb) ||| (buf1 <<< (8 - fb))
  .ok (reg &&& 255).toUInt8

def setReg (hll : Hll) (regNo : Nat) (value : UInt32) : M Hll := do
  let b0 := regByte regNo
  let fb := UInt32.ofNat (regBit regNo)
  let buf0 := charToU32 (← hll.get b0)
  let buf1 := charToU32 (← hll.get (b0 + 1))
  let buf0 := (buf0 &&& ~~~(63 <<< fb)) ||| (value <<< fb)
  let hll ← hll.put b0 (buf0 &&& 255).toUInt8
  let buf1 := (buf1 &&& ~~~(63 >>> (8 - fb))) ||| (value >>> (8 - fb))
  hll.put (b0 + 1) (buf1 &&& 255).toUInt8

def addDense (hll : Hll) (regNo : Nat) (val : UInt8) : M (Hll × Nat) := do
  let reg ← getReg hll regNo
  if reg < val then do
    let hll ← setReg hll regNo val.toUInt32
    let hll ← invalidateCache hll
    .ok (hll, 1)
  else .ok (hll, 0)

/-- The rounds of `cnt_zero_regs` on a dense structure, `n` of them from register `regNo` on. -/
def cntZeroDense (hll : Hll) : Nat → Nat → Nat → M Nat
  | 0, _, zeroRegCnt => .ok zeroRegCnt
  | n + 1, regNo, zeroRegCnt => do
    let reg ← getReg hll regNo
    cntZeroDense hll n (regNo + 1) (if reg = 0 then (zeroRegCnt + 1) % 2 ^ 32 else zeroRegCnt)

/-- The loop on a sparse structure. The call `iszero(flag)` is the macro of `math.h`, which compares with zero. -/
def cntZeroSparse : Nat → Hll → Nat → Nat → M Nat
  | 0, _, _, _ => .error .outOfFuel
  | fuel + 1, hll, fn, zeroRegCnt =>
    if fn < hll.size then do
      let flag ← hll.get fn
      if flag = 0 then cntZeroSparse fuel hll (fn + 1) ((zeroRegCnt + (zeroCnt flag).toNat) % 2 ^ 32)
      else if !isVal flag then do
        let lsb ← hll.get (fn + 1)
        cntZeroSparse fuel hll (fn + 2) ((zeroRegCnt + xzeroCnt flag lsb) % 2 ^ 32)
      else cntZeroSparse fuel hll (fn + 1) zeroRegCnt
    else .ok zeroRegCnt

def cntZeroRegs (hll : Hll) : M Nat := do
  if (← getEnc hll) = hllDense then cntZeroDense hll hllRegisterCnt 0 0
  else cntZeroSparse (hll.size + 1) hll hllHeaderSizeBytes 0

/-- The four bytes `HYLL`, the encoding, and the flag of an invalid cache. -/
def hllHeader (enc : UInt8) : Bytes := [72, 89, 76, 76, enc, 0, 0, 0, 0, 0, 0, 0, 0, 0, 0, 128]

def denseInit : Hll :=
  { mem := hllHeader hllDense ++ List.replicate (hllDenseSizeBytes + 1) 0
    size := hllHeaderSizeBytes + hllDenseSizeBytes
    free := 0 }

/-- The registers of a `VAL` flag. -/
def setRegs (dhll : Hll) (regNo : Nat) (val : UInt8) : Nat → M Hll
  | 0 => .ok dhll
  | cnt + 1 => do
    let dhll ← setReg dhll regNo val.toUInt32
    setRegs dhll (regNo + 1) val cnt

/-- The loop of `densify`. Behind a `VAL` flag the counter of the inner loop has wrapped around, so
adding it takes one off again. -/
def densifyAux : Nat → Hll → Hll → Nat → Nat → M Hll
  | 0, _, _, _, _ => .error .outOfFuel
  | fuel + 1, hll, dhll, regNo, flagNo =>
    if flagNo < hll.size then do
      let flag ← hll.get flagNo
      if isVal flag then do
        let cnt := (valCnt flag).toNat
        let dhll ← setRegs dhll regNo (valValue flag) cnt
        densifyAux fuel hll dhll ((regNo + cnt + (2 ^ 32 - 1)) % 2 ^ 32) (flagNo + 1)
      else if isZero flag then
        densifyAux fuel hll dhll ((regNo + (zeroCnt flag).toNat) % 2 ^ 32) (flagNo + 1)
      else do
        let lsb ← hll.get (flagNo + 1)
        densifyAux fuel hll dhll ((regNo + xzeroCnt flag lsb) % 2 ^ 32) (flagNo + 2)
    else .ok dhll

def densify (hll : Hll) : M Hll := do
  if (← getEnc hll) = hllDense then .ok hll
  else densifyAux (hll.size + 1) hll denseInit 0 hllHeaderSizeBytes

/-! ### The sparse encoding -/

/-- The loop of `estimate_cnt_s`, with rational numbers for its `long double`s. -/
def estimateSumAux : Nat → Hll → Nat → Rat → M Rat
  | 0, _, _, _ => .error .outOfFuel
  | fuel + 1, hll, flagNo, sum =>
    if flagNo < hll.size then do
      let flag ← hll.get flagNo
      if isVal flag then
        estimateSumAux fuel hll (flagNo + 1) (sum + 1 / 2 ^ (valValue flag).toNat * (valCnt flag).toNat)
      else if isZero flag then
        estimateSumAux fuel hll (flagNo + 1) (sum + 1 * (zeroCnt flag).toNat)
      else do
        let lsb ← hll.get (flagNo + 1)
        estimateSumAux fuel hll (flagNo + 2) (sum + 1 * xzeroCnt flag lsb)
    else .ok sum

/-- The sum that `estimate_cnt_s` accumulates. -/
def estimateSum (hll : Hll) : M Rat := estimateSumAux (hll.size + 1) hll hllHeaderSizeBytes 0

/-- `dstr_reserve`: the new block is allocated without room for the two header fields. -/
def hllReserve (junk : Nat → UInt8) (hll : Hll) (add : Nat) : Hll :=
  if hll.size + add > 2 ^ 30 then hll
  else if hll.free ≥ add then hll
  else
    let len := hll.size + add + 1 - 16
    { hll with
      mem := hll.mem.take len ++ (List.range (len - hll.mem.length)).map junk
      free := add }

/-- What the scan of `add_sparse` for the flag of a register leaves in its variables. -/
structure SparseScan where
  start : Nat := 0
  last : Nat := 0
  prev : Option Nat := none
  curr : Option Nat := none
  next : Option Nat := none
  ival : Bool := false
  izero : Bool := false
  ixzero : Bool := false
  deriving DecidableEq, Repr

def sparseScanAux : Nat → Hll → Nat → Nat → Nat → SparseScan → M SparseScan
  | 0, _, _, _, _, _ => .error .outOfFuel
  | fuel + 1, hll, regNo, fn, idx, scan =>
    if fn < hll.size then do
      let flag ← hll.get fn
      let scan := { scan with curr := some fn, start := idx }
      let (scan, cnt, fn) ←
        if isVal flag then .ok ({ scan with ival := true }, (valCnt flag).toNat, fn)
        else if isZero flag then .ok ({ scan with izero := true }, (zeroCnt flag).toNat, fn)
        else do
          let lsb ← hll.get (fn + 1)
          .ok ({ scan with ixzero := true }, xzeroCnt flag lsb, fn + 1)
      let idx := (idx + cnt) % 2 ^ 32
      if idx > regNo then
        .ok { scan with last := idx - 1, next := if fn + 1 < hll.size then some (fn + 1) else none }
      else
        sparseScanAux fuel hll regNo (fn + 1) idx
          { scan with prev := some fn, ival := false, izero := false, ixzero := false }
    else .ok scan

/-- `a - b - 1` in 32 bits -/
def gap (a b : Nat) : Nat := (a + 2 ^ 32 - b + (2 ^ 32 - 1)) % 2 ^ 32

/-- A `VAL` flag. -/
def valFlag (val : UInt8) (count : UInt8) : UInt8 := (128 : UInt8) ||| (val <<< (2 : UInt8)) ||| count

/-- The flags for a run of zero registers of length `count + 1`. -/
def zeroFlags (count : Nat) : Bytes :=
  if count > 64 then [(64 : UInt8) ||| UInt8.ofNat (count / 256), UInt8.ofNat count] else [UInt8.ofNat count]

/-- The contents of `tmp`: the flag of the register between the two halves of the flag it splits. -/
def splitFlags (scan : SparseScan) (flag : UInt8) (regNo : Nat) (val : UInt8) : Bytes :=
  let half : Nat → Bytes := fun count =>
    if scan.ival then [valFlag (valValue flag) (UInt8.ofNat count)] else zeroFlags count
  (if regNo ≠ scan.start then half (gap regNo scan.start) else []) ++ [valFlag val 0] ++
    (if regNo ≠ scan.last then half (gap scan.last regNo) else [])

/-- The loop that merges adjacent `VAL` flags, at most `scanlen` rounds. -/
def mergeAux : Nat → Hll → Nat → Nat → M Hll
  | 0, hll, _, _ => .ok hll
  | scanlen + 1, hll, p, hllEnd =>
    if p < hllEnd then do
      let flag ← hll.get p
      if isZero flag then mergeAux scanlen hll (p + 1) hllEnd
      else if !isVal flag then mergeAux scanlen hll (p + 2) hllEnd
      else if p + 1 < hllEnd then do
        let flag' ← hll.get (p + 1)
        let len := valCnt flag + valCnt flag'
        if isVal flag' && valValue flag == valValue flag' && len ≤ 4 then do
          let hll ← hll.put (p + 1) (valFlag (valValue flag) len)
          let hll ← hll.move p (p + 1) (hllEnd - p)
          let hll ← hll.put (hll.size - 1) 0
          mergeAux scanlen { hll with size := hll.size - 1, free := hll.free + 1 } p hllEnd
        else mergeAux scanlen hll (p + 1) hllEnd
      else mergeAux scanlen hll (p + 1) hllEnd
    else .ok hll

/-- The general case of `add_sparse`: the flag is split and the pieces are written in its place. -/
def spliceFlags (hll : Hll) (scan : SparseScan) (curr : Nat) (tmp : Bytes) : M (Hll × Nat) := do
  let hllEnd := hll.size
  let delta : Int := (tmp.length : Int) - (if scan.ixzero then 2 else 1)
  let hll := { hll with size := (hll.size + delta).toNat, free := toU64 (hll.free - delta) }
  let hll ←
    match scan.next with
    | some next => if delta ≠ 0 then hll.move (next + delta).toNat next (hllEnd - next) else .ok hll
    | none => .ok hll
  let hll ← hll.store curr tmp
  let hll ← mergeAux 5 hll (scan.prev.getD hllHeaderSizeBytes) (hllEnd + delta).toNat
  let hll ← invalidateCache hll
  .ok (hll, 1)

def addSparse (junk : Nat → UInt8) (hll : Hll) (regNo : Nat) (val : UInt8) : M (Hll × Nat) :=
  if val > 32 ∨ hll.size + 5 > hllSparseMaxBytes then do
    let hll ← densify hll
    addDense hll regNo val
  else do
    let val := val - 1
    let newCap := hll.size + 3 + min (hll.size + 3) 300
    let hll := hllReserve junk hll ((if newCap > hllSparseMaxBytes then hllSparseMaxBytes else newCap) - hll.size)
    let scan ← sparseScanAux (hll.size + 1) hll regNo hllHeaderSizeBytes 0 {}
    match scan.curr with
    | none => .error .nullLink
    | some curr => do
      let flag ← hll.get curr
      if scan.ival && valValue flag ≥ val then .ok (hll, 0)
      else if scan.ival && valCnt flag == 1 then do
        let hll ← hll.put curr ((flag &&& (131 : UInt8)) ||| (val <<< (2 : UInt8)))
        let hll ← invalidateCache hll
        .ok (hll, 1)
      else if scan.izero && zeroCnt flag == 1 then do
        let hll ← hll.put curr (valFlag val 1)
        let hll ← invalidateCache hll
        .ok (hll, 1)
      else spliceFlags hll scan curr (splitFlags scan flag regNo val)

/-! ### Interface -/

def hllInit : Hll :=
  { mem := hllHeader hllSparse ++ [127, 255, 0], size := hllHeaderSizeBytes + 2, free := 0 }

/-- One more than the leading zeros of the hash behind the register bits, at most 51. -/
def countZeroes : Nat → UInt64 → Nat → Nat
  | 0, _, zeroes => zeroes
  | n + 1, experimental, zeroes =>
    if experimental &&& 0x8000000000000000 ≠ 0 then zeroes else countZeroes n (experimental <<< 1) (zeroes + 1)

def hllAdd (junk : Nat → UInt8) (hll : Hll) (val : Bytes) : M (Hll × Nat) := do
  let hash := strHash val
  let regNo := (hash >>> 50).toNat
  let zeroes := UInt8.ofNat (countZeroes 50 (hash <<< 14) 1)
  let (hll, ret) ←
    if (← getEnc hll) = hllDense then addDense hll regNo zeroes else addSparse junk hll regNo zeroes
  if (← getEnc hll) = hllSparse ∧ hll.size > hllSparseMaxBytes then do
    let hll ← densify hll
    .ok (hll, ret)
  else .ok (hll, ret)

/-- The loop of `hll_merge`, `n` rounds from register `regNo` on. -/
def mergeRegs (src : Hll) : Nat → Nat → Hll → Bool → M (Hll × Bool)
  | 0, _, dest, changed => .ok (dest, changed)
  | n + 1, regNo, dest, changed => do
    let reg1 ← getReg dest regNo
    let reg2 ← getReg src regNo
    let dest ← setReg dest regNo (max reg1 reg2).toUInt32
    mergeRegs src n (regNo + 1) dest (changed || reg1 < reg2)

/-- `hll_merge`: what the two pointers lead to afterwards. -/
def hllMerge (dest src : Hll) : M (Hll × Hll) := do
  let (dest, changed) ← mergeRegs src hllRegisterCnt 0 dest false
  if changed then do
    let dest ← invalidateCache dest
    .ok (dest, src)
  else .ok (dest, src)

/-- `hll_count`. The estimate, rounded, is a function of the bytes of the structure. -/
def hllCount (estimate : Bytes → Nat) (hll : Hll) : M (Hll × Nat) := do
  if ← cacheValid hll then do
    let cache ← getCache hll
    .ok (hll, cache)
  else do
    let count := estimate (hll.mem.take hll.size)
    let hll ← setCache hll count
    .ok (hll, count)

end CustomRedis
