import Mathlib.Data.List.GetD
import CustomRedis.Proof.HllSparse

/-!
# The dense encoding of the registers

A dense structure holds its registers in six bits each, one behind the other. `set_reg` writes just these bits, and the
bits of a larger value go into the next register. `get_reg` reads two bits more, and the bytes it reads are signed, so
the register comes out right only if the two bits behind it and the top bit of its first byte are zero. Where all these
bits are and stay zero, the two functions are those of an array. The registers themselves are written as in an array
whatever they hold.
-/

namespace CustomRedis

open Run (ok_bind ok_of_bind)
open RunLength

/-- A bit of the registers of a dense structure. -/
def Hll.bit (h : Hll) (k : Nat) : Bool := (h.mem.getD (16 + k / 8) 0).toBitVec.getLsbD (k % 8)

def Hll.denseReg (h : Hll) (i : Nat) : Nat := Nat.ofBits fun t : Fin 6 => h.bit (6 * i + t)

theorem Hll.testBit_denseReg (h : Hll) (i t : Nat) :
    (h.denseReg i).testBit t = (decide (t < 6) && h.bit (6 * i + t)) := by
  rw [denseReg, Nat.testBit_ofBits]
  split
  · next hlt => rw [decide_eq_true hlt, Bool.true_and]
  · next hge => rw [decide_eq_false hge, Bool.false_and]

/-- A dense structure and the terminator behind it. -/
structure Hll.DenseBlock (h : Hll) : Prop where
  dense : h.Dense
  length : h.mem.length = hllHeaderSizeBytes + hllDenseSizeBytes + 1

/-! ### Bits of words -/

theorem getLsbD_sixBits (t : Nat) : (UInt32.toBitVec 63).getLsbD t = decide (t < 6) := by
  by_cases h : t < 32
  · have hall : ∀ t : Fin 32, (UInt32.toBitVec 63).getLsbD t = decide (t.val < 6) := by decide
    exact hall ⟨t, h⟩
  · rw [BitVec.getLsbD_of_ge _ _ (by omega), decide_eq_false (by omega)]

theorem getLsbD_byteMask {j : Nat} (hj : j < 8) : (UInt32.toBitVec 255).getLsbD j = true := by
  have hall : ∀ t : Fin 8, (UInt32.toBitVec 255).getLsbD t = true := by decide
  exact hall ⟨j, hj⟩

/-- A `char` is widened with its top bit. -/
theorem getLsbD_charToU32 (b : UInt8) {j : Nat} (hj : j < 32) :
    (charToU32 b).toBitVec.getLsbD j = b.toBitVec.getLsbD (if j < 8 then j else 7) := by
  have hall : ∀ i : Fin 256, (charToU32 (UInt8.ofFin i)).toBitVec = (UInt8.ofFin i).toBitVec.signExtend 32 := by
    decide +kernel
  have hb : (charToU32 b).toBitVec = b.toBitVec.signExtend 32 := hall b.toFin
  rw [hb, BitVec.getLsbD_signExtend, decide_eq_true hj, Bool.true_and, BitVec.msb_eq_getLsbD_last]
  split
  · rfl
  · rfl

theorem toNat_shift {s : UInt32} (hs : s.toNat < 32) : (s.toBitVec % 32).toNat = s.toNat := by
  rw [BitVec.toNat_umod]
  exact Nat.mod_eq_of_lt hs

section Words

variable (x v : UInt32) {s : UInt32} {j : Nat}

/-- The lower byte of a register that is written. -/
theorem getLsbD_lowByte (hs : s.toNat < 8) (hj : j < 8) :
    (((x &&& ~~~(63 <<< s)) ||| (v <<< s)) &&& 255).toUInt8.toBitVec.getLsbD j =
      if s.toNat ≤ j ∧ j < s.toNat + 6 then v.toBitVec.getLsbD (j - s.toNat)
      else (x.toBitVec.getLsbD j || (decide (s.toNat + 6 ≤ j) && v.toBitVec.getLsbD (j - s.toNat))) := by
  simp only [UInt32.toBitVec_toUInt8, UInt32.toBitVec_and, UInt32.toBitVec_or, UInt32.toBitVec_not,
    UInt32.toBitVec_shiftLeft, BitVec.getLsbD_setWidth, BitVec.getLsbD_and, BitVec.getLsbD_or, BitVec.getLsbD_not,
    BitVec.shiftLeft_eq', BitVec.getLsbD_shiftLeft, toNat_shift (Nat.lt_trans hs (by decide : 8 < 32)), getLsbD_sixBits,
    getLsbD_byteMask hj, hj, show j < 32 by omega, decide_true, Bool.true_and, Bool.and_true]
  by_cases hlow : j < s.toNat
  · rw [if_neg (by omega), decide_eq_false (show ¬s.toNat + 6 ≤ j by omega)]
    simp [hlow]
  · by_cases hhigh : j < s.toNat + 6
    · rw [if_pos (by omega)]
      simp [hlow, show j - s.toNat < 6 by omega]
    · rw [if_neg (by omega), decide_eq_true (show s.toNat + 6 ≤ j by omega)]
      simp [hlow, show ¬j - s.toNat < 6 by omega]

/-- The upper byte of a register that is written. -/
theorem getLsbD_highByte (hs : s.toNat < 32) (hj : j < 8) :
    (((x &&& ~~~(63 >>> s)) ||| (v >>> s)) &&& 255).toUInt8.toBitVec.getLsbD j =
      if s.toNat + j < 6 then v.toBitVec.getLsbD (s.toNat + j)
      else (x.toBitVec.getLsbD j || v.toBitVec.getLsbD (s.toNat + j)) := by
  simp only [UInt32.toBitVec_toUInt8, UInt32.toBitVec_and, UInt32.toBitVec_or, UInt32.toBitVec_not,
    UInt32.toBitVec_shiftRight, BitVec.getLsbD_setWidth, BitVec.getLsbD_and, BitVec.getLsbD_or, BitVec.getLsbD_not,
    BitVec.ushiftRight_eq', BitVec.getLsbD_ushiftRight, toNat_shift hs, getLsbD_sixBits, getLsbD_byteMask hj, hj,
    show j < 32 by omega, decide_true, Bool.true_and, Bool.and_true]
  by_cases hlow : s.toNat + j < 6
  · rw [if_pos hlow, decide_eq_true hlow, Bool.not_true, Bool.and_false, Bool.false_or]
  · rw [if_neg hlow, decide_eq_false hlow, Bool.not_false, Bool.and_true]

/-- The byte that is read for a register. -/
theorem getLsbD_readByte (y : UInt32) {s' : UInt32} (hs : s.toNat < 32) (hs' : s'.toNat < 32) (hj : j < 8) :
    (((x >>> s) ||| (y <<< s')) &&& 255).toUInt8.toBitVec.getLsbD j =
      (x.toBitVec.getLsbD (s.toNat + j) || (!decide (j < s'.toNat) && y.toBitVec.getLsbD (j - s'.toNat))) := by
  simp only [UInt32.toBitVec_toUInt8, UInt32.toBitVec_and, UInt32.toBitVec_or, UInt32.toBitVec_shiftRight,
    UInt32.toBitVec_shiftLeft, BitVec.getLsbD_setWidth, BitVec.getLsbD_and, BitVec.getLsbD_or, BitVec.ushiftRight_eq',
    BitVec.getLsbD_ushiftRight, BitVec.shiftLeft_eq', BitVec.getLsbD_shiftLeft, toNat_shift hs, toNat_shift hs',
    getLsbD_byteMask hj, hj, show j < 32 by omega, decide_true, Bool.true_and, Bool.and_true]

end Words

/-! ### Registers -/

section Registers

variable {h h' : Hll}

theorem Hll.get_getD {p : Nat} (hp : p < h.mem.length) : h.get p = .ok (h.mem.getD p 0) := by
  rw [Hll.get, List.getD_eq_getElem?_getD, List.getElem?_eq_getElem hp]
  rfl

theorem getD_set {α : Type} {l : List α} {p : Nat} (hp : p < l.length) (a d : α) (q : Nat) :
    (l.set p a).getD q d = if p = q then a else l.getD q d := by
  rw [List.getD_eq_getElem?_getD, List.getD_eq_getElem?_getD, List.getElem?_set]
  split
  · rfl
  · rfl

theorem regByte_eq {i : Nat} (hi : i < hllRegisterCnt) : regByte i = 16 + 6 * i / 8 := by
  unfold hllRegisterCnt at hi
  unfold regByte hllHeaderSizeBytes
  omega

theorem toNat_regBit (i : Nat) : (UInt32.ofNat (regBit i)).toNat = 6 * i % 8 := by
  unfold regBit
  rw [UInt32.toNat_ofNat_of_lt' (Nat.lt_trans (Nat.mod_lt _ (by decide)) (by decide : 8 < UInt32.size))]
  omega

theorem toNat_eight_sub {s : UInt32} (hs : s.toNat < 8) : (8 - s).toNat = 8 - s.toNat := by
  apply UInt32.toNat_sub_of_le
  rw [UInt32.le_iff_toNat_le]
  exact Nat.le_of_lt hs

/-- `set_reg` writes the six bits of the register, and lays what else there is in the value over the bits behind it. -/
theorem setReg_bit (hlen : h.mem.length = hllHeaderSizeBytes + hllDenseSizeBytes + 1) {i : Nat} (hi : i < hllRegisterCnt)
    {v : UInt32} (hv : ∀ t, 8 ≤ t → v.toBitVec.getLsbD t = false) :
    ∃ h', setReg h i v = .ok h' ∧ ∀ k, h'.bit k =
      if 6 * i ≤ k ∧ k < 6 * i + 6 then v.toBitVec.getLsbD (k - 6 * i)
      else (h.bit k || (decide (6 * i + 6 ≤ k) && v.toBitVec.getLsbD (k - 6 * i))) := by
  have hbyte := regByte_eq hi
  have hfb := toNat_regBit i
  have hlt : 16 + 6 * i / 8 + 1 < h.mem.length := by
    unfold hllRegisterCnt at hi
    unfold hllHeaderSizeBytes hllDenseSizeBytes hllRegisterCnt at hlen
    omega
  obtain ⟨low, hlow⟩ : ∃ b, b = (((charToU32 (h.mem.getD (16 + 6 * i / 8) 0) &&& ~~~(63 <<< UInt32.ofNat (regBit i))) |||
    (v <<< UInt32.ofNat (regBit i))) &&& 255).toUInt8 := ⟨_, rfl⟩
  obtain ⟨high, hhigh⟩ : ∃ b, b = (((charToU32 (h.mem.getD (16 + 6 * i / 8 + 1) 0) &&&
    ~~~(63 >>> (8 - UInt32.ofNat (regBit i)))) ||| (v >>> (8 - UInt32.ofNat (regBit i)))) &&& 255).toUInt8 := ⟨_, rfl⟩
  refine ⟨{ h with mem := (h.mem.set (16 + 6 * i / 8) low).set (16 + 6 * i / 8 + 1) high }, ?_, fun k => ?_⟩
  · rw [setReg]
    dsimp only
    rw [hbyte, Hll.get_getD (by omega), ok_bind, Hll.get_getD hlt, ok_bind, ← hlow, ← hhigh, Hll.put,
      if_pos (by omega), ok_bind, Hll.put]
    exact if_pos (by rw [List.length_set]; exact hlt)
  · have hshift := toNat_eight_sub (s := UInt32.ofNat (regBit i)) (by omega)
    unfold Hll.bit
    rw [getD_set (by rw [List.length_set]; exact hlt), getD_set (by omega)]
    have hmod : k % 8 < 8 := Nat.mod_lt k (by decide)
    by_cases hbelow : 16 + 6 * i / 8 + 1 = 16 + k / 8
    · rw [if_pos hbelow, hhigh, getLsbD_highByte _ _ (by omega) hmod, getLsbD_charToU32 _ (by omega), if_pos hmod, ← hbelow]
      have hpos : (8 - UInt32.ofNat (regBit i)).toNat + k % 8 = k - 6 * i := by omega
      rw [hpos]
      by_cases hin : k - 6 * i < 6
      · rw [if_pos hin, if_pos (by omega)]
      · rw [if_neg hin, if_neg (by omega), decide_eq_true (show 6 * i + 6 ≤ k by omega), Bool.true_and]
    · rw [if_neg hbelow]
      by_cases hsame : 16 + 6 * i / 8 = 16 + k / 8
      · rw [if_pos hsame, hlow, getLsbD_lowByte _ _ (by omega) hmod, getLsbD_charToU32 _ (by omega), if_pos hmod, ← hsame]
        by_cases hin : 6 * i ≤ k ∧ k < 6 * i + 6
        · have hpos : k % 8 - (UInt32.ofNat (regBit i)).toNat = k - 6 * i := by omega
          rw [if_pos hin, if_pos (by omega), hpos]
        · rw [if_neg hin, if_neg (by omega)]
          by_cases hbehind : 6 * i + 6 ≤ k
          · have hpos : k % 8 - (UInt32.ofNat (regBit i)).toNat = k - 6 * i := by omega
            rw [decide_eq_true hbehind, decide_eq_true (by omega), hpos]
          · rw [decide_eq_false hbehind, decide_eq_false (by omega)]
            rfl
      · have hnone : (decide (6 * i + 6 ≤ k) && v.toBitVec.getLsbD (k - 6 * i)) = false := by
          by_cases hbehind : 6 * i + 6 ≤ k
          · rw [hv _ (by omega), Bool.and_false]
          · rw [decide_eq_false hbehind, Bool.false_and]
        rw [if_neg hsame, if_neg (by omega), hnone, Bool.or_false]

theorem getLsbD_eq_testBit (v : UInt32) (t : Nat) : v.toBitVec.getLsbD t = v.toNat.testBit t :=
  (BitVec.testBit_toNat v.toBitVec).symm

theorem testBit_eq_false_of_lt {v n t : Nat} (hv : v < 2 ^ n) (ht : n ≤ t) : v.testBit t = false :=
  Nat.testBit_lt_two_pow (Nat.lt_of_lt_of_le hv (Nat.pow_le_pow_right (Nat.succ_pos 1) ht))

theorem Hll.denseReg_lt (h : Hll) (i : Nat) : h.denseReg i < 64 := by
  show h.denseReg i < 2 ^ 6
  apply Nat.lt_pow_two_of_testBit
  intro t ht
  rw [Hll.testBit_denseReg, decide_eq_false (by omega), Bool.false_and]

/-- A register with the six low bits of a byte, and the other two bits over the register behind it. -/
def spill (reg : Nat → Nat) (i v : Nat) (j : Nat) : Nat :=
  if j = i then v % 64 else if j = i + 1 then reg j ||| v / 64 else reg j

theorem setReg_spills (hd : h.DenseBlock) {i : Nat} {v : UInt32} (hi : i < hllRegisterCnt) (hv : v.toNat < 256) :
    ∃ h', setReg h i v = .ok h' ∧ h'.DenseBlock ∧ ∀ j, h'.denseReg j = spill h.denseReg i v.toNat j := by
  have htop : ∀ t, 8 ≤ t → v.toBitVec.getLsbD t = false := by
    intro t ht
    rw [getLsbD_eq_testBit, testBit_eq_false_of_lt (show v.toNat < 2 ^ 8 from hv) ht]
  obtain ⟨h', hrun, hbit⟩ := setReg_bit hd.length hi htop
  have hp := setReg_patched hrun
  refine ⟨h', hrun, ⟨hd.dense.of_keeps (by decide) hp.keeps, hp.keeps.1.trans hd.length⟩, fun j => ?_⟩
  apply Nat.eq_of_testBit_eq
  intro t
  rw [Hll.testBit_denseReg, hbit, spill]
  by_cases ht : t < 6
  · rw [decide_eq_true ht, Bool.true_and]
    by_cases hji : j = i
    · rw [if_pos hji, hji, if_pos (by omega), Nat.add_sub_cancel_left, getLsbD_eq_testBit,
        show (64 : Nat) = 2 ^ 6 from rfl, Nat.testBit_mod_two_pow, decide_eq_true ht, Bool.true_and]
    · rw [if_neg hji, if_neg (by omega)]
      by_cases hnext : j = i + 1
      · rw [if_pos hnext, hnext, Nat.testBit_or, Hll.testBit_denseReg, decide_eq_true ht, Bool.true_and,
          decide_eq_true (by omega), Bool.true_and, getLsbD_eq_testBit, show (64 : Nat) = 2 ^ 6 from rfl,
          Nat.testBit_div_two_pow]
        congr 2
        omega
      · rw [if_neg hnext, Hll.testBit_denseReg, decide_eq_true ht, Bool.true_and]
        by_cases hbehind : 6 * i + 6 ≤ 6 * j + t
        · rw [htop _ (by omega), Bool.and_false, Bool.or_false]
        · rw [decide_eq_false hbehind, Bool.false_and, Bool.or_false]
  · rw [decide_eq_false ht, Bool.false_and]
    have hlow : (if j = i then v.toNat % 64 else if j = i + 1 then h.denseReg j ||| v.toNat / 64 else h.denseReg j) < 2 ^ 6 := by
      split
      · exact Nat.mod_lt _ (by decide)
      · split
        · exact Nat.or_lt_two_pow (h.denseReg_lt j) (by omega)
        · exact h.denseReg_lt j
    rw [testBit_eq_false_of_lt hlow (Nat.le_of_not_lt ht)]

theorem spill_lt (reg : Nat → Nat) (i : Nat) {v : Nat} (hv : v < 64) : spill reg i v = Function.update reg i v := by
  funext j
  rw [spill, Function.update_apply, Nat.mod_eq_of_lt hv, Nat.div_eq_of_lt hv, Nat.or_zero, ite_self]

theorem setReg_ok (hd : h.DenseBlock) {i : Nat} {v : UInt32} (hi : i < hllRegisterCnt) (hv : v.toNat < 64) :
    ∃ h', setReg h i v = .ok h' ∧ h'.DenseBlock ∧ h'.denseReg = Function.update h.denseReg i v.toNat := by
  obtain ⟨h', hrun, hd', hreg⟩ := setReg_spills hd hi (Nat.lt_trans hv (by decide))
  refine ⟨h', hrun, hd', ?_⟩
  rw [← spill_lt h.denseReg i hv]
  exact funext hreg

/-- What `get_reg` makes of the registers: the two bits behind the register come with it, and behind the first byte its
top bit is seen over the register. -/
def seenReg (reg : Nat → Nat) (i : Nat) : Nat :=
  (2 ^ 6 * (reg (i + 1) % 2 ^ 2) + reg i) |||
    (if (reg i).testBit (7 - 6 * i % 8) then (2 ^ (6 * i % 8) - 1) <<< (8 - 6 * i % 8) else 0)

/-- The bits that `get_reg` reads. -/
theorem getReg_bits (hd : h.DenseBlock) {i : Nat} (hi : i < hllRegisterCnt) :
    ∃ b, getReg h i = .ok b ∧ ∀ t < 8, b.toNat.testBit t =
      (h.bit (6 * i + t) || (decide (8 ≤ 6 * i % 8 + t) && h.bit (8 * (6 * i / 8) + 7))) := by
  have hbyte := regByte_eq hi
  have hfb := toNat_regBit i
  have hlt : 16 + 6 * i / 8 + 1 < h.mem.length := by
    have hlen := hd.length
    unfold hllRegisterCnt at hi
    unfold hllHeaderSizeBytes hllDenseSizeBytes hllRegisterCnt at hlen
    omega
  obtain ⟨b, hb⟩ : ∃ b, b = (((charToU32 (h.mem.getD (16 + 6 * i / 8) 0) >>> UInt32.ofNat (regBit i)) |||
    (charToU32 (h.mem.getD (16 + 6 * i / 8 + 1) 0) <<< (8 - UInt32.ofNat (regBit i)))) &&& 255).toUInt8 := ⟨_, rfl⟩
  have hrun : getReg h i = .ok b := by
    rw [getReg]
    dsimp only
    rw [hbyte, Hll.get_getD (by omega), ok_bind, Hll.get_getD hlt, ok_bind, ← hb]
  refine ⟨b, hrun, fun t ht => ?_⟩
  have hshift := toNat_eight_sub (s := UInt32.ofNat (regBit i)) (by omega)
  rw [← UInt8.toNat_toBitVec, BitVec.testBit_toNat, hb, getLsbD_readByte _ _ (by omega) (by omega) ht, hfb, hshift, hfb,
    getLsbD_charToU32 _ (by omega), getLsbD_charToU32 _ (by omega)]
  unfold Hll.bit
  have hsign : (8 * (6 * i / 8) + 7) / 8 = 6 * i / 8 ∧ (8 * (6 * i / 8) + 7) % 8 = 7 := by omega
  rw [hsign.1, hsign.2]
  by_cases hfirst : 6 * i % 8 + t < 8
  · have hpos : (6 * i + t) / 8 = 6 * i / 8 ∧ (6 * i + t) % 8 = 6 * i % 8 + t := by omega
    rw [if_pos hfirst, decide_eq_true (show t < 8 - 6 * i % 8 by omega), decide_eq_false (by omega), hpos.1, hpos.2,
      Bool.not_true, Bool.false_and, Bool.false_and]
  · have hpos : (6 * i + t) / 8 = 6 * i / 8 + 1 ∧ (6 * i + t) % 8 = t - (8 - 6 * i % 8) := by omega
    rw [if_neg hfirst, if_pos (by omega), decide_eq_false (show ¬t < 8 - 6 * i % 8 by omega),
      decide_eq_true (by omega), hpos.1, hpos.2, Bool.not_false, Bool.true_and, Bool.true_and, Bool.or_comm,
      Nat.add_assoc]

/-- What is seen over the register is ones where the top bit of its first byte is set. -/
theorem testBit_seenSign (h : Hll) (i t : Nat) :
    (if (h.denseReg i).testBit (7 - 6 * i % 8) then (2 ^ (6 * i % 8) - 1) <<< (8 - 6 * i % 8) else 0).testBit t =
      (decide (8 ≤ 6 * i % 8 + t ∧ t < 8) && h.bit (8 * (6 * i / 8) + 7)) := by
  have hsign : (h.denseReg i).testBit (7 - 6 * i % 8) = (decide (0 < 6 * i % 8) && h.bit (8 * (6 * i / 8) + 7)) := by
    rw [Hll.testBit_denseReg]
    by_cases hzero : 6 * i % 8 = 0
    · rw [decide_eq_false (by omega), decide_eq_false (by omega), Bool.false_and, Bool.false_and]
    · rw [decide_eq_true (by omega), decide_eq_true (by omega), show 6 * i + (7 - 6 * i % 8) = 8 * (6 * i / 8) + 7 by omega]
  rw [hsign]
  cases h.bit (8 * (6 * i / 8) + 7) with
  | false => rw [Bool.and_false, if_neg Bool.noConfusion, Nat.zero_testBit, Bool.and_false]
  | true =>
    rw [Bool.and_true, Bool.and_true]
    by_cases hpos : 0 < 6 * i % 8
    · rw [decide_eq_true hpos, if_pos rfl, Nat.testBit_shiftLeft, Nat.testBit_two_pow_sub_one, ← Bool.decide_and,
        decide_eq_decide]
      omega
    · rw [decide_eq_false hpos, if_neg Bool.noConfusion, Nat.zero_testBit, decide_eq_false (by omega)]

theorem getReg_sees (hd : h.DenseBlock) {i : Nat} (hi : i < hllRegisterCnt) :
    ∃ b, getReg h i = .ok b ∧ b.toNat = seenReg h.denseReg i := by
  obtain ⟨b, hrun, hbit⟩ := getReg_bits hd hi
  refine ⟨b, hrun, ?_⟩
  apply Nat.eq_of_testBit_eq
  intro t
  rw [seenReg, Nat.testBit_or, Nat.testBit_two_pow_mul_add _ (show h.denseReg i < 2 ^ 6 from h.denseReg_lt i),
    Nat.testBit_mod_two_pow, Hll.testBit_denseReg, Hll.testBit_denseReg, testBit_seenSign]
  by_cases ht : t < 8
  · rw [hbit t ht, decide_eq_decide.mpr (and_iff_left ht)]
    by_cases hsix : t < 6
    · rw [if_pos hsix, decide_eq_true hsix, Bool.true_and]
    · rw [if_neg hsix, decide_eq_true (show t - 6 < 2 by omega), decide_eq_true (show t - 6 < 6 by omega), Bool.true_and,
        Bool.true_and, show 6 * (i + 1) + (t - 6) = 6 * i + t by omega]
  · rw [if_neg (by omega), decide_eq_false (by omega), Bool.false_and, decide_eq_false (by omega), Bool.false_and,
      testBit_eq_false_of_lt (show b.toNat < 2 ^ 8 from b.toNat_lt) (Nat.le_of_not_lt ht)]
    rfl

/-- The condition under which `get_reg` reads just the register. -/
def ReadsBack (reg : Nat → Nat) (i : Nat) : Prop := reg (i + 1) % 4 = 0 ∧ (reg i).testBit (7 - 6 * i % 8) = false

instance (reg : Nat → Nat) (i : Nat) : Decidable (ReadsBack reg i) :=
  inferInstanceAs (Decidable (_ ∧ _))

theorem le_seenReg (reg : Nat → Nat) (i : Nat) : reg i ≤ seenReg reg i :=
  Nat.le_trans (Nat.le_add_left _ _) Nat.left_le_or

theorem ReadsBack.seenReg_eq {reg : Nat → Nat} {i : Nat} (hreads : ReadsBack reg i) : seenReg reg i = reg i := by
  rw [seenReg, show reg (i + 1) % 2 ^ 2 = 0 from hreads.1, hreads.2, if_neg Bool.noConfusion, Nat.mul_zero, Nat.zero_add,
    Nat.or_zero]

/-- A byte below 64 is the register. -/
theorem readsBack_of_seenReg_lt {reg : Nat → Nat} {i : Nat} (hreg : reg i < 64) (hlt : seenReg reg i < 64) :
    ReadsBack reg i := by
  have hbits := fun t (ht : 6 ≤ t) => testBit_eq_false_of_lt (show seenReg reg i < 2 ^ 6 from hlt) ht
  refine ⟨?_, Bool.eq_false_iff.mpr fun hsign => ?_⟩
  · have hle : 2 ^ 6 * (reg (i + 1) % 2 ^ 2) ≤ seenReg reg i := Nat.le_trans (Nat.le_add_right _ _) Nat.left_le_or
    omega
  · have hlow : 7 - 6 * i % 8 < 6 := by
      by_contra hge
      rw [testBit_eq_false_of_lt (show reg i < 2 ^ 6 from hreg) (Nat.le_of_not_lt hge)] at hsign
      cases hsign
    have hseven := hbits 7 (by decide)
    rw [seenReg, Nat.testBit_or, if_pos hsign, Nat.testBit_shiftLeft, Nat.testBit_two_pow_sub_one,
      decide_eq_true (by omega), decide_eq_true (by omega), Bool.and_true, Bool.or_true] at hseven
    cases hseven

/-- The cache is not part of the registers. -/
theorem Hll.DenseBlock.invalidate (hd : h.DenseBlock) :
    ∃ h', invalidateCache h = .ok h' ∧ h'.DenseBlock ∧ ∀ j, h'.denseReg j = h.denseReg j := by
  have hlt : 15 < h.mem.length := by
    rw [hd.length]
    decide
  have hrun : invalidateCache h = .ok { h with mem := h.mem.set 15 (h.mem[15] ||| 128) } := by
    rw [invalidateCache, Hll.get, List.getElem?_eq_getElem hlt]
    exact if_pos hlt
  refine ⟨_, hrun, ⟨hd.dense.of_keeps (by decide) (invalidateCache_spec hrun).1.keeps, ?_⟩, fun j => ?_⟩
  · exact List.length_set.trans hd.length
  · unfold Hll.denseReg Hll.bit
    congr 1
    funext t
    rw [getD_set hlt, if_neg (by omega)]

/-- An addition to a dense structure. The register that is read is never too small. -/
theorem addDense_ok (hd : h.DenseBlock) {i v : Nat} (hi : i < hllRegisterCnt) (hv : v < 64)
    (hreads : h.denseReg i < v → ReadsBack h.denseReg i) :
    ∃ h', addDense h i (UInt8.ofNat v) = .ok (h', if h.denseReg i < v then 1 else 0) ∧ h'.DenseBlock ∧
      ∀ j, h'.denseReg j = if j = i then max (h.denseReg i) v else h.denseReg j := by
  obtain ⟨b, hget, hsees⟩ := getReg_sees hd hi
  have hle := le_seenReg h.denseReg i
  have hval : (UInt8.ofNat v).toUInt32.toNat = v := by
    rw [UInt8.toNat_toUInt32, UInt8.toNat_ofNat_of_lt' (show v < 256 by omega)]
  have hcmp : b < UInt8.ofNat v ↔ b.toNat < v := by
    rw [UInt8.lt_iff_toNat_lt, UInt8.toNat_ofNat_of_lt' (show v < 256 by omega)]
  by_cases hlt : h.denseReg i < v
  · obtain ⟨h₁, hset, hd₁, hreg₁⟩ := setReg_ok hd hi (show (UInt8.ofNat v).toUInt32.toNat < 64 by rw [hval]; exact hv)
    obtain ⟨h', hinv, hd', hreg'⟩ := hd₁.invalidate
    refine ⟨h', ?_, hd', fun j => ?_⟩
    · rw [addDense, hget, ok_bind, if_pos (by rw [hcmp, hsees, (hreads hlt).seenReg_eq]; exact hlt), hset, ok_bind, hinv, ok_bind,
        if_pos hlt]
    · rw [hreg', hreg₁, Function.update_apply, hval, Nat.max_eq_right (Nat.le_of_lt hlt)]
  · refine ⟨h, ?_, hd, fun j => ?_⟩
    · rw [addDense, hget, ok_bind, if_neg (by rw [hcmp]; omega), if_neg hlt]
    · split
      · next heq => rw [heq, Nat.max_eq_left (Nat.le_of_not_lt hlt)]
      · rfl

/-! ### Registers as an array -/

theorem denseInit_block : denseInit.DenseBlock := by
  refine ⟨⟨?_, rfl⟩, ?_⟩
  · rw [denseInit, List.length_append, List.length_replicate]
    exact Nat.le_add_right _ _
  · rw [denseInit, List.length_append, List.length_replicate]
    rfl

theorem denseReg_denseInit (j : Nat) : denseInit.denseReg j = 0 := by
  apply Nat.eq_of_testBit_eq
  intro t
  have hbit : denseInit.bit (6 * j + t) = false := by
    have hzero : denseInit.mem.getD (16 + (6 * j + t) / 8) 0 = 0 := by
      rw [List.getD_eq_getElem?_getD, denseInit, List.getElem?_append_right (by exact Nat.le_add_right 16 _),
        List.getElem?_replicate]
      split <;> rfl
    rw [Hll.bit, hzero]
    exact BitVec.getLsbD_zero
  rw [Hll.testBit_denseReg, hbit, Bool.and_false, Nat.zero_testBit]

theorem getReg_exact (hd : h.DenseBlock) {i : Nat} (hi : i < hllRegisterCnt) (hreads : ReadsBack h.denseReg i) :
    getReg h i = .ok (UInt8.ofNat (h.denseReg i)) := by
  obtain ⟨b, hget, hsees⟩ := getReg_sees hd hi
  rw [hget, ← hreads.seenReg_eq, ← hsees, UInt8.ofNat_toNat]

/-- A read below 64 has just the register. -/
theorem readsBack_of_getReg (hd : h.DenseBlock) {i : Nat} (hi : i < hllRegisterCnt) {b : UInt8} (hget : getReg h i = .ok b)
    (hlt : b.toNat < 64) : ReadsBack h.denseReg i := by
  obtain ⟨b', hget', hsees⟩ := getReg_sees hd hi
  cases hget.symm.trans hget'
  exact readsBack_of_seenReg_lt (h.denseReg_lt i) (by rwa [← hsees])

/-- A written register is read back, the others are read as before, and every read is below 64, exactly if no read before
has more than its register, and the value does not spoil the reads of its own register and of the one in front. -/
theorem denseArray_law (hd : h.DenseBlock) {i : Nat} (hi : i < hllRegisterCnt) {v : UInt8} (hv : v.toNat < 64) :
    (∃ h', setReg h i v.toUInt32 = .ok h' ∧ getReg h' i = .ok v ∧
      (∀ j < hllRegisterCnt, j ≠ i → getReg h' j = getReg h j) ∧
      ∀ j < hllRegisterCnt, ∃ b, getReg h j = .ok b ∧ b.toNat < 64) ↔
    (∀ j < hllRegisterCnt, ReadsBack h.denseReg j) ∧ v.toNat.testBit (7 - 6 * i % 8) = false ∧
      (0 < i → v.toNat % 4 = 0) := by
  obtain ⟨h', hset, hd', hreg⟩ := setReg_ok hd hi (show v.toUInt32.toNat < 64 by rwa [UInt8.toNat_toUInt32])
  rw [UInt8.toNat_toUInt32] at hreg
  constructor
  · rintro ⟨h'', hset', hown, hothers, hlow⟩
    cases hset.symm.trans hset'
    have hbefore : ∀ j < hllRegisterCnt, ReadsBack h.denseReg j := by
      intro j hj
      obtain ⟨b, hget, hlt⟩ := hlow j hj
      exact readsBack_of_getReg hd hj hget hlt
    refine ⟨hbefore, ?_, fun hpos => ?_⟩
    · have hreads := (readsBack_of_getReg hd' hi hown hv).2
      rwa [hreg, Function.update_self] at hreads
    · have hin : i - 1 < hllRegisterCnt := by omega
      obtain ⟨b, hget, hlt⟩ := hlow (i - 1) hin
      rw [← hothers (i - 1) hin (by omega)] at hget
      have hreads := (readsBack_of_getReg hd' hin hget hlt).1
      rwa [hreg, Nat.sub_add_cancel hpos, Function.update_self] at hreads
  · rintro ⟨hbefore, hsign, hlow⟩
    have hafter : ∀ j < hllRegisterCnt, ReadsBack h'.denseReg j := by
      intro j hj
      obtain ⟨hnext, hown⟩ := hbefore j hj
      rw [hreg]
      refine ⟨?_, ?_⟩
      · by_cases hji : j + 1 = i
        · rw [hji, Function.update_self]
          exact hlow (by omega)
        · rwa [Function.update_of_ne hji]
      · by_cases hji : j = i
        · rwa [hji, Function.update_self]
        · rwa [Function.update_of_ne hji]
    refine ⟨h', hset, ?_, fun j hj hne => ?_, fun j hj => ⟨_, getReg_exact hd hj (hbefore j hj), ?_⟩⟩
    · rw [getReg_exact hd' hi (hafter i hi), hreg, Function.update_self, UInt8.ofNat_toNat]
    · rw [getReg_exact hd' hj (hafter j hj), getReg_exact hd hj (hbefore j hj), hreg, Function.update_of_ne hne]
    · have hlt := h.denseReg_lt j
      rwa [UInt8.toNat_ofNat_of_lt' (show h.denseReg j < 256 by omega)]

theorem denseArray_law_four : ∃ h', setReg denseInit 1 (4 : UInt8).toUInt32 = .ok h' ∧ getReg h' 1 = .ok 4 ∧
    getReg h' 0 = .ok 0 := by
  have hreads : ∀ j < hllRegisterCnt, ReadsBack denseInit.denseReg j := by
    intro j _
    rw [ReadsBack, denseReg_denseInit, denseReg_denseInit]
    exact ⟨rfl, Nat.zero_testBit _⟩
  obtain ⟨h', hset, hown, hothers, -⟩ := (denseArray_law denseInit_block (show 1 < hllRegisterCnt by decide)
    (show (4 : UInt8).toNat < 64 by decide)).mpr ⟨hreads, by decide, by decide⟩
  refine ⟨h', hset, hown, ?_⟩
  rw [hothers 0 (by decide) (by decide), getReg_exact denseInit_block (by decide) (hreads 0 (by decide)), denseReg_denseInit]
  rfl

/-- Both reads have bits of their own and of the other register. -/
theorem denseArray_broken : denseInit.DenseBlock ∧ getReg denseInit 0 = .ok 0 ∧
    ∃ h', setReg denseInit 1 (3 : UInt8).toUInt32 = .ok h' ∧ getReg h' 1 = .ok 255 ∧ getReg h' 0 = .ok 192 := by
  obtain ⟨h', hset, hd', hreg⟩ := setReg_ok denseInit_block (show 1 < hllRegisterCnt by decide)
    (show (3 : UInt8).toUInt32.toNat < 64 by decide)
  rw [show denseInit.denseReg = fun _ => 0 from funext denseReg_denseInit] at hreg
  have hseen : ∀ j < 2, seenReg (Function.update (fun _ => 0) 1 3) j = if j = 1 then 255 else 192 := by decide
  have hread : ∀ j < 2, getReg h' j = .ok (if j = 1 then 255 else 192) := by
    intro j hj
    obtain ⟨b, hget, hsees⟩ := getReg_sees hd' (show j < hllRegisterCnt from Nat.lt_trans hj (by decide))
    rw [hreg] at hsees
    rw [hget, ← UInt8.toNat_inj.mp (hsees.trans ((hseen j hj).trans (apply_ite UInt8.toNat (j = 1) 255 192).symm))]
  exact ⟨denseInit_block, by decide +kernel, h', hset, hread 1 (by decide), hread 0 (by decide)⟩

/-- A value of six bits goes into the bits of its register and nowhere else. -/
theorem setReg_field (hlen : h.mem.length = hllHeaderSizeBytes + hllDenseSizeBytes + 1) {i : Nat} (hi : i < hllRegisterCnt)
    {v : UInt32} (hv : v.toNat < 64) : ∃ h', setReg h i v = .ok h' ∧ ∀ k, h'.bit k =
      if 6 * i ≤ k ∧ k < 6 * i + 6 then v.toNat.testBit (k - 6 * i) else h.bit k := by
  have hhigh : ∀ t, 6 ≤ t → v.toBitVec.getLsbD t = false := by
    intro t ht
    rw [getLsbD_eq_testBit, testBit_eq_false_of_lt (show v.toNat < 2 ^ 6 from hv) ht]
  obtain ⟨h', hrun, hbit⟩ := setReg_bit hlen hi fun t ht => hhigh t (by omega)
  refine ⟨h', hrun, fun k => ?_⟩
  rw [hbit]
  by_cases hin : 6 * i ≤ k ∧ k < 6 * i + 6
  · rw [if_pos hin, if_pos hin, getLsbD_eq_testBit]
  · rw [if_neg hin, if_neg hin]
    by_cases hbehind : 6 * i + 6 ≤ k
    · rw [hhigh _ (by omega), Bool.and_false, Bool.or_false]
    · rw [decide_eq_false hbehind, Bool.false_and, Bool.or_false]

/-- A byte behind the header is its eight bits. -/
theorem Hll.byte_eq_of_bits {p : Nat} (hbits : ∀ t < 8, h'.bit (8 * p + t) = h.bit (8 * p + t)) :
    h'.mem.getD (16 + p) 0 = h.mem.getD (16 + p) 0 := by
  apply UInt8.toBitVec_inj.mp
  apply BitVec.eq_of_getLsbD_eq
  intro t ht
  have hpos : (8 * p + t) / 8 = p ∧ (8 * p + t) % 8 = t := by omega
  have hbit := hbits t ht
  rwa [Hll.bit, Hll.bit, hpos.1, hpos.2] at hbit

/-- A write touches two bytes behind the header, and of these just the bits of its register. -/
theorem setReg_packed (hlen : h.mem.length = hllHeaderSizeBytes + hllDenseSizeBytes + 1) {i : Nat} (hi : i < hllRegisterCnt)
    {v : UInt32} (hv : v.toNat < 64) :
    (hllHeaderSizeBytes ≤ regByte i ∧ regByte i + 1 < h.mem.length) ∧
    ∃ h', setReg h i v = .ok h' ∧ h'.denseReg i = v.toNat ∧
      (∀ j < hllRegisterCnt, j ≠ i → h'.denseReg j = h.denseReg j) ∧
      (∀ p < hllHeaderSizeBytes, h'.mem[p]? = h.mem[p]?) ∧
      h'.mem[hllHeaderSizeBytes + hllDenseSizeBytes]? = h.mem[hllHeaderSizeBytes + hllDenseSizeBytes]? ∧
      h'.mem.length = h.mem.length ∧ h'.size = h.size ∧ h'.free = h.free := by
  have hbyte := regByte_eq hi
  obtain ⟨h', hrun, hbit⟩ := setReg_field hlen hi hv
  obtain ⟨⟨hlen', hheader⟩, hsize, hfree⟩ := setReg_patched hrun
  refine ⟨?_, h', hrun, ?_, fun j _ hne => ?_, hheader, ?_, hlen', hsize, hfree⟩
  · rw [hlen, hbyte]
    unfold hllRegisterCnt at hi
    unfold hllHeaderSizeBytes hllDenseSizeBytes hllRegisterCnt
    omega
  · apply Nat.eq_of_testBit_eq
    intro t
    rw [Hll.testBit_denseReg, hbit]
    by_cases ht : t < 6
    · rw [decide_eq_true ht, Bool.true_and, if_pos (by omega), Nat.add_sub_cancel_left]
    · rw [decide_eq_false ht, Bool.false_and, testBit_eq_false_of_lt (show v.toNat < 2 ^ 6 from hv) (Nat.le_of_not_lt ht)]
  · apply Nat.eq_of_testBit_eq
    intro t
    rw [Hll.testBit_denseReg, Hll.testBit_denseReg, hbit]
    by_cases ht : t < 6
    · rw [if_neg (by omega)]
    · rw [decide_eq_false ht, Bool.false_and, Bool.false_and]
  · -- the last register ends where the terminator begins
    have hend : h'.mem.getD (16 + hllDenseSizeBytes) 0 = h.mem.getD (16 + hllDenseSizeBytes) 0 := by
      apply Hll.byte_eq_of_bits
      intro t _
      rw [hbit, if_neg]
      unfold hllRegisterCnt at hi
      unfold hllDenseSizeBytes hllRegisterCnt
      omega
    have hlt : 16 + hllDenseSizeBytes < h.mem.length := by
      rw [hlen]
      exact Nat.lt_succ_self _
    have hlt' : 16 + hllDenseSizeBytes < h'.mem.length := by rwa [hlen']
    rw [List.getD_eq_getElem _ _ hlt', List.getD_eq_getElem _ _ hlt] at hend
    rw [hllHeaderSizeBytes, List.getElem?_eq_getElem hlt', List.getElem?_eq_getElem hlt, hend]

/-- The last register, next to the terminator. -/
theorem setReg_packed_last : ∃ h', setReg denseInit 16383 63 = .ok h' ∧ h'.denseReg 16383 = 63 ∧
    h'.mem[hllHeaderSizeBytes + hllDenseSizeBytes]? = denseInit.mem[hllHeaderSizeBytes + hllDenseSizeBytes]? := by
  obtain ⟨-, h', hrun, hreg, -, -, hend, -⟩ := setReg_packed denseInit_block.length
    (show 16383 < hllRegisterCnt by decide) (show (63 : UInt32).toNat < 64 by decide)
  exact ⟨h', hrun, hreg, hend⟩

end Registers

end CustomRedis
