import CustomRedis.Proof.HllDense

/-!
# Merging dense structures

A round of `hll_merge` takes the greater of the two bytes that `get_reg` reads for a register. The byte has up to two
bits of the register behind in it, and `set_reg` lays them over that register before the next round reads it. How far
this goes can be told from the registers as they were given: a round leaves the same two bits whether or not it has met
those of the round before.
-/

namespace CustomRedis

open Run (ok_bind)

/-! ### A round on the registers -/

/-- The bits that the rounds before have laid over a register. -/
def carry (d s : Nat → Nat) : Nat → Nat
  | 0 => 0
  | i + 1 => max (seenReg d i) (seenReg s i) / 64

/-- The byte that is read for a register of the destination. -/
def destByte (d s : Nat → Nat) (i : Nat) : Nat := seenReg (Function.update d i (d i ||| carry d s i)) i

def mergedByte (d s : Nat → Nat) (i : Nat) : Nat := max (destByte d s i) (seenReg s i)

/-- The registers of the destination before round `i`. -/
def merging (d s : Nat → Nat) (i j : Nat) : Nat :=
  if j < i then mergedByte d s j % 64 else if j = i then d j ||| carry d s j else d j

/-- The top two bits of a read. -/
theorem seenReg_div {reg : Nat → Nat} {i : Nat} (hreg : reg i < 64) :
    seenReg reg i / 64 = if (reg i).testBit (7 - 6 * i % 8) then 3 else reg (i + 1) % 4 := by
  apply Nat.eq_of_testBit_eq
  intro t
  rw [show (64 : Nat) = 2 ^ 6 from rfl, Nat.testBit_div_two_pow, seenReg, Nat.testBit_or,
    Nat.testBit_two_pow_mul_add _ (show reg i < 2 ^ 6 from hreg), if_neg (by omega), Nat.add_sub_cancel]
  by_cases hsign : (reg i).testBit (7 - 6 * i % 8) = true
  · have hlow : 7 - 6 * i % 8 < 6 := by
      by_contra hge
      rw [testBit_eq_false_of_lt (show reg i < 2 ^ 6 from hreg) (Nat.le_of_not_lt hge)] at hsign
      cases hsign
    rw [if_pos hsign, if_pos hsign, Nat.testBit_mod_two_pow, Nat.testBit_shiftLeft, Nat.testBit_two_pow_sub_one,
      show (3 : Nat) = 2 ^ 2 - 1 from rfl, Nat.testBit_two_pow_sub_one]
    by_cases ht : t < 2
    · rw [decide_eq_true (show t + 6 ≥ 8 - 6 * i % 8 by omega), decide_eq_true (show t + 6 - (8 - 6 * i % 8) < 6 * i % 8 by omega),
        decide_eq_true ht, Bool.and_true, Bool.or_true]
    · rw [decide_eq_false ht, decide_eq_false (show ¬t + 6 - (8 - 6 * i % 8) < 6 * i % 8 by omega), Bool.and_false,
        Bool.false_and, Bool.or_false]
  · rw [if_neg hsign, if_neg hsign, Nat.zero_testBit, Bool.or_false, show (2 : Nat) ^ 2 = 4 from rfl]

theorem testBit_one (n : Nat) : n.testBit 1 = true ↔ 2 ≤ n % 4 := by
  rw [Nat.testBit_eq_decide_div_mod_eq, decide_eq_true_eq]
  omega

theorem seenReg_merging (d s : Nat → Nat) (i : Nat) : seenReg (merging d s i) i = destByte d s i := by
  have hown : merging d s i i = d i ||| carry d s i := by rw [merging, if_neg (Nat.lt_irrefl i), if_pos rfl]
  have hnext : merging d s i (i + 1) = d (i + 1) := by
    rw [merging, if_neg (by omega), if_neg (by omega)]
  rw [destByte, seenReg, seenReg, hown, hnext, Function.update_self, Function.update_of_ne (Nat.succ_ne_self i)]

section Round

variable {d s : Nat → Nat} (hd : ∀ j, d j < 64) (hs : ∀ j, s j < 64)
include hd hs

theorem seenReg_div_le (i : Nat) : seenReg d i / 64 ≤ 3 ∧ seenReg s i / 64 ≤ 3 := by
  rw [seenReg_div (hd i), seenReg_div (hs i)]
  constructor
  · split <;> omega
  · split <;> omega

theorem carry_lt (i : Nat) : carry d s i < 4 := by
  cases i with
  | zero => exact Nat.succ_pos 3
  | succ i =>
    have hle := seenReg_div_le hd hs i
    rw [carry]
    omega

theorem or_carry_lt (i : Nat) : d i ||| carry d s i < 64 :=
  Nat.or_lt_two_pow (show d i < 2 ^ 6 from hd i) (Nat.lt_trans (carry_lt hd hs i) (by decide))

/-- A bit that is laid over the sign of a register is one that the source has there as well. -/
theorem sign_of_carry {i : Nat} (hcarry : (carry d s i).testBit (7 - 6 * i % 8) = true)
    (hnot : (d i).testBit (7 - 6 * i % 8) = false) : (s i).testBit (7 - 6 * i % 8) = true := by
  have hsix : 7 - 6 * i % 8 = 1 := by
    by_contra hne
    rw [testBit_eq_false_of_lt (show carry d s i < 2 ^ 2 from carry_lt hd hs i) (by omega)] at hcarry
    cases hcarry
  rw [hsix] at hcarry hnot ⊢
  cases i with
  | zero =>
    rw [carry, Nat.zero_testBit] at hcarry
    cases hcarry
  | succ i =>
    -- the register in front begins with its byte and has no sign
    have hfront : ∀ reg : Nat → Nat, reg i < 64 → (reg i).testBit (7 - 6 * i % 8) = false := by
      intro reg hreg
      exact testBit_eq_false_of_lt (show reg i < 2 ^ 6 from hreg) (by omega)
    have hdiv : carry d s (i + 1) = max (d (i + 1) % 4) (s (i + 1) % 4) := by
      have hdfront := seenReg_div (hd i)
      have hsfront := seenReg_div (hs i)
      rw [hfront d (hd i), if_neg Bool.noConfusion] at hdfront
      rw [hfront s (hs i), if_neg Bool.noConfusion] at hsfront
      rw [carry]
      omega
    rw [hdiv, testBit_one] at hcarry
    rw [← Bool.not_eq_true, testBit_one] at hnot
    rw [testBit_one]
    omega

/-- What a round leaves for the next one does not depend on what it was left. -/
theorem mergedByte_div (i : Nat) : mergedByte d s i / 64 = carry d s (i + 1) := by
  have hle := seenReg_div_le hd hs i
  have hdest : destByte d s i / 64 = if (d i ||| carry d s i).testBit (7 - 6 * i % 8) then 3 else d (i + 1) % 4 := by
    rw [destByte, seenReg_div (by rw [Function.update_self]; exact or_carry_lt hd hs i), Function.update_self,
      Function.update_of_ne (Nat.succ_ne_self i)]
  have htop := seenReg_div (hd i)
  have hstop := seenReg_div (hs i)
  rw [mergedByte, carry]
  by_cases hsign : (d i).testBit (7 - 6 * i % 8) = true
  · rw [Nat.testBit_or, hsign, Bool.true_or, if_pos rfl] at hdest
    rw [if_pos hsign] at htop
    omega
  · by_cases hcarry : (carry d s i).testBit (7 - 6 * i % 8) = true
    · rw [if_pos (sign_of_carry hd hs hcarry (Bool.eq_false_iff.mpr hsign))] at hstop
      rw [Nat.testBit_or, hcarry, Bool.or_true, if_pos rfl] at hdest
      omega
    · rw [Nat.testBit_or, Bool.eq_false_iff.mpr hsign, Bool.eq_false_iff.mpr hcarry, Bool.or_false,
        if_neg Bool.noConfusion] at hdest
      rw [if_neg hsign] at htop
      omega

/-- A round of the loop. -/
theorem spill_merging (i : Nat) : spill (merging d s i) i (mergedByte d s i) = merging d s (i + 1) := by
  funext j
  rw [spill, mergedByte_div hd hs, merging, merging]
  by_cases hji : j = i
  · rw [if_pos hji, if_pos (by omega), hji]
  · rw [if_neg hji]
    by_cases hnext : j = i + 1
    · rw [if_pos hnext, if_neg (by omega), if_neg (by omega), if_neg (by omega), if_pos hnext, hnext]
    · rw [if_neg hnext, if_neg hji, if_neg hnext]
      exact if_congr (by omega) rfl rfl

end Round

/-! ### The loop -/

section Merge

variable {dest src : Hll}

theorem mergeRegs_ok (hsrc : src.DenseBlock) {d : Nat → Nat} (hlow : ∀ j, d j < 64) {n i : Nat}
    (hin : i + n ≤ hllRegisterCnt) (hdest : dest.DenseBlock) (hreg : dest.denseReg = merging d src.denseReg i)
    (changed : Bool) :
    ∃ h r, mergeRegs src n i dest changed = .ok (h, r) ∧ h.DenseBlock ∧ h.denseReg = merging d src.denseReg (i + n) ∧
      Hll.Patched 16 dest h ∧
      (r = true ↔ changed = true ∨ ∃ j, i ≤ j ∧ j < i + n ∧ destByte d src.denseReg j < seenReg src.denseReg j) := by
  induction n generalizing i dest changed with
  | zero =>
    refine ⟨dest, changed, rfl, hdest, hreg, Hll.Patched.refl 16 dest, ?_⟩
    rw [or_iff_left]
    rintro ⟨j, hle, hlt, -⟩
    omega
  | succ n ih =>
    obtain ⟨b, hget, hsees⟩ := getReg_sees hdest (show i < hllRegisterCnt by omega)
    obtain ⟨c, hget', hsees'⟩ := getReg_sees hsrc (show i < hllRegisterCnt by omega)
    rw [hreg, seenReg_merging] at hsees
    have hmax : (max b c).toUInt32.toNat = mergedByte d src.denseReg i := by
      rw [UInt8.toNat_toUInt32, mergedByte, ← hsees, ← hsees', UInt8.toNat_max]
    obtain ⟨h₁, hset, hd₁, hreg₁⟩ := setReg_spills hdest (show i < hllRegisterCnt by omega)
      (show (max b c).toUInt32.toNat < 256 by rw [UInt8.toNat_toUInt32]; exact (max b c).toNat_lt)
    have hstep : h₁.denseReg = merging d src.denseReg (i + 1) := by
      rw [← spill_merging hlow src.denseReg_lt, ← hmax, ← hreg]
      exact funext hreg₁
    obtain ⟨h, r, hrun, hd, hfinal, hp, hr⟩ := ih (by omega) hd₁ hstep (changed || b < c)
    refine ⟨h, r, ?_, hd, ?_, (setReg_patched hset).trans hp, ?_⟩
    · rw [mergeRegs, hget, ok_bind, hget', ok_bind, hset, ok_bind, hrun]
    · rw [hfinal, Nat.add_assoc, Nat.add_comm 1]
    · have hcmp : (decide (b < c)) = true ↔ destByte d src.denseReg i < seenReg src.denseReg i := by
        rw [decide_eq_true_eq, UInt8.lt_iff_toNat_lt, hsees, hsees']
      rw [hr, Bool.or_eq_true, hcmp, or_assoc]
      refine or_congr_right ⟨?_, ?_⟩
      · rintro (hfirst | ⟨j, hle, hlt, hrest⟩)
        · exact ⟨i, Nat.le_refl i, by omega, hfirst⟩
        · exact ⟨j, by omega, by omega, hrest⟩
      · rintro ⟨j, hle, hlt, hrest⟩
        by_cases hji : j = i
        · exact .inl (hji ▸ hrest)
        · exact .inr ⟨j, by omega, by omega, hrest⟩

/-- A merge and what it leaves. -/
theorem hllMerge_ok (hdest : dest.DenseBlock) (hsrc : src.DenseBlock) :
    ∃ h, hllMerge dest src = .ok (h, src) ∧ h.DenseBlock ∧
      h.denseReg = merging dest.denseReg src.denseReg hllRegisterCnt ∧
      (cacheValid h = .ok false ↔ cacheValid dest = .ok false ∨
        ∃ i < hllRegisterCnt, destByte dest.denseReg src.denseReg i < seenReg src.denseReg i) := by
  have hstart : dest.denseReg = merging dest.denseReg src.denseReg 0 := by
    funext j
    rw [merging, if_neg (Nat.not_lt_zero j)]
    split
    · next hj => rw [hj, carry, Nat.or_zero]
    · rfl
  obtain ⟨h₁, r, hrun, hd₁, hreg₁, hp₁, hr⟩ := mergeRegs_ok hsrc dest.denseReg_lt (n := hllRegisterCnt) (i := 0) (by omega)
    hdest hstart false
  rw [Nat.zero_add] at hreg₁
  have hchanged : r = true ↔ ∃ i < hllRegisterCnt, destByte dest.denseReg src.denseReg i < seenReg src.denseReg i := by
    rw [hr, or_iff_right Bool.noConfusion]
    simp only [Nat.zero_le, true_and, Nat.zero_add]
  rw [hllMerge, hrun, ok_bind]
  cases r with
  | false =>
    refine ⟨h₁, rfl, hd₁, hreg₁, ?_⟩
    have hbyte : h₁.mem[15]? = dest.mem[15]? := hp₁.keeps.2 15 (by decide)
    rw [← hchanged, or_iff_left Bool.noConfusion, cacheValid_eq_false_iff, cacheValid_eq_false_iff, Hll.CacheInvalid,
      Hll.CacheInvalid, hbyte]
  | true =>
    obtain ⟨h, hinv, hd, hreg⟩ := hd₁.invalidate
    refine ⟨h, ?_, hd, (funext hreg).trans hreg₁, ?_⟩
    · show (invalidateCache h₁ >>= _) = _
      rw [hinv, ok_bind]
    · exact iff_of_true (cacheValid_eq_false_iff.mpr (invalidateCache_spec hinv).2) (.inr (hchanged.mp rfl))

/-! ### The law of merging -/

/-- A merge that leaves the greater of the two values in every register, and a valid cache only if it has changed none of
their bytes. -/
structure Merged (dest src h : Hll) : Prop where
  run : hllMerge dest src = .ok (h, src)
  registers : ∀ i < hllRegisterCnt, h.denseReg i = max (dest.denseReg i) (src.denseReg i)
  cache : (∃ p, hllHeaderSizeBytes ≤ p ∧ p < hllHeaderSizeBytes + hllDenseSizeBytes ∧ h.mem[p]? ≠ dest.mem[p]?) →
    cacheValid h = .ok false

/-- The registers take up their bytes to the last bit. -/
theorem payload_eq_iff {h h' : Hll} (hd : h.DenseBlock) (hd' : h'.DenseBlock) :
    (∀ p, hllHeaderSizeBytes ≤ p → p < hllHeaderSizeBytes + hllDenseSizeBytes → h'.mem[p]? = h.mem[p]?) ↔
      ∀ i < hllRegisterCnt, h'.denseReg i = h.denseReg i := by
  have hlen := hd.length
  have hlen' := hd'.length
  unfold hllHeaderSizeBytes hllDenseSizeBytes hllRegisterCnt at *
  constructor
  · intro hbytes i hi
    apply Nat.eq_of_testBit_eq
    intro t
    rw [Hll.testBit_denseReg, Hll.testBit_denseReg]
    by_cases ht : t < 6
    · rw [Hll.bit, Hll.bit, List.getD_eq_getElem?_getD, List.getD_eq_getElem?_getD, hbytes _ (by omega) (by omega)]
    · rw [decide_eq_false ht, Bool.false_and, Bool.false_and]
  · intro hregs p hp hlt
    obtain ⟨q, rfl⟩ := Nat.exists_eq_add_of_le hp
    rw [List.getElem?_eq_getElem (show 16 + q < h.mem.length by omega),
      List.getElem?_eq_getElem (show 16 + q < h'.mem.length by omega), Option.some_inj]
    apply UInt8.eq_of_toBitVec_eq
    apply BitVec.eq_of_getLsbD_eq
    intro t ht
    have hbit := congrArg (fun n => n.testBit ((8 * q + t) % 6)) (hregs ((8 * q + t) / 6) (by omega))
    have hpos : 6 * ((8 * q + t) / 6) + (8 * q + t) % 6 = 8 * q + t := Nat.div_add_mod _ 6
    have hbyte : (8 * q + t) / 8 = q ∧ (8 * q + t) % 8 = t := by omega
    simp only [Hll.testBit_denseReg, hpos, decide_eq_true (Nat.mod_lt (8 * q + t) (show 0 < 6 by decide)), Bool.true_and,
      Hll.bit, hbyte.1, hbyte.2] at hbit
    rw [List.getD_eq_getElem _ _ (show 16 + q < h.mem.length by omega),
      List.getD_eq_getElem _ _ (show 16 + q < h'.mem.length by omega)] at hbit
    exact hbit

/-- A merge is as it should be exactly if in every register the greater of the two bytes has the greater of the two
values, and, where the source has a greater value somewhere, the cache was invalid before or some byte of the source is
the greater one. -/
theorem merged_iff (hdest : dest.DenseBlock) (hsrc : src.DenseBlock) :
    (∃ h, Merged dest src h) ↔
      (∀ i < hllRegisterCnt, mergedByte dest.denseReg src.denseReg i % 64 = max (dest.denseReg i) (src.denseReg i)) ∧
      ((∃ i < hllRegisterCnt, dest.denseReg i < src.denseReg i) → cacheValid dest = .ok false ∨
        ∃ i < hllRegisterCnt, destByte dest.denseReg src.denseReg i < seenReg src.denseReg i) := by
  obtain ⟨h, hrun, hd, hreg, hcache⟩ := hllMerge_ok hdest hsrc
  have hregs : ∀ i < hllRegisterCnt, h.denseReg i = mergedByte dest.denseReg src.denseReg i % 64 := by
    intro i hi
    rw [hreg, merging, if_pos hi]
  have hchange : (∀ i < hllRegisterCnt, h.denseReg i = max (dest.denseReg i) (src.denseReg i)) →
      ((∃ p, hllHeaderSizeBytes ≤ p ∧ p < hllHeaderSizeBytes + hllDenseSizeBytes ∧ h.mem[p]? ≠ dest.mem[p]?) ↔
        ∃ i < hllRegisterCnt, dest.denseReg i < src.denseReg i) := by
    intro hmax
    have hsame := not_congr (payload_eq_iff hdest hd)
    push Not at hsame
    rw [hsame]
    refine exists_congr fun i => and_congr_right fun hi => ?_
    rw [hmax i hi]
    omega
  constructor
  · rintro ⟨h', hrun', hmax, hinvalid⟩
    cases hrun.symm.trans hrun'
    refine ⟨fun i hi => (hregs i hi).symm.trans (hmax i hi), fun hgreater => ?_⟩
    exact hcache.mp (hinvalid ((hchange hmax).mpr hgreater))
  · rintro ⟨hbytes, hinvalid⟩
    have hmax : ∀ i < hllRegisterCnt, h.denseReg i = max (dest.denseReg i) (src.denseReg i) :=
      fun i hi => (hregs i hi).trans (hbytes i hi)
    exact ⟨h, hrun, hmax, fun hchanged => hcache.mpr (hinvalid ((hchange hmax).mp hchanged))⟩

/-! ### Registers that are read alone -/

/-- `get_reg` reads no bit but those of the register, anywhere in the structure. -/
def Hll.ReadsAlone (h : Hll) : Prop := ∀ i < hllRegisterCnt, ReadsBack h.denseReg i

section Alone

variable (hdreads : dest.ReadsAlone) (hsreads : src.ReadsAlone)
include hdreads hsreads

/-- Nothing is laid over the next register. -/
theorem Hll.ReadsAlone.carry_eq {i : Nat} (hi : i ≤ hllRegisterCnt) : carry dest.denseReg src.denseReg i = 0 := by
  cases i with
  | zero => rfl
  | succ i =>
    have hdi := dest.denseReg_lt i
    have hsi := src.denseReg_lt i
    rw [carry, (hdreads i hi).seenReg_eq, (hsreads i hi).seenReg_eq]
    omega

theorem Hll.ReadsAlone.destByte_eq {i : Nat} (hi : i < hllRegisterCnt) :
    destByte dest.denseReg src.denseReg i = dest.denseReg i := by
  rw [destByte, hdreads.carry_eq hsreads (Nat.le_of_lt hi), Nat.or_zero, Function.update_eq_self, (hdreads i hi).seenReg_eq]

theorem Hll.ReadsAlone.mergedByte_eq {i : Nat} (hi : i < hllRegisterCnt) :
    mergedByte dest.denseReg src.denseReg i % 64 = max (dest.denseReg i) (src.denseReg i) := by
  have hdi := dest.denseReg_lt i
  have hsi := src.denseReg_lt i
  rw [mergedByte, hdreads.destByte_eq hsreads hi, (hsreads i hi).seenReg_eq]
  omega

/-- The greater of two values has its low bits and its sign from one of them. -/
theorem Hll.ReadsAlone.merging : ∀ i < hllRegisterCnt,
    ReadsBack (CustomRedis.merging dest.denseReg src.denseReg hllRegisterCnt) i := by
  intro i hi
  obtain ⟨hdnext, hdsign⟩ := hdreads i hi
  obtain ⟨hsnext, hssign⟩ := hsreads i hi
  constructor
  · rw [CustomRedis.merging]
    split
    · next hlt =>
      rw [hdreads.mergedByte_eq hsreads hlt]
      rcases max_choice (dest.denseReg (i + 1)) (src.denseReg (i + 1)) with hmax | hmax
      · rwa [hmax]
      · rwa [hmax]
    · -- behind the last register nothing is merged
      rwa [hdreads.carry_eq hsreads hi, Nat.or_zero, ite_self]
  · rw [CustomRedis.merging, if_pos hi, hdreads.mergedByte_eq hsreads hi]
    rcases max_choice (dest.denseReg i) (src.denseReg i) with hmax | hmax
    · rwa [hmax]
    · rwa [hmax]

/-- Registers that are read alone are merged as they should be, and are read alone again. -/
theorem Hll.ReadsAlone.merged (hdest : dest.DenseBlock) (hsrc : src.DenseBlock) :
    ∃ h, Merged dest src h ∧ h.DenseBlock ∧ h.ReadsAlone := by
  have hmerged : ∃ h, Merged dest src h := by
    refine (merged_iff hdest hsrc).mpr ⟨fun i hi => hdreads.mergedByte_eq hsreads hi, ?_⟩
    rintro ⟨i, hi, hlt⟩
    refine .inr ⟨i, hi, ?_⟩
    rwa [hdreads.destByte_eq hsreads hi, (hsreads i hi).seenReg_eq]
  obtain ⟨h, hm⟩ := hmerged
  obtain ⟨h', hrun, hd, hreg, -⟩ := hllMerge_ok hdest hsrc
  cases hrun.symm.trans hm.run
  exact ⟨h, hm, hd, fun i hi => hreg ▸ hdreads.merging hsreads i hi⟩

end Alone

/-- Merges that go right are idempotent, commutative and associative on the registers. -/
theorem Merged.lattice {a b c ab ba bc abc abc' aa : Hll} (hab : Merged a b ab) (hba : Merged b a ba) (hbc : Merged b c bc)
    (habc : Merged ab c abc) (habc' : Merged a bc abc') (haa : Merged a a aa) {i : Nat} (hi : i < hllRegisterCnt) :
    aa.denseReg i = a.denseReg i ∧ ab.denseReg i = ba.denseReg i ∧ abc.denseReg i = abc'.denseReg i := by
  rw [haa.registers i hi, hab.registers i hi, hba.registers i hi, habc.registers i hi, habc'.registers i hi,
    hab.registers i hi, hbc.registers i hi]
  exact ⟨max_self _, max_comm _ _, max_assoc _ _ _⟩

/-- The law of merging, for structures whose registers are all read alone. -/
theorem hllMerge_law {a b c : Hll} (ha : a.DenseBlock) (hb : b.DenseBlock) (hc : c.DenseBlock) (hareads : a.ReadsAlone)
    (hbreads : b.ReadsAlone) (hcreads : c.ReadsAlone) :
    ∃ ab ba bc abc abc' aa, Merged a b ab ∧ Merged b a ba ∧ Merged b c bc ∧ Merged ab c abc ∧ Merged a bc abc' ∧
      Merged a a aa ∧ ∀ i < hllRegisterCnt,
        aa.denseReg i = a.denseReg i ∧ ab.denseReg i = ba.denseReg i ∧ abc.denseReg i = abc'.denseReg i := by
  obtain ⟨ab, hab, habd, habreads⟩ := hareads.merged hbreads ha hb
  obtain ⟨ba, hba, -, -⟩ := hbreads.merged hareads hb ha
  obtain ⟨bc, hbc, hbcd, hbcreads⟩ := hbreads.merged hcreads hb hc
  obtain ⟨abc, habc, -, -⟩ := habreads.merged hcreads habd hc
  obtain ⟨abc', habc', -, -⟩ := hareads.merged hbcreads ha hbcd
  obtain ⟨aa, haa, -, -⟩ := hareads.merged hareads ha ha
  exact ⟨ab, ba, bc, abc, abc', aa, hab, hba, hbc, habc, habc', haa, fun i hi => hab.lattice hba hbc habc habc' haa hi⟩

/-- An empty structure with one register set to a value that leaves the reads alone. -/
theorem setReg_readsAlone {v : UInt8} (hlow : v.toUInt32.toNat < 64)
    (hreads : ∀ i < 2, ReadsBack (Function.update (fun _ => 0) 1 v.toUInt32.toNat) i) :
    ∃ h, setReg denseInit 1 v.toUInt32 = .ok h ∧ h.DenseBlock ∧ h.ReadsAlone ∧ h.denseReg 1 = v.toUInt32.toNat := by
  obtain ⟨h, hset, hd, hreg⟩ := setReg_ok denseInit_block (show 1 < hllRegisterCnt by decide) hlow
  rw [show denseInit.denseReg = fun _ => 0 from funext denseReg_denseInit] at hreg
  refine ⟨h, hset, hd, fun i hi => ?_, ?_⟩
  · rw [hreg]
    by_cases hfirst : i < 2
    · exact hreads i hfirst
    · rw [ReadsBack, Function.update_of_ne (by omega), Function.update_of_ne (by omega)]
      exact ⟨rfl, Nat.zero_testBit _⟩
  · rw [hreg, Function.update_self]

/-- A register of `4`, one of `8` and one of `12`, merged in both orders. -/
theorem hllMerge_law_four : ∃ a b c ab bc abc abc', setReg denseInit 1 (4 : UInt8).toUInt32 = .ok a ∧
    setReg denseInit 1 (8 : UInt8).toUInt32 = .ok b ∧ setReg denseInit 1 (12 : UInt8).toUInt32 = .ok c ∧
    Merged a b ab ∧ Merged b c bc ∧ Merged ab c abc ∧ Merged a bc abc' ∧ ab.denseReg 1 = 8 ∧ abc.denseReg 1 = 12 ∧
    abc'.denseReg 1 = 12 := by
  obtain ⟨a, hset, ha, hareads, hone⟩ := setReg_readsAlone (v := 4) (by decide) (by decide)
  obtain ⟨b, hset', hb, hbreads, htwo⟩ := setReg_readsAlone (v := 8) (by decide) (by decide)
  obtain ⟨c, hset'', hc, hcreads, hthree⟩ := setReg_readsAlone (v := 12) (by decide) (by decide)
  obtain ⟨ab, _, bc, abc, abc', _, hab, -, hbc, habc, habc', -, hlaws⟩ := hllMerge_law ha hb hc hareads hbreads hcreads
  have hreg : ab.denseReg 1 = 8 := by
    rw [hab.registers 1 (by decide), hone, htwo]
    rfl
  have hreg' : abc.denseReg 1 = 12 := by
    rw [habc.registers 1 (by decide), hreg, hthree]
    rfl
  have hother : abc'.denseReg 1 = 12 := (hlaws 1 (by decide)).2.2.symm.trans hreg'
  exact ⟨a, b, c, ab, bc, abc, abc', hset, hset', hset'', hab, hbc, habc, habc', hreg, hreg', hother⟩

/-- Register 1 holds `3`. It is seen in the registers 0 and 1, and what is left over is laid over register 2. -/
theorem hllMerge_spills : ∃ src h, setReg denseInit 1 (3 : UInt8).toUInt32 = .ok src ∧ denseInit.DenseBlock ∧
    src.DenseBlock ∧ src.denseReg 2 = 0 ∧ hllMerge denseInit src = .ok (h, src) ∧ h.denseReg 1 = 63 ∧
    h.denseReg 2 = 3 ∧ ¬∃ h', Merged denseInit src h' := by
  obtain ⟨src, hset, hsrc, hreg⟩ := setReg_ok denseInit_block (show 1 < hllRegisterCnt by decide)
    (show (3 : UInt8).toUInt32.toNat < 64 by decide)
  obtain ⟨h, hrun, -, hmerging, -⟩ := hllMerge_ok denseInit_block hsrc
  have hregs : ∀ i < hllRegisterCnt, h.denseReg i = mergedByte denseInit.denseReg src.denseReg i % 64 := by
    intro i hi
    rw [hmerging, merging, if_pos hi]
  have hzero : denseInit.denseReg = fun _ => 0 := funext denseReg_denseInit
  rw [hzero] at hreg
  have hbytes : mergedByte (fun _ => 0) (Function.update (fun _ => 0) 1 3) 1 % 64 = 63 ∧
      mergedByte (fun _ => 0) (Function.update (fun _ => 0) 1 3) 2 % 64 = 3 := by decide
  have hone := hregs 1 (by decide)
  have htwo := hregs 2 (by decide)
  rw [hzero, hreg] at hone htwo
  refine ⟨src, h, hset, denseInit_block, hsrc, by rw [hreg]; rfl, hrun, hone.trans hbytes.1, htwo.trans hbytes.2, ?_⟩
  rintro ⟨h', hmerged⟩
  cases hrun.symm.trans hmerged.run
  have hmax := hmerged.registers 2 (by decide)
  rw [hzero, hreg, htwo.trans hbytes.2] at hmax
  cases hmax

end Merge

end CustomRedis
