import Mathlib.Data.Nat.Bitwise
import Mathlib.Data.Nat.Size
import CustomRedis.Proof.Densify

/-!
# Which registers a HyperLogLog holds

The register of a string is given by the top bits of its hash, its rank by the leading zeros behind them, and a
register is to hold the largest rank that was added to it. The additions that keep this are told apart by the state
they meet: the encodings lose a register where a flag is miscounted and where a register is read with its neighbour's
bits.
-/

namespace CustomRedis

open Run (run ok_bind ok_of_bind exists_ok_of_check)
open RunLength

/-! ### The registers of a set of strings -/

def registerOf (s : Bytes) : Nat := (strHash s).toNat / 2 ^ 50

/-- One more than the leading zeros of the last 50 bits of the hash. -/
def rankOf (s : Bytes) : Nat := 1 + (50 - Nat.size ((strHash s).toNat % 2 ^ 50))

/-- The largest rank of the strings of a register. -/
def maxRank (ss : List Bytes) (i : Nat) : Nat := ((ss.filter fun s => registerOf s = i).map rankOf).foldr max 0

theorem registerOf_lt (s : Bytes) : registerOf s < hllRegisterCnt := by
  have hlt := (strHash s).toNat_lt
  unfold registerOf hllRegisterCnt
  omega

theorem rankOf_pos (s : Bytes) : 1 ≤ rankOf s := Nat.le_add_right 1 _

theorem rankOf_le (s : Bytes) : rankOf s ≤ 51 := by
  unfold rankOf
  omega

theorem foldr_max_eq (xs : List Nat) (a : Nat) : xs.foldr max a = max (xs.foldr max 0) a := by
  induction xs with
  | nil => exact (Nat.zero_max a).symm
  | cons x xs ih => rw [List.foldr_cons, List.foldr_cons, ih, Nat.max_assoc]

theorem maxRank_concat (ss : List Bytes) (s : Bytes) (i : Nat) :
    maxRank (ss ++ [s]) i = if registerOf s = i then max (maxRank ss i) (rankOf s) else maxRank ss i := by
  unfold maxRank
  by_cases hi : registerOf s = i
  · rw [if_pos hi, List.filter_append, List.filter_cons_of_pos (by simpa using hi), List.filter_nil, List.map_append,
      List.foldr_append, foldr_max_eq, List.map_singleton, List.foldr_cons, List.foldr_nil, Nat.max_zero]
  · rw [if_neg hi, List.filter_append, List.filter_cons_of_neg (by simpa using hi), List.filter_nil, List.append_nil]

/-! ### The hash -/

theorem highBit_ne_zero_iff (e : UInt64) : e &&& 0x8000000000000000 ≠ 0 ↔ 2 ^ 63 ≤ e.toNat := by
  have hlt := e.toNat_lt
  have hbit : (e &&& 0x8000000000000000).toNat = (e.toNat.testBit 63).toNat * 2 ^ 63 := by
    rw [UInt64.toNat_and]
    exact Nat.and_two_pow e.toNat 63
  have hzero : e &&& 0x8000000000000000 ≠ 0 ↔ (e &&& 0x8000000000000000).toNat ≠ 0 := by
    rw [ne_eq, ne_eq, ← UInt64.toNat_inj]
    rfl
  rw [hzero, hbit, Nat.testBit_eq_decide_div_mod_eq]
  by_cases hle : 2 ^ 63 ≤ e.toNat
  · rw [decide_eq_true (by omega)]
    exact iff_of_true (by decide) hle
  · rw [decide_eq_false (by omega)]
    exact iff_of_false (by decide) hle

theorem toNat_shiftLeft_of_lt {e k : UInt64} (hk : k.toNat < 64) : (e <<< k).toNat = e.toNat * 2 ^ k.toNat % 2 ^ 64 := by
  rw [UInt64.toNat_shiftLeft, Nat.mod_eq_of_lt hk, Nat.shiftLeft_eq]

/-- The loop over the bits of the hash. The `n` bits that are left stand at the top of the word. -/
theorem countZeroes_eq {n w : Nat} (hn : n ≤ 64) (hw : w < 2 ^ n) {e : UInt64} (he : e.toNat = w * 2 ^ (64 - n)) (z : Nat) :
    countZeroes n e z = z + (n - Nat.size w) := by
  induction n generalizing w e z with
  | zero => rw [countZeroes, Nat.zero_sub, Nat.add_zero]
  | succ n ih =>
    have hpow : 2 ^ (64 - n) = 2 * 2 ^ (64 - (n + 1)) := by
      rw [← Nat.pow_succ']
      congr 1
      omega
    have htop : 2 ^ n * 2 ^ (64 - (n + 1)) = 2 ^ 63 := by
      rw [← Nat.pow_add]
      congr 1
      omega
    have hiff : 2 ^ 63 ≤ e.toNat ↔ 2 ^ n ≤ w := by
      rw [he, ← htop]
      exact Nat.mul_le_mul_right_iff (Nat.two_pow_pos _)
    rw [countZeroes]
    by_cases hbit : 2 ^ n ≤ w
    · have hsize : Nat.size w = n + 1 := Nat.le_antisymm (Nat.size_le.mpr hw) (Nat.lt_size.mpr hbit)
      rw [if_pos ((highBit_ne_zero_iff e).mpr (hiff.mpr hbit)), hsize, Nat.sub_self, Nat.add_zero]
    · have hlt : w < 2 ^ n := Nat.lt_of_not_le hbit
      have hshift : (e <<< 1).toNat = w * 2 ^ (64 - n) := by
        have hsmall : ¬2 ^ 63 ≤ e.toNat := fun hle => hbit (hiff.mp hle)
        have hdouble : (e <<< 1).toNat = e.toNat * 2 % 2 ^ 64 := toNat_shiftLeft_of_lt (by decide)
        rw [hdouble, Nat.mod_eq_of_lt (by omega), he, hpow, Nat.mul_assoc, Nat.mul_comm _ 2]
      rw [if_neg (fun htest => hbit (hiff.mp ((highBit_ne_zero_iff e).mp htest))), ih (by omega) hlt hshift]
      have hsize : Nat.size w ≤ n := Nat.size_le.mpr hlt
      omega

theorem countZeroes_hash (s : Bytes) : countZeroes 50 (strHash s <<< 14) 1 = rankOf s := by
  refine countZeroes_eq (by decide) (Nat.mod_lt _ (Nat.two_pow_pos 50)) ?_ 1
  rw [toNat_shiftLeft_of_lt (by decide)]
  show (strHash s).toNat * 2 ^ 14 % 2 ^ 64 = _
  omega

theorem shift_hash (s : Bytes) : (strHash s >>> 50).toNat = registerOf s := by
  rw [UInt64.toNat_shiftRight, Nat.shiftRight_eq_div_pow]
  rfl

/-! ### One addition -/

structure HllAdd where
  junk : Nat → UInt8
  val : Bytes

/-- The value of a register, in whichever encoding the structure is. -/
def Hll.register (h : Hll) (i : Nat) : Nat :=
  if h.enc = some hllDense then h.denseReg i else (expand (flagsOf h.payload)).getD i 0

/-- The condition under which an addition changes the register that it should change and no other. -/
def AddOk (h : Hll) (e : HllAdd) : Prop :=
  if h.enc = some hllDense then
    h.register (registerOf e.val) < rankOf e.val → ReadsBack h.register (registerOf e.val)
  else if 32 < rankOf e.val then
    (flagsOf h.payload).countP (fun b => b.value ≠ 0) ≤ 1 ∧
      (h.register (registerOf e.val) < rankOf e.val → ReadsBack h.register (registerOf e.val))
  else ∀ l, locate (flagsOf h.payload) (registerOf e.val) = some l → Writable l (rankOf e.val)

instance (l : Located Nat) (v : Nat) : Decidable (Writable l v) := by
  delta Writable
  infer_instance

instance decidableForallSome {α : Type} (o : Option α) (p : α → Prop) [DecidablePred p] :
    Decidable (∀ a, o = some a → p a) :=
  match o with
  | none => isTrue nofun
  | some a => decidable_of_iff (p a) ⟨fun h _ heq => Option.some.inj heq ▸ h, fun h => h a rfl⟩

instance (h : Hll) (e : HllAdd) : Decidable (AddOk h e) := by
  delta AddOk
  infer_instance

/-- One of the two encodings. -/
def Hll.Formed (h : Hll) : Prop := h.DenseBlock ∨ ∃ bs, h.Codes bs

theorem Hll.DenseBlock.register {h : Hll} (hd : h.DenseBlock) : h.register = h.denseReg := by
  funext i
  exact if_pos hd.dense.enc

theorem Hll.Codes.flags {h : Hll} {bs : List (Block Nat)} (hc : h.Codes bs) : flagsOf h.payload = bs := by
  rw [hc.payload, flagsOf_encode hc.coded]

theorem Hll.Codes.enc_ne {h : Hll} {bs : List (Block Nat)} (hc : h.Codes bs) : h.enc ≠ some hllDense := by
  rw [hc.enc]
  decide

theorem Hll.Codes.register {h : Hll} {bs : List (Block Nat)} (hc : h.Codes bs) (i : Nat) :
    h.register i = (expand bs).getD i 0 := by
  rw [Hll.register, if_neg hc.enc_ne, hc.flags]

/-- What an addition does to the registers. -/
structure Raised (h : Hll) (i v : Nat) (h' : Hll) : Prop where
  formed : h'.Formed
  registers : ∀ j, h'.register j = if j = i then max (h.register i) v else h.register j

/-- Behind the addition nothing is converted any more. -/
theorem hllAdd_of {junk : Nat → UInt8} {h h' : Hll} {s : Bytes} {b : UInt8} {ret : Nat} (henc : h.enc = some b)
    (hadd : (if b = hllDense then addDense h (registerOf s) (UInt8.ofNat (rankOf s))
      else addSparse junk h (registerOf s) (UInt8.ofNat (rankOf s))) = .ok (h', ret)) (hformed : h'.Formed) :
    hllAdd junk h s = .ok (h', ret) := by
  rw [hllAdd]
  dsimp only
  rw [countZeroes_hash, shift_hash, getEnc_ok henc, ok_bind]
  have hlast : (do
      let enc ← getEnc h'
      if enc = hllSparse ∧ h'.size > hllSparseMaxBytes then do
        let hll ← densify h'
        .ok (hll, ret)
      else .ok (h', ret) : M (Hll × Nat)) = .ok (h', ret) := by
    rcases hformed with hd | ⟨bs, hc⟩
    · rw [getEnc_ok hd.dense.enc, ok_bind]
      exact if_neg fun hboth => absurd hboth.1 (by decide)
    · rw [getEnc_ok hc.enc, ok_bind]
      have hbound := hc.size_bound
      exact if_neg fun hboth => absurd hboth.2 (by omega)
  by_cases hb : b = hllDense
  · rw [if_pos hb] at hadd ⊢
    rw [hadd, ok_bind]
    exact hlast
  · rw [if_neg hb] at hadd ⊢
    rw [hadd, ok_bind]
    exact hlast

theorem hllAdd_raises {h : Hll} (hf : h.Formed) {e : HllAdd} (hok : AddOk h e) :
    ∃ h', hllAdd e.junk h e.val = .ok (h', if h.register (registerOf e.val) < rankOf e.val then 1 else 0) ∧
      Raised h (registerOf e.val) (rankOf e.val) h' := by
  have hi := registerOf_lt e.val
  have hpos := rankOf_pos e.val
  have hle := rankOf_le e.val
  unfold AddOk at hok
  rcases hf with hd | ⟨bs, hc⟩
  · rw [if_pos hd.dense.enc, hd.register] at hok
    obtain ⟨h', hadd, hd', hreg⟩ := addDense_ok hd hi (by omega) hok
    refine ⟨h', ?_, .inl hd', ?_⟩
    · rw [hd.register]
      exact hllAdd_of hd.dense.enc hadd (.inl hd')
    · rw [hd.register, hd'.register]
      exact hreg
  · rw [if_neg hc.enc_ne, hc.flags] at hok
    by_cases hlarge : 32 < rankOf e.val
    · rw [if_pos hlarge] at hok
      obtain ⟨hone, hreads⟩ := hok
      obtain ⟨d, hdensify, hd, hreg⟩ := densify_ok hc hone
      have hsame : d.denseReg = h.register := by
        funext j
        rw [hreg, hc.register]
      rw [← hsame] at hreads
      obtain ⟨h', hadd, hd', hreg'⟩ := addDense_ok hd hi (by omega) hreads
      have hval : UInt8.ofNat (rankOf e.val) > 32 ∨ h.size + 5 > hllSparseMaxBytes := by
        left
        rw [gt_iff_lt, UInt8.lt_iff_toNat_lt, UInt8.toNat_ofNat_of_lt' (show rankOf e.val < 256 by omega)]
        exact hlarge
      refine ⟨h', ?_, .inl hd', ?_⟩
      · refine hllAdd_of hc.enc ?_ (.inl hd')
        rw [if_neg (by decide), addSparse, if_pos hval, hdensify, ok_bind, hadd, hsame]
      · rw [hd'.register, ← hsame]
        exact hreg'
    · rw [if_neg hlarge] at hok
      have hwithin : registerOf e.val < width bs := hc.width ▸ hi
      obtain ⟨l, hloc⟩ := exists_locate hwithin
      obtain ⟨h', hadd, hc'⟩ := addSparse_codes hc hloc hpos (Nat.le_of_not_lt hlarge) (hok l hloc) e.junk
      have hold : h.register (registerOf e.val) = l.block.value := by
        rw [hc.register, List.getD_eq_getElem?_getD, getElem?_expand hloc, Option.getD_some]
      refine ⟨h', ?_, .inr ⟨_, hc'⟩, fun j => ?_⟩
      · rw [hold]
        refine hllAdd_of hc.enc ?_ (.inr ⟨_, hc'⟩)
        rw [if_neg (by decide), hadd]
      · rw [hc'.register, hold]
        by_cases hlt : l.block.value < rankOf e.val
        · have hlen : registerOf e.val < (expand bs).length := by
            rw [length_expand, hc.width]
            exact hi
          rw [if_pos hlt, expand_write hloc, getD_set hlen, Nat.max_eq_right (Nat.le_of_lt hlt), hc.register]
          simp only [eq_comm]
        · rw [if_neg hlt, Nat.max_eq_left (Nat.le_of_not_lt hlt), ← hold, hc.register, hc.register]
          split
          · next heq => rw [heq]
          · rfl

/-! ### Runs -/

def hllAddStep (h : Hll) (e : HllAdd) : M Hll := do
  let (h, _) ← hllAdd e.junk h e.val
  .ok h

theorem hllInit_codes : hllInit.Codes [⟨0, hllRegisterCnt⟩] := by
  refine ⟨rfl, ?_, by decide, by decide, ?_, .singleton _, rfl⟩
  · exact ⟨by decide, by decide, by decide, by decide, by decide, .inl (by decide)⟩
  · intro b hb
    cases List.mem_singleton.mp hb
    exact .xzero (by decide) (by decide)

theorem hllAddStep_ok {h h' : Hll} {e : HllAdd} {ret : Nat} (hadd : hllAdd e.junk h e.val = .ok (h', ret)) :
    hllAddStep h e = .ok h' := by
  rw [hllAddStep, hadd, ok_bind]

/-- A run whose additions all meet the condition returns and leaves the registers of the strings that were added. -/
theorem hll_run_registers {es : List HllAdd} (hok : Run.Along hllAddStep AddOk hllInit es) :
    ∃ h, run hllAddStep hllInit es = .ok h ∧ h.Formed ∧
      ∀ i < hllRegisterCnt, h.register i = maxRank (es.map HllAdd.val) i := by
  induction es using List.reverseRecOn with
  | nil =>
    refine ⟨hllInit, rfl, .inr ⟨_, hllInit_codes⟩, fun i _ => ?_⟩
    rw [hllInit_codes.register]
    exact getD_expand_zeros (by simp) i
  | append_singleton es e ih =>
    obtain ⟨hpre, hlast⟩ := Run.along_append hok
    obtain ⟨h, hrun, hf, hreg⟩ := ih hpre
    obtain ⟨h', hadd, hraised⟩ := hllAdd_raises hf (hlast h hrun).1
    refine ⟨h', ?_, hraised.formed, fun i hi => ?_⟩
    · rw [Run.run_append hrun, Run.run_cons_ok (hllAddStep_ok hadd)]
      rfl
    · rw [hraised.registers, List.map_append, List.map_singleton, maxRank_concat, hreg _ (registerOf_lt e.val), hreg i hi]
      by_cases heq : i = registerOf e.val
      · rw [if_pos heq, if_pos heq.symm, heq]
      · rw [if_neg heq, if_neg (Ne.symm heq)]

/-- In a run whose additions all meet the condition, every register holds the largest rank of the strings added to it,
and an addition returns 1 exactly if it raises a register. -/
theorem hll_registers_refine (es : List HllAdd) (hok : Run.Along hllAddStep AddOk hllInit es) :
    (∃ h, run hllAddStep hllInit es = .ok h ∧
      ∀ i < hllRegisterCnt, h.register i = maxRank (es.map HllAdd.val) i) ∧
    ∀ pre e post, es = pre ++ e :: post → ∃ h h' ret, run hllAddStep hllInit pre = .ok h ∧
      hllAdd e.junk h e.val = .ok (h', ret) ∧ ret ≤ 1 ∧
      (ret = 1 ↔ ∃ i < hllRegisterCnt, h.register i < h'.register i) := by
  constructor
  · obtain ⟨h, hrun, -, hreg⟩ := hll_run_registers hok
    exact ⟨h, hrun, hreg⟩
  · rintro pre e post rfl
    obtain ⟨hpre, hlast⟩ := Run.along_append hok
    obtain ⟨h, hrun, hf, -⟩ := hll_run_registers hpre
    obtain ⟨h', hadd, hraised⟩ := hllAdd_raises hf (hlast h hrun).1
    refine ⟨h, h', _, hrun, hadd, ?_, ?_⟩
    · split
      · exact Nat.le_refl 1
      · exact Nat.zero_le 1
    · by_cases hlt : h.register (registerOf e.val) < rankOf e.val
      · rw [if_pos hlt]
        refine iff_of_true rfl ⟨registerOf e.val, registerOf_lt e.val, ?_⟩
        rw [hraised.registers, if_pos rfl]
        omega
      · rw [if_neg hlt]
        refine iff_of_false (by decide) ?_
        rintro ⟨i, -, hi⟩
        rw [hraised.registers, Nat.max_eq_left (Nat.le_of_not_lt hlt)] at hi
        split at hi
        · next heq => exact Nat.lt_irrefl _ (heq ▸ hi)
        · exact Nat.lt_irrefl _ hi

theorem hll_registers_two_strings :
    ∃ h, run hllAddStep hllInit [⟨fun _ => 0, text "a"⟩, ⟨fun _ => 0, text "b"⟩] = .ok h ∧
      ∀ i < hllRegisterCnt, h.register i = maxRank [text "a", text "b"] i :=
  (hll_registers_refine [⟨fun _ => 0, text "a"⟩, ⟨fun _ => 0, text "b"⟩] (by decide +kernel)).1

/-- Two strings of one register, of rank 1 and of rank 2: the second one is lost. -/
theorem hll_rank_lost :
    ∃ h h', run hllAddStep hllInit [⟨fun _ => 0, text "hn"⟩] = .ok h ∧ hllAdd (fun _ => 0) h (text "iq") = .ok (h', 0) ∧
      run hllAddStep hllInit [⟨fun _ => 0, text "hn"⟩, ⟨fun _ => 0, text "iq"⟩] = .ok h' ∧
      7446 < hllRegisterCnt ∧ h'.register 7446 = 1 ∧ maxRank [text "hn", text "iq"] 7446 = 2 := by
  obtain ⟨h, hrun, hcheck⟩ := exists_ok_of_check (x := run hllAddStep hllInit [⟨fun _ => 0, text "hn"⟩])
    (p := fun h => Run.check (hllAdd (fun _ => 0) h (text "iq")) fun res => decide (res.2 = 0 ∧
      res.1.enc ≠ some hllDense ∧ (locate (flagsOf res.1.payload) 7446).map (fun l => l.block.value) = some 1))
    (by decide +kernel)
  obtain ⟨⟨h', ret⟩, hadd, hcheck⟩ := exists_ok_of_check hcheck
  obtain ⟨hret, henc, hloc⟩ := of_decide_eq_true hcheck
  dsimp only at hret henc hloc
  subst hret
  obtain ⟨l, hloc, hvalue⟩ := Option.map_eq_some_iff.mp hloc
  have hstep : hllAddStep h ⟨fun _ => 0, text "iq"⟩ = .ok h' := by
    rw [hllAddStep, hadd, ok_bind]
  refine ⟨h, h', hrun, hadd, ?_, by decide, ?_, by decide +kernel⟩
  · rw [← List.singleton_append, Run.run_append hrun, Run.run_cons_ok hstep]
    rfl
  · rw [Hll.register, if_neg henc, List.getD_eq_getElem?_getD, getElem?_expand hloc, Option.getD_some, hvalue]

end CustomRedis
