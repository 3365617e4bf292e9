import CustomRedis.Proof.SparseForm

/-!
# The readers of a sparse structure

`estimate_cnt_s` and `cnt_zero_regs` go through the flags of a sparse structure as `add_sparse` does. The first one cuts
the bytes where they were put together, and its sum is the sum over the registers. The second one takes every `ZERO`
flag but that of a single register for the first byte of an `XZERO` flag. It then counts too many registers and swallows
the byte behind the flag.
-/

namespace CustomRedis

open Run (ok_bind)
open RunLength

/-! ### What the flags denote -/

/-- The value of the registers of a flag. -/
def readValue (f : Block Bytes) : Nat := if isVal (headOf f) then (valValue (headOf f)).toNat else 0

/-- The registers of a flag. -/
abbrev runOf : Block Bytes → Block Nat := Block.withValue readValue

/-- The registers that the flags of a sparse structure denote. -/
def Hll.denoted (h : Hll) : List Nat := expand (flagsOf h.payload)

/-- The structure without the bytes that are allocated behind it. -/
def Hll.cut (h : Hll) : Hll := { h with mem := h.mem.take h.size }

theorem flagsOf_bytesOf {fs : List (Block Bytes)} (h : ∀ f ∈ fs, IsFlag f) : flagsOf (bytesOf fs) = fs.map runOf := by
  induction fs with
  | nil => rfl
  | cons f fs ih =>
    have hrest := ih fun g hg => h g (List.mem_cons_of_mem f hg)
    rw [List.map_cons, ← hrest, bytesOf_cons]
    cases h f List.mem_cons_self with
    | @val flag hval =>
      rw [List.singleton_append, flagsOf_cons, if_pos hval, runOf, Block.withValue, readValue, headOf_mk, if_pos hval]
    | @zero flag hzero =>
      have hval := Bool.eq_false_iff.mp (isVal_of_isZero hzero)
      rw [List.singleton_append, flagsOf_cons, if_neg hval, if_pos hzero, runOf, Block.withValue, readValue, headOf_mk,
        if_neg hval]
    | @xzero flag hval hzero lsb =>
      rw [List.cons_append, List.singleton_append, flagsOf_cons, if_neg (Bool.eq_false_iff.mp hval),
        if_neg (Bool.eq_false_iff.mp hzero), runOf, Block.withValue, readValue, headOf_mk,
        if_neg (Bool.eq_false_iff.mp hval)]

section Readers

variable {h : Hll} {fs : List (Block Bytes)}

theorem Hll.SparseForm.runs (hf : h.SparseForm fs) : flagsOf h.payload = fs.map runOf := by
  rw [hf.payload, flagsOf_bytesOf hf.flags]

theorem Hll.SparseForm.denoted (hf : h.SparseForm fs) : h.denoted = expand (fs.map runOf) := by
  rw [Hll.denoted, hf.runs]

theorem Hll.SparseForm.length_denoted (hf : h.SparseForm fs) : h.denoted.length = hllRegisterCnt := by
  rw [hf.denoted, length_expand, width_withValue, hf.width]

theorem Hll.cut_payload (h : Hll) : h.cut.payload = h.payload :=
  Hll.payload_congr rfl fun _ _ hi => List.getElem?_take_of_lt hi

theorem Hll.cut_denoted (h : Hll) : h.cut.denoted = h.denoted := by
  rw [Hll.denoted, Hll.denoted, h.cut_payload]

theorem Hll.SparseForm.cut (hf : h.SparseForm fs) : h.cut.SparseForm fs := by
  obtain ⟨hsize, -⟩ := hf.size
  have henc : h.cut.enc = h.enc := List.getElem?_take_of_lt (by omega)
  refine ⟨henc.trans hf.enc, ?_, ?_, hf.width⟩
  · show h.size ≤ (h.mem.take h.size).length
    rw [List.length_take, Nat.min_eq_left hf.alloc]
  · rw [h.cut_payload]
    exact hf.parse

/-- A new block with flags in it. -/
def sparseOf (flags : Bytes) : Hll := ⟨hllHeader hllSparse ++ (flags ++ [0]), hllHeaderSizeBytes + flags.length, 0⟩

theorem sparseOf_form {flags : Bytes} (hparse : parseFlags flags = some fs) (hwidth : width fs = hllRegisterCnt) :
    (sparseOf flags).SparseForm fs := by
  refine ⟨rfl, ?_, ?_, hwidth⟩
  · show hllHeaderSizeBytes + flags.length ≤ (hllHeader hllSparse ++ (flags ++ [0])).length
    rw [List.length_append, List.length_append]
    exact Nat.add_le_add_left (Nat.le_add_right _ _) _
  · have hpayload : (sparseOf flags).payload = flags :=
      Hll.payload_of_mem (show (sparseOf flags).mem = hllHeader hllSparse ++ (flags ++ [0]) from rfl) rfl rfl
    rw [hpayload, hparse]

/-- A reader that starts at the first flag. -/
theorem Hll.SparseForm.walk (hf : h.SparseForm fs) {β γ : Type} (loop : Nat → Nat → β → M γ) (step : β → Block Bytes → M β)
    (last : β → γ) (hlast : ∀ fuel s, loop (fuel + 1) h.size s = .ok (last s))
    (hround : ∀ f ∈ fs, ∀ {rest : Bytes} {fuel p : Nat} {s : β}, h.mem.drop p = f.value ++ rest → p < h.size →
      loop (fuel + 1) p s = step s f >>= loop fuel (p + f.value.length)) (s : β) :
    loop (h.size + 1) hllHeaderSizeBytes s = fs.foldlM step s >>= fun s' => .ok (last s') := by
  have hlen := length_le_bytesOf hf.flags
  have hsize := hf.size.1
  exact walk_flags loop step last hlast hf.flags hround hf.drop_mem hsize (by omega) s

/-- Terms that are added one after the other. -/
theorem foldlM_add {α β : Type} [AddMonoid β] (w : α → β) (l : List α) (s : β) :
    l.foldlM (fun s a => (.ok (s + w a) : M β)) s = .ok (s + (l.map w).sum) := by
  induction l generalizing s with
  | nil => rw [List.map_nil, List.sum_nil, add_zero]; rfl
  | cons a l ih => rw [List.foldlM_cons, ok_bind, ih, List.map_cons, List.sum_cons, add_assoc]

/-! ### The sum of the estimate -/

theorem estimateSumAux_round {f : Block Bytes} (hf : IsFlag f) {rest : Bytes} {fuel p : Nat} {sum : ℚ}
    (hmem : h.mem.drop p = f.value ++ rest) (hsize : p < h.size) :
    estimateSumAux (fuel + 1) h p sum =
      estimateSumAux fuel h (p + f.value.length) (sum + f.cnt • (2 : ℚ) ^ (-(readValue f : ℤ))) := by
  rw [estimateSumAux, if_pos hsize, nsmul_eq_mul, zpow_neg, zpow_natCast, mul_comm, ← one_div]
  cases hf with
  | @val flag hval =>
    rw [Hll.get_of_drop hmem, ok_bind, if_pos hval, readValue, headOf_mk, if_pos hval]
    rfl
  | @zero flag hzero =>
    have hval := Bool.eq_false_iff.mp (isVal_of_isZero hzero)
    rw [Hll.get_of_drop hmem, ok_bind, if_neg hval, if_pos hzero, readValue, headOf_mk, if_neg hval, pow_zero, div_one]
    rfl
  | @xzero flag hval hzero lsb =>
    have hlsb : h.mem.drop (p + 1) = lsb :: rest := by
      rw [← List.drop_drop, hmem]
      rfl
    rw [Hll.get_of_drop hmem, ok_bind, if_neg (Bool.eq_false_iff.mp hval), if_neg (Bool.eq_false_iff.mp hzero),
      Hll.get_of_drop hlsb, ok_bind, readValue, headOf_mk, if_neg (Bool.eq_false_iff.mp hval), pow_zero, div_one]
    rfl

theorem sum_range_getD {β : Type} [AddCommMonoid β] (g : Nat → β) (l : List Nat) :
    ∑ i ∈ Finset.range l.length, g (l.getD i 0) = (l.map g).sum := by
  induction l with
  | nil => rfl
  | cons a l ih =>
    rw [List.length_cons, Finset.sum_range_succ', List.map_cons, List.sum_cons, ← ih, add_comm]
    rfl

theorem Hll.SparseForm.estimateSum (hf : h.SparseForm fs) :
    estimateSum h = .ok (∑ i ∈ Finset.range hllRegisterCnt, (2 : ℚ) ^ (-(h.denoted.getD i 0 : ℤ))) := by
  have hwalk := hf.walk (fun fuel => estimateSumAux fuel h)
    (fun sum f => .ok (sum + f.cnt • (2 : ℚ) ^ (-(readValue f : ℤ)))) id
    (fun fuel sum => by rw [estimateSumAux, if_neg (Nat.lt_irrefl _), id_eq])
    (fun f hmem => estimateSumAux_round (hf.flags f hmem)) 0
  have hsum := sum_range_getD (fun r => (2 : ℚ) ^ (-(r : ℤ))) h.denoted
  rw [hf.length_denoted, hf.denoted, sum_map_expand, List.map_map, ← hf.denoted] at hsum
  rw [CustomRedis.estimateSum, hwalk, foldlM_add, ok_bind, zero_add, hsum]
  rfl

/-- The sum behind the estimate is the sum over the registers, and it is found in the bytes of the structure alone. -/
theorem estimateSum_exact (hwf : h.WellFormed) :
    h.denoted.length = hllRegisterCnt ∧
      estimateSum h = .ok (∑ i ∈ Finset.range hllRegisterCnt, (2 : ℚ) ^ (-(h.denoted.getD i 0 : ℤ))) ∧
      estimateSum h.cut = .ok (∑ i ∈ Finset.range hllRegisterCnt, (2 : ℚ) ^ (-(h.denoted.getD i 0 : ℤ))) := by
  obtain ⟨fs, hf⟩ := hwf
  refine ⟨hf.length_denoted, hf.estimateSum, ?_⟩
  have hcut := hf.cut.estimateSum
  rwa [Hll.cut_denoted] at hcut

/-- Four registers of `1`, and zeros. -/
theorem estimateSum_exact_ones : estimateSum (sparseOf [131, 127, 251]) = .ok 16382 ∧
    estimateSum (sparseOf [131, 127, 251]).cut = .ok 16382 := by
  have hform : (sparseOf [131, 127, 251]).SparseForm [⟨[131], 4⟩, ⟨[127, 251], 16380⟩] := sparseOf_form rfl rfl
  obtain ⟨hlen, hsum, hcut⟩ := estimateSum_exact ⟨_, hform⟩
  have hvalue := sum_range_getD (fun r => (2 : ℚ) ^ (-(r : ℤ))) (sparseOf [131, 127, 251]).denoted
  rw [hlen, hform.denoted, sum_map_expand, List.map_map, ← hform.denoted] at hvalue
  have hterms : ([⟨[131], 4⟩, ⟨[127, 251], 16380⟩].map
      ((fun b => b.cnt • (2 : ℚ) ^ (-(b.value : ℤ))) ∘ runOf)).sum = 16382 := by
    have hvalues : readValue ⟨[131], 4⟩ = 1 ∧ readValue ⟨[127, 251], 16380⟩ = 0 := by decide
    simp only [List.map_cons, List.map_nil, List.sum_cons, List.sum_nil, Function.comp_apply, Block.withValue, hvalues]
    norm_num
  rw [hvalue, hterms] at hsum hcut
  exact ⟨hsum, hcut⟩

/-! ### The number of zero registers -/

/-- The registers of a flag that are zero. -/
def zerosOf (f : Block Bytes) : Nat := if isVal (headOf f) then 0 else f.cnt

/-- A `ZERO` flag that is taken for the first byte of an `XZERO` flag. -/
def Misread (f : Block Bytes) : Prop := isZero (headOf f) = true ∧ f.cnt ≠ 1

instance : DecidablePred Misread := fun f => inferInstanceAs (Decidable (isZero (headOf f) = true ∧ f.cnt ≠ 1))

/-- The byte that a flag swallows is a flag of its own. -/
def SwallowsWhole (f g : Block Bytes) : Prop := Misread f → isVal (headOf g) = true ∨ isZero (headOf g) = true

/-- The zero registers are counted, and they are found in the bytes of the structure alone. -/
def CountsZeros (h : Hll) : Prop :=
  cntZeroRegs h = .ok (h.denoted.count 0) ∧ cntZeroRegs h.cut = .ok (h.denoted.count 0)

theorem readValue_eq_zero (f : Block Bytes) : readValue f = 0 ↔ isVal (headOf f) = false := by
  have hall : ∀ flag : Fin 256, (valValue (UInt8.ofFin flag)).toNat ≠ 0 := by decide +kernel
  rw [readValue]
  split
  · next hval =>
    rw [hval]
    exact iff_of_false (hall (headOf f).toFin) Bool.noConfusion
  · next hval => exact iff_of_true rfl (Bool.eq_false_iff.mpr hval)

theorem Hll.SparseForm.count_zero (hf : h.SparseForm fs) : h.denoted.count 0 = (fs.map zerosOf).sum := by
  rw [hf.denoted, count_expand, List.map_map]
  congr 2
  funext f
  show (if readValue f = 0 then f.cnt else 0) = zerosOf f
  rw [zerosOf]
  cases hval : isVal (headOf f) with
  | true => rw [if_neg ((readValue_eq_zero f).not.mpr (by rw [hval]; exact Bool.noConfusion)), if_pos rfl]
  | false => rw [if_pos ((readValue_eq_zero f).mpr hval), if_neg Bool.noConfusion]

theorem sum_zerosOf_le (fs : List (Block Bytes)) : (fs.map zerosOf).sum ≤ width fs := by
  induction fs with
  | nil => exact Nat.le_refl 0
  | cons f fs ih =>
    have hle : zerosOf f ≤ f.cnt := by
      rw [zerosOf]
      split
      · exact Nat.zero_le _
      · exact Nat.le_refl _
    rw [List.map_cons, List.sum_cons, width_cons]
    exact Nat.add_le_add hle ih

/-- A flag that is read as it is meant. -/
theorem cntZeroSparse_round {f : Block Bytes} (hf : IsFlag f) (hread : ¬Misread f) {rest : Bytes} {fuel p acc : Nat}
    (hmem : h.mem.drop p = f.value ++ rest) (hsize : p < h.size) :
    cntZeroSparse (fuel + 1) h p acc = cntZeroSparse fuel h (p + f.value.length)
      (if isVal (headOf f) then acc else (acc + f.cnt) % 2 ^ 32) := by
  rw [cntZeroSparse, if_pos hsize]
  cases hf with
  | @val flag hval =>
    have hne : flag ≠ 0 := by
      rintro rfl
      cases hval
    rw [Hll.get_of_drop hmem, ok_bind, if_neg hne, hval, if_neg (by decide), headOf_mk, if_pos hval]
    rfl
  | @zero flag hzero =>
    have hone : (zeroCnt flag).toNat = 1 := by
      by_contra hmany
      exact hread ⟨hzero, hmany⟩
    have heq : flag = 0 := by
      rw [(toNat_zeroCnt hzero).1] at hone
      exact UInt8.toNat_inj.mp (Nat.succ.inj hone)
    rw [Hll.get_of_drop hmem, ok_bind, if_pos heq, headOf_mk, isVal_of_isZero hzero]
    rfl
  | @xzero flag hval hzero lsb =>
    have hlsb : h.mem.drop (p + 1) = lsb :: rest := by
      rw [← List.drop_drop, hmem]
      rfl
    have hne : flag ≠ 0 := by
      rintro rfl
      cases hzero
    rw [Hll.get_of_drop hmem, ok_bind, if_neg hne, hval, if_pos (by decide), Hll.get_of_drop hlsb, ok_bind, headOf_mk, hval]
    rfl

/-- Adding the zero registers of a flag where the counter has room for them. -/
theorem add_zerosOf {f : Block Bytes} {acc : Nat} (hroom : acc + zerosOf f < 2 ^ 32) :
    (if isVal (headOf f) then acc else (acc + f.cnt) % 2 ^ 32) = acc + zerosOf f := by
  rw [zerosOf] at hroom ⊢
  split
  · rfl
  · next hval =>
    rw [if_neg hval] at hroom
    exact Nat.mod_eq_of_lt hroom

theorem foldlM_zerosOf {fs : List (Block Bytes)} {acc : Nat} (hroom : acc + (fs.map zerosOf).sum < 2 ^ 32) :
    fs.foldlM (fun acc f => (.ok (if isVal (headOf f) then acc else (acc + f.cnt) % 2 ^ 32) : M Nat)) acc =
      .ok (acc + (fs.map zerosOf).sum) := by
  induction fs generalizing acc with
  | nil => rfl
  | cons f fs ih =>
    rw [List.map_cons, List.sum_cons, ← Nat.add_assoc] at hroom ⊢
    have hstep := add_zerosOf (Nat.lt_of_le_of_lt (Nat.le_add_right _ _) hroom)
    rw [List.foldlM_cons, hstep, ok_bind, ih hroom]

theorem Hll.SparseForm.cntZeroRegs (hf : h.SparseForm fs) (hread : ∀ f ∈ fs, ¬Misread f) :
    cntZeroRegs h = .ok (h.denoted.count 0) := by
  have hwidth := hf.width
  have hle := sum_zerosOf_le fs
  have hwalk := hf.walk (fun fuel => cntZeroSparse fuel h)
    (fun acc f => .ok (if isVal (headOf f) then acc else (acc + f.cnt) % 2 ^ 32)) id
    (fun fuel acc => by rw [cntZeroSparse, if_neg (Nat.lt_irrefl _), id_eq])
    (fun f hmem => cntZeroSparse_round (hf.flags f hmem) (hread f hmem)) 0
  rw [CustomRedis.cntZeroRegs, getEnc_ok hf.enc, ok_bind, if_neg (by decide), hwalk,
    foldlM_zerosOf (by rw [hwidth, hllRegisterCnt] at hle; omega), ok_bind, Nat.zero_add, hf.count_zero]
  rfl

/-- A `ZERO` flag for more than one register swallows the byte behind it. -/
theorem cntZeroSparse_swallows {f : Block Bytes} (hf : IsFlag f) (hmis : Misread f) {rest : Bytes} {p : Nat}
    (hmem : h.mem.drop p = f.value ++ rest) (hsize : p < h.size) (fuel acc : Nat) :
    ∃ x, 0 < x ∧ x < 64 ∧ f.cnt = x + 1 ∧ f.value.length = 1 ∧ cntZeroSparse (fuel + 1) h p acc = (h.get (p + 1) >>= fun lsb =>
      cntZeroSparse fuel h (p + 2) ((acc + (x * 256 + lsb.toNat + 1)) % 2 ^ 32)) := by
  obtain ⟨hzero, hmany⟩ := hmis
  obtain ⟨hvalue, hcnt⟩ := hf.of_isZero hzero
  obtain ⟨hplus, hmask, hlow⟩ := toNat_zeroCnt hzero
  rw [hcnt, hplus] at hmany ⊢
  have hpos : 0 < (headOf f).toNat := Nat.pos_of_ne_zero fun hz => hmany (by rw [hz])
  have hne : headOf f ≠ 0 := fun heq => absurd hpos (by rw [heq]; decide)
  rw [hvalue] at hmem ⊢
  refine ⟨(headOf f).toNat, hpos, hlow, rfl, rfl, ?_⟩
  rw [cntZeroSparse, if_pos hsize, Hll.get_of_drop hmem, ok_bind, if_neg hne, isVal_of_isZero hzero, if_pos (by decide)]
  unfold xzeroCnt
  rw [hmask]

theorem zerosOf_le {f : Block Bytes} (hf : IsFlag f) : zerosOf f ≤ 16384 := by
  have hall : ∀ flag lsb : UInt8, (flag &&& 191).toNat * 256 + lsb.toNat + 1 ≤ 16384 ∨ isVal flag = true := by
    intro flag lsb
    have hmask : ∀ flag : Fin 256, (UInt8.ofFin flag &&& 191).toNat ≤ 63 ∨ isVal (UInt8.ofFin flag) = true := by
      decide +kernel
    have hlsb := lsb.toNat_lt
    rcases hmask flag.toFin with hle | hval
    · exact .inl (by change (flag &&& 191).toNat ≤ 63 at hle; omega)
    · exact .inr hval
  rw [zerosOf]
  split
  · exact Nat.zero_le _
  · next hnot =>
    cases hf with
    | val hval => exact absurd hval hnot
    | @zero flag _ => exact Nat.le_trans (Nat.le_of_lt (zeroCnt flag).toNat_lt) (by decide)
    | @xzero flag _ _ lsb => exact (hall flag lsb).resolve_right hnot

/-- A flag of one byte has no more zero registers than its byte says as a number. -/
theorem zerosOf_swallowed {g : Block Bytes} (hg : IsFlag g) (hbyte : isVal (headOf g) = true ∨ isZero (headOf g) = true) :
    g.value = [headOf g] ∧ zerosOf g ≤ (headOf g).toNat + 1 := by
  rw [zerosOf]
  rcases hbyte with hval | hzero
  · rw [if_pos hval]
    exact ⟨(hg.of_isVal hval).1, Nat.zero_le _⟩
  · obtain ⟨hvalue, hcnt⟩ := hg.of_isZero hzero
    rw [isVal_of_isZero hzero, if_neg Bool.noConfusion, hcnt, (toNat_zeroCnt hzero).1]
    exact ⟨hvalue, Nat.le_refl _⟩

/-- With every swallowed byte a flag of its own, what is counted never falls short, and it is too much behind a `ZERO`
flag for more than one register. -/
theorem cntZeroSparse_overruns {fs : List (Block Bytes)} (hfs : ∀ f ∈ fs, IsFlag f) (hwhole : fs.IsChain SwallowsWhole)
    (hend : h.mem.length = h.size) {fuel p acc n : Nat} (hmem : h.mem.drop p = bytesOf fs)
    (hsize : h.size = p + (bytesOf fs).length) (hroom : acc + 16640 * fs.length < 2 ^ 32)
    (hrun : cntZeroSparse fuel h p acc = .ok n) :
    acc + (fs.map zerosOf).sum ≤ n ∧ ((∃ f ∈ fs, Misread f) → acc + (fs.map zerosOf).sum < n) := by
  induction hk : fs.length using Nat.strong_induction_on generalizing fs fuel p acc with
  | _ k ih =>
    cases fuel with
    | zero => cases hrun
    | succ fuel =>
      cases fs with
      | nil =>
        rw [cntZeroSparse, if_neg (by rw [hsize]; exact Nat.lt_irrefl _)] at hrun
        cases hrun
        exact ⟨Nat.le_refl _, by rintro ⟨e, he, -⟩; cases he⟩
      | cons f fs =>
        obtain ⟨hf, hfs⟩ := List.forall_mem_cons.mp hfs
        have hpos := hf.length_pos
        have hle := zerosOf_le hf
        rw [bytesOf_cons] at hmem
        rw [bytesOf_cons, List.length_append] at hsize
        rw [List.length_cons] at hroom hk
        rw [List.map_cons, List.sum_cons]
        by_cases hmis : Misread f
        · obtain ⟨x, hx, hlow, hcnt, hone, hswallow⟩ := cntZeroSparse_swallows hf hmis hmem (by omega) fuel acc
          rw [hswallow] at hrun
          cases fs with
          | nil =>
            -- there is nothing left to swallow
            rw [Hll.get, List.getElem?_eq_none (by rw [hend, hsize, hone]; exact Nat.le_refl _)] at hrun
            cases hrun
          | cons g fs =>
            obtain ⟨hg, hfs⟩ := List.forall_mem_cons.mp hfs
            obtain ⟨hfg, hwhole⟩ := List.isChain_cons_cons.mp hwhole
            obtain ⟨hvalue, hgle⟩ := zerosOf_swallowed hg (hfg hmis)
            have hlsb := (headOf g).toNat_lt
            have hfzero : zerosOf f = x + 1 := by
              rw [zerosOf, isVal_of_isZero hmis.1, if_neg Bool.noConfusion, hcnt]
            rw [bytesOf_cons, hvalue] at hmem hsize
            rw [List.length_append, List.length_singleton] at hsize
            rw [List.length_cons] at hroom hk
            have hbehind := drop_add hmem
            rw [hone] at hbehind
            rw [Hll.get_of_drop hbehind, ok_bind, Nat.mod_eq_of_lt (by omega)] at hrun
            have hrest := drop_add hbehind
            obtain ⟨hsum, -⟩ := ih fs.length (by omega) hfs hwhole.tail hrest (by rw [List.length_singleton]; omega)
              (by omega) hrun rfl
            rw [List.map_cons, List.sum_cons]
            exact ⟨by omega, fun _ => by omega⟩
        · rw [cntZeroSparse_round hf hmis hmem (by omega), add_zerosOf (by omega)] at hrun
          obtain ⟨hsum, hmore⟩ := ih fs.length (by omega) hfs hwhole.tail (drop_add hmem) (by omega)
            (by omega) hrun rfl
          refine ⟨by omega, ?_⟩
          rintro ⟨e, he, hemis⟩
          rcases List.mem_cons.mp he with rfl | he
          · exact absurd hemis hmis
          · have hlt := hmore ⟨e, he, hemis⟩
            omega

/-- The zero registers are counted where every `ZERO` flag is for a single register, and elsewhere they are not if the
bytes that the other ones swallow are flags of their own. -/
theorem cntZeroRegs_counts (hf : h.SparseForm fs) :
    ((∀ f ∈ fs, ¬Misread f) → CountsZeros h) ∧
      (fs.IsChain SwallowsWhole → CountsZeros h → ∀ f ∈ fs, ¬Misread f) := by
  refine ⟨fun hread => ⟨hf.cntZeroRegs hread, ?_⟩, fun hwhole hcounts f hmem hmis => ?_⟩
  · have hcut := hf.cut.cntZeroRegs hread
    rwa [Hll.cut_denoted] at hcut
  · have hlen := length_le_bytesOf hf.flags
    have hshort : fs.length ≤ hllRegisterCnt := by
      rw [← hf.width]
      exact length_le_width hf.flags
    have hcut := hf.cut
    have hrun := hcounts.2
    have hend : h.cut.mem.length = h.cut.size := by
      show (h.mem.take h.size).length = h.size
      rw [List.length_take, Nat.min_eq_left hf.alloc]
    have hbytes : h.cut.mem.drop 16 = bytesOf fs := by
      rw [hcut.drop_mem, List.drop_eq_nil_of_le (Nat.le_of_eq hend), List.append_nil]
    rw [cntZeroRegs, getEnc_ok hcut.enc, ok_bind, if_neg (by decide)] at hrun
    obtain ⟨-, hmore⟩ := cntZeroSparse_overruns hf.flags hwhole hend hbytes hcut.size.1
      (by rw [hllRegisterCnt] at hshort; omega) hrun
    have hlt := hmore ⟨f, hmem, hmis⟩
    rw [hf.count_zero, Nat.zero_add] at hlt
    exact Nat.lt_irrefl _ hlt

theorem cntZeroRegs_counts_single : CountsZeros (sparseOf [0, 131, 127, 250]) := by
  have hform : (sparseOf [0, 131, 127, 250]).SparseForm [⟨[0], 1⟩, ⟨[131], 4⟩, ⟨[127, 250], 16379⟩] := sparseOf_form rfl rfl
  exact (cntZeroRegs_counts hform).1 (by decide)

/-- One register of `5` behind three zeros. The flag of the register is taken for the low byte of a count. -/
theorem cntZeroRegs_overcounts : (sparseOf [2, 144, 127, 251]).WellFormed ∧
    cntZeroRegs (sparseOf [2, 144, 127, 251]) = .ok 17037 ∧ ¬CountsZeros (sparseOf [2, 144, 127, 251]) := by
  have hform : (sparseOf [2, 144, 127, 251]).SparseForm [⟨[2], 3⟩, ⟨[144], 1⟩, ⟨[127, 251], 16380⟩] := sparseOf_form rfl rfl
  have hrun : cntZeroRegs (sparseOf [2, 144, 127, 251]) = .ok 17037 := by decide +kernel
  refine ⟨⟨_, hform⟩, hrun, fun hcounts => ?_⟩
  have hcount : (sparseOf [2, 144, 127, 251]).denoted.count 0 = 16383 := by
    rw [hform.count_zero]
    rfl
  have heq := hcounts.1
  rw [hrun, hcount] at heq
  cases heq

/-- Behind an `XZERO` flag that was cut in two the count can come out right again. -/
example : cntZeroRegs (sparseOf [1, 66, 64, 255, 125, 184]) = .ok 16380 := by decide +kernel

end Readers

end CustomRedis
