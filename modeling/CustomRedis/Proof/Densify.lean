import CustomRedis.Lib.KeyedList
import CustomRedis.Proof.HllDense
import CustomRedis.Proof.SparseWalks

/-!
# The conversion to the dense encoding

`densify` goes through the flags with the number of the next register and writes the registers of the `VAL` flags.
Behind such a flag the counter of its inner loop has wrapped around, and adding it takes one off the number again. The
first `VAL` flag still goes where it belongs, and every later one stands too far to the left.
-/

namespace CustomRedis

open Run (ok_bind)
open RunLength

/-! ### The writes -/

/-- The registers that the conversion writes, one after the other. -/
def writesOf : List (Block Nat) → Nat → List (Nat × Nat)
  | [], _ => []
  | b :: bs, regNo =>
    if b.value = 0 then writesOf bs (regNo + b.cnt)
    else (List.range' regNo b.cnt).map (·, b.value) ++ writesOf bs (regNo + b.cnt - 1)

def Hll.writes (h : Hll) : List (Nat × Nat) := writesOf (flagsOf h.payload) 0

def writeReg (dhll : Hll) (w : Nat × Nat) : M Hll := setReg dhll w.1 (UInt8.ofNat w.2).toUInt32

theorem setRegs_eq (dhll : Hll) (regNo : Nat) (val : UInt8) (cnt : Nat) :
    setRegs dhll regNo val cnt = ((List.range' regNo cnt).map (·, val.toNat)).foldlM writeReg dhll := by
  induction cnt generalizing dhll regNo with
  | zero => rfl
  | succ cnt ih =>
    rw [setRegs, List.range'_succ, List.map_cons, List.foldlM_cons, writeReg, UInt8.ofNat_toNat]
    congr 1
    funext dhll'
    exact ih dhll' (regNo + 1)

/-- A round of the conversion. -/
def densifyStep (s : Hll × Nat) (f : Block Bytes) : M (Hll × Nat) :=
  if isVal (headOf f) then do
    let dhll ← setRegs s.1 s.2 (valValue (headOf f)) f.cnt
    .ok (dhll, (s.2 + f.cnt + (2 ^ 32 - 1)) % 2 ^ 32)
  else .ok (s.1, (s.2 + f.cnt) % 2 ^ 32)

theorem densifyAux_round {h : Hll} {f : Block Bytes} (hf : IsFlag f) {rest : Bytes} {fuel p : Nat} {s : Hll × Nat}
    (hmem : h.mem.drop p = f.value ++ rest) (hsize : p < h.size) :
    densifyAux (fuel + 1) h s.1 s.2 p =
      densifyStep s f >>= fun s' => densifyAux fuel h s'.1 s'.2 (p + f.value.length) := by
  rw [densifyAux, if_pos hsize]
  cases hf with
  | @val flag hval =>
    rw [Hll.get_of_drop hmem, ok_bind, if_pos hval, densifyStep, headOf_mk, if_pos hval, bind_assoc]
    rfl
  | @zero flag hzero =>
    have hval := Bool.eq_false_iff.mp (isVal_of_isZero hzero)
    rw [Hll.get_of_drop hmem, ok_bind, if_neg hval, if_pos hzero, densifyStep, headOf_mk, if_neg hval]
    rfl
  | @xzero flag hval hzero lsb =>
    have hlsb : h.mem.drop (p + 1) = lsb :: rest := by
      rw [← List.drop_drop, hmem]
      rfl
    rw [Hll.get_of_drop hmem, ok_bind, if_neg (Bool.eq_false_iff.mp hval), if_neg (Bool.eq_false_iff.mp hzero),
      Hll.get_of_drop hlsb, ok_bind, densifyStep, headOf_mk, if_neg (Bool.eq_false_iff.mp hval)]
    rfl

theorem foldlM_densifyStep {fs : List (Block Bytes)} (hfs : ∀ f ∈ fs, IsFlag f) {regNo : Nat}
    (hwidth : regNo + width fs ≤ hllRegisterCnt) (dhll : Hll) :
    (fs.foldlM densifyStep (dhll, regNo) >>= fun s => .ok s.1) =
      (writesOf (fs.map runOf) regNo).foldlM writeReg dhll := by
  induction fs generalizing regNo dhll with
  | nil => rfl
  | cons f fs ih =>
    obtain ⟨hf, hfs⟩ := List.forall_mem_cons.mp hfs
    have hpos := hf.cnt_pos
    rw [width_cons, ← Nat.add_assoc] at hwidth
    unfold hllRegisterCnt at ih hwidth
    rw [List.foldlM_cons, List.map_cons, writesOf, densifyStep]
    cases hval : isVal (headOf f) with
    | true =>
      have hne : (runOf f).value ≠ 0 := (readValue_eq_zero f).not.mpr (by rw [hval]; exact Bool.noConfusion)
      have hvalue : (valValue (headOf f)).toNat = (runOf f).value := by
        show _ = readValue f
        rw [readValue, if_pos hval]
      rw [if_pos rfl, if_neg hne, List.foldlM_append, setRegs_eq, hvalue]
      show _ = List.foldlM writeReg dhll (List.map (·, (runOf f).value) (List.range' regNo f.cnt)) >>= _
      cases List.foldlM writeReg dhll (List.map (·, (runOf f).value) (List.range' regNo f.cnt)) with
      | error e => rfl
      | ok dhll' =>
        have hmod : (regNo + f.cnt + (2 ^ 32 - 1)) % 2 ^ 32 = regNo + f.cnt - 1 := by omega
        have hrest := ih hfs (show regNo + f.cnt - 1 + width fs ≤ 16384 by omega) dhll'
        rw [← hmod] at hrest
        exact hmod ▸ hrest
    | false =>
      have hzero : (runOf f).value = 0 := (readValue_eq_zero f).mpr hval
      have hmod : (regNo + f.cnt) % 2 ^ 32 = regNo + f.cnt := Nat.mod_eq_of_lt (by omega)
      rw [if_neg Bool.noConfusion, if_pos hzero, hmod]
      exact ih hfs hwidth dhll

/-- The conversion is its writes, on the registers that are all zero. -/
theorem Hll.SparseForm.densify {h : Hll} {fs : List (Block Bytes)} (hf : h.SparseForm fs) :
    densify h = h.writes.foldlM writeReg denseInit := by
  have hwalk := hf.walk (fun fuel p s => densifyAux fuel h s.1 s.2 p) densifyStep Prod.fst
    (fun fuel s => by rw [densifyAux, if_neg (Nat.lt_irrefl _)])
    (fun f hmem => densifyAux_round (hf.flags f hmem)) (denseInit, 0)
  rw [CustomRedis.densify, getEnc_ok hf.enc, ok_bind, if_neg (by decide), hwalk,
    foldlM_densifyStep hf.flags (by rw [hf.width, Nat.zero_add]), Hll.writes, hf.runs]

/-! ### The registers -/

/-- Registers after writes to them. -/
def written (ws : List (Nat × Nat)) (reg : Nat → Nat) : Nat → Nat :=
  ws.foldl (fun reg w => Function.update reg w.1 w.2) reg

theorem written_of_ne {ws : List (Nat × Nat)} {j : Nat} (hne : ∀ w ∈ ws, w.1 ≠ j) (reg : Nat → Nat) :
    written ws reg j = reg j :=
  KeyedList.foldl_update_of_ne hne Prod.snd reg

theorem written_run (regNo cnt v : Nat) (reg : Nat → Nat) (j : Nat) :
    written ((List.range' regNo cnt).map (·, v)) reg j = if regNo ≤ j ∧ j < regNo + cnt then v else reg j := by
  induction cnt generalizing regNo reg with
  | zero => rw [if_neg (by omega)]; rfl
  | succ cnt ih =>
    rw [List.range'_succ, List.map_cons]
    show written _ (Function.update reg regNo v) j = _
    rw [ih, Function.update_apply]
    by_cases hj : j = regNo
    · rw [if_neg (by omega), if_pos hj, if_pos (by omega)]
    · rw [if_neg hj]
      exact if_congr (by omega) rfl rfl

theorem foldlM_writeReg {ws : List (Nat × Nat)} (hws : ∀ w ∈ ws, w.1 < hllRegisterCnt ∧ w.2 < 64) {d : Hll}
    (hd : d.DenseBlock) :
    ∃ d', ws.foldlM writeReg d = .ok d' ∧ d'.DenseBlock ∧ d'.denseReg = written ws d.denseReg := by
  induction ws generalizing d with
  | nil => exact ⟨d, rfl, hd, rfl⟩
  | cons w ws ih =>
    obtain ⟨⟨hw, hv⟩, hws⟩ := List.forall_mem_cons.mp hws
    have hval : (UInt8.ofNat w.2).toUInt32.toNat = w.2 := by
      rw [UInt8.toNat_toUInt32, UInt8.toNat_ofNat_of_lt' (show w.2 < 256 by omega)]
    obtain ⟨d₁, hset, hd₁, hreg₁⟩ := setReg_ok hd hw (show (UInt8.ofNat w.2).toUInt32.toNat < 64 by rw [hval]; exact hv)
    obtain ⟨d', hrun, hd', hreg'⟩ := ih hws hd₁
    refine ⟨d', ?_, hd', ?_⟩
    · rw [List.foldlM_cons, writeReg, hset, ok_bind, hrun]
    · rw [hreg', hreg₁, hval]
      rfl

section Runs

variable {b : Block Nat} {bs : List (Block Nat)}

theorem getD_expand_lt {j : Nat} (hj : j < b.cnt) (bs : List (Block Nat)) : (expand (b :: bs)).getD j 0 = b.value := by
  rw [expand_cons, List.getD_append _ _ _ _ (by rw [List.length_replicate]; exact hj), List.getD_replicate _ hj]

theorem getD_expand_add (b : Block Nat) (bs : List (Block Nat)) (j : Nat) :
    (expand (b :: bs)).getD (b.cnt + j) 0 = (expand bs).getD j 0 := by
  rw [expand_cons, List.getD_append_right _ _ _ _ (by rw [List.length_replicate]; exact Nat.le_add_right _ _),
    List.length_replicate, Nat.add_sub_cancel_left]

theorem getD_expand_zeros (hzero : ∀ b ∈ bs, b.value = 0) (j : Nat) : (expand bs).getD j 0 = 0 := by
  rw [List.getD_eq_getElem?_getD]
  cases hj : (expand bs)[j]? with
  | none => rfl
  | some y =>
    obtain ⟨b, hb, hy⟩ := List.mem_flatMap.mp (List.mem_of_getElem? hj)
    rw [Option.getD_some, List.eq_of_mem_replicate hy, hzero b hb]

theorem writesOf_zeros (hzero : ∀ b ∈ bs, b.value = 0) (regNo : Nat) : writesOf bs regNo = [] := by
  induction bs generalizing regNo with
  | nil => rfl
  | cons b bs ih =>
    obtain ⟨hb, hzero⟩ := List.forall_mem_cons.mp hzero
    rw [writesOf, if_pos hb, ih hzero]

theorem mem_run {regNo cnt v : Nat} {w : Nat × Nat} (hw : w ∈ (List.range' regNo cnt).map (·, v)) :
    w.1 < regNo + cnt ∧ w.2 = v := by
  obtain ⟨k, hk, rfl⟩ := List.mem_map.mp hw
  exact ⟨(List.mem_range'_1.mp hk).2, rfl⟩

theorem writesOf_lt (hsix : ∀ b ∈ bs, b.value < 64) (regNo : Nat) :
    ∀ w ∈ writesOf bs regNo, w.1 < regNo + width bs ∧ w.2 < 64 := by
  induction bs generalizing regNo with
  | nil => exact nofun
  | cons b bs ih =>
    obtain ⟨hb, hsix⟩ := List.forall_mem_cons.mp hsix
    intro w hw
    rw [writesOf] at hw
    rw [width_cons]
    split at hw
    · have hrest := ih hsix _ w hw
      omega
    · rcases List.mem_append.mp hw with hw | hw
      · obtain ⟨hlt, hval⟩ := mem_run hw
        omega
      · have hrest := ih hsix _ w hw
        omega

/-- With one `VAL` flag the writes make the registers that the flags denote. -/
theorem written_single (hone : bs.countP (fun b => b.value ≠ 0) ≤ 1) {regNo : Nat} {reg : Nat → Nat}
    (hreg : ∀ j, regNo ≤ j → reg j = 0) (j : Nat) :
    written (writesOf bs regNo) reg j = if j < regNo then reg j else (expand bs).getD (j - regNo) 0 := by
  induction bs generalizing regNo with
  | nil =>
    show reg j = _
    split
    · rfl
    · next hj => rw [hreg j (Nat.le_of_not_lt hj), expand_nil, List.getD_nil]
  | cons b bs ih =>
    rw [writesOf]
    by_cases hval : b.value = 0
    · rw [List.countP_cons_of_neg (by simpa using hval)] at hone
      rw [if_pos hval, ih hone fun j hj => hreg j (Nat.le_trans (Nat.le_add_right _ _) hj)]
      by_cases hlt : j < regNo
      · rw [if_pos (by omega), if_pos hlt]
      · rw [if_neg hlt]
        by_cases hin : j - regNo < b.cnt
        · rw [if_pos (by omega), getD_expand_lt hin, hval, hreg j (Nat.le_of_not_lt hlt)]
        · rw [if_neg (by omega), show j - regNo = b.cnt + (j - (regNo + b.cnt)) by omega, getD_expand_add]
    · rw [List.countP_cons_of_pos (by simpa using hval)] at hone
      have hzeros : ∀ c ∈ bs, c.value = 0 := by
        intro c hc
        have hnone := List.countP_eq_zero.mp (Nat.le_zero.mp (Nat.le_of_succ_le_succ hone)) c hc
        simpa using hnone
      rw [if_neg hval, writesOf_zeros hzeros, List.append_nil, written_run]
      by_cases hlt : j < regNo
      · rw [if_neg (by omega), if_pos hlt]
      · rw [if_neg hlt]
        by_cases hin : j - regNo < b.cnt
        · rw [if_pos (by omega), getD_expand_lt hin]
        · rw [if_neg (by omega), hreg j (Nat.le_of_not_lt hlt),
            show j - regNo = b.cnt + (j - (regNo + b.cnt)) by omega, getD_expand_add, getD_expand_zeros hzeros]

/-- Nothing is written behind the last register that is not zero. -/
theorem writesOf_le_last (hpos : ∀ b ∈ bs, 0 < b.cnt) (hsome : 1 ≤ bs.countP (fun b => b.value ≠ 0)) (regNo : Nat) :
    ∃ j, (expand bs).getD j 0 ≠ 0 ∧ ∀ w ∈ writesOf bs regNo, w.1 ≤ regNo + j := by
  induction bs generalizing regNo with
  | nil => cases hsome
  | cons b bs ih =>
    obtain ⟨hb, hpos⟩ := List.forall_mem_cons.mp hpos
    rw [writesOf]
    by_cases hval : b.value = 0
    · rw [List.countP_cons_of_neg (by simpa using hval)] at hsome
      obtain ⟨j, hj, hle⟩ := ih hpos hsome (regNo + b.cnt)
      refine ⟨b.cnt + j, by rwa [getD_expand_add], fun w hw => ?_⟩
      rw [if_pos hval] at hw
      have hbound := hle w hw
      omega
    · rw [if_neg hval]
      by_cases hrest : 1 ≤ bs.countP (fun b => b.value ≠ 0)
      · obtain ⟨j, hj, hle⟩ := ih hpos hrest (regNo + b.cnt - 1)
        refine ⟨b.cnt + j, by rwa [getD_expand_add], fun w hw => ?_⟩
        rcases List.mem_append.mp hw with hw | hw
        · have hbound := (mem_run hw).1
          omega
        · have hbound := hle w hw
          omega
      · have hzeros : ∀ c ∈ bs, c.value = 0 := by
          intro c hc
          have hnone := List.countP_eq_zero.mp (Nat.eq_zero_of_not_pos hrest) c hc
          simpa using hnone
        refine ⟨b.cnt - 1, by rwa [getD_expand_lt (by omega)], fun w hw => ?_⟩
        rw [writesOf_zeros hzeros, List.append_nil] at hw
        have hbound := (mem_run hw).1
        omega

/-- With a second `VAL` flag the last register that is not zero is not written at all. -/
theorem writesOf_lt_last (hpos : ∀ b ∈ bs, 0 < b.cnt) (htwo : 2 ≤ bs.countP (fun b => b.value ≠ 0)) (regNo : Nat) :
    ∃ j, (expand bs).getD j 0 ≠ 0 ∧ ∀ w ∈ writesOf bs regNo, w.1 < regNo + j := by
  induction bs generalizing regNo with
  | nil => cases htwo
  | cons b bs ih =>
    obtain ⟨hb, hpos⟩ := List.forall_mem_cons.mp hpos
    rw [writesOf]
    by_cases hval : b.value = 0
    · rw [List.countP_cons_of_neg (by simpa using hval)] at htwo
      obtain ⟨j, hj, hlt⟩ := ih hpos htwo (regNo + b.cnt)
      refine ⟨b.cnt + j, by rwa [getD_expand_add], fun w hw => ?_⟩
      rw [if_pos hval] at hw
      have hbound := hlt w hw
      omega
    · rw [List.countP_cons_of_pos (by simpa using hval)] at htwo
      obtain ⟨j, hj, hle⟩ := writesOf_le_last hpos (Nat.le_of_succ_le_succ htwo) (regNo + b.cnt - 1)
      refine ⟨b.cnt + j, by rwa [getD_expand_add], fun w hw => ?_⟩
      rw [if_neg hval] at hw
      rcases List.mem_append.mp hw with hw | hw
      · have hbound := (mem_run hw).1
        omega
      · have hbound := hle w hw
        omega

end Runs

/-! ### The conversion -/

section Conversion

variable {h : Hll} {fs : List (Block Bytes)}

theorem countP_runOf (fs : List (Block Bytes)) :
    (fs.map runOf).countP (fun b => b.value ≠ 0) = fs.countP fun f => isVal (headOf f) := by
  rw [List.countP_map]
  apply List.countP_congr
  intro f _
  show decide (readValue f ≠ 0) = true ↔ _
  rw [decide_eq_true_eq, Ne, readValue_eq_zero, Bool.not_eq_false]

theorem Hll.SparseForm.writes_lt (hf : h.SparseForm fs) : ∀ w ∈ h.writes, w.1 < hllRegisterCnt ∧ w.2 < 64 := by
  have hall : ∀ flag : Fin 256, (valValue (UInt8.ofFin flag)).toNat < 64 := by decide +kernel
  have hsix : ∀ b ∈ fs.map runOf, b.value < 64 := by
    intro b hb
    obtain ⟨f, -, rfl⟩ := List.mem_map.mp hb
    show readValue f < 64
    rw [readValue]
    split
    · exact hall (headOf f).toFin
    · decide
  have hlt := writesOf_lt hsix 0
  rwa [width_withValue, hf.width, Nat.zero_add, ← hf.runs] at hlt

theorem Hll.SparseForm.densify_written (hf : h.SparseForm fs) :
    ∃ d, CustomRedis.densify h = .ok d ∧ d.DenseBlock ∧ d.denseReg = written h.writes denseInit.denseReg := by
  obtain ⟨d, hrun, hd, hreg⟩ := foldlM_writeReg hf.writes_lt denseInit_block
  exact ⟨d, hf.densify.trans hrun, hd, hreg⟩

theorem Hll.SparseForm.written_eq (hf : h.SparseForm fs) (hone : fs.countP (fun f => isVal (headOf f)) ≤ 1) (j : Nat) :
    written h.writes denseInit.denseReg j = h.denoted.getD j 0 := by
  rw [← countP_runOf] at hone
  rw [Hll.writes, hf.runs, written_single hone (fun j _ => denseReg_denseInit j), if_neg (Nat.not_lt_zero j), Nat.sub_zero,
    hf.denoted]

/-- The conversion of a sparse structure keeps its registers exactly if there is at most one `VAL` flag. It writes no
register but these. -/
theorem densify_registers (hf : h.SparseForm fs) :
    (∃ d, densify h = .ok d ∧ d.DenseBlock ∧ (∀ j < hllRegisterCnt, d.denseReg j = h.denoted.getD j 0) ∧
      h.writes.foldlM writeReg denseInit = .ok d ∧ ∀ w ∈ h.writes, w.1 < hllRegisterCnt) ↔
    fs.countP (fun f => isVal (headOf f)) ≤ 1 := by
  obtain ⟨d, hrun, hd, hreg⟩ := hf.densify_written
  refine ⟨fun ⟨d', hrun', _, hkept, _⟩ => ?_, fun hone => ?_⟩
  · cases hrun.symm.trans hrun'
    by_contra htwo
    have hpos : ∀ b ∈ fs.map runOf, 0 < b.cnt := by
      intro b hb
      obtain ⟨f, hmem, rfl⟩ := List.mem_map.mp hb
      exact (hf.flags f hmem).cnt_pos
    obtain ⟨j, hj, hlt⟩ := writesOf_lt_last hpos (by rw [countP_runOf]; omega) 0
    have hbelow : ∀ w ∈ h.writes, w.1 < j := by rwa [← hf.runs, Nat.zero_add] at hlt
    rw [← hf.denoted] at hj
    have hin : j < hllRegisterCnt := by
      by_contra hge
      rw [List.getD_eq_default _ _ (by rw [hf.length_denoted]; omega)] at hj
      exact hj rfl
    have hzero : d.denseReg j = 0 := by
      rw [hreg, written_of_ne fun w hw => Nat.ne_of_lt (hbelow w hw), denseReg_denseInit]
    rw [← hkept j hin] at hj
    exact hj hzero
  · refine ⟨d, hrun, hd, fun j _ => ?_, hf.densify.symm.trans hrun, fun w hw => (hf.writes_lt w hw).1⟩
    rw [hreg, hf.written_eq hone]

theorem densify_registers_one : ∃ d, densify (sparseOf [2, 145, 127, 250]) = .ok d ∧ d.denseReg 3 = 5 ∧
    d.denseReg 4 = 5 ∧ d.denseReg 5 = 0 := by
  have hform : (sparseOf [2, 145, 127, 250]).SparseForm [⟨[2], 3⟩, ⟨[145], 2⟩, ⟨[127, 250], 16379⟩] := sparseOf_form rfl rfl
  obtain ⟨d, hrun, -, hreg, -⟩ := (densify_registers hform).mpr (by decide)
  have hden : ∀ j < 6, (sparseOf [2, 145, 127, 250]).denoted.getD j 0 = if j = 3 ∨ j = 4 then 5 else 0 := by
    rw [hform.denoted]
    decide +kernel
  exact ⟨d, hrun, (hreg 3 (by decide)).trans (hden 3 (by decide)), (hreg 4 (by decide)).trans (hden 4 (by decide)),
    (hreg 5 (by decide)).trans (hden 5 (by decide))⟩

/-- Two registers that stand in flags of their own: the second one is written over the first. -/
theorem densify_shifts : (sparseOf [144, 136, 127, 253]).WellFormed ∧
    (sparseOf [144, 136, 127, 253]).denoted.getD 0 0 = 5 ∧ (sparseOf [144, 136, 127, 253]).denoted.getD 1 0 = 3 ∧
    ∃ d, densify (sparseOf [144, 136, 127, 253]) = .ok d ∧ d.denseReg 0 = 3 ∧ d.denseReg 1 = 0 := by
  have hform : (sparseOf [144, 136, 127, 253]).SparseForm [⟨[144], 1⟩, ⟨[136], 1⟩, ⟨[127, 253], 16382⟩] := sparseOf_form rfl rfl
  have hwrites : (sparseOf [144, 136, 127, 253]).writes = [(0, 5), (0, 3)] := by decide
  obtain ⟨d, hrun, -, hreg⟩ := hform.densify_written
  refine ⟨⟨_, hform⟩, rfl, rfl, d, hrun, ?_, ?_⟩
  · rw [hreg, hwrites]
    rfl
  · rw [hreg, hwrites, written_of_ne (by decide), denseReg_denseInit]

theorem Hll.Codes.form {bs : List (Block Nat)} (hc : h.Codes bs) : h.SparseForm (bs.map flagOf) := by
  have hflags := isFlag_map hc.coded
  have hparse := parseFlags_append hflags []
  rw [List.append_nil, bytesOf_flagOf, ← hc.payload] at hparse
  refine ⟨hc.enc, hc.size_le, ?_, by rw [width_withValue, hc.width]⟩
  rw [hparse, parseFlags, Option.map_some, List.append_nil]

theorem densify_ok {bs : List (Block Nat)} (hc : h.Codes bs) (hone : bs.countP (fun b => b.value ≠ 0) ≤ 1) :
    ∃ d, densify h = .ok d ∧ d.DenseBlock ∧ ∀ j, d.denseReg j = (expand bs).getD j 0 := by
  have hruns : (bs.map flagOf).map runOf = bs := by
    rw [← hc.form.runs, hc.payload, flagsOf_encode hc.coded]
  obtain ⟨d, hrun, hd, hreg⟩ := hc.form.densify_written
  refine ⟨d, hrun, hd, fun j => ?_⟩
  rw [hreg, hc.form.written_eq (by rw [← countP_runOf, hruns]; exact hone), hc.form.denoted, hruns]

end Conversion

end CustomRedis
