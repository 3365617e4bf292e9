import CustomRedis.Proof.HllSparse

/-!
# The form of a sparse structure

A sparse structure is well formed if its bytes are flags to the end and the flags stand for all registers together.
`add_sparse` has to keep this. It does where the register can be raised in its flag, and where the flag is split into
flags that are read as they are meant; but it makes a flag for two registers of a `ZERO` flag for one, a half of 65
zeros becomes the first byte of an `XZERO` flag, and the loop writes a wrong count into the flags it merges.
-/

namespace CustomRedis

open Run (ok_bind ok_of_bind)
open RunLength

/-- A sparse structure with the flags in its bytes, which stand for all registers. -/
structure Hll.SparseForm (h : Hll) (fs : List (Block Bytes)) : Prop where
  enc : h.enc = some hllSparse
  alloc : h.size ≤ h.mem.length
  parse : parseFlags h.payload = some fs
  width : width fs = hllRegisterCnt

def Hll.WellFormed (h : Hll) : Prop := ∃ fs, h.SparseForm fs

section Form

variable {h h' : Hll} {fs : List (Block Bytes)}

theorem Hll.SparseForm.flags (hf : h.SparseForm fs) : ∀ f ∈ fs, IsFlag f := (parseFlags_some hf.parse).1

theorem Hll.SparseForm.payload (hf : h.SparseForm fs) : h.payload = bytesOf fs := (parseFlags_some hf.parse).2

theorem Hll.SparseForm.size (hf : h.SparseForm fs) : h.size = 16 + (bytesOf fs).length ∧ 0 < (bytesOf fs).length := by
  have hne : (bytesOf fs).length ≠ 0 := by
    rw [Ne, bytesOf_eq_nil hf.flags]
    intro hnil
    have hwidth := hf.width
    rw [hnil] at hwidth
    cases hwidth
  have hlen := congrArg List.length hf.payload
  unfold Hll.payload hllHeaderSizeBytes at hlen
  rw [List.length_drop, List.length_take, Nat.min_eq_left hf.alloc] at hlen
  omega

theorem Hll.SparseForm.header (hf : h.SparseForm fs) : (h.mem.take 16).length = 16 := by
  obtain ⟨hsize, -⟩ := hf.size
  have halloc := hf.alloc
  rw [List.length_take]
  omega

theorem Hll.SparseForm.mem_eq (hf : h.SparseForm fs) : h.mem = h.mem.take 16 ++ (bytesOf fs ++ h.mem.drop h.size) :=
  Hll.mem_split hf.payload hf.size.1

theorem Hll.SparseForm.drop_mem (hf : h.SparseForm fs) : h.mem.drop 16 = bytesOf fs ++ h.mem.drop h.size := by
  have hdrop := congrArg (List.drop 16) hf.mem_eq
  rwa [List.drop_left' hf.header] at hdrop

/-- Other bytes behind the same header are well formed if they are flags for all registers. -/
theorem Hll.SparseForm.rewritten (hf : h.SparseForm fs) {bytes slack : Bytes}
    (hmem : h'.mem = h.mem.take 16 ++ (bytes ++ slack)) (hsize : h'.size = 16 + bytes.length) :
    ∃ h'', invalidateCache h' = .ok h'' ∧ (h''.WellFormed ↔ readWidth bytes = some hllRegisterCnt) := by
  have hhead := hf.header
  have hlen : h'.mem.length = 16 + (bytes.length + slack.length) := by
    rw [hmem, List.length_append, List.length_append, hhead]
  obtain ⟨h'', hinv, hpayload, hsize'⟩ := invalidateCache_ok (h := h') (by omega)
  have hp := (invalidateCache_spec hinv).1
  rw [Hll.payload_of_mem hmem hhead hsize] at hpayload
  refine ⟨h'', hinv, fun ⟨gs, hform⟩ => ?_, fun hread => ?_⟩
  · rw [readWidth, ← hpayload, hform.parse, Option.map_some, hform.width]
  · obtain ⟨gs, hparse, hwidth⟩ := Option.map_eq_some_iff.mp hread
    have henc : h'.enc = h.enc := by
      rw [Hll.enc, hmem, List.getElem?_append_left (by rw [hhead]; decide), List.getElem?_take_of_lt (by decide)]
      rfl
    refine ⟨gs, (hp.keeps.2 4 (by decide)).trans (henc.trans hf.enc), ?_, hpayload ▸ hparse, hwidth⟩
    rw [hsize', hp.keeps.1, hsize, hlen]
    omega

/-! ### The reservation -/

/-- The bytes that are allocated behind the reservation. -/
def reserved (h : Hll) : Nat := if h.free ≥ sparseReserve h then h.mem.length else h.size + sparseReserve h + 1 - 16

theorem hllReserve_length (junk : Nat → UInt8) (hsmall : h.size + 5 ≤ hllSparseMaxBytes) :
    (hllReserve junk h (sparseReserve h)).size = h.size ∧
      (hllReserve junk h (sparseReserve h)).mem.length = reserved h := by
  have hlarge : ¬h.size + sparseReserve h > 2 ^ 30 := by
    unfold sparseReserve hllSparseMaxBytes at *
    split <;> omega
  rw [hllReserve, if_neg hlarge, reserved]
  split
  · exact ⟨rfl, rfl⟩
  · refine ⟨rfl, ?_⟩
    simp only [List.length_append, List.length_take, List.length_map, List.length_range]
    omega

theorem Hll.SparseForm.reserve (hf : h.SparseForm fs) (junk : Nat → UInt8) (hsmall : h.size + 5 ≤ hllSparseMaxBytes)
    (hfits : h.size ≤ reserved h) : (hllReserve junk h (sparseReserve h)).SparseForm fs := by
  obtain ⟨hsize, hlen⟩ := hllReserve_length junk hsmall
  have hget : ∀ i < h.size, (hllReserve junk h (sparseReserve h)).mem[i]? = h.mem[i]? := by
    intro i hi
    have hlt : i < h.mem.length := Nat.lt_of_lt_of_le hi hf.alloc
    rw [hllReserve]
    split
    · rfl
    · split
      · rfl
      · next hfree =>
        rw [reserved, if_neg hfree] at hfits
        dsimp only
        rw [List.getElem?_append_left (by rw [List.length_take]; omega), List.getElem?_take_of_lt (by omega)]
  obtain ⟨hheader, -⟩ := hf.size
  refine ⟨(hget 4 (by omega)).trans hf.enc, by rw [hsize, hlen]; exact hfits, ?_, hf.width⟩
  rw [Hll.payload_congr hsize fun i _ hi => hget i hi]
  exact hf.parse

/-! ### A flag in the place of another -/

/-- A flag of one byte is overwritten by another. -/
theorem Hll.SparseForm.put_flag {l : Located Bytes} (hf : h.SparseForm (l.front ++ l.block :: l.back)) {flag flag' : UInt8}
    (hblock : l.block.value = [flag]) {cnt : Nat} (hflag : IsFlag ⟨[flag'], cnt⟩) :
    ∃ h'', (do
      let hll ← h.put (16 + (bytesOf l.front).length) flag'
      let hll ← invalidateCache hll
      .ok (hll, 1) : M (Hll × Nat)) = .ok (h'', 1) ∧ (h''.WellFormed ↔ cnt = l.block.cnt) := by
  obtain ⟨hsize, -⟩ := hf.size
  have hmem := hf.mem_eq
  rw [bytesOf_append, bytesOf_cons, hblock] at hsize hmem
  have hcurr : 16 + (bytesOf l.front).length = (h.mem.take 16 ++ bytesOf l.front).length := by
    rw [List.length_append, hf.header]
  have hold : h.mem = (h.mem.take 16 ++ bytesOf l.front) ++ flag :: (bytesOf l.back ++ h.mem.drop h.size) := by
    refine hmem.trans ?_
    simp only [List.append_assoc, List.cons_append, List.nil_append]
  have hgs : ∀ g ∈ l.front ++ ⟨[flag'], cnt⟩ :: l.back, IsFlag g := by
    intro g hg
    rcases List.mem_append.mp hg with hg | hg
    · exact hf.flags g (List.mem_append_left _ hg)
    · rcases List.mem_cons.mp hg with rfl | hg
      · exact hflag
      · exact hf.flags g (List.mem_append_right _ (List.mem_cons_of_mem _ hg))
  obtain ⟨h₂, hh₂⟩ : ∃ h₂ : Hll, h₂ = { h with
    mem := (h.mem.take 16 ++ bytesOf l.front) ++ flag' :: (bytesOf l.back ++ h.mem.drop h.size) } := ⟨_, rfl⟩
  have hmem₂ : h₂.mem = h.mem.take 16 ++ (bytesOf (l.front ++ ⟨[flag'], cnt⟩ :: l.back) ++ h.mem.drop h.size) := by
    rw [hh₂]
    simp only [bytesOf_append, bytesOf_cons, List.append_assoc, List.cons_append, List.nil_append]
  have hsize₂ : h₂.size = 16 + (bytesOf (l.front ++ ⟨[flag'], cnt⟩ :: l.back)).length := by
    rw [hh₂]
    simp only [hsize, bytesOf_append, bytesOf_cons, List.length_append, List.length_singleton]
  obtain ⟨h'', hinv, hform⟩ := hf.rewritten hmem₂ hsize₂
  rw [readWidth_bytesOf hgs, Option.some_inj] at hform
  refine ⟨h'', ?_, hform.trans ?_⟩
  · rw [hcurr, Hll.put_at hold, ok_bind, ← hh₂, hinv, ok_bind]
  · have hwidth := hf.width
    rw [width_append, width_cons] at hwidth ⊢
    dsimp only
    omega

/-! ### A flag that is split -/

/-- The flags that take the place of the one a register lies in. -/
def splitParts (l : Located Bytes) (v : Nat) : List (Block Bytes) :=
  part (partBytes (isVal (headOf l.block)) (headOf l.block) l.offset) l.offset ++ ⟨[valFlag (UInt8.ofNat v - 1) 0], 1⟩ ::
    part (partBytes (isVal (headOf l.block)) (headOf l.block) (l.block.cnt - l.offset - 1)) (l.block.cnt - l.offset - 1)

theorem width_splitParts {l : Located Bytes} (hoffset : l.offset < l.block.cnt) (v : Nat) :
    width (splitParts l v) = l.block.cnt := by
  rw [splitParts, width_append, width_cons, width_part, width_part]
  dsimp only
  omega

theorem valFlag_part (value : UInt8) {n : Nat} (hn : n < 4) :
    isVal (valFlag value (UInt8.ofNat n)) = true ∧ (valCnt (valFlag value (UInt8.ofNat n))).toNat = n + 1 := by
  have hall : ∀ (value : Fin 256) (n : Fin 4), isVal (valFlag (UInt8.ofFin value) (UInt8.ofNat n)) = true ∧
      (valCnt (valFlag (UInt8.ofFin value) (UInt8.ofNat n))).toNat = n + 1 := by decide +kernel
  exact hall value.toFin ⟨n, hn⟩

/-- A part of a flag is a flag of its own, but for a part of 65 zeros. -/
theorem isFlag_part {f : Block Bytes} (hf : IsFlag f) {n : Nat} (hn : n < f.cnt) (hmax : f.cnt ≤ hllRegisterCnt)
    (hne : isVal (headOf f) = false → n ≠ 65) : ∀ g ∈ part (partBytes (isVal (headOf f)) (headOf f) n) n, IsFlag g := by
  intro g hg
  rw [part] at hg
  split at hg
  · cases hg
  · next hpos =>
    obtain ⟨m, rfl⟩ := Nat.exists_eq_succ_of_ne_zero hpos
    cases List.mem_singleton.mp hg
    by_cases hval : isVal (headOf f) = true
    · rw [partBytes, if_pos hval, Nat.succ_sub_one]
      have hfour : m < 4 := by
        have hall : ∀ flag : Fin 256, (valCnt (UInt8.ofFin flag)).toNat ≤ 4 := by decide +kernel
        have hcnt : f.cnt ≤ 4 := (hf.of_isVal hval).2 ▸ hall (headOf f).toFin
        omega
      obtain ⟨hnew, hcnt⟩ := valFlag_part (valValue (headOf f)) hfour
      rw [Nat.succ_eq_add_one, ← hcnt]
      exact .val hnew
    · have hcoded : Coded ⟨0, m + 1⟩ := by
        have hnot := hne (Bool.not_eq_true _ ▸ hval)
        unfold hllRegisterCnt at hmax
        refine coded_part (n := m + 1) (by omega) (by omega) _ ?_
        exact List.mem_singleton_self _
      have hflag := hcoded.isFlag
      rw [partBytes, if_neg hval, Nat.succ_sub_one]
      exact hflag

/-- The length of the structure with the new flags. -/
def splitSize (l : Located Bytes) (v : Nat) : Nat := 16 + (bytesOf (l.front ++ splitParts l v ++ l.back)).length

/-- The bytes that the merging loop goes through: it starts at the byte before the flag that is split. -/
def mergeBytes (l : Located Bytes) (v : Nat) : Bytes :=
  (bytesOf l.front).getLast?.toList ++ bytesOf (splitParts l v ++ l.back)

/-- The parts of a run of zeros are read as they are meant, and there is nothing to merge. -/
structure SplitsCleanly (l : Located Bytes) (v : Nat) : Prop where
  parts : isVal (headOf l.block) = false → l.offset ≠ 65 ∧ l.block.cnt - l.offset - 1 ≠ 65
  merge : nothingToMerge 5 (mergeBytes l v) = true

theorem Hll.SparseForm.bounds {l : Located Bytes} (hf : h.SparseForm (l.front ++ l.block :: l.back)) :
    IsFlag l.block ∧ RunLength.width l.front + l.block.cnt ≤ hllRegisterCnt := by
  have hwidth := hf.width
  rw [width_append, width_cons] at hwidth
  exact ⟨hf.flags _ (List.mem_append_right _ List.mem_cons_self), by omega⟩

theorem isFlag_new {v : Nat} (hpos : 1 ≤ v) (hv : v ≤ 32) : IsFlag ⟨[valFlag (UInt8.ofNat v - 1) 0], 1⟩ := by
  obtain ⟨x, rfl⟩ := Nat.exists_eq_add_of_le' hpos
  have hflag := (Coded.val (show x < 32 by omega)).isFlag
  rw [flagOf, Block.withValue, flagBytes_new hpos] at hflag
  exact hflag

theorem Hll.SparseForm.isFlag_split {l : Located Bytes} (hf : h.SparseForm (l.front ++ l.block :: l.back))
    (hoffset : l.offset < l.block.cnt) {v : Nat} (hpos : 1 ≤ v) (hv : v ≤ 32)
    (hparts : isVal (headOf l.block) = false → l.offset ≠ 65 ∧ l.block.cnt - l.offset - 1 ≠ 65) :
    ∀ g ∈ l.front ++ splitParts l v ++ l.back, IsFlag g := by
  obtain ⟨hblock, hwidth⟩ := hf.bounds
  have hmax : l.block.cnt ≤ hllRegisterCnt := by omega
  intro g hg
  rw [splitParts] at hg
  simp only [List.mem_append, List.mem_cons] at hg
  rcases hg with (hg | hg | rfl | hg) | hg
  · exact hf.flags g (List.mem_append_left _ hg)
  · exact isFlag_part hblock hoffset hmax (fun hval => (hparts hval).1) g hg
  · exact isFlag_new hpos hv
  · exact isFlag_part hblock (by omega) hmax (fun hval => (hparts hval).2) g hg
  · exact hf.flags g (List.mem_append_right _ (List.mem_cons_of_mem _ hg))

/-- The flags around the split one, and what the scan has found out about it. -/
theorem Hll.SparseForm.around {l : Located Bytes} (hf : h.SparseForm (l.front ++ l.block :: l.back)) :
    h.mem = (h.mem.take 16 ++ bytesOf l.front) ++ (l.block.value ++ (bytesOf l.back ++ h.mem.drop h.size)) ∧
      h.size = 16 + (bytesOf l.front).length + l.block.value.length + (bytesOf l.back).length ∧
      (if (foundFlag l 16 0 none).ixzero = true then (2 : Int) else 1) = l.block.value.length ∧
      (foundFlag l 16 0 none).next =
        if bytesOf l.back = [] then none else some (16 + (bytesOf l.front).length + l.block.value.length) := by
  obtain ⟨hsize, -⟩ := hf.size
  have hmem := hf.mem_eq
  rw [bytesOf_append, bytesOf_cons] at hsize hmem
  rw [List.length_append, List.length_append] at hsize
  refine ⟨?_, by omega, ?_, ?_⟩
  · refine hmem.trans ?_
    simp only [List.append_assoc]
  · rw [foundFlag]
    exact hf.bounds.1.length_eq
  · have hback : ∀ g ∈ l.back, IsFlag g := fun g hg => hf.flags g (List.mem_append_right _ (List.mem_cons_of_mem _ hg))
    have hnil : bytesOf l.back = [] ↔ l.back = [] := List.length_eq_zero_iff.symm.trans (bytesOf_eq_nil hback)
    rw [foundFlag]
    simp only [hnil]

/-- The loop starts behind the header, or at the byte in front of the new flags. -/
theorem drop_prev {head front : Bytes} (hhead : head.length = 16) (rest : Bytes) (l : Located Bytes) (hl : bytesOf l.front = front)
    (hnil : front = [] ↔ l.front = []) :
    (head ++ front ++ rest).drop ((foundFlag l 16 0 none).prev.getD hllHeaderSizeBytes) = front.getLast?.toList ++ rest ∧
      (foundFlag l 16 0 none).prev.getD hllHeaderSizeBytes + front.getLast?.toList.length = 16 + front.length := by
  rw [foundFlag, hl]
  dsimp only
  rcases List.eq_nil_or_concat front with rfl | ⟨init, b, rfl⟩
  · rw [if_pos (hnil.mp rfl), List.append_nil]
    exact ⟨List.drop_left' hhead, rfl⟩
  · rw [List.concat_eq_append] at hnil ⊢
    have hne : l.front ≠ [] := fun h => absurd (hnil.mpr h) (by simp)
    have hlen : 16 + (init ++ [b]).length - 1 = (head ++ init).length := by
      rw [List.length_append, List.length_append, hhead, List.length_singleton]
      omega
    rw [if_neg hne, Option.getD_some, List.getLast?_concat, Option.toList_some, hlen, ← List.append_assoc head,
      List.append_assoc (head ++ init), List.drop_left]
    refine ⟨rfl, ?_⟩
    simp only [List.length_append, List.length_singleton, hhead]
    omega

/-- Where the loop merges nothing, the new flags stand in the place of the old one. -/
theorem Hll.SparseForm.splice {l : Located Bytes} (hf : h.SparseForm (l.front ++ l.block :: l.back)) {v : Nat}
    (hfits : splitSize l v ≤ h.mem.length) (hmerge : nothingToMerge 5 (mergeBytes l v) = true) :
    ∃ h'', spliceFlags h (foundFlag l 16 0 none) (16 + (bytesOf l.front).length) (bytesOf (splitParts l v)) = .ok (h'', 1) ∧
      (h''.WellFormed ↔ readWidth (bytesOf (l.front ++ splitParts l v ++ l.back)) = some hllRegisterCnt) := by
  obtain ⟨hmem, hsize, hold, hnext⟩ := hf.around
  have hhead := hf.header
  have hcurr : (h.mem.take 16 ++ bytesOf l.front).length = 16 + (bytesOf l.front).length := by
    rw [List.length_append, hhead]
  have htotal : splitSize l v =
      16 + (bytesOf l.front).length + (bytesOf (splitParts l v)).length + (bytesOf l.back).length := by
    simp only [splitSize, bytesOf_append, List.length_append]
    omega
  rw [← hcurr] at hsize hnext htotal ⊢
  obtain ⟨slack, h₂, hm₂, hs₂, hsplice⟩ := spliceFlags_bytes hmem hsize (htotal ▸ hfits) hold hnext
  have hfront : bytesOf l.front = [] ↔ l.front = [] :=
    List.length_eq_zero_iff.symm.trans (bytesOf_eq_nil fun g hg => hf.flags g (List.mem_append_left _ hg))
  obtain ⟨hdrop, hstart⟩ := drop_prev hhead (bytesOf (splitParts l v) ++ (bytesOf l.back ++ slack)) l rfl hfront
  have hwindow : h₂.mem.drop ((foundFlag l 16 0 none).prev.getD hllHeaderSizeBytes) = mergeBytes l v ++ slack := by
    rw [hm₂, hdrop, mergeBytes, bytesOf_append]
    simp only [List.append_assoc]
  have hstop : h₂.size = (foundFlag l 16 0 none).prev.getD hllHeaderSizeBytes + (mergeBytes l v).length := by
    rw [hs₂, hcurr, mergeBytes, bytesOf_append, List.length_append, List.length_append]
    omega
  have hmem₂ : h₂.mem = h.mem.take 16 ++ (bytesOf (l.front ++ splitParts l v ++ l.back) ++ slack) := by
    rw [hm₂]
    simp only [bytesOf_append, List.append_assoc]
  obtain ⟨h'', hinv, hform⟩ := hf.rewritten hmem₂ (hs₂.trans htotal.symm)
  refine ⟨h'', ?_, hform⟩
  rw [hsplice, mergeAux_nothing hwindow (Nat.le_of_eq hstop) (fun _ => hstop) hmerge, ok_bind, hinv, ok_bind]

/-! ### The new flags, read again -/

theorem Hll.SparseForm.readWidth_split {l : Located Bytes} (hf : h.SparseForm (l.front ++ l.block :: l.back))
    (hoffset : l.offset < l.block.cnt) {v : Nat} (hpos : 1 ≤ v) (hv : v ≤ 32)
    (hparts : isVal (headOf l.block) = false → l.offset ≠ 65 ∧ l.block.cnt - l.offset - 1 ≠ 65) :
    readWidth (bytesOf (l.front ++ splitParts l v ++ l.back)) = some hllRegisterCnt := by
  have hwidth := hf.width
  rw [width_append, width_cons] at hwidth
  rw [readWidth_bytesOf (hf.isFlag_split hoffset hpos hv hparts), width_append, width_append, width_splitParts hoffset,
    Nat.add_assoc, hwidth]

/-- The byte for a part of 65 zeros is read as an `XZERO` flag together with the byte behind it. -/
theorem readWidth_swallows (b : UInt8) (bs : Bytes) :
    readWidth (64 :: b :: bs) = (readWidth bs).map (b.toNat + 1 + ·) := by
  have hflag : IsFlag ⟨[64, b], xzeroCnt 64 b⟩ := .xzero (by decide) (by decide) b
  have hcnt : xzeroCnt 64 b = b.toNat + 1 := by
    rw [xzeroCnt]
    exact congrArg (· + 1) (Nat.zero_add _)
  have hread := @readWidth_append [⟨[64, b], xzeroCnt 64 b⟩] (List.forall_mem_singleton.mpr hflag) bs
  rw [width_cons, width_nil, Nat.add_zero, hcnt] at hread
  exact hread

/-- Where a `VAL` or a `ZERO` flag stands behind the byte, the sum is wrong. -/
theorem readWidth_behind {gs : List (Block Bytes)} (hgs : ∀ g ∈ gs, IsFlag g)
    (hhead : ∀ g ∈ gs.head?, isVal (headOf g) = false → isZero (headOf g) = true) {w : Nat}
    (hread : readWidth (64 :: bytesOf gs) = some w) : w = width gs ∨ width gs + 125 ≤ w := by
  cases gs with
  | nil => exact nomatch hread
  | cons g gs =>
    have hrest : readWidth (bytesOf gs) = some (width gs) := readWidth_bytesOf fun f hf => hgs f (List.mem_cons_of_mem g hf)
    have hg := hhead g rfl
    rw [width_cons]
    cases hgs g List.mem_cons_self with
    | @val flag hval =>
      have hall : ∀ flag : Fin 256, isVal (UInt8.ofFin flag) = true →
          128 ≤ (UInt8.ofFin flag).toNat ∧ (valCnt (UInt8.ofFin flag)).toNat ≤ 4 := by decide +kernel
      obtain ⟨hlarge, hcnt⟩ := hall flag.toFin hval
      rw [bytesOf_cons, List.singleton_append, readWidth_swallows, hrest, Option.map_some, Option.some_inj] at hread
      right
      change 128 ≤ flag.toNat at hlarge
      change (valCnt flag).toNat ≤ 4 at hcnt
      dsimp only
      omega
    | @zero flag hzero =>
      have hall : ∀ flag : Fin 256, isZero (UInt8.ofFin flag) = true →
          (zeroCnt (UInt8.ofFin flag)).toNat = (UInt8.ofFin flag).toNat + 1 := by decide +kernel
      have hcnt : (zeroCnt flag).toNat = flag.toNat + 1 := hall flag.toFin hzero
      rw [bytesOf_cons, List.singleton_append, readWidth_swallows, hrest, Option.map_some, Option.some_inj] at hread
      left
      dsimp only
      rw [hcnt, hread]
    | @xzero flag hval hzero lsb =>
      rw [headOf_mk, hzero] at hg
      exact nomatch hg hval

/-- A part of 65 zeros on the right, with an `XZERO` flag behind it. -/
def ReadsOn (l : Located Bytes) : Prop :=
  l.block.cnt - l.offset - 1 = 65 ∧ ∃ g ∈ l.back.head?, isVal (headOf g) = false ∧ isZero (headOf g) = false

/-- But for the case that an `XZERO` flag stands behind it, a part of 65 zeros makes the sum wrong. -/
theorem Hll.SparseForm.parts_of_readWidth {l : Located Bytes} (hf : h.SparseForm (l.front ++ l.block :: l.back))
    (hoffset : l.offset < l.block.cnt) {v : Nat} (hpos : 1 ≤ v) (hv : v ≤ 32) (hnot : ¬ReadsOn l)
    (hval : isVal (headOf l.block) = false)
    (hread : readWidth (bytesOf (l.front ++ splitParts l v ++ l.back)) = some hllRegisterCnt) :
    l.offset ≠ 65 ∧ l.block.cnt - l.offset - 1 ≠ 65 := by
  obtain ⟨hblock, hwidth⟩ := hf.bounds
  have hmax : l.block.cnt ≤ hllRegisterCnt := by omega
  have htotal := hf.width
  rw [width_append, width_cons] at htotal
  have hfront : ∀ g ∈ l.front, IsFlag g := fun g hg => hf.flags g (List.mem_append_left _ hg)
  have hback : ∀ g ∈ l.back, IsFlag g := fun g hg => hf.flags g (List.mem_append_right _ (List.mem_cons_of_mem _ hg))
  have hparts : ∀ n < l.block.cnt, n ≠ 65 → ∀ g ∈ part (partBytes false (headOf l.block) n) n, IsFlag g := by
    intro n hn hne
    have hpart := isFlag_part hblock hn hmax fun _ => hne
    rwa [hval] at hpart
  have hlong : bytesOf (part (partBytes false (headOf l.block) 65) 65) = [64] := rfl
  -- what is read behind the flag of the register
  have hright : ∀ w, readWidth (bytesOf (part (partBytes false (headOf l.block) (l.block.cnt - l.offset - 1))
      (l.block.cnt - l.offset - 1)) ++ bytesOf l.back) = some w →
      (l.block.cnt - l.offset - 1 ≠ 65 ∧ w = l.block.cnt - l.offset - 1 + RunLength.width l.back) ∨
        l.block.cnt - l.offset - 1 = 65 ∧ (w = RunLength.width l.back ∨ RunLength.width l.back + 125 ≤ w) := by
    intro w hw
    by_cases hlen : l.block.cnt - l.offset - 1 = 65
    · rw [hlen, hlong] at hw
      refine .inr ⟨hlen, readWidth_behind hback (fun g hg hval' => ?_) hw⟩
      by_contra hzero
      exact hnot ⟨hlen, g, hg, hval', Bool.not_eq_true _ ▸ hzero⟩
    · rw [readWidth_append (hparts _ (by omega) hlen), readWidth_bytesOf hback, Option.map_some, Option.some_inj,
        width_part] at hw
      exact .inl ⟨hlen, hw.symm⟩
  rw [splitParts, hval, bytesOf_append, bytesOf_append, List.append_assoc, readWidth_append hfront] at hread
  obtain ⟨w, hw, hsum⟩ := Option.map_eq_some_iff.mp hread
  have hnew : (valFlag (UInt8.ofNat v - 1) 0).toNat = 128 + 4 * (v - 1) := by
    have hall : ∀ x : Fin 32, (valFlag (UInt8.ofNat x) 0).toNat = 128 + 4 * x := by decide +kernel
    rw [ofNat_pred hpos]
    exact hall ⟨v - 1, by omega⟩
  by_cases hlen : l.offset = 65
  · have hleft : bytesOf (part (partBytes false (headOf l.block) l.offset) l.offset) = [64] := by rw [hlen, hlong]
    rw [bytesOf_append, bytesOf_cons, hleft, List.append_assoc, List.append_assoc, List.singleton_append,
      List.singleton_append, readWidth_swallows, hnew] at hw
    obtain ⟨w', hw', rfl⟩ := Option.map_eq_some_iff.mp hw
    have hcases := hright w' hw'
    omega
  · have hfirst : ∀ g ∈ part (partBytes false (headOf l.block) l.offset) l.offset ++
        [⟨[valFlag (UInt8.ofNat v - 1) 0], 1⟩], IsFlag g := by
      intro g hg
      rcases List.mem_append.mp hg with hg | hg
      · exact hparts _ hoffset hlen g hg
      · cases List.mem_singleton.mp hg
        exact isFlag_new hpos hv
    rw [List.append_cons, bytesOf_append, List.append_assoc, readWidth_append hfirst, width_append, width_part,
      width_cons, width_nil] at hw
    obtain ⟨w', hw', rfl⟩ := Option.map_eq_some_iff.mp hw
    have hcases := hright w' hw'
    dsimp only at hsum
    omega

/-! ### What does not fit -/

/-- The loop takes nothing away where it would read behind the block. -/
theorem mergeAux_keeps {n p hllEnd : Nat} (hshort : h.mem.length ≤ hllEnd) (hrun : mergeAux n h p hllEnd = .ok h') :
    h' = h := by
  induction n generalizing p with
  | zero =>
    cases hrun
    rfl
  | succ n ih =>
    rcases mergeAux_round hrun with rfl | ⟨p', -, hrest⟩ | ⟨b, h₁, h₂, h₃, hlt, hput, hmove, -, -⟩
    · rfl
    · exact ih hrest
    · have hlen := (Hll.patched_of_put hput (Nat.zero_le _)).keeps.1
      have hfits := (Hll.patched_of_move hmove (Nat.zero_le _)).2.1
      omega

/-- The new flags fit into the block, and so did the old ones if any had to be moved. -/
theorem spliceFlags_fits {scan : SparseScan} {curr r : Nat} {tmp : Bytes} {old : Nat}
    (hold : (if scan.ixzero = true then (2 : Int) else 1) = old)
    (hrun : spliceFlags h scan curr tmp = .ok (h', r)) :
    curr + tmp.length ≤ h.mem.length ∧
      (∀ next, scan.next = some next → old ≤ next → tmp.length ≠ old →
        h.size ≤ h.mem.length ∧ next + tmp.length + (h.size - next) ≤ h.mem.length + old) ∧
      (tmp.length = old → h.mem.length < h.size → h'.mem.length < h'.size) := by
  rw [spliceFlags, hold] at hrun
  dsimp only at hrun
  obtain ⟨d, hd⟩ : ∃ d, d = (tmp.length : Int) - old := ⟨_, rfl⟩
  rw [← hd] at hrun
  obtain ⟨h₀, hh₀⟩ : ∃ h₀ : Hll, h₀ = { h with size := (h.size + d).toNat, free := toU64 (h.free - d) } := ⟨_, rfl⟩
  have hs₀ : h₀.size = (h.size + d).toNat := by rw [hh₀]
  have hm₀ : h₀.mem = h.mem := by rw [hh₀]
  rw [← hh₀] at hrun
  -- the copy of the new flags and what follows
  have htail : ∀ {h₁ : Hll}, Hll.Patched 0 h₀ h₁ → (do
      let hll ← h₁.store curr tmp
      let hll ← mergeAux 5 hll (scan.prev.getD hllHeaderSizeBytes) (h.size + d).toNat
      let hll ← invalidateCache hll
      .ok (hll, 1)) = .ok (h', r) →
      curr + tmp.length ≤ h.mem.length ∧ (tmp.length = old → h.mem.length < h.size → h'.mem.length < h'.size) := by
    intro h₁ hp₁ hrun
    obtain ⟨h₂, hstore, hrun⟩ := ok_of_bind hrun
    obtain ⟨h₃, hmerge, hrun⟩ := ok_of_bind hrun
    obtain ⟨h₄, hinv, hrun⟩ := ok_of_bind hrun
    cases hrun
    obtain ⟨hp₂, hle⟩ := Hll.patched_of_store hstore (Nat.zero_le _)
    rw [hp₁.keeps.1, hm₀] at hle
    refine ⟨hle, fun hlen hshort => ?_⟩
    have hp := hp₁.trans hp₂
    have hmem := hp.keeps.1
    have hsize := hp.size
    rw [hm₀] at hmem
    cases mergeAux_keeps (by omega) hmerge
    have hp₄ := (invalidateCache_spec hinv).1
    rw [hp₄.keeps.1, hp₄.size]
    omega
  split at hrun
  · next next hnext =>
    split at hrun
    · next hne =>
      obtain ⟨h₁, hmove, hrun⟩ := ok_of_bind hrun
      obtain ⟨hp, hsrc, hdst⟩ := Hll.patched_of_move hmove (Nat.zero_le _)
      obtain ⟨hstore, hshort⟩ := htail hp hrun
      rw [hm₀] at hsrc hdst
      refine ⟨hstore, fun next' hnext' hle hlen => ?_, hshort⟩
      rw [hnext] at hnext'
      cases hnext'
      omega
    · next heq =>
      obtain ⟨hstore, hshort⟩ := htail (Hll.Patched.refl 0 _) hrun
      exact ⟨hstore, fun _ _ _ hlen => absurd (by omega) heq, hshort⟩
  · next hnext =>
    obtain ⟨hstore, hshort⟩ := htail (Hll.Patched.refl 0 _) hrun
    refine ⟨hstore, fun next' hnext' => ?_, hshort⟩
    rw [hnext] at hnext'
    cases hnext'

/-- Where the scan finds no flag behind that of the register, it has read the last one. -/
theorem sparseScanAux_last {fuel regNo fn idx : Nat} {scan scan' : SparseScan}
    (hrun : sparseScanAux fuel h regNo fn idx scan = .ok scan') (hnext : scan'.next = none) :
    h.size ≤ fn ∨ h.size ≤ h.mem.length := by
  induction fuel generalizing fn idx scan with
  | zero => cases hrun
  | succ fuel ih =>
    rcases sparseScanAux_round hrun with ⟨hle, -⟩ | ⟨scan₁, idx₁, fn₁, -, -, hread, -, -, hcase⟩
    · exact .inl hle
    · right
      rcases hcase with ⟨-, rfl⟩ | ⟨-, hrest⟩
      · dsimp only at hnext
        split at hnext
        · cases hnext
        · omega
      · exact (ih hrest).elim (fun hle => by omega) id

/-- Where the reservation has cut the block off, the structure does not fit into it any more. -/
theorem addReserved_short {i r : Nat} {val : UInt8} (hshort : h.mem.length < h.size) (hsize : 16 < h.size)
    (hrun : addReserved h i val = .ok (h', r)) : h'.mem.length < h'.size := by
  have hinplace : ∀ {curr : Nat} {b : UInt8}, (do
      let hll ← h.put curr b
      let hll ← invalidateCache hll
      .ok (hll, 1)) = .ok (h', r) → h'.mem.length < h'.size := by
    intro curr b hrun
    obtain ⟨h₂, hput, hrun⟩ := ok_of_bind hrun
    obtain ⟨h₃, hinv, hrun⟩ := ok_of_bind hrun
    cases hrun
    have hp := (Hll.patched_of_put hput (Nat.zero_le curr)).trans ((invalidateCache_spec hinv).1.weaken (Nat.zero_le _))
    rw [hp.keeps.1, hp.size]
    exact hshort
  obtain ⟨scan, hscan, hrun⟩ := ok_of_bind hrun
  have hb : ScanBounds h scan := sparseScanAux_bounds (Nat.le_refl 16) .initial rfl hscan
  split at hrun
  · cases hrun
  · next curr hcurr =>
    obtain ⟨hlow, -, hbehind⟩ := hb.curr curr hcurr
    obtain ⟨flag, -, hrun⟩ := ok_of_bind hrun
    split at hrun
    · cases hrun
      exact hshort
    · split at hrun
      · exact hinplace hrun
      · split at hrun
        · exact hinplace hrun
        · obtain ⟨old, hold, hle⟩ : ∃ old : Nat, (if scan.ixzero = true then (2 : Int) else 1) = old ∧ old ≤ 2 := by
            split
            · exact ⟨2, rfl, Nat.le_refl 2⟩
            · exact ⟨1, rfl, by decide⟩
          obtain ⟨-, hmove, hkeep⟩ := spliceFlags_fits hold hrun
          cases hnext : scan.next with
          | none =>
            have hlast := sparseScanAux_last hscan hnext
            unfold hllHeaderSizeBytes at hlast
            omega
          | some next =>
            have hlt := (hbehind next hnext).1
            by_cases hlen : (splitFlags scan flag i val).length = old
            · exact hkeep hlen hshort
            · have hfits := (hmove next hnext (by omega) hlen).1
              omega

/-! ### An addition -/

/-- The flag that a register lies in. -/
def Hll.flagAt (h : Hll) (regNo : Nat) : Option (Located Bytes) := (parseFlags h.payload).bind fun fs => locate fs regNo

/-- The register has a `VAL` flag of its own, or a `VAL` flag whose value is not raised. -/
def InPlace (l : Located Bytes) (v : Nat) : Prop :=
  isVal (headOf l.block) = true ∧ (v ≤ (valValue (headOf l.block)).toNat + 1 ∨ l.block.cnt = 1)

/-- The register is the only one of a `ZERO` flag. -/
def LoneZero (l : Located Bytes) : Prop := isZero (headOf l.block) = true ∧ l.block.cnt = 1

/-- What is allocated behind the reservation holds the structure, as it is and with the new flags. -/
def Hll.HasRoom (h : Hll) (l : Located Bytes) (v : Nat) : Prop :=
  h.size ≤ reserved h ∧ (InPlace l v ∨ splitSize l v ≤ reserved h)

/-- The register can be written so that the flags stay flags for all registers. -/
structure Hll.Accepts (h : Hll) (l : Located Bytes) (v : Nat) : Prop where
  room : h.HasRoom l v
  many : ¬LoneZero l
  clean : InPlace l v ∨ SplitsCleanly l v

/-- The addition returns a well-formed structure. -/
def StaysWellFormed (junk : Nat → UInt8) (h : Hll) (regNo v : Nat) : Prop :=
  ∃ h' r, addSparse junk h regNo (UInt8.ofNat v) = .ok (h', r) ∧ h'.WellFormed

theorem valValue_ge_iff (flag : UInt8) {v : Nat} (hpos : 1 ≤ v) (hv : v ≤ 32) :
    valValue flag ≥ UInt8.ofNat v - 1 ↔ v ≤ (valValue flag).toNat + 1 := by
  rw [ofNat_pred hpos, ge_iff_le, UInt8.le_iff_toNat_le, UInt8.toNat_ofNat_of_lt' (show v - 1 < 256 by omega)]
  omega

theorem toNat_eq_one {b : UInt8} : b = 1 ↔ b.toNat = 1 := UInt8.toNat_inj.symm

/-- The cases of an addition. -/
theorem Hll.SparseForm.addReserved_eq {l : Located Bytes} (hf : h.SparseForm (l.front ++ l.block :: l.back)) {i : Nat}
    (hloc : locate (l.front ++ l.block :: l.back) i = some l) {v : Nat} :
    addReserved h i (UInt8.ofNat v - 1) =
      if isVal (headOf l.block) && valValue (headOf l.block) ≥ UInt8.ofNat v - 1 then .ok (h, 0)
      else if isVal (headOf l.block) && valCnt (headOf l.block) == 1 then do
        let hll ← h.put (16 + (bytesOf l.front).length)
          ((headOf l.block &&& (131 : UInt8)) ||| ((UInt8.ofNat v - 1) <<< (2 : UInt8)))
        let hll ← invalidateCache hll
        .ok (hll, 1)
      else if isZero (headOf l.block) && zeroCnt (headOf l.block) == 1 then do
        let hll ← h.put (16 + (bytesOf l.front).length) (valFlag (UInt8.ofNat v - 1) 1)
        let hll ← invalidateCache hll
        .ok (hll, 1)
      else spliceFlags h (foundFlag l 16 0 none) (16 + (bytesOf l.front).length) (bytesOf (splitParts l v)) := by
  obtain ⟨hblock, hwidth⟩ := hf.bounds
  obtain ⟨-, hi, hoffset⟩ := locate_spec hloc
  obtain ⟨hsize, -⟩ := hf.size
  have hlen := length_le_bytesOf hf.flags
  have hscan : sparseScanAux (h.size + 1) h i hllHeaderSizeBytes 0 {} = .ok (foundFlag l 16 0 none) :=
    sparseScanAux_finds hf.flags hf.drop_mem hsize (by rw [hf.width, Nat.zero_add]) (Nat.zero_le i)
      (by rw [Nat.sub_zero]; exact hloc) (by rw [hsize]; omega) ⟨rfl, rfl, rfl⟩
  have hhead : ∃ rest, l.block.value = headOf l.block :: rest := by
    cases hvalue : l.block.value with
    | nil => exact absurd hblock.length_pos (by rw [hvalue]; decide)
    | cons flag rest => exact ⟨rest, by rw [headOf, hvalue]; rfl⟩
  obtain ⟨rest, hrest⟩ := hhead
  have hget : h.get (16 + (bytesOf l.front).length) = .ok (headOf l.block) := by
    have hmem := hf.drop_mem
    rw [bytesOf_append, bytesOf_cons, List.append_assoc, hrest, List.append_assoc] at hmem
    exact Hll.get_of_drop (drop_add hmem)
  have hstart : (foundFlag l 16 0 none).start = RunLength.width l.front := Nat.zero_add _
  have hlast : (foundFlag l 16 0 none).last = RunLength.width l.front + l.block.cnt - 1 :=
    congrArg (· + l.block.cnt - 1) (Nat.zero_add _)
  rw [CustomRedis.addReserved, hscan, ok_bind]
  show (h.get (16 + (bytesOf l.front).length) >>= _) = _
  rw [hget, ok_bind, hi, splitFlags_parts hstart hlast hoffset hwidth]
  rfl

/-- The value of a `VAL` flag for one register is overwritten. -/
theorem isFlag_raised {flag : UInt8} (hval : isVal flag = true) (hone : (valCnt flag).toNat = 1) (value : UInt8) :
    IsFlag ⟨[(flag &&& (131 : UInt8)) ||| (value <<< (2 : UInt8))], 1⟩ := by
  have hall : ∀ flag : Fin 256, isVal (UInt8.ofFin flag) = true → (valCnt (UInt8.ofFin flag)).toNat = 1 →
      UInt8.ofFin flag &&& 131 = 128 := by decide +kernel
  have hbase : flag &&& 131 = 128 := hall flag.toFin hval hone
  have hnew : (flag &&& (131 : UInt8)) ||| (value <<< (2 : UInt8)) = valFlag value (UInt8.ofNat 0) := by
    rw [hbase, valFlag]
    exact (UInt8.or_zero).symm
  obtain ⟨hval', hcnt⟩ := valFlag_part value (show 0 < 4 by decide)
  have hflag := IsFlag.val hval'
  rw [hcnt] at hflag
  rw [hnew]
  exact hflag

theorem Hll.SparseForm.inPlace {l : Located Bytes} (hf : h.SparseForm (l.front ++ l.block :: l.back)) {i : Nat}
    (hloc : locate (l.front ++ l.block :: l.back) i = some l) {v : Nat} (hpos : 1 ≤ v) (hv : v ≤ 32) (hin : InPlace l v) :
    ∃ h' r, addReserved h i (UInt8.ofNat v - 1) = .ok (h', r) ∧ h'.WellFormed := by
  obtain ⟨hval, hcase⟩ := hin
  obtain ⟨hvalue, hcnt⟩ := hf.bounds.1.of_isVal hval
  rw [hf.addReserved_eq hloc, hval, Bool.true_and, Bool.true_and]
  by_cases hge : valValue (headOf l.block) ≥ UInt8.ofNat v - 1
  · rw [if_pos (decide_eq_true hge)]
    exact ⟨h, 0, rfl, _, hf⟩
  · have hone : l.block.cnt = 1 := hcase.resolve_left fun hle => hge ((valValue_ge_iff _ hpos hv).mpr hle)
    have hsingle : (valCnt (headOf l.block)).toNat = 1 := hcnt.symm.trans hone
    rw [if_neg (by rw [decide_eq_true_iff]; exact hge), if_pos (beq_iff_eq.mpr (toNat_eq_one.mpr hsingle))]
    obtain ⟨h', hrun, hform⟩ := hf.put_flag hvalue (isFlag_raised hval hsingle (UInt8.ofNat v - 1))
    exact ⟨h', 1, hrun, hform.mpr hone.symm⟩

/-- A `ZERO` flag for one register becomes a `VAL` flag for two. -/
theorem Hll.SparseForm.loneZero {l : Located Bytes} (hf : h.SparseForm (l.front ++ l.block :: l.back)) {i : Nat}
    (hloc : locate (l.front ++ l.block :: l.back) i = some l) {v : Nat} (hlone : LoneZero l) {r : Nat}
    (hrun : addReserved h i (UInt8.ofNat v - 1) = .ok (h', r)) : ¬h'.WellFormed := by
  obtain ⟨hzero, hone⟩ := hlone
  obtain ⟨hvalue, hcnt⟩ := hf.bounds.1.of_isZero hzero
  have hval := isVal_of_isZero hzero
  have hsingle : zeroCnt (headOf l.block) = 1 := toNat_eq_one.mpr (hcnt.symm.trans hone)
  rw [hf.addReserved_eq hloc, hval, hzero, Bool.false_and, Bool.false_and, if_neg Bool.false_ne_true,
    if_neg Bool.false_ne_true, hsingle, if_pos (show (true && (1 : UInt8) == 1) = true from rfl)] at hrun
  obtain ⟨hnew, htwo⟩ := valFlag_part (UInt8.ofNat v - 1) (show 1 < 4 by decide)
  have hflag := IsFlag.val hnew
  rw [htwo] at hflag
  obtain ⟨h'', hrun', hform⟩ := hf.put_flag hvalue hflag
  cases hrun.symm.trans hrun'
  rw [hform, hone]
  decide

/-- Everything else is split. -/
theorem Hll.SparseForm.split_eq {l : Located Bytes} (hf : h.SparseForm (l.front ++ l.block :: l.back)) {i : Nat}
    (hloc : locate (l.front ++ l.block :: l.back) i = some l) {v : Nat} (hpos : 1 ≤ v) (hv : v ≤ 32) (hin : ¬InPlace l v)
    (hmany : ¬LoneZero l) : addReserved h i (UInt8.ofNat v - 1) =
      spliceFlags h (foundFlag l 16 0 none) (16 + (bytesOf l.front).length) (bytesOf (splitParts l v)) := by
  have hraised : ¬(isVal (headOf l.block) && decide (valValue (headOf l.block) ≥ UInt8.ofNat v - 1)) = true := by
    rw [Bool.and_eq_true_iff, decide_eq_true_iff, valValue_ge_iff _ hpos hv]
    exact fun ⟨hval, hge⟩ => hin ⟨hval, .inl hge⟩
  have hshared : ¬(isVal (headOf l.block) && valCnt (headOf l.block) == 1) = true := by
    rw [Bool.and_eq_true_iff, beq_iff_eq, toNat_eq_one]
    exact fun ⟨hval, hone⟩ => hin ⟨hval, .inr ((hf.bounds.1.of_isVal hval).2.trans hone)⟩
  have hrun : ¬(isZero (headOf l.block) && zeroCnt (headOf l.block) == 1) = true := by
    rw [Bool.and_eq_true_iff, beq_iff_eq, toNat_eq_one]
    exact fun ⟨hzero, hone⟩ => hmany ⟨hzero, (hf.bounds.1.of_isZero hzero).2.trans hone⟩
  rw [hf.addReserved_eq hloc, if_neg hraised, if_neg hshared, if_neg hrun]

/-- Where the flag has been split, the new flags have found room. -/
theorem Hll.SparseForm.split_fits {l : Located Bytes} (hf : h.SparseForm (l.front ++ l.block :: l.back)) {v r : Nat}
    (hrun : spliceFlags h (foundFlag l 16 0 none) (16 + (bytesOf l.front).length) (bytesOf (splitParts l v)) =
      .ok (h', r)) : splitSize l v ≤ h.mem.length := by
  obtain ⟨-, hsize, hold, hnext⟩ := hf.around
  obtain ⟨hstore, hmove, -⟩ := spliceFlags_fits hold hrun
  have halloc := hf.alloc
  rw [splitSize, bytesOf_append, bytesOf_append, List.length_append, List.length_append]
  by_cases hlen : (bytesOf (splitParts l v)).length = l.block.value.length
  · omega
  · by_cases hnil : bytesOf l.back = []
    · rw [hnil, List.length_nil]
      omega
    · rw [if_neg hnil] at hnext
      have hfits := (hmove _ hnext (by omega) hlen).2
      omega

/-- A rank of at most 32 is added to a well-formed sparse structure. The flags stay well formed where there is room,
where the register is not in a `ZERO` flag of its own, and where a flag that has to be split is split into flags that
are read as they are meant with nothing to merge around them. The first two are necessary; and so is the last, where
nothing is merged and no `XZERO` flag stands behind a part of 65 zeros. -/
theorem addSparse_wellFormed (junk : Nat → UInt8) (hwf : h.WellFormed) (hsmall : h.size + 5 ≤ hllSparseMaxBytes)
    {regNo : Nat} (hreg : regNo < hllRegisterCnt) {v : Nat} (hpos : 1 ≤ v) (hv : v ≤ 32) :
    ∃ l, h.flagAt regNo = some l ∧ (h.Accepts l v → StaysWellFormed junk h regNo v) ∧
      (StaysWellFormed junk h regNo v → h.HasRoom l v ∧ ¬LoneZero l ∧
        (nothingToMerge 5 (mergeBytes l v) = true → ¬ReadsOn l → h.Accepts l v)) := by
  obtain ⟨fs, hform⟩ := hwf
  obtain ⟨l, hloc⟩ : ∃ l, locate fs regNo = some l := exists_locate (by rw [hform.width]; exact hreg)
  obtain ⟨hsize₁, hlen₁⟩ := hllReserve_length (h := h) junk hsmall
  have hsize := hform.size
  have hreserve := hform.reserve junk hsmall
  refine ⟨l, by rw [Hll.flagAt, hform.parse]; exact hloc, ?_⟩
  rw [StaysWellFormed, addSparse_eq junk hsmall hv]
  obtain ⟨rfl, -, hoffset⟩ := locate_spec hloc
  generalize hllReserve junk h (sparseReserve h) = h₁ at *
  constructor
  · rintro ⟨⟨hfits, hroom⟩, hmany, hclean⟩
    have hform₁ := hreserve hfits
    by_cases hin : InPlace l v
    · exact hform₁.inPlace hloc hpos hv hin
    · rw [hform₁.split_eq hloc hpos hv hin hmany]
      obtain ⟨hparts, hmerge⟩ := hclean.resolve_left hin
      obtain ⟨h', hrun, hwell⟩ := hform₁.splice (hlen₁ ▸ hroom.resolve_left hin) hmerge
      exact ⟨h', 1, hrun, hwell.mpr (hform₁.readWidth_split hoffset hpos hv hparts)⟩
  · rintro ⟨h', r, hrun, hwell⟩
    have hfits : h.size ≤ reserved h := by
      by_contra hshort
      have hcut := addReserved_short (by omega) (by omega) hrun
      obtain ⟨gs, hgs⟩ := hwell
      exact absurd hgs.alloc (Nat.not_le.mpr hcut)
    have hform₁ := hreserve hfits
    have hmany : ¬LoneZero l := fun hlone => hform₁.loneZero hloc hlone hrun hwell
    by_cases hin : InPlace l v
    · have hroom : h.HasRoom l v := ⟨hfits, .inl hin⟩
      exact ⟨hroom, hmany, fun _ _ => ⟨hroom, hmany, .inl hin⟩⟩
    · rw [hform₁.split_eq hloc hpos hv hin hmany] at hrun
      have hsplit := hform₁.split_fits hrun
      have hroom : h.HasRoom l v := ⟨hfits, .inr (hlen₁ ▸ hsplit)⟩
      refine ⟨hroom, hmany, fun hmerge hnot => ⟨hroom, hmany, .inr ⟨fun hval => ?_, hmerge⟩⟩⟩
      obtain ⟨h'', hrun', hwell'⟩ := hform₁.splice hsplit hmerge
      cases hrun.symm.trans hrun'
      exact hform₁.parts_of_readWidth hoffset hpos hv hnot hval (hwell'.mp hwell)

end Form

theorem addSparse_wellFormed_first : StaysWellFormed (fun _ => 0) hllInit 100 5 := by
  have hwf : hllInit.WellFormed := ⟨[⟨[127, 255], 16384⟩], by decide, by decide, by decide +kernel, by decide⟩
  obtain ⟨l, hl, hkeep, -⟩ := addSparse_wellFormed (fun _ => 0) hwf (by decide) (show 100 < hllRegisterCnt by decide)
    (show 1 ≤ 5 by decide) (by decide)
  have hflag : hllInit.flagAt 100 = some ⟨[], ⟨[127, 255], 16384⟩, [], 100⟩ := by decide +kernel
  cases hl.symm.trans hflag
  refine hkeep ⟨⟨by decide, .inr (by decide +kernel)⟩, ?_, .inr ⟨by decide, by decide +kernel⟩⟩
  rintro ⟨hzero, -⟩
  exact absurd hzero (by decide)

/-- The last register is left alone in its `ZERO` flag, and adding to it makes one register too many. -/
theorem addSparse_breaks_form : ∃ h, addSparse (fun _ => 0) hllInit 16382 5 = .ok (h, 1) ∧ h.WellFormed ∧
    h.size + 5 ≤ hllSparseMaxBytes ∧ ¬StaysWellFormed (fun _ => 0) h 16383 5 := by
  refine ⟨⟨hllHeader hllSparse ++ [127, 253, 144, 0, 0, 0, 0, 0, 0, 0, 0], 20, 22⟩, by decide +kernel, ?_, by decide, ?_⟩
  · exact ⟨[⟨[127, 253], 16382⟩, ⟨[144], 1⟩, ⟨[0], 1⟩], by decide, by decide, by decide +kernel, by decide⟩
  · rintro ⟨h', r, hrun, fs, hform⟩
    have hread : (addSparse (fun _ => 0) ⟨hllHeader hllSparse ++ [127, 253, 144, 0, 0, 0, 0, 0, 0, 0, 0], 20, 22⟩ 16383
        (UInt8.ofNat 5)).toOption.bind (fun x => (parseFlags x.1.payload).map width) = some 16385 := by decide +kernel
    rw [hrun, Except.toOption, Option.bind_some, hform.parse, Option.map_some, hform.width] at hread
    cases hread

/-- A part of 65 zeros in front of an `XZERO` flag for few registers can be read as the same number of registers in
other flags. -/
example : ((addSparse (fun _ => 0) ⟨hllHeader hllSparse ++ [64, 65, 64, 10, 127, 178, 0], 22, 0⟩ 0 5).toOption.bind
    fun x => (parseFlags x.1.payload).map width) = some 16384 := by decide +kernel

end CustomRedis
