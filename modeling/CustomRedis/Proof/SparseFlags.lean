import CustomRedis.Lib.RunLength
import CustomRedis.Proof.HllCache

/-!
# The flags of a sparse structure

The bytes of a sparse structure are flags, one behind the other, and each says for how many registers it stands.
`add_sparse` looks for the flag of a register and puts other bytes in its place, and then looks for `VAL` flags to
merge. Here this is followed for flags of any kind and length, as far as the loop finds nothing to merge.
-/

namespace CustomRedis

open Run (ok_bind ok_of_bind)
open RunLength

/-! ### Flags -/

/-- The bytes of a flag with the number of registers it stands for. -/
inductive IsFlag : Block Bytes → Prop
  | val {flag : UInt8} (hval : isVal flag = true) : IsFlag ⟨[flag], (valCnt flag).toNat⟩
  | zero {flag : UInt8} (hzero : isZero flag = true) : IsFlag ⟨[flag], (zeroCnt flag).toNat⟩
  | xzero {flag : UInt8} (hval : isVal flag = false) (hzero : isZero flag = false) (lsb : UInt8) :
      IsFlag ⟨[flag, lsb], xzeroCnt flag lsb⟩

/-- The first byte of a flag. -/
def headOf (f : Block Bytes) : UInt8 := f.value.headD 0

@[simp] theorem headOf_mk (flag : UInt8) (rest : Bytes) (cnt : Nat) : headOf ⟨flag :: rest, cnt⟩ = flag := rfl

def bytesOf (fs : List (Block Bytes)) : Bytes := fs.flatMap Block.value

@[simp] theorem bytesOf_nil : bytesOf [] = [] := rfl

@[simp] theorem bytesOf_cons (f : Block Bytes) (fs : List (Block Bytes)) : bytesOf (f :: fs) = f.value ++ bytesOf fs :=
  List.flatMap_cons

@[simp] theorem bytesOf_append (fs gs : List (Block Bytes)) : bytesOf (fs ++ gs) = bytesOf fs ++ bytesOf gs :=
  List.flatMap_append

theorem isZero_of_isVal {flag : UInt8} (hval : isVal flag = true) : isZero flag = false := by
  rw [isZero, Bool.and_eq_false_iff]
  exact .inl (bne_iff_ne.mp hval |> beq_eq_false_iff_ne.mpr)

theorem isVal_of_isZero {flag : UInt8} (hzero : isZero flag = true) : isVal flag = false := by
  cases hval : isVal flag with
  | false => rfl
  | true =>
    rw [isZero_of_isVal hval] at hzero
    cases hzero

theorem IsFlag.length_pos {f : Block Bytes} (h : IsFlag f) : 0 < f.value.length := by
  cases h <;> exact Nat.succ_pos _

theorem toNat_zeroCnt {flag : UInt8} (hzero : isZero flag = true) :
    (zeroCnt flag).toNat = flag.toNat + 1 ∧ (flag &&& 191).toNat = flag.toNat ∧ flag.toNat < 64 := by
  have hall : ∀ flag : Fin 256, isZero (UInt8.ofFin flag) = true →
      (zeroCnt (UInt8.ofFin flag)).toNat = (UInt8.ofFin flag).toNat + 1 ∧
        (UInt8.ofFin flag &&& 191).toNat = (UInt8.ofFin flag).toNat ∧ (UInt8.ofFin flag).toNat < 64 := by decide +kernel
  exact hall flag.toFin hzero

theorem IsFlag.cnt_pos {f : Block Bytes} (h : IsFlag f) : 0 < f.cnt := by
  have hall : ∀ flag : Fin 256, 0 < (valCnt (UInt8.ofFin flag)).toNat := by decide +kernel
  cases h with
  | @val flag _ => exact hall flag.toFin
  | zero hzero =>
    show 0 < (zeroCnt _).toNat
    rw [(toNat_zeroCnt hzero).1]
    exact Nat.succ_pos _
  | xzero _ _ _ => exact Nat.succ_pos _

theorem IsFlag.of_isVal {f : Block Bytes} (h : IsFlag f) (hval : isVal (headOf f) = true) :
    f.value = [headOf f] ∧ f.cnt = (valCnt (headOf f)).toNat := by
  cases h with
  | val _ => exact ⟨rfl, rfl⟩
  | zero hzero =>
    rw [headOf_mk, isVal_of_isZero hzero] at hval
    cases hval
  | xzero hnot _ _ =>
    rw [headOf_mk, hnot] at hval
    cases hval

theorem IsFlag.of_isZero {f : Block Bytes} (h : IsFlag f) (hzero : isZero (headOf f) = true) :
    f.value = [headOf f] ∧ f.cnt = (zeroCnt (headOf f)).toNat := by
  cases h with
  | zero _ => exact ⟨rfl, rfl⟩
  | val hval =>
    rw [headOf_mk, isZero_of_isVal hval] at hzero
    cases hzero
  | xzero _ hnot _ =>
    rw [headOf_mk, hnot] at hzero
    cases hzero

theorem IsFlag.length_eq {f : Block Bytes} (h : IsFlag f) :
    (if (!isVal (headOf f) && !isZero (headOf f)) = true then (2 : Int) else 1) = f.value.length := by
  cases h with
  | val hval =>
    rw [headOf_mk, hval]
    rfl
  | zero hzero =>
    rw [headOf_mk, hzero, Bool.not_true, Bool.and_false]
    rfl
  | xzero hval hzero lsb =>
    rw [headOf_mk, hval, hzero]
    rfl

theorem bytesOf_eq_nil {fs : List (Block Bytes)} (h : ∀ f ∈ fs, IsFlag f) : (bytesOf fs).length = 0 ↔ fs = [] := by
  cases fs with
  | nil => exact iff_of_true rfl rfl
  | cons f fs =>
    have hpos := (h f List.mem_cons_self).length_pos
    rw [bytesOf_cons, List.length_append]
    exact iff_of_false (by omega) (List.cons_ne_nil f fs)

theorem length_le_bytesOf {fs : List (Block Bytes)} (h : ∀ f ∈ fs, IsFlag f) : fs.length ≤ (bytesOf fs).length := by
  induction fs with
  | nil => exact Nat.le_refl 0
  | cons f fs ih =>
    have hpos := (h f List.mem_cons_self).length_pos
    have hle := ih fun g hg => h g (List.mem_cons_of_mem f hg)
    rw [bytesOf_cons, List.length_append, List.length_cons]
    omega

theorem length_le_width {fs : List (Block Bytes)} (h : ∀ f ∈ fs, IsFlag f) : fs.length ≤ width fs := by
  induction fs with
  | nil => exact Nat.le_refl 0
  | cons f fs ih =>
    have hpos := (h f List.mem_cons_self).cnt_pos
    have hle := ih fun g hg => h g (List.mem_cons_of_mem f hg)
    rw [List.length_cons, width_cons]
    omega

/-- The flags of a sequence of bytes, if it ends behind one. -/
def parseFlags : Bytes → Option (List (Block Bytes))
  | [] => some []
  | flag :: rest =>
    if isVal flag then (parseFlags rest).map (⟨[flag], (valCnt flag).toNat⟩ :: ·)
    else if isZero flag then (parseFlags rest).map (⟨[flag], (zeroCnt flag).toNat⟩ :: ·)
    else
      match rest with
      | [] => none
      | lsb :: rest => (parseFlags rest).map (⟨[flag, lsb], xzeroCnt flag lsb⟩ :: ·)

theorem parseFlags_append {fs : List (Block Bytes)} (h : ∀ f ∈ fs, IsFlag f) (bs : Bytes) :
    parseFlags (bytesOf fs ++ bs) = (parseFlags bs).map (fs ++ ·) := by
  induction fs with
  | nil => exact Option.map_id'.symm
  | cons f fs ih =>
    have hrest := ih fun g hg => h g (List.mem_cons_of_mem f hg)
    have hmap : (parseFlags bs).map (f :: fs ++ ·) = ((parseFlags bs).map (fs ++ ·)).map (f :: ·) := by
      rw [Option.map_map]
      rfl
    rw [bytesOf_cons, List.append_assoc, hmap, ← hrest]
    cases h f List.mem_cons_self with
    | @val flag hval =>
      rw [List.singleton_append, parseFlags.eq_def]
      simp only [hval, if_true]
    | @zero flag hzero =>
      rw [List.singleton_append, parseFlags.eq_def]
      simp only [isVal_of_isZero hzero, hzero, Bool.false_eq_true, if_false, if_true]
    | @xzero flag hval hzero lsb =>
      rw [List.cons_append, List.singleton_append, parseFlags.eq_def]
      simp only [hval, hzero, Bool.false_eq_true, if_false]

/-- The number of registers that the flags of a sequence of bytes stand for. -/
def readWidth (bs : Bytes) : Option Nat := (parseFlags bs).map width

theorem readWidth_append {fs : List (Block Bytes)} (h : ∀ f ∈ fs, IsFlag f) (bs : Bytes) :
    readWidth (bytesOf fs ++ bs) = (readWidth bs).map (width fs + ·) := by
  rw [readWidth, readWidth, parseFlags_append h, Option.map_map, Option.map_map]
  congr 1
  funext gs
  exact width_append fs gs

theorem readWidth_bytesOf {fs : List (Block Bytes)} (h : ∀ f ∈ fs, IsFlag f) : readWidth (bytesOf fs) = some (width fs) := by
  have happend := readWidth_append h []
  rwa [List.append_nil] at happend

theorem parseFlags_some {bs : Bytes} {fs : List (Block Bytes)} (h : parseFlags bs = some fs) :
    (∀ f ∈ fs, IsFlag f) ∧ bs = bytesOf fs := by
  have hcons : ∀ {f : Block Bytes} {rest : Bytes} {gs : List (Block Bytes)}, IsFlag f →
      ((∀ g ∈ gs, IsFlag g) ∧ rest = bytesOf gs) →
      (∀ g ∈ f :: gs, IsFlag g) ∧ f.value ++ rest = bytesOf (f :: gs) := by
    rintro f rest gs hf ⟨hgs, rfl⟩
    exact ⟨List.forall_mem_cons.mpr ⟨hf, hgs⟩, (bytesOf_cons f gs).symm⟩
  induction bs using parseFlags.induct generalizing fs with
  | case1 =>
    cases h
    exact ⟨nofun, rfl⟩
  | case2 flag rest hval ih =>
    rw [parseFlags.eq_def] at h
    simp only [hval, if_true] at h
    obtain ⟨gs, hgs, rfl⟩ := Option.map_eq_some_iff.mp h
    exact hcons (.val hval) (ih hgs)
  | case3 flag rest hval hzero ih =>
    rw [parseFlags.eq_def] at h
    simp only [hval, hzero, if_true, if_false, Bool.false_eq_true] at h
    obtain ⟨gs, hgs, rfl⟩ := Option.map_eq_some_iff.mp h
    exact hcons (.zero hzero) (ih hgs)
  | case4 flag hval hzero =>
    rw [parseFlags.eq_def] at h
    simp only [hval, hzero, if_false, Bool.false_eq_true] at h
    cases h
  | case5 flag hval hzero lsb rest ih =>
    rw [parseFlags.eq_def] at h
    simp only [hval, hzero, if_false, Bool.false_eq_true] at h
    obtain ⟨gs, hgs, rfl⟩ := Option.map_eq_some_iff.mp h
    exact hcons (.xzero (Bool.eq_false_iff.mpr hval) (Bool.eq_false_iff.mpr hzero) lsb) (ih hgs)

/-! ### The scan -/

section Reading

variable {h h' : Hll}

theorem getEnc_ok {b : UInt8} (henc : h.enc = some b) : getEnc h = .ok b := by
  rw [getEnc, Hll.get, show h.mem[4]? = some b from henc]

theorem Hll.get_of_drop {p : Nat} {b : UInt8} {rest : Bytes} (hmem : h.mem.drop p = b :: rest) : h.get p = .ok b := by
  have hget : h.mem[p]? = some b := by
    rw [← List.head?_drop, hmem]
    rfl
  rw [Hll.get, hget]

theorem drop_add {α : Type} {l front back : List α} {p : Nat} (h : l.drop p = front ++ back) :
    l.drop (p + front.length) = back := by
  rw [← List.drop_drop, h, List.drop_left]

/-- A loop that goes from one flag to the next is a fold over the flags. -/
theorem walk_flags {β γ : Type} (loop : Nat → Nat → β → M γ) (step : β → Block Bytes → M β) (last : β → γ)
    (hlast : ∀ fuel s, loop (fuel + 1) h.size s = .ok (last s)) {fs : List (Block Bytes)} (hfs : ∀ f ∈ fs, IsFlag f)
    (hround : ∀ f ∈ fs, ∀ {rest : Bytes} {fuel p : Nat} {s : β}, h.mem.drop p = f.value ++ rest → p < h.size →
      loop (fuel + 1) p s = step s f >>= loop fuel (p + f.value.length))
    {slack : Bytes} {fuel p : Nat} (hmem : h.mem.drop p = bytesOf fs ++ slack) (hsize : h.size = p + (bytesOf fs).length)
    (hfuel : fs.length < fuel) (s : β) :
    loop fuel p s = fs.foldlM step s >>= fun s' => .ok (last s') := by
  induction fs generalizing fuel p s with
  | nil =>
    obtain ⟨fuel, rfl⟩ := Nat.exists_eq_add_of_lt hfuel
    rw [bytesOf_nil, List.length_nil, Nat.add_zero] at hsize
    rw [← hsize, hlast]
    rfl
  | cons f fs ih =>
    obtain ⟨fuel, rfl⟩ := Nat.exists_eq_add_of_lt (Nat.lt_of_le_of_lt (Nat.zero_le _) hfuel)
    have hpos := (hfs f List.mem_cons_self).length_pos
    rw [bytesOf_cons, List.append_assoc] at hmem
    rw [bytesOf_cons, List.length_append, ← Nat.add_assoc] at hsize
    rw [List.length_cons] at hfuel
    rw [hround f List.mem_cons_self hmem (by omega), List.foldlM_cons]
    cases step s f with
    | error e => rfl
    | ok s' =>
      exact ih (fun g hg => hfs g (List.mem_cons_of_mem f hg)) (fun g hg => hround g (List.mem_cons_of_mem f hg))
        (drop_add hmem) hsize (by omega) s'

/-- What the scan leaves in its variables. -/
def foundFlag (l : Located Bytes) (fn idx : Nat) (prev : Option Nat) : SparseScan where
  start := idx + width l.front
  last := idx + width l.front + l.block.cnt - 1
  prev := if l.front = [] then prev else some (fn + (bytesOf l.front).length - 1)
  curr := some (fn + (bytesOf l.front).length)
  next := if l.back = [] then none else some (fn + (bytesOf l.front).length + l.block.value.length)
  ival := isVal (headOf l.block)
  izero := isZero (headOf l.block)
  ixzero := !isVal (headOf l.block) && !isZero (headOf l.block)

/-- The rest of a round of the scan, once the flag has been read. -/
theorem scan_round {fs : List (Block Bytes)} {f : Block Bytes} (hf : IsFlag f) (hfs : ∀ g ∈ fs, IsFlag g)
    {fuel fn idx regNo : Nat} {l : Located Bytes} {scan scan₁ : SparseScan}
    (hsize : h.size = fn + f.value.length + (bytesOf fs).length) (hidx : idx + f.cnt + width fs ≤ hllRegisterCnt)
    (hle : idx ≤ regNo) (hloc : locate (f :: fs) (regNo - idx) = some l)
    (hscan : scan₁ = { scan with
      curr := some fn, start := idx, ival := isVal (headOf f), izero := isZero (headOf f),
      ixzero := !isVal (headOf f) && !isZero (headOf f) })
    (hnext : idx + f.cnt ≤ regNo → ∀ l', locate fs (regNo - (idx + f.cnt)) = some l' →
      sparseScanAux fuel h regNo (fn + f.value.length) (idx + f.cnt)
        { scan₁ with prev := some (fn + f.value.length - 1), ival := false, izero := false, ixzero := false } =
      .ok (foundFlag l' (fn + f.value.length) (idx + f.cnt) (some (fn + f.value.length - 1)))) :
    (if (idx + f.cnt) % 2 ^ 32 > regNo then
      .ok { scan₁ with
        last := (idx + f.cnt) % 2 ^ 32 - 1
        next := if fn + f.value.length - 1 + 1 < h.size then some (fn + f.value.length - 1 + 1) else none }
    else
      sparseScanAux fuel h regNo (fn + f.value.length - 1 + 1) ((idx + f.cnt) % 2 ^ 32)
        { scan₁ with prev := some (fn + f.value.length - 1), ival := false, izero := false, ixzero := false }) =
      .ok (foundFlag l fn idx scan.prev) := by
  have hpos := hf.length_pos
  have hmod : (idx + f.cnt) % 2 ^ 32 = idx + f.cnt := by
    apply Nat.mod_eq_of_lt
    unfold hllRegisterCnt at hidx
    omega
  rw [hmod, Nat.sub_add_cancel (by omega)]
  by_cases hlt : regNo - idx < f.cnt
  · rw [locate_cons_lt hlt] at hloc
    cases hloc
    rw [if_pos (by omega), hscan, hsize]
    by_cases hnil : fs = []
    · rw [if_neg (by rw [(bytesOf_eq_nil hfs).mpr hnil]; omega), foundFlag]
      simp only [if_pos hnil]
      rfl
    · have hlen : (bytesOf fs).length ≠ 0 := fun hz => hnil ((bytesOf_eq_nil hfs).mp hz)
      rw [if_pos (by omega), foundFlag]
      simp only [if_neg hnil]
      rfl
  · rw [locate_cons_ge (by omega)] at hloc
    obtain ⟨l', hl', rfl⟩ := Option.map_eq_some_iff.mp hloc
    rw [if_neg (by omega), hnext (by omega) l' (by rw [← Nat.sub_sub]; exact hl')]
    congr 1
    unfold foundFlag
    by_cases hfront : l'.front = []
    · simp only [hfront, bytesOf_cons, bytesOf_nil, width_cons, width_nil, List.append_nil, List.length_nil,
        Nat.add_zero, if_true, List.cons_ne_nil, if_false]
    · simp only [hfront, bytesOf_cons, width_cons, List.length_append, Nat.add_assoc, List.cons_ne_nil, if_false]

/-- The scan finds the flag that the register lies in. -/
theorem sparseScanAux_finds {fs : List (Block Bytes)} (hfs : ∀ f ∈ fs, IsFlag f) {slack : Bytes} {fuel fn idx regNo : Nat}
    {l : Located Bytes} {scan : SparseScan} (hmem : h.mem.drop fn = bytesOf fs ++ slack)
    (hsize : h.size = fn + (bytesOf fs).length) (hidx : idx + width fs ≤ hllRegisterCnt) (hle : idx ≤ regNo)
    (hloc : locate fs (regNo - idx) = some l) (hfuel : fs.length < fuel)
    (hscan : scan.ival = false ∧ scan.izero = false ∧ scan.ixzero = false) :
    sparseScanAux fuel h regNo fn idx scan = .ok (foundFlag l fn idx scan.prev) := by
  induction fs generalizing fuel fn idx scan l with
  | nil => cases hloc
  | cons f fs ih =>
    cases fuel with
    | zero => cases hfuel
    | succ fuel =>
      obtain ⟨hival, hizero, hixzero⟩ := hscan
      have hf := hfs f List.mem_cons_self
      have hrest : ∀ g ∈ fs, IsFlag g := fun g hg => hfs g (List.mem_cons_of_mem f hg)
      rw [bytesOf_cons, List.append_assoc] at hmem
      rw [bytesOf_cons, List.length_append, ← Nat.add_assoc] at hsize
      rw [width_cons, ← Nat.add_assoc] at hidx
      have hpos := hf.length_pos
      have hround := fun scan₁ hscan₁ => @scan_round h fs f hf hrest fuel fn idx regNo l scan scan₁ hsize hidx hle hloc hscan₁
        fun hle' l' hl' => ih hrest (drop_add hmem) hsize hidx hle' hl' (Nat.lt_of_succ_lt_succ hfuel) ⟨rfl, rfl, rfl⟩
      rw [sparseScanAux, if_pos (by omega)]
      cases hf with
      | @val flag hval =>
        rw [Hll.get_of_drop hmem, ok_bind]
        simp only [hval, if_true, ok_bind]
        refine hround { scan with curr := some fn, start := idx, ival := true } ?_
        simp only [headOf_mk, hval, isZero_of_isVal hval, hizero, hixzero, Bool.not_true, Bool.false_and]
      | @zero flag hzero =>
        have hval := isVal_of_isZero hzero
        rw [Hll.get_of_drop hmem, ok_bind]
        simp only [hval, hzero, if_true, Bool.false_eq_true, if_false, ok_bind]
        refine hround { scan with curr := some fn, start := idx, izero := true } ?_
        simp only [headOf_mk, hval, hzero, hival, hixzero, Bool.not_true, Bool.and_false]
      | @xzero flag hval hzero lsb =>
        have hlsb : h.mem.drop (fn + 1) = lsb :: (bytesOf fs ++ slack) := by
          rw [← List.drop_drop, hmem]
          rfl
        rw [Hll.get_of_drop hmem, ok_bind]
        simp only [hval, hzero, Bool.false_eq_true, if_false, Hll.get_of_drop hlsb, ok_bind]
        refine hround { scan with curr := some fn, start := idx, ixzero := true } ?_
        simp only [headOf_mk, hval, hzero, hival, hizero, Bool.not_false, Bool.and_true]

/-! ### The merging loop -/

/-- Two bytes that the loop merges. -/
def melds (flag flag' : UInt8) : Bool :=
  isVal flag && (isVal flag' && valValue flag == valValue flag' && valCnt flag + valCnt flag' ≤ 4)

/-- The loop finds nothing to merge in its rounds over the bytes. -/
def nothingToMerge : Nat → Bytes → Bool
  | 0, _ => true
  | _ + 1, [] => true
  | n + 1, flag :: rest =>
    if isZero flag then nothingToMerge n rest
    else if !isVal flag then nothingToMerge n (rest.drop 1)
    else !(rest.head?.any (melds flag)) && nothingToMerge n rest

theorem mergeAux_nothing {n p hllEnd : Nat} {bytes slack : Bytes} (hmem : h.mem.drop p = bytes ++ slack)
    (hle : hllEnd ≤ p + bytes.length) (hend : bytes ≠ [] → hllEnd = p + bytes.length)
    (hnone : nothingToMerge n bytes = true) : mergeAux n h p hllEnd = .ok h := by
  induction n generalizing p bytes slack with
  | zero => rfl
  | succ n ih =>
    cases bytes with
    | nil =>
      rw [mergeAux, if_neg]
      exact Nat.not_lt.mpr hle
    | cons flag rest =>
      have hend := hend (List.cons_ne_nil flag rest)
      rw [List.length_cons] at hend
      have hrest : h.mem.drop (p + 1) = rest ++ slack := by
        rw [← List.drop_drop, hmem]
        rfl
      rw [nothingToMerge] at hnone
      rw [mergeAux, if_pos (by omega), Hll.get_of_drop hmem, ok_bind]
      by_cases hzero : isZero flag = true
      · rw [if_pos hzero] at hnone ⊢
        exact ih hrest (by omega) (fun _ => by omega) hnone
      · rw [if_neg hzero] at hnone ⊢
        by_cases hval : isVal flag = true
        · rw [hval, Bool.not_true, if_neg (by decide)] at hnone ⊢
          obtain ⟨hhead, hnone⟩ := Bool.and_eq_true_iff.mp hnone
          have hnext := ih hrest (by omega) (fun _ => by omega) hnone
          cases rest with
          | nil =>
            rw [if_neg (by rw [hend]; exact Nat.lt_irrefl _)]
            exact hnext
          | cons flag' rest =>
            rw [List.head?_cons, Option.any_some, melds, hval, Bool.true_and, Bool.not_eq_true'] at hhead
            rw [List.length_cons] at hend
            rw [if_pos (by omega), Hll.get_of_drop hrest, ok_bind]
            dsimp only
            rw [hhead, if_neg (by decide)]
            exact hnext
        · rw [Bool.not_eq_true] at hval
          rw [hval, Bool.not_false, if_pos rfl] at hnone ⊢
          have hdrop : h.mem.drop (p + 2) = rest.drop 1 ++ slack.drop (1 - rest.length) := by
            rw [← List.drop_append, ← hrest, List.drop_drop]
          have hlen : (rest.drop 1).length = rest.length - 1 := List.length_drop
          refine ih hdrop (by omega) (fun hne => ?_) hnone
          have hpos := List.length_pos_of_ne_nil hne
          omega

end Reading

/-! ### New flags in the place of an old one -/

section Writing

variable {h h' : Hll}

/-- The part of the block that belongs to the flags, and what stands around it. -/
theorem Hll.mem_split {bytes : Bytes} (hpayload : h.payload = bytes) (hsize : h.size = 16 + bytes.length) :
    h.mem = h.mem.take 16 ++ (bytes ++ h.mem.drop h.size) := by
  have hlen := congrArg List.length hpayload
  unfold Hll.payload hllHeaderSizeBytes at hpayload hlen
  rw [List.length_drop, List.length_take] at hlen
  have htake : h.mem.take h.size = h.mem.take 16 ++ bytes := by
    rw [← hpayload]
    have hfront : (h.mem.take h.size).take 16 = h.mem.take 16 := by
      rw [List.take_take, Nat.min_eq_left (by omega)]
    rw [← hfront, List.take_append_drop]
  rw [← List.append_assoc, ← htake, List.take_append_drop]

theorem Hll.payload_of_mem {front bytes back : Bytes} (hmem : h.mem = front ++ (bytes ++ back)) (hfront : front.length = 16)
    (hsize : h.size = 16 + bytes.length) : h.payload = bytes := by
  have hlen : (front ++ bytes).length = h.size := by rw [List.length_append, hfront, hsize]
  rw [Hll.payload, hmem, ← List.append_assoc, List.take_left' hlen]
  exact List.drop_left' hfront

theorem invalidateCache_ok (hheader : 16 ≤ h.mem.length) :
    ∃ h', invalidateCache h = .ok h' ∧ h'.payload = h.payload ∧ h'.size = h.size := by
  have hlt : 15 < h.mem.length := hheader
  refine ⟨{ h with mem := h.mem.set 15 (h.mem[15] ||| 128) }, ?_, ?_, rfl⟩
  · rw [invalidateCache, Hll.get, List.getElem?_eq_getElem hlt]
    exact if_pos hlt
  · refine Hll.payload_congr (by rfl) fun i hi _ => ?_
    exact List.getElem?_set_ne (by omega)

theorem Hll.put_at {front rest : Bytes} {b b' : UInt8} (hmem : h.mem = front ++ b :: rest) :
    h.put front.length b' = .ok { h with mem := front ++ b' :: rest } := by
  have hlt : front.length < h.mem.length := by
    rw [hmem, List.length_append, List.length_cons]
    omega
  rw [Hll.put, if_pos hlt, hmem, List.set_append_right _ _ (Nat.le_refl _), Nat.sub_self, List.set_cons_zero]

theorem Hll.store_at {front rest bs : Bytes} (hmem : h.mem = front ++ rest) (hlen : bs.length ≤ rest.length) :
    h.store front.length bs = .ok { h with mem := front ++ (bs ++ rest.drop bs.length) } := by
  have hle : front.length + bs.length ≤ h.mem.length := by
    rw [hmem, List.length_append]
    omega
  rw [Hll.store, if_pos hle, hmem, List.take_left, ← List.drop_drop, List.drop_left, List.append_assoc]

theorem Hll.move_at {front bs back front' rest : Bytes} (hmem : h.mem = front ++ (bs ++ back))
    (hmem' : h.mem = front' ++ rest) (hlen : bs.length ≤ rest.length) :
    h.move front'.length front.length bs.length = .ok { h with mem := front' ++ (bs ++ rest.drop bs.length) } := by
  have hle : front.length + bs.length ≤ h.mem.length := by
    rw [hmem, List.length_append, List.length_append]
    omega
  have hslice : (h.mem.drop front.length).take bs.length = bs := by rw [hmem, List.drop_left, List.take_left]
  rw [Hll.move, Hll.slice, if_pos hle, hslice, ok_bind, Hll.store_at hmem' hlen]

/-- The bytes behind the split flag move out of the way, if they have to. -/
theorem Hll.moved_ok {front old back slack : Bytes} {len : Nat} {delta : Int} (hmem : h.mem = front ++ (old ++ (back ++ slack)))
    (hroom : front.length + len + back.length ≤ h.mem.length) (hdelta : delta = (len : Int) - old.length) :
    ∃ mid slack', mid.length = len ∧ ∀ {β : Type} (k : Hll → M β),
      (match if back = [] then none else some (front.length + old.length) with
        | some next =>
          if delta ≠ 0 then h.move (next + delta).toNat next (front.length + old.length + back.length - next) >>= k
          else .ok h >>= k
        | none => .ok h >>= k) = k { h with mem := front ++ (mid ++ (back ++ slack')) } := by
  have hrest : (old ++ (back ++ slack)).length = h.mem.length - front.length := by
    have htotal := congrArg List.length hmem
    rw [List.length_append] at htotal
    exact (Nat.sub_eq_of_eq_add' htotal).symm
  have hmid : ((old ++ (back ++ slack)).take len).length = len := by
    rw [List.length_take, hrest]
    omega
  by_cases hnil : back = []
  · subst hnil
    refine ⟨_, (old ++ slack).drop len, hmid, fun k => ?_⟩
    simp only [if_true, List.nil_append, List.take_append_drop]
    rw [List.nil_append] at hmem
    rw [← hmem, ok_bind]
  · simp only [if_neg hnil]
    by_cases hzero : delta = 0
    · refine ⟨old, slack, by omega, fun k => ?_⟩
      rw [if_neg (by rw [hzero]; decide), ← hmem, ok_bind]
    · have hdst : ((front.length + old.length : Nat) + delta).toNat =
          (front ++ (old ++ (back ++ slack)).take len).length := by
        rw [List.length_append, hmid]
        omega
      have hsrc : front.length + old.length = (front ++ old).length := (List.length_append).symm
      have hbehind : h.mem = (front ++ old) ++ (back ++ slack) := by rw [List.append_assoc, hmem]
      have hbefore : h.mem = (front ++ (old ++ (back ++ slack)).take len) ++ (old ++ (back ++ slack)).drop len := by
        rw [List.append_assoc, List.take_append_drop, hmem]
      have hmove := Hll.move_at hbehind hbefore (by rw [List.length_drop, hrest]; omega)
      rw [List.append_assoc] at hmove
      refine ⟨_, ((old ++ (back ++ slack)).drop len).drop back.length, hmid, fun k => ?_⟩
      rw [if_pos hzero, hdst, Nat.add_sub_cancel_left, hsrc, hmove, ok_bind]

/-- The new flags take the place of the old one, and the loop goes over the result. -/
theorem spliceFlags_bytes {scan : SparseScan} {front old tmp back slack : Bytes}
    (hmem : h.mem = front ++ (old ++ (back ++ slack))) (hsize : h.size = front.length + old.length + back.length)
    (hroom : front.length + tmp.length + back.length ≤ h.mem.length)
    (hold : (if scan.ixzero = true then (2 : Int) else 1) = old.length)
    (hnext : scan.next = if back = [] then none else some (front.length + old.length)) :
    ∃ slack' h₂, h₂.mem = front ++ (tmp ++ (back ++ slack')) ∧ h₂.size = front.length + tmp.length + back.length ∧
      spliceFlags h scan front.length tmp = (do
        let hll ← mergeAux 5 h₂ (scan.prev.getD hllHeaderSizeBytes) h₂.size
        let hll ← invalidateCache hll
        .ok (hll, 1)) := by
  obtain ⟨delta, hdelta⟩ : ∃ d : Int, d = (tmp.length : Int) - old.length := ⟨_, rfl⟩
  obtain ⟨h₀, hh₀⟩ : ∃ h₀ : Hll, h₀ = { h with size := (h.size + delta).toNat, free := toU64 (h.free - delta) } := ⟨_, rfl⟩
  have hm₀ : h₀.mem = h.mem := by rw [hh₀]
  have hs₀ : h₀.size = (h.size + delta).toNat := by rw [hh₀]
  obtain ⟨mid, slack', hmid, hmoved⟩ := Hll.moved_ok (hm₀.trans hmem) (by rw [hm₀]; exact hroom) hdelta
  have hlen : tmp.length ≤ (mid ++ (back ++ slack')).length := by
    rw [List.length_append, hmid]
    exact Nat.le_add_right _ _
  have hstore := Hll.store_at (h := { h₀ with mem := front ++ (mid ++ (back ++ slack')) }) rfl hlen
  rw [List.drop_left' hmid] at hstore
  refine ⟨slack', { h₀ with mem := front ++ (tmp ++ (back ++ slack')) }, rfl, ?_, ?_⟩
  · show h₀.size = _
    omega
  · rw [← hsize] at hmoved
    rw [spliceFlags, hold, ← hdelta]
    dsimp only
    rw [hnext, ← hh₀]
    refine (hmoved fun hll => do
      let hll ← hll.store front.length tmp
      let hll ← mergeAux 5 hll (scan.prev.getD hllHeaderSizeBytes) (h.size + delta).toNat
      let hll ← invalidateCache hll
      .ok (hll, 1)).trans ?_
    rw [hstore, ok_bind, ← hs₀]

/-- The bytes for a part of a flag. -/
def partBytes (ival : Bool) (flag : UInt8) (cnt : Nat) : Bytes :=
  if ival then [valFlag (valValue flag) (UInt8.ofNat (cnt - 1))] else zeroFlags (cnt - 1)

theorem bytesOf_part (bytes : Bytes) (cnt : Nat) : bytesOf (part bytes cnt) = if cnt ≠ 0 then bytes else [] := by
  by_cases h : cnt = 0
  · rw [part, if_pos h, if_neg (not_not_intro h), bytesOf_nil]
  · rw [part, if_neg h, if_pos h, bytesOf_cons, bytesOf_nil, List.append_nil]

/-- The contents of `tmp`. -/
theorem splitFlags_parts {scan : SparseScan} {start cnt offset : Nat} (hstart : scan.start = start)
    (hlast : scan.last = start + cnt - 1) (hoffset : offset < cnt) (hmax : start + cnt ≤ 16384) (flag val : UInt8) :
    splitFlags scan flag (start + offset) val =
      bytesOf (part (partBytes scan.ival flag offset) offset ++ ⟨[valFlag val 0], 1⟩ ::
        part (partBytes scan.ival flag (cnt - offset - 1)) (cnt - offset - 1)) := by
  have hgap : ∀ a b : Nat, b < a → a ≤ 16384 → gap a b = a - b - 1 := by
    intro a b hlt hle
    unfold gap
    omega
  have hpart : ∀ {a b n : Nat}, n = a - b → b ≤ a → a ≤ 16384 →
      (if a ≠ b then (if scan.ival then [valFlag (valValue flag) (UInt8.ofNat (gap a b))] else zeroFlags (gap a b)) else []) =
        bytesOf (part (partBytes scan.ival flag n) n) := by
    rintro a b n rfl hle hmax
    rw [bytesOf_part]
    by_cases hab : a = b
    · rw [if_neg (not_not_intro hab), if_neg (by omega)]
    · rw [if_pos hab, if_pos (show a - b ≠ 0 by omega), hgap a b (by omega) hmax]
      rfl
  have hright : (if start + offset ≠ scan.last then (if scan.ival then
      [valFlag (valValue flag) (UInt8.ofNat (gap scan.last (start + offset)))] else zeroFlags (gap scan.last (start + offset)))
        else []) = bytesOf (part (partBytes scan.ival flag (cnt - offset - 1)) (cnt - offset - 1)) := by
    rw [← hpart (show cnt - offset - 1 = scan.last - (start + offset) by omega) (by omega) (by omega)]
    simp only [ne_comm]
  rw [splitFlags, bytesOf_append, bytesOf_cons, hstart, hright,
    ← hpart (show offset = start + offset - start by omega) (by omega) (by omega), List.append_assoc]

/-- `add_sparse` behind the reservation. -/
def addReserved (hll : Hll) (regNo : Nat) (val : UInt8) : M (Hll × Nat) := do
  let scan ← sparseScanAux (hll.size + 1) hll regNo hllHeaderSizeBytes 0 {}
  match scan.curr with
  | none => .error .nullLink
  | some curr => do
    let flag ← hll.get curr
    if scan.ival && valValue flag ≥ val then .ok (hll, 0)
    else if scan.ival && valCnt flag == 1 then do
      let hll ← hll.put curr ((flag &&& (131 : UInt8)) ||| (val <<< (2 : UInt8)))
      let hll ← invalidateCache hll
      .ok (hll, 1)
    else if scan.izero && zeroCnt flag == 1 then do
      let hll ← hll.put curr (valFlag val 1)
      let hll ← invalidateCache hll
      .ok (hll, 1)
    else spliceFlags hll scan curr (splitFlags scan flag regNo val)

theorem addSparse_eq (junk : Nat → UInt8) (hsize : h.size + 5 ≤ hllSparseMaxBytes) {v : Nat} (hv : v ≤ 32) (i : Nat) :
    addSparse junk h i (UInt8.ofNat v) = addReserved (hllReserve junk h (sparseReserve h)) i (UInt8.ofNat v - 1) := by
  have hsmall : ¬(UInt8.ofNat v > 32 ∨ h.size + 5 > hllSparseMaxBytes) := by
    rintro (hlarge | hlarge)
    · rw [gt_iff_lt, UInt8.lt_iff_toNat_lt, UInt8.toNat_ofNat_of_lt' (by exact Nat.lt_of_le_of_lt hv (by decide))] at hlarge
      exact absurd hlarge (Nat.not_lt.mpr hv)
    · omega
  rw [addSparse, if_neg hsmall]
  rfl

end Writing

end CustomRedis
