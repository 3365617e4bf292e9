import CustomRedis.Proof.SparseFlags

/-!
# The sparse encoding of the registers

The flags of a sparse structure are a run-length code of its registers. `add_sparse` looks for the flag of a register
and writes the register into it; the other flags move. Here this is followed through the bytes for the flags that the
function writes correctly: a `VAL` flag for one register, a `ZERO` flag for up to 64 and an `XZERO` flag for more
than 65.
-/

namespace CustomRedis

open Run (ok_bind ok_of_bind)
open RunLength

/-! ### Flags and bytes -/

/-- The flags in the bytes of a sparse structure, in the way in which its readers go through them. -/
def flagsOf : Bytes → List (Block Nat)
  | [] => []
  | flag :: rest =>
    if isVal flag then ⟨(valValue flag).toNat, (valCnt flag).toNat⟩ :: flagsOf rest
    else if isZero flag then ⟨0, (zeroCnt flag).toNat⟩ :: flagsOf rest
    else
      match rest with
      | [] => []
      | lsb :: rest => ⟨0, xzeroCnt flag lsb⟩ :: flagsOf rest

def flagBytes (b : Block Nat) : Bytes :=
  if b.value = 0 then zeroFlags (b.cnt - 1) else [valFlag (UInt8.ofNat (b.value - 1)) 0]

def encode (bs : List (Block Nat)) : Bytes := bs.flatMap flagBytes

@[simp] theorem encode_nil : encode [] = [] := rfl

@[simp] theorem encode_cons (b : Block Nat) (bs : List (Block Nat)) : encode (b :: bs) = flagBytes b ++ encode bs :=
  List.flatMap_cons

@[simp] theorem encode_append (bs cs : List (Block Nat)) : encode (bs ++ cs) = encode bs ++ encode cs :=
  List.flatMap_append

/-- The flags that are read as they were written. -/
inductive Coded : Block Nat → Prop
  | val {x : Nat} (hx : x < 32) : Coded ⟨x + 1, 1⟩
  | zero {n : Nat} (hn : n < 64) : Coded ⟨0, n + 1⟩
  | xzero {n : Nat} (hlow : 64 < n) (hhigh : n < 16384) : Coded ⟨0, n + 1⟩

theorem flagBytes_val (x : Nat) : flagBytes ⟨x + 1, 1⟩ = [valFlag (UInt8.ofNat x) 0] := rfl

theorem flagBytes_zero {n : Nat} (hn : n < 64) : flagBytes ⟨0, n + 1⟩ = [UInt8.ofNat n] := by
  rw [flagBytes, if_pos rfl, zeroFlags, if_neg]
  · rfl
  · show ¬n > 64
    omega

theorem flagBytes_xzero {n : Nat} (hn : 64 < n) :
    flagBytes ⟨0, n + 1⟩ = [(64 : UInt8) ||| UInt8.ofNat (n / 256), UInt8.ofNat n] := by
  rw [flagBytes, if_pos rfl, zeroFlags, if_pos]
  · rfl
  · exact hn

theorem valFlag_read {x : Nat} (hx : x < 32) :
    isVal (valFlag (UInt8.ofNat x) 0) = true ∧ isZero (valFlag (UInt8.ofNat x) 0) = false ∧
      valValue (valFlag (UInt8.ofNat x) 0) = UInt8.ofNat (x + 1) ∧ valCnt (valFlag (UInt8.ofNat x) 0) = 1 := by
  have hall : ∀ x : Fin 32, isVal (valFlag (UInt8.ofNat x) 0) = true ∧ isZero (valFlag (UInt8.ofNat x) 0) = false ∧
      valValue (valFlag (UInt8.ofNat x) 0) = UInt8.ofNat (x + 1) ∧ valCnt (valFlag (UInt8.ofNat x) 0) = 1 := by
    decide +kernel
  exact hall ⟨x, hx⟩

theorem zeroFlag_read {n : Nat} (hn : n < 64) :
    isVal (UInt8.ofNat n) = false ∧ isZero (UInt8.ofNat n) = true ∧ (zeroCnt (UInt8.ofNat n)).toNat = n + 1 := by
  have hall : ∀ n : Fin 64, isVal (UInt8.ofNat n) = false ∧ isZero (UInt8.ofNat n) = true ∧
      (zeroCnt (UInt8.ofNat n)).toNat = n + 1 := by decide +kernel
  exact hall ⟨n, hn⟩

theorem xzeroFlag_read {n : Nat} (hn : n < 16384) :
    isVal ((64 : UInt8) ||| UInt8.ofNat (n / 256)) = false ∧ isZero ((64 : UInt8) ||| UInt8.ofNat (n / 256)) = false ∧
      xzeroCnt ((64 : UInt8) ||| UInt8.ofNat (n / 256)) (UInt8.ofNat n) = n + 1 := by
  have hall : ∀ q : Fin 64, isVal ((64 : UInt8) ||| UInt8.ofNat q) = false ∧ isZero ((64 : UInt8) ||| UInt8.ofNat q) = false ∧
      (((64 : UInt8) ||| UInt8.ofNat q) &&& 191).toNat = q := by decide +kernel
  obtain ⟨hval, hzero, hmsb⟩ := hall ⟨n / 256, by omega⟩
  refine ⟨hval, hzero, ?_⟩
  rw [xzeroCnt, hmsb, UInt8.toNat_ofNat']
  show n / 256 * 256 + n % 256 + 1 = n + 1
  omega

theorem Coded.cnt_le {b : Block Nat} (h : Coded b) : b.cnt ≤ 16384 := by
  cases h with
  | val hx => exact Nat.succ_le_succ (Nat.zero_le _)
  | zero hn => exact Nat.le_trans (Nat.succ_le_of_lt hn) (by decide)
  | xzero hlow hhigh => exact hhigh

theorem Coded.single {b : Block Nat} (h : Coded b) (hne : b.value ≠ 0) : b.cnt = 1 ∧ (flagBytes b).length = 1 := by
  cases h with
  | val hx => exact ⟨rfl, rfl⟩
  | zero hn => exact absurd rfl hne
  | xzero hlow hhigh => exact absurd rfl hne

theorem Coded.length_pos {b : Block Nat} (h : Coded b) : 0 < (flagBytes b).length := by
  cases h with
  | val hx => exact Nat.one_pos
  | zero hn =>
    rw [flagBytes_zero hn]
    exact Nat.one_pos
  | xzero hlow hhigh =>
    rw [flagBytes_xzero hlow]
    exact Nat.two_pos

theorem flagsOf_cons (flag : UInt8) (rest : Bytes) : flagsOf (flag :: rest) =
    if isVal flag then ⟨(valValue flag).toNat, (valCnt flag).toNat⟩ :: flagsOf rest
    else if isZero flag then ⟨0, (zeroCnt flag).toNat⟩ :: flagsOf rest
    else
      match rest with
      | [] => []
      | lsb :: rest => ⟨0, xzeroCnt flag lsb⟩ :: flagsOf rest := by
  rw [flagsOf.eq_def]
  rfl

theorem flagsOf_flagBytes {b : Block Nat} (h : Coded b) (rest : Bytes) :
    flagsOf (flagBytes b ++ rest) = b :: flagsOf rest := by
  cases h with
  | @val x hx =>
    obtain ⟨hval, -, hvalue, hcnt⟩ := valFlag_read hx
    rw [flagBytes_val, List.singleton_append, flagsOf_cons, if_pos hval, hvalue, hcnt,
      UInt8.toNat_ofNat_of_lt' (by exact Nat.lt_of_lt_of_le (Nat.succ_lt_succ hx) (by decide))]
    rfl
  | @zero n hn =>
    obtain ⟨hval, hzero, hcnt⟩ := zeroFlag_read hn
    rw [flagBytes_zero hn, List.singleton_append, flagsOf_cons, if_neg (by rw [hval]; decide), if_pos hzero, hcnt]
  | @xzero n hlow hhigh =>
    obtain ⟨hval, hzero, hcnt⟩ := xzeroFlag_read hhigh
    rw [flagBytes_xzero hlow, List.cons_append, List.singleton_append, flagsOf_cons, if_neg (by rw [hval]; decide),
      if_neg (by rw [hzero]; decide)]
    dsimp only
    rw [hcnt]

/-- The flags are read back from their bytes. -/
theorem flagsOf_encode {bs : List (Block Nat)} (h : ∀ b ∈ bs, Coded b) : flagsOf (encode bs) = bs := by
  induction bs with
  | nil => rfl
  | cons b bs ih =>
    rw [encode_cons, flagsOf_flagBytes (h b List.mem_cons_self), ih fun c hc => h c (List.mem_cons_of_mem b hc)]

/-! ### The scan -/

section Reading

variable {h h' : Hll}

/-- What the scan leaves in its variables. -/
def foundScan (l : Located Nat) (fn idx : Nat) (prev : Option Nat) : SparseScan where
  start := idx + width l.front
  last := idx + width l.front + l.block.cnt - 1
  prev := if l.front = [] then prev else some (fn + (encode l.front).length - 1)
  curr := some (fn + (encode l.front).length)
  next := if l.back = [] then none else some (fn + (encode l.front).length + (flagBytes l.block).length)
  ival := l.block.value ≠ 0
  izero := l.block.value = 0 ∧ l.block.cnt ≤ 64
  ixzero := l.block.value = 0 ∧ 64 < l.block.cnt

/-- The flag in bytes. -/
abbrev flagOf : Block Nat → Block Bytes := Block.withValue flagBytes

theorem bytesOf_flagOf (bs : List (Block Nat)) : bytesOf (bs.map flagOf) = encode bs :=
  List.flatMap_map flagOf Block.value bs

theorem Coded.isFlag {b : Block Nat} (h : Coded b) : IsFlag (flagOf b) := by
  cases h with
  | @val x hx =>
    obtain ⟨hval, -, -, hcnt⟩ := valFlag_read hx
    have hflag := IsFlag.val hval
    rw [hcnt] at hflag
    exact hflag
  | @zero n hn =>
    obtain ⟨-, hzero, hcnt⟩ := zeroFlag_read hn
    have hflag := IsFlag.zero hzero
    rw [hcnt] at hflag
    rw [flagOf, Block.withValue, flagBytes_zero hn]
    exact hflag
  | @xzero n hlow hhigh =>
    obtain ⟨hval, hzero, hcnt⟩ := xzeroFlag_read hhigh
    have hflag := IsFlag.xzero hval hzero (UInt8.ofNat n)
    rw [hcnt] at hflag
    rw [flagOf, Block.withValue, flagBytes_xzero hlow]
    exact hflag

theorem isFlag_map {bs : List (Block Nat)} (h : ∀ b ∈ bs, Coded b) : ∀ f ∈ bs.map flagOf, IsFlag f := by
  intro f hf
  obtain ⟨b, hb, rfl⟩ := List.mem_map.mp hf
  exact (h b hb).isFlag

theorem encode_eq_nil {bs : List (Block Nat)} (h : ∀ b ∈ bs, Coded b) : (encode bs).length = 0 ↔ bs = [] := by
  rw [← bytesOf_flagOf, bytesOf_eq_nil (isFlag_map h), List.map_eq_nil_iff]

/-- The variables hold what the flags say. -/
theorem foundFlag_withValue {l : Located Nat} (hb : Coded l.block) (fn idx : Nat) (prev : Option Nat) :
    foundFlag (l.withValue flagBytes) fn idx prev = foundScan l fn idx prev := by
  have hread : isVal (headOf (flagOf l.block)) = decide (l.block.value ≠ 0) ∧
      isZero (headOf (flagOf l.block)) = decide (l.block.value = 0 ∧ l.block.cnt ≤ 64) ∧
      (!isVal (headOf (flagOf l.block)) && !isZero (headOf (flagOf l.block))) =
        decide (l.block.value = 0 ∧ 64 < l.block.cnt) := by
    rcases l with ⟨front, block, back, offset⟩
    cases hb with
    | @val x hx =>
      obtain ⟨hval, hzero, -, -⟩ := valFlag_read hx
      simp [headOf, Block.withValue, flagBytes_val, hval, hzero]
    | @zero n hn =>
      obtain ⟨hval, hzero, -⟩ := zeroFlag_read hn
      simp [headOf, Block.withValue, flagBytes_zero hn, hval, hzero, Nat.succ_le_of_lt hn]
      omega
    | @xzero n hlow hhigh =>
      obtain ⟨hval, hzero, -⟩ := xzeroFlag_read hhigh
      simp [headOf, Block.withValue, flagBytes_xzero hlow, hval, hzero]
      omega
  obtain ⟨hval, hzero, hxzero⟩ := hread
  unfold foundFlag foundScan Located.withValue
  dsimp only
  rw [hxzero, hval, hzero, width_withValue, bytesOf_flagOf]
  simp only [List.map_eq_nil_iff, Block.withValue]

/-- The scan finds the flag that the register lies in. -/
theorem sparseScanAux_found {bs : List (Block Nat)} (hbs : ∀ b ∈ bs, Coded b) {slack : Bytes} {fuel fn idx regNo : Nat}
    {l : Located Nat} {scan : SparseScan} (hmem : h.mem.drop fn = encode bs ++ slack)
    (hsize : h.size = fn + (encode bs).length) (hidx : idx + width bs ≤ hllRegisterCnt) (hle : idx ≤ regNo)
    (hloc : locate bs (regNo - idx) = some l) (hfuel : bs.length < fuel)
    (hscan : scan.ival = false ∧ scan.izero = false ∧ scan.ixzero = false) :
    sparseScanAux fuel h regNo fn idx scan = .ok (foundScan l fn idx scan.prev) := by
  have hblock : Coded l.block := by
    obtain ⟨rfl, -, -⟩ := locate_spec hloc
    exact hbs _ (List.mem_append_right _ List.mem_cons_self)
  rw [← foundFlag_withValue hblock]
  rw [← bytesOf_flagOf] at hmem hsize
  refine sparseScanAux_finds (isFlag_map hbs) hmem hsize ?_ hle ?_ ?_ hscan
  · rw [width_withValue]
    exact hidx
  · rw [locate_withValue, hloc]
    rfl
  · rw [List.length_map]
    exact hfuel

/-! ### The merging loop -/

/-- Two flags that the merging loop leaves as they are. -/
def Unlike (b c : Block Nat) : Prop := b.value = c.value → b.value = 0

instance : DecidableRel Unlike := fun b c => inferInstanceAs (Decidable (b.value = c.value → b.value = 0))

/-- The first byte of a flag tells whether it is a `VAL` flag, and of which value. -/
theorem Coded.first {b : Block Nat} (h : Coded b) : ∃ flag rest, flagBytes b = flag :: rest ∧
    (isVal flag = true → b.value ≠ 0 ∧ b.value ≤ 32 ∧ valValue flag = UInt8.ofNat b.value) := by
  cases h with
  | @val x hx => exact ⟨_, [], rfl, fun _ => ⟨Nat.succ_ne_zero x, hx, (valFlag_read hx).2.2.1⟩⟩
  | @zero n hn =>
    refine ⟨_, [], flagBytes_zero hn, fun hval => ?_⟩
    rw [(zeroFlag_read hn).1] at hval
    cases hval
  | @xzero n hlow hhigh =>
    refine ⟨_, [_], flagBytes_xzero hlow, fun hval => ?_⟩
    rw [(xzeroFlag_read hhigh).1] at hval
    cases hval

/-- A `VAL` flag is not merged with what follows it. -/
theorem not_merged {x : Nat} (hx : x < 32) {c : Block Nat} (hc : Coded c) (hne : Unlike ⟨x + 1, 1⟩ c) {flag : UInt8}
    {rest : Bytes} (hflag : flagBytes c = flag :: rest) : melds (valFlag (UInt8.ofNat x) 0) flag = false := by
  rw [melds]
  cases hval : isVal flag with
  | false => exact Bool.and_false _
  | true =>
    obtain ⟨flag', rest', hflag', hread⟩ := hc.first
    cases hflag.symm.trans hflag'
    obtain ⟨-, hle, hvalue⟩ := hread hval
    have hdiff : valValue (valFlag (UInt8.ofNat x) 0) ≠ valValue flag := by
      rw [(valFlag_read hx).2.2.1, hvalue]
      intro heq
      have hnat := congrArg UInt8.toNat heq
      rw [UInt8.toNat_ofNat_of_lt' (by exact Nat.lt_of_lt_of_le (Nat.succ_lt_succ hx) (by decide)),
        UInt8.toNat_ofNat_of_lt' (by exact Nat.lt_of_le_of_lt hle (by decide))] at hnat
      exact Nat.succ_ne_zero x (hne hnat)
    rw [beq_false_of_ne hdiff]
    exact Bool.and_false _

theorem nothingToMerge_unlike {bs : List (Block Nat)} (hbs : ∀ b ∈ bs, Coded b) {n : Nat}
    (hunlike : (bs.take (n + 1)).IsChain Unlike) : nothingToMerge n (encode bs) = true := by
  induction n generalizing bs with
  | zero => rfl
  | succ n ih =>
    cases bs with
    | nil => rfl
    | cons b bs =>
      have hrest : ∀ c ∈ bs, Coded c := fun c hc => hbs c (List.mem_cons_of_mem b hc)
      rw [List.take_succ_cons] at hunlike
      have hnext := ih hrest hunlike.tail
      rw [encode_cons]
      cases hbs b List.mem_cons_self with
      | @val x hx =>
        obtain ⟨hval, hzero, -, -⟩ := valFlag_read hx
        rw [flagBytes_val, List.singleton_append, nothingToMerge, hzero, hval, if_neg (by decide), if_neg (by decide),
          hnext, Bool.and_true]
        cases bs with
        | nil => rfl
        | cons c cs =>
          have hc := hrest c List.mem_cons_self
          obtain ⟨flag, rest, hflag, -⟩ := hc.first
          rw [encode_cons, hflag, List.cons_append, List.head?_cons, Option.any_some,
            not_merged hx hc (by rw [List.take_succ_cons] at hunlike; exact hunlike.rel) hflag]
          rfl
      | @zero m hm =>
        rw [flagBytes_zero hm, List.singleton_append, nothingToMerge, if_pos (zeroFlag_read hm).2.1]
        exact hnext
      | @xzero m hlow hhigh =>
        obtain ⟨hval, hzero, -⟩ := xzeroFlag_read hhigh
        rw [flagBytes_xzero hlow, List.cons_append, List.singleton_append, nothingToMerge, hzero, hval,
          if_neg (by decide), if_pos (by decide)]
        exact hnext

/-- Where no two `VAL` flags of the same value stand side by side, the loop changes nothing. -/
theorem mergeAux_unlike {bs : List (Block Nat)} (hbs : ∀ b ∈ bs, Coded b) {slack : Bytes} {scanlen p hllEnd : Nat}
    (hmem : h.mem.drop p = encode bs ++ slack) (hend : hllEnd = p + (encode bs).length)
    (hunlike : (bs.take (scanlen + 1)).IsChain Unlike) : mergeAux scanlen h p hllEnd = .ok h :=
  mergeAux_nothing hmem (Nat.le_of_eq hend) (fun _ => hend) (nothingToMerge_unlike hbs hunlike)

end Reading

/-! ### Writing a register -/

section Writing

variable {h h' : Hll}

/-- The flags that the merging loop goes through: those from the one before the split flag on. -/
def mergeWindow (l : Located Nat) (v : Nat) : List (Block Nat) :=
  l.front.getLast?.toList ++ split l.block l.offset v ++ l.back

theorem length_flagBytes {b : Block Nat} (h : Coded b) (hzero : b.value = 0) :
    (flagBytes b).length = if 64 < b.cnt then 2 else 1 := by
  cases h with
  | val hx => cases hzero
  | zero hn =>
    rw [flagBytes_zero hn, if_neg (by exact Nat.not_lt.mpr hn)]
    rfl
  | xzero hlow hhigh =>
    rw [flagBytes_xzero hlow, if_pos (by exact Nat.lt_succ_of_lt hlow)]
    rfl

/-- The merging loop starts at the flag before the split one, if that is a `VAL` flag. -/
theorem mergeWindow_at {l : Located Nat} {v : Nat} (hfront : ∀ b ∈ l.front, Coded b)
    (hlast : ∀ b ∈ l.front.getLast?, b.value ≠ 0) {mem head slack : Bytes} (hhead : head.length = 16)
    (hmem : mem = (head ++ encode l.front) ++ (encode (split l.block l.offset v) ++ (encode l.back ++ slack))) :
    mem.drop ((foundScan l 16 0 none).prev.getD hllHeaderSizeBytes) = encode (mergeWindow l v) ++ slack ∧
      16 + (encode (l.write v)).length =
        (foundScan l 16 0 none).prev.getD hllHeaderSizeBytes + (encode (mergeWindow l v)).length := by
  rw [mergeWindow, Located.write, foundScan]
  dsimp only
  rcases List.eq_nil_or_concat l.front with hnil | ⟨init, b, hinit⟩
  · rw [hnil] at hmem ⊢
    rw [if_pos rfl, hmem]
    refine ⟨?_, rfl⟩
    rw [encode_nil, List.append_nil]
    refine (List.drop_left' hhead).trans ?_
    rw [List.getLast?_nil, Option.toList_none, List.nil_append, encode_append, List.append_assoc]
  · rw [List.concat_eq_append] at hinit
    rw [hinit] at hmem hlast hfront ⊢
    rw [List.getLast?_concat] at hlast
    have hb := hfront b (List.mem_append_right init (List.mem_singleton_self b))
    have hone := (hb.single (hlast b rfl)).2
    have hlen : (encode (init ++ [b])).length = (encode init).length + 1 := by
      rw [encode_append, encode_cons, encode_nil, List.append_nil, List.length_append, hone]
    rw [if_neg (by simp), Option.getD_some, hlen, List.getLast?_concat, Option.toList_some]
    constructor
    · have hpos : 16 + ((encode init).length + 1) - 1 = (head ++ encode init).length := by
        rw [List.length_append, hhead]
        omega
      rw [hpos, hmem]
      have hsplit : head ++ encode (init ++ [b]) = (head ++ encode init) ++ flagBytes b := by
        rw [encode_append, encode_cons, encode_nil, List.append_nil, List.append_assoc]
      rw [hsplit, List.append_assoc (head ++ encode init), List.drop_left]
      simp only [List.cons_append, List.nil_append, encode_append, encode_cons, List.append_assoc]
    · simp only [encode_append, encode_cons, encode_nil, List.append_nil, List.length_append, hone]
      omega

/-- A run of zeros is split. -/
theorem spliceFlags_ok {l : Located Nat} {v : Nat} (hcoded : ∀ b ∈ l.write v, Coded b) (hblock : Coded l.block)
    (hfront : ∀ b ∈ l.front, Coded b) (hzero : l.block.value = 0) (hlast : ∀ b ∈ l.front.getLast?, b.value ≠ 0)
    (hpayload : h.payload = encode (l.front ++ l.block :: l.back))
    (hsize : h.size = 16 + (encode (l.front ++ l.block :: l.back)).length) (hheader : 16 ≤ h.mem.length)
    (hroom : 16 + (encode (l.write v)).length ≤ h.mem.length)
    (hunlike : ((mergeWindow l v).take 6).IsChain Unlike) :
    ∃ h', spliceFlags h (foundScan l 16 0 none) (16 + (encode l.front).length) (encode (split l.block l.offset v)) =
      .ok (h', 1) ∧ h'.payload = encode (l.write v) ∧ h'.size = 16 + (encode (l.write v)).length := by
  have hmem := Hll.mem_split hpayload hsize
  rw [encode_append, encode_cons, List.append_assoc, List.append_assoc, ← List.append_assoc] at hmem
  rw [encode_append, encode_cons, List.length_append, List.length_append] at hsize
  have htotal : (encode (l.write v)).length =
      (encode l.front).length + (encode (split l.block l.offset v)).length + (encode l.back).length := by
    rw [Located.write, encode_append, encode_append, List.length_append, List.length_append]
  have hhead : (h.mem.take 16).length = 16 := by
    rw [List.length_take]
    exact Nat.min_eq_left hheader
  have hcurr : 16 + (encode l.front).length = (h.mem.take 16 ++ encode l.front).length := by
    rw [List.length_append, hhead]
  have hold : (if (foundScan l 16 0 none).ixzero = true then (2 : Int) else 1) = (flagBytes l.block).length := by
    rw [length_flagBytes hblock hzero]
    simp only [foundScan, hzero, true_and, decide_eq_true_eq]
    split <;> rfl
  have hnext : (foundScan l 16 0 none).next =
      if encode l.back = [] then none else some ((h.mem.take 16 ++ encode l.front).length + (flagBytes l.block).length) := by
    rw [← hcurr, foundScan]
    dsimp only
    have hback : ∀ b ∈ l.back, Coded b := fun b hb => hcoded b (List.mem_append_right _ hb)
    have hnil : encode l.back = [] ↔ l.back = [] := List.length_eq_zero_iff.symm.trans (encode_eq_nil hback)
    simp only [hnil]
  have hfits : (h.mem.take 16 ++ encode l.front).length + (encode (split l.block l.offset v)).length +
      (encode l.back).length ≤ h.mem.length := by omega
  obtain ⟨slack, h₂, hm₂, hs₂, hsplice⟩ := spliceFlags_bytes hmem (by omega) hfits hold hnext
  have hs₂ : h₂.size = 16 + (encode (l.write v)).length := by omega
  obtain ⟨hwindow, hstop⟩ := mergeWindow_at hfront hlast hhead hm₂
  have hwin : ∀ b ∈ mergeWindow l v, Coded b := by
    intro b hb
    rw [mergeWindow, List.append_assoc] at hb
    rcases List.mem_append.mp hb with hb | hb
    · exact hfront b (List.mem_of_getLast? (Option.mem_toList.mp hb))
    · apply hcoded
      rw [Located.write, List.append_assoc]
      exact List.mem_append_right _ hb
  have hflags : h₂.mem = h.mem.take 16 ++ (encode (l.write v) ++ slack) := by
    rw [hm₂, Located.write]
    simp only [encode_append, List.append_assoc]
  have hheader₂ : 16 ≤ h₂.mem.length := by
    rw [hflags, List.length_append, hhead]
    exact Nat.le_add_right 16 _
  obtain ⟨h', hinv, hpayload', hsize'⟩ := invalidateCache_ok hheader₂
  refine ⟨h', ?_, hpayload'.trans (Hll.payload_of_mem hflags hhead hs₂), hsize'.trans hs₂⟩
  rw [hcurr, hsplice, mergeAux_unlike hwin hwindow (hs₂.trans hstop) hunlike, ok_bind, hinv, ok_bind]

/-! ### An addition to the flags -/

/-- No two flags for zero registers stand side by side. -/
def Apart (b c : Block Nat) : Prop := b.value ≠ 0 ∨ c.value ≠ 0

/-- A sparse structure whose bytes are those of the flags. -/
structure Hll.Codes (h : Hll) (bs : List (Block Nat)) : Prop where
  enc : h.enc = some hllSparse
  room : h.Room
  payload : h.payload = encode bs
  size : h.size = 16 + (encode bs).length
  coded : ∀ b ∈ bs, Coded b
  apart : bs.IsChain Apart
  width : width bs = hllRegisterCnt

theorem Hll.Codes.size_le {bs : List (Block Nat)} (hc : h.Codes bs) : h.size ≤ h.mem.length := by
  have hlen := congrArg List.length (Hll.mem_split hc.payload hc.size)
  have hheader := hc.room.header
  have hsize := hc.size
  rw [List.length_append, List.length_append, List.length_take, List.length_drop] at hlen
  omega

theorem Hll.Codes.drop_mem {bs : List (Block Nat)} (hc : h.Codes bs) :
    h.mem.drop 16 = encode bs ++ h.mem.drop h.size := by
  have hhead : (h.mem.take 16).length = 16 := by
    rw [List.length_take]
    exact Nat.min_eq_left hc.room.header
  have hmem := Hll.mem_split hc.payload hc.size
  have hdrop := congrArg (List.drop 16) hmem
  rwa [List.drop_left' hhead] at hdrop

theorem isChain_around {front back : List (Block Nat)} {b : Block Nat} (hb : b.value ≠ 0)
    (hfront : front.IsChain Apart) (hback : back.IsChain Apart) : (front ++ b :: back).IsChain Apart := by
  refine List.isChain_append.mpr ⟨hfront, ?_, fun x _ y hy => ?_⟩
  · cases back with
    | nil => exact .singleton b
    | cons c cs => exact .cons_cons (.inl hb) hback
  · cases Option.mem_some.mp hy
    exact .inr hb

theorem coded_part {n : Nat} (hn : n ≤ 16384) (hne : n ≠ 65) : ∀ b ∈ part 0 n, Coded b := by
  intro b hb
  rw [part] at hb
  split at hb
  · cases hb
  · next hpos =>
    cases List.mem_singleton.mp hb
    obtain ⟨m, rfl⟩ := Nat.exists_eq_succ_of_ne_zero hpos
    rcases Nat.lt_or_gt_of_ne (show m ≠ 64 by omega) with hlt | hgt
    · exact .zero hlt
    · exact .xzero hgt (by omega)

/-- The new flags stand apart as the old ones did. -/
theorem isChain_write {l : Located Nat} (hchain : (l.front ++ l.block :: l.back).IsChain Apart) {v : Nat} (hv : v ≠ 0) :
    (l.write v).IsChain Apart := by
  obtain ⟨hfront, hrest, hlast⟩ := List.isChain_append.mp hchain
  have hwrite : l.write v = (l.front ++ part l.block.value l.offset) ++
      ⟨v, 1⟩ :: (part l.block.value (l.block.cnt - l.offset - 1) ++ l.back) := by
    rw [Located.write, split]
    simp only [List.append_assoc, List.cons_append]
  rw [hwrite]
  apply isChain_around hv
  · rw [part]
    split
    · rw [List.append_nil]
      exact hfront
    · refine List.isChain_append.mpr ⟨hfront, .singleton _, fun x hx y hy => ?_⟩
      cases Option.mem_some.mp hy
      exact hlast x hx l.block rfl
  · rw [part]
    split
    · exact hrest.tail
    · cases hback : l.back with
      | nil => exact .singleton _
      | cons c cs =>
        rw [hback] at hrest
        exact .cons_cons hrest.rel hrest.tail

/-- The condition under which a register of at most 32 can be written to the flags. The register is not raised by one;
and if a run of zeros has to be split for it, then there is more than one, none of the halves is of length 65, no two
`VAL` flags of the same value stand in the reach of the merging loop, and the flags fit into what is allocated. -/
def Writable (l : Located Nat) (v : Nat) : Prop :=
  if l.block.value = 0 then
    2 ≤ l.block.cnt ∧ l.offset ≠ 65 ∧ l.block.cnt - l.offset - 1 ≠ 65 ∧
      ((mergeWindow l v).take 6).IsChain Unlike ∧ 16 + (encode (l.write v)).length ≤ 2985
  else v ≤ l.block.value ∨ l.block.value + 2 ≤ v

theorem coded_write {l : Located Nat} {v : Nat} (hcoded : ∀ b ∈ l.front ++ l.block :: l.back, Coded b)
    (hoffset : l.offset < l.block.cnt) (hpos : 1 ≤ v) (hv : v ≤ 32) (hwritable : Writable l v) :
    ∀ b ∈ l.write v, Coded b := by
  have hblock : Coded l.block := hcoded _ (List.mem_append_right _ List.mem_cons_self)
  have hnew : Coded ⟨v, 1⟩ := by
    obtain ⟨x, rfl⟩ := Nat.exists_eq_add_of_le' hpos
    exact .val hv
  have hparts : (∀ b ∈ part l.block.value l.offset, Coded b) ∧
      ∀ b ∈ part l.block.value (l.block.cnt - l.offset - 1), Coded b := by
    by_cases hzero : l.block.value = 0
    · rw [Writable, if_pos hzero] at hwritable
      have hcnt := hblock.cnt_le
      rw [hzero]
      exact ⟨coded_part (by omega) hwritable.2.1, coded_part (by omega) hwritable.2.2.1⟩
    · obtain ⟨hone, -⟩ := hblock.single hzero
      have hfirst : l.offset = 0 := by omega
      rw [hone, hfirst]
      exact ⟨nofun, nofun⟩
  intro b hb
  rw [Located.write, split] at hb
  simp only [List.mem_append, List.mem_cons] at hb hcoded
  rcases hb with (hb | hb | rfl | hb) | hb
  · exact hcoded b (.inl hb)
  · exact hparts.1 b hb
  · exact hnew
  · exact hparts.2 b hb
  · exact hcoded b (.inr (.inr hb))

theorem ofNat_pred {v : Nat} (hpos : 1 ≤ v) : UInt8.ofNat v - 1 = UInt8.ofNat (v - 1) := by
  obtain ⟨x, rfl⟩ := Nat.exists_eq_add_of_le' hpos
  rw [UInt8.ofNat_add, Nat.add_sub_cancel]
  exact UInt8.add_sub_cancel _ _

theorem flagBytes_new {v : Nat} (hpos : 1 ≤ v) : flagBytes ⟨v, 1⟩ = [valFlag (UInt8.ofNat v - 1) 0] := by
  rw [ofNat_pred hpos, flagBytes, if_neg (by exact Nat.ne_of_gt hpos)]

/-- The contents of `tmp` for a run of zeros. -/
theorem splitFlags_zeros {l : Located Nat} {v : Nat} {flag : UInt8} (hzero : l.block.value = 0)
    (hoffset : l.offset < l.block.cnt) (hwidth : width l.front + l.block.cnt ≤ 16384) (hpos : 1 ≤ v) :
    splitFlags (foundScan l 16 0 none) flag (width l.front + l.offset) (UInt8.ofNat v - 1) =
      encode (split l.block l.offset v) := by
  have hpart : ∀ n : Nat, encode (part 0 n) = bytesOf (part (partBytes false flag n) n) := by
    intro n
    rw [bytesOf_part]
    by_cases h : n = 0
    · rw [part, if_pos h, if_neg (not_not_intro h), encode_nil]
    · rw [part, if_neg h, if_pos h, encode_cons, encode_nil, List.append_nil]
      rfl
  have hival : (foundScan l 16 0 none).ival = false := by
    simp only [foundScan, hzero, ne_eq, not_true, decide_false]
  have hstart : (foundScan l 16 0 none).start = width l.front := Nat.zero_add _
  have hlast : (foundScan l 16 0 none).last = width l.front + l.block.cnt - 1 :=
    congrArg (· + l.block.cnt - 1) (Nat.zero_add _)
  rw [splitFlags_parts hstart hlast hoffset hwidth, hival, split, encode_append, encode_cons, flagBytes_new hpos, hzero,
    hpart, hpart, bytesOf_append, bytesOf_cons]

theorem Hll.Codes.size_bound {bs : List (Block Nat)} (hc : h.Codes bs) : h.size + 15 ≤ hllSparseMaxBytes :=
  Nat.le_trans (Nat.add_le_add_right hc.size_le 15) hc.room.bound

theorem Hll.Codes.reserve {bs : List (Block Nat)} (hc : h.Codes bs) (junk : Nat → UInt8) :
    (hllReserve junk h (sparseReserve h)).Codes bs ∧ 5 ≤ (hllReserve junk h (sparseReserve h)).free ∧
      ((hllReserve junk h (sparseReserve h)).size + 4 ≤ (hllReserve junk h (sparseReserve h)).mem.length ∨
        hllSparseMaxBytes ≤ (hllReserve junk h (sparseReserve h)).size + (hllReserve junk h (sparseReserve h)).free) := by
  have hbound := hc.size_bound
  obtain ⟨hroom, hsize, hget, hfree, hspace⟩ := hllReserve_spec junk hc.room (by omega) _ rfl
  refine ⟨⟨?_, hroom, ?_, hsize.trans hc.size, hc.coded, hc.apart, hc.width⟩, hfree, hspace⟩
  · exact (hget 4 (.inr (by decide))).trans hc.enc
  · rw [← hc.payload]
    exact Hll.payload_congr hsize fun i _ hi => hget i (.inl hi)

theorem length_le_encode {bs : List (Block Nat)} (h : ∀ b ∈ bs, Coded b) : bs.length ≤ (encode bs).length := by
  have hle := length_le_bytesOf (isFlag_map h)
  rwa [List.length_map, bytesOf_flagOf] at hle

theorem Hll.Codes.scan {bs : List (Block Nat)} (hc : h.Codes bs) {i : Nat} {l : Located Nat} (hloc : locate bs i = some l) :
    sparseScanAux (h.size + 1) h i hllHeaderSizeBytes 0 {} = .ok (foundScan l 16 0 none) := by
  have hlen := length_le_encode hc.coded
  exact sparseScanAux_found hc.coded hc.drop_mem hc.size (by rw [hc.width, Nat.zero_add]) (Nat.zero_le i)
    (by rw [Nat.sub_zero]; exact hloc) (by rw [hc.size]; omega) ⟨rfl, rfl, rfl⟩

/-- The first byte of the flag that the scan has found. -/
theorem Hll.Codes.get_curr {l : Located Nat} (hc : h.Codes (l.front ++ l.block :: l.back)) {flag : UInt8} {rest : Bytes}
    (hflag : flagBytes l.block = flag :: rest) : h.get (16 + (encode l.front).length) = .ok flag := by
  have hmem := hc.drop_mem
  rw [encode_append, encode_cons, List.append_assoc, hflag, List.append_assoc] at hmem
  exact Hll.get_of_drop (drop_add hmem)

/-- The value of a flag for one register is raised in place. -/
theorem Hll.Codes.replace {l : Located Nat} (hc : h.Codes (l.front ++ l.block :: l.back)) {x : Nat} (hx : x < 32)
    (hblock : l.block = ⟨x + 1, 1⟩) (hoffset : l.offset < l.block.cnt) {v : Nat} (hpos : 1 ≤ v)
    (hcoded : ∀ b ∈ l.write v, Coded b) :
    ∃ h', (do
      let hll ← h.put (16 + (encode l.front).length)
        ((valFlag (UInt8.ofNat x) 0 &&& (131 : UInt8)) ||| ((UInt8.ofNat v - 1) <<< (2 : UInt8)))
      let hll ← invalidateCache hll
      .ok (hll, 1) : M (Hll × Nat)) = .ok (h', 1) ∧ h'.Codes (l.write v) := by
  have hnew : (valFlag (UInt8.ofNat x) 0 &&& (131 : UInt8)) ||| ((UInt8.ofNat v - 1) <<< (2 : UInt8)) =
      valFlag (UInt8.ofNat v - 1) 0 := by
    have hall : ∀ x : Fin 32, valFlag (UInt8.ofNat x) 0 &&& (131 : UInt8) = 128 := by decide +kernel
    rw [hall ⟨x, hx⟩, valFlag, UInt8.or_zero]
  rw [hblock] at hoffset
  have hfirst : l.offset = 0 := Nat.lt_one_iff.mp hoffset
  have hwrite : l.write v = l.front ++ ⟨v, 1⟩ :: l.back := by
    rw [Located.write, hblock, hfirst, split]
    exact List.append_assoc _ _ _
  have hmem := Hll.mem_split hc.payload hc.size
  have hhead : (h.mem.take 16).length = 16 := by
    rw [List.length_take]
    exact Nat.min_eq_left hc.room.header
  have hcurr : 16 + (encode l.front).length = (h.mem.take 16 ++ encode l.front).length := by
    rw [List.length_append, hhead]
  have hsize : h.size = 16 + (encode (l.write v)).length := by
    rw [hc.size, hwrite, hblock]
    simp only [encode_append, encode_cons, flagBytes_new hpos, flagBytes_val, List.length_append, List.length_singleton]
  have hold : h.mem = (h.mem.take 16 ++ encode l.front) ++
      valFlag (UInt8.ofNat x) 0 :: (encode l.back ++ h.mem.drop h.size) := by
    rw [encode_append, encode_cons, hblock, flagBytes_val] at hmem
    refine hmem.trans ?_
    simp only [List.append_assoc, List.cons_append, List.nil_append]
  have hnewmem : (h.mem.take 16 ++ encode l.front) ++ valFlag (UInt8.ofNat v - 1) 0 :: (encode l.back ++ h.mem.drop h.size) =
      h.mem.take 16 ++ (encode (l.write v) ++ h.mem.drop h.size) := by
    rw [hwrite, encode_append, encode_cons, flagBytes_new hpos]
    simp only [List.append_assoc, List.cons_append, List.nil_append]
  have hput : h.put (16 + (encode l.front).length) (valFlag (UInt8.ofNat v - 1) 0) =
      .ok { h with mem := h.mem.take 16 ++ (encode (l.write v) ++ h.mem.drop h.size) } := by
    rw [hcurr, Hll.put_at hold, hnewmem]
  have hp := Hll.patched_of_put hput (show 16 ≤ 16 + (encode l.front).length by omega)
  obtain ⟨h', hinv, hpayload, hsize'⟩ := invalidateCache_ok (h := { h with
    mem := h.mem.take 16 ++ (encode (l.write v) ++ h.mem.drop h.size) }) (by rw [hp.keeps.1]; exact hc.room.header)
  have hp' := (hp.weaken (by decide)).trans (invalidateCache_spec hinv).1
  refine ⟨h', ?_, ?_, hc.room.of_patched hp', ?_, hsize'.trans hsize, hcoded, isChain_write hc.apart (by omega), ?_⟩
  · rw [hnew, hput, ok_bind, hinv, ok_bind]
  · exact (hp'.keeps.2 4 (by decide)).trans hc.enc
  · exact hpayload.trans (Hll.payload_of_mem (by rfl) hhead hsize)
  · rw [← hc.width, hwrite, hblock]
    simp only [width_append, width_cons]

/-- A run of zeros is split for the register. -/
theorem Hll.Codes.splice {l : Located Nat} (hc : h.Codes (l.front ++ l.block :: l.back))
    (hloc : locate (l.front ++ l.block :: l.back) (RunLength.width l.front + l.offset) = some l) (hzero : l.block.value = 0)
    (hoffset : l.offset < l.block.cnt) {v : Nat} (hpos : 1 ≤ v) (hcoded : ∀ b ∈ l.write v, Coded b)
    (hwritable : Writable l v) (hfree : 5 ≤ h.free)
    (hspace : h.size + 4 ≤ h.mem.length ∨ hllSparseMaxBytes ≤ h.size + h.free) (flag : UInt8) :
    ∃ h', spliceFlags h (foundScan l 16 0 none) (16 + (encode l.front).length)
        (splitFlags (foundScan l 16 0 none) flag (RunLength.width l.front + l.offset) (UInt8.ofNat v - 1)) = .ok (h', 1) ∧
      h'.Codes (l.write v) := by
  have hblock : Coded l.block := hc.coded _ (List.mem_append_right _ List.mem_cons_self)
  have hlength := splitFlags_length (foundScan l 16 0 none) flag (RunLength.width l.front + l.offset) (UInt8.ofNat v - 1)
  have hwidth : RunLength.width l.front + l.block.cnt ≤ 16384 := by
    have htotal := hc.width
    rw [width_append, width_cons] at htotal
    unfold hllRegisterCnt at htotal
    omega
  rw [splitFlags_zeros hzero hoffset hwidth hpos] at hlength ⊢
  rw [Writable, if_pos hzero] at hwritable
  obtain ⟨-, -, -, hunlike, hfits⟩ := hwritable
  have hlast : ∀ b ∈ l.front.getLast?, b.value ≠ 0 := by
    intro b hb
    have hapart := (List.isChain_append.mp hc.apart).2.2 b hb l.block rfl
    exact hapart.resolve_right (not_not_intro hzero)
  have hroom : 16 + (encode (l.write v)).length ≤ h.mem.length := by
    have hpos := hblock.length_pos
    have hsize := hc.size
    have halloc := hc.room.alloc
    rw [Located.write, encode_append, encode_append, List.length_append, List.length_append] at hfits ⊢
    rw [encode_append, encode_cons, List.length_append, List.length_append] at hsize
    unfold hllSparseMaxBytes at hspace
    omega
  obtain ⟨h', hrun, hpayload, hsize⟩ := spliceFlags_ok hcoded hblock
    (fun b hb => hc.coded b (List.mem_append_left _ hb)) hzero hlast hc.payload hc.size hc.room.header hroom hunlike
  have hbounds : ScanBounds h (foundScan l 16 0 none) :=
    sparseScanAux_bounds (Nat.le_refl 16) .initial rfl (hc.scan hloc)
  obtain ⟨hroom', hkeeps, -⟩ := spliceFlags_spec hc.room hfree hspace hbounds (by rfl) hlength hrun
  refine ⟨h', hrun, (hkeeps.2 4 (by decide)).trans hc.enc, hroom', hpayload, hsize, hcoded,
    isChain_write hc.apart (by omega), ?_⟩
  rw [width_write hloc, hc.width]

theorem Coded.eq_val {b : Block Nat} (h : Coded b) (hne : b.value ≠ 0) : ∃ x < 32, b = ⟨x + 1, 1⟩ := by
  cases h with
  | @val x hx => exact ⟨x, hx, rfl⟩
  | zero hn => exact absurd rfl hne
  | xzero hlow hhigh => exact absurd rfl hne

/-- A run of more than one zero is not taken for a single one. -/
theorem not_single {b : Block Nat} (hb : Coded b) (hzero : b.value = 0) (hcnt : 2 ≤ b.cnt) {flag : UInt8} {rest : Bytes}
    (hflag : flagBytes b = flag :: rest) : (decide (b.value = 0 ∧ b.cnt ≤ 64) && zeroCnt flag == 1) = false := by
  cases hb with
  | val hx => cases hzero
  | @zero n hn =>
    rw [flagBytes_zero hn] at hflag
    cases hflag
    have hne : zeroCnt (UInt8.ofNat n) ≠ 1 := by
      intro hone
      have hread := (zeroFlag_read hn).2.2
      rw [hone] at hread
      have hpos : 2 ≤ n + 1 := hcnt
      rw [← hread] at hpos
      exact absurd hpos (by decide)
    rw [beq_false_of_ne hne, Bool.and_false]
  | @xzero n hlow hhigh =>
    have hlong : ¬((0 : Nat) = 0 ∧ n + 1 ≤ 64) := by omega
    rw [decide_eq_false hlong, Bool.false_and]

/-- One addition of at most 32 to a sparse structure. -/
theorem addSparse_codes {bs : List (Block Nat)} (hc : h.Codes bs) {i v : Nat} {l : Located Nat} (hloc : locate bs i = some l)
    (hpos : 1 ≤ v) (hv : v ≤ 32) (hwritable : Writable l v) (junk : Nat → UInt8) :
    ∃ h', addSparse junk h i (UInt8.ofNat v) = .ok (h', if l.block.value < v then 1 else 0) ∧
      h'.Codes (if l.block.value < v then l.write v else bs) := by
  obtain ⟨hbs, hi, hoffset⟩ := locate_spec hloc
  obtain ⟨hc₁, hfree, hspace⟩ := hc.reserve junk
  have hbound := hc.size_bound
  rw [addSparse_eq junk (by omega) hv]
  generalize hllReserve junk h (sparseReserve h) = h₁ at *
  rw [addReserved, hc₁.scan hloc, ok_bind]
  subst hbs
  have hcoded := coded_write hc.coded hoffset hpos hv hwritable
  have hblock : Coded l.block := hc.coded _ (List.mem_append_right _ List.mem_cons_self)
  obtain ⟨flag, rest, hflag, -⟩ := hblock.first
  show ∃ h', (h₁.get (16 + (encode l.front).length) >>= _) = _ ∧ _
  rw [hc₁.get_curr hflag, ok_bind]
  by_cases hzero : l.block.value = 0
  · have hival : (foundScan l 16 0 none).ival = false := by
      simp only [foundScan, hzero, ne_eq, not_true, decide_false]
    have hcnt : 2 ≤ l.block.cnt := by
      rw [Writable, if_pos hzero] at hwritable
      exact hwritable.1
    have hmany : ((foundScan l 16 0 none).izero && zeroCnt flag == 1) = false := not_single hblock hzero hcnt hflag
    simp only [hival, Bool.false_and, Bool.false_eq_true, if_false, hmany]
    rw [if_pos (by omega), if_pos (by omega), hi]
    exact hc₁.splice (hi ▸ hloc) hzero hoffset hpos hcoded hwritable hfree hspace flag
  · rw [Writable, if_neg hzero] at hwritable
    have hival : (foundScan l 16 0 none).ival = true := decide_eq_true hzero
    obtain ⟨x, hx, hval⟩ := hblock.eq_val hzero
    rw [hval, flagBytes_val] at hflag
    cases hflag
    obtain ⟨-, -, hvalue, hone⟩ := valFlag_read hx
    have hle : UInt8.ofNat v - 1 ≤ UInt8.ofNat (x + 1) ↔ v - 1 ≤ x + 1 := by
      rw [ofNat_pred hpos, UInt8.le_iff_toNat_le, UInt8.toNat_ofNat_of_lt' (show v - 1 < 256 by omega),
        UInt8.toNat_ofNat_of_lt' (show x + 1 < 256 by omega)]
    simp only [hival, Bool.true_and, hone, beq_self_eq_true, if_true, hvalue, ge_iff_le, decide_eq_true_eq, hle]
    have hstored : l.block.value = x + 1 := by rw [hval]
    rw [hstored] at hwritable ⊢
    by_cases hlt : x + 1 < v
    · rw [if_neg (by omega), if_pos hlt, if_pos hlt]
      exact hc₁.replace hx hval hoffset hpos hcoded
    · rw [if_pos (by omega), if_neg hlt, if_neg hlt]
      exact ⟨h₁, rfl, hc₁⟩

end Writing

end CustomRedis
