import CustomRedis.Proof.OneKey
import Mathlib.Data.List.GetD
import Mathlib.Data.Set.Card

/-!
# Bitmaps

Position `q` of a bitmap is bit `7 - q % 8` of byte `q / 8`. `SETBIT` grows the string to the byte of its
position with zero bytes and writes one bit; `GETBIT` and `BITCOUNT` split positions in the same way. A
bitmap therefore stands for a function from all positions to bits, zero behind its last byte, together with
the number of its bytes, which only `GETBIT` looks at.
-/

namespace CustomRedis

open Run

/-! ### Bits of a byte -/

theorem toNat_shiftRight_and_one (byte : UInt8) {k : Nat} (hk : k < 8) :
    ((byte >>> UInt8.ofNat k) &&& 1).toNat = (byte.toNat.testBit k).toNat := by
  have hsize : k < UInt8.size := lt_trans hk (by decide)
  rw [UInt8.toNat_and, UInt8.toNat_shiftRight, UInt8.toNat_ofNat_of_lt' hsize, Nat.mod_eq_of_lt hk,
    Nat.testBit_eq_decide_div_mod_eq, Nat.shiftRight_eq_div_pow, show UInt8.toNat 1 = 1 from rfl, Nat.and_one_is_mod]
  rcases Nat.mod_two_eq_zero_or_one (byte.toNat / 2 ^ k) with h | h <;> simp [h]

theorem bitMask_toNat {k : Nat} (hk : k < 8) : (bitMask k).toNat = 2 ^ k := by
  interval_cases k <;> rfl

theorem testBit_or_bitMask (byte : UInt8) {k : Nat} (hk : k < 8) (j : Nat) :
    (byte ||| bitMask k).toNat.testBit j = (decide (k = j) || byte.toNat.testBit j) := by
  rw [UInt8.toNat_or, Nat.testBit_or, bitMask_toNat hk, Nat.testBit_two_pow, Bool.or_comm]

theorem testBit_and_not_bitMask (byte : UInt8) {k j : Nat} (hk : k < 8) (hj : j < 8) :
    (byte &&& ~~~bitMask k).toNat.testBit j = (!decide (k = j) && byte.toNat.testBit j) := by
  have hmask : UInt8.size - 1 - 2 ^ k = 2 ^ 8 - (2 ^ k + 1) := by
    norm_num [UInt8.size]
    omega
  rw [UInt8.toNat_and, Nat.testBit_and, UInt8.toNat_not, bitMask_toNat hk, hmask,
    Nat.testBit_two_pow_sub_succ (Nat.pow_lt_pow_right (by omega) hk), Nat.testBit_two_pow, Bool.and_comm]
  simp [hj]

/-! ### Bits of a string -/

/-- The bit at a position. -/
def bitAt (buf : Bytes) (q : Nat) : Bool := (buf.getD (q / 8) 0).toNat.testBit (7 - q % 8)

theorem bitAt_eq_false {buf : Bytes} {q : Nat} (h : buf.length ≤ q / 8) : bitAt buf q = false := by
  rw [bitAt, List.getD_eq_default _ _ h]
  exact Nat.zero_testBit _

/-- Writing one bit of one byte. -/
theorem bitAt_set {buf : Bytes} {p : Nat} (hp : p / 8 < buf.length) (one : Bool) (q : Nat) :
    bitAt (buf.set (p / 8) (if one then buf.getD (p / 8) 0 ||| bitMask (7 - p % 8)
      else buf.getD (p / 8) 0 &&& ~~~bitMask (7 - p % 8))) q = if q = p then one else bitAt buf q := by
  have hk : 7 - p % 8 < 8 := by omega
  have hj : 7 - q % 8 < 8 := by omega
  rw [bitAt, bitAt, List.getD_eq_getElem?_getD, List.getElem?_set]
  by_cases hbyte : p / 8 = q / 8
  · have hiff : decide (7 - p % 8 = 7 - q % 8) = decide (q = p) := decide_eq_decide.mpr (by omega)
    rw [if_pos hbyte, if_pos hp, Option.getD_some, ← hbyte]
    cases one with
    | true =>
      rw [if_pos rfl, testBit_or_bitMask _ hk, hiff]
      by_cases heq : q = p
      · simp [heq]
      · simp [heq]
    | false =>
      rw [if_neg (by decide), testBit_and_not_bitMask _ hk hj, hiff]
      by_cases heq : q = p
      · simp [heq]
      · simp [heq]
  · have hne : q ≠ p := fun heq => hbyte (by rw [heq])
    rw [if_neg hbyte, if_neg hne, ← List.getD_eq_getElem?_getD]

theorem byteAt_eq {s : Dstr} {i : Nat} (h : i < s.size) : byteAt s i = .ok (s.buf.getD i 0) := by
  rw [byteAt, if_pos ⟨by omega, by exact_mod_cast h⟩]
  rfl

/-- Growing a string with zero bytes. -/
theorem dstrResize_zero {s : Dstr} (hs : s.Sound) {len : Nat} (hsize : s.size < len) (hlen : len ≤ maxStrSize) :
    ∃ s', dstrResize s len 0 = .ok (s', .ok) ∧ s'.Sound ∧ s'.buf = s.buf ++ List.replicate (len - s.size) 0 := by
  unfold Dstr.Sound at hs
  rw [dstrResize, if_neg (by omega)]
  by_cases hcap : dstrCap s < len
  · simp only [hsize, hcap, and_self, if_true]
    rw [if_pos (Nat.le_refl _)]
    refine ⟨_, rfl, ?_, rfl⟩
    simp only [Dstr.Sound, Dstr.size, List.length_append, List.length_replicate] at hsize ⊢
    omega
  · simp only [hsize, hcap, and_false, if_false, if_true]
    unfold dstrCap at hcap ⊢
    rw [if_pos (by omega)]
    refine ⟨_, rfl, ?_, rfl⟩
    simp only [Dstr.Sound, Dstr.size, List.length_append, List.length_replicate] at hsize hcap hs ⊢
    omega

/-- The extension of the bitmap, which changes no bit. -/
theorem extend_spec {s : Dstr} (hs : s.Sound) {i : Nat} (hi : i + 1 ≤ maxStrSize) :
    ∃ s', (if i ≥ s.size then dstrResize s (i + 1) 0 else .ok (s, .ok)) = .ok (s', .ok) ∧ s'.Sound ∧
      s'.size = max s.size (i + 1) ∧ ∀ j, s'.buf.getD j 0 = s.buf.getD j 0 := by
  by_cases hge : i ≥ s.size
  · obtain ⟨s', hrun, hsound, hbuf⟩ := dstrResize_zero hs (show s.size < i + 1 by omega) hi
    refine ⟨s', by rw [if_pos hge, hrun], hsound, ?_, fun j => ?_⟩
    · rw [Dstr.size, hbuf, List.length_append, List.length_replicate]
      change s.buf.length + (i + 1 - s.buf.length) = max s.buf.length (i + 1)
      omega
    · rw [hbuf]
      by_cases hj : j < s.buf.length
      · rw [List.getD_append _ _ _ _ hj]
      · rw [List.getD_append_right _ _ _ _ (by omega), List.getD_eq_default s.buf _ (by omega)]
        simp [List.getD_eq_getElem?_getD, List.getElem?_replicate]
        split <;> rfl
  · exact ⟨s, if_neg hge, hs, by omega, fun j => rfl⟩

/-- The bit is read and written in the extended bitmap. -/
theorem setBit_of_extended {s t : Dstr} {p : Nat}
    (hext : (if p / 8 ≥ s.size then dstrResize s (p / 8 + 1) 0 else .ok (s, .ok)) = .ok (t, .ok)) (hin : p / 8 < t.size)
    (one : Bool) :
    setBit s p one = .ok (some ({ t with
      buf := t.buf.set (p / 8) (if one then t.buf.getD (p / 8) 0 ||| bitMask (7 - p % 8)
        else t.buf.getD (p / 8) 0 &&& ~~~bitMask (7 - p % 8)) }, (bitAt t.buf p).toNat)) := by
  have hprev := toNat_shiftRight_and_one (t.buf.getD (p / 8) 0) (show 7 - p % 8 < 8 by omega)
  rw [bitAt, ← hprev, setBit]
  by_cases hge : p / 8 ≥ s.size
  · rw [if_pos hge] at hext
    simp only [if_pos hge, hext, ok_bind, ne_eq, not_true_eq_false, if_false, byteAt_eq hin]
  · rw [if_neg hge] at hext
    cases hext
    simp only [if_neg hge, ok_bind, ne_eq, not_true_eq_false, if_false, byteAt_eq hin]

theorem setBit_spec {s : Dstr} (hs : s.Sound) {p : Nat} (hp : p < 2 ^ 32) (one : Bool) :
    ∃ s', setBit s p one = .ok (some (s', (bitAt s.buf p).toNat)) ∧ s'.Sound ∧ s'.size = max s.size (p / 8 + 1) ∧
      ∀ q, bitAt s'.buf q = if q = p then one else bitAt s.buf q := by
  obtain ⟨t, hext, hsound, hsize, hbytes⟩ := extend_spec hs (show p / 8 + 1 ≤ maxStrSize by unfold maxStrSize; omega)
  have hbits : ∀ q, bitAt t.buf q = bitAt s.buf q := fun q => by rw [bitAt, hbytes, bitAt]
  have hin : p / 8 < t.size := by omega
  have hrun := setBit_of_extended hext hin one
  rw [hbits] at hrun
  refine ⟨_, hrun, ?_, ?_, fun q => ?_⟩
  · unfold Dstr.Sound at hsound ⊢
    rwa [Dstr.size, List.length_set]
  · rw [Dstr.size, List.length_set]
    exact hsize
  · rw [bitAt_set hin, hbits]

/-! ### Counting -/

theorem charBit_eq (byte : UInt8) {k : Nat} (hk : k < 8) : charBit byte k = (byte.toNat.testBit k).toNat := by
  rw [charBit, Nat.min_eq_left (by omega)]
  exact toNat_shiftRight_and_one byte hk

theorem bitcountBits_eq {s : Dstr} {n i : Nat} (h : i + n ≤ 8 * s.size) (ret : Nat) :
    bitcountBits s n i ret = .ok (ret + (List.range' i n).countP (bitAt s.buf)) := by
  induction n generalizing i ret with
  | zero => rfl
  | succ n ih =>
    have hbyte : (i : Int).tdiv 8 = (i / 8 : Nat) := Int.tdiv_eq_ediv_of_nonneg (Int.natCast_nonneg i)
    have hbit : (7 - (i : Int).tmod 8).toNat = 7 - i % 8 := by
      rw [Int.tmod_eq_emod_of_nonneg (Int.natCast_nonneg i)]
      omega
    rw [bitcountBits, hbyte, byteAt_eq (show i / 8 < s.size by omega), ok_bind, hbit, charBit_eq _ (by omega),
      show (i : Int) + 1 = (i + 1 : Nat) by omega, ih (by omega), List.range'_succ, List.countP_cons]
    rw [show (s.buf.getD (i / 8) 0).toNat.testBit (7 - i % 8) = bitAt s.buf i from rfl]
    cases bitAt s.buf i with
    | false => simp
    | true => simp [Nat.add_assoc, Nat.add_comm 1]

/-- The positions whose bit is one all lie inside the bitmap. -/
theorem ncard_bitAt (buf : Bytes) :
    Set.ncard {q | bitAt buf q = true} = (List.range (8 * buf.length)).countP (bitAt buf) := by
  have hset : {q | bitAt buf q = true} = ↑((Finset.range (8 * buf.length)).filter fun q => bitAt buf q = true) := by
    ext q
    simp only [Set.mem_ofPred_eq, Finset.coe_filter, Finset.mem_range, iff_and_self]
    intro hq
    by_contra hge
    rw [bitAt_eq_false (by omega)] at hq
    cases hq
  rw [hset, Set.ncard_coe_finset, ← Nat.count_eq_card_filter_range, Nat.count]
  exact List.countP_congr fun q _ => by rw [decide_eq_true_eq]

/-! ### The commands -/

/-- The bits of a bitmap, and the number of its bytes. -/
structure Bits where
  size : Nat := 0
  bit : Nat → Bool := fun _ => false

/-- The position a command names. -/
def bitPos (cmd : List Bytes) : Int := strtol (cmd.getD 2 [])

def bitStep (b : Bits) (r : Request) : Bits where
  size := max b.size ((bitPos r.tokens).toNat / 8 + 1)
  bit := Function.update b.bit (bitPos r.tokens).toNat (strEq (r.tokens.getD 3 []) (text "1"))

/-- `SETBIT` with a position from `0` to `2 ^ 32 - 1` and the bit `0` or `1`. -/
structure BitRequest (key : Bytes) (r : Request) : Prop where
  key : keyOf r.tokens = key
  op : commandOf r.tokens = .setbit
  args : 4 ≤ r.tokens.length
  nonneg : 0 ≤ bitPos r.tokens
  le : bitPos r.tokens ≤ 2 ^ 32 - 1
  value : strEq (r.tokens.getD 3 []) (text "0") = true ∨ strEq (r.tokens.getD 3 []) (text "1") = true

instance decidableBitRequest (key : Bytes) (r : Request) : Decidable (BitRequest key r) :=
  decidable_of_iff (keyOf r.tokens = key ∧ commandOf r.tokens = .setbit ∧ 4 ≤ r.tokens.length ∧ 0 ≤ bitPos r.tokens ∧
      bitPos r.tokens ≤ 2 ^ 32 - 1 ∧
      (strEq (r.tokens.getD 3 []) (text "0") = true ∨ strEq (r.tokens.getD 3 []) (text "1") = true))
    ⟨fun h => ⟨h.1, h.2.1, h.2.2.1, h.2.2.2.1, h.2.2.2.2.1, h.2.2.2.2.2⟩,
      fun h => ⟨h.key, h.op, h.args, h.nonneg, h.le, h.value⟩⟩

/-- The payload of a key whose bitmap has these bits. -/
def HoldsBits : Option Payload → Bits → Prop
  | none, b => b = {}
  | some (.bitmap s), b => s.Sound ∧ s.size ≤ 2 ^ 29 ∧ s.size = b.size ∧ bitAt s.buf = b.bit
  | some _, _ => False

theorem HoldsBits.exists_bitmap {o : Option Payload} {b : Bits} (h : HoldsBits o b) :
    ∃ s, o.getD (.bitmap ⟨[], 0, sizeofDstr + 1⟩) = .bitmap s ∧ s.Sound ∧ s.size ≤ 2 ^ 29 ∧ s.size = b.size ∧
      bitAt s.buf = b.bit := by
  cases o with
  | none =>
    obtain rfl : b = {} := h
    refine ⟨_, rfl, Nat.le_refl _, Nat.zero_le _, rfl, ?_⟩
    funext q
    exact bitAt_eq_false (Nat.zero_le _)
  | some p =>
    cases p with
    | bitmap s => exact ⟨s, rfl, h⟩
    | _ => exact h.elim

section Commands

variable {g : GlobalData} {cmd : List Bytes} {b : Bits}

/-- The bitmap of a key that is there. -/
theorem HoldsBits.exists_node (hb : HoldsBits (g.payloadOf (keyOf cmd)) b) (hpos : 0 < b.size) :
    ∃ hcode key addr s, g.nodeOf (keyOf cmd) = some ⟨hcode, key, addr, .bitmap s⟩ ∧ s.size ≤ 2 ^ 29 ∧
      s.size = b.size ∧ bitAt s.buf = b.bit := by
  cases hn : g.nodeOf (keyOf cmd) with
  | none =>
    rw [payloadOf_eq_none.mpr hn] at hb
    obtain rfl : b = {} := hb
    exact absurd hpos (Nat.lt_irrefl 0)
  | some n =>
    rw [payloadOf_of_nodeOf hn] at hb
    rcases n with ⟨hcode, key, addr, payload⟩
    cases payload with
    | bitmap s => exact ⟨hcode, key, addr, s, rfl, hb.2⟩
    | _ => exact hb.elim

theorem doSetbit_bits (env : Env) (h : g.WF) {r : Request} (hr : BitRequest (keyOf r.tokens) r)
    (hb : HoldsBits (g.payloadOf (keyOf r.tokens)) b) (out : Bytes) :
    ∃ g', doSetbit env g out r.tokens = .ok ⟨g', outInt out (b.bit (bitPos r.tokens).toNat).toNat, .success⟩ ∧ g'.WF ∧
      HoldsBits (g'.payloadOf (keyOf r.tokens)) (bitStep b r) := by
  obtain ⟨-, -, hargs, hnonneg, hle, hvalue⟩ := hr
  obtain ⟨g₁, n, hup⟩ := findOrInsert_upserted env h r.short_key (.bitmap ⟨[], 0, sizeofDstr + 1⟩)
    (bare_of_type (by decide) (by decide))
  obtain ⟨s, hs, hsound, hbound, hsize, hbits⟩ := hb.exists_bitmap
  rw [← hup.payload] at hs
  have hp : (bitPos r.tokens).toNat < 2 ^ 32 := by omega
  obtain ⟨s', hset, hsound', hsize', hbits'⟩ := setBit_spec hsound hp (strEq (r.tokens.getD 3 []) (text "1"))
  obtain ⟨g', hput, hwf, hstored⟩ := hup.put (.bitmap s')
  have hrange : ¬(bitPos r.tokens < 0 ∨ bitPos r.tokens > 2 ^ 32 - 1) := by omega
  have hbit : (!strEq (r.tokens.getD 3 []) (text "0") && !strEq (r.tokens.getD 3 []) (text "1")) = false := by
    rcases hvalue with hzero | hone
    · rw [hzero]
      rfl
    · rw [hone, Bool.not_true, Bool.and_false]
  refine ⟨g', ?_, hwf, ?_⟩
  · rw [doSetbit, arg_one (by omega), arg_eq_getD (by omega), arg_eq_getD (by omega), dstrInit_eq (Nat.zero_le _)]
    simp only [ok_bind, Nat.add_zero, hup.run, hs]
    rw [show strtol (r.tokens.getD 2 []) = bitPos r.tokens from rfl, if_neg hrange, hbit, if_neg (by decide), hset]
    simp only [ok_bind, hput, hbits]
  · rw [hstored]
    refine ⟨hsound', by omega, ?_, ?_⟩
    · rw [hsize', hsize]
      rfl
    · funext q
      rw [hbits', hbits]
      exact (Function.update_apply _ _ _ _).symm

theorem doGetbit_bits (h : g.WF) (hkey : Short (keyOf cmd)) (hlen : 3 ≤ cmd.length)
    (hb : HoldsBits (g.payloadOf (keyOf cmd)) b) (hpos : 0 < b.size) (out : Bytes) :
    ∃ ret, doGetbit g out cmd = .ok ⟨g, if 0 ≤ bitPos cmd ∧ (bitPos cmd).toNat / 8 < b.size
      then outInt out (b.bit (bitPos cmd).toNat).toNat else outErr out "index outside of range", ret⟩ := by
  obtain ⟨hcode, key, addr, s, hn, hbound, hsize, hbits⟩ := hb.exists_node hpos
  rw [doGetbit, arg_one (by omega), arg_eq_getD (by omega), ok_bind, ok_bind, findNode_bind h hkey, hn]
  have hvalid : validateHmnode out (some ⟨hcode, key, addr, .bitmap s⟩) .bitmap = none := rfl
  simp only [hvalid]
  rw [show strtol (cmd.getD 2 []) = bitPos cmd from rfl]
  by_cases hin : 0 ≤ bitPos cmd ∧ (bitPos cmd).toNat / 8 < b.size
  · have hbyte : bitPos cmd / 8 % 2 ^ 32 = ((bitPos cmd).toNat / 8 : Nat) := by omega
    have hbit : (7 - bitPos cmd % 8).toNat = 7 - (bitPos cmd).toNat % 8 := by omega
    rw [if_neg (by omega), if_pos hin, hbyte, byteAt_eq (by omega), ok_bind, hbit, toNat_shiftRight_and_one _ (by omega)]
    exact ⟨_, by rw [← hbits]; rfl⟩
  · rw [if_pos (by omega), if_neg hin]
    exact ⟨_, rfl⟩

theorem doBitcount_bits (h : g.WF) (hkey : Short (keyOf cmd)) (hlen : cmd.length = 2)
    (hb : HoldsBits (g.payloadOf (keyOf cmd)) b) (hpos : 0 < b.size) (out : Bytes) :
    doBitcount g out cmd = .ok ⟨g, outInt out (Set.ncard {q | b.bit q = true}), .success⟩ := by
  obtain ⟨hcode, key, addr, s, hn, hbound, hsize, hbits⟩ := hb.exists_node hpos
  have hmode : (cmd.length == 5 && strEq (cmd.getD 4 []) (text "BYTE")) = false := by simp [hlen]
  rw [doBitcount, arg_one (by omega), ok_bind, findNode_bind h hkey, hn, List.getElem?_eq_none (by omega),
    List.getElem?_eq_none (by omega), hmode]
  have hvalid : validateHmnode out (some ⟨hcode, key, addr, .bitmap s⟩) .bitmap = none := rfl
  have hlast : toI64 (-1 + (s.size * 8 : Nat)) = (s.size * 8 : Nat) - 1 := by
    unfold toI64
    omega
  have hrounds : (min ((s.size * 8 : Nat) - 1 : Int) ((s.size * 8 : Nat) - 1) - 0 + 1).toNat = 8 * s.size := by omega
  have hloop : bitcountBits s (8 * s.size) 0 0 = .ok ((List.range (8 * s.size)).countP (bitAt s.buf)) := by
    have hcount := bitcountBits_eq (s := s) (n := 8 * s.size) (i := 0) (by omega) 0
    rwa [Nat.zero_add, ← List.range_eq_range'] at hcount
  simp only [hvalid, Bool.false_eq_true, if_false, if_true, show (-1 : Int) < 0 by decide,
    show ¬(0 : Int) < 0 by decide, hlast, hrounds, hloop, ok_bind]
  rw [← hbits, ncard_bitAt]

end Commands

/-! ### Runs -/

theorem respond_setbit {key : Bytes} (env : Env) {g : GlobalData} {b : Bits} {r : Request} (h : g.WF)
    (hb : HoldsBits (g.payloadOf key) b) (hr : BitRequest key r) :
    ∃ g', respond env g r = .ok (g', outInt (beforeResBuild []).1 (b.bit (bitPos r.tokens).toNat).toNat) ∧ g'.WF ∧
      HoldsBits (g'.payloadOf key) (bitStep b r) := by
  obtain rfl := hr.key
  obtain ⟨g', hrun, hwf, hholds⟩ := doSetbit_bits env h hr hb (beforeResBuild []).1
  exact ⟨g', respond_of_run hr.op (Nat.lt_of_lt_of_le (by decide) hr.args) hrun, hwf, hholds⟩

/-- The bits that the requests of a run leave. -/
def bitsAfter (requests : List (Env × Request)) : Bits := requests.foldl (fun b e => bitStep b e.2) {}

theorem bitsAfter_size_pos {requests : List (Env × Request)} (h : requests ≠ []) : 0 < (bitsAfter requests).size := by
  rcases List.eq_nil_or_concat requests with hnil | ⟨init, last, rfl⟩
  · exact absurd hnil h
  · rw [bitsAfter, List.concat_eq_append, List.foldl_concat]
    exact Nat.lt_of_lt_of_le (Nat.succ_pos _) (Nat.le_max_right _ _)

theorem bits_run {g₀ : GlobalData} (hg : Reachable g₀) {key : Bytes} (habsent : g₀.nodeOf key = none)
    (requests : List (Env × Request)) (hreq : ∀ e ∈ requests, BitRequest key e.2) :
    ∃ g, run serverStep g₀ (requests.map fun e => .request e.1 e.2) = .ok g ∧ g.WF ∧
      HoldsBits (g.payloadOf key) (bitsAfter requests) := by
  have hstep : ∀ env g b r, g.WF → HoldsBits (g.payloadOf key) b → BitRequest key r →
      ∃ g' out, respond env g r = .ok (g', out) ∧ g'.WF ∧ HoldsBits (g'.payloadOf key) (bitStep b r) := by
    intro env g b r h hb hr
    obtain ⟨g', hrun, hwf, hholds⟩ := respond_setbit env h hb hr
    exact ⟨g', _, hrun, hwf, hholds⟩
  exact run_on_key HoldsBits hstep hg habsent rfl (follows_of_forall hreq _)

/-- Every run of `SETBIT` on a key that starts absent leaves the bits that its requests set: `SETBIT` replies the bit
that was there, `GETBIT` replies the bits up to the last byte touched, and `BITCOUNT` counts the ones. -/
theorem bitmaps_refine_bits {g₀ : GlobalData} (hg : Reachable g₀) {key : Bytes} (habsent : g₀.nodeOf key = none)
    (requests : List (Env × Request)) (hreq : ∀ e ∈ requests, BitRequest key e.2) :
    ∃ g, run serverStep g₀ (requests.map fun e => .request e.1 e.2) = .ok g ∧
      (∀ env r, BitRequest key r → ∃ g', respond env g r =
        .ok (g', outInt (beforeResBuild []).1 ((bitsAfter requests).bit (bitPos r.tokens).toNat).toNat)) ∧
      (requests ≠ [] → ∀ env r, keyOf r.tokens = key → commandOf r.tokens = .getbit → 3 ≤ r.tokens.length →
        respond env g r = .ok (g, if 0 ≤ bitPos r.tokens ∧ (bitPos r.tokens).toNat / 8 < (bitsAfter requests).size
          then outInt (beforeResBuild []).1 ((bitsAfter requests).bit (bitPos r.tokens).toNat).toNat
          else outErr (beforeResBuild []).1 "index outside of range")) ∧
      (requests ≠ [] → ∀ env r, keyOf r.tokens = key → commandOf r.tokens = .bitcount → r.tokens.length = 2 →
        respond env g r =
          .ok (g, outInt (beforeResBuild []).1 (Set.ncard {q | (bitsAfter requests).bit q = true}))) := by
  obtain ⟨g, hrun, hwf, hholds⟩ := bits_run hg habsent requests hreq
  refine ⟨g, hrun, fun env r hr => ?_, fun hne env r hkey hc hlen => ?_, fun hne env r hkey hc hlen => ?_⟩
  · obtain ⟨g', hres, -⟩ := respond_setbit env hwf hholds hr
    exact ⟨g', hres⟩
  · subst hkey
    obtain ⟨ret, hres⟩ := doGetbit_bits hwf r.short_key hlen hholds (bitsAfter_size_pos hne) (beforeResBuild []).1
    exact respond_of_run hc (by omega) hres
  · subst hkey
    exact respond_of_run hc (by omega)
      (doBitcount_bits hwf r.short_key hlen hholds (bitsAfter_size_pos hne) (beforeResBuild []).1)

/-- Position `9` is set, `0` is set and cleared: the bitmap has two bytes and a single one. -/
theorem bitmaps_refine_bits_two : ∃ g, run serverStep {}
      [.request {} (.ofTexts ["setbit", "b", "9", "1"]), .request {} (.ofTexts ["setbit", "b", "0", "1"]),
        .request {} (.ofTexts ["setbit", "b", "0", "0"])] = .ok g ∧
    respond {} g (.ofTexts ["getbit", "b", "9"]) = .ok (g, outInt (beforeResBuild []).1 1) ∧
    respond {} g (.ofTexts ["getbit", "b", "15"]) = .ok (g, outInt (beforeResBuild []).1 0) ∧
    respond {} g (.ofTexts ["getbit", "b", "16"]) =
      .ok (g, outErr (beforeResBuild []).1 "index outside of range") ∧
    respond {} g (.ofTexts ["bitcount", "b"]) = .ok (g, outInt (beforeResBuild []).1 1) := by
  let requests : List (Env × Request) :=
    [({}, .ofTexts ["setbit", "b", "9", "1"]), ({}, .ofTexts ["setbit", "b", "0", "1"]),
      ({}, .ofTexts ["setbit", "b", "0", "0"])]
  have habsent : ({} : GlobalData).nodeOf (text "b") = none := by decide
  obtain ⟨g, hrun, -, hget, hcount⟩ := bitmaps_refine_bits ⟨[], rfl⟩ habsent requests (by decide +kernel)
  have hbits : (bitsAfter requests).bit =
      Function.update (Function.update (Function.update (fun _ => false) 9 true) 0 true) 0 false := rfl
  have hones : Set.ncard {q | (bitsAfter requests).bit q = true} = 1 := by
    rw [hbits, Function.update_idem, Function.update_comm (by decide), Function.update_eq_self_iff.mpr rfl]
    have hset : {q | Function.update (fun _ => false) 9 true q = true} = ({9} : Set Nat) := by
      ext q
      simp [Function.update_apply]
    rw [hset, Set.ncard_singleton]
  refine ⟨g, hrun, ?_, ?_, ?_, ?_⟩
  · rw [hget (by decide) {} (.ofTexts ["getbit", "b", "9"]) (by decide) (by decide) (by decide),
      Except.ok.injEq, Prod.mk.injEq]
    exact ⟨rfl, by decide +kernel⟩
  · rw [hget (by decide) {} (.ofTexts ["getbit", "b", "15"]) (by decide) (by decide) (by decide),
      Except.ok.injEq, Prod.mk.injEq]
    exact ⟨rfl, by decide +kernel⟩
  · rw [hget (by decide) {} (.ofTexts ["getbit", "b", "16"]) (by decide) (by decide) (by decide),
      Except.ok.injEq, Prod.mk.injEq]
    exact ⟨rfl, by decide +kernel⟩
  · rw [hcount (by decide) {} (.ofTexts ["bitcount", "b"]) (by decide) (by decide) (by decide), hones]

end CustomRedis
