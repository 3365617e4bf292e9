import CustomRedis.Proof.Bitmap
import CustomRedis.Proof.ListRanges

/-!
# Ranges of a bitmap

A byte has eight positions, the highest bit first, so the loop of `BITCOUNT` over bytes is its loop over bits with both
ends of the range scaled. The end of a range is cut off at the bitmap and its start is not. The loop over bytes then
reads in front of the bitmap. Division truncates towards zero, so the loop over bits sees the first byte at the seven
positions in front of the bitmap as well, and takes its highest bit for each of them.
-/

namespace CustomRedis

open Run (ok_bind)

/-! ### The loops -/

/-- The ones of a window, counted among all positions. -/
theorem countP_window (p : Nat → Bool) (a : Nat) {b n : Nat} (hbn : b ≤ n) :
    (List.range n).countP (fun q => p q && decide (a ≤ q ∧ q < b)) = (List.range' a (b - a)).countP p := by
  have hout : ∀ qs : List Nat, (∀ q ∈ qs, q < a ∨ b ≤ q) → qs.countP (fun q => p q && decide (a ≤ q ∧ q < b)) = 0 := by
    intro qs hqs
    rw [List.countP_eq_zero]
    intro q hq
    have hside := hqs q hq
    simp only [Bool.and_eq_true, decide_eq_true_eq, not_and]
    omega
  by_cases hab : a ≤ b
  · have hinner := @List.range'_append_1 a (b - a) (n - b)
    have houter := @List.range'_append_1 0 a (b - a + (n - b))
    rw [show a + (b - a) = b by omega] at hinner
    rw [Nat.zero_add, show a + (b - a + (n - b)) = n by omega] at houter
    rw [List.range_eq_range', ← houter, ← hinner, List.countP_append, List.countP_append,
      hout (List.range' 0 a) fun q hq => .inl (by rw [List.mem_range'_1] at hq; omega),
      hout (List.range' b (n - b)) fun q hq => .inr (List.mem_range'_1.mp hq).1, Nat.zero_add, Nat.add_zero]
    apply List.countP_congr
    intro q hq
    rw [List.mem_range'_1] at hq
    simp only [Bool.and_eq_true, decide_eq_true_eq, and_iff_left_iff_imp]
    omega
  · rw [show b - a = 0 by omega]
    exact hout _ fun q _ => by omega

/-- The bits of a byte are those of its eight positions. -/
theorem popCount_eq (buf : Bytes) (i : Nat) : popCount (buf.getD i 0) = (List.range' (8 * i) 8).countP (bitAt buf) := by
  have hbyte : popCount (buf.getD i 0) = (List.range 8).countP (buf.getD i 0).toNat.testBit := by
    rw [popCount, ← List.countP_eq_length_filter]
    apply List.countP_congr
    intro k hk
    have hbit := toNat_shiftRight_and_one (buf.getD i 0) (List.mem_range.mp hk)
    rw [decide_eq_true_eq, ← UInt8.toNat_inj, hbit]
    cases (buf.getD i 0).toNat.testBit k with
    | false => decide
    | true => decide
  have hmirror : List.range 8 = ((List.range 8).map (7 - ·)).reverse := by decide
  rw [hbyte, hmirror, List.countP_reverse, List.countP_map, List.range'_eq_map_range, List.countP_map]
  apply List.countP_congr
  intro k hk
  rw [List.mem_range] at hk
  rw [Function.comp_apply, Function.comp_apply, bitAt, show (8 * i + k) / 8 = i by omega, show (8 * i + k) % 8 = k by omega]

section Loops

variable {s : Dstr} {n : Nat} {i : Int}

theorem tdiv_eight_of_neg (h : i < 0) : i.tdiv 8 = -(-i / 8) ∧ i.tmod 8 = -(-i % 8) := by
  obtain ⟨k, rfl⟩ : ∃ k, i = -k := ⟨-i, by omega⟩
  rw [Int.neg_tdiv, Int.neg_tmod, Int.tdiv_eq_ediv_of_nonneg (by omega), Int.tmod_eq_emod_of_nonneg (by omega), Int.neg_neg]
  exact ⟨rfl, rfl⟩

theorem byteAt_neg (h : i < 0) : byteAt s i = .error .outOfBounds := by
  rw [byteAt, if_neg (by omega), if_neg (by omega)]

theorem bitcountBits_add (s : Dstr) (m n : Nat) (i : Int) (ret : Nat) :
    bitcountBits s (m + n) i ret = bitcountBits s m i ret >>= fun ret => bitcountBits s n (i + m) ret := by
  induction m generalizing i ret with
  | zero =>
    rw [Nat.zero_add, Nat.cast_zero, Int.add_zero]
    rfl
  | succ m ih =>
    rw [Nat.succ_add, bitcountBits, bitcountBits, bind_assoc]
    congr 1
    funext byte
    rw [ih, show i + 1 + (m : Int) = i + (m + 1 : Nat) by omega]

/-- So many positions from one on. -/
def positionsFrom (n : Nat) (i : Int) : List Int := (List.range n).map fun k => i + (k : Nat)

theorem positionsFrom_succ (n : Nat) (i : Int) : positionsFrom (n + 1) i = i :: positionsFrom n (i + 1) := by
  rw [positionsFrom, List.range_succ_eq_map, List.map_cons, List.map_map, Nat.cast_zero, Int.add_zero]
  congr 1
  apply List.map_congr_left
  intro k _
  rw [Function.comp_apply]
  omega

theorem bitcountBytes_visits (s : Dstr) (n : Nat) (i : Int) (ret : Nat) : bitcountBytes s n i ret =
    (positionsFrom n i).foldlM (fun ret q => byteAt s q >>= fun byte => .ok (ret + popCount byte)) ret := by
  induction n generalizing i ret with
  | zero => rfl
  | succ n ih =>
    rw [positionsFrom_succ, List.foldlM_cons, bitcountBytes, bind_assoc]
    congr 1
    funext byte
    exact ih _ _

theorem bitcountBits_visits (s : Dstr) (n : Nat) (i : Int) (ret : Nat) : bitcountBits s n i ret = (positionsFrom n i).foldlM
    (fun ret q => byteAt s (q.tdiv 8) >>= fun byte => .ok (ret + charBit byte (7 - q.tmod 8).toNat)) ret := by
  induction n generalizing i ret with
  | zero => rfl
  | succ n ih =>
    rw [positionsFrom_succ, List.foldlM_cons, bitcountBits, bind_assoc]
    congr 1
    funext byte
    exact ih _ _

/-- Behind seven positions in front of the bitmap there is no byte of it. -/
theorem bitcountBits_before (hi : i ≤ -8) (hn : n ≠ 0) (ret : Nat) : bitcountBits s n i ret = .error .outOfBounds := by
  obtain ⟨n, rfl⟩ := Nat.exists_eq_succ_of_ne_zero hn
  have hbyte : i.tdiv 8 < 0 := by
    rw [(tdiv_eight_of_neg (by omega)).1]
    omega
  rw [bitcountBits, byteAt_neg hbyte]
  rfl

/-- Each of these positions is taken for the highest bit of the first byte. -/
theorem bitcountBits_front (hsize : 0 < s.size) (hlow : -8 < i) (hn : i + n ≤ 0) (ret : Nat) :
    bitcountBits s n i ret = .ok (ret + n * (bitAt s.buf 0).toNat) := by
  induction n generalizing i ret with
  | zero => simp [bitcountBits]
  | succ n ih =>
    obtain ⟨hdiv, hmod⟩ := @tdiv_eight_of_neg i (by omega)
    have hbyte : i.tdiv 8 = (0 : Nat) := by omega
    have hbit : min (7 - i.tmod 8).toNat 7 = 7 := by omega
    have htop : charBit (s.buf.getD 0 0) (7 - i.tmod 8).toNat = (bitAt s.buf 0).toNat := by
      rw [charBit, hbit]
      exact toNat_shiftRight_and_one _ (by decide)
    rw [bitcountBits, hbyte, byteAt_eq hsize, ok_bind, htop, ih (by omega) (by omega), Nat.succ_mul]
    congr 1
    omega

theorem bitcountBits_window (hi : 0 ≤ i) (hn : i + n ≤ 8 * s.size) (ret : Nat) :
    bitcountBits s n i ret = .ok (ret + (List.range' i.toNat n).countP (bitAt s.buf)) := by
  obtain ⟨i, rfl⟩ := Int.eq_ofNat_of_zero_le hi
  exact bitcountBits_eq (by omega) ret

/-- The loop over bytes is the loop over their bits. -/
theorem bitcountBytes_eq_bits (h : n = 0 ∨ i + n ≤ s.size) (ret : Nat) :
    bitcountBytes s n i ret = bitcountBits s (8 * n) (8 * i) ret := by
  induction n generalizing i ret with
  | zero => rfl
  | succ n ih =>
    by_cases hi : i < 0
    · rw [bitcountBytes, byteAt_neg hi, bitcountBits_before (by omega) (by omega)]
      rfl
    · obtain ⟨i, rfl⟩ := Int.eq_ofNat_of_zero_le (show 0 ≤ i by omega)
      have hwindow := @bitcountBits_eq s 8 (8 * i) (by omega) ret
      rw [bitcountBytes, byteAt_eq (by omega), ok_bind, ih (by omega), popCount_eq, show 8 * (n + 1) = 8 + 8 * n by omega,
        bitcountBits_add, show (8 : Int) * i = (8 * i : Nat) by omega, hwindow, ok_bind]
      congr 1

/-- The loop over bits from eight positions in front of the bitmap on. -/
theorem bitcountBits_spill (hi : 0 ≤ i ∨ -8 < i ∧ 0 < s.size) (hn : i + n ≤ 8 * s.size) :
    bitcountBits s n i 0 = .ok (min n (-i).toNat * (bitAt s.buf 0).toNat +
      (List.range' i.toNat ((i + n).toNat - i.toNat)).countP (bitAt s.buf)) := by
  by_cases hneg : 0 ≤ i
  · rw [bitcountBits_window hneg hn, show (-i).toNat = 0 by omega, show (i + n).toNat - i.toNat = n by omega,
      Nat.min_zero, Nat.zero_mul]
  · obtain ⟨hlow, hsize⟩ := hi.resolve_left hneg
    obtain ⟨m, hm⟩ : ∃ m, m = min n (-i).toNat := ⟨_, rfl⟩
    have hwindow : bitcountBits s (n - m) (i + m) (m * (bitAt s.buf 0).toNat) = .ok (m * (bitAt s.buf 0).toNat +
        (List.range' i.toNat ((i + n).toNat - i.toNat)).countP (bitAt s.buf)) := by
      rw [show i.toNat = 0 by omega, Nat.sub_zero]
      by_cases hfront : n ≤ m
      · rw [show n - m = 0 by omega, show (i + n).toNat = 0 by omega]
        rfl
      · rw [bitcountBits_window (by omega) (by omega), show (i + m).toNat = 0 by omega, show (i + n).toNat = n - m by omega]
    rw [← hm, show n = m + (n - m) by omega, bitcountBits_add, bitcountBits_front hsize hlow (by omega), ok_bind, Nat.zero_add,
      hwindow, show m + (n - m) = n by omega]

end Loops

/-! ### Ranges -/

section Ranges

/-- Whether the positions of a range are bytes. -/
def isByteMode (cmd : List Bytes) : Bool := cmd.length == 5 && strEq (cmd.getD 4 []) (text "BYTE")

/-- The bits of a position of a range. -/
def unitBits (cmd : List Bytes) : Nat := if isByteMode cmd then 8 else 1

/-- The positions of a bitmap of so many bytes. -/
def unitCount (cmd : List Bytes) (size : Nat) : Nat := if isByteMode cmd then size else size * 8

/-- An optional index of a command. -/
def indexArg (cmd : List Bytes) (i : Nat) (default : Int) : Int := match cmd[i]? with
  | some t => strtol t
  | none => default

theorem indexArg_eq {cmd : List Bytes} {i : Nat} (h : i < cmd.length) (default : Int) :
    indexArg cmd i default = strtol (cmd.getD i []) := by
  rw [indexArg, List.getD_eq_getElem?_getD, List.getElem?_eq_getElem h]
  rfl

theorem strtol_mem (t : Bytes) : -2 ^ 63 ≤ strtol t ∧ strtol t < 2 ^ 63 := by
  have hclamp : ∀ x, -2 ^ 63 ≤ clampI64 x ∧ clampI64 x < 2 ^ 63 := by
    intro x
    unfold clampI64
    omega
  unfold strtol
  split
  · exact hclamp _
  · exact hclamp _
  · exact hclamp _

theorem le_indexArg (cmd : List Bytes) (i : Nat) {default : Int} (hdefault : -2 ^ 63 ≤ default) :
    -2 ^ 63 ≤ indexArg cmd i default := by
  unfold indexArg
  split
  · exact (strtol_mem _).1
  · exact hdefault

/-- The two ends of a range as the command gives them. -/
def startArg (cmd : List Bytes) : Int := indexArg cmd 2 0

def endArg (cmd : List Bytes) : Int := indexArg cmd 3 (-1)

def bitcountStart (cmd : List Bytes) (size : Nat) : Int := countedFrom (unitCount cmd size) (startArg cmd)

def bitcountEnd (cmd : List Bytes) (size : Nat) : Int := countedFrom (unitCount cmd size) (endArg cmd)

/-- The number of one bits in a range. -/
def onesInRange (cmd : List Bytes) (buf : Bytes) : Nat :=
  (List.range (8 * buf.length)).countP fun q => bitAt buf q && decide (bitcountStart cmd buf.length ≤ (q / unitBits cmd : Nat) ∧
    (q / unitBits cmd : Nat) ≤ bitcountEnd cmd buf.length)

/-- The last position that the loop visits. -/
def bitcountLast (cmd : List Bytes) (size : Nat) : Int := min (bitcountEnd cmd size) (unitCount cmd size - 1)

/-- The positions that the loop visits. -/
def visited (cmd : List Bytes) (size : Nat) : List Int :=
  positionsFrom (bitcountLast cmd size - bitcountStart cmd size + 1).toNat (bitcountStart cmd size)

/-- The byte that the loop reads at a position. -/
def readAt (cmd : List Bytes) (q : Int) : Int := if isByteMode cmd then q else q.tdiv 8

/-- What it adds for this byte. -/
def onesAt (cmd : List Bytes) (q : Int) (byte : UInt8) : Nat :=
  if isByteMode cmd then popCount byte else charBit byte (7 - q.tmod 8).toNat

variable {cmd : List Bytes} {size : Nat}

theorem mem_visited {q : Int} : q ∈ visited cmd size ↔ bitcountStart cmd size ≤ q ∧ q ≤ bitcountLast cmd size := by
  simp only [visited, positionsFrom, List.mem_map, List.mem_range]
  constructor
  · rintro ⟨k, hk, rfl⟩
    omega
  · intro hq
    exact ⟨(q - bitcountStart cmd size).toNat, by omega, by omega⟩

/-- Every byte that the loop reads is one of the bitmap. -/
def StaysInside (cmd : List Bytes) (size : Nat) : Prop := ∀ q ∈ visited cmd size, 0 ≤ readAt cmd q ∧ readAt cmd q < size

/-- The loop over bits does not leave the bitmap at seven positions in front of it. -/
theorem staysInside_iff : StaysInside cmd size ↔ bitcountLast cmd size < bitcountStart cmd size ∨ 0 ≤ bitcountStart cmd size ∨
    isByteMode cmd = false ∧ -8 < bitcountStart cmd size ∧ 0 < size := by
  have hlast : bitcountLast cmd size < unitCount cmd size := by
    unfold bitcountLast
    omega
  constructor
  · intro h
    by_cases hempty : bitcountLast cmd size < bitcountStart cmd size
    · exact .inl hempty
    · obtain ⟨hlow, hhigh⟩ := h _ (mem_visited.mpr ⟨le_rfl, not_lt.mp hempty⟩)
      unfold readAt at hlow hhigh
      cases hmode : isByteMode cmd with
      | true =>
        rw [hmode, if_pos rfl] at hlow
        exact .inr (.inl hlow)
      | false =>
        rw [hmode, if_neg (by decide)] at hlow hhigh
        by_cases hneg : bitcountStart cmd size < 0
        · have hdiv := (tdiv_eight_of_neg hneg).1
          exact .inr (.inr ⟨rfl, by omega, by omega⟩)
        · exact .inr (.inl (not_lt.mp hneg))
  · intro h q hq
    obtain ⟨hfrom, hto⟩ := mem_visited.mp hq
    unfold readAt
    unfold unitCount at hlast
    cases hmode : isByteMode cmd with
    | true =>
      rw [hmode] at h hlast
      simp only [if_true] at hlast ⊢
      have hstart : 0 ≤ bitcountStart cmd size := by
        rcases h with hempty | hstart | ⟨hbits, -⟩
        · omega
        · exact hstart
        · cases hbits
      omega
    | false =>
      rw [hmode] at hlast
      simp only [Bool.false_eq_true, if_false] at hlast ⊢
      by_cases hneg : q < 0
      · have hdiv := (tdiv_eight_of_neg hneg).1
        omega
      · rw [Int.tdiv_eq_ediv_of_nonneg (not_lt.mp hneg)]
        omega

/-- The positions of a range are a window. -/
theorem onesInRange_eq (s : Dstr) : onesInRange cmd s.buf = (List.range' (unitBits cmd * bitcountStart cmd s.size).toNat
    ((unitBits cmd * (bitcountLast cmd s.size + 1)).toNat - (unitBits cmd * bitcountStart cmd s.size).toNat)).countP
      (bitAt s.buf) := by
  have hend : (unitBits cmd * (bitcountLast cmd s.size + 1)).toNat ≤ 8 * s.buf.length := by
    unfold unitBits bitcountLast unitCount Dstr.size
    split
    · omega
    · omega
  rw [onesInRange, ← countP_window _ _ hend]
  apply List.countP_congr
  intro q hq
  rw [List.mem_range] at hq
  rw [Bool.and_eq_true, Bool.and_eq_true, decide_eq_true_eq, decide_eq_true_eq]
  apply and_congr_right
  intro _
  unfold unitBits bitcountLast unitCount Dstr.size
  split
  · omega
  · omega

end Ranges

/-! ### The command -/

section Commands

variable {g : GlobalData} {cmd : List Bytes} {s : Dstr}

/-- An index of a byte from the end, and of a bit of that byte from the end of the bits. -/
theorem countedFrom_bits (len : Nat) (i : Int) {bit : Nat} (hbit : bit < 8) :
    countedFrom (len * 8) (8 * i + bit) = 8 * countedFrom len i + bit := by
  unfold countedFrom
  split
  · rw [if_pos (by omega)]
    omega
  · rw [if_neg (by omega)]

theorem toI64_countedFrom {len : Nat} {i : Int} (hi : -2 ^ 63 ≤ i) (hlen : len ≤ 2 ^ 63) :
    (if i < 0 then toI64 (i + len) else i) = countedFrom len i := by
  unfold countedFrom toI64
  split
  · omega
  · rfl

theorem doBitcount_loop (h : g.WF) (hkey : Short (keyOf cmd)) (hargs : 2 ≤ cmd.length)
    (hs : g.payloadOf (keyOf cmd) = some (.bitmap s)) (hsize : s.size ≤ 2 ^ 60) (out : Bytes) :
    doBitcount g out cmd = (if isByteMode cmd then
      bitcountBytes s (bitcountLast cmd s.size - bitcountStart cmd s.size + 1).toNat (bitcountStart cmd s.size) 0
    else bitcountBits s (bitcountLast cmd s.size - bitcountStart cmd s.size + 1).toNat (bitcountStart cmd s.size) 0) >>=
      fun ret => .ok ⟨g, outInt out ret, .success⟩ := by
  obtain ⟨⟨hcode, key, addr, payload⟩, hn, rfl⟩ := nodeOf_of_payloadOf hs
  have hvalid : validateHmnode out (some ⟨hcode, key, addr, .bitmap s⟩) .bitmap = none := rfl
  have hcount : unitCount cmd s.size ≤ 2 ^ 63 := by
    unfold unitCount
    split
    · omega
    · omega
  have hfrom : (if startArg cmd < 0 then toI64 (startArg cmd + unitCount cmd s.size) else startArg cmd) =
      bitcountStart cmd s.size := toI64_countedFrom (le_indexArg cmd 2 (by decide)) hcount
  have hto : min (if endArg cmd < 0 then toI64 (endArg cmd + unitCount cmd s.size) else endArg cmd)
      (unitCount cmd s.size - 1) = bitcountLast cmd s.size := by
    rw [@toI64_countedFrom _ (endArg cmd) (le_indexArg cmd 3 (by decide)) hcount]
    rfl
  rw [← hfrom, ← hto, doBitcount, arg_one (by omega), ok_bind, findNode_bind h hkey, hn]
  simp only [hvalid]
  cases hmode : isByteMode cmd with
  | true =>
    rw [if_pos (show (cmd.length == 5 && strEq (cmd.getD 4 []) (text "BYTE")) = true from hmode)]
    rfl
  | false =>
    rw [if_neg (show ¬(cmd.length == 5 && strEq (cmd.getD 4 []) (text "BYTE")) = true from by rw [← isByteMode, hmode]; decide)]
    rfl

/-- The reads of `BITCOUNT`: one byte for every position that the loop visits. -/
theorem doBitcount_visits (h : g.WF) (hkey : Short (keyOf cmd)) (hargs : 2 ≤ cmd.length)
    (hs : g.payloadOf (keyOf cmd) = some (.bitmap s)) (hsize : s.size ≤ 2 ^ 60) (out : Bytes) :
    doBitcount g out cmd = (visited cmd s.size).foldlM
      (fun ret q => byteAt s (readAt cmd q) >>= fun byte => .ok (ret + onesAt cmd q byte)) 0 >>=
        fun ret => .ok ⟨g, outInt out ret, .success⟩ := by
  rw [doBitcount_loop h hkey hargs hs hsize, bitcountBytes_visits, bitcountBits_visits]
  unfold visited readAt onesAt
  split
  · rfl
  · rfl

/-- The reply is that of the loop over the bits of the range. -/
theorem doBitcount_eq (h : g.WF) (hkey : Short (keyOf cmd)) (hargs : 2 ≤ cmd.length)
    (hs : g.payloadOf (keyOf cmd) = some (.bitmap s)) (hsize : s.size ≤ 2 ^ 60) (out : Bytes) :
    doBitcount g out cmd =
      bitcountBits s (unitBits cmd * (bitcountLast cmd s.size - bitcountStart cmd s.size + 1).toNat)
        (unitBits cmd * bitcountStart cmd s.size) 0 >>= fun ret => .ok ⟨g, outInt out ret, .success⟩ := by
  rw [doBitcount_loop h hkey hargs hs hsize]
  have hlast : bitcountLast cmd s.size ≤ unitCount cmd s.size - 1 := min_le_right _ _
  cases hmode : isByteMode cmd with
  | true =>
    have hbits : unitBits cmd = 8 := by rw [unitBits, hmode, if_pos rfl]
    have hunits : unitCount cmd s.size = s.size := by rw [unitCount, hmode, if_pos rfl]
    rw [if_pos rfl, hbits, bitcountBytes_eq_bits (by omega)]
    rfl
  | false =>
    have hbits : unitBits cmd = 1 := by rw [unitBits, hmode, if_neg (by decide)]
    rw [if_neg (by decide), hbits, Nat.one_mul, Nat.cast_one, Int.one_mul]

/-- Inside the bitmap, `BITCOUNT` counts the ones of the range and the highest bit of the first byte once for every
position in front of the bitmap. -/
theorem doBitcount_spill (h : g.WF) (hkey : Short (keyOf cmd)) (hargs : 2 ≤ cmd.length)
    (hs : g.payloadOf (keyOf cmd) = some (.bitmap s)) (hsize : s.size ≤ 2 ^ 60) (hinside : StaysInside cmd s.size)
    (out : Bytes) :
    doBitcount g out cmd = .ok ⟨g, outInt out (min (bitcountLast cmd s.size - bitcountStart cmd s.size + 1).toNat
      (-bitcountStart cmd s.size).toNat * (bitAt s.buf 0).toNat + onesInRange cmd s.buf), .success⟩ := by
  have hlast : bitcountLast cmd s.size ≤ unitCount cmd s.size - 1 := min_le_right _ _
  have hcases := staysInside_iff.mp hinside
  rw [doBitcount_eq h hkey hargs hs hsize, onesInRange_eq]
  generalize bitcountLast cmd s.size = last at *
  generalize bitcountStart cmd s.size = start at *
  unfold unitCount at hlast
  unfold unitBits
  by_cases hempty : last < start
  · rw [show (last - start + 1).toNat = 0 by omega, Nat.mul_zero, Nat.zero_min, Nat.zero_mul]
    split
    · rw [show ((8 : Nat) * (last + 1)).toNat - ((8 : Nat) * start).toNat = 0 by omega]
      rfl
    · rw [show ((1 : Nat) * (last + 1)).toNat - ((1 : Nat) * start).toNat = 0 by omega]
      rfl
  · cases hmode : isByteMode cmd with
    | true =>
      rw [hmode, if_pos rfl] at hlast
      have hstart : 0 ≤ start := by
        rcases hcases with hout | hstart | ⟨hbits, -⟩
        · exact absurd hout hempty
        · exact hstart
        · rw [hmode] at hbits
          cases hbits
      rw [if_pos rfl, bitcountBits_window (by omega) (by omega), show (-start).toNat = 0 by omega, Nat.min_zero, Nat.zero_mul,
        show 8 * (last - start + 1).toNat = ((8 : Nat) * (last + 1)).toNat - ((8 : Nat) * start).toNat by omega]
      rfl
    | false =>
      rw [hmode, if_neg (by decide)] at hlast
      have hstart : 0 ≤ start ∨ -8 < start ∧ 0 < s.size := by
        rcases hcases with hout | hstart | ⟨-, hfront⟩
        · exact absurd hout hempty
        · exact .inl hstart
        · exact .inr hfront
      rw [if_neg (by decide), Nat.one_mul, Nat.cast_one, Int.one_mul, Int.one_mul, bitcountBits_spill hstart (by omega),
        show start + (last - start + 1).toNat = last + 1 by omega]
      rfl

theorem outInt_mod {out : Bytes} {n m : Nat} (h : outInt out n = outInt out m) : n % 2 ^ 32 = m % 2 ^ 32 := by
  rw [outInt_eq, outInt_eq] at h
  have hbytes : leBytes 4 n ++ [] = leBytes 4 m ++ [] := congrArg (· ++ []) (List.cons.inj (List.append_cancel_left h)).2
  have hn := leNat_leBytes_append_mod 4 n []
  rw [hbytes, leNat_leBytes_append_mod] at hn
  omega

/-- `BITCOUNT` reads inside the bitmap and replies the number of ones of the range exactly if the reply has room for that
number and the range is empty, starts inside the bitmap or starts, in bits, at most seven positions in front of a
bitmap whose first bit is zero. -/
theorem bitcount_range (h : g.WF) (hkey : Short (keyOf cmd)) (hargs : 2 ≤ cmd.length)
    (hs : g.payloadOf (keyOf cmd) = some (.bitmap s)) (hsize : s.size ≤ 2 ^ 60) (out : Bytes) :
    (StaysInside cmd s.size ∧ onesInRange cmd s.buf < 2 ^ 32 ∧
        doBitcount g out cmd = .ok ⟨g, outInt out (onesInRange cmd s.buf), .success⟩) ↔
      onesInRange cmd s.buf < 2 ^ 32 ∧ (bitcountLast cmd s.size < bitcountStart cmd s.size ∨ 0 ≤ bitcountStart cmd s.size ∨
        isByteMode cmd = false ∧ -8 < bitcountStart cmd s.size ∧ 0 < s.size ∧ bitAt s.buf 0 = false) := by
  constructor
  · rintro ⟨hinside, hlt, hrun⟩
    refine ⟨hlt, ?_⟩
    rw [doBitcount_spill h hkey hargs hs hsize hinside] at hrun
    have hmod := outInt_mod (Result.mk.inj (Except.ok.inj hrun)).2.1
    rcases staysInside_iff.mp hinside with hempty | hstart | ⟨hmode, hlow, hpos⟩
    · exact .inl hempty
    · exact .inr (.inl hstart)
    · cases hbit : bitAt s.buf 0 with
      | false => exact .inr (.inr ⟨hmode, hlow, hpos, rfl⟩)
      | true =>
        rw [hbit, Bool.toNat_true, Nat.mul_one, Nat.mod_eq_of_lt hlt] at hmod
        omega
  · rintro ⟨hlt, hcond⟩
    have hinside : StaysInside cmd s.size := by
      rw [staysInside_iff]
      rcases hcond with hempty | hstart | ⟨hmode, hlow, hpos, -⟩
      · exact .inl hempty
      · exact .inr (.inl hstart)
      · exact .inr (.inr ⟨hmode, hlow, hpos⟩)
    refine ⟨hinside, hlt, ?_⟩
    have hspill : min (bitcountLast cmd s.size - bitcountStart cmd s.size + 1).toNat (-bitcountStart cmd s.size).toNat *
        (bitAt s.buf 0).toNat = 0 := by
      rcases hcond with hempty | hstart | ⟨-, -, -, hbit⟩
      · rw [show (bitcountLast cmd s.size - bitcountStart cmd s.size + 1).toNat = 0 by omega, Nat.zero_min, Nat.zero_mul]
      · rw [show (-bitcountStart cmd s.size).toNat = 0 by omega, Nat.min_zero, Nat.zero_mul]
      · rw [hbit, Bool.toNat_false, Nat.mul_zero]
    rw [doBitcount_spill h hkey hargs hs hsize hinside, hspill, Nat.zero_add]

/-- Position `0` and position `9` are set. -/
def settingRequests : List (Env × Request) :=
  [({}, .ofTexts ["setbit", "b", "0", "1"]), ({}, .ofTexts ["setbit", "b", "9", "1"])]

theorem setting_run : ∃ g s, Run.run serverStep {} (settingRequests.map fun e => .request e.1 e.2) = .ok g ∧ g.WF ∧
    g.payloadOf (text "b") = some (.bitmap s) ∧ s.size = 2 ∧
    bitAt s.buf = Function.update (Function.update (fun _ => false) 0 true) 9 true := by
  have habsent : ({} : GlobalData).nodeOf (text "b") = none := by decide
  obtain ⟨g, hrun, hwf, hholds⟩ := @bits_run {} ⟨[], rfl⟩ (text "b") habsent settingRequests (by decide +kernel)
  obtain ⟨hcode, key, addr, s, hn, -, hsize, hbits⟩ :=
    @HoldsBits.exists_node g (["bitcount", "b"].map text) _ hholds (by decide +kernel)
  exact ⟨g, s, hrun, hwf, payloadOf_of_nodeOf hn, hsize, hbits⟩

/-- The last byte, with an end behind the bitmap. -/
theorem bitcount_range_tail : ∃ g, Run.run serverStep {} (settingRequests.map fun e => .request e.1 e.2) = .ok g ∧
    doBitcount g [] (["bitcount", "b", "-8", "20"].map text) = .ok ⟨g, outInt [] 1, .success⟩ := by
  obtain ⟨g, s, hrun, hwf, hs, hsize, hbits⟩ := setting_run
  have hones : onesInRange (["bitcount", "b", "-8", "20"].map text) s.buf = 1 := by
    rw [onesInRange, show s.buf.length = 2 from hsize, hbits]
    decide +kernel
  obtain ⟨-, -, hres⟩ := (@bitcount_range g (["bitcount", "b", "-8", "20"].map text) s hwf (by unfold Short; decide)
    (by decide) hs (by omega) []).mpr ⟨by rw [hones]; decide, .inr (.inl (by rw [hsize]; decide +kernel))⟩
  rw [hones] at hres
  exact ⟨g, hrun, hres⟩

/-- In front of the bitmap, the loop over bytes reads outside it, and the loop over bits counts the first bit twice. -/
theorem bitcount_before_start : (Run.run serverStep {} [.request {} (.ofTexts ["setbit", "b", "0", "1"])] >>= fun g =>
      (doBitcount g [] (["bitcount", "b", "-2", "-1", "BYTE"].map text)).map Result.out) = .error .outOfBounds ∧
    (Run.run serverStep {} [.request {} (.ofTexts ["setbit", "b", "0", "1"])] >>= fun g =>
      (doBitcount g [] (["bitcount", "b", "-9", "-1"].map text)).map Result.out) = .ok (outInt [] 2) := by
  decide +kernel

/-- The two modes agree on ranges of whole bytes. -/
theorem bitcount_modes_agree (h : g.WF) {byteCmd bitCmd : List Bytes} (hkey : Short (keyOf byteCmd))
    (hsame : keyOf bitCmd = keyOf byteCmd) (hbytes : isByteMode byteCmd = true) (hargs : 4 ≤ bitCmd.length)
    (hbits : isByteMode bitCmd = false) (hstart : strtol (bitCmd.getD 2 []) = 8 * strtol (byteCmd.getD 2 []))
    (hend : strtol (bitCmd.getD 3 []) = 8 * strtol (byteCmd.getD 3 []) + 7)
    (hs : g.payloadOf (keyOf byteCmd) = some (.bitmap s)) (hsize : s.size ≤ 2 ^ 60) (out : Bytes) :
    (doBitcount g out byteCmd = .error .outOfBounds ∧ doBitcount g out bitCmd = .error .outOfBounds) ∨
      ∃ n, doBitcount g out byteCmd = .ok ⟨g, outInt out n, .success⟩ ∧
        doBitcount g out bitCmd = .ok ⟨g, outInt out n, .success⟩ := by
  have hlen : byteCmd.length = 5 := by
    rw [isByteMode, Bool.and_eq_true, beq_iff_eq] at hbytes
    exact hbytes.1
  have hfive : unitBits byteCmd = 8 ∧ unitCount byteCmd s.size = s.size := by
    rw [unitBits, unitCount, hbytes]
    exact ⟨rfl, rfl⟩
  have hfour : unitBits bitCmd = 1 ∧ unitCount bitCmd s.size = s.size * 8 := by
    rw [unitBits, unitCount, hbits]
    exact ⟨rfl, rfl⟩
  have hfrom : bitcountStart bitCmd s.size = 8 * bitcountStart byteCmd s.size := by
    have hscale := countedFrom_bits s.size (strtol (byteCmd.getD 2 [])) (Nat.succ_pos 7)
    rw [Nat.cast_zero, Int.add_zero, Int.add_zero] at hscale
    rw [bitcountStart, bitcountStart, hfive.2, hfour.2, startArg, startArg, indexArg_eq (by omega), indexArg_eq (by omega),
      hstart, hscale]
  have hto : bitcountLast bitCmd s.size = 8 * bitcountLast byteCmd s.size + 7 := by
    have hscale := countedFrom_bits s.size (strtol (byteCmd.getD 3 [])) (Nat.lt_succ_self 7)
    rw [Nat.cast_ofNat] at hscale
    rw [bitcountLast, bitcountLast, bitcountEnd, bitcountEnd, hfive.2, hfour.2, endArg, endArg,
      indexArg_eq (by omega), indexArg_eq (by omega), hend, hscale]
    omega
  have hrun := doBitcount_eq h hkey (by omega) hs hsize out
  have hrun' := doBitcount_eq h (by rw [hsame]; exact hkey) (by omega) (by rw [hsame]; exact hs) hsize out
  rw [hfour.1, hfrom, hto, Nat.one_mul, Nat.cast_one, Int.one_mul, show (8 * bitcountLast byteCmd s.size + 7 -
    8 * bitcountStart byteCmd s.size + 1).toNat = 8 * (bitcountLast byteCmd s.size - bitcountStart byteCmd s.size + 1).toNat by
      omega] at hrun'
  rw [hfive.1] at hrun
  have hagree : doBitcount g out bitCmd = doBitcount g out byteCmd := by
    rw [hrun, hrun']
    rfl
  rw [hagree, and_self]
  by_cases hinside : StaysInside byteCmd s.size
  · exact .inr ⟨_, doBitcount_spill h hkey (by omega) hs hsize hinside out,
      doBitcount_spill h hkey (by omega) hs hsize hinside out⟩
  · rw [staysInside_iff, not_or, not_or] at hinside
    rw [hrun, bitcountBits_before (by omega) (by omega)]
    exact .inl rfl

/-- The second byte, once as a byte and once as bits. -/
theorem bitcount_modes_agree_tail : ∃ g, Run.run serverStep {} (settingRequests.map fun e => .request e.1 e.2) = .ok g ∧
    ((doBitcount g [] (["bitcount", "b", "1", "-1", "BYTE"].map text) = .error .outOfBounds ∧
        doBitcount g [] (["bitcount", "b", "8", "-1"].map text) = .error .outOfBounds) ∨
      ∃ n, doBitcount g [] (["bitcount", "b", "1", "-1", "BYTE"].map text) = .ok ⟨g, outInt [] n, .success⟩ ∧
        doBitcount g [] (["bitcount", "b", "8", "-1"].map text) = .ok ⟨g, outInt [] n, .success⟩) := by
  obtain ⟨g, s, hrun, hwf, hs, hsize, -⟩ := setting_run
  exact ⟨g, hrun, @bitcount_modes_agree g s hwf (["bitcount", "b", "1", "-1", "BYTE"].map text)
    (["bitcount", "b", "8", "-1"].map text) (by unfold Short; decide) (by decide) (by decide) (by decide) (by decide)
    (by decide) (by decide) hs (by omega) []⟩

end Commands

end CustomRedis
