import CustomRedis.Lib.Run
import CustomRedis.Model.Dstr
import CustomRedis.Model.OutHelpers

/-!
# Runs of string operations

A string is sound if its `size` and `free` fields together stay within the bytes that were allocated. A sound
string is changed only inside its block, so what has to be found out is which operations keep it sound.
`dstr_append` counts the old `free` bytes out of the new ones instead of the old `size`, and `dstr_reserve` forgets
the header of the block and that its sums may wrap around.

The limit on the size is compared with the reserved bytes counted in, so an append can be refused for a string that
would be within it. A copy into a string that was made to measure is refused from half the limit on.
-/

namespace CustomRedis

open Run (ok_bind ok_of_bind)

inductive StrOp
  | append (toadd : Bytes)
  | assign (toadd : Bytes)
  | resize (len : Nat) (pad : UInt8)
  | reserve (junk : Nat → UInt8) (add : UInt64)

def StrOp.run (str : Dstr) : StrOp → M (Dstr × StrRet)
  | append toadd => dstrAppend str toadd
  | assign toadd => dstrAssign str toadd
  | resize len pad => dstrResize str len pad
  | reserve junk add => dstrReserve junk str add

/-- What an operation does to a byte string. -/
def StrOp.apply (ref : Bytes) : StrOp → Bytes
  | append toadd => ref ++ toadd
  | assign toadd => toadd
  | resize len pad => ref.take len ++ List.replicate (len - ref.length) pad
  | reserve _ _ => ref

/-- One operation on a string and on the byte string beside it. An operation that reports an error changes
neither. -/
def strStep (s : Dstr × Bytes) (op : StrOp) : M (Dstr × Bytes) := do
  let (str, ret) ← op.run s.1
  .ok (str, if ret = .ok then op.apply s.2 else s.2)

/-- The string is sound and holds the bytes of the reference. -/
def StrGood (s : Dstr × Bytes) : Prop := s.1.Sound ∧ s.1.buf = s.2

/-- The condition under which an operation keeps a string sound: an append that has to grow the string finds no
more bytes used than free, and a reservation has nothing to allocate. One whose sum wraps around is not refused. -/
def KeepsSound (s : Dstr × Bytes) : StrOp → Prop
  | .append toadd => toadd.length + dstrCap s.1 > maxStrSize ∨ toadd.length ≤ s.1.free ∨ s.1.size ≤ s.1.free
  | .reserve _ add => (s.1.size + add.toNat) % 2 ^ 64 > maxStrSize ∨ add.toNat ≤ s.1.free
  | _ => True

/-- What is left to show of an operation that returns. -/
theorem strStep_good_iff {s : Dstr × Bytes} {op : StrOp} {str : Dstr} {ret : StrRet} (hrun : op.run s.1 = .ok (str, ret))
    (hbuf : str.buf = if ret = .ok then op.apply s.2 else s.2) :
    (∃ s', strStep s op = .ok s' ∧ StrGood s') ↔ str.Sound := by
  have hstep : strStep s op = .ok (str, if ret = .ok then op.apply s.2 else s.2) := by
    rw [strStep, hrun]
    rfl
  constructor
  · rintro ⟨s', hs', hgood⟩
    rw [hstep] at hs'
    cases hs'
    exact hgood.1
  · intro hsound
    exact ⟨_, hstep, hsound, hbuf⟩

theorem append_good_iff {s : Dstr × Bytes} (h : StrGood s) (toadd : Bytes) :
    (∃ s', strStep s (.append toadd) = .ok s' ∧ StrGood s') ↔ KeepsSound s (.append toadd) := by
  obtain ⟨hs, hbuf⟩ := h
  unfold KeepsSound Dstr.Sound at *
  by_cases hlarge : toadd.length + dstrCap s.1 > maxStrSize
  · have hrun : StrOp.run s.1 (.append toadd) = .ok (s.1, .errTooLarge) := if_pos hlarge
    exact (strStep_good_iff hrun hbuf).trans (iff_of_true hs (.inl hlarge))
  · have hcap : dstrCap s.1 = s.1.free + s.1.size := rfl
    by_cases hfree : s.1.free < toadd.length
    · obtain ⟨newlen, hnewlen⟩ : ∃ n, n = s.1.size + s.1.free + toadd.length +
          min maxStrPrealoc (s.1.size + s.1.free + toadd.length) := ⟨_, rfl⟩
      have hrun : StrOp.run s.1 (.append toadd) = .ok (⟨s.1.buf ++ toadd, newlen - s.1.free - toadd.length,
          sizeofDstr + newlen + 1⟩, .ok) := by
        rw [StrOp.run, dstrAppend, if_neg hlarge]
        simp only [if_pos hfree, ← hnewlen]
        rw [if_pos (by omega)]
      refine (strStep_good_iff hrun (by rw [hbuf]; rfl)).trans ?_
      simp only [Dstr.Sound, Dstr.size, List.length_append] at *
      omega
    · have hrun : StrOp.run s.1 (.append toadd) =
          .ok (⟨s.1.buf ++ toadd, s.1.free - toadd.length, s.1.alloc⟩, .ok) := by
        rw [StrOp.run, dstrAppend, if_neg hlarge]
        simp only [if_neg hfree]
        rw [if_pos (by omega)]
      refine (strStep_good_iff hrun (by rw [hbuf]; rfl)).trans ?_
      simp only [Dstr.Sound, Dstr.size, List.length_append] at *
      omega

theorem assign_good {s : Dstr × Bytes} (h : StrGood s) (toadd : Bytes) :
    ∃ s', strStep s (.assign toadd) = .ok s' ∧ StrGood s' := by
  obtain ⟨hs, hbuf⟩ := h
  have hcap : dstrCap s.1 = s.1.free + s.1.size := rfl
  by_cases hlarge : dstrCap s.1 > maxStrSize
  · have hrun : StrOp.run s.1 (.assign toadd) = .ok (s.1, .errTooLarge) := by
      rw [StrOp.run, dstrAssign, dstrInit, if_pos hlarge]
    exact (strStep_good_iff hrun hbuf).mpr hs
  · have hfresh : StrGood (⟨[], dstrCap s.1, sizeofDstr + dstrCap s.1 + 1⟩, []) := by
      refine ⟨?_, rfl⟩
      simp only [Dstr.Sound, Dstr.size, List.length_nil]
      omega
    -- the fresh string is empty, so the append grows it soundly
    obtain ⟨s', hs', hgood⟩ := (append_good_iff hfresh toadd).mpr (.inr (.inr (Nat.zero_le _)))
    obtain ⟨⟨tmp, err⟩, happ, hret⟩ := ok_of_bind hs'
    cases hret
    have hrun : StrOp.run s.1 (.assign toadd) = if err ≠ .ok then .ok (s.1, err) else .ok (tmp, .ok) := by
      rw [StrOp.run, dstrAssign, dstrInit_eq (Nat.le_of_not_lt hlarge)]
      simp only [show dstrAppend _ toadd = _ from happ, ok_bind]
    by_cases herr : err = .ok
    · rw [if_neg (not_not_intro herr)] at hrun
      rw [if_pos herr] at hgood
      exact (strStep_good_iff hrun hgood.2).mpr hgood.1
    · rw [if_pos herr] at hrun
      exact (strStep_good_iff hrun (by rw [if_neg herr]; exact hbuf)).mpr hs

theorem resize_good {s : Dstr × Bytes} (h : StrGood s) (len : Nat) (pad : UInt8) :
    ∃ s', strStep s (.resize len pad) = .ok s' ∧ StrGood s' := by
  obtain ⟨hs, hbuf⟩ := h
  unfold Dstr.Sound at *
  have hcap : dstrCap s.1 = s.1.free + s.1.size := rfl
  by_cases hlarge : len > maxStrSize
  · have hrun : StrOp.run s.1 (.resize len pad) = .ok (s.1, .errTooLarge) := if_pos hlarge
    exact (strStep_good_iff hrun hbuf).mpr hs
  · obtain ⟨buf, hgrown⟩ : ∃ buf, buf = if s.1.size < len then s.1.buf ++ List.replicate (len - s.1.size) pad
        else s.1.buf.take len := ⟨_, rfl⟩
    have hlen : buf.length = len := by
      rw [hgrown]
      split
      · next hlt =>
        rw [List.length_append, List.length_replicate]
        exact Nat.add_sub_of_le hlt.le
      · next hge =>
        rw [List.length_take]
        exact Nat.min_eq_left (Nat.le_of_not_lt hge)
    have happly : buf = StrOp.apply s.2 (.resize len pad) := by
      rw [hgrown, StrOp.apply, ← hbuf]
      split
      · next hlt => rw [List.take_of_length_le hlt.le]
      · next hge => rw [Nat.sub_eq_zero_of_le (Nat.le_of_not_lt hge), List.replicate_zero, List.append_nil]
    by_cases hrealloc : s.1.size < len ∧ dstrCap s.1 < len
    · have hrun : StrOp.run s.1 (.resize len pad) = .ok (⟨buf, len - len, sizeofDstr + len + 1⟩, .ok) := by
        rw [StrOp.run, dstrResize, if_neg hlarge]
        simp only [if_pos hrealloc, ← hgrown]
        rw [if_pos (Nat.le_refl _)]
      refine (strStep_good_iff hrun happly).mpr ?_
      simp only [Dstr.Sound, Dstr.size]
      omega
    · have hrun : StrOp.run s.1 (.resize len pad) = .ok (⟨buf, dstrCap s.1 - len, s.1.alloc⟩, .ok) := by
        rw [StrOp.run, dstrResize, if_neg hlarge]
        simp only [if_neg hrealloc, ← hgrown]
        rw [if_pos (by omega)]
      refine (strStep_good_iff hrun happly).mpr ?_
      simp only [Dstr.Sound, Dstr.size] at *
      omega

theorem reserve_good_iff {s : Dstr × Bytes} (h : StrGood s) (junk : Nat → UInt8) (add : UInt64) :
    (∃ s', strStep s (.reserve junk add) = .ok s' ∧ StrGood s') ↔ KeepsSound s (.reserve junk add) := by
  obtain ⟨hs, hbuf⟩ := h
  unfold KeepsSound
  by_cases hlarge : (s.1.size + add.toNat) % 2 ^ 64 > maxStrSize
  · have hrun : StrOp.run s.1 (.reserve junk add) = .ok (s.1, .errTooLarge) := if_pos hlarge
    exact (strStep_good_iff hrun hbuf).trans (iff_of_true hs (.inl hlarge))
  · by_cases hfree : s.1.free ≥ add.toNat
    · have hrun : StrOp.run s.1 (.reserve junk add) = .ok (s.1, .ok) := by
        rw [StrOp.run, dstrReserve, if_neg hlarge, if_pos hfree]
      exact (strStep_good_iff hrun hbuf).trans (iff_of_true hs (.inr hfree))
    · refine iff_of_false ?_ (by omega)
      rintro ⟨s', hs', hgood⟩
      obtain ⟨⟨str, ret⟩, hrun, hs'⟩ := ok_of_bind hs'
      cases hs'
      rw [StrOp.run, dstrReserve, if_neg hlarge, if_neg hfree] at hrun
      by_cases hroom : sizeofDstr ≤ (s.1.size + add.toNat + 1) % 2 ^ 64
      · simp only [if_pos hroom] at hrun
        cases hrun
        have hsound := hgood.1
        -- wrapped around or not, the block has at most the bytes of the sum
        have hshort : (s.1.size + add.toNat + 1) % 2 ^ 64 ≤ s.1.size + add.toNat + 1 := Nat.mod_le _ _
        simp only [Dstr.Sound, Dstr.size, List.length_append, List.length_take, List.length_map, List.length_range]
          at hsound hroom hshort
        unfold sizeofDstr at *
        omega
      · simp only [if_neg hroom] at hrun
        cases hrun

-- a sum that wraps around: the block keeps two of the twenty bytes
example : (dstrReserve (fun _ => 0) ⟨List.replicate 20 97, 0, 37⟩ (0 - 3)).map (fun r => (r.1.alloc, r.2)) = .ok (18, .ok) := by
  decide +kernel

/-- One operation on a sound string. -/
theorem strStep_iff (s : Dstr × Bytes) (op : StrOp) (h : StrGood s) :
    (∃ s', strStep s op = .ok s' ∧ StrGood s') ↔ KeepsSound s op := by
  cases op with
  | append toadd => exact append_good_iff h toadd
  | assign toadd => exact iff_of_true (assign_good h toadd) trivial
  | resize len pad => exact iff_of_true (resize_good h len pad) trivial
  | reserve junk add => exact reserve_good_iff h junk add

/-- A run from a fresh string never writes outside the block, keeps the string sound and keeps its bytes those of
the reference if and only if every operation of it meets the condition. -/
theorem dstr_run_sound_iff {len : Nat} {str : Dstr} (hinit : dstrInit len = some str) (ops : List StrOp) :
    Run.Always strStep StrGood (str, []) ops ↔ Run.Along strStep KeepsSound (str, []) ops := by
  apply Run.always_iff_along strStep_iff
  unfold dstrInit at hinit
  split at hinit
  · cases hinit
  · cases hinit
    refine ⟨?_, rfl⟩
    simp only [Dstr.Sound, Dstr.size, List.length_nil]
    omega

/-- Two appends that use up the free bytes and a third one that grows the string: the fields promise 14 bytes of 10.
The next append trusts them and writes behind the block. -/
theorem dstr_free_exceeds : ∃ str str', dstrInit 0 = some str ∧
    Run.run strStep (str, []) [.append (text "ab"), .append (text "ab"), .append (text "c")] = .ok (str', text "ababc") ∧
    ¬str'.Sound ∧ strStep (str', text "ababc") (.append (text "123456789")) = .error .outOfBounds := by
  refine ⟨_, ⟨text "ababc", 9, 27⟩, rfl, ?_, ?_, ?_⟩
  · decide +kernel
  · unfold Dstr.Sound
    decide
  · decide +kernel

theorem dstr_run_sound_copy : ∃ str, dstrInit 3 = some str ∧
    Run.Always strStep StrGood (str, []) [.append (text "abc"), .assign (text "d"), .resize 5 0] := by
  have hinit : dstrInit 3 = some ⟨[], 3, sizeofDstr + 3 + 1⟩ := rfl
  refine ⟨_, hinit, (dstr_run_sound_iff hinit _).mpr ?_⟩
  refine ⟨.inr (.inl (by decide)), fun s' _ => ⟨trivial, fun s'' _ => ⟨trivial, fun _ _ => trivial⟩⟩⟩

/-! ### The size limit -/

theorem dstrAppend_refuses_iff (str : Dstr) (toadd : Bytes) :
    (∃ str', dstrAppend str toadd = .ok (str', .errTooLarge)) ↔ toadd.length + dstrCap str > maxStrSize := by
  constructor
  · rintro ⟨str', hrun⟩
    by_contra hfits
    rw [dstrAppend, if_neg hfits] at hrun
    -- whether there was room or not, no error is returned any more
    have hreturns : ∀ (room : Prop) [Decidable room] (grown : Dstr),
        (if room then .ok (grown, .ok) else .error .outOfBounds : M (Dstr × StrRet)) ≠ .ok (str', .errTooLarge) := by
      intro room _ grown hrun
      split at hrun
      · cases hrun
      · cases hrun
    exact hreturns _ _ hrun
  · intro hlarge
    exact ⟨str, if_pos hlarge⟩

theorem dstrAppend_refused {str str' : Dstr} {toadd : Bytes} (hrun : dstrAppend str toadd = .ok (str', .errTooLarge)) :
    str' = str := by
  have hlarge := (dstrAppend_refuses_iff str toadd).mp ⟨str', hrun⟩
  rw [dstrAppend, if_pos hlarge] at hrun
  cases hrun
  rfl

/-- An append is refused exactly for a string that would be too long, and then nothing has changed. -/
def RefusesTooLong (str : Dstr) (toadd : Bytes) : Prop :=
  ((∃ str', dstrAppend str toadd = .ok (str', .errTooLarge)) ↔ str.size + toadd.length > maxStrSize) ∧
    ∀ str', dstrAppend str toadd = .ok (str', .errTooLarge) → str' = str

theorem refusesTooLong_iff (str : Dstr) (toadd : Bytes) : RefusesTooLong str toadd ↔
    (str.size + toadd.length ≤ maxStrSize → str.size + str.free + toadd.length ≤ maxStrSize) := by
  rw [RefusesTooLong, and_iff_left fun _ => dstrAppend_refused, dstrAppend_refuses_iff, dstrCap]
  omega

/-- The copy idiom yields a string with the bytes of the source. -/
def Copies (src : Bytes) : Prop := ∃ str, dstrCopy src = .ok str ∧ str.buf = src

/-- From half the limit on the append is refused, and the copy stays empty. -/
theorem dstrCopy_empty {src : Bytes} (hle : src.length ≤ maxStrSize) (hlarge : 2 * src.length > maxStrSize) :
    dstrCopy src = .ok ⟨[], src.length, sizeofDstr + src.length + 1⟩ := by
  have hrefused : dstrAppend ⟨[], src.length, sizeofDstr + src.length + 1⟩ src =
      .ok (⟨[], src.length, sizeofDstr + src.length + 1⟩, .errTooLarge) := by
    rw [dstrAppend, if_pos]
    simp only [dstrCap, Dstr.size, List.length_nil]
    omega
  rw [dstrCopy, dstrInit_eq hle]
  simp only [hrefused, ok_bind]

theorem copies_iff {src : Bytes} (hle : src.length ≤ maxStrSize) : Copies src ↔ 2 * src.length ≤ maxStrSize := by
  constructor
  · rintro ⟨str, hrun, hbuf⟩
    by_contra hlarge
    rw [dstrCopy_empty hle (Nat.lt_of_not_le hlarge)] at hrun
    cases hrun
    rw [← hbuf] at hlarge
    exact hlarge (Nat.zero_le maxStrSize)
  · exact dstrCopy_ok

/-- The copy idiom copies up to half the limit, and an append is refused for the right strings alone where the bytes that
are free besides do not matter. -/
theorem dstr_limit {src : Bytes} (hle : src.length ≤ maxStrSize) (str : Dstr) (toadd : Bytes) :
    (Copies src ↔ 2 * src.length ≤ maxStrSize) ∧
    (RefusesTooLong str toadd ↔
      (str.size + toadd.length ≤ maxStrSize → str.size + str.free + toadd.length ≤ maxStrSize)) :=
  ⟨copies_iff hle, refusesTooLong_iff str toadd⟩

theorem dstr_limit_short : Copies (text "abc") ∧ RefusesTooLong ⟨text "abc", 5, 25⟩ (text "d") := by
  have hshort : (text "abc").length ≤ maxStrSize := by decide
  obtain ⟨hcopy, happend⟩ := dstr_limit hshort ⟨text "abc", 5, 25⟩ (text "d")
  exact ⟨hcopy.mpr (by decide), happend.mpr fun _ => by decide⟩

/-- A copy of one byte more than half the limit is empty, and a string that was made with the full capacity takes no
byte at all. -/
theorem copy_over_half_empty : (∃ str, dstrCopy (List.replicate (2 ^ 29 + 1) 97) = .ok str ∧ str.buf = []) ∧
    ∃ str, dstrInit maxStrSize = some str ∧ str.size + (text "a").length ≤ maxStrSize ∧
      dstrAppend str (text "a") = .ok (str, .errTooLarge) := by
  refine ⟨⟨_, dstrCopy_empty ?_ ?_, rfl⟩, ⟨_, dstrInit_eq (Nat.le_refl _), by decide, by decide⟩⟩
  · rw [List.length_replicate]
    decide
  · rw [List.length_replicate]
    decide

end CustomRedis
