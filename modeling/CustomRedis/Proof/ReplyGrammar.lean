import CustomRedis.Proof.StoredStrings
import CustomRedis.Proof.Frames
import CustomRedis.Proof.Errors
import CustomRedis.Lib.PrefixCode

/-!
# The values of replies

A complete value carries its length with it, so no value begins like another one, and the count of an array says how
many values there are only if it is not cut off at 32 bits.
-/

namespace CustomRedis

open Run (ok_of_bind)
open PrefixCode (Alone)

/-- The bytes of one value, with all that belongs to it. -/
inductive Complete : Bytes → Prop
  | null : Complete [tagNull]
  | int (n : Nat) : Complete (tagInt :: leBytes 4 n)
  | double (d : Nat) : Complete (tagDouble :: leBytes 8 d)
  | str (s : Bytes) (h : s.length < 2 ^ 32) : Complete (tagStr :: (leBytes 4 s.length ++ s))
  | error (s : Bytes) (h : s.length < 2 ^ 32) : Complete (tagError :: (leBytes 4 s.length ++ s))
  | arr (vs : List Bytes) (hvs : ∀ v ∈ vs, Complete v) (h : vs.length < 2 ^ 32) :
      Complete (tagArr :: (leBytes 4 vs.length ++ vs.flatten))

theorem leBytes_append_inj {n m : Nat} {x y : Bytes} (hn : n < 2 ^ 32) (hm : m < 2 ^ 32)
    (h : leBytes 4 n ++ x = leBytes 4 m ++ y) : n = m ∧ x = y := by
  obtain ⟨hbytes, hrest⟩ := List.append_inj h (by rw [length_leBytes, length_leBytes])
  refine ⟨?_, hrest⟩
  rw [← leNat_leBytes 4 n (by omega), hbytes, leNat_leBytes 4 m (by omega)]

/-- A text with its length in front of it is determined by any longer text. -/
theorem counted_append_inj {s t x y : Bytes} (hs : s.length < 2 ^ 32) (ht : t.length < 2 ^ 32)
    (h : leBytes 4 s.length ++ s ++ x = leBytes 4 t.length ++ t ++ y) : s = t := by
  rw [List.append_assoc, List.append_assoc] at h
  obtain ⟨hlen, hrest⟩ := leBytes_append_inj hs ht h
  exact (List.append_inj hrest hlen).1

/-- No value begins like another one. -/
theorem Complete.alone {u : Bytes} (hu : Complete u) : Alone Complete u := by
  induction hu with
  | null =>
    intro v x y hv h
    cases hv with
    | null => rfl
    | _ => cases (List.cons.inj h).1
  | int n =>
    intro v x y hv h
    cases hv with
    | int m =>
      have hrest := (List.append_inj (List.cons.inj h).2 (by rw [length_leBytes, length_leBytes])).1
      rw [hrest]
    | _ => cases (List.cons.inj h).1
  | double d =>
    intro v x y hv h
    cases hv with
    | double e =>
      have hrest := (List.append_inj (List.cons.inj h).2 (by rw [length_leBytes, length_leBytes])).1
      rw [hrest]
    | _ => cases (List.cons.inj h).1
  | str s hs =>
    intro v x y hv h
    cases hv with
    | str t ht => rw [counted_append_inj hs ht (List.cons.inj h).2]
    | _ => cases (List.cons.inj h).1
  | error s hs =>
    intro v x y hv h
    cases hv with
    | error t ht => rw [counted_append_inj hs ht (List.cons.inj h).2]
    | _ => cases (List.cons.inj h).1
  | arr us hus hlt ih =>
    intro v x y hv h
    cases hv with
    | arr vs hvs hlt' =>
      have hbody : leBytes 4 us.length ++ us.flatten ++ x = leBytes 4 vs.length ++ vs.flatten ++ y := (List.cons.inj h).2
      rw [List.append_assoc, List.append_assoc] at hbody
      obtain ⟨hlen, hrest⟩ := leBytes_append_inj hlt hlt' hbody
      rw [PrefixCode.eq_of_flatten_append ih hvs hlen hrest]
    | _ => cases (List.cons.inj h).1

section Helpers

variable (out : Bytes)

theorem outInt_eq (n : Nat) : outInt out n = out ++ tagInt :: leBytes 4 n := by
  simp [outInt, bufAppendU32, bufAppendU8, bufAppend]

theorem outDouble_eq (d : Double) : outDouble out d = out ++ tagDouble :: leBytes 8 d.bits.toNat := by
  simp [outDouble, bufAppendDouble, bufAppendU8, bufAppend]

theorem outStr_eq (s : Bytes) : outStr out s = out ++ tagStr :: (leBytes 4 s.length ++ s) := by
  simp [outStr, bufAppendU32, bufAppendU8, bufAppend]

theorem outArr_eq (n : Nat) : outArr out n = out ++ tagArr :: leBytes 4 n := by
  simp [outArr, bufAppendU32, bufAppendU8, bufAppend]

/-- The value of a string. -/
def strValue (s : Bytes) : Bytes := tagStr :: (leBytes 4 s.length ++ s)

theorem outStrs_eq (strs : List Bytes) : outStrs out strs = out ++ (strs.map strValue).flatten := by
  induction strs generalizing out with
  | nil => simp [outStrs]
  | cons s strs ih =>
    show outStrs (outStr out s) strs = _
    rw [ih, outStr_eq, List.map_cons, List.flatten_cons, List.append_assoc]
    rfl

end Helpers

theorem complete_strValue {s : Bytes} (h : Brief s) : Complete (strValue s) := .str s h.lt

/-- The array that holds the given values. -/
def arrValue (vs : List Bytes) : Bytes := tagArr :: (leBytes 4 vs.length ++ vs.flatten)

theorem outStrs_outArr (out : Bytes) (strs : List Bytes) :
    outStrs (outArr out strs.length) strs = out ++ arrValue (strs.map strValue) := by
  rw [outStrs_eq, outArr_eq, arrValue, List.length_map, List.append_assoc, List.cons_append]

end CustomRedis
