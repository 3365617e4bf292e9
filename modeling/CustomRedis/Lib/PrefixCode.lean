import Mathlib.Tactic

/-!
# Sequences of codewords

Where no codeword begins like another one, a sequence of codewords can be read off its concatenation.
-/

namespace PrefixCode

variable {α : Type} {S : List α → Prop}

/-- No codeword but `u` itself begins like `u`, and `u` begins like no other codeword. -/
def Alone (S : List α → Prop) (u : List α) : Prop := ∀ v x y, S v → u ++ x = v ++ y → u = v

/-- As many codewords from the same beginning of a text are the same. -/
theorem eq_of_flatten_append {us vs : List (List α)} (hus : ∀ u ∈ us, Alone S u) (hvs : ∀ v ∈ vs, S v)
    (hlen : us.length = vs.length) {x y : List α} (h : us.flatten ++ x = vs.flatten ++ y) : us = vs := by
  induction us generalizing vs with
  | nil => exact (List.eq_nil_of_length_eq_zero hlen.symm).symm
  | cons u us ih =>
    cases vs with
    | nil => cases hlen
    | cons v vs =>
      rw [List.flatten_cons, List.flatten_cons, List.append_assoc, List.append_assoc] at h
      have hfirst : u = v := hus u List.mem_cons_self v _ _ (hvs v List.mem_cons_self) h
      rw [hfirst] at h ⊢
      have hrest := List.append_cancel_left h
      have htail := ih (fun w hw => hus w (List.mem_cons_of_mem _ hw)) (fun w hw => hvs w (List.mem_cons_of_mem _ hw))
        (Nat.succ.inj hlen) hrest
      rw [htail]

end PrefixCode
