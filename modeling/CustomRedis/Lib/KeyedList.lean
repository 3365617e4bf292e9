import Mathlib.Data.List.Perm.Basic
import Mathlib.Data.List.Nodup

/-!
# Lists with distinct keys

A list whose members carry pairwise distinct keys is a finite map, whatever its order. `at? key l k`
is the member at a key. It reads the same in every rearrangement of the list, and it commutes with
the updates a map knows: adding a fresh key, removing a key, rewriting the members in place.
-/

namespace KeyedList

variable {β κ : Type} {key : β → κ}

/-- No two members share a key. -/
def Distinct (key : β → κ) (l : List β) : Prop := (l.map key).Nodup

@[simp] theorem distinct_nil : Distinct key [] := List.nodup_nil

theorem distinct_cons {b : β} {l : List β} : Distinct key (b :: l) ↔ key b ∉ l.map key ∧ Distinct key l := by
  simp [Distinct]

theorem Distinct.perm {l l' : List β} (h : Distinct key l) (hp : l.Perm l') : Distinct key l' :=
  (hp.map key).nodup_iff.mp h

theorem Distinct.filter {l : List β} (h : Distinct key l) (p : β → Bool) : Distinct key (l.filter p) :=
  h.sublist (List.Sublist.map key List.filter_sublist)

theorem Distinct.eq_of_key_eq {l : List β} (h : Distinct key l) {b c : β} (hb : b ∈ l) (hc : c ∈ l)
    (hk : key b = key c) : b = c :=
  List.inj_on_of_nodup_map h hb hc hk

theorem map_key_map {f : β → β} (hf : ∀ b, key (f b) = key b) (l : List β) :
    (l.map f).map key = l.map key := by
  rw [List.map_map]
  exact List.map_congr_left fun b _ => hf b

theorem Distinct.map {f : β → β} (hf : ∀ b, key (f b) = key b) {l : List β} (h : Distinct key l) :
    Distinct key (l.map f) := by
  unfold Distinct
  rwa [map_key_map hf]

section Lookup

variable [DecidableEq κ]

/-- The member at a key. -/
def at? (key : β → κ) (l : List β) (k : κ) : Option β := l.find? fun b => key b = k

@[simp] theorem at?_nil (k : κ) : at? key [] k = none := rfl

theorem at?_cons (b : β) (l : List β) (k : κ) :
    at? key (b :: l) k = if key b = k then some b else at? key l k := by
  by_cases h : key b = k <;> simp [at?, h]

theorem key_of_at? {l : List β} {k : κ} {b : β} (h : at? key l k = some b) : key b = k := by
  simpa using List.find?_some h

theorem mem_of_at? {l : List β} {k : κ} {b : β} (h : at? key l k = some b) : b ∈ l :=
  List.mem_of_find?_eq_some h

theorem at?_eq_none {l : List β} {k : κ} : at? key l k = none ↔ k ∉ l.map key := by
  simp [at?]

/-- The members of a list with distinct keys are exactly what its keys lead to. -/
theorem Distinct.at?_of_mem {l : List β} (h : Distinct key l) {b : β} (hb : b ∈ l) :
    at? key l (key b) = some b := by
  cases hfind : at? key l (key b) with
  | none => exact absurd (List.mem_map_of_mem hb) (at?_eq_none.mp hfind)
  | some c => rw [h.eq_of_key_eq (mem_of_at? hfind) hb (key_of_at? hfind)]

theorem Distinct.at?_eq_some {l : List β} (h : Distinct key l) {k : κ} {b : β} :
    at? key l k = some b ↔ b ∈ l ∧ key b = k := by
  constructor
  · intro hfind
    exact ⟨mem_of_at? hfind, key_of_at? hfind⟩
  · rintro ⟨hb, rfl⟩
    exact h.at?_of_mem hb

/-- The order of the list does not matter. -/
theorem at?_perm {l l' : List β} (h : Distinct key l) (hp : l.Perm l') (k : κ) :
    at? key l k = at? key l' k := by
  apply Option.ext
  intro b
  rw [h.at?_eq_some, (h.perm hp).at?_eq_some, hp.mem_iff]

theorem at?_filter_ne (l : List β) (k k' : κ) :
    at? key (l.filter fun b => key b ≠ k) k' = if k' = k then none else at? key l k' := by
  induction l with
  | nil => simp
  | cons b l ih =>
    by_cases hb : key b = k
    · rw [List.filter_cons_of_neg (by simp [hb]), ih, at?_cons, hb]
      by_cases hk : k' = k
      · simp [hk]
      · simp [hk, Ne.symm hk]
    · rw [List.filter_cons_of_pos (by simp [hb]), at?_cons, at?_cons, ih]
      by_cases hk : k' = k
      · subst hk
        simp [hb]
      · simp [hk]

/-- Rewriting every member without touching its key rewrites what each key leads to. -/
theorem at?_map {f : β → β} (hf : ∀ b, key (f b) = key b) (l : List β) (k : κ) :
    at? key (l.map f) k = (at? key l k).map f := by
  induction l with
  | nil => rfl
  | cons b l ih =>
    rw [List.map_cons, at?_cons, at?_cons, hf, ih]
    by_cases hb : key b = k <;> simp [hb]

/-- Updates one after the other at the keys of a list leave the other keys alone. -/
theorem foldl_update_of_ne {γ : Type} {l : List β} {k : κ} (hne : ∀ b ∈ l, key b ≠ k) (val : β → γ) (f : κ → γ) :
    l.foldl (fun f b => Function.update f (key b) (val b)) f k = f k := by
  induction l generalizing f with
  | nil => rfl
  | cons b l ih =>
    obtain ⟨hb, hne⟩ := List.forall_mem_cons.mp hne
    rw [List.foldl_cons, ih hne, Function.update_of_ne hb.symm]

end Lookup

end KeyedList
