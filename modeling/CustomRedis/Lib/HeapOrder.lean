import Mathlib.Tactic

/-!
# The order of a binary heap in a vector

The children of position `i` are the positions `2 * i + 1` and `2 * i + 2`. A sift takes the value at one
position out and moves the hole up or down until the value fits. Here it is told by the values alone: what
a hole leaves of the order, which moves of the hole keep that, and when filling it restores the order.
-/

namespace HeapOrder

open Function (update)

variable {α : Type} [LinearOrder α] {v : Nat → α} {n hole : Nat} {x : α}

def parent (i : Nat) : Nat := (i - 1) / 2

def left (i : Nat) : Nat := 2 * i + 1

def right (i : Nat) : Nat := 2 * i + 2

/-- No value is smaller than the one above it. -/
def Ordered (v : Nat → α) (n : Nat) : Prop := ∀ i, 0 < i → i < n → v (parent i) ≤ v i

theorem Ordered.root_le (h : Ordered v n) {i : Nat} (hi : i < n) : v 0 ≤ v i := by
  induction i using Nat.strongRecOn with
  | ind i ih =>
    rcases Nat.eq_zero_or_pos i with rfl | hpos
    · exact le_rfl
    · have hlt : parent i < i := by
        unfold parent
        omega
      exact (ih (parent i) hlt (hlt.trans hi)).trans (h i hpos hi)

/-- The positions down the left side. -/
def leftmost (i : Nat) : Nat := 2 ^ i - 1

theorem left_leftmost (i : Nat) : left (leftmost i) = leftmost (i + 1) := by
  have hpos := Nat.two_pow_pos i
  rw [left, leftmost, leftmost, Nat.pow_succ]
  omega

theorem leftmost_strictMono : StrictMono leftmost := by
  refine strictMono_nat_of_lt_succ fun i => ?_
  rw [← left_leftmost, left]
  omega

/-- The bound holds for the values at the children of the position. -/
def Below (x : α) (v : Nat → α) (n pos : Nat) : Prop := ∀ c, 0 < c → c < n → parent c = pos → x ≤ v c

theorem below_iff {pos : Nat} :
    Below x v n pos ↔ (left pos < n → x ≤ v (left pos)) ∧ (right pos < n → x ≤ v (right pos)) := by
  unfold left right
  constructor
  · intro h
    refine ⟨fun hlt => h _ (by omega) hlt ?_, fun hlt => h _ (by omega) hlt ?_⟩ <;> unfold parent <;> omega
  · rintro ⟨hleft, hright⟩ c hc hlt hparent
    unfold parent at hparent
    rcases (show c = 2 * pos + 1 ∨ c = 2 * pos + 2 by omega) with rfl | rfl
    · exact hleft hlt
    · exact hright hlt

/-- The order away from one position, whose own value does not matter. -/
structure Except (v : Nat → α) (n hole : Nat) : Prop where
  off : ∀ i, 0 < i → i < n → i ≠ hole → parent i ≠ hole → v (parent i) ≤ v i
  across : 0 < hole → Below (v (parent hole)) v n hole

theorem Ordered.except (h : Ordered v n) (hlt : hole < n) : Except v n hole where
  off i hi hin _ _ := h i hi hin
  across hpos c hc hcn hparent := by
    have hup := h hole hpos hlt
    have hdown := h c hc hcn
    rw [hparent] at hdown
    exact hup.trans hdown

theorem Except.congr {w : Nat → α} (h : Except v n hole) (hw : ∀ i, i ≠ hole → i < n → w i = v i) (hlt : hole < n) :
    Except w n hole where
  off i hi hin hne hpne := by
    have hparent : parent i < n := by
      unfold parent
      omega
    rw [hw i hne hin, hw _ hpne hparent]
    exact h.off i hi hin hne hpne
  across hpos c hc hcn hparent := by
    have hne : parent hole ≠ hole := by
      unfold parent
      omega
    have hup : parent hole < n := by
      unfold parent
      omega
    have hcne : c ≠ hole := by
      unfold parent at hparent
      omega
    rw [hw _ hne hup, hw c hcne hcn]
    exact h.across hpos c hc hcn hparent

/-- The order after the hole is filled. -/
theorem Except.ordered_iff (h : Except v n hole) (hlt : hole < n) :
    Ordered (update v hole x) n ↔ (0 < hole → v (parent hole) ≤ x) ∧ Below x v n hole := by
  constructor
  · intro ho
    refine ⟨fun hpos => ?_, fun c hc hcn hparent => ?_⟩
    · have hne : parent hole ≠ hole := by
        unfold parent
        omega
      have hle := ho hole hpos hlt
      rwa [Function.update_self, Function.update_of_ne hne] at hle
    · have hne : c ≠ hole := by
        unfold parent at hparent
        omega
      have hle := ho c hc hcn
      rwa [hparent, Function.update_self, Function.update_of_ne hne] at hle
  · rintro ⟨hup, hdown⟩ i hi hin
    by_cases hih : i = hole
    · subst hih
      have hne : parent i ≠ i := by
        unfold parent
        omega
      rw [Function.update_self, Function.update_of_ne hne]
      exact hup hi
    · rw [Function.update_of_ne hih]
      by_cases hp : parent i = hole
      · rw [hp, Function.update_self]
        exact hdown i hi hin hp
      · rw [Function.update_of_ne hp]
        exact h.off i hi hin hih hp

/-! ### Moving the hole

The value that moves into the hole is also left where it was, and the vector with both copies is in order. -/

theorem Ordered.below (h : Ordered v n) {pos : Nat} (hx : x ≤ v pos) : Below x v n pos := by
  intro c hc hcn hparent
  have hle := h c hc hcn
  rw [hparent] at hle
  exact hx.trans hle

/-- The value above the hole is moved down. -/
theorem Except.up (h : Except v n hole) (hpos : 0 < hole) (hlt : hole < n) :
    Ordered (update v hole (v (parent hole))) n :=
  (h.ordered_iff hlt).mpr ⟨fun _ => le_rfl, h.across hpos⟩

/-- The left value below the hole is moved up. -/
theorem Except.down_iff (h : Except v n hole) (hlt : hole < n) (hleft : left hole < n) :
    Ordered (update v hole (v (left hole))) n ↔ (right hole < n → v (left hole) ≤ v (right hole)) := by
  have hparent : parent (left hole) = hole := by
    unfold parent left
    omega
  rw [h.ordered_iff hlt, below_iff]
  constructor
  · intro hboth
    exact hboth.2.2
  · intro hle
    refine ⟨fun hpos => h.across hpos (left hole) ?_ hleft hparent, fun _ => le_rfl, hle⟩
    unfold left
    omega

/-! ### The left spine

A sift that only ever goes to the left child passes the positions of the left spine. It meets no right
child that is smaller than the left one unless that is also below the moving value. -/

/-- The position so many steps to the left below the given one. -/
def spine (pos : Nat) : Nat → Nat
  | 0 => pos
  | k + 1 => spine (left pos) k

theorem le_spine (pos k : Nat) : pos ≤ spine pos k := by
  induction k generalizing pos with
  | zero => exact le_rfl
  | succ k ih =>
    have hstep := ih (left pos)
    unfold left at hstep
    rw [spine]
    unfold left
    omega

/-- Along the left spine a right child that is below `x` is not below the left child. -/
def SpineOk (v : Nat → α) (n pos : Nat) (x : α) : Prop :=
  ∀ k, right (spine pos k) < n → v (right (spine pos k)) < x → v (left (spine pos k)) ≤ v (right (spine pos k))

theorem spineOk_iff {pos : Nat} : SpineOk v n pos x ↔
    (right pos < n → v (right pos) < x → v (left pos) ≤ v (right pos)) ∧ SpineOk v n (left pos) x := by
  constructor
  · intro h
    exact ⟨h 0, fun k => h (k + 1)⟩
  · rintro ⟨hhead, htail⟩ k
    cases k with
    | zero => exact hhead
    | succ k => exact htail k

theorem SpineOk.congr {w : Nat → α} {pos : Nat} (hw : ∀ i, pos < i → w i = v i) :
    SpineOk w n pos x ↔ SpineOk v n pos x := by
  have heq : ∀ k, w (left (spine pos k)) = v (left (spine pos k)) ∧ w (right (spine pos k)) = v (right (spine pos k)) := by
    intro k
    have hle := le_spine pos k
    constructor
    · apply hw
      unfold left
      omega
    · apply hw
      unfold right
      omega
  unfold SpineOk
  simp only [heq]

/-- In an ordered part of the vector whose top is not below `x` nothing is. -/
theorem spineOk_of_le {pos : Nat} (h : ∀ i, pos ≤ parent i → 0 < i → i < n → v (parent i) ≤ v i) (hx : x ≤ v pos) :
    SpineOk v n pos x := by
  intro k
  induction k generalizing pos with
  | zero =>
    intro hlt hsmall
    have hparent : parent (right pos) = pos := by
      unfold parent right
      omega
    have hle := h (right pos) hparent.ge (by unfold right; omega) hlt
    rw [hparent] at hle
    exact absurd hsmall (hx.trans hle).not_gt
  | succ k ih =>
    intro hlt
    have hparent : parent (left pos) = pos := by
      unfold parent left
      omega
    have hin : left pos < n := by
      have hle := le_spine (left pos) k
      rw [spine] at hlt
      unfold right at hlt
      omega
    have hle := h (left pos) hparent.ge (by unfold left; omega) hin
    rw [hparent] at hle
    refine ih (fun i hi => h i ?_) (hx.trans hle) hlt
    unfold left at hi
    omega

theorem Except.spineOk (h : Except v n hole) (hbelow : Below x v n hole) : SpineOk v n hole x := by
  obtain ⟨hleft, hright⟩ := below_iff.mp hbelow
  refine spineOk_iff.mpr ⟨fun hlt hsmall => absurd hsmall (hright hlt).not_gt, ?_⟩
  by_cases hlt : left hole < n
  · refine spineOk_of_le (fun i hi hpos hin => h.off i hpos hin ?_ ?_) (hleft hlt)
    · unfold left parent at hi
      omega
    · unfold left at hi
      omega
  · intro k hk
    have hle := le_spine (left hole) k
    unfold right at hk
    omega

end HeapOrder
