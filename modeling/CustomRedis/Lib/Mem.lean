import Mathlib.Tactic

/-!
# Memory with blocks that are never reused

An address is the number of the allocation that produced it, so a dangling address never becomes
valid again. A freed block is an empty cell.
-/

abbrev Ptr := Nat

structure Mem (β : Type) where
  cells : List (Option β) := []
  deriving DecidableEq, Repr

namespace Mem

variable {β : Type}

/-- The content of a live block. -/
def read (m : Mem β) (p : Ptr) : Option β := m.cells.getD p none

def set (m : Mem β) (p : Ptr) (v : β) : Mem β := ⟨m.cells.set p (some v)⟩

def free (m : Mem β) (p : Ptr) : Mem β := ⟨m.cells.set p none⟩

/-- The address of the next block. -/
def next (m : Mem β) : Ptr := m.cells.length

def alloc (m : Mem β) (v : β) : Mem β := ⟨m.cells ++ [some v]⟩

theorem lt_next_of_read {m : Mem β} {p : Ptr} {v : β} (h : m.read p = some v) : p < m.next := by
  by_contra hge
  have hlen : m.cells.length ≤ p := Nat.le_of_not_lt hge
  rw [read, List.getD_eq_getElem?_getD, List.getElem?_eq_none hlen] at h
  cases h

@[simp] theorem next_set (m : Mem β) (p : Ptr) (v : β) : (m.set p v).next = m.next := by simp [next, set]

@[simp] theorem next_free (m : Mem β) (p : Ptr) : (m.free p).next = m.next := by simp [next, free]

@[simp] theorem next_alloc (m : Mem β) (v : β) : (m.alloc v).next = m.next + 1 := by simp [next, alloc]

theorem read_set_self {m : Mem β} {p : Ptr} (hp : p < m.next) (v : β) : (m.set p v).read p = some v := by
  simp [read, set, List.getD_eq_getElem?_getD, List.getElem?_set_self (show p < m.cells.length from hp)]

theorem read_set_ne {m : Mem β} {p q : Ptr} (hne : q ≠ p) (v : β) : (m.set p v).read q = m.read q := by
  simp [read, set, List.getD_eq_getElem?_getD, List.getElem?_set_ne (Ne.symm hne)]

theorem read_set {m : Mem β} {p : Ptr} (hp : p < m.next) (v : β) (q : Ptr) :
    (m.set p v).read q = if q = p then some v else m.read q := by
  by_cases hq : q = p
  · rw [if_pos hq, hq, read_set_self hp]
  · rw [if_neg hq, read_set_ne hq]

theorem read_free_self (m : Mem β) (p : Ptr) : (m.free p).read p = none := by
  by_cases hp : p < m.cells.length
  · simp [read, free, List.getD_eq_getElem?_getD, hp]
  · simp [read, free, List.getD_eq_getElem?_getD, hp]

theorem read_free_ne {m : Mem β} {p q : Ptr} (hne : q ≠ p) : (m.free p).read q = m.read q := by
  simp [read, free, List.getD_eq_getElem?_getD, List.getElem?_set_ne (Ne.symm hne)]

theorem read_alloc_self (m : Mem β) (v : β) : (m.alloc v).read m.next = some v := by
  simp [read, alloc, next, List.getD_eq_getElem?_getD]

theorem read_alloc_of_lt {m : Mem β} {p : Ptr} (hp : p < m.next) (v : β) : (m.alloc v).read p = m.read p := by
  simp [read, alloc, List.getD_eq_getElem?_getD, List.getElem?_append_left (show p < m.cells.length from hp)]

theorem read_eq_none_of_le {m : Mem β} {p : Ptr} (hp : m.next ≤ p) : m.read p = none := by
  rw [read, List.getD_eq_getElem?_getD, List.getElem?_eq_none hp]
  rfl

theorem isSome_read_alloc (m : Mem β) (v : β) (p : Ptr) :
    ((m.alloc v).read p).isSome ↔ p = m.next ∨ (m.read p).isSome := by
  rcases Nat.lt_trichotomy p m.next with hlt | rfl | hgt
  · simp [read_alloc_of_lt hlt, Nat.ne_of_lt hlt]
  · simp [read_alloc_self]
  · have hnone := read_eq_none_of_le (m := m.alloc v) (p := p) (by rw [next_alloc]; exact hgt)
    simp [hnone, read_eq_none_of_le (Nat.le_of_lt hgt), Nat.ne_of_gt hgt]

theorem isSome_read_set {m : Mem β} {p : Ptr} (hp : (m.read p).isSome) (v : β) (q : Ptr) :
    ((m.set p v).read q).isSome = (m.read q).isSome := by
  obtain ⟨w, hw⟩ := Option.isSome_iff_exists.mp hp
  by_cases hq : q = p
  · rw [hq, read_set_self (lt_next_of_read hw), hw]
    rfl
  · rw [read_set_ne hq]

/-! ### What holds of every live block -/

theorem forall_read_set {m : Mem β} {p : Ptr} {u v : β} {P : Ptr → β → Prop} (hp : m.read p = some u) (hv : P p v)
    (h : ∀ q w, q ≠ p → m.read q = some w → P q w) : ∀ q w, (m.set p v).read q = some w → P q w := by
  intro q w hq
  by_cases hqp : q = p
  · rw [hqp, read_set_self (lt_next_of_read hp)] at hq
    cases hq
    rw [hqp]
    exact hv
  · rw [read_set_ne hqp] at hq
    exact h q w hqp hq

theorem forall_read_free {m : Mem β} {p : Ptr} {P : Ptr → β → Prop} (h : ∀ q w, q ≠ p → m.read q = some w → P q w) :
    ∀ q w, (m.free p).read q = some w → P q w := by
  intro q w hq
  by_cases hqp : q = p
  · rw [hqp, read_free_self] at hq
    cases hq
  · rw [read_free_ne hqp] at hq
    exact h q w hqp hq

theorem forall_read_alloc {m : Mem β} {v : β} {P : Ptr → β → Prop} (hv : P m.next v)
    (h : ∀ q w, m.read q = some w → P q w) : ∀ q w, (m.alloc v).read q = some w → P q w := by
  intro q w hq
  rcases Nat.lt_trichotomy q m.next with hlt | rfl | hgt
  · rw [read_alloc_of_lt hlt] at hq
    exact h q w hq
  · rw [read_alloc_self] at hq
    cases hq
    exact hv
  · rw [read_eq_none_of_le (by rw [next_alloc]; exact hgt)] at hq
    cases hq

/-- A memory has room for every list of distinct live addresses. -/
theorem length_le_next {m : Mem β} {l : List Ptr} (hnodup : l.Nodup) (hlive : ∀ p ∈ l, (m.read p).isSome) :
    l.length ≤ m.next := by
  have hsub : l ⊆ List.range m.next := by
    intro p hp
    obtain ⟨v, hv⟩ := Option.isSome_iff_exists.mp (hlive p hp)
    exact List.mem_range.mpr (lt_next_of_read hv)
  simpa using (List.subperm_of_subset hnodup hsub).length_le

/-! ### Live blocks -/

/-- The addresses of the live blocks. -/
def live (m : Mem β) : Finset Ptr := (Finset.range m.next).filter fun p => (m.read p).isSome

theorem mem_live {m : Mem β} {p : Ptr} : p ∈ m.live ↔ (m.read p).isSome := by
  rw [live, Finset.mem_filter, Finset.mem_range, and_iff_right_iff_imp]
  intro h
  obtain ⟨v, hv⟩ := Option.isSome_iff_exists.mp h
  exact lt_next_of_read hv

theorem live_set {m : Mem β} {p : Ptr} {u : β} (hp : m.read p = some u) (v : β) : (m.set p v).live = m.live := by
  ext q
  rw [mem_live, mem_live, isSome_read_set (by rw [hp]; rfl)]

theorem live_free (m : Mem β) (p : Ptr) : (m.free p).live = m.live.erase p := by
  ext q
  rw [Finset.mem_erase, mem_live, mem_live]
  by_cases hq : q = p
  · simp [hq, read_free_self]
  · simp [hq, read_free_ne hq]

theorem live_alloc (m : Mem β) (v : β) : (m.alloc v).live = insert m.next m.live := by
  ext q
  rw [Finset.mem_insert, mem_live, mem_live, isSome_read_alloc]

end Mem
