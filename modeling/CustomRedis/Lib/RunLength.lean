import Mathlib.Tactic

/-!
# Run-length coded lists

A list given by blocks of equal values. A position of the list lies in one of the blocks, and writing a value there
splits the block in up to three.
-/

namespace RunLength

variable {α : Type}

structure Block (α : Type) where
  value : α
  cnt : Nat
  deriving DecidableEq, Repr

def width (bs : List (Block α)) : Nat := (bs.map Block.cnt).sum

/-- The list that the blocks stand for. -/
def expand (bs : List (Block α)) : List α := bs.flatMap fun b => List.replicate b.cnt b.value

@[simp] theorem width_nil : width ([] : List (Block α)) = 0 := rfl

@[simp] theorem width_cons (b : Block α) (bs : List (Block α)) : width (b :: bs) = b.cnt + width bs := by
  rw [width, List.map_cons, List.sum_cons, width]

@[simp] theorem width_append (bs cs : List (Block α)) : width (bs ++ cs) = width bs + width cs := by
  rw [width, List.map_append, List.sum_append, width, width]

@[simp] theorem expand_nil : expand ([] : List (Block α)) = [] := rfl

@[simp] theorem expand_cons (b : Block α) (bs : List (Block α)) :
    expand (b :: bs) = List.replicate b.cnt b.value ++ expand bs := List.flatMap_cons

@[simp] theorem expand_append (bs cs : List (Block α)) : expand (bs ++ cs) = expand bs ++ expand cs :=
  List.flatMap_append

theorem length_expand (bs : List (Block α)) : (expand bs).length = width bs := by
  induction bs with
  | nil => rfl
  | cons b bs ih => rw [expand_cons, width_cons, List.length_append, List.length_replicate, ih]

/-- A sum over the list takes the sum of each block at once. -/
theorem sum_map_expand {β : Type} [AddMonoid β] (g : α → β) (bs : List (Block α)) :
    ((expand bs).map g).sum = (bs.map fun b => b.cnt • g b.value).sum := by
  induction bs with
  | nil => rfl
  | cons b bs ih =>
    rw [expand_cons, List.map_append, List.sum_append, List.map_replicate, List.sum_replicate, ih, List.map_cons,
      List.sum_cons]

theorem count_expand [DecidableEq α] (a : α) (bs : List (Block α)) :
    (expand bs).count a = (bs.map fun b => if b.value = a then b.cnt else 0).sum := by
  induction bs with
  | nil => rfl
  | cons b bs ih =>
    rw [expand_cons, List.count_append, List.count_replicate, ih, List.map_cons, List.sum_cons]
    simp only [beq_iff_eq]

/-! ### Finding a position -/

/-- The block that a position lies in, with the blocks around it and the offset in it. -/
structure Located (α : Type) where
  front : List (Block α)
  block : Block α
  back : List (Block α)
  offset : Nat
  deriving DecidableEq, Repr

def locate : List (Block α) → Nat → Option (Located α)
  | [], _ => none
  | b :: bs, i =>
    if i < b.cnt then some ⟨[], b, bs, i⟩
    else (locate bs (i - b.cnt)).map fun l => { l with front := b :: l.front }

theorem locate_cons_lt {b : Block α} {i : Nat} (h : i < b.cnt) (bs : List (Block α)) :
    locate (b :: bs) i = some ⟨[], b, bs, i⟩ := if_pos h

theorem locate_cons_ge {b : Block α} {i : Nat} (h : b.cnt ≤ i) (bs : List (Block α)) :
    locate (b :: bs) i = (locate bs (i - b.cnt)).map fun l => { l with front := b :: l.front } :=
  if_neg (Nat.not_lt.mpr h)

theorem locate_spec {bs : List (Block α)} {i : Nat} {l : Located α} (h : locate bs i = some l) :
    bs = l.front ++ l.block :: l.back ∧ i = width l.front + l.offset ∧ l.offset < l.block.cnt := by
  induction bs generalizing i l with
  | nil => cases h
  | cons b bs ih =>
    by_cases hlt : i < b.cnt
    · rw [locate_cons_lt hlt] at h
      cases h
      exact ⟨rfl, (Nat.zero_add i).symm, hlt⟩
    · have hge : b.cnt ≤ i := Nat.le_of_not_lt hlt
      rw [locate_cons_ge hge] at h
      obtain ⟨l', hl', rfl⟩ := Option.map_eq_some_iff.mp h
      obtain ⟨hbs, hi, hoffset⟩ := ih hl'
      refine ⟨?_, ?_, hoffset⟩
      · rw [hbs]
        rfl
      · show i = width (b :: l'.front) + l'.offset
        rw [width_cons]
        omega

theorem exists_locate {bs : List (Block α)} {i : Nat} (h : i < width bs) : ∃ l, locate bs i = some l := by
  induction bs generalizing i with
  | nil => cases h
  | cons b bs ih =>
    by_cases hlt : i < b.cnt
    · exact ⟨_, locate_cons_lt hlt bs⟩
    · have hge : b.cnt ≤ i := Nat.le_of_not_lt hlt
      rw [width_cons] at h
      obtain ⟨l, hl⟩ := ih (i := i - b.cnt) (by omega)
      rw [locate_cons_ge hge, hl]
      exact ⟨_, rfl⟩

theorem getElem?_expand {bs : List (Block α)} {i : Nat} {l : Located α} (h : locate bs i = some l) :
    (expand bs)[i]? = some l.block.value := by
  obtain ⟨rfl, rfl, hoffset⟩ := locate_spec h
  rw [expand_append, List.getElem?_append_right (by rw [length_expand]; omega), length_expand, Nat.add_sub_cancel_left,
    expand_cons, List.getElem?_append_left (by rw [List.length_replicate]; exact hoffset),
    List.getElem?_replicate_of_lt hoffset]

/-- The block with another value. -/
def Block.withValue {β : Type} (f : Block α → β) (b : Block α) : Block β := ⟨f b, b.cnt⟩

def Located.withValue {β : Type} (f : Block α → β) (l : Located α) : Located β :=
  ⟨l.front.map (Block.withValue f), l.block.withValue f, l.back.map (Block.withValue f), l.offset⟩

theorem width_withValue {β : Type} (f : Block α → β) (bs : List (Block α)) :
    width (bs.map (Block.withValue f)) = width bs := by
  rw [width, List.map_map]
  rfl

theorem locate_withValue {β : Type} (f : Block α → β) (bs : List (Block α)) (i : Nat) :
    locate (bs.map (Block.withValue f)) i = (locate bs i).map (Located.withValue f) := by
  induction bs generalizing i with
  | nil => rfl
  | cons b bs ih =>
    by_cases hlt : i < b.cnt
    · rw [List.map_cons, locate_cons_lt hlt, locate_cons_lt (by exact hlt)]
      rfl
    · rw [List.map_cons, locate_cons_ge (Nat.le_of_not_lt hlt), locate_cons_ge (by exact Nat.le_of_not_lt hlt)]
      show (locate (bs.map (Block.withValue f)) (i - b.cnt)).map _ = _
      rw [ih, Option.map_map, Option.map_map]
      rfl

/-! ### Writing to a position -/

/-- A block of a given length, or none if there is nothing left of it. -/
def part (value : α) (cnt : Nat) : List (Block α) := if cnt = 0 then [] else [⟨value, cnt⟩]

@[simp] theorem width_part (value : α) (cnt : Nat) : width (part value cnt) = cnt := by
  rw [part]
  split
  · next h => exact h.symm
  · exact Nat.add_zero cnt

@[simp] theorem expand_part (value : α) (cnt : Nat) : expand (part value cnt) = List.replicate cnt value := by
  rw [part]
  split
  · next h =>
    rw [h]
    rfl
  · exact List.append_nil _

/-- A block around a new value at an offset. -/
def split (b : Block α) (offset : Nat) (value : α) : List (Block α) :=
  part b.value offset ++ ⟨value, 1⟩ :: part b.value (b.cnt - offset - 1)

theorem width_split {b : Block α} {offset : Nat} (h : offset < b.cnt) (value : α) :
    width (split b offset value) = b.cnt := by
  rw [split, width_append, width_cons, width_part, width_part]
  dsimp only
  omega

theorem expand_split {b : Block α} {offset : Nat} (h : offset < b.cnt) (value : α) :
    expand (split b offset value) = (List.replicate b.cnt b.value).set offset value := by
  rw [split, expand_append, expand_cons, expand_part, expand_part]
  apply List.ext_getElem
  · simp only [List.length_append, List.length_replicate, List.length_set]
    omega
  · intro k hk hk'
    rw [List.getElem_set]
    split
    · next heq =>
      subst heq
      rw [List.getElem_append_right (by rw [List.length_replicate])]
      simp
    · next hne =>
      rw [List.getElem_replicate]
      rcases Nat.lt_or_gt_of_ne hne with hlt | hgt
      · rw [List.getElem_append_right (by rw [List.length_replicate]; omega),
          List.getElem_append_right (by simp; omega), List.getElem_replicate]
      · rw [List.getElem_append_left (by rw [List.length_replicate]; exact hgt), List.getElem_replicate]

/-- The blocks with a new value at a position. -/
def Located.write (l : Located α) (value : α) : List (Block α) := l.front ++ split l.block l.offset value ++ l.back

theorem width_write {bs : List (Block α)} {i : Nat} {l : Located α} (h : locate bs i = some l) (value : α) :
    width (l.write value) = width bs := by
  obtain ⟨rfl, -, hoffset⟩ := locate_spec h
  rw [Located.write, width_append, width_append, width_split hoffset, width_append, width_cons, Nat.add_assoc]

theorem expand_write {bs : List (Block α)} {i : Nat} {l : Located α} (h : locate bs i = some l) (value : α) :
    expand (l.write value) = (expand bs).set i value := by
  obtain ⟨rfl, rfl, hoffset⟩ := locate_spec h
  have hlen : ((List.replicate l.block.cnt l.block.value)).length = l.block.cnt := List.length_replicate
  rw [Located.write, expand_append, expand_append, expand_split hoffset, expand_append, expand_cons, List.append_assoc,
    List.set_append_right _ _ (by rw [length_expand]; omega), length_expand, Nat.add_sub_cancel_left,
    List.set_append_left _ _ (by rw [hlen]; exact hoffset)]

end RunLength
