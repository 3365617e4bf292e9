import Mathlib.Tactic

/-!
# Words of a line

A line as words with separators before, between and behind them, any number of each. A line can be read in one way only:
its words are the pieces between separators that are not empty.
-/

namespace Words

variable {α : Type} {sep : α}

/-- A word is not empty and holds no separator. -/
def Word (sep : α) (w : List α) : Prop := w ≠ [] ∧ sep ∉ w

/-- The words, in this order, make up the line. -/
inductive Spells (sep : α) : List (List α) → List α → Prop
  | nil : Spells sep [] []
  | space {ws : List (List α)} {line : List α} : Spells sep ws line → Spells sep ws (sep :: line)
  | last {w : List α} : Word sep w → Spells sep [w] w
  | word {w : List α} {ws : List (List α)} {line : List α} :
    Word sep w → Spells sep ws line → Spells sep (w :: ws) (w ++ sep :: line)

theorem Spells.word_of_mem {ws : List (List α)} {line : List α} (h : Spells sep ws line) : ∀ w ∈ ws, Word sep w := by
  induction h with
  | nil => exact fun w hw => absurd hw List.not_mem_nil
  | space _ ih => exact ih
  | last hword => exact List.forall_mem_singleton.mpr hword
  | word hword _ ih => exact List.forall_mem_cons.mpr ⟨hword, ih⟩

theorem Spells.mem_line {ws : List (List α)} {line : List α} (h : Spells sep ws line) {w : List α} (hw : w ∈ ws) {a : α}
    (ha : a ∈ w) : a ∈ line := by
  induction h with
  | nil => exact absurd hw List.not_mem_nil
  | space _ ih => exact List.mem_cons_of_mem _ (ih hw)
  | last _ => rwa [List.mem_singleton.mp hw] at ha
  | word _ _ ih =>
    rcases List.mem_cons.mp hw with rfl | hw
    · exact List.mem_append_left _ ha
    · exact List.mem_append_right _ (List.mem_cons_of_mem _ (ih hw))

/-- Every word but the last one takes a separator besides its own bytes. -/
theorem Spells.sum_length_le {ws : List (List α)} {line : List α} (h : Spells sep ws line) :
    (ws.map fun w => w.length + 1).sum ≤ line.length + 1 := by
  induction h with
  | nil => exact Nat.zero_le _
  | space _ ih =>
    rw [List.length_cons]
    omega
  | last _ => exact le_rfl
  | word _ _ ih =>
    rw [List.map_cons, List.sum_cons, List.length_append, List.length_cons]
    omega

variable [DecidableEq α]

/-- The pieces between separators that are not empty. -/
def words (sep : α) (line : List α) : List (List α) := (line.splitOn sep).filter (· ≠ [])

theorem words_word {w : List α} (h : Word sep w) : words sep w = [w] := by
  rw [words, List.splitOn_eq_singleton h.2]
  exact List.filter_eq_self.mpr (List.forall_mem_singleton.mpr (decide_eq_true h.1))

theorem words_append_sep (line rest : List α) : words sep (line ++ sep :: rest) = words sep line ++ words sep rest := by
  rw [words, List.splitOn_append_cons_self, List.filter_append]
  rfl

theorem words_nil : words sep [] = [] := rfl

theorem words_space (line : List α) : words sep (sep :: line) = words sep line :=
  words_append_sep [] line

/-- A line has only the words that it is made up of. -/
theorem Spells.words_eq {ws : List (List α)} {line : List α} (h : Spells sep ws line) : words sep line = ws := by
  induction h with
  | nil => exact words_nil
  | space _ ih => rw [words_space, ih]
  | last hword => exact words_word hword
  | word hword _ ih => rw [words_append_sep, words_word hword, ih, List.singleton_append]

/-- Every line is made up of its words. -/
theorem spells_words (sep : α) (line : List α) : Spells sep (words sep line) line := by
  induction hn : line.length using Nat.strong_induction_on generalizing line with
  | _ n ih =>
    by_cases hmem : sep ∈ line
    · obtain ⟨first, rest, rfl, hfirst⟩ := List.eq_append_cons_of_mem hmem
      have hlen : rest.length < n := by
        rw [← hn, List.length_append, List.length_cons]
        omega
      have hrest := ih rest.length hlen rest rfl
      rw [words_append_sep]
      by_cases hempty : first = []
      · rw [hempty]
        exact .space hrest
      · rw [words_word ⟨hempty, hfirst⟩]
        exact .word ⟨hempty, hfirst⟩ hrest
    · by_cases hempty : line = []
      · rw [hempty]
        exact .nil
      · rw [words_word ⟨hempty, hmem⟩]
        exact .last ⟨hempty, hmem⟩

end Words
