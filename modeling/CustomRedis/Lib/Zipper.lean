import Mathlib.Data.Nat.Fib.Basic
import Mathlib.Data.Nat.Log
import Mathlib.Data.Tree.Basic
import Mathlib.Tactic

/-!
# Binary trees seen from one of their nodes

A binary tree together with the path from one of its subtrees up to the root. A frame is a node on
that path with the subtree on its other side. `plug` puts a subtree back, `rebuild` does the same
while it applies a function at every node on the way up, as a rebalancing walk does. In-order
sequences are compared through `before` and `after`, what the path contributes on either side.
-/

namespace BinaryTree

variable {α : Type}

def inorder : BinaryTree α → List α
  | nil => []
  | node x l r => l.inorder ++ x :: r.inorder

@[simp] theorem inorder_nil : (nil : BinaryTree α).inorder = [] := rfl

@[simp] theorem inorder_node (x : α) (l r : BinaryTree α) : (node x l r).inorder = l.inorder ++ x :: r.inorder := rfl

/-- The value at the root. -/
def root? : BinaryTree α → Option α
  | nil => none
  | node x _ _ => some x

@[simp] theorem root?_nil : (nil : BinaryTree α).root? = none := rfl

@[simp] theorem root?_node (x : α) (l r : BinaryTree α) : (node x l r).root? = some x := rfl

theorem length_inorder (t : BinaryTree α) : t.inorder.length = t.numNodes := by
  induction t with
  | nil => rfl
  | node x l r hl hr => simp [hl, hr]; omega

theorem height_le_length (t : BinaryTree α) : t.height ≤ t.inorder.length := by
  induction t with
  | nil => simp
  | node x l r hl hr => simp; omega

theorem mem_of_root? {t : BinaryTree α} {x : α} (h : t.root? = some x) : x ∈ t.inorder := by
  cases t with
  | nil => cases h
  | node y l r => simp at h; simp [h]

theorem inorder_eq_nil {t : BinaryTree α} : t.inorder = [] ↔ t = nil := by
  cases t <;> simp

theorem exists_root? {t : BinaryTree α} (h : t.inorder ≠ []) : ∃ x, t.root? = some x := by
  cases t with
  | nil => exact absurd rfl h
  | node x l r => exact ⟨x, rfl⟩

/-! ### Rotations -/

def rotateLeft : BinaryTree α → BinaryTree α
  | node x a (node y b c) => node y (node x a b) c
  | t => t

def rotateRight : BinaryTree α → BinaryTree α
  | node x (node y a b) c => node y a (node x b c)
  | t => t

@[simp] theorem inorder_rotateLeft (t : BinaryTree α) : t.rotateLeft.inorder = t.inorder := by
  unfold rotateLeft
  split <;> simp

@[simp] theorem inorder_rotateRight (t : BinaryTree α) : t.rotateRight.inorder = t.inorder := by
  unfold rotateRight
  split <;> simp

/-- The two heights below the root. -/
def heights : BinaryTree α → Nat × Nat
  | nil => (0, 0)
  | node _ l r => (l.height, r.height)

/-- One rebalancing step at the root: a single or a double rotation when the two sides differ by two. -/
def balance : BinaryTree α → BinaryTree α
  | nil => nil
  | node x l r =>
    if l.height = r.height + 2 then
      rotateRight (node x (if l.heights.1 < l.heights.2 then l.rotateLeft else l) r)
    else if r.height = l.height + 2 then
      rotateLeft (node x l (if r.heights.2 < r.heights.1 then r.rotateRight else r))
    else node x l r

@[simp] theorem inorder_balance (t : BinaryTree α) : t.balance.inorder = t.inorder := by
  cases t with
  | nil => rfl
  | node x l r =>
    rw [balance]
    split
    · rw [inorder_rotateRight]
      split <;> simp
    · split
      · rw [inorder_rotateLeft]
        split <;> simp
      · rfl

/-! ### Frames and paths -/

inductive Frame (α : Type)
  /-- the hole is the left subtree of `x` -/
  | left (x : α) (r : BinaryTree α)
  /-- the hole is the right subtree of `x` -/
  | right (x : α) (l : BinaryTree α)

namespace Frame

def fill : Frame α → BinaryTree α → BinaryTree α
  | left x r, t => node x t r
  | right x l, t => node x l t

/-- The node of the frame. -/
def here : Frame α → α
  | left x _ => x
  | right x _ => x

/-- The subtree next to the hole. -/
def sibling : Frame α → BinaryTree α
  | left _ r => r
  | right _ l => l

/-- What stands before the hole in the in-order sequence of the frame. -/
def before : Frame α → List α
  | left _ _ => []
  | right x l => l.inorder ++ [x]

def after : Frame α → List α
  | left x r => x :: r.inorder
  | right _ _ => []

theorem inorder_fill (f : Frame α) (t : BinaryTree α) : (f.fill t).inorder = f.before ++ t.inorder ++ f.after := by
  cases f <;> simp [fill, before, after]

@[simp] theorem root?_fill (f : Frame α) (t : BinaryTree α) : (f.fill t).root? = some f.here := by
  cases f <;> rfl

/-- The values of a frame, up to order. -/
theorem perm_members (f : Frame α) : (f.before ++ f.after).Perm (f.here :: f.sibling.inorder) := by
  cases f with
  | left x r => exact List.Perm.refl _
  | right x l =>
    rw [before, after, List.append_nil]
    exact List.perm_append_singleton x l.inorder

end Frame

/-- A path from a subtree up to the root, innermost frame first. -/
abbrev Path (α : Type) := List (Frame α)

namespace Path

def plug : Path α → BinaryTree α → BinaryTree α
  | [], t => t
  | f :: p, t => plug p (f.fill t)

/-- Plugging with a rebalancing step at the subtree and at every node of the path. -/
def rebuild : Path α → BinaryTree α → BinaryTree α
  | [], t => t.balance
  | f :: p, t => rebuild p (f.fill t.balance)

/-- The parent of the hole. -/
def parent : Path α → Option α
  | [] => none
  | f :: _ => some f.here

def before : Path α → List α
  | [] => []
  | f :: p => before p ++ f.before

def after : Path α → List α
  | [] => []
  | f :: p => f.after ++ after p

theorem inorder_plug (p : Path α) (t : BinaryTree α) : (plug p t).inorder = p.before ++ t.inorder ++ p.after := by
  induction p generalizing t with
  | nil => simp [plug, before, after]
  | cons f p ih => simp [plug, before, after, ih, Frame.inorder_fill]

/-- A node that takes the place of another in the tree takes its place in the sequence. -/
theorem inorder_plug_replace {p : Path α} {x v : α} {l r : BinaryTree α} {xs ys : List α}
    (hnodup : (plug p (node x l r)).inorder.Nodup) (h : (plug p (node x l r)).inorder = xs ++ x :: ys) :
    (plug p (node v l r)).inorder = xs ++ v :: ys := by
  have hsplit : (p.before ++ l.inorder) ++ x :: (r.inorder ++ p.after) = xs ++ x :: ys := by
    rw [← h, inorder_plug, inorder_node]
    simp only [List.append_assoc, List.cons_append]
  rw [h, ← hsplit] at hnodup
  have hxnot := (List.nodup_middle.mp hnodup).notMem
  rw [List.mem_append, not_or] at hxnot
  obtain ⟨hbefore, -, hafter⟩ := (List.append_cons_inj_of_notMem hxnot.1 hxnot.2).mp hsplit
  calc (plug p (node v l r)).inorder
      = (p.before ++ l.inorder) ++ v :: (r.inorder ++ p.after) := by
        rw [inorder_plug, inorder_node]
        simp only [List.append_assoc, List.cons_append]
    _ = xs ++ v :: ys := by rw [hbefore, hafter]

theorem inorder_rebuild (p : Path α) (t : BinaryTree α) :
    (rebuild p t).inorder = p.before ++ t.inorder ++ p.after := by
  induction p generalizing t with
  | nil => simp [rebuild, before, after]
  | cons f p ih => simp [rebuild, before, after, ih, Frame.inorder_fill]

theorem plug_append (p q : Path α) (t : BinaryTree α) : plug (p ++ q) t = plug q (plug p t) := by
  induction p generalizing t with
  | nil => rfl
  | cons f p ih => exact ih (f.fill t)

/-- Every value of a tree is the root of a subtree on some path. -/
theorem exists_plug_of_mem {t : BinaryTree α} {x : α} (h : x ∈ t.inorder) :
    ∃ (p : Path α) (l r : BinaryTree α), t = plug p (node x l r) := by
  induction t with
  | nil => simp at h
  | node y l r hl hr =>
    rw [inorder_node, List.mem_append, List.mem_cons] at h
    rcases h with h | rfl | h
    · obtain ⟨p, a, b, hp⟩ := hl h
      exact ⟨p ++ [.left y r], a, b, by rw [plug_append, ← hp]; rfl⟩
    · exact ⟨[], l, r, rfl⟩
    · obtain ⟨p, a, b, hp⟩ := hr h
      exact ⟨p ++ [.right y l], a, b, by rw [plug_append, ← hp]; rfl⟩

/-- The path with another subtree at its end, rebalanced from the parent of the hole upwards. -/
def splice : Path α → BinaryTree α → BinaryTree α
  | [], t => t
  | f :: p, t => rebuild p (f.fill t)

theorem inorder_splice (p : Path α) (t : BinaryTree α) :
    (splice p t).inorder = p.before ++ t.inorder ++ p.after := by
  cases p with
  | nil => simp [splice, before, after]
  | cons f p => simp [splice, before, after, inorder_rebuild, Frame.inorder_fill]

theorem before_append (p q : Path α) : before (p ++ q) = before q ++ before p := by
  induction p with
  | nil => simp [before]
  | cons f p ih => simp [before, ih]

theorem after_append (p q : Path α) : after (p ++ q) = after p ++ after q := by
  induction p with
  | nil => rfl
  | cons f p ih => simp [after, ih]

/-- The values of a path, up to order. -/
theorem perm_members (f : Frame α) (p : Path α) :
    (before (f :: p) ++ after (f :: p)).Perm (f.here :: (f.sibling.inorder ++ (before p ++ after p))) := by
  have hmid : (before (f :: p) ++ after (f :: p)).Perm ((f.before ++ f.after) ++ (before p ++ after p)) := by
    rw [before, after, List.append_assoc, ← List.append_assoc f.before, List.append_assoc f.before]
    simpa using List.perm_append_comm_assoc (before p) (f.before ++ f.after) (after p)
  exact hmid.trans (f.perm_members.append_right _)

theorem length_le (p : Path α) : p.length ≤ (p.before ++ p.after).length := by
  induction p with
  | nil => exact Nat.zero_le _
  | cons f p ih =>
    have hf : 1 ≤ f.before.length + f.after.length := by
      cases f <;> simp [Frame.before, Frame.after]
    simp only [before, after, List.length_append, List.length_cons] at ih ⊢
    omega

/-! ### Searching

A search goes right at the values for which `g` holds. In a tree whose in-order sequence has the values
with `g` first, it ends between these and the others. -/

def descend (g : α → Bool) : BinaryTree α → Path α → Path α
  | nil, p => p
  | node x l r, p => if g x then descend g r (.right x l :: p) else descend g l (.left x r :: p)

theorem plug_descend (g : α → Bool) (t : BinaryTree α) (p : Path α) : plug (descend g t p) nil = plug p t := by
  induction t generalizing p with
  | nil => rfl
  | node x l r hl hr =>
    rw [descend]
    by_cases hx : g x = true
    · rw [if_pos hx, hr]
      rfl
    · rw [if_neg hx, hl]
      rfl

theorem descend_spec {g : α → Bool} {t : BinaryTree α} {p : Path α}
    (hmono : (plug p t).inorder.Pairwise fun a b => g b → g a) (hbefore : ∀ a ∈ p.before, g a = true)
    (hafter : ∀ a ∈ p.after, g a = false) :
    (∀ a ∈ (descend g t p).before, g a = true) ∧ ∀ a ∈ (descend g t p).after, g a = false := by
  induction t generalizing p with
  | nil => exact ⟨hbefore, hafter⟩
  | node x l r hl hr =>
    have hmono' := hmono
    rw [inorder_plug, List.append_assoc, List.pairwise_append, List.pairwise_append, inorder_node,
      List.pairwise_append, List.pairwise_cons] at hmono'
    obtain ⟨-, ⟨⟨-, ⟨hxr, -⟩, hlx⟩, -, -⟩, -⟩ := hmono'
    rw [descend]
    by_cases hx : g x = true
    · rw [if_pos hx]
      refine hr hmono ?_ hafter
      intro a ha
      simp only [before, Frame.before, List.mem_append, List.mem_singleton] at ha
      rcases ha with ha | ha | rfl
      · exact hbefore a ha
      · exact hlx a ha x (by simp) hx
      · exact hx
    · rw [if_neg hx]
      refine hl hmono (by simpa [before, Frame.before] using hbefore) ?_
      intro a ha
      simp only [after, Frame.after, List.mem_append, List.mem_cons] at ha
      rcases ha with (rfl | ha) | ha
      · exact Bool.eq_false_iff.mpr hx
      · exact Bool.eq_false_iff.mpr fun hga => hx (hxr a ha hga)
      · exact hafter a ha

end Path

/-- The search that remembers the last value at which it went left. -/
def firstNot (g : α → Bool) : BinaryTree α → Option α → Option α
  | nil, best => best
  | node x l r, best => if g x then firstNot g r best else firstNot g l (some x)

theorem firstNot_eq {g : α → Bool} {t : BinaryTree α} (hmono : t.inorder.Pairwise fun a b => g b → g a)
    (best : Option α) : firstNot g t best = (t.inorder.find? fun a => !g a).or best := by
  induction t generalizing best with
  | nil => rfl
  | node x l r hl hr =>
    rw [inorder_node, List.pairwise_append, List.pairwise_cons] at hmono
    obtain ⟨hmonol, ⟨-, hmonor⟩, hlx⟩ := hmono
    rw [firstNot, inorder_node, List.find?_append, List.find?_cons]
    by_cases hx : g x = true
    · have hnone : l.inorder.find? (fun a => !g a) = none := by
        rw [List.find?_eq_none]
        intro a ha
        simpa using hlx a ha x (by simp) hx
      rw [if_pos hx, hr hmonor, hnone, hx]
      rfl
    · rw [if_neg hx, hl hmonol, Option.or_assoc]
      simp [hx]

/-! ### Balance

A rebalancing step restores balance at a node whose subtrees are balanced and differ by at most two. It
changes the height by at most one, so a walk that starts with a change of at most one never meets more. -/

/-- Heights that differ by at most one. -/
def Close (a b : Nat) : Prop := a ≤ b + 1 ∧ b ≤ a + 1

def Balanced : BinaryTree α → Prop
  | nil => True
  | node _ l r => Close l.height r.height ∧ l.Balanced ∧ r.Balanced

theorem balance_of_close {x : α} {l r : BinaryTree α} (h : Close l.height r.height) :
    (node x l r).balance = node x l r := by
  obtain ⟨hl, hr⟩ := h
  rw [balance, if_neg (by omega), if_neg (by omega)]

theorem Balanced.balance_eq {t : BinaryTree α} (h : t.Balanced) : t.balance = t := by
  cases t with
  | nil => rfl
  | node x l r => exact balance_of_close h.1

/-- What a rebalancing step makes of a node with balanced subtrees of heights `a` and `b`. -/
structure Rebalanced (t : BinaryTree α) (a b : Nat) : Prop where
  balanced : t.Balanced
  le : t.height ≤ max a b + 1
  ge : max a b ≤ t.height

theorem rebalanced_left {x : α} {l r : BinaryTree α} (hl : l.Balanced) (hr : r.Balanced)
    (h : l.height = r.height + 2) : Rebalanced (node x l r).balance l.height r.height := by
  rw [balance, if_pos h]
  cases l with
  | nil => simp at h
  | node y a b =>
    obtain ⟨⟨hab, hba⟩, ha, hb⟩ := hl
    simp only [height] at h
    by_cases hinner : a.height < b.height
    · rw [if_pos (show (node y a b).heights.1 < (node y a b).heights.2 from hinner)]
      cases b with
      | nil => simp at hinner
      | node z c d =>
        obtain ⟨⟨hcd, hdc⟩, hc, hd⟩ := hb
        simp only [height] at h hab hba hinner
        show Rebalanced (node z (node y a c) (node x d r)) _ _
        refine ⟨?_, ?_, ?_⟩
        · simp only [Balanced, Close, height, ha, hc, hd, hr, and_true]
          omega
        · simp only [height]
          omega
        · simp only [height]
          omega
    · rw [if_neg (show ¬(node y a b).heights.1 < (node y a b).heights.2 from hinner)]
      show Rebalanced (node y a (node x b r)) _ _
      refine ⟨?_, ?_, ?_⟩
      · simp only [Balanced, Close, height, ha, hb, hr, true_and, and_true]
        omega
      · simp only [height]
        omega
      · simp only [height]
        omega

theorem rebalanced_right {x : α} {l r : BinaryTree α} (hl : l.Balanced) (hr : r.Balanced)
    (h : r.height = l.height + 2) : Rebalanced (node x l r).balance l.height r.height := by
  rw [balance, if_neg (by omega), if_pos h]
  cases r with
  | nil => simp at h
  | node y a b =>
    obtain ⟨⟨hab, hba⟩, ha, hb⟩ := hr
    simp only [height] at h
    by_cases hinner : b.height < a.height
    · rw [if_pos (show (node y a b).heights.2 < (node y a b).heights.1 from hinner)]
      cases a with
      | nil => simp at hinner
      | node z c d =>
        obtain ⟨⟨hcd, hdc⟩, hc, hd⟩ := ha
        simp only [height] at h hab hba hinner
        show Rebalanced (node z (node x l c) (node y d b)) _ _
        refine ⟨?_, ?_, ?_⟩
        · simp only [Balanced, Close, height, hl, hc, hd, hb, and_true]
          omega
        · simp only [height]
          omega
        · simp only [height]
          omega
    · rw [if_neg (show ¬(node y a b).heights.2 < (node y a b).heights.1 from hinner)]
      show Rebalanced (node y (node x l a) b) _ _
      refine ⟨?_, ?_, ?_⟩
      · simp only [Balanced, Close, height, hl, ha, hb, and_true]
        omega
      · simp only [height]
        omega
      · simp only [height]
        omega

namespace Frame

/-- A frame around a subtree that took the place of one of nearly the same height. -/
theorem rebalanced_fill {f : Frame α} {t t' : BinaryTree α} (hf : (f.fill t).Balanced) (ht' : t'.Balanced)
    (hclose : Close t'.height t.height) :
    (f.fill t').balance.Balanced ∧ Close (f.fill t').balance.height (f.fill t).height := by
  obtain ⟨hle, hge⟩ := hclose
  have hnode : ∀ (x : α) (l r l' r' : BinaryTree α), (node x l r).Balanced → l'.Balanced → r'.Balanced →
      Close l'.height l.height → Close r'.height r.height → (l'.height = l.height ∨ r'.height = r.height) →
      (node x l' r').balance.Balanced ∧ Close (node x l' r').balance.height (node x l r).height := by
    intro x l r l' r' hb hl' hr' ⟨hll, hll'⟩ ⟨hrr, hrr'⟩ hone
    obtain ⟨⟨hlr, hrl⟩, -, -⟩ := hb
    rw [height]
    by_cases hleft : l'.height = r'.height + 2
    · obtain ⟨hbal, hh, hh'⟩ := rebalanced_left (x := x) hl' hr' hleft
      refine ⟨hbal, ?_, ?_⟩ <;> omega
    · by_cases hright : r'.height = l'.height + 2
      · obtain ⟨hbal, hh, hh'⟩ := rebalanced_right (x := x) hl' hr' hright
        refine ⟨hbal, ?_, ?_⟩ <;> omega
      · have hc : Close l'.height r'.height := ⟨by omega, by omega⟩
        rw [balance_of_close hc, height]
        refine ⟨⟨hc, hl', hr'⟩, ?_, ?_⟩ <;> omega
  have hrefl : ∀ n, Close n n := fun n => ⟨n.le_succ, n.le_succ⟩
  cases f with
  | left x r => exact hnode x t r t' r hf ht' hf.2.2 ⟨hle, hge⟩ (hrefl _) (.inr rfl)
  | right x l => exact hnode x l t l t' hf hf.2.1 ht' (hrefl _) ⟨hle, hge⟩ (.inl rfl)

theorem balanced_fill {f : Frame α} {t : BinaryTree α} (h : (f.fill t).Balanced) : t.Balanced := by
  cases f with
  | left x r => exact h.2.1
  | right x l => exact h.2.2

end Frame

namespace Path

theorem balanced_plug {p : Path α} {t : BinaryTree α} (h : (plug p t).Balanced) : t.Balanced := by
  induction p generalizing t with
  | nil => exact h
  | cons f p ih => exact Frame.balanced_fill (ih h)

/-- The walk to the root, after one subtree was exchanged for another one of nearly the same height. -/
theorem balanced_rebuild {p : Path α} {t t' : BinaryTree α} (h : (plug p t).Balanced) (ht' : t'.balance.Balanced)
    (hclose : Close t'.balance.height t.height) : (rebuild p t').Balanced := by
  induction p generalizing t t' with
  | nil => exact ht'
  | cons f p ih =>
    obtain ⟨hbal, hheight⟩ := Frame.rebalanced_fill (balanced_plug (p := p) h) ht' hclose
    exact ih h hbal hheight

theorem balanced_splice {p : Path α} {t t' : BinaryTree α} (h : (plug p t).Balanced) (ht' : t'.Balanced)
    (hclose : Close t'.height t.height) : (splice p t').Balanced := by
  cases p with
  | nil => exact ht'
  | cons f p =>
    obtain ⟨hbal, hheight⟩ := Frame.rebalanced_fill (balanced_plug (p := p) h) ht' hclose
    exact balanced_rebuild h hbal hheight

/-- Balance looks at heights only. -/
theorem balanced_plug_congr {p : Path α} {t t' : BinaryTree α} (h : (plug p t).Balanced) (ht' : t'.Balanced)
    (hheight : t'.height = t.height) : (plug p t').Balanced := by
  induction p generalizing t t' with
  | nil => exact ht'
  | cons f p ih =>
    have hf := balanced_plug (p := p) h
    cases f with
    | left x r =>
      refine ih h ⟨?_, ht', hf.2.2⟩ (by simp only [Frame.fill, height, hheight])
      rw [hheight]
      exact hf.1
    | right x l =>
      refine ih h ⟨?_, hf.2.1, ht'⟩ (by simp only [Frame.fill, height, hheight])
      rw [hheight]
      exact hf.1

end Path

/-! ### The height of a balanced tree -/

theorem Frame.height_lt_fill (f : Frame α) (t : BinaryTree α) : t.height < (f.fill t).height := by
  cases f <;> simp only [fill, height] <;> omega

/-- A node is as far below the root as the height above it allows. -/
theorem Path.length_add_height_le (p : Path α) (t : BinaryTree α) : p.length + t.height ≤ (plug p t).height := by
  induction p generalizing t with
  | nil => simp [plug]
  | cons f p ih =>
    have hfill := f.height_lt_fill t
    have hplug := ih (f.fill t)
    rw [List.length_cons, plug]
    omega

end BinaryTree
