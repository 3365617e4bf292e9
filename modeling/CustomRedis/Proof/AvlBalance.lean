import CustomRedis.Proof.Zset

/-!
# Insertion and deletion in a balanced tree

A valid tree is a represented one whose siblings differ in height by at most one. Deleting any of its
nodes and linking a fresh node at any of its empty child pointers give valid trees again. Where the
sequence changes is said in terms of the nodes alone: a node is taken out of it, or put next to the one
whose pointer it was linked to.

Sizes are those of a `uint32_t`: in a tree that has room for its own count they are the numbers of nodes.
-/

namespace CustomRedis

open BinaryTree

structure ValidAvl (m : AvlMem) (t : BinaryTree Ptr) : Prop where
  rep : Rep m none t
  nodup : t.inorder.Nodup
  balanced : t.Balanced

theorem root?_eq_none {t : BinaryTree Ptr} : t.root? = none ↔ t = nil := by
  cases t <;> simp

/-- `avl_del`: the node is gone, the others keep their order, and the tree is valid again. -/
theorem avlDel_valid {m : AvlMem} {t : BinaryTree Ptr} {x : Ptr} (h : ValidAvl m t) (hx : x ∈ t.inorder) :
    ∃ m' t', avlDel m x = .ok (m', t'.root?) ∧ ValidAvl m' t' ∧ t'.inorder = t.inorder.erase x ∧
      (t'.root? = none ↔ t.inorder = [x]) := by
  obtain ⟨m', t', hrun, hin, hbal, hreb⟩ := avlDel_spec h.rep h.nodup hx
  refine ⟨m', t', hrun, ⟨hreb.rep, ?_, hbal h.balanced⟩, hin, ?_⟩
  · rw [hin]
    exact h.nodup.erase x
  · rw [root?_eq_none, ← inorder_eq_nil, hin, List.erase_eq_nil_iff]
    refine or_iff_right fun hnil => ?_
    rw [hnil] at hx
    cases hx

/-- `1` at the root with `0` and `2` below it, `3` to the right of `2`, and a node that is not linked yet. -/
def fourNodes : AvlMem :=
  ⟨[some ⟨some 1, none, none, 1, 1⟩, some ⟨none, some 0, some 2, 3, 4⟩, some ⟨some 1, none, some 3, 2, 2⟩,
    some ⟨some 2, none, none, 1, 1⟩, some avlInit]⟩

def fourTree : BinaryTree Ptr := node 1 (node 0 nil nil) (node 2 nil (node 3 nil nil))

theorem fourNodes_valid : ValidAvl fourNodes fourTree where
  rep := ⟨rfl, ⟨rfl, trivial, trivial⟩, rfl, trivial, rfl, trivial, trivial⟩
  nodup := by decide
  balanced := by simp [fourTree, BinaryTree.Balanced, Close]

/-- The root has two children, and the node after it takes its place. -/
theorem avlDel_valid_root :
    ∃ m' t', avlDel fourNodes 1 = .ok (m', t'.root?) ∧ ValidAvl m' t' ∧ t'.inorder = [0, 2, 3] ∧
      (t'.root? = none ↔ fourTree.inorder = [1]) :=
  avlDel_valid fourNodes_valid (by decide)

/-! ### Insertion -/

/-- A null child pointer of a node of the tree, the right one or the left one; the root pointer of the
empty tree is one as well. -/
def EmptyLink (m : AvlMem) (t : BinaryTree Ptr) : Option (Ptr × Bool) → Prop
  | none => t = nil
  | some (q, right) => q ∈ t.inorder ∧ ∃ c, m.read q = some c ∧ (if right then c.right else c.left) = none

/-- The sequence with `x` directly before or directly after the node of the link. -/
def insertBeside (x : Ptr) : Option (Ptr × Bool) → List Ptr → List Ptr
  | none, _ => [x]
  | some (q, right), ids => ids.flatMap fun y => if y = q then (if right then [q, x] else [x, q]) else [y]

/-- The writes of an insertion at a link, and the fix-up. -/
def linkAndFix (m : AvlMem) (link : Option (Ptr × Bool)) (x : Ptr) : M (AvlMem × Ptr) := do
  let m ← attach m link x
  let m ← m.modify x fun c => { c with parent := link.map Prod.fst }
  avlFix m x

theorem flatMap_of_not_mem {q : Ptr} {f : Ptr → List Ptr} {ids : List Ptr} (h : q ∉ ids) :
    (ids.flatMap fun y => if y = q then f y else [y]) = ids := by
  induction ids with
  | nil => rfl
  | cons y ids ih =>
    rw [List.mem_cons, not_or] at h
    rw [List.flatMap_cons, if_neg (Ne.symm h.1), ih h.2]
    rfl

theorem flatMap_middle {q : Ptr} {f : Ptr → List Ptr} {as bs : List Ptr} (h : (as ++ q :: bs).Nodup) :
    ((as ++ q :: bs).flatMap fun y => if y = q then f y else [y]) = as ++ f q ++ bs := by
  have hq := (List.nodup_middle.mp h).notMem
  rw [List.mem_append, not_or] at hq
  rw [List.flatMap_append, List.flatMap_cons, flatMap_of_not_mem hq.1, flatMap_of_not_mem hq.2, if_pos rfl,
    List.append_assoc]

/-- An empty link is the end of a path, and the path says where it lies in the sequence. -/
theorem EmptyLink.exists_path {m : AvlMem} {t : BinaryTree Ptr} {link : Option (Ptr × Bool)} (hrep : Rep m none t)
    (hnodup : t.inorder.Nodup) (h : EmptyLink m t link) (x : Ptr) :
    ∃ p : Path Ptr, t = Path.plug p nil ∧ linkOf p = link ∧
      p.before ++ x :: p.after = insertBeside x link t.inorder := by
  cases link with
  | none => exact ⟨[], h, rfl, rfl⟩
  | some link =>
    obtain ⟨q, right⟩ := link
    obtain ⟨hq, c, hc, hnull⟩ := h
    obtain ⟨p, l, r, rfl⟩ := Path.exists_plug_of_mem hq
    have hcell := Option.some.inj (hc.symm.trans hrep.split.2.1)
    have hin : (Path.plug p (node q l r)).inorder = (p.before ++ l.inorder) ++ q :: (r.inorder ++ p.after) := by
      simp [Path.inorder_plug]
    rw [insertBeside, hin]
    rw [hin] at hnodup
    rw [hcell] at hnull
    rw [flatMap_middle (f := fun y => if right then [q, x] else [x, q]) hnodup]
    cases right with
    | true =>
      obtain rfl : r = nil := root?_eq_none.mp hnull
      refine ⟨.right q l :: p, rfl, rfl, ?_⟩
      simp [Path.before, Path.after, Frame.before, Frame.after]
    | false =>
      obtain rfl : l = nil := root?_eq_none.mp hnull
      refine ⟨.left q r :: p, rfl, rfl, ?_⟩
      simp [Path.before, Path.after, Frame.before, Frame.after]

/-- A fresh node at an empty child pointer, then `avl_fix`: the tree is valid again and the node stands in
the sequence where it was linked. -/
theorem avlInsert_valid {m : AvlMem} {t : BinaryTree Ptr} {link : Option (Ptr × Bool)} {x : Ptr} (h : ValidAvl m t)
    (hlink : EmptyLink m t link) (hx : m.read x = some avlInit) (hxt : x ∉ t.inorder) :
    ∃ m' y t', linkAndFix m link x = .ok (m', y) ∧ t'.root? = some y ∧ ValidAvl m' t' ∧
      t'.inorder = insertBeside x link t.inorder := by
  obtain ⟨p, rfl, rfl, hbeside⟩ := hlink.exists_path h.rep h.nodup x
  obtain ⟨m', m₁, m₂, y, t', hattach, hparent, hfix, hroot, hrep, hin, hbal, -⟩ := treeAdd_spec h.rep h.nodup hx hxt
  refine ⟨m', y, t', ?_, hroot, ⟨hrep, ?_, hbal h.balanced⟩, hin.trans hbeside⟩
  · rw [linkAndFix]
    simp only [bind, Except.bind, hattach, linkOf_fst, hparent, hfix]
  · rw [hin]
    have hplug : (Path.plug p nil).inorder = p.before ++ p.after := by simp [Path.inorder_plug]
    rw [hplug] at hxt
    exact List.nodup_middle.mpr (List.nodup_cons.mpr ⟨hxt, hplug ▸ h.nodup⟩)

/-- Behind the last node, which makes `2` too heavy on the right. -/
theorem avlInsert_valid_last :
    ∃ m' y t', linkAndFix fourNodes (some (3, true)) 4 = .ok (m', y) ∧ t'.root? = some y ∧ ValidAvl m' t' ∧
      t'.inorder = [0, 1, 2, 3, 4] :=
  avlInsert_valid fourNodes_valid ⟨by decide, _, rfl, rfl⟩ rfl (by decide)

end CustomRedis
