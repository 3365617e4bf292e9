import CustomRedis.Model.Zset
import CustomRedis.Lib.Zipper

/-!
# The walk to a rank

`zset_offset` uses nothing of a tree but its pointers and sizes. It keeps the distance of the current node
from the start, climbs while the node it looks for is not below the current one, and then descends.
`SizeRep` is what the walk relies on; heights, order and balance play no part.
-/

namespace CustomRedis

open BinaryTree

/-- The memory holds the tree, with the right parent pointers and sizes. -/
def SizeRep (m : AvlMem) : Option Ptr → BinaryTree Ptr → Prop
  | _, nil => True
  | par, node x l r =>
    (∃ h, m.read x = some ⟨par, l.root?, r.root?, h, (node x l r).numNodes⟩) ∧
      SizeRep m (some x) l ∧ SizeRep m (some x) r

theorem SizeRep.live {m : AvlMem} {par : Option Ptr} {t : BinaryTree Ptr} (h : SizeRep m par t) :
    ∀ q ∈ t.inorder, (m.read q).isSome := by
  induction t generalizing par with
  | nil => simp
  | node x l r hl hr =>
    intro q hq
    obtain ⟨⟨ht, hx⟩, hl', hr'⟩ := h
    rw [inorder_node, List.mem_append, List.mem_cons] at hq
    rcases hq with hq | rfl | hq
    · exact hl hl' q hq
    · simp [hx]
    · exact hr hr' q hq

/-- A subtree is represented below the last node of its path. -/
theorem SizeRep.subtree {m : AvlMem} {p : Path Ptr} {t : BinaryTree Ptr} (h : SizeRep m none (Path.plug p t)) :
    SizeRep m (Path.parent p) t := by
  induction p generalizing t with
  | nil => exact h
  | cons f p ih =>
    have hfill := ih (t := f.fill t) h
    cases f with
    | left x r => exact hfill.2.1
    | right x l => exact hfill.2.2

theorem SizeRep.node_ok {m : AvlMem} {par : Option Ptr} {x : Ptr} {l r : BinaryTree Ptr}
    (h : SizeRep m par (node x l r)) :
    ∃ height, m.node x = .ok ⟨par, l.root?, r.root?, height, (node x l r).numNodes⟩ := by
  obtain ⟨⟨height, hx⟩, -, -⟩ := h
  exact ⟨height, by rw [AvlMem.node, hx]⟩

theorem avlSize_root {m : AvlMem} {par : Option Ptr} {t : BinaryTree Ptr} (h : SizeRep m par t) :
    avlSize m t.root? = .ok t.numNodes := by
  cases t with
  | nil => rfl
  | node x l r =>
    obtain ⟨height, hx⟩ := h.node_ok
    rw [root?_node, avlSize, hx]
    rfl

/-- The place of the root of a subtree in the sequence. -/
def indexAt (p : Path Ptr) (l : BinaryTree Ptr) : Nat := p.before.length + l.numNodes

theorem getElem?_indexAt {p : Path Ptr} {x : Ptr} {l r : BinaryTree Ptr} :
    (Path.plug p (node x l r)).inorder[indexAt p l]? = some x := by
  rw [Path.inorder_plug, inorder_node, indexAt, ← length_inorder]
  simp

theorem numNodes_plug (p : Path Ptr) (t : BinaryTree Ptr) :
    (Path.plug p t).numNodes = p.before.length + t.numNodes + p.after.length := by
  rw [← length_inorder, Path.inorder_plug, List.length_append, List.length_append, length_inorder]

section Walk

variable {z : ZSet} {t : BinaryTree Ptr} {start : Nat} {offset : Int}

/-- One round of the loop, on the tree: the arithmetic stays far inside the range of the types. -/
theorem zsetOffsetAux_round {p : Path Ptr} {x : Ptr} {l r : BinaryTree Ptr} {fuel : Nat} {rank : Int}
    (hrep : SizeRep z.tree none (Path.plug p (node x l r))) (hnodup : (Path.plug p (node x l r)).inorder.Nodup)
    (hsmall : (Path.plug p (node x l r)).numNodes < 2 ^ 31) (hlow : -2 ^ 31 ≤ rank - (1 + l.numNodes))
    (hhigh : rank + (1 + r.numNodes) < 2 ^ 31) :
    zsetOffsetAux (fuel + 1) z x rank offset =
      if rank = offset then .ok (some x)
      else if rank > offset ∧ rank - l.numNodes ≤ offset then
        match l with
        | nil => .error .nullLink
        | node y _ b => zsetOffsetAux fuel z y (rank - (1 + b.numNodes)) offset
      else if rank < offset ∧ rank + r.numNodes ≥ offset then
        match r with
        | nil => .error .nullLink
        | node y a _ => zsetOffsetAux fuel z y (rank + (1 + a.numNodes)) offset
      else
        match p with
        | [] => .ok none
        | .left y _ :: _ => zsetOffsetAux fuel z y (rank + (1 + r.numNodes)) offset
        | .right y _ :: _ => zsetOffsetAux fuel z y (rank - (1 + l.numNodes)) offset := by
  have hsub := hrep.subtree
  obtain ⟨height, hx⟩ := hsub.node_ok
  obtain ⟨-, hl, hr⟩ := hsub
  have hsize : l.numNodes + r.numNodes + 1 < 2 ^ 31 := by
    rw [numNodes_plug, numNodes] at hsmall
    omega
  rw [zsetOffsetAux, hx]
  simp only [bind, Except.bind, avlSize_root hl, avlSize_root hr]
  rw [toI32_of_lt (x := (l.numNodes : Int)) (by omega) (by omega),
    toI32_of_lt (x := (r.numNodes : Int)) (by omega) (by omega),
    toI32_of_lt (x := rank - l.numNodes) (by omega) (by omega),
    toI32_of_lt (x := rank + r.numNodes) (by omega) (by omega),
    toI32_of_lt (x := rank + (1 + r.numNodes)) (by omega) (by omega),
    toI32_of_lt (x := rank - (1 + l.numNodes)) (by omega) (by omega)]
  congr 1
  congr 1
  · cases l with
    | nil => rfl
    | node y a b =>
      obtain ⟨height', hy⟩ := hl.node_ok
      rw [numNodes] at hsize hlow
      simp only [root?_node, AvlMem.nonNull, hy, avlSize_root hl.2.2]
      rw [toI32_of_lt (by omega) (by omega)]
  · congr 1
    · cases r with
      | nil => rfl
      | node y a b =>
        obtain ⟨height', hy⟩ := hr.node_ok
        rw [numNodes] at hsize hhigh
        simp only [root?_node, AvlMem.nonNull, hy, avlSize_root hr.2.1]
        rw [toI32_of_lt (by omega) (by omega)]
    · cases p with
      | nil => rfl
      | cons f p =>
        have hfill := SizeRep.subtree (p := p) (t := f.fill (node x l r)) hrep
        rw [Path.plug, Path.inorder_plug, List.append_assoc] at hnodup
        have hnodupf := (List.nodup_append.mp (List.nodup_append.mp hnodup).2.1).1
        cases f with
        | left y b =>
          obtain ⟨height', hy⟩ := SizeRep.node_ok hfill
          simp only [Path.parent, Frame.here, hy, root?_node, if_true]
        | right y a =>
          obtain ⟨height', hy⟩ := SizeRep.node_ok hfill
          -- the node is not the left child as well
          have hne : a.root? ≠ some x := fun he => by
            rw [Frame.fill, inorder_node, List.nodup_append] at hnodupf
            exact hnodupf.2.2 x (mem_of_root? he) x (by simp) rfl
          simp only [Path.parent, Frame.here, hy, if_neg hne]

theorem rank_range {p : Path Ptr} {x : Ptr} {l r : BinaryTree Ptr} (ht : t = Path.plug p (node x l r))
    (hsmall : t.numNodes < 2 ^ 31) (hstart : start < t.numNodes) :
    -2 ^ 31 ≤ (indexAt p l - start - (1 + l.numNodes) : Int) ∧
      (indexAt p l - start + (1 + r.numNodes) : Int) < 2 ^ 31 := by
  rw [ht, numNodes_plug, numNodes] at hsmall hstart
  rw [indexAt]
  omega

/-- The target is below the current node: the walk only descends. -/
theorem zsetOffsetAux_down {p : Path Ptr} {x : Ptr} {l r : BinaryTree Ptr} {fuel : Nat}
    (hrep : SizeRep z.tree none t) (hnodup : t.inorder.Nodup) (hsmall : t.numNodes < 2 ^ 31)
    (hstart : start < t.numNodes) (ht : t = Path.plug p (node x l r))
    (hlow : (p.before.length : Int) ≤ start + offset)
    (hhigh : start + offset < p.before.length + (node x l r).numNodes) (hfuel : (node x l r).height ≤ fuel) :
    zsetOffsetAux fuel z x (indexAt p l - start) offset = .ok t.inorder[(start + offset).toNat]? := by
  obtain ⟨s, hs⟩ : ∃ s, s = node x l r := ⟨_, rfl⟩
  induction s generalizing p x l r fuel with
  | nil => cases hs
  | node y a b iha ihb =>
    obtain ⟨rfl, rfl, rfl⟩ : y = x ∧ a = l ∧ b = r := by simpa using hs
    rw [BinaryTree.height] at hfuel
    obtain ⟨fuel, rfl⟩ : ∃ n, fuel = n + 1 := ⟨fuel - 1, by omega⟩
    obtain ⟨hranklow, hrankhigh⟩ := rank_range ht hsmall hstart
    rw [zsetOffsetAux_round (ht ▸ hrep) (ht ▸ hnodup) (ht ▸ hsmall) hranklow hrankhigh]
    rw [numNodes] at hhigh
    by_cases heq : (indexAt p a - start : Int) = offset
    · have hidx : (start + offset : Int).toNat = indexAt p a := by omega
      rw [if_pos heq, hidx, ht, getElem?_indexAt]
    · rw [if_neg heq]
      by_cases hleft : (indexAt p a - start : Int) > offset
      · rw [if_pos ⟨hleft, by rw [indexAt]; omega⟩]
        cases a with
        | nil =>
          rw [indexAt, numNodes] at hleft
          omega
        | node v c d =>
          have hidx : (indexAt p (node v c d) - start - (1 + d.numNodes) : Int) =
              indexAt (.left y b :: p) c - start := by
            simp [indexAt, Path.before, Frame.before]
            omega
          simp only [hidx]
          refine iha ht ?_ ?_ (by omega) rfl
          · simpa [Path.before, Frame.before] using hlow
          · rw [indexAt] at hleft
            simp only [Path.before, Frame.before, List.append_nil]
            omega
      · rw [if_neg fun h => hleft h.1, if_pos ⟨by omega, by rw [indexAt]; omega⟩]
        cases b with
        | nil =>
          rw [indexAt] at heq hleft
          rw [numNodes] at hhigh
          omega
        | node v c d =>
          have hidx : (indexAt p a - start + (1 + c.numNodes) : Int) =
              indexAt (.right y a :: p) c - start := by
            simp [indexAt, Path.before, Frame.before, length_inorder]
            omega
          simp only [hidx]
          refine ihb ht ?_ ?_ (by omega) rfl
          · rw [indexAt] at hleft heq
            simp only [Path.before, Frame.before, List.length_append, length_inorder, List.length_singleton]
            omega
          · simp only [Path.before, Frame.before, List.length_append, length_inorder, List.length_singleton]
            omega

/-- The target is not below the current node: the round goes to the parent. -/
theorem zsetOffsetAux_up {p : Path Ptr} {x : Ptr} {l r : BinaryTree Ptr} {fuel : Nat}
    (hrep : SizeRep z.tree none t) (hnodup : t.inorder.Nodup) (hsmall : t.numNodes < 2 ^ 31)
    (hstart : start < t.numNodes) (ht : t = Path.plug p (node x l r))
    (hout : ¬((p.before.length : Int) ≤ start + offset ∧
      start + offset < p.before.length + (node x l r).numNodes)) :
    zsetOffsetAux (fuel + 1) z x (indexAt p l - start) offset =
      match p with
      | [] => .ok none
      | .left y _ :: p => zsetOffsetAux fuel z y (indexAt p (node x l r) - start) offset
      | .right y a :: p => zsetOffsetAux fuel z y (indexAt p a - start) offset := by
  rw [numNodes] at hout
  obtain ⟨hranklow, hrankhigh⟩ := rank_range ht hsmall hstart
  rw [zsetOffsetAux_round (ht ▸ hrep) (ht ▸ hnodup) (ht ▸ hsmall) hranklow hrankhigh,
    if_neg (by rw [indexAt]; omega), if_neg (by rw [indexAt]; omega), if_neg (by rw [indexAt]; omega)]
  cases p with
  | nil => rfl
  | cons f p =>
    cases f with
    | left y b =>
      have hidx : (indexAt (.left y b :: p) l - start + (1 + r.numNodes) : Int) = indexAt p (node x l r) - start := by
        simp [indexAt, Path.before, Frame.before]
        omega
      simp only [hidx]
    | right y a =>
      have hidx : (indexAt (.right y a :: p) l - start - (1 + l.numNodes) : Int) = indexAt p a - start := by
        simp [indexAt, Path.before, Frame.before, length_inorder]
        omega
      simp only [hidx]

/-- From any node of the tree: the walk climbs until the target is below the current node, or to the root
if it is not in the tree. -/
theorem zsetOffsetAux_eq {p : Path Ptr} {x : Ptr} {l r : BinaryTree Ptr} {fuel : Nat}
    (hrep : SizeRep z.tree none t) (hnodup : t.inorder.Nodup) (hsmall : t.numNodes < 2 ^ 31)
    (hstart : start < t.numNodes) (ht : t = Path.plug p (node x l r)) (hfuel : p.length + t.height ≤ fuel) :
    zsetOffsetAux fuel z x (indexAt p l - start) offset =
      .ok (if 0 ≤ start + offset then t.inorder[(start + offset).toNat]? else none) := by
  have hdown : ∀ {p : Path Ptr} {x : Ptr} {l r : BinaryTree Ptr} {fuel : Nat}, t = Path.plug p (node x l r) →
      p.length + t.height ≤ fuel → (p.before.length : Int) ≤ start + offset ∧
        start + offset < p.before.length + (node x l r).numNodes →
      zsetOffsetAux fuel z x (indexAt p l - start) offset =
        .ok (if 0 ≤ start + offset then t.inorder[(start + offset).toNat]? else none) := by
    intro p x l r fuel ht hfuel hin
    have hheight : (node x l r).height ≤ t.height := by
      have hle := Path.length_add_height_le p (node x l r)
      rw [ht]
      omega
    rw [if_pos (by omega)]
    exact zsetOffsetAux_down hrep hnodup hsmall hstart ht hin.1 hin.2 (by omega)
  induction p generalizing x l r fuel with
  | nil =>
    have hpos : 0 < t.height := by
      rw [ht, Path.plug, BinaryTree.height]
      omega
    obtain ⟨fuel, rfl⟩ : ∃ n, fuel = n + 1 := ⟨fuel - 1, by omega⟩
    by_cases hin : ((Path.before ([] : Path Ptr)).length : Int) ≤ start + offset ∧
        start + offset < (Path.before ([] : Path Ptr)).length + (node x l r).numNodes
    · exact hdown ht hfuel hin
    · rw [zsetOffsetAux_up hrep hnodup hsmall hstart ht hin]
      by_cases hneg : 0 ≤ start + offset
      · have hlen : t.inorder.length ≤ (start + offset).toNat := by
          rw [length_inorder, ht]
          simp only [Path.before, List.length_nil, Path.plug] at hin ⊢
          omega
        rw [if_pos hneg, List.getElem?_eq_none hlen]
      · rw [if_neg hneg]
  | cons f p ih =>
    rw [List.length_cons] at hfuel
    obtain ⟨fuel, rfl⟩ : ∃ n, fuel = n + 1 := ⟨fuel - 1, by omega⟩
    by_cases hin : ((Path.before (f :: p)).length : Int) ≤ start + offset ∧
        start + offset < (Path.before (f :: p)).length + (node x l r).numNodes
    · exact hdown ht (by rw [List.length_cons]; exact hfuel) hin
    · rw [zsetOffsetAux_up hrep hnodup hsmall hstart ht hin]
      cases f with
      | left y b => exact ih ht (by omega)
      | right y a => exact ih ht (by omega)

end Walk

theorem zsetOffset_eq {z : ZSet} {t : BinaryTree Ptr} {x : Ptr} {i : Nat} {offset : Int}
    (hrep : SizeRep z.tree none t) (hnodup : t.inorder.Nodup) (hsmall : t.numNodes < 2 ^ 31)
    (hx : t.inorder[i]? = some x) :
    zsetOffset z x offset = .ok (if 0 ≤ i + offset then t.inorder[(i + offset).toNat]? else none) := by
  obtain ⟨p, l, r, ht⟩ := Path.exists_plug_of_mem (List.mem_of_getElem? hx)
  have hi : i < t.inorder.length := (List.getElem?_eq_some_iff.mp hx).1
  have hidx : indexAt p l = i := by
    have hat : t.inorder[indexAt p l]? = some x := ht ▸ getElem?_indexAt
    exact (List.getElem?_inj (List.getElem?_eq_some_iff.mp hat).1 hnodup).mp (hat.trans hx.symm)
  have hnext : t.inorder.length ≤ z.tree.next := Mem.length_le_next hnodup hrep.live
  have hpath : p.length ≤ t.inorder.length := by
    rw [ht, Path.inorder_plug]
    have hle := Path.length_le p
    simp only [List.length_append] at hle ⊢
    omega
  rw [length_inorder] at hi hnext hpath
  have hfuel : p.length + t.height ≤ 2 * z.tree.next + 1 := by
    have hheight := height_le_numNodes t
    omega
  rw [zsetOffset, ← zsetOffsetAux_eq hrep hnodup hsmall hi ht hfuel, hidx, Int.sub_self]

/-- `zset_offset`: the node that many places further on, or null if there is none. -/
theorem zsetOffset_rank {z : ZSet} {t : BinaryTree Ptr} {x : Ptr} {i : Nat} {offset : Int}
    (hrep : SizeRep z.tree none t) (hnodup : t.inorder.Nodup) (hsmall : t.numNodes < 2 ^ 30)
    (hx : t.inorder[i]? = some x) :
    zsetOffset z x offset = .ok (if 0 ≤ i + offset then t.inorder[(i + offset).toNat]? else none) :=
  zsetOffset_eq hrep hnodup (hsmall.trans (by decide)) hx

/-- `0` at the root, `2` to its right and `1` below that: from the last node back to the first one. -/
theorem zsetOffset_rank_back :
    zsetOffset { tree := ⟨[some ⟨none, none, some 2, 0, 3⟩, some ⟨some 2, none, none, 0, 1⟩,
      some ⟨some 0, some 1, none, 0, 2⟩]⟩ } 2 (-2) = .ok (some 0) :=
  zsetOffset_rank (t := node 0 nil (node 2 (node 1 nil nil) nil)) (i := 2)
    ⟨⟨0, rfl⟩, trivial, ⟨0, rfl⟩, ⟨⟨0, rfl⟩, trivial, trivial⟩, trivial⟩ (by decide) (by decide) rfl

end CustomRedis
