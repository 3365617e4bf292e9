import CustomRedis.Model.AvlTree
import CustomRedis.Lib.Zipper

/-!
# The pointer operations of the AVL tree

`Rep m par t` says that the memory holds the tree `t` of addresses: every node's three pointers are
what the tree says, with `par` above the root, and its stored height and size are right. The
operations are followed through the memory once, here: each one turns a represented tree into a
represented tree that is given by the operations of `Lib/Zipper.lean`, and writes nowhere else.
Everything said about sequences, order and balance afterwards is about trees.

A walk towards the root is described by a path. The nodes on the path have the right pointers but
possibly stale heights and sizes (`PathRep`), the subtrees hanging off the path are represented.
-/

namespace CustomRedis

open BinaryTree

/-- The three pointers of a node. -/
def Links (m : AvlMem) (par : Option Ptr) (x : Ptr) (l r : Option Ptr) : Prop :=
  ∃ c, m.read x = some c ∧ c.parent = par ∧ c.left = l ∧ c.right = r

def Rep (m : AvlMem) : Option Ptr → BinaryTree Ptr → Prop
  | _, nil => True
  | par, node x l r =>
    m.read x = some ⟨par, l.root?, r.root?, (node x l r).height, (node x l r).numNodes % 2 ^ 32⟩ ∧
      Rep m (some x) l ∧ Rep m (some x) r

/-- The pointers at the root are right and its subtrees are represented. -/
def TopRep (m : AvlMem) (par : Option Ptr) (x : Ptr) (l r : BinaryTree Ptr) : Prop :=
  Links m par x l.root? r.root? ∧ Rep m (some x) l ∧ Rep m (some x) r

theorem Rep.top {m : AvlMem} {par : Option Ptr} {x : Ptr} {l r : BinaryTree Ptr} (h : Rep m par (node x l r)) :
    TopRep m par x l r :=
  ⟨⟨_, h.1, rfl, rfl, rfl⟩, h.2.1, h.2.2⟩

/-! ### Frames -/

theorem Links.congr {m m' : AvlMem} {par : Option Ptr} {x : Ptr} {l r : Option Ptr} (h : Links m par x l r)
    (hread : m'.read x = m.read x) : Links m' par x l r := by
  obtain ⟨c, hc, hlinks⟩ := h
  exact ⟨c, hread.trans hc, hlinks⟩

theorem Rep.congr {m m' : AvlMem} {par : Option Ptr} {t : BinaryTree Ptr} (h : Rep m par t)
    (hread : ∀ q ∈ t.inorder, m'.read q = m.read q) : Rep m' par t := by
  induction t generalizing par with
  | nil => trivial
  | node x l r hl hr =>
    refine ⟨(hread x (by simp)).trans h.1, hl h.2.1 fun q hq => hread q ?_, hr h.2.2 fun q hq => hread q ?_⟩
    · simp [hq]
    · simp [hq]

theorem Rep.live {m : AvlMem} {par : Option Ptr} {t : BinaryTree Ptr} (h : Rep m par t) :
    ∀ q ∈ t.inorder, (m.read q).isSome := by
  induction t generalizing par with
  | nil => simp
  | node x l r hl hr =>
    intro q hq
    rw [inorder_node, List.mem_append, List.mem_cons] at hq
    rcases hq with hq | rfl | hq
    · exact hl h.2.1 q hq
    · simp [h.1]
    · exact hr h.2.2 q hq

/-- Changing the parent pointer of the root moves the tree below another node. -/
theorem Rep.reparent {m m' : AvlMem} {par par' : Option Ptr} {t : BinaryTree Ptr} (h : Rep m par t)
    (hnodup : t.inorder.Nodup)
    (hroot : ∀ x c, t.root? = some x → m.read x = some c → m'.read x = some { c with parent := par' })
    (hread : ∀ q ∈ t.inorder, t.root? ≠ some q → m'.read q = m.read q) : Rep m' par' t := by
  cases t with
  | nil => trivial
  | node x l r =>
    have hne : ∀ q ∈ l.inorder ++ r.inorder, x ≠ q := by
      rw [inorder_node] at hnodup
      have hx := (List.nodup_middle.mp hnodup).notMem
      intro q hq he
      exact hx (he ▸ hq)
    refine ⟨hroot x _ rfl h.1, h.2.1.congr fun q hq => ?_, h.2.2.congr fun q hq => ?_⟩
    · exact hread q (by simp [hq]) fun he => hne q (by simp [hq]) (Option.some.inj he)
    · exact hread q (by simp [hq]) fun he => hne q (by simp [hq]) (Option.some.inj he)

/-! ### Heights and updates -/

theorem node_ok {m : AvlMem} {p : Ptr} {c : AVLNode} (h : m.read p = some c) : m.node p = .ok c := by
  rw [AvlMem.node, h]

theorem modify_ok {m : AvlMem} {p : Ptr} {c : AVLNode} (h : m.read p = some c) (f : AVLNode → AVLNode) :
    m.modify p f = .ok (m.set p (f c)) := by
  rw [AvlMem.modify, node_ok h]
  rfl

theorem avlHeightAux_rep {m : AvlMem} {par : Option Ptr} {t : BinaryTree Ptr} (h : Rep m par t) {fuel : Nat}
    (hfuel : t.height ≤ fuel) : avlHeightAux fuel m t.root? = .ok t.height := by
  induction t generalizing par fuel with
  | nil => cases fuel <;> rfl
  | node x l r hl hr =>
    rw [BinaryTree.height] at hfuel
    obtain ⟨fuel, rfl⟩ : ∃ n, fuel = n + 1 := ⟨fuel - 1, by omega⟩
    rw [root?_node, avlHeightAux, node_ok h.1]
    simp only [bind, Except.bind, hl h.2.1 (show l.height ≤ fuel by omega),
      hr h.2.2 (show r.height ≤ fuel by omega)]
    rw [BinaryTree.height, Nat.add_comm]

theorem avlHeight_rep {m : AvlMem} {par : Option Ptr} {t : BinaryTree Ptr} (h : Rep m par t)
    (hnodup : t.inorder.Nodup) : avlHeight m t.root? = .ok t.height :=
  avlHeightAux_rep h (t.height_le_length.trans (Mem.length_le_next hnodup h.live))

theorem avlSize_rep {m : AvlMem} {par : Option Ptr} {t : BinaryTree Ptr} (h : Rep m par t) :
    avlSize m t.root? = .ok (t.numNodes % 2 ^ 32) := by
  cases t with
  | nil => rfl
  | node x l r =>
    rw [root?_node, avlSize, node_ok h.1]
    rfl

theorem nodup_node {x : Ptr} {l r : BinaryTree Ptr} (h : (node x l r).inorder.Nodup) :
    l.inorder.Nodup ∧ r.inorder.Nodup ∧ x ∉ l.inorder ∧ x ∉ r.inorder ∧ ∀ q ∈ l.inorder, q ∉ r.inorder := by
  rw [inorder_node, List.nodup_append, List.nodup_cons] at h
  obtain ⟨hl, ⟨hxr, hr⟩, hdis⟩ := h
  refine ⟨hl, hr, fun hx => hdis x hx x (by simp) rfl, hxr, fun q hql hqr => hdis q hql q (by simp [hqr]) rfl⟩

theorem updateNode_spec {m : AvlMem} {par : Option Ptr} {x : Ptr} {l r : BinaryTree Ptr} (h : TopRep m par x l r)
    (hnodup : (node x l r).inorder.Nodup) :
    ∃ m', updateNode m x = .ok m' ∧ Rep m' par (node x l r) ∧ (∀ q, q ≠ x → m'.read q = m.read q) ∧
      m'.next = m.next := by
  obtain ⟨⟨c, hc, hp, hcl, hcr⟩, hl, hr⟩ := h
  obtain ⟨hnl, hnr, hxl, hxr, -⟩ := nodup_node hnodup
  have hlt := Mem.lt_next_of_read hc
  have hrun : updateNode m x = .ok (m.set x { c with
      height := 1 + max l.height r.height
      size := (1 + l.numNodes % 2 ^ 32 + r.numNodes % 2 ^ 32) % 2 ^ 32 }) := by
    rw [updateNode, node_ok hc]
    simp only [bind, Except.bind, hcl, hcr, avlHeight_rep hl hnl, avlHeight_rep hr hnr, avlSize_rep hl,
      avlSize_rep hr, modify_ok hc]
  refine ⟨_, hrun, ⟨?_, ?_, ?_⟩, fun q hq => Mem.read_set_ne hq _, Mem.next_set _ _ _⟩
  · rw [Mem.read_set_self hlt]
    have hheight : 1 + max l.height r.height = (node x l r).height := by rw [BinaryTree.height, Nat.add_comm]
    have hsize : (1 + l.numNodes % 2 ^ 32 + r.numNodes % 2 ^ 32) % 2 ^ 32 = (node x l r).numNodes % 2 ^ 32 := by
      rw [BinaryTree.numNodes]
      omega
    rw [hheight, hsize, hp, hcl, hcr]
  · exact hl.congr fun q hq => Mem.read_set_ne (ne_of_mem_of_not_mem hq hxl) _
  · exact hr.congr fun q hq => Mem.read_set_ne (ne_of_mem_of_not_mem hq hxr) _

/-! ### Rotations -/

theorem setParent_spec {m : AvlMem} {par : Option Ptr} {t : BinaryTree Ptr} (h : Rep m par t)
    (hnodup : t.inorder.Nodup) (par' : Option Ptr) :
    ∃ m', m.setParent t.root? par' = .ok m' ∧ Rep m' par' t ∧
      (∀ q, q ∉ t.inorder → m'.read q = m.read q) ∧ m'.next = m.next := by
  cases t with
  | nil => exact ⟨m, rfl, trivial, fun _ _ => rfl, rfl⟩
  | node x l r =>
    have hlt := Mem.lt_next_of_read h.1
    refine ⟨_, modify_ok h.1 _, h.reparent hnodup ?_ ?_, fun q hq => ?_, Mem.next_set _ _ _⟩
    · intro z c hz hc
      obtain rfl : x = z := by simpa using hz
      rw [Mem.read_set_self hlt, ← Option.some.inj (h.1.symm.trans hc)]
    · intro q _ hroot
      exact Mem.read_set_ne (fun he => hroot (by simp [he])) _
    · exact Mem.read_set_ne (fun he => hq (by simp [he])) _

/-- The pointer writes of a rotation, before the two nodes are updated: `x` has become a child of `y`
and the subtree `b` has moved from `y` to `x`. -/
theorem relink_spec {m : AvlMem} {x y : Ptr} {cx cy : AVLNode} {b : BinaryTree Ptr} (hx : m.read x = some cx)
    (hy : m.read y = some cy) (hb : Rep m (some y) b) (hxy : x ≠ y) (hnb : b.inorder.Nodup) (hxb : x ∉ b.inorder)
    (hyb : y ∉ b.inorder) (cx' cy' : AVLNode) :
    ∃ m', AvlMem.setParent ((m.set y cy').set x cx') b.root? (some x) = .ok m' ∧
      m'.read x = some cx' ∧ m'.read y = some cy' ∧ Rep m' (some x) b ∧
      (∀ q, q ≠ x → q ≠ y → q ∉ b.inorder → m'.read q = m.read q) ∧ m'.next = m.next := by
  have hltx := Mem.lt_next_of_read hx
  have hlty := Mem.lt_next_of_read hy
  have hread : ∀ q, ((m.set y cy').set x cx').read q =
      if q = x then some cx' else if q = y then some cy' else m.read q := by
    intro q
    rw [Mem.read_set (by simpa using hltx), Mem.read_set hlty]
  have hb' : Rep ((m.set y cy').set x cx') (some y) b := hb.congr fun q hq => by
    rw [hread, if_neg (ne_of_mem_of_not_mem hq hxb), if_neg (ne_of_mem_of_not_mem hq hyb)]
  obtain ⟨m', hrun, hrep, hframe, hnext⟩ := setParent_spec hb' hnb (some x)
  refine ⟨m', hrun, ?_, ?_, hrep, fun q hqx hqy hqb => ?_, by simpa using hnext⟩
  · rw [hframe x hxb, hread, if_pos rfl]
  · rw [hframe y hyb, hread, if_neg (Ne.symm hxy), if_pos rfl]
  · rw [hframe q hqb, hread, if_neg hqx, if_neg hqy]

/-- The first four writes of a rotation, in the order of the source. -/
theorem relink_writes {m : AvlMem} {x y : Ptr} {cx cy : AVLNode} (hx : m.read x = some cx) (hy : m.read y = some cy)
    (hxy : x ≠ y) (f₁ f₂ g₁ g₂ : AVLNode → AVLNode) :
    m.modify x f₁ = .ok (m.set x (f₁ cx)) ∧
      AvlMem.modify (m.set x (f₁ cx)) y g₁ = .ok ((m.set x (f₁ cx)).set y (g₁ cy)) ∧
      AvlMem.modify ((m.set x (f₁ cx)).set y (g₁ cy)) y g₂ = .ok ((m.set x (f₁ cx)).set y (g₂ (g₁ cy))) ∧
      AvlMem.modify ((m.set x (f₁ cx)).set y (g₂ (g₁ cy))) x f₂ =
        .ok ((m.set y (g₂ (g₁ cy))).set x (f₂ (f₁ cx))) := by
  have hltx := Mem.lt_next_of_read hx
  have hlty := Mem.lt_next_of_read hy
  refine ⟨modify_ok hx f₁, ?_, ?_, ?_⟩
  · rw [modify_ok (c := cy) (by rw [Mem.read_set_ne (Ne.symm hxy), hy])]
  · rw [modify_ok (c := g₁ cy) (by rw [Mem.read_set_self (by simpa using hlty)])]
    simp [Mem.set]
  · rw [modify_ok (c := f₁ cx) (by rw [Mem.read_set_ne hxy, Mem.read_set_self hltx])]
    simp only [Mem.set, List.set_comm _ _ hxy, List.set_set]

/-- `rotate_left` turns `x` with right child `y` into `y` with left child `x`. -/
theorem rotateLeft_spec {m : AvlMem} {par : Option Ptr} {x y : Ptr} {a b c : BinaryTree Ptr}
    (h : TopRep m par x a (node y b c)) (hnodup : (node x a (node y b c)).inorder.Nodup) :
    ∃ m', rotateLeft m x = .ok (m', y) ∧ Rep m' par (node y (node x a b) c) ∧
      (∀ q, q ∉ (node x a (node y b c)).inorder → m'.read q = m.read q) ∧ m'.next = m.next := by
  obtain ⟨⟨cx, hcx, hpx, hlx, hrx⟩, ha, hcy, hb, hc⟩ := h
  have hnew : (node y (node x a b) c).inorder.Nodup := by simpa using hnodup
  obtain ⟨hna, hnyr, hxa, hxyr, hdis⟩ := nodup_node hnodup
  obtain ⟨hnb, hnc, hyb, hyc, hdis'⟩ := nodup_node hnyr
  have hxy : x ≠ y := by rintro rfl; simp at hxyr
  have hxb : x ∉ b.inorder := fun hq => hxyr (by simp [hq])
  have hxc : x ∉ c.inorder := fun hq => hxyr (by simp [hq])
  have hya : y ∉ a.inorder := fun hq => hdis y hq (by simp)
  obtain ⟨m₁, hrun, hx₁, hy₁, hb₁, hframe, hnext⟩ := relink_spec hcx hcy hb hxy hnb hxb hyb
    { cx with right := b.root?, parent := some y }
    { parent := par, left := some x, right := c.root?, height := (node y b c).height,
      size := (node y b c).numNodes % 2 ^ 32 }
  have ha₁ : Rep m₁ (some x) a := ha.congr fun q hq =>
    hframe q (ne_of_mem_of_not_mem hq hxa) (ne_of_mem_of_not_mem hq hya) fun hqb => hdis q hq (by simp [hqb])
  have hc₁ : Rep m₁ (some y) c := hc.congr fun q hq =>
    hframe q (ne_of_mem_of_not_mem hq hxc) (ne_of_mem_of_not_mem hq hyc) fun hqb => hdis' q hqb hq
  have hnx : (node x a b).inorder.Nodup := (nodup_node hnew).1
  have htop : TopRep m₁ (some y) x a b := ⟨⟨_, hx₁, rfl, hlx, rfl⟩, ha₁, hb₁⟩
  obtain ⟨m₂, hup, hxrep, hframe₂, hnext₂⟩ := updateNode_spec htop hnx
  have hy₂ : Links m₂ par y (node x a b).root? c.root? :=
    ⟨_, (hframe₂ y (Ne.symm hxy)).trans hy₁, rfl, rfl, rfl⟩
  have hc₂ : Rep m₂ (some y) c := hc₁.congr fun q hq => hframe₂ q (ne_of_mem_of_not_mem hq hxc)
  obtain ⟨m₃, hup', hrep, hframe₃, hnext₃⟩ := updateNode_spec ⟨hy₂, hxrep, hc₂⟩ hnew
  refine ⟨m₃, ?_, hrep, ?_, by rw [hnext₃, hnext₂, hnext]⟩
  · obtain ⟨hw₁, hw₂, hw₃, hw₄⟩ := relink_writes hcx hcy hxy (fun c => { c with right := b.root? })
      (fun c => { c with parent := some y }) (fun n => { n with left := some x })
      (fun n => { n with parent := cx.parent })
    rw [rotateLeft, node_ok hcx]
    simp only [bind, Except.bind, hrx, root?_node, AvlMem.nonNull, node_ok hcy, hw₁, hw₂, hw₃, hw₄]
    rw [hpx, hrun]
    simp only [hup, hup']
  · intro q hq
    simp only [inorder_node, List.mem_append, List.mem_cons, not_or] at hq
    rw [hframe₃ q hq.2.2.2.1, hframe₂ q hq.2.1, hframe q hq.2.1 hq.2.2.2.1 hq.2.2.1]

/-- `rotate_right` turns `x` with left child `y` into `y` with right child `x`. -/
theorem rotateRight_spec {m : AvlMem} {par : Option Ptr} {x y : Ptr} {a b c : BinaryTree Ptr}
    (h : TopRep m par x (node y a b) c) (hnodup : (node x (node y a b) c).inorder.Nodup) :
    ∃ m', rotateRight m x = .ok (m', y) ∧ Rep m' par (node y a (node x b c)) ∧
      (∀ q, q ∉ (node x (node y a b) c).inorder → m'.read q = m.read q) ∧ m'.next = m.next := by
  obtain ⟨⟨cx, hcx, hpx, hlx, hrx⟩, ⟨hcy, ha, hb⟩, hc⟩ := h
  have hnew : (node y a (node x b c)).inorder.Nodup := by simpa using hnodup
  obtain ⟨hnyl, hnc, hxyl, hxc, hdis⟩ := nodup_node hnodup
  obtain ⟨hna, hnb, hya, hyb, hdis'⟩ := nodup_node hnyl
  have hxy : x ≠ y := by rintro rfl; simp at hxyl
  have hxa : x ∉ a.inorder := fun hq => hxyl (by simp [hq])
  have hxb : x ∉ b.inorder := fun hq => hxyl (by simp [hq])
  have hyc : y ∉ c.inorder := fun hq => hdis y (by simp) hq
  obtain ⟨m₁, hrun, hx₁, hy₁, hb₁, hframe, hnext⟩ := relink_spec hcx hcy hb hxy hnb hxb hyb
    { cx with left := b.root?, parent := some y }
    { parent := par, left := a.root?, right := some x, height := (node y a b).height,
      size := (node y a b).numNodes % 2 ^ 32 }
  have ha₁ : Rep m₁ (some y) a := ha.congr fun q hq =>
    hframe q (ne_of_mem_of_not_mem hq hxa) (ne_of_mem_of_not_mem hq hya) fun hqb => hdis' q hq hqb
  have hc₁ : Rep m₁ (some x) c := hc.congr fun q hq =>
    hframe q (ne_of_mem_of_not_mem hq hxc) (ne_of_mem_of_not_mem hq hyc) fun hqb => hdis q (by simp [hqb]) hq
  have hnx : (node x b c).inorder.Nodup := (nodup_node hnew).2.1
  have htop : TopRep m₁ (some y) x b c := ⟨⟨_, hx₁, rfl, rfl, hrx⟩, hb₁, hc₁⟩
  obtain ⟨m₂, hup, hxrep, hframe₂, hnext₂⟩ := updateNode_spec htop hnx
  have hy₂ : Links m₂ par y a.root? (node x b c).root? :=
    ⟨_, (hframe₂ y (Ne.symm hxy)).trans hy₁, rfl, rfl, rfl⟩
  have ha₂ : Rep m₂ (some y) a := ha₁.congr fun q hq => hframe₂ q (ne_of_mem_of_not_mem hq hxa)
  obtain ⟨m₃, hup', hrep, hframe₃, hnext₃⟩ := updateNode_spec ⟨hy₂, ha₂, hxrep⟩ hnew
  refine ⟨m₃, ?_, hrep, ?_, by rw [hnext₃, hnext₂, hnext]⟩
  · obtain ⟨hw₁, hw₂, hw₃, hw₄⟩ := relink_writes hcx hcy hxy (fun c => { c with left := b.root? })
      (fun c => { c with parent := some y }) (fun n => { n with right := some x })
      (fun n => { n with parent := cx.parent })
    rw [rotateRight, node_ok hcx]
    simp only [bind, Except.bind, hlx, root?_node, AvlMem.nonNull, node_ok hcy, hw₁, hw₂, hw₃, hw₄]
    rw [hpx, hrun]
    simp only [hup, hup']
  · intro q hq
    simp only [inorder_node, List.mem_append, List.mem_cons, not_or] at hq
    rw [hframe₃ q hq.1.2.1, hframe₂ q hq.2.1, hframe q hq.2.1 hq.1.2.1 hq.1.2.2]

/-! ### One rebalancing step -/

/-- Replacing the left subtree of a represented node by another represented one. -/
theorem TopRep.setLeft {m m₁ : AvlMem} {par : Option Ptr} {x z : Ptr} {l r t : BinaryTree Ptr}
    (h : Rep m par (node x l r)) (hnodup : (node x l r).inorder.Nodup) (ht : Rep m₁ (some x) t)
    (hroot : t.root? = some z) (hmem : ∀ q ∈ t.inorder, q ∈ l.inorder)
    (hframe : ∀ q, q ∉ l.inorder → m₁.read q = m.read q) :
    ∃ m₂, AvlMem.modify m₁ x (fun c => { c with left := some z }) = .ok m₂ ∧ TopRep m₂ par x t r ∧
      (∀ q, q ≠ x → m₂.read q = m₁.read q) ∧ m₂.next = m₁.next := by
  obtain ⟨-, -, hxl, hxr, hdis⟩ := nodup_node hnodup
  have hx₁ := (hframe x hxl).trans h.1
  have hframe₂ : ∀ v q, q ≠ x → (m₁.set x v).read q = m₁.read q := fun v q hq => Mem.read_set_ne hq v
  refine ⟨_, modify_ok hx₁ _, ⟨⟨_, Mem.read_set_self (Mem.lt_next_of_read hx₁) _, rfl, hroot.symm, rfl⟩, ?_, ?_⟩,
    hframe₂ _, Mem.next_set _ _ _⟩
  · exact ht.congr fun q hq => hframe₂ _ q (ne_of_mem_of_not_mem (hmem q hq) hxl)
  · refine h.2.2.congr fun q hq => ?_
    rw [hframe₂ _ q (ne_of_mem_of_not_mem hq hxr), hframe q fun hql => hdis q hql hq]

theorem TopRep.setRight {m m₁ : AvlMem} {par : Option Ptr} {x z : Ptr} {l r t : BinaryTree Ptr}
    (h : Rep m par (node x l r)) (hnodup : (node x l r).inorder.Nodup) (ht : Rep m₁ (some x) t)
    (hroot : t.root? = some z) (hmem : ∀ q ∈ t.inorder, q ∈ r.inorder)
    (hframe : ∀ q, q ∉ r.inorder → m₁.read q = m.read q) :
    ∃ m₂, AvlMem.modify m₁ x (fun c => { c with right := some z }) = .ok m₂ ∧ TopRep m₂ par x l t ∧
      (∀ q, q ≠ x → m₂.read q = m₁.read q) ∧ m₂.next = m₁.next := by
  obtain ⟨-, -, hxl, hxr, hdis⟩ := nodup_node hnodup
  have hx₁ := (hframe x hxr).trans h.1
  have hframe₂ : ∀ v q, q ≠ x → (m₁.set x v).read q = m₁.read q := fun v q hq => Mem.read_set_ne hq v
  refine ⟨_, modify_ok hx₁ _, ⟨⟨_, Mem.read_set_self (Mem.lt_next_of_read hx₁) _, rfl, rfl, hroot.symm⟩, ?_, ?_⟩,
    hframe₂ _, Mem.next_set _ _ _⟩
  · refine h.2.1.congr fun q hq => ?_
    rw [hframe₂ _ q (ne_of_mem_of_not_mem hq hxl), hframe q fun hqr => hdis q hq hqr]
  · exact ht.congr fun q hq => hframe₂ _ q (ne_of_mem_of_not_mem (hmem q hq) hxr)

/-- What a step on the subtree below `par` may do to the memory. -/
structure Rebuilt (m m' : AvlMem) (par : Option Ptr) (ids : List Ptr) (t : BinaryTree Ptr) : Prop where
  rep : Rep m' par t
  frame : ∀ q, q ∉ ids → m'.read q = m.read q
  next : m'.next = m.next

/-- The node after `update_node`, heavy on the left side by two. -/
theorem fixLeft_spec {m : AvlMem} {par : Option Ptr} {x : Ptr} {l r : BinaryTree Ptr} (h : Rep m par (node x l r))
    (hnodup : (node x l r).inorder.Nodup) (hheavy : l.height = r.height + 2) :
    ∃ m' y, (do
        let l ← AvlMem.nonNull l.root?
        let lc ← m.node l
        let ll ← avlHeight m lc.left
        let lr ← avlHeight m lc.right
        let m ← if ll < lr then do
            let (m, newLeft) ← rotateLeft m l
            m.modify x fun c => { c with left := some newLeft }
          else .ok m
        rotateRight m x : M (AvlMem × Ptr)) = .ok (m', y) ∧
      (node x l r).balance.root? = some y ∧ Rebuilt m m' par (node x l r).inorder (node x l r).balance := by
  rw [BinaryTree.balance, if_pos hheavy]
  cases l with
  | nil => simp at hheavy
  | node v ll lr =>
    have hl := h.2.1
    obtain ⟨hnl, -, hxl, -, -⟩ := nodup_node hnodup
    obtain ⟨hnll, hnlr, -, -, -⟩ := nodup_node hnl
    simp only [root?_node, AvlMem.nonNull, node_ok hl.1, avlHeight_rep hl.2.1 hnll, avlHeight_rep hl.2.2 hnlr, bind,
      Except.bind]
    by_cases hinner : ll.height < lr.height
    · -- double rotation
      rw [if_pos (show (node v ll lr).heights.1 < (node v ll lr).heights.2 from hinner)]
      cases lr with
      | nil => simp at hinner
      | node z a b =>
        obtain ⟨m₁, hrot, hrep₁, hframe₁, hnext₁⟩ := rotateLeft_spec hl.top hnl
        obtain ⟨m₂, hset, htop, hframe₂, hnext₂⟩ := TopRep.setLeft h hnodup hrep₁ rfl (by simp) hframe₁
        have hnodup₂ : (node x (node z (node v ll a) b) r).inorder.Nodup := by simpa using hnodup
        obtain ⟨m₃, hrot', hrep₃, hframe₃, hnext₃⟩ := rotateRight_spec htop hnodup₂
        simp only [if_pos hinner, hrot, hset, hrot']
        refine ⟨m₃, z, rfl, rfl, hrep₃, fun q hq => ?_, by rw [hnext₃, hnext₂, hnext₁]⟩
        have hqx : q ≠ x := fun he => hq (by simp [he])
        have hql : q ∉ (node v ll (node z a b)).inorder := by
          rw [inorder_node, List.mem_append] at hq
          exact fun hql => hq (.inl hql)
        rw [hframe₃ q (by simpa using hq), hframe₂ q hqx, hframe₁ q hql]
    · rw [if_neg (show ¬(node v ll lr).heights.1 < (node v ll lr).heights.2 from hinner)]
      obtain ⟨m₁, hrot, hrep₁, hframe₁, hnext₁⟩ := rotateRight_spec h.top hnodup
      simp only [if_neg hinner, hrot]
      exact ⟨m₁, v, rfl, rfl, hrep₁, hframe₁, hnext₁⟩

theorem fixRight_spec {m : AvlMem} {par : Option Ptr} {x : Ptr} {l r : BinaryTree Ptr} (h : Rep m par (node x l r))
    (hnodup : (node x l r).inorder.Nodup) (hheavy : r.height = l.height + 2) :
    ∃ m' y, (do
        let r ← AvlMem.nonNull r.root?
        let rc ← m.node r
        let rr ← avlHeight m rc.right
        let rl ← avlHeight m rc.left
        let m ← if rr < rl then do
            let (m, newRight) ← rotateRight m r
            m.modify x fun c => { c with right := some newRight }
          else .ok m
        rotateLeft m x : M (AvlMem × Ptr)) = .ok (m', y) ∧
      (node x l r).balance.root? = some y ∧ Rebuilt m m' par (node x l r).inorder (node x l r).balance := by
  rw [BinaryTree.balance, if_neg (by omega), if_pos hheavy]
  cases r with
  | nil => simp at hheavy
  | node v rl rr =>
    have hr := h.2.2
    obtain ⟨-, hnr, -, hxr, -⟩ := nodup_node hnodup
    obtain ⟨hnrl, hnrr, -, -, -⟩ := nodup_node hnr
    simp only [root?_node, AvlMem.nonNull, node_ok hr.1, avlHeight_rep hr.2.1 hnrl, avlHeight_rep hr.2.2 hnrr, bind,
      Except.bind]
    by_cases hinner : rr.height < rl.height
    · -- double rotation
      rw [if_pos (show (node v rl rr).heights.2 < (node v rl rr).heights.1 from hinner)]
      cases rl with
      | nil => simp at hinner
      | node z a b =>
        obtain ⟨m₁, hrot, hrep₁, hframe₁, hnext₁⟩ := rotateRight_spec hr.top hnr
        obtain ⟨m₂, hset, htop, hframe₂, hnext₂⟩ := TopRep.setRight h hnodup hrep₁ rfl (by simp) hframe₁
        have hnodup₂ : (node x l (node z a (node v b rr))).inorder.Nodup := by simpa using hnodup
        obtain ⟨m₃, hrot', hrep₃, hframe₃, hnext₃⟩ := rotateLeft_spec htop hnodup₂
        simp only [if_pos hinner, hrot, hset, hrot']
        refine ⟨m₃, z, rfl, rfl, hrep₃, fun q hq => ?_, by rw [hnext₃, hnext₂, hnext₁]⟩
        have hqx : q ≠ x := fun he => hq (by simp [he])
        have hqr : q ∉ (node v (node z a b) rr).inorder := by
          rw [inorder_node, List.mem_append, List.mem_cons] at hq
          exact fun hqr => hq (.inr (.inr hqr))
        rw [hframe₃ q (by simpa using hq), hframe₂ q hqx, hframe₁ q hqr]
    · rw [if_neg (show ¬(node v rl rr).heights.2 < (node v rl rr).heights.1 from hinner)]
      obtain ⟨m₁, hrot, hrep₁, hframe₁, hnext₁⟩ := rotateLeft_spec h.top hnodup
      simp only [if_neg hinner, hrot]
      exact ⟨m₁, v, rfl, rfl, hrep₁, hframe₁, hnext₁⟩

/-- One round of `avl_fix` is one `balance` step. -/
theorem avlFixNode_spec {m : AvlMem} {par : Option Ptr} {x : Ptr} {l r : BinaryTree Ptr} (h : TopRep m par x l r)
    (hnodup : (node x l r).inorder.Nodup) :
    ∃ m' y, avlFixNode m x = .ok (m', y) ∧ (node x l r).balance.root? = some y ∧
      Rebuilt m m' par (node x l r).inorder (node x l r).balance := by
  obtain ⟨⟨c, hc, hp, hcl, hcr⟩, hl, hr⟩ := id h
  obtain ⟨hnl, hnr, -, -, -⟩ := nodup_node hnodup
  obtain ⟨m₁, hup, hrep, hframe, hnext⟩ := updateNode_spec h hnodup
  have hframe' : ∀ q, q ∉ (node x l r).inorder → m₁.read q = m.read q := fun q hq => hframe q fun he => hq (by simp [he])
  rw [avlFixNode, node_ok hc]
  simp only [bind, Except.bind, hcl, hcr, avlHeight_rep hl hnl, avlHeight_rep hr hnr, hup]
  by_cases hleft : l.height = r.height + 2
  · obtain ⟨m₂, y, hrun, hroot, hreb⟩ := fixLeft_spec hrep hnodup hleft
    rw [if_pos hleft]
    exact ⟨m₂, y, hrun, hroot, hreb.rep, fun q hq => (hreb.frame q hq).trans (hframe' q hq), hreb.next.trans hnext⟩
  · by_cases hright : r.height = l.height + 2
    · obtain ⟨m₂, y, hrun, hroot, hreb⟩ := fixRight_spec hrep hnodup hright
      rw [if_neg hleft, if_pos hright]
      exact ⟨m₂, y, hrun, hroot, hreb.rep, fun q hq => (hreb.frame q hq).trans (hframe' q hq), hreb.next.trans hnext⟩
    · rw [if_neg hleft, if_neg hright, BinaryTree.balance, if_neg hleft, if_neg hright]
      exact ⟨m₁, x, rfl, rfl, hrep, hframe', hnext⟩

/-! ### Walking up a path -/

/-- The node of a frame has the right pointers, with `hole` on the side of the hole. -/
def FrameRep (m : AvlMem) (par : Option Ptr) (hole : Option Ptr) : Frame Ptr → Prop
  | .left x r => Links m par x hole r.root? ∧ Rep m (some x) r
  | .right x l => Links m par x l.root? hole ∧ Rep m (some x) l

def PathRep (m : AvlMem) : Option Ptr → Path Ptr → Prop
  | _, [] => True
  | hole, f :: p => FrameRep m (Path.parent p) hole f ∧ PathRep m (some f.here) p

theorem FrameRep.congr {m m' : AvlMem} {par hole : Option Ptr} {f : Frame Ptr} (h : FrameRep m par hole f)
    (hread : ∀ q ∈ f.before ++ f.after, m'.read q = m.read q) : FrameRep m' par hole f := by
  cases f with
  | left x r =>
    exact ⟨h.1.congr (hread x (by simp [Frame.before, Frame.after])),
      h.2.congr fun q hq => hread q (by simp [Frame.before, Frame.after, hq])⟩
  | right x l =>
    exact ⟨h.1.congr (hread x (by simp [Frame.before, Frame.after])),
      h.2.congr fun q hq => hread q (by simp [Frame.before, Frame.after, hq])⟩

theorem PathRep.congr {m m' : AvlMem} {hole : Option Ptr} {p : Path Ptr} (h : PathRep m hole p)
    (hread : ∀ q ∈ p.before ++ p.after, m'.read q = m.read q) : PathRep m' hole p := by
  induction p generalizing hole with
  | nil => trivial
  | cons f p ih =>
    refine ⟨h.1.congr fun q hq => hread q ?_, ih h.2 fun q hq => hread q ?_⟩
    · simp only [Path.before, Path.after, List.mem_append] at hq ⊢
      tauto
    · simp only [Path.before, Path.after, List.mem_append] at hq ⊢
      tauto

/-- A represented tree, seen from one of its subtrees. -/
theorem Rep.split {m : AvlMem} {p : Path Ptr} {t : BinaryTree Ptr} (h : Rep m none (Path.plug p t)) :
    PathRep m t.root? p ∧ Rep m p.parent t := by
  induction p generalizing t with
  | nil => exact ⟨trivial, h⟩
  | cons f p ih =>
    obtain ⟨hpath, hfill⟩ := ih (t := f.fill t) h
    rw [Frame.root?_fill] at hpath
    cases f with
    | left x r => exact ⟨⟨⟨hfill.top.1, hfill.2.2⟩, hpath⟩, hfill.2.1⟩
    | right x l => exact ⟨⟨⟨hfill.top.1, hfill.2.1⟩, hpath⟩, hfill.2.2⟩

theorem nodup_plug_cons {f : Frame Ptr} {p : Path Ptr} {t : BinaryTree Ptr}
    (h : (Path.plug (f :: p) t).inorder.Nodup) : (f.fill t).inorder.Nodup := by
  rw [Path.plug, Path.inorder_plug, List.append_assoc] at h
  exact (List.nodup_append.mp (List.nodup_append.mp h).2.1).1

/-- The two parts of a plugged tree are disjoint. -/
theorem not_mem_path_of_mem {p : Path Ptr} {t : BinaryTree Ptr} (h : (Path.plug p t).inorder.Nodup) {q : Ptr}
    (hq : q ∈ t.inorder) : q ∉ p.before ++ p.after := by
  rw [Path.inorder_plug] at h
  have hperm : (t.inorder ++ (p.before ++ p.after)).Perm (p.before ++ t.inorder ++ p.after) := by
    rw [← List.append_assoc]
    exact (List.perm_append_comm).append_right _
  exact fun hpath => (List.nodup_append.mp (hperm.nodup_iff.mpr h)).2.2 q hq q hpath rfl

theorem nodup_of_plug {p : Path Ptr} {t : BinaryTree Ptr} (h : (Path.plug p t).inorder.Nodup) : t.inorder.Nodup := by
  rw [Path.inorder_plug, List.append_assoc] at h
  exact (List.nodup_append.mp (List.nodup_append.mp h).2.1).1

/-- Replacing the subtree on the side of the hole, as `*from = node` does. -/
theorem replaceChild_spec {m : AvlMem} {par : Option Ptr} {f : Frame Ptr} {x : Ptr} {t t' : BinaryTree Ptr}
    (hf : FrameRep m par (some x) f) (ht : Rep m (some f.here) t') (hx : x ∈ t.inorder)
    (hnodup : (f.fill t).inorder.Nodup) (hmem : ∀ q ∈ t'.inorder, q ∈ t.inorder) :
    ∃ m' z l r, replaceChild m f.here x t'.root? = .ok m' ∧ f.fill t' = node z l r ∧ z = f.here ∧ TopRep m' par z l r ∧
      (∀ q, q ≠ f.here → m'.read q = m.read q) ∧ m'.next = m.next := by
  have hframe : ∀ v q, q ≠ f.here → (m.set f.here v).read q = m.read q := fun v q hq => Mem.read_set_ne hq v
  cases f with
  | left z r =>
    obtain ⟨⟨c, hc, hp, hl, hr⟩, hrep⟩ := hf
    obtain ⟨-, -, hzt, hzr, -⟩ := nodup_node hnodup
    refine ⟨_, z, t', r, modify_ok hc _, rfl, rfl, ⟨⟨_, Mem.read_set_self (Mem.lt_next_of_read hc) _, ?_⟩, ?_, ?_⟩,
      hframe _, Mem.next_set _ _ _⟩
    · simp [hl, hp, hr]
    · exact ht.congr fun q hq => hframe _ q (ne_of_mem_of_not_mem (hmem q hq) hzt)
    · exact hrep.congr fun q hq => hframe _ q (ne_of_mem_of_not_mem hq hzr)
  | right z l =>
    obtain ⟨⟨c, hc, hp, hl, hr⟩, hrep⟩ := hf
    obtain ⟨-, -, hzl, hzt, hdis⟩ := nodup_node hnodup
    have hne : l.root? ≠ some x := fun he => hdis x (mem_of_root? he) hx
    refine ⟨_, z, l, t', modify_ok hc _, rfl, rfl, ⟨⟨_, Mem.read_set_self (Mem.lt_next_of_read hc) _, ?_⟩, ?_, ?_⟩,
      hframe _, Mem.next_set _ _ _⟩
    · simp [hl, hp, hne]
    · exact hrep.congr fun q hq => hframe _ q (ne_of_mem_of_not_mem hq hzl)
    · exact ht.congr fun q hq => hframe _ q (ne_of_mem_of_not_mem (hmem q hq) hzt)

/-- `avl_fix` rebalances every node on the way to the root. -/
theorem avlFixAux_spec {m : AvlMem} {p : Path Ptr} {x : Ptr} {l r : BinaryTree Ptr} (h : TopRep m p.parent x l r)
    (hpath : PathRep m (some x) p) (hnodup : (Path.plug p (node x l r)).inorder.Nodup) {fuel : Nat}
    (hfuel : p.length < fuel) :
    ∃ m' y, avlFixAux fuel m x = .ok (m', y) ∧ (Path.rebuild p (node x l r)).root? = some y ∧
      Rebuilt m m' none (Path.plug p (node x l r)).inorder (Path.rebuild p (node x l r)) := by
  induction p generalizing m x l r fuel with
  | nil =>
    obtain ⟨fuel, rfl⟩ : ∃ n, fuel = n + 1 := ⟨fuel - 1, by simp at hfuel; omega⟩
    obtain ⟨m', y, hrun, hroot, hreb⟩ := avlFixNode_spec h hnodup
    obtain ⟨c, hc, hpar, -, -⟩ := h.1
    refine ⟨m', y, ?_, hroot, hreb⟩
    rw [avlFixAux, node_ok hc]
    simp only [bind, Except.bind, hrun, hpar, Path.parent]
  | cons f p ih =>
    obtain ⟨fuel, rfl⟩ : ∃ n, fuel = n + 1 := ⟨fuel - 1, by simp at hfuel; omega⟩
    have hfill := nodup_plug_cons hnodup
    obtain ⟨m₁, y, hrun, hroot, hreb⟩ := avlFixNode_spec h (nodup_of_plug hnodup)
    obtain ⟨c, hc, hpar, -, -⟩ := h.1
    -- the path is untouched by the round
    have hpath₁ : PathRep m₁ (some x) (f :: p) := hpath.congr fun q hq =>
      hreb.frame q fun hin => not_mem_path_of_mem hnodup hin hq
    obtain ⟨m₂, z, l', r', hset, hnode, hz, htop, hframe₂, hnext₂⟩ := replaceChild_spec (t := node x l r)
      hpath₁.1 hreb.rep (by simp) hfill (by simp)
    have hplug : (Path.plug p (node z l' r')).inorder = (Path.plug (f :: p) (node x l r)).inorder := by
      rw [← hnode, Path.plug, Path.inorder_plug, Path.inorder_plug, Frame.inorder_fill, Frame.inorder_fill,
        inorder_balance]
    have hpath₂ : PathRep m₂ (some z) p := by
      rw [hz]
      refine hpath₁.2.congr fun q hq => hframe₂ q fun he => ?_
      have hin : f.here ∈ (f.fill (node x l r)).inorder := mem_of_root? (Frame.root?_fill f _)
      exact not_mem_path_of_mem (p := p) hnodup hin (he ▸ hq)
    obtain ⟨m₃, y', hrun₃, hroot₃, hreb₃⟩ := ih htop hpath₂ (by rw [hplug]; exact hnodup)
      (show p.length < fuel by simp at hfuel; omega)
    rw [hplug, ← hnode] at hreb₃
    rw [← hnode] at hroot₃
    refine ⟨m₃, y', ?_, hroot₃, hreb₃.rep, fun q hq => ?_, by rw [hreb₃.next, hnext₂, hreb.next]⟩
    · rw [avlFixAux, node_ok hc]
      rw [hroot] at hset
      rw [hz] at hrun₃
      simp only [bind, Except.bind, hrun, hpar, Path.parent, hset, hrun₃]
    · have hqf : q ≠ f.here := by
        rintro rfl
        refine hq ?_
        rw [Path.plug, Path.inorder_plug, List.mem_append, List.mem_append]
        exact .inl (.inr (mem_of_root? (Frame.root?_fill f _)))
      have hqn : q ∉ (node x l r).inorder := fun hin => hq (by
        rw [Path.inorder_plug, List.mem_append, List.mem_append]
        exact .inl (.inr hin))
      rw [hreb₃.frame q hq, hframe₂ q hqf, hreb.frame q hqn]

theorem length_lt_next {m : AvlMem} {p : Path Ptr} {x : Ptr} {l r : BinaryTree Ptr}
    (hnodup : (Path.plug p (node x l r)).inorder.Nodup)
    (hlive : ∀ q ∈ (Path.plug p (node x l r)).inorder, (m.read q).isSome) : p.length < m.next := by
  have hle := Mem.length_le_next hnodup hlive
  have hpath := Path.length_le p
  rw [Path.inorder_plug] at hle
  simp only [List.length_append, inorder_node, List.length_cons] at hle hpath
  omega

/-! ### Deletion -/

/-- A node with at most one child is replaced by that child. -/
theorem delSimple_spec {m : AvlMem} {p : Path Ptr} {x : Ptr} {l r child : BinaryTree Ptr}
    (h : Rep m none (Path.plug p (node x l r))) (hnodup : (Path.plug p (node x l r)).inorder.Nodup)
    (hchild : l = nil ∧ child = r ∨ r = nil ∧ child = l) :
    ∃ m', delSimple m x = .ok (m', (Path.splice p child).root?) ∧
      Rebuilt m m' none (Path.plug p child).inorder (Path.splice p child) := by
  obtain ⟨hpath, hx⟩ := h.split
  have hmem : ∀ q ∈ child.inorder, q ∈ (node x l r).inorder := by
    rcases hchild with ⟨-, rfl⟩ | ⟨-, rfl⟩ <;> simp +contextual
  have hroot : (if l.root?.isSome then l.root? else r.root?) = child.root? := by
    rcases hchild with ⟨rfl, rfl⟩ | ⟨rfl, rfl⟩
    · rfl
    · cases child <;> rfl
  have hone : ¬(l.root?.isSome ∧ r.root?.isSome) := by
    rcases hchild with ⟨rfl, -⟩ | ⟨rfl, -⟩ <;> simp
  have hxn := nodup_of_plug hnodup
  have hcrep : Rep m (some x) child ∧ child.inorder.Nodup := by
    rcases hchild with ⟨-, rfl⟩ | ⟨-, rfl⟩
    · exact ⟨hx.2.2, (nodup_node hxn).2.1⟩
    · exact ⟨hx.2.1, (nodup_node hxn).1⟩
  obtain ⟨m₁, hset, hrep₁, hframe₁, hnext₁⟩ := setParent_spec hcrep.1 hcrep.2 (Path.parent p)
  rw [delSimple, node_ok hx.1]
  simp only [bind, Except.bind, if_neg hone, hroot, hset]
  cases p with
  | nil => exact ⟨m₁, rfl, hrep₁, fun q hq => hframe₁ q hq, hnext₁⟩
  | cons f p =>
    have hpath₁ : PathRep m₁ (some x) (f :: p) := hpath.congr fun q hq =>
      hframe₁ q fun hin => not_mem_path_of_mem hnodup (hmem q hin) hq
    obtain ⟨m₂, z, l', r', hrepl, hnode, hz, htop, hframe₂, hnext₂⟩ :=
      replaceChild_spec hpath₁.1 hrep₁ (t := node x l r) (by simp) (nodup_plug_cons hnodup) hmem
    have hplug : Path.plug p (node z l' r') = Path.plug (f :: p) child := by rw [← hnode, Path.plug]
    have hsub : (Path.plug (f :: p) child).inorder.Sublist (Path.plug (f :: p) (node x l r)).inorder := by
      rw [Path.inorder_plug, Path.inorder_plug]
      refine ((List.Sublist.refl _).append ?_).append (List.Sublist.refl _)
      rcases hchild with ⟨rfl, rfl⟩ | ⟨rfl, rfl⟩ <;> simp
    have hpath₂ : PathRep m₂ (some z) p := by
      rw [hz]
      refine hpath₁.2.congr fun q hq => hframe₂ q fun he => ?_
      have hin : f.here ∈ (f.fill (node x l r)).inorder := mem_of_root? (Frame.root?_fill f _)
      exact not_mem_path_of_mem (p := p) hnodup hin (he ▸ hq)
    have hlen : p.length < m₂.next := by
      have hlt := length_lt_next hnodup h.live
      rw [hnext₂, hnext₁]
      simp at hlt
      omega
    obtain ⟨m₃, y, hfix, hroot₃, hreb⟩ := avlFixAux_spec htop hpath₂ (by rw [hplug]; exact hnodup.sublist hsub) hlen
    rw [hplug, ← hnode] at hreb
    rw [← hnode] at hroot₃
    refine ⟨m₃, ?_, hreb.rep, fun q hq => ?_, by rw [hreb.next, hnext₂, hnext₁]⟩
    · rw [hz] at hfix
      simp only [Path.parent, hrepl, avlFix, hfix, Path.splice, hroot₃]
    · have hqc : q ∉ child.inorder := fun hin => hq (by
        rw [Path.inorder_plug, List.mem_append, List.mem_append]
        exact .inl (.inr hin))
      have hqf : q ≠ f.here := by
        rintro rfl
        refine hq ?_
        rw [Path.plug, Path.inorder_plug, List.mem_append, List.mem_append]
        exact .inl (.inr (mem_of_root? (Frame.root?_fill f _)))
      rw [hreb.frame q hq, hframe₂ q hqf, hframe₁ q hqc]

/-- The walk along the left links ends at the first node in order. -/
theorem leftmostAux_spec {m : AvlMem} {par : Option Ptr} {x : Ptr} {l r : BinaryTree Ptr}
    (h : Rep m par (node x l r)) {fuel : Nat} (hfuel : l.height < fuel) :
    ∃ (q : Path Ptr) (v : Ptr) (s : BinaryTree Ptr), leftmostAux fuel m x = .ok v ∧
      node x l r = Path.plug q (node v nil s) ∧ q.before = [] := by
  induction l generalizing x r par fuel with
  | nil =>
    obtain ⟨fuel, rfl⟩ : ∃ n, fuel = n + 1 := ⟨fuel - 1, by omega⟩
    refine ⟨[], x, r, ?_, rfl, rfl⟩
    rw [leftmostAux, node_ok h.1]
    rfl
  | node y a b ha _ =>
    obtain ⟨fuel, rfl⟩ : ∃ n, fuel = n + 1 := ⟨fuel - 1, by omega⟩
    obtain ⟨q, v, s, hrun, hplug, hbefore⟩ := ha h.2.1 (show a.height < fuel by
      rw [BinaryTree.height] at hfuel
      omega)
    refine ⟨q ++ [.left x r], v, s, ?_, ?_, ?_⟩
    · rw [leftmostAux, node_ok h.1]
      exact hrun
    · rw [Path.plug_append, ← hplug]
      rfl
    · rw [Path.before_append, hbefore]
      rfl

/-- A subtree may be exchanged for one with the same root, height and size. -/
theorem Rep.plug_congr {m m' : AvlMem} {p : Path Ptr} {t t' : BinaryTree Ptr} (h : Rep m none (Path.plug p t))
    (ht : Rep m' (Path.parent p) t') (hroot : t'.root? = t.root?) (hheight : t'.height = t.height)
    (hsize : t'.numNodes = t.numNodes) (hread : ∀ q ∈ p.before ++ p.after, m'.read q = m.read q) :
    Rep m' none (Path.plug p t') := by
  induction p generalizing t t' with
  | nil => exact ht
  | cons f p ih =>
    have hfill := (Rep.split (t := f.fill t) h).2
    have hread' : ∀ q ∈ f.before ++ f.after, m'.read q = m.read q := fun q hq => hread q (by
      simp only [Path.before, Path.after, List.mem_append] at hq ⊢
      tauto)
    refine @ih (f.fill t) (f.fill t') h ?_ (by simp) ?_ ?_ fun q hq => hread q ?_
    · cases f with
      | left x r =>
        refine ⟨?_, ht, hfill.2.2.congr fun q hq => hread' q (by simp [Frame.before, Frame.after, hq])⟩
        rw [hread' x (by simp [Frame.before, Frame.after]), hroot, BinaryTree.height, BinaryTree.numNodes, hheight, hsize]
        exact hfill.1
      | right x l =>
        refine ⟨?_, hfill.2.1.congr fun q hq => hread' q (by simp [Frame.before, Frame.after, hq]), ht⟩
        rw [hread' x (by simp [Frame.before, Frame.after]), hroot, BinaryTree.height, BinaryTree.numNodes, hheight, hsize]
        exact hfill.1
    · cases f <;> simp [Frame.fill, hheight]
    · cases f <;> simp [Frame.fill, hsize]
    · simp only [Path.before, Path.after, List.mem_append] at hq ⊢
      tauto

/-- The link to the root of a subtree is moved to a tree of the same height and size. -/
theorem Rep.fill_swap {m m' : AvlMem} {par : Option Ptr} {f : Frame Ptr} {x v : Ptr} {t t' : BinaryTree Ptr}
    (h : Rep m par (f.fill t)) (hnodup : (f.fill t).inorder.Nodup) (hx : t.root? = some x)
    (ht : Rep m' (some f.here) t') (hheight : t'.height = t.height) (hsize : t'.numNodes = t.numNodes)
    (hmem : ∀ q ∈ t'.inorder, q = v ∨ q ∈ t.inorder) (hv : f.here ≠ v)
    (hread : ∀ q ∈ f.before ++ f.after, m'.read q = m.read q) :
    ∃ m₂, replaceChild m' f.here x t'.root? = .ok m₂ ∧ Rep m₂ par (f.fill t') ∧
      (∀ q, q ≠ f.here → m₂.read q = m'.read q) ∧ m₂.next = m'.next := by
  have hset : ∀ c q, q ≠ f.here → (m'.set f.here c).read q = m'.read q := fun c q hq => Mem.read_set_ne hq c
  cases f with
  | left z b =>
    obtain ⟨-, -, hzt, hzb, -⟩ := nodup_node hnodup
    have hz := (hread z (by simp [Frame.before, Frame.after])).trans h.1
    refine ⟨_, modify_ok hz _, ⟨?_, ?_, ?_⟩, hset _, Mem.next_set _ _ _⟩
    · rw [Mem.read_set_self (Mem.lt_next_of_read hz), if_pos hx]
      simp only [BinaryTree.height, BinaryTree.numNodes, hheight, hsize]
    · refine ht.congr fun q hq => hset _ q ?_
      rintro rfl
      exact (hmem _ hq).elim hv hzt
    · refine h.2.2.congr fun q hq => ?_
      exact (hset _ q (ne_of_mem_of_not_mem hq hzb)).trans (hread q (by simp [Frame.before, Frame.after, hq]))
  | right z a =>
    obtain ⟨-, -, hza, hzt, hdis⟩ := nodup_node hnodup
    have hz := (hread z (by simp [Frame.before, Frame.after])).trans h.1
    have hax : a.root? ≠ some x := fun he => hdis x (mem_of_root? he) (mem_of_root? hx)
    refine ⟨_, modify_ok hz _, ⟨?_, ?_, ?_⟩, hset _, Mem.next_set _ _ _⟩
    · rw [Mem.read_set_self (Mem.lt_next_of_read hz), if_neg hax]
      simp only [BinaryTree.height, BinaryTree.numNodes, hheight, hsize]
    · refine h.2.1.congr fun q hq => ?_
      exact (hset _ q (ne_of_mem_of_not_mem hq hza)).trans (hread q (by simp [Frame.before, Frame.after, hq]))
    · refine ht.congr fun q hq => hset _ q ?_
      rintro rfl
      exact (hmem _ hq).elim hv hzt

theorem takePlace_spec {m : AvlMem} {p : Path Ptr} {x v : Ptr} {l r : BinaryTree Ptr}
    (h : Rep m none (Path.plug p (node x l r))) (hnodup : (Path.plug p (node x l r)).inorder.Nodup)
    (hv : v ∉ (Path.plug p (node x l r)).inorder) (hlive : (m.read v).isSome) :
    ∃ m', takePlace m x v = .ok (m', Path.parent p) ∧
      Rebuilt m m' none (v :: (Path.plug p (node x l r)).inorder) (Path.plug p (node v l r)) := by
  obtain ⟨cv, hcv⟩ := Option.isSome_iff_exists.mp hlive
  obtain ⟨-, hx⟩ := h.split
  obtain ⟨hnl, hnr, hxl, hxr, hdis⟩ := nodup_node (nodup_of_plug hnodup)
  have hin : ∀ q ∈ (node x l r).inorder, q ∈ (Path.plug p (node x l r)).inorder := fun q hq => by
    rw [Path.inorder_plug, List.mem_append, List.mem_append]
    exact .inl (.inr hq)
  have hvl : v ∉ l.inorder := fun hq => hv (hin v (by simp [hq]))
  have hvr : v ∉ r.inorder := fun hq => hv (hin v (by simp [hq]))
  have hvpath : v ∉ p.before ++ p.after := fun hq => hv (by
    rw [Path.inorder_plug]
    simp only [List.mem_append] at hq ⊢
    tauto)
  -- the copy of the cell
  obtain ⟨cx, hcx⟩ : ∃ c : AVLNode, c =
    ⟨Path.parent p, l.root?, r.root?, (node x l r).height, (node x l r).numNodes % 2 ^ 32⟩ := ⟨_, rfl⟩
  have hframe₁ : ∀ q, q ≠ v → (m.set v cx).read q = m.read q := fun q hq => Mem.read_set_ne hq _
  have hl₁ : Rep (m.set v cx) (some x) l := hx.2.1.congr fun q hq => hframe₁ q (ne_of_mem_of_not_mem hq hvl)
  have hr₁ : Rep (m.set v cx) (some x) r := hx.2.2.congr fun q hq => hframe₁ q (ne_of_mem_of_not_mem hq hvr)
  -- the children
  obtain ⟨m₂, hset₂, hl₂, hframe₂, hnext₂⟩ := setParent_spec hl₁ hnl (some v)
  have hr₂ : Rep m₂ (some x) r := hr₁.congr fun q hq => hframe₂ q fun hql => hdis q hql hq
  obtain ⟨m₃, hset₃, hr₃, hframe₃, hnext₃⟩ := setParent_spec hr₂ hnr (some v)
  have hl₃ : Rep m₃ (some v) l := hl₂.congr fun q hq => hframe₃ q fun hqr => hdis q hq hqr
  have hread₃ : ∀ q, q ≠ v → q ∉ l.inorder → q ∉ r.inorder → m₃.read q = m.read q := fun q hqv hql hqr => by
    rw [hframe₃ q hqr, hframe₂ q hql, hframe₁ q hqv]
  have hv₃ : m₃.read v = some cx := by
    rw [hframe₃ v hvr, hframe₂ v hvl, Mem.read_set_self (Mem.lt_next_of_read hcv)]
  have hnode : Rep m₃ (Path.parent p) (node v l r) := ⟨hv₃.trans (by rw [hcx]; rfl), hl₃, hr₃⟩
  have hnext : m₃.next = m.next := by rw [hnext₃, hnext₂, Mem.next_set]
  have hframe : ∀ q, q ∉ v :: (Path.plug p (node x l r)).inorder → m₃.read q = m.read q := fun q hq => by
    simp only [List.mem_cons, not_or] at hq
    exact hread₃ q hq.1 (fun hql => hq.2 (hin q (by simp [hql]))) fun hqr => hq.2 (hin q (by simp [hqr]))
  have hlinks : cx.left = l.root? ∧ cx.right = r.root? ∧ cx.parent = Path.parent p := by simp [hcx]
  rw [takePlace, node_ok (hx.1.trans (congrArg some hcx.symm))]
  simp only [bind, Except.bind, modify_ok hcv, hlinks, hset₂, hset₃]
  cases p with
  | nil => exact ⟨m₃, rfl, hnode, hframe, hnext⟩
  | cons f p =>
    have hpathread : ∀ q ∈ Path.before (f :: p) ++ Path.after (f :: p), m₃.read q = m.read q := fun q hq =>
      hread₃ q (ne_of_mem_of_not_mem hq hvpath)
        (fun hql => not_mem_path_of_mem (q := q) hnodup (by simp [hql]) hq)
        fun hqr => not_mem_path_of_mem (q := q) hnodup (by simp [hqr]) hq
    have hhere : f.here ∈ (f.fill (node x l r)).inorder := mem_of_root? (Frame.root?_fill f _)
    have hfv : f.here ≠ v := fun he => hv (by
      rw [Path.plug, Path.inorder_plug, List.mem_append, List.mem_append, ← he]
      exact .inl (.inr hhere))
    obtain ⟨m₄, hrepl, hfill₄, hframe₄, hnext₄⟩ := Rep.fill_swap (Rep.split (t := f.fill (node x l r)) h).2
      (nodup_plug_cons hnodup) rfl hnode rfl rfl (by
        intro q hq
        simp only [inorder_node, List.mem_append, List.mem_cons] at hq ⊢
        tauto) hfv fun q hq => hpathread q (by
      simp only [Path.before, Path.after, List.mem_append] at hq ⊢
      tauto)
    rw [root?_node] at hrepl
    simp only [Path.parent, hrepl]
    refine ⟨m₄, rfl, ?_, fun q hq => ?_, hnext₄.trans hnext⟩
    · refine Rep.plug_congr (t := f.fill (node x l r)) (p := p) h hfill₄ (by simp) ?_ ?_ fun q hq => ?_
      · cases f <;> rfl
      · cases f <;> rfl
      · rw [hframe₄ q fun he => not_mem_path_of_mem (p := p) hnodup hhere (he ▸ hq)]
        refine hpathread q ?_
        simp only [Path.before, Path.after, List.mem_append] at hq ⊢
        tauto
    · rw [hframe₄ q, hframe q hq]
      rintro rfl
      refine hq (List.mem_cons_of_mem _ ?_)
      rw [Path.plug, Path.inorder_plug, List.mem_append, List.mem_append]
      exact .inl (.inr hhere)

theorem avlFix_root {m : AvlMem} {t : BinaryTree Ptr} {y : Ptr} (h : Rep m none t) (hnodup : t.inorder.Nodup)
    (hroot : t.root? = some y) :
    ∃ m' z, avlFix m y = .ok (m', z) ∧ t.balance.root? = some z ∧ Rebuilt m m' none t.inorder t.balance := by
  cases t with
  | nil => cases hroot
  | node x l r =>
    obtain rfl : x = y := by simpa using hroot
    obtain ⟨m', z, hrun, hz, hreb⟩ := avlFixAux_spec (p := []) h.top trivial hnodup (Mem.lt_next_of_read h.1 |>.pos)
    exact ⟨m', z, hrun, hz, hreb⟩

/-- The root of a tree does not depend on what stands at the end of a nonempty path. -/
theorem root?_plug_cons (f : Frame Ptr) (p : Path Ptr) (t t' : BinaryTree Ptr) :
    (Path.plug (f :: p) t).root? = (Path.plug (f :: p) t').root? := by
  induction p generalizing f t t' with
  | nil => simp [Path.plug]
  | cons g p ih => exact ih g (f.fill t) (f.fill t')

/-- The root that `avl_del` goes on with: the old one, or the node that took its place. -/
theorem nonNull_root {p : Path Ptr} {x v w : Ptr} {l r : BinaryTree Ptr}
    (hw : (Path.plug p (node v l r)).root? = some w) :
    AvlMem.nonNull (if (Path.parent p).isSome then (Path.plug p (node x l r)).root? else some v) = .ok w := by
  cases p with
  | nil =>
    obtain rfl : v = w := by simpa [Path.plug] using hw
    rfl
  | cons f p =>
    rw [if_pos (by rfl), root?_plug_cons f p _ (node v l r), hw]
    rfl

/-- Taking out a node with at most one child keeps the balance. -/
theorem balanced_splice_child {p : Path Ptr} {x : Ptr} {l r child : BinaryTree Ptr}
    (h : (Path.plug p (node x l r)).Balanced) (hchild : l = nil ∧ child = r ∨ r = nil ∧ child = l) :
    (Path.splice p child).Balanced := by
  obtain ⟨⟨hlr, hrl⟩, hl, hr⟩ := Path.balanced_plug h
  rcases hchild with ⟨rfl, rfl⟩ | ⟨rfl, rfl⟩
  · refine Path.balanced_splice h hr ⟨?_, ?_⟩ <;> simp only [BinaryTree.height] <;> omega
  · refine Path.balanced_splice h hl ⟨?_, ?_⟩ <;> simp only [BinaryTree.height] <;> omega

/-- A node with two children: the next node in order is taken out and put in its place. -/
theorem avlDel_two {m : AvlMem} {p : Path Ptr} {x y z : Ptr} {l a b a' b' : BinaryTree Ptr}
    (hl : l = node y a b) (h : Rep m none (Path.plug p (node x l (node z a' b'))))
    (hnodup : (Path.plug p (node x l (node z a' b'))).inorder.Nodup) :
    ∃ m' t', avlDel m x = .ok (m', t'.root?) ∧
      t'.inorder = (p.before ++ l.inorder) ++ ((node z a' b').inorder ++ p.after) ∧
      ((Path.plug p (node x l (node z a' b'))).Balanced → t'.Balanced) ∧
      Rebuilt m m' none (Path.plug p (node x l (node z a' b'))).inorder t' := by
  obtain ⟨-, hrep⟩ := h.split
  have hlen := (node z a' b').height_le_length.trans
    (Mem.length_le_next (nodup_node (nodup_of_plug hnodup)).2.1 hrep.2.2.live)
  obtain ⟨q, v, s, hleft, hplug, hbefore⟩ := leftmostAux_spec hrep.2.2 (show a'.height < m.next by
    rw [BinaryTree.height] at hlen
    omega)
  -- the tree as seen from the victim
  have hview : Path.plug p (node x l (node z a' b')) = Path.plug (q ++ .right x l :: p) (node v nil s) := by
    rw [Path.plug_append, ← hplug]
    rfl
  have hr : (node z a' b').inorder = v :: (s.inorder ++ q.after) := by
    rw [hplug, Path.inorder_plug, hbefore]
    simp
  have hin : (Path.plug p (node x l (node z a' b'))).inorder =
      (p.before ++ l.inorder) ++ x :: v :: (s.inorder ++ q.after ++ p.after) := by
    rw [Path.inorder_plug, inorder_node, hr]
    simp
  have hcut : Path.before (q ++ .right x l :: p) ++ s.inorder ++ Path.after (q ++ .right x l :: p) =
      (p.before ++ l.inorder) ++ x :: (s.inorder ++ q.after ++ p.after) := by
    rw [Path.before_append, Path.after_append, hbefore]
    simp [Path.before, Path.after, Frame.before, Frame.after]
  obtain ⟨m₁, hdel, hreb₁⟩ := delSimple_spec (hview ▸ h) (hview ▸ hnodup)
    (show nil = nil ∧ s = s ∨ s = nil ∧ s = nil from .inl ⟨rfl, rfl⟩)
  have hin₁ : (Path.splice (q ++ .right x l :: p) s).inorder =
      (p.before ++ l.inorder) ++ x :: (s.inorder ++ q.after ++ p.after) := by rw [Path.inorder_splice, hcut]
  have hperm : (Path.plug p (node x l (node z a' b'))).inorder.Perm
      (v :: (Path.splice (q ++ .right x l :: p) s).inorder) := by
    rw [hin, hin₁]
    exact ((List.Perm.swap v x _).append_left _).trans List.perm_middle
  have hnodup₁ := hperm.nodup_iff.mp hnodup
  have hv := (List.nodup_cons.mp hnodup₁).1
  have hframe₁ : ∀ w, w ∉ (Path.splice (q ++ .right x l :: p) s).inorder → m₁.read w = m.read w := fun w hw =>
    hreb₁.frame w (by rwa [Path.inorder_plug, hcut, ← hin₁])
  have hvlive : (m₁.read v).isSome := by
    rw [hframe₁ v hv]
    exact h.live v (hperm.mem_iff.mpr (by simp))
  -- the deleted node is somewhere in the rebalanced tree
  obtain ⟨p₁, l₁, r₁, ht₁⟩ := Path.exists_plug_of_mem (t := Path.splice (q ++ .right x l :: p) s) (x := x)
    (by simp [hin₁])
  rw [ht₁] at hv hnodup₁ hin₁ hframe₁ hperm hdel
  obtain ⟨m₂, htake, hreb₂⟩ := takePlace_spec (ht₁ ▸ hreb₁.rep) (List.nodup_cons.mp hnodup₁).2 hv hvlive
  have hin₂ : (Path.plug p₁ (node v l₁ r₁)).inorder =
      (p.before ++ l.inorder) ++ ((node z a' b').inorder ++ p.after) := by
    rw [Path.inorder_plug_replace (List.nodup_cons.mp hnodup₁).2 hin₁, hr]
    simp
  have hnodup₂ : (Path.plug p₁ (node v l₁ r₁)).inorder.Nodup := by
    rw [hin₂, hr]
    rw [hin] at hnodup
    exact hnodup.sublist (by simp)
  obtain ⟨w, hw⟩ := exists_root? (t := Path.plug p₁ (node v l₁ r₁)) (by simp [hin₂])
  obtain ⟨m₃, y₃, hfix, hroot₃, hreb₃⟩ := avlFix_root hreb₂.rep hnodup₂ hw
  have hbal : (Path.plug p (node x l (node z a' b'))).Balanced → (Path.plug p₁ (node v l₁ r₁)).balance.Balanced := by
    intro hb
    rw [hview] at hb
    have hsplice := ht₁ ▸ balanced_splice_child hb (.inl ⟨rfl, rfl⟩)
    have hx₁ : (node x l₁ r₁).Balanced := Path.balanced_plug hsplice
    have hv₁ := Path.balanced_plug_congr hsplice (show (node v l₁ r₁).Balanced from hx₁) rfl
    rwa [hv₁.balance_eq]
  refine ⟨m₃, _, ?_, (inorder_balance _).trans hin₂, hbal, hreb₃.rep, fun u hu => ?_, ?_⟩
  · subst hl
    rw [avlDel, node_ok hrep.1]
    simp only [bind, Except.bind, root?_node, hleft, hdel, htake, nonNull_root hw, hfix, hroot₃]
  · have hu₁ : u ∉ v :: (Path.plug p₁ (node x l₁ r₁)).inorder := fun hin => hu (hperm.mem_iff.mpr hin)
    have hu₂ : u ∉ (Path.plug p₁ (node v l₁ r₁)).inorder := fun hmem => hu (by
      rw [hin₂] at hmem
      rw [Path.inorder_plug, inorder_node]
      simp only [List.mem_append, List.mem_cons] at hmem ⊢
      tauto)
    rw [hreb₃.frame u hu₂, hreb₂.frame u hu₁, hframe₁ u fun hin => hu₁ (List.mem_cons_of_mem _ hin)]
  · rw [hreb₃.next, hreb₂.next, hreb₁.next]

/-- `avl_del` takes the node out of the sequence and leaves a tree of the others. -/
theorem avlDel_spec {m : AvlMem} {t : BinaryTree Ptr} {x : Ptr} (h : Rep m none t) (hnodup : t.inorder.Nodup)
    (hx : x ∈ t.inorder) :
    ∃ m' t', avlDel m x = .ok (m', t'.root?) ∧ t'.inorder = t.inorder.erase x ∧ (t.Balanced → t'.Balanced) ∧
      Rebuilt m m' none t.inorder t' := by
  obtain ⟨p, l, r, rfl⟩ := Path.exists_plug_of_mem hx
  obtain ⟨-, hrep⟩ := h.split
  have hsplit : (Path.plug p (node x l r)).inorder = (p.before ++ l.inorder) ++ x :: (r.inorder ++ p.after) := by
    simp [Path.inorder_plug]
  have herase : (Path.plug p (node x l r)).inorder.erase x = (p.before ++ l.inorder) ++ (r.inorder ++ p.after) := by
    have hxnot : x ∉ p.before ++ l.inorder := fun hin =>
      (List.nodup_append.mp (hsplit ▸ hnodup)).2.2 x hin x (by simp) rfl
    rw [hsplit, List.erase_append_right _ hxnot, List.erase_cons_head]
  rw [herase]
  cases l with
  | nil =>
    obtain ⟨m', hrun, hreb⟩ := delSimple_spec h hnodup (.inl ⟨rfl, rfl⟩)
    refine ⟨m', _, by rw [avlDel, node_ok hrep.1]; exact hrun, ?_, fun hb => balanced_splice_child hb (.inl ⟨rfl, rfl⟩),
      hreb.rep, fun q hq => hreb.frame q fun hin => hq ?_, hreb.next⟩
    · simp [Path.inorder_splice]
    · rw [Path.inorder_plug] at hin ⊢
      simp only [List.mem_append, inorder_node, List.mem_cons] at hin ⊢
      tauto
  | node y a b =>
    cases r with
    | nil =>
      obtain ⟨m', hrun, hreb⟩ := delSimple_spec h hnodup (.inr ⟨rfl, rfl⟩)
      refine ⟨m', _, by rw [avlDel, node_ok hrep.1]; exact hrun, ?_, fun hb => balanced_splice_child hb (.inr ⟨rfl, rfl⟩),
        hreb.rep, fun q hq => hreb.frame q fun hin => hq ?_, hreb.next⟩
      · simp [Path.inorder_splice]
      · rw [Path.inorder_plug] at hin ⊢
        simp only [List.mem_append, inorder_node, List.mem_cons] at hin ⊢
        tauto
    | node y' a' b' =>
      exact avlDel_two rfl h hnodup

end CustomRedis
