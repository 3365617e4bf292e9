import CustomRedis.Proof.Zset

/-!
# The lower bound of a pair

`zset_lower_bound` keeps the last node at which it went left. That this is the first node not below the
pair rests on `zless` going one way along the sequence of the tree, which for equal scores is the
order of the members as byte strings.
-/

namespace CustomRedis

open BinaryTree

/-! ### The order of the pairs -/

theorem ZNode.Before.irrefl (a : ZNode) : ¬a.Before a := by
  rintro (hlt | ⟨-, hlt⟩)
  · exact lt_irrefl _ hlt
  · exact List.lt_irrefl _ hlt

theorem ZNode.before_trichotomy (a b : ZNode) :
    a.Before b ∨ (a.score.ord = b.score.ord ∧ a.key = b.key) ∨ b.Before a := by
  by_cases hkey : a.key = b.key
  · rcases lt_trichotomy a.score.ord b.score.ord with hlt | heq | hgt
    · exact .inl (.inl hlt)
    · exact .inr (.inl ⟨heq, hkey⟩)
    · exact .inr (.inr (.inl hgt))
  · rcases before_or_before hkey with hab | hba
    · exact .inl hab
    · exact .inr (.inr hba)

/-- `zless` of two nodes. -/
def ZNode.less (a b : ZNode) : Bool := zless a b.score b.key

theorem ZNode.less_iff {a b : ZNode} (ha : a.score.isNaN = false) (hb : b.score.isNaN = false) :
    a.less b = true ↔ a.Before b :=
  zless_iff b.hcode ha hb

theorem Double.ne_eq_false {a b : Double} (ha : a.isNaN = false) (hb : b.isNaN = false) :
    a.ne b = false ↔ a.ord = b.ord := by
  simp [Double.ne, ha, hb]

theorem Double.lt_iff {a b : Double} (ha : a.isNaN = false) (hb : b.isNaN = false) :
    a.lt b = true ↔ a.ord < b.ord := by
  simp [Double.lt, ha, hb]

/-- A score that is not a number has no node below it. -/
theorem zless_of_isNaN {n : ZNode} {score : Double} (key : Bytes) (h : score.isNaN = true) :
    zless n score key = false := by
  have hne : score.ne n.score = true := by simp [Double.ne, h]
  rw [zless, if_pos hne]
  simp [Double.lt, h]

/-- Along an increasing sequence the nodes below a pair come first. -/
theorem zless_mono {a b : ZNode} (ha : a.score.isNaN = false) (hb : b.score.isNaN = false) (hab : a.Before b)
    (score : Double) (key : Bytes) (hless : zless b score key = true) : zless a score key = true := by
  cases hscore : score.isNaN with
  | true =>
    rw [zless_of_isNaN key hscore] at hless
    cases hless
  | false =>
    rw [zless_iff 0 hb hscore] at hless
    rw [zless_iff 0 ha hscore]
    exact hab.trans hless

/-! ### The descent -/

/-- The memory holds the shape of the tree: the child pointers. -/
def Shape (m : AvlMem) : BinaryTree Ptr → Prop
  | nil => True
  | node x l r => (∃ c, m.read x = some c ∧ c.left = l.root? ∧ c.right = r.root?) ∧ Shape m l ∧ Shape m r

theorem Rep.shape {m : AvlMem} {par : Option Ptr} {t : BinaryTree Ptr} (h : Rep m par t) : Shape m t := by
  induction t generalizing par with
  | nil => trivial
  | node x l r hl hr => exact ⟨⟨_, h.1, rfl, rfl⟩, hl h.2.1, hr h.2.2⟩

/-- A sorted set as a sequence of nodes with their addresses, in strictly increasing order. -/
structure ZSet.Increasing (z : ZSet) (es : List (Ptr × ZNode)) : Prop where
  tree : ∃ t : BinaryTree Ptr, z.avlRoot = t.root? ∧ Shape z.tree t ∧ t.inorder = es.map Prod.fst
  data : ∀ e ∈ es, z.data.read e.1 = some e.2
  notNaN : ∀ e ∈ es, e.2.score.isNaN = false
  sorted : es.Pairwise fun a b => a.2.less b.2

theorem Shape.live {m : AvlMem} {t : BinaryTree Ptr} (h : Shape m t) : ∀ q ∈ t.inorder, (m.read q).isSome := by
  induction t with
  | nil => simp
  | node x l r hl hr =>
    intro q hq
    obtain ⟨⟨c, hc, -, -⟩, hl', hr'⟩ := h
    rw [inorder_node, List.mem_append, List.mem_cons] at hq
    rcases hq with hq | rfl | hq
    · exact hl hl' q hq
    · simp [hc]
    · exact hr hr' q hq

theorem ZSet.Stored.increasing {z : ZSet} {es : List (Ptr × ZNode)} (h : z.Stored es) : z.Increasing es where
  tree := by
    obtain ⟨t, hroot, hrep, hin⟩ := h.tree
    exact ⟨t, hroot, hrep.shape, hin⟩
  data := h.data
  notNaN e he := (h.stored e he).notNaN
  sorted := h.sorted.imp_of_mem fun ha hb hab => (ZNode.less_iff (h.stored _ ha).notNaN (h.stored _ hb).notNaN).mpr hab

theorem ZSet.Increasing.before {z : ZSet} {es : List (Ptr × ZNode)} (h : z.Increasing es) :
    es.Pairwise fun a b => a.2.Before b.2 :=
  h.sorted.imp_of_mem fun ha hb hab => (ZNode.less_iff (h.notNaN _ ha) (h.notNaN _ hb)).mp hab

/-- An address has one node behind it, and no node is below itself. -/
theorem ZSet.Increasing.nodup {z : ZSet} {es : List (Ptr × ZNode)} (h : z.Increasing es) :
    (es.map Prod.fst).Nodup := by
  rw [List.Nodup, List.pairwise_map]
  refine h.before.imp_of_mem ?_
  intro a b ha hb hab hfst
  have hread := h.data a ha
  rw [hfst, h.data b hb] at hread
  obtain heq : b.2 = a.2 := by simpa using hread
  exact ZNode.Before.irrefl a.2 (heq ▸ hab)

theorem zsetLowerBoundAux_spec {z : ZSet} {g : Ptr → Bool} {score : Double} {key : Bytes} {t : BinaryTree Ptr}
    (hshape : Shape z.tree t) (hdata : ∀ q ∈ t.inorder, ∃ n, z.data.read q = some n ∧ g q = zless n score key)
    {fuel : Nat} (hfuel : t.height ≤ fuel) (lb : Option Ptr) :
    zsetLowerBoundAux fuel z lb t.root? score key = .ok (firstNot g t lb) := by
  induction t generalizing fuel lb with
  | nil => cases fuel <;> rfl
  | node x l r hl hr =>
    rw [BinaryTree.height] at hfuel
    obtain ⟨fuel, rfl⟩ : ∃ n, fuel = n + 1 := ⟨fuel - 1, by omega⟩
    obtain ⟨n, hn, hg⟩ := hdata x (by simp)
    obtain ⟨⟨c, hc, hleft, hright⟩, hshapel, hshaper⟩ := hshape
    rw [root?_node, zsetLowerBoundAux, ZSet.znode, hn, node_ok hc, firstNot, hg]
    simp only [bind, Except.bind, hleft, hright]
    by_cases hless : zless n score key = true
    · rw [if_pos hless, if_pos hless]
      exact hr hshaper (fun q hq => hdata q (by simp [hq])) (by omega) lb
    · rw [if_neg hless, if_neg hless]
      exact hl hshapel (fun q hq => hdata q (by simp [hq])) (by omega) (some x)

theorem zsetLowerBound_eq {z : ZSet} {es : List (Ptr × ZNode)} (h : z.Increasing es) (score : Double) (key : Bytes) :
    zsetLowerBound z score key = .ok ((es.find? fun e => !zless e.2 score key).map Prod.fst) := by
  obtain ⟨t, hroot, hshape, hin⟩ := h.tree
  obtain ⟨g, hg⟩ : ∃ g : Ptr → Bool, ∀ e ∈ es, g e.1 = zless e.2 score key :=
    ⟨fun q => ((z.data.read q).map fun n => zless n score key).getD false, fun e he => by simp [h.data e he]⟩
  have hmono : t.inorder.Pairwise fun a b => g b → g a := by
    rw [hin, List.pairwise_map]
    refine h.before.imp_of_mem ?_
    intro a b ha hb hab
    rw [hg a ha, hg b hb]
    exact zless_mono (h.notNaN a ha) (h.notNaN b hb) hab score key
  have hread : ∀ q ∈ t.inorder, ∃ n, z.data.read q = some n ∧ g q = zless n score key := by
    intro q hq
    obtain ⟨e, he, rfl⟩ := List.mem_map.mp (hin ▸ hq)
    exact ⟨e.2, h.data e he, hg e he⟩
  have hfuel : t.height ≤ z.tree.next :=
    t.height_le_length.trans (Mem.length_le_next (hin ▸ h.nodup) hshape.live)
  have hfind : t.inorder.find? (fun q => !g q) = (es.find? fun e => !zless e.2 score key).map Prod.fst := by
    rw [hin]
    exact find_map_of_forall fun e he => by rw [hg e he]
  rw [zsetLowerBound, hroot, zsetLowerBoundAux_spec hshape hread hfuel none, firstNot_eq hmono, hfind, Option.or_none]

/-- The result is the first node that is not below the pair, and `zless` is the order of the pairs: by
score, at equal scores by the bytes of the member, a proper beginning first. -/
theorem zsetLowerBound_first {z : ZSet} {es : List (Ptr × ZNode)} (h : z.Increasing es) (score : Double)
    (key : Bytes) :
    (∃ lb, zsetLowerBound z score key = .ok lb ∧ (lb = none ↔ ∀ e ∈ es, zless e.2 score key = true) ∧
      ∀ p, lb = some p ↔ ∃ es₁ n es₂, es = es₁ ++ (p, n) :: es₂ ∧ zless n score key = false ∧
        ∀ e ∈ es₁, zless e.2 score key = true) ∧
    (∀ a b c : ZNode, a.score.isNaN = false → b.score.isNaN = false → c.score.isNaN = false →
      a.less a = false ∧ (a.less b = true → b.less c = true → a.less c = true) ∧
      (a.less b = true ∨ (a.score.ne b.score = false ∧ a.key = b.key) ∨ b.less a = true)) ∧
    (∀ a b : ZNode, a.score.isNaN = false → b.score.isNaN = false →
      (a.less b = true ↔ a.score.lt b.score = true ∨ (a.score.ne b.score = false ∧ a.key < b.key))) ∧
    (∀ (k : Bytes) (x : UInt8) (t : Bytes), k < k ++ x :: t) ∧
    ∀ (k : Bytes) (x y : UInt8) (s t : Bytes), x.toNat < y.toNat → k ++ x :: s < k ++ y :: t := by
  refine ⟨⟨_, zsetLowerBound_eq h score key, ?_, ?_⟩, ?_, ?_, ?_, ?_⟩
  · simp
  · intro p
    rw [Option.map_eq_some_iff]
    constructor
    · rintro ⟨⟨q, n⟩, hfind, rfl⟩
      obtain ⟨hn, es₁, es₂, hes, hbelow⟩ := List.find?_eq_some_iff_append.mp hfind
      exact ⟨es₁, n, es₂, hes, by simpa using hn, fun e he => by simpa using hbelow e he⟩
    · rintro ⟨es₁, n, es₂, hes, hn, hbelow⟩
      exact ⟨(p, n), List.find?_eq_some_iff_append.mpr ⟨by simpa using hn, es₁, es₂, hes,
        fun e he => by simpa using hbelow e he⟩, rfl⟩
  · intro a b c ha hb hc
    rw [Double.ne_eq_false ha hb, Bool.eq_false_iff, Ne, ZNode.less_iff ha ha, ZNode.less_iff ha hb, ZNode.less_iff hb hc,
      ZNode.less_iff ha hc, ZNode.less_iff hb ha]
    exact ⟨ZNode.Before.irrefl a, ZNode.Before.trans, ZNode.before_trichotomy a b⟩
  · intro a b ha hb
    rw [ZNode.less_iff ha hb, Double.lt_iff ha hb, Double.ne_eq_false ha hb]
    rfl
  · intro k x t
    induction k with
    | nil => exact List.nil_lt_cons x t
    | cons c k ih => exact List.cons_lt_cons_iff.mpr (.inr ⟨rfl, ih⟩)
  · intro k x y s t hxy
    induction k with
    | nil => exact List.cons_lt_cons_iff.mpr (.inl (UInt8.lt_iff_toNat_lt.mpr hxy))
    | cons c k ih => exact List.cons_lt_cons_iff.mpr (.inr ⟨rfl, ih⟩)

/-- Members `a` and `b` with score zero: the first one that is not below `aa` is `b`. -/
theorem zsetLowerBound_first_two :
    let z : ZSet := { avlRoot := some 0
                      tree := ⟨[some ⟨none, none, some 1, 2, 2⟩, some ⟨some 0, none, none, 1, 1⟩]⟩
                      data := ⟨[some ⟨⟨0⟩, [97], 0⟩, some ⟨⟨0⟩, [98], 0⟩]⟩ }
    zsetLowerBound z ⟨0⟩ [97, 97] = .ok (some 1) := by
  intro z
  have hinc : z.Increasing [(0, ⟨⟨0⟩, [97], 0⟩), (1, ⟨⟨0⟩, [98], 0⟩)] :=
    ⟨⟨node 0 nil (node 1 nil nil), rfl, ⟨⟨_, rfl, rfl, rfl⟩, trivial, ⟨_, rfl, rfl, rfl⟩, trivial, trivial⟩, rfl⟩,
      by decide, by decide, by decide⟩
  obtain ⟨⟨lb, hrun, -, hsome⟩, -⟩ := zsetLowerBound_first hinc ⟨0⟩ [97, 97]
  rw [hrun, (hsome 1).mpr ⟨[(0, ⟨⟨0⟩, [97], 0⟩)], ⟨⟨0⟩, [98], 0⟩, [], rfl, by decide, by decide⟩]

end CustomRedis
