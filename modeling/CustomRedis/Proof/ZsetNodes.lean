import CustomRedis.Proof.AvlBalance
import CustomRedis.Proof.RangeQuery
import CustomRedis.Proof.ZsetRuns

/-!
# The nodes of a sorted set

What a run of inserts and removals does to the tree as a whole. It stays balanced, so the walks of `zset.cpp` are
short. And the live blocks are the nodes of the tree, so freeing the tree frees every node, each of them once.
-/

namespace CustomRedis

open BinaryTree Run

/-- An operation on a member that fits, with a score that is a number. -/
def ZOp.Ordered (op : ZOp) : Prop :=
  2 * op.member.length ≤ maxStrSize ∧ ∀ score member, op = .insert score member → score.isNaN = false

/-- The tree is balanced, and its nodes are all there is. -/
structure ZSet.Kept (z : ZSet) (es : List (Ptr × ZNode)) : Prop where
  balanced : ∀ t : BinaryTree Ptr, z.avlRoot = t.root? → Rep z.tree none t → t.Balanced
  tree : ∀ p, (z.tree.read p).isSome → p ∈ es.map Prod.fst
  data : ∀ p, (z.data.read p).isSome → p ∈ es.map Prod.fst

theorem Mem.read_empty {β : Type} (p : Ptr) : ({} : Mem β).read p = none := by simp [Mem.read]

theorem ZSet.Kept.empty : ({} : ZSet).Kept [] where
  balanced t hroot _ := by
    rw [root?_eq_none.mp hroot.symm]
    trivial
  tree p hp := by simp [Mem.read_empty] at hp
  data p hp := by simp [Mem.read_empty] at hp

/-- The pointers determine the tree. -/
theorem Rep.unique {m : AvlMem} {par par' : Option Ptr} {t t' : BinaryTree Ptr} (h : Rep m par t) (h' : Rep m par' t')
    (hroot : t.root? = t'.root?) : t = t' := by
  induction t generalizing par par' t' with
  | nil => exact (root?_eq_none.mp hroot.symm).symm
  | node x l r hl hr =>
    cases t' with
    | nil => cases hroot
    | node y l' r' =>
      obtain rfl : x = y := by simpa using hroot
      have hcell := Option.some.inj (h.1.symm.trans h'.1)
      rw [AVLNode.mk.injEq] at hcell
      rw [hl h.2.1 h'.2.1 hcell.2.1, hr h.2.2 h'.2.2 hcell.2.2.1]

theorem Rep.of_free {m : AvlMem} {x : Ptr} {par : Option Ptr} {t : BinaryTree Ptr} (h : Rep (m.free x) par t) :
    Rep m par t := by
  apply h.congr
  intro q hq
  have hne : q ≠ x := by
    rintro rfl
    have hlive := h.live q hq
    rw [Mem.read_free_self] at hlive
    cases hlive
  exact (Mem.read_free_ne hne).symm

/-! ### One operation -/

theorem zsetDelete_inv {z z' : ZSet} {p : Ptr} (hrun : zsetDelete z p = .ok z') :
    ∃ tree root, avlDel z.tree p = .ok (tree, root) ∧ z'.avlRoot = root ∧ z'.tree = tree.free p ∧
      z'.data = z.data.free p := by
  obtain ⟨n, -, hrun⟩ := ok_of_bind hrun
  obtain ⟨tmp, -, hrun⟩ := ok_of_bind hrun
  obtain ⟨⟨tree, root⟩, hdel, hrun⟩ := ok_of_bind hrun
  obtain ⟨⟨hmap, deleted, jobs⟩, -, hrun⟩ := ok_of_bind hrun
  cases hrun
  exact ⟨tree, root, hdel, rfl, rfl, rfl⟩

theorem zsetDelete_kept {z : ZSet} {es : List (Ptr × ZNode)} (h : z.Stored es) (hk : z.Kept es) {e : Ptr × ZNode}
    (he : e ∈ es) :
    ∃ z', zsetDelete z e.1 = .ok z' ∧ z'.Stored (es.filter fun x => x.1 ≠ e.1) ∧
      z'.Kept (es.filter fun x => x.1 ≠ e.1) := by
  obtain ⟨z', hrun, hstored⟩ := zsetDelete_stored h he
  obtain ⟨t, hroot, hrep, hin⟩ := h.tree
  obtain ⟨m', t', hdel, hin', hbal, hreb⟩ := avlDel_spec hrep (hin ▸ h.nodup) (x := e.1)
    (by rw [hin]; exact List.mem_map_of_mem he)
  obtain ⟨tree, root, hdel', hroot', htree, hdata⟩ := zsetDelete_inv hrun
  obtain ⟨rfl, rfl⟩ : tree = m' ∧ root = t'.root? := by simpa [hdel] using hdel'.symm
  have hleft : ∀ p, p ∈ es.map Prod.fst → p ≠ e.1 → p ∈ (es.filter fun x => x.1 ≠ e.1).map Prod.fst := by
    intro p hp hne
    obtain ⟨x, hx, rfl⟩ := List.mem_map.mp hp
    exact List.mem_map_of_mem (List.mem_filter.mpr ⟨hx, by simpa using hne⟩)
  refine ⟨z', hrun, hstored, fun t₂ hroot₂ hrep₂ => ?_, fun p hp => ?_, fun p hp => ?_⟩
  · rw [htree] at hrep₂
    rw [← hreb.rep.unique hrep₂.of_free (hroot'.symm.trans hroot₂)]
    exact hbal (hk.balanced t hroot hrep)
  · have hne : p ≠ e.1 := by
      rintro rfl
      simp [htree, Mem.read_free_self] at hp
    rw [htree, Mem.read_free_ne hne] at hp
    apply hleft p _ hne
    by_cases hmem : p ∈ t.inorder
    · rwa [← hin]
    · rw [hreb.frame p hmem] at hp
      exact hk.tree p hp
  · have hne : p ≠ e.1 := by
      rintro rfl
      simp [hdata, Mem.read_free_self] at hp
    rw [hdata, Mem.read_free_ne hne] at hp
    exact hleft p (hk.data p hp) hne

/-- The walk to the link of a new node ends at a path of the tree. -/
theorem insertLink_path {z : ZSet} {es : List (Ptr × ZNode)} {t : BinaryTree Ptr} (hroot : z.avlRoot = t.root?)
    (hrep : Rep z.tree none t) (hin : t.inorder = es.map Prod.fst) (hdata : ∀ e ∈ es, z.data.read e.1 = some e.2)
    (score : Double) (key : Bytes) :
    ∃ p, Path.plug p nil = t ∧
      ∀ fuel, t.height ≤ fuel → insertLink fuel z none z.avlRoot score key = .ok (linkOf p) := by
  obtain ⟨g, hg⟩ : ∃ g : Ptr → Bool, ∀ e ∈ es, g e.1 = zless e.2 score key :=
    ⟨fun q => ((z.data.read q).map fun n => zless n score key).getD false, fun e he => by simp [hdata e he]⟩
  refine ⟨Path.descend g t [], Path.plug_descend g t [], fun fuel hfuel => ?_⟩
  have hread : ∀ q ∈ t.inorder, ∃ n, z.data.read q = some n ∧ g q = zless n score key := by
    intro q hq
    obtain ⟨e, he, rfl⟩ := List.mem_map.mp (hin ▸ hq)
    exact ⟨e.2, hdata e he, hg e he⟩
  rw [hroot]
  exact insertLink_spec hrep hread hfuel []

theorem zsetAdd_inv {z z' : ZSet} {score : Double} {key : Bytes} (hrun : zsetAdd z score key = .ok z') :
    ∃ new link tree₁ tree₂ tree₃ root,
      insertLink (z.tree.next + 1) { z with tree := z.tree.alloc avlInit, data := z.data.alloc new } none z.avlRoot score
        key = .ok link ∧
      attach (z.tree.alloc avlInit) link z.tree.next = .ok tree₁ ∧
      tree₁.modify z.tree.next (fun c => { c with parent := link.map Prod.fst }) = .ok tree₂ ∧
      avlFix tree₂ z.tree.next = .ok (tree₃, root) ∧ z'.avlRoot = some root ∧ z'.tree = tree₃ ∧
      z'.data = z.data.alloc new := by
  obtain ⟨nodeKey, -, hrun⟩ := ok_of_bind hrun
  obtain ⟨znodeKey, -, hrun⟩ := ok_of_bind hrun
  obtain ⟨⟨hmap, jobs⟩, -, hrun⟩ := ok_of_bind hrun
  obtain ⟨link, hlink, hrun⟩ := ok_of_bind hrun
  obtain ⟨tree₁, hattach, hrun⟩ := ok_of_bind hrun
  obtain ⟨tree₂, hparent, hrun⟩ := ok_of_bind hrun
  obtain ⟨⟨tree₃, root⟩, hfix, hrun⟩ := ok_of_bind hrun
  cases hrun
  rw [Mem.next_alloc] at hlink
  exact ⟨_, link, tree₁, tree₂, tree₃, root, hlink, hattach, hparent, hfix, rfl, rfl, rfl⟩

theorem zsetAdd_kept {z : ZSet} {es : List (Ptr × ZNode)} (h : z.Stored es) (hk : z.Kept es) {score : Double}
    {key : Bytes} (hkey : 2 * key.length ≤ maxStrSize) (hscore : score.isNaN = false)
    (hnew : ∀ e ∈ es, keyId e.2.key ≠ keyId key) :
    ∃ z' es', zsetAdd z score key = .ok z' ∧ z'.Stored es' ∧ z'.Kept es' := by
  obtain ⟨z', es₁, es₂, hrun, rfl, hstored⟩ := zsetAdd_stored h hkey hscore hnew
  obtain ⟨t, hroot, hrep, hin⟩ := h.tree
  obtain ⟨new, link, tree₁, tree₂, tree₃, root, hlink, hattach, hparent, hfix, hroot', htree', hdata'⟩ :=
    zsetAdd_inv hrun
  have hlive : ∀ q ∈ t.inorder, q < z.tree.next := fun q hq => by
    obtain ⟨c, hc⟩ := Option.isSome_iff_exists.mp (hrep.live q hq)
    exact Mem.lt_next_of_read hc
  have hxt : z.tree.next ∉ t.inorder := fun hmem => Nat.lt_irrefl _ (hlive _ hmem)
  have hrep₁ : Rep (z.tree.alloc avlInit) none t := hrep.congr fun q hq => Mem.read_alloc_of_lt (hlive q hq) _
  have hheight : t.height ≤ z.tree.next + 1 :=
    (t.height_le_length.trans (Mem.length_le_next (hin ▸ h.nodup) hrep.live)).trans (Nat.le_succ _)
  obtain ⟨p, hplug, hpath⟩ := insertLink_path
    (z := { z with tree := z.tree.alloc avlInit, data := z.data.alloc new }) hroot hrep₁ hin
    (fun e he => by rw [Mem.read_alloc_of_lt (Mem.lt_next_of_read (h.data e he)), h.data e he]) score key
  obtain rfl : link = linkOf p := Except.ok.inj (hlink.symm.trans (hpath _ hheight))
  have hpin : p.before ++ p.after = t.inorder := by rw [← hplug, Path.inorder_plug]; simp
  obtain ⟨m', m₁, m₂, y, t', hattach', hparent', hfix', hy, hrep', hin', hbal, -, hframe⟩ :=
    treeAdd_spec (p := p) (x := z.tree.next) (hplug ▸ hrep₁) (hplug ▸ hin ▸ h.nodup) (Mem.read_alloc_self _ _)
      (hplug ▸ hxt)
  -- both runs of the insertion are the same one
  obtain rfl : m₁ = tree₁ := Except.ok.inj (hattach'.symm.trans hattach)
  rw [linkOf_fst] at hparent
  obtain rfl : m₂ = tree₂ := Except.ok.inj (hparent'.symm.trans hparent)
  obtain ⟨rfl, rfl⟩ : m' = tree₃ ∧ y = root := by simpa [hfix] using hfix'.symm
  have hmem : ∀ q, q = z.tree.next ∨ q ∈ (es₁ ++ es₂).map Prod.fst →
      q ∈ (es₁ ++ (z.tree.next, (⟨score, key, strHash key⟩ : ZNode)) :: es₂).map Prod.fst := by
    intro q hq
    simp only [List.map_append, List.map_cons, List.mem_append, List.mem_cons] at hq ⊢
    tauto
  refine ⟨z', _, hrun, hstored, fun t₂ hroot₂ hrep₂ => ?_, fun q hq => hmem q ?_, fun q hq => hmem q ?_⟩
  · rw [htree'] at hrep₂
    rw [← hrep'.unique hrep₂ (hy.trans (hroot'.symm.trans hroot₂))]
    exact hbal (hplug ▸ hk.balanced t hroot hrep)
  · by_cases hold : q ∈ z.tree.next :: (p.before ++ p.after)
    · rwa [hpin, List.mem_cons, hin] at hold
    · rw [htree', hframe q hold, Mem.isSome_read_alloc] at hq
      exact hq.imp_right (hk.tree q)
  · rw [hdata', Mem.isSome_read_alloc, h.next] at hq
    exact hq.imp_right (hk.data q)

theorem zsetStep_kept {z : ZSet} {es : List (Ptr × ZNode)} (h : z.Stored es) (hk : z.Kept es) {op : ZOp}
    (hop : op.Ordered) : ∃ z' es', zsetStep z op = .ok z' ∧ z'.Stored es' ∧ z'.Kept es' := by
  obtain ⟨hshort, hscore⟩ := hop
  cases op with
  | insert score member =>
    rw [ZOp.member] at hshort
    rw [zsetStep, zsetInsert, zsetLookup_stored h hshort]
    cases hfind : es.find? fun e => keyId e.2.key = keyId member with
    | none =>
      obtain ⟨z', es', hrun, hstored', hkept'⟩ :=
        zsetAdd_kept h hk hshort (hscore score member rfl) (by simpa using hfind)
      refine ⟨z', es', ?_, hstored', hkept'⟩
      simp only [bind, Except.bind, Option.map_none, hrun]
    | some e =>
      have he := List.mem_of_find?_eq_some hfind
      have hek : keyId e.2.key = keyId member := by simpa using List.find?_some hfind
      obtain ⟨z₁, hdel, hstored₁, hkept₁⟩ := zsetDelete_kept h hk he
      have hfst : (es.filter fun x => x.1 ≠ e.1) = es.filter fun x => keyId x.2.key ≠ keyId member := by
        rw [h.filter_fst_ne he, hek]
      rw [hfst] at hstored₁ hkept₁
      obtain ⟨z', es', hrun, hstored', hkept'⟩ :=
        zsetAdd_kept hstored₁ hkept₁ hshort (hscore score member rfl) (by simp)
      refine ⟨z', es', ?_, hstored', hkept'⟩
      simp only [bind, Except.bind, Option.map_some, hdel, hrun]
  | delete member =>
    rw [ZOp.member] at hshort
    rw [zsetStep, zsetLookup_stored h hshort]
    cases hfind : es.find? fun e => keyId e.2.key = keyId member with
    | none => exact ⟨z, es, rfl, h, hk⟩
    | some e =>
      obtain ⟨z', hrun, hstored', hkept'⟩ := zsetDelete_kept h hk (List.mem_of_find?_eq_some hfind)
      exact ⟨z', _, hrun, hstored', hkept'⟩

/-! ### Freeing the tree -/

/-- The blocks of `ids` are freed, and nothing else changes. -/
structure Freed (z z' : ZSet) (ids : List Ptr) : Prop where
  tree : ∀ q, z'.tree.read q = if q ∈ ids then none else z.tree.read q
  data : ∀ q, z'.data.read q = if q ∈ ids then none else z.data.read q
  nextTree : z'.tree.next = z.tree.next
  nextData : z'.data.next = z.data.next
  hmap : z'.hmap = z.hmap

theorem Mem.read_free {β : Type} (m : Mem β) (p q : Ptr) : (m.free p).read q = if q = p then none else m.read q := by
  by_cases hq : q = p
  · rw [if_pos hq, hq, Mem.read_free_self]
  · rw [if_neg hq, Mem.read_free_ne hq]

theorem delAvlTree_spec {z : ZSet} {par : Option Ptr} {t : BinaryTree Ptr} (hrep : Rep z.tree par t)
    (hnodup : t.inorder.Nodup) (hdata : ∀ q ∈ t.inorder, (z.data.read q).isSome) {fuel : Nat}
    (hfuel : t.height ≤ fuel) : ∃ z', delAvlTree fuel z t.root? = .ok z' ∧ Freed z z' t.inorder := by
  induction t generalizing z par fuel with
  | nil =>
    refine ⟨z, by cases fuel <;> rfl, ?_, ?_, rfl, rfl, rfl⟩
    · simp
    · simp
  | node x l r hl hr =>
    rw [BinaryTree.height] at hfuel
    obtain ⟨fuel, rfl⟩ : ∃ n, fuel = n + 1 := ⟨fuel - 1, by omega⟩
    obtain ⟨hnl, hnr, hxl, hxr, hdis⟩ := nodup_node hnodup
    obtain ⟨z₁, hrun₁, hfreed₁⟩ := hl hrep.2.1 hnl (fun q hq => hdata q (by simp [hq])) (show l.height ≤ fuel by omega)
    have hx₁ : z₁.tree.read x = z.tree.read x := by rw [hfreed₁.tree, if_neg hxl]
    have hrep₁ : Rep z₁.tree (some x) r := hrep.2.2.congr fun q hq => by
      rw [hfreed₁.tree, if_neg fun hql => hdis q hql hq]
    have hdata₁ : ∀ q ∈ r.inorder, (z₁.data.read q).isSome := fun q hq => by
      rw [hfreed₁.data, if_neg fun hql => hdis q hql hq]
      exact hdata q (by simp [hq])
    obtain ⟨z₂, hrun₂, hfreed₂⟩ := hr hrep₁ hnr hdata₁ (show r.height ≤ fuel by omega)
    have hx₂ : z₂.tree.read x = z.tree.read x := by rw [hfreed₂.tree, if_neg hxr, hx₁]
    have hd₂ : z₂.data.read x = z.data.read x := by rw [hfreed₂.data, if_neg hxr, hfreed₁.data, if_neg hxl]
    obtain ⟨n, hn⟩ := Option.isSome_iff_exists.mp (hdata x (by simp))
    refine ⟨{ z₂ with tree := z₂.tree.free x, data := z₂.data.free x }, ?_, ?_⟩
    · rw [root?_node, delAvlTree]
      simp only [bind, Except.bind, node_ok hrep.1, hrun₁, node_ok (hx₁.trans hrep.1), hrun₂, node_ok (hx₂.trans hrep.1),
        ZSet.znode, hd₂, hn]
    · refine ⟨fun q => ?_, fun q => ?_, ?_, ?_, hfreed₂.hmap.trans hfreed₁.hmap⟩
      · rw [Mem.read_free, hfreed₂.tree, hfreed₁.tree]
        simp only [inorder_node, List.mem_append, List.mem_cons]
        split_ifs <;> tauto
      · rw [Mem.read_free, hfreed₂.data, hfreed₁.data]
        simp only [inorder_node, List.mem_append, List.mem_cons]
        split_ifs <;> tauto
      · rw [Mem.next_free, hfreed₂.nextTree, hfreed₁.nextTree]
      · rw [Mem.next_free, hfreed₂.nextData, hfreed₁.nextData]

/-- No block of a node is left. -/
def ZSet.NoNodes (z : ZSet) : Prop :=
  z.avlRoot = none ∧ z.hmap = {} ∧ (∀ p, z.tree.read p = none) ∧ ∀ p, z.data.read p = none

theorem zsetClearNodes_spec {z : ZSet} {es : List (Ptr × ZNode)} (h : z.Stored es) (hk : z.Kept es) :
    ∃ z', zsetClearNodes z = .ok z' ∧ z'.NoNodes ∧ z'.Stored [] ∧ z'.Kept [] := by
  obtain ⟨t, hroot, hrep, hin⟩ := h.tree
  have hnodup : t.inorder.Nodup := hin ▸ h.nodup
  have hdata : ∀ q ∈ t.inorder, (z.data.read q).isSome := by
    intro q hq
    obtain ⟨e, he, rfl⟩ := List.mem_map.mp (hin ▸ hq)
    rw [h.data e he]
    rfl
  obtain ⟨z', hrun, hfreed⟩ := delAvlTree_spec (z := { z with hmap := hmClear z.hmap }) hrep hnodup hdata
    (t.height_le_length.trans (Mem.length_le_next hnodup hrep.live))
  have htree : ∀ p, z'.tree.read p = none := by
    intro p
    rw [hfreed.tree]
    split_ifs with hp
    · rfl
    · rw [hin] at hp
      simpa using mt (hk.tree p) hp
  have hdata' : ∀ p, z'.data.read p = none := by
    intro p
    rw [hfreed.data]
    split_ifs with hp
    · rfl
    · rw [hin] at hp
      simpa using mt (hk.data p) hp
  refine ⟨{ z' with avlRoot := none }, ?_, ⟨rfl, hfreed.hmap, htree, hdata'⟩, ?_, ?_⟩
  · rw [zsetClearNodes, hroot]
    simp only [bind, Except.bind]
    rw [hroot] at hrun
    rw [hrun]
  · have hempty : z'.hmap = {} := hfreed.hmap
    refine ⟨⟨nil, rfl, trivial, rfl⟩, List.nodup_nil, by simp, ?_, by simp, List.Pairwise.nil, ?_, ?_⟩
    · exact hfreed.nextData.trans (h.next.trans hfreed.nextTree.symm)
    · exact hempty ▸ HMap.WF.empty
    · exact hempty ▸ List.Perm.refl _
  · refine ⟨fun t' hroot' _ => ?_, fun p hp => ?_, fun p hp => ?_⟩
    · rw [root?_eq_none.mp hroot'.symm]
      trivial
    · simp [htree p] at hp
    · simp [hdata' p] at hp

/-! ### Runs -/

/-- What can happen to a set. It may be cleared and used again. -/
inductive ZEvent
  | op (op : ZOp)
  | clear

def ZEvent.Ordered : ZEvent → Prop
  | op o => o.Ordered
  | clear => True

def zeventStep (z : ZSet) : ZEvent → M ZSet
  | .op op => zsetStep z op
  | .clear => zsetClearNodes z

theorem run_kept {es : List ZEvent} (hes : ∀ e ∈ es, e.Ordered) :
    ∃ z ns, run zeventStep {} es = .ok z ∧ z.Stored ns ∧ z.Kept ns := by
  have hstep : ∀ z e, (∃ ns, ZSet.Stored z ns ∧ z.Kept ns) → ZEvent.Ordered e →
      ∃ z', zeventStep z e = .ok z' ∧ ∃ ns, ZSet.Stored z' ns ∧ z'.Kept ns := by
    rintro z e ⟨ns, hstored, hkept⟩ he
    cases e with
    | op op =>
      obtain ⟨z', ns', hrun, hstored', hkept'⟩ := zsetStep_kept hstored hkept he
      exact ⟨z', hrun, ns', hstored', hkept'⟩
    | clear =>
      obtain ⟨z', hrun, -, hstored', hkept'⟩ := zsetClearNodes_spec hstored hkept
      exact ⟨z', hrun, [], hstored', hkept'⟩
  obtain ⟨z, hrun, ns, hstored, hkept⟩ := total_on hstep ⟨[], .empty, .empty⟩ hes
  exact ⟨z, ns, hrun, hstored, hkept⟩

/-- Clearing a set after any run frees the nodes that are left, each of them once, and no others. -/
theorem zset_clear_frees_nodes (es : List ZEvent) (hes : ∀ e ∈ es, e.Ordered) :
    ∃ z z', run zeventStep {} es = .ok z ∧ zsetClearNodes z = .ok z' ∧ z'.NoNodes := by
  obtain ⟨z, ns, hrun, hstored, hkept⟩ := run_kept hes
  obtain ⟨z', hclear, hnone, -, -⟩ := zsetClearNodes_spec hstored hkept
  exact ⟨z, z', hrun, hclear, hnone⟩

/-- Three members and a removal, in a set that was cleared before. -/
def clearedRun : List ZEvent :=
  [.op (.insert (strtod [50]) [97]), .clear, .op (.insert (strtod [50]) [97]), .op (.insert (strtod [51]) [98]),
    .op (.insert (strtod [52]) [99]), .op (.delete [97])]

theorem clearedRun_ordered : ∀ e ∈ clearedRun, e.Ordered := by
  have hinsert : ∀ text member, 2 * member.length ≤ maxStrSize → (strtod text).isNaN = false →
      (ZEvent.op (.insert (strtod text) member)).Ordered := by
    intro text member hmember hscore
    refine ⟨hmember, fun score member' heq => ?_⟩
    cases heq
    exact hscore
  intro e he
  simp only [clearedRun, List.mem_cons, List.not_mem_nil, or_false] at he
  rcases he with rfl | rfl | rfl | rfl | rfl | rfl
  · exact hinsert _ _ (by decide) (by decide +kernel)
  · trivial
  · exact hinsert _ _ (by decide) (by decide +kernel)
  · exact hinsert _ _ (by decide) (by decide +kernel)
  · exact hinsert _ _ (by decide) (by decide +kernel)
  · refine ⟨by decide, fun score member heq => ?_⟩
    cases heq

theorem zset_clear_frees_nodes_again : ∃ z z', run zeventStep {} clearedRun = .ok z ∧ zsetClearNodes z = .ok z' ∧
    z'.NoNodes :=
  zset_clear_frees_nodes clearedRun clearedRun_ordered

end CustomRedis
