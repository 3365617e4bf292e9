import CustomRedis.Model.Zset
import CustomRedis.Proof.AvlTree
import CustomRedis.Proof.Hashmap
import Mathlib.Data.List.TakeWhile

/-!
# Sorted sets: the tree and the member map hold the same nodes

`ZSet.Holds z es` says what the two indexes of a sorted set have in common: `es` lists the nodes with
their addresses in the order of the tree, and the member map links exactly these nodes. The operations
are followed once, each turning `es` into another list. What a run does to the members is then a fact
about lists.
-/

namespace CustomRedis

open BinaryTree KeyedList

/-! ### The order -/

/-- By score, and at equal scores by the bytes of the member, a proper beginning first. -/
def ZNode.Before (a b : ZNode) : Prop :=
  a.score.ord < b.score.ord ∨ a.score.ord = b.score.ord ∧ a.key < b.key

theorem ZNode.Before.trans {a b c : ZNode} (hab : a.Before b) (hbc : b.Before c) : a.Before c := by
  rcases hab with hab | ⟨hab, hkab⟩
  · rcases hbc with hbc | ⟨hbc, -⟩
    · exact .inl (hab.trans hbc)
    · exact .inl (hbc ▸ hab)
  · rcases hbc with hbc | ⟨hbc, hkbc⟩
    · exact .inl (hab ▸ hbc)
    · exact .inr ⟨hab.trans hbc, List.lt_trans hkab hkbc⟩

theorem ZNode.before_or_before {a b : ZNode} (hkey : a.key ≠ b.key) : a.Before b ∨ b.Before a := by
  rcases lt_trichotomy a.score.ord b.score.ord with hlt | heq | hgt
  · exact .inl (.inl hlt)
  · by_cases hk : a.key < b.key
    · exact .inl (.inr ⟨heq, hk⟩)
    · have hk' : b.key < a.key := by
        by_contra hnot
        exact hkey (List.le_antisymm (List.not_lt.mp hnot) (List.not_lt.mp hk))
      exact .inr (.inr ⟨heq.symm, hk'⟩)
  · exact .inr (.inl hgt)

/-- `memcmp` over the common length, then the lengths: the lexicographic order. -/
theorem memcmp_lt_iff (a b : Bytes) :
    (if memcmp a b (min b.length a.length) ≠ 0 then decide (memcmp a b (min b.length a.length) < 0)
      else decide (a.length < b.length)) = true ↔ a < b := by
  induction a generalizing b with
  | nil => cases b <;> simp [memcmp]
  | cons x a ih =>
    cases b with
    | nil => simp [memcmp]
    | cons y b =>
      rw [List.cons_lt_cons_iff]
      by_cases hxy : x = y
      · subst hxy
        rw [List.length_cons, List.length_cons, Nat.add_min_add_right, memcmp, if_pos rfl, ← ih b]
        simp [UInt8.lt_irrefl]
      · rw [List.length_cons, List.length_cons, Nat.add_min_add_right, memcmp, if_neg hxy]
        by_cases hlt : x < y
        · simp [hlt]
        · simp [hlt, hxy]

theorem zless_iff {n : ZNode} {score : Double} {key : Bytes} (hcode : UInt64) (hn : n.score.isNaN = false)
    (hscore : score.isNaN = false) : zless n score key = true ↔ n.Before ⟨score, key, hcode⟩ := by
  rw [zless, ZNode.Before]
  by_cases hne : n.score.ord = score.ord
  · have hzero : score.ne n.score = false := by simp [Double.ne, hn, hscore, hne]
    rw [hzero, if_neg (by simp), memcmp_lt_iff]
    simp [hne]
  · have hdiff : score.ne n.score = true := by simp [Double.ne, Ne.symm hne]
    rw [if_pos hdiff]
    simp [Double.lt, hn, hscore, hne]

/-! ### The invariant -/

/-- A member as the handlers can pass it: the copies of it in the node do not exceed the limit for strings. -/
structure ValidMember (key : Bytes) : Prop where
  noNul : 0 ∉ key
  short : 2 * key.length ≤ maxStrSize

structure ZNode.Valid (n : ZNode) : Prop where
  member : ValidMember n.key
  notNaN : n.score.isNaN = false
  hash : n.hcode = strHash n.key

/-- A node of a set as the invariant needs it: the member may have zero bytes in it. -/
structure ZNode.Stored (n : ZNode) : Prop where
  short : 2 * n.key.length ≤ maxStrSize
  notNaN : n.score.isNaN = false
  hash : n.hcode = strHash n.key

theorem ZNode.Valid.stored {n : ZNode} (h : n.Valid) : n.Stored := ⟨h.member.short, h.notNaN, h.hash⟩

/-- The map node inside a node of the set. -/
def hnodeOf (e : Ptr × ZNode) : HNode Ptr := ⟨e.2.hcode, e.2.key, e.1⟩

structure ZSet.Holds (z : ZSet) (es : List (Ptr × ZNode)) : Prop where
  tree : ∃ t : BinaryTree Ptr, z.avlRoot = t.root? ∧ Rep z.tree none t ∧ t.inorder = es.map Prod.fst
  nodup : (es.map Prod.fst).Nodup
  data : ∀ e ∈ es, z.data.read e.1 = some e.2
  next : z.data.next = z.tree.next
  valid : ∀ e ∈ es, e.2.Valid
  sorted : es.Pairwise fun a b => a.2.Before b.2
  wf : z.hmap.WF
  nodes : z.hmap.nodes.Perm (es.map hnodeOf)

/-- The same for members with zero bytes, which the member map tells apart by hash and C string. -/
structure ZSet.Stored (z : ZSet) (es : List (Ptr × ZNode)) : Prop where
  tree : ∃ t : BinaryTree Ptr, z.avlRoot = t.root? ∧ Rep z.tree none t ∧ t.inorder = es.map Prod.fst
  nodup : (es.map Prod.fst).Nodup
  data : ∀ e ∈ es, z.data.read e.1 = some e.2
  next : z.data.next = z.tree.next
  stored : ∀ e ∈ es, e.2.Stored
  sorted : es.Pairwise fun a b => a.2.Before b.2
  wf : z.hmap.WF
  nodes : z.hmap.nodes.Perm (es.map hnodeOf)

theorem ZSet.Stored.empty : ({} : ZSet).Stored [] where
  tree := ⟨nil, rfl, trivial, rfl⟩
  nodup := List.nodup_nil
  data := by simp
  next := rfl
  stored := by simp
  sorted := List.Pairwise.nil
  wf := HMap.WF.empty
  nodes := List.Perm.refl _

theorem ZSet.Holds.toStored {z : ZSet} {es : List (Ptr × ZNode)} (h : z.Holds es) : z.Stored es :=
  ⟨h.tree, h.nodup, h.data, h.next, fun e he => (h.valid e he).stored, h.sorted, h.wf, h.nodes⟩

theorem ZSet.Stored.holds {z : ZSet} {es : List (Ptr × ZNode)} (h : z.Stored es) (hnul : ∀ e ∈ es, 0 ∉ e.2.key) :
    z.Holds es where
  tree := h.tree
  nodup := h.nodup
  data := h.data
  next := h.next
  valid e he := ⟨⟨hnul e he, (h.stored e he).short⟩, (h.stored e he).notNaN, (h.stored e he).hash⟩
  sorted := h.sorted
  wf := h.wf
  nodes := h.nodes

theorem ZSet.Holds.empty : ({} : ZSet).Holds [] := ZSet.Stored.empty.holds (by simp)

theorem ident_hnodeOf {e : Ptr × ZNode} (h : e.2.Stored) : (hnodeOf e).ident = keyId e.2.key := by
  rw [hnodeOf, HNode.ident, h.hash]
  rfl

theorem ZSet.Stored.id_inj {z : ZSet} {es : List (Ptr × ZNode)} (h : z.Stored es) {a b : Ptr × ZNode} (ha : a ∈ es)
    (hb : b ∈ es) (hkey : keyId a.2.key = keyId b.2.key) : a = b := by
  have hd : Distinct (HNode.ident ∘ hnodeOf) es := by
    have hdist := h.wf.distinct.perm h.nodes
    rwa [Distinct, List.map_map] at hdist
  refine hd.eq_of_key_eq ha hb ?_
  rw [Function.comp, Function.comp, ident_hnodeOf (h.stored a ha), ident_hnodeOf (h.stored b hb), hkey]

/-- Leaving out the address of a node or leaving out its member is the same. -/
theorem ZSet.Stored.filter_fst_ne {z : ZSet} {es : List (Ptr × ZNode)} (h : z.Stored es) {e : Ptr × ZNode}
    (he : e ∈ es) : es.filter (fun x => x.1 ≠ e.1) = es.filter fun x => keyId x.2.key ≠ keyId e.2.key := by
  refine List.filter_congr fun x hx => ?_
  have hiff : x.1 = e.1 ↔ keyId x.2.key = keyId e.2.key := by
    constructor
    · intro hfst
      rw [List.inj_on_of_nodup_map h.nodup hx he hfst]
    · intro hk
      rw [h.id_inj hx he hk]
  simp [hiff]

theorem find_map_of_forall {β γ : Type} {f : β → γ} {p : γ → Bool} {q : β → Bool} {l : List β}
    (h : ∀ b ∈ l, p (f b) = q b) : (l.map f).find? p = (l.find? q).map f := by
  rw [List.find?_map]
  congr 1
  induction l with
  | nil => rfl
  | cons b l ih =>
    have hb := h b (by simp)
    simp only [List.find?_cons, Function.comp, hb]
    rw [← ih fun c hc => h c (List.mem_cons_of_mem _ hc)]
    rfl

theorem ZSet.Stored.find_eq {z : ZSet} {es : List (Ptr × ZNode)} (h : z.Stored es) (key : Bytes) :
    z.hmap.find (keyId key) = (es.find? fun e => keyId e.2.key = keyId key).map hnodeOf := by
  rw [HMap.find, at?_perm h.wf.distinct h.nodes]
  refine find_map_of_forall fun e he => ?_
  rw [ident_hnodeOf (h.stored e he)]

theorem zsetLookup_stored {z : ZSet} {es : List (Ptr × ZNode)} (h : z.Stored es) {key : Bytes}
    (hkey : 2 * key.length ≤ maxStrSize) :
    zsetLookup z key = .ok ((es.find? fun e => keyId e.2.key = keyId key).map Prod.fst) := by
  obtain ⟨t, hroot, -, hin⟩ := h.tree
  rw [zsetLookup, hroot]
  cases t with
  | nil =>
    obtain rfl : es = [] := by simpa using hin.symm
    rfl
  | node x l r =>
    obtain ⟨str, hcopy, hbuf⟩ := dstrCopy_ok hkey
    have hlookup := hmLookup_eq h.wf (strHash key) key
    rw [← keyId, h.find_eq key] at hlookup
    simp only [root?_node, Option.isNone_some, Bool.false_eq_true, if_false, bind, Except.bind, hcopy, hbuf]
    rw [Probe.mk_some, hlookup]
    simp only [Option.map_map]
    rfl

/-! ### Deletion -/

theorem zsetDelete_stored {z : ZSet} {es : List (Ptr × ZNode)} (h : z.Stored es) {e : Ptr × ZNode} (he : e ∈ es) :
    ∃ z', zsetDelete z e.1 = .ok z' ∧ z'.Stored (es.filter fun x => x.1 ≠ e.1) := by
  obtain ⟨t, hroot, hrep, hin⟩ := h.tree
  have hv := h.stored e he
  obtain ⟨str, hcopy, hbuf⟩ := dstrCopy_ok hv.short
  obtain ⟨m', t', hdel, hin', -, hreb⟩ := avlDel_spec hrep (hin ▸ h.nodup) (x := e.1)
    (by rw [hin]; exact List.mem_map_of_mem he)
  have hfind : z.hmap.find (e.2.hcode, cstr e.2.key) = some (hnodeOf e) := by
    rw [HMap.find, at?_perm h.wf.distinct h.nodes]
    exact (h.wf.distinct.perm h.nodes).at?_of_mem (b := hnodeOf e) (List.mem_map_of_mem he)
  rcases hmDelete_spec h.wf e.2.hcode e.2.key with ⟨hnone, -⟩ | ⟨n, hm, -, hrun, hwf, hnodes⟩
  · rw [hfind] at hnone
    cases hnone
  · have hfst : (es.map Prod.fst).erase e.1 = (es.filter fun x => x.1 ≠ e.1).map Prod.fst := by
      rw [h.nodup.erase_eq_filter, List.filter_map]
      congr 1
      refine List.filter_congr fun x _ => ?_
      by_cases hx : x.1 = e.1 <;> simp [hx]
    have hmem : ∀ x ∈ es.filter (fun x => x.1 ≠ e.1), x ∈ es ∧ x.1 ≠ e.1 := fun x hx => by
      simpa using List.mem_filter.mp hx
    refine ⟨⟨t'.root?, hm, m'.free e.1, z.data.free e.1⟩, ?_, ?_⟩
    · rw [zsetDelete, ZSet.znode, h.data e he]
      simp only [bind, Except.bind, hcopy, hbuf, hdel]
      rw [show (⟨e.2.hcode, some e.2.key⟩ : Probe) = .ofKey e.2.hcode e.2.key from rfl, hrun]
    · refine ⟨⟨t', rfl, ?_, by rw [hin', hin, hfst]⟩, ?_, ?_, ?_, ?_, ?_, hwf, ?_⟩
      · refine hreb.rep.congr fun q hq => Mem.read_free_ne ?_
        rintro rfl
        rw [hin', hin] at hq
        exact (h.nodup.mem_erase_iff.mp hq).1 rfl
      · rw [← hfst]
        exact h.nodup.erase _
      · intro x hx
        rw [Mem.read_free_ne (hmem x hx).2]
        exact h.data x (hmem x hx).1
      · rw [Mem.next_free, Mem.next_free, hreb.next]
        exact h.next
      · exact fun x hx => h.stored x (hmem x hx).1
      · exact h.sorted.filter _
      · rw [hnodes]
        refine (h.nodes.filter _).trans (List.Perm.of_eq ?_)
        rw [List.filter_map]
        congr 1
        refine List.filter_congr fun x hx => ?_
        -- two nodes have the same identity exactly if they are the same node
        have hiff : (hnodeOf x).ident = (e.2.hcode, cstr e.2.key) ↔ x.1 = e.1 := by
          constructor
          · intro hid
            have hxe : (hnodeOf x).ident = (hnodeOf e).ident := hid
            rw [ident_hnodeOf (h.stored x hx), ident_hnodeOf hv] at hxe
            rw [h.id_inj hx he hxe]
          · intro hfst
            have hxe : x = e := List.inj_on_of_nodup_map h.nodup hx he hfst
            rw [hxe]
            rfl
        simp [hiff]

/-! ### Insertion -/

/-- The link at the end of a path. -/
def linkOf : Path Ptr → Option (Ptr × Bool)
  | [] => none
  | .left x _ :: _ => some (x, false)
  | .right x _ :: _ => some (x, true)

theorem linkOf_fst (p : Path Ptr) : (linkOf p).map Prod.fst = p.parent := by
  cases p with
  | nil => rfl
  | cons f p => cases f <;> rfl

theorem insertLink_spec {z : ZSet} {g : Ptr → Bool} {score : Double} {key : Bytes} {par : Option Ptr}
    {t : BinaryTree Ptr} (hrep : Rep z.tree par t)
    (hdata : ∀ q ∈ t.inorder, ∃ n, z.data.read q = some n ∧ g q = zless n score key) {fuel : Nat}
    (hfuel : t.height ≤ fuel) (p : Path Ptr) :
    insertLink fuel z (linkOf p) t.root? score key = .ok (linkOf (Path.descend g t p)) := by
  induction t generalizing par fuel p with
  | nil => cases fuel <;> rfl
  | node x l r hl hr =>
    rw [BinaryTree.height] at hfuel
    obtain ⟨fuel, rfl⟩ : ∃ n, fuel = n + 1 := ⟨fuel - 1, by omega⟩
    obtain ⟨n, hn, hg⟩ := hdata x (by simp)
    rw [root?_node, insertLink, ZSet.znode, hn, node_ok hrep.1, Path.descend, hg]
    simp only [bind, Except.bind]
    by_cases hless : zless n score key = true
    · rw [if_pos hless, if_pos hless]
      exact hr hrep.2.2 (fun q hq => hdata q (by simp [hq])) (by omega) (.right x l :: p)
    · rw [if_neg hless, if_neg hless]
      exact hl hrep.2.1 (fun q hq => hdata q (by simp [hq])) (by omega) (.left x r :: p)

theorem attach_spec {m : AvlMem} {p : Path Ptr} {x : Ptr} (h : PathRep m none p)
    (hnodup : (p.before ++ p.after).Nodup) :
    ∃ m', attach m (linkOf p) x = .ok m' ∧ PathRep m' (some x) p ∧
      (∀ q, q ∉ p.before ++ p.after → m'.read q = m.read q) ∧ m'.next = m.next := by
  cases p with
  | nil => exact ⟨m, rfl, trivial, fun _ _ => rfl, rfl⟩
  | cons f p =>
    have hperm := Path.perm_members f p
    have hhere := (List.nodup_cons.mp (hperm.nodup_iff.mp hnodup)).1
    simp only [List.mem_append, not_or] at hhere
    have hpath : ∀ c, PathRep (m.set f.here c) (some f.here) p := fun c => h.2.congr fun q hq =>
      Mem.read_set_ne (by
        rintro rfl
        simp only [List.mem_append] at hq
        exact hq.elim hhere.2.1 hhere.2.2) c
    have hframe : ∀ c q, q ∉ Path.before (f :: p) ++ Path.after (f :: p) → (m.set f.here c).read q = m.read q :=
      fun c q hq => Mem.read_set_ne (fun he => hq (hperm.mem_iff.mpr (by simp [he]))) c
    cases f with
    | left z r =>
      obtain ⟨⟨⟨c, hc, hpar, -, hright⟩, hrep⟩, -⟩ := h
      refine ⟨_, modify_ok hc _, ⟨⟨⟨_, Mem.read_set_self (Mem.lt_next_of_read hc) _, hpar, rfl, hright⟩, ?_⟩, hpath _⟩,
        hframe _, Mem.next_set _ _ _⟩
      exact hrep.congr fun q hq => Mem.read_set_ne (ne_of_mem_of_not_mem hq hhere.1) _
    | right z l =>
      obtain ⟨⟨⟨c, hc, hpar, hleft, -⟩, hrep⟩, -⟩ := h
      refine ⟨_, modify_ok hc _, ⟨⟨⟨_, Mem.read_set_self (Mem.lt_next_of_read hc) _, hpar, hleft, rfl⟩, ?_⟩, hpath _⟩,
        hframe _, Mem.next_set _ _ _⟩
      exact hrep.congr fun q hq => Mem.read_set_ne (ne_of_mem_of_not_mem hq hhere.1) _

/-- Linking a fresh node at the end of a path. -/
theorem treeAdd_spec {m : AvlMem} {p : Path Ptr} {x : Ptr} (h : Rep m none (Path.plug p nil))
    (hnodup : (Path.plug p nil).inorder.Nodup) (hx : m.read x = some avlInit) (hxp : x ∉ (Path.plug p nil).inorder) :
    ∃ m' m₁ m₂ y t', attach m (linkOf p) x = .ok m₁ ∧
      m₁.modify x (fun c => { c with parent := Path.parent p }) = .ok m₂ ∧ avlFix m₂ x = .ok (m', y) ∧
      BinaryTree.root? t' = some y ∧ Rep m' none t' ∧ t'.inorder = p.before ++ x :: p.after ∧
      ((Path.plug p nil).Balanced → t'.Balanced) ∧ m'.next = m.next ∧
      ∀ q, q ∉ x :: (p.before ++ p.after) → m'.read q = m.read q := by
  have hin : (Path.plug p nil).inorder = p.before ++ p.after := by simp [Path.inorder_plug]
  rw [hin] at hnodup hxp
  obtain ⟨m₁, hattach, hpath₁, hframe₁, hnext₁⟩ := attach_spec (x := x) h.split.1 hnodup
  have hx₁ := (hframe₁ x hxp).trans hx
  have hset : ∀ c q, q ≠ x → (m₁.set x c).read q = m₁.read q := fun c q hq => Mem.read_set_ne hq c
  have hnodup₂ : (Path.plug p (node x nil nil)).inorder.Nodup := by
    rw [Path.inorder_plug]
    simpa using List.nodup_middle.mpr (List.nodup_cons.mpr ⟨hxp, hnodup⟩)
  have hlen : p.length < m.next := by
    have hle := Mem.length_le_next (l := x :: (p.before ++ p.after)) (List.nodup_cons.mpr ⟨hxp, hnodup⟩) (m := m) (by
      intro q hq
      rcases List.mem_cons.mp hq with rfl | hq
      · simp [hx]
      · exact h.live q (hin ▸ hq))
    have hp := Path.length_le p
    rw [List.length_cons] at hle
    exact Nat.lt_of_le_of_lt hp hle
  have htop : TopRep (m₁.set x { avlInit with parent := Path.parent p }) (Path.parent p) x nil nil :=
    ⟨⟨_, Mem.read_set_self (Mem.lt_next_of_read hx₁) _, rfl, rfl, rfl⟩, trivial, trivial⟩
  obtain ⟨m', y, hfix, hroot, hreb⟩ := avlFixAux_spec htop
    (hpath₁.congr fun q hq => hset _ q (ne_of_mem_of_not_mem hq hxp)) hnodup₂
    (show p.length < m.next from hlen)
  refine ⟨m', m₁, _, y, _, hattach, modify_ok hx₁ _, ?_, hroot, hreb.rep, ?_, fun hb => ?_, ?_, fun q hq => ?_⟩
  · rw [avlFix, Mem.next_set, hnext₁]
    exact hfix
  · simp [Path.inorder_rebuild]
  · have hleaf : (node x nil nil).Balanced := ⟨⟨Nat.le_succ _, Nat.le_succ _⟩, trivial, trivial⟩
    refine Path.balanced_rebuild hb ?_ ?_ <;> rw [hleaf.balance_eq]
    · exact hleaf
    · exact ⟨Nat.le_refl 1, Nat.zero_le 2⟩
  · rw [hreb.next, Mem.next_set, hnext₁]
  · have hq' : q ∉ (Path.plug p (node x nil nil)).inorder := by
      rw [Path.inorder_plug]
      simp only [inorder_node, inorder_nil, List.mem_append, List.mem_cons] at hq ⊢
      tauto
    rw [List.mem_cons, not_or] at hq
    rw [hreb.frame q hq', hset _ q hq.1, hframe₁ q hq.2]

/-- A set with one node more, where the order wants it. -/
theorem ZSet.Stored.add {z : ZSet} {es₁ es₂ : List (Ptr × ZNode)} (h : z.Stored (es₁ ++ es₂)) {new : ZNode}
    (hnew : new.Stored) (hfirst : ∀ e ∈ es₁, e.2.Before new) (hlast : ∀ e ∈ es₂, new.Before e.2)
    {t : BinaryTree Ptr} {m : AvlMem} {hm : HMap Ptr} (hrep : Rep m none t)
    (hin : t.inorder = es₁.map Prod.fst ++ z.tree.next :: es₂.map Prod.fst) (hnext : m.next = z.tree.next + 1)
    (hwf : hm.WF) (hnodes : hm.nodes.Perm (hnodeOf (z.tree.next, new) :: z.hmap.nodes)) :
    ZSet.Stored ⟨t.root?, hm, m, z.data.alloc new⟩ (es₁ ++ (z.tree.next, new) :: es₂) := by
  have hlt : ∀ e ∈ es₁ ++ es₂, e.1 < z.data.next := fun e he => Mem.lt_next_of_read (h.data e he)
  have hcons : (es₁ ++ (z.tree.next, new) :: es₂).Perm ((z.tree.next, new) :: (es₁ ++ es₂)) := List.perm_middle
  have hmem : ∀ e ∈ es₁ ++ (z.tree.next, new) :: es₂, e = (z.tree.next, new) ∨ e ∈ es₁ ++ es₂ :=
    fun e he => List.mem_cons.mp (hcons.mem_iff.mp he)
  obtain ⟨hs₁, hs₂, hs₁₂⟩ := List.pairwise_append.mp h.sorted
  constructor
  case tree => exact ⟨t, rfl, hrep, by rw [hin, List.map_append, List.map_cons]⟩
  case nodup =>
    rw [(hcons.map Prod.fst).nodup_iff, List.map_cons, List.nodup_cons]
    refine ⟨fun hin => ?_, h.nodup⟩
    obtain ⟨e, he, heq⟩ := List.mem_map.mp hin
    exact absurd (heq.trans h.next.symm) (Nat.ne_of_lt (hlt e he))
  case data =>
    intro e he
    rcases hmem e he with rfl | he
    · rw [← h.next]
      exact Mem.read_alloc_self _ _
    · rw [Mem.read_alloc_of_lt (hlt e he), h.data e he]
  case next => rw [Mem.next_alloc, h.next, hnext]
  case stored =>
    intro e he
    rcases hmem e he with rfl | he
    · exact hnew
    · exact h.stored e he
  case sorted =>
    refine List.pairwise_append.mpr ⟨hs₁, List.pairwise_cons.mpr ⟨hlast, hs₂⟩, ?_⟩
    intro a ha b hb
    rcases List.mem_cons.mp hb with rfl | hb
    · exact hfirst a ha
    · exact hs₁₂ a ha b hb
  case wf => exact hwf
  case nodes => exact (hnodes.trans (h.nodes.cons _)).trans (hcons.map hnodeOf).symm

theorem zsetAdd_stored {z : ZSet} {es : List (Ptr × ZNode)} (h : z.Stored es) {score : Double} {key : Bytes}
    (hkey : 2 * key.length ≤ maxStrSize) (hscore : score.isNaN = false) (hnew : ∀ e ∈ es, keyId e.2.key ≠ keyId key) :
    ∃ z' es₁ es₂, zsetAdd z score key = .ok z' ∧ es = es₁ ++ es₂ ∧
      z'.Stored (es₁ ++ (z.tree.next, ⟨score, key, strHash key⟩) :: es₂) := by
  obtain ⟨t, hroot, hrep, hin⟩ := h.tree
  obtain ⟨str, hcopy, hbuf⟩ := dstrCopy_ok hkey
  obtain ⟨x, hx⟩ : ∃ x, x = z.tree.next := ⟨_, rfl⟩
  rw [← hx]
  have hlive : ∀ q ∈ t.inorder, q < z.tree.next := fun q hq => by
    obtain ⟨c, hc⟩ := Option.isSome_iff_exists.mp (hrep.live q hq)
    exact Mem.lt_next_of_read hc
  have hxt : x ∉ t.inorder := fun hin => absurd hx (Nat.ne_of_lt (hlive x hin))
  -- the new node in the member map
  have hfind : z.hmap.find (HNode.mk (strHash key) key x).ident = none := by
    rw [HNode.ident, ← keyId, h.find_eq key, Option.map_eq_none_iff, List.find?_eq_none]
    intro e he
    simpa using hnew e he
  obtain ⟨hm, jobs, hmrun, hmwf, hmperm⟩ := hmInsert_of_clear (fun _ => rfl) h.wf hfind
  -- the walk down the tree ends between the smaller and the larger nodes
  have hdata : ∀ e ∈ es, (z.data.alloc ⟨score, key, strHash key⟩).read e.1 = some e.2 := fun e he => by
    rw [Mem.read_alloc_of_lt (Mem.lt_next_of_read (h.data e he)), h.data e he]
  obtain ⟨g, hg⟩ : ∃ g : Ptr → Bool, ∀ e ∈ es, g e.1 = zless e.2 score key :=
    ⟨fun q => (((z.data.alloc ⟨score, key, strHash key⟩).read q).map fun n => zless n score key).getD false,
      fun e he => by simp [hdata e he]⟩
  have hless : ∀ e ∈ es, g e.1 = true ↔ e.2.Before ⟨score, key, strHash key⟩ := fun e he => by
    rw [hg e he]
    exact zless_iff _ (h.stored e he).notNaN hscore
  have hmono : (Path.plug [] t).inorder.Pairwise fun a b => g b → g a := by
    rw [Path.plug, hin, List.pairwise_map]
    refine h.sorted.imp_of_mem ?_
    intro a b ha hb hab hgb
    exact (hless a ha).mpr (hab.trans ((hless b hb).mp hgb))
  obtain ⟨hbefore, hafter⟩ := Path.descend_spec hmono (by simp [Path.before]) (by simp [Path.after])
  obtain ⟨p, hp⟩ : ∃ p, p = Path.descend g t [] := ⟨_, rfl⟩
  have hplug : Path.plug p nil = t := hp ▸ Path.plug_descend g t []
  have hrep₁ : Rep (z.tree.alloc avlInit) none t := hrep.congr fun q hq => Mem.read_alloc_of_lt (hlive q hq) _
  have hheight : t.height ≤ z.tree.next + 1 :=
    (t.height_le_length.trans (Mem.length_le_next (hin ▸ h.nodup) hrep.live)).trans (Nat.le_succ _)
  obtain ⟨m', m₁, m₂, y, t', hattach, hparent, hfix, hroot', hrep', hin', -, hnext', -⟩ := treeAdd_spec (p := p) (x := x)
    (hplug ▸ hrep₁) (hplug ▸ hin ▸ h.nodup) (hx ▸ Mem.read_alloc_self _ _) (hplug ▸ hxt)
  rw [← hp] at hbefore hafter
  obtain ⟨es₁, es₂, hes, hes₁, hes₂⟩ : ∃ es₁ es₂, es = es₁ ++ es₂ ∧ es₁.map Prod.fst = p.before ∧
      es₂.map Prod.fst = p.after := by
    refine List.map_eq_append_iff.mp ?_
    rw [← hin, ← hplug, Path.inorder_plug]
    simp
  refine ⟨⟨some y, hm, m', z.data.alloc ⟨score, key, strHash key⟩⟩, es₁, es₂, ?_, hes, ?_⟩
  · have hread : ∀ q ∈ t.inorder, ∃ n, (z.data.alloc ⟨score, key, strHash key⟩).read q = some n ∧
        g q = zless n score key := by
      intro q hq
      obtain ⟨e, he, rfl⟩ := List.mem_map.mp (hin ▸ hq)
      exact ⟨e.2, hdata e he, hg e he⟩
    have hlink := insertLink_spec (z := { z with tree := z.tree.alloc avlInit
                                                 data := z.data.alloc ⟨score, key, strHash key⟩ })
      hrep₁ hread hheight []
    rw [← hp, linkOf] at hlink
    rw [zsetAdd]
    simp only [bind, Except.bind, hcopy, hbuf, hroot, ← hx, hmrun, Mem.next_alloc]
    rw [← hx, hroot] at hlink
    simp only [hlink, hattach, linkOf_fst, hparent, hfix]
  · have hfirst : ∀ e ∈ es₁, e.2.Before ⟨score, key, strHash key⟩ := fun e he =>
      (hless e (by simp [hes, he])).mp (hbefore e.1 (hes₁ ▸ List.mem_map_of_mem he))
    have hlast : ∀ e ∈ es₂, ZNode.Before ⟨score, key, strHash key⟩ e.2 := fun e he => by
      have hin : e ∈ es := by simp [hes, he]
      have hnot : ¬e.2.Before ⟨score, key, strHash key⟩ := fun hb => by
        have hga := hafter e.1 (hes₂ ▸ List.mem_map_of_mem he)
        rw [(hless e hin).mpr hb] at hga
        cases hga
      have hne : e.2.key ≠ key := fun heq => hnew e hin (heq ▸ rfl)
      exact (ZNode.before_or_before (b := ⟨score, key, strHash key⟩) hne).resolve_left hnot
    rw [← hroot']
    subst hx
    exact (hes ▸ h).add ⟨hkey, hscore, rfl⟩ hfirst hlast hrep' (by rw [hin', hes₁, hes₂])
      (by rw [hnext', Mem.next_alloc]) hmwf hmperm

/-- `zset_insert`: a node for the member with the new score, and no other node changes. -/
theorem zsetInsert_stored {z : ZSet} {es : List (Ptr × ZNode)} (h : z.Stored es) {score : Double} {key : Bytes}
    (hkey : 2 * key.length ≤ maxStrSize) (hscore : score.isNaN = false) :
    ∃ z' es' p, zsetInsert z score key = .ok (z', (es.find? fun e => keyId e.2.key = keyId key).isNone) ∧
      z'.Stored es' ∧ es'.Perm ((p, ⟨score, key, strHash key⟩) :: es.filter fun e => keyId e.2.key ≠ keyId key) := by
  rw [zsetInsert, zsetLookup_stored h hkey]
  cases hfind : es.find? fun e => keyId e.2.key = keyId key with
  | none =>
    have hnew : ∀ e ∈ es, keyId e.2.key ≠ keyId key := by simpa using hfind
    obtain ⟨z', es₁, es₂, hrun, hes, hstored⟩ := zsetAdd_stored h hkey hscore hnew
    refine ⟨z', _, z.tree.next, ?_, hstored, ?_⟩
    · simp only [bind, Except.bind, Option.map_none, hrun, Option.isNone_none]
    · rw [List.filter_eq_self.mpr (by simpa using hnew), hes]
      exact List.perm_middle
  | some e =>
    have he := List.mem_of_find?_eq_some hfind
    have hek : keyId e.2.key = keyId key := by simpa using List.find?_some hfind
    obtain ⟨z₁, hdel, hstored₁⟩ := zsetDelete_stored h he
    rw [h.filter_fst_ne he, hek] at hstored₁
    obtain ⟨z', es₁, es₂, hrun, hes, hstored⟩ := zsetAdd_stored hstored₁ hkey hscore (by simp)
    refine ⟨z', _, z₁.tree.next, ?_, hstored, ?_⟩
    · simp only [bind, Except.bind, Option.map_some, hdel, hrun, Option.isNone_some]
    · rw [hes]
      exact List.perm_middle

/-! ### Members that are told apart by their bytes

Members that differ in hash or C string, as members without zero bytes do. -/

section Apart

variable {z : ZSet} {es : List (Ptr × ZNode)} {U : Set Bytes} {key : Bytes}

theorem find_id (hU : Set.InjOn keyId U) (hes : ∀ e ∈ es, e.2.key ∈ U) (hkey : key ∈ U) :
    (es.find? fun e => keyId e.2.key = keyId key) = es.find? fun e => e.2.key = key := by
  refine List.find?_congr fun e he => ?_
  simp only [hU.eq_iff (hes e he) hkey]

theorem filter_id (hU : Set.InjOn keyId U) (hes : ∀ e ∈ es, e.2.key ∈ U) (hkey : key ∈ U) :
    (es.filter fun e => keyId e.2.key ≠ keyId key) = es.filter fun e => e.2.key ≠ key := by
  refine List.filter_congr fun e he => ?_
  simp only [ne_eq, hU.eq_iff (hes e he) hkey]

theorem injOn_noNul : Set.InjOn keyId {member | 0 ∉ member} := fun _ ha _ hb => (keyId_inj ha hb).mp

theorem ZSet.Holds.noNul (h : z.Holds es) : ∀ e ∈ es, e.2.key ∈ {member | 0 ∉ member} :=
  fun e he => (h.valid e he).member.noNul

theorem zsetLookup_spec (h : z.Holds es) (hkey : ValidMember key) :
    zsetLookup z key = .ok ((es.find? fun e => e.2.key = key).map Prod.fst) := by
  rw [zsetLookup_stored h.toStored hkey.short, find_id injOn_noNul h.noNul hkey.noNul]

theorem zsetInsert_spec (h : z.Holds es) {score : Double} (hkey : ValidMember key)
    (hscore : score.isNaN = false) :
    ∃ z' es' p, zsetInsert z score key = .ok (z', (es.find? fun e => e.2.key = key).isNone) ∧ z'.Holds es' ∧
      es'.Perm ((p, ⟨score, key, strHash key⟩) :: es.filter fun e => e.2.key ≠ key) := by
  obtain ⟨z', es', p, hrun, hstored, hperm⟩ := zsetInsert_stored h.toStored hkey.short hscore
  rw [find_id injOn_noNul h.noNul hkey.noNul] at hrun
  rw [filter_id injOn_noNul h.noNul hkey.noNul] at hperm
  refine ⟨z', es', p, hrun, hstored.holds fun e he => ?_, hperm⟩
  rcases List.mem_cons.mp (hperm.mem_iff.mp he) with rfl | he
  · exact hkey.noNul
  · exact h.noNul e (List.mem_of_mem_filter he)

end Apart

end CustomRedis
