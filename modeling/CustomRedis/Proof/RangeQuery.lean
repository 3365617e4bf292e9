import CustomRedis.Proof.LowerBound
import CustomRedis.Proof.RankWalk
import CustomRedis.Proof.Replies
import CustomRedis.Proof.Reachable

/-!
# Range queries

The lower bound is a place in the sequence of the set, the offset a move along it, and the loop of
`do_zrangequery` walks on from there. It adds two to one counter for every member, and compares that
counter with the limit.
-/

namespace CustomRedis

open BinaryTree

/-! ### Sequences cut by a predicate -/

theorem dropWhile_eq_filter {α : Type} {p : α → Bool} {l : List α} (h : l.Pairwise fun a b => p b → p a) :
    l.dropWhile p = l.filter fun a => !p a := by
  induction l with
  | nil => rfl
  | cons a l ih =>
    obtain ⟨hhead, htail⟩ := List.pairwise_cons.mp h
    by_cases ha : p a = true
    · rw [List.dropWhile_cons_of_pos ha, ih htail, List.filter_cons_of_neg (by simp [ha])]
    · rw [List.dropWhile_cons_of_neg ha, eq_comm, List.filter_eq_self]
      intro b hb
      rcases List.mem_cons.mp hb with rfl | hb
      · simp [ha]
      · simpa using fun hpb => ha (hhead b hb hpb)

theorem drop_takeWhile {α : Type} (p : α → Bool) (l : List α) : l.drop (l.takeWhile p).length = l.dropWhile p := by
  conv_lhs => rw [← List.takeWhile_append_dropWhile (p := p) (l := l)]
  rw [List.drop_append_of_le_length (by rw [List.takeWhile_append_dropWhile]), List.takeWhile_append_dropWhile,
    List.drop_length, List.nil_append]

/-! ### The set as a sequence -/

theorem Rep.sizeRep {m : AvlMem} {par : Option Ptr} {t : BinaryTree Ptr} (h : Rep m par t)
    (hsmall : t.numNodes < 2 ^ 32) : SizeRep m par t := by
  induction t generalizing par with
  | nil => trivial
  | node x l r hl hr =>
    have hmod : (node x l r).numNodes % 2 ^ 32 = (node x l r).numNodes := Nat.mod_eq_of_lt hsmall
    rw [numNodes] at hsmall
    exact ⟨⟨_, hmod ▸ h.1⟩, hl h.2.1 (by omega), hr h.2.2 (by omega)⟩

theorem SizeRep.shape {m : AvlMem} {par : Option Ptr} {t : BinaryTree Ptr} (h : SizeRep m par t) : Shape m t := by
  induction t generalizing par with
  | nil => trivial
  | node x l r hl hr =>
    obtain ⟨⟨height, hx⟩, hl', hr'⟩ := h
    exact ⟨⟨_, hx, rfl, rfl⟩, hl hl', hr hr'⟩

/-- A sorted set as a sequence, with all that a range query reads of its tree. -/
structure ZSet.Ranked (z : ZSet) (es : List (Ptr × ZNode)) : Prop where
  tree : ∃ t : BinaryTree Ptr, z.avlRoot = t.root? ∧ SizeRep z.tree none t ∧ t.inorder = es.map Prod.fst
  data : ∀ e ∈ es, z.data.read e.1 = some e.2
  notNaN : ∀ e ∈ es, e.2.score.isNaN = false
  sorted : es.Pairwise fun a b => a.2.less b.2
  brief : ∀ e ∈ es, Brief e.2.key

theorem ZSet.Ranked.increasing {z : ZSet} {es : List (Ptr × ZNode)} (h : z.Ranked es) : z.Increasing es where
  tree := by
    obtain ⟨t, hroot, hrep, hin⟩ := h.tree
    exact ⟨t, hroot, hrep.shape, hin⟩
  data := h.data
  notNaN := h.notNaN
  sorted := h.sorted

theorem ZSet.Stored.ranked {z : ZSet} {es : List (Ptr × ZNode)} (h : z.Stored es) (hsmall : es.length < 2 ^ 32) :
    z.Ranked es where
  tree := by
    obtain ⟨t, hroot, hrep, hin⟩ := h.tree
    refine ⟨t, hroot, hrep.sizeRep ?_, hin⟩
    rw [← length_inorder, hin, List.length_map]
    exact hsmall
  data := h.data
  notNaN := h.increasing.notNaN
  sorted := h.increasing.sorted
  brief e he := (Nat.le_mul_of_pos_left _ (by decide)).trans (h.stored e he).short

theorem ZSet.Ranked.offset_eq {z : ZSet} {es : List (Ptr × ZNode)} (h : z.Ranked es) (hsmall : es.length < 2 ^ 31)
    {i : Nat} {e : Ptr × ZNode} (he : es[i]? = some e) (offset : Int) :
    zsetOffset z e.1 offset = .ok (if 0 ≤ i + offset then (es[(i + offset).toNat]?).map Prod.fst else none) := by
  obtain ⟨t, -, hrep, hin⟩ := h.tree
  have hlen : t.numNodes < 2 ^ 31 := by rwa [← length_inorder, hin, List.length_map]
  have hx : t.inorder[i]? = some e.1 := by rw [hin, List.getElem?_map, he, Option.map_some]
  rw [zsetOffset_eq hrep (hin ▸ h.increasing.nodup) hlen hx, hin, List.getElem?_map]

/-! ### The reply -/

/-- The two values of a member in the reply. -/
def pairValues (n : ZNode) : List Bytes := [tagDouble :: leBytes 8 n.score.bits.toNat, strValue n.key]

/-- The array of the pairs of these members. -/
def pairsReply (ns : List ZNode) : Bytes := arrValue (ns.flatMap pairValues)

theorem length_pairValues (ns : List ZNode) : (ns.flatMap pairValues).length = 2 * ns.length := by
  induction ns with
  | nil => rfl
  | cons n ns ih =>
    rw [List.flatMap_cons, List.length_append, ih, List.length_cons]
    simp only [pairValues, List.length_cons, List.length_nil]
    omega

theorem pairsReply_length {as bs : List ZNode} (ha : as.length < 2 ^ 31) (hb : bs.length < 2 ^ 31)
    (h : pairsReply as = pairsReply bs) : as.length = bs.length := by
  have hbody := (List.cons.inj h).2
  rw [length_pairValues, length_pairValues] at hbody
  have hcount := (leBytes_append_inj (by omega) (by omega) hbody).1
  omega

theorem pairsReply_head {a b : ZNode} {as bs : List ZNode} (ha : Brief a.key) (hb : Brief b.key)
    (h : pairsReply (a :: as) = pairsReply (b :: bs)) : a.score = b.score ∧ a.key = b.key := by
  have hbody := (List.append_inj (List.cons.inj h).2 (by rw [length_leBytes, length_leBytes])).2
  rw [List.flatMap_cons, List.flatMap_cons, List.flatten_append, List.flatten_append] at hbody
  simp only [pairValues, strValue, List.flatten_cons, List.append_assoc, List.cons_append, List.flatten_nil] at hbody
  obtain ⟨hbits, hrest⟩ := List.append_inj (List.cons.inj hbody).2 (by rw [length_leBytes, length_leBytes])
  constructor
  · have hnat : a.score.bits.toNat = b.score.bits.toNat := by
      rw [← leNat_leBytes 8 a.score.bits.toNat a.score.bits.toNat_lt, hbits,
        leNat_leBytes 8 b.score.bits.toNat b.score.bits.toNat_lt]
    exact congrArg Double.mk (UInt64.toNat_inj.mp hnat)
  · refine counted_append_inj ha.lt hb.lt (x := (as.flatMap pairValues).flatten) (y := (bs.flatMap pairValues).flatten) ?_
    simpa using (List.cons.inj hrest).2

/-- From a place in the sequence the loop lists every other member it is allowed to count. -/
theorem zrangeLoop_eq {z : ZSet} {es : List (Ptr × ZNode)} (h : z.Ranked es) (hsmall : es.length < 2 ^ 31)
    {i fuel size limit : Nat} {out : Bytes} (hfuel : es.length - i ≤ fuel) (hsize : size ≤ 2 * i) :
    zrangeLoop fuel z ((es[i]?).map Prod.fst) size limit out =
      .ok (out ++ ((((es.drop i).take ((limit - size + 1) / 2)).map Prod.snd).flatMap pairValues).flatten,
        size + 2 * ((es.drop i).take ((limit - size + 1) / 2)).length) := by
  induction fuel generalizing i size out with
  | zero =>
    have hnone : es.length ≤ i := by omega
    rw [List.getElem?_eq_none hnone, List.drop_eq_nil_of_le hnone, List.take_nil]
    simp [zrangeLoop]
  | succ fuel ih =>
    cases he : es[i]? with
    | none =>
      rw [List.drop_eq_nil_of_le (List.getElem?_eq_none_iff.mp he), List.take_nil]
      simp [zrangeLoop]
    | some e =>
      have hi : i < es.length := (List.getElem?_eq_some_iff.mp he).1
      rw [Option.map_some, zrangeLoop]
      by_cases hless : size < limit
      · have hnode : z.znode e.1 = .ok e.2 := by rw [ZSet.znode, h.data e (List.mem_of_getElem? he)]
        have hnext : zsetOffset z e.1 1 = .ok ((es[i + 1]?).map Prod.fst) := by
          rw [h.offset_eq hsmall he 1, if_pos (by omega)]
          rfl
        have hmod : (size + 2) % 2 ^ 32 = size + 2 := Nat.mod_eq_of_lt (by omega)
        have htake : (limit - size + 1) / 2 = (limit - (size + 2) + 1) / 2 + 1 := by omega
        have hdrop : es.drop i = e :: es.drop (i + 1) := by
          rw [List.drop_eq_getElem_cons hi, (List.getElem?_eq_some_iff.mp he).2]
        rw [if_pos hless, hnode]
        simp only [bind, Except.bind, hnext]
        rw [hmod, ih (by omega) (by omega), htake, hdrop, List.take_succ_cons, List.map_cons, List.flatMap_cons,
          List.flatten_append, List.length_cons, outStr_eq, outDouble_eq]
        have hpair : (pairValues e.2).flatten =
            tagDouble :: leBytes 8 e.2.score.bits.toNat ++ tagStr :: (leBytes 4 e.2.key.length ++ e.2.key) := by
          simp [pairValues, strValue]
        rw [hpair, ← List.append_assoc, ← List.append_assoc]
        congr 2
        omega
      · have hzero : (limit - size + 1) / 2 = 0 := by omega
        rw [if_neg hless, hzero, List.take_zero]
        simp

/-! ### The query -/

/-- The members that are not below the bound, in the order of the set. -/
def membersAbove (es : List (Ptr × ZNode)) (score : Double) (key : Bytes) : List (Ptr × ZNode) :=
  es.filter fun e => !zless e.2 score key

/-- The members that `do_zrangequery` lists. -/
def queryList (es : List (Ptr × ZNode)) (score : Double) (key : Bytes) (offset : Int) (limit : Nat) :
    List (Ptr × ZNode) :=
  if membersAbove es score key = [] then []
  else
    let start : Int := (es.takeWhile fun e => zless e.2 score key).length + offset
    if 0 ≤ start then (es.drop start.toNat).take ((limit + 1) / 2) else []

theorem pairsReply_eq (out : Bytes) (ns : List ZNode) :
    patchU32 ((outUnknownArr out).1 ++ (ns.flatMap pairValues).flatten) (outUnknownArr out).2 (2 * ns.length) =
      out ++ pairsReply ns := by
  rw [patch_count, pairsReply, arrValue, length_pairValues]

section Query

variable {z : ZSet} {es : List (Ptr × ZNode)} {g : GlobalData} {out : Bytes} {cmd : List Bytes}

theorem ZSet.Ranked.dropWhile_eq (h : z.Ranked es) (score : Double) (key : Bytes) :
    es.dropWhile (fun e => zless e.2 score key) = membersAbove es score key := by
  refine dropWhile_eq_filter (h.increasing.before.imp_of_mem ?_)
  intro a b ha hb hab
  exact zless_mono (h.notNaN a ha) (h.notNaN b hb) hab score key

/-- The handler behind its arguments. -/
theorem doZrangequery_bind (hcmd : 4 ≤ cmd.length) (hset : findZset g (keyOf cmd) = .ok (some z)) :
    doZrangequery g out cmd = (do
      match ← zsetLowerBound z (strtod (cmd.getD 2 [])) (cmd.getD 3 []) with
      | none => .ok ⟨g, outArr out 0, .success⟩
      | some lb => do
        let znode ← zsetOffset z lb (queryOffset cmd)
        let (filled, size) ← zrangeLoop (z.tree.next + 1) z znode 0 (queryLimit cmd) (outUnknownArr out).1
        .ok ⟨g, patchU32 filled (outUnknownArr out).2 size, .success⟩) := by
  rw [doZrangequery, arg_one (by omega), arg_eq_getD (show 2 < cmd.length by omega),
    arg_eq_getD (show 3 < cmd.length by omega)]
  simp only [bind, Except.bind, hset, derefZset]
  rfl

theorem doZrangequery_eq (h : z.Ranked es) (hsmall : es.length < 2 ^ 31) (hcmd : 4 ≤ cmd.length)
    (hset : findZset g (keyOf cmd) = .ok (some z)) :
    doZrangequery g out cmd = .ok ⟨g, out ++ pairsReply ((queryList es (strtod (cmd.getD 2 [])) (cmd.getD 3 [])
      (queryOffset cmd) (queryLimit cmd)).map Prod.snd), .success⟩ := by
  obtain ⟨score, hscore⟩ : ∃ score, score = strtod (cmd.getD 2 []) := ⟨_, rfl⟩
  obtain ⟨key, hkey⟩ : ∃ key, key = cmd.getD 3 [] := ⟨_, rfl⟩
  obtain ⟨n, hn⟩ : ∃ n, n = (es.takeWhile fun e => zless e.2 score key).length := ⟨_, rfl⟩
  have hdrop : es.drop n = membersAbove es score key := by rw [hn, drop_takeWhile, h.dropWhile_eq]
  have hlb : zsetLowerBound z score key = .ok ((membersAbove es score key).head?.map Prod.fst) := by
    rw [zsetLowerBound_eq h.increasing, membersAbove, List.head?_filter]
  rw [doZrangequery_bind hcmd hset, ← hscore, ← hkey, hlb, queryList, ← hn]
  simp only [bind, Except.bind]
  cases habove : membersAbove es score key with
  | nil =>
    rw [if_pos rfl]
    simp [pairsReply, arrValue, outArr_eq]
  | cons e rest =>
    have he : es[n]? = some e := by rw [← List.head?_drop, hdrop, habove, List.head?_cons]
    rw [if_neg (List.cons_ne_nil e rest), List.head?_cons, Option.map_some]
    simp only [h.offset_eq hsmall he]
    by_cases hstart : 0 ≤ (n : Int) + queryOffset cmd
    · have hlen : es.length - (n + queryOffset cmd : Int).toNat ≤ z.tree.next + 1 := by
        obtain ⟨t, -, hrep, hin⟩ := h.tree
        have hle := Mem.length_le_next (hin ▸ h.increasing.nodup) hrep.live
        rw [hin, List.length_map] at hle
        omega
      rw [if_pos hstart, if_pos hstart, zrangeLoop_eq h hsmall hlen (Nat.zero_le _), Nat.sub_zero, Nat.zero_add,
        ← List.length_map Prod.snd]
      simp only [pairsReply_eq]
    · rw [if_neg hstart, if_neg hstart, zrangeLoop]
      have hempty := pairsReply_eq out []
      rw [List.flatMap_nil, List.flatten_nil, List.append_nil] at hempty
      exact congrArg (fun out => Except.ok (Result.mk g out .success)) hempty

/-- Where a query starts in front of the bound, it does not list what stands at the bound. -/
theorem ZSet.Ranked.reply_ne (h : z.Ranked es) {i j : Nat} {a b : Ptr × ZNode} (ha : es[i]? = some a)
    (hb : es[j]? = some b) (hij : i < j) (as bs : List ZNode) :
    pairsReply (a.2 :: as) ≠ pairsReply (b.2 :: bs) := by
  intro heq
  obtain ⟨hi, ha⟩ := List.getElem?_eq_some_iff.mp ha
  obtain ⟨hj, hb⟩ := List.getElem?_eq_some_iff.mp hb
  have hbefore : a.2.Before b.2 := by
    rw [← ha, ← hb]
    exact List.pairwise_iff_getElem.mp h.increasing.before i j hi hj hij
  obtain ⟨hscore, hkey⟩ := pairsReply_head (h.brief a (ha ▸ List.getElem_mem hi)) (h.brief b (hb ▸ List.getElem_mem hj)) heq
  rw [ZNode.Before, hscore, hkey] at hbefore
  exact hbefore.elim (lt_irrefl _) fun hlt => List.lt_irrefl _ hlt.2

/-- A query with a negative offset for at least one pair: the first pair is missing or stands in front of
the bound. -/
theorem ZSet.Ranked.queryList_neg (h : z.Ranked es) (hsmall : es.length < 2 ^ 31) {score : Double} {key : Bytes}
    {offset : Int} {limit n : Nat} {e : Ptr × ZNode} {rest : List (Ptr × ZNode)} (hneg : offset < 0) (hlimit : limit ≠ 0)
    (hn : n = (es.takeWhile fun e => zless e.2 score key).length) (habove : membersAbove es score key = e :: rest)
    (he : es[n]? = some e) :
    pairsReply ((queryList es score key offset limit).map Prod.snd) ≠
      pairsReply (((membersAbove es score key).take limit).map Prod.snd) := by
  obtain ⟨l, rfl⟩ : ∃ l, limit = l + 1 := ⟨limit - 1, by omega⟩
  have hlen : (membersAbove es score key).length ≤ es.length := List.length_filter_le _ _
  have hslice : ((membersAbove es score key).take (l + 1)).map Prod.snd = e.2 :: (rest.take l).map Prod.snd := by
    rw [habove, List.take_succ_cons, List.map_cons]
  rw [queryList, if_neg (habove ▸ List.cons_ne_nil e rest), ← hn, hslice]
  by_cases hstart : 0 ≤ (n : Int) + offset
  · have hin : n < es.length := (List.getElem?_eq_some_iff.mp he).1
    have hi : (n + offset : Int).toNat < es.length := by omega
    obtain ⟨m, hm⟩ : ∃ m, (l + 1 + 1) / 2 = m + 1 := ⟨(l + 1 + 1) / 2 - 1, by omega⟩
    rw [if_pos hstart, hm, List.drop_eq_getElem_cons hi, List.take_succ_cons, List.map_cons]
    exact h.reply_ne (List.getElem?_eq_getElem hi) he (by omega) _ _
  · intro heq
    rw [if_neg hstart] at heq
    rw [habove, List.length_cons] at hlen
    have hcount := pairsReply_length (by simp) (by simp; omega) heq
    simp at hcount

theorem ZSet.Ranked.queryList_iff (h : z.Ranked es) (hsmall : es.length < 2 ^ 31) (score : Double) (key : Bytes)
    (offset : Int) (limit : Nat) :
    pairsReply ((queryList es score key offset limit).map Prod.snd) =
        pairsReply ((((membersAbove es score key).drop offset.toNat).take limit).map Prod.snd) ↔
      membersAbove es score key = [] ∨ limit = 0 ∨ 0 ≤ offset ∧ (limit ≤ 1 ∨
        (membersAbove es score key).length - offset.toNat ≤ (limit + 1) / 2) := by
  obtain ⟨n, hn⟩ : ∃ n, n = (es.takeWhile fun e => zless e.2 score key).length := ⟨_, rfl⟩
  have hdrop : es.drop n = membersAbove es score key := by rw [hn, drop_takeWhile, h.dropWhile_eq]
  have hlen : (membersAbove es score key).length ≤ es.length := List.length_filter_le _ _
  cases habove : membersAbove es score key with
  | nil => simp [queryList, habove]
  | cons e rest =>
    have he : es[n]? = some e := by rw [← List.head?_drop, hdrop, habove, List.head?_cons]
    have hne : membersAbove es score key ≠ [] := habove ▸ List.cons_ne_nil e rest
    rw [← habove]
    simp only [hne, false_or]
    rcases Int.lt_or_le offset 0 with hneg | hpos
    · have hzero : offset.toNat = 0 := Int.toNat_of_nonpos hneg.le
      rw [hzero, List.drop_zero]
      by_cases hlimit : limit = 0
      · simp [hlimit, queryList]
      · have hreply := h.queryList_neg hsmall hneg hlimit hn habove he
        simp only [hreply, hlimit, false_or, false_iff]
        omega
    · have hstart : (n + offset : Int).toNat = n + offset.toNat := by omega
      rw [queryList, if_neg hne, ← hn, if_pos (by omega), hstart, ← List.drop_drop, hdrop]
      have hcount : pairsReply ((((membersAbove es score key).drop offset.toNat).take ((limit + 1) / 2)).map Prod.snd) =
          pairsReply ((((membersAbove es score key).drop offset.toNat).take limit).map Prod.snd) ↔
          min ((limit + 1) / 2) ((membersAbove es score key).length - offset.toNat) =
            min limit ((membersAbove es score key).length - offset.toNat) := by
        constructor
        · intro heq
          have hcount := pairsReply_length (by simp; omega) (by simp; omega) heq
          simpa using hcount
        · intro heq
          rw [← List.length_drop] at heq
          exact congrArg (fun l => pairsReply (l.map Prod.snd)) (List.take_eq_take_iff.mpr heq)
      rw [hcount]
      omega

end Query

/-- The reply is the slice that was asked for exactly if nothing is asked for, or the offset is not
negative and half the limit, rounded up, is enough for the members behind it. -/
theorem doZrangequery_slice_iff {z : ZSet} {es : List (Ptr × ZNode)} {g : GlobalData} {out : Bytes} {cmd : List Bytes}
    (h : z.Ranked es) (hsmall : es.length < 2 ^ 31) (hcmd : 4 ≤ cmd.length)
    (hset : findZset g (keyOf cmd) = .ok (some z)) :
    (∃ r, doZrangequery g out cmd = .ok r ∧
      r.out = out ++ pairsReply ((((membersAbove es (strtod (cmd.getD 2 [])) (cmd.getD 3 [])).drop
        (queryOffset cmd).toNat).take (queryLimit cmd)).map Prod.snd)) ↔
    membersAbove es (strtod (cmd.getD 2 [])) (cmd.getD 3 []) = [] ∨ queryLimit cmd = 0 ∨
      0 ≤ queryOffset cmd ∧ (queryLimit cmd ≤ 1 ∨
        (membersAbove es (strtod (cmd.getD 2 [])) (cmd.getD 3 [])).length - (queryOffset cmd).toNat ≤
          (queryLimit cmd + 1) / 2) := by
  rw [← h.queryList_iff hsmall, doZrangequery_eq h hsmall hcmd hset]
  simp

/-- The members of the example, with scores 1 and 2. -/
def twoMembers : List (Ptr × ZNode) :=
  [(0, ⟨strtod (text "1"), text "a", strHash (text "a")⟩), (1, ⟨strtod (text "2"), text "b", strHash (text "b")⟩)]

theorem twoMembers_run : ∃ g z, Run.run serverStep {} [.request {} (.ofTexts ["zadd", "z", "1", "a"]),
    .request {} (.ofTexts ["zadd", "z", "2", "b"])] = .ok g ∧ findZset g (text "z") = .ok (some z) ∧
    z.Ranked twoMembers := by
  obtain ⟨g, hrun, hcheck⟩ := Run.exists_ok_of_check (x := Run.run serverStep {}
      [.request {} (.ofTexts ["zadd", "z", "1", "a"]), .request {} (.ofTexts ["zadd", "z", "2", "b"])])
    (p := fun g => Run.check (findZset g (text "z")) fun z => decide (∃ s ∈ z, s.avlRoot = some 0 ∧
      s.tree.read 0 = some ⟨none, none, some 1, 2, 2⟩ ∧ s.tree.read 1 = some ⟨some 0, none, none, 1, 1⟩ ∧
      ∀ e ∈ twoMembers, s.data.read e.1 = some e.2)) (by decide +kernel)
  obtain ⟨z, hset, hcheck⟩ := Run.exists_ok_of_check hcheck
  obtain ⟨s, hs, hroot, htop, hright, hdata⟩ := of_decide_eq_true hcheck
  obtain rfl : z = some s := hs
  refine ⟨g, s, hrun, hset, ?_, hdata, by decide +kernel, by decide +kernel, by unfold Brief; decide +kernel⟩
  exact ⟨node 0 nil (node 1 nil nil), hroot, ⟨⟨2, htop⟩, trivial, ⟨1, hright⟩, trivial, trivial⟩, rfl⟩

/-- A limit of two pairs, and two members: one pair comes back. -/
theorem zquery_limit_halved : ∃ g z, findZset g (text "z") = .ok (some z) ∧ z.Ranked twoMembers ∧
    ¬∃ r, doZrangequery g [] (["zquery", "z", "0", "a", "0", "2"].map text) = .ok r ∧
      r.out = pairsReply ((((membersAbove twoMembers (strtod (text "0")) (text "a")).drop 0).take 2).map Prod.snd) := by
  obtain ⟨g, z, -, hset, hranked⟩ := twoMembers_run
  refine ⟨g, z, hset, hranked, ?_⟩
  rw [doZrangequery_eq hranked (by decide) (by decide) hset]
  rintro ⟨r, hrun, hout⟩
  cases hrun
  dsimp only at hout
  revert hout
  decide +kernel

/-- Without a limit both members are listed. -/
theorem doZrangequery_slice_all : ∃ g z, findZset g (text "z") = .ok (some z) ∧
    ∃ r, doZrangequery g [] (["zquery", "z", "0", "a"].map text) = .ok r ∧
      r.out = pairsReply (twoMembers.map Prod.snd) := by
  obtain ⟨g, z, -, hset, hranked⟩ := twoMembers_run
  obtain ⟨r, hrun, hout⟩ := (@doZrangequery_slice_iff z _ g [] (["zquery", "z", "0", "a"].map text) hranked
    (by decide) (by decide) hset).mpr (by decide +kernel)
  exact ⟨g, z, hset, r, hrun, hout.trans (by decide +kernel)⟩

end CustomRedis
