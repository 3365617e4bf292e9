import CustomRedis.Proof.Zset
import CustomRedis.Lib.Run

/-!
# Runs of a sorted set

A sorted set that starts empty and takes inserts and removals, in the way the handlers make them. What
a run leaves behind is compared with the score of the last insert of each member.
-/

namespace CustomRedis

open BinaryTree KeyedList Run

inductive ZOp
  | insert (score : Double) (member : Bytes)
  /-- `zset_lookup`, and `zset_delete` of the node if there is one -/
  | delete (member : Bytes)
  deriving DecidableEq, Repr

def ZOp.Valid : ZOp → Prop
  | insert score member => score.isNaN = false ∧ ValidMember member
  | delete member => ValidMember member

/-- The member an operation names. -/
def ZOp.member : ZOp → Bytes
  | insert _ member => member
  | delete member => member

def zsetStep (z : ZSet) : ZOp → M ZSet
  | .insert score member => do
    let (z, _) ← zsetInsert z score member
    .ok z
  | .delete member => do
    match ← zsetLookup z member with
    | some znode => zsetDelete z znode
    | none => .ok z

/-- The in-order traversal of the tree. -/
def inorderAux : Nat → ZSet → Option Ptr → M (List ZNode)
  | _, _, none => .ok []
  | 0, _, some _ => .error .outOfFuel
  | fuel + 1, zset, some p => do
    let c ← zset.tree.node p
    let left ← inorderAux fuel zset c.left
    let z ← zset.znode p
    let right ← inorderAux fuel zset c.right
    .ok (left ++ z :: right)

def zsetInorder (zset : ZSet) : M (List ZNode) := inorderAux zset.tree.next zset zset.avlRoot

/-- The scores after one more operation, as a map from members. -/
def scoresStep (scores : Bytes → Option Double) : ZOp → Bytes → Option Double
  | .insert score member => Function.update scores member (some score)
  | .delete member => Function.update scores member none

/-- The score of the last insert of a member that is not followed by its removal. -/
def lastScore (ops : List ZOp) : Bytes → Option Double := ops.foldl scoresStep fun _ => none

theorem inorderAux_spec {z : ZSet} {content : Ptr → ZNode} {par : Option Ptr} {t : BinaryTree Ptr}
    (hrep : Rep z.tree par t) (hdata : ∀ q ∈ t.inorder, z.data.read q = some (content q)) {fuel : Nat}
    (hfuel : t.height ≤ fuel) : inorderAux fuel z t.root? = .ok (t.inorder.map content) := by
  induction t generalizing par fuel with
  | nil => cases fuel <;> rfl
  | node x l r hl hr =>
    rw [BinaryTree.height] at hfuel
    obtain ⟨fuel, rfl⟩ : ∃ n, fuel = n + 1 := ⟨fuel - 1, by omega⟩
    have hleft := hl hrep.2.1 (fun q hq => hdata q (by simp [hq])) (show l.height ≤ fuel by omega)
    have hright := hr hrep.2.2 (fun q hq => hdata q (by simp [hq])) (show r.height ≤ fuel by omega)
    rw [root?_node, inorderAux, node_ok hrep.1]
    simp only [bind, Except.bind, hleft, hright, ZSet.znode, hdata x (by simp)]
    simp

theorem ZSet.Holds.inorder_eq {z : ZSet} {es : List (Ptr × ZNode)} (h : z.Holds es) :
    zsetInorder z = .ok (es.map Prod.snd) := by
  obtain ⟨t, hroot, hrep, hin⟩ := h.tree
  obtain ⟨content, hcontent⟩ : ∃ f : Ptr → ZNode, ∀ e ∈ es, f e.1 = e.2 :=
    ⟨fun q => (z.data.read q).getD ⟨⟨0⟩, [], 0⟩, fun e he => by simp [h.data e he]⟩
  have hmap : t.inorder.map content = es.map Prod.snd := by
    rw [hin, List.map_map]
    exact List.map_congr_left hcontent
  rw [zsetInorder, hroot, ← hmap]
  refine inorderAux_spec hrep ?_ (t.height_le_length.trans (Mem.length_le_next (hin ▸ h.nodup) hrep.live))
  intro q hq
  obtain ⟨e, he, rfl⟩ := List.mem_map.mp (hin ▸ hq)
  rw [h.data e he, hcontent e he]

/-- The score the nodes give to a member. -/
def scoreIn (es : List (Ptr × ZNode)) (member : Bytes) : Option Double :=
  (es.find? fun e => e.2.key = member).map fun e => e.2.score

theorem ZSet.Stored.distinct {z : ZSet} {es : List (Ptr × ZNode)} (h : z.Stored es) :
    Distinct (fun e : Ptr × ZNode => e.2.key) es := by
  refine List.Nodup.map_on ?_ (List.Nodup.of_map _ h.nodup)
  intro a ha b hb hkey
  exact h.id_inj ha hb (congrArg keyId hkey)

theorem scoreIn_perm {z : ZSet} {es es' : List (Ptr × ZNode)} (h : z.Stored es) (hp : es.Perm es') (member : Bytes) :
    scoreIn es member = scoreIn es' member :=
  congrArg _ (at?_perm h.distinct hp member)

theorem scoreIn_filter (es : List (Ptr × ZNode)) (key member : Bytes) :
    scoreIn (es.filter fun e => e.2.key ≠ key) member = if member = key then none else scoreIn es member := by
  have hat : at? (fun e : Ptr × ZNode => e.2.key) (es.filter fun e => e.2.key ≠ key) member = _ :=
    at?_filter_ne es key member
  rw [scoreIn, ← at?, hat]
  by_cases hk : member = key
  · rw [if_pos hk, if_pos hk]
    rfl
  · rw [if_neg hk, if_neg hk]
    rfl

/-- One operation on the set is one operation on the map of scores, as long as the members that are named
differ in hash or C string. -/
theorem zsetStep_stored {z : ZSet} {es : List (Ptr × ZNode)} {U : Set Bytes} (h : z.Stored es) (hU : Set.InjOn keyId U)
    (hes : ∀ e ∈ es, e.2.key ∈ U) {op : ZOp} (hop : op.member ∈ U) (hshort : 2 * op.member.length ≤ maxStrSize)
    (hscore : ∀ score member, op = .insert score member → score.isNaN = false) :
    ∃ z' es', zsetStep z op = .ok z' ∧ z'.Stored es' ∧ (∀ e ∈ es', e.2.key ∈ U) ∧
      scoreIn es' = scoresStep (scoreIn es) op := by
  cases op with
  | insert score member =>
    rw [ZOp.member] at hop hshort
    obtain ⟨z', es', p, hrun, hstored, hperm⟩ := zsetInsert_stored h hshort (hscore score member rfl)
    rw [filter_id hU hes hop] at hperm
    refine ⟨z', es', ?_, hstored, ?_, ?_⟩
    · rw [zsetStep, hrun]
      rfl
    · intro e he
      rcases List.mem_cons.mp (hperm.mem_iff.mp he) with rfl | he
      · exact hop
      · exact hes e (List.mem_of_mem_filter he)
    · funext m
      rw [scoreIn_perm hstored hperm, scoreIn, List.find?_cons]
      by_cases hm : member = m
      · subst hm
        simp [scoresStep]
      · have hkept := scoreIn_filter es member m
        rw [if_neg (Ne.symm hm)] at hkept
        rw [scoresStep, Function.update_of_ne (Ne.symm hm), ← hkept]
        simp only [hm, decide_false]
        rfl
  | delete member =>
    rw [ZOp.member] at hop hshort
    rw [zsetStep, zsetLookup_stored h hshort, find_id hU hes hop]
    cases hmember : es.find? fun e => e.2.key = member with
    | none =>
      refine ⟨z, es, rfl, h, hes, ?_⟩
      funext m
      by_cases hm : m = member
      · subst hm
        simp [scoresStep, scoreIn, hmember]
      · simp [scoresStep, Function.update_of_ne hm]
    | some e =>
      have he := List.mem_of_find?_eq_some hmember
      have hek : e.2.key = member := by simpa using List.find?_some hmember
      obtain ⟨z', hrun, hstored⟩ := zsetDelete_stored h he
      rw [h.filter_fst_ne he, filter_id hU hes (hes e he), hek] at hstored
      refine ⟨z', _, hrun, hstored, fun e he => hes e (List.mem_of_mem_filter he), ?_⟩
      funext m
      rw [scoreIn_filter]
      by_cases hm : m = member
      · subst hm
        simp [scoresStep]
      · simp [scoresStep, hm]

theorem zsetStep_spec {z : ZSet} {es : List (Ptr × ZNode)} (h : z.Holds es) {op : ZOp} (hop : op.Valid) :
    ∃ z' es', zsetStep z op = .ok z' ∧ z'.Holds es' ∧ scoreIn es' = scoresStep (scoreIn es) op := by
  have hmember : ValidMember op.member := by
    cases op with
    | insert score member => exact hop.2
    | delete member => exact hop
  have hscore : ∀ score member, op = .insert score member → score.isNaN = false := by
    rintro score member rfl
    exact hop.1
  obtain ⟨z', es', hrun, hstored, hnul, hscores⟩ :=
    zsetStep_stored h.toStored injOn_noNul h.noNul hmember.noNul hmember.short hscore
  exact ⟨z', es', hrun, hstored.holds hnul, hscores⟩

/-- The tree and the member map after any run: the tree is in order, both hold the same members, and a
lookup finds the score of the last insert. -/
theorem zset_run_consistent (ops : List ZOp) (hops : ∀ op ∈ ops, op.Valid) :
    ∃ z nodes, run zsetStep {} ops = .ok z ∧ zsetInorder z = .ok nodes ∧ nodes.Pairwise ZNode.Before ∧
      (nodes.map ZNode.key).Nodup ∧ (hmKeys z.hmap).Nodup ∧
      (∀ member, member ∈ nodes.map ZNode.key ↔ member ∈ hmKeys z.hmap) ∧
      ∀ member, ValidMember member →
        (match lastScore ops member with
          | some score => ∃ p n, zsetLookup z member = .ok (some p) ∧ z.znode p = .ok n ∧ n ∈ nodes ∧
              n.key = member ∧ n.score = score
          | none => zsetLookup z member = .ok none) ∧
        ∀ score, score.isNaN = false →
          ∃ z', zsetInsert z score member = .ok (z', (lastScore ops member).isNone) := by
  have hstep : ∀ z scores op, (∃ es, ZSet.Holds z es ∧ scoreIn es = scores) → ZOp.Valid op →
      ∃ z', zsetStep z op = .ok z' ∧ ∃ es, ZSet.Holds z' es ∧ scoreIn es = scoresStep scores op := by
    rintro z scores op ⟨es, hholds, rfl⟩ hop
    obtain ⟨z', es', hrun, hholds', hscores⟩ := zsetStep_spec hholds hop
    exact ⟨z', hrun, es', hholds', hscores⟩
  obtain ⟨z, hrun, es, hholds, hscores⟩ := simulate
    (R := fun z scores => ∃ es, ZSet.Holds z es ∧ scoreIn es = scores) hstep
    (s := {}) (t := fun _ => none) ⟨[], ZSet.Holds.empty, rfl⟩ hops
  have hkeys : (hmKeys z.hmap).Perm ((es.map Prod.snd).map ZNode.key) := by
    rw [hmKeys_eq, List.map_map]
    have hmapped := hholds.nodes.map HNode.key
    rwa [List.map_map] at hmapped
  have hnodup : ((es.map Prod.snd).map ZNode.key).Nodup := by
    rw [List.map_map]
    exact hholds.toStored.distinct
  refine ⟨z, es.map Prod.snd, hrun, hholds.inorder_eq, ?_, hnodup, hkeys.nodup_iff.mpr hnodup,
    fun member => hkeys.mem_iff.symm, fun member hmember => ?_⟩
  · rw [List.pairwise_map]
    exact hholds.sorted
  have hlast : lastScore ops member = scoreIn es member := (congrFun hscores member).symm
  rw [hlast, zsetLookup_spec hholds hmember, scoreIn]
  refine ⟨?_, fun score hscore => ?_⟩
  · cases hfind : es.find? fun e => e.2.key = member with
    | none => rfl
    | some e =>
      have he := List.mem_of_find?_eq_some hfind
      refine ⟨e.1, e.2, rfl, ?_, List.mem_map_of_mem he, by simpa using List.find?_some hfind, rfl⟩
      rw [ZSet.znode, hholds.data e he]
  · obtain ⟨z', -, -, hins, -, -⟩ := zsetInsert_spec hholds hmember hscore
    exact ⟨z', by rw [hins, Option.isNone_map]⟩

/-- Two members, one of them inserted again with a larger score, and the other removed. -/
theorem zset_run_consistent_update :
    ∃ z nodes, run zsetStep {} [.insert (strtod [50]) [97], .insert (strtod [51]) [98], .insert (strtod [52]) [97],
        .delete [98]] = .ok z ∧ zsetInorder z = .ok nodes ∧ nodes.Pairwise ZNode.Before := by
  obtain ⟨z, nodes, hrun, hin, hsorted, -⟩ := zset_run_consistent [.insert (strtod [50]) [97],
    .insert (strtod [51]) [98], .insert (strtod [52]) [97], .delete [98]] (by
      intro op hop
      simp only [List.mem_cons, List.not_mem_nil, or_false] at hop
      rcases hop with rfl | rfl | rfl | rfl
      · exact ⟨by decide +kernel, by decide, by decide⟩
      · exact ⟨by decide +kernel, by decide, by decide⟩
      · exact ⟨by decide +kernel, by decide, by decide⟩
      · exact ⟨by decide, by decide⟩)
  exact ⟨z, nodes, hrun, hin, hsorted⟩

end CustomRedis
