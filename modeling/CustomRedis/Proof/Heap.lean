import CustomRedis.Model.Heap
import CustomRedis.Lib.Run

/-!
# Sifting keeps the back references

A sift moves a hole through the vector: at every moment the vector with the moving entry in the hole holds
the entries it held before, and every entry outside the hole stores its own index. `Hole` is that
invariant. Both sifts move the hole by the same write, so one lemma about it serves both. The order of the
deadlines plays no part here.

`heap_parent` is exact as long as its result fits in an `int32_t`, that is, for positions up to `2 ^ 32`.
Beyond them it is negative, and so no index, or the index of another entry. A vector has fewer than `2 ^ 63`
entries, so the positions of children do not wrap.
-/

namespace CustomRedis

open Run (ok_of_bind)

/-- Every entry stores its own index. -/
def Heap.Coherent (h : Heap) : Prop := ∀ i e, h.entries[i]? = some e → h.refs.read e.posRef = some i

/-- The greatest number of entries whose positions `heap_parent` can handle. -/
def heapLimit : Nat := 2 ^ 32 + 1

/-- `heap_parent` of the position is not negative. -/
def ParentFits (pos : Nat) : Prop := (pos - 1) / 2 % 2 ^ 32 < 2 ^ 31

theorem parentFits_of_lt {pos : Nat} (hle : pos < heapLimit) : ParentFits pos := by
  unfold heapLimit at hle
  unfold ParentFits
  omega

theorem heapParent_of_fits {pos : Nat} (hpos : 0 < pos) (hlt : pos < 2 ^ 63) (hfits : ParentFits pos) :
    heapParent pos = (pos - 1) / 2 % 2 ^ 32 := by
  unfold ParentFits at hfits
  have hsub : (pos + (2 ^ 64 - 1)) % 2 ^ 64 = pos - 1 := by omega
  rw [heapParent, hsub, toU64, toI32]
  omega

theorem heapParent_of_not_fits {pos : Nat} (hpos : 0 < pos) (hlt : pos < 2 ^ 63) (hfits : ¬ParentFits pos) :
    2 ^ 63 ≤ heapParent pos := by
  unfold ParentFits at hfits
  have hsub : (pos + (2 ^ 64 - 1)) % 2 ^ 64 = pos - 1 := by omega
  rw [heapParent, hsub, toU64, toI32]
  omega

theorem heapParent_eq {pos : Nat} (hpos : 0 < pos) (hle : pos < heapLimit) : heapParent pos = (pos - 1) / 2 := by
  have hfits := parentFits_of_lt hle
  unfold heapLimit at hle
  rw [heapParent_of_fits hpos (by omega) hfits]
  omega

theorem heapLeft_eq {pos : Nat} (hlt : pos + 1 < 2 ^ 63) : heapLeft pos = 2 * pos + 1 := by
  rw [heapLeft]
  omega

theorem heapRight_eq {pos : Nat} (hlt : pos + 1 < 2 ^ 63) : heapRight pos = 2 * pos + 2 := by
  rw [heapRight]
  omega

theorem Heap.Coherent.nodup {h : Heap} (hc : h.Coherent) : (h.entries.map HeapNode.posRef).Nodup := by
  rw [List.nodup_iff_injective_get]
  intro i j hij
  have hi := hc i.val (h.entries.get ⟨i.val, by simpa using i.isLt⟩) (by simp)
  have hj := hc j.val (h.entries.get ⟨j.val, by simpa using j.isLt⟩) (by simp)
  simp only [List.get_eq_getElem, List.getElem_map] at hij
  simp only [List.get_eq_getElem] at hi hj
  rw [hij, hj] at hi
  exact Fin.ext (Option.some.inj hi).symm

theorem Heap.Coherent.live {h : Heap} (hc : h.Coherent) : ∀ e ∈ h.entries, (h.refs.read e.posRef).isSome := by
  intro e he
  obtain ⟨i, hi⟩ := List.mem_iff_getElem?.mp he
  simp [hc i e hi]

/-- What a sift leaves of the heap it started from. -/
structure Heap.Settled (orig h : Heap) : Prop where
  coherent : h.Coherent
  perm : h.entries.Perm orig.entries
  frame : ∀ p, p ∉ orig.entries.map HeapNode.posRef → h.refs.read p = orig.refs.read p
  live : ∀ p, (h.refs.read p).isSome = (orig.refs.read p).isSome

/-- The heap while `node` is on its way and `pos` is the hole. -/
structure Heap.Hole (orig : Heap) (node : HeapNode) (h : Heap) (pos : Nat) : Prop where
  lt : pos < h.entries.length
  perm : (h.entries.set pos node).Perm orig.entries
  refs : ∀ i e, i ≠ pos → h.entries[i]? = some e → h.refs.read e.posRef = some i
  frame : ∀ p, p ∉ orig.entries.map HeapNode.posRef → h.refs.read p = orig.refs.read p
  live : ∀ p, (h.refs.read p).isSome = (orig.refs.read p).isSome

section Sift

variable {orig : Heap} (hnodup : (orig.entries.map HeapNode.posRef).Nodup)
  (hlive : ∀ e ∈ orig.entries, (orig.refs.read e.posRef).isSome)

include hnodup in
/-- Two places of the vector, the hole filled, never refer to the same node. -/
theorem Heap.Hole.posRef_ne {node : HeapNode} {h : Heap} {pos : Nat} (hh : orig.Hole node h pos) {i j : Nat}
    {e c : HeapNode} (hij : i ≠ j) (hi : (h.entries.set pos node)[i]? = some e)
    (hj : (h.entries.set pos node)[j]? = some c) : e.posRef ≠ c.posRef := by
  intro hne
  have hnd := (hh.perm.map HeapNode.posRef).nodup_iff.mpr hnodup
  obtain ⟨hilt, -⟩ := List.getElem?_eq_some_iff.mp hi
  refine hij ((List.getElem?_inj (by simpa using hilt) hnd).mp ?_)
  rw [List.getElem?_map, List.getElem?_map, hi, hj, Option.map_some, Option.map_some, hne]

include hlive in
theorem Heap.Hole.put_ok {node : HeapNode} {h : Heap} {pos : Nat} (hh : orig.Hole node h pos) {c : HeapNode}
    (hc : c ∈ orig.entries) :
    h.put pos c = .ok ⟨h.entries.set pos c, h.refs.set c.posRef pos⟩ ∧ c.posRef < h.refs.next ∧
      (∀ p, p ∉ orig.entries.map HeapNode.posRef → (h.refs.set c.posRef pos).read p = orig.refs.read p) ∧
      ∀ p, ((h.refs.set c.posRef pos).read p).isSome = (orig.refs.read p).isSome := by
  have hsome : (h.refs.read c.posRef).isSome := by
    rw [hh.live]
    exact hlive c hc
  obtain ⟨v, hv⟩ := Option.isSome_iff_exists.mp hsome
  refine ⟨by rw [Heap.put, if_pos hh.lt, if_pos hsome], Mem.lt_next_of_read hv, fun p hp => ?_, fun p => ?_⟩
  · rw [Mem.read_set_ne (by rintro rfl; exact hp (List.mem_map_of_mem hc)), hh.frame p hp]
  · rw [Mem.isSome_read_set hsome, hh.live]

include hnodup hlive in
/-- The moving entry is put into the hole. -/
theorem Heap.Hole.finish {node : HeapNode} {h : Heap} {pos : Nat} (hh : orig.Hole node h pos) :
    ∃ h', h.put pos node = .ok h' ∧ orig.Settled h' := by
  have hself : (h.entries.set pos node)[pos]? = some node := List.getElem?_set_self hh.lt
  obtain ⟨hput, hnext, hframe, hlive'⟩ := hh.put_ok hlive
    (hh.perm.mem_iff.mp (List.mem_of_getElem? hself))
  refine ⟨_, hput, ?_, hh.perm, hframe, hlive'⟩
  intro i e hi
  by_cases hpos : i = pos
  · subst hpos
    rw [show e = node from Option.some.inj (hi.symm.trans hself)]
    exact Mem.read_set_self hnext _
  · have hne := hh.posRef_ne hnodup hpos hi hself
    rw [Mem.read_set_ne hne]
    exact hh.refs i e hpos (by simpa [List.getElem?_set_ne (Ne.symm hpos)] using hi)

/-- The filled vector keeps its entries when the entry at `j` moves into the hole and `j` becomes the hole. -/
theorem hole_perm {l : List HeapNode} {pos j : Nat} {node c : HeapNode} (hpos : pos < l.length) (hj : j ≠ pos)
    (hc : l[j]? = some c) : ((l.set pos c).set j node).Perm (l.set pos node) := by
  obtain ⟨hjlt, hjc⟩ := List.getElem?_eq_some_iff.mp hc
  have hswap := List.set_set_perm (show pos < (l.set pos node).length by simpa using hpos)
    (show j < (l.set pos node).length by simpa using hjlt)
  simpa only [List.getElem_set_self, List.getElem_set_ne (Ne.symm hj), hjc, List.set_set] using hswap

include hnodup hlive in
/-- The entry at `j` is moved into the hole, and `j` becomes the hole. -/
theorem Heap.Hole.move {node : HeapNode} {h : Heap} {pos j : Nat} (hh : orig.Hole node h pos) (hj : j ≠ pos)
    {c : HeapNode} (hc : h.entries[j]? = some c) :
    ∃ h', h.put pos c = .ok h' ∧ orig.Hole node h' j ∧ h'.entries.length = h.entries.length := by
  have hjlt := (List.getElem?_eq_some_iff.mp hc).1
  have hfilled : (h.entries.set pos node)[j]? = some c := by rw [List.getElem?_set_ne (Ne.symm hj), hc]
  obtain ⟨hput, hnext, hframe, hlive'⟩ := hh.put_ok hlive (hh.perm.mem_iff.mp (List.mem_of_getElem? hfilled))
  refine ⟨_, hput, ⟨by simpa using hjlt, ?_, ?_, hframe, hlive'⟩, by simp⟩
  · exact (hole_perm hh.lt hj hc).trans hh.perm
  · intro i e hij hi
    by_cases hpos : i = pos
    · subst hpos
      rw [List.getElem?_set_self hh.lt] at hi
      rw [← Option.some.inj hi]
      exact Mem.read_set_self hnext _
    · rw [List.getElem?_set_ne (Ne.symm hpos)] at hi
      have hne := hh.posRef_ne hnodup hij (by rw [List.getElem?_set_ne (Ne.symm hpos), hi]) hfilled
      rw [Mem.read_set_ne hne]
      exact hh.refs i e hpos hi

include hnodup hlive in
theorem heapUpAux_spec {node : HeapNode} {h : Heap} {pos fuel : Nat} (hh : orig.Hole node h pos)
    (hsize : h.entries.length < 2 ^ 63) (hfits : 0 < pos → ParentFits pos) (hfuel : pos < fuel) :
    ∃ h', heapUpAux fuel h node pos = .ok h' ∧ orig.Settled h' := by
  induction fuel generalizing h pos with
  | zero => omega
  | succ fuel ih =>
    rw [heapUpAux]
    by_cases hpos : pos > 0
    · have hposlt := hh.lt
      have hsmall : heapParent pos < 2 ^ 31 ∧ heapParent pos < pos := by
        have hfitted := hfits hpos
        rw [heapParent_of_fits hpos (by omega) hfitted]
        unfold ParentFits at hfitted
        omega
      obtain ⟨q, hq⟩ : ∃ q, q = heapParent pos := ⟨_, rfl⟩
      rw [← hq] at hsmall
      have hlt : q < h.entries.length := by omega
      have hget : h.entries[q]? = some (h.entries.get ⟨q, hlt⟩) := by simp
      simp only [if_pos hpos, ← hq, Heap.get, hget, bind, Except.bind]
      by_cases hle : node.val ≤ (h.entries.get ⟨q, hlt⟩).val
      · obtain ⟨h₁, hput, hhole, hlen⟩ := hh.move hnodup hlive (j := q) (by omega) hget
        simp only [if_pos hle, hput]
        refine ih hhole (by omega) (fun _ => ?_) (by omega)
        unfold ParentFits
        omega
      · simp only [if_neg hle]
        exact hh.finish hnodup hlive
    · rw [if_neg hpos]
      exact hh.finish hnodup hlive

/-- Where a smaller child exists, the left one does. -/
theorem nextPos_lt {h : Heap} {node : HeapNode} {pos : Nat} (hlim : pos + 1 < 2 ^ 63)
    (hmin : node.val ≠ minVal h node pos) : 2 * pos + 1 < h.entries.length := by
  by_contra hge
  apply hmin
  rw [minVal, heapLeft_eq hlim, heapRight_eq hlim, List.getElem?_eq_none (by omega),
    List.getElem?_eq_none (by omega)]

theorem nextPos_eq (h : Heap) (pos : Nat) : nextPos h pos = heapLeft pos := by
  unfold nextPos
  split
  · rw [ite_self]
  · rfl

include hnodup hlive in
theorem heapDownAux_spec {node : HeapNode} {h : Heap} {pos fuel : Nat} (hh : orig.Hole node h pos)
    (hsize : h.entries.length < 2 ^ 63) (hfuel : h.entries.length < fuel + pos) :
    ∃ h', heapDownAux fuel h node pos = .ok h' ∧ orig.Settled h' := by
  induction fuel generalizing h pos with
  | zero =>
    have hlt := hh.lt
    omega
  | succ fuel ih =>
    have hposlt := hh.lt
    rw [heapDownAux]
    by_cases hmin : node.val ≠ minVal h node pos
    · have hleft := nextPos_lt (by omega) hmin
      have hget : h.entries[2 * pos + 1]? = some (h.entries.get ⟨2 * pos + 1, hleft⟩) := by simp
      obtain ⟨h₁, hput, hhole, hlen⟩ := hh.move hnodup hlive (j := 2 * pos + 1) (by omega) hget
      rw [if_pos ⟨hposlt, hmin⟩]
      simp only [nextPos_eq, heapLeft_eq (show pos + 1 < 2 ^ 63 by omega), Heap.get, hget, bind, Except.bind, hput]
      exact ih hhole (by omega) (by omega)
    · rw [if_neg fun hboth => hmin hboth.2]
      exact hh.finish hnodup hlive

include hnodup hlive in
/-- `heap_fix` settles a heap in which only the entry at `pos` may store a wrong index. -/
theorem heapFix_spec {pos : Nat} (hpos : pos < orig.entries.length) (hsize : orig.entries.length < 2 ^ 63)
    (hfits : 0 < pos → ParentFits pos)
    (hrefs : ∀ i e, i ≠ pos → orig.entries[i]? = some e → orig.refs.read e.posRef = some i) :
    ∃ h', heapFix orig pos = .ok h' ∧ orig.Settled h' := by
  have hget : orig.entries[pos]? = some (orig.entries.get ⟨pos, hpos⟩) := by simp
  have hhole : orig.Hole (orig.entries.get ⟨pos, hpos⟩) orig pos :=
    ⟨hpos, by simp, hrefs, fun _ _ => rfl, fun _ => rfl⟩
  obtain ⟨hu, hup, hsu⟩ := heapUpAux_spec hnodup hlive hhole hsize hfits (show pos < pos + 1 by omega)
  obtain ⟨hd, hdown, hsd⟩ := heapDownAux_spec hnodup hlive hhole hsize
    (show orig.entries.length < orig.entries.length + 1 + pos by omega)
  have hup' : heapUp orig pos = .ok hu := by
    rw [heapUp, Heap.get, hget]
    exact hup
  have hdown' : heapDown orig pos = .ok hd := by
    rw [heapDown, Heap.get, hget]
    exact hdown
  rw [heapFix, Heap.get, hget]
  simp only [bind, Except.bind]
  by_cases hzero : pos > 0
  · have hlt : heapParent pos < orig.entries.length := by
      rw [heapParent_of_fits hzero (by omega) (hfits hzero)]
      omega
    have hgetp : orig.entries[heapParent pos]? = some (orig.entries.get ⟨heapParent pos, hlt⟩) := by simp
    simp only [if_pos hzero, Heap.get, hgetp, hup', if_pos hpos, hdown']
    split
    · exact ⟨hu, rfl, hsu⟩
    · exact ⟨hd, rfl, hsd⟩
  · rw [if_neg hzero, if_pos hpos]
    exact ⟨hd, hdown', hsd⟩

end Sift

/-! ### Setting and removing a deadline -/

/-- Above the limit the index of the parent is negative, and the entry cannot be pushed. -/
theorem setTtl_full {h : Heap} (hfull : h.entries.length = heapLimit) (now ttl : Nat) (node : Ptr) :
    setTtl h now node ttl = .error .outOfBounds := by
  unfold heapLimit at hfull
  have hget : (h.entries ++ [(⟨(now + ttl) % 2 ^ 64, node⟩ : HeapNode)])[h.entries.length]? =
      some ⟨(now + ttl) % 2 ^ 64, node⟩ := by simp
  have hparent : heapParent h.entries.length = 2 ^ 64 - 2 ^ 31 := by
    rw [hfull]
    decide
  have hnone : (h.entries ++ [(⟨(now + ttl) % 2 ^ 64, node⟩ : HeapNode)])[2 ^ 64 - 2 ^ 31]? = none := by
    rw [List.getElem?_eq_none]
    rw [List.length_append, hfull, List.length_singleton]
    decide
  rw [setTtl, heapFix, Heap.get, hget]
  simp only [bind, Except.bind, hparent, Heap.get, hnone]
  rw [if_pos (by omega)]

/-- `set_ttl` for a node that has no entry yet. -/
theorem setTtl_spec {h h' : Heap} (hc : h.Coherent) (hlim : h.entries.length ≤ heapLimit) {now ttl : Nat}
    {node : Ptr} (hnew : node ∉ h.entries.map HeapNode.posRef) (hlive : (h.refs.read node).isSome)
    (hrun : setTtl h now node ttl = .ok h') :
    h'.Coherent ∧ h'.entries.Perm (⟨(now + ttl) % 2 ^ 64, node⟩ :: h.entries) ∧ h'.entries.length ≤ heapLimit ∧
      (∀ p, p ∉ node :: h.entries.map HeapNode.posRef → h'.refs.read p = h.refs.read p) ∧
      ∀ p, (h'.refs.read p).isSome = (h.refs.read p).isSome := by
  have hroom : h.entries.length < heapLimit := by
    rcases Nat.lt_or_eq_of_le hlim with hlt | hfull
    · exact hlt
    · rw [setTtl_full hfull] at hrun
      cases hrun
  have hperm : (h.entries ++ [(⟨(now + ttl) % 2 ^ 64, node⟩ : HeapNode)]).Perm (⟨(now + ttl) % 2 ^ 64, node⟩ :: h.entries) :=
    List.perm_append_singleton _ _
  obtain ⟨h₁, hfix, hs⟩ := @heapFix_spec ⟨h.entries ++ [⟨(now + ttl) % 2 ^ 64, node⟩], h.refs⟩
    (by
      rw [(hperm.map HeapNode.posRef).nodup_iff, List.map_cons, List.nodup_cons]
      exact ⟨hnew, hc.nodup⟩)
    (by
      intro e he
      rcases List.mem_cons.mp (hperm.mem_iff.mp he) with rfl | he
      · exact hlive
      · exact hc.live e he)
    h.entries.length (by simp)
    (by
      unfold heapLimit at hroom
      simp
      omega)
    (fun _ => parentFits_of_lt hroom)
    (by
      intro i e hi hget
      have hlt : i < h.entries.length := by
        obtain ⟨hlt, -⟩ := List.getElem?_eq_some_iff.mp hget
        simp at hlt
        omega
      rw [List.getElem?_append_left hlt] at hget
      exact hc i e hget)
  obtain rfl : h₁ = h' := by
    rw [setTtl, hfix] at hrun
    exact Except.ok.inj hrun
  refine ⟨hs.coherent, hs.perm.trans hperm, ?_, fun p hp => hs.frame p ?_, hs.live⟩
  · rw [hs.perm.length_eq]
    simpa using hroom
  · rwa [(hperm.map HeapNode.posRef).mem_iff]

/-- The last entry takes the place of the removed one. -/
theorem dropLast_set_perm {l : List HeapNode} {i : Nat} (hi : i < l.length) {back : HeapNode}
    (hback : l.getLast? = some back) : (l.set i back).dropLast.Perm (l.eraseIdx i) := by
  obtain ⟨init, rfl⟩ := List.getLast?_eq_some_iff.mp hback
  by_cases hlt : i < init.length
  · rw [List.set_append_left _ _ hlt, List.dropLast_concat, List.eraseIdx_append_of_lt_length hlt]
    have hset : init.set i back = init.take i ++ back :: init.drop (i + 1) := by
      rw [List.set_eq_take_append_cons_drop, if_pos hlt]
    rw [hset, List.eraseIdx_eq_take_drop_succ, List.append_assoc]
    exact List.Perm.append_left _ (List.perm_append_singleton _ _).symm
  · have hi' : i = init.length := by
      simp at hi
      omega
    subst hi'
    rw [List.set_append_right _ _ (Nat.le_refl _), Nat.sub_self, List.set_cons_zero, List.dropLast_concat,
      List.eraseIdx_append_of_length_le (Nat.le_refl _), Nat.sub_self, List.eraseIdx_cons_zero, List.append_nil]

/-- `rem_ttl` takes out the entry at the index the node stores, whoever that entry belongs to. -/
theorem remTtl_settles {h : Heap} (hc : h.Coherent) (hsize : h.entries.length < 2 ^ 63) {node : Ptr} {i : Nat}
    (hread : h.refs.read node = some i) (hfits : i < h.entries.length → 0 < i → ParentFits i) :
    (h.entries.length ≤ i ∧ remTtl h node = .ok h) ∨
      ∃ e h', h.entries[i]? = some e ∧ remTtl h node = .ok h' ∧ h'.Coherent ∧ h'.entries.Perm (h.entries.eraseIdx i) ∧
        (∀ p, p ∉ h.entries.map HeapNode.posRef → h'.refs.read p = h.refs.read p) ∧
        ∀ p, (h'.refs.read p).isSome = (h.refs.read p).isSome := by
  by_cases hi : i < h.entries.length
  · refine .inr ?_
    obtain ⟨back, hback⟩ : ∃ back, h.entries.getLast? = some back := by
      cases hl : h.entries.getLast? with
      | some back => exact ⟨back, rfl⟩
      | none =>
        rw [List.getLast?_eq_none_iff] at hl
        simp [hl] at hi
    obtain ⟨mid, hmid⟩ : ∃ mid : Heap, mid = ⟨(h.entries.set i back).dropLast, h.refs⟩ := ⟨_, rfl⟩
    have hperm : mid.entries.Perm (h.entries.eraseIdx i) := hmid ▸ dropLast_set_perm hi hback
    have hsub : ∀ e ∈ mid.entries, e ∈ h.entries := fun e he => List.mem_of_mem_eraseIdx (hperm.mem_iff.mp he)
    -- outside `i` the entries stand where they stood
    have hrefs : ∀ j e, j ≠ i → mid.entries[j]? = some e → mid.refs.read e.posRef = some j := by
      intro j e hj hget
      rw [hmid] at hget ⊢
      rw [List.getElem?_dropLast] at hget
      split at hget
      · rw [List.getElem?_set_ne (Ne.symm hj)] at hget
        exact hc j e hget
      · cases hget
    have hrem : remTtl h node = if i < mid.entries.length then heapFix mid i else .ok mid := by
      rw [remTtl, hread]
      simp only [hback, if_pos hi, hmid]
    refine ⟨h.entries.get ⟨i, hi⟩, ?_⟩
    by_cases hlt : i < mid.entries.length
    · obtain ⟨h', hfix, hs⟩ := @heapFix_spec mid
        ((hperm.map HeapNode.posRef).nodup_iff.mpr (hc.nodup.sublist (List.Sublist.map _ (List.eraseIdx_sublist _ _))))
        (fun e he => by rw [hmid]; exact hc.live e (hsub e he)) i hlt
        (by
          have hle := List.length_eraseIdx_le h.entries i
          rw [hperm.length_eq]
          omega)
        (hfits hi) hrefs
      refine ⟨h', by simp, by rw [hrem, if_pos hlt, hfix], hs.coherent, hs.perm.trans hperm, fun p hp => ?_, fun p => ?_⟩
      · rw [hs.frame p, hmid]
        intro hin
        obtain ⟨e, he, rfl⟩ := List.mem_map.mp hin
        exact hp (List.mem_map_of_mem (hsub e he))
      · rw [hs.live, hmid]
    · refine ⟨mid, by simp, by rw [hrem, if_neg hlt], ?_, hperm, fun p _ => by rw [hmid], fun p => by rw [hmid]⟩
      intro j e hget
      obtain ⟨hj, -⟩ := List.getElem?_eq_some_iff.mp hget
      exact hrefs j e (by omega) hget
  · refine .inl ⟨by omega, ?_⟩
    rw [remTtl, hread]
    cases h.entries.getLast? with
    | none => rfl
    | some back => simp only [if_neg hi]

theorem remTtl_spec {h : Heap} (hc : h.Coherent) (hlim : h.entries.length ≤ heapLimit) {node : Ptr} {i : Nat}
    (hread : h.refs.read node = some i) :
    (h.entries.length ≤ i ∧ remTtl h node = .ok h) ∨
      ∃ e h', h.entries[i]? = some e ∧ remTtl h node = .ok h' ∧ h'.Coherent ∧ h'.entries.Perm (h.entries.eraseIdx i) ∧
        (∀ p, p ∉ h.entries.map HeapNode.posRef → h'.refs.read p = h.refs.read p) ∧
        ∀ p, (h'.refs.read p).isSome = (h.refs.read p).isSome := by
  have hsize : h.entries.length < 2 ^ 63 := by
    unfold heapLimit at hlim
    omega
  exact remTtl_settles hc hsize hread fun hi _ => parentFits_of_lt (Nat.lt_of_lt_of_le hi hlim)

/-! ### What every sift keeps

This holds of every heap, coherent or not. A sift consists of writes of entries that it has read, so it keeps
whatever such a write keeps. -/

section Keeps

variable {J : Heap → Prop} {P : HeapNode → Prop} (hput : ∀ h h' pos node, J h → P node → h.put pos node = .ok h' → J h')
  (hget : ∀ h i e, J h → h.get i = .ok e → P e)

include hput hget

theorem heapUpAux_keeps {fuel : Nat} {h h' : Heap} {node : HeapNode} {pos : Nat} (hJ : J h) (hP : P node)
    (hrun : heapUpAux fuel h node pos = .ok h') : J h' := by
  induction fuel generalizing h pos with
  | zero => cases hrun
  | succ fuel ih =>
    rw [heapUpAux] at hrun
    split at hrun
    · obtain ⟨parent, hparent, hrun⟩ := ok_of_bind hrun
      split at hrun
      · obtain ⟨h₁, hwrite, hrun⟩ := ok_of_bind hrun
        exact ih (hput _ _ _ _ hJ (hget _ _ _ hJ hparent) hwrite) hrun
      · exact hput _ _ _ _ hJ hP hrun
    · exact hput _ _ _ _ hJ hP hrun

theorem heapDownAux_keeps {fuel : Nat} {h h' : Heap} {node : HeapNode} {pos : Nat} (hJ : J h) (hP : P node)
    (hrun : heapDownAux fuel h node pos = .ok h') : J h' := by
  induction fuel generalizing h pos with
  | zero => cases hrun
  | succ fuel ih =>
    rw [heapDownAux] at hrun
    split at hrun
    · obtain ⟨child, hchild, hrun⟩ := ok_of_bind hrun
      obtain ⟨h₁, hwrite, hrun⟩ := ok_of_bind hrun
      exact ih (hput _ _ _ _ hJ (hget _ _ _ hJ hchild) hwrite) hrun
    · exact hput _ _ _ _ hJ hP hrun

theorem heapDown_keeps {h h' : Heap} {pos : Nat} (hJ : J h) (hrun : heapDown h pos = .ok h') : J h' := by
  obtain ⟨node, hnode, hrun⟩ := ok_of_bind hrun
  exact heapDownAux_keeps hput hget hJ (hget _ _ _ hJ hnode) hrun

theorem heapFix_keeps {h h' : Heap} {pos : Nat} (hJ : J h) (hrun : heapFix h pos = .ok h') : J h' := by
  obtain ⟨node, -, hrun⟩ := ok_of_bind hrun
  split at hrun
  · obtain ⟨parent, -, hrun⟩ := ok_of_bind hrun
    split at hrun
    · obtain ⟨moving, hmoving, hrun⟩ := ok_of_bind hrun
      exact heapUpAux_keeps hput hget hJ (hget _ _ _ hJ hmoving) hrun
    · split at hrun
      · exact heapDown_keeps hput hget hJ hrun
      · cases hrun
        exact hJ
  · split at hrun
    · exact heapDown_keeps hput hget hJ hrun
    · cases hrun
      exact hJ

end Keeps

theorem put_eq {h h' : Heap} {pos : Nat} {node : HeapNode} (hrun : h.put pos node = .ok h') :
    (h.refs.read node.posRef).isSome ∧ h' = ⟨h.entries.set pos node, h.refs.set node.posRef pos⟩ := by
  unfold Heap.put at hrun
  split at hrun
  · split at hrun
    · next hlive =>
      cases hrun
      exact ⟨hlive, rfl⟩
    · cases hrun
  · cases hrun

/-- The same fields are alive. -/
def Heap.SameLive (h h' : Heap) : Prop := ∀ p, (h'.refs.read p).isSome = (h.refs.read p).isSome

theorem heapFix_sameLive {h h' : Heap} {pos : Nat} (hrun : heapFix h pos = .ok h') : h.SameLive h' := by
  refine heapFix_keeps (P := fun _ => True) ?_ (fun _ _ _ _ _ => trivial) (fun _ => rfl) hrun
  intro h₁ h₂ pos node hsame _ hwrite p
  obtain ⟨hlive, rfl⟩ := put_eq hwrite
  exact (Mem.isSome_read_set hlive pos p).trans (hsame p)

theorem setTtl_sameLive {h h' : Heap} {now ttl : Nat} {node : Ptr} (hrun : setTtl h now node ttl = .ok h') :
    h.SameLive h' := by
  have hfix := heapFix_sameLive hrun
  exact hfix

theorem heapFix_entries {h h' : Heap} {pos : Nat} (hrun : heapFix h pos = .ok h') {P : HeapNode → Prop}
    (hP : ∀ e ∈ h.entries, P e) : ∀ e ∈ h'.entries, P e := by
  refine heapFix_keeps (J := fun h => ∀ e ∈ h.entries, P e) (P := P) ?_ ?_ hP hrun
  · intro h₁ h₂ pos node hall hnode hwrite e he
    obtain ⟨-, rfl⟩ := put_eq hwrite
    rcases List.mem_or_eq_of_mem_set he with hold | rfl
    · exact hall e hold
    · exact hnode
  · intro h₁ i e hall hget
    unfold Heap.get at hget
    split at hget
    · next e' hat =>
      cases hget
      exact hall e (List.mem_of_getElem? hat)
    · cases hget

/-- `rem_ttl` leaves every field alive and adds no entry. -/
theorem remTtl_ok {h h' : Heap} {node : Ptr} (hrun : remTtl h node = .ok h') :
    h.SameLive h' ∧ ∀ e ∈ h'.entries, e ∈ h.entries := by
  unfold remTtl at hrun
  split at hrun
  · cases hrun
  · split at hrun
    · cases hrun
      exact ⟨fun _ => rfl, fun _ he => he⟩
    · next heapIdx _ _ back hback =>
      have hsub : ∀ e ∈ (h.entries.set heapIdx back).dropLast, e ∈ h.entries := by
        intro e he
        rcases List.mem_or_eq_of_mem_set (List.mem_of_mem_dropLast he) with hold | rfl
        · exact hold
        · exact List.mem_of_getLast? hback
      split at hrun
      · dsimp only at hrun
        split at hrun
        · have hfix := heapFix_sameLive hrun
          exact ⟨hfix, heapFix_entries hrun hsub⟩
        · cases hrun
          exact ⟨fun _ => rfl, hsub⟩
      · cases hrun
        exact ⟨fun _ => rfl, fun _ he => he⟩

theorem remTtl_sameLive {h h' : Heap} {node : Ptr} (hrun : remTtl h node = .ok h') : h.SameLive h' := (remTtl_ok hrun).1

end CustomRedis
