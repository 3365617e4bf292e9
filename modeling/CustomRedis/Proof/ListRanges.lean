import CustomRedis.Proof.Deque
import CustomRedis.Proof.ReplyGrammar

/-!
# Numbers that list commands are given

`LRANGE` finds its first node from the nearer end, for every position of the list. The number of nodes it goes on for
is cut off at the size of the list and not at what is left of it, so a range that starts behind the head and ends behind
the tail follows the null pointer. The count of a pop is compared with the size as an unsigned number before its sign is
looked at, so a negative count pops the whole list.
-/

namespace CustomRedis

open Run (ok_bind)

/-! ### Walks -/

section Walks

variable {m : DListMem Bytes} {before behind : Option Ptr} {es : List (Ptr × Bytes)} {n : Nat}

theorem Seg.drop (h : Seg m before es behind) (n : Nat) : ∃ before', Seg m before' (es.drop n) behind := by
  rw [← List.take_append_drop n es, Seg.append] at h
  exact ⟨_, h.2⟩

theorem walkNext_seg (h : Seg m before es none) (hn : n ≤ es.length) :
    walkNext m n (firstOf es) = .ok (firstOf (es.drop n)) := by
  induction n generalizing before es with
  | zero => rfl
  | succ n ih =>
    cases es with
    | nil => cases hn
    | cons e es =>
      obtain ⟨p, v⟩ := e
      obtain ⟨hread, hseg⟩ := h
      rw [Option.or_none] at hread
      rw [show firstOf ((p, v) :: es) = some p from rfl, walkNext, DListMem.deref, mem_node_eq hread, ok_bind]
      exact ih hseg (Nat.le_of_succ_le_succ hn)

theorem walkPrev_seg (h : Seg m none es behind) (hn : n ≤ es.length) :
    walkPrev m n (lastOf es) = .ok (lastOf (es.take (es.length - n))) := by
  induction n generalizing behind es with
  | zero => rw [Nat.sub_zero, List.take_length]; rfl
  | succ n ih =>
    cases es using List.reverseRecOn with
    | nil => cases hn
    | append_singleton es e =>
      obtain ⟨p, v⟩ := e
      rw [List.length_append, List.length_singleton] at hn ⊢
      rw [Seg.append, Seg, Option.or_none] at h
      rw [lastOf_concat, walkPrev, DListMem.deref, mem_node_eq h.2.1, ok_bind]
      show walkPrev m n (lastOf es) = _
      rw [ih h.1 (by omega), List.take_append_of_le_length (by omega), Nat.add_sub_add_right]

/-- The last node of a front part is the first one of what follows without it. -/
theorem lastOf_take (hn : n < es.length) : lastOf (es.take (n + 1)) = firstOf (es.drop n) := by
  rw [List.take_succ_eq_append_getElem hn, lastOf_concat, List.drop_eq_getElem_cons hn]
  rfl

/-- The loop of `LRANGE` goes on to the end of the list and no further. -/
theorem lrangeLoop_seg (h : Seg m before es none) (n : Nat) (out : Bytes) :
    lrangeLoop m n (firstOf es) out =
      if n ≤ es.length then .ok (outStrs out ((es.take n).map Prod.snd)) else .error .nullLink := by
  induction n generalizing before es out with
  | zero => rw [if_pos (Nat.zero_le _)]; rfl
  | succ n ih =>
    cases es with
    | nil => rfl
    | cons e es =>
      obtain ⟨p, v⟩ := e
      obtain ⟨hread, hseg⟩ := h
      rw [Option.or_none] at hread
      rw [show firstOf ((p, v) :: es) = some p from rfl, lrangeLoop, DListMem.deref, mem_node_eq hread, ok_bind, ih hseg,
        List.length_cons]
      exact if_congr Nat.succ_le_succ_iff.symm rfl rfl

end Walks

/-! ### Ranges -/

/-- An index that counts from the end if it is negative. -/
def countedFrom (len : Nat) (i : Int) : Int := if i < 0 then len + i else i

/-- The reply with the given strings. -/
def arrReply (out : Bytes) (strs : List Bytes) : Bytes := outStrs (outArr out strs.length) strs

/-- The elements from one index to another, as far as there are any. -/
def slice {β : Type} (xs : List β) (start last : Int) : List β :=
  (xs.drop start.toNat).take (min last (xs.length - 1) - start + 1).toNat

theorem length_slice {β : Type} {xs : List β} {start last : Int} (hstart : 0 ≤ start) (hlt : start < xs.length) :
    (slice xs start last).length = (min last (xs.length - 1) - start + 1).toNat := by
  rw [slice, List.length_take, List.length_drop]
  omega

/-- The number of nodes that `LRANGE` goes on for, computed in 32 bits. -/
def lrangeSize (len : Nat) (start last : Int) : Nat := min (max 0 (toI32 (last - start + 1))).toNat len

theorem lrangeSize_eq_iff {len : Nat} {start last : Int} (hlow : 0 ≤ last ∨ len - 2 ^ 31 ≤ last)
    (hhigh : last < 2 ^ 31 ∨ last < len) (hlen : len < 2 ^ 32) (hstart : 0 ≤ start) (hlt : start < len) :
    lrangeSize len start last = (min last (len - 1) - start + 1).toNat ↔
      -2 ^ 31 ≤ last - start + 1 ∧ last - start + 1 < 2 ^ 31 ∧ (last < start ∨ start = 0 ∨ last < len) := by
  obtain ⟨size, hsize⟩ : ∃ size, size = toI32 (last - start + 1) := ⟨_, rfl⟩
  have hrange : -2 ^ 31 ≤ size ∧ size < 2 ^ 31 ∧ (size = last - start + 1 ∨ size = last - start + 1 + 2 ^ 32 ∨
      size = last - start + 1 - 2 ^ 32) := by
    unfold toI32 at hsize
    omega
  rw [lrangeSize, ← hsize]
  by_cases hend : last < len
  · rw [min_eq_left (show last ≤ (len : Int) - 1 by omega)]
    omega
  · rw [min_eq_right (show (len : Int) - 1 ≤ last by omega)]
    omega

/-! ### Arithmetic in 32 bits -/

theorem toI32_countedFrom {len : Nat} {i : Int} (hlow : -2 ^ 31 ≤ i) (hhigh : i < 2 ^ 31) :
    (if i < 0 then toI32 (len + i) else i) = toI32 (countedFrom len i) := by
  rw [countedFrom]
  split
  · rfl
  · exact (toI32_of_lt hlow hhigh).symm

theorem toI32_mem (x : Int) : -2 ^ 31 ≤ toI32 x ∧ toI32 x < 2 ^ 31 := by
  unfold toI32
  omega

theorem toU32_toI32 {x : Int} (hlow : 0 ≤ x) (hhigh : x < 2 ^ 32) : toU32 (toI32 x) = x.toNat := by
  unfold toU32 toI32
  omega

theorem toU32_sub_toI32 {len : Nat} {x : Int} (hlow : 0 ≤ x) (hlt : x < len) (hlen : len < 2 ^ 32) :
    toU32 (len - toI32 x - 1) = len - x.toNat - 1 := by
  unfold toU32 toI32
  omega

theorem toI32_sub_toI32 (x y : Int) : toI32 (toI32 x - toI32 y + 1) = toI32 (x - y + 1) := by
  unfold toI32
  omega

section Commands

variable {g : GlobalData} {cmd : List Bytes} {xs : List Bytes}

/-- The two indices of a range, as they count from the head. -/
def rangeStart (cmd : List Bytes) (len : Nat) : Int := countedFrom len (toI32 (strtol (cmd.getD 2 [])))

def rangeLast (cmd : List Bytes) (len : Nat) : Int := countedFrom len (toI32 (strtol (cmd.getD 3 [])))

/-- Both walks lead to the node at the start of the range. -/
theorem lrangeBegin {l : DList} {es : List (Ptr × Bytes)} (h : l.Holds es) {start : Nat} (hlt : start < es.length) :
    walkPrev l.mem (es.length - start - 1) l.tail = .ok (firstOf (es.drop start)) ∧
      walkNext l.mem start l.head = .ok (firstOf (es.drop start)) := by
  have hne : es ≠ [] := List.ne_nil_of_length_pos (by omega)
  rw [h.head hne, h.tail hne]
  refine ⟨?_, walkNext_seg h.seg (by omega)⟩
  rw [walkPrev_seg h.seg (by omega), ← lastOf_take hlt, show es.length - (es.length - start - 1) = start + 1 by omega]

theorem doLrange_eq (h : g.WF) (hkey : Short (keyOf cmd)) (hargs : 4 ≤ cmd.length) {l : DList}
    (hnode : g.payloadOf (keyOf cmd) = some (.list l)) {es : List (Ptr × Bytes)} (hl : l.Holds es) (hlen : es.length < 2 ^ 32)
    (hstart : 0 ≤ rangeStart cmd es.length) (hlt : rangeStart cmd es.length < es.length) (out : Bytes) :
    doLrange g out cmd =
      if lrangeSize es.length (rangeStart cmd es.length) (rangeLast cmd es.length) ≤
          es.length - (rangeStart cmd es.length).toNat then
        .ok ⟨g, outStrs (outArr out (lrangeSize es.length (rangeStart cmd es.length) (rangeLast cmd es.length)))
          ((((es.map Prod.snd).drop (rangeStart cmd es.length).toNat).take
            (lrangeSize es.length (rangeStart cmd es.length) (rangeLast cmd es.length)))), .success⟩
      else .error .nullLink := by
  obtain ⟨n, hn, hpayload⟩ := nodeOf_of_payloadOf hnode
  obtain ⟨hlow₁, hhigh₁⟩ := toI32_mem (strtol (cmd.getD 2 []))
  obtain ⟨hlow₂, hhigh₂⟩ := toI32_mem (strtol (cmd.getD 3 []))
  obtain ⟨hprev, hnext⟩ := lrangeBegin hl (show (rangeStart cmd es.length).toNat < es.length by omega)
  have hfrom : toU32 (toI32 (rangeStart cmd es.length)) = (rangeStart cmd es.length).toNat := toU32_toI32 hstart (by omega)
  obtain ⟨before, hseg⟩ := hl.seg.drop (rangeStart cmd es.length).toNat
  rw [doLrange, arg_one (by omega), arg_eq_getD (by omega), arg_eq_getD (by omega), ok_bind, ok_bind, ok_bind,
    findNode_bind h hkey, hn]
  simp only [hpayload, hl.size, toI32_countedFrom hlow₁ hhigh₁, toI32_countedFrom hlow₂ hhigh₂]
  rw [show countedFrom es.length (toI32 (strtol (cmd.getD 2 []))) = rangeStart cmd es.length from rfl,
    show countedFrom es.length (toI32 (strtol (cmd.getD 3 []))) = rangeLast cmd es.length from rfl, hfrom,
    toU32_sub_toI32 hstart hlt hlen, toI32_sub_toI32, if_neg (by omega), hprev, hnext, ok_bind, ite_self]
  show (lrangeLoop l.mem (lrangeSize es.length (rangeStart cmd es.length) (rangeLast cmd es.length)) _ _ >>= _) = _
  rw [lrangeLoop_seg hseg, List.length_drop, List.map_take, List.map_drop]
  split
  · rfl
  · rfl

theorem rangeLast_mem (cmd : List Bytes) (len : Nat) :
    (0 ≤ rangeLast cmd len ∨ len - 2 ^ 31 ≤ rangeLast cmd len) ∧ (rangeLast cmd len < 2 ^ 31 ∨ rangeLast cmd len < len) := by
  have hmem := toI32_mem (strtol (cmd.getD 3 []))
  unfold rangeLast countedFrom
  split
  · omega
  · omega

theorem outArr_inj {out : Bytes} {strs strs' : List Bytes} {n m : Nat} (hn : n < 2 ^ 32) (hm : m < 2 ^ 32)
    (h : outStrs (outArr out n) strs = outStrs (outArr out m) strs') : n = m := by
  rw [outStrs_eq, outStrs_eq, outArr_eq, outArr_eq, List.append_assoc, List.append_assoc] at h
  exact (leBytes_append_inj hn hm (List.cons.inj (List.append_cancel_left h)).2).1

/-- `LRANGE` from a start inside the list replies the elements of the range exactly if the number of its indices fits 32
bits and the range is empty, starts at the head or ends inside the list. -/
theorem lrange_slice (h : g.WF) (hkey : Short (keyOf cmd)) (hargs : 4 ≤ cmd.length)
    (hxs : HoldsList xs (g.payloadOf (keyOf cmd))) (hlen : xs.length < 2 ^ 32) (hstart : 0 ≤ rangeStart cmd xs.length)
    (hlt : rangeStart cmd xs.length < xs.length) (out : Bytes) :
    doLrange g out cmd =
        .ok ⟨g, arrReply out (slice xs (rangeStart cmd xs.length) (rangeLast cmd xs.length)), .success⟩ ↔
      -2 ^ 31 ≤ rangeLast cmd xs.length - rangeStart cmd xs.length + 1 ∧
        rangeLast cmd xs.length - rangeStart cmd xs.length + 1 < 2 ^ 31 ∧
        (rangeLast cmd xs.length < rangeStart cmd xs.length ∨ rangeStart cmd xs.length = 0 ∨
          rangeLast cmd xs.length < xs.length) := by
  have hne : xs ≠ [] := List.ne_nil_of_length_pos (by omega)
  obtain ⟨l, hnode, -⟩ := hxs.traversals hne
  rw [hnode] at hxs
  obtain ⟨es, hl, hmap⟩ := hxs
  have hlength : es.length = xs.length := by rw [← hmap, List.length_map]
  obtain ⟨hlow, hhigh⟩ := rangeLast_mem cmd xs.length
  have hrun := doLrange_eq h hkey hargs hnode hl (by omega) (by rw [hlength]; exact hstart) (by rw [hlength]; exact hlt) out
  rw [hlength, hmap] at hrun
  rw [← lrangeSize_eq_iff hlow hhigh hlen hstart hlt, ← length_slice hstart hlt, hrun, arrReply]
  have hslice := @length_slice _ xs _ (rangeLast cmd xs.length) hstart hlt
  have htake : slice xs (rangeStart cmd xs.length) (rangeLast cmd xs.length) =
      (xs.drop (rangeStart cmd xs.length).toNat).take (slice xs (rangeStart cmd xs.length) (rangeLast cmd xs.length)).length := by
    rw [hslice]
    rfl
  have hsize : lrangeSize xs.length (rangeStart cmd xs.length) (rangeLast cmd xs.length) ≤ xs.length := Nat.min_le_right _ _
  constructor
  · intro heq
    split at heq
    · exact outArr_inj (by omega) (by omega) (Result.mk.inj (Except.ok.inj heq)).2.1
    · cases heq
  · intro heq
    rw [heq, if_pos (by omega), ← htake]

/-- A list of three strings. -/
def pushingRequests : List (Env × Request) :=
  [({}, .ofTexts ["rpush", "l", "a"]), ({}, .ofTexts ["rpush", "l", "b"]), ({}, .ofTexts ["rpush", "l", "c"])]

theorem pushing_run : ∃ g, Run.run serverStep {} (pushingRequests.map fun e => .request e.1 e.2) = .ok g ∧ g.WF ∧
    HoldsList [text "a", text "b", text "c"] (g.payloadOf (text "l")) := by
  have habsent : ({} : GlobalData).nodeOf (text "l") = none := by decide
  obtain ⟨g, hrun, hwf, hholds, -⟩ := @list_run {} ⟨[], rfl⟩ (text "l") habsent pushingRequests (by decide +kernel)
  have hafter : dequeAfter pushingRequests = [text "a", text "b", text "c"] := by decide +kernel
  rw [hafter] at hholds
  exact ⟨g, hrun, hwf, hholds⟩

theorem lrange_slice_tail : ∃ g, Run.run serverStep {} (pushingRequests.map fun e => .request e.1 e.2) = .ok g ∧
    doLrange g [] (["lrange", "l", "-2", "-1"].map text) = .ok ⟨g, arrReply [] [text "b", text "c"], .success⟩ := by
  obtain ⟨g, hrun, hwf, hholds⟩ := pushing_run
  refine ⟨g, hrun, ?_⟩
  exact (@lrange_slice g (["lrange", "l", "-2", "-1"].map text) [text "a", text "b", text "c"] hwf (by unfold Short; decide)
    (by decide) hholds (by decide) (by decide) (by decide) []).mpr (by decide)

/-- The range `1 .. 3` of three elements: the loop goes on for three nodes from the second one. -/
theorem lrange_past_tail : (Run.run serverStep {} (pushingRequests.map fun e => .request e.1 e.2) >>= fun g =>
    (doLrange g [] (["lrange", "l", "1", "3"].map text)).map Result.out) = .error .nullLink := by
  decide +kernel

/-! ### The count of a pop -/

/-- The smaller one of a count and a size, read with its sign. -/
theorem popped_not_pos_iff {count : Int} {size : Nat} (hlow : -2 ^ 31 ≤ count) (hhigh : count < 2 ^ 31)
    (hsize : size < 2 ^ 32) :
    toI32 (min (toU32 count) size : Nat) ≤ 0 ↔ count = 0 ∨ size = 0 ∨ count < 0 ∧ 2 ^ 31 ≤ size := by
  unfold toI32 toU32
  omega

/-- Otherwise the smaller one is positive, and no more than there is. -/
theorem popped_pos {count : Int} {size : Nat} (hsize : size < 2 ^ 32)
    (hpos : ¬toI32 (min (toU32 count) size : Nat) ≤ 0) :
    ∃ k, 0 < k ∧ k ≤ size ∧ k < 2 ^ 31 ∧ toI32 (min (toU32 count) size : Nat) = k := by
  refine ⟨min (toU32 count) size, ?_⟩
  unfold toI32 at hpos ⊢
  omega

/-- A pop is answered with an error and no change exactly if its count is zero as an `int32_t`, or the list is empty, or
the count is negative and the list has so many elements that its size is negative as well. -/
theorem pop_refused_iff (h : g.WF) (hkey : Short (keyOf cmd)) (hargs : 3 ≤ cmd.length)
    (hxs : HoldsList xs (g.payloadOf (keyOf cmd))) (hlen : xs.length < 2 ^ 32) (side : Side) (out : Bytes) :
    (∃ mes ret, doPop g out cmd side = .ok ⟨g, outErr out mes, ret⟩) ↔
      toI32 (strtol (cmd.getD 2 [])) = 0 ∨ xs.length = 0 ∨ toI32 (strtol (cmd.getD 2 [])) < 0 ∧ 2 ^ 31 ≤ xs.length := by
  obtain ⟨hlow, hhigh⟩ := toI32_mem (strtol (cmd.getD 2 []))
  rw [doPop, arg_one (by omega), arg_eq_getD (by omega), ok_bind, ok_bind, findNode_bind h hkey]
  generalize toI32 (strtol (cmd.getD 2 [])) = count at hlow hhigh ⊢
  cases hn : g.nodeOf (keyOf cmd) with
  | none =>
    rw [payloadOf_eq_none.mpr hn] at hxs
    obtain rfl : xs = [] := hxs
    exact iff_of_true ⟨_, _, rfl⟩ (.inr (.inl rfl))
  | some n =>
    rw [payloadOf_of_nodeOf hn] at hxs
    obtain ⟨l, hl, es, hes, hmap⟩ := hxs.exists_list
    rw [Option.getD_some] at hl
    have hsize : l.size = xs.length := by rw [hes.size, ← hmap, List.length_map]
    simp only [hl, hsize]
    rw [← popped_not_pos_iff hlow hhigh hlen]
    by_cases hrefused : toI32 (min (toU32 count) xs.length : Nat) ≤ 0
    · rw [if_pos hrefused]
      exact iff_of_true ⟨_, _, rfl⟩ hrefused
    · obtain ⟨k, hpos, hle, hsmall, hk⟩ := popped_pos hlen hrefused
      obtain ⟨l', hloop, es', hholds, hdrop⟩ := popLoop_values hes hmap hlen k side (outArr out k)
      obtain ⟨g', hput, -, hstored⟩ := putPayload_payloadOf h hkey hn (.list l')
      rw [Nat.min_eq_left hle] at hloop
      rw [hk, if_neg (by omega), Int.toNat_natCast, toU32_of_lt (by omega), hloop, ok_bind, hput, ok_bind]
      refine iff_of_false ?_ (hk ▸ hrefused)
      rintro ⟨mes, ret, heq⟩
      obtain rfl : g' = g := (Result.mk.inj (Except.ok.inj heq)).1
      rw [payloadOf_of_nodeOf hn, hl, Option.some_inj, Payload.list.injEq] at hstored
      -- the list that is stored has lost elements
      have hfewer := congrArg List.length hdrop
      have hkept := hholds.size
      rw [Side.length_view, List.length_map, List.length_drop, Side.length_view] at hfewer
      rw [← hstored, hsize] at hkept
      omega

theorem pop_refused_iff_zero : ∃ g, Run.run serverStep {} (pushingRequests.map fun e => .request e.1 e.2) = .ok g ∧
    ∃ mes ret, doPop g [] (["rpop", "l", "0"].map text) .right = .ok ⟨g, outErr [] mes, ret⟩ := by
  obtain ⟨g, hrun, hwf, hholds⟩ := pushing_run
  refine ⟨g, hrun, ?_⟩
  exact (@pop_refused_iff g (["rpop", "l", "0"].map text) [text "a", text "b", text "c"] hwf (by unfold Short; decide)
    (by decide) hholds (by decide) .right []).mpr (by decide)

/-- A count of `-1` is a large one. -/
theorem pop_negative_pops_all : (Run.run serverStep {} (pushingRequests.map fun e => .request e.1 e.2) >>= fun g =>
    (doPop g [] (["lpop", "l", "-1"].map text) .left).map fun r => (r.out, match r.data.payloadOf (text "l") with
      | some (.list l) => some l.size
      | _ => none)) = .ok (arrReply [] [text "a", text "b", text "c"], some 0) := by
  decide +kernel

end Commands

end CustomRedis
