import CustomRedis.Proof.OneKey
import CustomRedis.Proof.Dlist

/-!
# Lists are deques

A list value is a chain of nodes that is linked in both directions and ends in null pointers on both sides.
`Seg` says so for a part of the chain, between what stands before it and what comes behind it. The head and
the tail matter only while there are nodes: a pop that takes the last one leaves the other end dangling, and
the next push looks at the size first.
-/

namespace CustomRedis

open Run

/-- The address of the first node. -/
def firstOf (es : List (Ptr × Bytes)) : Option Ptr := es.head?.map Prod.fst

def lastOf (es : List (Ptr × Bytes)) : Option Ptr := es.getLast?.map Prod.fst

/-- The nodes are linked one to the next, with `before` and `behind` at the two ends. -/
def Seg (m : DListMem Bytes) : Option Ptr → List (Ptr × Bytes) → Option Ptr → Prop
  | _, [], _ => True
  | before, (p, v) :: es, behind =>
    m.read p = some ⟨before, (firstOf es).or behind, v⟩ ∧ Seg m (some p) es behind

theorem firstOf_append (es fs : List (Ptr × Bytes)) : firstOf (es ++ fs) = (firstOf es).or (firstOf fs) := by
  cases es <;> rfl

theorem lastOf_cons (p : Ptr) (v : Bytes) (es : List (Ptr × Bytes)) :
    lastOf ((p, v) :: es) = (lastOf es).or (some p) := by
  rw [lastOf, lastOf, List.getLast?_cons]
  cases es.getLast? <;> rfl

theorem fst_ne_of_not_mem {es : List (Ptr × Bytes)} {p : Ptr} (h : p ∉ es.map Prod.fst) {e : Ptr × Bytes}
    (he : e ∈ es) : e.1 ≠ p :=
  fun heq => h (heq ▸ List.mem_map_of_mem he)

/-- The addresses of a chain and of one more node, which may as well stand in front. -/
theorem nodup_fst_concat {es : List (Ptr × Bytes)} {p : Ptr} {v : Bytes} :
    ((es ++ [(p, v)]).map Prod.fst).Nodup ↔ (p :: es.map Prod.fst).Nodup := by
  rw [List.map_append]
  exact (List.perm_append_singleton p _).nodup_iff

theorem lastOf_concat (es : List (Ptr × Bytes)) (p : Ptr) (v : Bytes) : lastOf (es ++ [(p, v)]) = some p := by
  rw [lastOf, List.getLast?_concat]
  rfl

namespace Seg

variable {m m' : DListMem Bytes} {before behind : Option Ptr} {es fs : List (Ptr × Bytes)}

theorem congr (h : Seg m before es behind) (hread : ∀ e ∈ es, m'.read e.1 = m.read e.1) : Seg m' before es behind := by
  induction es generalizing before with
  | nil => trivial
  | cons e es ih =>
    exact ⟨(hread e List.mem_cons_self).trans h.1, ih h.2 fun f hf => hread f (List.mem_cons_of_mem _ hf)⟩

theorem append : Seg m before (es ++ fs) behind ↔
    Seg m before es ((firstOf fs).or behind) ∧ Seg m ((lastOf es).or before) fs behind := by
  induction es generalizing before with
  | nil => simp [Seg, lastOf]
  | cons e es ih =>
    obtain ⟨p, v⟩ := e
    rw [List.cons_append, Seg, Seg, ih, firstOf_append, Option.or_assoc, lastOf_cons, Option.or_assoc,
      Option.some_or, and_assoc]

theorem live (h : Seg m before es behind) {e : Ptr × Bytes} (he : e ∈ es) : ∃ c, m.read e.1 = some c := by
  induction es generalizing before with
  | nil => cases he
  | cons f es ih =>
    rcases List.mem_cons.mp he with rfl | he
    · exact ⟨_, h.1⟩
    · exact ih h.2 he

theorem lt_next (h : Seg m before es behind) {e : Ptr × Bytes} (he : e ∈ es) : e.1 < m.next := by
  obtain ⟨c, hc⟩ := h.live he
  exact Mem.lt_next_of_read hc

end Seg

/-- The value of the list: the strings of its nodes from head to tail. -/
structure DList.Holds (l : DList) (es : List (Ptr × Bytes)) : Prop where
  seg : Seg l.mem none es none
  nodup : (es.map Prod.fst).Nodup
  size : l.size = es.length
  head : es ≠ [] → l.head = firstOf es
  tail : es ≠ [] → l.tail = lastOf es

theorem DList.Holds.empty : ({} : DList).Holds [] where
  seg := trivial
  nodup := List.nodup_nil
  size := rfl
  head h := absurd rfl h
  tail h := absurd rfl h

/-! ### Traversals -/

/-- The values that a link leads through, up to the null pointer. -/
def traverse (link : DListNode Bytes → Option Ptr) (m : DListMem Bytes) : Nat → Option Ptr → M (List Bytes)
  | _, none => .ok []
  | 0, some _ => .error .outOfFuel
  | fuel + 1, some p => do
    let c ← m.node p
    let rest ← traverse link m fuel (link c)
    .ok (c.val :: rest)

theorem mem_node_eq {m : DListMem Bytes} {p : Ptr} {c : DListNode Bytes} (h : m.read p = some c) :
    m.node p = .ok c := by
  rw [DListMem.node, h]

theorem traverse_next {m : DListMem Bytes} {before : Option Ptr} {es : List (Ptr × Bytes)} {fuel : Nat}
    (h : Seg m before es none) (hfuel : es.length ≤ fuel) :
    traverse DListNode.next m fuel (firstOf es) = .ok (es.map Prod.snd) := by
  induction es generalizing before fuel with
  | nil => cases fuel <;> rfl
  | cons e es ih =>
    obtain ⟨p, v⟩ := e
    obtain ⟨fuel, rfl⟩ : ∃ n, fuel = n + 1 := ⟨fuel - 1, by simp at hfuel; omega⟩
    rw [Seg, Option.or_none] at h
    rw [show firstOf ((p, v) :: es) = some p from rfl, traverse, mem_node_eq h.1]
    simp only [bind, Except.bind, ih h.2 (by simpa using hfuel), List.map_cons]

theorem traverse_prev {m : DListMem Bytes} {behind : Option Ptr} {es : List (Ptr × Bytes)} {fuel : Nat}
    (h : Seg m none es behind) (hfuel : es.length ≤ fuel) :
    traverse DListNode.prev m fuel (lastOf es) = .ok (es.map Prod.snd).reverse := by
  induction es using List.reverseRecOn generalizing behind fuel with
  | nil => cases fuel <;> rfl
  | append_singleton es e ih =>
    obtain ⟨p, v⟩ := e
    rw [List.length_append, List.length_singleton] at hfuel
    obtain ⟨fuel, rfl⟩ : ∃ n, fuel = n + 1 := ⟨fuel - 1, by omega⟩
    rw [Seg.append, Seg, Option.or_none] at h
    rw [lastOf_concat, traverse, mem_node_eq h.2.1]
    simp only [bind, Except.bind, ih h.1 (show es.length ≤ fuel by omega), List.map_append, List.map_cons, List.map_nil,
      List.reverse_append, List.reverse_singleton, List.singleton_append]

/-! ### Pushing -/

theorem mem_modify_eq {m : DListMem Bytes} {p : Ptr} {c : DListNode Bytes} (h : m.read p = some c)
    (f : DListNode Bytes → DListNode Bytes) : m.modify p f = .ok (m.set p (f c)) := by
  rw [DListMem.modify, mem_node_eq h]
  rfl

/-- The new node in front of one without a predecessor. -/
theorem insertBefore_first {m : DListMem Bytes} {target node : Ptr} {next : Option Ptr} {v w : Bytes}
    (ht : m.read target = some ⟨none, next, w⟩) (hn : m.read node = some { val := v }) (hne : node ≠ target) :
    ∃ m', dlistInsertBefore m target node = .ok m' ∧ m'.read node = some ⟨none, some target, v⟩ ∧
      m'.read target = some ⟨some node, next, w⟩ ∧ (∀ q, q ≠ node → q ≠ target → m'.read q = m.read q) ∧
      m'.next = m.next := by
  have hlt := Mem.lt_next_of_read ht
  have hln := Mem.lt_next_of_read hn
  have hn₁ : (m.set target ⟨some node, next, w⟩).read node = some { val := v } := by rw [Mem.read_set_ne hne, hn]
  have hn₂ : ((m.set target ⟨some node, next, w⟩).set node ⟨none, some target, v⟩).read node =
      some ⟨none, some target, v⟩ := Mem.read_set_self (by simpa using hln) _
  refine ⟨((m.set target ⟨some node, next, w⟩).set node ⟨none, some target, v⟩).set node ⟨none, some target, v⟩,
    ?_, Mem.read_set_self (by simpa using hln) _, ?_, fun q hqn hqt => ?_, by simp⟩
  · rw [dlistInsertBefore, mem_node_eq ht]
    simp only [bind, Except.bind, DListMem.setPrev, mem_modify_eq ht, DListMem.setNext, mem_modify_eq hn₁,
      mem_modify_eq hn₂, DListMem.setNext?]
  · rw [Mem.read_set_ne (Ne.symm hne), Mem.read_set_ne (Ne.symm hne), Mem.read_set_self hlt]
  · rw [Mem.read_set_ne hqn, Mem.read_set_ne hqn, Mem.read_set_ne hqt]

/-- The new node behind one without a successor. -/
theorem insertAfter_last {m : DListMem Bytes} {target node : Ptr} {prev : Option Ptr} {v w : Bytes}
    (ht : m.read target = some ⟨prev, none, w⟩) (hn : m.read node = some { val := v }) (hne : node ≠ target) :
    ∃ m', dlistInsertAfter m target node = .ok m' ∧ m'.read node = some ⟨some target, none, v⟩ ∧
      m'.read target = some ⟨prev, some node, w⟩ ∧ (∀ q, q ≠ node → q ≠ target → m'.read q = m.read q) ∧
      m'.next = m.next := by
  have hlt := Mem.lt_next_of_read ht
  have hln := Mem.lt_next_of_read hn
  have hn₁ : (m.set target ⟨prev, some node, w⟩).read node = some { val := v } := by rw [Mem.read_set_ne hne, hn]
  have hn₂ : ((m.set target ⟨prev, some node, w⟩).set node ⟨some target, none, v⟩).read node =
      some ⟨some target, none, v⟩ := Mem.read_set_self (by simpa using hln) _
  refine ⟨((m.set target ⟨prev, some node, w⟩).set node ⟨some target, none, v⟩).set node ⟨some target, none, v⟩,
    ?_, Mem.read_set_self (by simpa using hln) _, ?_, fun q hqn hqt => ?_, by simp⟩
  · rw [dlistInsertAfter, mem_node_eq ht]
    simp only [bind, Except.bind, DListMem.setNext, mem_modify_eq ht, DListMem.setPrev, mem_modify_eq hn₁,
      mem_modify_eq hn₂, DListMem.setPrev?]
  · rw [Mem.read_set_ne (Ne.symm hne), Mem.read_set_ne (Ne.symm hne), Mem.read_set_self hlt]
  · rw [Mem.read_set_ne hqn, Mem.read_set_ne hqn, Mem.read_set_ne hqt]

section Push

variable {l : DList} {es : List (Ptr × Bytes)} {value : Bytes}

/-- The chain is untouched by the allocation of a node, and the node is new to it. -/
theorem DList.Holds.alloc (h : l.Holds es) (value : Bytes) :
    Seg (l.mem.alloc { val := value }) none es none ∧ (∀ e ∈ es, e.1 ≠ l.mem.next) ∧
      (l.mem.next :: es.map Prod.fst).Nodup := by
  have hlt : ∀ e ∈ es, e.1 < l.mem.next := fun e he => h.seg.lt_next he
  refine ⟨h.seg.congr fun e he => Mem.read_alloc_of_lt (hlt e he) _, fun e he => Nat.ne_of_lt (hlt e he), ?_⟩
  refine List.nodup_cons.mpr ⟨fun hmem => ?_, h.nodup⟩
  obtain ⟨e, he, heq⟩ := List.mem_map.mp hmem
  exact Nat.ne_of_lt (hlt e he) heq

theorem pushNode_empty (h : l.Holds []) (hvalue : Short value) (side : Side) :
    ∃ l', pushNode l side value = .ok l' ∧ l'.Holds [(l.mem.next, value)] := by
  obtain ⟨str, hcopy, hbuf⟩ := dstrCopy_ok hvalue
  refine ⟨⟨some l.mem.next, some l.mem.next, 1, l.mem.alloc { val := value }⟩, ?_, ⟨?_, trivial⟩, by simp, rfl,
    fun _ => rfl, fun _ => rfl⟩
  · rw [pushNode, hcopy]
    simp only [bind, Except.bind, hbuf, h.size, List.length_nil, if_true]
    rfl
  · exact Mem.read_alloc_self _ _

theorem pushNode_left {p : Ptr} {w : Bytes} (h : l.Holds ((p, w) :: es)) (hvalue : Short value)
    (hsize : es.length + 2 < 2 ^ 32) :
    ∃ l', pushNode l .left value = .ok l' ∧ l'.Holds ((l.mem.next, value) :: (p, w) :: es) := by
  obtain ⟨str, hcopy, hbuf⟩ := dstrCopy_ok hvalue
  obtain ⟨hseg, hne, hnodup⟩ := h.alloc value
  obtain ⟨m', hrun, hnode, htarget, hframe, -⟩ := insertBefore_first hseg.1 (Mem.read_alloc_self _ _)
    (Ne.symm (hne (p, w) List.mem_cons_self))
  have hlen : l.size = es.length + 1 := h.size
  refine ⟨⟨some l.mem.next, l.tail, l.size + 1, m'⟩, ?_, ⟨hnode, htarget, ?_⟩, hnodup, by simp [hlen], fun _ => rfl, ?_⟩
  · rw [pushNode, hcopy]
    simp only [bind, Except.bind, hbuf]
    rw [if_neg (by omega), h.head (List.cons_ne_nil _ _), Nat.mod_eq_of_lt (by omega)]
    simp only [firstOf, List.head?_cons, Option.map_some, hrun]
  · have hnot : p ∉ es.map Prod.fst := (List.nodup_cons.mp h.nodup).1
    exact hseg.2.congr fun e he => hframe e.1 (hne e (List.mem_cons_of_mem _ he)) (fst_ne_of_not_mem hnot he)
  · intro _
    rw [h.tail (List.cons_ne_nil _ _), lastOf_cons, lastOf_cons, lastOf_cons]
    cases lastOf es <;> rfl

theorem pushNode_right {p : Ptr} {w : Bytes} (h : l.Holds (es ++ [(p, w)])) (hvalue : Short value)
    (hsize : es.length + 2 < 2 ^ 32) :
    ∃ l', pushNode l .right value = .ok l' ∧ l'.Holds (es ++ [(p, w)] ++ [(l.mem.next, value)]) := by
  obtain ⟨str, hcopy, hbuf⟩ := dstrCopy_ok hvalue
  obtain ⟨hseg, hne, hnodup⟩ := h.alloc value
  rw [Seg.append] at hseg
  obtain ⟨m', hrun, hnode, htarget, hframe, -⟩ := insertAfter_last hseg.2.1 (Mem.read_alloc_self _ _)
    (Ne.symm (hne (p, w) (by simp)))
  have hlen : l.size = es.length + 1 := by simpa using h.size
  have hlast : lastOf (es ++ [(p, w)]) = some p := lastOf_concat es p w
  refine ⟨⟨l.head, some l.mem.next, l.size + 1, m'⟩, ?_, ?_, ?_, by simp [hlen], fun _ => ?_, fun _ => ?_⟩
  · rw [pushNode, hcopy]
    simp only [bind, Except.bind, hbuf]
    rw [if_neg (by omega), h.tail (by simp), Nat.mod_eq_of_lt (by omega), hlast]
    simp only [hrun]
  · rw [Seg.append, Seg.append, hlast]
    refine ⟨⟨?_, htarget, trivial⟩, hnode, trivial⟩
    have hnot : p ∉ es.map Prod.fst := (List.nodup_cons.mp (nodup_fst_concat.mp h.nodup)).1
    exact hseg.1.congr fun e he => hframe e.1 (hne e (List.mem_append_left _ he)) (fst_ne_of_not_mem hnot he)
  · exact nodup_fst_concat.mpr hnodup
  · rw [h.head (by simp), firstOf_append (es ++ [(p, w)]), firstOf_append]
    cases firstOf es <;> rfl
  · rw [lastOf_concat]

end Push

/-! ### Popping -/

section Pop

variable {l : DList} {es : List (Ptr × Bytes)} {p : Ptr} {v : Bytes}

theorem popNode_left (h : l.Holds ((p, v) :: es)) (hsize : es.length + 1 < 2 ^ 32) :
    ∃ l', popNode l .left = .ok (l', v) ∧ l'.Holds es := by
  have hhead : l.head = some p := h.head (List.cons_ne_nil _ _)
  have hlen : l.size = es.length + 1 := h.size
  have hmod : (l.size + (2 ^ 32 - 1)) % 2 ^ 32 = es.length := by omega
  have hfst : p ∉ es.map Prod.fst ∧ (es.map Prod.fst).Nodup := List.nodup_cons.mp h.nodup
  obtain ⟨hp, hseg⟩ := h.seg
  rw [Option.or_none] at hp
  have hset : ∃ m', l.mem.setPrev? (firstOf es) none = .ok m' ∧ Seg (m'.free p) none es none := by
    cases es with
    | nil => exact ⟨l.mem, rfl, trivial⟩
    | cons e es =>
      obtain ⟨q, w⟩ := e
      have hqp : q ≠ p := fun heq => hfst.1 (by simp [heq])
      have hq := hseg.1
      refine ⟨_, mem_modify_eq hq _, ?_, hseg.2.congr fun e he => ?_⟩
      · rw [Mem.read_free_ne hqp, Mem.read_set_self (Mem.lt_next_of_read hq)]
      · have hep : e.1 ≠ p := fst_ne_of_not_mem hfst.1 (List.mem_cons_of_mem _ he)
        have heq : e.1 ≠ q := fst_ne_of_not_mem (List.nodup_cons.mp hfst.2).1 he
        rw [Mem.read_free_ne hep, Mem.read_set_ne heq]
  obtain ⟨m', hset, hseg'⟩ := hset
  refine ⟨⟨firstOf es, l.tail, es.length, m'.free p⟩, ?_, hseg', hfst.2, rfl, fun _ => rfl, fun hne => ?_⟩
  · rw [popNode, hhead, DListMem.deref, mem_node_eq hp]
    simp only [bind, Except.bind, hset, hmod, Option.getD_some]
  · rw [h.tail (List.cons_ne_nil _ _), lastOf_cons]
    cases es using List.reverseRecOn with
    | nil => exact absurd rfl hne
    | append_singleton es e => rw [lastOf_concat es e.1 e.2, Option.some_or]

theorem popNode_right (h : l.Holds (es ++ [(p, v)])) (hsize : es.length + 1 < 2 ^ 32) :
    ∃ l', popNode l .right = .ok (l', v) ∧ l'.Holds es := by
  have htail : l.tail = some p := (h.tail (by simp)).trans (lastOf_concat es p v)
  have hlen : l.size = es.length + 1 := by simpa using h.size
  have hmod : (l.size + (2 ^ 32 - 1)) % 2 ^ 32 = es.length := by omega
  have hfst : p ∉ es.map Prod.fst ∧ (es.map Prod.fst).Nodup := List.nodup_cons.mp (nodup_fst_concat.mp h.nodup)
  have hseg := h.seg
  rw [Seg.append, Option.or_none] at hseg
  obtain ⟨hseg, hp, -⟩ := hseg
  have hset : ∃ m', l.mem.setNext? (lastOf es) none = .ok m' ∧ Seg (m'.free p) none es none := by
    cases es using List.reverseRecOn with
    | nil => exact ⟨l.mem, rfl, trivial⟩
    | append_singleton es e =>
      obtain ⟨q, w⟩ := e
      rw [Seg.append] at hseg
      have hqp : q ≠ p := fun heq => hfst.1 (by simp [heq])
      have hq := hseg.2.1
      have hnot : q ∉ es.map Prod.fst := (List.nodup_cons.mp (nodup_fst_concat.mp hfst.2)).1
      rw [lastOf_concat]
      refine ⟨_, mem_modify_eq hq _, ?_⟩
      rw [Seg.append]
      refine ⟨hseg.1.congr fun e he => ?_, ?_, trivial⟩
      · have hep : e.1 ≠ p := fst_ne_of_not_mem hfst.1 (List.mem_append_left _ he)
        have heq : e.1 ≠ q := fst_ne_of_not_mem hnot he
        rw [Mem.read_free_ne hep, Mem.read_set_ne heq]
      · rw [Mem.read_free_ne hqp, Mem.read_set_self (Mem.lt_next_of_read hq)]
        rfl
  obtain ⟨m', hset, hseg'⟩ := hset
  refine ⟨⟨l.head, lastOf es, es.length, m'.free p⟩, ?_, hseg', hfst.2, rfl, fun hne => ?_, fun _ => rfl⟩
  · rw [popNode, htail, DListMem.deref, mem_node_eq hp]
    simp only [bind, Except.bind, Option.or_none, hset, hmod, Option.getD_some]
  · rw [h.head (by simp), firstOf_append]
    cases es with
    | nil => exact absurd rfl hne
    | cons e es => rfl

end Pop

/-! ### Both sides

Seen from the side it works on, a push puts a node in front and a pop takes nodes from the front. -/

/-- The list as it is seen from a side. -/
def Side.view {β : Type} : Side → List β → List β
  | .left, l => l
  | .right, l => l.reverse

@[simp] theorem Side.view_view {β : Type} (side : Side) (l : List β) : side.view (side.view l) = l := by
  cases side
  · rfl
  · exact List.reverse_reverse l

@[simp] theorem Side.length_view {β : Type} (side : Side) (l : List β) : (side.view l).length = l.length := by
  cases side
  · rfl
  · exact List.length_reverse

theorem Side.map_view {β γ : Type} (f : β → γ) (side : Side) (l : List β) :
    (side.view l).map f = side.view (l.map f) := by
  cases side
  · rfl
  · exact List.map_reverse

theorem pushNode_spec {l : DList} {side : Side} {es : List (Ptr × Bytes)} {value : Bytes} (h : l.Holds (side.view es))
    (hvalue : Short value) (hsize : es.length + 1 < 2 ^ 32) :
    ∃ l', pushNode l side value = .ok l' ∧ l'.Holds (side.view ((l.mem.next, value) :: es)) := by
  cases es with
  | nil =>
    have hempty : l.Holds [] := by cases side <;> exact h
    obtain ⟨l', hrun, hholds⟩ := pushNode_empty hempty hvalue side
    refine ⟨l', hrun, ?_⟩
    cases side <;> exact hholds
  | cons e es =>
    rw [List.length_cons] at hsize
    cases side with
    | left => exact pushNode_left h hvalue hsize
    | right =>
      rw [Side.view, List.reverse_cons] at h
      obtain ⟨l', hrun, hholds⟩ := pushNode_right h hvalue (by simpa using hsize)
      refine ⟨l', hrun, ?_⟩
      rw [Side.view, List.reverse_cons, List.reverse_cons]
      exact hholds

theorem popNode_spec {l : DList} {side : Side} {p : Ptr} {v : Bytes} {es : List (Ptr × Bytes)}
    (h : l.Holds (side.view ((p, v) :: es))) (hsize : es.length + 1 < 2 ^ 32) :
    ∃ l', popNode l side = .ok (l', v) ∧ l'.Holds (side.view es) := by
  cases side with
  | left => exact popNode_left h hsize
  | right =>
    rw [Side.view, List.reverse_cons] at h
    exact popNode_right h (by simpa using hsize)

theorem popLoop_spec {n : Nat} {l : DList} {side : Side} {es : List (Ptr × Bytes)} (h : l.Holds (side.view es))
    (hn : n ≤ es.length) (hsize : es.length < 2 ^ 32) (out : Bytes) :
    ∃ l', popLoop n l side out = .ok (l', outStrs out ((es.take n).map Prod.snd)) ∧
      l'.Holds (side.view (es.drop n)) := by
  induction n generalizing l es out with
  | zero => exact ⟨l, rfl, h⟩
  | succ n ih =>
    cases es with
    | nil => simp at hn
    | cons e es =>
      obtain ⟨p, v⟩ := e
      rw [List.length_cons] at hn hsize
      obtain ⟨l₁, hpop, hholds₁⟩ := popNode_spec h hsize
      obtain ⟨l', hloop, hholds⟩ := ih hholds₁ (by omega) (by omega) (outStr out v)
      refine ⟨l', ?_, hholds⟩
      rw [popLoop, hpop]
      simp only [bind, Except.bind, hloop, List.take_succ_cons, List.map_cons]
      rfl

@[simp] theorem Side.view_nil {β : Type} (side : Side) : side.view ([] : List β) = [] := by
  cases side
  · rfl
  · rfl

/-- The pops of one command, on the values. -/
theorem popLoop_values {l : DList} {es : List (Ptr × Bytes)} {d : List Bytes} (h : l.Holds es)
    (hmap : es.map Prod.snd = d) (hsize : d.length < 2 ^ 32) (n : Nat) (side : Side) (out : Bytes) :
    ∃ l', popLoop (min n d.length) l side out = .ok (l', outStrs out ((side.view d).take n)) ∧
      ∃ es', l'.Holds es' ∧ es'.map Prod.snd = side.view ((side.view d).drop n) := by
  have hview : (side.view es).length = d.length := by rw [Side.length_view, ← hmap, List.length_map]
  have hvals : (side.view es).map Prod.snd = side.view d := by rw [Side.map_view, hmap]
  rw [← Side.view_view side es] at h
  obtain ⟨l', hloop, hholds⟩ := popLoop_spec h (n := min n d.length) (by omega) (by omega) out
  have htake : ((side.view es).take (min n d.length)).map Prod.snd = (side.view d).take n := by
    rw [List.map_take, hvals, List.take_eq_take_iff, Side.length_view]
    omega
  have hdrop : ((side.view es).drop (min n d.length)).map Prod.snd = (side.view d).drop n := by
    rw [List.map_drop, hvals, List.drop_eq_drop_iff, Side.length_view]
    omega
  refine ⟨l', by rw [hloop, htake], _, hholds, ?_⟩
  rw [Side.map_view, hdrop]

/-- The number of pops goes through a signed integer of 32 bits. -/
theorem toI32_popCount {count : Int} (hlow : 1 ≤ count) (hhigh : count ≤ 2 ^ 31 - 1) (size : Nat) :
    toI32 (min (toU32 (toI32 count)) size : Nat) = (min count.toNat size : Nat) := by
  have hcount : toU32 (toI32 count) = count.toNat := by
    rw [toI32_of_lt (by omega) (by omega)]
    unfold toU32
    omega
  rw [hcount]
  exact toI32_of_lt (by omega) (by omega)

/-! ### The commands -/

inductive ListOp
  | push (side : Side) (value : Bytes)
  | pop (side : Side) (count : Nat)
  deriving DecidableEq

/-- The operation on the side it works on. -/
def ListOp.apply (d : List Bytes) : ListOp → List Bytes
  | push side value => side.view (value :: side.view d)
  | pop side count => side.view ((side.view d).drop count)

/-- The pop of a request with a count from `1` to `2 ^ 31 - 1`. -/
def popOp (side : Side) (cmd : List Bytes) : Option ListOp :=
  if cmd.length ≥ 3 ∧ 1 ≤ strtol (cmd.getD 2 []) ∧ strtol (cmd.getD 2 []) ≤ 2 ^ 31 - 1
    then some (.pop side (strtol (cmd.getD 2 [])).toNat) else none

def listOp (cmd : List Bytes) : Option ListOp :=
  match commandOf cmd with
  | .lpush => some (.push .left (cmd.getD 2 []))
  | .rpush => some (.push .right (cmd.getD 2 []))
  | .lpop => popOp .left cmd
  | .rpop => popOp .right cmd
  | _ => none

def dequeStep (d : List Bytes) (r : Request) : List Bytes := ((listOp r.tokens).map (ListOp.apply d)).getD d

/-- A push or a pop on the key that leaves fewer than `2 ^ 32` elements. -/
structure ListRequest (key : Bytes) (d : List Bytes) (r : Request) : Prop where
  key : keyOf r.tokens = key
  op : (listOp r.tokens).isSome
  room : (dequeStep d r).length < 2 ^ 32

instance decidableListRequest (key : Bytes) (d : List Bytes) (r : Request) : Decidable (ListRequest key d r) :=
  decidable_of_iff (keyOf r.tokens = key ∧ (listOp r.tokens).isSome ∧ (dequeStep d r).length < 2 ^ 32)
    ⟨fun h => ⟨h.1, h.2.1, h.2.2⟩, fun h => ⟨h.key, h.op, h.room⟩⟩

/-- What a deque answers. -/
def ListOp.Reply (d : List Bytes) (out : Bytes) : ListOp → Bytes → Prop
  | push _ _, reply => reply = outInt out (d.length + 1)
  | pop side count, reply => d ≠ [] →
    reply = outStrs (outArr out (min count d.length)) ((side.view d).take count)

/-- The payload of a key whose list has a value. -/
def HoldsList (d : List Bytes) : Option Payload → Prop
  | none => d = []
  | some (.list l) => ∃ es, l.Holds es ∧ es.map Prod.snd = d
  | some _ => False

/-- The list of a key, or the empty one that a push creates. -/
theorem HoldsList.exists_list {d : List Bytes} {o : Option Payload} (h : HoldsList d o) :
    ∃ l, o.getD (.list {}) = .list l ∧ ∃ es, l.Holds es ∧ es.map Prod.snd = d := by
  cases o with
  | none =>
    obtain rfl : d = [] := h
    exact ⟨{}, rfl, [], DList.Holds.empty, rfl⟩
  | some p =>
    cases p with
    | list l => exact ⟨l, rfl, h⟩
    | _ => exact h.elim

/-- The two walks over a list that has a value, each with as many steps as there are cells. -/
theorem HoldsList.traversals {d : List Bytes} {o : Option Payload} (h : HoldsList d o) (hne : d ≠ []) :
    ∃ l, o = some (.list l) ∧ l.size = d.length ∧ traverse DListNode.next l.mem l.mem.next l.head = .ok d ∧
      traverse DListNode.prev l.mem l.mem.next l.tail = .ok d.reverse := by
  cases o with
  | none => exact absurd h hne
  | some p =>
    cases p with
    | list l =>
      obtain ⟨es, hes, rfl⟩ := h
      have hne' : es ≠ [] := fun hnil => hne (by rw [hnil]; rfl)
      have hfuel : es.length ≤ l.mem.next := by
        have hle : (es.map Prod.fst).length ≤ l.mem.next := Mem.length_le_next hes.nodup fun p hp => by
          obtain ⟨e, he, rfl⟩ := List.mem_map.mp hp
          obtain ⟨c, hc⟩ := hes.seg.live he
          exact Option.isSome_of_eq_some hc
        rwa [List.length_map] at hle
      refine ⟨l, rfl, by rw [hes.size, List.length_map], ?_, ?_⟩
      · rw [hes.head hne']
        exact traverse_next hes.seg hfuel
      · rw [hes.tail hne']
        exact traverse_prev hes.seg hfuel
    | _ => exact h.elim

section Commands

variable {g : GlobalData} {cmd : List Bytes} {d : List Bytes}

theorem doPush_deque (env : Env) (h : g.WF) (hkey : Short (keyOf cmd)) (hvalue : Short (cmd.getD 2 []))
    (hlen : cmd.length = 3) (hd : HoldsList d (g.payloadOf (keyOf cmd))) (hsize : d.length + 1 < 2 ^ 32) (side : Side)
    (out : Bytes) :
    ∃ g', doPush env g out cmd side = .ok ⟨g', outInt out (d.length + 1), .success⟩ ∧ g'.WF ∧
      HoldsList (side.view (cmd.getD 2 [] :: side.view d)) (g'.payloadOf (keyOf cmd)) := by
  obtain ⟨g₁, n, hup⟩ := findOrInsert_upserted env h hkey (.list {}) (bare_of_type (by decide) (by decide))
  obtain ⟨l, hl, es, hes, hmap⟩ := hd.exists_list
  rw [← hup.payload] at hl
  have hlen' : (side.view es).length + 1 < 2 ^ 32 := by
    rw [← hmap, List.length_map] at hsize
    rwa [Side.length_view]
  have hview : l.Holds (side.view (side.view es)) := by rwa [Side.view_view]
  obtain ⟨l', hpush, hholds⟩ := pushNode_spec hview hvalue hlen'
  obtain ⟨g', hput, hwf, hstored⟩ := hup.put (.list l')
  have hl'size : l'.size = d.length + 1 := by
    rw [hholds.size, Side.length_view, List.length_cons, Side.length_view, ← hmap, List.length_map]
  refine ⟨g', ?_, hwf, ?_⟩
  · rw [doPush, arg_one (by omega), arg_eq_getD (by omega)]
    simp only [ok_bind, hup.run, hl, hpush, hput, hl'size]
  · rw [hstored]
    refine ⟨_, hholds, ?_⟩
    rw [Side.map_view, List.map_cons, Side.map_view, hmap]

theorem doPop_deque (h : g.WF) (hkey : Short (keyOf cmd)) (hlen : 3 ≤ cmd.length)
    (hd : HoldsList d (g.payloadOf (keyOf cmd))) (hsize : d.length < 2 ^ 32) (hlow : 1 ≤ strtol (cmd.getD 2 []))
    (hhigh : strtol (cmd.getD 2 []) ≤ 2 ^ 31 - 1) (side : Side) (out : Bytes) :
    ∃ g' reply ret, doPop g out cmd side = .ok ⟨g', reply, ret⟩ ∧ g'.WF ∧
      HoldsList (side.view ((side.view d).drop (strtol (cmd.getD 2 [])).toNat)) (g'.payloadOf (keyOf cmd)) ∧
      (d ≠ [] → reply = outStrs (outArr out (min (strtol (cmd.getD 2 [])).toNat d.length))
        ((side.view d).take (strtol (cmd.getD 2 [])).toNat)) := by
  rw [doPop, arg_one (by omega), arg_eq_getD (by omega), ok_bind, ok_bind, findNode_bind h hkey]
  generalize strtol (cmd.getD 2 []) = count at hlow hhigh ⊢
  cases hn : g.nodeOf (keyOf cmd) with
  | none =>
    have hnone : g.payloadOf (keyOf cmd) = none := payloadOf_eq_none.mpr hn
    rw [hnone] at hd
    obtain rfl : d = [] := hd
    refine ⟨g, _, _, rfl, h, ?_, fun hne => absurd rfl hne⟩
    rw [hnone, Side.view_nil, List.drop_nil, Side.view_nil]
    rfl
  | some n =>
    rw [payloadOf_of_nodeOf hn] at hd
    obtain ⟨l, hl, es, hes, hmap⟩ := hd.exists_list
    rw [Option.getD_some] at hl
    have hlsize : l.size = d.length := by rw [hes.size, ← hmap, List.length_map]
    simp only [hl, toI32_popCount hlow hhigh, hlsize]
    by_cases hempty : d = []
    · -- nothing to pop
      subst hempty
      rw [List.length_nil, Nat.min_zero, if_pos (by simp)]
      refine ⟨g, _, _, rfl, h, ?_, fun hne => absurd rfl hne⟩
      rw [payloadOf_of_nodeOf hn, hl, Side.view_nil, List.drop_nil, Side.view_nil]
      exact ⟨es, hes, hmap⟩
    · have hpos : 0 < d.length := List.length_pos_iff.mpr hempty
      have hround : toU32 (min count.toNat d.length : Nat) = min count.toNat d.length := toU32_of_lt (by omega)
      obtain ⟨l', hloop, hholds⟩ := popLoop_values hes hmap hsize count.toNat side
        (outArr out (min count.toNat d.length))
      obtain ⟨g', hput, hwf, hstored⟩ := putPayload_payloadOf h hkey hn (.list l')
      rw [if_neg (by omega)]
      simp only [Int.toNat_natCast, hround, hloop, ok_bind, hput]
      refine ⟨g', _, _, rfl, hwf, ?_, fun _ => rfl⟩
      rw [hstored]
      exact hholds

end Commands

/-! ### Runs -/

def Side.pushes : Side → Command
  | .left => .lpush
  | .right => .rpush

def Side.pops : Side → Command
  | .left => .lpop
  | .right => .rpop

theorem listOp_cases {cmd : List Bytes} {op : ListOp} (h : listOp cmd = some op) :
    (∃ side : Side, commandOf cmd = side.pushes ∧ op = .push side (cmd.getD 2 [])) ∨
      ∃ side : Side, commandOf cmd = side.pops ∧ 3 ≤ cmd.length ∧ 1 ≤ strtol (cmd.getD 2 []) ∧
        strtol (cmd.getD 2 []) ≤ 2 ^ 31 - 1 ∧ op = .pop side (strtol (cmd.getD 2 [])).toNat := by
  have hpop : ∀ side, popOp side cmd = some op → 3 ≤ cmd.length ∧ 1 ≤ strtol (cmd.getD 2 []) ∧
      strtol (cmd.getD 2 []) ≤ 2 ^ 31 - 1 ∧ op = .pop side (strtol (cmd.getD 2 [])).toNat := by
    intro side hop
    rw [popOp] at hop
    split at hop
    · next hc => exact ⟨hc.1, hc.2.1, hc.2.2, (Option.some.inj hop).symm⟩
    · cases hop
  rw [listOp] at h
  split at h
  · next hc => exact .inl ⟨.left, hc, (Option.some.inj h).symm⟩
  · next hc => exact .inl ⟨.right, hc, (Option.some.inj h).symm⟩
  · next hc => exact .inr ⟨.left, hc, hpop .left h⟩
  · next hc => exact .inr ⟨.right, hc, hpop .right h⟩
  · cases h

/-- One command on the key is one operation on the deque. -/
theorem respond_deque {key : Bytes} (env : Env) {g : GlobalData} {d : List Bytes} {r : Request} (h : g.WF)
    (hd : HoldsList d (g.payloadOf key)) (hlen : d.length < 2 ^ 32) (hr : ListRequest key d r) :
    ∃ g' out, respond env g r = .ok (g', out) ∧ g'.WF ∧ HoldsList (dequeStep d r) (g'.payloadOf key) ∧
      ∀ op, listOp r.tokens = some op → op.Reply d (beforeResBuild []).1 out := by
  obtain ⟨hkey, hop, hroom⟩ := hr
  subst hkey
  obtain ⟨op, hop⟩ := Option.isSome_iff_exists.mp hop
  rw [dequeStep, hop, Option.map_some, Option.getD_some] at hroom ⊢
  rcases listOp_cases hop with ⟨side, hc, rfl⟩ | ⟨side, hc, hargs, hlow, hhigh, rfl⟩
  · have harity : r.tokens.length = 3 := by
      have := commandOf_arity hc
      cases side <;> exact this
    rw [ListOp.apply, Side.length_view, List.length_cons, Side.length_view] at hroom
    obtain ⟨g', hrun, hwf, hholds⟩ := doPush_deque env h r.short_key (r.short_token 2) harity hd hroom side
      (beforeResBuild []).1
    have hcmd : runCommand env g (beforeResBuild []).1 r.tokens side.pushes =
        doPush env g (beforeResBuild []).1 r.tokens side := by cases side <;> rfl
    refine ⟨g', _, respond_of_run hc (by omega) (hcmd.trans hrun), hwf, hholds, fun op' hop' => ?_⟩
    rw [← Option.some.inj hop', ListOp.Reply]
  · obtain ⟨g', out, ret, hrun, hwf, hholds, hreply⟩ := doPop_deque h r.short_key hargs hd hlen hlow hhigh side
      (beforeResBuild []).1
    have hcmd : runCommand env g (beforeResBuild []).1 r.tokens side.pops =
        doPop g (beforeResBuild []).1 r.tokens side := by cases side <;> rfl
    refine ⟨g', out, respond_of_run hc (by omega) (hcmd.trans hrun), hwf, hholds, fun op' hop' => ?_⟩
    rw [← Option.some.inj hop', ListOp.Reply]
    exact hreply

/-- The deque that the requests of a run leave. -/
def dequeAfter (requests : List (Env × Request)) : List Bytes := requests.foldl (fun d e => dequeStep d e.2) []

/-- A run of pushes and pops on a key that starts absent leaves the value of the deque there. -/
theorem list_run {g₀ : GlobalData} (hg : Reachable g₀) {key : Bytes} (habsent : g₀.nodeOf key = none)
    {requests : List (Env × Request)}
    (hreq : Follows (fun d e => dequeStep d e.2) (fun d e => ListRequest key d e.2) [] requests) :
    ∃ g, run serverStep g₀ (requests.map fun e => .request e.1 e.2) = .ok g ∧ g.WF ∧
      HoldsList (dequeAfter requests) (g.payloadOf key) ∧ (dequeAfter requests).length < 2 ^ 32 := by
  have hstep : ∀ env g d r, g.WF → (HoldsList d (g.payloadOf key) ∧ d.length < 2 ^ 32) → ListRequest key d r →
      ∃ g' out, respond env g r = .ok (g', out) ∧ g'.WF ∧ HoldsList (dequeStep d r) (g'.payloadOf key) ∧
        (dequeStep d r).length < 2 ^ 32 := by
    intro env g d r hwf hd hr
    obtain ⟨g', out, hrun, hwf', hholds, -⟩ := respond_deque env hwf hd.1 hd.2 hr
    exact ⟨g', out, hrun, hwf', hholds, hr.room⟩
  exact run_on_key (fun o d => HoldsList d o ∧ d.length < 2 ^ 32) hstep hg habsent ⟨rfl, by decide⟩ hreq

/-- Every run of pushes and pops on a key that starts absent leaves the list that a deque would hold, readable from
either end, and answers as the deque does. -/
theorem lists_refine_deque {g₀ : GlobalData} (hg : Reachable g₀) {key : Bytes} (habsent : g₀.nodeOf key = none)
    (requests : List (Env × Request))
    (hreq : Follows (fun d e => dequeStep d e.2) (fun d e => ListRequest key d e.2) [] requests) :
    ∃ g, run serverStep g₀ (requests.map fun e => .request e.1 e.2) = .ok g ∧
      (dequeAfter requests ≠ [] → ∃ l, g.payloadOf key = some (.list l) ∧ l.size = (dequeAfter requests).length ∧
        traverse DListNode.next l.mem l.mem.next l.head = .ok (dequeAfter requests) ∧
        traverse DListNode.prev l.mem l.mem.next l.tail = .ok (dequeAfter requests).reverse) ∧
      ∀ env r op, ListRequest key (dequeAfter requests) r → listOp r.tokens = some op →
        ∃ g' out, respond env g r = .ok (g', out) ∧ op.Reply (dequeAfter requests) (beforeResBuild []).1 out := by
  obtain ⟨g, hrun, hwf, hholds, hlen⟩ := list_run hg habsent hreq
  refine ⟨g, hrun, fun hne => hholds.traversals hne, fun env r op hr hop => ?_⟩
  obtain ⟨g', out, hres, -, -, hreply⟩ := respond_deque env hwf hholds hlen hr
  exact ⟨g', out, hres, hreply op hop⟩

/-- A list that is emptied from the left and filled again at both ends. -/
def refillingRequests : List (Env × Request) :=
  [({}, .ofTexts ["lpush", "l", "a"]), ({}, .ofTexts ["rpush", "l", "b"]), ({}, .ofTexts ["lpop", "l", "5"]),
    ({}, .ofTexts ["rpush", "l", "c"]), ({}, .ofTexts ["lpush", "l", "d"])]

theorem lists_refine_deque_refilled : dequeAfter refillingRequests = [text "d", text "c"] ∧
    ∃ g, run serverStep {} (refillingRequests.map fun e => .request e.1 e.2) = .ok g ∧
      (∃ l, g.payloadOf (text "l") = some (.list l) ∧
        traverse DListNode.next l.mem l.mem.next l.head = .ok [text "d", text "c"]) ∧
      ∃ g' out, respond {} g (.ofTexts ["rpop", "l", "1"]) = .ok (g', out) ∧
        out = outStr (outArr (beforeResBuild []).1 1) (text "c") := by
  have hafter : dequeAfter refillingRequests = [text "d", text "c"] := by decide +kernel
  have habsent : ({} : GlobalData).nodeOf (text "l") = none := by decide
  obtain ⟨g, hrun, htraverse, hreply⟩ := lists_refine_deque ⟨[], rfl⟩ habsent refillingRequests (by decide +kernel)
  rw [hafter] at htraverse hreply
  obtain ⟨l, hl, -, hnext, -⟩ := htraverse (by decide)
  obtain ⟨g', out, hres, hout⟩ := hreply {} (.ofTexts ["rpop", "l", "1"]) (.pop .right 1) (by decide +kernel)
    (by decide +kernel)
  exact ⟨hafter, g, hrun, ⟨l, hl, hnext⟩, g', out, hres, hout (by decide)⟩

end CustomRedis
