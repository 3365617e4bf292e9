import CustomRedis.Model.Dlist
import CustomRedis.Lib.LinkedRing
import CustomRedis.Lib.Run

/-!
# The links of a doubly linked list

What the operations of `dlist.cpp` do to the links of a memory of nodes, and what that means for a ring: a new node is
put before the sentinel, a node of the ring is taken out, and to detach a node that is not in the ring does no harm only
where its old links say what the ring says. Any other node can take the part of the sentinel, and the same writes the other
way round put a node behind it, so on the sequence behind a sentinel the operations are edits at any place.
-/

namespace CustomRedis

open Run (ok_bind ok_of_bind)

namespace DListMem

variable {α : Type} {m m' : DListMem α} {p q c t : Ptr} {l : List Ptr}

/-- `p->next`, nothing if there is no such node. -/
def nextOf (m : DListMem α) (p : Ptr) : Option Ptr := (m.read p).bind DListNode.next

/-- `p->prev` -/
def prevOf (m : DListMem α) (p : Ptr) : Option Ptr := (m.read p).bind DListNode.prev

/-- The nodes that `next` leads through from a sentinel. -/
def nodes (m : DListMem α) (sentinel : Ptr) : List Ptr := follow m.nextOf sentinel m.next sentinel

/-- The ring of a sentinel and the nodes of the list. -/
def IsRing (m : DListMem α) (sentinel : Ptr) (l : List Ptr) : Prop := LinkedRing m.nextOf m.prevOf sentinel l

/-! ### Writes -/

/-- Nothing but links has changed. -/
structure Relinked (m m' : DListMem α) : Prop where
  next : m'.next = m.next
  val : ∀ q, (m'.read q).map DListNode.val = (m.read q).map DListNode.val

theorem Relinked.refl (m : DListMem α) : Relinked m m := ⟨rfl, fun _ => rfl⟩

theorem Relinked.trans {m₁ : DListMem α} (h : Relinked m m₁) (h' : Relinked m₁ m') : Relinked m m' :=
  ⟨h'.next.trans h.next, fun q => (h'.val q).trans (h.val q)⟩

theorem Relinked.live (h : Relinked m m') (q : Ptr) : (m'.read q).isSome = (m.read q).isSome := by
  have hval := congrArg Option.isSome (h.val q)
  rwa [Option.isSome_map, Option.isSome_map] at hval

/-- A node whose links are the same is the same. -/
theorem Relinked.read_eq (h : Relinked m m') {q : Ptr} (hnext : m'.nextOf q = m.nextOf q) (hprev : m'.prevOf q = m.prevOf q) :
    m'.read q = m.read q := by
  have hval := h.val q
  unfold nextOf at hnext
  unfold prevOf at hprev
  cases hread : m.read q with
  | none =>
    rw [hread] at hval
    exact Option.map_eq_none_iff.mp hval
  | some c =>
    rw [hread] at hval hnext hprev
    obtain ⟨⟨prev, next, val⟩, hc, rfl⟩ := Option.map_eq_some_iff.mp hval
    rw [hc] at hnext hprev ⊢
    cases c
    cases hnext
    cases hprev
    rfl

theorem Relinked.forall_val (h : Relinked m m') {P : α → Prop} (hm : ∀ p c, m.read p = some c → P c.val) :
    ∀ p c, m'.read p = some c → P c.val := by
  intro p c hc
  have hval := h.val p
  rw [hc] at hval
  obtain ⟨d, hd, heq⟩ := Option.map_eq_some_iff.mp hval.symm
  rw [← heq]
  exact hm p d hd

theorem node_ok {c : DListNode α} (h : m.node p = .ok c) : m.read p = some c := by
  unfold node at h
  split at h
  · next heq =>
    cases h
    exact heq
  · cases h

theorem modify_ok {f : DListNode α → DListNode α} (h : m.modify p f = .ok m') :
    ∃ c, m.read p = some c ∧ m' = m.set p (f c) := by
  obtain ⟨c, hc, h⟩ := ok_of_bind h
  cases h
  exact ⟨c, node_ok hc, rfl⟩

theorem read_modify {f : DListNode α → DListNode α} (h : m.modify p f = .ok m') (q : Ptr) :
    m'.read q = if q = p then (m.read p).map f else m.read q := by
  obtain ⟨c, hc, rfl⟩ := modify_ok h
  rw [Mem.read_set (Mem.lt_next_of_read hc), hc]
  rfl

theorem relinked_modify {f : DListNode α → DListNode α} (h : m.modify p f = .ok m') (hf : ∀ c, (f c).val = c.val) :
    Relinked m m' := by
  constructor
  · obtain ⟨c, -, rfl⟩ := modify_ok h
    exact Mem.next_set m p (f c)
  · intro q
    rw [read_modify h]
    split
    · next heq =>
      rw [heq, Option.map_map]
      exact Option.map_congr fun c _ => hf c
    · rfl

theorem setNext_ok {next : Option Ptr} (h : m.setNext p next = .ok m') : Relinked m m' ∧
    (∀ q, m'.nextOf q = if q = p then next else m.nextOf q) ∧ ∀ q, m'.prevOf q = m.prevOf q := by
  obtain ⟨c, hc, -⟩ := modify_ok h
  refine ⟨relinked_modify h fun _ => rfl, fun q => ?_, fun q => ?_⟩
  · rw [nextOf, read_modify h, hc]
    split
    · rfl
    · rfl
  · rw [prevOf, prevOf, read_modify h]
    split
    · next heq =>
      rw [heq, hc]
      rfl
    · rfl

theorem setPrev_ok {prev : Option Ptr} (h : m.setPrev p prev = .ok m') : Relinked m m' ∧
    (∀ q, m'.prevOf q = if q = p then prev else m.prevOf q) ∧ ∀ q, m'.nextOf q = m.nextOf q := by
  obtain ⟨c, hc, -⟩ := modify_ok h
  refine ⟨relinked_modify h fun _ => rfl, fun q => ?_, fun q => ?_⟩
  · rw [prevOf, read_modify h, hc]
    split
    · rfl
    · rfl
  · rw [nextOf, nextOf, read_modify h]
    split
    · next heq =>
      rw [heq, hc]
      rfl
    · rfl

theorem modify_runs (hp : (m.read p).isSome) (f : DListNode α → DListNode α) : ∃ m', m.modify p f = .ok m' := by
  obtain ⟨c, hc⟩ := Option.isSome_iff_exists.mp hp
  refine ⟨m.set p (f c), ?_⟩
  rw [modify, node, hc]
  rfl

theorem setNextIf_runs {p : Option Ptr} (hp : ∀ q, p = some q → (m.read q).isSome) (next : Option Ptr) :
    ∃ m', m.setNext? p next = .ok m' := by
  cases p with
  | none => exact ⟨m, rfl⟩
  | some p => exact modify_runs (hp p rfl) _

theorem setPrevIf_runs {p : Option Ptr} (hp : ∀ q, p = some q → (m.read q).isSome) (prev : Option Ptr) :
    ∃ m', m.setPrev? p prev = .ok m' := by
  cases p with
  | none => exact ⟨m, rfl⟩
  | some p => exact modify_runs (hp p rfl) _

theorem setNextIf_ok {p next : Option Ptr} (h : m.setNext? p next = .ok m') : Relinked m m' ∧
    (∀ q, m'.nextOf q = if p = some q then next else m.nextOf q) ∧ ∀ q, m'.prevOf q = m.prevOf q := by
  cases p with
  | none =>
    cases h
    exact ⟨.refl m, fun q => (if_neg nofun).symm, fun q => rfl⟩
  | some p =>
    obtain ⟨hframe, hnext, hprev⟩ := setNext_ok h
    refine ⟨hframe, fun q => ?_, hprev⟩
    simp only [hnext, Option.some.injEq, eq_comm]

theorem setPrevIf_ok {p prev : Option Ptr} (h : m.setPrev? p prev = .ok m') : Relinked m m' ∧
    (∀ q, m'.prevOf q = if p = some q then prev else m.prevOf q) ∧ ∀ q, m'.nextOf q = m.nextOf q := by
  cases p with
  | none =>
    cases h
    exact ⟨.refl m, fun q => (if_neg nofun).symm, fun q => rfl⟩
  | some p =>
    obtain ⟨hframe, hprev, hnext⟩ := setPrev_ok h
    refine ⟨hframe, fun q => ?_, hnext⟩
    simp only [hprev, Option.some.injEq, eq_comm]

/-! ### Operations -/

theorem dlistDeatach_ok (h : dlistDeatach m c = .ok m') : Relinked m m' ∧
    (∀ q, m'.nextOf q = if m.prevOf c = some q then m.nextOf c else m.nextOf q) ∧
    ∀ q, m'.prevOf q = if m.nextOf c = some q then m.prevOf c else m.prevOf q := by
  obtain ⟨node, hnode, h⟩ := ok_of_bind h
  obtain ⟨m₁, h₁, h⟩ := ok_of_bind h
  obtain ⟨hframe₁, hnext₁, hprev₁⟩ := setNextIf_ok h₁
  obtain ⟨hframe, hprev, hnext⟩ := setPrevIf_ok h
  have hprevc : m.prevOf c = node.prev := by rw [prevOf, node_ok hnode]; rfl
  have hnextc : m.nextOf c = node.next := by rw [nextOf, node_ok hnode]; rfl
  refine ⟨hframe₁.trans hframe, fun q => ?_, fun q => ?_⟩
  · rw [hnext, hnext₁, hprevc, hnextc]
  · rw [hprev, hprev₁, hprevc, hnextc]

theorem dlistInsertBefore_ok (h : dlistInsertBefore m t c = .ok m') : Relinked m m' ∧
    (∀ q, m'.nextOf q = if m.prevOf t = some q then some c else if q = c then some t else m.nextOf q) ∧
    ∀ q, m'.prevOf q = if q = c then m.prevOf t else if q = t then some c else m.prevOf q := by
  obtain ⟨target, htarget, h⟩ := ok_of_bind h
  obtain ⟨m₁, h₁, h⟩ := ok_of_bind h
  obtain ⟨m₂, h₂, h⟩ := ok_of_bind h
  obtain ⟨m₃, h₃, h⟩ := ok_of_bind h
  obtain ⟨hframe₁, hprev₁, hnext₁⟩ := setPrev_ok h₁
  obtain ⟨hframe₂, hnext₂, hprev₂⟩ := setNext_ok h₂
  obtain ⟨hframe₃, hprev₃, hnext₃⟩ := setPrev_ok h₃
  obtain ⟨hframe, hnext, hprev⟩ := setNextIf_ok h
  have hprevt : m.prevOf t = target.prev := by rw [prevOf, node_ok htarget]; rfl
  refine ⟨((hframe₁.trans hframe₂).trans hframe₃).trans hframe, fun q => ?_, fun q => ?_⟩
  · rw [hnext, hnext₃, hnext₂, hnext₁, hprevt]
  · rw [hprev, hprev₃, hprev₂, hprev₁, hprevt]

theorem dlistInsertAfter_ok (h : dlistInsertAfter m t c = .ok m') : Relinked m m' ∧
    (∀ q, m'.prevOf q = if m.nextOf t = some q then some c else if q = c then some t else m.prevOf q) ∧
    ∀ q, m'.nextOf q = if q = c then m.nextOf t else if q = t then some c else m.nextOf q := by
  obtain ⟨target, htarget, h⟩ := ok_of_bind h
  obtain ⟨m₁, h₁, h⟩ := ok_of_bind h
  obtain ⟨m₂, h₂, h⟩ := ok_of_bind h
  obtain ⟨m₃, h₃, h⟩ := ok_of_bind h
  obtain ⟨hframe₁, hnext₁, hprev₁⟩ := setNext_ok h₁
  obtain ⟨hframe₂, hprev₂, hnext₂⟩ := setPrev_ok h₂
  obtain ⟨hframe₃, hnext₃, hprev₃⟩ := setNext_ok h₃
  obtain ⟨hframe, hprev, hnext⟩ := setPrevIf_ok h
  have hnextt : m.nextOf t = target.next := by rw [nextOf, node_ok htarget]; rfl
  refine ⟨((hframe₁.trans hframe₂).trans hframe₃).trans hframe, fun q => ?_, fun q => ?_⟩
  · rw [hprev, hprev₃, hprev₂, hprev₁, hnextt]
  · rw [hnext, hnext₃, hnext₂, hnext₁, hnextt]

/-- The operations run where the nodes they write to are there. -/
theorem dlistDeatach_runs (hc : (m.read c).isSome) (hprev : ∀ q, m.prevOf c = some q → (m.read q).isSome)
    (hnext : ∀ q, m.nextOf c = some q → (m.read q).isSome) : ∃ m', dlistDeatach m c = .ok m' := by
  obtain ⟨node, hnode⟩ := Option.isSome_iff_exists.mp hc
  have hprevc : m.prevOf c = node.prev := by rw [prevOf, hnode]; rfl
  have hnextc : m.nextOf c = node.next := by rw [nextOf, hnode]; rfl
  rw [hprevc] at hprev
  rw [hnextc] at hnext
  obtain ⟨m₁, h₁⟩ := setNextIf_runs hprev node.next
  obtain ⟨m₂, h₂⟩ := setPrevIf_runs (m := m₁) (fun q hq => ((setNextIf_ok h₁).1.live q).trans (hnext q hq)) node.prev
  refine ⟨m₂, ?_⟩
  simp only [dlistDeatach, DListMem.node, hnode, h₁, h₂, ok_bind]

theorem dlistInsertBefore_runs (ht : (m.read t).isSome) (hc : (m.read c).isSome)
    (hprev : ∀ q, m.prevOf t = some q → (m.read q).isSome) : ∃ m', dlistInsertBefore m t c = .ok m' := by
  obtain ⟨target, htarget⟩ := Option.isSome_iff_exists.mp ht
  have hprevt : m.prevOf t = target.prev := by rw [prevOf, htarget]; rfl
  rw [hprevt] at hprev
  obtain ⟨m₁, h₁⟩ := modify_runs ht fun node => { node with prev := some c }
  have hframe₁ := (setPrev_ok h₁).1
  obtain ⟨m₂, h₂⟩ := modify_runs (m := m₁) ((hframe₁.live c).trans hc) fun node => { node with next := some t }
  have hframe₂ := hframe₁.trans (setNext_ok h₂).1
  obtain ⟨m₃, h₃⟩ := modify_runs (m := m₂) ((hframe₂.live c).trans hc) fun node => { node with prev := target.prev }
  have hframe₃ := hframe₂.trans (setPrev_ok h₃).1
  obtain ⟨m₄, h₄⟩ := setNextIf_runs (m := m₃) (fun q hq => (hframe₃.live q).trans (hprev q hq)) (some c)
  refine ⟨m₄, ?_⟩
  simp only [dlistInsertBefore, DListMem.node, htarget, DListMem.setPrev, DListMem.setNext, h₁, h₂, h₃, h₄, ok_bind]

theorem dlistInsertAfter_runs (ht : (m.read t).isSome) (hc : (m.read c).isSome)
    (hnext : ∀ q, m.nextOf t = some q → (m.read q).isSome) : ∃ m', dlistInsertAfter m t c = .ok m' := by
  obtain ⟨target, htarget⟩ := Option.isSome_iff_exists.mp ht
  have hnextt : m.nextOf t = target.next := by rw [nextOf, htarget]; rfl
  rw [hnextt] at hnext
  obtain ⟨m₁, h₁⟩ := modify_runs ht fun node => { node with next := some c }
  have hframe₁ := (setNext_ok h₁).1
  obtain ⟨m₂, h₂⟩ := modify_runs (m := m₁) ((hframe₁.live c).trans hc) fun node => { node with prev := some t }
  have hframe₂ := hframe₁.trans (setPrev_ok h₂).1
  obtain ⟨m₃, h₃⟩ := modify_runs (m := m₂) ((hframe₂.live c).trans hc) fun node => { node with next := target.next }
  have hframe₃ := hframe₂.trans (setNext_ok h₃).1
  obtain ⟨m₄, h₄⟩ := setPrevIf_runs (m := m₃) (fun q hq => (hframe₃.live q).trans (hnext q hq)) (some c)
  refine ⟨m₄, ?_⟩
  simp only [dlistInsertAfter, DListMem.node, htarget, DListMem.setPrev, DListMem.setNext, h₁, h₂, h₃, h₄, ok_bind]

theorem nextOf_alloc (hq : q < m.next) (v : DListNode α) : nextOf (Mem.alloc m v) q = m.nextOf q := by
  rw [nextOf, nextOf, Mem.read_alloc_of_lt hq]

theorem prevOf_alloc (hq : q < m.next) (v : DListNode α) : prevOf (Mem.alloc m v) q = m.prevOf q := by
  rw [prevOf, prevOf, Mem.read_alloc_of_lt hq]

theorem nextOf_free (hq : q ≠ c) : nextOf (Mem.free m c) q = m.nextOf q := by
  rw [nextOf, nextOf, Mem.read_free_ne hq]

theorem prevOf_free (hq : q ≠ c) : prevOf (Mem.free m c) q = m.prevOf q := by
  rw [prevOf, prevOf, Mem.read_free_ne hq]

/-! ### Rings -/

namespace IsRing

theorem live (h : m.IsRing t l) (hp : p ∈ t :: l) : (m.read p).isSome := by
  obtain ⟨q, -, hq⟩ := LinkedRing.exists_next h hp
  obtain ⟨node, hnode, -⟩ := Option.bind_eq_some_iff.mp hq
  rw [hnode]
  rfl

theorem nodes_eq (h : m.IsRing t l) : m.nodes t = l := by
  apply LinkedRing.follow_eq h
  exact Mem.length_le_next (LinkedRing.nodup h) fun p hp => h.live hp

theorem lt_next (h : m.IsRing t l) (hp : p ∈ t :: l) : p < m.next := by
  obtain ⟨node, hnode⟩ := Option.isSome_iff_exists.mp (h.live hp)
  exact Mem.lt_next_of_read hnode

theorem alloc (h : m.IsRing t l) (v : DListNode α) : IsRing (Mem.alloc m v) t l :=
  LinkedRing.congr h (fun _ hq => nextOf_alloc (h.lt_next hq) v) fun _ hq => prevOf_alloc (h.lt_next hq) v

theorem free (h : m.IsRing t l) (hc : c ∉ t :: l) : IsRing (Mem.free m c) t l := by
  have hne : ∀ q ∈ t :: l, q ≠ c := by
    rintro q hq rfl
    exact hc hq
  exact LinkedRing.congr h (fun q hq => nextOf_free (hne q hq)) fun q hq => prevOf_free (hne q hq)

theorem insertBefore (h : m.IsRing t l) (hc : c ∉ t :: l) (hinsert : dlistInsertBefore m t c = .ok m') :
    m'.IsRing t (l ++ [c]) := by
  obtain ⟨-, hnext, hprev⟩ := dlistInsertBefore_ok hinsert
  exact LinkedRing.link h hc hnext hprev

theorem insertAfter (h : m.IsRing t l) (hc : c ∉ t :: l) (hinsert : dlistInsertAfter m t c = .ok m') :
    m'.IsRing t (c :: l) := by
  obtain ⟨-, hprev, hnext⟩ := dlistInsertAfter_ok hinsert
  have hmirror : c ∉ t :: l.reverse := by simpa using hc
  have hring := (LinkedRing.link (LinkedRing.mirror h) hmirror hprev hnext).mirror
  rwa [List.reverse_append, List.reverse_reverse] at hring

theorem detach (h : m.IsRing t l) (hc : c ∈ l) (hdetach : dlistDeatach m c = .ok m') : m'.IsRing t (l.erase c) := by
  obtain ⟨-, hnext, hprev⟩ := dlistDeatach_ok hdetach
  have hmem : c ∈ t :: l := List.mem_cons_of_mem _ hc
  refine LinkedRing.erase h hc (fun q hq _ => ?_) fun q hq _ => ?_
  · rw [hnext]
    exact if_congr (LinkedRing.next_iff_prev h hq hmem).symm rfl rfl
  · rw [hprev]
    exact if_congr (LinkedRing.next_iff_prev h hmem hq) rfl rfl

/-- The links of a node outside the ring may lead into it, where they say what the ring says. -/
theorem detach_outside (h : m.IsRing t l) (hnext : ∀ p ∈ t :: l, m.prevOf c = some p → m.nextOf p = m.nextOf c)
    (hprev : ∀ p ∈ t :: l, m.nextOf c = some p → m.prevOf p = m.prevOf c) (hdetach : dlistDeatach m c = .ok m') :
    m'.IsRing t l := by
  obtain ⟨-, hnext', hprev'⟩ := dlistDeatach_ok hdetach
  refine LinkedRing.congr h (fun q hq => ?_) fun q hq => ?_
  · rw [hnext']
    split
    · next heq => exact (hnext q hq heq).symm
    · rfl
  · rw [hprev']
    split
    · next heq => exact (hprev q hq heq).symm
    · rfl

theorem rotate {y : Ptr} {A B : List Ptr} (h : m.IsRing t (A ++ y :: B)) : m.IsRing y (B ++ t :: A) :=
  LinkedRing.rotate h

/-! ### The list as a sequence -/

theorem live_prev (h : m.IsRing t l) (hp : p ∈ t :: l) {q : Ptr} (hq : m.prevOf p = some q) : (m.read q).isSome := by
  obtain ⟨r, hr, hlink⟩ := LinkedRing.exists_prev h hp
  rw [hlink] at hq
  exact Option.some.inj hq ▸ h.live hr

theorem live_next (h : m.IsRing t l) (hp : p ∈ t :: l) {q : Ptr} (hq : m.nextOf p = some q) : (m.read q).isSome := by
  obtain ⟨r, hr, hlink⟩ := LinkedRing.exists_next h hp
  rw [hlink] at hq
  exact Option.some.inj hq ▸ h.live hr

end IsRing

/-- Nothing but links of the listed nodes has changed. -/
structure RelinkedIn (m m' : DListMem α) (ps : List Ptr) : Prop extends Relinked m m' where
  outside : ∀ q, q ∉ ps → m'.read q = m.read q

theorem RelinkedIn.congr {ps qs : List Ptr} (h : RelinkedIn m m' ps) (hmem : ∀ q, q ∈ qs ↔ q ∈ ps) : RelinkedIn m m' qs :=
  ⟨h.toRelinked, fun q hq => h.outside q fun hin => hq ((hmem q).mpr hin)⟩

namespace IsRing

theorem exists_insertBefore (h : m.IsRing t l) (hlive : (m.read c).isSome) (hc : c ∉ t :: l) :
    ∃ m', dlistInsertBefore m t c = .ok m' ∧ m'.IsRing t (l ++ [c]) ∧ RelinkedIn m m' (c :: t :: l) := by
  have hstart : t ∈ t :: l := List.mem_cons_self
  obtain ⟨m', hrun⟩ := dlistInsertBefore_runs (h.live hstart) hlive fun q => h.live_prev hstart
  obtain ⟨hframe, hnext, hprev⟩ := dlistInsertBefore_ok hrun
  refine ⟨m', hrun, h.insertBefore hc hrun, hframe, fun q hq => ?_⟩
  obtain ⟨hqc, hq⟩ := not_or.mp (mt List.mem_cons.mpr hq)
  have hqt : q ≠ t := fun heq => hq (heq ▸ hstart)
  have hlast : m.prevOf t ≠ some q := by
    obtain ⟨r, hr, hlink⟩ := LinkedRing.exists_prev h hstart
    rw [hlink]
    rintro ⟨⟩
    exact hq hr
  refine hframe.read_eq ?_ ?_
  · rw [hnext, if_neg hlast, if_neg hqc]
  · rw [hprev, if_neg hqc, if_neg hqt]

theorem exists_insertAfter (h : m.IsRing t l) (hlive : (m.read c).isSome) (hc : c ∉ t :: l) :
    ∃ m', dlistInsertAfter m t c = .ok m' ∧ m'.IsRing t (c :: l) ∧ RelinkedIn m m' (c :: t :: l) := by
  have hstart : t ∈ t :: l := List.mem_cons_self
  obtain ⟨m', hrun⟩ := dlistInsertAfter_runs (h.live hstart) hlive fun q => h.live_next hstart
  obtain ⟨hframe, hprev, hnext⟩ := dlistInsertAfter_ok hrun
  refine ⟨m', hrun, h.insertAfter hc hrun, hframe, fun q hq => ?_⟩
  obtain ⟨hqc, hq⟩ := not_or.mp (mt List.mem_cons.mpr hq)
  have hqt : q ≠ t := fun heq => hq (heq ▸ hstart)
  have hfirst : m.nextOf t ≠ some q := by
    obtain ⟨r, hr, hlink⟩ := LinkedRing.exists_next h hstart
    rw [hlink]
    rintro ⟨⟩
    exact hq hr
  refine hframe.read_eq ?_ ?_
  · rw [hnext, if_neg hqc, if_neg hqt]
  · rw [hprev, if_neg hfirst, if_neg hqc]

section Inside

variable {y : Ptr} {A B : List Ptr}

/-- Where a node of the list takes the part of the sentinel. -/
theorem mem_rotated (q : Ptr) : q ∈ c :: t :: (A ++ y :: B) ↔ q ∈ c :: y :: (B ++ t :: A) := by
  simp only [List.mem_cons, List.mem_append]
  tauto

theorem notMem_rotated (hc : c ∉ t :: (A ++ y :: B)) : c ∉ y :: (B ++ t :: A) := by
  simp only [List.mem_cons, List.mem_append] at hc ⊢
  tauto

theorem exists_insertBefore_inside (h : m.IsRing t (A ++ y :: B)) (hlive : (m.read c).isSome) (hc : c ∉ t :: (A ++ y :: B)) :
    ∃ m', dlistInsertBefore m y c = .ok m' ∧ m'.IsRing t (A ++ c :: y :: B) ∧ RelinkedIn m m' (c :: t :: (A ++ y :: B)) := by
  obtain ⟨m', hrun, hring, hframe⟩ := h.rotate.exists_insertBefore hlive (notMem_rotated hc)
  refine ⟨m', hrun, ?_, hframe.congr mem_rotated⟩
  rw [List.append_assoc, List.cons_append] at hring
  have hback := hring.rotate
  rwa [List.append_assoc] at hback

theorem exists_insertAfter_inside (h : m.IsRing t (A ++ y :: B)) (hlive : (m.read c).isSome) (hc : c ∉ t :: (A ++ y :: B)) :
    ∃ m', dlistInsertAfter m y c = .ok m' ∧ m'.IsRing t (A ++ y :: c :: B) ∧ RelinkedIn m m' (c :: t :: (A ++ y :: B)) := by
  obtain ⟨m', hrun, hring, hframe⟩ := h.rotate.exists_insertAfter hlive (notMem_rotated hc)
  refine ⟨m', hrun, ?_, hframe.congr mem_rotated⟩
  rw [← List.cons_append] at hring
  exact hring.rotate

theorem exists_detach (h : m.IsRing t (A ++ y :: B)) :
    ∃ m', dlistDeatach m y = .ok m' ∧ m'.IsRing t (A ++ B) ∧ RelinkedIn m m' (t :: (A ++ y :: B)) := by
  have hmem : y ∈ A ++ y :: B := by simp
  have hy : y ∈ t :: (A ++ y :: B) := List.mem_cons_of_mem _ hmem
  obtain ⟨m', hrun⟩ := dlistDeatach_runs (h.live hy) (fun q => h.live_prev hy) fun q => h.live_next hy
  obtain ⟨hframe, hnext, hprev⟩ := dlistDeatach_ok hrun
  have hnotin : y ∉ A := by
    intro hA
    obtain ⟨-, hlist⟩ := List.nodup_cons.mp (LinkedRing.nodup h)
    exact List.disjoint_of_nodup_append hlist hA List.mem_cons_self
  refine ⟨m', hrun, ?_, hframe, fun q hq => ?_⟩
  · have hring := h.detach hmem hrun
    rwa [List.erase_append_right _ hnotin, List.erase_cons_head] at hring
  · refine hframe.read_eq ?_ ?_
    · obtain ⟨r, hr, hlink⟩ := LinkedRing.exists_prev h hy
      rw [hnext, if_neg]
      rw [hlink]
      rintro ⟨⟩
      exact hq hr
    · obtain ⟨r, hr, hlink⟩ := LinkedRing.exists_next h hy
      rw [hprev, if_neg]
      rw [hlink]
      rintro ⟨⟩
      exact hq hr

end Inside

theorem empty_eq (h : m.IsRing t l) : dlistEmpty m t = .ok (decide (l = [])) := by
  obtain ⟨node, hnode⟩ := Option.isSome_iff_exists.mp (h.live List.mem_cons_self)
  have hnext : m.nextOf t = node.next := by rw [nextOf, hnode]; rfl
  have hrun : dlistEmpty m t = .ok (node.next == some t) := by
    rw [dlistEmpty, DListMem.node, hnode]
    rfl
  rw [hrun, ← hnext]
  cases l with
  | nil =>
    rw [show m.nextOf t = some t from LinkedRing.forward h]
    simp
  | cons x l =>
    have hne : x ≠ t := by
      rintro rfl
      exact LinkedRing.start_notMem h List.mem_cons_self
    rw [show m.nextOf t = some x from (LinkedRing.forward h).1]
    simp [hne]

end IsRing

/-- The operations edit the sequence of the nodes behind the sentinel, and no node outside is touched. Before the sentinel
is the end of the sequence. -/
theorem ring_operations (h : m.IsRing t l) :
    (∀ c, (m.read c).isSome → c ∉ t :: l →
      (∃ m', dlistInsertBefore m t c = .ok m' ∧ m'.IsRing t (l ++ [c]) ∧ RelinkedIn m m' (c :: t :: l)) ∧
      (∃ m', dlistInsertAfter m t c = .ok m' ∧ m'.IsRing t (c :: l) ∧ RelinkedIn m m' (c :: t :: l)) ∧
      ∀ A y B, l = A ++ y :: B →
        (∃ m', dlistInsertBefore m y c = .ok m' ∧ m'.IsRing t (A ++ c :: y :: B) ∧ RelinkedIn m m' (c :: t :: l)) ∧
        ∃ m', dlistInsertAfter m y c = .ok m' ∧ m'.IsRing t (A ++ y :: c :: B) ∧ RelinkedIn m m' (c :: t :: l)) ∧
    (∀ A y B, l = A ++ y :: B →
      ∃ m', dlistDeatach m y = .ok m' ∧ m'.IsRing t (A ++ B) ∧ RelinkedIn m m' (t :: l)) ∧
    dlistEmpty m t = .ok (decide (l = [])) := by
  refine ⟨fun c hlive hc => ⟨h.exists_insertBefore hlive hc, h.exists_insertAfter hlive hc, ?_⟩, ?_, h.empty_eq⟩
  · rintro A y B rfl
    exact ⟨h.exists_insertBefore_inside hlive hc, h.exists_insertAfter_inside hlive hc⟩
  · rintro A y B rfl
    exact h.exists_detach

/-- A third node goes between the two of a ring, and then the first one is taken out. -/
theorem ring_operations_two : ∃ m m' m'' : DListMem Unit, m.IsRing 0 [1, 2] ∧ dlistEmpty m 0 = .ok false ∧
    dlistInsertBefore m 2 3 = .ok m' ∧ m'.IsRing 0 [1, 3, 2] ∧ dlistDeatach m' 1 = .ok m'' ∧ m''.IsRing 0 [3, 2] := by
  have hring : IsRing (⟨[some ⟨some 2, some 1, ()⟩, some ⟨some 0, some 2, ()⟩, some ⟨some 1, some 0, ()⟩,
      some ⟨none, none, ()⟩]⟩ : DListMem Unit) 0 [1, 2] :=
    ⟨⟨rfl, rfl, rfl⟩, ⟨rfl, rfl, rfl⟩, by decide⟩
  obtain ⟨hinsert, -, hempty⟩ := ring_operations hring
  obtain ⟨⟨m', hrun, hring', -⟩, -⟩ := (hinsert 3 rfl (by decide)).2.2 [1] 2 [] rfl
  obtain ⟨-, hdetach, -⟩ := ring_operations hring'
  obtain ⟨m'', hrun', hring'', -⟩ := hdetach [] 1 [3, 2] rfl
  exact ⟨_, m', m'', hring, hempty, hrun, hring', hrun', hring''⟩

end DListMem

end CustomRedis
