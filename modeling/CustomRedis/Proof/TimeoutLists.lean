import CustomRedis.Proof.Dlist
import CustomRedis.Proof.Connections

/-!
# The timeout lists of the connections

`dlist_deatach` leaves the links of the node as they are, and `dlist_insert_before` does not look whether the node is in
a list already. So the lists stay what they are for only if a node is inserted where it is not linked, and detached where
it is linked or where its old links do no harm. Under this condition on the steps each list is a queue: a connection
joins at the end and leaves anywhere.
-/

namespace CustomRedis

open Run (run ok_of_bind Along check exists_ok_of_check)
open DListMem (nextOf prevOf nodes IsRing)

variable {δ : Type}

/-! ### Which steps keep the lists -/

/-- To detach the node does no harm: it is in the list, or its links say nothing else than those of the list. -/
def DetachOk (m : DListMem Unit) (c : Ptr) : Prop :=
  c ∈ m.nodes sentinel ∨
    (∀ p ∈ sentinel :: m.nodes sentinel, m.prevOf c = some p → m.nextOf p = m.nextOf c) ∧
    ∀ p ∈ sentinel :: m.nodes sentinel, m.nextOf c = some p → m.prevOf p = m.prevOf c

instance (m : DListMem Unit) (c : Ptr) : Decidable (DetachOk m c) :=
  inferInstanceAs (Decidable (_ ∨ _ ∧ _))

/-- `handle_read` with the nodes of the connection as they are. -/
def ReadLinks (s : Loop δ) (c : Ptr) : ReadResult → Prop
  | .again => True
  | .closed => DetachOk (s.lists .read) c
  | .data first rest => ∀ conn ∈ s.conns.read c,
    conn.outgoing ≠ [] ∨ completeFrame (conn.incoming ++ first :: rest) ≠ none →
      DetachOk (s.lists .read) c ∧ c ∉ (s.lists .write).nodes sentinel

/-- `handle_write` with the nodes of the connection as they are. -/
def WriteLinks (s : Loop δ) (c : Ptr) : WriteResult → Prop
  | .again => True
  | .closed => DetachOk (s.lists .write) c
  | .wrote more => ∀ conn ∈ s.conns.read c, conn.outgoing.length ≤ more + 1 →
    DetachOk (s.lists .write) c ∧ c ∉ (s.lists .read).nodes sentinel

/-- `close_conn` with the nodes of the connection as they are. In the idle list every connection is linked. -/
def CloseLinks (s : Loop δ) (c : Ptr) : Prop := DetachOk (s.lists .read) c ∧ DetachOk (s.lists .write) c

def LinksAt (s : Loop δ) (ans : Answer) : Phase → Prop
  | .read c ready _ => ready &&& pollIn ≠ 0 → ReadLinks s c ans.read
  | .write c ready _ => ready &&& pollOut ≠ 0 → WriteLinks s c ans.write
  | .close c ready _ => ready &&& pollErr ≠ 0 →
    ∀ conn ∈ s.conns.read c, conn.wantClose = true → CloseLinks s c
  | .timers currMs list => ∀ c ∈ (s.lists list).nextOf sentinel, ∀ conn ∈ s.conns.read c,
    (conn.stamp list + list.limitMs) % 2 ^ 64 < currMs → CloseLinks s c
  | _ => True

/-- The step inserts no node that is linked, and detaches none whose links are out of date. -/
def LinksOk (s : Loop δ) (ans : Answer) : Prop := LinksAt s ans s.phase

instance (s : Loop δ) (c : Ptr) : (res : ReadResult) → Decidable (ReadLinks s c res)
  | .again => instDecidableTrue
  | .closed => inferInstanceAs (Decidable (DetachOk _ _))
  | .data _ _ => inferInstanceAs (Decidable (∀ conn ∈ s.conns.read c, _ ∨ _ → _))

instance (s : Loop δ) (c : Ptr) : (res : WriteResult) → Decidable (WriteLinks s c res)
  | .again => instDecidableTrue
  | .closed => inferInstanceAs (Decidable (DetachOk _ _))
  | .wrote _ => inferInstanceAs (Decidable (∀ conn ∈ s.conns.read c, _ → _))

instance (s : Loop δ) (c : Ptr) : Decidable (CloseLinks s c) := inferInstanceAs (Decidable (_ ∧ _))

instance (s : Loop δ) (ans : Answer) : (phase : Phase) → Decidable (LinksAt s ans phase)
  | .poll => instDecidableTrue
  | .sockets _ => instDecidableTrue
  | .read _ _ _ => inferInstanceAs (Decidable (_ → _))
  | .write _ _ _ => inferInstanceAs (Decidable (_ → _))
  | .close c _ _ => inferInstanceAs (Decidable (_ → ∀ conn ∈ s.conns.read c, _ → _))
  | .timers _ list =>
    inferInstanceAs (Decidable (∀ c ∈ (s.lists list).nextOf sentinel, ∀ conn ∈ s.conns.read c, _ → _))

instance (s : Loop δ) (ans : Answer) : Decidable (LinksOk s ans) := inferInstanceAs (Decidable (LinksAt s ans s.phase))

/-! ### The lists as queues -/

/-- Each list is the ring of the connections in its queue, which are live. -/
structure Queues (conns : Mem ConnRec) (lists : Timeout → DListMem Unit) (q : Timeout → List Ptr) : Prop where
  ring : ∀ k, (lists k).IsRing sentinel (q k)
  live : ∀ k, ∀ c ∈ q k, (conns.read c).isSome
  size : ∀ k, (lists k).next = conns.next
  start : conns.read sentinel = none

/-- Every live connection is in the idle queue. -/
def AllIdle (conns : Mem ConnRec) (q : Timeout → List Ptr) : Prop := ∀ c, (conns.read c).isSome → c ∈ q .idle

namespace Queues

variable {conns : Mem ConnRec} {lists : Timeout → DListMem Unit} {q : Timeout → List Ptr} {c : Ptr}
  {conn conn' : ConnRec} {k : Timeout} {m : DListMem Unit}

theorem ne_sentinel (h : Queues conns lists q) (hconn : conns.read c = some conn) : c ≠ sentinel := by
  rintro rfl
  rw [h.start] at hconn
  cases hconn

theorem nodes_eq (h : Queues conns lists q) (k : Timeout) : (lists k).nodes sentinel = q k := (h.ring k).nodes_eq

theorem set (h : Queues conns lists q) (hconn : conns.read c = some conn) : Queues (conns.set c conn') lists q := by
  have hsome : (conns.read c).isSome := by rw [hconn]; rfl
  refine ⟨h.ring, fun k d hd => ?_, fun k => ?_, ?_⟩
  · rw [Mem.isSome_read_set hsome]
    exact h.live k d hd
  · rw [Mem.next_set]
    exact h.size k
  · rw [Mem.read_set_ne (h.ne_sentinel hconn).symm]
    exact h.start

/-- One list is relinked. -/
theorem update (h : Queues conns lists q) {l : List Ptr} (hring : m.IsRing sentinel l)
    (hlive : ∀ d ∈ l, (conns.read d).isSome) (hsize : m.next = (lists k).next) :
    Queues conns (Function.update lists k m) (Function.update q k l) := by
  refine ⟨fun j => ?_, fun j => ?_, fun j => ?_, h.start⟩
  · by_cases hj : j = k
    · subst hj
      simpa using hring
    · simpa [hj] using h.ring j
  · by_cases hj : j = k
    · subst hj
      simpa using hlive
    · simpa [hj] using h.live j
  · by_cases hj : j = k
    · subst hj
      simpa using hsize.trans (h.size j)
    · simpa [hj] using h.size j

theorem detach (h : Queues conns lists q) (hok : DetachOk (lists k) c)
    (hm : dlistDeatach (lists k) c = .ok m) : Queues conns (Function.update lists k m) (Function.update q k ((q k).erase c)) := by
  have hsize := (DListMem.dlistDeatach_ok hm).1.next
  refine h.update ?_ (fun d hd => h.live k d (List.mem_of_mem_erase hd)) hsize
  by_cases hc : c ∈ q k
  · exact (h.ring k).detach hc hm
  · rw [List.erase_of_not_mem hc]
    rw [DetachOk, h.nodes_eq] at hok
    obtain ⟨hnext, hprev⟩ := hok.resolve_left hc
    exact (h.ring k).detach_outside hnext hprev hm

theorem insert (h : Queues conns lists q) (hconn : conns.read c = some conn) (hc : c ∉ q k)
    (hm : dlistInsertBefore (lists k) sentinel c = .ok m) :
    Queues conns (Function.update lists k m) (Function.update q k (q k ++ [c])) := by
  have hsize := (DListMem.dlistInsertBefore_ok hm).1.next
  refine h.update ((h.ring k).insertBefore ?_ hm) (fun d hd => ?_) hsize
  · simp [h.ne_sentinel hconn, hc]
  · rcases List.mem_append.mp hd with hd | hd
    · exact h.live k d hd
    · obtain rfl := List.mem_singleton.mp hd
      rw [hconn]
      rfl

/-- The node of a linked connection is moved to the end. -/
theorem move (h : Queues conns lists q) (hconn : conns.read c = some conn) (hc : c ∈ q k) {m' : DListMem Unit}
    (hm : dlistDeatach (lists k) c = .ok m) (hm' : dlistInsertBefore m sentinel c = .ok m') :
    Queues conns (Function.update lists k m') (Function.update q k ((q k).erase c ++ [c])) := by
  have hlinked : DetachOk (lists k) c := .inl (by rw [h.nodes_eq]; exact hc)
  have hnodup := (List.nodup_cons.mp (h.ring k).nodup).2
  have hout : c ∉ (q k).erase c := hnodup.not_mem_erase
  have hinsert := (h.detach hlinked hm).insert (k := k) hconn (by simpa using hout) (by simpa using hm')
  simpa using hinsert

theorem alloc (h : Queues conns lists q) (conn : ConnRec) :
    Queues (conns.alloc conn) (fun k => (lists k).alloc { val := () }) q := by
  refine ⟨fun k => (h.ring k).alloc _, fun k d hd => ?_, fun k => ?_, ?_⟩
  · rw [Mem.isSome_read_alloc]
    exact .inr (h.live k d hd)
  · rw [Mem.next_alloc, Mem.next_alloc, h.size k]
  · have hlt : sentinel < conns.next := by
      rw [← h.size .idle]
      exact (h.ring .idle).lt_next List.mem_cons_self
    rw [Mem.read_alloc_of_lt hlt]
    exact h.start

theorem free (h : Queues conns lists q) (hconn : conns.read c = some conn) (hout : ∀ k, c ∉ q k) :
    Queues (conns.free c) (fun k => (lists k).free c) q := by
  have hne := h.ne_sentinel hconn
  refine ⟨fun k => (h.ring k).free ?_, fun k d hd => ?_, fun k => ?_, ?_⟩
  · simp [hne, hout k]
  · rw [Mem.read_free_ne]
    · exact h.live k d hd
    · rintro rfl
      exact hout k hd
  · rw [Mem.next_free, Mem.next_free, h.size k]
  · rw [Mem.read_free_ne hne.symm]
    exact h.start

end Queues

/-! ### What a step does to the queues -/

/-- The time that the timeout of a connection is measured from. -/
def stampIn (conns : Mem ConnRec) (k : Timeout) (c : Ptr) : Nat := ((conns.read c).map (ConnRec.stamp · k)).getD 0

section Stamps

variable {conns : Mem ConnRec} {c d : Ptr} {conn conn' : ConnRec} {k : Timeout}

theorem stampIn_of_read (hconn : conns.read c = some conn) : stampIn conns k c = conn.stamp k := by
  rw [stampIn, hconn]
  rfl

theorem stampIn_set_self (hconn : conns.read c = some conn) : stampIn (conns.set c conn') k c = conn'.stamp k :=
  stampIn_of_read (Mem.read_set_self (Mem.lt_next_of_read hconn) conn')

theorem stampIn_set_ne (hne : d ≠ c) : stampIn (conns.set c conn') k d = stampIn conns k d := by
  rw [stampIn, stampIn, Mem.read_set_ne hne]

/-- A record may be written back with another content but the same stamp. -/
theorem stampIn_set_of_eq (hconn : conns.read c = some conn) (heq : conn'.stamp k = conn.stamp k) :
    stampIn (conns.set c conn') k d = stampIn conns k d := by
  by_cases hd : d = c
  · rw [hd, stampIn_set_self hconn, stampIn_of_read hconn, heq]
  · exact stampIn_set_ne hd

theorem stampIn_free (hne : d ≠ c) : stampIn (conns.free c) k d = stampIn conns k d := by
  rw [stampIn, stampIn, Mem.read_free_ne hne]

theorem stampIn_alloc (hd : d < conns.next) : stampIn (conns.alloc conn) k d = stampIn conns k d := by
  rw [stampIn, stampIn, Mem.read_alloc_of_lt hd]

end Stamps

/-- Bytes arrive that make no request, while no reply waits. -/
def QuietRead (conn : ConnRec) : ReadResult → Prop
  | .data first rest => conn.outgoing = [] ∧ completeFrame (conn.incoming ++ first :: rest) = none
  | _ => False

/-- A part of what waits is written. -/
def PartialWrite (conn : ConnRec) : WriteResult → Prop
  | .wrote more => more + 1 < conn.outgoing.length
  | _ => False

/-- The step refreshes a stamp of the connection and leaves its node where it is. -/
def Refreshing (s : Loop δ) (ans : Answer) (c : Ptr) : Timeout → Prop
  | .idle => False
  | .read => ∃ ready args conn, s.phase = .read c ready args ∧ ready &&& pollIn ≠ 0 ∧ s.conns.read c = some conn ∧
    QuietRead conn ans.read
  | .write => ∃ ready args conn, s.phase = .write c ready args ∧ ready &&& pollOut ≠ 0 ∧ s.conns.read c = some conn ∧
    PartialWrite conn ans.write

/-- How a queue and the stamps of its connections change in a step: some leave, one may join at the end with a new
stamp, or one gets a new stamp where it stands. -/
inductive QueueStep (clock : Nat → Nat) (s : Loop δ) (ans : Answer) (conns : Mem ConnRec) (ticks : Nat) (k : Timeout) :
    List Ptr → List Ptr → Prop
  | keeps {l l' : List Ptr} (hsub : l'.Sublist l) (hstamp : ∀ d ∈ l', stampIn conns k d = stampIn s.conns k d) :
      QueueStep clock s ans conns ticks k l l'
  | joins {l l' : List Ptr} {c : Ptr} {n : Nat} (hsub : l'.Sublist l)
      (hstamp : ∀ d ∈ l', stampIn conns k d = stampIn s.conns k d) (hfrom : s.ticks ≤ n) (hto : n < ticks)
      (hnew : stampIn conns k c = clock n) : QueueStep clock s ans conns ticks k l (l' ++ [c])
  | refreshes {l : List Ptr} {c : Ptr} (hrefresh : Refreshing s ans c k)
      (hstamp : ∀ d, d ≠ c → stampIn conns k d = stampIn s.conns k d) (hnew : stampIn conns k c = clock s.ticks)
      (htick : s.ticks < ticks) : QueueStep clock s ans conns ticks k l l

/-- A step takes the queues to queues. -/
def QueuesStep (clock : Nat → Nat) (s : Loop δ) (ans : Answer) (q : Timeout → List Ptr) (s' : Loop δ) : Prop :=
  ∃ q', Queues s'.conns s'.lists q' ∧ AllIdle s'.conns q' ∧ s.ticks ≤ s'.ticks ∧
    ∀ k, QueueStep clock s ans s'.conns s'.ticks k (q k) (q' k)

section Step

variable {srv : Service δ} {I : δ → Prop} {clock : Nat → Nat} {s s' : Loop δ} {ans : Answer} {q : Timeout → List Ptr}
  {c : Ptr}

theorem AllIdle.set {conns : Mem ConnRec} {conn conn' : ConnRec} (h : AllIdle conns q)
    (hconn : conns.read c = some conn) : AllIdle (conns.set c conn') q := by
  have hsome : (conns.read c).isSome := by rw [hconn]; rfl
  intro d hd
  rw [Mem.isSome_read_set hsome] at hd
  exact h d hd

/-- A step that changes neither the lists nor the stamps. -/
theorem queuesStep_same (h : Queues s.conns s.lists q) (hidle : AllIdle s.conns q) (hconns : s'.conns = s.conns)
    (hlists : s'.lists = s.lists) (hticks : s.ticks ≤ s'.ticks) : QueuesStep clock s ans q s' := by
  refine ⟨q, ?_, ?_, hticks, fun k => .keeps (List.Sublist.refl _) fun d _ => ?_⟩
  · rwa [hconns, hlists]
  · rwa [hconns]
  · rw [hconns]

/-- A read makes no request exactly if it leaves nothing to be written. -/
theorem quietRead_of_empty (hsound : srv.Sound I) (hI : I s.data) {conn : ConnRec} {first : UInt8} {rest : Bytes}
    {r : Conn δ} (hread : handleRead srv.dispatch ⟨conn.incoming, conn.outgoing, s.data⟩ (first :: rest) = .ok r) :
    r.outgoing = [] ↔ QuietRead conn (.data first rest) := by
  obtain ⟨-, -, hgrow, hsame, hmore⟩ := tryAllReqs_ok hsound (by exact hI) hread
  constructor
  · intro hempty
    rw [hempty] at hgrow hmore
    refine ⟨List.eq_nil_of_length_eq_zero (Nat.le_zero.mp hgrow), ?_⟩
    by_contra hframe
    exact absurd (hmore hframe) (Nat.lt_irrefl 0)
  · rintro ⟨hout, hframe⟩
    rw [hsame hframe]
    exact hout

theorem readOutcome_queues (hsound : srv.Sound I) (hI : I s.data) (h : Queues s.conns s.lists q)
    (hidle : AllIdle s.conns q) {ready : UInt8} {args : List (Nat × UInt8)} (hphase : s.phase = .read c ready args)
    (hin : ready &&& pollIn ≠ 0) (hok : ReadLinks s c ans.read) (ho : ReadOutcome srv clock s c ans.read s') :
    QueuesStep clock s ans q s' := by
  generalize hres : ans.read = res at ho hok
  cases ho with
  | again => exact queuesStep_same h hidle rfl rfl (Nat.le_refl _)
  | @closed conn m hconn hm =>
    refine ⟨_, (h.detach hok hm).set hconn, AllIdle.set hidle hconn, Nat.le_refl _, fun k => ?_⟩
    refine .keeps ?_ fun d _ => stampIn_set_of_eq hconn (by cases k <;> rfl)
    cases k with
    | idle => exact List.Sublist.refl _
    | read => exact List.erase_sublist
    | write => exact List.Sublist.refl _
  | @quiet conn first rest r hconn hread hempty =>
    have hquiet := (quietRead_of_empty hsound hI hread).mp hempty
    refine ⟨q, h.set hconn, hidle.set hconn, Nat.le_succ _, fun k => ?_⟩
    cases k with
    | idle => exact .keeps (List.Sublist.refl _) fun d _ => stampIn_set_of_eq hconn rfl
    | read =>
      refine .refreshes (c := c) ⟨ready, args, conn, hphase, hin, hconn, ?_⟩ (fun d hd => stampIn_set_ne hd)
        (stampIn_set_self hconn) (Nat.lt_succ_self _)
      rw [hres]
      exact hquiet
    | write => exact .keeps (List.Sublist.refl _) fun d _ => stampIn_set_of_eq hconn rfl
  | @replied conn first rest r m m' hconn hread hreply hm hm' =>
    have hnotquiet := (quietRead_of_empty hsound hI hread).not.mp hreply
    have hrequest : conn.outgoing ≠ [] ∨ completeFrame (conn.incoming ++ first :: rest) ≠ none := by
      rw [QuietRead, not_and_or] at hnotquiet
      exact hnotquiet
    obtain ⟨hdetach, hfree⟩ := hok conn hconn hrequest
    rw [h.nodes_eq] at hfree
    have hq := (h.detach hdetach hm).insert (k := .write) hconn hfree hm'
    refine ⟨_, hq.set hconn, AllIdle.set hidle hconn, Nat.le_add_right _ 2, fun k => ?_⟩
    cases k with
    | idle => exact .keeps (List.Sublist.refl _) fun d _ => stampIn_set_of_eq hconn rfl
    | read =>
      refine .keeps List.erase_sublist fun d hd => stampIn_set_ne ?_
      rintro rfl
      exact (List.nodup_cons.mp (h.ring .read).nodup).2.not_mem_erase hd
    | write =>
      refine .joins (n := s.ticks + 1) (List.Sublist.refl _) (fun d hd => stampIn_set_ne ?_) (Nat.le_succ _)
        (Nat.lt_succ_self _) (stampIn_set_self hconn)
      rintro rfl
      exact hfree hd

theorem writeOutcome_queues (h : Queues s.conns s.lists q) (hidle : AllIdle s.conns q) {ready : UInt8}
    {args : List (Nat × UInt8)} (hphase : s.phase = .write c ready args) (hout : ready &&& pollOut ≠ 0)
    (hok : WriteLinks s c ans.write) (ho : WriteOutcome clock s c ans.write s') : QueuesStep clock s ans q s' := by
  generalize hres : ans.write = res at ho hok
  cases ho with
  | again => exact queuesStep_same h hidle rfl rfl (Nat.le_refl _)
  | @closed conn m res hconn hfail hm =>
    have hdetach : DetachOk (s.lists .write) c := by
      rcases hfail with rfl | ⟨⟨more, rfl⟩, hempty⟩
      · exact hok
      · exact (hok conn hconn (by rw [hempty]; exact Nat.zero_le _)).1
    refine ⟨_, (h.detach hdetach hm).set hconn, AllIdle.set hidle hconn, Nat.le_refl _, fun k => ?_⟩
    refine .keeps ?_ fun d _ => stampIn_set_of_eq hconn (by cases k <;> rfl)
    cases k with
    | idle => exact List.Sublist.refl _
    | read => exact List.Sublist.refl _
    | write => exact List.erase_sublist
  | @some conn more hconn hless =>
    refine ⟨q, h.set hconn, hidle.set hconn, Nat.le_succ _, fun k => ?_⟩
    cases k with
    | idle => exact .keeps (List.Sublist.refl _) fun d _ => stampIn_set_of_eq hconn rfl
    | read => exact .keeps (List.Sublist.refl _) fun d _ => stampIn_set_of_eq hconn rfl
    | write =>
      refine .refreshes (c := c) ⟨ready, args, conn, hphase, hout, hconn, ?_⟩ (fun d hd => stampIn_set_ne hd)
        (stampIn_set_self hconn) (Nat.lt_succ_self _)
      rw [hres]
      exact hless
  | @all conn more m m' hconn hnonempty hless hm hm' =>
    obtain ⟨hdetach, hfree⟩ := hok conn hconn hless
    rw [h.nodes_eq] at hfree
    have hq := (h.detach hdetach hm).insert (k := .read) hconn hfree hm'
    refine ⟨_, hq.set hconn, AllIdle.set hidle hconn, Nat.le_add_right _ 2, fun k => ?_⟩
    cases k with
    | idle => exact .keeps (List.Sublist.refl _) fun d _ => stampIn_set_of_eq hconn rfl
    | read =>
      refine .joins (n := s.ticks + 1) (List.Sublist.refl _) (fun d hd => stampIn_set_ne ?_) (Nat.le_succ _)
        (Nat.lt_succ_self _) (stampIn_set_self hconn)
      rintro rfl
      exact hfree hd
    | write =>
      refine .keeps List.erase_sublist fun d hd => stampIn_set_ne ?_
      rintro rfl
      exact (List.nodup_cons.mp (h.ring .write).nodup).2.not_mem_erase hd

theorem closed_queues (h : Queues s.conns s.lists q) (hidle : AllIdle s.conns q) (hok : CloseLinks s c)
    (hclosed : Closed s c s') : QueuesStep clock s ans q s' := by
  cases hclosed with
  | @mk conn m hconn hm =>
    have hlive : (s.conns.read c).isSome := by rw [hconn]; rfl
    have hdetach : ∀ k, DetachOk (s.lists k) c := by
      intro k
      cases k with
      | idle =>
        refine .inl ?_
        rw [h.nodes_eq]
        exact hidle c hlive
      | read => exact hok.1
      | write => exact hok.2
    have hnodup : ∀ k, (q k).Nodup := fun k => (List.nodup_cons.mp (h.ring k).nodup).2
    have hout : ∀ k, c ∉ (q k).erase c := fun k => (hnodup k).not_mem_erase
    have hq : Queues s.conns m fun k => (q k).erase c := by
      refine ⟨fun k => ?_, fun k d hd => h.live k d (List.mem_of_mem_erase hd), fun k => ?_, h.start⟩
      · simpa using (h.detach (hdetach k) (hm k)).ring k
      · exact (DListMem.dlistDeatach_ok (hm k)).1.next.trans (h.size k)
    refine ⟨_, hq.free hconn hout, fun d hd => ?_, Nat.le_refl _, fun k => .keeps List.erase_sublist fun d hd => ?_⟩
    · have hne : d ≠ c := by
        rintro rfl
        rw [Mem.read_free_self] at hd
        cases hd
      rw [Mem.read_free_ne hne] at hd
      exact (List.mem_erase_of_ne hne).mpr (hidle d hd)
    · apply stampIn_free
      rintro rfl
      exact hout k hd

theorem ready_queues (h : Queues s.conns s.lists q) (hidle : AllIdle s.conns q) {conn : ConnRec} {m m' : DListMem Unit}
    (hconn : s.conns.read c = some conn) (hm : dlistDeatach (s.lists .idle) c = .ok m)
    (hm' : dlistInsertBefore m sentinel c = .ok m')
    (hconns : s'.conns = s.conns.set c { conn with lastActiveMs := clock s.ticks })
    (hlists : s'.lists = Function.update s.lists .idle m') (hticks : s'.ticks = s.ticks + 1) :
    QueuesStep clock s ans q s' := by
  have hlive : (s.conns.read c).isSome := by rw [hconn]; rfl
  have hq := h.move hconn (hidle c hlive) hm hm'
  refine ⟨Function.update q .idle ((q .idle).erase c ++ [c]), ?_, fun d hd => ?_, ?_, fun k => ?_⟩
  · rw [hconns, hlists]
    exact hq.set hconn
  · rw [hconns, Mem.isSome_read_set hlive] at hd
    by_cases hdc : d = c
    · simp [hdc]
    · simpa [hdc, List.mem_erase_of_ne hdc] using hidle d hd
  · rw [hticks]
    exact Nat.le_succ _
  · rw [hconns, hticks]
    cases k with
    | idle =>
      refine .joins (n := s.ticks) List.erase_sublist (fun d hd => stampIn_set_ne ?_) (Nat.le_refl _)
        (Nat.lt_succ_self _) (stampIn_set_self hconn)
      rintro rfl
      exact (List.nodup_cons.mp (h.ring .idle).nodup).2.not_mem_erase hd
    | read => exact .keeps (List.Sublist.refl _) fun d _ => stampIn_set_of_eq hconn rfl
    | write => exact .keeps (List.Sublist.refl _) fun d _ => stampIn_set_of_eq hconn rfl

theorem accepted_queues (h : Queues s.conns s.lists q) (hidle : AllIdle s.conns q) {connfd : Nat} {m : DListMem Unit}
    (hm : dlistInsertBefore ((s.lists .idle).alloc { val := () }) sentinel s.conns.next = .ok m)
    (hconns : s'.conns = s.conns.alloc (newConn clock s.ticks connfd))
    (hlists : s'.lists = Function.update (fun k => (s.lists k).alloc { val := () }) .idle m)
    (hticks : s'.ticks = s.ticks + 3) : QueuesStep clock s ans q s' := by
  have hlt : ∀ k, ∀ d ∈ q k, d < s.conns.next := by
    intro k d hd
    obtain ⟨conn, hconn⟩ := Option.isSome_iff_exists.mp (h.live k d hd)
    exact Mem.lt_next_of_read hconn
  have hnew : s.conns.next ∉ q .idle := fun hmem => Nat.lt_irrefl _ (hlt .idle _ hmem)
  have hq := (h.alloc (newConn clock s.ticks connfd)).insert (k := .idle) (Mem.read_alloc_self _ _) hnew hm
  refine ⟨Function.update q .idle (q .idle ++ [s.conns.next]), ?_, fun d hd => ?_, ?_, fun k => ?_⟩
  · rw [hconns, hlists]
    exact hq
  · rw [hconns, Mem.isSome_read_alloc] at hd
    rcases hd with rfl | hd
    · simp
    · simp [hidle d hd]
  · rw [hticks]
    exact Nat.le_add_right _ 3
  · rw [hconns, hticks]
    cases k with
    | idle =>
      refine .joins (n := s.ticks) (List.Sublist.refl _) (fun d hd => stampIn_alloc (hlt .idle d hd)) (Nat.le_refl _)
        (Nat.lt_add_of_pos_right (by decide)) ?_
      exact stampIn_of_read (Mem.read_alloc_self _ _)
    | read => exact .keeps (List.Sublist.refl _) fun d hd => stampIn_alloc (hlt .read d hd)
    | write => exact .keeps (List.Sublist.refl _) fun d hd => stampIn_alloc (hlt .write d hd)

theorem transition_queues (hsound : srv.Sound I) (hI : I s.data) (h : Queues s.conns s.lists q)
    (hidle : AllIdle s.conns q) (hok : LinksOk s ans) (ht : Transition srv clock s ans s') :
    QueuesStep clock s ans q s' := by
  have hokAt : ∀ {phase : Phase}, s.phase = phase → LinksAt s ans phase := by
    rintro phase rfl
    exact hok
  cases ht with
  | stays hphase => exact queuesStep_same h hidle rfl rfl (Nat.le_refl _)
  | polled hphase hargs => exact queuesStep_same h hidle rfl rfl (Nat.le_refl _)
  | accepted hphase hargs hans hm => exact accepted_queues h hidle hm rfl rfl rfl
  | skipped hphase => exact queuesStep_same h hidle rfl rfl (Nat.le_refl _)
  | ready hphase hready hfd hconn hm hm' => exact ready_queues h hidle hconn hm hm' rfl rfl rfl
  | read hphase hin ho =>
    have hstep := readOutcome_queues hsound hI h hidle hphase hin (hokAt hphase hin) ho
    exact hstep
  | noRead hphase => exact queuesStep_same h hidle rfl rfl (Nat.le_refl _)
  | write hphase hout ho =>
    have hstep := writeOutcome_queues h hidle hphase hout (hokAt hphase hout) ho
    exact hstep
  | noWrite hphase => exact queuesStep_same h hidle rfl rfl (Nat.le_refl _)
  | close hphase hconn hclose hclosed =>
    have hstep : QueuesStep clock s ans q _ := closed_queues h hidle (hokAt hphase hclose.1 _ hconn hclose.2) hclosed
    exact hstep
  | keep hphase hconn hkeep => exact queuesStep_same h hidle rfl rfl (Nat.le_refl _)
  | timers hphase => exact queuesStep_same h hidle rfl rfl (Nat.le_succ _)
  | @expired currMs list head c conn s₁ hphase hhead hfirst hne hconn hlate hclosed =>
    have hnext : (s.lists list).nextOf sentinel = some c := by
      rw [nextOf, hhead]
      exact hfirst
    exact closed_queues h hidle (hokAt hphase c hnext conn hconn hlate) hclosed
  | idleDone hphase hfront => exact queuesStep_same h hidle rfl rfl (Nat.le_refl _)
  | readDone hphase hfront => exact queuesStep_same h hidle rfl rfl (Nat.le_refl _)
  | writeDone hphase hfront hdata => exact queuesStep_same h hidle rfl rfl (Nat.le_refl _)

/-- The commands of a sound service keep the invariant of its state, whatever happens to the connections. -/
theorem transition_data (hsound : srv.Sound I) (hI : I s.data) (ht : Transition srv clock s ans s') : I s'.data := by
  cases ht with
  | read hphase hin ho =>
    generalize ans.read = res at ho
    cases ho with
    | again => exact hI
    | closed hconn hm => exact hI
    | quiet hconn hread hempty => exact (tryAllReqs_ok hsound (by exact hI) hread).1
    | replied hconn hread hreply hm hm' => exact (tryAllReqs_ok hsound (by exact hI) hread).1
  | write hphase hout ho =>
    generalize ans.write = res at ho
    cases ho with
    | again => exact hI
    | closed hconn hfail hm => exact hI
    | some hconn hless => exact hI
    | all hconn hnonempty hless hm hm' => exact hI
  | close hphase hconn hclose hclosed =>
    cases hclosed with
    | mk hconn hm => exact hI
  | expired hphase hhead hfirst hne hconn hlate hclosed =>
    cases hclosed with
    | mk hconn hm => exact hI
  | writeDone hphase hfront hdata => exact hsound.expire hI hdata
  | stays | polled | accepted | skipped | ready | noRead | noWrite | keep | timers | idleDone | readDone => exact hI

theorem queues_init (data : δ) : Queues (Loop.init data).conns (Loop.init data).lists fun _ => [] := by
  refine ⟨fun k => ⟨rfl, rfl, List.nodup_singleton _⟩, nofun, fun k => rfl, rfl⟩

theorem allIdle_init (data : δ) : AllIdle (Loop.init data).conns fun _ => [] := by
  intro c hc
  obtain ⟨conn, hconn⟩ := Option.isSome_iff_exists.mp hc
  obtain rfl : c = 0 := Nat.lt_one_iff.mp (Mem.lt_next_of_read hconn)
  cases hconn

end Step

/-! ### Runs -/

/-- The list is a ring of nodes of live connections, each of them once, and `next` and `prev` are inverse on it. -/
def WellLinked (s : Loop δ) (k : Timeout) : Prop :=
  ∃ l : List Ptr, (s.lists k).IsRing sentinel l ∧ (∀ c ∈ l, (s.conns.read c).isSome) ∧
    ∀ p ∈ sentinel :: l, ∀ r ∈ sentinel :: l, (s.lists k).nextOf p = some r ↔ (s.lists k).prevOf r = some p

/-- In a run that inserts only nodes that are not linked, and detaches none whose links are out of date, every list is a
ring of nodes of live connections. -/
theorem timeout_lists_linked (envs : Nat → Env) (clock : Nat → Nat) (answers : List Answer) (s : Loop (GlobalData × Nat))
    (hlinks : Along (loopStep (redisService envs) clock) LinksOk (Loop.init ({}, 0)) answers)
    (hrun : run (loopStep (redisService envs) clock) (Loop.init ({}, 0)) answers = .ok s) (k : Timeout) :
    WellLinked s k := by
  have hsound := redisService_sound envs
  have hall : (s.data.1.WF ∧ s.data.1.Shaped) ∧ ∃ q, Queues s.conns s.lists q ∧ AllIdle s.conns q := by
    refine Run.invariant_along (I := fun s => (s.data.1.WF ∧ s.data.1.Shaped) ∧
      ∃ q, Queues s.conns s.lists q ∧ AllIdle s.conns q) ?_ ⟨⟨GlobalData.WF.empty, nofun⟩, _, queues_init _, allIdle_init _⟩
      hlinks hrun
    rintro s ans s' ⟨hI, q, hq, hidle⟩ hok hstep
    have ht := loopStep_transition hstep
    obtain ⟨q', hq', hidle', -⟩ := transition_queues hsound hI hq hidle hok ht
    exact ⟨transition_data hsound hI ht, q', hq', hidle'⟩
  obtain ⟨-, q, hq, -⟩ := hall
  exact ⟨q k, hq.ring k, hq.live k, fun p hp r hr => (hq.ring k).next_iff_prev hp hr⟩

/-- A request, its reply, and an error after which the connection is closed. -/
theorem timeout_lists_linked_request :
    ∃ s, run (loopStep (redisService fun _ => {}) id) (Loop.init ({}, 0))
        (connecting 4 ++ iteration pollIn (received (frame [text "keys"])) .again ++
          iteration pollOut .again (.wrote 100) ++ iteration (pollIn ||| pollErr) .closed .again) = .ok s ∧
      ∀ k, WellLinked s k := by
  have hcheck : check (run (loopStep (redisService fun _ => {}) id) (Loop.init ({}, 0))
      (connecting 4 ++ iteration pollIn (received (frame [text "keys"])) .again ++
        iteration pollOut .again (.wrote 100) ++ iteration (pollIn ||| pollErr) .closed .again)) (fun _ => true) = true := by
    decide +kernel
  obtain ⟨s, hrun, -⟩ := exists_ok_of_check hcheck
  exact ⟨s, hrun, fun k => timeout_lists_linked _ _ _ s (by decide +kernel) hrun k⟩

/-- A second request comes while the reply to the first one waits: the node is inserted once more, and its `next` is the
node itself. -/
theorem pipelined_request_breaks_list :
    ∃ s, run (loopStep (redisService fun _ => {}) id) (Loop.init ({}, 0))
        (connecting 4 ++ iteration pollIn (received (frame [text "keys"])) .again ++
          iteration pollIn (received (frame [text "keys"])) .again) = .ok s ∧ ¬WellLinked s .write := by
  have hcheck : check (run (loopStep (redisService fun _ => {}) id) (Loop.init ({}, 0))
      (connecting 4 ++ iteration pollIn (received (frame [text "keys"])) .again ++
        iteration pollIn (received (frame [text "keys"])) .again))
      (fun s => ¬((s.lists .write).nodes sentinel).Nodup) = true := by
    decide +kernel
  obtain ⟨s, hrun, hnodup⟩ := exists_ok_of_check hcheck
  refine ⟨s, hrun, ?_⟩
  rintro ⟨l, hring, -⟩
  apply of_decide_eq_true hnodup
  rw [hring.nodes_eq]
  exact (List.nodup_cons.mp (LinkedRing.nodup hring)).2

end CustomRedis
