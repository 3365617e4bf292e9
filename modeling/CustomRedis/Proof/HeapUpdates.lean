import CustomRedis.Proof.HeapOrder

/-!
# Deadlines set and removed

`set_ttl` pushes an entry and repairs its position, which only leads upwards. `rem_ttl` moves the last entry
to the place of the removed one and repairs that position. Both keep the order exactly if the repair restores
it, and which repairs do can be told from the deadlines before it.
-/

namespace CustomRedis

open HeapOrder
open Run (ok_of_bind)

/-! ### Removing an entry -/

/-- The last entry has been moved to the position. -/
def Heap.moveLast (h : Heap) (i : Nat) : Heap :=
  match h.entries.getLast? with
  | none => h
  | some back => ⟨(h.entries.set i back).dropLast, h.refs⟩

theorem Heap.moveLast_eq {h : Heap} {i : Nat} (hi : i < h.entries.length) :
    (h.moveLast i).entries.Perm (h.entries.eraseIdx i) ∧ (h.moveLast i).entries.length + 1 = h.entries.length ∧
      (h.moveLast i).refs = h.refs ∧ (∀ j, j ≠ i → j < (h.moveLast i).entries.length → (h.moveLast i).val j = h.val j) ∧
      ∀ node, h.refs.read node = some i →
        remTtl h node = if i < (h.moveLast i).entries.length then heapFix (h.moveLast i) i else .ok (h.moveLast i) := by
  obtain ⟨back, hback⟩ : ∃ back, h.entries.getLast? = some back := by
    cases hl : h.entries.getLast? with
    | some back => exact ⟨back, rfl⟩
    | none =>
      rw [List.getLast?_eq_none_iff] at hl
      rw [hl] at hi
      cases hi
  have hmid : h.moveLast i = ⟨(h.entries.set i back).dropLast, h.refs⟩ := by rw [Heap.moveLast, hback]
  have hlen : ((h.entries.set i back).dropLast).length + 1 = h.entries.length := by
    rw [List.length_dropLast, List.length_set]
    omega
  rw [hmid]
  refine ⟨dropLast_set_perm hi hback, hlen, rfl, fun j hj hlt => ?_, fun node hread => ?_⟩
  · rw [Heap.val, Heap.val, List.getElem?_dropLast, if_pos, List.getElem?_set_ne (Ne.symm hj)]
    rw [List.length_set]
    dsimp only at hlt
    omega
  · rw [remTtl, hread]
    simp only [hback, if_pos hi]

/-- `rem_ttl` keeps the order exactly if the repair at the hole does. -/
theorem remTtl_ordered_iff {h : Heap} (hsize : h.entries.length < 2 ^ 63) (hc : h.Coherent) (ho : h.Ordered) {i : Nat}
    {e : HeapNode} (he : h.entries[i]? = some e) :
    (∃ h', remTtl h e.posRef = .ok h' ∧ h'.entries.Perm (h.entries.eraseIdx i) ∧ h'.Ordered ∧
      ∀ d ∈ h'.entries, h'.val 0 ≤ d.val) ↔
    i + 1 = h.entries.length ∨ (h.moveLast i).Repairable i := by
  have hi := (List.getElem?_eq_some_iff.mp he).1
  obtain ⟨hperm, hlen, hrefs, hval, hrun⟩ := Heap.moveLast_eq hi
  rw [hrun e.posRef (hc i e he)]
  have hshort : HeapOrder.Ordered h.val (h.moveLast i).entries.length := fun j hj hlt => ho j hj (by omega)
  by_cases hlast : i < (h.moveLast i).entries.length
  · have hexc := (HeapOrder.Ordered.except hshort hlast).congr hval hlast
    have hlive : (h.moveLast i).Live := by
      intro d hd
      rw [hrefs]
      exact hc.live d (List.mem_of_mem_eraseIdx (hperm.mem_iff.mp hd))
    rw [if_pos hlast, ← heapFix_ordered_iff hlast (by omega) hlive hexc, or_iff_right (by omega)]
    constructor
    · rintro ⟨h', hfix, hp, ho', -⟩
      exact ⟨h', hfix, hp.trans hperm.symm, ho'⟩
    · rintro ⟨h', hfix, hp, ho'⟩
      exact ⟨h', hfix, hp.trans hperm, ho', ho'.root_le⟩
  · rw [if_neg hlast]
    refine iff_of_true ⟨h.moveLast i, rfl, hperm, ?_⟩ (.inl (by omega))
    have ho' : (h.moveLast i).Ordered := by
      intro j hj hlt
      have hparent : parent j < j := by
        unfold parent
        omega
      rw [hval j (by omega) hlt, hval (parent j) (by omega) (by omega)]
      exact hshort j hj hlt
    exact ⟨ho', ho'.root_le⟩


/-- In the heap of 0, 2, 1 and 3 the removal of the root moves 2 up, past the smaller 1. -/
theorem remTtl_passes_smaller : ∃ (h : Heap) (i : Nat) (e : HeapNode) (h' : Heap), h.entries.length < 2 ^ 63 ∧ h.Coherent ∧ h.Ordered ∧
    h.entries[i]? = some e ∧ remTtl h e.posRef = .ok h' ∧ ¬h'.Ordered ∧ ∃ d ∈ h'.entries, d.val < h'.val 0 := by
  refine ⟨heapOf (fun i => [0, 2, 1, 3].getD i 0) 4, 0, ⟨0, 0⟩, ⟨[⟨2, 1⟩, ⟨3, 3⟩, ⟨1, 2⟩],
    ⟨[some 0, some 0, some 2, some 1]⟩⟩, by decide, heapOf_coherent _ _, ?_, rfl, by decide, ?_, ⟨1, 2⟩, by decide, by decide⟩
  · intro i hi hlt
    rw [length_heapOf] at hlt
    interval_cases i <;> decide
  · intro ho
    exact absurd (ho 2 (by decide) (by decide)) (by decide)

/-- The root of the heap of 0, 1, 2 and 3. -/
theorem remTtl_ordered_four : ∃ h', remTtl (heapOf id 4) 0 = .ok h' ∧
    h'.entries.Perm ((heapOf id 4).entries.eraseIdx 0) ∧ h'.Ordered ∧ ∀ d ∈ h'.entries, h'.val 0 ≤ d.val := by
  have ho : (heapOf id 4).Ordered := by
    intro i hi hlt
    rw [length_heapOf] at hlt
    interval_cases i <;> decide
  refine (@remTtl_ordered_iff (heapOf id 4) (by decide) (heapOf_coherent _ _) ho 0 ⟨0, 0⟩ rfl).mpr (.inr ?_)
  refine ⟨fun h => absurd h (by decide), fun h => absurd h.1 (by decide), fun _ => ⟨.inl fun h => absurd h (by decide), ?_⟩⟩
  intro k hk
  cases k with
  | zero => decide
  | succ k =>
    have hle := le_spine (left 0) k
    change right (spine (left 0) k) < 3 at hk
    unfold right at hk
    change 1 ≤ spine (left 0) k at hle
    omega

/-! ### Setting deadlines -/

/-- One call of `set_ttl`. -/
structure TtlCall where
  now : Nat
  node : Ptr
  ttl : Nat

/-- The entry that a call pushes. -/
def TtlCall.entry (c : TtlCall) : HeapNode := ⟨(c.now + c.ttl) % 2 ^ 64, c.node⟩

/-- The entry that `heap_parent` leads to exists, and if it is not below the new deadline, the real parent is not
above it. -/
def Heap.Pushable (h : Heap) (c : TtlCall) : Prop :=
  h.entries.length = 0 ∨ ParentFits h.entries.length ∧
    h.val (parent h.entries.length) ≤ max (h.val (heapParent h.entries.length)) c.entry.val

/-- The entries with one more at the end. -/
def Heap.push (h : Heap) (e : HeapNode) : Heap := ⟨h.entries ++ [e], h.refs⟩

theorem Heap.push_val (h : Heap) (e : HeapNode) :
    (∀ j, j < h.entries.length → (h.push e).val j = h.val j) ∧ (h.push e).val h.entries.length = e.val := by
  constructor
  · intro j hj
    rw [Heap.val, Heap.push, List.getElem?_append_left hj, Heap.val]
  · rw [Heap.val, Heap.push, List.getElem?_append_right (Nat.le_refl _), Nat.sub_self]
    rfl

theorem Heap.push_except {h : Heap} (ho : h.Ordered) (e : HeapNode) :
    Except (h.push e).val (h.push e).entries.length h.entries.length := by
  have hlen : (h.push e).entries.length = h.entries.length + 1 := by rw [Heap.push, List.length_append, List.length_singleton]
  have hval := (h.push_val e).1
  rw [hlen]
  constructor
  · intro i hi hin hne _
    have hparent : parent i < h.entries.length := by
      unfold parent
      omega
    rw [hval i (by omega), hval (parent i) hparent]
    exact ho i hi (by omega)
  · intro hpos c hc hcn hcp
    unfold parent at hcp
    omega

/-- At the end of the vector nothing is below the pushed entry. -/
theorem Heap.push_repairable_iff {h : Heap} (hsize : h.entries.length < 2 ^ 63) (c : TtlCall) :
    (h.push c.entry).Repairable h.entries.length ↔ h.Pushable c := by
  obtain ⟨hval, hlast⟩ := h.push_val c.entry
  have hlen : (h.push c.entry).entries.length = h.entries.length + 1 := by
    rw [Heap.push, List.length_append, List.length_singleton]
  have hbelow : ∀ x, Below x (h.push c.entry).val (h.entries.length + 1) h.entries.length := by
    intro x d hd hdn hdp
    unfold parent at hdp
    omega
  have hspine : ∀ x, SpineOk (h.push c.entry).val (h.entries.length + 1) h.entries.length x := by
    intro x k hk
    have hle := le_spine h.entries.length k
    unfold right at hk
    omega
  rw [Heap.Repairable, hlen, Heap.Pushable]
  simp only [Heap.GoesUp, hlast, hbelow, hspine, and_true, not_true, or_false]
  by_cases hpos : 0 < h.entries.length
  · rw [or_iff_right hpos.ne']
    simp only [hpos, true_and, forall_const]
    refine and_congr_right fun hfits => ?_
    have hq : heapParent h.entries.length < h.entries.length := by
      rw [heapParent_of_fits hpos (by omega) hfits]
      omega
    have hp : parent h.entries.length < h.entries.length := by
      unfold parent
      omega
    rw [hval _ hq, hval _ hp]
    omega
  · refine iff_of_true ⟨fun h0 => absurd h0 hpos, fun h0 => absurd h0.1 hpos, fun _ h0 => absurd h0 hpos⟩ (.inl (by omega))

theorem setTtl_ordered_iff {h : Heap} (ho : h.Ordered) (hlive : h.Live) (c : TtlCall)
    (hnode : (h.refs.read c.node).isSome) (hsize : h.entries.length + 1 < 2 ^ 63) :
    (∃ h', setTtl h c.now c.node c.ttl = .ok h' ∧ h'.entries.Perm (c.entry :: h.entries) ∧ h'.Ordered) ↔
      h.Pushable c := by
  have hperm : (h.push c.entry).entries.Perm (c.entry :: h.entries) := List.perm_append_singleton _ _
  have hlen := hperm.length_eq
  rw [List.length_cons] at hlen
  have hlive' : (h.push c.entry).Live := by
    intro e he
    rcases List.mem_cons.mp (hperm.mem_iff.mp he) with rfl | he
    · exact hnode
    · exact hlive e he
  rw [← Heap.push_repairable_iff (by omega),
    ← heapFix_ordered_iff (by omega) (by omega) hlive' (Heap.push_except ho c.entry)]
  constructor
  · rintro ⟨h', hrun, hp, ho'⟩
    exact ⟨h', hrun, hp.trans hperm.symm, ho'⟩
  · rintro ⟨h', hrun, hp, ho'⟩
    exact ⟨h', hrun, hp.trans hperm, ho'⟩

/-- Up to the limit every deadline can be set. -/
theorem Heap.pushable_of_lt {h : Heap} (hlt : h.entries.length < heapLimit) (c : TtlCall) : h.Pushable c := by
  rcases Nat.eq_zero_or_pos h.entries.length with hzero | hpos
  · exact .inl hzero
  · refine .inr ⟨parentFits_of_lt hlt, ?_⟩
    rw [heapParent_eq hpos hlt, ← parent]
    exact Nat.le_max_left _ _

/-- `set_ttl`, together with the entries there should be. -/
def insertStep (s : Heap × List HeapNode) (c : TtlCall) : M (Heap × List HeapNode) := do
  let h ← setTtl s.1 c.now c.node c.ttl
  return (h, c.entry :: s.2)

/-- The heap is in order, holds the entries there should be, and the first one has the least deadline. -/
def InOrder (s : Heap × List HeapNode) : Prop :=
  s.1.Ordered ∧ s.1.entries.Perm s.2 ∧ ∀ e ∈ s.2, s.1.val 0 ≤ e.val

/-- The entries and the calls to come refer to live fields, and the vector can hold them. -/
structure Heap.Takes (h : Heap) (calls : List TtlCall) : Prop where
  live : h.Live
  nodes : ∀ c ∈ calls, (h.refs.read c.node).isSome
  size : h.entries.length + calls.length < 2 ^ 63

theorem setTtl_takes {h h' : Heap} {c : TtlCall} {calls : List TtlCall} (ht : h.Takes (c :: calls))
    (hrun : setTtl h c.now c.node c.ttl = .ok h') : h'.Takes calls := by
  have hsame := setTtl_sameLive hrun
  have hlen : h'.entries.length = h.entries.length + 1 := by
    refine heapFix_keeps (J := fun g => g.entries.length = h.entries.length + 1) (P := fun _ => True)
      (fun g g' pos node hg _ hput => (put_val hput).1.trans hg) (fun _ _ _ _ _ => trivial) ?_ hrun
    rw [List.length_append, List.length_singleton]
  constructor
  · refine heapFix_entries hrun fun e he => ?_
    rw [hsame]
    rcases List.mem_append.mp he with he | he
    · exact ht.live e he
    · rw [List.mem_singleton.mp he]
      exact ht.nodes c List.mem_cons_self
  · intro d hd
    rw [hsame]
    exact ht.nodes d (List.mem_cons_of_mem c hd)
  · have hsize := ht.size
    rw [List.length_cons] at hsize
    omega

/-- Every call of a run returns and leaves a heap in order, with the entries there should be, exactly if each
one finds a heap it can push to. -/
theorem setTtl_run_iff {h : Heap} (ho : h.Ordered) {calls : List TtlCall} (ht : h.Takes calls) :
    Run.Always insertStep InOrder (h, h.entries) calls ↔
      Run.Along insertStep (fun s c => s.1.Pushable c) (h, h.entries) calls := by
  refine Run.always_iff_along_of (J := fun s calls => s.1.Takes calls) ?_ ?_ ht ⟨ho, .refl _, ho.root_le⟩
  · rintro s c calls s' ht hrun
    obtain ⟨h', hset, hret⟩ := ok_of_bind hrun
    cases hret
    exact setTtl_takes ht hset
  · rintro ⟨h, entries⟩ c calls ht ⟨ho, hperm, -⟩
    have hsize := ht.size
    rw [List.length_cons] at hsize
    rw [← setTtl_ordered_iff ho ht.live c (ht.nodes c List.mem_cons_self) (by omega)]
    constructor
    · rintro ⟨s', hrun, ho', hp, -⟩
      obtain ⟨h', hset, hret⟩ := ok_of_bind hrun
      cases hret
      exact ⟨h', hset, hp.trans (hperm.symm.cons _), ho'⟩
    · rintro ⟨h', hset, hp, ho'⟩
      have hall := hp.trans (hperm.cons _)
      refine ⟨(h', c.entry :: entries), ?_, ho', hall, fun e he => ho'.root_le e (hall.mem_iff.mpr he)⟩
      rw [insertStep, hset]
      rfl

/-- The entry at 2³² + 1 cannot be pushed. -/
theorem setTtl_faults : ∃ (h : Heap) (c : TtlCall), h.Ordered ∧ h.Coherent ∧ h.Takes [c] ∧
    setTtl h c.now c.node c.ttl = .error .outOfBounds := by
  obtain ⟨n, hn⟩ : ∃ n, n = heapLimit := ⟨_, rfl⟩
  have hlen := length_heapOf (fun _ => 0) n
  have hread : ∀ p, p < n → ((heapOf (fun _ => 0) n).refs.read p).isSome := by
    intro p hp
    simp [heapOf, Mem.read, hp]
  have hall : ∀ i, (heapOf (fun _ => 0) n).val i = 0 := by
    intro i
    rw [Heap.val, heapOf, List.getElem?_map, Option.map_map]
    cases (List.range n)[i]? <;> rfl
  have hcoherent := heapOf_coherent (fun _ => 0) n
  refine ⟨heapOf (fun _ => 0) n, ⟨0, 0, 0⟩, fun i _ _ => ?_, hcoherent, ⟨hcoherent.live, fun c hc => ?_, ?_⟩,
    setTtl_full (hlen.trans hn) 0 0 0⟩
  · rw [hall, hall]
  · rw [List.mem_singleton.mp hc]
    exact hread 0 (by rw [hn]; decide)
  · rw [hlen, hn]
    decide

/-- Two deadlines set in an empty heap. -/
theorem setTtl_run_two : Run.Always insertStep InOrder (⟨[], ⟨[some 0, some 0]⟩⟩, []) [⟨7, 0, 10⟩, ⟨7, 1, 0⟩] := by
  refine (@setTtl_run_iff ⟨[], ⟨[some 0, some 0]⟩⟩ (fun _ _ hlt => absurd hlt (Nat.not_lt_zero _)) _ ?_).mpr ?_
  · refine ⟨fun e he => absurd he List.not_mem_nil, ?_, by decide⟩
    decide
  · refine ⟨.inl rfl, fun s hs => ⟨Heap.pushable_of_lt ?_ _, fun _ _ => trivial⟩⟩
    cases hs
    decide

/-! ### The node of a new deadline

Whatever the order of the entries is, the node of the new one refers to it, unless an older entry refers to the
same node. -/

/-- The field of the moving entry leads to it. -/
def Heap.Leads (h : Heap) (node : HeapNode) : Prop :=
  ∃ i, h.refs.read node.posRef = some i ∧ h.entries[i]? = some node

theorem put_leads {h h' : Heap} {pos : Nat} {node : HeapNode} (hrun : h.put pos node = .ok h') : h'.Leads node := by
  have hlen := (put_val hrun).1
  obtain ⟨hlive, rfl⟩ := put_eq hrun
  obtain ⟨v, hv⟩ := Option.isSome_iff_exists.mp hlive
  refine ⟨pos, Mem.read_set_self (Mem.lt_next_of_read hv) pos, ?_⟩
  by_cases hlt : pos < h.entries.length
  · exact List.getElem?_set_self hlt
  · rw [Heap.put, if_neg hlt] at hrun
    cases hrun

theorem heapUpAux_leads {fuel : Nat} {h h' : Heap} {node : HeapNode} {pos : Nat}
    (halone : ∀ j e, j ≠ pos → h.entries[j]? = some e → e.posRef ≠ node.posRef)
    (hrun : heapUpAux fuel h node pos = .ok h') : h'.Leads node := by
  induction fuel generalizing h pos with
  | zero => cases hrun
  | succ fuel ih =>
    rw [heapUpAux] at hrun
    split at hrun
    · obtain ⟨e, hget, hrun⟩ := ok_of_bind hrun
      split at hrun
      · obtain ⟨h₁, hput, hrun⟩ := ok_of_bind hrun
        obtain ⟨-, rfl⟩ := put_eq hput
        refine ih (fun j d hj hd => ?_) hrun
        by_cases hjp : j = pos
        · -- the parent stands where the hole was
          subst hjp
          have hlt := (List.getElem?_eq_some_iff.mp hd).1
          rw [List.length_set] at hlt
          rw [List.getElem?_set_self hlt] at hd
          cases hd
          exact halone (heapParent j) _ (Ne.symm hj) (get_entry hget)
        · rw [List.getElem?_set_ne (Ne.symm hjp)] at hd
          exact halone j d hjp hd
      · exact put_leads hrun
    · exact put_leads hrun

theorem heapDown_push {h : Heap} (hsize : h.entries.length + 1 < 2 ^ 63) (e : HeapNode) :
    heapDown (h.push e) h.entries.length = (h.push e).put h.entries.length e := by
  have hlen : (h.push e).entries.length = h.entries.length + 1 := by
    rw [Heap.push, List.length_append, List.length_singleton]
  have hget : (h.push e).entries[h.entries.length]? = some e := List.getElem?_concat_length
  rw [heapDown, Heap.get, hget]
  change heapDownAux ((h.push e).entries.length + 1) (h.push e) e h.entries.length = _
  rw [heapDownAux, if_neg]
  rintro ⟨-, hmin⟩
  have hlt := nextPos_lt hsize hmin
  omega

theorem setTtl_leads {h h' : Heap} {c : TtlCall} (hnew : c.node ∉ h.entries.map HeapNode.posRef)
    (hsize : h.entries.length + 1 < 2 ^ 63) (hrun : setTtl h c.now c.node c.ttl = .ok h') : h'.Leads c.entry := by
  have hget : (h.push c.entry).entries[h.entries.length]? = some c.entry := List.getElem?_concat_length
  rcases heapFix_cases (h := h.push c.entry) (List.getElem?_eq_some_iff.mp hget).1 hrun with ⟨-, hup⟩ | ⟨-, hdown⟩
  · rw [heapUp, Heap.get, hget] at hup
    refine heapUpAux_leads (fun j e hj he heq => hnew ?_) hup
    have hlt : j < h.entries.length := by
      have hlt := (List.getElem?_eq_some_iff.mp he).1
      rw [Heap.push, List.length_append, List.length_singleton] at hlt
      omega
    rw [Heap.push, List.getElem?_append_left hlt] at he
    exact List.mem_map.mpr ⟨e, List.mem_of_getElem? he, heq⟩
  · rw [heapDown_push hsize] at hdown
    exact put_leads hdown

/-! ### When a deadline can be set

A field that an entry refers to may be gone. Then `set_ttl` returns only if the entry does not have to move. -/

/-- The entry at a position, if there is one, refers to a live field. -/
def Heap.LiveAt (h : Heap) (i : Nat) : Prop := ∀ e, h.entries[i]? = some e → (h.refs.read e.posRef).isSome

/-- On the way up from a position, the entries that are not below the value refer to live fields. -/
inductive Heap.ClearUp (h : Heap) (val : Nat) : Nat → Prop
  | root : h.ClearUp val 0
  | stay {pos : Nat} (hlt : h.val (heapParent pos) < val) : h.ClearUp val pos
  | up {pos : Nat} (hlive : h.LiveAt (heapParent pos)) (hup : h.ClearUp val (heapParent pos)) : h.ClearUp val pos

theorem heapParent_lt {pos : Nat} (hpos : 0 < pos) (hlt : pos < 2 ^ 63) (hfits : ParentFits pos) :
    heapParent pos < pos ∧ ParentFits (heapParent pos) := by
  rw [heapParent_of_fits hpos hlt hfits]
  unfold ParentFits at *
  omega

theorem Heap.ClearUp.congr {h h₁ : Heap} {val pos : Nat} (hc : h.ClearUp val pos) (hlt : pos < 2 ^ 63)
    (hfits : 0 < pos → ParentFits pos)
    (hsame : ∀ j, j < pos → h₁.val j = h.val j ∧ (h.LiveAt j → h₁.LiveAt j)) : h₁.ClearUp val pos := by
  induction hc with
  | root => exact .root
  | @stay pos hbelow =>
    rcases Nat.eq_zero_or_pos pos with rfl | hpos
    · exact .root
    · refine .stay ?_
      rwa [(hsame _ (heapParent_lt hpos hlt (hfits hpos)).1).1]
  | @up pos hlive _ ih =>
    rcases Nat.eq_zero_or_pos pos with rfl | hpos
    · exact .root
    · obtain ⟨hq, hqfits⟩ := heapParent_lt hpos hlt (hfits hpos)
      exact .up ((hsame _ hq).2 hlive) (ih (by omega) (fun _ => hqfits) fun j hj => hsame j (by omega))

theorem put_liveAt {h h' : Heap} {pos j : Nat} {node : HeapNode} (hrun : h.put pos node = .ok h') (hj : j ≠ pos) :
    h'.LiveAt j ↔ h.LiveAt j := by
  obtain ⟨hlive, rfl⟩ := put_eq hrun
  unfold Heap.LiveAt
  simp only [List.getElem?_set_ne (Ne.symm hj), Mem.isSome_read_set hlive]

theorem heapUpAux_returns_iff {fuel : Nat} {h : Heap} {node : HeapNode} {pos : Nat} (hlt : pos < h.entries.length)
    (hsize : h.entries.length < 2 ^ 63) (hfits : 0 < pos → ParentFits pos)
    (hnode : (h.refs.read node.posRef).isSome) (hfuel : pos < fuel) :
    (∃ h', heapUpAux fuel h node pos = .ok h') ↔ h.ClearUp node.val pos := by
  induction fuel generalizing h pos with
  | zero => omega
  | succ fuel ih =>
    have hfill : ∃ h', h.put pos node = .ok h' := ⟨_, by rw [Heap.put, if_pos hlt, if_pos hnode]⟩
    rw [heapUpAux]
    by_cases hpos : pos > 0
    · obtain ⟨hq, hqfits⟩ := heapParent_lt hpos (by omega) (hfits hpos)
      have hat : h.entries[heapParent pos]? = some (h.entries.get ⟨heapParent pos, by omega⟩) := by simp
      generalize h.entries.get ⟨heapParent pos, by omega⟩ = e at hat
      have hval : h.val (heapParent pos) = e.val := Heap.val_of_getElem? hat
      simp only [if_pos hpos, Heap.get, hat, bind, Except.bind]
      by_cases hle : node.val ≤ e.val
      · rw [if_pos hle]
        by_cases hlive : (h.refs.read e.posRef).isSome
        · have hput : h.put pos e = .ok ⟨h.entries.set pos e, h.refs.set e.posRef pos⟩ := by
            rw [Heap.put, if_pos hlt, if_pos hlive]
          obtain ⟨hlen, hupd⟩ := put_val hput
          have hstep := @ih _ (heapParent pos) (by rw [hlen]; omega) (by rw [hlen]; exact hsize) (fun _ => hqfits)
            (by rw [Mem.isSome_read_set hlive]; exact hnode) (by omega)
          simp only [hput]
          rw [hstep]
          have hkept : ∀ j, j < heapParent pos →
              (⟨h.entries.set pos e, h.refs.set e.posRef pos⟩ : Heap).val j = h.val j := by
            intro j hj
            rw [hupd, Function.update_of_ne (by omega)]
          constructor
          · intro hc
            refine .up (fun d hd => ?_) (hc.congr (by omega) (fun _ => hqfits) fun j hj => ?_)
            · cases hat.symm.trans hd
              exact hlive
            · exact ⟨(hkept j hj).symm, (put_liveAt hput (by omega)).mp⟩
          · intro hc
            cases hc with
            | root => exact absurd hpos (Nat.lt_irrefl 0)
            | stay hbelow => omega
            | up _ hup =>
              exact hup.congr (by omega) (fun _ => hqfits) fun j hj => ⟨hkept j hj, (put_liveAt hput (by omega)).mpr⟩
        · simp only [Heap.put, if_pos hlt, if_neg hlive]
          refine iff_of_false (by rintro ⟨h', hrun⟩; cases hrun) fun hc => ?_
          cases hc with
          | root => exact absurd hpos (Nat.lt_irrefl 0)
          | stay hbelow => omega
          | up hup _ => exact hlive (hup e hat)
      · rw [if_neg hle]
        exact iff_of_true hfill (.stay (by omega))
    · rw [if_neg hpos]
      obtain rfl : pos = 0 := by omega
      exact iff_of_true hfill .root

/-- `heap_parent` leads to an entry, and that one is not above the new deadline or can make room for it. -/
def Heap.Settable (h : Heap) (c : TtlCall) : Prop :=
  h.entries.length = 0 ∨ ParentFits h.entries.length ∧
    (h.val (heapParent h.entries.length) ≤ c.entry.val ∨ h.ClearUp c.entry.val h.entries.length)

theorem setTtl_returns_iff {h : Heap} {c : TtlCall} (hnode : (h.refs.read c.node).isSome)
    (hsize : h.entries.length + 1 < 2 ^ 63) : (∃ h', setTtl h c.now c.node c.ttl = .ok h') ↔ h.Settable c := by
  obtain ⟨hval, hlast⟩ := h.push_val c.entry
  have hlen : (h.push c.entry).entries.length = h.entries.length + 1 := by
    rw [Heap.push, List.length_append, List.length_singleton]
  have hget : (h.push c.entry).entries[h.entries.length]? = some c.entry := List.getElem?_concat_length
  have hnode' : ((h.push c.entry).refs.read c.entry.posRef).isSome := hnode
  have hdown : ∃ h', heapDown (h.push c.entry) h.entries.length = .ok h' := by
    rw [heapDown_push hsize, Heap.put, if_pos (by omega), if_pos hnode']
    exact ⟨_, rfl⟩
  change (∃ h', heapFix (h.push c.entry) h.entries.length = .ok h') ↔ _
  by_cases hpos : 0 < h.entries.length
  · by_cases hfits : ParentFits h.entries.length
    · have hq := (heapParent_lt hpos (by omega) hfits).1
      obtain ⟨e, he⟩ : ∃ e, (h.push c.entry).entries[heapParent h.entries.length]? = some e :=
        ⟨_, List.getElem?_eq_getElem (by omega)⟩
      have heval : e.val = h.val (heapParent h.entries.length) := by
        rw [← hval _ hq, Heap.val_of_getElem? he]
      have hup : heapUp (h.push c.entry) h.entries.length =
          heapUpAux (h.entries.length + 1) (h.push c.entry) c.entry h.entries.length := by
        rw [heapUp, Heap.get, hget]
        rfl
      have hclear : (h.push c.entry).ClearUp c.entry.val h.entries.length ↔
          h.ClearUp c.entry.val h.entries.length := by
        have hat : ∀ j, j < h.entries.length → ((h.push c.entry).LiveAt j ↔ h.LiveAt j) := by
          intro j hj
          unfold Heap.LiveAt Heap.push
          rw [List.getElem?_append_left hj]
        constructor
        · intro hc
          exact hc.congr (by omega) (fun _ => hfits) fun j hj => ⟨(hval j hj).symm, (hat j hj).mp⟩
        · intro hc
          exact hc.congr (by omega) (fun _ => hfits) fun j hj => ⟨hval j hj, (hat j hj).mpr⟩
      rw [Heap.Settable, or_iff_right hpos.ne', and_iff_right hfits, heapFix, Heap.get, hget]
      simp only [bind, Except.bind, if_pos hpos, Heap.get, he, heval]
      by_cases hgt : h.val (heapParent h.entries.length) > c.entry.val
      · rw [if_pos hgt, or_iff_right (by omega), hup, ← hclear]
        exact heapUpAux_returns_iff (by omega) (by omega) (fun _ => hfits) hnode' (by omega)
      · rw [if_neg hgt, if_pos (by omega)]
        exact iff_of_true hdown (.inl (by omega))
    · refine iff_of_false ?_ ?_
      · rintro ⟨h', hrun⟩
        rw [heapFix_not_fits (by omega) (by omega) hpos hfits] at hrun
        cases hrun
      · rintro (hzero | hand)
        · omega
        · exact hfits hand.1
  · refine iff_of_true ?_ (.inl (by omega))
    rw [heapFix, Heap.get, hget]
    simp only [bind, Except.bind, if_neg hpos]
    rw [if_pos (by omega)]
    exact hdown

end CustomRedis
