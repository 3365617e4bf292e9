import CustomRedis.Proof.Deadlines
import CustomRedis.Proof.HeapUpdates

/-!
# One call of `process_timers`

The loop takes the first entry again and again. Which entries it meets depends on the deadlines alone: behind
every removal the last entry sinks from the root along the left children. `refill` says what the vector is then,
and a call removes the first entries of its iterates. An entry off the left side is met only when it has become the
last one, so the loop can stop short of it.
-/

namespace CustomRedis

open HeapOrder
open Run (ok_of_bind check exists_ok_of_check)

/-! ### The entries behind a removal -/

/-- An entry sinks from the position along the left children until no child is below it. -/
def sinkLeft : Nat → List HeapNode → HeapNode → Nat → List HeapNode
  | 0, l, _, _ => l
  | fuel + 1, l, node, pos =>
    match l[left pos]? with
    | none => l.set pos node
    | some e =>
      if node.val ≤ e.val ∧ (l[right pos]?).all (fun d => node.val ≤ d.val) then l.set pos node
      else sinkLeft fuel (l.set pos e) node (left pos)

/-- The entries without the first one: the last one takes its place and sinks. -/
def refill (l : List HeapNode) : List HeapNode :=
  match l.getLast? with
  | none => []
  | some back =>
    match (l.set 0 back).dropLast with
    | [] => []
    | node :: rest => sinkLeft (rest.length + 2) (node :: rest) node 0

theorem heapDownAux_entries {fuel : Nat} {h h' : Heap} {node : HeapNode} {pos : Nat} (hlt : pos < h.entries.length)
    (hsize : h.entries.length < 2 ^ 63) (hrun : heapDownAux fuel h node pos = .ok h') :
    h'.entries = sinkLeft fuel h.entries node pos := by
  induction fuel generalizing h pos with
  | zero => cases hrun
  | succ fuel ih =>
    rw [sinkLeft]
    rcases heapDownAux_step hlt hsize hrun with ⟨hbelow, hput⟩ | ⟨hnot, e, h₁, hget, hput, hrun⟩
    · obtain ⟨-, rfl⟩ := put_eq hput
      obtain ⟨hleft, hright⟩ := Heap.below_val_iff.mp hbelow
      cases hl : h.entries[left pos]? with
      | none => rfl
      | some e =>
        refine (if_pos ⟨hleft e hl, ?_⟩).symm
        rw [Option.all_eq_true]
        exact fun d hd => decide_eq_true (hright d hd)
    · obtain ⟨hlen, -⟩ := put_val hput
      have hleft := (get_val hget).1
      rw [ih (by omega) (by omega) hrun, get_entry hget]
      obtain ⟨-, rfl⟩ := put_eq hput
      refine (if_neg fun hstay => hnot (Heap.below_val_iff.mpr ⟨fun d hd => ?_, fun d hd => ?_⟩)).symm
      · cases (get_entry hget).symm.trans hd
        exact hstay.1
      · exact of_decide_eq_true ((Option.all_eq_true _ _).mp hstay.2 d hd)

theorem remTtl_refill {h h' : Heap} {e : HeapNode} {rest : List HeapNode} (hentries : h.entries = e :: rest)
    (hsize : h.entries.length < 2 ^ 63) (hread : h.refs.read e.posRef = some 0) (hrun : remTtl h e.posRef = .ok h') :
    h'.entries = refill h.entries := by
  have hpos : 0 < h.entries.length := by
    rw [hentries]
    exact Nat.succ_pos _
  obtain ⟨-, hlen, -, -, hrem⟩ := Heap.moveLast_eq hpos
  obtain ⟨back, hback⟩ : ∃ back, h.entries.getLast? = some back := by
    rw [hentries]
    exact ⟨_, List.getLast?_cons⟩
  have hmid : (h.moveLast 0).entries = (h.entries.set 0 back).dropLast := by rw [Heap.moveLast, hback]
  rw [hrem e.posRef hread] at hrun
  rw [refill, hback]
  simp only
  rw [← hmid]
  cases hmoved : (h.moveLast 0).entries with
  | nil =>
    rw [hmoved, if_neg (by decide)] at hrun
    cases hrun
    exact hmoved
  | cons node others =>
    have hlt : 0 < (h.moveLast 0).entries.length := by
      rw [hmoved]
      exact Nat.succ_pos _
    rw [if_pos hlt] at hrun
    rcases heapFix_cases hlt hrun with ⟨hup, -⟩ | ⟨-, hdown⟩
    · exact absurd hup.1 (Nat.lt_irrefl 0)
    · obtain ⟨root, hroot, hdown⟩ := ok_of_bind hdown
      have hat := get_entry hroot
      rw [hmoved] at hat
      cases hat
      rw [heapDownAux_entries hlt (by omega) hdown, hmoved]
      rfl

/-! ### The keys of the removed entries -/

/-- The entries that are gone, and the keys with them. -/
structure Expired (g : GlobalData) (gone : List HeapNode) (g' : GlobalData) : Prop where
  entries : g.ttl.entries.Perm (gone ++ g'.ttl.entries)
  nodes : g'.db.nodes = g.db.nodes.filter fun x => x.val.addr ∉ gone.map HeapNode.posRef
  count : g.db.nodes.length = g'.db.nodes.length + gone.length

theorem Deleted.addrs {g g' : GlobalData} {n : HNode Entry} (hd : Deleted g n g') (h : g.WF) (hn : n ∈ g.db.nodes) :
    g'.db.nodes = g.db.nodes.filter (fun x => x.val.addr ≠ n.val.addr) ∧
      g.db.nodes.length = g'.db.nodes.length + 1 := by
  have hnodes : g'.db.nodes = g.db.nodes.filter fun x => x.val.addr ≠ n.val.addr := by
    rw [hd.nodes]
    refine List.filter_congr fun x hx => ?_
    have hlink := h.link_inj (List.mem_map_of_mem (f := HNode.link) hx) (List.mem_map_of_mem (f := HNode.link) hn)
    exact decide_eq_decide.mpr (not_congr hlink)
  refine ⟨hnodes, ?_⟩
  have haddrs : (g.db.nodes.map fun x => x.val.addr).Nodup := by
    have hnodup := h.addrs
    rwa [GlobalData.links, List.map_map] at hnodup
  have hmem : n.val.addr ∈ g.db.nodes.map fun x => x.val.addr := List.mem_map_of_mem hn
  have hlen := List.length_erase_of_mem hmem
  rw [haddrs.erase_eq_filter, List.filter_map, List.length_map, List.length_map] at hlen
  have hsame : (g.db.nodes.filter fun x => x.val.addr != n.val.addr) = g'.db.nodes := by
    rw [hnodes]
    exact List.filter_congr fun x _ => by rw [bne, beq_eq_decide, decide_not]
  have hpos := List.length_pos_of_mem hn
  change (g.db.nodes.filter fun x => x.val.addr != n.val.addr).length = _ at hlen
  rw [hsame] at hlen
  omega

theorem Expired.none (g : GlobalData) : Expired g [] g where
  entries := .refl _
  nodes := by
    rw [List.filter_eq_self.mpr]
    exact fun x _ => decide_eq_true List.not_mem_nil
  count := rfl

/-- One more round in front. -/
theorem Expired.cons {g g₁ g' : GlobalData} {e : HeapNode} {gone : List HeapNode}
    (hentries : g.ttl.entries.Perm (e :: g₁.ttl.entries))
    (hnodes : g₁.db.nodes = g.db.nodes.filter fun x => x.val.addr ≠ e.posRef)
    (hcount : g.db.nodes.length = g₁.db.nodes.length + 1) (he : Expired g₁ gone g') : Expired g (e :: gone) g' where
  entries := hentries.trans (he.entries.cons e)
  nodes := by
    rw [he.nodes, hnodes, List.filter_filter]
    refine List.filter_congr fun x _ => ?_
    rw [List.map_cons, ← Bool.decide_and, decide_eq_decide, List.mem_cons, not_or, and_comm]
  count := by
    rw [hcount, he.count, List.length_cons, Nat.add_assoc]

/-- The rounds of a call remove the first entries of the iterates of `refill`, and it ends before its last round
only where the next one has not expired. -/
theorem expireEntries_gone (k : Nat) {g : GlobalData} (h : g.WF) (hc : g.ttl.Coherent)
    (hsize : g.ttl.entries.length < 2 ^ 63) (now : Nat) :
    ∃ g' gone, expireEntries k g now = .ok g' ∧ Expired g gone g' ∧ gone.length ≤ k ∧
      g'.ttl.entries = refill^[gone.length] g.ttl.entries ∧
      (∀ j e, gone[j]? = some e → (refill^[j] g.ttl.entries).head? = some e ∧ e.val < now) ∧
      (gone.length < k → ∀ e, (refill^[gone.length] g.ttl.entries).head? = some e → now ≤ e.val) := by
  induction k generalizing g with
  | zero => exact ⟨g, [], rfl, .none g, Nat.le_refl _, rfl, nofun, nofun⟩
  | succ k ih =>
    cases hentries : g.ttl.entries with
    | nil =>
      refine ⟨g, [], ?_, .none g, Nat.zero_le _, hentries, nofun, fun _ => nofun⟩
      rw [expireEntries, hentries]
    | cons e rest =>
      by_cases hdue : e.val < now
      · obtain ⟨n, ttl, g₁, hnode, hrem, hdel, hd, hcoh, hperm, hn, haddr⟩ := expireRound_spec h hc hsize hentries
        have hlive : g.ttl.SameLive ttl := remTtl_sameLive hrem
        have httl : g₁.ttl.entries = ttl.entries := by rw [hd.ttl]
        have hread : g.ttl.refs.read e.posRef = some 0 := hc 0 e (by rw [hentries]; rfl)
        have hrefill : g₁.ttl.entries = refill (e :: rest) := by
          rw [httl, remTtl_refill hentries hsize hread hrem, hentries]
        have hsize₁ : g₁.ttl.entries.length < 2 ^ 63 := by
          rw [hentries, List.length_cons] at hsize
          rw [httl, hperm.length_eq]
          omega
        obtain ⟨hnodes, hcount⟩ := hd.addrs (h.withTtl hlive) hn
        obtain ⟨g', gone, hrun, hgone, hlen, hleft, hfirst, hstop⟩ := ih hd.wf hcoh hsize₁
        rw [hrefill] at hleft hfirst hstop
        refine ⟨g', e :: gone, ?_, .cons ?_ (haddr ▸ hnodes) hcount hgone, Nat.succ_le_succ hlen, hleft, ?_,
          fun hlt => hstop (Nat.lt_of_succ_lt_succ hlt)⟩
        · rw [expireEntries, hentries]
          simp only [if_pos hdue, bind, Except.bind, hnode, hrem, hdel, hrun]
        · rw [hentries, httl]
          exact hperm.symm.cons e
        · intro j d hj
          cases j with
          | zero =>
            cases hj
            exact ⟨rfl, hdue⟩
          | succ j => exact hfirst j d hj
      · refine ⟨g, [], ?_, .none g, Nat.zero_le _, hentries, nofun, fun _ d hd => ?_⟩
        · rw [expireEntries, hentries]
          simp only [if_neg hdue]
        · cases hd
          exact not_lt.mp hdue

/-! ### The left side -/

theorem sinkLeft_length (fuel : Nat) (l : List HeapNode) (node : HeapNode) (pos : Nat) :
    (sinkLeft fuel l node pos).length = l.length := by
  induction fuel generalizing l pos with
  | zero => rfl
  | succ fuel ih =>
    rw [sinkLeft]
    split
    · exact List.length_set
    · split
      · exact List.length_set
      · rw [ih, List.length_set]

theorem refill_cons {first back : HeapNode} {rest : List HeapNode} (hback : rest.getLast? = some back) :
    refill (first :: rest) = sinkLeft (rest.length + 1) (back :: rest.dropLast) back (leftmost 0) := by
  have hne : rest ≠ [] := by
    rintro rfl
    cases hback
  have hlen := List.length_pos_of_ne_nil hne
  rw [refill, List.getLast?_cons_of_ne_nil hne, hback]
  simp only [List.set_cons_zero, List.dropLast_cons_of_ne_nil hne, List.length_dropLast]
  rw [show rest.length - 1 + 2 = rest.length + 1 by omega]
  rfl

theorem refill_length (l : List HeapNode) : (refill l).length = l.length - 1 := by
  cases l with
  | nil => rfl
  | cons first rest =>
    cases hback : rest.getLast? with
    | none =>
      rw [List.getLast?_eq_none_iff.mp hback]
      rfl
    | some back =>
      have hlen := List.length_pos_of_ne_nil (List.ne_nil_of_mem (List.mem_of_getLast? hback))
      rw [refill_cons hback, sinkLeft_length, List.length_cons, List.length_cons, List.length_dropLast]
      omega

/-- The entries that are due are the first `k` down the left side. -/
structure DueFirst (l : List HeapNode) (now k : Nat) : Prop where
  reach : ∀ j < k, leftmost j < l.length
  due : ∀ p e, l[p]? = some e → (e.val < now ↔ ∃ j < k, p = leftmost j)

/-- The same without the entry at the `i`-th of these positions, so that those behind it are one further down. -/
def DueAround (l : List HeapNode) (now k i : Nat) : Prop :=
  ∀ p e, l[p]? = some e → p ≠ leftmost i → (e.val < now ↔ ∃ j, p = leftmost j ∧ (j < i ∧ j < k ∨ i < j ∧ j ≤ k))

section Sink

variable {l : List HeapNode} {now k i : Nat} {node : HeapNode}

theorem DueAround.move (h : DueAround l now k i) {e : HeapNode} (he : l[leftmost (i + 1)]? = some e) :
    DueAround (l.set (leftmost i) e) now k (i + 1) := by
  intro p d hd hne
  by_cases hp : p = leftmost i
  · have hlt := (List.getElem?_eq_some_iff.mp hd).1
    rw [List.length_set] at hlt
    rw [hp, List.getElem?_set_self (hp ▸ hlt)] at hd
    cases hd
    rw [h _ e he (leftmost_strictMono.injective.ne (Nat.succ_ne_self i))]
    constructor
    · rintro ⟨j, hj, hwhich⟩
      cases leftmost_strictMono.injective hj
      exact ⟨i, hp, .inl ⟨Nat.lt_succ_self i, by omega⟩⟩
    · rintro ⟨j, hj, hwhich⟩
      cases leftmost_strictMono.injective (hp.symm.trans hj)
      exact ⟨i + 1, rfl, .inr ⟨Nat.lt_succ_self i, by omega⟩⟩
  · rw [List.getElem?_set_ne (Ne.symm hp)] at hd
    rw [h p d hd hp]
    refine exists_congr fun j => and_congr_right fun hj => ?_
    have hji : j ≠ i := fun hji => hp (hj.trans (congrArg leftmost hji))
    have hnext : j ≠ i + 1 := fun hji => hne (hj.trans (congrArg leftmost hji))
    omega

/-- The entry is put where it belongs. -/
theorem DueAround.fill (h : DueAround l now k i) (hnode : node.val < now ↔ i < k)
    (hall : i < k → ∀ j, leftmost j < l.length → j < k) {p : Nat} {e : HeapNode}
    (he : (l.set (leftmost i) node)[p]? = some e) : e.val < now ↔ ∃ j < k, p = leftmost j := by
  have hlt := (List.getElem?_eq_some_iff.mp he).1
  rw [List.length_set] at hlt
  by_cases hp : p = leftmost i
  · rw [hp, List.getElem?_set_self (hp ▸ hlt)] at he
    cases he
    rw [hnode]
    refine ⟨fun hik => ⟨i, hik, hp⟩, ?_⟩
    rintro ⟨j, hjk, hj⟩
    rwa [leftmost_strictMono.injective (hp.symm.trans hj)]
  · rw [List.getElem?_set_ne (Ne.symm hp)] at he
    rw [h p e he hp]
    constructor
    · rintro ⟨j, hj, ⟨-, hjk⟩ | ⟨hij, hjk⟩⟩
      · exact ⟨j, hjk, hj⟩
      · exact ⟨j, hall (by omega) j (hj ▸ hlt), hj⟩
    · rintro ⟨j, hjk, hj⟩
      have hji : j ≠ i := fun hji => hp (hj.trans (congrArg leftmost hji))
      exact ⟨j, hj, by omega⟩

/-- An entry that is not due sinks below all that are; one that is due has only such ones to sink through. -/
theorem DueAround.sinkLeft {fuel : Nat} (hfuel : l.length < fuel + leftmost i) (hi : leftmost i < l.length)
    (hnode : node.val < now → ∀ j, leftmost j < l.length → j < k) (hnot : ¬node.val < now → ∀ j ≤ k, leftmost j < l.length)
    (h : DueAround l now k i) {p : Nat} {e : HeapNode}
    (he : (CustomRedis.sinkLeft fuel l node (leftmost i))[p]? = some e) : e.val < now ↔ ∃ j < k, p = leftmost j := by
  induction fuel generalizing l i with
  | zero => omega
  | succ fuel ih =>
    -- where the sink ends, the entry is due exactly if its place is among the first
    have hstop : (¬node.val < now → ¬i < k) → (l.set (leftmost i) node)[p]? = some e →
        (e.val < now ↔ ∃ j < k, p = leftmost j) := by
      intro hbehind hset
      have hwhich : node.val < now ↔ i < k :=
        ⟨fun hdue => hnode hdue i hi, fun hik => by_contra fun hlate => hbehind hlate hik⟩
      exact h.fill hwhich (fun hik => hnode (hwhich.mpr hik)) hset
    rw [CustomRedis.sinkLeft, left_leftmost] at he
    cases hleft : l[leftmost (i + 1)]? with
    | none =>
      rw [hleft] at he
      refine hstop (fun hlate hik => ?_) he
      exact absurd (hnot hlate (i + 1) hik) (Nat.not_lt.mpr (List.getElem?_eq_none_iff.mp hleft))
    | some d =>
      rw [hleft] at he
      simp only at he
      split at he
      · next hstay =>
        refine hstop (fun hlate hik => hlate ?_) he
        have hd := (h _ d hleft (leftmost_strictMono.injective.ne (Nat.succ_ne_self i))).mpr
          ⟨i + 1, rfl, .inr ⟨Nat.lt_succ_self i, hik⟩⟩
        exact Nat.lt_of_le_of_lt hstay.1 hd
      · have hdown := leftmost_strictMono (Nat.lt_add_one i)
        have hin := (List.getElem?_eq_some_iff.mp hleft).1
        rw [← List.length_set (i := leftmost i) (a := d)] at hfuel hnode hnot hin
        exact ih (by omega) hin hnode hnot (h.move hleft) he

end Sink

section Due

variable {l : List HeapNode} {now k : Nat}

/-- With the last entry taken out to fill the first place, the others stand as before. -/
theorem DueFirst.around {first back : HeapNode} {rest : List HeapNode} (h : DueFirst (first :: rest) now (k + 1)) :
    DueAround (back :: rest.dropLast) now k 0 := by
  intro p e he hne
  obtain ⟨q, rfl⟩ := Nat.exists_eq_add_one_of_ne_zero hne
  rw [List.getElem?_cons_succ, List.getElem?_dropLast] at he
  split at he
  · rw [h.due (q + 1) e he]
    refine exists_congr fun j => ?_
    rw [and_comm]
    refine and_congr_right fun hj => ?_
    have hpos : j ≠ 0 := by
      rintro rfl
      exact hne hj
    omega
  · cases he

/-- The first entry is gone, and the others that are due have come up by one position. -/
theorem DueFirst.refill (h : DueFirst l now (k + 1)) : DueFirst (CustomRedis.refill l) now k := by
  cases l with
  | nil => cases h.reach 0 (Nat.succ_pos k)
  | cons first rest =>
    refine ⟨fun j hj => ?_, ?_⟩
    · have hlast := h.reach k (Nat.lt_succ_self k)
      have hless := leftmost_strictMono hj
      rw [refill_length]
      omega
    · cases hback : rest.getLast? with
      | none =>
        rw [List.getLast?_eq_none_iff.mp hback]
        intro p e he
        cases he
      | some back =>
        have hpos := List.length_pos_of_ne_nil (List.ne_nil_of_mem (List.mem_of_getLast? hback))
        have hat : (first :: rest)[rest.length]? = some back := by
          rw [← List.getLast?_cons_of_ne_nil (List.ne_nil_of_length_pos hpos), List.getLast?_eq_getElem?] at hback
          exact hback
        have hlast := h.due _ back hat
        have hlen : (back :: rest.dropLast).length = rest.length := by
          rw [List.length_cons, List.length_dropLast]
          omega
        rw [refill_cons hback]
        intro p e he
        refine DueAround.sinkLeft ?_ ?_ ?_ ?_ ?_ he
        · rw [hlen]
          exact Nat.lt_add_right _ (Nat.lt_succ_self _)
        · rw [hlen]
          exact hpos
        · intro hdue j hj
          obtain ⟨m, hm, hend⟩ := hlast.mp hdue
          rw [hlen, hend] at hj
          have hjm := leftmost_strictMono.lt_iff_lt.mp hj
          omega
        · intro hlate j hj
          have hreach := h.reach j (Nat.lt_succ_of_le hj)
          rw [List.length_cons] at hreach
          rw [hlen]
          have hother : leftmost j ≠ rest.length := fun hend => hlate (hlast.mpr ⟨j, Nat.lt_succ_of_le hj, hend.symm⟩)
          omega
        · exact h.around

theorem DueFirst.iterate {n : Nat} (h : DueFirst l now (n + k)) : DueFirst (CustomRedis.refill^[n] l) now k := by
  induction n generalizing l with
  | zero => rwa [Nat.zero_add] at h
  | succ n ih =>
    rw [Function.iterate_succ_apply]
    rw [Nat.succ_add] at h
    exact ih h.refill

theorem DueFirst.head (h : DueFirst l now k) {e : HeapNode} (he : l.head? = some e) : e.val < now ↔ 0 < k := by
  rw [List.head?_eq_getElem?] at he
  rw [h.due 0 e he]
  refine ⟨fun ⟨j, hj, _⟩ => Nat.zero_lt_of_lt hj, fun hk => ⟨0, hk, rfl⟩⟩

end Due

/-! ### The batch -/

/-- Where more entries than the limit are there and all are due, one more than the limit is removed. -/
theorem processTimers_one_more {g : GlobalData} (h : g.WF) (hc : g.ttl.Coherent)
    (hsize : g.ttl.entries.length < 2 ^ 63) {now : Nat} (hdue : ∀ e ∈ g.ttl.entries, e.val < now)
    (hmany : maxTtlTasks < g.ttl.entries.length) :
    ∃ g', processTimers g now = .ok g' ∧ g.db.nodes.length = g'.db.nodes.length + (maxTtlTasks + 1) := by
  obtain ⟨g', gone, hrun, hgone, hlen, hleft, -, hstop⟩ := expireEntries_gone (maxTtlTasks + 1) h hc hsize now
  refine ⟨g', hrun, hgone.count.trans (congrArg _ ?_)⟩
  rcases Nat.lt_or_eq_of_le hlen with hless | hfull
  · have hsum := hgone.entries.length_eq
    rw [List.length_append] at hsum
    have hne : g'.ttl.entries ≠ [] := List.ne_nil_of_length_pos (by omega)
    obtain ⟨e, he⟩ := Option.isSome_iff_exists.mp (List.isSome_head?.mpr hne)
    have hmem : e ∈ g.ttl.entries :=
      hgone.entries.mem_iff.mpr (List.mem_append_right gone (List.mem_of_mem_head? he))
    exact absurd (hdue e hmem) (hstop hless e (hleft ▸ he)).not_gt
  · exact hfull

end CustomRedis
