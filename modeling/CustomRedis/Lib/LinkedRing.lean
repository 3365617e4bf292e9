import Mathlib.Tactic

/-!
# Rings of doubly linked nodes

The links of a ring are two partial functions on nodes. A ring is a start node and the list of the other nodes: `next`
leads from the start through the list and back to the start, `prev` leads through the reversed list. The operations are
described by what they do to the two functions, one direction at a time.
-/

section Leads

variable {P : Type}

/-- Following `f` from `a` gives the nodes of the list in turn, and then `b`. -/
def Leads (f : P → Option P) (a : P) : List P → P → Prop
  | [], b => f a = some b
  | x :: l, b => f a = some x ∧ Leads f x l b

/-- The nodes that `f` leads through before it comes to `stop`. -/
def follow [DecidableEq P] (f : P → Option P) (stop : P) : Nat → P → List P
  | 0, _ => []
  | fuel + 1, a =>
    match f a with
    | none => []
    | some b => if b = stop then [] else b :: follow f stop fuel b

namespace Leads

variable {f f' : P → Option P} {a b c : P} {l A B : List P}

theorem append_cons : Leads f a (A ++ c :: B) b ↔ Leads f a A c ∧ Leads f c B b := by
  induction A generalizing a with
  | nil => rfl
  | cons x A ih =>
    rw [List.cons_append, Leads, Leads, ih]
    exact and_assoc.symm

/-- Every node but the last has a link to a node behind the first. -/
theorem exists_link (h : Leads f a l b) {q : P} (hq : q ∈ a :: l) : ∃ r ∈ l ++ [b], f q = some r := by
  induction l generalizing a with
  | nil =>
    obtain rfl := List.mem_singleton.mp hq
    exact ⟨b, by simp, h⟩
  | cons x l ih =>
    rcases List.mem_cons.mp hq with rfl | hq
    · exact ⟨x, by simp, h.1⟩
    · obtain ⟨r, hr, hlink⟩ := ih h.2 hq
      exact ⟨r, List.mem_cons_of_mem _ hr, hlink⟩

theorem link_ne (h : Leads f a l b) {q : P} (hq : q ∈ a :: l) (hc : c ∉ l ++ [b]) : f q ≠ some c := by
  obtain ⟨r, hr, hlink⟩ := h.exists_link hq
  rw [hlink]
  rintro ⟨⟩
  exact hc hr

/-- The first node may be exchanged for one with the same link. -/
theorem of_head (h : Leads f a l b) {a' : P} (hhead : f' a' = f a) (hrest : ∀ q ∈ l, f' q = f q) :
    Leads f' a' l b := by
  induction l generalizing a a' with
  | nil => exact hhead.trans h
  | cons x l ih =>
    refine ⟨hhead.trans h.1, ih h.2 (hrest x (by simp)) fun q hq => hrest q (List.mem_cons_of_mem _ hq)⟩

/-- The link to the end may be turned to another node. -/
theorem redirect [DecidableEq P] (h : Leads f a l b) (hb : b ∉ l)
    (hlinks : ∀ q ∈ a :: l, f' q = if f q = some b then some c else f q) : Leads f' a l c := by
  induction l generalizing a with
  | nil =>
    have hend : f a = some b := h
    have hlink := hlinks a (by simp)
    rwa [if_pos hend] at hlink
  | cons x l ih =>
    have hne : ¬f a = some b := by
      rw [h.1]
      rintro ⟨⟩
      exact hb List.mem_cons_self
    have hrest : b ∉ l := fun hmem => hb (List.mem_cons_of_mem _ hmem)
    refine ⟨?_, ih h.2 hrest fun q hq => hlinks q (List.mem_cons_of_mem _ hq)⟩
    rw [hlinks a (by simp), if_neg hne]
    exact h.1

/-- One node may be left out. -/
theorem skip [DecidableEq P] (hA : Leads f a A c) (hB : Leads f c B b) (hc : c ∉ A ++ (B ++ [b]))
    (hlinks : ∀ q ∈ a :: (A ++ B), f' q = if f q = some c then f c else f q) : Leads f' a (A ++ B) b := by
  rw [List.mem_append, not_or] at hc
  have hfirst : ∀ q ∈ a :: A, f' q = if f q = some c then f c else f q := by
    intro q hq
    exact hlinks q (by simp at hq ⊢; tauto)
  cases B with
  | nil =>
    rw [List.append_nil]
    refine hA.redirect hc.1 fun q hq => ?_
    rw [hfirst q hq, hB]
  | cons x B =>
    refine append_cons.mpr ⟨hA.redirect hc.1 fun q hq => ?_, ?_⟩
    · rw [hfirst q hq, hB.1]
    · have hsame : ∀ q ∈ x :: B, f' q = f q := by
        intro q hq
        rw [hlinks q (by simp at hq ⊢; tauto), if_neg]
        exact hB.2.link_ne hq fun hmem => hc.2 (List.mem_cons_of_mem _ hmem)
      exact hB.2.of_head (hsame x List.mem_cons_self) fun q hq => hsame q (List.mem_cons_of_mem _ hq)

theorem follow_eq [DecidableEq P] (h : Leads f a l b) (hb : b ∉ l) {fuel : Nat} (hfuel : l.length < fuel) :
    follow f b fuel a = l := by
  induction l generalizing a fuel with
  | nil =>
    obtain ⟨fuel, rfl⟩ := Nat.exists_eq_add_one_of_ne_zero (Nat.ne_zero_of_lt hfuel)
    have hlink : f a = some b := h
    simp [follow, hlink]
  | cons x l ih =>
    obtain ⟨fuel, rfl⟩ := Nat.exists_eq_add_one_of_ne_zero (Nat.ne_zero_of_lt hfuel)
    have hne : x ≠ b := by
      rintro rfl
      exact hb List.mem_cons_self
    have hrest := ih h.2 (fun hmem => hb (List.mem_cons_of_mem _ hmem)) (Nat.lt_of_succ_lt_succ hfuel)
    simp [follow, h.1, hne, hrest]

/-- Two functions that lead through the same nodes in opposite directions are inverse to each other on them. -/
theorem inverse {g : P → Option P} (hf : Leads f a l b) (hg : Leads g b l.reverse a) (hfirst : (a :: l).Nodup)
    (hlast : (l ++ [b]).Nodup) {p q : P} (hp : p ∈ a :: l) (hq : q ∈ l ++ [b]) : f p = some q ↔ g q = some p := by
  induction l generalizing a with
  | nil =>
    obtain rfl := List.mem_singleton.mp hp
    obtain rfl := List.mem_singleton.mp hq
    exact iff_of_true hf hg
  | cons x l ih =>
    rw [List.reverse_cons] at hg
    obtain ⟨hback, hend⟩ := append_cons.mp hg
    have hx : g x = some a := hend
    obtain ⟨ha, hfirst⟩ := List.nodup_cons.mp hfirst
    obtain ⟨hnot, hlast⟩ := List.nodup_cons.mp hlast
    rcases List.mem_cons.mp hp with rfl | hrest
    · rw [hf.1]
      rcases List.mem_cons.mp hq with rfl | hlater
      · exact iff_of_true rfl hx
      · refine iff_of_false ?_ ?_
        · rintro ⟨⟩
          exact hnot hlater
        · refine hback.link_ne ?_ ?_
          · simp at hlater ⊢
            tauto
          · intro hmem
            apply ha
            simpa [or_comm] using hmem
    · rcases List.mem_cons.mp hq with rfl | hlater
      · rw [hx]
        refine iff_of_false (hf.2.link_ne hrest hnot) ?_
        rintro ⟨⟩
        exact ha hrest
      · exact ih hf.2 hback hfirst hlast hrest hlater

end Leads

end Leads

/-- The ring of the start node and the nodes of the list, which are distinct. -/
structure LinkedRing {P : Type} (next prev : P → Option P) (start : P) (l : List P) : Prop where
  forward : Leads next start l start
  backward : Leads prev start l.reverse start
  nodup : (start :: l).Nodup

namespace LinkedRing

variable {P : Type} {next prev next' prev' : P → Option P} {start c : P} {l : List P}

theorem start_notMem (h : LinkedRing next prev start l) : start ∉ l := (List.nodup_cons.mp h.nodup).1

theorem next_iff_prev (h : LinkedRing next prev start l) {p q : P} (hp : p ∈ start :: l) (hq : q ∈ start :: l) :
    next p = some q ↔ prev q = some p := by
  refine h.forward.inverse h.backward h.nodup ?_ hp (by simp at hq ⊢; tauto)
  have hnodup : ([start] ++ l).Nodup := h.nodup
  exact List.nodup_append_comm.mp hnodup

/-- The nodes of the ring lead to each other. -/
theorem exists_next (h : LinkedRing next prev start l) {p : P} (hp : p ∈ start :: l) :
    ∃ q ∈ start :: l, next p = some q := by
  obtain ⟨q, hq, hlink⟩ := h.forward.exists_link hp
  exact ⟨q, by simp at hq ⊢; tauto, hlink⟩

theorem exists_prev (h : LinkedRing next prev start l) {p : P} (hp : p ∈ start :: l) :
    ∃ q ∈ start :: l, prev p = some q := by
  obtain ⟨q, hq, hlink⟩ := h.backward.exists_link (q := p) (by simp at hp ⊢; tauto)
  exact ⟨q, by simp at hq ⊢; tauto, hlink⟩

theorem congr (h : LinkedRing next prev start l) (hnext : ∀ q ∈ start :: l, next' q = next q)
    (hprev : ∀ q ∈ start :: l, prev' q = prev q) : LinkedRing next' prev' start l := by
  have hstart : start ∈ start :: l := List.mem_cons_self
  refine ⟨?_, ?_, h.nodup⟩
  · exact h.forward.of_head (hnext _ hstart) fun q hq => hnext q (List.mem_cons_of_mem _ hq)
  · refine h.backward.of_head (hprev _ hstart) fun q hq => hprev q (List.mem_cons_of_mem _ ?_)
    exact List.mem_reverse.mp hq

/-- A new node is put before the start. -/
theorem push [DecidableEq P] (h : LinkedRing next prev start l) (hc : c ∉ start :: l)
    (hnext : ∀ q ∈ start :: l, next' q = if next q = some start then some c else next q)
    (hnextNew : next' c = some start) (hprev : ∀ q ∈ l, prev' q = prev q)
    (hprevStart : prev' start = some c) (hprevNew : prev' c = prev start) :
    LinkedRing next' prev' start (l ++ [c]) := by
  refine ⟨?_, ?_, ?_⟩
  · exact Leads.append_cons.mpr ⟨h.forward.redirect h.start_notMem hnext, hnextNew⟩
  · rw [List.reverse_append]
    refine ⟨hprevStart, h.backward.of_head hprevNew fun q hq => hprev q ?_⟩
    exact List.mem_reverse.mp hq
  · rw [← List.cons_append]
    have hnodup : ([c] ++ (start :: l)).Nodup := List.nodup_cons.mpr ⟨hc, h.nodup⟩
    exact List.nodup_append_comm.mp hnodup

/-- The ring seen from another one of its nodes. -/
theorem rotate {y : P} {A B : List P} (h : LinkedRing next prev start (A ++ y :: B)) :
    LinkedRing next prev y (B ++ start :: A) := by
  obtain ⟨hA, hB⟩ := Leads.append_cons.mp h.forward
  have hbackward := h.backward
  rw [List.reverse_append, List.reverse_cons, List.append_assoc] at hbackward
  obtain ⟨hB', hA'⟩ := Leads.append_cons.mp hbackward
  refine ⟨Leads.append_cons.mpr ⟨hB, hA⟩, ?_, ?_⟩
  · rw [List.reverse_append, List.reverse_cons, List.append_assoc]
    exact Leads.append_cons.mpr ⟨hA', hB'⟩
  · have hnodup : ((start :: A) ++ (y :: B)).Nodup := h.nodup
    exact List.nodup_append_comm.mp hnodup

/-- The ring the other way round. -/
theorem mirror (h : LinkedRing next prev start l) : LinkedRing prev next start l.reverse := by
  refine ⟨h.backward, ?_, ?_⟩
  · rw [List.reverse_reverse]
    exact h.forward
  · have hnodup : ([start] ++ l).Nodup := h.nodup
    rw [← List.reverse_reverse ([start] ++ l), List.nodup_reverse, List.reverse_append] at hnodup
    exact List.nodup_append_comm.mp hnodup

/-- A new node is linked in before the start: its links are set, and those of the start and of the node before are turned
to it. -/
theorem link [DecidableEq P] (h : LinkedRing next prev start l) (hc : c ∉ start :: l)
    (hnext : ∀ q, next' q = if prev start = some q then some c else if q = c then some start else next q)
    (hprev : ∀ q, prev' q = if q = c then prev start else if q = start then some c else prev q) :
    LinkedRing next' prev' start (l ++ [c]) := by
  have hne : ∀ q ∈ start :: l, q ≠ c := by
    rintro q hq rfl
    exact hc hq
  have hstart : start ∈ start :: l := List.mem_cons_self
  refine h.push hc (fun q hq => ?_) ?_ (fun q hq => ?_) ?_ ?_
  · rw [hnext, if_neg (hne q hq)]
    exact if_congr (h.next_iff_prev hq hstart).symm rfl rfl
  · obtain ⟨r, hr, hlast⟩ := h.exists_prev hstart
    rw [hnext, if_pos rfl, hlast, if_neg]
    rintro ⟨⟩
    exact hc hr
  · have hmem : q ∈ start :: l := List.mem_cons_of_mem _ hq
    rw [hprev, if_neg (hne q hmem), if_neg]
    rintro rfl
    exact h.start_notMem hq
  · rw [hprev, if_neg (hne start hstart), if_pos rfl]
  · rw [hprev, if_pos rfl]

/-- The nodes before and behind a node are linked to each other. -/
theorem erase [DecidableEq P] (h : LinkedRing next prev start l) (hc : c ∈ l)
    (hnext : ∀ q ∈ start :: l, q ≠ c → next' q = if next q = some c then next c else next q)
    (hprev : ∀ q ∈ start :: l, q ≠ c → prev' q = if prev q = some c then prev c else prev q) :
    LinkedRing next' prev' start (l.erase c) := by
  have hnodup := h.nodup.sublist (List.Sublist.cons_cons start (List.erase_sublist (a := c) (l := l)))
  obtain ⟨A, B, rfl⟩ := List.append_of_mem hc
  obtain ⟨hstart, hlist⟩ := List.nodup_cons.mp h.nodup
  have hnotA : c ∉ A := by
    intro hA
    exact List.disjoint_of_nodup_append hlist hA List.mem_cons_self
  have hnotB : c ∉ B := (List.nodup_cons.mp (List.nodup_append.mp hlist).2.1).1
  have hne : c ≠ start := by
    rintro rfl
    exact hstart (by simp)
  have heq : (A ++ c :: B).erase c = A ++ B := by
    rw [List.erase_append_right _ hnotA, List.erase_cons_head]
  have hkeep : ∀ q ∈ start :: (A ++ B), q ∈ start :: (A ++ c :: B) ∧ q ≠ c := by
    intro q hq
    refine ⟨by simp at hq ⊢; tauto, ?_⟩
    rintro rfl
    simp [hne, hnotA, hnotB] at hq
  have hbackward := h.backward
  rw [List.reverse_append, List.reverse_cons, List.append_assoc] at hbackward
  rw [heq] at hnodup ⊢
  refine ⟨?_, ?_, hnodup⟩
  · obtain ⟨hA, hB⟩ := Leads.append_cons.mp h.forward
    exact hA.skip hB (by simp [hnotA, hnotB, hne]) fun q hq => hnext q (hkeep q hq).1 (hkeep q hq).2
  · obtain ⟨hB, hA⟩ := Leads.append_cons.mp hbackward
    rw [List.reverse_append]
    refine hB.skip hA (by simp [hnotA, hnotB, hne]) fun q hq => ?_
    have hq : q ∈ start :: (A ++ B) := by
      simp at hq ⊢
      tauto
    exact hprev q (hkeep q hq).1 (hkeep q hq).2

theorem follow_eq [DecidableEq P] (h : LinkedRing next prev start l) {fuel : Nat} (hfuel : l.length < fuel) :
    follow next start fuel start = l := h.forward.follow_eq h.start_notMem hfuel

end LinkedRing
