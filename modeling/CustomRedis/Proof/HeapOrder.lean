import CustomRedis.Proof.Heap
import CustomRedis.Lib.HeapOrder

/-!
# The order of the deadlines

`heap_fix` permutes the entries whatever their values are, as long as `heap_parent` is not negative. It
restores the order upwards. Downwards it always goes to the left child, so the order is lost where the
right child is smaller than the left one and smaller than the moving entry.
-/

namespace CustomRedis

open HeapOrder
open Run (ok_of_bind)
open Function (update)

/-! ### Back references -/

theorem heapFix_not_fits {h : Heap} {pos : Nat} (hpos : pos < h.entries.length) (hsize : h.entries.length < 2 ^ 63)
    (hzero : 0 < pos) (hfits : ¬ParentFits pos) : heapFix h pos = .error .outOfBounds := by
  have hparent := heapParent_of_not_fits hzero (by omega) hfits
  have hnone : h.entries[heapParent pos]? = none := List.getElem?_eq_none (by omega)
  rw [heapFix, Heap.get, List.getElem?_eq_getElem hpos]
  simp only [bind, Except.bind, if_pos hzero, Heap.get, hnone]

/-- `heap_fix` returns, and with every entry in its place, exactly if the position is the root or
`heap_parent` of it is not negative. -/
theorem heapFix_settles_iff {h : Heap} {pos : Nat} (hpos : pos < h.entries.length) (hsize : h.entries.length < 2 ^ 63)
    (hnodup : (h.entries.map HeapNode.posRef).Nodup)
    (hlive : ∀ e, h.entries[pos]? = some e → (h.refs.read e.posRef).isSome)
    (hrefs : ∀ i e, i ≠ pos → h.entries[i]? = some e → h.refs.read e.posRef = some i) :
    (∃ h', heapFix h pos = .ok h' ∧ h'.entries.Perm h.entries ∧
      (∀ i e, h'.entries[i]? = some e → h'.refs.read e.posRef = some i) ∧
      ∀ p, p ∉ h.entries.map HeapNode.posRef → h'.refs.read p = h.refs.read p) ↔
    pos = 0 ∨ (pos - 1) / 2 % 2 ^ 32 < 2 ^ 31 := by
  have hall : ∀ e ∈ h.entries, (h.refs.read e.posRef).isSome := by
    intro e he
    obtain ⟨i, hi⟩ := List.mem_iff_getElem?.mp he
    by_cases hip : i = pos
    · exact hlive e (hip ▸ hi)
    · rw [hrefs i e hip hi]
      rfl
  constructor
  · rintro ⟨h', hrun, -⟩
    by_contra hnot
    rw [not_or] at hnot
    rw [heapFix_not_fits hpos hsize (Nat.pos_of_ne_zero hnot.1) hnot.2] at hrun
    cases hrun
  · intro hfits
    obtain ⟨h', hrun, hs⟩ := heapFix_spec hnodup hall hpos hsize (fun hzero => hfits.resolve_left (by omega)) hrefs
    exact ⟨h', hrun, hs.perm, hs.coherent, hs.frame⟩

/-- Entries with the given deadlines, each referring to the field with its own index. -/
def heapOf (vals : Nat → Nat) (n : Nat) : Heap := ⟨(List.range n).map fun i => ⟨vals i, i⟩, ⟨(List.range n).map some⟩⟩

theorem length_heapOf (vals : Nat → Nat) (n : Nat) : (heapOf vals n).entries.length = n := by
  rw [heapOf, List.length_map, List.length_range]

theorem heapOf_coherent (vals : Nat → Nat) (n : Nat) : (heapOf vals n).Coherent := by
  intro i e he
  rw [heapOf, List.getElem?_map] at he
  obtain ⟨j, hj, rfl⟩ := Option.map_eq_some_iff.mp he
  obtain ⟨hlt, rfl⟩ := List.getElem?_eq_some_iff.mp hj
  rw [List.getElem_range]
  have hi : i < n := by simpa using hlt
  simp [heapOf, Mem.read, hi]

/-- Of 2³² + 2 entries the last one has a negative parent. -/
theorem heapFix_last_faults : ∃ h pos, pos < h.entries.length ∧ h.entries.length < 2 ^ 63 ∧
    (h.entries.map HeapNode.posRef).Nodup ∧ (∀ i e, h.entries[i]? = some e → h.refs.read e.posRef = some i) ∧
    heapFix h pos = .error .outOfBounds := by
  obtain ⟨n, hn⟩ : ∃ n, n = 2 ^ 32 + 2 := ⟨_, rfl⟩
  have hlen := length_heapOf (fun _ => 0) n
  have hcoherent := heapOf_coherent (fun _ => 0) n
  refine ⟨heapOf (fun _ => 0) n, n - 1, by omega, by omega, hcoherent.nodup, hcoherent, ?_⟩
  refine heapFix_not_fits (by omega) (by omega) (by omega) ?_
  unfold ParentFits
  omega

/-- The second of three entries. -/
theorem heapFix_settles_three : ∃ h', heapFix (heapOf (fun _ => 0) 3) 1 = .ok h' ∧
    h'.entries.Perm (heapOf (fun _ => 0) 3).entries ∧
    ∀ i e, h'.entries[i]? = some e → h'.refs.read e.posRef = some i := by
  have hc := heapOf_coherent (fun _ => 0) 3
  obtain ⟨h', hrun, hperm, hcoherent, -⟩ := (@heapFix_settles_iff (heapOf (fun _ => 0) 3) 1 (by decide) (by decide)
    hc.nodup (fun e he => by rw [hc 1 e he]; rfl) (fun i e _ he => hc i e he)).mpr (by decide)
  exact ⟨h', hrun, hperm, hcoherent⟩

/-! ### The deadlines of a sift -/

/-- The deadline at a position. -/
def Heap.val (h : Heap) (i : Nat) : Nat := ((h.entries[i]?).map HeapNode.val).getD 0

/-- No deadline is earlier than the one above it. -/
def Heap.Ordered (h : Heap) : Prop := HeapOrder.Ordered h.val h.entries.length

theorem Heap.val_of_getElem? {h : Heap} {i : Nat} {e : HeapNode} (he : h.entries[i]? = some e) : h.val i = e.val := by
  rw [Heap.val, he]
  rfl

theorem Heap.Ordered.root_le {h : Heap} (ho : h.Ordered) : ∀ e ∈ h.entries, h.val 0 ≤ e.val := by
  intro e he
  obtain ⟨i, hi⟩ := List.mem_iff_getElem?.mp he
  rw [← Heap.val_of_getElem? hi]
  exact HeapOrder.Ordered.root_le ho (List.getElem?_eq_some_iff.mp hi).1

theorem get_entry {h : Heap} {i : Nat} {e : HeapNode} (hget : h.get i = .ok e) : h.entries[i]? = some e := by
  unfold Heap.get at hget
  split at hget
  · next hat =>
    cases hget
    exact hat
  · cases hget

theorem get_val {h : Heap} {i : Nat} {e : HeapNode} (hget : h.get i = .ok e) : i < h.entries.length ∧ h.val i = e.val :=
  ⟨(List.getElem?_eq_some_iff.mp (get_entry hget)).1, Heap.val_of_getElem? (get_entry hget)⟩

theorem put_val {h h' : Heap} {pos : Nat} {node : HeapNode} (hrun : h.put pos node = .ok h') :
    h'.entries.length = h.entries.length ∧ h'.val = update h.val pos node.val := by
  have hlt : pos < h.entries.length := by
    by_contra hge
    rw [Heap.put, if_neg hge] at hrun
    cases hrun
  obtain ⟨-, rfl⟩ := put_eq hrun
  refine ⟨List.length_set, ?_⟩
  funext i
  by_cases hi : i = pos
  · rw [hi, Function.update_self, Heap.val, List.getElem?_set_self hlt]
    rfl
  · rw [Function.update_of_ne hi, Heap.val, List.getElem?_set_ne (Ne.symm hi), Heap.val]

/-- Upwards from a position with an exact parent the order is restored. -/
theorem heapUpAux_ordered {fuel : Nat} {h h' : Heap} {node : HeapNode} {pos : Nat} (hlt : pos < h.entries.length)
    (hexact : pos < heapLimit) (hexc : Except h.val h.entries.length pos)
    (hbelow : Below node.val h.val h.entries.length pos) (hrun : heapUpAux fuel h node pos = .ok h') : h'.Ordered := by
  induction fuel generalizing h pos with
  | zero => cases hrun
  | succ fuel ih =>
    have hfill : ∀ {h'}, h.put pos node = .ok h' → (0 < pos → h.val (parent pos) ≤ node.val) → h'.Ordered := by
      intro h' hput hle
      obtain ⟨hlen, hval⟩ := put_val hput
      rw [Heap.Ordered, hlen, hval]
      exact (hexc.ordered_iff hlt).mpr ⟨hle, hbelow⟩
    rw [heapUpAux] at hrun
    split at hrun
    · next hpos =>
      rw [heapParent_eq hpos hexact, ← parent] at hrun
      obtain ⟨e, hget, hrun⟩ := ok_of_bind hrun
      have he := (get_val hget).2
      split at hrun
      · next hle =>
        obtain ⟨h₁, hput, hrun⟩ := ok_of_bind hrun
        obtain ⟨hlen, hval⟩ := put_val hput
        rw [← he] at hle hval
        have hup : parent pos < pos := by
          unfold parent
          omega
        have ho : h₁.Ordered := by
          rw [Heap.Ordered, hlen, hval]
          exact hexc.up hpos hlt
        have hparent : node.val ≤ h₁.val (parent pos) := by rwa [hval, Function.update_of_ne hup.ne]
        have hlt₁ : parent pos < h₁.entries.length := hlen ▸ hup.trans hlt
        exact ih hlt₁ (hup.trans hexact) (HeapOrder.Ordered.except ho hlt₁) (HeapOrder.Ordered.below ho hparent) hrun
      · next hgt =>
        refine hfill hrun fun _ => ?_
        rw [he]
        exact (not_le.mp hgt).le
    · next hzero => exact hfill hrun fun hpos => absurd hpos hzero

/-- Upwards nothing changes behind the position. -/
theorem heapUpAux_behind {fuel : Nat} {h h' : Heap} {node : HeapNode} {pos : Nat} (hlt : pos < h.entries.length)
    (hexact : pos < heapLimit) (hrun : heapUpAux fuel h node pos = .ok h') :
    h'.entries.length = h.entries.length ∧ ∀ j, pos < j → h'.val j = h.val j := by
  induction fuel generalizing h pos with
  | zero => cases hrun
  | succ fuel ih =>
    have hfill : ∀ {h' : Heap} {e : HeapNode}, h.put pos e = .ok h' →
        h'.entries.length = h.entries.length ∧ ∀ j, pos < j → h'.val j = h.val j := by
      intro h' e hput
      obtain ⟨hlen, hval⟩ := put_val hput
      refine ⟨hlen, fun j hj => ?_⟩
      rw [hval, Function.update_of_ne (by omega)]
    rw [heapUpAux] at hrun
    split at hrun
    · next hpos =>
      rw [heapParent_eq hpos hexact] at hrun
      obtain ⟨e, -, hrun⟩ := ok_of_bind hrun
      split at hrun
      · obtain ⟨h₁, hput, hrun⟩ := ok_of_bind hrun
        obtain ⟨hlen, hkept⟩ := hfill hput
        obtain ⟨hlen', hkept'⟩ := ih (by omega) (by omega) hrun
        exact ⟨hlen'.trans hlen, fun j hj => (hkept' j (by omega)).trans (hkept j hj)⟩
      · exact hfill hrun
    · exact hfill hrun

/-- The sift up, with whatever entry `heap_parent` takes for the parent of the position. -/
theorem heapUp_ordered_iff {h h' : Heap} {pos : Nat} (hlt : pos < h.entries.length) (hpos : 0 < pos)
    (hfits : ParentFits pos) (hsize : h.entries.length < 2 ^ 63) (hexc : Except h.val h.entries.length pos)
    (hsmall : h.val pos < h.val (heapParent pos)) (hrun : heapUp h pos = .ok h') :
    h'.Ordered ↔ h.val (parent pos) ≤ h.val (heapParent pos) ∧
      Below (h.val (heapParent pos)) h.val h.entries.length pos := by
  have hq : heapParent pos ≤ parent pos ∧ heapParent pos < heapLimit := by
    rw [heapParent_of_fits hpos (by omega) hfits]
    unfold ParentFits at hfits
    unfold parent heapLimit
    omega
  obtain ⟨q, hqdef⟩ : ∃ q, q = heapParent pos := ⟨_, rfl⟩
  obtain ⟨node, hget, hrun⟩ := ok_of_bind hrun
  have hnode := (get_val hget).2
  rw [heapUpAux, if_pos hpos] at hrun
  rw [← hqdef] at hq hsmall hrun ⊢
  have hup : parent pos < pos := by
    unfold parent
    omega
  obtain ⟨e, hparent, hrun⟩ := ok_of_bind hrun
  have he := (get_val hparent).2
  rw [if_pos (by rw [← hnode, ← he]; exact hsmall.le)] at hrun
  obtain ⟨h₁, hput, hrun⟩ := ok_of_bind hrun
  obtain ⟨hlen, hval⟩ := put_val hput
  rw [← he] at hval
  have hqlt : q < h₁.entries.length := by omega
  have hqval : h₁.val q = h.val q := by rw [hval, Function.update_of_ne (by omega)]
  -- the vector with the parent copied into the hole
  have hiff : h₁.Ordered ↔ h.val (parent pos) ≤ h.val q ∧ Below (h.val q) h.val h.entries.length pos := by
    rw [Heap.Ordered, hlen, hval, hexc.ordered_iff hlt]
    exact and_congr_left fun _ => ⟨fun hle => hle hpos, fun hle _ => hle⟩
  rw [← hiff]
  constructor
  · intro ho
    rw [hiff]
    obtain ⟨hlen', hbehind⟩ := heapUpAux_behind hqlt hq.2 hrun
    have hhole : h'.val pos = h.val q := by rw [hbehind pos (by omega), hval, Function.update_self]
    constructor
    · rcases Nat.lt_or_eq_of_le hq.1 with hqp | hqp
      · have hle := ho pos hpos (by omega)
        rwa [hhole, hbehind _ hqp, hval, Function.update_of_ne hup.ne] at hle
      · rw [hqp]
    · intro c hc hcn hcparent
      have hcpos : pos < c := by
        unfold parent at hcparent
        omega
      have hle := ho c hc (by omega)
      rwa [hcparent, hhole, hbehind c (by omega), hval, Function.update_of_ne hcpos.ne'] at hle
  · intro ho
    refine heapUpAux_ordered hqlt hq.2 (HeapOrder.Ordered.except ho hqlt) (HeapOrder.Ordered.below ho ?_) hrun
    rw [hqval, ← hnode]
    exact hsmall.le

theorem Heap.le_val_iff {h : Heap} {i x : Nat} :
    (i < h.entries.length → x ≤ h.val i) ↔ ∀ e, h.entries[i]? = some e → x ≤ e.val := by
  constructor
  · intro hle e he
    rw [← Heap.val_of_getElem? he]
    exact hle (List.getElem?_eq_some_iff.mp he).1
  · intro hle hi
    rw [Heap.val_of_getElem? (List.getElem?_eq_getElem hi)]
    exact hle _ (List.getElem?_eq_getElem hi)

theorem Heap.below_val_iff {h : Heap} {x pos : Nat} : Below x h.val h.entries.length pos ↔
    (∀ e, h.entries[left pos]? = some e → x ≤ e.val) ∧ ∀ e, h.entries[right pos]? = some e → x ≤ e.val := by
  rw [below_iff, Heap.le_val_iff, Heap.le_val_iff]

theorem eq_minVal_iff {h : Heap} {node : HeapNode} {pos : Nat} (hlim : pos + 1 < 2 ^ 63) :
    node.val = minVal h node pos ↔ Below node.val h.val h.entries.length pos := by
  rw [Heap.below_val_iff, minVal, heapLeft_eq hlim, heapRight_eq hlim, left, right]
  cases h.entries[2 * pos + 1]? with
  | none =>
    cases h.entries[2 * pos + 2]? with
    | none => simp
    | some r => simp
  | some l =>
    cases h.entries[2 * pos + 2]? with
    | none => simp
    | some r =>
      simp only [Option.some.injEq, forall_eq']
      omega

/-- One round of the sift down: the entry stays, or the left one moves up. -/
theorem heapDownAux_step {fuel : Nat} {h h' : Heap} {node : HeapNode} {pos : Nat} (hlt : pos < h.entries.length)
    (hsize : h.entries.length < 2 ^ 63) (hrun : heapDownAux (fuel + 1) h node pos = .ok h') :
    (Below node.val h.val h.entries.length pos ∧ h.put pos node = .ok h') ∨
      (¬Below node.val h.val h.entries.length pos ∧ ∃ e h₁, h.get (left pos) = .ok e ∧ h.put pos e = .ok h₁ ∧
        heapDownAux fuel h₁ node (left pos) = .ok h') := by
  have hlim : pos + 1 < 2 ^ 63 := by omega
  rw [heapDownAux] at hrun
  split at hrun
  · next hgo =>
    rw [nextPos_eq, heapLeft_eq hlim, ← left] at hrun
    obtain ⟨e, hget, hrun⟩ := ok_of_bind hrun
    obtain ⟨h₁, hput, hrun⟩ := ok_of_bind hrun
    exact .inr ⟨fun hbelow => hgo.2 ((eq_minVal_iff hlim).mpr hbelow), e, h₁, hget, hput, hrun⟩
  · next hstop =>
    refine .inl ⟨(eq_minVal_iff hlim).mp ?_, hrun⟩
    by_contra hne
    exact hstop ⟨hlt, hne⟩

/-- Downwards nothing changes in front of the position, nor behind it up to its left child. -/
theorem heapDownAux_beside {fuel : Nat} {h h' : Heap} {node : HeapNode} {pos : Nat} (hlt : pos < h.entries.length)
    (hsize : h.entries.length < 2 ^ 63) (hrun : heapDownAux fuel h node pos = .ok h') :
    h'.entries.length = h.entries.length ∧ ∀ j, j ≠ pos → j < left pos → h'.val j = h.val j := by
  induction fuel generalizing h pos with
  | zero => cases hrun
  | succ fuel ih =>
    rcases heapDownAux_step hlt hsize hrun with ⟨-, hput⟩ | ⟨-, e, h₁, hget, hput, hrun⟩
    · obtain ⟨hlen, hval⟩ := put_val hput
      exact ⟨hlen, fun j hj _ => by rw [hval, Function.update_of_ne hj]⟩
    · have hleft := (get_val hget).1
      obtain ⟨hlen, hval⟩ := put_val hput
      obtain ⟨hlen', hbeside⟩ := ih (hlen ▸ hleft) (hlen ▸ hsize) hrun
      refine ⟨hlen'.trans hlen, fun j hj hjl => ?_⟩
      rw [hbeside j hjl.ne (by unfold left at hjl ⊢; omega), hval, Function.update_of_ne hj]

/-- The sift down. -/
theorem heapDownAux_ordered_iff {fuel : Nat} {h h' : Heap} {node : HeapNode} {pos : Nat} (hlt : pos < h.entries.length)
    (hsize : h.entries.length < 2 ^ 63) (hexc : Except h.val h.entries.length pos)
    (hrun : heapDownAux fuel h node pos = .ok h') :
    h'.Ordered ↔ ((0 < pos → h.val (parent pos) ≤ node.val) ∨ ¬Below node.val h.val h.entries.length pos) ∧
      SpineOk h.val h.entries.length pos node.val := by
  induction fuel generalizing h pos with
  | zero => cases hrun
  | succ fuel ih =>
    rcases heapDownAux_step hlt hsize hrun with ⟨hbelow, hput⟩ | ⟨hnot, e, h₁, hget, hput, hrun⟩
    · obtain ⟨hlen, hval⟩ := put_val hput
      rw [Heap.Ordered, hlen, hval, hexc.ordered_iff hlt]
      have hspine := hexc.spineOk hbelow
      simp only [hbelow, hspine, and_true, not_true, or_false]
    · obtain ⟨hleft, he⟩ := get_val hget
      obtain ⟨hlen, hval⟩ := put_val hput
      rw [← he] at hval
      have hne : left pos ≠ pos ∧ right pos ≠ pos ∧ right pos ≠ left pos ∧ right pos < left (left pos) ∧
          pos < left pos ∧ pos < left (left pos) ∧ parent (left pos) = pos ∧ parent (right pos) = pos ∧ 0 < right pos := by
        unfold left right parent
        omega
      obtain ⟨hlp, hrp, hrl, hrll, hpl, hpll, hplp, hprp, hr0⟩ := hne
      have hhole : h₁.val pos = h.val (left pos) := by rw [hval, Function.update_self]
      have hleft₁ : left pos < h₁.entries.length := hlen ▸ hleft
      rw [spineOk_iff]
      by_cases hle : right pos < h.entries.length → h.val (left pos) ≤ h.val (right pos)
      · have ho : h₁.Ordered := by
          rw [Heap.Ordered, hlen, hval]
          exact (hexc.down_iff hlt hleft).mpr hle
        have hsmall : h₁.val (parent (left pos)) ≤ node.val := by
          rw [hplp, hhole]
          by_contra hgt
          refine hnot (below_iff.mpr ⟨fun _ => (not_le.mp hgt).le, fun hr => ?_⟩)
          exact (not_le.mp hgt).le.trans (hle hr)
        have hspine : SpineOk h₁.val h.entries.length (left pos) node.val ↔
            SpineOk h.val h.entries.length (left pos) node.val := by
          refine SpineOk.congr fun i hi => ?_
          rw [hval, Function.update_of_ne (hpl.trans hi).ne']
        rw [ih hleft₁ (hlen ▸ hsize) (HeapOrder.Ordered.except ho hleft₁) hrun, hlen, hspine]
        simp only [hsmall, hnot, implies_true, true_or, not_false_eq_true, or_true, true_and]
        exact ⟨fun htail => ⟨fun hr _ => hle hr, htail⟩, fun hboth => hboth.2⟩
      · -- the smaller right child ends up below the left one
        rw [Classical.not_imp, not_le] at hle
        obtain ⟨hr, hgt⟩ := hle
        obtain ⟨hlen', hbeside⟩ := heapDownAux_beside hleft₁ (hlen ▸ hsize) hrun
        have hleftOut : ¬h'.Ordered := by
          intro ho
          have hroot := ho (right pos) hr0 (by omega)
          rw [hprp, hbeside pos hlp.symm hpll, hhole, hbeside _ hrl hrll, hval, Function.update_of_ne hrp] at hroot
          exact absurd hgt hroot.not_gt
        have hsmall : h.val (right pos) < node.val := by
          by_contra hge
          refine hnot (below_iff.mpr ⟨fun _ => (not_lt.mp hge).trans hgt.le, fun _ => not_lt.mp hge⟩)
        refine iff_of_false hleftOut ?_
        rintro ⟨-, hhead, -⟩
        exact absurd hgt (hhead hr hsmall).not_gt

/-! ### Totality

That a sift returns and permutes the entries does not need distinct references, only valid ones. -/

/-- Every entry refers to a field that is alive. -/
def Heap.Live (h : Heap) : Prop := ∀ e ∈ h.entries, (h.refs.read e.posRef).isSome

theorem put_total {h : Heap} {pos : Nat} {node : HeapNode} (hlt : pos < h.entries.length) (hlive : h.Live)
    (hnode : (h.refs.read node.posRef).isSome) :
    ∃ h', h.put pos node = .ok h' ∧ h'.entries = h.entries.set pos node ∧ h'.Live ∧ h.SameLive h' := by
  have hsame : ∀ p, ((h.refs.set node.posRef pos).read p).isSome = (h.refs.read p).isSome :=
    fun p => Mem.isSome_read_set hnode pos p
  refine ⟨⟨h.entries.set pos node, h.refs.set node.posRef pos⟩, by rw [Heap.put, if_pos hlt, if_pos hnode], rfl,
    fun e he => ?_, fun p => hsame p⟩
  rw [hsame]
  rcases List.mem_or_eq_of_mem_set he with hold | rfl
  · exact hlive e hold
  · exact hnode

theorem heapUpAux_total {fuel : Nat} {h : Heap} {node : HeapNode} {pos : Nat} (hlt : pos < h.entries.length)
    (hsize : h.entries.length < 2 ^ 63) (hfits : 0 < pos → ParentFits pos) (hlive : h.Live)
    (hnode : (h.refs.read node.posRef).isSome) (hfuel : pos < fuel) :
    ∃ h', heapUpAux fuel h node pos = .ok h' ∧ h'.entries.Perm (h.entries.set pos node) := by
  induction fuel generalizing h pos with
  | zero => omega
  | succ fuel ih =>
    obtain ⟨hf, hput, hentries, -, -⟩ := put_total hlt hlive hnode
    have hfill : ∃ h', h.put pos node = .ok h' ∧ h'.entries.Perm (h.entries.set pos node) :=
      ⟨hf, hput, List.Perm.of_eq hentries⟩
    rw [heapUpAux]
    by_cases hpos : pos > 0
    · have hq : heapParent pos < pos ∧ heapParent pos < 2 ^ 31 := by
        have hfitted := hfits hpos
        rw [heapParent_of_fits hpos (by omega) hfitted]
        unfold ParentFits at hfitted
        omega
      have hget : h.entries[heapParent pos]? = some (h.entries.get ⟨heapParent pos, by omega⟩) := by simp
      generalize h.entries.get ⟨heapParent pos, by omega⟩ = e at hget
      simp only [if_pos hpos, Heap.get, hget, bind, Except.bind]
      by_cases hle : node.val ≤ e.val
      · obtain ⟨h₁, hput₁, hentries₁, hlive₁, hsame⟩ := put_total hlt hlive (hlive e (List.mem_of_getElem? hget))
        have hlen : h₁.entries.length = h.entries.length := by rw [hentries₁, List.length_set]
        obtain ⟨h', hrun, hperm⟩ := @ih h₁ (heapParent pos) (by omega) (by omega)
          (fun _ => by unfold ParentFits; omega) hlive₁ (by rw [hsame]; exact hnode) (by omega)
        simp only [if_pos hle, hput₁]
        refine ⟨h', hrun, hperm.trans ?_⟩
        rw [hentries₁]
        exact hole_perm hlt hq.1.ne hget
      · simp only [if_neg hle]
        exact hfill
    · rw [if_neg hpos]
      exact hfill

theorem heapDownAux_total {fuel : Nat} {h : Heap} {node : HeapNode} {pos : Nat} (hlt : pos < h.entries.length)
    (hsize : h.entries.length < 2 ^ 63) (hlive : h.Live) (hnode : (h.refs.read node.posRef).isSome)
    (hfuel : h.entries.length < fuel + pos) :
    ∃ h', heapDownAux fuel h node pos = .ok h' ∧ h'.entries.Perm (h.entries.set pos node) := by
  induction fuel generalizing h pos with
  | zero => omega
  | succ fuel ih =>
    rw [heapDownAux]
    by_cases hmin : node.val ≠ minVal h node pos
    · have hlim : pos + 1 < 2 ^ 63 := by omega
      have hleft := nextPos_lt hlim hmin
      have hget : h.entries[2 * pos + 1]? = some (h.entries.get ⟨2 * pos + 1, hleft⟩) := by simp
      generalize h.entries.get ⟨2 * pos + 1, hleft⟩ = e at hget
      obtain ⟨h₁, hput₁, hentries₁, hlive₁, hsame⟩ := put_total hlt hlive (hlive e (List.mem_of_getElem? hget))
      have hlen : h₁.entries.length = h.entries.length := by rw [hentries₁, List.length_set]
      obtain ⟨h', hrun, hperm⟩ := @ih h₁ (2 * pos + 1) (by omega) (by omega) hlive₁
        (by rw [hsame]; exact hnode) (by omega)
      rw [if_pos ⟨hlt, hmin⟩]
      simp only [nextPos_eq, heapLeft_eq hlim, Heap.get, hget, bind, Except.bind, hput₁]
      refine ⟨h', hrun, hperm.trans ?_⟩
      rw [hentries₁]
      exact hole_perm hlt (by omega) hget
    · obtain ⟨hf, hput, hentries, -, -⟩ := put_total hlt hlive hnode
      rw [if_neg fun hboth => hmin hboth.2]
      exact ⟨hf, hput, List.Perm.of_eq hentries⟩

theorem heapFix_total {h : Heap} {pos : Nat} (hlt : pos < h.entries.length) (hsize : h.entries.length < 2 ^ 63)
    (hfits : 0 < pos → ParentFits pos) (hlive : h.Live) : ∃ h', heapFix h pos = .ok h' ∧ h'.entries.Perm h.entries := by
  have hget : h.entries[pos]? = some (h.entries.get ⟨pos, hlt⟩) := by simp
  have hself : h.entries.set pos (h.entries.get ⟨pos, hlt⟩) = h.entries := by simp
  generalize h.entries.get ⟨pos, hlt⟩ = node at hget hself
  have hnode := hlive node (List.mem_of_getElem? hget)
  obtain ⟨hu, hup, hpu⟩ := heapUpAux_total hlt hsize hfits hlive hnode (Nat.lt_succ_self pos)
  obtain ⟨hd, hdown, hpd⟩ := heapDownAux_total hlt hsize hlive hnode
    (show h.entries.length < (h.entries.length + 1) + pos by omega)
  rw [hself] at hpu hpd
  have hup' : heapUp h pos = .ok hu := by
    rw [heapUp, Heap.get, hget]
    exact hup
  have hdown' : heapDown h pos = .ok hd := by
    rw [heapDown, Heap.get, hget]
    exact hdown
  rw [heapFix, Heap.get, hget]
  simp only [bind, Except.bind]
  by_cases hpos : pos > 0
  · have hq : heapParent pos < h.entries.length := by
      rw [heapParent_of_fits hpos (by omega) (hfits hpos)]
      omega
    simp only [if_pos hpos, Heap.get, List.getElem?_eq_getElem hq, hup', if_pos hlt, hdown']
    split
    · exact ⟨hu, rfl, hpu⟩
    · exact ⟨hd, rfl, hpd⟩
  · rw [if_neg hpos, if_pos hlt]
    exact ⟨hd, hdown', hpd⟩

/-! ### Which repairs restore the order -/

/-- The sift goes up. -/
def Heap.GoesUp (h : Heap) (pos : Nat) : Prop := 0 < pos ∧ h.val pos < h.val (heapParent pos)

theorem heapFix_cases {h h' : Heap} {pos : Nat} (hlt : pos < h.entries.length) (hrun : heapFix h pos = .ok h') :
    (h.GoesUp pos ∧ heapUp h pos = .ok h') ∨ (¬h.GoesUp pos ∧ heapDown h pos = .ok h') := by
  obtain ⟨node, hnode, hrun⟩ := ok_of_bind hrun
  have hval := (get_val hnode).2
  unfold Heap.GoesUp
  split at hrun
  · next hpos =>
    obtain ⟨e, hparent, hrun⟩ := ok_of_bind hrun
    rw [hval, (get_val hparent).2]
    split at hrun
    · next hgt => exact .inl ⟨⟨hpos, hgt⟩, hrun⟩
    · next hle =>
      exact .inr ⟨fun hup => hle hup.2, hrun⟩
  · next hzero =>
    exact .inr ⟨fun hup => hzero hup.1, hrun⟩

/-- Whether `heap_fix` restores the order of a vector that is in order away from the position. -/
def Heap.Repairable (h : Heap) (pos : Nat) : Prop :=
  (0 < pos → ParentFits pos) ∧
    (h.GoesUp pos → h.val (parent pos) ≤ h.val (heapParent pos) ∧
      Below (h.val (heapParent pos)) h.val h.entries.length pos) ∧
    (¬h.GoesUp pos → ((0 < pos → h.val (parent pos) ≤ h.val pos) ∨ ¬Below (h.val pos) h.val h.entries.length pos) ∧
      SpineOk h.val h.entries.length pos (h.val pos))

theorem heapFix_ordered_iff {h : Heap} {pos : Nat} (hlt : pos < h.entries.length) (hsize : h.entries.length < 2 ^ 63)
    (hlive : h.Live) (hexc : Except h.val h.entries.length pos) :
    (∃ h', heapFix h pos = .ok h' ∧ h'.entries.Perm h.entries ∧ h'.Ordered) ↔ h.Repairable pos := by
  have hboth : ∀ h', heapFix h pos = .ok h' → (0 < pos → ParentFits pos) → (h'.Ordered ↔ h.Repairable pos) := by
    intro h' hrun hfits
    rcases heapFix_cases hlt hrun with ⟨hgo, hup⟩ | ⟨hgo, hdown⟩
    · rw [heapUp_ordered_iff hlt hgo.1 (hfits hgo.1) hsize hexc hgo.2 hup]
      exact ⟨fun hle => ⟨hfits, fun _ => hle, fun hnot => absurd hgo hnot⟩, fun hr => hr.2.1 hgo⟩
    · obtain ⟨node, hget, hdown⟩ := ok_of_bind hdown
      rw [heapDownAux_ordered_iff hlt hsize hexc hdown, ← (get_val hget).2]
      exact ⟨fun hok => ⟨hfits, fun hup => absurd hup hgo, fun _ => hok⟩, fun hr => hr.2.2 hgo⟩
  constructor
  · rintro ⟨h', hrun, -, ho⟩
    have hfits : 0 < pos → ParentFits pos := by
      intro hpos
      by_contra hnot
      rw [heapFix_not_fits hlt hsize hpos hnot] at hrun
      cases hrun
    exact (hboth h' hrun hfits).mp ho
  · intro hr
    obtain ⟨h', hrun, hperm⟩ := heapFix_total hlt hsize hr.1 hlive
    exact ⟨h', hrun, hperm, (hboth h' hrun hr.1).mpr hr⟩

/-- Where `heap_parent` is exact, only the way down can lose the order. -/
theorem Heap.repairable_iff {h : Heap} {pos : Nat} (hexact : pos < heapLimit) (hexc : Except h.val h.entries.length pos) :
    h.Repairable pos ↔ SpineOk h.val h.entries.length pos (h.val pos) := by
  have hparent : 0 < pos → heapParent pos = parent pos := fun hpos => heapParent_eq hpos hexact
  constructor
  · rintro ⟨-, hup, hdown⟩
    by_cases hgo : h.GoesUp pos
    · have hbelow := (hup hgo).2
      exact hexc.spineOk fun c hc hcn hcp => hgo.2.le.trans (hbelow c hc hcn hcp)
    · exact (hdown hgo).2
  · intro hspine
    refine ⟨fun _ => parentFits_of_lt hexact, fun hgo => ?_, fun hgo => ⟨.inl fun hpos => ?_, hspine⟩⟩
    · rw [hparent hgo.1]
      exact ⟨le_rfl, hexc.across hgo.1⟩
    · rw [← hparent hpos]
      by_contra hgt
      exact hgo ⟨hpos, not_le.mp hgt⟩

end CustomRedis
