import CustomRedis.Model.Hashmap
import CustomRedis.Lib.Run
import CustomRedis.Lib.KeyedList
import Mathlib.Data.List.TakeWhile
import Mathlib.Tactic

/-!
# The hash map is a finite map

Two nodes are the same entry for the map when `ht_lookup` cannot tell them apart: they have the same
hash code, and their keys are equal as C strings. `HNode.ident` is that pair. The invariant `HMap.WF`
says how the two tables are laid out and that no two nodes share an identity; under it the lookup
finds the node at an identity, the deletion removes it, and the insertion adds a node while the
migration only rearranges the others, up to what `ht_unlink` does to the nodes it moves.

All slots of the older table below `migrate_pos` are empty, so the migration always takes the first
node of the older table in slot order. The nodes an insertion moves are therefore a prefix of that
list, `hmMoves`.
-/

namespace CustomRedis

open KeyedList
open Run (ok_bind ok_of_bind)

variable {α : Type}

/-- What the lookup compares. -/
def HNode.ident (n : HNode α) : UInt64 × Bytes := (n.hcode, cstr n.key)

/-- The probe for a key. -/
def Probe.ofKey (hcode : UInt64) (key : Bytes) : Probe := ⟨hcode, some key⟩

theorem Probe.mk_some (hcode : UInt64) (key : Bytes) : Probe.mk hcode (some key) = .ofKey hcode key := rfl

/-- The node at an identity. -/
def HMap.find (m : HMap α) (id : UInt64 × Bytes) : Option (HNode α) := at? HNode.ident m.nodes id

/-! ### The layout of a table -/

structure HTab.WF (t : HTab α) : Prop where
  slots : t.tab = [] ∧ t.mask = 0 ∨ ∃ k, t.tab.length = 2 ^ k ∧ t.mask + 1 = 2 ^ k
  placed : ∀ i chain, t.tab[i]? = some chain → ∀ n ∈ chain, t.slotOf n.hcode = i
  size_eq : t.size = t.nodes.length

theorem HTab.WF.null : (HTab.mk [] 0 0 : HTab α).WF :=
  ⟨.inl ⟨rfl, rfl⟩, by simp, rfl⟩

theorem HTab.WF.length_eq {t : HTab α} (h : t.WF) (hne : ¬t.IsNull) : t.tab.length = t.mask + 1 := by
  rcases h.slots with ⟨hnull, -⟩ | ⟨k, hlen, hmask⟩
  · exact absurd hnull hne
  · omega

theorem HTab.WF.slotOf_lt {t : HTab α} (h : t.WF) (hne : ¬t.IsNull) (hcode : UInt64) :
    t.slotOf hcode < t.tab.length := by
  rw [h.length_eq hne]
  exact Nat.lt_succ_of_le Nat.and_le_right

/-- A slot that points to a node: the node stands at the slot's depth in the chain at its position. -/
def HTab.Points (t : HTab α) (slot : Slot) (n : HNode α) : Prop :=
  ∃ before chain₁ chain₂ after, t.tab = before ++ (chain₁ ++ n :: chain₂) :: after ∧
    before.length = slot.pos ∧ chain₁.length = slot.depth

theorem modify_at_length {β : Type} (before after : List β) (x : β) (f : β → β) :
    (before ++ x :: after).modify before.length f = before ++ f x :: after := by
  induction before with
  | nil => rfl
  | cons b before ih => simpa using ih

theorem exists_split_of_lt {β : Type} {l : List β} {i : Nat} (h : i < l.length) :
    ∃ before x after, l = before ++ x :: after ∧ before.length = i :=
  ⟨l.take i, l[i], l.drop (i + 1), by rw [List.getElem_cons_drop, List.take_append_drop], by simp; omega⟩

theorem HTab.Points.deref {t : HTab α} {slot : Slot} {n : HNode α} (h : t.Points slot n) :
    t.deref slot = some n := by
  obtain ⟨before, chain₁, chain₂, after, htab, hpos, hdepth⟩ := h
  rw [HTab.deref, htab, ← hpos, ← hdepth]
  simp

/-- Where the node stands among all nodes, and what removing or rewriting it leaves. -/
theorem HTab.Points.nodes {t : HTab α} {slot : Slot} {n : HNode α} (h : t.Points slot n) :
    ∃ l₁ l₂, t.nodes = l₁ ++ n :: l₂ ∧
      (t.eraseAt slot).nodes = l₁ ++ l₂ ∧
      ∀ f : α → α, (t.modifyAt slot f).nodes = l₁ ++ { n with val := f n.val } :: l₂ := by
  obtain ⟨before, chain₁, chain₂, after, htab, hpos, hdepth⟩ := h
  refine ⟨before.flatten ++ chain₁, chain₂ ++ after.flatten, ?_, ?_, fun f => ?_⟩
  · simp [HTab.nodes, htab]
  · rw [HTab.nodes, HTab.eraseAt, htab, ← hpos, modify_at_length, ← hdepth]
    simp [List.eraseIdx_append_of_length_le]
  · rw [HTab.nodes, HTab.modifyAt, htab, ← hpos, modify_at_length, ← hdepth, modify_at_length]
    simp

theorem HTab.Points.mem {t : HTab α} {slot : Slot} {n : HNode α} (h : t.Points slot n) : n ∈ t.nodes := by
  obtain ⟨l₁, l₂, hnodes, -, -⟩ := h.nodes
  simp [hnodes]

/-- Keeping the layout while the chain at one position loses nodes or has their values rewritten. -/
theorem HTab.WF.modify {t : HTab α} (h : t.WF) (pos size : Nat) (f : List (HNode α) → List (HNode α))
    (hf : ∀ chain, t.tab[pos]? = some chain → ∀ n ∈ f chain, t.slotOf n.hcode = pos)
    (hsize : size = (t.tab.modify pos f).flatten.length) :
    ({ t with tab := t.tab.modify pos f, size := size } : HTab α).WF := by
  refine ⟨?_, ?_, hsize⟩
  · rcases h.slots with ⟨hnull, hmask⟩ | hpow
    · exact .inl ⟨by simp [hnull], hmask⟩
    · exact .inr (by simpa using hpow)
  · intro i chain hchain n hn
    rw [List.getElem?_modify] at hchain
    by_cases hi : pos = i
    · subst hi
      cases hold : t.tab[pos]? with
      | none => simp [hold] at hchain
      | some old =>
        simp only [hold, if_true, Option.map_eq_map, Option.map_some, Option.some.injEq] at hchain
        exact hf old hold n (hchain ▸ hn)
    · simp only [hi, if_false, id_map'] at hchain
      exact h.placed i chain hchain n hn

/-! ### Lookups -/

theorem strEq_iff {a b : Bytes} : strEq a b = true ↔ cstr a = cstr b := by
  simp [strEq]

theorem cstr_of_noNul {key : Bytes} (h : 0 ∉ key) : cstr key = key := by
  rw [cstr, List.takeWhile_eq_self_iff]
  intro b hb
  simp only [ne_eq, decide_not, Bool.not_eq_eq_eq_not, Bool.not_true, decide_eq_false_iff_not]
  exact fun h0 => h (h0 ▸ hb)

/-- The identity of the node of a key. -/
def keyId (key : Bytes) : UInt64 × Bytes := (strHash key, cstr key)

theorem keyId_inj {key key' : Bytes} (h : 0 ∉ key) (h' : 0 ∉ key') : keyId key = keyId key' ↔ key = key' := by
  constructor
  · intro heq
    have hcstr : cstr key = cstr key' := congrArg Prod.snd heq
    rwa [cstr_of_noNul h, cstr_of_noNul h'] at hcstr
  · exact congrArg keyId

theorem chainLookup_eq (hcode : UInt64) (key : Bytes) (chain : List (HNode α)) (depth : Nat) :
    chainLookup (.ofKey hcode key) chain depth =
      .ok ((chain.findIdx? fun n => n.ident = (hcode, cstr key)).map (depth + ·)) := by
  induction chain generalizing depth with
  | nil => rfl
  | cons n chain ih =>
    rw [chainLookup, List.findIdx?_cons]
    by_cases hcode' : n.hcode = hcode
    · by_cases hkey : cstr key = cstr n.key
      · simp [Probe.ofKey, HNode.ident, hcode', strEq_iff, hkey]
      · rw [ih]
        simp [Probe.ofKey, HNode.ident, hcode', strEq_iff, hkey, Ne.symm hkey, Function.comp_def]
        congr 2
        funext i
        omega
    · rw [ih]
      simp [Probe.ofKey, HNode.ident, hcode', Function.comp_def]
      congr 2
      funext i
      omega

theorem htLookup_findIdx {t : HTab α} (hnull : ¬t.IsNull) (hcode : UInt64) (key : Bytes) :
    htLookup t (.ofKey hcode key) =
      .ok (((t.tab.getD (t.slotOf hcode) []).findIdx? fun n => n.ident = (hcode, cstr key)).map (Slot.mk (t.slotOf hcode))) := by
  rw [htLookup, if_neg hnull]
  change (do
    let depth ← chainLookup (.ofKey hcode key) (t.tab.getD (t.slotOf hcode) []) 0
    Except.ok (depth.map (Slot.mk (t.slotOf hcode)))) = _
  rw [chainLookup_eq]
  simp only [Nat.zero_add, Option.map_id']
  rfl

/-- The lookup in a table finds a node exactly when one has the identity. -/
theorem htLookup_cases {t : HTab α} (h : t.WF) (hcode : UInt64) (key : Bytes) :
    (htLookup t (.ofKey hcode key) = .ok none ∧ ∀ n ∈ t.nodes, n.ident ≠ (hcode, cstr key)) ∨
      ∃ slot n, htLookup t (.ofKey hcode key) = .ok (some slot) ∧ t.Points slot n ∧
        n.ident = (hcode, cstr key) := by
  by_cases hnull : t.IsNull
  · refine .inl ⟨by rw [htLookup, if_pos hnull], ?_⟩
    intro n hn
    rw [HTab.nodes, hnull] at hn
    simp at hn
  · have hlt := h.slotOf_lt hnull hcode
    have hget : t.tab[t.slotOf hcode]? = some (t.tab.getD (t.slotOf hcode) []) := by
      simp [List.getD_eq_getElem?_getD, List.getElem?_eq_getElem hlt]
    have hlookup := htLookup_findIdx hnull hcode key
    set chain := t.tab.getD (t.slotOf hcode) [] with hchain
    cases hfind : chain.findIdx? fun n => n.ident = (hcode, cstr key) with
    | none =>
      refine .inl ⟨by rw [hlookup, hfind]; rfl, ?_⟩
      intro n hn hid
      obtain ⟨c, hc, hnc⟩ := List.mem_flatten.mp hn
      obtain ⟨i, hi, hci⟩ := List.mem_iff_getElem.mp hc
      have hplace := h.placed i c (by rw [List.getElem?_eq_getElem hi, hci]) n hnc
      rw [show n.hcode = hcode from congrArg Prod.fst hid] at hplace
      subst hplace
      rw [List.getElem?_eq_getElem hi, hci] at hget
      have hmem : n ∈ chain := Option.some.inj hget ▸ hnc
      simpa [hid] using List.findIdx?_eq_none_iff.mp hfind n hmem
    | some d =>
      obtain ⟨hd, hident, -⟩ := List.findIdx?_eq_some_iff_getElem.mp hfind
      refine .inr ⟨⟨t.slotOf hcode, d⟩, chain[d], by rw [hlookup, hfind]; rfl, ?_, by simpa using hident⟩
      refine ⟨t.tab.take (t.slotOf hcode), chain.take d, chain.drop (d + 1), t.tab.drop (t.slotOf hcode + 1),
        ?_, by simp; omega, by simp; omega⟩
      have hsplit : chain.take d ++ chain[d] :: chain.drop (d + 1) = chain := by
        rw [List.getElem_cons_drop, List.take_append_drop]
      rw [hsplit]
      rw [List.getElem?_eq_getElem hlt] at hget
      rw [← Option.some.inj hget, List.getElem_cons_drop, List.take_append_drop]

/-! ### The layout of the map -/

structure HMap.Shape (m : HMap α) : Prop where
  older : m.older.WF
  newer : m.newer.WF
  newer_of_older : ¬m.older.IsNull → ¬m.newer.IsNull
  below : ∀ i < m.migratePos, m.older.tab.getD i [] = []

structure HMap.WF (m : HMap α) : Prop extends m.Shape where
  distinct : Distinct HNode.ident m.nodes

theorem HMap.WF.empty : (HMap.mk (HTab.mk [] 0 0) (HTab.mk [] 0 0) 0 : HMap α).WF where
  older := .null
  newer := .null
  newer_of_older h := absurd rfl h
  below := by simp
  distinct := by simp [HMap.nodes, HTab.nodes]

theorem HMap.WF.find_eq_some {m : HMap α} (h : m.WF) {id : UInt64 × Bytes} {n : HNode α} :
    m.find id = some n ↔ n ∈ m.nodes ∧ n.ident = id :=
  h.distinct.at?_eq_some

theorem HMap.find_eq_none {m : HMap α} {id : UInt64 × Bytes} :
    m.find id = none ↔ id ∉ m.nodes.map HNode.ident :=
  at?_eq_none

/-! ### Deleting and rewriting a node -/

theorem Distinct.ident_ne_of_split {l₁ l₂ : List (HNode α)} {n : HNode α}
    (h : Distinct HNode.ident (l₁ ++ n :: l₂)) : ∀ x ∈ l₁ ++ l₂, x.ident ≠ n.ident := by
  intro x hx hid
  have hd := h.perm List.perm_middle
  rw [distinct_cons] at hd
  exact hd.1 (hid ▸ List.mem_map_of_mem hx)

theorem filter_ident_ne_of_split {l₁ l₂ : List (HNode α)} {n : HNode α}
    (h : Distinct HNode.ident (l₁ ++ n :: l₂)) :
    (l₁ ++ n :: l₂).filter (fun x => x.ident ≠ n.ident) = l₁ ++ l₂ := by
  have hne := Distinct.ident_ne_of_split h
  rw [List.filter_append, List.filter_cons_of_neg (by simp), ← List.filter_append, List.filter_eq_self]
  intro x hx
  simpa using hne x hx

theorem map_ident_of_split {l₁ l₂ : List (HNode α)} {n : HNode α} (f : α → α)
    (h : Distinct HNode.ident (l₁ ++ n :: l₂)) :
    (l₁ ++ n :: l₂).map (fun x => if x.ident = n.ident then { x with val := f x.val } else x) =
      l₁ ++ { n with val := f n.val } :: l₂ := by
  have hne := Distinct.ident_ne_of_split h
  have hkeep : ∀ l : List (HNode α), (∀ x ∈ l, x ∈ l₁ ++ l₂) →
      l.map (fun x => if x.ident = n.ident then { x with val := f x.val } else x) = l := by
    intro l hl
    conv_rhs => rw [← List.map_id l]
    refine List.map_congr_left fun x hx => ?_
    rw [if_neg (hne x (hl x hx))]
    rfl
  rw [List.map_append, List.map_cons, hkeep l₁ (by simp +contextual), hkeep l₂ (by simp +contextual), if_pos rfl]

theorem HTab.WF.eraseAt {t : HTab α} (h : t.WF) {slot : Slot} {n : HNode α} (hp : t.Points slot n) :
    (t.eraseAt slot).WF := by
  refine h.modify slot.pos (t.size - 1) _ ?_ ?_
  · intro chain hchain x hx
    exact h.placed _ _ hchain x (List.mem_of_mem_eraseIdx hx)
  · obtain ⟨l₁, l₂, hnodes, herase, -⟩ := hp.nodes
    change _ = (t.eraseAt slot).nodes.length
    rw [herase, h.size_eq, hnodes]
    simp

theorem HTab.WF.modifyAt {t : HTab α} (h : t.WF) {slot : Slot} {n : HNode α} (hp : t.Points slot n)
    (f : α → α) : (t.modifyAt slot f).WF := by
  refine h.modify slot.pos t.size _ ?_ ?_
  · intro chain hchain x hx
    obtain ⟨i, hi⟩ := List.mem_iff_getElem?.mp hx
    rw [List.getElem?_modify] at hi
    cases hold : chain[i]? with
    | none => simp [hold] at hi
    | some y =>
      have hy := h.placed _ _ hchain y (List.mem_of_getElem? hold)
      simp only [hold, Option.map_eq_map, Option.map_some, Option.some.injEq] at hi
      split at hi <;> exact hi ▸ hy
  · obtain ⟨l₁, l₂, hnodes, -, hmod⟩ := hp.nodes
    change _ = (t.modifyAt slot f).nodes.length
    rw [hmod, h.size_eq, hnodes]
    simp

theorem htUnlink_eq [Teardown α] {t : HTab α} {slot : Slot} {n : HNode α} (hp : t.Points slot n) :
    htUnlink t slot = some (t.eraseAt slot, unlinked n, handedOver n) := by
  rw [htUnlink, hp.deref]

theorem getD_modify_nil {tab : List (List (HNode α))} {f : List (HNode α) → List (HNode α)} (hf : f [] = [])
    (pos : Nat) {i : Nat} (h : tab.getD i [] = []) : (tab.modify pos f).getD i [] = [] := by
  rw [List.getD_eq_getElem?_getD, List.getElem?_modify]
  rw [List.getD_eq_getElem?_getD] at h
  cases hi : tab[i]? with
  | none => simp
  | some chain =>
    have hchain : chain = [] := by simpa [hi] using h
    by_cases hpos : pos = i <;> simp [hpos, hchain, hf]

/-- Replacing one of the tables by one that has a chain rewritten. -/
theorem HMap.Shape.withNewer {m : HMap α} (h : m.Shape) {t : HTab α} (ht : t.WF) (hnull : t.IsNull ↔ m.newer.IsNull) :
    ({ m with newer := t } : HMap α).Shape :=
  ⟨h.older, ht, fun ho => (not_congr hnull).mpr (h.newer_of_older ho), h.below⟩

theorem HMap.Shape.withOlder {m : HMap α} (h : m.Shape) {t : HTab α} (ht : t.WF) (hnull : t.IsNull ↔ m.older.IsNull)
    (hbelow : ∀ i, m.older.tab.getD i [] = [] → t.tab.getD i [] = []) : ({ m with older := t } : HMap α).Shape :=
  ⟨ht, h.newer, fun ho => h.newer_of_older ((not_congr hnull).mp ho), fun i hi => hbelow i (h.below i hi)⟩

/-- Where the node of an identity is linked, for the operations that look in both tables. -/
inductive HMap.Linked (m : HMap α) (hcode : UInt64) (key : Bytes) : Prop
  | absent (older : htLookup m.older (.ofKey hcode key) = .ok none)
      (newer : htLookup m.newer (.ofKey hcode key) = .ok none) (find : m.find (hcode, cstr key) = none)
  | inOlder (slot : Slot) (n : HNode α) (older : htLookup m.older (.ofKey hcode key) = .ok (some slot))
      (points : m.older.Points slot n) (find : m.find (hcode, cstr key) = some n)
  | inNewer (slot : Slot) (n : HNode α) (older : htLookup m.older (.ofKey hcode key) = .ok none)
      (newer : htLookup m.newer (.ofKey hcode key) = .ok (some slot)) (points : m.newer.Points slot n)
      (find : m.find (hcode, cstr key) = some n)

theorem HMap.WF.linked {m : HMap α} (h : m.WF) (hcode : UInt64) (key : Bytes) : m.Linked hcode key := by
  rcases htLookup_cases h.older hcode key with ⟨ho, hno⟩ | ⟨slot, n, ho, hp, hid⟩
  · rcases htLookup_cases h.newer hcode key with ⟨hn, hnn⟩ | ⟨slot, n, hn, hp, hid⟩
    · refine .absent ho hn ?_
      rw [HMap.find_eq_none, HMap.nodes, List.map_append, List.mem_append]
      rintro (hmem | hmem)
      · obtain ⟨n, hmem, hid⟩ := List.mem_map.mp hmem
        exact hnn n hmem hid
      · obtain ⟨n, hmem, hid⟩ := List.mem_map.mp hmem
        exact hno n hmem hid
    · exact .inNewer slot n ho hn hp (h.find_eq_some.mpr ⟨List.mem_append_left _ hp.mem, hid⟩)
  · exact .inOlder slot n ho hp (h.find_eq_some.mpr ⟨List.mem_append_right _ hp.mem, hid⟩)

/-- `hm_lookup` returns the node at the identity of the probe. -/
theorem hmLookup_eq {m : HMap α} (h : m.WF) (hcode : UInt64) (key : Bytes) :
    hmLookup m (.ofKey hcode key) = .ok (m.find (hcode, cstr key)) := by
  cases h.linked hcode key with
  | absent ho hn hfind => simp only [hmLookup, ho, hn, hfind, bind, Except.bind]
  | inOlder slot n ho hp hfind => simp only [hmLookup, ho, hfind, bind, Except.bind, hp.deref]
  | inNewer slot n ho hn hp hfind => simp only [hmLookup, ho, hn, hfind, bind, Except.bind, hp.deref]

/-- `hm_delete` removes the node at the identity of the probe and keeps all others in place. -/
theorem hmDelete_spec [Teardown α] {m : HMap α} (h : m.WF) (hcode : UInt64) (key : Bytes) :
    (m.find (hcode, cstr key) = none ∧ hmDelete m (.ofKey hcode key) = .ok (m, false, [])) ∨
      ∃ n m', m.find (hcode, cstr key) = some n ∧
        hmDelete m (.ofKey hcode key) = .ok (m', true, handedOver n) ∧ m'.WF ∧
        m'.nodes = m.nodes.filter (fun x => x.ident ≠ (hcode, cstr key)) := by
  have hd := h.distinct
  cases h.linked hcode key with
  | absent ho hn hfind => exact .inl ⟨hfind, by simp only [hmDelete, ho, hn, bind, Except.bind]⟩
  | inOlder slot n ho hp hfind =>
    obtain ⟨l₁, l₂, hnodes, herase, -⟩ := hp.nodes
    have hall : m.nodes = (m.newer.nodes ++ l₁) ++ n :: l₂ := by simp [HMap.nodes, hnodes]
    have hnodes' : ({ m with older := m.older.eraseAt slot } : HMap α).nodes =
        m.nodes.filter (fun x => x.ident ≠ (hcode, cstr key)) := by
      rw [hall] at hd
      rw [HMap.nodes, herase, ← List.append_assoc, ← filter_ident_ne_of_split hd, hall,
        (h.find_eq_some.mp hfind).2]
    refine .inr ⟨n, { m with older := m.older.eraseAt slot }, hfind, ?_, ⟨?_, ?_⟩, hnodes'⟩
    · simp only [hmDelete, ho, htUnlink_eq hp, bind, Except.bind]
    · exact h.withOlder (h.older.eraseAt hp) (by simp [HTab.IsNull, HTab.eraseAt])
        fun i hi => getD_modify_nil rfl _ hi
    · rw [hnodes']
      exact hd.filter _
  | inNewer slot n ho hn hp hfind =>
    obtain ⟨l₁, l₂, hnodes, herase, -⟩ := hp.nodes
    have hall : m.nodes = l₁ ++ n :: (l₂ ++ m.older.nodes) := by simp [HMap.nodes, hnodes]
    have hnodes' : ({ m with newer := m.newer.eraseAt slot } : HMap α).nodes =
        m.nodes.filter (fun x => x.ident ≠ (hcode, cstr key)) := by
      rw [hall] at hd
      rw [HMap.nodes, herase, List.append_assoc, ← filter_ident_ne_of_split hd, hall,
        (h.find_eq_some.mp hfind).2]
    refine .inr ⟨n, { m with newer := m.newer.eraseAt slot }, hfind, ?_, ⟨?_, ?_⟩, hnodes'⟩
    · simp only [hmDelete, ho, hn, htUnlink_eq hp, bind, Except.bind]
    · exact h.withNewer (h.newer.eraseAt hp) (by simp [HTab.IsNull, HTab.eraseAt])
    · rw [hnodes']
      exact hd.filter _

/-- A write through the pointer of `hm_lookup` changes the value at one identity. -/
theorem hmModify_spec {m : HMap α} (h : m.WF) {hcode : UInt64} {key : Bytes} {n : HNode α}
    (hn : m.find (hcode, cstr key) = some n) (f : α → α) :
    ∃ m', hmModify m (.ofKey hcode key) f = .ok m' ∧ m'.WF ∧
      m'.nodes = m.nodes.map (fun x => if x.ident = (hcode, cstr key) then { x with val := f x.val } else x) := by
  have hd := h.distinct
  have hkeep : ∀ x : HNode α,
      (if x.ident = (hcode, cstr key) then { x with val := f x.val } else x).ident = x.ident := by
    intro x
    split <;> rfl
  have hid := (h.find_eq_some.mp hn).2
  cases h.linked hcode key with
  | absent ho hn' hfind => simp [hn] at hfind
  | inOlder slot n' ho hp hfind =>
    obtain rfl : n = n' := Option.some.inj (hn.symm.trans hfind)
    obtain ⟨l₁, l₂, hnodes, -, hmod⟩ := hp.nodes
    have hall : m.nodes = (m.newer.nodes ++ l₁) ++ n :: l₂ := by simp [HMap.nodes, hnodes]
    have hnodes' : ({ m with older := m.older.modifyAt slot f } : HMap α).nodes =
        m.nodes.map (fun x => if x.ident = (hcode, cstr key) then { x with val := f x.val } else x) := by
      rw [hall] at hd
      rw [HMap.nodes, hmod, ← List.append_assoc, ← map_ident_of_split f hd, hall, hid]
    refine ⟨{ m with older := m.older.modifyAt slot f }, ?_, ⟨?_, ?_⟩, hnodes'⟩
    · simp only [hmModify, ho, bind, Except.bind]
    · exact h.withOlder (h.older.modifyAt hp f) (by simp [HTab.IsNull, HTab.modifyAt])
        fun i hi => getD_modify_nil (by simp) _ hi
    · rw [hnodes']
      exact hd.map hkeep
  | inNewer slot n' ho hn' hp hfind =>
    obtain rfl : n = n' := Option.some.inj (hn.symm.trans hfind)
    obtain ⟨l₁, l₂, hnodes, -, hmod⟩ := hp.nodes
    have hall : m.nodes = l₁ ++ n :: (l₂ ++ m.older.nodes) := by simp [HMap.nodes, hnodes]
    have hnodes' : ({ m with newer := m.newer.modifyAt slot f } : HMap α).nodes =
        m.nodes.map (fun x => if x.ident = (hcode, cstr key) then { x with val := f x.val } else x) := by
      rw [hall] at hd
      rw [HMap.nodes, hmod, List.append_assoc, List.cons_append, ← map_ident_of_split f hd, hall, hid]
    refine ⟨{ m with newer := m.newer.modifyAt slot f }, ?_, ⟨?_, ?_⟩, hnodes'⟩
    · simp only [hmModify, ho, hn', bind, Except.bind]
    · exact h.withNewer (h.newer.modifyAt hp f) (by simp [HTab.IsNull, HTab.modifyAt])
    · rw [hnodes']
      exact hd.map hkeep

/-! ### Rewriting all values -/

theorem HTab.WF.mapVal {t : HTab α} (h : t.WF) (f : α → α) :
    ({ t with tab := t.tab.map (·.map fun n => { n with val := f n.val }) } : HTab α).WF := by
  refine ⟨?_, ?_, ?_⟩
  · simpa using h.slots
  · intro i chain hchain n hn
    rw [List.getElem?_map] at hchain
    cases hold : t.tab[i]? with
    | none => simp [hold] at hchain
    | some old =>
      rw [hold, Option.map_some, Option.some.injEq] at hchain
      subst hchain
      obtain ⟨x, hx, rfl⟩ := List.mem_map.mp hn
      exact h.placed i old hold x hx
  · rw [h.size_eq]
    simp [HTab.nodes, List.length_flatten, Function.comp_def]

theorem HMap.mapVal_nodes (m : HMap α) (f : α → α) :
    (m.mapVal f).nodes = m.nodes.map fun n => { n with val := f n.val } := by
  simp [HMap.nodes, HMap.mapVal, HTab.nodes, List.map_flatten]

theorem HMap.WF.mapVal {m : HMap α} (h : m.WF) (f : α → α) : (m.mapVal f).WF where
  older := h.older.mapVal f
  newer := h.newer.mapVal f
  newer_of_older := by simpa [HTab.IsNull, HMap.mapVal] using h.newer_of_older
  below i hi := by
    have hb := h.below i hi
    rw [List.getD_eq_getElem?_getD] at hb
    cases hi : m.older.tab[i]? with
    | none => simp [HMap.mapVal, List.getD_eq_getElem?_getD, hi]
    | some chain =>
      have hchain : chain = [] := by simpa [hi] using hb
      simp [HMap.mapVal, List.getD_eq_getElem?_getD, hi, hchain]
  distinct := by
    rw [HMap.mapVal_nodes]
    exact h.distinct.map (f := fun n => { n with val := f n.val }) fun _ => rfl

/-! ### The migration -/

theorem HTab.WF.insert {t : HTab α} (h : t.WF) (hne : ¬t.IsNull) (n : HNode α) :
    (htInsert t n).WF ∧ (htInsert t n).nodes.Perm (n :: t.nodes) := by
  have hlt := h.slotOf_lt hne n.hcode
  have hperm : (htInsert t n).nodes.Perm (n :: t.nodes) := by
    obtain ⟨before, chain, after, hsplit, hpos⟩ := exists_split_of_lt hlt
    rw [HTab.nodes, htInsert, HTab.nodes, hsplit, ← hpos, modify_at_length]
    simp only [List.flatten_append, List.flatten_cons, List.cons_append]
    exact List.perm_middle
  refine ⟨h.modify _ (t.size + 1) _ ?_ ?_, hperm⟩
  · intro chain hchain x hx
    rcases List.mem_cons.mp hx with rfl | hx
    · rfl
    · exact h.placed _ _ hchain x hx
  · have hlen := hperm.length_eq
    rw [List.length_cons, ← h.size_eq] at hlen
    exact hlen.symm

theorem flatten_of_below {tab : List (List (HNode α))} {p : Nat} (h : ∀ i < p, tab.getD i [] = []) :
    tab.flatten = (tab.drop p).flatten := by
  induction p generalizing tab with
  | zero => rfl
  | succ p ih =>
    cases tab with
    | nil => rfl
    | cons chain tab =>
      have hchain : chain = [] := h 0 (by omega)
      have htail := @ih tab fun i hi => by simpa using h (i + 1) (by omega)
      simpa [hchain] using htail

/-- The slot the migration looks at exists as long as the older table has nodes. -/
theorem HMap.Shape.migratePos_lt {m : HMap α} (h : m.Shape) (hsize : m.older.size > 0) :
    m.migratePos < m.older.tab.length := by
  by_contra hge
  have hnil : m.older.nodes = [] := by
    rw [HTab.nodes, flatten_of_below h.below, List.drop_eq_nil_of_le (by omega)]
    rfl
  rw [h.older.size_eq, hnil] at hsize
  simp at hsize

/-- The head of the first chain at or after `migrate_pos` is the first node of the older table. -/
theorem HMap.Shape.points_head {m : HMap α} (h : m.Shape) {n : HNode α} {rest : List (HNode α)}
    (hget : m.older.tab[m.migratePos]? = some (n :: rest)) :
    m.older.Points ⟨m.migratePos, 0⟩ n ∧ m.older.nodes = n :: (m.older.eraseAt ⟨m.migratePos, 0⟩).nodes := by
  obtain ⟨hlt, helem⟩ := List.getElem?_eq_some_iff.mp hget
  have hp : m.older.Points ⟨m.migratePos, 0⟩ n := by
    refine ⟨m.older.tab.take m.migratePos, [], rest, m.older.tab.drop (m.migratePos + 1), ?_, by simp; omega, rfl⟩
    rw [List.nil_append, ← helem, List.getElem_cons_drop, List.take_append_drop]
  refine ⟨hp, ?_⟩
  have hbelow : ∀ i < m.migratePos, (m.older.eraseAt ⟨m.migratePos, 0⟩).tab.getD i [] = [] :=
    fun i hi => getD_modify_nil rfl _ (h.below i hi)
  have hdrop : (m.older.eraseAt ⟨m.migratePos, 0⟩).tab.drop m.migratePos =
      rest :: m.older.tab.drop (m.migratePos + 1) := by
    have hlt' : m.migratePos < (m.older.eraseAt ⟨m.migratePos, 0⟩).tab.length := by simpa [HTab.eraseAt] using hlt
    rw [List.drop_eq_getElem_cons hlt']
    simp [HTab.eraseAt, helem, List.drop_modify_of_lt]
  rw [HTab.nodes, flatten_of_below h.below, HTab.nodes, flatten_of_below hbelow, hdrop,
    List.drop_eq_getElem_cons hlt, helem]
  rfl

theorem unlinked_hcode [Teardown α] (n : HNode α) : (unlinked n).hcode = n.hcode := by
  unfold unlinked
  split <;> rfl

theorem unlinked_key [Teardown α] (n : HNode α) : (unlinked n).key = n.key := by
  unfold unlinked
  split <;> rfl

@[simp] theorem unlinked_ident [Teardown α] (n : HNode α) : (unlinked n).ident = n.ident := by
  rw [HNode.ident, HNode.ident, unlinked_hcode, unlinked_key]

/-- The loop moves the first nodes of the older table, as many as its remaining work allows. -/
theorem hmRehashLoop_spec [Teardown α] (fuel nwork : Nat) (m : HMap α) (jobs : List (HNode α)) (h : m.Shape)
    (hnewer : ¬m.older.IsNull → ¬m.newer.IsNull)
    (hfuel : (rehashingWork - nwork) + (m.older.tab.length - m.migratePos) < fuel) :
    ∃ m', hmRehashLoop fuel nwork m jobs =
        .ok (m', jobs ++ (m.older.nodes.take (rehashingWork - nwork)).flatMap handedOver) ∧ m'.Shape ∧
      m'.older.nodes = m.older.nodes.drop (rehashingWork - nwork) ∧ (m'.newer.IsNull ↔ m.newer.IsNull) ∧
      m'.newer.nodes.Perm ((m.older.nodes.take (rehashingWork - nwork)).map unlinked ++ m.newer.nodes) := by
  induction fuel generalizing nwork m jobs with
  | zero => omega
  | succ fuel ih =>
    rw [hmRehashLoop]
    by_cases hcond : nwork < rehashingWork ∧ m.older.size > 0
    · have hlt := h.migratePos_lt hcond.2
      have hold : ¬m.older.IsNull := fun hnull => by simp [HTab.IsNull] at hnull; simp [hnull] at hlt
      rw [if_pos hcond]
      cases hget : m.older.tab[m.migratePos]? with
      | none =>
        rw [List.getElem?_eq_none_iff] at hget
        omega
      | some chain =>
        cases chain with
        | nil =>
          -- the slot is empty: the next round looks one slot further
          have hshape : ({ m with migratePos := m.migratePos + 1 } : HMap α).Shape := by
            refine ⟨h.older, h.newer, h.newer_of_older, fun i hi => ?_⟩
            rcases Nat.lt_succ_iff_lt_or_eq.mp hi with hi | rfl
            · exact h.below i hi
            · simp [List.getD_eq_getElem?_getD, hget]
          exact ih nwork _ jobs hshape hnewer (by simp only; omega)
        | cons n rest =>
          -- the slot has a node: it goes to the newer table
          obtain ⟨hp, hnodes⟩ := h.points_head hget
          simp only [htUnlink_eq hp]
          obtain ⟨hins, hperm⟩ := h.newer.insert (hnewer hold) (unlinked n)
          have hnull : (htInsert m.newer (unlinked n)).IsNull ↔ m.newer.IsNull := by
            simp [HTab.IsNull, htInsert]
          have hnullOlder : (m.older.eraseAt ⟨m.migratePos, 0⟩).IsNull ↔ m.older.IsNull := by
            simp [HTab.IsNull, HTab.eraseAt]
          have hshape : (HMap.mk (m.older.eraseAt ⟨m.migratePos, 0⟩) (htInsert m.newer (unlinked n))
              m.migratePos).Shape :=
            (h.withOlder (h.older.eraseAt hp) hnullOlder fun i hi => getD_modify_nil rfl _ hi).withNewer hins hnull
          have hlen : (m.older.eraseAt ⟨m.migratePos, 0⟩).tab.length = m.older.tab.length := by simp [HTab.eraseAt]
          obtain ⟨m', hrun, hshape', hold', hnull', hperm'⟩ := ih (nwork + 1) _ (jobs ++ handedOver n) hshape
            (fun ho => (not_congr hnull).mpr (hnewer ((not_congr hnullOlder).mp ho))) (by simp only [hlen]; omega)
          have hwork : rehashingWork - nwork = (rehashingWork - (nwork + 1)) + 1 := by omega
          rw [hnodes, hwork, List.take_succ_cons, List.drop_succ_cons, List.flatMap_cons, List.map_cons]
          refine ⟨m', by rw [hrun, List.append_assoc], hshape', hold', hnull'.trans hnull, ?_⟩
          exact hperm'.trans ((hperm.append_left _).trans List.perm_middle)
    · rw [if_neg hcond]
      have hend : rehashingWork - nwork = 0 ∨ m.older.nodes = [] := by
        rcases not_and_or.mp hcond with hwork | hsize
        · exact .inl (by omega)
        · exact .inr (List.length_eq_zero_iff.mp (by rw [← h.older.size_eq]; omega))
      rcases hend with hwork | hnil
      · exact ⟨m, by simp [hwork], h, by simp [hwork], Iff.rfl, by simp [hwork]⟩
      · exact ⟨m, by simp [hnil], h, by simp [hnil], Iff.rfl, by simp [hnil]⟩

/-- The nodes that `hm_rehash_help` moves. -/
def HMap.pending (m : HMap α) : List (HNode α) := m.older.nodes.take rehashingWork

theorem hmRehashHelp_spec [Teardown α] {m : HMap α} (h : m.Shape) :
    ∃ m', hmRehashHelp m = .ok (m', m.pending.flatMap handedOver) ∧ m'.Shape ∧
      m'.nodes.Perm (m.pending.map unlinked ++ (m.newer.nodes ++ m.older.nodes.drop rehashingWork)) := by
  obtain ⟨m', hrun, hshape, hold, hnull, hperm⟩ :=
    hmRehashLoop_spec (rehashingWork + m.older.tab.length + 1) 0 m [] h h.newer_of_older (by omega)
  rw [Nat.sub_zero] at hrun hold hperm
  have hall : m'.nodes.Perm (m.pending.map unlinked ++ (m.newer.nodes ++ m.older.nodes.drop rehashingWork)) := by
    rw [HMap.nodes, hold, ← List.append_assoc]
    exact hperm.append_right _
  by_cases hdone : ¬m'.older.IsNull ∧ m'.older.size = 0
  · refine ⟨{ m' with older := {} }, ?_, ⟨.null, hshape.newer, fun hne => absurd rfl hne, by simp⟩, ?_⟩
    · rw [hmRehashHelp, hrun]
      simp only [bind, Except.bind, if_pos hdone]
      rfl
    · have hnil : m'.older.nodes = [] := List.length_eq_zero_iff.mp (by rw [← hshape.older.size_eq]; exact hdone.2)
      rw [HMap.nodes, hnil] at hall
      simpa [HMap.nodes, HTab.nodes] using hall
  · refine ⟨m', ?_, hshape, hall⟩
    rw [hmRehashHelp, hrun]
    simp only [bind, Except.bind, if_neg hdone]
    rfl

/-! ### Inserting a node -/

theorem hInit_eq {n : Nat} (k : Nat) (hn : n = 2 ^ k) :
    hInit n = .ok { tab := List.replicate n ([] : List (HNode α)), mask := n - 1, size := 0 } := by
  have hpos : 0 < 2 ^ k := Nat.two_pow_pos k
  rw [hInit, if_pos]
  subst hn
  refine ⟨hpos, ?_⟩
  rw [Nat.and_comm, Nat.and_two_pow_sub_one_eq_mod, Nat.mod_self]

theorem HTab.WF.fresh {n : Nat} (k : Nat) (hn : n = 2 ^ k) :
    ({ tab := List.replicate n ([] : List (HNode α)), mask := n - 1, size := 0 } : HTab α).WF := by
  have hpos : 0 < 2 ^ k := Nat.two_pow_pos k
  refine ⟨.inr ⟨k, by simpa using hn, by simp only; omega⟩, ?_, by simp [HTab.nodes]⟩
  intro i chain hchain x hx
  rw [List.getElem?_replicate] at hchain
  split at hchain
  · rw [← Option.some.inj hchain] at hx
    simp at hx
  · simp at hchain

/-- The table of `hm_insert` before the migration, and whether a migration starts. -/
def insertedNewer (m : HMap α) (node : HNode α) : HTab α :=
  htInsert (if m.newer.IsNull then { tab := List.replicate 4 [], mask := 3, size := 0 } else m.newer) node

/-- The nodes that inserting a node moves from the older to the newer table. -/
def hmMoves (m : HMap α) (node : HNode α) : List (HNode α) :=
  let newer := insertedNewer m node
  if m.older.IsNull then
    if newer.size ≥ (newer.mask + 1) * maxLoadFactor then newer.nodes.take rehashingWork else []
  else m.older.nodes.take rehashingWork

theorem insertedNewer_spec {m : HMap α} (h : m.Shape) (node : HNode α) :
    (do let newer ← if m.newer.IsNull then hInit 4 else .ok m.newer
        Except.ok (htInsert newer node) : M (HTab α)) = .ok (insertedNewer m node) ∧
      (insertedNewer m node).WF ∧ ¬(insertedNewer m node).IsNull ∧
      (insertedNewer m node).nodes.Perm (node :: m.newer.nodes) := by
  unfold insertedNewer
  by_cases hnull : m.newer.IsNull
  · obtain ⟨hwf, hperm⟩ := (HTab.WF.fresh (α := α) (n := 4) 2 rfl).insert (by simp [HTab.IsNull]) node
    have hnil : m.newer.nodes = [] := by rw [HTab.nodes, hnull]; rfl
    simp only [if_pos hnull, hInit_eq (α := α) (n := 4) 2 rfl, bind, Except.bind]
    refine ⟨trivial, hwf, by simp [HTab.IsNull, htInsert], ?_⟩
    rw [hnil]
    exact hperm
  · obtain ⟨hwf, hperm⟩ := h.newer.insert hnull node
    simp only [if_neg hnull, bind, Except.bind]
    exact ⟨trivial, hwf, by simpa [HTab.IsNull, htInsert] using hnull, hperm⟩

/-- What an insertion leaves of a node: the ones it moves have gone through `ht_unlink`. -/
def afterInsert [Teardown α] (m : HMap α) (node n : HNode α) : HNode α :=
  if n.ident ∈ (hmMoves m node).map HNode.ident then unlinked n else n

theorem afterInsert_ident [Teardown α] (m : HMap α) (node n : HNode α) :
    (afterInsert m node n).ident = n.ident := by
  unfold afterInsert
  split
  · exact unlinked_ident n
  · rfl

/-- A node with nothing to tear down is migrated as it is. -/
theorem afterInsert_of_clear [Teardown α] {n : HNode α} (h : Teardown.clear n.val = n.val) (m : HMap α)
    (node : HNode α) : afterInsert m node n = n := by
  have hunlinked : unlinked n = n := by
    unfold unlinked
    rw [h, ite_self]
  rw [afterInsert, hunlinked, ite_self]

/-- The map at the call of `hm_rehash_help`: the node is linked, and the tables have been rotated when the load requires
it. -/
def hmPrepare (m : HMap α) (node : HNode α) : M (HMap α) :=
  if m.older.IsNull ∧ (insertedNewer m node).size ≥ ((insertedNewer m node).mask + 1) * maxLoadFactor then
    hmRehash { m with newer := insertedNewer m node }
  else .ok { m with newer := insertedNewer m node }

theorem hmInsert_eq [Teardown α] (m : HMap α) (node : HNode α) :
    hmInsert m node = hmPrepare m node >>= hmRehashHelp := by
  unfold hmInsert hmPrepare
  by_cases hnull : m.newer.IsNull
  · simp only [if_pos hnull, hInit_eq (α := α) (n := 4) 2 rfl, insertedNewer, bind, Except.bind]
    split <;> rfl
  · simp only [if_neg hnull, insertedNewer, bind, Except.bind]
    split <;> rfl

theorem hmPrepare_spec {m : HMap α} (h : m.Shape) (node : HNode α) :
    ∃ p : HMap α, hmPrepare m node = .ok p ∧ p.Shape ∧ p.nodes.Perm (node :: m.nodes) ∧ p.pending = hmMoves m node := by
  obtain ⟨-, hwf, hne, hperm⟩ := insertedNewer_spec h node
  by_cases hrehash : m.older.IsNull ∧ (insertedNewer m node).size ≥ ((insertedNewer m node).mask + 1) * maxLoadFactor
  · -- the load threshold is reached and no migration is going on
    obtain ⟨k, hlen, hmask⟩ : ∃ k, (insertedNewer m node).tab.length = 2 ^ k ∧
        (insertedNewer m node).mask + 1 = 2 ^ k := by
      rcases hwf.slots with ⟨hnull, -⟩ | hpow
      · exact absurd hnull hne
      · exact hpow
    have hsize : 2 * ((insertedNewer m node).mask + 1) = 2 ^ (k + 1) := by rw [hmask, pow_succ]; ring
    rw [hmPrepare, if_pos hrehash, hmRehash]
    simp only [hInit_eq (α := α) (k + 1) hsize, bind, Except.bind]
    refine ⟨_, rfl, ⟨hwf, HTab.WF.fresh (k + 1) hsize, fun _ => ?_, by simp⟩, ?_, ?_⟩
    · simp only [HTab.IsNull, List.replicate_eq_nil_iff]
      omega
    · have hnil : m.older.nodes = [] := by rw [HTab.nodes, hrehash.1]; rfl
      rw [HMap.nodes, HMap.nodes, hnil, List.append_nil]
      simpa [HTab.nodes] using hperm
    · rw [hmMoves]
      simp only [if_pos hrehash.1, if_pos hrehash.2]
      rfl
  · rw [hmPrepare, if_neg hrehash]
    refine ⟨_, rfl, ⟨h.older, hwf, fun _ => hne, h.below⟩, ?_, ?_⟩
    · exact hperm.append_right _
    · rw [hmMoves]
      by_cases hnull : m.older.IsNull
      · simp only [if_pos hnull, if_neg fun hge => hrehash ⟨hnull, hge⟩]
        simp [HMap.pending, HTab.nodes, show m.older.tab = [] from hnull]
      · simp only [if_neg hnull]
        rfl

theorem hmInsert_prepared [Teardown α] {m : HMap α} (h : m.Shape) (node : HNode α) :
    ∃ p : HMap α, hmInsert m node = hmRehashHelp p ∧ p.Shape ∧ p.nodes.Perm (node :: m.nodes) ∧
      p.pending = hmMoves m node := by
  obtain ⟨p, hprep, hspec⟩ := hmPrepare_spec h node
  exact ⟨p, by rw [hmInsert_eq, hprep, ok_bind], hspec⟩

/-- `hm_insert` adds the node and keeps every other one, apart from what `ht_unlink` does to those it moves. -/
theorem hmInsert_spec [Teardown α] {m : HMap α} (h : m.WF) {node : HNode α} (hnew : m.find node.ident = none) :
    ∃ m', hmInsert m node = .ok (m', (hmMoves m node).flatMap handedOver) ∧ m'.WF ∧
      m'.nodes.Perm ((node :: m.nodes).map (afterInsert m node)) := by
  obtain ⟨p, hrun, hshape, hperm, hpending⟩ := hmInsert_prepared h.toShape node
  obtain ⟨m', hhelp, hshape', hperm'⟩ := hmRehashHelp_spec hshape
  have hdnew : Distinct HNode.ident (node :: m.nodes) :=
    distinct_cons.mpr ⟨HMap.find_eq_none.mp hnew, h.distinct⟩
  -- the moved nodes followed by the ones that stay
  have hsplit : (hmMoves m node ++ (p.newer.nodes ++ p.older.nodes.drop rehashingWork)).Perm (node :: m.nodes) := by
    refine List.Perm.trans ?_ hperm
    rw [← hpending, HMap.pending, HMap.nodes]
    refine List.perm_append_comm.trans ?_
    rw [List.append_assoc]
    refine List.Perm.append_left _ ?_
    exact List.perm_append_comm.trans (by rw [List.take_append_drop])
  have hd := hdnew.perm hsplit.symm
  rw [Distinct, List.map_append, List.nodup_append] at hd
  have hmap : (hmMoves m node).map unlinked ++ (p.newer.nodes ++ p.older.nodes.drop rehashingWork) =
      (hmMoves m node ++ (p.newer.nodes ++ p.older.nodes.drop rehashingWork)).map (afterInsert m node) := by
    rw [List.map_append]
    congr 1
    · refine List.map_congr_left fun n hn => ?_
      rw [afterInsert, if_pos (List.mem_map_of_mem hn)]
    · conv_lhs => rw [← List.map_id (p.newer.nodes ++ _)]
      refine List.map_congr_left fun n hn => ?_
      rw [afterInsert, if_neg fun hin => hd.2.2 _ hin _ (List.mem_map_of_mem hn) rfl, id]
  have hfinal : m'.nodes.Perm ((node :: m.nodes).map (afterInsert m node)) := by
    rw [hpending, hmap] at hperm'
    exact hperm'.trans (hsplit.map _)
  refine ⟨m', by rw [hrun, hhelp, hpending], ⟨hshape', ?_⟩, hfinal⟩
  exact (hdnew.map (afterInsert_ident m node)).perm hfinal.symm

/-! ### The layout alone

A set may hold a member twice, so its map has the layout without the distinct keys. -/

/-- Without anything to tear down, an insert adds its node and keeps the others as they are. -/
theorem hmInsert_of_clear [Teardown α] (hclear : ∀ a : α, Teardown.clear a = a) {m : HMap α} (h : m.WF)
    {node : HNode α} (hnew : m.find node.ident = none) :
    ∃ m' jobs, hmInsert m node = .ok (m', jobs) ∧ m'.WF ∧ m'.nodes.Perm (node :: m.nodes) := by
  obtain ⟨m', hrun, hwf, hperm⟩ := hmInsert_spec h hnew
  have hkeep : (node :: m.nodes).map (afterInsert m node) = node :: m.nodes :=
    (List.map_congr_left fun n _ => afterInsert_of_clear (hclear n.val) m node).trans (List.map_id _)
  rw [hkeep] at hperm
  exact ⟨m', _, hrun, hwf, hperm⟩

theorem hmInsert_shape [Teardown α] {m m' : HMap α} {node : HNode α} {jobs : List (HNode α)} (h : m.Shape)
    (hrun : hmInsert m node = .ok (m', jobs)) : m'.Shape := by
  obtain ⟨p, hprep, hshape, -⟩ := hmInsert_prepared h node
  obtain ⟨m₁, hhelp, hshape₁, -⟩ := hmRehashHelp_spec hshape
  rw [hprep, hhelp] at hrun
  cases hrun
  exact hshape₁

theorem hmDelete_shape [Teardown α] {m m' : HMap α} {hcode : UInt64} {key : Bytes} {deleted : Bool}
    {jobs : List (HNode α)} (h : m.Shape) (hrun : hmDelete m (.ofKey hcode key) = .ok (m', deleted, jobs)) :
    m'.Shape := by
  rcases htLookup_cases h.older hcode key with ⟨ho, -⟩ | ⟨slot, n, ho, hp, -⟩
  · rcases htLookup_cases h.newer hcode key with ⟨hn, -⟩ | ⟨slot, n, hn, hp, -⟩
    · simp only [hmDelete, ho, hn, bind, Except.bind] at hrun
      cases hrun
      exact h
    · simp only [hmDelete, ho, hn, htUnlink_eq hp, bind, Except.bind] at hrun
      cases hrun
      exact h.withNewer (h.newer.eraseAt hp) (by simp [HTab.IsNull, HTab.eraseAt])
  · simp only [hmDelete, ho, htUnlink_eq hp, bind, Except.bind] at hrun
    cases hrun
    exact h.withOlder (h.older.eraseAt hp) (by simp [HTab.IsNull, HTab.eraseAt])
      fun i hi => getD_modify_nil rfl _ hi

/-- A deletion that succeeds takes out one node with the identity of the probe. -/
theorem hmDelete_split [Teardown α] {m m' : HMap α} {hcode : UInt64} {key : Bytes} {jobs : List (HNode α)}
    (h : m.Shape) (hrun : hmDelete m (.ofKey hcode key) = .ok (m', true, jobs)) :
    ∃ l₁ n l₂, m.nodes = l₁ ++ n :: l₂ ∧ m'.nodes = l₁ ++ l₂ ∧ n.ident = (hcode, cstr key) := by
  rcases htLookup_cases h.older hcode key with ⟨ho, -⟩ | ⟨slot, n, ho, hp, hid⟩
  · rcases htLookup_cases h.newer hcode key with ⟨hn, -⟩ | ⟨slot, n, hn, hp, hid⟩
    · simp only [hmDelete, ho, hn, bind, Except.bind] at hrun
      cases hrun
    · simp only [hmDelete, ho, hn, htUnlink_eq hp, bind, Except.bind] at hrun
      cases hrun
      obtain ⟨l₁, l₂, hnodes, herase, -⟩ := hp.nodes
      exact ⟨l₁, n, l₂ ++ m.older.nodes, by simp [HMap.nodes, hnodes], by simp [HMap.nodes, herase], hid⟩
  · simp only [hmDelete, ho, htUnlink_eq hp, bind, Except.bind] at hrun
    cases hrun
    obtain ⟨l₁, l₂, hnodes, herase, -⟩ := hp.nodes
    exact ⟨m.newer.nodes ++ l₁, n, l₂, by simp [HMap.nodes, hnodes], by simp [HMap.nodes, herase], hid⟩

/-- What holds of all nodes of a map and of a new one holds behind the insertion, if unlinking a node keeps it. -/
theorem forall_hmInsert [Teardown α] {P : HNode α → Prop} (hP : ∀ n, P n → P (unlinked n)) {m m' : HMap α}
    {node : HNode α} {jobs : List (HNode α)} (hs : m.Shape) (hm : ∀ n ∈ m.nodes, P n) (hnode : P node)
    (hrun : hmInsert m node = .ok (m', jobs)) : ∀ n ∈ m'.nodes, P n := by
  obtain ⟨p, hprep, hshape, hperm, -⟩ := hmInsert_prepared hs node
  obtain ⟨m₁, hhelp, -, hperm₁⟩ := hmRehashHelp_spec hshape
  rw [hprep, hhelp] at hrun
  cases hrun
  have hp : ∀ n ∈ p.nodes, P n := by
    intro n hn
    rcases List.mem_cons.mp (hperm.mem_iff.mp hn) with rfl | hn
    · exact hnode
    · exact hm n hn
  intro n hn
  rcases List.mem_append.mp (hperm₁.mem_iff.mp hn) with hn | hn
  · obtain ⟨x, hx, rfl⟩ := List.mem_map.mp hn
    exact hP x (hp x (List.mem_append_right _ (List.mem_of_mem_take hx)))
  · rcases List.mem_append.mp hn with hn | hn
    · exact hp n (List.mem_append_left _ hn)
    · exact hp n (List.mem_append_right _ (List.mem_of_mem_drop hn))

theorem forall_hmDelete [Teardown α] {P : HNode α → Prop} {m m' : HMap α} {hcode : UInt64} {key : Bytes}
    {deleted : Bool} {jobs : List (HNode α)} (hs : m.Shape) (hm : ∀ n ∈ m.nodes, P n)
    (hrun : hmDelete m ⟨hcode, some key⟩ = .ok (m', deleted, jobs)) : ∀ n ∈ m'.nodes, P n := by
  cases deleted with
  | true =>
    obtain ⟨l₁, n, l₂, hnodes, hnodes', -⟩ := hmDelete_split hs hrun
    intro x hx
    rw [hnodes', List.mem_append] at hx
    apply hm x
    rw [hnodes, List.mem_append, List.mem_cons]
    tauto
  | false =>
    unfold hmDelete at hrun
    obtain ⟨older, -, hrun⟩ := ok_of_bind hrun
    cases older with
    | some slot =>
      dsimp only at hrun
      split at hrun
      · cases hrun
      · cases hrun
    | none =>
      obtain ⟨newer, -, hrun⟩ := ok_of_bind hrun
      cases newer with
      | some slot =>
        dsimp only at hrun
        split at hrun
        · cases hrun
        · cases hrun
      | none =>
        cases hrun
        exact hm

/-- Without a key a lookup finds nothing: at the first node with the same hash it faults. -/
theorem chainLookup_nullKey (hcode : UInt64) (chain : List (HNode α)) (depth found : Nat) :
    chainLookup ⟨hcode, none⟩ chain depth ≠ .ok (some found) := by
  induction chain generalizing depth with
  | nil => exact nofun
  | cons curr rest ih =>
    rw [chainLookup]
    split
    · exact nofun
    · exact ih (depth + 1)

theorem htLookup_nullKey (t : HTab α) (hcode : UInt64) (slot : Slot) :
    htLookup t ⟨hcode, none⟩ ≠ .ok (some slot) := by
  intro hrun
  unfold htLookup at hrun
  split at hrun
  · cases hrun
  · obtain ⟨depth, hdepth, hrun⟩ := ok_of_bind hrun
    cases depth with
    | none => cases hrun
    | some d => exact chainLookup_nullKey _ _ _ _ hdepth

theorem hmLookup_nullKey (m : HMap α) (hcode : UInt64) (n : HNode α) : hmLookup m ⟨hcode, none⟩ ≠ .ok (some n) := by
  intro hrun
  obtain ⟨older, holder, hrun⟩ := ok_of_bind hrun
  cases older with
  | some slot => exact htLookup_nullKey _ _ _ holder
  | none =>
    obtain ⟨newer, hnewer, hrun⟩ := ok_of_bind hrun
    cases newer with
    | some slot => exact htLookup_nullKey _ _ _ hnewer
    | none => cases hrun

/-- Where no node has the hash, the key is not read. -/
theorem chainLookup_freshHash {hcode : UInt64} {chain : List (HNode α)} (h : ∀ n ∈ chain, n.hcode ≠ hcode)
    (key : Option Bytes) (depth : Nat) : chainLookup ⟨hcode, key⟩ chain depth = .ok none := by
  induction chain generalizing depth with
  | nil => rfl
  | cons curr rest ih =>
    rw [chainLookup, if_neg (h curr List.mem_cons_self)]
    exact ih (fun n hn => h n (List.mem_cons_of_mem _ hn)) (depth + 1)

theorem htLookup_freshHash {t : HTab α} {hcode : UInt64} (h : ∀ n ∈ t.nodes, n.hcode ≠ hcode) (key : Option Bytes) :
    htLookup t ⟨hcode, key⟩ = .ok none := by
  have hchain : ∀ n ∈ t.tab.getD (t.slotOf hcode) [], n.hcode ≠ hcode := by
    intro n hn
    rw [List.getD_eq_getElem?_getD] at hn
    cases hslot : t.tab[t.slotOf hcode]? with
    | none => simp [hslot] at hn
    | some chain =>
      rw [hslot] at hn
      exact h n (List.mem_flatten_of_mem (List.mem_of_getElem? hslot) hn)
  by_cases hnull : t.IsNull
  · rw [htLookup, if_pos hnull]
  · rw [htLookup, if_neg hnull]
    simp only [chainLookup_freshHash hchain, bind, Except.bind, Option.map_none]

theorem hmLookup_freshHash {m : HMap α} {hcode : UInt64} (h : ∀ n ∈ m.nodes, n.hcode ≠ hcode) (key : Option Bytes) :
    hmLookup m ⟨hcode, key⟩ = .ok none := by
  have holder := htLookup_freshHash (t := m.older) (fun n hn => h n (List.mem_append_right _ hn)) key
  have hnewer := htLookup_freshHash (t := m.newer) (fun n hn => h n (List.mem_append_left _ hn)) key
  simp only [hmLookup, holder, hnewer, bind, Except.bind]

/-- Where a node has the hash, the missing key is read. -/
theorem chainLookup_nullFault {hcode : UInt64} {chain : List (HNode α)} (h : ∃ n ∈ chain, n.hcode = hcode) (depth : Nat) :
    chainLookup ⟨hcode, none⟩ chain depth = .error .nullKey := by
  induction chain generalizing depth with
  | nil => exact absurd h (by simp)
  | cons curr rest ih =>
    rw [chainLookup]
    by_cases heq : curr.hcode = hcode
    · rw [if_pos heq]
    · rw [if_neg heq]
      obtain ⟨n, hn, hcode⟩ := h
      exact ih ⟨n, (List.mem_cons.mp hn).resolve_left fun hself => heq (hself ▸ hcode), hcode⟩ (depth + 1)

theorem htLookup_nullFault {t : HTab α} (ht : t.WF) {n : HNode α} (hn : n ∈ t.nodes) :
    htLookup t ⟨n.hcode, none⟩ = .error .nullKey := by
  obtain ⟨chain, hchain, hn⟩ := List.mem_flatten.mp hn
  obtain ⟨i, hslot⟩ := List.mem_iff_getElem?.mp hchain
  have hnull : ¬t.IsNull := by
    intro hnil
    rw [show t.tab = [] from hnil] at hchain
    cases hchain
  have hget : t.tab.getD i [] = chain := by rw [List.getD_eq_getElem?_getD, hslot, Option.getD_some]
  rw [htLookup, if_neg hnull, ht.placed i chain hslot n hn]
  simp only [hget, chainLookup_nullFault ⟨n, hn, rfl⟩, bind, Except.bind]

theorem hmLookup_nullFault {m : HMap α} (h : m.WF) {n : HNode α} (hn : n ∈ m.nodes) :
    hmLookup m ⟨n.hcode, none⟩ = .error .nullKey := by
  by_cases hmem : ∃ n' ∈ m.older.nodes, n'.hcode = n.hcode
  · obtain ⟨n', hn', heq⟩ := hmem
    have hrun := htLookup_nullFault h.older hn'
    rw [heq] at hrun
    simp only [hmLookup, hrun, bind, Except.bind]
  · have hnewer := (List.mem_append.mp hn).resolve_right fun hn => hmem ⟨n, hn, rfl⟩
    have holder := @htLookup_freshHash α m.older n.hcode (fun n' hn' heq => hmem ⟨n', hn', heq⟩) none
    simp only [hmLookup, holder, htLookup_nullFault h.newer hnewer, bind, Except.bind]

/-! ### The finite map -/

/-- The entries of the map after an insertion. -/
theorem find_hmInsert [Teardown α] {m m' : HMap α} {node : HNode α} (hwf : m'.WF)
    (hperm : m'.nodes.Perm ((node :: m.nodes).map (afterInsert m node))) (id : UInt64 × Bytes) :
    m'.find id = if id = node.ident then some (afterInsert m node node) else (m.find id).map (afterInsert m node) := by
  rw [HMap.find, at?_perm hwf.distinct hperm, at?_map (afterInsert_ident m node), at?_cons]
  by_cases hid : node.ident = id
  · rw [if_pos hid, if_pos hid.symm]
    rfl
  · rw [if_neg hid, if_neg (Ne.symm hid)]
    rfl

theorem find_hmDelete {m m' : HMap α} {id : UInt64 × Bytes}
    (hnodes : m'.nodes = m.nodes.filter (fun x => x.ident ≠ id)) (id' : UInt64 × Bytes) :
    m'.find id' = if id' = id then none else m.find id' := by
  rw [HMap.find, hnodes, at?_filter_ne]
  rfl

theorem find_hmModify {m m' : HMap α} {id : UInt64 × Bytes} {f : α → α}
    (hnodes : m'.nodes = m.nodes.map (fun x => if x.ident = id then { x with val := f x.val } else x))
    (id' : UInt64 × Bytes) :
    m'.find id' = (m.find id').map fun x => if id' = id then { x with val := f x.val } else x := by
  rw [HMap.find, hnodes, at?_map]
  · cases hfind : at? HNode.ident m.nodes id' with
    | none => simp [HMap.find, hfind]
    | some x => simp [HMap.find, hfind, key_of_at? hfind]
  · intro x
    split <;> rfl

theorem hmKeys_eq (m : HMap α) : hmKeys m = m.nodes.map HNode.key := by
  simp [hmKeys, hForeach, HMap.nodes, HTab.nodes, List.map_flatten, List.flatMap_def]

theorem HMap.Shape.hmSize_eq {m : HMap α} (h : m.Shape) : hmSize m = m.nodes.length := by
  rw [hmSize, h.newer.size_eq, h.older.size_eq, HMap.nodes, List.length_append]

end CustomRedis
