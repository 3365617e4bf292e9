import CustomRedis.Proof.HashTables
import CustomRedis.Proof.Reachable

/-!
# Keys that share an entry

A key is a string of any bytes with its length, but `ht_lookup` compares two keys by their hash codes and, with `strcmp`,
by their bytes up to the first zero byte. It stops at the first node that passes, in the chain of the older table and then
in the one of the newer table. The hash is not keyed and each of its steps can be undone, so a word behind the zero byte
can be chosen to make up for any other change there.
-/

namespace CustomRedis

open KeyedList

variable {α : Type}

/-- The probe that a key from the wire is looked up with. -/
def Probe.hashed (key : Bytes) : Probe := .ofKey (strHash key) key

/-- A map as the operations lay it out, with nodes under the hash codes of their own keys. -/
structure HMap.Hashed (m : HMap α) : Prop extends m.Shape where
  hash : ∀ n ∈ m.nodes, n.hcode = strHash n.key

/-- The nodes in the order in which they are met by a lookup. -/
def HMap.lookupOrder (m : HMap α) : List (HNode α) := m.older.nodes ++ m.newer.nodes

theorem HMap.mem_lookupOrder {m : HMap α} {n : HNode α} : n ∈ m.lookupOrder ↔ n ∈ m.nodes := by
  rw [lookupOrder, nodes, List.mem_append, List.mem_append]
  exact or_comm

/-! ### The first node that passes -/

theorem at?_append {l l' : List (HNode α)} {id : UInt64 × Bytes} :
    at? HNode.ident (l ++ l') id = (at? HNode.ident l id).or (at? HNode.ident l' id) :=
  List.find?_append

/-- Nodes with a hash code are found in the chain of its slot alone. -/
theorem HTab.WF.at?_nodes {t : HTab α} (h : t.WF) (hnull : ¬t.IsNull) (hcode : UInt64) (name : Bytes) :
    at? HNode.ident t.nodes (hcode, name) = at? HNode.ident (t.tab.getD (t.slotOf hcode) []) (hcode, name) := by
  obtain ⟨before, chain, after, hsplit, hpos⟩ := exists_split_of_lt (h.slotOf_lt hnull hcode)
  have helsewhere : ∀ i c, t.tab[i]? = some c → i ≠ before.length → ∀ n ∈ c, n.ident ≠ (hcode, name) := by
    intro i c hc hne n hn hid
    have hplace := h.placed i c hc n hn
    rw [show n.hcode = hcode from congrArg Prod.fst hid, ← hpos] at hplace
    exact hne hplace.symm
  have hbefore : at? HNode.ident before.flatten (hcode, name) = none := by
    refine at?_eq_none.mpr fun hmem => ?_
    obtain ⟨n, hn, hid⟩ := List.mem_map.mp hmem
    obtain ⟨c, hc, hn⟩ := List.mem_flatten.mp hn
    obtain ⟨i, hi⟩ := List.mem_iff_getElem?.mp hc
    have hlt := (List.getElem?_eq_some_iff.mp hi).1
    refine helsewhere i c ?_ (Nat.ne_of_lt hlt) n hn hid
    rw [hsplit, List.getElem?_append_left hlt, hi]
  have hafter : at? HNode.ident after.flatten (hcode, name) = none := by
    refine at?_eq_none.mpr fun hmem => ?_
    obtain ⟨n, hn, hid⟩ := List.mem_map.mp hmem
    obtain ⟨c, hc, hn⟩ := List.mem_flatten.mp hn
    obtain ⟨i, hi⟩ := List.mem_iff_getElem?.mp hc
    refine helsewhere (before.length + 1 + i) c ?_ (by omega) n hn hid
    rw [hsplit, List.getElem?_append_right (by omega), show before.length + 1 + i - before.length = i + 1 by omega]
    exact hi
  have hchain : t.tab.getD (t.slotOf hcode) [] = chain := by
    rw [hsplit, ← hpos, List.getD_eq_getElem?_getD, List.getElem?_append_right (Nat.le_refl _), Nat.sub_self]
    rfl
  rw [hchain, HTab.nodes, hsplit, List.flatten_append, List.flatten_cons, at?_append, at?_append, hbefore, hafter,
    Option.none_or, Option.or_none]

/-- The lookup in a table ends at the first node that passes. -/
theorem htLookup_first {t : HTab α} (h : t.WF) (hcode : UInt64) (key : Bytes) :
    ∃ slot : Option Slot, htLookup t (.ofKey hcode key) = .ok slot ∧
      slot.bind t.deref = at? HNode.ident t.nodes (hcode, cstr key) := by
  by_cases hnull : t.IsNull
  · refine ⟨none, by rw [htLookup, if_pos hnull], ?_⟩
    rw [HTab.nodes, hnull]
    rfl
  · refine ⟨_, htLookup_findIdx hnull hcode key, ?_⟩
    rw [h.at?_nodes hnull, at?, List.find?_eq_bind_findIdx?_getElem?, Option.bind_map]
    rfl

theorem hmLookup_first {m : HMap α} (h : m.Shape) (hcode : UInt64) (key : Bytes) :
    hmLookup m (.ofKey hcode key) = .ok (at? HNode.ident m.lookupOrder (hcode, cstr key)) := by
  obtain ⟨older, holder, hfirst⟩ := htLookup_first h.older hcode key
  obtain ⟨newer, hnewer, hsecond⟩ := htLookup_first h.newer hcode key
  rw [HMap.lookupOrder, at?_append, ← hfirst, ← hsecond]
  cases older with
  | some slot =>
    -- a slot that is returned points to a node
    obtain ⟨n, hn⟩ : ∃ n, m.older.deref slot = some n := by
      rcases htLookup_cases h.older hcode key with ⟨hnone, -⟩ | ⟨slot', n, hsome, hp, -⟩
      · cases holder.symm.trans hnone
      · cases holder.symm.trans hsome
        exact ⟨n, hp.deref⟩
    simp only [hmLookup, holder, bind, Except.bind, Option.bind_some, hn, Option.some_or]
  | none =>
    cases newer with
    | some slot => simp only [hmLookup, holder, hnewer, bind, Except.bind, Option.bind_none, Option.bind_some, Option.none_or]
    | none => simp only [hmLookup, holder, hnewer, bind, Except.bind, Option.bind_none, Option.none_or]

/-! ### Aliases -/

/-- Where a node with another key has the hash code of the key and its bytes up to the first zero byte, a node with the
key itself stands in front of it. -/
def HMap.Unaliased (m : HMap α) (key : Bytes) : Prop :=
  ∀ l₁ n l₂, m.lookupOrder = l₁ ++ n :: l₂ → n.ident = keyId key → n.key ≠ key → ∃ own ∈ l₁, own.key = key

/-- A lookup returns, and if it returns a node, the node has the length and the bytes of the probe. -/
def HMap.FindsOwn (m : HMap α) (key : Bytes) : Prop :=
  ∃ found, hmLookup m (.hashed key) = .ok found ∧ ∀ n, found = some n → n.key = key

/-- In no map a node is found with both keys. -/
def NeverShared (α : Type) (key key' : Bytes) : Prop :=
  ∀ (m : HMap α) (n : HNode α), m.Hashed → hmLookup m (.hashed key) = .ok (some n) →
    hmLookup m (.hashed key') ≠ .ok (some n)

theorem findsOwn_iff {m : HMap α} (h : m.Hashed) (key : Bytes) : m.FindsOwn key ↔ m.Unaliased key := by
  have hrun : hmLookup m (.hashed key) = .ok (at? HNode.ident m.lookupOrder (keyId key)) := hmLookup_first h.toShape _ key
  constructor
  · rintro ⟨found, hfound, hown⟩ l₁ n l₂ hsplit hid hne
    cases hrun.symm.trans hfound
    rw [hsplit, at?_append, at?_cons, if_pos hid] at hown
    cases hfirst : at? HNode.ident l₁ (keyId key) with
    | none =>
      rw [hfirst] at hown
      exact absurd (hown n rfl) hne
    | some own =>
      rw [hfirst] at hown
      exact ⟨own, mem_of_at? hfirst, hown own rfl⟩
  · intro hunaliased
    refine ⟨_, hrun, fun n hn => ?_⟩
    obtain ⟨hid, l₁, l₂, hsplit, hbefore⟩ := List.find?_eq_some_iff_append.mp hn
    by_contra hne
    obtain ⟨own, hmem, hkey⟩ := hunaliased l₁ n l₂ hsplit (by simpa using hid) hne
    -- a node with the key itself would have been found before
    have hown : own.ident = keyId key := by
      have hnode : own ∈ m.nodes := by
        rw [← HMap.mem_lookupOrder, hsplit]
        exact List.mem_append_left _ hmem
      rw [HNode.ident, h.hash own hnode, hkey]
      rfl
    simpa [hown] using hbefore own hmem

/-- The map that one insertion makes. -/
def HMap.singleton (node : HNode α) : HMap α :=
  { newer := htInsert { tab := List.replicate 4 [], mask := 3, size := 0 } node }

theorem HMap.Shape.singleton (node : HNode α) : (HMap.singleton node).Shape := by
  obtain ⟨hwf, -⟩ := (HTab.WF.fresh (α := α) (n := 4) 2 rfl).insert (by simp [HTab.IsNull]) node
  exact ⟨.null, hwf, fun hne => absurd rfl hne, fun i hi => absurd hi (Nat.not_lt_zero i)⟩

theorem lookupOrder_singleton (node : HNode α) : (HMap.singleton node).lookupOrder = [node] := by
  obtain ⟨-, hperm⟩ := (HTab.WF.fresh (α := α) (n := 4) 2 rfl).insert (by simp [HTab.IsNull]) node
  exact List.perm_singleton.mp hperm

theorem HMap.Hashed.singleton (key : Bytes) (val : α) : (HMap.singleton ⟨strHash key, key, val⟩).Hashed := by
  refine ⟨.singleton _, fun n hn => ?_⟩
  rw [← HMap.mem_lookupOrder, lookupOrder_singleton, List.mem_singleton] at hn
  rw [hn]

theorem hmLookup_singleton {key key' : Bytes} (h : keyId key = keyId key') (val : α) :
    hmLookup (HMap.singleton ⟨strHash key, key, val⟩) (.hashed key') = .ok (some ⟨strHash key, key, val⟩) := by
  have hfirst : at? HNode.ident [HNode.mk (strHash key) key val] (keyId key') = some ⟨strHash key, key, val⟩ :=
    (at?_cons _ _ _).trans (if_pos h)
  rw [Probe.hashed, hmLookup_first (.singleton _), lookupOrder_singleton]
  exact congrArg Except.ok hfirst

theorem neverShared_iff [Inhabited α] (key key' : Bytes) : NeverShared α key key' ↔ keyId key ≠ keyId key' := by
  constructor
  · intro hnever heq
    exact hnever _ _ (.singleton key default) (hmLookup_singleton rfl default) (hmLookup_singleton heq default)
  · intro hne m n h hfound hfound'
    rw [Probe.hashed, hmLookup_first h.toShape] at hfound hfound'
    exact hne ((key_of_at? (Except.ok.inj hfound)).symm.trans (key_of_at? (Except.ok.inj hfound')))

/-- A lookup finds the node of another key only where hash code and bytes up to the first zero byte agree, and two keys
for which they agree share an entry. -/
theorem no_key_alias [Inhabited α] : (∀ (m : HMap α) (key : Bytes), m.Hashed → (m.FindsOwn key ↔ m.Unaliased key)) ∧
    ∀ key key' : Bytes, key ≠ key' → (NeverShared α key key' ↔ strHash key ≠ strHash key' ∨ cstr key ≠ cstr key') := by
  refine ⟨fun m key h => findsOwn_iff h key, fun key key' _ => (neverShared_iff key key').trans ?_⟩
  rw [keyId, keyId, Ne, Prod.mk.injEq, not_and_or]

theorem no_key_alias_letters : (HMap.singleton ⟨strHash (text "a"), text "a", 1⟩).FindsOwn (text "a") ∧
    NeverShared Nat (text "a") (text "b") := by
  refine ⟨(no_key_alias.1 _ (text "a") (.singleton (text "a") 1)).mpr fun l₁ n l₂ hsplit _ hne => ?_,
    (no_key_alias.2 (text "a") (text "b") (by decide)).mpr (.inr (by decide))⟩
  have hmem : n ∈ [HNode.mk (strHash (text "a")) (text "a") 1] := by
    rw [← lookupOrder_singleton, hsplit]
    simp
  rw [List.mem_singleton.mp hmem] at hne
  exact absurd rfl hne

def zeroTailKey : Bytes := [107, 0, 0, 0, 0, 0, 0, 0, 0, 0, 0, 0, 0, 0, 0, 0]

/-- One bit of the first word differs from `zeroTailKey`, and the second word makes up for it in the hash. -/
def aliasKey : Bytes := [107, 0, 1, 0, 0, 0, 0, 0, 237, 150, 115, 43, 211, 59, 61, 1]

/-- The lookup of one key returns the node of the other, and `GET` replies the value that was set for the other. -/
theorem alias_key_found : zeroTailKey ≠ aliasKey ∧
    (HMap.singleton ⟨strHash zeroTailKey, zeroTailKey, 1⟩).Hashed ∧
    hmLookup (HMap.singleton ⟨strHash zeroTailKey, zeroTailKey, 1⟩) (.hashed aliasKey) =
      .ok (some ⟨strHash zeroTailKey, zeroTailKey, 1⟩) ∧
    (Run.run serverStep {} [.request {} ⟨[text "set", zeroTailKey, text "v"], by decide⟩] >>= fun g =>
      (respond {} g ⟨[text "get", aliasKey], by decide⟩).map Prod.snd) = .ok (outStr (beforeResBuild []).1 (text "v")) := by
  refine ⟨by decide, .singleton zeroTailKey 1, hmLookup_singleton ?_ 1, ?_⟩
  · decide +kernel
  · decide +kernel

end CustomRedis
