import CustomRedis.Proof.OneKey

/-!
# The maps inside sets and hashes

The hash map of a set or of a hash has the members or the fields for its keys, and nothing to tear down.
As long as no key holds a zero byte, two nodes with the same identity have the same key, so the map is
described by its nodes and their keys alone: the hash codes drop out, and so does the migration.
-/

namespace CustomRedis

open KeyedList

/-- The keys of a map are strings without a zero byte, under their own hash codes. -/
structure HMap.Keyed {α : Type} (m : HMap α) : Prop where
  wf : m.WF
  hash : ∀ n ∈ m.nodes, n.hcode = strHash n.key
  noNul : ∀ n ∈ m.nodes, 0 ∉ n.key

theorem HMap.Keyed.empty {α : Type} : ({} : HMap α).Keyed := ⟨HMap.WF.empty, nofun, nofun⟩

namespace HMap.Keyed

variable {α : Type} {m : HMap α} {key : Bytes}

theorem ident_eq (h : m.Keyed) {n : HNode α} (hn : n ∈ m.nodes) : n.ident = keyId n.key := by
  rw [HNode.ident, h.hash n hn]
  rfl

theorem ident_iff (h : m.Keyed) (hkey : 0 ∉ key) {n : HNode α} (hn : n ∈ m.nodes) :
    n.ident = keyId key ↔ n.key = key := by
  rw [h.ident_eq hn]
  exact keyId_inj (h.noNul n hn) hkey

theorem distinct (h : m.Keyed) : Distinct HNode.key m.nodes := by
  have hidents : m.nodes.map HNode.ident = (m.nodes.map HNode.key).map keyId := by
    rw [List.map_map]
    exact List.map_congr_left fun n hn => h.ident_eq hn
  apply List.Nodup.of_map keyId
  rw [← hidents]
  exact h.wf.distinct

theorem find_eq (h : m.Keyed) (hkey : 0 ∉ key) : m.find (keyId key) = at? HNode.key m.nodes key := by
  apply Option.ext
  intro n
  rw [h.wf.find_eq_some, h.distinct.at?_eq_some]
  exact and_congr_right (h.ident_iff hkey)

theorem mem_keys_iff (h : m.Keyed) (hkey : 0 ∉ key) : m.find (keyId key) = none ↔ key ∉ m.nodes.map HNode.key := by
  rw [h.find_eq hkey, at?_eq_none]

theorem cons_perm (h : m.Keyed) {m' : HMap α} (hwf : m'.WF) (hkey : 0 ∉ key) {val : α}
    (hperm : m'.nodes.Perm (⟨strHash key, key, val⟩ :: m.nodes)) : m'.Keyed := by
  refine ⟨hwf, fun n hn => ?_, fun n hn => ?_⟩
  · rcases List.mem_cons.mp (hperm.mem_iff.mp hn) with rfl | hold
    · rfl
    · exact h.hash n hold
  · rcases List.mem_cons.mp (hperm.mem_iff.mp hn) with rfl | hold
    · exact hkey
    · exact h.noNul n hold

theorem insert [Teardown α] (h : m.Keyed) (hclear : ∀ a : α, Teardown.clear a = a) (hkey : 0 ∉ key)
    (hnew : key ∉ m.nodes.map HNode.key) (val : α) :
    ∃ m' jobs, hmInsert m ⟨strHash key, key, val⟩ = .ok (m', jobs) ∧ m'.Keyed ∧
      m'.nodes.Perm (⟨strHash key, key, val⟩ :: m.nodes) := by
  have hfind : m.find (HNode.mk (strHash key) key val).ident = none := (h.mem_keys_iff hkey).mpr hnew
  obtain ⟨m', jobs, hrun, hwf, hperm⟩ := hmInsert_of_clear hclear h.wf hfind
  exact ⟨m', jobs, hrun, h.cons_perm hwf hkey hperm, hperm⟩

theorem delete [Teardown α] (h : m.Keyed) (hkey : 0 ∉ key) :
    ∃ m' jobs, hmDelete m (.ofKey (strHash key) key) = .ok (m', decide (key ∈ m.nodes.map HNode.key), jobs) ∧
      m'.Keyed ∧ m'.nodes = m.nodes.filter fun n => n.key ≠ key := by
  rcases hmDelete_spec h.wf (strHash key) key with ⟨hnone, hrun⟩ | ⟨n, m', hsome, hrun, hwf, hnodes⟩
  · have hnot : key ∉ m.nodes.map HNode.key := (h.mem_keys_iff hkey).mp hnone
    refine ⟨m, [], ?_, h, ?_⟩
    · rw [hrun, decide_eq_false hnot]
    · rw [eq_comm, List.filter_eq_self]
      exact fun n hn => decide_eq_true fun heq => hnot (heq ▸ List.mem_map_of_mem hn)
  · have hin : key ∈ m.nodes.map HNode.key := by
      by_contra hnot
      exact nomatch hsome.symm.trans ((h.mem_keys_iff hkey).mpr hnot)
    have hfilter : m'.nodes = m.nodes.filter fun n => n.key ≠ key := by
      rw [hnodes]
      exact List.filter_congr fun n hn => decide_eq_decide.mpr (not_congr (h.ident_iff hkey hn))
    have hsub : ∀ n ∈ m'.nodes, n ∈ m.nodes := fun n hn => List.mem_of_mem_filter (hfilter ▸ hn)
    refine ⟨m', handedOver n, ?_, ⟨hwf, fun n hn => h.hash n (hsub n hn), fun n hn => h.noNul n (hsub n hn)⟩, hfilter⟩
    rw [hrun, decide_eq_true hin]

end HMap.Keyed

end CustomRedis
