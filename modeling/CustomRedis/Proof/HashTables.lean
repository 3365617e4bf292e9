import CustomRedis.Proof.LoadFactor

/-!
# The tables of the hash map

The loop of `hm_rehash_help` moves its cursor on without a bound of its own: it goes on while the size field of the older
table says that there are nodes. What keeps it inside the table is `HMap.Shape`, which every call keeps. The slots in front
of the cursor are empty and the size field counts the nodes, so while the loop goes on there is a node at the cursor or
behind it.
-/

namespace CustomRedis

open Run (run ok_of_bind)

variable {α : Type}

/-- A call on a map. -/
inductive HmCall (α : Type)
  | op (op : HmOp α)
  | clear

def hmCall [Teardown α] (m : HMap α) : HmCall α → M (HMap α)
  | .op op => hmStep m op
  | .clear => .ok (hmClear m)

/-! ### The reads of the migration -/

/-- The indices at which the loop of `hm_rehash_help` reads the older table, one for each round. -/
def migrationReads [Teardown α] : Nat → Nat → HMap α → List Nat
  | 0, _, _ => []
  | fuel + 1, nwork, hmap =>
    if nwork < rehashingWork ∧ hmap.older.size > 0 then
      hmap.migratePos ::
        match hmap.older.tab[hmap.migratePos]? with
        | none => []
        | some [] => migrationReads fuel nwork { hmap with migratePos := hmap.migratePos + 1 }
        | some (node :: _) =>
          migrationReads fuel (nwork + 1) { hmap with
            older := hmap.older.eraseAt ⟨hmap.migratePos, 0⟩, newer := htInsert hmap.newer (unlinked node) }
    else []

/-- The loop returns exactly if the reads come to an end and are inside the table. -/
theorem hmRehashLoop_returns_iff [Teardown α] (fuel nwork : Nat) (m : HMap α) (jobs : List (HNode α)) :
    (∃ r, hmRehashLoop fuel nwork m jobs = .ok r) ↔
      (migrationReads fuel nwork m).length < fuel ∧ ∀ pos ∈ migrationReads fuel nwork m, pos < m.older.tab.length := by
  induction fuel generalizing nwork m jobs with
  | zero =>
    refine iff_of_false ?_ fun h => absurd h.1 (Nat.not_lt_zero _)
    rintro ⟨r, hr⟩
    cases hr
  | succ fuel ih =>
    rw [hmRehashLoop, migrationReads]
    by_cases hcond : nwork < rehashingWork ∧ m.older.size > 0
    · rw [if_pos hcond, if_pos hcond, List.length_cons, Nat.succ_lt_succ_iff]
      simp only [List.forall_mem_cons]
      cases hget : m.older.tab[m.migratePos]? with
      | none =>
        have hge := List.getElem?_eq_none_iff.mp hget
        refine iff_of_false ?_ fun h => absurd h.2.1 (Nat.not_lt_of_le hge)
        rintro ⟨r, hr⟩
        cases hr
      | some chain =>
        obtain ⟨hlt, helem⟩ := List.getElem?_eq_some_iff.mp hget
        cases chain with
        | nil =>
          refine (ih nwork _ jobs).trans ?_
          rw [and_iff_right hlt]
        | cons node rest =>
          have hunlink : htUnlink m.older ⟨m.migratePos, 0⟩ =
              some (m.older.eraseAt ⟨m.migratePos, 0⟩, unlinked node, handedOver node) := by
            rw [htUnlink, HTab.deref, List.getD_eq_getElem?_getD, hget]
            rfl
          have hlen : (m.older.eraseAt ⟨m.migratePos, 0⟩).tab.length = m.older.tab.length := List.length_modify ..
          simp only [hunlink]
          refine (ih (nwork + 1) _ _).trans ?_
          simp only [hlen]
          rw [and_iff_right hlt]
    · rw [if_neg hcond, if_neg hcond]
      exact iff_of_true ⟨_, rfl⟩ ⟨Nat.succ_pos fuel, fun _ hpos => absurd hpos List.not_mem_nil⟩

/-- On a map with the layout the loop ends, and it reads the older table up to its mask. -/
theorem migrationReads_inside [Teardown α] {m : HMap α} (h : m.Shape) {fuel : Nat}
    (hfuel : rehashingWork + m.older.tab.length < fuel) :
    (migrationReads fuel 0 m).length < fuel ∧ ∀ pos ∈ migrationReads fuel 0 m, pos ≤ m.older.mask := by
  obtain ⟨m', hrun, -⟩ := hmRehashLoop_spec fuel 0 m [] h h.newer_of_older (by omega)
  obtain ⟨hends, hinside⟩ := (hmRehashLoop_returns_iff fuel 0 m []).mp ⟨_, hrun⟩
  refine ⟨hends, fun pos hpos => ?_⟩
  have hlt := hinside pos hpos
  have hne : ¬m.older.IsNull := by
    intro hnull
    rw [show m.older.tab = [] from hnull] at hlt
    exact absurd hlt (Nat.not_lt_zero pos)
  rw [h.older.length_eq hne] at hlt
  exact Nat.le_of_lt_succ hlt

/-! ### Runs -/

theorem hmCall_ok [Teardown α] {m : HMap α} (hshape : m.Shape) (h : m.Loaded) (call : HmCall α) :
    ∃ m', hmCall m call = .ok m' ∧ m'.Shape ∧ m'.Loaded := by
  cases call with
  | op op => exact hmStep_ok hshape h op
  | clear => exact ⟨{}, rfl, HMap.WF.empty.toShape, HMap.Loaded.empty⟩

/-- No run of calls fails. Both tables are laid out after it, and when the next insertion calls `hm_rehash_help`, its loop
ends without a read outside the older table. -/
theorem hash_tables_run [Teardown α] (calls : List (HmCall α)) (node : HNode α) :
    ∃ m p : HMap α, run hmCall {} calls = .ok m ∧ m.Shape ∧ hmPrepare m node = .ok p ∧ p.Shape ∧
      (∃ r, hmRehashHelp p = .ok r) ∧
      ∀ fuel > rehashingWork + p.older.tab.length, (migrationReads fuel 0 p).length < fuel ∧
        ∀ pos ∈ migrationReads fuel 0 p, pos ≤ p.older.mask := by
  have hempty : (HMap.mk {} {} 0 : HMap α).Shape ∧ (HMap.mk {} {} 0 : HMap α).Loaded :=
    ⟨HMap.WF.empty.toShape, HMap.Loaded.empty⟩
  obtain ⟨m, hrun, hshape, -⟩ := Run.total (fun m call h => hmCall_ok h.1 h.2 call) hempty calls
  obtain ⟨p, hprep, hpshape, -⟩ := hmPrepare_spec hshape node
  obtain ⟨m', hhelp, -⟩ := hmRehashHelp_spec hpshape
  exact ⟨m, p, hrun, hshape, hprep, hpshape, ⟨_, hhelp⟩, fun fuel hfuel => migrationReads_inside hpshape hfuel⟩

end CustomRedis
