import CustomRedis.Proof.Hashmap
import CustomRedis.Lib.Run

/-!
# The load of the hash map

A migration has to be over before the newer table is due for one itself, since no migration starts
while another one is going on. Each insertion adds one node and moves up to `REHASHING_WORK` of them,
so the sum `REHASHING_WORK * (newer.size + older.size) + older.size` never grows while the older table
lasts. It starts at the load at which the migration began, and a newer table of twice the capacity
cannot reach its own threshold below it.
-/

namespace CustomRedis

open Run

inductive HmOp (α : Type)
  | insert (node : HNode α)
  | delete (hcode : UInt64) (key : Bytes)

variable {α : Type}

def hmStep [Teardown α] (m : HMap α) : HmOp α → M (HMap α)
  | .insert node => do
    let (m, _) ← hmInsert m node
    .ok m
  | .delete hcode key => do
    let (m, _, _) ← hmDelete m (.ofKey hcode key)
    .ok m

/-- What the counters say about the load. -/
structure HMap.Loaded (m : HMap α) : Prop where
  /-- without a migration the newer table is below its threshold -/
  settled : m.older.IsNull → m.newer.size < maxLoadFactor * (m.newer.mask + 1)
  double : ¬m.older.IsNull → m.newer.mask + 1 = 2 * (m.older.mask + 1)
  amortised : ¬m.older.IsNull → rehashingWork * (m.newer.size + m.older.size) + m.older.size ≤
    (rehashingWork + 1) * (maxLoadFactor * (m.older.mask + 1))

theorem HMap.Loaded.empty : ({} : HMap α).Loaded where
  settled _ := Nat.zero_lt_succ 7
  double hne := absurd rfl hne
  amortised hne := absurd rfl hne

/-- A table of twice the capacity is below its threshold, with room for one more node. -/
theorem HMap.Loaded.newer_lt {m : HMap α} (h : m.Loaded) (hne : ¬m.older.IsNull) :
    m.newer.size + 1 < maxLoadFactor * (m.newer.mask + 1) := by
  have hdouble := h.double hne
  have hsum := h.amortised hne
  simp only [rehashingWork, maxLoadFactor] at hsum ⊢
  omega

/-! ### The migration -/

/-- What the loop does to the counters. -/
structure HMap.Drained (m m' : HMap α) (work : Nat) : Prop where
  older_mask : m'.older.mask = m.older.mask
  newer_mask : m'.newer.mask = m.newer.mask
  null : m'.older.IsNull ↔ m.older.IsNull
  older_size : m'.older.size = m.older.size - work
  total : m'.newer.size + m'.older.size = m.newer.size + m.older.size

theorem hmRehashLoop_drained [Teardown α] {fuel nwork : Nat} {m m' : HMap α} {jobs jobs' : List (HNode α)}
    (hrun : hmRehashLoop fuel nwork m jobs = .ok (m', jobs')) : m.Drained m' (rehashingWork - nwork) := by
  induction fuel generalizing nwork m jobs with
  | zero => cases hrun
  | succ fuel ih =>
    rw [hmRehashLoop] at hrun
    by_cases hcond : nwork < rehashingWork ∧ m.older.size > 0
    · rw [if_pos hcond] at hrun
      cases hget : m.older.tab[m.migratePos]? with
      | none =>
        rw [hget] at hrun
        cases hrun
      | some chain =>
        cases chain with
        | nil =>
          simp only [hget] at hrun
          exact ⟨(ih hrun).older_mask, (ih hrun).newer_mask, (ih hrun).null, (ih hrun).older_size, (ih hrun).total⟩
        | cons n rest =>
          simp only [hget] at hrun
          cases hunlink : htUnlink m.older ⟨m.migratePos, 0⟩ with
          | none =>
            rw [hunlink] at hrun
            cases hrun
          | some r =>
            obtain ⟨older, node, work⟩ := r
            rw [hunlink] at hrun
            obtain ⟨hom, hnm, hnull, hold, htotal⟩ := ih hrun
            obtain rfl : older = m.older.eraseAt ⟨m.migratePos, 0⟩ := by
              rw [htUnlink] at hunlink
              split at hunlink
              · cases hunlink
              · cases hunlink
                rfl
            simp only [HTab.eraseAt, htInsert] at hom hnm hold htotal
            refine ⟨hom, hnm, hnull.trans (by simp [HTab.IsNull, HTab.eraseAt]), ?_, ?_⟩ <;> omega
    · rw [if_neg hcond] at hrun
      cases hrun
      refine ⟨rfl, rfl, Iff.rfl, ?_, rfl⟩
      omega

/-- The counters when the node is linked and the migration has not gone on yet: the bound is exceeded by at
most the work of one insertion. -/
structure HMap.Prepared (m : HMap α) : Prop where
  null : m.older.IsNull → m.older.size = 0
  settled : m.older.IsNull → m.newer.size < maxLoadFactor * (m.newer.mask + 1)
  double : ¬m.older.IsNull → m.newer.mask + 1 = 2 * (m.older.mask + 1)
  amortised : ¬m.older.IsNull → rehashingWork * (m.newer.size + m.older.size) + m.older.size ≤
    (rehashingWork + 1) * (maxLoadFactor * (m.older.mask + 1)) + rehashingWork

theorem hmRehashHelp_loaded [Teardown α] {m m' : HMap α} {jobs : List (HNode α)} (h : m.Prepared)
    (hrun : hmRehashHelp m = .ok (m', jobs)) : m'.Loaded := by
  obtain ⟨⟨m₁, jobs₁⟩, hloop, hfree⟩ := ok_of_bind hrun
  obtain ⟨hom, hnm, hnull, hold, htotal⟩ := hmRehashLoop_drained hloop
  dsimp only at hfree
  rw [Nat.sub_zero] at hold
  by_cases hold₁ : m₁.older.IsNull
  · -- there was no migration
    rw [if_neg fun hd => hd.1 hold₁] at hfree
    cases hfree
    have hsettled := h.settled (hnull.mp hold₁)
    have hzero := h.null (hnull.mp hold₁)
    refine ⟨fun _ => ?_, fun hne => absurd hold₁ hne, fun hne => absurd hold₁ hne⟩
    rw [hnm]
    omega
  · have hdouble := h.double (fun hn => hold₁ (hnull.mpr hn))
    have hsum := h.amortised (fun hn => hold₁ (hnull.mpr hn))
    simp only [rehashingWork] at hsum hold
    by_cases hdone : m₁.older.size = 0
    · -- the older table is empty
      rw [if_pos ⟨hold₁, hdone⟩] at hfree
      cases hfree
      refine ⟨fun _ => ?_, fun hne => absurd rfl hne, fun hne => absurd rfl hne⟩
      simp only [maxLoadFactor] at hsum ⊢
      rw [hnm]
      omega
    · rw [if_neg fun hd => hdone hd.2] at hfree
      cases hfree
      refine ⟨fun hn => absurd hn hold₁, fun _ => by rw [hnm, hom, hdouble], fun _ => ?_⟩
      simp only [rehashingWork, maxLoadFactor] at hsum ⊢
      rw [hom]
      omega

/-! ### Insertion and deletion -/

theorem insertedNewer_not_null (m : HMap α) (node : HNode α) : ¬(insertedNewer m node).IsNull := by
  rw [insertedNewer]
  by_cases hnull : m.newer.IsNull
  · rw [if_pos hnull]
    simp [HTab.IsNull, htInsert]
  · rw [if_neg hnull]
    simpa [HTab.IsNull, htInsert] using hnull

/-- The newer table with the node linked is at its threshold at most. -/
theorem HMap.Loaded.insertedNewer_le {m : HMap α} (h : m.Loaded) (hnull : m.older.IsNull) (node : HNode α) :
    (insertedNewer m node).size ≤ maxLoadFactor * ((insertedNewer m node).mask + 1) := by
  have hsettled := h.settled hnull
  rw [insertedNewer]
  by_cases hnew : m.newer.IsNull
  · rw [if_pos hnew]
    simp [htInsert, maxLoadFactor]
  · rw [if_neg hnew]
    exact hsettled

theorem hmInsert_loaded [Teardown α] {m m' : HMap α} {node : HNode α} {jobs : List (HNode α)} (hshape : m.Shape)
    (h : m.Loaded) (hrun : hmInsert m node = .ok (m', jobs)) : m'.Loaded := by
  rw [hmInsert_eq] at hrun
  obtain ⟨p, hprep, hhelp⟩ := ok_of_bind hrun
  refine hmRehashHelp_loaded ?_ hhelp
  by_cases hnull : m.older.IsNull
  · have hle := h.insertedNewer_le hnull node
    by_cases hdue : (insertedNewer m node).size ≥ ((insertedNewer m node).mask + 1) * maxLoadFactor
    · -- a migration starts, at the threshold exactly
      rw [hmPrepare, if_pos ⟨hnull, hdue⟩] at hprep
      obtain ⟨fresh, hfresh, hp⟩ := ok_of_bind hprep
      obtain ⟨hmask, hsize⟩ : fresh.mask + 1 = 2 * ((insertedNewer m node).mask + 1) ∧ fresh.size = 0 := by
        rw [hInit] at hfresh
        split at hfresh
        · cases hfresh
          exact ⟨by simp only; omega, rfl⟩
        · cases hfresh
      cases hp
      have hne := insertedNewer_not_null m node
      refine ⟨fun hn => absurd hn hne, fun hn => absurd hn hne, fun _ => hmask, fun _ => ?_⟩
      simp only [hsize, rehashingWork, maxLoadFactor] at hle ⊢
      omega
    · rw [hmPrepare, if_neg fun hd => hdue hd.2] at hprep
      cases hprep
      refine ⟨fun _ => ?_, fun _ => ?_, fun hne => absurd hnull hne, fun hne => absurd hnull hne⟩
      · rw [hshape.older.size_eq, HTab.nodes, show m.older.tab = [] from hnull]
        rfl
      · rw [Nat.mul_comm]
        exact Nat.lt_of_not_le hdue
  · rw [hmPrepare, if_neg fun hd => hnull hd.1] at hprep
    cases hprep
    have hnewer : insertedNewer m node = htInsert m.newer node := by
      rw [insertedNewer, if_neg (hshape.newer_of_older hnull)]
    have hsum := h.amortised hnull
    refine ⟨fun hn => absurd hn hnull, fun hn => absurd hn hnull, fun _ => ?_, fun _ => ?_⟩
    · rw [hnewer]
      exact h.double hnull
    · simp only [hnewer, htInsert, rehashingWork, maxLoadFactor] at hsum ⊢
      omega

/-- A deletion only lowers the counters. -/
theorem hmDelete_loaded [Teardown α] {m : HMap α} (hshape : m.Shape) (h : m.Loaded) (hcode : UInt64) (key : Bytes) :
    ∃ m' deleted jobs, hmDelete m (.ofKey hcode key) = .ok (m', deleted, jobs) ∧ m'.Loaded := by
  rcases htLookup_cases hshape.older hcode key with ⟨ho, -⟩ | ⟨slot, n, ho, hp, -⟩
  · rcases htLookup_cases hshape.newer hcode key with ⟨hn, -⟩ | ⟨slot, n, hn, hp, -⟩
    · refine ⟨m, false, [], ?_, h⟩
      simp only [hmDelete, ho, hn, bind, Except.bind]
    · refine ⟨{ m with newer := m.newer.eraseAt slot }, true, handedOver n, ?_, fun hnull => ?_, h.double,
        fun hne => ?_⟩
      · simp only [hmDelete, ho, hn, htUnlink_eq hp, bind, Except.bind]
      · exact Nat.lt_of_le_of_lt (Nat.sub_le _ _) (h.settled hnull)
      · have hsum := h.amortised hne
        simp only [HTab.eraseAt, rehashingWork] at hsum ⊢
        omega
  · have hnull : (m.older.eraseAt slot).IsNull ↔ m.older.IsNull := by simp [HTab.IsNull, HTab.eraseAt]
    refine ⟨{ m with older := m.older.eraseAt slot }, true, handedOver n, ?_, fun hn => h.settled (hnull.mp hn),
      fun hne => h.double fun hn => hne (hnull.mpr hn), fun hne => ?_⟩
    · simp only [hmDelete, ho, htUnlink_eq hp, bind, Except.bind]
    · have hsum := h.amortised fun hn => hne (hnull.mpr hn)
      simp only [HTab.eraseAt, rehashingWork] at hsum ⊢
      omega

/-! ### Runs -/

theorem hmStep_ok [Teardown α] {m : HMap α} (hshape : m.Shape) (h : m.Loaded) (op : HmOp α) :
    ∃ m', hmStep m op = .ok m' ∧ m'.Shape ∧ m'.Loaded := by
  cases op with
  | insert node =>
    obtain ⟨p, hprep, hpshape, -⟩ := hmInsert_prepared hshape node
    obtain ⟨m', hhelp, hshape', -⟩ := hmRehashHelp_spec hpshape
    have hrun := hprep.trans hhelp
    refine ⟨m', ?_, hshape', hmInsert_loaded hshape h hrun⟩
    rw [hmStep, hrun]
    rfl
  | delete hcode key =>
    obtain ⟨m', deleted, jobs, hrun, hloaded⟩ := hmDelete_loaded hshape h hcode key
    refine ⟨m', ?_, hmDelete_shape hshape hrun, hloaded⟩
    rw [hmStep, hrun]
    rfl

theorem hmRun_loaded [Teardown α] (ops : List (HmOp α)) :
    ∃ m : HMap α, run hmStep {} ops = .ok m ∧ m.Shape ∧ m.Loaded := by
  apply total (fun m op h => hmStep_ok h.1 h.2 op)
  exact ⟨HMap.WF.empty.toShape, HMap.Loaded.empty⟩

/-- After every insertion of every run the newer table is below its threshold, and while a migration goes on
linking the node leaves it there: the test for a migration suppresses none that is due. -/
theorem newer_below_threshold [Teardown α] (ops : List (HmOp α)) (node : HNode α) :
    ∃ m m' : HMap α, run hmStep {} ops = .ok m ∧ hmStep m (.insert node) = .ok m' ∧
      m'.newer.nodes.length < maxLoadFactor * (m'.newer.mask + 1) ∧
      (¬m.older.IsNull → (htInsert m.newer node).size < maxLoadFactor * ((htInsert m.newer node).mask + 1)) := by
  obtain ⟨m, hrun, hshape, hloaded⟩ := hmRun_loaded ops
  obtain ⟨m', hstep, hshape', hloaded'⟩ := hmStep_ok hshape hloaded (.insert node)
  refine ⟨m, m', hrun, hstep, ?_, hloaded.newer_lt⟩
  rw [← hshape'.newer.size_eq]
  by_cases hnull : m'.older.IsNull
  · exact hloaded'.settled hnull
  · exact Nat.lt_of_succ_lt (hloaded'.newer_lt hnull)

end CustomRedis
