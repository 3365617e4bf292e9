import CustomRedis.Lib.Run
import CustomRedis.Model.Hyperloglog
import CustomRedis.Proof.Frames

/-!
# The cached count of a HyperLogLog

The cached count stands in the eight bytes in front of the registers, and the top bit of the last of them says
that it is not valid. Every exit of `hll_add` sets that bit or leaves all bytes of the structure as they were. For
the exits that change nothing this needs that the block is not cut off by `dstr_reserve`, which allocates too
little: where the block would be too short for the bytes in use, `free` says that there is room enough.
-/

namespace CustomRedis

open Run (run ok_bind ok_of_bind Avoids)

namespace Hll

/-- The encoding byte. -/
def enc (hll : Hll) : Option UInt8 := hll.mem[4]?

/-- The bytes behind the header. -/
def payload (hll : Hll) : Bytes := (hll.mem.take hll.size).drop hllHeaderSizeBytes

/-- The top bit of the cached count is set. -/
def CacheInvalid (hll : Hll) : Prop := ∃ b, hll.mem[15]? = some b ∧ b &&& 128 ≠ 0

/-- The block has the same length and the same first `n` bytes. -/
def Keeps (n : Nat) (h h' : Hll) : Prop := h'.mem.length = h.mem.length ∧ ∀ i < n, h'.mem[i]? = h.mem[i]?

theorem Keeps.refl (n : Nat) (h : Hll) : Keeps n h h := ⟨rfl, fun _ _ => rfl⟩

theorem Keeps.trans {n : Nat} {h₁ h₂ h₃ : Hll} (h : Keeps n h₁ h₂) (h' : Keeps n h₂ h₃) : Keeps n h₁ h₃ :=
  ⟨h'.1.trans h.1, fun i hi => (h'.2 i hi).trans (h.2 i hi)⟩

/-! ### Writes to the block -/

/-- A write changes neither `size` nor `free`, and keeps what stands in front of it. -/
structure Patched (n : Nat) (h h' : Hll) : Prop where
  keeps : Keeps n h h'
  size : h'.size = h.size
  free : h'.free = h.free

theorem Patched.refl (n : Nat) (h : Hll) : Patched n h h := ⟨Keeps.refl n h, rfl, rfl⟩

theorem Patched.trans {n : Nat} {h₁ h₂ h₃ : Hll} (h : Patched n h₁ h₂) (h' : Patched n h₂ h₃) : Patched n h₁ h₃ :=
  ⟨h.keeps.trans h'.keeps, h'.size.trans h.size, h'.free.trans h.free⟩

theorem Patched.weaken {m n : Nat} {h h' : Hll} (hp : Patched n h h') (hmn : m ≤ n) : Patched m h h' :=
  ⟨⟨hp.keeps.1, fun i hi => hp.keeps.2 i (Nat.lt_of_lt_of_le hi hmn)⟩, hp.size, hp.free⟩

variable {n i : Nat} {h h' : Hll}

theorem patched_of_put {b : UInt8} (hrun : h.put i b = .ok h') (hi : n ≤ i) : Patched n h h' := by
  unfold put at hrun
  split at hrun
  · cases hrun
    refine ⟨⟨List.length_set, fun j hj => ?_⟩, rfl, rfl⟩
    exact List.getElem?_set_ne (by omega)
  · cases hrun

theorem patched_of_store {bs : Bytes} (hrun : h.store i bs = .ok h') (hi : n ≤ i) :
    Patched n h h' ∧ i + bs.length ≤ h.mem.length := by
  unfold store at hrun
  split at hrun
  · next hle =>
    cases hrun
    refine ⟨⟨⟨?_, fun j hj => ?_⟩, rfl, rfl⟩, hle⟩
    · simp only [List.length_append, List.length_take, List.length_drop]
      omega
    · have hji : j < (h.mem.take i).length := by
        rw [List.length_take]
        omega
      rw [List.append_assoc, List.getElem?_append_left hji, List.getElem?_take_of_lt (by omega)]
  · cases hrun

theorem patched_of_move {dst src len : Nat} (hrun : h.move dst src len = .ok h') (hdst : n ≤ dst) :
    Patched n h h' ∧ src + len ≤ h.mem.length ∧ dst + len ≤ h.mem.length := by
  obtain ⟨bs, hslice, hstore⟩ := ok_of_bind hrun
  unfold slice at hslice
  split at hslice
  · next hle =>
    cases hslice
    obtain ⟨hw, hlen⟩ := patched_of_store hstore hdst
    rw [List.length_take, List.length_drop] at hlen
    exact ⟨hw, hle, by omega⟩
  · cases hslice

end Hll

section Cache

variable {h h' : Hll}

theorem or_top_bit (b : UInt8) : (b ||| 128) &&& 128 ≠ 0 := by
  have hall : ∀ i : Fin 256, (UInt8.ofFin i ||| 128) &&& 128 ≠ 0 := by decide +kernel
  exact hall b.toFin

theorem invalidateCache_spec (hrun : invalidateCache h = .ok h') : Hll.Patched 15 h h' ∧ h'.CacheInvalid := by
  obtain ⟨b, hget, hput⟩ := ok_of_bind hrun
  refine ⟨Hll.patched_of_put hput (Nat.le_refl _), b ||| 128, ?_, or_top_bit b⟩
  unfold Hll.put at hput
  split at hput
  · next hlt =>
    cases hput
    exact List.getElem?_set_self hlt
  · cases hput

theorem Hll.CacheInvalid.of_keeps (hc : h.CacheInvalid) (hk : Hll.Keeps 16 h h') : h'.CacheInvalid := by
  obtain ⟨b, hb, hbit⟩ := hc
  exact ⟨b, (hk.2 15 (by decide)).trans hb, hbit⟩

/-! ### The dense encoding -/

theorem hllHeaderSizeBytes_le_regByte (regNo : Nat) : 16 ≤ regByte regNo := Nat.le_add_left _ _

theorem setReg_patched {regNo : Nat} {value : UInt32} (hrun : setReg h regNo value = .ok h') : Hll.Patched 16 h h' := by
  obtain ⟨_, -, hrun⟩ := ok_of_bind hrun
  obtain ⟨_, -, hrun⟩ := ok_of_bind hrun
  obtain ⟨h₁, hput, hrun⟩ := ok_of_bind hrun
  have hle := hllHeaderSizeBytes_le_regByte regNo
  exact (Hll.patched_of_put hput hle).trans (Hll.patched_of_put hrun (by omega))

theorem setRegs_patched {regNo cnt : Nat} {val : UInt8} (hrun : setRegs h regNo val cnt = .ok h') : Hll.Patched 16 h h' := by
  induction cnt generalizing h regNo with
  | zero =>
    cases hrun
    exact Hll.Patched.refl 16 _
  | succ cnt ih =>
    obtain ⟨h₁, hset, hrun⟩ := ok_of_bind hrun
    exact (setReg_patched hset).trans (ih hrun)

theorem densifyAux_patched {fuel : Nat} {dhll : Hll} {regNo flagNo : Nat}
    (hrun : densifyAux fuel h dhll regNo flagNo = .ok h') : Hll.Patched 16 dhll h' := by
  induction fuel generalizing dhll regNo flagNo with
  | zero => cases hrun
  | succ fuel ih =>
    rw [densifyAux] at hrun
    split at hrun
    · obtain ⟨flag, -, hrun⟩ := ok_of_bind hrun
      split at hrun
      · obtain ⟨d₁, hset, hrun⟩ := ok_of_bind hrun
        exact (setRegs_patched hset).trans (ih hrun)
      · split at hrun
        · exact ih hrun
        · obtain ⟨_, -, hrun⟩ := ok_of_bind hrun
          exact ih hrun
    · cases hrun
      exact Hll.Patched.refl 16 _

theorem addDense_spec {regNo ret : Nat} {val : UInt8} (hrun : addDense h regNo val = .ok (h', ret)) :
    h' = h ∨ (Hll.Patched 15 h h' ∧ h'.CacheInvalid) := by
  obtain ⟨reg, -, hrun⟩ := ok_of_bind hrun
  split at hrun
  · obtain ⟨h₁, hset, hrun⟩ := ok_of_bind hrun
    obtain ⟨h₂, hinv, hrun⟩ := ok_of_bind hrun
    cases hrun
    obtain ⟨hp, hc⟩ := invalidateCache_spec hinv
    exact .inr ⟨((setReg_patched hset).weaken (by decide)).trans hp, hc⟩
  · cases hrun
    exact .inl rfl

theorem enc_of_getEnc {b : UInt8} (hget : getEnc h = .ok b) : h.enc = some b := by
  unfold getEnc Hll.get at hget
  split at hget
  · next heq =>
    cases hget
    exact heq
  · cases hget

/-- A dense structure that a conversion has made. -/
structure Hll.Dense (h : Hll) : Prop where
  header : 16 ≤ h.mem.length
  enc : h.enc = some hllDense

theorem Hll.Dense.of_keeps (hd : h.Dense) {n : Nat} (hn : 5 ≤ n) (hk : Hll.Keeps n h h') : h'.Dense :=
  ⟨hk.1 ▸ hd.header, (hk.2 4 (by omega)).trans hd.enc⟩

/-- A conversion starts with a header of its own. -/
theorem densify_spec (henc : h.enc ≠ some hllDense) (hrun : densify h = .ok h') : h'.Dense ∧ h'.CacheInvalid := by
  obtain ⟨b, hget, hrun⟩ := ok_of_bind hrun
  have hne : b ≠ hllDense := by
    rintro rfl
    exact henc (enc_of_getEnc hget)
  rw [if_neg hne] at hrun
  have hp := densifyAux_patched hrun
  have hdense : denseInit.Dense := ⟨by simp [denseInit, hllHeader], rfl⟩
  have hinvalid : denseInit.CacheInvalid := ⟨128, rfl, by decide⟩
  exact ⟨hdense.of_keeps (by decide) hp.keeps, hinvalid.of_keeps hp.keeps⟩

theorem addDense_dense {regNo ret : Nat} {val : UInt8} (hd : h.Dense) (hrun : addDense h regNo val = .ok (h', ret)) :
    h'.Dense ∧ (h' = h ∨ h'.CacheInvalid) := by
  rcases addDense_spec hrun with rfl | ⟨hp, hc⟩
  · exact ⟨hd, .inl rfl⟩
  · exact ⟨hd.of_keeps (by decide) hp.keeps, .inr hc⟩

/-! ### The sparse encoding -/

/-- A sparse structure. Where `size` has passed the end of the block, `free` has reached the limit, so that nothing is
allocated any more. -/
structure Hll.Room (h : Hll) : Prop where
  header : 16 ≤ h.mem.length
  bound : h.mem.length + 15 ≤ hllSparseMaxBytes
  size : 13 ≤ h.size
  limit : h.size + h.free ≤ hllSparseMaxBytes
  alloc : h.size + h.free ≤ h.mem.length + 15
  used : h.size ≤ h.mem.length ∨ hllSparseMaxBytes ≤ h.size + h.free

/-- The bytes that `add_sparse` reserves. -/
def sparseReserve (h : Hll) : Nat :=
  (if h.size + 3 + min (h.size + 3) 300 > hllSparseMaxBytes then hllSparseMaxBytes
    else h.size + 3 + min (h.size + 3) 300) - h.size

/-- A reservation leaves the bytes in use where they are. -/
theorem hllReserve_spec (junk : Nat → UInt8) (hr : h.Room) (hroom : h.size + 5 ≤ hllSparseMaxBytes)
    (h₁ : Hll) (heq : hllReserve junk h (sparseReserve h) = h₁) :
    h₁.Room ∧ h₁.size = h.size ∧ (∀ i, i < h.size ∨ i < 16 → h₁.mem[i]? = h.mem[i]?) ∧ 5 ≤ h₁.free ∧
      (h₁.size + 4 ≤ h₁.mem.length ∨ hllSparseMaxBytes ≤ h₁.size + h₁.free) := by
  obtain ⟨hheader, hbound, hsize, hlimit, halloc, hused⟩ := hr
  have hadd : 5 ≤ sparseReserve h ∧ h.size + sparseReserve h ≤ hllSparseMaxBytes ∧
      (19 ≤ sparseReserve h ∨ h.size + sparseReserve h = hllSparseMaxBytes) := by
    unfold sparseReserve hllSparseMaxBytes at *
    split <;> omega
  generalize sparseReserve h = add at *
  obtain ⟨hfive, hmax, hbig⟩ := hadd
  have hlarge : ¬h.size + add > 2 ^ 30 := by
    unfold hllSparseMaxBytes at hmax
    omega
  rw [hllReserve, if_neg hlarge] at heq
  by_cases hfree : h.free ≥ add
  · rw [if_pos hfree] at heq
    subst heq
    exact ⟨⟨hheader, hbound, hsize, hlimit, halloc, hused⟩, rfl, fun _ _ => rfl, by omega, by omega⟩
  · rw [if_neg hfree] at heq
    have hle : h.size ≤ h.mem.length := hused.resolve_right (by omega)
    have hlen : h₁.mem.length = h.size + add + 1 - 16 := by
      rw [← heq]
      simp only [List.length_append, List.length_take, List.length_map, List.length_range]
      omega
    have hget : ∀ i, i < h.size ∨ i < 16 → h₁.mem[i]? = h.mem[i]? := by
      intro i hi
      have hshort : i < (h.mem.take (h.size + add + 1 - 16)).length := by
        rw [List.length_take]
        omega
      rw [← heq, List.getElem?_append_left hshort, List.getElem?_take_of_lt (by omega)]
    have hs : h₁.size = h.size := by rw [← heq]
    have hf : h₁.free = add := by rw [← heq]
    exact ⟨⟨by omega, by omega, by omega, by omega, by omega, by omega⟩, hs, hget, by omega, by omega⟩

/-- The scan stays between the header and the end. -/
structure ScanBounds (h : Hll) (scan : SparseScan) : Prop where
  curr : ∀ c, scan.curr = some c → 16 ≤ c ∧ c < h.size ∧ ∀ n, scan.next = some n → c < n ∧ n < h.size
  prev : ∀ p, scan.prev = some p → 16 ≤ p
  next : scan.curr = none → scan.next = none

theorem ScanBounds.initial : ScanBounds h {} := by
  refine ⟨fun c hc => ?_, fun p hp => ?_, fun _ => rfl⟩
  · exact nomatch hc
  · exact nomatch hp

theorem Hll.lt_of_get {i : Nat} {b : UInt8} (hget : h.get i = .ok b) : i < h.mem.length := by
  unfold Hll.get at hget
  split at hget
  · next hsome => exact (List.getElem?_eq_some_iff.mp hsome).1
  · cases hget

/-- A round of the scan. The flag that begins at `fn` ends at `fn₁`. -/
theorem sparseScanAux_round {fuel regNo fn idx : Nat} {scan scan' : SparseScan}
    (hrun : sparseScanAux (fuel + 1) h regNo fn idx scan = .ok scan') : (h.size ≤ fn ∧ scan' = scan) ∨
      ∃ scan₁ idx₁ fn₁, fn < h.size ∧ fn ≤ fn₁ ∧ fn₁ < h.mem.length ∧ scan₁.curr = some fn ∧ scan₁.next = scan.next ∧
        ((scan₁.prev = scan.prev ∧
            scan' = { scan₁ with last := idx₁ - 1, next := if fn₁ + 1 < h.size then some (fn₁ + 1) else none }) ∨
          (scan₁.prev = some fn₁ ∧ sparseScanAux fuel h regNo (fn₁ + 1) idx₁ scan₁ = .ok scan')) := by
  rw [sparseScanAux] at hrun
  split at hrun
  · next hlt =>
    right
    obtain ⟨flag, hget, hrun⟩ := ok_of_bind hrun
    -- what follows the three kinds of flags
    have htail : ∀ x : SparseScan × Nat × Nat,
        x.1.curr = some fn ∧ x.1.prev = scan.prev ∧ x.1.next = scan.next ∧ fn ≤ x.2.2 ∧ x.2.2 < h.mem.length →
        (if (idx + x.2.1) % 2 ^ 32 > regNo then
          .ok { x.1 with
            last := (idx + x.2.1) % 2 ^ 32 - 1
            next := if x.2.2 + 1 < h.size then some (x.2.2 + 1) else none }
        else
          sparseScanAux fuel h regNo (x.2.2 + 1) ((idx + x.2.1) % 2 ^ 32)
            { x.1 with prev := some x.2.2, ival := false, izero := false, ixzero := false }) = .ok scan' →
        ∃ scan₁ idx₁ fn₁, fn < h.size ∧ fn ≤ fn₁ ∧ fn₁ < h.mem.length ∧ scan₁.curr = some fn ∧ scan₁.next = scan.next ∧
          ((scan₁.prev = scan.prev ∧
              scan' = { scan₁ with last := idx₁ - 1, next := if fn₁ + 1 < h.size then some (fn₁ + 1) else none }) ∨
            (scan₁.prev = some fn₁ ∧ sparseScanAux fuel h regNo (fn₁ + 1) idx₁ scan₁ = .ok scan')) := by
      rintro ⟨scan₁, cnt, fn₁⟩ ⟨hcurr, hprev, hnext, hle, hread⟩ hrun
      dsimp only at hcurr hprev hnext hle hread hrun
      split at hrun
      · cases hrun
        exact ⟨scan₁, _, fn₁, hlt, hle, hread, hcurr, hnext, .inl ⟨hprev, rfl⟩⟩
      · exact ⟨{ scan₁ with prev := some fn₁, ival := false, izero := false, ixzero := false }, _, fn₁, hlt, hle, hread,
          hcurr, hnext, .inr ⟨rfl, hrun⟩⟩
    have hread := Hll.lt_of_get hget
    dsimp only at hrun
    split at hrun
    · obtain ⟨x, hx, hrun⟩ := ok_of_bind hrun
      refine htail x ?_ hrun
      cases hx
      exact ⟨rfl, rfl, rfl, Nat.le_refl _, hread⟩
    · split at hrun
      · obtain ⟨x, hx, hrun⟩ := ok_of_bind hrun
        refine htail x ?_ hrun
        cases hx
        exact ⟨rfl, rfl, rfl, Nat.le_refl _, hread⟩
      · obtain ⟨lsb, hlsb, hrun⟩ := ok_of_bind hrun
        obtain ⟨x, hx, hrun⟩ := ok_of_bind hrun
        refine htail x ?_ hrun
        cases hx
        exact ⟨rfl, rfl, rfl, Nat.le_succ _, Hll.lt_of_get hlsb⟩
  · next hle =>
    cases hrun
    exact .inl ⟨Nat.le_of_not_lt hle, rfl⟩

theorem sparseScanAux_bounds {fuel regNo fn idx : Nat} {scan scan' : SparseScan} (hfn : 16 ≤ fn)
    (hb : ScanBounds h scan) (hnext : scan.next = none)
    (hrun : sparseScanAux fuel h regNo fn idx scan = .ok scan') : ScanBounds h scan' := by
  induction fuel generalizing fn idx scan with
  | zero => cases hrun
  | succ fuel ih =>
    rcases sparseScanAux_round hrun with ⟨-, rfl⟩ | ⟨scan₁, idx₁, fn₁, hlt, hle, -, hcurr, hsame, hcase⟩
    · exact hb
    · rcases hcase with ⟨hprev, rfl⟩ | ⟨hprev, hrest⟩
      · refine ⟨fun c hc => ?_, fun p hp => hb.prev p (hprev ▸ hp), fun hc => ?_⟩
        · cases hcurr.symm.trans hc
          refine ⟨hfn, hlt, fun n hn => ?_⟩
          dsimp only at hn
          split at hn
          · cases hn
            omega
          · cases hn
        · cases hcurr.symm.trans hc
      · refine ih (by omega) ⟨fun c hc => ?_, fun p hp => ?_, fun _ => hsame.trans hnext⟩ (hsame.trans hnext) hrest
        · cases hcurr.symm.trans hc
          refine ⟨hfn, hlt, fun n hn => ?_⟩
          cases hn.symm.trans (hsame.trans hnext)
        · cases hprev.symm.trans hp
          omega

theorem zeroFlags_length (count : Nat) : 1 ≤ (zeroFlags count).length ∧ (zeroFlags count).length ≤ 2 := by
  unfold zeroFlags
  split <;> simp

theorem splitFlags_length (scan : SparseScan) (flag : UInt8) (regNo : Nat) (val : UInt8) :
    1 ≤ (splitFlags scan flag regNo val).length ∧ (splitFlags scan flag regNo val).length ≤ 5 := by
  have hhalf : ∀ (c : Prop) [Decidable c] (count : Nat), (if c then (if scan.ival then
      [valFlag (valValue flag) (UInt8.ofNat count)] else zeroFlags count) else []).length ≤ 2 := by
    intro c _ count
    split
    · split
      · exact Nat.le_succ 1
      · exact (zeroFlags_length count).2
    · exact Nat.zero_le 2
  have hleft := hhalf (regNo ≠ scan.start) (gap regNo scan.start)
  have hright := hhalf (regNo ≠ scan.last) (gap scan.last regNo)
  rw [splitFlags]
  dsimp only
  rw [List.length_append, List.length_append, List.length_singleton]
  omega

/-- A round of the merging loop goes on behind a flag, or it puts two of them together. -/
theorem mergeAux_round {scanlen p hllEnd : Nat} (hrun : mergeAux (scanlen + 1) h p hllEnd = .ok h') : h' = h ∨
    (∃ p', p ≤ p' ∧ mergeAux scanlen h p' hllEnd = .ok h') ∨
    ∃ b h₁ h₂ h₃, p + 1 < hllEnd ∧ h.put (p + 1) b = .ok h₁ ∧ h₁.move p (p + 1) (hllEnd - p) = .ok h₂ ∧
      h₂.put (h₂.size - 1) 0 = .ok h₃ ∧
      mergeAux scanlen { h₃ with size := h₃.size - 1, free := h₃.free + 1 } p hllEnd = .ok h' := by
  rw [mergeAux] at hrun
  split at hrun
  · right
    obtain ⟨flag, -, hrun⟩ := ok_of_bind hrun
    split at hrun
    · exact .inl ⟨p + 1, Nat.le_succ p, hrun⟩
    · split at hrun
      · exact .inl ⟨p + 2, Nat.le_add_right p 2, hrun⟩
      · split at hrun
        · next hlt =>
          obtain ⟨flag', -, hrun⟩ := ok_of_bind hrun
          dsimp only at hrun
          split at hrun
          · obtain ⟨h₁, hput, hrun⟩ := ok_of_bind hrun
            obtain ⟨h₂, hmove, hrun⟩ := ok_of_bind hrun
            obtain ⟨h₃, hzero, hrun⟩ := ok_of_bind hrun
            exact .inr ⟨_, h₁, h₂, h₃, hlt, hput, hmove, hzero, hrun⟩
          · exact .inl ⟨p + 1, Nat.le_succ p, hrun⟩
        · exact .inl ⟨p + 1, Nat.le_succ p, hrun⟩
  · cases hrun
    exact .inl rfl

/-- The merging loop, with `done` flags already taken away. -/
theorem mergeAux_spec {scanlen p hllEnd done : Nat} (hp : 16 ≤ p) (hsize : 13 ≤ h.size) (hdone : h.size + done = hllEnd)
    (hrounds : done + scanlen ≤ 5) (hrun : mergeAux scanlen h p hllEnd = .ok h') :
    Hll.Keeps 12 h h' ∧ h'.size + h'.free = h.size + h.free ∧ 13 ≤ h'.size ∧ h'.size ≤ h.size := by
  induction scanlen generalizing h p done with
  | zero =>
    cases hrun
    exact ⟨Hll.Keeps.refl 12 _, rfl, hsize, Nat.le_refl _⟩
  | succ scanlen ih =>
    rcases mergeAux_round hrun with rfl | ⟨p', hle, hrest⟩ | ⟨b, h₁, h₂, h₃, hlt, hput, hmove, hzero, hrest⟩
    · exact ⟨Hll.Keeps.refl 12 _, rfl, hsize, Nat.le_refl _⟩
    · exact ih (Nat.le_trans hp hle) hsize hdone (by omega) hrest
    · have hp₁ := Hll.patched_of_put hput (show 12 ≤ p + 1 by omega)
      have hp₂ := (Hll.patched_of_move hmove (show 12 ≤ p by omega)).1
      have hs₂ : h₂.size = h.size := hp₂.size.trans hp₁.size
      have hp₃ := Hll.patched_of_put hzero (show 12 ≤ h₂.size - 1 by omega)
      have hp₃ := (hp₁.trans hp₂).trans hp₃
      obtain ⟨hk, hsum, hlow, hhigh⟩ := @ih { h₃ with size := h₃.size - 1, free := h₃.free + 1 } p (done + 1) hp
        (by simp only [hp₃.size]; omega) (by simp only [hp₃.size]; omega) (by omega) hrest
      dsimp only at hsum hhigh
      rw [hp₃.size] at hsum hhigh
      rw [hp₃.free] at hsum
      exact ⟨hp₃.keeps.trans hk, by omega, hlow, by omega⟩

theorem Hll.Room.of_patched {n : Nat} (hr : h.Room) (hp : Hll.Patched n h h') : h'.Room := by
  obtain ⟨hheader, hbound, hsize, hlimit, halloc, hused⟩ := hr
  have hlen := hp.keeps.1
  have hs := hp.size
  have hf := hp.free
  exact ⟨by omega, by omega, by omega, by omega, by omega, by omega⟩

/-- What follows the move of the flags behind the split one. -/
theorem spliceTail_spec {curr prev hllEnd ret : Nat} {tmp : Bytes} {h₁ : Hll} (hcurr : 12 ≤ curr) (hprev : 16 ≤ prev)
    (hsize : 13 ≤ h.size) (hend : h.size = hllEnd) (hp : Hll.Patched 12 h h₁)
    (hrun : (do
      let hll ← h₁.store curr tmp
      let hll ← mergeAux 5 hll prev hllEnd
      let hll ← invalidateCache hll
      .ok (hll, 1)) = .ok (h', ret)) :
    Hll.Keeps 12 h h' ∧ h'.size + h'.free = h.size + h.free ∧ 13 ≤ h'.size ∧ h'.size ≤ h.size ∧ h'.CacheInvalid := by
  obtain ⟨h₂, hstore, hrun⟩ := ok_of_bind hrun
  obtain ⟨h₃, hmerge, hrun⟩ := ok_of_bind hrun
  obtain ⟨h₄, hinv, hrun⟩ := ok_of_bind hrun
  cases hrun
  have hp₂ := hp.trans (Hll.patched_of_store hstore hcurr).1
  obtain ⟨hk₃, hsum, hmin, hmax⟩ := @mergeAux_spec h₂ h₃ 5 prev hllEnd 0 hprev (by rw [hp₂.size]; exact hsize)
    (by rw [hp₂.size]; exact hend) (Nat.le_refl 5) hmerge
  obtain ⟨hp₄, hc⟩ := invalidateCache_spec hinv
  rw [hp₂.size] at hmax hsum
  rw [hp₂.free] at hsum
  refine ⟨(hp₂.keeps.trans hk₃).trans (hp₄.weaken (by decide)).keeps, ?_, ?_, ?_, hc⟩
  · rw [hp₄.size, hp₄.free, hsum]
  · rw [hp₄.size]
    exact hmin
  · rw [hp₄.size]
    exact hmax

theorem spliceFlags_spec {scan : SparseScan} {curr ret : Nat} {tmp : Bytes} (hr : h.Room) (hfree : 5 ≤ h.free)
    (hspace : h.size + 4 ≤ h.mem.length ∨ hllSparseMaxBytes ≤ h.size + h.free) (hb : ScanBounds h scan)
    (hcurr : scan.curr = some curr) (htmp : 1 ≤ tmp.length ∧ tmp.length ≤ 5)
    (hrun : spliceFlags h scan curr tmp = .ok (h', ret)) : h'.Room ∧ Hll.Keeps 12 h h' ∧ h'.CacheInvalid := by
  obtain ⟨hlow, hhigh, hnext⟩ := hb.curr curr hcurr
  obtain ⟨hheader, hbound, hsize, hlimit, halloc, -⟩ := hr
  have hprev : 16 ≤ scan.prev.getD hllHeaderSizeBytes := by
    cases hp : scan.prev with
    | none => exact Nat.le_refl 16
    | some p => exact hb.prev p hp
  rw [spliceFlags] at hrun
  dsimp only at hrun
  obtain ⟨d, hd⟩ : ∃ d, d = (tmp.length : Int) - (if scan.ixzero = true then 2 else 1) := ⟨_, rfl⟩
  have hbounds : -1 ≤ d ∧ d ≤ 4 := by
    split at hd <;> omega
  rw [← hd] at hrun
  obtain ⟨h₀, hh₀⟩ : ∃ h₀ : Hll, h₀ = { h with size := (h.size + d).toNat, free := toU64 (h.free - d) } := ⟨_, rfl⟩
  have hs₀ : h₀.size = (h.size + d).toNat := by rw [hh₀]
  have hm₀ : h₀.mem = h.mem := by rw [hh₀]
  have hf₀ : h₀.free = (h.free - d).toNat := by
    rw [hh₀]
    unfold hllSparseMaxBytes at hlimit
    show toU64 _ = _
    unfold toU64
    omega
  rw [← hh₀] at hrun
  have htail : Hll.Keeps 12 h₀ h' ∧ h'.size + h'.free = h₀.size + h₀.free ∧ 13 ≤ h'.size ∧ h'.size ≤ h₀.size ∧
      h'.CacheInvalid := by
    have hcurr' : 12 ≤ curr := by omega
    have hsize' : 13 ≤ h₀.size := by omega
    split at hrun
    · next next hn =>
      have hlt := (hnext next hn).1
      split at hrun
      · obtain ⟨h₁, hmove, hrun⟩ := ok_of_bind hrun
        exact spliceTail_spec hcurr' hprev hsize' hs₀ (Hll.patched_of_move hmove (by omega)).1 hrun
      · exact spliceTail_spec hcurr' hprev hsize' hs₀ (Hll.Patched.refl 12 _) hrun
    · exact spliceTail_spec hcurr' hprev hsize' hs₀ (Hll.Patched.refl 12 _) hrun
  obtain ⟨hk, hsum, hmin, hmax, hc⟩ := htail
  have hlen := hk.1
  rw [hm₀] at hlen
  refine ⟨⟨by omega, by omega, hmin, by omega, by omega, by omega⟩, ⟨hlen, fun i hi => ?_⟩, hc⟩
  exact (hk.2 i hi).trans (by rw [hm₀])

/-! ### An addition -/

/-- The structure is dense, or it is sparse and has the room that the counters of the block promise. -/
def Hll.Sound (h : Hll) : Prop := h.Dense ∨ (h.enc = some hllSparse ∧ h.Room)

/-- The header and the bytes in use are the same. -/
structure Hll.Same (h h' : Hll) : Prop where
  size : h'.size = h.size
  get : ∀ i, i < h.size ∨ i < 16 → h'.mem[i]? = h.mem[i]?

theorem Hll.Same.refl (h : Hll) : h.Same h := ⟨rfl, fun _ _ => rfl⟩

theorem Hll.Sound.of_patched {n : Nat} (hs : h.Sound) (hn : 5 ≤ n) (hp : Hll.Patched n h h') : h'.Sound := by
  rcases hs with hd | ⟨henc, hr⟩
  · exact .inl (hd.of_keeps hn hp.keeps)
  · exact .inr ⟨(hp.keeps.2 4 (by omega)).trans henc, hr.of_patched hp⟩

theorem addSparse_spec {junk : Nat → UInt8} {regNo ret : Nat} {val : UInt8} (henc : h.enc = some hllSparse)
    (hr : h.Room) (hrun : addSparse junk h regNo val = .ok (h', ret)) : h'.Sound ∧ (h'.CacheInvalid ∨ h.Same h') := by
  rw [addSparse] at hrun
  split at hrun
  · obtain ⟨d, hdensify, hrun⟩ := ok_of_bind hrun
    have hne : h.enc ≠ some hllDense := by
      rw [henc]
      decide
    obtain ⟨hd, hc⟩ := densify_spec hne hdensify
    obtain ⟨hd', rfl | hc'⟩ := addDense_dense hd hrun
    · exact ⟨.inl hd', .inl hc⟩
    · exact ⟨.inl hd', .inl hc'⟩
  · next hsmall =>
    have hroom : h.size + 5 ≤ hllSparseMaxBytes := by
      by_contra hlarge
      exact hsmall (.inr (by omega))
    dsimp only at hrun
    obtain ⟨h₁, hh₁⟩ : ∃ h₁, hllReserve junk h (sparseReserve h) = h₁ := ⟨_, rfl⟩
    obtain ⟨hr₁, hsize₁, hget₁, hfree₁, hspace₁⟩ := hllReserve_spec junk hr hroom h₁ hh₁
    have henc₁ : h₁.enc = some hllSparse := (hget₁ 4 (.inr (by decide))).trans henc
    have hsound₁ : h₁.Sound := .inr ⟨henc₁, hr₁⟩
    rw [sparseReserve] at hh₁
    rw [hh₁] at hrun
    obtain ⟨scan, hscan, hrun⟩ := ok_of_bind hrun
    have hb : ScanBounds h₁ scan := sparseScanAux_bounds (Nat.le_refl 16) .initial rfl hscan
    split at hrun
    · cases hrun
    · next curr hcurr =>
      have hlow := (hb.curr curr hcurr).1
      -- an update in place is a write behind the header
      have hinplace : ∀ {h₂ h₃ : Hll} {b : UInt8}, h₁.put curr b = .ok h₂ → invalidateCache h₂ = .ok h₃ →
          h₃.Sound ∧ (h₃.CacheInvalid ∨ h.Same h₃) := by
        intro h₂ h₃ b hput hinv
        have hp := Hll.patched_of_put hput (show 15 ≤ curr by omega)
        obtain ⟨hp₃, hc⟩ := invalidateCache_spec hinv
        exact ⟨hsound₁.of_patched (by decide) (hp.trans hp₃), .inl hc⟩
      obtain ⟨flag, -, hrun⟩ := ok_of_bind hrun
      split at hrun
      · cases hrun
        exact ⟨hsound₁, .inr ⟨hsize₁, hget₁⟩⟩
      · split at hrun
        · obtain ⟨h₂, hput, hrun⟩ := ok_of_bind hrun
          obtain ⟨h₃, hinv, hrun⟩ := ok_of_bind hrun
          cases hrun
          exact hinplace hput hinv
        · split at hrun
          · obtain ⟨h₂, hput, hrun⟩ := ok_of_bind hrun
            obtain ⟨h₃, hinv, hrun⟩ := ok_of_bind hrun
            cases hrun
            exact hinplace hput hinv
          · obtain ⟨hr', hk, hc⟩ := spliceFlags_spec hr₁ hfree₁ hspace₁ hb hcurr (splitFlags_length _ _ _ _) hrun
            exact ⟨.inr ⟨(hk.2 4 (by decide)).trans henc₁, hr'⟩, .inl hc⟩

theorem hllAdd_spec {junk : Nat → UInt8} {val : Bytes} {ret : Nat} (hs : h.Sound)
    (hrun : hllAdd junk h val = .ok (h', ret)) : h'.Sound ∧ (h'.CacheInvalid ∨ h.Same h') := by
  rw [hllAdd] at hrun
  dsimp only at hrun
  obtain ⟨enc, henc, hrun⟩ := ok_of_bind hrun
  have hread := enc_of_getEnc henc
  obtain ⟨h₁, ret₁, hs₁, hc₁, hrun⟩ : ∃ h₁ ret₁, h₁.Sound ∧ (h₁.CacheInvalid ∨ h.Same h₁) ∧ (do
      if (← getEnc h₁) = hllSparse ∧ h₁.size > hllSparseMaxBytes then do
        let hll ← densify h₁
        .ok (hll, ret₁)
      else .ok (h₁, ret₁)) = .ok (h', ret) := by
    split at hrun
    · next hdense =>
      obtain ⟨⟨h₁, ret₁⟩, hadd, hrun⟩ := ok_of_bind hrun
      refine ⟨h₁, ret₁, ?_, ?_, hrun⟩
      · rcases addDense_spec hadd with rfl | ⟨hp, hc⟩
        · exact hs
        · exact hs.of_patched (by decide) hp
      · rcases addDense_spec hadd with rfl | ⟨hp, hc⟩
        · exact .inr (Hll.Same.refl _)
        · exact .inl hc
    · next hsparse =>
      obtain ⟨⟨h₁, ret₁⟩, hadd, hrun⟩ := ok_of_bind hrun
      rcases hs with hd | ⟨henc', hr⟩
      · rw [hd.enc] at hread
        exact absurd (Option.some.inj hread).symm hsparse
      · obtain ⟨hs₁, hc₁⟩ := addSparse_spec henc' hr hadd
        exact ⟨h₁, ret₁, hs₁, hc₁, hrun⟩
  obtain ⟨enc₁, henc₁, hrun⟩ := ok_of_bind hrun
  split at hrun
  · next hlarge =>
    obtain ⟨h₂, hdensify, hrun⟩ := ok_of_bind hrun
    cases hrun
    have hne : h₁.enc ≠ some hllDense := by
      rw [enc_of_getEnc henc₁, hlarge.1]
      decide
    obtain ⟨hd, hc⟩ := densify_spec hne hdensify
    exact ⟨.inl hd, .inl hc⟩
  · cases hrun
    exact ⟨hs₁, hc₁⟩

/-! ### A count -/

theorem cacheValid_eq_true_iff : cacheValid h = .ok true ↔ ∃ b, h.mem[15]? = some b ∧ b &&& 128 = 0 := by
  unfold cacheValid Hll.get
  cases h.mem[15]? with
  | none => simp [bind, Except.bind]
  | some b => simp [bind, Except.bind]

theorem cacheValid_eq_false_iff : cacheValid h = .ok false ↔ h.CacheInvalid := by
  unfold cacheValid Hll.get Hll.CacheInvalid
  cases h.mem[15]? with
  | none => simp [bind, Except.bind]
  | some b => simp [bind, Except.bind]

theorem leBytes_eq_map (n value : Nat) :
    (List.range n).map (fun i => UInt8.ofNat (value / 256 ^ i)) = leBytes n value := by
  induction n generalizing value with
  | zero => rfl
  | succ n ih =>
    rw [List.range_succ_eq_map, List.map_cons, List.map_map, leBytes, ← ih (value / 256), pow_zero, Nat.div_one]
    congr 1
    refine List.map_congr_left fun i _ => ?_
    rw [Function.comp_apply, Nat.pow_succ', Nat.div_div_eq_div_mul]

/-- The bytes of the block with a count in the cache. -/
theorem getElem?_cached {mem : Bytes} (hlen : 16 ≤ mem.length) (value i : Nat) :
    (mem.take 8 ++ leBytes 8 value ++ mem.drop 16)[i]? =
      if i < 8 then mem[i]? else if i < 16 then (leBytes 8 value)[i - 8]? else mem[i]? := by
  have htake : (mem.take 8).length = 8 := by
    rw [List.length_take]
    omega
  have hbytes := length_leBytes 8 value
  split
  · next hlow =>
    rw [List.append_assoc, List.getElem?_append_left (by omega), List.getElem?_take_of_lt hlow]
  · split
    · rw [List.append_assoc, List.getElem?_append_right (by omega), List.getElem?_append_left (by omega), htake]
    · rw [List.getElem?_append_right (by rw [List.length_append]; omega), List.length_append, htake, hbytes,
        List.getElem?_drop]
      congr 1
      omega

theorem top_byte_valid {value : Nat} (hvalue : value < 2 ^ 63) : UInt8.ofNat (value / 256 ^ 7) &&& 128 = 0 := by
  have hall : ∀ i : Fin 128, UInt8.ofNat i.val &&& 128 = 0 := by decide +kernel
  have hlt : value / 256 ^ 7 < 128 := by omega
  exact hall ⟨value / 256 ^ 7, hlt⟩

theorem getCache_of_slice {bs : Bytes} (hvalid : cacheValid h = .ok true) (hlen : 16 ≤ h.mem.length)
    (hbs : (h.mem.drop 8).take 8 = bs) : getCache h = .ok (leNat 8 bs) := by
  rw [getCache, hvalid, ok_bind, if_pos rfl, Hll.slice, if_pos (by omega), ok_bind, hbs]

/-- The stored count is the one that is read back, and no byte outside the cache changes. -/
theorem setCache_spec {value : Nat} (hrun : setCache h value = .ok h') :
    h'.size = h.size ∧ h'.free = h.free ∧ h'.mem.length = h.mem.length ∧
      (∀ i, i < 8 ∨ 16 ≤ i → h'.mem[i]? = h.mem[i]?) ∧ cacheValid h' = .ok true ∧ getCache h' = .ok value := by
  unfold setCache at hrun
  split at hrun
  · next hvalue =>
    rw [leBytes_eq_map] at hrun
    unfold Hll.store at hrun
    split at hrun
    · next hfits =>
      rw [length_leBytes] at hfits hrun
      cases hrun
      have hget := getElem?_cached hfits value
      have hlen : (h.mem.take 8 ++ leBytes 8 value ++ h.mem.drop 16).length = h.mem.length := by
        rw [List.length_append, List.length_append, length_leBytes, List.length_take, List.length_drop]
        omega
      have hvalid : cacheValid { h with mem := h.mem.take 8 ++ leBytes 8 value ++ h.mem.drop 16 } = .ok true :=
        cacheValid_eq_true_iff.mpr ⟨_, (hget 15).trans rfl, by
          simp only [Nat.div_div_eq_div_mul]
          exact top_byte_valid hvalue⟩
      have hslice : ((h.mem.take 8 ++ leBytes 8 value ++ h.mem.drop 16).drop 8).take 8 = leBytes 8 value := by
        rw [List.append_assoc, List.drop_append_of_le_length (by rw [List.length_take]; omega),
          List.drop_eq_nil_of_le (by rw [List.length_take]; omega), List.nil_append,
          List.take_append_of_le_length (by rw [length_leBytes]), List.take_of_length_le (by rw [length_leBytes])]
      refine ⟨rfl, rfl, hlen, fun i hi => (hget i).trans ?_, hvalid, ?_⟩
      · rcases hi with hlow | hhigh
        · rw [if_pos hlow]
        · rw [if_neg (by omega), if_neg (by omega)]
      · have hcache := getCache_of_slice hvalid (hlen ▸ hfits) hslice
        rwa [leNat_leBytes 8 value (by omega)] at hcache
    · cases hrun
  · cases hrun

theorem Hll.payload_congr (hsize : h'.size = h.size) (hget : ∀ i, 16 ≤ i → i < h.size → h'.mem[i]? = h.mem[i]?) :
    h'.payload = h.payload := by
  ext1 i
  unfold Hll.payload hllHeaderSizeBytes
  rw [List.getElem?_drop, List.getElem?_drop, List.getElem?_take, List.getElem?_take, hsize]
  split
  · next hlt => exact hget _ (by omega) hlt
  · rfl

theorem Hll.Same.payload (hs : h.Same h') : h'.payload = h.payload :=
  Hll.payload_congr hs.size fun i _ hi => hs.get i (.inl hi)

theorem Hll.Same.enc (hs : h.Same h') : h'.enc = h.enc := hs.get 4 (.inr (by decide))

theorem Hll.Same.cacheValid (hs : h.Same h') : cacheValid h' = cacheValid h := by
  unfold CustomRedis.cacheValid Hll.get
  rw [hs.get 15 (.inr (by decide))]

theorem Hll.Same.slice (hs : h.Same h') : (h'.mem.drop 8).take 8 = (h.mem.drop 8).take 8 := by
  ext1 i
  rw [List.getElem?_take, List.getElem?_take]
  split
  · rw [List.getElem?_drop, List.getElem?_drop]
    exact hs.get _ (.inr (by omega))
  · rfl

theorem Hll.Sound.header (hs : h.Sound) : 16 ≤ h.mem.length := by
  rcases hs with hd | ⟨-, hr⟩
  · exact hd.header
  · exact hr.header

/-- A count that comes from the cache changes nothing; one that is computed is stored, outside the registers. -/
theorem hllCount_spec {estimate : Bytes → Nat} {v : Nat} (hs : h.Sound) (hrun : hllCount estimate h = .ok (h', v)) :
    h'.Sound ∧ h'.enc = h.enc ∧ h'.payload = h.payload ∧ getCache h' = .ok v ∧
      (cacheValid h = .ok true ∧ h' = h ∨ cacheValid h = .ok false) := by
  obtain ⟨valid, hvalid, hrun⟩ := ok_of_bind hrun
  split at hrun
  · next htrue =>
    obtain ⟨cache, hcache, hrun⟩ := ok_of_bind hrun
    cases hrun
    exact ⟨hs, rfl, rfl, hcache, .inl ⟨hvalid.trans (by rw [htrue]), rfl⟩⟩
  · next hfalse =>
    obtain ⟨h₁, hset, hrun⟩ := ok_of_bind hrun
    cases hrun
    obtain ⟨hsize, hfree, hlen, hget, -, hcache⟩ := setCache_spec hset
    have hp : Hll.Patched 8 h h' := ⟨⟨hlen, fun i hi => hget i (.inl hi)⟩, hsize, hfree⟩
    refine ⟨hs.of_patched (by decide) hp, hget 4 (.inl (by decide)), ?_, hcache, .inr ?_⟩
    · exact Hll.payload_congr hsize fun i hi _ => hget i (.inr hi)
    · rw [hvalid, Bool.eq_false_of_not_eq_true hfalse]

/-! ### Runs -/

/-- The calls on a structure. An addition may find any bytes in the memory it is given. -/
inductive HllOp where
  | add (junk : Nat → UInt8) (val : Bytes)
  | count

def hllStep (estimate : Bytes → Nat) (h : Hll) : HllOp → M Hll
  | .add junk val => do
    let (h, _) ← hllAdd junk h val
    .ok h
  | .count => do
    let (h, _) ← hllCount estimate h
    .ok h

/-- A valid cache holds what some earlier count has computed, from the encoding and the registers there are now. -/
def Hll.Stored (estimate : Bytes → Nat) (ops : List HllOp) (h : Hll) : Prop :=
  cacheValid h = .ok true → ∃ pre post h₁ h₂ v, ops = pre ++ .count :: post ∧
    run (hllStep estimate) hllInit pre = .ok h₁ ∧ cacheValid h₁ = .ok false ∧
    hllCount estimate h₁ = .ok (h₂, v) ∧ h.enc = h₁.enc ∧ h.payload = h₁.payload ∧ getCache h = .ok v

theorem Hll.Stored.of_same {estimate : Bytes → Nat} {ops : List HllOp} (op : HllOp) (hsound : h.Sound)
    (hst : h.Stored estimate ops) (hs : h.Same h') (hs' : h'.Sound) : h'.Stored estimate (ops ++ [op]) := by
  intro hvalid
  have hbefore : CustomRedis.cacheValid h = .ok true := hs.cacheValid ▸ hvalid
  obtain ⟨pre, post, h₁, h₂, v, hops, hpre, hinv, hcount, henc, hpay, hcache⟩ := hst hbefore
  refine ⟨pre, post ++ [op], h₁, h₂, v, ?_, hpre, hinv, hcount, hs.enc.trans henc, hs.payload.trans hpay, ?_⟩
  · rw [hops, List.append_assoc, List.cons_append]
  · rw [getCache_of_slice hbefore hsound.header rfl] at hcache
    rw [getCache_of_slice hvalid hs'.header hs.slice, hcache]

theorem hllStep_stored {estimate : Bytes → Nat} {ops : List HllOp} {op : HllOp} (hsound : h.Sound)
    (hops : run (hllStep estimate) hllInit ops = .ok h) (hst : h.Stored estimate ops)
    (hstep : hllStep estimate h op = .ok h') : h'.Sound ∧ h'.Stored estimate (ops ++ [op]) := by
  cases op with
  | add junk val =>
    obtain ⟨⟨h₁, ret⟩, hadd, hstep⟩ := ok_of_bind hstep
    cases hstep
    obtain ⟨hs', hinvalid | hsame⟩ := hllAdd_spec hsound hadd
    · refine ⟨hs', fun hvalid => ?_⟩
      rw [cacheValid_eq_false_iff.mpr hinvalid] at hvalid
      cases hvalid
    · exact ⟨hs', hst.of_same _ hsound hsame hs'⟩
  | count =>
    obtain ⟨⟨h₁, v⟩, hcount, hstep⟩ := ok_of_bind hstep
    cases hstep
    obtain ⟨hs', henc, hpay, hcache, ⟨-, rfl⟩ | hinvalid⟩ := hllCount_spec hsound hcount
    · exact ⟨hs', hst.of_same _ hsound (Hll.Same.refl _) hs'⟩
    · exact ⟨hs', fun _ => ⟨ops, [], h, h', v, rfl, hops, hinvalid, hcount, henc, hpay, hcache⟩⟩

theorem hllInit_sound : hllInit.Sound := by
  refine .inr ⟨rfl, ?_⟩
  exact ⟨by decide, by decide, by decide, by decide, by decide, .inl (by decide)⟩

theorem hll_run_stored {estimate : Bytes → Nat} {ops : List HllOp} (hrun : run (hllStep estimate) hllInit ops = .ok h) :
    h.Sound ∧ h.Stored estimate ops := by
  refine Run.history_induction (P := fun ops h => h.Sound ∧ h.Stored estimate ops) ⟨hllInit_sound, ?_⟩ ?_ hrun
  · intro hvalid
    exact nomatch hvalid
  · intro es t e t' hes hP hstep
    exact hllStep_stored hP.1 hes hP.2 hstep

/-- Whatever additions and counts came before: an answer from the cache is the count that was computed when the
encoding and the registers were those of now, an addition that changes one of these leaves the cache invalid, and a
count changes neither. -/
theorem hll_cache_coherent (estimate : Bytes → Nat) (ops : List HllOp) (h : Hll)
    (hrun : run (hllStep estimate) hllInit ops = .ok h) :
    (cacheValid h = .ok true → ∃ pre post h₁ h₂ v, ops = pre ++ .count :: post ∧
      run (hllStep estimate) hllInit pre = .ok h₁ ∧ cacheValid h₁ = .ok false ∧ hllCount estimate h₁ = .ok (h₂, v) ∧
      h.enc = h₁.enc ∧ h.payload = h₁.payload ∧ hllCount estimate h = .ok (h, v)) ∧
    (∀ junk val h' ret, hllAdd junk h val = .ok (h', ret) → h'.enc ≠ h.enc ∨ h'.payload ≠ h.payload →
      cacheValid h' = .ok false) ∧
    (∀ h' v, hllCount estimate h = .ok (h', v) → h'.enc = h.enc ∧ h'.payload = h.payload) := by
  obtain ⟨hsound, hst⟩ := hll_run_stored hrun
  refine ⟨fun hvalid => ?_, fun junk val h' ret hadd hchanged => ?_, fun h' v hcount => ?_⟩
  · obtain ⟨pre, post, h₁, h₂, v, hops, hpre, hinv, hcount, henc, hpay, hcache⟩ := hst hvalid
    refine ⟨pre, post, h₁, h₂, v, hops, hpre, hinv, hcount, henc, hpay, ?_⟩
    rw [hllCount, hvalid, ok_bind, if_pos rfl, hcache, ok_bind]
  · obtain ⟨-, hinvalid | hsame⟩ := hllAdd_spec hsound hadd
    · exact cacheValid_eq_false_iff.mpr hinvalid
    · rcases hchanged with hne | hne
      · exact absurd hsame.enc hne
      · exact absurd hsame.payload hne
  · obtain ⟨-, henc, hpay, -⟩ := hllCount_spec hsound hcount
    exact ⟨henc, hpay⟩

theorem hll_cache_coherent_add_count :
    ∃ h, run (hllStep fun _ => 1) hllInit [.add (fun _ => 0) [97], .count] = .ok h ∧ cacheValid h = .ok true ∧
      ∃ h₁ h₂ v, cacheValid h₁ = .ok false ∧ hllCount (fun _ => 1) h₁ = .ok (h₂, v) ∧ h.enc = h₁.enc ∧
        h.payload = h₁.payload ∧ hllCount (fun _ => 1) h = .ok (h, v) := by
  have hcheck : Run.check (run (hllStep fun _ => 1) hllInit [.add (fun _ => 0) [97], .count])
      (fun h => Run.check (cacheValid h) id) = true := by decide +kernel
  obtain ⟨h, hrun, hvalid⟩ := Run.exists_ok_of_check hcheck
  obtain ⟨b, hvalid, rfl⟩ := Run.exists_ok_of_check hvalid
  obtain ⟨pre, post, h₁, h₂, v, -, -, hrest⟩ := (hll_cache_coherent _ _ h hrun).1 hvalid
  exact ⟨h, hrun, hvalid, h₁, h₂, v, hrest⟩

end Cache

end CustomRedis
