import CustomRedis.Proof.Handlers

/-!
# Faults of the handlers

The index of an argument that is missing, a payload of another type than the node has, and a missing `return`
are faults of the handlers themselves. The operations below the handlers get the value of one type and see
neither the tokens of the request nor a node of the database, so none of them ends in such a fault, whatever
state it is called in. The lemmas are tagged for `simp`, which takes a function apart down to the operations
it calls.
-/

namespace CustomRedis

open Run (Avoids)

/-- The faults that no operation below the handlers raises. -/
def Fault.OfHandler (e : Fault) : Prop :=
  e = .cmdIndex ∨ e = .uninitPayload ∨ e = .nullPayload ∨ e = .missingReturn

@[simp] theorem Fault.ofHandler_iff {e : Fault} :
    e.OfHandler ↔ e = .cmdIndex ∨ e = .uninitPayload ∨ e = .nullPayload ∨ e = .missingReturn := Iff.rfl

/-- A set of faults of the handlers. -/
class HandlerFaults (bad : Fault → Prop) : Prop where
  ofHandler : ∀ {e}, bad e → e.OfHandler

/-- The faults of a handler that uses a payload of another type than the node has. -/
def Fault.OfPayload (e : Fault) : Prop := e = .uninitPayload ∨ e = .nullPayload

instance : DecidablePred Fault.OfPayload := fun e => inferInstanceAs (Decidable (e = .uninitPayload ∨ e = .nullPayload))

instance : HandlerFaults Fault.OfPayload where
  ofHandler h := .inr (h.imp_right .inl)

/-- The fault of a handler that reads a token behind the last one. -/
def Fault.OfArgs (e : Fault) : Prop := e = .cmdIndex

instance : HandlerFaults Fault.OfArgs where
  ofHandler h := .inl h

/-- The computation does not misuse a payload. -/
abbrev PayloadSafe {α : Type} (x : M α) : Prop := Avoids Fault.OfPayload x

variable {bad : Fault → Prop} [HandlerFaults bad]

@[simp] theorem avoids_fault {α : Type} {e : Fault} (h : ¬e.OfHandler) : Avoids bad (.error e : M α) :=
  Run.avoids_error.mpr fun he => h (HandlerFaults.ofHandler he)

/-! ### Strings -/

@[simp] theorem dstrAppend_avoids (str : Dstr) (toadd : Bytes) : Avoids bad (dstrAppend str toadd) := by
  simp [dstrAppend]

@[simp] theorem dstrAssign_avoids (str : Dstr) (toadd : Bytes) : Avoids bad (dstrAssign str toadd) := by
  rw [dstrAssign]
  split <;> simp

@[simp] theorem dstrResize_avoids (str : Dstr) (len : Nat) (pad : UInt8) : Avoids bad (dstrResize str len pad) := by
  simp [dstrResize]

@[simp] theorem dstrCopy_avoids (src : Bytes) : Avoids bad (dstrCopy src) := by
  rw [dstrCopy]
  split <;> simp

/-! ### Hash maps -/

section Hashmap

variable {α : Type}

@[simp] theorem hInit_avoids (n : Nat) : Avoids bad (hInit n : M (HTab α)) := by
  simp [hInit]

@[simp] theorem hmRehash_avoids (hmap : HMap α) : Avoids bad (hmRehash hmap) := by
  simp [hmRehash]

@[simp] theorem chainLookup_avoids (node : Probe) (chain : List (HNode α)) (depth : Nat) :
    Avoids bad (chainLookup node chain depth) := by
  induction chain generalizing depth with
  | nil => exact Run.avoids_ok _
  | cons curr rest ih =>
    rw [chainLookup]
    split
    · split <;> simp [ih]
    · exact ih _

@[simp] theorem htLookup_avoids (htab : HTab α) (node : Probe) : Avoids bad (htLookup htab node) := by
  simp [htLookup]

@[simp] theorem hmLookup_avoids (hmap : HMap α) (key : Probe) : Avoids bad (hmLookup hmap key) := by
  simp only [hmLookup, Run.avoids_bind, htLookup_avoids, true_and]
  intro slot hslot
  split <;> simp
  intro slot hslot
  split <;> simp

@[simp] theorem hmModify_avoids (hmap : HMap α) (key : Probe) (f : α → α) : Avoids bad (hmModify hmap key f) := by
  simp only [hmModify, Run.avoids_bind, htLookup_avoids, true_and]
  intro slot hslot
  split <;> simp
  intro slot hslot
  split <;> simp

variable [Teardown α]

@[simp] theorem hmRehashLoop_avoids (fuel nwork : Nat) (hmap : HMap α) (jobs : List (HNode α)) :
    Avoids bad (hmRehashLoop fuel nwork hmap jobs) := by
  induction fuel generalizing nwork hmap jobs with
  | zero => simp [hmRehashLoop]
  | succ fuel ih =>
    rw [hmRehashLoop]
    split
    · split
      · simp
      · exact ih _ _ _
      · split <;> simp [ih]
    · simp

@[simp] theorem hmRehashHelp_avoids (hmap : HMap α) : Avoids bad (hmRehashHelp hmap) := by
  simp [hmRehashHelp]

@[simp] theorem hmDelete_avoids (hmap : HMap α) (key : Probe) : Avoids bad (hmDelete hmap key) := by
  simp only [hmDelete, Run.avoids_bind, htLookup_avoids, true_and]
  intro slot hslot
  split
  · split <;> simp
  · simp only [Run.avoids_bind, htLookup_avoids, true_and]
    intro slot hslot
    split
    · split <;> simp
    · simp

@[simp] theorem hmInsert_avoids (hmap : HMap α) (node : HNode α) : Avoids bad (hmInsert hmap node) := by
  simp [hmInsert]

end Hashmap

/-! ### Sorted sets -/

section Tree

variable (m : AvlMem)

@[simp] theorem avlNode_avoids (p : Ptr) : Avoids bad (m.node p) := by
  rw [AvlMem.node]
  split <;> simp

@[simp] theorem nonNull_avoids (p : Option Ptr) : Avoids bad (AvlMem.nonNull p) := by
  cases p <;> simp [AvlMem.nonNull]

@[simp] theorem avlModify_avoids (p : Ptr) (f : AVLNode → AVLNode) : Avoids bad (m.modify p f) := by
  simp [AvlMem.modify]

@[simp] theorem setParent_avoids (p par : Option Ptr) : Avoids bad (m.setParent p par) := by
  cases p <;> simp [AvlMem.setParent]

@[simp] theorem avlSize_avoids (p : Option Ptr) : Avoids bad (avlSize m p) := by
  cases p <;> simp [avlSize]

@[simp] theorem avlHeightAux_avoids (fuel : Nat) (p : Option Ptr) : Avoids bad (avlHeightAux fuel m p) := by
  induction fuel generalizing p with
  | zero => cases p <;> simp [avlHeightAux]
  | succ fuel ih => cases p <;> simp [avlHeightAux, ih]

@[simp] theorem avlHeight_avoids (p : Option Ptr) : Avoids bad (avlHeight m p) := avlHeightAux_avoids m _ p

@[simp] theorem updateNode_avoids (p : Ptr) : Avoids bad (updateNode m p) := by
  simp [updateNode]

@[simp] theorem rotateLeft_avoids (p : Ptr) : Avoids bad (rotateLeft m p) := by
  simp [rotateLeft]

@[simp] theorem rotateRight_avoids (p : Ptr) : Avoids bad (rotateRight m p) := by
  simp [rotateRight]

@[simp] theorem avlFixNode_avoids (p : Ptr) : Avoids bad (avlFixNode m p) := by
  simp [avlFixNode]

@[simp] theorem replaceChild_avoids (parent old : Ptr) (new : Option Ptr) :
    Avoids bad (replaceChild m parent old new) := by
  simp [replaceChild]

@[simp] theorem avlFixAux_avoids (fuel : Nat) (p : Ptr) : Avoids bad (avlFixAux fuel m p) := by
  induction fuel generalizing m p with
  | zero => simp [avlFixAux]
  | succ fuel ih =>
    simp only [avlFixAux, Run.avoids_bind, avlNode_avoids, avlFixNode_avoids, true_and, Prod.forall]
    intro c hc m' newNode hfix
    split <;> simp [ih]

@[simp] theorem avlFix_avoids (p : Ptr) : Avoids bad (avlFix m p) := avlFixAux_avoids m _ p

@[simp] theorem delSimple_avoids (p : Ptr) : Avoids bad (delSimple m p) := by
  simp only [delSimple, Run.avoids_bind, avlNode_avoids, true_and, Run.avoids_ite, setParent_avoids]
  refine fun c hc => ⟨by simp, fun hboth m' hm' => ?_⟩
  split <;> simp

@[simp] theorem leftmostAux_avoids (fuel : Nat) (p : Ptr) : Avoids bad (leftmostAux fuel m p) := by
  induction fuel generalizing p with
  | zero => simp [leftmostAux]
  | succ fuel ih =>
    simp only [leftmostAux, Run.avoids_bind, avlNode_avoids, true_and]
    intro c hc
    split <;> simp [ih]

@[simp] theorem takePlace_avoids (toDelete victim : Ptr) : Avoids bad (takePlace m toDelete victim) := by
  simp only [takePlace, Run.avoids_bind, avlNode_avoids, avlModify_avoids, setParent_avoids, true_and]
  intro c hc m₁ h₁ m₂ h₂ m₃ h₃
  split <;> simp

@[simp] theorem avlDel_avoids (p : Ptr) : Avoids bad (avlDel m p) := by
  simp only [avlDel, Run.avoids_bind, avlNode_avoids, true_and]
  intro c hc
  split <;> simp

end Tree

section Zset

variable (z : ZSet)

@[simp] theorem znode_avoids (p : Ptr) : Avoids bad (z.znode p) := by
  rw [ZSet.znode]
  split <;> simp

@[simp] theorem zsetLookup_avoids (key : Bytes) : Avoids bad (zsetLookup z key) := by
  simp [zsetLookup]

@[simp] theorem zsetDelete_avoids (p : Ptr) : Avoids bad (zsetDelete z p) := by
  simp [zsetDelete]

@[simp] theorem insertLink_avoids (fuel : Nat) (above : Option (Ptr × Bool)) (p : Option Ptr) (score : Double) (key : Bytes) :
    Avoids bad (insertLink fuel z above p score key) := by
  induction fuel generalizing above p with
  | zero => cases p <;> simp [insertLink]
  | succ fuel ih => cases p <;> simp [insertLink, ih]

@[simp] theorem attach_avoids (m : AvlMem) (link : Option (Ptr × Bool)) (p : Ptr) : Avoids bad (attach m link p) := by
  unfold attach
  split <;> simp

@[simp] theorem zsetAdd_avoids (score : Double) (key : Bytes) : Avoids bad (zsetAdd z score key) := by
  simp [zsetAdd]

@[simp] theorem zsetInsert_avoids (score : Double) (key : Bytes) : Avoids bad (zsetInsert z score key) := by
  simp only [zsetInsert, Run.avoids_bind, zsetLookup_avoids, true_and]
  intro p hp
  split <;> simp

@[simp] theorem zsetLowerBoundAux_avoids (fuel : Nat) (lb p : Option Ptr) (score : Double) (key : Bytes) :
    Avoids bad (zsetLowerBoundAux fuel z lb p score key) := by
  induction fuel generalizing lb p with
  | zero => cases p <;> simp [zsetLowerBoundAux]
  | succ fuel ih => cases p <;> simp [zsetLowerBoundAux, ih]

@[simp] theorem zsetLowerBound_avoids (score : Double) (key : Bytes) : Avoids bad (zsetLowerBound z score key) :=
  zsetLowerBoundAux_avoids z _ _ _ _ _

@[simp] theorem zsetOffsetAux_avoids (fuel : Nat) (p : Ptr) (rank offset : Int) :
    Avoids bad (zsetOffsetAux fuel z p rank offset) := by
  induction fuel generalizing p rank with
  | zero => simp [zsetOffsetAux]
  | succ fuel ih =>
    simp only [zsetOffsetAux, Run.avoids_ite, Run.avoids_ok, Run.avoids_bind, avlNode_avoids, avlSize_avoids,
      nonNull_avoids, ih, implies_true, true_and]
    intro hne c hc left hleft right hright hdown hup
    split <;> simp [ih]

@[simp] theorem zsetOffset_avoids (p : Ptr) (offset : Int) : Avoids bad (zsetOffset z p offset) :=
  zsetOffsetAux_avoids z _ _ _ _

end Zset

/-! ### Deadlines -/

section Heap

variable (heap : Heap)

@[simp] theorem heapGet_avoids (i : Nat) : Avoids bad (heap.get i) := by
  rw [Heap.get]
  split <;> simp

@[simp] theorem heapPut_avoids (pos : Nat) (node : HeapNode) : Avoids bad (heap.put pos node) := by
  simp [Heap.put]

@[simp] theorem heapUpAux_avoids (fuel : Nat) (node : HeapNode) (pos : Nat) :
    Avoids bad (heapUpAux fuel heap node pos) := by
  induction fuel generalizing heap pos with
  | zero => simp [heapUpAux]
  | succ fuel ih => simp [heapUpAux, ih]

@[simp] theorem heapDownAux_avoids (fuel : Nat) (node : HeapNode) (pos : Nat) :
    Avoids bad (heapDownAux fuel heap node pos) := by
  induction fuel generalizing heap pos with
  | zero => simp [heapDownAux]
  | succ fuel ih => simp [heapDownAux, ih]

@[simp] theorem heapFix_avoids (pos : Nat) : Avoids bad (heapFix heap pos) := by
  simp [heapFix, heapUp, heapDown]

@[simp] theorem setTtl_avoids (now : Nat) (node : Ptr) (ttl : Nat) : Avoids bad (setTtl heap now node ttl) := by
  simp [setTtl]

@[simp] theorem remTtl_avoids (node : Ptr) : Avoids bad (remTtl heap node) := by
  rw [remTtl]
  split
  · simp
  · split <;> simp

end Heap

/-! ### Lists -/

section List

variable (m : DListMem Bytes)

@[simp] theorem dlistNode_avoids (p : Ptr) : Avoids bad (m.node p) := by
  rw [DListMem.node]
  split <;> simp

@[simp] theorem dlistDeref_avoids (p : Option Ptr) : Avoids bad (m.deref p) := by
  cases p <;> simp [DListMem.deref]

@[simp] theorem setNext_avoids (p : Ptr) (next : Option Ptr) : Avoids bad (m.setNext p next) := by
  simp [DListMem.setNext, DListMem.modify]

@[simp] theorem setPrev_avoids (p : Ptr) (prev : Option Ptr) : Avoids bad (m.setPrev p prev) := by
  simp [DListMem.setPrev, DListMem.modify]

@[simp] theorem setNextIf_avoids (p next : Option Ptr) : Avoids bad (m.setNext? p next) := by
  cases p <;> simp [DListMem.setNext?]

@[simp] theorem setPrevIf_avoids (p prev : Option Ptr) : Avoids bad (m.setPrev? p prev) := by
  cases p <;> simp [DListMem.setPrev?]

@[simp] theorem dlistInsertBefore_avoids (target node : Ptr) : Avoids bad (dlistInsertBefore m target node) := by
  simp [dlistInsertBefore]

@[simp] theorem dlistInsertAfter_avoids (target node : Ptr) : Avoids bad (dlistInsertAfter m target node) := by
  simp [dlistInsertAfter]

end List

/-! ### HyperLogLogs -/

section Hll

variable (hll : Hll)

@[simp] theorem hllGet_avoids (i : Nat) : Avoids bad (hll.get i) := by
  rw [Hll.get]
  split <;> simp

@[simp] theorem hllPut_avoids (i : Nat) (b : UInt8) : Avoids bad (hll.put i b) := by
  simp [Hll.put]

@[simp] theorem hllSlice_avoids (i n : Nat) : Avoids bad (hll.slice i n) := by
  simp [Hll.slice]

@[simp] theorem hllStore_avoids (i : Nat) (bs : Bytes) : Avoids bad (hll.store i bs) := by
  simp [Hll.store]

@[simp] theorem hllMove_avoids (dst src n : Nat) : Avoids bad (hll.move dst src n) := by
  simp [Hll.move]

@[simp] theorem getEnc_avoids : Avoids bad (getEnc hll) := hllGet_avoids hll 4

@[simp] theorem cacheValid_avoids : Avoids bad (cacheValid hll) := by
  simp [cacheValid]

@[simp] theorem invalidateCache_avoids : Avoids bad (invalidateCache hll) := by
  simp [invalidateCache]

@[simp] theorem setCache_avoids (value : Nat) : Avoids bad (setCache hll value) := by
  simp [setCache]

@[simp] theorem getCache_avoids : Avoids bad (getCache hll) := by
  simp [getCache]

@[simp] theorem getReg_avoids (regNo : Nat) : Avoids bad (getReg hll regNo) := by
  simp [getReg]

@[simp] theorem setReg_avoids (regNo : Nat) (value : UInt32) : Avoids bad (setReg hll regNo value) := by
  simp [setReg]

@[simp] theorem addDense_avoids (regNo : Nat) (val : UInt8) : Avoids bad (addDense hll regNo val) := by
  simp [addDense]

@[simp] theorem setRegs_avoids (regNo : Nat) (val : UInt8) (cnt : Nat) : Avoids bad (setRegs hll regNo val cnt) := by
  induction cnt generalizing hll regNo with
  | zero => simp [setRegs]
  | succ cnt ih => simp [setRegs, ih]

@[simp] theorem densifyAux_avoids (fuel : Nat) (dhll : Hll) (regNo flagNo : Nat) :
    Avoids bad (densifyAux fuel hll dhll regNo flagNo) := by
  induction fuel generalizing dhll regNo flagNo with
  | zero => simp [densifyAux]
  | succ fuel ih => simp [densifyAux, ih]

@[simp] theorem densify_avoids : Avoids bad (densify hll) := by
  simp [densify]

@[simp] theorem sparseScanAux_avoids (fuel regNo fn idx : Nat) (scan : SparseScan) :
    Avoids bad (sparseScanAux fuel hll regNo fn idx scan) := by
  induction fuel generalizing fn idx scan with
  | zero => simp [sparseScanAux]
  | succ fuel ih => simp [sparseScanAux, ih]

@[simp] theorem mergeAux_avoids (scanlen p hllEnd : Nat) : Avoids bad (mergeAux scanlen hll p hllEnd) := by
  induction scanlen generalizing hll p with
  | zero => simp [mergeAux]
  | succ scanlen ih => simp [mergeAux, ih]

@[simp] theorem spliceFlags_avoids (scan : SparseScan) (curr : Nat) (tmp : Bytes) :
    Avoids bad (spliceFlags hll scan curr tmp) := by
  rw [spliceFlags]
  split <;> simp

@[simp] theorem addSparse_avoids (junk : Nat → UInt8) (regNo : Nat) (val : UInt8) :
    Avoids bad (addSparse junk hll regNo val) := by
  simp only [addSparse, Run.avoids_ite, Run.avoids_bind, densify_avoids, addDense_avoids, sparseScanAux_avoids,
    implies_true, true_and]
  intro hsparse scan hscan
  split <;> simp

@[simp] theorem hllAdd_avoids (junk : Nat → UInt8) (val : Bytes) : Avoids bad (hllAdd junk hll val) := by
  simp [hllAdd]

@[simp] theorem hllCount_avoids (estimate : Bytes → Nat) : Avoids bad (hllCount estimate hll) := by
  simp [hllCount]

end Hll

/-! ### The keyspace -/

section Keyspace

variable (env : Env) (g : GlobalData) (key : Bytes)

@[simp] theorem findNode_avoids : Avoids bad (findNode g key) := by
  simp [findNode]

@[simp] theorem insertNode_avoids (payload : Payload) : Avoids bad (insertNode env g key payload) := by
  simp [insertNode, newNode]

@[simp] theorem putPayload_avoids (payload : Payload) : Avoids bad (putPayload g key payload) := by
  simp [putPayload]

@[simp] theorem findOrInsert_avoids (payload : Payload) : Avoids bad (findOrInsert env g key payload) := by
  simp only [findOrInsert, Run.avoids_bind, findNode_avoids, true_and]
  intro node hnode
  split
  · simp
  · simp only [Run.avoids_bind, insertNode_avoids, findNode_avoids, true_and]
    intro g' hg' node hnode
    split <;> simp

@[simp] theorem deleteNode_avoids (probe : Probe) : Avoids bad (deleteNode g probe) := by
  simp only [deleteNode, Run.avoids_bind, hmLookup_avoids, true_and]
  intro node hnode
  split <;> simp

end Keyspace

/-! ### The handlers -/

section Handlers

@[simp] theorem zrangeLoop_avoids (fuel : Nat) (z : ZSet) (p : Option Ptr) (size limit : Nat) (out : Bytes) :
    Avoids bad (zrangeLoop fuel z p size limit out) := by
  induction fuel generalizing p size out with
  | zero => cases p <;> simp [zrangeLoop]
  | succ fuel ih => cases p <;> simp [zrangeLoop, ih]

@[simp] theorem newStr_avoids (val : Bytes) : Avoids bad (newStr val) := by
  rw [newStr]
  split <;> simp

@[simp] theorem pushNode_avoids (l : DList) (side : Side) (value : Bytes) : Avoids bad (pushNode l side value) := by
  simp only [pushNode, Run.avoids_bind, dstrCopy_avoids, true_and, Run.avoids_ite, Run.avoids_ok, implies_true]
  intro val hval hsize
  split
  · split <;> simp
  · split <;> simp

@[simp] theorem popLoop_avoids (n : Nat) (l : DList) (side : Side) (out : Bytes) : Avoids bad (popLoop n l side out) := by
  induction n generalizing l out with
  | zero => simp [popLoop]
  | succ n ih => cases side <;> simp [popLoop, popNode, ih]

@[simp] theorem walkPrev_avoids (m : DListMem Bytes) (n : Nat) (p : Option Ptr) : Avoids bad (walkPrev m n p) := by
  induction n generalizing p with
  | zero => simp [walkPrev]
  | succ n ih => simp [walkPrev, ih]

@[simp] theorem walkNext_avoids (m : DListMem Bytes) (n : Nat) (p : Option Ptr) : Avoids bad (walkNext m n p) := by
  induction n generalizing p with
  | zero => simp [walkNext]
  | succ n ih => simp [walkNext, ih]

@[simp] theorem lrangeLoop_avoids (m : DListMem Bytes) (n : Nat) (p : Option Ptr) (out : Bytes) :
    Avoids bad (lrangeLoop m n p out) := by
  induction n generalizing p out with
  | zero => simp [lrangeLoop]
  | succ n ih => simp [lrangeLoop, ih]

@[simp] theorem byteAt_avoids (bitmap : Dstr) (i : Int) : Avoids bad (byteAt bitmap i) := by
  simp [byteAt]

@[simp] theorem setBit_avoids (bitmap : Dstr) (bitIdx : Nat) (one : Bool) : Avoids bad (setBit bitmap bitIdx one) := by
  simp [setBit]

@[simp] theorem bitcountBytes_avoids (bitmap : Dstr) (n : Nat) (i : Int) (ret : Nat) :
    Avoids bad (bitcountBytes bitmap n i ret) := by
  induction n generalizing i ret with
  | zero => simp [bitcountBytes]
  | succ n ih => simp [bitcountBytes, ih]

@[simp] theorem bitcountBits_avoids (bitmap : Dstr) (n : Nat) (i : Int) (ret : Nat) :
    Avoids bad (bitcountBits bitmap n i ret) := by
  induction n generalizing i ret with
  | zero => simp [bitcountBits]
  | succ n ih => simp [bitcountBits, ih]

/-- The commands that look at the type of a node before they use its payload. -/
def Command.checksType : Command → Bool
  | .get | .set | .hgetall | .zscore | .zrem | .zquery => false
  | _ => true

/-- The number of tokens that a handler reads in any case. -/
def Command.argc : Command → Nat
  | .get | .del | .hgetall | .ttl | .persist | .smembers | .scard | .bitcount | .pfcount => 2
  | .set | .hget | .hdel | .expire | .zscore | .zrem | .lpush | .rpush | .lpop | .rpop | .sadd | .srem
  | .getbit | .pfadd => 3
  | .hset | .zadd | .zquery | .lrange | .setbit => 4
  | .keys | .pfmerge | .todo | .unknown => 0

variable {env : Env} {g : GlobalData} {out : Bytes} {cmd : List Bytes} {c : Command}

/-- A command with a check raises at most the faults of its arguments. -/
theorem checked_avoids (harg : ∀ i < c.argc, Avoids bad (arg cmd i)) (hret : ¬bad .missingReturn)
    (hc : c.checksType = true) : Avoids bad (runCommand env g out cmd c) := by
  cases c with
  | get | set | hgetall | zscore | zrem | zquery => cases hc
  | keys | todo | unknown => exact Run.avoids_ok _
  | pfmerge => exact Run.avoids_error.mpr hret
  | del => simp [runCommand, doDel, harg 1 (by decide)]
  | expire =>
    simp only [runCommand, doExpire, Run.avoids_bind, harg 1 (by decide), harg 2 (by decide), findNode_avoids,
      true_and]
    intros
    split <;> simp
  | ttl =>
    simp only [runCommand, doTtl, Run.avoids_bind, harg 1 (by decide), findNode_avoids, true_and]
    intros
    split
    · simp
    · split <;> simp
  | persist =>
    simp only [runCommand, doPersist, Run.avoids_bind, harg 1 (by decide), findNode_avoids, true_and]
    intros
    split <;> simp
  | hset =>
    simp only [runCommand, doHset, Run.avoids_bind, harg 1 (by decide), harg 2 (by decide), harg 3 (by decide),
      findOrInsert_avoids, true_and, Prod.forall]
    intros
    split
    · simp only [Run.avoids_bind, dstrCopy_avoids, hmLookup_avoids, true_and]
      intros
      split <;> simp
    · simp
  | hget =>
    simp only [runCommand, doHget, Run.avoids_bind, harg 1 (by decide), harg 2 (by decide), findNode_avoids,
      true_and]
    intros
    split
    · simp
    · split
      · simp only [Run.avoids_bind, dstrCopy_avoids, hmLookup_avoids, true_and]
        intros
        split <;> simp
      · simp
  | hdel =>
    simp only [runCommand, doHdel, Run.avoids_bind, harg 1 (by decide), harg 2 (by decide), findNode_avoids,
      true_and]
    intros
    split
    · simp
    · split <;> simp
  | zadd =>
    simp only [runCommand, doZadd, Run.avoids_bind, harg 1 (by decide), harg 2 (by decide), harg 3 (by decide),
      findOrInsert_avoids, true_and, Prod.forall]
    intros
    split <;> simp
  | lpush | rpush | sadd | pfadd =>
    simp only [runCommand, doPush, doSadd, doPfadd, Run.avoids_bind, harg 1 (by decide), harg 2 (by decide),
      findOrInsert_avoids, true_and, Prod.forall]
    intros
    split <;> simp
  | lrange =>
    simp only [runCommand, doLrange, Run.avoids_bind, harg 1 (by decide), harg 2 (by decide), harg 3 (by decide),
      findNode_avoids, true_and]
    intros
    split
    · simp
    · split <;> simp
  | lpop | rpop =>
    simp only [runCommand, doPop, Run.avoids_bind, harg 1 (by decide), harg 2 (by decide), findNode_avoids, true_and]
    intros
    split
    · simp
    · split <;> simp
  | srem =>
    simp only [runCommand, doSrem, Run.avoids_bind, harg 1 (by decide), harg 2 (by decide), findNode_avoids,
      true_and]
    intros
    split <;> simp
  | smembers | scard =>
    simp only [runCommand, doSmembers, doScard, Run.avoids_bind, harg 1 (by decide), findNode_avoids, true_and]
    intros
    split <;> simp
  | setbit =>
    simp only [runCommand, doSetbit, Run.avoids_bind, harg 1 (by decide), harg 2 (by decide), harg 3 (by decide),
      true_and]
    intros
    split
    · simp
    · simp only [Run.avoids_bind, findOrInsert_avoids, true_and, Prod.forall]
      intros
      split
      · simp only [Run.avoids_ite, Run.avoids_ok, Run.avoids_bind, setBit_avoids, implies_true, true_and]
        intros
        split <;> simp
      · simp
  | getbit =>
    simp only [runCommand, doGetbit, Run.avoids_bind, harg 1 (by decide), harg 2 (by decide), findNode_avoids,
      true_and]
    intro key hkey bitPos hpos node hnode
    rcases validateHmnode_cases out node .bitmap with ⟨mes, ret, hv⟩ | ⟨⟨hcode, nkey, addr, payload⟩, rfl, htype, hv⟩
    · simp [hv]
    · rw [hv]
      cases payload with
      | bitmap b => simp
      | _ => cases htype
  | bitcount =>
    simp only [runCommand, doBitcount, Run.avoids_bind, harg 1 (by decide), findNode_avoids, true_and]
    intro key hkey node hnode
    rcases validateHmnode_cases out node .bitmap with ⟨mes, ret, hv⟩ | ⟨⟨hcode, nkey, addr, payload⟩, rfl, htype, hv⟩
    · simp [hv]
    · rw [hv]
      cases payload with
      | bitmap b => simp
      | _ => cases htype
  | pfcount =>
    simp only [runCommand, doPfcount, Run.avoids_bind, harg 1 (by decide), findNode_avoids, true_and]
    intro key hkey node hnode
    rcases validateHmnode_cases out node .hll with ⟨mes, ret, hv⟩ | ⟨⟨hcode, nkey, addr, payload⟩, rfl, htype, hv⟩
    · simp [hv]
    · rw [hv]
      cases payload with
      | hll l => simp
      | _ => cases htype

/-- A command without a check raises at most the faults of its arguments and of its payload. -/
theorem unchecked_avoids (harg : ∀ i < c.argc, Avoids bad (arg cmd i)) (huninit : ¬bad .uninitPayload)
    (hnull : ¬bad .nullPayload) (hc : c.checksType = false) : Avoids bad (runCommand env g out cmd c) := by
  have hderef : ∀ z, Avoids bad (derefZset z) := by
    intro z
    cases z with
    | none => exact Run.avoids_error.mpr hnull
    | some z => exact Run.avoids_ok z
  have hzset : ∀ key, Avoids bad (findZset g key) := by
    intro key
    simp only [findZset, Run.avoids_bind, findNode_avoids, true_and]
    intros
    split
    · simp
    · split <;> simp
  cases c with
  | get | hgetall =>
    simp only [runCommand, doGet, doHgetall, Run.avoids_bind, harg 1 (by decide), findNode_avoids, true_and]
    intros
    split
    · simp
    · split <;> simp [Run.avoids_error, huninit]
  | set =>
    simp only [runCommand, doSet, Run.avoids_bind, harg 1 (by decide), harg 2 (by decide), findNode_avoids, true_and]
    intros
    split
    · split <;> simp [Run.avoids_error, huninit]
    · simp
  | zscore | zrem =>
    simp only [runCommand, doZscore, doZrem, Run.avoids_bind, harg 1 (by decide), harg 2 (by decide), hzset,
      hderef, zsetLookup_avoids, true_and]
    intros
    split <;> simp
  | zquery =>
    simp only [runCommand, doZrangequery, Run.avoids_bind, harg 1 (by decide), harg 2 (by decide),
      harg 3 (by decide), hzset, hderef, zsetLowerBound_avoids, true_and]
    intros
    split <;> simp
  | _ => cases hc

end Handlers

end CustomRedis
