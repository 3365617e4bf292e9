import CustomRedis.Proof.Creation
import CustomRedis.Proof.OneKey

/-!
# Who owns a node that is torn down later

`ht_unlink` hands a node with a large payload to the thread pool and returns it to its caller all the same.
`hm_delete` then frees it, and the migration links it again, so whenever the worker gets to run after the
command, the node is gone or is still in the database. The only runs in which no worker touches such a node
are the ones in which nothing large is unlinked: then nothing is ever handed over, and between the commands
and inside them the workers find no work.
-/

namespace CustomRedis

open Run

/-- A payload that `ht_unlink` does not tear down itself. -/
abbrev HNode.Large (n : HNode Entry) : Prop := Teardown.weight n.val ≥ largeSizeTreshold

/-- Every node that waits for a worker is allocated and no longer linked. -/
def TeardownOwned (g : GlobalData) : Prop :=
  ∀ addr ∈ g.queue, (g.ttl.refs.read addr).isSome ∧ addr ∉ g.links.map Prod.snd

/-- The event unlinks no large node: `DEL` of a key, the migration in the insert of a new one, a deadline that has
passed. -/
def SparesLarge (g : GlobalData) : Event → Prop
  | .request _ r =>
    (commandOf r.tokens = .del → ∀ n ∈ g.nodeOf (keyOf r.tokens), ¬n.Large) ∧
    ((commandOf r.tokens).Creates → g.nodeOf (keyOf r.tokens) = none →
      ∀ n ∈ hmMoves g.db (freshNode g (keyOf r.tokens) (newPayload r.tokens (commandOf r.tokens))), ¬n.Large)
  | .tick now => ∀ e ∈ g.ttl.entries, e.val < now → ∀ n ∈ g.db.nodes, n.val.addr = e.posRef → ¬n.Large
  | .work => True

instance decidableSparesLarge (g : GlobalData) : (e : Event) → Decidable (SparesLarge g e)
  | .request _ r => inferInstanceAs (Decidable (
    (commandOf r.tokens = .del → ∀ n ∈ g.nodeOf (keyOf r.tokens), ¬n.Large) ∧
    ((commandOf r.tokens).Creates → g.nodeOf (keyOf r.tokens) = none →
      ∀ n ∈ hmMoves g.db (freshNode g (keyOf r.tokens) (newPayload r.tokens (commandOf r.tokens))), ¬n.Large)))
  | .tick now => inferInstanceAs (Decidable (
    ∀ e ∈ g.ttl.entries, e.val < now → ∀ n ∈ g.db.nodes, n.val.addr = e.posRef → ¬n.Large))
  | .work => isTrue trivial

/-! ### Nothing is handed over -/

theorem handedOver_of_small {n : HNode Entry} (h : ¬n.Large) : handedOver n = [] := if_neg h

theorem Inserted.queue_eq {env : Env} {g g' : GlobalData} {key : Bytes} {payload : Payload}
    (hi : Inserted env g key payload g') (h : ∀ n ∈ hmMoves g.db (freshNode g key payload), ¬n.Large) :
    g'.queue = g.queue := by
  have hjobs : (hmMoves g.db (freshNode g key payload)).flatMap handedOver = [] := by
    rw [List.flatMap_eq_nil_iff]
    exact fun n hn => handedOver_of_small (h n hn)
  rw [hi.queue, hjobs, List.map_nil, List.append_nil]

theorem Deleted.queue_eq {g g' : GlobalData} {n : HNode Entry} (hd : Deleted g n g') (h : ¬n.Large) :
    g'.queue = g.queue := by
  rw [hd.queue, handedOver_of_small h, List.map_nil, List.append_nil]

/-- A hash that has just lost its last field is not large. -/
theorem Written.small_of_empty {g g' : GlobalData} {key : Bytes} {hmap : HMap Dstr} {n : HNode Entry}
    (hw : Written g key (.hset hmap) g') (hempty : hmSize hmap = 0) (hn : g'.nodeOf key = some n) : ¬n.Large := by
  rw [GlobalData.nodeOf, hw.find, Option.map_eq_some_iff] at hn
  obtain ⟨m, -, rfl⟩ := hn
  rw [if_pos rfl]
  have hweight : Teardown.weight ({ m.val with payload := .hset hmap } : Entry) = 0 := hempty
  rw [HNode.Large, hweight]
  decide

theorem Outcome.queue_eq {env : Env} {g g' : GlobalData} {r : Request} {out out' : Bytes}
    (hok : SparesLarge g (.request env r)) (ho : Outcome env g out r.tokens (commandOf r.tokens) g' out') :
    g'.queue = g.queue := by
  obtain ⟨hdel, hmoves⟩ := hok
  generalize commandOf r.tokens = c at ho hdel hmoves
  cases ho with
  | replied _ _ => rfl
  | missing => rfl
  | refused _ _ => rfl
  | written _ _ _ _ hw => exact hw.queue
  | created hc _ hnode hi => exact hi.queue_eq (hmoves hc hnode)
  | filled hc _ hnode hi _ _ hw => exact hw.queue.trans (hi.queue_eq (hmoves hc hnode))
  | halfway _ hnode _ hi => exact hi.queue_eq (hmoves trivial hnode)
  | deleted _ hnode hd => exact hd.queue_eq (hdel rfl _ hnode)
  | emptied _ _ _ _ hempty hw hnode' hd => exact (hd.queue_eq (hw.small_of_empty hempty hnode')).trans hw.queue
  | expires _ _ _ => rfl
  | persists _ _ _ => rfl

/-- The timers unlink nodes whose deadline has passed and no others. -/
theorem expireEntries_queue {k now : Nat} {g g' : GlobalData} (h : g.WF) (hok : SparesLarge g (.tick now))
    (hrun : expireEntries k g now = .ok g') : g'.queue = g.queue := by
  induction k generalizing g with
  | zero =>
    cases hrun
    rfl
  | succ k ih =>
    rw [expireEntries] at hrun
    split at hrun
    · cases hrun
      rfl
    · next e rest hentries =>
      split at hrun
      · next hdue =>
        obtain ⟨n, hnode, hrun⟩ := ok_of_bind hrun
        obtain ⟨ttl, httl, hrun⟩ := ok_of_bind hrun
        obtain ⟨⟨g₁, deleted⟩, hdel, hrun⟩ := ok_of_bind hrun
        obtain ⟨hn, haddr⟩ := nodeAt_ok hnode
        obtain ⟨hlive, hsub⟩ := remTtl_ok httl
        have hwf : ({ g with ttl := ttl } : GlobalData).WF := h.withTtl hlive
        have hfind : ({ g with ttl := ttl } : GlobalData).db.find (n.hcode, cstr n.key) = some n :=
          h.db.find_eq_some.mpr ⟨hn, rfl⟩
        have hsmall : ¬n.Large := hok e (hentries ▸ List.mem_cons_self) hdue n hn haddr
        rcases deleteNode_spec hwf n.hcode n.key with ⟨hnone, -⟩ | ⟨n', g₂, hn', hdel', hd⟩
        · cases hfind.symm.trans hnone
        · cases hfind.symm.trans hn'
          cases hdel'.symm.trans hdel
          have hok₁ : SparesLarge g₁ (.tick now) := by
            intro e' he' hdue' m hm
            rw [hd.ttl] at he'
            rw [hd.nodes] at hm
            exact hok e' (hsub e' he') hdue' m (List.mem_of_mem_filter hm)
          exact (ih hd.wf hok₁ hrun).trans (hd.queue_eq hsmall)
      · cases hrun
        rfl

theorem serverStep_queue {g g' : GlobalData} {e : Event} (h : g.WF) (hqueue : g.queue = []) (hok : SparesLarge g e)
    (hrun : serverStep g e = .ok g') : g'.queue = [] := by
  cases e with
  | request env r =>
    obtain ⟨⟨g₁, out⟩, hres, hrun⟩ := ok_of_bind hrun
    cases hrun
    exact ((respond_outcome h hres).queue_eq hok).trans hqueue
  | tick now => exact (expireEntries_queue h hok hrun).trans hqueue
  | work =>
    rw [serverStep, workerStep, hqueue] at hrun
    cases hrun
    exact hqueue

/-! ### Runs -/

/-- In every run in which no event unlinks a large node, every state leaves the workers only nodes that are
allocated and unlinked. -/
theorem teardown_owned {es : List Event} {g : GlobalData} (hok : Along serverStep SparesLarge {} es)
    (hrun : run serverStep {} es = .ok g) : TeardownOwned g := by
  have hstep : ∀ g e g', (g.WF ∧ g.Shaped) ∧ g.queue = [] → SparesLarge g e → serverStep g e = .ok g' →
      (g'.WF ∧ g'.Shaped) ∧ g'.queue = [] := by
    intro g e g' h hspares hrun
    exact ⟨serverStep_invariant h.1 hrun, serverStep_queue h.1.1 h.2 hspares hrun⟩
  have hstart : (({} : GlobalData).WF ∧ ({} : GlobalData).Shaped) ∧ ({} : GlobalData).queue = [] :=
    ⟨⟨GlobalData.WF.empty, nofun⟩, rfl⟩
  obtain ⟨-, hqueue⟩ := invariant_along hstep hstart hok hrun
  intro addr haddr
  rw [hqueue] at haddr
  cases haddr

/-- Small values may be deleted, expire and be created between the steps of the workers. -/
theorem teardown_owned_small : ∃ g, run serverStep {}
      [.request {} (.ofTexts ["hset", "h", "f", "v"]), .request {} (.ofTexts ["zadd", "z", "1", "m"]), .work,
        .request {} (.ofTexts ["expire", "z", "1"]), .request {} (.ofTexts ["del", "h"]), .work, .tick 1500] = .ok g ∧
    g.nodeOf (text "z") = none ∧ TeardownOwned g := by
  obtain ⟨g, hrun, hcheck⟩ := exists_ok_of_check (x := run serverStep {}
      [.request {} (.ofTexts ["hset", "h", "f", "v"]), .request {} (.ofTexts ["zadd", "z", "1", "m"]), .work,
        .request {} (.ofTexts ["expire", "z", "1"]), .request {} (.ofTexts ["del", "h"]), .work, .tick 1500])
    (p := fun g => decide (g.nodeOf (text "z") = none)) (by decide +kernel)
  exact ⟨g, hrun, of_decide_eq_true hcheck, teardown_owned (by decide +kernel) hrun⟩

/-! ### A large sorted set -/

/-- The payload of a key whose sorted set has these members. -/
def HoldsMembers : Option Payload → Finset Bytes → Prop
  | none, members => members = ∅
  | some (.zset z), members => ∃ es, z.Holds es ∧ (es.map fun e => e.2.key).toFinset = members
  | some _, _ => False

theorem HoldsMembers.exists_zset {o : Option Payload} {members : Finset Bytes} (h : HoldsMembers o members) :
    ∃ z, o.getD (.zset {}) = .zset z ∧ ∃ es, z.Holds es ∧ (es.map fun e => e.2.key).toFinset = members := by
  cases o with
  | none =>
    obtain rfl : members = ∅ := h
    exact ⟨{}, rfl, [], ZSet.Holds.empty, rfl⟩
  | some p =>
    cases p with
    | zset z => exact ⟨z, rfl, h⟩
    | _ => exact h.elim

theorem respond_zadd (env : Env) {g : GlobalData} {r : Request} {members : Finset Bytes} (h : g.WF)
    (hc : commandOf r.tokens = .zadd) (hscore : (strtod (r.tokens.getD 2 [])).isNaN = false)
    (hmember : ValidMember (r.tokens.getD 3 [])) (hm : HoldsMembers (g.payloadOf (keyOf r.tokens)) members) :
    ∃ g' out, respond env g r = .ok (g', out) ∧ g'.WF ∧
      HoldsMembers (g'.payloadOf (keyOf r.tokens)) (insert (r.tokens.getD 3 []) members) := by
  have hlen : r.tokens.length = 4 := commandOf_arity hc
  obtain ⟨g₁, n, hup⟩ := findOrInsert_upserted env h r.short_key (.zset {}) fun _ => ⟨rfl, rfl⟩
  obtain ⟨z, hz, es, hes, rfl⟩ := hm.exists_zset
  rw [← hup.payload] at hz
  obtain ⟨z', es', p, hins, hes', hperm⟩ := zsetInsert_spec hes hmember hscore
  obtain ⟨g', hput, hwf, hstored⟩ := hup.put (.zset z')
  have hrun : doZadd env g (beforeResBuild []).1 r.tokens = .ok ⟨g', outInt (beforeResBuild []).1
      (if (es.find? fun e => e.2.key = r.tokens.getD 3 []).isNone then 1 else 0), .success⟩ := by
    rw [doZadd, arg_one (by omega), arg_eq_getD (by omega), arg_eq_getD (by omega)]
    simp only [ok_bind, hup.run, hz, hins, hput]
  refine ⟨g', _, respond_of_run hc (by omega) hrun, hwf, ?_⟩
  rw [hstored]
  refine ⟨es', hes', ?_⟩
  rw [List.toFinset_eq_of_perm _ _ (hperm.map fun e => e.2.key), List.map_cons, List.toFinset_cons]
  ext member
  simp only [Finset.mem_insert, List.mem_toFinset, List.mem_map, List.mem_filter, decide_eq_true_eq]
  grind

/-- The members and the requests that add them. -/
def memberOf (i : Nat) : Bytes := [UInt8.ofNat (i / 100 + 1), UInt8.ofNat (i % 100 + 1)]

def addMember (i : Nat) : Request where
  tokens := [text "zadd", text "z", text "1", memberOf i]
  short := by
    intro t ht
    simp only [List.mem_cons, List.not_mem_nil, or_false] at ht
    rcases ht with rfl | rfl | rfl | rfl
    · decide
    · decide
    · decide
    · exact Nat.mul_le_mul_left 2 (show 2 ≤ 2 ^ 29 by decide)

theorem toNat_memberOf {i : Nat} (hi : i < 1000) : (memberOf i).map UInt8.toNat = [i / 100 + 1, i % 100 + 1] := by
  rw [memberOf, List.map_cons, List.map_cons, List.map_nil, UInt8.toNat_ofNat_of_lt' (show i / 100 + 1 < 256 by omega),
    UInt8.toNat_ofNat_of_lt' (show i % 100 + 1 < 256 by omega)]

theorem memberOf_inj {i j : Nat} (hi : i < 1000) (hj : j < 1000) (h : memberOf i = memberOf j) : i = j := by
  have heq := toNat_memberOf hi
  rw [h, toNat_memberOf hj] at heq
  simp only [List.cons.injEq, and_true] at heq
  omega

theorem validMember_memberOf {i : Nat} (hi : i < 1000) : ValidMember (memberOf i) where
  noNul hzero := by
    have hin := List.mem_map_of_mem (f := UInt8.toNat) hzero
    rw [toNat_memberOf hi] at hin
    simp at hin
  short := Nat.mul_le_mul_left 2 (show 2 ≤ 2 ^ 29 by decide)

theorem hmMoves_empty (node : HNode Entry) : hmMoves ({} : GlobalData).db node = [] := by
  rfl

/-- What the requests build, with nothing handed over on the way. -/
structure Filled (g : GlobalData) (members : Finset Bytes) : Prop where
  wf : g.WF
  holds : HoldsMembers (g.payloadOf (text "z")) members
  queue : g.queue = []
  start : members = ∅ → g = {}

theorem Filled.addMember {g : GlobalData} {members : Finset Bytes} (h : Filled g members) {i : Nat} (hi : i < 1000) :
    ∃ g', serverStep g (.request {} (addMember i)) = .ok g' ∧ Filled g' (insert (memberOf i) members) := by
  have hc : commandOf (CustomRedis.addMember i).tokens = .zadd := by
    change selectCommand ((cstr (text "zadd")).map tolower) 4 = .zadd
    decide
  have hscore : (strtod (text "1")).isNaN = false := by decide +kernel
  obtain ⟨g', out, hres, hwf, hholds⟩ := respond_zadd {} h.wf hc hscore (validMember_memberOf hi) h.holds
  have hrun : serverStep g (.request {} (CustomRedis.addMember i)) = .ok g' := by
    rw [serverStep, hres]
    rfl
  have hspares : SparesLarge g (.request {} (CustomRedis.addMember i)) := by
    refine ⟨fun hdel => absurd (hc.symm.trans hdel) (by decide), fun _ hnone n hn => ?_⟩
    -- the key is only missing at the start
    have hholds := h.holds
    rw [payloadOf_eq_none.mpr (show g.nodeOf (text "z") = none from hnone)] at hholds
    rw [h.start hholds, hmMoves_empty] at hn
    cases hn
  exact ⟨g', hrun, hwf, hholds, serverStep_queue h.wf h.queue hspares hrun, fun hempty => absurd hempty (by simp)⟩

theorem foldl_insert_eq (l : List Nat) (s : Finset Bytes) :
    l.foldl (fun s i => insert (memberOf i) s) s = s ∪ (l.map memberOf).toFinset := by
  induction l generalizing s with
  | nil => simp
  | cons i l ih => rw [List.foldl_cons, ih, List.map_cons, List.toFinset_cons, Finset.insert_union, Finset.union_insert]

def largeZset : List Event := (List.range 1000).map fun i => .request {} (addMember i)

theorem largeZset_run : ∃ g n, run serverStep {} largeZset = .ok g ∧ g.WF ∧ g.queue = [] ∧
    g.nodeOf (text "z") = some n ∧ n.Large := by
  have hstart : Filled {} ∅ := ⟨GlobalData.WF.empty, rfl, rfl, fun _ => rfl⟩
  have hstep : ∀ g members i, Filled g members → i < 1000 →
      ∃ g', serverStep g (.request {} (addMember i)) = .ok g' ∧ Filled g' (insert (memberOf i) members) :=
    fun g members i h hi => h.addMember hi
  obtain ⟨g, hrun, hfilled⟩ := simulate hstep hstart fun i hi => List.mem_range.mp hi
  have hcard : ((List.range 1000).foldl (fun s i => insert (memberOf i) s) (∅ : Finset Bytes)).card = 1000 := by
    have hnodup : ((List.range 1000).map memberOf).Nodup := List.Nodup.map_on
      (fun i hi j hj => memberOf_inj (List.mem_range.mp hi) (List.mem_range.mp hj)) List.nodup_range
    rw [foldl_insert_eq, Finset.empty_union, List.toFinset_card_of_nodup hnodup, List.length_map, List.length_range]
  have hholds := hfilled.holds
  cases hn : g.nodeOf (text "z") with
  | none =>
    rw [payloadOf_eq_none.mpr hn] at hholds
    rw [show _ = (∅ : Finset Bytes) from hholds] at hcard
    cases hcard
  | some n =>
    refine ⟨g, n, (run_map serverStep _ _ _).trans hrun, hfilled.wf, hfilled.queue, hn, ?_⟩
    rw [payloadOf_of_nodeOf hn] at hholds
    obtain ⟨z, hz, es, hes, hmembers⟩ := hholds.exists_zset
    have hweight : Teardown.weight n.val = hmSize z.hmap := by
      rcases n with ⟨hcode, key, addr, payload⟩
      cases hz
      rfl
    rw [← hmembers, List.toFinset_card_of_nodup hes.toStored.distinct, List.length_map] at hcard
    rw [HNode.Large, hweight, hes.wf.hmSize_eq, hes.nodes.length_eq, List.length_map, hcard]
    decide

/-- The sorted set is deleted, its node is freed, and then the worker runs. -/
theorem del_frees_before_teardown : ∃ g,
    run serverStep {} (largeZset ++ [.request {} (.ofTexts ["del", "z"])]) = .ok g ∧ ¬TeardownOwned g ∧
      serverStep g .work = .error .useAfterFree := by
  obtain ⟨g, n, hrun, hwf, hqueue, hn, hlarge⟩ := largeZset_run
  rcases deleteNode_spec hwf (strHash (text "z")) (text "z") with ⟨hnone, -⟩ | ⟨n', g', hn', hdel, hd⟩
  · exact absurd (hnone.symm.trans hn) (Option.some_ne_none _).symm
  cases hn.symm.trans hn'
  have hstep : serverStep g (.request {} (.ofTexts ["del", "z"])) = .ok g' := by
    have hc : commandOf (Request.ofTexts ["del", "z"]).tokens = .del := by decide
    obtain ⟨str, hcopy, hbuf⟩ := dstrCopy_ok (Request.ofTexts ["del", "z"]).short_key
    have hdo : doDel g (beforeResBuild []).1 (Request.ofTexts ["del", "z"]).tokens =
        .ok ⟨g', outNull (beforeResBuild []).1, .success⟩ := by
      rw [doDel, arg_one (by decide), ok_bind, hcopy, ok_bind, hbuf,
        show keyOf (Request.ofTexts ["del", "z"]).tokens = text "z" by decide, Probe.mk_some, hdel]
      rfl
    rw [serverStep, respond_of_run hc (by decide) hdo]
    rfl
  have hqueue' : g'.queue = [n.val.addr] := by
    rw [hd.queue, hqueue, handedOver, if_pos hlarge]
    rfl
  have hfreed : g'.ttl.refs.read n.val.addr = none := by
    rw [hd.ttl]
    exact Mem.read_free_self _ _
  refine ⟨g', ?_, fun howned => ?_, ?_⟩
  · rw [run_append hrun]
    exact run_cons_ok hstep []
  · have hlive := (howned n.val.addr (by rw [hqueue']; exact List.mem_singleton_self _)).1
    rw [hfreed] at hlive
    cases hlive
  · rw [serverStep, workerStep, hqueue']
    simp only [hfreed, Option.isSome_none, Bool.false_eq_true, if_false]

end CustomRedis
