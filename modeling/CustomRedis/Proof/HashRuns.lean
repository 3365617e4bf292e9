import CustomRedis.Proof.NestedMap
import CustomRedis.Proof.KeyValue

/-!
# Hashes

`do_hset` fills in the key of the wrong probe, so that the lookup of the field runs without a key: it faults at
the first field with the same hash code, and finds nothing if there is none. A run in which no field is set
while a present field has its hash code does what a map does. Every other `HSET` reads through the null key, the
second one of a field among them.
-/

namespace CustomRedis

open KeyedList Run

/-- The fields behind a command. -/
def hashStep (m : KvMap) (r : Request) : KvMap :=
  match commandOf r.tokens with
  | .hset => Function.update m (r.tokens.getD 2 []) (some (r.tokens.getD 3 []))
  | .hdel => Function.update m (r.tokens.getD 2 []) none
  | _ => m

/-- `HSET` with one pair or `HDEL`, on a field without a zero byte. -/
structure HashRequest (key : Bytes) (r : Request) : Prop where
  key : keyOf r.tokens = key
  noNul : 0 ∉ r.tokens.getD 2 []
  op : (commandOf r.tokens = .hset ∧ r.tokens.length = 4) ∨ commandOf r.tokens = .hdel

instance decidableHashRequest (key : Bytes) (r : Request) : Decidable (HashRequest key r) :=
  decidable_of_iff (keyOf r.tokens = key ∧ 0 ∉ r.tokens.getD 2 [] ∧
      (commandOf r.tokens = .hset ∧ r.tokens.length = 4 ∨ commandOf r.tokens = .hdel))
    ⟨fun h => ⟨h.1, h.2.1, h.2.2⟩, fun h => ⟨h.key, h.noNul, h.op⟩⟩

/-- No field of the hash has the hash code of a field that is set. -/
def SetsNew (m : KvMap) (r : Request) : Prop :=
  commandOf r.tokens = .hset → ∀ field, m field ≠ none → strHash field ≠ strHash (r.tokens.getD 2 [])

def HMap.valueAt (m : HMap Dstr) (field : Bytes) : Option Bytes := (at? HNode.key m.nodes field).map fun n => n.val.buf

/-- The payload of a key whose hash has these fields. A hash without fields has no key. -/
def HoldsHash : Option Payload → KvMap → Prop
  | none, f => f = fun _ => none
  | some (.hset m), f => m.Keyed ∧ m.nodes ≠ [] ∧ f = m.valueAt
  | some _, _ => False

theorem HoldsHash.exists_hash {o : Option Payload} {f : KvMap} (h : HoldsHash o f) :
    ∃ m, o.getD (.hset {}) = .hset m ∧ m.Keyed ∧ f = m.valueAt := by
  cases o with
  | none => exact ⟨{}, rfl, HMap.Keyed.empty, h⟩
  | some p =>
    cases p with
    | hset m => exact ⟨m, rfl, h.1, h.2.2⟩
    | _ => exact h.elim

/-- The key is there exactly as long as the hash has a field. -/
theorem HoldsHash.isNone_iff {o : Option Payload} {f : KvMap} (h : HoldsHash o f) :
    o = none ↔ ∀ field, f field = none := by
  cases o with
  | none =>
    obtain rfl : f = fun _ => none := h
    exact iff_of_true rfl fun _ => rfl
  | some p =>
    cases p with
    | hset m =>
      obtain ⟨hkeyed, hne, rfl⟩ := h
      refine iff_of_false nofun fun hall => ?_
      obtain ⟨n, hn⟩ := List.exists_mem_of_ne_nil _ hne
      have hat := hkeyed.distinct.at?_of_mem hn
      have hnone := hall n.key
      rw [HMap.valueAt, hat] at hnone
      cases hnone
    | _ => exact h.elim

/-- The fields of a hash as its lookups tell them apart, by hash code and text up to the first zero byte. -/
def HMap.fields (m : HMap Dstr) (id : UInt64 × Bytes) : Option Bytes := (m.find id).map fun n => n.val.buf

/-- The payload of a key whose hash has these fields, whatever bytes they are made of. -/
def HoldsFields : Option Payload → (UInt64 × Bytes → Option Bytes) → Prop
  | none, f => f = fun _ => none
  | some (.hset m), f => m.WF ∧ f = m.fields
  | some _, _ => False

section Commands

variable {g : GlobalData} {cmd : List Bytes} {f : KvMap}

/-- Where no field has the hash code, `HSET` links a node for the first pair. -/
theorem doHset_insert (env : Env) (h : g.WF) (hkey : Short (keyOf cmd)) (hfield : Short (cmd.getD 2 []))
    (hvalue : Short (cmd.getD 3 [])) (hlen : 4 ≤ cmd.length) {m : HMap Dstr}
    (hm : (g.payloadOf (keyOf cmd)).getD (.hset {}) = .hset m) (hwf : m.WF)
    (hfresh : ∀ n ∈ m.nodes, n.hcode ≠ strHash (cmd.getD 2 [])) (out : Bytes) :
    ∃ g' m' value, doHset env g out cmd = .ok ⟨g', outNull out, .success⟩ ∧ g'.WF ∧
      g'.payloadOf (keyOf cmd) = some (.hset m') ∧ m'.WF ∧ value.buf = cmd.getD 3 [] ∧
      m'.nodes.Perm (⟨strHash (cmd.getD 2 []), cmd.getD 2 [], value⟩ :: m.nodes) := by
  obtain ⟨g₁, n, hup⟩ := findOrInsert_upserted env h hkey (.hset {}) fun _ => ⟨rfl, rfl⟩
  rw [← hup.payload] at hm
  obtain ⟨field, hcopy, hbuf⟩ := dstrCopy_ok hfield
  obtain ⟨value, hcopy', hbuf'⟩ := dstrCopy_ok hvalue
  have habsent : m.find (HNode.mk (strHash (cmd.getD 2 [])) (cmd.getD 2 []) value).ident = none := by
    rw [HMap.find_eq_none]
    intro hin
    obtain ⟨n, hn, heq⟩ := List.mem_map.mp hin
    exact hfresh n hn (congrArg Prod.fst heq)
  obtain ⟨m', jobs, hins, hwf', hperm⟩ := hmInsert_of_clear (fun _ => rfl) hwf habsent
  obtain ⟨g', hput, hg', hstored⟩ := hup.put (.hset m')
  refine ⟨g', m', value, ?_, hg', hstored, hwf', hbuf', hperm⟩
  rw [doHset, arg_one (by omega), arg_eq_getD (by omega), arg_eq_getD (by omega)]
  simp only [ok_bind, hup.run, hm, hcopy, hmLookup_freshHash hfresh, hcopy', hbuf, hins, hput]

theorem doHset_fault (env : Env) (h : g.WF) (hkey : Short (keyOf cmd)) (hfield : Short (cmd.getD 2 []))
    (hlen : 4 ≤ cmd.length) {m : HMap Dstr} (hm : (g.payloadOf (keyOf cmd)).getD (.hset {}) = .hset m) (hwf : m.WF)
    {n : HNode Dstr} (hn : n ∈ m.nodes) (hcode : n.hcode = strHash (cmd.getD 2 [])) (out : Bytes) :
    doHset env g out cmd = .error .nullKey := by
  obtain ⟨g₁, e, hup⟩ := findOrInsert_upserted env h hkey (.hset {}) fun _ => ⟨rfl, rfl⟩
  rw [← hup.payload] at hm
  obtain ⟨field, hcopy, -⟩ := dstrCopy_ok hfield
  have hlookup := hmLookup_nullFault hwf hn
  rw [hcode] at hlookup
  rw [doHset, arg_one (by omega), arg_eq_getD (by omega), arg_eq_getD (by omega)]
  simp only [ok_bind, hup.run, hm, hcopy, hlookup]
  rfl

theorem doHset_hash (env : Env) (h : g.WF) (hkey : Short (keyOf cmd)) (hfield : Short (cmd.getD 2 []))
    (hvalue : Short (cmd.getD 3 [])) (hlen : cmd.length = 4) (hf : HoldsHash (g.payloadOf (keyOf cmd)) f)
    (hnoNul : 0 ∉ cmd.getD 2 []) (hnew : ∀ field, f field ≠ none → strHash field ≠ strHash (cmd.getD 2 []))
    (out : Bytes) :
    ∃ g', doHset env g out cmd = .ok ⟨g', outNull out, .success⟩ ∧ g'.WF ∧
      HoldsHash (g'.payloadOf (keyOf cmd)) (Function.update f (cmd.getD 2 []) (some (cmd.getD 3 []))) := by
  obtain ⟨m, hm, hkeyed, rfl⟩ := hf.exists_hash
  have hfresh : ∀ n ∈ m.nodes, n.hcode ≠ strHash (cmd.getD 2 []) := by
    intro n hn
    rw [hkeyed.hash n hn]
    apply hnew n.key
    rw [HMap.valueAt, hkeyed.distinct.at?_of_mem hn]
    exact nofun
  obtain ⟨g', m', value, hrun, hg', hstored, hwf', hbuf, hperm⟩ :=
    doHset_insert env h hkey hfield hvalue (by omega) hm hkeyed.wf hfresh out
  have hkeyed' := hkeyed.cons_perm hwf' hnoNul hperm
  refine ⟨g', hrun, hg', ?_⟩
  rw [hstored]
  refine ⟨hkeyed', ?_, ?_⟩
  · intro hnil
    rw [hnil] at hperm
    exact List.not_perm_nil_cons _ _ hperm
  · funext field'
    rw [HMap.valueAt, at?_perm hkeyed'.distinct hperm, at?_cons, Function.update_apply]
    by_cases heq : field' = cmd.getD 2 []
    · rw [if_pos heq, if_pos heq.symm, Option.map_some, hbuf]
    · rw [if_neg heq, if_neg (Ne.symm heq)]
      rfl

/-- The hash of a key that is there. -/
theorem HoldsHash.exists_map {n : HNode Entry} (hf : HoldsHash (g.payloadOf (keyOf cmd)) f)
    (hn : g.nodeOf (keyOf cmd) = some n) :
    ∃ m, n.val.payload = .hset m ∧ m.Keyed ∧ m.nodes ≠ [] ∧ f = m.valueAt := by
  rw [payloadOf_of_nodeOf hn] at hf
  cases hp : n.val.payload with
  | hset m =>
    rw [hp] at hf
    exact ⟨m, rfl, hf⟩
  | _ =>
    rw [hp] at hf
    exact hf.elim

theorem HoldsHash.of_absent (hf : HoldsHash (g.payloadOf (keyOf cmd)) f) (hn : g.nodeOf (keyOf cmd) = none) :
    f = fun _ => none := by
  rw [payloadOf_eq_none.mpr hn] at hf
  exact hf

theorem valueAt_filter {m m' : HMap Dstr} {field : Bytes} (h : m'.nodes = m.nodes.filter fun n => n.key ≠ field) :
    m'.valueAt = Function.update m.valueAt field none := by
  funext field'
  rw [HMap.valueAt, h, at?_filter_ne, Function.update_apply]
  by_cases heq : field' = field
  · rw [if_pos heq, if_pos heq]
    rfl
  · rw [if_neg heq, if_neg heq]
    rfl

theorem doHdel_hash (h : g.WF) (hkey : Short (keyOf cmd)) (hfield : Short (cmd.getD 2 [])) (hlen : 3 ≤ cmd.length)
    (hf : HoldsHash (g.payloadOf (keyOf cmd)) f) (hnoNul : 0 ∉ cmd.getD 2 []) (out : Bytes) :
    ∃ res, doHdel g out cmd = .ok res ∧ res.data.WF ∧
      HoldsHash (res.data.payloadOf (keyOf cmd)) (Function.update f (cmd.getD 2 []) none) := by
  rw [doHdel, arg_one (by omega), arg_eq_getD (by omega), ok_bind, ok_bind, findNode_bind h hkey]
  cases hn : g.nodeOf (keyOf cmd) with
  | none =>
    refine ⟨_, rfl, h, ?_⟩
    obtain rfl := hf.of_absent hn
    rwa [Function.update_eq_self_iff.mpr rfl]
  | some n =>
    obtain ⟨m, hm, hkeyed, hne, rfl⟩ := hf.exists_map hn
    obtain ⟨field, hcopy, hbuf⟩ := dstrCopy_ok hfield
    obtain ⟨m', jobs, hdel, hkeyed', hnodes⟩ := hkeyed.delete hnoNul
    obtain ⟨g₁, hput, hwf₁, hstored⟩ := putPayload_payloadOf h hkey hn (.hset m')
    simp only [hm, hcopy, ok_bind, hbuf]
    rw [Probe.mk_some, hdel]
    simp only [ok_bind]
    by_cases hin : cmd.getD 2 [] ∈ m.nodes.map HNode.key
    · simp only [hin, decide_true, if_true, hput, ok_bind]
      rw [← valueAt_filter hnodes]
      by_cases hempty : hmSize m' = 0
      · -- the last field goes, and the key with it
        rw [if_pos hempty]
        obtain ⟨g₂, hdelete, hwf₂, hgone⟩ := deleteNode_payloadOf hwf₁ hstored (find_self h hn)
        rw [Probe.mk_some, hdelete]
        refine ⟨_, rfl, hwf₂, ?_⟩
        rw [hgone]
        funext field'
        rw [hkeyed'.wf.hmSize_eq, List.length_eq_zero_iff] at hempty
        rw [HMap.valueAt, hempty]
        rfl
      · rw [if_neg hempty]
        refine ⟨_, rfl, hwf₁, ?_⟩
        rw [hstored]
        refine ⟨hkeyed', fun hnil => hempty ?_, rfl⟩
        rw [hkeyed'.wf.hmSize_eq, hnil]
        rfl
    · simp only [hin, decide_false]
      refine ⟨_, rfl, h, ?_⟩
      rwa [Function.update_eq_self_iff.mpr]
      rw [HMap.valueAt, at?_eq_none.mpr hin]
      rfl

theorem doHget_fields (h : g.WF) (hkey : Short (keyOf cmd)) (hfield : Short (cmd.getD 2 [])) (hlen : 3 ≤ cmd.length)
    {f : UInt64 × Bytes → Option Bytes} (hf : HoldsFields (g.payloadOf (keyOf cmd)) f) (out : Bytes) :
    doHget g out cmd = .ok ⟨g, ((f (keyId (cmd.getD 2 []))).map (outStr out)).getD (outNull out), .success⟩ := by
  rw [doHget, arg_one (by omega), arg_eq_getD (by omega), ok_bind, ok_bind, findNode_bind h hkey]
  cases hn : g.nodeOf (keyOf cmd) with
  | none =>
    rw [payloadOf_eq_none.mpr hn] at hf
    obtain rfl : f = fun _ => none := hf
    rfl
  | some n =>
    rw [payloadOf_of_nodeOf hn] at hf
    rcases n with ⟨hcode, key, addr, payload⟩
    cases payload with
    | hset m =>
      obtain ⟨hwf, rfl⟩ := hf
      obtain ⟨field, hcopy, hbuf⟩ := dstrCopy_ok hfield
      simp only [hcopy, ok_bind, hbuf]
      rw [Probe.mk_some, hmLookup_eq hwf, ok_bind, HMap.fields, keyId]
      cases m.find (strHash (cmd.getD 2 []), cstr (cmd.getD 2 [])) with
      | none => rfl
      | some n => rfl
    | _ => exact hf.elim

theorem HoldsHash.fields {o : Option Payload} (hf : HoldsHash o f) :
    ∃ f', HoldsFields o f' ∧ ∀ field, 0 ∉ field → f' (keyId field) = f field := by
  cases o with
  | none =>
    obtain rfl : f = fun _ => none := hf
    exact ⟨fun _ => none, rfl, fun _ _ => rfl⟩
  | some p =>
    cases p with
    | hset m =>
      obtain ⟨hkeyed, -, rfl⟩ := hf
      refine ⟨m.fields, ⟨hkeyed.wf, rfl⟩, fun field hnoNul => ?_⟩
      rw [HMap.fields, hkeyed.find_eq hnoNul, HMap.valueAt]
    | _ => exact hf.elim

theorem doHget_hash (h : g.WF) (hkey : Short (keyOf cmd)) (hfield : Short (cmd.getD 2 [])) (hlen : 3 ≤ cmd.length)
    (hf : HoldsHash (g.payloadOf (keyOf cmd)) f) (hnoNul : 0 ∉ cmd.getD 2 []) (out : Bytes) :
    doHget g out cmd = .ok ⟨g, ((f (cmd.getD 2 [])).map (outStr out)).getD (outNull out), .success⟩ := by
  obtain ⟨f', hf', heq⟩ := hf.fields
  rw [doHget_fields h hkey hfield hlen hf', heq _ hnoNul]

end Commands

/-! ### Runs -/

theorem respond_hash {key : Bytes} (env : Env) {g : GlobalData} {f : KvMap} {r : Request} (h : g.WF)
    (hf : HoldsHash (g.payloadOf key) f) (hr : HashRequest key r) (hnew : SetsNew f r) :
    ∃ g' out, respond env g r = .ok (g', out) ∧ g'.WF ∧ HoldsHash (g'.payloadOf key) (hashStep f r) := by
  obtain ⟨rfl, hnoNul, ⟨hc, hlen⟩ | hc⟩ := hr
  · obtain ⟨g', hrun, hwf, hholds⟩ := doHset_hash env h r.short_key (r.short_token 2) (r.short_token 3) hlen hf hnoNul
      (hnew hc) (beforeResBuild []).1
    refine ⟨g', _, respond_of_run hc (by omega) hrun, hwf, ?_⟩
    rw [hashStep, hc]
    exact hholds
  · have hlen : 3 ≤ r.tokens.length := commandOf_arity hc
    obtain ⟨res, hrun, hwf, hholds⟩ := doHdel_hash h r.short_key (r.short_token 2) hlen hf hnoNul (beforeResBuild []).1
    refine ⟨res.data, res.out, respond_of_run hc (by omega) hrun, hwf, ?_⟩
    rw [hashStep, hc]
    exact hholds

/-- The fields that the requests of a run leave. -/
def hashAfter (requests : List (Env × Request)) : KvMap := requests.foldl (fun m e => hashStep m e.2) fun _ => none

theorem hash_run {g₀ : GlobalData} (hg : Reachable g₀) {key : Bytes} (habsent : g₀.nodeOf key = none)
    {requests : List (Env × Request)}
    (hreq : Follows (fun m e => hashStep m e.2) (fun m e => HashRequest key e.2 ∧ SetsNew m e.2) (fun _ => none)
      requests) :
    ∃ g, run serverStep g₀ (requests.map fun e => .request e.1 e.2) = .ok g ∧ g.WF ∧
      HoldsHash (g.payloadOf key) (hashAfter requests) := by
  have hstep : ∀ env g f r, g.WF → HoldsHash (g.payloadOf key) f → HashRequest key r ∧ SetsNew f r →
      ∃ g' out, respond env g r = .ok (g', out) ∧ g'.WF ∧ HoldsHash (g'.payloadOf key) (hashStep f r) :=
    fun env g f r h hf hr => respond_hash env h hf hr.1 hr.2
  exact run_on_key HoldsHash hstep hg habsent rfl hreq

/-- In every run in which no field is set while a present one has its hash code, every command completes, `HGET`
answers as the map of the fields does, and the key is there as long as a field is. -/
theorem hashes_without_collisions {g₀ : GlobalData} (hg : Reachable g₀) {key : Bytes} (habsent : g₀.nodeOf key = none)
    (requests : List (Env × Request))
    (hreq : Follows (fun m e => hashStep m e.2) (fun m e => HashRequest key e.2 ∧ SetsNew m e.2) (fun _ => none)
      requests) :
    ∃ g, run serverStep g₀ (requests.map fun e => .request e.1 e.2) = .ok g ∧
      (g.nodeOf key = none ↔ ∀ field, hashAfter requests field = none) ∧
      ∀ env r, keyOf r.tokens = key → commandOf r.tokens = .hget → 0 ∉ r.tokens.getD 2 [] →
        respond env g r = .ok (g, ((hashAfter requests (r.tokens.getD 2 [])).map (outStr (beforeResBuild []).1)).getD
          (outNull (beforeResBuild []).1)) := by
  obtain ⟨g, hrun, hwf, hholds⟩ := hash_run hg habsent hreq
  refine ⟨g, hrun, ?_, fun env r hkey hc hnoNul => ?_⟩
  · rw [← hholds.isNone_iff, payloadOf_eq_none]
  · subst hkey
    have hlen : r.tokens.length = 3 := commandOf_arity hc
    exact respond_of_run hc (by omega)
      (doHget_hash hwf r.short_key (r.short_token 2) (by omega) hholds hnoNul (beforeResBuild []).1)

/-- A field that was deleted may be set again. -/
theorem hashes_without_collisions_reset : ∃ g, run serverStep {}
      [.request {} (.ofTexts ["hset", "h", "f", "v"]), .request {} (.ofTexts ["hdel", "h", "f"]),
        .request {} (.ofTexts ["hset", "h", "f", "w"])] = .ok g ∧ g.nodeOf (text "h") ≠ none ∧
    respond {} g (.ofTexts ["hget", "h", "f"]) = .ok (g, outStr (beforeResBuild []).1 (text "w")) := by
  let requests : List (Env × Request) :=
    [({}, .ofTexts ["hset", "h", "f", "v"]), ({}, .ofTexts ["hdel", "h", "f"]), ({}, .ofTexts ["hset", "h", "f", "w"])]
  have habsent : ({} : GlobalData).nodeOf (text "h") = none := by decide
  have hdeleted : hashStep (hashStep (fun _ => none) (.ofTexts ["hset", "h", "f", "v"])) (.ofTexts ["hdel", "h", "f"]) =
      fun _ => none := by
    rw [hashStep, hashStep, show commandOf (Request.ofTexts ["hdel", "h", "f"]).tokens = .hdel by decide,
      show commandOf (Request.ofTexts ["hset", "h", "f", "v"]).tokens = .hset by decide]
    exact (Function.update_idem _ _ _).trans (Function.update_eq_self_iff.mpr rfl)
  have hafter : hashAfter requests (text "f") = some (text "w") := by decide +kernel
  obtain ⟨g, hrun, hpresent, hget⟩ := hashes_without_collisions ⟨[], rfl⟩ habsent requests
    ⟨⟨by decide, fun _ field hne => absurd rfl hne⟩, ⟨by decide, fun hc => absurd hc (by decide)⟩,
      ⟨by decide, fun _ field hne => absurd (congrFun hdeleted field) hne⟩, trivial⟩
  have hreply := hget {} (.ofTexts ["hget", "h", "f"]) (by decide) (by decide) (by decide)
  rw [show (Request.ofTexts ["hget", "h", "f"]).tokens.getD 2 [] = text "f" from by decide, hafter] at hreply
  refine ⟨g, hrun, fun hnone => ?_, hreply⟩
  exact nomatch hafter.symm.trans (hpresent.mp hnone _)

/-- The second `HSET` of a field reads through the null key. -/
theorem hset_twice_faults :
    run serverStep {} [.request {} (.ofTexts ["hset", "h", "f", "v"]), .request {} (.ofTexts ["hset", "h", "f", "w"])] =
      .error .nullKey := by
  decide +kernel

end CustomRedis
