import CustomRedis.Proof.HashRuns
import CustomRedis.Proof.ListRanges

/-!
# Hash commands with several pairs

`HSET` is let through with any number of pairs and uses the first one. It completes if no field has the hash code of the
first field, and then the other pairs must not change anything for the command to do what its syntax says. `HGETALL`
replies the fields without their values, which is all there is to say of a hash only if it has no field.
-/

namespace CustomRedis

open KeyedList Run

/-! ### Pairs -/

/-- The pairs of a command. -/
def pairsOf : List Bytes → List (Bytes × Bytes)
  | field :: value :: rest => (field, value) :: pairsOf rest
  | _ => []

theorem mem_pairsOf {tokens : List Bytes} {p : Bytes × Bytes} (h : p ∈ pairsOf tokens) : p.1 ∈ tokens := by
  induction tokens using pairsOf.induct with
  | case1 field value rest ih =>
    rcases List.mem_cons.mp h with rfl | hrest
    · exact List.mem_cons_self
    · exact List.mem_cons_of_mem _ (List.mem_cons_of_mem _ (ih hrest))
  | case2 tokens hshort =>
    rw [pairsOf.eq_2 _ hshort] at h
    cases h

theorem pairsOf_drop_two {tokens : List Bytes} (h : 4 ≤ tokens.length) :
    ∃ rest, pairsOf (tokens.drop 2) = (tokens.getD 2 [], tokens.getD 3 []) :: rest := by
  match tokens, h with
  | _ :: _ :: field :: value :: rest, _ => exact ⟨pairsOf rest, rfl⟩

/-- The fields of a hash behind some pairs, set one after the other. -/
def afterPairs (f : UInt64 × Bytes → Option Bytes) (pairs : List (Bytes × Bytes)) : UInt64 × Bytes → Option Bytes :=
  pairs.foldl (fun f p => Function.update f (keyId p.1) (some p.2)) f

theorem afterPairs_of_not_mem {f : UInt64 × Bytes → Option Bytes} {pairs : List (Bytes × Bytes)} {id : UInt64 × Bytes}
    (h : ∀ p ∈ pairs, keyId p.1 ≠ id) : afterPairs f pairs id = f id :=
  foldl_update_of_ne h (fun p => some p.2) f

/-! ### Replies -/

theorem getD_outNull_inj {out : Bytes} {o o' : Option Bytes}
    (h : (o.map (outStr out)).getD (outNull out) = (o'.map (outStr out)).getD (outNull out)) : o = o' := by
  have hnull : outNull out = out ++ [tagNull] := rfl
  have hne : ∀ s, outStr out s ≠ outNull out := by
    intro s hs
    rw [outStr_eq, hnull] at hs
    have htag := (List.cons.inj (List.append_cancel_left hs)).1
    exact absurd htag (by decide)
  cases o with
  | none =>
    cases o' with
    | none => rfl
    | some s => exact absurd h.symm (hne s)
  | some s =>
    cases o' with
    | none => exact absurd h (hne s)
    | some s' =>
      rw [Option.map_some, Option.map_some, Option.getD_some, Option.getD_some, outStr_eq, outStr_eq] at h
      have hbody := (List.cons.inj (List.append_cancel_left h)).2
      rw [(List.append_inj hbody (by rw [length_leBytes, length_leBytes])).2]

theorem length_arrReply (out : Bytes) (strs : List Bytes) :
    (arrReply out strs).length = out.length + 5 + (strs.map fun s => s.length + 5).sum := by
  rw [arrReply, outStrs_eq, outArr_eq, List.length_append, List.length_append, List.length_cons, length_leBytes,
    List.length_flatten, List.map_map]
  congr 2

theorem sum_pairs (ps : List (Bytes × Bytes)) : ((ps.flatMap fun p => [p.1, p.2]).map fun s => s.length + 5).sum =
    (ps.map fun p => p.1.length + 5).sum + (ps.map fun p => p.2.length + 5).sum := by
  induction ps with
  | nil => rfl
  | cons p ps ih =>
    rw [List.flatMap_cons, List.map_append, List.sum_append, ih, List.map_cons, List.map_cons, List.sum_cons, List.sum_cons]
    simp only [List.map_cons, List.map_nil, List.sum_cons, List.sum_nil]
    omega

/-- A list of the names alone is as long as the list of the pairs only if both are empty. -/
theorem arrReply_pairs {out : Bytes} {ps qs : List (Bytes × Bytes)} (hperm : ps.Perm qs)
    (h : arrReply out (qs.map Prod.fst) = arrReply out (ps.flatMap fun p => [p.1, p.2])) : qs = [] := by
  have hlength := congrArg List.length h
  have hnames : ((qs.map Prod.fst).map fun s => s.length + 5).sum = (ps.map fun p => p.1.length + 5).sum := by
    rw [List.map_map]
    exact ((hperm.map _).sum_eq).symm
  rw [length_arrReply, length_arrReply, hnames, sum_pairs] at hlength
  cases ps with
  | nil => exact List.nil_perm.mp hperm
  | cons p ps =>
    rw [List.map_cons, List.map_cons, List.sum_cons, List.sum_cons] at hlength
    omega

/-! ### The commands -/

/-- Behind the command, `HGET` replies the last value given for each of its fields and what was there for any other. -/
def SetsPairs (env : Env) (g : GlobalData) (r : Request) (f : UInt64 × Bytes → Option Bytes) : Prop :=
  ∃ g' out, respond env g r = .ok (g', out) ∧ ∀ env' r', keyOf r'.tokens = keyOf r.tokens →
    commandOf r'.tokens = .hget → respond env' g' r' =
      .ok (g', ((afterPairs f (pairsOf (r.tokens.drop 2)) (keyId (r'.tokens.getD 2 []))).map
        (outStr (beforeResBuild []).1)).getD (outNull (beforeResBuild []).1))

/-- The reply is an array with the name and the value of every field, in some order of the fields. -/
def ListsPairs (env : Env) (g : GlobalData) (r : Request) (m : HMap Dstr) : Prop :=
  ∃ pairs : List (Bytes × Bytes), pairs.Perm (m.nodes.map fun n => (n.key, n.val.buf)) ∧
    respond env g r = .ok (g, arrReply (beforeResBuild []).1 (pairs.flatMap fun p => [p.1, p.2]))

/-- The request for a field. -/
def hgetRequest (key field : Bytes) (hkey : Short key) (hfield : Short field) : Request where
  tokens := [text "hget", key, field]
  short := by
    intro t ht
    rcases List.mem_cons.mp ht with rfl | ht
    · decide
    · rcases List.mem_cons.mp ht with rfl | ht
      · exact hkey
      · rwa [List.mem_singleton.mp ht]

theorem hgetRequest_spec {key field : Bytes} (hkey : Short key) (hfield : Short field) :
    keyOf (hgetRequest key field hkey hfield).tokens = key ∧ (hgetRequest key field hkey hfield).tokens.getD 2 [] = field ∧
      commandOf (hgetRequest key field hkey hfield).tokens = .hget :=
  ⟨rfl, rfl, rfl⟩

section Commands

variable {g : GlobalData} {r : Request}

theorem HoldsFields.exists_hash {o : Option Payload} {f : UInt64 × Bytes → Option Bytes} (h : HoldsFields o f) :
    ∃ m, o.getD (.hset {}) = .hset m ∧ m.WF ∧ f = m.fields := by
  cases o with
  | none => exact ⟨{}, rfl, HMap.WF.empty, h⟩
  | some p =>
    cases p with
    | hset m => exact ⟨m, rfl, h⟩
    | _ => exact h.elim

/-- Where no field has the hash code of the first one, `HSET` sets the first pair. -/
theorem respond_hset_first (env : Env) (h : g.WF) (hc : commandOf r.tokens = .hset) {m : HMap Dstr}
    (hm : (g.payloadOf (keyOf r.tokens)).getD (.hset {}) = .hset m) (hwf : m.WF)
    (hfresh : ∀ n ∈ m.nodes, n.hcode ≠ strHash (r.tokens.getD 2 [])) :
    ∃ g', respond env g r = .ok (g', outNull (beforeResBuild []).1) ∧ ∀ env' r', keyOf r'.tokens = keyOf r.tokens →
      commandOf r'.tokens = .hget → respond env' g' r' =
        .ok (g', ((Function.update m.fields (keyId (r.tokens.getD 2 [])) (some (r.tokens.getD 3 []))
          (keyId (r'.tokens.getD 2 []))).map (outStr (beforeResBuild []).1)).getD (outNull (beforeResBuild []).1)) := by
  have hlen : 4 ≤ r.tokens.length := commandOf_arity hc
  obtain ⟨g', m', value, hrun, hg', hstored, hwf', hbuf, hperm⟩ :=
    doHset_insert env h r.short_key (r.short_token 2) (r.short_token 3) hlen hm hwf hfresh (beforeResBuild []).1
  refine ⟨g', respond_of_run hc (by omega) hrun, fun env' r' hkey hget => ?_⟩
  have hfields : m'.fields = Function.update m.fields (keyId (r.tokens.getD 2 [])) (some (r.tokens.getD 3 [])) := by
    have hident : HNode.ident ⟨strHash (r.tokens.getD 2 []), r.tokens.getD 2 [], value⟩ = keyId (r.tokens.getD 2 []) := by
      rw [HNode.ident, keyId]
    funext id
    rw [HMap.fields, HMap.find, at?_perm hwf'.distinct hperm, at?_cons, hident, Function.update_apply]
    by_cases heq : id = keyId (r.tokens.getD 2 [])
    · rw [if_pos heq, if_pos heq.symm, Option.map_some, hbuf]
    · rw [if_neg heq, if_neg (Ne.symm heq), HMap.fields, HMap.find]
  have hlen' : r'.tokens.length = 3 := commandOf_arity hget
  have hholds : HoldsFields (g'.payloadOf (keyOf r'.tokens)) m'.fields := by
    rw [hkey, hstored]
    exact ⟨hwf', rfl⟩
  rw [← hfields]
  exact respond_of_run hget (by omega) (doHget_fields hg' r'.short_key (r'.short_token 2) (by omega) hholds _)

/-- `HSET` sets all its pairs exactly if no field has the hash code of the first one and the pairs behind the first one
change nothing. -/
theorem hset_sets_pairs (env : Env) (h : g.WF) (hc : commandOf r.tokens = .hset) {f : UInt64 × Bytes → Option Bytes}
    (hf : HoldsFields (g.payloadOf (keyOf r.tokens)) f) :
    SetsPairs env g r f ↔ (∀ id, f id ≠ none → id.1 ≠ strHash (r.tokens.getD 2 [])) ∧
      afterPairs f (pairsOf (r.tokens.drop 2)) = afterPairs f ((pairsOf (r.tokens.drop 2)).take 1) := by
  have hlen : 4 ≤ r.tokens.length := commandOf_arity hc
  obtain ⟨m, hm, hwf, rfl⟩ := hf.exists_hash
  have hfirst : afterPairs m.fields ((pairsOf (r.tokens.drop 2)).take 1) =
      Function.update m.fields (keyId (r.tokens.getD 2 [])) (some (r.tokens.getD 3 [])) := by
    obtain ⟨rest, hpairs⟩ := pairsOf_drop_two hlen
    rw [hpairs, List.take_succ_cons, List.take_zero, afterPairs, List.foldl_cons, List.foldl_nil]
  have hcodes : (∀ id, m.fields id ≠ none → id.1 ≠ strHash (r.tokens.getD 2 [])) ↔
      ∀ n ∈ m.nodes, n.hcode ≠ strHash (r.tokens.getD 2 []) := by
    constructor
    · intro hnew n hn
      apply hnew n.ident
      rw [HMap.fields, hwf.find_eq_some.mpr ⟨hn, rfl⟩]
      exact Option.some_ne_none _
    · intro hfresh id hid
      cases hfind : m.find id with
      | none =>
        rw [HMap.fields, hfind] at hid
        exact absurd rfl hid
      | some n =>
        obtain ⟨hn, rfl⟩ := hwf.find_eq_some.mp hfind
        exact hfresh n hn
  rw [hcodes]
  constructor
  · rintro ⟨g', out, hrun, hget⟩
    have hfresh : ∀ n ∈ m.nodes, n.hcode ≠ strHash (r.tokens.getD 2 []) := by
      intro n hn hcode
      have hfault := doHset_fault env h r.short_key (r.short_token 2) hlen hm hwf hn hcode (beforeResBuild []).1
      rw [respond_of_fault hc (by omega) hfault] at hrun
      cases hrun
    refine ⟨hfresh, ?_⟩
    obtain ⟨g₁, hrun', hget'⟩ := respond_hset_first env h hc hm hwf hfresh
    obtain rfl : g' = g₁ := (Prod.mk.inj (Except.ok.inj (hrun.symm.trans hrun'))).1
    rw [hfirst]
    funext id
    by_cases hid : ∃ p ∈ pairsOf (r.tokens.drop 2), keyId p.1 = id
    · obtain ⟨p, hp, rfl⟩ := hid
      have hfield : Short p.1 := r.short p.1 (List.mem_of_mem_drop (mem_pairsOf hp))
      obtain ⟨hkey, htoken, hc'⟩ := hgetRequest_spec r.short_key hfield
      have hreply := hget {} _ hkey hc'
      rw [hget' {} _ hkey hc', htoken] at hreply
      exact (getD_outNull_inj (Prod.mk.inj (Except.ok.inj hreply)).2).symm
    · have hnot : ∀ p ∈ pairsOf (r.tokens.drop 2), keyId p.1 ≠ id := fun p hp heq => hid ⟨p, hp, heq⟩
      rw [← hfirst, afterPairs_of_not_mem hnot, afterPairs_of_not_mem fun p hp => hnot p (List.mem_of_mem_take hp)]
  · rintro ⟨hfresh, hpairs⟩
    obtain ⟨g', hrun, hget⟩ := respond_hset_first env h hc hm hwf hfresh
    rw [← hfirst, ← hpairs] at hget
    exact ⟨g', _, hrun, hget⟩

/-- `HGETALL` replies the fields alone. -/
theorem hgetall_lists_pairs (env : Env) (h : g.WF) (hc : commandOf r.tokens = .hgetall) {m : HMap Dstr}
    (hm : g.payloadOf (keyOf r.tokens) = some (.hset m)) : ListsPairs env g r m ↔ m.nodes = [] := by
  have hlen : r.tokens.length = 2 := commandOf_arity hc
  obtain ⟨⟨hcode, key, addr, payload⟩, hn, rfl⟩ := nodeOf_of_payloadOf hm
  have hres : respond env g r = .ok (g, arrReply (beforeResBuild []).1 ((m.nodes.map fun n => (n.key, n.val.buf)).map
      Prod.fst)) := by
    rw [List.map_map]
    have hrun : doHgetall g (beforeResBuild []).1 r.tokens =
        .ok ⟨g, arrReply (beforeResBuild []).1 (m.nodes.map HNode.key), .success⟩ := by
      rw [doHgetall, arg_one (by omega), ok_bind, findNode_bind h r.short_key, hn]
      simp only [hmKeys_eq]
      rfl
    exact respond_of_run hc (by omega) hrun
  constructor
  · rintro ⟨pairs, hperm, hreply⟩
    rw [hres] at hreply
    exact List.map_eq_nil_iff.mp (arrReply_pairs hperm (Prod.mk.inj (Except.ok.inj hreply)).2)
  · intro hnil
    refine ⟨[], ?_, ?_⟩
    · rw [hnil, List.map_nil]
    · rw [hres, hnil]
      rfl

/-- The two commands do what their syntax says exactly on these requests. -/
theorem hash_pairs (env : Env) (h : g.WF) (r : Request) :
    (∀ f, commandOf r.tokens = .hset → HoldsFields (g.payloadOf (keyOf r.tokens)) f →
      (SetsPairs env g r f ↔ (∀ id, f id ≠ none → id.1 ≠ strHash (r.tokens.getD 2 [])) ∧
        afterPairs f (pairsOf (r.tokens.drop 2)) = afterPairs f ((pairsOf (r.tokens.drop 2)).take 1))) ∧
    ∀ m, commandOf r.tokens = .hgetall → g.payloadOf (keyOf r.tokens) = some (.hset m) →
      (ListsPairs env g r m ↔ m.nodes = []) :=
  ⟨fun _ hc hf => hset_sets_pairs env h hc hf, fun _ hc hm => hgetall_lists_pairs env h hc hm⟩

/-- One pair for a key that is not there, and the listing of that pair. -/
theorem hash_pairs_one : SetsPairs {} {} (.ofTexts ["hset", "h", "f", "v"]) (fun _ => none) ∧
    ∃ g m, run serverStep {} [.request {} (.ofTexts ["hset", "h", "f", "v"])] = .ok g ∧
      g.payloadOf (text "h") = some (.hset m) ∧ ¬ListsPairs {} g (.ofTexts ["hgetall", "h"]) m := by
  refine ⟨((@hash_pairs {} {} GlobalData.WF.empty (.ofTexts ["hset", "h", "f", "v"])).1 (fun _ => none) (by decide)
    rfl).mpr ⟨fun _ hid => absurd rfl hid, rfl⟩, ?_⟩
  let requests : List (Env × Request) := [({}, .ofTexts ["hset", "h", "f", "v"])]
  have hafter : hashAfter requests (text "f") = some (text "v") := by decide +kernel
  obtain ⟨g, hrun, hwf, hholds⟩ := @hash_run {} ⟨[], rfl⟩ (text "h") (by decide) requests
    ⟨⟨by decide, fun _ field hne => absurd rfl hne⟩, trivial⟩
  cases hp : g.payloadOf (text "h") with
  | none =>
    rw [hp] at hholds
    rw [show hashAfter requests = fun _ => none from hholds] at hafter
    cases hafter
  | some p =>
    rw [hp] at hholds
    cases p with
    | hset m =>
      refine ⟨g, m, hrun, hp, fun hlists => hholds.2.1 ?_⟩
      exact ((@hash_pairs g {} hwf (.ofTexts ["hgetall", "h"])).2 m (by decide) hp).mp hlists
    | _ => exact hholds.elim

/-- The second pair is not set, and the reply to `HGETALL` has no values. -/
theorem hset_second_pair_lost :
    (run serverStep {} [.request {} (.ofTexts ["hset", "h", "a", "1", "b", "2"])] >>= fun g =>
      (respond {} g (.ofTexts ["hget", "h", "b"])).map Prod.snd) = .ok (outNull (beforeResBuild []).1) ∧
    (run serverStep {} [.request {} (.ofTexts ["hset", "h", "a", "1", "b", "2"])] >>= fun g =>
      (respond {} g (.ofTexts ["hgetall", "h"])).map Prod.snd) = .ok (arrReply (beforeResBuild []).1 [text "a"]) := by
  decide +kernel

end Commands

end CustomRedis
