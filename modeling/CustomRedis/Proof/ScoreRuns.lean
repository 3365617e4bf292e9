import CustomRedis.Proof.RangeQuery
import CustomRedis.Proof.ZsetRuns
import CustomRedis.Proof.Creation
import CustomRedis.Proof.OneKey

/-!
# Scores from the wire

Runs of `ZADD` and `ZREM`, with whatever `strtod` makes of the scores. As long as no score is a NaN, the
set of a key is a sequence in order, and a query without offset and limit lists the end of it that the
bound cuts off. A NaN in the tree sends every later search to the left of it.
-/

namespace CustomRedis

open Run BinaryTree

/-! ### Commands on other keys -/

/-- A request that creates another key does not move the node of this one. -/
def StaysPut (key : Bytes) (g : GlobalData) (r : Request) : Prop :=
  keyId (keyOf r.tokens) ≠ keyId key → g.nodeOf (keyOf r.tokens) = none →
    keyId key ∉ (hmMoves g.db (freshNode g (keyOf r.tokens) (newPayload r.tokens (commandOf r.tokens)))).map HNode.ident

instance decidableStaysPut (key : Bytes) (g : GlobalData) (r : Request) : Decidable (StaysPut key g r) :=
  inferInstanceAs (Decidable (_ → _ → _))

theorem Inserted.payloadOf_other {env : Env} {g g' : GlobalData} {key key' : Bytes} {payload : Payload}
    (h : Inserted env g key' payload g') (hother : keyId key' ≠ keyId key)
    (hstays : keyId key ∉ (hmMoves g.db (freshNode g key' payload)).map HNode.ident) :
    g'.payloadOf key = g.payloadOf key := by
  rw [GlobalData.payloadOf, GlobalData.nodeOf, h.find, if_neg (Ne.symm hother), GlobalData.payloadOf, GlobalData.nodeOf]
  cases hn : g.db.find (keyId key) with
  | none => rfl
  | some n =>
    have hid : n.ident = keyId key := KeyedList.key_of_at? hn
    rw [Option.map_some, afterInsert, if_neg (hid ▸ hstays)]

theorem Written.payloadOf_other {g g' : GlobalData} {key key' : Bytes} {payload : Payload}
    (h : Written g key' payload g') (hother : keyId key' ≠ keyId key) : g'.payloadOf key = g.payloadOf key := by
  rw [GlobalData.payloadOf, GlobalData.nodeOf, h.find]
  simp only [Ne.symm hother, if_false, Option.map_id']
  rfl

theorem Deleted.payloadOf_other {g g' : GlobalData} {n : HNode Entry} {key : Bytes} (h : Deleted g n g')
    (hother : n.ident ≠ keyId key) : g'.payloadOf key = g.payloadOf key := by
  rw [GlobalData.payloadOf, GlobalData.nodeOf, h.find, if_neg (Ne.symm hother)]
  rfl

theorem Outcome.payloadOf_other {env : Env} {g g' : GlobalData} {out out' : Bytes} {cmd : List Bytes} {c : Command}
    {key : Bytes} (ho : Outcome env g out cmd c g' out') (hother : keyId (keyOf cmd) ≠ keyId key)
    (hstays : g.nodeOf (keyOf cmd) = none →
      keyId key ∉ (hmMoves g.db (freshNode g (keyOf cmd) (newPayload cmd c))).map HNode.ident) :
    g'.payloadOf key = g.payloadOf key := by
  have hident : ∀ {g : GlobalData} {n : HNode Entry}, g.nodeOf (keyOf cmd) = some n → n.ident ≠ keyId key := by
    intro g n hn hid
    exact hother ((KeyedList.key_of_at? hn).symm.trans hid)
  cases ho with
  | replied _ _ => rfl
  | missing => rfl
  | refused _ _ => rfl
  | written _ _ _ _ hw => exact hw.payloadOf_other hother
  | created _ _ hnone hi => exact hi.payloadOf_other hother (hstays hnone)
  | filled _ _ hnone hi _ _ hw => rw [hw.payloadOf_other hother, hi.payloadOf_other hother (hstays hnone)]
  | halfway _ hnone _ hi => exact hi.payloadOf_other hother (hstays hnone)
  | deleted _ hnode hd => exact hd.payloadOf_other (hident hnode)
  | emptied _ _ _ _ _ hw hnode' hd => rw [hd.payloadOf_other (hident hnode'), hw.payloadOf_other hother]
  | expires _ _ _ => rfl
  | persists _ _ _ => rfl

/-! ### Commands on the key -/

/-- The payload of a key whose sorted set gives the members of `U` these scores. -/
def HoldsScores (U : Set Bytes) : Option Payload → (Bytes → Option Double) → Prop
  | none, scores => scores = fun _ => none
  | some (.zset z), scores => ∃ es, z.Stored es ∧ (∀ e ∈ es, e.2.key ∈ U) ∧ scoreIn es = scores
  | some _, _ => False

theorem HoldsScores.exists_zset {U : Set Bytes} {o : Option Payload} {scores : Bytes → Option Double}
    (h : HoldsScores U o scores) :
    ∃ z, o.getD (.zset {}) = .zset z ∧ ∃ es, z.Stored es ∧ (∀ e ∈ es, e.2.key ∈ U) ∧ scoreIn es = scores := by
  cases o with
  | none =>
    obtain rfl : scores = fun _ => none := h
    exact ⟨{}, rfl, [], ZSet.Stored.empty, nofun, rfl⟩
  | some p =>
    cases p with
    | zset z => exact ⟨z, rfl, h⟩
    | _ => exact h.elim

theorem HoldsScores.cases {U : Set Bytes} {g : GlobalData} {key : Bytes} {scores : Bytes → Option Double}
    (hs : HoldsScores U (g.payloadOf key) scores) :
    (g.nodeOf key = none ∧ scores = fun _ => none) ∨
      ∃ n z es, g.nodeOf key = some n ∧ n.val.payload = .zset z ∧ z.Stored es ∧ (∀ e ∈ es, e.2.key ∈ U) ∧
        scoreIn es = scores := by
  rw [GlobalData.payloadOf] at hs
  cases hn : g.nodeOf key with
  | none =>
    rw [hn] at hs
    exact .inl ⟨rfl, hs⟩
  | some n =>
    rw [hn, Option.map_some] at hs
    right
    cases hp : n.val.payload with
    | zset z =>
      rw [hp] at hs
      obtain ⟨es, hstored, hes, hscores⟩ := hs
      exact ⟨n, z, es, rfl, hp, hstored, hes, hscores⟩
    | _ =>
      rw [hp] at hs
      exact hs.elim

theorem findZset_absent {g : GlobalData} (h : g.WF) {key : Bytes} (hkey : Short key) (hn : g.nodeOf key = none) :
    findZset g key = .ok (some {}) := by
  rw [findZset, findNode_bind h hkey, hn]

theorem findZset_present {g : GlobalData} (h : g.WF) {key : Bytes} (hkey : Short key) {n : HNode Entry} {z : ZSet}
    (hn : g.nodeOf key = some n) (hz : n.val.payload = .zset z) : findZset g key = .ok (some z) := by
  rw [findZset, findNode_bind h hkey, hn]
  simp only [hz]

theorem HoldsScores.findZset {U : Set Bytes} {g : GlobalData} {key : Bytes} {scores : Bytes → Option Double}
    (hs : HoldsScores U (g.payloadOf key) scores) (h : g.WF) (hkey : Short key) :
    ∃ z es, findZset g key = .ok (some z) ∧ z.Stored es ∧ scoreIn es = scores := by
  rcases hs.cases with ⟨hn, rfl⟩ | ⟨n, z, es, hn, hz, hstored, -, hscores⟩
  · exact ⟨{}, [], findZset_absent h hkey hn, ZSet.Stored.empty, rfl⟩
  · exact ⟨z, es, findZset_present h hkey hn hz, hstored, hscores⟩

/-- What a request does to the set of a key: an insert, a removal, or nothing. -/
def zopOf (key : Bytes) (r : Request) : Option ZOp :=
  if keyId (keyOf r.tokens) ≠ keyId key then none
  else if commandOf r.tokens = .zadd then some (.insert (strtod (r.tokens.getD 2 [])) (r.tokens.getD 3 []))
  else if commandOf r.tokens = .zrem then some (.delete (r.tokens.getD 2 []))
  else none

section Step

variable {U : Set Bytes} {g : GlobalData} {r : Request} {scores : Bytes → Option Double} {env : Env}

theorem respond_zadd_scores (h : g.WF) (hU : Set.InjOn keyId U) (hc : commandOf r.tokens = .zadd)
    (hscore : (strtod (r.tokens.getD 2 [])).isNaN = false) (hmember : r.tokens.getD 3 [] ∈ U)
    (hs : HoldsScores U (g.payloadOf (keyOf r.tokens)) scores) :
    ∃ g' out, respond env g r = .ok (g', out) ∧ g'.WF ∧ HoldsScores U (g'.payloadOf (keyOf r.tokens))
      (scoresStep scores (.insert (strtod (r.tokens.getD 2 [])) (r.tokens.getD 3 []))) := by
  have hlen : r.tokens.length = 4 := commandOf_arity hc
  obtain ⟨g₁, n, hup⟩ := findOrInsert_upserted env h r.short_key (.zset {}) fun _ => ⟨rfl, rfl⟩
  obtain ⟨z, hz, es, hstored, hes, rfl⟩ := hs.exists_zset
  rw [← hup.payload] at hz
  obtain ⟨z', es', hstep, hstored', hes', hscores⟩ := zsetStep_stored hstored hU hes
    (show (ZOp.insert (strtod (r.tokens.getD 2 [])) (r.tokens.getD 3 [])).member ∈ U from hmember) (r.short_token 3)
    (fun score member heq => by cases heq; exact hscore)
  obtain ⟨⟨z₁, inserted⟩, hins, hstep⟩ := ok_of_bind hstep
  cases hstep
  obtain ⟨g', hput, hwf, hpayload⟩ := hup.put (.zset z')
  have hrun : doZadd env g (beforeResBuild []).1 r.tokens =
      .ok ⟨g', outInt (beforeResBuild []).1 (if inserted then 1 else 0), .success⟩ := by
    rw [doZadd, arg_one (by omega), arg_eq_getD (by omega), arg_eq_getD (by omega)]
    simp only [ok_bind, hup.run, hz, hins, hput]
  refine ⟨g', _, respond_of_run hc (by omega) hrun, hwf, ?_⟩
  rw [hpayload]
  exact ⟨es', hstored', hes', hscores⟩

theorem respond_zrem_scores (h : g.WF) (hU : Set.InjOn keyId U) (hc : commandOf r.tokens = .zrem)
    (hmember : r.tokens.getD 2 [] ∈ U) (hs : HoldsScores U (g.payloadOf (keyOf r.tokens)) scores) :
    ∃ g' out, respond env g r = .ok (g', out) ∧ g'.WF ∧
      HoldsScores U (g'.payloadOf (keyOf r.tokens)) (scoresStep scores (.delete (r.tokens.getD 2 []))) := by
  have hlen : r.tokens.length = 3 := commandOf_arity hc
  have hrun : ∀ res, doZrem g (beforeResBuild []).1 r.tokens = .ok res → respond env g r = .ok (res.data, res.out) :=
    fun res hres => respond_of_run hc (by omega) hres
  rcases hs.cases with ⟨hn, rfl⟩ | ⟨n, z, es, hn, hz, hstored, hes, rfl⟩
  · refine ⟨g, _, hrun ⟨g, outInt (beforeResBuild []).1 0, .success⟩ ?_, h, ?_⟩
    · rw [doZrem, arg_one (by omega), arg_eq_getD (by omega)]
      simp only [ok_bind, findZset_absent h r.short_key hn, derefZset]
      rfl
    · rw [payloadOf_eq_none.mpr hn]
      funext m
      simp [scoresStep, Function.update_apply]
  · have hscore : ∀ score member, ZOp.delete (r.tokens.getD 2 []) = .insert score member → score.isNaN = false := by
      intro score member heq
      cases heq
    obtain ⟨z', es', hstep, hstored', hes', hscores⟩ := zsetStep_stored hstored hU hes
      (show (ZOp.delete (r.tokens.getD 2 [])).member ∈ U from hmember) (r.short_token 2) hscore
    obtain ⟨found, hlookup, hstep⟩ := ok_of_bind hstep
    cases found with
    | none =>
      cases hstep
      refine ⟨g, _, hrun ⟨g, outInt (beforeResBuild []).1 0, .success⟩ ?_, h, ?_⟩
      · rw [doZrem, arg_one (by omega), arg_eq_getD (by omega)]
        simp only [ok_bind, findZset_present h r.short_key hn hz, derefZset, hlookup]
      · rw [payloadOf_of_nodeOf hn, hz]
        exact ⟨es', hstored', hes', hscores⟩
    | some p =>
      obtain ⟨g', hput, hwf, hpayload⟩ := putPayload_payloadOf h r.short_key hn (.zset z')
      refine ⟨g', _, hrun ⟨g', outInt (beforeResBuild []).1 1, .success⟩ ?_, hwf, ?_⟩
      · rw [doZrem, arg_one (by omega), arg_eq_getD (by omega)]
        simp only [ok_bind, findZset_present h r.short_key hn hz, derefZset, hlookup]
        rw [show zsetDelete z p = .ok z' from hstep]
        simp only [ok_bind, hput]
      · rw [hpayload]
        exact ⟨es', hstored', hes', hscores⟩

end Step

/-! ### Runs -/

/-- The operations of a run on the set of a key. -/
def opsOn (key : Bytes) (es : List (Env × Request)) : List ZOp := (es.map Prod.snd).filterMap (zopOf key)

theorem opsOn_cons (key : Bytes) (e : Env × Request) (es : List (Env × Request)) :
    opsOn key (e :: es) = (zopOf key e.2).toList ++ opsOn key es := by
  rw [opsOn, opsOn, List.map_cons]
  generalize hop : zopOf key e.2 = op
  cases op with
  | none => rw [List.filterMap_cons_none hop, Option.toList_none, List.nil_append]
  | some op => rw [List.filterMap_cons_some hop, Option.toList_some, List.singleton_append]

/-- The events of a run leave the node of a key in its place. -/
def EventStays (key : Bytes) (g : GlobalData) : Event → Prop
  | .request _ r => StaysPut key g r
  | .tick _ => True
  | .work => True

instance decidableEventStays (key : Bytes) (g : GlobalData) : (e : Event) → Decidable (EventStays key g e)
  | .request _ r => decidableStaysPut key g r
  | .tick _ => .isTrue trivial
  | .work => .isTrue trivial

def requestsOf (es : List (Env × Request)) : List Event := es.map fun e => .request e.1 e.2

theorem requestsOf_cons (e : Env × Request) (es : List (Env × Request)) :
    requestsOf (e :: es) = .request e.1 e.2 :: requestsOf es := rfl

theorem payloadOf_congr (g : GlobalData) {key key' : Bytes} (h : keyId key = keyId key') :
    g.payloadOf key = g.payloadOf key' := by
  rw [GlobalData.payloadOf, GlobalData.nodeOf, h, GlobalData.payloadOf, GlobalData.nodeOf]

theorem zopOf_zadd {key : Bytes} {r : Request} (hkey : keyId (keyOf r.tokens) = keyId key)
    (hc : commandOf r.tokens = .zadd) :
    zopOf key r = some (.insert (strtod (r.tokens.getD 2 [])) (r.tokens.getD 3 [])) := by
  rw [zopOf, if_neg (not_not_intro hkey), if_pos hc]

theorem zopOf_zrem {key : Bytes} {r : Request} (hkey : keyId (keyOf r.tokens) = keyId key)
    (hc : commandOf r.tokens = .zrem) : zopOf key r = some (.delete (r.tokens.getD 2 [])) := by
  have hne : commandOf r.tokens ≠ .zadd := fun h => nomatch hc.symm.trans h
  rw [zopOf, if_neg (not_not_intro hkey), if_neg hne, if_pos hc]

theorem serverStep_scores {U : Set Bytes} (hU : Set.InjOn keyId U) {g g' : GlobalData} {env : Env} {r : Request}
    {key : Bytes} {scores : Bytes → Option Double} (h : g.WF) (hs : HoldsScores U (g.payloadOf key) scores)
    (hc : commandOf r.tokens = .zadd ∨ commandOf r.tokens = .zrem)
    (hnumber : ∀ score member, zopOf key r = some (.insert score member) → score.isNaN = false)
    (hmember : ∀ op, zopOf key r = some op → op.member ∈ U) (hstays : StaysPut key g r)
    (hrun : serverStep g (.request env r) = .ok g') :
    g'.WF ∧ HoldsScores U (g'.payloadOf key) ((zopOf key r).toList.foldl scoresStep scores) := by
  rw [serverStep] at hrun
  obtain ⟨⟨g₁, out⟩, hres, hrun⟩ := ok_of_bind hrun
  cases hrun
  have ho := respond_outcome h hres
  refine ⟨ho.wf h, ?_⟩
  by_cases hkey : keyId (keyOf r.tokens) = keyId key
  · rw [payloadOf_congr _ hkey.symm] at hs ⊢
    rcases hc with hc | hc
    · have hop := zopOf_zadd hkey hc
      obtain ⟨g₂, out₂, hres₂, -, hscores⟩ : ∃ g₂ out₂, respond env g r = .ok (g₂, out₂) ∧ _ :=
        respond_zadd_scores h hU hc (hnumber _ _ hop) (hmember _ hop) hs
      cases hres.symm.trans hres₂
      rwa [hop, Option.toList_some, List.foldl_cons, List.foldl_nil]
    · have hop := zopOf_zrem hkey hc
      obtain ⟨g₂, out₂, hres₂, -, hscores⟩ : ∃ g₂ out₂, respond env g r = .ok (g₂, out₂) ∧ _ :=
        respond_zrem_scores h hU hc (hmember _ hop) hs
      cases hres.symm.trans hres₂
      rwa [hop, Option.toList_some, List.foldl_cons, List.foldl_nil]
  · rw [zopOf, if_pos hkey, ho.payloadOf_other hkey (hstays hkey), Option.toList_none, List.foldl_nil]
    exact hs

theorem run_scores {U : Set Bytes} (hU : Set.InjOn keyId U) {key : Bytes} {es : List (Env × Request)} {g g' : GlobalData}
    {scores : Bytes → Option Double} (h : g.WF) (hs : HoldsScores U (g.payloadOf key) scores)
    (hcmds : ∀ e ∈ es, commandOf e.2.tokens = .zadd ∨ commandOf e.2.tokens = .zrem)
    (hnumber : ∀ score member, .insert score member ∈ opsOn key es → score.isNaN = false)
    (hmember : ∀ op ∈ opsOn key es, op.member ∈ U) (hstays : Along serverStep (EventStays key) g (requestsOf es))
    (hrun : run serverStep g (requestsOf es) = .ok g') :
    HoldsScores U (g'.payloadOf key) ((opsOn key es).foldl scoresStep scores) := by
  induction es generalizing g scores with
  | nil =>
    cases hrun
    exact hs
  | cons e es ih =>
    rw [requestsOf_cons] at hrun hstays
    rw [run] at hrun
    cases hstep : serverStep g (.request e.1 e.2) with
    | error err =>
      rw [hstep] at hrun
      cases hrun
    | ok g₁ =>
      rw [hstep] at hrun
      rw [along_cons_ok hstep] at hstays
      rw [opsOn_cons] at hnumber hmember
      obtain ⟨hwf, hscores⟩ := serverStep_scores hU h hs (hcmds e (by simp))
        (fun score member hop => hnumber score member (by simp [hop])) (fun op hop => hmember op (by simp [hop]))
        hstays.1 hstep
      rw [opsOn_cons, List.foldl_append]
      exact ih hwf hscores (fun e he => hcmds e (by simp [he]))
        (fun score member hop => hnumber score member (List.mem_append_right _ hop))
        (fun op hop => hmember op (List.mem_append_right _ hop)) hstays.2 hrun

/-! ### The query -/

/-- Without offset and limit the whole end of the set is listed. -/
theorem queryList_all {z : ZSet} {es : List (Ptr × ZNode)} (h : z.Ranked es) (hsmall : es.length < 2 ^ 31)
    (score : Double) (key : Bytes) : queryList es score key 0 (2 ^ 32 - 1) = membersAbove es score key := by
  rw [queryList]
  by_cases hnil : membersAbove es score key = []
  · rw [if_pos hnil, hnil]
  · have hlen : (membersAbove es score key).length ≤ es.length := List.length_filter_le _ _
    rw [if_neg hnil, if_pos (by omega)]
    simp only [Int.add_zero, Int.toNat_natCast]
    rw [drop_takeWhile, h.dropWhile_eq, List.take_of_length_le (by omega)]

theorem scoreIn_eq_some {z : ZSet} {es : List (Ptr × ZNode)} (h : z.Stored es) {member : Bytes} {score : Double} :
    scoreIn es member = some score ↔ ∃ e ∈ es, e.2.key = member ∧ e.2.score = score := by
  rw [scoreIn, Option.map_eq_some_iff]
  constructor
  · rintro ⟨e, hfind, hscore⟩
    exact ⟨e, List.mem_of_find?_eq_some hfind, by simpa using List.find?_some hfind, hscore⟩
  · rintro ⟨e, he, hkey, hscore⟩
    exact ⟨e, (h.distinct.at?_eq_some).mpr ⟨he, hkey⟩, hscore⟩

theorem ncard_scored {z : ZSet} {es : List (Ptr × ZNode)} (h : z.Stored es) :
    {member | scoreIn es member ≠ none}.ncard = es.length := by
  have hset : {member | scoreIn es member ≠ none} = ((es.map fun e => e.2.key).toFinset : Set Bytes) := by
    ext member
    simp [Option.ne_none_iff_exists', scoreIn_eq_some h]
  rw [hset, Set.ncard_coe_finset, List.toFinset_card_of_nodup h.distinct, List.length_map]

/-- After a run without NaN scores, a query for the members from a score on lists every member with a larger
score once, and none with a smaller one. -/
theorem zquery_lists_scores {es : List (Env × Request)} {g : GlobalData} {cmd : List Bytes} {out : Bytes}
    (hcmds : ∀ e ∈ es, commandOf e.2.tokens = .zadd ∨ commandOf e.2.tokens = .zrem)
    (hnumber : ∀ score member, .insert score member ∈ opsOn (keyOf cmd) es → score.isNaN = false)
    (hapart : Set.InjOn keyId {member | ∃ op ∈ opsOn (keyOf cmd) es, op.member = member})
    (hstays : Along serverStep (EventStays (keyOf cmd)) {} (requestsOf es))
    (hrun : run serverStep {} (requestsOf es) = .ok g)
    (hsmall : {member | lastScore (opsOn (keyOf cmd) es) member ≠ none}.ncard < 2 ^ 31)
    (hcmd : cmd.length = 4) (hkey : Short (keyOf cmd)) (hbound : (strtod (cmd.getD 2 [])).isNaN = false) :
    ∃ r ns, doZrangequery g out cmd = .ok r ∧ r.out = out ++ pairsReply ns ∧
      (∀ member score, lastScore (opsOn (keyOf cmd) es) member = some score → (strtod (cmd.getD 2 [])).lt score = true →
        (ns.map ZNode.key).count member = 1 ∧ ∀ n ∈ ns, n.key = member → n.score = score) ∧
      ∀ n ∈ ns, lastScore (opsOn (keyOf cmd) es) n.key = some n.score ∧ n.score.lt (strtod (cmd.getD 2 [])) = false := by
  have hwf : g.WF := Reachable.wf ⟨_, hrun⟩
  have hscores : HoldsScores _ (g.payloadOf (keyOf cmd)) (lastScore (opsOn (keyOf cmd) es)) :=
    run_scores hapart GlobalData.WF.empty rfl hcmds hnumber (fun op hop => ⟨op, hop, rfl⟩) hstays hrun
  obtain ⟨z, nodes, hset, hstored, hlast⟩ := hscores.findZset hwf hkey
  rw [← hlast, ncard_scored hstored] at hsmall
  have hranked : z.Ranked nodes := hstored.ranked (hsmall.trans (by decide))
  have hoffset : queryOffset cmd = 0 := by
    rw [queryOffset, List.getElem?_eq_none (by omega)]
  have hlimit : queryLimit cmd = 2 ^ 32 - 1 := by
    rw [queryLimit, List.getElem?_eq_none (by omega)]
  refine ⟨_, (membersAbove nodes (strtod (cmd.getD 2 [])) (cmd.getD 3 [])).map Prod.snd,
    doZrangequery_eq hranked hsmall (by omega) hset, ?_, ?_, ?_⟩
  · rw [hoffset, hlimit, queryList_all hranked hsmall]
  · intro member score hmember hlt
    obtain ⟨e, he, rfl, rfl⟩ := (scoreIn_eq_some hstored).mp (hlast ▸ hmember)
    have hnotNaN := hranked.notNaN e he
    have habove : zless e.2 (strtod (cmd.getD 2 [])) (cmd.getD 3 []) = false := by
      rw [Bool.eq_false_iff, Ne, zless_iff 0 hnotNaN hbound]
      rw [Double.lt_iff hbound hnotNaN] at hlt
      rintro (hbelow | ⟨heq, -⟩)
      · exact absurd hbelow hlt.not_gt
      · exact absurd heq hlt.ne'
    have hlisted : e ∈ membersAbove nodes (strtod (cmd.getD 2 [])) (cmd.getD 3 []) :=
      List.mem_filter.mpr ⟨he, by rw [habove]; rfl⟩
    have hnodup : ((membersAbove nodes (strtod (cmd.getD 2 [])) (cmd.getD 3 [])).map fun e => e.2.key).Nodup :=
      hstored.distinct.sublist (List.filter_sublist.map _)
    rw [List.map_map]
    refine ⟨List.count_eq_one_of_mem hnodup (List.mem_map_of_mem hlisted), fun n hn hkey => ?_⟩
    obtain ⟨e', he', rfl⟩ := List.mem_map.mp hn
    rw [hstored.distinct.eq_of_key_eq (List.mem_of_mem_filter he') he hkey]
  · intro n hn
    obtain ⟨e, he, rfl⟩ := List.mem_map.mp hn
    obtain ⟨hin, hnot⟩ := List.mem_filter.mp he
    refine ⟨hlast ▸ (scoreIn_eq_some hstored).mpr ⟨e, hin, rfl, rfl⟩, ?_⟩
    rw [Bool.eq_false_iff]
    intro hlt
    rw [Double.lt_iff (hranked.notNaN e hin) hbound] at hlt
    rw [(zless_iff 0 (hranked.notNaN e hin) hbound).mpr (.inl hlt)] at hnot
    cases hnot

/-- A NaN between the scores 1 and 5: the member with score 7 is filed in front of it. -/
def nanRun : List (Env × Request) :=
  [({}, .ofTexts ["zadd", "z", "5", "a"]), ({}, .ofTexts ["zadd", "z", "nan", "n"]),
    ({}, .ofTexts ["zadd", "z", "1", "b"]), ({}, .ofTexts ["zadd", "z", "7", "c"])]

/-- The members from score 6 on include one with score 5. -/
theorem zquery_lists_smaller : ∃ g r, run serverStep {} (requestsOf nanRun) = .ok g ∧
    doZrangequery g [] (["zquery", "z", "6", ""].map text) = .ok r ∧
    r.out = pairsReply [⟨strtod (text "7"), text "c", 0⟩, ⟨strtod (text "nan"), text "n", 0⟩,
      ⟨strtod (text "5"), text "a", 0⟩] ∧
    lastScore (opsOn (text "z") nanRun) (text "a") = some (strtod (text "5")) ∧
    (strtod (text "5")).isNaN = false ∧ (strtod (text "5")).lt (strtod (text "6")) = true := by
  obtain ⟨g, hrun, hcheck⟩ := exists_ok_of_check (x := run serverStep {} (requestsOf nanRun))
    (p := fun g => check (doZrangequery g [] (["zquery", "z", "6", ""].map text)) fun r =>
      decide (r.out = pairsReply [⟨strtod (text "7"), text "c", 0⟩, ⟨strtod (text "nan"), text "n", 0⟩,
        ⟨strtod (text "5"), text "a", 0⟩])) (by decide +kernel)
  obtain ⟨r, hquery, hcheck⟩ := exists_ok_of_check hcheck
  exact ⟨g, r, hrun, hquery, of_decide_eq_true hcheck, by decide +kernel, by decide +kernel, by decide +kernel⟩

theorem mem_of_scored {ops : List ZOp} {scores : Bytes → Option Double} {member : Bytes}
    (h : ops.foldl scoresStep scores member ≠ none) : scores member ≠ none ∨ member ∈ ops.map ZOp.member := by
  induction ops generalizing scores with
  | nil => exact .inl h
  | cons op ops ih =>
    rw [List.map_cons, List.mem_cons]
    rcases ih h with hscored | hmem
    · by_cases hop : member = op.member
      · exact .inr (.inl hop)
      · cases op with
        | insert score m => exact .inl (by rwa [scoresStep, Function.update_of_ne (show member ≠ m from hop)] at hscored)
        | delete m => exact .inl (by rwa [scoresStep, Function.update_of_ne (show member ≠ m from hop)] at hscored)
    · exact .inr (.inr hmem)

/-- A run has no more members than operations. -/
theorem ncard_scored_le (ops : List ZOp) : {member | lastScore ops member ≠ none}.ncard ≤ ops.length := by
  have hsub : {member | lastScore ops member ≠ none} ⊆ ((ops.map ZOp.member).toFinset : Set Bytes) := by
    intro member hmember
    simpa using (mem_of_scored hmember).resolve_left fun h => h rfl
  have hcard := Set.ncard_le_ncard hsub (Finset.finite_toSet _)
  rw [Set.ncard_coe_finset] at hcard
  exact hcard.trans ((List.toFinset_card_le _).trans (by rw [List.length_map]))

/-- Two keys, and a member that is removed again. -/
def twoKeysRun : List (Env × Request) :=
  [({}, .ofTexts ["zadd", "z", "1", "a"]), ({}, .ofTexts ["zadd", "y", "nan", "n"]),
    ({}, .ofTexts ["zadd", "z", "inf", "b"]), ({}, .ofTexts ["zrem", "z", "a"])]

theorem zquery_lists_scores_removed : ∃ g r ns, run serverStep {} (requestsOf twoKeysRun) = .ok g ∧
    doZrangequery g [] (["zquery", "z", "0", ""].map text) = .ok r ∧ r.out = pairsReply ns ∧
    (ns.map ZNode.key).count (text "b") = 1 := by
  obtain ⟨g, hrun, -⟩ := exists_ok_of_check (x := run serverStep {} (requestsOf twoKeysRun)) (p := fun _ => true)
    (by decide +kernel)
  have hops : opsOn (text "z") twoKeysRun =
      [.insert (strtod (text "1")) (text "a"), .insert (strtod (text "inf")) (text "b"), .delete (text "a")] := by
    decide +kernel
  obtain ⟨r, ns, hquery, hout, hlisted, -⟩ :=
    @zquery_lists_scores twoKeysRun g (["zquery", "z", "0", ""].map text) [] (by decide +kernel)
    (fun score member hop => by
      rw [show keyOf (["zquery", "z", "0", ""].map text) = text "z" from rfl, hops] at hop
      simp only [List.mem_cons, ZOp.insert.injEq, reduceCtorEq, List.not_mem_nil, or_false] at hop
      rcases hop with ⟨rfl, -⟩ | ⟨rfl, -⟩ <;> decide +kernel)
    (injOn_noNul.mono (by
      rintro _ ⟨op, hop, rfl⟩
      rw [show keyOf (["zquery", "z", "0", ""].map text) = text "z" from rfl, hops] at hop
      simp only [List.mem_cons, List.not_mem_nil, or_false] at hop
      rcases hop with rfl | rfl | rfl <;> decide))
    (by decide +kernel) hrun ((ncard_scored_le _).trans_lt (by decide +kernel)) rfl (by unfold Short; decide +kernel)
    (by decide +kernel)
  exact ⟨g, r, ns, hrun, hquery, hout, (hlisted (text "b") (strtod (text "inf")) (by decide +kernel) (by decide +kernel)).1⟩

end CustomRedis
