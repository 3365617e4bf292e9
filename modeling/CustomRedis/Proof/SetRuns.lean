import CustomRedis.Proof.NestedMap

/-!
# Sets

`do_sadd` inserts its value without looking for it, and `hm_insert` does not look either. As long as no
value is added while it is a member, the map of the set has one node for each member, and the four commands
answer as a set does. A value added twice is linked twice: it is counted and listed twice, and removing it
takes one of the two nodes.
-/

namespace CustomRedis

open KeyedList Run

/-- The members behind a command. The key may be absent. -/
def setStep (s : Option (Finset Bytes)) (r : Request) : Option (Finset Bytes) :=
  match commandOf r.tokens with
  | .sadd => some (insert (r.tokens.getD 2 []) (s.getD ∅))
  | .srem => s.map fun members => members.erase (r.tokens.getD 2 [])
  | _ => s

/-- `SADD` or `SREM` of a value without a zero byte. -/
structure SetRequest (key : Bytes) (r : Request) : Prop where
  key : keyOf r.tokens = key
  args : 3 ≤ r.tokens.length
  noNul : 0 ∉ r.tokens.getD 2 []
  op : commandOf r.tokens = .sadd ∨ commandOf r.tokens = .srem

instance decidableSetRequest (key : Bytes) (r : Request) : Decidable (SetRequest key r) :=
  decidable_of_iff (keyOf r.tokens = key ∧ 3 ≤ r.tokens.length ∧ 0 ∉ r.tokens.getD 2 [] ∧
      (commandOf r.tokens = .sadd ∨ commandOf r.tokens = .srem))
    ⟨fun h => ⟨h.1, h.2.1, h.2.2.1, h.2.2.2⟩, fun h => ⟨h.key, h.args, h.noNul, h.op⟩⟩

/-- An added value is not a member yet. -/
def AddsNew (s : Option (Finset Bytes)) (r : Request) : Prop :=
  commandOf r.tokens = .sadd → r.tokens.getD 2 [] ∉ s.getD ∅

instance decidableAddsNew (s : Option (Finset Bytes)) (r : Request) : Decidable (AddsNew s r) :=
  inferInstanceAs (Decidable (commandOf r.tokens = .sadd → r.tokens.getD 2 [] ∉ s.getD ∅))

def HMap.members (s : HMap Unit) : Finset Bytes := (s.nodes.map HNode.key).toFinset

/-- The payload of a key whose set has these members. -/
def HoldsSet : Option Payload → Option (Finset Bytes) → Prop
  | none, members => members = none
  | some (.set s), members => s.Keyed ∧ members = some s.members
  | some _, _ => False

theorem HoldsSet.exists_set {o : Option Payload} {members : Option (Finset Bytes)} (h : HoldsSet o members) :
    ∃ s, o.getD (.set {}) = .set s ∧ s.Keyed ∧ members.getD ∅ = s.members := by
  cases o with
  | none =>
    obtain rfl : members = none := h
    exact ⟨{}, rfl, HMap.Keyed.empty, rfl⟩
  | some p =>
    cases p with
    | set s => exact ⟨s, rfl, h.1, by rw [h.2]; rfl⟩
    | _ => exact h.elim

section Commands

variable {g : GlobalData} {cmd : List Bytes} {members : Finset Bytes}

theorem doSadd_set (env : Env) (h : g.WF) (hkey : Short (keyOf cmd)) (hvalue : Short (cmd.getD 2 []))
    (hlen : 3 ≤ cmd.length) {s : Option (Finset Bytes)} (hs : HoldsSet (g.payloadOf (keyOf cmd)) s)
    (hnoNul : 0 ∉ cmd.getD 2 []) (hnew : cmd.getD 2 [] ∉ s.getD ∅) (out : Bytes) :
    ∃ g', doSadd env g out cmd = .ok ⟨g', out, .success⟩ ∧ g'.WF ∧
      HoldsSet (g'.payloadOf (keyOf cmd)) (some (insert (cmd.getD 2 []) (s.getD ∅))) := by
  obtain ⟨g₁, n, hup⟩ := findOrInsert_upserted env h hkey (.set {}) (bare_of_type (by decide) (by decide))
  obtain ⟨m, hm, hkeyed, hmembers⟩ := hs.exists_set
  rw [← hup.payload] at hm
  rw [hmembers, HMap.members, List.mem_toFinset] at hnew
  obtain ⟨str, hcopy, hbuf⟩ := dstrCopy_ok hvalue
  obtain ⟨m', jobs, hins, hkeyed', hperm⟩ := hkeyed.insert (fun _ => rfl) hnoNul hnew ()
  obtain ⟨g', hput, hwf, hstored⟩ := hup.put (.set m')
  refine ⟨g', ?_, hwf, ?_⟩
  · rw [doSadd, arg_one (by omega), arg_eq_getD (by omega)]
    simp only [ok_bind, hup.run, hm, hcopy, hbuf, hins, hput]
  · rw [hstored]
    refine ⟨hkeyed', ?_⟩
    rw [hmembers, HMap.members, HMap.members, List.toFinset_eq_of_perm _ _ (hperm.map HNode.key), List.map_cons,
      List.toFinset_cons]

/-- A set with members is found. -/
theorem HoldsSet.exists_node (hs : HoldsSet (g.payloadOf (keyOf cmd)) (some members)) :
    ∃ n s, g.nodeOf (keyOf cmd) = some n ∧ (∀ out, requireSet out (some n) = .ok s) ∧ s.Keyed ∧
      members = s.members := by
  cases hn : g.nodeOf (keyOf cmd) with
  | none =>
    rw [payloadOf_eq_none.mpr hn] at hs
    exact nomatch hs
  | some n =>
    rw [payloadOf_of_nodeOf hn] at hs
    cases hp : n.val.payload with
    | set s =>
      rw [hp] at hs
      exact ⟨n, s, rfl, fun out => by simp only [requireSet, hp], hs.1, Option.some.inj hs.2⟩
    | _ =>
      rw [hp] at hs
      exact hs.elim

theorem doSrem_set (h : g.WF) (hkey : Short (keyOf cmd)) (hvalue : Short (cmd.getD 2 [])) (hlen : 3 ≤ cmd.length)
    (hs : HoldsSet (g.payloadOf (keyOf cmd)) (some members)) (hnoNul : 0 ∉ cmd.getD 2 []) (out : Bytes) :
    ∃ g', doSrem g out cmd = .ok ⟨g', outInt out (if cmd.getD 2 [] ∈ members then 1 else 0), .success⟩ ∧ g'.WF ∧
      HoldsSet (g'.payloadOf (keyOf cmd)) (some (members.erase (cmd.getD 2 []))) := by
  obtain ⟨n, s, hn, hset, hkeyed, rfl⟩ := hs.exists_node
  obtain ⟨str, hcopy, hbuf⟩ := dstrCopy_ok hvalue
  obtain ⟨s', jobs, hdel, hkeyed', hnodes⟩ := hkeyed.delete hnoNul
  obtain ⟨g', hput, hwf, hstored⟩ := putPayload_payloadOf h hkey hn (.set s')
  refine ⟨g', ?_, hwf, ?_⟩
  · rw [doSrem, arg_one (by omega), arg_eq_getD (by omega), ok_bind, ok_bind, findNode_bind h hkey, hn]
    simp only [hset, hcopy, ok_bind, hbuf]
    rw [Probe.mk_some, hdel]
    simp only [ok_bind, hput, HMap.members, List.mem_toFinset, decide_eq_true_eq]
  · rw [hstored]
    refine ⟨hkeyed', congrArg some ?_⟩
    ext value
    simp only [HMap.members, hnodes, Finset.mem_erase, List.mem_toFinset, List.mem_map, List.mem_filter,
      decide_eq_true_eq]
    grind

/-- Without the key there is nothing to remove. -/
theorem doSrem_absent (h : g.WF) (hkey : Short (keyOf cmd)) (hlen : 3 ≤ cmd.length)
    (hs : HoldsSet (g.payloadOf (keyOf cmd)) none) (out : Bytes) :
    doSrem g out cmd = .ok ⟨g, outErr out "node with the provided key does not exist", .notFound⟩ := by
  have hn : g.nodeOf (keyOf cmd) = none := by
    cases hn : g.nodeOf (keyOf cmd) with
    | none => rfl
    | some n =>
      rw [payloadOf_of_nodeOf hn] at hs
      cases hp : n.val.payload <;> rw [hp] at hs
      case set s => exact nomatch hs.2
      all_goals exact hs.elim
  rw [doSrem, arg_one (by omega), arg_eq_getD (by omega), ok_bind, ok_bind, findNode_bind h hkey, hn]
  rfl

end Commands

/-! ### Runs -/

/-- What the commands that read a set answer when it has these members. -/
structure SetAnswers (g : GlobalData) (key : Bytes) (members : Finset Bytes) : Prop where
  smembers : ∀ env r, keyOf r.tokens = key → 2 ≤ r.tokens.length → commandOf r.tokens = .smembers →
    ∃ values : List Bytes, values.Nodup ∧ values.toFinset = members ∧
      respond env g r = .ok (g, outStrs (outArr (beforeResBuild []).1 values.length) values)
  scard : ∀ env r, keyOf r.tokens = key → 2 ≤ r.tokens.length → commandOf r.tokens = .scard →
    respond env g r = .ok (g, outInt (beforeResBuild []).1 members.card)

theorem HoldsSet.answers {g : GlobalData} (h : g.WF) {key : Bytes} {members : Finset Bytes}
    (hs : HoldsSet (g.payloadOf key) (some members)) : SetAnswers g key members where
  smembers env r hkey hlen hc := by
    subst hkey
    obtain ⟨n, s, hn, hset, hkeyed, rfl⟩ := hs.exists_node
    have hrun : doSmembers g (beforeResBuild []).1 r.tokens =
        .ok ⟨g, outStrs (outArr (beforeResBuild []).1 (hmKeys s).length) (hmKeys s), .success⟩ := by
      rw [doSmembers, arg_one (by omega), ok_bind, findNode_bind h r.short_key, hn]
      simp only [hset]
    refine ⟨hmKeys s, ?_, ?_, respond_of_run hc (by omega) hrun⟩
    · rw [hmKeys_eq]
      exact hkeyed.distinct
    · rw [hmKeys_eq]
      rfl
  scard env r hkey hlen hc := by
    subst hkey
    obtain ⟨n, s, hn, hset, hkeyed, rfl⟩ := hs.exists_node
    have hrun : doScard g (beforeResBuild []).1 r.tokens =
        .ok ⟨g, outInt (beforeResBuild []).1 s.members.card, .success⟩ := by
      rw [doScard, arg_one (by omega), ok_bind, findNode_bind h r.short_key, hn]
      simp only [hset]
      rw [hkeyed.wf.hmSize_eq, HMap.members, List.toFinset_card_of_nodup hkeyed.distinct, List.length_map]
    exact respond_of_run hc (by omega) hrun

/-- The reply to `SREM`. -/
def sremReply (value : Bytes) : Option (Finset Bytes) → Bytes
  | none => outErr (beforeResBuild []).1 "node with the provided key does not exist"
  | some members => outInt (beforeResBuild []).1 (if value ∈ members then 1 else 0)

theorem respond_set {key : Bytes} (env : Env) {g : GlobalData} {s : Option (Finset Bytes)} {r : Request} (h : g.WF)
    (hs : HoldsSet (g.payloadOf key) s) (hr : SetRequest key r) (hnew : AddsNew s r) :
    ∃ g' out, respond env g r = .ok (g', out) ∧ g'.WF ∧ HoldsSet (g'.payloadOf key) (setStep s r) ∧
      (commandOf r.tokens = .srem → out = sremReply (r.tokens.getD 2 []) s) := by
  obtain ⟨rfl, hlen, hnoNul, hc | hc⟩ := hr
  · obtain ⟨g', hrun, hwf, hholds⟩ := doSadd_set env h r.short_key (r.short_token 2) hlen hs hnoNul (hnew hc)
      (beforeResBuild []).1
    refine ⟨g', _, respond_of_run hc (by omega) hrun, hwf, ?_, fun hc' => nomatch hc.symm.trans hc'⟩
    rw [setStep, hc]
    exact hholds
  · cases s with
    | none =>
      refine ⟨g, _, respond_of_run hc (by omega) (doSrem_absent h r.short_key hlen hs _), h, ?_, fun _ => rfl⟩
      rw [setStep, hc]
      exact hs
    | some members =>
      obtain ⟨g', hrun, hwf, hholds⟩ := doSrem_set h r.short_key (r.short_token 2) hlen hs hnoNul (beforeResBuild []).1
      refine ⟨g', _, respond_of_run hc (by omega) hrun, hwf, ?_, fun _ => rfl⟩
      rw [setStep, hc]
      exact hholds

/-- The members that the requests of a run leave. -/
def setAfter (requests : List (Env × Request)) : Option (Finset Bytes) :=
  requests.foldl (fun s e => setStep s e.2) none

/-- In every run that adds no value twice the set answers as the set of its members does. -/
theorem sets_without_duplicates {g₀ : GlobalData} (hg : Reachable g₀) {key : Bytes} (habsent : g₀.nodeOf key = none)
    (requests : List (Env × Request))
    (hreq : Follows (fun s e => setStep s e.2) (fun s e => SetRequest key e.2 ∧ AddsNew s e.2) none requests) :
    ∃ g, run serverStep g₀ (requests.map fun e => .request e.1 e.2) = .ok g ∧
      (∀ members, setAfter requests = some members → SetAnswers g key members) ∧
      ∀ env r, SetRequest key r → commandOf r.tokens = .srem →
        ∃ g', respond env g r = .ok (g', sremReply (r.tokens.getD 2 []) (setAfter requests)) ∧
          ∀ members, setAfter requests = some members → SetAnswers g' key (members.erase (r.tokens.getD 2 [])) := by
  have hstep : ∀ env g s r, g.WF → HoldsSet (g.payloadOf key) s → SetRequest key r ∧ AddsNew s r →
      ∃ g' out, respond env g r = .ok (g', out) ∧ g'.WF ∧ HoldsSet (g'.payloadOf key) (setStep s r) := by
    intro env g s r h hs hr
    obtain ⟨g', out, hres, hwf, hholds, -⟩ := respond_set env h hs hr.1 hr.2
    exact ⟨g', out, hres, hwf, hholds⟩
  obtain ⟨g, hrun, hwf, hholds⟩ := run_on_key HoldsSet hstep hg habsent rfl hreq
  change HoldsSet (g.payloadOf key) (setAfter requests) at hholds
  refine ⟨g, hrun, fun members hmembers => (hmembers ▸ hholds).answers hwf, fun env r hr hc => ?_⟩
  have hnew : AddsNew (setAfter requests) r := fun hadd => nomatch hc.symm.trans hadd
  obtain ⟨g', out, hres, hwf', hholds', hreply⟩ := respond_set env hwf hholds hr hnew
  refine ⟨g', hreply hc ▸ hres, fun members hmembers => ?_⟩
  rw [setStep, hc, hmembers] at hholds'
  exact hholds'.answers hwf'

/-- A member that is removed may be added again. -/
theorem sets_without_duplicates_readded : ∃ g, run serverStep {}
      [.request {} (.ofTexts ["sadd", "s", "a"]), .request {} (.ofTexts ["sadd", "s", "b"]),
        .request {} (.ofTexts ["srem", "s", "a"]), .request {} (.ofTexts ["sadd", "s", "a"])] = .ok g ∧
    respond {} g (.ofTexts ["scard", "s"]) = .ok (g, outInt (beforeResBuild []).1 2) ∧
    ∃ g', respond {} g (.ofTexts ["srem", "s", "b"]) = .ok (g', outInt (beforeResBuild []).1 1) := by
  let requests : List (Env × Request) :=
    [({}, .ofTexts ["sadd", "s", "a"]), ({}, .ofTexts ["sadd", "s", "b"]), ({}, .ofTexts ["srem", "s", "a"]),
      ({}, .ofTexts ["sadd", "s", "a"])]
  have habsent : ({} : GlobalData).nodeOf (text "s") = none := by decide
  have hafter : setAfter requests = some {text "a", text "b"} := by decide +kernel
  obtain ⟨g, hrun, hanswers, hsrem⟩ := sets_without_duplicates ⟨[], rfl⟩ habsent requests (by decide +kernel)
  obtain ⟨g', hres, -⟩ := hsrem {} (.ofTexts ["srem", "s", "b"]) (by decide +kernel) (by decide +kernel)
  refine ⟨g, hrun, ?_, g', ?_⟩
  · exact (hanswers _ hafter).scard {} (.ofTexts ["scard", "s"]) (by decide) (by decide) (by decide)
  · have hreply : sremReply (text "b") (some {text "a", text "b"}) = outInt (beforeResBuild []).1 1 := by decide +kernel
    rw [hafter] at hres
    exact hreply ▸ hres

/-- A value that is added twice counts as two members, is listed twice, and stays a member when it is removed. -/
theorem sadd_twice_counts_two :
    setAfter [({}, .ofTexts ["sadd", "s", "a"]), ({}, .ofTexts ["sadd", "s", "a"])] = some {text "a"} ∧
    ∃ g g', run serverStep {} [.request {} (.ofTexts ["sadd", "s", "a"]), .request {} (.ofTexts ["sadd", "s", "a"])] =
      .ok g ∧
    respond {} g (.ofTexts ["scard", "s"]) = .ok (g, outInt (beforeResBuild []).1 2) ∧
    respond {} g (.ofTexts ["smembers", "s"]) =
      .ok (g, outStrs (outArr (beforeResBuild []).1 2) [text "a", text "a"]) ∧
    respond {} g (.ofTexts ["srem", "s", "a"]) = .ok (g', outInt (beforeResBuild []).1 1) ∧
    respond {} g' (.ofTexts ["smembers", "s"]) = .ok (g', outStrs (outArr (beforeResBuild []).1 1) [text "a"]) := by
  refine ⟨by decide +kernel, ?_⟩
  obtain ⟨g, hrun, hcheck⟩ := exists_ok_of_check (x := run serverStep {}
      [.request {} (.ofTexts ["sadd", "s", "a"]), .request {} (.ofTexts ["sadd", "s", "a"])])
    (p := fun g => decide (respond {} g (.ofTexts ["scard", "s"]) = .ok (g, outInt (beforeResBuild []).1 2) ∧
        respond {} g (.ofTexts ["smembers", "s"]) =
          .ok (g, outStrs (outArr (beforeResBuild []).1 2) [text "a", text "a"])) &&
      check (respond {} g (.ofTexts ["srem", "s", "a"])) fun res =>
        decide (res.2 = outInt (beforeResBuild []).1 1 ∧ respond {} res.1 (.ofTexts ["smembers", "s"]) =
          .ok (res.1, outStrs (outArr (beforeResBuild []).1 1) [text "a"])))
    (by decide +kernel)
  obtain ⟨hread, hremoved⟩ := Bool.and_eq_true_iff.mp hcheck
  obtain ⟨hscard, hsmembers⟩ := of_decide_eq_true hread
  obtain ⟨⟨g', out⟩, hsrem, hcheck⟩ := exists_ok_of_check hremoved
  obtain ⟨hout, hleft⟩ := of_decide_eq_true hcheck
  exact ⟨g, g', hrun, hscard, hsmembers, hout ▸ hsrem, hleft⟩

end CustomRedis
