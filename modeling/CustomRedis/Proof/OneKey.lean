import CustomRedis.Proof.Reachable

/-!
# The value of one key

What the commands on one key see of the database: nothing, or the payload of its node. The commands that
create the key find or insert its node and write the payload back; the others read it. What a payload
means is left open here, so that the value types differ only in what they do to their payloads.
-/

namespace CustomRedis

open Run

/-- The payload of the node of a key. -/
def GlobalData.payloadOf (g : GlobalData) (key : Bytes) : Option Payload := (g.nodeOf key).map fun n => n.val.payload

theorem payloadOf_of_nodeOf {g : GlobalData} {key : Bytes} {n : HNode Entry} (h : g.nodeOf key = some n) :
    g.payloadOf key = some n.val.payload := by
  rw [GlobalData.payloadOf, h]
  rfl

theorem payloadOf_eq_none {g : GlobalData} {key : Bytes} : g.payloadOf key = none ↔ g.nodeOf key = none :=
  Option.map_eq_none_iff

theorem nodeOf_of_payloadOf {g : GlobalData} {key : Bytes} {p : Payload} (h : g.payloadOf key = some p) :
    ∃ n, g.nodeOf key = some n ∧ n.val.payload = p :=
  Option.map_eq_some_iff.mp h

theorem putPayload_payloadOf {g : GlobalData} (h : g.WF) {key : Bytes} (hkey : Short key) {n : HNode Entry}
    (hn : g.nodeOf key = some n) (p : Payload) :
    ∃ g', putPayload g key p = .ok g' ∧ g'.WF ∧ g'.payloadOf key = some p := by
  obtain ⟨g', hw⟩ := putPayload_spec h hkey hn p
  refine ⟨g', hw.run, hw.wf, ?_⟩
  rw [GlobalData.payloadOf, GlobalData.nodeOf, hw.find, show g.db.find (keyId key) = some n from hn]
  simp

/-- The node of a key is deleted by any probe with its identity. -/
theorem deleteNode_payloadOf {g : GlobalData} (h : g.WF) {key : Bytes} {p : Payload} (hp : g.payloadOf key = some p)
    {hcode : UInt64} {key' : Bytes} (hid : (hcode, cstr key') = keyId key) :
    ∃ g', deleteNode g (.ofKey hcode key') = .ok (g', true) ∧ g'.WF ∧ g'.payloadOf key = none := by
  obtain ⟨n, hn, -⟩ := nodeOf_of_payloadOf hp
  rcases deleteNode_spec h hcode key' with ⟨hnone, -⟩ | ⟨n', g', hn', hdel, hd⟩
  · rw [hid] at hnone
    exact nomatch hnone.symm.trans hn
  · rw [hid] at hn'
    refine ⟨g', hdel, hd.wf, ?_⟩
    rw [GlobalData.payloadOf, GlobalData.nodeOf, hd.find, if_pos ((GlobalData.nodeOf_eq_some h).mp hn').2.symm]
    rfl

/-- The node that a command finds or inserts for its key, and the writes to it. -/
structure Upserted (env : Env) (g : GlobalData) (key : Bytes) (new : Payload) (g₁ : GlobalData) (n : HNode Entry) :
    Prop where
  run : findOrInsert env g key new = .ok (g₁, n)
  payload : n.val.payload = (g.payloadOf key).getD new
  wf : g₁.WF
  stored : g₁.payloadOf key = some n.val.payload
  put : ∀ p, ∃ g', putPayload g₁ key p = .ok g' ∧ g'.WF ∧ g'.payloadOf key = some p

theorem findOrInsert_upserted (env : Env) {g : GlobalData} (h : g.WF) {key : Bytes} (hkey : Short key) (new : Payload)
    (hbare : new.Bare) : ∃ g₁ n, Upserted env g key new g₁ n := by
  rcases findOrInsert_spec env h hkey hbare with ⟨n, hn, hrun⟩ | ⟨hnone, g₁, hi, hrun⟩
  · refine ⟨g, n, hrun, ?_, h, payloadOf_of_nodeOf hn, putPayload_payloadOf h hkey hn⟩
    rw [payloadOf_of_nodeOf hn]
    rfl
  · have hn := hi.nodeOf hbare
    refine ⟨g₁, _, hrun, ?_, hi.wf, payloadOf_of_nodeOf hn, putPayload_payloadOf hi.wf hkey hn⟩
    rw [payloadOf_eq_none.mpr hnone]
    rfl

/-! ### Runs on one key

`step` is what a request does to the abstract value of the key, `holds` says which payload has which value,
and a request is admissible in a value where `ok` holds. The run starts without the key. -/

section Runs

variable {σ : Type} {key : Bytes} {step : σ → Request → σ} {ok : σ → Request → Prop}

theorem run_on_key (holds : Option Payload → σ → Prop)
    (hstep : ∀ env g s r, g.WF → holds (g.payloadOf key) s → ok s r → ∃ g' out, respond env g r = .ok (g', out) ∧
      g'.WF ∧ holds (g'.payloadOf key) (step s r))
    {g : GlobalData} (hg : Reachable g) (habsent : g.nodeOf key = none) {s : σ} (hs : holds none s) {requests : List (Env × Request)}
    (hok : Follows (fun s e => step s e.2) (fun s e => ok s e.2) s requests) :
    ∃ g', run serverStep g (requests.map fun e => .request e.1 e.2) = .ok g' ∧ g'.WF ∧
      holds (g'.payloadOf key) (requests.foldl (fun s e => step s e.2) s) := by
  have hserver : ∀ g s (e : Env × Request), g.WF ∧ holds (g.payloadOf key) s → ok s e.2 →
      ∃ g', serverStep g (.request e.1 e.2) = .ok g' ∧ g'.WF ∧ holds (g'.payloadOf key) (step s e.2) := by
    intro g s e h hok
    obtain ⟨g', out, hrun, hwf, hholds⟩ := hstep e.1 g s e.2 h.1 h.2 hok
    refine ⟨g', ?_, hwf, hholds⟩
    rw [serverStep, hrun]
    rfl
  rw [← payloadOf_eq_none.mpr habsent] at hs
  obtain ⟨g', hrun, hwf, hholds⟩ := simulate_follows hserver ⟨hg.wf, hs⟩ hok
  exact ⟨g', (run_map serverStep _ _ _).trans hrun, hwf, hholds⟩

end Runs

end CustomRedis
