import CustomRedis.Proof.Handlers
import CustomRedis.Proof.Heap

/-!
# The states of a running server

The events of the server, one by one, keep the keyspace well-formed, whatever the heap of deadlines looks
like. So every state that a run reaches is well-formed, and every request in it has one of the outcomes.
-/

namespace CustomRedis

open Run (ok_of_bind)

/-- The states that the server can reach from its start. -/
def Reachable (g : GlobalData) : Prop := ∃ es, Run.run serverStep {} es = .ok g

theorem GlobalData.WF.withTtl {g : GlobalData} (h : g.WF) {ttl : Heap} (hlive : g.ttl.SameLive ttl) :
    ({ g with ttl := ttl } : GlobalData).WF :=
  h.of_links h.db rfl hlive

theorem Outcome.wf {env : Env} {g g' : GlobalData} {out out' : Bytes} {cmd : List Bytes} {c : Command} (h : g.WF)
    (ho : Outcome env g out cmd c g' out') : g'.WF := by
  cases ho with
  | replied _ _ => exact h
  | missing => exact h
  | refused _ _ => exact h
  | written _ _ _ _ hw => exact hw.wf
  | created _ _ _ hi => exact hi.wf
  | filled _ _ _ _ _ _ hw => exact hw.wf
  | halfway _ _ _ hi => exact hi.wf
  | deleted _ _ hd => exact hd.wf
  | emptied _ _ _ _ _ _ _ hd => exact hd.wf
  | expires _ _ ht => exact h.withTtl (setTtl_sameLive ht)
  | persists _ _ ht => exact h.withTtl (remTtl_sameLive ht)

/-- The request with the given words, each cut off at the limit of the client. -/
def Request.ofTexts (words : List String) : Request where
  tokens := words.map fun w => (text w).take 4096
  short := by
    intro t ht
    obtain ⟨w, -, rfl⟩ := List.mem_map.mp ht
    have hlen := List.length_take_le 4096 (text w)
    unfold maxStrSize
    omega

theorem Request.short_token (r : Request) (i : Nat) : Short (r.tokens.getD i []) := by
  rw [List.getD_eq_getElem?_getD]
  cases htoken : r.tokens[i]? with
  | none => exact Nat.zero_le _
  | some t => exact r.short t (List.mem_of_getElem? htoken)

theorem Request.short_key (r : Request) : Short (keyOf r.tokens) := r.short_token 1

theorem respond_of_run {env : Env} {g : GlobalData} {r : Request} {c : Command} (hc : commandOf r.tokens = c)
    (hlen : 0 < r.tokens.length) {res : Result}
    (hrun : runCommand env g (beforeResBuild []).1 r.tokens c = .ok res) :
    respond env g r = .ok (res.data, res.out) := by
  rw [respond, outBuffer, arg_eq_getD hlen, hc]
  simp only [bind, Except.bind, hrun]

theorem respond_of_fault {env : Env} {g : GlobalData} {r : Request} {c : Command} (hc : commandOf r.tokens = c)
    (hlen : 0 < r.tokens.length) {fault : Fault}
    (hrun : runCommand env g (beforeResBuild []).1 r.tokens c = .error fault) : respond env g r = .error fault := by
  rw [respond, outBuffer, arg_eq_getD hlen, hc]
  simp only [bind, Except.bind, hrun]

/-- A request that is answered has one of the outcomes. -/
theorem respond_outcome {env : Env} {g g' : GlobalData} {r : Request} {out : Bytes} (h : g.WF)
    (hrun : respond env g r = .ok (g', out)) :
    Outcome env g (beforeResBuild []).1 r.tokens (commandOf r.tokens) g' out := by
  obtain ⟨_, -, hrun⟩ := ok_of_bind hrun
  obtain ⟨res, hres, hrun⟩ := ok_of_bind hrun
  cases hrun
  exact runCommand_outcome h r.short_key (r.short_token 2) hres

/-! ### The maps inside the payloads -/

/-- The map inside every payload is laid out as `hashmap.cpp` expects it. -/
def GlobalData.Shaped (g : GlobalData) : Prop := ∀ n ∈ g.db.nodes, n.val.payload.Shaped

theorem clear_shaped {e : Entry} (h : e.payload.Shaped) : (Teardown.clear e).payload.Shaped := by
  rcases e with ⟨addr, payload⟩
  cases payload with
  | zset z => exact HMap.WF.empty.toShape
  | hset hmap => exact HMap.WF.empty.toShape
  | _ => exact h

theorem afterInsert_shaped (m : HMap Entry) (node : HNode Entry) {n : HNode Entry} (h : n.val.payload.Shaped) :
    (afterInsert m node n).val.payload.Shaped := by
  unfold afterInsert
  split
  · unfold unlinked
    split
    · exact h
    · exact clear_shaped h
  · exact h

theorem Inserted.shaped {env : Env} {g g' : GlobalData} {key : Bytes} {payload : Payload} (hg : g.Shaped)
    (hp : payload.Shaped) (h : Inserted env g key payload g') : g'.Shaped := by
  intro n hn
  obtain ⟨m, hm, rfl⟩ := List.mem_map.mp (h.nodes.mem_iff.mp hn)
  apply afterInsert_shaped
  rcases List.mem_cons.mp hm with rfl | hm
  · exact hp
  · exact hg m hm

theorem Written.shaped {g g' : GlobalData} {key : Bytes} {payload : Payload} (hg : g.Shaped) (hp : payload.Shaped)
    (h : Written g key payload g') : g'.Shaped := by
  intro n hn
  rw [h.nodes] at hn
  obtain ⟨m, hm, rfl⟩ := List.mem_map.mp hn
  split
  · exact hp
  · exact hg m hm

theorem Deleted.shaped {g g' : GlobalData} {n : HNode Entry} (hg : g.Shaped) (h : Deleted g n g') : g'.Shaped := by
  intro m hm
  rw [h.nodes] at hm
  exact hg m (List.mem_filter.mp hm).1

theorem Outcome.shaped {env : Env} {g g' : GlobalData} {out out' : Bytes} {cmd : List Bytes} {c : Command} (h : g.WF)
    (hg : g.Shaped) (ho : Outcome env g out cmd c g' out') : g'.Shaped := by
  cases ho with
  | replied _ _ => exact hg
  | missing => exact hg
  | refused _ _ => exact hg
  | written _ hnode _ hshape hw => exact hw.shaped hg (hshape (hg _ ((GlobalData.nodeOf_eq_some h).mp hnode).1))
  | created _ _ _ hi => exact hi.shaped hg (newPayload_shaped _ _)
  | filled _ _ _ hi _ hshape hw => exact hw.shaped (hi.shaped hg (newPayload_shaped _ _)) hshape
  | halfway _ _ _ hi => exact hi.shaped hg (newPayload_shaped _ _)
  | deleted _ _ hd => exact hd.shaped hg
  | emptied _ hnode _ hshape _ hw _ hd =>
    exact hd.shaped (hw.shaped hg (hshape (hg _ ((GlobalData.nodeOf_eq_some h).mp hnode).1)))
  | expires _ _ _ => exact hg
  | persists _ _ _ => exact hg

/-! ### The timers -/

theorem nodeAt_ok {g : GlobalData} {addr : Ptr} {n : HNode Entry} (hrun : nodeAt g addr = .ok n) :
    n ∈ g.db.nodes ∧ n.val.addr = addr := by
  unfold nodeAt at hrun
  split at hrun
  · next m hfind =>
    cases hrun
    exact ⟨List.mem_of_find?_eq_some hfind, by simpa using List.find?_some hfind⟩
  · cases hrun

theorem deleteNode_ok {g g' : GlobalData} {hcode : UInt64} {key : Bytes} {deleted : Bool} (h : g.WF)
    (hrun : deleteNode g ⟨hcode, some key⟩ = .ok (g', deleted)) : g' = g ∨ ∃ n, Deleted g n g' := by
  rcases deleteNode_spec h hcode key with ⟨-, hdel⟩ | ⟨n, g₁, -, hdel, hd⟩
  · cases hdel.symm.trans hrun
    exact .inl rfl
  · cases hdel.symm.trans hrun
    exact .inr ⟨n, hd⟩

theorem expireEntries_invariant {n now : Nat} {g g' : GlobalData} (h : g.WF) (hs : g.Shaped)
    (hrun : expireEntries n g now = .ok g') : g'.WF ∧ g'.Shaped := by
  induction n generalizing g with
  | zero =>
    cases hrun
    exact ⟨h, hs⟩
  | succ n ih =>
    rw [expireEntries] at hrun
    split at hrun
    · cases hrun
      exact ⟨h, hs⟩
    · split at hrun
      · obtain ⟨hnode, -, hrun⟩ := ok_of_bind hrun
        obtain ⟨ttl, httl, hrun⟩ := ok_of_bind hrun
        obtain ⟨⟨g₁, _⟩, hdel, hrun⟩ := ok_of_bind hrun
        have hwf := h.withTtl (remTtl_sameLive httl)
        have hs₁ : ({ g with ttl := ttl } : GlobalData).Shaped := hs
        rcases deleteNode_ok hwf hdel with rfl | ⟨m, hd⟩
        · exact ih hwf hs₁ hrun
        · exact ih hd.wf (hd.shaped hs₁) hrun
      · cases hrun
        exact ⟨h, hs⟩

/-! ### Runs -/

theorem workerStep_shaped {g g' : GlobalData} (hs : g.Shaped) (hrun : workerStep g = .ok g') : g'.Shaped := by
  unfold workerStep at hrun
  split at hrun
  · cases hrun
    exact hs
  · next addr queue hqueue =>
    split at hrun
    · cases hrun
      intro n hn
      rw [HMap.mapVal_nodes] at hn
      obtain ⟨m, hm, rfl⟩ := List.mem_map.mp hn
      dsimp only
      split
      · exact clear_shaped (hs m hm)
      · exact hs m hm
    · cases hrun

theorem serverStep_invariant {g g' : GlobalData} {e : Event} (h : g.WF ∧ g.Shaped)
    (hrun : serverStep g e = .ok g') : g'.WF ∧ g'.Shaped := by
  cases e with
  | request env r =>
    obtain ⟨⟨g₁, out⟩, hres, hrun⟩ := ok_of_bind hrun
    cases hrun
    have ho := respond_outcome h.1 hres
    exact ⟨ho.wf h.1, ho.shaped h.1 h.2⟩
  | tick now => exact expireEntries_invariant h.1 h.2 hrun
  | work => exact ⟨(workerStep_spec h.1 hrun).1, workerStep_shaped h.2 hrun⟩

theorem Reachable.invariant {g : GlobalData} (h : Reachable g) : g.WF ∧ g.Shaped := by
  obtain ⟨es, hrun⟩ := h
  apply Run.invariant (fun _ _ _ hs hstep => serverStep_invariant hs hstep) ?_ hrun
  exact ⟨GlobalData.WF.empty, nofun⟩

theorem Reachable.wf {g : GlobalData} (h : Reachable g) : g.WF := h.invariant.1

theorem Reachable.shaped {g : GlobalData} (h : Reachable g) : g.Shaped := h.invariant.2

end CustomRedis
