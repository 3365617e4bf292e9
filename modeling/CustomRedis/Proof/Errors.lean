import CustomRedis.Proof.Reachable

/-!
# Error replies

The status of a reply stands behind its length, the tag and count of the array around it, and the tag of
an integer. `out_err` overwrites it. So a command has failed exactly if its reply was made by `out_err`, and
all failing commands but one leave the keyspace alone.
-/

namespace CustomRedis

open Run (ok_of_bind check exists_ok_of_check)

/-- The status code of a reply. -/
def statusOf (reply : Bytes) : Nat := leNat 4 (reply.drop 10)

/-- The deadlines that wait for a key. -/
def GlobalData.deadlines (g : GlobalData) (key : Bytes) : List Nat :=
  match g.nodeOf key with
  | none => []
  | some n => (g.ttl.entries.filter fun e => e.posRef = n.val.addr).map HeapNode.val

/-- The same keys with the same types, payloads and deadlines. -/
def SameKeyspace (g g' : GlobalData) : Prop :=
  ∀ key, (g'.nodeOf key).map (fun n => n.val.payload) = (g.nodeOf key).map (fun n => n.val.payload) ∧
    g'.deadlines key = g.deadlines key

theorem SameKeyspace.refl (g : GlobalData) : SameKeyspace g g := fun _ => ⟨rfl, rfl⟩

/-! ### The status -/

/-- What `before_res_build` puts in front of the status. -/
def replyHead : Bytes := leBytes 4 0 ++ [tagArr] ++ leBytes 4 2 ++ [tagInt]

theorem beforeResBuild_eq (out : Bytes) : (beforeResBuild out).1 = out ++ (replyHead ++ leBytes 4 resOk) := by
  simp only [beforeResBuild, bufAppendU32, bufAppendU8, bufAppend, replyHead, List.append_assoc]

theorem bufRemLastResCode_eq (out : Bytes) : bufRemLastResCode (beforeResBuild out).1 = out ++ replyHead := by
  rw [beforeResBuild_eq, bufRemLastResCode, ← List.append_assoc]
  apply List.take_left'
  simp only [List.length_append, leBytes, List.length_cons, List.length_nil]
  omega

theorem statusOf_eq (out : Bytes) (status : Nat) (rest : Bytes) :
    statusOf ((out ++ replyHead ++ (leBytes 4 status ++ rest)).drop out.length) = leNat 4 (leBytes 4 status ++ rest) := by
  rw [statusOf, List.append_assoc, List.drop_left, List.drop_left' (by rfl)]

theorem status_of_append {out out' : Bytes} (h : (beforeResBuild out).1 <+: out') :
    statusOf (out'.drop out.length) = resOk := by
  obtain ⟨rest, rfl⟩ := h
  rw [beforeResBuild_eq, ← List.append_assoc, List.append_assoc, statusOf_eq]
  rfl

theorem status_outErr (out : Bytes) (mes : String) :
    statusOf ((outErr (beforeResBuild out).1 mes).drop out.length) = resErr := by
  simp only [outErr, bufAppendU32, bufAppendU8, bufAppend, bufRemLastResCode_eq, List.append_assoc]
  rw [← List.append_assoc, statusOf_eq]
  rfl

/-! ### The commands -/

/-- A failing command has left the keyspace alone, or it is the one that creates its key before it fails. -/
theorem Outcome.of_error {env : Env} {g g' : GlobalData} {out out' : Bytes} {cmd : List Bytes} {c : Command}
    (ho : Outcome env g (beforeResBuild out).1 cmd c g' out') (herr : statusOf (out'.drop out.length) = resErr) :
    g' = g ∨ (c = .setbit ∧ g.nodeOf (keyOf cmd) = none ∧ BadBit cmd) := by
  have hok : ∀ {out'}, (beforeResBuild out).1 <+: out' → statusOf (out'.drop out.length) ≠ resErr := by
    intro out' hout
    rw [status_of_append hout]
    decide
  cases ho with
  | replied _ _ => exact .inl rfl
  | missing => exact .inl rfl
  | refused _ _ => exact .inl rfl
  | written hout _ _ _ _ => exact absurd herr (hok hout)
  | created _ hout _ _ => exact absurd herr (hok hout)
  | filled _ hout _ _ _ _ _ => exact absurd herr (hok hout)
  | halfway _ hnode hbad _ => exact .inr ⟨rfl, hnode, hbad⟩
  | deleted hout _ _ => exact absurd herr (hok hout)
  | emptied hout _ _ _ _ _ _ _ => exact absurd herr (hok hout)
  | expires hout _ _ => exact absurd herr (hok hout)
  | persists hout _ _ => exact absurd herr (hok hout)

/-- On a missing key with bad arguments, `do_setbit` creates the key and fails. -/
theorem doSetbit_halfway (env : Env) {g : GlobalData} (h : g.WF) {cmd : List Bytes} (hkey : Short (keyOf cmd))
    (hnew : g.nodeOf (keyOf cmd) = none) (hbad : BadBit cmd) (out : Bytes) :
    ∃ g' mes ret, doSetbit env g out cmd = .ok ⟨g', outErr out mes, ret⟩ ∧ g'.nodeOf (keyOf cmd) ≠ none := by
  obtain ⟨hlen, hbad⟩ := hbad
  rcases findOrInsert_spec env h hkey (newPayload_bare cmd .setbit) with ⟨n, hn, -⟩ | ⟨-, g', hi, hfind⟩
  · rw [hnew] at hn
    cases hn
  have hmade : g'.nodeOf (keyOf cmd) ≠ none := by
    rw [hi.nodeOf (newPayload_bare cmd .setbit)]
    exact nofun
  have hfind' : findOrInsert env g (cmd.getD 1 []) (.bitmap ⟨[], 0, sizeofDstr + 0 + 1⟩) = _ := hfind
  rw [doSetbit, arg_eq_getD (by omega), arg_eq_getD (by omega), arg_eq_getD (by omega)]
  simp only [bind, Except.bind, dstrInit_eq (Nat.zero_le _), hfind', freshNode, newPayload]
  by_cases hidx : strtol (cmd.getD 2 []) < 0 ∨ strtol (cmd.getD 2 []) > 2 ^ 32 - 1
  · rw [if_pos hidx]
    exact ⟨g', _, _, rfl, hmade⟩
  · rw [if_neg hidx, if_pos (by simpa using hbad.resolve_left hidx)]
    exact ⟨g', _, _, rfl, hmade⟩

/-- Every failing command leaves the keyspace as it was, except `SETBIT` on a missing key with a bad index or
a bad bit. -/
theorem error_keeps_keyspace_iff {env : Env} {g : GlobalData} {r : Request} (hg : Reachable g) (out : Bytes) :
    (∀ g' out', outBuffer env g (beforeResBuild out).1 r.tokens = .ok (g', out') →
        statusOf (out'.drop out.length) = resErr → SameKeyspace g g') ↔
      ¬(commandOf r.tokens = .setbit ∧ g.nodeOf (keyOf r.tokens) = none ∧ BadBit r.tokens) := by
  constructor
  · rintro hsame ⟨hcmd, hnew, hbad⟩
    obtain ⟨g', mes, ret, hrun, hmade⟩ := doSetbit_halfway env hg.wf r.short_key hnew hbad (beforeResBuild out).1
    have hlen := hbad.1
    have hbuf : outBuffer env g (beforeResBuild out).1 r.tokens = .ok (g', outErr (beforeResBuild out).1 mes) := by
      rw [outBuffer, arg_eq_getD (by omega), hcmd]
      simp only [bind, Except.bind, runCommand, hrun]
    obtain ⟨hnode, -⟩ := hsame g' _ hbuf (status_outErr out mes) (keyOf r.tokens)
    rw [hnew, Option.map_none, Option.map_eq_none_iff] at hnode
    exact hmade hnode
  · intro hcond g' out' hrun herr
    obtain ⟨_, -, hrun⟩ := ok_of_bind hrun
    obtain ⟨res, hres, hrun⟩ := ok_of_bind hrun
    cases hrun
    rcases (runCommand_outcome hg.wf r.short_key (r.short_token 2) hres).of_error herr with hsame | hbad
    · rw [hsame]
      exact SameKeyspace.refl g
    · exact absurd hbad hcond

/-- An index below zero, on an empty database. -/
theorem setbit_error_creates_key : ∃ g' out', outBuffer {} {} (beforeResBuild []).1
    (Request.ofTexts ["setbit", "k", "-1", "1"]).tokens = .ok (g', out') ∧ statusOf out' = resErr ∧
    ¬SameKeyspace {} g' := by
  obtain ⟨⟨g', out'⟩, hrun, hcheck⟩ := exists_ok_of_check
    (x := outBuffer {} {} (beforeResBuild []).1 (Request.ofTexts ["setbit", "k", "-1", "1"]).tokens)
    (p := fun res => decide (statusOf res.2 = resErr ∧ (res.1.nodeOf (text "k")).isSome)) (by decide +kernel)
  obtain ⟨herr, hmade⟩ := of_decide_eq_true hcheck
  refine ⟨g', out', hrun, herr, fun hsame => ?_⟩
  obtain ⟨hnode, -⟩ := hsame (text "k")
  obtain ⟨n, hn⟩ := Option.isSome_iff_exists.mp hmade
  rw [show g'.nodeOf (text "k") = some n from hn] at hnode
  cases hnode

/-- A push to a key that holds a string. -/
theorem error_keeps_keyspace_push : ∃ g g' out', Run.run serverStep {} [.request {} (.ofTexts ["set", "k", "v"])] = .ok g ∧
    (g.nodeOf (text "k")).isSome ∧
    outBuffer {} g (beforeResBuild []).1 (Request.ofTexts ["lpush", "k", "x"]).tokens = .ok (g', out') ∧
    statusOf out' = resErr ∧ SameKeyspace g g' := by
  obtain ⟨g, hrun, hcheck⟩ := exists_ok_of_check
    (x := Run.run serverStep {} [.request {} (.ofTexts ["set", "k", "v"])])
    (p := fun g => decide ((g.nodeOf (text "k")).isSome) &&
      check (outBuffer {} g (beforeResBuild []).1 (Request.ofTexts ["lpush", "k", "x"]).tokens)
        fun res => decide (statusOf res.2 = resErr)) (by decide +kernel)
  obtain ⟨hnode, hpush⟩ := Bool.and_eq_true_iff.mp hcheck
  obtain ⟨⟨g', out'⟩, hbuf, herr⟩ := exists_ok_of_check hpush
  have hfails : statusOf out' = resErr := of_decide_eq_true herr
  have hsame := (@error_keeps_keyspace_iff {} g (.ofTexts ["lpush", "k", "x"]) ⟨_, hrun⟩ []).mpr
    fun hsetbit => absurd hsetbit.1 (by decide +kernel)
  exact ⟨g, g', out', hrun, of_decide_eq_true hnode, hbuf, hfails, hsame g' out' hbuf hfails⟩

end CustomRedis
