import CustomRedis.Proof.Deadlines
import CustomRedis.Proof.HeapUpdates
import CustomRedis.Proof.ReplyGrammar

/-!
# The clock of `TTL`

`EXPIRE` adds the time to live to the 64-bit clock, and the sum is what the entry of the key holds. `do_ttl`
takes the clock as a `uint32_t`, so what it subtracts from the deadline is short by the upper half of the clock.
The number of seconds it replies is cut to 32 bits as well, which hides that half if it is a multiple of 1000.
-/

namespace CustomRedis

open Run (ok_of_bind ok_bind check exists_ok_of_check)

/-! ### The arithmetic -/

/-- With the upper half of the clock left in, the seconds are the same modulo `2 ^ 32` if it is a multiple of 1000. -/
theorem shortClock_iff {left t : Nat} (ht : t < 2 ^ 64) (hfit : left / 1000 < 2 ^ 32) :
    (left + 2 ^ 32 * (t / 2 ^ 32)) / 1000 % 2 ^ 32 = left / 1000 ↔ t / 2 ^ 32 % 1000 = 0 := by
  obtain ⟨upper, hupper⟩ : ∃ upper, upper = t / 2 ^ 32 := ⟨_, rfl⟩
  have hlt : upper < 2 ^ 32 := by omega
  rw [← hupper]
  omega

theorem toU64_shortClock {deadline t : Nat} (hle : t ≤ deadline) (hmax : deadline < 2 ^ 64) :
    toU64 (deadline - (t % 2 ^ 32 : Nat)) = deadline - t + 2 ^ 32 * (t / 2 ^ 32) := by
  unfold toU64
  omega

theorem outInt_inj {out : Bytes} {a b : Nat} (ha : a < 2 ^ 32) (hb : b < 2 ^ 32) (h : outInt out a = outInt out b) :
    a = b := by
  rw [outInt_eq, outInt_eq] at h
  have hbytes := (List.cons.inj (List.append_cancel_left h)).2
  rw [← leNat_leBytes 4 a ha, hbytes, leNat_leBytes 4 b hb]

/-! ### The two commands -/

theorem respond_expire (env : Env) {g : GlobalData} (h : g.WF) {r : Request} (hc : commandOf r.tokens = .expire) :
    respond env g r = match g.nodeOf (keyOf r.tokens) with
      | none => .ok (g, outNull (beforeResBuild []).1)
      | some n => setTtl g.ttl env.now n.val.addr (ttlOf r.tokens) >>= fun ttl =>
          .ok ({ g with ttl := ttl }, outNull (beforeResBuild []).1) := by
  have hlen : r.tokens.length = 3 := commandOf_arity hc
  rw [respond, outBuffer, arg_eq_getD (by omega), ok_bind, hc, runCommand, doExpire, arg_one (by omega), ok_bind,
    arg_eq_getD (by omega), ok_bind]
  dsimp only
  rw [findNode_bind h r.short_key]
  cases g.nodeOf (keyOf r.tokens) with
  | none => rfl
  | some n =>
    simp only [ttlOf]
    cases setTtl g.ttl env.now n.val.addr (toU64 (strtol (r.tokens.getD 2 [])) * 1000 % 2 ^ 64) with
    | error e => rfl
    | ok ttl => rfl

/-- Behind an `EXPIRE` that returned, `TTL` counts from its deadline. -/
theorem ttl_after_expire {g : GlobalData} (h : g.WF) {n : HNode Entry} {env : Env} {q : Request} {c : TtlCall}
    (hq : commandOf q.tokens = .ttl) (hn : g.nodeOf (keyOf q.tokens) = some n) (hno : ¬HasEntry g (keyOf q.tokens))
    (hnode : c.node = n.val.addr) (hsize : g.ttl.entries.length + 1 < 2 ^ 63) {ttl : Heap}
    (hset : setTtl g.ttl c.now c.node c.ttl = .ok ttl) :
    (respond env { g with ttl := ttl } q).map Prod.snd =
      .ok (outInt (beforeResBuild []).1 (toU64 (c.entry.val - (env.now % 2 ^ 32 : Nat)) / 1000 % 2 ^ 32)) := by
  have hnew : c.node ∉ g.ttl.entries.map HeapNode.posRef := hnode ▸ not_mem_of_not_hasEntry hn hno
  obtain ⟨i, hread, hat⟩ := setTtl_leads hnew hsize hset
  have hwf : ({ g with ttl := ttl } : GlobalData).WF := h.withTtl (setTtl_sameLive hset)
  have hn' : ({ g with ttl := ttl } : GlobalData).nodeOf (keyOf q.tokens) = some n := hn
  have hread' : ttl.refs.read n.val.addr = some i := hnode ▸ hread
  rw [respond_ttl env hwf hq, hn']
  simp only [hread', Heap.get, hat]
  rfl

/-- `EXPIRE` and a `TTL` up to the deadline reply the seconds that are left exactly if the deadline can be set and
the upper half of the later clock is a multiple of 1000. -/
theorem expire_ttl_iff {g : GlobalData} (h : g.WF) {n : HNode Entry} {env later : Env} {r q : Request} {seconds : Nat}
    (hr : commandOf r.tokens = .expire) (hq : commandOf q.tokens = .ttl) (hkey : keyOf q.tokens = keyOf r.tokens)
    (hn : g.nodeOf (keyOf r.tokens) = some n) (hno : ¬HasEntry g (keyOf r.tokens))
    (hsize : g.ttl.entries.length + 1 < 2 ^ 63) (hseconds : strtol (r.tokens.getD 2 []) = seconds)
    (hmax : env.now + 1000 * seconds < 2 ^ 64) (hhi : later.now ≤ env.now + 1000 * seconds)
    (hfit : (env.now + 1000 * seconds - later.now) / 1000 < 2 ^ 32) :
    (∃ g', respond env g r = .ok (g', outNull (beforeResBuild []).1) ∧ (respond later g' q).map Prod.snd =
      .ok (outInt (beforeResBuild []).1 ((env.now + 1000 * seconds - later.now) / 1000))) ↔
    g.ttl.Settable ⟨env.now, n.val.addr, 1000 * seconds⟩ ∧ later.now / 2 ^ 32 % 1000 = 0 := by
  obtain ⟨c, hc⟩ : ∃ c : TtlCall, c = ⟨env.now, n.val.addr, 1000 * seconds⟩ := ⟨_, rfl⟩
  have httl : ttlOf r.tokens = 1000 * seconds := by
    rw [ttlOf, hseconds, toU64]
    omega
  have hval : c.entry.val = env.now + 1000 * seconds := by
    rw [hc]
    exact Nat.mod_eq_of_lt hmax
  have hset : setTtl g.ttl env.now n.val.addr (ttlOf r.tokens) = setTtl g.ttl c.now c.node c.ttl := by rw [hc, httl]
  have hlive : (g.ttl.refs.read c.node).isSome := by
    obtain ⟨i, hi⟩ := h.exists_ref hn
    rw [hc, hi]
    rfl
  have hnode : c.node = n.val.addr := by rw [hc]
  have hreply : ∀ ttl, setTtl g.ttl c.now c.node c.ttl = .ok ttl →
      ((respond later { g with ttl := ttl } q).map Prod.snd =
        .ok (outInt (beforeResBuild []).1 ((env.now + 1000 * seconds - later.now) / 1000)) ↔
      later.now / 2 ^ 32 % 1000 = 0) := by
    intro ttl hok
    rw [ttl_after_expire h hq (hkey ▸ hn) (hkey ▸ hno) hnode hsize hok, hval, toU64_shortClock hhi hmax,
      ← shortClock_iff (Nat.lt_of_le_of_lt hhi hmax) hfit]
    constructor
    · intro heq
      exact outInt_inj (Nat.mod_lt _ (by decide)) hfit (Except.ok.inj heq)
    · intro heq
      rw [heq]
  rw [← hc, ← setTtl_returns_iff hlive hsize, respond_expire env h hr, hn]
  simp only [hset]
  constructor
  · rintro ⟨g', hexpire, hresp⟩
    obtain ⟨ttl, hok, hret⟩ := ok_of_bind hexpire
    cases hret
    exact ⟨⟨ttl, hok⟩, (hreply ttl hok).mp hresp⟩
  · rintro ⟨⟨ttl, hok⟩, hclock⟩
    refine ⟨{ g with ttl := ttl }, ?_, (hreply ttl hok).mpr hclock⟩
    rw [hok]
    rfl

/-- A server that has been up for 58 days replies 4295067 for a deadline 100 seconds away. -/
theorem ttl_long_uptime : ∃ g g', Run.run serverStep {} [.request {} (.ofTexts ["set", "k", "v"])] = .ok g ∧
    g.nodeOf (text "k") ≠ none ∧ ¬HasEntry g (text "k") ∧
    respond { now := 5000000000 } g (.ofTexts ["expire", "k", "100"]) = .ok (g', outNull (beforeResBuild []).1) ∧
    (respond { now := 5000000000 } g' (.ofTexts ["ttl", "k"])).map Prod.snd =
      .ok (outInt (beforeResBuild []).1 4295067) ∧
    outInt (beforeResBuild []).1 4295067 ≠
      outInt (beforeResBuild []).1 ((5000000000 + 1000 * 100 - 5000000000) / 1000) := by
  obtain ⟨g, hrun, hcheck⟩ := exists_ok_of_check (x := Run.run serverStep {} [.request {} (.ofTexts ["set", "k", "v"])])
    (p := fun g => decide (g.nodeOf (text "k") ≠ none ∧ ¬HasEntry g (text "k")) &&
      check (respond { now := 5000000000 } g (.ofTexts ["expire", "k", "100"])) fun res =>
        decide (res.2 = outNull (beforeResBuild []).1) &&
        check (respond { now := 5000000000 } res.1 (.ofTexts ["ttl", "k"])) fun reply =>
          decide (reply.2 = outInt (beforeResBuild []).1 4295067)) (by decide +kernel)
  obtain ⟨hstate, hcheck⟩ := Bool.and_eq_true_iff.mp hcheck
  obtain ⟨hthere, hno⟩ := of_decide_eq_true hstate
  obtain ⟨⟨g', out⟩, hexpire, hcheck⟩ := exists_ok_of_check hcheck
  obtain ⟨hout, hcheck⟩ := Bool.and_eq_true_iff.mp hcheck
  obtain ⟨⟨g'', reply⟩, httl, hreply⟩ := exists_ok_of_check hcheck
  have hout := of_decide_eq_true hout
  have hreply := of_decide_eq_true hreply
  dsimp only at hout hreply httl
  subst hout hreply
  refine ⟨g, g', hrun, hthere, hno, hexpire, ?_, by decide⟩
  rw [httl]
  rfl

/-- Three seconds into 100 seconds. -/
theorem ttl_short_uptime : ∃ g g', Run.run serverStep {} [.request {} (.ofTexts ["set", "k", "v"])] = .ok g ∧
    respond { now := 5 } g (.ofTexts ["expire", "k", "100"]) = .ok (g', outNull (beforeResBuild []).1) ∧
    (respond { now := 3005 } g' (.ofTexts ["ttl", "k"])).map Prod.snd = .ok (outInt (beforeResBuild []).1 97) := by
  obtain ⟨g, hrun, hcheck⟩ := exists_ok_of_check (x := Run.run serverStep {} [.request {} (.ofTexts ["set", "k", "v"])])
    (p := fun g => decide (g.nodeOf (text "k") ≠ none ∧ ¬HasEntry g (text "k") ∧ g.ttl.entries.length = 0))
    (by decide +kernel)
  obtain ⟨hthere, hno, hempty⟩ := of_decide_eq_true hcheck
  obtain ⟨n, hn⟩ := Option.ne_none_iff_exists'.mp hthere
  have hindexed : Indexed g := run_indexed (by decide +kernel) hrun
  obtain ⟨g', hexpire, httl⟩ := (@expire_ttl_iff g hindexed.wf n { now := 5 } { now := 3005 }
    (.ofTexts ["expire", "k", "100"]) (.ofTexts ["ttl", "k"]) 100 (by decide +kernel) (by decide +kernel) (by decide)
    hn hno (by rw [hempty]; decide) (by decide +kernel) (by decide) (by decide) (by decide)).mpr
    ⟨.inl hempty, by decide⟩
  exact ⟨g, g', hrun, hexpire, httl⟩

end CustomRedis
