import CustomRedis.Proof.TtlIndex

/-!
# Expiry over runs

The deadline a key should have is tracked beside the run: the last `EXPIRE` sets it, `PERSIST` takes it away,
and a key that has just been created has none. As long as the heap and the nodes agree, every entry of the
heap belongs to such a deadline, so the timers remove a key only behind the time it was given. `PERSIST` and
`TTL` find the entry of a key through its `heap_idx`, and touch another key's entry exactly if that field is
in range while the key has no entry of its own.
-/

namespace CustomRedis

open Run (ok_bind ok_of_bind check exists_ok_of_check)

/-- The deadline that an `EXPIRE` asks for, in milliseconds. -/
def deadlineOf (env : Env) (cmd : List Bytes) : Int := env.now + 1000 * strtol (cmd.getD 2 [])

/-- The deadline of the last `EXPIRE` of each key since it was created, unless a `PERSIST` has followed. -/
abbrev Deadlines := UInt64 × Bytes → Option Int

def nextDeadlines (g : GlobalData) (d : Deadlines) (e : Event) : Deadlines := fun id =>
  match g.db.find id, e with
  -- a key that is there behind this step has been created by it
  | none, _ => none
  | some _, .request env r =>
    if keyId (keyOf r.tokens) = id then
      match commandOf r.tokens with
      | .expire => some (deadlineOf env r.tokens)
      | .persist => none
      | _ => d id
    else d id
  | some _, _ => d id

/-- The server together with the deadlines its keys should have. -/
def trackedStep (s : GlobalData × Deadlines) (e : Event) : M (GlobalData × Deadlines) := do
  let g ← serverStep s.1 e
  .ok (g, nextDeadlines s.1 s.2 e)

/-- The steps that respect the index and do not overflow the clock. -/
def Timely (s : GlobalData × Deadlines) (e : Event) : Prop :=
  KeepsIndex s.1 e ∧
    match e with
    | .request env r => commandOf r.tokens = .expire → deadlineOf env r.tokens < 2 ^ 64
    | _ => True

instance (s : GlobalData × Deadlines) (e : Event) : Decidable (Timely s e) :=
  match e with
  | .request env r => inferInstanceAs
      (Decidable (_ ∧ (commandOf r.tokens = .expire → deadlineOf env r.tokens < 2 ^ 64)))
  | .tick _ => inferInstanceAs (Decidable (_ ∧ True))
  | .work => inferInstanceAs (Decidable (_ ∧ True))

/-! ### Entries and deadlines -/

theorem GlobalData.WF.find_of_link {g : GlobalData} (h : g.WF) {id : UInt64 × Bytes} {p : Ptr}
    (hlink : (id, p) ∈ g.links) : ∃ n, g.db.find id = some n ∧ n.val.addr = p := by
  obtain ⟨n, hn, heq⟩ := List.mem_map.mp hlink
  cases heq
  exact ⟨n, h.db.find_eq_some.mpr ⟨hn, rfl⟩, rfl⟩

/-- A key whose deadline the request does not change. -/
theorem nextDeadlines_request {g : GlobalData} (h : g.WF) {id : UInt64 × Bytes} {p : Ptr} (hlink : (id, p) ∈ g.links)
    (d : Deadlines) (env : Env) {r : Request}
    (hother : keyId (keyOf r.tokens) = id → ¬(commandOf r.tokens = .expire ∨ commandOf r.tokens = .persist)) :
    nextDeadlines g d (.request env r) id = d id := by
  obtain ⟨n, hn, -⟩ := h.find_of_link hlink
  simp only [nextDeadlines, hn]
  split
  · next hid =>
    have hno := hother hid
    split
    · next hc => exact absurd (.inl hc) hno
    · next hc => exact absurd (.inr hc) hno
    · rfl
  · rfl

theorem deadlineOf_le {env : Env} {cmd : List Bytes} (h : deadlineOf env cmd < 2 ^ 64) :
    deadlineOf env cmd ≤ ((env.now + ttlOf cmd) % 2 ^ 64 : Nat) := by
  unfold deadlineOf at *
  unfold ttlOf toU64
  omega

structure Tracked (s : GlobalData × Deadlines) : Prop where
  indexed : Indexed s.1
  owned : ∀ e ∈ s.1.ttl.entries, ∀ id, (id, e.posRef) ∈ s.1.links → ∃ deadline, s.2 id = some deadline ∧ deadline ≤ e.val

/-- Where `rem_ttl` leaves an entry, the entry belongs to another node. -/
theorem remTtl_others {h h' : Heap} (hc : h.Coherent) (hlim : h.entries.length ≤ heapLimit) {node : Ptr} {i : Nat}
    (hread : h.refs.read node = some i) (hrun : remTtl h node = .ok h') :
    ∀ e ∈ h'.entries, e ∈ h.entries ∧ e.posRef ≠ node := by
  have hat : ∀ j e, h.entries[j]? = some e → e.posRef = node → j = i := by
    intro j e hj heq
    have hback := hc j e hj
    rw [heq, hread] at hback
    exact (Option.some.inj hback).symm
  intro e he
  rcases remTtl_spec hc hlim hread with ⟨hlen, hrem⟩ | ⟨e₀, h₁, -, hrem, -, hperm, -⟩
  · cases hrem.symm.trans hrun
    refine ⟨he, fun heq => ?_⟩
    obtain ⟨j, hj⟩ := List.mem_iff_getElem?.mp he
    have hlt := (List.getElem?_eq_some_iff.mp hj).1
    have hji := hat j e hj heq
    omega
  · cases hrem.symm.trans hrun
    have herase := hperm.mem_iff.mp he
    refine ⟨List.mem_of_mem_eraseIdx herase, fun heq => ?_⟩
    obtain ⟨j, hne, hj⟩ := List.mem_eraseIdx_iff_getElem?.mp herase
    exact hne (hat j e hj heq)

theorem LinkEffect.owned {env : Env} {s : GlobalData × Deadlines} {g' : GlobalData} {r : Request} (h : Tracked s)
    (he : LinkEffect env s.1 r.tokens (commandOf r.tokens) g') (hok : Timely s (.request env r)) :
    ∀ e ∈ g'.ttl.entries, ∀ id, (id, e.posRef) ∈ g'.links →
      ∃ deadline, nextDeadlines s.1 s.2 (.request env r) id = some deadline ∧ deadline ≤ e.val := by
  have hwf := h.indexed.wf
  intro e hentry id hlink
  cases he with
  | kept hidle hlinks httl =>
    rw [httl] at hentry
    rw [hlinks] at hlink
    rw [nextDeadlines_request hwf hlink]
    · exact h.owned e hentry id hlink
    · intro hid hc
      obtain ⟨n, hn, -⟩ := hwf.find_of_link hlink
      rw [← hid] at hn
      exact absurd ((hidle hc).symm.trans hn) (Option.some_ne_none _).symm
  | added hnew hlinks httl =>
    rw [httl] at hentry
    rcases List.mem_cons.mp (hlinks.mem_iff.mp hlink) with heq | hlink
    · -- a field that has just been allocated cannot belong to an older entry
      obtain ⟨id', hlink'⟩ := h.indexed.wf.exists_link h.indexed.coherent hentry
      have haddr : e.posRef = s.1.ttl.refs.next := congrArg Prod.snd heq
      exact absurd (List.mem_map_of_mem hlink') (haddr ▸ hwf.next_not_linked)
    · rw [nextDeadlines_request hwf hlink]
      · exact h.owned e hentry id hlink
      · intro hid
        obtain ⟨n, hn, -⟩ := hwf.find_of_link hlink
        rw [← hid] at hn
        exact absurd (hnew.symm.trans hn) (Option.some_ne_none _).symm
  | removed hnode _ hlinks httl =>
    rw [httl] at hentry
    rw [hlinks] at hlink
    obtain ⟨hlink, hne⟩ := List.mem_filter.mp hlink
    rw [nextDeadlines_request hwf hlink]
    · exact h.owned e hentry id hlink
    · intro hid
      exact absurd hid.symm (of_decide_eq_true hne)
  | @expires n ttl hcause hnode ht hdata =>
    subst hdata
    obtain ⟨i, hread⟩ := hwf.exists_ref hnode
    have hno := not_mem_of_not_hasEntry hnode (hok.1 (.inl hcause))
    have hlinks : (id, e.posRef) ∈ s.1.links := hlink
    obtain ⟨-, hperm, -⟩ := setTtl_spec h.indexed.coherent h.indexed.limit hno
      (Option.isSome_iff_exists.mpr ⟨i, hread⟩) ht
    rcases List.mem_cons.mp (hperm.mem_iff.mp hentry) with rfl | hold
    · have hid : id = keyId (keyOf r.tokens) := (hwf.link_inj hlinks (hwf.mem_links hnode)).mpr rfl
      subst hid
      refine ⟨deadlineOf env r.tokens, ?_, deadlineOf_le (hok.2 hcause)⟩
      simp only [nextDeadlines, show s.1.db.find (keyId (keyOf r.tokens)) = some n from hnode, if_true, hcause]
    · rw [nextDeadlines_request hwf hlinks]
      · exact h.owned e hold id hlinks
      · intro hid
        have haddr : e.posRef = n.val.addr := (hwf.link_inj hlinks (hwf.mem_links hnode)).mp hid.symm
        exact absurd (haddr ▸ List.mem_map_of_mem hold) hno
  | @persists n ttl _ hnode ht hdata =>
    subst hdata
    obtain ⟨i, hread⟩ := hwf.exists_ref hnode
    have hlinks : (id, e.posRef) ∈ s.1.links := hlink
    obtain ⟨hold, hne⟩ := remTtl_others h.indexed.coherent h.indexed.limit hread ht e hentry
    rw [nextDeadlines_request hwf hlinks]
    · exact h.owned e hold id hlinks
    · intro hid
      exact absurd ((hwf.link_inj hlinks (hwf.mem_links hnode)).mp hid.symm) hne

/-! ### Runs -/

theorem Tracked.start : Tracked ({}, fun _ => none) := ⟨Indexed.start, nofun⟩

theorem trackedStep_tracked {s s' : GlobalData × Deadlines} {e : Event} (h : Tracked s) (hok : Timely s e)
    (hrun : trackedStep s e = .ok s') : Tracked s' := by
  obtain ⟨g', hstep, hrun⟩ := ok_of_bind hrun
  cases hrun
  have hindexed := serverStep_indexed h.indexed hok.1 hstep
  have hwf := h.indexed.wf
  refine ⟨hindexed, ?_⟩
  cases e with
  | request env r =>
    obtain ⟨⟨g₁, out⟩, hres, hrun⟩ := ok_of_bind hstep
    cases hrun
    exact (respond_effect hwf h.indexed.shaped hres).owned h hok
  | tick now =>
    obtain ⟨g₁, hexpire, -, hentries, hlinks, -⟩ := expireEntries_spec (maxTtlTasks + 1) h.indexed now
    cases hexpire.symm.trans hstep
    intro e he id hlink
    obtain ⟨n, hn, -⟩ := hwf.find_of_link (hlinks _ hlink)
    simp only [nextDeadlines, hn]
    exact h.owned e (hentries e he) id (hlinks _ hlink)
  | work =>
    obtain ⟨-, hlinks, httl⟩ := workerStep_spec hwf hstep
    intro e he id hlink
    rw [httl] at he
    rw [hlinks] at hlink
    obtain ⟨n, hn, -⟩ := hwf.find_of_link hlink
    simp only [nextDeadlines, hn]
    exact h.owned e he id hlink

/-- In a run that gives no key a second deadline and removes no key that has one, the timers remove a key only
behind the deadline of its last `EXPIRE`. -/
theorem expiry_run {es : List Event} {g : GlobalData} {d : Deadlines}
    (hok : Run.Along trackedStep Timely ({}, fun _ => none) es)
    (hrun : Run.run trackedStep ({}, fun _ => none) es = .ok (g, d)) (now : Nat) :
    ∃ g', processTimers g now = .ok g' ∧ ∀ key, g.nodeOf key ≠ none → g'.nodeOf key = none →
      ∃ deadline, d (keyId key) = some deadline ∧ deadline < now := by
  have h : Tracked (g, d) :=
    Run.invariant_along (fun _ _ _ h hok hstep => trackedStep_tracked h hok hstep) Tracked.start hok hrun
  obtain ⟨g', hexpire, hindexed, -, -, hgone⟩ := expireEntries_spec (maxTtlTasks + 1) h.indexed now
  refine ⟨g', hexpire, fun key hthere hnone => ?_⟩
  obtain ⟨n, hn⟩ := Option.ne_none_iff_exists'.mp hthere
  have hlink := h.indexed.wf.mem_links hn
  have hremoved : (keyId key, n.val.addr) ∉ g'.links := by
    intro hlink'
    obtain ⟨n', hn', -⟩ := hindexed.wf.find_of_link hlink'
    exact absurd (hnone.symm.trans hn') (Option.some_ne_none _).symm
  obtain ⟨e, he, hpos, hval⟩ := hgone _ hlink hremoved
  obtain ⟨deadline, hd, hle⟩ := h.owned e he (keyId key) (hpos ▸ hlink)
  exact ⟨deadline, hd, by omega⟩

/-- A second, longer deadline does not replace the first one. -/
theorem expiry_before_deadline : ∃ g d g', Run.run trackedStep ({}, fun _ => none)
      [.request {} (.ofTexts ["set", "k", "v"]), .request {} (.ofTexts ["set", "x", "v"]),
        .request {} (.ofTexts ["expire", "k", "1"]), .request {} (.ofTexts ["expire", "k", "100"]),
        .request {} (.ofTexts ["expire", "x", "0"])] = .ok (g, d) ∧
    processTimers g 1500 = .ok g' ∧ g.nodeOf (text "k") ≠ none ∧ g'.nodeOf (text "k") = none ∧
    ¬∃ deadline, d (keyId (text "k")) = some deadline ∧ deadline < 1500 := by
  obtain ⟨⟨g, d⟩, hrun, hcheck⟩ := exists_ok_of_check (x := Run.run trackedStep ({}, fun _ => none)
      [.request {} (.ofTexts ["set", "k", "v"]), .request {} (.ofTexts ["set", "x", "v"]),
        .request {} (.ofTexts ["expire", "k", "1"]), .request {} (.ofTexts ["expire", "k", "100"]),
        .request {} (.ofTexts ["expire", "x", "0"])])
    (p := fun s => check (processTimers s.1 1500) fun g' =>
      decide (s.1.nodeOf (text "k") ≠ none ∧ g'.nodeOf (text "k") = none ∧ s.2 (keyId (text "k")) = some 100000))
    (by decide +kernel)
  obtain ⟨g', htimers, hcheck⟩ := exists_ok_of_check hcheck
  obtain ⟨hthere, hnone, hd⟩ := of_decide_eq_true hcheck
  refine ⟨g, d, g', hrun, htimers, hthere, hnone, ?_⟩
  rintro ⟨deadline, hdeadline, hlt⟩
  cases hd.symm.trans hdeadline
  exact absurd hlt (by decide)

theorem expiry_run_once : ∃ g d g', Run.run trackedStep ({}, fun _ => none)
      [.request {} (.ofTexts ["set", "k", "v"]), .request {} (.ofTexts ["expire", "k", "1"])] = .ok (g, d) ∧
    processTimers g 1500 = .ok g' ∧ ∀ key, g.nodeOf key ≠ none → g'.nodeOf key = none →
      ∃ deadline, d (keyId key) = some deadline ∧ deadline < 1500 := by
  obtain ⟨⟨g, d⟩, hrun, -⟩ := exists_ok_of_check (x := Run.run trackedStep ({}, fun _ => none)
    [.request {} (.ofTexts ["set", "k", "v"]), .request {} (.ofTexts ["expire", "k", "1"])]) (p := fun _ => true)
    (by decide +kernel)
  obtain ⟨g', htimers, hgone⟩ := expiry_run (by decide +kernel) hrun 1500
  exact ⟨g, d, g', hrun, htimers, hgone⟩

/-! ### `PERSIST` and `TTL` -/

/-- A deadline that waits for the key with an identity. -/
def HasDeadline (g : GlobalData) (id : UInt64 × Bytes) (val : Nat) : Prop :=
  ∃ p, (id, p) ∈ g.links ∧ ⟨val, p⟩ ∈ g.ttl.entries

/-- `PERSIST` returns, keeps the deadlines of all other keys, and changes nothing for a key without a deadline. -/
def PersistOwn (env : Env) (g : GlobalData) (r : Request) : Prop :=
  ∃ g' out, respond env g r = .ok (g', out) ∧
    (∀ id, id ≠ keyId (keyOf r.tokens) → ∀ val, HasDeadline g' id val ↔ HasDeadline g id val) ∧
    (g.nodeOf (keyOf r.tokens) ≠ none → ¬HasEntry g (keyOf r.tokens) → g' = g)

/-- The reply to `TTL` stays the same however the entries of other keys are changed. -/
def TtlOwn (env : Env) (g : GlobalData) (r : Request) : Prop :=
  ∀ entries : List HeapNode,
    (∀ (n : HNode Entry) (i : Nat) (e : HeapNode), g.nodeOf (keyOf r.tokens) = some n →
      g.ttl.entries[i]? = some e → e.posRef = n.val.addr → entries[i]? = some e) →
    (respond env { g with ttl := { g.ttl with entries := entries } } r).map Prod.snd = (respond env g r).map Prod.snd

/-- The key is missing, or it has an entry, or its `heap_idx` is out of range. -/
def PersistSafe (g : GlobalData) (key : Bytes) : Prop :=
  ∀ n i, g.nodeOf key = some n → g.ttl.refs.read n.val.addr = some i → HasEntry g key ∨ g.ttl.entries.length ≤ i

/-- The key is missing, or it has an entry. -/
def TtlSafe (g : GlobalData) (key : Bytes) : Prop := g.nodeOf key ≠ none → HasEntry g key

theorem respond_persist (env : Env) {g : GlobalData} (h : g.WF) {r : Request} (hc : commandOf r.tokens = .persist) :
    respond env g r = match g.nodeOf (keyOf r.tokens) with
      | none => .ok (g, outNull (beforeResBuild []).1)
      | some n => remTtl g.ttl n.val.addr >>= fun ttl => .ok ({ g with ttl := ttl }, outNull (beforeResBuild []).1) := by
  have hlen : r.tokens.length = 2 := commandOf_arity hc
  rw [respond, outBuffer, arg_eq_getD (by omega), ok_bind, hc, runCommand, doPersist, arg_one (by omega), ok_bind,
    findNode_bind h r.short_key]
  cases g.nodeOf (keyOf r.tokens) with
  | none => rfl
  | some n =>
    simp only
    cases remTtl g.ttl n.val.addr with
    | error e => rfl
    | ok ttl => rfl

theorem respond_ttl (env : Env) {g : GlobalData} (h : g.WF) {r : Request} (hc : commandOf r.tokens = .ttl) :
    (respond env g r).map Prod.snd = match g.nodeOf (keyOf r.tokens) with
      | none => .ok (outNull (beforeResBuild []).1)
      | some n =>
        match g.ttl.refs.read n.val.addr with
        | none => .error .useAfterFree
        | some i => (g.ttl.get i).map fun e =>
            outInt (beforeResBuild []).1 (toU64 (e.val - (env.now % 2 ^ 32 : Nat)) / 1000 % 2 ^ 32) := by
  have hlen : r.tokens.length = 2 := commandOf_arity hc
  rw [respond, outBuffer, arg_eq_getD (by omega), ok_bind, hc, runCommand, doTtl, arg_one (by omega), ok_bind,
    findNode_bind h r.short_key]
  cases g.nodeOf (keyOf r.tokens) with
  | none => rfl
  | some n =>
    simp only
    cases g.ttl.refs.read n.val.addr with
    | none => rfl
    | some i =>
      simp only
      cases g.ttl.get i with
      | error e => rfl
      | ok e => rfl

/-- Taking out the entry of one node keeps the deadlines of all others. -/
theorem hasDeadline_remove {g : GlobalData} (h : Indexed g) {key : Bytes} {n : HNode Entry}
    (hn : g.nodeOf key = some n) {ttl : Heap} {i : Nat} {e : HeapNode} (hi : g.ttl.entries[i]? = some e)
    (hpos : e.posRef = n.val.addr) (hperm : ttl.entries.Perm (g.ttl.entries.eraseIdx i)) {id : UInt64 × Bytes}
    (hid : id ≠ keyId key) (val : Nat) : HasDeadline { g with ttl := ttl } id val ↔ HasDeadline g id val := by
  constructor
  · rintro ⟨p, hlink, hentry⟩
    exact ⟨p, hlink, List.mem_of_mem_eraseIdx (hperm.mem_iff.mp hentry)⟩
  · rintro ⟨p, hlink, hentry⟩
    refine ⟨p, hlink, hperm.mem_iff.mpr (List.mem_eraseIdx_iff_getElem?.mpr ?_)⟩
    obtain ⟨j, hj⟩ := List.mem_iff_getElem?.mp hentry
    refine ⟨j, fun heq => ?_, hj⟩
    subst heq
    cases hi.symm.trans hj
    exact hid ((h.wf.link_inj hlink (h.wf.mem_links hn)).mpr hpos)

theorem persistOwn_iff (env : Env) {g : GlobalData} (h : Indexed g) {r : Request}
    (hc : commandOf r.tokens = .persist) : PersistOwn env g r ↔ PersistSafe g (keyOf r.tokens) := by
  have hrun := respond_persist env h.wf hc
  constructor
  · rintro ⟨g', out, hres, -, hsame⟩ n i hn hread
    by_contra hunsafe
    obtain ⟨hno, hin⟩ := not_or.mp hunsafe
    have hthere : g.nodeOf (keyOf r.tokens) ≠ none := by
      rw [hn]
      exact nofun
    rcases remTtl_spec h.coherent h.limit hread with ⟨hlen, -⟩ | ⟨e, ttl, hi, hrem, -, hperm, -⟩
    · exact hin hlen
    -- one entry is gone, so the state has changed
    simp only [hn, hrem, bind, Except.bind] at hrun
    cases hrun.symm.trans hres
    have hentries : ttl.entries = g.ttl.entries := congrArg (fun g => g.ttl.entries) (hsame hthere hno)
    have hlen := hperm.length_eq
    have hlt := (List.getElem?_eq_some_iff.mp hi).1
    rw [hentries, List.length_eraseIdx_of_lt hlt] at hlen
    omega
  · intro hsafe
    cases hn : g.nodeOf (keyOf r.tokens) with
    | none =>
      rw [hn] at hrun
      exact ⟨g, _, hrun, fun _ _ _ => Iff.rfl, fun _ _ => rfl⟩
    | some n =>
      obtain ⟨i, hread⟩ := h.wf.exists_ref hn
      rcases remTtl_spec h.coherent h.limit hread with ⟨-, hrem⟩ | ⟨e, ttl, hi, hrem, -, hperm, -⟩
      · simp only [hn, hrem, bind, Except.bind] at hrun
        exact ⟨g, _, hrun, fun _ _ _ => Iff.rfl, fun _ _ => rfl⟩
      · simp only [hn, hrem, bind, Except.bind] at hrun
        have hlt := (List.getElem?_eq_some_iff.mp hi).1
        have hentry : HasEntry g (keyOf r.tokens) := (hsafe n i hn hread).resolve_right (Nat.not_le.mpr hlt)
        -- the index leads to the key's own entry
        have hpos : e.posRef = n.val.addr := by
          obtain ⟨n', hn', hin⟩ := hentry
          cases hn.symm.trans hn'
          obtain ⟨e', he', hpos⟩ := List.mem_map.mp hin
          obtain ⟨j, hj⟩ := List.mem_iff_getElem?.mp he'
          have hback := h.coherent j e' hj
          rw [hpos, hread] at hback
          cases hback
          cases hi.symm.trans hj
          exact hpos
        exact ⟨_, _, hrun, fun id hid val => hasDeadline_remove h hn hi hpos hperm hid val,
          fun _ hno => absurd hentry hno⟩

theorem GlobalData.WF.withEntries {g : GlobalData} (h : g.WF) (entries : List HeapNode) :
    ({ g with ttl := { g.ttl with entries := entries } } : GlobalData).WF :=
  h.withTtl fun _ => rfl

theorem ttlOwn_iff (env : Env) {g : GlobalData} (h : Indexed g) {r : Request} (hc : commandOf r.tokens = .ttl) :
    TtlOwn env g r ↔ TtlSafe g (keyOf r.tokens) := by
  have hnode : ∀ entries, ({ g with ttl := { g.ttl with entries := entries } } : GlobalData).nodeOf (keyOf r.tokens) =
      g.nodeOf (keyOf r.tokens) := fun _ => rfl
  constructor
  · intro hown hthere
    by_contra hno
    obtain ⟨n, hn⟩ := Option.ne_none_iff_exists'.mp hthere
    obtain ⟨i, hread⟩ := h.wf.exists_ref hn
    have hfree : ∀ (entries : List HeapNode) (n : HNode Entry) (j : Nat) (e : HeapNode),
        g.nodeOf (keyOf r.tokens) = some n → g.ttl.entries[j]? = some e → e.posRef = n.val.addr →
        entries[j]? = some e := by
      intro entries n j e hn hj hpos
      exact absurd ⟨n, hn, hpos ▸ List.mem_map_of_mem (List.mem_of_getElem? hj)⟩ hno
    -- with no entries the read faults, with enough of them it does not
    have hempty := hown [] (hfree [])
    have hlong := hown (List.replicate (i + 1) ⟨0, n.val.addr⟩) (hfree _)
    rw [← hlong, respond_ttl env (h.wf.withEntries _) hc, respond_ttl env (h.wf.withEntries _) hc] at hempty
    simp only [hnode, hn, hread, Heap.get, List.getElem?_nil, List.getElem?_replicate, Nat.lt_succ_self,
      if_true] at hempty
    cases hempty
  · intro hsafe entries hkeep
    rw [respond_ttl env (h.wf.withEntries _) hc, respond_ttl env h.wf hc, hnode]
    cases hn : g.nodeOf (keyOf r.tokens) with
    | none => rfl
    | some n =>
      obtain ⟨n', hn', hin⟩ := hsafe (by rw [hn]; exact Option.some_ne_none n)
      cases hn.symm.trans hn'
      obtain ⟨e, he, hpos⟩ := List.mem_map.mp hin
      obtain ⟨j, hj⟩ := List.mem_iff_getElem?.mp he
      have hback := h.coherent j e hj
      rw [hpos] at hback
      simp only [hback, Heap.get, hj, hkeep n j e hn hj hpos]

/-- In a run that gives no key a second deadline and removes no key that has one, `PERSIST` and `TTL` touch only
the entry of their key exactly if the key is missing or has an entry, where `PERSIST` also spares the others
when the `heap_idx` of the key is out of range. -/
theorem persist_ttl_own_iff {es : List Event} {g : GlobalData} (hok : Run.Along serverStep KeepsIndex {} es)
    (hrun : Run.run serverStep {} es = .ok g) (env : Env) (r : Request) :
    (commandOf r.tokens = .persist → (PersistOwn env g r ↔ PersistSafe g (keyOf r.tokens))) ∧
      (commandOf r.tokens = .ttl → (TtlOwn env g r ↔ TtlSafe g (keyOf r.tokens))) :=
  ⟨persistOwn_iff env (run_indexed hok hrun), ttlOwn_iff env (run_indexed hok hrun)⟩

/-- The run of the counterexample: no key gets a second deadline. -/
def staleIndex : List Event :=
  [.request {} (.ofTexts ["set", "a", "v"]), .request {} (.ofTexts ["expire", "a", "10"]),
    .request {} (.ofTexts ["persist", "a"]), .request {} (.ofTexts ["set", "b", "v"]),
    .request {} (.ofTexts ["expire", "b", "10"])]

/-- `PERSIST` of a key without a deadline takes the deadline of another key away. -/
theorem persist_drops_other : ∃ g g' out, Run.run serverStep {} staleIndex = .ok g ∧
    respond {} g (.ofTexts ["persist", "a"]) = .ok (g', out) ∧ HasDeadline g (keyId (text "b")) 10000 ∧
    ¬HasDeadline g' (keyId (text "b")) 10000 := by
  obtain ⟨g, hrun, hcheck⟩ := exists_ok_of_check (x := Run.run serverStep {} staleIndex)
    (p := fun g => check (respond {} g (.ofTexts ["persist", "a"])) fun res =>
      decide ((keyId (text "b"), 1) ∈ g.links ∧ ⟨10000, 1⟩ ∈ g.ttl.entries ∧ res.1.ttl.entries = []))
    (by decide +kernel)
  obtain ⟨⟨g', out⟩, hres, hcheck⟩ := exists_ok_of_check hcheck
  obtain ⟨hlink, hentry, hnil⟩ := of_decide_eq_true hcheck
  refine ⟨g, g', out, hrun, hres, ⟨1, hlink, hentry⟩, ?_⟩
  rintro ⟨p, -, hentry'⟩
  rw [show g'.ttl.entries = [] from hnil] at hentry'
  cases hentry'

theorem persist_ttl_own_pending : ∃ g, Run.run serverStep {} staleIndex = .ok g ∧
    PersistOwn {} g (.ofTexts ["persist", "b"]) ∧ TtlOwn {} g (.ofTexts ["ttl", "b"]) := by
  obtain ⟨g, hrun, hcheck⟩ := exists_ok_of_check (x := Run.run serverStep {} staleIndex)
    (p := fun g => decide (HasEntry g (text "b"))) (by decide +kernel)
  have hentry := of_decide_eq_true hcheck
  have hpersist := persist_ttl_own_iff (by decide +kernel) hrun {} (.ofTexts ["persist", "b"])
  have httl := persist_ttl_own_iff (by decide +kernel) hrun {} (.ofTexts ["ttl", "b"])
  exact ⟨g, hrun, (hpersist.1 (by decide +kernel)).mpr fun _ _ _ _ => .inl hentry,
    (httl.2 (by decide +kernel)).mpr fun _ => hentry⟩

end CustomRedis
