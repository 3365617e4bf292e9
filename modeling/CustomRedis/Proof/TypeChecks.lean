import CustomRedis.Proof.Arity
import CustomRedis.Proof.Reachable

/-!
# Type checks

A data command works on values of one type. On a key that holds a value of another type it has to fail without
having looked at the value. Most commands check the type of the node they have found; `GET`, `SET`, `HGETALL`
and the sorted set commands behind `find_zset` do not, and take a payload that is not there.
-/

namespace CustomRedis

open Run (ok_bind ok_of_bind check exists_ok_of_check)

/-- The type of the values that a command works on. -/
def Command.type : Command → Option EntryType
  | .get | .set => some .str
  | .hset | .hget | .hdel | .hgetall => some .hset
  | .zadd | .zscore | .zrem | .zquery => some .zset
  | .lpush | .rpush | .lpop | .rpop | .lrange => some .list
  | .sadd | .srem | .smembers | .scard => some .set
  | .setbit | .getbit | .bitcount => some .bitmap
  | .pfadd | .pfcount => some .hll
  | _ => none

/-- The key of a request holds a value of another type than the command works on. -/
def Mismatch (g : GlobalData) (cmd : List Bytes) : Prop :=
  1 < cmd.length ∧ ∃ n type, g.nodeOf (keyOf cmd) = some n ∧ (commandOf cmd).type = some type ∧ n.val.type ≠ type

/-- What a request may do to a node of another type: a data command replies with an error and nothing depends on
the payload, which is the same for every payload of the type of the node; `SET` fails or makes a string of it; and
no payload is misused in any other way. -/
structure TypeSafe (env : Env) (g : GlobalData) (out : Bytes) (r : Request) : Prop where
  data : Mismatch g r.tokens → commandOf r.tokens ≠ .set → ∃ mes,
    outBuffer env g (beforeResBuild out).1 r.tokens = .ok (g, outErr (beforeResBuild out).1 mes) ∧
    ∀ n p, g.nodeOf (keyOf r.tokens) = some n → p.type = n.val.type → ∃ g',
      putPayload g (keyOf r.tokens) p = .ok g' ∧
      outBuffer env g' (beforeResBuild out).1 r.tokens = .ok (g', outErr (beforeResBuild out).1 mes)
  set : Mismatch g r.tokens → commandOf r.tokens = .set → ∃ g' out',
    outBuffer env g (beforeResBuild out).1 r.tokens = .ok (g', out') ∧
    ((g' = g ∧ ∃ mes, out' = outErr (beforeResBuild out).1 mes) ∨
      ∃ n, g'.nodeOf (keyOf r.tokens) = some n ∧ n.val.type = .str)
  faults : PayloadSafe (outBuffer env g (beforeResBuild out).1 r.tokens)

section Handlers

variable {env : Env} {g : GlobalData} {out : Bytes} {cmd : List Bytes} {c : Command}

/-! ### The commands without a check -/

/-- `find_zset` returns `NULL` for a node of another type, and its callers follow it. -/
theorem zset_of_run (h : g.WF) (hkey : Short (keyOf cmd)) {n : HNode Entry} (hn : g.nodeOf (keyOf cmd) = some n)
    {β : Type} {k : ZSet → M β} {b : β} (hrun : (findZset g (keyOf cmd) >>= fun z => derefZset z >>= k) = .ok b) :
    n.val.type = .zset := by
  rcases findZset_bind h hkey hrun with ⟨hnone, -⟩ | ⟨n', z, hn', hz, -⟩
  · rw [hn] at hnone
    cases hnone
  · rw [hn] at hn'
    cases hn'
    rw [Entry.type, hz]
    rfl

/-- Without a check a command returns only if the node is of its type. -/
theorem type_of_run (h : g.WF) (hkey : Short (keyOf cmd)) {n : HNode Entry} (hn : g.nodeOf (keyOf cmd) = some n)
    (hc : c.checksType = false) {type : EntryType} (htype : c.type = some type) {r : Result}
    (hrun : runCommand env g out cmd c = .ok r) : n.val.type = type := by
  cases c with
  | get | hgetall =>
    cases htype
    obtain ⟨key, harg, hrun⟩ := ok_of_bind hrun
    cases arg_key harg
    rw [findNode_bind h hkey, hn] at hrun
    rcases n with ⟨hcode, nkey, addr, payload⟩
    cases payload with
    | str _ | hset _ => first | rfl | cases hrun
    | _ => cases hrun
  | set =>
    cases htype
    obtain ⟨key, harg, hrun⟩ := ok_of_bind hrun
    obtain ⟨val, -, hrun⟩ := ok_of_bind hrun
    cases arg_key harg
    rw [findNode_bind h hkey, hn] at hrun
    rcases n with ⟨hcode, nkey, addr, payload⟩
    cases payload with
    | str _ => rfl
    | _ => cases hrun
  | zscore | zrem =>
    cases htype
    obtain ⟨key, harg, hrun⟩ := ok_of_bind hrun
    obtain ⟨member, -, hrun⟩ := ok_of_bind hrun
    cases arg_key harg
    exact zset_of_run h hkey hn hrun
  | zquery =>
    cases htype
    obtain ⟨key, harg, hrun⟩ := ok_of_bind hrun
    obtain ⟨score, -, hrun⟩ := ok_of_bind hrun
    obtain ⟨keyLb, -, hrun⟩ := ok_of_bind hrun
    cases arg_key harg
    exact zset_of_run h hkey hn hrun
  | _ => cases hc

/-! ### The commands with a check -/

/-- What a command says about a node of another type. -/
def Command.typeError : Command → String
  | .hset | .hget | .hdel => "keyspace key is not of type hashmap"
  | .zadd => "cant add zset to a non-zset node"
  | .lpush | .rpush | .lpop | .rpop | .lrange => "node with the provided key exists and is not of type LIST"
  | .sadd => "key already exists in the database and is not of type SET"
  | .srem | .smembers | .scard => "key is not of type SET"
  | .setbit => "key already exists in database but is not of type BITMAP"
  | .pfadd => "wrong type"
  | _ => "key already exists in database but is not the correct type"

theorem findOrInsert_found (h : g.WF) {key : Bytes} (hkey : Short key) {n : HNode Entry} (hn : g.nodeOf key = some n)
    (payload : Payload) : findOrInsert env g key payload = .ok (g, n) := by
  rw [findOrInsert, findNode_bind h hkey, hn]

theorem validateHmnode_mismatch {n : HNode Entry} {type : EntryType} (hne : n.val.type ≠ type) :
    validateHmnode out (some n) type =
      some (outErr out "key already exists in database but is not the correct type", .incorrectType) := if_pos hne

theorem requireSet_mismatch {n : HNode Entry} (hne : n.val.type ≠ .set) :
    requireSet out (some n) = .error (outErr out "key is not of type SET", .incorrectType) := by
  rcases n with ⟨hcode, nkey, addr, payload⟩
  cases payload with
  | set s => exact absurd rfl hne
  | _ => rfl

/-- A command with a check refuses a node of another type and has done nothing else. -/
theorem runCommand_mismatch (h : g.WF) (hkey : Short (keyOf cmd)) {n : HNode Entry} (hn : g.nodeOf (keyOf cmd) = some n)
    (hc : c.checksType = true) (hargc : c.argc ≤ cmd.length) {type : EntryType} (htype : c.type = some type)
    (hne : n.val.type ≠ type) : ∃ ret, runCommand env g out cmd c = .ok ⟨g, outErr out c.typeError, ret⟩ := by
  have harg : ∀ i, i < c.argc → arg cmd i = .ok (cmd.getD i []) := fun i hi => arg_eq_getD (by omega)
  have hfind : findNode g (cmd.getD 1 []) = .ok (some n) := (findNode_eq h hkey).trans (congrArg _ hn)
  have hinsert : ∀ payload, findOrInsert env g (cmd.getD 1 []) payload = .ok (g, n) := findOrInsert_found h hkey hn
  rcases n with ⟨hcode, nkey, addr, payload⟩
  cases c with
  | hget | hdel | lpop | rpop =>
    cases htype
    simp only [runCommand, doHget, doHdel, doPop, harg 1 (by decide), harg 2 (by decide), hfind, ok_bind]
    cases payload <;> first | exact absurd rfl hne | exact ⟨_, rfl⟩
  | lrange =>
    cases htype
    simp only [runCommand, doLrange, harg 1 (by decide), harg 2 (by decide), harg 3 (by decide), hfind, ok_bind]
    cases payload <;> first | exact absurd rfl hne | exact ⟨_, rfl⟩
  | lpush | rpush | sadd | pfadd =>
    cases htype
    simp only [runCommand, doPush, doSadd, doPfadd, harg 1 (by decide), harg 2 (by decide), hinsert, ok_bind]
    cases payload <;> first | exact absurd rfl hne | exact ⟨_, rfl⟩
  | hset | zadd | setbit =>
    cases htype
    simp only [runCommand, doHset, doZadd, doSetbit, harg 1 (by decide), harg 2 (by decide), harg 3 (by decide),
      dstrInit_eq (Nat.zero_le _), hinsert, ok_bind]
    cases payload <;> first | exact absurd rfl hne | exact ⟨_, rfl⟩
  | smembers | scard =>
    cases htype
    simp only [runCommand, doSmembers, doScard, harg 1 (by decide), hfind, requireSet_mismatch hne, ok_bind]
    exact ⟨_, rfl⟩
  | srem =>
    cases htype
    simp only [runCommand, doSrem, harg 1 (by decide), harg 2 (by decide), hfind, requireSet_mismatch hne, ok_bind]
    exact ⟨_, rfl⟩
  | getbit =>
    cases htype
    simp only [runCommand, doGetbit, harg 1 (by decide), harg 2 (by decide), hfind, validateHmnode_mismatch hne, ok_bind]
    exact ⟨_, rfl⟩
  | bitcount | pfcount =>
    cases htype
    simp only [runCommand, doBitcount, doPfcount, harg 1 (by decide), hfind, validateHmnode_mismatch hne, ok_bind]
    exact ⟨_, rfl⟩
  | get | set | hgetall | zscore | zrem | zquery => cases hc
  | del | keys | expire | ttl | persist | pfmerge | todo | unknown => cases htype

/-! ### Payloads -/

theorem arg_safe (i : Nat) : PayloadSafe (arg cmd i) := by
  rw [arg]
  split
  · exact Run.avoids_ok _
  · exact Run.avoids_error.mpr (by decide)

/-- What follows `find_zset` does not misuse a payload if the node is a sorted set. -/
theorem zset_safe (h : g.WF) (hkey : Short (keyOf cmd))
    (htype : ∀ n, g.nodeOf (keyOf cmd) = some n → n.val.type = .zset) {β : Type} {k : ZSet → M β}
    (hk : ∀ z, PayloadSafe (k z)) : PayloadSafe (findZset g (keyOf cmd) >>= fun z => derefZset z >>= k) := by
  rw [findZset, findNode_bind h hkey]
  cases hn : g.nodeOf (keyOf cmd) with
  | none => exact hk {}
  | some n =>
    have hzset := htype n hn
    rcases n with ⟨hcode, nkey, addr, payload⟩
    cases payload with
    | zset z => exact hk z
    | _ => cases hzset

/-- A command without a check does not misuse a payload if the node is of its type. -/
theorem unchecked_safe (h : g.WF) (hkey : Short (keyOf cmd)) (hc : c.checksType = false)
    (hmatch : 1 < cmd.length → ∀ n type, g.nodeOf (keyOf cmd) = some n → c.type = some type → n.val.type = type) :
    PayloadSafe (runCommand env g out cmd c) := by
  cases c with
  | get | hgetall =>
    simp only [runCommand, doGet, doHgetall, Run.avoids_bind, arg_safe, true_and]
    intro key harg
    cases arg_key harg
    rw [findNode_eq h hkey]
    refine ⟨Run.avoids_ok _, ?_⟩
    rintro node ⟨⟩
    cases hn : g.nodeOf (keyOf cmd) with
    | none => exact Run.avoids_ok _
    | some n =>
      have htype := hmatch (lt_of_arg harg) n _ hn rfl
      rcases n with ⟨hcode, nkey, addr, payload⟩
      cases payload <;> first | exact Run.avoids_ok _ | cases htype
  | set =>
    simp only [runCommand, doSet, Run.avoids_bind, arg_safe, true_and]
    intro key harg val hval
    cases arg_key harg
    rw [findNode_eq h hkey]
    refine ⟨Run.avoids_ok _, ?_⟩
    rintro node ⟨⟩
    cases hn : g.nodeOf (keyOf cmd) with
    | none => simp
    | some n =>
      have htype := hmatch (lt_of_arg harg) n _ hn rfl
      rcases n with ⟨hcode, nkey, addr, payload⟩
      cases payload with
      | str old => simp
      | _ => cases htype
  | zscore | zrem =>
    refine Run.avoids_bind.mpr ⟨arg_safe 1, fun key harg => ?_⟩
    refine Run.avoids_bind.mpr ⟨arg_safe 2, fun member _ => ?_⟩
    cases arg_key harg
    refine zset_safe h hkey (fun n hn => hmatch (lt_of_arg harg) n _ hn rfl) fun z => ?_
    simp only [Run.avoids_bind, zsetLookup_avoids, true_and]
    intros
    split <;> simp
  | zquery =>
    refine Run.avoids_bind.mpr ⟨arg_safe 1, fun key harg => ?_⟩
    refine Run.avoids_bind.mpr ⟨arg_safe 2, fun score _ => ?_⟩
    refine Run.avoids_bind.mpr ⟨arg_safe 3, fun keyLb _ => ?_⟩
    cases arg_key harg
    refine zset_safe h hkey (fun n hn => hmatch (lt_of_arg harg) n _ hn rfl) fun z => ?_
    simp only [Run.avoids_bind, zsetLowerBound_avoids, true_and]
    intros
    split <;> simp
  | _ => cases hc

end Handlers

/-! ### Requests -/

section Requests

variable {env : Env} {g : GlobalData} {out : Bytes} {r : Request}

theorem outBuffer_of_run {cmd : List Bytes} {res : Result} (hlen : 0 < cmd.length)
    (hrun : runCommand env g out cmd (commandOf cmd) = .ok res) : outBuffer env g out cmd = .ok (res.data, res.out) := by
  rw [outBuffer, arg_eq_getD hlen]
  simp only [ok_bind, hrun]

theorem run_of_outBuffer {cmd : List Bytes} {res : GlobalData × Bytes} (hrun : outBuffer env g out cmd = .ok res) :
    ∃ r, runCommand env g out cmd (commandOf cmd) = .ok r := by
  obtain ⟨_, -, hrun⟩ := ok_of_bind hrun
  obtain ⟨r, hrun, -⟩ := ok_of_bind hrun
  exact ⟨r, hrun⟩

/-- The node of a key after a write to its payload. -/
theorem Written.nodeOf {g' : GlobalData} {key : Bytes} {payload : Payload} (hw : Written g key payload g')
    {n : HNode Entry} (hn : g.nodeOf key = some n) :
    g'.nodeOf key = some { n with val := { n.val with payload := payload } } := by
  rw [GlobalData.nodeOf, hw.find, show g.db.find (keyId key) = some n from hn, Option.map_some, if_pos rfl]

/-- On a node of another type a request returns only if its handler checks the type and has all its tokens. -/
theorem Mismatch.of_run (h : g.WF) (hm : Mismatch g r.tokens) {res : GlobalData × Bytes}
    (hrun : outBuffer env g out r.tokens = .ok res) :
    (commandOf r.tokens).checksType = true ∧ (commandOf r.tokens).argc ≤ r.tokens.length := by
  obtain ⟨-, n, type, hn, htype, hne⟩ := hm
  obtain ⟨res, hrun⟩ := run_of_outBuffer hrun
  refine ⟨?_, argc_le_of_run hrun⟩
  cases hc : (commandOf r.tokens).checksType with
  | true => rfl
  | false => exact absurd (type_of_run h r.short_key hn hc htype hrun) hne

/-- A request is type safe in a reachable state if and only if, where its key holds a value of another type, it
is not one of the six commands without a check and has the tokens that its handler reads. -/
theorem type_safe_iff (hg : Reachable g) : TypeSafe env g out r ↔ (Mismatch g r.tokens →
    (commandOf r.tokens).checksType = true ∧ (commandOf r.tokens).argc ≤ r.tokens.length) := by
  constructor
  · intro hsafe hm
    by_cases hset : commandOf r.tokens = .set
    · obtain ⟨g', out', hrun, -⟩ := hsafe.set hm hset
      exact hm.of_run hg.wf hrun
    · obtain ⟨mes, hrun, -⟩ := hsafe.data hm hset
      exact hm.of_run hg.wf hrun
  · intro hcond
    refine ⟨fun hm _ => ?_, fun hm hset => ?_, ?_⟩
    · obtain ⟨hc, hargc⟩ := hcond hm
      obtain ⟨hlen, n, type, hn, htype, hne⟩ := hm
      refine ⟨(commandOf r.tokens).typeError, ?_, fun n' p hn' hp => ?_⟩
      · obtain ⟨ret, hrun⟩ := runCommand_mismatch hg.wf r.short_key hn hc hargc htype hne
        exact outBuffer_of_run (by omega) hrun
      · rw [hn] at hn'
        cases hn'
        obtain ⟨g', hw⟩ := putPayload_spec hg.wf r.short_key hn p
        obtain ⟨ret, hrun⟩ := runCommand_mismatch hw.wf r.short_key (hw.nodeOf hn) hc hargc htype (by rwa [Entry.type, hp])
        exact ⟨g', hw.run, outBuffer_of_run (by omega) hrun⟩
    · have hc := (hcond hm).1
      rw [hset] at hc
      cases hc
    · refine Run.avoids_bind.mpr ⟨arg_safe 0, fun _ _ => Run.avoids_bind.mpr ⟨?_, fun _ _ => Run.avoids_ok _⟩⟩
      cases hc : (commandOf r.tokens).checksType with
      | true => exact checked_avoids (fun i _ => arg_safe i) (by decide) hc
      | false =>
        apply unchecked_safe hg.wf r.short_key hc
        intro hlen n type hn htype
        by_contra hne
        have hchecks := (hcond ⟨hlen, n, type, hn, htype, hne⟩).1
        rw [hc] at hchecks
        cases hchecks

end Requests

/-- `GET` on a hash reads the string of a node that has none. -/
theorem get_reads_hash : ∃ g, Run.run serverStep {} [.request {} (.ofTexts ["HSET", "h", "f", "v"])] = .ok g ∧
    outBuffer {} g (beforeResBuild []).1 (Request.ofTexts ["GET", "h"]).tokens = .error .uninitPayload ∧
    ¬TypeSafe {} g [] (.ofTexts ["GET", "h"]) := by
  obtain ⟨g, hrun, hcheck⟩ := exists_ok_of_check
    (x := Run.run serverStep {} [.request {} (.ofTexts ["HSET", "h", "f", "v"])])
    (p := fun g => decide (outBuffer {} g (beforeResBuild []).1 (Request.ofTexts ["GET", "h"]).tokens =
      .error .uninitPayload)) (by decide +kernel)
  have hfault := of_decide_eq_true hcheck
  exact ⟨g, hrun, hfault, fun hsafe => hsafe.faults _ hfault (.inl rfl)⟩

/-- `LPUSH` on a hash. -/
theorem type_safe_push : ∃ g, Reachable g ∧ Mismatch g (Request.ofTexts ["LPUSH", "h", "x"]).tokens ∧
    TypeSafe {} g [] (.ofTexts ["LPUSH", "h", "x"]) := by
  obtain ⟨g, hrun, hcheck⟩ := exists_ok_of_check
    (x := Run.run serverStep {} [.request {} (.ofTexts ["HSET", "h", "f", "v"])])
    (p := fun g => decide ((g.nodeOf (text "h")).map (fun n => n.val.type) = some .hset)) (by decide +kernel)
  obtain ⟨n, hn, htype⟩ := Option.map_eq_some_iff.mp (of_decide_eq_true hcheck)
  have hg : Reachable g := ⟨_, hrun⟩
  refine ⟨g, hg, ⟨by decide, n, .list, hn, by decide +kernel, ?_⟩, (type_safe_iff hg).mpr fun _ => by decide +kernel⟩
  rw [htype]
  decide

end CustomRedis
