import CustomRedis.Proof.EventLoop

/-!
# What waits in front of a reply

The commands append their reply to the outgoing buffer of the connection, where the replies to earlier requests may
still wait. They take back the last status code and fill in the length of an array, both by their distance from the end
of the buffer. So no command looks at what waits, and its effect and its reply are the same behind any backlog.
-/

namespace CustomRedis

open Run (ok_bind)

/-! ### Buffers -/

section Buffers

variable {back out : Bytes}

theorem bufRemLastResCode_append (h : 4 ≤ out.length) : bufRemLastResCode (back ++ out) = back ++ bufRemLastResCode out := by
  rw [bufRemLastResCode, List.length_append, Nat.add_sub_assoc h, List.take_length_add_append]
  rfl

theorem outArr_append (n : Nat) : outArr (back ++ out) n = back ++ outArr out n := by
  simp only [outArr, bufAppendU32, bufAppendU8, bufAppend, List.append_assoc]

theorem outInt_append (n : Nat) : outInt (back ++ out) n = back ++ outInt out n := by
  simp only [outInt, bufAppendU32, bufAppendU8, bufAppend, List.append_assoc]

theorem outDouble_append (d : Double) : outDouble (back ++ out) d = back ++ outDouble out d := by
  simp only [outDouble, bufAppendDouble, bufAppendU8, bufAppend, List.append_assoc]

theorem outStr_append (s : Bytes) : outStr (back ++ out) s = back ++ outStr out s := by
  simp only [outStr, bufAppendU32, bufAppendU8, bufAppend, List.append_assoc]

theorem outNull_append : outNull (back ++ out) = back ++ outNull out := List.append_assoc _ _ _

theorem outStrs_append (strs : List Bytes) : outStrs (back ++ out) strs = back ++ outStrs out strs := by
  induction strs generalizing out with
  | nil => rfl
  | cons s strs ih =>
    show outStrs (outStr (back ++ out) s) strs = back ++ outStrs (outStr out s) strs
    rw [outStr_append, ih]

theorem outNotFound_append (h : 4 ≤ out.length) : outNotFound (back ++ out) = back ++ outNotFound out := by
  rw [outNotFound, bufRemLastResCode_append h]
  simp only [outNotFound, bufAppendU32, bufAppendU8, bufAppend, List.append_assoc]

theorem outErr_append (h : 4 ≤ out.length) (mes : String) : outErr (back ++ out) mes = back ++ outErr out mes := by
  rw [outErr, bufRemLastResCode_append h]
  simp only [outErr, bufAppendU32, bufAppendU8, bufAppend, List.append_assoc]

theorem patchU32_append (pos x : Nat) : patchU32 (back ++ out) (back.length + pos) x = back ++ patchU32 out pos x := by
  rw [patchU32, List.take_length_add_append, Nat.add_assoc, List.drop_length_add_append, List.append_assoc,
    List.append_assoc, patchU32, List.append_assoc]

theorem outUnknownArr_snd (out : Bytes) : (outUnknownArr out).2 = out.length + 1 := by
  simp only [outUnknownArr, bufAppendU32, bufAppendU8, bufAppend, List.length_append, length_leBytes,
    List.length_singleton, Nat.add_sub_cancel]

theorem outUnknownArr_append : outUnknownArr (back ++ out) =
    (back ++ (outUnknownArr out).1, back.length + (outUnknownArr out).2) := by
  apply Prod.ext
  · simp only [outUnknownArr, bufAppendU32, bufAppendU8, bufAppend, List.append_assoc]
  · rw [outUnknownArr_snd, outUnknownArr_snd, List.length_append, Nat.add_assoc]

end Buffers

/-! ### Handlers -/

/-- The same effect, with the reply behind a backlog. -/
def Result.behind (back : Bytes) (r : Result) : Result := { r with out := back ++ r.out }

/-- The handler leaves alone what stands in front of the status code. -/
def Appends (f : Bytes → M Result) : Prop :=
  ∀ back out, 4 ≤ out.length → f (back ++ out) = (f out).map (Result.behind back)

section Appends

theorem map_bind {α β γ : Type} (x : M α) (f : α → M β) (k : β → γ) : (x >>= f).map k = x >>= fun a => (f a).map k := by
  cases x with
  | error e => rfl
  | ok a => rfl

theorem appends_bind {α : Type} {x : M α} {f : α → Bytes → M Result} (h : ∀ a, Appends (f a)) :
    Appends fun out => x >>= fun a => f a out := by
  intro back out hlen
  dsimp only
  rw [map_bind]
  apply congrArg
  funext a
  exact h a back out hlen

theorem appends_error (e : Fault) : Appends fun _ => .error e := fun _ _ _ => rfl

theorem appends_ok {g : GlobalData} {ret : ReturnVal} {f : Bytes → Bytes}
    (h : ∀ back out : Bytes, 4 ≤ out.length → f (back ++ out) = back ++ f out) : Appends fun out => .ok ⟨g, f out, ret⟩ := by
  intro back out hlen
  dsimp only
  rw [h back out hlen]
  rfl

theorem appends_ite {c : Prop} [Decidable c] {f f' : Bytes → M Result} (h : c → Appends f) (h' : ¬c → Appends f') :
    Appends fun out => if c then f out else f' out := by
  by_cases hc : c
  · simp only [if_pos hc]
    exact h hc
  · simp only [if_neg hc]
    exact h' hc

theorem appends_null {g : GlobalData} {ret : ReturnVal} : Appends fun out => .ok ⟨g, outNull out, ret⟩ :=
  appends_ok fun _ _ _ => outNull_append

theorem appends_int {g : GlobalData} {ret : ReturnVal} (n : Nat) : Appends fun out => .ok ⟨g, outInt out n, ret⟩ :=
  appends_ok fun _ _ _ => outInt_append n

theorem appends_err {g : GlobalData} {ret : ReturnVal} (mes : String) : Appends fun out => .ok ⟨g, outErr out mes, ret⟩ :=
  appends_ok fun _ _ hlen => outErr_append hlen mes

theorem appends_strs {g : GlobalData} {ret : ReturnVal} (n : Nat) (strs : List Bytes) :
    Appends fun out => .ok ⟨g, outStrs (outArr out n) strs, ret⟩ := by
  refine appends_ok fun _ _ _ => ?_
  rw [outArr_append, outStrs_append]

end Appends

section Handlers

variable (env : Env) (g : GlobalData) (cmd : List Bytes)

theorem doGet_appends : Appends fun out => doGet g out cmd := by
  unfold doGet
  refine appends_bind fun key => appends_bind fun node => ?_
  cases node with
  | none => exact appends_ok fun _ _ hlen => outNotFound_append hlen
  | some node =>
    obtain ⟨hcode, key, addr, payload⟩ := node
    cases payload with
    | str val => exact appends_ok fun _ _ _ => outStr_append _
    | _ => exact appends_error _

theorem doSet_appends : Appends fun out => doSet env g out cmd := by
  unfold doSet
  refine appends_bind fun key => appends_bind fun val => appends_bind fun node => ?_
  cases node with
  | none => exact appends_bind fun new => appends_bind fun g => appends_null
  | some node =>
    obtain ⟨hcode, key, addr, payload⟩ := node
    cases payload with
    | str old => exact appends_bind fun new => appends_bind fun g => appends_null
    | _ => exact appends_error _

theorem doDel_appends : Appends fun out => doDel g out cmd := by
  unfold doDel
  refine appends_bind fun key => appends_bind fun tmp => appends_bind fun res => ?_
  obtain ⟨g, deleted⟩ := res
  cases deleted with
  | true => exact appends_null
  | false => exact appends_err _

theorem doKeys_appends : Appends fun out => doKeys g out := appends_strs _ _

theorem doZadd_appends : Appends fun out => doZadd env g out cmd := by
  unfold doZadd
  refine appends_bind fun key => appends_bind fun score => appends_bind fun member => appends_bind fun res => ?_
  obtain ⟨g, hcode, key, addr, payload⟩ := res
  cases payload with
  | zset z => exact appends_bind fun zi => appends_bind fun g => appends_int _
  | _ => exact appends_err _

theorem doZscore_appends : Appends fun out => doZscore g out cmd := by
  unfold doZscore
  refine appends_bind fun key => appends_bind fun member => appends_bind fun zset => ?_
  refine appends_bind fun z => appends_bind fun p => ?_
  cases p with
  | none => exact appends_null
  | some p => exact appends_bind fun znode => appends_ok fun _ _ _ => outDouble_append _

theorem doZrem_appends : Appends fun out => doZrem g out cmd := by
  unfold doZrem
  refine appends_bind fun key => appends_bind fun member => appends_bind fun zset => ?_
  refine appends_bind fun z => appends_bind fun p => ?_
  cases p with
  | none => exact appends_int _
  | some p => exact appends_bind fun z => appends_bind fun g => appends_int _

theorem zrangeLoop_append {fuel : Nat} {z : ZSet} {p : Option Ptr} {size limit : Nat} (back out : Bytes) :
    zrangeLoop fuel z p size limit (back ++ out) =
      (zrangeLoop fuel z p size limit out).map fun r => (back ++ r.1, r.2) := by
  induction fuel generalizing p size out with
  | zero => cases p <;> rfl
  | succ fuel ih =>
    cases p with
    | none => rfl
    | some p =>
      rw [zrangeLoop, zrangeLoop]
      by_cases hlt : size < limit
      · rw [if_pos hlt, if_pos hlt, map_bind]
        apply congrArg
        funext znode
        rw [map_bind, outDouble_append, outStr_append]
        apply congrArg
        funext next
        exact ih _
      · rw [if_neg hlt, if_neg hlt]
        rfl

theorem doZrangequery_appends : Appends fun out => doZrangequery g out cmd := by
  unfold doZrangequery
  refine appends_bind fun key => appends_bind fun score => appends_bind fun keyLb => ?_
  refine appends_bind fun zset => appends_bind fun z => appends_bind fun lb => ?_
  cases lb with
  | none => exact appends_ok fun _ _ _ => outArr_append 0
  | some lb =>
    refine appends_bind fun znode => ?_
    intro back out hlen
    dsimp only
    rw [outUnknownArr_append, map_bind, zrangeLoop_append]
    cases zrangeLoop _ z znode 0 _ (outUnknownArr out).1 with
    | error e => rfl
    | ok r =>
      show Except.ok _ = Except.ok _
      rw [patchU32_append]
      rfl

theorem doExpire_appends : Appends fun out => doExpire env g out cmd := by
  unfold doExpire
  refine appends_bind fun key => appends_bind fun seconds => appends_bind fun node => ?_
  cases node with
  | none => exact appends_null
  | some node => exact appends_bind fun ttl => appends_null

theorem doTtl_appends : Appends fun out => doTtl env g out cmd := by
  unfold doTtl
  refine appends_bind fun key => appends_bind fun node => ?_
  cases node with
  | none => exact appends_null
  | some node =>
    dsimp only
    cases g.ttl.refs.read node.val.addr with
    | none => exact appends_error _
    | some heapIdx => exact appends_bind fun h => appends_int _

theorem doPersist_appends : Appends fun out => doPersist g out cmd := by
  unfold doPersist
  refine appends_bind fun key => appends_bind fun node => ?_
  cases node with
  | none => exact appends_null
  | some node => exact appends_bind fun ttl => appends_null

theorem doHset_appends : Appends fun out => doHset env g out cmd := by
  unfold doHset
  refine appends_bind fun key => appends_bind fun field => appends_bind fun value => appends_bind fun res => ?_
  obtain ⟨g, hcode, key, addr, payload⟩ := res
  cases payload with
  | hset hmap =>
    refine appends_bind fun _ => appends_bind fun found => ?_
    cases found with
    | some n => exact appends_bind fun val => appends_bind fun hmap => appends_bind fun g => appends_null
    | none =>
      exact appends_bind fun fieldKey => appends_bind fun val => appends_bind fun res => appends_bind fun g => appends_null
  | _ => exact appends_err _

theorem doHget_appends : Appends fun out => doHget g out cmd := by
  unfold doHget
  refine appends_bind fun key => appends_bind fun field => appends_bind fun node => ?_
  cases node with
  | none => exact appends_null
  | some node =>
    obtain ⟨hcode, key, addr, payload⟩ := node
    cases payload with
    | hset hmap =>
      refine appends_bind fun tmp => appends_bind fun found => ?_
      cases found with
      | some n => exact appends_ok fun _ _ _ => outStr_append _
      | none => exact appends_null
    | _ => exact appends_err _

theorem doHdel_appends : Appends fun out => doHdel g out cmd := by
  unfold doHdel
  refine appends_bind fun key => appends_bind fun field => appends_bind fun node => ?_
  cases node with
  | none => exact appends_null
  | some node =>
    obtain ⟨hcode, key, addr, payload⟩ := node
    cases payload with
    | hset hmap =>
      refine appends_bind fun tmp => appends_bind fun res => ?_
      obtain ⟨hmap, deleted, jobs⟩ := res
      cases deleted with
      | false => exact appends_err _
      | true =>
        refine appends_bind fun g => ?_
        by_cases hempty : hmSize hmap = 0
        · simp only [if_pos hempty]
          exact appends_bind fun res => appends_null
        · simp only [if_neg hempty]
          exact appends_null
    | _ => exact appends_err _

theorem doHgetall_appends : Appends fun out => doHgetall g out cmd := by
  unfold doHgetall
  refine appends_bind fun key => appends_bind fun node => ?_
  cases node with
  | none => exact appends_null
  | some node =>
    obtain ⟨hcode, key, addr, payload⟩ := node
    cases payload with
    | hset hmap => exact appends_strs _ _
    | _ => exact appends_error _

theorem doPush_appends (side : Side) : Appends fun out => doPush env g out cmd side := by
  unfold doPush
  refine appends_bind fun key => appends_bind fun value => appends_bind fun res => ?_
  obtain ⟨g, hcode, key, addr, payload⟩ := res
  cases payload with
  | list l => exact appends_bind fun l => appends_bind fun g => appends_int _
  | _ => exact appends_err _

theorem popLoop_append {n : Nat} {l : DList} {side : Side} (back out : Bytes) :
    popLoop n l side (back ++ out) = (popLoop n l side out).map fun r => (r.1, back ++ r.2) := by
  induction n generalizing l out with
  | zero => rfl
  | succ n ih =>
    rw [popLoop, popLoop, map_bind]
    apply congrArg
    funext r
    dsimp only
    rw [outStr_append, ih]

theorem doPop_appends (side : Side) : Appends fun out => doPop g out cmd side := by
  unfold doPop
  refine appends_bind fun key => appends_bind fun count => appends_bind fun node => ?_
  cases node with
  | none => exact appends_err _
  | some node =>
    obtain ⟨hcode, key, addr, payload⟩ := node
    cases payload with
    | list l =>
      refine appends_ite (fun _ => appends_err _) fun _ => ?_
      intro back out hlen
      dsimp only
      rw [outArr_append, popLoop_append, map_bind]
      cases popLoop _ l side (outArr out _) with
      | error e => rfl
      | ok r =>
        rw [ok_bind, map_bind]
        rfl
    | _ => exact appends_err _

theorem lrangeLoop_append {m : DListMem Bytes} {n : Nat} {p : Option Ptr} (back out : Bytes) :
    lrangeLoop m n p (back ++ out) = (lrangeLoop m n p out).map (back ++ ·) := by
  induction n generalizing p out with
  | zero => rfl
  | succ n ih =>
    rw [lrangeLoop, lrangeLoop, map_bind]
    apply congrArg
    funext c
    rw [outStr_append, ih]

theorem appends_lrangeLoop (m : DListMem Bytes) (n : Nat) (p : Option Ptr) (count : Nat) : Appends fun out =>
    lrangeLoop m n p (outArr out count) >>= fun out => .ok ⟨g, out, .success⟩ := by
  intro back out hlen
  dsimp only
  rw [outArr_append, lrangeLoop_append]
  cases lrangeLoop m n p (outArr out count) with
  | error e => rfl
  | ok out => rfl

theorem doLrange_appends : Appends fun out => doLrange g out cmd := by
  unfold doLrange
  refine appends_bind fun key => appends_bind fun start => appends_bind fun last => appends_bind fun node => ?_
  cases node with
  | none => exact appends_err _
  | some node =>
    obtain ⟨hcode, key, addr, payload⟩ := node
    cases payload with
    | list l =>
      refine appends_ite (fun _ => appends_err _) fun _ => ?_
      apply appends_ite
      · exact fun _ => appends_bind fun begin => appends_lrangeLoop g _ _ begin _
      · exact fun _ => appends_bind fun begin => appends_lrangeLoop g _ _ begin _
    | _ => exact appends_err _

theorem doSadd_appends : Appends fun out => doSadd env g out cmd := by
  unfold doSadd
  refine appends_bind fun key => appends_bind fun value => appends_bind fun res => ?_
  obtain ⟨g, hcode, key, addr, payload⟩ := res
  cases payload with
  | set s =>
    exact appends_bind fun valueKey => appends_bind fun res => appends_bind fun g => appends_ok fun _ _ _ => rfl
  | _ => exact appends_err _

/-- The error reply of `requireSet` behind a backlog, and the set itself without one. -/
theorem appends_requireSet {node : Option (HNode Entry)} {f : HMap Unit → Bytes → M Result} (h : ∀ s, Appends (f s)) :
    Appends fun out => match requireSet out node with
      | .error (out, ret) => .ok ⟨g, out, ret⟩
      | .ok s => f s out := by
  cases node with
  | none => exact appends_err _
  | some node =>
    obtain ⟨hcode, key, addr, payload⟩ := node
    cases payload with
    | set s => exact h s
    | _ => exact appends_err _

theorem doSrem_appends : Appends fun out => doSrem g out cmd := by
  unfold doSrem
  refine appends_bind fun key => appends_bind fun value => appends_bind fun node => ?_
  refine appends_requireSet g fun s => ?_
  exact appends_bind fun tmp => appends_bind fun res => appends_bind fun g => appends_int _

theorem doSmembers_appends : Appends fun out => doSmembers g out cmd := by
  unfold doSmembers
  refine appends_bind fun key => appends_bind fun node => ?_
  exact appends_requireSet g fun s => appends_strs _ _

theorem doScard_appends : Appends fun out => doScard g out cmd := by
  unfold doScard
  refine appends_bind fun key => appends_bind fun node => ?_
  exact appends_requireSet g fun s => appends_int _

theorem doSetbit_appends : Appends fun out => doSetbit env g out cmd := by
  unfold doSetbit
  refine appends_bind fun key => appends_bind fun bitPos => appends_bind fun bitValue => ?_
  cases dstrInit 0 with
  | none => exact appends_error _
  | some empty =>
    refine appends_bind fun res => ?_
    obtain ⟨g, hcode, key, addr, payload⟩ := res
    cases payload with
    | bitmap bitmap =>
      refine appends_ite (fun _ => appends_err _) fun _ => appends_ite (fun _ => appends_err _) fun _ => ?_
      refine appends_bind fun set => ?_
      cases set with
      | none => exact appends_err _
      | some set => exact appends_bind fun g => appends_int _
    | _ => exact appends_err _

theorem doGetbit_appends : Appends fun out => doGetbit g out cmd := by
  unfold doGetbit
  refine appends_bind fun key => appends_bind fun bitPos => appends_bind fun node => ?_
  cases node with
  | none => exact appends_err _
  | some node =>
    obtain ⟨hcode, key, addr, payload⟩ := node
    cases payload with
    | bitmap bitmap => exact appends_ite (fun _ => appends_err _) fun _ => appends_bind fun byte => appends_int _
    | _ => exact appends_err _

theorem doBitcount_appends : Appends fun out => doBitcount g out cmd := by
  unfold doBitcount
  refine appends_bind fun key => appends_bind fun node => ?_
  cases node with
  | none => exact appends_err _
  | some node =>
    obtain ⟨hcode, key, addr, payload⟩ := node
    cases payload with
    | bitmap bitmap =>
      apply appends_ite
      · exact fun _ => appends_bind fun ret => appends_int _
      · exact fun _ => appends_bind fun ret => appends_int _
    | _ => exact appends_err _

theorem doPfadd_appends : Appends fun out => doPfadd env g out cmd := by
  unfold doPfadd
  refine appends_bind fun key => appends_bind fun val => appends_bind fun res => ?_
  obtain ⟨g, hcode, key, addr, payload⟩ := res
  cases payload with
  | hll hll => exact appends_bind fun res => appends_bind fun g => appends_int _
  | _ => exact appends_err _

theorem doPfcount_appends : Appends fun out => doPfcount env g out cmd := by
  unfold doPfcount
  refine appends_bind fun key => appends_bind fun node => ?_
  cases node with
  | none => exact appends_err _
  | some node =>
    obtain ⟨hcode, key, addr, payload⟩ := node
    cases payload with
    | hll hll => exact appends_bind fun res => appends_bind fun g => appends_int _
    | _ => exact appends_err _

theorem runCommand_appends (c : Command) : Appends fun out => runCommand env g out cmd c := by
  cases c with
  | get => exact doGet_appends g cmd
  | set => exact doSet_appends env g cmd
  | del => exact doDel_appends g cmd
  | keys => exact doKeys_appends g
  | hset => exact doHset_appends env g cmd
  | hget => exact doHget_appends g cmd
  | hgetall => exact doHgetall_appends g cmd
  | hdel => exact doHdel_appends g cmd
  | expire => exact doExpire_appends env g cmd
  | ttl => exact doTtl_appends env g cmd
  | persist => exact doPersist_appends g cmd
  | zadd => exact doZadd_appends env g cmd
  | zscore => exact doZscore_appends g cmd
  | zrem => exact doZrem_appends g cmd
  | zquery => exact doZrangequery_appends g cmd
  | lpush => exact doPush_appends env g cmd .left
  | rpush => exact doPush_appends env g cmd .right
  | lpop => exact doPop_appends g cmd .left
  | rpop => exact doPop_appends g cmd .right
  | lrange => exact doLrange_appends g cmd
  | sadd => exact doSadd_appends env g cmd
  | srem => exact doSrem_appends g cmd
  | smembers => exact doSmembers_appends g cmd
  | scard => exact doScard_appends g cmd
  | setbit => exact doSetbit_appends env g cmd
  | getbit => exact doGetbit_appends g cmd
  | bitcount => exact doBitcount_appends g cmd
  | pfadd => exact doPfadd_appends env g cmd
  | pfcount => exact doPfcount_appends env g cmd
  | pfmerge => exact appends_error _
  | todo => exact appends_ok fun _ _ _ => rfl
  | unknown => exact appends_err _

end Handlers

/-! ### Requests -/

/-- Whatever waits in front of it, a request has the same effect, the same fault and the same reply. -/
theorem outBuffer_append (env : Env) (g : GlobalData) (back : Bytes) {out : Bytes} (cmd : List Bytes) (h : 4 ≤ out.length) :
    outBuffer env g (back ++ out) cmd = (outBuffer env g out cmd).map fun r => (r.1, back ++ r.2) := by
  unfold outBuffer
  have happ : runCommand env g (back ++ out) cmd (commandOf cmd) =
      (runCommand env g out cmd (commandOf cmd)).map (Result.behind back) := runCommand_appends env g cmd _ back out h
  rw [map_bind]
  apply congrArg
  funext _
  rw [happ, map_bind]
  cases runCommand env g out cmd (commandOf cmd) with
  | error e => rfl
  | ok r => rfl

/-- The length of a reply is filled in as it is without a backlog, if its place can be told in 32 bits. -/
theorem afterResBuild_append {back out : Bytes} (hback : back.length < 2 ^ 32) :
    afterResBuild (back ++ out) (back.length % 2 ^ 32) = back ++ afterResBuild out 0 := by
  have hlen : (back ++ out).length - back.length - 4 = out.length - 0 - 4 := by
    rw [List.length_append]
    omega
  rw [Nat.mod_eq_of_lt hback, afterResBuild, afterResBuild, hlen]
  split
  · rfl
  · exact patchU32_append 0 _

/-- A service whose replies do not depend on what waits in front of them. -/
def Service.Oblivious {δ : Type} (srv : Service δ) : Prop :=
  ∀ d back cmd, srv.dispatch d (beforeResBuild back).1 cmd =
    (srv.dispatch d (beforeResBuild []).1 cmd).map fun r => (r.1, back ++ r.2)

theorem beforeResBuild_append (back : Bytes) : (beforeResBuild back).1 = back ++ (beforeResBuild []).1 := by
  rw [beforeResBuild_eq, beforeResBuild_eq, List.nil_append]

theorem redisService_oblivious (envs : Nat → Env) : (redisService envs).Oblivious := by
  intro d back cmd
  obtain ⟨g, n⟩ := d
  show (outBuffer (envs n) g (beforeResBuild back).1 cmd >>= _) = ((outBuffer (envs n) g (beforeResBuild []).1 cmd >>= _).map _)
  have hlen : 4 ≤ (beforeResBuild []).1.length := by decide
  rw [beforeResBuild_append, outBuffer_append (envs n) g back cmd hlen, map_bind]
  cases outBuffer (envs n) g (beforeResBuild []).1 cmd with
  | error e => rfl
  | ok r => rfl

end CustomRedis
