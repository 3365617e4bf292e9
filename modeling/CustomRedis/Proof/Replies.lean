import CustomRedis.Proof.ReplyGrammar

/-!
# What the commands reply

Every handler is taken apart once more, for the bytes it appends: one complete value, or an error in place of the status.
The exceptions are `do_sadd` and the unfinished commands, which append nothing, and arrays whose count does not fit
32 bits. On the way the strings in the database stay brief.
-/

namespace CustomRedis

open Run (ok_of_bind exists_ok_of_check)

/-! ### Which requests are answered -/

/-- The members that `zset_offset` finds from a node on, with the node itself. -/
def membersFrom (z : ZSet) : Nat → Option Ptr → Nat
  | 0, _ => 0
  | _ + 1, none => 0
  | fuel + 1, some p =>
    match zsetOffset z p 1 with
    | .ok next => membersFrom z fuel next + 1
    | .error _ => 1

def queryOffset (cmd : List Bytes) : Int :=
  match cmd[4]? with
  | some t => toI32 (strtol t)
  | none => 0

def queryLimit (cmd : List Bytes) : Nat :=
  match cmd[5]? with
  | some t => toU32 (strtol t)
  | none => 2 ^ 32 - 1

/-- Where a range query starts. -/
def queryStart (z : ZSet) (cmd : List Bytes) : M (Option Ptr) := do
  match ← zsetLowerBound z (strtod (cmd.getD 2 [])) (cmd.getD 3 []) with
  | none => .ok none
  | some lb => zsetOffset z lb (queryOffset cmd)

/-- A range query that no limit ends finds fewer than 2³¹ members, which it counts in pairs. -/
def RangeFits (g : GlobalData) (cmd : List Bytes) : Prop :=
  queryLimit cmd = 2 ^ 32 - 1 → ∀ n z start, g.nodeOf (keyOf cmd) = some n → n.val.payload = .zset z →
    queryStart z cmd = .ok start → membersFrom z (z.tree.next + 1) start < 2 ^ 31

/-- The command replies with a value that can be read back. -/
def Answers (g : GlobalData) (cmd : List Bytes) : Command → Prop
  | .todo => False
  | .sadd => ∃ n, g.nodeOf (keyOf cmd) = some n ∧ n.val.type ≠ .set
  | .keys => g.db.nodes.length < 2 ^ 32
  | .hgetall => ∀ n h, g.nodeOf (keyOf cmd) = some n → n.val.payload = .hset h → h.nodes.length < 2 ^ 32
  | .smembers => ∀ n s, g.nodeOf (keyOf cmd) = some n → n.val.payload = .set s → s.nodes.length < 2 ^ 32
  | .zquery => RangeFits g cmd
  | _ => True

/-- The key is reported missing. -/
def Missing (g : GlobalData) (cmd : List Bytes) (c : Command) : Prop := c = .get ∧ g.nodeOf (keyOf cmd) = none

/-- What a command makes of the buffer it is given. -/
inductive Replied (g : GlobalData) (cmd : List Bytes) (out : Bytes) (c : Command) : Bytes → Prop
  | value {v : Bytes} (hv : Complete v) (hne : v.head? ≠ some tagError) (hanswers : Answers g cmd c)
      (hfound : ¬Missing g cmd c) : Replied g cmd out c (out ++ v)
  | error (mes : String) (hmes : (text mes).length < 2 ^ 32) (hanswers : Answers g cmd c) (hfound : ¬Missing g cmd c) :
      Replied g cmd out c (outErr out mes)
  | missing (hmissing : Missing g cmd c) : Replied g cmd out c (outNotFound out)
  | silent (hnot : ¬Answers g cmd c) : Replied g cmd out c out
  | tooMany {vs : List Bytes} (hvs : ∀ v ∈ vs, Complete v) (hmany : 2 ^ 32 ≤ vs.length) (hnot : ¬Answers g cmd c)
      (hfound : ¬Missing g cmd c) : Replied g cmd out c (out ++ arrValue vs)

/-- A command that answers every request. -/
def Command.plain : Command → Bool
  | .get | .keys | .hgetall | .smembers | .zquery | .sadd | .todo => false
  | _ => true

section Plain

variable {g : GlobalData} {cmd : List Bytes} {out : Bytes} {c : Command}

theorem answers_of_plain (hc : c.plain = true) : Answers g cmd c := by
  cases c with
  | get | keys | hgetall | smembers | zquery | sadd | todo => cases hc
  | _ => trivial

theorem not_missing (hc : c ≠ .get) : ¬Missing g cmd c := fun hmissing => hc hmissing.1

theorem ne_get_of_plain (hc : c.plain = true) : c ≠ .get := by
  rintro rfl
  cases hc

theorem Replied.of_plain (hc : c.plain = true) {v : Bytes} (hv : Complete v) (hne : v.head? ≠ some tagError) :
    Replied g cmd out c (out ++ v) :=
  .value hv hne (answers_of_plain hc) (not_missing (ne_get_of_plain hc))

theorem replied_null (hc : c.plain = true) : Replied g cmd out c (outNull out) :=
  .of_plain hc .null (by decide)

theorem replied_int (hc : c.plain = true) (n : Nat) : Replied g cmd out c (outInt out n) := by
  rw [outInt_eq]
  exact .of_plain hc (.int n) (by rw [List.head?_cons]; decide)

theorem replied_double (hc : c.plain = true) (d : Double) : Replied g cmd out c (outDouble out d) := by
  rw [outDouble_eq]
  exact .of_plain hc (.double _) (by rw [List.head?_cons]; decide)

theorem replied_str (hc : c.plain = true) {s : Bytes} (hs : Brief s) : Replied g cmd out c (outStr out s) := by
  rw [outStr_eq]
  exact .of_plain hc (.str s hs.lt) (by rw [List.head?_cons]; decide)

theorem replied_error (hc : c.plain = true) (mes : String) (hmes : (text mes).length < 2 ^ 32) :
    Replied g cmd out c (outErr out mes) :=
  .error mes hmes (answers_of_plain hc) (not_missing (ne_get_of_plain hc))

/-- An array is complete, or it has too many values, which is why the request is not answered. -/
theorem replied_arr {vs : List Bytes} (hvs : ∀ v ∈ vs, Complete v) (hcount : Answers g cmd c ↔ vs.length < 2 ^ 32)
    (hc : c ≠ .get) : Replied g cmd out c (out ++ arrValue vs) := by
  by_cases hlt : vs.length < 2 ^ 32
  · exact .value (.arr vs hvs hlt) (by rw [arrValue, List.head?_cons]; decide) (hcount.mpr hlt) (not_missing hc)
  · exact .tooMany hvs (Nat.le_of_not_lt hlt) (fun h => hlt (hcount.mp h)) (not_missing hc)

theorem complete_strs {strs : List Bytes} (h : ∀ s ∈ strs, Brief s) : ∀ v ∈ strs.map strValue, Complete v := by
  intro v hv
  obtain ⟨s, hs, rfl⟩ := List.mem_map.mp hv
  exact complete_strValue (h s hs)

theorem replied_strs {strs : List Bytes} (h : ∀ s ∈ strs, Brief s) (hcount : Answers g cmd c ↔ strs.length < 2 ^ 32)
    (hc : c ≠ .get) : Replied g cmd out c (outStrs (outArr out strs.length) strs) := by
  rw [outStrs_outArr]
  exact replied_arr (complete_strs h) (by rw [List.length_map]; exact hcount) hc

theorem replied_no_strs (hanswers : Answers g cmd c) (hc : c ≠ .get) : Replied g cmd out c (outArr out 0) :=
  replied_strs (List.forall_mem_nil _) (iff_of_true hanswers (Nat.two_pow_pos 32)) hc

end Plain

/-! ### Keys -/

section Handlers

variable {env : Env} {g : GlobalData} {out : Bytes} {cmd : List Bytes} {r : Result}

/-- The command leaves the database brief and replies. -/
def Replies (g : GlobalData) (cmd : List Bytes) (out : Bytes) (c : Command) (r : Result) : Prop :=
  r.data.Brief ∧ Replied g cmd out c r.out

theorem doGet_replies (h : g.WF) (hb : g.Brief) (hkey : Short (keyOf cmd)) (hrun : doGet g out cmd = .ok r) :
    Replies g cmd out .get r := by
  replace hrun := lookup_of_run h hkey hrun
  cases hn : g.nodeOf (keyOf cmd) with
  | none =>
    rw [hn] at hrun
    cases hrun
    exact ⟨hb, .missing ⟨rfl, hn⟩⟩
  | some n =>
    rw [hn] at hrun
    have hfound : ¬Missing g cmd .get := by
      rintro ⟨-, hnone⟩
      rw [hn] at hnone
      cases hnone
    have hbrief := hb.node h hn
    rcases n with ⟨hcode, nkey, addr, payload⟩
    cases payload with
    | str val =>
      cases hrun
      refine ⟨hb, ?_⟩
      rw [outStr_eq]
      exact .value (.str _ (Brief.lt hbrief)) (by rw [List.head?_cons]; decide) trivial hfound
    | _ => cases hrun

theorem doSet_replies (h : g.WF) (hb : g.Brief) (hkey : Short (keyOf cmd)) (hrun : doSet env g out cmd = .ok r) :
    Replies g cmd out .set r := by
  obtain ⟨key, harg, hrun⟩ := ok_of_bind hrun
  obtain ⟨val, -, hrun⟩ := ok_of_bind hrun
  cases arg_key harg
  rw [findNode_bind h hkey] at hrun
  cases hn : g.nodeOf (keyOf cmd) with
  | none =>
    rw [hn] at hrun
    obtain ⟨new, hnew, hrun⟩ := ok_of_bind hrun
    obtain ⟨g', hins, hrun⟩ := ok_of_bind hrun
    cases hrun
    obtain ⟨g₁, hi⟩ := insertNode_spec env h hkey hn (.str new)
    cases hi.run.symm.trans hins
    exact ⟨hi.brief hb hkey (by exact newStr_brief hnew), replied_null rfl⟩
  | some n =>
    rw [hn] at hrun
    have hbrief := hb.node h hn
    rcases n with ⟨hcode, nkey, addr, payload⟩
    cases payload with
    | str old =>
      obtain ⟨⟨new, err⟩, hassign, hrun⟩ := ok_of_bind hrun
      dsimp only at hrun
      obtain ⟨g', hput, hrun⟩ := ok_of_bind hrun
      cases hrun
      exact ⟨putPayload_brief h hb hkey hn (by exact dstrAssign_brief hbrief hassign) hput, replied_null rfl⟩
    | _ => cases hrun

theorem doDel_replies (h : g.WF) (hb : g.Brief) (hrun : doDel g out cmd = .ok r) : Replies g cmd out .del r := by
  obtain ⟨key, harg, hrun⟩ := ok_of_bind hrun
  obtain ⟨tmp, -, hrun⟩ := ok_of_bind hrun
  obtain ⟨⟨g₁, deleted⟩, hdel, hrun⟩ := ok_of_bind hrun
  have hb₁ : g₁.Brief := by
    rcases deleteNode_ok h hdel with rfl | ⟨n, hd⟩
    · exact hb
    · exact hd.brief hb
  cases deleted with
  | true =>
    cases hrun
    exact ⟨hb₁, replied_null rfl⟩
  | false =>
    cases hrun
    exact ⟨hb₁, replied_error rfl _ (by decide)⟩

theorem doKeys_replies (hb : g.Brief) (hrun : doKeys g out = .ok r) : Replies g cmd out .keys r := by
  cases hrun
  refine ⟨hb, replied_strs (fun s hs => ?_) ?_ nofun⟩
  · rw [hmKeys_eq] at hs
    obtain ⟨n, hn, rfl⟩ := List.mem_map.mp hs
    exact (hb n hn).1
  · rw [hmKeys_eq, List.length_map]
    exact Iff.rfl

/-- The node that a command works on, found or inserted. -/
theorem findOrInsert_brief (h : g.WF) (hs : g.Shaped) (hb : g.Brief) (hkey : Short (keyOf cmd)) {c : Command}
    {g₁ : GlobalData} {n : HNode Entry} (hrun : findOrInsert env g (keyOf cmd) (newPayload cmd c) = .ok (g₁, n)) :
    g₁.WF ∧ g₁.Brief ∧ g₁.nodeOf (keyOf cmd) = some n ∧ n.val.payload.Shaped ∧ n.val.payload.Brief ∧
      (g.nodeOf (keyOf cmd) = some n ∨ g.nodeOf (keyOf cmd) = none ∧ n.val.payload = newPayload cmd c) := by
  have hbare := newPayload_bare cmd c
  rcases findOrInsert_spec env h hkey hbare with ⟨n', hn, hfind⟩ | ⟨hnone, g', hi, hfind⟩
  · cases hfind.symm.trans hrun
    exact ⟨h, hb, hn, hs _ ((GlobalData.nodeOf_eq_some h).mp hn).1, hb.node h hn, .inl hn⟩
  · cases hfind.symm.trans hrun
    refine ⟨hi.wf, hi.brief hb hkey (newPayload_brief cmd c), hi.nodeOf hbare, newPayload_shaped cmd c,
      newPayload_brief cmd c, .inr ⟨hnone, rfl⟩⟩

/-! ### Sorted sets -/

theorem zsetDelete_brief {z z' : ZSet} {p : Ptr} (hz : (Payload.zset z).Brief) (hrun : zsetDelete z p = .ok z') :
    (Payload.zset z').Brief := by
  obtain ⟨znode, -, hrun⟩ := ok_of_bind hrun
  obtain ⟨tmp, -, hrun⟩ := ok_of_bind hrun
  obtain ⟨⟨tree, root⟩, -, hrun⟩ := ok_of_bind hrun
  obtain ⟨⟨hmap, deleted, jobs⟩, -, hrun⟩ := ok_of_bind hrun
  cases hrun
  exact Mem.forall_read_free fun q n _ => hz q n

theorem zsetAdd_brief {z z' : ZSet} {score : Double} {key : Bytes} (hz : (Payload.zset z).Brief)
    (hrun : zsetAdd z score key = .ok z') : (Payload.zset z').Brief := by
  obtain ⟨nodeKey, -, hrun⟩ := ok_of_bind hrun
  obtain ⟨znodeKey, hcopy, hrun⟩ := ok_of_bind hrun
  obtain ⟨⟨hmap, jobs⟩, -, hrun⟩ := ok_of_bind hrun
  obtain ⟨link, -, hrun⟩ := ok_of_bind hrun
  obtain ⟨attached, -, hrun⟩ := ok_of_bind hrun
  obtain ⟨linked, -, hrun⟩ := ok_of_bind hrun
  obtain ⟨⟨tree, root⟩, -, hrun⟩ := ok_of_bind hrun
  cases hrun
  exact Mem.forall_read_alloc (dstrCopy_brief hcopy) hz

theorem zsetInsert_brief {z z' : ZSet} {score : Double} {key : Bytes} {inserted : Bool} (hz : (Payload.zset z).Brief)
    (hrun : zsetInsert z score key = .ok (z', inserted)) : (Payload.zset z').Brief := by
  obtain ⟨found, -, hrun⟩ := ok_of_bind hrun
  cases found with
  | some node =>
    obtain ⟨z₁, hdel, hrun⟩ := ok_of_bind hrun
    obtain ⟨z₂, hadd, hrun⟩ := ok_of_bind hrun
    cases hrun
    exact zsetAdd_brief (zsetDelete_brief hz hdel) hadd
  | none =>
    obtain ⟨z₂, hadd, hrun⟩ := ok_of_bind hrun
    cases hrun
    exact zsetAdd_brief hz hadd

theorem doZadd_replies (h : g.WF) (hs : g.Shaped) (hb : g.Brief) (hkey : Short (keyOf cmd))
    (hrun : doZadd env g out cmd = .ok r) : Replies g cmd out .zadd r := by
  obtain ⟨key, harg, hrun⟩ := ok_of_bind hrun
  obtain ⟨_, -, hrun⟩ := ok_of_bind hrun
  obtain ⟨_, -, hrun⟩ := ok_of_bind hrun
  cases arg_key harg
  obtain ⟨⟨g₁, n⟩, hfind, hrun⟩ := ok_of_bind hrun
  obtain ⟨h₁, hb₁, hn, -, hbrief, -⟩ := findOrInsert_brief (c := .zadd) h hs hb hkey hfind
  rcases n with ⟨hcode, nkey, addr, payload⟩
  cases payload with
  | zset z =>
    dsimp only at hrun
    obtain ⟨⟨z', inserted⟩, hins, hrun⟩ := ok_of_bind hrun
    dsimp only at hrun
    obtain ⟨g', hput, hrun⟩ := ok_of_bind hrun
    cases hrun
    exact ⟨putPayload_brief h₁ hb₁ hkey hn (zsetInsert_brief hbrief hins) hput, replied_int rfl _⟩
  | _ =>
    cases hrun
    exact ⟨hb₁, replied_error rfl _ (by decide)⟩

theorem doZscore_replies (hb : g.Brief) (hrun : doZscore g out cmd = .ok r) : Replies g cmd out .zscore r := by
  obtain ⟨key, harg, hrun⟩ := ok_of_bind hrun
  obtain ⟨member, -, hrun⟩ := ok_of_bind hrun
  obtain ⟨zset?, -, hrun⟩ := ok_of_bind hrun
  obtain ⟨z, -, hrun⟩ := ok_of_bind hrun
  obtain ⟨found, -, hrun⟩ := ok_of_bind hrun
  cases found with
  | none =>
    cases hrun
    exact ⟨hb, replied_null rfl⟩
  | some p =>
    dsimp only at hrun
    obtain ⟨znode, -, hrun⟩ := ok_of_bind hrun
    cases hrun
    exact ⟨hb, replied_double rfl _⟩

theorem doZrem_replies (h : g.WF) (hb : g.Brief) (hkey : Short (keyOf cmd)) (hrun : doZrem g out cmd = .ok r) :
    Replies g cmd out .zrem r := by
  obtain ⟨key, harg, hrun⟩ := ok_of_bind hrun
  obtain ⟨member, -, hrun⟩ := ok_of_bind hrun
  cases arg_key harg
  rcases findZset_bind h hkey hrun with ⟨-, hrun⟩ | ⟨n, z, hn, hz, hrun⟩
  · obtain ⟨found, hfound, hrun⟩ := ok_of_bind hrun
    cases zsetLookup_empty hfound
    cases hrun
    exact ⟨hb, replied_int rfl _⟩
  · obtain ⟨found, -, hrun⟩ := ok_of_bind hrun
    cases found with
    | none =>
      cases hrun
      exact ⟨hb, replied_int rfl _⟩
    | some p =>
      dsimp only at hrun
      obtain ⟨z', hdel, hrun⟩ := ok_of_bind hrun
      obtain ⟨g', hput, hrun⟩ := ok_of_bind hrun
      cases hrun
      have hbrief := hb.node h hn
      rw [hz] at hbrief
      exact ⟨putPayload_brief h hb hkey hn (zsetDelete_brief hbrief hdel) hput, replied_int rfl _⟩

/-- A number is written as it is below 2³². -/
theorem leBytes_mod (n x : Nat) : leBytes n (x % 256 ^ n) = leBytes n x := by
  induction n generalizing x with
  | zero => rfl
  | succ n ih =>
    have hlow : UInt8.ofNat (x % 256 ^ (n + 1)) = UInt8.ofNat x := by
      rw [← UInt8.ofNat_mod_size, ← UInt8.ofNat_mod_size (x := x), pow_succ]
      exact congrArg UInt8.ofNat (Nat.mod_mod_of_dvd x (Dvd.intro_left _ rfl))
    have hhigh : x % 256 ^ (n + 1) / 256 = x / 256 % 256 ^ n := by
      rw [pow_succ, Nat.mul_comm, Nat.mod_mul_right_div_self]
    rw [leBytes, leBytes, hlow, hhigh, ih]

theorem queryLimit_lt (cmd : List Bytes) : queryLimit cmd < 2 ^ 32 := by
  unfold queryLimit
  split
  · unfold toU32
    omega
  · omega

/-- The loop of a range query writes two values for each member it comes to. Only without a limit can it come to more
than it can count. -/
theorem zrangeLoop_values {z : ZSet} (hz : (Payload.zset z).Brief) {fuel : Nat} {p : Option Ptr} {size limit size' : Nat}
    {out out' : Bytes} (heven : size % 2 = 0) (hsize : size < 2 ^ 32) (hlimit : limit < 2 ^ 32)
    (hrun : zrangeLoop fuel z p size limit out = .ok (out', size')) :
    ∃ (vs : List Bytes) (k : Nat), vs.length = 2 * k ∧ (∀ v ∈ vs, Complete v) ∧ out' = out ++ vs.flatten ∧
      size' = (size + 2 * k) % 2 ^ 32 ∧ (limit = 2 ^ 32 - 1 → k = membersFrom z fuel p) ∧
      (limit < 2 ^ 32 - 1 → size + 2 * k < 2 ^ 32) := by
  have hstop : ∀ {fuel : Nat}, membersFrom z fuel none = 0 := by
    intro fuel
    cases fuel <;> rfl
  induction fuel generalizing p size out with
  | zero =>
    cases p with
    | none =>
      cases hrun
      exact ⟨[], 0, rfl, nofun, by simp, by omega, fun _ => hstop.symm, fun _ => by omega⟩
    | some p => cases hrun
  | succ fuel ih =>
    cases p with
    | none =>
      cases hrun
      exact ⟨[], 0, rfl, nofun, by simp, by omega, fun _ => hstop.symm, fun _ => by omega⟩
    | some p =>
      rw [zrangeLoop] at hrun
      split at hrun
      · next hless =>
        obtain ⟨znode, hznode, hrun⟩ := ok_of_bind hrun
        dsimp only at hrun
        obtain ⟨next, hnext, hrun⟩ := ok_of_bind hrun
        obtain ⟨vs, k, hlen, hvs, hout, hsize', hall, hfits⟩ := ih (by omega) (by omega) hrun
        have hread : z.data.read p = some znode := by
          unfold ZSet.znode at hznode
          split at hznode
          · next heq =>
            cases hznode
            exact heq
          · cases hznode
        have hkey : Brief znode.key := hz p znode hread
        refine ⟨(tagDouble :: leBytes 8 znode.score.bits.toNat) :: strValue znode.key :: vs, k + 1, ?_, ?_, ?_, ?_, ?_, ?_⟩
        · rw [List.length_cons, List.length_cons, hlen]
          omega
        · intro v hv
          rcases List.mem_cons.mp hv with rfl | hv
          · exact .double _
          · rcases List.mem_cons.mp hv with rfl | hv
            · exact complete_strValue hkey
            · exact hvs v hv
        · rw [hout, outStr_eq, outDouble_eq, List.flatten_cons, List.flatten_cons, List.append_assoc, List.append_assoc]
          rfl
        · rw [hsize']
          omega
        · intro hmax
          rw [membersFrom, hnext, hall hmax]
        · intro hmax
          have hrest := hfits hmax
          omega
      · next hge =>
        cases hrun
        refine ⟨[], 0, rfl, nofun, by simp, by omega, fun hmax => ?_, fun _ => by omega⟩
        omega

theorem patch_count (out body : Bytes) (size : Nat) :
    patchU32 ((outUnknownArr out).1 ++ body) (outUnknownArr out).2 size = out ++ tagArr :: (leBytes 4 size ++ body) := by
  have hpos : (outUnknownArr out).2 = (out ++ [tagArr]).length := by
    simp [outUnknownArr, bufAppendU32, bufAppendU8, bufAppend, length_leBytes]
  have hbytes : (outUnknownArr out).1 ++ body = (out ++ [tagArr]) ++ (leBytes 4 0 ++ body) := by
    simp [outUnknownArr, bufAppendU32, bufAppendU8, bufAppend]
  rw [patchU32, hpos, hbytes, List.take_left, ← List.drop_drop, List.drop_left,
    List.drop_left' (by rw [length_leBytes])]
  simp

theorem doZrangequery_replies (h : g.WF) (hb : g.Brief) (hkey : Short (keyOf cmd))
    (hrun : doZrangequery g out cmd = .ok r) : Replies g cmd out .zquery r := by
  obtain ⟨key, harg, hrun⟩ := ok_of_bind hrun
  obtain ⟨score, hscore, hrun⟩ := ok_of_bind hrun
  obtain ⟨member, hmember, hrun⟩ := ok_of_bind hrun
  cases arg_key harg
  cases arg_getD hscore
  cases arg_getD hmember
  rcases findZset_bind h hkey hrun with ⟨hnone, hrun⟩ | ⟨n, z, hn, hz, hrun⟩
  · cases hrun
    refine ⟨hb, ?_⟩
    have hfits : Answers g cmd .zquery := by
      intro _ n z start hn
      rw [hnone] at hn
      cases hn
    exact replied_no_strs hfits nofun
  · obtain ⟨lb, hlb, hrun⟩ := ok_of_bind hrun
    have hanswers : ∀ start : Option Ptr, queryStart z cmd = .ok start →
        (Answers g cmd .zquery ↔ (queryLimit cmd = 2 ^ 32 - 1 → membersFrom z (z.tree.next + 1) start < 2 ^ 31)) := by
      intro start hstart
      constructor
      · intro hfits hmax
        exact hfits hmax n z start hn hz hstart
      · intro hlt hmax n' z' start' hn' hz' hstart'
        cases hn.symm.trans hn'
        cases hz.symm.trans hz'
        cases hstart.symm.trans hstart'
        exact hlt hmax
    cases lb with
    | none =>
      cases hrun
      have hstart : queryStart z cmd = .ok none := by
        rw [queryStart, hlb]
        rfl
      refine ⟨hb, replied_no_strs ((hanswers none hstart).mpr fun _ => ?_) nofun⟩
      exact Nat.two_pow_pos 31
    | some lb =>
      dsimp only at hrun
      obtain ⟨start, hoffset, hrun⟩ := ok_of_bind hrun
      have hstart : queryStart z cmd = .ok start := by
        rw [queryStart, hlb]
        exact hoffset
      obtain ⟨⟨out', size⟩, hloop, hrun⟩ := ok_of_bind hrun
      cases hrun
      have hbrief := hb.node h hn
      rw [hz] at hbrief
      obtain ⟨vs, k, hlen, hvs, hout, hsize, hall, hfits⟩ :=
        zrangeLoop_values hbrief rfl (by decide) (queryLimit_lt cmd) hloop
      refine ⟨hb, ?_⟩
      dsimp only
      have hcountBytes : leBytes 4 (2 * k % 2 ^ 32) = leBytes 4 vs.length := by
        rw [hlen]
        exact leBytes_mod 4 (2 * k)
      rw [hout, patch_count, hsize, Nat.zero_add, hcountBytes]
      refine replied_arr hvs ?_ nofun
      rw [hanswers start hstart, hlen]
      constructor
      · intro hlt
        rcases Nat.lt_or_ge (queryLimit cmd) (2 ^ 32 - 1) with hless | hge
        · have hcount := hfits hless
          omega
        · have hmax : queryLimit cmd = 2 ^ 32 - 1 := by
            have hlimit := queryLimit_lt cmd
            omega
          have hcount := hlt hmax
          rw [← hall hmax] at hcount
          omega
      · intro hlt hmax
        rw [← hall hmax]
        omega

/-! ### Deadlines -/

theorem doExpire_replies (h : g.WF) (hb : g.Brief) (hkey : Short (keyOf cmd)) (hrun : doExpire env g out cmd = .ok r) :
    Replies g cmd out .expire r := by
  obtain ⟨key, harg, hrun⟩ := ok_of_bind hrun
  obtain ⟨seconds, -, hrun⟩ := ok_of_bind hrun
  cases arg_key harg
  dsimp only at hrun
  rw [findNode_bind h hkey] at hrun
  cases hn : g.nodeOf (keyOf cmd) with
  | none =>
    rw [hn] at hrun
    cases hrun
    exact ⟨hb, replied_null rfl⟩
  | some n =>
    rw [hn] at hrun
    dsimp only at hrun
    obtain ⟨ttl, -, hrun⟩ := ok_of_bind hrun
    cases hrun
    exact ⟨hb, replied_null rfl⟩

theorem doTtl_replies (h : g.WF) (hb : g.Brief) (hkey : Short (keyOf cmd)) (hrun : doTtl env g out cmd = .ok r) :
    Replies g cmd out .ttl r := by
  replace hrun := lookup_of_run h hkey hrun
  cases hn : g.nodeOf (keyOf cmd) with
  | none =>
    rw [hn] at hrun
    cases hrun
    exact ⟨hb, replied_null rfl⟩
  | some n =>
    rw [hn] at hrun
    dsimp only at hrun
    split at hrun
    · cases hrun
    · obtain ⟨entry, -, hrun⟩ := ok_of_bind hrun
      cases hrun
      exact ⟨hb, replied_int rfl _⟩

theorem doPersist_replies (h : g.WF) (hb : g.Brief) (hkey : Short (keyOf cmd)) (hrun : doPersist g out cmd = .ok r) :
    Replies g cmd out .persist r := by
  replace hrun := lookup_of_run h hkey hrun
  cases hn : g.nodeOf (keyOf cmd) with
  | none =>
    rw [hn] at hrun
    cases hrun
    exact ⟨hb, replied_null rfl⟩
  | some n =>
    rw [hn] at hrun
    dsimp only at hrun
    obtain ⟨ttl, -, hrun⟩ := ok_of_bind hrun
    cases hrun
    exact ⟨hb, replied_null rfl⟩

/-! ### Hashes -/

theorem doHset_replies (h : g.WF) (hs : g.Shaped) (hb : g.Brief) (hkey : Short (keyOf cmd))
    (hrun : doHset env g out cmd = .ok r) : Replies g cmd out .hset r := by
  obtain ⟨key, harg, hrun⟩ := ok_of_bind hrun
  obtain ⟨field, -, hrun⟩ := ok_of_bind hrun
  obtain ⟨value, -, hrun⟩ := ok_of_bind hrun
  cases arg_key harg
  obtain ⟨⟨g₁, n⟩, hfind, hrun⟩ := ok_of_bind hrun
  obtain ⟨h₁, hb₁, hn, hshape, hbrief, -⟩ := findOrInsert_brief (c := .hset) h hs hb hkey hfind
  rcases n with ⟨hcode, nkey, addr, payload⟩
  cases payload with
  | hset hmap =>
    dsimp only at hrun
    obtain ⟨_, -, hrun⟩ := ok_of_bind hrun
    obtain ⟨found, hfound, hrun⟩ := ok_of_bind hrun
    cases found with
    | some n => exact absurd hfound (hmLookup_nullKey _ _ n)
    | none =>
      dsimp only at hrun
      obtain ⟨fieldKey, hfield, hrun⟩ := ok_of_bind hrun
      obtain ⟨val, hval, hrun⟩ := ok_of_bind hrun
      obtain ⟨⟨hmap', jobs⟩, hins, hrun⟩ := ok_of_bind hrun
      dsimp only at hrun
      obtain ⟨g', hput, hrun⟩ := ok_of_bind hrun
      cases hrun
      have hbrief' : (Payload.hset hmap').Brief := by
        refine forall_hmInsert (fun n hn => ?_) hshape hbrief ⟨dstrCopy_brief hfield, dstrCopy_brief hval⟩ hins
        unfold unlinked
        split <;> exact hn
      exact ⟨putPayload_brief h₁ hb₁ hkey hn hbrief' hput, replied_null rfl⟩
  | _ =>
    cases hrun
    exact ⟨hb₁, replied_error rfl _ (by decide)⟩

/-- The node that a lookup in any map returns is one of its nodes. -/
theorem mem_of_hmLookup {α : Type} {m : HMap α} {probe : Probe} {n : HNode α} (hrun : hmLookup m probe = .ok (some n)) :
    n ∈ m.nodes := by
  have hderef : ∀ {t : HTab α} {slot : Slot}, t.deref slot = some n → n ∈ t.nodes := by
    intro t slot hslot
    unfold HTab.deref at hslot
    obtain ⟨chain, hchain⟩ : ∃ chain, t.tab[slot.pos]? = some chain := by
      cases htab : t.tab[slot.pos]? with
      | none => simp [List.getD_eq_getElem?_getD, htab] at hslot
      | some chain => exact ⟨chain, rfl⟩
    rw [List.getD_eq_getElem?_getD, hchain] at hslot
    exact List.mem_flatten.mpr ⟨chain, List.mem_of_getElem? hchain, List.mem_of_getElem? hslot⟩
  obtain ⟨older, -, hrun⟩ := ok_of_bind hrun
  cases older with
  | some slot => exact List.mem_append_right _ (hderef (Except.ok.inj hrun))
  | none =>
    obtain ⟨newer, -, hrun⟩ := ok_of_bind hrun
    cases newer with
    | some slot => exact List.mem_append_left _ (hderef (Except.ok.inj hrun))
    | none => cases hrun

theorem doHget_replies (h : g.WF) (hb : g.Brief) (hkey : Short (keyOf cmd)) (hrun : doHget g out cmd = .ok r) :
    Replies g cmd out .hget r := by
  obtain ⟨key, harg, hrun⟩ := ok_of_bind hrun
  obtain ⟨field, -, hrun⟩ := ok_of_bind hrun
  cases arg_key harg
  rw [findNode_bind h hkey] at hrun
  cases hn : g.nodeOf (keyOf cmd) with
  | none =>
    rw [hn] at hrun
    cases hrun
    exact ⟨hb, replied_null rfl⟩
  | some n =>
    rw [hn] at hrun
    have hbrief := hb.node h hn
    rcases n with ⟨hcode, nkey, addr, payload⟩
    cases payload with
    | hset hmap =>
      dsimp only at hrun
      obtain ⟨tmp, -, hrun⟩ := ok_of_bind hrun
      obtain ⟨found, hfound, hrun⟩ := ok_of_bind hrun
      cases found with
      | some n =>
        cases hrun
        exact ⟨hb, replied_str rfl (hbrief n (mem_of_hmLookup hfound)).2⟩
      | none =>
        cases hrun
        exact ⟨hb, replied_null rfl⟩
    | _ =>
      cases hrun
      exact ⟨hb, replied_error rfl _ (by decide)⟩

theorem doHdel_replies (h : g.WF) (hs : g.Shaped) (hb : g.Brief) (hkey : Short (keyOf cmd))
    (hrun : doHdel g out cmd = .ok r) : Replies g cmd out .hdel r := by
  obtain ⟨key, harg, hrun⟩ := ok_of_bind hrun
  obtain ⟨field, -, hrun⟩ := ok_of_bind hrun
  cases arg_key harg
  rw [findNode_bind h hkey] at hrun
  cases hn : g.nodeOf (keyOf cmd) with
  | none =>
    rw [hn] at hrun
    cases hrun
    exact ⟨hb, replied_null rfl⟩
  | some n =>
    rw [hn] at hrun
    have hbrief := hb.node h hn
    have hshape := hs _ ((GlobalData.nodeOf_eq_some h).mp hn).1
    rcases n with ⟨hcode, nkey, addr, payload⟩
    cases payload with
    | hset hmap =>
      dsimp only at hrun
      obtain ⟨tmp, -, hrun⟩ := ok_of_bind hrun
      obtain ⟨⟨hmap', deleted, jobs⟩, hdelete, hrun⟩ := ok_of_bind hrun
      have hbrief' : (Payload.hset hmap').Brief := forall_hmDelete hshape hbrief hdelete
      cases deleted with
      | false =>
        cases hrun
        exact ⟨hb, replied_error rfl _ (by decide)⟩
      | true =>
        dsimp only [if_true] at hrun
        rw [if_pos rfl] at hrun
        obtain ⟨g₁, hput, hrun⟩ := ok_of_bind hrun
        obtain ⟨g₁', hw⟩ := putPayload_spec h hkey hn (.hset hmap')
        cases hw.run.symm.trans hput
        have hb₁ := hw.brief hb hbrief'
        split at hrun
        · obtain ⟨⟨g₂, _⟩, hdel, hrun⟩ := ok_of_bind hrun
          cases hrun
          rcases deleteNode_ok hw.wf hdel with rfl | ⟨m, hd⟩
          · exact ⟨hb₁, replied_null rfl⟩
          · exact ⟨hd.brief hb₁, replied_null rfl⟩
        · cases hrun
          exact ⟨hb₁, replied_null rfl⟩
    | _ =>
      cases hrun
      exact ⟨hb, replied_error rfl _ (by decide)⟩

theorem doHgetall_replies (h : g.WF) (hb : g.Brief) (hkey : Short (keyOf cmd)) (hrun : doHgetall g out cmd = .ok r) :
    Replies g cmd out .hgetall r := by
  replace hrun := lookup_of_run h hkey hrun
  cases hn : g.nodeOf (keyOf cmd) with
  | none =>
    rw [hn] at hrun
    cases hrun
    refine ⟨hb, .value .null (by decide) (fun n hmap hsome => ?_) (not_missing nofun)⟩
    rw [hn] at hsome
    cases hsome
  | some n =>
    rw [hn] at hrun
    have hbrief := hb.node h hn
    rcases n with ⟨hcode, nkey, addr, payload⟩
    cases payload with
    | hset hmap =>
      cases hrun
      refine ⟨hb, replied_strs (fun s hs => ?_) ?_ nofun⟩
      · rw [hmKeys_eq] at hs
        obtain ⟨x, hx, rfl⟩ := List.mem_map.mp hs
        exact (hbrief x hx).1
      · rw [hmKeys_eq, List.length_map]
        constructor
        · intro hanswers
          exact hanswers _ hmap hn rfl
        · intro hlt n' hmap' hn' hpayload
          cases hn.symm.trans hn'
          cases hpayload
          exact hlt
    | _ => cases hrun

/-! ### Lists -/

theorem pushNode_brief {l l' : DList} {side : Side} {value : Bytes} (hl : (Payload.list l).Brief)
    (hrun : pushNode l side value = .ok l') : (Payload.list l').Brief := by
  obtain ⟨val, hcopy, hrun⟩ := ok_of_bind hrun
  have halloc : ∀ p n, (l.mem.alloc { val := val.buf }).read p = some n → CustomRedis.Brief n.val :=
    Mem.forall_read_alloc (dstrCopy_brief hcopy) hl
  dsimp only at hrun
  split at hrun
  · cases hrun
    exact halloc
  · cases side with
    | left =>
      dsimp only at hrun
      split at hrun
      · cases hrun
      · obtain ⟨mem, hmem, hrun⟩ := ok_of_bind hrun
        cases hrun
        exact (DListMem.dlistInsertBefore_ok hmem).1.forall_val halloc
    | right =>
      dsimp only at hrun
      split at hrun
      · cases hrun
      · obtain ⟨mem, hmem, hrun⟩ := ok_of_bind hrun
        cases hrun
        exact (DListMem.dlistInsertAfter_ok hmem).1.forall_val halloc

theorem doPush_replies (h : g.WF) (hs : g.Shaped) (hb : g.Brief) (hkey : Short (keyOf cmd)) {side : Side} {c : Command}
    (hc : newPayload cmd c = .list {}) (hplain : c.plain = true) (hrun : doPush env g out cmd side = .ok r) :
    Replies g cmd out c r := by
  obtain ⟨key, harg, hrun⟩ := ok_of_bind hrun
  obtain ⟨value, -, hrun⟩ := ok_of_bind hrun
  cases arg_key harg
  rw [← hc] at hrun
  obtain ⟨⟨g₁, n⟩, hfind, hrun⟩ := ok_of_bind hrun
  obtain ⟨h₁, hb₁, hn, -, hbrief, -⟩ := findOrInsert_brief h hs hb hkey hfind
  rcases n with ⟨hcode, nkey, addr, payload⟩
  cases payload with
  | list l =>
    dsimp only at hrun
    obtain ⟨l', hpush, hrun⟩ := ok_of_bind hrun
    obtain ⟨g', hput, hrun⟩ := ok_of_bind hrun
    cases hrun
    exact ⟨putPayload_brief h₁ hb₁ hkey hn (pushNode_brief hbrief hpush) hput, replied_int hplain _⟩
  | _ =>
    cases hrun
    exact ⟨hb₁, replied_error hplain _ (by decide)⟩

theorem deref_ok {m : DListMem Bytes} {p : Option Ptr} {n : DListNode Bytes} (hrun : m.deref p = .ok n) :
    ∃ q, p = some q ∧ m.read q = some n := by
  cases p with
  | none => cases hrun
  | some q => exact ⟨q, rfl, DListMem.node_ok hrun⟩

theorem popNode_brief {l l' : DList} {side : Side} {val : Bytes} (hl : (Payload.list l).Brief)
    (hrun : popNode l side = .ok (l', val)) : (Payload.list l').Brief ∧ Brief val := by
  cases side with
  | left =>
    obtain ⟨node, hnode, hrun⟩ := ok_of_bind hrun
    obtain ⟨mem, hmem, hrun⟩ := ok_of_bind hrun
    cases hrun
    obtain ⟨q, -, hread⟩ := deref_ok hnode
    have hkeep := (DListMem.setPrevIf_ok hmem).1.forall_val hl
    exact ⟨Mem.forall_read_free fun p n _ => hkeep p n, hl q node hread⟩
  | right =>
    obtain ⟨node, hnode, hrun⟩ := ok_of_bind hrun
    obtain ⟨mem, hmem, hrun⟩ := ok_of_bind hrun
    cases hrun
    obtain ⟨q, -, hread⟩ := deref_ok hnode
    have hkeep := (DListMem.setNextIf_ok hmem).1.forall_val hl
    exact ⟨Mem.forall_read_free fun p n _ => hkeep p n, hl q node hread⟩

theorem popLoop_strs (n : Nat) {l l' : DList} {side : Side} {out out' : Bytes} (hl : (Payload.list l).Brief)
    (hrun : popLoop n l side out = .ok (l', out')) : (Payload.list l').Brief ∧
      ∃ strs : List Bytes, strs.length = n ∧ (∀ s ∈ strs, Brief s) ∧ out' = outStrs out strs := by
  induction n generalizing l out with
  | zero =>
    cases hrun
    exact ⟨hl, [], rfl, nofun, rfl⟩
  | succ n ih =>
    obtain ⟨⟨l₁, val⟩, hpop, hrun⟩ := ok_of_bind hrun
    obtain ⟨hl₁, hval⟩ := popNode_brief hl hpop
    obtain ⟨hl', strs, hlen, hstrs, hout⟩ := ih hl₁ hrun
    refine ⟨hl', val :: strs, by rw [List.length_cons, hlen], fun s hs => ?_, hout⟩
    rcases List.mem_cons.mp hs with rfl | hs
    · exact hval
    · exact hstrs s hs

theorem toI32_lt (x : Int) : toI32 x < 2 ^ 31 := by
  unfold toI32
  omega

theorem toU32_of_pos {x : Int} (hpos : ¬x ≤ 0) (hlt : x < 2 ^ 31) : toU32 x = x.toNat ∧ x.toNat < 2 ^ 32 := by
  unfold toU32
  omega

theorem doPop_replies (h : g.WF) (hb : g.Brief) (hkey : Short (keyOf cmd)) {side : Side} {c : Command}
    (hplain : c.plain = true) (hrun : doPop g out cmd side = .ok r) : Replies g cmd out c r := by
  obtain ⟨key, harg, hrun⟩ := ok_of_bind hrun
  obtain ⟨count, -, hrun⟩ := ok_of_bind hrun
  cases arg_key harg
  rw [findNode_bind h hkey] at hrun
  cases hn : g.nodeOf (keyOf cmd) with
  | none =>
    rw [hn] at hrun
    cases hrun
    exact ⟨hb, replied_error hplain _ (by decide)⟩
  | some n =>
    rw [hn] at hrun
    have hbrief := hb.node h hn
    rcases n with ⟨hcode, nkey, addr, payload⟩
    cases payload with
    | list l =>
      dsimp only at hrun
      split at hrun
      · cases hrun
        exact ⟨hb, replied_error hplain _ (by decide)⟩
      · next hpos =>
        obtain ⟨⟨l', out'⟩, hloop, hrun⟩ := ok_of_bind hrun
        dsimp only at hrun
        obtain ⟨g', hput, hrun⟩ := ok_of_bind hrun
        cases hrun
        obtain ⟨hsize, hlt⟩ := toU32_of_pos hpos (toI32_lt _)
        obtain ⟨hl', strs, hlen, hstrs, rfl⟩ := popLoop_strs _ hbrief hloop
        refine ⟨putPayload_brief h hb hkey hn hl' hput, ?_⟩
        rw [hsize, ← hlen]
        rw [← hlen] at hlt
        exact replied_strs hstrs (iff_of_true (answers_of_plain hplain) hlt) (ne_get_of_plain hplain)
    | _ =>
      cases hrun
      exact ⟨hb, replied_error hplain _ (by decide)⟩

theorem lrangeLoop_strs {m : DListMem Bytes} (hm : ∀ p n, m.read p = some n → Brief n.val) (n : Nat) {p : Option Ptr}
    {out out' : Bytes} (hrun : lrangeLoop m n p out = .ok out') :
    ∃ strs : List Bytes, strs.length = n ∧ (∀ s ∈ strs, Brief s) ∧ out' = outStrs out strs := by
  induction n generalizing p out with
  | zero =>
    cases hrun
    exact ⟨[], rfl, nofun, rfl⟩
  | succ n ih =>
    obtain ⟨node, hnode, hrun⟩ := ok_of_bind hrun
    obtain ⟨q, -, hread⟩ := deref_ok hnode
    obtain ⟨strs, hlen, hstrs, hout⟩ := ih hrun
    refine ⟨node.val :: strs, by rw [List.length_cons, hlen], fun s hs => ?_, hout⟩
    rcases List.mem_cons.mp hs with rfl | hs
    · exact hm q node hread
    · exact hstrs s hs

theorem doLrange_replies (h : g.WF) (hb : g.Brief) (hkey : Short (keyOf cmd)) (hrun : doLrange g out cmd = .ok r) :
    Replies g cmd out .lrange r := by
  obtain ⟨key, harg, hrun⟩ := ok_of_bind hrun
  obtain ⟨first, -, hrun⟩ := ok_of_bind hrun
  obtain ⟨last, -, hrun⟩ := ok_of_bind hrun
  cases arg_key harg
  dsimp only at hrun
  rw [findNode_bind h hkey] at hrun
  cases hn : g.nodeOf (keyOf cmd) with
  | none =>
    rw [hn] at hrun
    cases hrun
    exact ⟨hb, replied_error rfl _ (by decide)⟩
  | some n =>
    rw [hn] at hrun
    have hbrief := hb.node h hn
    rcases n with ⟨hcode, nkey, addr, payload⟩
    cases payload with
    | list l =>
      dsimp only at hrun
      generalize (if toI32 (strtol first) < 0 then toI32 (l.size + toI32 (strtol first))
        else toI32 (strtol first)) = start at hrun
      generalize (if toI32 (strtol last) < 0 then toI32 (l.size + toI32 (strtol last))
        else toI32 (strtol last)) = stop at hrun
      have hlt : min (max 0 (toI32 (stop - start + 1))).toNat l.size < 2 ^ 32 := by
        have hrange := toI32_lt (stop - start + 1)
        omega
      split at hrun
      · cases hrun
        exact ⟨hb, replied_error rfl _ (by decide)⟩
      · split at hrun
        all_goals
          obtain ⟨_, -, hrun⟩ := ok_of_bind hrun
          obtain ⟨out', hloop, hrun⟩ := ok_of_bind hrun
          cases hrun
          obtain ⟨strs, hlen, hstrs, rfl⟩ := lrangeLoop_strs hbrief _ hloop
          refine ⟨hb, ?_⟩
          rw [← hlen] at hlt ⊢
          exact replied_strs hstrs (iff_of_true trivial hlt) nofun
    | _ =>
      cases hrun
      exact ⟨hb, replied_error rfl _ (by decide)⟩

/-! ### Sets -/

theorem doSadd_replies (h : g.WF) (hs : g.Shaped) (hb : g.Brief) (hkey : Short (keyOf cmd))
    (hrun : doSadd env g out cmd = .ok r) : Replies g cmd out .sadd r := by
  obtain ⟨key, harg, hrun⟩ := ok_of_bind hrun
  obtain ⟨value, -, hrun⟩ := ok_of_bind hrun
  cases arg_key harg
  obtain ⟨⟨g₁, n⟩, hfind, hrun⟩ := ok_of_bind hrun
  obtain ⟨h₁, hb₁, hn, hshape, hbrief, hold⟩ := findOrInsert_brief (c := .sadd) h hs hb hkey hfind
  rcases n with ⟨hcode, nkey, addr, payload⟩
  cases payload with
  | set s =>
    dsimp only at hrun
    obtain ⟨valueKey, hcopy, hrun⟩ := ok_of_bind hrun
    obtain ⟨⟨s', jobs⟩, hins, hrun⟩ := ok_of_bind hrun
    dsimp only at hrun
    obtain ⟨g', hput, hrun⟩ := ok_of_bind hrun
    cases hrun
    have hbrief' : (Payload.set s').Brief := by
      refine forall_hmInsert (fun n hn => ?_) hshape hbrief (dstrCopy_brief hcopy) hins
      rw [unlinked_key]
      exact hn
    refine ⟨putPayload_brief h₁ hb₁ hkey hn hbrief' hput, .silent ?_⟩
    rintro ⟨n', hn', htype⟩
    rcases hold with hsame | ⟨hnone, -⟩
    · cases hsame.symm.trans hn'
      exact htype rfl
    · rw [hnone] at hn'
      cases hn'
  | _ =>
    cases hrun
    have hthis := hold.resolve_right fun hnew => nomatch hnew.2
    exact ⟨hb₁, .error _ (by decide) ⟨_, hthis, nofun⟩ (not_missing nofun)⟩

/-- The errors of the set commands, whose texts are short. -/
theorem requireSet_error {node : Option (HNode Entry)} {out' : Bytes} {ret : ReturnVal}
    (herr : requireSet out node = .error (out', ret)) : ∃ mes, (text mes).length < 2 ^ 32 ∧ out' = outErr out mes := by
  unfold requireSet at herr
  split at herr
  · cases herr
    exact ⟨_, by decide, rfl⟩
  · split at herr
    · cases herr
    · cases herr
      exact ⟨_, by decide, rfl⟩

theorem requireSet_some {node : Option (HNode Entry)} {s : HMap Unit} (hok : requireSet out node = .ok s) :
    ∃ n, node = some n ∧ n.val.payload = .set s := by
  unfold requireSet at hok
  split at hok
  · cases hok
  · split at hok
    · next hpayload =>
      cases hok
      exact ⟨_, rfl, hpayload⟩
    · cases hok

theorem doSrem_replies (h : g.WF) (hs : g.Shaped) (hb : g.Brief) (hkey : Short (keyOf cmd))
    (hrun : doSrem g out cmd = .ok r) : Replies g cmd out .srem r := by
  obtain ⟨key, harg, hrun⟩ := ok_of_bind hrun
  obtain ⟨value, -, hrun⟩ := ok_of_bind hrun
  cases arg_key harg
  rw [findNode_bind h hkey] at hrun
  split at hrun
  · next out' ret herr =>
    cases hrun
    obtain ⟨mes, hmes, rfl⟩ := requireSet_error herr
    exact ⟨hb, replied_error rfl mes hmes⟩
  · next s hset =>
    obtain ⟨n, hn, hpayload⟩ := requireSet_some hset
    obtain ⟨tmp, -, hrun⟩ := ok_of_bind hrun
    obtain ⟨⟨s', deleted, jobs⟩, hdel, hrun⟩ := ok_of_bind hrun
    dsimp only at hrun
    obtain ⟨g', hput, hrun⟩ := ok_of_bind hrun
    cases hrun
    have hbrief := hb.node h hn
    have hshape := hs _ ((GlobalData.nodeOf_eq_some h).mp hn).1
    rw [hpayload] at hbrief hshape
    have hbrief' : (Payload.set s').Brief := forall_hmDelete hshape hbrief hdel
    exact ⟨putPayload_brief h hb hkey hn hbrief' hput, replied_int rfl _⟩

theorem doSmembers_replies (h : g.WF) (hb : g.Brief) (hkey : Short (keyOf cmd)) (hrun : doSmembers g out cmd = .ok r) :
    Replies g cmd out .smembers r := by
  replace hrun := lookup_of_run h hkey hrun
  split at hrun
  · next out' ret herr =>
    cases hrun
    obtain ⟨mes, hmes, rfl⟩ := requireSet_error herr
    refine ⟨hb, .error mes hmes (fun n s hn hpayload => ?_) (not_missing nofun)⟩
    rw [hn, requireSet, hpayload] at herr
    cases herr
  · next s hset =>
    obtain ⟨n, hn, hpayload⟩ := requireSet_some hset
    cases hrun
    have hbrief := hb.node h hn
    rw [hpayload] at hbrief
    refine ⟨hb, replied_strs (fun str hstr => ?_) ?_ nofun⟩
    · rw [hmKeys_eq] at hstr
      obtain ⟨x, hx, rfl⟩ := List.mem_map.mp hstr
      exact hbrief x hx
    · rw [hmKeys_eq, List.length_map]
      constructor
      · intro hanswers
        exact hanswers n s hn hpayload
      · intro hlt n' s' hn' hpayload'
        cases hn.symm.trans hn'
        cases hpayload.symm.trans hpayload'
        exact hlt

theorem doScard_replies (h : g.WF) (hb : g.Brief) (hkey : Short (keyOf cmd)) (hrun : doScard g out cmd = .ok r) :
    Replies g cmd out .scard r := by
  replace hrun := lookup_of_run h hkey hrun
  split at hrun
  · next out' ret herr =>
    cases hrun
    obtain ⟨mes, hmes, rfl⟩ := requireSet_error herr
    exact ⟨hb, replied_error rfl mes hmes⟩
  · cases hrun
    exact ⟨hb, replied_int rfl _⟩

/-! ### Bitmaps -/

theorem doSetbit_replies (h : g.WF) (hs : g.Shaped) (hb : g.Brief) (hkey : Short (keyOf cmd))
    (hrun : doSetbit env g out cmd = .ok r) : Replies g cmd out .setbit r := by
  obtain ⟨key, harg, hrun⟩ := ok_of_bind hrun
  obtain ⟨bitPos, -, hrun⟩ := ok_of_bind hrun
  obtain ⟨bitValue, -, hrun⟩ := ok_of_bind hrun
  cases arg_key harg
  rw [dstrInit_eq (Nat.zero_le _)] at hrun
  dsimp only at hrun
  obtain ⟨⟨g₁, n⟩, hfind, hrun⟩ := ok_of_bind hrun
  obtain ⟨h₁, hb₁, hn, -⟩ := findOrInsert_brief (c := .setbit) h hs hb hkey hfind
  rcases n with ⟨hcode, nkey, addr, payload⟩
  cases payload with
  | bitmap bitmap =>
    dsimp only at hrun
    split at hrun
    · cases hrun
      exact ⟨hb₁, replied_error rfl _ (by decide)⟩
    · split at hrun
      · cases hrun
        exact ⟨hb₁, replied_error rfl _ (by decide)⟩
      · obtain ⟨res, -, hrun⟩ := ok_of_bind hrun
        cases res with
        | none =>
          cases hrun
          exact ⟨hb₁, replied_error rfl _ (by decide)⟩
        | some p =>
          obtain ⟨g', hput, hrun⟩ := ok_of_bind hrun
          cases hrun
          exact ⟨putPayload_brief h₁ hb₁ hkey hn (by trivial) hput, replied_int rfl _⟩
  | _ =>
    cases hrun
    exact ⟨hb₁, replied_error rfl _ (by decide)⟩

/-- The errors of the commands that only read a node, whose texts are short. -/
theorem validateHmnode_error {node : Option (HNode Entry)} {type : EntryType} {out' : Bytes} {ret : ReturnVal}
    (herr : validateHmnode out node type = some (out', ret)) :
    ∃ mes, (text mes).length < 2 ^ 32 ∧ out' = outErr out mes := by
  unfold validateHmnode at herr
  split at herr
  · cases herr
    exact ⟨_, by decide, rfl⟩
  · split at herr
    · cases herr
      exact ⟨_, by decide, rfl⟩
    · cases herr

theorem doGetbit_replies (h : g.WF) (hb : g.Brief) (hkey : Short (keyOf cmd)) (hrun : doGetbit g out cmd = .ok r) :
    Replies g cmd out .getbit r := by
  obtain ⟨key, harg, hrun⟩ := ok_of_bind hrun
  obtain ⟨bitPos, -, hrun⟩ := ok_of_bind hrun
  cases arg_key harg
  rw [findNode_bind h hkey] at hrun
  dsimp only at hrun
  split at hrun
  · next out' ret herr =>
    cases hrun
    obtain ⟨mes, hmes, rfl⟩ := validateHmnode_error herr
    exact ⟨hb, replied_error rfl mes hmes⟩
  · split at hrun
    · cases hrun
      exact ⟨hb, replied_error rfl _ (by decide)⟩
    · obtain ⟨byte, -, hrun⟩ := ok_of_bind hrun
      cases hrun
      exact ⟨hb, replied_int rfl _⟩
  · cases hrun

theorem doBitcount_replies (h : g.WF) (hb : g.Brief) (hkey : Short (keyOf cmd)) (hrun : doBitcount g out cmd = .ok r) :
    Replies g cmd out .bitcount r := by
  replace hrun := lookup_of_run h hkey hrun
  generalize (cmd.length == 5 && strEq (cmd.getD 4 []) (text "BYTE")) = isByteMode at hrun
  split at hrun
  · next out' ret herr =>
    cases hrun
    obtain ⟨mes, hmes, rfl⟩ := validateHmnode_error herr
    exact ⟨hb, replied_error rfl mes hmes⟩
  · cases isByteMode with
    | true =>
      obtain ⟨count, -, hrun⟩ := ok_of_bind hrun
      cases hrun
      exact ⟨hb, replied_int rfl _⟩
    | false =>
      obtain ⟨count, -, hrun⟩ := ok_of_bind hrun
      cases hrun
      exact ⟨hb, replied_int rfl _⟩
  · cases hrun

/-! ### HyperLogLogs -/

theorem doPfadd_replies (h : g.WF) (hs : g.Shaped) (hb : g.Brief) (hkey : Short (keyOf cmd))
    (hrun : doPfadd env g out cmd = .ok r) : Replies g cmd out .pfadd r := by
  obtain ⟨key, harg, hrun⟩ := ok_of_bind hrun
  obtain ⟨val, -, hrun⟩ := ok_of_bind hrun
  cases arg_key harg
  obtain ⟨⟨g₁, n⟩, hfind, hrun⟩ := ok_of_bind hrun
  obtain ⟨h₁, hb₁, hn, -⟩ := findOrInsert_brief (c := .pfadd) h hs hb hkey hfind
  rcases n with ⟨hcode, nkey, addr, payload⟩
  cases payload with
  | hll hll =>
    dsimp only at hrun
    obtain ⟨⟨hll', isAdded⟩, -, hrun⟩ := ok_of_bind hrun
    dsimp only at hrun
    obtain ⟨g', hput, hrun⟩ := ok_of_bind hrun
    cases hrun
    exact ⟨putPayload_brief h₁ hb₁ hkey hn (by trivial) hput, replied_int rfl _⟩
  | _ =>
    cases hrun
    exact ⟨hb₁, replied_error rfl _ (by decide)⟩

theorem doPfcount_replies (h : g.WF) (hb : g.Brief) (hkey : Short (keyOf cmd))
    (hrun : doPfcount env g out cmd = .ok r) : Replies g cmd out .pfcount r := by
  replace hrun := lookup_of_run h hkey hrun
  split at hrun
  · next out' ret herr =>
    cases hrun
    obtain ⟨mes, hmes, rfl⟩ := validateHmnode_error herr
    exact ⟨hb, replied_error rfl mes hmes⟩
  · next hll hval hn =>
    obtain ⟨⟨hll', count⟩, -, hrun⟩ := ok_of_bind hrun
    dsimp only at hrun
    obtain ⟨g', hput, hrun⟩ := ok_of_bind hrun
    cases hrun
    exact ⟨putPayload_brief h hb hkey hn (by trivial) hput, replied_int rfl _⟩
  · cases hrun

/-! ### All commands -/

theorem runCommand_replies (h : g.WF) (hs : g.Shaped) (hb : g.Brief) (hkey : Short (keyOf cmd)) {c : Command}
    (hrun : runCommand env g out cmd c = .ok r) : Replies g cmd out c r := by
  cases c with
  | get => exact doGet_replies h hb hkey hrun
  | set => exact doSet_replies h hb hkey hrun
  | del => exact doDel_replies h hb hrun
  | keys => exact doKeys_replies hb hrun
  | hset => exact doHset_replies h hs hb hkey hrun
  | hget => exact doHget_replies h hb hkey hrun
  | hgetall => exact doHgetall_replies h hb hkey hrun
  | hdel => exact doHdel_replies h hs hb hkey hrun
  | expire => exact doExpire_replies h hb hkey hrun
  | ttl => exact doTtl_replies h hb hkey hrun
  | persist => exact doPersist_replies h hb hkey hrun
  | zadd => exact doZadd_replies h hs hb hkey hrun
  | zscore => exact doZscore_replies hb hrun
  | zrem => exact doZrem_replies h hb hkey hrun
  | zquery => exact doZrangequery_replies h hb hkey hrun
  | lpush => exact doPush_replies h hs hb hkey rfl rfl hrun
  | rpush => exact doPush_replies h hs hb hkey rfl rfl hrun
  | lpop => exact doPop_replies h hb hkey rfl hrun
  | rpop => exact doPop_replies h hb hkey rfl hrun
  | lrange => exact doLrange_replies h hb hkey hrun
  | sadd => exact doSadd_replies h hs hb hkey hrun
  | srem => exact doSrem_replies h hs hb hkey hrun
  | smembers => exact doSmembers_replies h hb hkey hrun
  | scard => exact doScard_replies h hb hkey hrun
  | setbit => exact doSetbit_replies h hs hb hkey hrun
  | getbit => exact doGetbit_replies h hb hkey hrun
  | bitcount => exact doBitcount_replies h hb hkey hrun
  | pfadd => exact doPfadd_replies h hs hb hkey hrun
  | pfcount => exact doPfcount_replies h hb hkey hrun
  | pfmerge => cases hrun
  | todo =>
    cases hrun
    exact ⟨hb, .silent id⟩
  | unknown =>
    cases hrun
    exact ⟨hb, replied_error rfl _ (by decide)⟩

end Handlers

/-! ### Runs -/

theorem outBuffer_replies {env : Env} {g g' : GlobalData} {out out' : Bytes} (r : Request) (h : g.WF) (hs : g.Shaped)
    (hb : g.Brief) (hrun : outBuffer env g out r.tokens = .ok (g', out')) :
    g'.Brief ∧ Replied g r.tokens out (commandOf r.tokens) out' := by
  obtain ⟨_, -, hrun⟩ := ok_of_bind hrun
  obtain ⟨res, hres, hrun⟩ := ok_of_bind hrun
  cases hrun
  exact runCommand_replies h hs hb r.short_key hres

theorem serverStep_brief {g g' : GlobalData} {e : Event} (h : g.WF) (hs : g.Shaped) (hb : g.Brief)
    (hrun : serverStep g e = .ok g') : g'.Brief := by
  cases e with
  | request env r =>
    obtain ⟨⟨g₁, out⟩, hres, hret⟩ := ok_of_bind hrun
    cases hret
    exact (outBuffer_replies r h hs hb hres).1
  | tick now => exact expireEntries_brief h hb hrun
  | work => exact workerStep_brief hb hrun

theorem Reachable.brief {g : GlobalData} (h : Reachable g) : g.Brief := by
  obtain ⟨es, hrun⟩ := h
  have hall : (g.WF ∧ g.Shaped) ∧ g.Brief := by
    refine Run.invariant (I := fun g => (g.WF ∧ g.Shaped) ∧ g.Brief) ?_ ⟨⟨GlobalData.WF.empty, nofun⟩, nofun⟩ hrun
    rintro g e g' ⟨hinv, hb⟩ hstep
    exact ⟨serverStep_invariant hinv hstep, serverStep_brief hinv.1 hinv.2 hb hstep⟩
  exact hall.2

/-! ### The grammar of a reply -/

end CustomRedis
