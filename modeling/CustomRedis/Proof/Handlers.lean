import CustomRedis.Model.Server
import CustomRedis.Proof.Keyspace
import CustomRedis.Lib.Run

/-!
# What a command can do

`Outcome` lists everything a command that returns can have done to the keyspace, together with the kind of
reply it has made. Every handler is taken apart once, here, to show that it has one of these outcomes.
The invariants of runs and the claims about all commands are then proved outcome by outcome.
-/

namespace CustomRedis

open Run (ok_of_bind)

theorem arg_ok {cmd : List Bytes} {i : Nat} {t : Bytes} (h : arg cmd i = .ok t) : cmd[i]? = some t := by
  unfold arg at h
  split at h
  · cases h
    assumption
  · cases h

theorem arg_eq_getD {cmd : List Bytes} {i : Nat} (h : i < cmd.length) : arg cmd i = .ok (cmd.getD i []) := by
  rw [arg, List.getD_eq_getElem?_getD, List.getElem?_eq_getElem h]
  rfl

/-- The key of a request. -/
def keyOf (cmd : List Bytes) : Bytes := cmd.getD 1 []

theorem arg_getD {cmd : List Bytes} {i : Nat} {t : Bytes} (h : arg cmd i = .ok t) : t = cmd.getD i [] := by
  rw [List.getD_eq_getElem?_getD, arg_ok h]
  rfl

theorem arg_one {cmd : List Bytes} (h : 1 < cmd.length) : arg cmd 1 = .ok (keyOf cmd) := arg_eq_getD h

theorem arg_key {cmd : List Bytes} {key : Bytes} (h : arg cmd 1 = .ok key) : key = keyOf cmd :=
  arg_getD h

/-! ### What the dispatch has checked -/

/-- The number of tokens that `out_buffer` has checked when it calls a handler. -/
def Command.Arity : Command → Nat → Prop
  | .get | .del | .hgetall | .ttl | .persist => (· = 2)
  | .set | .hget | .expire | .zscore | .zrem | .lpush | .rpush => (· = 3)
  | .zadd | .lrange => (· = 4)
  | .keys => (· = 1)
  | .hset => (· ≥ 4)
  | .hdel => (· ≥ 3)
  | .lpop | .rpop => (· ≥ 2)
  | _ => fun _ => True

theorem of_ite {c : Prop} [Decidable c] {a b x : Command} (h : (if c then a else b) = x) : c ∧ a = x ∨ b = x := by
  split at h
  · next hc => exact .inl ⟨hc, h⟩
  · exact .inr h

theorem commandOf_arity {cmd : List Bytes} {c : Command} (h : commandOf cmd = c) : c.Arity cmd.length := by
  unfold commandOf selectCommand at h
  iterate 34
    rcases of_ite h with ⟨hc, rfl⟩ | h
    · first
        | exact hc.1
        | exact hc.2
        | trivial
  subst h
  trivial

/-! ### Replies -/

theorem prefix_outNull (out : Bytes) : out <+: outNull out := List.prefix_append _ _

theorem prefix_outInt (out : Bytes) (n : Nat) : out <+: outInt out n := by
  rw [outInt, bufAppendU8, bufAppendU32, bufAppend, List.append_assoc]
  exact List.prefix_append _ _

theorem prefix_outArr (out : Bytes) (n : Nat) : out <+: outArr out n := by
  rw [outArr, bufAppendU8, bufAppendU32, bufAppend, List.append_assoc]
  exact List.prefix_append _ _

theorem prefix_outDouble (out : Bytes) (d : Double) : out <+: outDouble out d := by
  rw [outDouble, bufAppendU8, bufAppendDouble, bufAppend, List.append_assoc]
  exact List.prefix_append _ _

theorem prefix_outStr (out str : Bytes) : out <+: outStr out str := by
  rw [outStr, bufAppendU8, bufAppendU32, bufAppend, bufAppend, List.append_assoc, List.append_assoc]
  exact List.prefix_append _ _

theorem prefix_outStrs (out : Bytes) (strs : List Bytes) : out <+: outStrs out strs := by
  induction strs generalizing out with
  | nil => exact List.prefix_refl _
  | cons str strs ih => exact (prefix_outStr out str).trans (ih (outStr out str))

/-- Filling in a length behind the old end of the buffer keeps what was there. -/
theorem prefix_patchU32 {out out' : Bytes} (h : out <+: out') {pos : Nat} (hpos : out.length ≤ pos) (x : Nat) :
    out <+: patchU32 out' pos x := by
  rw [patchU32, List.append_assoc]
  refine List.IsPrefix.trans ?_ (List.prefix_append _ _)
  exact List.prefix_take_iff.mpr ⟨h, hpos⟩

/-! ### Outcomes -/

/-- The commands that create their key. -/
def Command.Creates : Command → Prop
  | .set | .zadd | .hset | .lpush | .rpush | .sadd | .setbit | .pfadd => True
  | _ => False

instance : DecidablePred Command.Creates := fun c =>
  decidable_of_iff (c ∈ [.set, .zadd, .hset, .lpush, .rpush, .sadd, .setbit, .pfadd])
    (by cases c <;> simp [Command.Creates])

/-- The payload with which a command creates its key. -/
def newPayload (cmd : List Bytes) : Command → Payload
  | .set =>
    match newStr (cmd.getD 2 []) with
    | .ok val => .str val
    | .error _ => .str ⟨[], 0, 0⟩
  | .zadd => .zset {}
  | .hset => .hset {}
  | .lpush => .list {}
  | .rpush => .list {}
  | .sadd => .set {}
  | .pfadd => .hll hllInit
  | _ => .bitmap ⟨[], 0, sizeofDstr + 1⟩

theorem bare_of_type {p : Payload} (hz : p.type ≠ .zset) (hh : p.type ≠ .hset) : p.Bare := by
  intro addr
  cases p with
  | zset z => exact absurd rfl hz
  | hset h => exact absurd rfl hh
  | _ => exact ⟨rfl, rfl⟩

theorem newPayload_bare (cmd : List Bytes) (c : Command) : (newPayload cmd c).Bare := by
  cases c with
  | set =>
    have htype : (newPayload cmd .set).type = .str := by
      simp only [newPayload]
      cases newStr (cmd.getD 2 []) with
      | error _ => rfl
      | ok _ => rfl
    exact bare_of_type (by rw [htype]; decide) (by rw [htype]; decide)
  | zadd => exact fun _ => ⟨rfl, rfl⟩
  | hset => exact fun _ => ⟨rfl, rfl⟩
  | _ => exact fun _ => ⟨rfl, rfl⟩

/-- The layout of the map inside a payload. -/
def Payload.Shaped : Payload → Prop
  | .zset z => z.hmap.Shape
  | .hset h => h.Shape
  | .set s => s.Shape
  | _ => True

theorem newPayload_shaped (cmd : List Bytes) (c : Command) : (newPayload cmd c).Shaped := by
  cases c with
  | set =>
    simp only [newPayload]
    cases newStr (cmd.getD 2 []) with
    | error _ => trivial
    | ok _ => trivial
  | zadd => exact HMap.WF.empty.toShape
  | hset => exact HMap.WF.empty.toShape
  | sadd => exact HMap.WF.empty.toShape
  | _ => trivial

/-- The milliseconds that `do_expire` adds to the clock. -/
def ttlOf (cmd : List Bytes) : Nat := toU64 (strtol (cmd.getD 2 [])) * 1000 % 2 ^ 64

/-- The arguments that `do_setbit` refuses: the index is out of range, or the bit is neither 0 nor 1. -/
def BadBit (cmd : List Bytes) : Prop :=
  4 ≤ cmd.length ∧ ((strtol (cmd.getD 2 []) < 0 ∨ strtol (cmd.getD 2 []) > 2 ^ 32 - 1) ∨
    strEq (cmd.getD 3 []) (text "0") = false ∧ strEq (cmd.getD 3 []) (text "1") = false)

instance (cmd : List Bytes) : Decidable (BadBit cmd) := by
  unfold BadBit
  infer_instance

/-- The key is a hash whose only field is the one the request names. -/
def lastField (g : GlobalData) (cmd : List Bytes) : Bool :=
  match g.nodeOf (keyOf cmd) with
  | some ⟨_, _, ⟨_, .hset hmap⟩⟩ => hmap.nodes.map HNode.ident = [keyId (cmd.getD 2 [])]
  | _ => false

/-- What a command `c` with the tokens `cmd` can have done when it returns. -/
inductive Outcome (env : Env) (g : GlobalData) (out : Bytes) (cmd : List Bytes) : Command → GlobalData → Bytes → Prop
  /-- nothing changes, and the reply is appended -/
  | replied (c : Command) {out' : Bytes} (hout : out <+: out') : Outcome env g out cmd c g out'
  | missing : Outcome env g out cmd .get g (outNotFound out)
  | refused (c : Command) (mes : String) : Outcome env g out cmd c g (outErr out mes)
  /-- the payload of the key is rewritten -/
  | written {c : Command} {n : HNode Entry} {p : Payload} {g' : GlobalData} {out' : Bytes} (hout : out <+: out')
      (hnode : g.nodeOf (keyOf cmd) = some n) (htype : p.type = n.val.type)
      (hshape : n.val.payload.Shaped → p.Shaped) (hw : Written g (keyOf cmd) p g') : Outcome env g out cmd c g' out'
  /-- the key is created -/
  | created {c : Command} (hc : c.Creates) {g' : GlobalData} {out' : Bytes} (hout : out <+: out')
      (hnode : g.nodeOf (keyOf cmd) = none) (hi : Inserted env g (keyOf cmd) (newPayload cmd c) g') :
      Outcome env g out cmd c g' out'
  /-- the key is created and its payload is written -/
  | filled {c : Command} (hc : c.Creates) {p : Payload} {g₁ g' : GlobalData} {out' : Bytes} (hout : out <+: out')
      (hnode : g.nodeOf (keyOf cmd) = none) (hi : Inserted env g (keyOf cmd) (newPayload cmd c) g₁)
      (htype : p.type = (newPayload cmd c).type) (hshape : p.Shaped) (hw : Written g₁ (keyOf cmd) p g') :
      Outcome env g out cmd c g' out'
  /-- the key is created, and then the command fails -/
  | halfway {g' : GlobalData} (mes : String) (hnode : g.nodeOf (keyOf cmd) = none) (hbad : BadBit cmd)
      (hi : Inserted env g (keyOf cmd) (newPayload cmd .setbit) g') : Outcome env g out cmd .setbit g' (outErr out mes)
  | deleted {n : HNode Entry} {g' : GlobalData} {out' : Bytes} (hout : out <+: out')
      (hnode : g.nodeOf (keyOf cmd) = some n) (hd : Deleted g n g') : Outcome env g out cmd .del g' out'
  /-- the last field of a hash is deleted, and the key with it -/
  | emptied {n n' : HNode Entry} {hmap : HMap Dstr} {g₁ g' : GlobalData} {out' : Bytes} (hout : out <+: out')
      (hnode : g.nodeOf (keyOf cmd) = some n) (hlast : n.val.payload.Shaped → lastField g cmd)
      (hshape : n.val.payload.Shaped → (Payload.hset hmap).Shaped) (hempty : hmSize hmap = 0)
      (hw : Written g (keyOf cmd) (.hset hmap) g₁)
      (hnode' : g₁.nodeOf (keyOf cmd) = some n') (hd : Deleted g₁ n' g') : Outcome env g out cmd .hdel g' out'
  | expires {n : HNode Entry} {ttl : Heap} {out' : Bytes} (hout : out <+: out')
      (hnode : g.nodeOf (keyOf cmd) = some n) (ht : setTtl g.ttl env.now n.val.addr (ttlOf cmd) = .ok ttl) :
      Outcome env g out cmd .expire { g with ttl := ttl } out'
  | persists {n : HNode Entry} {ttl : Heap} {out' : Bytes} (hout : out <+: out')
      (hnode : g.nodeOf (keyOf cmd) = some n) (ht : remTtl g.ttl n.val.addr = .ok ttl) :
      Outcome env g out cmd .persist { g with ttl := ttl } out'

/-! ### Finding or inserting the node of a key -/

theorem Inserted.nodeOf {env : Env} {g g' : GlobalData} {key : Bytes} {payload : Payload}
    (h : Inserted env g key payload g') (hbare : payload.Bare) : g'.nodeOf key = some (freshNode g key payload) := by
  rw [GlobalData.nodeOf, h.find, if_pos rfl, afterInsert_bare _ _ _ hbare]

theorem findOrInsert_spec (env : Env) {g : GlobalData} (h : g.WF) {key : Bytes} (hkey : Short key) {payload : Payload}
    (hbare : payload.Bare) :
    (∃ n, g.nodeOf key = some n ∧ findOrInsert env g key payload = .ok (g, n)) ∨
      (g.nodeOf key = none ∧ ∃ g₁, Inserted env g key payload g₁ ∧
        findOrInsert env g key payload = .ok (g₁, freshNode g key payload)) := by
  have hfind := findNode_eq h hkey
  cases hn : g.nodeOf key with
  | some n =>
    refine .inl ⟨n, rfl, ?_⟩
    rw [findOrInsert, hfind, hn]
    rfl
  | none =>
    obtain ⟨g₁, hi⟩ := insertNode_spec env h hkey hn payload
    refine .inr ⟨rfl, g₁, hi, ?_⟩
    rw [findOrInsert, hfind, hn]
    simp only [bind, Except.bind, hi.run, findNode_eq hi.wf hkey, hi.nodeOf hbare]

/-- The commands that find or insert a node, check its type and write its payload. -/
theorem upsert_outcome {env : Env} {g : GlobalData} (h : g.WF) {cmd : List Bytes} (hkey : Short (keyOf cmd))
    {out : Bytes} {c : Command} (hc : c.Creates) {k : GlobalData × HNode Entry → M Result} {r : Result}
    (hrun : (findOrInsert env g (keyOf cmd) (newPayload cmd c) >>= k) = .ok r)
    (hstep : ∀ g₁ n, k (g₁, n) = .ok r →
      (n.val.type = (newPayload cmd c).type ∧ out <+: r.out ∧
        ∃ p, p.type = n.val.type ∧ (n.val.payload.Shaped → p.Shaped) ∧ putPayload g₁ (keyOf cmd) p = .ok r.data) ∨
      (n.val.type ≠ (newPayload cmd c).type ∧ r.data = g₁ ∧ ∃ mes, r.out = outErr out mes)) :
    Outcome env g out cmd c r.data r.out := by
  rcases findOrInsert_spec env h hkey (newPayload_bare cmd c) with ⟨n, hn, hfind⟩ | ⟨hnone, g₁, hi, hfind⟩
  · rw [hfind] at hrun
    rcases hstep g n hrun with ⟨-, hout, p, htype, hshape, hput⟩ | ⟨-, hdata, mes, hout⟩
    · obtain ⟨g', hw⟩ := putPayload_spec h hkey hn p
      rw [← Except.ok.inj (hw.run.symm.trans hput)]
      exact .written hout hn htype hshape hw
    · rw [hdata, hout]
      exact .refused c mes
  · rw [hfind] at hrun
    rcases hstep g₁ _ hrun with ⟨-, hout, p, htype, hshape, hput⟩ | ⟨hne, -⟩
    · obtain ⟨g', hw⟩ := putPayload_spec hi.wf hkey (hi.nodeOf (newPayload_bare cmd c)) p
      rw [← Except.ok.inj (hw.run.symm.trans hput)]
      exact .filled hc hout hnone hi htype (hshape (newPayload_shaped cmd c)) hw
    · exact absurd rfl hne

/-! ### Keys -/

theorem findNode_bind {g : GlobalData} (h : g.WF) {key : Bytes} (hkey : Short key) {β : Type}
    (k : Option (HNode Entry) → M β) : (findNode g key >>= k) = k (g.nodeOf key) := by
  rw [findNode_eq h hkey]
  rfl

/-- A handler that begins with its key goes on with the node of the key. -/
theorem lookup_of_run {g : GlobalData} (h : g.WF) {cmd : List Bytes} (hkey : Short (keyOf cmd)) {β : Type}
    {k : Bytes → Option (HNode Entry) → M β} {b : β}
    (hrun : (arg cmd 1 >>= fun key => findNode g key >>= k key) = .ok b) :
    k (keyOf cmd) (g.nodeOf (keyOf cmd)) = .ok b := by
  obtain ⟨key, harg, hrun⟩ := ok_of_bind hrun
  cases arg_key harg
  rwa [findNode_bind h hkey] at hrun

section Handlers

variable {env : Env} {g : GlobalData} {out : Bytes} {cmd : List Bytes} {r : Result}

theorem written_of_put (h : g.WF) (hkey : Short (keyOf cmd)) {n : HNode Entry} (hn : g.nodeOf (keyOf cmd) = some n)
    {p : Payload} {g' : GlobalData} (hput : putPayload g (keyOf cmd) p = .ok g') (htype : p.type = n.val.type)
    (hshape : n.val.payload.Shaped → p.Shaped) {c : Command} {out' : Bytes} (hout : out <+: out') :
    Outcome env g out cmd c g' out' := by
  obtain ⟨g₁, hw⟩ := putPayload_spec h hkey hn p
  cases hw.run.symm.trans hput
  exact .written hout hn htype hshape hw

theorem doGet_outcome (h : g.WF) (hkey : Short (keyOf cmd)) (hrun : doGet g out cmd = .ok r) :
    Outcome env g out cmd .get r.data r.out := by
  replace hrun := lookup_of_run h hkey hrun
  cases hn : g.nodeOf (keyOf cmd) with
  | none =>
    rw [hn] at hrun
    cases hrun
    exact .missing
  | some n =>
    rw [hn] at hrun
    rcases n with ⟨hcode, nkey, addr, payload⟩
    cases payload with
    | str val =>
      cases hrun
      exact .replied _ (prefix_outStr _ _)
    | _ => cases hrun

theorem doSet_outcome (h : g.WF) (hkey : Short (keyOf cmd)) (hrun : doSet env g out cmd = .ok r) :
    Outcome env g out cmd .set r.data r.out := by
  obtain ⟨key, harg, hrun⟩ := ok_of_bind hrun
  obtain ⟨val, hval, hrun⟩ := ok_of_bind hrun
  cases arg_key harg
  cases arg_getD hval
  rw [findNode_bind h hkey] at hrun
  cases hn : g.nodeOf (keyOf cmd) with
  | none =>
    rw [hn] at hrun
    obtain ⟨new, hnew, hrun⟩ := ok_of_bind hrun
    obtain ⟨g', hins, hrun⟩ := ok_of_bind hrun
    cases hrun
    have hpayload : newPayload cmd .set = .str new := by
      simp only [newPayload, hnew]
    obtain ⟨g₁, hi⟩ := insertNode_spec env h hkey hn (newPayload cmd .set)
    rw [← hpayload] at hins
    cases hi.run.symm.trans hins
    exact .created (by trivial) (prefix_outNull out) hn hi
  | some n =>
    rw [hn] at hrun
    rcases n with ⟨hcode, nkey, addr, payload⟩
    cases payload with
    | str old =>
      obtain ⟨⟨new, err⟩, -, hrun⟩ := ok_of_bind hrun
      dsimp only at hrun
      obtain ⟨g', hput, hrun⟩ := ok_of_bind hrun
      cases hrun
      exact written_of_put h hkey hn hput rfl (fun _ => trivial) (prefix_outNull out)
    | _ => cases hrun

theorem doDel_outcome (h : g.WF) (hkey : Short (keyOf cmd)) (hrun : doDel g out cmd = .ok r) :
    Outcome env g out cmd .del r.data r.out := by
  obtain ⟨key, harg, hrun⟩ := ok_of_bind hrun
  cases arg_key harg
  obtain ⟨str, hcopy, hbuf⟩ := dstrCopy_ok hkey
  obtain ⟨tmp, htmp, hrun⟩ := ok_of_bind hrun
  cases hcopy.symm.trans htmp
  rw [hbuf] at hrun
  rcases deleteNode_spec h (strHash (keyOf cmd)) (keyOf cmd) with ⟨-, hdel⟩ | ⟨n, g', hn, hdel, hd⟩
  · obtain ⟨⟨g₁, deleted⟩, hdel', hrun⟩ := ok_of_bind hrun
    cases hdel.symm.trans hdel'
    cases hrun
    exact .refused _ _
  · obtain ⟨⟨g₁, deleted⟩, hdel', hrun⟩ := ok_of_bind hrun
    cases hdel.symm.trans hdel'
    cases hrun
    exact .deleted (prefix_outNull out) hn hd

theorem doKeys_outcome (hrun : doKeys g out = .ok r) : Outcome env g out cmd .keys r.data r.out := by
  cases hrun
  exact .replied _ ((prefix_outArr _ _).trans (prefix_outStrs _ _))

/-! ### Sorted sets -/

theorem zsetDelete_shape {z z' : ZSet} {p : Ptr} (hs : z.hmap.Shape) (hrun : zsetDelete z p = .ok z') :
    z'.hmap.Shape := by
  obtain ⟨znode, -, hrun⟩ := ok_of_bind hrun
  obtain ⟨tmp, -, hrun⟩ := ok_of_bind hrun
  obtain ⟨⟨tree, root⟩, -, hrun⟩ := ok_of_bind hrun
  obtain ⟨⟨hmap, deleted, jobs⟩, hdel, hrun⟩ := ok_of_bind hrun
  cases hrun
  exact hmDelete_shape hs hdel

theorem zsetAdd_shape {z z' : ZSet} {score : Double} {key : Bytes} (hs : z.hmap.Shape)
    (hrun : zsetAdd z score key = .ok z') : z'.hmap.Shape := by
  obtain ⟨nodeKey, -, hrun⟩ := ok_of_bind hrun
  obtain ⟨znodeKey, -, hrun⟩ := ok_of_bind hrun
  obtain ⟨⟨hmap, jobs⟩, hins, hrun⟩ := ok_of_bind hrun
  obtain ⟨link, -, hrun⟩ := ok_of_bind hrun
  obtain ⟨attached, -, hrun⟩ := ok_of_bind hrun
  obtain ⟨linked, -, hrun⟩ := ok_of_bind hrun
  obtain ⟨⟨tree, root⟩, -, hrun⟩ := ok_of_bind hrun
  cases hrun
  exact hmInsert_shape hs hins

theorem zsetInsert_shape {z z' : ZSet} {score : Double} {key : Bytes} {inserted : Bool} (hs : z.hmap.Shape)
    (hrun : zsetInsert z score key = .ok (z', inserted)) : z'.hmap.Shape := by
  obtain ⟨found, -, hrun⟩ := ok_of_bind hrun
  cases found with
  | some node =>
    obtain ⟨z₁, hdel, hrun⟩ := ok_of_bind hrun
    obtain ⟨z₂, hadd, hrun⟩ := ok_of_bind hrun
    cases hrun
    exact zsetAdd_shape (zsetDelete_shape hs hdel) hadd
  | none =>
    obtain ⟨z₂, hadd, hrun⟩ := ok_of_bind hrun
    cases hrun
    exact zsetAdd_shape hs hadd

theorem doZadd_outcome (h : g.WF) (hkey : Short (keyOf cmd)) (hrun : doZadd env g out cmd = .ok r) :
    Outcome env g out cmd .zadd r.data r.out := by
  obtain ⟨key, harg, hrun⟩ := ok_of_bind hrun
  obtain ⟨_, -, hrun⟩ := ok_of_bind hrun
  obtain ⟨_, -, hrun⟩ := ok_of_bind hrun
  cases arg_key harg
  apply upsert_outcome (c := .zadd) h hkey (by trivial) hrun
  rintro g₁ ⟨hcode, nkey, addr, payload⟩ hstep
  cases payload with
  | zset z =>
    dsimp only at hstep
    obtain ⟨⟨z', inserted⟩, hins, hstep⟩ := ok_of_bind hstep
    dsimp only at hstep
    obtain ⟨g', hput, hstep⟩ := ok_of_bind hstep
    cases hstep
    exact .inl ⟨rfl, prefix_outInt _ _, .zset z', rfl, fun hs => zsetInsert_shape hs hins, hput⟩
  | _ =>
    cases hstep
    exact .inr ⟨nofun, rfl, _, rfl⟩

/-- The sorted set that `find_zset` returns for a key without a type error. -/
theorem findZset_bind (h : g.WF) (hkey : Short (keyOf cmd)) {β : Type} {k : ZSet → M β} {b : β}
    (hrun : (findZset g (keyOf cmd) >>= fun z => derefZset z >>= k) = .ok b) :
    (g.nodeOf (keyOf cmd) = none ∧ k {} = .ok b) ∨
      ∃ n z, g.nodeOf (keyOf cmd) = some n ∧ n.val.payload = .zset z ∧ k z = .ok b := by
  rw [findZset, findNode_bind h hkey] at hrun
  cases hn : g.nodeOf (keyOf cmd) with
  | none =>
    rw [hn] at hrun
    exact .inl ⟨rfl, hrun⟩
  | some n =>
    rw [hn] at hrun
    rcases n with ⟨hcode, nkey, addr, payload⟩
    cases payload with
    | zset z => exact .inr ⟨_, z, rfl, rfl, hrun⟩
    | _ => cases hrun

theorem doZscore_outcome (hrun : doZscore g out cmd = .ok r) :
    Outcome env g out cmd .zscore r.data r.out := by
  obtain ⟨key, harg, hrun⟩ := ok_of_bind hrun
  obtain ⟨member, -, hrun⟩ := ok_of_bind hrun
  obtain ⟨zset?, -, hrun⟩ := ok_of_bind hrun
  obtain ⟨z, -, hrun⟩ := ok_of_bind hrun
  obtain ⟨found, -, hrun⟩ := ok_of_bind hrun
  cases found with
  | none =>
    cases hrun
    exact .replied _ (prefix_outNull _)
  | some p =>
    dsimp only at hrun
    obtain ⟨znode, -, hrun⟩ := ok_of_bind hrun
    cases hrun
    exact .replied _ (prefix_outDouble _ _)

theorem zsetLookup_empty {member : Bytes} {found : Option Ptr} (hrun : zsetLookup {} member = .ok found) :
    found = none := by
  rw [zsetLookup] at hrun
  exact (Except.ok.inj hrun).symm

theorem doZrem_outcome (h : g.WF) (hkey : Short (keyOf cmd)) (hrun : doZrem g out cmd = .ok r) :
    Outcome env g out cmd .zrem r.data r.out := by
  obtain ⟨key, harg, hrun⟩ := ok_of_bind hrun
  obtain ⟨member, -, hrun⟩ := ok_of_bind hrun
  cases arg_key harg
  rcases findZset_bind h hkey hrun with ⟨-, hrun⟩ | ⟨n, z, hn, hz, hrun⟩
  · obtain ⟨found, hfound, hrun⟩ := ok_of_bind hrun
    cases zsetLookup_empty hfound
    cases hrun
    exact .replied _ (prefix_outInt _ _)
  · obtain ⟨found, -, hrun⟩ := ok_of_bind hrun
    cases found with
    | none =>
      cases hrun
      exact .replied _ (prefix_outInt _ _)
    | some p =>
      dsimp only at hrun
      obtain ⟨z', hdel, hrun⟩ := ok_of_bind hrun
      obtain ⟨g', hput, hrun⟩ := ok_of_bind hrun
      cases hrun
      apply written_of_put h hkey hn hput (by rw [Entry.type, hz]; rfl) ?_ (prefix_outInt _ _)
      rw [hz]
      exact fun hs => zsetDelete_shape hs hdel

theorem prefix_zrangeLoop (fuel : Nat) (z : ZSet) (p : Option Ptr) (size limit : Nat) (out : Bytes) {out' : Bytes}
    {size' : Nat} (hrun : zrangeLoop fuel z p size limit out = .ok (out', size')) : out <+: out' := by
  induction fuel generalizing p size out with
  | zero =>
    cases p with
    | none =>
      cases hrun
      exact List.prefix_refl _
    | some p => cases hrun
  | succ fuel ih =>
    cases p with
    | none =>
      cases hrun
      exact List.prefix_refl _
    | some p =>
      rw [zrangeLoop] at hrun
      split at hrun
      · obtain ⟨znode, -, hrun⟩ := ok_of_bind hrun
        dsimp only at hrun
        obtain ⟨next, -, hrun⟩ := ok_of_bind hrun
        exact ((prefix_outDouble _ _).trans (prefix_outStr _ _)).trans (ih _ _ _ hrun)
      · cases hrun
        exact List.prefix_refl _

theorem doZrangequery_outcome (hrun : doZrangequery g out cmd = .ok r) :
    Outcome env g out cmd .zquery r.data r.out := by
  obtain ⟨key, harg, hrun⟩ := ok_of_bind hrun
  obtain ⟨_, -, hrun⟩ := ok_of_bind hrun
  obtain ⟨_, -, hrun⟩ := ok_of_bind hrun
  obtain ⟨_, -, hrun⟩ := ok_of_bind hrun
  obtain ⟨z, -, hrun⟩ := ok_of_bind hrun
  obtain ⟨lb, -, hrun⟩ := ok_of_bind hrun
  cases lb with
  | none =>
    cases hrun
    exact .replied _ (prefix_outArr _ _)
  | some lb =>
    dsimp only at hrun
    obtain ⟨znode, -, hrun⟩ := ok_of_bind hrun
    dsimp only [outUnknownArr] at hrun
    obtain ⟨⟨out', size⟩, hloop, hrun⟩ := ok_of_bind hrun
    cases hrun
    have hpos : out.length ≤ (bufAppendU32 (bufAppendU8 out tagArr) 0).length - 4 := by
      simp only [bufAppendU32, bufAppendU8, bufAppend, leBytes, List.length_append, List.length_cons, List.length_nil]
      omega
    exact .replied _ (prefix_patchU32 ((prefix_outArr out 0).trans (prefix_zrangeLoop _ _ _ _ _ _ hloop)) hpos size)

/-! ### Deadlines -/

theorem doExpire_outcome (h : g.WF) (hkey : Short (keyOf cmd)) (hrun : doExpire env g out cmd = .ok r) :
    Outcome env g out cmd .expire r.data r.out := by
  obtain ⟨key, harg, hrun⟩ := ok_of_bind hrun
  obtain ⟨seconds, harg₂, hrun⟩ := ok_of_bind hrun
  cases arg_key harg
  cases arg_getD harg₂
  dsimp only at hrun
  rw [findNode_bind h hkey] at hrun
  cases hn : g.nodeOf (keyOf cmd) with
  | none =>
    rw [hn] at hrun
    cases hrun
    exact .replied _ (prefix_outNull _)
  | some n =>
    rw [hn] at hrun
    dsimp only at hrun
    obtain ⟨ttl, httl, hrun⟩ := ok_of_bind hrun
    cases hrun
    exact .expires (prefix_outNull _) hn httl

theorem doTtl_outcome (h : g.WF) (hkey : Short (keyOf cmd)) (hrun : doTtl env g out cmd = .ok r) :
    Outcome env g out cmd .ttl r.data r.out := by
  replace hrun := lookup_of_run h hkey hrun
  cases hn : g.nodeOf (keyOf cmd) with
  | none =>
    rw [hn] at hrun
    cases hrun
    exact .replied _ (prefix_outNull _)
  | some n =>
    rw [hn] at hrun
    dsimp only at hrun
    split at hrun
    · cases hrun
    · obtain ⟨entry, -, hrun⟩ := ok_of_bind hrun
      cases hrun
      exact .replied _ (prefix_outInt _ _)

theorem doPersist_outcome (h : g.WF) (hkey : Short (keyOf cmd)) (hrun : doPersist g out cmd = .ok r) :
    Outcome env g out cmd .persist r.data r.out := by
  replace hrun := lookup_of_run h hkey hrun
  cases hn : g.nodeOf (keyOf cmd) with
  | none =>
    rw [hn] at hrun
    cases hrun
    exact .replied _ (prefix_outNull _)
  | some n =>
    rw [hn] at hrun
    dsimp only at hrun
    obtain ⟨ttl, httl, hrun⟩ := ok_of_bind hrun
    cases hrun
    exact .persists (prefix_outNull _) hn httl

/-! ### Hashes -/

theorem doHset_outcome (h : g.WF) (hkey : Short (keyOf cmd)) (hrun : doHset env g out cmd = .ok r) :
    Outcome env g out cmd .hset r.data r.out := by
  obtain ⟨key, harg, hrun⟩ := ok_of_bind hrun
  obtain ⟨field, -, hrun⟩ := ok_of_bind hrun
  obtain ⟨value, -, hrun⟩ := ok_of_bind hrun
  cases arg_key harg
  apply upsert_outcome (c := .hset) h hkey (by trivial) hrun
  rintro g₁ ⟨hcode, nkey, addr, payload⟩ hstep
  cases payload with
  | hset hmap =>
    dsimp only at hstep
    obtain ⟨_, -, hstep⟩ := ok_of_bind hstep
    obtain ⟨found, hfound, hstep⟩ := ok_of_bind hstep
    cases found with
    | some n => exact absurd hfound (hmLookup_nullKey _ _ n)
    | none =>
      dsimp only at hstep
      obtain ⟨fieldKey, -, hstep⟩ := ok_of_bind hstep
      obtain ⟨val, -, hstep⟩ := ok_of_bind hstep
      obtain ⟨⟨hmap', jobs⟩, hins, hstep⟩ := ok_of_bind hstep
      dsimp only at hstep
      obtain ⟨g', hput, hstep⟩ := ok_of_bind hstep
      cases hstep
      exact .inl ⟨rfl, prefix_outNull _, .hset hmap', rfl, fun hs => hmInsert_shape hs hins, hput⟩
  | _ =>
    cases hstep
    exact .inr ⟨nofun, rfl, _, rfl⟩

theorem doHget_outcome (h : g.WF) (hkey : Short (keyOf cmd)) (hrun : doHget g out cmd = .ok r) :
    Outcome env g out cmd .hget r.data r.out := by
  obtain ⟨key, harg, hrun⟩ := ok_of_bind hrun
  obtain ⟨field, -, hrun⟩ := ok_of_bind hrun
  cases arg_key harg
  rw [findNode_bind h hkey] at hrun
  cases hn : g.nodeOf (keyOf cmd) with
  | none =>
    rw [hn] at hrun
    cases hrun
    exact .replied _ (prefix_outNull _)
  | some n =>
    rw [hn] at hrun
    rcases n with ⟨hcode, nkey, addr, payload⟩
    cases payload with
    | hset hmap =>
      dsimp only at hrun
      obtain ⟨tmp, -, hrun⟩ := ok_of_bind hrun
      obtain ⟨found, -, hrun⟩ := ok_of_bind hrun
      cases found with
      | some n =>
        cases hrun
        exact .replied _ (prefix_outStr _ _)
      | none =>
        cases hrun
        exact .replied _ (prefix_outNull _)
    | _ =>
      cases hrun
      exact .refused _ _

/-- The node of a key is found by its own hash and key. -/
theorem find_self {n : HNode Entry} {key : Bytes} (h : g.WF) (hn : g.nodeOf key = some n) :
    (n.hcode, cstr n.key) = keyId key :=
  ((GlobalData.nodeOf_eq_some h).mp hn).2

theorem lastField_of_delete {n : HNode Entry} (hn : g.nodeOf (keyOf cmd) = some n) {hmap hmap' : HMap Dstr}
    (hpayload : n.val.payload = .hset hmap) {jobs : List (HNode Dstr)}
    (hdelete : hmDelete hmap (.ofKey (strHash (cmd.getD 2 [])) (cmd.getD 2 [])) = .ok (hmap', true, jobs))
    (hempty : hmSize hmap' = 0) (hs : hmap.Shape) : lastField g cmd := by
  obtain ⟨l₁, fieldNode, l₂, hnodes, hnodes', hid⟩ := hmDelete_split hs hdelete
  have hnil : l₁ ++ l₂ = [] := by
    rw [← hnodes', ← List.length_eq_zero_iff, ← (hmDelete_shape hs hdelete).hmSize_eq]
    exact hempty
  obtain ⟨rfl, rfl⟩ := List.append_eq_nil_iff.mp hnil
  rcases n with ⟨hcode, nkey, addr, payload⟩
  cases hpayload
  rw [lastField, hn]
  apply decide_eq_true
  rw [hnodes, List.nil_append, List.map_singleton, hid]
  rfl

theorem doHdel_outcome (h : g.WF) (hkey : Short (keyOf cmd)) (hfield : Short (cmd.getD 2 []))
    (hrun : doHdel g out cmd = .ok r) : Outcome env g out cmd .hdel r.data r.out := by
  obtain ⟨key, harg, hrun⟩ := ok_of_bind hrun
  obtain ⟨field, harg₂, hrun⟩ := ok_of_bind hrun
  cases arg_key harg
  cases arg_getD harg₂
  obtain ⟨str, hcopy, hbuf⟩ := dstrCopy_ok hfield
  rw [findNode_bind h hkey] at hrun
  cases hn : g.nodeOf (keyOf cmd) with
  | none =>
    rw [hn] at hrun
    cases hrun
    exact .replied _ (prefix_outNull _)
  | some n =>
    have hself := find_self h hn
    rw [hn] at hrun
    rcases n with ⟨hcode, nkey, addr, payload⟩
    cases payload with
    | hset hmap =>
      dsimp only at hrun
      obtain ⟨tmp, htmp, hrun⟩ := ok_of_bind hrun
      cases hcopy.symm.trans htmp
      obtain ⟨⟨hmap', deleted, jobs⟩, hdelete, hrun⟩ := ok_of_bind hrun
      rw [hbuf] at hdelete
      cases deleted with
      | false =>
        cases hrun
        exact .refused _ _
      | true =>
        dsimp only [if_true] at hrun
        rw [if_pos rfl] at hrun
        obtain ⟨g₁, hput, hrun⟩ := ok_of_bind hrun
        split at hrun
        · next hempty =>
          obtain ⟨g₁', hw⟩ := putPayload_spec h hkey hn (.hset hmap')
          cases hw.run.symm.trans hput
          have hfind := hw.find (keyId (keyOf cmd))
          rw [show g.db.find (keyId (keyOf cmd)) = _ from hn] at hfind
          rcases deleteNode_spec hw.wf hcode nkey with ⟨hnone, -⟩ | ⟨n', g', hn', hdel, hd⟩
          · rw [hself, hfind] at hnone
            cases hnone
          · obtain ⟨⟨g₂, _⟩, hdel', hrun⟩ := ok_of_bind hrun
            cases hdel.symm.trans hdel'
            cases hrun
            rw [hself] at hn'
            exact .emptied (prefix_outNull _) hn (fun hs => lastField_of_delete hn rfl hdelete hempty hs)
              (fun hs => hmDelete_shape hs hdelete) hempty hw hn' hd
        · cases hrun
          exact written_of_put h hkey hn hput rfl (fun hs => hmDelete_shape hs hdelete) (prefix_outNull _)
    | _ =>
      cases hrun
      exact .refused _ _

theorem doHgetall_outcome (h : g.WF) (hkey : Short (keyOf cmd)) (hrun : doHgetall g out cmd = .ok r) :
    Outcome env g out cmd .hgetall r.data r.out := by
  replace hrun := lookup_of_run h hkey hrun
  cases hn : g.nodeOf (keyOf cmd) with
  | none =>
    rw [hn] at hrun
    cases hrun
    exact .replied _ (prefix_outNull _)
  | some n =>
    rw [hn] at hrun
    rcases n with ⟨hcode, nkey, addr, payload⟩
    cases payload with
    | hset hmap =>
      cases hrun
      exact .replied _ ((prefix_outArr _ _).trans (prefix_outStrs _ _))
    | _ => cases hrun

/-! ### Lists -/

theorem doPush_outcome (h : g.WF) (hkey : Short (keyOf cmd)) {side : Side} {c : Command} (hcreates : c.Creates)
    (hc : newPayload cmd c = .list {}) (hrun : doPush env g out cmd side = .ok r) :
    Outcome env g out cmd c r.data r.out := by
  obtain ⟨key, harg, hrun⟩ := ok_of_bind hrun
  obtain ⟨value, -, hrun⟩ := ok_of_bind hrun
  cases arg_key harg
  rw [← hc] at hrun
  apply upsert_outcome h hkey hcreates hrun
  rintro g₁ ⟨hcode, nkey, addr, payload⟩ hstep
  rw [hc]
  cases payload with
  | list l =>
    dsimp only at hstep
    obtain ⟨l', -, hstep⟩ := ok_of_bind hstep
    obtain ⟨g', hput, hstep⟩ := ok_of_bind hstep
    cases hstep
    exact .inl ⟨rfl, prefix_outInt _ _, .list l', rfl, fun _ => trivial, hput⟩
  | _ =>
    cases hstep
    exact .inr ⟨nofun, rfl, _, rfl⟩

theorem prefix_popLoop (n : Nat) (l : DList) (side : Side) (out : Bytes) {l' : DList} {out' : Bytes}
    (hrun : popLoop n l side out = .ok (l', out')) : out <+: out' := by
  induction n generalizing l out with
  | zero =>
    cases hrun
    exact List.prefix_refl _
  | succ n ih =>
    obtain ⟨⟨l₁, val⟩, -, hrun⟩ := ok_of_bind hrun
    exact (prefix_outStr out val).trans (ih l₁ _ hrun)

theorem doPop_outcome (h : g.WF) (hkey : Short (keyOf cmd)) {side : Side} {c : Command}
    (hrun : doPop g out cmd side = .ok r) : Outcome env g out cmd c r.data r.out := by
  obtain ⟨key, harg, hrun⟩ := ok_of_bind hrun
  obtain ⟨count, -, hrun⟩ := ok_of_bind hrun
  cases arg_key harg
  rw [findNode_bind h hkey] at hrun
  cases hn : g.nodeOf (keyOf cmd) with
  | none =>
    rw [hn] at hrun
    cases hrun
    exact .refused _ _
  | some n =>
    rw [hn] at hrun
    rcases n with ⟨hcode, nkey, addr, payload⟩
    cases payload with
    | list l =>
      dsimp only at hrun
      split at hrun
      · cases hrun
        exact .refused _ _
      · obtain ⟨⟨l', out'⟩, hloop, hrun⟩ := ok_of_bind hrun
        dsimp only at hrun
        obtain ⟨g', hput, hrun⟩ := ok_of_bind hrun
        cases hrun
        exact written_of_put h hkey hn hput rfl (fun _ => trivial)
          ((prefix_outArr _ _).trans (prefix_popLoop _ _ _ _ hloop))
    | _ =>
      cases hrun
      exact .refused _ _

theorem prefix_lrangeLoop (m : DListMem Bytes) (n : Nat) (p : Option Ptr) (out : Bytes) {out' : Bytes}
    (hrun : lrangeLoop m n p out = .ok out') : out <+: out' := by
  induction n generalizing p out with
  | zero =>
    cases hrun
    exact List.prefix_refl _
  | succ n ih =>
    obtain ⟨c, -, hrun⟩ := ok_of_bind hrun
    exact (prefix_outStr out c.val).trans (ih _ _ hrun)

theorem doLrange_outcome (h : g.WF) (hkey : Short (keyOf cmd)) (hrun : doLrange g out cmd = .ok r) :
    Outcome env g out cmd .lrange r.data r.out := by
  obtain ⟨key, harg, hrun⟩ := ok_of_bind hrun
  obtain ⟨first, -, hrun⟩ := ok_of_bind hrun
  obtain ⟨last, -, hrun⟩ := ok_of_bind hrun
  cases arg_key harg
  dsimp only at hrun
  rw [findNode_bind h hkey] at hrun
  cases hn : g.nodeOf (keyOf cmd) with
  | none =>
    rw [hn] at hrun
    cases hrun
    exact .refused _ _
  | some n =>
    rw [hn] at hrun
    rcases n with ⟨hcode, nkey, addr, payload⟩
    cases payload with
    | list l =>
      dsimp only at hrun
      generalize (if toI32 (strtol first) < 0 then toI32 (l.size + toI32 (strtol first))
        else toI32 (strtol first)) = start at hrun
      split at hrun
      · cases hrun
        exact .refused _ _
      · split at hrun
        all_goals
          obtain ⟨_, -, hrun⟩ := ok_of_bind hrun
          obtain ⟨out', hloop, hrun⟩ := ok_of_bind hrun
          cases hrun
          exact .replied _ ((prefix_outArr _ _).trans (prefix_lrangeLoop _ _ _ _ hloop))
    | _ =>
      cases hrun
      exact .refused _ _

/-! ### Sets -/

theorem doSadd_outcome (h : g.WF) (hkey : Short (keyOf cmd)) (hrun : doSadd env g out cmd = .ok r) :
    Outcome env g out cmd .sadd r.data r.out := by
  obtain ⟨key, harg, hrun⟩ := ok_of_bind hrun
  obtain ⟨value, -, hrun⟩ := ok_of_bind hrun
  cases arg_key harg
  apply upsert_outcome (c := .sadd) h hkey (by trivial) hrun
  rintro g₁ ⟨hcode, nkey, addr, payload⟩ hstep
  cases payload with
  | set s =>
    dsimp only at hstep
    obtain ⟨valueKey, -, hstep⟩ := ok_of_bind hstep
    obtain ⟨⟨s', jobs⟩, hins, hstep⟩ := ok_of_bind hstep
    dsimp only at hstep
    obtain ⟨g', hput, hstep⟩ := ok_of_bind hstep
    cases hstep
    exact .inl ⟨rfl, List.prefix_refl _, .set s', rfl, fun hs => hmInsert_shape hs hins, hput⟩
  | _ =>
    cases hstep
    exact .inr ⟨nofun, rfl, _, rfl⟩

theorem requireSet_cases (out : Bytes) (node : Option (HNode Entry)) :
    (∃ mes ret, requireSet out node = .error (outErr out mes, ret)) ∨
      ∃ n s, node = some n ∧ n.val.payload = .set s ∧ requireSet out node = .ok s := by
  cases node with
  | none => exact .inl ⟨_, _, rfl⟩
  | some n =>
    rcases n with ⟨hcode, nkey, addr, payload⟩
    cases payload with
    | set s => exact .inr ⟨_, s, rfl, rfl, rfl⟩
    | _ => exact .inl ⟨_, _, rfl⟩

theorem doSrem_outcome (h : g.WF) (hkey : Short (keyOf cmd)) (hrun : doSrem g out cmd = .ok r) :
    Outcome env g out cmd .srem r.data r.out := by
  obtain ⟨key, harg, hrun⟩ := ok_of_bind hrun
  obtain ⟨value, -, hrun⟩ := ok_of_bind hrun
  cases arg_key harg
  rw [findNode_bind h hkey] at hrun
  rcases requireSet_cases out (g.nodeOf (keyOf cmd)) with ⟨mes, ret, hset⟩ | ⟨n, s, hn, hs, hset⟩
  · rw [hset] at hrun
    cases hrun
    exact .refused _ _
  · rw [hset] at hrun
    dsimp only at hrun
    obtain ⟨tmp, -, hrun⟩ := ok_of_bind hrun
    obtain ⟨⟨s', deleted, jobs⟩, hdel, hrun⟩ := ok_of_bind hrun
    dsimp only at hrun
    obtain ⟨g', hput, hrun⟩ := ok_of_bind hrun
    cases hrun
    apply written_of_put h hkey hn hput (by rw [Entry.type, hs]; rfl) ?_ (prefix_outInt _ _)
    rw [hs]
    exact fun hshape => hmDelete_shape hshape hdel

theorem doSmembers_outcome (h : g.WF) (hkey : Short (keyOf cmd)) (hrun : doSmembers g out cmd = .ok r) :
    Outcome env g out cmd .smembers r.data r.out := by
  replace hrun := lookup_of_run h hkey hrun
  rcases requireSet_cases out (g.nodeOf (keyOf cmd)) with ⟨mes, ret, hset⟩ | ⟨n, s, -, -, hset⟩
  · rw [hset] at hrun
    cases hrun
    exact .refused _ _
  · rw [hset] at hrun
    cases hrun
    exact .replied _ ((prefix_outArr _ _).trans (prefix_outStrs _ _))

theorem doScard_outcome (h : g.WF) (hkey : Short (keyOf cmd)) (hrun : doScard g out cmd = .ok r) :
    Outcome env g out cmd .scard r.data r.out := by
  replace hrun := lookup_of_run h hkey hrun
  rcases requireSet_cases out (g.nodeOf (keyOf cmd)) with ⟨mes, ret, hset⟩ | ⟨n, s, -, -, hset⟩
  · rw [hset] at hrun
    cases hrun
    exact .refused _ _
  · rw [hset] at hrun
    cases hrun
    exact .replied _ (prefix_outInt _ _)

/-! ### Bitmaps -/

theorem dstrResize_err {str str' : Dstr} {len : Nat} {pad : UInt8} {err : StrRet} (hlen : len ≤ maxStrSize)
    (hrun : dstrResize str len pad = .ok (str', err)) : err = .ok := by
  rw [dstrResize, if_neg (Nat.not_lt.mpr hlen)] at hrun
  dsimp only at hrun
  generalize (if str.size < len ∧ dstrCap str < len then sizeofDstr + len + 1 else str.alloc) = alloc at hrun
  by_cases halloc : sizeofDstr + len + 1 ≤ alloc
  · rw [if_pos halloc] at hrun
    cases hrun
    rfl
  · rw [if_neg halloc] at hrun
    cases hrun

/-- Every index that passes the checks is below the size limit of a string. -/
theorem setBit_ne_none {bitmap : Dstr} {bitIdx : Nat} (hidx : bitIdx < 2 ^ 32) (one : Bool) :
    setBit bitmap bitIdx one ≠ .ok none := by
  intro hrun
  have hlen : bitIdx / 8 + 1 ≤ maxStrSize := by
    unfold maxStrSize
    omega
  unfold setBit at hrun
  dsimp only at hrun
  split at hrun
  · obtain ⟨⟨bitmap', err⟩, hres, hrun⟩ := ok_of_bind hrun
    cases dstrResize_err hlen hres
    dsimp only at hrun
    rw [if_neg (not_not_intro rfl)] at hrun
    obtain ⟨byte, -, hrun⟩ := ok_of_bind hrun
    cases hrun
  · obtain ⟨_, hres, hrun⟩ := ok_of_bind hrun
    cases hres
    dsimp only at hrun
    rw [if_neg (not_not_intro rfl)] at hrun
    obtain ⟨byte, -, hrun⟩ := ok_of_bind hrun
    cases hrun

/-- The three ways through `do_setbit` behind the lookup. -/
theorem doSetbit_cases (hrun : doSetbit env g out cmd = .ok r) :
    ∃ g₁ n, findOrInsert env g (keyOf cmd) (newPayload cmd .setbit) = .ok (g₁, n) ∧
      ((n.val.type ≠ .bitmap ∧ r.data = g₁ ∧ ∃ mes, r.out = outErr out mes) ∨
        (n.val.type = .bitmap ∧ BadBit cmd ∧ r.data = g₁ ∧ ∃ mes, r.out = outErr out mes) ∨
        (n.val.type = .bitmap ∧ ¬BadBit cmd ∧ out <+: r.out ∧
          ∃ bitmap, putPayload g₁ (keyOf cmd) (.bitmap bitmap) = .ok r.data)) := by
  obtain ⟨key, harg, hrun⟩ := ok_of_bind hrun
  obtain ⟨bitPos, hpos, hrun⟩ := ok_of_bind hrun
  obtain ⟨bitValue, hval, hrun⟩ := ok_of_bind hrun
  have hlen : 4 ≤ cmd.length := (List.getElem?_eq_some_iff.mp (arg_ok hval)).1
  cases arg_key harg
  cases arg_getD hpos
  cases arg_getD hval
  rw [dstrInit_eq (Nat.zero_le _)] at hrun
  dsimp only at hrun
  obtain ⟨⟨g₁, n⟩, hfind, hrun⟩ := ok_of_bind hrun
  refine ⟨g₁, n, hfind, ?_⟩
  rcases n with ⟨hcode, nkey, addr, payload⟩
  cases payload with
  | bitmap bitmap =>
    dsimp only at hrun
    split at hrun
    · next hidx =>
      cases hrun
      exact .inr (.inl ⟨rfl, ⟨hlen, .inl hidx⟩, rfl, _, rfl⟩)
    · next hidx =>
      split at hrun
      · next hbit =>
        cases hrun
        rw [Bool.and_eq_true, Bool.not_eq_true', Bool.not_eq_true'] at hbit
        exact .inr (.inl ⟨rfl, ⟨hlen, .inr hbit⟩, rfl, _, rfl⟩)
      · next hbit =>
        rw [Bool.and_eq_true, Bool.not_eq_true', Bool.not_eq_true'] at hbit
        obtain ⟨res, hres, hrun⟩ := ok_of_bind hrun
        cases res with
        | none => exact absurd hres (setBit_ne_none (by omega) _)
        | some p =>
          obtain ⟨g', hput, hrun⟩ := ok_of_bind hrun
          cases hrun
          exact .inr (.inr ⟨rfl, fun hbad => hbad.2.elim hidx hbit, prefix_outInt _ _, _, hput⟩)
  | _ =>
    cases hrun
    exact .inl ⟨nofun, rfl, _, rfl⟩

theorem doSetbit_outcome (h : g.WF) (hkey : Short (keyOf cmd)) (hrun : doSetbit env g out cmd = .ok r) :
    Outcome env g out cmd .setbit r.data r.out := by
  obtain ⟨g₁, n, hfind, hcases⟩ := doSetbit_cases hrun
  have hbare := newPayload_bare cmd .setbit
  rcases findOrInsert_spec env h hkey hbare with ⟨n', hn, hfind'⟩ | ⟨hn, g', hi, hfind'⟩
  · cases hfind'.symm.trans hfind
    rcases hcases with ⟨-, hdata, mes, hout⟩ | ⟨-, -, hdata, mes, hout⟩ | ⟨htype, -, hout, bitmap, hput⟩
    · rw [hdata, hout]
      exact .refused _ mes
    · rw [hdata, hout]
      exact .refused _ mes
    · exact written_of_put h hkey hn hput htype.symm (fun _ => trivial) hout
  · cases hfind'.symm.trans hfind
    rcases hcases with ⟨htype, -⟩ | ⟨-, hbad, hdata, mes, hout⟩ | ⟨-, -, hout, bitmap, hput⟩
    · exact absurd rfl htype
    · rw [hdata, hout]
      exact .halfway mes hn hbad hi
    · obtain ⟨g'', hw⟩ := putPayload_spec hi.wf hkey (hi.nodeOf hbare) (.bitmap bitmap)
      cases hw.run.symm.trans hput
      exact .filled (p := .bitmap bitmap) (by trivial) hout hn hi rfl trivial hw

theorem validateHmnode_cases (out : Bytes) (node : Option (HNode Entry)) (type : EntryType) :
    (∃ mes ret, validateHmnode out node type = some (outErr out mes, ret)) ∨
      ∃ n, node = some n ∧ n.val.type = type ∧ validateHmnode out node type = none := by
  cases node with
  | none => exact .inl ⟨_, _, rfl⟩
  | some n =>
    by_cases htype : n.val.type = type
    · exact .inr ⟨n, rfl, htype, by simp [validateHmnode, htype]⟩
    · exact .inl ⟨"key already exists in database but is not the correct type", .incorrectType, if_pos htype⟩

theorem doGetbit_outcome (h : g.WF) (hkey : Short (keyOf cmd)) (hrun : doGetbit g out cmd = .ok r) :
    Outcome env g out cmd .getbit r.data r.out := by
  obtain ⟨key, harg, hrun⟩ := ok_of_bind hrun
  obtain ⟨bitPos, -, hrun⟩ := ok_of_bind hrun
  cases arg_key harg
  rw [findNode_bind h hkey] at hrun
  rcases validateHmnode_cases out (g.nodeOf (keyOf cmd)) .bitmap with ⟨mes, ret, hval⟩ | ⟨n, hn, htype, hval⟩
  · rw [hval] at hrun
    cases hrun
    exact .refused _ _
  · rw [hval, hn] at hrun
    rcases n with ⟨hcode, nkey, addr, payload⟩
    cases payload with
    | bitmap bitmap =>
      dsimp only at hrun
      split at hrun
      · cases hrun
        exact .refused _ _
      · obtain ⟨byte, -, hrun⟩ := ok_of_bind hrun
        cases hrun
        exact .replied _ (prefix_outInt _ _)
    | _ => cases htype

theorem doBitcount_outcome (h : g.WF) (hkey : Short (keyOf cmd)) (hrun : doBitcount g out cmd = .ok r) :
    Outcome env g out cmd .bitcount r.data r.out := by
  replace hrun := lookup_of_run h hkey hrun
  rcases validateHmnode_cases out (g.nodeOf (keyOf cmd)) .bitmap with ⟨mes, ret, hval⟩ | ⟨n, hn, htype, hval⟩
  · rw [hval] at hrun
    cases hrun
    exact .refused _ _
  · rw [hval, hn] at hrun
    rcases n with ⟨hcode, nkey, addr, payload⟩
    cases payload with
    | bitmap bitmap =>
      dsimp only at hrun
      generalize (cmd.length == 5 && strEq (cmd.getD 4 []) (text "BYTE")) = isByteMode at hrun
      cases isByteMode with
      | true =>
        obtain ⟨ret, -, hrun⟩ := ok_of_bind hrun
        cases hrun
        exact .replied _ (prefix_outInt _ _)
      | false =>
        obtain ⟨ret, -, hrun⟩ := ok_of_bind hrun
        cases hrun
        exact .replied _ (prefix_outInt _ _)
    | _ => cases htype

/-! ### HyperLogLogs -/

theorem doPfadd_outcome (h : g.WF) (hkey : Short (keyOf cmd)) (hrun : doPfadd env g out cmd = .ok r) :
    Outcome env g out cmd .pfadd r.data r.out := by
  obtain ⟨key, harg, hrun⟩ := ok_of_bind hrun
  obtain ⟨val, -, hrun⟩ := ok_of_bind hrun
  cases arg_key harg
  apply upsert_outcome (c := .pfadd) h hkey (by trivial) hrun
  rintro g₁ ⟨hcode, nkey, addr, payload⟩ hstep
  cases payload with
  | hll hll =>
    dsimp only at hstep
    obtain ⟨⟨hll', isAdded⟩, -, hstep⟩ := ok_of_bind hstep
    dsimp only at hstep
    obtain ⟨g', hput, hstep⟩ := ok_of_bind hstep
    cases hstep
    exact .inl ⟨rfl, prefix_outInt _ _, .hll hll', rfl, fun _ => trivial, hput⟩
  | _ =>
    cases hstep
    exact .inr ⟨nofun, rfl, _, rfl⟩

theorem doPfcount_outcome (h : g.WF) (hkey : Short (keyOf cmd)) (hrun : doPfcount env g out cmd = .ok r) :
    Outcome env g out cmd .pfcount r.data r.out := by
  replace hrun := lookup_of_run h hkey hrun
  rcases validateHmnode_cases out (g.nodeOf (keyOf cmd)) .hll with ⟨mes, ret, hval⟩ | ⟨n, hn, htype, hval⟩
  · rw [hval] at hrun
    cases hrun
    exact .refused _ _
  · rw [hval, hn] at hrun
    rcases n with ⟨hcode, nkey, addr, payload⟩
    cases payload with
    | hll hll =>
      dsimp only at hrun
      obtain ⟨⟨hll', count⟩, -, hrun⟩ := ok_of_bind hrun
      dsimp only at hrun
      obtain ⟨g', hput, hrun⟩ := ok_of_bind hrun
      cases hrun
      exact written_of_put h hkey hn hput rfl (fun _ => trivial) (prefix_outInt _ _)
    | _ => cases htype

/-! ### All commands -/

theorem runCommand_outcome (h : g.WF) (hkey : Short (keyOf cmd)) (hfield : Short (cmd.getD 2 [])) {c : Command}
    (hrun : runCommand env g out cmd c = .ok r) : Outcome env g out cmd c r.data r.out := by
  cases c with
  | get => exact doGet_outcome h hkey hrun
  | set => exact doSet_outcome h hkey hrun
  | del => exact doDel_outcome h hkey hrun
  | keys => exact doKeys_outcome hrun
  | hset => exact doHset_outcome h hkey hrun
  | hget => exact doHget_outcome h hkey hrun
  | hgetall => exact doHgetall_outcome h hkey hrun
  | hdel => exact doHdel_outcome h hkey hfield hrun
  | expire => exact doExpire_outcome h hkey hrun
  | ttl => exact doTtl_outcome h hkey hrun
  | persist => exact doPersist_outcome h hkey hrun
  | zadd => exact doZadd_outcome h hkey hrun
  | zscore => exact doZscore_outcome hrun
  | zrem => exact doZrem_outcome h hkey hrun
  | zquery => exact doZrangequery_outcome hrun
  | lpush => exact doPush_outcome h hkey trivial rfl hrun
  | rpush => exact doPush_outcome h hkey trivial rfl hrun
  | lpop => exact doPop_outcome h hkey hrun
  | rpop => exact doPop_outcome h hkey hrun
  | lrange => exact doLrange_outcome h hkey hrun
  | sadd => exact doSadd_outcome h hkey hrun
  | srem => exact doSrem_outcome h hkey hrun
  | smembers => exact doSmembers_outcome h hkey hrun
  | scard => exact doScard_outcome h hkey hrun
  | setbit => exact doSetbit_outcome h hkey hrun
  | getbit => exact doGetbit_outcome h hkey hrun
  | bitcount => exact doBitcount_outcome h hkey hrun
  | pfadd => exact doPfadd_outcome h hkey hrun
  | pfcount => exact doPfcount_outcome h hkey hrun
  | pfmerge => cases hrun
  | todo =>
    cases hrun
    exact .replied _ (List.prefix_refl _)
  | unknown =>
    cases hrun
    exact .refused _ _

end Handlers

end CustomRedis
