import CustomRedis.Proof.Reachable
import CustomRedis.Proof.Frames
import CustomRedis.Proof.Zset

/-!
# The keyspace of strings is a finite map

`SET`, `GET`, `DEL` and `KEYS` on keys without a zero byte. The database stands for a map from keys to
values: its nodes are the entries of the map, in whatever table and chain they are linked. Each command takes
the map to another map and answers from it, and the migration that an insert makes on the way does not
matter, since a string has nothing to tear down.
-/

namespace CustomRedis

open KeyedList
open Run (ok_bind ok_of_bind check exists_ok_of_check)

/-- A map from keys to values. -/
abbrev KvMap := Bytes → Option Bytes

/-- The map behind a command. -/
def kvStep (m : KvMap) (cmd : List Bytes) : KvMap :=
  match commandOf cmd with
  | .set => Function.update m (keyOf cmd) (some (cmd.getD 2 []))
  | .del => Function.update m (keyOf cmd) none
  | _ => m

/-- The replies to a command that the map allows. The order of the keys is left open. -/
def KvReply (m : KvMap) (out : Bytes) (cmd : List Bytes) (reply : Bytes) : Prop :=
  match commandOf cmd with
  | .get =>
    match m (keyOf cmd) with
    | some val => reply = outStr out val
    | none => reply = outNotFound out
  | .set => reply = outNull out
  | .del => reply = if (m (keyOf cmd)).isSome then outNull out else outErr out "node does not exist"
  | _ => ∃ keys : List Bytes, keys.Nodup ∧ (∀ key, key ∈ keys ↔ (m key).isSome) ∧
      reply = outStrs (outArr out keys.length) keys

/-- One of the four commands, with a key without a zero byte, within the limit of the client. -/
structure KvRequest (r : Request) : Prop where
  command : commandOf r.tokens ∈ [Command.get, .set, .del, .keys]
  key : 0 ∉ keyOf r.tokens
  size : messageSize r.tokens ≤ clientMaxMessageLen

/-! ### The strings -/

/-- The capacity that no string exceeds when no value is longer than a message. -/
def kvCap : Nat := 3 * clientMaxMessageLen

/-- Filling a fresh string. The `free` field grows by more than what was added, but at most to three times it. -/
theorem dstrAppend_fresh {cap : Nat} {val : Bytes} (hcap : cap ≤ kvCap) (hval : val.length ≤ clientMaxMessageLen) :
    ∃ str, dstrAppend ⟨[], cap, sizeofDstr + cap + 1⟩ val = .ok (str, .ok) ∧ str.buf = val ∧ dstrCap str ≤ kvCap := by
  unfold kvCap clientMaxMessageLen at *
  have hlarge : ¬val.length + dstrCap ⟨[], cap, sizeofDstr + cap + 1⟩ > maxStrSize := by
    simp only [dstrCap, Dstr.size, List.length_nil, maxStrSize]
    omega
  rw [dstrAppend, if_neg hlarge]
  by_cases hfree : cap < val.length
  · have hmin : min maxStrPrealoc (0 + cap + val.length) = 0 + cap + val.length := by
      unfold maxStrPrealoc
      omega
    simp only [if_pos hfree, Dstr.size, List.length_nil, hmin]
    rw [if_pos (by omega)]
    refine ⟨_, rfl, rfl, ?_⟩
    simp only [dstrCap, Dstr.size, List.nil_append]
    omega
  · simp only [if_neg hfree, Dstr.size, List.length_nil]
    rw [if_pos (by omega)]
    refine ⟨_, rfl, rfl, ?_⟩
    simp only [dstrCap, Dstr.size, List.nil_append]
    omega

theorem newStr_spec {val : Bytes} (hval : val.length ≤ clientMaxMessageLen) :
    ∃ str, newStr val = .ok str ∧ str.buf = val ∧ dstrCap str ≤ kvCap := by
  obtain ⟨str, happ, hbuf, hcap⟩ := dstrAppend_fresh (Nat.zero_le _) hval
  refine ⟨str, ?_, hbuf, hcap⟩
  rw [newStr, dstrInit_eq (Nat.zero_le _)]
  simp only [happ, bind, Except.bind]

theorem dstrAssign_spec {old : Dstr} {val : Bytes} (hold : dstrCap old ≤ kvCap) (hval : val.length ≤ clientMaxMessageLen) :
    ∃ str, dstrAssign old val = .ok (str, .ok) ∧ str.buf = val ∧ dstrCap str ≤ kvCap := by
  obtain ⟨str, happ, hbuf, hcap⟩ := dstrAppend_fresh hold hval
  have hlimit : dstrCap old ≤ maxStrSize := hold.trans (by decide)
  refine ⟨str, ?_, hbuf, hcap⟩
  rw [dstrAssign, dstrInit_eq hlimit]
  simp only [happ, bind, Except.bind]
  rfl

/-! ### The map -/

/-- A node that stands for an entry of the map. -/
structure KvNode (m : KvMap) (n : HNode Entry) : Prop where
  hash : n.hcode = strHash n.key
  noNul : 0 ∉ n.key
  val : ∃ str, n.val.payload = .str str ∧ dstrCap str ≤ kvCap ∧ m n.key = some str.buf

/-- The database stands for a map. -/
structure Holds (g : GlobalData) (m : KvMap) : Prop where
  wf : g.WF
  nodes : ∀ n ∈ g.db.nodes, KvNode m n
  total : ∀ key val, m key = some val → ∃ n ∈ g.db.nodes, n.key = key

theorem Holds.start : Holds {} fun _ => none := ⟨GlobalData.WF.empty, nofun, nofun⟩

theorem KvNode.ident {m : KvMap} {n : HNode Entry} (h : KvNode m n) : n.ident = keyId n.key := by
  rw [HNode.ident, h.hash]
  rfl

/-- Looking a key up in the database is looking it up in the map. -/
theorem Holds.nodeOf_cases {g : GlobalData} {m : KvMap} (h : Holds g m) {key : Bytes} (hkey : 0 ∉ key) :
    (g.nodeOf key = none ∧ m key = none) ∨
      ∃ n str, g.nodeOf key = some n ∧ n ∈ g.db.nodes ∧ n.key = key ∧ n.val.payload = .str str ∧
        dstrCap str ≤ kvCap ∧ m key = some str.buf := by
  cases hn : g.nodeOf key with
  | none =>
    refine .inl ⟨rfl, ?_⟩
    cases hm : m key with
    | none => rfl
    | some val =>
      obtain ⟨n, hmem, rfl⟩ := h.total key val hm
      have hfind := (GlobalData.nodeOf_eq_some h.wf).mpr ⟨hmem, (h.nodes n hmem).ident⟩
      exact absurd (hn.symm.trans hfind) (Option.some_ne_none _).symm
  | some n =>
    obtain ⟨hmem, hid⟩ := (GlobalData.nodeOf_eq_some h.wf).mp hn
    have hnode := h.nodes n hmem
    rw [hnode.ident, keyId_inj hnode.noNul hkey] at hid
    obtain ⟨str, hpayload, hcap, hm⟩ := hnode.val
    exact .inr ⟨n, str, rfl, hmem, hid, hpayload, hcap, hid ▸ hm⟩

/-! ### The commands -/

section Commands

variable {g : GlobalData} {m : KvMap} {cmd : List Bytes}

theorem doGet_holds (h : Holds g m) (hlen : cmd.length = 2) (hshort : Short (keyOf cmd)) (hkey : 0 ∉ keyOf cmd)
    (out : Bytes) :
    ∃ reply ret, doGet g out cmd = .ok ⟨g, reply, ret⟩ ∧
      reply = match m (keyOf cmd) with
        | some val => outStr out val
        | none => outNotFound out := by
  rw [doGet, arg_one (by omega), ok_bind, findNode_bind h.wf hshort]
  rcases h.nodeOf_cases hkey with ⟨hn, hm⟩ | ⟨n, str, hn, -, -, hpayload, -, hm⟩
  · rw [hn, hm]
    exact ⟨_, _, rfl, rfl⟩
  · simp only [hn, hm, hpayload]
    exact ⟨_, _, rfl, rfl⟩

/-- Inserting a string only adds its node. -/
theorem Inserted.nodes_of_strs {env : Env} {g' : GlobalData} {key : Bytes} {str : Dstr} (h : Holds g m)
    (hi : Inserted env g key (.str str) g') : g'.db.nodes.Perm (freshNode g key (.str str) :: g.db.nodes) := by
  have hkeep : ∀ n ∈ freshNode g key (.str str) :: g.db.nodes,
      afterInsert g.db (freshNode g key (.str str)) n = id n := by
    intro n hn
    apply afterInsert_bare
    rcases List.mem_cons.mp hn with rfl | hn
    · exact fun _ => ⟨rfl, rfl⟩
    · obtain ⟨val, hpayload, -⟩ := (h.nodes n hn).val
      rw [hpayload]
      exact fun _ => ⟨rfl, rfl⟩
  have hperm := hi.nodes
  rwa [List.map_congr_left hkeep, List.map_id] at hperm

theorem KvNode.update {n : HNode Entry} (h : KvNode m n) {key : Bytes} (hne : n.key ≠ key) (val : Option Bytes) :
    KvNode (Function.update m key val) n := by
  obtain ⟨str, hpayload, hcap, hm⟩ := h.val
  exact ⟨h.hash, h.noNul, str, hpayload, hcap, by rw [Function.update_of_ne hne, hm]⟩

theorem doSet_holds (h : Holds g m) (env : Env) (hlen : cmd.length = 3) (hshort : Short (keyOf cmd))
    (hkey : 0 ∉ keyOf cmd) (hval : (cmd.getD 2 []).length ≤ clientMaxMessageLen) (out : Bytes) :
    ∃ g' ret, doSet env g out cmd = .ok ⟨g', outNull out, ret⟩ ∧
      Holds g' (Function.update m (keyOf cmd) (some (cmd.getD 2 []))) := by
  rw [doSet, arg_one (by omega), arg_eq_getD (by omega), ok_bind, ok_bind, findNode_bind h.wf hshort]
  rcases h.nodeOf_cases hkey with ⟨hn, hm⟩ | ⟨n, old, hn, hmem, hnkey, hpayload, hcap, hm⟩
  · -- the key is new
    obtain ⟨str, hnew, hbuf, hcap⟩ := newStr_spec hval
    obtain ⟨g', hi⟩ := insertNode_spec env h.wf hshort hn (.str str)
    have hperm := hi.nodes_of_strs h
    simp only [hn, hnew, ok_bind, hi.run]
    refine ⟨g', _, rfl, hi.wf, fun x hx => ?_, fun key val hkv => ?_⟩
    · rcases List.mem_cons.mp (hperm.mem_iff.mp hx) with rfl | hx
      · exact ⟨rfl, hkey, str, rfl, hcap, by rw [hbuf]; exact Function.update_self _ _ _⟩
      · apply (h.nodes x hx).update
        intro heq
        obtain ⟨val, -, -, hxm⟩ := (h.nodes x hx).val
        rw [heq, hm] at hxm
        cases hxm
    · by_cases heq : key = keyOf cmd
      · exact ⟨freshNode g (keyOf cmd) (.str str), hperm.mem_iff.mpr List.mem_cons_self, heq.symm⟩
      · rw [Function.update_of_ne heq] at hkv
        obtain ⟨x, hx, hxkey⟩ := h.total key val hkv
        exact ⟨x, hperm.mem_iff.mpr (List.mem_cons_of_mem _ hx), hxkey⟩
  · -- the node of the key gets a new string
    obtain ⟨str, hassign, hbuf, hcap'⟩ := dstrAssign_spec hcap hval
    obtain ⟨g', hw⟩ := putPayload_spec h.wf hshort hn (.str str)
    simp only [hn, hpayload, hassign, ok_bind, hw.run]
    refine ⟨g', _, rfl, hw.wf, fun x hx => ?_, fun key val hkv => ?_⟩
    · rw [hw.nodes] at hx
      obtain ⟨y, hy, rfl⟩ := List.mem_map.mp hx
      have hynode := h.nodes y hy
      have hid : y.ident = keyId (keyOf cmd) ↔ y.key = keyOf cmd := by
        rw [hynode.ident]
        exact keyId_inj hynode.noNul hkey
      by_cases hyid : y.ident = keyId (keyOf cmd)
      · rw [if_pos hyid]
        refine ⟨hynode.hash, hynode.noNul, str, rfl, hcap', ?_⟩
        rw [hbuf, hid.mp hyid]
        exact Function.update_self _ _ _
      · rw [if_neg hyid]
        exact hynode.update (mt hid.mpr hyid) _
    · have hthere : ∃ x ∈ g.db.nodes, x.key = key := by
        by_cases heq : key = keyOf cmd
        · exact ⟨n, hmem, hnkey.trans heq.symm⟩
        · rw [Function.update_of_ne heq] at hkv
          exact h.total key val hkv
      obtain ⟨x, hx, hxkey⟩ := hthere
      rw [hw.nodes]
      refine ⟨_, List.mem_map_of_mem hx, ?_⟩
      split
      · exact hxkey
      · exact hxkey

theorem doDel_holds (h : Holds g m) (hlen : cmd.length = 2) (hshort : Short (keyOf cmd)) (hkey : 0 ∉ keyOf cmd)
    (out : Bytes) :
    ∃ g' reply ret, doDel g out cmd = .ok ⟨g', reply, ret⟩ ∧ Holds g' (Function.update m (keyOf cmd) none) ∧
      reply = if (m (keyOf cmd)).isSome then outNull out else outErr out "node does not exist" := by
  obtain ⟨tmp, hcopy, hbuf⟩ := dstrCopy_ok hshort
  rw [doDel, arg_one (by omega), ok_bind, hcopy, ok_bind, hbuf, Probe.mk_some]
  rcases h.nodeOf_cases hkey with ⟨hn, hm⟩ | ⟨n, str, hn, hmem, hnkey, -, -, hm⟩
  · rcases deleteNode_spec h.wf (strHash (keyOf cmd)) (keyOf cmd) with ⟨-, hdel⟩ | ⟨n, g', hfind, -⟩
    · rw [hdel, hm]
      refine ⟨g, _, _, rfl, ?_, rfl⟩
      rwa [show Function.update m (keyOf cmd) none = m by rw [← hm, Function.update_eq_self]]
    · exact absurd (hn.symm.trans hfind) (Option.some_ne_none _).symm
  · rcases deleteNode_spec h.wf (strHash (keyOf cmd)) (keyOf cmd) with ⟨hnone, -⟩ | ⟨n', g', hfind, hdel, hd⟩
    · exact absurd (hn.symm.trans hnone) (Option.some_ne_none _)
    · cases hn.symm.trans hfind
      have hnid : n.ident = keyId n.key := (h.nodes n hmem).ident
      rw [hdel, hm]
      refine ⟨g', _, _, rfl, ⟨hd.wf, fun x hx => ?_, fun key val hkv => ?_⟩, rfl⟩
      · rw [hd.nodes] at hx
        obtain ⟨hx, hne⟩ := List.mem_filter.mp hx
        apply (h.nodes x hx).update
        intro heq
        apply of_decide_eq_true hne
        rw [(h.nodes x hx).ident, hnid, heq, hnkey]
      · by_cases heq : key = keyOf cmd
        · rw [heq, Function.update_self] at hkv
          cases hkv
        · rw [Function.update_of_ne heq] at hkv
          obtain ⟨x, hx, hxkey⟩ := h.total key val hkv
          refine ⟨x, ?_, hxkey⟩
          rw [hd.nodes]
          refine List.mem_filter.mpr ⟨hx, decide_eq_true fun hid => heq ?_⟩
          rw [(h.nodes x hx).ident, hnid, keyId_inj (h.nodes x hx).noNul (h.nodes n hmem).noNul] at hid
          rw [← hxkey, hid, hnkey]

theorem Holds.keys (h : Holds g m) :
    (hmKeys g.db).Nodup ∧ ∀ key, key ∈ hmKeys g.db ↔ (m key).isSome := by
  rw [hmKeys_eq]
  constructor
  · apply List.Nodup.map_on ?_ (List.Nodup.of_map _ h.wf.db.distinct)
    intro x hx y hy hkey
    apply h.wf.db.distinct.eq_of_key_eq hx hy
    rw [(h.nodes x hx).ident, (h.nodes y hy).ident, hkey]
  · intro key
    constructor
    · intro hin
      obtain ⟨n, hn, rfl⟩ := List.mem_map.mp hin
      obtain ⟨str, -, -, hm⟩ := (h.nodes n hn).val
      rw [hm]
      rfl
    · intro hsome
      obtain ⟨val, hm⟩ := Option.isSome_iff_exists.mp hsome
      obtain ⟨n, hn, hkey⟩ := h.total key val hm
      exact hkey ▸ List.mem_map_of_mem hn

end Commands

/-! ### Runs -/

/-- One command on the database is one command on the map. -/
theorem respond_holds {g : GlobalData} {m : KvMap} (h : Holds g m) (env : Env) {r : Request} (hr : KvRequest r) :
    ∃ g' reply, respond env g r = .ok (g', reply) ∧ Holds g' (kvStep m r.tokens) ∧
      KvReply m (beforeResBuild []).1 r.tokens reply := by
  have hshort := r.short_key
  have hkey := hr.key
  unfold kvStep KvReply
  generalize hc : commandOf r.tokens = c
  have hmem := hr.command
  rw [hc] at hmem
  simp only [List.mem_cons, List.not_mem_nil, or_false] at hmem
  rcases hmem with rfl | rfl | rfl | rfl
  · have hlen : r.tokens.length = 2 := commandOf_arity hc
    obtain ⟨reply, ret, hrun, hreply⟩ := doGet_holds h hlen hshort hkey (beforeResBuild []).1
    refine ⟨g, reply, respond_of_run hc (by omega) hrun, h, ?_⟩
    dsimp only
    rw [hreply]
    cases m (keyOf r.tokens) with
    | none => rfl
    | some val => rfl
  · have hlen : r.tokens.length = 3 := commandOf_arity hc
    have hval : (r.tokens.getD 2 []).length ≤ clientMaxMessageLen := by
      rw [List.getD_eq_getElem?_getD, List.getElem?_eq_getElem (show 2 < r.tokens.length by omega)]
      exact (le_messageSize (List.getElem_mem _)).trans hr.size
    obtain ⟨g', ret, hrun, hholds⟩ := doSet_holds h env hlen hshort hkey hval (beforeResBuild []).1
    exact ⟨g', _, respond_of_run hc (by omega) hrun, hholds, rfl⟩
  · have hlen : r.tokens.length = 2 := commandOf_arity hc
    obtain ⟨g', reply, ret, hrun, hholds, hreply⟩ := doDel_holds h hlen hshort hkey (beforeResBuild []).1
    exact ⟨g', reply, respond_of_run hc (by omega) hrun, hholds, hreply⟩
  · have hlen : r.tokens.length = 1 := commandOf_arity hc
    exact ⟨g, _, respond_of_run hc (by omega) rfl, h, hmKeys g.db, h.keys.1, h.keys.2, rfl⟩

/-- The values of the last `SET` of each key that is not followed by its `DEL`. -/
def lastValues (requests : List (Env × Request)) : KvMap :=
  requests.foldl (fun m e => kvStep m e.2.tokens) fun _ => none

/-- After any run of the four commands, whatever migrations it has started, every command is answered as the map
of the last values answers it. -/
theorem keyspace_refines_map (requests : List (Env × Request)) (hreq : ∀ e ∈ requests, KvRequest e.2) :
    ∃ g, Run.run serverStep {} (requests.map fun e => .request e.1 e.2) = .ok g ∧
      ∀ env r, KvRequest r → ∃ g' reply, respond env g r = .ok (g', reply) ∧
        KvReply (lastValues requests) (beforeResBuild []).1 r.tokens reply := by
  have hstep : ∀ g m (e : Env × Request), Holds g m → KvRequest e.2 →
      ∃ g', serverStep g (.request e.1 e.2) = .ok g' ∧ Holds g' (kvStep m e.2.tokens) := by
    intro g m e h hr
    obtain ⟨g', reply, hrun, hholds, -⟩ := respond_holds h e.1 hr
    refine ⟨g', ?_, hholds⟩
    rw [serverStep, hrun]
    rfl
  obtain ⟨g, hrun, hholds⟩ := Run.simulate hstep Holds.start hreq
  refine ⟨g, (Run.run_map serverStep _ _ _).trans hrun, fun env r hr => ?_⟩
  obtain ⟨g', reply, hres, -, hreply⟩ := respond_holds hholds env hr
  exact ⟨g', reply, hres, hreply⟩

/-- Setting the keys that are the forty characters from `0` on. -/
def fortySets : List (Env × Request) :=
  (List.range 40).map fun i => ({}, .ofTexts ["SET", String.singleton (Char.ofNat (48 + i)), "v"])

/-- Forty keys, which start a migration, and the first of them read back. -/
theorem keyspace_refines_map_migrating :
    ∃ g g' reply, Run.run serverStep {} (fortySets.map fun e => .request e.1 e.2) = .ok g ∧
      respond {} g (.ofTexts ["GET", "0"]) = .ok (g', reply) ∧
      reply = outStr (beforeResBuild []).1 (text "v") := by
  have hset : ∀ e ∈ fortySets, commandOf e.2.tokens ∈ [Command.get, .set, .del, .keys] ∧
      0 ∉ keyOf e.2.tokens ∧ messageSize e.2.tokens ≤ clientMaxMessageLen := by
    decide +kernel
  obtain ⟨g, hrun, hnext⟩ := keyspace_refines_map fortySets
    fun e he => ⟨(hset e he).1, (hset e he).2.1, (hset e he).2.2⟩
  obtain ⟨g', reply, hres, hreply⟩ := hnext {} (.ofTexts ["GET", "0"])
    ⟨by decide +kernel, by decide +kernel, by decide +kernel⟩
  refine ⟨g, g', reply, hrun, hres, ?_⟩
  have hcommand : commandOf (Request.ofTexts ["GET", "0"]).tokens = .get := by decide +kernel
  have hlast : lastValues fortySets (keyOf (Request.ofTexts ["GET", "0"]).tokens) = some (text "v") := by
    decide +kernel
  simpa only [KvReply, hcommand, hlast] using hreply

end CustomRedis
