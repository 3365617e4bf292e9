import CustomRedis.Lib.Agree
import CustomRedis.Proof.ScoreRuns
import CustomRedis.Proof.KeyValue

/-!
# Keys are independent

What a command on one key does and replies depends on the database only through the payload of that key. So the other
keys do not matter: a run looks from one key like the run of the requests on that key alone. The exception is the node
that is torn down because the insert of another key moves it, which hashes and sorted sets notice.
-/

namespace CustomRedis

open Run

/-- Two databases in which one key has the same payload. -/
structure Alike (key : Bytes) (g g' : GlobalData) : Prop where
  wf : g.WF
  wf' : g'.WF
  payload : g.payloadOf key = g'.payloadOf key

/-- The same reply, and databases in which the key has the same payload. -/
structure AlikeResult (key : Bytes) (r r' : Result) : Prop where
  data : Alike key r.data r'.data
  out : r.out = r'.out
  ret : r.ret = r'.ret

/-! ### Operations on the key -/

section Operations

variable {key : Bytes} {g g' : GlobalData} {β : Type} {S : β → β → Prop}

theorem alike_ok (h : Alike key g g') (out : Bytes) (ret : ReturnVal) :
    Agree (AlikeResult key) (.ok ⟨g, out, ret⟩ : M Result) (.ok ⟨g', out, ret⟩) :=
  .ok ⟨h, rfl, rfl⟩

theorem Alike.nodeOf_none (h : Alike key g g') (hn : g.nodeOf key = none) : g'.nodeOf key = none := by
  rw [← payloadOf_eq_none] at hn ⊢
  exact h.payload.symm.trans hn

theorem Alike.nodeOf_some (h : Alike key g g') {n : HNode Entry} (hn : g.nodeOf key = some n) :
    ∃ n', g'.nodeOf key = some n' ∧ n'.val.payload = n.val.payload := by
  have hp := h.payload
  rw [payloadOf_of_nodeOf hn] at hp
  exact nodeOf_of_payloadOf hp.symm

theorem agree_findNode (h : Alike key g g') (hkey : Short key) {f f' : Option (HNode Entry) → M β}
    (hnone : g.nodeOf key = none → g'.nodeOf key = none → Agree S (f none) (f' none))
    (hsome : ∀ n n', g.nodeOf key = some n → g'.nodeOf key = some n' → n'.val.payload = n.val.payload →
      Agree S (f (some n)) (f' (some n'))) : Agree S (findNode g key >>= f) (findNode g' key >>= f') := by
  rw [findNode_bind h.wf hkey, findNode_bind h.wf' hkey]
  cases hn : g.nodeOf key with
  | none =>
    rw [h.nodeOf_none hn]
    exact hnone hn (h.nodeOf_none hn)
  | some n =>
    obtain ⟨n', hn', hp⟩ := h.nodeOf_some hn
    rw [hn']
    exact hsome n n' hn hn' hp

theorem agree_put (h : Alike key g g') (hkey : Short key) {n n' : HNode Entry} (hn : g.nodeOf key = some n)
    (hn' : g'.nodeOf key = some n') (p : Payload) : Agree (Alike key) (putPayload g key p) (putPayload g' key p) := by
  obtain ⟨g₁, hput, hwf, hp⟩ := putPayload_payloadOf h.wf hkey hn p
  obtain ⟨g₁', hput', hwf', hp'⟩ := putPayload_payloadOf h.wf' hkey hn' p
  rw [hput, hput']
  exact .ok ⟨hwf, hwf', hp.trans hp'.symm⟩

/-- What two commands find or insert. -/
structure AlikeNodes (key : Bytes) (a b : GlobalData × HNode Entry) : Prop where
  data : Alike key a.1 b.1
  stored : a.1.payloadOf key = some a.2.val.payload
  payload : b.2.val.payload = a.2.val.payload

theorem AlikeNodes.put {a b : GlobalData × HNode Entry} (h : AlikeNodes key a b) (hkey : Short key) (p : Payload) :
    Agree (Alike key) (putPayload a.1 key p) (putPayload b.1 key p) := by
  obtain ⟨n, hn, -⟩ := nodeOf_of_payloadOf h.stored
  obtain ⟨n', hn', -⟩ := h.data.nodeOf_some hn
  exact agree_put h.data hkey hn hn' p

theorem agree_findOrInsert (env : Env) (h : Alike key g g') (hkey : Short key) {new : Payload} (hbare : new.Bare) :
    Agree (AlikeNodes key) (findOrInsert env g key new) (findOrInsert env g' key new) := by
  obtain ⟨g₁, n, hup⟩ := findOrInsert_upserted env h.wf hkey new hbare
  obtain ⟨g₁', n', hup'⟩ := findOrInsert_upserted env h.wf' hkey new hbare
  have hpayload : n'.val.payload = n.val.payload := by
    rw [hup.payload, hup'.payload, h.payload]
  rw [hup.run, hup'.run]
  refine .ok ⟨⟨hup.wf, hup'.wf, ?_⟩, hup.stored, hpayload⟩
  rw [hup.stored, hup'.stored, hpayload]

theorem findZset_alike (h : Alike key g g') (hkey : Short key) : findZset g key = findZset g' key := by
  cases hn : g.nodeOf key with
  | none => rw [findZset_absent h.wf hkey hn, findZset_absent h.wf' hkey (h.nodeOf_none hn)]
  | some n =>
    obtain ⟨n', hn', hp⟩ := h.nodeOf_some hn
    rw [findZset, findZset, findNode_bind h.wf hkey, findNode_bind h.wf' hkey, hn, hn']
    dsimp only
    rw [hp]

/-- The node of the key is deleted by any probe with its identity. -/
theorem agree_delete (h : Alike key g g') {p : Payload} (hp : g.payloadOf key = some p) {hcode hcode' : UInt64}
    {key₁ key₁' : Bytes} (hid : (hcode, cstr key₁) = keyId key) (hid' : (hcode', cstr key₁') = keyId key) :
    Agree (fun a b => Alike key a.1 b.1 ∧ a.2 = b.2) (deleteNode g ⟨hcode, some key₁⟩) (deleteNode g' ⟨hcode', some key₁'⟩) := by
  obtain ⟨g₁, hdel, hwf, hnone⟩ := deleteNode_payloadOf h.wf hp hid
  obtain ⟨g₁', hdel', hwf', hnone'⟩ := deleteNode_payloadOf h.wf' (h.payload ▸ hp) hid'
  rw [Probe.mk_some, hdel, Probe.mk_some, hdel']
  exact .ok ⟨⟨hwf, hwf', hnone.trans hnone'.symm⟩, rfl⟩

end Operations

/-! ### Handlers -/

section Handlers

variable {env : Env} {g g' : GlobalData} {out : Bytes} {cmd : List Bytes}

theorem agree_key {β : Type} {S : β → β → Prop} {f f' : Bytes → M β} (h : Agree S (f (keyOf cmd)) (f' (keyOf cmd))) :
    Agree S (arg cmd 1 >>= f) (arg cmd 1 >>= f') := by
  cases harg : arg cmd 1 with
  | error e => exact .error e
  | ok key =>
    cases arg_key harg
    exact h

theorem doGet_alike (h : Alike (keyOf cmd) g g') (hkey : Short (keyOf cmd)) :
    Agree (AlikeResult (keyOf cmd)) (doGet g out cmd) (doGet g' out cmd) := by
  unfold doGet
  refine agree_key (agree_findNode h hkey (fun _ _ => alike_ok h _ _) fun n n' _ _ hp => ?_)
  obtain ⟨hcode, key, addr, payload⟩ := n
  obtain ⟨hcode', key', addr', payload'⟩ := n'
  cases hp
  cases payload with
  | str val => exact alike_ok h _ _
  | _ => exact .error _

theorem insertNode_alike (h : Alike (keyOf cmd) g g') (hkey : Short (keyOf cmd)) (hn : g.nodeOf (keyOf cmd) = none) {p : Payload}
    (hbare : p.Bare) :
    Agree (Alike (keyOf cmd)) (insertNode env g (keyOf cmd) p) (insertNode env g' (keyOf cmd) p) := by
  obtain ⟨g₁, hi⟩ := insertNode_spec env h.wf hkey hn p
  obtain ⟨g₁', hi'⟩ := insertNode_spec env h.wf' hkey (h.nodeOf_none hn) p
  rw [hi.run, hi'.run]
  refine .ok ⟨hi.wf, hi'.wf, ?_⟩
  rw [payloadOf_of_nodeOf (hi.nodeOf hbare), payloadOf_of_nodeOf (hi'.nodeOf hbare)]
  rfl

theorem doSet_alike (h : Alike (keyOf cmd) g g') (hkey : Short (keyOf cmd)) :
    Agree (AlikeResult (keyOf cmd)) (doSet env g out cmd) (doSet env g' out cmd) := by
  unfold doSet
  refine agree_key (agree_bind_same _ fun val => agree_findNode h hkey (fun hn hn' => ?_) fun n n' hn hn' hp => ?_)
  · refine agree_bind_same _ fun new => ?_
    have hbare : (Payload.str new).Bare := bare_of_type nofun nofun
    exact (insertNode_alike h hkey hn hbare).bind fun g₁ g₁' h₁ => alike_ok h₁ _ _
  · obtain ⟨hcode, key, addr, payload⟩ := n
    obtain ⟨hcode', key', addr', payload'⟩ := n'
    cases hp
    cases payload with
    | str old =>
      refine agree_bind_same _ fun new => ?_
      exact (agree_put h hkey hn hn' _).bind fun g₁ g₁' h₁ => alike_ok h₁ _ _
    | _ => exact .error _

theorem doDel_alike (h : Alike (keyOf cmd) g g') (hkey : Short (keyOf cmd)) :
    Agree (AlikeResult (keyOf cmd)) (doDel g out cmd) (doDel g' out cmd) := by
  unfold doDel
  obtain ⟨tmp, hcopy, hbuf⟩ := dstrCopy_ok hkey
  refine agree_key ?_
  rw [hcopy, ok_bind, ok_bind, hbuf]
  cases hp : g.payloadOf (keyOf cmd) with
  | some p =>
    refine (agree_delete h hp rfl rfl).bind fun a b hab => ?_
    obtain ⟨g₁, deleted⟩ := a
    obtain ⟨g₁', deleted'⟩ := b
    obtain ⟨h₁, heq⟩ := hab
    dsimp only at h₁ heq ⊢
    rw [heq]
    cases deleted' with
    | true => exact alike_ok h₁ _ _
    | false => exact alike_ok h₁ _ _
  | none =>
    have hnone : ∀ {g : GlobalData}, g.WF → g.payloadOf (keyOf cmd) = none →
        deleteNode g ⟨strHash (keyOf cmd), some (keyOf cmd)⟩ = .ok (g, false) := by
      intro g hwf hp
      rcases deleteNode_spec hwf (strHash (keyOf cmd)) (keyOf cmd) with ⟨-, hdel⟩ | ⟨n, g₁, hn, -⟩
      · rw [Probe.mk_some, hdel]
      · exact absurd (payloadOf_eq_none.mp hp) (by rw [show g.nodeOf (keyOf cmd) = some n from hn]; exact nofun)
    rw [hnone h.wf hp, hnone h.wf' (h.payload.symm.trans hp)]
    exact alike_ok h _ _

theorem doZadd_alike (h : Alike (keyOf cmd) g g') (hkey : Short (keyOf cmd)) :
    Agree (AlikeResult (keyOf cmd)) (doZadd env g out cmd) (doZadd env g' out cmd) := by
  unfold doZadd
  refine agree_key (agree_bind_same _ fun score => agree_bind_same _ fun member => ?_)
  refine (agree_findOrInsert env h hkey fun _ => ⟨rfl, rfl⟩).bind fun a b hab => ?_
  obtain ⟨g₁, hcode, key, addr, payload⟩ := a
  obtain ⟨g₁', hcode', key', addr', payload'⟩ := b
  cases hab.payload
  cases payload with
  | zset z => exact agree_bind_same _ fun zi => (hab.put hkey _).bind fun g₂ g₂' h₂ => alike_ok h₂ _ _
  | _ => exact alike_ok hab.data _ _

theorem doZscore_alike (h : Alike (keyOf cmd) g g') (hkey : Short (keyOf cmd)) :
    Agree (AlikeResult (keyOf cmd)) (doZscore g out cmd) (doZscore g' out cmd) := by
  unfold doZscore
  refine agree_key (agree_bind_same _ fun member => ?_)
  rw [findZset_alike h hkey]
  refine agree_bind_same _ fun zset => agree_bind_same _ fun z => agree_bind_same _ fun p => ?_
  cases p with
  | none => exact alike_ok h _ _
  | some p => exact agree_bind_same _ fun znode => alike_ok h _ _

theorem doZrem_alike (h : Alike (keyOf cmd) g g') (hkey : Short (keyOf cmd)) :
    Agree (AlikeResult (keyOf cmd)) (doZrem g out cmd) (doZrem g' out cmd) := by
  unfold doZrem
  refine agree_key (agree_bind_same _ fun member => ?_)
  cases hn : g.nodeOf (keyOf cmd) with
  | none =>
    rw [findZset_absent h.wf hkey hn, findZset_absent h.wf' hkey (h.nodeOf_none hn)]
    have hempty : zsetLookup {} member = .ok none := rfl
    simp only [ok_bind, derefZset, hempty]
    exact alike_ok h _ _
  | some n =>
    obtain ⟨n', hn', -⟩ := h.nodeOf_some hn
    rw [findZset_alike h hkey]
    refine agree_bind_same _ fun zset => agree_bind_same _ fun z => agree_bind_same _ fun p => ?_
    cases p with
    | none => exact alike_ok h _ _
    | some p =>
      exact agree_bind_same _ fun z => (agree_put h hkey hn hn' _).bind fun g₁ g₁' h₁ => alike_ok h₁ _ _

theorem doZrangequery_alike (h : Alike (keyOf cmd) g g') (hkey : Short (keyOf cmd)) :
    Agree (AlikeResult (keyOf cmd)) (doZrangequery g out cmd) (doZrangequery g' out cmd) := by
  unfold doZrangequery
  refine agree_key (agree_bind_same _ fun score => agree_bind_same _ fun keyLb => ?_)
  rw [findZset_alike h hkey]
  refine agree_bind_same _ fun zset => agree_bind_same _ fun z => agree_bind_same _ fun lb => ?_
  cases lb with
  | none => exact alike_ok h _ _
  | some lb => exact agree_bind_same _ fun znode => agree_bind_same _ fun res => alike_ok h _ _

theorem doHset_alike (h : Alike (keyOf cmd) g g') (hkey : Short (keyOf cmd)) :
    Agree (AlikeResult (keyOf cmd)) (doHset env g out cmd) (doHset env g' out cmd) := by
  unfold doHset
  refine agree_key (agree_bind_same _ fun field => agree_bind_same _ fun value => ?_)
  refine (agree_findOrInsert env h hkey fun _ => ⟨rfl, rfl⟩).bind fun a b hab => ?_
  obtain ⟨g₁, hcode, key, addr, payload⟩ := a
  obtain ⟨g₁', hcode', key', addr', payload'⟩ := b
  cases hab.payload
  cases payload with
  | hset hmap =>
    refine agree_bind_same _ fun _ => agree_bind_same _ fun found => ?_
    cases found with
    | some n =>
      refine agree_bind_same _ fun val => agree_bind_same _ fun hmap => ?_
      exact (hab.put hkey _).bind fun g₂ g₂' h₂ => alike_ok h₂ _ _
    | none =>
      refine agree_bind_same _ fun fieldKey => agree_bind_same _ fun val => agree_bind_same _ fun res => ?_
      exact (hab.put hkey _).bind fun g₂ g₂' h₂ => alike_ok h₂ _ _
  | _ => exact alike_ok hab.data _ _

theorem doHget_alike (h : Alike (keyOf cmd) g g') (hkey : Short (keyOf cmd)) :
    Agree (AlikeResult (keyOf cmd)) (doHget g out cmd) (doHget g' out cmd) := by
  unfold doHget
  refine agree_key (agree_bind_same _ fun field => ?_)
  refine agree_findNode h hkey (fun _ _ => alike_ok h _ _) fun n n' _ _ hp => ?_
  obtain ⟨hcode, key, addr, payload⟩ := n
  obtain ⟨hcode', key', addr', payload'⟩ := n'
  cases hp
  cases payload with
  | hset hmap =>
    refine agree_bind_same _ fun tmp => agree_bind_same _ fun found => ?_
    cases found with
    | some n => exact alike_ok h _ _
    | none => exact alike_ok h _ _
  | _ => exact alike_ok h _ _

theorem doHdel_alike (h : Alike (keyOf cmd) g g') (hkey : Short (keyOf cmd)) :
    Agree (AlikeResult (keyOf cmd)) (doHdel g out cmd) (doHdel g' out cmd) := by
  unfold doHdel
  refine agree_key (agree_bind_same _ fun field => ?_)
  refine agree_findNode h hkey (fun _ _ => alike_ok h _ _) fun n n' hn hn' hp => ?_
  have hid : ∀ {g : GlobalData} {n : HNode Entry}, g.nodeOf (keyOf cmd) = some n →
      n.ident = keyId (keyOf cmd) := fun hn => KeyedList.key_of_at? hn
  replace hid := And.intro (hid hn) (hid hn')
  obtain ⟨hcode, key, addr, payload⟩ := n
  obtain ⟨hcode', key', addr', payload'⟩ := n'
  cases hp
  cases payload with
  | hset hmap =>
    refine agree_bind_same _ fun tmp => agree_bind_same _ fun res => ?_
    obtain ⟨hmap, deleted, jobs⟩ := res
    cases deleted with
    | false => exact alike_ok h _ _
    | true =>
      obtain ⟨g₁, hput, hwf, hstored⟩ := putPayload_payloadOf h.wf hkey hn (.hset hmap)
      obtain ⟨g₁', hput', hwf', hstored'⟩ := putPayload_payloadOf h.wf' hkey hn' (.hset hmap)
      have h₁ : Alike (keyOf cmd) g₁ g₁' := ⟨hwf, hwf', hstored.trans hstored'.symm⟩
      simp only [if_true, hput, hput', ok_bind]
      refine agree_ite (fun _ => ?_) fun _ => alike_ok h₁ _ _
      exact (agree_delete h₁ hstored hid.1 hid.2).bind fun a b hab => alike_ok hab.1 _ _
  | _ => exact alike_ok h _ _

theorem doHgetall_alike (h : Alike (keyOf cmd) g g') (hkey : Short (keyOf cmd)) :
    Agree (AlikeResult (keyOf cmd)) (doHgetall g out cmd) (doHgetall g' out cmd) := by
  unfold doHgetall
  refine agree_key (agree_findNode h hkey (fun _ _ => alike_ok h _ _) fun n n' _ _ hp => ?_)
  obtain ⟨hcode, key, addr, payload⟩ := n
  obtain ⟨hcode', key', addr', payload'⟩ := n'
  cases hp
  cases payload with
  | hset hmap => exact alike_ok h _ _
  | _ => exact .error _

theorem doPush_alike (h : Alike (keyOf cmd) g g') (hkey : Short (keyOf cmd)) (side : Side) :
    Agree (AlikeResult (keyOf cmd)) (doPush env g out cmd side) (doPush env g' out cmd side) := by
  unfold doPush
  refine agree_key (agree_bind_same _ fun value => ?_)
  refine (agree_findOrInsert env h hkey fun _ => ⟨rfl, rfl⟩).bind fun a b hab => ?_
  obtain ⟨g₁, hcode, key, addr, payload⟩ := a
  obtain ⟨g₁', hcode', key', addr', payload'⟩ := b
  cases hab.payload
  cases payload with
  | list l => exact agree_bind_same _ fun l => (hab.put hkey _).bind fun g₂ g₂' h₂ => alike_ok h₂ _ _
  | _ => exact alike_ok hab.data _ _

theorem doPop_alike (h : Alike (keyOf cmd) g g') (hkey : Short (keyOf cmd)) (side : Side) :
    Agree (AlikeResult (keyOf cmd)) (doPop g out cmd side) (doPop g' out cmd side) := by
  unfold doPop
  refine agree_key (agree_bind_same _ fun count => ?_)
  refine agree_findNode h hkey (fun _ _ => alike_ok h _ _) fun n n' hn hn' hp => ?_
  obtain ⟨hcode, key, addr, payload⟩ := n
  obtain ⟨hcode', key', addr', payload'⟩ := n'
  cases hp
  cases payload with
  | list l =>
    refine agree_ite (fun _ => alike_ok h _ _) fun _ => agree_bind_same _ fun res => ?_
    exact (agree_put h hkey hn hn' _).bind fun g₁ g₁' h₁ => alike_ok h₁ _ _
  | _ => exact alike_ok h _ _

theorem doLrange_alike (h : Alike (keyOf cmd) g g') (hkey : Short (keyOf cmd)) :
    Agree (AlikeResult (keyOf cmd)) (doLrange g out cmd) (doLrange g' out cmd) := by
  unfold doLrange
  refine agree_key (agree_bind_same _ fun start => agree_bind_same _ fun last => ?_)
  refine agree_findNode h hkey (fun _ _ => alike_ok h _ _) fun n n' hn hn' hp => ?_
  obtain ⟨hcode, key, addr, payload⟩ := n
  obtain ⟨hcode', key', addr', payload'⟩ := n'
  cases hp
  cases payload with
  | list l =>
    refine agree_ite (fun _ => alike_ok h _ _) fun _ => agree_ite (fun _ => ?_) fun _ => ?_
    · exact agree_bind_same _ fun begin => agree_bind_same _ fun res => alike_ok h _ _
    · exact agree_bind_same _ fun begin => agree_bind_same _ fun res => alike_ok h _ _
  | _ => exact alike_ok h _ _

theorem doSadd_alike (h : Alike (keyOf cmd) g g') (hkey : Short (keyOf cmd)) :
    Agree (AlikeResult (keyOf cmd)) (doSadd env g out cmd) (doSadd env g' out cmd) := by
  unfold doSadd
  refine agree_key (agree_bind_same _ fun value => ?_)
  refine (agree_findOrInsert env h hkey fun _ => ⟨rfl, rfl⟩).bind fun a b hab => ?_
  obtain ⟨g₁, hcode, key, addr, payload⟩ := a
  obtain ⟨g₁', hcode', key', addr', payload'⟩ := b
  cases hab.payload
  cases payload with
  | set s =>
    refine agree_bind_same _ fun valueKey => agree_bind_same _ fun res => ?_
    exact (hab.put hkey _).bind fun g₂ g₂' h₂ => alike_ok h₂ _ _
  | _ => exact alike_ok hab.data _ _

/-- The handlers that need a set. -/
theorem agree_requireSet (h : Alike (keyOf cmd) g g') (hkey : Short (keyOf cmd)) {f f' : HMap Unit → M Result}
    (hset : ∀ n n' s, g.nodeOf (keyOf cmd) = some n → g'.nodeOf (keyOf cmd) = some n' →
      Agree (AlikeResult (keyOf cmd)) (f s) (f' s)) :
    Agree (AlikeResult (keyOf cmd))
      (findNode g (keyOf cmd) >>= fun node => match requireSet out node with
        | .error (out, ret) => .ok ⟨g, out, ret⟩
        | .ok s => f s)
      (findNode g' (keyOf cmd) >>= fun node => match requireSet out node with
        | .error (out, ret) => .ok ⟨g', out, ret⟩
        | .ok s => f' s) := by
  refine agree_findNode h hkey (fun _ _ => alike_ok h _ _) fun n n' hn hn' hp => ?_
  replace hset := fun s => hset n n' s hn hn'
  obtain ⟨hcode, key, addr, payload⟩ := n
  obtain ⟨hcode', key', addr', payload'⟩ := n'
  cases hp
  cases payload with
  | set s => exact hset s
  | _ => exact alike_ok h _ _

theorem doSrem_alike (h : Alike (keyOf cmd) g g') (hkey : Short (keyOf cmd)) :
    Agree (AlikeResult (keyOf cmd)) (doSrem g out cmd) (doSrem g' out cmd) := by
  unfold doSrem
  refine agree_key (agree_bind_same _ fun value => agree_requireSet h hkey fun n n' s hn hn' => ?_)
  refine agree_bind_same _ fun tmp => agree_bind_same _ fun res => ?_
  exact (agree_put h hkey hn hn' _).bind fun g₁ g₁' h₁ => alike_ok h₁ _ _

theorem doSmembers_alike (h : Alike (keyOf cmd) g g') (hkey : Short (keyOf cmd)) :
    Agree (AlikeResult (keyOf cmd)) (doSmembers g out cmd) (doSmembers g' out cmd) := by
  unfold doSmembers
  exact agree_key (agree_requireSet h hkey fun _ _ s _ _ => alike_ok h _ _)

theorem doScard_alike (h : Alike (keyOf cmd) g g') (hkey : Short (keyOf cmd)) :
    Agree (AlikeResult (keyOf cmd)) (doScard g out cmd) (doScard g' out cmd) := by
  unfold doScard
  exact agree_key (agree_requireSet h hkey fun _ _ s _ _ => alike_ok h _ _)

theorem doSetbit_alike (h : Alike (keyOf cmd) g g') (hkey : Short (keyOf cmd)) :
    Agree (AlikeResult (keyOf cmd)) (doSetbit env g out cmd) (doSetbit env g' out cmd) := by
  unfold doSetbit
  refine agree_key (agree_bind_same _ fun bitPos => agree_bind_same _ fun bitValue => ?_)
  cases dstrInit 0 with
  | none => exact .error _
  | some empty =>
    refine (agree_findOrInsert env h hkey fun _ => ⟨rfl, rfl⟩).bind fun a b hab => ?_
    obtain ⟨g₁, hcode, key, addr, payload⟩ := a
    obtain ⟨g₁', hcode', key', addr', payload'⟩ := b
    cases hab.payload
    cases payload with
    | bitmap bitmap =>
      refine agree_ite (fun _ => alike_ok hab.data _ _) fun _ => agree_ite (fun _ => alike_ok hab.data _ _) fun _ => ?_
      refine agree_bind_same _ fun set => ?_
      cases set with
      | none => exact alike_ok hab.data _ _
      | some set => exact (hab.put hkey _).bind fun g₂ g₂' h₂ => alike_ok h₂ _ _
    | _ => exact alike_ok hab.data _ _

theorem doGetbit_alike (h : Alike (keyOf cmd) g g') (hkey : Short (keyOf cmd)) :
    Agree (AlikeResult (keyOf cmd)) (doGetbit g out cmd) (doGetbit g' out cmd) := by
  unfold doGetbit
  refine agree_key (agree_bind_same _ fun bitPos => ?_)
  refine agree_findNode h hkey (fun _ _ => alike_ok h _ _) fun n n' _ _ hp => ?_
  obtain ⟨hcode, key, addr, payload⟩ := n
  obtain ⟨hcode', key', addr', payload'⟩ := n'
  cases hp
  cases payload with
  | bitmap bitmap => exact agree_ite (fun _ => alike_ok h _ _) fun _ => agree_bind_same _ fun byte => alike_ok h _ _
  | _ => exact alike_ok h _ _

theorem doBitcount_alike (h : Alike (keyOf cmd) g g') (hkey : Short (keyOf cmd)) :
    Agree (AlikeResult (keyOf cmd)) (doBitcount g out cmd) (doBitcount g' out cmd) := by
  unfold doBitcount
  refine agree_key (agree_findNode h hkey (fun _ _ => alike_ok h _ _) fun n n' _ _ hp => ?_)
  obtain ⟨hcode, key, addr, payload⟩ := n
  obtain ⟨hcode', key', addr', payload'⟩ := n'
  cases hp
  cases payload with
  | bitmap bitmap =>
    apply agree_ite
    · exact fun _ => agree_bind_same _ fun ret => alike_ok h _ _
    · exact fun _ => agree_bind_same _ fun ret => alike_ok h _ _
  | _ => exact alike_ok h _ _

theorem doPfadd_alike (h : Alike (keyOf cmd) g g') (hkey : Short (keyOf cmd)) :
    Agree (AlikeResult (keyOf cmd)) (doPfadd env g out cmd) (doPfadd env g' out cmd) := by
  unfold doPfadd
  refine agree_key (agree_bind_same _ fun val => ?_)
  refine (agree_findOrInsert env h hkey fun _ => ⟨rfl, rfl⟩).bind fun a b hab => ?_
  obtain ⟨g₁, hcode, key, addr, payload⟩ := a
  obtain ⟨g₁', hcode', key', addr', payload'⟩ := b
  cases hab.payload
  cases payload with
  | hll hll => exact agree_bind_same _ fun res => (hab.put hkey _).bind fun g₂ g₂' h₂ => alike_ok h₂ _ _
  | _ => exact alike_ok hab.data _ _

theorem doPfcount_alike (h : Alike (keyOf cmd) g g') (hkey : Short (keyOf cmd)) :
    Agree (AlikeResult (keyOf cmd)) (doPfcount env g out cmd) (doPfcount env g' out cmd) := by
  unfold doPfcount
  refine agree_key (agree_findNode h hkey (fun _ _ => alike_ok h _ _) fun n n' hn hn' hp => ?_)
  obtain ⟨hcode, key, addr, payload⟩ := n
  obtain ⟨hcode', key', addr', payload'⟩ := n'
  cases hp
  cases payload with
  | hll hll => exact agree_bind_same _ fun res => (agree_put h hkey hn hn' _).bind fun g₁ g₁' h₁ => alike_ok h₁ _ _
  | _ => exact alike_ok h _ _

/-- The commands that neither list the keys nor use the deadlines. -/
def Command.Keyed (c : Command) : Prop := c ∉ [Command.keys, .expire, .ttl, .persist]

instance : DecidablePred Command.Keyed := fun c => inferInstanceAs (Decidable (c ∉ [Command.keys, .expire, .ttl, .persist]))

theorem runCommand_alike (h : Alike (keyOf cmd) g g') (hkey : Short (keyOf cmd)) {c : Command} (hc : c.Keyed) :
    Agree (AlikeResult (keyOf cmd)) (runCommand env g out cmd c) (runCommand env g' out cmd c) := by
  cases c with
  | get => exact doGet_alike h hkey
  | set => exact doSet_alike h hkey
  | del => exact doDel_alike h hkey
  | hset => exact doHset_alike h hkey
  | hget => exact doHget_alike h hkey
  | hgetall => exact doHgetall_alike h hkey
  | hdel => exact doHdel_alike h hkey
  | zadd => exact doZadd_alike h hkey
  | zscore => exact doZscore_alike h hkey
  | zrem => exact doZrem_alike h hkey
  | zquery => exact doZrangequery_alike h hkey
  | lpush => exact doPush_alike h hkey .left
  | rpush => exact doPush_alike h hkey .right
  | lpop => exact doPop_alike h hkey .left
  | rpop => exact doPop_alike h hkey .right
  | lrange => exact doLrange_alike h hkey
  | sadd => exact doSadd_alike h hkey
  | srem => exact doSrem_alike h hkey
  | smembers => exact doSmembers_alike h hkey
  | scard => exact doScard_alike h hkey
  | setbit => exact doSetbit_alike h hkey
  | getbit => exact doGetbit_alike h hkey
  | bitcount => exact doBitcount_alike h hkey
  | pfadd => exact doPfadd_alike h hkey
  | pfcount => exact doPfcount_alike h hkey
  | pfmerge => exact .error _
  | todo => exact alike_ok h _ _
  | unknown => exact alike_ok h _ _
  | keys | expire | ttl | persist => exact absurd (by decide) hc

/-- A request on a key, in two databases that differ in other keys only. -/
theorem respond_alike (env : Env) {r : Request} (h : Alike (keyOf r.tokens) g g') (hc : (commandOf r.tokens).Keyed) :
    Agree (fun a b => Alike (keyOf r.tokens) a.1 b.1 ∧ a.2 = b.2) (respond env g r) (respond env g' r) := by
  refine agree_bind_same _ fun _ => ?_
  exact (runCommand_alike h r.short_key hc).bind fun a b hab => .ok ⟨hab.data, hab.out⟩

end Handlers

/-! ### Requests that the key does not see -/

section Hidden

variable {env : Env} {g g' : GlobalData} {out out' : Bytes} {cmd : List Bytes} {key : Bytes}

/-- A node with nothing to tear down stays as it is wherever an insert moves it. -/
theorem Inserted.payloadOf_bare {key' : Bytes} {payload : Payload} (h : Inserted env g key' payload g')
    (hother : keyId key' ≠ keyId key) (hbare : ∀ p ∈ g.payloadOf key, p.Bare) : g'.payloadOf key = g.payloadOf key := by
  rw [GlobalData.payloadOf, GlobalData.nodeOf, h.find, if_neg (Ne.symm hother)]
  cases hn : g.db.find (keyId key) with
  | none => rw [payloadOf_eq_none.mpr hn, Option.map_none, Option.map_none]
  | some n =>
    have hp := payloadOf_of_nodeOf hn
    rw [hp, Option.map_some, Option.map_some, afterInsert_bare _ _ _ (hbare _ hp)]

/-- A command on another key changes the payload of this one only where it inserts. -/
theorem Outcome.payloadOf_of_inserted {c : Command} (ho : Outcome env g out cmd c g' out')
    (hother : keyId (keyOf cmd) ≠ keyId key)
    (hins : g.nodeOf (keyOf cmd) = none → ∀ g₁, Inserted env g (keyOf cmd) (newPayload cmd c) g₁ →
      g₁.payloadOf key = g.payloadOf key) : g'.payloadOf key = g.payloadOf key := by
  have hident : ∀ {g : GlobalData} {n : HNode Entry}, g.nodeOf (keyOf cmd) = some n → n.ident ≠ keyId key := by
    intro g n hn hid
    exact hother ((KeyedList.key_of_at? hn).symm.trans hid)
  cases ho with
  | replied _ _ => rfl
  | missing => rfl
  | refused _ _ => rfl
  | written _ _ _ _ hw => exact hw.payloadOf_other hother
  | created _ _ hnone hi => exact hins hnone _ hi
  | filled _ _ hnone hi _ _ hw => rw [hw.payloadOf_other hother, hins hnone _ hi]
  | halfway _ hnone _ hi => exact hins hnone _ hi
  | deleted _ hnode hd => exact hd.payloadOf_other (hident hnode)
  | emptied _ _ _ _ _ hw hnode' hd => rw [hd.payloadOf_other (hident hnode'), hw.payloadOf_other hother]
  | expires _ _ _ => rfl
  | persists _ _ _ => rfl

theorem doExpire_db {r : Result} (hrun : doExpire env g out cmd = .ok r) : r.data.db = g.db := by
  obtain ⟨_, -, hrun⟩ := ok_of_bind hrun
  obtain ⟨_, -, hrun⟩ := ok_of_bind hrun
  obtain ⟨node, -, hrun⟩ := ok_of_bind hrun
  cases node with
  | none =>
    cases hrun
    rfl
  | some n =>
    obtain ⟨ttl, -, hrun⟩ := ok_of_bind hrun
    cases hrun
    rfl

theorem doPersist_db {r : Result} (hrun : doPersist g out cmd = .ok r) : r.data.db = g.db := by
  obtain ⟨_, -, hrun⟩ := ok_of_bind hrun
  obtain ⟨node, -, hrun⟩ := ok_of_bind hrun
  cases node with
  | none =>
    cases hrun
    rfl
  | some n =>
    obtain ⟨ttl, -, hrun⟩ := ok_of_bind hrun
    cases hrun
    rfl

theorem doTtl_db {r : Result} (hrun : doTtl env g out cmd = .ok r) : r.data.db = g.db := by
  obtain ⟨_, -, hrun⟩ := ok_of_bind hrun
  obtain ⟨node, -, hrun⟩ := ok_of_bind hrun
  cases node with
  | none =>
    cases hrun
    rfl
  | some n =>
    dsimp only at hrun
    split at hrun
    · cases hrun
    · obtain ⟨h, -, hrun⟩ := ok_of_bind hrun
      cases hrun
      rfl

/-- Listing the keys and the commands on deadlines leave all payloads as they are. -/
theorem runCommand_db {r : Result} {c : Command} (hc : ¬c.Keyed) (hrun : runCommand env g out cmd c = .ok r) :
    r.data.db = g.db := by
  have hmem : c ∈ [Command.keys, .expire, .ttl, .persist] := not_not.mp hc
  simp only [List.mem_cons, List.not_mem_nil, or_false] at hmem
  rcases hmem with rfl | rfl | rfl | rfl
  · cases hrun
    rfl
  · exact doExpire_db hrun
  · exact doTtl_db hrun
  · exact doPersist_db hrun

end Hidden

/-! ### Runs -/

def OnKey (key : Bytes) (r : Request) : Prop := keyId (keyOf r.tokens) = keyId key

instance (key : Bytes) : DecidablePred (OnKey key) := fun r => inferInstanceAs (Decidable (keyId (keyOf r.tokens) = keyId key))

/-- The requests that a key sees. -/
def seenBy (key : Bytes) (e : Env × Request) : Bool := OnKey key e.2 ∧ (commandOf e.2.tokens).Keyed

/-- The request does not move the node of the key, or only one with nothing to tear down. -/
def Undisturbed (key : Bytes) (g : GlobalData) (e : Env × Request) : Prop :=
  StaysPut key g e.2 ∨ ∀ p ∈ g.payloadOf key, p.type ≠ .zset ∧ p.type ≠ .hset

instance (key : Bytes) (g : GlobalData) (e : Env × Request) : Decidable (Undisturbed key g e) :=
  inferInstanceAs (Decidable (_ ∨ ∀ p ∈ g.payloadOf key, _ ∧ _))

def requestStep (g : GlobalData) (e : Env × Request) : M GlobalData := serverStep g (.request e.1 e.2)

theorem Alike.congr {key key' : Bytes} {g g' : GlobalData} (h : Alike key g g') (hid : keyId key = keyId key') :
    Alike key' g g' := by
  refine ⟨h.wf, h.wf', ?_⟩
  rw [← payloadOf_congr g hid, ← payloadOf_congr g' hid]
  exact h.payload

theorem requestStep_seen {key : Bytes} {g g' : GlobalData} {e : Env × Request} (h : Alike key g g')
    (hseen : seenBy key e = true) : Agree (Alike key) (requestStep g e) (requestStep g' e) := by
  obtain ⟨hkey, hc⟩ : OnKey key e.2 ∧ (commandOf e.2.tokens).Keyed := of_decide_eq_true hseen
  exact (respond_alike e.1 (h.congr hkey.symm) hc).bind fun a b hab => .ok (hab.1.congr hkey)

theorem requestStep_hidden {key : Bytes} {g g' g₁ : GlobalData} {e : Env × Request} (h : Alike key g g')
    (hstays : Undisturbed key g e) (hseen : seenBy key e = false) (hrun : requestStep g e = .ok g₁) : Alike key g₁ g' := by
  obtain ⟨⟨g₂, out⟩, hres, hret⟩ := ok_of_bind hrun
  cases hret
  have ho := respond_outcome h.wf hres
  refine ⟨ho.wf h.wf, h.wf', ?_⟩
  rw [← h.payload]
  by_cases hkey : OnKey key e.2
  · have hc : ¬(commandOf e.2.tokens).Keyed := fun hc => of_decide_eq_false hseen ⟨hkey, hc⟩
    obtain ⟨_, -, hrest⟩ := ok_of_bind hres
    obtain ⟨res, hcmd, hret⟩ := ok_of_bind hrest
    cases hret
    rw [GlobalData.payloadOf, GlobalData.nodeOf, runCommand_db hc hcmd]
    rfl
  · apply ho.payloadOf_of_inserted hkey
    intro hnone g₃ hi
    rcases hstays with hput | htype
    · exact hi.payloadOf_other hkey (hput hkey hnone)
    · exact hi.payloadOf_bare hkey fun p hp => bare_of_type (htype p hp).1 (htype p hp).2

/-- A run of requests, seen from one key, is the run of the requests on that key alone: both leave the same payload, and
every later request on the key has the same reply and effect, or the same fault, in both. -/
theorem key_sees_own_requests {key : Bytes} {es : List (Env × Request)} {g : GlobalData}
    (hstays : Along requestStep (Undisturbed key) {} es) (hrun : run requestStep {} es = .ok g) :
    ∃ g', run requestStep {} (es.filter (seenBy key)) = .ok g' ∧ g.payloadOf key = g'.payloadOf key ∧
      ∀ env r, OnKey key r → (commandOf r.tokens).Keyed →
        Agree (fun a b => a.1.payloadOf key = b.1.payloadOf key ∧ a.2 = b.2) (respond env g r) (respond env g' r) := by
  have hstart : Alike key {} {} := ⟨GlobalData.WF.empty, GlobalData.WF.empty, rfl⟩
  have hshown : ∀ s t e, Alike key s t → seenBy key e = true → Agree (Alike key) (requestStep s e) (requestStep t e) :=
    fun _ _ _ h hseen => requestStep_seen h hseen
  obtain ⟨g', hrun', h⟩ := run_purge hshown (fun _ _ _ _ h hok hseen hs => requestStep_hidden h hok hseen hs) hstart
    hstays hrun
  refine ⟨g', hrun', h.payload, fun env r hkey hc => ?_⟩
  exact (respond_alike env (h.congr hkey.symm) hc).mono fun a b hab => ⟨(hab.1.congr hkey).payload, hab.2⟩

/-- A list among forty strings, whose migration moves its node. -/
def listAmongStrings : List (Env × Request) :=
  List.flatten [
    [({}, .ofTexts ["rpush", "list", "a"])],
    fortySets,
    [({}, .ofTexts ["rpush", "list", "b"]), ({}, .ofTexts ["sadd", "set", "a"]), ({}, .ofTexts ["expire", "list", "9"])]]

theorem list_sees_own_requests :
    ∃ g g', run requestStep {} listAmongStrings = .ok g ∧
      run requestStep {} (listAmongStrings.filter (seenBy (text "list"))) = .ok g' ∧
      (respond {} g (.ofTexts ["lrange", "list", "0", "9"])).map Prod.snd =
        (respond {} g' (.ofTexts ["lrange", "list", "0", "9"])).map Prod.snd := by
  obtain ⟨g, hrun, -⟩ := exists_ok_of_check (x := run requestStep {} listAmongStrings) (p := fun _ => true)
    (by decide +kernel)
  have hstays : Along requestStep (Undisturbed (text "list")) {} listAmongStrings := by decide +kernel
  obtain ⟨g', hrun', -, hall⟩ := key_sees_own_requests hstays hrun
  refine ⟨g, g', hrun, hrun', ?_⟩
  have hagree := hall {} (.ofTexts ["lrange", "list", "0", "9"]) (by decide +kernel) (by decide +kernel)
  exact hagree.map_eq fun a b hab => hab.2

end CustomRedis
