import CustomRedis.Model.Keyspace
import CustomRedis.Proof.Hashmap

/-!
# The operations on the keyspace

What looking a key up, inserting, rewriting and deleting a node do to the database, to the addresses of
its nodes and to the memory of the `heap_idx` fields. The handlers are put together from these operations,
and nothing behind this module looks into the hash map again. A node is alive exactly as long as it is
linked, and `links` is what remains of the database when the payloads are forgotten.
-/

namespace CustomRedis

open KeyedList

/-- The node of a key. -/
def GlobalData.nodeOf (g : GlobalData) (key : Bytes) : Option (HNode Entry) := g.db.find (keyId key)

/-- The identity and the address of a node. -/
def HNode.link (n : HNode Entry) : (UInt64 × Bytes) × Ptr := (n.ident, n.val.addr)

def GlobalData.links (g : GlobalData) : List ((UInt64 × Bytes) × Ptr) := g.db.nodes.map HNode.link

structure GlobalData.WF (g : GlobalData) : Prop where
  db : g.db.WF
  addrs : (g.links.map Prod.snd).Nodup
  live : ∀ p, (g.ttl.refs.read p).isSome ↔ p ∈ g.links.map Prod.snd

theorem GlobalData.WF.empty : ({} : GlobalData).WF where
  db := HMap.WF.empty
  addrs := List.nodup_nil
  live p := by simp [Mem.read, GlobalData.links, HMap.nodes, HTab.nodes]

/-- The tokens that the copy idiom copies. -/
def Short (key : Bytes) : Prop := 2 * key.length ≤ maxStrSize

theorem GlobalData.nodeOf_eq_some {g : GlobalData} (h : g.WF) {key : Bytes} {n : HNode Entry} :
    g.nodeOf key = some n ↔ n ∈ g.db.nodes ∧ n.ident = keyId key :=
  h.db.find_eq_some

theorem findNode_eq {g : GlobalData} (h : g.WF) {key : Bytes} (hkey : Short key) :
    findNode g key = .ok (g.nodeOf key) := by
  obtain ⟨str, hcopy, hbuf⟩ := dstrCopy_ok hkey
  rw [findNode, hcopy]
  simp only [bind, Except.bind, hbuf]
  exact hmLookup_eq h.db (strHash key) key

/-! ### Tearing a node down keeps its address and its type -/

theorem clear_addr (e : Entry) : (Teardown.clear e).addr = e.addr := by
  rcases e with ⟨addr, payload⟩
  cases payload <;> rfl

theorem clear_type (e : Entry) : (Teardown.clear e).type = e.type := by
  rcases e with ⟨addr, payload⟩
  cases payload <;> rfl

theorem unlinked_link (n : HNode Entry) : (unlinked n).link = n.link := by
  rw [HNode.link, HNode.link, unlinked_ident]
  unfold unlinked
  split
  · rfl
  · exact Prod.ext rfl (clear_addr n.val)

theorem afterInsert_link (m : HMap Entry) (node n : HNode Entry) : (afterInsert m node n).link = n.link := by
  unfold afterInsert
  split
  · exact unlinked_link n
  · rfl

/-- A payload with nothing to tear down. -/
def Payload.Bare (p : Payload) : Prop :=
  ∀ addr, Teardown.weight (⟨addr, p⟩ : Entry) = 0 ∧ Teardown.clear (⟨addr, p⟩ : Entry) = ⟨addr, p⟩

theorem afterInsert_bare (m : HMap Entry) (node n : HNode Entry) (h : n.val.payload.Bare) :
    afterInsert m node n = n := by
  have hb := h n.val.addr
  have hunlinked : unlinked n = n := by
    rw [unlinked, if_neg (by rw [hb.1]; decide)]
    exact congrArg (HNode.mk n.hcode n.key) hb.2
  rw [afterInsert, hunlinked, ite_self]

/-! ### Inserting -/

/-- The node that `new_node` builds. -/
def freshNode (g : GlobalData) (key : Bytes) (payload : Payload) : HNode Entry :=
  ⟨strHash key, key, ⟨g.ttl.refs.next, payload⟩⟩

theorem newNode_eq (g : GlobalData) {key : Bytes} (hkey : Short key) (payload : Payload) :
    newNode g key payload = .ok (freshNode g key payload) := by
  obtain ⟨str, hcopy, hbuf⟩ := dstrCopy_ok hkey
  rw [newNode, hcopy]
  simp only [bind, Except.bind, hbuf]
  rfl

/-- What an insert leaves behind. -/
structure Inserted (env : Env) (g : GlobalData) (key : Bytes) (payload : Payload) (g' : GlobalData) : Prop where
  run : insertNode env g key payload = .ok g'
  nodes : g'.db.nodes.Perm
    ((freshNode g key payload :: g.db.nodes).map (afterInsert g.db (freshNode g key payload)))
  ttl : g'.ttl = { g.ttl with refs := g.ttl.refs.alloc env.heapIdx }
  queue : g'.queue =
    g.queue ++ ((hmMoves g.db (freshNode g key payload)).flatMap handedOver).map fun n => n.val.addr
  wf : g'.WF

theorem links_perm {l l' : List (HNode Entry)} {f : HNode Entry → HNode Entry} (hf : ∀ n, (f n).link = n.link)
    (hp : l'.Perm (l.map f)) : (l'.map HNode.link).Perm (l.map HNode.link) := by
  refine (hp.map HNode.link).trans (List.Perm.of_eq ?_)
  rw [List.map_map]
  exact List.map_congr_left fun n _ => hf n

theorem Inserted.links {env : Env} {g g' : GlobalData} {key : Bytes} {payload : Payload}
    (h : Inserted env g key payload g') : g'.links.Perm ((keyId key, g.ttl.refs.next) :: g.links) :=
  links_perm (afterInsert_link g.db (freshNode g key payload)) h.nodes

theorem GlobalData.WF.next_not_linked {g : GlobalData} (h : g.WF) : g.ttl.refs.next ∉ g.links.map Prod.snd := by
  intro hin
  have hlive := (h.live g.ttl.refs.next).mpr hin
  rw [Mem.read_eq_none_of_le (Nat.le_refl _)] at hlive
  cases hlive

theorem insertNode_spec (env : Env) {g : GlobalData} (h : g.WF) {key : Bytes} (hkey : Short key)
    (hnew : g.nodeOf key = none) (payload : Payload) : ∃ g', Inserted env g key payload g' := by
  have hfind : g.db.find (freshNode g key payload).ident = none := hnew
  obtain ⟨db', hrun, hwf, hperm⟩ := hmInsert_spec h.db hfind
  have hlinks : (db'.nodes.map HNode.link).Perm ((keyId key, g.ttl.refs.next) :: g.links) :=
    links_perm (afterInsert_link g.db (freshNode g key payload)) hperm
  refine ⟨⟨db', { g.ttl with refs := g.ttl.refs.alloc env.heapIdx }, _⟩, ?_, hperm, rfl, rfl, hwf, ?_, ?_⟩
  · rw [insertNode, newNode_eq g hkey]
    simp only [bind, Except.bind, hrun]
  · change ((db'.nodes.map HNode.link).map Prod.snd).Nodup
    rw [(hlinks.map Prod.snd).nodup_iff, List.map_cons, List.nodup_cons]
    exact ⟨h.next_not_linked, h.addrs⟩
  · intro p
    change _ ↔ p ∈ (db'.nodes.map HNode.link).map Prod.snd
    rw [(hlinks.map Prod.snd).mem_iff, List.map_cons, List.mem_cons]
    rw [Mem.isSome_read_alloc, h.live p]

/-- The nodes behind an insert, key by key. -/
theorem Inserted.find {env : Env} {g g' : GlobalData} {key : Bytes} {payload : Payload}
    (h : Inserted env g key payload g') (id : UInt64 × Bytes) :
    g'.db.find id = if id = keyId key then some (afterInsert g.db (freshNode g key payload) (freshNode g key payload))
      else (g.db.find id).map (afterInsert g.db (freshNode g key payload)) :=
  find_hmInsert h.wf.db h.nodes id

/-! ### Rewriting a payload -/

structure Written (g : GlobalData) (key : Bytes) (payload : Payload) (g' : GlobalData) : Prop where
  run : putPayload g key payload = .ok g'
  nodes : g'.db.nodes = g.db.nodes.map fun x =>
    if x.ident = keyId key then { x with val := { x.val with payload := payload } } else x
  ttl : g'.ttl = g.ttl
  queue : g'.queue = g.queue
  wf : g'.WF

theorem Written.links {g g' : GlobalData} {key : Bytes} {payload : Payload} (h : Written g key payload g') :
    g'.links = g.links := by
  rw [GlobalData.links, h.nodes, List.map_map]
  refine List.map_congr_left fun n _ => ?_
  by_cases hn : n.ident = keyId key
  · simp only [Function.comp, hn, if_true]
    rfl
  · simp only [Function.comp, hn, if_false]

theorem GlobalData.WF.of_links {g g' : GlobalData} (h : g.WF) (hdb : g'.db.WF) (hlinks : g'.links = g.links)
    (hlive : ∀ p, (g'.ttl.refs.read p).isSome = (g.ttl.refs.read p).isSome) : g'.WF where
  db := hdb
  addrs := hlinks ▸ h.addrs
  live p := by rw [hlinks, ← h.live p, hlive p]

theorem putPayload_spec {g : GlobalData} (h : g.WF) {key : Bytes} (hkey : Short key) {n : HNode Entry}
    (hn : g.nodeOf key = some n) (payload : Payload) : ∃ g', Written g key payload g' := by
  obtain ⟨str, hcopy, hbuf⟩ := dstrCopy_ok hkey
  obtain ⟨db', hrun, hwf, hnodes⟩ := hmModify_spec h.db
    (show g.db.find (strHash key, cstr key) = some n from hn) fun e => { e with payload := payload }
  have hw : putPayload g key payload = .ok { g with db := db' } := by
    rw [putPayload, hcopy]
    simp only [bind, Except.bind, hbuf]
    rw [Probe.mk_some, hrun]
  have hlinks : ({ g with db := db' } : GlobalData).links = g.links := by
    rw [GlobalData.links, hnodes, List.map_map]
    refine List.map_congr_left fun x _ => ?_
    by_cases hx : x.ident = (strHash key, cstr key)
    · simp only [Function.comp, hx, if_true]
      rfl
    · simp only [Function.comp, hx, if_false]
  exact ⟨_, hw, hnodes, rfl, rfl, h.of_links hwf hlinks fun _ => rfl⟩

theorem Written.find {g g' : GlobalData} {key : Bytes} {payload : Payload} (h : Written g key payload g')
    (id : UInt64 × Bytes) :
    g'.db.find id = (g.db.find id).map fun x =>
      if id = keyId key then { x with val := { x.val with payload := payload } } else x :=
  find_hmModify (f := fun e : Entry => { e with payload := payload }) h.nodes id

/-! ### Deleting -/

structure Deleted (g : GlobalData) (n : HNode Entry) (g' : GlobalData) : Prop where
  nodes : g'.db.nodes = g.db.nodes.filter fun x => x.ident ≠ n.ident
  ttl : g'.ttl = { g.ttl with refs := g.ttl.refs.free n.val.addr }
  queue : g'.queue = g.queue ++ (handedOver n).map fun n => n.val.addr
  wf : g'.WF

theorem Deleted.links {g g' : GlobalData} {n : HNode Entry} (h : Deleted g n g') :
    g'.links = g.links.filter fun l => l.1 ≠ n.ident := by
  rw [GlobalData.links, h.nodes, GlobalData.links, List.filter_map]
  rfl

theorem Deleted.find {g g' : GlobalData} {n : HNode Entry} (h : Deleted g n g') (id : UInt64 × Bytes) :
    g'.db.find id = if id = n.ident then none else g.db.find id :=
  find_hmDelete h.nodes id

/-- In a database without repeated addresses a link is determined by either of its parts. -/
theorem GlobalData.WF.link_inj {g : GlobalData} (h : g.WF) {l l' : (UInt64 × Bytes) × Ptr} (hl : l ∈ g.links)
    (hl' : l' ∈ g.links) : l.1 = l'.1 ↔ l.2 = l'.2 := by
  obtain ⟨n, hn, rfl⟩ := List.mem_map.mp hl
  obtain ⟨n', hn', rfl⟩ := List.mem_map.mp hl'
  constructor
  · intro hid
    rw [h.db.distinct.eq_of_key_eq hn hn' hid]
  · intro haddr
    rw [List.inj_on_of_nodup_map h.addrs hl hl' haddr]

theorem deleteNode_spec {g : GlobalData} (h : g.WF) (hcode : UInt64) (key : Bytes) :
    (g.db.find (hcode, cstr key) = none ∧ deleteNode g (.ofKey hcode key) = .ok (g, false)) ∨
      ∃ n g', g.db.find (hcode, cstr key) = some n ∧ deleteNode g (.ofKey hcode key) = .ok (g', true) ∧
        Deleted g n g' := by
  have hlookup := hmLookup_eq h.db hcode key
  rcases hmDelete_spec h.db hcode key with ⟨hnone, -⟩ | ⟨n, db', hfind, hrun, hwf, hnodes⟩
  · refine .inl ⟨hnone, ?_⟩
    rw [deleteNode, hlookup, hnone]
    rfl
  · obtain ⟨hn, hid⟩ := h.db.find_eq_some.mp hfind
    rw [← hid] at hnodes
    have hlinks : db'.nodes.map HNode.link = g.links.filter fun l => l.1 ≠ n.ident := by
      rw [hnodes, GlobalData.links, List.filter_map]
      rfl
    refine .inr ⟨n, ⟨db', { g.ttl with refs := g.ttl.refs.free n.val.addr }, _⟩, hfind, ?_, hnodes, rfl, rfl, hwf, ?_, ?_⟩
    · rw [deleteNode, hlookup, hfind]
      simp only [bind, Except.bind, hrun]
    · change ((db'.nodes.map HNode.link).map Prod.snd).Nodup
      rw [hlinks]
      exact h.addrs.sublist (List.Sublist.map _ List.filter_sublist)
    · intro p
      change _ ↔ p ∈ (db'.nodes.map HNode.link).map Prod.snd
      rw [hlinks]
      have hnlink : n.link ∈ g.links := List.mem_map_of_mem hn
      by_cases hp : p = n.val.addr
      · subst hp
        simp only [Mem.read_free_self, Option.isSome_none, Bool.false_eq_true, false_iff]
        intro hin
        obtain ⟨l, hl, haddr⟩ := List.mem_map.mp hin
        obtain ⟨hl, hne⟩ := List.mem_filter.mp hl
        exact (of_decide_eq_true hne) ((h.link_inj hl hnlink).mpr haddr)
      · rw [Mem.read_free_ne hp, h.live p]
        constructor
        · intro hin
          obtain ⟨l, hl, rfl⟩ := List.mem_map.mp hin
          refine List.mem_map_of_mem (List.mem_filter.mpr ⟨hl, ?_⟩)
          exact decide_eq_true fun he => hp ((h.link_inj hl hnlink).mp he)
        · intro hin
          obtain ⟨l, hl, rfl⟩ := List.mem_map.mp hin
          exact List.mem_map_of_mem (List.mem_filter.mp hl).1

/-! ### The thread pool -/

theorem workerStep_spec {g g' : GlobalData} (h : g.WF) (hrun : workerStep g = .ok g') :
    g'.WF ∧ g'.links = g.links ∧ g'.ttl = g.ttl := by
  cases hqueue : g.queue with
  | nil =>
    rw [workerStep, hqueue] at hrun
    cases hrun
    exact ⟨h, rfl, rfl⟩
  | cons addr queue =>
    rw [workerStep, hqueue] at hrun
    by_cases hlive : (g.ttl.refs.read addr).isSome
    · simp only [hlive, if_true] at hrun
      cases hrun
      have hlinks : (g.db.mapVal fun e => if e.addr = addr then Teardown.clear e else e).nodes.map HNode.link =
          g.links := by
        rw [HMap.mapVal_nodes, List.map_map]
        refine List.map_congr_left fun n _ => Prod.ext rfl ?_
        change (if n.val.addr = addr then Teardown.clear n.val else n.val).addr = n.val.addr
        split
        · exact clear_addr n.val
        · rfl
      have hwf := h.db.mapVal fun e => if e.addr = addr then Teardown.clear e else e
      exact ⟨h.of_links hwf hlinks fun _ => rfl, hlinks, rfl⟩
    · simp only [hlive] at hrun
      cases hrun

end CustomRedis
