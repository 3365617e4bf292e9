import CustomRedis.Proof.Reachable

/-!
# The index of the deadlines

An entry of the heap names a node by the address of its `heap_idx`, and that field names the entry. The
invariant is that the two agree and that the node is still linked. `LinkEffect` is what a command can do as
far as the heap sees it: the payloads are forgotten, and a key appears, disappears or stays. Two of these
effects forget the heap: removing a node that has an entry, and giving a node a second entry.
-/

namespace CustomRedis

open Run (ok_of_bind check exists_ok_of_check)

/-- Every entry refers to a linked node, no two to the same one, and the node refers back to the entry. -/
structure TtlIndex (g : GlobalData) : Prop where
  linked : ∀ e ∈ g.ttl.entries, ∃ n ∈ g.db.nodes, n.val.addr = e.posRef
  distinct : (g.ttl.entries.map HeapNode.posRef).Nodup
  back : ∀ i e, g.ttl.entries[i]? = some e → g.ttl.refs.read e.posRef = some i

/-- The key is there, and its node has an entry in the heap. -/
def HasEntry (g : GlobalData) (key : Bytes) : Prop :=
  ∃ n, g.nodeOf key = some n ∧ n.val.addr ∈ g.ttl.entries.map HeapNode.posRef

instance (g : GlobalData) (key : Bytes) : Decidable (HasEntry g key) :=
  match hn : g.nodeOf key with
  | none => isFalse fun ⟨_, hn', _⟩ => nomatch hn.symm.trans hn'
  | some n => decidable_of_iff (n.val.addr ∈ g.ttl.entries.map HeapNode.posRef)
      ⟨fun hin => ⟨n, hn, hin⟩, fun ⟨_, hn', hin⟩ => Option.some.inj (hn.symm.trans hn') ▸ hin⟩

/-- The steps that respect the index: no second deadline, and no removal of a key that has one. -/
def KeepsIndex (g : GlobalData) : Event → Prop
  | .request _ r =>
    (commandOf r.tokens = .expire ∨ commandOf r.tokens = .del ∨ commandOf r.tokens = .hdel ∧ lastField g r.tokens) →
      ¬HasEntry g (keyOf r.tokens)
  | _ => True

instance (g : GlobalData) (e : Event) : Decidable (KeepsIndex g e) :=
  match e with
  | .request _ r => inferInstanceAs (Decidable (_ → ¬HasEntry g (keyOf r.tokens)))
  | .tick _ => isTrue trivial
  | .work => isTrue trivial

/-! ### What a command does to the links -/

inductive LinkEffect (env : Env) (g : GlobalData) (cmd : List Bytes) (c : Command) (g' : GlobalData) : Prop
  | kept (hidle : c = .expire ∨ c = .persist → g.nodeOf (keyOf cmd) = none) (hlinks : g'.links = g.links)
      (httl : g'.ttl = g.ttl)
  | added (hnew : g.nodeOf (keyOf cmd) = none)
      (hlinks : g'.links.Perm ((keyId (keyOf cmd), g.ttl.refs.next) :: g.links))
      (httl : g'.ttl = { g.ttl with refs := g.ttl.refs.alloc env.heapIdx })
  | removed {n : HNode Entry} (hnode : g.nodeOf (keyOf cmd) = some n) (hcause : c = .del ∨ c = .hdel ∧ lastField g cmd)
      (hlinks : g'.links = g.links.filter fun l => l.1 ≠ keyId (keyOf cmd))
      (httl : g'.ttl = { g.ttl with refs := g.ttl.refs.free n.val.addr })
  | expires {n : HNode Entry} {ttl : Heap} (hcause : c = .expire) (hnode : g.nodeOf (keyOf cmd) = some n)
      (ht : setTtl g.ttl env.now n.val.addr (ttlOf cmd) = .ok ttl) (hdata : g' = { g with ttl := ttl })
  | persists {n : HNode Entry} {ttl : Heap} (hcause : c = .persist) (hnode : g.nodeOf (keyOf cmd) = some n)
      (ht : remTtl g.ttl n.val.addr = .ok ttl) (hdata : g' = { g with ttl := ttl })

section Effects

variable {env : Env} {g g' : GlobalData} {out out' : Bytes} {cmd : List Bytes} {c : Command}

theorem doExpire_effect {r : Result} (h : g.WF) (hkey : Short (keyOf cmd)) (hrun : doExpire env g out cmd = .ok r) :
    LinkEffect env g cmd .expire r.data := by
  obtain ⟨key, harg, hrun⟩ := ok_of_bind hrun
  obtain ⟨seconds, harg₂, hrun⟩ := ok_of_bind hrun
  cases arg_key harg
  cases arg_getD harg₂
  dsimp only at hrun
  rw [findNode_bind h hkey] at hrun
  cases hn : g.nodeOf (keyOf cmd) with
  | none =>
    rw [hn] at hrun
    cases hrun
    exact .kept (fun _ => hn) rfl rfl
  | some n =>
    rw [hn] at hrun
    obtain ⟨ttl, httl, hrun⟩ := ok_of_bind hrun
    cases hrun
    exact .expires rfl hn httl rfl

theorem doPersist_effect {r : Result} (h : g.WF) (hkey : Short (keyOf cmd)) (hrun : doPersist g out cmd = .ok r) :
    LinkEffect env g cmd .persist r.data := by
  obtain ⟨key, harg, hrun⟩ := ok_of_bind hrun
  cases arg_key harg
  rw [findNode_bind h hkey] at hrun
  cases hn : g.nodeOf (keyOf cmd) with
  | none =>
    rw [hn] at hrun
    cases hrun
    exact .kept (fun _ => hn) rfl rfl
  | some n =>
    rw [hn] at hrun
    obtain ⟨ttl, httl, hrun⟩ := ok_of_bind hrun
    cases hrun
    exact .persists rfl hn httl rfl

theorem Outcome.effect (h : g.WF) (hs : g.Shaped) (ho : Outcome env g out cmd c g' out') (hexpire : c ≠ .expire)
    (hpersist : c ≠ .persist) : LinkEffect env g cmd c g' := by
  have hidle : c = .expire ∨ c = .persist → g.nodeOf (keyOf cmd) = none :=
    fun hc => hc.elim (fun hc => absurd hc hexpire) fun hc => absurd hc hpersist
  cases ho with
  | replied _ _ => exact .kept hidle rfl rfl
  | missing => exact .kept hidle rfl rfl
  | refused _ _ => exact .kept hidle rfl rfl
  | written _ _ _ _ hw => exact .kept hidle hw.links hw.ttl
  | created _ _ hnode hi => exact .added hnode hi.links hi.ttl
  | filled _ _ hnode hi _ _ hw => exact .added hnode (hw.links ▸ hi.links) (hw.ttl.trans hi.ttl)
  | halfway _ hnode _ hi => exact .added hnode hi.links hi.ttl
  | deleted _ hnode hd =>
    have hid := ((GlobalData.nodeOf_eq_some h).mp hnode).2
    exact .removed hnode (.inl rfl) (hid ▸ hd.links) hd.ttl
  | emptied _ hnode hlast _ _ hw hnode' hd =>
    have hid := ((GlobalData.nodeOf_eq_some hw.wf).mp hnode').2
    have hfind := hw.find (keyId (keyOf cmd))
    rw [show g.db.find (keyId (keyOf cmd)) = _ from hnode] at hfind
    cases hnode'.symm.trans hfind
    refine .removed hnode (.inr ⟨rfl, hlast (hs _ ((GlobalData.nodeOf_eq_some h).mp hnode).1)⟩) ?_ ?_
    · rw [← hw.links, ← hid]
      exact hd.links
    · rw [hd.ttl, hw.ttl]
      simp only [if_true]
  | expires _ _ _ => exact absurd rfl hexpire
  | persists _ _ _ => exact absurd rfl hpersist

end Effects

theorem respond_effect {env : Env} {g g' : GlobalData} {r : Request} {out : Bytes} (h : g.WF) (hs : g.Shaped)
    (hrun : respond env g r = .ok (g', out)) : LinkEffect env g r.tokens (commandOf r.tokens) g' := by
  have ho := respond_outcome h hrun
  obtain ⟨_, -, hrun⟩ := ok_of_bind hrun
  obtain ⟨res, hres, hrun⟩ := ok_of_bind hrun
  cases hrun
  generalize hc : commandOf r.tokens = c at ho hres ⊢
  by_cases hexpire : c = .expire
  · subst hexpire
    exact doExpire_effect h r.short_key hres
  · by_cases hpersist : c = .persist
    · subst hpersist
      exact doPersist_effect h r.short_key hres
    · exact ho.effect h hs hexpire hpersist

/-! ### The invariant -/

structure Indexed (g : GlobalData) : Prop where
  wf : g.WF
  shaped : g.Shaped
  coherent : g.ttl.Coherent
  limit : g.ttl.entries.length ≤ heapLimit

theorem Indexed.start : Indexed {} where
  wf := GlobalData.WF.empty
  shaped := nofun
  coherent := nofun
  limit := Nat.zero_le _

theorem GlobalData.WF.mem_links {g : GlobalData} (h : g.WF) {key : Bytes} {n : HNode Entry}
    (hn : g.nodeOf key = some n) : (keyId key, n.val.addr) ∈ g.links := by
  obtain ⟨hmem, hid⟩ := (GlobalData.nodeOf_eq_some h).mp hn
  rw [← hid]
  exact List.mem_map_of_mem hmem

theorem GlobalData.WF.exists_ref {g : GlobalData} (h : g.WF) {key : Bytes} {n : HNode Entry}
    (hn : g.nodeOf key = some n) : ∃ i, g.ttl.refs.read n.val.addr = some i :=
  Option.isSome_iff_exists.mp ((h.live _).mpr (List.mem_map_of_mem (h.mem_links hn)))

/-- The field an entry refers to is alive, so its node is linked. -/
theorem GlobalData.WF.exists_link {g : GlobalData} (h : g.WF) (hc : g.ttl.Coherent) {e : HeapNode}
    (he : e ∈ g.ttl.entries) : ∃ id, (id, e.posRef) ∈ g.links := by
  obtain ⟨⟨id, p⟩, hlink, hp⟩ := List.mem_map.mp ((h.live e.posRef).mp (hc.live e he))
  exact ⟨id, by rwa [← show p = e.posRef from hp]⟩

theorem GlobalData.WF.ttlIndex {g : GlobalData} (h : g.WF) (hc : g.ttl.Coherent) : TtlIndex g where
  linked e he := by
    obtain ⟨id, hlink⟩ := h.exists_link hc he
    obtain ⟨n, hn, heq⟩ := List.mem_map.mp hlink
    exact ⟨n, hn, congrArg Prod.snd heq⟩
  distinct := hc.nodup
  back := hc

section Step

variable {env : Env} {g g' : GlobalData} {cmd : List Bytes} {c : Command}

theorem not_mem_of_not_hasEntry {key : Bytes} {n : HNode Entry} (hn : g.nodeOf key = some n) (hno : ¬HasEntry g key) :
    n.val.addr ∉ g.ttl.entries.map HeapNode.posRef :=
  fun hin => hno ⟨n, hn, hin⟩

theorem LinkEffect.coherent (h : Indexed g) (he : LinkEffect env g cmd c g')
    (hexpire : c = .expire → ¬HasEntry g (keyOf cmd))
    (hremove : c = .del ∨ c = .hdel ∧ lastField g cmd → ¬HasEntry g (keyOf cmd)) :
    g'.ttl.Coherent ∧ g'.ttl.entries.length ≤ heapLimit := by
  cases he with
  | kept _ _ httl =>
    rw [httl]
    exact ⟨h.coherent, h.limit⟩
  | added _ _ httl =>
    rw [httl]
    refine ⟨fun i e hi => ?_, h.limit⟩
    have hread := h.coherent i e hi
    rw [← hread]
    exact Mem.read_alloc_of_lt (Mem.lt_next_of_read hread) _
  | removed hnode hcause _ httl =>
    rw [httl]
    refine ⟨fun i e hi => ?_, h.limit⟩
    have hne := not_mem_of_not_hasEntry hnode (hremove hcause)
    rw [← h.coherent i e hi]
    apply Mem.read_free_ne
    intro heq
    exact hne (heq ▸ List.mem_map_of_mem (List.mem_of_getElem? hi))
  | expires hcause hnode ht hdata =>
    obtain ⟨i, hread⟩ := h.wf.exists_ref hnode
    obtain ⟨hcoh, -, hlim, -⟩ := setTtl_spec h.coherent h.limit (not_mem_of_not_hasEntry hnode (hexpire hcause))
      (Option.isSome_iff_exists.mpr ⟨i, hread⟩) ht
    rw [hdata]
    exact ⟨hcoh, hlim⟩
  | persists _ hnode ht hdata =>
    obtain ⟨i, hread⟩ := h.wf.exists_ref hnode
    rw [hdata]
    rcases remTtl_spec h.coherent h.limit hread with ⟨-, hrem⟩ | ⟨e, h', -, hrem, hcoh, hperm, -⟩
    · cases hrem.symm.trans ht
      exact ⟨h.coherent, h.limit⟩
    · cases hrem.symm.trans ht
      refine ⟨hcoh, ?_⟩
      rw [hperm.length_eq]
      exact (List.length_eraseIdx_le _ _).trans h.limit

end Step

/-! ### The timers -/

/-- One round of the timers removes the first entry and the node it belongs to. -/
theorem expireRound_spec {g : GlobalData} (h : g.WF) (hc : g.ttl.Coherent) (hsize : g.ttl.entries.length < 2 ^ 63)
    {e : HeapNode} {rest : List HeapNode} (hentries : g.ttl.entries = e :: rest) :
    ∃ n ttl g', nodeAt g e.posRef = .ok n ∧ remTtl g.ttl e.posRef = .ok ttl ∧
      deleteNode { g with ttl := ttl } ⟨n.hcode, some n.key⟩ = .ok (g', true) ∧ Deleted { g with ttl := ttl } n g' ∧
      g'.ttl.Coherent ∧ ttl.entries.Perm rest ∧ n ∈ g.db.nodes ∧ n.val.addr = e.posRef := by
  obtain ⟨m, hm, hmaddr⟩ := (h.ttlIndex hc).linked e (by rw [hentries]; exact List.mem_cons_self)
  obtain ⟨n, hnodeAt⟩ : ∃ n, nodeAt g e.posRef = .ok n := by
    unfold nodeAt
    cases hfind : g.db.nodes.find? fun n => n.val.addr = e.posRef with
    | some n => exact ⟨n, rfl⟩
    | none =>
      have hno := List.find?_eq_none.mp hfind m hm
      simp [hmaddr] at hno
  obtain ⟨hn, haddr⟩ := nodeAt_ok hnodeAt
  have hread : g.ttl.refs.read e.posRef = some 0 := hc 0 e (by rw [hentries]; rfl)
  rcases remTtl_settles hc hsize hread (fun _ h0 => absurd h0 (Nat.lt_irrefl 0)) with
    ⟨hlen, -⟩ | ⟨e₀, ttl, -, hrem, hcoh, hperm, -, hlive⟩
  · rw [hentries] at hlen
    cases hlen
  rw [hentries, List.eraseIdx_cons_zero] at hperm
  have hwf : ({ g with ttl := ttl } : GlobalData).WF := h.withTtl hlive
  have hfind : ({ g with ttl := ttl } : GlobalData).db.find (n.hcode, cstr n.key) = some n :=
    h.db.find_eq_some.mpr ⟨hn, rfl⟩
  rcases deleteNode_spec hwf n.hcode n.key with ⟨hnone, -⟩ | ⟨n', g', hn', hdel, hd⟩
  · cases hfind.symm.trans hnone
  cases hfind.symm.trans hn'
  refine ⟨n, ttl, g', hnodeAt, hrem, hdel, hd, ?_, hperm, hn, haddr⟩
  -- the freed field belongs to the entry that is gone
  have hnodup := hc.nodup
  rw [hentries, List.map_cons, List.nodup_cons] at hnodup
  rw [hd.ttl]
  intro i e' hi
  rw [← hcoh i e' hi]
  apply Mem.read_free_ne
  intro heq
  apply hnodup.1
  rw [← haddr, ← heq]
  exact List.mem_map_of_mem (hperm.mem_iff.mp (List.mem_of_getElem? hi))

theorem Indexed.size {g : GlobalData} (h : Indexed g) : g.ttl.entries.length < 2 ^ 63 := by
  have hlimit := h.limit
  unfold heapLimit at hlimit
  omega

/-- A round of timers ends, keeps the invariant, and only removes keys with an entry whose time has passed. -/
theorem expireEntries_spec (k : Nat) {g : GlobalData} (h : Indexed g) (now : Nat) :
    ∃ g', expireEntries k g now = .ok g' ∧ Indexed g' ∧ (∀ e ∈ g'.ttl.entries, e ∈ g.ttl.entries) ∧
      (∀ l ∈ g'.links, l ∈ g.links) ∧
      ∀ l ∈ g.links, l ∉ g'.links → ∃ e ∈ g.ttl.entries, e.posRef = l.2 ∧ e.val < now := by
  induction k generalizing g with
  | zero => exact ⟨g, rfl, h, fun _ he => he, fun _ hl => hl, fun _ hl hno => absurd hl hno⟩
  | succ k ih =>
    cases hentries : g.ttl.entries with
    | nil =>
      refine ⟨g, ?_, h, fun _ he => hentries ▸ he, fun _ hl => hl, fun _ hl hno => absurd hl hno⟩
      rw [expireEntries, hentries]
    | cons e rest =>
      by_cases hdue : e.val < now
      · obtain ⟨n, ttl, g₁, hnode, hrem, hdel, hd, hcoh, hperm, hn, haddr⟩ :=
          expireRound_spec h.wf h.coherent h.size hentries
        have hlinks : g₁.links = g.links.filter fun l => l.1 ≠ n.ident := hd.links
        rw [show ttl.entries = g₁.ttl.entries by rw [hd.ttl]] at hperm
        have hlimit : g₁.ttl.entries.length ≤ heapLimit := by
          have hlimit := h.limit
          rw [hentries, List.length_cons] at hlimit
          rw [hperm.length_eq]
          omega
        have hshaped : ({ g with ttl := ttl } : GlobalData).Shaped := h.shaped
        obtain ⟨g', hrun, hi', hsub, hkeep, hgone⟩ := ih ⟨hd.wf, hd.shaped hshaped, hcoh, hlimit⟩
        have hsub₁ : ∀ e' ∈ g₁.ttl.entries, e' ∈ e :: rest := fun e' he' =>
          List.mem_cons_of_mem _ (hperm.mem_iff.mp he')
        refine ⟨g', ?_, hi', fun e' he' => hsub₁ e' (hsub e' he'), fun l hl => ?_, fun l hl hno => ?_⟩
        · rw [expireEntries, hentries]
          simp only [if_pos hdue, bind, Except.bind, hnode, hrem, hdel, hrun]
        · have hl₁ := hkeep l hl
          rw [hlinks] at hl₁
          exact (List.mem_filter.mp hl₁).1
        · by_cases hid : l.1 = n.ident
          · refine ⟨e, List.mem_cons_self, ?_, hdue⟩
            rw [← haddr]
            exact ((h.wf.link_inj hl (List.mem_map_of_mem hn)).mp hid).symm
          · have hl₁ : l ∈ g₁.links := by
              rw [hlinks]
              exact List.mem_filter.mpr ⟨hl, decide_eq_true hid⟩
            obtain ⟨e', he', hpos, hval⟩ := hgone l hl₁ hno
            exact ⟨e', hsub₁ e' he', hpos, hval⟩
      · refine ⟨g, ?_, h, fun _ he => hentries ▸ he, fun _ hl => hl, fun _ hl hno => absurd hl hno⟩
        rw [expireEntries, hentries]
        simp only [if_neg hdue]

/-! ### Runs -/

theorem serverStep_indexed {g g' : GlobalData} {e : Event} (h : Indexed g) (hok : KeepsIndex g e)
    (hrun : serverStep g e = .ok g') : Indexed g' := by
  obtain ⟨hwf, hshaped⟩ := serverStep_invariant ⟨h.wf, h.shaped⟩ hrun
  cases e with
  | request env r =>
    obtain ⟨⟨g₁, out⟩, hres, hrun⟩ := ok_of_bind hrun
    cases hrun
    obtain ⟨hcoh, hlim⟩ := (respond_effect h.wf h.shaped hres).coherent h
      (fun hc => hok (.inl hc)) fun hc => hok (.inr hc)
    exact ⟨hwf, hshaped, hcoh, hlim⟩
  | tick now =>
    obtain ⟨g₁, hexpire, hi, -⟩ := expireEntries_spec (maxTtlTasks + 1) h now
    cases hexpire.symm.trans hrun
    exact hi
  | work =>
    obtain ⟨-, -, httl⟩ := workerStep_spec h.wf hrun
    exact ⟨hwf, hshaped, httl ▸ h.coherent, httl ▸ h.limit⟩

theorem run_indexed {es : List Event} {g : GlobalData} (hok : Run.Along serverStep KeepsIndex {} es)
    (hrun : Run.run serverStep {} es = .ok g) : Indexed g :=
  Run.invariant_along (fun _ _ _ h hok hstep => serverStep_indexed h hok hstep) Indexed.start hok hrun

/-- In a run that gives no key a second deadline and removes no key that has one, the heap and the nodes agree. -/
theorem ttl_index_run {es : List Event} {g : GlobalData} (hok : Run.Along serverStep KeepsIndex {} es)
    (hrun : Run.run serverStep {} es = .ok g) : TtlIndex g :=
  have h := run_indexed hok hrun
  h.wf.ttlIndex h.coherent

/-- `DEL` of a key that has a deadline leaves the entry behind. -/
theorem ttl_index_broken : ∃ g, Run.run serverStep {} [.request {} (.ofTexts ["set", "k", "v"]),
    .request {} (.ofTexts ["expire", "k", "10"]), .request {} (.ofTexts ["del", "k"])] = .ok g ∧ ¬TtlIndex g := by
  obtain ⟨g, hrun, hcheck⟩ := exists_ok_of_check (x := Run.run serverStep {} [.request {} (.ofTexts ["set", "k", "v"]),
    .request {} (.ofTexts ["expire", "k", "10"]), .request {} (.ofTexts ["del", "k"])])
    (p := fun g => decide (g.ttl.entries ≠ [] ∧ g.db.nodes = [])) (by decide +kernel)
  obtain ⟨hentries, hnodes⟩ := of_decide_eq_true hcheck
  refine ⟨g, hrun, fun hindex => ?_⟩
  obtain ⟨e, he⟩ := List.exists_mem_of_ne_nil _ hentries
  obtain ⟨n, hn, -⟩ := hindex.linked e he
  rw [hnodes] at hn
  cases hn

/-- The deadline is removed before the key. -/
theorem ttl_index_persisted : ∃ g, Run.run serverStep {} [.request {} (.ofTexts ["set", "k", "v"]),
    .request {} (.ofTexts ["expire", "k", "10"]), .request {} (.ofTexts ["persist", "k"]),
    .request {} (.ofTexts ["expire", "k", "20"]), .tick 15000] = .ok g ∧ TtlIndex g := by
  obtain ⟨g, hrun, -⟩ := exists_ok_of_check (x := Run.run serverStep {} [.request {} (.ofTexts ["set", "k", "v"]),
    .request {} (.ofTexts ["expire", "k", "10"]), .request {} (.ofTexts ["persist", "k"]),
    .request {} (.ofTexts ["expire", "k", "20"]), .tick 15000]) (p := fun _ => true) (by decide +kernel)
  exact ⟨g, hrun, ttl_index_run (by decide +kernel) hrun⟩

end CustomRedis
