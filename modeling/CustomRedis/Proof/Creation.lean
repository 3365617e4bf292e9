import CustomRedis.Proof.Reachable
import CustomRedis.Proof.ZsetRuns

/-!
# Creating a key beside other keys

The migration of the database goes through `ht_unlink`, which tears the node down that it takes out of a
chain. What a command that creates a key leaves of the other keys therefore depends on the nodes that its
insert moves. A large payload is not torn down at once: its node is handed to the thread pool while it is
still linked, so the other keys are only kept if nothing is handed over.
-/

namespace CustomRedis

open KeyedList
open Run (check exists_ok_of_check)

/-- What a payload holds. Of a map or a tree only the elements count, not the memory they are kept in. -/
inductive Content
  | raw (p : Payload)
  | fields (nodes : List (HNode Dstr))
  | members (nodes : List (HNode Ptr)) (order : M (List ZNode))
  deriving DecidableEq

def Payload.content : Payload → Content
  | .hset h => .fields h.nodes
  | .zset z => .members z.hmap.nodes (zsetInorder z)
  | p => .raw p

/-- A hash with a field, or a sorted set with a member. -/
def Payload.Loaded : Payload → Prop
  | .hset h => h.nodes ≠ []
  | .zset z => z.hmap.nodes ≠ [] ∨ zsetInorder z ≠ .ok []
  | _ => False

/-- Every key but one keeps its type and what it holds, and no teardown is waiting that was not waiting before. -/
structure KeepsOthers (g g' : GlobalData) (key : Bytes) : Prop where
  types : ∀ id, id ≠ keyId key → (g'.db.find id).map (fun n => n.val.type) = (g.db.find id).map fun n => n.val.type
  contents : ∀ id, id ≠ keyId key →
    (g'.db.find id).map (fun n => n.val.payload.content) = (g.db.find id).map fun n => n.val.payload.content
  queue : g'.queue = g.queue

/-! ### Tearing down -/

theorem content_clear (e : Entry) : (Teardown.clear e).payload.content = e.payload.content ↔ ¬e.payload.Loaded := by
  rcases e with ⟨addr, payload⟩
  cases payload with
  | hset h =>
    change Content.fields [] = Content.fields h.nodes ↔ ¬h.nodes ≠ []
    rw [Content.fields.injEq, not_not, eq_comm]
  | zset z =>
    change Content.members [] (.ok []) = Content.members z.hmap.nodes (zsetInorder z) ↔
      ¬(z.hmap.nodes ≠ [] ∨ zsetInorder z ≠ .ok [])
    rw [Content.members.injEq, not_or, not_not, not_not, eq_comm, @eq_comm _ (Except.ok []) (zsetInorder z)]
  | _ => exact ⟨fun _ => nofun, fun _ => rfl⟩

theorem loaded_of_weight {e : Entry} (hs : e.payload.Shaped) (hw : Teardown.weight e ≥ largeSizeTreshold) :
    e.payload.Loaded := by
  rcases e with ⟨addr, payload⟩
  cases payload with
  | hset h =>
    have hlen : h.nodes.length ≥ largeSizeTreshold := hs.hmSize_eq ▸ hw
    intro hnil
    rw [hnil] at hlen
    exact absurd hlen (by decide)
  | zset z =>
    have hlen : z.hmap.nodes.length ≥ largeSizeTreshold := hs.hmSize_eq ▸ hw
    apply Or.inl
    intro hnil
    rw [hnil] at hlen
    exact absurd hlen (by decide)
  | _ => exact absurd hw (Nat.not_succ_le_zero _)

theorem unlinked_type (n : HNode Entry) : (unlinked n).val.type = n.val.type := by
  unfold unlinked
  split
  · rfl
  · exact clear_type n.val

theorem newPayload_not_loaded (cmd : List Bytes) (c : Command) : ¬(newPayload cmd c).Loaded := by
  rw [← content_clear ⟨0, newPayload cmd c⟩, (newPayload_bare cmd c 0).2]

/-! ### The nodes an insert moves -/

theorem mem_of_mem_hmMoves {m : HMap Entry} (h : m.Shape) {node n : HNode Entry} (hn : n ∈ hmMoves m node) :
    n = node ∨ n ∈ m.nodes := by
  obtain ⟨-, -, -, hperm⟩ := insertedNewer_spec h node
  unfold hmMoves at hn
  dsimp only at hn
  split at hn
  · split at hn
    · rcases List.mem_cons.mp (hperm.mem_iff.mp (List.mem_of_mem_take hn)) with hn | hn
      · exact .inl hn
      · exact .inr (List.mem_append_left _ hn)
    · cases hn
  · exact .inr (List.mem_append_right _ (List.mem_of_mem_take hn))

/-- A linked node that shares its identity with a moved node is that node. -/
theorem mem_hmMoves_of_ident {g : GlobalData} (h : g.WF) {node n : HNode Entry} (hnew : g.db.find node.ident = none)
    (hn : n ∈ g.db.nodes) (hid : n.ident ∈ (hmMoves g.db node).map HNode.ident) : n ∈ hmMoves g.db node := by
  obtain ⟨m, hm, hmid⟩ := List.mem_map.mp hid
  rcases mem_of_mem_hmMoves h.db.toShape hm with rfl | hmem
  · rw [hmid, h.db.find_eq_some.mpr ⟨hn, rfl⟩] at hnew
    cases hnew
  · rwa [h.db.distinct.eq_of_key_eq hn hmem hmid.symm]

/-! ### The commands that create a key -/

theorem Outcome.creates {env : Env} {g g' : GlobalData} {out out' : Bytes} {cmd : List Bytes} {c : Command}
    (ho : Outcome env g out cmd c g' out') (hnew : g.nodeOf (keyOf cmd) = none) (hmade : g'.nodeOf (keyOf cmd) ≠ none) :
    ∃ g₁, Inserted env g (keyOf cmd) (newPayload cmd c) g₁ ∧ (g' = g₁ ∨ ∃ p, Written g₁ (keyOf cmd) p g') := by
  cases ho with
  | replied _ _ => exact absurd hnew hmade
  | missing => exact absurd hnew hmade
  | refused _ _ => exact absurd hnew hmade
  | written _ hnode _ _ _ => exact absurd (hnew.symm.trans hnode) (Option.some_ne_none _).symm
  | created _ _ _ hi => exact ⟨_, hi, .inl rfl⟩
  | filled _ _ _ hi _ _ hw => exact ⟨_, hi, .inr ⟨_, hw⟩⟩
  | halfway _ _ _ hi => exact ⟨_, hi, .inl rfl⟩
  | deleted _ hnode _ => exact absurd (hnew.symm.trans hnode) (Option.some_ne_none _).symm
  | emptied _ hnode _ _ _ _ _ _ => exact absurd (hnew.symm.trans hnode) (Option.some_ne_none _).symm
  | expires _ hnode _ => exact absurd (hnew.symm.trans hnode) (Option.some_ne_none _).symm
  | persists _ hnode _ => exact absurd (hnew.symm.trans hnode) (Option.some_ne_none _).symm

theorem Inserted.find_other {env : Env} {g g₁ g' : GlobalData} {key : Bytes} {payload : Payload}
    (hi : Inserted env g key payload g₁) (hw : g' = g₁ ∨ ∃ p, Written g₁ key p g') {id : UInt64 × Bytes}
    (hid : id ≠ keyId key) :
    g'.db.find id = (g.db.find id).map (afterInsert g.db (freshNode g key payload)) := by
  have hfind := hi.find id
  rw [if_neg hid] at hfind
  rcases hw with rfl | ⟨p, hw⟩
  · exact hfind
  · rw [hw.find id, hfind]
    simp only [hid, if_false, Option.map_id']

theorem Inserted.queue_after {env : Env} {g g₁ g' : GlobalData} {key : Bytes} {payload : Payload}
    (hi : Inserted env g key payload g₁) (hw : g' = g₁ ∨ ∃ p, Written g₁ key p g') :
    g'.queue = g.queue ++ ((hmMoves g.db (freshNode g key payload)).flatMap handedOver).map fun n => n.val.addr := by
  rcases hw with rfl | ⟨p, hw⟩
  · exact hi.queue
  · rw [hw.queue, hi.queue]

theorem keepsOthers_of_not_loaded {env : Env} {g g₁ g' : GlobalData} (h : g.WF) (hs : g.Shaped) {key : Bytes}
    {payload : Payload} (hbare : payload.Bare) (hnew : g.nodeOf key = none) (hi : Inserted env g key payload g₁)
    (hw : g' = g₁ ∨ ∃ p, Written g₁ key p g')
    (hfree : ∀ n ∈ hmMoves g.db (freshNode g key payload), ¬n.val.payload.Loaded) : KeepsOthers g g' key := by
  refine ⟨fun id hid => ?_, fun id hid => ?_, ?_⟩
  · rw [hi.find_other hw hid, Option.map_map]
    congr 1
    funext n
    unfold Function.comp afterInsert
    split
    · exact unlinked_type n
    · rfl
  · rw [hi.find_other hw hid, Option.map_map]
    cases hfind : g.db.find id with
    | none => rfl
    | some n =>
      obtain ⟨hn, rfl⟩ := h.db.find_eq_some.mp hfind
      rw [Option.map_some, Option.map_some]
      unfold Function.comp afterInsert
      split
      · next hmoved =>
        have hnot := hfree n (mem_hmMoves_of_ident h hnew hn hmoved)
        unfold unlinked
        split
        · rfl
        · exact congrArg some ((content_clear n.val).mpr hnot)
      · rfl
  · have hjobs : (hmMoves g.db (freshNode g key payload)).flatMap handedOver = [] := by
      rw [List.flatMap_eq_nil_iff]
      intro n hn
      apply if_neg
      intro hweight
      rcases mem_of_mem_hmMoves h.db.toShape hn with rfl | hmem
      · have hzero : Teardown.weight (freshNode g key payload).val = 0 := (hbare g.ttl.refs.next).1
        rw [hzero] at hweight
        exact absurd hweight (by decide)
      · exact hfree n hn (loaded_of_weight (hs n hmem) hweight)
    rw [hi.queue_after hw, hjobs, List.map_nil, List.append_nil]

theorem not_loaded_of_keepsOthers {env : Env} {g g₁ g' : GlobalData} (h : g.WF) {key : Bytes} {payload : Payload}
    (hempty : ¬payload.Loaded) (hnew : g.nodeOf key = none) (hi : Inserted env g key payload g₁)
    (hw : g' = g₁ ∨ ∃ p, Written g₁ key p g') (hkeeps : KeepsOthers g g' key) :
    ∀ n ∈ hmMoves g.db (freshNode g key payload), ¬n.val.payload.Loaded := by
  intro n hn hloaded
  rcases mem_of_mem_hmMoves h.db.toShape hn with rfl | hmem
  · exact hempty hloaded
  have hfind : g.db.find n.ident = some n := h.db.find_eq_some.mpr ⟨hmem, rfl⟩
  have hid : n.ident ≠ keyId key := by
    intro hid
    rw [GlobalData.nodeOf, ← hid, hfind] at hnew
    cases hnew
  by_cases hweight : Teardown.weight n.val ≥ largeSizeTreshold
  · -- the node waits in the queue for its teardown
    have hqueue := hkeeps.queue
    rw [hi.queue_after hw, List.append_right_eq_self, List.map_eq_nil_iff, List.flatMap_eq_nil_iff] at hqueue
    have hjob := hqueue n hn
    rw [handedOver, if_pos hweight] at hjob
    cases hjob
  · have hcontent := hkeeps.contents n.ident hid
    rw [hi.find_other hw hid, hfind, Option.map_some, Option.map_some, Option.map_some, afterInsert,
      if_pos (List.mem_map_of_mem hn), unlinked, if_neg hweight] at hcontent
    exact (content_clear n.val).mp (Option.some.inj hcontent) hloaded

/-- A command that creates a key keeps the other keys exactly if no node that its insert moves is a hash with a
field or a sorted set with a member. -/
theorem create_keeps_others_iff {env : Env} {g g' : GlobalData} {r : Request} {out : Bytes} (hg : Reachable g)
    (hrun : respond env g r = .ok (g', out)) (hnew : g.nodeOf (keyOf r.tokens) = none)
    (hmade : g'.nodeOf (keyOf r.tokens) ≠ none) :
    KeepsOthers g g' (keyOf r.tokens) ↔
      ∀ n ∈ hmMoves g.db (freshNode g (keyOf r.tokens) (newPayload r.tokens (commandOf r.tokens))),
        ¬n.val.payload.Loaded := by
  obtain ⟨g₁, hi, hw⟩ := (respond_outcome hg.wf hrun).creates hnew hmade
  constructor
  · exact not_loaded_of_keepsOthers hg.wf (newPayload_not_loaded _ _) hnew hi hw
  · exact keepsOthers_of_not_loaded hg.wf hg.shaped (newPayload_bare _ _) hnew hi hw

/-- A hash with one field and thirty strings, one short of the load at which the migration starts. -/
def fullTable : List Event := .request {} (.ofTexts ["hset", "h", "f", "v"]) ::
  (List.range 30).map fun i => .request {} (.ofTexts ["set", String.singleton (Char.ofNat (65 + i)), "v"])

/-- The next key starts the migration, and the hash loses its field. -/
theorem create_loses_field : ∃ g g' out, Reachable g ∧
    respond {} g (.ofTexts ["set", "x", "v"]) = .ok (g', out) ∧ g.nodeOf (text "x") = none ∧
    g'.nodeOf (text "x") ≠ none ∧ ¬KeepsOthers g g' (text "x") := by
  obtain ⟨g, hg, hcheck⟩ := exists_ok_of_check (x := Run.run serverStep {} fullTable)
    (p := fun g => check (respond {} g (.ofTexts ["set", "x", "v"])) fun res =>
      decide (g.nodeOf (text "x") = none ∧ res.1.nodeOf (text "x") ≠ none ∧
        (res.1.db.find (keyId (text "h"))).map (fun n => n.val.payload.content) ≠
          (g.db.find (keyId (text "h"))).map fun n => n.val.payload.content)) (by decide +kernel)
  obtain ⟨⟨g', out⟩, hrun, hcheck⟩ := exists_ok_of_check hcheck
  obtain ⟨hnew, hmade, hdiff⟩ := of_decide_eq_true hcheck
  exact ⟨g, g', out, ⟨fullTable, hg⟩, hrun, hnew, hmade, fun hkeeps => hdiff (hkeeps.contents _ (by decide +kernel))⟩

/-- A second key in an empty database moves nothing. -/
theorem create_keeps_others_second : ∃ g g' out, Reachable g ∧ g.nodeOf (text "h") ≠ none ∧
    respond {} g (.ofTexts ["set", "x", "v"]) = .ok (g', out) ∧ g.nodeOf (text "x") = none ∧
    g'.nodeOf (text "x") ≠ none ∧ KeepsOthers g g' (text "x") := by
  obtain ⟨g, hg, hcheck⟩ := exists_ok_of_check
    (x := Run.run serverStep {} [.request {} (.ofTexts ["hset", "h", "f", "v"])])
    (p := fun g => check (respond {} g (.ofTexts ["set", "x", "v"])) fun res =>
      decide (g.nodeOf (text "h") ≠ none ∧ g.nodeOf (text "x") = none ∧ res.1.nodeOf (text "x") ≠ none ∧
        hmMoves g.db (freshNode g (text "x") (newPayload [text "set", text "x", text "v"] .set)) = []))
    (by decide +kernel)
  obtain ⟨⟨g', out⟩, hrun, hcheck⟩ := exists_ok_of_check hcheck
  obtain ⟨hhash, hnew, hmade, hmoves⟩ := of_decide_eq_true hcheck
  refine ⟨g, g', out, ⟨_, hg⟩, hhash, hrun, hnew, hmade, (create_keeps_others_iff ⟨_, hg⟩ hrun hnew hmade).mpr ?_⟩
  intro n hn
  have hnil : n ∈ ([] : List (HNode Entry)) := hmoves ▸ hn
  cases hnil

end CustomRedis
