import CustomRedis.Lib.Life
import CustomRedis.Proof.TtlIndex
import CustomRedis.Proof.TypeChecks

/-!
# The life of a key

A key gets its node, and with it its type, from the command that creates it, and keeps both until it is
deleted. It is deleted by `DEL`, by an `HDEL` that takes the last field, or by the timers when an entry of the
heap that points to its node has expired. The teardown in the thread pool deletes nothing.
-/

namespace CustomRedis

open Run (ok_of_bind Meets check exists_ok_of_check)

/-- A node without its payload. -/
structure Tag where
  ident : UInt64 × Bytes
  addr : Ptr
  type : EntryType
  deriving DecidableEq

def HNode.tag (n : HNode Entry) : Tag := ⟨n.ident, n.val.addr, n.val.type⟩

def GlobalData.tags (g : GlobalData) : List Tag := g.db.nodes.map HNode.tag

/-- The event creates the node: a command that creates its key, of the type the command works on. -/
def Born (g : GlobalData) (e : Event) (x : Tag) : Prop :=
  match e with
  | .request _ r => (commandOf r.tokens).Creates ∧ g.nodeOf (keyOf r.tokens) = none ∧ x.ident = keyId (keyOf r.tokens) ∧
      (commandOf r.tokens).type = some x.type ∧ x.addr = g.ttl.refs.next
  | _ => False

/-- What removes a node. -/
def Dies (g : GlobalData) (e : Event) (x : Tag) : Prop :=
  match e with
  | .request _ r => x.ident = keyId (keyOf r.tokens) ∧
      (commandOf r.tokens = .del ∨ commandOf r.tokens = .hdel ∧ lastField g r.tokens)
  | .tick now => ∃ h ∈ g.ttl.entries, h.posRef = x.addr ∧ h.val < now
  | .work => False

/-! ### The operations -/

theorem afterInsert_tag (m : HMap Entry) (node n : HNode Entry) : (afterInsert m node n).tag = n.tag := by
  have hlink := afterInsert_link m node n
  have htype : (afterInsert m node n).val.type = n.val.type := by
    unfold afterInsert
    split
    · unfold unlinked
      split
      · rfl
      · exact clear_type n.val
    · rfl
  rw [HNode.link, HNode.link, Prod.mk.injEq] at hlink
  rw [HNode.tag, HNode.tag, hlink.1, hlink.2, htype]

theorem Inserted.tags {env : Env} {g g' : GlobalData} {key : Bytes} {payload : Payload}
    (h : Inserted env g key payload g') : g'.tags.Perm (⟨keyId key, g.ttl.refs.next, payload.type⟩ :: g.tags) := by
  refine (h.nodes.map HNode.tag).trans (List.Perm.of_eq ?_)
  rw [List.map_map]
  exact List.map_congr_left fun n _ => afterInsert_tag g.db (freshNode g key payload) n

theorem Written.tags {g g' : GlobalData} {key : Bytes} {payload : Payload} (h : Written g key payload g')
    (htype : ∀ n ∈ g.db.nodes, n.ident = keyId key → payload.type = n.val.type) : g'.tags = g.tags := by
  rw [GlobalData.tags, h.nodes, List.map_map]
  refine List.map_congr_left fun n hn => ?_
  by_cases hid : n.ident = keyId key
  · simp only [Function.comp, hid, if_true, HNode.tag]
    rw [Tag.mk.injEq]
    exact ⟨hid.symm ▸ rfl, rfl, htype n hn hid⟩
  · simp only [Function.comp, hid, if_false]

theorem Deleted.tags {g g' : GlobalData} {n : HNode Entry} (h : Deleted g n g') :
    g'.tags = g.tags.filter fun x => x.ident ≠ n.ident := by
  rw [GlobalData.tags, h.nodes, GlobalData.tags, List.filter_map]
  rfl

/-! ### One step -/

/-- What a step does to the nodes. -/
structure TagStep (g : GlobalData) (e : Event) (g' : GlobalData) : Prop where
  fate : ∀ x ∈ g.tags, x ∈ g'.tags ∨ Dies g e x
  origin : ∀ x ∈ g'.tags, x ∈ g.tags ∨ Born g e x

theorem TagStep.added {g g' : GlobalData} {e : Event} {new : Tag} (htags : g'.tags.Perm (new :: g.tags))
    (hborn : Born g e new) : TagStep g e g' where
  fate x hx := .inl (htags.mem_iff.mpr (List.mem_cons_of_mem new hx))
  origin x hx := by
    rcases List.mem_cons.mp (htags.mem_iff.mp hx) with rfl | hold
    · exact .inr hborn
    · exact .inl hold

theorem TagStep.removed {g g' : GlobalData} {e : Event} {id : UInt64 × Bytes}
    (htags : g'.tags = g.tags.filter fun x => x.ident ≠ id) (hdies : ∀ x ∈ g.tags, x.ident = id → Dies g e x) :
    TagStep g e g' where
  fate x hx := by
    by_cases hid : x.ident = id
    · exact .inr (hdies x hx hid)
    · exact .inl (htags ▸ List.mem_filter.mpr ⟨hx, by simpa using hid⟩)
  origin x hx := .inl (List.mem_filter.mp (htags ▸ hx)).1

theorem Dies.of_tick {g g₁ : GlobalData} {now : Nat} {x : Tag} (hsub : ∀ e ∈ g₁.ttl.entries, e ∈ g.ttl.entries)
    (h : Dies g₁ (.tick now) x) : Dies g (.tick now) x := by
  obtain ⟨e, he, hdue⟩ := h
  exact ⟨e, hsub e he, hdue⟩

theorem TagStep.trans {g g₁ g' : GlobalData} {now : Nat} (h : TagStep g (.tick now) g₁)
    (h' : TagStep g₁ (.tick now) g') (hsub : ∀ e ∈ g₁.ttl.entries, e ∈ g.ttl.entries) : TagStep g (.tick now) g' where
  fate x hx := by
    rcases h.fate x hx with hstays | hdies
    · exact (h'.fate x hstays).imp_right (Dies.of_tick hsub)
    · exact .inr hdies
  origin x hx := (h'.origin x hx).elim (h.origin x) False.elim

end CustomRedis
