import CustomRedis.Proof.Reachable
import CustomRedis.Proof.Dlist

/-!
# The strings in the database

Every string that a command stores is a copy made with `dstr_append`, which refuses to exceed the size limit. So the
length of every key, field, member and value fits the 32 bits that a reply has for it.
-/

namespace CustomRedis

open Run (ok_of_bind)

/-- A string below the size limit of `dstr.cpp`. -/
def Brief (s : Bytes) : Prop := s.length ≤ maxStrSize

theorem Brief.lt {s : Bytes} (h : Brief s) : s.length < 2 ^ 32 := by
  unfold Brief maxStrSize at h
  omega

theorem Short.brief {s : Bytes} (h : Short s) : Brief s := by
  unfold Short at h
  unfold Brief
  omega

/-! ### Copies -/

theorem dstrAppend_brief {str str' : Dstr} {toadd : Bytes} {ret : StrRet} (hs : Brief str.buf)
    (hrun : dstrAppend str toadd = .ok (str', ret)) : Brief str'.buf := by
  unfold dstrAppend at hrun
  split at hrun
  · cases hrun
    exact hs
  · next hle =>
    dsimp only at hrun
    generalize (if str.free < toadd.length then _ else str) = grown at hrun
    split at hrun
    · cases hrun
      unfold Brief
      rw [List.length_append]
      simp only [dstrCap, Dstr.size] at hle
      omega
    · cases hrun

theorem brief_nil : Brief [] := Nat.zero_le _

theorem dstrCopy_brief {src : Bytes} {str : Dstr} (hrun : dstrCopy src = .ok str) : Brief str.buf := by
  unfold dstrCopy at hrun
  split at hrun
  · cases hrun
  · next start hinit =>
    obtain ⟨⟨copied, ret⟩, happ, hret⟩ := ok_of_bind hrun
    cases hret
    unfold dstrInit at hinit
    split at hinit
    · cases hinit
    · cases hinit
      exact dstrAppend_brief brief_nil happ

theorem newStr_brief {val : Bytes} {str : Dstr} (hrun : newStr val = .ok str) : Brief str.buf := by
  rw [newStr, dstrInit_eq (Nat.zero_le _)] at hrun
  obtain ⟨⟨copied, ret⟩, happ, hret⟩ := ok_of_bind hrun
  cases hret
  exact dstrAppend_brief brief_nil happ

theorem dstrAssign_brief {str str' : Dstr} {toadd : Bytes} {ret : StrRet} (hs : Brief str.buf)
    (hrun : dstrAssign str toadd = .ok (str', ret)) : Brief str'.buf := by
  unfold dstrAssign at hrun
  split at hrun
  · cases hrun
    exact hs
  · next start hinit =>
    obtain ⟨⟨copied, err⟩, happ, hret⟩ := ok_of_bind hrun
    unfold dstrInit at hinit
    split at hinit
    · cases hinit
    · cases hinit
      dsimp only at hret
      split at hret
      · cases hret
        exact hs
      · cases hret
        exact dstrAppend_brief brief_nil happ

/-! ### Payloads -/

/-- The strings inside a payload that a command may send. -/
def Payload.Brief : Payload → Prop
  | .str val => CustomRedis.Brief val.buf
  | .zset z => ∀ p n, z.data.read p = some n → CustomRedis.Brief n.key
  | .hset h => ∀ n ∈ h.nodes, CustomRedis.Brief n.key ∧ CustomRedis.Brief n.val.buf
  | .list l => ∀ p n, l.mem.read p = some n → CustomRedis.Brief n.val
  | .set s => ∀ n ∈ s.nodes, CustomRedis.Brief n.key
  | .bitmap _ => True
  | .hll _ => True

/-- Every key and every payload is brief. -/
def GlobalData.Brief (g : GlobalData) : Prop :=
  ∀ n ∈ g.db.nodes, CustomRedis.Brief n.key ∧ n.val.payload.Brief

theorem clear_brief {e : Entry} (h : e.payload.Brief) : (Teardown.clear e).payload.Brief := by
  rcases e with ⟨addr, payload⟩
  cases payload with
  | zset z =>
    intro p n hn
    cases hn
  | hset hmap => exact nofun
  | str | list | set | bitmap | hll => exact h

theorem GlobalData.Brief.node {g : GlobalData} (hg : g.WF) (hb : g.Brief) {key : Bytes} {n : HNode Entry}
    (hn : g.nodeOf key = some n) : n.val.payload.Brief :=
  (hb n ((GlobalData.nodeOf_eq_some hg).mp hn).1).2

theorem newPayload_brief (cmd : List Bytes) (c : Command) : (newPayload cmd c).Brief := by
  cases c with
  | set =>
    simp only [newPayload]
    cases hval : newStr (cmd.getD 2 []) with
    | ok val => exact newStr_brief hval
    | error _ => exact brief_nil
  | zadd =>
    intro p n hn
    cases hn
  | lpush =>
    intro p n hn
    cases hn
  | rpush =>
    intro p n hn
    cases hn
  | hset =>
    intro n hn
    cases hn
  | sadd =>
    intro n hn
    cases hn
  | _ => trivial

/-! ### The operations on the keyspace -/

section Keyspace

variable {env : Env} {g g' : GlobalData} {key : Bytes} {payload : Payload}

theorem Inserted.brief (hg : g.Brief) (hkey : Short key) (hp : payload.Brief) (h : Inserted env g key payload g') :
    g'.Brief := by
  have hunlinked : ∀ n : HNode Entry, CustomRedis.Brief n.key ∧ n.val.payload.Brief →
      CustomRedis.Brief (unlinked n).key ∧ (unlinked n).val.payload.Brief := by
    intro n hn
    unfold unlinked
    split
    · exact hn
    · exact ⟨hn.1, clear_brief hn.2⟩
  intro n hn
  obtain ⟨m, hm, rfl⟩ := List.mem_map.mp (h.nodes.mem_iff.mp hn)
  have hbefore : CustomRedis.Brief m.key ∧ m.val.payload.Brief := by
    rcases List.mem_cons.mp hm with rfl | hm
    · exact ⟨hkey.brief, hp⟩
    · exact hg m hm
  unfold afterInsert
  split
  · exact hunlinked m hbefore
  · exact hbefore

theorem Written.brief (hg : g.Brief) (hp : payload.Brief) (h : Written g key payload g') : g'.Brief := by
  intro n hn
  rw [h.nodes] at hn
  obtain ⟨m, hm, rfl⟩ := List.mem_map.mp hn
  split
  · exact ⟨(hg m hm).1, hp⟩
  · exact hg m hm

theorem Deleted.brief {n : HNode Entry} (hg : g.Brief) (h : Deleted g n g') : g'.Brief := by
  intro m hm
  rw [h.nodes] at hm
  exact hg m (List.mem_filter.mp hm).1

theorem putPayload_brief (hwf : g.WF) (hg : g.Brief) (hkey : Short key) {n : HNode Entry} (hn : g.nodeOf key = some n)
    (hp : payload.Brief) (hput : putPayload g key payload = .ok g') : g'.Brief := by
  obtain ⟨g₁, hw⟩ := putPayload_spec hwf hkey hn payload
  cases hw.run.symm.trans hput
  exact hw.brief hg hp

theorem expireEntries_brief {n now : Nat} (h : g.WF) (hb : g.Brief) (hrun : expireEntries n g now = .ok g') :
    g'.Brief := by
  induction n generalizing g with
  | zero =>
    cases hrun
    exact hb
  | succ n ih =>
    rw [expireEntries] at hrun
    split at hrun
    · cases hrun
      exact hb
    · split at hrun
      · obtain ⟨hnode, -, hrun⟩ := ok_of_bind hrun
        obtain ⟨ttl, httl, hrun⟩ := ok_of_bind hrun
        obtain ⟨⟨g₁, _⟩, hdel, hrun⟩ := ok_of_bind hrun
        have hwf := h.withTtl (remTtl_sameLive httl)
        have hb₁ : ({ g with ttl := ttl } : GlobalData).Brief := hb
        rcases deleteNode_ok hwf hdel with rfl | ⟨m, hd⟩
        · exact ih hwf hb₁ hrun
        · exact ih hd.wf (hd.brief hb₁) hrun
      · cases hrun
        exact hb

theorem workerStep_brief (hb : g.Brief) (hrun : workerStep g = .ok g') : g'.Brief := by
  unfold workerStep at hrun
  split at hrun
  · cases hrun
    exact hb
  · split at hrun
    · cases hrun
      intro n hn
      rw [HMap.mapVal_nodes] at hn
      obtain ⟨m, hm, rfl⟩ := List.mem_map.mp hn
      refine ⟨(hb m hm).1, ?_⟩
      dsimp only
      split
      · exact clear_brief (hb m hm).2
      · exact (hb m hm).2
    · cases hrun

end Keyspace

end CustomRedis
