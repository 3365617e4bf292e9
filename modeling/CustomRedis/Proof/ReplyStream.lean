import CustomRedis.Proof.EventLoop

/-!
# The stream of replies

A connection as its peer sees it: bytes come in in any pieces, requests are processed, and `write` takes any number of
bytes off the front of what waits. What was written so far and what waits is one frame for each request, as long as
the length of every reply is filled in. It is not for a reply above the limit of the messages, and not for one that
starts behind the first 4 GiB of what waits, since the place of its length is remembered in 32 bits.
-/

namespace CustomRedis

open Run (run ok_of_bind Along Ensures)

variable {δ : Type}

/-- A reply with its length in front. -/
def replyFrame (body : Bytes) : Bytes := leBytes 4 body.length ++ body

/-! ### One connection -/

structure Stream (δ : Type) where
  incoming : Bytes := []
  outgoing : Bytes := []
  data : δ
  /-- how many requests were processed -/
  served : Nat := 0
  /-- what `write` has taken -/
  delivered : Bytes := []

inductive StreamEvent
  | read (bytes : Bytes)
  | write (n : Nat)
  /-- a request on another connection, where `out` waits -/
  | other (out : Bytes) (r : Request)
  | tick (currMs : Nat)

/-- The commands, with the number of calls. -/
def counted (dispatch : Dispatch δ) : Dispatch (δ × Nat) := fun d out cmd => do
  let r ← dispatch d.1 out cmd
  .ok ((r.1, d.2 + 1), r.2)

def streamStep (srv : Service δ) (s : Stream δ) : StreamEvent → M (Stream δ)
  | .read bytes => do
    let r ← handleRead (counted srv.dispatch) ⟨s.incoming, s.outgoing, (s.data, s.served)⟩ bytes
    .ok { s with incoming := r.incoming, outgoing := r.outgoing, data := r.data.1, served := r.data.2 }
  | .write n => .ok { s with outgoing := bufConsume s.outgoing n, delivered := s.delivered ++ s.outgoing.take n }
  | .other out r => do
    let (data, _) ← srv.dispatch s.data (beforeResBuild out).1 r.tokens
    .ok { s with data := data }
  | .tick currMs => do
    let data ← srv.expire s.data currMs
    .ok { s with data := data }

/-- What was written and what waits is one frame for each request. -/
def Framed (s : Stream δ) : Prop :=
  ∃ bodies : List Bytes, bodies.length = s.served ∧ (∀ body ∈ bodies, body.length < 2 ^ 32) ∧
    s.delivered ++ s.outgoing = (bodies.map replyFrame).flatten

/-- A reader that follows the lengths. -/
def readRepliesAux : Nat → Bytes → List Bytes
  | 0, _ => []
  | fuel + 1, buf =>
    match completeFrame buf with
    | none => []
    | some len => (buf.drop 4).take len :: readRepliesAux fuel (buf.drop (4 + len))

def readReplies (buf : Bytes) : List Bytes := readRepliesAux (buf.length + 1) buf

/-! ### Replies whose length is filled in -/

/-- The reply to the first request starts below 4 GiB and is not too long. -/
def ReplyFits (dispatch : Dispatch δ) (conn : Conn δ) : Prop :=
  conn.outgoing.length < 2 ^ 32 ∧ Ensures (parseCmd conn.incoming 4).2 fun cmd =>
    Ensures (dispatch conn.data (beforeResBuild conn.outgoing).1 cmd) fun r =>
      r.2.length ≤ conn.outgoing.length + 4 + maxMessageLen

/-- So do the replies to all requests that a call of `handle_read` processes. -/
def AllFit (dispatch : Dispatch δ) : Nat → Conn δ → Prop
  | 0, _ => True
  | fuel + 1, conn => completeFrame conn.incoming ≠ none →
    ReplyFits dispatch conn ∧ Ensures (tryOneReq dispatch conn) fun r => AllFit dispatch fuel r.1

def RepliesFit (srv : Service δ) (s : Stream δ) : StreamEvent → Prop
  | .read bytes => AllFit (counted srv.dispatch) (s.incoming.length + bytes.length + 1)
      ⟨s.incoming ++ bytes, s.outgoing, (s.data, s.served)⟩
  | _ => True

instance decidableReplyFits (dispatch : Dispatch δ) (conn : Conn δ) : Decidable (ReplyFits dispatch conn) :=
  instDecidableAnd

instance decidableAllFit (dispatch : Dispatch δ) : (fuel : Nat) → (conn : Conn δ) → Decidable (AllFit dispatch fuel conn)
  | 0, _ => isTrue trivial
  | fuel + 1, conn =>
    have : DecidablePred fun r : Conn δ × Bool => AllFit dispatch fuel r.1 := fun r => decidableAllFit dispatch fuel r.1
    inferInstanceAs (Decidable (completeFrame conn.incoming ≠ none →
      ReplyFits dispatch conn ∧ Ensures (tryOneReq dispatch conn) fun r => AllFit dispatch fuel r.1))

instance (srv : Service δ) (s : Stream δ) : (e : StreamEvent) → Decidable (RepliesFit srv s e)
  | .read _ => decidableAllFit _ _ _
  | .write _ => instDecidableTrue
  | .other _ _ => instDecidableTrue
  | .tick _ => instDecidableTrue

section Frames

theorem afterResBuild_framed {out out' : Bytes} (hhead : out ++ replyHead <+: out') (hpos : out.length < 2 ^ 32)
    (hlen : out'.length ≤ out.length + 4 + maxMessageLen) :
    ∃ body, body.length < 2 ^ 32 ∧ afterResBuild out' (out.length % 2 ^ 32) = out ++ replyFrame body := by
  obtain ⟨rest, rfl⟩ := hhead
  rw [List.length_append, List.length_append] at hlen
  have hsplit : out ++ replyHead ++ rest = out ++ (leBytes 4 0 ++ (replyHead.drop 4 ++ rest)) := by
    rw [List.append_assoc]
    rfl
  have hten : replyHead.length = 10 := rfl
  have hbody : (replyHead.drop 4 ++ rest).length = replyHead.length + rest.length - 4 := by
    rw [List.length_append, List.length_drop]
    omega
  have hmes : (out ++ replyHead ++ rest).length - out.length - 4 = (replyHead.drop 4 ++ rest).length := by
    rw [List.length_append, List.length_append]
    omega
  refine ⟨replyHead.drop 4 ++ rest, ?_, ?_⟩
  · unfold maxMessageLen at hlen
    omega
  · rw [Nat.mod_eq_of_lt hpos, afterResBuild, hmes, if_neg (by omega), hsplit, patchU32, List.take_left,
      ← List.append_assoc out (leBytes 4 0), List.drop_left' (by rw [List.length_append, length_leBytes]), replyFrame,
      List.append_assoc]

variable {srv : Service δ} {I : δ → Prop}

/-- One request whose reply fits adds one frame. -/
theorem tryOneReq_framed (hsound : srv.Sound I) {conn conn' : Conn (δ × Nat)} {again : Bool} (hI : I conn.data.1)
    (hfits : completeFrame conn.incoming ≠ none → ReplyFits (counted srv.dispatch) conn)
    (hrun : tryOneReq (counted srv.dispatch) conn = .ok (conn', again)) :
    (again = false ∧ conn' = conn) ∨ (again = true ∧ I conn'.data.1 ∧ conn'.data.2 = conn.data.2 + 1 ∧
      completeFrame conn.incoming ≠ none ∧
      ∃ body, body.length < 2 ^ 32 ∧ conn'.outgoing = conn.outgoing ++ replyFrame body) := by
  have hrun' := hrun
  unfold tryOneReq at hrun
  split at hrun
  · cases hrun
    exact .inl ⟨rfl, rfl⟩
  · next totalLen hsome =>
    have hne : completeFrame conn.incoming ≠ none := by
      rw [hsome]
      exact nofun
    obtain ⟨hpos, hlen⟩ := hfits hne
    obtain ⟨cmd, hparse, hrun⟩ := ok_of_bind hrun
    obtain ⟨r, rfl⟩ := parseCmd_request hparse
    obtain ⟨⟨data, out⟩, hdispatch, hrun⟩ := ok_of_bind hrun
    cases hrun
    have hshort := hlen _ hparse _ hdispatch
    obtain ⟨⟨d, out₁⟩, hbase, hret⟩ := ok_of_bind hdispatch
    cases hret
    obtain ⟨hI', hhead⟩ := hsound.dispatch r hI hbase
    exact .inr ⟨rfl, hI', rfl, hne, afterResBuild_framed hhead hpos hshort⟩

theorem tryAllReqs_framed (hsound : srv.Sound I) {fuel : Nat} {conn conn' : Conn (δ × Nat)} (hI : I conn.data.1)
    (hfit : AllFit (counted srv.dispatch) fuel conn) (hrun : tryAllReqs (counted srv.dispatch) fuel conn = .ok conn') :
    I conn'.data.1 ∧ ∃ bodies : List Bytes, conn'.data.2 = conn.data.2 + bodies.length ∧
      (∀ body ∈ bodies, body.length < 2 ^ 32) ∧ conn'.outgoing = conn.outgoing ++ (bodies.map replyFrame).flatten := by
  induction fuel generalizing conn with
  | zero => cases hrun
  | succ fuel ih =>
    obtain ⟨⟨conn₁, again⟩, hone, hlast⟩ := ok_of_bind hrun
    rcases tryOneReq_framed hsound hI (fun hne => (hfit hne).1) hone with
      ⟨rfl, rfl⟩ | ⟨rfl, hI₁, hcount, hne, body, hbody, hout⟩
    · cases hlast
      refine ⟨hI, [], rfl, nofun, ?_⟩
      rw [List.map_nil, List.flatten_nil, List.append_nil]
    · obtain ⟨hI', bodies, hcount', hbodies, hout'⟩ := ih hI₁ ((hfit hne).2 _ hone) hlast
      refine ⟨hI', body :: bodies, ?_, ?_, ?_⟩
      · rw [hcount', hcount, List.length_cons]
        omega
      · exact List.forall_mem_cons.mpr ⟨hbody, hbodies⟩
      · rw [hout', hout, List.map_cons, List.flatten_cons, List.append_assoc]

theorem streamStep_framed (hsound : srv.Sound I) {s s' : Stream δ} {e : StreamEvent} (hI : I s.data) (h : Framed s)
    (hfit : RepliesFit srv s e) (hrun : streamStep srv s e = .ok s') : I s'.data ∧ Framed s' := by
  obtain ⟨bodies, hcount, hbodies, hstream⟩ := h
  cases e with
  | read bytes =>
    obtain ⟨r, hread, hret⟩ := ok_of_bind hrun
    cases hret
    rw [handleRead, bufAppend, List.length_append] at hread
    obtain ⟨hI', more, hcount', hmore, hout⟩ := tryAllReqs_framed hsound (by exact hI) hfit hread
    refine ⟨hI', bodies ++ more, ?_, ?_, ?_⟩
    · rw [List.length_append, hcount]
      exact hcount'.symm
    · intro body hbody
      rcases List.mem_append.mp hbody with hbody | hbody
      · exact hbodies body hbody
      · exact hmore body hbody
    · rw [List.map_append, List.flatten_append, ← hstream, List.append_assoc]
      exact congrArg (s.delivered ++ ·) hout
  | write n =>
    cases hrun
    refine ⟨hI, bodies, hcount, hbodies, ?_⟩
    rw [← hstream]
    show s.delivered ++ s.outgoing.take n ++ s.outgoing.drop n = _
    rw [List.append_assoc, List.take_append_drop]
  | other out r =>
    obtain ⟨⟨data, _⟩, hdispatch, hret⟩ := ok_of_bind hrun
    cases hret
    exact ⟨(hsound.dispatch r hI hdispatch).1, bodies, hcount, hbodies, hstream⟩
  | tick currMs =>
    obtain ⟨data, hexpire, hret⟩ := ok_of_bind hrun
    cases hret
    exact ⟨hsound.expire hI hexpire, bodies, hcount, hbodies, hstream⟩

end Frames

/-! ### The reader -/

theorem length_replyFrame (body : Bytes) : (replyFrame body).length = 4 + body.length := by
  rw [replyFrame, List.length_append, length_leBytes]

theorem completeFrame_replyFrame {body : Bytes} (h : body.length < 2 ^ 32) (rest : Bytes) :
    completeFrame (replyFrame body ++ rest) = some body.length := by
  have hlen := length_replyFrame body
  have hhead : leNat 4 (replyFrame body ++ rest) = body.length := by
    rw [replyFrame, List.append_assoc]
    exact leNat_leBytes_append 4 _ _ (by omega)
  rw [completeFrame, if_neg (by rw [List.length_append]; omega)]
  simp only [hhead]
  rw [if_neg (by rw [List.length_append]; omega)]

theorem readRepliesAux_frames {bodies : List Bytes} (h : ∀ body ∈ bodies, body.length < 2 ^ 32) {fuel : Nat}
    (hfuel : (bodies.map replyFrame).flatten.length < fuel) :
    readRepliesAux fuel (bodies.map replyFrame).flatten = bodies := by
  induction bodies generalizing fuel with
  | nil =>
    obtain ⟨fuel, rfl⟩ : ∃ n, fuel = n + 1 := ⟨fuel - 1, by omega⟩
    rfl
  | cons body bodies ih =>
    obtain ⟨fuel, rfl⟩ : ∃ n, fuel = n + 1 := ⟨fuel - 1, by omega⟩
    obtain ⟨hbody, hbodies⟩ := List.forall_mem_cons.mp h
    have hlen := length_replyFrame body
    rw [List.map_cons, List.flatten_cons, List.length_append] at hfuel
    rw [List.map_cons, List.flatten_cons, readRepliesAux, completeFrame_replyFrame hbody]
    dsimp only
    rw [← hlen, List.drop_left, ih hbodies (by omega), replyFrame, List.append_assoc,
      List.drop_left' (length_leBytes 4 _), List.take_left]

/-- A reader that follows the lengths finds the replies. -/
theorem Framed.read {s : Stream δ} (h : Framed s) : (readReplies (s.delivered ++ s.outgoing)).length = s.served ∧
    ((readReplies (s.delivered ++ s.outgoing)).map replyFrame).flatten = s.delivered ++ s.outgoing := by
  obtain ⟨bodies, hcount, hbodies, hstream⟩ := h
  have hread : readReplies (s.delivered ++ s.outgoing) = bodies := by
    rw [hstream]
    exact readRepliesAux_frames hbodies (Nat.lt_succ_self _)
  rw [hread]
  exact ⟨hcount, hstream.symm⟩

/-- If no reply is too long or starts too far behind in what waits, the peer gets one frame for each request, however
the bytes come in and go out, and a reader that follows the lengths never loses its place. -/
theorem replies_framed (envs : Nat → Env) (events : List StreamEvent) (s : Stream (GlobalData × Nat))
    (hfit : Along (streamStep (redisService envs)) (RepliesFit (redisService envs)) { data := ({}, 0) } events)
    (hrun : run (streamStep (redisService envs)) { data := ({}, 0) } events = .ok s) :
    Framed s ∧ (readReplies (s.delivered ++ s.outgoing)).length = s.served ∧
      ((readReplies (s.delivered ++ s.outgoing)).map replyFrame).flatten = s.delivered ++ s.outgoing := by
  have hempty : ({} : GlobalData).WF ∧ ({} : GlobalData).Shaped := ⟨GlobalData.WF.empty, nofun⟩
  have hframed : (s.data.1.WF ∧ s.data.1.Shaped) ∧ Framed s := by
    refine Run.invariant_along (I := fun s => (s.data.1.WF ∧ s.data.1.Shaped) ∧ Framed s) (fun s e s' h hok hstep => ?_)
      ⟨hempty, [], rfl, nofun, rfl⟩ hfit hrun
    exact streamStep_framed (redisService_sound envs) h.1 h.2 hok hstep
  exact ⟨hframed.2, hframed.2.read⟩

/-- Two requests in one piece, and their replies in two. -/
theorem replies_framed_pipelined :
    ∃ s, run (streamStep (redisService fun _ => {})) { data := ({}, 0) }
        [.read (frame [text "keys"] ++ frame [text "get", text "k"]), .write 7, .write 100] = .ok s ∧ Framed s ∧
      (readReplies (s.delivered ++ s.outgoing)).length = 2 := by
  have hcheck : Run.check (run (streamStep (redisService fun _ => {})) { data := ({}, 0) }
      [.read (frame [text "keys"] ++ frame [text "get", text "k"]), .write 7, .write 100]) (fun s => s.served = 2) = true := by
    decide +kernel
  obtain ⟨s, hrun, hserved⟩ := Run.exists_ok_of_check hcheck
  obtain ⟨hframed, hlen, -⟩ := replies_framed _ _ s (by decide +kernel) hrun
  exact ⟨s, hrun, hframed, hlen.trans (of_decide_eq_true hserved)⟩

/-! ### A reply that is too long -/

theorem newStr_ok {val : Bytes} (h : Short val) : ∃ str, newStr val = .ok str ∧ str.buf = val := by
  have hsound : Dstr.Sound ⟨[], 0, sizeofDstr + 0 + 1⟩ := Nat.le_refl _
  have hle : val.length + dstrCap ⟨[], 0, sizeofDstr + 0 + 1⟩ ≤ maxStrSize := by
    have hcap : dstrCap ⟨[], 0, sizeofDstr + 0 + 1⟩ = 0 := rfl
    unfold Short at h
    omega
  obtain ⟨str, happ, hbuf⟩ := dstrAppend_ok hsound hle
  refine ⟨str, ?_, hbuf⟩
  rw [newStr, dstrInit_eq (Nat.zero_le _)]
  simp only [happ]
  rfl

/-- A value of any length that a request can have is stored and read back. -/
theorem set_get_reply (env : Env) {key val : Bytes} (hkey : Short key) (hval : Short val) (out : Bytes) :
    ∃ g, outBuffer env {} out [text "set", key, val] = .ok (g, outNull out) ∧
      ∀ env' out', outBuffer env' g out' [text "get", key] = .ok (g, outStr out' val) := by
  obtain ⟨str, hnew, hbuf⟩ := newStr_ok hval
  have hnone : ({} : GlobalData).nodeOf key = none := rfl
  obtain ⟨g, hi⟩ := insertNode_spec env GlobalData.WF.empty hkey hnone (.str str)
  have hnode := hi.nodeOf (bare_of_type nofun nofun)
  refine ⟨g, ?_, fun env' out' => ?_⟩
  · have hset : doSet env {} out [text "set", key, val] = .ok ⟨g, outNull out, .success⟩ := by
      show (findNode {} key >>= _) = _
      rw [findNode_bind GlobalData.WF.empty hkey, hnone]
      simp only [hnew, hi.run, bind, Except.bind]
    show (doSet env {} out [text "set", key, val] >>= _) = _
    rw [hset]
    rfl
  · have hget : doGet g out' [text "get", key] = .ok ⟨g, outStr out' val, .success⟩ := by
      show (findNode g key >>= _) = _
      rw [findNode_bind hi.wf hkey, hnode]
      simp only [freshNode, hbuf]
    show (doGet g out' [text "get", key] >>= _) = _
    rw [hget]
    rfl

theorem handleRead_frame (dispatch : Dispatch δ) {query : List Bytes} (h : Sendable query) (data : δ) :
    handleRead dispatch ⟨[], [], data⟩ (frame query) =
      (answer dispatch (data, []) query).map fun s => ⟨[], s.2, s.1⟩ := by
  have hwait : Waiting [query] [] := by
    have hlen := length_frame query
    show 0 < (frame query).length
    omega
  have hcut : [] ++ [frame query].flatten = [query].flatMap frame := by
    rw [List.flatten_singleton, List.flatMap_singleton]
    rfl
  have hchunks := handleRead_chunks dispatch [query] (by simpa using h) [frame query] [] hwait hcut (data, [])
  rw [List.foldlM_cons, List.foldlM_cons] at hchunks
  simp only [List.foldlM_nil, bind_pure] at hchunks
  exact hchunks

/-- The request that stores a value under `k`. -/
def setRequest (val : Bytes) (h : Short val) : Request where
  tokens := [text "set", text "k", val]
  short := by
    intro t ht
    simp only [List.mem_cons, List.not_mem_nil, or_false] at ht
    rcases ht with rfl | rfl | rfl
    · decide
    · decide
    · exact h

theorem text_k_short : Short (text "k") := by
  unfold Short
  decide

/-- Another connection stores a long value, and this one asks for it. The length of the reply stays zero. -/
theorem long_value_not_framed {val : Bytes} (hval : Short val) (hlong : maxMessageLen ≤ val.length) :
    ∃ s, run (streamStep (redisService fun _ => {})) { data := ({}, 0) }
      [.other [] (setRequest val hval), .read (frame [text "get", text "k"])] = .ok s ∧ ¬Framed s := by
  obtain ⟨g, hset, hget⟩ := set_get_reply {} text_k_short hval (beforeResBuild []).1
  obtain ⟨out, hout⟩ : ∃ out, out = outStr (beforeResBuild []).1 val := ⟨_, rfl⟩
  have hlen : 4 + maxMessageLen < out.length := by
    rw [hout, outStr, bufAppend, List.length_append]
    show 4 + maxMessageLen < 19 + val.length
    omega
  have hother : streamStep (redisService fun _ => {}) { data := ({}, 0) } (.other [] (setRequest val hval)) =
      .ok { data := (g, 1) } := by
    show ((outBuffer {} {} (beforeResBuild []).1 [text "set", text "k", val] >>= _) >>= _) = _
    rw [hset]
    rfl
  have hanswer : answer (counted (redisService fun _ => {}).dispatch) (((g, 1), 0), []) [text "get", text "k"] =
      .ok (((g, 2), 1), out) := by
    show (((outBuffer {} g (beforeResBuild []).1 [text "get", text "k"] >>= _) >>= _) >>= _) = _
    rw [hget, ← hout]
    show Except.ok (((g, 2), 1), afterResBuild out 0) = _
    rw [afterResBuild, if_pos (by omega)]
  have hsend : Sendable [text "get", text "k"] := by
    unfold Sendable
    decide
  refine ⟨{ data := (g, 2), served := 1, outgoing := out }, ?_, ?_⟩
  · rw [Run.run_cons_ok hother]
    refine Run.run_cons_ok ?_ []
    show (handleRead _ ⟨[], [], ((g, 1), 0)⟩ (frame [text "get", text "k"]) >>= _) = _
    rw [handleRead_frame _ hsend, hanswer]
    rfl
  · rintro ⟨bodies, hcount, hshort, hstream⟩
    obtain ⟨body, rfl⟩ := List.length_eq_one_iff.mp hcount
    rw [List.map_singleton, List.flatten_singleton] at hstream
    replace hstream : out = replyFrame body := hstream
    have hzero : leNat 4 out = 0 := by
      rw [hout]
      rfl
    have hbody := hshort body (List.mem_singleton_self _)
    rw [hstream, replyFrame, leNat_leBytes_append 4 _ _ (by omega)] at hzero
    rw [hstream, length_replyFrame, hzero] at hlen
    omega

/-- The value is 32 MiB of zeros. -/
theorem long_reply_not_framed : ∃ (val : Bytes) (hval : Short val), val.length = 32 * 2 ^ 20 ∧
    ∃ s, run (streamStep (redisService fun _ => {})) { data := ({}, 0) }
      [.other [] (setRequest val hval), .read (frame [text "get", text "k"])] = .ok s ∧ ¬Framed s := by
  have hlen : (List.replicate (32 * 2 ^ 20) (0 : UInt8)).length = 32 * 2 ^ 20 := List.length_replicate
  have hval : Short (List.replicate (32 * 2 ^ 20) 0) := by
    unfold Short maxStrSize
    omega
  exact ⟨_, hval, hlen, long_value_not_framed hval (Nat.le_of_eq hlen.symm)⟩

end CustomRedis
