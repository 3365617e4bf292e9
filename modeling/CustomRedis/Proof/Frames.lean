import CustomRedis.Model.Server
import CustomRedis.Model.Client
import CustomRedis.Lib.Run
import Mathlib.Tactic

/-!
# Frames between the client and the server

The bytes the client writes for a query, and the server's loop over the bytes it has read. The loop is
followed for any `dispatch`, so what it dispatches does not depend on what the commands do. A buffer that is
a prefix of the frames still to come is a number of whole frames and the beginning of another one, and each
call of `handle_read` takes the whole ones off. The second half is about frames that no client has written:
what `parse_cmd` reads when the counts inside a frame are arbitrary.
-/

namespace CustomRedis

open Run (ok_of_bind check exists_ok_of_check)

/-! ### Numbers and slices -/

theorem length_leBytes (n x : Nat) : (leBytes n x).length = n := by
  induction n generalizing x with
  | zero => rfl
  | succ n ih => rw [leBytes, List.length_cons, ih]

theorem leNat_leBytes_append_mod (n x : Nat) (rest : Bytes) : leNat n (leBytes n x ++ rest) = x % 256 ^ n := by
  induction n generalizing x with
  | zero => rw [leNat, pow_zero, Nat.mod_one]
  | succ n ih =>
    rw [leBytes, List.cons_append, leNat, List.headD_cons, List.tail_cons, ih, UInt8.toNat_ofNat', pow_succ' 256 n,
      Nat.mod_mul]

theorem leNat_leBytes_append (n x : Nat) (rest : Bytes) (hx : x < 256 ^ n) : leNat n (leBytes n x ++ rest) = x := by
  rw [leNat_leBytes_append_mod, Nat.mod_eq_of_lt hx]

theorem leNat_leBytes (n x : Nat) (hx : x < 256 ^ n) : leNat n (leBytes n x) = x := by
  have h := leNat_leBytes_append n x [] hx
  rwa [List.append_nil] at h

theorem bytesAt_append (before part after : Bytes) :
    bytesAt (before ++ (part ++ after)) ⟨before.length, part.length⟩ = .ok part := by
  rw [bytesAt, if_pos (by simp only [List.length_append]; omega), List.drop_left, List.take_left]

/-! ### What the client writes -/

/-- A token as the client writes it. -/
def record (token : Bytes) : Bytes := tagStr :: (leBytes 4 token.length ++ token)

/-- The message for a query behind its length. -/
def message (query : List Bytes) : Bytes := tagArr :: (leBytes 4 query.length ++ query.flatMap record)

def frame (query : List Bytes) : Bytes := leBytes 4 (message query).length ++ message query

/-- The size of the message, not reduced to 32 bits. -/
def messageSize (query : List Bytes) : Nat := 5 + (query.map fun token => 5 + token.length).sum

theorem length_record (token : Bytes) : (record token).length = 5 + token.length := by
  rw [record, List.length_cons, List.length_append, length_leBytes]
  omega

theorem length_message (query : List Bytes) : (message query).length = messageSize query := by
  rw [message, List.length_cons, List.length_append, length_leBytes, List.length_flatMap, messageSize]
  simp only [length_record]
  omega

theorem length_frame (query : List Bytes) : (frame query).length = 4 + (message query).length := by
  rw [frame, List.length_append, length_leBytes]

theorem foldl_size (query : List Bytes) (n : Nat) (h : n + (query.map fun token => 5 + token.length).sum < 2 ^ 32) :
    query.foldl (fun n token => (n + (5 + token.length)) % 2 ^ 32) n =
      n + (query.map fun token => 5 + token.length).sum := by
  induction query generalizing n with
  | nil => rfl
  | cons token query ih =>
    rw [List.map_cons, List.sum_cons] at h ⊢
    rw [List.foldl_cons, Nat.mod_eq_of_lt (by omega), ih _ (by omega)]
    omega

theorem foldl_records (query : List Bytes) (buf : Bytes) :
    query.foldl (fun buf token => bufAppend (bufAppendU32 (bufAppendU8 buf tagStr) token.length) token) buf =
      buf ++ query.flatMap record := by
  induction query generalizing buf with
  | nil => rw [List.foldl_nil, List.flatMap_nil, List.append_nil]
  | cons token query ih =>
    rw [List.foldl_cons, ih, List.flatMap_cons]
    simp only [bufAppend, bufAppendU32, bufAppendU8, record, List.append_assoc, List.cons_append, List.nil_append]

/-- Within the limit the client writes the frame. -/
theorem handleWrite_eq {query : List Bytes} (h : messageSize query ≤ clientMaxMessageLen) :
    handleWrite query = some (frame query) := by
  have hlimit : clientMaxMessageLen < 2 ^ 32 := by decide
  have hsize : querySize query = (message query).length := by
    rw [length_message]
    exact foldl_size query 5 (by unfold messageSize at h; omega)
  rw [← length_message] at h
  rw [handleWrite]
  simp only [hsize, foldl_records]
  rw [if_neg (by omega), frame, message]
  simp only [bufAppend, bufAppendU32, bufAppendU8, List.nil_append, List.append_assoc, List.cons_append]

/-! ### What the server parses -/

theorem parseTokens_records (before : Bytes) (query : List Bytes) (after : Bytes)
    (h : ∀ token ∈ query, 2 * token.length ≤ maxStrSize) :
    (parseTokens (before ++ (query.flatMap record ++ after)) query.length before.length).2 = .ok query := by
  induction query generalizing before with
  | nil => rfl
  | cons token query ih =>
    have htoken : 2 * token.length ≤ maxStrSize := h token (List.mem_cons_self)
    have hlen : token.length < 256 ^ 4 := by
      unfold maxStrSize at htoken
      omega
    have hrest := ih (before ++ record token) fun t ht => h t (List.mem_cons_of_mem _ ht)
    have hbuf : before ++ ((token :: query).flatMap record ++ after) =
        (before ++ record token) ++ (query.flatMap record ++ after) := by
      rw [List.flatMap_cons, List.append_assoc, List.append_assoc]
    rw [hbuf]
    have htag : bytesAt ((before ++ record token) ++ (query.flatMap record ++ after)) ⟨before.length, 1⟩ = .ok [tagStr] := by
      have hat := bytesAt_append before [tagStr] (leBytes 4 token.length ++ token ++ (query.flatMap record ++ after))
      simpa [record] using hat
    have hcount : bytesAt ((before ++ record token) ++ (query.flatMap record ++ after)) ⟨before.length + 1, 4⟩ =
        .ok (leBytes 4 token.length) := by
      have hat := bytesAt_append (before ++ [tagStr]) (leBytes 4 token.length) (token ++ (query.flatMap record ++ after))
      rw [List.length_append, List.length_singleton, length_leBytes] at hat
      simpa [record] using hat
    have hbody : bytesAt ((before ++ record token) ++ (query.flatMap record ++ after))
        ⟨before.length + 5, token.length⟩ = .ok token := by
      have hat := bytesAt_append (before ++ tagStr :: leBytes 4 token.length) token (query.flatMap record ++ after)
      rw [List.length_append, List.length_cons, length_leBytes] at hat
      simpa [record] using hat
    rw [List.length_append, length_record, ← Nat.add_assoc] at hrest
    rw [List.length_cons, parseTokens]
    simp only [htag, hcount, hbody, leNat_leBytes 4 _ hlen, dstrInit_eq (show token.length ≤ maxStrSize by omega),
      dstrCap, Dstr.size, List.length_nil, Nat.add_zero]
    rw [if_neg (by omega)]
    simp only [hrest]
    rfl

theorem parseCmd_frame {query : List Bytes} (h : ∀ token ∈ query, 2 * token.length ≤ maxStrSize)
    (hcount : query.length < 2 ^ 32) (rest : Bytes) : (parseCmd (frame query ++ rest) 4).2 = .ok query := by
  have hbuf : frame query ++ rest = (leBytes 4 (message query).length ++ (tagArr :: leBytes 4 query.length)) ++
      (query.flatMap record ++ rest) := by
    simp only [frame, message, List.append_assoc, List.cons_append]
  have htag : bytesAt (frame query ++ rest) ⟨4, 1⟩ = .ok [tagArr] := by
    have hat := bytesAt_append (leBytes 4 (message query).length) [tagArr]
      (leBytes 4 query.length ++ (query.flatMap record ++ rest))
    rw [length_leBytes] at hat
    simpa [frame, message] using hat
  have hnstr : bytesAt (frame query ++ rest) ⟨5, 4⟩ = .ok (leBytes 4 query.length) := by
    have hat := bytesAt_append (leBytes 4 (message query).length ++ [tagArr]) (leBytes 4 query.length)
      (query.flatMap record ++ rest)
    rw [List.length_append, List.length_singleton, length_leBytes, length_leBytes] at hat
    simpa [frame, message] using hat
  have htokens := parseTokens_records (leBytes 4 (message query).length ++ (tagArr :: leBytes 4 query.length)) query rest h
  rw [← hbuf, List.length_append, List.length_cons, length_leBytes, length_leBytes] at htokens
  rw [parseCmd]
  simp only [htag, hnstr, leNat_leBytes 4 query.length (by omega)]
  exact htokens

/-! ### The loop over the frames -/

/-- A request the client sends. -/
def Sendable (query : List Bytes) : Prop := messageSize query ≤ clientMaxMessageLen

theorem le_messageSize {query : List Bytes} {token : Bytes} (h : token ∈ query) : token.length ≤ messageSize query := by
  have hle := List.single_le_sum (l := query.map fun token => 5 + token.length) (by simp) (5 + token.length)
    (List.mem_map_of_mem h)
  unfold messageSize
  omega

theorem Sendable.short {query : List Bytes} (h : Sendable query) : ∀ token ∈ query, 2 * token.length ≤ maxStrSize := by
  intro token htoken
  have hle := le_messageSize htoken
  unfold Sendable clientMaxMessageLen at h
  unfold maxStrSize
  omega

theorem Sendable.length_message_lt {query : List Bytes} (h : Sendable query) : (message query).length < 256 ^ 4 := by
  unfold Sendable clientMaxMessageLen at h
  rw [length_message]
  omega

theorem length_le_message (query : List Bytes) : query.length ≤ (message query).length := by
  have hle := List.length_le_sum_of_one_le (query.map fun token => 5 + token.length) (by
    intro n hn
    obtain ⟨token, -, rfl⟩ := List.mem_map.mp hn
    omega)
  rw [List.length_map] at hle
  rw [length_message, messageSize]
  omega

section Loop

variable {δ : Type} (dispatch : Dispatch δ)

/-- What a connection does with one command. -/
def answer (s : δ × Bytes) (cmd : List Bytes) : M (δ × Bytes) := do
  let (out, header) := beforeResBuild s.2
  let (data, out) ← dispatch s.1 out cmd
  .ok (data, afterResBuild out header)

theorem completeFrame_frame {query : List Bytes} (h : Sendable query) (rest : Bytes) :
    completeFrame (frame query ++ rest) = some (message query).length := by
  have hlen := length_frame query
  have hhead : leNat 4 (frame query ++ rest) = (message query).length := by
    rw [frame, List.append_assoc]
    exact leNat_leBytes_append 4 _ _ h.length_message_lt
  rw [completeFrame, if_neg (by rw [List.length_append]; omega)]
  simp only [hhead]
  rw [if_neg (by rw [List.length_append]; omega)]

/-- A proper beginning of a frame is not yet a frame. -/
theorem completeFrame_short {query : List Bytes} (h : Sendable query) {buf : Bytes} (hpre : buf <+: frame query)
    (hlt : buf.length < (frame query).length) : completeFrame buf = none := by
  rw [completeFrame]
  by_cases hfour : buf.length < 4
  · rw [if_pos hfour]
  · have hhead : leBytes 4 (message query).length <+: buf :=
      List.prefix_of_prefix_length_le (List.prefix_append _ _) hpre (by rw [length_leBytes]; omega)
    obtain ⟨rest, rfl⟩ := hhead
    rw [if_neg hfour, leNat_leBytes_append 4 _ _ h.length_message_lt]
    rw [length_frame] at hlt
    exact if_pos (by omega)

theorem tryOneReq_frame {query : List Bytes} (h : Sendable query) (rest : Bytes) (out : Bytes) (data : δ) :
    tryOneReq dispatch ⟨frame query ++ rest, out, data⟩ =
      (answer dispatch (data, out) query).map fun s => (⟨rest, s.2, s.1⟩, true) := by
  have hcount : query.length < 2 ^ 32 := by
    have hle := length_le_message query
    have hlt := h.length_message_lt
    omega
  have hconsume : bufConsume (frame query ++ rest) (4 + (message query).length) = rest := by
    rw [← length_frame, bufConsume, List.drop_left]
  simp only [tryOneReq, completeFrame_frame h, parseCmd_frame h.short hcount, answer, bind, Except.bind]
  cases dispatch data (beforeResBuild out).1 query with
  | error e => rfl
  | ok s => simp only [Except.map, hconsume]

theorem tryOneReq_none {conn : Conn δ} (h : completeFrame conn.incoming = none) :
    tryOneReq dispatch conn = .ok (conn, false) := by
  rw [tryOneReq, h]

/-- The bytes in the buffer are less than the next frame. -/
def Waiting : List (List Bytes) → Bytes → Prop
  | [], buf => buf = []
  | query :: _, buf => buf.length < (frame query).length

/-- The loop over a buffer of frames dispatches the whole ones and keeps the rest. -/
theorem tryAllReqs_spec (queries : List (List Bytes)) (hsend : ∀ q ∈ queries, Sendable q) (buf : Bytes)
    (hpre : buf <+: queries.flatMap frame) (fuel : Nat) (hfuel : buf.length < fuel) (s : δ × Bytes) :
    ∃ done left rest, queries = done ++ left ∧ buf = done.flatMap frame ++ rest ∧ Waiting left rest ∧
      tryAllReqs dispatch fuel ⟨buf, s.2, s.1⟩ =
        (done.foldlM (answer dispatch) s).map fun s => ⟨rest, s.2, s.1⟩ := by
  induction queries generalizing buf fuel s with
  | nil =>
    obtain ⟨fuel, rfl⟩ : ∃ n, fuel = n + 1 := ⟨fuel - 1, by omega⟩
    obtain rfl : buf = [] := List.prefix_nil.mp hpre
    refine ⟨[], [], [], rfl, rfl, rfl, ?_⟩
    rw [tryAllReqs, tryOneReq_none dispatch (by rfl)]
    rfl
  | cons query queries ih =>
    obtain ⟨fuel, rfl⟩ : ∃ n, fuel = n + 1 := ⟨fuel - 1, by omega⟩
    have hquery := hsend query List.mem_cons_self
    rw [List.flatMap_cons] at hpre
    by_cases hlt : buf.length < (frame query).length
    · have hpart := List.prefix_of_prefix_length_le hpre (List.prefix_append _ _) hlt.le
      refine ⟨[], query :: queries, buf, rfl, rfl, hlt, ?_⟩
      rw [tryAllReqs, tryOneReq_none dispatch (completeFrame_short hquery hpart hlt)]
      rfl
    · obtain ⟨buf', rfl⟩ := List.prefix_of_prefix_length_le (List.prefix_append _ _) hpre (Nat.le_of_not_lt hlt)
      rw [List.prefix_append_right_inj] at hpre
      have hlen := length_frame query
      rw [List.length_append] at hfuel
      rw [tryAllReqs, tryOneReq_frame dispatch hquery]
      cases hans : answer dispatch (s.1, s.2) query with
      | error e =>
        -- the command faults, and so does the whole loop
        obtain ⟨done, left, rest, hsplit, hbuf, hwait, -⟩ :=
          ih (fun q hq => hsend q (List.mem_cons_of_mem _ hq)) buf' hpre fuel (by omega) s
        refine ⟨query :: done, left, rest, by rw [hsplit]; rfl, ?_, hwait, ?_⟩
        · rw [hbuf, List.flatMap_cons, List.append_assoc]
        · rw [List.foldlM_cons, show answer dispatch s query = _ from hans]
          rfl
      | ok s' =>
        obtain ⟨done, left, rest, hsplit, hbuf, hwait, hrun⟩ :=
          ih (fun q hq => hsend q (List.mem_cons_of_mem _ hq)) buf' hpre fuel (by omega) s'
        refine ⟨query :: done, left, rest, by rw [hsplit]; rfl, ?_, hwait, ?_⟩
        · rw [hbuf, List.flatMap_cons, List.append_assoc]
        · rw [List.foldlM_cons, show answer dispatch s query = _ from hans]
          simp only [Except.map, bind, Except.bind, if_true]
          exact hrun

/-- Bytes that arrive in any pieces are answered as the queries they encode. -/
theorem handleRead_chunks (queries : List (List Bytes)) (hsend : ∀ q ∈ queries, Sendable q) (chunks : List Bytes)
    (buf : Bytes) (hwait : Waiting queries buf) (hcut : buf ++ chunks.flatten = queries.flatMap frame) (s : δ × Bytes) :
    chunks.foldlM (handleRead dispatch) ⟨buf, s.2, s.1⟩ =
      (queries.foldlM (answer dispatch) s).map fun s => ⟨[], s.2, s.1⟩ := by
  induction chunks generalizing queries buf s with
  | nil =>
    rw [List.flatten_nil, List.append_nil] at hcut
    cases queries with
    | nil =>
      cases hwait
      rfl
    | cons query queries =>
      have hlen := congrArg List.length hcut
      rw [List.flatMap_cons, List.length_append] at hlen
      unfold Waiting at hwait
      omega
  | cons chunk chunks ih =>
    rw [List.flatten_cons, ← List.append_assoc] at hcut
    obtain ⟨done, left, rest, rfl, hbuf, hwait', hrun⟩ := tryAllReqs_spec dispatch queries hsend (buf ++ chunk)
      ⟨_, hcut⟩ ((buf ++ chunk).length + 1) (Nat.lt_succ_self _) s
    have hread : handleRead dispatch ⟨buf, s.2, s.1⟩ chunk =
        (done.foldlM (answer dispatch) s).map fun s => ⟨rest, s.2, s.1⟩ := hrun
    rw [List.foldlM_cons, hread, List.foldlM_append]
    cases hdone : done.foldlM (answer dispatch) s with
    | error e => rfl
    | ok s' =>
      have hcut' : rest ++ chunks.flatten = left.flatMap frame := by
        rw [hbuf, List.append_assoc, List.flatMap_append] at hcut
        exact List.append_cancel_left hcut
      exact ih left (fun q hq => hsend q (List.mem_append_right _ hq)) rest hwait' hcut' s'

end Loop

/-- A command that only writes down that it was called. -/
def recorder : Dispatch (List (List Bytes)) := fun calls out cmd => .ok (calls ++ [cmd], out)

theorem foldlM_recorder (queries calls : List (List Bytes)) (out : Bytes) :
    ∃ out', queries.foldlM (answer recorder) (calls, out) = .ok (calls ++ queries, out') := by
  induction queries generalizing calls out with
  | nil => exact ⟨out, by rw [List.append_nil]; rfl⟩
  | cons query queries ih =>
    obtain ⟨out', hrun⟩ := ih (calls ++ [query]) (afterResBuild (beforeResBuild out).1 (beforeResBuild out).2)
    refine ⟨out', ?_⟩
    rw [List.append_assoc, List.singleton_append] at hrun
    rw [List.foldlM_cons]
    exact hrun

theorem mapM_handleWrite (queries : List (List Bytes)) (hsend : ∀ q ∈ queries, Sendable q) :
    queries.mapM handleWrite = some (queries.map frame) := by
  induction queries with
  | nil => rfl
  | cons query queries ih =>
    rw [List.mapM_cons, handleWrite_eq (hsend query List.mem_cons_self), ih fun q hq => hsend q (List.mem_cons_of_mem _ hq)]
    rfl

/-- However the bytes of the client's queries are cut into pieces, the server calls its commands with these
queries, in order and once each, and has no bytes left. -/
theorem codec_any_chunking (queries : List (List Bytes))
    (hsize : ∀ q ∈ queries, messageSize q ≤ clientMaxMessageLen) :
    ∃ frames, queries.mapM handleWrite = some frames ∧
      ∀ chunks : List Bytes, chunks.flatten = frames.flatten →
        (∀ (δ : Type) (dispatch : Dispatch δ) (data : δ) (out : Bytes),
          chunks.foldlM (handleRead dispatch) ⟨[], out, data⟩ =
            (queries.foldlM (answer dispatch) (data, out)).map fun s => ⟨[], s.2, s.1⟩) ∧
        ∃ out', chunks.foldlM (handleRead recorder) ⟨[], [], []⟩ = .ok ⟨[], out', queries⟩ := by
  refine ⟨queries.map frame, mapM_handleWrite queries hsize, fun chunks hcut => ?_⟩
  have hwait : Waiting queries [] := by
    cases queries with
    | nil => rfl
    | cons query queries =>
      have hlen := length_frame query
      change 0 < (frame query).length
      omega
  have hall : ∀ (δ : Type) (dispatch : Dispatch δ) (data : δ) (out : Bytes),
      chunks.foldlM (handleRead dispatch) ⟨[], out, data⟩ =
        (queries.foldlM (answer dispatch) (data, out)).map fun s => ⟨[], s.2, s.1⟩ := fun δ dispatch data out =>
    handleRead_chunks dispatch queries hsize chunks [] hwait hcut (data, out)
  refine ⟨hall, ?_⟩
  obtain ⟨out', hrun⟩ := foldlM_recorder queries [] []
  refine ⟨out', ?_⟩
  rw [hall, hrun]
  rfl

/-- Two queries in three pieces. -/
theorem codec_two_queries : ∃ frames, [[text "get", text "k"], [text "keys"]].mapM handleWrite = some frames ∧
    ∃ out', [frames.flatten.take 3, (frames.flatten.drop 3).take 20, frames.flatten.drop 23].foldlM
      (handleRead recorder) ⟨[], [], []⟩ = .ok ⟨[], out', [[text "get", text "k"], [text "keys"]]⟩ := by
  obtain ⟨frames, hwrite, hserve⟩ := codec_any_chunking [[text "get", text "k"], [text "keys"]] (by decide)
  obtain ⟨-, hcalls⟩ := hserve [frames.flatten.take 3, (frames.flatten.drop 3).take 20, frames.flatten.drop 23] (by
    simp only [List.flatten_cons, List.flatten_nil, List.append_nil]
    rw [show frames.flatten.drop 23 = (frames.flatten.drop 3).drop 20 by rw [List.drop_drop], List.take_append_drop,
      List.take_append_drop])
  exact ⟨frames, hwrite, hcalls⟩

/-! ### Frames with arbitrary counts -/

/-- The tokens from a position on end before the limit: every header does, and every body that is read. No token
is above the size limit of a string. -/
def TokensFit (buf : Bytes) (limit : Nat) : Nat → Nat → Prop
  | 0, _ => True
  | n + 1, pos => pos + 5 ≤ limit ∧ leNat 4 (buf.drop (pos + 1)) ≤ maxStrSize ∧
      (2 * leNat 4 (buf.drop (pos + 1)) ≤ maxStrSize → pos + 5 + leNat 4 (buf.drop (pos + 1)) ≤ limit) ∧
      TokensFit buf limit n (pos + 5 + leNat 4 (buf.drop (pos + 1)))

instance decidableTokensFit (buf : Bytes) (limit : Nat) : (n pos : Nat) → Decidable (TokensFit buf limit n pos)
  | 0, _ => isTrue trivial
  | n + 1, pos =>
    have := decidableTokensFit buf limit n (pos + 5 + leNat 4 (buf.drop (pos + 1)))
    inferInstanceAs (Decidable (_ ∧ _ ∧ _ ∧ _))

/-- A frame of the given length holds at least one token and all it counts. -/
def FrameFits (buf : Bytes) (totalLen : Nat) : Prop :=
  5 ≤ totalLen ∧ 1 ≤ leNat 4 (buf.drop 5) ∧ TokensFit buf (4 + totalLen) (leNat 4 (buf.drop 5)) 9

theorem leNat_take (n : Nat) (buf : Bytes) : leNat n (buf.take n) = leNat n buf := by
  induction n generalizing buf with
  | zero => rfl
  | succ n ih =>
    cases buf with
    | nil => rfl
    | cons b buf => rw [List.take_succ_cons, leNat, leNat, List.headD_cons, List.headD_cons, List.tail_cons,
        List.tail_cons, ih]

theorem bytesAt_eq {buf : Bytes} {pos len : Nat} (h : pos + len ≤ buf.length) :
    bytesAt buf ⟨pos, len⟩ = .ok ((buf.drop pos).take len) :=
  if_pos h

/-- What `parse_cmd` reads lies between two positions, and it returns a number of tokens. -/
def ReadsWithin (lo hi n : Nat) (res : List Span × M (List Bytes)) : Prop :=
  (∀ s ∈ res.1, lo ≤ s.pos ∧ s.pos + s.len ≤ hi) ∧ ∃ tokens, res.2 = .ok tokens ∧ tokens.length = n

theorem readsWithin_cons {lo hi n : Nat} {heads spans : List Span} {t : Bytes} {rest : M (List Bytes)} :
    ReadsWithin lo hi (n + 1) (heads ++ spans, rest.map (t :: ·)) ↔
      (∀ s ∈ heads, lo ≤ s.pos ∧ s.pos + s.len ≤ hi) ∧ ReadsWithin lo hi n (spans, rest) := by
  unfold ReadsWithin
  simp only [List.forall_mem_append, and_assoc]
  refine and_congr_right fun _ => and_congr_right fun _ => ?_
  cases rest with
  | error e => exact ⟨nofun, nofun⟩
  | ok tokens =>
    constructor
    · rintro ⟨tokens', heq, hlen⟩
      cases heq
      exact ⟨tokens, rfl, Nat.succ.inj hlen⟩
    · rintro ⟨tokens', heq, hlen⟩
      cases heq
      exact ⟨t :: tokens, rfl, congrArg Nat.succ hlen⟩

theorem not_readsWithin_error {lo hi n : Nat} {spans : List Span} {e : Fault} : ¬ReadsWithin lo hi n (spans, .error e) :=
  fun h => nomatch h.2

/-- A token header outside the buffer is not read. -/
theorem parseTokens_no_header {buf : Bytes} {n pos : Nat} (h : ¬pos + 5 ≤ buf.length) :
    ∃ spans, parseTokens buf (n + 1) pos = (spans, .error .outOfBounds) := by
  rw [parseTokens]
  by_cases htag : pos + 1 ≤ buf.length
  · rw [bytesAt_eq htag, bytesAt, if_neg (by omega)]
    exact ⟨_, rfl⟩
  · rw [bytesAt, if_neg htag]
    exact ⟨_, rfl⟩

/-- One token whose header is in the buffer. -/
theorem parseTokens_header {buf : Bytes} {n pos len : Nat} (h : pos + 5 ≤ buf.length)
    (hlen : leNat 4 (buf.drop (pos + 1)) = len) :
    parseTokens buf (n + 1) pos =
      if len > maxStrSize then ([⟨pos, 1⟩, ⟨pos + 1, 4⟩], .error .nullStr)
      else if len + len > maxStrSize then
        ([⟨pos, 1⟩, ⟨pos + 1, 4⟩] ++ (parseTokens buf n (pos + 5 + len)).1,
          (parseTokens buf n (pos + 5 + len)).2.map ([] :: ·))
      else if pos + 5 + len ≤ buf.length then
        ([⟨pos, 1⟩, ⟨pos + 1, 4⟩, ⟨pos + 5, len⟩] ++ (parseTokens buf n (pos + 5 + len)).1,
          (parseTokens buf n (pos + 5 + len)).2.map ((buf.drop (pos + 5)).take len :: ·))
      else ([⟨pos, 1⟩, ⟨pos + 1, 4⟩, ⟨pos + 5, len⟩], .error .outOfBounds) := by
  rw [parseTokens, bytesAt_eq (show pos + 1 ≤ buf.length by omega), bytesAt_eq (show pos + 1 + 4 ≤ buf.length by omega)]
  simp only [leNat_take, hlen]
  by_cases hinit : len > maxStrSize
  · rw [dstrInit, if_pos hinit, if_pos hinit]
  · rw [dstrInit_eq (Nat.le_of_not_lt hinit), if_neg hinit]
    dsimp only
    have hcap : len + dstrCap ⟨[], len, sizeofDstr + len + 1⟩ > maxStrSize ↔ len + len > maxStrSize := Iff.rfl
    by_cases hhalf : len + len > maxStrSize
    · rw [if_pos (hcap.mpr hhalf), if_pos hhalf]
      rfl
    · rw [if_neg (mt hcap.mp hhalf), if_neg hhalf]
      by_cases hbody : pos + 5 + len ≤ buf.length
      · rw [bytesAt_eq hbody, if_pos hbody]
        rfl
      · rw [bytesAt, if_neg hbody, if_neg hbody]

theorem parseTokens_within_iff {buf : Bytes} {limit : Nat} (hlimit : limit ≤ buf.length) (lo n pos : Nat)
    (hlo : lo ≤ pos) : ReadsWithin lo limit n (parseTokens buf n pos) ↔ TokensFit buf limit n pos := by
  induction n generalizing pos with
  | zero => exact ⟨fun _ => trivial, fun _ => ⟨nofun, [], rfl, rfl⟩⟩
  | succ n ih =>
    rw [TokensFit]
    by_cases hbuf : pos + 5 ≤ buf.length
    · generalize hlen : leNat 4 (buf.drop (pos + 1)) = len
      have hnext := ih (pos + 5 + len) (by omega)
      rw [parseTokens_header hbuf hlen]
      by_cases hinit : len > maxStrSize
      · rw [if_pos hinit]
        exact ⟨fun h => absurd h not_readsWithin_error, fun h => absurd h.2.1 (Nat.not_le.mpr hinit)⟩
      · rw [if_neg hinit]
        by_cases hhalf : len + len > maxStrSize
        · rw [if_pos hhalf, readsWithin_cons, hnext]
          simp only [List.forall_mem_cons, List.not_mem_nil, false_implies, implies_true, and_true]
          constructor
          · rintro ⟨⟨-, -, hhead⟩, hfit⟩
            exact ⟨hhead, Nat.le_of_not_lt hinit, fun hle => by omega, hfit⟩
          · rintro ⟨hhead, -, -, hfit⟩
            exact ⟨⟨⟨hlo, by omega⟩, by omega, hhead⟩, hfit⟩
        · rw [if_neg hhalf]
          by_cases hbody : pos + 5 + len ≤ buf.length
          · rw [if_pos hbody, readsWithin_cons, hnext]
            simp only [List.forall_mem_cons, List.not_mem_nil, false_implies, implies_true, and_true]
            constructor
            · rintro ⟨⟨-, ⟨-, hhead⟩, -, hend⟩, hfit⟩
              exact ⟨hhead, Nat.le_of_not_lt hinit, fun _ => hend, hfit⟩
            · rintro ⟨hhead, -, hend, hfit⟩
              exact ⟨⟨⟨hlo, by omega⟩, ⟨by omega, hhead⟩, by omega, hend (by omega)⟩, hfit⟩
          · rw [if_neg hbody]
            exact ⟨fun h => absurd h not_readsWithin_error, fun h => absurd (h.2.2.1 (by omega)) (by omega)⟩
    · obtain ⟨spans, hparse⟩ := parseTokens_no_header hbuf
      rw [hparse]
      exact ⟨fun h => absurd h not_readsWithin_error, fun h => absurd h.1 (by omega)⟩

/-- The tokens are as many as were asked for, and none is above half the size limit. -/
theorem parseTokens_ok {buf : Bytes} {n pos : Nat} {tokens : List Bytes} (h : (parseTokens buf n pos).2 = .ok tokens) :
    tokens.length = n ∧ ∀ t ∈ tokens, 2 * t.length ≤ maxStrSize := by
  induction n generalizing pos tokens with
  | zero =>
    cases h
    exact ⟨rfl, nofun⟩
  | succ n ih =>
    have hmap : ∀ {t : Bytes} {pos : Nat}, 2 * t.length ≤ maxStrSize → (parseTokens buf n pos).2.map (t :: ·) = .ok tokens →
        tokens.length = n + 1 ∧ ∀ t ∈ tokens, 2 * t.length ≤ maxStrSize := by
      intro t pos ht hmap
      cases hrest : (parseTokens buf n pos).2 with
      | error e =>
        rw [hrest] at hmap
        cases hmap
      | ok rest =>
        rw [hrest] at hmap
        cases hmap
        obtain ⟨hlen, hshort⟩ := ih hrest
        exact ⟨congrArg Nat.succ hlen, List.forall_mem_cons.mpr ⟨ht, hshort⟩⟩
    by_cases hbuf : pos + 5 ≤ buf.length
    · rw [parseTokens_header hbuf rfl] at h
      split at h
      · cases h
      · split at h
        · exact hmap (Nat.zero_le _) h
        · split at h
          · have hle := List.length_take_le (leNat 4 (buf.drop (pos + 1))) (buf.drop (pos + 5))
            exact hmap (by omega) h
          · cases h
    · obtain ⟨spans, hparse⟩ := parseTokens_no_header (n := n) hbuf
      rw [hparse] at h
      cases h

/-- The fixed beginning of a frame, which holds the number of tokens. -/
theorem parseCmd_header {buf : Bytes} (h : 9 ≤ buf.length) :
    parseCmd buf 4 = (⟨4, 1⟩ :: ⟨5, 4⟩ :: (parseTokens buf (leNat 4 (buf.drop 5)) 9).1,
      (parseTokens buf (leNat 4 (buf.drop 5)) 9).2) := by
  rw [parseCmd, bytesAt_eq (show 4 + 1 ≤ buf.length by omega), bytesAt_eq (show 5 + 4 ≤ buf.length by omega)]
  simp only [leNat_take]

theorem parseCmd_no_header {buf : Bytes} (h : ¬9 ≤ buf.length) : (parseCmd buf 4).2 = .error .outOfBounds := by
  rw [parseCmd]
  by_cases htag : 4 + 1 ≤ buf.length
  · rw [bytesAt_eq htag, bytesAt, if_neg (by omega)]
  · rw [bytesAt, if_neg htag]

/-- Processing a frame reads only bytes of it and yields a command exactly if everything the frame counts is
inside it. -/
theorem parse_within_frame_iff {incoming : Bytes} {totalLen : Nat} (h : completeFrame incoming = some totalLen) :
    ((∀ s ∈ (parseCmd incoming 4).1, 4 ≤ s.pos ∧ s.pos + s.len ≤ 4 + totalLen) ∧
        ∃ cmd, (parseCmd incoming 4).2 = .ok cmd ∧ cmd ≠ []) ↔
      FrameFits incoming totalLen := by
  have hlen : 4 + totalLen ≤ incoming.length := by
    unfold completeFrame at h
    dsimp only at h
    split at h
    · cases h
    · split at h
      · cases h
      · cases h
        omega
  unfold FrameFits
  by_cases hhead : 9 ≤ incoming.length
  · rw [parseCmd_header hhead]
    generalize leNat 4 (incoming.drop 5) = n
    rw [← parseTokens_within_iff hlen 4 n 9 (by omega)]
    simp only [List.forall_mem_cons]
    constructor
    · rintro ⟨⟨-, ⟨-, hcount⟩, hspans⟩, cmd, hcmd, hne⟩
      have hn := (parseTokens_ok hcmd).1
      have hpos := List.length_pos_iff.mpr hne
      exact ⟨by omega, by omega, hspans, cmd, hcmd, hn⟩
    · rintro ⟨hfive, hone, hspans, tokens, htokens, hn⟩
      refine ⟨⟨⟨by omega, by omega⟩, ⟨by omega, by omega⟩, hspans⟩, tokens, htokens, ?_⟩
      exact List.length_pos_iff.mp (by omega)
  · rw [parseCmd_no_header hhead]
    constructor
    · rintro ⟨-, cmd, hcmd, -⟩
      cases hcmd
    · rintro ⟨hfive, -⟩
      omega

/-- A frame that counts a token it does not hold. -/
theorem parse_outside_frame : completeFrame [5, 0, 0, 0, 2, 1, 0, 0, 0] = some 5 ∧
    ¬∀ s ∈ (parseCmd [5, 0, 0, 0, 2, 1, 0, 0, 0] 4).1, 4 ≤ s.pos ∧ s.pos + s.len ≤ 4 + 5 := by
  decide

theorem parse_within_frame_keys : completeFrame (frame [text "keys"]) = some 14 ∧
    (∀ s ∈ (parseCmd (frame [text "keys"]) 4).1, 4 ≤ s.pos ∧ s.pos + s.len ≤ 4 + 14) ∧
    ∃ cmd, (parseCmd (frame [text "keys"]) 4).2 = .ok cmd ∧ cmd ≠ [] :=
  ⟨by decide, (parse_within_frame_iff (by decide)).mpr ⟨by decide, by decide, by decide⟩⟩

/-- Whatever a peer sends, the tokens that reach the commands are those of a request. -/
theorem parseCmd_request {buf : Bytes} {cmd : List Bytes} (h : (parseCmd buf 4).2 = .ok cmd) :
    ∃ r : Request, r.tokens = cmd := by
  by_cases hhead : 9 ≤ buf.length
  · rw [parseCmd_header hhead] at h
    exact ⟨⟨cmd, (parseTokens_ok h).2⟩, rfl⟩
  · rw [parseCmd_no_header hhead] at h
    cases h

end CustomRedis
