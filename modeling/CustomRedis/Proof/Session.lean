import CustomRedis.Lib.Words
import CustomRedis.Model.Session
import CustomRedis.Proof.ClientReplies
import CustomRedis.Proof.Linearization

/-!
# A session at the terminal

What is typed, line by line, against what the database does. Between two lines both buffers of the connection are empty,
so every reply that is printed is the one to the line above it, and the client and the server cannot get out of step.
-/

namespace CustomRedis

open Run (run ok_bind ok_of_bind Ensures)

variable {δ : Type}

/-! ### Lines -/

/-- A line as it is typed: words, and spaces around them. -/
structure Line where
  words : List Bytes
  typed : Bytes
  spelled : Words.Spells 32 words typed
  clean : 0 ∉ typed ∧ 10 ∉ typed
  short : typed.length ≤ 1022

/-- Every text that fits on a line is one. -/
def Line.ofText (typed : Bytes) (clean : 0 ∉ typed ∧ 10 ∉ typed) (short : typed.length ≤ 1022) : Line :=
  ⟨Words.words 32 typed, typed, Words.spells_words 32 typed, clean, short⟩

/-- What the words on a line ask for: one word alone is read in lower case. -/
def meant : List Bytes → Typed
  | [word] =>
    if word.map tolower = text "quit" then .quit
    else if word.map tolower = text "clear" then .clear
    else .query [word.map tolower]
  | cmd => .query cmd

/-- What is on the terminal. -/
def typedText (lines : List Line) : Bytes := lines.flatMap fun line => line.typed ++ [10]

theorem Line.noNul (line : Line) {w : Bytes} (hw : w ∈ line.words) : 0 ∉ w :=
  fun hzero => line.clean.1 (line.spelled.mem_line hw hzero)

theorem Line.messageSize_le (line : Line) : messageSize line.words ≤ clientMaxMessageLen := by
  have hsum : (line.words.map fun w : Bytes => w.length + 1).sum ≤ line.typed.length + 1 := line.spelled.sum_length_le
  have hshort := line.short
  have hsize : (line.words.map fun w => 5 + w.length).sum ≤ (line.words.map fun w : Bytes => 3 * (w.length + 1)).sum := by
    apply List.sum_le_sum
    intro w hw
    have hpos := List.length_pos_iff.mpr (line.spelled.word_of_mem w hw).1
    omega
  rw [List.sum_map_mul_left] at hsize
  unfold messageSize clientMaxMessageLen
  omega

theorem fgets_line (line : Line) (rest : Bytes) :
    fgets 1024 (line.typed ++ [10] ++ rest) = some (line.typed ++ [10], rest) := by
  have hbefore : (line.typed ++ [10] ++ rest).takeWhile (· ≠ 10) = line.typed := by
    rw [List.append_assoc, List.takeWhile_append_of_pos]
    · simp
    · intro b hb
      simpa using fun heq : b = 10 => line.clean.2 (heq ▸ hb)
  have hcount : min (1024 - 1) (line.typed.length + 1) = (line.typed ++ [10]).length := by
    have hshort := line.short
    rw [List.length_append, List.length_singleton]
    omega
  rw [fgets, if_neg (by simp)]
  simp only [hbefore, hcount, List.take_left, List.drop_left]

theorem tokenize_line (line : Line) : tokenize (line.typed ++ [10]) = .ok line.words := by
  have hcstr : cstr (line.typed ++ [10]) = line.typed ++ [10] := by
    apply cstr_of_noNul
    simpa using line.clean.1
  have hwords : strtok line.typed 32 = line.words := line.spelled.words_eq
  have hcopy : ∀ ws : List Bytes, (∀ w ∈ ws, 2 * w.length ≤ maxStrSize) →
      (ws.mapM fun tmp => do
        let str ← dstrCopy tmp
        .ok str.buf : M (List Bytes)) = .ok ws := by
    intro ws hws
    induction ws with
    | nil => rfl
    | cons w ws ih =>
      obtain ⟨str, hstr, hbuf⟩ := dstrCopy_ok (hws w List.mem_cons_self)
      rw [List.mapM_cons, hstr, ok_bind, ok_bind, ih fun v hv => hws v (List.mem_cons_of_mem _ hv), ok_bind, hbuf]
      rfl
  rw [tokenize, hcstr, List.dropLast_concat, hwords]
  exact hcopy line.words (Sendable.short line.messageSize_le)

theorem tolower_eq_zero {c : UInt8} (h : tolower c = 0) : c = 0 := by
  unfold tolower at h
  split at h
  · next hupper =>
    have hlow := UInt8.le_iff_toNat_le.mp hupper.1
    have hhigh := UInt8.le_iff_toNat_le.mp hupper.2
    have hsum := congrArg UInt8.toNat h
    rw [UInt8.toNat_add] at hsum
    simp at hlow hhigh hsum
    omega
  · exact h

theorem noNul_lower {w : Bytes} (h : 0 ∉ w) : 0 ∉ w.map tolower := by
  intro hmem
  obtain ⟨c, hc, hzero⟩ := List.mem_map.mp hmem
  exact h (tolower_eq_zero hzero ▸ hc)

theorem lowerWord_eq {w : Bytes} (h : 0 ∉ w) : lowerWord w = w.map tolower := by
  rw [lowerWord, cstr_of_noNul h, List.drop_length, List.append_nil]

/-- A line is read as what its words mean, and the next one is still there. -/
theorem readTyped_line (line : Line) (rest : Bytes) :
    readTyped (line.typed ++ [10] ++ rest) = .ok (meant line.words, rest) := by
  have hnul : ∀ w ∈ line.words, 0 ∉ w := fun w hw => line.noNul hw
  have htoken := tokenize_line line
  rw [readTyped, fgets_line]
  dsimp only
  rw [htoken, ok_bind]
  match line.words, hnul with
  | [], _ => rfl
  | [w], hnul =>
    have hw : 0 ∉ w := hnul w List.mem_cons_self
    have heq : ∀ t : Bytes, 0 ∉ t → (strEq (w.map tolower) t = true ↔ w.map tolower = t) := by
      intro t ht
      rw [strEq_iff, cstr_of_noNul (noNul_lower hw), cstr_of_noNul ht]
    dsimp only [meant]
    rw [lowerWord_eq hw]
    simp only [heq (text "quit") (by decide), heq (text "clear") (by decide)]
    split
    · rfl
    · split
      · rfl
      · rfl
  | _ :: _ :: _, _ => rfl

theorem sendable_of_meant (line : Line) {query : List Bytes} (h : meant line.words = .query query) : Sendable query := by
  have hsize := line.messageSize_le
  unfold Sendable
  match hwords : line.words with
  | [] =>
    rw [hwords] at h hsize
    cases h
    exact hsize
  | [w] =>
    rw [hwords] at h hsize
    rw [meant] at h
    by_cases hquit : w.map tolower = text "quit"
    · rw [if_pos hquit] at h
      cases h
    · rw [if_neg hquit] at h
      by_cases hclear : w.map tolower = text "clear"
      · rw [if_pos hclear] at h
        cases h
      · rw [if_neg hclear] at h
        cases h
        simpa [messageSize] using hsize
  | _ :: _ :: _ =>
    rw [hwords] at h hsize
    cases h
    exact hsize

/-! ### One exchange -/

section Exchange

variable {srv : Service δ} {I : δ → Prop}

/-- A reply that is alone in the buffer is read to its end, or the client faults. -/
theorem clientHandleRead_alone {out : Bytes} (hhead : replyHead <+: out) (junk : Nat → Nat → UInt8) :
    Ensures (clientHandleRead junk (afterResBuild out 0)) fun shown => ∃ r, shown = some r ∧ r.stream = [] := by
  intro shown hshown
  by_cases hlong : out.length ≤ 4 + maxMessageLen
  · obtain ⟨body, hbody, hframed⟩ := @afterResBuild_framed [] out hhead (by decide) (by simpa using hlong)
    have hframe : afterResBuild out 0 = leBytes 4 body.length ++ body := hframed
    have hnat : (UInt32.ofNat body.length).toNat = body.length := UInt32.toNat_ofNat_of_lt' hbody
    have hall : readAll body body.length = some (body, []) := by
      have happend := readAll_append (rfl : body.length = body.length) []
      rwa [List.append_nil] at happend
    rw [hframe, clientHandleRead, readAll_append (length_leBytes 4 _)] at hshown
    dsimp only at hshown
    rw [leNat_leBytes 4 _ hbody, hnat, hall] at hshown
    split at hshown
    · cases hshown
    · obtain ⟨_, -, hshown⟩ := ok_of_bind hshown
      obtain ⟨items, -, hshown⟩ := ok_of_bind hshown
      cases hshown
      exact ⟨_, rfl, rfl⟩
  · -- the length is not filled in, and the client takes the reply to be empty
    obtain ⟨rest, rfl⟩ := hhead
    rw [List.length_append] at hlong
    have hraw : afterResBuild (replyHead ++ rest) 0 = replyHead ++ rest := by
      rw [afterResBuild, if_pos (by rw [List.length_append]; omega)]
    rw [hraw] at hshown
    cases hshown

theorem answer_sound (hsound : srv.Sound I) {d d' : δ} {query : List Bytes} {reply : Bytes} (hd : I d)
    (hsend : Sendable query) (hrun : answer srv.dispatch (d, []) query = .ok (d', reply)) :
    I d' ∧ ∃ out, replyHead <+: out ∧ reply = afterResBuild out 0 := by
  obtain ⟨⟨d₁, out⟩, hdispatch, hret⟩ := ok_of_bind hrun
  cases hret
  have hafter : I d' ∧ [] ++ replyHead <+: out := hsound.dispatch ⟨query, hsend.short⟩ hd hdispatch
  exact ⟨hafter.1, out, hafter.2, rfl⟩

end Exchange

/-! ### The conversation -/

section Conversation

variable (dispatch : Dispatch δ)

/-- One turn with a server that has nothing else to do, and no connection in between. -/
def converseTurn (junk : Nat → Nat → UInt8) (d : δ) : Typed → M (Turn × δ)
  | .silent => .ok (.silent, d)
  | .quit => .ok (.quit, d)
  | .clear => .ok (.cleared, d)
  | .query query => do
    let (d, reply) ← answer dispatch (d, []) query
    match ← clientHandleRead junk reply with
    | none => .ok (.failed, d)
    | some shown => .ok (.shown query shown, d)

def nextTyped : List Line → Typed
  | [] => .silent
  | line :: _ => meant line.words

/-- The turns up to `quit`, at most `n` of them. Behind the last line there is silence. -/
def converse (junk : Nat → Nat → Nat → UInt8) : Nat → List Line → δ → M (List Turn × δ)
  | 0, _, d => .ok ([], d)
  | n + 1, lines, d => do
    let (turn, d) ← converseTurn dispatch (junk 0) d (nextTyped lines)
    if turn = .quit then .ok ([turn], d)
    else do
      let (turns, d) ← converse (fun k => junk (k + 1)) n lines.tail d
      .ok (turn :: turns, d)

end Conversation

/-- A turn goes through, and nothing but its own reply was read. -/
def Turn.InStep : Turn → Prop
  | .failed => False
  | .shown _ reply => reply.stream = []
  | _ => True

theorem Turn.ret_ne_zero {turn : Turn} (h : turn.InStep) : turn.ret ≠ 0 ↔ turn = .quit := by
  cases turn with
  | failed => exact absurd h id
  | _ => simp [ret]

section Rounds

variable {srv : Service δ} {I : δ → Prop}

theorem converseTurn_ok (hsound : srv.Sound I) (junk : Nat → Nat → UInt8) {d : δ} (hd : I d) {typed : Typed}
    (hsend : ∀ query, typed = .query query → Sendable query) :
    Ensures (converseTurn srv.dispatch junk d typed) fun r => r.1.InStep ∧ I r.2 := by
  intro r hr
  cases typed with
  | silent =>
    cases hr
    exact ⟨trivial, hd⟩
  | quit =>
    cases hr
    exact ⟨trivial, hd⟩
  | clear =>
    cases hr
    exact ⟨trivial, hd⟩
  | query query =>
    obtain ⟨⟨d', reply⟩, hans, hr⟩ := ok_of_bind hr
    obtain ⟨shown, hread, hr⟩ := ok_of_bind hr
    obtain ⟨hd', out, hhead, rfl⟩ := answer_sound hsound hd (hsend query rfl) hans
    obtain ⟨s, rfl, hstream⟩ := clientHandleRead_alone hhead junk shown hread
    cases hr
    exact ⟨hstream, hd'⟩

/-- Between two empty buffers a query is answered as by the server alone, and the buffers are empty again. -/
theorem exchange_eq (hsound : srv.Sound I) {cut : Bytes → List Bytes} (hcut : ∀ bytes, (cut bytes).flatten = bytes)
    (junk : Nat → Nat → UInt8) {d : δ} (hd : I d) {query : List Bytes} (hsend : Sendable query) :
    exchange cut srv.dispatch junk { data := d } query =
      (converseTurn srv.dispatch junk d (.query query)).map fun r => (r.1, { data := r.2 }) := by
  have hserve : (cut (frame query)).foldlM (handleRead srv.dispatch) { data := d } =
      (answer srv.dispatch (d, []) query).map fun s => ⟨[], s.2, s.1⟩ := by
    have hflat : [] ++ (cut (frame query)).flatten = [query].flatMap frame := by
      rw [hcut, List.nil_append, List.flatMap_singleton]
    have hwait : Waiting [query] [] := by
      have hlen := length_frame query
      change 0 < (frame query).length
      omega
    rw [handleRead_chunks srv.dispatch [query] (List.forall_mem_singleton.mpr hsend) _ [] hwait hflat (d, [])]
    rw [List.foldlM_cons]
    cases answer srv.dispatch (d, []) query with
    | error e => rfl
    | ok s => rfl
  rw [exchange, handleWrite_eq hsend]
  dsimp only
  rw [hserve, converseTurn]
  cases hans : answer srv.dispatch (d, []) query with
  | error e => rfl
  | ok s =>
    obtain ⟨-, out, hhead, hreply⟩ := answer_sound hsound hd hsend hans
    show (clientHandleRead junk s.2 >>= _) = (clientHandleRead junk s.2 >>= _).map _
    cases hread : clientHandleRead junk s.2 with
    | error e => rfl
    | ok shown =>
      rw [hreply] at hread
      obtain ⟨r, rfl, hstream⟩ := clientHandleRead_alone hhead junk shown hread
      rw [ok_bind, ok_bind]
      dsimp only
      rw [hstream]
      rfl

theorem sendable_next (lines : List Line) {query : List Bytes} (h : nextTyped lines = .query query) : Sendable query := by
  cases lines with
  | nil => cases h
  | cons line lines => exact sendable_of_meant line h

theorem readTyped_text (lines : List Line) : readTyped (typedText lines) = .ok (nextTyped lines, typedText lines.tail) := by
  cases lines with
  | nil => rfl
  | cons line lines => exact readTyped_line line (typedText lines)

theorem handleLoop_eq (hsound : srv.Sound I) {cut : Bytes → List Bytes} (hcut : ∀ bytes, (cut bytes).flatten = bytes)
    (junk : Nat → Nat → UInt8) {d : δ} (hd : I d) (lines : List Line) :
    handleLoop cut srv.dispatch junk ⟨typedText lines, { data := d }⟩ =
      (converseTurn srv.dispatch junk d (nextTyped lines)).map
        fun r => (r.1, ⟨typedText lines.tail, { data := r.2 }⟩) := by
  rw [handleLoop, readTyped_text, ok_bind]
  dsimp only
  cases htyped : nextTyped lines with
  | silent => rfl
  | quit => rfl
  | clear => rfl
  | query query =>
    dsimp only
    rw [exchange_eq hsound hcut junk hd (sendable_next lines htyped)]
    cases converseTurn srv.dispatch junk d (.query query) with
    | error e => rfl
    | ok r => rfl

/-- One more turn in front. -/
theorem map_cons_turn {σ τ ρ : Type} {x : M (List Turn × σ)} {y : M (List Turn × τ)} {f : σ → ρ} {g : τ → ρ} (turn : Turn)
    (h : x.map (fun r => (r.1, f r.2)) = y.map fun r => (r.1, g r.2)) :
    (x >>= fun r => .ok (turn :: r.1, r.2)).map (fun r => (r.1, f r.2)) =
      (y >>= fun r => .ok (turn :: r.1, r.2)).map fun r => (r.1, g r.2) := by
  cases x with
  | error e =>
    cases y with
    | error e' => exact h
    | ok r => cases h
  | ok t =>
    cases y with
    | error e' => cases h
    | ok r =>
      obtain ⟨hturns, hrest⟩ := Prod.mk.inj (Except.ok.inj h)
      show Except.ok (turn :: t.1, f t.2) = Except.ok (turn :: r.1, g r.2)
      rw [hturns, hrest]

/-- All rounds of the client are the turns of the conversation. -/
theorem clientMain_eq (hsound : srv.Sound I) {cut : Bytes → List Bytes} (hcut : ∀ bytes, (cut bytes).flatten = bytes)
    (junk : Nat → Nat → Nat → UInt8) (n : Nat) (lines : List Line) {d : δ} (hd : I d) :
    (clientMain cut srv.dispatch junk n ⟨typedText lines, { data := d }⟩).map (fun r => (r.1, r.2.conn)) =
        (converse srv.dispatch junk n lines d).map (fun r => (r.1, { data := r.2 })) ∧
      Ensures (converse srv.dispatch junk n lines d) fun r => (∀ turn ∈ r.1, turn.InStep) ∧ I r.2 := by
  induction n generalizing junk lines d with
  | zero =>
    refine ⟨rfl, fun r hr => ?_⟩
    cases hr
    exact ⟨fun turn hturn => absurd hturn List.not_mem_nil, hd⟩
  | succ n ih =>
    have hturn := converseTurn_ok hsound (junk 0) hd fun query h => sendable_next lines h
    rw [clientMain, converse, handleLoop_eq hsound hcut (junk 0) hd lines]
    cases hfirst : converseTurn srv.dispatch (junk 0) d (nextTyped lines) with
    | error e => exact ⟨rfl, fun r hr => nomatch hr⟩
    | ok r =>
      obtain ⟨turn, d'⟩ := r
      obtain ⟨hin, hd'⟩ := hturn _ hfirst
      obtain ⟨hrest, hall⟩ := ih (fun k => junk (k + 1)) lines.tail hd'
      show (ite _ _ _ : M (List Turn × Session δ)).map _ = (ite _ _ _ : M (List Turn × δ)).map _ ∧ Ensures (ite _ _ _) _
      by_cases hquit : turn = .quit
      · rw [if_pos ((Turn.ret_ne_zero hin).mpr hquit), if_pos hquit]
        refine ⟨rfl, fun r hr => ?_⟩
        cases hr
        exact ⟨List.forall_mem_singleton.mpr hin, hd'⟩
      · rw [if_neg (mt (Turn.ret_ne_zero hin).mp hquit), if_neg hquit]
        refine ⟨map_cons_turn turn hrest, fun r hr => ?_⟩
        obtain ⟨r', hconverse, hr⟩ := ok_of_bind hr
        cases hr
        obtain ⟨hturns, hend⟩ := hall r' hconverse
        exact ⟨List.forall_mem_cons.mpr ⟨hin, hturns⟩, hend⟩

end Rounds

/-- Whatever is typed, and however the connection cuts the messages, the rounds of the client are the conversation of the
typed words with the database, up to `quit` and to the same fault if there is one. No message is refused, no reply is
missed, and between two lines nothing waits on the connection. -/
theorem session_in_step (envs : Nat → Env) (cut : Bytes → List Bytes) (hcut : ∀ bytes, (cut bytes).flatten = bytes)
    (junk : Nat → Nat → Nat → UInt8) (lines : List Line) (n : Nat) (g : GlobalData) (hreach : Reachable g) (k : Nat) :
    (clientMain cut (redisService envs).dispatch junk n ⟨typedText lines, { data := (g, k) }⟩).map (fun r => (r.1, r.2.conn)) =
        (converse (redisService envs).dispatch junk n lines (g, k)).map (fun r => (r.1, { data := r.2 })) ∧
      Ensures (converse (redisService envs).dispatch junk n lines (g, k)) fun r => ∀ turn ∈ r.1, turn.InStep := by
  obtain ⟨hsame, hall⟩ := clientMain_eq (redisService_sound envs) hcut junk n lines (d := (g, k)) hreach.invariant
  exact ⟨hsame, fun r hr => (hall r hr).1⟩

/-- Extra spaces, a word in upper case, and a line behind the end. -/
def typedLines : List Line :=
  [.ofText (text " set k  v") (by decide) (by decide), .ofText (text "KEYS ") (by decide) (by decide),
    .ofText (text "Quit") (by decide) (by decide), .ofText (text "clear") (by decide) (by decide)]

theorem session_in_step_typed : ∃ set keys conn,
    (clientMain (fun bytes => [bytes.take 3, bytes.drop 3]) (redisService fun _ => {}).dispatch (fun _ _ _ => 0) 9
        ⟨typedText typedLines, { data := ({}, 0) }⟩).map (fun r => (r.1, r.2.conn)) =
      .ok ([.shown [text "set", text "k", text "v"] set, .shown [text "keys"] keys, .quit], conn) ∧
    set.items = [.null] ∧ keys.items = [.arr 1, .str (text "k")] := by
  have hsame := (session_in_step (fun _ => {}) (fun bytes => [bytes.take 3, bytes.drop 3]) (fun bytes => by simp)
    (fun _ _ _ => 0) typedLines 9 {} ⟨[], rfl⟩ 0).1
  have hcheck : Run.check (converse (redisService fun _ => {}).dispatch (fun _ _ _ => 0) 9 typedLines ({}, 0)) (fun r =>
      r.1 = [.shown [text "set", text "k", text "v"] ⟨[.null], 15, []⟩,
        .shown [text "keys"] ⟨[.arr 1, .str (text "k")], 25, []⟩, .quit]) = true := by
    decide +kernel
  obtain ⟨r, hrun, hturns⟩ := Run.exists_ok_of_check hcheck
  rw [hrun] at hsame
  refine ⟨⟨[.null], 15, []⟩, ⟨[.arr 1, .str (text "k")], 25, []⟩, { data := r.2 }, ?_, rfl, rfl⟩
  rw [hsame, ← of_decide_eq_true hturns]
  rfl

end CustomRedis
