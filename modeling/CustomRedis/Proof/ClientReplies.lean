import CustomRedis.Proof.ReplyGrammar
import CustomRedis.Proof.ReplyStream
import CustomRedis.Model.Client

/-!
# What the client prints of a reply

The items of a reply as the helpers of the server write them, one behind the other, and the client's walk over them. The
walk takes every item apart as it was put together, with one exception: `print_res` copies the bytes of a string into a new
block and prints the block, but sets no terminator behind them. The zero byte of `dstr_init` is at the front, where only an
empty string leaves it.
-/

namespace CustomRedis

open Run (ok_bind)

/-! ### Items as the server writes them -/

/-- The helper that writes an item. The one for an error also replaces the status code in front of the items. -/
def Item.write (out : Bytes) : Item → Bytes
  | .arr len => outArr out len.toNat
  | .str bytes => outStr out bytes
  | .err bytes => bufAppend (bufAppendU32 (bufAppendU8 out tagError) bytes.length) bytes
  | .double data => outDouble out data
  | .int data => outInt out data.toNat
  | .null => outNull out

/-- The reply with a status code and these items. -/
def replyOf (code : Nat) (items : List Item) : Bytes :=
  afterResBuild (items.foldl Item.write (bufAppendU32 (bufRemLastResCode (beforeResBuild []).1) code)) (beforeResBuild []).2

theorem replyOf_ok (items : List Item) :
    replyOf resOk items = afterResBuild (items.foldl Item.write (beforeResBuild []).1) (beforeResBuild []).2 := rfl

theorem replyOf_err (mes : String) :
    replyOf resErr [.err (text mes)] = afterResBuild (outErr (beforeResBuild []).1 mes) (beforeResBuild []).2 := rfl

theorem replyOf_nx : replyOf resNx [.null] = afterResBuild (outNotFound (beforeResBuild []).1) (beforeResBuild []).2 := rfl

/-- The bytes of an item. -/
def Item.bytes : Item → Bytes
  | .arr len => tagArr :: leBytes 4 len.toNat
  | .str bytes => strValue bytes
  | .err bytes => tagError :: (leBytes 4 bytes.length ++ bytes)
  | .double data => tagDouble :: leBytes 8 data.bits.toNat
  | .int data => tagInt :: leBytes 4 data.toNat
  | .null => [tagNull]

def bodyOf (items : List Item) : Bytes := (items.map Item.bytes).flatten

theorem Item.write_eq (out : Bytes) (item : Item) : item.write out = out ++ item.bytes := by
  cases item with
  | arr len => exact outArr_eq out len.toNat
  | str bytes => exact outStr_eq out bytes
  | err bytes => simp [write, Item.bytes, bufAppendU32, bufAppendU8, bufAppend]
  | double data => exact outDouble_eq out data
  | int data => exact outInt_eq out data.toNat
  | null => rfl

theorem foldl_write (out : Bytes) (items : List Item) : items.foldl Item.write out = out ++ bodyOf items := by
  induction items generalizing out with
  | nil => exact (List.append_nil out).symm
  | cons item items ih =>
    rw [List.foldl_cons, ih, Item.write_eq, List.append_assoc]
    rfl

/-- What stands between the length and the items. -/
def statusHead (code : Nat) : Bytes := tagArr :: (leBytes 4 2 ++ tagInt :: leBytes 4 code)

theorem length_statusHead (code : Nat) : (statusHead code).length = 10 := by
  simp only [statusHead, List.length_cons, List.length_append, length_leBytes]

/-- A reply within the limit has its length in front, a longer one has a zero there. -/
theorem replyOf_eq (code : Nat) (items : List Item) :
    replyOf code items = leBytes 4 (if 10 + (bodyOf items).length ≤ maxMessageLen then 10 + (bodyOf items).length else 0) ++
      (statusHead code ++ bodyOf items) := by
  have hraw : items.foldl Item.write (bufAppendU32 (bufRemLastResCode (beforeResBuild []).1) code) =
      leBytes 4 0 ++ (statusHead code ++ bodyOf items) := by
    rw [foldl_write]
    rfl
  have hmes : (leBytes 4 0 ++ (statusHead code ++ bodyOf items)).length - 0 - 4 = 10 + (bodyOf items).length := by
    rw [List.length_append, List.length_append, length_leBytes, length_statusHead]
    omega
  rw [replyOf, hraw, show (beforeResBuild []).2 = 0 from rfl, afterResBuild, hmes]
  by_cases hframed : 10 + (bodyOf items).length ≤ maxMessageLen
  · rw [if_neg (by omega), if_pos hframed, patchU32, List.take_zero, List.nil_append,
      List.drop_left' (by rw [length_leBytes])]
  · rw [if_pos (by omega), if_neg hframed]

/-! ### Reading an item -/

/-- The bytes that are printed with `%s`. -/
def Item.text? : Item → Option Bytes
  | .str bytes => some bytes
  | .err bytes => some bytes
  | _ => none

/-- Behind the bytes of a string its block has a zero byte. -/
def Item.Ends (junk : Nat → UInt8) (item : Item) : Prop :=
  ∀ s, item.text? = some s → s = [] ∨ junk s.length = 0

theorem ends_of_text?_none {junk : Nat → UInt8} {item : Item} (hnone : item.text? = none) : item.Ends junk := by
  intro s hs
  rw [hnone] at hs
  cases hs

theorem drop_freshBuf (junk : Nat → UInt8) (len : Nat) :
    (freshBuf junk len).drop len = [if len = 0 then 0 else junk len] := by
  cases len with
  | zero => rfl
  | succ len =>
    rw [freshBuf, List.drop_succ_cons, List.range_succ, List.map_append, List.drop_left' (by simp)]
    rfl

/-- The string is printed as it is if the byte behind it is zero, else the read leaves the block. -/
theorem printfStr_append {s : Bytes} (hnul : 0 ∉ s) (b : UInt8) :
    printfStr (s ++ [b]) = if b = 0 then .ok s else .error .outOfBounds := by
  by_cases hb : b = 0
  · rw [printfStr, if_pos (by simp [hb]), if_pos hb, cstr, List.takeWhile_append_of_pos]
    · simp [hb]
    · intro c hc
      simpa using fun hzero : c = 0 => hnul (hzero ▸ hc)
  · have hnot : 0 ∉ s ++ [b] := by
      rw [List.mem_append, List.mem_singleton]
      rintro (hs | heq)
      · exact hnul hs
      · exact hb heq.symm
    rw [printfStr, if_neg hnot, if_neg hb]

theorem bytesAt_behind_tag (before : Bytes) (tag : UInt8) {part after : Bytes} {n : Nat} (hn : part.length = n) :
    bytesAt (before ++ tag :: (part ++ after)) ⟨before.length + 1, n⟩ = .ok part := by
  have hat := bytesAt_append (before ++ [tag]) part after
  rwa [List.append_assoc, List.length_append, List.length_singleton, hn] at hat

section Items

variable {junk : Nat → UInt8} {before after : Bytes}

/-- A string or an error. -/
theorem printItem_text {s : Bytes} (hnul : 0 ∉ s) (hlen : s.length ≤ maxStrSize) {tag : UInt8}
    (htag : tag = tagStr ∨ tag = tagError) :
    printItem junk (before ++ tag :: (leBytes 4 s.length ++ s ++ after)) tag (before.length + 1) =
      if s = [] ∨ junk s.length = 0 then
        .ok (some (if tag = tagStr then .str s else .err s), before.length + (tag :: (leBytes 4 s.length ++ s)).length)
      else .error .outOfBounds := by
  have hne : tag ≠ tagArr := by
    rcases htag with rfl | rfl
    · decide
    · decide
  have hsize : bytesAt (before ++ tag :: (leBytes 4 s.length ++ s ++ after)) ⟨before.length + 1, 4⟩ =
      .ok (leBytes 4 s.length) := by
    rw [List.append_assoc]
    exact bytesAt_behind_tag before tag (length_leBytes 4 _)
  have hbytes : bytesAt (before ++ tag :: (leBytes 4 s.length ++ s ++ after)) ⟨before.length + 1 + 4, s.length⟩ = .ok s := by
    have hat := bytesAt_append (before ++ tag :: leBytes 4 s.length) s after
    rw [List.length_append, List.length_cons, length_leBytes] at hat
    rw [← hat]
    simp only [List.append_assoc, List.cons_append]
  have hstr : leNat 4 (leBytes 4 s.length) = s.length := by
    apply leNat_leBytes
    unfold maxStrSize at hlen
    omega
  rw [printItem, if_neg hne, if_pos htag, hsize, ok_bind, hstr]
  dsimp only
  rw [dstrInit_eq hlen]
  dsimp only
  rw [hbytes, ok_bind, drop_freshBuf, printfStr_append hnul]
  have hends : ((if s.length = 0 then 0 else junk s.length) = 0) ↔ (s = [] ∨ junk s.length = 0) := by
    rw [← List.length_eq_zero_iff]
    split
    · next hzero => exact iff_of_true rfl (.inl hzero)
    · next hpos => exact (or_iff_right hpos).symm
  by_cases hs : s = [] ∨ junk s.length = 0
  · have hlast : before.length + (tag :: (leBytes 4 s.length ++ s)).length = before.length + 1 + 4 + s.length := by
      rw [List.length_cons, List.length_append, length_leBytes]
      omega
    rw [if_pos (hends.mpr hs), if_pos hs, ok_bind, hlast]
  · rw [if_neg (mt hends.mp hs), if_neg hs]
    rfl

/-- An item is read off the bytes that were written for it, if a zero byte ends its block. -/
theorem printItem_bytes (item : Item) (hplain : ∀ s, item.text? = some s → 0 ∉ s ∧ s.length ≤ maxStrSize) :
    ∃ tag body, item.bytes = tag :: body ∧
      (item.Ends junk → printItem junk (before ++ tag :: (body ++ after)) tag (before.length + 1) =
        .ok (some item, before.length + item.bytes.length)) ∧
      (¬item.Ends junk → printItem junk (before ++ tag :: (body ++ after)) tag (before.length + 1) = .error .outOfBounds) := by
  cases item with
  | arr len =>
    refine ⟨tagArr, _, rfl, fun _ => ?_, fun hnot => absurd (ends_of_text?_none rfl) hnot⟩
    rw [printItem, if_pos rfl, bytesAt_behind_tag before tagArr (length_leBytes 4 _), ok_bind,
      leNat_leBytes 4 _ len.toNat_lt, UInt32.ofNat_toNat, Item.bytes, List.length_cons, length_leBytes]
  | str bytes =>
    obtain ⟨hnul, hlen⟩ := hplain bytes rfl
    have hrun := @printItem_text junk before after bytes hnul hlen tagStr (.inl rfl)
    refine ⟨tagStr, _, rfl, fun hends => ?_, fun hnot => ?_⟩
    · rw [hrun, if_pos (hends bytes rfl)]
      rfl
    · rw [hrun, if_neg fun hs => hnot fun s heq => Option.some.inj heq ▸ hs]
  | err bytes =>
    obtain ⟨hnul, hlen⟩ := hplain bytes rfl
    have hrun := @printItem_text junk before after bytes hnul hlen tagError (.inr rfl)
    refine ⟨tagError, _, rfl, fun hends => ?_, fun hnot => ?_⟩
    · rw [hrun, if_pos (hends bytes rfl)]
      rfl
    · rw [hrun, if_neg fun hs => hnot fun s heq => Option.some.inj heq ▸ hs]
  | double data =>
    refine ⟨tagDouble, _, rfl, fun _ => ?_, fun hnot => absurd (ends_of_text?_none rfl) hnot⟩
    rw [printItem, if_neg (by decide), if_neg (by decide), if_pos rfl,
      bytesAt_behind_tag before tagDouble (length_leBytes 8 _), ok_bind, leNat_leBytes 8 _ data.bits.toNat_lt,
      UInt64.ofNat_toNat, Item.bytes, List.length_cons, length_leBytes]
  | int data =>
    refine ⟨tagInt, _, rfl, fun _ => ?_, fun hnot => absurd (ends_of_text?_none rfl) hnot⟩
    rw [printItem, if_neg (by decide), if_neg (by decide), if_neg (by decide), if_pos rfl,
      bytesAt_behind_tag before tagInt (length_leBytes 4 _), ok_bind, leNat_leBytes 4 _ data.toNat_lt,
      UInt32.ofNat_toNat, Item.bytes, List.length_cons, length_leBytes]
  | null =>
    refine ⟨tagNull, [], rfl, fun _ => ?_, fun hnot => absurd (ends_of_text?_none rfl) hnot⟩
    rw [printItem, if_neg (by decide), if_neg (by decide), if_neg (by decide), if_neg (by decide), if_pos rfl]
    rfl

end Items

/-! ### Reading a reply -/

/-- Strings and errors without a zero byte that fit into a string of the client. -/
def Plain (items : List Item) : Prop := ∀ item ∈ items, ∀ s, item.text? = some s → 0 ∉ s ∧ s.length ≤ maxStrSize

theorem forall_ends_cons {junk : Nat → Nat → UInt8} {first : Item} {items : List Item} {n : Nat} :
    (∀ (k : Nat) (item : Item), (first :: items)[k]? = some item → item.Ends (junk (n + k))) ↔
      first.Ends (junk n) ∧ ∀ (k : Nat) (item : Item), items[k]? = some item → item.Ends (junk (n + 1 + k)) := by
  constructor
  · intro hall
    refine ⟨hall 0 first rfl, fun k item hk => ?_⟩
    rw [Nat.add_assoc, Nat.add_comm 1 k]
    exact hall (k + 1) item hk
  · rintro ⟨hfirst, hrest⟩ k item hk
    cases k with
    | zero => exact Option.some.inj hk ▸ hfirst
    | succ k =>
      rw [Nat.add_comm k 1, ← Nat.add_assoc]
      exact hrest k item hk

/-- The walk over the items ends with all of them printed exactly if a zero byte ends every block. -/
theorem printRes_iff (junk : Nat → Nat → UInt8) {buf : Bytes} {totalLen : UInt32} (hend : (4 + totalLen).toNat = buf.length)
    {items : List Item} (hplain : Plain items) {fuel n : Nat} {before : Bytes} (hbuf : buf = before ++ bodyOf items)
    (hfuel : items.length < fuel) :
    printRes junk buf totalLen fuel n before.length = .ok (items, buf.length) ↔
      ∀ (k : Nat) (item : Item), items[k]? = some item → item.Ends (junk (n + k)) := by
  induction items generalizing fuel n before with
  | nil =>
    obtain ⟨fuel, rfl⟩ := Nat.exists_eq_add_one_of_ne_zero (Nat.ne_zero_of_lt hfuel)
    have hlast : before.length = buf.length := by
      rw [hbuf, bodyOf, List.map_nil, List.flatten_nil, List.append_nil]
    refine iff_of_true ?_ fun k item hk => absurd hk (by simp)
    rw [printRes, if_pos (by omega), hlast]
  | cons item items ih =>
    obtain ⟨fuel, rfl⟩ := Nat.exists_eq_add_one_of_ne_zero (Nat.ne_zero_of_lt hfuel)
    obtain ⟨tag, body, hbytes, hends, hopen⟩ :=
      @printItem_bytes (junk n) before (bodyOf items) item (hplain item List.mem_cons_self)
    have hsplit : buf = before ++ tag :: (body ++ bodyOf items) := by
      rw [hbuf, bodyOf, List.map_cons, List.flatten_cons, hbytes]
      rfl
    rw [← hsplit] at hends hopen
    have htag : bytesAt buf ⟨before.length, 1⟩ = .ok [tag] := by
      rw [hsplit]
      exact bytesAt_append before [tag] (body ++ bodyOf items)
    have hmore : ¬before.length ≥ (4 + totalLen).toNat := by
      rw [hend, hsplit, List.length_append, List.length_cons]
      omega
    rw [forall_ends_cons, printRes, if_neg hmore, htag, ok_bind, List.headD_cons]
    by_cases hitem : item.Ends (junk n)
    · have hnext : before.length + item.bytes.length = (before ++ item.bytes).length := List.length_append.symm
      have hbuf' : buf = (before ++ item.bytes) ++ bodyOf items := by
        rw [hsplit, hbytes, List.append_assoc]
        rfl
      have hplain' : Plain items := fun i hi => hplain i (List.mem_cons_of_mem _ hi)
      rw [and_iff_right hitem, ← ih hplain' hbuf' (Nat.lt_of_succ_lt_succ hfuel), hends hitem, ok_bind, hnext]
      dsimp only
      cases printRes junk buf totalLen fuel (n + 1) (before ++ item.bytes).length with
      | error fault =>
        refine iff_of_false ?_ ?_
        · rintro ⟨⟩
        · rintro ⟨⟩
      | ok shown =>
        rw [ok_bind, Except.ok.injEq, Except.ok.injEq, Prod.ext_iff, Prod.ext_iff, Option.toList_some, List.singleton_append,
          List.cons_inj_right]
    · rw [hopen hitem]
      refine iff_of_false ?_ fun h => hitem h.1
      rintro ⟨⟩

/-! ### A whole reply -/

theorem Item.length_bytes_pos (item : Item) : 0 < item.bytes.length := by
  cases item <;> exact Nat.succ_pos _

theorem Item.length_text_le {item : Item} {s : Bytes} (hs : item.text? = some s) : s.length ≤ item.bytes.length := by
  cases item with
  | str bytes =>
    cases hs
    rw [Item.bytes, strValue, List.length_cons, List.length_append]
    omega
  | err bytes =>
    cases hs
    rw [Item.bytes, List.length_cons, List.length_append]
    omega
  | _ => cases hs

theorem length_le_bodyOf (items : List Item) : items.length ≤ (bodyOf items).length := by
  induction items with
  | nil => exact Nat.zero_le _
  | cons item items ih =>
    have hpos := item.length_bytes_pos
    have hcons : (bodyOf (item :: items)).length = item.bytes.length + (bodyOf items).length := List.length_append
    rw [hcons, List.length_cons]
    omega

theorem length_bytes_le_bodyOf {items : List Item} {item : Item} (hmem : item ∈ items) :
    item.bytes.length ≤ (bodyOf items).length :=
  (List.sublist_flatten_of_mem (List.mem_map_of_mem hmem)).length_le

/-- Items without a zero byte in their strings fit into strings of the client when the reply is within the limit. -/
theorem plain_of_framed {items : List Item} (hnul : ∀ item ∈ items, ∀ s, item.text? = some s → 0 ∉ s)
    (hframed : 10 + (bodyOf items).length ≤ maxMessageLen) : Plain items := by
  intro item hmem s hs
  refine ⟨hnul item hmem s hs, ?_⟩
  have htext := Item.length_text_le hs
  have hbody := length_bytes_le_bodyOf hmem
  unfold maxMessageLen at hframed
  unfold maxStrSize
  omega

theorem readAll_append {part : Bytes} {n : Nat} (hn : part.length = n) (rest : Bytes) :
    readAll (part ++ rest) n = some (part, rest) := by
  rw [readAll, if_pos (by rw [List.length_append]; omega), List.take_left' hn, List.drop_left' hn]

/-- A reply within the limit is read as a whole, and `print_res` starts at its items. -/
theorem clientHandleRead_framed (junk : Nat → Nat → UInt8) (code : Nat) {items : List Item} (rest : Bytes)
    (hframed : 10 + (bodyOf items).length ≤ maxMessageLen) :
    ∃ totalLen before, (4 + totalLen : UInt32).toNat = (replyOf code items).length ∧
      replyOf code items = before ++ bodyOf items ∧
      clientHandleRead junk (replyOf code items ++ rest) =
        (printRes junk (replyOf code items) totalLen ((replyOf code items).length + 1) 0 before.length).bind
          fun shown => .ok (some ⟨shown.1, shown.2, rest⟩) := by
  have heq := replyOf_eq code items
  rw [if_pos hframed] at heq
  generalize htotal : 10 + (bodyOf items).length = total at heq hframed
  have hsmall : total < 2 ^ 32 := by
    unfold maxMessageLen at hframed
    omega
  have hbody : (statusHead code ++ bodyOf items).length = total := by
    rw [List.length_append, length_statusHead, htotal]
  have hlen : (replyOf code items).length = 4 + total := by
    rw [heq, List.length_append, length_leBytes, hbody]
  have hnat : (UInt32.ofNat total).toNat = total := UInt32.toNat_ofNat_of_lt' hsmall
  have hend : (4 + UInt32.ofNat total).toNat = 4 + total := by
    rw [UInt32.toNat_add, hnat]
    unfold maxMessageLen at hframed
    exact Nat.mod_eq_of_lt (by simp; omega)
  refine ⟨UInt32.ofNat total, leBytes 4 total ++ statusHead code, by rw [hend, hlen], by rw [heq, List.append_assoc], ?_⟩
  have hcode : bytesAt (replyOf code items) ⟨4 + 1 + 4 + 1, 4⟩ = .ok ((replyOf code items).drop 10 |>.take 4) :=
    bytesAt_eq (by omega)
  have hcurr : (leBytes 4 total ++ statusHead code).length = 4 + 1 + 4 + 1 + 4 := by
    rw [List.length_append, length_leBytes, length_statusHead]
  have hheader : readAll (replyOf code items ++ rest) 4 =
      some (leBytes 4 total, statusHead code ++ bodyOf items ++ rest) := by
    rw [heq, List.append_assoc]
    exact readAll_append (length_leBytes 4 _) _
  rw [clientHandleRead, hheader]
  dsimp only
  rw [leNat_leBytes 4 total hsmall, if_neg (by omega), hnat, readAll_append hbody]
  dsimp only
  rw [← heq, hcode, ok_bind, hcurr]
  rfl

/-- A reply above the limit is sent with a zero for its length, and the client reads behind the four bytes. -/
theorem clientHandleRead_unframed (junk : Nat → Nat → UInt8) (code : Nat) {items : List Item} (rest : Bytes)
    (hlong : ¬10 + (bodyOf items).length ≤ maxMessageLen) :
    clientHandleRead junk (replyOf code items ++ rest) = .error .outOfBounds := by
  rw [replyOf_eq, if_neg hlong, List.append_assoc]
  rfl

/-- The reply is printed item by item and to its last byte exactly if it is within the limit and every string in it that is
not empty has a zero behind its bytes in the block of the client. -/
theorem clientHandleRead_iff (code : Nat) {items : List Item} (hnul : ∀ item ∈ items, ∀ s, item.text? = some s → 0 ∉ s)
    (junk : Nat → Nat → UInt8) (rest : Bytes) :
    clientHandleRead junk (replyOf code items ++ rest) = .ok (some ⟨items, (replyOf code items).length, rest⟩) ↔
      10 + (bodyOf items).length ≤ maxMessageLen ∧
        ∀ (k : Nat) (item : Item), items[k]? = some item → item.Ends (junk k) := by
  by_cases hframed : 10 + (bodyOf items).length ≤ maxMessageLen
  · obtain ⟨totalLen, before, hend, hbuf, hread⟩ := clientHandleRead_framed junk code rest hframed
    have hfuel : items.length < (replyOf code items).length + 1 := by
      have hitems := length_le_bodyOf items
      rw [hbuf, List.length_append]
      omega
    have hwalk : printRes junk (replyOf code items) totalLen ((replyOf code items).length + 1) 0 before.length =
        .ok (items, (replyOf code items).length) ↔
        ∀ (k : Nat) (item : Item), items[k]? = some item → item.Ends (junk k) := by
      have h := printRes_iff junk hend (plain_of_framed hnul hframed) hbuf hfuel (n := 0)
      simpa only [Nat.zero_add] using h
    rw [and_iff_right hframed, ← hwalk, hread]
    cases printRes junk (replyOf code items) totalLen ((replyOf code items).length + 1) 0 before.length with
    | error fault =>
      refine iff_of_false ?_ ?_
      · rintro ⟨⟩
      · rintro ⟨⟩
    | ok shown =>
      rw [Except.bind, Except.ok.injEq, Except.ok.injEq, Option.some.injEq, Shown.mk.injEq, Prod.ext_iff]
      simp only [and_true]
  · rw [clientHandleRead_unframed junk code rest hframed]
    refine iff_of_false ?_ fun h => hframed h.1
    rintro ⟨⟩

/-- What `malloc` leaves in one block decides whether a reply is printed as it was sent. Nothing in the code puts the zero
behind a string, so only a reply whose strings are empty is always printed as it was sent. -/
theorem reply_shown (code : Nat) (items : List Item) (hnul : ∀ item ∈ items, ∀ s, item.text? = some s → 0 ∉ s) :
    (∀ junk rest, clientHandleRead junk (replyOf code items ++ rest) =
        .ok (some ⟨items, (replyOf code items).length, rest⟩) ↔
      10 + (bodyOf items).length ≤ maxMessageLen ∧
        ∀ (k : Nat) (item : Item), items[k]? = some item → item.Ends (junk k)) ∧
    ((∀ junk rest, clientHandleRead junk (replyOf code items ++ rest) =
        .ok (some ⟨items, (replyOf code items).length, rest⟩)) ↔
      10 + (bodyOf items).length ≤ maxMessageLen ∧ ∀ item ∈ items, ∀ s, item.text? = some s → s = []) := by
  have hiff := clientHandleRead_iff code hnul
  refine ⟨hiff, ?_⟩
  constructor
  · intro hall
    -- a block of ones behind the first byte
    obtain ⟨hframed, hends⟩ := (hiff (fun _ _ => 1) []).mp (hall _ _)
    refine ⟨hframed, fun item hmem s hs => ?_⟩
    obtain ⟨k, hk⟩ := List.mem_iff_getElem?.mp hmem
    have hone : (1 : UInt8) ≠ 0 := by decide
    exact (hends k item hk s hs).resolve_right hone
  · rintro ⟨hframed, hempty⟩ junk rest
    refine (hiff junk rest).mpr ⟨hframed, fun k item hk s hs => .inl ?_⟩
    exact hempty item (List.mem_of_getElem? hk) s hs

/-- One item of each kind, with zeros left in the blocks. -/
def oneOfEach : List Item := [.arr 5, .str (text "v"), .err (text "no"), .double ⟨0x3ff8000000000000⟩, .int 7, .null]

theorem reply_shown_one_of_each :
    clientHandleRead (fun _ _ => 0) (replyOf resOk oneOfEach ++ [9]) = .ok (some ⟨oneOfEach, 47, [9]⟩) :=
  ((reply_shown resOk oneOfEach (by decide)).1 (fun _ _ => 0) [9]).mpr ⟨by decide, fun _ _ _ _ _ => .inr rfl⟩

/-- The reply to `GET` of a key with the value `v`, where `malloc` returns a block of ones. -/
theorem got_string_not_shown :
    (Run.run serverStep {} [.request {} ⟨[text "set", text "k", text "v"], by decide⟩] >>= fun g =>
      (respond {} g ⟨[text "get", text "k"], by decide⟩).map fun res => afterResBuild res.2 (beforeResBuild []).2) =
        .ok (replyOf resOk [.str (text "v")]) ∧
    0 ∉ text "v" ∧ clientHandleRead (fun _ _ => 1) (replyOf resOk [.str (text "v")]) = .error .outOfBounds := by
  refine ⟨?_, by decide, by decide⟩
  decide +kernel

end CustomRedis
