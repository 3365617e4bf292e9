import CustomRedis.Proof.Faults

/-!
# Missing arguments

`out_buffer` checks the number of tokens for most of its commands and hands the rest to their handlers as they
come. A request with too few tokens for a command that is checked is an unknown command; for one that is not, the
handler reads behind the last token.
-/

namespace CustomRedis

open Run (ok_bind ok_of_bind Avoids)

/-- The name by which `out_buffer` selects a command. -/
def Command.name : Command → Option Bytes
  | .get => some (text "get")
  | .set => some (text "set")
  | .del => some (text "del")
  | .keys => some (text "keys")
  | .hset => some (text "hset")
  | .hget => some (text "hget")
  | .hgetall => some (text "hgetall")
  | .hdel => some (text "hdel")
  | .expire => some (text "expire")
  | .ttl => some (text "ttl")
  | .persist => some (text "persist")
  | .zadd => some (text "zadd")
  | .zscore => some (text "zscore")
  | .zrem => some (text "zrem")
  | .zquery => some (text "zquery")
  | .lpush => some (text "lpush")
  | .rpush => some (text "rpush")
  | .lpop => some (text "lpop")
  | .rpop => some (text "rpop")
  | .lrange => some (text "lrange")
  | .sadd => some (text "sadd")
  | .srem => some (text "srem")
  | .smembers => some (text "smembers")
  | .scard => some (text "scard")
  | .setbit => some (text "setbit")
  | .getbit => some (text "getbit")
  | .bitcount => some (text "bitcount")
  | .pfadd => some (text "pfadd")
  | .pfcount => some (text "pfcount")
  | .pfmerge => some (text "pfmerge")
  | .todo | .unknown => none

/-- The name in a request, as `out_buffer` compares it. -/
def nameOf (cmd : List Bytes) : Bytes := (cstr (cmd.headD [])).map tolower

/-- No handler reads a token that is not there, and a request with too few tokens for its command is answered
with an error. -/
structure ArgSafe (env : Env) (g : GlobalData) (out : Bytes) (cmd : List Bytes) : Prop where
  index : outBuffer env g out cmd ≠ .error .cmdIndex
  refused : ∀ c : Command, c.name = some (nameOf cmd) → cmd.length < c.argc →
    ∃ mes, outBuffer env g out cmd = .ok (g, outErr out mes)

/-! ### The tokens that are read -/

theorem lt_of_arg {cmd : List Bytes} {i : Nat} {t : Bytes} (h : arg cmd i = .ok t) : i < cmd.length :=
  (List.getElem?_eq_some_iff.mp (arg_ok h)).1

section Arguments

variable {cmd : List Bytes} {β : Type} {b : β}

theorem two_args {k : Bytes → M β} (hrun : (arg cmd 1 >>= k) = .ok b) : 2 ≤ cmd.length := by
  obtain ⟨_, harg, -⟩ := ok_of_bind hrun
  exact lt_of_arg harg

theorem three_args {k : Bytes → Bytes → M β} (hrun : (arg cmd 1 >>= fun s => arg cmd 2 >>= k s) = .ok b) :
    3 ≤ cmd.length := by
  obtain ⟨_, -, hrun⟩ := ok_of_bind hrun
  obtain ⟨_, harg, -⟩ := ok_of_bind hrun
  exact lt_of_arg harg

theorem four_args {k : Bytes → Bytes → Bytes → M β}
    (hrun : (arg cmd 1 >>= fun s => arg cmd 2 >>= fun t => arg cmd 3 >>= k s t) = .ok b) : 4 ≤ cmd.length := by
  obtain ⟨_, -, hrun⟩ := ok_of_bind hrun
  obtain ⟨_, -, hrun⟩ := ok_of_bind hrun
  obtain ⟨_, harg, -⟩ := ok_of_bind hrun
  exact lt_of_arg harg

end Arguments

section Requests

variable {env : Env} {g : GlobalData} {out : Bytes} {cmd : List Bytes} {c : Command}

/-- A command that returns had all the tokens it reads. -/
theorem argc_le_of_run {r : Result} (hrun : runCommand env g out cmd c = .ok r) : c.argc ≤ cmd.length := by
  cases c with
  | get | del | hgetall | ttl | persist | smembers | scard | bitcount | pfcount => exact two_args hrun
  | set | hget | hdel | expire | zscore | zrem | lpush | rpush | lpop | rpop | sadd | srem | getbit | pfadd =>
    exact three_args hrun
  | hset | zadd | zquery | lrange | setbit => exact four_args hrun
  | keys | pfmerge | todo | unknown => exact Nat.zero_le _

/-- The name of the selected command is the name in the request. -/
theorem commandOf_name (h : commandOf cmd = c) {name : Bytes} (hname : c.name = some name) : nameOf cmd = name := by
  unfold commandOf selectCommand at h
  iterate 34
    rcases of_ite h with ⟨hc, rfl⟩ | h
    · first
        | exact (hc.2.2.trans (Option.some.inj hname))
        | exact (hc.2.trans (Option.some.inj hname))
        | exact (hc.1.trans (Option.some.inj hname))
        | exact (hc.trans (Option.some.inj hname))
        | cases hname
  subst h
  cases hname

theorem argc_of_nameless (h : c.name = none) : c.argc = 0 := by
  cases c <;> first | rfl | cases h

/-- With too few tokens for the command of that name, the name selects nothing, or it selects the command all the
same. -/
theorem selectCommand_short (c : Command) {name : Bytes} (hname : c.name = some name) {argc : Nat} (hlt : argc < c.argc) :
    selectCommand name argc = .unknown ∨ selectCommand name argc = c := by
  have htable : ∀ n < c.argc, selectCommand (c.name.getD []) n = .unknown ∨ selectCommand (c.name.getD []) n = c := by
    cases c <;> decide +kernel
  have hselect := htable argc hlt
  rwa [hname, Option.getD_some] at hselect

/-- With all tokens that the selected handler reads, no token that is missing is read. -/
theorem runCommand_index (hargc : c.argc ≤ cmd.length) : Avoids Fault.OfArgs (runCommand env g out cmd c) := by
  have harg : ∀ i < c.argc, Avoids Fault.OfArgs (arg cmd i) := by
    intro i hi
    rw [arg_eq_getD (Nat.lt_of_lt_of_le hi hargc)]
    exact Run.avoids_ok _
  cases hc : c.checksType with
  | true => exact checked_avoids harg nofun hc
  | false => exact unchecked_avoids harg nofun nofun hc

/-- A request is safe if and only if it has the tokens that the selected handler reads. -/
theorem arg_safe_iff (hcmd : cmd ≠ []) : ArgSafe env g out cmd ↔ (commandOf cmd).argc ≤ cmd.length := by
  have hlen : 0 < cmd.length := List.length_pos_iff.mpr hcmd
  constructor
  · intro hsafe
    by_contra hlt
    cases hname : (commandOf cmd).name with
    | none =>
      rw [argc_of_nameless hname] at hlt
      exact hlt (Nat.zero_le _)
    | some name =>
      obtain ⟨mes, hrun⟩ := hsafe.refused (commandOf cmd) (hname.trans (congrArg some (commandOf_name rfl hname).symm))
        (Nat.lt_of_not_le hlt)
      obtain ⟨_, -, hrun⟩ := ok_of_bind hrun
      obtain ⟨res, hrun, -⟩ := ok_of_bind hrun
      exact hlt (argc_le_of_run hrun)
  · intro hargc
    constructor
    · intro herr
      have hindex : Avoids Fault.OfArgs (outBuffer env g out cmd) := by
        rw [outBuffer, arg_eq_getD hlen, ok_bind]
        exact Run.avoids_bind.mpr ⟨runCommand_index hargc, fun _ _ => Run.avoids_ok _⟩
      exact hindex _ herr rfl
    · intro c hname hlt
      rcases selectCommand_short c hname hlt with hunknown | hsame
      · refine ⟨"unknown command", ?_⟩
        rw [outBuffer, arg_eq_getD hlen, ok_bind, commandOf, ← nameOf, hunknown]
        rfl
      · rw [commandOf, ← nameOf, hsame] at hargc
        omega

end Requests

/-- `LPOP` without a count. -/
theorem lpop_reads_missing :
    outBuffer {} {} [] [text "lpop", text "k"] = .error .cmdIndex ∧ ¬ArgSafe {} {} [] [text "lpop", text "k"] := by
  have herr : outBuffer {} {} [] [text "lpop", text "k"] = .error .cmdIndex := by decide +kernel
  exact ⟨herr, fun hsafe => hsafe.index herr⟩

theorem arg_safe_get : ArgSafe {} {} [] [text "get"] := by
  refine (arg_safe_iff ?_).mpr ?_
  · decide
  · decide +kernel

end CustomRedis
