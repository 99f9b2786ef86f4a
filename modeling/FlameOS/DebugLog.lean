import FlameOS.Itoa

/-!
`debug_log`, which writes a format and its arguments to the serial port.

A directive takes two characters: its own branch of the switch goes past the first one, and
what follows the switch past the second. The branch of `%%` leaves out its part, so the second
`%` begins a directive of its own with whatever comes behind it.
-/

namespace FlameOS.DebugLog

open FlameOS.Itoa

def NEWLINE : UInt8 := '\n'.toUInt8
def RETURN : UInt8 := '\r'.toUInt8
def PERCENT : UInt8 := '%'.toUInt8

def logchar (c : UInt8) : List UInt8 := if c = NEWLINE then [c, RETURN] else [c]

def logs : List UInt8 → List UInt8
  | [] => []
  | c :: str => if c = 0 then [] else if c = NEWLINE then c :: RETURN :: logs str else c :: logs str

/-- An argument, by the type it is passed with: `long long`, `int` or `char *`. -/
inductive Arg
  | num (v : UInt64)
  | chr (c : UInt8)
  | str (s : List UInt8)
  deriving DecidableEq

/-- The variables `ap` and `str`: the arguments that are left, and the buffer. -/
structure Va where
  ap : List Arg
  str : ℕ → UInt8

/-- `itoa(va_arg(ap, long long), str, base)` and then `logs(str)`. There is no result if there is
no such argument. -/
def logNum (base : ℕ) (s : Va) : Option (List UInt8 × Va) :=
  match s.ap with
  | .num v :: ap =>
    (itoa 64 v.toNat s.str base).map fun r => (logs ((List.range 21).map r.2), ⟨ap, r.2⟩)
  | _ => none

def logChr (s : Va) : Option (List UInt8 × Va) :=
  match s.ap with
  | .chr c :: ap => some (logchar c, { s with ap })
  | _ => none

def logStr (s : Va) : Option (List UInt8 × Va) :=
  match s.ap with
  | .str t :: ap => some (logs t, { s with ap })
  | _ => none

/-- The directives that print an argument. -/
inductive Directive
  | p
  | c
  | d
  | X
  | s
  deriving DecidableEq

def Directive.letter : Directive → UInt8
  | .p => 'p'.toUInt8
  | .c => 'c'.toUInt8
  | .d => 'd'.toUInt8
  | .X => 'X'.toUInt8
  | .s => 's'.toUInt8

/-- The labels of the switch, `%` apart. -/
def directive? (c : UInt8) : Option Directive :=
  if c = 'p'.toUInt8 then some .p
  else if c = 'c'.toUInt8 then some .c
  else if c = 'd'.toUInt8 then some .d
  else if c = 'X'.toUInt8 then some .X
  else if c = 's'.toUInt8 then some .s
  else none

/-- The branches of the switch in `debug_log`, without the steps of `format`. -/
def branch : Directive → Va → Option (List UInt8 × Va)
  | .p, s => (logNum 16 s).map fun r => (logs ['0'.toUInt8, 'x'.toUInt8] ++ r.1, r.2)
  | .c, s => logChr s
  | .d, s => logNum 10 s
  | .X, s => logNum 16 s
  | .s, s => logStr s

/-- The loop of `debug_log`: what is sent to the port. -/
def debugLog : List UInt8 → Va → Option (List UInt8)
  | [], _ => some []
  | c :: format, s =>
    if c = 0 then some []
    else if c = PERCENT then
      match format with
      | [] => some []
      | next :: rest =>
        match directive? next with
        | some x => (branch x s).bind fun r => (debugLog rest r.2).map (r.1 ++ ·)
        | none =>
          if next = PERCENT then (debugLog (next :: rest) s).map ([PERCENT] ++ ·)
          else debugLog (next :: rest) s
    else (debugLog format s).map (logchar c ++ ·)

example : debugLog [37, 112, 10] ⟨[.num 255], fun _ => 0⟩ = some [48, 120, 70, 70, 10, 13] := by
  decide

/-! ### What is in a format -/

/-- A character that is sent as it is, a directive for an argument, or a `%`. -/
inductive Token
  | lit (c : UInt8)
  | dir (x : Directive)
  | percent
  deriving DecidableEq

/-- A format as `debug_log` takes it apart. -/
def tokens : List UInt8 → List Token
  | [] => []
  | c :: format =>
    if c = 0 then []
    else if c = PERCENT then
      match format with
      | [] => []
      | next :: rest =>
        match directive? next with
        | some x => .dir x :: tokens rest
        | none =>
          if next = PERCENT then .percent :: tokens (next :: rest) else tokens (next :: rest)
    else .lit c :: tokens format

/-- A string up to its terminator, with a return behind each newline. -/
def rendered (t : List UInt8) : List UInt8 := (t.takeWhile (· ≠ 0)).flatMap logchar

def printed : Directive → Arg → Option (List UInt8)
  | .p, .num v => some ('0'.toUInt8 :: 'x'.toUInt8 :: numeral 16 v.toNat)
  | .c, .chr c => some (logchar c)
  | .d, .num v => some (numeral 10 v.toNat)
  | .X, .num v => some (numeral 16 v.toNat)
  | .s, .str t => some (rendered t)
  | _, _ => none

def outputs : List Token → List Arg → Option (List UInt8)
  | [], _ => some []
  | .lit c :: ts, args => (outputs ts args).map (logchar c ++ ·)
  | .percent :: ts, args => (outputs ts args).map (PERCENT :: ·)
  | .dir _ :: _, [] => none
  | .dir x :: ts, a :: args => (printed x a).bind fun o => (outputs ts args).map (o ++ ·)

lemma logs_eq (t : List UInt8) : logs t = rendered t := by
  unfold rendered
  induction t with
  | nil => rfl
  | cons c t ih =>
    rw [logs, ih, List.takeWhile_cons]
    by_cases h0 : c = 0
    · simp [h0]
    · by_cases hn : c = NEWLINE
      · simp [hn, logchar, show ¬ NEWLINE = 0 by decide]
      · simp [h0, hn, logchar]

lemma digit_plain : ∀ k < 36, digit.getD k 0 ≠ 0 ∧ digit.getD k 0 ≠ NEWLINE := by decide

lemma numeral_plain {base : ℕ} (h2 : 2 ≤ base) (h36 : base ≤ 36) (num : ℕ) :
    ∀ c ∈ numeral base num, c ≠ 0 ∧ c ≠ NEWLINE := by
  intro c hc
  obtain ⟨k, hk, rfl⟩ := List.mem_map.mp hc
  refine digit_plain k ?_
  split at hk
  · rw [List.mem_singleton.mp hk]
    decide
  · exact (Nat.digits_lt_base h2 (List.mem_reverse.mp hk)).trans_le h36

lemma rendered_append_zero {l : List UInt8} (h : ∀ c ∈ l, c ≠ 0 ∧ c ≠ NEWLINE) (r : List UInt8) :
    rendered (l ++ 0 :: r) = l := by
  induction l with
  | nil => rfl
  | cons c l ih =>
    obtain ⟨h0, hn⟩ := h c List.mem_cons_self
    have hl := ih fun c hc => h c (List.mem_cons_of_mem _ hc)
    rw [← logs_eq] at hl ⊢
    rw [List.cons_append, logs, if_neg h0, if_neg hn, hl]

/-- The buffer is large enough for a numeral, and nothing behind the terminator is sent. -/
lemma logs_written {base : ℕ} (h10 : 10 ≤ base) (h36 : base ≤ 36) (v : UInt64) (str : ℕ → UInt8) :
    logs ((List.range 21).map (written base v.toNat str)) = numeral base v.toNat := by
  have h2 : 2 ≤ base := le_trans (by decide) h10
  have hle : numDigits base v.toNat ≤ 20 := numDigits_le h10 v.toNat_lt
  have hsize : 21 = numDigits base v.toNat + (20 - numDigits base v.toNat + 1) := by omega
  have hnul : written base v.toNat str (numDigits base v.toNat + 0) = 0 :=
    (encoded_written h2 h36 v.toNat str).nul
  rw [logs_eq, hsize, List.range_add, List.map_append, map_written h2, List.range_succ_eq_map,
    List.map_cons, List.map_cons, hnul]
  exact rendered_append_zero (numeral_plain h2 h36 v.toNat) _

lemma logNum_eq {base : ℕ} (h10 : 10 ≤ base) (h36 : base ≤ 36) (v : UInt64) (ap : List Arg)
    (str : ℕ → UInt8) : logNum base ⟨.num v :: ap, str⟩ =
      some (numeral base v.toNat, ⟨ap, written base v.toNat str⟩) := by
  simp only [logNum]
  rw [itoa_eq (by omega) v.toNat_lt str, Option.map_some, logs_written h10 h36]

lemma branch_eq (x : Directive) (a : Arg) (ap : List Arg) (str : ℕ → UInt8) :
    ∃ str', branch x ⟨a :: ap, str⟩ = (printed x a).map fun o => (o, ⟨ap, str'⟩) := by
  have h16 := fun v => logNum_eq (by decide : 10 ≤ 16) (by decide : 16 ≤ 36) v ap str
  have h10 := fun v => logNum_eq (by decide : 10 ≤ 10) (by decide : 10 ≤ 36) v ap str
  cases a with
  | num v =>
    cases x with
    | p =>
      refine ⟨written 16 v.toNat str, ?_⟩
      rw [branch, h16]
      rfl
    | d => exact ⟨_, h10 v⟩
    | X => exact ⟨_, h16 v⟩
    | c => exact ⟨str, rfl⟩
    | s => exact ⟨str, rfl⟩
  | chr c => cases x <;> exact ⟨str, rfl⟩
  | str t =>
    cases x with
    | s =>
      exact ⟨str, congrArg (fun o => some (o, Va.mk ap str)) (logs_eq t)⟩
    | p => exact ⟨str, rfl⟩
    | c => exact ⟨str, rfl⟩
    | d => exact ⟨str, rfl⟩
    | X => exact ⟨str, rfl⟩

lemma branch_nil (x : Directive) (str : ℕ → UInt8) : branch x ⟨[], str⟩ = none := by
  cases x <;> rfl

lemma tokens_lit {c : UInt8} (h0 : c ≠ 0) (hp : c ≠ PERCENT) (format : List UInt8) :
    tokens (c :: format) = .lit c :: tokens format := by
  cases format <;> simp [tokens, h0, hp]

lemma tokens_dir {next : UInt8} {x : Directive} (hx : directive? next = some x)
    (rest : List UInt8) : tokens (PERCENT :: next :: rest) = .dir x :: tokens rest := by
  rw [tokens, if_neg (by decide), if_pos rfl]
  simp only [hx]

lemma tokens_percent (rest : List UInt8) :
    tokens (PERCENT :: PERCENT :: rest) = .percent :: tokens (PERCENT :: rest) := by
  conv_lhs => rw [tokens, if_neg (by decide), if_pos rfl]
  rfl

/-- A `%` before any other character is nothing. -/
lemma tokens_other {next : UInt8} (hx : directive? next = none) (hp : next ≠ PERCENT)
    (rest : List UInt8) : tokens (PERCENT :: next :: rest) = tokens (next :: rest) := by
  rw [tokens, if_neg (by decide), if_pos rfl]
  simp only [hx, if_neg hp]

/-- **What `debug_log` sends.** The buffer never shows. -/
lemma debugLog_eq (format : List UInt8) (args : List Arg) (str : ℕ → UInt8) :
    debugLog format ⟨args, str⟩ = outputs (tokens format) args := by
  induction format using tokens.induct generalizing args str with
  | case1 => rfl
  | case2 format => cases format <;> rw [debugLog, tokens, if_pos rfl, if_pos rfl, outputs]
  | case3 => rfl
  | case4 next rest x hx h0 ih =>
    rw [tokens_dir hx, debugLog, if_neg h0, if_pos rfl]
    simp only [hx]
    cases args with
    | nil => rw [branch_nil, outputs, Option.bind_none]
    | cons a args =>
      obtain ⟨str', hb⟩ := branch_eq x a args str
      rw [hb, outputs, Option.bind_map]
      simp only [Function.comp_def, ih]
  | case5 rest h0 hx ih =>
    rw [tokens_percent, outputs, ← ih args str]
    conv_lhs => rw [debugLog, if_neg h0, if_pos rfl]
    rfl
  | case6 next rest hx hp h0 ih =>
    rw [tokens_other hx hp, ← ih args str, debugLog, if_neg h0, if_pos rfl]
    simp only [hx, if_neg hp]
  | case7 c format h0 hp ih =>
    rw [tokens_lit h0 hp, outputs, ← ih args str]
    cases format <;> simp [debugLog, h0, hp]

end FlameOS.DebugLog
