import FlameOS.DebugLog

/-!
`error`, the copy of `debug_log` for interrupt handlers. It has no branch for `%c`, which it
prints as a `c` without taking an argument, and it sends no return behind a newline.
-/

namespace FlameOS.ErrorLog

open FlameOS.DebugLog

def errorDirective? (c : UInt8) : Option Directive :=
  if c = 'p'.toUInt8 then some .p
  else if c = 'd'.toUInt8 then some .d
  else if c = 'X'.toUInt8 then some .X
  else if c = 's'.toUInt8 then some .s
  else none

/-- The loop of `error`: what is sent to the port. Its branches are those of `debug_log`. -/
def error : List UInt8 → Va → Option (List UInt8)
  | [], _ => some []
  | c :: format, s =>
    if c = 0 then some []
    else if c = PERCENT then
      match format with
      | [] => some []
      | next :: rest =>
        match errorDirective? next with
        | some x => (branch x s).bind fun r => (error rest r.2).map (r.1 ++ ·)
        | none =>
          if next = PERCENT then (error (next :: rest) s).map ([PERCENT] ++ ·)
          else error (next :: rest) s
    else (error format s).map ([c] ++ ·)

def errorOutputs : List Token → List Arg → Option (List UInt8)
  | [], _ => some []
  | .lit c :: ts, args => (errorOutputs ts args).map (c :: ·)
  | .percent :: ts, args => (errorOutputs ts args).map (PERCENT :: ·)
  | .dir x :: ts, args =>
    if x = .c then (errorOutputs ts args).map ('c'.toUInt8 :: ·)
    else
      match args with
      | [] => none
      | a :: args => (printed x a).bind fun o => (errorOutputs ts args).map (o ++ ·)

lemma errorOutputs_c (ts : List Token) (args : List Arg) :
    errorOutputs (.dir .c :: ts) args = (errorOutputs ts args).map ('c'.toUInt8 :: ·) := by
  cases args <;> rw [errorOutputs, if_pos rfl]

lemma errorOutputs_nil {x : Directive} (hx : x ≠ .c) (ts : List Token) :
    errorOutputs (.dir x :: ts) [] = none := by
  rw [errorOutputs, if_neg hx]

lemma errorOutputs_dir {x : Directive} (hx : x ≠ .c) (ts : List Token) (a : Arg)
    (args : List Arg) : errorOutputs (.dir x :: ts) (a :: args) =
      (printed x a).bind fun o => (errorOutputs ts args).map (o ++ ·) := by
  rw [errorOutputs, if_neg hx]

/-! ### The scan -/

lemma eq_letter {next : UInt8} {x : Directive} (h : directive? next = some x) :
    next = x.letter := by
  unfold directive? at h
  split_ifs at h with hp hc hd hX hs <;> obtain rfl := Option.some.inj h
  · exact hp
  · exact hc
  · exact hd
  · exact hX
  · exact hs

lemma errorDirective?_letter {x : Directive} (hx : x ≠ .c) : errorDirective? x.letter = some x := by
  cases x with
  | c => exact absurd rfl hx
  | p => rfl
  | d => decide
  | X => decide
  | s => decide

/-- A character that is no label in `debug_log` is none in `error`. -/
lemma errorDirective?_eq_none {next : UInt8} (h : directive? next = none) :
    errorDirective? next = none := by
  cases he : errorDirective? next with
  | none => rfl
  | some x =>
    unfold directive? at h
    unfold errorDirective? at he
    split_ifs at h he

lemma error_cons {c : UInt8} (h0 : c ≠ 0) (hp : c ≠ PERCENT) (format : List UInt8) (s : Va) :
    error (c :: format) s = (error format s).map (c :: ·) := by
  cases format <;> simp [error, h0, hp]

lemma error_eq (format : List UInt8) (args : List Arg) (str : ℕ → UInt8) :
    error format ⟨args, str⟩ = errorOutputs (tokens format) args := by
  induction format using tokens.induct generalizing args str with
  | case1 => rfl
  | case2 format => cases format <;> rw [error, tokens, if_pos rfl, if_pos rfl, errorOutputs]
  | case3 => rfl
  | case4 next rest x hx h0 ih =>
    obtain rfl := eq_letter hx
    rw [tokens_dir hx]
    by_cases hc : x = .c
    · subst hc
      have hletter : Directive.letter .c ≠ 0 ∧ Directive.letter .c ≠ PERCENT := by decide
      have hnone : errorDirective? (Directive.letter .c) = none := by decide
      rw [errorOutputs_c, error, if_neg h0, if_pos rfl]
      simp only [hnone, if_neg hletter.2]
      rw [error_cons hletter.1 hletter.2, ih]
      rfl
    · rw [error, if_neg h0, if_pos rfl]
      simp only [errorDirective?_letter hc]
      cases args with
      | nil => rw [branch_nil, errorOutputs_nil hc, Option.bind_none]
      | cons a args =>
        obtain ⟨str', hb⟩ := branch_eq x a args str
        rw [hb, errorOutputs_dir hc, Option.bind_map]
        simp only [Function.comp_def, ih]
  | case5 rest h0 hx ih =>
    rw [tokens_percent, errorOutputs, ← ih args str]
    conv_lhs => rw [error, if_neg h0, if_pos rfl]
    rfl
  | case6 next rest hx hp h0 ih =>
    rw [tokens_other hx hp, ← ih args str, error, if_neg h0, if_pos rfl]
    simp only [errorDirective?_eq_none hx, if_neg hp]
  | case7 c format h0 hp ih => rw [tokens_lit h0 hp, error_cons h0 hp, ih, errorOutputs]

/-! ### The two outputs -/

/-- The type of argument that a directive reads. -/
def Takes : Directive → Arg → Prop
  | .c, .chr _ => True
  | .s, .str _ => True
  | .p, .num _ => True
  | .d, .num _ => True
  | .X, .num _ => True
  | _, _ => False

/-- The arguments have the types that the directives read. With others a call is undefined. -/
def Fits : List Token → List Arg → Prop
  | [], _ => True
  | .dir x :: ts, a :: args => Takes x a ∧ Fits ts args
  | .dir _ :: _, [] => False
  | _ :: ts, args => Fits ts args

/-- Among the tokens there is no directive but `%c`. -/
def OnlyChars (ts : List Token) : Prop := ∀ x, .dir x ∈ ts → x = .c

/-- No newline stands in the format, each `%c` is for the letter c, and behind it no other
directive takes an argument. -/
def Agree : List Token → List Arg → Prop
  | [], _ => True
  | .lit c :: ts, args => c ≠ NEWLINE ∧ Agree ts args
  | .percent :: ts, args => Agree ts args
  | .dir x :: ts, args =>
    (x = .c → args.head? = some (.chr 'c'.toUInt8) ∧ OnlyChars ts) ∧ Agree ts args.tail

variable {ts : List Token} {args args' : List Arg} {o₁ o₂ : List UInt8}

lemma takes_iff (x : Directive) (a : Arg) : Takes x a ↔ ∃ o, printed x a = some o := by
  cases x <;> cases a <;> simp [Takes, printed]

lemma exists_map_iff {α β : Type*} (f : α → β) (x : Option α) :
    (∃ y, x.map f = some y) ↔ ∃ y, x = some y := by
  simp only [← Option.isSome_iff_exists, Option.isSome_map]

lemma fits_iff (ts : List Token) (args : List Arg) : Fits ts args ↔ ∃ o, outputs ts args = some o := by
  induction ts generalizing args with
  | nil => exact ⟨fun _ => ⟨[], rfl⟩, fun _ => trivial⟩
  | cons t ts ih =>
    cases t with
    | lit c => exact (ih args).trans (exists_map_iff _ _).symm
    | percent => exact (ih args).trans (exists_map_iff _ _).symm
    | dir x =>
      cases args with
      | nil =>
        constructor
        · exact False.elim
        · rintro ⟨o, h⟩
          cases h
      | cons a args =>
        rw [Fits, takes_iff, ih args]
        constructor
        · rintro ⟨⟨p, hp⟩, o, ho⟩
          exact ⟨p ++ o, by rw [outputs, hp, Option.bind_some, ho, Option.map_some]⟩
        · rintro ⟨o, h⟩
          obtain ⟨p, hp, hrest⟩ := Option.bind_eq_some_iff.mp h
          obtain ⟨o', ho', -⟩ := Option.map_eq_some_iff.mp hrest
          exact ⟨⟨p, hp⟩, o', ho'⟩

lemma OnlyChars.tail {t : Token} (h : OnlyChars (t :: ts)) : OnlyChars ts := fun x hx =>
  h x (List.mem_cons_of_mem _ hx)

/-- No other directive can read the argument that `%c` has left. -/
lemma onlyChars_of_errorOutputs {a : UInt8} (h : errorOutputs ts (.chr a :: args) = some o₂) :
    OnlyChars ts := by
  induction ts generalizing o₂ with
  | nil => exact fun x hx => absurd hx List.not_mem_nil
  | cons t ts ih =>
    have hcons : (∀ x, t = .dir x → x = .c) → OnlyChars ts → OnlyChars (t :: ts) := by
      intro ht hts x hx
      rcases List.mem_cons.mp hx with rfl | hx
      · exact ht x rfl
      · exact hts x hx
    cases t with
    | lit c =>
      obtain ⟨o, ho, -⟩ := Option.map_eq_some_iff.mp h
      exact hcons (fun _ => Token.noConfusion) (ih ho)
    | percent =>
      obtain ⟨o, ho, -⟩ := Option.map_eq_some_iff.mp h
      exact hcons (fun _ => Token.noConfusion) (ih ho)
    | dir x =>
      by_cases hx : x = .c
      · subst hx
        rw [errorOutputs_c] at h
        obtain ⟨o, ho, -⟩ := Option.map_eq_some_iff.mp h
        exact hcons (fun y hy => (Token.dir.inj hy).symm) (ih ho)
      · rw [errorOutputs_dir hx] at h
        obtain ⟨p, hp, -⟩ := Option.bind_eq_some_iff.mp h
        exact absurd ((takes_iff x _).mpr ⟨p, hp⟩) (by cases x <;> first | exact absurd rfl hx | exact id)

/-- The arguments that `error` has left: all of those that `debug_log` has left, or some that it
will not read. -/
def Kept (ts : List Token) (args args' : List Arg) : Prop := args' = args ∨ OnlyChars ts

lemma Kept.tail {t : Token} (h : Kept (t :: ts) args args') : Kept ts args args' :=
  h.imp_right OnlyChars.tail

lemma outputs_c (h : outputs (.dir .c :: ts) args = some o₁) : ∃ a rest o, args = .chr a :: rest ∧
    outputs ts rest = some o ∧ o₁ = logchar a ++ o := by
  cases args with
  | nil => cases h
  | cons a rest =>
    obtain ⟨p, hp, hrest⟩ := Option.bind_eq_some_iff.mp h
    obtain ⟨o, ho, rfl⟩ := Option.map_eq_some_iff.mp hrest
    cases a with
    | chr a =>
      obtain rfl := Option.some.inj hp
      exact ⟨a, rest, o, rfl, ho, rfl⟩
    | num v => cases hp
    | str s => cases hp

lemma outputs_dir {x : Directive} (hx : x ≠ .c) (h : outputs (.dir x :: ts) args = some o₁)
    (hk : Kept (.dir x :: ts) args args') : ∃ a rest p o, args = a :: rest ∧ args' = a :: rest ∧
      outputs ts rest = some o ∧ o₁ = p ++ o ∧
      errorOutputs (.dir x :: ts) args' = (errorOutputs ts rest).map (p ++ ·) := by
  obtain rfl : args' = args := hk.resolve_right fun hc => hx (hc x List.mem_cons_self)
  cases args' with
  | nil => cases h
  | cons a rest =>
    obtain ⟨p, hp, hrest⟩ := Option.bind_eq_some_iff.mp h
    obtain ⟨o, ho, rfl⟩ := Option.map_eq_some_iff.mp hrest
    exact ⟨a, rest, p, o, rfl, rfl, ho, rfl, by rw [errorOutputs_dir hx, hp, Option.bind_some]⟩

/-- What `%c` leaves for the rest. -/
lemma kept_c {a : UInt8} {rest : List Arg} (hk : Kept (.dir .c :: ts) (.chr a :: rest) args')
    (h : errorOutputs ts args' = some o₂) : OnlyChars ts := by
  rcases hk with rfl | hc
  · exact onlyChars_of_errorOutputs h
  · exact hc.tail

lemma one_le_logchar (c : UInt8) : 1 ≤ (logchar c).length := by
  unfold logchar
  split <;> simp

lemma length_errorOutputs_le (h₁ : outputs ts args = some o₁)
    (h₂ : errorOutputs ts args' = some o₂) (hk : Kept ts args args') : o₂.length ≤ o₁.length := by
  induction ts generalizing args args' o₁ o₂ with
  | nil =>
    obtain rfl := Option.some.inj h₂
    exact Nat.zero_le _
  | cons t ts ih =>
    cases t with
    | lit c =>
      obtain ⟨p₁, hp₁, rfl⟩ := Option.map_eq_some_iff.mp h₁
      obtain ⟨p₂, hp₂, rfl⟩ := Option.map_eq_some_iff.mp h₂
      have hle := ih hp₁ hp₂ hk.tail
      have hone := one_le_logchar c
      rw [List.length_cons, List.length_append]
      omega
    | percent =>
      obtain ⟨p₁, hp₁, rfl⟩ := Option.map_eq_some_iff.mp h₁
      obtain ⟨p₂, hp₂, rfl⟩ := Option.map_eq_some_iff.mp h₂
      exact Nat.succ_le_succ (ih hp₁ hp₂ hk.tail)
    | dir x =>
      by_cases hx : x = .c
      · subst hx
        obtain ⟨a, rest, o, rfl, ho, rfl⟩ := outputs_c h₁
        rw [errorOutputs_c] at h₂
        obtain ⟨p₂, hp₂, rfl⟩ := Option.map_eq_some_iff.mp h₂
        have hle := ih ho hp₂ (Or.inr (kept_c hk hp₂))
        have hone := one_le_logchar a
        rw [List.length_cons, List.length_append]
        omega
      · obtain ⟨a, rest, p, o, rfl, rfl, ho, rfl, he⟩ := outputs_dir hx h₁ hk
        rw [he] at h₂
        obtain ⟨p₂, hp₂, rfl⟩ := Option.map_eq_some_iff.mp h₂
        have hle := ih ho hp₂ (Or.inl rfl)
        rw [List.length_append, List.length_append]
        omega

/-- Where `debug_log` has an output, `error` has the same exactly for tokens that agree. -/
lemma errorOutputs_iff (h : outputs ts args = some o₁) (hk : Kept ts args args') :
    errorOutputs ts args' = some o₁ ↔ Agree ts args := by
  induction ts generalizing args args' o₁ with
  | nil => exact iff_of_true h trivial
  | cons t ts ih =>
    cases t with
    | lit c =>
      obtain ⟨o, ho, rfl⟩ := Option.map_eq_some_iff.mp h
      rw [errorOutputs, Agree, ← ih ho hk.tail]
      by_cases hc : c = NEWLINE
      · -- the return is missing, and nothing makes up for it
        refine iff_of_false (fun he => ?_) fun hne => hne.1 hc
        obtain ⟨p, hp, heq⟩ := Option.map_eq_some_iff.mp he
        have hle := length_errorOutputs_le ho hp hk.tail
        have hlen := congrArg List.length heq
        rw [logchar, if_pos hc] at hlen
        simp only [List.length_cons, List.cons_append, List.nil_append] at hlen
        omega
      · rw [logchar, if_neg hc, and_iff_right hc]
        exact (Option.map_injective List.cons_injective).eq_iff (b := some o)
    | percent =>
      obtain ⟨o, ho, rfl⟩ := Option.map_eq_some_iff.mp h
      rw [errorOutputs, Agree, ← ih ho hk.tail]
      exact (Option.map_injective List.cons_injective).eq_iff (b := some o)
    | dir x =>
      by_cases hx : x = .c
      · subst hx
        obtain ⟨a, rest, o, rfl, ho, rfl⟩ := outputs_c h
        rw [errorOutputs_c, Agree]
        constructor
        · intro he
          obtain ⟨p, hp, heq⟩ := Option.map_eq_some_iff.mp he
          have honly := kept_c hk hp
          have hle := length_errorOutputs_le ho hp (Or.inr honly)
          have ha : a = 'c'.toUInt8 ∧ p = o := by
            unfold logchar at heq
            split at heq
            · rename_i hn
              exact absurd ((List.cons.inj heq).1.trans hn) (by decide)
            · exact ⟨(List.cons.inj heq).1.symm, (List.cons.inj heq).2⟩
          obtain ⟨rfl, rfl⟩ := ha
          exact ⟨fun _ => ⟨rfl, honly⟩, (ih ho (Or.inr honly)).mp hp⟩
        · rintro ⟨hc, hagree⟩
          obtain ⟨ha, honly⟩ := hc rfl
          obtain rfl := Arg.chr.inj (Option.some.inj ha)
          rw [(ih ho (Or.inr honly)).mpr hagree]
          rfl
      · obtain ⟨a, rest, p, o, rfl, rfl, ho, rfl, he⟩ := outputs_dir hx h hk
        rw [he, Agree, List.tail_cons, ← ih ho (Or.inl rfl), and_iff_right fun h => absurd h hx]
        exact (Option.map_injective (List.append_right_injective p)).eq_iff (b := some o)

/-- **`error` and `debug_log`.** For arguments of the right types both send the same exactly if
the format has no newline, and each `%c` in it is for the letter c and has no other directive
behind it. -/
theorem error_eq_debugLog_iff (format : List UInt8) (args : List Arg) (str str' : ℕ → UInt8) :
    (∀ out, debugLog format ⟨args, str⟩ = some out → error format ⟨args, str'⟩ = some out) ↔
      (Fits (tokens format) args → Agree (tokens format) args) := by
  rw [debugLog_eq, error_eq, fits_iff]
  constructor
  · rintro h ⟨out, hout⟩
    exact (errorOutputs_iff hout (Or.inl rfl)).mp (h out hout)
  · intro h out hout
    exact (errorOutputs_iff hout (Or.inl rfl)).mpr (h ⟨out, hout⟩)

/-- `"%c"` and `"\n"`. -/
theorem not_error_eq_debugLog :
    debugLog [PERCENT, 'c'.toUInt8] ⟨[.chr 'A'.toUInt8], fun _ => 0⟩ = some ['A'.toUInt8] ∧
      error [PERCENT, 'c'.toUInt8] ⟨[.chr 'A'.toUInt8], fun _ => 0⟩ = some ['c'.toUInt8] ∧
      debugLog [NEWLINE] ⟨[], fun _ => 0⟩ = some [NEWLINE, RETURN] ∧
      error [NEWLINE] ⟨[], fun _ => 0⟩ = some [NEWLINE] ∧
      ¬ ∀ (format : List UInt8) (args : List Arg) (str : ℕ → UInt8) (out : List UInt8),
        debugLog format ⟨args, str⟩ = some out → error format ⟨args, str⟩ = some out := by
  have hdebug : debugLog [NEWLINE] ⟨[], fun _ => 0⟩ = some [NEWLINE, RETURN] := by decide
  have herror : error [NEWLINE] ⟨[], fun _ => 0⟩ = some [NEWLINE] := by decide
  refine ⟨by decide, by decide, hdebug, herror, fun hall => ?_⟩
  have h := hall _ _ _ _ hdebug
  rw [herror] at h
  exact absurd h (by decide)

end FlameOS.ErrorLog
