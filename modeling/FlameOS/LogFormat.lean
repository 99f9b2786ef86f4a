import FlameOS.DebugLog

/-!
The formats that `debug_log` is written for: characters, directives and `%%`. Behind a `%%` the
scan is one character behind, so that the second `%` meets the character that comes next.
-/

namespace FlameOS.LogFormat

open FlameOS.DebugLog

/-- A character that stands for itself, a directive for an argument, or `%%`. -/
inductive Item
  | lit (c : {c : UInt8 // c ≠ 0 ∧ c ≠ PERCENT})
  | dir (x : Directive)
  | percent
  deriving DecidableEq

def Item.text : Item → List UInt8
  | .lit c => [c.1]
  | .dir x => [PERCENT, x.letter]
  | .percent => [PERCENT, PERCENT]

def text (items : List Item) : List UInt8 := items.flatMap Item.text

/-- What the items are to print, if the arguments match the directives. -/
def render : List Item → List Arg → Option (List UInt8)
  | [], [] => some []
  | [], _ :: _ => none
  | .lit c :: is, args => (render is args).map (logchar c.1 ++ ·)
  | .percent :: is, args => (render is args).map (PERCENT :: ·)
  | .dir _ :: _, [] => none
  | .dir x :: is, a :: args => (printed x a).bind fun o => (render is args).map (o ++ ·)

/-- A character that has no meaning behind a `%`. -/
def Item.Harmless : Item → Prop
  | .lit c => directive? c.1 = none
  | _ => False

/-- Behind each `%%` comes a harmless character, or nothing. -/
def Clean (items : List Item) : Prop := items.IsChain fun i j => i = .percent → j.Harmless

/-- The tokens of the items; `pending` is a `%` that is still to be read. -/
def scanned : Bool → List Item → List Token
  | _, [] => []
  | false, .lit c :: is => .lit c.1 :: scanned false is
  | true, .lit c :: is =>
    match directive? c.1 with
    | some x => .dir x :: scanned false is
    | none => .lit c.1 :: scanned false is
  | false, .dir x :: is => .dir x :: scanned false is
  | true, .dir x :: is => .percent :: .dir x :: scanned false is
  | false, .percent :: is => .percent :: scanned true is
  | true, .percent :: is => .percent :: .percent :: scanned true is

/-- The items with the `%` that is still to be read. -/
def withPending (pending : Bool) (items : List Item) : List UInt8 :=
  if pending then PERCENT :: text items else text items

lemma directive?_letter (x : Directive) : directive? x.letter = some x := by
  cases x <;> decide

lemma tokens_text (pending : Bool) (items : List Item) :
    tokens (withPending pending items) = scanned pending items := by
  induction items generalizing pending with
  | nil => cases pending <;> rfl
  | cons i is ih =>
    have ihf : tokens (text is) = scanned false is := ih false
    have iht : tokens (PERCENT :: text is) = scanned true is := ih true
    cases i with
    | lit c =>
      obtain ⟨c, h0, hp⟩ := c
      have htext : text (.lit ⟨c, h0, hp⟩ :: is) = c :: text is := rfl
      cases pending with
      | false =>
        calc tokens (text (.lit ⟨c, h0, hp⟩ :: is)) = .lit c :: tokens (text is) := tokens_lit h0 hp _
          _ = .lit c :: scanned false is := by rw [ihf]
      | true =>
        have hw : withPending true (.lit ⟨c, h0, hp⟩ :: is) = PERCENT :: c :: text is := rfl
        rw [hw, scanned]
        cases hx : directive? c with
        | some x => rw [tokens_dir hx, ihf]
        | none => rw [tokens_other hx hp, tokens_lit h0 hp, ihf]
    | dir x =>
      have hdir := tokens_dir (directive?_letter x) (text is)
      cases pending with
      | false =>
        calc tokens (PERCENT :: x.letter :: text is) = .dir x :: tokens (text is) := hdir
          _ = .dir x :: scanned false is := by rw [ihf]
      | true =>
        calc tokens (PERCENT :: PERCENT :: x.letter :: text is)
            = .percent :: tokens (PERCENT :: x.letter :: text is) := tokens_percent _
          _ = .percent :: .dir x :: scanned false is := by rw [hdir, ihf]
    | percent =>
      cases pending with
      | false =>
        calc tokens (PERCENT :: PERCENT :: text is)
            = .percent :: tokens (PERCENT :: text is) := tokens_percent _
          _ = .percent :: scanned true is := by rw [iht]
      | true =>
        calc tokens (PERCENT :: PERCENT :: PERCENT :: text is)
            = .percent :: tokens (PERCENT :: PERCENT :: text is) := tokens_percent _
          _ = .percent :: .percent :: tokens (PERCENT :: text is) := by rw [tokens_percent]
          _ = .percent :: .percent :: scanned true is := by rw [iht]

/-! ### Arguments -/

def numArgs (ts : List Token) : ℕ := ts.countP fun t => t matches .dir _

def numDirs (items : List Item) : ℕ := items.countP fun i => i matches .dir _

lemma numArgs_le {ts : List Token} {args : List Arg} {out : List UInt8}
    (h : outputs ts args = some out) : numArgs ts ≤ args.length := by
  induction ts generalizing args out with
  | nil => exact Nat.zero_le _
  | cons t ts ih =>
    cases t with
    | lit c =>
      obtain ⟨o, ho, -⟩ := Option.map_eq_some_iff.mp h
      exact ih ho
    | percent =>
      obtain ⟨o, ho, -⟩ := Option.map_eq_some_iff.mp h
      exact ih ho
    | dir x =>
      cases args with
      | nil => cases h
      | cons a args =>
        obtain ⟨_, -, hrest⟩ := Option.bind_eq_some_iff.mp h
        obtain ⟨o, ho, -⟩ := Option.map_eq_some_iff.mp hrest
        simpa [numArgs] using ih ho

lemma length_of_render {items : List Item} {args : List Arg} {out : List UInt8}
    (h : render items args = some out) : args.length = numDirs items := by
  induction items generalizing args out with
  | nil =>
    cases args with
    | nil => rfl
    | cons a args => cases h
  | cons i is ih =>
    cases i with
    | lit c =>
      obtain ⟨o, ho, -⟩ := Option.map_eq_some_iff.mp h
      exact ih ho
    | percent =>
      obtain ⟨o, ho, -⟩ := Option.map_eq_some_iff.mp h
      exact ih ho
    | dir x =>
      cases args with
      | nil => cases h
      | cons a args =>
        obtain ⟨_, -, hrest⟩ := Option.bind_eq_some_iff.mp h
        obtain ⟨o, ho, -⟩ := Option.map_eq_some_iff.mp hrest
        simpa [numDirs] using ih ho

lemma numDirs_le (pending : Bool) (items : List Item) :
    numDirs items ≤ numArgs (scanned pending items) := by
  induction items generalizing pending with
  | nil => exact Nat.zero_le _
  | cons i is ih =>
    have ihf := ih false
    have iht := ih true
    unfold numDirs numArgs at *
    cases i with
    | lit c =>
      cases pending with
      | false => simpa [scanned] using ihf
      | true =>
        rw [scanned]
        split
        · simp
          omega
        · simpa using ihf
    | dir x => cases pending <;> simpa [scanned] using ihf
    | percent => cases pending <;> simpa [scanned] using iht

/-! ### The two outputs -/

/-- The items are clean, also behind the `%` that is still to be read. -/
def CleanFrom (pending : Bool) (items : List Item) : Prop :=
  if pending then Clean (.percent :: items) else Clean items

lemma clean_cons {i : Item} (hi : i ≠ .percent) (items : List Item) :
    Clean (i :: items) ↔ Clean items := by
  cases items with
  | nil => simp [Clean]
  | cons j js =>
    unfold Clean
    rw [List.isChain_cons_cons]
    exact and_iff_right fun h => absurd h hi

lemma clean_percent_cons (i : Item) (items : List Item) :
    Clean (.percent :: i :: items) ↔ i.Harmless ∧ Clean (i :: items) := by
  unfold Clean
  rw [List.isChain_cons_cons]
  exact and_congr_left' ⟨fun h => h rfl, fun h _ => h⟩

variable {items : List Item} {args : List Arg} {out out' : List UInt8}

lemma outputs_of_clean {pending : Bool} (hclean : CleanFrom pending items)
    (h : render items args = some out) : outputs (scanned pending items) args = some out := by
  induction items generalizing pending args out with
  | nil =>
    cases args with
    | nil => cases pending <;> exact h
    | cons a args => cases h
  | cons i is ih =>
    cases i with
    | lit c =>
      obtain ⟨o, ho, rfl⟩ := Option.map_eq_some_iff.mp h
      have hne : Item.lit c ≠ .percent := Item.noConfusion
      cases pending with
      | false =>
        have hc : CleanFrom false is := (clean_cons hne is).mp hclean
        rw [scanned, outputs, ih hc ho, Option.map_some]
      | true =>
        obtain ⟨hharm, hc⟩ := (clean_percent_cons _ is).mp hclean
        have hx : directive? c.1 = none := hharm
        have hrest : CleanFrom false is := (clean_cons hne is).mp hc
        simp only [scanned, hx]
        rw [outputs, ih hrest ho, Option.map_some]
    | dir x =>
      cases pending with
      | true => exact absurd ((clean_percent_cons _ is).mp hclean).1 not_false
      | false =>
        cases args with
        | nil => cases h
        | cons a args =>
          obtain ⟨p, hp, hrest⟩ := Option.bind_eq_some_iff.mp h
          obtain ⟨o, ho, rfl⟩ := Option.map_eq_some_iff.mp hrest
          have hc : CleanFrom false is := (clean_cons Item.noConfusion is).mp hclean
          rw [scanned, outputs, hp, Option.bind_some, ih hc ho, Option.map_some]
    | percent =>
      obtain ⟨o, ho, rfl⟩ := Option.map_eq_some_iff.mp h
      cases pending with
      | true => exact absurd ((clean_percent_cons _ is).mp hclean).1 not_false
      | false =>
        have hc : CleanFrom true is := hclean
        rw [scanned, outputs, ih hc ho, Option.map_some]

/-- The same bytes in front of both outputs. -/
lemma append_both {p o o' : List UInt8} {C : Prop} (h : o.length ≤ o'.length ∧ (o' = o → C)) :
    (p ++ o).length ≤ (p ++ o').length ∧ (p ++ o' = p ++ o → C) := by
  refine ⟨?_, fun he => h.2 (List.append_cancel_left he)⟩
  rw [List.length_append, List.length_append]
  exact Nat.add_le_add_left h.1 _

/-- One byte too many is never made up for. -/
lemma cons_too_long {o r : List UInt8} {C : Prop} (c : UInt8) (h : o.length ≤ r.length) :
    o.length ≤ (c :: r).length ∧ (c :: r = o → C) := by
  refine ⟨h.trans (Nat.le_succ _), fun he => ?_⟩
  have hlen := congrArg List.length he
  rw [List.length_cons] at hlen
  omega

/-- Otherwise the output is too long, if there is one at all. -/
lemma clean_of_outputs {pending : Bool} (h : render items args = some out)
    (h' : outputs (scanned pending items) args = some out') :
    out.length ≤ out'.length ∧ (out' = out → CleanFrom pending items) := by
  induction items generalizing pending args out out' with
  | nil =>
    have hclean : CleanFrom pending [] := by
      cases pending
      · exact .nil
      · exact .singleton _
    cases args with
    | nil =>
      obtain rfl := Option.some.inj h
      exact ⟨Nat.zero_le _, fun _ => hclean⟩
    | cons a args => cases h
  | cons i is ih =>
    cases i with
    | lit c =>
      obtain ⟨o, ho, rfl⟩ := Option.map_eq_some_iff.mp h
      have hlit : ∀ {o'}, outputs (scanned false is) args = some o' →
          (logchar c.1 ++ o).length ≤ (logchar c.1 ++ o').length ∧
            (logchar c.1 ++ o' = logchar c.1 ++ o → Clean is) :=
        fun ho' => append_both (ih ho ho')
      have hne : Item.lit c ≠ .percent := Item.noConfusion
      cases pending with
      | false =>
        obtain ⟨o', ho', rfl⟩ := Option.map_eq_some_iff.mp h'
        exact (hlit ho').imp_right fun hc he => (clean_cons hne is).mpr (hc he)
      | true =>
        rw [scanned] at h'
        split at h'
        · -- the letter takes an argument, and one is missing in the end
          have hle := numArgs_le h'
          have hlen := length_of_render ho
          have hdirs := numDirs_le false is
          unfold numArgs at hle hdirs
          rw [List.countP_cons] at hle
          simp at hle
          omega
        · rename_i hx
          obtain ⟨o', ho', rfl⟩ := Option.map_eq_some_iff.mp h'
          refine (hlit ho').imp_right fun hc he => ?_
          exact (clean_percent_cons _ is).mpr ⟨hx, (clean_cons hne is).mpr (hc he)⟩
    | dir x =>
      cases args with
      | nil => cases h
      | cons a args =>
        obtain ⟨p, hp, hrest⟩ := Option.bind_eq_some_iff.mp h
        obtain ⟨o, ho, rfl⟩ := Option.map_eq_some_iff.mp hrest
        have hdir : ∀ {r}, outputs (.dir x :: scanned false is) (a :: args) = some r →
            (p ++ o).length ≤ r.length ∧ (r = p ++ o → Clean is) := by
          intro r hr
          rw [outputs, hp, Option.bind_some] at hr
          obtain ⟨o', ho', rfl⟩ := Option.map_eq_some_iff.mp hr
          exact append_both (ih ho ho')
        cases pending with
        | false =>
          exact (hdir h').imp_right fun hc he => (clean_cons Item.noConfusion is).mpr (hc he)
        | true =>
          -- there is one `%` too many
          obtain ⟨r, hr, rfl⟩ := Option.map_eq_some_iff.mp h'
          exact cons_too_long PERCENT (hdir hr).1
    | percent =>
      obtain ⟨o, ho, rfl⟩ := Option.map_eq_some_iff.mp h
      cases pending with
      | false =>
        obtain ⟨o', ho', rfl⟩ := Option.map_eq_some_iff.mp h'
        obtain ⟨hlen, hclean⟩ := ih ho ho'
        exact ⟨Nat.succ_le_succ hlen, fun he => hclean (List.cons.inj he).2⟩
      | true =>
        obtain ⟨r, hr, rfl⟩ := Option.map_eq_some_iff.mp h'
        obtain ⟨o', ho', rfl⟩ := Option.map_eq_some_iff.mp hr
        have hlen := (ih ho ho').1
        exact cons_too_long PERCENT (Nat.succ_le_succ hlen)

/-- **What `debug_log` makes of its format language.** For arguments that match the directives,
the output is the concatenation of the renderings exactly if each `%%` has nothing behind it or
a character that is none of the letters of the directives. -/
theorem debugLog_renders_iff (items : List Item) (args : List Arg) (out : List UInt8)
    (h : render items args = some out) (str : ℕ → UInt8) :
    debugLog (text items) ⟨args, str⟩ = some out ↔ Clean items := by
  have hscan : debugLog (text items) ⟨args, str⟩ = outputs (scanned false items) args := by
    rw [debugLog_eq]
    exact congrArg (outputs · args) (tokens_text false items)
  rw [hscan]
  constructor
  · exact fun h' => (clean_of_outputs h h').2 rfl
  · intro hclean
    have hfrom : CleanFrom false items := hclean
    exact outputs_of_clean hfrom h

/-- `"%d%%\n"` with a number. -/
theorem debugLog_renders_iff_percentage :
    debugLog (text [.dir .d, .percent, .lit ⟨NEWLINE, by decide⟩]) ⟨[.num 42], fun _ => 7⟩ =
        some ['4'.toUInt8, '2'.toUInt8, PERCENT, NEWLINE, RETURN] ↔
      Clean [.dir .d, .percent, .lit ⟨NEWLINE, by decide⟩] :=
  debugLog_renders_iff [.dir .d, .percent, .lit ⟨NEWLINE, by decide⟩] [.num 42] _ (by decide) fun _ => 7

/-- `"%%%d"` prints a second `%`. -/
theorem not_debugLog_renders :
    debugLog (text [.percent, .dir .d]) ⟨[.num 5], fun _ => 0⟩ =
        some [PERCENT, PERCENT, '5'.toUInt8] ∧
      ¬ ∀ (items : List Item) (args : List Arg) (out : List UInt8), render items args = some out →
        ∀ str, debugLog (text items) ⟨args, str⟩ = some out := by
  have hout : debugLog (text [.percent, .dir .d]) ⟨[.num 5], fun _ => 0⟩ =
    some [PERCENT, PERCENT, '5'.toUInt8] := by decide
  refine ⟨hout, fun hall => ?_⟩
  have h := hall [.percent, .dir .d] [.num 5] [PERCENT, '5'.toUInt8] (by decide) fun _ => 0
  rw [hout] at h
  exact absurd h (by decide)

end FlameOS.LogFormat
