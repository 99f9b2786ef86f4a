import Mathlib

/-!
`itoa` of the C library: the digits are counted first, and then filled in from the last one to
the first. The count is what makes both loops agree on where the first digit goes.
-/

namespace FlameOS.Itoa

/-- The loop of `getdigits`. It divides until nothing is left. -/
def digitLoop (base : ℕ) : ℕ → ℕ → ℕ → Option ℕ
  | 0, num, counter => if num = 0 then some counter else none
  | fuel + 1, num, counter =>
    if num = 0 then some counter else digitLoop base fuel (num / base) (counter + 1)

def getdigits (fuel num base : ℕ) : Option ℕ :=
  if num = 0 then some 1 else digitLoop base fuel num 0

def digit : List UInt8 :=
  ['0', '1', '2', '3', '4', '5', '6', '7', '8', '9', 'A', 'B', 'C', 'D', 'E', 'F', 'G', 'H', 'I', 'J',
    'K', 'L', 'M', 'N', 'O', 'P', 'Q', 'R', 'S', 'T', 'U', 'V', 'W', 'X', 'Y', 'Z'].map Char.toUInt8

def fillLoop (base : ℕ) : ℕ → ℕ → (ℕ → UInt8) → ℕ → UInt8
  | 0, _, out => out
  | count + 1, num, out =>
    fillLoop base count (num / base) (Function.update out count (digit.getD (num % base) 0))

/-- `itoa`: the value returned, and the memory behind `out`. -/
def itoa (fuel num : ℕ) (out : ℕ → UInt8) (base : ℕ) : Option (ℕ × (ℕ → UInt8)) :=
  (getdigits fuel num base).map fun digits =>
    (digits, Function.update (fillLoop base digits num out) digits 0)

/-! ### The number of digits -/

def numDigits (base num : ℕ) : ℕ := if num = 0 then 1 else (Nat.digits base num).length

variable {base num digits : ℕ}

/-- A number below `2 ^ fuel` is gone after `fuel` divisions. -/
lemma digitLoop_eq (hb : 2 ≤ base) {fuel : ℕ} (h : num < 2 ^ fuel) (counter : ℕ) :
    digitLoop base fuel num counter = some (counter + (Nat.digits base num).length) := by
  induction fuel generalizing num counter with
  | zero =>
    obtain rfl : num = 0 := Nat.lt_one_iff.mp h
    simp [digitLoop]
  | succ fuel ih =>
    rw [digitLoop]
    by_cases h0 : num = 0
    · simp [h0]
    · have hdiv : num / base < 2 ^ fuel := by
        rw [Nat.div_lt_iff_lt_mul (by omega)]
        calc num < 2 ^ fuel * 2 := by rwa [← pow_succ]
          _ ≤ 2 ^ fuel * base := Nat.mul_le_mul_left _ hb
      rw [if_neg h0, ih hdiv, Nat.digits_def' hb (Nat.pos_of_ne_zero h0), List.length_cons,
        Nat.add_right_comm, Nat.add_assoc]

lemma getdigits_eq (hb : 2 ≤ base) {fuel : ℕ} (h : num < 2 ^ fuel) :
    getdigits fuel num base = some (numDigits base num) := by
  unfold getdigits numDigits
  split
  · rfl
  · rw [digitLoop_eq hb h, Nat.zero_add]

lemma numDigits_pos (hb : 2 ≤ base) (num : ℕ) : 0 < numDigits base num := by
  unfold numDigits
  split
  · exact Nat.one_pos
  · rename_i h0
    rw [Nat.digits_def' hb (Nat.pos_of_ne_zero h0)]
    exact Nat.succ_pos _

lemma lt_pow_numDigits (hb : 2 ≤ base) (num : ℕ) : num < base ^ numDigits base num := by
  unfold numDigits
  split
  · rename_i h0
    rw [h0, pow_one]
    omega
  · exact Nat.lt_base_pow_length_digits hb

lemma pow_numDigits_le (hb : 2 ≤ base) (h0 : num ≠ 0) : base ^ (numDigits base num - 1) ≤ num := by
  have hlen : numDigits base num = (Nat.digits base num).length := if_neg h0
  have hle := Nat.base_pow_length_digits_le base num hb h0
  rw [← hlen] at hle
  obtain ⟨d, hd⟩ : ∃ d, numDigits base num = d + 1 :=
    ⟨_, (Nat.succ_pred_eq_of_pos (numDigits_pos hb num)).symm⟩
  rw [hd, pow_succ, Nat.mul_comm] at hle
  rw [hd, Nat.add_sub_cancel]
  exact Nat.le_of_mul_le_mul_left hle (by omega)

lemma numDigits_le (hb : 10 ≤ base) (h : num < 2 ^ 64) : numDigits base num ≤ 20 := by
  by_cases h0 : num = 0
  · simp [numDigits, h0]
  · have hlt : 10 ^ (numDigits base num - 1) < 10 ^ 20 := by
      calc 10 ^ (numDigits base num - 1)
          ≤ base ^ (numDigits base num - 1) := Nat.pow_le_pow_left hb _
        _ ≤ num := pow_numDigits_le (by omega) h0
        _ < 2 ^ 64 := h
        _ ≤ 10 ^ 20 := by norm_num
    have := (Nat.pow_lt_pow_iff_right (by decide)).mp hlt
    omega

/-! ### The digits -/

lemma fillLoop_eq (count num : ℕ) (out : ℕ → UInt8) (i : ℕ) : fillLoop base count num out i =
    if i < count then digit.getD (num / base ^ (count - 1 - i) % base) 0 else out i := by
  induction count generalizing num out with
  | zero => rfl
  | succ count ih =>
    rw [fillLoop, ih]
    rcases lt_trichotomy i count with hi | rfl | hi
    · have hexp : count + 1 - 1 - i = count - 1 - i + 1 := by omega
      rw [if_pos hi, if_pos (by omega), hexp, Nat.div_div_eq_div_mul, pow_succ']
    · rw [if_neg (Nat.lt_irrefl i), if_pos (Nat.lt_succ_self i), Function.update_self,
        Nat.add_sub_cancel, Nat.sub_self, pow_zero, Nat.div_one]
    · rw [if_neg (by omega), if_neg (by omega), Function.update_of_ne (by omega)]

def charValue (c : UInt8) : Option ℕ :=
  if '0'.toUInt8 ≤ c ∧ c ≤ '9'.toUInt8 then some (c.toNat - 48)
  else if 'A'.toUInt8 ≤ c ∧ c ≤ 'Z'.toUInt8 then some (c.toNat - 55)
  else none

/-- A numeral read from the left to the right; `none` if a character is no digit of the base. -/
def readNumeral (base : ℕ) (cs : List UInt8) : Option ℕ :=
  cs.foldlM (fun acc c => ((charValue c).filter (· < base)).map (acc * base + ·)) 0

lemma charValue_digit : ∀ k < 36, charValue (digit.getD k 0) = some k := by decide

lemma digit_eq_zero : ∀ k < 36, digit.getD k 0 = '0'.toUInt8 → k = 0 := by decide

lemma readNumeral_append (cs : List UInt8) (c : UInt8) : readNumeral base (cs ++ [c]) =
    (readNumeral base cs).bind fun acc => ((charValue c).filter (· < base)).map (acc * base + ·) := by
  simp [readNumeral, List.foldlM_append]

/-- The first `n` of the digits read as what is left when the others are taken off. -/
lemma readNumeral_prefix (h36 : base ≤ 36) (hlt : num < base ^ digits) {out : ℕ → UInt8}
    (hout : ∀ i < digits, out i = digit.getD (num / base ^ (digits - 1 - i) % base) 0) {n : ℕ}
    (hn : n ≤ digits) :
    readNumeral base ((List.range n).map out) = some (num / base ^ (digits - n)) := by
  induction n with
  | zero =>
    rw [Nat.sub_zero, Nat.div_eq_of_lt hlt]
    rfl
  | succ n ih =>
    have hb : 0 < base := by
      rcases Nat.eq_zero_or_pos base with rfl | hb
      · rw [zero_pow (by omega)] at hlt
        exact absurd hlt (Nat.not_lt_zero num)
      · exact hb
    have hexp : digits - n = digits - 1 - n + 1 := by omega
    have hexp' : digits - (n + 1) = digits - 1 - n := by omega
    have hmod : num / base ^ (digits - 1 - n) % base < base := Nat.mod_lt _ hb
    rw [List.range_succ, List.map_append, List.map_singleton, readNumeral_append, ih (by omega),
      Option.bind_some, hout n (by omega), charValue_digit _ (by omega), hexp', hexp, pow_succ,
      ← Nat.div_div_eq_div_mul]
    simp [hmod, Nat.div_add_mod']

/-! ### `itoa` -/

/-- The memory behind `out` has a numeral of `num` with `digits` digits and its terminator, and
is unchanged behind that. -/
structure Encoded (base num digits : ℕ) (out out' : ℕ → UInt8) : Prop where
  pos : 0 < digits
  reads : readNumeral base ((List.range digits).map out') = some num
  first : out' 0 = '0'.toUInt8 → num = 0
  nul : out' digits = 0
  behind : ∀ i > digits, out' i = out i

def written (base num : ℕ) (out : ℕ → UInt8) : ℕ → UInt8 :=
  Function.update (fillLoop base (numDigits base num) num out) (numDigits base num) 0

lemma itoa_eq (hb : 2 ≤ base) {fuel : ℕ} (h : num < 2 ^ fuel) (out : ℕ → UInt8) :
    itoa fuel num out base = some (numDigits base num, written base num out) := by
  rw [itoa, getdigits_eq hb h, Option.map_some, written]

lemma written_digit {out : ℕ → UInt8} {i : ℕ} (hi : i < numDigits base num) :
    written base num out i =
      digit.getD (num / base ^ (numDigits base num - 1 - i) % base) 0 := by
  rw [written, Function.update_of_ne hi.ne, fillLoop_eq, if_pos hi]

def numeral (base num : ℕ) : List UInt8 :=
  (if num = 0 then [0] else (Nat.digits base num).reverse).map fun k => digit.getD k 0

lemma map_written (hb : 2 ≤ base) (num : ℕ) (out : ℕ → UInt8) :
    (List.range (numDigits base num)).map (written base num out) = numeral base num := by
  have hlen : (if num = 0 then [0] else (Nat.digits base num).reverse).length =
      numDigits base num := by
    unfold numDigits
    split
    · rfl
    · exact List.length_reverse
  refine List.ext_getElem (by simp [numeral, hlen]) fun i hi hi' => ?_
  rw [List.length_map, List.length_range] at hi
  rw [List.getElem_map, List.getElem_range, written_digit hi]
  simp only [numeral, List.getElem_map]
  congr 1
  by_cases h0 : num = 0
  · simp [h0]
  · have hn : numDigits base num = (Nat.digits base num).length := if_neg h0
    simp only [if_neg h0, List.getElem_reverse]
    rw [hn] at hi ⊢
    rw [← Nat.getD_digits num _ hb, List.getD_eq_getElem]

lemma encoded_written (hb : 2 ≤ base) (h36 : base ≤ 36) (num : ℕ) (out : ℕ → UInt8) :
    Encoded base num (numDigits base num) out (written base num out) where
  pos := numDigits_pos hb num
  reads := by
    have hread := readNumeral_prefix h36 (lt_pow_numDigits hb num)
      (fun i hi => @written_digit base num out i hi) le_rfl
    rwa [Nat.sub_self, pow_zero, Nat.div_one] at hread
  first h := by
    by_contra h0
    rw [written_digit (numDigits_pos hb num), Nat.sub_zero] at h
    have hlt : num / base ^ (numDigits base num - 1) < base := by
      rw [Nat.div_lt_iff_lt_mul (by positivity), ← pow_succ',
        Nat.sub_add_cancel (numDigits_pos hb num)]
      exact lt_pow_numDigits hb num
    have hpos : 0 < num / base ^ (numDigits base num - 1) :=
      Nat.div_pos (pow_numDigits_le hb h0) (by positivity)
    rw [Nat.mod_eq_of_lt hlt] at h
    exact hpos.ne' (digit_eq_zero _ (by omega) h)
  nul := Function.update_self _ _ _
  behind i hi := by rw [written, Function.update_of_ne hi.ne', fillLoop_eq, if_neg (by omega)]

/-- **`itoa` writes numerals.** For a 64-bit number and a base from 2 to 36 both loops end, and
what is written is a numeral of the number without a needless zero in front, then the
terminator, and nothing else. From base 10 on that is at most 21 bytes. -/
theorem itoa_encodes (num : UInt64) (base : ℕ) (h2 : 2 ≤ base) (h36 : base ≤ 36)
    (out : ℕ → UInt8) :
    ∃ digits out', (∀ fuel ≥ 64, getdigits fuel num.toNat base = some digits ∧
        itoa fuel num.toNat out base = some (digits, out')) ∧
      Encoded base num.toNat digits out out' ∧ (10 ≤ base → digits + 1 ≤ 21) := by
  refine ⟨numDigits base num.toNat, written base num.toNat out, fun fuel hfuel => ?_,
    encoded_written h2 h36 num.toNat out, fun h10 => ?_⟩
  · have hlt : num.toNat < 2 ^ fuel :=
      lt_of_lt_of_le num.toNat_lt (Nat.pow_le_pow_right (by decide) hfuel)
    exact ⟨getdigits_eq h2 hlt, itoa_eq h2 hlt out⟩
  · exact Nat.succ_le_succ (numDigits_le h10 num.toNat_lt)

theorem itoa_encodes_max :
    ∃ digits out', (∀ fuel ≥ 64, getdigits fuel (0 - 1 : UInt64).toNat 10 = some digits ∧
        itoa fuel (0 - 1 : UInt64).toNat (fun _ => 7) 10 = some (digits, out')) ∧
      Encoded 10 (0 - 1 : UInt64).toNat digits (fun _ => 7) out' ∧ (10 ≤ 10 → digits + 1 ≤ 21) :=
  itoa_encodes (0 - 1) 10 (by decide) (by decide) fun _ => 7

end FlameOS.Itoa
