import FlameOS.FatName
import FlameOS.PathMemory

/-!
`memcpy`, `strcpy` and `strcmp` of the C library, on the whole memory.

The copies go byte by byte from the front, whether the blocks meet or not: into a block that
begins inside the source `memcpy` repeats the bytes before it, and `strcpy` runs after a
terminator that it has overwritten. On strings `strcmp` is the comparison of the models of the
file system, and its results are those of a linear order.
-/

namespace FlameOS.CString

open FlameOS.ByteMem FlameOS.PathMemory

def memcpyLoop (m : Mem) (chardest charsrc : ℕ) : ℕ → Mem
  | 0 => m
  | left + 1 =>
    memcpyLoop (Function.update m chardest (m charsrc)) (chardest + 1) (charsrc + 1) left

/-- `memcpy` returns where it was told to copy to. -/
def memcpy (m : Mem) (dest src size : ℕ) : Mem × ℕ := (memcpyLoop m dest src size, dest)

/-- `strcpy`, with a bound on the characters. It returns where the terminator is. -/
def strcpy (m : Mem) (dest src : ℕ) : ℕ → Option (Mem × ℕ)
  | 0 => none
  | fuel + 1 =>
    if m src ≠ 0 then strcpy (Function.update m dest (m src)) (dest + 1) (src + 1) fuel
    else some (Function.update m dest (m src), dest)

/-- `strcmp`, with a bound on the characters; `char` is signed. -/
def strcmp (m : Mem) (str1 str2 : ℕ) : ℕ → Option ℤ
  | 0 => none
  | fuel + 1 =>
    if m str1 = m str2 then
      if m str1 = 0 then some 0 else strcmp m (str1 + 1) (str2 + 1) fuel
    else if (m str1).toInt8 > (m str2).toInt8 then some 1 else some (-1)

variable {m : Mem} {dest src : ℕ} {s t : List UInt8}

/-! ### Copies of blocks -/

/-- Where the byte comes from that `memcpy` puts `k` bytes behind `dest`. -/
def origin (dest src k : ℕ) : ℕ := src + if src < dest then k % (dest - src) else k

lemma origin_zero (dest src : ℕ) : origin dest src 0 = src := by
  unfold origin
  split <;> simp

/-- The first byte of the copy stands for the byte that it came from. -/
lemma update_origin (m : Mem) (dest src k : ℕ) :
    Function.update m dest (m src) (origin (dest + 1) (src + 1) k) =
      m (origin dest src (k + 1)) := by
  unfold origin
  by_cases h : src < dest
  · rw [if_pos (Nat.succ_lt_succ h), if_pos h, Nat.add_sub_add_right]
    have hd : 0 < dest - src := Nat.sub_pos_of_lt h
    have hk := Nat.mod_lt k hd
    by_cases hlast : k % (dest - src) + 1 = dest - src
    · -- the window ends at the byte just stored
      have hmod : (k + 1) % (dest - src) = 0 := by
        rw [Nat.add_mod_eq_add_mod_right 1 (Nat.mod_mod k _).symm, hlast, Nat.mod_self]
      have haddr : src + 1 + k % (dest - src) = dest := by omega
      rw [haddr, Function.update_self, hmod, Nat.add_zero]
    · have hmod : (k + 1) % (dest - src) = k % (dest - src) + 1 := by
        rw [Nat.add_mod_eq_add_mod_right 1 (Nat.mod_mod k _).symm, Nat.mod_eq_of_lt (by omega)]
      have haddr : src + 1 + k % (dest - src) = src + (k % (dest - src) + 1) := by omega
      rw [Function.update_of_ne (by omega), hmod, haddr]
  · rw [if_neg (by omega), if_neg h, Function.update_of_ne (by omega)]
    congr 1
    omega

/-- **Copies that overlap.** `memcpy` is right for every block that does not begin inside the
source behind its first byte, and otherwise repeats the bytes before the block. -/
theorem memcpy_overlap (m : Mem) (dest src size x : ℕ) : (memcpy m dest src size).1 x =
    if dest ≤ x ∧ x < dest + size then
      m (src + if src < dest then (x - dest) % (dest - src) else x - dest)
    else m x := by
  change memcpyLoop m dest src size x =
    if dest ≤ x ∧ x < dest + size then m (origin dest src (x - dest)) else m x
  induction size generalizing m dest src with
  | zero => rw [memcpyLoop, if_neg (by omega)]
  | succ size ih =>
    rw [memcpyLoop, ih]
    by_cases hx : x = dest
    · rw [if_neg (by omega), if_pos (by omega), hx, Function.update_self, Nat.sub_self,
        origin_zero]
    · by_cases hin : dest + 1 ≤ x ∧ x < dest + 1 + size
      · have hsub : x - (dest + 1) + 1 = x - dest := by omega
        rw [if_pos hin, if_pos (by omega), update_origin, hsub]
      · rw [if_neg hin, if_neg (by omega), Function.update_of_ne hx]

/-! ### Copies of strings -/

lemma isString_nil : IsString m src [] ↔ m src = 0 := by
  constructor
  · exact fun h => h 0 le_rfl
  · intro h i hi
    rw [Nat.le_zero.mp hi]
    exact h

lemma isString_cons {c : UInt8} :
    IsString m src (c :: s) ↔ m src = c ∧ IsString m (src + 1) s := by
  constructor
  · intro h
    refine ⟨h 0 (Nat.zero_le _), fun i hi => ?_⟩
    have hstep := h (i + 1) (Nat.succ_le_succ hi)
    rwa [← Nat.add_assoc, Nat.add_right_comm] at hstep
  · rintro ⟨hc, h⟩ i hi
    cases i with
    | zero => exact hc
    | succ i =>
      have hstep := h i (Nat.le_of_succ_le_succ hi)
      rw [Nat.add_right_comm, Nat.add_assoc] at hstep
      exact hstep

lemma isString_update (h : IsString m src s) (b : UInt8)
    (hout : dest < src ∨ src + s.length < dest) : IsString (Function.update m dest b) src s := by
  intro i hi
  rw [Function.update_of_ne (by omega)]
  exact h i hi

lemma update_eq_put (m : Mem) (dest : ℕ) (b : UInt8) :
    Function.update m dest b = put m dest [b] := by
  funext x
  by_cases hx : x = dest
  · rw [hx, Function.update_self, put_of_mem le_rfl (Nat.lt_succ_self _), Nat.sub_self]
    rfl
  · rw [Function.update_of_ne hx, put_of_notMem]
    rw [List.length_singleton]
    omega

/-- A copy that returns is one of a string, and it does not begin inside it. -/
lemma strcpy_eq_some {fuel : ℕ} {r : Mem × ℕ} (h : strcpy m dest src fuel = some r) :
    ∃ s, IsString m src s ∧ 0 ∉ s ∧ ¬ (src < dest ∧ dest ≤ src + s.length) ∧ s.length < fuel := by
  induction fuel generalizing m dest src with
  | zero => cases h
  | succ fuel ih =>
    rw [strcpy] at h
    split at h
    · rename_i hne
      obtain ⟨s, hs, hzero, hout, hfuel⟩ := ih h
      -- a character just put over the terminator would have ended the string there
      have hend : dest ≠ src + 1 + s.length := by
        intro hd
        have hlast := hs s.length le_rfl
        rw [← hd, Function.update_self, List.getD_eq_default _ _ le_rfl] at hlast
        exact hne hlast
      refine ⟨m src :: s, isString_cons.mpr ⟨rfl, fun i hi => ?_⟩, ?_, ?_, Nat.succ_lt_succ hfuel⟩
      · have hget := hs i hi
        rwa [Function.update_of_ne (by omega)] at hget
      · rw [List.mem_cons, not_or]
        exact ⟨hne.symm, hzero⟩
      · rw [List.length_cons]
        omega
    · rename_i hz
      refine ⟨[], isString_nil.mpr (not_not.mp hz), List.not_mem_nil, ?_, Nat.succ_pos fuel⟩
      rw [List.length_nil]
      omega

/-- The copy of a string to where it does not reach its own end. -/
lemma strcpy_of_isString (hs : IsString m src s) (hzero : 0 ∉ s)
    (hout : ¬ (src < dest ∧ dest ≤ src + s.length)) {fuel : ℕ} (hfuel : s.length < fuel) :
    strcpy m dest src fuel = some (put m dest (s ++ [0]), dest + s.length) := by
  induction s generalizing m dest src fuel with
  | nil =>
    obtain ⟨fuel, rfl⟩ := Nat.exists_eq_add_of_lt hfuel
    rw [strcpy, isString_nil.mp hs, if_neg (not_not.mpr rfl), update_eq_put]
    rfl
  | cons c s ih =>
    obtain ⟨hc, hs'⟩ := isString_cons.mp hs
    rw [List.mem_cons, not_or] at hzero
    rw [List.length_cons] at hout hfuel
    obtain ⟨fuel, rfl⟩ := Nat.exists_eq_add_of_lt (Nat.zero_lt_of_lt hfuel)
    rw [Nat.zero_add, strcpy, if_pos (hc.trans_ne (Ne.symm hzero.1)),
      ih (isString_update hs' _ (by omega)) hzero.2 (by omega) (by omega), hc, update_eq_put]
    have happ := put_append (m := m) (a := dest) (l := [c]) (s ++ [0])
    rw [List.length_singleton] at happ
    rw [happ, List.length_cons, Nat.add_right_comm, Nat.add_assoc]
    rfl

/-- **`strcpy`.** It returns exactly if there is a string and the copy does not begin behind its
first byte inside it, and then it has stored the string and gives the place of the terminator. -/
theorem strcpy_returns_iff (m : Mem) (dest src : ℕ) (r : Mem × ℕ) :
    (∃ fuel, strcpy m dest src fuel = some r) ↔
      ∃ s, IsString m src s ∧ 0 ∉ s ∧ ¬ (src < dest ∧ dest ≤ src + s.length) ∧
        r = (put m dest (s ++ [0]), dest + s.length) := by
  constructor
  · rintro ⟨fuel, h⟩
    obtain ⟨s, hs, hzero, hout, hfuel⟩ := strcpy_eq_some h
    have hcopy := strcpy_of_isString hs hzero hout hfuel
    exact ⟨s, hs, hzero, hout, Option.some.inj (h.symm.trans hcopy)⟩
  · rintro ⟨s, hs, hzero, hout, rfl⟩
    exact ⟨s.length + 1, strcpy_of_isString hs hzero hout (Nat.lt_succ_self _)⟩

/-! ### Comparisons -/

/-- What `strcmp` compares: the characters as signed numbers, and the terminator. -/
def key (s : List UInt8) : List ℤ := (s ++ [0]).map fun c : UInt8 => c.toInt8.toInt

/-- The sign of a comparison in lexicographic order. -/
def sign (k l : List ℤ) : ℤ := if k = l then 0 else if l < k then 1 else -1

@[simp] lemma key_nil : key [] = [0] := rfl

@[simp] lemma key_cons (c : UInt8) (s : List UInt8) : key (c :: s) = c.toInt8.toInt :: key s := rfl

lemma toInt_injective : Function.Injective fun c : UInt8 => c.toInt8.toInt := by
  intro a b h
  have hsigned : a.toInt8 = b.toInt8 := Int8.toInt_inj.mp h
  rw [← UInt8.toUInt8_toInt8 a, hsigned, UInt8.toUInt8_toInt8]

lemma sign_cons_self (x : ℤ) (k l : List ℤ) : sign (x :: k) (x :: l) = sign k l := by
  have hlt : x :: l < x :: k ↔ l < k := List.cons_lt_cons_self
  have heq : x :: k = x :: l ↔ k = l := List.cons_inj_right x
  unfold sign
  rw [if_congr heq rfl (if_congr hlt rfl rfl)]

lemma sign_cons_of_ne {x y : ℤ} (h : x ≠ y) (k l : List ℤ) :
    sign (x :: k) (y :: l) = if y < x then 1 else -1 := by
  have hlt : y :: l < x :: k ↔ y < x := by
    rw [List.cons_lt_cons_iff]
    exact or_iff_left fun hc => h hc.1.symm
  have hne : x :: k ≠ y :: l := fun hc => h (List.cons.inj hc).1
  unfold sign
  rw [if_neg hne, if_congr hlt rfl rfl]

lemma toInt8_lt (a b : UInt8) : a.toInt8 < b.toInt8 ↔ a.toInt8.toInt < b.toInt8.toInt :=
  Int8.lt_iff_toInt_lt

/-- The comparison of the file system is one of the keys. -/
lemma strcmp_eq_sign (hs : 0 ∉ s) (ht : 0 ∉ t) : FatName.strcmp s t = sign (key s) (key t) := by
  induction s generalizing t with
  | nil =>
    cases t with
    | nil => rfl
    | cons b t =>
      rw [List.mem_cons, not_or] at ht
      have hne : (0 : UInt8).toInt8.toInt ≠ b.toInt8.toInt := toInt_injective.ne ht.1
      rw [FatName.strcmp, key_nil, key_cons]
      refine Eq.trans ?_ (sign_cons_of_ne hne _ _).symm
      exact if_congr (toInt8_lt b 0) rfl rfl
  | cons a s ih =>
    rw [List.mem_cons, not_or] at hs
    cases t with
    | nil =>
      have hne : a.toInt8.toInt ≠ (0 : UInt8).toInt8.toInt := toInt_injective.ne (Ne.symm hs.1)
      rw [FatName.strcmp, key_nil, key_cons]
      refine Eq.trans ?_ (sign_cons_of_ne hne _ _).symm
      exact if_congr (toInt8_lt 0 a) rfl rfl
    | cons b t =>
      rw [List.mem_cons, not_or] at ht
      rw [FatName.strcmp, key_cons, key_cons]
      by_cases hab : a = b
      · rw [if_pos hab, ih hs.2 ht.2, hab, sign_cons_self]
      · rw [if_neg hab, sign_cons_of_ne (toInt_injective.ne hab)]
        exact if_congr (toInt8_lt b a) rfl rfl

/-- The loop on strings in the memory is the comparison of their characters. -/
lemma strcmp_of_isString {str1 str2 : ℕ} (hs : IsString m str1 s) (ht : IsString m str2 t)
    (hs0 : 0 ∉ s) (ht0 : 0 ∉ t) {fuel : ℕ} (hfuel : s.length < fuel) :
    strcmp m str1 str2 fuel = some (FatName.strcmp s t) := by
  induction s generalizing str1 str2 t fuel with
  | nil =>
    obtain ⟨fuel, rfl⟩ := Nat.exists_eq_add_of_lt hfuel
    rw [strcmp, isString_nil.mp hs]
    cases t with
    | nil =>
      rw [isString_nil.mp ht, if_pos rfl, if_pos rfl]
      rfl
    | cons b t =>
      rw [List.mem_cons, not_or] at ht0
      rw [(isString_cons.mp ht).1, if_neg ht0.1, FatName.strcmp]
      exact (apply_ite some _ _ _).symm
  | cons a s ih =>
    obtain ⟨fuel, rfl⟩ := Nat.exists_eq_add_of_lt (Nat.zero_lt_of_lt hfuel)
    obtain ⟨ha, hs'⟩ := isString_cons.mp hs
    rw [List.mem_cons, not_or] at hs0
    rw [List.length_cons] at hfuel
    rw [Nat.zero_add, strcmp, ha]
    cases t with
    | nil =>
      rw [isString_nil.mp ht, if_neg (Ne.symm hs0.1), FatName.strcmp]
      exact (apply_ite some _ _ _).symm
    | cons b t =>
      obtain ⟨hb, ht'⟩ := isString_cons.mp ht
      rw [List.mem_cons, not_or] at ht0
      rw [hb, FatName.strcmp]
      by_cases hab : a = b
      · rw [if_pos hab, if_neg (Ne.symm hs0.1), if_pos hab]
        exact ih hs' ht' hs0.2 ht0.2 (by omega)
      · rw [if_neg hab, if_neg hab]
        exact (apply_ite some _ _ _).symm

/-- **`strcmp`.** For strings anywhere in the memory it is the comparison of the models of the
file system, and that gives the places of the strings in the lexicographic order of their
signed characters, a linear order in which two strings are the same only if they are equal. -/
theorem strcmp_order {str1 str2 : ℕ} (hs : IsString m str1 s) (ht : IsString m str2 t)
    (hs0 : 0 ∉ s) (ht0 : 0 ∉ t) {fuel : ℕ} (hfuel : s.length < fuel) :
    strcmp m str1 str2 fuel = some (FatName.strcmp s t) ∧
      (FatName.strcmp s t = 0 ↔ s = t) ∧ (FatName.strcmp s t = 1 ↔ key t < key s) ∧
      (FatName.strcmp s t = -1 ↔ key s < key t) := by
  refine ⟨strcmp_of_isString hs ht hs0 ht0 hfuel, FatName.strcmp_eq_zero, ?_⟩
  rw [strcmp_eq_sign hs0 ht0]
  unfold sign
  by_cases heq : key s = key t
  · simp [heq]
  · rw [if_neg heq]
    rcases lt_or_gt_of_ne heq with hlt | hgt
    · simp [hlt, hlt.asymm]
    · simp [hgt, hgt.asymm]

/-- The strings `ab` and `aé`: the second has a negative character. -/
theorem strcmp_order_example :
    strcmp (put (put (fun _ => 0) 1 [0x61, 0x62]) 8 [0x61, 0xE9]) 1 8 3 =
        some (FatName.strcmp [0x61, 0x62] [0x61, 0xE9]) ∧
      (FatName.strcmp [0x61, 0x62] [0x61, 0xE9] = 0 ↔
        ([0x61, 0x62] : List UInt8) = [0x61, 0xE9]) ∧
      (FatName.strcmp [0x61, 0x62] [0x61, 0xE9] = 1 ↔ key [0x61, 0xE9] < key [0x61, 0x62]) ∧
      (FatName.strcmp [0x61, 0x62] [0x61, 0xE9] = -1 ↔ key [0x61, 0x62] < key [0x61, 0xE9]) :=
  strcmp_order (by unfold IsString; decide) (by unfold IsString; decide) (by decide) (by decide)
    (by decide)

end FlameOS.CString
