import FlameOS.FileSystem

/-!
The path that is given to `fopen`: which ones get past the checks, and where the stores go that
the two loops over it make.

A path is counted and its array filled before it is checked. So the stores of a path that is
rejected count as well.
-/

namespace FlameOS.OpenPath

open FlameOS.PageTable FlameOS.MapRun FlameOS.HeapTable FlameOS.FatName FlameOS.FileSystem

def LETTERS : ℤ := 26

/-! ### The grammar -/

/-- A path begins with the symbol of the core, the letter of a volume, and a slash. -/
structure InGrammar (path : List UInt8) : Prop where
  core : path[0]? = some 0x7C
  letter : ∃ c, path[1]? = some c ∧ 0x41 ≤ c ∧ c ≤ 0x5A
  slash : path[2]? = some 0x2F

/-- The letter of a path that is right but for it is before 'A', or so far behind 'Z' that the
difference to 'A' is negative as a `char`. -/
structure BelowLetters (path : List UInt8) : Prop where
  core : path[0]? = some 0x7C
  letter : ∃ c, path[1]? = some c ∧ (c < 0x41 ∨ 0xC1 ≤ c)
  slash : path[2]? = some 0x2F

/-- The index with which `fopen` gets past its checks. -/
def accepts (path : List UInt8) : Option UInt8 :=
  if dirs path = 0 then none else (checkVolume path).map Prod.fst

lemma letter_cases (c : UInt8) :
    ¬ (c - 0x41).toInt8 ≥ 26 ↔ (0x41 ≤ c ∧ c ≤ 0x5A) ∨ (c < 0x41 ∨ 0xC1 ≤ c) := by
  have hall : ∀ n : Fin 256, ¬ (UInt8.ofFin n - 0x41).toInt8 ≥ 26 ↔
      (0x41 ≤ UInt8.ofFin n ∧ UInt8.ofFin n ≤ 0x5A) ∨
        (UInt8.ofFin n < 0x41 ∨ 0xC1 ≤ UInt8.ofFin n) := by decide +kernel
  exact hall c.toFin

lemma letter_index (c : UInt8) :
    (0 ≤ (c - 0x41).toInt8.toInt ∧ (c - 0x41).toInt8.toInt < LETTERS) ↔ 0x41 ≤ c ∧ c ≤ 0x5A := by
  have hall : ∀ n : Fin 256, (0 ≤ (UInt8.ofFin n - 0x41).toInt8.toInt ∧
      (UInt8.ofFin n - 0x41).toInt8.toInt < LETTERS) ↔
        0x41 ≤ UInt8.ofFin n ∧ UInt8.ofFin n ≤ 0x5A := by decide +kernel
  exact hall c.toFin

/-- What the checks let pass; the index is made of the second byte. -/
lemma checkVolume_eq_some_iff {path : List UInt8} {volume : UInt8} {rest : List UInt8} :
    checkVolume path = some (volume, rest) ↔
      ∃ c, path = 0x7C :: c :: 0x2F :: rest ∧ ¬ (c - 0x41).toInt8 ≥ 26 ∧ volume = c - 0x41 := by
  constructor
  · intro h
    rcases path with _ | ⟨c₀, _ | ⟨c₁, _ | ⟨c₂, path⟩⟩⟩
    · cases h
    · cases h
    · cases h
    rw [checkVolume] at h
    split at h
    · cases h
    rename_i h₀
    split at h
    · cases h
    rename_i h₁
    split at h
    · cases h
    rename_i h₂
    cases h
    rw [not_not] at h₀ h₂
    exact ⟨c₁, by rw [h₀, h₂], h₁, rfl⟩
  · rintro ⟨c, rfl, hc, rfl⟩
    rw [checkVolume, if_neg (not_not.mpr rfl), if_neg hc, if_neg (not_not.mpr rfl)]

lemma path_eq {path : List UInt8} {c₀ c₁ c₂ : UInt8} (h₀ : path[0]? = some c₀)
    (h₁ : path[1]? = some c₁) (h₂ : path[2]? = some c₂) :
    path = c₀ :: c₁ :: c₂ :: path.drop 3 := by
  rcases path with _ | ⟨d₀, _ | ⟨d₁, _ | ⟨d₂, path⟩⟩⟩
  · cases h₀
  · cases h₁
  · cases h₂
  · cases h₀
    cases h₁
    cases h₂
    rfl

lemma checkVolume_isSome (path : List UInt8) :
    (checkVolume path).isSome = true ↔ InGrammar path ∨ BelowLetters path := by
  constructor
  · intro h
    obtain ⟨⟨volume, rest⟩, h⟩ := Option.isSome_iff_exists.mp h
    obtain ⟨c, rfl, hc, -⟩ := checkVolume_eq_some_iff.mp h
    rcases (letter_cases c).mp hc with hin | hout
    · exact Or.inl ⟨rfl, ⟨c, rfl, hin⟩, rfl⟩
    · exact Or.inr ⟨rfl, ⟨c, rfl, hout⟩, rfl⟩
  · have hsome : ∀ c : UInt8, path[0]? = some 0x7C → path[1]? = some c → path[2]? = some 0x2F →
        ¬ (c - 0x41).toInt8 ≥ 26 → (checkVolume path).isSome = true := fun c h₀ h₁ h₂ hc =>
      Option.isSome_iff_exists.mpr
        ⟨_, checkVolume_eq_some_iff.mpr ⟨c, path_eq h₀ h₁ h₂, hc, rfl⟩⟩
    rintro (⟨h₀, ⟨c, h₁, hin⟩, h₂⟩ | ⟨h₀, ⟨c, h₁, hout⟩, h₂⟩)
    · exact hsome c h₀ h₁ h₂ ((letter_cases c).mpr (Or.inl hin))
    · exact hsome c h₀ h₁ h₂ ((letter_cases c).mpr (Or.inr hout))

lemma checkVolume_index {path : List UInt8} {volume : UInt8} {rest : List UInt8}
    (h : checkVolume path = some (volume, rest)) :
    ∃ c, path = 0x7C :: c :: 0x2F :: rest ∧ volume = c - 0x41 := by
  obtain ⟨c, hpath, -, hvolume⟩ := checkVolume_eq_some_iff.mp h
  exact ⟨c, hpath, hvolume⟩

lemma InGrammar.not_below {path : List UInt8} (h : InGrammar path) : ¬ BelowLetters path := by
  obtain ⟨c, hc, hlo, hhi⟩ := h.letter
  rintro ⟨-, ⟨c', hc', hout⟩, -⟩
  cases hc.symm.trans hc'
  rw [UInt8.le_iff_toNat_le] at hlo hhi
  rw [UInt8.lt_iff_toNat_lt, UInt8.le_iff_toNat_le] at hout
  have h41 : (0x41 : UInt8).toNat = 0x41 := rfl
  have h5a : (0x5A : UInt8).toNat = 0x5A := rfl
  have hc1 : (0xC1 : UInt8).toNat = 0xC1 := rfl
  omega

/-- **The grammar of paths.** `fopen` gets past its checks for the paths of the grammar only, and
then with the index of a letter, exactly if the path is not one whose letter is below the
letters as a `char`, or has so many slashes that none are counted. -/
theorem accepts_grammar_iff (path : List UInt8) :
    (((accepts path).isSome = true ↔ InGrammar path) ∧
      ∀ volume, accepts path = some volume →
        0 ≤ volume.toInt8.toInt ∧ volume.toInt8.toInt < LETTERS) ↔
    ((BelowLetters path → dirs path = 0) ∧ (InGrammar path → dirs path ≠ 0)) := by
  have hcheck := checkVolume_isSome path
  by_cases hd : dirs path = 0
  · have hnone : accepts path = none := if_pos hd
    rw [hnone]
    constructor
    · rintro ⟨hiff, -⟩
      exact ⟨fun _ => hd, fun hin => by cases hiff.mpr hin⟩
    · rintro ⟨-, hgram⟩
      refine ⟨⟨fun h => ?_, fun hin => absurd hd (hgram hin)⟩, fun volume h => ?_⟩
      · cases h
      · cases h
  · have hsome : accepts path = (checkVolume path).map Prod.fst := if_neg hd
    rw [hsome, Option.isSome_map]
    constructor
    · rintro ⟨hiff, -⟩
      refine ⟨fun hbelow => ?_, fun _ => hd⟩
      exact absurd hbelow (hiff.mp (hcheck.mpr (Or.inr hbelow))).not_below
    · rintro ⟨hbelow, -⟩
      have hin : (checkVolume path).isSome = true → InGrammar path := fun h =>
        (hcheck.mp h).resolve_right fun hb => hd (hbelow hb)
      refine ⟨⟨hin, fun h => hcheck.mpr (Or.inl h)⟩, fun volume hvol => ?_⟩
      obtain ⟨⟨v, rest⟩, hv, rfl⟩ := Option.map_eq_some_iff.mp hvol
      obtain ⟨c, rfl, rfl⟩ := checkVolume_index hv
      obtain ⟨c', hc', hletter⟩ := (hin (by rw [hv]; rfl)).letter
      cases hc'
      exact (letter_index _).mpr hletter

/-- The index for "|0/a" is -17. -/
theorem not_accepts_grammar :
    accepts [0x7C, 0x30, 0x2F, 0x61] = some 0xEF ∧ (0xEF : UInt8).toInt8.toInt = -17 ∧
      (0x30 : UInt8) < 0x41 := by
  decide

/-! ### The stores -/

/-- The stores that a call of `fopen` makes through `fpath`, if `ptrs` are its buffers. -/
def pathStores (path : List UInt8) (ptrs : List ℕ) : List Store :=
  if dirs path = 0 then []
  else
    fillArray 0 ptrs ++
      match checkVolume path with
      | none => []
      | some (_, rest) => splitPath rest 0 0

/-- The store is in the array of the path, and in the buffer of its component. -/
def Within (path : List UInt8) : Store → Prop
  | .slot index _ => index.toNat ≤ path.count 0x2F
  | .char _ i _ => i.toNat < FILENAME_LENGTH

/-- The components fit into buffers, of which the first has `n` bytes in it. The last component
is not terminated. -/
def Fits : ℕ → List (List UInt8) → Prop
  | _, [] => True
  | n, [c] => n + c.length ≤ FILENAME_LENGTH
  | n, c :: d :: cs => n + c.length < FILENAME_LENGTH ∧ Fits 0 (d :: cs)

lemma fits_nil_cons {n : ℕ} {cs : List (List UInt8)} (hcs : cs ≠ []) :
    Fits n ([] :: cs) ↔ n < FILENAME_LENGTH ∧ Fits 0 cs := by
  rcases cs with _ | ⟨c, cs⟩
  · exact absurd rfl hcs
  · rfl

lemma fits_cons_cons (n : ℕ) (b : UInt8) (c : List UInt8) (cs : List (List UInt8)) :
    Fits n ((b :: c) :: cs) ↔ Fits (n + 1) (c :: cs) := by
  rcases cs with _ | ⟨d, cs⟩
  · rw [Fits, Fits, List.length_cons]
    omega
  · rw [Fits, Fits, List.length_cons]
    refine and_congr_left fun _ => ?_
    omega

lemma not_fits_full (b : UInt8) (c : List UInt8) (cs : List (List UInt8)) :
    ¬ Fits FILENAME_LENGTH ((b :: c) :: cs) := by
  rw [fits_cons_cons]
  rcases cs with _ | ⟨d, cs⟩
  · rw [Fits]
    omega
  · rw [Fits]
    omega

/-- A counter of the loops goes up by one as long as it does not wrap. -/
lemma toNat_add_one {i : UInt32} (hlt : i.toNat + 1 < 2 ^ 32) : (i + 1).toNat = i.toNat + 1 := by
  rw [UInt32.toNat_add]
  exact Nat.mod_eq_of_lt hlt

/-- The characters go where they should as long as the components fit. -/
lemma splitPath_chars {path rest : List UInt8} {j i : UInt32} (hi : i.toNat ≤ FILENAME_LENGTH)
    (hslots : rest.count 0x2F + j.toNat + 1 ≤ path.count 0x2F) :
    (∀ st ∈ splitPath rest j i, Within path st) ↔ Fits i.toNat (rest.splitOn 0x2F) := by
  induction rest generalizing j i with
  | nil =>
    rw [splitPath, List.splitOn_nil, Fits]
    refine ⟨fun _ => hi, fun _ st hst => ?_⟩
    obtain rfl := List.mem_singleton.mp hst
    rw [List.count_nil] at hslots
    change (j + 1).toNat ≤ _
    rw [UInt32.toNat_add]
    exact (Nat.mod_le _ _).trans (by simpa using hslots)
  | cons b rest ih =>
    rw [splitPath, List.splitOn_cons_eq_if_modifyHead]
    by_cases hb : b = 0x2F
    · subst hb
      rw [if_pos rfl, if_pos (by simp), fits_nil_cons (List.splitOn_ne_nil _ _),
        List.forall_mem_cons]
      rw [List.count_cons_self] at hslots
      have hj : (j + 1).toNat ≤ j.toNat + 1 := by
        rw [UInt32.toNat_add]
        exact Nat.mod_le _ _
      have hrest := @ih (j + 1) 0 (Nat.zero_le _) (by omega)
      exact and_congr Iff.rfl hrest
    · rw [if_neg hb, if_neg (by simpa using hb), List.forall_mem_cons]
      rw [List.count_cons_of_ne hb] at hslots
      obtain ⟨c, cs, hsplit⟩ := List.exists_cons_of_ne_nil (List.splitOn_ne_nil 0x2F rest)
      rw [hsplit, List.modifyHead_cons]
      rcases Nat.lt_or_eq_of_le hi with hlt | hfull
      · have hi1 : (i + 1).toNat = i.toNat + 1 := by
          unfold FILENAME_LENGTH at hlt
          exact toNat_add_one (by omega)
        have hrest := @ih j (i + 1) (by omega) hslots
        rw [hrest, hsplit, hi1, fits_cons_cons]
        exact and_iff_right hlt
      · rw [hfull]
        refine iff_of_false ?_ (not_fits_full b c cs)
        rintro ⟨hlt, -⟩
        exact absurd hfull (Nat.ne_of_lt hlt)

/-- The pointers go where they should, but for the null pointer behind them. -/
lemma fillArray_slots {path : List UInt8} {ptrs : List ℕ} {i : UInt32}
    (hlen : i.toNat + ptrs.length < 2 ^ 32) (hle : i.toNat + ptrs.length ≤ path.count 0x2F) :
    (∀ st ∈ fillArray i ptrs, Within path st) ↔
      (i.toNat + ptrs.length + 1) % 2 ^ 32 ≤ path.count 0x2F := by
  induction ptrs generalizing i with
  | nil =>
    rw [fillArray, List.length_nil, Nat.add_zero, List.forall_mem_singleton]
    change (i + 1).toNat ≤ _ ↔ _
    rw [UInt32.toNat_add]
    exact Iff.rfl
  | cons ptr ptrs ih =>
    rw [List.length_cons] at hlen hle
    rw [fillArray, List.forall_mem_cons]
    have hi1 : (i + 1).toNat = i.toNat + 1 := toNat_add_one (by omega)
    have hrest := @ih (i + 1) (by omega) (by omega)
    rw [hrest, hi1, List.length_cons]
    have hfirst : Within path (.slot i ptr) := by
      change i.toNat ≤ _
      omega
    rw [and_iff_right hfirst]
    have hsum : i.toNat + 1 + ptrs.length + 1 = i.toNat + (ptrs.length + 1) + 1 := by omega
    rw [hsum]

lemma toNat_dirs (path : List UInt8) : (dirs path).toNat = path.count 0x2F % 2 ^ 32 := rfl

lemma length_mallocs (M : Machine) (sizes : List ℕ) (h : Heap.State) :
    (mallocs M sizes h).1.length = sizes.length := by
  induction sizes generalizing h with
  | nil => rfl
  | cons size sizes ih => rw [mallocs, List.length_cons, ih, List.length_cons]

lemma length_buffers (M : Machine) (path : List UInt8) (h : Heap.State) :
    (mallocs M (pathSizes path) h).1.tail.length = (dirs path).toNat := by
  rw [List.length_tail, length_mallocs, pathSizes, List.length_cons, List.length_replicate,
    Nat.add_sub_cancel]

/-- **Buffers of a path.** All stores of `fopen` through `fpath` are in the array and in the
buffers exactly if it counts no slash, or if the path has so many slashes that the store behind
the array wraps around to its start, and components that fit unless it is rejected. -/
theorem pathStores_within_iff (M : Machine) (path : List UInt8) (h : Heap.State) :
    (∀ st ∈ pathStores path (mallocs M (pathSizes path) h).1.tail, Within path st) ↔
    dirs path = 0 ∨ (2 ^ 32 - 1 ≤ path.count 0x2F ∧
      ∀ volume rest, checkVolume path = some (volume, rest) → Fits 0 (rest.splitOn 0x2F)) := by
  by_cases hd : dirs path = 0
  · rw [pathStores, if_pos hd]
    exact iff_of_true (fun _ h => absurd h List.not_mem_nil) (Or.inl hd)
  have hptrs := length_buffers M path h
  generalize (mallocs M (pathSizes path) h).1.tail = ptrs at hptrs ⊢
  have hdirs := toNat_dirs path
  have hpos : (dirs path).toNat ≠ 0 := fun h => hd (UInt32.toNat_inj.mp h)
  have hfill := @fillArray_slots path ptrs 0 (by
    rw [hptrs]
    simpa using (dirs path).toNat_lt) (by
    rw [hptrs, hdirs]
    simpa using Nat.mod_le _ _)
  have hwrap : ((0 : UInt32).toNat + ptrs.length + 1) % 2 ^ 32 ≤ path.count 0x2F ↔
      2 ^ 32 - 1 ≤ path.count 0x2F := by
    rw [hptrs, hdirs]
    rw [hdirs] at hpos
    simp only [UInt32.toNat_zero]
    omega
  rw [pathStores, if_neg hd, List.forall_mem_append, hfill, hwrap, or_iff_right hd]
  refine and_congr_right fun _ => ?_
  rcases hgood : checkVolume path with _ | ⟨volume, rest⟩
  · exact iff_of_true (fun _ h => absurd h List.not_mem_nil) fun _ _ h => by cases h
  · obtain ⟨c, rfl, rfl⟩ := checkVolume_index hgood
    have hcount : rest.count 0x2F + 1 ≤ (0x7C :: c :: 0x2F :: rest).count 0x2F := by
      rw [List.count_cons_of_ne (by decide), List.count_cons, List.count_cons_self]
      omega
    have hchars := @splitPath_chars (0x7C :: c :: 0x2F :: rest) rest 0 0 (Nat.zero_le _)
      (by simpa using hcount)
    refine hchars.trans ⟨fun h volume' rest' he => ?_, fun h => h _ _ rfl⟩
    cases he
    exact h

/-- For "|A/a" there is a null pointer stored behind the array of two, and for a name of 257
characters a character behind the buffer of 256. -/
theorem not_pathStores_within :
    .slot 2 0 ∈ pathStores [0x7C, 0x41, 0x2F, 0x61]
        (mallocs threeFrames (pathSizes [0x7C, 0x41, 0x2F, 0x61]) ⟨initMalloc, zeroed⟩).1.tail ∧
      ([0x7C, 0x41, 0x2F, 0x61] : List UInt8).count 0x2F = 1 ∧
      .char 0 256 0x61 ∈ splitPath (List.replicate 257 0x61) 0 0 := by
  decide +kernel

end FlameOS.OpenPath
