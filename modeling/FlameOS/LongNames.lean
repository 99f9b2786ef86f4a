import FlameOS.FatFind

/-!
The long-name records in `filename`: where they are stored, and what they give.

The number of a record says where its characters go, and the terminator goes behind thirteen
characters for every record since the last one. The array has room for nineteen records. Where
there is room, a name that is written as it should be comes out as it was.
-/

namespace FlameOS.LongNames

open FlameOS.Fat FlameOS.FatName FlameOS.FatFind

/-! ### Stores -/

/-- The indices of a copy of `n` bytes to `&filename[k]`. -/
def copied (k : ℤ) (n : ℕ) : List ℤ := (List.range n).map fun i : ℕ => k + i

def pieceStores (e : FATEntry) : List ℤ :=
  let k := ((order e : ℤ) - 1) * 13
  copied k 5 ++ copied (k + 5) 6 ++ copied (k + 11) 2

/-- The loop over `current->name`, which stores the character it stops at as well, and what comes
behind it. -/
def shortStores (e : FATEntry) : List ℤ :=
  let j : ℤ := (shortBase e).length
  copied 0 ((shortBase e).length + 1) ++ [j] ++ copied (j + 1) 3 ++ [j + 4]

/-- The stores of a pass, up to the first copy that leaves the array. -/
def scanStores (comp : Option (List UInt8)) : List FATEntry → Bool → Buffer → ℕ → List ℤ
  | [], _, _, _ => []
  | current :: rest, run, filename, len =>
    if current.attr = LFN then
      pieceStores current ++
        match putPiece filename current with
        | none => []
        | some filename => scanStores comp rest true filename (len + 13)
    else
      (if run then [(counter len : ℤ)] else shortStores current) ++
        match if run then terminate filename len else some (putShort filename current) with
        | none => []
        | some filename =>
          match comp with
          | none => []
          | some comp =>
            if strcmp (cstr filename) comp = 0 then []
            else scanStores (some comp) rest false filename (if run then 0 else len)

def Inside (l : List ℤ) : Prop := ∀ i ∈ l, 0 ≤ i ∧ i < FILENAME_LENGTH

/-- The stores of a round of `find_fat_entry`. -/
def roundStores (v : Volume) (path : List (List UInt8)) (s : Search) : List ℤ :=
  scanStores path[s.depth]? (records s.buffer ((bytesPerCluster v).toNat / 32)) false s.filename
    s.len

/-! ### What the array has room for -/

/-- The array has room for the record. -/
def Placed (e : FATEntry) : Prop := 1 ≤ order e ∧ order e ≤ 19

/-- `filename` for an entry, with some characters counted before its first record. -/
def putNameFrom (filename : Buffer) (len : ℕ) (it : Item) : Option Buffer :=
  if it.long = [] then some (putShort filename it.entry)
  else (it.long.foldlM putPiece filename).bind fun fn => terminate fn (len + 13 * it.long.length)

/-- Up to the entry that is shown as the component, the array has room for every long-name record
and for the terminator behind those of an entry. The characters that are counted before the first
name are those of the records that came last before the pass. -/
def NamesFit (comp : Option (List UInt8)) : List Item → List FATEntry → Buffer → ℕ → Prop
  | [], rest, _, _ => ∀ e ∈ rest, Placed e
  | it :: its, rest, filename, len =>
    (∀ e ∈ it.long, Placed e) ∧
      (it.long ≠ [] → counter (len + 13 * it.long.length) < FILENAME_LENGTH) ∧
      ∀ fn, putNameFrom filename len it = some fn → ∀ c, comp = some c → cstr fn ≠ c →
        NamesFit comp its rest fn (if it.long = [] then len else 0)

def RoundFits (v : Volume) (path : List (List UInt8)) (s : Search) : Prop :=
  let es := records s.buffer ((bytesPerCluster v).toNat / 32)
  NamesFit path[s.depth]? (items [] es) (pending [] es) s.filename s.len

section stores

variable {l l' : List ℤ} {e : FATEntry} {filename fn : Buffer} {comp : Option (List UInt8)}
  {long : List FATEntry}

lemma inside_append : Inside (l ++ l') ↔ Inside l ∧ Inside l' := List.forall_mem_append

lemma inside_nil : Inside [] := fun _ hi => absurd hi List.not_mem_nil

lemma inside_copied {k : ℤ} {n : ℕ} (hn : 0 < n) :
    Inside (copied k n) ↔ 0 ≤ k ∧ k + n ≤ FILENAME_LENGTH := by
  unfold Inside copied
  simp only [List.mem_map, List.mem_range, forall_exists_index, and_imp,
    forall_apply_eq_imp_iff₂]
  constructor
  · intro h
    have hfirst := h 0 hn
    have hlast := h (n - 1) (by omega)
    omega
  · intro h i hi
    omega

lemma inside_singleton {i : ℤ} : Inside [i] ↔ 0 ≤ i ∧ i < FILENAME_LENGTH :=
  List.forall_mem_singleton

/-- The array has room for the records 1 to 19. -/
lemma inside_pieceStores : Inside (pieceStores e) ↔ Placed e := by
  have hlength : (FILENAME_LENGTH : ℤ) = 256 := rfl
  unfold pieceStores Placed
  simp only [inside_append, inside_copied (Nat.succ_pos _), hlength]
  omega

lemma inside_shortStores (e : FATEntry) : Inside (shortStores e) := by
  have hlen := length_shortBase_le e
  have hlength : (FILENAME_LENGTH : ℤ) = 256 := rfl
  unfold shortStores
  simp only [inside_append, inside_copied (Nat.succ_pos _), inside_singleton, hlength]
  omega

/-- The copies of a record stay in the array exactly if they are made. -/
lemma putPiece_eq_none : putPiece filename e = none ↔ ¬ Placed e := by
  unfold putPiece Placed FILENAME_LENGTH
  split
  · refine iff_of_true rfl ?_
    omega
  · refine iff_of_false (fun h => by cases h) ?_
    omega

lemma placed_of_putPiece (h : putPiece filename e = some fn) : Placed e := by
  by_contra hnot
  rw [putPiece_eq_none.mpr hnot] at h
  cases h

lemma foldlM_placed (h : long.foldlM putPiece filename = some fn) : ∀ e ∈ long, Placed e := by
  induction long generalizing filename with
  | nil => exact fun _ he => absurd he List.not_mem_nil
  | cons e long ih =>
    rw [List.foldlM_cons] at h
    rcases hput : putPiece filename e with _ | fn₁
    · rw [hput] at h
      cases h
    · rw [hput] at h
      exact List.forall_mem_cons.mpr ⟨placed_of_putPiece hput, ih h⟩

/-- The records before the first one of a list are looked at in any case. -/
lemma NamesFit.placed {es : List FATEntry} {len : ℕ}
    (h : NamesFit comp (items long es) (pending long es) filename len) : ∀ e ∈ long, Placed e := by
  induction es generalizing long with
  | nil => exact h
  | cons x es ih =>
    rw [items, pending] at h
    split at h
    · exact (List.forall_mem_append.mp (ih h)).1
    · exact h.1

lemma inside_compare_iff {es : List FATEntry} {len : ℕ}
    (ih : ∀ c, Inside (scanStores (some c) es false fn len) ↔
      NamesFit (some c) (items [] es) (pending [] es) fn len) :
    Inside (match comp with
      | none => []
      | some comp =>
        if strcmp (cstr fn) comp = 0 then [] else scanStores (some comp) es false fn len) ↔
      ∀ c, comp = some c → cstr fn ≠ c → NamesFit comp (items [] es) (pending [] es) fn len := by
  rcases comp with _ | comp
  · exact iff_of_true inside_nil fun c hc => by cases hc
  · dsimp only
    by_cases heq : cstr fn = comp
    · rw [if_pos (strcmp_eq_zero.mpr heq)]
      refine iff_of_true inside_nil fun c hc hne => ?_
      cases hc
      exact absurd heq hne
    · rw [if_neg fun h => heq (strcmp_eq_zero.mp h), ih comp]
      exact ⟨fun h _ _ _ => h, fun h => h comp rfl heq⟩

lemma inside_scanStores_iff (h : long.foldlM putPiece filename = some fn) (es : List FATEntry)
    (len : ℕ) :
    Inside (scanStores comp es (decide (long ≠ [])) fn (len + 13 * long.length)) ↔
      NamesFit comp (items long es) (pending long es) filename len := by
  induction es generalizing long filename fn len comp with
  | nil => exact iff_of_true inside_nil (foldlM_placed h)
  | cons e es ih =>
    have hrest : ∀ (fn : Buffer) (len : ℕ) (c : List UInt8),
        Inside (scanStores (some c) es false fn len) ↔
          NamesFit (some c) (items [] es) (pending [] es) fn len := fun fn len c =>
      have hnil : ([] : List FATEntry).foldlM putPiece fn = some fn := rfl
      ih hnil len
    rw [scanStores, items, pending]
    by_cases hattr : e.attr = LFN
    · rw [if_pos hattr, if_pos hattr, if_pos hattr, inside_append, inside_pieceStores]
      have hsnoc := foldlM_putPiece_snoc long e filename
      rw [h, Option.bind_some] at hsnoc
      rcases hput : putPiece fn e with _ | fn₁
      · have hnot := putPiece_eq_none.mp hput
        refine iff_of_false (fun hin => hnot hin.1) fun hfit => hnot ?_
        exact hfit.placed e (List.mem_append_right long List.mem_cons_self)
      · rw [hput] at hsnoc
        have he : Placed e := foldlM_placed hsnoc e (List.mem_append_right long List.mem_cons_self)
        rw [and_iff_right he, ← ih hsnoc]
        simp [Nat.mul_succ, Nat.add_assoc]
    · rw [if_neg hattr, if_neg hattr, if_neg hattr, inside_append, NamesFit]
      by_cases hne : long = []
      · -- a short name
        subst hne
        obtain rfl : filename = fn := Option.some.inj h
        have hname : putNameFrom filename len ⟨[], e⟩ = some (putShort filename e) := rfl
        have hrun : decide (([] : List FATEntry) ≠ []) = false := rfl
        rw [hrun, if_neg Bool.false_ne_true, and_iff_right (inside_shortStores e), hname]
        refine (inside_compare_iff (hrest (putShort filename e) len)).trans ?_
        constructor
        · refine fun hall => ⟨fun x hx => absurd hx List.not_mem_nil, fun h => absurd rfl h, ?_⟩
          rintro fn hfn
          cases hfn
          exact hall
        · exact fun hfit => hfit.2.2 _ rfl
      · -- a long name
        have hrun : decide (long ≠ []) = true := decide_eq_true hne
        have hname : putNameFrom filename len ⟨long, e⟩ =
            terminate fn (len + 13 * long.length) := by
          rw [putNameFrom, if_neg hne, h]
          rfl
        rw [hrun, if_pos rfl, inside_singleton, hname, and_iff_right (foldlM_placed h),
          forall_prop_of_true hne]
        simp only [if_neg hne, if_pos]
        by_cases hlen : counter (len + 13 * long.length) < FILENAME_LENGTH
        · have hterm : terminate fn (len + 13 * long.length) =
              some (Function.update fn (counter (len + 13 * long.length)) 0) := if_pos hlen
          rw [hterm, and_iff_right (by omega), and_iff_right hlen]
          refine (inside_compare_iff (hrest _ 0)).trans ?_
          simp only [Option.some.injEq, forall_eq']
        · refine iff_of_false (fun hin => hlen ?_) fun hfit => hlen hfit.1
          have := hin.1.2
          omega

end stores

lemma inside_roundStores_iff {v : Volume} {path : List (List UInt8)} {s : Search} :
    Inside (roundStores v path s) ↔ RoundFits v path s :=
  have hnil : ([] : List FATEntry).foldlM putPiece s.filename = some s.filename := rfl
  inside_scanStores_iff hnil _ s.len

/-- **Stores into `filename`.** In a run of `find_fat_entry` every store into `filename` stays in
the array exactly if the names of every round fit. -/
theorem storesInside_iff (v : Volume) (path : List (List UInt8)) (gap : ℕ)
    (FATbuffer buffer filename : Buffer) :
    (∀ s, Reaches v path (start v gap FATbuffer buffer filename) s →
        Inside (roundStores v path s)) ↔
      ∀ s, Reaches v path (start v gap FATbuffer buffer filename) s → RoundFits v path s := by
  exact forall_congr' fun s => imp_congr_right fun _ => inside_roundStores_iff

def longestShort : FATEntry :=
  ofBytes (shortRecord (ascii ['A', 'A', 'A', 'A', 'A', 'A', '~', '1', ' ', ' ', ' ']) 0x20 5)

def longest : List UInt8 := List.replicate 255 97

def longestPieces : List FATEntry :=
  ofBytes (longRecord 0x54 0xB4 (List.replicate 8 97)) :: (List.range 19).reverse.map fun i =>
    ofBytes (longRecord (UInt8.ofNat (i + 1)) 0xB4 (List.replicate 13 97))

def longestRecords : List FATEntry := longestPieces ++ [longestShort]

def longestVolume : Volume :=
  setupVolume (fun lba i =>
    if lba = 32 then 0xFF
    else if lba = 32738 then (longestRecords.getD (i / 32) fun _ => 0).byte (i % 32)
    else if lba = 32739 then (longestRecords.getD (16 + i / 32) fun _ => 0).byte (i % 32)
    else 0) 0 (gibibyte 2)

def longestStart : Search := start longestVolume 512 (fun _ => 0) (fun _ => 0) (fun _ => 0)

/-- The last eight characters of a name of 255 go behind the array. -/
theorem not_storesInside : Geometry (gibibyte 2) 0 2 ∧
    (∃ it ∈ items [] (records longestStart.buffer ((bytesPerCluster longestVolume).toNat / 32)),
      Named longest it) ∧
    ¬ ∀ s, Reaches longestVolume [longest] longestStart s →
      Inside (roundStores longestVolume [longest] s) := by
  have hout : ∃ i ∈ roundStores longestVolume [longest] longestStart, ¬ i < FILENAME_LENGTH := by
    decide +kernel
  refine ⟨⟨Or.inl rfl, ⟨1, by decide, by decide⟩, by decide, by decide, by decide, by decide,
    by decide, by decide⟩, by decide +kernel, fun h => ?_⟩
  obtain ⟨i, hi, hnot⟩ := hout
  exact hnot (h longestStart .refl i hi).2

/-! ### What comes out -/

/-- The copies of a long-name record in an array of `size` bytes. -/
def putPieceIn (size : ℕ) (filename : Buffer) (e : FATEntry) : Option Buffer :=
  if order e = 0 ∨ size < order e * 13 then none
  else
    let k := (order e - 1) * 13
    some (store (store (store filename k (wcatomba (wchars e 1 5))) (k + 5)
      (wcatomba (wchars e 14 6))) (k + 11) (wcatomba (wchars e 28 2)))

def terminateIn (size : ℕ) (filename : Buffer) (len : ℕ) : Option Buffer :=
  if counter len < size then some (Function.update filename (counter len) 0) else none

def cstrIn (size : ℕ) (filename : Buffer) : List UInt8 :=
  ((List.range size).map filename).takeWhile (· ≠ 0)

/-- The pass over the records with an array of `size` bytes. -/
def scanIn (size : ℕ) (comp : Option (List UInt8)) : List FATEntry → Bool → Buffer → ℕ → Pass
  | [], run, filename, len => if run then .crossed filename len else .done filename len
  | current :: rest, run, filename, len =>
    if current.attr = LFN then
      match putPieceIn size filename current with
      | none => .fault
      | some filename => scanIn size comp rest true filename (len + 13)
    else
      match if run then terminateIn size filename len else some (putShort filename current) with
      | none => .fault
      | some filename =>
        let len := if run then 0 else len
        match comp with
        | none => .fault
        | some comp =>
          if strcmp (cstrIn size filename) comp = 0 then .found current filename len
          else scanIn size (some comp) rest false filename len

lemma scanIn_length (comp : Option (List UInt8)) (es : List FATEntry) (run : Bool)
    (filename : Buffer) (len : ℕ) :
    scanIn FILENAME_LENGTH comp es run filename len = scan comp es run filename len := by
  have hput : putPieceIn FILENAME_LENGTH = putPiece := rfl
  have hterm : terminateIn FILENAME_LENGTH = terminate := rfl
  have hcstr : cstrIn FILENAME_LENGTH = cstr := rfl
  induction es generalizing run filename len comp with
  | nil => rfl
  | cons e es ih =>
    rw [scanIn, scan, hput, hterm, hcstr]
    by_cases hattr : e.attr = LFN
    · rw [if_pos hattr, if_pos hattr]
      rcases putPiece filename e with _ | fn
      · rfl
      · exact ih comp true fn (len + 13)
    · rw [if_neg hattr, if_neg hattr]
      rcases if run then terminate filename len else some (putShort filename e) with _ | fn
      · rfl
      · rcases comp with _ | c
        · rfl
        · dsimp only
          rw [ih]

/-- The characters of a name in records: a NUL behind it and then ones, if the last record is not
full. -/
def padded (name : List UInt8) : List UInt16 :=
  let l := name.map UInt8.toUInt16
  if name.length % 13 = 0 then l else l ++ 0 :: List.replicate (12 - name.length % 13) 0xFFFF

/-- The records are numbered down to 1, and the first one is marked. -/
def HighestFirst : List FATEntry → Prop
  | [] => True
  | l :: ls => l.byte 0 = 0x40 ||| UInt8.ofNat (ls.length + 1) ∧ Numbered ls

instance : (es : List FATEntry) → Decidable (HighestFirst es)
  | [] => .isTrue trivial
  | l :: ls =>
    inferInstanceAs (Decidable (l.byte 0 = 0x40 ||| UInt8.ofNat (ls.length + 1) ∧ Numbered ls))

/-- The records are the long-name records of a name. -/
structure Encodes (name : List UInt8) (es : List FATEntry) : Prop where
  attrs : ∀ e ∈ es, e.attr = LFN
  numbers : HighestFirst es
  chars : es.reverse.flatMap units = padded name

section decoding

variable {name : List UInt8} {es : List FATEntry} {fn : Buffer} {size : ℕ}

lemma wcatomba_toUInt16 (l : List UInt8) : wcatomba (l.map UInt8.toUInt16) = l := by
  simp [wcatomba, Function.comp_def]

/-- Behind the name in the records there is nothing, or a NUL. -/
lemma wcatomba_padded (name : List UInt8) :
    ∃ rest, wcatomba (padded name) ++ [0] = name ++ 0 :: rest := by
  unfold padded
  dsimp only
  split
  · exact ⟨[], by rw [wcatomba_toUInt16]⟩
  · refine ⟨wcatomba (List.replicate (12 - name.length % 13) 0xFFFF) ++ [0], ?_⟩
    have happend : ∀ l l' : List UInt16, wcatomba (l ++ l') = wcatomba l ++ wcatomba l' :=
      fun l l' => List.map_append
    rw [happend, wcatomba_toUInt16, List.append_assoc]
    rfl

lemma length_padded_le (hname : name.length ≤ 255) : (padded name).length ≤ 260 := by
  unfold padded
  dsimp only
  split
  · rw [List.length_map]
    omega
  · rw [List.length_append, List.length_map, List.length_cons, List.length_replicate]
    omega

lemma length_padded_pos (hname : 1 ≤ name.length) : 0 < (padded name).length := by
  unfold padded
  dsimp only
  split
  · rw [List.length_map]
    omega
  · rw [List.length_append, List.length_cons]
    omega

lemma Encodes.length (h : Encodes name es) : 13 * es.length = (padded name).length := by
  rw [← length_pieces, pieces, length_wcatomba, h.chars]

lemma HighestFirst.descending (h : HighestFirst es) (hlen : es.length ≤ 20) : Descending es := by
  rcases es with _ | ⟨l, ls⟩
  · trivial
  · rw [List.length_cons] at hlen
    exact ⟨order_ofNat (by omega) (Or.inr h.1), h.2.descending (by omega)⟩

lemma foldlM_putPieceIn (hes : Descending es) (hsize : 13 * es.length ≤ size) :
    es.foldlM (putPieceIn size) fn = some (store fn 0 (pieces es)) := by
  induction es generalizing fn with
  | nil =>
    have hstore : store fn 0 (pieces []) = fn := by
      funext i
      unfold store
      rw [if_neg (by simp [pieces, wcatomba])]
    rw [hstore]
    rfl
  | cons e es ih =>
    rw [List.length_cons] at hsize
    have hput : putPieceIn size fn e =
        some (store fn (0 + (pieces es).length) (wcatomba (units e))) := by
      have hk : (order e - 1) * 13 = 0 + (pieces es).length := by
        rw [hes.1, length_pieces]
        omega
      have hchars : wcatomba (units e) = wcatomba (wchars e 1 5) ++ wcatomba (wchars e 14 6) ++
          wcatomba (wchars e 28 2) := by
        rw [units, wcatomba, List.map_append, List.map_append]
        rfl
      rw [putPieceIn, if_neg (by rw [hes.1]; omega), ← hk, hchars, ← store_append, ← store_append]
      simp
    rw [List.foldlM_cons, hput, pieces_cons, ← store_append']
    exact ih hes.2 (by omega)

lemma scanIn_append (comp : Option (List UInt8)) (hattr : ∀ e ∈ es, e.attr = LFN)
    {fn' : Buffer} (h : es.foldlM (putPieceIn size) fn = some fn') (rest : List FATEntry)
    (run : Bool) (len : ℕ) :
    scanIn size comp (es ++ rest) run fn len =
      scanIn size comp rest (run || decide (es ≠ [])) fn' (len + 13 * es.length) := by
  induction es generalizing run fn len with
  | nil =>
    obtain rfl : fn = fn' := Option.some.inj h
    simp
  | cons e es ih =>
    rw [List.foldlM_cons] at h
    rcases hput : putPieceIn size fn e with _ | fn₁
    · rw [hput] at h
      cases h
    · rw [hput] at h
      obtain ⟨he, hes⟩ := List.forall_mem_cons.mp hattr
      rw [List.cons_append, scanIn, if_pos he, hput]
      dsimp only
      have hcount : len + 13 + 13 * es.length = len + 13 * (es.length + 1) := by omega
      rw [ih hes h, List.length_cons, hcount]
      simp

lemma bytesOf_store {l : List UInt8} {k : ℕ} (hk : k ≤ l.length) :
    bytesOf (store fn 0 l) 0 k = l.take k := by
  apply List.ext_getElem
  · simp [bytesOf, hk]
  · intro i hi _
    have hik : i < k := by simpa [bytesOf] using hi
    simp only [bytesOf, List.getElem_map, List.getElem_range, List.getElem_take, store]
    rw [if_pos (by omega), Nat.zero_add, Nat.sub_zero, List.getD_eq_getElem _ _ (by omega)]

lemma cstrIn_eq (hname : ∀ c ∈ name, c ≠ 0) (hsize : name.length < size)
    (h : bytesOf fn 0 (name.length + 1) = name ++ [0]) : cstrIn size fn = name := by
  obtain ⟨k, rfl⟩ := Nat.exists_eq_add_of_lt hsize
  have hfirst : (List.range (name.length + 1)).map fn = name ++ [0] := by
    rw [← h]
    simp [bytesOf]
  have hall : name.takeWhile (· ≠ 0) = name := by
    rw [List.takeWhile_eq_self_iff]
    exact fun c hc => by simpa using hname c hc
  rw [cstrIn, Nat.add_right_comm, List.range_add, List.map_append, hfirst, List.append_assoc,
    List.takeWhile_append, hall, if_pos rfl, List.singleton_append,
    List.takeWhile_cons_of_neg (by simp), List.append_nil]

/-- **Long names.** Where there is room, a pass that comes to the long-name records of a name
compares the next record with this name in the array, whatever was there. -/
theorem scanIn_longName (name : List UInt8) (es : List FATEntry) (e : FATEntry)
    (rest : List FATEntry) (comp : List UInt8) (filename : Buffer) (size : ℕ)
    (hlen : 1 ≤ name.length ∧ name.length ≤ 255) (hname : ∀ c ∈ name, c ≠ 0)
    (hes : Encodes name es) (he : e.attr ≠ LFN) (hsize : 261 ≤ size) :
    ∃ fn, bytesOf fn 0 (name.length + 1) = name ++ [0] ∧ cstrIn size fn = name ∧
      scanIn size (some comp) (es ++ e :: rest) false filename 0 =
        if strcmp (cstrIn size fn) comp = 0 then .found e fn 0
        else scanIn size (some comp) rest false fn 0 := by
  have hlength := hes.length
  have hle := length_padded_le hlen.2
  have hpos := length_padded_pos hlen.1
  have hne : es ≠ [] := by
    rintro rfl
    rw [List.length_nil] at hlength
    omega
  have hdesc := hes.numbers.descending (by omega)
  have hfold : es.foldlM (putPieceIn size) filename = some (store filename 0 (pieces es)) :=
    foldlM_putPieceIn hdesc (by omega)
  -- the terminator comes behind the last record, the name may end before
  have hterm : terminateIn size (store filename 0 (pieces es)) (13 * es.length) =
      some (store filename 0 (pieces es ++ [0])) := by
    have hcounter : counter (13 * es.length) = 13 * es.length := Nat.mod_eq_of_lt (by omega)
    rw [terminateIn, hcounter, if_pos (by omega), ← length_pieces, update_store]
  obtain ⟨junk, hjunk⟩ := wcatomba_padded name
  have hpieces : pieces es ++ [0] = name ++ 0 :: junk := by
    rw [pieces, hes.chars, hjunk]
  rw [hpieces] at hterm
  have hbytes : bytesOf (store filename 0 (name ++ 0 :: junk)) 0 (name.length + 1) =
      name ++ [0] := by
    rw [bytesOf_store (by simp), ← List.singleton_append, ← List.append_assoc,
      List.take_append_of_le_length (by simp)]
    exact List.take_of_length_le (by simp)
  refine ⟨store filename 0 (name ++ 0 :: junk), hbytes, cstrIn_eq hname (by omega) hbytes, ?_⟩
  rw [scanIn_append (some comp) hes.attrs hfold, Nat.zero_add, decide_eq_true hne, Bool.false_or,
    scanIn, if_neg he, if_pos rfl, hterm]
  rfl

lemma encodes_longest : Encodes longest longestPieces := by
  have hattrs : longestPieces.all (fun e => e.attr = LFN) = true := by decide +kernel
  refine ⟨fun e he => ?_, by decide +kernel, by decide +kernel⟩
  simpa using List.all_eq_true.mp hattrs e he

theorem scanIn_longName_longest :
    ∃ fn, cstrIn 261 fn = longest ∧
      scanIn 261 (some longest) longestRecords false (fun _ => 0xFF) 0 =
        .found longestShort fn 0 := by
  obtain ⟨fn, -, hname, hscan⟩ := scanIn_longName longest longestPieces longestShort [] longest
    (fun _ => 0xFF) 261 (by decide +kernel) (fun c hc => by rw [List.eq_of_mem_replicate hc]; decide)
    encodes_longest (by decide +kernel) le_rfl
  rw [if_pos (strcmp_eq_zero.mpr hname)] at hscan
  exact ⟨fn, hname, hscan⟩

end decoding

end FlameOS.LongNames
