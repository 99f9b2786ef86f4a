import FlameOS.Fat
import FlameOS.ByteMem

/-!
The names of the entries of a directory: how `find_fat_entry` puts them together in `filename`,
and what they are.

The code takes every run of long-name records for a name and every other record for one with
an extension of three characters. What it shows for an entry is the name of the entry if the
records are in order, or if the short name fills its fields.
-/

namespace FlameOS.FatName

open FlameOS.Fat

/-! ### `filename` -/

def FILENAME_LENGTH : ℕ := 256

def LFN : UInt8 := 0x0F

def bytes (e : FATEntry) (start n : ℕ) : List UInt8 :=
  (List.range n).map fun i => e.byte (start + i)

def wchars (e : FATEntry) (start n : ℕ) : List UInt16 :=
  (List.range n).map fun i => le16 (e.byte (start + 2 * i))
    (e.byte (start + 2 * i + 1))

/-- `wcatomba` keeps the low bytes. -/
def wcatomba (l : List UInt16) : List UInt8 := l.map UInt16.toUInt8

/-- `memcpy` of some bytes to `&filename[k]`. -/
def store (filename : Buffer) (k : ℕ) (l : List UInt8) : Buffer := fun i =>
  if k ≤ i ∧ i < k + l.length then l.getD (i - k) 0 else filename i

def order (e : FATEntry) : ℕ := (e.byte 0 &&& 0x1F).toNat

/-- The three copies of a long-name record, which must stay within the array. -/
def putPiece (filename : Buffer) (e : FATEntry) : Option Buffer :=
  if order e = 0 ∨ FILENAME_LENGTH < order e * 13 then none
  else
    let k := (order e - 1) * 13
    some (store (store (store filename k (wcatomba (wchars e 1 5))) (k + 5)
      (wcatomba (wchars e 14 6))) (k + 11) (wcatomba (wchars e 28 2)))

/-- The variable `len` behind `n` characters; it is an `unsigned int`. -/
def counter (n : ℕ) : ℕ := n % 2 ^ 32

/-- `filename[len] = '\0'`, behind `len` characters. -/
def terminate (filename : Buffer) (len : ℕ) : Option Buffer :=
  if counter len < FILENAME_LENGTH then some (Function.update filename (counter len) 0) else none

/-- The characters that the loop over `current->name` leaves before the dot. -/
def shortBase (e : FATEntry) : List UInt8 := (bytes e 0 8).takeWhile (· ≠ 0x20)

/-- The name of a record that no long-name record comes before. -/
def putShort (filename : Buffer) (e : FATEntry) : Buffer :=
  store filename 0 (shortBase e ++ 0x2E :: bytes e 8 3 ++ [0])

def cstr (filename : Buffer) : List UInt8 :=
  ((List.range FILENAME_LENGTH).map filename).takeWhile (· ≠ 0)

/-- `strcmp` of two strings without their terminators; `char` is signed. -/
def strcmp : List UInt8 → List UInt8 → ℤ
  | [], [] => 0
  | [], b :: _ => if 0 > b.toInt8 then 1 else -1
  | a :: _, [] => if a.toInt8 > 0 then 1 else -1
  | a :: as, b :: bs =>
    if a = b then strcmp as bs else if a.toInt8 > b.toInt8 then 1 else -1

lemma strcmp_eq_zero {as bs : List UInt8} : strcmp as bs = 0 ↔ as = bs := by
  induction as generalizing bs with
  | nil =>
    cases bs with
    | nil => simp [strcmp]
    | cons b bs =>
      rw [strcmp]
      split <;> simp
  | cons a as ih =>
    cases bs with
    | nil =>
      rw [strcmp]
      split <;> simp
    | cons b bs =>
      rw [strcmp]
      split
      · rename_i hab
        rw [ih, hab, List.cons.injEq]
        simp
      · rename_i hab
        split <;> simp [hab]

/-! ### Names -/

def units (e : FATEntry) : List UInt16 := wchars e 1 5 ++ wchars e 14 6 ++ wchars e 28 2

def checksum (e : FATEntry) : UInt8 :=
  (bytes e 0 11).foldl (fun sum b => (sum <<< 7 ||| sum >>> 1) + b) 0

/-- The records are numbered down to 1. -/
def Numbered : List FATEntry → Prop
  | [] => True
  | e :: es => e.byte 0 = UInt8.ofNat (es.length + 1) ∧ Numbered es

instance decidableNumbered : (es : List FATEntry) → Decidable (Numbered es)
  | [] => .isTrue trivial
  | e :: es =>
    haveI := decidableNumbered es
    inferInstanceAs (Decidable (e.byte 0 = UInt8.ofNat (es.length + 1) ∧ Numbered es))

/-- The records are the long name of an entry, its last piece first. -/
def LongSet : List FATEntry → FATEntry → Prop
  | [], _ => False
  | l :: ls, e => ls.length < 20 ∧ l.byte 0 = 0x40 ||| UInt8.ofNat (ls.length + 1) ∧ Numbered ls ∧
      ∀ x ∈ l :: ls, x.byte 13 = checksum e

-- the instance for the list is named, as the one for all records would be found first
instance decidableLongSet : (long : List FATEntry) → (e : FATEntry) → Decidable (LongSet long e)
  | [], _ => .isFalse id
  | l :: ls, e =>
    haveI : Decidable (∀ x ∈ l :: ls, x.byte 13 = checksum e) := List.decidableBAll _ _
    inferInstanceAs (Decidable (ls.length < 20 ∧ l.byte 0 = 0x40 ||| UInt8.ofNat (ls.length + 1) ∧
      Numbered ls ∧ ∀ x ∈ l :: ls, x.byte 13 = checksum e))

def longName (long : List FATEntry) : List UInt16 :=
  (long.reverse.flatMap units).takeWhile (· ≠ 0)

/-- The base and the extension without the spaces that fill them. -/
def shortName (e : FATEntry) : List UInt8 :=
  let base := (bytes e 0 8).rdropWhile (· == 0x20)
  let ext := (bytes e 8 3).rdropWhile (· == 0x20)
  if ext = [] then base else base ++ 0x2E :: ext

/-- The name of an entry behind some long-name records: the last of them may be its long name,
with records of deleted entries before it. -/
def nameOf (long : List FATEntry) (e : FATEntry) : List UInt16 :=
  match long.tails.find? fun l => decide (LongSet l e) with
  | some l => longName l
  | none => (shortName e).map UInt8.toUInt16

/-- The record is neither deleted nor unused, and not the label of the volume. -/
def Live (e : FATEntry) : Prop := e.byte 0 ≠ 0xE5 ∧ e.byte 0 ≠ 0 ∧ e.attr &&& 0x08 = 0

instance (e : FATEntry) : Decidable (Live e) := inferInstanceAs (Decidable (_ ∧ _ ∧ _))

/-! ### Entries -/

/-- A record with the long-name records before it. -/
structure Item where
  long : List FATEntry
  entry : FATEntry

def items : List FATEntry → List FATEntry → List Item
  | _, [] => []
  | long, e :: es => if e.attr = LFN then items (long ++ [e]) es else ⟨long, e⟩ :: items [] es

def pending : List FATEntry → List FATEntry → List FATEntry
  | long, [] => long
  | long, e :: es => if e.attr = LFN then pending (long ++ [e]) es else pending [] es

lemma items_append (long es es' : List FATEntry) :
    items long (es ++ es') = items long es ++ items (pending long es) es' := by
  induction es generalizing long with
  | nil => rfl
  | cons e es ih =>
    rw [List.cons_append, items, items, pending]
    split
    · exact ih _
    · rw [ih, List.cons_append]

/-! ### What the code shows -/

/-- `filename` for an entry, after the records before it. -/
def putName (filename : Buffer) (it : Item) : Option Buffer :=
  if it.long = [] then some (putShort filename it.entry)
  else (it.long.foldlM putPiece filename).bind fun fn => terminate fn (13 * it.long.length)

section store

variable {fn fn' : Buffer} {k : ℕ}

lemma store_append (l l' : List UInt8) :
    store (store fn k l) (k + l.length) l' = store fn k (l ++ l') :=
  ByteMem.put_append l'

/-- The two parts do not overlap, so that they may come in the other order. -/
lemma store_append' (l l' : List UInt8) :
    store (store fn (k + l.length) l') k l = store fn k (l ++ l') := by
  rw [← store_append]
  exact (ByteMem.put_comm (Or.inl le_rfl)).symm

lemma update_store (fn : Buffer) (l : List UInt8) :
    Function.update (store fn 0 l) l.length 0 = store fn 0 (l ++ [0]) := by
  rw [← store_append, Nat.zero_add]
  funext i
  unfold store
  rw [Function.update_apply]
  by_cases hi : i = l.length
  · rw [if_pos hi, if_pos (by simp [hi]), hi, Nat.sub_self]
    rfl
  · have hout : ¬(l.length ≤ i ∧ i < l.length + [(0 : UInt8)].length) := by
      rw [List.length_singleton]
      omega
    rw [if_neg hi, if_neg hout]

lemma terminate_store {l : List UInt8} (hl : l.length < 2 ^ 32)
    (h : terminate (store fn 0 l) l.length = some fn') :
    fn' = store fn 0 (l ++ [0]) ∧ l.length < FILENAME_LENGTH := by
  unfold terminate counter at h
  rw [Nat.mod_eq_of_lt hl] at h
  split at h
  · rename_i hlt
    refine ⟨?_, hlt⟩
    rw [← update_store, Option.some.inj h]
  · cases h

lemma cstr_store {l : List UInt8} (h : l.length < FILENAME_LENGTH) :
    cstr (store fn 0 (l ++ [0])) = l.takeWhile (· ≠ 0) := by
  have hmap : (List.range FILENAME_LENGTH).map (store fn 0 (l ++ [0])) =
      (l ++ [0]) ++ (List.range' (l.length + 1) (FILENAME_LENGTH - (l.length + 1))).map fn := by
    apply List.ext_getElem
    · simp
      omega
    · intro i hi _
      rw [List.getElem_map, List.getElem_range]
      by_cases hil : i < (l ++ [0]).length
      · rw [List.getElem_append_left hil, store, if_pos (by omega), Nat.sub_zero,
          List.getD_eq_getElem _ _ hil]
      · rw [List.getElem_append_right (by omega), store, if_neg (by omega), List.getElem_map,
          List.getElem_range']
        congr 1
        simp at hil ⊢
        omega
  unfold cstr
  rw [hmap, List.append_assoc, List.singleton_append, List.takeWhile_append]
  split
  · rename_i hall
    rw [List.takeWhile_cons_of_neg (by simp), List.append_nil]
    exact ((List.takeWhile_prefix _).eq_of_length hall).symm
  · rfl

end store

section pieces

variable {fn fn' : Buffer} {e : FATEntry} {es : List FATEntry}

@[simp] lemma length_wchars (e : FATEntry) (start n : ℕ) : (wchars e start n).length = n := by
  simp [wchars]

@[simp] lemma length_wcatomba (l : List UInt16) : (wcatomba l).length = l.length :=
  List.length_map _

lemma length_units (e : FATEntry) : (units e).length = 13 := by simp [units]

lemma putPiece_eq (h : putPiece fn e = some fn') :
    order e * 13 ≤ FILENAME_LENGTH ∧ fn' = store fn ((order e - 1) * 13) (wcatomba (units e)) := by
  unfold putPiece at h
  split at h
  · cases h
  · rename_i hin
    refine ⟨by omega, ?_⟩
    rw [← Option.some.inj h]
    have happend : wcatomba (units e) = wcatomba (wchars e 1 5) ++ wcatomba (wchars e 14 6) ++
        wcatomba (wchars e 28 2) := by
      rw [units, wcatomba, List.map_append, List.map_append]
      rfl
    rw [happend, ← store_append, ← store_append]
    simp

def Descending : List FATEntry → Prop
  | [] => True
  | e :: es => order e = es.length + 1 ∧ Descending es

/-- The bytes of a long name, with what fills the last record. -/
def pieces (es : List FATEntry) : List UInt8 := wcatomba (es.reverse.flatMap units)

lemma length_pieces (es : List FATEntry) : (pieces es).length = 13 * es.length := by
  unfold pieces
  rw [length_wcatomba, List.length_flatMap]
  simp [length_units, mul_comm]

lemma pieces_cons (e : FATEntry) (es : List FATEntry) :
    pieces (e :: es) = pieces es ++ wcatomba (units e) := by
  simp [pieces, wcatomba]

lemma foldlM_putPiece (hes : Descending es) (h : es.foldlM putPiece fn = some fn') :
    fn' = store fn 0 (pieces es) := by
  induction es generalizing fn with
  | nil =>
    obtain rfl := Option.some.inj h
    funext i
    unfold store
    rw [if_neg (by simp [pieces, wcatomba])]
  | cons e es ih =>
    rw [List.foldlM_cons] at h
    rcases he : putPiece fn e with _ | fn₁
    · rw [he] at h
      cases h
    · rw [he] at h
      obtain ⟨-, rfl⟩ := putPiece_eq he
      have hk : (order e - 1) * 13 = 0 + (pieces es).length := by
        rw [hes.1, length_pieces]
        omega
      rw [ih hes.2 h, hk, store_append', pieces_cons]

lemma order_ofNat {n : ℕ} (hn : n < 32)
    (h : e.byte 0 = UInt8.ofNat n ∨ e.byte 0 = 0x40 ||| UInt8.ofNat n) : order e = n := by
  have hall : ∀ n < 32, (UInt8.ofNat n &&& 0x1F).toNat = n ∧
      ((0x40 ||| UInt8.ofNat n) &&& 0x1F).toNat = n := by decide
  unfold order
  rcases h with h | h <;> rw [h]
  · exact (hall n hn).1
  · exact (hall n hn).2

lemma Numbered.descending (hlen : es.length < 31) (h : Numbered es) : Descending es := by
  induction es with
  | nil => trivial
  | cons e es ih =>
    rw [List.length_cons] at hlen
    exact ⟨order_ofNat (by omega) (Or.inl h.1), ih (by omega) h.2⟩

lemma LongSet.descending (h : LongSet es e) : Descending es := by
  rcases es with _ | ⟨l, ls⟩
  · trivial
  · obtain ⟨hlen, hl, hls, -⟩ := h
    exact ⟨order_ofNat (by omega) (Or.inr hl), hls.descending (by omega)⟩

end pieces

/-! ### Entries that are shown by their name -/

/-- The short name has an extension of three characters, and spaces in the base only at its
end. -/
def Fills (e : FATEntry) : Prop :=
  (∀ b ∈ bytes e 0 8 ++ bytes e 8 3, b ≠ 0) ∧ e.byte 10 ≠ 0x20 ∧
    0x20 ∉ (bytes e 0 8).rdropWhile (· == 0x20)

instance (e : FATEntry) : Decidable (Fills e) :=
  haveI : Decidable (∀ b ∈ bytes e 0 8 ++ bytes e 8 3, b ≠ 0) := List.decidableBAll _ _
  inferInstanceAs (Decidable (_ ∧ _ ∧ _))

/-- A short name that fills its fields, or a long name whose records are all there. -/
def Plain (it : Item) : Prop :=
  Live it.entry ∧ (it.long = [] ∧ Fills it.entry ∨
    LongSet it.long it.entry ∧ ∀ u ∈ longName it.long, u < 256)

def Named (comp : List UInt8) (it : Item) : Prop :=
  Live it.entry ∧ nameOf it.long it.entry = comp.map UInt8.toUInt16

instance (it : Item) : Decidable (Plain it) :=
  haveI : Decidable (∀ u ∈ longName it.long, u < 256) := List.decidableBAll _ _
  inferInstanceAs (Decidable (_ ∧ (_ ∨ _ ∧ _)))

instance (comp : List UInt8) (it : Item) : Decidable (Named comp it) :=
  inferInstanceAs (Decidable (_ ∧ _))

section plain

variable {fn fn' : Buffer} {e : FATEntry} {long : List FATEntry} {it : Item}

lemma takeWhile_eq_rdropWhile {l : List UInt8} (h : 0x20 ∉ l.rdropWhile (· == 0x20)) :
    l.takeWhile (· ≠ 0x20) = l.rdropWhile (· == 0x20) := by
  have hend : (l.rtakeWhile (· == 0x20)).takeWhile (· ≠ 0x20) = [] := by
    rcases hr : l.rtakeWhile (· == 0x20) with _ | ⟨b, r⟩
    · rfl
    · have hb : b ∈ l.rtakeWhile (· == 0x20) := hr ▸ List.mem_cons_self
      have hspace := List.mem_rtakeWhile_imp hb
      rw [List.takeWhile_cons_of_neg (by simpa using hspace)]
  have hbase : (l.rdropWhile (· == 0x20)).takeWhile (· ≠ 0x20) = l.rdropWhile (· == 0x20) := by
    rw [List.takeWhile_eq_self_iff]
    intro b hb
    simp only [ne_eq, decide_not, Bool.not_eq_true', decide_eq_false_iff_not]
    rintro rfl
    exact h hb
  have hsplit : l.rdropWhile (· == 0x20) ++ l.rtakeWhile (· == 0x20) = l :=
    List.rdropWhile_append_rtakeWhile
  conv_lhs => rw [← hsplit]
  rw [List.takeWhile_append, hbase, if_pos rfl, hend, List.append_nil]

/-- A short name that fills its fields is put together right. -/
lemma Fills.shortName_eq (h : Fills e) :
    (shortBase e ++ 0x2E :: bytes e 8 3).takeWhile (· ≠ 0) = shortName e := by
  obtain ⟨hzero, hlast, hbase⟩ := h
  have hext : (bytes e 8 3).rdropWhile (· == 0x20) = bytes e 8 3 := by
    rw [List.rdropWhile_eq_self_iff]
    intro _
    simpa [bytes] using hlast
  have hne : bytes e 8 3 ≠ [] := by simp [bytes]
  have hshort : shortName e = shortBase e ++ 0x2E :: bytes e 8 3 := by
    unfold shortName shortBase
    rw [hext, if_neg hne, takeWhile_eq_rdropWhile hbase]
  rw [hshort, List.takeWhile_eq_self_iff]
  intro b hb
  rw [List.mem_append, List.mem_cons] at hb
  have hb0 : b ≠ 0 := by
    rcases hb with hb | rfl | hb
    · exact hzero b (List.mem_append_left _ ((List.takeWhile_prefix _).subset hb))
    · decide
    · exact hzero b (List.mem_append_right _ hb)
  simpa using hb0

lemma takeWhile_wcatomba {l : List UInt16} (h : ∀ u ∈ l.takeWhile (· ≠ 0), u < 256) :
    ((wcatomba l).takeWhile (· ≠ 0)).map UInt8.toUInt16 = l.takeWhile (· ≠ 0) := by
  induction l with
  | nil => rfl
  | cons u l ih =>
    rw [wcatomba, List.map_cons]
    by_cases hu : u = 0
    · subst hu
      rfl
    · have htake : (u :: l).takeWhile (· ≠ 0) = u :: l.takeWhile (· ≠ 0) :=
        List.takeWhile_cons_of_pos (by simpa using hu)
      rw [htake] at h ⊢
      have hlt : u.toNat < 256 := UInt16.lt_iff_toNat_lt.mp (h u List.mem_cons_self)
      have hback : u.toUInt8.toUInt16 = u := by
        rw [← UInt16.toNat_inj, UInt8.toNat_toUInt16, UInt16.toNat_toUInt8, Nat.mod_eq_of_lt hlt]
      have hne : u.toUInt8 ≠ 0 := by
        intro h0
        rw [h0] at hback
        exact hu hback.symm
      rw [List.takeWhile_cons_of_pos (by simpa using hne), List.map_cons, hback,
        ← ih fun w hw => h w (List.mem_cons_of_mem u hw)]
      rfl

lemma length_shortBase_le (e : FATEntry) : (shortBase e).length ≤ 8 :=
  (List.takeWhile_prefix _).length_le.trans (by simp [bytes])

lemma cstr_putShort (filename : Buffer) (e : FATEntry) :
    cstr (putShort filename e) = (shortBase e ++ 0x2E :: bytes e 8 3).takeWhile (· ≠ 0) := by
  have hlen := length_shortBase_le e
  refine cstr_store ?_
  simp [bytes, FILENAME_LENGTH]
  omega

lemma LongSet.length_lt (h : LongSet long e) : long.length < 21 := by
  rcases long with _ | ⟨l, ls⟩
  · exact absurd h id
  · rw [List.length_cons]
    have := h.1
    omega

lemma cstr_terminate {fn₁ : Buffer} (hlong : LongSet long e)
    (h₁ : long.foldlM putPiece fn = some fn₁) (h₂ : terminate fn₁ (13 * long.length) = some fn') :
    cstr fn' = (pieces long).takeWhile (· ≠ 0) := by
  have hshort := hlong.length_lt
  rw [foldlM_putPiece hlong.descending h₁, ← length_pieces] at h₂
  obtain ⟨rfl, hlen⟩ := terminate_store (by rw [length_pieces]; omega) h₂
  exact cstr_store hlen

lemma nameOf_nil (e : FATEntry) : nameOf [] e = (shortName e).map UInt8.toUInt16 := rfl

lemma nameOf_longSet (h : LongSet long e) : nameOf long e = longName long := by
  rcases long with _ | ⟨l, ls⟩
  · exact absurd h id
  · unfold nameOf
    rw [List.tails, List.find?_cons_of_pos (by simpa using h)]

lemma Plain.shown (hit : Plain it) (h : putName fn it = some fn') :
    (cstr fn').map UInt8.toUInt16 = nameOf it.long it.entry := by
  unfold putName at h
  rcases hit.2 with ⟨hnil, hfills⟩ | ⟨hlong, hlatin⟩
  · rw [if_pos hnil] at h
    rw [← Option.some.inj h, cstr_putShort, hfills.shortName_eq, hnil, nameOf_nil]
  · have hne : it.long ≠ [] := by
      intro h0
      rw [h0] at hlong
      exact hlong
    rw [if_neg hne, Option.bind_eq_some_iff] at h
    obtain ⟨fn₁, h₁, h₂⟩ := h
    rw [cstr_terminate hlong h₁ h₂, nameOf_longSet hlong, pieces, takeWhile_wcatomba hlatin]
    rfl

lemma Plain.shown_iff (hit : Plain it) (h : putName fn it = some fn') (comp : List UInt8) :
    cstr fn' = comp ↔ Named comp it := by
  have hinj : Function.Injective (List.map UInt8.toUInt16) := by
    refine List.map_injective_iff.mpr fun a b hab => ?_
    rw [← UInt8.toNat_inj, ← UInt8.toNat_toUInt16, hab, UInt8.toNat_toUInt16]
  unfold Named
  rw [← hit.shown h, hinj.eq_iff]
  exact ⟨fun heq => ⟨hit.1, heq⟩, fun heq => heq.2⟩

end plain

end FlameOS.FatName
