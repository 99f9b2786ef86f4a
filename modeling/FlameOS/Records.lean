import FlameOS.ByteMem

/-!
Tables in memory, of records with `n` bytes each, and the fields of a record as parts of one
number, the lowest byte first.

A store of a whole record is an update of the table at its index, so a table after any stores is
what the same updates make of it.
-/

namespace FlameOS.Records

open FlameOS.ByteMem

def record (a n : ℕ) (m : Mem) (i : ℕ) : List UInt8 :=
  (List.range n).map fun k => m (a + n * i + k)

def setRecord (a n : ℕ) (m : Mem) (i : ℕ) (l : List UInt8) : Mem := put m (a + n * i) l

def setRecords (a n : ℕ) (cs : List (ℕ × List UInt8)) (m : Mem) : Mem :=
  cs.foldl (fun m c => setRecord a n m c.1 c.2) m

def bytes (n v : ℕ) : List UInt8 := (List.range n).map fun i => (v / 256 ^ i).toUInt8

def value : List UInt8 → ℕ
  | [] => 0
  | b :: l => b.toNat + 256 * value l

def field (lo w v : ℕ) : ℕ := v / 2 ^ lo % 2 ^ w

variable {a n i : ℕ} {m : Mem} {l : List UInt8}

@[simp] lemma length_record (a n : ℕ) (m : Mem) (i : ℕ) : (record a n m i).length = n := by
  simp [record]

lemma getElem_record {k : ℕ} (h : k < (record a n m i).length) :
    (record a n m i)[k] = m (a + n * i + k) := by
  simp [record]

@[simp] lemma length_bytes (n v : ℕ) : (bytes n v).length = n := by simp [bytes]

/-! ### Stores -/

lemma setRecord_of_notMem {x : ℕ} (h : ¬(a + n * i ≤ x ∧ x < a + n * i + l.length)) :
    setRecord a n m i l x = m x :=
  put_of_notMem h

lemma record_apart {i j : ℕ} (h : j ≠ i) :
    a + n * j + n ≤ a + n * i ∨ a + n * i + n ≤ a + n * j := by
  rcases Nat.lt_or_gt_of_ne h with hlt | hgt
  · have := Nat.mul_le_mul_left n hlt
    rw [Nat.mul_succ] at this
    omega
  · have := Nat.mul_le_mul_left n hgt
    rw [Nat.mul_succ] at this
    omega

lemma record_congr {m' : Mem} (h : ∀ k < n, m' (a + n * i + k) = m (a + n * i + k)) :
    record a n m' i = record a n m i :=
  List.map_congr_left fun k hk => h k (List.mem_range.mp hk)

lemma record_setRecord (hl : l.length = n) :
    record a n (setRecord a n m i l) = Function.update (record a n m) i l := by
  ext1 j
  by_cases hj : j = i
  · subst hj
    rw [Function.update_self]
    refine List.ext_getElem (by rw [length_record, hl]) fun k hk _ => ?_
    rw [length_record] at hk
    rw [getElem_record, setRecord, put_of_mem (by omega) (by omega), Nat.add_sub_cancel_left,
      List.getD_eq_getElem]
  · rw [Function.update_of_ne hj]
    refine record_congr fun k hk => setRecord_of_notMem ?_
    have := record_apart (a := a) (n := n) hj
    omega

lemma setRecords_concat (cs : List (ℕ × List UInt8)) (c : ℕ × List UInt8) (m : Mem) :
    setRecords a n (cs ++ [c]) m = setRecord a n (setRecords a n cs m) c.1 c.2 := by
  simp [setRecords]

/-- **The table after any stores.** -/
lemma record_setRecords {cs : List (ℕ × List UInt8)} (hcs : ∀ c ∈ cs, c.2.length = n) :
    record a n (setRecords a n cs m) =
      cs.foldl (fun f c => Function.update f c.1 c.2) (record a n m) := by
  induction cs generalizing m with
  | nil => rfl
  | cons c cs ih =>
    rw [setRecords, List.foldl_cons, List.foldl_cons, ← setRecords,
      ih fun c hc => hcs c (List.mem_cons_of_mem _ hc), record_setRecord (hcs c List.mem_cons_self)]

lemma setRecords_of_notMem {cs : List (ℕ × List UInt8)} (hcs : ∀ c ∈ cs, c.2.length = n) {x : ℕ}
    (h : ∀ c ∈ cs, ¬(a + n * c.1 ≤ x ∧ x < a + n * c.1 + n)) : setRecords a n cs m x = m x := by
  induction cs generalizing m with
  | nil => rfl
  | cons c cs ih =>
    rw [setRecords, List.foldl_cons, ← setRecords,
      ih (fun c hc => hcs c (List.mem_cons_of_mem _ hc)) fun c hc => h c (List.mem_cons_of_mem _ hc)]
    apply setRecord_of_notMem
    rw [hcs c List.mem_cons_self]
    exact h c List.mem_cons_self

/-- What updates leave at an index is what the last one for it puts there. -/
lemma foldl_update {γ β : Type*} (key : γ → ℕ) (val : γ → β) (cs : List γ) (f : ℕ → β) (j : ℕ) :
    cs.foldl (fun f c => Function.update f (key c) (val c)) f j =
      (cs.reverse.find? fun c => decide (key c = j)).elim (f j) val := by
  induction cs using List.reverseRecOn with
  | nil => rfl
  | append_singleton cs c ih =>
    rw [List.foldl_append, List.foldl_cons, List.foldl_nil, List.reverse_append,
      List.reverse_singleton, List.singleton_append, List.find?_cons]
    by_cases hj : key c = j
    · subst hj
      simp
    · rw [Function.update_of_ne (Ne.symm hj), ih]
      simp [hj]

/-- **Stores within a table.** Whatever the memory holds, nothing outside the first `N` records
changes exactly if all records stored are among them. -/
lemma setRecords_inside_iff {cs : List (ℕ × List UInt8)} (hcs : ∀ c ∈ cs, c.2.length = n)
    (hn : 0 < n) (N : ℕ) :
    (∀ (m : Mem) (x : ℕ), ¬(a ≤ x ∧ x < a + n * N) → setRecords a n cs m x = m x) ↔
      ∀ c ∈ cs, c.1 < N := by
  constructor
  · intro hin c hc
    by_contra hout
    have hN : n * N ≤ n * c.1 := Nat.mul_le_mul_left n (Nat.not_lt.mp hout)
    -- what is stored does not depend on what was there before
    have hsame : ∀ m m' : Mem, record a n m c.1 = record a n m' c.1 := by
      intro m m'
      have hkeep : ∀ m : Mem, record a n m c.1 = record a n (setRecords a n cs m) c.1 := by
        intro m
        exact (record_congr fun k _ => hin m _ (by omega)).symm
      have hfound : (cs.reverse.find? fun d => decide (d.1 = c.1)).isSome := by
        rw [List.find?_isSome]
        exact ⟨c, List.mem_reverse.mpr hc, decide_eq_true rfl⟩
      obtain ⟨d, hd⟩ := Option.isSome_iff_exists.mp hfound
      rw [hkeep m, hkeep m', record_setRecords hcs, record_setRecords hcs,
        foldl_update Prod.fst Prod.snd, foldl_update Prod.fst Prod.snd, hd]
      rfl
    have hbyte := congrArg List.head? (hsame (fun _ => 0) fun _ => 1)
    obtain ⟨n, rfl⟩ := Nat.exists_eq_succ_of_ne_zero hn.ne'
    simp [record, List.range_succ_eq_map] at hbyte
  · intro hlt m x hx
    refine setRecords_of_notMem hcs fun c hc hmem => hx ?_
    have := Nat.mul_le_mul_left n (hlt c hc)
    rw [Nat.mul_succ] at this
    omega

/-! ### Numbers -/

lemma value_append (l l' : List UInt8) :
    value (l ++ l') = value l + 256 ^ l.length * value l' := by
  induction l with
  | nil => simp [value]
  | cons b l ih =>
    rw [List.cons_append, value, value, ih, List.length_cons, pow_succ]
    ring

lemma bytes_succ (n v : ℕ) : bytes (n + 1) v = v.toUInt8 :: bytes n (v / 256) := by
  unfold bytes
  rw [List.range_succ_eq_map, List.map_cons, List.map_map, pow_zero, Nat.div_one]
  congr 1
  refine List.map_congr_left fun i _ => ?_
  rw [Function.comp_apply, Nat.succ_eq_add_one, pow_succ', Nat.div_div_eq_div_mul]

lemma value_bytes (n v : ℕ) : value (bytes n v) = v % 256 ^ n := by
  induction n generalizing v with
  | zero => simp [bytes, value, Nat.mod_one]
  | succ n ih =>
    rw [bytes_succ, value, ih, pow_succ', Nat.mod_mul, UInt8.toNat_ofNat']

lemma value_bytes_of_lt {n v : ℕ} (h : v < 256 ^ n) : value (bytes n v) = v := by
  rw [value_bytes, Nat.mod_eq_of_lt h]

end FlameOS.Records
