import Mathlib

/-!
Memory as a function from addresses to bytes: blocks of bytes put into it, and words of eight
bytes, the lowest first.
-/

namespace FlameOS.ByteMem

abbrev Mem := ℕ → UInt8

def put (m : Mem) (a : ℕ) (l : List UInt8) : Mem := fun x =>
  if a ≤ x ∧ x < a + l.length then l.getD (x - a) 0 else m x

def load64 (m : Mem) (a : ℕ) : ℕ := (List.range 8).foldr (fun i v => (m (a + i)).toNat + 256 * v) 0

def bytes64 (v : ℕ) : List UInt8 := (List.range 8).map fun i => (v / 256 ^ i).toUInt8

variable {m m' : Mem} {a x : ℕ} {l : List UInt8}

@[simp] lemma length_bytes64 (v : ℕ) : (bytes64 v).length = 8 := by simp [bytes64]

/-! ### Bytes -/

lemma put_of_mem (h : a ≤ x) (hx : x < a + l.length) : put m a l x = l.getD (x - a) 0 :=
  if_pos ⟨h, hx⟩

lemma put_of_notMem (h : ¬ (a ≤ x ∧ x < a + l.length)) : put m a l x = m x := if_neg h

@[simp] lemma put_nil (m : Mem) (a : ℕ) : put m a [] = m := by
  funext x
  exact put_of_notMem (by simp)

lemma put_append (l' : List UInt8) : put (put m a l) (a + l.length) l' = put m a (l ++ l') := by
  funext x
  unfold put
  rw [List.length_append]
  by_cases hl : a ≤ x ∧ x < a + l.length
  · rw [if_neg (by omega), if_pos hl, if_pos (by omega), List.getD_append _ _ _ _ (by omega)]
  · by_cases hl' : a + l.length ≤ x ∧ x < a + l.length + l'.length
    · rw [if_pos hl', if_pos (by omega), List.getD_append_right _ _ _ _ (by omega)]
      congr 1
      omega
    · rw [if_neg hl', if_neg hl, if_neg (by omega)]

lemma put_comm {b : ℕ} {l' : List UInt8} (h : a + l.length ≤ b ∨ b + l'.length ≤ a) :
    put (put m a l) b l' = put (put m b l') a l := by
  funext x
  unfold put
  by_cases hb : b ≤ x ∧ x < b + l'.length
  · rw [if_pos hb, if_neg (by omega), if_pos hb]
  · rw [if_neg hb, if_neg hb]

/-! ### Words -/

lemma load64_congr (h : ∀ i < 8, m' (a + i) = m (a + i)) : load64 m' a = load64 m a := by
  unfold load64
  refine List.foldr_ext _ _ _ fun i hi v => ?_
  rw [h i (List.mem_range.mp hi)]

lemma load64_lt (m : Mem) (a : ℕ) : load64 m a < 2 ^ 64 := by
  have hfold : ∀ l : List ℕ, l.foldr (fun i v => (m (a + i)).toNat + 256 * v) 0 < 256 ^ l.length := by
    intro l
    induction l with
    | nil => exact Nat.one_pos
    | cons i l ih =>
      have hbyte : (m (a + i)).toNat < 256 := UInt8.toNat_lt _
      rw [List.foldr_cons, List.length_cons, pow_succ]
      omega
  exact (hfold (List.range 8)).trans_eq (by norm_num)

lemma load64_put_of_disjoint {b : ℕ} (h : b + 8 ≤ a ∨ a + l.length ≤ b) :
    load64 (put m a l) b = load64 m b :=
  load64_congr fun i hi => put_of_notMem (by omega)

lemma load64_put (v : ℕ) (h : v < 2 ^ 64) : load64 (put m a (bytes64 v)) a = v := by
  have hbyte : ∀ i < 8, (put m a (bytes64 v) (a + i)).toNat = v / 256 ^ i % 256 := by
    intro i hi
    have hget : put m a (bytes64 v) (a + i) = (v / 256 ^ i).toUInt8 := by
      rw [put_of_mem (by omega) (by rw [length_bytes64]; omega), Nat.add_sub_cancel_left,
        List.getD_eq_getElem _ _ (by rw [length_bytes64]; exact hi)]
      simp [bytes64]
    rw [hget, UInt8.toNat_ofNat']
  have hfold : load64 (put m a (bytes64 v)) a =
      (List.range 8).foldr (fun i w => v / 256 ^ i % 256 + 256 * w) 0 := by
    unfold load64
    refine List.foldr_ext _ _ _ fun i hi w => ?_
    rw [hbyte i (List.mem_range.mp hi)]
  rw [hfold]
  simp only [List.range, List.range.loop, List.foldr]
  omega

lemma load64_put_flatMap {vs : List ℕ} (hvs : ∀ v ∈ vs, v < 2 ^ 64) {k : ℕ} (hk : k < vs.length) :
    load64 (put m a (vs.flatMap bytes64)) (a + 8 * k) = vs[k] := by
  induction vs generalizing m a k with
  | nil => exact absurd hk (Nat.not_lt_zero k)
  | cons v vs ih =>
    have hvs' : ∀ w ∈ vs, w < 2 ^ 64 := fun w hw => hvs w (List.mem_cons_of_mem _ hw)
    rw [List.flatMap_cons, ← put_append, length_bytes64]
    cases k with
    | zero =>
      rw [load64_put_of_disjoint (Or.inl (by omega))]
      exact load64_put v (hvs v List.mem_cons_self)
    | succ k =>
      have hadd : a + 8 * (k + 1) = a + 8 + 8 * k := by omega
      rw [hadd, ih hvs' (Nat.lt_of_succ_lt_succ hk)]
      rfl

lemma length_flatMap_bytes64 (vs : List ℕ) : (vs.flatMap bytes64).length = 8 * vs.length := by
  induction vs with
  | nil => rfl
  | cons v vs ih =>
    rw [List.flatMap_cons, List.length_append, length_bytes64, ih, List.length_cons]
    omega

end FlameOS.ByteMem
