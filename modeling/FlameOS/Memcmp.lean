import Mathlib

/-!
`memcmp` of the C library. Its loop counts down the length, but it leaves both pointers where
they are, so only the first byte of each sequence is ever compared.
-/

namespace FlameOS.Memcmp

def memcmpLoop (ptr1 ptr2 : ℕ → UInt8) (c1 c2 : ℕ) : ℕ → ℤ
  | 0 => 0
  | len + 1 =>
    if ptr1 c1 ≠ ptr2 c2 then
      if ptr1 c1 > ptr2 c2 then 1 else -1
    else memcmpLoop ptr1 ptr2 c1 c2 len

def memcmp (ptr1 ptr2 : ℕ → UInt8) (len : ℕ) : ℤ := memcmpLoop ptr1 ptr2 0 0 len

/-- What a comparison of the first `len` bytes in lexicographic order returns. -/
structure Lexicographic (ptr1 ptr2 : ℕ → UInt8) (len : ℕ) (r : ℤ) : Prop where
  zero : r = 0 ↔ ∀ i < len, ptr1 i = ptr2 i
  first : ∀ i < len, ptr1 i ≠ ptr2 i → (∀ j < i, ptr1 j = ptr2 j) →
    r = if ptr1 i > ptr2 i then 1 else -1

variable {ptr1 ptr2 : ℕ → UInt8} {len : ℕ}

lemma memcmpLoop_of_eq {c1 c2 : ℕ} (h : ptr1 c1 = ptr2 c2) (len : ℕ) :
    memcmpLoop ptr1 ptr2 c1 c2 len = 0 := by
  induction len with
  | zero => rfl
  | succ len ih => rw [memcmpLoop, if_neg (not_not.mpr h), ih]

lemma memcmp_eq (ptr1 ptr2 : ℕ → UInt8) (len : ℕ) : memcmp ptr1 ptr2 len =
    if len = 0 ∨ ptr1 0 = ptr2 0 then 0 else if ptr1 0 > ptr2 0 then 1 else -1 := by
  unfold memcmp
  by_cases h : ptr1 0 = ptr2 0
  · rw [memcmpLoop_of_eq h, if_pos (Or.inr h)]
  · cases len with
    | zero => rw [if_pos (Or.inl rfl), memcmpLoop]
    | succ len =>
      have hne : ¬ (len + 1 = 0 ∨ ptr1 0 = ptr2 0) := fun he => he.elim (Nat.succ_ne_zero len) h
      rw [memcmpLoop, if_pos h, if_neg hne]

/-- **`memcmp` and lexicographic order.** The result is right exactly for an empty comparison,
for sequences that differ in the first byte, and for sequences that do not differ. -/
theorem memcmp_lexicographic_iff (ptr1 ptr2 : ℕ → UInt8) (len : ℕ) :
    Lexicographic ptr1 ptr2 len (memcmp ptr1 ptr2 len) ↔
      len = 0 ∨ ptr1 0 ≠ ptr2 0 ∨ ∀ i < len, ptr1 i = ptr2 i := by
  constructor
  · intro h
    by_cases h0 : ptr1 0 = ptr2 0
    · refine Or.inr (Or.inr (h.zero.mp ?_))
      rw [memcmp_eq, if_pos (Or.inr h0)]
    · exact Or.inr (Or.inl h0)
  · rintro (rfl | h0 | hall)
    · refine ⟨⟨fun _ i hi => absurd hi (Nat.not_lt_zero i), fun _ => rfl⟩, fun i hi => ?_⟩
      exact absurd hi (Nat.not_lt_zero i)
    · rcases Nat.eq_zero_or_pos len with rfl | hlen
      · refine ⟨⟨fun _ i hi => absurd hi (Nat.not_lt_zero i), fun _ => rfl⟩, fun i hi => ?_⟩
        exact absurd hi (Nat.not_lt_zero i)
      · have hr : memcmp ptr1 ptr2 len = if ptr1 0 > ptr2 0 then 1 else -1 := by
          rw [memcmp_eq, if_neg fun h => h.elim hlen.ne' h0]
        refine ⟨iff_of_false ?_ fun hall => h0 (hall 0 hlen), fun i hi hne hbefore => ?_⟩
        · rw [hr]
          split <;> decide
        · -- the first difference is at the first byte
          rcases Nat.eq_zero_or_pos i with rfl | hpos
          · exact hr
          · exact absurd (hbefore 0 hpos) h0
    · refine ⟨iff_of_true ?_ hall, fun i hi hne => absurd (hall i hi) hne⟩
      rw [memcmp_eq]
      rcases Nat.eq_zero_or_pos len with hlen | hlen
      · rw [if_pos (Or.inl hlen)]
      · rw [if_pos (Or.inr (hall 0 hlen))]

/-- Two sequences that differ in the second byte. -/
theorem not_memcmp_lexicographic :
    memcmp (fun i => if i = 1 then 7 else 0) (fun _ => 0) 2 = 0 ∧
      ¬ ∀ (ptr1 ptr2 : ℕ → UInt8) (len : ℕ),
        Lexicographic ptr1 ptr2 len (memcmp ptr1 ptr2 len) := by
  have h0 : memcmp (fun i => if i = 1 then 7 else 0) (fun _ => 0) 2 = 0 := by decide
  refine ⟨h0, fun h => ?_⟩
  have hall := (h (fun i => if i = 1 then 7 else 0) (fun _ => 0) 2).zero.mp h0
  exact absurd (hall 1 (by decide)) (by decide)

end FlameOS.Memcmp
