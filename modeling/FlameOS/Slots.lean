import Mathlib

/-!
Pieces of a set kept in slots, no two of which meet: what an allocator of address ranges
keeps, whatever its slots are for. Moving a part of one slot to another and losing a part
are all such an allocator can do.
-/

namespace FlameOS.Slots

variable {ι α : Type*} {whole : Set α}

structure Arena (ι : Type*) {α : Type*} (whole : Set α) where
  piece : ι → Set α
  subset : ∀ i, piece i ⊆ whole
  separate : ∀ i j, i ≠ j → Disjoint (piece i) (piece j)

namespace Arena

variable [DecidableEq ι]

/-- What is in `x` of slot `i` is lost. -/
def drop (A : Arena ι whole) (i : ι) (x : Set α) : Arena ι whole where
  piece k := if k = i then A.piece k \ x else A.piece k
  subset k := by
    split
    · exact Set.sdiff_subset.trans (A.subset k)
    · exact A.subset k
  separate k l hkl := by
    refine (A.separate k l hkl).mono ?_ ?_ <;> split
    · exact Set.sdiff_subset
    · exact subset_rfl
    · exact Set.sdiff_subset
    · exact subset_rfl

/-- Slot `j` gets a set that no slot has. -/
def add (A : Arena ι whole) (j : ι) (y : Set α) (hy : y ⊆ whole)
    (hd : ∀ k, Disjoint (A.piece k) y) : Arena ι whole where
  piece k := if k = j then A.piece k ∪ y else A.piece k
  subset k := by
    split
    · exact Set.union_subset (A.subset k) hy
    · exact A.subset k
  separate k l hkl := by
    have h := A.separate k l hkl
    split <;> split
    · rename_i hk hl
      exact absurd (hk.trans hl.symm) hkl
    · exact Set.disjoint_union_left.mpr ⟨h, (hd l).symm⟩
    · exact Set.disjoint_union_right.mpr ⟨h, hd k⟩
    · exact h

/-- What is in `x` of slot `i` goes to slot `j`. -/
def move (A : Arena ι whole) (i j : ι) (x : Set α) : Arena ι whole :=
  (A.drop i x).add j (A.piece i ∩ x) (Set.inter_subset_left.trans (A.subset i)) fun k => by
    unfold drop
    dsimp only
    split
    · exact Set.disjoint_sdiff_left.mono_right Set.inter_subset_right
    · rename_i hk
      exact (A.separate k i hk).mono_right Set.inter_subset_left

/-- The effect of one call. -/
inductive Step : Arena ι whole → Arena ι whole → Prop
  | idle (A : Arena ι whole) : Step A A
  | move (A : Arena ι whole) (i j : ι) (x : Set α) : Step A (A.move i j x)
  | drop (A : Arena ι whole) (i : ι) (x : Set α) : Step A (A.drop i x)

/-- Every element is in some slot: nothing has been lost. -/
def Full (A : Arena ι whole) : Prop := ∀ a ∈ whole, ∃ i, a ∈ A.piece i

lemma Full.move {A : Arena ι whole} (h : A.Full) (i j : ι) (x : Set α) : (A.move i j x).Full := by
  intro a ha
  obtain ⟨k, hk⟩ := h a ha
  unfold Arena.move Arena.add Arena.drop
  by_cases hx : k = i ∧ a ∈ x
  · obtain ⟨rfl, hx⟩ := hx
    refine ⟨j, ?_⟩
    dsimp only
    rw [if_pos rfl]
    exact Or.inr ⟨hk, hx⟩
  · -- the element stays in its slot, which may have gained others
    have hd : a ∈ if k = i then A.piece k \ x else A.piece k := by
      split
      · rename_i hki
        exact ⟨hk, fun hax => hx ⟨hki, hax⟩⟩
      · exact hk
    refine ⟨k, ?_⟩
    dsimp only
    by_cases hkj : k = j
    · rw [if_pos hkj]
      exact Or.inl hd
    · rw [if_neg hkj]
      exact hd

end Arena

/-! ### Intervals that do not touch -/

/-- Intervals that fill an interval without two of them touching are one. -/
lemma exists_whole_interval (lo len : ι → ℕ) {a b : ℕ} (hab : a < b)
    (hin : ∀ i, Set.Ico (lo i) (lo i + len i) ⊆ Set.Ico a b)
    (hsep : ∀ i j, i ≠ j → Disjoint (Set.Ico (lo i) (lo i + len i)) (Set.Ico (lo j) (lo j + len j)))
    (hfill : ∀ x ∈ Set.Ico a b, ∃ i, x ∈ Set.Ico (lo i) (lo i + len i))
    (hapart : ∀ i j, 0 < len i → 0 < len j → lo i + len i ≠ lo j) :
    ∃ i, lo i = a ∧ len i = b - a := by
  obtain ⟨i, hi⟩ := hfill a ⟨le_refl a, hab⟩
  have hpos : 0 < len i := by have := hi.1.trans_lt hi.2; omega
  have hlo : lo i = a := le_antisymm hi.1 (hin i ⟨le_refl _, by omega⟩).1
  have hlast := (hin i ⟨(by omega : lo i ≤ lo i + len i - 1), by omega⟩).2
  refine ⟨i, hlo, ?_⟩
  by_contra hne
  -- the element after the interval starts another one, which touches it
  obtain ⟨j, hj⟩ := hfill (lo i + len i) ⟨by omega, by omega⟩
  have hposj : 0 < len j := by have := hj.1.trans_lt hj.2; omega
  have hij : i ≠ j := by
    rintro rfl
    exact lt_irrefl _ hj.2
  refine hapart i j hpos hposj (le_antisymm ?_ hj.1)
  by_contra hlt
  have hi' : lo i + len i - 1 ∈ Set.Ico (lo i) (lo i + len i) := ⟨by omega, by omega⟩
  have hj' : lo i + len i - 1 ∈ Set.Ico (lo j) (lo j + len j) := ⟨by omega, by have := hj.2; omega⟩
  exact Set.disjoint_left.mp (hsep i j hij) hi' hj'

end FlameOS.Slots
