import FlameOS.FrameRun

/-!
`phys_page_free` for an address that is not a page of the freemap.

The loop runs over `mm_descs` entries, and the freemap has `fm_descs`. What lies behind the
last one is taken for more regions, and the bits of their pages come after those of the
freemap.
-/

namespace FlameOS.ForeignFree

open FlameOS.Word FlameOS.FrameAlloc FlameOS.FrameRun

variable {f : Freemap} {addr k : ℕ} {as : List ℕ}

/-- The word and the bit of `pmem_bmap` that `phys_page_free` clears. -/
def clearedBit (f : Freemap) (addr : ℕ) : Option (ℕ × ℕ) :=
  if addr % PAGE_SIZE ≠ 0 then none else freeRegions addr (f.regions f.mmDescs) 0 0

lemma physPageFree_clearedBit (bmap : ℕ → ℕ) :
    physPageFree f addr bmap =
      match clearedBit f addr with
      | some (h, bit) =>
        Function.update bmap h (bmap h &&& ((2 ^ BITS_PER_ELEMENT - 1) ^^^ 1 <<< bit))
      | none => bmap := by
  unfold physPageFree clearedBit
  split
  · rfl
  · rfl

def stalePages (f : Freemap) : List ℕ :=
  ((List.range (f.mmDescs - f.fmDescs)).map fun i => f.freemap (f.fmDescs + i)).flatMap regionPages

lemma pages_stalePages (h : f.fmDescs ≤ f.mmDescs) :
    (f.regions f.mmDescs).flatMap regionPages = f.pages ++ stalePages f := by
  obtain ⟨d, hd⟩ := Nat.exists_eq_add_of_le h
  rw [Freemap.pages, stalePages, ← List.flatMap_append, hd, Nat.add_sub_cancel_left]
  simp [Freemap.regions, List.range_add, Function.comp_def]

lemma exists_pageNumber (h : addr ∈ as) : ∃ j, pageNumber addr as k = some j := by
  induction as generalizing k with
  | nil => exact absurd h List.not_mem_nil
  | cons a as ih =>
    rw [pageNumber]
    by_cases ha : a = addr
    · exact ⟨k, if_pos ha⟩
    · rw [if_neg ha]
      exact ih ((List.mem_cons.mp h).resolve_left (Ne.symm ha))

lemma clearedBit_eq (hal : addr % PAGE_SIZE = 0) :
    clearedBit f addr =
      (pageNumber addr ((f.regions f.mmDescs).flatMap regionPages) 0).map
        fun j => (j / 32, j % 32) := by
  have h := freeRegions_eq addr (f.regions f.mmDescs) 0
  rw [Nat.zero_div, Nat.zero_mod] at h
  rw [clearedBit, if_neg (not_not.mpr hal), h]

/-- For a foreign address no bit is cleared, unless the address is a page of a stale region. -/
lemma clearedBit_eq_none (hmm : f.fmDescs ≤ f.mmDescs) (ha : addr ∉ f.pages)
    (h : addr % PAGE_SIZE ≠ 0 ∨ addr ∉ stalePages f) : clearedBit f addr = none := by
  by_cases hal : addr % PAGE_SIZE = 0
  · have hstale := h.resolve_left (not_not.mpr hal)
    rw [clearedBit_eq hal, pages_stalePages hmm, pageNumber_none, Option.map_none]
    rw [List.mem_append, not_or]
    exact ⟨ha, hstale⟩
  · exact if_pos hal

/-- The bit of a page of a stale region is behind those of the freemap. -/
lemma clearedBit_stale (hmm : f.fmDescs ≤ f.mmDescs) (ha : addr ∉ f.pages)
    (hal : addr % PAGE_SIZE = 0) (hstale : addr ∈ stalePages f) :
    ∃ h bit, clearedBit f addr = some (h, bit) ∧ f.pages.length ≤ h * BITS_PER_ELEMENT + bit := by
  obtain ⟨j, hj⟩ := exists_pageNumber (k := 0 + f.pages.length) hstale
  have hle := pageNumber_le hj
  refine ⟨j / 32, j % 32, ?_, ?_⟩
  · rw [clearedBit_eq hal, pages_stalePages hmm, pageNumber_append, pageNumber_none ha,
      Option.none_or, hj, Option.map_some]
  · unfold BITS_PER_ELEMENT
    omega

/-- **Foreign addresses.** A call of `phys_page_free` for an address that is not a page of the
freemap leaves the bitmap alone, and keeps to the bits of the freemap's pages, exactly if the
address is not page aligned or is not a page of a region that is read behind the freemap. -/
theorem physPageFree_ignores_iff (f : Freemap) (hmm : f.fmDescs ≤ f.mmDescs) (addr : ℕ)
    (ha : addr ∉ f.pages) (bmap : ℕ → ℕ) :
    (physPageFree f addr bmap = bmap ∧
      ∀ h bit, clearedBit f addr = some (h, bit) → h * BITS_PER_ELEMENT + bit < f.pages.length) ↔
    (addr % PAGE_SIZE ≠ 0 ∨ addr ∉ stalePages f) := by
  constructor
  · rintro ⟨-, hbits⟩
    by_contra hc
    rw [not_or, not_not, not_not] at hc
    obtain ⟨h, bit, hbit, hle⟩ := clearedBit_stale hmm ha hc.1 hc.2
    exact absurd (hbits h bit hbit) (Nat.not_lt.mpr hle)
  · intro h
    have hnone := clearedBit_eq_none hmm ha h
    refine ⟨?_, fun h bit hbit => ?_⟩
    · rw [physPageFree_clearedBit, hnone]
    · rw [hnone] at hbit
      cases hbit

def oneStale : Freemap where
  freemap := fun i => if i = 0 then ⟨0x1000, 2⟩ else ⟨0x8000, 1⟩
  fmDescs := 1
  mmDescs := 2

theorem physPageFree_ignores_iff_oneStale :
    physPageFree oneStale 0 (fun _ => 7) = (fun _ => 7) ∧
      ∀ h bit, clearedBit oneStale 0 = some (h, bit) →
        h * BITS_PER_ELEMENT + bit < oneStale.pages.length :=
  (physPageFree_ignores_iff oneStale (by decide) 0 (by decide) fun _ => 7).mpr (by decide)

/-- The bit of a page that the freemap does not have is cleared. -/
theorem not_physPageFree_ignores :
    oneStale.fmDescs ≤ oneStale.mmDescs ∧ 0x8000 ∉ oneStale.pages ∧
      oneStale.pages.length = 2 ∧ clearedBit oneStale 0x8000 = some (0, 2) ∧
      physPageFree oneStale 0x8000 (fun _ => 7) 0 = 3 := by
  decide

end FlameOS.ForeignFree
