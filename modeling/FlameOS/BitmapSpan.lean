import FlameOS.Handover
import FlameOS.BootMemory
import Mathlib

/-!
The frame bitmap that the bootloader allocates and clears, against the bits that `phys_page_alloc`
goes through.

The bootloader counts the pages of the freemap, and takes a byte for 8 of them and a page for
32768. The kernel counts words of 32 bits.
-/

namespace FlameOS.BitmapSpan

open FlameOS.Word FlameOS.WordSet FlameOS.FrameAlloc FlameOS.BootMemory
open FlameOS.MemoryMap (Bytes MapInfo le)
open FlameOS.Bootloader (countPages)
open FlameOS.Handover (freemapOf length_pages countPages_eq)

/-! ### The walk with its log -/

/-- `allocRegion`, with the words and bits that it examines. -/
def tracedRegion (bmap : ℕ → ℕ) :
    ℕ → ℕ → ℕ → ℕ → ((ℕ × ℕ × ℕ) ⊕ (ℕ × ℕ)) × List (ℕ × ℕ)
  | 0, _, h, bit => (.inr (h, bit), [])
  | pages + 1, addr, h, bit =>
    if bmap h &&& 1 <<< bit ≠ 0 then
      let r := tracedRegion bmap pages (add64 addr PAGE_SIZE) (nextBit h bit).1 (nextBit h bit).2
      (r.1, (h, bit) :: r.2)
    else (.inl (addr, h, bit), [(h, bit)])

def tracedRegions (bmap : ℕ → ℕ) : List MemoryT → ℕ → ℕ → Option (ℕ × ℕ × ℕ) × List (ℕ × ℕ)
  | [], _, _ => (none, [])
  | r :: rs, h, bit =>
    match tracedRegion bmap r.blocks r.addr h bit with
    | (.inl found, examined) => (some found, examined)
    | (.inr (h, bit), examined) =>
      ((tracedRegions bmap rs h bit).1, examined ++ (tracedRegions bmap rs h bit).2)

/-- The words and bits that `phys_page_alloc` examines. -/
def examined (f : Freemap) (bmap : ℕ → ℕ) : List (ℕ × ℕ) :=
  (tracedRegions bmap (f.regions f.fmDescs) 0 0).2

variable {bmap : ℕ → ℕ} {n addr h bit k a : ℕ} {e : ℕ × ℕ} {rs : List MemoryT}

lemma tracedRegion_fst (bmap : ℕ → ℕ) (n addr h bit : ℕ) :
    (tracedRegion bmap n addr h bit).1 = allocRegion bmap n addr h bit := by
  induction n generalizing addr h bit with
  | zero => rfl
  | succ n ih =>
    rw [tracedRegion, allocRegion]
    split
    · exact ih _ _ _
    · rfl

lemma tracedRegions_fst (bmap : ℕ → ℕ) (rs : List MemoryT) (h bit : ℕ) :
    (tracedRegions bmap rs h bit).1 = allocRegions bmap rs h bit := by
  induction rs generalizing h bit with
  | nil => rfl
  | cons r rs ih =>
    rw [tracedRegions, allocRegions, ← tracedRegion_fst]
    rcases tracedRegion bmap r.blocks r.addr h bit with ⟨found | ⟨h', bit'⟩, log⟩
    · rfl
    · exact ih h' bit'

lemma tracedRegion_mem (he : e ∈ (tracedRegion bmap n addr (k / 32) (k % 32)).2) :
    ∃ j, k ≤ j ∧ j < k + n ∧ e = (j / 32, j % 32) := by
  induction n generalizing addr k with
  | zero => exact absurd he List.not_mem_nil
  | succ n ih =>
    rw [tracedRegion, nextBit_div_mod] at he
    split at he
    · rcases List.mem_cons.mp he with rfl | he
      · exact ⟨k, le_rfl, by omega, rfl⟩
      · obtain ⟨j, hj, hlt, rfl⟩ := ih he
        exact ⟨j, by omega, by omega, rfl⟩
    · exact ⟨k, le_rfl, by omega, List.mem_singleton.mp he⟩

lemma tracedRegions_mem (he : e ∈ (tracedRegions bmap rs (k / 32) (k % 32)).2) :
    ∃ j, k ≤ j ∧ j < k + (rs.map MemoryT.blocks).sum ∧ e = (j / 32, j % 32) := by
  induction rs generalizing k with
  | nil => exact absurd he List.not_mem_nil
  | cons r rs ih =>
    rw [List.map_cons, List.sum_cons]
    have hmem : ∀ e ∈ (tracedRegion bmap r.blocks r.addr (k / 32) (k % 32)).2,
        ∃ j, k ≤ j ∧ j < k + r.blocks ∧ e = (j / 32, j % 32) := fun _ he => tracedRegion_mem he
    have hnext := (tracedRegion_fst bmap r.blocks r.addr (k / 32) (k % 32)).trans
      (allocRegion_eq bmap r.blocks r.addr k)
    rw [tracedRegions] at he
    rcases htr : tracedRegion bmap r.blocks r.addr (k / 32) (k % 32) with
      ⟨found | ⟨h', bit'⟩, log⟩
    · rw [htr] at he hmem
      obtain ⟨j, hj, hlt, rfl⟩ := hmem e he
      exact ⟨j, hj, by omega, rfl⟩
    · rw [htr] at he hmem hnext
      -- the next region starts where this one ends
      have hstart : h' = (k + r.blocks) / 32 ∧ bit' = (k + r.blocks) % 32 := by
        rcases hfree : firstFree bmap (pagesFrom r.blocks r.addr) k with _ | ⟨a, j⟩
        · rw [hfree] at hnext
          exact Prod.mk.inj (Sum.inr.inj hnext)
        · rw [hfree] at hnext
          cases hnext
      obtain ⟨rfl, rfl⟩ := hstart
      rcases List.mem_append.mp he with he | he
      · obtain ⟨j, hj, hlt, rfl⟩ := hmem e he
        exact ⟨j, hj, by omega, rfl⟩
      · obtain ⟨j, hj, hlt, rfl⟩ := ih he
        exact ⟨j, by omega, by omega, rfl⟩

lemma tracedRegion_found (hf : (tracedRegion bmap n addr h bit).1 = .inl (a, e)) :
    e ∈ (tracedRegion bmap n addr h bit).2 := by
  induction n generalizing addr h bit with
  | zero => cases hf
  | succ n ih =>
    rw [tracedRegion] at hf ⊢
    split at hf
    · rename_i hbit
      rw [if_pos hbit]
      exact List.mem_cons_of_mem _ (ih hf)
    · rename_i hbit
      cases hf
      rw [if_neg hbit]
      exact List.mem_cons_self

/-- The bit that is set is the last one examined. -/
lemma tracedRegions_found (hf : (tracedRegions bmap rs h bit).1 = some (a, e)) :
    e ∈ (tracedRegions bmap rs h bit).2 := by
  induction rs generalizing h bit with
  | nil => cases hf
  | cons r rs ih =>
    have hmem : (tracedRegion bmap r.blocks r.addr h bit).1 = .inl (a, e) →
        e ∈ (tracedRegion bmap r.blocks r.addr h bit).2 := tracedRegion_found
    rw [tracedRegions] at hf ⊢
    rcases htr : tracedRegion bmap r.blocks r.addr h bit with ⟨found | ⟨h', bit'⟩, log⟩
    · rw [htr] at hf hmem
      obtain rfl := Option.some.inj hf
      exact hmem rfl
    · rw [htr] at hf
      exact List.mem_append_right _ (ih hf)

lemma examined_mem {f : Freemap} (he : e ∈ examined f bmap) :
    ∃ j < ((f.regions f.fmDescs).map MemoryT.blocks).sum, e = (j / 32, j % 32) := by
  obtain ⟨j, -, hlt, rfl⟩ := tracedRegions_mem (k := 0) he
  exact ⟨j, by rwa [Nat.zero_add] at hlt, rfl⟩

lemma physPageAlloc_examined {f : Freemap} (hne : (physPageAlloc f bmap).2 h ≠ bmap h) :
    ∃ bit, (h, bit) ∈ examined f bmap ∧ (physPageAlloc f bmap).2 h = bmap h ||| 1 <<< bit := by
  unfold physPageAlloc at hne ⊢
  rcases hf : allocRegions bmap (f.regions f.fmDescs) 0 0 with _ | ⟨a, h', bit⟩
  · rw [hf] at hne
    exact absurd rfl hne
  · rw [hf] at hne
    dsimp only at hne ⊢
    by_cases hh : h = h'
    · subst hh
      refine ⟨bit, ?_, Function.update_self ..⟩
      exact tracedRegions_found ((tracedRegions_fst bmap _ 0 0).trans hf)
    · rw [Function.update_of_ne hh] at hne
      exact absurd rfl hne

/-! ### The bitmap in memory -/

lemma testBit_le (b : Bytes) {n off i : ℕ} (hi : i < 8 * n) :
    (le b n off).testBit i = (b (off + i / 8)).toNat.testBit (i % 8) := by
  induction n generalizing off i with
  | zero => exact absurd hi (Nat.not_lt_zero i)
  | succ n ih =>
    have hbyte : (b off).toNat < 2 ^ 8 := (b off).toNat_lt
    have hsplit : le b (n + 1) off = 2 ^ 8 * le b n (off + 1) + (b off).toNat := by
      rw [le, Nat.add_comm]
      rfl
    rw [hsplit, Nat.testBit_two_pow_mul_add _ hbyte]
    by_cases h8 : i < 8
    · rw [if_pos h8, Nat.div_eq_of_lt h8, Nat.mod_eq_of_lt h8, Nat.add_zero]
    · have hdiv : off + 1 + (i - 8) / 8 = off + i / 8 := by omega
      have hmod : (i - 8) % 8 = i % 8 := by omega
      rw [if_neg h8, ih (by omega), hdiv, hmod]

/-- The words of the bitmap at `mbAddr`, as the kernel reads them. -/
def bmapAt (m : Bytes) (mbAddr : ℕ) : ℕ → ℕ := fun h => le m 4 (mbAddr + 4 * h)

lemma used_bmapAt (m : Bytes) (mbAddr k : ℕ) :
    used (bmapAt m mbAddr) k = (m (mbAddr + k / 8)).toNat.testBit (k % 8) := by
  have hbyte : mbAddr + 4 * (k / 32) + k % 32 / 8 = mbAddr + k / 8 := by omega
  have hbit : k % 32 % 8 = k % 8 := by omega
  have h32 : k % 32 < 8 * 4 := Nat.mod_lt k (by decide)
  change (le m 4 (mbAddr + 4 * (k / 32))).testBit (k % 32) = _
  rw [testBit_le m h32, hbyte, hbit]

/-- The bytes that the bootloader clears, and the words of the kernel, are in the pages. -/
lemma ceilings {pages : ℕ} (hlt : pages < 2 ^ 52) :
    CEILING pages 8 ≤ PAGE_SIZE * CEILING pages 32768 ∧
      ∀ j < pages, 4 * (j / 32) + 4 ≤ PAGE_SIZE * CEILING pages 32768 ∧ j / 8 < CEILING pages 8 := by
  unfold CEILING PAGE_SIZE
  rw [Nat.mod_eq_of_lt (by omega), Nat.mod_eq_of_lt (by omega)]
  refine ⟨by omega, fun j hj => ⟨by omega, by omega⟩⟩

/-- **The bitmap is large enough and starts clear.** Whatever bits are set, `phys_page_alloc`
examines bits of the pages of the freemap only, in words that lie in the pages of the bitmap, and
sets one that it has examined. The bootloader clears bytes of these pages only, and if they are
not stored to afterwards then the kernel finds no page in use. -/
theorem bitmap_spans (info : MapInfo)
    (hpages : ((List.range info.fmDescs).map fun i => (info.freemap i).blocks).sum < 2 ^ 52)
    (mbAddr : ℕ) (hmb : mbAddr + PAGE_SIZE * CEILING (countPages info) 32768 ≤ 2 ^ 64) :
    (∀ bmap, ∀ e ∈ examined (freemapOf info) bmap, e.2 < 32 ∧ 32 * e.1 + e.2 < countPages info ∧
        4 * e.1 + 4 ≤ PAGE_SIZE * CEILING (countPages info) 32768) ∧
      (∀ bmap h, (physPageAlloc (freemapOf info) bmap).2 h ≠ bmap h →
        ∃ bit, (h, bit) ∈ examined (freemapOf info) bmap ∧
          (physPageAlloc (freemapOf info) bmap).2 h = bmap h ||| 1 <<< bit) ∧
      ∀ m : Bytes,
        (∀ a ∈ (memzero (CEILING (countPages info) 8) mbAddr ⟨m, []⟩).stores,
          mbAddr ≤ a ∧ a < mbAddr + PAGE_SIZE * CEILING (countPages info) 32768) ∧
        ∀ m' : Bytes, (∀ x, mbAddr ≤ x →
            x < mbAddr + PAGE_SIZE * CEILING (countPages info) 32768 →
            m' x = (memzero (CEILING (countPages info) 8) mbAddr ⟨m, []⟩).mem x) →
          ∀ k < countPages info, used (bmapAt m' mbAddr) k = false := by
  have hcount : countPages info =
      ((List.range info.fmDescs).map fun i => (info.freemap i).blocks).sum := by
    rw [countPages_eq (by rw [length_pages]; omega), length_pages]
  have hblocks : (((freemapOf info).regions (freemapOf info).fmDescs).map MemoryT.blocks).sum =
      countPages info := by
    rw [hcount, Freemap.regions, List.map_map]
    rfl
  rw [← hcount] at hpages
  obtain ⟨hbytes, hword⟩ := ceilings hpages
  refine ⟨fun bmap e he => ?_, fun bmap h hne => physPageAlloc_examined hne, fun m => ?_⟩
  · obtain ⟨j, hj, rfl⟩ := examined_mem he
    rw [hblocks] at hj
    exact ⟨Nat.mod_lt j (by decide), by dsimp only; omega, (hword j hj).1⟩
  · have hzero : Stored ⟨m, []⟩ (memzero (CEILING (countPages info) 8) mbAddr ⟨m, []⟩) mbAddr
        (CEILING (countPages info) 8) fun _ => 0 := by
      rcases Nat.eq_zero_or_pos (CEILING (countPages info) 8) with h0 | hpos
      · rw [h0]
        exact Stored.zero _ _ _
      · have h := memzero_stored (d := mbAddr) (n := CEILING (countPages info) 8) (by omega) ⟨m, []⟩
        rwa [Nat.mod_eq_of_lt (by omega)] at h
    refine ⟨fun a ha => ?_, fun m' hm' k hk => ?_⟩
    · rcases hzero.stores a ha with ha | ha
      · exact absurd ha List.not_mem_nil
      · omega
    · have hlt := (hword k hk).2
      rw [used_bmapAt, hm' _ (by omega) (by omega), hzero.mem_of_mem hlt]
      exact Nat.zero_testBit _

/-- Three regions of free memory with 40000 pages in all, one of them empty. -/
theorem bitmap_spans_three :
    let info : MapInfo := ⟨fun _ => 0, 3, 3,
      fun i => ⟨0x100000 * (i + 1), if i = 0 then 1 else if i = 1 then 0 else 39999⟩⟩
    (∀ bmap, ∀ e ∈ examined (freemapOf info) bmap, e.2 < 32 ∧ 32 * e.1 + e.2 < countPages info ∧
        4 * e.1 + 4 ≤ PAGE_SIZE * CEILING (countPages info) 32768) ∧
      (∀ bmap h, (physPageAlloc (freemapOf info) bmap).2 h ≠ bmap h →
        ∃ bit, (h, bit) ∈ examined (freemapOf info) bmap ∧
          (physPageAlloc (freemapOf info) bmap).2 h = bmap h ||| 1 <<< bit) ∧
      ∀ m : Bytes,
        (∀ a ∈ (memzero (CEILING (countPages info) 8) 0x80000 ⟨m, []⟩).stores,
          0x80000 ≤ a ∧ a < 0x80000 + PAGE_SIZE * CEILING (countPages info) 32768) ∧
        ∀ m' : Bytes, (∀ x, 0x80000 ≤ x →
            x < 0x80000 + PAGE_SIZE * CEILING (countPages info) 32768 →
            m' x = (memzero (CEILING (countPages info) 8) 0x80000 ⟨m, []⟩).mem x) →
          ∀ k < countPages info, used (bmapAt m' 0x80000) k = false :=
  bitmap_spans _ (by decide) 0x80000 (by decide)

end FlameOS.BitmapSpan
