import FlameOS.HeapSafety
import FlameOS.HeapExact

/-!
Which frames `free` gives back.

`phys_page_free` ignores an address within a page. So of the addresses `free` comes to only
these kinds count: the block's own address and its last byte, if they are the first of their
pages, and, if the block begins at a page, the addresses of its loop. Those of the first 2 GiB
lie between the two, those of the turns after them outside the block.
-/

namespace FlameOS.FreePages

open FlameOS.Word FlameOS.FrameAlloc FlameOS.FrameRun FlameOS.PageTable FlameOS.MapPage
open FlameOS.MapSpec FlameOS.MapRun FlameOS.HeapTable FlameOS.HeapArena FlameOS.Heap FlameOS.Boot
open FlameOS.Backing FlameOS.Aliasing FlameOS.HeapSafety FlameOS.HeapWhole FlameOS.Refresh
open FlameOS.Coalesce FlameOS.HeapExact

/-! ### The blocks of a reachable state -/

/-- No entry beyond the end of `allocations` is in use. -/
def InTable (t : Tables) : Prop := ∀ heap, ∀ k ≥ ALLOCATIONS, (t.allocations heap k).size = 0

variable {M : Machine} {t t' : Tables} {heap size addr k v : ℕ} {b c : MemT} {st : State}

lemma InTable.returnBlock (h : InTable t) (addr : ℕ) : InTable (returnBlock addr t).1 := by
  intro heap k hk
  rcases allocations_returnBlock addr t with he | ⟨heap', l, -, -, he⟩ <;> rw [he]
  · exact h heap k hk
  · rw [allocations_setAlloc]
    split
    · rfl
    · exact h heap k hk

lemma InTable.call (h : InTable st.tables) (c : Call) : InTable (call M c st).tables := by
  intro heap k hk
  cases c with
  | malloc size heap' =>
    rw [Heap.call, tables_mallocHeap]
    rcases takeBlock_cases size heap' st.tables with hr | ⟨-, -, i, -, hr | ⟨l, hl, hr⟩⟩ <;> rw [hr]
    · exact h heap k hk
    · exact h heap k hk
    · rw [allocations_setAlloc, if_neg]
      · exact h heap k hk
      · rintro ⟨-, rfl⟩
        exact absurd (findSlot_lt hl) (not_lt.mpr hk)
  | free addr =>
    rw [Heap.call, tables_free]
    exact h.returnBlock addr heap k hk

lemma InTable.run (h : InTable st.tables) (cs : List Call) : InTable (run M cs st).tables := by
  induction cs generalizing st with
  | nil => exact h
  | cons c cs ih => exact ih (h.call c)

lemma live_pos (h : Live t heap b) : 0 < b.size := by
  obtain ⟨k, rfl, hpos⟩ := h
  exact hpos

lemma exists_index (hr : InTable t) (hb : Live t heap b) :
    ∃ k < ALLOCATIONS, t.allocations heap k = b := by
  obtain ⟨k, rfl, hpos⟩ := hb
  refine ⟨k, ?_, rfl⟩
  by_contra hge
  have := hr heap k (not_lt.mp hge)
  omega

section blocks

variable (hs : Sound t) (hr : InTable t) (hheap : heap < HEAPS)

include hs hheap

lemma live_eq (hb : Live t heap b) (hc : Live t heap c) {a : ℕ} (hab : a ∈ bytes b)
    (hac : a ∈ bytes c) : b = c := by
  obtain ⟨A, hA⟩ := hs heap hheap
  obtain ⟨k, rfl, -⟩ := hb
  obtain ⟨l, rfl, -⟩ := hc
  by_contra hne
  have hkl : k ≠ l := by
    rintro rfl
    exact hne rfl
  have hsep := A.separate (.inl k) (.inl l) (by simpa using hkl)
  rw [hA.pieces, hA.pieces] at hsep
  exact Set.disjoint_left.mp hsep hab hac

lemma within_live (hb : Live t heap b) :
    4096 ≤ b.addr ∧ heapBase heap ≤ b.addr ∧ ends b ≤ heapLimit heap ∧ ends b < 2 ^ 47 := by
  have h := hs.within hheap hb
  have h1 : 4096 ≤ heapBase heap ∧ heapLimit heap < 2 ^ 47 := by
    unfold heapBase heapLimit kernelHeap kernelStack userspaceHeap userspaceStack
    split <;> omega
  unfold ends
  omega

lemma separated_of_sound : Separated t heap := by
  obtain ⟨A, hA⟩ := hs heap hheap
  have hsep : ∀ x y, x ≠ y → Disjoint (piece t heap x) (piece t heap y) := by
    intro x y hxy
    have := A.separate x y hxy
    rwa [hA.pieces, hA.pieces] at this
  have hlim := limit_lt heap
  have hblock : ∀ k, (t.allocations heap k).addr < 2 ^ 64 := by
    intro k
    by_cases hz : (t.allocations heap k).size = 0
    · rw [hA.clear k hz]
      exact Nat.two_pow_pos 64
    · have := hA.alloc_within (Nat.pos_of_ne_zero hz)
      omega
  refine ⟨⟨fun k _ => hA.alloc_within, fun k _ l _ hkl => ?_, fun k _ => hblock k⟩,
    ⟨fun i _ => hA.free_within, fun i _ j _ hij => ?_, fun i _ => ?_⟩, fun k _ i _ => ?_⟩
  · exact hsep (.inl k) (.inl l) (by simpa using hkl)
  · exact hsep (.inr i) (.inr j) (by simpa using hij)
  · have := hA.bound i
    omega
  · exact hsep (.inl k) (.inr i) (by simp)

include hr

lemma findAlloc_live (hb : Live t heap b) :
    heapOf b.addr = some heap ∧
      ∃ k, findAlloc t heap b.addr = some k ∧ t.allocations heap k = b := by
  obtain ⟨h1, h2, h3, -⟩ := within_live hs hheap hb
  have hpos := live_pos hb
  refine ⟨heapOf_eq hheap h2 (by unfold ends at h3; omega), ?_⟩
  obtain ⟨l, hlt, hl⟩ := exists_index hr hb
  obtain ⟨k, hk⟩ : ∃ k, findAlloc t heap b.addr = some k := by
    rw [← Option.isSome_iff_exists, findAlloc, List.find?_isSome]
    exact ⟨l, List.mem_range.mpr hlt, by rw [hl]; simp⟩
  refine ⟨k, hk, ?_⟩
  obtain ⟨A, hA⟩ := hs heap hheap
  obtain ⟨ha, hsize⟩ := hA.pos_of_findAlloc (by omega) hk
  exact live_eq hs hheap ⟨k, rfl, hsize⟩ hb (ha ▸ start_mem hsize) (start_mem hpos)

/-- What `free` of a live block does: the entry goes, and the pages are come to if some entry
of `freespace` takes the block. -/
lemma returnBlock_live (hb : Live t heap b) : ∃ k, t.allocations heap k = b ∧
    (returnBlock b.addr t).1.allocations = (t.setAlloc heap k ⟨0, 0⟩).allocations ∧
    ∀ v, v ∈ freedAddrs b.addr t ↔ (∃ i < FREE_SPACES, Takes (t.freespace heap i) b) ∧
      v ∈ releaseAddrs (returnBlock b.addr t).1 heap b.addr b.size := by
  obtain ⟨hh, k, hk, rfl⟩ := findAlloc_live hs hr hheap hb
  obtain ⟨-, -, -, hlt⟩ := within_live hs hheap hb
  have htakes := (separated_of_sound hs hheap).takes_iff
    (by omega : ends (t.allocations heap k) < 2 ^ 64)
  have htaken : (∃ i < FREE_SPACES, Takes (t.freespace heap i) (t.allocations heap k)) ↔
      giveBack (t.allocations heap k).addr (t.allocations heap k).size heap
        (t.setAlloc heap k ⟨0, 0⟩) ≠ none := by
    rw [htakes, Ne, giveBack_eq_none_iff, findNeighbour_setAlloc, findEmpty_setAlloc]
  refine ⟨k, rfl, ?_⟩
  rcases hg : giveBack (t.allocations heap k).addr (t.allocations heap k).size heap
    (t.setAlloc heap k ⟨0, 0⟩) with _ | t'
  · have hret : returnBlock (t.allocations heap k).addr t = (t.setAlloc heap k ⟨0, 0⟩, none) := by
      simp only [returnBlock, hh, hk, hg]
    have hno : ¬ ∃ i < FREE_SPACES, Takes (t.freespace heap i) (t.allocations heap k) := by
      rw [htaken, not_not]
      exact hg
    rw [freedAddrs, hret]
    exact ⟨rfl, fun v => ⟨fun hv => absurd hv List.not_mem_nil, fun hv => absurd hv.1 hno⟩⟩
  · have hret : returnBlock (t.allocations heap k).addr t =
        (t', some (heap, (t.allocations heap k).size)) := by
      simp only [returnBlock, hh, hk, hg]
    have hyes : ∃ i < FREE_SPACES, Takes (t.freespace heap i) (t.allocations heap k) := by
      rw [htaken, hg]
      exact Option.some_ne_none t'
    obtain ⟨i, e, rfl, -⟩ := giveBack_cases hg
    rw [freedAddrs, hret]
    exact ⟨rfl, fun v => ⟨fun hv => ⟨hyes, hv⟩, And.right⟩⟩

lemma live_returnBlock (hb : Live t heap b) (h : ℕ) (c : MemT) :
    Live (returnBlock b.addr t).1 h c ↔ Live t h c ∧ (h ≠ heap ∨ c ≠ b) := by
  obtain ⟨k, hk, hall, -⟩ := returnBlock_live hs hr hheap hb
  unfold Live
  rw [hall]
  constructor
  · rintro ⟨l, rfl, hpos⟩
    rw [allocations_setAlloc] at hpos ⊢
    split at hpos
    · exact absurd hpos (Nat.lt_irrefl 0)
    · rename_i hc
      rw [if_neg hc]
      refine ⟨⟨l, rfl, hpos⟩, ?_⟩
      by_cases hh : h = heap
      · subst hh
        refine Or.inr fun hlb => hc ⟨rfl, ?_⟩
        obtain ⟨A, hA⟩ := hs h hheap
        by_contra hlk
        have hsep := A.separate (.inl l) (.inl k) (by simpa using hlk)
        rw [hA.pieces, hA.pieces] at hsep
        refine Set.disjoint_left.mp hsep (start_mem hpos) ?_
        rw [piece, hk, ← hlb]
        exact start_mem hpos
      · exact Or.inl hh
  · rintro ⟨⟨l, rfl, hpos⟩, hne⟩
    refine ⟨l, ?_, hpos⟩
    rw [allocations_setAlloc, if_neg]
    rintro ⟨rfl, rfl⟩
    exact hne.elim (fun h => h rfl) fun h => h hk

end blocks

/-! ### The addresses that count -/

/-- A block of the heap other than `b` ends in the page. -/
def EndsIn (t : Tables) (heap : ℕ) (b : MemT) (q : ℕ) : Prop :=
  ∃ c, Live t heap c ∧ c ≠ b ∧ (ends c - 1) / PAGE_SIZE = q

/-- A block of the heap other than `b` starts in the page. -/
def StartsIn (t : Tables) (heap : ℕ) (b : MemT) (q : ℕ) : Prop :=
  ∃ c, Live t heap c ∧ c ≠ b ∧ c.addr / PAGE_SIZE = q

/-- `free` of the block comes to the start `v` of one of its pages: some entry of `freespace`
takes the block, and `v` is its address, and no other block ends in the page; or its last byte,
and no other block starts in the page; or lies between, within 2 GiB of the block's address,
with that address at a page too. -/
def ComesWithin (t : Tables) (heap : ℕ) (b : MemT) (v : ℕ) : Prop :=
  v % PAGE_SIZE = 0 ∧ (∃ i < FREE_SPACES, Takes (t.freespace heap i) b) ∧
    (v = b.addr ∧ ¬ EndsIn t heap b (v / PAGE_SIZE) ∨
      v = ends b - 1 ∧ ¬ StartsIn t heap b (v / PAGE_SIZE) ∨
      b.addr % PAGE_SIZE = 0 ∧ b.addr < v ∧ v / PAGE_SIZE < (ends b - 1) / PAGE_SIZE ∧
        v < b.addr + 0x80000000)

/-- `free` of the block comes to `v` in a turn for which `i * PAGE_SIZE` has wrapped. -/
def ComesBelow (t : Tables) (heap : ℕ) (b : MemT) (v : ℕ) : Prop :=
  (∃ i < FREE_SPACES, Takes (t.freespace heap i) b) ∧ b.addr % PAGE_SIZE = 0 ∧
    ∃ i ≥ 524288, b.addr / PAGE_SIZE + i < (ends b - 1) / PAGE_SIZE ∧ v = turnAddr b.addr i

/-- `free` of the block comes to the start `v` of a page. -/
def ComesTo (t : Tables) (heap : ℕ) (b : MemT) (v : ℕ) : Prop :=
  ComesWithin t heap b v ∨ ComesBelow t heap b v

lemma turnAddr_mod (addr i : ℕ) : turnAddr addr i % PAGE_SIZE = addr % PAGE_SIZE := by
  unfold turnAddr add64 intOffset PAGE_SIZE
  split <;> omega

lemma lastByte_eq (hpos : 0 < size) (hlt : addr + size < 2 ^ 63) :
    lastByte addr size = addr + size - 1 := by
  rw [lastByte, add64_eq (by omega), sub64_eq (by omega) (by omega)]

lemma mem_ite_singleton {p : Prop} [Decidable p] {a : ℕ} :
    v ∈ (if p then [] else [a]) ↔ v = a ∧ ¬ p := by
  split
  · rename_i hp
    simp [hp]
  · rename_i hp
    simp [hp]

lemma mem_tail_range {n i : ℕ} : i ∈ (List.range n).tail ↔ 0 < i ∧ i < n := by
  cases n with
  | zero => simp
  | succ n =>
    rw [List.range_succ_eq_map, List.tail_cons, List.mem_map]
    constructor
    · rintro ⟨j, hj, rfl⟩
      have := List.mem_range.mp hj
      omega
    · rintro ⟨h0, hi⟩
      exact ⟨i - 1, List.mem_range.mpr (by omega), by omega⟩

/-- The turns that come to the start of a page: those in which `i * PAGE_SIZE` has not wrapped, and
those in which it has. -/
lemma turns_iff {b : MemT} (hpos : 0 < b.size) (hlt : b.addr + b.size < 2 ^ 63) :
    ((∃ i, 0 < i ∧ i < sub64 (pageCount b.addr b.size) 1 ∧ turnAddr b.addr i = v) ∧
        v % PAGE_SIZE = 0) ↔
      (b.addr % PAGE_SIZE = 0 ∧ b.addr < v ∧ v / PAGE_SIZE < (ends b - 1) / PAGE_SIZE ∧
        v < b.addr + 0x80000000 ∧ v % PAGE_SIZE = 0) ∨
      b.addr % PAGE_SIZE = 0 ∧
        ∃ i ≥ 524288, b.addr / PAGE_SIZE + i < (ends b - 1) / PAGE_SIZE ∧ v = turnAddr b.addr i := by
  rw [pageCount_eq (by omega), sub64_eq (by omega) (by omega)]
  constructor
  · rintro ⟨⟨i, hi0, hi, rfl⟩, hv⟩
    rw [turnAddr_mod] at hv
    by_cases hlow : i < 524288
    · left
      rw [turnAddr_eq hlow (by unfold PAGE_SIZE; omega)]
      unfold ends PAGE_SIZE at *
      omega
    · refine Or.inr ⟨hv, i, not_lt.mp hlow, ?_, rfl⟩
      unfold ends PAGE_SIZE
      omega
  · rintro (⟨ha, hav, hve, hvl, hv⟩ | ⟨ha, i, hi, hlt', rfl⟩)
    · unfold ends PAGE_SIZE at *
      refine ⟨⟨v / 4096 - b.addr / 4096, by omega, by omega, ?_⟩, hv⟩
      rw [turnAddr_eq (by omega) (by unfold PAGE_SIZE; omega)]
      unfold PAGE_SIZE
      omega
    · refine ⟨⟨i, by omega, ?_, rfl⟩, (turnAddr_mod b.addr i).trans ha⟩
      unfold ends PAGE_SIZE at hlt'
      omega

section counts

variable (hs : Sound t) (hr : InTable t) (hheap : heap < HEAPS)

include hs hheap

lemma live_or_clear (k : ℕ) : Live t heap (t.allocations heap k) ∨
    t.allocations heap k = ⟨0, 0⟩ := by
  obtain ⟨A, hA⟩ := hs heap hheap
  rcases Nat.eq_zero_or_pos (t.allocations heap k).size with hz | hpos
  · have ha := hA.clear k hz
    right
    generalize t.allocations heap k = e at ha hz
    cases e
    simp_all
  · exact Or.inl ⟨k, rfl, hpos⟩

include hr

/-- A search through `allocations` for what the unused entries do not have. -/
lemma any_allocations_iff (P : MemT → Prop) [DecidablePred P] (h0 : ¬ P ⟨0, 0⟩) :
    (List.range ALLOCATIONS).any (fun i => decide (P (t.allocations heap i))) = true ↔
      ∃ c, Live t heap c ∧ P c := by
  rw [List.any_eq_true]
  constructor
  · rintro ⟨k, -, hk⟩
    rw [decide_eq_true_iff] at hk
    rcases live_or_clear hs hheap k with hl | hz
    · exact ⟨_, hl, hk⟩
    · rw [hz] at hk
      exact absurd hk h0
  · rintro ⟨c, hc, hp⟩
    obtain ⟨k, hkt, hk⟩ := exists_index hr hc
    exact ⟨k, List.mem_range.mpr hkt, by rw [decide_eq_true_iff, hk]; exact hp⟩

lemma sused_iff (haddr : addr < 2 ^ 63) : sused t heap addr = true ↔
    ∃ c, Live t heap c ∧ (ends c - 1) / PAGE_SIZE = addr / PAGE_SIZE := by
  have h0 : ¬ addr / PAGE_SIZE * PAGE_SIZE = lastByte 0 0 / PAGE_SIZE * PAGE_SIZE := by
    have hlast : lastByte 0 0 = 2 ^ 64 - 1 := by decide
    unfold PAGE_SIZE
    rw [hlast]
    omega
  refine (any_allocations_iff hs hr hheap (fun c => addr / PAGE_SIZE * PAGE_SIZE =
    lastByte c.addr c.size / PAGE_SIZE * PAGE_SIZE) h0).trans (exists_congr fun c => ?_)
  refine and_congr_right fun hl => ?_
  obtain ⟨-, -, -, hlt⟩ := within_live hs hheap hl
  unfold ends at hlt
  unfold ends PAGE_SIZE
  rw [lastByte_eq (live_pos hl) (by omega)]
  omega

lemma eused_iff (hlast : 4096 ≤ lastByte addr size) : eused t heap addr size = true ↔
    ∃ c, Live t heap c ∧ c.addr / PAGE_SIZE = lastByte addr size / PAGE_SIZE := by
  have h0 : ¬ lastByte addr size / PAGE_SIZE * PAGE_SIZE = 0 / PAGE_SIZE * PAGE_SIZE := by
    unfold PAGE_SIZE
    omega
  refine (any_allocations_iff hs hr hheap (fun c => lastByte addr size / PAGE_SIZE * PAGE_SIZE =
    c.addr / PAGE_SIZE * PAGE_SIZE) h0).trans (exists_congr fun c => ?_)
  refine and_congr_right fun _ => ?_
  unfold PAGE_SIZE
  omega

lemma mem_freedAddrs_iff (hb : Live t heap b) :
    v ∈ freedAddrs b.addr t ∧ v % PAGE_SIZE = 0 ↔ ComesTo t heap b v := by
  obtain ⟨h4, -, -, hlt⟩ := within_live hs hheap hb
  have hpos := live_pos hb
  obtain ⟨-, -, -, hfreed⟩ := returnBlock_live hs hr hheap hb
  have hlive : ∀ c, Live (returnBlock b.addr t).1 heap c ↔ Live t heap c ∧ c ≠ b := fun c => by
    rw [live_returnBlock hs hr hheap hb]
    simp
  unfold ends at hlt
  have hlast : lastByte b.addr b.size = ends b - 1 := lastByte_eq hpos (by omega)
  have hsused : sused (returnBlock b.addr t).1 heap b.addr = true ↔
      EndsIn t heap b (b.addr / PAGE_SIZE) := by
    rw [sused_iff (hs.returnBlock b.addr) (hr.returnBlock b.addr) hheap (by omega)]
    simp only [hlive, EndsIn, and_assoc]
  have heused : eused (returnBlock b.addr t).1 heap b.addr b.size = true ↔
      StartsIn t heap b ((ends b - 1) / PAGE_SIZE) := by
    rw [eused_iff (hs.returnBlock b.addr) (hr.returnBlock b.addr) hheap
      (by rw [hlast]; unfold ends; omega), hlast]
    simp only [hlive, StartsIn, and_assoc]
  have hmid := turns_iff hpos (v := v) (by omega : b.addr + b.size < 2 ^ 63)
  have hfirst : v ∈ (if sused (returnBlock b.addr t).1 heap b.addr = true then [] else [b.addr]) ↔
      v = b.addr ∧ ¬ EndsIn t heap b (v / PAGE_SIZE) := by
    rw [mem_ite_singleton, hsused]
    exact and_congr_right fun hv => by rw [hv]
  have hend : v ∈ (if eused (returnBlock b.addr t).1 heap b.addr b.size = true then []
        else [lastByte b.addr b.size]) ↔
      v = ends b - 1 ∧ ¬ StartsIn t heap b (v / PAGE_SIZE) := by
    rw [mem_ite_singleton, heused, hlast]
    exact and_congr_right fun hv => by rw [hv]
  have hmiddle : v ∈ ((List.range (sub64 (pageCount b.addr b.size) 1)).tail.map fun i =>
        turnAddr b.addr i) ↔
      ∃ i, 0 < i ∧ i < sub64 (pageCount b.addr b.size) 1 ∧ turnAddr b.addr i = v := by
    rw [List.mem_map]
    exact exists_congr fun i => by rw [mem_tail_range, and_assoc]
  rw [hfreed, releaseAddrs, List.mem_append, List.mem_append, hfirst, hend, hmiddle, ComesTo]
  constructor
  · rintro ⟨⟨htake, (h | h) | h⟩, hv⟩
    · exact Or.inl ⟨hv, htake, Or.inl h⟩
    · exact Or.inl ⟨hv, htake, Or.inr (Or.inl h)⟩
    · rcases hmid.mp ⟨h, hv⟩ with ⟨ha, hav, hve, hvl, -⟩ | hbelow
      · exact Or.inl ⟨hv, htake, Or.inr (Or.inr ⟨ha, hav, hve, hvl⟩)⟩
      · exact Or.inr ⟨htake, hbelow⟩
  · rintro (⟨hv, htake, h | h | ⟨ha, hav, hve, hvl⟩⟩ | ⟨htake, hbelow⟩)
    · exact ⟨⟨htake, Or.inl (Or.inl h)⟩, hv⟩
    · exact ⟨⟨htake, Or.inl (Or.inr h)⟩, hv⟩
    · exact ⟨⟨htake, Or.inr (hmid.mpr (Or.inl ⟨ha, hav, hve, hvl, hv⟩)).1⟩, hv⟩
    · obtain ⟨h, hv⟩ := hmid.mpr (Or.inr hbelow)
      exact ⟨⟨htake, Or.inr h⟩, hv⟩

end counts

/-! ### The frames that go back -/

/-- The addresses in live blocks other than `b`. -/
def otherBytes (t : Tables) (heap : ℕ) (b : MemT) : Set ℕ :=
  {a | ∃ h < HEAPS, ∃ c, Live t h c ∧ (h ≠ heap ∨ c ≠ b) ∧ a ∈ bytes c}

/-- `find_physaddr` gives the start of a frame for the starts of the pages mapped to it. -/
lemma find_eq_iff (hM : FramesOk M) (h0 : 0 ∉ M.fm.pages) {s : Paging} {f : ℕ}
    (hf : f ∈ M.fm.pages) :
    findPhysaddr M s v = f ↔ v % PAGE_SIZE = 0 ∧ lookup M s v = some f := by
  constructor
  · rintro rfl
    have hl := lookup_of_find hM h0 hf
    have hfind := findPhysaddr_of_lookup hl
    exact ⟨by unfold PAGE_SIZE; omega, hl⟩
  · rintro ⟨hv, hl⟩
    have hfind := findPhysaddr_of_lookup hl
    unfold PAGE_SIZE at hv
    omega

section frames

variable (hM : FramesOk M) (h0 : 0 ∉ M.fm.pages) (hs : Sound st.tables) (hr : InTable st.tables)
  (hheap : heap < HEAPS)

include hM h0 hs hr hheap

lemma inUse_free_iff (hb : Live st.tables heap b) {f : ℕ} (hf : f ∈ M.fm.pages) :
    InUse M.fm (free M b.addr st).paging.bmap f ↔
      InUse M.fm st.paging.bmap f ∧
        ¬ ∃ v, ComesTo st.tables heap b v ∧ lookup M st.paging v = some f := by
  rw [free_eq, inUse_releaseEach hM]
  refine and_congr_right fun _ => ?_
  constructor
  · rintro hall ⟨v, hv, hl⟩
    have hv' := (mem_freedAddrs_iff hs hr hheap hb).mpr hv
    exact hall v hv'.1 ((find_eq_iff hM h0 hf).mpr ⟨hv'.2, hl⟩)
  · intro hno v hv hfind
    obtain ⟨hal, hl⟩ := (find_eq_iff hM h0 hf).mp hfind
    exact hno ⟨v, (mem_freedAddrs_iff hs hr hheap hb).mp ⟨hv, hal⟩, hl⟩

end frames

lemma inTable_initMalloc : InTable initMalloc := fun _ _ _ => rfl

lemma live_first {s : Paging} (hfit : (takeBlock size 0 initMalloc).1 = some addr) (h : ℕ)
    (c : MemT) : Live (run M [.malloc size 0] ⟨initMalloc, s⟩).tables h c ↔
      h = 0 ∧ c = ⟨addr, size⟩ := by
  have ht : takeBlock size 0 initMalloc =
      (some addr, (run M [.malloc size 0] ⟨initMalloc, s⟩).tables) :=
    Prod.ext hfit (tables_mallocHeap size 0 ⟨initMalloc, s⟩).symm
  rw [live_takeBlock ht]
  constructor
  · rintro (⟨k, rfl, hpos⟩ | hc)
    · exact absurd hpos (Nat.lt_irrefl 0)
    · exact hc
  · exact Or.inr

lemma otherBytes_first {s : Paging} (hfit : (takeBlock size 0 initMalloc).1 = some addr) :
    otherBytes (run M [.malloc size 0] ⟨initMalloc, s⟩).tables 0 ⟨addr, size⟩ = ∅ := by
  refine Set.eq_empty_of_forall_notMem ?_
  rintro a ⟨h, -, c, hc, hne, -⟩
  obtain ⟨rfl, rfl⟩ := (live_first hfit h c).mp hc
  exact hne.elim (fun hn => hn rfl) fun hn => hn rfl

/-- If the block is given back, begins at a page and another block starts in that page, then
some other block ends there. -/
def Spared (t : Tables) (heap : ℕ) (b : MemT) : Prop :=
  (∃ i < FREE_SPACES, Takes (t.freespace heap i) b) → b.addr % PAGE_SIZE = 0 →
    StartsIn t heap b (b.addr / PAGE_SIZE) → EndsIn t heap b (b.addr / PAGE_SIZE)

/-- Blocks of up to 2 GiB are freed without a turn that wraps. -/
lemma not_comesBelow (h : b.size ≤ 0x80000000) : ¬ ComesBelow t heap b v := by
  rintro ⟨-, -, i, hi, hlt, -⟩
  unfold ends PAGE_SIZE at hlt
  omega

/-- The addresses below the block are mapped to no frame in which another block lives. -/
def SparedBelow (M : Machine) (st : State) (b : MemT) : Prop :=
  ∀ v, ComesBelow st.tables 0 b v → ∀ f ∈ M.fm.pages, lookup M st.paging v = some f →
    ∀ c, Live st.tables 0 c → c ≠ b → ∀ a ∈ bytes c, lookup M st.paging a ≠ some f

lemma ComesWithin.mem (hb : Live t heap b) (hv : ComesWithin t heap b v) : v ∈ bytes b := by
  have hpos := live_pos hb
  rw [mem_bytes]
  unfold ComesWithin ends PAGE_SIZE at hv
  omega

/-- A block with a byte in a page of the block `free` comes to starts there. -/
lemma ComesWithin.startsIn (hs : Sound t) (hheap : heap < HEAPS) (hb : Live t heap b)
    (hv : ComesWithin t heap b v) (hc : Live t heap c) (hne : c ≠ b) {x : ℕ}
    (hx : x ∈ bytes c) (hp : x / PAGE_SIZE = v / PAGE_SIZE) :
    v = b.addr ∧ StartsIn t heap b (v / PAGE_SIZE) ∧ ¬ EndsIn t heap b (v / PAGE_SIZE) := by
  have hvb := hv.mem hb
  have hvc : v ∉ bytes c := fun hvc => hne (live_eq hs hheap hc hb hvc hvb)
  have hxb : x ∉ bytes b := fun hxb => hne (live_eq hs hheap hc hb hx hxb)
  obtain ⟨hal, -, hv⟩ := hv
  rw [mem_bytes] at hvb hvc hxb hx
  have hstart : StartsIn t heap b (v / PAGE_SIZE) := by
    refine ⟨c, hc, hne, ?_⟩
    unfold PAGE_SIZE at *
    omega
  rcases hv with ⟨rfl, hno⟩ | ⟨-, hno⟩ | ⟨-, hbv, hlt, -⟩
  · exact ⟨rfl, hstart, hno⟩
  · exact absurd hstart hno
  · -- the whole page is the block's
    unfold ends PAGE_SIZE at *
    omega

/-- What the calls of a run must be like: a request does not run out of frames and is not
served on a page whose frame was released, and a block that is freed is spared, also below,
where no page table may be mapped. -/
def Orderly (M : Machine) (R : Set ℕ) : Call → State → Prop
  | .malloc size heap, st => Spares M R (.malloc size heap) st
  | .free addr, st => ∀ b, Live st.tables 0 b → b.addr = addr →
    Spared st.tables 0 b ∧ SparedBelow M st b ∧
      ∀ v, ComesBelow st.tables 0 b v → ∀ f, lookup M st.paging v = some f →
        ¬ IsPageTable M st.paging f

lemma live_user (hu : Untouched 1 t) : ¬ Live t 1 b := by
  rintro ⟨k, rfl, hpos⟩
  rw [hu.2] at hpos
  exact Nat.lt_irrefl 0 hpos

lemma mem_liveBytes (hc : Live t 0 c) {a : ℕ} (ha : a ∈ bytes c) : a ∈ liveBytes t :=
  ⟨0, by decide, c, hc, ha⟩

lemma exists_live_of_mem (hs : Sound t) (hu : Untouched 1 t) (hv : v ∈ freedAddrs addr t) :
    ∃ b, Live t 0 b ∧ b.addr = addr := by
  unfold freedAddrs at hv
  rcases returnBlock_cases addr t with hr' | ⟨heap, k, hh, hk, -⟩
  · rw [hr'] at hv
    cases hv
  · obtain ⟨hheap, hlow, -⟩ := heapOf_pos hh
    obtain ⟨A, hA⟩ := hs heap hheap
    obtain ⟨ha, hpos⟩ := hA.pos_of_findAlloc (by have := (heap_bounds heap).1; omega) hk
    unfold HEAPS at hheap
    obtain rfl | rfl : heap = 0 ∨ heap = 1 := by omega
    · exact ⟨_, ⟨k, rfl, hpos⟩, ha⟩
    · exact absurd ⟨k, rfl, hpos⟩ (live_user hu)

section kernel

variable {R : Set ℕ} (hM : FramesOk M) (h0 : 0 ∉ M.fm.pages) (hs : Sound st.tables)
  (hr : InTable st.tables) (hu : Untouched 1 st.tables)
  (h : Inv M kernelAddrs R (liveBytes st.tables) st.paging)

include hs h

/-- A frame that backs a page of the block `free` comes to and a byte of another block: that
block starts in the page. -/
lemma startsIn_of_shared (hb : Live st.tables 0 b) (hv : ComesWithin st.tables 0 b v) {f : ℕ}
    (hf : f ∈ M.fm.pages) (hlv : lookup M st.paging v = some f) (hc : Live st.tables 0 c)
    (hne : c ≠ b) {a : ℕ} (ha : a ∈ bytes c) (hla : lookup M st.paging a = some f) :
    v = b.addr ∧ StartsIn st.tables 0 b (v / PAGE_SIZE) ∧
      ¬ EndsIn st.tables 0 b (v / PAGE_SIZE) := by
  have h2 : (0 : ℕ) < HEAPS := by decide
  have hvb := hv.mem hb
  have hvl := mem_liveBytes hb hvb
  have hal := mem_liveBytes hc ha
  -- a frame backs one live page only
  have hp := h.unique a (h.live a hal).1 v (h.live v hvl).1 (h.settled hal) (h.settled hvl) f hf
    hla hlv
  refine hv.startsIn hs h2 hb hc hne ha ?_
  have hblt := (within_live hs h2 hb).2.2.2
  have hclt := (within_live hs h2 hc).2.2.2
  rw [mem_bytes] at ha hvb
  unfold page at hp
  unfold ends at hblt hclt
  unfold PAGE_SIZE
  omega

include hM h0 hr hu

lemma spares_of_orderly {c : Call} (hc : Orderly M R c st) : Spares M R c st := by
  cases c with
  | malloc size heap => exact hc
  | free addr =>
    have h2 : (0 : ℕ) < HEAPS := by decide
    -- the address is one of a block's, and what is mapped there goes back
    have hcome : ∀ v ∈ freedAddrs addr st.tables, findPhysaddr M st.paging v ∈ M.fm.pages →
        ∃ b, Live st.tables 0 b ∧ b.addr = addr ∧ ComesTo st.tables 0 b v ∧
          lookup M st.paging v = some (findPhysaddr M st.paging v) := by
      intro v hv hf
      obtain ⟨b, hb, rfl⟩ := exists_live_of_mem hs hu hv
      obtain ⟨hal, hl⟩ := (find_eq_iff hM h0 hf).mp rfl
      exact ⟨b, hb, rfl, (mem_freedAddrs_iff hs hr h2 hb).mp ⟨hv, hal⟩, hl⟩
    refine ⟨fun v hv ht => ?_, fun v hv hf x hx hlx => ?_⟩
    · obtain ⟨b, hb, hba, hv | hv, hl⟩ := hcome v hv (mem_of_isPageTable h.wf ht)
      · have hlive := mem_liveBytes hb (hv.mem hb)
        exact (h.back v (h.live v hlive).1 (h.settled hlive) _ hl).1 ht
      · exact (hc b hb hba).2.2 v hv _ hl ht
    · obtain ⟨b, hb, rfl, hv, hl⟩ := hcome v hv hf
      obtain ⟨hsp, hbelow, -⟩ := hc b hb rfl
      obtain ⟨heap, hh, c, hc', hxc⟩ := hx
      obtain ⟨hlive, hne⟩ := (live_returnBlock hs hr h2 hb heap c).mp hc'
      unfold HEAPS at hh
      obtain rfl | rfl : heap = 0 ∨ heap = 1 := by omega
      · have hne' := hne.resolve_left fun h => h rfl
        rcases hv with hv | hv
        · obtain ⟨rfl, hst, hno⟩ := startsIn_of_shared hs h hb hv hf hl hlive hne' hxc hlx
          exact hno (hsp hv.2.1 hv.1 hst)
        · exact hbelow v hv _ hf hl c hlive hne' x hxc hlx
      · exact live_user hu hlive

end kernel

lemma watched_spares (hM : FramesOk M) (h0 : 0 ∉ M.fm.pages)
    (hlt : ∀ a ∈ M.fm.pages, a < 0x1000000000) {R : Set ℕ} (hs : Sound st.tables)
    (hr : InTable st.tables) (hu : Untouched 1 st.tables)
    (h : Inv M kernelAddrs R (liveBytes st.tables) st.paging) {cs : List Call}
    (hk : ∀ c ∈ cs, KernelCall c) (hcs : Watched M (Orderly M) R cs st) :
    Watched M (Spares M) R cs st := by
  induction cs generalizing R st with
  | nil => trivial
  | cons c cs ih =>
    obtain ⟨hc, hcs⟩ := hcs
    have hkc := hk c List.mem_cons_self
    have hsp := spares_of_orderly hM h0 hs hr hu h hc
    have hs' : Sound (call M c st).tables := hs.call c
    have hu' : Untouched 1 (call M c st).tables := hu.call fun size he => by
      rw [he] at hkc
      exact absurd hkc (by decide : (1 : ℕ) ≠ 0)
    exact ⟨hsp, ih hs' (hr.call c) hu'
      (inv_call hM h hsp (apart_kernel hlt hs hu hkc) (liveBytes_kernel hs' hu'))
      (fun d hd => hk d (List.mem_cons_of_mem c hd)) hcs⟩

lemma live_second {s : Paging} {size' addr' : ℕ}
    (hfit : (takeBlock size 0 initMalloc).1 = some addr)
    (hfit' : (takeBlock size' 0 (run M [.malloc size 0] ⟨initMalloc, s⟩).tables).1 = some addr')
    (c : MemT) : Live (run M [.malloc size 0, .malloc size' 0] ⟨initMalloc, s⟩).tables 0 c ↔
      c = ⟨addr, size⟩ ∨ c = ⟨addr', size'⟩ := by
  have ht : takeBlock size' 0 (run M [.malloc size 0] ⟨initMalloc, s⟩).tables =
      (some addr', (run M [.malloc size 0, .malloc size' 0] ⟨initMalloc, s⟩).tables) :=
    Prod.ext hfit' (tables_mallocHeap size' 0 (run M [.malloc size 0] ⟨initMalloc, s⟩)).symm
  rw [live_takeBlock ht, live_first hfit]
  simp

end FlameOS.FreePages
