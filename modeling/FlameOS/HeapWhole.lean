import FlameOS.Backing

/-!
When freeing everything makes a heap one free space again.

`free` joins a block with one free space, the first entry it finds next to it. As long as
no other entry that has bytes is next to the block, no two free spaces ever touch, and once
the heap has no block it is one free space.
-/

namespace FlameOS.HeapWhole

open FlameOS.Word FlameOS.Slots FlameOS.PageTable FlameOS.MapPage FlameOS.MapRun
open FlameOS.HeapTable FlameOS.HeapArena FlameOS.Heap FlameOS.Boot FlameOS.Backing

/-- The block is next to the free space, as `free` tests it. -/
def isNextTo (addr size : ℕ) (fs : MemT) : Bool := isBehind addr size fs || isAfter addr fs

/-- The entries of `freespace` next to a block, in the order of the table. -/
def neighbours (t : Tables) (heap addr size : ℕ) : List ℕ :=
  (List.range FREE_SPACES).filter fun i => isNextTo addr size (t.freespace heap i)

/-- The call comes to the end of a table. -/
def meetsFull (t : Tables) : Call → Bool
  | .malloc size heap =>
    decide (heap < HEAPS ∧ size ≠ 0) && (findSpace t heap size).isSome && (findSlot t heap).isNone
  | .free addr =>
    match heapOf addr with
    | none => false
    | some heap =>
      match findAlloc t heap addr with
      | none => false
      | some k =>
        (findNeighbour t heap addr (t.allocations heap k).size).isNone && (findEmpty t heap).isNone

/-- Of the entries next to a block of the heap that the call frees, all but the first are
empty. -/
def JoinsAll (heap : ℕ) (t : Tables) : Call → Prop
  | .malloc _ _ => True
  | .free addr => heapOf addr = some heap → ∀ k ∈ findAlloc t heap addr,
    ∀ i ∈ (neighbours t heap addr (t.allocations heap k).size).tail, (t.freespace heap i).size = 0

instance (heap : ℕ) (t : Tables) (c : Call) : Decidable (JoinsAll heap t c) :=
  match c with
  | .malloc _ _ => .isTrue trivial
  | .free addr => inferInstanceAs (Decidable (heapOf addr = some heap →
      ∀ k ∈ findAlloc t heap addr,
        ∀ i ∈ (neighbours t heap addr (t.allocations heap k).size).tail,
          (t.freespace heap i).size = 0))

def Vacant (t : Tables) (heap : ℕ) : Prop := ∀ k < ALLOCATIONS, (t.allocations heap k).size = 0

instance (t : Tables) (heap : ℕ) : Decidable (Vacant t heap) :=
  inferInstanceAs (Decidable (∀ k < ALLOCATIONS, (t.allocations heap k).size = 0))

/-- The blocks and the free spaces make up the heap, and no two free spaces touch. -/
structure Merged (t : Tables) (heap : ℕ) : Prop where
  full : ∃ A : Arena (ℕ ⊕ ℕ) (Set.Ico (heapBase heap) (heapLimit heap)), Holds t heap A ∧ A.Full
  apart : ∀ i j, 0 < (t.freespace heap i).size → 0 < (t.freespace heap j).size →
    (t.freespace heap i).addr + (t.freespace heap i).size ≠ (t.freespace heap j).addr
  beyond : ∀ i ≥ FREE_SPACES, (t.freespace heap i).size = 0
  rest : ∀ k ≥ ALLOCATIONS, (t.allocations heap k).size = 0

variable {t t' : Tables} {heap size addr : ℕ}

lemma merged_initMalloc (hheap : heap < HEAPS) : Merged initMalloc heap := by
  obtain ⟨A, hA⟩ := holds_initMalloc hheap
  have h0 : initMalloc.freespace heap 0 = ⟨heapBase heap, heapLimit heap - heapBase heap⟩ := by
    unfold HEAPS at hheap
    obtain rfl | rfl : heap = 0 ∨ heap = 1 := by omega
    · rfl
    · rfl
  have hz : ∀ i, i ≠ 0 → (initMalloc.freespace heap i).size = 0 := by
    intro i hi
    simp [initMalloc, hi]
  refine ⟨⟨A, hA, fun a ha => ⟨.inr 0, ?_⟩⟩, fun i j hi hj => ?_, fun i hi => hz i ?_,
    fun k _ => rfl⟩
  · rw [hA.pieces, piece, h0, mem_bytes]
    dsimp only
    have := ha.1.trans_lt ha.2
    exact ⟨ha.1, by have := ha.2; omega⟩
  · obtain rfl : i = 0 := by_contra fun h => hi.ne' (hz i h)
    obtain rfl : j = 0 := by_contra fun h => hj.ne' (hz j h)
    omega
  · unfold FREE_SPACES at hi
    omega

/-! ### What a call leaves -/

lemma findSpace_lt {i : ℕ} (h : findSpace t heap size = some i) : i < FREE_SPACES := by
  unfold findSpace at h
  exact List.mem_range.mp (List.mem_of_find?_eq_some h)

lemma findSlot_lt {k : ℕ} (h : findSlot t heap = some k) : k < ALLOCATIONS := by
  unfold findSlot at h
  exact List.mem_range.mp (List.mem_of_find?_eq_some h)

lemma findAlloc_lt {k : ℕ} (h : findAlloc t heap addr = some k) : k < ALLOCATIONS := by
  unfold findAlloc at h
  exact List.mem_range.mp (List.mem_of_find?_eq_some h)

lemma findEmpty_lt {i : ℕ} (h : findEmpty t heap = some i) : i < FREE_SPACES := by
  unfold findEmpty at h
  exact List.mem_range.mp (List.mem_of_find?_eq_some h)

/-- The first neighbour is the head of the list. -/
lemma findNeighbour_eq (t : Tables) (heap addr size : ℕ) :
    findNeighbour t heap addr size = (neighbours t heap addr size).head? := by
  unfold findNeighbour neighbours isNextTo
  rw [List.head?_filter]

lemma mem_neighbours {i : ℕ} : i ∈ neighbours t heap addr size ↔
    i < FREE_SPACES ∧
      (add64 addr size = (t.freespace heap i).addr ∨
        addr = add64 (t.freespace heap i).addr (t.freespace heap i).size) := by
  simp [neighbours, isNextTo, isBehind, isAfter]

lemma Merged.congr (h : Merged t heap) (hf : t'.freespace heap = t.freespace heap)
    (ha : t'.allocations heap = t.allocations heap) : Merged t' heap := by
  obtain ⟨⟨A, hA, hfull⟩, hap, hb, hr⟩ := h
  refine ⟨⟨A, hA.congr hf ha, hfull⟩, ?_, ?_, ?_⟩
  · rwa [hf]
  · rwa [hf]
  · rwa [ha]

lemma Merged.rest_setAlloc (h : Merged t heap) {k : ℕ} (hk : k < ALLOCATIONS) (e : MemT) :
    ∀ l ≥ ALLOCATIONS, ((t.setAlloc heap k e).allocations heap l).size = 0 := by
  intro l hl
  rw [allocations_setAlloc, if_neg]
  · exact h.rest l hl
  · rintro ⟨-, rfl⟩
    exact absurd hk (not_lt.mpr hl)

/-- An entry that touches none of the others may take the place of one. -/
lemma Merged.replaced (h : Merged t heap) {i : ℕ} {e : MemT} (hi : i < FREE_SPACES)
    (hfull : ∃ A : Arena (ℕ ⊕ ℕ) (Set.Ico (heapBase heap) (heapLimit heap)),
      Holds t' heap A ∧ A.Full)
    (hf : t'.freespace = (t.setFree heap i e).freespace)
    (he : ∀ j, j ≠ i → 0 < e.size → 0 < (t.freespace heap j).size →
      e.addr + e.size ≠ (t.freespace heap j).addr ∧
        (t.freespace heap j).addr + (t.freespace heap j).size ≠ e.addr)
    (hrest : ∀ k ≥ ALLOCATIONS, (t'.allocations heap k).size = 0) : Merged t' heap := by
  refine ⟨hfull, fun j l => ?_, fun j hj => ?_, hrest⟩
  · rw [hf, freespace_setFree, freespace_setFree]
    by_cases hji : j = i <;> by_cases hli : l = i
    · rw [if_pos ⟨rfl, hji⟩, if_pos ⟨rfl, hli⟩]
      omega
    · rw [if_pos ⟨rfl, hji⟩, if_neg (fun hc => hli hc.2)]
      exact fun hpos hl => (he l hli hpos hl).1
    · rw [if_neg (fun hc => hji hc.2), if_pos ⟨rfl, hli⟩]
      exact fun hj hpos => (he j hji hpos hj).2
    · rw [if_neg (fun hc => hji hc.2), if_neg (fun hc => hli hc.2)]
      exact h.apart j l
  · rw [hf, freespace_setFree, if_neg]
    · exact h.beyond j hj
    · rintro ⟨-, rfl⟩
      exact absurd hi (not_lt.mpr hj)

lemma takeBlock_of_slot {i k : ℕ} (hheap : heap < HEAPS) (hsize : size ≠ 0)
    (hi : findSpace t heap size = some i) (hk : findSlot t heap = some k) :
    takeBlock size heap t = (some (t.freespace heap i).addr,
      (t.setFree heap i (shrink (t.freespace heap i) size)).setAlloc heap k
        ⟨(t.freespace heap i).addr, size⟩) := by
  rw [takeBlock_of_space hheap hsize hi, hk]
  rfl

/-- A free space that loses bytes at its start touches no other. -/
lemma Merged.malloc (h : Merged t heap) (hno : meetsFull t (.malloc size heap) = false) :
    Merged (takeBlock size heap t).2 heap := by
  obtain ⟨A, hA, hfull⟩ := h.full
  rcases takeBlock_cases size heap t with hr | ⟨hheap, hsize, i, hi, -⟩
  · rw [hr]
    exact h
  obtain ⟨k, hk⟩ : ∃ k, findSlot t heap = some k := by
    rw [← Option.ne_none_iff_exists']
    intro hn
    simp [meetsFull, hheap, hsize.ne', hi, hn] at hno
  rw [takeBlock_of_slot hheap hsize.ne' hi hk]
  have hle := findSpace_some hi
  have hlim := hA.bound i
  have h63 := (heap_bounds heap).2
  have hs : shrink (t.freespace heap i) size =
      ⟨(t.freespace heap i).addr + size, (t.freespace heap i).size - size⟩ := by
    rw [shrink, add64_eq (by omega), sub64_eq hle (by omega)]
  refine h.replaced (findSpace_lt hi) ⟨_, hA.carve hsize hle (findSlot_some hk), hfull.move _ _ _⟩
    rfl (fun j hj he hpos => ?_) (h.rest_setAlloc (findSlot_lt hk) _)
  rw [hs] at he ⊢
  dsimp only at he ⊢
  constructor
  · have := h.apart i j (by omega) hpos
    omega
  · -- the byte before the new start is still in entry `i`'s old range
    intro heq
    have hsep := A.separate (.inr j) (.inr i) (by simpa using hj)
    rw [hA.pieces, hA.pieces, Set.disjoint_left] at hsep
    exact hsep (mem_bytes.mpr ⟨(by omega : _ ≤ (t.freespace heap i).addr + size - 1), by omega⟩)
      (mem_bytes.mpr ⟨by omega, by omega⟩)

/-- The entry that takes a block in is its first neighbour, or empty if it has none. -/
lemma giveBack_neighbour {t₁ : Tables} (h : giveBack addr size heap t = some t₁) :
    ∃ i e, i < FREE_SPACES ∧ t₁ = t.setFree heap i e ∧
      (∀ j ∈ neighbours t heap addr size, j = i ∨ j ∈ (neighbours t heap addr size).tail) ∧
      ((add64 addr size = (t.freespace heap i).addr ∧
          e = ⟨sub64 (t.freespace heap i).addr size, add64 (t.freespace heap i).size size⟩) ∨
        (addr = add64 (t.freespace heap i).addr (t.freespace heap i).size ∧
          e = ⟨(t.freespace heap i).addr, add64 (t.freespace heap i).size size⟩) ∨
        ((t.freespace heap i).size = 0 ∧ e = ⟨addr, size⟩)) := by
  obtain ⟨i, e, rfl, hi, he⟩ := giveBack_cases h
  refine ⟨i, e, ?_, rfl, ?_, he⟩
  · rcases Option.or_eq_some_iff.mp hi with hn | ⟨-, hemp⟩
    · rw [findNeighbour_eq] at hn
      exact (mem_neighbours.mp (List.mem_of_mem_head? hn)).1
    · exact findEmpty_lt hemp
  · rw [findNeighbour_eq] at hi
    rcases hl : neighbours t heap addr size with _ | ⟨l, ls⟩
    · exact fun j hj => absurd hj List.not_mem_nil
    · rw [hl, List.head?_cons, Option.some_or] at hi
      obtain rfl := Option.some.inj hi
      exact fun j hj => List.mem_cons.mp hj

/-- A freed block that meets no full table has a free space to go to. -/
lemma exists_giveBack {k : ℕ} (hno : meetsFull t (.free addr) = false)
    (hh : heapOf addr = some heap) (hk : findAlloc t heap addr = some k) :
    ∃ t', giveBack addr (t.allocations heap k).size heap (t.setAlloc heap k ⟨0, 0⟩) = some t' ∧
      returnBlock addr t = (t', some (heap, (t.allocations heap k).size)) := by
  obtain ⟨t', ht'⟩ : ∃ t',
      giveBack addr (t.allocations heap k).size heap (t.setAlloc heap k ⟨0, 0⟩) = some t' := by
    rw [← Option.ne_none_iff_exists', Ne, giveBack_eq_none_iff, findNeighbour_setAlloc,
      findEmpty_setAlloc]
    rintro ⟨hn, he⟩
    simp [meetsFull, hh, hk, hn, he] at hno
  refine ⟨t', ht', ?_⟩
  simp only [returnBlock, hh, hk, ht']

/-- A block that joins all the free spaces next to it leaves none that touch. -/
lemma Merged.free (h : Merged t heap) (hno : meetsFull t (.free addr) = false)
    (hj : JoinsAll heap t (.free addr)) : Merged (returnBlock addr t).1 heap := by
  by_cases hh : heapOf addr = some heap
  swap
  · obtain ⟨hf, ha⟩ := returnBlock_other hh t
    exact h.congr hf ha
  rcases hk : findAlloc t heap addr with _ | k
  · have hr : returnBlock addr t = (t, none) := by simp only [returnBlock, hh, hk]
    rw [hr]
    exact h
  obtain ⟨A, hA, hfull⟩ := h.full
  have hlow := (heapOf_pos hh).2.1
  have h0 := (heap_bounds heap).1
  have h63 := (heap_bounds heap).2
  obtain ⟨ha, hs⟩ := hA.pos_of_findAlloc (by omega) hk
  have hin := hA.alloc_within hs
  obtain ⟨t', hg, hr⟩ := exists_giveBack hno hh hk
  rw [hr]
  obtain ⟨i, e, hi, rfl, hfirst, he⟩ := giveBack_neighbour hg
  rw [freespace_setAlloc] at he
  have hfull' := hA.given hs (ha.symm ▸ hg)
  obtain ⟨i', hi'⟩ := hfull'
  refine h.replaced hi ⟨_, hi', hfull.move _ _ _⟩ rfl (fun j hji hpos hjpos => ?_)
    (h.rest_setAlloc (findAlloc_lt hk) _)
  -- entry `j` has bytes, so it is not among the neighbours
  have hnext : j ∉ neighbours t heap addr (t.allocations heap k).size := by
    intro hmem
    rcases hfirst j hmem with hc | hc
    · exact hji hc
    · have := hj hh k hk j hc
      omega
  have hlt : j < FREE_SPACES := by
    by_contra hge
    have := h.beyond j (not_lt.mp hge)
    omega
  have hbi := hA.bound i
  have hbj := hA.bound j
  rw [mem_neighbours, not_and, not_or, add64_eq (by omega), add64_eq (by omega)] at hnext
  obtain ⟨hn₁, hn₂⟩ := hnext hlt
  have hij := h.apart i j
  have hji' := h.apart j i hjpos
  rcases he with ⟨hbeh, rfl⟩ | ⟨haft, rfl⟩ | ⟨-, rfl⟩
  · rw [add64_eq (by omega)] at hbeh
    rw [sub64_eq (by omega) (by omega), add64_eq (by omega)]
    dsimp only
    omega
  · rw [add64_eq (by omega)] at haft ⊢
    dsimp only
    omega
  · dsimp only
    omega

/-! ### A heap without blocks -/

/-- A heap without blocks is one free space. -/
lemma Merged.whole (h : Merged t heap) (hlive : Vacant t heap) :
    ∃ i < FREE_SPACES, t.freespace heap i = ⟨heapBase heap, heapLimit heap - heapBase heap⟩ := by
  obtain ⟨A, hA, hfull⟩ := h.full
  have hlt : heapBase heap < heapLimit heap := by
    unfold heapBase heapLimit kernelHeap kernelStack userspaceHeap userspaceStack
    split <;> omega
  have hempty : ∀ k, bytes (t.allocations heap k) = ∅ := by
    intro k
    rcases Nat.lt_or_ge k ALLOCATIONS with hk | hk
    · exact bytes_eq_empty (hlive k hk)
    · exact bytes_eq_empty (h.rest k hk)
  obtain ⟨i, hlo, hlen⟩ := exists_whole_interval
    (fun i => (t.freespace heap i).addr) (fun i => (t.freespace heap i).size) hlt
    (fun i => by have := A.subset (.inr i); rwa [hA.pieces] at this)
    (fun i j hij => by
      have := A.separate (.inr i) (.inr j) (by simpa using hij)
      rwa [hA.pieces, hA.pieces] at this)
    (fun a ha => by
      obtain ⟨k | i, hk⟩ := hfull a ha <;> rw [hA.pieces] at hk
      · rw [piece, hempty] at hk
        exact absurd hk (Set.notMem_empty a)
      · exact ⟨i, hk⟩)
    h.apart
  refine ⟨i, ?_, ?_⟩
  · by_contra hge
    have := h.beyond i (not_lt.mp hge)
    omega
  · rw [← hlen, ← hlo]

/-! ### Runs -/

lemma Merged.call {M : Machine} {st : State} {c : Call} (h : Merged st.tables heap)
    (hno : meetsFull st.tables c = false) (hj : JoinsAll heap st.tables c) :
    Merged (call M c st).tables heap := by
  cases c with
  | malloc size heap' =>
    rw [Heap.call, tables_mallocHeap]
    by_cases hh : heap' = heap
    · subst hh
      exact h.malloc hno
    · obtain ⟨hf, ha⟩ := takeBlock_other hh size st.tables
      exact h.congr hf ha
  | free addr =>
    rw [Heap.call, tables_free]
    exact h.free hno hj

lemma Merged.run {M : Machine} {st : State} {cs : List Call} (h : Merged st.tables heap)
    (hno : Guarded M (fun c st => meetsFull st.tables c = false) cs st)
    (hj : Guarded M (fun c st => JoinsAll heap st.tables c) cs st) :
    Merged (run M cs st).tables heap := by
  induction cs generalizing st with
  | nil => exact h
  | cons c cs ih => exact ih (h.call hno.1 hj.1) hno.2 hj.2

/-- **Freeing everything.** A run that meets no full table and in which every block of the
heap that is freed joins all the free spaces next to it restores the heap: when the heap has
no block left, any request up to its full size is served. -/
theorem mallocHeap_all_freed (M : Machine) (s : Paging) (cs : List Call) {heap : ℕ}
    (hheap : heap < HEAPS)
    (hno : Guarded M (fun c st => meetsFull st.tables c = false) cs ⟨initMalloc, s⟩)
    (hj : Guarded M (fun c st => JoinsAll heap st.tables c) cs ⟨initMalloc, s⟩)
    (hlive : Vacant (run M cs ⟨initMalloc, s⟩).tables heap) (n : ℕ) (hn : 1 ≤ n)
    (hle : n ≤ heapLimit heap - heapBase heap) :
    (mallocHeap M n heap (run M cs ⟨initMalloc, s⟩)).ptr ≠ 0 := by
  set st := run M cs ⟨initMalloc, s⟩
  have hm : Merged st.tables heap := (merged_initMalloc hheap).run hno hj
  obtain ⟨i, hi, hwhole⟩ := hm.whole hlive
  obtain ⟨j, hj⟩ : ∃ j, findSpace st.tables heap n = some j := by
    rw [← Option.isSome_iff_exists, findSpace, List.find?_isSome]
    exact ⟨i, List.mem_range.mpr hi, by rw [hwhole]; simpa using hle⟩
  obtain ⟨k, hk⟩ : ∃ k, findSlot st.tables heap = some k := by
    rw [← Option.isSome_iff_exists, findSlot, List.find?_isSome]
    refine ⟨0, List.mem_range.mpr (by decide), ?_⟩
    rw [decide_eq_true_iff]
    exact hlive 0 (by decide)
  rw [mallocHeap_some (takeBlock_of_slot hheap (by omega) hj hk), ptr_block]
  obtain ⟨A, hA, -⟩ := hm.full
  have hpos := findSpace_some hj
  have hin := hA.free_within (i := j) (by omega)
  have h0 := (heap_bounds heap).1
  omega

def stacked : List Call :=
  [.malloc 16 0, .malloc 4096 0, .free (kernelHeap + 16), .free kernelHeap]

def crossed : List Call :=
  [.malloc 16 0, .malloc 4096 0, .free kernelHeap, .free (kernelHeap + 16)]

theorem mallocHeap_all_freed_stacked :
    (mallocHeap threeFrames (kernelStack - kernelHeap) 0
      (run threeFrames stacked ⟨initMalloc, zeroed⟩)).ptr ≠ 0 :=
  mallocHeap_all_freed threeFrames zeroed stacked (by decide) (by decide +kernel)
    (by decide +kernel) (by decide +kernel) _ (by decide) (by decide)

/-- The block freed last lies between two free spaces and joins the second only. -/
theorem not_mallocHeap_all_freed :
    Guarded threeFrames (fun c st => meetsFull st.tables c = false) crossed ⟨initMalloc, zeroed⟩ ∧
      Vacant (run threeFrames crossed ⟨initMalloc, zeroed⟩).tables 0 ∧
      (mallocHeap threeFrames (kernelStack - kernelHeap) 0
        (run threeFrames crossed ⟨initMalloc, zeroed⟩)).ptr = 0 :=
  ⟨by decide +kernel, by decide +kernel, by decide +kernel⟩

end FlameOS.HeapWhole
