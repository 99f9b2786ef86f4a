import FlameOS.HeapArena
import FlameOS.MapRun

/-!
`malloc_heap`, `malloc` and `free`: the tables, the pages behind the blocks, and runs of
calls. The tables never look at the pages, so what holds of them holds whatever the page
tables and the bitmap do.
-/

namespace FlameOS.Heap

open FlameOS.Word FlameOS.FrameAlloc FlameOS.Slots FlameOS.PageTable FlameOS.MapPage
open FlameOS.MapRun FlameOS.HeapTable FlameOS.HeapArena

structure State where
  tables : Tables
  paging : Paging

/-- What a call of `malloc_heap` returns, leaves, and does to the page tables. -/
structure Served where
  ptr : ℕ
  state : State
  trace : List Event

/-- The end of a call that returns a block, after the mapping loop. -/
def Served.block (addr : ℕ) (t : Tables) (r : Paging × List Event) : Served :=
  ⟨addr, ⟨t, r.1⟩, r.2⟩

variable (M : Machine)

/-- The body of the mapping loop of `malloc_heap`, for the page at `virt`. -/
def mapMissing (virt : ℕ) (s : Paging) : Paging × List Event :=
  if findPhysaddr M s virt = 0 then
    let page := (physPageAlloc M.fm s.bmap).1
    let r := mapPage M page virt { s with bmap := (physPageAlloc M.fm s.bmap).2 }
    (r.1, .data s.bmap page :: r.2)
  else (s, [])

def mapEach : List ℕ → Paging → Paging × List Event
  | [], s => (s, [])
  | v :: vs, s =>
    ((mapEach vs (mapMissing M v s).1).1,
      (mapMissing M v s).2 ++ (mapEach vs (mapMissing M v s).1).2)

def pageCount (addr size : ℕ) : ℕ :=
  sub64 (CEILING (add64 addr size) PAGE_SIZE) (addr / PAGE_SIZE)

def pageAddrs (addr size : ℕ) : List ℕ :=
  (List.range (pageCount addr size)).map fun i => add64 addr (i * PAGE_SIZE)

/-- `malloc_heap`: the address of the block, or 0. -/
def mallocHeap (size heap : ℕ) (st : State) : Served :=
  match takeBlock size heap st.tables with
  | (none, t) => ⟨0, ⟨t, st.paging⟩, []⟩
  | (some addr, t) => .block addr t (mapEach M (pageAddrs addr size) st.paging)

def malloc (size : ℕ) (st : State) : Served := mallocHeap M size 0 st

def lastByte (addr size : ℕ) : ℕ := sub64 (add64 addr size) 1

/-- Some block ends in the page in which the freed block starts. -/
def sused (t : Tables) (heap addr : ℕ) : Bool :=
  (List.range ALLOCATIONS).any fun i =>
    decide (addr / PAGE_SIZE * PAGE_SIZE =
      lastByte (t.allocations heap i).addr (t.allocations heap i).size / PAGE_SIZE * PAGE_SIZE)

/-- Some block starts in the page in which the freed block ends. -/
def eused (t : Tables) (heap addr size : ℕ) : Bool :=
  (List.range ALLOCATIONS).any fun i =>
    decide (lastByte addr size / PAGE_SIZE * PAGE_SIZE =
      (t.allocations heap i).addr / PAGE_SIZE * PAGE_SIZE)

/-- `i * PAGE_SIZE` as the loop of `free` adds it to an address: `i` and `PAGE_SIZE` are of type
`int`, so the product wraps from page 524288 on, and its sign is extended. -/
def intOffset (i : ℕ) : ℕ :=
  if i * PAGE_SIZE % 2 ^ 32 < 2 ^ 31 then i * PAGE_SIZE % 2 ^ 32
  else i * PAGE_SIZE % 2 ^ 32 + (2 ^ 64 - 2 ^ 32)

/-- The address `addr + i * PAGE_SIZE` of the loop of `free`. -/
def turnAddr (addr i : ℕ) : ℕ := add64 addr (intOffset i)

/-- The addresses whose frames `free` hands to `phys_page_free`. -/
def releaseAddrs (t : Tables) (heap addr size : ℕ) : List ℕ :=
  (if sused t heap addr then [] else [addr]) ++
    (if eused t heap addr size then [] else [lastByte addr size]) ++
      (List.range (sub64 (pageCount addr size) 1)).tail.map fun i => turnAddr addr i

/-- The calls `phys_page_free(find_physaddr(v))` of a list. -/
def releaseEach : List ℕ → Paging → Paging
  | [], s => s
  | v :: vs, s =>
    releaseEach vs { s with bmap := physPageFree M.fm (findPhysaddr M s v) s.bmap }

def free (addr : ℕ) (st : State) : State :=
  match returnBlock addr st.tables with
  | (t, none) => ⟨t, st.paging⟩
  | (t, some (heap, size)) => ⟨t, releaseEach M (releaseAddrs t heap addr size) st.paging⟩

/-! ### Runs -/

inductive Call
  | malloc (size heap : ℕ)
  | free (addr : ℕ)
  deriving DecidableEq

def call : Call → State → State
  | .malloc size heap, st => (mallocHeap M size heap st).state
  | .free addr, st => free M addr st

def run : List Call → State → State
  | [], st => st
  | c :: cs, st => run cs (call M c st)

variable {M} {st : State}

/-- In the first 2 GiB of a block the product does not wrap. -/
lemma turnAddr_eq {addr i : ℕ} (hi : i < 524288) (h : addr + i * PAGE_SIZE < 2 ^ 64) :
    turnAddr addr i = addr + i * PAGE_SIZE := by
  have hoff : intOffset i = i * PAGE_SIZE := by
    unfold intOffset PAGE_SIZE
    rw [Nat.mod_eq_of_lt (by omega), if_pos (by omega)]
  rw [turnAddr, hoff, add64_eq h]

/-- The page after them is taken for one 2 GiB below the block. -/
example : turnAddr 0x1800000000 524288 = 0x1800000000 - 0x80000000 := by decide

lemma mallocHeap_none {size heap : ℕ} {t : Tables} (h : takeBlock size heap st.tables = (none, t)) :
    mallocHeap M size heap st = ⟨0, ⟨t, st.paging⟩, []⟩ := by
  simp [mallocHeap, h]

lemma mallocHeap_some {size heap addr : ℕ} {t : Tables}
    (h : takeBlock size heap st.tables = (some addr, t)) :
    mallocHeap M size heap st = .block addr t (mapEach M (pageAddrs addr size) st.paging) := by
  rw [mallocHeap, h]

section block

variable (addr : ℕ) (t : Tables) (r : Paging × List Event)

@[simp] lemma ptr_block : (Served.block addr t r).ptr = addr := rfl
@[simp] lemma tables_block : (Served.block addr t r).state.tables = t := rfl
@[simp] lemma paging_block : (Served.block addr t r).state.paging = r.1 := rfl
@[simp] lemma trace_block : (Served.block addr t r).trace = r.2 := rfl

end block

lemma tables_mallocHeap (size heap : ℕ) (st : State) :
    (mallocHeap M size heap st).state.tables = (takeBlock size heap st.tables).2 := by
  rcases h : takeBlock size heap st.tables with ⟨_ | addr, t⟩
  · rw [mallocHeap_none h]
  · rw [mallocHeap_some h, tables_block]

/-- The addresses for which a call `free(addr)` gets to `phys_page_free`. -/
def freedAddrs (addr : ℕ) (t : Tables) : List ℕ :=
  match returnBlock addr t with
  | (_, none) => []
  | (t', some (heap, size)) => releaseAddrs t' heap addr size

lemma free_eq (addr : ℕ) (st : State) :
    free M addr st =
      ⟨(returnBlock addr st.tables).1, releaseEach M (freedAddrs addr st.tables) st.paging⟩ := by
  unfold free freedAddrs
  rcases returnBlock addr st.tables with ⟨t, _ | ⟨heap, size⟩⟩ <;> rfl

lemma tables_free (addr : ℕ) (st : State) :
    (free M addr st).tables = (returnBlock addr st.tables).1 := by rw [free_eq]

/-! ### The blocks -/

def Live (t : Tables) (heap : ℕ) (b : MemT) : Prop :=
  ∃ k, t.allocations heap k = b ∧ 0 < b.size

def Sound (t : Tables) : Prop :=
  ∀ heap < HEAPS, ∃ A : Arena (ℕ ⊕ ℕ) (Set.Ico (heapBase heap) (heapLimit heap)), Holds t heap A

lemma sound_initMalloc : Sound initMalloc := fun _ hheap => holds_initMalloc hheap

lemma Sound.takeBlock {t : Tables} (h : Sound t) (size heap : ℕ) :
    Sound (takeBlock size heap t).2 := by
  intro k hk
  obtain ⟨A, hA⟩ := h k hk
  obtain ⟨A', -, hA'⟩ := takeBlock_step hA size heap
  exact ⟨A', hA'⟩

lemma Sound.returnBlock {t : Tables} (h : Sound t) (addr : ℕ) : Sound (returnBlock addr t).1 := by
  intro k hk
  obtain ⟨A, hA⟩ := h k hk
  obtain ⟨A', -, hA'⟩ := returnBlock_step hA addr
  exact ⟨A', hA'⟩

lemma Sound.call (h : Sound st.tables) (c : Call) : Sound (call M c st).tables := by
  cases c with
  | malloc size heap =>
    unfold Heap.call
    rw [tables_mallocHeap]
    exact h.takeBlock size heap
  | free addr =>
    unfold Heap.call
    rw [tables_free]
    exact h.returnBlock addr

lemma Sound.run (h : Sound st.tables) (cs : List Call) : Sound (run M cs st).tables := by
  induction cs generalizing st with
  | nil => exact h
  | cons c cs ih => exact ih (h.call c)

lemma Sound.within {t : Tables} (h : Sound t) {heap : ℕ} (hheap : heap < HEAPS) {b : MemT}
    (hb : Live t heap b) : heapBase heap ≤ b.addr ∧ b.addr + b.size ≤ heapLimit heap := by
  obtain ⟨A, hA⟩ := h heap hheap
  obtain ⟨k, rfl, hs⟩ := hb
  exact hA.alloc_within hs

lemma takeBlock_some {size heap addr : ℕ} {t t' : Tables}
    (h : HeapTable.takeBlock size heap t = (some addr, t')) :
    heap < HEAPS ∧ 0 < size ∧
      ∃ i k, findSpace t heap size = some i ∧ addr = (t.freespace heap i).addr ∧
        findSlot t heap = some k ∧
        ∀ h l, t'.allocations h l = if h = heap ∧ l = k then ⟨addr, size⟩ else t.allocations h l := by
  rcases takeBlock_cases size heap t with hr | ⟨hheap, hsize, i, hi, hr⟩
  · rw [hr] at h
    cases h
  · rcases hr with hr | ⟨k, hk, hr⟩ <;> rw [hr] at h
    · cases h
    · cases h
      refine ⟨hheap, hsize, i, k, hi, rfl, hk, fun h l => ?_⟩
      rw [allocations_setAlloc, allocations_setFree]

lemma live_takeBlock {size heap addr : ℕ} {t t' : Tables}
    (h : HeapTable.takeBlock size heap t = (some addr, t')) (h' : ℕ) (b : MemT) :
    Live t' h' b ↔ Live t h' b ∨ (h' = heap ∧ b = ⟨addr, size⟩) := by
  obtain ⟨-, hsize, i, k, -, -, hk, hall⟩ := takeBlock_some h
  constructor
  · rintro ⟨l, rfl, hs⟩
    rw [hall] at hs ⊢
    split
    · rename_i hc
      exact Or.inr ⟨hc.1, rfl⟩
    · rename_i hc
      rw [if_neg hc] at hs
      exact Or.inl ⟨l, rfl, hs⟩
  · rintro (⟨l, rfl, hs⟩ | ⟨rfl, rfl⟩)
    · refine ⟨l, ?_, hs⟩
      rw [hall, if_neg]
      rintro ⟨rfl, rfl⟩
      have := findSlot_some hk
      omega
    · exact ⟨k, by rw [hall, if_pos ⟨rfl, rfl⟩], hsize⟩

lemma Sound.fresh {size heap addr : ℕ} {t t' : Tables} (hs : Sound t)
    (h : HeapTable.takeBlock size heap t = (some addr, t')) {h' : ℕ} (hh' : h' < HEAPS) {b : MemT}
    (hb : Live t h' b) : Disjoint (bytes ⟨addr, size⟩) (bytes b) := by
  obtain ⟨hheap, hsize, i, k, -, -, hk, hall⟩ := takeBlock_some h
  have hs' : Sound t' := by
    have := hs.takeBlock size heap
    rwa [h] at this
  have hnew : Live t' heap ⟨addr, size⟩ := (live_takeBlock h heap _).mpr (Or.inr ⟨rfl, rfl⟩)
  by_cases hh : h' = heap
  · subst hh
    obtain ⟨A, hA⟩ := hs' h' hh'
    obtain ⟨l, rfl, hl⟩ := hb
    have hlk : l ≠ k := by
      rintro rfl
      have := findSlot_some hk
      omega
    have hsep := A.separate (.inl k) (.inl l) (by simpa using hlk.symm)
    rw [hA.pieces, hA.pieces] at hsep
    simpa only [piece, hall, true_and, if_true, if_neg hlk] using hsep
  · have h₁ := hs'.within hheap hnew
    have h₂ := hs.within hh' hb
    rw [Set.disjoint_left]
    intro a ha hab
    rw [mem_bytes] at ha hab
    unfold HEAPS at hheap hh'
    unfold heapBase heapLimit kernelHeap kernelStack userspaceHeap userspaceStack at h₁ h₂
    dsimp only at h₁ ha
    split at h₁ <;> split at h₂ <;> omega

/-- **Heap separation.** Whatever blocks are taken and whatever addresses are freed, in
either heap the blocks and the free spaces never meet and stay within the heap, and a block
that `malloc_heap` returns meets no live block. -/
theorem heaps_separate (M : Machine) (s : Paging) (cs : List Call) (heap : ℕ)
    (hheap : heap < HEAPS) :
    let st := run M cs ⟨initMalloc, s⟩
    (∀ k l, k ≠ l →
      Disjoint (bytes (st.tables.allocations heap k)) (bytes (st.tables.allocations heap l))) ∧
    (∀ i j, i ≠ j →
      Disjoint (bytes (st.tables.freespace heap i)) (bytes (st.tables.freespace heap j))) ∧
    (∀ k i, Disjoint (bytes (st.tables.allocations heap k)) (bytes (st.tables.freespace heap i))) ∧
    (∀ k, 0 < (st.tables.allocations heap k).size →
      heapBase heap ≤ (st.tables.allocations heap k).addr ∧
        (st.tables.allocations heap k).addr + (st.tables.allocations heap k).size ≤
          heapLimit heap) ∧
    (∀ i, 0 < (st.tables.freespace heap i).size →
      heapBase heap ≤ (st.tables.freespace heap i).addr ∧
        (st.tables.freespace heap i).addr + (st.tables.freespace heap i).size ≤ heapLimit heap) ∧
    ∀ size, (mallocHeap M size heap st).ptr ≠ 0 → ∀ h < HEAPS, ∀ b, Live st.tables h b →
      Disjoint (bytes ⟨(mallocHeap M size heap st).ptr, size⟩) (bytes b) := by
  intro st
  have hs : Sound st.tables := sound_initMalloc.run cs
  obtain ⟨A, hA⟩ := hs heap hheap
  have hsep : ∀ k l, k ≠ l → Disjoint (piece st.tables heap k) (piece st.tables heap l) := by
    intro k l hkl
    have := A.separate k l hkl
    rwa [hA.pieces, hA.pieces] at this
  refine ⟨fun k l hkl => hsep (.inl k) (.inl l) (by simpa using hkl),
    fun i j hij => hsep (.inr i) (.inr j) (by simpa using hij),
    fun k i => hsep (.inl k) (.inr i) (by simp), fun k => hA.alloc_within,
    fun i => hA.free_within, fun size hp h hh b hb => ?_⟩
  rcases ht : takeBlock size heap st.tables with ⟨_ | addr, t⟩
  · rw [mallocHeap_none ht] at hp
    exact absurd rfl hp
  · rw [mallocHeap_some ht, ptr_block]
    exact hs.fresh ht hh hb

theorem heaps_separate_two :
    let st := run threeFrames [.malloc 16 0, .malloc 4096 0] ⟨initMalloc, zeroed⟩
    st.tables.allocations 0 0 = ⟨kernelHeap, 16⟩ ∧
      st.tables.allocations 0 1 = ⟨kernelHeap + 16, 4096⟩ ∧
      Disjoint (bytes (st.tables.allocations 0 0)) (bytes (st.tables.allocations 0 1)) :=
  ⟨by decide +kernel, by decide +kernel,
    (heaps_separate threeFrames zeroed [.malloc 16 0, .malloc 4096 0] 0 (by decide)).1 0 1
      (by decide)⟩

end FlameOS.Heap
