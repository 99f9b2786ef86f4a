import FlameOS.Heap

/-!
`init_paging` and `init_memory`: the state in which the heaps start. `init_paging` maps the
kernel, its stack, the framebuffer, the bitmap and the freemap; the last three pages it
places lie where `init_malloc` puts the kernel heap.
-/

namespace FlameOS.Boot

open FlameOS.Word FlameOS.FrameAlloc FlameOS.PageTable FlameOS.MapPage FlameOS.MapSpec FlameOS.MapRun
open FlameOS.HeapTable FlameOS.HeapArena FlameOS.Heap

/-- The globals that `init_paging` reads, as `init_globals` leaves them. -/
structure BootInfo where
  kernelPaddr : ℕ
  kernelVaddr : ℕ
  kernelSize : ℕ
  kernelStackPaddr : ℕ
  fbAddr : ℕ
  fbSize : ℕ
  pmemBmap : ℕ
  pmemBmapPages : ℕ
  freemap : ℕ

/-- The calls `map_page(addr1, addr2)` of a loop that adds a page to both addresses at every
turn and goes on while one of them is below `lim`. A distance of `n` is covered in at most
`n` turns. -/
def loopCalls (which : ℕ × ℕ → ℕ) (lim : ℕ) : ℕ → ℕ → ℕ → List (ℕ × ℕ)
  | 0, _, _ => []
  | n + 1, addr1, addr2 =>
    if which (addr1, addr2) < lim then
      (addr1, addr2) :: loopCalls which lim n (add64 addr1 PAGE_SIZE) (add64 addr2 PAGE_SIZE)
    else []

def kernelCalls (b : BootInfo) : List (ℕ × ℕ) :=
  loopCalls Prod.snd (add64 b.kernelVaddr b.kernelSize) b.kernelSize b.kernelPaddr b.kernelVaddr

def stackCall (b : BootInfo) : ℕ × ℕ := (b.kernelStackPaddr, kernelStack - PAGE_SIZE)

def fbCalls (b : BootInfo) : List (ℕ × ℕ) :=
  loopCalls Prod.fst (add64 b.fbAddr b.fbSize) b.fbSize b.fbAddr 0x8000000000

/-- The limit adds the number of pages, not of bytes, to the address. -/
def bmapCalls (b : BootInfo) : List (ℕ × ℕ) :=
  loopCalls Prod.fst (add64 b.pmemBmap b.pmemBmapPages) b.pmemBmapPages b.pmemBmap
    (kernelHeap + PAGE_SIZE)

def freemapCall (b : BootInfo) : ℕ × ℕ := (b.freemap, kernelHeap)

def bootCalls (b : BootInfo) : List (ℕ × ℕ) :=
  kernelCalls b ++ stackCall b :: fbCalls b ++ bmapCalls b ++ [freemapCall b]

/-- `init_paging`: the memory it leaves, and what it did. -/
def initPaging (M : Machine) (b : BootInfo) (s : Paging) : Paging × List Event :=
  runCalls M (bootCalls b) (s.memset M.pml4)

def initMemory (M : Machine) (b : BootInfo) (s : Paging) : State :=
  ⟨initMalloc, (initPaging M b s).1⟩

/-! ### A small machine -/

def smallMap (n : ℕ) : Freemap := ⟨fun _ => ⟨0x100000, n⟩, 1, 1⟩

lemma mem_smallMap {n a : ℕ} (h : n ≤ 256) :
    a ∈ (smallMap n).pages ↔ ∃ j < n, a = 0x100000 + j * PAGE_SIZE := by
  rw [← mem_pagesFrom (by unfold PAGE_SIZE; omega)]
  simp [Freemap.pages, Freemap.regions, regionPages, smallMap]

lemma pml4_notMem_smallMap {n : ℕ} (h : n ≤ 256) : 0x201000 ∉ (smallMap n).pages := by
  rw [mem_smallMap h]
  rintro ⟨j, hj, he⟩
  unfold PAGE_SIZE at he
  omega

/-- A kernel of two pages, the second of which holds `pml4`, and `n` frames of memory. -/
def smallMachine (n : ℕ) (h : n ≤ 256) : Machine where
  pml4 := 0x201000
  fm := smallMap n
  pml4_ne_zero := Nat.succ_ne_zero _
  pml4_notMem := pml4_notMem_smallMap h

lemma framesOk_smallMachine {n : ℕ} (h : n ≤ 256) : FramesOk (smallMachine n h) := by
  have hr : ∀ r ∈ (smallMachine n h).fm.regions 1, r = ⟨0x100000, n⟩ := by
    intro r hr
    simpa [Freemap.regions, smallMachine, smallMap] using hr
  refine ⟨⟨fun r hm => ?_, fun r hm => ?_, List.pairwise_singleton _ _, le_refl 1⟩, fun a ha => ?_⟩
  · rw [hr r hm]
    exact (by decide : 0x100000 % PAGE_SIZE = 0)
  · rw [hr r hm]
    unfold PAGE_SIZE
    dsimp only
    omega
  · obtain ⟨j, hj, rfl⟩ := (mem_smallMap h).mp ha
    unfold PAGE_SIZE
    omega

def smallBoot : BootInfo where
  kernelPaddr := 0x200000
  kernelVaddr := 0x1000000000
  kernelSize := 0x2000
  kernelStackPaddr := 0x202000
  fbAddr := 0x80000000
  fbSize := 0x1000
  pmemBmap := 0x203000
  pmemBmapPages := 1
  freemap := 0x204000

/-! ### The kernel heap and the kernel's own pages -/

/-- The virtual pages that `init_paging` gives the freemap, the bitmap and the stack. -/
def ownPages (b : BootInfo) : List ℕ :=
  (freemapCall b).2 :: (bmapCalls b).map Prod.snd ++ [(stackCall b).2]

/-- The heap is as `init_malloc` leaves it. -/
def Untouched (heap : ℕ) (t : Tables) : Prop :=
  t.freespace heap = initMalloc.freespace heap ∧ t.allocations heap = initMalloc.allocations heap

/-- The sizes for which the heap has room. -/
def Fits (heap size : ℕ) : Prop := 0 < size ∧ size ≤ heapLimit heap - heapBase heap

variable {M : Machine} {t : Tables} {st : State} {heap : ℕ}

lemma Untouched.size_le (h : Untouched heap t) (i : ℕ) :
    (t.freespace heap i).size ≤ heapLimit heap - heapBase heap := by
  rw [h.1]
  unfold initMalloc
  dsimp only
  split
  · rename_i h0
    rw [h0.1]
    exact le_refl _
  · split
    · rename_i h1
      rw [h1.1]
      exact le_refl _
    · exact Nat.zero_le _

lemma Untouched.takeBlock (h : Untouched heap t) {size heap' : ℕ}
    (hs : heap' = heap → ¬ Fits heap size) : Untouched heap (takeBlock size heap' t).2 := by
  by_cases hh : heap' = heap
  · subst hh
    rcases takeBlock_cases size heap' t with hr | ⟨-, hpos, i, hi, -⟩
    · rwa [hr]
    · exact absurd ⟨hpos, (findSpace_some hi).trans (h.size_le i)⟩ (hs rfl)
  · obtain ⟨hf, ha⟩ := takeBlock_other hh size t
    exact ⟨hf.trans h.1, ha.trans h.2⟩

lemma Untouched.returnBlock (h : Untouched heap t) (addr : ℕ) :
    Untouched heap (returnBlock addr t).1 := by
  by_cases hh : heapOf addr = some heap
  · rcases returnBlock_cases addr t with hr | ⟨heap', k, hh', hk, -⟩
    · rwa [hr]
    · obtain rfl : heap' = heap := Option.some.inj (hh'.symm.trans hh)
      have ha := findAlloc_some hk
      rw [h.2] at ha
      have := (heapOf_pos hh).2.1
      have := (heap_bounds heap').1
      change 0 = addr at ha
      omega
  · obtain ⟨hf, ha⟩ := returnBlock_other hh t
    exact ⟨hf.trans h.1, ha.trans h.2⟩

lemma Untouched.call (h : Untouched heap st.tables) {c : Call}
    (hc : ∀ size, c = .malloc size heap → ¬ Fits heap size) :
    Untouched heap (call M c st).tables := by
  cases c with
  | malloc size heap' =>
    rw [Heap.call, tables_mallocHeap]
    exact h.takeBlock fun hh => hc size (by rw [hh])
  | free addr =>
    rw [Heap.call, tables_free]
    exact h.returnBlock addr

lemma Untouched.run (h : Untouched heap st.tables) {cs : List Call}
    (hc : ∀ size, .malloc size heap ∈ cs → ¬ Fits heap size) :
    Untouched heap (run M cs st).tables := by
  induction cs generalizing st with
  | nil => exact h
  | cons c cs ih =>
    exact ih (h.call fun size he => hc size (he ▸ List.mem_cons_self)) fun size hm =>
      hc size (List.mem_cons_of_mem _ hm)

lemma Untouched.first (h : Untouched 0 t) {size : ℕ} (hs : Fits 0 size) :
    ∃ t', HeapTable.takeBlock size 0 t = (some kernelHeap, t') := by
  have hspace : findSpace t 0 size = some 0 := by
    have hle : (initMalloc.freespace 0 0).size ≥ size := hs.2
    simp [findSpace, h.1, FREE_SPACES, hle]
  have hslot : ∀ e, findSlot (t.setFree 0 0 e) 0 = some 0 := by
    intro e
    simp [findSlot, h.2, initMalloc, ALLOCATIONS]
  unfold HeapTable.takeBlock
  rw [if_neg (by unfold HEAPS; have := hs.1; omega), hspace]
  simp only [hslot, h.1]
  exact ⟨_, rfl⟩

lemma Untouched.exists_first (h : Untouched 0 st.tables) {cs : List Call} {size : ℕ}
    (hm : .malloc size 0 ∈ cs) (hs : Fits 0 size) :
    ∃ ds n, ds <+: cs ∧ Live (Heap.run M ds st).tables 0 ⟨kernelHeap, n⟩ ∧ 0 < n := by
  induction cs generalizing st with
  | nil => cases hm
  | cons c cs ih =>
    by_cases hfirst : ∃ n, c = .malloc n 0 ∧ Fits 0 n
    · obtain ⟨n, rfl, hn⟩ := hfirst
      obtain ⟨t', ht⟩ := h.first hn
      refine ⟨[.malloc n 0], n, ⟨cs, rfl⟩, ?_, hn.1⟩
      have htab : (Heap.run M [.malloc n 0] st).tables = t' := by
        change (mallocHeap M n 0 st).state.tables = t'
        rw [tables_mallocHeap, ht]
      rw [htab]
      exact (live_takeBlock ht 0 _).mpr (Or.inr ⟨rfl, rfl⟩)
    · have hm' : Call.malloc size 0 ∈ cs := by
        rcases List.mem_cons.mp hm with he | hm
        · exact absurd ⟨size, he.symm, hs⟩ hfirst
        · exact hm
      obtain ⟨ds, n, hds, hlive, hn⟩ :=
        ih (h.call (M := M) fun n he hn => hfirst ⟨n, he, hn⟩) hm'
      exact ⟨c :: ds, n, (List.prefix_cons_inj c).mpr hds, hlive, hn⟩

/-- **The kernel heap and the kernel's own pages.** No block ever meets a page that
`init_paging` placed for the kernel exactly when no block of the kernel heap is ever
taken: the first one lies on the page of the freemap. -/
theorem own_pages_spared_iff (M : Machine) (b : BootInfo) (s : Paging) (cs : List Call) :
    (∀ ds, ds <+: cs → ∀ e, Live (run M ds (initMemory M b s)).tables 0 e →
      ∀ v ∈ ownPages b, Disjoint (bytes e) (Set.Ico v (v + PAGE_SIZE))) ↔
    ∀ size, .malloc size 0 ∈ cs → size = 0 ∨ kernelStack - kernelHeap < size := by
  have hstart : Untouched 0 (initMemory M b s).tables := ⟨rfl, rfl⟩
  constructor
  · intro hall size hm
    by_contra hc
    rw [not_or, not_lt] at hc
    obtain ⟨ds, n, hds, hlive, hn⟩ :=
      hstart.exists_first (M := M) hm ⟨Nat.pos_of_ne_zero hc.1, hc.2⟩
    have hdis := hall ds hds _ hlive kernelHeap List.mem_cons_self
    have hself : kernelHeap ∈ bytes ⟨kernelHeap, n⟩ := start_mem hn
    exact Set.disjoint_left.mp hdis hself ⟨le_refl _, by unfold PAGE_SIZE; omega⟩
  · rintro hno ds ⟨es, rfl⟩ e ⟨k, hk, hpos⟩
    have hrun : Untouched 0 (run M ds (initMemory M b s)).tables := hstart.run fun size hm hfit => by
      have h₁ := hno size (List.mem_append_left es hm)
      have h₂ : size ≤ kernelStack - kernelHeap := hfit.2
      have h₃ := hfit.1
      omega
    rw [hrun.2] at hk
    rw [← hk] at hpos
    exact absurd hpos (Nat.lt_irrefl 0)

/-- `malloc(16)` after boot: the block overlaps the page where the freemap is mapped. -/
theorem own_pages_spared_first :
    let M := smallMachine 16 (by decide)
    let st := run M [.malloc 16 0] (initMemory M smallBoot zeroed)
    Live st.tables 0 ⟨kernelHeap, 16⟩ ∧ kernelHeap ∈ ownPages smallBoot ∧
      findPhysaddr M st.paging kernelHeap = smallBoot.freemap ∧
      ¬ Disjoint (bytes ⟨kernelHeap, 16⟩) (Set.Ico kernelHeap (kernelHeap + PAGE_SIZE)) :=
  ⟨⟨0, by decide +kernel, by decide⟩, by decide, by decide +kernel,
    Set.not_disjoint_iff.mpr ⟨kernelHeap, ⟨le_refl _, by decide⟩, ⟨le_refl _, by decide⟩⟩⟩

/-! ### Running out of frames -/

/-- What a request that cannot be served should leave: no block, and the tables and the
translations as they were. -/
def Harmless (M : Machine) (size heap : ℕ) (st : State) : Prop :=
  (mallocHeap M size heap st).ptr = 0 ∧ (mallocHeap M size heap st).state.tables = st.tables ∧
    ∀ v, findPhysaddr M st.paging v ≠ 0 →
      findPhysaddr M (mallocHeap M size heap st).state.paging v = findPhysaddr M st.paging v

/-- **Running out of frames is never reported.** If the allocator has no frame left for one
of the pages of a block or for one of their tables, `malloc_heap` returns the block all the
same and keeps its entry. -/
theorem not_harmless_of_ranOut (M : Machine) (s : Paging) (cs : List Call) (size heap : ℕ)
    (hran : ∃ e ∈ (mallocHeap M size heap (run M cs ⟨initMalloc, s⟩)).trace, RanOut M.fm e) :
    let st := run M cs ⟨initMalloc, s⟩
    (mallocHeap M size heap st).ptr ≠ 0 ∧ (mallocHeap M size heap st).state.tables ≠ st.tables ∧
      ¬ Harmless M size heap st := by
  intro st
  have hs : Sound st.tables := sound_initMalloc.run cs
  obtain ⟨e, he, -⟩ := hran
  rcases ht : takeBlock size heap st.tables with ⟨_ | addr, t⟩
  · rw [mallocHeap_none ht] at he
    cases he
  · obtain ⟨hheap, hsize, i, k, hi, hfs, hk, hall⟩ := takeBlock_some ht
    obtain ⟨A, hA⟩ := hs heap hheap
    have hroom := findSpace_some hi
    have haddr : addr ≠ 0 := by
      have := (hA.free_within (i := i) (by omega)).1
      have := (heap_bounds heap).1
      omega
    have hptr : (mallocHeap M size heap st).ptr ≠ 0 := by rwa [mallocHeap_some ht, ptr_block]
    refine ⟨hptr, fun htab => ?_, fun hh => hptr hh.1⟩
    have hnew := hall heap k
    rw [mallocHeap_some ht, tables_block] at htab
    rw [if_pos ⟨rfl, rfl⟩, htab] at hnew
    have hfree := findSlot_some hk
    rw [hnew] at hfree
    exact absurd hfree hsize.ne'

/-- Boot takes the twelve frames of this machine; the third page of the block that
`malloc(0x3000)` returns lies on frame 0. -/
theorem not_harmless_of_ranOut_twelve :
    let M := smallMachine 12 (by decide)
    let st := initMemory M smallBoot zeroed
    (∀ e ∈ (initPaging M smallBoot zeroed).2, ¬ RanOut M.fm e) ∧
      (∃ e ∈ (mallocHeap M 0x3000 0 st).trace, RanOut M.fm e) ∧ ¬ Harmless M 0x3000 0 st ∧
      (mallocHeap M 0x3000 0 st).ptr = kernelHeap ∧
      findPhysaddr M (mallocHeap M 0x3000 0 st).state.paging (kernelHeap + 0x2008) = 8 := by
  have hret : (mallocHeap (smallMachine 12 (by decide)) 0x3000 0
      (initMemory (smallMachine 12 (by decide)) smallBoot zeroed)).ptr = kernelHeap := by
    decide +kernel
  refine ⟨by decide +kernel, by decide +kernel, fun hh => ?_, hret, by decide +kernel⟩
  have h0 := hh.1
  rw [hret] at h0
  exact absurd h0 (by decide)

theorem not_harmless_of_ranOut_one :
    let st : State := ⟨initMalloc, zeroed⟩
    ¬ Harmless threeFrames 1 0 st :=
  (not_harmless_of_ranOut threeFrames zeroed [] 1 0 (by decide +kernel)).2.2

end FlameOS.Boot
