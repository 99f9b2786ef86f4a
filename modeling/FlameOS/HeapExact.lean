import FlameOS.HeapWhole
import FlameOS.Coalesce

/-!
What the tables lose at the end of a table: `malloc_heap` shrinks the free space before it
looks for an entry of `allocations`, and `free` gives the entry up before it looks for an
entry of `freespace`.
-/

namespace FlameOS.HeapExact

open FlameOS.Word FlameOS.PageTable FlameOS.MapPage FlameOS.MapRun FlameOS.HeapTable
open FlameOS.HeapArena FlameOS.Heap FlameOS.HeapWhole FlameOS.Refresh FlameOS.Coalesce

lemma tables_ext {t t' : Tables} (hf : ∀ h i, t.freespace h i = t'.freespace h i)
    (ha : ∀ h k, t.allocations h k = t'.allocations h k) : t = t' := by
  cases t
  cases t'
  congr
  · exact funext fun h => funext fun i => hf h i
  · exact funext fun h => funext fun k => ha h k

/-! ### A request that fails -/

variable {M : Machine} {t : Tables} {st : State} {heap size addr : ℕ}

/-- A request that finds a free space and no entry of `allocations` shrinks the free space. -/
lemma takeBlock_of_full {i : ℕ} (hheap : heap < HEAPS) (hsize : size ≠ 0)
    (hi : findSpace t heap size = some i) (hk : findSlot t heap = none) :
    takeBlock size heap t = (none, t.setFree heap i (shrink (t.freespace heap i) size)) := by
  rw [takeBlock_of_space hheap hsize hi, hk]
  rfl

/-- The start of a free space that is shrunk moves. -/
lemma setFree_shrink_ne (hs : Sound t) {i : ℕ} (hheap : heap < HEAPS) (hsize : size ≠ 0)
    (hi : findSpace t heap size = some i) :
    t.setFree heap i (shrink (t.freespace heap i) size) ≠ t := by
  intro he
  obtain ⟨A, hA⟩ := hs heap hheap
  have hle := findSpace_some hi
  have hin := hA.free_within (i := i) (by omega)
  have h63 := (heap_bounds heap).2
  have hsame : shrink (t.freespace heap i) size = t.freespace heap i := by
    have := congrArg (fun u => u.freespace heap i) he
    simpa [freespace_setFree] using this
  have haddr := congrArg MemT.addr hsame
  unfold shrink at haddr
  dsimp only at haddr
  rw [add64_eq (by omega)] at haddr
  omega

/-- **When a request that fails changes nothing.** In every state the calls lead to, the
tables after a `malloc_heap` that returns 0 are those before it, exactly if the request does
not find a free space while every entry of `allocations` is in use. -/
theorem mallocHeap_fails_iff (M : Machine) (s : Paging) (cs : List Call) (size heap : ℕ)
    (hheap : heap < HEAPS) :
    let st := run M cs ⟨initMalloc, s⟩
    ((mallocHeap M size heap st).ptr = 0 →
      (mallocHeap M size heap st).state.tables = st.tables) ↔
    ¬ (size ≠ 0 ∧ (∃ i < FREE_SPACES, size ≤ (st.tables.freespace heap i).size) ∧
      ∀ k < ALLOCATIONS, (st.tables.allocations heap k).size ≠ 0) := by
  intro st
  have hs : Sound st.tables := sound_initMalloc.run cs
  have hspace : (∃ i < FREE_SPACES, size ≤ (st.tables.freespace heap i).size) ↔
      ∃ i, findSpace st.tables heap size = some i := by
    rw [← Option.isSome_iff_exists, findSpace, List.find?_isSome]
    simp
  have hslot : (∀ k < ALLOCATIONS, (st.tables.allocations heap k).size ≠ 0) ↔
      findSlot st.tables heap = none := by
    rw [findSlot, List.find?_eq_none]
    simp
  rw [hspace, hslot]
  constructor
  · rintro h ⟨hsize, ⟨i, hi⟩, hk⟩
    have hr := takeBlock_of_full hheap hsize hi hk
    rw [mallocHeap_none hr] at h
    exact setFree_shrink_ne hs hheap hsize hi (h rfl)
  · intro hno hptr
    rcases takeBlock_cases size heap st.tables with hr | ⟨-, hsize, i, hi, hr | ⟨k, hk, hr⟩⟩
    · rw [mallocHeap_none hr]
    · rcases hk : findSlot st.tables heap with _ | k
      · exact absurd ⟨hsize.ne', ⟨i, hi⟩, hk⟩ hno
      · rw [takeBlock_of_slot hheap hsize.ne' hi hk] at hr
        cases hr
    · -- the address of a block is not 0
      rw [mallocHeap_some hr, ptr_block] at hptr
      obtain ⟨A, hA⟩ := hs heap hheap
      have hle := findSpace_some hi
      have hin := hA.free_within (i := i) (by omega)
      have h0 := (heap_bounds heap).1
      omega

theorem mallocHeap_fails_iff_large :
    (mallocHeap threeFrames (2 ^ 40) 0
      (run threeFrames [.malloc 16 0] ⟨initMalloc, zeroed⟩)).ptr = 0 ∧
    (mallocHeap threeFrames (2 ^ 40) 0
        (run threeFrames [.malloc 16 0] ⟨initMalloc, zeroed⟩)).state.tables =
      (run threeFrames [.malloc 16 0] ⟨initMalloc, zeroed⟩).tables := by
  have hptr : (mallocHeap threeFrames (2 ^ 40) 0
      (run threeFrames [.malloc 16 0] ⟨initMalloc, zeroed⟩)).ptr = 0 := by decide +kernel
  refine ⟨hptr, (mallocHeap_fails_iff threeFrames zeroed [.malloc 16 0] (2 ^ 40) 0
    (by decide)).mpr ?_ hptr⟩
  have hfree : ((run threeFrames [.malloc 16 0] ⟨initMalloc, zeroed⟩).tables.allocations 0 1).size =
      0 := by decide +kernel
  exact fun h => h.2.2 1 (by decide) hfree

def filled (n : ℕ) : Tables where
  freespace heap i :=
    if heap = 0 ∧ i = 0 then ⟨kernelHeap + n, kernelStack - kernelHeap - n⟩
    else initMalloc.freespace heap i
  allocations heap k := if heap = 0 ∧ k < n then ⟨kernelHeap + k, 1⟩ else ⟨0, 0⟩

lemma findSpace_filled {n : ℕ} (hn : n < ALLOCATIONS) : findSpace (filled n) 0 1 = some 0 := by
  unfold findSpace
  rw [List.find?_range_eq_some]
  refine ⟨?_, List.mem_range.mpr (by decide), fun j hj => absurd hj (Nat.not_lt_zero j)⟩
  rw [decide_eq_true_iff]
  unfold ALLOCATIONS at hn
  simp only [filled, and_self, if_true]
  unfold kernelStack kernelHeap
  omega

lemma findSlot_filled {n : ℕ} (hn : n < ALLOCATIONS) : findSlot (filled n) 0 = some n := by
  unfold findSlot
  rw [List.find?_range_eq_some]
  refine ⟨by simp [filled], List.mem_range.mpr hn, fun j hj => ?_⟩
  simp [filled, hj]

lemma findSlot_filled_full : findSlot (filled ALLOCATIONS) 0 = none := by
  unfold findSlot
  rw [List.find?_eq_none]
  intro k hk
  simp [filled, List.mem_range.mp hk]

lemma takeBlock_filled {n : ℕ} (hn : n < ALLOCATIONS) :
    takeBlock 1 0 (filled n) = (some (kernelHeap + n), filled (n + 1)) := by
  rw [takeBlock_of_slot (by decide) (by decide) (findSpace_filled hn) (findSlot_filled hn)]
  unfold ALLOCATIONS at hn
  have hfree : (filled n).freespace 0 0 = ⟨kernelHeap + n, kernelStack - kernelHeap - n⟩ := rfl
  have hshrink : shrink ((filled n).freespace 0 0) 1 =
      ⟨kernelHeap + (n + 1), kernelStack - kernelHeap - (n + 1)⟩ := by
    rw [hfree, shrink]
    unfold kernelStack kernelHeap
    dsimp only
    rw [add64_eq (by omega), sub64_eq (by omega) (by omega)]
    rfl
  rw [hshrink, hfree]
  refine Prod.ext rfl (tables_ext (fun h i => ?_) fun h k => ?_)
  · rw [freespace_setAlloc, freespace_setFree]
    by_cases hc : h = 0 ∧ i = 0
    · simp [filled, hc]
    · simp [filled, hc]
  · rw [allocations_setAlloc, allocations_setFree]
    by_cases hc : h = 0 ∧ k = n
    · simp [filled, hc]
    · rw [if_neg hc]
      have hiff : (h = 0 ∧ k < n + 1) ↔ (h = 0 ∧ k < n) := by omega
      simp only [filled, hiff]

lemma tables_run_filled {m n : ℕ} (hst : st.tables = filled n) (hn : n + m ≤ ALLOCATIONS) :
    (run M (List.replicate m (.malloc 1 0)) st).tables = filled (n + m) := by
  induction m generalizing st n with
  | zero => exact hst
  | succ m ih =>
    have hnext : (mallocHeap M 1 0 st).state.tables = filled (n + 1) := by
      rw [tables_mallocHeap, hst, takeBlock_filled (by omega)]
    rw [List.replicate_succ, run, call, ih hnext (by omega), Nat.add_assoc, Nat.add_comm 1 m]

/-- With 512 blocks live, the request that fails takes a byte from the free space. -/
theorem not_mallocHeap_fails :
    let st := run threeFrames (List.replicate ALLOCATIONS (.malloc 1 0)) ⟨initMalloc, zeroed⟩
    (mallocHeap threeFrames 1 0 st).ptr = 0 ∧
      st.tables.freespace 0 0 = ⟨kernelHeap + 512, kernelStack - kernelHeap - 512⟩ ∧
      (mallocHeap threeFrames 1 0 st).state.tables.freespace 0 0 =
        ⟨kernelHeap + 513, kernelStack - kernelHeap - 513⟩ := by
  intro st
  have h0 : initMalloc = filled 0 := tables_ext (fun h i => by
    by_cases hc : h = 0 ∧ i = 0
    · simp [filled, initMalloc, hc]
    · simp [filled, hc]) fun h k => by simp [filled, initMalloc]
  have ht : st.tables = filled (0 + ALLOCATIONS) :=
    tables_run_filled h0 (Nat.zero_add ALLOCATIONS).le
  rw [Nat.zero_add] at ht
  have hspace : findSpace (filled ALLOCATIONS) 0 1 = some 0 := by
    unfold findSpace
    rw [List.find?_range_eq_some]
    exact ⟨by decide, List.mem_range.mpr (by decide), fun j hj => absurd hj (Nat.not_lt_zero j)⟩
  have hr := takeBlock_of_full (by decide) (by decide) hspace findSlot_filled_full
  rw [← ht] at hr
  rw [mallocHeap_none hr, ht]
  refine ⟨rfl, rfl, ?_⟩
  rw [freespace_setFree, if_pos ⟨rfl, rfl⟩]
  decide

/-! ### A block given back -/

/-- The blocks and the free spaces of a heap are disjoint and lie in the heap. -/
structure Separated (t : Tables) (heap : ℕ) : Prop where
  blocks : Regions (heapBase heap) (heapLimit heap) ALLOCATIONS (t.allocations heap)
  free : Regions (heapBase heap) (heapLimit heap) FREE_SPACES (t.freespace heap)
  apart : ∀ k < ALLOCATIONS, ∀ i < FREE_SPACES,
    Disjoint (bytes (t.allocations heap k)) (bytes (t.freespace heap i))

structure GivenBack (t t' : Tables) (heap k : ℕ) : Prop where
  covered_eq : covered FREE_SPACES (t'.freespace heap) =
    covered FREE_SPACES (t.freespace heap) ∪ bytes (t.allocations heap k)
  gone : t'.allocations heap k = ⟨0, 0⟩
  others : ∀ l, l ≠ k → t'.allocations heap l = t.allocations heap l
  heaps : ∀ h, h ≠ heap → t'.freespace h = t.freespace h ∧ t'.allocations h = t.allocations h

/-- An empty free space, or one next to the block. -/
def Takes (e b : MemT) : Prop := e.size = 0 ∨ ends b = e.addr ∨ ends e = b.addr

lemma heapOf_eq {heap addr : ℕ} (hheap : heap < HEAPS) (hlo : heapBase heap ≤ addr)
    (hhi : addr < heapLimit heap) : heapOf addr = some heap := by
  unfold HEAPS at hheap
  obtain rfl | rfl : heap = 0 ∨ heap = 1 := by omega
  · exact if_pos ⟨hlo, hhi⟩
  · unfold heapBase heapLimit at *
    simp only [one_ne_zero, if_false] at hlo hhi
    unfold heapOf
    rw [if_neg, if_pos ⟨hlo, hhi⟩]
    unfold kernelHeap
    unfold userspaceStack at hhi
    omega

lemma covered_update {n i : ℕ} {fs : ℕ → MemT} {e : MemT} {S : Set ℕ} (hi : i < n)
    (he : bytes e = bytes (fs i) ∪ S) :
    covered n (Function.update fs i e) = covered n fs ∪ S := by
  ext a
  constructor
  · rintro ⟨j, hj, ha⟩
    by_cases hji : j = i
    · subst hji
      rw [Function.update_self, he] at ha
      exact ha.imp (fun ha => ⟨j, hj, ha⟩) id
    · rw [Function.update_of_ne hji] at ha
      exact Or.inl ⟨j, hj, ha⟩
  · rintro (⟨j, hj, ha⟩ | ha)
    · by_cases hji : j = i
      · subst hji
        exact ⟨j, hj, by rw [Function.update_self, he]; exact Or.inl ha⟩
      · exact ⟨j, hj, by rwa [Function.update_of_ne hji]⟩
    · exact ⟨i, hi, by rw [Function.update_self, he]; exact Or.inr ha⟩

section free

variable {k : ℕ}

lemma findAlloc_eq (hk : k < ALLOCATIONS)
    (hfirst : ∀ l < k, (t.allocations heap l).addr ≠ (t.allocations heap k).addr) :
    findAlloc t heap (t.allocations heap k).addr = some k := by
  unfold findAlloc
  rw [List.find?_range_eq_some]
  refine ⟨by simp, List.mem_range.mpr hk, fun l hl => ?_⟩
  simpa using (hfirst l hl).symm

lemma Separated.block (h : Separated t heap) (hk : k < ALLOCATIONS)
    (hs : 0 < (t.allocations heap k).size) :
    0 < (t.allocations heap k).addr ∧ heapBase heap ≤ (t.allocations heap k).addr ∧
      (t.allocations heap k).addr + (t.allocations heap k).size ≤ heapLimit heap := by
  have h1 := h.blocks.within k hk hs
  have h2 := (heap_bounds heap).1
  unfold ends at h1
  omega

lemma Separated.add64_free (h : Separated t heap) {i : ℕ} (hi : i < FREE_SPACES) :
    add64 (t.freespace heap i).addr (t.freespace heap i).size = ends (t.freespace heap i) := by
  by_cases hs : 0 < (t.freespace heap i).size
  · have h1 := (h.free.within i hi hs).2
    have h2 := limit_lt heap
    exact add64_eq (by unfold ends at h1; omega)
  · have h1 := h.free.word i hi
    exact add64_eq (by omega)

/-- Some entry takes the block, as `free` looks for one. -/
lemma Separated.takes_iff (h : Separated t heap) {b : MemT} (hb : ends b < 2 ^ 64) :
    (∃ i < FREE_SPACES, Takes (t.freespace heap i) b) ↔
      ¬ (findNeighbour t heap b.addr b.size = none ∧ findEmpty t heap = none) := by
  unfold findNeighbour findEmpty
  rw [List.find?_eq_none, List.find?_eq_none]
  have hadd : add64 b.addr b.size = ends b := add64_eq (by unfold ends at hb; omega)
  constructor
  · rintro ⟨i, hi, ht⟩ ⟨hn, he⟩
    have hn := hn i (List.mem_range.mpr hi)
    have he := he i (List.mem_range.mpr hi)
    simp only [isBehind, isAfter, hadd, h.add64_free hi] at hn
    rcases ht with ht | ht | ht
    · simp [ht] at he
    · simp [ht] at hn
    · simp [ht] at hn
  · intro hno
    by_contra hall
    refine hno ⟨fun i hi hc => ?_, fun i hi hc => ?_⟩
    · have hi := List.mem_range.mp hi
      simp only [isBehind, isAfter, hadd, h.add64_free hi, Bool.or_eq_true,
        decide_eq_true_iff] at hc
      exact hall ⟨i, hi, Or.inr (hc.imp id Eq.symm)⟩
    · exact hall ⟨i, List.mem_range.mp hi, Or.inl (of_decide_eq_true hc)⟩

lemma Separated.givenBack (h : Separated t heap) (hheap : heap < HEAPS) (hk : k < ALLOCATIONS)
    (hs : 0 < (t.allocations heap k).size)
    (hfirst : ∀ l < k, (t.allocations heap l).addr ≠ (t.allocations heap k).addr)
    (htake : ∃ i < FREE_SPACES, Takes (t.freespace heap i) (t.allocations heap k)) :
    GivenBack t (returnBlock (t.allocations heap k).addr t).1 heap k := by
  obtain ⟨h0, hlo, hhi⟩ := h.block hk hs
  have hlim := limit_lt heap
  have hh := heapOf_eq hheap hlo (by omega : (t.allocations heap k).addr < heapLimit heap)
  have hfind := findAlloc_eq hk hfirst
  have hno : meetsFull t (.free (t.allocations heap k).addr) = false := by
    have hn := (h.takes_iff (by unfold ends; omega)).mp htake
    simp only [meetsFull, hh, hfind]
    rwa [Bool.eq_false_iff, Ne, Bool.and_eq_true, Option.isNone_iff_eq_none,
      Option.isNone_iff_eq_none]
  obtain ⟨t', hg, hr⟩ := exists_giveBack hno hh hfind
  rw [hr]
  obtain ⟨i, e, hi, rfl, -, he⟩ := giveBack_neighbour hg
  rw [freespace_setAlloc] at he
  have hadd := h.add64_free hi
  have hbytes : bytes e = bytes (t.freespace heap i) ∪ bytes (t.allocations heap k) := by
    have hend : (t.freespace heap i).size = 0 ∨ ends (t.freespace heap i) ≤ heapLimit heap :=
      (Nat.eq_zero_or_pos _).imp_right fun hpos => (h.free.within i hi hpos).2
    have hlim' := (heap_bounds heap).2
    unfold ends at hadd hend
    ext a
    simp only [Set.mem_union, mem_bytes]
    rcases he with ⟨hbeh, rfl⟩ | ⟨haft, rfl⟩ | ⟨hemp, rfl⟩
    · rw [add64_eq (by omega)] at hbeh
      rw [sub64_eq (by omega) (by omega), add64_eq (by omega)]
      dsimp only
      omega
    · rw [hadd] at haft
      rw [add64_eq (by omega)]
      dsimp only
      omega
    · dsimp only
      omega
  refine ⟨?_, ?_, fun l hl => ?_, fun g hg => ⟨?_, ?_⟩⟩
  · have hf : ((t.setAlloc heap k ⟨0, 0⟩).setFree heap i e).freespace heap =
        Function.update (t.freespace heap) i e := by
      funext j
      rw [freespace_setFree, freespace_setAlloc, Function.update_apply]
      simp
    rw [hf]
    exact covered_update hi hbytes
  · rw [allocations_setFree, allocations_setAlloc, if_pos ⟨rfl, rfl⟩]
  · rw [allocations_setFree, allocations_setAlloc, if_neg fun hc => hl hc.2]
  · exact funext fun j => by rw [freespace_setFree, freespace_setAlloc, if_neg fun hc => hg hc.1]
  · exact funext fun j => by
      rw [allocations_setFree, allocations_setAlloc, if_neg fun hc => hg hc.1]

lemma freespace_of_not_takes (h : Separated t heap) (hheap : heap < HEAPS) (hk : k < ALLOCATIONS)
    (hs : 0 < (t.allocations heap k).size)
    (hfirst : ∀ l < k, (t.allocations heap l).addr ≠ (t.allocations heap k).addr)
    (hno : ¬ ∃ i < FREE_SPACES, Takes (t.freespace heap i) (t.allocations heap k)) :
    (returnBlock (t.allocations heap k).addr t).1.freespace = t.freespace := by
  obtain ⟨h0, hlo, hhi⟩ := h.block hk hs
  have hlim := limit_lt heap
  have hh := heapOf_eq hheap hlo (by omega : (t.allocations heap k).addr < heapLimit heap)
  have hfind := findAlloc_eq hk hfirst
  rw [h.takes_iff (by unfold ends; omega), not_not] at hno
  have hg : giveBack (t.allocations heap k).addr (t.allocations heap k).size heap
      (t.setAlloc heap k ⟨0, 0⟩) = none := by
    rw [giveBack_eq_none_iff]
    exact hno
  simp only [returnBlock, hh, hfind, hg, freespace_setAlloc]

end free

/-- **When `free` gives back exactly the block.** In a heap whose blocks and free spaces are
disjoint, `free` of a block's address does so exactly if the block's entry is the first with
that address and some entry of `freespace` is empty or next to the block. -/
theorem free_exact_iff (M : Machine) (st : State) (hst : ∀ heap < HEAPS, Separated st.tables heap)
    (heap k : ℕ) (hheap : heap < HEAPS) (hk : k < ALLOCATIONS)
    (hs : 0 < (st.tables.allocations heap k).size) :
    GivenBack st.tables (free M (st.tables.allocations heap k).addr st).tables heap k ↔
    (∀ l < k, (st.tables.allocations heap l).addr ≠ (st.tables.allocations heap k).addr) ∧
      ∃ i < FREE_SPACES, Takes (st.tables.freespace heap i) (st.tables.allocations heap k) := by
  have h := hst heap hheap
  rw [tables_free]
  refine ⟨fun hg => ?_, fun hc => h.givenBack hheap hk hs hc.1 hc.2⟩
  have hfirst : ∀ l < k, (st.tables.allocations heap l).addr ≠
      (st.tables.allocations heap k).addr := by
    have hgone := congrArg MemT.size hg.gone
    rcases allocations_returnBlock (st.tables.allocations heap k).addr st.tables with
      he | ⟨heap', k', hh, hk', he⟩ <;> rw [he] at hgone
    · exact absurd hgone hs.ne'
    · -- only the entry that was looked up is cleared
      rw [allocations_setAlloc] at hgone
      split at hgone
      · rename_i hc
        obtain ⟨rfl, rfl⟩ := hc
        unfold findAlloc at hk'
        have := (List.find?_range_eq_some.mp hk').2.2
        intro l hl
        simpa using Ne.symm (by simpa using this l hl)
      · exact absurd hgone hs.ne'
  refine ⟨hfirst, ?_⟩
  by_contra hno
  have hsame := freespace_of_not_takes h hheap hk hs hfirst hno
  have hin : (st.tables.allocations heap k).addr ∈
      covered FREE_SPACES (st.tables.freespace heap) := by
    rw [← hsame, hg.covered_eq]
    exact Or.inr (start_mem hs)
  obtain ⟨i, hi, ha⟩ := hin
  exact Set.disjoint_left.mp (h.apart k hk i hi) (start_mem hs) ha

def oneBlock (fs : ℕ → MemT) : Tables where
  freespace heap i := if heap = 0 then fs i else ⟨0, 0⟩
  allocations heap k := if heap = 0 ∧ k = 0 then ⟨kernelHeap, 16⟩ else ⟨0, 0⟩

lemma separated_oneBlock {fs : ℕ → MemT}
    (h : Regions (kernelHeap + 16) kernelStack FREE_SPACES fs) (heap : ℕ) :
    Separated (oneBlock fs) heap := by
  have hblock : ∀ k, 0 < ((oneBlock fs).allocations heap k).size → heap = 0 ∧ k = 0 := by
    intro k hs
    by_contra hc
    rw [show (oneBlock fs).allocations heap k = ⟨0, 0⟩ from if_neg hc] at hs
    exact Nat.lt_irrefl 0 hs
  have hle : kernelHeap + 16 ≤ kernelStack := by decide
  refine ⟨regions_of_lt (fun k _ => ?_) (fun k _ hs => ?_) fun k _ l _ hkl hks hls => ?_, ?_,
    fun k _ i hi => ?_⟩
  · unfold oneBlock
    dsimp only
    split <;> decide
  · obtain ⟨rfl, rfl⟩ := hblock k hs
    exact ⟨le_refl _, hle⟩
  · have := (hblock k hks).2
    have := (hblock l hls).2
    omega
  · by_cases hheap : heap = 0
    · subst hheap
      exact ⟨fun i hi hs => ⟨(Nat.le_add_right _ 16).trans (h.within i hi hs).1,
        (h.within i hi hs).2⟩, h.separate, h.word⟩
    · have hz : (oneBlock fs).freespace heap = fun _ => ⟨0, 0⟩ := funext fun i => if_neg hheap
      rw [hz]
      exact regions_of_lt (fun _ _ => Nat.two_pow_pos 64)
        (fun _ _ hs => absurd hs (Nat.lt_irrefl 0)) fun _ _ _ _ _ hs => absurd hs (Nat.lt_irrefl 0)
  · rw [Set.disjoint_left]
    intro a hak hai
    have hks : 0 < ((oneBlock fs).allocations heap k).size := by
      rw [mem_bytes] at hak
      omega
    obtain ⟨rfl, rfl⟩ := hblock k hks
    have hai' : (fs i).addr ≤ a ∧ a < (fs i).addr + (fs i).size := hai
    have hak' : kernelHeap ≤ a ∧ a < kernelHeap + 16 := hak
    have hin := (h.within i hi (by omega)).1
    omega

def restFree (i : ℕ) : MemT :=
  if i = 0 then ⟨kernelHeap + 16, kernelStack - kernelHeap - 16⟩ else ⟨0, 0⟩

def holes (i : ℕ) : MemT := ⟨kernelHeap + 32 + 32 * i, 16⟩

theorem free_exact_iff_rest : GivenBack (oneBlock restFree)
    (free threeFrames kernelHeap ⟨oneBlock restFree, zeroed⟩).tables 0 0 := by
  have hreg : Regions (kernelHeap + 16) kernelStack FREE_SPACES restFree := by
    have hz : ∀ i, 0 < (restFree i).size → i = 0 := by
      intro i hs
      by_contra hi
      rw [restFree, if_neg hi] at hs
      exact Nat.lt_irrefl 0 hs
    refine regions_of_lt (fun i _ => ?_) (fun i _ hs => ?_) fun i _ j _ hij his hjs => ?_
    · unfold restFree
      split <;> decide
    · obtain rfl := hz i hs
      exact ⟨le_refl _, by decide⟩
    · have := hz i his
      have := hz j hjs
      omega
  exact (free_exact_iff threeFrames ⟨oneBlock restFree, zeroed⟩
    (fun heap _ => separated_oneBlock hreg heap) 0 0 (by decide) (by decide) (by decide)).mpr
      ⟨fun l hl => absurd hl (Nat.not_lt_zero l), 0, by decide, Or.inr (Or.inl rfl)⟩

theorem not_free_exact : (∀ heap < HEAPS, Separated (oneBlock holes) heap) ∧
    (oneBlock holes).allocations 0 0 = ⟨kernelHeap, 16⟩ ∧
    (free threeFrames kernelHeap ⟨oneBlock holes, zeroed⟩).tables.freespace =
      (oneBlock holes).freespace ∧
    ¬ GivenBack (oneBlock holes)
      (free threeFrames kernelHeap ⟨oneBlock holes, zeroed⟩).tables 0 0 := by
  have hreg : Regions (kernelHeap + 16) kernelStack FREE_SPACES holes := by
    unfold FREE_SPACES kernelHeap kernelStack
    refine regions_of_lt (fun i hi => ?_) (fun i hi _ => ?_) fun i _ j _ hij _ _ => ?_ <;>
      unfold holes
    · unfold kernelHeap
      dsimp only
      omega
    · unfold ends kernelHeap
      dsimp only
      omega
    · refine Or.inl ?_
      unfold ends
      dsimp only
      omega
  have hsep : ∀ heap < HEAPS, Separated (oneBlock holes) heap :=
    fun heap _ => separated_oneBlock hreg heap
  have hno : ¬ ∃ i < FREE_SPACES, Takes ((oneBlock holes).freespace 0 i)
      ((oneBlock holes).allocations 0 0) := by
    rintro ⟨i, -, hs | hs | hs⟩
    · exact absurd hs (by decide : (16 : ℕ) ≠ 0)
    · have hs' : kernelHeap + 16 = kernelHeap + 32 + 32 * i := hs
      omega
    · have hs' : kernelHeap + 32 + 32 * i + 16 = kernelHeap := hs
      omega
  have hsame : (free threeFrames kernelHeap ⟨oneBlock holes, zeroed⟩).tables.freespace =
      (oneBlock holes).freespace := by
    have haddr : ((oneBlock holes).allocations 0 0).addr = kernelHeap := rfl
    have hfree := @freespace_of_not_takes (oneBlock holes) 0 0 (hsep 0 (by decide)) (by decide)
      (by decide) (by decide) (fun l hl => absurd hl (Nat.not_lt_zero l)) hno
    rw [haddr] at hfree
    rw [tables_free]
    dsimp only
    exact hfree
  refine ⟨hsep, rfl, hsame, fun hg => ?_⟩
  have hin : kernelHeap ∈ covered FREE_SPACES ((oneBlock holes).freespace 0) := by
    rw [← hsame]
    rw [hg.covered_eq]
    exact Or.inr (start_mem (by decide : 0 < ((oneBlock holes).allocations 0 0).size))
  obtain ⟨i, -, ha⟩ := hin
  have ha' : kernelHeap + 32 + 32 * i ≤ kernelHeap := ha.1
  omega

end FlameOS.HeapExact
