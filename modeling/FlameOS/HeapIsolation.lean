import FlameOS.Heap
import FlameOS.Runs

/-!
What the users of one heap see of the other: nothing. The pointers that `malloc_heap` returns for
a heap, and the tables of the heap, are those of a run of the calls for this heap alone, on any
machine and with any page tables.
-/

namespace FlameOS.HeapIsolation

open FlameOS.PageTable FlameOS.HeapTable FlameOS.Heap FlameOS.Runs
open FlameOS.MapRun (threeFrames zeroed)

def Same (heap : ℕ) (t t' : Tables) : Prop :=
  t.freespace heap = t'.freespace heap ∧ t.allocations heap = t'.allocations heap

/-- A call with what it returns; `free` returns nothing. -/
abbrev Event := Call × Option ℕ

def result (M : Machine) (st : State) : Call → Option ℕ
  | .malloc size heap => some (mallocHeap M size heap st).ptr
  | .free _ => none

def Step (M : Machine) (st : State) (e : Event) (st' : State) : Prop :=
  e.2 = result M st e.1 ∧ st' = call M e.1 st

def events (M : Machine) : List Call → State → List Event
  | [], _ => []
  | c :: cs, st => (c, result M st c) :: events M cs (call M c st)

/-- The calls for a heap: `free` looks for the heap by the address. -/
def isFor (heap : ℕ) : Call → Bool
  | .malloc _ h => decide (h = heap)
  | .free addr => decide (heapOf addr = some heap)

variable {heap addr : ℕ} {t t' u : Tables} {M M' : Machine} {st st' s : State} {e : Event}

/-! ### Calls for the heap -/

lemma Same.setFree (h : Same heap t t') (i : ℕ) (e : MemT) :
    Same heap (t.setFree heap i e) (t'.setFree heap i e) := by
  refine ⟨funext fun k => ?_, h.2⟩
  rw [freespace_setFree, freespace_setFree, h.1]

lemma Same.setAlloc (h : Same heap t t') (i : ℕ) (e : MemT) :
    Same heap (t.setAlloc heap i e) (t'.setAlloc heap i e) := by
  refine ⟨h.1, funext fun k => ?_⟩
  rw [allocations_setAlloc, allocations_setAlloc, h.2]

lemma Same.findSpace (h : Same heap t t') (size : ℕ) :
    findSpace t heap size = findSpace t' heap size := by
  unfold HeapTable.findSpace
  rw [h.1]

lemma Same.findSlot (h : Same heap t t') : findSlot t heap = findSlot t' heap := by
  unfold HeapTable.findSlot
  rw [h.2]

lemma Same.findAlloc (h : Same heap t t') (addr : ℕ) :
    findAlloc t heap addr = findAlloc t' heap addr := by
  unfold HeapTable.findAlloc
  rw [h.2]

lemma Same.findNeighbour (h : Same heap t t') (addr size : ℕ) :
    findNeighbour t heap addr size = findNeighbour t' heap addr size := by
  unfold HeapTable.findNeighbour
  rw [h.1]

lemma Same.findEmpty (h : Same heap t t') : findEmpty t heap = findEmpty t' heap := by
  unfold HeapTable.findEmpty
  rw [h.1]

lemma Same.takeBlock (h : Same heap t t') (size : ℕ) :
    (takeBlock size heap t).1 = (takeBlock size heap t').1 ∧
      Same heap (takeBlock size heap t).2 (takeBlock size heap t').2 := by
  by_cases hbad : heap ≥ HEAPS ∨ size = 0
  · unfold HeapTable.takeBlock
    rw [if_pos hbad, if_pos hbad]
    exact ⟨rfl, h⟩
  · unfold HeapTable.takeBlock
    rw [if_neg hbad, if_neg hbad, ← h.findSpace]
    rcases HeapTable.findSpace t heap size with _ | i
    · exact ⟨rfl, h⟩
    · dsimp only
      rw [← h.1]
      have hfree := h.setFree i ⟨Word.add64 (t.freespace heap i).addr size,
        Word.sub64 (t.freespace heap i).size size⟩
      rw [← hfree.findSlot]
      rcases HeapTable.findSlot _ heap with _ | k
      · exact ⟨rfl, hfree⟩
      · exact ⟨rfl, hfree.setAlloc k _⟩

lemma Same.giveBack (h : Same heap t t') (addr size : ℕ) :
    giveBack addr size heap t = none ∧ giveBack addr size heap t' = none ∨
      ∃ u u', giveBack addr size heap t = some u ∧ giveBack addr size heap t' = some u' ∧
        Same heap u u' := by
  unfold HeapTable.giveBack
  rw [← h.findNeighbour, ← h.findEmpty, ← h.1]
  rcases HeapTable.findNeighbour t heap addr size with _ | i
  · rcases HeapTable.findEmpty t heap with _ | i
    · exact Or.inl ⟨rfl, rfl⟩
    · exact Or.inr ⟨_, _, rfl, rfl, h.setFree i _⟩
  · dsimp only
    split
    · exact Or.inr ⟨_, _, rfl, rfl, h.setFree i _⟩
    · exact Or.inr ⟨_, _, rfl, rfl, h.setFree i _⟩

lemma Same.returnBlock (h : Same heap t t') (haddr : heapOf addr = some heap) :
    Same heap (returnBlock addr t).1 (returnBlock addr t').1 := by
  unfold HeapTable.returnBlock
  rw [haddr]
  dsimp only
  rw [← h.findAlloc]
  rcases HeapTable.findAlloc t heap addr with _ | k
  · exact h
  · dsimp only
    rw [← h.2]
    have halloc := h.setAlloc k ⟨0, 0⟩
    rcases halloc.giveBack addr (t.allocations heap k).size with ⟨hu, hu'⟩ | ⟨u, u', hu, hu', hs⟩
    · rw [hu, hu']
      exact halloc
    · rw [hu, hu']
      exact hs

/-! ### Runs -/

lemma ptr_mallocHeap (M : Machine) (size heap : ℕ) (st : State) :
    (mallocHeap M size heap st).ptr = (takeBlock size heap st.tables).1.getD 0 := by
  rcases h : takeBlock size heap st.tables with ⟨_ | addr, t⟩
  · rw [mallocHeap_none h]
    rfl
  · rw [mallocHeap_some h, ptr_block]
    rfl

lemma tables_free (M : Machine) (addr : ℕ) (st : State) :
    (Heap.free M addr st).tables = (returnBlock addr st.tables).1 := by
  rw [free_eq]

lemma run_iff {es : List Event} : Run (Step M) (fun _ => True) st es st' ↔
    es = events M (es.map Prod.fst) st ∧ st' = run M (es.map Prod.fst) st := by
  constructor
  · intro h
    induction h with
    | refl st => exact ⟨rfl, rfl⟩
    | @step st _ st' e es _ h _ ih =>
      obtain ⟨c, r⟩ := e
      obtain ⟨hr, rfl⟩ := h
      obtain rfl : r = result M st c := hr
      exact ⟨congrArg _ ih.1, ih.2⟩
  · rintro ⟨hes, rfl⟩
    generalize es.map Prod.fst = cs at hes
    subst hes
    induction cs generalizing st with
    | nil => exact .refl st
    | cons c cs ih => exact .step trivial ⟨rfl, rfl⟩ ih

@[simp] lemma map_fst_events (M : Machine) (cs : List Call) (st : State) :
    (events M cs st).map Prod.fst = cs := by
  induction cs generalizing st with
  | nil => rfl
  | cons c cs ih => rw [events, List.map_cons, ih]

/-- A call for the heap returns the same wherever the tables of the heap are the same. -/
lemma step_own (h : Step M st e st') (hown : isFor heap e.1 = true)
    (hs : Same heap st.tables s.tables) :
    ∃ s', Step M' s e s' ∧ Same heap st'.tables s'.tables := by
  obtain ⟨c, r⟩ := e
  obtain ⟨hr, rfl⟩ := h
  obtain rfl : r = result M st c := hr
  cases c with
  | malloc size h =>
    obtain rfl : h = heap := of_decide_eq_true hown
    obtain ⟨hptr, htables⟩ := hs.takeBlock size
    refine ⟨_, ⟨?_, rfl⟩, ?_⟩
    · dsimp only [result]
      rw [ptr_mallocHeap, ptr_mallocHeap, hptr]
    · dsimp only [call]
      rwa [tables_mallocHeap, tables_mallocHeap]
  | free addr =>
    refine ⟨_, ⟨rfl, rfl⟩, ?_⟩
    dsimp only [call]
    rw [tables_free, tables_free]
    exact hs.returnBlock (of_decide_eq_true hown)

/-- A call for the other heap leaves the tables of this one alone. -/
lemma step_other (h : Step M st e st') (hother : isFor heap e.1 = false) :
    Same heap st'.tables st.tables := by
  obtain ⟨c, r⟩ := e
  obtain ⟨-, rfl⟩ := h
  cases c with
  | malloc size h =>
    have hne : h ≠ heap := of_decide_eq_false hother
    dsimp only [call]
    rw [tables_mallocHeap]
    exact takeBlock_other hne size st.tables
  | free addr =>
    have hne : heapOf addr ≠ some heap := of_decide_eq_false hother
    dsimp only [call]
    rw [tables_free]
    exact returnBlock_other hne st.tables

/-- **Heaps apart.** In any run of calls for both heaps, the calls for one heap return what they
return in a run of their own from the same tables of this heap, on any machine and whatever the
other heap and the page tables are; and that run leads to the same tables of the heap. -/
theorem heaps_isolated (M M' : Machine) (heap : ℕ) (cs : List Call) (st s : State)
    (hs : Same heap st.tables s.tables) :
    (events M cs st).filter (fun e => isFor heap e.1) = events M' (cs.filter (isFor heap)) s ∧
      Same heap (run M cs st).tables (run M' (cs.filter (isFor heap)) s).tables := by
  have hrun : Run (Step M) (fun _ => True) st (events M cs st) (run M cs st) :=
    run_iff.mpr (by rw [map_fst_events]; exact ⟨rfl, rfl⟩)
  obtain ⟨s', hown, hsame⟩ : ∃ s', Run (Step M') (fun _ => True) s
      ((events M cs st).filter fun e => isFor heap e.1) s' ∧
      Same heap (run M cs st).tables s'.tables :=
    hrun.isolate (Step M') (fun e => isFor heap e.1) (fun st s => Same heap st.tables s.tables)
      (fun _ _ _ _ _ h hown hR => step_own h hown hR)
      (fun _ _ _ _ _ h hother hR =>
        ⟨(step_other h hother).1.trans hR.1, (step_other h hother).2.trans hR.2⟩) hs
  have hcalls : ((events M cs st).filter fun e => isFor heap e.1).map Prod.fst =
      cs.filter (isFor heap) := by
    have hfilter := List.filter_map (p := isFor heap) (f := Prod.fst) (l := events M cs st)
    rw [map_fst_events] at hfilter
    exact hfilter.symm
  obtain ⟨hevents, rfl⟩ := run_iff.mp hown
  rw [hcalls] at hevents hsame
  exact ⟨hevents, hsame⟩

/-- The blocks of the user heap do not move those of the kernel heap. -/
theorem heaps_isolated_two :
    (events threeFrames [.malloc 16 0, .malloc 4096 1, .malloc 8 0, .free userspaceHeap]
        ⟨initMalloc, zeroed⟩).filter (fun e => isFor 0 e.1) =
      events threeFrames [.malloc 16 0, .malloc 8 0] ⟨initMalloc, zeroed⟩ ∧
    Same 0 (run threeFrames [.malloc 16 0, .malloc 4096 1, .malloc 8 0, .free userspaceHeap]
        ⟨initMalloc, zeroed⟩).tables
      (run threeFrames [.malloc 16 0, .malloc 8 0] ⟨initMalloc, zeroed⟩).tables :=
  heaps_isolated threeFrames threeFrames 0
    [.malloc 16 0, .malloc 4096 1, .malloc 8 0, .free userspaceHeap] ⟨initMalloc, zeroed⟩
    ⟨initMalloc, zeroed⟩ ⟨rfl, rfl⟩

end FlameOS.HeapIsolation
