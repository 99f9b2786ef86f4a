import FlameOS.HeapTable

/-!
The tables of a heap represent an arena. Every call refines a step of the arena, so the
blocks and the free spaces never meet, however the entries are split, merged, reused and
left behind empty.
-/

namespace FlameOS.HeapArena

open FlameOS.Word FlameOS.Slots FlameOS.HeapTable

def heapBase (heap : ℕ) : ℕ := if heap = 0 then kernelHeap else userspaceHeap

def heapLimit (heap : ℕ) : ℕ := if heap = 0 then kernelStack else userspaceStack

lemma heap_bounds (heap : ℕ) : 0 < heapBase heap ∧ heapLimit heap < 2 ^ 63 := by
  unfold heapBase heapLimit kernelHeap kernelStack userspaceHeap userspaceStack
  split <;> omega

/-- The addresses of an entry. -/
def bytes (e : MemT) : Set ℕ := Set.Ico e.addr (e.addr + e.size)

lemma mem_bytes {e : MemT} {a : ℕ} : a ∈ bytes e ↔ e.addr ≤ a ∧ a < e.addr + e.size := Iff.rfl

lemma start_mem {e : MemT} (h : 0 < e.size) : e.addr ∈ bytes e :=
  mem_bytes.mpr ⟨le_refl _, Nat.lt_add_of_pos_right h⟩

lemma not_disjoint_self {e : MemT} (h : 0 < e.size) : ¬ Disjoint (bytes e) (bytes e) := fun hd =>
  Set.disjoint_left.mp hd (start_mem h) (start_mem h)

lemma bytes_eq_empty {e : MemT} (h : e.size = 0) : bytes e = ∅ := by simp [bytes, h]

/-- The slots of a heap: the entries of `allocations` and those of `freespace`. -/
def piece (t : Tables) (heap : ℕ) : ℕ ⊕ ℕ → Set ℕ
  | .inl k => bytes (t.allocations heap k)
  | .inr i => bytes (t.freespace heap i)

/-- The tables hold the arena. Free spaces without bytes keep an address within the heap,
entries of `allocations` without bytes do not. -/
structure Holds (t : Tables) (heap : ℕ)
    (A : Arena (ℕ ⊕ ℕ) (Set.Ico (heapBase heap) (heapLimit heap))) : Prop where
  pieces : ∀ k, A.piece k = piece t heap k
  bound : ∀ i, (t.freespace heap i).addr + (t.freespace heap i).size ≤ heapLimit heap
  clear : ∀ k, (t.allocations heap k).size = 0 → (t.allocations heap k).addr = 0

variable {t : Tables} {heap : ℕ} {A : Arena (ℕ ⊕ ℕ) (Set.Ico (heapBase heap) (heapLimit heap))}

lemma within {e : MemT} (h : bytes e ⊆ Set.Ico (heapBase heap) (heapLimit heap))
    (hs : 0 < e.size) : heapBase heap ≤ e.addr ∧ e.addr + e.size ≤ heapLimit heap := by
  have h₁ := h (mem_bytes.mpr ⟨le_refl e.addr, by omega⟩)
  have h₂ := h (mem_bytes.mpr ⟨(by omega : e.addr ≤ e.addr + e.size - 1), by omega⟩)
  rw [Set.mem_Ico] at h₁ h₂
  omega

lemma Holds.alloc_within (h : Holds t heap A) {k : ℕ} (hs : 0 < (t.allocations heap k).size) :
    heapBase heap ≤ (t.allocations heap k).addr ∧
      (t.allocations heap k).addr + (t.allocations heap k).size ≤ heapLimit heap := by
  refine within ?_ hs
  have := A.subset (.inl k)
  rwa [h.pieces] at this

lemma Holds.free_within (h : Holds t heap A) {i : ℕ} (hs : 0 < (t.freespace heap i).size) :
    heapBase heap ≤ (t.freespace heap i).addr ∧
      (t.freespace heap i).addr + (t.freespace heap i).size ≤ heapLimit heap := by
  refine within ?_ hs
  have := A.subset (.inr i)
  rwa [h.pieces] at this

/-- The tables `init_malloc` leaves hold an arena with one free space for each heap. -/
lemma holds_initMalloc (hheap : heap < HEAPS) :
    ∃ A : Arena (ℕ ⊕ ℕ) (Set.Ico (heapBase heap) (heapLimit heap)), Holds initMalloc heap A := by
  have hfree : ∀ i, (initMalloc.freespace heap i =
      if i = 0 then ⟨heapBase heap, heapLimit heap - heapBase heap⟩ else ⟨0, 0⟩) := by
    intro i
    unfold HEAPS at hheap
    obtain rfl | rfl : heap = 0 ∨ heap = 1 := by omega
    · by_cases hi : i = 0 <;> simp [initMalloc, heapBase, heapLimit, hi]
    · by_cases hi : i = 0 <;> simp [initMalloc, heapBase, heapLimit, hi]
  have hle : heapBase heap ≤ heapLimit heap := by
    unfold heapBase heapLimit kernelHeap kernelStack userspaceHeap userspaceStack
    split <;> omega
  refine ⟨⟨piece initMalloc heap, fun k => ?_, fun k l hkl => ?_⟩, fun k => rfl, fun i => ?_,
    fun k _ => rfl⟩
  · rcases k with k | i
    · exact (bytes_eq_empty rfl).trans_subset (Set.empty_subset _)
    · unfold piece
      dsimp only
      rw [hfree]
      split
      · simp [bytes, Nat.add_sub_cancel' hle]
      · exact (bytes_eq_empty rfl).trans_subset (Set.empty_subset _)
  · have hz : ∀ k, k ≠ .inr 0 → piece initMalloc heap k = ∅ := by
      rintro (k | i) hk
      · exact bytes_eq_empty rfl
      · have hi : i ≠ 0 := fun h => hk (by rw [h])
        exact bytes_eq_empty (by rw [hfree, if_neg hi])
    by_cases hk : k = .inr 0
    · rw [hz l (fun h => hkl (hk.trans h.symm))]
      exact Set.disjoint_empty _
    · rw [hz k hk]
      exact Set.empty_disjoint _
  · rw [hfree]
    split
    · exact (Nat.add_sub_cancel' hle).le
    · exact Nat.zero_le _

/-! ### The calls are steps of the arena -/

lemma bytes_shrink {e : MemT} {size : ℕ} (hs : size ≤ e.size) (hb : e.addr + e.size < 2 ^ 64) :
    bytes (shrink e size) = bytes e \ Set.Ico e.addr (e.addr + size) := by
  ext a
  rw [Set.mem_sdiff, mem_bytes, mem_bytes, Set.mem_Ico]
  unfold shrink
  dsimp only
  rw [add64_eq (by omega), sub64_eq hs (by omega)]
  omega

lemma Holds.congr {t' : Tables} (h : Holds t heap A)
    (hf : t'.freespace heap = t.freespace heap) (ha : t'.allocations heap = t.allocations heap) :
    Holds t' heap A := by
  refine ⟨fun k => ?_, fun i => ?_, fun k => ?_⟩
  · rw [h.pieces]
    rcases k with k | i <;> simp [piece, hf, ha]
  · rw [hf]; exact h.bound i
  · rw [ha]; exact h.clear k

lemma Holds.shrunk {size i : ℕ} (h : Holds t heap A) (hs : size ≤ (t.freespace heap i).size) :
    Holds (t.setFree heap i (shrink (t.freespace heap i) size)) heap
      (A.drop (.inr i) (Set.Ico (t.freespace heap i).addr ((t.freespace heap i).addr + size))) := by
  have hb := h.bound i
  have hlim := (heap_bounds heap).2
  refine ⟨fun k => ?_, fun j => ?_, h.clear⟩
  · unfold Arena.drop
    dsimp only
    rw [h.pieces]
    rcases k with k | j
    · rfl
    · by_cases hj : j = i
      · subst hj
        simp [piece, freespace_setFree, bytes_shrink hs (by omega)]
      · simp [piece, freespace_setFree, hj]
  · rw [freespace_setFree]
    split
    · unfold shrink
      dsimp only
      rw [add64_eq (by omega), sub64_eq hs (by omega)]
      omega
    · exact h.bound j

lemma Holds.carve {size i k : ℕ} (h : Holds t heap A) (hsize : 0 < size)
    (hs : size ≤ (t.freespace heap i).size) (hk : (t.allocations heap k).size = 0) :
    Holds ((t.setFree heap i (shrink (t.freespace heap i) size)).setAlloc heap k
        ⟨(t.freespace heap i).addr, size⟩) heap
      (A.move (.inr i) (.inl k)
        (Set.Ico (t.freespace heap i).addr ((t.freespace heap i).addr + size))) := by
  have hd := h.shrunk hs
  refine ⟨fun l => ?_, hd.bound, fun l => ?_⟩
  · unfold Arena.move Arena.add
    dsimp only
    rw [hd.pieces, h.pieces]
    rcases l with l | j
    · by_cases hl : l = k
      · subst hl
        have hsub : Set.Ico (t.freespace heap i).addr ((t.freespace heap i).addr + size) ⊆
            bytes (t.freespace heap i) := fun a ha => ⟨ha.1, by have := ha.2; omega⟩
        simp only [piece, if_true, allocations_setAlloc, allocations_setFree, and_self,
          bytes_eq_empty hk, Set.empty_union]
        exact Set.inter_eq_right.mpr hsub
      · simp [piece, allocations_setAlloc, hl]
    · simp [piece]
  · rw [allocations_setAlloc]
    split
    · exact fun hz => absurd hz hsize.ne'
    · exact h.clear l

lemma Holds.release {k : ℕ} (h : Holds t heap A) :
    Holds (t.setAlloc heap k ⟨0, 0⟩) heap (A.drop (.inl k) (bytes (t.allocations heap k))) := by
  refine ⟨fun l => ?_, h.bound, fun l => ?_⟩
  · unfold Arena.drop
    dsimp only
    rw [h.pieces]
    rcases l with l | j
    · by_cases hl : l = k
      · subst hl
        simp [piece, allocations_setAlloc, bytes]
      · simp [piece, allocations_setAlloc, hl]
    · simp [piece]
  · rw [allocations_setAlloc]
    split
    · exact fun _ => rfl
    · exact h.clear l

lemma Holds.given {k : ℕ} {t' : Tables} (h : Holds t heap A)
    (hk : 0 < (t.allocations heap k).size)
    (hg : giveBack (t.allocations heap k).addr (t.allocations heap k).size heap
      (t.setAlloc heap k ⟨0, 0⟩) = some t') :
    ∃ i, Holds t' heap (A.move (.inl k) (.inr i) (bytes (t.allocations heap k))) := by
  obtain ⟨i, e, rfl, -, he⟩ := giveBack_cases hg
  rw [freespace_setAlloc] at he
  have hb := h.bound i
  have hlim := (heap_bounds heap).2
  have hin := h.alloc_within hk
  -- In each of the three cases the entry gains the block's bytes.
  have hbytes : bytes e = bytes (t.freespace heap i) ∪ bytes (t.allocations heap k) ∧
      e.addr + e.size ≤ heapLimit heap := by
    rcases he with ⟨hbeh, rfl⟩ | ⟨haft, rfl⟩ | ⟨hemp, rfl⟩
    · rw [add64_eq (by omega)] at hbeh
      rw [sub64_eq (by omega) (by omega), add64_eq (by omega)]
      refine ⟨?_, by dsimp only; omega⟩
      ext a
      simp only [Set.mem_union, mem_bytes]
      omega
    · rw [add64_eq (by omega)] at haft
      rw [add64_eq (by omega)]
      refine ⟨?_, by dsimp only; omega⟩
      ext a
      simp only [Set.mem_union, mem_bytes]
      omega
    · rw [bytes_eq_empty hemp, Set.empty_union]
      exact ⟨rfl, hin.2⟩
  have hd := h.release (k := k)
  refine ⟨i, fun l => ?_, fun j => ?_, hd.clear⟩
  · unfold Arena.move Arena.add
    dsimp only
    rw [hd.pieces, h.pieces]
    rcases l with l | j
    · simp [piece]
    · by_cases hj : j = i
      · subst hj
        simp [piece, freespace_setFree, hbytes.1]
      · simp [piece, freespace_setFree, hj]
  · rw [freespace_setFree]
    split
    · exact hbytes.2
    · exact h.bound j

/-- **`malloc_heap` is a step of every heap's arena.** -/
lemma takeBlock_step (h : Holds t heap A) (size heap' : ℕ) :
    ∃ A', A.Step A' ∧ Holds (takeBlock size heap' t).2 heap A' := by
  by_cases hh : heap' = heap
  · subst hh
    rcases takeBlock_cases size heap' t with hr | ⟨-, hsize, i, hi, hr | ⟨k, hk, hr⟩⟩ <;> rw [hr]
    · exact ⟨A, .idle A, h⟩
    · exact ⟨_, .drop A _ _, h.shrunk (findSpace_some hi)⟩
    · exact ⟨_, .move A _ _ _, h.carve hsize (findSpace_some hi) (findSlot_some hk)⟩
  · obtain ⟨hf, ha⟩ := takeBlock_other hh size t
    exact ⟨A, .idle A, h.congr hf ha⟩

lemma Holds.pos_of_findAlloc (h : Holds t heap A) {addr k : ℕ} (h0 : 0 < addr)
    (hk : findAlloc t heap addr = some k) :
    (t.allocations heap k).addr = addr ∧ 0 < (t.allocations heap k).size := by
  have ha := findAlloc_some hk
  refine ⟨ha, Nat.pos_of_ne_zero fun hz => ?_⟩
  have := h.clear k hz
  omega

lemma heapOf_pos {addr heap : ℕ} (h : heapOf addr = some heap) :
    heap < HEAPS ∧ heapBase heap ≤ addr ∧ addr < heapLimit heap := by
  unfold heapOf at h
  split at h
  · obtain rfl := Option.some.inj h
    exact ⟨by decide, by assumption⟩
  · split at h
    · obtain rfl := Option.some.inj h
      exact ⟨by decide, by assumption⟩
    · cases h

/-- **`free` is a step of every heap's arena**, whatever address it is given. -/
lemma returnBlock_step (h : Holds t heap A) (addr : ℕ) :
    ∃ A', A.Step A' ∧ Holds (returnBlock addr t).1 heap A' := by
  by_cases hh : heapOf addr = some heap
  · have h0 := (heap_bounds heap).1
    have hlow := (heapOf_pos hh).2.1
    rcases returnBlock_cases addr t with hr | ⟨heap', k, hh', hk, hr⟩
    · rw [hr]
      exact ⟨A, .idle A, h⟩
    · obtain rfl : heap' = heap := Option.some.inj (hh'.symm.trans hh)
      obtain ⟨ha, hs⟩ := h.pos_of_findAlloc (by omega) hk
      rcases hr with hr | ⟨t', hg, hr⟩ <;> rw [hr]
      · exact ⟨_, .drop A _ _, h.release⟩
      · rw [← ha] at hg
        obtain ⟨i, hi⟩ := h.given hs hg
        exact ⟨_, .move A _ _ _, hi⟩
  · obtain ⟨hf, ha⟩ := returnBlock_other hh t
    exact ⟨A, .idle A, h.congr hf ha⟩

end FlameOS.HeapArena
