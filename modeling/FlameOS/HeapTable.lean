import FlameOS.Word
import FlameOS.Slots

/-!
The tables of the heaps in `memory.c`: `freespace` and `allocations`, and what `malloc_heap`
and `free` do to them.

Each heap is an arena of addresses whose slots are the entries of its two tables: a call
moves a range of addresses from one entry to another, or loses it when a table is full.
-/

namespace FlameOS.HeapTable

open FlameOS.Word FlameOS.Slots

def HEAPS : ℕ := 2
def FREE_SPACES : ℕ := 0x200
def ALLOCATIONS : ℕ := 0x200

def kernelHeap : ℕ := 0x1800000000
def kernelStack : ℕ := 0x2000000000
def userspaceHeap : ℕ := 0x100000
def userspaceStack : ℕ := 0x1000000000

structure MemT where
  addr : ℕ
  size : ℕ
  deriving DecidableEq

structure Tables where
  freespace : ℕ → ℕ → MemT
  allocations : ℕ → ℕ → MemT

def Tables.setFree (t : Tables) (heap i : ℕ) (e : MemT) : Tables :=
  { t with freespace :=
      Function.update t.freespace heap (Function.update (t.freespace heap) i e) }

def Tables.setAlloc (t : Tables) (heap i : ℕ) (e : MemT) : Tables :=
  { t with allocations :=
      Function.update t.allocations heap (Function.update (t.allocations heap) i e) }

/-- `init_malloc`, on tables the loader has cleared. -/
def initMalloc : Tables where
  freespace heap i :=
    if heap = 0 ∧ i = 0 then ⟨kernelHeap, kernelStack - kernelHeap⟩
    else if heap = 1 ∧ i = 0 then ⟨userspaceHeap, userspaceStack - userspaceHeap⟩
    else ⟨0, 0⟩
  allocations _ _ := ⟨0, 0⟩

/-! ### `malloc_heap` -/

/-- The first free space that is large enough. -/
def findSpace (t : Tables) (heap size : ℕ) : Option ℕ :=
  (List.range FREE_SPACES).find? fun i => decide ((t.freespace heap i).size ≥ size)

/-- The first entry of `allocations` that is not in use. -/
def findSlot (t : Tables) (heap : ℕ) : Option ℕ :=
  (List.range ALLOCATIONS).find? fun i => decide ((t.allocations heap i).size = 0)

/-- `malloc_heap` as far as it concerns the tables: the block's address, if there is one. -/
def takeBlock (size heap : ℕ) (t : Tables) : Option ℕ × Tables :=
  if heap ≥ HEAPS ∨ size = 0 then (none, t)
  else
    match findSpace t heap size with
    | none => (none, t)
    | some space =>
      let fs := t.freespace heap space
      let t₁ := t.setFree heap space ⟨add64 fs.addr size, sub64 fs.size size⟩
      match findSlot t₁ heap with
      | none => (none, t₁)
      | some alloc => (some fs.addr, t₁.setAlloc heap alloc ⟨fs.addr, size⟩)

/-! ### `free` -/

def heapOf (addr : ℕ) : Option ℕ :=
  if addr ≥ kernelHeap ∧ addr < kernelStack then some 0
  else if addr ≥ userspaceHeap ∧ addr < userspaceStack then some 1
  else none

def findAlloc (t : Tables) (heap addr : ℕ) : Option ℕ :=
  (List.range ALLOCATIONS).find? fun i => decide (addr = (t.allocations heap i).addr)

def isBehind (addr size : ℕ) (fs : MemT) : Bool := decide (add64 addr size = fs.addr)

def isAfter (addr : ℕ) (fs : MemT) : Bool := decide (addr = add64 fs.addr fs.size)

/-- The first free space the block is next to. -/
def findNeighbour (t : Tables) (heap addr size : ℕ) : Option ℕ :=
  (List.range FREE_SPACES).find? fun i =>
    isBehind addr size (t.freespace heap i) || isAfter addr (t.freespace heap i)

def findEmpty (t : Tables) (heap : ℕ) : Option ℕ :=
  (List.range FREE_SPACES).find? fun i => decide ((t.freespace heap i).size = 0)

/-- The block goes to the free space next to it or to an empty entry, if there is one. -/
def giveBack (addr size heap : ℕ) (t : Tables) : Option Tables :=
  match findNeighbour t heap addr size with
  | some i =>
    let fs := t.freespace heap i
    if isBehind addr size fs then
      some (t.setFree heap i ⟨sub64 fs.addr size, add64 fs.size size⟩)
    else some (t.setFree heap i ⟨fs.addr, add64 fs.size size⟩)
  | none => (findEmpty t heap).map fun i => t.setFree heap i ⟨addr, size⟩

/-- `free` as far as it concerns the tables, with the heap and the size of the block if the
function goes on to its pages. -/
def returnBlock (addr : ℕ) (t : Tables) : Tables × Option (ℕ × ℕ) :=
  match heapOf addr with
  | none => (t, none)
  | some heap =>
    match findAlloc t heap addr with
    | none => (t, none)
    | some alloc =>
      let size := (t.allocations heap alloc).size
      let t₁ := t.setAlloc heap alloc ⟨0, 0⟩
      match giveBack addr size heap t₁ with
      | none => (t₁, none)
      | some t₂ => (t₂, some (heap, size))

/-! ### Entries -/

variable {t : Tables} {heap size addr : ℕ}

lemma update_entry (f : ℕ → ℕ → MemT) (heap i h k : ℕ) (e : MemT) :
    Function.update f heap (Function.update (f heap) i e) h k =
      if h = heap ∧ k = i then e else f h k := by
  by_cases hh : h = heap
  · subst hh
    by_cases hk : k = i
    · subst hk; simp
    · simp [hk]
  · simp [hh]

lemma freespace_setFree (t : Tables) (heap i h k : ℕ) (e : MemT) :
    (t.setFree heap i e).freespace h k =
      if h = heap ∧ k = i then e else t.freespace h k :=
  update_entry t.freespace heap i h k e

lemma allocations_setAlloc (t : Tables) (heap i h k : ℕ) (e : MemT) :
    (t.setAlloc heap i e).allocations h k =
      if h = heap ∧ k = i then e else t.allocations h k :=
  update_entry t.allocations heap i h k e

@[simp] lemma allocations_setFree (t : Tables) (heap i : ℕ) (e : MemT) :
    (t.setFree heap i e).allocations = t.allocations := rfl

@[simp] lemma freespace_setAlloc (t : Tables) (heap i : ℕ) (e : MemT) :
    (t.setAlloc heap i e).freespace = t.freespace := rfl

@[simp] lemma findNeighbour_setAlloc (t : Tables) (heap i h addr size : ℕ) (e : MemT) :
    findNeighbour (t.setAlloc heap i e) h addr size = findNeighbour t h addr size := rfl

@[simp] lemma findEmpty_setAlloc (t : Tables) (heap i h : ℕ) (e : MemT) :
    findEmpty (t.setAlloc heap i e) h = findEmpty t h := rfl

lemma findSpace_some {i : ℕ} (h : findSpace t heap size = some i) :
    size ≤ (t.freespace heap i).size := by
  simpa using List.find?_some h

lemma findSlot_some {i : ℕ} (h : findSlot t heap = some i) :
    (t.allocations heap i).size = 0 := by
  simpa using List.find?_some h

lemma findAlloc_some {i : ℕ} (h : findAlloc t heap addr = some i) :
    (t.allocations heap i).addr = addr := by
  simpa [eq_comm] using List.find?_some h

lemma findEmpty_some {i : ℕ} (h : findEmpty t heap = some i) :
    (t.freespace heap i).size = 0 := by
  simpa using List.find?_some h

/-! ### What a call can do -/

def shrink (fs : MemT) (size : ℕ) : MemT := ⟨add64 fs.addr size, sub64 fs.size size⟩

/-- A request that finds a free space shrinks it, and then looks for an entry of `allocations`. -/
lemma takeBlock_of_space {i : ℕ} (hheap : heap < HEAPS) (hsize : size ≠ 0)
    (hi : findSpace t heap size = some i) :
    takeBlock size heap t = (findSlot t heap).elim
      (none, t.setFree heap i (shrink (t.freespace heap i) size))
      fun k => (some (t.freespace heap i).addr,
        (t.setFree heap i (shrink (t.freespace heap i) size)).setAlloc heap k
          ⟨(t.freespace heap i).addr, size⟩) := by
  have hslot : findSlot (t.setFree heap i ⟨add64 (t.freespace heap i).addr size,
      sub64 (t.freespace heap i).size size⟩) heap = findSlot t heap := rfl
  unfold takeBlock
  rw [if_neg (by rw [not_or, not_le]; exact ⟨hheap, hsize⟩), hi]
  dsimp only
  rw [hslot]
  rcases findSlot t heap with _ | k
  · rfl
  · rfl

lemma takeBlock_cases (size heap : ℕ) (t : Tables) :
    takeBlock size heap t = (none, t) ∨
    heap < HEAPS ∧ 0 < size ∧ ∃ i, findSpace t heap size = some i ∧
      (takeBlock size heap t = (none, t.setFree heap i (shrink (t.freespace heap i) size)) ∨
        ∃ k, findSlot t heap = some k ∧
          takeBlock size heap t = (some (t.freespace heap i).addr,
            (t.setFree heap i (shrink (t.freespace heap i) size)).setAlloc heap k
              ⟨(t.freespace heap i).addr, size⟩)) := by
  by_cases hc : heap ≥ HEAPS ∨ size = 0
  · exact Or.inl (if_pos hc)
  rw [not_or, not_le] at hc
  rcases hs : findSpace t heap size with _ | i
  · exact Or.inl (by rw [takeBlock, hs, ite_self])
  refine Or.inr ⟨hc.1, Nat.pos_of_ne_zero hc.2, i, rfl, ?_⟩
  rw [takeBlock_of_space hc.1 hc.2 hs]
  rcases findSlot t heap with _ | k
  · exact Or.inl rfl
  · exact Or.inr ⟨k, rfl, rfl⟩

/-- There is an entry for the block unless none is next to it and none is empty. -/
lemma giveBack_eq_none_iff : giveBack addr size heap t = none ↔
    findNeighbour t heap addr size = none ∧ findEmpty t heap = none := by
  unfold giveBack
  rcases findNeighbour t heap addr size with _ | i
  · simp
  · dsimp only
    split <;> simp

/-- The entry that takes a block in is the first one next to it, or the first empty one. -/
lemma giveBack_cases {t' : Tables} (h : giveBack addr size heap t = some t') :
    ∃ i e, t' = t.setFree heap i e ∧
      (findNeighbour t heap addr size).or (findEmpty t heap) = some i ∧
      ((add64 addr size = (t.freespace heap i).addr ∧
          e = ⟨sub64 (t.freespace heap i).addr size, add64 (t.freespace heap i).size size⟩) ∨
        (addr = add64 (t.freespace heap i).addr (t.freespace heap i).size ∧
          e = ⟨(t.freespace heap i).addr, add64 (t.freespace heap i).size size⟩) ∨
        ((t.freespace heap i).size = 0 ∧ e = ⟨addr, size⟩)) := by
  unfold giveBack at h
  rcases hn : findNeighbour t heap addr size with _ | i <;> simp only [hn] at h
  · obtain ⟨i, hi, rfl⟩ := Option.map_eq_some_iff.mp h
    exact ⟨i, _, rfl, by rw [Option.none_or, hi], Or.inr (Or.inr ⟨findEmpty_some hi, rfl⟩)⟩
  · have hor := List.find?_some hn
    rw [Bool.or_eq_true] at hor
    split at h <;> obtain rfl := Option.some.inj h
    · rename_i hb
      exact ⟨i, _, rfl, Option.some_or, Or.inl ⟨by simpa [isBehind] using hb, rfl⟩⟩
    · rename_i hb
      have ha := hor.resolve_left hb
      exact ⟨i, _, rfl, Option.some_or, Or.inr (Or.inl ⟨by simpa [isAfter] using ha, rfl⟩)⟩

lemma returnBlock_cases (addr : ℕ) (t : Tables) :
    returnBlock addr t = (t, none) ∨
    ∃ heap k, heapOf addr = some heap ∧ findAlloc t heap addr = some k ∧
      (returnBlock addr t = (t.setAlloc heap k ⟨0, 0⟩, none) ∨
        ∃ t', giveBack addr (t.allocations heap k).size heap (t.setAlloc heap k ⟨0, 0⟩) = some t' ∧
          returnBlock addr t = (t', some (heap, (t.allocations heap k).size))) := by
  unfold returnBlock
  rcases hh : heapOf addr with _ | heap
  · exact Or.inl rfl
  · rcases ha : findAlloc t heap addr with _ | k
    · exact Or.inl (by simp [ha])
    · refine Or.inr ⟨heap, k, rfl, ha, ?_⟩
      simp only [ha]
      rcases hg : giveBack addr (t.allocations heap k).size heap (t.setAlloc heap k ⟨0, 0⟩) with _ | t'
      · exact Or.inl rfl
      · exact Or.inr ⟨t', rfl, rfl⟩

lemma allocations_returnBlock (addr : ℕ) (t : Tables) :
    (returnBlock addr t).1.allocations = t.allocations ∨
    ∃ heap k, heapOf addr = some heap ∧ findAlloc t heap addr = some k ∧
      (returnBlock addr t).1.allocations = (t.setAlloc heap k ⟨0, 0⟩).allocations := by
  rcases returnBlock_cases addr t with hr | ⟨heap, k, hh, hk, hr | ⟨t', hg, hr⟩⟩ <;> rw [hr]
  · exact Or.inl rfl
  · exact Or.inr ⟨heap, k, hh, hk, rfl⟩
  · obtain ⟨i, e, rfl, -⟩ := giveBack_cases hg
    exact Or.inr ⟨heap, k, hh, hk, rfl⟩

/-! ### The other heap -/

lemma takeBlock_other {heap' : ℕ} (h : heap' ≠ heap) (size : ℕ) (t : Tables) :
    (takeBlock size heap' t).2.freespace heap = t.freespace heap ∧
      (takeBlock size heap' t).2.allocations heap = t.allocations heap := by
  rcases takeBlock_cases size heap' t with hr | ⟨-, -, i, -, hr | ⟨k, -, hr⟩⟩ <;> rw [hr]
  · exact ⟨rfl, rfl⟩
  · exact ⟨funext fun j => by simp [freespace_setFree, h.symm], rfl⟩
  · exact ⟨funext fun j => by simp [freespace_setFree, h.symm],
      funext fun j => by simp [allocations_setAlloc, h.symm]⟩

lemma returnBlock_other (h : heapOf addr ≠ some heap) (t : Tables) :
    (returnBlock addr t).1.freespace heap = t.freespace heap ∧
      (returnBlock addr t).1.allocations heap = t.allocations heap := by
  rcases returnBlock_cases addr t with hr | ⟨heap', k, hh, -, hr | ⟨t', hg, hr⟩⟩ <;> rw [hr]
  · exact ⟨rfl, rfl⟩
  all_goals have hne : heap ≠ heap' := by rintro rfl; exact h hh
  · exact ⟨rfl, funext fun j => by simp [allocations_setAlloc, hne]⟩
  · obtain ⟨i, e, rfl, -⟩ := giveBack_cases hg
    exact ⟨funext fun j => by simp [freespace_setFree, hne],
      funext fun j => by simp [allocations_setAlloc, hne]⟩

end FlameOS.HeapTable
