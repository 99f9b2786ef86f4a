import FlameOS.FileLeak
import FlameOS.PathMemory

/-!
How `fopen` fails: what it leaves behind when it rejects a path, and that it does not fail when
there is no file.
-/

namespace FlameOS.OpenFail

open FlameOS.Word FlameOS.PageTable FlameOS.MapRun FlameOS.HeapTable FlameOS.HeapArena FlameOS.Fat
open FlameOS.FatFind FlameOS.FileSystem FlameOS.FileRuns FlameOS.OpenPath FlameOS.PathMemory
open FlameOS.Heap (Live Sound)

/-! ### The blocks -/

variable {M : Machine} {h : Heap.State} {sizes : List ℕ}

lemma mallocs_run (M : Machine) (sizes : List ℕ) (h : Heap.State) :
    (mallocs M sizes h).2 = Heap.run M (sizes.map fun size => .malloc size 0) h := by
  induction sizes generalizing h with
  | nil => rfl
  | cons size sizes ih =>
    rw [mallocs, List.map_cons, ih]
    rfl

lemma sound_mallocs (hs : Sound h.tables) : Sound (mallocs M sizes h).2.tables := by
  rw [mallocs_run]
  exact hs.run _

lemma inTable_mallocs (hr : FreePages.InTable h.tables) :
    FreePages.InTable (mallocs M sizes h).2.tables := by
  rw [mallocs_run]
  exact hr.run _

lemma live_mallocs (hs : Sound h.tables) {heap : ℕ} {b : MemT} (hb : Live h.tables heap b) :
    Live (mallocs M sizes h).2.tables heap b := by
  induction sizes generalizing h with
  | nil => exact hb
  | cons size sizes ih =>
    obtain ⟨hs₁, ⟨-, hlive⟩ | ⟨-, -, -, hlive, -⟩⟩ := malloc_spec (M := M) hs size
    · exact ih hs₁ ((hlive heap b).mpr hb)
    · exact ih hs₁ ((hlive heap b).mpr (Or.inl hb))

lemma live_mallocs_failed (hs : Sound h.tables) (h0 : ∀ q ∈ (mallocs M sizes h).1, q = 0)
    (heap : ℕ) (b : MemT) :
    Live (mallocs M sizes h).2.tables heap b ↔ Live h.tables heap b := by
  induction sizes generalizing h with
  | nil => exact Iff.rfl
  | cons size sizes ih =>
    rw [mallocs] at h0 ⊢
    obtain ⟨hfirst, hrest⟩ := List.forall_mem_cons.mp h0
    obtain ⟨hs₁, ⟨-, hlive⟩ | ⟨hlo, -⟩⟩ := malloc_spec (M := M) hs size
    · exact (ih hs₁ hrest).trans (hlive heap b)
    · rw [hfirst] at hlo
      exact absurd hlo (by decide)

/-- A call that does not fail adds a block that was not there. -/
lemma live_mallocs_new (hs : Sound h.tables) {x : ℕ × ℕ}
    (hx : x ∈ (mallocs M sizes h).1.zip sizes) (hx0 : x.1 ≠ 0) :
    Live (mallocs M sizes h).2.tables 0 ⟨x.1, x.2⟩ := by
  induction sizes generalizing h with
  | nil => exact absurd hx List.not_mem_nil
  | cons size sizes ih =>
    rw [mallocs, List.zip_cons_cons] at hx
    rw [mallocs]
    obtain ⟨hs₁, hcase⟩ := malloc_spec (M := M) hs size
    rcases List.mem_cons.mp hx with rfl | hx
    · rcases hcase with ⟨h0, -⟩ | ⟨-, -, -, hlive, -⟩
      · exact absurd h0 hx0
      · exact live_mallocs hs₁ ((hlive 0 _).mpr (Or.inr ⟨rfl, rfl⟩))
    · exact ih hs₁ hx

lemma not_live_mallocs (hs : Sound h.tables) {x : ℕ × ℕ}
    (hx : x ∈ (mallocs M sizes h).1.zip sizes) (hx0 : x.1 ≠ 0) :
    ¬ Live h.tables 0 ⟨x.1, x.2⟩ := by
  obtain ⟨⟨-, -, hpos⟩, hdis⟩ := (mallocs_spec hs).1 x hx hx0
  exact fun hlive => not_disjoint_self hpos (hdis _ hlive)

lemma live_mallocs_iff (hs : Sound h.tables) :
    (∀ heap b, Live (mallocs M sizes h).2.tables heap b ↔ Live h.tables heap b) ↔
      ∀ q ∈ (mallocs M sizes h).1, q = 0 := by
  refine ⟨fun hsame q hq => ?_, fun h0 => live_mallocs_failed hs h0⟩
  by_contra hq0
  have hfst : ((mallocs M sizes h).1.zip sizes).map Prod.fst = (mallocs M sizes h).1 :=
    List.map_fst_zip (length_mallocs M sizes h).le
  rw [← hfst] at hq
  obtain ⟨x, hx, rfl⟩ := List.mem_map.mp hq
  exact not_live_mallocs hs hx hq0 ((hsame 0 _).mp (live_mallocs_new hs hx hq0))

lemma live_free_null (h : Heap.State) (heap : ℕ) (b : MemT) :
    Live (Heap.free M 0 h).tables heap b ↔ Live h.tables heap b := by
  unfold Live
  rw [Heap.tables_free]
  rcases allocations_returnBlock 0 h.tables with he | ⟨heap', k, hheap, -, -⟩
  · rw [he]
  · have hbase := (heapOf_pos hheap).2.1
    have hpos := (heap_bounds heap').1
    omega

lemma live_free_block {b : MemT} (hs : Sound h.tables) (hr : FreePages.InTable h.tables)
    (hb : Live h.tables 0 b) (heap : ℕ) (c : MemT) :
    Live (Heap.free M b.addr h).tables heap c ↔ Live h.tables heap c ∧ (heap ≠ 0 ∨ c ≠ b) := by
  rw [Heap.tables_free]
  exact FreePages.live_returnBlock hs hr (by decide) hb heap c

section rejected

variable {path : List UInt8} {arr : ℕ} {qs : List ℕ} (hs : Sound h.tables)
  (hr : FreePages.InTable h.tables) (hptrs : (mallocs M (pathSizes path) h).1 = arr :: qs)

include hs hr hptrs

/-- If the array is all that a path got, nothing is left of it when the array is freed. -/
lemma live_rejected_of_failed (h0 : ∀ q ∈ qs, q = 0) (heap : ℕ) (b : MemT) :
    Live (Heap.free M arr (mallocs M (pathSizes path) h).2).tables heap b ↔
      Live h.tables heap b := by
  have hs₂ := @sound_mallocs M h (pathSizes path) hs
  have hr₂ := @inTable_mallocs M h (pathSizes path) hr
  set size := (dirs path + 1).toNat * sizeofPtr with hsize
  have hcons : pathSizes path = size :: List.replicate (dirs path).toNat FatName.FILENAME_LENGTH :=
    rfl
  rw [hcons, mallocs] at hptrs hs₂ hr₂ ⊢
  obtain ⟨rfl, rfl⟩ := List.cons.inj hptrs
  obtain ⟨hs₁, hcase⟩ := malloc_spec (M := M) hs size
  have hfail := live_mallocs_failed (M := M) hs₁ h0
  rcases hcase with ⟨harr, hlive⟩ | ⟨-, -, hpos, hlive, hfresh⟩
  · rw [harr, live_free_null, hfail, hlive]
  · have hnew := (hlive 0 ⟨(Heap.malloc M size h).ptr, size⟩).mpr (Or.inr ⟨rfl, rfl⟩)
    rw [live_free_block hs₂ hr₂ ((hfail 0 _).mpr hnew), hfail, hlive]
    constructor
    · rintro ⟨hb | ⟨rfl, rfl⟩, hne⟩
      · exact hb
      · exact absurd rfl (hne.resolve_left fun h => h rfl)
    · intro hb
      refine ⟨Or.inl hb, ?_⟩
      by_contra hc
      rw [not_or, not_not, not_not] at hc
      obtain ⟨rfl, rfl⟩ := hc
      exact not_disjoint_self hpos (hfresh _ hb)

lemma live_rejected_of_buffer {q : ℕ} (hq : q ∈ qs) (hq0 : q ≠ 0) :
    Live (Heap.free M arr (mallocs M (pathSizes path) h).2).tables 0
        ⟨q, FatName.FILENAME_LENGTH⟩ ∧
      ¬ Live h.tables 0 ⟨q, FatName.FILENAME_LENGTH⟩ := by
  have hs₂ := @sound_mallocs M h (pathSizes path) hs
  have hr₂ := @inTable_mallocs M h (pathSizes path) hr
  obtain ⟨hall, hpair⟩ := @mallocs_spec M h (pathSizes path) hs
  have hold : ∀ x ∈ (mallocs M (pathSizes path) h).1.zip (pathSizes path), x.1 ≠ 0 →
      ¬ Live h.tables 0 ⟨x.1, x.2⟩ := fun x hx hx0 => not_live_mallocs hs hx hx0
  have hnew : ∀ x ∈ (mallocs M (pathSizes path) h).1.zip (pathSizes path), x.1 ≠ 0 →
      Live (mallocs M (pathSizes path) h).2.tables 0 ⟨x.1, x.2⟩ :=
    fun x hx hx0 => live_mallocs_new hs hx hx0
  rw [zip_pathSizes hptrs] at hall hpair hold hnew
  have hmem : (q, FatName.FILENAME_LENGTH) ∈ qs.map fun q => (q, FatName.FILENAME_LENGTH) :=
    List.mem_map_of_mem hq
  have hlive := hnew _ (List.mem_cons_of_mem _ hmem) hq0
  refine ⟨?_, hold _ (List.mem_cons_of_mem _ hmem) hq0⟩
  by_cases harr : arr = 0
  · rw [harr, live_free_null]
    exact hlive
  · have harray := hnew _ List.mem_cons_self harr
    refine (live_free_block hs₂ hr₂ harray 0 _).mpr ⟨hlive, Or.inr fun he => ?_⟩
    have hapart := (List.pairwise_cons.mp hpair).1 _ hmem harr hq0
    have hpos := (hall _ List.mem_cons_self harr).1.2.2
    have haddr : q = arr := congrArg MemT.addr he
    have hlength : 0 < FatName.FILENAME_LENGTH := by decide
    dsimp only at hapart hpos
    omega

lemma live_rejected_iff :
    (∀ heap b, Live (Heap.free M arr (mallocs M (pathSizes path) h).2).tables heap b ↔
      Live h.tables heap b) ↔ ∀ q ∈ qs, q = 0 := by
  refine ⟨fun hsame q hq => ?_, live_rejected_of_failed hs hr hptrs⟩
  by_contra hq0
  obtain ⟨hnew, hold⟩ := live_rejected_of_buffer hs hr hptrs hq hq0
  exact hold ((hsame 0 _).mp hnew)

end rejected

/-! ### A heap that is full -/

/-- The kernel heap has no room for a block of `size` bytes, or no entry for it. -/
def Full (size : ℕ) (t : Tables) : Prop := findSpace t 0 size = none ∨ findSlot t 0 = none

variable {t : Tables} {size : ℕ}

lemma takeBlock_eq_none_iff (hsize : size ≠ 0) :
    (takeBlock size 0 t).1 = none ↔ Full size t := by
  unfold Full takeBlock
  rw [if_neg (not_or.mpr ⟨by decide, hsize⟩)]
  rcases findSpace t 0 size with _ | i
  · exact iff_of_true rfl (Or.inl rfl)
  · dsimp only
    -- the entries of `allocations` are not changed before one is looked for
    have hslot : findSlot (t.setFree 0 i ⟨add64 (t.freespace 0 i).addr size,
        sub64 (t.freespace 0 i).size size⟩) 0 = findSlot t 0 := rfl
    rw [hslot]
    rcases findSlot t 0 with _ | k
    · exact iff_of_true rfl (Or.inr rfl)
    · refine iff_of_false (fun h => Option.some_ne_none _ h) ?_
      rintro (h | h)
      · cases h
      · cases h

lemma Full.takeBlock (hsize : size ≠ 0) (hfull : Full size t) :
    Full size (takeBlock size 0 t).2 := by
  have hnone := (takeBlock_eq_none_iff hsize).mpr hfull
  rcases takeBlock_cases size 0 t with hr | ⟨-, -, i, hi, hr | ⟨k, -, hr⟩⟩
  · rw [hr]
    exact hfull
  · rw [hr]
    rcases hfull with h | h
    · cases h.symm.trans hi
    · exact Or.inr h
  · rw [hr] at hnone
    cases hnone

lemma malloc_eq_zero_iff (hs : Sound h.tables) (hsize : size ≠ 0) :
    (Heap.malloc M size h).ptr = 0 ↔ Full size h.tables := by
  rw [← takeBlock_eq_none_iff hsize]
  unfold Heap.malloc
  rcases ht : takeBlock size 0 h.tables with ⟨_ | addr, t⟩
  · exact iff_of_true (by rw [Heap.mallocHeap_none ht]) rfl
  · have hs' := hs.takeBlock size 0
    rw [ht] at hs'
    have hnew : Live t 0 ⟨addr, size⟩ := (Heap.live_takeBlock ht 0 _).mpr (Or.inr ⟨rfl, rfl⟩)
    have hlo := (hs'.within (by decide) hnew).1
    rw [Heap.mallocHeap_some ht, Heap.ptr_block]
    have hbase := (heap_bounds 0).1
    refine iff_of_false (fun h0 => ?_) (fun h => Option.some_ne_none _ h)
    dsimp only at hlo
    omega

/-- Either all calls for buffers of one size fail, or the first does not. -/
lemma mallocs_replicate_failed_iff (hs : Sound h.tables) (hsize : size ≠ 0) (n : ℕ) :
    (∀ q ∈ (mallocs M (List.replicate n size) h).1, q = 0) ↔ n = 0 ∨ Full size h.tables := by
  induction n generalizing h with
  | zero => exact iff_of_true (fun q hq => absurd hq List.not_mem_nil) (Or.inl rfl)
  | succ n ih =>
    rw [List.replicate_succ, mallocs, List.forall_mem_cons, malloc_eq_zero_iff hs hsize,
      or_iff_right (Nat.succ_ne_zero n)]
    refine and_iff_left_of_imp fun hfull => ?_
    have htab : (Heap.malloc M size h).state.tables = (takeBlock size 0 h.tables).2 :=
      Heap.tables_mallocHeap size 0 h
    rw [ih (malloc_spec hs size).1, htab]
    exact Or.inr (hfull.takeBlock hsize)

def arraySize (path : List UInt8) : ℕ := (dirs path + 1).toNat * sizeofPtr

/-- There is no block for the array of a path. -/
def NoArray (path : List UInt8) (t : Tables) : Prop :=
  arraySize path = 0 ∨ Full (arraySize path) t

/-- There is no block for a component of a path when its array has been allocated. -/
def NoBuffer (path : List UInt8) (t : Tables) : Prop :=
  Full FatName.FILENAME_LENGTH (takeBlock (arraySize path) 0 t).2

section pointers

variable {path : List UInt8} {arr : ℕ} {qs : List ℕ}

lemma array_eq_zero_iff (hs : Sound h.tables)
    (hptrs : (mallocs M (pathSizes path) h).1 = arr :: qs) : arr = 0 ↔ NoArray path h.tables := by
  obtain ⟨rfl, -⟩ := List.cons.inj hptrs
  unfold NoArray
  by_cases hsize : arraySize path = 0
  · refine iff_of_true ?_ (Or.inl hsize)
    change (Heap.malloc M (arraySize path) h).ptr = 0
    rw [hsize]
    rfl
  · rw [or_iff_right hsize]
    exact malloc_eq_zero_iff hs hsize

lemma buffers_eq_zero_iff (hs : Sound h.tables)
    (hptrs : (mallocs M (pathSizes path) h).1 = arr :: qs) (hd : dirs path ≠ 0) :
    (∀ q ∈ qs, q = 0) ↔ NoBuffer path h.tables := by
  obtain ⟨-, rfl⟩ := List.cons.inj hptrs
  have hnat : (dirs path).toNat ≠ 0 := fun h0 => hd (UInt32.toNat_inj.mp h0)
  have htab : (Heap.malloc M (arraySize path) h).state.tables =
      (takeBlock (arraySize path) 0 h.tables).2 := Heap.tables_mallocHeap (arraySize path) 0 h
  unfold NoBuffer
  rw [← htab, ← or_iff_right (b := Full _ _) hnat]
  exact mallocs_replicate_failed_iff (malloc_spec hs _).1 (by decide) _

end pointers

/-! ### A path that is rejected -/

section fopen

variable {S : System} {fuel : ℕ} {path : List UInt8} {junk : Junk} {s : State} {r : Reply ℕ}

lemma fileAddr_eq_zero {k : ℕ} (h : fileAddr S k = 0) : k = 0 := by
  unfold fileAddr sizeofFILE at h
  omega

end fopen

/-- **Rejected paths.** When `fopen` returns 0, the live blocks of the heaps and the flags `used`
of the files are those from before exactly if no slash is counted, or there was no block for any
component, and either the checks fail or there was none for the array and no file was unused. -/
theorem rejected_keeps_iff (S : System) (calls : List Heap.Call) (p : Paging) (file : ℕ → FILE)
    (fuel : ℕ) (path : List UInt8) (junk : Junk) (r : Reply ℕ)
    (hr : fopen S fuel path junk ⟨Heap.run S.machine calls ⟨initMalloc, p⟩, file⟩ = some r)
    (h0 : r.value = 0) :
    let t := (Heap.run S.machine calls ⟨initMalloc, p⟩).tables
    ((∀ heap b, Live r.state.heap.tables heap b ↔ Live t heap b) ∧
      ∀ k < MAX_OPEN_FILES, (r.state.file k).used = (file k).used) ↔
    dirs path = 0 ∨ (NoBuffer path t ∧ (checkVolume path = none ∨
      (NoArray path t ∧ ∀ k < MAX_OPEN_FILES, (file k).used = true))) := by
  intro t
  by_cases hd : dirs path = 0
  · rw [fopen, if_pos hd] at hr
    cases hr
    exact iff_of_true ⟨fun _ _ => Iff.rfl, fun _ _ => rfl⟩ (Or.inl hd)
  rw [or_iff_right hd]
  set h := Heap.run S.machine calls ⟨initMalloc, p⟩ with hh
  have hs : Sound t := Heap.sound_initMalloc.run calls
  have hin : FreePages.InTable t := FreePages.inTable_initMalloc.run calls
  obtain ⟨arr, qs, hptrs⟩ : ∃ arr qs, (mallocs S.machine (pathSizes path) h).1 = arr :: qs :=
    ⟨_, _, rfl⟩
  have harray := array_eq_zero_iff hs hptrs
  have hbuffers := buffers_eq_zero_iff hs hptrs hd
  by_cases hv : checkVolume path = none
  · rw [fopen, if_neg hd] at hr
    dsimp only at hr
    rw [hv] at hr
    cases hr
    dsimp only
    rw [hptrs, and_iff_left (fun _ _ => rfl), and_iff_left (Or.inl hv), ← hbuffers]
    exact live_rejected_iff hs hin hptrs
  · obtain ⟨⟨volume, rest⟩, hsome⟩ := Option.ne_none_iff_exists'.mp hv
    obtain ⟨k, hunused, hfirst, hused, hother, hend⟩ := fopen_passed hd hsome hr
    -- the flags stay only if the file is behind the table, which it is if the table is full
    have hflags : (∀ j < MAX_OPEN_FILES, (r.state.file j).used = (file j).used) ↔
        ∀ j < MAX_OPEN_FILES, (file j).used = true := by
      constructor
      · intro hsame j hj
        refine hfirst j (lt_of_lt_of_le hj (not_lt.mp fun hk => ?_))
        exact absurd ((hsame k hk).symm.trans hused) (Bool.eq_false_iff.mp hunused)
      · intro hall j hj
        rw [hother j fun he => absurd (hall j hj) (he ▸ Bool.eq_false_iff.mp hunused)]
    rw [hflags, or_iff_right hv]
    rcases hend with ⟨-, hk⟩ | ⟨-, -, hheap⟩
    · -- the first file of a table at the address 0
      obtain rfl := fileAddr_eq_zero (hk.symm.trans h0)
      refine iff_of_false (fun h => ?_) (fun h => ?_)
      · exact Bool.eq_false_iff.mp hunused (h.2 0 (by decide))
      · exact Bool.eq_false_iff.mp hunused (h.2.2 0 (by decide))
    · rw [hheap, live_mallocs_iff hs, hptrs, List.forall_mem_cons, harray, hbuffers]
      exact and_assoc.trans and_left_comm

lemma tables_run_malloc (M : Machine) (size : ℕ) (p : Paging) :
    (Heap.run M [.malloc size 0] ⟨initMalloc, p⟩).tables = (takeBlock size 0 initMalloc).2 :=
  Heap.tables_mallocHeap size 0 _

/-- "a/b" is rejected when there is a block for its array, and none behind that for a component;
"|a" is rejected before anything is allocated. -/
theorem rejected_keeps_iff_slash :
    (∃ r, fopen smallSystem 1 [0x61, 0x2F, 0x62] zeros
        ⟨Heap.run smallSystem.machine [.malloc (kernelStack - kernelHeap - 16) 0]
          ⟨initMalloc, zeroed⟩, cleared.file⟩ = some r ∧ r.value = 0 ∧
      (∀ heap b, Live r.state.heap.tables heap b ↔
        heap = 0 ∧ b = ⟨kernelHeap, kernelStack - kernelHeap - 16⟩) ∧
      ∀ k < MAX_OPEN_FILES, (r.state.file k).used = (cleared.file k).used) ∧
    ∃ r, fopen smallSystem 1 [0x7C, 0x61] zeros
        ⟨Heap.run smallSystem.machine [] ⟨initMalloc, zeroed⟩, cleared.file⟩ = some r ∧
      r.value = 0 ∧ (∀ heap b, Live r.state.heap.tables heap b ↔ Live initMalloc heap b) ∧
      ∀ k < MAX_OPEN_FILES, (r.state.file k).used = (cleared.file k).used := by
  constructor
  · obtain ⟨h, hh⟩ : ∃ h, h = Heap.run smallSystem.machine
        [.malloc (kernelStack - kernelHeap - 16) 0] ⟨initMalloc, zeroed⟩ := ⟨_, rfl⟩
    have htab : h.tables = (takeBlock (kernelStack - kernelHeap - 16) 0 initMalloc).2 := by
      rw [hh, tables_run_malloc]
    have hptr : (takeBlock (kernelStack - kernelHeap - 16) 0 initMalloc).1 = some kernelHeap := by
      decide +kernel
    have htake : takeBlock (kernelStack - kernelHeap - 16) 0 initMalloc =
        (some kernelHeap, h.tables) := Prod.ext hptr htab.symm
    have hfull : NoBuffer [0x61, 0x2F, 0x62] h.tables := by
      rw [htab]
      exact Or.inl (by decide +kernel)
    have hlive : ∀ heap b, Live h.tables heap b ↔
        heap = 0 ∧ b = ⟨kernelHeap, kernelStack - kernelHeap - 16⟩ := by
      intro heap b
      have hnone : ¬Live initMalloc heap b := by
        rintro ⟨k, rfl, hpos⟩
        exact absurd hpos (lt_irrefl 0)
      rw [Heap.live_takeBlock htake, or_iff_right hnone]
    have hr : ∃ r, fopen smallSystem 1 [0x61, 0x2F, 0x62] zeros ⟨h, cleared.file⟩ = some r ∧
        r.value = 0 := ⟨_, rfl, rfl⟩
    obtain ⟨r, hr, h0⟩ := hr
    rw [hh] at hr hfull
    obtain ⟨hsame, hused⟩ := (rejected_keeps_iff smallSystem
      [.malloc (kernelStack - kernelHeap - 16) 0] zeroed cleared.file 1 [0x61, 0x2F, 0x62] zeros r
      hr h0).mpr (Or.inr ⟨hfull, Or.inl rfl⟩)
    rw [← hh] at hr hsame
    rw [← hh]
    exact ⟨r, hr, h0, fun heap b => (hsame heap b).trans (hlive heap b), hused⟩
  · obtain ⟨r, hr, h0⟩ : ∃ r, fopen smallSystem 1 [0x7C, 0x61] zeros
        ⟨Heap.run smallSystem.machine [] ⟨initMalloc, zeroed⟩, cleared.file⟩ = some r ∧
        r.value = 0 := ⟨_, rfl, rfl⟩
    exact ⟨r, hr, h0, (rejected_keeps_iff smallSystem [] zeroed cleared.file 1 [0x7C, 0x61] zeros r
      hr h0).mpr (Or.inl (by decide))⟩

/-- The buffer for the component of "a/b" is left. -/
theorem not_rejected_keeps :
    ∃ r, fopen smallSystem 1 [0x61, 0x2F, 0x62] zeros cleared = some r ∧ r.value = 0 ∧
      Live r.state.heap.tables 0 ⟨kernelHeap + 16, FatName.FILENAME_LENGTH⟩ ∧
      ∀ heap b, ¬ Live cleared.heap.tables heap b := by
  have heval : (fopen smallSystem 1 [0x61, 0x2F, 0x62] zeros cleared).map (fun r => (r.value,
      r.state.heap.tables.allocations 0 1)) = some (0, ⟨kernelHeap + 16, 256⟩) := by
    decide +kernel
  obtain ⟨r, hr, hval⟩ := Option.map_eq_some_iff.mp heval
  simp only [Prod.mk.injEq] at hval
  refine ⟨r, hr, hval.1, ⟨1, hval.2, by decide⟩, ?_⟩
  rintro heap b ⟨k, rfl, hpos⟩
  exact absurd hpos (lt_irrefl 0)

/-! ### A file that is not there -/

/-- **Missing files.** For a path of the grammar to a FAT32 volume `fopen` returns 0 and leaves
the flags `used` exactly if no slash of it is counted, whether or not the volume has the file. -/
theorem missing_fails_iff (S : System) (path : List UInt8) (junk : Junk) (s : State)
    (hpath : InGrammar path)
    (hfat : ∀ volume, accepts path = some volume →
      (S.parts volume.toInt8.toInt).fs = .fat32) :
    (∃ fuel r, fopen S fuel path junk s = some r ∧ r.value = 0 ∧
      ∀ k < MAX_OPEN_FILES, (r.state.file k).used = (s.file k).used) ↔ dirs path = 0 := by
  constructor
  · rintro ⟨fuel, r, hr, h0, hsame⟩
    by_contra hd
    have hv := (checkVolume_isSome path).mpr (Or.inl hpath)
    obtain ⟨⟨volume, rest⟩, hv⟩ := Option.isSome_iff_exists.mp hv
    have haccepts : accepts path = some volume := by
      rw [accepts, if_neg hd, hv]
      rfl
    obtain ⟨k, hunused, -, hused, -, ⟨-, hk⟩ | ⟨hnone, -⟩⟩ := fopen_passed hd hv hr
    · obtain rfl := fileAddr_eq_zero (hk.symm.trans h0)
      exact absurd ((hsame 0 (by decide)).symm.trans hused) (Bool.eq_false_iff.mp hunused)
    · cases hnone.symm.trans (hfat volume haccepts)
  · intro hd
    exact ⟨0, ⟨0, s, []⟩, if_pos hd, rfl, fun _ _ => rfl⟩

def missingPath : List UInt8 := ascii ['|', 'A', '/', 'N', 'O']

def filled (b : UInt8) : Junk where
  slots _ := 0
  names _ _ := b
  findFATbuffer _ := b
  findBuffer _ := b
  readFATbuffer _ := b
  readBuffer _ := b
  entry _ := b
  filename _ := b

theorem missing_fails_iff_no :
    (∃ fuel r, fopen smallSystem fuel missingPath (filled 0xCC) cleared = some r ∧ r.value = 0 ∧
      ∀ k < MAX_OPEN_FILES, (r.state.file k).used = (cleared.file k).used) ↔
    dirs missingPath = 0 :=
  missing_fails_iff smallSystem missingPath (filled 0xCC) cleared
    ⟨by decide, ⟨0x41, by decide⟩, by decide⟩ fun _ _ => rfl

/-- The first file is opened for a name that the volume does not have, and its size is what was
on the stack. -/
theorem not_missing_fails :
    InGrammar missingPath ∧ (∀ e, ¬ Resolves tenBytes 2 [ascii ['N', 'O']] e) ∧
    ∃ r, fopen smallSystem 2 missingPath (filled 0xCC) cleared = some r ∧ r.value = 0x1000 ∧
      (cleared.file 0).used = false ∧ (r.state.file 0).used = true ∧
      (r.state.file 0).size = 0xCCCCCCCC := by
  have hnone : ∀ it ∈ clusterItems tenBytes 2, ¬ FatName.Named (ascii ['N', 'O']) it := by
    decide +kernel
  have hlast : ¬ nextCluster tenBytes.setup 2 < 0x0FFFFFF8 := by decide +kernel
  have heval : (fopen smallSystem 2 missingPath (filled 0xCC) cleared).map (fun r => (r.value,
      (r.state.file 0).used, (r.state.file 0).size)) = some (0x1000, true, 0xCCCCCCCC) := by
    decide +kernel
  obtain ⟨r, hr, hval⟩ := Option.map_eq_some_iff.mp heval
  simp only [Prod.mk.injEq] at hval
  refine ⟨⟨by decide, ⟨0x41, by decide⟩, by decide⟩, fun e he => ?_, r, hr, hval.1, rfl, hval.2⟩
  cases he with
  | file dir name regular => exact hnone _ (dir.mem hlast) name
  | dir dir name directory rest => exact hnone _ (dir.mem hlast) name

end FlameOS.OpenFail
