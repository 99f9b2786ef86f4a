import FlameOS.Aliasing

/-!
Runs of the heaps: no two bytes of live blocks share a frame, no block lies in a page
table, and no new page table moves a block, as long as the blocks avoid the pages whose
frames were released.
-/

namespace FlameOS.HeapSafety

open FlameOS.Word FlameOS.FrameAlloc FlameOS.FrameRun FlameOS.PageTable FlameOS.MapPage
open FlameOS.MapSpec FlameOS.MapRun FlameOS.HeapTable FlameOS.HeapArena FlameOS.Heap FlameOS.Boot
open FlameOS.Backing FlameOS.Aliasing

/-! ### The bytes of the blocks -/

def liveBytes (t : Tables) : Set ℕ := {a | ∃ heap < HEAPS, ∃ b, Live t heap b ∧ a ∈ bytes b}

variable {M : Machine} {t t' : Tables} {heap size addr : ℕ} {st : State}

lemma liveBytes_of_none (h : takeBlock size heap t = (none, t')) : liveBytes t' = liveBytes t := by
  have hall : t'.allocations = t.allocations := by
    rcases takeBlock_cases size heap t with hr | ⟨-, -, i, -, hr | ⟨k, -, hr⟩⟩ <;> rw [hr] at h <;>
      cases h <;> rfl
  unfold liveBytes Live
  rw [hall]

lemma liveBytes_of_some (h : takeBlock size heap t = (some addr, t')) :
    liveBytes t' = liveBytes t ∪ bytes ⟨addr, size⟩ := by
  have hheap := (takeBlock_some h).1
  ext a
  constructor
  · rintro ⟨h', hh', b, hb, ha⟩
    rcases (live_takeBlock h h' b).mp hb with hb | ⟨-, rfl⟩
    · exact Or.inl ⟨h', hh', b, hb, ha⟩
    · exact Or.inr ha
  · rintro (⟨h', hh', b, hb, ha⟩ | ha)
    · exact ⟨h', hh', b, (live_takeBlock h h' b).mpr (Or.inl hb), ha⟩
    · exact ⟨heap, hheap, _, (live_takeBlock h heap _).mpr (Or.inr ⟨rfl, rfl⟩), ha⟩

lemma liveBytes_returnBlock (addr : ℕ) (t : Tables) :
    liveBytes (returnBlock addr t).1 ⊆ liveBytes t := by
  rintro a ⟨h', hh', b, ⟨l, rfl, hpos⟩, ha⟩
  rcases allocations_returnBlock addr t with he | ⟨heap, k, -, -, he⟩ <;> rw [he] at hpos ha
  · exact ⟨h', hh', _, ⟨l, rfl, hpos⟩, ha⟩
  · rw [allocations_setAlloc] at hpos ha
    split at hpos
    · exact absurd hpos (Nat.lt_irrefl 0)
    · rename_i hc
      rw [if_neg hc] at ha
      exact ⟨h', hh', _, ⟨l, rfl, hpos⟩, ha⟩

def heapAddrs : Set ℕ := {a | ∃ heap < HEAPS, heapBase heap ≤ a ∧ a < heapLimit heap}

lemma liveBytes_subset (hs : Sound t) : liveBytes t ⊆ heapAddrs := by
  rintro a ⟨heap, hheap, b, hb, ha⟩
  have := hs.within hheap hb
  rw [mem_bytes] at ha
  exact ⟨heap, hheap, by omega, by omega⟩

lemma firstFit_within (hs : Sound t) (hheap : heap < HEAPS) (h : firstFit t heap size = some addr)
    {a : ℕ} (ha : a ∈ bytes ⟨addr, size⟩) : heapBase heap ≤ a ∧ a < heapLimit heap := by
  unfold firstFit at h
  split at h
  · cases h
  · obtain ⟨i, hi, rfl⟩ := Option.map_eq_some_iff.mp h
    obtain ⟨A, hA⟩ := hs heap hheap
    have hsize := findSpace_some hi
    rw [mem_bytes] at ha
    dsimp only at ha
    have := hA.free_within (i := i) (by omega)
    omega

/-! ### The calls -/

/-- The pages whose frames a call releases. -/
def releasedBy (M : Machine) : Call → State → Set ℕ
  | .malloc _ _, _ => ∅
  | .free addr, st => releasedPages M (freedAddrs addr st.tables) st.paging

/-- The call does not run out of frames, serves no block on a page of `R`, and releases no
page table and no frame in which another block lives. -/
def Spares (M : Machine) (R : Set ℕ) : Call → State → Prop
  | .malloc size heap, st =>
    (∀ e ∈ (mallocHeap M size heap st).trace, ¬ RanOut M.fm e) ∧
      ∀ addr, firstFit st.tables heap size = some addr → ∀ a ∈ bytes ⟨addr, size⟩, page a ∉ R
  | .free addr, st =>
    (∀ v ∈ freedAddrs addr st.tables, ¬ IsPageTable M st.paging (findPhysaddr M st.paging v)) ∧
      ∀ v ∈ freedAddrs addr st.tables, findPhysaddr M st.paging v ∈ M.fm.pages →
        ∀ b ∈ liveBytes (returnBlock addr st.tables).1,
          lookup M st.paging b ≠ some (findPhysaddr M st.paging v)

/-- The call serves no block on a page that bears the number of a page table or of a free
frame, and releases no frame whose number a page of another block bears. -/
def Apart (M : Machine) : Call → State → Prop
  | .malloc size heap, st =>
    ∀ addr, firstFit st.tables heap size = some addr → ∀ a ∈ bytes ⟨addr, size⟩,
      ∀ t ∈ M.fm.pages, page t = page a → DataFrame M st.paging t
  | .free addr, st =>
    ∀ v ∈ freedAddrs addr st.tables, findPhysaddr M st.paging v ∈ M.fm.pages →
      ∀ b ∈ liveBytes (returnBlock addr st.tables).1, page (findPhysaddr M st.paging v) ≠ page b

section calls

variable {H R : Set ℕ} (hM : FramesOk M) (h : Inv M H R (liveBytes st.tables) st.paging)

/-- The new block joins the live ones before its pages are mapped. -/
lemma inv_claim (h : Inv M H R (liveBytes st.tables) st.paging)
    (ht : takeBlock size heap st.tables = (some addr, t')) (hsp : Spares M R (.malloc size heap) st)
    (hap : Apart M (.malloc size heap) st) (hH : liveBytes t' ⊆ H) :
    Inv M H R (liveBytes t') st.paging := by
  refine { h with live := fun a ha => ?_ }
  have haH := hH ha
  rw [liveBytes_of_some ht] at ha
  rcases ha with ha | ha
  · exact h.live a ha
  · have hfit := firstFit_of_takeBlock ht
    exact ⟨haH, hsp.2 addr hfit a ha, hap addr hfit a ha⟩

include hM h

lemma inv_malloc (hsp : Spares M R (.malloc size heap) st) (hap : Apart M (.malloc size heap) st)
    (hH : liveBytes (mallocHeap M size heap st).state.tables ⊆ H) :
    Inv M H R (liveBytes (mallocHeap M size heap st).state.tables)
      (mallocHeap M size heap st).state.paging := by
  have hno := hsp.1
  rw [tables_mallocHeap] at hH ⊢
  rcases ht : takeBlock size heap st.tables with ⟨_ | addr, t⟩ <;> rw [ht] at hH
  · rw [mallocHeap_none ht, liveBytes_of_none ht]
    exact h
  · rw [mallocHeap_some ht, trace_block] at hno
    rw [mallocHeap_some ht, paging_block]
    exact (inv_claim h ht hsp hap hH).loop hM hno

lemma inv_free (hsp : Spares M R (.free addr) st) (hap : Apart M (.free addr) st) :
    Inv M H (R ∪ releasedBy M (.free addr) st) (liveBytes (free M addr st).tables)
      (free M addr st).paging := by
  rw [free_eq]
  exact h.release hM (liveBytes_returnBlock addr st.tables) hsp.1 hsp.2 hap

lemma inv_call {c : Call} (hsp : Spares M R c st) (hap : Apart M c st)
    (hH : liveBytes (call M c st).tables ⊆ H) :
    Inv M H (R ∪ releasedBy M c st) (liveBytes (call M c st).tables) (call M c st).paging := by
  cases c with
  | malloc size heap =>
    rw [releasedBy, Set.union_empty]
    exact inv_malloc hM h hsp hap hH
  | free addr => exact inv_free hM h hsp hap

end calls

/-! ### Runs -/

/-- Every call of the run meets the condition, which may mention the pages whose frames have
been released so far. -/
def Watched (M : Machine) (P : Set ℕ → Call → State → Prop) :
    Set ℕ → List Call → State → Prop
  | _, [], _ => True
  | R, c :: cs, st => P R c st ∧ Watched M P (R ∪ releasedBy M c st) cs (call M c st)

/-- The pages whose frames the calls of a run release. -/
def releasedIn (M : Machine) : List Call → State → Set ℕ
  | [], _ => ∅
  | c :: cs, st => releasedBy M c st ∪ releasedIn M cs (call M c st)

lemma watched_append {P : Set ℕ → Call → State → Prop} {R : Set ℕ} {cs ds : List Call} :
    Watched M P R (cs ++ ds) st ↔
      Watched M P R cs st ∧ Watched M P (R ∪ releasedIn M cs st) ds (run M cs st) := by
  induction cs generalizing R st with
  | nil => simp [Watched, releasedIn, run]
  | cons c cs ih =>
    rw [List.cons_append, Watched, Watched, ih, and_assoc, Set.union_assoc]
    rfl

/-- The heap pages that are mapped to frames of the freemap. -/
def framedPages (M : Machine) (s : Paging) : Set ℕ :=
  {p | ∃ a ∈ heapAddrs, page a = p ∧ ∃ f ∈ M.fm.pages, lookup M s a = some f}

lemma inv_start {s : Paging} (hs : Wf M s) : Inv M heapAddrs (framedPages M s) ∅ s := by
  have hout : ∀ a ∈ heapAddrs, Settled M s (framedPages M s) a → ∀ f, lookup M s a = some f →
      f ∉ M.fm.pages := fun a ha hsa f hf hm => hsa.kept ⟨a, ha, rfl, f, hm, hf⟩
  refine ⟨hs, fun a ha hsa f hf => ⟨fun ht => ?_, fun hm => ?_⟩,
    fun a ha b hb hsa hsb f hfm hfa => ?_, fun a ha => absurd ha (Set.notMem_empty a)⟩
  · exact hout a ha hsa f hf (mem_of_isPageTable hs ht)
  · exact absurd hm (hout a ha hsa f hf)
  · exact absurd hfm (hout a ha hsa f hfa)

lemma liveBytes_initMalloc : liveBytes initMalloc = ∅ := by
  refine Set.eq_empty_of_forall_notMem ?_
  rintro a ⟨heap, -, b, ⟨k, rfl, hpos⟩, -⟩
  exact absurd hpos (Nat.lt_irrefl 0)

/-- What the calls of a run must avoid. -/
def Careful (M : Machine) (R : Set ℕ) (c : Call) (st : State) : Prop :=
  Spares M R c st ∧ Apart M c st

lemma inv_run (hM : FramesOk M) {R : Set ℕ} (hs : Sound st.tables)
    (h : Inv M heapAddrs R (liveBytes st.tables) st.paging) {cs : List Call}
    (hcs : Watched M (Careful M) R cs st) :
    Inv M heapAddrs (R ∪ releasedIn M cs st) (liveBytes (run M cs st).tables)
      (run M cs st).paging := by
  induction cs generalizing R st with
  | nil =>
    rw [releasedIn, Set.union_empty]
    exact h
  | cons c cs ih =>
    obtain ⟨⟨hsp, hap⟩, hcs⟩ := hcs
    rw [releasedIn, ← Set.union_assoc]
    exact ih (hs.call c) (inv_call hM h hsp hap (liveBytes_subset (hs.call c))) hcs

/-! ### Blocks and page tables -/

lemma initPaging_wf (hM : FramesOk M) {b : BootInfo} {s : Paging}
    (hno : ∀ e ∈ (initPaging M b s).2, ¬ RanOut M.fm e) : Wf M (initPaging M b s).1 :=
  (runCalls_ext hM (wf_of_clear fun i => by rw [frame_memset, if_pos rfl]) hno).wf

lemma mapEach_append (vs ws : List ℕ) (s : Paging) :
    mapEach M (vs ++ ws) s =
      ((mapEach M ws (mapEach M vs s).1).1,
        (mapEach M vs s).2 ++ (mapEach M ws (mapEach M vs s).1).2) := by
  induction vs generalizing s with
  | nil => rfl
  | cons v vs ih => simp only [List.cons_append, mapEach, ih, List.append_assoc]

/-- **Blocks and page tables stay apart.** In every run from `init_memory` whose calls release
no page table and no frame of another block, and avoid the pages whose frames were released
or that bear the number of a page table or of a free frame, no byte of a block lies in a page
table; and while a block is being mapped, no page table that is taken bears the number of a
live page and no live page but the one being mapped translates differently. -/
theorem blocks_apart_from_tables (M : Machine) (hM : FramesOk M) (b : BootInfo) (s : Paging)
    (hboot : ∀ e ∈ (initPaging M b s).2, ¬ RanOut M.fm e) (cs : List Call)
    (hcs : Watched M (Careful M) (framedPages M (initPaging M b s).1) cs (initMemory M b s)) :
    (∀ a ∈ liveBytes (run M cs (initMemory M b s)).tables, ∀ f,
      lookup M (run M cs (initMemory M b s)).paging a = some f →
        ¬ IsPageTable M (run M cs (initMemory M b s)).paging f) ∧
    ∀ ds size heap es, cs = ds ++ .malloc size heap :: es →
      let st := run M ds (initMemory M b s)
      let r := mallocHeap M size heap st
      r.ptr ≠ 0 → ∀ vs v ws, pageAddrs r.ptr size = vs ++ v :: ws →
        ∀ a ∈ liveBytes r.state.tables,
          (∀ t ∈ taken (mapMissing M v (mapEach M vs st.paging).1).2, page a ≠ page t) ∧
          (page a ≠ page v → findPhysaddr M (mapMissing M v (mapEach M vs st.paging).1).1 a =
            findPhysaddr M (mapEach M vs st.paging).1 a) := by
  have hstart : Inv M heapAddrs (framedPages M (initPaging M b s).1)
      (liveBytes (initMemory M b s).tables) (initMemory M b s).paging := by
    rw [show (initMemory M b s).tables = initMalloc from rfl, liveBytes_initMalloc]
    exact inv_start (initPaging_wf hM hboot)
  have hsound : Sound (initMemory M b s).tables := sound_initMalloc
  refine ⟨fun a ha f hf => ?_, ?_⟩
  · have h := inv_run hM hsound hstart hcs
    exact (h.back a (h.live a ha).1 (h.settled ha) f hf).1
  · rintro ds size heap es rfl st r hptr vs v ws hsplit a ha
    obtain ⟨hds, ⟨hsp, hap⟩, -⟩ := watched_append.mp hcs
    have h := inv_run hM hsound hstart hds
    have hst : Sound st.tables := hsound.run ds
    rcases ht : takeBlock size heap st.tables with ⟨_ | addr, t⟩
    · exact absurd (by rw [show r = mallocHeap M size heap st from rfl, mallocHeap_none ht]) hptr
    · have hr : r = .block addr t (mapEach M (pageAddrs addr size) st.paging) := mallocHeap_some ht
      have hno := hsp.1
      rw [mallocHeap_some ht, trace_block] at hno
      rw [hr, ptr_block] at hsplit
      rw [hr, tables_block] at ha
      rw [hsplit, mapEach_append] at hno
      simp only [mapEach, List.forall_mem_append] at hno
      have hsub : liveBytes t ⊆ heapAddrs := by
        have := hst.takeBlock size heap
        rw [ht] at this
        exact liveBytes_subset this
      -- The invariant holds with the new block from the start, and up to this turn.
      obtain ⟨hno₁, hno₂, -⟩ := hno
      obtain ⟨-, hturn⟩ := ((inv_claim h ht hsp hap hsub).loop hM hno₁).turn hM hno₂
      obtain ⟨hnew, hlook⟩ := hturn a ha
      exact ⟨hnew, fun hp => findPhysaddr_congr (hlook hp)⟩

/-- The run `malloc(16)` after boot: the block lies on the page of the freemap, whose frame
is none of the allocator's. -/
theorem blocks_apart_from_tables_first :
    let M := smallMachine 16 (by decide)
    let st := run M [.malloc 16 0] (initMemory M smallBoot zeroed)
    kernelHeap ∈ liveBytes st.tables ∧ lookup M st.paging kernelHeap = some 0x204000 ∧
      ¬ IsPageTable M st.paging 0x204000 := by
  intro M st
  have hlive : kernelHeap ∈ liveBytes st.tables :=
    ⟨0, by decide, ⟨kernelHeap, 16⟩, ⟨0, by decide +kernel, by decide⟩, le_refl _, by decide⟩
  have hlook : lookup M st.paging kernelHeap = some 0x204000 := by decide +kernel
  have hlt : ∀ a ∈ M.fm.pages, a < 0x200000 := by decide +kernel
  have hlook₀ : lookup M (initPaging M smallBoot zeroed).1 kernelHeap = some 0x204000 := by
    decide +kernel
  -- The bytes of the block are in the page at `kernelHeap`.
  have hpage : ∀ addr, firstFit (initMemory M smallBoot zeroed).tables 0 16 = some addr →
      ∀ a ∈ bytes ⟨addr, 16⟩, page a = page kernelHeap := by
    intro addr haddr a ha
    have hfirst : firstFit (initMemory M smallBoot zeroed).tables 0 16 = some kernelHeap := by
      decide +kernel
    obtain rfl : kernelHeap = addr := Option.some.inj (hfirst.symm.trans haddr)
    rw [mem_bytes] at ha
    unfold kernelHeap at ha ⊢
    exact page_eq_of_div (by dsimp only at ha; omega)
  refine ⟨hlive, hlook, (blocks_apart_from_tables M (framesOk_smallMachine (by decide))
    smallBoot zeroed (by decide +kernel) [.malloc 16 0]
    ⟨⟨⟨by decide +kernel, ?_⟩, ?_⟩, trivial⟩).1 kernelHeap hlive _ hlook⟩
  · rintro addr haddr a ha ⟨c, -, hc, f, hf, hl⟩
    rw [lookup_congr (hc.trans (hpage addr haddr a ha)), hlook₀] at hl
    have := hlt f hf
    have := Option.some.inj hl
    omega
  · intro addr haddr a ha u hu hp
    rw [hpage addr haddr a ha] at hp
    have := hlt u hu
    unfold page kernelHeap at hp
    omega

/-- `malloc_heap(1, 1)` after boot: the userspace heap begins at the address of the first
frame, which is in use as a page table and mapped to itself. -/
theorem blocks_apart_from_tables_userspace :
    let M := smallMachine 16 (by decide)
    let st := run M [.malloc 1 1] (initMemory M smallBoot zeroed)
    (∀ e ∈ (initPaging M smallBoot zeroed).2, ¬ RanOut M.fm e) ∧
      (∀ e ∈ (mallocHeap M 1 1 (initMemory M smallBoot zeroed)).trace, ¬ RanOut M.fm e) ∧
      0x100000 ∈ liveBytes st.tables ∧ findPhysaddr M st.paging 0x100000 = 0x100000 ∧
      IsPageTable M st.paging 0x100000 :=
  ⟨by decide +kernel, by decide +kernel,
    ⟨1, by decide, ⟨0x100000, 1⟩, ⟨0, by decide +kernel, by decide⟩, le_refl _, by decide⟩,
    by decide +kernel, ⟨[0], by decide, by decide +kernel⟩, by decide⟩

/-! ### The kernel heap -/

/-- A call `malloc(size)` or `free(addr)`. -/
def KernelCall : Call → Prop
  | .malloc _ heap => heap = 0
  | .free _ => True

def kernelAddrs : Set ℕ := Set.Ico kernelHeap kernelStack

/-- What is mapped in the kernel heap are frames of the freemap. -/
def Framed (M : Machine) (s : Paging) : Prop :=
  ∀ a ∈ kernelAddrs, ∀ f, lookup M s a = some f → f ∈ M.fm.pages

section framed

variable {s : Paging} (hM : FramesOk M)

include hM

lemma Framed.turn (hf : Framed M s) (hs : Wf M s) {virt : ℕ}
    (hno : ∀ e ∈ (mapMissing M virt s).2, ¬ RanOut M.fm e) : Framed M (mapMissing M virt s).1 := by
  rcases mapMissing_cases hM hs hno with ⟨-, he⟩ | ⟨-, hfull, ⟨-, he, -⟩ | ⟨-, hm⟩⟩
  · rwa [he]
  · rwa [he]
  · intro a ha f hl
    by_cases hp : page a = page virt
    · rw [lookup_congr hp, hm.self, alloc_and_mask hM hfull] at hl
      rw [← Option.some.inj hl]
      exact alloc_mem hfull
    · rcases hm.lookups a hp with hl' | ⟨t, ht, -, hl'⟩
      · exact hf a ha f (hl'.symm.trans hl)
      · rw [← Option.some.inj (hl'.symm.trans hl)]
        exact (hm.fresh t ht).1

lemma Framed.loop (hf : Framed M s) (hs : Wf M s) {vs : List ℕ}
    (hno : ∀ e ∈ (mapEach M vs s).2, ¬ RanOut M.fm e) : Framed M (mapEach M vs s).1 := by
  have hkeeps : Wf M (mapEach M vs s).1 ∧ Framed M (mapEach M vs s).1 :=
    mapEach_keeps (P := fun s => Wf M s ∧ Framed M s) (fun s v h hno =>
      ⟨mapMissing_wf hM h.1 hno, h.2.turn hM h.1 hno⟩) hno ⟨hs, hf⟩
  exact hkeeps.2

end framed

lemma Framed.call (hM : FramesOk M) (hf : Framed M st.paging) (hs : Wf M st.paging) {R : Set ℕ}
    {c : Call} (hsp : Spares M R c st) : Framed M (call M c st).paging := by
  cases c with
  | malloc size heap =>
    have hno := hsp.1
    rw [Heap.call]
    rcases ht : takeBlock size heap st.tables with ⟨_ | addr, t⟩
    · rw [mallocHeap_none ht]
      exact hf
    · rw [mallocHeap_some ht, trace_block] at hno
      rw [mallocHeap_some ht, paging_block]
      exact hf.loop hM hs hno
  | free addr =>
    rw [Heap.call, free_eq]
    intro a ha f hl
    rw [lookup_releaseEach] at hl
    exact hf a ha f hl

lemma page_ne_kernel (hlt : ∀ a ∈ M.fm.pages, a < 0x1000000000) {t a : ℕ} (ht : t ∈ M.fm.pages)
    (ha : a ∈ kernelAddrs) : page t ≠ page a := by
  have h₁ := hlt t ht
  have h₂ := ha.1
  have h₃ := ha.2
  unfold kernelHeap at h₂
  unfold kernelStack at h₃
  unfold page
  omega

lemma liveBytes_kernel (hs : Sound t) (hu : Untouched 1 t) : liveBytes t ⊆ kernelAddrs := by
  rintro a ⟨heap, hheap, b, ⟨k, rfl, hpos⟩, ha⟩
  unfold HEAPS at hheap
  obtain rfl | rfl : heap = 0 ∨ heap = 1 := by omega
  · have := hs.within (by decide) ⟨k, rfl, hpos⟩
    rw [mem_bytes] at ha
    exact ⟨by change heapBase 0 ≤ a; omega, by change a < heapLimit 0; omega⟩
  · rw [hu.2] at hpos
    exact absurd hpos (Nat.lt_irrefl 0)

/-- In the kernel heap the second condition on the calls is void. -/
lemma apart_kernel (hlt : ∀ a ∈ M.fm.pages, a < 0x1000000000) (hs : Sound st.tables)
    (hu : Untouched 1 st.tables) {c : Call} (hc : KernelCall c) : Apart M c st := by
  cases c with
  | malloc size heap =>
    obtain rfl : heap = 0 := hc
    intro addr hfit a ha t ht hp
    exact absurd hp (page_ne_kernel hlt ht (firstFit_within hs (by decide) hfit ha))
  | free addr =>
    intro v _ hf b hb
    exact page_ne_kernel hlt hf (liveBytes_kernel hs hu (liveBytes_returnBlock _ _ hb))

lemma kernel_run (hM : FramesOk M) (hlt : ∀ a ∈ M.fm.pages, a < 0x1000000000) {R : Set ℕ} (hs : Sound st.tables) (hu : Untouched 1 st.tables) (hf : Framed M st.paging)
    (h : Inv M kernelAddrs R (liveBytes st.tables) st.paging) {cs : List Call}
    (hk : ∀ c ∈ cs, KernelCall c) (hcs : Watched M (Spares M) R cs st) :
    Framed M (run M cs st).paging ∧ Inv M kernelAddrs (R ∪ releasedIn M cs st)
      (liveBytes (run M cs st).tables) (run M cs st).paging := by
  induction cs generalizing R st with
  | nil =>
    rw [releasedIn, Set.union_empty]
    exact ⟨hf, h⟩
  | cons c cs ih =>
    obtain ⟨hsp, hcs⟩ := hcs
    have hc := hk c List.mem_cons_self
    have hs' : Sound (call M c st).tables := hs.call c
    have hu' : Untouched 1 (call M c st).tables := hu.call fun size he => by
      rw [he] at hc
      exact absurd hc (by decide : (1 : ℕ) ≠ 0)
    rw [releasedIn, ← Set.union_assoc]
    exact ih hs' hu' (hf.call hM h.wf hsp)
      (inv_call hM h hsp (apart_kernel hlt hs hu hc) (liveBytes_kernel hs' hu'))
      (fun c hm => hk c (List.mem_cons_of_mem _ hm)) hcs

lemma kernel_clear {s : Paging} (hs : Wf M s) (hclear : ∀ a ∈ kernelAddrs, lookup M s a = none) :
    Framed M s ∧ Inv M kernelAddrs ∅ (liveBytes initMalloc) s := by
  refine ⟨fun a ha f hf => ?_, ?_⟩
  · rw [hclear a ha] at hf
    cases hf
  · rw [liveBytes_initMalloc]
    refine ⟨hs, fun a ha _ f hf => ?_, fun a ha _ _ _ _ f _ hf => ?_,
      fun a ha => absurd ha (Set.notMem_empty a)⟩ <;> rw [hclear a ha] at hf <;> cases hf

lemma kernel_run_clear (hM : FramesOk M) (hlt : ∀ a ∈ M.fm.pages, a < 0x1000000000)
    {s : Paging} (hs : Wf M s) (hclear : ∀ a ∈ kernelAddrs, lookup M s a = none)
    {cs : List Call} (hk : ∀ c ∈ cs, KernelCall c)
    (hcs : Watched M (Spares M) ∅ cs ⟨initMalloc, s⟩) :
    Framed M (run M cs ⟨initMalloc, s⟩).paging ∧
      Inv M kernelAddrs (∅ ∪ releasedIn M cs ⟨initMalloc, s⟩)
        (liveBytes (run M cs ⟨initMalloc, s⟩).tables) (run M cs ⟨initMalloc, s⟩).paging := by
  obtain ⟨hframed, hstart⟩ := kernel_clear hs hclear
  exact @kernel_run M ⟨initMalloc, s⟩ hM hlt ∅ sound_initMalloc ⟨rfl, rfl⟩ hframed hstart cs hk hcs

lemma Framed.byte {s : Paging} (hf : Framed M s) {a : ℕ} (ha : a ∈ kernelAddrs)
    (hne : findPhysaddr M s a ≠ 0) :
    ∃ f ∈ M.fm.pages, lookup M s a = some f ∧ findPhysaddr M s a = f + a % 4096 ∧
      f % 4096 = 0 := by
  rcases hl : lookup M s a with _ | f
  · exact absurd (findPhysaddr_of_none hl) hne
  · exact ⟨f, hf a ha f hl, rfl, findPhysaddr_of_lookup hl, lookup_aligned hl⟩

/-- **No two live bytes share a physical address.** In every run of `malloc` and `free` from
an empty kernel heap that reuses no page whose frame was released and releases no page table
and no frame in which another block lives, distinct mapped bytes of live blocks translate to
distinct addresses, in frames that are in use. -/
theorem live_bytes_unaliased (M : Machine) (hM : FramesOk M)
    (hlt : ∀ a ∈ M.fm.pages, a < 0x1000000000) (s : Paging) (hs : Wf M s)
    (hclear : ∀ a ∈ kernelAddrs, lookup M s a = none) (cs : List Call)
    (hk : ∀ c ∈ cs, KernelCall c) (hcs : Watched M (Spares M) ∅ cs ⟨initMalloc, s⟩) :
    let st := run M cs ⟨initMalloc, s⟩
    (∀ a ∈ liveBytes st.tables, ∀ b ∈ liveBytes st.tables, a ≠ b →
      findPhysaddr M st.paging a ≠ 0 → findPhysaddr M st.paging b ≠ 0 →
        findPhysaddr M st.paging a ≠ findPhysaddr M st.paging b) ∧
    ∀ a ∈ liveBytes st.tables, findPhysaddr M st.paging a ≠ 0 →
      InUse M.fm st.paging.bmap (findPhysaddr M st.paging a / PAGE_SIZE * PAGE_SIZE) := by
  intro st
  obtain ⟨hrun, h⟩ := kernel_run_clear hM hlt hs hclear hk hcs
  have hf : Framed M st.paging := hrun
  refine ⟨fun a ha b hb hab hna hnb heq => hab ?_, fun a ha hna => ?_⟩
  · obtain ⟨f, hfm, hla, hfa, hal⟩ := hf.byte (h.live a ha).1 hna
    obtain ⟨g, hgm, hlb, hgb, hbl⟩ := hf.byte (h.live b hb).1 hnb
    rw [hfa, hgb] at heq
    obtain rfl : f = g := by omega
    have hp := h.unique a (h.live a ha).1 b (h.live b hb).1 (h.settled ha) (h.settled hb) f hfm
      hla hlb
    have h₁ := (h.live a ha).1
    have h₂ := (h.live b hb).1
    have h₃ := h₁.2
    have h₄ := h₂.2
    unfold kernelStack at h₃ h₄
    unfold page at hp
    omega
  · obtain ⟨f, hfm, hla, hfa, hal⟩ := hf.byte (h.live a ha).1 hna
    have hin := (h.back a (h.live a ha).1 (h.settled ha) f hla).2 hfm
    have he : findPhysaddr M st.paging a / PAGE_SIZE * PAGE_SIZE = f := by
      unfold PAGE_SIZE
      omega
    rwa [he]

theorem live_bytes_unaliased_two :
    let M := smallMachine 16 (by decide)
    let st := run M [.malloc 4096 0, .malloc 100 0] ⟨initMalloc, zeroed⟩
    findPhysaddr M st.paging kernelHeap = 0x100000 ∧
      findPhysaddr M st.paging kernelHeap ≠ findPhysaddr M st.paging (kernelHeap + 4096) := by
  intro M st
  have h := live_bytes_unaliased M (framesOk_smallMachine (by decide))
    (by decide +kernel) zeroed (wf_of_clear fun _ => rfl)
    (fun a _ => lookup_of_clear (fun _ => rfl) a) [.malloc 4096 0, .malloc 100 0]
    (by simp [KernelCall])
    ⟨⟨by decide +kernel, fun _ _ a _ => Set.notMem_empty (page a)⟩,
      ⟨by decide +kernel, fun _ _ a _ => by simp [releasedBy]⟩, trivial⟩
  refine ⟨by decide +kernel, h.1 kernelHeap ?_ (kernelHeap + 4096) ?_ (by decide)
    (by decide +kernel) (by decide +kernel)⟩
  · exact ⟨0, by decide, ⟨kernelHeap, 4096⟩, ⟨0, by decide +kernel, by decide⟩, le_refl _, by decide⟩
  · exact ⟨0, by decide, ⟨kernelHeap + 4096, 100⟩, ⟨1, by decide +kernel, by decide⟩, le_refl _,
      by decide⟩

/-- `malloc(4096)`, `free`, `malloc(4096)`: the page is still mapped, so the block keeps the
frame that was released; the next `malloc(4096)` gets that frame too. -/
theorem live_bytes_unaliased_reused :
    let M := smallMachine 16 (by decide)
    let again : List Call := [.malloc 4096 0, .free kernelHeap, .malloc 4096 0]
    let st := run M again ⟨initMalloc, zeroed⟩
    let st' := run M (again ++ [.malloc 4096 0]) ⟨initMalloc, zeroed⟩
    (∀ v, findPhysaddr M zeroed v = 0) ∧ (∀ a ∈ M.fm.pages, 0 < a ∧ a < 0x1000000000) ∧
      (∀ e ∈ (mallocHeap M 4096 0 ⟨initMalloc, zeroed⟩).trace, ¬ RanOut M.fm e) ∧
      (∀ e ∈ (mallocHeap M 4096 0 st).trace, ¬ RanOut M.fm e) ∧
      (kernelHeap ∈ liveBytes st.tables ∧ findPhysaddr M st.paging kernelHeap = 0x100000 ∧
        ¬ InUse M.fm st.paging.bmap 0x100000) ∧
      kernelHeap ∈ liveBytes st'.tables ∧ kernelHeap + 4096 ∈ liveBytes st'.tables ∧
      findPhysaddr M st'.paging kernelHeap = 0x100000 ∧
      findPhysaddr M st'.paging (kernelHeap + 4096) = 0x100000 := by
  intro M again st st'
  refine ⟨fun v => findPhysaddr_of_none (lookup_of_clear (fun _ => rfl) v), by decide +kernel,
    by decide +kernel, by decide +kernel, ⟨?_, by decide +kernel, ?_⟩, ?_, ?_, by decide +kernel,
    by decide +kernel⟩
  · exact ⟨0, by decide, ⟨kernelHeap, 4096⟩, ⟨0, by decide +kernel, by decide⟩, le_refl _, by decide⟩
  · rintro ⟨k, hk, hu⟩
    have h0 : M.fm.pages[0]? = some 0x100000 := by decide +kernel
    obtain rfl := getElem?_inj (framesOk_smallMachine (by decide)).fm.nodup hk h0
    have hclear : used st.paging.bmap 0 = false := by decide +kernel
    rw [hclear] at hu
    cases hu
  · exact ⟨0, by decide, ⟨kernelHeap, 4096⟩, ⟨0, by decide +kernel, by decide⟩, le_refl _, by decide⟩
  · exact ⟨0, by decide, ⟨kernelHeap + 4096, 4096⟩, ⟨1, by decide +kernel, by decide⟩, le_refl _,
      by decide⟩

end FlameOS.HeapSafety
