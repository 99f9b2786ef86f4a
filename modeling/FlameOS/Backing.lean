import FlameOS.Boot

/-!
The pages behind the blocks. `malloc_heap` visits its block page by page and maps what is
not mapped; `free` releases frames and leaves the page tables alone. A block gets all its
pages exactly when it starts at a page boundary or has them already, since `map_page`
ignores every other address.
-/

namespace FlameOS.Backing

open FlameOS.Word FlameOS.FrameAlloc FlameOS.FrameRun FlameOS.PageTable FlameOS.MapPage
open FlameOS.MapSpec FlameOS.MapRun FlameOS.HeapTable FlameOS.HeapArena FlameOS.Heap FlameOS.Boot

variable {M : Machine} {s : Paging} {virt : ℕ}

/-! ### The bitmap alone -/

def afterAlloc (M : Machine) (s : Paging) : Paging :=
  { s with bmap := (physPageAlloc M.fm s.bmap).2 }

@[simp] lemma isTable_afterAlloc (t : ℕ) : IsTable M (afterAlloc M s) t ↔ IsTable M s t := Iff.rfl

lemma wf_afterAlloc (hs : Wf M s) : Wf M (afterAlloc M s) := by
  refine ⟨hs.shaped, fun t ht => (hs.inUse t ht).imp_right ?_⟩
  rintro ⟨k, hk, hu⟩
  exact ⟨k, hk, used_alloc hu⟩

lemma mapMissing_unmapped (h : findPhysaddr M s virt = 0) :
    mapMissing M virt s =
      ((mapPage M (physPageAlloc M.fm s.bmap).1 virt (afterAlloc M s)).1,
        .data s.bmap (physPageAlloc M.fm s.bmap).1 ::
          (mapPage M (physPageAlloc M.fm s.bmap).1 virt (afterAlloc M s)).2) := by
  rw [mapMissing, if_pos h]
  rfl

lemma mapMissing_mapped (h : findPhysaddr M s virt ≠ 0) : mapMissing M virt s = (s, []) := by
  rw [mapMissing, if_neg h]

/-- The page of the block at `virt` after a turn of the mapping loop: it was mapped before,
or a frame was taken for it; `map_page` then ignores an unaligned address. -/
lemma mapMissing_cases (hM : FramesOk M) (hs : Wf M s)
    (hno : ∀ e ∈ (mapMissing M virt s).2, ¬ RanOut M.fm e) :
    (findPhysaddr M s virt ≠ 0 ∧ mapMissing M virt s = (s, [])) ∨
    (findPhysaddr M s virt = 0 ∧ ¬ AllUsed M.fm s.bmap ∧
      ((virt % PAGE_SIZE ≠ 0 ∧ (mapMissing M virt s).1 = afterAlloc M s ∧
          taken (mapMissing M virt s).2 = []) ∨
        (virt % PAGE_SIZE = 0 ∧ Mapped M (physPageAlloc M.fm s.bmap).1 virt (afterAlloc M s)
          (mapMissing M virt s).1 (taken (mapMissing M virt s).2)))) := by
  by_cases hf : findPhysaddr M s virt = 0
  · rw [mapMissing_unmapped hf] at hno ⊢
    have hfull : ¬ AllUsed M.fm s.bmap := hno (.data s.bmap (physPageAlloc M.fm s.bmap).1) (by simp)
    refine Or.inr ⟨hf, hfull, ?_⟩
    by_cases hv : virt % PAGE_SIZE = 0
    · have hal := (hM.fm.mem_pages (alloc_mem hfull)).1
      exact Or.inr ⟨hv, mapPage_mapped hM (wf_afterAlloc hs) hal hv fun e he => hno e (by simp [he])⟩
    · rw [mapPage_unaligned (Or.inr hv)]
      exact Or.inl ⟨hv, rfl, rfl⟩
  · exact Or.inl ⟨hf, mapMissing_mapped hf⟩

lemma mapMissing_wf (hM : FramesOk M) (hs : Wf M s)
    (hno : ∀ e ∈ (mapMissing M virt s).2, ¬ RanOut M.fm e) : Wf M (mapMissing M virt s).1 := by
  rcases mapMissing_cases hM hs hno with ⟨-, h⟩ | ⟨-, -, ⟨-, h, -⟩ | ⟨-, h⟩⟩
  · rwa [h]
  · rw [h]
    exact wf_afterAlloc hs
  · exact h.wf

lemma mapEach_unaligned {vs : List ℕ} (h : ∀ v ∈ vs, v % PAGE_SIZE ≠ 0) :
    (mapEach M vs s).1.frame = s.frame := by
  induction vs generalizing s with
  | nil => rfl
  | cons v vs ih =>
    rw [mapEach, ih fun w hw => h w (List.mem_cons_of_mem _ hw)]
    by_cases hf : findPhysaddr M s v = 0
    · rw [mapMissing_unmapped hf, mapPage_unaligned (Or.inr (h v List.mem_cons_self))]
      rfl
    · rw [mapMissing_mapped hf]

/-! ### What is mapped stays mapped -/

def Backed (M : Machine) (s : Paging) (w : ℕ) : Prop := findPhysaddr M s w ≠ 0

lemma backed_of_lookup {f w : ℕ} (h : lookup M s w = some f) (hf : f ≠ 0) : Backed M s w := by
  unfold Backed
  rw [findPhysaddr_of_lookup h]
  omega

lemma Mapped.backed {phys w : ℕ} {s' : Paging} {new : List ℕ} (h0 : 0 ∉ M.fm.pages)
    (hphys : phys &&& ADDR_MASK ≠ 0) (h : Mapped M phys virt s s' new) (hw : Backed M s w) :
    Backed M s' w := by
  by_cases hp : page w = page virt
  · exact backed_of_lookup (by rw [lookup_congr hp, h.self]) hphys
  · rcases h.lookups w hp with hl | ⟨t, ht, -, hl⟩
    · unfold Backed
      rwa [findPhysaddr_congr hl]
    · exact backed_of_lookup hl fun hz => h0 (hz ▸ (h.fresh t ht).1)

lemma alloc_and_mask (hM : FramesOk M) (hf : ¬ AllUsed M.fm s.bmap) :
    (physPageAlloc M.fm s.bmap).1 &&& ADDR_MASK = (physPageAlloc M.fm s.bmap).1 :=
  and_mask_of_aligned (hM.fm.mem_pages (alloc_mem hf)).1 (hM.lt _ (alloc_mem hf))

lemma alloc_ne_zero (h0 : 0 ∉ M.fm.pages) (hf : ¬ AllUsed M.fm s.bmap) :
    (physPageAlloc M.fm s.bmap).1 ≠ 0 := fun hz => h0 (hz ▸ alloc_mem hf)

lemma mapMissing_backed (hM : FramesOk M) (h0 : 0 ∉ M.fm.pages) (hs : Wf M s)
    (hno : ∀ e ∈ (mapMissing M virt s).2, ¬ RanOut M.fm e) {w : ℕ} (hw : Backed M s w) :
    Backed M (mapMissing M virt s).1 w := by
  rcases mapMissing_cases hM hs hno with ⟨-, h⟩ | ⟨-, hf, ⟨-, h, -⟩ | ⟨-, h⟩⟩
  · rwa [h]
  · rwa [h]
  · refine Mapped.backed h0 ?_ h hw
    rw [alloc_and_mask hM hf]
    exact alloc_ne_zero h0 hf

lemma mapMissing_self (hM : FramesOk M) (h0 : 0 ∉ M.fm.pages) (hs : Wf M s)
    (hv : virt % PAGE_SIZE = 0) (hno : ∀ e ∈ (mapMissing M virt s).2, ¬ RanOut M.fm e) {w : ℕ}
    (hw : page w = page virt) : Backed M (mapMissing M virt s).1 w := by
  rcases mapMissing_cases hM hs hno with ⟨hne, h⟩ | ⟨-, hf, ⟨hal, -⟩ | ⟨-, h⟩⟩
  · rw [h]
    rcases hl : lookup M s virt with _ | f
    · exact absurd (findPhysaddr_of_none hl) hne
    · refine backed_of_lookup (f := f) (by rw [lookup_congr hw, hl]) fun hz => hne ?_
      rw [findPhysaddr_of_lookup hl, hz, Nat.zero_add]
      exact hv
  · exact absurd hv hal
  · refine backed_of_lookup (by rw [lookup_congr hw, h.self]) ?_
    rw [alloc_and_mask hM hf]
    exact alloc_ne_zero h0 hf

/-- What a turn of the mapping loop keeps, the loop keeps. -/
lemma mapEach_keeps {P : Paging → Prop} {vs : List ℕ}
    (hturn : ∀ s v, P s → (∀ e ∈ (mapMissing M v s).2, ¬ RanOut M.fm e) → P (mapMissing M v s).1)
    (hno : ∀ e ∈ (mapEach M vs s).2, ¬ RanOut M.fm e) (h : P s) : P (mapEach M vs s).1 := by
  induction vs generalizing s with
  | nil => exact h
  | cons v vs ih =>
    simp only [mapEach, List.forall_mem_append] at hno
    exact ih hno.2 (hturn s v h hno.1)

section loop

variable (hM : FramesOk M) {vs : List ℕ}

include hM

lemma mapEach_wf (hs : Wf M s) (hno : ∀ e ∈ (mapEach M vs s).2, ¬ RanOut M.fm e) :
    Wf M (mapEach M vs s).1 :=
  mapEach_keeps (fun _ _ hs hno => mapMissing_wf hM hs hno) hno hs

lemma mapEach_backed (h0 : 0 ∉ M.fm.pages) (hs : Wf M s)
    (hno : ∀ e ∈ (mapEach M vs s).2, ¬ RanOut M.fm e) {w : ℕ} (hw : Backed M s w) :
    Backed M (mapEach M vs s).1 w := by
  have hkeeps : Wf M (mapEach M vs s).1 ∧ Backed M (mapEach M vs s).1 w :=
    mapEach_keeps (P := fun s => Wf M s ∧ Backed M s w) (fun s v h hno =>
      ⟨mapMissing_wf hM h.1 hno, mapMissing_backed hM h0 h.1 hno h.2⟩) hno ⟨hs, hw⟩
  exact hkeeps.2

lemma mapEach_self (h0 : 0 ∉ M.fm.pages) (hs : Wf M s)
    (hno : ∀ e ∈ (mapEach M vs s).2, ¬ RanOut M.fm e) {v w : ℕ} (hv : v ∈ vs)
    (hal : v % PAGE_SIZE = 0) (hw : page w = page v) : Backed M (mapEach M vs s).1 w := by
  induction vs generalizing s with
  | nil => cases hv
  | cons x vs ih =>
    simp only [mapEach, List.forall_mem_append] at hno
    obtain ⟨hno₁, hno₂⟩ := hno
    have hs' := mapMissing_wf hM hs hno₁
    rcases List.mem_cons.mp hv with rfl | hv
    · exact mapEach_backed hM h0 hs' hno₂ (mapMissing_self hM h0 hs hal hno₁ hw)
    · exact ih hs' hno₂ hv

end loop

/-! ### Releasing frames -/

@[simp] lemma frame_releaseEach (vs : List ℕ) (s : Paging) :
    (releaseEach M vs s).frame = s.frame := by
  induction vs generalizing s with
  | nil => rfl
  | cons v vs ih => rw [releaseEach, ih]

lemma lookup_releaseEach (vs : List ℕ) (s : Paging) (v : ℕ) :
    lookup M (releaseEach M vs s) v = lookup M s v := by
  unfold lookup next
  rw [frame_releaseEach]

lemma isTable_releaseEach (vs : List ℕ) (s : Paging) (t : ℕ) :
    IsTable M (releaseEach M vs s) t ↔ IsTable M s t := by
  unfold IsTable next
  rw [frame_releaseEach]

lemma inUse_free {f : Freemap} (hf : f.Ok) {bmap : ℕ → ℕ} {a x : ℕ} :
    InUse f (physPageFree f a bmap) x ↔ InUse f bmap x ∧ x ≠ a := by
  by_cases ha : a ∈ f.pages
  · obtain ⟨k, hk⟩ := List.getElem?_of_mem ha
    rw [physPageFree_page hf.nodup hf.descs (hf.mem_pages ha).1 hk]
    constructor
    · rintro ⟨j, hj, hu⟩
      rw [used_erase, Bool.and_eq_true, Bool.not_eq_true', decide_eq_false_iff_not] at hu
      refine ⟨⟨j, hj, hu.1⟩, ?_⟩
      rintro rfl
      exact hu.2 (getElem?_inj hf.nodup hj hk)
    · rintro ⟨⟨j, hj, hu⟩, hxa⟩
      have hjk : j ≠ k := by
        rintro rfl
        exact hxa (Option.some.inj (hj.symm.trans hk))
      exact ⟨j, hj, by simp [used_erase, hu, hjk]⟩
  · have hsame : ∀ j, f.pages[j]? = some x →
        used (physPageFree f a bmap) j = used bmap j := fun j hj =>
      physPageFree_foreign hf.descs ha (List.getElem?_eq_some_iff.mp hj).1
    constructor
    · rintro ⟨j, hj, hu⟩
      exact ⟨⟨j, hj, (hsame j hj).symm.trans hu⟩, fun hxa => ha (hxa ▸ List.mem_of_getElem? hj)⟩
    · rintro ⟨⟨j, hj, hu⟩, -⟩
      exact ⟨j, hj, (hsame j hj).trans hu⟩

lemma inUse_releaseEach (hM : FramesOk M) {vs : List ℕ} {x : ℕ} :
    InUse M.fm (releaseEach M vs s).bmap x ↔
      InUse M.fm s.bmap x ∧ ∀ v ∈ vs, findPhysaddr M s v ≠ x := by
  induction vs generalizing s with
  | nil => simp [releaseEach]
  | cons v vs ih =>
    have hfind : ∀ w, findPhysaddr M { s with bmap := physPageFree M.fm (findPhysaddr M s v) s.bmap }
        w = findPhysaddr M s w := fun w => rfl
    rw [releaseEach, ih, inUse_free hM.fm, List.forall_mem_cons, and_assoc]
    simp only [hfind, ne_comm]

/-- The frame serves as PDPT, PD or PT. -/
def IsPageTable (M : Machine) (s : Paging) (t : ℕ) : Prop := IsTable M s t ∧ t ≠ M.pml4

lemma inUse_of_isPageTable (hs : Wf M s) {t : ℕ} (ht : IsPageTable M s t) :
    InUse M.fm s.bmap t := (hs.inUse t ht.1).resolve_left ht.2

lemma wf_free (hM : FramesOk M) (hs : Wf M s) {addr : ℕ} (h : ¬ IsPageTable M s addr) :
    Wf M { s with bmap := physPageFree M.fm addr s.bmap } := by
  refine ⟨hs.shaped, fun t ht => or_iff_not_imp_left.mpr fun h4 => ?_⟩
  have hpt : IsPageTable M s t := ⟨ht, h4⟩
  exact (inUse_free hM.fm).mpr ⟨inUse_of_isPageTable hs hpt, fun he => h (he ▸ hpt)⟩

lemma wf_releaseEach (hM : FramesOk M) (hs : Wf M s) {vs : List ℕ}
    (h : ∀ v ∈ vs, ¬ IsPageTable M s (findPhysaddr M s v)) : Wf M (releaseEach M vs s) := by
  refine ⟨?_, fun t ht => ?_⟩
  · have := hs.shaped
    unfold next at this ⊢
    rwa [frame_releaseEach]
  · rw [isTable_releaseEach] at ht
    by_cases h4 : t = M.pml4
    · exact Or.inl h4
    · refine Or.inr ((inUse_releaseEach hM).mpr ⟨inUse_of_isPageTable hs ⟨ht, h4⟩, ?_⟩)
      rintro v hv rfl
      exact h v hv ⟨ht, h4⟩

/-! ### Runs -/

/-- Every call of the run starts in a state in which it meets the condition. -/
def Guarded (M : Machine) (P : Call → State → Prop) : List Call → State → Prop
  | [], _ => True
  | c :: cs, st => P c st ∧ Guarded M P cs (call M c st)

instance decidableGuarded (M : Machine) (P : Call → State → Prop) [∀ c st, Decidable (P c st)] :
    (cs : List Call) → (st : State) → Decidable (Guarded M P cs st)
  | [], _ => .isTrue trivial
  | c :: cs, st =>
    haveI := decidableGuarded M P cs (call M c st)
    inferInstanceAs (Decidable (P c st ∧ Guarded M P cs (call M c st)))

/-- The call does not run out of frames and releases none in use as a page table. -/
def KeepsTables (M : Machine) : Call → State → Prop
  | .malloc size heap, st => ∀ e ∈ (mallocHeap M size heap st).trace, ¬ RanOut M.fm e
  | .free addr, st =>
    ∀ v ∈ freedAddrs addr st.tables, ¬ IsPageTable M st.paging (findPhysaddr M st.paging v)

lemma mallocHeap_wf (hM : FramesOk M) {st : State} (hs : Wf M st.paging) {size heap : ℕ}
    (hno : ∀ e ∈ (mallocHeap M size heap st).trace, ¬ RanOut M.fm e) :
    Wf M (mallocHeap M size heap st).state.paging := by
  rcases ht : takeBlock size heap st.tables with ⟨_ | addr, t⟩
  · rw [mallocHeap_none ht]
    exact hs
  · rw [mallocHeap_some ht, trace_block] at hno
    rw [mallocHeap_some ht, paging_block]
    exact mapEach_wf hM hs hno

lemma call_wf (hM : FramesOk M) {st : State} (hs : Wf M st.paging) {c : Call}
    (hc : KeepsTables M c st) : Wf M (call M c st).paging := by
  cases c with
  | malloc size heap => exact mallocHeap_wf hM hs hc
  | free addr =>
    rw [call, free_eq]
    exact wf_releaseEach hM hs hc

lemma run_wf (hM : FramesOk M) {st : State} (hs : Wf M st.paging) {cs : List Call}
    (hcs : Guarded M (KeepsTables M) cs st) : Wf M (run M cs st).paging := by
  induction cs generalizing st with
  | nil => exact hs
  | cons c cs ih => exact ih (call_wf hM hs hcs.1) hcs.2

/-! ### Backing a block -/

/-- The start of the block that a request is served from: that of the first free space that
is large enough, as long as `allocations` has an entry left. -/
def firstFit (t : Tables) (heap size : ℕ) : Option ℕ :=
  if findSlot t heap = none then none
  else (findSpace t heap size).map fun i => (t.freespace heap i).addr

lemma firstFit_of_takeBlock {size heap addr : ℕ} {t t' : Tables}
    (h : takeBlock size heap t = (some addr, t')) : firstFit t heap size = some addr := by
  obtain ⟨-, -, i, k, hi, ha, hk, -⟩ := takeBlock_some h
  rw [firstFit, hk, hi, ha]
  rfl

lemma pageCount_eq {addr size : ℕ} (h : addr + size < 2 ^ 63) :
    pageCount addr size = (addr + size + 4095) / 4096 - addr / 4096 := by
  unfold pageCount
  rw [add64_eq (by omega), ceiling_page (by unfold PAGE_SIZE; omega), sub64_eq ?_ (by omega)]
  · rfl
  · unfold PAGE_SIZE
    omega

lemma mem_pageAddrs {addr size v : ℕ} (h : addr + size < 2 ^ 63) :
    v ∈ pageAddrs addr size ↔
      ∃ i < (addr + size + 4095) / 4096 - addr / 4096, v = addr + i * 4096 := by
  unfold pageAddrs
  rw [pageCount_eq h, List.mem_map]
  refine exists_congr fun i => ?_
  rw [List.mem_range]
  refine and_congr_right fun hi => ?_
  rw [add64_eq (by unfold PAGE_SIZE; omega)]
  exact eq_comm

lemma page_eq_of_div {v w : ℕ} (h : v / 4096 = w / 4096) : page v = page w := by
  unfold page
  rw [h]

lemma lt_of_takeBlock {t t' : Tables} {size heap addr : ℕ} (hs : Sound t)
    (h : takeBlock size heap t = (some addr, t')) : addr + size < 2 ^ 63 := by
  have hs' : Sound t' := by
    have hs' := hs.takeBlock size heap
    rwa [h] at hs'
  have hb := hs'.within (takeBlock_some h).1 ((live_takeBlock h heap _).mpr (Or.inr ⟨rfl, rfl⟩))
  have hlim := (heap_bounds heap).2
  dsimp only at hb
  omega

/-- The free space a block of `size` bytes comes from starts at a page boundary, or all the
bytes of the block are mapped already. -/
def Backable (M : Machine) (st : State) (size : ℕ) : Prop :=
  ∀ addr, firstFit st.tables 0 size = some addr →
    addr % PAGE_SIZE = 0 ∨ ∀ k < size, findPhysaddr M st.paging (addr + k) ≠ 0

/-- **When a block is backed.** In every run that keeps the page tables in use, every byte of
a block that `malloc` returns is mapped exactly when the block starts at a page boundary or
was mapped before. -/
theorem backed_iff (M : Machine) (hM : FramesOk M) (h0 : 0 ∉ M.fm.pages) (s : Paging)
    (hs : Wf M s) (cs : List Call) (hcs : Guarded M (KeepsTables M) cs ⟨initMalloc, s⟩)
    (size : ℕ) :
    let st := run M cs ⟨initMalloc, s⟩
    (∀ e ∈ (malloc M size st).trace, ¬ RanOut M.fm e) → (malloc M size st).ptr ≠ 0 →
      ((∀ k < size, findPhysaddr M (malloc M size st).state.paging ((malloc M size st).ptr + k) ≠ 0) ↔
        Backable M st size) := by
  intro st hno hne
  have hwf : Wf M st.paging := run_wf hM hs hcs
  have hsound : Sound st.tables := sound_initMalloc.run cs
  rcases ht : takeBlock size 0 st.tables with ⟨_ | addr, t⟩
  · exact absurd (by rw [malloc, mallocHeap_none ht]) hne
  rw [malloc, mallocHeap_some ht, trace_block] at hno
  rw [malloc, mallocHeap_some ht, ptr_block, paging_block]
  have hlt : addr + size < 2 ^ 63 := lt_of_takeBlock hsound ht
  have hfit := firstFit_of_takeBlock ht
  constructor
  · intro hall a ha
    obtain rfl : addr = a := Option.some.inj (hfit.symm.trans ha)
    by_cases hal : addr % PAGE_SIZE = 0
    · exact Or.inl hal
    · -- No address of the loop is aligned: nothing gets mapped.
      refine Or.inr fun k hk => ?_
      have hframe : (mapEach M (pageAddrs addr size) st.paging).1.frame = st.paging.frame := by
        refine mapEach_unaligned fun v hv => ?_
        obtain ⟨i, -, rfl⟩ := (mem_pageAddrs hlt).mp hv
        unfold PAGE_SIZE at hal ⊢
        omega
      have hl : lookup M (mapEach M (pageAddrs addr size) st.paging).1 (addr + k) =
          lookup M st.paging (addr + k) := by
        unfold lookup next
        rw [hframe]
      rw [← findPhysaddr_congr hl]
      exact hall k hk
  · intro hback k hk
    rcases hback addr hfit with hal | hall
    · -- The byte lies in the page of turn `k / 4096`.
      unfold PAGE_SIZE at hal
      refine mapEach_self hM h0 hwf hno (v := addr + k / 4096 * 4096)
        ((mem_pageAddrs hlt).mpr ⟨k / 4096, by omega, rfl⟩) (by unfold PAGE_SIZE; omega)
        (page_eq_of_div (by omega))
    · exact mapEach_backed hM h0 hwf hno (hall k hk)

theorem backed_iff_page :
    let M := smallMachine 16 (by decide)
    let st := run M [.malloc 4096 0] ⟨initMalloc, zeroed⟩
    (malloc M 4096 st).ptr = kernelHeap + 4096 ∧
      ((∀ k < 4096, findPhysaddr M (malloc M 4096 st).state.paging ((malloc M 4096 st).ptr + k) ≠ 0) ↔
        Backable M st 4096) := by
  refine ⟨by decide +kernel, ?_⟩
  exact backed_iff (smallMachine 16 (by decide)) (framesOk_smallMachine (by decide))
    (by decide +kernel) zeroed (wf_of_clear fun _ => rfl) [.malloc 4096 0]
    ⟨by unfold KeepsTables; decide +kernel, trivial⟩ 4096 (by decide +kernel) (by decide +kernel)

/-- `malloc(100)`, then `malloc(5000)`: the second page of the block is never mapped. -/
theorem backed_iff_unaligned :
    let M := smallMachine 16 (by decide)
    let st := run M [.malloc 100 0] ⟨initMalloc, zeroed⟩
    (∀ e ∈ (mallocHeap M 100 0 ⟨initMalloc, zeroed⟩).trace, ¬ RanOut M.fm e) ∧
      (∀ e ∈ (malloc M 5000 st).trace, ¬ RanOut M.fm e) ∧ 0 ∉ M.fm.pages ∧
      (∀ v, findPhysaddr M zeroed v = 0) ∧ (malloc M 5000 st).ptr = kernelHeap + 100 ∧
      findPhysaddr M (malloc M 5000 st).state.paging (kernelHeap + 100 + 4096) = 0 :=
  ⟨by decide +kernel, by decide +kernel, by decide +kernel,
    fun v => findPhysaddr_of_none (lookup_of_clear (fun _ => rfl) v), by decide +kernel,
    by decide +kernel⟩

end FlameOS.Backing
