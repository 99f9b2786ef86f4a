import FlameOS.TableAccess

/-!
0 as the failure value of `phys_page_alloc` and `find_physaddr`.

It is one as long as it is the address of no frame that a page can get. So page 0 must not be in
the freemap, and no page may be mapped to what `phys_page_alloc` returns when it fails.
-/

namespace FlameOS.ZeroFrame

open FlameOS.Word FlameOS.FrameAlloc FlameOS.Trie FlameOS.PageTable FlameOS.MapPage
open FlameOS.MapSpec FlameOS.MapRun FlameOS.Boot FlameOS.Backing FlameOS.TableAccess

variable {M : Machine} {s : Paging}

/-! ### Runs -/

/-- A call `phys_page_alloc()`, `phys_page_free(addr)` or `map_page(phys_page_alloc(), virt)`. -/
inductive Step
  | alloc
  | free (addr : ℕ)
  | map (virt : ℕ)

def step (M : Machine) : Step → Paging → Paging
  | .alloc, s => afterAlloc M s
  | .free addr, s => { s with bmap := physPageFree M.fm addr s.bmap }
  | .map virt, s => (mapPage M (physPageAlloc M.fm s.bmap).1 virt (afterAlloc M s)).1

def runSteps (M : Machine) : List Step → Paging → Paging
  | [], s => s
  | st :: sts, s => runSteps M sts (step M st s)

/-- The call does not free a frame in use as a page table, and it maps a page only if there are
frames for it and for the tables it lacks. -/
def Safe (M : Machine) : Step → Paging → Prop
  | .alloc, _ => True
  | .free addr, s => ¬ IsPageTable M s addr
  | .map virt, s => virt % PAGE_SIZE = 0 → ¬ AllUsed M.fm s.bmap ∧
      ∀ e ∈ (mapPage M (physPageAlloc M.fm s.bmap).1 virt (afterAlloc M s)).2, ¬ RanOut M.fm e

def SafeRun (M : Machine) : List Step → Paging → Prop
  | [], _ => True
  | st :: sts, s => Safe M st s ∧ SafeRun M sts (step M st s)

/-! ### What pages are mapped to -/

/-- A space of tables in use that maps pages to frames of the freemap only. -/
structure Framed (M : Machine) (s : Paging) : Prop where
  wf : Wf M s
  frames : ∀ v f, lookup M s v = some f → f ∈ M.fm.pages

lemma framed_of_clear (h : ∀ i, s.frame M.pml4 i = 0) : Framed M s := by
  refine ⟨wf_of_clear h, fun v f hl => ?_⟩
  rw [lookup_of_clear h] at hl
  cases hl

lemma framed_step (hM : FramesOk M) (h : Framed M s) {st : Step} (hst : Safe M st s) :
    Framed M (step M st s) := by
  cases st with
  | alloc => exact ⟨wf_afterAlloc h.wf, h.frames⟩
  | free addr => exact ⟨wf_free hM h.wf hst, h.frames⟩
  | map virt =>
    rw [step]
    by_cases hv : virt % PAGE_SIZE = 0
    · obtain ⟨hf, hno⟩ := hst hv
      have hmem := alloc_mem hf
      have hm := mapPage_mapped hM (wf_afterAlloc h.wf) (hM.fm.mem_pages hmem).1 hv hno
      refine ⟨hm.wf, fun w f hl => ?_⟩
      by_cases hw : page w = page virt
      · rw [lookup_congr hw, hm.self, alloc_and_mask hM hf] at hl
        cases hl
        exact hmem
      · rcases hm.lookups w hw with he | ⟨t, ht, -, he⟩
        · exact h.frames w f (he.symm.trans hl)
        · cases he.symm.trans hl
          exact (hm.fresh f ht).1
    · rw [mapPage_unaligned (Or.inr hv)]
      exact ⟨wf_afterAlloc h.wf, h.frames⟩

lemma framed_run (hM : FramesOk M) (h : Framed M s) {sts : List Step} (hsts : SafeRun M sts s) :
    Framed M (runSteps M sts s) := by
  induction sts generalizing s with
  | nil => exact h
  | cons st sts ih => exact ih (framed_step hM h hsts.1) hsts.2

/-! ### The failure values -/

/-- `phys_page_alloc` returns 0 if and only if it fails. -/
def AllocUnambiguous (M : Machine) (s : Paging) : Prop :=
  (physPageAlloc M.fm s.bmap).1 = 0 ↔ AllUsed M.fm s.bmap

def NotPresent (M : Machine) (s : Paging) (virt : ℕ) : Prop :=
  ∃ σ i ρ t, path virt = σ ++ i :: ρ ∧ walk (next s) M.pml4 σ = some t ∧
    present (s.frame t i) = false

/-- `find_physaddr` returns 0 for a page if and only if it fails. -/
def FindUnambiguous (M : Machine) (s : Paging) : Prop :=
  ∀ virt, virt % PAGE_SIZE = 0 → (findPhysaddr M s virt = 0 ↔ NotPresent M s virt)

lemma lookup_eq_none_iff (virt : ℕ) : lookup M s virt = none ↔ NotPresent M s virt := by
  unfold lookup NotPresent
  rw [walk_eq_none_iff]
  simp only [next_eq_none]

lemma allocUnambiguous (h0 : 0 ∉ M.fm.pages) : AllocUnambiguous M s := by
  refine ⟨fun hz => ?_, fun hall => ?_⟩
  · by_contra hf
    exact alloc_ne_zero h0 hf hz
  · rw [physPageAlloc_full hall]

lemma Framed.findUnambiguous (h0 : 0 ∉ M.fm.pages) (h : Framed M s) : FindUnambiguous M s := by
  intro virt hv
  rw [← lookup_eq_none_iff, findPhysaddr_eq]
  rcases hl : lookup M s virt with _ | f
  · exact iff_of_true rfl rfl
  · have hne : f ≠ 0 := fun hz => h0 (hz ▸ h.frames virt f hl)
    refine iff_of_false (fun hz => hne ?_) (Option.some_ne_none f)
    rw [Option.elim_some] at hz
    omega

/-! ### A freemap with page 0 -/

/-- The bits below `k` are set, and no others. -/
def FirstUsed (k : ℕ) (s : Paging) : Prop := ∀ i, used s.bmap i = true ↔ i < k

lemma FirstUsed.firstFree {k : ℕ} (h : FirstUsed k s) (hk : k < M.fm.pages.length) :
    firstFree s.bmap M.fm.pages 0 = some (M.fm.pages[k], k) := by
  have hfree : used s.bmap (0 + k) = false := by
    rw [Nat.zero_add, Bool.eq_false_iff, ne_eq, h]
    exact lt_irrefl k
  rw [firstFree_eq (List.getElem?_eq_getElem hk) (fun i hi => (h _).mpr (by omega)) hfree,
    Nat.zero_add]

lemma FirstUsed.afterAlloc {k : ℕ} (h : FirstUsed k s) (hk : k < M.fm.pages.length) :
    FirstUsed (k + 1) (afterAlloc M s) := by
  intro i
  unfold Backing.afterAlloc
  rw [physPageAlloc_eq, h.firstFree hk]
  dsimp only
  rw [used_insert, Bool.or_eq_true, h i, decide_eq_true_eq]
  omega

lemma FirstUsed.allocs {k n : ℕ} (h : FirstUsed k s) (hn : k + n ≤ M.fm.pages.length) :
    FirstUsed (k + n) (runSteps M (List.replicate n .alloc) s) := by
  induction n generalizing k s with
  | zero => exact h
  | succ n ih =>
    have h' := ih (h.afterAlloc (M := M) (by omega)) (by omega)
    rwa [Nat.add_assoc, Nat.add_comm 1] at h'

lemma safeRun_allocs (n : ℕ) (s : Paging) : SafeRun M (List.replicate n .alloc) s := by
  induction n generalizing s with
  | zero => trivial
  | succ n ih => exact ⟨trivial, ih _⟩

/-- **0 is a failure value of frames.** In every run of calls that free no page table and map
pages only while there are frames, 0 is returned by `phys_page_alloc` exactly if every page is in
use, and by `find_physaddr` exactly if a level is not present, in every state that is reached, if
and only if page 0 is not in the freemap. -/
theorem zero_unambiguous_iff (M : Machine) (hM : FramesOk M) :
    (∀ s₀, Cleared M s₀ → ∀ sts, SafeRun M sts s₀ →
      AllocUnambiguous M (runSteps M sts s₀) ∧ FindUnambiguous M (runSteps M sts s₀)) ↔
    0 ∉ M.fm.pages := by
  constructor
  · intro h hmem
    -- when the pages before page 0 have been taken, it comes next
    obtain ⟨k, hk, hzero⟩ := List.getElem_of_mem hmem
    have hfirst : FirstUsed 0 zeroed := fun i => by simp [used, WordSet.mem, zeroed]
    have hk' := hfirst.allocs (M := M) (n := k) (by omega)
    rw [Nat.zero_add] at hk'
    obtain ⟨halloc, -⟩ := h zeroed (cleared_zeroed M) _ (safeRun_allocs k zeroed)
    have hall := halloc.mp (by rw [physPageAlloc_eq, hk'.firstFree hk, hzero])
    exact absurd ((hk' k).mp (hall k hk)) (lt_irrefl k)
  · intro h0 s₀ hs₀ sts hsts
    exact ⟨allocUnambiguous h0,
      (framed_run hM (framed_of_clear hs₀.pml4) hsts).findUnambiguous h0⟩

/-- A page of the heap is mapped, and a frame taken. -/
theorem zero_unambiguous_iff_two :
    let M := smallMachine 16 (by decide)
    let s := runSteps M [.map 0x400000, .alloc] zeroed
    AllocUnambiguous M s ∧ FindUnambiguous M s :=
  (zero_unambiguous_iff (smallMachine 16 (by decide)) (framesOk_smallMachine (by decide))).mpr
    (by decide +kernel) zeroed (cleared_zeroed _) [.map 0x400000, .alloc]
    ⟨fun _ => by decide +kernel, trivial, trivial⟩

def lowFrames : Machine where
  pml4 := 0x80000
  fm := ⟨fun _ => ⟨0, 8⟩, 1, 1⟩
  pml4_ne_zero := by decide
  pml4_notMem := by decide

/-- Page 0 is the first that is taken, and what is mapped to it seems not to be mapped. -/
theorem not_zero_unambiguous :
    FramesOk lowFrames ∧ (physPageAlloc lowFrames.fm zeroed.bmap).1 = 0 ∧
    ¬ AllUsed lowFrames.fm zeroed.bmap ∧ SafeRun lowFrames [.map 0x400000] zeroed ∧
    findPhysaddr lowFrames (runSteps lowFrames [.map 0x400000] zeroed) 0x400000 = 0 ∧
    ¬ NotPresent lowFrames (runSteps lowFrames [.map 0x400000] zeroed) 0x400000 := by
  have hl : lookup lowFrames (runSteps lowFrames [.map 0x400000] zeroed) 0x400000 = some 0 := by
    decide +kernel
  refine ⟨⟨⟨by decide, by decide, by decide, by decide⟩, by decide⟩, by decide +kernel,
    by decide +kernel, ⟨fun _ => by decide +kernel, trivial⟩, findPhysaddr_of_lookup hl, ?_⟩
  rw [← lookup_eq_none_iff, hl]
  exact Option.some_ne_none 0

end FlameOS.ZeroFrame
