import FlameOS.Handover

/-!
The change from the page tables of the bootloader to those of the kernel.

`init_paging` builds its tables while it runs on those of `boot`, and loads them in the middle of a
function. The kernel and its stack have the same memory under both, so the instruction and the
stack behind the load of `CR3` are those that were there before it.
-/

namespace FlameOS.Switch

open FlameOS.Word FlameOS.FrameAlloc FlameOS.Trie FlameOS.PageTable FlameOS.MapPage FlameOS.MapSpec
open FlameOS.MapRun FlameOS.Boot FlameOS.AddressSpace FlameOS.MemoryMap FlameOS.BootPaging
open FlameOS.Bootloader FlameOS.BootTables FlameOS.Handover
open FlameOS.HeapTable (kernelHeap kernelStack)

variable {σ : Type} {F : Firmware σ} {M : Machine} {s : Paging} {v : ℕ}

/-! ### Calls one after the other -/

lemma runCalls_append (cs ds : List (ℕ × ℕ)) (s : Paging) : runCalls M (cs ++ ds) s =
    ((runCalls M ds (runCalls M cs s).1).1,
      (runCalls M cs s).2 ++ (runCalls M ds (runCalls M cs s).1).2) := by
  induction cs generalizing s with
  | nil => rfl
  | cons c cs ih =>
    obtain ⟨phys, virt⟩ := c
    rw [List.cons_append, runCalls, ih, runCalls, List.append_assoc]

/-- The last calls that name a page decide about it. -/
lemma lookup_runCalls_last (hM : FramesOk M) (hs : Wf M s) {cs ds : List (ℕ × ℕ)} {phys : ℕ}
    (hv : ∀ a ∈ M.fm.pages, page v ≠ page a)
    (hno : ∀ e ∈ (runCalls M (cs ++ ds) s).2, ¬ RanOut M.fm e) (hphys : phys % PAGE_SIZE = 0)
    (hsame : ∀ c ∈ ds, page c.2 = page v → c.1 = phys ∧ c.2 % PAGE_SIZE = 0)
    (hmap : ∃ c ∈ ds, page c.2 = page v) :
    lookup M (runCalls M (cs ++ ds) s).1 v = some (phys &&& ADDR_MASK) := by
  rw [runCalls_append] at hno ⊢
  obtain ⟨hno₁, hno₂⟩ := List.forall_mem_append.mp hno
  have hwf : Wf M (runCalls M cs s).1 := (runCalls_ext hM hs hno₁).wf
  refine lookup_runCalls hM hwf (fun t ht => ?_) hno₂ hphys hsame (Or.inl hmap)
  exact hv t ((runCalls_ext hM hwf hno₂).fresh t ht).1

/-! ### The tables of the bootloader -/

section kernelCalls

variable {kernel size : ℕ} (hk : kernel % PAGE_SIZE = 0 ∧ kernel < 0x1000000000)
  (hsize : size ≤ kernelHeap - kernelVaddr)

include hk hsize

/-- Nothing wraps in the loop over the pages of the kernel. -/
lemma mem_kernelCalls_iff {c : ℕ × ℕ} : c ∈ Bootloader.kernelCalls kernel size ↔
    ∃ i < max 1 (CEILING size PAGE_SIZE),
      c = (kernel + i * PAGE_SIZE, kernelVaddr + i * PAGE_SIZE) := by
  have hadd : ∀ i < max 1 (CEILING size PAGE_SIZE),
      (add64 kernel (i * PAGE_SIZE), add64 kernelVaddr (i * PAGE_SIZE)) =
        (kernel + i * PAGE_SIZE, kernelVaddr + i * PAGE_SIZE) := by
    intro i hi
    unfold kernelHeap kernelVaddr at hsize
    unfold CEILING PAGE_SIZE at hi
    unfold kernelVaddr PAGE_SIZE
    rw [add64_eq (by omega), add64_eq (by omega)]
  simp only [Bootloader.kernelCalls, List.mem_map, List.mem_range]
  constructor
  · rintro ⟨i, hi, rfl⟩
    exact ⟨i, hi, hadd i hi⟩
  · rintro ⟨i, hi, rfl⟩
    exact ⟨i, hi, hadd i hi⟩

/-- The page of the image at `o`. -/
lemma kernelCalls_page {o : ℕ} (ho : o < size) :
    (∃ c ∈ Bootloader.kernelCalls kernel size, page c.2 = page (kernelVaddr + o)) ∧
      ∀ c ∈ Bootloader.kernelCalls kernel size, page c.2 = page (kernelVaddr + o) →
        c.1 = kernel + o / 4096 * 4096 ∧ c.2 % PAGE_SIZE = 0 := by
  have hpages : o / 4096 < max 1 (CEILING size PAGE_SIZE) := by
    unfold kernelHeap kernelVaddr at hsize
    unfold CEILING PAGE_SIZE
    omega
  constructor
  · refine ⟨_, (mem_kernelCalls_iff hk hsize).mpr ⟨o / 4096, hpages, rfl⟩, ?_⟩
    unfold page kernelVaddr PAGE_SIZE
    dsimp only
    omega
  · intro c hc hp
    obtain ⟨i, hi, rfl⟩ := (mem_kernelCalls_iff hk hsize).mp hc
    unfold kernelHeap kernelVaddr at hsize
    unfold CEILING PAGE_SIZE at hi
    unfold page kernelVaddr PAGE_SIZE at *
    dsimp only at hp ⊢
    omega

end kernelCalls

/-- **Where the bootloader leaves the kernel**, whatever it has mapped before at the same
addresses. -/
lemma enterKernel_space (A : Allocator F) {pml4 fuel : ℕ} {elf : Elf} {n : Snapshot σ}
    {h : Handoff σ} (hrun : enterKernel F pml4 fuel elf n = some h) (h0 : pml4 ≠ 0)
    (htaken : pml4 ∈ A.taken n.state.fw)
    (hlow : ∀ g ∈ h.state.log, g.addr % PAGE_SIZE = 0 ∧ g.addr < 0x1000000000)
    (hk : n.kernel % PAGE_SIZE = 0 ∧ n.kernel < 0x1000000000)
    (hsize : kernelMemSize elf ≤ kernelHeap - kernelVaddr) (hpos : 0 < h.mbPages)
    (hle : h.mbPages ≤ 2 ^ 27) :
    (∀ o < kernelMemSize elf, physaddr pml4 h.state (kernelVaddr + o) = some (n.kernel + o)) ∧
      ∀ o < 4096,
        physaddr pml4 h.state (kernelStack - PAGE_SIZE + o) = some (h.kStackPaddr + o) := by
  obtain ⟨M, t₀, t, rfl, ht⟩ := enterKernel_tables A hrun h0 htaken hlow hk.1 hpos hle
  constructor
  · intro o ho
    obtain ⟨hmap, hsame⟩ := kernelCalls_page hk hsize ho
    unfold kernelHeap kernelVaddr at hsize
    have hv : 0x1000000000 ≤ kernelVaddr + o ∧ kernelVaddr + o < 2 ^ 48 ∧
        page (kernelVaddr + o) ≠ page (kernelStack - PAGE_SIZE) ∧
          (kernelVaddr + o) % 4096 = o % 4096 := by
      unfold page kernelVaddr kernelStack PAGE_SIZE
      omega
    have hphys : (n.kernel + o / 4096 * 4096) % PAGE_SIZE = 0 := by
      unfold PAGE_SIZE at *
      omega
    have hl : lookup M t (kernelVaddr + o) = some (n.kernel + o / 4096 * 4096) := by
      rw [ht.others _ ⟨hv.1, hv.2.1⟩ hv.2.2.1, lookup_runCalls_last ht.framesOk ht.wf
        (page_ne_low ht.low ⟨hv.1, hv.2.1⟩) ht.enough hphys hsame hmap,
        and_mask_of_aligned hphys (by omega)]
    rw [physaddr_of_lookup ht.sim hl, hv.2.2.2]
    congr 1
    omega
  · intro o ho
    have hv : page (kernelStack - PAGE_SIZE + o) = page (kernelStack - PAGE_SIZE) ∧
        (kernelStack - PAGE_SIZE + o) % 4096 = o := by
      unfold page kernelStack PAGE_SIZE
      omega
    rw [physaddr_of_lookup ht.sim ((lookup_congr hv.1).trans ht.stack), hv.2]

/-! ### The tables of the kernel -/

/-- **Where `init_paging` leaves the kernel.** -/
lemma initPaging_kernel (hM : FramesOk M) {b : BootinfoT} (hb : Standard M b)
    (hno : ∀ e ∈ (initPaging M (initGlobals b) s).2, ¬ RanOut M.fm e) :
    (∀ o < b.kSize, findPhysaddr M (initPaging M (initGlobals b) s).1 (kernelVaddr + o) =
      b.kPaddr + o) ∧
    ∀ o < 4096, findPhysaddr M (initPaging M (initGlobals b) s).1 (kernelStack - PAGE_SIZE + o) =
      b.kStackPaddr + o := by
  have hp := hb.placed hM
  have htk := taken_lt hM hb (wf_memset_pml4 s) hno
  constructor
  · intro o ho
    obtain ⟨hal, hlt⟩ := hb.kPaddr
    have hsize := hb.kSize
    rw [hb.kVaddr] at hsize
    unfold kernelHeap at hsize
    have hc : (b.kPaddr + o / 4096 * PAGE_SIZE, 0x1000000000 + o / 4096 * PAGE_SIZE) ∈
        bootCalls (initGlobals b) := by
      simp only [bootCalls, List.mem_append]
      exact Or.inl (Or.inl (Or.inl ((AddressSpace.mem_kernelCalls hp).mpr
        ⟨o / 4096, by unfold PAGE_SIZE; omega, rfl⟩)))
    unfold kernelVaddr
    rw [find_bootCall hp hM hno htk hc (by unfold PAGE_SIZE at *; omega)
      (by unfold PAGE_SIZE; omega) (by unfold PAGE_SIZE; omega)]
    unfold PAGE_SIZE
    omega
  · intro o ho
    obtain ⟨hal, hlt⟩ := hb.kStackPaddr
    have hc : (b.kStackPaddr, kernelStack - PAGE_SIZE) ∈ bootCalls (initGlobals b) := by
      simp [bootCalls, stackCall, initGlobals]
    rw [find_bootCall hp hM hno htk hc hal (by omega) (by unfold kernelStack PAGE_SIZE; omega)]
    unfold kernelStack PAGE_SIZE
    omega

lemma pages_ne_nil (hs : Wf M s) {f : ℕ} (h : lookup M s v = some f) : M.fm.pages ≠ [] := by
  rw [lookup, path_eq] at h
  obtain ⟨x, hx, -⟩ := walk_snoc_eq_some.mp h
  have hroot : x ≠ M.pml4 := hs.shaped.ne_root (π := [pml4Idx v, pdptIdx v]) le_rfl hx
  have hin : InUse M.fm s.bmap x := (hs.inUse x ⟨_, le_rfl, hx⟩).resolve_left hroot
  exact List.ne_nil_of_mem (mem_of_inUse hin)

lemma mbPages_pos (hM : FramesOk M) {b : BootinfoT} (hb : Standard M b)
    (hno : ∀ e ∈ (initPaging M (initGlobals b) s).2, ¬ RanOut M.fm e) : 0 < b.mbPages := by
  have hc : (b.kStackPaddr, kernelStack - PAGE_SIZE) ∈ bootCalls (initGlobals b) := by
    simp [bootCalls, stackCall, initGlobals]
  have hl := lookup_bootCall (hb.placed hM) hM hno (taken_lt hM hb (wf_memset_pml4 s) hno) hc
    hb.kStackPaddr.1 rfl
  rw [hb.mbPages]
  exact List.length_pos_of_ne_nil (pages_ne_nil (runCalls_ext hM (wf_memset_pml4 s) hno).wf hl)

/-! ### From the one to the other -/

/-- What the bootloader hands over is what the address space of the kernel rests on. -/
lemma standard_bootinfo {A : Allocator F} {pml4 fuel : ℕ} {elf : Elf} {b : Bytes}
    {f : ℕ → MemoryT} {frame : ℕ → ℕ → ℕ} {u : σ} {h : Handoff σ} {fbAddr fbSize : ℕ}
    (hrun : boot F pml4 fuel elf b f frame u = some h)
    (hh : Handed A pml4 elf u h M fbAddr fbSize) (hframes : ∀ a ∈ M.fm.pages, a < 0x1000000000) :
    Standard M (bootinfo elf fbAddr fbSize h) := by
  obtain ⟨-, hst, -, ⟨k, hkernel⟩, -⟩ := bitmap_freemap_granted A hrun
  obtain ⟨hkal, hklt⟩ := hh.grants _ (List.mem_append_right _ hkernel)
  obtain ⟨hsal, hslt⟩ := hh.grants _ (List.mem_append_left _ hst)
  exact ⟨⟨hkal, hklt.trans (by decide)⟩, ⟨hsal, hslt.trans (by decide)⟩, hh.fbAddr, rfl, hh.kSize,
    hh.fbSize, hframes, mbPages_eq hrun hh⟩

lemma handed_small : ∃ h, Bootloader.smallBoot = some h ∧
    Handed smallAllocator 0x180000 smallElf 0 h smallKernel 0x80000000 0x1000 ∧
      bootinfo smallElf 0x80000000 0x1000 h = smallBootinfo := by
  obtain ⟨h, hrun, hn, -, hmb, hst, -⟩ := smallBoot_eq
  have hrun' := hrun
  rw [Bootloader.smallBoot, boot] at hrun'
  obtain ⟨n, hread, henter⟩ := Option.bind_eq_some_iff.mp hrun'
  obtain ⟨rfl, hlate, -⟩ := enterKernel_granted henter
  obtain ⟨k, m, hlog, hfirst, hearly⟩ := readMap_granted hread
  have hinfo : bootinfo smallElf 0x80000000 0x1000 h = smallBootinfo := by
    rw [bootinfo, hst, hmb, mbPages_enterKernel henter, hn]
    decide +kernel
  refine ⟨h, hrun, ⟨⟨by decide, by decide, by decide, by decide⟩, fun g hg => ?_, ?_, ?_, ?_,
    by decide +kernel, by decide, by decide⟩, hinfo⟩
  · rcases List.mem_append.mp hg with hg | hg
    · exact grants_small_low hlate g hg
    · rw [hlog] at hg
      rcases List.mem_cons.mp hg with rfl | hg
      · exact grants_small_low hearly _ List.mem_cons_self
      rcases List.mem_cons.mp hg with rfl | hg
      · exact grants_small_low hearly _ (List.mem_cons_of_mem _ List.mem_cons_self)
      · exact grants_small_low hfirst g hg
  · rw [hn]
    rfl
  · exact ⟨framesOk_smallKernel, fun a ha => (mem_pages_small ha).2.trans (by decide)⟩
  · rw [hn, fmDescs_small.1]
    decide

end FlameOS.Switch
