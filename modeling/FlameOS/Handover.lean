import FlameOS.BootTables

/-!
The frame bitmap and the freemap from the bootloader to the kernel: the bitmap under the page
tables of the bootloader, and both where `init_paging` maps them.

The bootloader and `init_paging` each map one page for the bitmap, and `init_paging` one for
the freemap, whatever their sizes.
-/

namespace FlameOS.Handover

open FlameOS.Word FlameOS.FrameAlloc FlameOS.Trie FlameOS.PageTable FlameOS.MapPage
open FlameOS.MapSpec FlameOS.MapRun FlameOS.Boot FlameOS.AddressSpace FlameOS.MemoryMap
open FlameOS.BootPaging FlameOS.Bootloader FlameOS.BootTables
open FlameOS.HeapTable (kernelHeap kernelStack)

variable {σ : Type} {F : Firmware σ}

/-! ### The tables of the bootloader -/

lemma physaddr_of_lookup {M : Machine} {s : BootState σ} {t : Paging} (hs : Sim s t) {v f : ℕ}
    (h : lookup M t v = some f) : physaddr M.pml4 s v = some (f + v % 4096) := by
  have hnext : next ⟨s.frame, fun _ => 0⟩ = next t := by
    funext x i
    simp only [next, hs.frame]
  have hwalk : walk (next t) M.pml4 (path v) = some f := h
  unfold physaddr
  rw [hnext, hwalk, Option.map_some]

lemma page_ne_low {M : Machine} (hlow : ∀ a ∈ M.fm.pages, a < 0x1000000000) {v : ℕ}
    (hv : 0x1000000000 ≤ v ∧ v < 2 ^ 48) : ∀ a ∈ M.fm.pages, page v ≠ page a := by
  intro a ha
  have hlt := hlow a ha
  unfold page
  omega

lemma calls_aligned {info : MapInfo} {kernel size : ℕ} (hk : kernel % PAGE_SIZE = 0) :
    ∀ c ∈ nonConvCalls info ++ lowCalls ++ Bootloader.kernelCalls kernel size,
      c.2 % PAGE_SIZE = 0 → c.1 % PAGE_SIZE = 0 := by
  intro c hc hv
  simp only [List.mem_append] at hc
  rcases hc with (hc | hc) | hc
  · obtain ⟨m, -, hc⟩ := List.mem_flatMap.mp hc
    split at hc
    · cases hc
    · obtain ⟨j, -, rfl⟩ := List.mem_map.mp hc
      exact hv
  · obtain ⟨i, -, rfl⟩ := List.mem_map.mp hc
    exact hv
  · obtain ⟨i, -, rfl⟩ := List.mem_map.mp hc
    unfold add64 PAGE_SIZE at *
    dsimp only
    omega

/-- The loop ends the number of pages behind the bitmap, so it takes one call. -/
lemma bitmapCalls_one {mbAddr n : ℕ} (hlt : mbAddr < 2 ^ 48) (hpos : 0 < n) (hle : n ≤ PAGE_SIZE) :
    bitmapCalls mbAddr n = [(mbAddr, mbAddr)] := by
  unfold PAGE_SIZE at hle
  have hend : add64 mbAddr n = mbAddr + n := add64_eq (by omega)
  have hnext : add64 mbAddr PAGE_SIZE = mbAddr + 4096 := add64_eq (by unfold PAGE_SIZE; omega)
  rw [bitmapCalls, hend]
  cases n with
  | zero => exact absurd hpos (Nat.lt_irrefl 0)
  | succ n =>
    rw [loopCalls, if_pos (by dsimp only; omega), hnext]
    cases n with
    | zero => rfl
    | succ n => rw [loopCalls, if_neg (by dsimp only; omega)]

lemma enterKernel_steps {pml4 fuel : ℕ} {elf : Elf} {n : Snapshot σ} {h : Handoff σ}
    (hrun : enterKernel F pml4 fuel elf n = some h) (hpos : 0 < h.mbPages)
    (hle : h.mbPages ≤ 2 ^ 27) (hlow : ∀ g ∈ h.state.log, g.addr < 2 ^ 48) :
    ∃ s₁ s₂ s₃ s₄, mapCalls F pml4 fuel
        (nonConvCalls n.info ++ lowCalls ++ Bootloader.kernelCalls n.kernel (kernelMemSize elf))
        ({ n.state with log := [] }.memzero pml4) = some s₁ ∧
      pagealloc F rscodemem (CEILING h.mbPages 32768) s₁ = some (h.mbAddr, s₂) ∧
      mapCalls F pml4 fuel [(h.mbAddr, h.mbAddr)] s₂ = some s₃ ∧
      pagealloc F rsdatamem 1 s₃ = some (h.kStackPaddr, s₄) ∧
      mapCalls F pml4 fuel [(h.kStackPaddr, kernelStack - PAGE_SIZE)] s₄ = some h.state ∧
      ∀ g ∈ h.state.log, 0 < g.pages := by
  obtain ⟨s₁, mb, s₃, st, s₅, h₁, h₂, h₃, h₄, h₅, rfl⟩ := Bootloader.enterKernel_cases hrun
  dsimp only at hpos hle hlow ⊢
  have hsome : 0 < CEILING (countPages n.info) 32768 ∧
      CEILING (countPages n.info) 32768 ≤ PAGE_SIZE := by
    unfold CEILING PAGE_SIZE
    omega
  have h₅' : mapCalls F pml4 fuel [(st.1, kernelStack - PAGE_SIZE)] st.2 = some s₅ := by
    rw [mapCalls, h₅]
    rfl
  have hlog₂ := (pagealloc_eq h₂).1
  have hlog₄ := (pagealloc_eq h₄).1
  -- the log only grows, so the bitmap is still in it
  obtain ⟨l, hl, -⟩ := (granted_mapCalls h₃).trans ((granted_pagealloc h₄).trans
    (granted_mapCalls h₅'))
  have hmb : mb.1 < 2 ^ 48 := by
    refine hlow ⟨mb.1, CEILING (countPages n.info) 32768⟩ ?_
    rw [hl, hlog₂]
    exact List.mem_append_right _ List.mem_cons_self
  rw [bitmapCalls_one hmb hsome.1 hsome.2] at h₃
  refine ⟨s₁, mb.2, s₃, st.2, h₁, h₂, h₃, h₄, h₅', fun g hg => ?_⟩
  rcases pages_mapCalls h₅' g hg with hg | hg
  swap
  · rw [hg]
    exact Nat.one_pos
  rw [hlog₄] at hg
  rcases List.mem_cons.mp hg with rfl | hg
  · exact Nat.one_pos
  rcases pages_mapCalls h₃ g hg with hg | hg
  swap
  · rw [hg]
    exact Nat.one_pos
  rw [hlog₂] at hg
  rcases List.mem_cons.mp hg with rfl | hg
  · exact hsome.1
  rcases pages_mapCalls h₁ g hg with hg | hg
  · exact absurd hg List.not_mem_nil
  · rw [hg]
    exact Nat.one_pos

/-- The first pages of the grants are the frames of a machine, with the first table outside. -/
lemma exists_machine (A : Allocator F) {pml4 : ℕ} {u u' : σ} {log : List Grant}
    (hgrants : Grants F u log u') (h0 : pml4 ≠ 0) (htaken : pml4 ∈ A.taken u)
    (hlow : ∀ g ∈ log, g.addr % PAGE_SIZE = 0 ∧ g.addr < 0x1000000000)
    (hpos : ∀ g ∈ log, 0 < g.pages) :
    ∃ M : Machine, M.pml4 = pml4 ∧ M.fm.pages = granted log ∧ FramesOk M ∧
      ∀ a ∈ granted log, a % PAGE_SIZE = 0 ∧ a < 0x1000000000 := by
  have hmem : ∀ a ∈ granted log, ∃ g ∈ log, g.addr = a := by
    intro a ha
    exact List.mem_map.mp (List.mem_reverse.mp ha)
  have hnot : pml4 ∉ (grantFreemap log).pages := by
    rw [pages_grantFreemap]
    intro ha
    obtain ⟨g, hg, rfl⟩ := hmem _ ha
    refine Set.disjoint_left.mp (A.disjoint _) htaken (((A.grants hgrants).1 g hg).1 ⟨le_refl _, ?_⟩)
    exact Nat.lt_add_of_pos_right (Nat.mul_pos (hpos g hg) (by decide))
  have hal : ∀ a ∈ granted log, a % PAGE_SIZE = 0 ∧ a < 0x1000000000 := by
    intro a ha
    obtain ⟨g, hg, rfl⟩ := hmem a ha
    exact hlow g hg
  refine ⟨⟨pml4, grantFreemap log, h0, hnot⟩, rfl, pages_grantFreemap _, ?_, hal⟩
  exact framesOk_grantFreemap rfl (fun a ha => ⟨(hal a ha).1, (hal a ha).2.trans (by decide)⟩)
    (nodup_granted hpos (A.pairwise hgrants))

/-- The tables `t` that `enterKernel` leaves, after the calls before the bitmap and then those for
the bitmap and the stack, as tables of a machine whose frames are the grants. -/
structure Entered (h : Handoff σ) (calls : List (ℕ × ℕ)) (M : Machine) (t₀ t : Paging) : Prop where
  framesOk : FramesOk M
  low : ∀ a ∈ M.fm.pages, a < 0x1000000000
  wf : Wf M t₀
  enough : ∀ e ∈ (runCalls M calls t₀).2, ¬ RanOut M.fm e
  sim : Sim h.state t
  bitmap : h.mbAddr % PAGE_SIZE = 0 ∧ lookup M t h.mbAddr = some h.mbAddr
  stack : lookup M t (kernelStack - PAGE_SIZE) = some h.kStackPaddr
  others : ∀ v, 0x1000000000 ≤ v ∧ v < 2 ^ 48 → page v ≠ page (kernelStack - PAGE_SIZE) →
    lookup M t v = lookup M (runCalls M calls t₀).1 v

/-- A page that is allocated, and mapped where no new table is: it is found there, and all else
that no new table is numbered like stays where it is. -/
lemma exists_mapped {M : Machine} (hM : FramesOk M) (hlow : ∀ a ∈ M.fm.pages, a < 0x1000000000)
    {type pages fuel p v : ℕ} {s s₁ s₂ : BootState σ} {t : Paging}
    (halloc : pagealloc F type pages s = some (p, s₁))
    (hmap : mapCalls F M.pml4 fuel [(p, v)] s₁ = some s₂) (hpre : granted s₂.log <+: M.fm.pages)
    (hs : Sim s t) (hw : Wf M t)
    (hv : v = p ∨ v % PAGE_SIZE = 0 ∧ 0x1000000000 ≤ v ∧ v < 2 ^ 48) :
    ∃ t', Sim s₂ t' ∧ Wf M t' ∧ p % PAGE_SIZE = 0 ∧ p < 0x1000000000 ∧ InUse M.fm t'.bmap p ∧
      lookup M t' v = some p ∧
      ∀ w, InUse M.fm t.bmap w ∨ 0x1000000000 ≤ w ∧ w < 2 ^ 48 → page w ≠ page v →
        lookup M t' w = lookup M t w := by
  have h48 : ∀ a ∈ M.fm.pages, a < 2 ^ 48 := fun a ha => (hlow a ha).trans (by decide)
  have hpre₁ := (granted_le (granted_mapCalls hmap)).trans hpre
  obtain ⟨t₁, hs₁, hw₁, hl₁, hin₁⟩ : ∃ t₁, Sim s₁ t₁ ∧ Wf M t₁ ∧
      (∀ w, lookup M t₁ w = lookup M t w) ∧
      ∀ a, InUse M.fm t.bmap a → InUse M.fm t₁.bmap a := by
    refine ⟨_, pagealloc_sim halloc hs, wf_insert hw s.log.length, fun _ => rfl, ?_⟩
    rintro a ⟨j, hj, hu⟩
    exact ⟨j, hj, by rw [used_insert, hu, Bool.true_or]⟩
  have hlog : (⟨p, pages⟩ : Grant) ∈ s₁.log := by
    rw [(pagealloc_eq halloc).1]
    exact List.mem_cons_self
  have hin : InUse M.fm t₁.bmap p := hs₁.inUse hpre₁ hlog
  have hplow := hlow p (mem_of_inUse hin)
  have hpal : p % PAGE_SIZE = 0 := (hM.fm.mem_pages (mem_of_inUse hin)).1
  have hcs : ∀ c ∈ [(p, v)], c.2 % PAGE_SIZE = 0 → c.1 % PAGE_SIZE = 0 := by
    intro c hc _
    rw [List.mem_singleton.mp hc]
    exact hpal
  obtain ⟨hs₂, hw₂, hno, hkeep⟩ := mapCalls_wf hM hcs hmap hpre hs₁ hw₁
  -- the new tables are pages below the addresses of the kernel that were not in use
  have htaken : ∀ w, InUse M.fm t₁.bmap w ∨ 0x1000000000 ≤ w ∧ w < 2 ^ 48 →
      ∀ u ∈ taken (runCalls M [(p, v)] t₁).2, page w ≠ page u := by
    rintro w (hw | hw)
    · exact page_ne_taken hM h48 hcs hmap hpre hs₁ hw₁ hw
    · exact fun u hu => page_ne_low hlow hw u ((runCalls_ext hM hw₁ hno).fresh u hu).1
  refine ⟨_, hs₂, hw₂, hpal, hplow, hkeep p hin, ?_, fun w hw hne => ?_⟩
  · obtain ⟨hvirt, hclear⟩ : v % PAGE_SIZE = 0 ∧
        (InUse M.fm t₁.bmap v ∨ 0x1000000000 ≤ v ∧ v < 2 ^ 48) := by
      rcases hv with rfl | ⟨hvirt, hv⟩
      · exact ⟨hpal, Or.inl hin⟩
      · exact ⟨hvirt, Or.inr hv⟩
    have hfound := lookup_runCalls hM hw₁ (htaken v hclear) hno hpal
      (fun c hc _ => by rw [List.mem_singleton.mp hc]; exact ⟨rfl, hvirt⟩)
      (Or.inl ⟨_, List.mem_singleton_self _, rfl⟩)
    rwa [and_mask_of_aligned hpal (hplow.trans (by decide))] at hfound
  · rw [lookup_runCalls_of_ne hM hw₁ (htaken w (hw.imp_left (hin₁ w))) hno, hl₁]
    intro c hc
    rw [List.mem_singleton.mp hc]
    exact hne.symm

lemma enterKernel_tables (A : Allocator F) {pml4 fuel : ℕ} {elf : Elf} {n : Snapshot σ}
    {h : Handoff σ} (hrun : enterKernel F pml4 fuel elf n = some h) (h0 : pml4 ≠ 0)
    (htaken : pml4 ∈ A.taken n.state.fw)
    (hlow : ∀ g ∈ h.state.log, g.addr % PAGE_SIZE = 0 ∧ g.addr < 0x1000000000)
    (hk : n.kernel % PAGE_SIZE = 0) (hpos : 0 < h.mbPages) (hle : h.mbPages ≤ 2 ^ 27) :
    ∃ M t₀ t, M.pml4 = pml4 ∧ Entered h
      (nonConvCalls n.info ++ lowCalls ++ Bootloader.kernelCalls n.kernel (kernelMemSize elf))
      M t₀ t := by
  obtain ⟨-, hgrants, -⟩ := enterKernel_granted hrun
  obtain ⟨s₁, s₂, s₃, s₄, h₁, h₂, h₃, h₄, h₅, hsome⟩ := enterKernel_steps hrun hpos hle
    fun g hg => (hlow g hg).2.trans (by decide)
  obtain ⟨M, rfl, hpages, hM, hal⟩ := exists_machine A hgrants h0 htaken hlow hsome
  have hframes : ∀ a ∈ M.fm.pages, a < 0x1000000000 := fun a ha => (hal a (hpages ▸ ha)).2
  -- the log is a part of the freemap all the time
  have p₅ : granted h.state.log <+: M.fm.pages := hpages ▸ List.prefix_rfl
  have p₃ := (granted_le ((granted_pagealloc h₄).trans (granted_mapCalls h₅))).trans p₅
  have p₁ := (granted_le ((granted_pagealloc h₂).trans (granted_mapCalls h₃))).trans p₃
  have hs₀ : Sim ({ n.state with log := [] }.memzero M.pml4)
      (Paging.memset ⟨n.state.frame, fun _ => 0⟩ M.pml4) :=
    ⟨rfl, fun j => by simp [used, BootState.memzero]⟩
  obtain ⟨hs₁, hw₁, hno₁, -⟩ := mapCalls_wf hM (calls_aligned hk) h₁ p₁ hs₀ (wf_memset_pml4 _)
  -- the bitmap, and then the stack, which leaves all but its page alone
  obtain ⟨t₃, hs₃, hw₃, hmbal, hmblt, hin₃, hmb, hothers₃⟩ :=
    exists_mapped hM hframes h₂ h₃ p₃ hs₁ hw₁ (Or.inl rfl)
  obtain ⟨t₅, hs₅, -, -, -, -, hstack, hothers₅⟩ :=
    exists_mapped hM hframes h₄ h₅ p₅ hs₃ hw₃ (Or.inr (by decide))
  refine ⟨M, _, t₅, rfl, hM, hframes, wf_memset_pml4 _, hno₁, hs₅, ⟨hmbal, ?_⟩, hstack,
    fun v hv hne => ?_⟩
  · rw [hothers₅ h.mbAddr (Or.inl hin₃), hmb]
    unfold page kernelStack PAGE_SIZE
    omega
  · rw [hothers₅ v (Or.inr hv) hne, hothers₃ v (Or.inr hv)]
    unfold page
    omega

/-- A bitmap of at most one page is identity mapped when the kernel is entered. -/
lemma bitmap_mapped (A : Allocator F) {pml4 fuel : ℕ} {elf : Elf} {n : Snapshot σ}
    {h : Handoff σ} (hrun : enterKernel F pml4 fuel elf n = some h) (h0 : pml4 ≠ 0)
    (htaken : pml4 ∈ A.taken n.state.fw)
    (hlow : ∀ g ∈ h.state.log, g.addr % PAGE_SIZE = 0 ∧ g.addr < 0x1000000000)
    (hk : n.kernel % PAGE_SIZE = 0) (hpos : 0 < h.mbPages) (hle : h.mbPages ≤ 32768) {o : ℕ}
    (ho : o < 4096) : physaddr pml4 h.state (h.mbAddr + o) = some (h.mbAddr + o) := by
  obtain ⟨M, t₀, t, rfl, ht⟩ := enterKernel_tables A hrun h0 htaken hlow hk hpos
    (hle.trans (by decide))
  obtain ⟨hmbal, hl⟩ := ht.bitmap
  have hpage : page (h.mbAddr + o) = page h.mbAddr := by
    unfold page PAGE_SIZE at *
    omega
  have hoff : (h.mbAddr + o) % 4096 = o := by
    unfold PAGE_SIZE at hmbal
    omega
  rw [physaddr_of_lookup ht.sim ((lookup_congr hpage).trans hl), hoff]

/-! ### The tables of the kernel -/

def bootinfo (elf : Elf) (fbAddr fbSize : ℕ) (h : Handoff σ) : BootinfoT where
  memmap := h.snapshot.memmap
  mmDescs := h.snapshot.info.mmDescs
  freemap := h.snapshot.freemap
  fmDescs := h.snapshot.info.fmDescs
  kPaddr := h.snapshot.kernel
  kVaddr := Bootloader.kernelVaddr
  kSize := kernelMemSize elf
  kStackPaddr := h.kStackPaddr
  mbAddr := h.mbAddr
  mbPages := h.mbPages
  fbAddr := fbAddr
  fbSize := fbSize

def freemapOf (info : MapInfo) : Freemap := ⟨info.freemap, info.fmDescs, info.mmDescs⟩

lemma length_pages (info : MapInfo) : (freemapOf info).pages.length =
    ((List.range info.fmDescs).map fun i => (info.freemap i).blocks).sum := by
  simp only [Freemap.pages, Freemap.regions, List.length_flatMap, List.map_map, freemapOf]
  congr 1
  refine List.map_congr_left fun i _ => ?_
  simp [regionPages]

lemma countPages_eq {info : MapInfo} (h : (freemapOf info).pages.length < 2 ^ 64) :
    countPages info = (freemapOf info).pages.length := by
  have hfold : ∀ (l : List ℕ) (x : ℕ), x + l.sum < 2 ^ 64 → l.foldl add64 x = x + l.sum := by
    intro l
    induction l with
    | nil => exact fun x _ => rfl
    | cons y l ih =>
      intro x hx
      rw [List.sum_cons] at hx ⊢
      rw [List.foldl_cons, add64_eq (by omega), ih _ (by omega), Nat.add_assoc]
  rw [length_pages] at h ⊢
  rw [countPages, hfold _ _ (by rw [Nat.zero_add]; exact h), Nat.zero_add]

/-- What the firmware and the kernel's image promise: pages of the firmware are aligned and lie
below the kernel's addresses, `PML4` is not free memory, and the rest is within its bounds. -/
structure Handed (A : Allocator F) (pml4 : ℕ) (elf : Elf) (u : σ) (h : Handoff σ) (M : Machine)
    (fbAddr fbSize : ℕ) : Prop where
  pml4 : pml4 ≠ 0 ∧ pml4 ∈ A.taken u
  grants : ∀ g ∈ h.state.log ++ h.snapshot.state.log,
    g.addr % PAGE_SIZE = 0 ∧ g.addr < 0x1000000000
  fm : M.fm = freemapOf h.snapshot.info
  frames : FramesOk M ∧ ∀ a ∈ M.fm.pages, a < 2 ^ 48
  fmDescs : 16 * h.snapshot.info.fmDescs ≤ 2 ^ 48
  kSize : kernelMemSize elf ≤ kernelHeap - Bootloader.kernelVaddr
  fbAddr : fbAddr % PAGE_SIZE = 0 ∧ fbAddr < 2 ^ 48
  fbSize : fbSize ≤ 2 ^ 39

/-- The bytes of the bitmap that hold the bit of a page of the freemap, and those of the entries
of the freemap, are mapped where the bootloader and the kernel look for them. -/
structure WholeMapped (pml4 : ℕ) (h : Handoff σ) (M : Machine) (t : Paging) : Prop where
  boot : ∀ k < M.fm.pages.length,
    physaddr pml4 h.state (h.mbAddr + k / 8) = some (h.mbAddr + k / 8)
  bitmap : ∀ k < M.fm.pages.length,
    findPhysaddr M t (kernelHeap + PAGE_SIZE + k / 8) = h.mbAddr + k / 8
  freemap : ∀ o < 16 * h.snapshot.info.fmDescs,
    findPhysaddr M t (kernelHeap + o) = h.snapshot.freemap + o

lemma bitmap_freemap_granted (A : Allocator F) {pml4 fuel : ℕ} {elf : Elf} {b : Bytes}
    {f : ℕ → MemoryT} {frame : ℕ → ℕ → ℕ} {u : σ} {h : Handoff σ}
    (hrun : boot F pml4 fuel elf b f frame u = some h) :
    ⟨h.mbAddr, CEILING h.mbPages 32768⟩ ∈ h.state.log ∧ ⟨h.kStackPaddr, 1⟩ ∈ h.state.log ∧
      ⟨h.snapshot.freemap, CEILING (h.snapshot.info.fmDescs * 16) PAGE_SIZE⟩ ∈
        h.snapshot.state.log ∧ (∃ k, ⟨h.snapshot.kernel, k⟩ ∈ h.snapshot.state.log) ∧
      Disjoint (grantBytes ⟨h.mbAddr, CEILING h.mbPages 32768⟩)
        (grantBytes ⟨h.snapshot.freemap, CEILING (h.snapshot.info.fmDescs * 16) PAGE_SIZE⟩) := by
  obtain ⟨n, hread, hrun⟩ := Option.bind_eq_some_iff.mp hrun
  obtain ⟨rfl, hg, hmb, hst⟩ := enterKernel_granted hrun
  obtain ⟨k, m, hlog, -, -⟩ := readMap_granted hread
  have hfm : ⟨h.snapshot.freemap, CEILING (h.snapshot.info.fmDescs * 16) PAGE_SIZE⟩ ∈
      h.snapshot.state.log := by
    rw [hlog]
    exact List.mem_cons_self
  have hkernel : ⟨h.snapshot.kernel, k⟩ ∈ h.snapshot.state.log := by
    rw [hlog]
    exact List.mem_cons_of_mem _ List.mem_cons_self
  refine ⟨hmb, hst, hfm, ⟨k, hkernel⟩, ?_⟩
  exact ((A.disjoint _).mono ((A.readMap hread).1 _ hfm) ((A.grants hg).1 _ hmb).1).symm

section handed

variable {A : Allocator F} {pml4 fuel : ℕ} {elf : Elf} {b : Bytes} {f : ℕ → MemoryT}
  {frame : ℕ → ℕ → ℕ} {u : σ} {h : Handoff σ} {M : Machine} {fbAddr fbSize : ℕ}
  (hrun : boot F pml4 fuel elf b f frame u = some h)
  (hh : Handed A pml4 elf u h M fbAddr fbSize)

include hrun hh

lemma mbPages_eq : h.mbPages = M.fm.pages.length := by
  have hle : M.fm.pages.length ≤ 2 ^ 36 := length_pages_le hh.frames.1 hh.frames.2
  rw [hh.fm] at hle ⊢
  obtain ⟨n, -, hrun⟩ := Option.bind_eq_some_iff.mp hrun
  obtain ⟨rfl, -⟩ := enterKernel_granted hrun
  rw [← countPages_eq (by omega), mbPages_enterKernel hrun]

/-- The loop of `init_paging` for the bitmap makes at most one turn. -/
lemma mem_bmapCalls {c : ℕ × ℕ} :
    c ∈ bmapCalls (initGlobals (bootinfo elf fbAddr fbSize h)) ↔
      0 < h.mbPages ∧ c = (h.mbAddr, kernelHeap + PAGE_SIZE) := by
  have hle : M.fm.pages.length ≤ 2 ^ 36 := length_pages_le hh.frames.1 hh.frames.2
  rw [← mbPages_eq hrun hh] at hle
  have hmb := (hh.grants _ (List.mem_append_left _ (bitmap_freemap_granted A hrun).1)).2
  obtain ⟨n, hn⟩ : ∃ n, CEILING h.mbPages (8 * 4096 * 4096) = n := ⟨_, rfl⟩
  have hbound : n ≤ 512 ∧ (0 < n ↔ 0 < h.mbPages) := by
    unfold CEILING at hn
    omega
  have hcalls : bmapCalls (initGlobals (bootinfo elf fbAddr fbSize h)) =
      loopCalls Prod.fst (add64 h.mbAddr n) n h.mbAddr (kernelHeap + PAGE_SIZE) := by
    rw [← hn]
    rfl
  dsimp only at hmb
  have hmem := @mem_loopCalls Prod.fst (h.mbAddr + n) n h.mbAddr (kernelHeap + PAGE_SIZE) c
    (fun _ _ _ => rfl) le_rfl (by unfold PAGE_SIZE; dsimp only; omega)
    (by unfold PAGE_SIZE kernelHeap; dsimp only; omega)
  rw [hcalls, add64_eq (by omega), hmem]
  constructor
  · rintro ⟨i, hi, rfl⟩
    unfold PAGE_SIZE at hi
    dsimp only at hi
    obtain rfl : i = 0 := by omega
    exact ⟨by omega, by simp⟩
  · rintro ⟨hpos, rfl⟩
    exact ⟨0, by dsimp only; omega, by simp⟩

lemma placed_bootinfo : Placed (bootinfo elf fbAddr fbSize h) := by
  obtain ⟨-, -, -, ⟨k, hk⟩, -⟩ := bitmap_freemap_granted A hrun
  obtain ⟨hal, hlt⟩ := hh.grants _ (List.mem_append_right _ hk)
  refine ⟨⟨hal, hlt.trans (by decide)⟩, hh.fbAddr, rfl, hh.kSize, hh.fbSize, fun c hc => ?_⟩
  exact ((mem_bmapCalls hrun hh).mp hc).2

/-- Beyond the first page of the bitmap nothing is named, and without a bitmap not even that. -/
lemma page_unnamed {c : ℕ × ℕ} (hc : c ∈ bootCalls (initGlobals (bootinfo elf fbAddr fbSize h)))
    {v : ℕ} (hv : v = kernelHeap + PAGE_SIZE ∧ h.mbPages = 0 ∨ v = kernelHeap + 2 * PAGE_SIZE) :
    page c.2 ≠ page v := by
  have hsize := hh.kSize
  have hfb := hh.fbSize
  unfold kernelHeap Bootloader.kernelVaddr at hsize
  have hk : (bootinfo elf fbAddr fbSize h).kSize = kernelMemSize elf := rfl
  have hf : (bootinfo elf fbAddr fbSize h).fbSize = fbSize := rfl
  unfold page
  rcases mem_bootCalls (placed_bootinfo hrun hh) hc with
    ⟨i, hi, rfl⟩ | rfl | ⟨i, hi, rfl⟩ | hc | rfl
  · unfold kernelHeap PAGE_SIZE at *
    dsimp only
    omega
  · unfold kernelHeap kernelStack PAGE_SIZE at *
    dsimp only
    omega
  · unfold kernelHeap PAGE_SIZE at *
    dsimp only
    omega
  · obtain ⟨hpos, rfl⟩ := (mem_bmapCalls hrun hh).mp hc
    unfold kernelHeap PAGE_SIZE at *
    dsimp only
    omega
  · unfold kernelHeap PAGE_SIZE at *
    dsimp only
    omega

variable {s : Paging}
  (hno : ∀ e ∈ (initPaging M (initGlobals (bootinfo elf fbAddr fbSize h)) s).2, ¬ RanOut M.fm e)
  (htk : ∀ t ∈ taken (initPaging M (initGlobals (bootinfo elf fbAddr fbSize h)) s).2,
    t < 0x1000000000)

include hno htk

lemma find_own {o : ℕ} (ho : o < 4096) :
    findPhysaddr M (initPaging M (initGlobals (bootinfo elf fbAddr fbSize h)) s).1
        (kernelHeap + o) = h.snapshot.freemap + o ∧
      (0 < h.mbPages →
        findPhysaddr M (initPaging M (initGlobals (bootinfo elf fbAddr fbSize h)) s).1
          (kernelHeap + PAGE_SIZE + o) = h.mbAddr + o) := by
  have hp := placed_bootinfo hrun hh
  obtain ⟨hmb, -, hfm, -, -⟩ := bitmap_freemap_granted A hrun
  obtain ⟨hmbal, hmblt⟩ := hh.grants _ (List.mem_append_left _ hmb)
  obtain ⟨hfmal, hfmlt⟩ := hh.grants _ (List.mem_append_right _ hfm)
  dsimp only at hmbal hmblt hfmal hfmlt
  constructor
  · have hc : (h.snapshot.freemap, kernelHeap) ∈
        bootCalls (initGlobals (bootinfo elf fbAddr fbSize h)) :=
      List.mem_append_right _ (List.mem_singleton_self _)
    rw [find_bootCall hp hh.frames.1 hno htk hc hfmal (hfmlt.trans (by decide))
      (by unfold kernelHeap; omega)]
    unfold kernelHeap
    dsimp only
    omega
  · intro hpos
    have hc : (h.mbAddr, kernelHeap + PAGE_SIZE) ∈
        bootCalls (initGlobals (bootinfo elf fbAddr fbSize h)) :=
      List.mem_append_left _ (List.mem_append_right _ ((mem_bmapCalls hrun hh).mpr ⟨hpos, rfl⟩))
    rw [find_bootCall hp hh.frames.1 hno htk hc hmbal (hmblt.trans (by decide))
      (by unfold kernelHeap PAGE_SIZE; omega)]
    unfold kernelHeap PAGE_SIZE
    dsimp only
    omega

lemma find_behind :
    findPhysaddr M (initPaging M (initGlobals (bootinfo elf fbAddr fbSize h)) s).1
        (kernelHeap + 2 * PAGE_SIZE) = 0 ∧
      (h.mbPages = 0 →
        findPhysaddr M (initPaging M (initGlobals (bootinfo elf fbAddr fbSize h)) s).1
          (kernelHeap + PAGE_SIZE) = 0) := by
  constructor
  · refine find_unnamed hh.frames.1 hno htk (by decide) fun c hc => ?_
    exact page_unnamed hrun hh hc (Or.inr rfl)
  · intro h0
    refine find_unnamed hh.frames.1 hno htk (by decide) fun c hc => ?_
    exact page_unnamed hrun hh hc (Or.inl ⟨rfl, h0⟩)

end handed

/-- **The bitmap and the freemap at the handover.** For a kernel that `init_paging` finds the
frames for, all of the bitmap and of the freemap is mapped exactly if each fits into one page:
the bootloader and `init_paging` map one page of the bitmap, because they take a number of
pages for a number of bytes, and `init_paging` one page of the freemap. -/
theorem wholeMapped_iff (F : Firmware σ) (A : Allocator F) (pml4 fuel : ℕ) (elf : Elf) (b : Bytes)
    (f : ℕ → MemoryT) (frame : ℕ → ℕ → ℕ) (u : σ) (h : Handoff σ)
    (hrun : boot F pml4 fuel elf b f frame u = some h) (M : Machine) (fbAddr fbSize : ℕ)
    (hh : Handed A pml4 elf u h M fbAddr fbSize) (s : Paging)
    (hno : ∀ e ∈ (initPaging M (initGlobals (bootinfo elf fbAddr fbSize h)) s).2, ¬ RanOut M.fm e)
    (htk : ∀ t ∈ taken (initPaging M (initGlobals (bootinfo elf fbAddr fbSize h)) s).2,
      t < 0x1000000000) :
    WholeMapped pml4 h M (initPaging M (initGlobals (bootinfo elf fbAddr fbSize h)) s).1 ↔
      h.mbPages ≤ 32768 ∧ h.snapshot.info.fmDescs ≤ 256 := by
  have hpages := mbPages_eq hrun hh
  have hle : M.fm.pages.length ≤ 2 ^ 36 := length_pages_le hh.frames.1 hh.frames.2
  obtain ⟨-, -, -, ⟨k, hkernel⟩, hdis⟩ := bitmap_freemap_granted A hrun
  obtain ⟨hbehind, hnone⟩ := find_behind hrun hh hno htk
  constructor
  · rintro ⟨-, hbitmap, hfreemap⟩
    constructor
    · by_contra hlt
      have h0 := hbitmap 32768 (by omega)
      have haddr : kernelHeap + PAGE_SIZE + 32768 / 8 = kernelHeap + 2 * PAGE_SIZE := by decide
      rw [haddr, hbehind] at h0
      omega
    · by_contra hlt
      have h0 := hfreemap 4096 (by omega)
      rcases Nat.eq_zero_or_pos h.mbPages with hz | hpos
      · rw [show kernelHeap + 4096 = kernelHeap + PAGE_SIZE from rfl, hnone hz] at h0
        omega
      · -- the page of the bitmap is there instead, and it is another one
        have hbm := (find_own hrun hh hno htk (Nat.zero_lt_succ 4095)).2 hpos
        rw [Nat.add_zero] at hbm
        rw [show kernelHeap + 4096 = kernelHeap + PAGE_SIZE from rfl, hbm,
          Nat.add_zero] at h0
        have hdescs := hh.fmDescs
        have hin : h.mbAddr ∈ grantBytes ⟨h.mbAddr, CEILING h.mbPages 32768⟩ := by
          refine ⟨le_rfl, ?_⟩
          unfold CEILING PAGE_SIZE
          dsimp only
          omega
        have hin' : h.mbAddr ∈ grantBytes ⟨h.snapshot.freemap,
            CEILING (h.snapshot.info.fmDescs * 16) PAGE_SIZE⟩ := by
          rw [h0]
          refine ⟨Nat.le_add_right _ _, ?_⟩
          unfold CEILING PAGE_SIZE
          dsimp only
          omega
        exact Set.disjoint_left.mp hdis hin hin'
  · rintro ⟨hbits, hdescs⟩
    refine ⟨fun k hk => ?_, fun k hk => ?_, fun o ho => ?_⟩
    · obtain ⟨n, hread, henter⟩ := Option.bind_eq_some_iff.mp hrun
      obtain ⟨rfl, -⟩ := enterKernel_granted henter
      exact bitmap_mapped A henter hh.pml4.1 ((A.readMap hread).2 hh.pml4.2)
        (fun g hg => hh.grants g (List.mem_append_left _ hg))
        (hh.grants _ (List.mem_append_right _ hkernel)).1 (by omega) hbits (by omega)
    · exact (find_own hrun hh hno htk (by omega)).2 (by omega)
    · exact (find_own hrun hh hno htk (by omega)).1

/-! ### The small machine -/

lemma regions_small : (freemapOf smallSnapshot.info).regions 1 = [⟨0x203000, 61⟩] := by
  decide +kernel

lemma fmDescs_small : smallSnapshot.info.fmDescs = 1 ∧ smallSnapshot.info.mmDescs = 1 := by
  decide +kernel

lemma pages_small : (freemapOf smallSnapshot.info).pages = pagesFrom 61 0x203000 := by
  have hfm : (freemapOf smallSnapshot.info).fmDescs = 1 := fmDescs_small.1
  rw [Freemap.pages, hfm, regions_small]
  exact List.append_nil _

lemma mem_pages_small {a : ℕ} (ha : a ∈ (freemapOf smallSnapshot.info).pages) :
    0x203000 ≤ a ∧ a < 0x240000 := by
  rw [pages_small, mem_pagesFrom (by unfold PAGE_SIZE; omega)] at ha
  obtain ⟨j, hj, rfl⟩ := ha
  unfold PAGE_SIZE
  omega

lemma pml4_ne_zero_small : 0x201000 ≠ 0 := Nat.succ_ne_zero _

lemma pml4_notMem_small : 0x201000 ∉ (freemapOf smallSnapshot.info).pages := fun h =>
  absurd (mem_pages_small h).1 (by decide)

def smallKernel : Machine where
  pml4 := 0x201000
  fm := freemapOf smallSnapshot.info
  pml4_ne_zero := pml4_ne_zero_small
  pml4_notMem := pml4_notMem_small

lemma framesOk_smallKernel : FramesOk smallKernel := by
  have hfm : smallKernel.fm.fmDescs = 1 := fmDescs_small.1
  have hreg : smallKernel.fm.regions 1 = [⟨0x203000, 61⟩] := regions_small
  refine ⟨⟨?_, ?_, ?_, ?_⟩, fun a ha => (mem_pages_small ha).2.trans (by decide)⟩
  · rw [hfm, hreg]
    decide
  · rw [hfm, hreg]
    unfold PAGE_SIZE
    decide
  · rw [hfm, hreg]
    exact List.pairwise_singleton _ _
  · exact fmDescs_small.1.trans_le fmDescs_small.2.ge

lemma grants_small_low {u u' : ℕ} {gs : List Grant} (h : Grants smallFirmware u gs u') :
    ∀ g ∈ gs, g.addr % PAGE_SIZE = 0 ∧ g.addr < 0x1000000000 := by
  induction h with
  | nil => exact fun g hg => absurd hg List.not_mem_nil
  | cons _ hg ih =>
    intro g' hg'
    rcases List.mem_cons.mp hg' with rfl | hg'
    · obtain ⟨hle, ha, -⟩ := pagealloc_small hg
      unfold PAGE_SIZE at *
      omega
    · exact ih g' hg'

def smallBootinfo : BootinfoT where
  memmap := 0x200000
  mmDescs := 1
  freemap := 0x202000
  fmDescs := 1
  kPaddr := 0x201000
  kVaddr := 0x1000000000
  kSize := 0x1000
  kStackPaddr := 0x210000
  mbAddr := 0x20F000
  mbPages := 61
  fbAddr := 0x80000000
  fbSize := 0x1000

theorem wholeMapped_iff_small : ∃ h, Bootloader.smallBoot = some h ∧
    (WholeMapped 0x180000 h smallKernel (initPaging smallKernel
      (initGlobals (bootinfo smallElf 0x80000000 0x1000 h)) zeroed).1 ↔
        h.mbPages ≤ 32768 ∧ h.snapshot.info.fmDescs ≤ 256) := by
  obtain ⟨h, hrun, hn, -, hmb, hst, -⟩ := smallBoot_eq
  have hrun' := hrun
  rw [Bootloader.smallBoot, boot] at hrun'
  obtain ⟨n, hread, henter⟩ := Option.bind_eq_some_iff.mp hrun'
  obtain ⟨rfl, hlate, -⟩ := enterKernel_granted henter
  obtain ⟨k, m, hlog, hfirst, hearly⟩ := readMap_granted hread
  have hinfo : bootinfo smallElf 0x80000000 0x1000 h = smallBootinfo := by
    rw [bootinfo, hst, hmb, mbPages_enterKernel henter, hn]
    decide +kernel
  refine ⟨h, hrun, wholeMapped_iff smallFirmware smallAllocator 0x180000 8 smallElf _ _ _ 0 h hrun
    smallKernel 0x80000000 0x1000 ⟨⟨by decide, by decide, by decide, by decide⟩, ?_, ?_, ?_, ?_,
      by decide +kernel, by decide, by decide⟩ zeroed ?_ ?_⟩
  · intro g hg
    rcases List.mem_append.mp hg with hg | hg
    · exact grants_small_low hlate g hg
    · rw [hlog] at hg
      rcases List.mem_cons.mp hg with rfl | hg
      · exact grants_small_low hearly _ List.mem_cons_self
      rcases List.mem_cons.mp hg with rfl | hg
      · exact grants_small_low hearly _ (List.mem_cons_of_mem _ List.mem_cons_self)
      · exact grants_small_low hfirst g hg
  · rw [hn]
    rfl
  · exact ⟨framesOk_smallKernel, fun a ha => (mem_pages_small ha).2.trans (by decide)⟩
  · rw [hn, fmDescs_small.1]
    decide
  · rw [hinfo]
    decide +kernel
  · rw [hinfo]
    decide +kernel

def scattered : Freemap := ⟨fun i => ⟨0x300000 + i * 0x2000, 1⟩, 257, 257⟩

lemma pml4_notMem_scattered : 0x201000 ∉ scattered.pages := by
  decide +kernel

def scatteredKernel : Machine := ⟨0x201000, scattered, pml4_ne_zero_small, pml4_notMem_scattered⟩

lemma disjoint_scattered : (scattered.regions scattered.fmDescs).Pairwise
    fun r r' => ∀ a ∈ regionPages r, a ∉ regionPages r' := by
  refine List.pairwise_map.mpr (List.pairwise_lt_range.imp fun {i j} hij a ha ha' => ?_)
  have hi : a = 0x300000 + i * 0x2000 := List.mem_singleton.mp ha
  have hj : a = 0x300000 + j * 0x2000 := List.mem_singleton.mp ha'
  omega

/-- Byte 4096 of the freemap is not where the kernel reads it: the bitmap is. -/
theorem not_wholeMapped :
    let b := { smallBootinfo with mmDescs := 257, fmDescs := 257, mbPages := 257 }
    let r := initPaging scatteredKernel (initGlobals b) zeroed
    FramesOk scatteredKernel ∧ Standard scatteredKernel b ∧ (∀ e ∈ r.2, ¬ RanOut scattered e) ∧
      findPhysaddr scatteredKernel r.1 (kernelHeap + 4096) = b.mbAddr ∧
      ¬ ∀ o < 16 * b.fmDescs, findPhysaddr scatteredKernel r.1 (kernelHeap + o) = b.freemap + o := by
  have hfind : findPhysaddr scatteredKernel (initPaging scatteredKernel (initGlobals
      { smallBootinfo with mmDescs := 257, fmDescs := 257, mbPages := 257 }) zeroed).1
      (kernelHeap + 4096) = 0x20F000 := by decide +kernel
  refine ⟨⟨⟨by decide +kernel, by decide +kernel, disjoint_scattered, le_rfl⟩, by decide +kernel⟩,
    ⟨by decide, by decide, by decide, rfl, by decide, by decide, by decide +kernel,
      by decide +kernel⟩, by decide +kernel, hfind, fun hall => ?_⟩
  have h0 := hall 4096 (by decide)
  rw [hfind] at h0
  exact absurd h0 (by decide)

end FlameOS.Handover
