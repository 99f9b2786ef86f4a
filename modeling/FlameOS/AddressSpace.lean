import FlameOS.Boot

/-!
The address space that `init_paging` builds: the kernel, its stack and the framebuffer,
where the loops of `init_paging` put them. Each page keeps the frame of the last call that
named it, as long as no page table is numbered like it.
-/

namespace FlameOS.AddressSpace

open FlameOS.Word FlameOS.FrameAlloc FlameOS.PageTable FlameOS.MapPage FlameOS.MapSpec
open FlameOS.MapRun FlameOS.Boot
open FlameOS.HeapTable (kernelHeap kernelStack)

/-! ### What the bootloader hands over -/

/-- `bootinfo_t`, as far as the kernel's memory is concerned. -/
structure BootinfoT where
  memmap : ℕ
  mmDescs : ℕ
  freemap : ℕ
  fmDescs : ℕ
  kPaddr : ℕ
  kVaddr : ℕ
  kSize : ℕ
  kStackPaddr : ℕ
  mbAddr : ℕ
  mbPages : ℕ
  fbAddr : ℕ
  fbSize : ℕ
  deriving DecidableEq

def initGlobals (b : BootinfoT) : BootInfo where
  kernelPaddr := b.kPaddr
  kernelVaddr := b.kVaddr
  kernelSize := b.kSize
  kernelStackPaddr := b.kStackPaddr
  fbAddr := b.fbAddr
  fbSize := b.fbSize
  pmemBmap := b.mbAddr
  pmemBmapPages := CEILING b.mbPages (8 * 4096 * 4096)
  freemap := b.freemap

/-- The argument of `load_pml4`, where `pml4` is linked at the address `virt`. -/
def loadedPml4 (M : Machine) (b : BootinfoT) (virt : ℕ) (s : Paging) : ℕ :=
  findPhysaddr M (initPaging M (initGlobals b) s).1 virt

/-! ### Runs of calls -/

variable {M : Machine} {s : Paging} {v phys virt : ℕ}

/-- A call changes no page but its own, apart from those numbered like a new table. -/
lemma lookup_mapPage (hM : FramesOk M) (hs : Wf M s)
    (hv : ∀ t ∈ taken (mapPage M phys virt s).2, page v ≠ page t)
    (hno : ∀ e ∈ (mapPage M phys virt s).2, ¬ RanOut M.fm e) (hne : page virt ≠ page v) :
    lookup M (mapPage M phys virt s).1 v = lookup M s v := by
  by_cases hal : phys % PAGE_SIZE ≠ 0 ∨ virt % PAGE_SIZE ≠ 0
  · rw [mapPage_unaligned hal]
  · have hm := mapPage_mapped hM hs (by omega) (by omega) hno
    rcases hm.lookups v hne.symm with hl | ⟨t, ht, hp, -⟩
    · exact hl
    · exact absurd hp (hv t ht)

/-- If all the calls that name a page are aligned and agree on its frame, a page that was
mapped to that frame or is named by a call ends up mapped to it. -/
lemma lookup_runCalls (hM : FramesOk M) (hs : Wf M s) {calls : List (ℕ × ℕ)}
    (hv : ∀ t ∈ taken (runCalls M calls s).2, page v ≠ page t)
    (hno : ∀ e ∈ (runCalls M calls s).2, ¬ RanOut M.fm e)
    (hphys : phys % PAGE_SIZE = 0)
    (hsame : ∀ c ∈ calls, page c.2 = page v → c.1 = phys ∧ c.2 % PAGE_SIZE = 0)
    (hmap : (∃ c ∈ calls, page c.2 = page v) ∨ lookup M s v = some (phys &&& ADDR_MASK)) :
    lookup M (runCalls M calls s).1 v = some (phys &&& ADDR_MASK) := by
  induction calls generalizing s with
  | nil =>
    rcases hmap with ⟨c, hc, -⟩ | h
    · cases hc
    · exact h
  | cons c cs ih =>
    obtain ⟨p, w⟩ := c
    simp only [runCalls, taken_append, List.forall_mem_append] at hno hv ⊢
    obtain ⟨hno₁, hno₂⟩ := hno
    obtain ⟨hv₁, hv₂⟩ := hv
    refine ih (mapPage_ext hM hs hno₁).wf hv₂ hno₂
      (fun d hd => hsame d (List.mem_cons_of_mem _ hd)) ?_
    by_cases hw : page w = page v
    · obtain ⟨rfl, hal⟩ := hsame (p, w) List.mem_cons_self hw
      refine Or.inr ?_
      rw [← lookup_congr hw]
      exact (mapPage_mapped hM hs hphys hal hno₁).self
    · rcases hmap with ⟨d, hd, hdv⟩ | h
      · rcases List.mem_cons.mp hd with rfl | hd
        · exact absurd hdv hw
        · exact Or.inl ⟨d, hd, hdv⟩
      · exact Or.inr ((lookup_mapPage hM hs hv₁ hno₁ hw).trans h)

lemma lookup_runCalls_of_ne (hM : FramesOk M) (hs : Wf M s) {calls : List (ℕ × ℕ)}
    (hv : ∀ t ∈ taken (runCalls M calls s).2, page v ≠ page t)
    (hno : ∀ e ∈ (runCalls M calls s).2, ¬ RanOut M.fm e)
    (hne : ∀ c ∈ calls, page c.2 ≠ page v) :
    lookup M (runCalls M calls s).1 v = lookup M s v := by
  induction calls generalizing s with
  | nil => rfl
  | cons c cs ih =>
    obtain ⟨p, w⟩ := c
    simp only [runCalls, taken_append, List.forall_mem_append] at hno hv ⊢
    obtain ⟨hno₁, hno₂⟩ := hno
    obtain ⟨hv₁, hv₂⟩ := hv
    rw [ih (mapPage_ext hM hs hno₁).wf hv₂ hno₂ fun d hd => hne d (List.mem_cons_of_mem _ hd)]
    exact lookup_mapPage hM hs hv₁ hno₁ (hne (p, w) List.mem_cons_self)

/-- With `pml4` cleared there are no tables. -/
lemma wf_memset_pml4 (s : Paging) : Wf M (s.memset M.pml4) :=
  wf_of_clear fun i => by rw [frame_memset, if_pos rfl]

/-! ### The loops -/

lemma mem_loopCalls {which : ℕ × ℕ → ℕ} {lim n addr1 addr2 : ℕ} {c : ℕ × ℕ}
    (hw : ∀ a b k, which (a + k, b + k) = which (a, b) + k)
    (hn : lim ≤ which (addr1, addr2) + n)
    (h₁ : addr1 + lim + PAGE_SIZE ≤ 2 ^ 64 + which (addr1, addr2))
    (h₂ : addr2 + lim + PAGE_SIZE ≤ 2 ^ 64 + which (addr1, addr2)) :
    c ∈ loopCalls which lim n addr1 addr2 ↔
      ∃ i, which (addr1, addr2) + i * PAGE_SIZE < lim ∧
        c = (addr1 + i * PAGE_SIZE, addr2 + i * PAGE_SIZE) := by
  induction n generalizing addr1 addr2 with
  | zero =>
    simp only [loopCalls, List.not_mem_nil, false_iff, not_exists]
    rintro i ⟨hi, -⟩
    omega
  | succ n ih =>
    rw [loopCalls]
    by_cases hlt : which (addr1, addr2) < lim
    · have hstep := hw addr1 addr2 PAGE_SIZE
      rw [if_pos hlt, List.mem_cons, add64_eq (by omega), add64_eq (by omega),
        ih (by rw [hstep]; unfold PAGE_SIZE; omega) (by omega) (by omega), hstep]
      constructor
      · rintro (rfl | ⟨i, hi, rfl⟩)
        · exact ⟨0, by omega, by simp⟩
        · exact ⟨i + 1, by rw [Nat.succ_mul]; omega, by simp only [Nat.succ_mul]; congr 1 <;> omega⟩
      · rintro ⟨i, hi, rfl⟩
        rcases i with _ | i
        · exact Or.inl (by simp)
        · refine Or.inr ⟨i, by rw [Nat.succ_mul] at hi; omega, ?_⟩
          simp only [Nat.succ_mul]
          congr 1 <;> omega
    · rw [if_neg hlt]
      simp only [List.not_mem_nil, false_iff, not_exists]
      rintro i ⟨hi, -⟩
      omega

/-! ### The documented address space -/

/-- What the memory map of the kernel asks of the bootinfo: aligned physical addresses, the
documented place and room of the kernel, and frames below the addresses the kernel uses. -/
structure Standard (M : Machine) (b : BootinfoT) : Prop where
  kPaddr : b.kPaddr % PAGE_SIZE = 0 ∧ b.kPaddr < 2 ^ 48
  kStackPaddr : b.kStackPaddr % PAGE_SIZE = 0 ∧ b.kStackPaddr < 2 ^ 48
  fbAddr : b.fbAddr % PAGE_SIZE = 0 ∧ b.fbAddr < 2 ^ 48
  kVaddr : b.kVaddr = 0x1000000000
  kSize : b.kSize ≤ kernelHeap - b.kVaddr
  fbSize : b.fbSize ≤ 2 ^ 39
  frames : ∀ a ∈ M.fm.pages, a < 0x1000000000
  mbPages : b.mbPages = M.fm.pages.length

/-- What the addresses of `init_paging` depend on: all of it but the frames. The loop for the
bitmap makes at most one turn. -/
structure Placed (b : BootinfoT) : Prop where
  kPaddr : b.kPaddr % PAGE_SIZE = 0 ∧ b.kPaddr < 2 ^ 48
  fbAddr : b.fbAddr % PAGE_SIZE = 0 ∧ b.fbAddr < 2 ^ 48
  kVaddr : b.kVaddr = 0x1000000000
  kSize : b.kSize ≤ kernelHeap - b.kVaddr
  fbSize : b.fbSize ≤ 2 ^ 39
  bmap : ∀ c ∈ bmapCalls (initGlobals b), c = (b.mbAddr, kernelHeap + PAGE_SIZE)

lemma length_pages_le (hM : FramesOk M) {n : ℕ} (h : ∀ a ∈ M.fm.pages, a < n * 4096) :
    M.fm.pages.length ≤ n := by
  have hnd : (M.fm.pages.map (· / 4096)).Nodup := by
    refine hM.fm.nodup.map_on fun a ha a' ha' h => ?_
    have h₁ := (hM.fm.mem_pages ha).1
    have h₂ := (hM.fm.mem_pages ha').1
    unfold PAGE_SIZE at h₁ h₂
    omega
  have hsub : M.fm.pages.map (· / 4096) ⊆ List.range n := by
    intro k hk
    obtain ⟨a, ha, rfl⟩ := List.mem_map.mp hk
    have := h a ha
    rw [List.mem_range]
    omega
  calc M.fm.pages.length = (M.fm.pages.map (· / 4096)).length := by rw [List.length_map]
    _ ≤ (List.range n).length := (List.subperm_of_subset hnd hsub).length_le
    _ = n := List.length_range

section standard

variable {b : BootinfoT} (hM : FramesOk M) (hb : Standard M b)

include hM hb

lemma mbPages_le : b.mbPages ≤ 2 ^ 24 := by
  rw [hb.mbPages]
  exact length_pages_le hM fun a ha => (hb.frames a ha).trans_le (by decide)

/-- So the loop for the bitmap makes at most one turn. -/
lemma Standard.placed : Placed b := by
  refine ⟨hb.kPaddr, hb.fbAddr, hb.kVaddr, hb.kSize, hb.fbSize, fun c hc => ?_⟩
  have hle := mbPages_le hM hb
  have hone : (initGlobals b).pmemBmapPages ≤ 1 := by
    change CEILING b.mbPages (8 * 4096 * 4096) ≤ 1
    unfold CEILING
    omega
  unfold bmapCalls at hc
  rcases hn : (initGlobals b).pmemBmapPages with _ | _ | n
  · rw [hn] at hc
    cases hc
  · rw [hn] at hc
    simp only [loopCalls] at hc
    split at hc
    · exact List.mem_singleton.mp hc
    · cases hc
  · omega

lemma taken_lt {calls : List (ℕ × ℕ)} (hs : Wf M s)
    (hno : ∀ e ∈ (runCalls M calls s).2, ¬ RanOut M.fm e) :
    ∀ t ∈ taken (runCalls M calls s).2, t < 0x1000000000 := fun t ht =>
  hb.frames t ((runCalls_ext hM hs hno).fresh t ht).1

end standard

section space

variable {b : BootinfoT} (hb : Placed b)

include hb

lemma mem_kernelCalls {c : ℕ × ℕ} : c ∈ kernelCalls (initGlobals b) ↔
    ∃ i, i * PAGE_SIZE < b.kSize ∧
      c = (b.kPaddr + i * PAGE_SIZE, 0x1000000000 + i * PAGE_SIZE) := by
  have hsize := hb.kSize
  have hp := hb.kPaddr.2
  rw [hb.kVaddr] at hsize
  unfold kernelHeap at hsize
  rw [kernelCalls, initGlobals]
  dsimp only
  rw [hb.kVaddr, add64_eq (by omega), mem_loopCalls (fun _ _ _ => rfl) (by dsimp only; omega)
    (by unfold PAGE_SIZE; dsimp only; omega) (by unfold PAGE_SIZE; dsimp only; omega)]
  simp

lemma mem_fbCalls {c : ℕ × ℕ} : c ∈ fbCalls (initGlobals b) ↔
    ∃ i, i * PAGE_SIZE < b.fbSize ∧
      c = (b.fbAddr + i * PAGE_SIZE, 0x8000000000 + i * PAGE_SIZE) := by
  have hsize := hb.fbSize
  have hp := hb.fbAddr.2
  rw [fbCalls, initGlobals]
  dsimp only
  rw [add64_eq (by omega), mem_loopCalls (fun _ _ _ => rfl) (by dsimp only; omega)
    (by unfold PAGE_SIZE; dsimp only; omega) (by unfold PAGE_SIZE; dsimp only; omega)]
  simp

lemma mem_bootCalls {c : ℕ × ℕ} (hc : c ∈ bootCalls (initGlobals b)) :
    (∃ i, i * PAGE_SIZE < b.kSize ∧
      c = (b.kPaddr + i * PAGE_SIZE, 0x1000000000 + i * PAGE_SIZE)) ∨
    c = (b.kStackPaddr, kernelStack - PAGE_SIZE) ∨
    (∃ i, i * PAGE_SIZE < b.fbSize ∧
      c = (b.fbAddr + i * PAGE_SIZE, 0x8000000000 + i * PAGE_SIZE)) ∨
    c ∈ bmapCalls (initGlobals b) ∨ c = (b.freemap, kernelHeap) := by
  simp only [bootCalls, List.mem_append, List.mem_cons, List.not_mem_nil, or_false] at hc
  rcases hc with ((hc | rfl | hc) | hc) | rfl
  · exact Or.inl ((mem_kernelCalls hb).mp hc)
  · exact Or.inr (Or.inl rfl)
  · exact Or.inr (Or.inr (Or.inl ((mem_fbCalls hb).mp hc)))
  · exact Or.inr (Or.inr (Or.inr (Or.inl hc)))
  · exact Or.inr (Or.inr (Or.inr (Or.inr rfl)))

omit hb in
/-- The frame that the memory map gives to a page number. -/
def frameAt (b : BootinfoT) (q : ℕ) : ℕ :=
  if q < 0x1800000 then b.kPaddr + (q - 0x1000000) * 4096
  else if q = 0x1800000 then b.freemap
  else if q = 0x1800001 then b.mbAddr
  else if q < 0x8000000 then b.kStackPaddr
  else b.fbAddr + (q - 0x8000000) * 4096

/-- The ranges do not meet: the frame of a call is given by its page. -/
lemma frameAt_bootCall {c : ℕ × ℕ} (hc : c ∈ bootCalls (initGlobals b)) :
    c.2 % PAGE_SIZE = 0 ∧ 0x1000000000 ≤ c.2 ∧ c.2 < 2 ^ 48 ∧ c.1 = frameAt b (c.2 / 4096) := by
  have hk := hb.kSize
  have hf := hb.fbSize
  rw [hb.kVaddr] at hk
  unfold kernelHeap at hk
  unfold frameAt
  rcases mem_bootCalls hb hc with ⟨i, hi, rfl⟩ | rfl | ⟨i, hi, rfl⟩ | hc | rfl
  · unfold PAGE_SIZE at *
    dsimp only
    rw [if_pos (by omega)]
    omega
  · dsimp only
    exact ⟨by decide, by decide, by decide, by simp [kernelStack, PAGE_SIZE]⟩
  · unfold PAGE_SIZE at *
    dsimp only
    rw [if_neg (by omega), if_neg (by omega), if_neg (by omega), if_neg (by omega)]
    omega
  · rw [hb.bmap c hc]
    dsimp only
    exact ⟨by decide, by decide, by decide, by simp [kernelHeap, PAGE_SIZE]⟩
  · dsimp only
    exact ⟨by decide, by decide, by decide, by simp [kernelHeap]⟩

variable (hM : FramesOk M) (hno : ∀ e ∈ (initPaging M (initGlobals b) s).2, ¬ RanOut M.fm e)
  (htk : ∀ t ∈ taken (initPaging M (initGlobals b) s).2, t < 0x1000000000)

include hM hno htk

lemma lookup_bootCall {c : ℕ × ℕ} (hc : c ∈ bootCalls (initGlobals b)) (hal : c.1 % PAGE_SIZE = 0)
    (hv : page v = page c.2) :
    lookup M (initPaging M (initGlobals b) s).1 v = some (c.1 &&& ADDR_MASK) := by
  obtain ⟨-, hle, hlt, hframe⟩ := frameAt_bootCall hb hc
  rw [lookup_congr hv]
  refine lookup_runCalls hM (wf_memset_pml4 s) (fun t ht => ?_) hno hal (fun d hd hp => ?_)
    (Or.inl ⟨c, hc, rfl⟩)
  · have := htk t ht
    unfold page
    omega
  · obtain ⟨hal', hle', hlt', hframe'⟩ := frameAt_bootCall hb hd
    unfold page at hp
    have hq : d.2 / 4096 = c.2 / 4096 := by omega
    exact ⟨by rw [hframe', hframe, hq], hal'⟩

lemma find_bootCall {c : ℕ × ℕ} (hc : c ∈ bootCalls (initGlobals b)) (hal : c.1 % PAGE_SIZE = 0)
    (hlt : c.1 < 2 ^ 52) (hv : v / 4096 = c.2 / 4096) :
    findPhysaddr M (initPaging M (initGlobals b) s).1 v = c.1 + v % 4096 := by
  have hp : page v = page c.2 := by
    unfold page
    rw [hv]
  rw [findPhysaddr_of_lookup (lookup_bootCall hb hM hno htk hc hal hp), and_mask_of_aligned hal hlt]

omit hb in
lemma find_unnamed (hv : 0x1000000000 ≤ v ∧ v < 2 ^ 48)
    (hne : ∀ c ∈ bootCalls (initGlobals b), page c.2 ≠ page v) :
    findPhysaddr M (initPaging M (initGlobals b) s).1 v = 0 := by
  have hkeep : lookup M (initPaging M (initGlobals b) s).1 v = lookup M (s.memset M.pml4) v := by
    refine lookup_runCalls_of_ne hM (wf_memset_pml4 s) (fun t ht => ?_) hno hne
    have := htk t ht
    unfold page
    omega
  have hclear : lookup M (s.memset M.pml4) v = none :=
    lookup_of_clear (fun i => by rw [frame_memset, if_pos rfl]) v
  rw [findPhysaddr_of_none (hkeep.trans hclear)]

end space

/-- **The documented address space.** After `init_paging`, which finds the frames it needs,
the kernel, its stack and the framebuffer are where the memory map says, byte by byte, and
`load_pml4` gets the physical address of `pml4`. -/
theorem initPaging_space (M : Machine) (hM : FramesOk M) (b : BootinfoT) (hb : Standard M b)
    (s : Paging) (hno : ∀ e ∈ (initPaging M (initGlobals b) s).2, ¬ RanOut M.fm e)
    (pml4 : ℕ) (hin : b.kVaddr ≤ pml4 ∧ pml4 < b.kVaddr + b.kSize)
    (hat : b.kPaddr + (pml4 - b.kVaddr) = M.pml4) :
    (∀ o < b.kSize, findPhysaddr M (initPaging M (initGlobals b) s).1 (b.kVaddr + o) =
      b.kPaddr + o) ∧
    (∀ o < 4096, findPhysaddr M (initPaging M (initGlobals b) s).1
      (kernelStack - PAGE_SIZE + o) = b.kStackPaddr + o) ∧
    (∀ o < b.fbSize, findPhysaddr M (initPaging M (initGlobals b) s).1 (0x8000000000 + o) =
      b.fbAddr + o) ∧
    loadedPml4 M b pml4 s = M.pml4 := by
  have hp := hb.placed hM
  have htk := taken_lt hM hb (wf_memset_pml4 s) hno
  have hsize := hb.kSize
  have hfsize := hb.fbSize
  rw [hb.kVaddr] at hsize
  unfold kernelHeap at hsize
  have hkernel : ∀ o < b.kSize, findPhysaddr M (initPaging M (initGlobals b) s).1
      (b.kVaddr + o) = b.kPaddr + o := by
    intro o ho
    obtain ⟨hal, hlt⟩ := hb.kPaddr
    have hc : (b.kPaddr + o / 4096 * PAGE_SIZE, 0x1000000000 + o / 4096 * PAGE_SIZE) ∈
        bootCalls (initGlobals b) := by
      simp only [bootCalls, List.mem_append]
      exact Or.inl (Or.inl (Or.inl ((mem_kernelCalls hp).mpr
        ⟨o / 4096, by unfold PAGE_SIZE; omega, rfl⟩)))
    rw [hb.kVaddr, find_bootCall hp hM hno htk hc (by unfold PAGE_SIZE at *; omega)
      (by unfold PAGE_SIZE; omega) (by unfold PAGE_SIZE; omega)]
    unfold PAGE_SIZE
    omega
  refine ⟨hkernel, fun o ho => ?_, fun o ho => ?_, ?_⟩
  · obtain ⟨hal, hlt⟩ := hb.kStackPaddr
    have hc : (b.kStackPaddr, kernelStack - PAGE_SIZE) ∈ bootCalls (initGlobals b) := by
      simp [bootCalls, stackCall, initGlobals]
    rw [find_bootCall hp hM hno htk hc hal (by omega) (by unfold kernelStack PAGE_SIZE; omega)]
    unfold kernelStack PAGE_SIZE
    omega
  · obtain ⟨hal, hlt⟩ := hb.fbAddr
    have hc : (b.fbAddr + o / 4096 * PAGE_SIZE, 0x8000000000 + o / 4096 * PAGE_SIZE) ∈
        bootCalls (initGlobals b) := by
      simp only [bootCalls, List.mem_append, List.mem_cons]
      exact Or.inl (Or.inl (Or.inr (Or.inr ((mem_fbCalls hp).mpr
        ⟨o / 4096, by unfold PAGE_SIZE; omega, rfl⟩))))
    rw [find_bootCall hp hM hno htk hc (by unfold PAGE_SIZE at *; omega)
      (by unfold PAGE_SIZE; omega) (by unfold PAGE_SIZE; omega)]
    unfold PAGE_SIZE
    omega
  · have h := hkernel (pml4 - b.kVaddr) (by omega)
    rwa [Nat.add_sub_cancel' hin.1, hat] at h

def smallHandoff : BootinfoT where
  memmap := 0x205000
  mmDescs := 1
  freemap := 0x204000
  fmDescs := 1
  kPaddr := 0x200000
  kVaddr := 0x1000000000
  kSize := 0x2000
  kStackPaddr := 0x202000
  mbAddr := 0x203000
  mbPages := 16
  fbAddr := 0x80000000
  fbSize := 0x1000

lemma standard_smallHandoff : Standard (smallMachine 16 (by decide)) smallHandoff :=
  ⟨by decide, by decide, by decide, rfl, by decide, by decide, by decide +kernel, rfl⟩

theorem initPaging_space_small :
    findPhysaddr (smallMachine 16 (by decide))
      (initPaging (smallMachine 16 (by decide)) (initGlobals smallHandoff) zeroed).1
      (0x1000000000 + 0x1234) = 0x200000 + 0x1234 ∧
    loadedPml4 (smallMachine 16 (by decide)) smallHandoff 0x1000001000 zeroed = 0x201000 := by
  have h := initPaging_space (smallMachine 16 (by decide)) (framesOk_smallMachine (by decide))
    smallHandoff standard_smallHandoff zeroed (by decide +kernel) 0x1000001000 (by decide) (by decide)
  exact ⟨h.1 0x1234 (by decide), h.2.2.2⟩

end FlameOS.AddressSpace
