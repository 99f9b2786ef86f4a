import FlameOS.Boot
import FlameOS.BootPaging

/-!
The bootloader's `boot`, from the first `getmemmap` to the jump to the kernel, as a sequence of
calls to the firmware.

The last reading of the memory map is in the middle: the page tables, the bitmap and the stack
are allocated after it. So the map key is out of date when the bootloader exits the boot
services, and the freemap has the pages of all three.
-/

namespace FlameOS.Bootloader

open FlameOS.Word FlameOS.FrameAlloc FlameOS.PageTable FlameOS.MemoryMap FlameOS.BootPaging
open FlameOS.HeapTable (kernelStack)

/-! ### The kernel image -/

/-- `elf_pheader_t`, as far as the size of the kernel depends on it. -/
structure Phdr where
  type : ℕ
  vaddr : ℕ
  memsz : ℕ

structure Elf where
  magic : ℕ
  pheader : List Phdr

def PT_LOAD : ℕ := 1

def kernelVaddr : ℕ := 0x1000000000

/-- The loop that finds `kernel_mem_size` and `lowest_vaddr`. -/
def sizeLoop : List Phdr → ℕ → ℕ → ℕ × ℕ
  | [], size, lowest => (size, lowest)
  | p :: ps, size, lowest =>
    if p.type = PT_LOAD then
      sizeLoop ps (if add64 p.vaddr p.memsz > size then add64 p.vaddr p.memsz else size)
        (if p.vaddr < lowest then p.vaddr else lowest)
    else sizeLoop ps size lowest

def kernelMemSize (elf : Elf) : ℕ :=
  sub64 (sizeLoop elf.pheader 0 0xFFFFFFFFFFFFFFFF).1 (sizeLoop elf.pheader 0 0xFFFFFFFFFFFFFFFF).2

/-! ### The calls of `map_page` -/

/-- The loop over the memory that is not of type `normalmem`. -/
def nonConvCalls (info : MapInfo) : List (ℕ × ℕ) :=
  (records info.memmap 0 info.mmDescs).flatMap fun m =>
    if m.type = normalmem then []
    else (List.range m.pages).map fun j =>
      (add64 m.physaddr (j * PAGE_SIZE), add64 m.physaddr (j * PAGE_SIZE))

def lowCalls : List (ℕ × ℕ) :=
  (List.range (0x1000000 / PAGE_SIZE)).map fun i => (i * PAGE_SIZE, i * PAGE_SIZE)

/-- The loop over the pages of the kernel, which is entered before its test. -/
def kernelCalls (kernel size : ℕ) : List (ℕ × ℕ) :=
  (List.range (max 1 (CEILING size PAGE_SIZE))).map fun i =>
    (add64 kernel (i * PAGE_SIZE), add64 kernelVaddr (i * PAGE_SIZE))

/-- The loop over the bitmap, which adds the number of its pages to its address. -/
def bitmapCalls (mbAddr pages : ℕ) : List (ℕ × ℕ) :=
  Boot.loopCalls Prod.fst (add64 mbAddr pages) pages mbAddr mbAddr

def countPages (info : MapInfo) : ℕ :=
  ((List.range info.fmDescs).map fun i => (info.freemap i).blocks).foldl add64 0

/-! ### The two halves of `boot` -/

variable {σ : Type}

/-- What the bootloader has at the last `getmemmap`: the addresses of the memory map, the kernel
and the freemap, what it made of the map, and the firmware at the first reading. -/
structure Snapshot (σ : Type) where
  memmap : ℕ
  kernel : ℕ
  freemap : ℕ
  info : MapInfo
  first : σ
  state : BootState σ

/-- What is there at the jump to the kernel. The log has the grants since the last
`getmemmap`. -/
structure Handoff (σ : Type) where
  snapshot : Snapshot σ
  mbAddr : ℕ
  mbPages : ℕ
  kStackPaddr : ℕ
  state : BootState σ

variable (F : Firmware σ)

/-- `boot` up to the filling of the freemap. A file that is no ELF file makes it return. The
buffers `b` and `f` are as `pagealloc` returns them. -/
def readMap (elf : Elf) (b : Bytes) (f : ℕ → MemoryT) (frame : ℕ → ℕ → ℕ) (u : σ) :
    Option (Snapshot σ) :=
  let d := F.mmDescSize
  let memmapsize := (F.memmap u).length * d
  (pagealloc F rsdatamem (CEILING memmapsize PAGE_SIZE) ⟨frame, u, []⟩).bind fun mm =>
  let r₁ := getmemmap d (F.memmap mm.2.fw) memmapsize b
  let mmDescs := r₁.1 / d
  let b₁ := shrinkMap d mmDescs r₁.2
  if elf.magic ≠ 0x464c457f then none
  else
    (pagealloc F rscodemem (CEILING (kernelMemSize elf) PAGE_SIZE)
      { mm.2 with fw := F.gop mm.2.fw }).bind fun k =>
    let fmDescs := countFm b₁ mmDescs 0
    (pagealloc F rscodemem (CEILING (fmDescs * 16) PAGE_SIZE) k.2).map fun fm =>
    let r₂ := getmemmap d (F.memmap fm.2.fw) r₁.1 b₁
    { memmap := mm.1
      kernel := k.1
      freemap := fm.1
      info := ⟨r₂.2, mmDescs, fmDescs, fillFreemap r₂.2 mmDescs 0 0 f⟩
      first := mm.2.fw
      state := fm.2 }

/-- `boot` from the clearing of `PML4` on. -/
def enterKernel (pml4 fuel : ℕ) (elf : Elf) (n : Snapshot σ) : Option (Handoff σ) :=
  (mapCalls F pml4 fuel
    (nonConvCalls n.info ++ lowCalls ++ kernelCalls n.kernel (kernelMemSize elf))
    ({ n.state with log := [] }.memzero pml4)).bind fun s =>
  let mbPages := countPages n.info
  (pagealloc F rscodemem (CEILING mbPages 32768) s).bind fun mb =>
  (mapCalls F pml4 fuel (bitmapCalls mb.1 (CEILING mbPages 32768)) mb.2).bind fun s =>
  (pagealloc F rsdatamem 1 s).bind fun st =>
  (mapPage F pml4 fuel st.1 (kernelStack - PAGE_SIZE) st.2).map fun s =>
  { snapshot := n, mbAddr := mb.1, mbPages := mbPages, kStackPaddr := st.1, state := s }

/-- `boot`, with `PML4` at the address `pml4`. -/
def boot (pml4 fuel : ℕ) (elf : Elf) (b : Bytes) (f : ℕ → MemoryT) (frame : ℕ → ℕ → ℕ) (u : σ) :
    Option (Handoff σ) :=
  (readMap F elf b f frame u).bind (enterKernel F pml4 fuel elf)

/-- The map key that `boot` passes to `exitbs`. -/
def Handoff.mapkey (h : Handoff σ) : ℕ := F.mapkey h.snapshot.state.fw

variable {F}

/-! ### What is allocated when -/

lemma enterKernel_cases {pml4 fuel : ℕ} {elf : Elf} {n : Snapshot σ} {h : Handoff σ}
    (hrun : enterKernel F pml4 fuel elf n = some h) :
    ∃ s₁ mb s₃ st s₅, mapCalls F pml4 fuel
        (nonConvCalls n.info ++ lowCalls ++ kernelCalls n.kernel (kernelMemSize elf))
        ({ n.state with log := [] }.memzero pml4) = some s₁ ∧
      pagealloc F rscodemem (CEILING (countPages n.info) 32768) s₁ = some mb ∧
      mapCalls F pml4 fuel (bitmapCalls mb.1 (CEILING (countPages n.info) 32768)) mb.2 = some s₃ ∧
      pagealloc F rsdatamem 1 s₃ = some st ∧
      mapPage F pml4 fuel st.1 (kernelStack - PAGE_SIZE) st.2 = some s₅ ∧
      h = ⟨n, mb.1, countPages n.info, st.1, s₅⟩ := by
  obtain ⟨s₁, h₁, hrun⟩ := Option.bind_eq_some_iff.mp hrun
  obtain ⟨mb, h₂, hrun⟩ := Option.bind_eq_some_iff.mp hrun
  obtain ⟨s₃, h₃, hrun⟩ := Option.bind_eq_some_iff.mp hrun
  obtain ⟨st, h₄, hrun⟩ := Option.bind_eq_some_iff.mp hrun
  obtain ⟨s₅, h₅, rfl⟩ := Option.map_eq_some_iff.mp hrun
  exact ⟨s₁, mb, s₃, st, s₅, h₁, h₂, h₃, h₄, h₅, rfl⟩

/-- The second half allocates the page tables, the bitmap and the stack. -/
lemma enterKernel_granted {pml4 fuel : ℕ} {elf : Elf} {n : Snapshot σ} {h : Handoff σ}
    (hrun : enterKernel F pml4 fuel elf n = some h) :
    h.snapshot = n ∧ Grants F n.state.fw h.state.log h.state.fw ∧
      ⟨h.mbAddr, CEILING h.mbPages 32768⟩ ∈ h.state.log ∧ ⟨h.kStackPaddr, 1⟩ ∈ h.state.log := by
  obtain ⟨s₁, mb, s₃, st, s₅, h₁, h₂, h₃, h₄, h₅, rfl⟩ := enterKernel_cases hrun
  obtain ⟨gs, hl, hg⟩ := (((granted_mapCalls h₁).trans (granted_pagealloc h₂)).trans
    (granted_mapCalls h₃)).trans ((granted_pagealloc h₄).trans (granted_mapPage h₅))
  have hlog : s₅.log = gs := hl.trans (List.append_nil gs)
  obtain ⟨gs₅, hl₅, -⟩ := granted_mapPage h₅
  obtain ⟨gs₃, hl₃, -⟩ := (granted_mapCalls h₃).trans
    ((granted_pagealloc h₄).trans (granted_mapPage h₅))
  refine ⟨rfl, ?_, ?_, ?_⟩
  · rw [hlog]
    exact hg
  · rw [hl₃, (pagealloc_eq h₂).1]
    exact List.mem_append_right _ List.mem_cons_self
  · rw [hl₅, (pagealloc_eq h₄).1]
    exact List.mem_append_right _ List.mem_cons_self

lemma mbPages_enterKernel {pml4 fuel : ℕ} {elf : Elf} {n : Snapshot σ} {h : Handoff σ}
    (hrun : enterKernel F pml4 fuel elf n = some h) : h.mbPages = countPages n.info := by
  obtain ⟨s₁, mb, s₃, st, s₅, -, -, -, -, -, rfl⟩ := enterKernel_cases hrun
  rfl

/-- The first half allocates the memory map, the kernel and the freemap, in this order. -/
lemma readMap_granted {elf : Elf} {b : Bytes} {f : ℕ → MemoryT} {frame : ℕ → ℕ → ℕ} {u : σ}
    {n : Snapshot σ} (hrun : readMap F elf b f frame u = some n) :
    ∃ k m, n.state.log = [⟨n.freemap, CEILING (n.info.fmDescs * 16) PAGE_SIZE⟩, ⟨n.kernel, k⟩, m] ∧
      Grants F u [m] n.first ∧ Grants F (F.gop n.first)
        [⟨n.freemap, CEILING (n.info.fmDescs * 16) PAGE_SIZE⟩, ⟨n.kernel, k⟩] n.state.fw := by
  obtain ⟨mm, h₁, hrun⟩ := Option.bind_eq_some_iff.mp hrun
  dsimp only at hrun
  split at hrun
  · cases hrun
  obtain ⟨k, h₂, hrun⟩ := Option.bind_eq_some_iff.mp hrun
  obtain ⟨fm, h₃, rfl⟩ := Option.map_eq_some_iff.mp hrun
  obtain ⟨l₁, e₁⟩ := pagealloc_eq h₁
  obtain ⟨l₂, e₂⟩ := pagealloc_eq h₂
  obtain ⟨l₃, e₃⟩ := pagealloc_eq h₃
  dsimp only at l₁ l₂ l₃ e₁ e₂ e₃ ⊢
  rw [l₁] at l₂
  rw [l₂] at l₃
  exact ⟨_, _, l₃, .cons (.nil _) e₁, .cons (.cons (.nil _) e₂) e₃⟩

/-! ### A small machine -/

/-- The second half on the upper levels, with one call for each last-level table of the first
loops: the addresses of the bitmap and the stack. -/
def enterUpper (F : Firmware σ) (pml4 fuel : ℕ) (vs : List ℕ) (n : Snapshot σ) :
    Option (ℕ × ℕ × Upper σ) :=
  (mapBlocks F pml4 fuel vs ⟨{ n.state with log := [] }.memzero pml4, []⟩).bind fun w =>
  (pagealloc F rscodemem (CEILING (countPages n.info) 32768) w.state).bind fun mb =>
  (mapCallsUpper F pml4 (fuel + 1) (bitmapCalls mb.1 (CEILING (countPages n.info) 32768))
    ⟨mb.2, w.pts⟩).bind fun w =>
  (pagealloc F rsdatamem 1 w.state).bind fun st =>
  (mapUpper F pml4 (fuel + 1) (kernelStack - PAGE_SIZE) ⟨st.2, w.pts⟩).map fun w => (mb.1, st.1, w)

lemma enterKernel_of_upper {pml4 fuel : ℕ} {elf : Elf} {n : Snapshot σ}
    {bs : List (ℕ × List (ℕ × ℕ))} {r : ℕ × ℕ × Upper σ}
    (hcalls : nonConvCalls n.info ++ lowCalls ++ kernelCalls n.kernel (kernelMemSize elf) =
      bs.flatMap Prod.snd) (hbs : ∀ b ∈ bs, b.2 ≠ [] ∧ ∀ c ∈ b.2, SameTable c.2 b.1)
    (h : enterUpper F pml4 fuel (bs.map Prod.fst) n = some r) :
    ∃ h, enterKernel F pml4 (fuel + 1) elf n = some h ∧ h.snapshot = n ∧ h.mbAddr = r.1 ∧
      h.kStackPaddr = r.2.1 ∧ Shows r.2.2 h.state := by
  obtain ⟨w₁, h₁, h⟩ := Option.bind_eq_some_iff.mp h
  obtain ⟨mb, h₂, h⟩ := Option.bind_eq_some_iff.mp h
  obtain ⟨w₂, h₃, h⟩ := Option.bind_eq_some_iff.mp h
  obtain ⟨st, h₄, h⟩ := Option.bind_eq_some_iff.mp h
  obtain ⟨w₃, h₅, rfl⟩ := Option.map_eq_some_iff.mp h
  have h0 : Shows ⟨{ n.state with log := [] }.memzero pml4, []⟩
    ({ n.state with log := [] }.memzero pml4) := ⟨rfl, rfl, fun _ _ => rfl⟩
  obtain ⟨s₁, e₁, hs₁⟩ := mapCalls_of_upper (mapCallsUpper_blocks hbs h₁) h0
  obtain ⟨s₂, e₂, hs₂⟩ := hs₁.pagealloc h₂
  obtain ⟨s₃, e₃, hs₃⟩ := mapCalls_of_upper h₃ hs₂
  obtain ⟨s₄, e₄, hs₄⟩ := hs₃.pagealloc h₄
  obtain ⟨s₅, e₅, hs₅⟩ := mapPage_of_upper _ st.1 _ _ _ _ h₅ hs₄
  refine ⟨⟨n, mb.1, countPages n.info, st.1, s₅⟩, ?_, rfl, rfl, rfl, hs₅⟩
  have hstack : (pagealloc F rsdatamem 1 s₃).bind (fun st =>
      (mapPage F pml4 (fuel + 1) st.1 (kernelStack - PAGE_SIZE) st.2).map fun s =>
        (⟨n, mb.1, countPages n.info, st.1, s⟩ : Handoff σ)) =
      some ⟨n, mb.1, countPages n.info, st.1, s₅⟩ := by
    rw [e₄, Option.bind_some, e₅, Option.map_some]
  unfold enterKernel
  rw [hcalls, e₁, Option.bind_some]
  dsimp only
  rw [e₂, Option.bind_some, e₃, Option.bind_some, hstack]

def byteAt (x k : ℕ) : UInt8 := (x / 256 ^ k).toUInt8

def descriptor (type physaddr pages : ℕ) : Bytes := fun k =>
  if k < 8 then byteAt type k
  else if k < 16 then byteAt physaddr (k - 8)
  else if k < 24 then 0
  else if k < 32 then byteAt pages (k - 24)
  else 0

/-- A firmware with 64 pages from 2 MB on, of which `u` have been taken. An allocation takes the
next ones and changes the map key. -/
def smallFirmware : Firmware ℕ where
  mmDescSize := 40
  memmap u := [descriptor normalmem (0x200000 + u * PAGE_SIZE) (64 - u)]
  mapkey u := u
  pagealloc u _ n := if u + n ≤ 64 then some (0x200000 + u * PAGE_SIZE, u + n) else none
  gop := id

def smallElf : Elf := ⟨0x464c457f, [⟨PT_LOAD, kernelVaddr, 0x1000⟩]⟩

def smallBoot : Option (Handoff ℕ) :=
  boot smallFirmware 0x180000 8 smallElf (fun _ => 0) (fun _ => ⟨0, 0⟩) (fun _ _ => 0) 0

def smallSnapshot : Snapshot ℕ :=
  (readMap smallFirmware smallElf (fun _ => 0) (fun _ => ⟨0, 0⟩) (fun _ _ => 0) 0).get
    (by decide +kernel)

def smallBlocks : List (ℕ × List (ℕ × ℕ)) :=
  ((List.range 8).map fun j => (j * 0x200000, (List.range 512).map fun i =>
    ((512 * j + i) * PAGE_SIZE, (512 * j + i) * PAGE_SIZE))) ++
  [(kernelVaddr, [(0x201000, kernelVaddr)])]

lemma range_mul_map {α : Type*} (g : ℕ → α) (m n : ℕ) : (List.range (n * m)).map g =
    (List.range m).flatMap fun j => (List.range n).map fun i => g (n * j + i) := by
  induction m with
  | zero => simp
  | succ m ih =>
    rw [Nat.mul_succ, List.range_add, List.map_append, ih, List.range_succ, List.flatMap_append,
      List.flatMap_singleton, List.map_map]
    rfl

lemma calls_small : nonConvCalls smallSnapshot.info ++ lowCalls ++
    kernelCalls smallSnapshot.kernel (kernelMemSize smallElf) = smallBlocks.flatMap Prod.snd := by
  have hnon : nonConvCalls smallSnapshot.info = [] := by decide +kernel
  have hkernel : kernelCalls smallSnapshot.kernel (kernelMemSize smallElf) =
    [(0x201000, kernelVaddr)] := by decide +kernel
  have hlow : lowCalls = (List.range 8).flatMap fun j => (List.range 512).map fun i =>
      ((512 * j + i) * PAGE_SIZE, (512 * j + i) * PAGE_SIZE) :=
    range_mul_map (fun i => (i * PAGE_SIZE, i * PAGE_SIZE)) 8 512
  rw [hnon, hkernel, hlow, smallBlocks, List.nil_append, List.flatMap_append, List.flatMap_map]
  simp only [List.flatMap_singleton]

/-- The run gets to the kernel. The last `getmemmap` comes after three pages have been taken, and
sixteen more are taken after it. -/
lemma smallBoot_eq : ∃ h, smallBoot = some h ∧ h.snapshot = smallSnapshot ∧
    h.snapshot.state.fw = 3 ∧ h.mbAddr = 0x20F000 ∧ h.kStackPaddr = 0x210000 ∧ h.state.fw = 19 := by
  have hup : (enterUpper smallFirmware 0x180000 7 (smallBlocks.map Prod.fst) smallSnapshot).map
      (fun r => (r.1, r.2.1, r.2.2.state.fw)) = some (0x20F000, 0x210000, 19) := by decide +kernel
  obtain ⟨r, hr, hval⟩ := Option.map_eq_some_iff.mp hup
  obtain ⟨h, hrun, hn, hmb, hst, hs⟩ := enterKernel_of_upper calls_small (by decide +kernel) hr
  have hread : readMap smallFirmware smallElf (fun _ => 0) (fun _ => ⟨0, 0⟩) (fun _ _ => 0) 0 =
    some smallSnapshot := (Option.some_get _).symm
  refine ⟨h, ?_, hn, ?_, ?_, ?_, ?_⟩
  · rw [smallBoot, boot, hread, Option.bind_some, hrun]
  · rw [hn]
    decide +kernel
  · rw [hmb]
    exact congrArg Prod.fst hval
  · rw [hst]
    exact congrArg (fun q => q.2.1) hval
  · rw [hs.fw]
    exact congrArg (fun q => q.2.2) hval

/-! ### The map key -/

/-- **The map key is out of date.** With a firmware whose map key changes whenever pages are
taken, every run that gets to `exitbs` passes it a key that is no longer current: pages have
been taken since the last `getmemmap`. -/
theorem mapkey_stale (F : Firmware σ)
    (hkey : ∀ u gs u', Grants F u gs u' → (∃ g ∈ gs, 0 < g.pages) → F.mapkey u' ≠ F.mapkey u)
    (pml4 fuel : ℕ) (elf : Elf) (b : Bytes) (f : ℕ → MemoryT) (frame : ℕ → ℕ → ℕ) (u : σ)
    (h : Handoff σ) (hrun : boot F pml4 fuel elf b f frame u = some h) :
    (∃ g ∈ h.state.log, 0 < g.pages) ∧ h.mapkey F ≠ F.mapkey h.state.fw := by
  obtain ⟨n, -, hrun⟩ := Option.bind_eq_some_iff.mp hrun
  obtain ⟨hn, hg, -, hst⟩ := enterKernel_granted hrun
  have hpos : ∃ g ∈ h.state.log, 0 < g.pages := ⟨_, hst, Nat.one_pos⟩
  refine ⟨hpos, ?_⟩
  rw [Handoff.mapkey, hn]
  exact (hkey _ _ _ hg hpos).symm


lemma grants_small {u u' : ℕ} {gs : List Grant} (h : Grants smallFirmware u gs u') :
    u' = u + (gs.map Grant.pages).sum := by
  induction h with
  | nil => rfl
  | cons _ hg ih =>
    obtain ⟨-, hg⟩ := Option.ite_none_right_eq_some.mp hg
    have hu := congrArg Prod.snd (Option.some.inj hg)
    dsimp only at hu
    rw [List.map_cons, List.sum_cons, ← hu, ih]
    omega

theorem mapkey_stale_small : ∃ h, smallBoot = some h ∧ (∃ g ∈ h.state.log, 0 < g.pages) ∧
    h.mapkey smallFirmware ≠ smallFirmware.mapkey h.state.fw := by
  obtain ⟨h, hrun, -⟩ := smallBoot_eq
  refine ⟨h, hrun, mapkey_stale smallFirmware (fun u gs u' hg hpos => ?_) _ _ _ _ _ _ _ h hrun⟩
  obtain ⟨g, hg', hpos⟩ := hpos
  have hle : g.pages ≤ (gs.map Grant.pages).sum :=
    List.single_le_sum (fun _ _ => Nat.zero_le _) _ (List.mem_map_of_mem hg')
  have hu := grants_small hg
  have hne : u' ≠ u := by omega
  exact hne

/-- The small firmware has another key by then. -/
theorem not_mapkey_current :
    ¬ ∀ h, smallBoot = some h → h.mapkey smallFirmware = smallFirmware.mapkey h.state.fw := by
  obtain ⟨h, hrun, -, h3, -, -, h19⟩ := smallBoot_eq
  intro hall
  have hkey : h.snapshot.state.fw = h.state.fw := hall h hrun
  omega


/-! ### The memory in use -/

def grantBytes (g : Grant) : Set ℕ := Set.Ico g.addr (g.addr + g.pages * PAGE_SIZE)

def regionBytes (l : List MemoryT) : Set ℕ :=
  {x | ∃ m ∈ l, m.addr ≤ x ∧ x < m.addr + m.blocks * PAGE_SIZE}

def freeBytes (F : Firmware σ) (u : σ) : Set ℕ := regionBytes (freeMemory (F.memmap u))

/-- A firmware that takes the pages of a `pagealloc` from what its map lists as free, and lists
memory that is taken no more. -/
structure Allocator (F : Firmware σ) where
  taken : σ → Set ℕ
  disjoint : ∀ u, Disjoint (taken u) (freeBytes F u)
  grant : ∀ u type (g : Grant) u', F.pagealloc u type g.pages = some (g.addr, u') →
    grantBytes g ⊆ freeBytes F u ∧ grantBytes g ⊆ taken u'
  mono : ∀ u type (g : Grant) u', F.pagealloc u type g.pages = some (g.addr, u') →
    taken u ⊆ taken u' ∧ freeBytes F u' ⊆ freeBytes F u
  gop : ∀ u, taken u ⊆ taken (F.gop u)

def listed (info : MapInfo) : Set ℕ :=
  regionBytes ((List.range info.fmDescs).map info.freemap)

/-- Nothing that `boot` has allocated is listed: the kernel image, the stack, the bitmap, the
freemap, the memory map and the page tables. -/
def Handoff.Excludes (h : Handoff σ) : Prop :=
  ∀ g ∈ h.state.log ++ h.snapshot.state.log, Disjoint (grantBytes g) (listed h.snapshot.info)

lemma regionBytes_mono {l l' : List MemoryT} (h : l ⊆ l') : regionBytes l ⊆ regionBytes l' :=
  fun _ ⟨m, hm, hx⟩ => ⟨m, h hm, hx⟩

lemma Allocator.grants (A : Allocator F) {u u' : σ} {gs : List Grant} (h : Grants F u gs u') :
    (∀ g ∈ gs, grantBytes g ⊆ freeBytes F u ∧ grantBytes g ⊆ A.taken u') ∧
      A.taken u ⊆ A.taken u' ∧ freeBytes F u' ⊆ freeBytes F u := by
  induction h with
  | nil => exact ⟨fun g hg => absurd hg List.not_mem_nil, subset_rfl, subset_rfl⟩
  | cons _ hg ih =>
    obtain ⟨ihg, iht, ihf⟩ := ih
    obtain ⟨hfree, htaken⟩ := A.grant _ _ _ _ hg
    obtain ⟨ht, hf⟩ := A.mono _ _ _ _ hg
    refine ⟨fun g' hg' => ?_, iht.trans ht, hf.trans ihf⟩
    rcases List.mem_cons.mp hg' with rfl | hg'
    · exact ⟨hfree.trans ihf, htaken⟩
    · exact ⟨(ihg g' hg').1, (ihg g' hg').2.trans ht⟩

lemma Allocator.pairwise (A : Allocator F) {u u' : σ} {gs : List Grant} (h : Grants F u gs u') :
    gs.Pairwise fun g g' => Disjoint (grantBytes g) (grantBytes g') := by
  induction h with
  | nil => exact List.Pairwise.nil
  | cons hgs hg ih =>
    refine List.pairwise_cons.mpr ⟨fun g' hg' => ?_, ih⟩
    exact (A.disjoint _).symm.mono (A.grant _ _ _ _ hg).1 ((A.grants hgs).1 g' hg').2

/-- What the first half has allocated is taken when the freemap is filled. -/
lemma Allocator.readMap (A : Allocator F) {elf : Elf} {b : Bytes} {f : ℕ → MemoryT}
    {frame : ℕ → ℕ → ℕ} {u : σ} {n : Snapshot σ}
    (hrun : Bootloader.readMap F elf b f frame u = some n) :
    (∀ g ∈ n.state.log, grantBytes g ⊆ A.taken n.state.fw) ∧ A.taken u ⊆ A.taken n.state.fw := by
  obtain ⟨k, m, hlog, hfirst, hrest⟩ := readMap_granted hrun
  obtain ⟨hfirstg, hfirstt, -⟩ := A.grants hfirst
  obtain ⟨hrestg, hrestt, -⟩ := A.grants hrest
  refine ⟨fun g hg => ?_, hfirstt.trans ((A.gop _).trans hrestt)⟩
  rw [hlog] at hg
  rcases List.mem_cons.mp hg with rfl | hg
  · exact (hrestg _ List.mem_cons_self).2
  rcases List.mem_cons.mp hg with rfl | hg
  · exact (hrestg _ (List.mem_cons_of_mem _ List.mem_cons_self)).2
  · exact (hfirstg g hg).2.trans ((A.gop _).trans hrestt)

/-- The records that the bootloader counts: those of the first map, or what was in the buffer
if the map did not fit. -/
def counted (size : ℕ) (D₁ : List Bytes) (b : Bytes) : List MemmapT :=
  if D₁.length * sizeofMemmapT ≤ size then D₁.map fun x => memmapAt x 0
  else records b 0 D₁.length

section readMaps

variable {size : ℕ} {D₁ D₂ : List Bytes} {b : Bytes} {f : ℕ → MemoryT}

lemma records_getmemmap :
    records (getmemmap sizeofMemmapT D₁ size b).2 0 D₁.length = counted size D₁ b := by
  unfold getmemmap counted
  dsimp only
  split
  · refine records_eq fun k hk => ?_
    rw [if_pos (by rwa [Nat.mul_comm])]
  · rfl

lemma descs_getmemmap :
    (getmemmap sizeofMemmapT D₁ size b).1 / sizeofMemmapT = D₁.length :=
  Nat.mul_div_cancel _ (by decide)

lemma fmDescs_counted :
    (readMaps sizeofMemmapT size D₁ D₂ b f).fmDescs = (freeOf (counted size D₁ b)).length := by
  unfold readMaps
  dsimp only
  rw [descs_getmemmap, countFm_eq, shrinkMap, if_neg (not_not.mpr rfl), records_getmemmap]

lemma freemap_counted (k : ℕ) : (readMaps sizeofMemmapT size D₁ D₂ b f).freemap k =
    (freeOf (records (readMaps sizeofMemmapT size D₁ D₂ b f).memmap 0 D₁.length)).getD k (f k) := by
  unfold readMaps
  dsimp only
  rw [descs_getmemmap, fillFreemap_eq, if_neg (Nat.not_lt_zero k), Nat.sub_zero]

/-- A second map that fits is what the freemap is filled from. -/
lemma freeMemory_prefix_counted (h : D₂.length ≤ D₁.length) : freeMemory D₂ <+:
    freeOf (records (readMaps sizeofMemmapT size D₁ D₂ b f).memmap 0 D₁.length) := by
  refine freeMemory_prefix_records h fun k hk => ?_
  have hfit : D₂.length * sizeofMemmapT ≤ (getmemmap sizeofMemmapT D₁ size b).1 :=
    Nat.mul_le_mul_right _ h
  unfold readMaps
  dsimp only
  rw [getmemmap, if_pos hfit]
  exact if_pos (by rwa [Nat.mul_comm])

/-- One that does not fit leaves the records that were counted. -/
lemma records_counted (h : ¬ D₂.length ≤ D₁.length) :
    records (readMaps sizeofMemmapT size D₁ D₂ b f).memmap 0 D₁.length = counted size D₁ b := by
  have hfit : ¬ D₂.length * sizeofMemmapT ≤ (getmemmap sizeofMemmapT D₁ size b).1 := fun hle =>
    h (Nat.le_of_mul_le_mul_right hle (by decide))
  rw [← records_getmemmap]
  unfold readMaps
  dsimp only
  rw [getmemmap, if_neg hfit, shrinkMap, if_neg (not_not.mpr rfl)]

/-- The freemap lists the free memory of a second map that fits, as far as it has entries. -/
lemma listed_fits (h : D₂.length ≤ D₁.length)
    (hk : (freeOf (counted size D₁ b)).length ≤ (freeMemory D₂).length) :
    listed (readMaps sizeofMemmapT size D₁ D₂ b f) =
      regionBytes ((freeMemory D₂).take (freeOf (counted size D₁ b)).length) := by
  have hpre : freeMemory D₂ <+: freeOf
      (records (readMaps sizeofMemmapT size D₁ D₂ b f).memmap 0 D₁.length) :=
    freeMemory_prefix_counted h
  unfold listed
  rw [fmDescs_counted]
  congr 1
  refine List.ext_getElem (by simp [hk]) fun i hi hi' => ?_
  rw [List.length_map, List.length_range] at hi
  have hlt : i < (freeMemory D₂).length := hi.trans_le hk
  rw [List.getElem_map, List.getElem_range, List.getElem_take, freemap_counted,
    List.getD_eq_getElem _ _ (hlt.trans_le hpre.length_le)]
  exact (hpre.getElem hlt).symm

/-- With entries for all of it, the freemap lists all of it. -/
lemma subset_listed (h : D₂.length ≤ D₁.length)
    (hk : (freeMemory D₂).length ≤ (freeOf (counted size D₁ b)).length) :
    regionBytes (freeMemory D₂) ⊆ listed (readMaps sizeofMemmapT size D₁ D₂ b f) := by
  have hpre : freeMemory D₂ <+: freeOf
      (records (readMaps sizeofMemmapT size D₁ D₂ b f).memmap 0 D₁.length) :=
    freeMemory_prefix_counted h
  refine regionBytes_mono fun m hm => ?_
  obtain ⟨i, hi, rfl⟩ := List.getElem_of_mem hm
  rw [List.mem_map]
  refine ⟨i, ?_, ?_⟩
  · rw [fmDescs_counted]
    exact List.mem_range.mpr (hi.trans_le hk)
  · rw [freemap_counted, List.getD_eq_getElem _ _ (hi.trans_le hpre.length_le)]
    exact (hpre.getElem hi).symm

/-- If it does not fit, the freemap lists what was counted. -/
lemma listed_misfit (h : ¬ D₂.length ≤ D₁.length) :
    listed (readMaps sizeofMemmapT size D₁ D₂ b f) =
      regionBytes (freeOf (counted size D₁ b)) := by
  unfold listed
  rw [fmDescs_counted]
  congr 1
  refine List.ext_getElem (by simp) fun i hi hi' => ?_
  rw [List.getElem_map, List.getElem_range, freemap_counted, records_counted h,
    List.getD_eq_getElem _ _ hi']

end readMaps

lemma readMap_info {elf : Elf} {b : Bytes} {f : ℕ → MemoryT} {frame : ℕ → ℕ → ℕ} {u : σ}
    {n : Snapshot σ} (hrun : readMap F elf b f frame u = some n) :
    n.info = readMaps F.mmDescSize ((F.memmap u).length * F.mmDescSize) (F.memmap n.first)
      (F.memmap n.state.fw) b f := by
  obtain ⟨mm, h₁, hrun⟩ := Option.bind_eq_some_iff.mp hrun
  dsimp only at hrun
  split at hrun
  · cases hrun
  obtain ⟨k, h₂, hrun⟩ := Option.bind_eq_some_iff.mp hrun
  obtain ⟨fm, h₃, rfl⟩ := Option.map_eq_some_iff.mp hrun
  rfl

/-- **The freemap and the memory in use.** A last map that still fits is listed without regard
to what is allocated after it. So the freemap excludes the memory in use only if it is too short
for that map and all of the later pages are in the regions that it leaves out. If the map no
longer fits, the freemap has the records that were counted, with all that was allocated from
them. -/
theorem excludes_iff (F : Firmware σ) (A : Allocator F) (hd : F.mmDescSize = sizeofMemmapT)
    (pml4 fuel : ℕ) (elf : Elf) (b : Bytes) (f : ℕ → MemoryT) (frame : ℕ → ℕ → ℕ) (u : σ)
    (h : Handoff σ) (hrun : boot F pml4 fuel elf b f frame u = some h) :
    let D₁ := F.memmap h.snapshot.first
    let D₂ := F.memmap h.snapshot.state.fw
    let seen := freeOf (counted ((F.memmap u).length * sizeofMemmapT) D₁ b)
    h.Excludes ↔
      if D₂.length ≤ D₁.length then
        seen.length < (freeMemory D₂).length ∧ ∀ g ∈ h.state.log,
          Disjoint (grantBytes g) (regionBytes ((freeMemory D₂).take seen.length))
      else ∀ g ∈ h.state.log ++ h.snapshot.state.log,
        Disjoint (grantBytes g) (regionBytes seen) := by
  intro D₁ D₂ seen
  obtain ⟨n, hread, hrun⟩ := Option.bind_eq_some_iff.mp hrun
  obtain ⟨rfl, hlate, -, hst⟩ := enterKernel_granted hrun
  have hinfo := readMap_info hread
  rw [hd] at hinfo
  obtain ⟨hlateg, -, -⟩ := A.grants hlate
  -- the map of the freemap does not have what was allocated before it
  have hbefore : ∀ g ∈ h.snapshot.state.log, Disjoint (grantBytes g)
      (regionBytes (freeMemory D₂)) := fun g hg =>
    (A.disjoint h.snapshot.state.fw).mono_left ((A.readMap hread).1 g hg)
  unfold Handoff.Excludes
  rw [hinfo]
  split
  · rename_i hfit
    rcases Nat.lt_or_ge seen.length (freeMemory D₂).length with hk | hk
    · rw [listed_fits hfit hk.le]
      constructor
      · exact fun hex => ⟨hk, fun g hg => hex g (List.mem_append_left _ hg)⟩
      · rintro ⟨-, hex⟩ g hg
        rcases List.mem_append.mp hg with hg | hg
        · exact hex g hg
        · exact (hbefore g hg).mono_right (regionBytes_mono (List.take_subset _ _))
    · -- the stack is in the free memory of the map
      refine iff_of_false (fun hex => ?_) fun hlt => absurd hlt.1 (Nat.not_lt.mpr hk)
      have hfree : h.kStackPaddr ∈ regionBytes (freeMemory D₂) :=
        (hlateg _ hst).1 ⟨le_rfl, by simp [PAGE_SIZE]⟩
      exact Set.disjoint_left.mp (hex _ (List.mem_append_left _ hst))
        ⟨le_rfl, by simp [PAGE_SIZE]⟩ (subset_listed hfit hk hfree)
  · rename_i hfit
    rw [listed_misfit hfit]


lemma freeMemory_small {u : ℕ} (hu : u ≤ 64) :
    freeMemory (smallFirmware.memmap u) = [⟨0x200000 + u * PAGE_SIZE, 64 - u⟩] := by
  have hall : ∀ u < 65, freeMemory (smallFirmware.memmap u) =
      [⟨0x200000 + u * PAGE_SIZE, 64 - u⟩] := by decide +kernel
  exact hall u (Nat.lt_succ_of_le hu)

lemma mem_freeBytes_small {u x : ℕ} (hu : u ≤ 64) : x ∈ freeBytes smallFirmware u ↔
    0x200000 + u * PAGE_SIZE ≤ x ∧ x < 0x200000 + 64 * PAGE_SIZE := by
  unfold freeBytes regionBytes
  rw [freeMemory_small hu]
  simp only [List.mem_singleton, exists_eq_left, Set.mem_ofPred_eq]
  refine and_congr_right fun _ => ?_
  rw [Nat.add_assoc, ← Nat.add_mul, Nat.add_sub_cancel' hu]

lemma pagealloc_small {u type n a u' : ℕ} (h : smallFirmware.pagealloc u type n = some (a, u')) :
    u + n ≤ 64 ∧ a = 0x200000 + u * PAGE_SIZE ∧ u' = u + n := by
  obtain ⟨hle, h⟩ := Option.ite_none_right_eq_some.mp h
  have hau := Option.some.inj h
  exact ⟨hle, (congrArg Prod.fst hau).symm, (congrArg Prod.snd hau).symm⟩

/-- The small firmware takes the pages in order. The megabyte below them is the bootloader's. -/
def smallTaken (u : ℕ) : Set ℕ := {x | u ≤ 64 ∧ 0x100000 ≤ x ∧ x < 0x200000 + u * PAGE_SIZE}

lemma disjoint_small (u : ℕ) : Disjoint (smallTaken u) (freeBytes smallFirmware u) := by
  refine Set.disjoint_left.mpr fun x ⟨hu, _, hx⟩ hfree => ?_
  have := ((mem_freeBytes_small hu).mp hfree).1
  omega

lemma grant_small (u type : ℕ) (g : Grant) (u' : ℕ)
    (h : smallFirmware.pagealloc u type g.pages = some (g.addr, u')) :
    grantBytes g ⊆ freeBytes smallFirmware u ∧ grantBytes g ⊆ smallTaken u' := by
  obtain ⟨hle, ha, rfl⟩ := pagealloc_small h
  unfold grantBytes
  rw [ha, Nat.add_assoc, ← Nat.add_mul]
  constructor
  · rintro x ⟨hx, hx'⟩
    have := Nat.mul_le_mul_right PAGE_SIZE hle
    exact (mem_freeBytes_small (by omega)).mpr ⟨hx, by omega⟩
  · rintro x ⟨hx, hx'⟩
    exact ⟨hle, by omega, hx'⟩

lemma mono_small (u type : ℕ) (g : Grant) (u' : ℕ)
    (h : smallFirmware.pagealloc u type g.pages = some (g.addr, u')) :
    smallTaken u ⊆ smallTaken u' ∧ freeBytes smallFirmware u' ⊆ freeBytes smallFirmware u := by
  obtain ⟨hle, -, rfl⟩ := pagealloc_small h
  have := Nat.mul_le_mul_right PAGE_SIZE (Nat.le_add_right u g.pages)
  constructor
  · rintro x ⟨-, hx, hx'⟩
    exact ⟨hle, hx, by omega⟩
  · intro x hx
    obtain ⟨hx, hx'⟩ := (mem_freeBytes_small hle).mp hx
    exact (mem_freeBytes_small (by omega)).mpr ⟨by omega, hx'⟩

def smallAllocator : Allocator smallFirmware :=
  ⟨smallTaken, disjoint_small, grant_small, mono_small, fun _ => subset_rfl⟩

theorem excludes_iff_small : ∃ h, smallBoot = some h ∧
    (h.Excludes ↔
      let D₁ := smallFirmware.memmap h.snapshot.first
      let D₂ := smallFirmware.memmap h.snapshot.state.fw
      let seen := freeOf (counted ((smallFirmware.memmap 0).length * sizeofMemmapT) D₁ fun _ => 0)
      if D₂.length ≤ D₁.length then
        seen.length < (freeMemory D₂).length ∧ ∀ g ∈ h.state.log,
          Disjoint (grantBytes g) (regionBytes ((freeMemory D₂).take seen.length))
      else ∀ g ∈ h.state.log ++ h.snapshot.state.log,
        Disjoint (grantBytes g) (regionBytes seen)) := by
  obtain ⟨h, hrun, -⟩ := smallBoot_eq
  exact ⟨h, hrun, excludes_iff smallFirmware smallAllocator rfl _ _ _ _ _ _ _ h hrun⟩

/-- On the small firmware the freemap lists the page of the stack. -/
theorem not_excludes : ¬ ∀ h, smallBoot = some h → h.Excludes := by
  obtain ⟨h, hrun, hn, -, -, hst, -⟩ := smallBoot_eq
  intro hall
  have hlisted : (List.range smallSnapshot.info.fmDescs).map smallSnapshot.info.freemap =
    [⟨0x203000, 61⟩] := by decide +kernel
  have hmem : h.kStackPaddr ∈ listed h.snapshot.info := by
    unfold listed
    rw [hn, hlisted, hst]
    refine ⟨⟨0x203000, 61⟩, List.mem_cons_self, ?_, ?_⟩ <;> norm_num [PAGE_SIZE]
  have hex := hall h hrun
  rw [smallBoot, boot] at hrun
  obtain ⟨n, -, hrun'⟩ := Option.bind_eq_some_iff.mp hrun
  obtain ⟨-, -, -, hlog⟩ := enterKernel_granted hrun'
  exact Set.disjoint_left.mp (hex _ (List.mem_append_left _ hlog))
    ⟨le_rfl, by simp [PAGE_SIZE]⟩ hmem

end FlameOS.Bootloader
