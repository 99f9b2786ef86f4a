import FlameOS.BootMemory
import FlameOS.Bootloader
import Mathlib

/-!
The loading of the kernel's segments in `boot`. The file lies in memory, and its headers are read
again in every round of the loop.
-/

namespace FlameOS.ElfLoad

open FlameOS.Word FlameOS.BootMemory
open FlameOS.MemoryMap (Bytes le le_congr)
open FlameOS.Bootloader (PT_LOAD kernelVaddr kernelMemSize sizeLoop)

/-! ### The loop -/

/-- `elf_pheader_t`, as far as `boot` reads it. -/
structure ElfPheader where
  type : ℕ
  offset : ℕ
  vaddr : ℕ
  filesz : ℕ
  memsz : ℕ

def sizeofElfPheader : ℕ := 56

def pheaderAt (m : Bytes) (a : ℕ) : ElfPheader :=
  ⟨le m 4 a, le m 8 (a + 8), le m 8 (a + 16), le m 8 (a + 32), le m 8 (a + 40)⟩

/-- The fields `sig`, `e_phoff` and `e_phnum` of the header of the file. -/
def sig (m : Bytes) (kfile : ℕ) : ℕ := le m 4 kfile
def ePhoff (m : Bytes) (kfile : ℕ) : ℕ := le m 8 (kfile + 32)
def ePhnum (m : Bytes) (kfile : ℕ) : ℕ := le m 2 (kfile + 56)

def loadSegment (kfile kernel a : ℕ) (r : Ram) : Ram :=
  let p := pheaderAt r.mem a
  if p.type = PT_LOAD then
    let r := memcpy p.filesz (add64 kernel (sub64 p.vaddr kernelVaddr)) (add64 kfile p.offset) r
    let p := pheaderAt r.mem a
    memzero (sub64 p.memsz p.filesz) (add64 (add64 kernel (sub64 p.vaddr kernelVaddr)) p.filesz) r
  else r

def loadLoop (kfile kernel pheader : ℕ) : ℕ → ℕ → Ram → Ram
  | 0, _, r => r
  | fuel + 1, i, r =>
    if i < ePhnum r.mem kfile then
      loadLoop kfile kernel pheader fuel (i + 1)
        (loadSegment kfile kernel (add64 pheader (sizeofElfPheader * i)) r)
    else r

/-- The loading of the segments. `e_phnum` has 16 bits, so the loop ends in time. -/
def loadKernel (kfile kernel : ℕ) (m : Bytes) : Ram :=
  loadLoop kfile kernel (add64 kfile (ePhoff m kfile)) 0x10000 0 ⟨m, []⟩

/-! ### The image -/

def pheader (m : Bytes) (kfile i : ℕ) : ElfPheader :=
  pheaderAt m (add64 (add64 kfile (ePhoff m kfile)) (sizeofElfPheader * i))

def elfOf (m : Bytes) (kfile : ℕ) : Bootloader.Elf where
  magic := sig m kfile
  pheader := (List.range (ePhnum m kfile)).map fun i =>
    ⟨(pheader m kfile i).type, (pheader m kfile i).vaddr, (pheader m kfile i).memsz⟩

def kernelPages (m : Bytes) (kfile : ℕ) : ℕ := CEILING (kernelMemSize (elfOf m kfile)) PAGE_SIZE

def ElfPheader.range (p : ElfPheader) : Set ℕ := Set.Ico p.vaddr (p.vaddr + p.memsz)

/-- An image of `len` bytes at `kfile`: its headers and contents lie inside it, and its segments
do not meet, do not wrap and begin at the kernel's address. -/
structure Image (m : Bytes) (kfile len : ℕ) : Prop where
  sig : sig m kfile = 0x464c457f
  header : 64 ≤ len
  pheaders : ePhoff m kfile + sizeofElfPheader * ePhnum m kfile ≤ len
  inside : kfile + len ≤ 2 ^ 64
  contents : ∀ i < ePhnum m kfile, (pheader m kfile i).type = PT_LOAD →
    ∀ o < (pheader m kfile i).filesz, (pheader m kfile i).offset + o < len
  filesz_le : ∀ i < ePhnum m kfile, (pheader m kfile i).type = PT_LOAD →
    (pheader m kfile i).filesz ≤ (pheader m kfile i).memsz
  noWrap : ∀ i < ePhnum m kfile, (pheader m kfile i).type = PT_LOAD →
    (pheader m kfile i).vaddr + (pheader m kfile i).memsz < 2 ^ 64
  apart : ∀ i < ePhnum m kfile, ∀ j < ePhnum m kfile, i ≠ j →
    (pheader m kfile i).type = PT_LOAD → (pheader m kfile j).type = PT_LOAD →
    Disjoint (pheader m kfile i).range (pheader m kfile j).range
  lowest : ∃ i < ePhnum m kfile, (pheader m kfile i).type = PT_LOAD ∧
    (pheader m kfile i).vaddr = kernelVaddr
  lowest_le : ∀ i < ePhnum m kfile, (pheader m kfile i).type = PT_LOAD →
    kernelVaddr ≤ (pheader m kfile i).vaddr

/-! ### The size of the kernel -/

/-- The first result of `sizeLoop` is the greatest end. -/
lemma sizeLoop_fst_le_iff {ps : List Bootloader.Phdr} {size lowest x : ℕ} :
    (sizeLoop ps size lowest).1 ≤ x ↔
      size ≤ x ∧ ∀ p ∈ ps, p.type = PT_LOAD → add64 p.vaddr p.memsz ≤ x := by
  induction ps generalizing size lowest with
  | nil => simp [sizeLoop]
  | cons p ps ih =>
    rw [sizeLoop, List.forall_mem_cons]
    by_cases hp : p.type = PT_LOAD
    · rw [if_pos hp, ih]
      split <;> grind
    · rw [if_neg hp, ih]
      simp only [hp, false_imp_iff, true_and]

/-- The second one is the least beginning. -/
lemma le_sizeLoop_snd_iff {ps : List Bootloader.Phdr} {size lowest x : ℕ} :
    x ≤ (sizeLoop ps size lowest).2 ↔
      x ≤ lowest ∧ ∀ p ∈ ps, p.type = PT_LOAD → x ≤ p.vaddr := by
  induction ps generalizing size lowest with
  | nil => simp [sizeLoop]
  | cons p ps ih =>
    rw [sizeLoop, List.forall_mem_cons]
    by_cases hp : p.type = PT_LOAD
    · rw [if_pos hp, ih]
      split <;> grind
    · rw [if_neg hp, ih]
      simp only [hp, false_imp_iff, true_and]

section image

variable {m : Bytes} {kfile len kernel i : ℕ}

lemma mem_pheaders {Q : Bootloader.Phdr → Prop} (h : ∀ p ∈ (elfOf m kfile).pheader, Q p)
    (hi : i < ePhnum m kfile) :
    Q ⟨(pheader m kfile i).type, (pheader m kfile i).vaddr, (pheader m kfile i).memsz⟩ :=
  h _ (List.mem_map.mpr ⟨i, List.mem_range.mpr hi, rfl⟩)

namespace Image

variable (h : Image m kfile len)

include h

/-- The kernel reaches from the kernel's address to the end of the last segment. -/
lemma le_kernelMemSize (hi : i < ePhnum m kfile) (hload : (pheader m kfile i).type = PT_LOAD) :
    (pheader m kfile i).vaddr + (pheader m kfile i).memsz ≤
        kernelVaddr + kernelMemSize (elfOf m kfile) ∧
      kernelMemSize (elfOf m kfile) + PAGE_SIZE ≤ 2 ^ 64 := by
  have hlowest : (sizeLoop (elfOf m kfile).pheader 0 0xFFFFFFFFFFFFFFFF).2 = kernelVaddr := by
    obtain ⟨j, hj, hjload, hv⟩ := h.lowest
    refine le_antisymm ?_ (le_sizeLoop_snd_iff.mpr ⟨by decide, fun p hp hpload => ?_⟩)
    · have hall := (le_sizeLoop_snd_iff.mp (le_refl
        (sizeLoop (elfOf m kfile).pheader 0 0xFFFFFFFFFFFFFFFF).2)).2
      exact (mem_pheaders hall hj hjload).trans hv.le
    · obtain ⟨k, hk, rfl⟩ := List.mem_map.mp hp
      exact h.lowest_le k (List.mem_range.mp hk) hpload
  have hend := (sizeLoop_fst_le_iff.mp (le_refl
    (sizeLoop (elfOf m kfile).pheader 0 0xFFFFFFFFFFFFFFFF).1)).2
  have hi_end := mem_pheaders hend hi hload
  rw [add64_eq (h.noWrap i hi hload)] at hi_end
  have hlt : (sizeLoop (elfOf m kfile).pheader 0 0xFFFFFFFFFFFFFFFF).1 ≤ 2 ^ 64 - 1 :=
    sizeLoop_fst_le_iff.mpr ⟨by decide, fun p _ _ => Nat.le_sub_one_of_lt (Nat.mod_lt _ (by decide))⟩
  have hle := h.lowest_le i hi hload
  rw [kernelMemSize, hlowest, sub64_eq (by omega) (by omega)]
  unfold kernelVaddr PAGE_SIZE at *
  omega

lemma segment_fits (hi : i < ePhnum m kfile) (hload : (pheader m kfile i).type = PT_LOAD) :
    (pheader m kfile i).vaddr - kernelVaddr + (pheader m kfile i).memsz ≤
      PAGE_SIZE * kernelPages m kfile := by
  obtain ⟨hend, hsize⟩ := h.le_kernelMemSize hi hload
  have hle := h.lowest_le i hi hload
  rw [kernelPages, ceiling_page hsize]
  unfold PAGE_SIZE
  omega

lemma pheader_inside (hi : i < ePhnum m kfile) :
    add64 (add64 kfile (ePhoff m kfile)) (sizeofElfPheader * i) =
        kfile + (ePhoff m kfile + sizeofElfPheader * i) ∧
      ePhoff m kfile + sizeofElfPheader * i + sizeofElfPheader ≤ len := by
  have htable := h.pheaders
  have hin := h.inside
  have hmul : sizeofElfPheader * (i + 1) ≤ sizeofElfPheader * ePhnum m kfile :=
    Nat.mul_le_mul_left _ hi
  unfold sizeofElfPheader at *
  rw [add64_eq (a := kfile) (by omega), add64_eq (by omega)]
  omega

end Image

lemma pheaderAt_congr {m' : Bytes} {a : ℕ} (h : ∀ t < sizeofElfPheader, m' (a + t) = m (a + t)) :
    pheaderAt m' a = pheaderAt m a := by
  unfold sizeofElfPheader at h
  have hfield : ∀ n o, o + n ≤ 56 → le m' n (a + o) = le m n (a + o) := fun n o ho =>
    le_congr fun t ht => by
      rw [Nat.add_assoc]
      exact h (o + t) (by omega)
  have htype := hfield 4 0 (by decide)
  rw [Nat.add_zero] at htype
  rw [pheaderAt, pheaderAt, htype, hfield 8 8 (by decide), hfield 8 16 (by decide),
    hfield 8 32 (by decide), hfield 8 40 (by decide)]

def SameFile (m : Bytes) (kfile len : ℕ) (m' : Bytes) : Prop :=
  ∀ x, kfile ≤ x → x < kfile + len → m' x = m x

lemma SameFile.pheaderAt (h : Image m kfile len) {m' : Bytes} (hsame : SameFile m kfile len m')
    (hi : i < ePhnum m kfile) :
    pheaderAt m' (add64 (add64 kfile (ePhoff m kfile)) (sizeofElfPheader * i)) =
      pheader m kfile i := by
  obtain ⟨hat, hin⟩ := h.pheader_inside hi
  rw [pheader, hat]
  exact pheaderAt_congr fun t ht => hsame _ (by omega) (by omega)

lemma SameFile.ePhnum (h : Image m kfile len) {m' : Bytes} (hsame : SameFile m kfile len m') :
    ePhnum m' kfile = ePhnum m kfile := by
  have hlen := h.header
  exact le_congr fun t ht => hsame _ (by omega) (by omega)

def segmentByte (m : Bytes) (kfile : ℕ) (p : ElfPheader) (o : ℕ) : UInt8 :=
  if o < p.filesz then m (kfile + p.offset + o) else 0

def loadedAt (kernel : ℕ) (p : ElfPheader) : ℕ := kernel + (p.vaddr - kernelVaddr)

/-- The pages at `kernel` are in memory, and not where the file is. -/
structure Granted (m : Bytes) (kfile len kernel : ℕ) : Prop where
  inside : kernel + PAGE_SIZE * kernelPages m kfile ≤ 2 ^ 64
  apart : kfile + len ≤ kernel ∨ kernel + PAGE_SIZE * kernelPages m kfile ≤ kfile

lemma loadedAt_fits (h : Image m kfile len) (kernel : ℕ) (hi : i < ePhnum m kfile)
    (hload : (pheader m kfile i).type = PT_LOAD) :
    kernel ≤ loadedAt kernel (pheader m kfile i) ∧
      loadedAt kernel (pheader m kfile i) + (pheader m kfile i).memsz ≤
        kernel + PAGE_SIZE * kernelPages m kfile := by
  have hfits := h.segment_fits hi hload
  unfold loadedAt
  omega

lemma memcpy_segment (h : Image m kfile len) (hg : Granted m kfile len kernel) {r : Ram}
    (hsame : SameFile m kfile len r.mem) (hi : i < ePhnum m kfile)
    (hload : (pheader m kfile i).type = PT_LOAD) :
    Stored r (memcpy (pheader m kfile i).filesz (loadedAt kernel (pheader m kfile i) % 2 ^ 64)
        (add64 kfile (pheader m kfile i).offset) r)
      (loadedAt kernel (pheader m kfile i)) (pheader m kfile i).filesz
      fun k => m (kfile + (pheader m kfile i).offset + k) := by
  have hcontents := h.contents i hi hload
  have hfilesz := h.filesz_le i hi hload
  have hat := loadedAt_fits h kernel hi hload
  have hfile := h.inside
  have hin := hg.inside
  have hapart := hg.apart
  rcases Nat.eq_zero_or_pos (pheader m kfile i).filesz with h0 | hpos
  · rw [h0]
    exact Stored.zero r _ _
  · have hlast := hcontents ((pheader m kfile i).filesz - 1) (by omega)
    refine (memcpy_stored (by omega) (by omega) (by omega) r).congr fun k hk => ?_
    have hlt := hcontents k hk
    exact hsame _ (by omega) (by omega)

lemma loadSegment_stored (h : Image m kfile len) (hg : Granted m kfile len kernel) {r : Ram}
    (hsame : SameFile m kfile len r.mem) (hi : i < ePhnum m kfile)
    (hload : (pheader m kfile i).type = PT_LOAD) :
    Stored r (loadSegment kfile kernel
        (add64 (add64 kfile (ePhoff m kfile)) (sizeofElfPheader * i)) r)
      (loadedAt kernel (pheader m kfile i)) (pheader m kfile i).memsz
      (segmentByte m kfile (pheader m kfile i)) := by
  have hle := h.lowest_le i hi hload
  have hfilesz := h.filesz_le i hi hload
  have hwrap := h.noWrap i hi hload
  have hat := loadedAt_fits h kernel hi hload
  have hin := hg.inside
  have hdest : add64 kernel (sub64 (pheader m kfile i).vaddr kernelVaddr) =
      loadedAt kernel (pheader m kfile i) % 2 ^ 64 := by
    rw [sub64_eq hle (by omega), add64, loadedAt]
  have hcopy := memcpy_segment h hg hsame hi hload
  -- the copy leaves the headers alone
  have hsame' : SameFile m kfile len (memcpy (pheader m kfile i).filesz
      (loadedAt kernel (pheader m kfile i) % 2 ^ 64) (add64 kfile (pheader m kfile i).offset)
      r).mem := by
    intro x hx hx'
    have hapart := hg.apart
    rw [hcopy.mem_of_notMem (by omega), hsame x hx hx']
  have hzero := memzero_stored (d := loadedAt kernel (pheader m kfile i) + (pheader m kfile i).filesz)
    (n := (pheader m kfile i).memsz - (pheader m kfile i).filesz) (by omega)
    (memcpy (pheader m kfile i).filesz (loadedAt kernel (pheader m kfile i) % 2 ^ 64)
      (add64 kfile (pheader m kfile i).offset) r)
  have hboth := hcopy.trans hzero
  rw [Nat.add_sub_cancel' hfilesz] at hboth
  rw [loadSegment]
  dsimp only
  rw [hsame.pheaderAt h hi, if_pos hload, hdest, hsame'.pheaderAt h hi, sub64_eq hfilesz (by omega),
    hdest, add64_mod]
  exact hboth

/-! ### The run -/

/-- The first `i` segments are loaded, the file is as before, and only the pages of the kernel
have been stored to. -/
structure Loaded (m : Bytes) (kfile len kernel i : ℕ) (r : Ram) : Prop where
  file : SameFile m kfile len r.mem
  segments : ∀ j < i, (pheader m kfile j).type = PT_LOAD → ∀ o < (pheader m kfile j).memsz,
    r.mem (loadedAt kernel (pheader m kfile j) + o) = segmentByte m kfile (pheader m kfile j) o
  stores : ∀ a ∈ r.stores, kernel ≤ a ∧ a < kernel + PAGE_SIZE * kernelPages m kfile

lemma loadedAt_ne (h : Image m kfile len) {j o : ℕ} (hi : i < ePhnum m kfile)
    (hj : j < ePhnum m kfile) (hij : i ≠ j) (hiload : (pheader m kfile i).type = PT_LOAD)
    (hjload : (pheader m kfile j).type = PT_LOAD) (ho : o < (pheader m kfile j).memsz) :
    loadedAt kernel (pheader m kfile j) + o < loadedAt kernel (pheader m kfile i) ∨
      loadedAt kernel (pheader m kfile i) + (pheader m kfile i).memsz ≤
        loadedAt kernel (pheader m kfile j) + o := by
  by_contra hmeet
  have hile := h.lowest_le i hi hiload
  have hjle := h.lowest_le j hj hjload
  unfold loadedAt at hmeet
  have hi_mem : (pheader m kfile j).vaddr + o ∈ (pheader m kfile i).range :=
    ⟨by omega, by omega⟩
  have hj_mem : (pheader m kfile j).vaddr + o ∈ (pheader m kfile j).range :=
    ⟨by omega, by omega⟩
  exact Set.disjoint_left.mp (h.apart i hi j hj hij hiload hjload) hi_mem hj_mem

lemma Loaded.step (h : Image m kfile len) (hg : Granted m kfile len kernel) {r : Ram}
    (hi : i < ePhnum m kfile) (hr : Loaded m kfile len kernel i r) :
    Loaded m kfile len kernel (i + 1) (loadSegment kfile kernel
      (add64 (add64 kfile (ePhoff m kfile)) (sizeofElfPheader * i)) r) := by
  by_cases hload : (pheader m kfile i).type = PT_LOAD
  · have hstored := loadSegment_stored h hg hr.file hi hload
    have hat := loadedAt_fits h kernel hi hload
    refine ⟨fun x hx hx' => ?_, fun j hj hjload o ho => ?_, fun a ha => ?_⟩
    · have hapart := hg.apart
      rw [hstored.mem_of_notMem (by omega), hr.file x hx hx']
    · by_cases hji : j = i
      · subst hji
        exact hstored.mem_of_mem ho
      · rw [hstored.mem_of_notMem (loadedAt_ne h hi (by omega) (Ne.symm hji) hload hjload ho),
          hr.segments j (by omega) hjload o ho]
    · rcases hstored.stores a ha with ha | ha
      · exact hr.stores a ha
      · omega
  · have hskip : loadSegment kfile kernel
        (add64 (add64 kfile (ePhoff m kfile)) (sizeofElfPheader * i)) r = r := by
      rw [loadSegment]
      dsimp only
      rw [hr.file.pheaderAt h hi, if_neg hload]
    rw [hskip]
    refine ⟨hr.file, fun j hj hjload => ?_, hr.stores⟩
    have hji : j ≠ i := fun hji => hload (hji ▸ hjload)
    exact hr.segments j (by omega) hjload

lemma Loaded.run (h : Image m kfile len) (hg : Granted m kfile len kernel) {fuel : ℕ} {r : Ram}
    (hfuel : ePhnum m kfile < i + fuel) (hi : i ≤ ePhnum m kfile)
    (hr : Loaded m kfile len kernel i r) :
    Loaded m kfile len kernel (ePhnum m kfile)
      (loadLoop kfile kernel (add64 kfile (ePhoff m kfile)) fuel i r) := by
  induction fuel generalizing i r with
  | zero => exact absurd hfuel (by omega)
  | succ fuel ih =>
    rw [loadLoop, hr.file.ePhnum h]
    by_cases hlt : i < ePhnum m kfile
    · rw [if_pos hlt]
      exact ih (by omega) hlt (hr.step h hg hlt)
    · obtain rfl : i = ePhnum m kfile := by omega
      rw [if_neg hlt]
      exact hr

lemma ePhnum_lt (m : Bytes) (kfile : ℕ) : ePhnum m kfile < 0x10000 := by
  have h0 := (m (kfile + 56)).toNat_lt
  have h1 := (m (kfile + 56 + 1)).toNat_lt
  rw [ePhnum, le, le, le]
  omega

/-- **The kernel is loaded.** For an image whose segments do not meet, the loop leaves in every
segment the bytes of the file and zeros behind them, and stores to the pages of the kernel
only. -/
theorem loadKernel_loads (m : Bytes) (kfile len kernel : ℕ) (h : Image m kfile len)
    (hg : Granted m kfile len kernel) :
    (∀ i < ePhnum m kfile, (pheader m kfile i).type = PT_LOAD →
      ∀ o < (pheader m kfile i).memsz,
        (loadKernel kfile kernel m).mem (kernel + ((pheader m kfile i).vaddr - kernelVaddr) + o) =
          if o < (pheader m kfile i).filesz then m (kfile + (pheader m kfile i).offset + o)
          else 0) ∧
      ∀ a ∈ (loadKernel kfile kernel m).stores,
        kernel ≤ a ∧ a < kernel + PAGE_SIZE * kernelPages m kfile := by
  have hstart : Loaded m kfile len kernel 0 ⟨m, []⟩ :=
    ⟨fun _ _ _ => rfl, fun j hj => absurd hj (Nat.not_lt_zero j),
      fun a ha => absurd ha List.not_mem_nil⟩
  have hfuel : ePhnum m kfile < 0 + 0x10000 := by
    rw [Nat.zero_add]
    exact ePhnum_lt m kfile
  have hdone := hstart.run h hg hfuel (Nat.zero_le _)
  exact ⟨hdone.segments, hdone.stores⟩

end image

def field (n v : ℕ) : List UInt8 := (List.range n).map fun i => (v / 256 ^ i).toUInt8

def phdrBytes (type offset vaddr filesz memsz : ℕ) : List UInt8 :=
  field 4 type ++ field 4 0 ++ field 8 offset ++ field 8 vaddr ++ field 8 0 ++ field 8 filesz ++
    field 8 memsz ++ field 8 0

/-- A file at `0x10000` with a note and two segments, of 3 and 2 bytes. -/
def smallMem : Bytes := fun x =>
  (field 4 0x464c457f ++ field 28 0 ++ field 8 64 ++ field 16 0 ++ field 2 3 ++ field 6 0 ++
    phdrBytes 1 232 0x1000001000 3 9 ++ phdrBytes 4 0 0 64 64 ++
    phdrBytes 1 235 0x1000000000 2 0x1000 ++ [1, 2, 3, 4, 5]).getD (x - 0x10000) 0

lemma smallImage : Image smallMem 0x10000 237 where
  sig := by decide +kernel
  header := by decide
  pheaders := by decide +kernel
  inside := by decide
  contents := by decide +kernel
  filesz_le := by decide +kernel
  noWrap := by decide +kernel
  apart i hi j hj hij hiload hjload := by
    have hall : ∀ i < ePhnum smallMem 0x10000, ∀ j < ePhnum smallMem 0x10000, i ≠ j →
        (pheader smallMem 0x10000 i).type = PT_LOAD →
        (pheader smallMem 0x10000 j).type = PT_LOAD →
        min ((pheader smallMem 0x10000 i).vaddr + (pheader smallMem 0x10000 i).memsz)
            ((pheader smallMem 0x10000 j).vaddr + (pheader smallMem 0x10000 j).memsz) ≤
          max (pheader smallMem 0x10000 i).vaddr (pheader smallMem 0x10000 j).vaddr := by
      decide +kernel
    exact Set.Ico_disjoint_Ico.mpr (hall i hi j hj hij hiload hjload)
  lowest := ⟨2, by decide +kernel, by decide +kernel, by decide +kernel⟩
  lowest_le := by decide +kernel

lemma smallGranted : Granted smallMem 0x10000 237 0x200000 :=
  ⟨by decide +kernel, Or.inl (by decide)⟩

theorem loadKernel_loads_small :
    (∀ i < ePhnum smallMem 0x10000, (pheader smallMem 0x10000 i).type = PT_LOAD →
      ∀ o < (pheader smallMem 0x10000 i).memsz,
        (loadKernel 0x10000 0x200000 smallMem).mem
            (0x200000 + ((pheader smallMem 0x10000 i).vaddr - kernelVaddr) + o) =
          if o < (pheader smallMem 0x10000 i).filesz then
            smallMem (0x10000 + (pheader smallMem 0x10000 i).offset + o)
          else 0) ∧
      ∀ a ∈ (loadKernel 0x10000 0x200000 smallMem).stores,
        0x200000 ≤ a ∧ a < 0x200000 + PAGE_SIZE * kernelPages smallMem 0x10000 :=
  loadKernel_loads smallMem 0x10000 237 0x200000 smallImage smallGranted

end FlameOS.ElfLoad
