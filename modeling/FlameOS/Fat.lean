import Mathlib

/-!
FAT32 volumes in `FAT.c`: what `fat_setup` keeps of the boot record, the sectors that
`fat_read` and `find_fat_entry` read, and which sector a cluster number is taken for.

`fs_info` counts everything in sectors of 512 bytes from the start of the partition, and the
two clusters that a volume does not have are taken off `data` once and for all.
-/

namespace FlameOS.Fat

def SECTOR_SIZE : ℕ := 512

/-- FAT entries per sector. -/
def FEPS : UInt32 := 128

structure Bootrecord where
  bytesPerSector : UInt16
  sectorsPerCluster : UInt8
  reservedSectors : UInt16
  FATCount : UInt8
  rootEntries : UInt16
  sectorCountSmall : UInt16
  sectorCountLarge : UInt32
  sectorsPerFAT : UInt32
  rootCluster : UInt32

/-- `fat_fs_info`, without the length of the root directory. -/
structure FatFsInfo where
  sectorCount : UInt32
  bytesPerSector : UInt16
  sectorsPerCluster : UInt8
  sectorsPerFat : UInt32
  fatCount : UInt8
  rootEntries : UInt16
  rootSectors : UInt16
  rootCluster : UInt32
  fat : UInt32
  data : UInt32

/-- What `fat_setup` takes over from the boot record. -/
def fatSetup (BPB : Bootrecord) : FatFsInfo :=
  let fat := ((BPB.reservedSectors.toNat * BPB.bytesPerSector.toNat) / SECTOR_SIZE).toUInt32
  { sectorCount :=
      if BPB.sectorCountSmall ≠ 0 then BPB.sectorCountSmall.toUInt32 else BPB.sectorCountLarge
    bytesPerSector := BPB.bytesPerSector
    sectorsPerCluster := BPB.sectorsPerCluster
    sectorsPerFat := BPB.sectorsPerFAT
    fatCount := BPB.FATCount
    rootEntries := BPB.rootEntries
    rootSectors := ((BPB.rootEntries.toNat * 32 + (BPB.bytesPerSector.toNat - 1)) /
      BPB.bytesPerSector.toNat).toUInt16
    rootCluster := BPB.rootCluster
    fat := fat
    data := fat + BPB.FATCount.toUInt32 *
      ((BPB.sectorsPerFAT * BPB.bytesPerSector.toUInt32) / SECTOR_SIZE.toUInt32) - 2 }

/-! ### Sectors -/

abbrev Buffer := ℕ → UInt8

abbrev Disk := ℕ → ℕ → UInt8

/-- `readsectorpio`: the buffer afterwards. The drive gets 48 bits of the address. -/
def readsectorpio (disk : Disk) (lba : UInt64) (count : ℕ) (buffer : Buffer) : Buffer := fun i =>
  if i < count * SECTOR_SIZE then disk (lba.toNat % 2 ^ 48 + i / SECTOR_SIZE) (i % SECTOR_SIZE)
  else buffer i

structure Volume where
  disk : Disk
  partoffset : UInt64
  fsInfo : FatFsInfo

def fatLba (v : Volume) (sector : UInt32) : UInt64 :=
  v.partoffset + v.fsInfo.fat.toUInt64 + sector.toUInt64

def dataLba (v : Volume) (activeCluster : UInt32) : UInt64 :=
  v.partoffset + v.fsInfo.data.toUInt64 +
    (activeCluster * v.fsInfo.sectorsPerCluster.toUInt32).toUInt64

def bytesPerCluster (v : Volume) : UInt32 :=
  v.fsInfo.bytesPerSector.toUInt32 * v.fsInfo.sectorsPerCluster.toUInt32

/-! ### Clusters and their chains -/

def le16 (b₀ b₁ : UInt8) : UInt16 := b₀.toUInt16 ||| b₁.toUInt16 <<< 8

def le32 (b₀ b₁ b₂ b₃ : UInt8) : UInt32 :=
  b₀.toUInt32 ||| b₁.toUInt32 <<< 8 ||| b₂.toUInt32 <<< 16 ||| b₃.toUInt32 <<< 24

def fatWord (FATbuffer : Buffer) (i : UInt32) : UInt32 :=
  let k := 4 * i.toNat
  le32 (FATbuffer k) (FATbuffer (k + 1)) (FATbuffer (k + 2)) (FATbuffer (k + 3))

def fatSector (v : Volume) (sector : UInt32) : Buffer :=
  readsectorpio v.disk (fatLba v sector) 1 fun _ => 0

def fatEntry (v : Volume) (c : UInt32) : UInt32 := fatWord (fatSector v (c / FEPS)) (c % FEPS)

/-- The next cluster is in the low 28 bits. -/
def nextCluster (v : Volume) (c : UInt32) : UInt32 := fatEntry v c &&& 0x0FFFFFFF

/-- The clusters are a chain of the FAT, up to the one whose entry marks the end. -/
def IsChain (v : Volume) : List UInt32 → Prop
  | [] => False
  | [c] => 0x0FFFFFF8 ≤ nextCluster v c
  | c :: d :: cs => nextCluster v c = d ∧ d < 0x0FFFFFF8 ∧ IsChain v (d :: cs)

instance decidableIsChain (v : Volume) : (cs : List UInt32) → Decidable (IsChain v cs)
  | [] => .isFalse id
  | [c] => inferInstanceAs (Decidable (0x0FFFFFF8 ≤ nextCluster v c))
  | c :: d :: cs =>
    haveI := decidableIsChain v (d :: cs)
    inferInstanceAs (Decidable (nextCluster v c = d ∧ d < 0x0FFFFFF8 ∧ IsChain v (d :: cs)))

section chain

variable {v : Volume} {c d : UInt32}

lemma IsChain.tail {cs : List UInt32} (h : IsChain v (c :: d :: cs)) : IsChain v (d :: cs) := h.2.2

lemma IsChain.unique {xs ys : List UInt32} (hx : IsChain v (c :: xs)) (hy : IsChain v (c :: ys)) :
    xs = ys := by
  induction xs generalizing c ys with
  | nil =>
    rcases ys with _ | ⟨y, ys⟩
    · rfl
    · have hend : 0x0FFFFFF8 ≤ nextCluster v c := hx
      rw [hy.1] at hend
      exact absurd hy.2.1 (UInt32.not_lt.mpr hend)
  | cons x xs ih =>
    rcases ys with _ | ⟨y, ys⟩
    · have hend : 0x0FFFFFF8 ≤ nextCluster v c := hy
      rw [hx.1] at hend
      exact absurd hx.2.1 (UInt32.not_lt.mpr hend)
    · obtain rfl : x = y := hx.1.symm.trans hy.1
      rw [ih hx.tail hy.tail]

lemma IsChain.suffix (xs : List UInt32) {ys : List UInt32} (h : IsChain v (xs ++ c :: ys)) :
    IsChain v (c :: ys) := by
  induction xs with
  | nil => exact h
  | cons x xs ih =>
    rcases xs with _ | ⟨y, xs⟩
    · exact IsChain.tail h
    · exact ih (IsChain.tail h)

lemma IsChain.nodup {cs : List UInt32} (h : IsChain v cs) : cs.Nodup := by
  induction cs with
  | nil => exact List.nodup_nil
  | cons c cs ih =>
    have hcs : cs.Nodup := by
      rcases cs with _ | ⟨d, cs⟩
      · exact List.nodup_nil
      · exact ih h.tail
    refine List.nodup_cons.mpr ⟨fun hmem => ?_, hcs⟩
    -- the rest of the chain after the second `c` would be the rest after the first
    obtain ⟨xs, ys, rfl⟩ := List.append_of_mem hmem
    have hys : IsChain v (c :: ys) := IsChain.suffix (c :: xs) h
    have heq := congrArg List.length (h.unique hys)
    rw [List.length_append, List.length_cons] at heq
    omega

lemma IsChain.length_le {cs : List UInt32} (h : IsChain v cs) : cs.length ≤ 2 ^ 32 := by
  have hnd : (cs.map UInt32.toNat).Nodup := h.nodup.map fun _ _ => UInt32.toNat_inj.mp
  have hsub : cs.map UInt32.toNat ⊆ List.range (2 ^ 32) := by
    intro x hx
    obtain ⟨c, -, rfl⟩ := List.mem_map.mp hx
    exact List.mem_range.mpr c.toNat_lt
  have hle := (List.subperm_of_subset hnd hsub).length_le
  rwa [List.length_map, List.length_range] at hle

end chain

abbrev FATEntry := Fin 32 → UInt8

def FATEntry.byte (e : FATEntry) (i : ℕ) : UInt8 := e (Fin.ofNat 32 i)

def FATEntry.attr (e : FATEntry) : UInt8 := e 11
def FATEntry.clusterHigh (e : FATEntry) : UInt16 := le16 (e 20) (e 21)
def FATEntry.clusterLow (e : FATEntry) : UInt16 := le16 (e 26) (e 27)

def FATEntry.cluster (e : FATEntry) : UInt32 :=
  e.clusterHigh.toUInt32 <<< 16 ||| e.clusterLow.toUInt32

def readCluster (v : Volume) (activeCluster : UInt32) (buffer : Buffer) : Buffer :=
  readsectorpio v.disk (dataLba v activeCluster)
    ((v.fsInfo.bytesPerSector.toNat / SECTOR_SIZE) * v.fsInfo.sectorsPerCluster.toNat) buffer

def bytesOf (buffer : Buffer) (start n : ℕ) : List UInt8 :=
  (List.range n).map fun i => buffer (start + i)

/-! ### Where a cluster lies -/

/-- The boot record of a FAT32 volume at the sector `loc` that has a cluster `n`. -/
structure Geometry (BPB : Bootrecord) (loc : UInt64) (n : UInt32) : Prop where
  bytesPerSector : BPB.bytesPerSector = 512 ∨ BPB.bytesPerSector = 1024 ∨
    BPB.bytesPerSector = 2048 ∨ BPB.bytesPerSector = 4096
  sectorsPerCluster : ∃ e ≤ 7, BPB.sectorsPerCluster.toNat = 2 ^ e
  reserved : 0 < BPB.reservedSectors.toNat
  fats : 0 < BPB.FATCount.toNat
  low : 2 ≤ n.toNat
  listed : (n.toNat + 1) * 4 ≤ BPB.sectorsPerFAT.toNat * BPB.bytesPerSector.toNat
  fits : BPB.reservedSectors.toNat + BPB.FATCount.toNat * BPB.sectorsPerFAT.toNat +
    (n.toNat - 1) * BPB.sectorsPerCluster.toNat ≤ (fatSetup BPB).sectorCount.toNat
  onDisk : loc.toNat + (fatSetup BPB).sectorCount.toNat *
    (BPB.bytesPerSector.toNat / SECTOR_SIZE) ≤ 2 ^ 48

/-- No value on the way to the sector of cluster `n` wraps. -/
structure NoWrap (BPB : Bootrecord) (loc : UInt64) (n : UInt32) : Prop where
  reserved : BPB.reservedSectors.toNat * BPB.bytesPerSector.toNat < 2 ^ 31
  oneFat : BPB.sectorsPerFAT.toNat * BPB.bytesPerSector.toNat < 2 ^ 32
  allFats : BPB.FATCount.toNat *
    (BPB.sectorsPerFAT.toNat * BPB.bytesPerSector.toNat / SECTOR_SIZE) < 2 ^ 32
  fatEnd : BPB.reservedSectors.toNat * BPB.bytesPerSector.toNat / SECTOR_SIZE + BPB.FATCount.toNat *
    (BPB.sectorsPerFAT.toNat * BPB.bytesPerSector.toNat / SECTOR_SIZE) < 2 ^ 32
  bias : 2 ≤ BPB.reservedSectors.toNat * BPB.bytesPerSector.toNat / SECTOR_SIZE +
    BPB.FATCount.toNat * (BPB.sectorsPerFAT.toNat * BPB.bytesPerSector.toNat / SECTOR_SIZE)
  offset : n.toNat * BPB.sectorsPerCluster.toNat < 2 ^ 32
  address : loc.toNat + (fatSetup BPB).data.toNat +
    n.toNat * BPB.sectorsPerCluster.toNat < 2 ^ 64

def clusterLba (BPB : Bootrecord) (loc : UInt64) (n : UInt32) : ℕ :=
  loc.toNat + (BPB.reservedSectors.toNat + BPB.FATCount.toNat * BPB.sectorsPerFAT.toNat +
    (n.toNat - 2) * BPB.sectorsPerCluster.toNat) * (BPB.bytesPerSector.toNat / SECTOR_SIZE)

/-- The geometries for which the bias and the units come out right. -/
def Biased (bytesPerSector sectorsPerCluster n : ℕ) : Prop :=
  (sectorsPerCluster = 1 ∧ (bytesPerSector = 512 ∨ n = 2)) ∨
    (sectorsPerCluster = 2 ∧ bytesPerSector = 1024 ∧ n = 3)

variable {BPB : Bootrecord} {loc : UInt64} {n : UInt32}

lemma Geometry.exists_unit (h : Geometry BPB loc n) :
    ∃ B, BPB.bytesPerSector.toNat = B * SECTOR_SIZE ∧ (B = 1 ∨ B = 2 ∨ B = 4 ∨ B = 8) := by
  unfold SECTOR_SIZE
  rcases h.bytesPerSector with hb | hb | hb | hb <;> rw [hb]
  · exact ⟨1, rfl, by simp⟩
  · exact ⟨2, rfl, by simp⟩
  · exact ⟨4, rfl, by simp⟩
  · exact ⟨8, rfl, by simp⟩

/-- The arithmetic of the two addresses, without the parts they share. -/
lemma biased_iff {B c n : ℕ} (hB : B = 1 ∨ B = 2 ∨ B = 4 ∨ B = 8) (hc : ∃ e ≤ 7, c = 2 ^ e)
    (hn : 2 ≤ n) : n * c = (n - 2) * c * B + 2 ↔ Biased (B * SECTOR_SIZE) c n := by
  obtain ⟨m, rfl⟩ := Nat.exists_eq_add_of_le hn
  obtain ⟨e, he, rfl⟩ := hc
  unfold Biased SECTOR_SIZE
  rcases hB with rfl | rfl | rfl | rfl <;> interval_cases e <;> omega

lemma toNat_fat {B : ℕ} (hB : BPB.bytesPerSector.toNat = B * SECTOR_SIZE) (hB8 : B ≤ 8) :
    (fatSetup BPB).fat.toNat = BPB.reservedSectors.toNat * B := by
  have hr := BPB.reservedSectors.toNat_lt
  unfold fatSetup SECTOR_SIZE
  dsimp only
  rw [hB, SECTOR_SIZE, ← mul_assoc, Nat.mul_div_cancel _ (by decide)]
  have hle : BPB.reservedSectors.toNat * B ≤ 2 ^ 16 * 8 := Nat.mul_le_mul hr.le hB8
  simp
  omega

lemma toNat_oneFat {B : ℕ} (hB : BPB.bytesPerSector.toNat = B * SECTOR_SIZE)
    (h : BPB.sectorsPerFAT.toNat * BPB.bytesPerSector.toNat < 2 ^ 32) :
    ((BPB.sectorsPerFAT * BPB.bytesPerSector.toUInt32) / SECTOR_SIZE.toUInt32).toNat =
      BPB.sectorsPerFAT.toNat * B := by
  rw [UInt32.toNat_div, UInt32.toNat_mul, UInt16.toNat_toUInt32, Nat.mod_eq_of_lt h, hB, ← mul_assoc]
  exact Nat.mul_div_cancel _ (by decide)

/-- The sectors before the clusters, in LBAs. -/
def areaLba (BPB : Bootrecord) (B : ℕ) : ℕ :=
  BPB.reservedSectors.toNat * B + BPB.FATCount.toNat * (BPB.sectorsPerFAT.toNat * B)

lemma toNat_data {B : ℕ} (hB : BPB.bytesPerSector.toNat = B * SECTOR_SIZE) (hB8 : B ≤ 8)
    (h : BPB.sectorsPerFAT.toNat * BPB.bytesPerSector.toNat < 2 ^ 32)
    (hlow : 2 ≤ areaLba BPB B) (hhigh : areaLba BPB B < 2 ^ 32) :
    (fatSetup BPB).data.toNat = areaLba BPB B - 2 := by
  have hdata : (fatSetup BPB).data = (fatSetup BPB).fat + BPB.FATCount.toUInt32 *
      ((BPB.sectorsPerFAT * BPB.bytesPerSector.toUInt32) / SECTOR_SIZE.toUInt32) - 2 := rfl
  unfold areaLba at hlow hhigh ⊢
  have hall : (BPB.FATCount.toUInt32 *
      ((BPB.sectorsPerFAT * BPB.bytesPerSector.toUInt32) / SECTOR_SIZE.toUInt32)).toNat =
        BPB.FATCount.toNat * (BPB.sectorsPerFAT.toNat * B) := by
    rw [UInt32.toNat_mul, toNat_oneFat hB h, UInt8.toNat_toUInt32, Nat.mod_eq_of_lt]
    omega
  have hsum : ((fatSetup BPB).fat + BPB.FATCount.toUInt32 *
      ((BPB.sectorsPerFAT * BPB.bytesPerSector.toUInt32) / SECTOR_SIZE.toUInt32)).toNat =
        BPB.reservedSectors.toNat * B + BPB.FATCount.toNat * (BPB.sectorsPerFAT.toNat * B) := by
    rw [UInt32.toNat_add, hall, toNat_fat hB hB8, Nat.mod_eq_of_lt hhigh]
  rw [hdata, UInt32.toNat_sub_of_le _ _ (UInt32.le_iff_toNat_le.mpr (by rw [hsum]; exact hlow)),
    hsum]
  rfl

def setupVolume (disk : Disk) (loc : UInt64) (BPB : Bootrecord) : Volume :=
  ⟨disk, loc, fatSetup BPB⟩

lemma toNat_dataLba {disk : Disk} (hw : NoWrap BPB loc n) :
    (dataLba (setupVolume disk loc BPB) n).toNat =
      loc.toNat + (fatSetup BPB).data.toNat + n.toNat * BPB.sectorsPerCluster.toNat := by
  have hspc : (fatSetup BPB).sectorsPerCluster = BPB.sectorsPerCluster := rfl
  have hoff := hw.offset
  have haddr := hw.address
  unfold dataLba setupVolume
  dsimp only
  rw [hspc, UInt64.toNat_add, UInt64.toNat_add, UInt32.toNat_toUInt64, UInt32.toNat_toUInt64,
    UInt32.toNat_mul, UInt8.toNat_toUInt32, Nat.mod_eq_of_lt hoff]
  omega

/-- The units make the areas of the boot record and of `fs_info` the same. -/
lemma areaLba_eq {B : ℕ} (hB : BPB.bytesPerSector.toNat = B * SECTOR_SIZE) :
    BPB.reservedSectors.toNat * BPB.bytesPerSector.toNat / SECTOR_SIZE + BPB.FATCount.toNat *
      (BPB.sectorsPerFAT.toNat * BPB.bytesPerSector.toNat / SECTOR_SIZE) = areaLba BPB B := by
  rw [hB, ← mul_assoc, ← mul_assoc, Nat.mul_div_cancel _ (by decide),
    Nat.mul_div_cancel _ (by decide)]
  rfl

lemma clusterLba_eq {B : ℕ} (hB : BPB.bytesPerSector.toNat = B * SECTOR_SIZE) :
    clusterLba BPB loc n =
      loc.toNat + areaLba BPB B + (n.toNat - 2) * BPB.sectorsPerCluster.toNat * B := by
  unfold clusterLba areaLba
  rw [hB, Nat.mul_div_cancel _ (by decide)]
  ring

/-- Where nothing wraps, the address is right in the biased geometries only. -/
lemma dataLba_eq_iff {disk : Disk} (h : Geometry BPB loc n) (hw : NoWrap BPB loc n) :
    (dataLba (setupVolume disk loc BPB) n).toNat = clusterLba BPB loc n ↔
      Biased BPB.bytesPerSector.toNat BPB.sectorsPerCluster.toNat n.toNat := by
  obtain ⟨B, hB, hBs⟩ := h.exists_unit
  have hlow := hw.bias
  have hhigh := hw.fatEnd
  rw [areaLba_eq hB] at hlow hhigh
  rw [toNat_dataLba hw, toNat_data hB (by omega) hw.oneFat hlow hhigh, clusterLba_eq hB, hB,
    ← biased_iff hBs h.sectorsPerCluster h.low]
  omega

/-- Nothing wraps in a biased geometry whose FAT has less than 2^32 bytes. -/
lemma noWrap_of_biased (h : Geometry BPB loc n)
    (hfat : BPB.sectorsPerFAT.toNat * BPB.bytesPerSector.toNat < 2 ^ 32)
    (hb : Biased BPB.bytesPerSector.toNat BPB.sectorsPerCluster.toNat n.toNat) :
    NoWrap BPB loc n := by
  obtain ⟨B, hB, hBs⟩ := h.exists_unit
  have hr := BPB.reservedSectors.toNat_lt
  have hF := BPB.FATCount.toNat_lt
  have hn := n.toNat_lt
  have hloc : loc.toNat ≤ 2 ^ 48 := le_trans (Nat.le_add_right _ _) h.onDisk
  have hS : BPB.sectorsPerFAT.toNat * B < 2 ^ 23 := by
    rw [hB, ← mul_assoc, SECTOR_SIZE] at hfat
    omega
  have hr8 : BPB.reservedSectors.toNat * B ≤ 2 ^ 16 * 8 := Nat.mul_le_mul hr.le (by omega)
  have hall : BPB.FATCount.toNat * (BPB.sectorsPerFAT.toNat * B) ≤ 2 ^ 8 * 2 ^ 23 :=
    Nat.mul_le_mul hF.le hS.le
  have hr1 : 1 * 1 ≤ BPB.reservedSectors.toNat * B := Nat.mul_le_mul h.reserved (by omega)
  have hS1 : 0 < BPB.sectorsPerFAT.toNat * B := by
    have := h.listed
    rw [hB, ← mul_assoc, SECTOR_SIZE] at this
    omega
  have hall1 : 1 * 1 ≤ BPB.FATCount.toNat * (BPB.sectorsPerFAT.toNat * B) :=
    Nat.mul_le_mul h.fats hS1
  have hoff : n.toNat * BPB.sectorsPerCluster.toNat < 2 ^ 32 := by
    rcases hb with ⟨hc, -⟩ | ⟨hc, -, hn3⟩ <;> rw [hc]
    · omega
    · rw [hn3]
      decide
  have hlow : 2 ≤ areaLba BPB B := by unfold areaLba; omega
  have hhigh : areaLba BPB B < 2 ^ 32 := by unfold areaLba; omega
  have hdata := toNat_data hB (by omega) hfat hlow hhigh
  refine ⟨?_, hfat, ?_, ?_, ?_, hoff, ?_⟩
  · rw [hB, ← mul_assoc, SECTOR_SIZE]
    omega
  · rw [hB, ← mul_assoc, Nat.mul_div_cancel _ (by decide)]
    omega
  · rwa [areaLba_eq hB]
  · rwa [areaLba_eq hB]
  · omega

/-- **Cluster addresses.** The address that `fat_read` and `find_fat_entry` pass to
`readsectorpio` for a cluster is that of the cluster, with nothing wrapped on the way, if and
only if the bias and the units fit: one sector of 512 bytes per cluster, and two cases
besides. A FAT of 2^32 bytes or more always wraps. -/
theorem dataLba_correct_iff (disk : Disk) (BPB : Bootrecord) (loc : UInt64) (n : UInt32)
    (h : Geometry BPB loc n) :
    ((dataLba (setupVolume disk loc BPB) n).toNat = clusterLba BPB loc n ∧ NoWrap BPB loc n) ↔
      Biased BPB.bytesPerSector.toNat BPB.sectorsPerCluster.toNat n.toNat ∧
        BPB.sectorsPerFAT.toNat * BPB.bytesPerSector.toNat < 2 ^ 32 := by
  constructor
  · rintro ⟨heq, hw⟩
    exact ⟨(dataLba_eq_iff h hw).mp heq, hw.oneFat⟩
  · rintro ⟨hb, hfat⟩
    have hw := noWrap_of_biased h hfat hb
    exact ⟨(dataLba_eq_iff h hw).mpr hb, hw⟩

def gibibyte (sectorsPerCluster : UInt8) : Bootrecord where
  bytesPerSector := 512
  sectorsPerCluster := sectorsPerCluster
  reservedSectors := 32
  FATCount := 2
  rootEntries := 0
  sectorCountSmall := 0
  sectorCountLarge := 2097152
  sectorsPerFAT := 16352
  rootCluster := 2

theorem dataLba_correct_gibibyte :
    (dataLba (setupVolume (fun _ _ => 0) 2048 (gibibyte 1)) 7).toNat =
      clusterLba (gibibyte 1) 2048 7 ∧ NoWrap (gibibyte 1) 2048 7 :=
  (dataLba_correct_iff (fun _ _ => 0) (gibibyte 1) 2048 7
    ⟨Or.inl rfl, ⟨0, by decide, by decide⟩, by decide, by decide, by decide, by decide, by decide,
      by decide⟩).mpr ⟨Or.inl ⟨by decide, Or.inl (by decide)⟩, by decide⟩

/-- With eight sectors per cluster the bias of two should have been one of sixteen. -/
theorem not_dataLba_correct : Geometry (gibibyte 8) 2048 3 ∧
    (dataLba (setupVolume (fun _ _ => 0) 2048 (gibibyte 8)) 3).toNat =
      clusterLba (gibibyte 8) 2048 3 + 14 :=
  ⟨⟨Or.inl rfl, ⟨3, by decide, by decide⟩, by decide, by decide, by decide, by decide, by decide,
    by decide⟩, by decide⟩

end FlameOS.Fat
