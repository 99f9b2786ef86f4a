import FlameOS.RootDir

/-!
`init_disk`: the tables of disks and volumes it makes of what the drives reply.

The two tables are on the heap, and `malloc` does not clear them. The size of a disk is put on
top of what was there, and the file system of a partition is stored only if it is FAT32. The
fields of the MBR are put together as an `int` before they get their 64 bits.
-/

namespace FlameOS.InitDisk

open FlameOS.Fat FlameOS.FatRead FlameOS.RootDir

/-! ### The drives -/

def readBlocks (identify : ℕ → UInt16) (blocks : UInt64) : UInt64 :=
  (List.range 4).foldl
    (fun blocks k => blocks ||| (identify (100 + k)).toUInt64 <<< (16 * k).toUInt64) blocks

def sizeOf (identify : ℕ → UInt16) : UInt64 := readBlocks identify 0

/-- A drive: its reply to the identify command, and its sectors. One that is not there replies
with no size, and a read from it never ends. -/
structure Drive where
  identify : ℕ → UInt16
  sectors : Option Disk
  size : sectors.isSome = true ↔ sizeOf identify ≠ 0

/-- What the calls of `fat_setup` for a partition find: the address `malloc` returns to them, and
what is on the stack where they have `FAT_buffer`. -/
structure World where
  drive : ℕ → Drive
  malloc : ℕ → ℕ → ℕ
  stack : ℕ → ℕ → Buffer

/-! ### The tables -/

/-- `partinfo`, with what `fsdata` leads to. The values of `fs` are those of an `int`. -/
structure Partinfo where
  loc : UInt64
  size : UInt64
  fs : UInt32
  fsdata : ℕ × FatFsInfo × UInt16

def fat32 : UInt32 := 1

structure Diskdata where
  blocks : UInt64
  parts : ℕ → Partinfo

/-- The tables, with the variable `volume_letter`. A volume is a disk and a partition on it. -/
structure Tables where
  disktable : ℕ → Diskdata
  volumes : ℕ → ℕ × ℕ
  letter : ℕ

namespace Tables

variable (t : Tables) (disk i : ℕ)

def setBlocks (blocks : UInt64) : Tables :=
  { t with
    disktable := Function.update t.disktable disk { t.disktable disk with blocks := blocks } }

def setPart (p : Partinfo) : Tables :=
  { t with
    disktable := Function.update t.disktable disk
      { t.disktable disk with parts := Function.update (t.disktable disk).parts i p } }

def addVolume : Tables :=
  { t with
    volumes := Function.update t.volumes t.letter (disk, i)
    letter := t.letter + 1 }

end Tables

/-! ### `init_disk` -/

def intField (b₀ b₁ b₂ b₃ : UInt8) : UInt64 := (le32 b₀ b₁ b₂ b₃).toInt32.toInt64.toUInt64

/-- One round of the loop over the records of the MBR. -/
def readRecord (buffer : Buffer) (disk : ℕ) (t : Tables) (i : ℕ) : Tables :=
  let j := 0x1BE + 16 * i
  let loc := intField (buffer (j + 0x8)) (buffer (j + 0x9)) (buffer (j + 0xA)) (buffer (j + 0xB))
  let size := intField (buffer (j + 0xC)) (buffer (j + 0xD)) (buffer (j + 0xE)) (buffer (j + 0xF))
  let t := t.setPart disk i { (t.disktable disk).parts i with loc := loc, size := size }
  if size ≠ 0 then t.addVolume disk i else t

def bootrecord (buffer : Buffer) : Bootrecord where
  bytesPerSector := le16 (buffer 11) (buffer 12)
  sectorsPerCluster := buffer 13
  reservedSectors := le16 (buffer 14) (buffer 15)
  FATCount := buffer 16
  rootEntries := le16 (buffer 17) (buffer 18)
  sectorCountSmall := le16 (buffer 19) (buffer 20)
  sectorCountLarge := le32 (buffer 32) (buffer 33) (buffer 34) (buffer 35)
  sectorsPerFAT := le32 (buffer 36) (buffer 37) (buffer 38) (buffer 39)
  rootCluster := le32 (buffer 44) (buffer 45) (buffer 46) (buffer 47)

def sector (d : Disk) (lba : UInt64) : Buffer := readsectorpio d lba 1 fun _ => 0

/-- `fat_setup`, unless `fuel` runs out. It divides by the bytes of a sector. -/
def fat_setup (fuel : ℕ) (d : Disk) (addr : ℕ) (stack : Buffer) (info : Partinfo) :
    Option Partinfo :=
  let BPB := bootrecord (sector d info.loc)
  if BPB.bytesPerSector = 0 then none
  else (rootClusters (setupVolume d info.loc BPB) fuel stack).map fun (n, _) =>
    { info with fs := fat32, fsdata := (addr, fatSetup BPB, n) }

def Detected (d : Disk) (loc : UInt64) : Prop :=
  sector d loc 0x42 = 0x28 ∨ sector d loc 0x42 = 0x29

instance (d : Disk) (loc : UInt64) : Decidable (Detected d loc) :=
  inferInstanceAs (Decidable (_ ∨ _))

/-- One round of the loop over the file systems. -/
def detect (W : World) (fuel disk : ℕ) (d : Disk) (t : Tables) (i : ℕ) : Option Tables :=
  if Detected d ((t.disktable disk).parts i).loc then
    (fat_setup fuel d (W.malloc disk i) (W.stack disk i) ((t.disktable disk).parts i)).map
      (t.setPart disk i)
  else some t

/-- One round of the loop over the disks. -/
def initDrive (W : World) (fuel : ℕ) (t : Tables) (disk : ℕ) : Option Tables :=
  let blocks := readBlocks (W.drive disk).identify (t.disktable disk).blocks
  let t := t.setBlocks disk blocks
  if blocks = 0 then some t
  else (W.drive disk).sectors.bind fun d =>
    (List.range 4).foldlM (detect W fuel disk d)
      ((List.range 4).foldl (readRecord (sector d 0) disk) t)

/-- `init_disk`, with the tables as `malloc` returns them. -/
def initDisk (W : World) (fuel : ℕ) (t : Tables) : Option Tables :=
  (List.range 4).foldlM (initDrive W fuel) { t with letter := 0 }

/-! ### What the tables have -/

def recordField (d : Disk) (i off : ℕ) : UInt32 :=
  let j := 0x1BE + 16 * i + off
  le32 (d 0 j) (d 0 (j + 1)) (d 0 (j + 2)) (d 0 (j + 3))

/-- A field as the loop over the records stores it. -/
def storedField (d : Disk) (i off : ℕ) : UInt64 :=
  (recordField d i off).toInt32.toInt64.toUInt64

def volumesBelow (d : Disk) (disk k : ℕ) : List (ℕ × ℕ) :=
  ((List.range k).filter fun i => recordField d i 12 ≠ 0).map fun i => (disk, i)

def volumesOf (W : World) (disk : ℕ) : List (ℕ × ℕ) :=
  match (W.drive disk).sectors with
  | some d => volumesBelow d disk 4
  | none => []

/-- What the loop over the disks leaves for one of them, which had `old`. -/
structure Done (drive : Drive) (old new : Diskdata) : Prop where
  blocks : new.blocks = readBlocks drive.identify old.blocks
  absent : drive.sectors = none → new.blocks = 0
  part : ∀ d, drive.sectors = some d → ∀ i < 4,
    (new.parts i).loc = storedField d i 8 ∧ (new.parts i).size = storedField d i 12 ∧
      (new.parts i).fs = if Detected d (storedField d i 8) then fat32 else (old.parts i).fs

/-- The volumes in the table, with what was there behind them. -/
structure Listed (old : ℕ → ℕ × ℕ) (l : List (ℕ × ℕ)) (t : Tables) : Prop where
  letter : t.letter = l.length
  volumes : ∀ k, t.volumes k = l.getD k (old k)

lemma foldlM_range {σ : Type*} {f : σ → ℕ → Option σ} (P : ℕ → σ → Prop) {n : ℕ} {s s' : σ}
    (h0 : P 0 s) (hstep : ∀ k < n, ∀ s s', P k s → f s k = some s' → P (k + 1) s')
    (h : (List.range n).foldlM f s = some s') : P n s' := by
  induction n generalizing s' with
  | zero =>
    cases h
    exact h0
  | succ n ih =>
    rw [List.range_succ, List.foldlM_append, Option.bind_eq_bind, Option.bind_eq_some_iff] at h
    obtain ⟨s₁, h₁, h₂⟩ := h
    rw [List.foldlM_cons, Option.bind_eq_bind, Option.bind_eq_some_iff] at h₂
    obtain ⟨s₂, h₂, h₃⟩ := h₂
    obtain rfl : s₂ = s' := Option.some.inj h₃
    exact hstep n (Nat.lt_succ_self n) s₁ s₂
      (ih (fun k hk => hstep k (Nat.lt_succ_of_lt hk)) h₁) h₂

lemma foldl_range {σ : Type*} {f : σ → ℕ → σ} (P : ℕ → σ → Prop) {n : ℕ} {s : σ} (h0 : P 0 s)
    (hstep : ∀ k < n, ∀ s, P k s → P (k + 1) (f s k)) : P n ((List.range n).foldl f s) := by
  induction n with
  | zero => exact h0
  | succ n ih =>
    rw [List.range_succ, List.foldl_append, List.foldl_cons, List.foldl_nil]
    exact hstep n (Nat.lt_succ_self n) _ (ih fun k hk => hstep k (Nat.lt_succ_of_lt hk))

/-! ### Fields -/

lemma toNat_signExtend (w : UInt32) : w.toInt32.toInt64.toUInt64.toNat =
    if w.toNat < 2 ^ 31 then w.toNat else w.toNat + (2 ^ 64 - 2 ^ 32) := by
  have h : w.toInt32.toInt64.toUInt64.toNat = (w.toBitVec.signExtend 64).toNat := rfl
  have hw := w.toNat_lt
  rw [h, BitVec.toNat_signExtend, BitVec.msb_eq_decide, BitVec.toNat_setWidth,
    UInt32.toNat_toBitVec, Nat.mod_eq_of_lt (by omega)]
  by_cases hlow : w.toNat < 2 ^ 31
  · rw [if_pos hlow, if_neg (by simpa using hlow), Nat.add_zero]
  · rw [if_neg hlow, if_pos (by simpa using hlow)]

/-- The value of a field gets zeros above it exactly if its highest bit is clear. -/
lemma signExtend_eq_iff (w : UInt32) :
    w.toInt32.toInt64.toUInt64 = w.toUInt64 ↔ w.toNat < 2 ^ 31 := by
  have hw := w.toNat_lt
  rw [← UInt64.toNat_inj, toNat_signExtend, UInt32.toNat_toUInt64]
  split <;> omega

lemma signExtend_eq_zero (w : UInt32) : w.toInt32.toInt64.toUInt64 = 0 ↔ w = 0 := by
  rw [← UInt64.toNat_inj, toNat_signExtend, ← UInt32.toNat_inj, UInt64.toNat_zero,
    UInt32.toNat_zero]
  split <;> omega

/-! ### The loop over the records -/

variable {W : World} {fuel disk : ℕ} {d : Disk} {t t' : Tables} {old : ℕ → ℕ × ℕ}
  {l : List (ℕ × ℕ)}

lemma Listed.addVolume (h : Listed old l t) (disk i : ℕ) :
    Listed old (l ++ [(disk, i)]) (t.addVolume disk i) where
  letter := by
    rw [List.length_append, ← h.letter]
    rfl
  volumes k := by
    change Function.update t.volumes t.letter (disk, i) k = _
    rcases Nat.lt_trichotomy k l.length with hlt | rfl | hgt
    · rw [Function.update_of_ne (by rw [h.letter]; omega), h.volumes,
        List.getD_append _ _ _ _ hlt]
    · rw [h.letter, Function.update_self, List.getD_append_right _ _ _ _ le_rfl, Nat.sub_self]
      rfl
    · rw [Function.update_of_ne (by rw [h.letter]; omega), h.volumes,
        List.getD_eq_default _ _ hgt.le, List.getD_eq_default]
      rw [List.length_append, List.length_singleton]
      omega

lemma Listed.setPart (h : Listed old l t) (disk i : ℕ) (p : Partinfo) :
    Listed old l (t.setPart disk i p) := ⟨h.letter, h.volumes⟩

lemma sector_zero (d : Disk) {j : ℕ} (hj : j < 512) : sector d 0 j = d 0 j := by
  unfold sector readsectorpio SECTOR_SIZE
  rw [if_pos (by omega), Nat.div_eq_of_lt hj, Nat.mod_eq_of_lt hj]
  rfl

/-- The tables before and after some rounds for a disk differ in its partitions only. -/
structure SameBut (disk : ℕ) (t t' : Tables) : Prop where
  others : ∀ j, j ≠ disk → t'.disktable j = t.disktable j
  blocks : (t'.disktable disk).blocks = (t.disktable disk).blocks

lemma SameBut.refl (disk : ℕ) (t : Tables) : SameBut disk t t := ⟨fun _ _ => rfl, rfl⟩

lemma SameBut.trans {t'' : Tables} (h : SameBut disk t t') (h' : SameBut disk t' t'') :
    SameBut disk t t'' :=
  ⟨fun j hj => (h'.others j hj).trans (h.others j hj), h'.blocks.trans h.blocks⟩

lemma SameBut.setPart (disk i : ℕ) (t : Tables) (p : Partinfo) :
    SameBut disk t (t.setPart disk i p) where
  others _ hj := Function.update_of_ne hj _ _
  blocks := by
    unfold Tables.setPart
    dsimp only
    rw [Function.update_self]

lemma parts_setPart (t : Tables) (disk i : ℕ) (p : Partinfo) :
    ((t.setPart disk i p).disktable disk).parts =
      Function.update (t.disktable disk).parts i p := by
  unfold Tables.setPart
  dsimp only
  rw [Function.update_self]

/-- After `k` rounds of the loop over the records. -/
structure Recorded (d : Disk) (disk : ℕ) (old : ℕ → ℕ × ℕ) (l : List (ℕ × ℕ)) (t : Tables) (k : ℕ)
    (t' : Tables) : Prop where
  same : SameBut disk t t'
  parts : ∀ i, (t'.disktable disk).parts i =
    if i < k then
      { (t.disktable disk).parts i with loc := storedField d i 8, size := storedField d i 12 }
    else (t.disktable disk).parts i
  listed : Listed old (l ++ volumesBelow d disk k) t'

lemma volumesBelow_succ (d : Disk) (disk k : ℕ) : volumesBelow d disk (k + 1) =
    if recordField d k 12 = 0 then volumesBelow d disk k
    else volumesBelow d disk k ++ [(disk, k)] := by
  unfold volumesBelow
  rw [List.range_succ, List.filter_append, List.map_append]
  by_cases h : recordField d k 12 = 0
  · simp [h]
  · simp [h]

lemma intField_sector {k : ℕ} (hk : k < 4) (d : Disk) (off : ℕ) (hoff : off ≤ 12) :
    intField (sector d 0 (0x1BE + 16 * k + off)) (sector d 0 (0x1BE + 16 * k + (off + 1)))
      (sector d 0 (0x1BE + 16 * k + (off + 2))) (sector d 0 (0x1BE + 16 * k + (off + 3))) =
        storedField d k off := by
  rw [sector_zero d (by omega), sector_zero d (by omega), sector_zero d (by omega),
    sector_zero d (by omega)]
  rfl

lemma Recorded.round {k : ℕ} (hk : k < 4) (h : Recorded d disk old l t k t') :
    Recorded d disk old l t (k + 1) (readRecord (sector d 0) disk t' k) := by
  have hloc := intField_sector hk d 8 (by decide)
  have hsize := intField_sector hk d 12 (by decide)
  have hparts : ∀ i, Function.update (t'.disktable disk).parts k
      { (t'.disktable disk).parts k with loc := storedField d k 8, size := storedField d k 12 } i =
        if i < k + 1 then
          { (t.disktable disk).parts i with loc := storedField d i 8, size := storedField d i 12 }
        else (t.disktable disk).parts i := fun i => by
    rcases Nat.lt_trichotomy i k with hlt | rfl | hgt
    · rw [Function.update_of_ne (by omega), h.parts, if_pos hlt, if_pos (by omega)]
    · rw [Function.update_self, h.parts, if_neg (lt_irrefl _), if_pos (Nat.lt_succ_self i)]
    · rw [Function.update_of_ne (by omega), h.parts, if_neg (by omega), if_neg (by omega)]
  have hset : SameBut disk t (t'.setPart disk k
      { (t'.disktable disk).parts k with loc := storedField d k 8, size := storedField d k 12 }) :=
    h.same.trans (SameBut.setPart disk k t' _)
  have hzero : storedField d k 12 = 0 ↔ recordField d k 12 = 0 := signExtend_eq_zero _
  have hlisted := volumesBelow_succ d disk k
  unfold readRecord
  dsimp only
  rw [hloc, hsize]
  by_cases hz : recordField d k 12 = 0
  · rw [if_pos hz] at hlisted
    rw [if_neg (not_not.mpr (hzero.mpr hz))]
    refine ⟨hset, fun i => ?_, hlisted ▸ h.listed.setPart disk k _⟩
    rw [parts_setPart]
    exact hparts i
  · rw [if_neg hz] at hlisted
    rw [if_pos (hzero.not.mpr hz)]
    refine ⟨⟨hset.others, hset.blocks⟩, fun i => ?_, ?_⟩
    · change ((t'.setPart disk k _).disktable disk).parts i = _
      rw [parts_setPart]
      exact hparts i
    · rw [hlisted, ← List.append_assoc]
      exact (h.listed.setPart disk k _).addVolume disk k

lemma readRecords (hold : Listed old l t) :
    Recorded d disk old l t 4 ((List.range 4).foldl (readRecord (sector d 0) disk) t) := by
  refine foldl_range (Recorded d disk old l t) ⟨.refl disk t, fun i => ?_, ?_⟩
    fun k hk _ h => h.round hk
  · rw [if_neg (Nat.not_lt_zero i)]
  · rw [volumesBelow, List.range_zero, List.filter_nil, List.map_nil, List.append_nil]
    exact hold

/-! ### The loop over the file systems -/

/-- After `k` rounds of the loop over the file systems. -/
structure SetUp (d : Disk) (disk : ℕ) (t : Tables) (k : ℕ) (t' : Tables) : Prop where
  same : SameBut disk t t'
  volumes : t'.volumes = t.volumes ∧ t'.letter = t.letter
  parts : ∀ i, ((t'.disktable disk).parts i).loc = ((t.disktable disk).parts i).loc ∧
    ((t'.disktable disk).parts i).size = ((t.disktable disk).parts i).size ∧
    ((t'.disktable disk).parts i).fs =
      if i < k ∧ Detected d ((t.disktable disk).parts i).loc then fat32
      else ((t.disktable disk).parts i).fs

lemma fat_setup_some {addr : ℕ} {stack : Buffer} {info info' : Partinfo}
    (h : fat_setup fuel d addr stack info = some info') :
    info'.loc = info.loc ∧ info'.size = info.size ∧ info'.fs = fat32 := by
  unfold fat_setup at h
  dsimp only at h
  split at h
  · cases h
  · obtain ⟨⟨n, indices⟩, -, rfl⟩ := Option.map_eq_some_iff.mp h
    exact ⟨rfl, rfl, rfl⟩

lemma SetUp.round {k : ℕ} {t'' : Tables} (h : SetUp d disk t k t')
    (hdetect : detect W fuel disk d t' k = some t'') : SetUp d disk t (k + 1) t'' := by
  unfold detect at hdetect
  rw [(h.parts k).1] at hdetect
  by_cases hfat : Detected d ((t.disktable disk).parts k).loc
  · rw [if_pos hfat] at hdetect
    obtain ⟨p, hp, rfl⟩ := Option.map_eq_some_iff.mp hdetect
    obtain ⟨hloc, hsize, hfs⟩ := fat_setup_some hp
    refine ⟨h.same.trans (.setPart disk k t' p), h.volumes, fun i => ?_⟩
    rw [parts_setPart]
    rcases eq_or_ne i k with rfl | hne
    · rw [Function.update_self, hloc, hsize, hfs, if_pos ⟨Nat.lt_succ_self i, hfat⟩]
      exact ⟨(h.parts i).1, (h.parts i).2.1, rfl⟩
    · have hlt : i < k + 1 ↔ i < k := by omega
      rw [Function.update_of_ne hne]
      simp only [hlt]
      exact h.parts i
  · rw [if_neg hfat] at hdetect
    obtain rfl := Option.some.inj hdetect
    refine ⟨h.same, h.volumes, fun i => ?_⟩
    have hlt : (i < k + 1 ∧ Detected d ((t.disktable disk).parts i).loc) ↔
        i < k ∧ Detected d ((t.disktable disk).parts i).loc := by
      refine and_congr_left fun hi => ?_
      have hne : i ≠ k := by
        rintro rfl
        exact hfat hi
      omega
    simp only [hlt]
    exact h.parts i

/-! ### The loop over the disks -/

/-- After `k` rounds of the loop over the disks. -/
structure Inited (W : World) (junk : Tables) (k : ℕ) (t : Tables) : Prop where
  done : ∀ disk < k, Done (W.drive disk) (junk.disktable disk) (t.disktable disk)
  later : ∀ disk ≥ k, t.disktable disk = junk.disktable disk
  listed : Listed junk.volumes ((List.range k).flatMap (volumesOf W)) t

lemma readBlocks_eq (identify : ℕ → UInt16) (blocks : UInt64) :
    readBlocks identify blocks = blocks ||| sizeOf identify := by
  have hstep : ∀ (is : List ℕ) (a b : UInt64),
      is.foldl (fun blocks k => blocks ||| (identify (100 + k)).toUInt64 <<< (16 * k).toUInt64)
        (a ||| b) = a ||| is.foldl
          (fun blocks k => blocks ||| (identify (100 + k)).toUInt64 <<< (16 * k).toUInt64) b := by
    intro is
    induction is with
    | nil => exact fun _ _ => rfl
    | cons i is ih =>
      intro a b
      rw [List.foldl_cons, List.foldl_cons, UInt64.or_assoc]
      exact ih a _
  have h := hstep (List.range 4) blocks 0
  rwa [UInt64.or_zero] at h

lemma readBlocks_ne_zero {drive : Drive} (h : drive.sectors.isSome = true) (blocks : UInt64) :
    readBlocks drive.identify blocks ≠ 0 := by
  rw [readBlocks_eq]
  intro h0
  exact drive.size.mp h (UInt64.or_eq_zero_iff.mp h0).2

lemma disktable_setBlocks (t : Tables) (disk : ℕ) (blocks : UInt64) :
    (t.setBlocks disk blocks).disktable disk = { t.disktable disk with blocks := blocks } :=
  Function.update_self _ _ _

/-- A round for a disk that is not there changes nothing but the size, which stays 0. A round for
one that is there reads its partitions. -/
lemma initDrive_spec (hold : Listed old l t) (h : initDrive W fuel t disk = some t') :
    Done (W.drive disk) (t.disktable disk) (t'.disktable disk) ∧
      (∀ j, j ≠ disk → t'.disktable j = t.disktable j) ∧
      Listed old (l ++ volumesOf W disk) t' := by
  unfold initDrive at h
  dsimp only at h
  have hne : ∀ j, j ≠ disk → (t.setBlocks disk (readBlocks (W.drive disk).identify
      (t.disktable disk).blocks)).disktable j = t.disktable j :=
    fun j hj => Function.update_of_ne hj _ _
  have hset := disktable_setBlocks t disk
    (readBlocks (W.drive disk).identify (t.disktable disk).blocks)
  by_cases hzero : readBlocks (W.drive disk).identify (t.disktable disk).blocks = 0
  · rw [if_pos hzero] at h
    obtain rfl := Option.some.inj h
    have hnone : (W.drive disk).sectors = none := by
      rw [← Option.not_isSome_iff_eq_none]
      exact fun hsome => readBlocks_ne_zero hsome _ hzero
    rw [volumesOf, hnone, hset]
    refine ⟨⟨rfl, fun _ => hzero, fun d hd => absurd (hnone.symm.trans hd) nofun⟩, hne, ?_⟩
    rw [List.append_nil]
    exact ⟨hold.letter, hold.volumes⟩
  · rw [if_neg hzero] at h
    obtain ⟨d, hd, h⟩ := Option.bind_eq_some_iff.mp h
    have hrec : Recorded d disk old l (t.setBlocks disk
        (readBlocks (W.drive disk).identify (t.disktable disk).blocks)) 4 _ :=
      readRecords ⟨hold.letter, hold.volumes⟩
    have hfs := foldlM_range (SetUp d disk _) ⟨.refl disk _, ⟨rfl, rfl⟩, fun i => by
      rw [if_neg (fun hi => absurd hi.1 (Nat.not_lt_zero i))]
      exact ⟨rfl, rfl, rfl⟩⟩ (fun k _ _ _ hk hdetect => hk.round hdetect) h
    refine ⟨⟨?_, fun hnone => absurd (hnone.symm.trans hd) nofun, fun d' hd' i hi => ?_⟩,
      fun j hj => ?_, ?_⟩
    · rw [hfs.same.blocks, hrec.same.blocks, hset]
    · obtain rfl : d = d' := Option.some.inj (hd.symm.trans hd')
      have hpart := hrec.parts i
      rw [if_pos hi, hset] at hpart
      have h3 := hfs.parts i
      rw [hpart] at h3
      simpa only [hi, true_and] using h3
    · rw [hfs.same.others j hj, hrec.same.others j hj, hne j hj]
    · rw [volumesOf, hd]
      exact ⟨hfs.volumes.2.trans hrec.listed.letter,
        fun k => (congrFun hfs.volumes.1 k).trans (hrec.listed.volumes k)⟩

lemma Inited.round {junk : Tables} {k : ℕ} (h : Inited W junk k t)
    (hinit : initDrive W fuel t k = some t') : Inited W junk (k + 1) t' := by
  obtain ⟨hdone, hothers, hlisted⟩ := initDrive_spec h.listed hinit
  refine ⟨fun disk hdisk => ?_, fun disk hdisk => ?_, ?_⟩
  · rcases Nat.lt_succ_iff_lt_or_eq.mp hdisk with hlt | rfl
    · rw [hothers disk (by omega)]
      exact h.done disk hlt
    · rw [h.later disk le_rfl] at hdone
      exact hdone
  · rw [hothers disk (by omega)]
    exact h.later disk (by omega)
  · rw [List.range_succ, List.flatMap_append, List.flatMap_singleton]
    exact hlisted

lemma initDisk_spec {junk : Tables} (h : initDisk W fuel junk = some t) : Inited W junk 4 t := by
  have h0 : Inited W junk 0 { junk with letter := 0 } := by
    refine ⟨fun disk hdisk => absurd hdisk (Nat.not_lt_zero disk), fun _ _ => rfl, rfl, fun k => ?_⟩
    rw [List.range_zero, List.flatMap_nil]
    rfl
  unfold initDisk at h
  exact foldlM_range (Inited W junk) h0 (fun _ _ _ _ hk hinit => hk.round hinit) h

/-! ### The tables and the MBR -/

/-- The partitions of the disks are those of their MBRs, and the volumes are those with a size. -/
structure MatchesMBR (W : World) (junk t : Tables) : Prop where
  parts : ∀ disk < 4, ∀ d, (W.drive disk).sectors = some d → ∀ i < 4,
    ((t.disktable disk).parts i).loc = (recordField d i 8).toUInt64 ∧
      ((t.disktable disk).parts i).size = (recordField d i 12).toUInt64
  volumes : Listed junk.volumes ((List.range 4).flatMap (volumesOf W)) t

def SmallFields (W : World) : Prop :=
  ∀ disk < 4, ∀ d, (W.drive disk).sectors = some d → ∀ i < 4,
    (recordField d i 8).toNat < 2 ^ 31 ∧ (recordField d i 12).toNat < 2 ^ 31

/-- **Partitions and volumes.** After `init_disk` the tables are those of the MBRs exactly if no
partition begins at or has 2^31 sectors or more. The table of volumes is right in any case. -/
theorem initDisk_matches_iff (W : World) (fuel : ℕ) (junk t : Tables)
    (h : initDisk W fuel junk = some t) : MatchesMBR W junk t ↔ SmallFields W := by
  have hinit := initDisk_spec h
  constructor
  · intro hm disk hdisk d hd i hi
    obtain ⟨hloc, hsize⟩ := hm.parts disk hdisk d hd i hi
    obtain ⟨hloc', hsize', -⟩ := (hinit.done disk hdisk).part d hd i hi
    rw [hloc'] at hloc
    rw [hsize'] at hsize
    exact ⟨(signExtend_eq_iff _).mp hloc, (signExtend_eq_iff _).mp hsize⟩
  · refine fun hs => ⟨fun disk hdisk d hd i hi => ?_, hinit.listed⟩
    obtain ⟨hloc, hsize, -⟩ := (hinit.done disk hdisk).part d hd i hi
    obtain ⟨hs8, hs12⟩ := hs disk hdisk d hd i hi
    rw [hloc, hsize]
    exact ⟨(signExtend_eq_iff _).mpr hs8, (signExtend_eq_iff _).mpr hs12⟩

def noDrive : Drive := ⟨fun _ => 0, none, by decide⟩

def onePartition (size : UInt32) : Disk := fun lba i =>
  if lba = 0 ∧ i = 0x1BE + 8 then 1
  else if lba = 0 ∧ 0x1BE + 12 ≤ i ∧ i < 0x1BE + 16 then
    (size >>> (8 * (i - (0x1BE + 12))).toUInt32).toUInt8
  else 0

def oneDisk (size : UInt32) : World where
  drive disk := if disk = 0 then
      ⟨fun k => if k = 102 then 2 else 0, some (onePartition size),
        iff_of_true rfl (by decide)⟩
    else noDrive
  malloc _ _ := 0
  stack _ _ _ := 0

def filledWith (n : ℕ) : Tables where
  disktable _ := ⟨n.toUInt64, fun _ => ⟨n.toUInt64, n.toUInt64, n.toUInt32,
    0, ⟨0, 0, 0, 0, 0, 0, 0, 0, 0, 0⟩, 0⟩⟩
  volumes _ := (n, n)
  letter := 0

theorem initDisk_matches_iff_one :
    ∃ t, initDisk (oneDisk 100) 1 (filledWith 0) = some t ∧
      MatchesMBR (oneDisk 100) (filledWith 0) t := by
  have hsome : (initDisk (oneDisk 100) 1 (filledWith 0)).isSome = true := by decide +kernel
  obtain ⟨t, ht⟩ := Option.isSome_iff_exists.mp hsome
  refine ⟨t, ht, (initDisk_matches_iff (oneDisk 100) 1 (filledWith 0) t ht).mpr ?_⟩
  intro disk _ d hd
  rcases eq_or_ne disk 0 with rfl | hne
  · have hsmall : ∀ i < 4, (recordField (onePartition 100) i 8).toNat < 2 ^ 31 ∧
        (recordField (onePartition 100) i 12).toNat < 2 ^ 31 := by decide +kernel
    obtain rfl : onePartition 100 = d := Option.some.inj hd
    exact hsmall
  · have hnone : ((oneDisk 100).drive disk).sectors = none := by
      unfold oneDisk
      dsimp only
      rw [if_neg hne]
      rfl
    rw [hnone] at hd
    cases hd

/-- A partition of 2^31 sectors gets a size of more than 2^63. -/
theorem not_initDisk_matches :
    ∃ t, initDisk (oneDisk 0x80000000) 1 (filledWith 0) = some t ∧
      ((t.disktable 0).parts 0).size = 0xFFFFFFFF80000000 ∧
      ¬ MatchesMBR (oneDisk 0x80000000) (filledWith 0) t := by
  have heval : (initDisk (oneDisk 0x80000000) 1 (filledWith 0)).map
      (fun t => ((t.disktable 0).parts 0).size) = some 0xFFFFFFFF80000000 := by decide +kernel
  obtain ⟨t, ht, hsize⟩ := Option.map_eq_some_iff.mp heval
  refine ⟨t, ht, hsize, fun hm => ?_⟩
  have hright := (hm.parts 0 (by decide) (onePartition 0x80000000) rfl 0 (by decide)).2
  rw [hsize] at hright
  exact absurd hright (by decide +kernel)

/-! ### Old contents of the heap -/

/-- The tables of two runs say the same of the disks. -/
structure SameDisks (W : World) (t₁ t₂ : Tables) : Prop where
  blocks : ∀ disk < 4, (t₁.disktable disk).blocks = (t₂.disktable disk).blocks
  parts : ∀ disk < 4, ∀ d, (W.drive disk).sectors = some d → ∀ i < 4,
    ((t₁.disktable disk).parts i).loc = ((t₂.disktable disk).parts i).loc ∧
      ((t₁.disktable disk).parts i).size = ((t₂.disktable disk).parts i).size ∧
      ((t₁.disktable disk).parts i).fs = ((t₂.disktable disk).parts i).fs

/-- Partitions are said to be FAT32 only if `fat_setup` was called for them. -/
def FatOnly (W : World) (t : Tables) : Prop :=
  ∀ disk < 4, ∀ d, (W.drive disk).sectors = some d → ∀ i < 4,
    ((t.disktable disk).parts i).fs = fat32 → Detected d ((t.disktable disk).parts i).loc

/-- What was in memory makes no difference: in the sizes not beyond the bits that are set anyway,
and of the other partitions none was said to be FAT32. -/
structure Harmless (W : World) (junk₁ junk₂ : Tables) : Prop where
  blocks : ∀ disk < 4, (junk₁.disktable disk).blocks ||| sizeOf (W.drive disk).identify =
    (junk₂.disktable disk).blocks ||| sizeOf (W.drive disk).identify
  fs : ∀ disk < 4, ∀ d, (W.drive disk).sectors = some d → ∀ i < 4,
    ¬ Detected d (storedField d i 8) →
      ((junk₁.disktable disk).parts i).fs = ((junk₂.disktable disk).parts i).fs ∧
        ((junk₁.disktable disk).parts i).fs ≠ fat32

/-- **Detection of disks.** Two runs of `init_disk` with the same drives make the same tables, with
FAT32 partitions only where `fat_setup` was called, exactly if the memory for the tables was
harmless. -/
theorem initDisk_same_iff (W : World) (fuel : ℕ) (junk₁ junk₂ t₁ t₂ : Tables)
    (h₁ : initDisk W fuel junk₁ = some t₁) (h₂ : initDisk W fuel junk₂ = some t₂) :
    (SameDisks W t₁ t₂ ∧ FatOnly W t₁ ∧ FatOnly W t₂) ↔ Harmless W junk₁ junk₂ := by
  have hinit₁ := initDisk_spec h₁
  have hinit₂ := initDisk_spec h₂
  constructor
  · rintro ⟨hsame, hfat₁, -⟩
    refine ⟨fun disk hdisk => ?_, fun disk hdisk d hd i hi hnot => ?_⟩
    · have hblocks := hsame.blocks disk hdisk
      rwa [(hinit₁.done disk hdisk).blocks, (hinit₂.done disk hdisk).blocks, readBlocks_eq,
        readBlocks_eq] at hblocks
    · obtain ⟨hloc, -, hfs₁⟩ := (hinit₁.done disk hdisk).part d hd i hi
      obtain ⟨-, -, hfs₂⟩ := (hinit₂.done disk hdisk).part d hd i hi
      rw [if_neg hnot] at hfs₁ hfs₂
      rw [← hfs₁, ← hfs₂]
      refine ⟨(hsame.parts disk hdisk d hd i hi).2.2, fun h32 => hnot ?_⟩
      rw [← hloc]
      exact hfat₁ disk hdisk d hd i hi h32
  · intro hh
    have hsame : SameDisks W t₁ t₂ := by
      refine ⟨fun disk hdisk => ?_, fun disk hdisk d hd i hi => ?_⟩
      · rw [(hinit₁.done disk hdisk).blocks, (hinit₂.done disk hdisk).blocks, readBlocks_eq,
          readBlocks_eq]
        exact hh.blocks disk hdisk
      · obtain ⟨hloc₁, hsize₁, hfs₁⟩ := (hinit₁.done disk hdisk).part d hd i hi
        obtain ⟨hloc₂, hsize₂, hfs₂⟩ := (hinit₂.done disk hdisk).part d hd i hi
        rw [hloc₁, hloc₂, hsize₁, hsize₂, hfs₁, hfs₂]
        refine ⟨rfl, rfl, ?_⟩
        split
        · rfl
        · rename_i hnot
          exact (hh.fs disk hdisk d hd i hi hnot).1
    have hfat : FatOnly W t₁ := fun disk hdisk d hd i hi h32 => by
      obtain ⟨hloc, -, hfs⟩ := (hinit₁.done disk hdisk).part d hd i hi
      rw [hloc]
      by_contra hnot
      rw [if_neg hnot] at hfs
      exact (hh.fs disk hdisk d hd i hi hnot).2 (hfs.symm.trans h32)
    refine ⟨hsame, hfat, fun disk hdisk d hd i hi h32 => ?_⟩
    obtain ⟨hloc, -, hfs⟩ := hsame.parts disk hdisk d hd i hi
    rw [← hloc]
    exact hfat disk hdisk d hd i hi (hfs.trans h32)

theorem initDisk_same_iff_one :
    ∃ t₁ t₂, initDisk (oneDisk 100) 1 (filledWith 0) = some t₁ ∧
      initDisk (oneDisk 100) 1 { filledWith 0 with volumes := fun _ => (7, 7) } = some t₂ ∧
      SameDisks (oneDisk 100) t₁ t₂ ∧ FatOnly (oneDisk 100) t₁ ∧ FatOnly (oneDisk 100) t₂ := by
  have h₁ : (initDisk (oneDisk 100) 1 (filledWith 0)).isSome = true := by decide +kernel
  have h₂ : (initDisk (oneDisk 100) 1
      { filledWith 0 with volumes := fun _ => (7, 7) }).isSome = true := by decide +kernel
  obtain ⟨t₁, ht₁⟩ := Option.isSome_iff_exists.mp h₁
  obtain ⟨t₂, ht₂⟩ := Option.isSome_iff_exists.mp h₂
  refine ⟨t₁, t₂, ht₁, ht₂, (initDisk_same_iff (oneDisk 100) 1 _ _ t₁ t₂ ht₁ ht₂).mpr ?_⟩
  exact ⟨fun _ _ => rfl, fun _ _ _ _ _ _ _ => ⟨rfl, (by decide : (0 : UInt32) ≠ 1)⟩⟩

/-- The bytes of the old memory show in the size of the disk, and make a FAT32 partition. -/
theorem not_initDisk_same :
    ∃ t₁ t₂, initDisk (oneDisk 100) 1 (filledWith 0) = some t₁ ∧
      initDisk (oneDisk 100) 1 { filledWith 1 with
        disktable := fun disk => if disk = 0 then (filledWith 1).disktable 0
          else (filledWith 0).disktable disk } = some t₂ ∧
      (t₁.disktable 0).blocks = 0x200000000 ∧ (t₂.disktable 0).blocks = 0x200000001 ∧
      ((t₂.disktable 0).parts 0).fs = fat32 ∧
      ¬ (SameDisks (oneDisk 100) t₁ t₂ ∧ FatOnly (oneDisk 100) t₁ ∧ FatOnly (oneDisk 100) t₂) := by
  have h₁ : (initDisk (oneDisk 100) 1 (filledWith 0)).map (fun t => (t.disktable 0).blocks) =
      some 0x200000000 := by decide +kernel
  have h₂ : (initDisk (oneDisk 100) 1 { filledWith 1 with
      disktable := fun disk => if disk = 0 then (filledWith 1).disktable 0
        else (filledWith 0).disktable disk }).map
      (fun t => ((t.disktable 0).blocks, ((t.disktable 0).parts 0).fs)) =
        some (0x200000001, fat32) := by decide +kernel
  obtain ⟨t₁, ht₁, hblocks₁⟩ := Option.map_eq_some_iff.mp h₁
  obtain ⟨t₂, ht₂, hval₂⟩ := Option.map_eq_some_iff.mp h₂
  simp only [Prod.mk.injEq] at hval₂
  obtain ⟨hblocks₂, hfs₂⟩ := hval₂
  refine ⟨t₁, t₂, ht₁, ht₂, hblocks₁, hblocks₂, hfs₂, fun h => ?_⟩
  have hsame := h.1.blocks 0 (by decide)
  rw [hblocks₁, hblocks₂] at hsame
  exact absurd hsame (by decide)

end FlameOS.InitDisk
