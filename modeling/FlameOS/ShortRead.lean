import FlameOS.FatRead

/-!
What `fat_read` says of what it stored.

The value it returns is fixed before anything is read. The last loop stops at an end mark, and
then has stored less. It looks for one only in the sector of the FAT that has the entry of the
cluster it starts at: where a link leads out of this sector, the cluster is read again.
-/

namespace FlameOS.ShortRead

open FlameOS.Fat FlameOS.FatRead

variable (v : Volume)

/-! ### The links in the FAT -/

def entryIn (sector c : UInt32) : UInt32 := fatWord (fatSector v sector) (c % FEPS)

/-- A cluster with the sector of the FAT that is at hand. -/
abbrev Place := UInt32 × UInt32

/-- The first cluster of a file, with the sector that has its entry. -/
def firstPlace (c : UInt32) : Place := (c, c / FEPS)

def sectorFor (p : Place) : UInt32 :=
  if p.1 / FEPS ≠ entryIn v p.2 p.1 / FEPS then entryIn v p.2 p.1 / FEPS else p.2

def followed (p : Place) : Place := (entryIn v (sectorFor v p) p.1, sectorFor v p)

/-- The next cluster in the last loop: the same one again if the link leads to another sector. -/
def kept (p : Place) : Place :=
  (if p.1 / FEPS ≠ entryIn v p.2 p.1 / FEPS then p.1 else entryIn v p.2 p.1, sectorFor v p)

/-- The last loop does not come to an end mark while there are bytes to read. -/
def Unbroken (first : UInt32) (pointer bytes : ℕ) : Prop :=
  let per := (bytesPerCluster v).toNat
  let start := pointer % per
  let skipped := (pointer / per).toUInt32.toNat + if start = 0 then 0 else 1
  ∀ i, 0 < i → (if start = 0 then 0 else per - start) + i * per < bytes →
    ((kept v)^[i] ((followed v)^[skipped] (firstPlace first))).1 &&& 0x0FFFFFFF < 0x0FFFFFF0

variable {v} {p : Place} {b : Buffer}

def Holds (v : Volume) (b : Buffer) (sector : UInt32) : Prop :=
  ∀ c, fatWord b (c % FEPS) = entryIn v sector c

lemma holds_load (lba : UInt64) {sector : UInt32} (hlba : lba = fatLba v sector) {count : ℕ}
    (h : count ≠ 0) (b : Buffer) : Holds v (readsectorpio v.disk lba count b) sector := by
  subst hlba
  exact fun c => fatWord_readsectorpio _ _ h _ _ c

lemma Holds.reload (hspc : v.fsInfo.sectorsPerCluster ≠ 0) (h : Holds v b p.2) :
    Holds v (reload v p.1 b) (sectorFor v p) := by
  have hcount : v.fsInfo.sectorsPerCluster.toNat ≠ 0 := fun h0 => hspc (UInt8.toNat_inj.mp h0)
  unfold FatRead.reload sectorFor
  rw [h p.1]
  split
  · exact holds_load _ rfl hcount b
  · exact h

lemma skipClusters_eq (hspc : v.fsInfo.sectorsPerCluster ≠ 0) (n : ℕ) (h : Holds v b p.2) :
    ∃ b', skipClusters v n p.1 b = (((followed v)^[n] p).1, b') ∧
      Holds v b' ((followed v)^[n] p).2 := by
  induction n generalizing p b with
  | zero => exact ⟨b, rfl, h⟩
  | succ n ih =>
    have hload := h.reload hspc
    rw [skipClusters, Function.iterate_succ_apply, hload p.1]
    exact ih (p := followed v p) hload

/-- The last loop stores all bytes exactly if it does not come to an end mark before. -/
lemma length_readClusters (hspc : v.fsInfo.sectorsPerCluster ≠ 0)
    (hper : 0 < (bytesPerCluster v).toNat) (fuel bytes : ℕ) (buffer : Buffer)
    (hfuel : bytes < fuel) (h : Holds v b p.2) :
    ∃ l, readClusters v fuel bytes p.1 b buffer = some l ∧ (l.length = bytes ↔
      ∀ i, 0 < i → i * (bytesPerCluster v).toNat < bytes →
        ((kept v)^[i] p).1 &&& 0x0FFFFFFF < 0x0FFFFFF0) := by
  induction fuel generalizing p b bytes buffer with
  | zero => omega
  | succ fuel ih =>
    rw [readClusters]
    dsimp only
    rw [h p.1]
    by_cases hgt : bytes > (bytesPerCluster v).toNat
    · rw [if_pos hgt]
      have hkept : (if p.1 / FEPS ≠ entryIn v p.2 p.1 / FEPS then p.1 else entryIn v p.2 p.1) =
          (kept v p).1 := rfl
      rw [hkept]
      by_cases hmark : (kept v p).1 &&& 0x0FFFFFFF < 0x0FFFFFF0
      · obtain ⟨l, hl, hiff⟩ := ih (p := kept v p) (bytes - (bytesPerCluster v).toNat)
          (readCluster v p.1 buffer) (by omega) (h.reload hspc)
        rw [if_pos hmark, hl]
        refine ⟨_, rfl, ?_⟩
        rw [List.length_append, length_bytesOf]
        have hlen : (bytesPerCluster v).toNat + l.length = bytes ↔
            l.length = bytes - (bytesPerCluster v).toNat := by omega
        rw [hlen, hiff]
        constructor
        · intro hall i hi hib
          rcases i with _ | i
          · omega
          · rw [Function.iterate_succ_apply]
            rcases Nat.eq_zero_or_pos i with rfl | hpos
            · exact hmark
            · rw [Nat.succ_mul] at hib
              exact hall i hpos (by omega)
        · intro hall i hi hib
          have hnext := hall (i + 1) (Nat.succ_pos i) (by rw [Nat.succ_mul]; omega)
          rwa [Function.iterate_succ_apply] at hnext
      · -- an end mark after the first cluster
        rw [if_neg hmark]
        refine ⟨_, rfl, iff_of_false ?_ fun hall => hmark (hall 1 one_pos (by omega))⟩
        rw [length_bytesOf]
        omega
    · rw [if_neg hgt]
      refine ⟨_, rfl, iff_of_true (length_bytesOf _ _ _) fun i hi hib => ?_⟩
      have := Nat.mul_le_mul_right (bytesPerCluster v).toNat hi
      omega

/-- **What `fat_read` says it read.** `fat_read` returns, and its value is the number of bytes it
stored exactly if the last loop does not come to an end mark while there are bytes to read. -/
theorem fatRead_counts_iff (v : Volume) (entry : FATEntry) (pointer bytes : ℕ)
    (FATbuffer buffer : Buffer) (hper : 0 < (bytesPerCluster v).toNat) :
    ∃ n l, fatRead v entry pointer bytes FATbuffer buffer = some (n, l) ∧
      (n = l.length ↔ Unbroken v entry.cluster pointer bytes) := by
  have hspc : v.fsInfo.sectorsPerCluster ≠ 0 := fun h0 => by
    rw [toNat_bytesPerCluster, h0] at hper
    exact absurd hper (by simp)
  have hload : Holds v (readsectorpio v.disk (fatLba v (entry.cluster / FEPS)) 1 FATbuffer)
      (firstPlace entry.cluster).2 := holds_load _ rfl one_ne_zero FATbuffer
  obtain ⟨b, hskip, hb⟩ := skipClusters_eq (p := firstPlace entry.cluster) hspc
    (pointer / (bytesPerCluster v).toNat).toUInt32.toNat hload
  have hfirst : (firstPlace entry.cluster).1 = entry.cluster := rfl
  rw [hfirst] at hskip
  unfold fatRead Unbroken
  dsimp only
  rw [hskip]
  by_cases hstart : pointer % (bytesPerCluster v).toNat = 0
  · rw [if_neg (not_not.mpr hstart)]
    simp only [if_pos hstart, Nat.add_zero, Nat.zero_add]
    obtain ⟨l, hl, hiff⟩ := length_readClusters hspc hper (bytes + 1) bytes buffer
      (Nat.lt_succ_self bytes) hb
    rw [hl]
    exact ⟨bytes, l, rfl, eq_comm.trans hiff⟩
  · rw [if_pos hstart]
    simp only [if_neg hstart]
    by_cases hgt : bytes >
        (bytesPerCluster v).toNat - pointer % (bytesPerCluster v).toNat
    · -- the first cluster is read in part, and one more link is followed
      obtain ⟨q, hq⟩ : ∃ q, (followed v)^[(pointer / (bytesPerCluster v).toNat).toUInt32.toNat]
        (firstPlace entry.cluster) = q := ⟨_, rfl⟩
      rw [hq] at hb
      obtain ⟨l, hl, hiff⟩ := length_readClusters hspc hper (p := followed v q)
        (bytes + 1) (bytes - ((bytesPerCluster v).toNat - pointer % (bytesPerCluster v).toNat))
        (readCluster v q.1 buffer) (by omega) (hb.reload hspc)
      have hnext : fatWord (reload v q.1 b) (q.1 % FEPS) = (followed v q).1 := hb.reload hspc q.1
      rw [if_pos hgt, hq, hnext, hl]
      refine ⟨_, _, rfl, ?_⟩
      rw [List.length_append, length_bytesOf]
      have hlen : bytes = (bytesPerCluster v).toNat - pointer % (bytesPerCluster v).toNat +
          l.length ↔ l.length = bytes -
            ((bytesPerCluster v).toNat - pointer % (bytesPerCluster v).toNat) := by omega
      rw [hlen, hiff, Function.iterate_succ_apply', hq]
      refine forall_congr' fun i => imp_congr_right fun _ => ?_
      have hleft : i * (bytesPerCluster v).toNat < bytes -
          ((bytesPerCluster v).toNat - pointer % (bytesPerCluster v).toNat) ↔
            (bytesPerCluster v).toNat - pointer % (bytesPerCluster v).toNat +
              i * (bytesPerCluster v).toNat < bytes := by omega
      rw [hleft]
    · rw [if_neg hgt]
      refine ⟨bytes, _, rfl, iff_of_true (length_bytesOf _ _ _).symm fun i _ hib => ?_⟩
      omega

/-- The last loop stays in the sector of the FAT. -/
lemma div_kept (p : Place) : (kept v p).1 / FEPS = p.1 / FEPS := by
  unfold kept
  dsimp only
  split
  · rfl
  · rename_i h
    exact (not_not.mp h).symm

lemma div_iterate_kept (p : Place) (i : ℕ) : ((kept v)^[i] p).1 / FEPS = p.1 / FEPS := by
  induction i with
  | zero => rfl
  | succ i ih => rw [Function.iterate_succ_apply', div_kept, ih]

lemma toNat_masked (c : UInt32) : (c &&& 0x0FFFFFFF).toNat = c.toNat % 2 ^ 28 := by
  have hmask : (0x0FFFFFFF : UInt32).toNat = 2 ^ 28 - 1 := rfl
  rw [UInt32.toNat_and, hmask, Nat.and_two_pow_sub_one_eq_mod]

/-- Only at the clusters of the last sector that a FAT can have does it come to an end mark. -/
lemma unbroken_of_low {first : UInt32} {pointer bytes : ℕ}
    (h : ((followed v)^[(pointer / (bytesPerCluster v).toNat).toUInt32.toNat +
      if pointer % (bytesPerCluster v).toNat = 0 then 0 else 1] (firstPlace first)).1 &&&
        0x0FFFFFFF < 0x0FFFFF80) : Unbroken v first pointer bytes := by
  intro i _ _
  obtain ⟨p, hp⟩ : ∃ p, (followed v)^[(pointer / (bytesPerCluster v).toNat).toUInt32.toNat +
    if pointer % (bytesPerCluster v).toNat = 0 then 0 else 1] (firstPlace first) = p := ⟨_, rfl⟩
  rw [hp] at h ⊢
  have hsector := congrArg UInt32.toNat (div_iterate_kept (v := v) p i)
  have hfeps : FEPS.toNat = 128 := rfl
  rw [UInt32.toNat_div, UInt32.toNat_div, hfeps] at hsector
  rw [UInt32.lt_iff_toNat_lt, toNat_masked] at h ⊢
  have hlow : (0x0FFFFF80 : UInt32).toNat = 268435328 := rfl
  have hmark : (0x0FFFFFF0 : UInt32).toNat = 268435440 := rfl
  rw [hlow] at h
  rw [hmark]
  omega

theorem fatRead_counts_iff_two :
    ∃ n l, fatRead (setupVolume (twoClusters 3) 0 (gibibyte 1)) startsAtTwo 500 100 (fun _ => 0)
      (fun _ => 0) = some (n, l) ∧ n = l.length := by
  obtain ⟨n, l, hread, hiff⟩ := fatRead_counts_iff (setupVolume (twoClusters 3) 0 (gibibyte 1))
    startsAtTwo 500 100 (fun _ => 0) (fun _ => 0) (by decide)
  exact ⟨n, l, hread, hiff.mpr (unbroken_of_low (by decide +kernel))⟩

/-- In a file that is said to be longer than its two clusters, 600 bytes from the second one on
are said to be read, and 512 are. -/
theorem not_fatRead_counts :
    IsChain (setupVolume (twoClusters 130) 0 (gibibyte 1)) [startsAtTwo.cluster, 130] ∧
    ∃ n l, fatRead (setupVolume (twoClusters 130) 0 (gibibyte 1)) startsAtTwo 512 600 (fun _ => 0)
      (fun _ => 0) = some (n, l) ∧ n = 600 ∧ l.length = 512 ∧ n ≠ l.length := by
  have heval : (fatRead (setupVolume (twoClusters 130) 0 (gibibyte 1)) startsAtTwo 512 600
      (fun _ => 0) (fun _ => 0)).map (fun r => (r.1, r.2.length)) = some (600, 512) := by
    decide +kernel
  obtain ⟨⟨n, l⟩, hread, hval⟩ := Option.map_eq_some_iff.mp heval
  simp only [Prod.mk.injEq] at hval
  obtain ⟨hn, hl⟩ := hval
  refine ⟨by decide +kernel, n, l, hread, hn, hl, ?_⟩
  rw [hn, hl]
  decide

end FlameOS.ShortRead
