import FlameOS.PIO
import FlameOS.Fat

/-!
Sectors through the driver and the ATA device: which address and count the device gets, and
what a run of either loop moves between the drive and the buffer. Reads are what `FAT.c` is
modelled on; writes lose half of each word.
-/

namespace FlameOS.SectorIO

open FlameOS.PIO

/-! ### The ports -/

def channelOf (disk : UInt32) : Bool := disk ≥ 2

variable {disk : UInt32} {fuel k n pos left : ℕ} {s : Bool → Channel} {buf : ℕ → UInt16}

lemma decode_portOf {r : ℕ} (hr : r < 8) :
    decode (portOf disk + r) = some (channelOf disk, r) := by
  unfold decode portOf channelOf PRIMARY SECOND
  by_cases hd : disk ≥ 2
  · rw [if_pos hd, if_neg (by omega), if_pos (by omega)]
    simp [hd]
  · rw [if_neg hd, if_pos (by omega)]
    simp [hd]

def withBusy (c : Channel) (w : ℕ) : Channel := { c with busy := w }

lemma withBusy_self (c : Channel) : withBusy c c.busy = c := rfl

lemma inb_sts (s : Bool → Channel) : ata.inb (portOf disk + STS) s =
    ((s (channelOf disk)).status, Function.update s (channelOf disk)
      (withBusy (s (channelOf disk)) ((s (channelOf disk)).busy - 1))) := by
  unfold ata
  simp only [decode_portOf (by decide : STS < 8), if_true]
  rfl

lemma outb_reg {r : ℕ} (hr : r < 8) (v : UInt8) (s : Bool → Channel) :
    ata.outb (portOf disk + r) v s =
      Function.update s (channelOf disk) ((s (channelOf disk)).writeReg r v) := by
  unfold ata
  simp only [decode_portOf hr]

lemma inw_dat (s : Bool → Channel) : ata.inw (portOf disk + DAT) s =
    ((s (channelOf disk)).getWord.1,
      Function.update s (channelOf disk) (s (channelOf disk)).getWord.2) := by
  unfold ata
  simp only [decode_portOf (by decide : DAT < 8), if_true]

/-! ### Waiting for the device -/

lemma status_busy (c : Channel) : c.status &&& BSY ≠ 0 ↔ 0 < c.busy := by
  unfold Channel.status
  split
  · rename_i h
    simp only [h, iff_true]
    decide
  · rename_i h
    simp only [gt_iff_lt] at h
    simp only [h, iff_false]
    split <;> decide

lemma status_drq {c : Channel} (hb : c.busy = 0) (ht : c.transfer.isSome) :
    c.status &&& DRQ ≠ 0 := by
  unfold Channel.status
  rw [if_neg (by omega), if_pos ht]
  decide

lemma poll_busy (hf : (s (channelOf disk)).busy < fuel) :
    ∃ s', poll ata (portOf disk) BSY fuel s = some s' ∧
      s' (channelOf disk) = withBusy (s (channelOf disk)) 0 := by
  induction fuel generalizing s with
  | zero => exact absurd hf (Nat.not_lt_zero _)
  | succ fuel ih =>
    rw [poll, inb_sts]
    dsimp only
    by_cases hb : 0 < (s (channelOf disk)).busy
    · rw [if_pos ((status_busy _).mpr hb)]
      obtain ⟨s', hs', hc⟩ := @ih (Function.update s (channelOf disk)
        (withBusy (s (channelOf disk)) ((s (channelOf disk)).busy - 1))) (by
          rw [Function.update_self]
          change (s (channelOf disk)).busy - 1 < fuel
          omega)
      rw [Function.update_self] at hc
      exact ⟨s', hs', hc⟩
    · rw [if_neg fun h => hb ((status_busy _).mp h)]
      refine ⟨_, rfl, ?_⟩
      rw [Function.update_self]
      congr 1
      omega

lemma antipoll_drq (hf : 0 < fuel) (hb : (s (channelOf disk)).busy = 0)
    (ht : (s (channelOf disk)).transfer.isSome) :
    ∃ s', antipoll ata (portOf disk) DRQ fuel s = some s' ∧
      s' (channelOf disk) = s (channelOf disk) := by
  obtain ⟨fuel, rfl⟩ : ∃ m, fuel = m + 1 := ⟨fuel - 1, by omega⟩
  rw [antipoll, inb_sts]
  dsimp only
  rw [if_neg (status_drq hb ht)]
  refine ⟨_, rfl, ?_⟩
  rw [Function.update_self, hb, Nat.zero_sub, ← hb, withBusy_self]

/-- `smalldelay` reads the status of the first channel, whichever the disk's is. -/
lemma statusReads_busy (n : ℕ) (s : Bool → Channel) (ch : Bool) :
    ∃ w ≤ (s ch).busy, statusReads ata n s ch = withBusy (s ch) w := by
  induction n generalizing s with
  | zero => exact ⟨(s ch).busy, le_refl _, rfl⟩
  | succ n ih =>
    have hdec : decode (PRIMARY + STS) = some (false, STS) := rfl
    have hin : (ata.inb (PRIMARY + STS) s).2 =
        Function.update s false (withBusy (s false) ((s false).busy - 1)) := by
      unfold ata
      simp only [hdec, if_true]
      rfl
    rw [statusReads, hin]
    obtain ⟨w, hw, hs⟩ := ih (Function.update s false (withBusy (s false) ((s false).busy - 1)))
    by_cases hch : ch = false
    · subst hch
      rw [Function.update_self] at hw hs
      exact ⟨w, hw.trans (Nat.sub_le _ 1), hs⟩
    · rw [Function.update_of_ne hch] at hw hs
      exact ⟨w, hw, hs⟩

lemma waitSector_eq (hf : (s (channelOf disk)).busy < fuel)
    (ht : (s (channelOf disk)).transfer.isSome) :
    ∃ s', waitSector ata (portOf disk) fuel s = some s' ∧
      s' (channelOf disk) = withBusy (s (channelOf disk)) 0 := by
  obtain ⟨w, hw, hd⟩ := statusReads_busy 15 s (channelOf disk)
  have hd' : smalldelay ata s (channelOf disk) = withBusy (s (channelOf disk)) w := hd
  obtain ⟨s₁, hs₁, hc₁⟩ := @poll_busy disk fuel (smalldelay ata s) (by
    rw [hd']
    exact lt_of_le_of_lt hw hf)
  rw [hd'] at hc₁
  have hc : s₁ (channelOf disk) = withBusy (s (channelOf disk)) 0 := hc₁
  obtain ⟨s₂, hs₂, hc₂⟩ := @antipoll_drq disk fuel s₁ (by omega) (by rw [hc]; rfl)
    (by rw [hc]; exact ht)
  refine ⟨s₂, ?_, hc₂.trans hc⟩
  rw [waitSector, hs₁]
  exact hs₂

/-! ### The words of a sector -/

/-- A command in progress with `left` words to come. -/
def moving (write : Bool) (pos left : ℕ) : Option Transfer :=
  if left = 0 then none else some ⟨write, pos, left⟩

/-- The drives after `n` words have been stored from `pos` on. -/
def stored (c : Channel) (f : ℕ → UInt16) (pos n : ℕ) : Bool → ℕ → UInt16 := fun d a =>
  if d = c.slave ∧ pos ≤ a ∧ a < pos + n then f (a - pos) else c.drive d a

def sectorDone (c : Channel) (t : Option Transfer) (pos : ℕ) (drive : Bool → ℕ → UInt16) :
    Channel :=
  { c with transfer := t, busy := c.delay pos, drive := drive }

lemma stored_zero (c : Channel) (f : ℕ → UInt16) (pos : ℕ) : stored c f pos 0 = c.drive := by
  ext d a : 2
  exact if_neg (by omega)

lemma moving_zero (write : Bool) (pos : ℕ) : moving write pos 0 = none := if_pos rfl

lemma advance_transfer (c : Channel) (t : Transfer) :
    (c.advance t).transfer = moving t.write (t.pos + 1) (t.left - 1) := by
  unfold Channel.advance moving
  dsimp only
  by_cases h : t.left ≤ 1
  · rw [if_pos h, if_pos (by omega)]
  · rw [if_neg h, if_neg (by omega)]

lemma store_drive (c : Channel) (pos : ℕ) (w : UInt16) :
    (c.store pos w).drive = stored c (fun _ => w) pos 1 := by
  ext d a : 2
  unfold Channel.store stored
  dsimp only
  by_cases hd : d = c.slave
  · subst hd
    rw [Function.update_self]
    by_cases ha : a = pos
    · subst ha
      rw [Function.update_self, if_pos ⟨rfl, le_refl a, Nat.lt_succ_self a⟩]
    · rw [Function.update_of_ne ha, if_neg]
      rintro ⟨-, h₁, h₂⟩
      omega
  · rw [Function.update_of_ne hd, if_neg fun h => hd h.1]

lemma writeReg_dat {c : Channel} (hb : c.busy = 0) (ht : c.transfer = some ⟨true, pos, left⟩)
    (v : UInt8) : c.writeReg DAT v = (c.store pos v.toUInt16).advance ⟨true, pos, left⟩ := by
  unfold Channel.writeReg
  rw [if_neg (by omega), if_pos rfl, Channel.putWord, ht]
  rfl

lemma stored_succ (c : Channel) (t : Transfer) (f : ℕ → UInt16) (pos n : ℕ) :
    stored ((c.store pos (f 0)).advance t) (fun j => f (j + 1)) (pos + 1) n =
      stored c f pos (n + 1) := by
  have hdrive : ((c.store pos (f 0)).advance t).drive = stored c (fun _ => f 0) pos 1 :=
    store_drive c pos (f 0)
  have hslave : ((c.store pos (f 0)).advance t).slave = c.slave := rfl
  ext d a : 2
  rw [stored, hdrive, hslave, stored, stored]
  by_cases hd : d = c.slave
  · by_cases h₁ : pos + 1 ≤ a ∧ a < pos + 1 + n
    · rw [if_pos ⟨hd, h₁⟩, if_pos ⟨hd, by omega, by omega⟩]
      congr 1
      omega
    · rw [if_neg fun h => h₁ h.2]
      by_cases h₀ : a = pos
      · subst h₀
        rw [if_pos ⟨hd, by omega, by omega⟩, if_pos ⟨hd, by omega, by omega⟩, Nat.sub_self]
      · rw [if_neg fun h => h₀ (by omega), if_neg fun h => h₁ (by omega)]
  · rw [if_neg fun h => hd h.1, if_neg fun h => hd h.1, if_neg fun h => hd h.1]

lemma writeWords_eq (hn0 : 0 < n) (hn : n ≤ 256) (hle : n ≤ left) (hmod : left % 256 = n % 256)
    (hb : (s (channelOf disk)).busy = 0)
    (ht : (s (channelOf disk)).transfer = some ⟨true, pos, left⟩) :
    writeWords ata (portOf disk) buf n k s (channelOf disk) =
      sectorDone (s (channelOf disk)) (moving true (pos + n) (left - n)) (pos + n)
        (stored (s (channelOf disk)) (fun j => (buf (k + j)).toUInt8.toUInt16) pos n) := by
  induction n generalizing s k pos left with
  | zero => exact absurd hn0 (Nat.lt_irrefl 0)
  | succ n ih =>
    rw [writeWords, outb_reg (by decide : DAT < 8), writeReg_dat hb ht]
    generalize hc : s (channelOf disk) = c at hb ht
    let f : ℕ → UInt16 := fun j => (buf (k + j)).toUInt8.toUInt16
    have hbusy : ((c.store pos (f 0)).advance ⟨true, pos, left⟩).busy =
        if (left - 1) % 256 = 0 then c.delay (pos + 1) else 0 := rfl
    have htr := advance_transfer (c.store pos (f 0)) ⟨true, pos, left⟩
    rcases Nat.eq_zero_or_pos n with rfl | hn'
    · -- the last word of the sector
      rw [writeWords, Function.update_self]
      have hdrive : stored c (fun _ => f 0) pos 1 = stored c f pos 1 := by
        rw [← store_drive, ← stored_succ c ⟨true, pos, left⟩ f pos 0, stored_zero]
        rfl
      rw [if_pos (by omega)] at hbusy
      calc (c.store pos (f 0)).advance ⟨true, pos, left⟩
          = { c with
              transfer := ((c.store pos (f 0)).advance ⟨true, pos, left⟩).transfer
              busy := ((c.store pos (f 0)).advance ⟨true, pos, left⟩).busy
              drive := (c.store pos (f 0)).drive } := rfl
        _ = sectorDone c (moving true (pos + 1) (left - 1)) (pos + 1) (stored c f pos 1) := by
            rw [htr, hbusy, store_drive, hdrive]
            rfl
    · have hne : (left - 1) % 256 ≠ 0 := by omega
      rw [if_neg hne] at hbusy
      have hih := @ih (k + 1) (pos + 1) (left - 1)
        (Function.update s (channelOf disk) ((c.store pos (f 0)).advance ⟨true, pos, left⟩)) hn'
        (by omega) (by omega) (by omega) (by rw [Function.update_self]; exact hbusy)
        (by
          rw [Function.update_self, htr, moving, if_neg]
          dsimp only
          omega)
      refine hih.trans ?_
      rw [Function.update_self]
      have hshift : (fun j => (buf (k + 1 + j)).toUInt8.toUInt16) = fun j => f (j + 1) := by
        funext j
        change _ = (buf (k + (j + 1))).toUInt8.toUInt16
        rw [Nat.add_assoc, Nat.add_comm 1 j]
      rw [hshift, stored_succ, Nat.add_right_comm pos 1 n, Nat.sub_right_comm left 1 n]
      rfl

def filled (f : ℕ → UInt16) (k n : ℕ) (buf : ℕ → UInt16) : ℕ → UInt16 := fun a =>
  if k ≤ a ∧ a < k + n then f (a - k) else buf a

lemma filled_zero (f : ℕ → UInt16) (k : ℕ) (buf : ℕ → UInt16) : filled f k 0 buf = buf := by
  ext a : 1
  exact if_neg (by omega)

lemma filled_add (f : ℕ → UInt16) (k m n : ℕ) (buf : ℕ → UInt16) :
    filled (fun j => f (m + j)) (k + m) n (filled f k m buf) = filled f k (m + n) buf := by
  ext a : 1
  unfold filled
  by_cases h₁ : k + m ≤ a ∧ a < k + m + n
  · have ha : m + (a - (k + m)) = a - k := by omega
    rw [if_pos h₁, if_pos (by omega), ← ha]
  · rw [if_neg h₁]
    by_cases h₂ : k ≤ a ∧ a < k + m
    · rw [if_pos h₂, if_pos (by omega)]
    · rw [if_neg h₂, if_neg (by omega)]

lemma update_eq_filled (f : ℕ → UInt16) (k : ℕ) (buf : ℕ → UInt16) :
    Function.update buf k (f 0) = filled f k 1 buf := by
  ext a : 1
  unfold filled
  by_cases ha : a = k
  · subst ha
    rw [Function.update_self, if_pos (by omega), Nat.sub_self]
  · rw [Function.update_of_ne ha, if_neg (by omega)]

lemma getWord_eq {c : Channel} (hb : c.busy = 0) (ht : c.transfer = some ⟨false, pos, left⟩) :
    c.getWord = (c.drive c.slave pos, c.advance ⟨false, pos, left⟩) := by
  unfold Channel.getWord
  rw [ht]
  simp [hb]

lemma readWords_eq (hn0 : 0 < n) (hn : n ≤ 256) (hle : n ≤ left) (hmod : left % 256 = n % 256)
    (hb : (s (channelOf disk)).busy = 0)
    (ht : (s (channelOf disk)).transfer = some ⟨false, pos, left⟩) :
    (readWords ata (portOf disk) n k (s, buf)).1 (channelOf disk) =
      sectorDone (s (channelOf disk)) (moving false (pos + n) (left - n)) (pos + n)
        (s (channelOf disk)).drive ∧
    (readWords ata (portOf disk) n k (s, buf)).2 =
      filled (fun j => (s (channelOf disk)).drive (s (channelOf disk)).slave (pos + j)) k n
        buf := by
  induction n generalizing s k pos left buf with
  | zero => exact absurd hn0 (Nat.lt_irrefl 0)
  | succ n ih =>
    rw [readWords]
    dsimp only
    rw [inw_dat, getWord_eq hb ht]
    dsimp only
    generalize hc : s (channelOf disk) = c at hb ht
    have hbusy : (c.advance ⟨false, pos, left⟩).busy =
        if (left - 1) % 256 = 0 then c.delay (pos + 1) else 0 := rfl
    have htr := advance_transfer c ⟨false, pos, left⟩
    have hfill : Function.update buf k (c.drive c.slave pos) =
        filled (fun j => c.drive c.slave (pos + j)) k 1 buf :=
      update_eq_filled (fun j => c.drive c.slave (pos + j)) k buf
    rw [hfill]
    rcases Nat.eq_zero_or_pos n with rfl | hn'
    · -- the last word of the sector
      rw [readWords]
      dsimp only
      rw [Function.update_self]
      rw [if_pos (by omega)] at hbusy
      refine ⟨?_, rfl⟩
      calc c.advance ⟨false, pos, left⟩
          = { c with
              transfer := (c.advance ⟨false, pos, left⟩).transfer
              busy := (c.advance ⟨false, pos, left⟩).busy } := rfl
        _ = sectorDone c (moving false (pos + 1) (left - 1)) (pos + 1) c.drive := by
            rw [htr, hbusy]
            rfl
    · rw [if_neg (by omega)] at hbusy
      have hih := @ih (k + 1) (pos + 1) (left - 1)
        (Function.update s (channelOf disk) (c.advance ⟨false, pos, left⟩))
        (filled (fun j => c.drive c.slave (pos + j)) k 1 buf) hn'
        (by omega) (by omega) (by omega) (by rw [Function.update_self]; exact hbusy)
        (by
          rw [Function.update_self, htr, moving, if_neg]
          dsimp only
          omega)
      rw [Function.update_self] at hih
      refine ⟨hih.1.trans ?_, hih.2.trans ?_⟩
      · rw [Nat.add_right_comm pos 1 n, Nat.sub_right_comm left 1 n]
        rfl
      · have hadd := filled_add (fun j => c.drive c.slave (pos + j)) k 1 n buf
        rw [Nat.add_comm 1 n] at hadd
        rw [← hadd]
        congr 1
        ext j : 1
        rw [← Nat.add_assoc]
        rfl

/-! ### The sectors of a command -/

/-- A channel whose command has been carried out, `w` status reads from being idle. -/
def finished (c : Channel) (w : ℕ) (drive : Bool → ℕ → UInt16) : Channel :=
  { c with transfer := none, busy := w, drive := drive }

lemma sectorDone_transfer (c : Channel) (t : Option Transfer) (p : ℕ)
    (drive : Bool → ℕ → UInt16) : (sectorDone c t p drive).transfer = t := rfl

lemma sectorDone_drive (c : Channel) (t : Option Transfer) (p : ℕ) (drive : Bool → ℕ → UInt16) :
    (sectorDone c t p drive).drive = drive := rfl

lemma sectorDone_slave (c : Channel) (t : Option Transfer) (p : ℕ) (drive : Bool → ℕ → UInt16) :
    (sectorDone c t p drive).slave = c.slave := rfl

lemma finished_drive (c : Channel) (w : ℕ) (drive : Bool → ℕ → UInt16) :
    (finished c w drive).drive = drive := rfl

lemma finished_sectorDone (c : Channel) (t : Option Transfer) (p w : ℕ)
    (drive drive' : Bool → ℕ → UInt16) :
    finished (sectorDone c t p drive) w drive' = finished c w drive' := rfl

lemma stored_add (c : Channel) (t : Option Transfer) (p : ℕ) (f : ℕ → UInt16) (pos m n : ℕ) :
    stored (sectorDone c t p (stored c f pos m)) (fun j => f (m + j)) (pos + m) n =
      stored c f pos (m + n) := by
  have hslave : (sectorDone c t p (stored c f pos m)).slave = c.slave := rfl
  ext d a : 2
  rw [stored, hslave, stored]
  by_cases hd : d = c.slave
  · by_cases h₁ : pos + m ≤ a ∧ a < pos + m + n
    · have ha : m + (a - (pos + m)) = a - pos := by omega
      rw [if_pos ⟨hd, h₁⟩, if_pos ⟨hd, by omega, by omega⟩, ha]
    · rw [if_neg fun h => h₁ h.2]
      change stored c f pos m d a = _
      rw [stored]
      by_cases h₂ : pos ≤ a ∧ a < pos + m
      · rw [if_pos ⟨hd, h₂⟩, if_pos ⟨hd, h₂.1, by omega⟩]
      · rw [if_neg fun h => h₂ h.2, if_neg]
        rintro ⟨-, h₃, h₄⟩
        omega
  · rw [if_neg fun h => hd h.1, if_neg fun h => hd h.1]
    exact if_neg fun h => hd h.1

lemma moving_succ (write : Bool) (pos i : ℕ) :
    moving write pos (256 * (i + 1)) = some ⟨write, pos, 256 * (i + 1)⟩ := if_neg (by omega)

lemma delay_tail {c : Channel} {pos i : ℕ} (hd : ∀ j ≤ i + 1, c.delay (pos + 256 * j) < fuel) :
    ∀ j ≤ i, c.delay (pos + 256 + 256 * j) < fuel := by
  intro j hj
  rw [Nat.add_assoc, Nat.add_comm 256 (256 * j)]
  exact hd (j + 1) (by omega)

lemma writeSectors_eq {i : ℕ} (hb : (s (channelOf disk)).busy < fuel)
    (hd : ∀ j ≤ i, (s (channelOf disk)).delay (pos + 256 * j) < fuel)
    (ht : (s (channelOf disk)).transfer = moving true pos (256 * i)) :
    ∃ s', writeSectors ata (portOf disk) fuel buf i k s = some s' ∧
      ∃ w < fuel, s' (channelOf disk) = finished (s (channelOf disk)) w
        (stored (s (channelOf disk)) (fun j => (buf (k + j)).toUInt8.toUInt16) pos (256 * i)) := by
  induction i generalizing s k pos with
  | zero =>
    refine ⟨s, rfl, (s (channelOf disk)).busy, hb, ?_⟩
    rw [Nat.mul_zero, moving_zero] at ht
    rw [Nat.mul_zero, stored_zero, finished, ← ht]
  | succ i ih =>
    rw [moving_succ] at ht
    obtain ⟨s₁, hs₁, hc₁⟩ := waitSector_eq hb (by rw [ht]; rfl)
    have hwords := @writeWords_eq disk k 256 pos (256 * (i + 1)) s₁ buf (by decide) (le_refl _)
      (by omega) (by omega) (by rw [hc₁]; rfl) (by rw [hc₁]; exact ht)
    rw [hc₁] at hwords
    generalize s (channelOf disk) = c at *
    have hd' := delay_tail hd
    rw [writeSectors, hs₁, Option.bind_some]
    obtain ⟨s₂, hs₂, w, hw, hc₂⟩ := @ih (k + 256) (pos + 256)
      (writeWords ata (portOf disk) buf 256 k s₁) (by rw [hwords]; exact hd 1 (by omega))
      (by rw [hwords]; exact hd') (by
        rw [hwords, sectorDone_transfer, Nat.mul_succ, Nat.add_sub_cancel])
    refine ⟨s₂, hs₂, w, hw, ?_⟩
    rw [hc₂, hwords, finished_sectorDone]
    have hadd := stored_add (withBusy c 0) (moving true (pos + 256) (256 * (i + 1) - 256))
      (pos + 256) (fun j => (buf (k + j)).toUInt8.toUInt16) pos 256 (256 * i)
    rw [Nat.add_comm 256 (256 * i), ← Nat.mul_succ] at hadd
    simp only [← Nat.add_assoc] at hadd
    rw [hadd]
    rfl

lemma readSectors_eq {i : ℕ} (hb : (s (channelOf disk)).busy < fuel)
    (hd : ∀ j ≤ i, (s (channelOf disk)).delay (pos + 256 * j) < fuel)
    (ht : (s (channelOf disk)).transfer = moving false pos (256 * i)) :
    ∃ s', readSectors ata (portOf disk) fuel i k (s, buf) = some (s',
        filled (fun j => (s (channelOf disk)).drive (s (channelOf disk)).slave (pos + j)) k
          (256 * i) buf) ∧
      ∃ w < fuel, s' (channelOf disk) =
        finished (s (channelOf disk)) w (s (channelOf disk)).drive := by
  induction i generalizing s k pos buf with
  | zero =>
    rw [Nat.mul_zero, filled_zero]
    rw [Nat.mul_zero, moving_zero] at ht
    refine ⟨s, rfl, (s (channelOf disk)).busy, hb, ?_⟩
    rw [finished, ← ht]
  | succ i ih =>
    rw [moving_succ] at ht
    obtain ⟨s₁, hs₁, hc₁⟩ := waitSector_eq hb (by rw [ht]; rfl)
    obtain ⟨hwords, hbuf⟩ := @readWords_eq disk k 256 pos (256 * (i + 1)) s₁ buf (by decide)
      (le_refl _) (by omega) (by omega) (by rw [hc₁]; rfl) (by rw [hc₁]; exact ht)
    rw [hc₁] at hwords hbuf
    generalize s (channelOf disk) = c at *
    have hd' := delay_tail hd
    rw [readSectors]
    dsimp only
    rw [hs₁, Option.bind_some]
    generalize readWords ata (portOf disk) 256 k (s₁, buf) = r at *
    obtain ⟨s', buf'⟩ := r
    dsimp only at hwords hbuf
    obtain ⟨s₂, hs₂, w, hw, hc₂⟩ := @ih (k + 256) (pos + 256) s' buf'
      (by rw [hwords]; exact hd 1 (by omega)) (by rw [hwords]; exact hd') (by
        rw [hwords, sectorDone_transfer, Nat.mul_succ, Nat.add_sub_cancel])
    have hadd := filled_add (fun j => c.drive c.slave (pos + j)) k 256 (256 * i) buf
    rw [Nat.add_comm 256 (256 * i), ← Nat.mul_succ] at hadd
    simp only [← Nat.add_assoc] at hadd
    refine ⟨s₂, ?_, w, hw, ?_⟩
    · rw [hs₂, hwords, hbuf, sectorDone_drive, sectorDone_slave, ← hadd]
      rfl
    · rw [hc₂, hwords, finished_sectorDone, sectorDone_drive]
      rfl

/-! ### The whole commands -/

lemma lbaBytes (LBA : UInt64) :
    LBA.toUInt8.toNat + (LBA >>> 8).toUInt8.toNat * 2 ^ 8 + (LBA >>> 16).toUInt8.toNat * 2 ^ 16 +
        (LBA >>> 24).toUInt8.toNat * 2 ^ 24 + (LBA >>> 32).toUInt8.toNat * 2 ^ 32 +
        (LBA >>> 40).toUInt8.toNat * 2 ^ 40 = LBA.toNat % 2 ^ 48 := by
  have h8 : (LBA >>> 8).toUInt8.toNat = LBA.toNat / 2 ^ 8 % 2 ^ 8 := by
    simp [Nat.shiftRight_eq_div_pow]
  have h16 : (LBA >>> 16).toUInt8.toNat = LBA.toNat / 2 ^ 16 % 2 ^ 8 := by
    simp [Nat.shiftRight_eq_div_pow]
  have h24 : (LBA >>> 24).toUInt8.toNat = LBA.toNat / 2 ^ 24 % 2 ^ 8 := by
    simp [Nat.shiftRight_eq_div_pow]
  have h32 : (LBA >>> 32).toUInt8.toNat = LBA.toNat / 2 ^ 32 % 2 ^ 8 := by
    simp [Nat.shiftRight_eq_div_pow]
  have h40 : (LBA >>> 40).toUInt8.toNat = LBA.toNat / 2 ^ 40 % 2 ^ 8 := by
    simp [Nat.shiftRight_eq_div_pow]
  rw [h8, h16, h24, h32, h40, UInt64.toNat_toUInt8]
  omega

lemma countBytes (count : UInt16) :
    count.toUInt8.toNat + (count >>> 8).toUInt8.toNat * 2 ^ 8 = count.toNat := by
  have h8 : (count >>> 8).toUInt8.toNat = count.toNat / 2 ^ 8 % 2 ^ 8 := by
    simp [Nat.shiftRight_eq_div_pow]
  have hlt := count.toNat_lt
  rw [h8, UInt16.toNat_toUInt8]
  omega

section registers

variable {c : Channel}

lemma writeReg_sec (hb : c.busy = 0) (v : UInt8) :
    c.writeReg SEC v = { c with sec := (c.sec.2, v) } := if_neg (by omega)

lemma writeReg_lbalo (hb : c.busy = 0) (v : UInt8) :
    c.writeReg LBALO v = { c with lbalo := (c.lbalo.2, v) } := if_neg (by omega)

lemma writeReg_lbamid (hb : c.busy = 0) (v : UInt8) :
    c.writeReg LBAMID v = { c with lbamid := (c.lbamid.2, v) } := if_neg (by omega)

lemma writeReg_lbahi (hb : c.busy = 0) (v : UInt8) :
    c.writeReg LBAHI v = { c with lbahi := (c.lbahi.2, v) } := if_neg (by omega)

lemma writeReg_dhr (hb : c.busy = 0) (v : UInt8) : c.writeReg DHR v = { c with dhr := v } :=
  if_neg (by omega)

lemma writeReg_cmd (hb : c.busy = 0) (v : UInt8) : c.writeReg CMD v = c.command v :=
  if_neg (by omega)

end registers

def addressed (c : Channel) (LBA : UInt64) (count : UInt16) (disk : UInt32) : Channel :=
  { c with
    sec := ((count >>> 8).toUInt8, count.toUInt8)
    lbalo := ((LBA >>> 24).toUInt8, LBA.toUInt8)
    lbamid := ((LBA >>> 32).toUInt8, (LBA >>> 8).toUInt8)
    lbahi := ((LBA >>> 40).toUInt8, (LBA >>> 16).toUInt8)
    dhr := outcmdOf disk
    busy := 0 }

lemma sendCommand_regs {LBA : UInt64} {count : UInt16} (cmd : UInt8)
    (hf : (s (channelOf disk)).busy < fuel) :
    ∃ s', sendCommand ata cmd fuel LBA count disk s = some s' ∧
      s' (channelOf disk) = (addressed (s (channelOf disk)) LBA count disk).command cmd := by
  obtain ⟨s₁, hs₁, hc₁⟩ := poll_busy hf
  rw [sendCommand]
  dsimp only
  rw [hs₁, Option.map_some]
  refine ⟨_, rfl, ?_⟩
  rw [outb_reg (by decide : DHR < 8), outb_reg (by decide : SEC < 8),
    outb_reg (by decide : LBALO < 8), outb_reg (by decide : LBAMID < 8),
    outb_reg (by decide : LBAHI < 8), outb_reg (by decide : SEC < 8),
    outb_reg (by decide : LBALO < 8), outb_reg (by decide : LBAMID < 8),
    outb_reg (by decide : LBAHI < 8), outb_reg (by decide : CMD < 8)]
  have hidle : (withBusy (s (channelOf disk)) 0).busy = 0 := rfl
  simp only [Function.update_self, hc₁, writeReg_dhr, writeReg_sec, writeReg_lbalo,
    writeReg_lbamid, writeReg_lbahi, writeReg_cmd, hidle]
  rfl

def wordOf (LBA : UInt64) : ℕ := LBA.toNat % 2 ^ 48 * 256

def slaveOf (disk : UInt32) : Bool := (outcmdOf disk &&& 0x10) ≠ 0

lemma addressed_lba (c : Channel) (LBA : UInt64) (count : UInt16) (disk : UInt32) :
    (addressed c LBA count disk).lba = LBA.toNat % 2 ^ 48 := lbaBytes LBA

lemma addressed_sectors (c : Channel) (LBA : UInt64) {count : UInt16} (disk : UInt32)
    (hcount : count ≠ 0) : (addressed c LBA count disk).sectors = count.toNat := by
  have hbytes : (addressed c LBA count disk).sec.2.toNat +
      (addressed c LBA count disk).sec.1.toNat * 2 ^ 8 = count.toNat := countBytes count
  have hne : count.toNat ≠ 0 := fun h => hcount (UInt16.toNat_inj.mp h)
  unfold Channel.sectors
  rw [hbytes, if_neg hne]

/-- The channel when it has taken a command. -/
def commanded (c : Channel) (write : Bool) (LBA : UInt64) (count : UInt16) (disk : UInt32) :
    Channel :=
  { addressed c LBA count disk with
    transfer := moving write (wordOf LBA) (256 * count.toNat)
    busy := c.delay (wordOf LBA) }

lemma command_addressed (c : Channel) (write : Bool) (LBA : UInt64) {count : UInt16}
    (disk : UInt32) (hcount : count ≠ 0) :
    (addressed c LBA count disk).command (if write then WRITE else READ) =
      commanded c write LBA count disk := by
  have hne : count.toNat ≠ 0 := fun h => hcount (UInt16.toNat_inj.mp h)
  have hcmd : (if write then WRITE else READ) = READ ∨ (if write then WRITE else READ) = WRITE := by
    cases write <;> simp
  have hwrite : decide ((if write then WRITE else READ) = WRITE) = write := by
    cases write <;> decide
  rw [Channel.command, if_pos hcmd, hwrite, addressed_lba, addressed_sectors c LBA disk hcount,
    commanded, moving, if_neg (by omega), Nat.mul_comm 256 count.toNat]
  rfl

variable {LBA : UInt64} {count : UInt16}

/-- Enough rounds of polling for a command: more than the channel of the disk is ever busy. -/
def Patient (fuel : ℕ) (c : Channel) (LBA : UInt64) (count : UInt16) : Prop :=
  c.busy < fuel ∧ ∀ j ≤ count.toNat, c.delay (wordOf LBA + 256 * j) < fuel

lemma patient_word {c : Channel} (hf : Patient fuel c LBA count) : c.delay (wordOf LBA) < fuel := by
  have h := hf.2 0 (Nat.zero_le _)
  rwa [Nat.mul_zero, Nat.add_zero] at h

lemma sendCommand_eq (write : Bool) (hcount : count ≠ 0)
    (hf : Patient fuel (s (channelOf disk)) LBA count) :
    ∃ s', sendCommand ata (if write then WRITE else READ) fuel LBA count disk s = some s' ∧
      s' (channelOf disk) = commanded (s (channelOf disk)) write LBA count disk := by
  obtain ⟨s', hs', hc⟩ := @sendCommand_regs disk fuel s LBA count
    (if write then WRITE else READ) hf.1
  exact ⟨s', hs', hc.trans (command_addressed _ write LBA disk hcount)⟩

lemma writesectorpio_eq (hcount : count ≠ 0)
    (hf : Patient fuel (s (channelOf disk)) LBA count) :
    ∃ s', writesectorpio ata fuel LBA count buf disk s = some s' ∧
      ∃ w < fuel, s' (channelOf disk) =
        finished (addressed (s (channelOf disk)) LBA count disk) w
          (stored (addressed (s (channelOf disk)) LBA count disk)
            (fun j => (buf j).toUInt8.toUInt16) (wordOf LBA) (256 * count.toNat)) := by
  obtain ⟨s₁, hs₁, hc₁⟩ := sendCommand_eq true hcount hf
  obtain ⟨s₂, hs₂, w, hw, hc₂⟩ := @writeSectors_eq disk fuel 0 (wordOf LBA) s₁ buf count.toNat
    (by rw [hc₁]; exact patient_word hf) (by rw [hc₁]; exact hf.2) (by rw [hc₁]; rfl)
  rw [writesectorpio]
  refine ⟨s₂, ?_, w, hw, ?_⟩
  · rw [if_pos rfl] at hs₁
    rw [hs₁]
    exact hs₂
  · rw [hc₂, hc₁]
    simp only [Nat.zero_add]
    rfl

lemma readsectorpio_eq (hcount : count ≠ 0)
    (hf : Patient fuel (s (channelOf disk)) LBA count) :
    ∃ s', readsectorpio ata fuel LBA count buf disk s = some (s',
        filled (fun j => (s (channelOf disk)).drive (slaveOf disk) (wordOf LBA + j)) 0
          (256 * count.toNat) buf) ∧
      ∃ w < fuel, s' (channelOf disk) =
        finished (addressed (s (channelOf disk)) LBA count disk) w
          (s (channelOf disk)).drive := by
  obtain ⟨s₁, hs₁, hc₁⟩ := sendCommand_eq false hcount hf
  obtain ⟨s₂, hs₂, w, hw, hc₂⟩ := @readSectors_eq disk fuel 0 (wordOf LBA) s₁ buf count.toNat
    (by rw [hc₁]; exact patient_word hf) (by rw [hc₁]; exact hf.2) (by rw [hc₁]; rfl)
  rw [readsectorpio]
  refine ⟨s₂, ?_, w, hw, ?_⟩
  · rw [if_neg Bool.false_ne_true] at hs₁
    rw [hs₁, Option.bind_some, hs₂, hc₁]
    rfl
  · rw [hc₂, hc₁]
    rfl

/-! ### The bytes of a disk -/

def bytesOfWords (buf : ℕ → UInt16) : Fat.Buffer := fun i =>
  if i % 2 = 0 then (buf (i / 2)).toUInt8 else (buf (i / 2) >>> 8).toUInt8

/-- The drive has the words of the disk. -/
def Stores (drive : ℕ → UInt16) (D : Fat.Disk) : Prop :=
  ∀ lba i, i < 256 → drive (lba * 256 + i) = Fat.le16 (D lba (2 * i)) (D lba (2 * i + 1))

lemma toUInt8_le16 (a b : UInt8) : (Fat.le16 a b).toUInt8 = a := by
  apply UInt8.toBitVec_inj.mp
  ext i hi
  simp [Fat.le16]

lemma toUInt8_shiftRight_le16 (a b : UInt8) : (Fat.le16 a b >>> 8).toUInt8 = b := by
  apply UInt8.toBitVec_inj.mp
  ext i hi
  have h₁ : 8 + i < 16 := by omega
  have h₂ : i < 16 := by omega
  simp [Fat.le16, h₁, h₂, BitVec.getLsbD_eq_getElem hi]

/-- **The driver reads sectors.** On a drive with the words of a disk, `readsectorpio` does to
the bytes of the buffer what it is said to do where files are read. -/
theorem readsectorpio_refines (hcount : count ≠ 0)
    (hf : Patient fuel (s (channelOf disk)) LBA count) {D : Fat.Disk}
    (hD : Stores ((s (channelOf disk)).drive (slaveOf disk)) D) :
    ∃ s' out, readsectorpio ata fuel LBA count buf disk s = some (s', out) ∧
      bytesOfWords out = Fat.readsectorpio D LBA count.toNat (bytesOfWords buf) := by
  obtain ⟨s', hs', -⟩ := @readsectorpio_eq disk fuel s buf LBA count hcount hf
  refine ⟨s', _, hs', ?_⟩
  ext i : 1
  unfold bytesOfWords Fat.readsectorpio Fat.SECTOR_SIZE filled
  by_cases hi : i < count.toNat * 512
  · have hword : 0 ≤ i / 2 ∧ i / 2 < 0 + 256 * count.toNat := by omega
    have hplace : wordOf LBA + (i / 2 - 0) =
        (LBA.toNat % 2 ^ 48 + i / 512) * 256 + i % 512 / 2 := by
      unfold wordOf
      omega
    rw [if_pos hi, if_pos hword]
    dsimp only
    rw [hplace, hD _ _ (by omega), toUInt8_le16, toUInt8_shiftRight_le16]
    by_cases heven : i % 2 = 0
    · have hlow : 2 * (i % 512 / 2) = i % 512 := by omega
      rw [if_pos heven, hlow]
    · have hhigh : 2 * (i % 512 / 2) + 1 = i % 512 := by omega
      rw [if_neg heven, hhigh]
  · have hword : ¬ (0 ≤ i / 2 ∧ i / 2 < 0 + 256 * count.toNat) := by omega
    rw [if_neg hi, if_neg hword]
/-! ### Written and read back -/

/-- The rounds of polling for a write and a read of the same sectors. -/
lemma patient_bound (c : Channel) (LBA : UInt64) (count : UInt16) :
    ∃ N, ∀ fuel ≥ N, Patient fuel c LBA count := by
  refine ⟨c.busy + (Finset.range (count.toNat + 1)).sup
    (fun j => c.delay (wordOf LBA + 256 * j)) + 1, fun fuel hfuel => ⟨by omega, fun j hj => ?_⟩⟩
  have hmem : j ∈ Finset.range (count.toNat + 1) := Finset.mem_range.mpr (by omega)
  have hle := Finset.le_sup (f := fun j => c.delay (wordOf LBA + 256 * j)) hmem
  omega

/-- A read of the sectors just written gives back the low byte of each word. -/
lemma read_after_write (s : Bool → Channel) (LBA : UInt64) {count : UInt16} (hcount : count ≠ 0)
    (disk : UInt32) (input out : ℕ → UInt16) :
    ∃ N, ∀ fuel ≥ N, ∃ s₁, writesectorpio ata fuel LBA count input disk s = some s₁ ∧
      ∃ s₂ out', readsectorpio ata fuel LBA count out disk s₁ = some (s₂, out') ∧
        ∀ i < count.toNat * 256, out' i = (input i).toUInt8.toUInt16 := by
  obtain ⟨N, hN⟩ := patient_bound (s (channelOf disk)) LBA count
  refine ⟨N, fun fuel hfuel => ?_⟩
  obtain ⟨s₁, hs₁, w, hw, hc₁⟩ := @writesectorpio_eq disk fuel s input LBA count hcount
    (hN fuel hfuel)
  have hf₁ : Patient fuel (s₁ (channelOf disk)) LBA count := by
    rw [hc₁]
    exact ⟨hw, (hN fuel hfuel).2⟩
  obtain ⟨s₂, hs₂, -⟩ := @readsectorpio_eq disk fuel s₁ out LBA count hcount hf₁
  refine ⟨s₁, hs₁, s₂, _, hs₂, fun i hi => ?_⟩
  have hslave : (addressed (s (channelOf disk)) LBA count disk).slave = slaveOf disk := rfl
  rw [filled, if_pos (by omega), hc₁, Nat.sub_zero]
  rw [finished_drive, stored, if_pos ⟨hslave.symm, Nat.le_add_right _ _, by omega⟩,
    Nat.add_sub_cancel_left]

lemma lowByte_eq (v : UInt16) : v.toUInt8.toUInt16 = v ↔ v.toNat < 256 := by
  have hv : v.toUInt8.toUInt16.toNat = v.toNat % 2 ^ 8 := rfl
  rw [← UInt16.toNat_inj, hv]
  omega

/-- **What comes back.** Sectors written with `writesectorpio` and read with `readsectorpio` are
the same exactly when every word of them is one byte: the upper bytes are never sent. -/
theorem sectors_read_back_iff (s : Bool → Channel) (LBA : UInt64) {count : UInt16}
    (hcount : count ≠ 0) (disk : UInt32) (input out : ℕ → UInt16) :
    ∃ N, ∀ fuel ≥ N, ∃ s₁, writesectorpio ata fuel LBA count input disk s = some s₁ ∧
      ∃ s₂ out', readsectorpio ata fuel LBA count out disk s₁ = some (s₂, out') ∧
        ((∀ i < count.toNat * 256, out' i = input i) ↔
          ∀ i < count.toNat * 256, (input i).toNat < 256) := by
  obtain ⟨N, hN⟩ := read_after_write s LBA hcount disk input out
  refine ⟨N, fun fuel hfuel => ?_⟩
  obtain ⟨s₁, hs₁, s₂, out', hs₂, hout⟩ := hN fuel hfuel
  refine ⟨s₁, hs₁, s₂, out', hs₂, forall_congr' fun i => ?_⟩
  refine ⟨fun h hi => ?_, fun h hi => ?_⟩
  · rw [← lowByte_eq, ← hout i hi, h hi]
  · rw [hout i hi, (lowByte_eq (input i)).mpr (h hi)]

def idle : Channel where
  sec := (0, 0)
  lbalo := (0, 0)
  lbamid := (0, 0)
  lbahi := (0, 0)
  dhr := 0
  transfer := none
  busy := 0
  delay := fun _ => 3
  drive := fun _ _ => 0

theorem sectors_read_back_iff_bytes :
    ∃ N, ∀ fuel ≥ N, ∃ s₁, writesectorpio ata fuel 5 2 (fun i => i.toUInt8.toUInt16) 3
        (fun _ => idle) = some s₁ ∧
      ∃ s₂ out', readsectorpio ata fuel 5 2 (fun _ => 0) 3 s₁ = some (s₂, out') ∧
        ((∀ i < (2 : UInt16).toNat * 256, out' i = i.toUInt8.toUInt16) ↔
          ∀ i < (2 : UInt16).toNat * 256, (i.toUInt8.toUInt16).toNat < 256) :=
  sectors_read_back_iff (fun _ => idle) 5 (by decide) 3 _ _

theorem not_sectors_read_back :
    ¬ ∀ (s : Bool → Channel) (LBA : UInt64) (count : UInt16) (disk : UInt32)
        (input out : ℕ → UInt16), LBA.toNat < 2 ^ 48 → count ≠ 0 →
      ∃ N, ∀ fuel ≥ N, ∃ s₁, writesectorpio ata fuel LBA count input disk s = some s₁ ∧
        ∃ s₂ out', readsectorpio ata fuel LBA count out disk s₁ = some (s₂, out') ∧
          ∀ i < count.toNat * 256, out' i = input i := by
  intro h
  obtain ⟨N, hN⟩ := h (fun _ => idle) 0 1 0 (fun _ => 0x100) (fun _ => 0) (by decide) (by decide)
  obtain ⟨N', hN'⟩ := read_after_write (fun _ => idle) 0 (by decide : (1 : UInt16) ≠ 0) 0
    (fun _ => 0x100) (fun _ => 0)
  obtain ⟨s₁, hs₁, s₂, out, hs₂, hout⟩ := hN (max N N') (le_max_left N N')
  obtain ⟨s₁', hs₁', s₂', out', hs₂', hout'⟩ := hN' (max N N') (le_max_right N N')
  obtain rfl : s₁ = s₁' := Option.some.inj (hs₁.symm.trans hs₁')
  obtain ⟨rfl, rfl⟩ := Prod.mk.inj (Option.some.inj (hs₂.symm.trans hs₂'))
  -- the first word comes back without its upper byte
  have h0 : (0x100 : UInt16) = (0x100 : UInt16).toUInt8.toUInt16 :=
    (hout 0 (by decide)).symm.trans (hout' 0 (by decide))
  exact absurd h0 (by decide)

end FlameOS.SectorIO
