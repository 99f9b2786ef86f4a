import FlameOS.SectorIO
import Mathlib

/-!
Runs of `readsectorpio` and `writesectorpio` on all disks: the driver and the ATA device together
are a store of words, in which each word is that of the last call that wrote to its place, without
its upper byte.

A call works on one of the channels. Of the other one it reads the status at most.
-/

namespace FlameOS.BlockStore

open FlameOS.PIO FlameOS.SectorIO

/-! ### The other channel -/

/-- The channel is as before, but for the time that it stays busy. -/
def Calm (ch : Bool) (s s' : Bool → Channel) : Prop :=
  ∃ w ≤ (s ch).busy, s' ch = withBusy (s ch) w

variable {ch : Bool} {disk : UInt32} {fuel : ℕ} {s s' s'' : Bool → Channel}

lemma Calm.refl (ch : Bool) (s : Bool → Channel) : Calm ch s s := ⟨_, le_rfl, rfl⟩

lemma Calm.trans (h : Calm ch s s') (h' : Calm ch s' s'') : Calm ch s s'' := by
  obtain ⟨w, hw, hs⟩ := h
  obtain ⟨w', hw', hs'⟩ := h'
  rw [hs] at hw' hs'
  exact ⟨w', hw'.trans hw, hs'⟩

lemma calm_inb (ch : Bool) (port : ℕ) (s : Bool → Channel) : Calm ch s (ata.inb port s).2 := by
  unfold ata
  dsimp only
  split
  · rename_i ch' r _
    split
    · by_cases hch : ch = ch'
      · subst hch
        exact ⟨(s ch).busy - 1, Nat.sub_le _ 1, Function.update_self ..⟩
      · exact ⟨_, le_rfl, Function.update_of_ne hch _ _⟩
    · exact .refl ch s
  · exact .refl ch s

lemma calm_outb (hch : ch ≠ channelOf disk) {r : ℕ} (hr : r < 8) (v : UInt8)
    (s : Bool → Channel) : Calm ch s (ata.outb (portOf disk + r) v s) := by
  rw [outb_reg hr]
  exact ⟨_, le_rfl, Function.update_of_ne hch _ _⟩

lemma calm_inw (hch : ch ≠ channelOf disk) (s : Bool → Channel) :
    Calm ch s (ata.inw (portOf disk + DAT) s).2 := by
  rw [inw_dat]
  exact ⟨_, le_rfl, Function.update_of_ne hch _ _⟩

lemma calm_poll {port : ℕ} {status : UInt8} (h : poll ata port status fuel s = some s') :
    Calm ch s s' := by
  induction fuel generalizing s with
  | zero => cases h
  | succ fuel ih =>
    rw [poll] at h
    split at h
    · exact (calm_inb ch _ s).trans (ih h)
    · obtain rfl := Option.some.inj h
      exact calm_inb ch _ s

lemma calm_antipoll {port : ℕ} {status : UInt8} (h : antipoll ata port status fuel s = some s') :
    Calm ch s s' := by
  induction fuel generalizing s with
  | zero => cases h
  | succ fuel ih =>
    rw [antipoll] at h
    split at h
    · exact (calm_inb ch _ s).trans (ih h)
    · obtain rfl := Option.some.inj h
      exact calm_inb ch _ s

lemma calm_waitSector {port : ℕ} (h : waitSector ata port fuel s = some s') : Calm ch s s' := by
  obtain ⟨s₁, h₁, h₂⟩ := Option.bind_eq_some_iff.mp h
  have hdelay : Calm ch s (smalldelay ata s) := statusReads_busy 15 s ch
  exact hdelay.trans ((calm_poll h₁).trans (calm_antipoll h₂))

lemma calm_sendCommand (hch : ch ≠ channelOf disk) {cmd : UInt8} {LBA : UInt64} {count : UInt16}
    (h : sendCommand ata cmd fuel LBA count disk s = some s') : Calm ch s s' := by
  obtain ⟨s₁, h₁, rfl⟩ := Option.map_eq_some_iff.mp h
  refine (calm_poll h₁).trans ?_
  have hout : ∀ {r : ℕ}, r < 8 → ∀ (v : UInt8) {s₂ : Bool → Channel}, Calm ch s₁ s₂ →
      Calm ch s₁ (ata.outb (portOf disk + r) v s₂) := fun hr v _ h =>
    h.trans (calm_outb hch hr v _)
  have hdhr := hout (show DHR < 8 by decide) (outcmdOf disk) (.refl ch s₁)
  refine hout (by decide) _ (hout (by decide) _ (hout (by decide) _ (hout (by decide) _
    (hout (by decide) _ (hout (by decide) _ (hout (by decide) _ (hout (by decide) _
      (hout (by decide) _ hdhr))))))))

lemma calm_readWords (hch : ch ≠ channelOf disk) (n k : ℕ) (r : (Bool → Channel) × (ℕ → UInt16)) :
    Calm ch r.1 (readWords ata (portOf disk) n k r).1 := by
  induction n generalizing k r with
  | zero => exact .refl ch r.1
  | succ n ih =>
    rw [readWords]
    exact (calm_inw hch r.1).trans (ih (k + 1) (_, _))

lemma calm_readSectors (hch : ch ≠ channelOf disk) {i k : ℕ}
    {r r' : (Bool → Channel) × (ℕ → UInt16)}
    (h : readSectors ata (portOf disk) fuel i k r = some r') : Calm ch r.1 r'.1 := by
  induction i generalizing k r with
  | zero =>
    obtain rfl := Option.some.inj h
    exact .refl ch r.1
  | succ i ih =>
    obtain ⟨s₁, h₁, h₂⟩ := Option.bind_eq_some_iff.mp h
    exact (calm_waitSector h₁).trans ((calm_readWords hch 256 k (s₁, r.2)).trans (ih h₂))

lemma calm_writeWords (hch : ch ≠ channelOf disk) (buf : ℕ → UInt16) (n k : ℕ)
    (s : Bool → Channel) : Calm ch s (writeWords ata (portOf disk) buf n k s) := by
  induction n generalizing k s with
  | zero => exact .refl ch s
  | succ n ih => exact (calm_outb hch (by decide) _ s).trans (ih _ _)

lemma calm_writeSectors (hch : ch ≠ channelOf disk) {buf : ℕ → UInt16} {i k : ℕ}
    (h : writeSectors ata (portOf disk) fuel buf i k s = some s') : Calm ch s s' := by
  induction i generalizing k s with
  | zero =>
    obtain rfl := Option.some.inj h
    exact .refl ch s
  | succ i ih =>
    obtain ⟨s₁, h₁, h₂⟩ := Option.bind_eq_some_iff.mp h
    exact (calm_waitSector h₁).trans ((calm_writeWords hch buf 256 k s₁).trans (ih h₂))

/-! ### Calls -/

structure Call where
  write : Bool
  LBA : UInt64
  count : UInt16
  buffer : ℕ → UInt16
  disk : UInt32

def Call.exec (fuel : ℕ) (c : Call) (s : Bool → Channel) :
    Option ((Bool → Channel) × (ℕ → UInt16)) :=
  if c.write then
    (writesectorpio ata fuel c.LBA c.count c.buffer c.disk s).map fun s => (s, c.buffer)
  else readsectorpio ata fuel c.LBA c.count c.buffer c.disk s

def runCalls (fuel : ℕ) : List Call → (Bool → Channel) →
    Option ((Bool → Channel) × List (ℕ → UInt16))
  | [], s => some (s, [])
  | c :: cs, s => (c.exec fuel s).bind fun r =>
    (runCalls fuel cs r.1).map fun t => (t.1, r.2 :: t.2)

/-! ### The store -/

/-- The words on all drives, by channel and drive. -/
abbrev Store := Bool → Bool → ℕ → UInt16

/-- A place that a call reads or writes. -/
def Call.Covers (c : Call) (ch sl : Bool) (p : ℕ) : Prop :=
  ch = channelOf c.disk ∧ sl = slaveOf c.disk ∧ wordOf c.LBA ≤ p ∧
    p < wordOf c.LBA + 256 * c.count.toNat

instance (c : Call) (ch sl : Bool) (p : ℕ) : Decidable (c.Covers ch sl p) :=
  inferInstanceAs (Decidable (_ ∧ _ ∧ _ ∧ _))

def Call.word (c : Call) (p : ℕ) : UInt16 := (c.buffer (p - wordOf c.LBA)).toUInt8.toUInt16

def Call.apply (c : Call) (S : Store) : Store := fun ch sl p =>
  if c.write = true ∧ c.Covers ch sl p then c.word p else S ch sl p

def Call.result (c : Call) (S : Store) : ℕ → UInt16 := fun i =>
  if c.write = false ∧ i < 256 * c.count.toNat then
    S (channelOf c.disk) (slaveOf c.disk) (wordOf c.LBA + i)
  else c.buffer i

def results : List Call → Store → List (ℕ → UInt16)
  | [], _ => []
  | c :: cs, S => c.result S :: results cs (c.apply S)

def storeOf (s : Bool → Channel) : Store := fun ch => (s ch).drive

/-- Enough rounds of polling for calls. -/
def Waits (fuel : ℕ) (cs : List Call) (s : Bool → Channel) : Prop :=
  (∀ ch, (s ch).busy < fuel) ∧ ∀ c ∈ cs, ∀ j ≤ c.count.toNat,
    (s (channelOf c.disk)).delay (wordOf c.LBA + 256 * j) < fuel

variable {c : Call} {cs : List Call}

lemma exists_waits (cs : List Call) (s : Bool → Channel) : ∃ N, ∀ fuel ≥ N, Waits fuel cs s := by
  induction cs with
  | nil =>
    refine ⟨max (s false).busy (s true).busy + 1, fun fuel hfuel => ⟨fun ch => ?_, by simp⟩⟩
    cases ch
    · omega
    · omega
  | cons c cs ih =>
    obtain ⟨N, hN⟩ := ih
    obtain ⟨M, hM⟩ := patient_bound (s (channelOf c.disk)) c.LBA c.count
    refine ⟨max N M, fun fuel hfuel => ?_⟩
    have hrest := hN fuel (le_of_max_le_left hfuel)
    refine ⟨hrest.1, fun d hd => ?_⟩
    rcases List.mem_cons.mp hd with rfl | hd
    · exact (hM fuel (le_of_max_le_right hfuel)).2
    · exact hrest.2 d hd

/-- **One call** does to the device what it does to the store. -/
lemma exec_spec (hcount : c.count ≠ 0) (h : Waits fuel (c :: cs) s) :
    ∃ s', c.exec fuel s = some (s', c.result (storeOf s)) ∧ storeOf s' = c.apply (storeOf s) ∧
      Waits fuel cs s' := by
  have hpatient : Patient fuel (s (channelOf c.disk)) c.LBA c.count :=
    ⟨h.1 _, h.2 c List.mem_cons_self⟩
  have hslave : (addressed (s (channelOf c.disk)) c.LBA c.count c.disk).slave = slaveOf c.disk :=
    rfl
  -- what is left to show of the two channels
  have hboth : ∀ {s' : Bool → Channel} {drive : Bool → ℕ → UInt16},
      (∃ w < fuel, s' (channelOf c.disk) =
        finished (addressed (s (channelOf c.disk)) c.LBA c.count c.disk) w drive) →
      (∀ sl p, drive sl p = c.apply (storeOf s) (channelOf c.disk) sl p) →
      (∀ ch, ch ≠ channelOf c.disk → Calm ch s s') →
      storeOf s' = c.apply (storeOf s) ∧ Waits fuel cs s' := by
    rintro s' drive ⟨w, hw, hs'⟩ hdrive hcalm
    have hdelay : ∀ ch, (s' ch).delay = (s ch).delay := by
      intro ch
      by_cases hch : ch = channelOf c.disk
      · subst hch
        rw [hs']
        rfl
      · obtain ⟨w', -, hw'⟩ := hcalm ch hch
        rw [hw']
        rfl
    refine ⟨?_, fun ch => ?_, fun d hd j hj => ?_⟩
    · ext ch sl p : 3
      by_cases hch : ch = channelOf c.disk
      · subst hch
        rw [storeOf, hs', ← hdrive]
        rfl
      · obtain ⟨w', -, hw'⟩ := hcalm ch hch
        rw [storeOf, hw', Call.apply, if_neg fun h => hch h.2.1]
        rfl
    · by_cases hch : ch = channelOf c.disk
      · subst hch
        rw [hs']
        exact hw
      · obtain ⟨w', hle, hw'⟩ := hcalm ch hch
        rw [hw']
        exact lt_of_le_of_lt hle (h.1 ch)
    · rw [hdelay]
      exact h.2 d (List.mem_cons_of_mem _ hd) j hj
  cases hwrite : c.write
  · obtain ⟨s', hs', hfinished⟩ := @readsectorpio_eq c.disk fuel s c.buffer c.LBA c.count hcount
      hpatient
    refine ⟨s', ?_, hboth hfinished (fun sl p => ?_) fun ch hch => ?_⟩
    · rw [Call.exec, if_neg (by simp [hwrite]), hs']
      refine congrArg (fun buf => some (s', buf)) (funext fun i => ?_)
      simp [filled, Call.result, hwrite, storeOf]
    · rw [Call.apply, if_neg (by simp [hwrite])]
      rfl
    · obtain ⟨s₁, h₁, h₂⟩ := Option.bind_eq_some_iff.mp hs'
      exact (calm_sendCommand hch h₁).trans (calm_readSectors hch h₂)
  · obtain ⟨s', hs', hfinished⟩ := @writesectorpio_eq c.disk fuel s c.buffer c.LBA c.count hcount
      hpatient
    refine ⟨s', ?_, hboth hfinished (fun sl p => ?_) fun ch hch => ?_⟩
    · rw [Call.exec, if_pos hwrite, hs']
      refine congrArg (fun buf => some (s', buf)) (funext fun i => ?_)
      simp [Call.result, hwrite]
    · rw [stored, hslave, Call.apply]
      refine if_congr ?_ rfl rfl
      simp [hwrite, Call.Covers]
    · obtain ⟨s₁, h₁, h₂⟩ := Option.bind_eq_some_iff.mp hs'
      exact (calm_sendCommand hch h₁).trans (calm_writeSectors hch h₂)

/-- Calls do to the device what they do to the store, and leave it ready for others. -/
lemma runCalls_spec {ds : List Call} (hcs : ∀ c ∈ cs, c.count ≠ 0) (h : Waits fuel (cs ++ ds) s) :
    ∃ s', runCalls fuel cs s = some (s', results cs (storeOf s)) ∧
      storeOf s' = cs.foldl (fun S c => c.apply S) (storeOf s) ∧ Waits fuel ds s' := by
  induction cs generalizing s with
  | nil => exact ⟨s, rfl, rfl, h⟩
  | cons c cs ih =>
    obtain ⟨s₁, h₁, hstore₁, hwaits⟩ := exec_spec (hcs c List.mem_cons_self) h
    obtain ⟨s₂, h₂, hstore₂, hwaits'⟩ := ih (fun d hd => hcs d (List.mem_cons_of_mem _ hd)) hwaits
    refine ⟨s₂, ?_, ?_, hwaits'⟩
    · rw [runCalls, h₁, Option.bind_some, h₂, hstore₁]
      rfl
    · rw [hstore₂, hstore₁, List.foldl_cons]

lemma foldl_apply (cs : List Call) (S : Store) (ch sl : Bool) (p : ℕ) :
    cs.foldl (fun S c => c.apply S) S ch sl p =
      (cs.reverse.find? fun c => decide (c.write = true ∧ c.Covers ch sl p)).elim (S ch sl p)
        fun c => c.word p := by
  induction cs using List.reverseRecOn with
  | nil => rfl
  | append_singleton cs c ih =>
    rw [List.foldl_append, List.foldl_cons, List.foldl_nil, List.reverse_append,
      List.reverse_singleton, List.singleton_append, List.find?_cons, Call.apply, ih]
    by_cases hc : c.write = true ∧ c.Covers ch sl p
    · rw [if_pos hc, decide_eq_true hc]
      rfl
    · rw [if_neg hc, decide_eq_false hc]

/-- **The driver and the device are a store.** Whatever state the device is in, any calls of
`readsectorpio` and `writesectorpio` that move something return, if the polling goes on for long
enough. Each buffer is then what the store of the drives gives at that point, and each word on a
drive is the low byte of what the last call that wrote there had for it, or what it was before. -/
theorem runCalls_refines (cs : List Call) (hcs : ∀ c ∈ cs, c.count ≠ 0) (s : Bool → Channel) :
    ∃ N, ∀ fuel ≥ N, ∃ s', runCalls fuel cs s = some (s', results cs (storeOf s)) ∧
      ∀ ch sl p, (s' ch).drive sl p =
        (cs.reverse.find? fun c => decide (c.write = true ∧ c.Covers ch sl p)).elim
          ((s ch).drive sl p) fun c => c.word p := by
  obtain ⟨N, hN⟩ := exists_waits (cs ++ []) s
  refine ⟨N, fun fuel hfuel => ?_⟩
  obtain ⟨s', hrun, hstore, -⟩ := runCalls_spec hcs (hN fuel hfuel)
  refine ⟨s', hrun, fun ch sl p => ?_⟩
  have hlast := foldl_apply cs (storeOf s) ch sl p
  rwa [← hstore] at hlast

/-- A word written to one disk, the other disk of the channel written after it, and read again. -/
def exampleCalls : List Call :=
  [⟨true, 7, 1, fun _ => 0x1FF, 0⟩, ⟨true, 7, 1, fun _ => 2, 1⟩, ⟨false, 7, 1, fun _ => 0, 0⟩]

theorem runCalls_refines_example :
    ∃ N, ∀ fuel ≥ N, ∃ s', runCalls fuel exampleCalls (fun _ => idle) =
        some (s', results exampleCalls (storeOf fun _ => idle)) ∧
      ∀ ch sl p, (s' ch).drive sl p =
        (exampleCalls.reverse.find? fun c => decide (c.write = true ∧ c.Covers ch sl p)).elim
          (idle.drive sl p) fun c => c.word p :=
  runCalls_refines exampleCalls (by simp [exampleCalls]) fun _ => idle

/-- **Files on a disk that is only read.** As long as no call writes to the drive of a disk, reads
of its sectors get what they get where files are read, whatever happens to the other drives. -/
theorem runCalls_reads (cs : List Call) (hcs : ∀ c ∈ cs, c.count ≠ 0) (s : Bool → Channel)
    {disk : UInt32} {D : Fat.Disk} (hD : Stores ((s (channelOf disk)).drive (slaveOf disk)) D)
    (hdisk : ∀ c ∈ cs, c.write = true →
      ¬(channelOf c.disk = channelOf disk ∧ slaveOf c.disk = slaveOf disk))
    (LBA : UInt64) {count : UInt16} (hcount : count ≠ 0) (buf : ℕ → UInt16) :
    ∃ N, ∀ fuel ≥ N, ∃ s' outs s'' out, runCalls fuel cs s = some (s', outs) ∧
      readsectorpio ata fuel LBA count buf disk s' = some (s'', out) ∧
      bytesOfWords out = Fat.readsectorpio D LBA count.toNat (bytesOfWords buf) := by
  obtain ⟨N, hN⟩ := exists_waits (cs ++ [⟨false, LBA, count, buf, disk⟩]) s
  refine ⟨N, fun fuel hfuel => ?_⟩
  obtain ⟨s', hrun, hstore, hwaits⟩ := runCalls_spec hcs (hN fuel hfuel)
  have hdrive : (s' (channelOf disk)).drive (slaveOf disk) =
      (s (channelOf disk)).drive (slaveOf disk) := by
    ext1 p
    have hlast := foldl_apply cs (storeOf s) (channelOf disk) (slaveOf disk) p
    rw [← hstore, List.find?_eq_none.mpr] at hlast
    · exact hlast
    · intro c hc hcovers
      obtain ⟨hwrite, hch, hsl, -⟩ := of_decide_eq_true hcovers
      exact hdisk c (List.mem_reverse.mp hc) hwrite ⟨hch.symm, hsl.symm⟩
  rw [← hdrive] at hD
  obtain ⟨s'', out, hread, hout⟩ := @readsectorpio_refines disk fuel s' buf LBA count hcount
    ⟨hwaits.1 _, hwaits.2 _ List.mem_cons_self⟩ D hD
  exact ⟨s', _, s'', out, hrun, hread, hout⟩

/-- A disk of zeros is read while the other disk of its channel is written to. -/
theorem runCalls_reads_zero :
    ∃ N, ∀ fuel ≥ N, ∃ s' outs s'' out,
      runCalls fuel [⟨true, 7, 1, fun _ => 2, 1⟩] (fun _ => idle) = some (s', outs) ∧
      readsectorpio ata fuel 7 1 (fun _ => 5) 0 s' = some (s'', out) ∧
      bytesOfWords out =
        Fat.readsectorpio (fun _ _ => 0) 7 (1 : UInt16).toNat (bytesOfWords fun _ => 5) :=
  have hother : ¬(channelOf 1 = channelOf 0 ∧ slaveOf 1 = slaveOf 0) := by decide
  runCalls_reads _ (by simp) (fun _ => idle) (fun _ _ _ => rfl)
    (by simpa using hother) 7 (by decide) _

end FlameOS.BlockStore
