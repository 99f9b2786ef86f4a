import FlameOS.SectorIO
import Mathlib

/-!
What the driver does at the ports. Any device can be put behind a log of the accesses, and the
driver runs on it as before.

The log of a transfer has one command byte. What is written before it puts the address and the
count in the registers of the drive, and the words of the buffer follow it, one after the other.
-/

namespace FlameOS.PortTrace

open FlameOS.PIO FlameOS.SectorIO

/-- An instruction on a port, with the value of what is sent or received. -/
inductive Access
  | inb (port : ℕ) (v : UInt8)
  | outb (port : ℕ) (v : UInt8)
  | inw (port : ℕ) (v : UInt16)
  deriving DecidableEq

namespace Access

def port : Access → ℕ
  | .inb port _ => port
  | .outb port _ => port
  | .inw port _ => port

def isData (a : Access) : Bool := (decode a.port).map Prod.snd = some DAT

def isCommand : Access → Bool
  | .outb port _ => (decode port).map Prod.snd = some CMD
  | _ => false

end Access

/-- A device behind a log. -/
def traced {σ : Type} (io : PortIO σ) : PortIO (σ × List Access) where
  inb port r := ((io.inb port r.1).1, (io.inb port r.1).2, r.2 ++ [.inb port (io.inb port r.1).1])
  outb port v r := (io.outb port v r.1, r.2 ++ [.outb port v])
  inw port r := ((io.inw port r.1).1, (io.inw port r.1).2, r.2 ++ [.inw port (io.inw port r.1).1])

/-- What the writes of a log leave in the registers of a channel. -/
def taken (ch : Bool) (c : Channel) (log : List Access) : Channel :=
  log.foldl (fun c a =>
    match a with
    | .outb port v =>
      match decode port with
      | some (ch', r) => if ch' = ch then c.writeReg r v else c
      | none => c
    | _ => c) c

/-- The log of a transfer: the drive has the address and the count when it gets the command, and
the words are moved after it, in their order. -/
def Encodes (cmd : UInt8) (LBA : UInt64) (count : UInt16) (disk : UInt32) (word : ℕ → Access)
    (log : List Access) : Prop :=
  ∃ before after, log = before ++ .outb (portOf disk + CMD) cmd :: after ∧
    (∀ c : Channel, c.busy = 0 →
      (taken (channelOf disk) c before).lba = LBA.toNat ∧
        (taken (channelOf disk) c before).sectors = count.toNat) ∧
    before.filter Access.isData = [] ∧
    after.filter Access.isData = (List.range (count.toNat * 256)).map word ∧
    ∀ a ∈ before ++ after, a.isCommand = false

/-! ### Status reads -/

variable {σ : Type} {io : PortIO σ} {port fuel n k i : ℕ} {st : UInt8} {disk : UInt32}

/-- The log has become longer by reads of the status. -/
def Polled (l l' : List Access) : Prop :=
  ∃ reads, l' = l ++ reads ∧ ∀ a ∈ reads, ∃ d v, a = .inb (portOf d + STS) v

lemma Polled.refl (l : List Access) : Polled l l := ⟨[], by simp, by simp⟩

lemma Polled.trans {l₁ l₂ l₃ : List Access} (h : Polled l₁ l₂) (h' : Polled l₂ l₃) :
    Polled l₁ l₃ := by
  obtain ⟨reads, rfl, hreads⟩ := h
  obtain ⟨reads', rfl, hreads'⟩ := h'
  refine ⟨reads ++ reads', List.append_assoc _ _ _, fun a ha => ?_⟩
  rcases List.mem_append.mp ha with h | h
  · exact hreads a h
  · exact hreads' a h

lemma Polled.snoc (l : List Access) (d : UInt32) (v : UInt8) :
    Polled l (l ++ [.inb (portOf d + STS) v]) :=
  ⟨_, rfl, fun _ ha => ⟨d, v, List.mem_singleton.mp ha⟩⟩

lemma polled_poll {r r' : σ × List Access} (h : poll (traced io) (portOf disk) st fuel r = some r') :
    Polled r.2 r'.2 := by
  induction fuel generalizing r with
  | zero => cases h
  | succ fuel ih =>
    rw [poll] at h
    split at h
    · exact (Polled.snoc _ disk _).trans (ih h)
    · cases h
      exact Polled.snoc _ disk _

lemma polled_antipoll {r r' : σ × List Access}
    (h : antipoll (traced io) (portOf disk) st fuel r = some r') : Polled r.2 r'.2 := by
  induction fuel generalizing r with
  | zero => cases h
  | succ fuel ih =>
    rw [antipoll] at h
    split at h
    · exact (Polled.snoc _ disk _).trans (ih h)
    · cases h
      exact Polled.snoc _ disk _

lemma polled_statusReads (n : ℕ) (r : σ × List Access) :
    Polled r.2 (statusReads (traced io) n r).2 := by
  induction n generalizing r with
  | zero => exact Polled.refl _
  | succ n ih => exact (Polled.snoc _ 0 _).trans (ih _)

lemma polled_waitSector {r r' : σ × List Access}
    (h : waitSector (traced io) (portOf disk) fuel r = some r') : Polled r.2 r'.2 := by
  obtain ⟨r₁, hpoll, hanti⟩ := Option.bind_eq_some_iff.mp h
  exact ((polled_statusReads 15 r).trans (polled_poll hpoll)).trans (polled_antipoll hanti)

lemma isData_status (d : UInt32) (v : UInt8) : (Access.inb (portOf d + STS) v).isData = false := by
  rw [Access.isData, Access.port, decode_portOf (by decide)]
  rfl

lemma filter_status {reads : List Access} (h : ∀ a ∈ reads, ∃ d v, a = .inb (portOf d + STS) v) :
    reads.filter Access.isData = [] := by
  refine List.filter_eq_nil_iff.mpr fun a ha => ?_
  obtain ⟨d, v, rfl⟩ := h a ha
  rw [isData_status]
  exact Bool.false_ne_true

lemma isCommand_status {reads : List Access}
    (h : ∀ a ∈ reads, ∃ d v, a = .inb (portOf d + STS) v) : ∀ a ∈ reads, a.isCommand = false :=
  fun a ha => by
    obtain ⟨d, v, rfl⟩ := h a ha
    rfl

/-! ### The command -/

/-- The writes of `sendCommand` before the command. -/
def regWrites (LBA : UInt64) (count : UInt16) (disk : UInt32) : List Access :=
  [.outb (portOf disk + DHR) (outcmdOf disk), .outb (portOf disk + SEC) (count >>> 8).toUInt8,
    .outb (portOf disk + LBALO) (LBA >>> 24).toUInt8,
    .outb (portOf disk + LBAMID) (LBA >>> 32).toUInt8,
    .outb (portOf disk + LBAHI) (LBA >>> 40).toUInt8, .outb (portOf disk + SEC) count.toUInt8,
    .outb (portOf disk + LBALO) LBA.toUInt8, .outb (portOf disk + LBAMID) (LBA >>> 8).toUInt8,
    .outb (portOf disk + LBAHI) (LBA >>> 16).toUInt8]

variable {cmd : UInt8} {LBA : UInt64} {count : UInt16} {c : Channel}

lemma sendCommand_log {r r' : σ × List Access}
    (h : sendCommand (traced io) cmd fuel LBA count disk r = some r') :
    ∃ reads, (∀ a ∈ reads, ∃ d v, a = .inb (portOf d + STS) v) ∧
      r'.2 = r.2 ++ (reads ++ regWrites LBA count disk ++ [.outb (portOf disk + CMD) cmd]) := by
  obtain ⟨r₁, hpoll, rfl⟩ := Option.map_eq_some_iff.mp h
  obtain ⟨reads, hlog, hreads⟩ := polled_poll hpoll
  refine ⟨reads, hreads, ?_⟩
  simp only [traced, hlog, regWrites, List.append_assoc, List.cons_append, List.nil_append]

lemma taken_append (ch : Bool) (c : Channel) (l l' : List Access) :
    taken ch c (l ++ l') = taken ch (taken ch c l) l' := List.foldl_append

lemma taken_status {reads : List Access} (h : ∀ a ∈ reads, ∃ d v, a = .inb (portOf d + STS) v)
    (ch : Bool) (c : Channel) : taken ch c reads = c := by
  induction reads with
  | nil => rfl
  | cons a reads ih =>
    obtain ⟨d, v, rfl⟩ := h a List.mem_cons_self
    exact ih fun a ha => h a (List.mem_cons_of_mem _ ha)

lemma taken_reg {r : ℕ} (hr : r < 8) (v : UInt8) (c : Channel) (l : List Access) :
    taken (channelOf disk) c (.outb (portOf disk + r) v :: l) =
      taken (channelOf disk) (c.writeReg r v) l := by
  simp only [taken, List.foldl_cons, decode_portOf hr, if_true]

/-- An idle channel has every byte where it should be. -/
lemma taken_regWrites (hb : c.busy = 0) :
    taken (channelOf disk) c (regWrites LBA count disk) = addressed c LBA count disk := by
  rw [regWrites, taken_reg (by decide : DHR < 8), taken_reg (by decide : SEC < 8),
    taken_reg (by decide : LBALO < 8), taken_reg (by decide : LBAMID < 8),
    taken_reg (by decide : LBAHI < 8), taken_reg (by decide : SEC < 8),
    taken_reg (by decide : LBALO < 8), taken_reg (by decide : LBAMID < 8),
    taken_reg (by decide : LBAHI < 8)]
  simp only [writeReg_dhr, writeReg_sec, writeReg_lbalo, writeReg_lbamid, writeReg_lbahi, hb,
    addressed]
  rfl

lemma mem_regWrites {a : Access} (ha : a ∈ regWrites LBA count disk) :
    ∃ r v, r < 8 ∧ r ≠ DAT ∧ r ≠ CMD ∧ a = .outb (portOf disk + r) v := by
  simp only [regWrites, List.mem_cons, List.not_mem_nil, or_false] at ha
  rcases ha with rfl | rfl | rfl | rfl | rfl | rfl | rfl | rfl | rfl
  all_goals exact ⟨_, _, by decide, by decide, by decide, rfl⟩

lemma isData_outb {r : ℕ} (hr : r < 8) (v : UInt8) :
    (Access.outb (portOf disk + r) v).isData = decide (r = DAT) := by
  rw [Access.isData, Access.port, decode_portOf hr]
  simp

lemma isCommand_outb {r : ℕ} (hr : r < 8) (v : UInt8) :
    (Access.outb (portOf disk + r) v).isCommand = decide (r = CMD) := by
  rw [Access.isCommand, decode_portOf hr]
  simp

lemma filter_regWrites : (regWrites LBA count disk).filter Access.isData = [] := by
  refine List.filter_eq_nil_iff.mpr fun a ha => ?_
  obtain ⟨r, v, hr, hdat, -, rfl⟩ := mem_regWrites ha
  simp [isData_outb hr, hdat]

lemma isCommand_regWrites : ∀ a ∈ regWrites LBA count disk, a.isCommand = false := fun a ha => by
  obtain ⟨r, v, hr, -, hcmd, rfl⟩ := mem_regWrites ha
  simp [isCommand_outb hr, hcmd]

/-! ### The words -/

lemma isData_inw (v : UInt16) : (Access.inw (portOf disk + DAT) v).isData = true := by
  rw [Access.isData, Access.port, decode_portOf (by decide)]
  rfl

lemma readWords_log (port n k : ℕ) (r : (σ × List Access) × (ℕ → UInt16)) :
    (readWords (traced io) port n k r).1.2 = r.1.2 ++ (List.range n).map (fun j =>
        .inw (port + DAT) ((readWords (traced io) port n k r).2 (k + j))) ∧
      ∀ a, a < k ∨ k + n ≤ a → (readWords (traced io) port n k r).2 a = r.2 a := by
  induction n generalizing k r with
  | zero => exact ⟨(List.append_nil _).symm, fun _ _ => rfl⟩
  | succ n ih =>
    rw [readWords]
    set r₁ : (σ × List Access) × (ℕ → UInt16) := (((traced io).inw (port + DAT) r.1).2,
      Function.update r.2 k ((traced io).inw (port + DAT) r.1).1)
    have hlog₁ : r₁.1.2 = r.1.2 ++ [.inw (port + DAT) (io.inw (port + DAT) r.1.1).1] := rfl
    have hbuf₁ : r₁.2 = Function.update r.2 k (io.inw (port + DAT) r.1.1).1 := rfl
    obtain ⟨hlog, hframe⟩ := ih (k + 1) r₁
    refine ⟨?_, fun a ha => ?_⟩
    · rw [hlog, hlog₁, List.range_succ_eq_map, List.map_cons, List.map_map, Nat.add_zero k,
        hframe k (Or.inl (Nat.lt_succ_self k)), hbuf₁, Function.update_self]
      simp only [List.append_assoc, List.cons_append, List.nil_append, Function.comp_def,
        Nat.succ_eq_add_one, Nat.add_assoc, Nat.add_comm 1]
    · rw [hframe a (by omega), hbuf₁, Function.update_of_ne (by omega)]

lemma writeWords_log (port : ℕ) (buf : ℕ → UInt16) (n k : ℕ) (r : σ × List Access) :
    (writeWords (traced io) port buf n k r).2 = r.2 ++ (List.range n).map (fun j =>
      .outb (port + DAT) (buf (k + j)).toUInt8) := by
  induction n generalizing k r with
  | zero => exact (List.append_nil _).symm
  | succ n ih =>
    rw [writeWords, ih, List.range_succ_eq_map, List.map_cons, List.map_map, Nat.add_zero k]
    simp only [traced, List.append_assoc, List.cons_append, List.nil_append,
      Function.comp_def, Nat.succ_eq_add_one, Nat.add_assoc, Nat.add_comm 1]

lemma map_range_add {α : Type*} (f : ℕ → α) (k m n : ℕ) :
    (List.range m).map (fun j => f (k + j)) ++ (List.range n).map (fun j => f (k + m + j)) =
      (List.range (m + n)).map fun j => f (k + j) := by
  rw [List.range_add, List.map_append, List.map_map]
  simp only [Function.comp_def, Nat.add_assoc]

/-- The log of a sector, and of the sectors behind it: status reads, and then the words. -/
lemma sector_log (i k : ℕ) (word : ℕ → Access) {reads l : List Access}
    (hword : ∀ j, (word j).isData = true) (hword' : ∀ j, (word j).isCommand = false)
    (hreads : ∀ a ∈ reads, ∃ d v, a = .inb (portOf d + STS) v)
    (hdata : l.filter Access.isData = (List.range (i * 256)).map fun j => word (k + 256 + j))
    (hcmd : ∀ a ∈ l, a.isCommand = false) :
    (reads ++ ((List.range 256).map (fun j => word (k + j)) ++ l)).filter Access.isData =
        (List.range ((i + 1) * 256)).map (fun j => word (k + j)) ∧
      ∀ a ∈ reads ++ ((List.range 256).map (fun j => word (k + j)) ++ l), a.isCommand = false := by
  constructor
  · rw [List.filter_append, List.filter_append, filter_status hreads, hdata, List.nil_append,
      List.filter_eq_self.mpr fun a ha => ?_, map_range_add, Nat.succ_mul, Nat.add_comm 256]
    obtain ⟨j, -, rfl⟩ := List.mem_map.mp ha
    exact hword _
  · rw [List.forall_mem_append, List.forall_mem_append, List.forall_mem_map]
    exact ⟨isCommand_status hreads, fun j _ => hword' _, hcmd⟩

lemma readSectors_log {r r' : (σ × List Access) × (ℕ → UInt16)}
    (h : readSectors (traced io) (portOf disk) fuel i k r = some r') :
    ∃ l, r'.1.2 = r.1.2 ++ l ∧
      l.filter Access.isData = (List.range (i * 256)).map (fun j =>
        .inw (portOf disk + DAT) (r'.2 (k + j))) ∧
      (∀ a ∈ l, a.isCommand = false) ∧ ∀ a, a < k ∨ k + i * 256 ≤ a → r'.2 a = r.2 a := by
  induction i generalizing k r with
  | zero =>
    cases h
    exact ⟨[], (List.append_nil _).symm, by simp, by simp, fun _ _ => rfl⟩
  | succ i ih =>
    obtain ⟨s₁, hwait, hrest⟩ := Option.bind_eq_some_iff.mp h
    obtain ⟨reads, hs₁, hreads⟩ := polled_waitSector hwait
    obtain ⟨hwords, hframe⟩ := @readWords_log σ io (portOf disk) 256 k (s₁, r.2)
    obtain ⟨l, hl, hdata, hcmd, hframe'⟩ := ih hrest
    have hsame : ∀ j ∈ List.range 256, (readWords (traced io) (portOf disk) 256 k (s₁, r.2)).2
        (k + j) = r'.2 (k + j) := fun j hj => by
      have hlt : j < 256 := List.mem_range.mp hj
      rw [hframe' _ (by omega)]
    rw [List.map_congr_left fun j hj => by rw [hsame j hj]] at hwords
    obtain ⟨hdata', hcmd'⟩ := sector_log i k (fun j => .inw (portOf disk + DAT) (r'.2 j))
      (fun _ => isData_inw _) (fun _ => rfl) hreads hdata hcmd
    refine ⟨_, ?_, hdata', hcmd', fun a ha => ?_⟩
    · rw [hl, hwords, hs₁, List.append_assoc, List.append_assoc]
    · rw [hframe' a (by omega), hframe a (by omega)]

lemma writeSectors_log {buf : ℕ → UInt16} {r r' : σ × List Access}
    (h : writeSectors (traced io) (portOf disk) fuel buf i k r = some r') :
    ∃ l, r'.2 = r.2 ++ l ∧
      l.filter Access.isData = (List.range (i * 256)).map (fun j =>
        .outb (portOf disk + DAT) (buf (k + j)).toUInt8) ∧
      ∀ a ∈ l, a.isCommand = false := by
  induction i generalizing k r with
  | zero =>
    cases h
    exact ⟨[], (List.append_nil _).symm, by simp, by simp⟩
  | succ i ih =>
    obtain ⟨s₁, hwait, hrest⟩ := Option.bind_eq_some_iff.mp h
    obtain ⟨reads, hs₁, hreads⟩ := polled_waitSector hwait
    obtain ⟨l, hl, hdata, hcmd⟩ := ih hrest
    rw [writeWords_log, hs₁] at hl
    exact ⟨_, by rw [hl, List.append_assoc, List.append_assoc], sector_log i k
      (fun j => .outb (portOf disk + DAT) (buf j).toUInt8) (fun _ => isData_outb (by decide) _)
      (fun _ => isCommand_outb (by decide) _) hreads hdata hcmd⟩

/-! ### The transfers -/

/-- Both transfers, given what their loops do. -/
lemma encodes_of_log {r r' : σ × List Access} {l : List Access} {word : ℕ → Access}
    (hLBA : LBA.toNat < 2 ^ 48) (hcount : count ≠ 0)
    (hsend : sendCommand (traced io) cmd fuel LBA count disk r = some r') (hempty : r.2 = [])
    (hdata : l.filter Access.isData = (List.range (count.toNat * 256)).map word)
    (hcmd : ∀ a ∈ l, a.isCommand = false) : Encodes cmd LBA count disk word (r'.2 ++ l) := by
  obtain ⟨reads, hreads, hlog⟩ := sendCommand_log hsend
  refine ⟨reads ++ regWrites LBA count disk, l, ?_, fun c hb => ?_, ?_, hdata, fun a ha => ?_⟩
  · rw [hlog, hempty, List.nil_append, List.append_assoc]
    rfl
  · rw [taken_append, taken_status hreads, taken_regWrites hb, addressed_lba,
      addressed_sectors c LBA disk hcount, Nat.mod_eq_of_lt hLBA]
    exact ⟨rfl, rfl⟩
  · rw [List.filter_append, filter_status hreads, filter_regWrites]
    rfl
  · rcases List.mem_append.mp ha with ha | ha
    · rcases List.mem_append.mp ha with ha | ha
      · exact isCommand_status hreads a ha
      · exact isCommand_regWrites a ha
    · exact hcmd a ha

lemma readsectorpio_encodes {buffer : ℕ → UInt16} {s : σ} {r : (σ × List Access) × (ℕ → UInt16)}
    (hLBA : LBA.toNat < 2 ^ 48) (hcount : count ≠ 0)
    (h : readsectorpio (traced io) fuel LBA count buffer disk (s, []) = some r) :
    Encodes READ LBA count disk (fun k => .inw (portOf disk + DAT) (r.2 k)) r.1.2 ∧
      ∀ k ≥ count.toNat * 256, r.2 k = buffer k := by
  obtain ⟨r₁, hsend, hloop⟩ := Option.bind_eq_some_iff.mp h
  obtain ⟨l, hl, hdata, hcmd, hframe⟩ := readSectors_log hloop
  simp only [Nat.zero_add] at hdata hframe
  rw [hl]
  exact ⟨encodes_of_log hLBA hcount hsend rfl hdata hcmd, fun k hk => hframe k (Or.inr hk)⟩

lemma writesectorpio_encodes {buffer : ℕ → UInt16} {s : σ} {r : σ × List Access}
    (hLBA : LBA.toNat < 2 ^ 48) (hcount : count ≠ 0)
    (h : writesectorpio (traced io) fuel LBA count buffer disk (s, []) = some r) :
    Encodes WRITE LBA count disk (fun k => .outb (portOf disk + DAT) (buffer k).toUInt8) r.2 := by
  obtain ⟨r₁, hsend, hloop⟩ := Option.bind_eq_some_iff.mp h
  obtain ⟨l, hl, hdata, hcmd⟩ := writeSectors_log hloop
  simp only [Nat.zero_add] at hdata
  rw [hl]
  exact encodes_of_log hLBA hcount hsend rfl hdata hcmd

/-! ### The same run without the log -/

lemma fst_poll (port : ℕ) (st : UInt8) (fuel : ℕ) (r : σ × List Access) :
    (poll (traced io) port st fuel r).map Prod.fst = poll io port st fuel r.1 := by
  induction fuel generalizing r with
  | zero => rfl
  | succ fuel ih =>
    rw [poll, poll]
    by_cases h : (io.inb (port + STS) r.1).1 &&& st ≠ 0
    · exact (congrArg (Option.map Prod.fst) (if_pos h)).trans ((ih _).trans (if_pos h).symm)
    · exact (congrArg (Option.map Prod.fst) (if_neg h)).trans (if_neg h).symm

lemma fst_antipoll (port : ℕ) (st : UInt8) (fuel : ℕ) (r : σ × List Access) :
    (antipoll (traced io) port st fuel r).map Prod.fst = antipoll io port st fuel r.1 := by
  induction fuel generalizing r with
  | zero => rfl
  | succ fuel ih =>
    rw [antipoll, antipoll]
    by_cases h : (io.inb (port + STS) r.1).1 &&& st = 0
    · exact (congrArg (Option.map Prod.fst) (if_pos h)).trans ((ih _).trans (if_pos h).symm)
    · exact (congrArg (Option.map Prod.fst) (if_neg h)).trans (if_neg h).symm

lemma fst_statusReads (n : ℕ) (r : σ × List Access) :
    (statusReads (traced io) n r).1 = statusReads io n r.1 := by
  induction n generalizing r with
  | zero => rfl
  | succ n ih => exact ih _

lemma fst_waitSector (port fuel : ℕ) (r : σ × List Access) :
    (waitSector (traced io) port fuel r).map Prod.fst = waitSector io port fuel r.1 := by
  rw [waitSector, waitSector, Option.map_bind, smalldelay, smalldelay, ← fst_statusReads,
    ← fst_poll, Option.bind_map]
  exact Option.bind_congr fun r _ => fst_antipoll port DRQ fuel r

lemma fst_sendCommand (cmd : UInt8) (fuel : ℕ) (LBA : UInt64) (count : UInt16) (disk : UInt32)
    (r : σ × List Access) : (sendCommand (traced io) cmd fuel LBA count disk r).map Prod.fst =
      sendCommand io cmd fuel LBA count disk r.1 := by
  rw [sendCommand, sendCommand]
  dsimp only
  rw [← fst_poll, Option.map_map, Option.map_map]
  rfl

lemma fst_readWords (port n k : ℕ) (r : (σ × List Access) × (ℕ → UInt16)) :
    ((readWords (traced io) port n k r).1.1, (readWords (traced io) port n k r).2) =
      readWords io port n k (r.1.1, r.2) := by
  induction n generalizing k r with
  | zero => rfl
  | succ n ih => exact ih _ _

lemma fst_readSectors (port fuel i k : ℕ) (r : (σ × List Access) × (ℕ → UInt16)) :
    (readSectors (traced io) port fuel i k r).map (fun r => (r.1.1, r.2)) =
      readSectors io port fuel i k (r.1.1, r.2) := by
  induction i generalizing k r with
  | zero => rfl
  | succ i ih =>
    rw [readSectors, readSectors, Option.map_bind, ← fst_waitSector, Option.bind_map]
    refine Option.bind_congr fun s _ => ?_
    simp only [Function.comp_apply, ih, fst_readWords]

lemma fst_writeWords (port : ℕ) (buf : ℕ → UInt16) (n k : ℕ) (r : σ × List Access) :
    (writeWords (traced io) port buf n k r).1 = writeWords io port buf n k r.1 := by
  induction n generalizing k r with
  | zero => rfl
  | succ n ih => exact ih _ _

lemma fst_writeSectors (port fuel : ℕ) (buf : ℕ → UInt16) (i k : ℕ) (r : σ × List Access) :
    (writeSectors (traced io) port fuel buf i k r).map Prod.fst =
      writeSectors io port fuel buf i k r.1 := by
  induction i generalizing k r with
  | zero => rfl
  | succ i ih =>
    rw [writeSectors, writeSectors, Option.map_bind, ← fst_waitSector, Option.bind_map]
    refine Option.bind_congr fun s _ => ?_
    simp only [Function.comp_apply, ih, fst_writeWords]

lemma fst_readsectorpio (buffer : ℕ → UInt16) (r : σ × List Access) :
    (readsectorpio (traced io) fuel LBA count buffer disk r).map (fun r => (r.1.1, r.2)) =
      readsectorpio io fuel LBA count buffer disk r.1 := by
  rw [readsectorpio, readsectorpio, Option.map_bind, ← fst_sendCommand, Option.bind_map]
  exact Option.bind_congr fun s _ => fst_readSectors _ _ _ _ (s, buffer)

lemma fst_writesectorpio (buffer : ℕ → UInt16) (r : σ × List Access) :
    (writesectorpio (traced io) fuel LBA count buffer disk r).map Prod.fst =
      writesectorpio io fuel LBA count buffer disk r.1 := by
  rw [writesectorpio, writesectorpio, Option.map_bind, ← fst_sendCommand, Option.bind_map]
  exact Option.bind_congr fun s _ => fst_writeSectors _ _ _ _ _ s

lemma transfers_return (s : Bool → Channel) (LBA : UInt64) (hcount : count ≠ 0) (disk : UInt32)
    (buffer : ℕ → UInt16) :
    ∃ N, ∀ fuel ≥ N, (readsectorpio (traced ata) fuel LBA count buffer disk (s, [])).isSome ∧
      (writesectorpio (traced ata) fuel LBA count buffer disk (s, [])).isSome := by
  obtain ⟨N, hN⟩ := patient_bound (s (channelOf disk)) LBA count
  refine ⟨N, fun fuel hfuel => ⟨?_, ?_⟩⟩
  · obtain ⟨s', hs', -⟩ := @readsectorpio_eq disk fuel s buffer LBA count hcount (hN fuel hfuel)
    rw [← Option.isSome_map (f := fun r => (r.1.1, r.2)), fst_readsectorpio, hs']
    rfl
  · obtain ⟨s', hs', -⟩ := @writesectorpio_eq disk fuel s buffer LBA count hcount (hN fuel hfuel)
    rw [← Option.isSome_map (f := Prod.fst), fst_writesectorpio, hs']
    rfl

/-- **Commands of 48 bits.** On any device, `readsectorpio` and `writesectorpio` give the drive
the address and the count they were called with before they give it the command, and move
`count * 256` words of the buffer after it, in their order. On the ATA device they return. -/
theorem transfers_encode (LBA : UInt64) (hLBA : LBA.toNat < 2 ^ 48) (count : UInt16)
    (hcount : count ≠ 0) (disk : UInt32) (buffer : ℕ → UInt16) :
    (∀ (σ : Type) (io : PortIO σ) (fuel : ℕ) (s : σ) (r : (σ × List Access) × (ℕ → UInt16)),
        readsectorpio (traced io) fuel LBA count buffer disk (s, []) = some r →
        Encodes READ LBA count disk (fun k => .inw (portOf disk + DAT) (r.2 k)) r.1.2 ∧
          ∀ k ≥ count.toNat * 256, r.2 k = buffer k) ∧
      (∀ (σ : Type) (io : PortIO σ) (fuel : ℕ) (s : σ) (r : σ × List Access),
        writesectorpio (traced io) fuel LBA count buffer disk (s, []) = some r →
        Encodes WRITE LBA count disk (fun k => .outb (portOf disk + DAT) (buffer k).toUInt8) r.2) ∧
      ∀ s, ∃ N, ∀ fuel ≥ N,
        (readsectorpio (traced ata) fuel LBA count buffer disk (s, [])).isSome ∧
          (writesectorpio (traced ata) fuel LBA count buffer disk (s, [])).isSome :=
  ⟨fun _ _ _ _ _ h => readsectorpio_encodes hLBA hcount h,
    fun _ _ _ _ _ h => writesectorpio_encodes hLBA hcount h,
    fun s => transfers_return s LBA hcount disk buffer⟩

/-- Sectors beyond the first 2 TiB of the second disk of the second channel. -/
theorem transfers_encode_high :
    (∀ (σ : Type) (io : PortIO σ) (fuel : ℕ) (s : σ) (r : (σ × List Access) × (ℕ → UInt16)),
        readsectorpio (traced io) fuel 0x123456789ABC 3 (fun _ => 0) 3 (s, []) = some r →
        Encodes READ 0x123456789ABC 3 3 (fun k => .inw (portOf 3 + DAT) (r.2 k)) r.1.2 ∧
          ∀ k ≥ (3 : UInt16).toNat * 256, r.2 k = 0) ∧
      (∀ (σ : Type) (io : PortIO σ) (fuel : ℕ) (s : σ) (r : σ × List Access),
        writesectorpio (traced io) fuel 0x123456789ABC 3 (fun _ => 0) 3 (s, []) = some r →
        Encodes WRITE 0x123456789ABC 3 3 (fun _ => .outb (portOf 3 + DAT) 0) r.2) ∧
      ∀ s, ∃ N, ∀ fuel ≥ N,
        (readsectorpio (traced ata) fuel 0x123456789ABC 3 (fun _ => 0) 3 (s, [])).isSome ∧
          (writesectorpio (traced ata) fuel 0x123456789ABC 3 (fun _ => 0) 3 (s, [])).isSome :=
  transfers_encode 0x123456789ABC (by decide) 3 (by decide) 3 fun _ => 0

end FlameOS.PortTrace
