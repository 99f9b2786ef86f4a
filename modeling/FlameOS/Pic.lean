import FlameOS.Devices
import Mathlib

/-!
The interrupt controllers in `PIC.c`. `remappic` sets both of them up from whatever they have been
doing, with the masks they had, and `maskirq` and `unmaskirq` change one line.

A number that is not a line of either controller shifts the bit out of the byte, so nothing
happens; from some number on the shift is not defined.
-/

namespace FlameOS.Pic

open FlameOS.PIO FlameOS.Devices

def PIC1_CMD : ℕ := 0x20
def PIC1_DAT : ℕ := 0x21
def PIC2_CMD : ℕ := 0xA0
def PIC2_DAT : ℕ := 0xA1
def EOI : UInt8 := 0x20

/-! ### The driver -/

section driver

variable {σ : Type} (io : PortIO σ)

def iowait (s : σ) : σ := io.outb 0x80 0x80 s

def piceoi (isslave : Bool) (s : σ) : σ :=
  let s := if isslave then io.outb PIC2_CMD EOI s else s
  io.outb PIC1_CMD EOI s

def remappic (master slave : UInt8) (s : σ) : σ :=
  let m := io.inb PIC1_DAT s
  let r := io.inb PIC2_DAT m.2
  let s := iowait io (io.outb PIC1_CMD 0x11 r.2)
  let s := iowait io (io.outb PIC2_CMD 0x11 s)
  let s := iowait io (io.outb PIC1_DAT master s)
  let s := iowait io (io.outb PIC2_DAT slave s)
  let s := iowait io (io.outb PIC1_DAT 4 s)
  let s := iowait io (io.outb PIC2_DAT 2 s)
  let s := iowait io (io.outb PIC1_DAT 1 s)
  let s := iowait io (io.outb PIC2_DAT 1 s)
  let s := io.outb PIC1_DAT m.1 s
  io.outb PIC2_DAT r.1 s

/-- `1 << n` for an `int`, as far as it gets into a byte. -/
def bit (n : ℕ) : Option UInt8 := if n < 31 then some (1 <<< n : ℕ).toUInt8 else none

/-- `maskirq` and `unmaskirq`, which differ in what they do with the bit. -/
def changeMask (f : UInt8 → UInt8 → UInt8) (irq : UInt8) (s : σ) : Option σ :=
  if irq < 8 then
    (bit irq.toNat).map fun b =>
      io.outb PIC1_DAT (f (io.inb PIC1_DAT s).1 b) (io.inb PIC1_DAT s).2
  else
    (bit (irq - 8).toNat).map fun b =>
      io.outb PIC2_DAT (f (io.inb PIC2_DAT s).1 b) (io.inb PIC2_DAT s).2

def maskirq (irq : UInt8) (s : σ) : Option σ := changeMask io (fun m b => m ||| b) irq s

def unmaskirq (irq : UInt8) (s : σ) : Option σ := changeMask io (fun m b => m &&& ~~~b) irq s

/-- Calls of `maskirq` and `unmaskirq`, one after the other. -/
def changeMasks : List (Bool × UInt8) → σ → Option σ
  | [], s => some s
  | c :: cs, s => (if c.1 then maskirq io c.2 s else unmaskirq io c.2 s).bind (changeMasks cs)

end driver

/-! ### The controllers -/

variable {b : Board} {slave : Bool} {c : Chip} {v : UInt8}

structure Ready (c : Chip) (offset icw3 : UInt8) : Prop where
  phase : c.phase = .ready
  offset : c.offset = offset
  icw3 : c.icw3 = icw3
  icw4 : c.icw4 = 1

/-- The five words for a controller, and its masks behind them. -/
def setUp (c : Chip) (offset icw3 : UInt8) : Chip :=
  ((((c.command 0x11).data offset).data icw3).data 1).data c.imr

lemma setUp_eq (c : Chip) (offset icw3 : UInt8) :
    setUp c offset icw3 =
      { phase := .ready
        single := false
        needs4 := true
        offset := offset &&& 0xF8
        icw3 := icw3
        icw4 := 1
        imr := c.imr
        irr := fun _ => false
        isr := c.isr } := rfl

lemma outb_pic1_cmd (v : UInt8) (b : Board) :
    board.outb PIC1_CMD v b = b.setChip false ((b.chip false).command v) := rfl

lemma outb_pic1_dat (v : UInt8) (b : Board) :
    board.outb PIC1_DAT v b = b.setChip false ((b.chip false).data v) := rfl

lemma outb_pic2_cmd (v : UInt8) (b : Board) :
    board.outb PIC2_CMD v b = b.setChip true ((b.chip true).command v) := rfl

lemma outb_pic2_dat (v : UInt8) (b : Board) :
    board.outb PIC2_DAT v b = b.setChip true ((b.chip true).data v) := rfl

lemma inb_pic1_dat (b : Board) : board.inb PIC1_DAT b = ((b.chip false).imr, b) := rfl

lemma inb_pic2_dat (b : Board) : board.inb PIC2_DAT b = ((b.chip true).imr, b) := rfl

/-- There is nothing behind the port that `iowait` writes to. -/
lemma iowait_board (b : Board) : iowait board b = b := rfl

/-- The bytes for the two controllers do not get in the way of each other. -/
lemma remappic_eq (master slave : UInt8) (b : Board) :
    remappic board master slave b =
      (b.setChip false (setUp (b.chip false) master 4)).setChip true
        (setUp (b.chip true) slave 2) := by
  simp only [remappic, inb_pic1_dat, inb_pic2_dat, iowait_board, outb_pic1_cmd, outb_pic2_cmd,
    outb_pic1_dat, outb_pic2_dat, setUp]
  apply Board.ext
  · ext1 slave
    cases slave
    · simp
    · simp
  · simp

/-! ### The masks -/

section bits

variable {m : UInt8} {n i : ℕ}

lemma testBit_shift (hi : i < 8) : ((1 <<< n : ℕ).toUInt8).toNat.testBit i = decide (i = n) := by
  rw [UInt8.toNat_ofNat', Nat.testBit_mod_two_pow, decide_eq_true hi, Bool.true_and,
    Nat.one_shiftLeft, Nat.testBit_two_pow]
  exact decide_eq_decide.mpr eq_comm

lemma testBit_or (hi : i < 8) :
    (m ||| (1 <<< n : ℕ).toUInt8).toNat.testBit i = (m.toNat.testBit i || decide (i = n)) := by
  rw [UInt8.toNat_or, Nat.testBit_or, testBit_shift hi]

lemma testBit_and_not (hi : i < 8) :
    (m &&& ~~~(1 <<< n : ℕ).toUInt8).toNat.testBit i = (m.toNat.testBit i && !decide (i = n)) := by
  have hnot : (~~~(1 <<< n : ℕ).toUInt8).toNat.testBit i =
      !((1 <<< n : ℕ).toUInt8).toNat.testBit i := by
    have h := BitVec.getLsbD_not (x := ((1 <<< n : ℕ).toUInt8).toBitVec) (i := i)
    rw [decide_eq_true hi, Bool.true_and] at h
    exact h
  rw [UInt8.toNat_and, Nat.testBit_and, hnot, testBit_shift hi]

end bits

/-- What a function of a mask and a bit makes of the lines. -/
def Sets (f : UInt8 → UInt8 → UInt8) (on : Bool) : Prop :=
  ∀ (m : UInt8) (n i : ℕ), i < 8 → (f m (1 <<< n : ℕ).toUInt8).toNat.testBit i =
    if i = n then on else m.toNat.testBit i

lemma sets_or : Sets (fun m b => m ||| b) true := by
  intro m n i hi
  rw [testBit_or hi]
  split
  · simp [*]
  · simp [*]

lemma sets_and_not : Sets (fun m b => m &&& ~~~b) false := by
  intro m n i hi
  rw [testBit_and_not hi]
  split
  · simp [*]
  · simp [*]

/-- The board has the same lines, apart from their masks. -/
structure SameLines (b b' : Board) : Prop where
  ready : ∀ slave, (b'.chip slave).phase = .ready
  chip : ∀ slave, b'.chip slave = { b.chip slave with imr := (b'.chip slave).imr }
  channel : b'.channel = b.channel

lemma SameLines.refl (hb : ∀ slave, (b.chip slave).phase = .ready) : SameLines b b :=
  ⟨hb, fun _ => rfl, rfl⟩

lemma SameLines.trans {b₁ b₂ b₃ : Board} (h : SameLines b₁ b₂) (h' : SameLines b₂ b₃) :
    SameLines b₁ b₃ := by
  refine ⟨h'.ready, fun slave => ?_, h'.channel.trans h.channel⟩
  rw [h'.chip slave, h.chip slave]

lemma sameLines_data (hb : ∀ slave, (b.chip slave).phase = .ready) (slave : Bool) (v : UInt8) :
    SameLines b (b.setChip slave ((b.chip slave).data v)) := by
  have hdata := Chip.data_of_ready (hb slave) v
  refine ⟨fun s => ?_, fun s => ?_, rfl⟩
  · by_cases hs : s = slave
    · subst hs
      rw [Board.chip_setChip_self, hdata]
      exact hb s
    · rw [Board.chip_setChip_of_ne _ hs]
      exact hb s
  · by_cases hs : s = slave
    · subst hs
      rw [Board.chip_setChip_self, hdata]
    · rw [Board.chip_setChip_of_ne _ hs]

lemma masked_data {f : UInt8 → UInt8 → UInt8} {on : Bool} (hf : Sets f on)
    (hb : ∀ slave, (b.chip slave).phase = .ready) (slave : Bool) (n line : ℕ) :
    (b.setChip slave ((b.chip slave).data (f (b.chip slave).imr (1 <<< n : ℕ).toUInt8))).masked
        line = if decide (8 ≤ line) = slave ∧ line % 8 = n then on else b.masked line := by
  have hi : line % 8 < 8 := Nat.mod_lt _ (by decide)
  unfold Board.masked
  by_cases hs : decide (8 ≤ line) = slave
  · rw [hs, Board.chip_setChip_self, Chip.data_of_ready (hb slave)]
    simp only [Chip.masked, true_and]
    exact hf _ n _ hi
  · rw [Board.chip_setChip_of_ne _ hs, if_neg fun h => hs h.1]

/-- One call changes the mask of its line, if there is one. -/
lemma changeMask_spec {f : UInt8 → UInt8 → UInt8} {on : Bool} (hf : Sets f on) {irq : UInt8}
    (hirq : irq.toNat < 39) (hb : ∀ slave, (b.chip slave).phase = .ready) :
    ∃ b', changeMask board f irq b = some b' ∧ SameLines b b' ∧
      ∀ line < 16, b'.masked line = if irq.toNat = line then on else b.masked line := by
  unfold changeMask bit
  by_cases hlt : irq < 8
  · have hltN : irq.toNat < 8 := hlt
    rw [if_pos hlt, if_pos (by omega)]
    refine ⟨_, rfl, sameLines_data hb false _, fun line hline => ?_⟩
    refine (masked_data hf hb false irq.toNat line).trans (if_congr ?_ rfl rfl)
    rw [decide_eq_false_iff_not]
    omega
  · have hge : 8 ≤ irq.toNat := Nat.not_lt.mp hlt
    have hsub : (irq - 8).toNat = irq.toNat - 8 := UInt8.toNat_sub_of_le _ _ (UInt8.not_lt.mp hlt)
    rw [if_neg hlt, hsub, if_pos (by omega)]
    refine ⟨_, rfl, sameLines_data hb true _, fun line hline => ?_⟩
    refine (masked_data hf hb true (irq.toNat - 8) line).trans (if_congr ?_ rfl rfl)
    rw [decide_eq_true_iff]
    omega

lemma lt_of_changeMask {f : UInt8 → UInt8 → UInt8} {irq : UInt8} {b' : Board}
    (h : changeMask board f irq b = some b') : irq.toNat < 39 := by
  by_contra hge
  have hlt : ¬irq < 8 := by
    rw [UInt8.lt_iff_toNat_lt]
    exact fun h => hge (h.trans (by decide))
  have hsub : (irq - 8).toNat = irq.toNat - 8 := UInt8.toNat_sub_of_le _ _ (UInt8.not_lt.mp hlt)
  rw [changeMask, if_neg hlt, bit, hsub, if_neg (by omega)] at h
  cases h

/-- **The masks after any calls.** Each line is masked or not as the last call for it has it, and
nothing else changes. -/
lemma changeMasks_spec {cs : List (Bool × UInt8)} (hcs : ∀ c ∈ cs, c.2.toNat < 39)
    (hb : ∀ slave, (b.chip slave).phase = .ready) :
    ∃ b', changeMasks board cs b = some b' ∧ SameLines b b' ∧
      ∀ line < 16, b'.masked line =
        (cs.reverse.find? fun c => decide (c.2.toNat = line)).elim (b.masked line) Prod.fst := by
  induction cs generalizing b with
  | nil => exact ⟨b, rfl, .refl hb, fun _ _ => rfl⟩
  | cons c cs ih =>
    have hstep : ∃ b₁, (if c.1 then maskirq board c.2 b else unmaskirq board c.2 b) = some b₁ ∧
        SameLines b b₁ ∧
        ∀ line < 16, b₁.masked line = if c.2.toNat = line then c.1 else b.masked line := by
      have hlt := hcs c List.mem_cons_self
      cases c.1
      · exact changeMask_spec sets_and_not hlt hb
      · exact changeMask_spec sets_or hlt hb
    obtain ⟨b₁, h₁, hsame₁, hmasked₁⟩ := hstep
    obtain ⟨b₂, h₂, hsame₂, hmasked₂⟩ :=
      ih (fun d hd => hcs d (List.mem_cons_of_mem _ hd)) hsame₁.ready
    refine ⟨b₂, ?_, hsame₁.trans hsame₂, fun line hline => ?_⟩
    · rw [changeMasks, h₁, Option.bind_some, h₂]
    · rw [hmasked₂ line hline, hmasked₁ line hline, List.reverse_cons, List.find?_append]
      -- a later call for the line counts, or else this one
      rcases hfind : cs.reverse.find? fun c => decide (c.2.toNat = line) with _ | d
      · by_cases hc : c.2.toNat = line
        · simp [hfind, hc]
        · simp [hfind, hc]
      · simp [hfind]

/-- **The controllers after any calls.** From whatever state, `remappic` leaves both of them set up,
with the masks as they were, and after it each line is masked or not as the last call for it has
it. Requests from before are gone, lines in service stay so, and no other device takes part. -/
theorem remappic_changeMasks (master slave : UInt8) (b : Board) {cs : List (Bool × UInt8)}
    (hcs : ∀ c ∈ cs, c.2.toNat < 39) :
    ∃ b', changeMasks board cs (remappic board master slave b) = some b' ∧
      Ready (b'.chip false) (master &&& 0xF8) 4 ∧ Ready (b'.chip true) (slave &&& 0xF8) 2 ∧
      (∀ line < 16, b'.masked line =
        (cs.reverse.find? fun c => decide (c.2.toNat = line)).elim (b.masked line) Prod.fst) ∧
      (∀ line, b'.requested line = false ∧ b'.inService line = b.inService line) ∧
      b'.channel = b.channel := by
  have hchip : ∀ s, (remappic board master slave b).chip s =
      setUp (b.chip s) (if s then slave else master) (if s then 2 else 4) := by
    intro s
    rw [remappic_eq]
    cases s
    · simp
    · simp
  have hready : ∀ s, ((remappic board master slave b).chip s).phase = .ready := by
    intro s
    rw [hchip, setUp_eq]
  obtain ⟨b', h, hsame, hmasked⟩ := changeMasks_spec hcs hready
  refine ⟨b', h, ?_, ?_, fun line hline => ?_, fun line => ⟨?_, ?_⟩, hsame.channel⟩
  · rw [hsame.chip, hchip, setUp_eq]
    exact ⟨rfl, rfl, rfl, rfl⟩
  · rw [hsame.chip, hchip, setUp_eq]
    exact ⟨rfl, rfl, rfl, rfl⟩
  · rw [hmasked line hline, Board.masked, hchip, setUp_eq]
    rfl
  · rw [Board.requested, hsame.chip, hchip, setUp_eq]
  · rw [Board.inService, hsame.chip, hchip, setUp_eq]
    rfl

theorem remappic_changeMasks_default :
    ∃ b, changeMasks board [(true, 3), (false, 3), (true, 38)]
        (remappic board 0x20 0x28 default) = some b ∧
      Ready (b.chip false) (0x20 &&& 0xF8) 4 ∧ Ready (b.chip true) (0x28 &&& 0xF8) 2 ∧
      (∀ line < 16, b.masked line =
        ([(true, 3), (false, 3), (true, 38)].reverse.find? fun c : Bool × UInt8 =>
          decide (c.2.toNat = line)).elim ((default : Board).masked line) Prod.fst) ∧
      (∀ line, b.requested line = false ∧ b.inService line = (default : Board).inService line) ∧
      b.channel = (default : Board).channel :=
  remappic_changeMasks 0x20 0x28 default (by simp)

end FlameOS.Pic
