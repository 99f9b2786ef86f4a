import FlameOS.Timer
import FlameOS.Arbiter
import Mathlib

/-!
The interrupts of the kernel, from the lines of the controllers through the tables in memory to
the handlers and back.

No task segment is loaded and nothing leaves ring 0, so the processor is in ring 0 at every
interrupt. The gates of the devices turn interrupts off, so a handler runs to its end.
-/

namespace FlameOS.Interrupts

open FlameOS.Runs FlameOS.ByteMem FlameOS.Records FlameOS.Descriptors FlameOS.Gdt FlameOS.Idt
open FlameOS.Devices FlameOS.Pic FlameOS.Timer

/-- Where the linker has put the tables, the counter and the handlers. -/
structure Image where
  GDT : ℕ
  IDT : ℕ
  timerticks : ℕ
  code : Handler → UInt64
  code_injective : Function.Injective code
  gdt_idt : GDT + 8 * ENTRIES ≤ IDT ∨ IDT + 16 * INTS ≤ GDT
  ticks_gdt : timerticks + 8 ≤ GDT ∨ GDT + 8 * ENTRIES ≤ timerticks
  ticks_idt : timerticks + 8 ≤ IDT ∨ IDT + 16 * INTS ≤ timerticks

variable (img : Image)

/-- `init_idt` with its call of `remappic`. -/
def initIdt (IDT : ℕ) (code : Handler → UInt64) (s : Sys) : Sys :=
  ⟨addirqs IDT ((loops ++ faults).map (Setup.irq code)) s.mem, remappic board 0x20 0x28 s.board⟩

/-- `init`, as far as interrupts are concerned, if none comes before it is through. -/
def start (s : Sys) : Option Sys :=
  initTimer img.IDT img.code
    (initIdt img.IDT img.code ⟨(initGdt img.GDT ⟨s.mem, 0⟩).mem, s.board⟩)

/-- A request of a device, an interrupt with its handler, or a call of `maskirq` or `unmaskirq`. -/
inductive Event
  | raise (line : ℕ)
  | deliver (line : ℕ) (h : Handler)
  | mask (on : Bool) (irq : UInt8)

inductive Step : Sys → Event → Sys → Prop
  | raise {s : Sys} {line : ℕ} (hline : line < 16) (h2 : line ≠ 2) :
      Step s (.raise line) { s with board := s.board.raise line }
  | deliver {s s' : Sys} {line v : ℕ} {b : Board} {e : Entry} {h : Handler}
      (hinta : s.board.inta = some (line, v, b))
      (henter : enter s.mem (GDTP img.GDT) (IDTP img.IDT) false false 0 v = some e)
      (hcode : (img.code h).toNat = e.rip) (rax : UInt64) (stack : List UInt64)
      (hrun : runHandler img.timerticks h ⟨rax, stack, ⟨s.mem, b⟩⟩ = some ⟨rax, stack, s'⟩) :
      Step s (.deliver line h) s'
  | mask {s : Sys} {b : Board} {on : Bool} {irq : UInt8}
      (h : (if on then maskirq board irq s.board else unmaskirq board irq s.board) = some b) :
      Step s (.mask on irq) { s with board := b }

/-! ### The lines -/

/-- The lines in the order of their priorities: those of the slave come where it is wired. -/
def order : List ℕ := [0, 1] ++ (List.range 8).map (8 + ·) ++ [3, 4, 5, 6, 7]

/-- The lines of a board. Those of the slave need line 2 as well. -/
def lines (b : Board) : Arbiter.State ℕ where
  requested line := decide (line < 16 ∧ line ≠ 2) && b.requested line
  enabled line := !b.masked line && (decide (line < 8) || !b.masked 2)

/-- Both controllers are set up, and no interrupt is in service. -/
structure Idle (b : Board) : Prop where
  master : Ready (b.chip false) 0x20 4
  slave : Ready (b.chip true) 0x28 2
  isr : ∀ slave i, (b.chip slave).isr i = false

def acknowledged (b : Board) (line : ℕ) : Board :=
  if line < 8 then b.setChip false ((b.chip false).acknowledge line)
  else (b.setChip false ((b.chip false).acknowledge 2)).setChip true
    ((b.chip true).acknowledge (line - 8))

def served (b : Board) (line : ℕ) : Board :=
  if line < 8 then
    b.setChip false { b.chip false with irr := Function.update (b.chip false).irr line false }
  else
    (b.setChip false { b.chip false with irr := Function.update (b.chip false).irr 2 false }).setChip
      true { b.chip true with irr := Function.update (b.chip true).irr (line - 8) false }

variable {img} {b b' : Board} {s s' : Sys} {line i v : ℕ} {c : Chip}

lemma mem_order : line ∈ order ↔ line < 16 ∧ line ≠ 2 := by
  have hdec : ∀ i < 16, i ∈ order ↔ i ≠ 2 := by decide
  constructor
  · intro h
    have hlt : ∀ i ∈ order, i < 16 := by decide
    exact ⟨hlt line h, (hdec line (hlt line h)).mp h⟩
  · exact fun h => (hdec line h.1).mpr h.2

lemma Idle.ready (h : Idle b) (slave : Bool) : (b.chip slave).phase = .ready := by
  cases slave
  · exact h.master.phase
  · exact h.slave.phase

/-- With nothing in service, a controller asks for its first line that is not masked. -/
lemma request_eq (hc : c.phase = .ready) (hisr : ∀ i, c.isr i = false) (irr : ℕ → Bool) :
    c.request irr = highest fun i => irr i && !c.masked i := by
  have hall : ∀ i, (List.range (i + 1)).all (fun j => !c.isr j) = true := by
    intro i
    simp [hisr]
  rw [Chip.request, if_pos hc]
  simp only [hall]
  rcases highest fun i => irr i && !c.masked i with _ | i
  · rfl
  · rfl

lemma slaveRequest_eq (h : Idle b) :
    b.slaveRequest = highest fun i => (b.chip true).irr i && !(b.chip true).masked i :=
  request_eq h.slave.phase (h.isr true) _

/-- The first line of a controller, with line 2 apart. -/
lemma highest_eq (p : ℕ → Bool) :
    highest p = (([0, 1].find? p).or (if p 2 then some 2 else none)).or
      ([3, 4, 5, 6, 7].find? p) := by
  have hrange : List.range 8 = ([0, 1] ++ [2]) ++ [3, 4, 5, 6, 7] := rfl
  rw [highest, hrange, List.find?_append, List.find?_append]
  congr 2
  cases h : p 2
  · simp [h]
  · simp [h]

/-- What the processor gets when it acknowledges: the first line that is requested and enabled, its
vector, and the board with the line in service. -/
lemma inta_eq (h : Idle b) :
    b.inta = (Arbiter.next order (lines b)).map fun line =>
      (line, 0x20 + line, acknowledged b line) := by
  have hmaster : b.masterRequest =
      highest fun i => Function.update (b.chip false).irr 2 b.slaveRequest.isSome i &&
        !(b.chip false).masked i := request_eq h.master.phase (h.isr false) _
  have hlow : ∀ l : List ℕ, (∀ i ∈ l, i < 8 ∧ i ≠ 2) →
      l.find? (fun i => Function.update (b.chip false).irr 2 b.slaveRequest.isSome i &&
        !(b.chip false).masked i) =
      l.find? fun i => (lines b).requested i && (lines b).enabled i := by
    intro l hl
    refine List.find?_congr fun i hi => ?_
    obtain ⟨hlt, hne⟩ := hl i hi
    have hle : ¬8 ≤ i := by omega
    have hmod : i % 8 = i := by omega
    simp [lines, Board.requested, Board.masked, hle, hmod, hlt, hne,
      show i < 16 by omega]
  have hslave : ((List.range 8).map (8 + ·)).find?
      (fun i => (lines b).requested i && (lines b).enabled i) =
      if b.masked 2 then none else b.slaveRequest.map (8 + ·) := by
    rw [List.find?_map, slaveRequest_eq h, highest]
    by_cases hcascade : b.masked 2
    · simp [lines, hcascade]
    · have hunmasked : (b.chip false).masked 2 = false := Bool.eq_false_of_not_eq_true hcascade
      rw [if_neg hcascade]
      refine congrArg _ (List.find?_congr fun j hj => ?_)
      have hlt : j < 8 := List.mem_range.mp hj
      have hmod : (8 + j) % 8 = j := by omega
      simp [lines, Board.requested, Board.masked, hunmasked, hmod, show 8 + j < 16 by omega,
        show 8 + j ≠ 2 by omega]
  have hoffset : (b.chip false).offset = 0x20 ∧ (b.chip true).offset = 0x28 :=
    ⟨h.master.offset, h.slave.offset⟩
  rw [Board.inta, hmaster, highest_eq, hlow _ (by decide), hlow _ (by decide), Arbiter.next, order,
    List.find?_append, List.find?_append, hslave, Function.update_self, hoffset.1, hoffset.2]
  -- lines 0 and 1, then those of the slave, and then the rest
  have hrest : ∀ l : List ℕ, (∀ i ∈ l, i < 8 ∧ i ≠ 2) →
      ∀ i, l.find? (fun i => (lines b).requested i && (lines b).enabled i) = some i →
        i < 8 ∧ i ≠ 2 := fun l hl i hi => hl i (List.mem_of_find?_eq_some hi)
  have hmasked : b.masked 2 = (b.chip false).masked 2 := rfl
  rcases hfirst : [0, 1].find? fun i => (lines b).requested i && (lines b).enabled i with _ | i
  · cases hm : (b.chip false).masked 2
    · rcases hs : b.slaveRequest with _ | j
      · rcases hlast : [3, 4, 5, 6, 7].find? fun i =>
          (lines b).requested i && (lines b).enabled i with _ | i
        · simp [hmasked, hm]
        · obtain ⟨hlt, hne⟩ := hrest _ (by decide) i hlast
          simp [hmasked, hm, hne, hlt, acknowledged]
      · have hvector : 40 + j = 32 + (8 + j) := by omega
        simp [hmasked, hm, hvector, acknowledged]
    · rcases hlast : [3, 4, 5, 6, 7].find? fun i =>
        (lines b).requested i && (lines b).enabled i with _ | i
      · simp [hmasked, hm]
      · obtain ⟨hlt, hne⟩ := hrest _ (by decide) i hlast
        simp [hmasked, hm, hne, hlt, acknowledged]
  · obtain ⟨hlt, hne⟩ := hrest _ (by decide) i hfirst
    simp [hne, hlt, acknowledged]

/-! ### The handlers -/

/-- A line that is acknowledged with nothing in service is no longer so behind the end of interrupt,
nor is it requested. -/
lemma command_acknowledge (hisr : ∀ i, c.isr i = false) (hicw4 : c.icw4 = 1) (hi : i < 8) :
    (c.acknowledge i).command EOI = { c with irr := Function.update c.irr i false } := by
  have hnone : c.isr = fun _ => false := funext hisr
  have hhigh : highest (Function.update (fun _ => false) i true) = some i := by
    rw [highest, List.find?_range_eq_some]
    refine ⟨by simp, List.mem_range.mpr hi, fun j hj => ?_⟩
    rw [Function.update_of_ne hj.ne]
    rfl
  have hcommand : ∀ c : Chip, c.command EOI = c.eoi (highest c.isr) := fun _ => rfl
  have hauto : ¬c.icw4 &&& 2 ≠ 0 := by
    rw [hicw4]
    decide
  have hclear : Function.update (fun _ : ℕ => false) i false = fun _ => false :=
    Function.update_eq_self i _
  rw [hcommand, Chip.acknowledge, if_neg hauto, hnone, hhigh, Chip.eoi, Function.update_idem, hclear,
    ← hnone]

/-- The end of interrupt goes to the controllers that have the line in service. -/
lemma piceoi_acknowledged (h : Idle b) (hline : line < 16) :
    piceoi board (decide (8 ≤ line)) (acknowledged b line) = served b line := by
  have hmaster : ∀ i < 8, ((b.chip false).acknowledge i).command EOI =
      { b.chip false with irr := Function.update (b.chip false).irr i false } := fun i hi =>
    command_acknowledge (h.isr false) h.master.icw4 hi
  have hslave : ∀ i < 8, ((b.chip true).acknowledge i).command EOI =
      { b.chip true with irr := Function.update (b.chip true).irr i false } := fun i hi =>
    command_acknowledge (h.isr true) h.slave.icw4 hi
  unfold acknowledged served piceoi
  by_cases hlt : line < 8
  · rw [if_pos hlt, if_pos hlt, decide_eq_false (by omega), if_neg Bool.false_ne_true,
      outb_pic1_cmd, Board.chip_setChip_self, hmaster line hlt, Board.setChip_setChip]
  · rw [if_neg hlt, if_neg hlt, decide_eq_true (by omega), if_pos rfl, outb_pic2_cmd,
      outb_pic1_cmd]
    apply Board.ext
    · ext1 slave
      cases slave
      · simp [hmaster 2 (by decide)]
      · simp [hslave (line - 8) (by omega)]
    · rfl

/-- What the handler for a line does: the timer counts. -/
lemma runHandler_eq (timerticks : ℕ) (h : Idle b) (hline : line < 16) (m : Mem) (rax : UInt64)
    (stack : List UInt64) :
    runHandler timerticks (handlerOf (0x20 + line)) ⟨rax, stack, ⟨m, acknowledged b line⟩⟩ =
      some ⟨rax, stack,
        ⟨if line = 0 then store m timerticks (load m timerticks + 1) else m, served b line⟩⟩ := by
  have heoi := piceoi_acknowledged h hline
  by_cases h0 : line = 0
  · subst h0
    have hhandler : handlerOf (0x20 + 0) = .pitirq := rfl
    rw [hhandler, runHandler_pitirq, if_pos rfl, ← heoi]
    rfl
  · rw [if_neg h0, ← heoi]
    by_cases hlt : line < 8
    · have hhandler : ∀ i < 8, i ≠ 0 → handlerOf (0x20 + i) = .nop_master := by decide
      rw [hhandler line hlt h0, decide_eq_false (by omega)]
      rfl
    · have hhandler : ∀ i < 16, ¬i < 8 → handlerOf (0x20 + i) = .nop_slave := by decide
      rw [hhandler line hline hlt, decide_eq_true (by omega)]
      rfl

/-! ### What an event does to the lines -/

lemma masked_raise (line i : ℕ) : (b.raise line).masked i = b.masked i := by
  unfold Board.raise Board.masked
  by_cases hs : decide (8 ≤ i) = decide (8 ≤ line)
  · rw [hs, Board.chip_setChip_self]
    rfl
  · rw [Board.chip_setChip_of_ne _ hs]

/-- A board on which one line is requested or not, as `on` says, and all else is as before. -/
lemma lines_eq {on : Bool} (hmasked : ∀ i, b'.masked i = b.masked i)
    (hreq : ∀ i < 16, i ≠ 2 → b'.requested i = Function.update b.requested line on i)
    (hline : on = true → line < 16 ∧ line ≠ 2) :
    lines b' = { lines b with requested := Function.update (lines b).requested line on } := by
  apply Arbiter.State.ext
  · ext1 i
    by_cases hi : i < 16 ∧ i ≠ 2
    · have hrequested := hreq i hi.1 hi.2
      by_cases heq : i = line
      · subst heq
        simp [lines, hi, hrequested]
      · simp [lines, hrequested, heq]
    · have hnone : ∀ b, (lines b).requested i = false := fun b => by simp [lines, hi]
      by_cases heq : i = line
      · subst heq
        cases on
        · simp [hnone]
        · exact absurd (hline rfl) hi
      · simp [hnone, heq]
  · simp only [lines, hmasked]

lemma lines_raise (hline : line < 16) (h2 : line ≠ 2) :
    lines (b.raise line) =
      { lines b with requested := Function.update (lines b).requested line true } := by
  refine lines_eq (masked_raise line) (fun i hi _ => ?_) fun _ => ⟨hline, h2⟩
  unfold Board.raise Board.requested
  by_cases heq : i = line
  · subst heq
    simp
  · rw [Function.update_of_ne heq]
    by_cases hs : decide (8 ≤ i) = decide (8 ≤ line)
    · have hmod : i % 8 ≠ line % 8 := by
        rw [decide_eq_decide] at hs
        omega
      rw [hs, Board.chip_setChip_self]
      exact Function.update_of_ne hmod _ _
    · rw [Board.chip_setChip_of_ne _ hs]

lemma chip_served (b : Board) (line : ℕ) (slave : Bool) :
    ∃ irr, (served b line).chip slave = { b.chip slave with irr } := by
  unfold served
  split
  · cases slave
    · exact ⟨_, Board.chip_setChip_self ..⟩
    · exact ⟨_, Board.chip_setChip_of_ne _ (by decide) _⟩
  · cases slave
    · rw [Board.chip_setChip_of_ne _ (by decide), Board.chip_setChip_self]
      exact ⟨_, rfl⟩
    · exact ⟨_, Board.chip_setChip_self ..⟩

lemma masked_served (b : Board) (line i : ℕ) : (served b line).masked i = b.masked i := by
  obtain ⟨irr, hirr⟩ := chip_served b line (decide (8 ≤ i))
  unfold Board.masked
  rw [hirr]
  rfl

lemma requested_served (hi : i < 16) (h2 : i ≠ 2) (hline : line < 16) :
    (served b line).requested i = Function.update b.requested line false i := by
  unfold served Board.requested
  by_cases hi8 : 8 ≤ i
  · have hmod : i % 8 = i - 8 := by omega
    by_cases hlt : line < 8
    · have hne : i ≠ line := by omega
      simp [hlt, hi8, hne]
    · by_cases heq : i = line
      · subst heq
        simp [hi8, hlt, hmod]
      · have hsub : i - 8 ≠ line - 8 := by omega
        simp [hi8, hlt, hmod, heq, hsub]
  · have hmod : i % 8 = i := by omega
    by_cases hlt : line < 8
    · by_cases heq : i = line
      · subst heq
        simp [hi8, hlt, hmod]
      · simp [hi8, hlt, hmod, heq]
    · have hne : i ≠ line := by omega
      simp [hi8, hlt, hmod, hne, h2]

lemma lines_served (hline : line < 16) :
    lines (served b line) =
      { lines b with requested := Function.update (lines b).requested line false } :=
  lines_eq (masked_served b line) (fun _ hi h2 => requested_served hi h2 hline) fun h => by cases h

/-! ### Events -/

/-- The tables are in memory as they were set up, the controllers are idle, and the timer runs. -/
structure Live (img : Image) (m₀ : Mem) (s : Sys) : Prop where
  mem : ∀ x, ¬(img.timerticks ≤ x ∧ x < img.timerticks + 8) →
    s.mem x = tables img.GDT img.IDT img.code m₀ x
  idle : Idle s.board
  timer : s.board.channel 0 = ⟨3, 3, false, none, 1193⟩

/-- An interrupt on a line goes to the handler for it. -/
def Leads (img : Image) (m : Mem) (line : ℕ) : Prop :=
  enter m (GDTP img.GDT) (IDTP img.IDT) false false 0 (0x20 + line) =
    some ⟨(img.code (handlerOf (0x20 + line))).toNat, KERNEL_CODE, 0, true⟩

def ticks (img : Image) (s : Sys) : UInt64 := load s.mem img.timerticks

/-- How much an event counts for the timer. -/
def Event.ticks : Event → ℕ
  | .deliver line _ => if line = 0 then 1 else 0
  | _ => 0

/-- An event, and what it is for the lines: each interrupt goes to its own handler. -/
inductive Matches : Event → Arbiter.Label ℕ → Prop
  | raise (line : ℕ) : Matches (.raise line) (.raise line)
  | deliver (line : ℕ) : Matches (.deliver line (handlerOf (0x20 + line))) (.serve line)
  | mask (on : Bool) (irq : UInt8) (e : ℕ → Bool) : Matches (.mask on irq) (.enable e)

/-- What an event makes of the request of a line. -/
def Event.sets (line : ℕ) : Event → Option Bool
  | .raise i => if i = line then some true else none
  | .deliver i _ => if i = line then some false else none
  | .mask _ _ => none

variable {m₀ : Mem} {e : Event}

lemma Matches.sets {l : Arbiter.Label ℕ} (h : Matches e l) (line : ℕ) :
    l.sets line = e.sets line := by
  cases h
  · rfl
  · rfl
  · rfl

/-- That is so if its gate and the segments are as they were set up. -/
lemma leads {m : Mem} (hline : line < 16)
    (hgdt : ∀ x, img.GDT ≤ x ∧ x < img.GDT + 8 * ENTRIES →
      m x = tables img.GDT img.IDT img.code m₀ x)
    (hidt : ∀ k < 16, m (img.IDT + 16 * (0x20 + line) + k) =
      tables img.GDT img.IDT img.code m₀ (img.IDT + 16 * (0x20 + line) + k)) :
    Leads img m line := by
  have hin : 0x20 + line < INTS := by
    unfold INTS
    omega
  have htables := enter_tables img.gdt_idt (m := m₀) img.code false false 0 (0x20 + line)
  rw [if_pos ⟨hin, Or.inl rfl⟩, decide_eq_true (Nat.le_add_right 0x20 line)] at htables
  rw [Leads, ← htables]
  refine enter_congr (fun _ => record_congr hidt) fun i hi => record_congr fun k hk => hgdt _ ?_
  have hlimit : 8 * i + 7 ≤ 63 := hi
  have hbase : (GDTP img.GDT).base = img.GDT := rfl
  unfold ENTRIES
  omega

lemma Live.leads (hs : Live img m₀ s) (hline : line < 16) : Leads img s.mem line := by
  refine Interrupts.leads hline (fun x hx => hs.mem x ?_) fun k hk => hs.mem _ ?_
  · have hticks := img.ticks_gdt
    omega
  · have hticks := img.ticks_idt
    unfold INTS at hticks
    omega

/-- Requests and masks have nothing to do with what is set up and in service. -/
lemma Idle.congr (h : Idle b)
    (hchip : ∀ slave, ∃ imr irr, b'.chip slave = { b.chip slave with imr, irr }) : Idle b' := by
  have hready : ∀ {slave offset icw3}, Ready (b.chip slave) offset icw3 →
      Ready (b'.chip slave) offset icw3 := by
    intro slave offset icw3 hr
    obtain ⟨imr, irr, heq⟩ := hchip slave
    rw [heq]
    exact ⟨hr.phase, hr.offset, hr.icw3, hr.icw4⟩
  refine ⟨hready h.master, hready h.slave, fun slave i => ?_⟩
  obtain ⟨imr, irr, heq⟩ := hchip slave
  rw [heq]
  exact h.isr slave i

lemma Idle.raise (h : Idle b) (line : ℕ) : Idle (b.raise line) := by
  refine h.congr fun slave => ?_
  unfold Board.raise
  by_cases hs : slave = decide (8 ≤ line)
  · subst hs
    exact ⟨_, _, Board.chip_setChip_self ..⟩
  · exact ⟨_, _, Board.chip_setChip_of_ne _ hs _⟩

lemma Idle.served (h : Idle b) (line : ℕ) : Idle (served b line) := by
  refine h.congr fun slave => ?_
  obtain ⟨irr, heq⟩ := chip_served b line slave
  exact ⟨_, irr, heq⟩

lemma Idle.sameLines (h : Idle b) (hb : SameLines b b') : Idle b' :=
  h.congr fun slave => ⟨_, _, hb.chip slave⟩

lemma lines_sameLines (hb : SameLines b b') :
    lines b' = { lines b with enabled := (lines b').enabled } := by
  apply Arbiter.State.ext
  · ext1 i
    have hreq : b'.requested i = b.requested i := by
      unfold Board.requested
      rw [hb.chip]
    simp only [lines, hreq]
  · rfl

lemma lt_of_next (h : Arbiter.next order (lines b) = some line) : line < 16 :=
  (mem_order.mp (List.mem_of_find?_eq_some h)).1

/-- An interrupt takes the line that comes first, to its own handler, and leaves the controllers
idle; and there is one whenever some line comes first. -/
lemma deliver_iff (hidle : Idle s.board)
    (hleads : ∀ line, Arbiter.next order (lines s.board) = some line → Leads img s.mem line)
    {h : Handler} :
    Step img s (.deliver line h) s' ↔
      Arbiter.next order (lines s.board) = some line ∧ h = handlerOf (0x20 + line) ∧
        s' = ⟨if line = 0 then store s.mem img.timerticks (load s.mem img.timerticks + 1) else s.mem,
          served s.board line⟩ := by
  constructor
  · intro hstep
    cases hstep with
    | deliver hinta henter hcode rax stack hrun =>
      rw [inta_eq hidle, Option.map_eq_some_iff] at hinta
      obtain ⟨i, hnext, heq⟩ := hinta
      simp only [Prod.mk.injEq] at heq
      obtain ⟨rfl, rfl, rfl⟩ := heq
      rw [hleads _ hnext] at henter
      obtain rfl := Option.some.inj henter
      obtain rfl := img.code_injective (UInt64.toNat_inj.mp hcode)
      rw [runHandler_eq img.timerticks hidle (lt_of_next hnext), Option.some_inj,
        Cpu.mk.injEq] at hrun
      exact ⟨hnext, rfl, hrun.2.2.symm⟩
  · rintro ⟨hnext, rfl, rfl⟩
    have hinta : s.board.inta = some (line, 0x20 + line, acknowledged s.board line) := by
      rw [inta_eq hidle, hnext]
      rfl
    exact .deliver hinta (hleads _ hnext) rfl 0 []
      (runHandler_eq img.timerticks hidle (lt_of_next hnext) s.mem 0 [])

lemma Live.deliver_iff (hs : Live img m₀ s) {h : Handler} :
    Step img s (.deliver line h) s' ↔
      Arbiter.next order (lines s.board) = some line ∧ h = handlerOf (0x20 + line) ∧
        s' = ⟨if line = 0 then store s.mem img.timerticks (load s.mem img.timerticks + 1) else s.mem,
          served s.board line⟩ :=
  Interrupts.deliver_iff hs.idle fun _ hnext => hs.leads (lt_of_next hnext)

lemma channel_served (b : Board) (line : ℕ) : (served b line).channel = b.channel := by
  unfold served
  split
  · rfl
  · rfl

/-- **One event.** The system stays as it was set up, the lines take a step of their own, and the
timer counts its interrupts. -/
lemma Step.spec (hs : Live img m₀ s) (h : Step img s e s') :
    Live img m₀ s' ∧ (∃ l, Matches e l ∧ Arbiter.Step order (lines s.board) l (lines s'.board)) ∧
      ticks img s' = ticks img s + e.ticks.toUInt64 := by
  cases e with
  | raise line =>
    cases h with
    | raise hline h2 =>
      refine ⟨⟨hs.mem, hs.idle.raise line, hs.timer⟩, ⟨_, .raise line, ?_⟩,
        (UInt64.add_zero _).symm⟩
      rw [lines_raise hline h2]
      exact .raise _ line
  | deliver line h' =>
    obtain ⟨hnext, rfl, rfl⟩ := hs.deliver_iff.mp h
    refine ⟨⟨fun x hx => ?_, hs.idle.served line, ?_⟩, ⟨_, .deliver line, ?_⟩, ?_⟩
    · rw [← hs.mem x hx]
      split
      · exact store_of_notMem hx
      · rfl
    · rw [channel_served, hs.timer]
    · rw [lines_served (lt_of_next hnext)]
      exact .serve hnext
    · unfold ticks
      by_cases h0 : line = 0
      · subst h0
        rw [if_pos rfl, load_store]
        rfl
      · rw [if_neg h0, Event.ticks, if_neg h0]
        exact (UInt64.add_zero _).symm
  | mask on irq =>
    cases h with
    | @mask b _ _ h =>
      have hsame : SameLines s.board b := by
        have hspec : ∀ {f on'}, Sets f on' → changeMask board f irq s.board = some b →
            SameLines s.board b := by
          intro f on' hf h
          obtain ⟨b', hb', hsame, -⟩ := changeMask_spec hf (lt_of_changeMask h) hs.idle.ready
          rw [h] at hb'
          exact Option.some.inj hb' ▸ hsame
        cases on
        · exact hspec sets_and_not h
        · exact hspec sets_or h
      refine ⟨⟨hs.mem, hs.idle.sameLines hsame, ?_⟩, ⟨_, .mask on irq (lines b).enabled, ?_⟩,
        (UInt64.add_zero _).symm⟩
      · rw [hsame.channel, hs.timer]
      rw [lines_sameLines hsame]
      exact .enable _ _

end FlameOS.Interrupts
