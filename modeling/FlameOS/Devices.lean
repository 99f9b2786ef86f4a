import FlameOS.PIO
import Mathlib

/-!
The devices behind the ports of `PIC.c` and `PIT.c`: two interrupt controllers, of which the
second one is wired to line 2 of the first one, and a timer with three channels.

A controller takes the words that set it up in their order after the first one, which can come
at any time. It latches the requests of its lines and has the processor acknowledge them one at a
time, the lowest line first, and none that is not above all those in service.
-/

namespace FlameOS.Devices

open FlameOS.PIO

/-! ### The interrupt controller -/

inductive Phase
  | ready
  | icw2
  | icw3
  | icw4
  deriving DecidableEq, Inhabited

structure Chip where
  phase : Phase
  single : Bool
  needs4 : Bool
  offset : UInt8
  icw3 : UInt8
  icw4 : UInt8
  imr : UInt8
  irr : ℕ → Bool
  isr : ℕ → Bool
  deriving Inhabited

/-- The line that comes first, of eight. -/
def highest (s : ℕ → Bool) : Option ℕ := (List.range 8).find? s

namespace Chip

variable (c : Chip)

/-- The end of an interrupt: the highest line in service, or a given one. -/
def eoi : Option ℕ → Chip
  | none => c
  | some i => { c with isr := Function.update c.isr i false }

/-- A byte at the command port. Of the operation words, those that rotate the priorities and
those that choose what is read are not told apart. -/
def command (v : UInt8) : Chip :=
  if v &&& 0x10 ≠ 0 then
    { c with
      phase := .icw2
      single := v &&& 0x02 ≠ 0
      needs4 := v &&& 0x01 ≠ 0
      icw4 := if v &&& 0x01 ≠ 0 then c.icw4 else 0
      imr := 0
      irr := fun _ => false }
  else if v &&& 0x08 ≠ 0 then c
  else if v >>> 5 = 1 then c.eoi (highest c.isr)
  else if v >>> 5 = 3 then c.eoi (some (v &&& 7).toNat)
  else c

/-- A byte at the data port. -/
def data (v : UInt8) : Chip :=
  match c.phase with
  | .ready => { c with imr := v }
  | .icw2 =>
    { c with
      offset := v &&& 0xF8
      phase := if c.single then (if c.needs4 then .icw4 else .ready) else .icw3 }
  | .icw3 => { c with icw3 := v, phase := if c.needs4 then .icw4 else .ready }
  | .icw4 => { c with icw4 := v, phase := .ready }

lemma data_of_ready {c : Chip} (h : c.phase = .ready) (v : UInt8) : c.data v = { c with imr := v } := by
  simp [data, h]

def masked (i : ℕ) : Bool := c.imr.toNat.testBit i

/-- The requests that are not masked, or not held back by a line in service. -/
def request (irr : ℕ → Bool) : Option ℕ :=
  if c.phase = .ready then
    (highest fun i => irr i && !c.masked i).filter fun i =>
      (List.range (i + 1)).all fun j => !c.isr j
  else none

/-- The processor acknowledges a request, which ends with it in the automatic mode. -/
def acknowledge (i : ℕ) : Chip :=
  { c with
    irr := Function.update c.irr i false
    isr := if c.icw4 &&& 0x02 ≠ 0 then c.isr else Function.update c.isr i true }

end Chip

/-! ### The timer -/

structure Channel where
  access : UInt8
  mode : UInt8
  bcd : Bool
  /-- The low byte is there already, and the other one comes next. -/
  half : Option UInt8
  reload : UInt16
  deriving Inhabited

namespace Channel

variable (c : Channel)

/-- The control word for a channel; the access 0 only latches the count. -/
def control (v : UInt8) : Channel :=
  if (v >>> 4) &&& 3 = 0 then c
  else
    { c with
      access := (v >>> 4) &&& 3
      mode := (v >>> 1) &&& 7
      bcd := v &&& 1 ≠ 0
      half := none }

/-- A byte of the count. -/
def data (v : UInt8) : Channel :=
  if c.access = 1 then { c with reload := v.toUInt16 }
  else if c.access = 2 then { c with reload := v.toUInt16 <<< 8 }
  else
    match c.half with
    | none => { c with half := some v }
    | some lo => { c with reload := lo.toUInt16 ||| v.toUInt16 <<< 8, half := none }

end Channel

/-! ### The ports -/

/-- The controllers, of which `true` is the slave, and the channels of the timer. -/
@[ext]
structure Board where
  chip : Bool → Chip
  channel : ℕ → Channel
  deriving Inhabited

inductive Port
  | command (slave : Bool)
  | data (slave : Bool)
  | count (channel : ℕ)
  | control
  | other
  deriving DecidableEq

def decode (port : ℕ) : Port :=
  if port = 0x20 then .command false
  else if port = 0x21 then .data false
  else if port = 0xA0 then .command true
  else if port = 0xA1 then .data true
  else if port = 0x40 then .count 0
  else if port = 0x41 then .count 1
  else if port = 0x42 then .count 2
  else if port = 0x43 then .control
  else .other

namespace Board

variable (b : Board)

def setChip (slave : Bool) (c : Chip) : Board :=
  { b with chip := Function.update b.chip slave c }

def setChannel (k : ℕ) (c : Channel) : Board :=
  { b with channel := Function.update b.channel k c }

@[simp] lemma chip_setChip_self (slave : Bool) (c : Chip) :
    (b.setChip slave c).chip slave = c := Function.update_self ..

@[simp] lemma chip_setChip_of_ne {slave slave' : Bool} (h : slave' ≠ slave) (c : Chip) :
    (b.setChip slave c).chip slave' = b.chip slave' := Function.update_of_ne h ..

@[simp] lemma setChip_setChip (slave : Bool) (c c' : Chip) :
    (b.setChip slave c).setChip slave c' = b.setChip slave c' := by
  simp [setChip]

@[simp] lemma channel_setChip (slave : Bool) (c : Chip) :
    (b.setChip slave c).channel = b.channel := rfl

@[simp] lemma chip_setChannel (k : ℕ) (c : Channel) : (b.setChannel k c).chip = b.chip := rfl

@[simp] lemma channel_setChannel_self (k : ℕ) (c : Channel) :
    (b.setChannel k c).channel k = c := Function.update_self ..

@[simp] lemma setChannel_setChannel (k : ℕ) (c c' : Channel) :
    (b.setChannel k c).setChannel k c' = b.setChannel k c' := by
  simp [setChannel]

/-- A control word goes to the channel in its upper bits; 3 stands for none. -/
def control (v : UInt8) : Board :=
  if v >>> 6 = 3 then b
  else b.setChannel (v >>> 6).toNat ((b.channel (v >>> 6).toNat).control v)

def write (port : ℕ) (v : UInt8) : Board :=
  match decode port with
  | .command slave => b.setChip slave ((b.chip slave).command v)
  | .data slave => b.setChip slave ((b.chip slave).data v)
  | .count k => b.setChannel k ((b.channel k).data v)
  | .control => b.control v
  | .other => b

/-- Of the registers, only the masks are read. -/
def read (port : ℕ) : UInt8 :=
  match decode port with
  | .data slave => (b.chip slave).imr
  | _ => 0

end Board

def board : PortIO Board where
  inb port b := (b.read port, b)
  outb port v b := b.write port v
  inw _ b := (0, b)

/-! ### Lines -/

namespace Board

variable (b : Board)

/-- A line of the board: those of the slave come behind those of the master. -/
def masked (line : ℕ) : Bool := (b.chip (decide (8 ≤ line))).masked (line % 8)

def requested (line : ℕ) : Bool := (b.chip (decide (8 ≤ line))).irr (line % 8)

def inService (line : ℕ) : Bool := (b.chip (decide (8 ≤ line))).isr (line % 8)

/-- A device asks for an interrupt. Line 2 is taken by the slave. -/
def raise (line : ℕ) : Board :=
  let slave := decide (8 ≤ line)
  b.setChip slave { b.chip slave with irr := Function.update (b.chip slave).irr (line % 8) true }

def slaveRequest : Option ℕ := (b.chip true).request (b.chip true).irr

def masterRequest : Option ℕ :=
  (b.chip false).request (Function.update (b.chip false).irr 2 b.slaveRequest.isSome)

/-- The processor acknowledges an interrupt: the line, the vector, and the board. -/
def inta : Option (ℕ × ℕ × Board) :=
  b.masterRequest.bind fun i =>
    if i = 2 then
      b.slaveRequest.map fun j =>
        (8 + j, (b.chip true).offset.toNat + j,
          (b.setChip false ((b.chip false).acknowledge 2)).setChip true
            ((b.chip true).acknowledge j))
    else
      some (i, (b.chip false).offset.toNat + i, b.setChip false ((b.chip false).acknowledge i))

end Board

end FlameOS.Devices
