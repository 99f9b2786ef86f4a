import Mathlib

/-!
The disk driver `PIO.c`, over any device behind the I/O ports, and an ATA device to run it
on: two channels with two drives each.

A drive takes and gives 16-bit words at the data port. `outb` there puts one byte on the
bus, and the drive takes the word with that byte and zeros above it.
-/

namespace FlameOS.PIO

def PRIMARY : ℕ := 0x1F0
def SECOND : ℕ := 0x170

def DAT : ℕ := 0
def SEC : ℕ := 2
def LBALO : ℕ := 3
def LBAMID : ℕ := 4
def LBAHI : ℕ := 5
def DHR : ℕ := 6
def STS : ℕ := 7
def CMD : ℕ := 7

def DRQ : UInt8 := 0x08
def RDY : UInt8 := 0x40
def BSY : UInt8 := 0x80

def READ : UInt8 := 0x24
def WRITE : UInt8 := 0x34

/-! ### The driver -/

/-- What is behind the ports: the instructions of `IO.c` that the driver uses. -/
structure PortIO (σ : Type) where
  inb : ℕ → σ → UInt8 × σ
  outb : ℕ → UInt8 → σ → σ
  inw : ℕ → σ → UInt16 × σ

section driver

variable {σ : Type} (io : PortIO σ)

def poll (port : ℕ) (status : UInt8) : ℕ → σ → Option σ
  | 0, _ => none
  | fuel + 1, s =>
    if (io.inb (port + STS) s).1 &&& status ≠ 0 then poll port status fuel (io.inb (port + STS) s).2
    else some (io.inb (port + STS) s).2

def antipoll (port : ℕ) (status : UInt8) : ℕ → σ → Option σ
  | 0, _ => none
  | fuel + 1, s =>
    if (io.inb (port + STS) s).1 &&& status = 0 then
      antipoll port status fuel (io.inb (port + STS) s).2
    else some (io.inb (port + STS) s).2

def statusReads : ℕ → σ → σ
  | 0, s => s
  | i + 1, s => statusReads i (io.inb (PRIMARY + STS) s).2

def smalldelay (s : σ) : σ := statusReads io 15 s

def portOf (disk : UInt32) : ℕ := if disk ≥ 2 then SECOND else PRIMARY

def outcmdOf (disk : UInt32) : UInt8 := if disk % 2 ≠ 0 then 0x50 else 0x40

/-- Both functions up to their loop, which differ in the command. -/
def sendCommand (cmd : UInt8) (fuel : ℕ) (LBA : UInt64) (count : UInt16) (disk : UInt32) (s : σ) :
    Option σ :=
  let port := portOf disk
  (poll io port BSY fuel s).map fun s =>
    let s := io.outb (port + DHR) (outcmdOf disk) s
    let s := io.outb (port + SEC) (count >>> 8).toUInt8 s
    let s := io.outb (port + LBALO) (LBA >>> 24).toUInt8 s
    let s := io.outb (port + LBAMID) (LBA >>> 32).toUInt8 s
    let s := io.outb (port + LBAHI) (LBA >>> 40).toUInt8 s
    let s := io.outb (port + SEC) count.toUInt8 s
    let s := io.outb (port + LBALO) LBA.toUInt8 s
    let s := io.outb (port + LBAMID) (LBA >>> 8).toUInt8 s
    let s := io.outb (port + LBAHI) (LBA >>> 16).toUInt8 s
    io.outb (port + CMD) cmd s

/-- What both loops do before the words of a sector. -/
def waitSector (port fuel : ℕ) (s : σ) : Option σ :=
  (poll io port BSY fuel (smalldelay io s)).bind (antipoll io port DRQ fuel)

def readWords (port : ℕ) : ℕ → ℕ → σ × (ℕ → UInt16) → σ × (ℕ → UInt16)
  | 0, _, r => r
  | n + 1, k, r =>
    readWords port n (k + 1)
      ((io.inw (port + DAT) r.1).2, Function.update r.2 k (io.inw (port + DAT) r.1).1)

def readSectors (port fuel : ℕ) : ℕ → ℕ → σ × (ℕ → UInt16) → Option (σ × (ℕ → UInt16))
  | 0, _, r => some r
  | i + 1, k, r =>
    (waitSector io port fuel r.1).bind fun s =>
      readSectors port fuel i (k + 256) (readWords io port 256 k (s, r.2))

def readsectorpio (fuel : ℕ) (LBA : UInt64) (count : UInt16) (buffer : ℕ → UInt16) (disk : UInt32)
    (s : σ) : Option (σ × (ℕ → UInt16)) :=
  (sendCommand io READ fuel LBA count disk s).bind fun s =>
    readSectors io (portOf disk) fuel count.toNat 0 (s, buffer)

/-- The inner loop of `writesectorpio`: `outb` takes the low byte of the word. -/
def writeWords (port : ℕ) (buf : ℕ → UInt16) : ℕ → ℕ → σ → σ
  | 0, _, s => s
  | n + 1, k, s => writeWords port buf n (k + 1) (io.outb (port + DAT) (buf k).toUInt8 s)

def writeSectors (port fuel : ℕ) (buf : ℕ → UInt16) : ℕ → ℕ → σ → Option σ
  | 0, _, s => some s
  | i + 1, k, s =>
    (waitSector io port fuel s).bind fun s =>
      writeSectors port fuel buf i (k + 256) (writeWords io port buf 256 k s)

def writesectorpio (fuel : ℕ) (LBA : UInt64) (count : UInt16) (buffer : ℕ → UInt16) (disk : UInt32)
    (s : σ) : Option σ :=
  (sendCommand io WRITE fuel LBA count disk s).bind
    (writeSectors io (portOf disk) fuel buffer count.toNat 0)

end driver

/-! ### The device -/

/-- A command in progress: the words still to come, and where the next one lies on the drive. -/
structure Transfer where
  write : Bool
  pos : ℕ
  left : ℕ
  deriving DecidableEq

/-- A channel: its registers, the last two bytes each of the count and the address has got, the
status reads for which it stays busy, and its drives. Once a command or a sector is taken,
it is busy for as long as `delay` says for the place. -/
structure Channel where
  sec : UInt8 × UInt8
  lbalo : UInt8 × UInt8
  lbamid : UInt8 × UInt8
  lbahi : UInt8 × UInt8
  dhr : UInt8
  transfer : Option Transfer
  busy : ℕ
  delay : ℕ → ℕ
  drive : Bool → ℕ → UInt16

namespace Channel

variable (c : Channel)

def status : UInt8 :=
  if c.busy > 0 then BSY else if c.transfer.isSome then RDY ||| DRQ else RDY

def readStatus : UInt8 × Channel := (c.status, { c with busy := c.busy - 1 })

/-- The drive that the commands are for. -/
def slave : Bool := (c.dhr &&& 0x10) ≠ 0

/-- The address in the registers: the first byte of each pair is the earlier one. -/
def lba : ℕ :=
  c.lbalo.2.toNat + c.lbamid.2.toNat * 2 ^ 8 + c.lbahi.2.toNat * 2 ^ 16 +
    c.lbalo.1.toNat * 2 ^ 24 + c.lbamid.1.toNat * 2 ^ 32 + c.lbahi.1.toNat * 2 ^ 40

/-- The count in the registers, where 0 stands for 65536 sectors. -/
def sectors : ℕ :=
  if c.sec.2.toNat + c.sec.1.toNat * 2 ^ 8 = 0 then 65536
  else c.sec.2.toNat + c.sec.1.toNat * 2 ^ 8

def command (cmd : UInt8) : Channel :=
  if cmd = READ ∨ cmd = WRITE then
    { c with
      transfer := some ⟨cmd = WRITE, c.lba * 256, c.sectors * 256⟩
      busy := c.delay (c.lba * 256) }
  else c

/-- The transfer goes on to the next word. -/
def advance (t : Transfer) : Channel :=
  { c with
    transfer := if t.left ≤ 1 then none else some ⟨t.write, t.pos + 1, t.left - 1⟩
    busy := if (t.left - 1) % 256 = 0 then c.delay (t.pos + 1) else 0 }

def store (pos : ℕ) (w : UInt16) : Channel :=
  { c with drive := Function.update c.drive c.slave (Function.update (c.drive c.slave) pos w) }

def putWord (w : UInt16) : Channel :=
  match c.transfer with
  | some t => if t.write then (c.store t.pos w).advance t else c
  | none => c

def getWord : UInt16 × Channel :=
  match c.transfer with
  | some t => if t.write ∨ c.busy > 0 then (0, c) else (c.drive c.slave t.pos, c.advance t)
  | none => (0, c)

/-- A byte for one of the registers. A busy channel takes none. -/
def writeReg (r : ℕ) (v : UInt8) : Channel :=
  if c.busy > 0 then c
  else if r = DAT then c.putWord v.toUInt16
  else if r = SEC then { c with sec := (c.sec.2, v) }
  else if r = LBALO then { c with lbalo := (c.lbalo.2, v) }
  else if r = LBAMID then { c with lbamid := (c.lbamid.2, v) }
  else if r = LBAHI then { c with lbahi := (c.lbahi.2, v) }
  else if r = DHR then { c with dhr := v }
  else if r = CMD then c.command v
  else c

end Channel

/-- The channel and the register behind a port. -/
def decode (port : ℕ) : Option (Bool × ℕ) :=
  if PRIMARY ≤ port ∧ port < PRIMARY + 8 then some (false, port - PRIMARY)
  else if SECOND ≤ port ∧ port < SECOND + 8 then some (true, port - SECOND)
  else none

/-- The two channels behind their ports. Of the registers, only the status is read. -/
def ata : PortIO (Bool → Channel) where
  inb port s :=
    match decode port with
    | some (ch, r) =>
      if r = STS then ((s ch).readStatus.1, Function.update s ch (s ch).readStatus.2) else (0, s)
    | none => (0, s)
  outb port v s :=
    match decode port with
    | some (ch, r) => Function.update s ch ((s ch).writeReg r v)
    | none => s
  inw port s :=
    match decode port with
    | some (ch, r) =>
      if r = DAT then ((s ch).getWord.1, Function.update s ch (s ch).getWord.2) else (0, s)
    | none => (0, s)

end FlameOS.PIO
