import FlameOS.Pic
import FlameOS.Idt
import Mathlib

/-!
The timer: `PIT.c`, and its interrupt handler in `PIT.S`.

In the syntax of that file a semicolon ends a statement, so the lines that begin with one are part
of the handler. It adds one to `timerticks`, acknowledges the interrupt, and gives back what it has
taken of the registers.
-/

namespace FlameOS.Timer

open FlameOS.PIO FlameOS.ByteMem FlameOS.Records FlameOS.Devices FlameOS.Pic FlameOS.Idt

def CHAN0 : ℕ := 0x40
def CMD : ℕ := 0x43
def HZ : ℕ := 1000

structure Sys where
  mem : Mem
  board : Board

def div : UInt32 := (1193180 / HZ : ℕ).toUInt32

def program {σ : Type} (io : PortIO σ) (s : σ) : σ :=
  let s := io.outb CMD 0x36 s
  let s := io.outb CHAN0 (div &&& 0xFF).toUInt8 s
  io.outb CHAN0 (div >>> 8).toUInt8 s

def initTimer (IDT : ℕ) (code : Handler → UInt64) (s : Sys) : Option Sys :=
  (unmaskirq board 0 (program board s.board)).map fun b =>
    ⟨addirqs IDT (timer.map (Setup.irq code)) s.mem, b⟩

/-! ### The handler -/

/-- The registers that the handler uses, and what it can get at. -/
structure Cpu where
  rax : UInt64
  stack : List UInt64
  sys : Sys

inductive Instr
  | pushRax
  | loadRax (addr : ℕ)
  | incRax
  | storeRax (addr : ℕ)
  | movAl (v : UInt8)
  | outAl (port : ℕ)
  | popRax
  | iretq
  deriving DecidableEq

def load (m : Mem) (addr : ℕ) : UInt64 := (value (record addr 8 m 0)).toUInt64

def store (m : Mem) (addr : ℕ) (v : UInt64) : Mem := setRecord addr 8 m 0 (bytes 8 v.toNat)

def exec : Instr → Cpu → Cpu
  | .pushRax, c => { c with stack := c.rax :: c.stack }
  | .loadRax addr, c => { c with rax := load c.sys.mem addr }
  | .incRax, c => { c with rax := c.rax + 1 }
  | .storeRax addr, c => { c with sys := { c.sys with mem := store c.sys.mem addr c.rax } }
  | .movAl v, c => { c with rax := (c.rax >>> 8) <<< 8 ||| v.toUInt64 }
  | .outAl port, c =>
    { c with sys := { c.sys with board := board.outb port c.rax.toUInt8 c.sys.board } }
  | .popRax, c => { c with rax := c.stack.headD 0, stack := c.stack.tail }
  | .iretq, c => c

/-- A handler ends with `iretq`. -/
def runInstrs : List Instr → Cpu → Option Cpu
  | [], _ => none
  | .iretq :: _, c => some c
  | i :: is, c => runInstrs is (exec i c)

def pitirq (timerticks : ℕ) : List Instr :=
  [.pushRax, .loadRax timerticks, .incRax, .storeRax timerticks, .movAl 32, .outAl 32, .popRax,
    .iretq]

/-- What a handler does, if it returns. Those for the faults print a message and halt. -/
def runHandler (timerticks : ℕ) : Handler → Cpu → Option Cpu
  | .nop_master, c => some { c with sys := { c.sys with board := piceoi board false c.sys.board } }
  | .nop_slave, c => some { c with sys := { c.sys with board := piceoi board true c.sys.board } }
  | .pitirq, c => runInstrs (pitirq timerticks) c
  | _, _ => none

/-! ### What they do -/

variable {m : Mem} {addr : ℕ} {v : UInt64} {c : Cpu}

lemma load_store (m : Mem) (addr : ℕ) (v : UInt64) : load (store m addr v) addr = v := by
  unfold load store
  rw [record_setRecord (length_bytes 8 v.toNat), Function.update_self,
    value_bytes_of_lt v.toNat_lt]
  simp

lemma store_of_notMem {x : ℕ} (h : ¬(addr ≤ x ∧ x < addr + 8)) : store m addr v x = m x := by
  apply setRecord_of_notMem
  rw [length_bytes]
  simpa using h

/-- The low byte of a register that a byte has been moved to. -/
lemma toUInt8_movAl (r : UInt64) (v : UInt8) : ((r >>> 8) <<< 8 ||| v.toUInt64).toUInt8 = v := by
  have hv := v.toNat_lt
  have hhigh : ((r >>> 8) <<< 8).toNat % 2 ^ 8 = 0 := by
    rw [UInt64.toNat_shiftLeft, Nat.shiftLeft_eq]
    simp
  apply UInt8.toNat_inj.mp
  rw [UInt64.toNat_toUInt8, UInt64.toNat_or, Nat.or_mod_two_pow, hhigh, Nat.zero_or,
    UInt8.toNat_toUInt64, Nat.mod_eq_of_lt hv]

lemma runHandler_pitirq (timerticks : ℕ) (c : Cpu) :
    runHandler timerticks .pitirq c =
      some { c with sys :=
        { mem := store c.sys.mem timerticks (load c.sys.mem timerticks + 1)
          board := piceoi board false c.sys.board } } := by
  simp only [runHandler, pitirq, runInstrs, exec, toUInt8_movAl, List.headD_cons, List.tail_cons]
  rfl

lemma outb_cmd (b : Board) :
    board.outb CMD 0x36 b = b.setChannel 0 ((b.channel 0).control 0x36) := rfl

lemma outb_chan0 (v : UInt8) (b : Board) :
    board.outb CHAN0 v b = b.setChannel 0 ((b.channel 0).data v) := rfl

/-- Channel 0 is set up from whatever it has been doing: both bytes of the count, mode 3. -/
lemma program_eq (b : Board) :
    program board b =
      b.setChannel 0
        { access := 3, mode := 3, bcd := false, half := none, reload := 1193 } := by
  simp only [program, outb_cmd, outb_chan0, Board.channel_setChannel_self,
    Board.setChannel_setChannel]
  rfl

end FlameOS.Timer
