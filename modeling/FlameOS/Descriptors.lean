import FlameOS.Records

/-!
The descriptor tables as the processor reads them: segment descriptors of eight bytes, and the
gates of 64-bit mode with sixteen. `enter` is what it does with the tables for an interrupt.
-/

namespace FlameOS.Descriptors

open FlameOS.ByteMem FlameOS.Records

/-- The operand of `lgdt` and `lidt`: the limit is the offset of the last byte. -/
structure TableReg where
  base : ℕ
  limit : ℕ
  deriving DecidableEq

/-! ### Segments -/

structure Segment where
  base : ℕ
  limit : ℕ
  access : ℕ
  flags : ℕ
  deriving DecidableEq

namespace Segment

def ofBytes (l : List UInt8) : Segment where
  base := field 16 24 (value l) + 2 ^ 24 * field 56 8 (value l)
  limit := field 0 16 (value l) + 2 ^ 16 * field 48 4 (value l)
  access := field 40 8 (value l)
  flags := field 52 4 (value l)

variable (s : Segment)

def present : Bool := s.access.testBit 7
def dpl : ℕ := field 5 2 s.access
def isUser : Bool := s.access.testBit 4
def executable : Bool := s.access.testBit 3
def writable : Bool := s.access.testBit 1
def db : Bool := s.flags.testBit 2
def long : Bool := s.flags.testBit 1

def isCode64 : Bool := s.present && s.isUser && s.executable && s.long && !s.db

def isData : Bool := s.present && s.isUser && !s.executable && s.writable

end Segment

/-- The descriptor for a selector: there is none for a null selector, for one of a local table,
and for one behind the limit. -/
def lookup (m : Mem) (gdtr : TableReg) (sel : ℕ) : Option Segment :=
  if sel / 4 = 0 ∨ sel.testBit 2 ∨ gdtr.limit < 8 * (sel / 8) + 7 then none
  else some (.ofBytes (record gdtr.base 8 m (sel / 8)))

/-! ### Gates -/

structure Gate where
  offset : ℕ
  selector : ℕ
  ist : ℕ
  type : ℕ
  dpl : ℕ
  present : Bool
  deriving DecidableEq

def Gate.ofBytes (l : List UInt8) : Gate where
  offset := field 0 16 (value l) + 2 ^ 16 * field 48 16 (value l) + 2 ^ 32 * field 64 32 (value l)
  selector := field 16 16 (value l)
  ist := field 32 3 (value l)
  type := field 40 5 (value l)
  dpl := field 45 2 (value l)
  present := (value l).testBit 47

def INTERRUPT_GATE : ℕ := 0xE
def TRAP_GATE : ℕ := 0xF

/-- Where an interrupt leads to, with the new privilege, and whether it turns interrupts off. -/
structure Entry where
  rip : ℕ
  cs : ℕ
  cpl : ℕ
  masks : Bool
  deriving DecidableEq

/-- Interrupt `v` at privilege `cpl`: by the instruction `int` if `soft`, else by the processor
or a device. Without a task segment there is no stack for a change of privilege. -/
def enter (m : Mem) (gdtr idtr : TableReg) (tss soft : Bool) (cpl v : ℕ) : Option Entry :=
  if idtr.limit < 16 * v + 15 then none
  else
    let g := Gate.ofBytes (record idtr.base 16 m v)
    if soft && decide (g.dpl < cpl) then none
    else if g.type ≠ INTERRUPT_GATE ∧ g.type ≠ TRAP_GATE then none
    else if !g.present then none
    else
      (lookup m gdtr g.selector).bind fun s =>
        if !s.isCode64 || decide (cpl < s.dpl) then none
        else if !tss && decide (s.dpl < cpl) then none
        else some ⟨g.offset, g.selector / 4 * 4 + s.dpl, s.dpl, decide (g.type = INTERRUPT_GATE)⟩

variable {m m' : Mem} {gdtr idtr : TableReg} {tss soft : Bool} {cpl v : ℕ}

lemma lookup_congr {sel : ℕ} (hgdt : ∀ i, 8 * i + 7 ≤ gdtr.limit →
      record gdtr.base 8 m' i = record gdtr.base 8 m i) :
    lookup m' gdtr sel = lookup m gdtr sel := by
  unfold lookup
  by_cases h : sel / 4 = 0 ∨ sel.testBit 2 ∨ gdtr.limit < 8 * (sel / 8) + 7
  · rw [if_pos h, if_pos h]
  · rw [if_neg h, if_neg h, hgdt _ (by omega)]

lemma enter_congr (hidt : 16 * v + 15 ≤ idtr.limit →
      record idtr.base 16 m' v = record idtr.base 16 m v)
    (hgdt : ∀ i, 8 * i + 7 ≤ gdtr.limit → record gdtr.base 8 m' i = record gdtr.base 8 m i) :
    enter m' gdtr idtr tss soft cpl v = enter m gdtr idtr tss soft cpl v := by
  unfold enter
  by_cases h : idtr.limit < 16 * v + 15
  · rw [if_pos h, if_pos h]
  · rw [if_neg h, if_neg h, hidt (by omega)]
    simp only [lookup_congr hgdt]

/-- An interrupt through a gate of ring 0 to code of ring 0: in that ring it leads to the handler,
and in the others only if it does not come from an instruction, and if there is a stack. -/
lemma enter_eq {g : Gate} {s : Segment} (hin : 16 * v + 15 ≤ idtr.limit)
    (hgate : Gate.ofBytes (record idtr.base 16 m v) = g) (hdpl : g.dpl = 0)
    (htype : g.type = INTERRUPT_GATE ∨ g.type = TRAP_GATE) (hpresent : g.present = true)
    (hlookup : lookup m gdtr g.selector = some s) (hcode : s.isCode64 = true) (hring : s.dpl = 0) :
    enter m gdtr idtr tss soft cpl v =
      if cpl = 0 ∨ soft = false ∧ tss = true then
        some ⟨g.offset, g.selector / 4 * 4, 0, decide (g.type = INTERRUPT_GATE)⟩
      else none := by
  have htype' : ¬(g.type ≠ INTERRUPT_GATE ∧ g.type ≠ TRAP_GATE) := by tauto
  unfold enter
  rw [if_neg (Nat.not_lt.mpr hin), hgate]
  rcases Nat.eq_zero_or_pos cpl with rfl | hpos
  · simp [hdpl, htype', hpresent, hlookup, hcode, hring]
  · have hne : cpl ≠ 0 := hpos.ne'
    cases soft
    · cases tss
      · simp [htype', hpresent, hlookup, hcode, hring, hpos, hne]
      · simp [htype', hpresent, hlookup, hcode, hring]
    · simp [hdpl, hpos, hne]

end FlameOS.Descriptors
