import FlameOS.Descriptors
import FlameOS.Gdt
import Mathlib

/-!
The gates of `IDT.c`. `addirq` fills the entry of a vector, which it does not compare with the
size of the table, and `init_idt` fills all of them: every vector gets a handler for all faults
or for all interrupts of its chip first, and those with one of their own get that one after it.
-/

namespace FlameOS.Idt

open FlameOS.ByteMem FlameOS.Records FlameOS.Descriptors FlameOS.Gdt

def INTS : ℕ := 0x30

structure IdtEntry where
  offset1 : UInt16
  selector : UInt16
  ist : UInt8
  type : UInt8
  offset2 : UInt16
  offset3 : UInt32
  resv : UInt32

/-- The structure is packed. -/
def IdtEntry.bytes (e : IdtEntry) : List UInt8 :=
  Records.bytes 2 e.offset1.toNat ++ Records.bytes 2 e.selector.toNat ++ [e.ist, e.type] ++
    Records.bytes 2 e.offset2.toNat ++ Records.bytes 4 e.offset3.toNat ++
    Records.bytes 4 e.resv.toNat

structure Irq where
  entry : UInt8
  offset : UInt64
  type : UInt8

def Irq.idtEntry (c : Irq) : IdtEntry where
  offset1 := (c.offset &&& 0xFFFF).toUInt16
  offset2 := ((c.offset >>> 16) &&& 0xFFFF).toUInt16
  offset3 := ((c.offset >>> 32) &&& 0xFFFFFFFF).toUInt32
  ist := 0
  selector := 8
  type := c.type
  resv := 0

/-- The stores of `addirq` in their order, with their offsets in the entry. -/
def IdtEntry.stores (e : IdtEntry) : List (ℕ × List UInt8) :=
  [(0, Records.bytes 2 e.offset1.toNat), (6, Records.bytes 2 e.offset2.toNat),
    (8, Records.bytes 4 e.offset3.toNat), (4, [e.ist]), (2, Records.bytes 2 e.selector.toNat),
    (5, [e.type]), (12, Records.bytes 4 e.resv.toNat)]

def addirq (IDT : ℕ) (c : Irq) (m : Mem) : Mem :=
  setRecord IDT 16 m c.entry.toNat c.idtEntry.bytes

def addirqs (IDT : ℕ) (cs : List Irq) (m : Mem) : Mem := cs.foldl (fun m c => addirq IDT c m) m

/-! ### The handlers -/

inductive Handler
  | general_fault
  | non_maskable_interrupt
  | div_0_fault
  | debug_fault
  | breakpoint_fault
  | overflow_fault
  | bound_fault
  | inv_opcode_fault
  | no_device_fault
  | double_fault
  | inv_tss_fault
  | no_segment_fault
  | stack_fault
  | gp_fault
  | page_fault
  | nop_master
  | nop_slave
  | pitirq
  deriving DecidableEq

/-- A call of `addirq` for a handler, before the linker has put the handlers somewhere. -/
structure Setup where
  entry : UInt8
  handler : Handler
  type : UInt8
  deriving DecidableEq

def loops : List Setup :=
  (List.range 0x20).map (fun i => ⟨i.toUInt8, .general_fault, 0x8F⟩) ++
    (List.range' 0x20 8).map (fun i => ⟨i.toUInt8, .nop_master, 0x8E⟩) ++
    (List.range' 0x28 8).map (fun i => ⟨i.toUInt8, .nop_slave, 0x8E⟩)

def faults : List Setup :=
  [⟨0x0, .div_0_fault, 0x8F⟩, ⟨0x1, .debug_fault, 0x8F⟩, ⟨0x2, .non_maskable_interrupt, 0x8F⟩,
    ⟨0x3, .breakpoint_fault, 0x8F⟩, ⟨0x4, .overflow_fault, 0x8F⟩, ⟨0x5, .bound_fault, 0x8F⟩,
    ⟨0x6, .inv_opcode_fault, 0x8F⟩, ⟨0x7, .no_device_fault, 0x8F⟩, ⟨0x8, .double_fault, 0x8F⟩,
    ⟨0xA, .inv_tss_fault, 0x8F⟩, ⟨0xB, .no_segment_fault, 0x8F⟩, ⟨0xC, .stack_fault, 0x8F⟩,
    ⟨0xD, .gp_fault, 0x8F⟩, ⟨0xE, .page_fault, 0x8F⟩]

def timer : List Setup := [⟨0x20, .pitirq, 0x8E⟩]

def Setup.irq (code : Handler → UInt64) (c : Setup) : Irq := ⟨c.entry, code c.handler, c.type⟩

def IDTP (IDT : ℕ) : TableReg := ⟨IDT, INTS * 16 - 1⟩

/-! ### The fields of a gate -/

def Irq.gate (c : Irq) : Gate where
  offset := c.offset.toNat
  selector := 8
  ist := 0
  type := c.type.toNat % 32
  dpl := c.type.toNat / 32 % 4
  present := c.type.toNat.testBit 7

lemma length_bytes_idtEntry (e : IdtEntry) : e.bytes.length = 16 := by simp [IdtEntry.bytes]

lemma foldl_stores (e : IdtEntry) (a : ℕ) (m : Mem) :
    e.stores.foldl (fun m f => put m (a + f.1) f.2) m = put m a e.bytes := by
  have hput : ∀ (m : Mem) (i k : ℕ) (l : List UInt8), put m (a + i) l (a + k) =
      if i ≤ k ∧ k < i + l.length then l.getD (k - i) 0 else m (a + k) := by
    intro m i k l
    simp only [put, Nat.add_le_add_iff_left, Nat.add_assoc, Nat.add_lt_add_iff_left,
      Nat.add_sub_add_left]
  have hinside : ∀ k < 16, e.stores.foldl (fun m f => put m (a + f.1) f.2) m (a + k) =
      put m (a + 0) e.bytes (a + k) := by
    intro k hk
    simp only [IdtEntry.stores, List.foldl_cons, List.foldl_nil, hput, length_bytes_idtEntry,
      length_bytes, List.length_cons, List.length_nil]
    interval_cases k <;> rfl
  ext1 x
  by_cases hx : a ≤ x ∧ x < a + 16
  · obtain ⟨k, rfl⟩ := Nat.exists_eq_add_of_le hx.1
    exact hinside k (by omega)
  · rw [put_of_notMem (by rwa [length_bytes_idtEntry])]
    simp only [IdtEntry.stores, List.foldl_cons, List.foldl_nil]
    rw [put_of_notMem, put_of_notMem, put_of_notMem, put_of_notMem, put_of_notMem, put_of_notMem,
      put_of_notMem]
    all_goals
      simp only [length_bytes, List.length_cons, List.length_nil]
      omega

lemma value_bytes_idtEntry (e : IdtEntry) :
    value e.bytes = e.offset1.toNat + 2 ^ 16 * e.selector.toNat + 2 ^ 32 * e.ist.toNat +
      2 ^ 40 * e.type.toNat + 2 ^ 48 * e.offset2.toNat + 2 ^ 64 * e.offset3.toNat +
      2 ^ 96 * e.resv.toNat := by
  have hoffset1 := value_bytes_of_lt (n := 2) e.offset1.toNat_lt
  have hselector := value_bytes_of_lt (n := 2) e.selector.toNat_lt
  have hoffset2 := value_bytes_of_lt (n := 2) e.offset2.toNat_lt
  have hoffset3 := value_bytes_of_lt (n := 4) e.offset3.toNat_lt
  have hresv := value_bytes_of_lt (n := 4) e.resv.toNat_lt
  simp only [IdtEntry.bytes, value_append, length_bytes, List.length_append, List.length_cons,
    List.length_nil, hoffset1, hselector, hoffset2, hoffset3, hresv, value]
  ring

lemma ofBytes_bytes (e : IdtEntry) :
    Gate.ofBytes e.bytes =
      { offset := e.offset1.toNat + 2 ^ 16 * e.offset2.toNat + 2 ^ 32 * e.offset3.toNat
        selector := e.selector.toNat
        ist := e.ist.toNat % 8
        type := e.type.toNat % 32
        dpl := e.type.toNat / 32 % 4
        present := e.type.toNat.testBit 7 } := by
  have hoffset1 := e.offset1.toNat_lt
  have hselector := e.selector.toNat_lt
  have hist := e.ist.toNat_lt
  have htype := e.type.toNat_lt
  have hoffset2 := e.offset2.toNat_lt
  have hoffset3 := e.offset3.toNat_lt
  unfold Gate.ofBytes field
  rw [value_bytes_idtEntry]
  congr 1
  · omega
  · omega
  · omega
  · omega
  · omega
  · rw [Nat.testBit_eq_decide_div_mod_eq, Nat.testBit_eq_decide_div_mod_eq, decide_eq_decide]
    omega

lemma and_long (x : ℕ) : x &&& 0xFFFFFFFF = x % 2 ^ 32 := Nat.and_two_pow_sub_one_eq_mod x 32

/-- **A gate and its way back.** -/
lemma ofBytes_idtEntry (c : Irq) : Gate.ofBytes c.idtEntry.bytes = c.gate := by
  have hlt := c.offset.toNat_lt
  have hoffset1 : c.idtEntry.offset1.toNat = c.offset.toNat % 2 ^ 16 := by
    simp [Irq.idtEntry, and_word]
  have hoffset2 : c.idtEntry.offset2.toNat = c.offset.toNat / 2 ^ 16 % 2 ^ 16 := by
    simp [Irq.idtEntry, Nat.shiftRight_eq_div_pow, and_word]
  have hoffset3 : c.idtEntry.offset3.toNat = c.offset.toNat / 2 ^ 32 % 2 ^ 32 := by
    simp [Irq.idtEntry, Nat.shiftRight_eq_div_pow, and_long]
  rw [ofBytes_bytes, hoffset1, hoffset2, hoffset3]
  unfold Irq.gate
  congr 1
  omega

/-! ### The table -/

variable {IDT GDT : ℕ} {m : Mem}

def stores (cs : List Irq) : List (ℕ × List UInt8) :=
  cs.map fun c => (c.entry.toNat, c.idtEntry.bytes)

lemma length_of_mem_stores {cs : List Irq} : ∀ r ∈ stores cs, r.2.length = 16 := by
  intro r hr
  obtain ⟨c, -, rfl⟩ := List.mem_map.mp hr
  exact length_bytes_idtEntry _

lemma addirqs_eq (cs : List Irq) (m : Mem) : addirqs IDT cs m = setRecords IDT 16 (stores cs) m := by
  unfold addirqs setRecords stores
  rw [List.foldl_map]
  rfl

lemma gate_addirqs (IDT : ℕ) {γ : Type*} (g : γ → Irq) (cs : List γ) (m : Mem) (v : ℕ) :
    Gate.ofBytes (record IDT 16 (addirqs IDT (cs.map g) m) v) =
      (cs.reverse.find? fun c => decide ((g c).entry.toNat = v)).elim
        (Gate.ofBytes (record IDT 16 m v)) fun c => (g c).gate := by
  rw [addirqs_eq, record_setRecords length_of_mem_stores, stores, List.map_map, List.foldl_map]
  have hlast := foldl_update (fun c => (g c).entry.toNat) (fun c => (g c).idtEntry.bytes) cs
    (record IDT 16 m) v
  rcases hfind : cs.reverse.find? fun c => decide ((g c).entry.toNat = v) with _ | c
  · rw [hfind] at hlast
    exact congrArg Gate.ofBytes hlast
  · rw [hfind] at hlast
    exact (congrArg Gate.ofBytes hlast).trans (ofBytes_idtEntry (g c))

lemma addirqs_inside_iff (cs : List Irq) :
    (∀ (m : Mem) (x : ℕ), ¬(IDT ≤ x ∧ x < IDT + 16 * INTS) → addirqs IDT cs m x = m x) ↔
      ∀ c ∈ cs, c.entry.toNat < INTS := by
  simp only [addirqs_eq]
  rw [setRecords_inside_iff length_of_mem_stores (by decide) INTS]
  simp only [stores, List.forall_mem_map]

/-- **The table of gates.** After any calls of `addirq`, the processor finds for each vector what
the last call for it asks for, or what was there before. The calls store nothing outside the table,
whatever the memory holds, exactly if they are for vectors that it has. -/
theorem addirqs_table (IDT : ℕ) (cs : List Irq) :
    (∀ (m : Mem) (v : ℕ), Gate.ofBytes (record IDT 16 (addirqs IDT cs m) v) =
        (cs.reverse.find? fun c => decide (c.entry.toNat = v)).elim
          (Gate.ofBytes (record IDT 16 m v)) Irq.gate) ∧
      ((∀ (m : Mem) (x : ℕ), ¬(IDT ≤ x ∧ x < IDT + 16 * INTS) → addirqs IDT cs m x = m x) ↔
        ∀ c ∈ cs, c.entry.toNat < INTS) := by
  refine ⟨fun m v => ?_, addirqs_inside_iff cs⟩
  have h := gate_addirqs IDT id cs m v
  rwa [List.map_id] at h

/-! ### The vectors -/

/-- What the vectors are for, once the timer is set up. -/
def handlerOf (v : ℕ) : Handler :=
  match v with
  | 0x0 => .div_0_fault
  | 0x1 => .debug_fault
  | 0x2 => .non_maskable_interrupt
  | 0x3 => .breakpoint_fault
  | 0x4 => .overflow_fault
  | 0x5 => .bound_fault
  | 0x6 => .inv_opcode_fault
  | 0x7 => .no_device_fault
  | 0x8 => .double_fault
  | 0xA => .inv_tss_fault
  | 0xB => .no_segment_fault
  | 0xC => .stack_fault
  | 0xD => .gp_fault
  | 0xE => .page_fault
  | 0x20 => .pitirq
  | _ => if v < 0x20 then .general_fault else if v < 0x28 then .nop_master else .nop_slave

def tables (GDT IDT : ℕ) (code : Handler → UInt64) (m : Mem) : Mem :=
  addirqs IDT ((loops ++ faults ++ timer).map (Setup.irq code)) (initGdt GDT ⟨m, 0⟩).mem

lemma find?_setups : ∀ v < INTS, (loops ++ faults ++ timer).reverse.find?
    (fun c => decide (c.entry.toNat = v)) =
      some ⟨v.toUInt8, handlerOf v, if v < 0x20 then 0x8F else 0x8E⟩ := by decide

def gateOf (code : Handler → UInt64) (v : ℕ) : Gate where
  offset := (code (handlerOf v)).toNat
  selector := KERNEL_CODE
  ist := 0
  type := if v < 0x20 then TRAP_GATE else INTERRUPT_GATE
  dpl := 0
  present := true

lemma gate_tables (code : Handler → UInt64) {v : ℕ} (hv : v < INTS) :
    Gate.ofBytes (record IDT 16 (tables GDT IDT code m) v) = gateOf code v := by
  have hfind : (loops ++ faults ++ timer).reverse.find?
      (fun c => decide ((Setup.irq code c).entry.toNat = v)) = _ := find?_setups v hv
  have hgate : ∀ type : UInt8, (Setup.irq code ⟨v.toUInt8, handlerOf v, type⟩).gate =
      ⟨(code (handlerOf v)).toNat, 8, 0, type.toNat % 32, type.toNat / 32 % 4,
        type.toNat.testBit 7⟩ := fun _ => rfl
  rw [tables, gate_addirqs, hfind, Option.elim_some, hgate, gateOf]
  by_cases h : v < 0x20
  · simp [h, KERNEL_CODE, TRAP_GATE]
    decide
  · simp [h, KERNEL_CODE, INTERRUPT_GATE]
    decide

lemma addirqs_setups (code : Handler → UInt64) {x : ℕ} (hx : ¬(IDT ≤ x ∧ x < IDT + 16 * INTS)) :
    tables GDT IDT code m x = (initGdt GDT ⟨m, 0⟩).mem x := by
  have hall : ∀ c ∈ loops ++ faults ++ timer, c.entry.toNat < INTS := by decide
  refine (addirqs_inside_iff _).mpr (fun c hc => ?_) _ x hx
  obtain ⟨d, hd, rfl⟩ := List.mem_map.mp hc
  exact hall d hd

lemma tables_of_notMem (code : Handler → UInt64) {x : ℕ}
    (hgdt : ¬(GDT ≤ x ∧ x < GDT + 8 * ENTRIES)) (hidt : ¬(IDT ≤ x ∧ x < IDT + 16 * INTS)) :
    tables GDT IDT code m x = m x := by
  rw [addirqs_setups code hidt, initGdt]
  exact gdtadds_of_notMem m (by decide) hgdt

lemma lookup_tables (hapart : GDT + 8 * ENTRIES ≤ IDT ∨ IDT + 16 * INTS ≤ GDT)
    (code : Handler → UInt64) {i rpl : ℕ} (h0 : 0 < i) (hi : i < 6) (hrpl : rpl < 4) :
    lookup (tables GDT IDT code m) (GDTP GDT) (8 * i + rpl) = some sections[i].segment := by
  rw [← lookup_initGdt GDT m h0 hi hrpl]
  refine lookup_congr fun k hk => record_congr fun j hj => addirqs_setups code ?_
  have hlimit : 8 * k + 7 ≤ 63 := hk
  have hbase : (GDTP GDT).base = GDT := rfl
  unfold ENTRIES at hapart
  omega

/-- Every vector of the table leads to its handler, in ring 0. -/
lemma enter_tables (hapart : GDT + 8 * ENTRIES ≤ IDT ∨ IDT + 16 * INTS ≤ GDT)
    (code : Handler → UInt64) (tss soft : Bool) (cpl v : ℕ) :
    enter (tables GDT IDT code m) (GDTP GDT) (IDTP IDT) tss soft cpl v =
      if v < INTS ∧ (cpl = 0 ∨ soft = false ∧ tss = true) then
        some ⟨(code (handlerOf v)).toNat, KERNEL_CODE, 0, decide (0x20 ≤ v)⟩
      else none := by
  have hlimit : (IDTP IDT).limit = 16 * INTS - 1 := rfl
  by_cases hv : v < INTS
  · have hcode : lookup (tables GDT IDT code m) (GDTP GDT) (gateOf code v).selector =
        some sections[1].segment :=
      lookup_tables hapart code (i := 1) one_pos (by decide) four_pos
    have htype : (gateOf code v).type = INTERRUPT_GATE ∨ (gateOf code v).type = TRAP_GATE := by
      unfold gateOf
      split
      · exact Or.inr rfl
      · exact Or.inl rfl
    have hmasks : decide ((gateOf code v).type = INTERRUPT_GATE) = decide (0x20 ≤ v) := by
      unfold gateOf
      rw [decide_eq_decide]
      split
      · have hne : TRAP_GATE ≠ INTERRUPT_GATE := by decide
        exact iff_of_false hne (by omega)
      · exact iff_of_true rfl (by omega)
    have hgate : Gate.ofBytes (record (IDTP IDT).base 16 (tables GDT IDT code m) v) =
      gateOf code v := gate_tables code hv
    rw [enter_eq (by rw [hlimit]; omega) hgate rfl htype rfl hcode (by decide) (by decide), hmasks]
    have hcs : (gateOf code v).selector / 4 * 4 = KERNEL_CODE :=
      show KERNEL_CODE / 4 * 4 = KERNEL_CODE by decide
    rw [hcs]
    simp only [hv, true_and]
    rfl
  · have hout : (IDTP IDT).limit < 16 * v + 15 := by
      unfold INTS at hv hlimit
      omega
    rw [enter, if_pos hout, if_neg fun h => hv h.1]

/-- **The vectors of the kernel.** Behind `init_gdt`, `init_idt` and `init_timer`, whatever was in
the memory before and wherever the handlers are, the selectors that `flushregs` loads are those of
64-bit code and of data in ring 0, and every vector up to `INTS` leads to its handler in that
ring, with interrupts off for the devices and left as they are for faults. The other vectors lead
nowhere, nor does any `int` outside ring 0, nor any interrupt there while there is no stack. -/
theorem vectors (hapart : GDT + 8 * ENTRIES ≤ IDT ∨ IDT + 16 * INTS ≤ GDT)
    (code : Handler → UInt64) (m : Mem) :
    (∃ s, lookup (tables GDT IDT code m) (GDTP GDT) KERNEL_CODE = some s ∧ s.isCode64 = true ∧
        s.dpl = 0) ∧
      (∃ s, lookup (tables GDT IDT code m) (GDTP GDT) KERNEL_DATA = some s ∧ s.isData = true ∧
        s.dpl = 0) ∧
      ∀ (tss soft : Bool) (cpl v : ℕ),
        enter (tables GDT IDT code m) (GDTP GDT) (IDTP IDT) tss soft cpl v =
          if v < INTS ∧ (cpl = 0 ∨ soft = false ∧ tss = true) then
            some ⟨(code (handlerOf v)).toNat, KERNEL_CODE, 0, decide (0x20 ≤ v)⟩
          else none := by
  refine ⟨⟨sections[1].segment, ?_, by decide, by decide⟩,
    ⟨sections[2].segment, ?_, by decide, by decide⟩, fun tss soft cpl v => ?_⟩
  · exact lookup_tables hapart code (i := 1) one_pos (by decide) four_pos
  · exact lookup_tables hapart code (i := 2) two_pos (by decide) four_pos
  · exact enter_tables hapart code tss soft cpl v

def address (h : Handler) : UInt64 := (0x100000 + 16 * h.ctorIdx).toUInt64

theorem vectors_address :
    (∃ s, lookup (tables 0x1000 0x2000 address fun _ => 0) (GDTP 0x1000) KERNEL_CODE = some s ∧
        s.isCode64 = true ∧ s.dpl = 0) ∧
      (∃ s, lookup (tables 0x1000 0x2000 address fun _ => 0) (GDTP 0x1000) KERNEL_DATA = some s ∧
        s.isData = true ∧ s.dpl = 0) ∧
      ∀ (tss soft : Bool) (cpl v : ℕ),
        enter (tables 0x1000 0x2000 address fun _ => 0) (GDTP 0x1000) (IDTP 0x2000) tss soft cpl v =
          if v < INTS ∧ (cpl = 0 ∨ soft = false ∧ tss = true) then
            some ⟨(address (handlerOf v)).toNat, KERNEL_CODE, 0, decide (0x20 ≤ v)⟩
          else none :=
  vectors (Or.inl (by decide)) address fun _ => 0

end FlameOS.Idt
