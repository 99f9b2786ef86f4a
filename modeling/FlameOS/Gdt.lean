import FlameOS.Descriptors
import Mathlib

/-!
The segment descriptors of `GDT.c`, as bytes in the memory of the kernel.

`gdtadd` goes on to the next entry with each call, without a look at the size of the table. What the
processor reads back is the descriptor of the call for the entry, with the base as it was given and
the size in pages, rounded down. The counter of the calls lies in the memory behind the table, so it
is a variable of its own only as long as the table is not full.
-/

namespace FlameOS.Gdt

open FlameOS.ByteMem FlameOS.Records FlameOS.Descriptors

def ENTRIES : ℕ := 8

structure GdtEntry where
  limit : UInt16
  base1 : UInt16
  base2 : UInt8
  access : UInt8
  flags : UInt8
  base3 : UInt8

/-- The structure is packed. -/
def GdtEntry.bytes (e : GdtEntry) : List UInt8 :=
  Records.bytes 2 e.limit.toNat ++ Records.bytes 2 e.base1.toNat ++
    [e.base2, e.access, e.flags, e.base3]

structure Call where
  base : UInt32
  size : UInt32
  access : UInt8
  longcode : Bool

def Call.entry (c : Call) : GdtEntry :=
  let size := c.size >>> 12
  { base1 := (c.base &&& 0xFFFF).toUInt16
    base2 := ((c.base >>> 16) &&& 0xFF).toUInt8
    base3 := ((c.base >>> 24) &&& 0xFF).toUInt8
    limit := (size &&& 0xFFFF).toUInt16
    flags :=
      if c.longcode then ((0xA0 : UInt32) ||| ((size >>> 16) &&& 0x0F)).toUInt8
      else ((0xC0 : UInt32) ||| ((size >>> 16) &&& 0x0F)).toUInt8
    access := c.access }

/-- The memory, and the variable `GDT_entry`, which the first `ENTRIES` calls do not reach. -/
structure State where
  mem : Mem
  gdtEntry : UInt8

variable (GDT : ℕ)

def gdtadd (c : Call) (s : State) : State :=
  ⟨setRecord GDT 8 s.mem s.gdtEntry.toNat c.entry.bytes, s.gdtEntry + 1⟩

def gdtadds (cs : List Call) (s : State) : State := cs.foldl (fun s c => gdtadd GDT c s) s

/-- The calls of `init_gdt`: null, code, data, user base, user data and user code. -/
def sections : List Call :=
  [⟨0, 0, 0, false⟩, ⟨0, 0xFFFFFFFF, 0x9A, true⟩, ⟨0, 0xFFFFFFFF, 0x92, false⟩, ⟨0, 0, 0, false⟩,
    ⟨0, 0xFFFFFFFF, 0xF2, false⟩, ⟨0, 0xFFFFFFFF, 0xFA, true⟩]

def GDTP : TableReg := ⟨GDT, ENTRIES * 8 - 1⟩

/-- `init_gdt` up to `lgdt`, which takes `GDTP`. -/
def initGdt (s : State) : State := gdtadds GDT sections s

/-- The selectors that `flushregs` loads: into `cs`, and into all others. -/
def KERNEL_CODE : ℕ := 0x8
def KERNEL_DATA : ℕ := 0x10

/-! ### The fields of a descriptor -/

def Call.segment (c : Call) : Segment where
  base := c.base.toNat
  limit := c.size.toNat / 4096
  access := c.access.toNat
  flags := if c.longcode then 0xA else 0xC

lemma length_bytes_entry (e : GdtEntry) : e.bytes.length = 8 := by simp [GdtEntry.bytes]

lemma value_bytes_entry (e : GdtEntry) :
    value e.bytes = e.limit.toNat + 2 ^ 16 * e.base1.toNat + 2 ^ 32 * e.base2.toNat +
      2 ^ 40 * e.access.toNat + 2 ^ 48 * e.flags.toNat + 2 ^ 56 * e.base3.toNat := by
  have hlimit := value_bytes_of_lt (n := 2) e.limit.toNat_lt
  have hbase := value_bytes_of_lt (n := 2) e.base1.toNat_lt
  simp only [GdtEntry.bytes, value_append, length_bytes, List.length_append, hlimit, hbase, value]
  ring

/-- The processor puts the parts of the base and of the limit together. -/
lemma ofBytes_bytes (e : GdtEntry) :
    Segment.ofBytes e.bytes =
      { base := e.base1.toNat + 2 ^ 16 * e.base2.toNat + 2 ^ 24 * e.base3.toNat
        limit := e.limit.toNat + 2 ^ 16 * (e.flags.toNat % 2 ^ 4)
        access := e.access.toNat
        flags := e.flags.toNat / 2 ^ 4 } := by
  have hlimit := e.limit.toNat_lt
  have hbase1 := e.base1.toNat_lt
  have hbase2 := e.base2.toNat_lt
  have haccess := e.access.toNat_lt
  have hflags := e.flags.toNat_lt
  have hbase3 := e.base3.toNat_lt
  unfold Segment.ofBytes field
  rw [value_bytes_entry]
  congr 1
  · omega
  · omega
  · omega
  · omega

/-- The upper four bits of the flags are constant, and the lower ones those of the limit. -/
lemma or_nibble : ∀ k < 16, 0xA0 ||| k = 0xA0 + k ∧ 0xC0 ||| k = 0xC0 + k := by decide

/-! The masks of the source, as remainders. -/

lemma and_word (x : ℕ) : x &&& 0xFFFF = x % 2 ^ 16 := Nat.and_two_pow_sub_one_eq_mod x 16

lemma and_byte (x : ℕ) : x &&& 0xFF = x % 2 ^ 8 := Nat.and_two_pow_sub_one_eq_mod x 8

lemma and_nibble (x : ℕ) : x &&& 0x0F = x % 2 ^ 4 := Nat.and_two_pow_sub_one_eq_mod x 4

section fields

variable (c : Call)

lemma limit_entry : c.entry.limit.toNat = c.size.toNat / 2 ^ 12 % 2 ^ 16 := by
  simp [Call.entry, Nat.shiftRight_eq_div_pow, and_word]

lemma base1_entry : c.entry.base1.toNat = c.base.toNat % 2 ^ 16 := by
  simp [Call.entry, and_word]

lemma base2_entry : c.entry.base2.toNat = c.base.toNat / 2 ^ 16 % 2 ^ 8 := by
  simp [Call.entry, Nat.shiftRight_eq_div_pow, and_byte]

lemma base3_entry : c.entry.base3.toNat = c.base.toNat / 2 ^ 24 % 2 ^ 8 := by
  simp [Call.entry, Nat.shiftRight_eq_div_pow, and_byte]

lemma flags_entry :
    c.entry.flags.toNat =
      (if c.longcode then 0xA0 else 0xC0) + c.size.toNat / 2 ^ 12 / 2 ^ 16 % 2 ^ 4 := by
  have hlt : c.size.toNat / 2 ^ 12 / 2 ^ 16 % 2 ^ 4 < 16 := Nat.mod_lt _ (by decide)
  have hor := or_nibble _ hlt
  cases hlong : c.longcode
  · simpa [Call.entry, hlong, Nat.shiftRight_eq_div_pow, and_nibble] using hor.2
  · simpa [Call.entry, hlong, Nat.shiftRight_eq_div_pow, and_nibble] using hor.1

end fields

/-- **A descriptor and its way back.** -/
lemma ofBytes_entry (c : Call) : Segment.ofBytes c.entry.bytes = c.segment := by
  have hsize := c.size.toNat_lt
  have hbase := c.base.toNat_lt
  rw [ofBytes_bytes, limit_entry, base1_entry, base2_entry, base3_entry, flags_entry]
  unfold Call.segment
  congr 1
  · omega
  · split
    · omega
    · omega
  · split
    · omega
    · omega

/-! ### The table -/

variable {GDT} {cs : List Call} {c : Call} {m : Mem} {s : State}

lemma gdtadds_concat (cs : List Call) (c : Call) (s : State) :
    gdtadds GDT (cs ++ [c]) s = gdtadd GDT c (gdtadds GDT cs s) := by
  simp [gdtadds]

lemma gdtEntry_gdtadds (m : Mem) (h : cs.length ≤ ENTRIES) :
    (gdtadds GDT cs ⟨m, 0⟩).gdtEntry.toNat = cs.length := by
  induction cs using List.reverseRecOn with
  | nil => rfl
  | append_singleton cs c ih =>
    rw [List.length_append, List.length_singleton] at h ⊢
    have hstep : (gdtadd GDT c (gdtadds GDT cs ⟨m, 0⟩)).gdtEntry =
      (gdtadds GDT cs ⟨m, 0⟩).gdtEntry + 1 := rfl
    unfold ENTRIES at h ih
    rw [gdtadds_concat, hstep, UInt8.toNat_add, ih (by omega), UInt8.toNat_one]
    omega

def stores (cs : List Call) : List (ℕ × List UInt8) := cs.mapIdx fun k c => (k, c.entry.bytes)

lemma length_of_mem_stores : ∀ r ∈ stores cs, r.2.length = 8 := by
  intro r hr
  obtain ⟨k, hk, rfl⟩ := List.mem_mapIdx.mp hr
  exact length_bytes_entry _

lemma mem_gdtadds (m : Mem) (h : cs.length ≤ ENTRIES) :
    (gdtadds GDT cs ⟨m, 0⟩).mem = setRecords GDT 8 (stores cs) m := by
  induction cs using List.reverseRecOn with
  | nil => rfl
  | append_singleton cs c ih =>
    rw [List.length_append, List.length_singleton] at h
    have hentry := @gdtEntry_gdtadds GDT cs m (by omega)
    unfold stores at ih ⊢
    rw [gdtadds_concat, List.mapIdx_concat, setRecords_concat, ← ih (by omega)]
    unfold gdtadd
    rw [hentry]

lemma record_gdtadds (m : Mem) (h : cs.length ≤ ENTRIES) {k : ℕ} (hk : k < cs.length) :
    record GDT 8 (gdtadds GDT cs ⟨m, 0⟩).mem k = cs[k].entry.bytes := by
  rw [mem_gdtadds m h]
  induction cs using List.reverseRecOn with
  | nil => exact absurd hk (Nat.not_lt_zero k)
  | append_singleton cs c ih =>
    rw [List.length_append, List.length_singleton] at h hk
    unfold stores at ih ⊢
    rw [List.mapIdx_concat, setRecords_concat, record_setRecord (length_bytes_entry c.entry)]
    rcases Nat.lt_or_ge k cs.length with hlt | hge
    · rw [Function.update_of_ne hlt.ne, ih (by omega) hlt, List.getElem_append_left hlt]
    · obtain rfl : k = cs.length := by omega
      rw [Function.update_self, List.getElem_concat_length rfl]

lemma gdtadds_of_notMem (m : Mem) (h : cs.length ≤ ENTRIES) {x : ℕ}
    (hx : ¬(GDT ≤ x ∧ x < GDT + 8 * ENTRIES)) : (gdtadds GDT cs ⟨m, 0⟩).mem x = m x := by
  rw [mem_gdtadds m h]
  refine (setRecords_inside_iff length_of_mem_stores (by decide) ENTRIES).mpr (fun r hr => ?_) m x hx
  obtain ⟨k, hk, rfl⟩ := List.mem_mapIdx.mp hr
  exact hk.trans_le h

lemma gdtadds_inside_iff (c : Call) (h : cs.length ≤ ENTRIES) :
    (∀ (m : Mem) (x : ℕ), ¬(GDT ≤ x ∧ x < GDT + 8 * ENTRIES) →
        (gdtadds GDT (cs ++ [c]) ⟨m, 0⟩).mem x = m x) ↔ cs.length < ENTRIES := by
  have hmem : ∀ m : Mem, (gdtadds GDT (cs ++ [c]) ⟨m, 0⟩).mem =
      setRecords GDT 8 (stores cs ++ [(cs.length, c.entry.bytes)]) m := by
    intro m
    rw [gdtadds_concat, setRecords_concat, ← mem_gdtadds m h]
    unfold gdtadd
    rw [gdtEntry_gdtadds m h]
  have hlen : ∀ r ∈ stores cs ++ [(cs.length, c.entry.bytes)], r.2.length = 8 := by
    simpa [or_imp, forall_and, length_bytes_entry] using length_of_mem_stores
  simp only [hmem]
  rw [setRecords_inside_iff hlen (by decide) ENTRIES, List.forall_mem_append,
    List.forall_mem_singleton]
  refine and_iff_right fun r hr => ?_
  obtain ⟨k, hk, rfl⟩ := List.mem_mapIdx.mp hr
  exact hk.trans_le h

/-- **The table of segments.** After calls of `gdtadd` for as many entries as the table has, or for
fewer, the processor finds in each entry what the call for it asks for, and nothing outside the
table is changed. One more call stores nothing outside it, whatever the memory holds, exactly if
there is an entry left. -/
theorem gdtadds_table (GDT : ℕ) (cs : List Call) (h : cs.length ≤ ENTRIES) :
    (∀ (m : Mem) (k : ℕ) (hk : k < cs.length),
        Segment.ofBytes (record GDT 8 (gdtadds GDT cs ⟨m, 0⟩).mem k) = cs[k].segment) ∧
      (∀ (m : Mem) (x : ℕ), ¬(GDT ≤ x ∧ x < GDT + 8 * ENTRIES) →
        (gdtadds GDT cs ⟨m, 0⟩).mem x = m x) ∧
      ∀ c : Call, (∀ (m : Mem) (x : ℕ), ¬(GDT ≤ x ∧ x < GDT + 8 * ENTRIES) →
        (gdtadds GDT (cs ++ [c]) ⟨m, 0⟩).mem x = m x) ↔ cs.length < ENTRIES := by
  refine ⟨fun m k hk => ?_, fun m x hx => gdtadds_of_notMem m h hx, fun c =>
    gdtadds_inside_iff c h⟩
  rw [record_gdtadds m h hk, ofBytes_entry]

/-- The six calls of `init_gdt`: the processor finds the code of the kernel in entry 1, and after
two more calls the table is full. -/
theorem gdtadds_table_sections :
    sections.length ≤ ENTRIES ∧
      Segment.ofBytes (record 0x8000 8 (gdtadds 0x8000 sections ⟨fun _ => 0, 0⟩).mem 1) =
        ⟨0, 0xFFFFF, 0x9A, 0xA⟩ ∧
      ¬∀ (m : Mem) (x : ℕ), ¬(0x8000 ≤ x ∧ x < 0x8000 + 8 * ENTRIES) →
        (gdtadds 0x8000 (sections ++ [sections[0], sections[0]] ++ [sections[0]]) ⟨m, 0⟩).mem x =
          m x := by
  have htwo : (sections ++ [sections[0], sections[0]]).length ≤ ENTRIES := by decide
  refine ⟨by decide, (gdtadds_table 0x8000 sections (by decide)).1 _ 1 (by decide), fun hin => ?_⟩
  exact absurd (((gdtadds_table 0x8000 _ htwo).2.2 _).mp hin) (by decide)

/-- The processor finds the segments of `init_gdt`, the null descriptor apart. -/
lemma lookup_initGdt (GDT : ℕ) (m : Mem) {i rpl : ℕ} (h0 : 0 < i) (hi : i < 6) (hrpl : rpl < 4) :
    lookup (initGdt GDT ⟨m, 0⟩).mem (GDTP GDT) (8 * i + rpl) = some sections[i].segment := by
  have hbit : ∀ i < 6, ∀ rpl < 4, (8 * i + rpl).testBit 2 = false := by decide
  have hdiv : (8 * i + rpl) / 8 = i := by omega
  have hrecord : record GDT 8 (gdtadds GDT sections ⟨m, 0⟩).mem i = sections[i].entry.bytes :=
    record_gdtadds m (by decide) hi
  unfold lookup GDTP ENTRIES
  rw [if_neg, hdiv, initGdt, hrecord, ofBytes_entry]
  rw [hbit i hi rpl hrpl, hdiv]
  simp
  omega

end FlameOS.Gdt
