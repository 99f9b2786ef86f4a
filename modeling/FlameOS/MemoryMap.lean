import FlameOS.FrameAlloc

/-!
The firmware's memory map in `boot.c`: how it is read, shrunk to records of 40 bytes, and
turned into the freemap of the kernel.

The map is read twice, but only the first reading is shrunk and counted. The freemap is
filled from the second one, still in steps of 40 bytes.
-/

namespace FlameOS.MemoryMap

open FlameOS.FrameAlloc

abbrev Bytes := ℕ → UInt8

def le (b : Bytes) : ℕ → ℕ → ℕ
  | 0, _ => 0
  | n + 1, off => (b off).toNat + 256 * le b n (off + 1)

def sizeofMemmapT : ℕ := 40

def normalmem : ℕ := 7

/-- `memmap_t`, as far as `boot` reads it. -/
structure MemmapT where
  type : ℕ
  physaddr : ℕ
  pages : ℕ
  deriving DecidableEq

def memmapAt (b : Bytes) (off : ℕ) : MemmapT := ⟨le b 4 off, le b 8 (off + 8), le b 8 (off + 24)⟩

/-! ### The firmware -/

/-- The descriptors of a map one after the other, each with `d` bytes. -/
def mapBytes (d : ℕ) (D : List Bytes) : Bytes := fun k => (D.getD (k / d) fun _ => 0) (k % d)

/-- `getmemmap`: the size of the map, and the buffer with the map if it fits. -/
def getmemmap (d : ℕ) (D : List Bytes) (size : ℕ) (b : Bytes) : ℕ × Bytes :=
  (D.length * d, if D.length * d ≤ size then fun k => if k < D.length * d then mapBytes d D k else b k
    else b)

/-! ### The bootloader -/

/-- The loop of `memcpy`, where `next` goes from a pointer to the one behind it. -/
def memcpyLoop {μ : Type} (next : ℕ → ℕ) (load : μ → ℕ → UInt8) (store : μ → ℕ → UInt8 → μ) :
    ℕ → ℕ → ℕ → μ → μ
  | 0, _, _, m => m
  | len + 1, d, s, m => memcpyLoop next load store len (next d) (next s) (store m d (load m s))

/-- `memcpy` in a buffer, by offsets. -/
def memcpy (len dest src : ℕ) (b : Bytes) : Bytes :=
  memcpyLoop (· + 1) (fun b k => b k) (fun b k v => Function.update b k v) len dest src b

/-- The loop that shrinks the map, with `addr1` and `addr2`. -/
def shrinkLoop (d : ℕ) : ℕ → ℕ → ℕ → Bytes → Bytes
  | 0, _, _, b => b
  | n + 1, addr1, addr2, b =>
    shrinkLoop d n (addr1 + sizeofMemmapT) (addr2 + d) (memcpy sizeofMemmapT addr1 addr2 b)

def shrinkMap (d mmDescs : ℕ) (b : Bytes) : Bytes :=
  if d ≠ sizeofMemmapT then shrinkLoop d mmDescs 0 0 b else b

/-- The count of the freemap descriptors, from record `i` on. -/
def countFm (b : Bytes) : ℕ → ℕ → ℕ
  | 0, _ => 0
  | n + 1, i =>
    (if (memmapAt b (sizeofMemmapT * i)).type = normalmem then 1 else 0) + countFm b n (i + 1)

/-- The loop that fills the freemap, from record `i` and entry `j` on. -/
def fillFreemap (b : Bytes) : ℕ → ℕ → ℕ → (ℕ → MemoryT) → ℕ → MemoryT
  | 0, _, _, f => f
  | n + 1, i, j, f =>
    let m := memmapAt b (sizeofMemmapT * i)
    if m.type = normalmem then
      fillFreemap b n (i + 1) (j + 1) (Function.update f j ⟨m.physaddr, m.pages⟩)
    else fillFreemap b n (i + 1) j f

structure MapInfo where
  memmap : Bytes
  mmDescs : ℕ
  fmDescs : ℕ
  freemap : ℕ → MemoryT

/-- The readings of the maps `D₁` and `D₂` into a buffer for a map of `size` bytes. The buffer
and the freemap are as `pagealloc` returns them. -/
def readMaps (d size : ℕ) (D₁ D₂ : List Bytes) (b : Bytes) (f : ℕ → MemoryT) : MapInfo :=
  let r₁ := getmemmap d D₁ size b
  let mmDescs := r₁.1 / d
  let b₁ := shrinkMap d mmDescs r₁.2
  let r₂ := getmemmap d D₂ r₁.1 b₁
  ⟨r₂.2, mmDescs, countFm b₁ mmDescs 0, fillFreemap r₂.2 mmDescs 0 0 f⟩

/-! ### The free memory of a map -/

def freeOf (ms : List MemmapT) : List MemoryT :=
  (ms.filter fun m => decide (m.type = normalmem)).map fun m => ⟨m.physaddr, m.pages⟩

def freeMemory (D : List Bytes) : List MemoryT := freeOf (D.map fun x => memmapAt x 0)

/-- The `n` records of a buffer from record `i` on, in steps of 40 bytes. -/
def records (b : Bytes) (i n : ℕ) : List MemmapT :=
  (List.range' i n).map fun i => memmapAt b (sizeofMemmapT * i)

lemma records_succ (b : Bytes) (i n : ℕ) :
    records b i (n + 1) = memmapAt b (sizeofMemmapT * i) :: records b (i + 1) n := by
  simp [records, List.range'_succ]

lemma freeOf_cons (m : MemmapT) (ms : List MemmapT) : freeOf (m :: ms) =
    if m.type = normalmem then ⟨m.physaddr, m.pages⟩ :: freeOf ms else freeOf ms := by
  unfold freeOf
  rw [List.filter_cons]
  split <;> simp_all

lemma countFm_eq (b : Bytes) (n i : ℕ) : countFm b n i = (freeOf (records b i n)).length := by
  induction n generalizing i with
  | zero => rfl
  | succ n ih =>
    rw [countFm, ih, records_succ, freeOf_cons]
    split
    · rw [List.length_cons, Nat.add_comm]
    · rw [Nat.zero_add]

/-- The freemap has the free regions of the records, and behind them what it had before. -/
lemma fillFreemap_eq (b : Bytes) (n i j : ℕ) (f : ℕ → MemoryT) (k : ℕ) :
    fillFreemap b n i j f k =
      if k < j then f k else (freeOf (records b i n)).getD (k - j) (f k) := by
  induction n generalizing i j f with
  | zero => simp [fillFreemap, records, freeOf]
  | succ n ih =>
    rw [fillFreemap, records_succ, freeOf_cons]
    split
    · rw [ih]
      rcases lt_trichotomy k j with hk | rfl | hk
      · rw [if_pos (by omega), if_pos hk, Function.update_of_ne (by omega)]
      · rw [if_pos (by omega), if_neg (by omega), Function.update_self, Nat.sub_self,
          List.getD_cons_zero]
      · rw [if_neg (by omega), if_neg (by omega), Function.update_of_ne (by omega),
          show k - j = (k - (j + 1)) + 1 by omega, List.getD_cons_succ]
    · exact ih (i + 1) j f

/-! ### Shrinking -/

/-- A forward copy to a lower address copies. -/
lemma memcpy_eq {dest src : ℕ} (h : dest ≤ src) (len : ℕ) (b : Bytes) (k : ℕ) :
    memcpy len dest src b k =
      if dest ≤ k ∧ k < dest + len then b (src + (k - dest)) else b k := by
  induction len generalizing dest src b with
  | zero => rw [memcpy, memcpyLoop, if_neg (by omega)]
  | succ len ih =>
    rw [memcpy, memcpyLoop, ← memcpy, ih (Nat.succ_le_succ h)]
    rcases lt_trichotomy k dest with hk | rfl | hk
    · rw [if_neg (by omega), if_neg (by omega), Function.update_of_ne (by omega)]
    · rw [if_neg (by omega), if_pos (by omega), Function.update_self, Nat.sub_self, Nat.add_zero]
    · by_cases hlt : k < dest + (len + 1)
      · rw [if_pos (by omega), if_pos (by omega), Function.update_of_ne (by omega)]
        congr 1
        omega
      · rw [if_neg (by omega), if_neg (by omega), Function.update_of_ne (by omega)]

lemma shrinkLoop_eq {d : ℕ} (hd : sizeofMemmapT ≤ d) (n i : ℕ) (b : Bytes) (k : ℕ) :
    shrinkLoop d n (sizeofMemmapT * i) (d * i) b k =
      if sizeofMemmapT * i ≤ k ∧ k < sizeofMemmapT * (i + n) then
        b (d * (k / sizeofMemmapT) + k % sizeofMemmapT) else b k := by
  induction n generalizing i b with
  | zero => rw [shrinkLoop, Nat.add_zero, if_neg (by omega)]
  | succ n ih =>
    have hstep : sizeofMemmapT * (i + 1) ≤ d * (i + 1) := Nat.mul_le_mul_right _ hd
    have hi : sizeofMemmapT * i ≤ d * i := Nat.mul_le_mul_right _ hd
    have h1 : sizeofMemmapT * i + sizeofMemmapT = sizeofMemmapT * (i + 1) := (Nat.mul_succ _ _).symm
    have h2 : d * i + d = d * (i + 1) := (Nat.mul_succ _ _).symm
    have hn : i + 1 + n = i + (n + 1) := by omega
    rw [shrinkLoop, h1, h2, ih, memcpy_eq hi, memcpy_eq hi, h1, hn]
    have hle : sizeofMemmapT * (i + 1) ≤ sizeofMemmapT * (i + (n + 1)) :=
      Nat.mul_le_mul_left _ (by omega)
    by_cases hlow : k < sizeofMemmapT * (i + 1)
    · rw [if_neg (by omega)]
      by_cases hk : sizeofMemmapT * i ≤ k
      · rw [if_pos ⟨hk, hlow⟩, if_pos ⟨hk, by omega⟩]
        obtain ⟨t, rfl⟩ := Nat.exists_eq_add_of_le hk
        have ht : t < sizeofMemmapT := by omega
        rw [Nat.mul_add_div (by decide), Nat.div_eq_of_lt ht, Nat.mul_add_mod, Nat.mod_eq_of_lt ht,
          Nat.add_sub_cancel_left, Nat.add_zero]
      · rw [if_neg (by omega), if_neg (by omega)]
    · by_cases hk : k < sizeofMemmapT * (i + (n + 1))
      · -- the source of a later record is above the record just written
        have hsrc : d * (i + 1) ≤ d * (k / sizeofMemmapT) := by
          refine Nat.mul_le_mul_left _ ?_
          rw [Nat.le_div_iff_mul_le (by decide), Nat.mul_comm]
          omega
        rw [if_pos ⟨by omega, hk⟩, if_neg (by omega), if_pos ⟨by omega, hk⟩]
      · rw [if_neg (by omega), if_neg (by omega), if_neg (by omega)]

/-- After the shrinking loop the 40 bytes of record `i` are the first 40 bytes of descriptor `i`. -/
lemma shrinkMap_eq {d : ℕ} (hd : sizeofMemmapT ≤ d) {n k : ℕ} (b : Bytes)
    (hk : k < sizeofMemmapT * n) :
    shrinkMap d n b k = b (d * (k / sizeofMemmapT) + k % sizeofMemmapT) := by
  unfold shrinkMap
  split
  · have := shrinkLoop_eq hd n 0 b k
    rw [Nat.mul_zero, Nat.mul_zero, Nat.zero_add, if_pos ⟨Nat.zero_le k, hk⟩] at this
    exact this
  · rename_i h
    rw [not_not.mp h, Nat.div_add_mod]

lemma shrinkMap_behind {d : ℕ} (hd : sizeofMemmapT ≤ d) {n k : ℕ} (b : Bytes)
    (hk : sizeofMemmapT * n ≤ k) : shrinkMap d n b k = b k := by
  unfold shrinkMap
  split
  · have hloop := shrinkLoop_eq hd n 0 b k
    rwa [Nat.mul_zero, Nat.mul_zero, Nat.zero_add, if_neg (by omega)] at hloop
  · rfl

/-- **Compaction in place.** The `n` descriptors of `d` bytes in a buffer become records of 40
bytes. The loop stores nothing behind the buffer, and what is there does not matter. -/
theorem shrinkMap_compacts (n d size : ℕ) (hd : 40 ≤ d) (hsize : n * d ≤ size) (b : Bytes) :
    (∀ i < n, ∀ t < 40, shrinkMap d n b (40 * i + t) = b (d * i + t)) ∧
      (∀ k ≥ size, shrinkMap d n b k = b k) ∧
      ∀ b' : Bytes, (∀ k < size, b' k = b k) → ∀ k < size, shrinkMap d n b' k = shrinkMap d n b k := by
  have hrecords : 40 * n ≤ size := by
    calc 40 * n = n * 40 := Nat.mul_comm 40 n
      _ ≤ n * d := Nat.mul_le_mul_left n hd
      _ ≤ size := hsize
  refine ⟨fun i hi t ht => ?_, fun k hk => ?_, fun b' hb k hk => ?_⟩
  · have hlt : 40 * i + t < 40 * n := by omega
    rw [shrinkMap_eq hd b hlt]
    unfold sizeofMemmapT
    rw [Nat.mul_add_div (by decide), Nat.div_eq_of_lt ht, Nat.add_zero, Nat.mul_add_mod,
      Nat.mod_eq_of_lt ht]
  · exact shrinkMap_behind hd b (hrecords.trans hk)
  · by_cases hn : k < 40 * n
    · rw [shrinkMap_eq hd b' hn, shrinkMap_eq hd b hn]
      refine hb _ (lt_of_lt_of_le ?_ hsize)
      -- the descriptor of the record ends within the buffer
      have hi : k / sizeofMemmapT + 1 ≤ n := Nat.div_lt_of_lt_mul hn
      have ht : k % sizeofMemmapT < d := lt_of_lt_of_le (Nat.mod_lt k (by decide)) hd
      calc d * (k / sizeofMemmapT) + k % sizeofMemmapT
          < d * (k / sizeofMemmapT) + d := Nat.add_lt_add_left ht _
        _ = d * (k / sizeofMemmapT + 1) := (Nat.mul_succ _ _).symm
        _ ≤ d * n := Nat.mul_le_mul_left d hi
        _ = n * d := Nat.mul_comm d n
    · have hle : sizeofMemmapT * n ≤ k := Nat.not_lt.mp hn
      rw [shrinkMap_behind hd b' hle, shrinkMap_behind hd b hle, hb k hk]

/-- Descriptors of 48 bytes, as usual firmware has them. -/
theorem shrinkMap_compacts_48 :
    (∀ i < 3, ∀ t < 40, shrinkMap 48 3 Nat.toUInt8 (40 * i + t) = (48 * i + t).toUInt8) ∧
      (∀ k ≥ 4096, shrinkMap 48 3 Nat.toUInt8 k = k.toUInt8) ∧
      ∀ b' : Bytes, (∀ k < 4096, b' k = k.toUInt8) →
        ∀ k < 4096, shrinkMap 48 3 b' k = shrinkMap 48 3 Nat.toUInt8 k :=
  shrinkMap_compacts 3 48 4096 (by decide) (by decide) Nat.toUInt8

/-! ### The two readings -/

variable {d size : ℕ} {D D₁ D₂ : List Bytes} {b b' : Bytes}

lemma le_congr {n off off' : ℕ} (h : ∀ t < n, b (off + t) = b' (off' + t)) :
    le b n off = le b' n off' := by
  induction n generalizing off off' with
  | zero => rfl
  | succ n ih =>
    have h0 : b off = b' off' := h 0 (by omega)
    have hrest : le b n (off + 1) = le b' n (off' + 1) := by
      refine ih fun t ht => ?_
      have := h (t + 1) (by omega)
      rwa [Nat.add_comm t 1, ← Nat.add_assoc, ← Nat.add_assoc] at this
    rw [le, le, h0, hrest]

lemma memmapAt_congr {off off' : ℕ} (h : ∀ t < sizeofMemmapT, b (off + t) = b' (off' + t)) :
    memmapAt b off = memmapAt b' off' := by
  have htype : le b 4 off = le b' 4 off' :=
    le_congr fun t ht => h t (by unfold sizeofMemmapT; omega)
  have haddr : le b 8 (off + 8) = le b' 8 (off' + 8) := by
    refine le_congr fun t ht => ?_
    rw [Nat.add_assoc, Nat.add_assoc]
    exact h (8 + t) (by unfold sizeofMemmapT; omega)
  have hpages : le b 8 (off + 24) = le b' 8 (off' + 24) := by
    refine le_congr fun t ht => ?_
    rw [Nat.add_assoc, Nat.add_assoc]
    exact h (24 + t) (by unfold sizeofMemmapT; omega)
  rw [memmapAt, memmapAt, htype, haddr, hpages]

lemma mapBytes_mul_add {t : ℕ} (ht : t < d) (D : List Bytes) (i : ℕ) :
    mapBytes d D (d * i + t) = (D.getD i fun _ => 0) t := by
  unfold mapBytes
  rw [Nat.mul_add_div (by omega), Nat.div_eq_of_lt ht, Nat.add_zero, Nat.mul_add_mod,
    Nat.mod_eq_of_lt ht]

/-- A buffer that has the descriptors in steps of 40 bytes gives back their records. -/
lemma records_eq (h : ∀ k < sizeofMemmapT * D.length, b k = mapBytes sizeofMemmapT D k) :
    records b 0 D.length = D.map fun x => memmapAt x 0 := by
  apply List.ext_getElem
  · simp [records]
  · intro i hi hi'
    rw [List.length_map] at hi'
    simp only [records, List.getElem_map, List.getElem_range', Nat.zero_add, Nat.one_mul]
    refine memmapAt_congr fun t ht => ?_
    have hlt : sizeofMemmapT * i + t < sizeofMemmapT * D.length := by
      have := Nat.mul_le_mul_left sizeofMemmapT (Nat.succ_le_of_lt hi')
      rw [Nat.mul_succ] at this
      omega
    rw [h _ hlt, mapBytes_mul_add ht, List.getD_eq_getElem _ _ hi', Nat.zero_add]

lemma shrinkMap_getmemmap (hd : sizeofMemmapT ≤ d) (hfit : D.length * d ≤ size) {k : ℕ}
    (hk : k < sizeofMemmapT * D.length) :
    shrinkMap d D.length (getmemmap d D size b).2 k = mapBytes sizeofMemmapT D k := by
  have hi : k / sizeofMemmapT < D.length := Nat.div_lt_of_lt_mul hk
  have ht : k % sizeofMemmapT < sizeofMemmapT := Nat.mod_lt _ (by decide)
  have hlt : d * (k / sizeofMemmapT) + k % sizeofMemmapT < D.length * d := by
    have := Nat.mul_le_mul_left d (Nat.succ_le_of_lt hi)
    rw [Nat.mul_succ, Nat.mul_comm d D.length] at this
    omega
  rw [shrinkMap_eq hd _ hk]
  unfold getmemmap
  dsimp only
  rw [if_pos hfit, if_pos hlt, mapBytes_mul_add (by omega)]
  rfl

/-- What is in the buffer after the second reading: the second map, and behind it what is left
of the shrunk first one. -/
def rereadBytes (d : ℕ) (D₁ D₂ : List Bytes) : Bytes := fun k =>
  if k < D₂.length * d then mapBytes d D₂ k else mapBytes sizeofMemmapT D₁ k

/-- The records that the loops over the second map see. -/
def strideRecords (d : ℕ) (D₁ D₂ : List Bytes) : List MemmapT :=
  records (rereadBytes d D₁ D₂) 0 D₁.length

lemma records_congr {n : ℕ} (h : ∀ k < sizeofMemmapT * n, b k = b' k) :
    records b 0 n = records b' 0 n := by
  unfold records
  refine List.map_congr_left fun i hi => memmapAt_congr fun t ht => h _ ?_
  have hlt : i < n := by simpa using hi
  have := Nat.mul_le_mul_left sizeofMemmapT (Nat.succ_le_of_lt hlt)
  rw [Nat.mul_succ] at this
  omega

section readMaps

variable (hd : sizeofMemmapT ≤ d) (h₁ : D₁.length * d ≤ size) (h₂ : D₂.length * d ≤ D₁.length * d)
include hd

lemma mmDescs_readMaps (f : ℕ → MemoryT) : (readMaps d size D₁ D₂ b f).mmDescs = D₁.length := by
  have hpos : 0 < d := lt_of_lt_of_le (by decide) hd
  exact Nat.mul_div_cancel _ hpos

include h₁

lemma fmDescs_readMaps (f : ℕ → MemoryT) :
    (readMaps d size D₁ D₂ b f).fmDescs = (freeMemory D₁).length := by
  have hpos : 0 < d := lt_of_lt_of_le (by decide) hd
  have hdiv : (getmemmap d D₁ size b).1 / d = D₁.length := Nat.mul_div_cancel _ hpos
  unfold readMaps
  dsimp only
  rw [hdiv, countFm_eq, records_eq fun k hk => shrinkMap_getmemmap hd h₁ hk]
  rfl

include h₂ in
lemma records_memmap_readMaps (f : ℕ → MemoryT) :
    records (readMaps d size D₁ D₂ b f).memmap 0 D₁.length = strideRecords d D₁ D₂ := by
  have hpos : 0 < d := lt_of_lt_of_le (by decide) hd
  have hdiv : (getmemmap d D₁ size b).1 / d = D₁.length := Nat.mul_div_cancel _ hpos
  refine records_congr fun k hk => ?_
  unfold readMaps rereadBytes
  dsimp only
  rw [hdiv, getmemmap]
  have hfit : D₂.length * d ≤ (getmemmap d D₁ size b).1 := h₂
  dsimp only
  rw [if_pos hfit]
  split
  · rfl
  · exact shrinkMap_getmemmap hd h₁ hk

include h₂ in
/-- The freemap has the free regions of the records in steps of 40 bytes. -/
lemma freemap_readMaps (f : ℕ → MemoryT) (k : ℕ) :
    (readMaps d size D₁ D₂ b f).freemap k = (freeOf (strideRecords d D₁ D₂)).getD k (f k) := by
  have hfill : (readMaps d size D₁ D₂ b f).freemap =
      fillFreemap (readMaps d size D₁ D₂ b f).memmap (readMaps d size D₁ D₂ b f).mmDescs 0 0 f := rfl
  rw [hfill, fillFreemap_eq, mmDescs_readMaps hd, records_memmap_readMaps hd h₁ h₂,
    if_neg (Nat.not_lt_zero k), Nat.sub_zero]

end readMaps

/-! ### The freemap -/

lemma freeOf_append (l l' : List MemmapT) : freeOf (l ++ l') = freeOf l ++ freeOf l' := by
  simp [freeOf]

/-- The free memory of a map that comes first in a buffer comes first in what is read from it. -/
lemma freeMemory_prefix_records {m : ℕ} (hm : D.length ≤ m)
    (h : ∀ k < sizeofMemmapT * D.length, b k = mapBytes sizeofMemmapT D k) :
    freeMemory D <+: freeOf (records b 0 m) := by
  obtain ⟨n, rfl⟩ := Nat.exists_eq_add_of_le hm
  have hsplit : records b 0 (D.length + n) =
      records b 0 D.length ++ records b D.length n := by
    unfold records
    rw [← List.map_append, ← List.range'_append_1, Nat.zero_add]
  rw [hsplit, records_eq h, freeOf_append]
  exact List.prefix_append _ _

/-- With descriptors of 40 bytes the second map comes first in the buffer. -/
lemma freeMemory_prefix (h : D₂.length ≤ D₁.length) :
    freeMemory D₂ <+: freeOf (strideRecords sizeofMemmapT D₁ D₂) := by
  refine freeMemory_prefix_records h fun k hk => ?_
  unfold rereadBytes
  rw [if_pos (by rwa [Nat.mul_comm])]

/-- The first entries of the freemap, if they are as many as the free regions of the map. -/
lemma range_map_eq_iff {l : List MemoryT} {g : ℕ → MemoryT} :
    (List.range l.length).map g = l ↔ ∀ k (h : k < l.length), g k = l[k] := by
  constructor
  · intro h k hk
    have := congrArg (fun l => l[k]?) h
    simpa [hk] using this
  · intro h
    exact List.ext_getElem (by simp) fun k hk hk' => by simpa using h k hk'

/-- **The freemap.** Whatever the buffers held before, the first `fm_descs` entries of the
freemap are the free regions of the second map exactly if both maps have equally many and the
second map, read in steps of 40 bytes, shows the same regions first. With descriptors of 40
bytes it does. -/
theorem freemap_correct_iff (d size : ℕ) (D₁ D₂ : List Bytes) (hd : sizeofMemmapT ≤ d)
    (h₁ : D₁.length * d ≤ size) (h₂ : D₂.length * d ≤ D₁.length * d) :
    (∀ b f, (List.range (readMaps d size D₁ D₂ b f).fmDescs).map
        (readMaps d size D₁ D₂ b f).freemap = freeMemory D₂) ↔
      (freeMemory D₁).length = (freeMemory D₂).length ∧
        (d = sizeofMemmapT ∨ freeMemory D₂ <+: freeOf (strideRecords d D₁ D₂)) := by
  constructor
  · intro h
    have hlen : (freeMemory D₁).length = (freeMemory D₂).length := by
      have := congrArg List.length (h (fun _ => 0) fun _ => ⟨0, 0⟩)
      rwa [List.length_map, List.length_range, fmDescs_readMaps hd h₁] at this
    refine ⟨hlen, Or.inr ?_⟩
    -- an entry that the loop leaves as it was would show what was there
    have hget : ∀ (f : ℕ → MemoryT) (k) (hk : k < (freeMemory D₂).length),
        (freeOf (strideRecords d D₁ D₂)).getD k (f k) = (freeMemory D₂)[k] := by
      intro f
      have hf := h (fun _ => 0) f
      rw [fmDescs_readMaps hd h₁, hlen, range_map_eq_iff] at hf
      intro k hk
      rw [← hf k hk, freemap_readMaps hd h₁ h₂]
    have hle : (freeMemory D₂).length ≤ (freeOf (strideRecords d D₁ D₂)).length := by
      by_contra hlt
      rw [not_le] at hlt
      have h0 := hget (fun _ => ⟨(freeMemory D₂)[(freeOf (strideRecords d D₁ D₂)).length].addr + 1,
        0⟩) _ hlt
      rw [List.getD_eq_default _ _ le_rfl] at h0
      have := congrArg MemoryT.addr h0
      dsimp only at this
      omega
    rw [List.prefix_iff_eq_take]
    refine List.ext_getElem (by rw [List.length_take]; omega) fun k hk hk' => ?_
    rw [List.getElem_take, ← hget (fun _ => ⟨0, 0⟩) k hk, List.getD_eq_getElem _ _ (by omega)]
  · rintro ⟨hlen, hpre⟩ b f
    have hpos : 0 < d := lt_of_lt_of_le (by decide) hd
    have hpre' : freeMemory D₂ <+: freeOf (strideRecords d D₁ D₂) := by
      rcases hpre with rfl | hpre
      · exact freeMemory_prefix (Nat.le_of_mul_le_mul_right h₂ hpos)
      · exact hpre
    rw [fmDescs_readMaps hd h₁, hlen, range_map_eq_iff]
    intro k hk
    rw [freemap_readMaps hd h₁ h₂, List.getD_eq_getElem _ _ (hk.trans_le hpre'.length_le)]
    exact (hpre'.getElem hk).symm

def freePage (p : UInt8) : Bytes := fun k => if k = 0 then 7 else if k = 9 then 16 * p else
  if k = 24 then 1 else 0

def reservedPage : Bytes := fun _ => 0

theorem freemap_correct_same :
    let r := readMaps 40 80 [freePage 1, reservedPage] [reservedPage, freePage 2] (fun _ => 0)
      fun _ => ⟨0, 0⟩
    (List.range r.fmDescs).map r.freemap = freeMemory [reservedPage, freePage 2] :=
  (freemap_correct_iff 40 80 [freePage 1, reservedPage] [reservedPage, freePage 2] (by decide)
    (by decide) (by decide)).mpr ⟨by decide +kernel, Or.inl rfl⟩ (fun _ => 0) fun _ => ⟨0, 0⟩

/-- A map of two free pages in descriptors of 48 bytes, read twice: the second entry of the
freemap is not filled. -/
theorem not_freemap_correct :
    let r := readMaps 48 96 [freePage 1, freePage 2] [freePage 1, freePage 2] (fun _ => 0)
      fun _ => ⟨0, 0⟩
    r.fmDescs = 2 ∧ r.freemap 1 = ⟨0, 0⟩ ∧
      (List.range r.fmDescs).map r.freemap ≠ freeMemory [freePage 1, freePage 2] := by
  decide +kernel

end FlameOS.MemoryMap
