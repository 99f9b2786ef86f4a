import FlameOS.FrameAlloc
import FlameOS.Trie

/-!
The four-level page tables of `paging.c` and `find_physaddr`.

A table pointer is read as the physical frame it names, so the tables are a function from
frame addresses to entries. `find_physaddr` is a lookup in a trie of depth three: the paths
are the four nine-bit indices of an address.
-/

namespace FlameOS.PageTable

open FlameOS.Word FlameOS.FrameAlloc FlameOS.Trie

def FLAG_PRESENT : ℕ := 1 <<< 0
def FLAG_RW : ℕ := 1 <<< 1
def FLAG_US : ℕ := 1 <<< 2
def FLAGS : ℕ := FLAG_PRESENT ||| FLAG_RW ||| FLAG_US
def ADDR_MASK : ℕ := 0x000ffffffffff000

def present (e : ℕ) : Bool := e &&& FLAG_PRESENT != 0

def addrOf (e : ℕ) : ℕ := e &&& ADDR_MASK

def mkEntry (phys : ℕ) : ℕ := phys &&& ADDR_MASK ||| FLAGS

def pml4Idx (virt : ℕ) : ℕ := virt >>> 39 &&& 0x1FF
def pdptIdx (virt : ℕ) : ℕ := virt >>> 30 &&& 0x1FF
def pdIdx (virt : ℕ) : ℕ := virt >>> 21 &&& 0x1FF
def ptIdx (virt : ℕ) : ℕ := virt >>> 12 &&& 0x1FF

/-- Physical memory as page tables (`struct table` at each frame address) and the words of
`pmem_bmap`. -/
structure Paging where
  frame : ℕ → ℕ → ℕ
  bmap : ℕ → ℕ

def Paging.write (s : Paging) (t i e : ℕ) : Paging :=
  { s with frame := Function.update s.frame t (Function.update (s.frame t) i e) }

def Paging.memset (s : Paging) (page : ℕ) : Paging :=
  { s with frame := Function.update s.frame page fun _ => 0 }

/-- What is fixed at boot: the physical address of `pml4`, which no page of the freemap and
not frame 0 holds, and the freemap. -/
structure Machine where
  pml4 : ℕ
  fm : Freemap
  pml4_ne_zero : pml4 ≠ 0
  pml4_notMem : pml4 ∉ fm.pages

def findPhysaddr (M : Machine) (s : Paging) (virt : ℕ) : ℕ :=
  if !present (s.frame M.pml4 (pml4Idx virt)) then 0
  else
    let pdpt := addrOf (s.frame M.pml4 (pml4Idx virt))
    if !present (s.frame pdpt (pdptIdx virt)) then 0
    else
      let pd := addrOf (s.frame pdpt (pdptIdx virt))
      if !present (s.frame pd (pdIdx virt)) then 0
      else
        let pt := addrOf (s.frame pd (pdIdx virt))
        if !present (s.frame pt (ptIdx virt)) then 0
        else addrOf (s.frame pt (ptIdx virt)) + (virt &&& 0xFFF)

/-! ### Entries -/

@[simp] lemma present_zero : present 0 = false := rfl

@[simp] lemma present_mkEntry (p : ℕ) : present (mkEntry p) = true := by
  have h : mkEntry p &&& FLAG_PRESENT = 1 := by
    rw [mkEntry, Nat.and_or_distrib_right, Nat.and_assoc]
    simp [ADDR_MASK, FLAGS, FLAG_PRESENT, FLAG_RW, FLAG_US]
  rw [present, h]; rfl

@[simp] lemma addrOf_mkEntry (p : ℕ) : addrOf (mkEntry p) = p &&& ADDR_MASK := by
  rw [addrOf, mkEntry, Nat.and_or_distrib_right, Nat.and_assoc]
  simp [ADDR_MASK, FLAGS, FLAG_PRESENT, FLAG_RW, FLAG_US]

lemma and_mask (p : ℕ) : p &&& ADDR_MASK = p % 2 ^ 52 / 2 ^ 12 * 2 ^ 12 := by
  have hm : ADDR_MASK = (2 ^ 40 - 1) <<< 12 := by decide
  refine Nat.eq_of_testBit_eq fun i => ?_
  rw [hm, Nat.testBit_and, Nat.testBit_shiftLeft, Nat.testBit_two_pow_sub_one,
    ← Nat.shiftRight_eq_div_pow, ← Nat.shiftLeft_eq, Nat.testBit_shiftLeft,
    Nat.testBit_shiftRight, Nat.testBit_mod_two_pow]
  by_cases h : 12 ≤ i
  · rw [Nat.add_sub_cancel' h]
    simp only [ge_iff_le, h, decide_true, Bool.true_and]
    rw [Bool.and_comm]
    congr 1
    exact decide_eq_decide.mpr (by omega)
  · simp [h]

lemma and_mask_of_aligned {p : ℕ} (hal : p % PAGE_SIZE = 0) (hlt : p < 2 ^ 52) :
    p &&& ADDR_MASK = p := by
  unfold PAGE_SIZE at hal
  rw [and_mask]; omega

/-! ### Indices -/

lemma pml4Idx_eq (v : ℕ) : pml4Idx v = v / 2 ^ 39 % 512 := by
  rw [pml4Idx, Nat.shiftRight_eq_div_pow]
  exact Nat.and_two_pow_sub_one_eq_mod _ 9

lemma pdptIdx_eq (v : ℕ) : pdptIdx v = v / 2 ^ 30 % 512 := by
  rw [pdptIdx, Nat.shiftRight_eq_div_pow]
  exact Nat.and_two_pow_sub_one_eq_mod _ 9

lemma pdIdx_eq (v : ℕ) : pdIdx v = v / 2 ^ 21 % 512 := by
  rw [pdIdx, Nat.shiftRight_eq_div_pow]
  exact Nat.and_two_pow_sub_one_eq_mod _ 9

lemma ptIdx_eq (v : ℕ) : ptIdx v = v / 2 ^ 12 % 512 := by
  rw [ptIdx, Nat.shiftRight_eq_div_pow]
  exact Nat.and_two_pow_sub_one_eq_mod _ 9

lemma pdptIdx_lt (v : ℕ) : pdptIdx v < 512 := by
  rw [pdptIdx_eq]
  exact Nat.mod_lt _ (by decide)

lemma pdIdx_lt (v : ℕ) : pdIdx v < 512 := by
  rw [pdIdx_eq]
  exact Nat.mod_lt _ (by decide)

lemma ptIdx_lt (v : ℕ) : ptIdx v < 512 := by
  rw [ptIdx_eq]
  exact Nat.mod_lt _ (by decide)

/-- The page of an address: bits 12 to 47. -/
def page (v : ℕ) : ℕ := v / 4096 % 2 ^ 36

lemma page_ne_of_lt {virt i j : ℕ} (hij : i < j) (hj : j < 2 ^ 36) :
    page (virt + i * PAGE_SIZE) ≠ page (virt + j * PAGE_SIZE) := by
  unfold page PAGE_SIZE
  omega

/-- The page behind the next one, if addresses wrap. -/
lemma page_add64 (virt i : ℕ) :
    page (add64 virt PAGE_SIZE + i * PAGE_SIZE) = page (virt + (i + 1) * PAGE_SIZE) := by
  unfold page add64 PAGE_SIZE
  omega

def path (v : ℕ) : List ℕ := [pml4Idx v, pdptIdx v, pdIdx v, ptIdx v]


@[simp] lemma length_path (v : ℕ) : (path v).length = 4 := rfl

lemma path_eq_iff (v w : ℕ) : path v = path w ↔ page v = page w := by
  simp only [path, pml4Idx_eq, pdptIdx_eq, pdIdx_eq, ptIdx_eq, List.cons.injEq, and_true]
  unfold page
  omega

/-! ### The trie -/

def next (s : Paging) (t i : ℕ) : Option ℕ :=
  if present (s.frame t i) then some (addrOf (s.frame t i)) else none

lemma next_of_present {s : Paging} {t i : ℕ} (h : present (s.frame t i) = true) :
    next s t i = some (addrOf (s.frame t i)) := if_pos h

lemma next_eq_none {s : Paging} {t i : ℕ} : next s t i = none ↔ present (s.frame t i) = false := by
  simp [next]

def lookup (M : Machine) (s : Paging) (v : ℕ) : Option ℕ := walk (next s) M.pml4 (path v)

variable {M : Machine} {s : Paging}

lemma lookup_congr {v w : ℕ} (h : page v = page w) : lookup M s v = lookup M s w := by
  rw [lookup, lookup, (path_eq_iff v w).mpr h]

/-- **`find_physaddr` is the lookup in the trie.** -/
lemma findPhysaddr_eq (v : ℕ) :
    findPhysaddr M s v = (lookup M s v).elim 0 fun f => f + v % 4096 := by
  have hoff : v &&& 0xFFF = v % 4096 := Nat.and_two_pow_sub_one_eq_mod v 12
  unfold findPhysaddr lookup walk path
  simp only [List.foldlM_cons, List.foldlM_nil, hoff]
  by_cases h4 : present (s.frame M.pml4 (pml4Idx v)) = true
  · simp only [h4, next_of_present h4, Option.bind_eq_bind, Option.bind_some]
    by_cases h3 : present (s.frame (addrOf (s.frame M.pml4 (pml4Idx v))) (pdptIdx v)) = true
    · simp only [h3, next_of_present h3, Option.bind_some]
      by_cases h2 : present (s.frame (addrOf (s.frame (addrOf (s.frame M.pml4 (pml4Idx v)))
          (pdptIdx v))) (pdIdx v)) = true
      · by_cases h1 : present (s.frame (addrOf (s.frame (addrOf (s.frame (addrOf
            (s.frame M.pml4 (pml4Idx v))) (pdptIdx v))) (pdIdx v))) (ptIdx v)) = true
        · simp [h2, h1, next]
        · simp [h2, h1, next]
      · simp [h2, next]
    · simp [h3, next]
  · simp [h4, next]

lemma findPhysaddr_of_lookup {v f : ℕ} (h : lookup M s v = some f) :
    findPhysaddr M s v = f + v % 4096 := by
  rw [findPhysaddr_eq, h]; rfl

lemma findPhysaddr_of_none {v : ℕ} (h : lookup M s v = none) : findPhysaddr M s v = 0 := by
  rw [findPhysaddr_eq, h]; rfl

lemma findPhysaddr_congr {s s' : Paging} {v : ℕ} (h : lookup M s v = lookup M s' v) :
    findPhysaddr M s v = findPhysaddr M s' v := by
  rw [findPhysaddr_eq, findPhysaddr_eq, h]

/-! ### Stores -/

@[simp] lemma bmap_write (s : Paging) (t i e : ℕ) : (s.write t i e).bmap = s.bmap := rfl
@[simp] lemma bmap_memset (s : Paging) (p : ℕ) : (s.memset p).bmap = s.bmap := rfl

lemma frame_write (s : Paging) (t i e x j : ℕ) :
    (s.write t i e).frame x j = if x = t ∧ j = i then e else s.frame x j := by
  unfold Paging.write
  by_cases hx : x = t
  · subst hx
    by_cases hj : j = i
    · subst hj; simp
    · simp [hj]
  · simp [hx]

lemma frame_memset (s : Paging) (p x j : ℕ) :
    (s.memset p).frame x j = if x = p then 0 else s.frame x j := by
  unfold Paging.memset
  by_cases hx : x = p
  · subst hx; simp
  · simp [hx]

end FlameOS.PageTable
