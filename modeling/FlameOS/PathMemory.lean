import FlameOS.ByteMem
import FlameOS.OpenPath

/-!
What `fopen` makes of a path in memory: the array of pointers, and the components as strings in
the buffers.

Here the stores go to the bytes of memory, at the addresses that `malloc` returned, so that the
null pointer behind the array goes to whatever block is there. The blocks do not meet, and so the
components come out one by one.
-/

namespace FlameOS.PathMemory

open FlameOS.PageTable FlameOS.MapRun FlameOS.HeapTable FlameOS.HeapArena FlameOS.Heap
open FlameOS.FatName (FILENAME_LENGTH)
open FlameOS.FileSystem FlameOS.ByteMem FlameOS.OpenPath

/-! ### The blocks of a path -/

variable {M : Machine} {h : Heap.State} {size : ℕ} {sizes : List ℕ}

/-- A call of `malloc` fails and leaves the blocks, or adds one that meets no other. -/
lemma malloc_spec (hs : Sound h.tables) (size : ℕ) :
    Sound (malloc M size h).state.tables ∧
      (((malloc M size h).ptr = 0 ∧
          ∀ heap b, Live (malloc M size h).state.tables heap b ↔ Live h.tables heap b) ∨
        (kernelHeap ≤ (malloc M size h).ptr ∧ (malloc M size h).ptr + size ≤ kernelStack ∧
          0 < size ∧
          (∀ heap b, Live (malloc M size h).state.tables heap b ↔
            Live h.tables heap b ∨ (heap = 0 ∧ b = ⟨(malloc M size h).ptr, size⟩)) ∧
          ∀ b, Live h.tables 0 b → Disjoint (bytes ⟨(malloc M size h).ptr, size⟩) (bytes b))) := by
  unfold malloc
  have hs' := hs.takeBlock size 0
  have htab := tables_mallocHeap (M := M) size 0 h
  rw [htab]
  refine ⟨hs', ?_⟩
  rcases ht : takeBlock size 0 h.tables with ⟨_ | addr, t⟩
  · refine Or.inl ⟨by rw [mallocHeap_none ht], fun heap b => ?_⟩
    unfold Live
    have hall : t.allocations = h.tables.allocations := by
      rcases takeBlock_cases size 0 h.tables with hr | ⟨-, -, i, -, hr | ⟨k, -, hr⟩⟩ <;>
        rw [hr] at ht <;> cases ht
      · rfl
      · rfl
    rw [hall]
  · rw [ht] at hs'
    obtain ⟨-, hpos, -⟩ := takeBlock_some ht
    have hlive := live_takeBlock ht
    have hnew : Live t 0 ⟨addr, size⟩ := (hlive 0 _).mpr (Or.inr ⟨rfl, rfl⟩)
    obtain ⟨hlo, hhi⟩ := hs'.within (by decide) hnew
    rw [mallocHeap_some ht, ptr_block]
    exact Or.inr ⟨hlo, hhi, hpos, hlive, fun b hb => hs.fresh ht (by decide) hb⟩

def InHeap (x : ℕ × ℕ) : Prop := kernelHeap ≤ x.1 ∧ x.1 + x.2 ≤ kernelStack ∧ 0 < x.2

/-- Blocks of calls that did not fail do not meet. -/
def Apart (x y : ℕ × ℕ) : Prop := x.1 ≠ 0 → y.1 ≠ 0 → x.1 + x.2 ≤ y.1 ∨ y.1 + y.2 ≤ x.1

lemma apart_of_disjoint {x y : ℕ × ℕ} (hx : 0 < x.2) (hy : 0 < y.2)
    (hd : Disjoint (bytes ⟨x.1, x.2⟩) (bytes ⟨y.1, y.2⟩)) : x.1 + x.2 ≤ y.1 ∨ y.1 + y.2 ≤ x.1 := by
  by_contra hc
  rw [not_or, not_le, not_le] at hc
  have hmem : max x.1 y.1 ∈ bytes ⟨x.1, x.2⟩ :=
    mem_bytes.mpr ⟨le_max_left _ _, max_lt (by dsimp only; omega) (by dsimp only; omega)⟩
  exact Set.disjoint_left.mp hd hmem
    (mem_bytes.mpr ⟨le_max_right _ _, max_lt (by dsimp only; omega) (by dsimp only; omega)⟩)

lemma mallocs_spec (hs : Sound h.tables) :
    (∀ x ∈ (mallocs M sizes h).1.zip sizes, x.1 ≠ 0 →
      InHeap x ∧ ∀ b, Live h.tables 0 b → Disjoint (bytes ⟨x.1, x.2⟩) (bytes b)) ∧
    ((mallocs M sizes h).1.zip sizes).Pairwise Apart := by
  induction sizes generalizing h with
  | nil => exact ⟨fun x hx => absurd hx List.not_mem_nil, List.Pairwise.nil⟩
  | cons size sizes ih =>
    obtain ⟨hs₁, hcase⟩ := malloc_spec (M := M) hs size
    obtain ⟨hall, hpair⟩ := ih hs₁
    rw [mallocs, List.zip_cons_cons]
    rcases hcase with ⟨h0, hlive⟩ | ⟨hlo, hhi, hpos, hlive, hfresh⟩
    · refine ⟨fun x hx hx0 => ?_, List.pairwise_cons.mpr ⟨fun y _ hx0 => absurd h0 hx0, hpair⟩⟩
      rcases List.mem_cons.mp hx with rfl | hx
      · exact absurd h0 hx0
      · obtain ⟨hin, hdis⟩ := hall x hx hx0
        exact ⟨hin, fun b hb => hdis b ((hlive 0 b).mpr hb)⟩
    · refine ⟨fun x hx hx0 => ?_, List.pairwise_cons.mpr ⟨fun y hy _ hy0 => ?_, hpair⟩⟩
      · rcases List.mem_cons.mp hx with rfl | hx
        · exact ⟨⟨hlo, hhi, hpos⟩, hfresh⟩
        · obtain ⟨hin, hdis⟩ := hall x hx hx0
          exact ⟨hin, fun b hb => hdis b ((hlive 0 b).mpr (Or.inl hb))⟩
      · obtain ⟨hin, hdis⟩ := hall y hy hy0
        have hd := hdis _ ((hlive 0 _).mpr (Or.inr ⟨rfl, rfl⟩))
        exact apart_of_disjoint hpos hin.2.2 hd.symm

/-! ### The stores -/

/-- The memory after a store, if `fpath` is `arr`. -/
def runStore (arr : ℕ) (m : Mem) : Store → Mem
  | .slot index ptr => put m (arr + sizeofPtr * index.toNat) (bytes64 ptr)
  | .char j i c => put m (load64 m (arr + sizeofPtr * j.toNat) + i.toNat) [c]

/-- The memory when `fopen` has gone over the path, if it got the blocks `ptrs`. -/
def pathMemory (path : List UInt8) (ptrs : List ℕ) (m : Mem) : Mem :=
  (pathStores path ptrs.tail).foldl (runStore (ptrs.headD 0)) m

variable {m : Mem} {arr : ℕ}

/-- The array is filled from left to right, and the null pointer comes one element late. -/
lemma foldl_fillArray {i : UInt32} {qs : List ℕ} (hlt : i.toNat + qs.length + 1 < 2 ^ 32) :
    (fillArray i qs).foldl (runStore arr) m =
      put (put m (arr + sizeofPtr * i.toNat) (qs.flatMap bytes64))
        (arr + sizeofPtr * (i.toNat + qs.length + 1)) (bytes64 0) := by
  have hi1 : (i + 1).toNat = i.toNat + 1 := toNat_add_one (by omega)
  induction qs generalizing i m with
  | nil =>
    rw [fillArray, List.foldl_cons, List.foldl_nil, List.flatMap_nil, put_nil, runStore, hi1]
    rfl
  | cons q qs ih =>
    rw [List.length_cons] at hlt
    have hi2 : (i + 1 + 1).toNat = (i + 1).toNat + 1 := toNat_add_one (by omega)
    have hnext : arr + sizeofPtr * (i.toNat + 1) = arr + sizeofPtr * i.toNat + 8 := by
      unfold sizeofPtr
      omega
    have hlast : i.toNat + 1 + qs.length + 1 = i.toNat + (qs.length + 1) + 1 := by omega
    rw [fillArray, List.foldl_cons, runStore, ih (by omega) hi2, hi1, List.flatMap_cons,
      ← put_append, length_bytes64, List.length_cons, hnext, hlast]

lemma foldl_chars {q : ℕ} {j i k : UInt32} {d rest : List UInt8} (hd : 0x2F ∉ d)
    (hk : k.toNat = i.toNat + d.length) (hq : load64 m (arr + sizeofPtr * j.toNat) = q)
    (hapart : q + k.toNat ≤ arr + sizeofPtr * j.toNat ∨
      arr + sizeofPtr * j.toNat + sizeofPtr ≤ q) :
    (splitPath (d ++ rest) j i).foldl (runStore arr) m =
      (splitPath rest j k).foldl (runStore arr) (put m (q + i.toNat) d) := by
  have hlt := k.toNat_lt
  induction d generalizing i m with
  | nil =>
    rw [List.length_nil, Nat.add_zero] at hk
    rw [List.nil_append, put_nil, UInt32.toNat_inj.mp hk]
  | cons b d ih =>
    rw [List.mem_cons, not_or] at hd
    rw [List.length_cons] at hk
    have hi1 : (i + 1).toNat = i.toNat + 1 := toNat_add_one (by omega)
    have hput : put (put m (q + i.toNat) [b]) (q + (i + 1).toNat) d = put m (q + i.toNat) (b :: d) := by
      rw [hi1, ← Nat.add_assoc]
      exact put_append d
    rw [List.cons_append, splitPath, if_neg (Ne.symm hd.1), List.foldl_cons, runStore, hq,
      ih hd.2 (by omega) ?_, hput]
    rw [load64_put_of_disjoint, hq]
    unfold sizeofPtr at *
    rw [List.length_singleton]
    omega

/-- The components in their buffers, all but the last one with a terminator. -/
def putNames : Mem → List ℕ → List (List UInt8) → Mem
  | m, q :: _, [c] => put m q c
  | m, q :: qs, c :: d :: cs => putNames (put m q (c ++ [0])) qs (d :: cs)
  | m, _, _ => m

/-- The components are short enough for the buffers, and have no slash in them. -/
def Names (cs : List (List UInt8)) : Prop := ∀ c ∈ cs, 0x2F ∉ c ∧ c.length < FILENAME_LENGTH

variable {qs : List ℕ} {cs : List (List UInt8)}

section component

variable {j : UInt32} {q : ℕ} {d : List UInt8}

/-- A component that fits goes to its buffer as it is. -/
lemma foldl_name (hd : 0x2F ∉ d) (hshort : d.length < FILENAME_LENGTH)
    (hq : load64 m (arr + sizeofPtr * j.toNat) = q)
    (hapart : q + FILENAME_LENGTH ≤ arr + sizeofPtr * j.toNat ∨
      arr + sizeofPtr * (j.toNat + 1) ≤ q) (rest : List UInt8) :
    (splitPath (d ++ rest) j 0).foldl (runStore arr) m =
      (splitPath rest j d.length.toUInt32).foldl (runStore arr) (put m q d) := by
  have hk : (d.length.toUInt32).toNat = d.length := by
    unfold FILENAME_LENGTH at hshort
    exact Nat.mod_eq_of_lt (by omega)
  rw [foldl_chars (k := d.length.toUInt32) hd (by rw [hk, UInt32.toNat_zero, Nat.zero_add]) hq,
    UInt32.toNat_zero, Nat.add_zero]
  rw [hk]
  unfold sizeofPtr FILENAME_LENGTH at *
  omega

/-- The slash behind a component becomes its terminator. -/
lemma foldl_component (hd : 0x2F ∉ d) (hshort : d.length < FILENAME_LENGTH)
    (hq : load64 m (arr + sizeofPtr * j.toNat) = q)
    (hapart : q + FILENAME_LENGTH ≤ arr + sizeofPtr * j.toNat ∨
      arr + sizeofPtr * (j.toNat + 1) ≤ q) (rest : List UInt8) :
    (splitPath (d ++ 0x2F :: rest) j 0).foldl (runStore arr) m =
      (splitPath rest (j + 1) 0).foldl (runStore arr) (put m q (d ++ [0])) := by
  have hk : (d.length.toUInt32).toNat = d.length := by
    unfold FILENAME_LENGTH at hshort
    exact Nat.mod_eq_of_lt (by omega)
  have hput : load64 (put m q d) (arr + sizeofPtr * j.toNat) = q := by
    rw [load64_put_of_disjoint, hq]
    unfold sizeofPtr FILENAME_LENGTH at *
    omega
  rw [foldl_name hd hshort hq hapart, splitPath, if_pos rfl, List.foldl_cons, runStore, hput, hk,
    put_append]

end component

/-- The second loop puts the components into the buffers and ends the array. -/
lemma foldl_splitPath {j : UInt32} (hne : cs ≠ []) (hcs : Names cs) (hlen : qs.length = cs.length)
    (hlt : j.toNat + cs.length < 2 ^ 32)
    (hslots : ∀ k (hk : k < qs.length), load64 m (arr + sizeofPtr * (j.toNat + k)) = qs[k])
    (hapart : ∀ q ∈ qs, q + FILENAME_LENGTH ≤ arr + sizeofPtr * j.toNat ∨
      arr + sizeofPtr * (j.toNat + qs.length) ≤ q) :
    (splitPath ([0x2F].intercalate cs) j 0).foldl (runStore arr) m =
      put (putNames m qs cs) (arr + sizeofPtr * (j.toNat + cs.length)) (bytes64 0) := by
  induction cs generalizing qs j m with
  | nil => exact absurd rfl hne
  | cons c cs ih =>
    obtain ⟨q, qs, rfl⟩ := List.exists_cons_of_length_eq_add_one hlen
    have hj1 : (j + 1).toNat = j.toNat + 1 := by
      rw [List.length_cons] at hlt
      exact toNat_add_one (by omega)
    obtain ⟨hslash, hshort⟩ := hcs c List.mem_cons_self
    have hq : load64 m (arr + sizeofPtr * j.toNat) = q := hslots 0 (Nat.succ_pos _)
    have hqa : q + FILENAME_LENGTH ≤ arr + sizeofPtr * j.toNat ∨
        arr + sizeofPtr * (j.toNat + 1) ≤ q := by
      have h := hapart q List.mem_cons_self
      rw [List.length_cons] at h
      unfold sizeofPtr at *
      omega
    rcases cs with _ | ⟨d, cs⟩
    · have hname := foldl_name hslash hshort hq hqa []
      rw [List.append_nil] at hname
      rw [List.intercalate_singleton, hname, splitPath, List.foldl_cons, List.foldl_nil, runStore,
        hj1, putNames]
      rfl
    · have hslots' : ∀ k (hk : k < qs.length),
          load64 (put m q (c ++ [0])) (arr + sizeofPtr * ((j + 1).toNat + k)) = qs[k] := by
        intro k hk
        have hold := hslots (k + 1) (Nat.succ_lt_succ hk)
        have hadd : (j + 1).toNat + k = j.toNat + (k + 1) := by omega
        rw [hadd, load64_put_of_disjoint, hold, List.getElem_cons_succ]
        have h := hapart q List.mem_cons_self
        rw [List.length_cons] at h
        rw [List.length_append, List.length_singleton]
        unfold sizeofPtr FILENAME_LENGTH at *
        omega
      have hapart' : ∀ e ∈ qs, e + FILENAME_LENGTH ≤ arr + sizeofPtr * (j + 1).toNat ∨
          arr + sizeofPtr * ((j + 1).toNat + qs.length) ≤ e := by
        intro e he
        have hold := hapart e (List.mem_cons_of_mem _ he)
        rw [List.length_cons] at hold
        rw [hj1]
        unfold sizeofPtr FILENAME_LENGTH at *
        omega
      have hlt' : (j + 1).toNat + (d :: cs).length < 2 ^ 32 := by
        rw [List.length_cons] at hlt
        omega
      have hadd : (j + 1).toNat + (d :: cs).length = j.toNat + (c :: d :: cs).length := by
        rw [hj1, List.length_cons, List.length_cons, List.length_cons]
        omega
      rw [List.intercalate_cons_cons, List.append_assoc, List.singleton_append,
        foldl_component hslash hshort hq hqa, ih (List.cons_ne_nil _ _)
          (fun e he => hcs e (List.mem_cons_of_mem _ he)) (Nat.succ_injective hlen) hlt' hslots'
          hapart', hadd, putNames]

lemma putNames_of_notMem {x : ℕ} (hcs : Names cs)
    (hx : ∀ q ∈ qs, ¬ (q ≤ x ∧ x < q + FILENAME_LENGTH)) : putNames m qs cs x = m x := by
  induction cs generalizing qs m with
  | nil =>
    rcases qs with _ | ⟨q, qs⟩
    · rfl
    · rfl
  | cons c cs ih =>
    rcases qs with _ | ⟨q, qs⟩
    · rcases cs with _ | ⟨d, cs⟩
      · rfl
      · rfl
    · have hq := hx q List.mem_cons_self
      have hshort := (hcs c List.mem_cons_self).2
      rcases cs with _ | ⟨d, cs⟩
      · exact put_of_notMem (by omega)
      · rw [putNames, ih (fun e he => hcs e (List.mem_cons_of_mem _ he)) fun e he =>
          hx e (List.mem_cons_of_mem _ he), put_of_notMem]
        rw [List.length_append, List.length_singleton]
        omega

/-- What is in the buffers: behind the last component there is what was there before. -/
lemma putNames_buffer {k i : ℕ} (hcs : Names cs) (hlen : qs.length = cs.length)
    (hpair : qs.Pairwise fun p q => p + FILENAME_LENGTH ≤ q ∨ q + FILENAME_LENGTH ≤ p)
    (hk : k < cs.length) (hi : i < FILENAME_LENGTH) :
    putNames m qs cs (qs[k] + i) =
      if i < cs[k].length then cs[k].getD i 0
      else if i = cs[k].length ∧ k + 1 < cs.length then 0 else m (qs[k] + i) := by
  induction cs generalizing qs m k with
  | nil => exact absurd hk (Nat.not_lt_zero k)
  | cons c cs ih =>
    obtain ⟨q, qs, rfl⟩ := List.exists_cons_of_length_eq_add_one hlen
    obtain ⟨hfirst, hpair⟩ := List.pairwise_cons.mp hpair
    have hcs' : Names cs := fun e he => hcs e (List.mem_cons_of_mem _ he)
    have hshort := (hcs c List.mem_cons_self).2
    have hlen' : qs.length = cs.length := Nat.succ_injective hlen
    rcases cs with _ | ⟨d, cs⟩
    · obtain rfl : k = 0 := by simpa using hk
      rw [putNames]
      dsimp only [List.getElem_cons_zero]
      by_cases hic : i < c.length
      · rw [if_pos hic, put_of_mem (by omega) (by omega), Nat.add_sub_cancel_left]
      · rw [if_neg hic, if_neg (by simp), put_of_notMem (by omega)]
    · rw [putNames]
      cases k with
      | zero =>
        dsimp only [List.getElem_cons_zero]
        rw [putNames_of_notMem hcs' fun e he => ?_]
        · by_cases hic : i < c.length
          · rw [if_pos hic, put_of_mem (by omega) (by rw [List.length_append]; omega),
              Nat.add_sub_cancel_left, List.getD_append _ _ _ _ hic]
          · rw [if_neg hic]
            by_cases hieq : i = c.length
            · rw [if_pos ⟨hieq, by simp⟩,
                put_of_mem (by omega) (by rw [List.length_append, List.length_singleton]; omega),
                Nat.add_sub_cancel_left, List.getD_append_right _ _ _ _ (by omega), hieq,
                Nat.sub_self]
              rfl
            · rw [if_neg fun hc => hieq hc.1, put_of_notMem]
              rw [List.length_append, List.length_singleton]
              omega
        · have := hfirst e he
          omega
      | succ k =>
        have hk' : k < (d :: cs).length := Nat.lt_of_succ_lt_succ hk
        have hkq : k < qs.length := hlen' ▸ hk'
        rw [List.getElem_cons_succ, ih hcs' hlen' hpair hk']
        have hold : put m q (c ++ [0]) (qs[k] + i) = m (qs[k] + i) := by
          have := hfirst qs[k] (List.getElem_mem hkq)
          refine put_of_notMem ?_
          rw [List.length_append, List.length_singleton]
          omega
        have hsucc : (k + 1 + 1 < (c :: d :: cs).length) = (k + 1 < (d :: cs).length) :=
          propext (Nat.succ_lt_succ_iff)
        rw [hold]
        simp only [List.getElem_cons_succ, hsucc]

/-! ### The path -/

/-- The bytes at `a` are the string, with its terminator. -/
def IsString (m : Mem) (a : ℕ) (c : List UInt8) : Prop :=
  ∀ i ≤ c.length, m (a + i) = c.getD i 0

/-- An array at `arr`, of `size` bytes, of pointers to the strings and of a null pointer. -/
structure IsPath (m : Mem) (arr size : ℕ) (cs : List (List UInt8)) : Prop where
  array : arr ≠ 0
  room : (cs.length + 1) * sizeofPtr ≤ size
  strings : ∀ k (hk : k < cs.length), load64 m (arr + sizeofPtr * k) ≠ 0 ∧
    IsString m (load64 m (arr + sizeofPtr * k)) cs[k]
  null : load64 m (arr + sizeofPtr * cs.length) = 0

/-- The path with the letter `c` and the components `cs`. -/
def pathOf (c : UInt8) (cs : List (List UInt8)) : List UInt8 :=
  0x7C :: c :: 0x2F :: [0x2F].intercalate cs

lemma count_intercalate (hne : cs ≠ []) (hcs : ∀ c ∈ cs, 0x2F ∉ c) :
    ([0x2F].intercalate cs : List UInt8).count 0x2F + 1 = cs.length := by
  induction cs with
  | nil => exact absurd rfl hne
  | cons c cs ih =>
    have hc := List.count_eq_zero_of_not_mem (hcs c List.mem_cons_self)
    rcases cs with _ | ⟨d, cs⟩
    · rw [List.intercalate_singleton, hc]
      rfl
    · have hrest := ih (List.cons_ne_nil _ _) fun e he => hcs e (List.mem_cons_of_mem _ he)
      rw [List.intercalate_cons_cons, List.count_append, List.count_append, hc, List.length_cons,
        ← hrest, List.count_singleton_self]
      omega

section pathOf

variable {c : UInt8} (hc : 0x41 ≤ c ∧ c ≤ 0x5A) (hne : cs ≠ []) (hslash : ∀ d ∈ cs, 0x2F ∉ d)

include hc

lemma checkVolume_pathOf :
    checkVolume (pathOf c cs) = some (c - 0x41, [0x2F].intercalate cs) := by
  have hletter := (letter_cases c).mpr (Or.inl hc)
  rw [pathOf, checkVolume, if_neg (by simp), if_neg hletter, if_neg (by simp)]

include hne hslash

lemma count_pathOf : (pathOf c cs).count 0x2F = cs.length := by
  have hcne : c ≠ 0x2F := by
    rintro rfl
    exact absurd hc.1 (by decide)
  rw [pathOf, List.count_cons_of_ne (by decide), List.count_cons_of_ne hcne, List.count_cons_self,
    count_intercalate hne hslash]

end pathOf

/-- The blocks for the components `cs` of a path: the buffers `qs` do not reach into the array
at `arr`. -/
structure Laid (arr : ℕ) (qs : List ℕ) (cs : List (List UInt8)) : Prop where
  ne : cs ≠ []
  names : Names cs
  length : qs.length = cs.length
  lt : cs.length + 1 < 2 ^ 32
  bound : ∀ q ∈ qs, q < 2 ^ 64
  apart : ∀ q ∈ qs, q + FILENAME_LENGTH ≤ arr ∨ arr + sizeofPtr * (cs.length + 1) ≤ q

namespace Laid

variable (hl : Laid arr qs cs) {c : UInt8} (hc : 0x41 ≤ c ∧ c ≤ 0x5A)

include hl

lemma slot_filled {k : ℕ} (hk : k < qs.length) :
    load64 (put (put m arr (qs.flatMap bytes64)) (arr + sizeofPtr * (qs.length + 1)) (bytes64 0))
      (arr + sizeofPtr * k) = qs[k] := by
  rw [load64_put_of_disjoint]
  · exact load64_put_flatMap hl.bound hk
  · unfold sizeofPtr
    omega

include hc

lemma pathMemory_eq : pathMemory (pathOf c cs) (arr :: qs) m =
    put (putNames (put (put m arr (qs.flatMap bytes64)) (arr + sizeofPtr * (qs.length + 1))
      (bytes64 0)) qs cs) (arr + sizeofPtr * cs.length) (bytes64 0) := by
  have hlt := hl.lt
  have hlen := hl.length
  have hcount := count_pathOf hc hl.ne fun d hd => (hl.names d hd).1
  have hdirs : dirs (pathOf c cs) ≠ 0 := by
    intro h0
    have hmod := toNat_dirs (pathOf c cs)
    rw [h0, hcount, Nat.mod_eq_of_lt (by omega)] at hmod
    exact hl.ne (List.length_eq_zero_iff.mp hmod.symm)
  have hfill := @foldl_fillArray m arr 0 qs (by rw [hlen]; simpa using hlt)
  rw [UInt32.toNat_zero, Nat.zero_add, Nat.mul_zero, Nat.add_zero] at hfill
  have hslots : ∀ k (hk : k < qs.length),
      load64 (put (put m arr (qs.flatMap bytes64)) (arr + sizeofPtr * (qs.length + 1)) (bytes64 0))
        (arr + sizeofPtr * ((0 : UInt32).toNat + k)) = qs[k] := by
    intro k hk
    rw [UInt32.toNat_zero, Nat.zero_add]
    exact hl.slot_filled hk
  have hsplit := foldl_splitPath hl.ne hl.names hlen (by rw [UInt32.toNat_zero]; omega) hslots
    fun q hq => by
      have := hl.apart q hq
      rw [UInt32.toNat_zero, hlen]
      unfold sizeofPtr at *
      omega
  rw [UInt32.toNat_zero, Nat.zero_add] at hsplit
  rw [pathMemory, pathStores, if_neg hdirs, checkVolume_pathOf hc, List.tail_cons, List.headD_cons,
    List.foldl_append, hfill, hsplit]

lemma slot {k : ℕ} (hk : k < qs.length) :
    load64 (pathMemory (pathOf c cs) (arr :: qs) m) (arr + sizeofPtr * k) = qs[k] := by
  have hlen := hl.length
  have hbefore : arr + sizeofPtr * k + 8 ≤ arr + sizeofPtr * cs.length := by
    unfold sizeofPtr
    omega
  rw [hl.pathMemory_eq hc, load64_put_of_disjoint (Or.inl hbefore), ← hl.slot_filled hk]
  refine load64_congr fun i hi => putNames_of_notMem hl.names fun q hq => ?_
  have := hl.apart q hq
  unfold sizeofPtr at *
  omega

lemma null :
    load64 (pathMemory (pathOf c cs) (arr :: qs) m) (arr + sizeofPtr * cs.length) = 0 := by
  rw [hl.pathMemory_eq hc]
  exact load64_put 0 (Nat.two_pow_pos 64)

/-- The bytes of the buffers. Behind the last component there is what was there before, unless
the null pointer behind the array went there. -/
lemma byte {k i : ℕ}
    (hpair : qs.Pairwise fun p q => p + FILENAME_LENGTH ≤ q ∨ q + FILENAME_LENGTH ≤ p)
    (hk : k < cs.length) (hkq : k < qs.length) (hi : i < FILENAME_LENGTH) :
    pathMemory (pathOf c cs) (arr :: qs) m (qs[k] + i) =
      if i < cs[k].length then cs[k].getD i 0
      else if i = cs[k].length ∧ k + 1 < cs.length then 0
      else put m (arr + sizeofPtr * (cs.length + 1)) (bytes64 0) (qs[k] + i) := by
  have hlen := hl.length
  have hap := hl.apart qs[k] (List.getElem_mem hkq)
  have hout : ¬ (arr + sizeofPtr * cs.length ≤ qs[k] + i ∧
      qs[k] + i < arr + sizeofPtr * cs.length + (bytes64 0).length) := by
    rw [length_bytes64]
    unfold sizeofPtr at *
    omega
  rw [hl.pathMemory_eq hc, put_of_notMem hout, putNames_buffer hl.names hlen hpair hk hi]
  have hbefore : arr + (qs.flatMap bytes64).length ≤ arr + sizeofPtr * (cs.length + 1) := by
    rw [length_flatMap_bytes64, hlen]
    unfold sizeofPtr
    omega
  have hfilled : put (put m arr (qs.flatMap bytes64)) (arr + sizeofPtr * (qs.length + 1))
      (bytes64 0) (qs[k] + i) = put m (arr + sizeofPtr * (cs.length + 1)) (bytes64 0) (qs[k] + i) := by
    rw [hlen, put_comm (Or.inl hbefore), put_of_notMem]
    rw [length_flatMap_bytes64]
    unfold sizeofPtr at *
    omega
  rw [hfilled]

end Laid

/-- The address is in the pointer behind the array of `n` pointers and their end, the one that
`fopen` makes null. -/
def Stray (arr n x : ℕ) : Prop :=
  arr + sizeofPtr * (n + 1) ≤ x ∧ x < arr + sizeofPtr * (n + 1) + sizeofPtr

lemma put_stray {n x : ℕ} : put m (arr + sizeofPtr * (n + 1)) (bytes64 0) x = 0 ↔
    m x = 0 ∨ Stray arr n x := by
  by_cases hx : Stray arr n x
  · refine iff_of_true ?_ (Or.inr hx)
    obtain ⟨hlo, hhi⟩ := hx
    unfold sizeofPtr at *
    have hzero : bytes64 0 = List.replicate 8 0 := by decide
    rw [put_of_mem hlo (by rw [length_bytes64]; exact hhi), hzero,
      List.getD_eq_getElem _ _ (by rw [List.length_replicate]; omega), List.getElem_replicate]
  · rw [or_iff_left hx, put_of_notMem]
    rw [length_bytes64]
    exact hx

lemma zip_replicate_length (qs : List ℕ) (size : ℕ) :
    qs.zip (List.replicate qs.length size) = qs.map fun q => (q, size) := by
  induction qs with
  | nil => rfl
  | cons q qs ih => rw [List.length_cons, List.replicate_succ, List.zip_cons_cons, ih, List.map_cons]

section mallocs

variable {c : UInt8} {arr : ℕ}

lemma zip_pathSizes {path : List UInt8} (hptrs : (mallocs M (pathSizes path) h).1 = arr :: qs) :
    (mallocs M (pathSizes path) h).1.zip (pathSizes path) =
      (arr, (dirs path + 1).toNat * sizeofPtr) :: qs.map fun q => (q, FILENAME_LENGTH) := by
  have hlen : qs.length = (dirs path).toNat := by
    have := length_buffers M path h
    rwa [hptrs] at this
  rw [hptrs, pathSizes, List.zip_cons_cons, ← hlen, zip_replicate_length]

/-- The blocks that a path gets, of which the first and the others are told apart. -/
lemma mallocs_path (hs : Sound h.tables) {path : List UInt8}
    (hptrs : (mallocs M (pathSizes path) h).1 = arr :: qs) (harr : arr ≠ 0) :
    0 < (dirs path + 1).toNat ∧
    (∀ q ∈ qs, q < 2 ^ 64 ∧ (q + FILENAME_LENGTH ≤ arr ∨
      arr + (dirs path + 1).toNat * sizeofPtr ≤ q)) ∧
    ((∀ q ∈ qs, q ≠ 0) →
      qs.Pairwise fun p q => p + FILENAME_LENGTH ≤ q ∨ q + FILENAME_LENGTH ≤ p) := by
  obtain ⟨hall, hpair⟩ := @mallocs_spec M h (pathSizes path) hs
  rw [zip_pathSizes hptrs] at hall hpair
  obtain ⟨hfirst, hrest⟩ := List.pairwise_cons.mp hpair
  obtain ⟨hlo, -, hpos⟩ := (hall _ List.mem_cons_self harr).1
  dsimp only at hlo hpos
  have hheap : FILENAME_LENGTH ≤ kernelHeap ∧ kernelStack < 2 ^ 64 := by decide
  refine ⟨Nat.pos_of_mul_pos_right hpos, fun q hq => ?_, fun hnz => ?_⟩
  · have hmem : (q, FILENAME_LENGTH) ∈ qs.map fun q => (q, FILENAME_LENGTH) :=
      List.mem_map_of_mem hq
    by_cases hq0 : q = 0
    · subst hq0
      exact ⟨Nat.two_pow_pos 64, Or.inl (by omega)⟩
    · obtain ⟨-, hhi, -⟩ := (hall _ (List.mem_cons_of_mem _ hmem) hq0).1
      dsimp only at hhi
      refine ⟨by omega, ?_⟩
      exact (hfirst _ hmem harr hq0).symm
  · rw [List.pairwise_map] at hrest
    refine hrest.imp_of_mem fun {p q} hp hq hap => ?_
    exact hap (hnz p hp) (hnz q hq)

end mallocs

/-! ### Paths that are split -/

section split

variable {c : UInt8} {arr : ℕ} (hc : 0x41 ≤ c ∧ c ≤ 0x5A)

include hc

/-- The size of the array, in pointers. -/
lemma toNat_dirs_add_one (hne : cs ≠ []) (hcs : Names cs) :
    (dirs (pathOf c cs) + 1).toNat = (cs.length % 2 ^ 32 + 1) % 2 ^ 32 := by
  have hdirs := toNat_dirs (pathOf c cs)
  rw [count_pathOf hc hne fun d hd => (hcs d hd).1] at hdirs
  rw [UInt32.toNat_add, hdirs]
  rfl

/-- The blocks are laid out once there is an array, for fewer components than 2^32. -/
lemma laid_mallocs (hs : Sound h.tables) (hne : cs ≠ []) (hcs : Names cs)
    (hptrs : (mallocs M (pathSizes (pathOf c cs)) h).1 = arr :: qs) (harr : arr ≠ 0)
    (hlt : cs.length < 2 ^ 32) : Laid arr qs cs := by
  obtain ⟨hpos, hbuf, -⟩ := mallocs_path hs hptrs harr
  have hsucc := toNat_dirs_add_one hc hne hcs
  have hdirs := toNat_dirs (pathOf c cs)
  rw [count_pathOf hc hne fun d hd => (hcs d hd).1] at hdirs
  have hqs : qs.length = (dirs (pathOf c cs)).toNat := by
    have := length_buffers M (pathOf c cs) h
    rwa [hptrs] at this
  refine ⟨hne, hcs, by omega, by omega, fun q hq => (hbuf q hq).1, fun q hq => ?_⟩
  have hout := (hbuf q hq).2
  have hsize : (dirs (pathOf c cs) + 1).toNat = cs.length + 1 := by omega
  rwa [hsize, Nat.mul_comm] at hout

namespace Laid

variable (hl : Laid arr qs cs)
  (hpair : qs.Pairwise fun p q => p + FILENAME_LENGTH ≤ q ∨ q + FILENAME_LENGTH ≤ p)

include hl

omit hc in
lemma getD_last (hk : cs.length - 1 < qs.length) :
    (arr :: qs).getD cs.length 0 = qs[cs.length - 1] := by
  have hpos : 0 < cs.length := List.length_pos_iff.mpr hl.ne
  obtain ⟨n, hn⟩ := Nat.exists_eq_add_of_lt hpos
  rw [List.getD_eq_getElem _ _ (by rw [List.length_cons]; omega)]
  simp only [hn, Nat.zero_add, List.getElem_cons_succ, Nat.add_sub_cancel]

omit hc in
lemma pred_lt : cs.length - 1 < cs.length ∧ cs.length - 1 < qs.length := by
  have hpos : 0 < cs.length := List.length_pos_iff.mpr hl.ne
  rw [hl.length]
  exact ⟨Nat.sub_lt hpos Nat.one_pos, Nat.sub_lt hpos Nat.one_pos⟩

lemma ne_zero_of_isPath {size : ℕ} (hp : IsPath (pathMemory (pathOf c cs) (arr :: qs) m) arr size cs) :
    ∀ q ∈ qs, q ≠ 0 := by
  intro q hq
  obtain ⟨k, hk, rfl⟩ := List.getElem_of_mem hq
  rw [← hl.slot (m := m) hc hk]
  exact (hp.strings k (hl.length ▸ hk)).1

include hpair

lemma end_iff {last : ℕ}
    (hlast : last = (arr :: qs).getD cs.length 0 + (cs.getLast hl.ne).length) :
    pathMemory (pathOf c cs) (arr :: qs) m last = 0 ↔ m last = 0 ∨ Stray arr cs.length last := by
  obtain ⟨hk, hkq⟩ := hl.pred_lt
  have hget : cs[cs.length - 1] = cs.getLast hl.ne := (List.getLast_eq_getElem hl.ne).symm
  have hshort := (hl.names _ (List.getLast_mem hl.ne)).2
  have hbyte := hl.byte (m := m) hc hpair hk hkq hshort
  rw [hget, if_neg (Nat.lt_irrefl _), if_neg (by omega), ← hl.getD_last hkq, ← hlast] at hbyte
  rw [hbyte]
  exact put_stray

/-- The components are strings exactly if the last one is. -/
lemma isPath_iff {last : ℕ}
    (hlast : last = (arr :: qs).getD cs.length 0 + (cs.getLast hl.ne).length) (harr : arr ≠ 0)
    (hnz : ∀ q ∈ qs, q ≠ 0) :
    IsPath (pathMemory (pathOf c cs) (arr :: qs) m) arr ((cs.length + 1) * sizeofPtr) cs ↔
      pathMemory (pathOf c cs) (arr :: qs) m last = 0 := by
  obtain ⟨hpred, hpredq⟩ := hl.pred_lt
  have hget : cs[cs.length - 1] = cs.getLast hl.ne := (List.getLast_eq_getElem hl.ne).symm
  rw [hl.getD_last hpredq, ← hget] at hlast
  constructor
  · intro hp
    have hstr := (hp.strings _ hpred).2 _ (le_refl _)
    rw [hl.slot hc hpredq, ← hlast] at hstr
    rw [hstr]
    exact List.getD_eq_default _ _ (le_refl _)
  · intro hend
    refine ⟨harr, le_refl _, fun k hk => ?_, hl.null hc⟩
    have hkq : k < qs.length := hl.length ▸ hk
    rw [hl.slot hc hkq]
    refine ⟨hnz _ (List.getElem_mem hkq), fun i hi => ?_⟩
    have hshort := (hl.names _ (List.getElem_mem hk)).2
    rcases Nat.lt_or_eq_of_le hi with hic | rfl
    · rw [hl.byte hc hpair hk hkq (by omega), if_pos hic]
    · rw [List.getD_eq_default _ _ (le_refl _)]
      by_cases hbehind : k + 1 < cs.length
      · rw [hl.byte hc hpair hk hkq hshort, if_neg (Nat.lt_irrefl _), if_pos ⟨rfl, hbehind⟩]
      · obtain rfl : k = cs.length - 1 := by omega
        rw [← hlast]
        exact hend

end Laid

end split

/-- **Splitting a path.** When `fopen` has gone over a path with the components `cs`, its array
has pointers to the components as strings exactly if they are fewer than 2^32, `malloc` gave it
all the blocks, and the byte behind the last component was 0 before or is one that the null
pointer behind the array goes to. -/
theorem splits_path_iff (M : Machine) (calls : List Call) (p : Paging) (m : Mem) (c : UInt8)
    (hc : 0x41 ≤ c ∧ c ≤ 0x5A) (cs : List (List UInt8)) (hne : cs ≠ []) (hcs : Names cs) :
    let ptrs := (mallocs M (pathSizes (pathOf c cs)) (run M calls ⟨initMalloc, p⟩)).1
    let last := ptrs.getD cs.length 0 + (cs.getLast hne).length
    IsPath (pathMemory (pathOf c cs) ptrs m) (ptrs.headD 0)
      ((dirs (pathOf c cs) + 1).toNat * sizeofPtr) cs ↔
    cs.length < 2 ^ 32 ∧ (∀ q ∈ ptrs, q ≠ 0) ∧
      (m last = 0 ∨ Stray (ptrs.headD 0) cs.length last) := by
  intro ptrs last
  have hs : Sound (run M calls ⟨initMalloc, p⟩).tables := sound_initMalloc.run calls
  have hsize := toNat_dirs_add_one hc hne hcs
  have hlen : ptrs.length = (dirs (pathOf c cs)).toNat + 1 := by
    rw [length_mallocs, pathSizes, List.length_cons, List.length_replicate]
  obtain ⟨arr, qs, hptrs⟩ := List.exists_cons_of_length_eq_add_one hlen
  have hlast : last = (arr :: qs).getD cs.length 0 + (cs.getLast hne).length := by rw [← hptrs]
  rw [hptrs, List.headD_cons, List.forall_mem_cons]
  constructor
  · intro hp
    have hlt : cs.length < 2 ^ 32 := by
      have hroom := hp.room
      unfold sizeofPtr at hroom
      omega
    have hl := laid_mallocs hc hs hne hcs hptrs hp.array hlt
    have hnz := hl.ne_zero_of_isPath hc hp
    have hpair := (mallocs_path hs hptrs hp.array).2.2 hnz
    have hfit := hl.lt
    rw [hsize, Nat.mod_eq_of_lt hlt, Nat.mod_eq_of_lt hfit] at hp
    exact ⟨hlt, ⟨hp.array, hnz⟩, (hl.end_iff hc hpair hlast).mp
      ((hl.isPath_iff hc hpair hlast hp.array hnz).mp hp)⟩
  · rintro ⟨hlt, ⟨harr, hnz⟩, hbyte⟩
    have hl := laid_mallocs hc hs hne hcs hptrs harr hlt
    have hpair := (mallocs_path hs hptrs harr).2.2 hnz
    have hfit := hl.lt
    rw [hsize, Nat.mod_eq_of_lt hlt, Nat.mod_eq_of_lt hfit]
    exact (hl.isPath_iff hc hpair hlast harr hnz).mpr ((hl.end_iff hc hpair hlast).mpr hbyte)

def firstBlocks (path : List UInt8) : List ℕ :=
  (mallocs threeFrames (pathSizes path) (run threeFrames [] ⟨initMalloc, zeroed⟩)).1

/-- The second component of "|A/a/b" is ended by a byte that was 0. -/
theorem splits_path_iff_two :
    IsPath (pathMemory (pathOf 0x41 [[0x61], [0x62]]) (firstBlocks (pathOf 0x41 [[0x61], [0x62]]))
        fun x => if x = kernelHeap + 281 then 0 else 0xFF)
      ((firstBlocks (pathOf 0x41 [[0x61], [0x62]])).headD 0)
      ((dirs (pathOf 0x41 [[0x61], [0x62]]) + 1).toNat * sizeofPtr) [[0x61], [0x62]] := by
  have hnames : Names [[0x61], [0x62]] := by
    unfold Names
    simp only [List.mem_cons, List.not_mem_nil, or_false, forall_eq_or_imp, forall_eq]
    exact ⟨by decide, by decide⟩
  exact (splits_path_iff threeFrames [] zeroed (fun x => if x = kernelHeap + 281 then 0 else 0xFF)
    0x41 (by decide) [[0x61], [0x62]] (by simp) hnames).mpr
      ⟨by decide, by decide +kernel, Or.inl (by decide +kernel)⟩

/-- If that byte was not 0, it is not ended. -/
theorem not_splits_path :
    firstBlocks (pathOf 0x41 [[0x61], [0x62]]) =
        [kernelHeap, kernelHeap + 24, kernelHeap + 280] ∧
      pathMemory (pathOf 0x41 [[0x61], [0x62]]) (firstBlocks (pathOf 0x41 [[0x61], [0x62]]))
        (fun _ => 0xFF) (kernelHeap + 281) = 0xFF ∧
      ¬ IsPath (pathMemory (pathOf 0x41 [[0x61], [0x62]])
        (firstBlocks (pathOf 0x41 [[0x61], [0x62]])) fun _ => 0xFF) kernelHeap 24
          [[0x61], [0x62]] := by
  have hbyte : pathMemory (pathOf 0x41 [[0x61], [0x62]])
      (firstBlocks (pathOf 0x41 [[0x61], [0x62]])) (fun _ => 0xFF) (kernelHeap + 281) = 0xFF := by
    decide +kernel
  have hslot : load64 (pathMemory (pathOf 0x41 [[0x61], [0x62]])
      (firstBlocks (pathOf 0x41 [[0x61], [0x62]])) fun _ => 0xFF) (kernelHeap + sizeofPtr * 1) =
      kernelHeap + 280 := by
    decide +kernel
  refine ⟨by decide +kernel, hbyte, fun hp => ?_⟩
  have hstr := (hp.strings 1 (by decide)).2 1 (le_refl _)
  rw [hslot, Nat.add_assoc, hbyte] at hstr
  exact absurd hstr (by decide)

end FlameOS.PathMemory
