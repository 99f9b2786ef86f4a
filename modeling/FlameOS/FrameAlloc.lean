import FlameOS.Word
import FlameOS.WordSet

/-!
The physical page allocator of `memory.c`: `phys_page_alloc` and `phys_page_free` over the
freemap and the bitmap `pmem_bmap`.

Both functions walk the regions of the freemap with a word and a bit counter of their own.
What ties them together is the list `pages` of all pages in the order of the walk: each
loop stands at the page whose index the two counters spell.
-/

namespace FlameOS.FrameAlloc

open FlameOS.Word FlameOS.WordSet

def BITS_PER_ELEMENT : ℕ := 32

/-- `memory_t`: a region of physical memory, `blocks` pages from `addr` on. -/
structure MemoryT where
  addr : ℕ
  blocks : ℕ
  deriving DecidableEq

/-- The freemap array with whatever follows it in memory, the number of its entries, and
the number of entries of the firmware's memory map. -/
structure Freemap where
  freemap : ℕ → MemoryT
  fmDescs : ℕ
  mmDescs : ℕ

def Freemap.regions (f : Freemap) (n : ℕ) : List MemoryT := (List.range n).map f.freemap

def nextBit (h bit : ℕ) : ℕ × ℕ := if bit + 1 ≥ BITS_PER_ELEMENT then (h + 1, 0) else (h, bit + 1)

/-- The loop over one region in `phys_page_alloc`: the page found with its word and bit, or
the counters with which the next region starts. -/
def allocRegion (bmap : ℕ → ℕ) : ℕ → ℕ → ℕ → ℕ → (ℕ × ℕ × ℕ) ⊕ (ℕ × ℕ)
  | 0, _, h, bit => .inr (h, bit)
  | pages + 1, addr, h, bit =>
    if bmap h &&& 1 <<< bit ≠ 0 then
      allocRegion bmap pages (add64 addr PAGE_SIZE) (nextBit h bit).1 (nextBit h bit).2
    else .inl (addr, h, bit)

def allocRegions (bmap : ℕ → ℕ) : List MemoryT → ℕ → ℕ → Option (ℕ × ℕ × ℕ)
  | [], _, _ => none
  | r :: rs, h, bit =>
    match allocRegion bmap r.blocks r.addr h bit with
    | .inl found => some found
    | .inr (h, bit) => allocRegions bmap rs h bit

/-- `phys_page_alloc`: the page, or 0, and the bitmap after the call. -/
def physPageAlloc (f : Freemap) (bmap : ℕ → ℕ) : ℕ × (ℕ → ℕ) :=
  match allocRegions bmap (f.regions f.fmDescs) 0 0 with
  | some (addr, h, bit) => (addr, Function.update bmap h (bmap h ||| 1 <<< bit))
  | none => (0, bmap)

/-- The loop over one region in `phys_page_free`. -/
def freeRegion (addr : ℕ) : ℕ → ℕ → ℕ → ℕ → (ℕ × ℕ) ⊕ (ℕ × ℕ)
  | 0, _, h, bit => .inr (h, bit)
  | pages + 1, ptr, h, bit =>
    if ptr = addr then .inl (h, bit)
    else freeRegion addr pages (add64 ptr PAGE_SIZE) (nextBit h bit).1 (nextBit h bit).2

def freeRegions (addr : ℕ) : List MemoryT → ℕ → ℕ → Option (ℕ × ℕ)
  | [], _, _ => none
  | r :: rs, h, bit =>
    match freeRegion addr r.blocks r.addr h bit with
    | .inl found => some found
    | .inr (h, bit) => freeRegions addr rs h bit

/-- `phys_page_free`. Unlike `phys_page_alloc` it runs over `mm_descs` entries. -/
def physPageFree (f : Freemap) (addr : ℕ) (bmap : ℕ → ℕ) : ℕ → ℕ :=
  if addr % PAGE_SIZE ≠ 0 then bmap
  else
    match freeRegions addr (f.regions f.mmDescs) 0 0 with
    | some (h, bit) =>
      Function.update bmap h (bmap h &&& ((2 ^ BITS_PER_ELEMENT - 1) ^^^ 1 <<< bit))
    | none => bmap

/-! ### The walk -/

/-- The pages from `addr` on. -/
def pagesFrom : ℕ → ℕ → List ℕ
  | 0, _ => []
  | n + 1, addr => addr :: pagesFrom n (add64 addr PAGE_SIZE)

def regionPages (r : MemoryT) : List ℕ := pagesFrom r.blocks r.addr

/-- All pages of the freemap, in the order of the walk. -/
def Freemap.pages (f : Freemap) : List ℕ := (f.regions f.fmDescs).flatMap regionPages

def used (bmap : ℕ → ℕ) (k : ℕ) : Bool := mem BITS_PER_ELEMENT bmap k

lemma nextBit_div_mod (k : ℕ) : nextBit (k / 32) (k % 32) = ((k + 1) / 32, (k + 1) % 32) := by
  unfold nextBit BITS_PER_ELEMENT
  split <;> ext <;> simp only <;> omega

@[simp] lemma length_pagesFrom (n addr : ℕ) : (pagesFrom n addr).length = n := by
  induction n generalizing addr with
  | zero => rfl
  | succ n ih => simp [pagesFrom, ih]

/-- The first page at or after number `k` that is not in use, with its number. -/
def firstFree (bmap : ℕ → ℕ) : List ℕ → ℕ → Option (ℕ × ℕ)
  | [], _ => none
  | a :: as, k => if used bmap k then firstFree bmap as (k + 1) else some (a, k)

lemma firstFree_append (bmap : ℕ → ℕ) (as bs : List ℕ) (k : ℕ) :
    firstFree bmap (as ++ bs) k =
      (firstFree bmap as k).or (firstFree bmap bs (k + as.length)) := by
  induction as generalizing k with
  | nil => simp [firstFree]
  | cons a as ih =>
    simp only [List.cons_append, firstFree]
    split
    · rw [ih, List.length_cons, Nat.add_assoc, Nat.add_comm 1]
    · simp

lemma allocRegion_eq (bmap : ℕ → ℕ) (n addr k : ℕ) :
    allocRegion bmap n addr (k / 32) (k % 32) =
      match firstFree bmap (pagesFrom n addr) k with
      | some (a, j) => .inl (a, j / 32, j % 32)
      | none => .inr ((k + n) / 32, (k + n) % 32) := by
  induction n generalizing addr k with
  | zero => simp [allocRegion, pagesFrom, firstFree]
  | succ n ih =>
    simp only [allocRegion, pagesFrom, firstFree, and_shift_ne_zero, nextBit_div_mod]
    have hu : used bmap k = (bmap (k / 32)).testBit (k % 32) := rfl
    rw [hu]
    split
    · rw [ih, Nat.add_assoc, Nat.add_comm 1]
    · rfl

lemma allocRegions_eq (bmap : ℕ → ℕ) (rs : List MemoryT) (k : ℕ) :
    allocRegions bmap rs (k / 32) (k % 32) =
      (firstFree bmap (rs.flatMap regionPages) k).map fun p => (p.1, p.2 / 32, p.2 % 32) := by
  induction rs generalizing k with
  | nil => rfl
  | cons r rs ih =>
    rw [allocRegions, allocRegion_eq, List.flatMap_cons, firstFree_append]
    rcases h : firstFree bmap (pagesFrom r.blocks r.addr) k with _ | ⟨a, j⟩
    · simp [regionPages, h, ih]
    · simp [regionPages, h]

/-- `phys_page_alloc` takes the first page of the walk whose bit is clear. -/
lemma physPageAlloc_eq (f : Freemap) (bmap : ℕ → ℕ) :
    physPageAlloc f bmap =
      match firstFree bmap f.pages 0 with
      | some (a, k) => (a, WordSet.insert 32 bmap k)
      | none => (0, bmap) := by
  unfold physPageAlloc
  have h := allocRegions_eq bmap (f.regions f.fmDescs) 0
  rw [Nat.zero_div, Nat.zero_mod] at h
  rw [h, Freemap.pages]
  rcases firstFree bmap ((f.regions f.fmDescs).flatMap regionPages) 0 with _ | ⟨a, k⟩ <;> rfl

/-- The number of page `addr` in a list of pages counted from `k`. -/
def pageNumber (addr : ℕ) : List ℕ → ℕ → Option ℕ
  | [], _ => none
  | a :: as, k => if a = addr then some k else pageNumber addr as (k + 1)

lemma pageNumber_append (addr : ℕ) (as bs : List ℕ) (k : ℕ) :
    pageNumber addr (as ++ bs) k =
      (pageNumber addr as k).or (pageNumber addr bs (k + as.length)) := by
  induction as generalizing k with
  | nil => simp [pageNumber]
  | cons a as ih =>
    simp only [List.cons_append, pageNumber]
    split
    · simp
    · rw [ih, List.length_cons, Nat.add_assoc, Nat.add_comm 1]

lemma freeRegion_eq (addr n ptr k : ℕ) :
    freeRegion addr n ptr (k / 32) (k % 32) =
      match pageNumber addr (pagesFrom n ptr) k with
      | some j => .inl (j / 32, j % 32)
      | none => .inr ((k + n) / 32, (k + n) % 32) := by
  induction n generalizing ptr k with
  | zero => simp [freeRegion, pagesFrom, pageNumber]
  | succ n ih =>
    simp only [freeRegion, pagesFrom, pageNumber, nextBit_div_mod]
    split
    · rfl
    · rw [ih, Nat.add_assoc, Nat.add_comm 1]

lemma freeRegions_eq (addr : ℕ) (rs : List MemoryT) (k : ℕ) :
    freeRegions addr rs (k / 32) (k % 32) =
      (pageNumber addr (rs.flatMap regionPages) k).map fun j => (j / 32, j % 32) := by
  induction rs generalizing k with
  | nil => rfl
  | cons r rs ih =>
    rw [freeRegions, freeRegion_eq, List.flatMap_cons, pageNumber_append]
    rcases h : pageNumber addr (pagesFrom r.blocks r.addr) k with _ | j
    · simp [regionPages, h, ih]
    · simp [regionPages, h]

lemma physPageFree_eq (f : Freemap) (addr : ℕ) (bmap : ℕ → ℕ) :
    physPageFree f addr bmap =
      if addr % PAGE_SIZE ≠ 0 then bmap
      else match pageNumber addr ((f.regions f.mmDescs).flatMap regionPages) 0 with
        | some k => WordSet.erase 32 bmap k
        | none => bmap := by
  unfold physPageFree
  have h := freeRegions_eq addr (f.regions f.mmDescs) 0
  rw [Nat.zero_div, Nat.zero_mod] at h
  rw [h]
  rcases pageNumber addr ((f.regions f.mmDescs).flatMap regionPages) 0 with _ | k <;> rfl

/-! ### What the two functions do -/

lemma firstFree_some {bmap : ℕ → ℕ} {as : List ℕ} {k a j : ℕ}
    (h : firstFree bmap as k = some (a, j)) :
    ∃ i, as[i]? = some a ∧ j = k + i ∧ used bmap j = false := by
  induction as generalizing k with
  | nil => simp [firstFree] at h
  | cons b as ih =>
    rw [firstFree] at h
    split at h
    · obtain ⟨i, hi, hj, hu⟩ := ih h
      exact ⟨i + 1, by simpa using hi, by omega, hu⟩
    · rename_i hb
      obtain ⟨rfl, rfl⟩ := Prod.mk.inj (Option.some.inj h)
      exact ⟨0, rfl, rfl, by simpa using hb⟩

lemma firstFree_eq {bmap : ℕ → ℕ} {as : List ℕ} {k a n : ℕ} (hn : as[n]? = some a)
    (hu : ∀ i < n, used bmap (k + i) = true) (hf : used bmap (k + n) = false) :
    firstFree bmap as k = some (a, k + n) := by
  induction as generalizing k n with
  | nil => simp at hn
  | cons b as ih =>
    rw [firstFree]
    rcases n with _ | n
    · rw [if_neg (by simpa using hf)]
      simpa using hn
    · have h0 : used bmap k = true := hu 0 (Nat.succ_pos n)
      rw [if_pos h0, ih (by simpa using hn) (fun i hi => ?_) ?_]
      · rw [Nat.add_assoc, Nat.add_comm 1]
      · rwa [Nat.add_assoc, Nat.add_comm 1]
      · rw [Nat.add_assoc, Nat.add_comm 1]
        exact hu (i + 1) (Nat.succ_lt_succ hi)

lemma firstFree_none {bmap : ℕ → ℕ} {as : List ℕ} {k : ℕ} :
    firstFree bmap as k = none ↔ ∀ i < as.length, used bmap (k + i) = true := by
  induction as generalizing k with
  | nil => simp [firstFree]
  | cons b as ih =>
    rw [firstFree]
    split
    · rename_i hb
      rw [ih]
      refine ⟨fun h i hi => ?_, fun h i hi => ?_⟩
      · rcases i with _ | i
        · exact hb
        · have := h i (by simpa using hi)
          rwa [Nat.add_assoc, Nat.add_comm 1] at this
      · have := h (i + 1) (by simpa using hi)
        rwa [Nat.add_assoc, Nat.add_comm 1]
    · rename_i hb
      refine ⟨fun h => by simp at h, fun h => ?_⟩
      exact absurd (h 0 (by simp)) hb

lemma pageNumber_none {addr : ℕ} {as : List ℕ} {k : ℕ} (h : addr ∉ as) :
    pageNumber addr as k = none := by
  induction as generalizing k with
  | nil => rfl
  | cons b as ih =>
    rw [List.mem_cons, not_or] at h
    rw [pageNumber, if_neg (Ne.symm h.1), ih h.2]

lemma pageNumber_getElem {addr : ℕ} {as : List ℕ} {k i : ℕ} (hnd : as.Nodup)
    (h : as[i]? = some addr) : pageNumber addr as k = some (k + i) := by
  induction as generalizing k i with
  | nil => simp at h
  | cons b as ih =>
    rw [List.nodup_cons] at hnd
    rw [pageNumber]
    rcases i with _ | i
    · have hb : b = addr := by simpa using h
      rw [if_pos hb]; rfl
    · have hi : as[i]? = some addr := by simpa using h
      have hb : b ≠ addr := by
        rintro rfl
        exact hnd.1 (List.mem_of_getElem? hi)
      rw [if_neg hb, ih hnd.2 hi, Nat.add_assoc, Nat.add_comm 1]

lemma pageNumber_le {addr : ℕ} {as : List ℕ} {k j : ℕ} (h : pageNumber addr as k = some j) :
    k ≤ j := by
  induction as generalizing k with
  | nil => simp [pageNumber] at h
  | cons b as ih =>
    rw [pageNumber] at h
    split at h
    · simp at h; omega
    · have := ih h; omega

def AllUsed (f : Freemap) (bmap : ℕ → ℕ) : Prop := ∀ k < f.pages.length, used bmap k = true

instance (f : Freemap) (bmap : ℕ → ℕ) : Decidable (AllUsed f bmap) :=
  inferInstanceAs (Decidable (∀ k < f.pages.length, used bmap k = true))

lemma used_insert (bmap : ℕ → ℕ) (j k : ℕ) :
    used (WordSet.insert 32 bmap k) j = (used bmap j || decide (j = k)) := mem_insert j k

lemma used_erase (bmap : ℕ → ℕ) (j k : ℕ) :
    used (WordSet.erase 32 bmap k) j = (used bmap j && !decide (j = k)) :=
  mem_erase (by decide) j k

/-- With every page in use the call fails and changes nothing. -/
lemma physPageAlloc_full {f : Freemap} {bmap : ℕ → ℕ} (h : AllUsed f bmap) :
    physPageAlloc f bmap = (0, bmap) := by
  rw [physPageAlloc_eq, firstFree_none.mpr (by simpa [AllUsed] using h)]

/-- Otherwise it takes a page whose bit is clear and sets that bit. -/
lemma physPageAlloc_free {f : Freemap} {bmap : ℕ → ℕ} (h : ¬ AllUsed f bmap) :
    ∃ k, f.pages[k]? = some (physPageAlloc f bmap).1 ∧ used bmap k = false ∧
      (physPageAlloc f bmap).2 = WordSet.insert 32 bmap k := by
  rw [physPageAlloc_eq]
  rcases hf : firstFree bmap f.pages 0 with _ | ⟨a, j⟩
  · rw [firstFree_none] at hf
    exact absurd (fun k hk => by simpa using hf k hk) h
  · obtain ⟨i, hi, hj, hu⟩ := firstFree_some hf
    obtain rfl : j = i := by omega
    exact ⟨j, hi, hu, rfl⟩

lemma pages_prefix {f : Freemap} (h : f.fmDescs ≤ f.mmDescs) :
    ∃ l, (f.regions f.mmDescs).flatMap regionPages = f.pages ++ l := by
  obtain ⟨d, hd⟩ := Nat.exists_eq_add_of_le h
  refine ⟨((List.range d).map fun i => f.freemap (f.fmDescs + i)).flatMap regionPages, ?_⟩
  rw [Freemap.pages, ← List.flatMap_append, hd]
  simp [Freemap.regions, List.range_add, Function.comp_def]

lemma physPageFree_page {f : Freemap} {bmap : ℕ → ℕ} {a k : ℕ} (hnd : f.pages.Nodup)
    (hmm : f.fmDescs ≤ f.mmDescs) (hal : a % PAGE_SIZE = 0) (hk : f.pages[k]? = some a) :
    physPageFree f a bmap = WordSet.erase 32 bmap k := by
  obtain ⟨l, hl⟩ := pages_prefix hmm
  rw [physPageFree_eq, if_neg (by simpa using hal), hl, pageNumber_append,
    pageNumber_getElem hnd hk]
  simp

/-- Freeing anything else changes no bit of a page of the freemap, whatever the entries
between `fm_descs` and `mm_descs` hold. -/
lemma physPageFree_foreign {f : Freemap} {bmap : ℕ → ℕ} {a : ℕ}
    (hmm : f.fmDescs ≤ f.mmDescs) (ha : a ∉ f.pages) {j : ℕ} (hj : j < f.pages.length) :
    used (physPageFree f a bmap) j = used bmap j := by
  obtain ⟨l, hl⟩ := pages_prefix hmm
  rw [physPageFree_eq]
  split
  · rfl
  · rw [hl, pageNumber_append, pageNumber_none ha, Option.none_or]
    rcases h : pageNumber a l (0 + f.pages.length) with _ | k
    · rfl
    · have := pageNumber_le h
      have hne : j ≠ k := by omega
      simp [used_erase, hne]

/-! ### Well-formed freemaps -/

/-- What the firmware promises of the memory map: page-aligned regions of 64-bit addresses
that do not meet, none of which wraps. -/
structure Freemap.Ok (f : Freemap) : Prop where
  aligned : ∀ r ∈ f.regions f.fmDescs, r.addr % PAGE_SIZE = 0
  bound : ∀ r ∈ f.regions f.fmDescs, r.addr + r.blocks * PAGE_SIZE ≤ 2 ^ 64
  disjoint : (f.regions f.fmDescs).Pairwise fun r r' => ∀ a ∈ regionPages r, a ∉ regionPages r'
  descs : f.fmDescs ≤ f.mmDescs

lemma pagesFrom_eq {n addr : ℕ} (h : addr + n * PAGE_SIZE ≤ 2 ^ 64) :
    pagesFrom n addr = (List.range n).map fun j => addr + j * PAGE_SIZE := by
  induction n generalizing addr with
  | zero => rfl
  | succ n ih =>
    rcases n with _ | n
    · simp [pagesFrom]
    · unfold PAGE_SIZE at *
      rw [pagesFrom, show add64 addr PAGE_SIZE = addr + 4096 from
        add64_eq (by unfold PAGE_SIZE; omega), ih (by omega)]
      conv_rhs => rw [List.range_succ_eq_map]
      simp only [List.map_cons, List.map_map, Nat.zero_mul, Nat.add_zero, List.cons.injEq, true_and]
      refine List.map_congr_left fun j _ => ?_
      simp only [Function.comp_apply]
      omega

lemma mem_pagesFrom {n addr a : ℕ} (h : addr + n * PAGE_SIZE ≤ 2 ^ 64) :
    a ∈ pagesFrom n addr ↔ ∃ j < n, a = addr + j * PAGE_SIZE := by
  simp [pagesFrom_eq h, eq_comm]

lemma nodup_pagesFrom {n addr : ℕ} (h : addr + n * PAGE_SIZE ≤ 2 ^ 64) :
    (pagesFrom n addr).Nodup := by
  rw [pagesFrom_eq h]
  refine List.nodup_range.map fun i j hij => ?_
  unfold PAGE_SIZE at hij
  omega

namespace Freemap.Ok

variable {f : Freemap}

lemma nodup (h : f.Ok) : f.pages.Nodup :=
  List.nodup_flatMap.mpr ⟨fun r hr => nodup_pagesFrom (h.bound r hr),
    h.disjoint.imp fun hd a ha ha' => hd a ha ha'⟩

lemma mem_pages (h : f.Ok) {a : ℕ} (ha : a ∈ f.pages) :
    a % PAGE_SIZE = 0 ∧ a + PAGE_SIZE ≤ 2 ^ 64 := by
  obtain ⟨r, hr, ha⟩ := List.mem_flatMap.mp ha
  have hb := h.bound r hr
  have hal := h.aligned r hr
  obtain ⟨j, hj, rfl⟩ := (mem_pagesFrom hb).mp ha
  unfold PAGE_SIZE at *
  omega

end Freemap.Ok

/-- A region that does not hold page 0 does not wrap. -/
lemma bound_of_nonzero {r : MemoryT} (hal : r.addr % PAGE_SIZE = 0) (hlt : r.addr < 2 ^ 64)
    (h0 : 0 ∉ regionPages r) : r.addr + r.blocks * PAGE_SIZE ≤ 2 ^ 64 := by
  by_contra hc
  apply h0
  have key : ∀ n addr m : ℕ, m < n → addr + m * PAGE_SIZE = 2 ^ 64 → 0 < m →
      0 ∈ pagesFrom n addr := by
    intro n
    induction n with
    | zero => intro addr m hm; omega
    | succ n ih =>
      intro addr m hm hsum hpos
      rw [pagesFrom]
      refine List.mem_cons_of_mem _ ?_
      obtain ⟨m, rfl⟩ : ∃ m', m = m' + 1 := ⟨m - 1, by omega⟩
      unfold PAGE_SIZE at *
      rcases m with _ | m
      · obtain ⟨n, rfl⟩ : ∃ n', n = n' + 1 := ⟨n - 1, by omega⟩
        have h0 : add64 addr PAGE_SIZE = 0 := by unfold add64 PAGE_SIZE; omega
        rw [show add64 addr 4096 = 0 from h0, pagesFrom]
        exact List.mem_cons_self
      · have ha : add64 addr 4096 = addr + 4096 := add64_eq (by omega)
        rw [ha]
        exact ih (addr + 4096) (m + 1) (by omega) (by omega) (by omega)
  unfold PAGE_SIZE at *
  exact key r.blocks r.addr ((2 ^ 64 - r.addr) / 4096) (by omega) (by omega)
    (by omega)

end FlameOS.FrameAlloc
