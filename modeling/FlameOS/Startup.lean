import FlameOS.AllocMap
import FlameOS.BitmapSpan
import FlameOS.Records

/-!
The array with which `init` tries out the heap.

The first page of the heap is that of the freemap and the second that of the bitmap, so the array
is stored over both of them. It reads back all the same, since every page of it has memory of its
own; but what the allocator finds in place of the freemap are the numbers of the array.
-/

namespace FlameOS.Startup

open FlameOS.Word FlameOS.FrameAlloc FlameOS.PageTable FlameOS.MapPage FlameOS.MapSpec
open FlameOS.MapRun FlameOS.HeapTable FlameOS.Heap FlameOS.Boot FlameOS.Backing
open FlameOS.AddressSpace FlameOS.AllocMap FlameOS.Records
open FlameOS.ByteMem (Mem put put_of_mem put_of_notMem put_append)
open FlameOS.MemoryMap (le)
open FlameOS.BitmapSpan (bmapAt)

/-! ### Memory through a translation -/

/-- Bytes stored one after the other to addresses that are translated. -/
def putVia (tr : ℕ → ℕ) (ram : Mem) (a : ℕ) : List UInt8 → Mem
  | [] => ram
  | b :: l => putVia tr (Function.update ram (tr a) b) (a + 1) l

/-- What is read from addresses that are translated. -/
def view (tr : ℕ → ℕ) (ram : Mem) : Mem := fun a => ram (tr a)

variable {tr : ℕ → ℕ} {ram : Mem} {m m' : Mem} {S : Set ℕ} {a n : ℕ} {l : List UInt8}

/-- Where no two addresses have the same memory, a store is seen at its address only. -/
lemma view_putVia (hinj : Set.InjOn tr S) (hS : ∀ k < l.length, a + k ∈ S) :
    Set.EqOn (view tr (putVia tr ram a l)) (put (view tr ram) a l) S := by
  induction l generalizing ram a with
  | nil =>
    intro x _
    rw [ByteMem.put_nil]
    rfl
  | cons b l ih =>
    intro x hx
    have hrest : ∀ k < l.length, a + 1 + k ∈ S := by
      intro k hk
      have h := hS (k + 1) (Nat.succ_lt_succ hk)
      rwa [Nat.add_comm k 1, ← Nat.add_assoc] at h
    have ha : a ∈ S := hS 0 (Nat.succ_pos _)
    have hfirst : view tr (Function.update ram (tr a) b) x = put (view tr ram) a [b] x := by
      unfold view put
      rw [List.length_singleton]
      by_cases hxa : x = a
      · rw [hxa, Function.update_self, if_pos ⟨le_rfl, Nat.lt_succ_self a⟩, Nat.sub_self]
        rfl
      · rw [Function.update_of_ne (fun h => hxa (hinj hx ha h)), if_neg (by omega)]
    have happ := put_append (m := view tr ram) (a := a) (l := [b]) l
    rw [List.length_singleton, List.singleton_append] at happ
    rw [putVia, ih hrest hx, ← happ]
    unfold put
    split
    · rfl
    · exact hfirst

/-- Stores of records through a translation. -/
def putRecords (tr : ℕ → ℕ) (a n : ℕ) (cs : List (ℕ × List UInt8)) (ram : Mem) : Mem :=
  cs.foldl (fun ram c => putVia tr ram (a + n * c.1) c.2) ram

lemma setRecords_congr {cs : List (ℕ × List UInt8)} (h : Set.EqOn m m' S) :
    Set.EqOn (setRecords a n cs m) (setRecords a n cs m') S := by
  induction cs generalizing m m' with
  | nil => exact h
  | cons c cs ih =>
    refine ih fun x hx => ?_
    dsimp only [setRecord, put]
    split
    · rfl
    · exact h hx

/-- **A table through a translation** is what the stores make of the table that was seen before. -/
lemma view_putRecords (ram : Mem) (hinj : Set.InjOn tr S) {cs : List (ℕ × List UInt8)}
    (hcs : ∀ c ∈ cs, ∀ k < c.2.length, a + n * c.1 + k ∈ S) :
    Set.EqOn (view tr (putRecords tr a n cs ram)) (setRecords a n cs (view tr ram)) S := by
  induction cs generalizing ram with
  | nil => exact Set.eqOn_refl _ _
  | cons c cs ih =>
    obtain ⟨hc, hcs⟩ := List.forall_mem_cons.mp hcs
    exact (ih _ hcs).trans (setRecords_congr (view_putVia hinj hc))

/-! ### `init` -/

def COUNT : ℕ := 40000

def sizeofInt : ℕ := 4

def fillInts (tr : ℕ → ℕ) (addr count : ℕ) (ram : Mem) : Mem :=
  (List.range count).foldl
    (fun ram i => putVia tr ram (addr + sizeofInt * i) (bytes sizeofInt i)) ram

def readInts (tr : ℕ → ℕ) (addr count : ℕ) (ram : Mem) : List ℕ :=
  (List.range count).map fun i => le (view tr ram) sizeofInt (addr + sizeofInt * i)

/-- The two blocks of `init`, what it logs of the first one, and what it leaves. -/
structure Arrays where
  addr : ℕ
  logged : List ℕ
  ram : Mem
  addr2 : Served

/-- `init` from the first `malloc` to the second, with `ram` as the memory outside the page tables
when the first loop starts. -/
def initArrays (M : Machine) (st : State) (ram : Mem) : Arrays :=
  let p := malloc M (sizeofInt * COUNT) st
  let tr := findPhysaddr M p.state.paging
  let ram := fillInts tr p.ptr COUNT ram
  ⟨p.ptr, readInts tr p.ptr COUNT ram, ram, malloc M (sizeofInt * 5) p.state⟩

/-- The entries that `phys_page_alloc` reads where `init_paging` has put `freemap`. -/
def freemapAt (m : Mem) (a : ℕ) : ℕ → MemoryT :=
  fun i => ⟨le m 8 (a + 16 * i), le m 8 (a + 16 * i + 8)⟩

/-- `phys_page_alloc` with the freemap and the bitmap as they are in memory. -/
def allocFrom (M : Machine) (m : Mem) : ℕ :=
  (physPageAlloc ⟨freemapAt m kernelHeap, M.fm.fmDescs, M.fm.mmDescs⟩
    (bmapAt m (kernelHeap + PAGE_SIZE))).1

/-! ### The numbers of the array -/

lemma le_eq_value (m : Mem) (n a : ℕ) :
    le m n a = value ((List.range n).map fun k => m (a + k)) := by
  induction n generalizing a with
  | zero => rfl
  | succ n ih =>
    rw [le, ih, List.range_succ_eq_map, List.map_cons, List.map_map, value]
    congr 3
    refine List.map_congr_left fun k _ => ?_
    rw [Function.comp_apply, Nat.succ_eq_add_one, Nat.add_assoc, Nat.add_comm 1]

lemma le_record (m : Mem) (a n i : ℕ) : le m n (a + n * i) = value (record a n m i) :=
  le_eq_value m n _

/-- A word of eight bytes is one of two words of four. -/
lemma le_eight (m : Mem) (a : ℕ) : le m 8 a = le m 4 a + 2 ^ 32 * le m 4 (a + 4) := by
  have hsplit : (List.range 8).map (fun k => m (a + k)) =
      (List.range 4).map (fun k => m (a + k)) ++ (List.range 4).map fun k => m (a + 4 + k) := by
    simp [List.range_succ, Nat.add_assoc]
  rw [le_eq_value, le_eq_value, le_eq_value, hsplit, value_append, List.length_map,
    List.length_range]
  norm_num

lemma record_setRecords_range {f : ℕ → List UInt8} (hf : ∀ i, (f i).length = n) {count i : ℕ}
    (hi : i < count) :
    record a n (setRecords a n ((List.range count).map fun i => (i, f i)) m) i = f i := by
  induction count with
  | zero => exact absurd hi (Nat.not_lt_zero i)
  | succ count ih =>
    rw [List.range_succ, List.map_append, List.map_singleton, setRecords_concat,
      record_setRecord (hf count)]
    by_cases h : i = count
    · rw [h, Function.update_self]
    · rw [Function.update_of_ne h]
      exact ih (by omega)

lemma fillInts_eq (tr : ℕ → ℕ) (addr count : ℕ) (ram : Mem) : fillInts tr addr count ram =
    putRecords tr addr sizeofInt ((List.range count).map fun i => (i, bytes sizeofInt i)) ram := by
  rw [fillInts, putRecords, List.foldl_map]

/-- **The array reads back** if no two of its addresses have the same memory. -/
lemma le_fillInts {addr count i : ℕ} (hinj : Set.InjOn tr (Set.Ico addr (addr + sizeofInt * count)))
    (hi : i < count) (hlt : i < 2 ^ 32) :
    le (view tr (fillInts tr addr count ram)) sizeofInt (addr + sizeofInt * i) = i := by
  have hcs : ∀ c ∈ (List.range count).map fun i => (i, bytes sizeofInt i), ∀ k < c.2.length,
      addr + sizeofInt * c.1 + k ∈ Set.Ico addr (addr + sizeofInt * count) := by
    intro c hc k hk
    obtain ⟨j, hj, rfl⟩ := List.mem_map.mp hc
    rw [List.mem_range] at hj
    rw [length_bytes] at hk
    unfold sizeofInt at hk ⊢
    exact ⟨by dsimp only; omega, by dsimp only; omega⟩
  have hview := view_putRecords ram hinj hcs
  have hrecord : record addr sizeofInt (view tr (fillInts tr addr count ram)) i =
      bytes sizeofInt i := by
    rw [fillInts_eq, ← record_setRecords_range (length_bytes sizeofInt) hi]
    refine record_congr fun k hk => hview ?_
    unfold sizeofInt at hk ⊢
    exact ⟨by omega, by omega⟩
  have hvalue : i < 256 ^ sizeofInt := by
    unfold sizeofInt
    omega
  rw [le_record, hrecord, value_bytes_of_lt hvalue]

lemma alloc_first {f : Freemap} {bmap : ℕ → ℕ} (hdescs : 0 < f.fmDescs)
    (hblocks : 0 < (f.freemap 0).blocks) (hfree : used bmap 0 = false) :
    (physPageAlloc f bmap).1 = (f.freemap 0).addr := by
  have hpages : f.pages[0]? = some (f.freemap 0).addr := by
    obtain ⟨d, hd⟩ := Nat.exists_eq_succ_of_ne_zero hdescs.ne'
    obtain ⟨k, hk⟩ := Nat.exists_eq_succ_of_ne_zero hblocks.ne'
    rw [Freemap.pages, Freemap.regions, hd, List.range_succ_eq_map, List.map_cons,
      List.flatMap_cons, regionPages, hk, pagesFrom]
    rfl
  have hfirst := firstFree_eq (k := 0) hpages (fun i hi => absurd hi (Nat.not_lt_zero i)) hfree
  rw [physPageAlloc_eq, hfirst]

lemma allocFrom_eq {M : Machine} (hdescs : 0 < M.fm.fmDescs)
    (h : ∀ i ≤ 1024, le m sizeofInt (kernelHeap + sizeofInt * i) = i) :
    allocFrom M m = 0x100000000 := by
  have h0 : le m 4 kernelHeap = 0 := h 0 (by decide)
  have h1 : le m 4 (kernelHeap + 4) = 1 := h 1 (by decide)
  have h2 : le m 4 (kernelHeap + 8) = 2 := h 2 (by decide)
  have h3 : le m 4 (kernelHeap + 8 + 4) = 3 := h 3 (by decide)
  have hfirst : freemapAt m kernelHeap 0 = ⟨0x100000000, 0x300000002⟩ := by
    rw [freemapAt, Nat.mul_zero, Nat.add_zero, le_eight, le_eight, h0, h1, h2, h3]
    norm_num
  have hbit : used (bmapAt m (kernelHeap + PAGE_SIZE)) 0 = false := by
    have hword : bmapAt m (kernelHeap + PAGE_SIZE) 0 = 1024 := h 1024 le_rfl
    change (bmapAt m (kernelHeap + PAGE_SIZE) 0).testBit 0 = false
    rw [hword]
    decide
  have hblocks : 0 < (freemapAt m kernelHeap 0).blocks := by
    rw [hfirst]
    decide
  have halloc : allocFrom M m = (freemapAt m kernelHeap 0).addr := alloc_first hdescs hblocks hbit
  rw [halloc, hfirst]

/-! ### The pages of the array -/

variable {M : Machine} {s s' : Paging} {v w : ℕ} {vs : List ℕ} {frame : ℕ → ℕ}

/-- Each page of `vs` keeps the frame that it has or gets one that was free, and no frame twice;
and no page but these and those numbered like a frame changes. -/
structure Provided (M : Machine) (vs : List ℕ) (frame : ℕ → ℕ) (s s' : Paging) : Prop where
  settled : Settled M s'
  mapped : ∀ v ∈ vs, lookup M s' v = some (frame v)
  old : ∀ v ∈ vs, findPhysaddr M s v ≠ 0 → lookup M s v = some (frame v)
  fresh : ∀ v ∈ vs, findPhysaddr M s v = 0 → frame v ∈ M.fm.pages ∧ ¬ InUse M.fm s.bmap (frame v) ∧
    ¬ IsTable M s' (frame v)
  distinct : ∀ v ∈ vs, ∀ w ∈ vs, findPhysaddr M s v = 0 → findPhysaddr M s w = 0 →
    frame v = frame w → v = w
  others : ∀ w, (∀ a ∈ M.fm.pages, page w ≠ page a) → (∀ v ∈ vs, page w ≠ page v) →
    lookup M s' w = lookup M s w
  keeps : ∀ a, InUse M.fm s.bmap a → InUse M.fm s'.bmap a
  tables : ∀ a, InUse M.fm s.bmap a → IsTable M s' a → IsTable M s a

section cons

variable (hv : ∀ w ∈ vs, page v ≠ page w) (hav : ∀ w ∈ v :: vs, ∀ a ∈ M.fm.pages, page w ≠ page a)

include hv hav

omit hav in
lemma ne_of_page (hw : w ∈ vs) : w ≠ v := fun he => hv w hw (he ▸ rfl)

lemma Provided.cons_old {f : ℕ} (h : Provided M vs frame s s') (hl : lookup M s v = some f)
    (hne : findPhysaddr M s v ≠ 0) :
    Provided M (v :: vs) (Function.update frame v f) s s' := by
  have hframe : ∀ w ∈ vs, Function.update frame v f w = frame w := fun w hw =>
    Function.update_of_ne (ne_of_page hv hw) f frame
  refine ⟨h.settled, ?_, ?_, ?_, ?_, fun w haw hw => ?_, h.keeps, h.tables⟩
  · refine List.forall_mem_cons.mpr ⟨?_, fun w hw => ?_⟩
    · rw [Function.update_self, h.others v (hav v List.mem_cons_self) hv, hl]
    · rw [hframe w hw]
      exact h.mapped w hw
  · refine List.forall_mem_cons.mpr ⟨fun _ => ?_, fun w hw => ?_⟩
    · rw [Function.update_self, hl]
    · rw [hframe w hw]
      exact h.old w hw
  · refine List.forall_mem_cons.mpr ⟨fun hz => absurd hz hne, fun w hw => ?_⟩
    rw [hframe w hw]
    exact h.fresh w hw
  · intro w hw x hx hzw hzx
    rcases List.mem_cons.mp hw with rfl | hw
    · exact absurd hzw hne
    rcases List.mem_cons.mp hx with rfl | hx
    · exact absurd hzx hne
    rw [hframe w hw, hframe x hx]
    exact h.distinct w hw x hx hzw hzx
  · exact h.others w haw fun x hx => hw x (List.mem_cons_of_mem _ hx)

/-- A page that was not gets a frame which no later one gets. -/
lemma Provided.cons_new {u : ℕ} {s₁ : Paging} (h : Provided M vs frame s₁ s')
    (ht : Turned M v u s s₁) (hz : findPhysaddr M s v = 0)
    (hothers : ∀ w, (∀ a ∈ M.fm.pages, page w ≠ page a) → page w ≠ page v →
      lookup M s₁ w = lookup M s w) :
    Provided M (v :: vs) (Function.update frame v u) s s' := by
  have hframe : ∀ w ∈ vs, Function.update frame v u w = frame w := fun w hw =>
    Function.update_of_ne (ne_of_page hv hw) u frame
  have hsame : ∀ w ∈ vs, lookup M s₁ w = lookup M s w := fun w hw =>
    hothers w (hav w (List.mem_cons_of_mem _ hw)) (hv w hw).symm
  have hfind : ∀ w ∈ vs, findPhysaddr M s₁ w = findPhysaddr M s w := fun w hw =>
    findPhysaddr_congr (hsame w hw)
  have hlater : ∀ w ∈ vs, findPhysaddr M s w = 0 → u ≠ frame w := by
    intro w hw hzw he
    exact (h.fresh w hw ((hfind w hw).trans hzw)).2.1 (he ▸ ht.inUse)
  refine ⟨h.settled, ?_, ?_, ?_, ?_, fun w haw hw => ?_, fun a ha => h.keeps a (ht.keeps a ha),
    fun a ha htab => ht.tables a ha (h.tables a (ht.keeps a ha) htab)⟩
  · refine List.forall_mem_cons.mpr ⟨?_, fun w hw => ?_⟩
    · rw [Function.update_self, h.others v (hav v List.mem_cons_self) hv, ht.self]
    · rw [hframe w hw]
      exact h.mapped w hw
  · refine List.forall_mem_cons.mpr ⟨fun hne => absurd hz hne, fun w hw hne => ?_⟩
    rw [hframe w hw, ← hsame w hw]
    exact h.old w hw ((hfind w hw).trans_ne hne)
  · refine List.forall_mem_cons.mpr ⟨fun _ => ?_, fun w hw hzw => ?_⟩
    · rw [Function.update_self]
      exact ⟨ht.mem, ht.free, fun htab => ht.data (h.tables u ht.inUse htab)⟩
    · rw [hframe w hw]
      obtain ⟨hmem, hfree, hdata⟩ := h.fresh w hw ((hfind w hw).trans hzw)
      exact ⟨hmem, fun hin => hfree (ht.keeps _ hin), hdata⟩
  · intro w hw x hx hzw hzx he
    rcases List.mem_cons.mp hw with hwv | hw
    · rcases List.mem_cons.mp hx with hxv | hx
      · rw [hwv, hxv]
      · rw [hwv, Function.update_self, hframe x hx] at he
        exact absurd he (hlater x hx hzx)
    · rcases List.mem_cons.mp hx with hxv | hx
      · rw [hxv, Function.update_self, hframe w hw] at he
        exact absurd he.symm (hlater w hw hzw)
      · rw [hframe w hw, hframe x hx] at he
        exact h.distinct w hw x hx ((hfind w hw).trans hzw) ((hfind x hx).trans hzx) he
  · rw [h.others w haw fun x hx => hw x (List.mem_cons_of_mem _ hx)]
    exact hothers w haw (hw v List.mem_cons_self)

end cons

section provided

variable (hM : FramesOk M) (h48 : ∀ a ∈ M.fm.pages, a < 2 ^ 48)

include hM h48

lemma mapMissing_turned (h : Settled M s) (hv : v % PAGE_SIZE = 0)
    (hav : ∀ a ∈ M.fm.pages, page v ≠ page a)
    (hno : ∀ e ∈ (mapMissing M v s).2, ¬ RanOut M.fm e) :
    (findPhysaddr M s v ≠ 0 ∧ (mapMissing M v s).1 = s) ∨
      (findPhysaddr M s v = 0 ∧ (∃ u, Turned M v u s (mapMissing M v s).1) ∧
        ∀ w, (∀ a ∈ M.fm.pages, page w ≠ page a) → page w ≠ page v →
          lookup M (mapMissing M v s).1 w = lookup M s w) := by
  by_cases hf : findPhysaddr M s v = 0
  · rw [mapMissing_unmapped hf, List.forall_mem_cons] at hno
    obtain ⟨hfree, hno⟩ := hno
    have hafter := wf_afterAlloc (M := M) h.wf
    rw [mapMissing_unmapped hf]
    refine Or.inr ⟨hf, ⟨_, turned hM h48 h hv hav hfree hno⟩, fun w haw hne => ?_⟩
    have hext := mapPage_ext hM hafter hno
    exact lookup_mapPage hM hafter (fun t ht => haw t (hext.fresh t ht).1) hno hne.symm
  · rw [mapMissing_mapped hf]
    exact Or.inl ⟨hf, rfl⟩

lemma mapEach_provided (h : Settled M s) (hal : ∀ v ∈ vs, v % PAGE_SIZE = 0)
    (hav : ∀ v ∈ vs, ∀ a ∈ M.fm.pages, page v ≠ page a)
    (hvs : vs.Pairwise fun v w => page v ≠ page w)
    (hno : ∀ e ∈ (mapEach M vs s).2, ¬ RanOut M.fm e) :
    ∃ frame, Provided M vs frame s (mapEach M vs s).1 := by
  induction vs generalizing s with
  | nil =>
    exact ⟨fun _ => 0, h, by simp, by simp, by simp, by simp, fun _ _ _ => rfl, fun _ ha => ha,
      fun _ _ ht => ht⟩
  | cons v vs ih =>
    rw [mapEach, List.forall_mem_append] at hno
    obtain ⟨hturn, hrest⟩ := hno
    obtain ⟨hv, hvs⟩ := List.pairwise_cons.mp hvs
    obtain ⟨halv, hal⟩ := List.forall_mem_cons.mp hal
    have havs := (List.forall_mem_cons.mp hav).2
    rw [mapEach]
    rcases mapMissing_turned hM h48 h halv (hav v List.mem_cons_self) hturn with
      ⟨hne, hsame⟩ | ⟨hz, ⟨u, ht⟩, hothers⟩
    · rw [hsame] at hrest ⊢
      obtain ⟨frame, hframe⟩ := ih h hal havs hvs hrest
      obtain ⟨f, hf⟩ : ∃ f, lookup M s v = some f := by
        refine Option.ne_none_iff_exists'.mp fun hnone => hne ?_
        exact findPhysaddr_of_none hnone
      exact ⟨_, hframe.cons_old hv hav hf hne⟩
    · obtain ⟨frame, hframe⟩ := ih ht.settled hal havs hvs hrest
      exact ⟨_, hframe.cons_new hv hav ht hz hothers⟩

end provided

/-! ### Behind `init_paging` -/

/-- The pages of the freemap and the bitmap are no free memory, and neither holds the other or
`pml4`. -/
structure Own (M : Machine) (b : BootinfoT) : Prop where
  freemap : b.freemap % PAGE_SIZE = 0 ∧ b.freemap < 2 ^ 52 ∧ b.freemap ∉ M.fm.pages ∧
    b.freemap ≠ M.pml4
  bitmap : b.mbAddr % PAGE_SIZE = 0 ∧ b.mbAddr < 2 ^ 52 ∧ b.mbAddr ∉ M.fm.pages ∧
    b.mbAddr ≠ M.pml4
  apart : b.freemap ≠ b.mbAddr

lemma runCalls_settled (hM : FramesOk M) (h48 : ∀ a ∈ M.fm.pages, a < 2 ^ 48) (h : Settled M s)
    {calls : List (ℕ × ℕ)} (hav : ∀ c ∈ calls, ∀ a ∈ M.fm.pages, page c.2 ≠ page a)
    (hno : ∀ e ∈ (runCalls M calls s).2, ¬ RanOut M.fm e) : Settled M (runCalls M calls s).1 := by
  induction calls generalizing s with
  | nil => exact h
  | cons c cs ih =>
    obtain ⟨phys, virt⟩ := c
    obtain ⟨hno₁, hno₂⟩ := List.forall_mem_append.mp hno
    obtain ⟨hav₁, hav₂⟩ := List.forall_mem_cons.mp hav
    refine ih ?_ hav₂ hno₂
    by_cases hal : phys % PAGE_SIZE ≠ 0 ∨ virt % PAGE_SIZE ≠ 0
    · rwa [mapPage_unaligned hal]
    · rw [not_or, not_not, not_not] at hal
      exact h.mapped hM h48 (mapPage_mapped hM h.wf hal.1 hal.2 hno₁) hav₁

section boot

variable {b : BootinfoT} (hM : FramesOk M) (hb : Standard M b)
  (hno : ∀ e ∈ (initPaging M (initGlobals b) s).2, ¬ RanOut M.fm e)

include hM hb

omit hM in
/-- The addresses of `init_paging` lie above the frames. -/
lemma page_ne_frame (hv : 0x1000000000 ≤ v ∧ v < 2 ^ 48) (ha : a ∈ M.fm.pages) :
    page v ≠ page a := by
  have hlt := hb.frames a ha
  unfold page
  omega

include hno

lemma initPaging_settled : Settled M (initPaging M (initGlobals b) s).1 := by
  have hclear : Settled M (s.memset M.pml4) :=
    settled_of_clear fun i => by rw [frame_memset, if_pos rfl]
  refine runCalls_settled hM (fun a ha => (hb.frames a ha).trans (by decide)) hclear
    (fun c hc a ha => ?_) hno
  obtain ⟨-, hle, hlt, -⟩ := frameAt_bootCall (hb.placed hM) hc
  exact page_ne_frame hb ⟨hle, hlt⟩ ha

omit hno in
lemma bootCall_heap {c : ℕ × ℕ} (hc : c ∈ bootCalls (initGlobals b))
    (hv : kernelHeap ≤ v ∧ v < kernelStack - PAGE_SIZE) (hp : page c.2 = page v) :
    c = (b.freemap, kernelHeap) ∧ v / 4096 = kernelHeap / 4096 ∨
      c = (b.mbAddr, kernelHeap + PAGE_SIZE) ∧ v / 4096 = kernelHeap / 4096 + 1 := by
  have hplaced := hb.placed hM
  have hsize := hb.kSize
  have hfb := hb.fbSize
  rw [hb.kVaddr] at hsize
  unfold kernelHeap kernelStack PAGE_SIZE at hv
  unfold kernelHeap at hsize
  unfold page at hp
  rcases mem_bootCalls hplaced hc with ⟨i, hi, rfl⟩ | rfl | ⟨i, hi, rfl⟩ | hc | rfl
  · unfold PAGE_SIZE at hi hp
    dsimp only at hp
    omega
  · unfold kernelStack PAGE_SIZE at hp
    dsimp only at hp
    omega
  · unfold PAGE_SIZE at hi hp
    dsimp only at hp
    omega
  · rw [hplaced.bmap c hc] at hp ⊢
    unfold kernelHeap PAGE_SIZE at hp ⊢
    dsimp only at hp
    exact Or.inr ⟨rfl, by omega⟩
  · unfold kernelHeap at hp ⊢
    dsimp only at hp
    exact Or.inl ⟨rfl, by omega⟩

/-- A page of the heap that is mapped is that of the freemap or that of the bitmap. -/
lemma heap_mapped (hown : Own M b) (hal : v % PAGE_SIZE = 0)
    (hv : kernelHeap ≤ v ∧ v < kernelStack - PAGE_SIZE)
    (hne : findPhysaddr M (initPaging M (initGlobals b) s).1 v ≠ 0) :
    v = kernelHeap ∧ lookup M (initPaging M (initGlobals b) s).1 v = some b.freemap ∨
      v = kernelHeap + PAGE_SIZE ∧ lookup M (initPaging M (initGlobals b) s).1 v = some b.mbAddr := by
  have htk := taken_lt hM hb (wf_memset_pml4 s) hno
  have hrange : 0x1000000000 ≤ v ∧ v < 2 ^ 48 := by
    unfold kernelHeap kernelStack PAGE_SIZE at hv
    omega
  obtain ⟨c, hc, hp⟩ : ∃ c ∈ bootCalls (initGlobals b), page c.2 = page v := by
    by_contra hnone
    push Not at hnone
    exact hne (find_unnamed hM hno htk hrange hnone)
  obtain ⟨hfal, hflt, -, -⟩ := hown.freemap
  obtain ⟨hbal, hblt, -, -⟩ := hown.bitmap
  have hlook : c.1 % PAGE_SIZE = 0 → c.1 < 2 ^ 52 →
      lookup M (initPaging M (initGlobals b) s).1 v = some c.1 := by
    intro hal₁ hlt
    rw [lookup_bootCall (hb.placed hM) hM hno htk hc hal₁ hp.symm, and_mask_of_aligned hal₁ hlt]
  rcases bootCall_heap hM hb hc hv hp with ⟨rfl, hq⟩ | ⟨rfl, hq⟩
  · refine Or.inl ⟨?_, hlook hfal hflt⟩
    unfold kernelHeap PAGE_SIZE at *
    omega
  · refine Or.inr ⟨?_, hlook hbal hblt⟩
    unfold kernelHeap PAGE_SIZE at *
    omega

end boot

section block

variable {st : State} {size : ℕ}

lemma malloc_first (M : Machine) (ht : st.tables = initMalloc)
    (hsize : 0 < size ∧ size + 2 * PAGE_SIZE ≤ kernelStack - kernelHeap) :
    ∃ t, takeBlock size 0 initMalloc = (some kernelHeap, t) ∧ malloc M size st =
      .block kernelHeap t (mapEach M (pageAddrs kernelHeap size) st.paging) := by
  have huntouched : Untouched 0 initMalloc := ⟨rfl, rfl⟩
  have hfits : Fits 0 size := ⟨hsize.1, by change size ≤ kernelStack - kernelHeap; omega⟩
  obtain ⟨t, hblock⟩ := huntouched.first hfits
  exact ⟨t, hblock, mallocHeap_some (by rw [ht, hblock])⟩

lemma mem_heapPages (hsize : size + 2 * PAGE_SIZE ≤ kernelStack - kernelHeap)
    (hv : v ∈ pageAddrs kernelHeap size) :
    v % PAGE_SIZE = 0 ∧ kernelHeap ≤ v ∧ v < kernelStack - PAGE_SIZE := by
  unfold kernelHeap kernelStack PAGE_SIZE at *
  obtain ⟨i, hi, rfl⟩ := (mem_pageAddrs (by omega)).mp hv
  omega

lemma page_mem_heapPages (hsize : size + 2 * PAGE_SIZE ≤ kernelStack - kernelHeap)
    (ha : a ∈ Set.Ico kernelHeap (kernelHeap + size)) :
    a / 4096 * 4096 ∈ pageAddrs kernelHeap size := by
  obtain ⟨hle, hlt⟩ := ha
  unfold kernelHeap kernelStack PAGE_SIZE at *
  exact (mem_pageAddrs (by omega)).mpr ⟨(a - 0x1800000000) / 4096, by omega, by omega⟩

lemma heapPage_mem {i : ℕ} (hsize : size + 2 * PAGE_SIZE ≤ kernelStack - kernelHeap)
    (hi : i * PAGE_SIZE < size) : kernelHeap + i * PAGE_SIZE ∈ pageAddrs kernelHeap size := by
  unfold kernelHeap kernelStack PAGE_SIZE at *
  exact (mem_pageAddrs (by omega)).mpr ⟨i, by omega, rfl⟩

lemma pairwise_heapPages (hsize : size + 2 * PAGE_SIZE ≤ kernelStack - kernelHeap) :
    (pageAddrs kernelHeap size).Pairwise fun v w => page v ≠ page w := by
  unfold kernelHeap kernelStack PAGE_SIZE at *
  unfold pageAddrs
  rw [pageCount_eq (by omega), List.pairwise_map]
  refine List.pairwise_lt_range.imp_of_mem fun {i j} hi hj hij => ?_
  rw [List.mem_range] at hi hj
  unfold PAGE_SIZE page
  rw [add64_eq (by omega), add64_eq (by omega)]
  omega

end block

section array

variable {b : BootinfoT} (hM : FramesOk M) (hb : Standard M b) (hown : Own M b)
  (hno : ∀ e ∈ (initPaging M (initGlobals b) s).2, ¬ RanOut M.fm e) {size : ℕ}
  (hsize : size + 2 * PAGE_SIZE ≤ kernelStack - kernelHeap)

include hM hb hno hsize

lemma mapEach_heap (hnoEach : ∀ e ∈ (mapEach M (pageAddrs kernelHeap size)
      (initPaging M (initGlobals b) s).1).2, ¬ RanOut M.fm e) :
    ∃ frame, Provided M (pageAddrs kernelHeap size) frame (initPaging M (initGlobals b) s).1
      (mapEach M (pageAddrs kernelHeap size) (initPaging M (initGlobals b) s).1).1 := by
  refine mapEach_provided hM (fun a ha => (hb.frames a ha).trans (by decide))
    (initPaging_settled hM hb hno) (fun v hv => (mem_heapPages hsize hv).1) (fun v hv a ha => ?_)
    (pairwise_heapPages hsize) hnoEach
  obtain ⟨-, hle, hlt⟩ := mem_heapPages hsize hv
  unfold kernelHeap at hle
  unfold kernelStack PAGE_SIZE at hlt
  exact page_ne_frame hb ⟨by omega, by omega⟩ ha

variable {t : Paging}
  (h : Provided M (pageAddrs kernelHeap size) frame (initPaging M (initGlobals b) s).1 t)

include hown h

/-- A page of the block has a frame that was free, or that of the freemap or of the bitmap. -/
lemma frame_cases (hv : v ∈ pageAddrs kernelHeap size) :
    findPhysaddr M (initPaging M (initGlobals b) s).1 v = 0 ∧ frame v ∈ M.fm.pages ∨
      v = kernelHeap ∧ frame v = b.freemap ∨ v = kernelHeap + PAGE_SIZE ∧ frame v = b.mbAddr := by
  obtain ⟨hal, hrange⟩ := mem_heapPages hsize hv
  by_cases hz : findPhysaddr M (initPaging M (initGlobals b) s).1 v = 0
  · exact Or.inl ⟨hz, (h.fresh v hv hz).1⟩
  · have hold := h.old v hv hz
    rcases heap_mapped hM hb hno hown hal hrange hz with ⟨he, hl⟩ | ⟨he, hl⟩
    · exact Or.inr (Or.inl ⟨he, Option.some.inj (hold.symm.trans hl)⟩)
    · exact Or.inr (Or.inr ⟨he, Option.some.inj (hold.symm.trans hl)⟩)

lemma frame_inj (hv : v ∈ pageAddrs kernelHeap size) (hw : w ∈ pageAddrs kernelHeap size)
    (he : frame v = frame w) : v = w := by
  obtain ⟨-, -, hfm, -⟩ := hown.freemap
  obtain ⟨-, -, hbm, -⟩ := hown.bitmap
  have hapart := hown.apart
  rcases frame_cases hM hb hown hno hsize h hv with ⟨hzv, hv'⟩ | ⟨rfl, hv'⟩ | ⟨rfl, hv'⟩ <;>
    rcases frame_cases hM hb hown hno hsize h hw with ⟨hzw, hw'⟩ | ⟨rfl, hw'⟩ | ⟨rfl, hw'⟩
  · exact h.distinct v hv w hw hzv hzw he
  · rw [he, hw'] at hv'
    exact absurd hv' hfm
  · rw [he, hw'] at hv'
    exact absurd hv' hbm
  · rw [← he, hv'] at hw'
    exact absurd hw' hfm
  · rfl
  · exact absurd (hv'.symm.trans (he.trans hw')) hapart
  · rw [← he, hv'] at hw'
    exact absurd hw' hbm
  · exact absurd (hw'.symm.trans (he.symm.trans hv')) hapart
  · rfl

omit hM hb hown hno in
lemma find_array (ha : a ∈ Set.Ico kernelHeap (kernelHeap + size)) :
    findPhysaddr M t a = frame (a / 4096 * 4096) + a % 4096 ∧
      frame (a / 4096 * 4096) % PAGE_SIZE = 0 := by
  have hl := h.mapped _ (page_mem_heapPages hsize ha)
  have hp : lookup M t a = some (frame (a / 4096 * 4096)) := by
    rw [← hl]
    exact lookup_congr (page_eq_of_div (by omega))
  exact ⟨findPhysaddr_of_lookup hp, Aliasing.lookup_aligned hl⟩

/-- **No two bytes of the block have the same memory.** -/
lemma injOn_array : Set.InjOn (findPhysaddr M t) (Set.Ico kernelHeap (kernelHeap + size)) := by
  intro a ha c hc he
  obtain ⟨hfa, hala⟩ := find_array hsize h ha
  obtain ⟨hfc, halc⟩ := find_array hsize h hc
  rw [hfa, hfc] at he
  unfold PAGE_SIZE at hala halc
  have hframe : frame (a / 4096 * 4096) = frame (c / 4096 * 4096) := by omega
  have hpage := frame_inj hM hb hown hno hsize h (page_mem_heapPages hsize ha)
    (page_mem_heapPages hsize hc) hframe
  omega

lemma not_isTable_array (ha : a ∈ Set.Ico kernelHeap (kernelHeap + size)) :
    ¬ IsTable M t (findPhysaddr M t a / PAGE_SIZE * PAGE_SIZE) := by
  obtain ⟨hfind, hal⟩ := find_array hsize h ha
  have hbase : findPhysaddr M t a / PAGE_SIZE * PAGE_SIZE = frame (a / 4096 * 4096) := by
    unfold PAGE_SIZE at *
    omega
  rw [hbase]
  have hmem := page_mem_heapPages hsize ha
  have hout : ∀ x, x ∉ M.fm.pages → x ≠ M.pml4 → ¬ IsTable M t x := by
    intro x hx h4 htab
    exact hx (mem_of_inUse ((h.settled.wf.inUse x htab).resolve_left h4))
  obtain ⟨-, -, hfm, hfm4⟩ := hown.freemap
  obtain ⟨-, -, hbm, hbm4⟩ := hown.bitmap
  rcases frame_cases hM hb hown hno hsize h hmem with ⟨hz, -⟩ | ⟨-, he⟩ | ⟨-, he⟩
  · exact (h.fresh _ hmem hz).2.2
  · rw [he]
    exact hout _ hfm hfm4
  · rw [he]
    exact hout _ hbm hbm4

/-- There is a third page, and it has a frame that was free. -/
lemma fmDescs_pos (hthree : 2 * PAGE_SIZE < size) : 0 < M.fm.fmDescs := by
  have hmem : kernelHeap + 2 * PAGE_SIZE ∈ pageAddrs kernelHeap size :=
    heapPage_mem hsize hthree
  refine Nat.pos_of_ne_zero fun h0 => ?_
  have hnone : M.fm.pages = [] := by
    rw [Freemap.pages, h0]
    rfl
  rcases frame_cases hM hb hown hno hsize h hmem with ⟨-, hin⟩ | ⟨he, -⟩ | ⟨he, -⟩
  · rw [hnone] at hin
    exact List.not_mem_nil hin
  · exact absurd he (by decide)
  · exact absurd he (by decide)

end array

/-- What is logged is what was stored. -/
lemma readInts_fillInts (ram : Mem) {addr count : ℕ}
    (hinj : Set.InjOn tr (Set.Ico addr (addr + sizeofInt * count))) (hcount : count < 2 ^ 32) :
    readInts tr addr count (fillInts tr addr count ram) = List.range count := by
  have hall : ∀ i ∈ List.range count,
      le (view tr (fillInts tr addr count ram)) sizeofInt (addr + sizeofInt * i) = i := by
    intro i hi
    rw [List.mem_range] at hi
    exact le_fillInts hinj hi (hi.trans hcount)
  rw [readInts, List.map_congr_left hall, List.map_id']

/-- The second block lies in the last page of the first one. -/
lemma malloc_second {p : State} {t : Tables}
    (ht : takeBlock (sizeofInt * COUNT) 0 initMalloc = (some kernelHeap, t)) (htables : p.tables = t)
    (hmap : findPhysaddr M p.paging (kernelHeap + sizeofInt * COUNT) ≠ 0) :
    ∃ t', malloc M (sizeofInt * 5) p =
      ⟨kernelHeap + sizeofInt * COUNT, ⟨t', p.paging⟩, []⟩ := by
  have hblock : (takeBlock (sizeofInt * 5) 0 (takeBlock (sizeofInt * COUNT) 0 initMalloc).2).1 =
      some (kernelHeap + sizeofInt * COUNT) := by decide +kernel
  have haddrs : pageAddrs (kernelHeap + sizeofInt * COUNT) (sizeofInt * 5) =
      [kernelHeap + sizeofInt * COUNT] := by decide +kernel
  rw [ht] at hblock
  rcases hr : takeBlock (sizeofInt * 5) 0 p.tables with ⟨_ | addr, t'⟩
  · rw [htables] at hr
    rw [hr] at hblock
    cases hblock
  · rw [htables] at hr
    rw [hr] at hblock
    obtain rfl := Option.some.inj hblock
    refine ⟨t', ?_⟩
    rw [malloc, mallocHeap_some (by rw [htables, hr]), haddrs, mapEach, mapMissing_mapped hmap]
    rfl

lemma initArrays_eq {st : State} {addr : ℕ} {t : Tables} {r : Paging × List Event} {q : Served}
    (hp : malloc M (sizeofInt * COUNT) st = .block addr t r)
    (hq : malloc M (sizeofInt * 5) ⟨t, r.1⟩ = q) : initArrays M st ram =
      ⟨addr, readInts (findPhysaddr M r.1) addr COUNT
        (fillInts (findPhysaddr M r.1) addr COUNT ram),
        fillInts (findPhysaddr M r.1) addr COUNT ram, q⟩ := by
  subst hq
  unfold initArrays
  rw [hp]
  rfl

/-- **The array of `init`.** With enough frames it lies where the heap begins and reads back as it
was stored, whatever was in memory, and none of its bytes lies in a page table; the second block
takes no frame. But the freemap and the bitmap are stored over: the next page that the allocator
would hand out is at 4 GB, whatever memory there is. -/
theorem initArrays_reads (M : Machine) (hM : FramesOk M) (b : BootinfoT) (hb : Standard M b)
    (hown : Own M b) (s : Paging)
    (hno : ∀ e ∈ (initPaging M (initGlobals b) s).2, ¬ RanOut M.fm e)
    (hroom : ∀ e ∈ (malloc M (sizeofInt * COUNT) (initMemory M (initGlobals b) s)).trace,
      ¬ RanOut M.fm e) (ram : Mem) :
    let r := initArrays M (initMemory M (initGlobals b) s) ram
    let tr := findPhysaddr M r.addr2.state.paging
    r.addr = kernelHeap ∧ r.logged = List.range COUNT ∧
      (∀ a ∈ Set.Ico r.addr (r.addr + sizeofInt * COUNT),
        ¬ IsTable M r.addr2.state.paging (tr a / PAGE_SIZE * PAGE_SIZE)) ∧
      r.addr2.ptr = r.addr + sizeofInt * COUNT ∧ r.addr2.trace = [] ∧
      allocFrom M (view tr r.ram) = 0x100000000 := by
  have hsize : sizeofInt * COUNT + 2 * PAGE_SIZE ≤ kernelStack - kernelHeap := by decide
  have htables : (initMemory M (initGlobals b) s).tables = initMalloc := rfl
  obtain ⟨t, ht, hp⟩ := malloc_first M htables ⟨by decide, hsize⟩
  -- the kernel would go through all pages to see that the two are the same
  have hpaging : (initMemory M (initGlobals b) s).paging = (initPaging M (initGlobals b) s).1 := rfl
  rw [hpaging] at hp
  rw [hp, trace_block] at hroom
  obtain ⟨frame, h⟩ := mapEach_heap hM hb hno hsize hroom
  have hinj := injOn_array hM hb hown hno hsize h
  have hlast : kernelHeap + 39 * PAGE_SIZE ∈ pageAddrs kernelHeap (sizeofInt * COUNT) :=
    heapPage_mem hsize (by decide)
  have hmap : findPhysaddr M (mapEach M (pageAddrs kernelHeap (sizeofInt * COUNT))
      (initPaging M (initGlobals b) s).1).1 (kernelHeap + sizeofInt * COUNT) ≠ 0 := by
    have hpage : page (kernelHeap + 39 * PAGE_SIZE) = page (kernelHeap + sizeofInt * COUNT) := by
      decide
    have hl := h.mapped _ hlast
    rw [lookup_congr hpage] at hl
    rw [findPhysaddr_of_lookup hl]
    exact Nat.ne_of_gt (Nat.add_pos_right _ (by decide))
  obtain ⟨t', hq⟩ := malloc_second (M := M) (p := ⟨t, _⟩) ht rfl hmap
  have hcount : COUNT < 2 ^ 32 := by decide
  have hlogged := readInts_fillInts ram hinj hcount
  rw [initArrays_eq hp hq]
  dsimp only
  refine ⟨rfl, hlogged, fun a ha => ?_, rfl, rfl, ?_⟩
  · exact not_isTable_array hM hb hown hno hsize h ha
  · refine allocFrom_eq (fmDescs_pos hM hb hown hno hsize h (by decide)) fun i hi => ?_
    exact le_fillInts hinj (hi.trans_lt (by decide)) (by omega)

def wideHandoff : BootinfoT := { smallHandoff with mbPages := 64 }

lemma standard_wideHandoff : Standard (smallMachine 64 (by decide)) wideHandoff :=
  ⟨by decide, by decide, by decide, rfl, by decide, by decide, by decide +kernel, rfl⟩

lemma own_wideHandoff : Own (smallMachine 64 (by decide)) wideHandoff :=
  ⟨by decide +kernel, by decide +kernel, by decide⟩

theorem initArrays_reads_wide :
    let M := smallMachine 64 (by decide)
    let r := initArrays M (initMemory M (initGlobals wideHandoff) zeroed) fun _ => 0
    r.addr = kernelHeap ∧ r.logged = List.range COUNT ∧ r.addr2.ptr = r.addr + sizeofInt * COUNT ∧
      allocFrom M (view (findPhysaddr M r.addr2.state.paging) r.ram) = 0x100000000 := by
  have h := initArrays_reads (smallMachine 64 (by decide)) (framesOk_smallMachine (by decide))
    wideHandoff standard_wideHandoff own_wideHandoff zeroed (by decide +kernel) (by decide +kernel)
    fun _ => 0
  exact ⟨h.1, h.2.1, h.2.2.2.1, h.2.2.2.2.2⟩

end FlameOS.Startup
