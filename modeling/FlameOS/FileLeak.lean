import FlameOS.FileRuns
import FlameOS.FreePages

/-!
What files take from the kernel heap and give back to it.

The count of live blocks settles it: a call of `malloc` that succeeds adds one, and a call of
`free` takes one away at most. What an open file is still to give back is held against that.
-/

namespace FlameOS.FileLeak

open FlameOS.PageTable FlameOS.MapPage FlameOS.MapRun FlameOS.HeapTable FlameOS.Fat
open FlameOS.FatName FlameOS.FileSystem FlameOS.FileRuns

/-! ### The number of blocks -/

def blocks (h : Heap.State) : Set MemT := {b | Heap.Live h.tables 0 b}

noncomputable def count (h : Heap.State) : ℕ := (blocks h).ncard

/-- A heap with finitely many blocks, none of which meet. -/
structure Tidy (h : Heap.State) : Prop where
  sound : Heap.Sound h.tables
  finite : (blocks h).Finite

variable {M : Machine} {h : Heap.State} {size addr : ℕ} {sizes ptrs : List ℕ}

lemma Tidy.malloc (ht : Tidy h) (hptr : (Heap.malloc M size h).ptr ≠ 0) :
    Tidy (Heap.malloc M size h).state ∧
      count (Heap.malloc M size h).state = count h + 1 := by
  unfold count
  unfold Heap.malloc at *
  rcases htake : takeBlock size 0 h.tables with ⟨_ | addr, t⟩
  · rw [Heap.mallocHeap_none htake] at hptr
    exact absurd rfl hptr
  · have hblocks : blocks (Heap.mallocHeap M size 0 h).state = insert ⟨addr, size⟩ (blocks h) := by
      ext b
      change Heap.Live (Heap.mallocHeap M size 0 h).state.tables 0 b ↔ _
      rw [Heap.tables_mallocHeap, htake, Heap.live_takeBlock htake, eq_self_iff_true, true_and]
      exact or_comm
    have hnew : (⟨addr, size⟩ : MemT) ∉ blocks h := by
      intro hmem
      obtain ⟨-, hpos, -⟩ := Heap.takeBlock_some htake
      exact HeapArena.not_disjoint_self hpos (ht.sound.fresh htake (by decide) hmem)
    refine ⟨⟨?_, ?_⟩, ?_⟩
    · rw [Heap.tables_mallocHeap]
      exact ht.sound.takeBlock size 0
    · rw [hblocks]
      exact ht.finite.insert _
    · rw [hblocks, Set.ncard_insert_of_notMem hnew ht.finite]

lemma Tidy.mallocs (ht : Tidy h) (hptrs : ∀ p ∈ (mallocs M sizes h).1, p ≠ 0) :
    Tidy (mallocs M sizes h).2 ∧
      count (mallocs M sizes h).2 = count h + sizes.length := by
  induction sizes generalizing h with
  | nil => exact ⟨ht, rfl⟩
  | cons size sizes ih =>
    rw [FileSystem.mallocs] at hptrs ⊢
    obtain ⟨ht₁, hcard₁⟩ := ht.malloc (hptrs _ List.mem_cons_self)
    obtain ⟨ht₂, hcard₂⟩ := ih ht₁ fun p hp => hptrs p (List.mem_cons_of_mem _ hp)
    refine ⟨ht₂, ?_⟩
    rw [hcard₂, hcard₁, List.length_cons]
    omega

lemma Tidy.free (ht : Tidy h) (addr : ℕ) :
    Tidy (Heap.free M addr h) ∧
      count h ≤ count (Heap.free M addr h) + 1 := by
  have hsound : Heap.Sound (Heap.free M addr h).tables := by
    rw [Heap.tables_free]
    exact ht.sound.returnBlock addr
  have hblocks : blocks (Heap.free M addr h) ⊆ blocks h ∧
      ∃ b, blocks h ⊆ insert b (blocks (Heap.free M addr h)) := by
    unfold blocks Heap.Live
    rw [Heap.tables_free]
    rcases allocations_returnBlock addr h.tables with he | ⟨heap, k, -, -, he⟩
    · rw [he]
      exact ⟨subset_rfl, ⟨0, 0⟩, Set.subset_insert _ _⟩
    · rw [he]
      refine ⟨?_, h.tables.allocations heap k, ?_⟩
      · rintro b ⟨l, rfl, hpos⟩
        rw [allocations_setAlloc] at hpos ⊢
        split at hpos
        · exact absurd hpos (lt_irrefl 0)
        · rename_i hne
          rw [if_neg hne]
          exact ⟨l, rfl, hpos⟩
      · rintro b ⟨l, rfl, hpos⟩
        by_cases hl : 0 = heap ∧ l = k
        · obtain ⟨rfl, rfl⟩ := hl
          exact Set.mem_insert _ _
        · refine Set.mem_insert_of_mem _ ⟨l, ?_, hpos⟩
          rw [allocations_setAlloc, if_neg hl]
  obtain ⟨hsub, b, hins⟩ := hblocks
  have hfin := ht.finite.subset hsub
  refine ⟨⟨hsound, hfin⟩, ?_⟩
  calc count h ≤ (insert b (blocks (Heap.free M addr h))).ncard :=
        Set.ncard_le_ncard hins (hfin.insert b)
    _ ≤ count (Heap.free M addr h) + 1 := Set.ncard_insert_le _ _

lemma Tidy.frees (ht : Tidy h) (ptrs : List ℕ) :
    Tidy (frees M ptrs h) ∧
      count h ≤ count (frees M ptrs h) + ptrs.length := by
  induction ptrs generalizing h with
  | nil => exact ⟨ht, le_refl _⟩
  | cons p ptrs ih =>
    rw [FileSystem.frees]
    obtain ⟨ht₁, hcard₁⟩ := @Tidy.free M h ht p
    obtain ⟨ht₂, hcard₂⟩ := ih ht₁
    refine ⟨ht₂, ?_⟩
    rw [List.length_cons]
    omega

/-- The heap is tidy whatever has been taken from it and given back. -/
lemma tidy_run (M : Machine) (cs : List Heap.Call) (p : Paging) :
    Tidy (Heap.run M cs ⟨initMalloc, p⟩) where
  sound := Heap.sound_initMalloc.run cs
  finite := by
    have hin : FreePages.InTable (Heap.run M cs ⟨initMalloc, p⟩).tables :=
      FreePages.inTable_initMalloc.run cs
    have himage : blocks (Heap.run M cs ⟨initMalloc, p⟩) ⊆
        (fun k => (Heap.run M cs ⟨initMalloc, p⟩).tables.allocations 0 k) ''
          (Set.Iio ALLOCATIONS) := by
      intro b hb
      obtain ⟨k, hk, rfl⟩ := FreePages.exists_index hin hb
      exact ⟨k, hk, rfl⟩
    exact ((Set.finite_Iio _).image _).subset himage

/-! ### What a call adds -/

/-- The calls of `free` that `fclose` makes for a file. -/
def releases (f : FILE) : ℕ := (f.path.slots.takeWhile (· ≠ 0)).length + 1

/-- What the open files are still to give back. -/
def owed (S : System) (c : Config) : ℕ :=
  (c.opened.map fun fp => releases (c.state.file (fileIndex S fp))).sum

def opens : Call → ℕ
  | .fopen path _ => if dirs path = 0 then 0 else 1
  | _ => 0

variable {S : System} {fuel k fp : ℕ} {path rest : List UInt8} {junk : Junk} {c c' : Config}
  {call : Call} {calls : List Call}

lemma slots_store (p : Path) (stores : List Store) :
    (stores.foldl Path.store p).slots.length = p.slots.length := by
  induction stores generalizing p with
  | nil => rfl
  | cons st stores ih =>
    rw [List.foldl_cons, ih]
    cases st with
    | slot index ptr => exact List.length_set
    | char j i c => rfl

lemma releases_openedFile (old : FILE) (volume : UInt8) (ptrs : List ℕ) (size : UInt64) :
    releases { openedFile old path rest volume ptrs junk with size := size } ≤
      (dirs path).toNat + 2 := by
  have hslots : (fpath path rest ptrs junk).slots.length = (dirs path).toNat + 1 := by
    unfold fpath
    rw [slots_store, List.length_map, List.length_range]
  have hle := (List.takeWhile_sublist (l := (fpath path rest ptrs junk).slots)
    (fun x => decide (x ≠ 0))).length_le
  unfold releases openedFile
  dsimp only
  omega

lemma length_pathSizes (path : List UInt8) : (pathSizes path).length = (dirs path).toNat + 1 := by
  unfold pathSizes
  rw [List.length_cons, List.length_replicate]

/-- What the open files owe is not changed by a change of another file. -/
lemma owed_update {f : FILE} (hk : ∀ fp ∈ c.opened, fileIndex S fp = k →
    releases f = releases (c.state.file k)) (heap : Heap.State) (ptrs : List ℕ) :
    owed S ⟨⟨heap, Function.update c.state.file k f⟩, c.opened, ptrs⟩ = owed S c := by
  unfold owed
  dsimp only
  congr 1
  refine List.map_congr_left fun fp hfp => ?_
  by_cases he : fileIndex S fp = k
  · rw [he, Function.update_self, hk fp hfp he]
  · rw [Function.update_of_ne he]

lemma Tidy.findEntry {h : Heap.State} {f : FILE} {r : FATEntry × List ℕ × Heap.State} (ht : Tidy h)
    (hr : findEntry S fuel f junk h = some r) (hptrs : ∀ p ∈ r.2.1, p ≠ 0) :
    Tidy r.2.2 ∧ count r.2.2 = count h + 2 := by
  have hm : r.2 = FileSystem.mallocs S.machine
      [SECTOR_SIZE, (bytesPerCluster (S.parts f.volume.toInt8.toInt).volume).toNat] h := by
    unfold FileSystem.findEntry at hr
    dsimp only at hr
    split at hr <;> cases hr <;> rfl
  rw [hm] at hptrs ⊢
  exact ht.mallocs hptrs

lemma count_fopen (hheld : Held S c) (ht : Tidy c.state.heap) {r : Reply ℕ}
    (hr : Opened S fuel path junk c.state r) (hptrs : ∀ p ∈ r.ptrs, p ≠ 0) :
    Tidy r.state.heap ∧
      count c.state.heap + owed S ⟨r.state, if r.value = 0 then c.opened else r.value :: c.opened,
          c.ptrs ++ r.ptrs⟩ + opens (.fopen path junk) ≤ count r.state.heap + owed S c := by
  have hdirs : dirs path ≠ 0 → (dirs path).toNat ≠ 0 := fun hd h0 =>
    hd (UInt32.toNat_inj.mp h0)
  have hlen := length_pathSizes path
  unfold opens
  dsimp only
  cases hr with
  | noSlash hd =>
    rw [if_pos hd]
    exact ⟨ht, le_of_eq rfl⟩
  | rejected hd _ =>
    have hpos := hdirs hd
    rw [if_neg hd]
    obtain ⟨ht₁, hcard₁⟩ := ht.mallocs hptrs
    obtain ⟨ht₂, hcard₂⟩ := @Tidy.free S.machine _ ht₁
      ((mallocs S.machine (pathSizes path) c.state.heap).1.headD 0)
    refine ⟨ht₂, ?_⟩
    change count c.state.heap + owed S c + 1 ≤ _
    dsimp only
    omega
  | @unknown volume rest k hd _ hunused =>
    have hpos := hdirs hd
    rw [if_neg hd]
    obtain ⟨ht₁, hcard₁⟩ := ht.mallocs hptrs
    refine ⟨ht₁, ?_⟩
    rw [if_pos rfl, owed_update fun fp hfp hk => absurd hk (hheld.ne_index hunused hfp)]
    dsimp only
    omega
  | @opened volume rest k entry ptrs h' hd _ hunused hfound =>
    have hpos := hdirs hd
    rw [if_neg hd]
    obtain ⟨ht₁, hcard₁⟩ := ht.mallocs fun p hp => hptrs p (List.mem_append_left _ hp)
    obtain ⟨ht₂, hcard₂⟩ := ht₁.findEntry hfound fun p hp =>
      hptrs p (List.mem_append_right _ hp)
    refine ⟨ht₂, ?_⟩
    dsimp only at hcard₂ ⊢
    have hrel := @releases_openedFile path rest junk (c.state.file k) volume
      (mallocs S.machine (pathSizes path) c.state.heap).1 (entrySize entry).toUInt64
    dsimp only at hrel
    have hrest := @owed_update S k c { openedFile (c.state.file k) path rest volume
        (mallocs S.machine (pathSizes path) c.state.heap).1 junk with
        size := (entrySize entry).toUInt64 }
      (fun fp hfp hk => absurd hk (hheld.ne_index hunused hfp)) h'
      (c.ptrs ++ ((mallocs S.machine (pathSizes path) c.state.heap).1 ++ ptrs))
    split
    · rw [hrest]
      omega
    · -- the new file owes its array and its components, which are among the blocks
      unfold owed at hrest ⊢
      dsimp only at hrest ⊢
      rw [List.map_cons, List.sum_cons, hrest, fileIndex_fileAddr, Function.update_self]
      omega

lemma count_fread {bytes : UInt64} (ht : Tidy c.state.heap) {r : Reply (ℕ × List UInt8)}
    (hr : fread S fuel fp bytes junk c.state = some r) (hptrs : ∀ p ∈ r.ptrs, p ≠ 0) :
    Tidy r.state.heap ∧ count c.state.heap ≤ count r.state.heap := by
  rw [fread] at hr
  dsimp only at hr
  split at hr
  · obtain ⟨⟨out, ptrs, h⟩, hread, rfl⟩ := Option.map_eq_some_iff.mp hr
    unfold fatRead at hread
    obtain ⟨⟨entry, ptrs', h'⟩, hfound, hread⟩ := Option.bind_eq_some_iff.mp hread
    obtain ⟨out', -, he⟩ := Option.map_eq_some_iff.mp hread
    simp only [Prod.mk.injEq] at he
    obtain ⟨rfl, rfl, rfl⟩ := he
    obtain ⟨ht₁, hcard₁⟩ := ht.mallocs fun p hp => hptrs p (List.mem_append_left _ hp)
    obtain ⟨ht₂, hcard₂⟩ := ht₁.findEntry hfound fun p hp => hptrs p (List.mem_append_right _ hp)
    dsimp only at hcard₂ ⊢
    split
    · exact ⟨ht₂, by omega⟩
    · obtain ⟨ht₃, hcard₃⟩ := @Tidy.free S.machine _ ht₂ ((mallocs S.machine
        [SECTOR_SIZE, (bytesPerCluster (S.parts
          (c.state.file (fileIndex S fp)).volume.toNat).volume).toNat] c.state.heap).1.headD 0)
      dsimp only at hcard₃
      refine ⟨ht₃, ?_⟩
      rw [List.length_cons, List.length_singleton] at hcard₁
      omega
  · cases hr
    exact ⟨ht, le_refl _⟩

lemma count_fclose (ht : Tidy c.state.heap) (hfp : fp ∈ c.opened) :
    Tidy (fclose S fp c.state).2.heap ∧
      count c.state.heap + owed S ⟨(fclose S fp c.state).2, c.opened.erase fp, c.ptrs⟩ ≤
        count (fclose S fp c.state).2.heap + owed S c := by
  have hsum := List.sum_map_erase (fun fp => releases (c.state.file (fileIndex S fp))) hfp
  unfold fclose
  split
  · refine ⟨ht, ?_⟩
    unfold owed
    dsimp only
    omega
  · dsimp only
    obtain ⟨ht₁, hcard₁⟩ := @Tidy.frees S.machine _ ht
      ((c.state.file (fileIndex S fp)).path.slots.takeWhile (· ≠ 0) ++
        [(c.state.file (fileIndex S fp)).path.addr])
    have hother := @owed_update S (fileIndex S fp) ⟨c.state, c.opened.erase fp, c.ptrs⟩
      { c.state.file (fileIndex S fp) with used := false } (fun _ _ _ => rfl)
      (frees S.machine ((c.state.file (fileIndex S fp)).path.slots.takeWhile (· ≠ 0) ++
        [(c.state.file (fileIndex S fp)).path.addr]) c.state.heap) c.ptrs
    refine ⟨ht₁, ?_⟩
    rw [hother]
    rw [List.length_append, List.length_singleton] at hcard₁
    unfold owed
    dsimp only
    change count c.state.heap ≤ _ + releases (c.state.file (fileIndex S fp)) at hcard₁
    omega

lemma exec_ptrs (hexec : exec S fuel call c = some c') : ∃ ptrs, c'.ptrs = c.ptrs ++ ptrs := by
  cases call with
  | fopen path junk =>
    obtain ⟨r, -, rfl⟩ := Option.map_eq_some_iff.mp hexec
    exact ⟨r.ptrs, rfl⟩
  | fread fp bytes junk =>
    obtain ⟨r, -, rfl⟩ := Option.map_eq_some_iff.mp hexec
    exact ⟨r.ptrs, rfl⟩
  | fseek fp offset position =>
    cases hexec
    exact ⟨[], (List.append_nil _).symm⟩
  | rewind fp =>
    cases hexec
    exact ⟨[], (List.append_nil _).symm⟩
  | fclose fp =>
    cases hexec
    exact ⟨[], (List.append_nil _).symm⟩

lemma runs_ptrs (hrun : Runs S calls c c') : ∃ ptrs, c'.ptrs = c.ptrs ++ ptrs := by
  induction hrun with
  | nil => exact ⟨[], (List.append_nil _).symm⟩
  | cons _ hexec _ ih =>
    obtain ⟨ptrs, hptrs⟩ := exec_ptrs hexec
    obtain ⟨ptrs', hptrs'⟩ := ih
    exact ⟨ptrs ++ ptrs', by rw [hptrs', hptrs, List.append_assoc]⟩

/-- A call adds to the blocks what it makes the open files owe, and one at least if it opens a
path with a slash. -/
lemma count_exec (hheld : Held S c) (ht : Tidy c.state.heap) (hfp : ∀ fp ∈ call.fp, fp ∈ c.opened)
    (hexec : exec S fuel call c = some c') (hptrs : ∀ p ∈ c'.ptrs, p ≠ 0) :
    Tidy c'.state.heap ∧
      count c.state.heap + owed S c' + opens call ≤ count c'.state.heap + owed S c := by
  cases call with
  | fopen path junk =>
    obtain ⟨r, hr, rfl⟩ := Option.map_eq_some_iff.mp hexec
    exact count_fopen hheld ht (fopen_cases hr) fun p hp => hptrs p (List.mem_append_right _ hp)
  | fread fp bytes junk =>
    obtain ⟨r, hr, rfl⟩ := Option.map_eq_some_iff.mp hexec
    obtain ⟨ht', hcount⟩ := count_fread ht hr fun p hp => hptrs p (List.mem_append_right _ hp)
    refine ⟨ht', ?_⟩
    have howed : owed S { c with state := r.state, ptrs := c.ptrs ++ r.ptrs } = owed S c := by
      unfold owed
      dsimp only
      rw [file_fread hr]
    rw [howed]
    exact Nat.add_le_add_right hcount _
  | fseek fp offset position =>
    cases hexec
    refine ⟨ht, ?_⟩
    have howed : owed S { c with state := (fseek S fp offset position c.state).2 } = owed S c := by
      obtain ⟨p, hp⟩ := seek_eq (c.state.file (fileIndex S fp)) offset position
      exact owed_update (fun _ _ _ => by rw [hp]; rfl) _ _
    rw [howed]
    exact le_refl _
  | rewind fp =>
    cases hexec
    unfold rewind
    dsimp only
    split
    · exact ⟨ht, le_refl _⟩
    · have howed := @owed_update S (fileIndex S fp) c
        { c.state.file (fileIndex S fp) with pointer := 0 } (fun _ _ _ => rfl) c.state.heap c.ptrs
      exact ⟨ht, Nat.add_le_add_left howed.le _⟩
  | fclose fp =>
    cases hexec
    exact count_fclose ht (hfp fp rfl)

lemma count_runs (hrun : Runs S calls c c') (hheld : Held S c) (ht : Tidy c.state.heap)
    (hptrs : ∀ p ∈ c'.ptrs, p ≠ 0) :
    count c.state.heap + owed S c' + (calls.map opens).sum ≤ count c'.state.heap + owed S c := by
  induction hrun with
  | nil => simp
  | cons hfp hexec hrest ih =>
    obtain ⟨ptrs, hall⟩ := runs_ptrs hrest
    obtain ⟨ht₁, hcount⟩ := count_exec hheld ht hfp hexec fun p hp =>
      hptrs p (hall ▸ List.mem_append_left _ hp)
    have hrun := ih (hheld.exec hfp hexec) ht₁ hptrs
    rw [List.map_cons, List.sum_cons]
    omega

/-- Without a slash no file is opened, and nothing happens. -/
lemma runs_noSlash (hrun : Runs S calls c c') (hnone : c.opened = [])
    (hno : ∀ path junk, Call.fopen path junk ∈ calls → dirs path = 0) : c'.state = c.state := by
  induction hrun with
  | nil => rfl
  | @cons call calls c c₁ c' fuel hfp hexec _ ih =>
    rw [hnone] at hfp
    cases call with
    | fopen path junk =>
      have hdirs := hno path junk List.mem_cons_self
      have hreply : fopen S fuel path junk c.state = some ⟨0, c.state, []⟩ := if_pos hdirs
      rw [exec, hreply] at hexec
      cases hexec
      exact ih hnone fun path junk hmem => hno path junk (List.mem_cons_of_mem _ hmem)
    | fread fp bytes junk => exact absurd (hfp fp rfl) List.not_mem_nil
    | fseek fp offset position => exact absurd (hfp fp rfl) List.not_mem_nil
    | rewind fp => exact absurd (hfp fp rfl) List.not_mem_nil
    | fclose fp => exact absurd (hfp fp rfl) List.not_mem_nil

/-- **Files leak.** In a run in which `malloc` never fails and every file that is opened is closed
once, the kernel heap has the same live blocks at the end as at the start exactly if no path that
is opened has a slash in it, which is to say, if no file is opened. -/
theorem files_keep_blocks_iff (S : System) (hcs : List Heap.Call) (p : Paging)
    (file : ℕ → FILE) (calls : List Call) (c' : Config)
    (hrun : Runs S calls ⟨⟨Heap.run S.machine hcs ⟨initMalloc, p⟩, file⟩, [], []⟩ c')
    (hclosed : c'.opened = []) (hptrs : ∀ q ∈ c'.ptrs, q ≠ 0) :
    (∀ b, Heap.Live c'.state.heap.tables 0 b ↔
      Heap.Live (Heap.run S.machine hcs ⟨initMalloc, p⟩).tables 0 b) ↔
    ∀ path junk, Call.fopen path junk ∈ calls → dirs path = 0 := by
  constructor
  · intro hsame path junk hmem
    by_contra hdirs
    have hcount := count_runs hrun (held_nil S _ _) (tidy_run S.machine hcs p) hptrs
    have hblocks : blocks c'.state.heap = blocks (Heap.run S.machine hcs ⟨initMalloc, p⟩) :=
      Set.ext hsame
    have howed : owed S c' = 0 := by
      unfold owed
      rw [hclosed]
      rfl
    have hone : opens (.fopen path junk) ≤ (calls.map opens).sum :=
      List.single_le_sum (fun _ _ => Nat.zero_le _) _ (List.mem_map_of_mem hmem)
    rw [opens, if_neg hdirs] at hone
    unfold count at hcount
    rw [hblocks, howed] at hcount
    have hnil : owed S ⟨⟨Heap.run S.machine hcs ⟨initMalloc, p⟩, file⟩, [], []⟩ = 0 := rfl
    rw [hnil] at hcount
    dsimp only at hcount
    omega
  · intro hno b
    rw [runs_noSlash hrun rfl hno]

theorem files_keep_blocks_iff_ten :
    ∃ c', Runs smallSystem
        [.fopen tenPath zeros, .fread 0x1000 6 zeros, .fseek 0x1000 8 .cur, .fclose 0x1000]
        ⟨⟨Heap.run smallSystem.machine [] ⟨initMalloc, zeroed⟩, cleared.file⟩, [], []⟩ c' ∧
      c'.opened = [] ∧ (∀ q ∈ c'.ptrs, q ≠ 0) ∧
      ¬ ∀ b, Heap.Live c'.state.heap.tables 0 b ↔
        Heap.Live (Heap.run smallSystem.machine [] ⟨initMalloc, zeroed⟩).tables 0 b := by
  have heval : (execAll smallSystem 1
      [.fopen tenPath zeros, .fread 0x1000 6 zeros, .fseek 0x1000 8 .cur, .fclose 0x1000]
      ⟨⟨Heap.run smallSystem.machine [] ⟨initMalloc, zeroed⟩, cleared.file⟩, [], []⟩).map
        (fun c => (c.opened, decide (∀ q ∈ c.ptrs, q ≠ 0))) = some ([], true) := by decide +kernel
  obtain ⟨c', hc', hval⟩ := Option.map_eq_some_iff.mp heval
  simp only [Prod.mk.injEq, decide_eq_true_eq] at hval
  refine ⟨c', runs_of_execAll hc', hval.1, hval.2, fun hsame => ?_⟩
  have hdirs := (files_keep_blocks_iff smallSystem [] zeroed cleared.file _ c'
    (runs_of_execAll hc') hval.1 hval.2).mp hsame tenPath zeros List.mem_cons_self
  exact absurd hdirs (by decide)

/-- The sector of the FAT that `find_fat_entry` reads is never given back. -/
theorem not_files_keep_blocks :
    ∃ c', Runs smallSystem [.fopen tenPath zeros, .fclose 0x1000] ⟨cleared, [], []⟩ c' ∧
      c'.opened = [] ∧ (∀ q ∈ c'.ptrs, q ≠ 0) ∧
      Heap.Live c'.state.heap.tables 0 ⟨kernelHeap + 272, 512⟩ ∧
      ∀ b, ¬ Heap.Live cleared.heap.tables 0 b := by
  have heval : (execAll smallSystem 1 [.fopen tenPath zeros, .fclose 0x1000]
      ⟨cleared, [], []⟩).map (fun c => (c.opened, decide (∀ q ∈ c.ptrs, q ≠ 0),
        c.state.heap.tables.allocations 0 2)) = some ([], true, ⟨kernelHeap + 272, 512⟩) := by
    decide +kernel
  obtain ⟨c', hc', hval⟩ := Option.map_eq_some_iff.mp heval
  simp only [Prod.mk.injEq, decide_eq_true_eq] at hval
  refine ⟨c', runs_of_execAll hc', hval.1, hval.2.1, ⟨2, hval.2.2, by decide⟩, ?_⟩
  rintro b ⟨k, rfl, hpos⟩
  exact absurd hpos (lt_irrefl 0)

end FlameOS.FileLeak
