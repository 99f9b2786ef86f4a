import FlameOS.FileSystem

/-!
Runs of calls on files: which files are open, and where in them the next byte is.
-/

namespace FlameOS.FileRuns

open FlameOS.PageTable FlameOS.MapRun FlameOS.HeapTable FlameOS.Fat FlameOS.FatFind
open FlameOS.FileSystem

inductive Call
  | fopen (path : List UInt8) (junk : Junk)
  | fread (fp : ℕ) (bytes : UInt64) (junk : Junk)
  | fseek (fp : ℕ) (offset : Int64) (position : Fpos)
  | rewind (fp : ℕ)
  | fclose (fp : ℕ)

def Call.fp : Call → Option ℕ
  | .fopen _ _ => none
  | .fread fp _ _ => some fp
  | .fseek fp _ _ => some fp
  | .rewind fp => some fp
  | .fclose fp => some fp

/-- A state in a run, with the files that are open in it, and all that `malloc` has returned. -/
structure Config where
  state : State
  opened : List ℕ
  ptrs : List ℕ

variable (S : System)

def exec (fuel : ℕ) : Call → Config → Option Config
  | .fopen path junk, c =>
    (fopen S fuel path junk c.state).map fun r =>
      ⟨r.state, if r.value = 0 then c.opened else r.value :: c.opened, c.ptrs ++ r.ptrs⟩
  | .fread fp bytes junk, c =>
    (fread S fuel fp bytes junk c.state).map fun r =>
      { c with state := r.state, ptrs := c.ptrs ++ r.ptrs }
  | .fseek fp offset position, c =>
    some { c with state := (fseek S fp offset position c.state).2 }
  | .rewind fp, c => some { c with state := rewind S fp c.state }
  | .fclose fp, c =>
    some { c with state := (fclose S fp c.state).2, opened := c.opened.erase fp }

/-- A run: every call returns, and is for a file that is open. -/
inductive Runs : List Call → Config → Config → Prop
  | nil (c : Config) : Runs [] c c
  | cons {call : Call} {calls : List Call} {c c₁ c' : Config} {fuel : ℕ}
      (fp : ∀ fp ∈ call.fp, fp ∈ c.opened) (exec : exec S fuel call c = some c₁)
      (rest : Runs calls c₁ c') : Runs (call :: calls) c c'

/-- A run with one bound for all searches. -/
def execAll (fuel : ℕ) : List Call → Config → Option Config
  | [], c => some c
  | call :: calls, c =>
    if ∀ fp ∈ call.fp, fp ∈ c.opened then (exec S fuel call c).bind (execAll fuel calls) else none

variable {S} in
lemma runs_of_execAll {fuel : ℕ} {calls : List Call} {c c' : Config}
    (h : execAll S fuel calls c = some c') : Runs S calls c c' := by
  induction calls generalizing c with
  | nil =>
    cases h
    exact .nil _
  | cons call calls ih =>
    rw [execAll] at h
    split at h
    · rename_i hfp
      obtain ⟨c₁, hc₁, hrest⟩ := Option.bind_eq_some_iff.mp h
      exact .cons hfp hc₁ (ih hrest)
    · cases h

/-! ### What a call can do -/

variable {S} {fuel k fp : ℕ} {path : List UInt8} {junk : Junk} {s : State}

lemma fileIndex_fileAddr (S : System) (k : ℕ) : fileIndex S (fileAddr S k) = k := by
  unfold fileIndex fileAddr
  rw [Nat.add_sub_cancel_left]
  exact Nat.mul_div_cancel k (by decide)

lemma findUnused_some {file : ℕ → FILE} {m : ℕ} (h : findUnused file fuel k = some m) :
    (file m).used = false := by
  induction fuel generalizing k with
  | zero => cases h
  | succ fuel ih =>
    rw [findUnused] at h
    by_cases hu : (file k).used = true
    · rw [if_pos hu] at h
      exact ih h
    · rw [if_neg hu] at h
      cases h
      exact Bool.not_eq_true _ ▸ hu

/-- The file that `fopen` takes is the first that is not in use. -/
lemma findUnused_first {file : ℕ → FILE} {i k j : ℕ} (h : findUnused file fuel i = some k)
    (hi : i ≤ j) (hj : j < k) : (file j).used = true := by
  induction fuel generalizing i with
  | zero => cases h
  | succ fuel ih =>
    rw [findUnused] at h
    by_cases hu : (file i).used = true
    · rw [if_pos hu] at h
      rcases hi.eq_or_lt with rfl | hlt
      · exact hu
      · exact ih h hlt
    · rw [if_neg hu] at h
      cases h
      omega

/-- How `fopen` ends, behind the blocks `ptrs` it gets for the path. -/
inductive Opened (S : System) (fuel : ℕ) (path : List UInt8) (junk : Junk) (s : State) :
    Reply ℕ → Prop
  | noSlash (h : dirs path = 0) : Opened S fuel path junk s ⟨0, s, []⟩
  | rejected (h : dirs path ≠ 0) (bad : checkVolume path = none) :
      Opened S fuel path junk s
        ⟨0, ⟨Heap.free S.machine ((mallocs S.machine (pathSizes path) s.heap).1.headD 0)
              (mallocs S.machine (pathSizes path) s.heap).2, s.file⟩,
          (mallocs S.machine (pathSizes path) s.heap).1⟩
  | unknown {volume : UInt8} {rest : List UInt8} {k : ℕ} (h : dirs path ≠ 0)
      (good : checkVolume path = some (volume, rest)) (unused : (s.file k).used = false) :
      Opened S fuel path junk s
        ⟨0, ⟨(mallocs S.machine (pathSizes path) s.heap).2,
            Function.update s.file k (openedFile (s.file k) path rest volume
              (mallocs S.machine (pathSizes path) s.heap).1 junk)⟩,
          (mallocs S.machine (pathSizes path) s.heap).1⟩
  | opened {volume : UInt8} {rest : List UInt8} {k : ℕ} {entry : FATEntry} {ptrs : List ℕ}
      {h' : Heap.State} (h : dirs path ≠ 0) (good : checkVolume path = some (volume, rest))
      (unused : (s.file k).used = false)
      (found : findEntry S fuel (openedFile (s.file k) path rest volume
          (mallocs S.machine (pathSizes path) s.heap).1 junk) junk
        (mallocs S.machine (pathSizes path) s.heap).2 = some (entry, ptrs, h')) :
      Opened S fuel path junk s
        ⟨fileAddr S k, ⟨h', Function.update s.file k
            { openedFile (s.file k) path rest volume
                (mallocs S.machine (pathSizes path) s.heap).1 junk with
              size := (entrySize entry).toUInt64 }⟩,
          (mallocs S.machine (pathSizes path) s.heap).1 ++ ptrs⟩

lemma fopen_cases {r : Reply ℕ} (h : fopen S fuel path junk s = some r) :
    Opened S fuel path junk s r := by
  rw [fopen] at h
  by_cases hd : dirs path = 0
  · rw [if_pos hd] at h
    cases h
    exact .noSlash hd
  · rw [if_neg hd] at h
    dsimp only at h
    rcases hv : checkVolume path with _ | ⟨volume, rest⟩ <;> rw [hv] at h <;> dsimp only at h
    · cases h
      exact .rejected hd hv
    · obtain ⟨k, hk, h⟩ := Option.bind_eq_some_iff.mp h
      have hunused := findUnused_some hk
      rcases hfs : (S.parts volume.toInt8.toInt).fs with _ | _ <;> rw [hfs] at h <;> dsimp only at h
      · cases h
        exact .unknown hd hv hunused
      · obtain ⟨⟨entry, ptrs, h'⟩, hfound, he⟩ := Option.map_eq_some_iff.mp h
        subst he
        exact .opened hd hv hunused hfound

/-- Behind the checks `fopen` takes a file that is not in use. It returns it if the volume is a
FAT32 volume, and else gives up without a call of `free`. -/
lemma fopen_passed {r : Reply ℕ} {volume : UInt8} {rest : List UInt8} (hd : dirs path ≠ 0)
    (hv : checkVolume path = some (volume, rest))
    (hr : fopen S fuel path junk s = some r) :
    ∃ k, (s.file k).used = false ∧ (∀ j < k, (s.file j).used = true) ∧
      (r.state.file k).used = true ∧ (∀ j, j ≠ k → r.state.file j = s.file j) ∧
      ((S.parts volume.toInt8.toInt).fs = .fat32 ∧ r.value = fileAddr S k ∨
        (S.parts volume.toInt8.toInt).fs = .none ∧ r.value = 0 ∧
          r.state.heap = (mallocs S.machine (pathSizes path) s.heap).2) := by
  rw [fopen, if_neg hd] at hr
  dsimp only at hr
  rw [hv] at hr
  obtain ⟨k, hk, hr⟩ := Option.bind_eq_some_iff.mp hr
  have hunused := findUnused_some hk
  have hfirst := fun j hj => findUnused_first hk (Nat.zero_le j) hj
  rcases hfs : (S.parts volume.toInt8.toInt).fs with _ | _ <;> rw [hfs] at hr <;> dsimp only at hr
  · cases hr
    refine ⟨k, hunused, hfirst, ?_, fun j hj => Function.update_of_ne hj _ _,
      Or.inr ⟨rfl, rfl, rfl⟩⟩
    dsimp only
    rw [Function.update_self]
    rfl
  · obtain ⟨⟨entry, ptrs, h'⟩, -, rfl⟩ := Option.map_eq_some_iff.mp hr
    refine ⟨k, hunused, hfirst, ?_, fun j hj => Function.update_of_ne hj _ _,
      Or.inl ⟨rfl, rfl⟩⟩
    dsimp only
    rw [Function.update_self]
    rfl

lemma file_fread {bytes : UInt64} {r : Reply (ℕ × List UInt8)}
    (h : fread S fuel fp bytes junk s = some r) : r.state.file = s.file := by
  rw [fread] at h
  dsimp only at h
  split at h
  · obtain ⟨⟨out, ptrs, h'⟩, -, rfl⟩ := Option.map_eq_some_iff.mp h
    rfl
  · cases h
    rfl

/-! ### Positions -/

/-- A file in use, with its position up to the end, and a size of 32 bits. -/
structure InBounds (f : FILE) : Prop where
  used : f.used = true
  position : f.pointer ≤ f.size
  size : f.size.toNat < 2 ^ 32

lemma seek_eq (f : FILE) (offset : Int64) (position : Fpos) :
    ∃ p, (seek f offset position).2 = { f with pointer := p } := by
  cases position with
  | set =>
    rw [seek]
    split
    · exact ⟨f.pointer, rfl⟩
    · split
      · exact ⟨f.pointer, rfl⟩
      · exact ⟨offset.toUInt64, rfl⟩
  | cur =>
    rw [seek]
    split
    · exact ⟨f.pointer, rfl⟩
    · split
      · exact ⟨f.pointer, rfl⟩
      · exact ⟨f.pointer + offset.toUInt64, rfl⟩
  | fin =>
    rw [seek]
    split
    · exact ⟨f.pointer, rfl⟩
    · split
      · exact ⟨f.pointer, rfl⟩
      · exact ⟨f.size + offset.toUInt64, rfl⟩

lemma seek_position {f : FILE} (h : f.pointer ≤ f.size) (offset : Int64) (position : Fpos) :
    (seek f offset position).2.pointer ≤ f.size := by
  cases position with
  | set =>
    rw [seek]
    split
    · exact h
    · rename_i hlt
      split
      · exact h
      · exact UInt64.le_of_lt (UInt64.not_le.mp hlt)
  | cur =>
    rw [seek]
    split
    · exact h
    · rename_i hlt
      split
      · exact h
      · change f.pointer + offset.toUInt64 ≤ f.size
        rw [UInt64.add_comm]
        exact UInt64.le_of_lt (UInt64.not_le.mp hlt)
  | fin =>
    rw [seek]
    split
    · exact h
    · split
      · exact h
      · rename_i hle
        -- the offset is taken off the size as the number it is the negative of
        have hneg : -offset.toUInt64 ≤ f.size := by
          rw [← Int64.toUInt64_neg]
          exact UInt64.not_lt.mp hle
        change f.size + offset.toUInt64 ≤ f.size
        have hsub : f.size + offset.toUInt64 = f.size - -offset.toUInt64 := by
          rw [UInt64.sub_eq_add_neg, UInt64.neg_neg]
        rw [hsub]
        exact UInt64.sub_le hneg

lemma InBounds.seek {f : FILE} (h : InBounds f) (offset : Int64) (position : Fpos) :
    InBounds (seek f offset position).2 := by
  obtain ⟨p, hp⟩ := seek_eq f offset position
  have hle := seek_position h.position offset position
  rw [hp] at hle ⊢
  exact ⟨h.used, hle, h.size⟩

lemma InBounds.rewind {f : FILE} (h : InBounds f) : InBounds { f with pointer := 0 } where
  used := h.used
  position := UInt64.zero_le
  size := h.size

/-- The open files are elements of the table, each opened once. -/
structure Held (S : System) (c : Config) : Prop where
  nodup : c.opened.Nodup
  addr : ∀ fp ∈ c.opened, fileAddr S (fileIndex S fp) = fp
  file : ∀ fp ∈ c.opened, InBounds (c.state.file (fileIndex S fp))

section held

variable {c c' : Config} {call : Call} {calls : List Call}

lemma Held.ne_index (h : Held S c) (hk : (c.state.file k).used = false) (hfp : fp ∈ c.opened) :
    fileIndex S fp ≠ k := by
  rintro rfl
  have hu := (h.file fp hfp).used
  rw [hk] at hu
  cases hu

lemma Held.update (h : Held S c) {f : FILE} (hf : fileAddr S k ∈ c.opened → InBounds f)
    (heap : Heap.State) (ptrs : List ℕ) :
    Held S ⟨⟨heap, Function.update c.state.file k f⟩, c.opened, ptrs⟩ where
  nodup := h.nodup
  addr := h.addr
  file fp hfp := by
    dsimp only
    by_cases hk : fileIndex S fp = k
    · rw [hk, Function.update_self]
      refine hf ?_
      rw [← hk, h.addr fp hfp]
      exact hfp
    · rw [Function.update_of_ne hk]
      exact h.file fp hfp

lemma Held.fopen (h : Held S c) {r : Reply ℕ} (hr : Opened S fuel path junk c.state r) :
    Held S ⟨r.state, if r.value = 0 then c.opened else r.value :: c.opened, c.ptrs ++ r.ptrs⟩ := by
  cases hr with
  | noSlash _ => exact ⟨h.nodup, h.addr, h.file⟩
  | rejected _ _ => exact ⟨h.nodup, h.addr, h.file⟩
  | @unknown volume rest k _ _ hunused =>
    refine h.update (fun hmem => ?_) _ _
    exact absurd (fileIndex_fileAddr S k) (h.ne_index hunused hmem)
  | @opened volume rest k entry ptrs h' _ _ hunused _ =>
    have hnew : fileAddr S k ∉ c.opened := fun hmem =>
      h.ne_index hunused hmem (fileIndex_fileAddr S k)
    have hheld := h.update (k := k) (f := { openedFile (c.state.file k) path rest volume
      (mallocs S.machine (pathSizes path) c.state.heap).1 junk with
      size := (entrySize entry).toUInt64 }) (fun hmem => absurd hmem hnew) h'
      (c.ptrs ++ ((mallocs S.machine (pathSizes path) c.state.heap).1 ++ ptrs))
    dsimp only
    split
    · exact hheld
    · refine ⟨List.nodup_cons.mpr ⟨hnew, h.nodup⟩, fun fp hfp => ?_, fun fp hfp => ?_⟩
      · rcases List.mem_cons.mp hfp with rfl | hfp
        · rw [fileIndex_fileAddr]
        · exact h.addr fp hfp
      · rcases List.mem_cons.mp hfp with rfl | hfp
        · dsimp only
          rw [fileIndex_fileAddr, Function.update_self]
          exact ⟨rfl, UInt64.zero_le, by
            rw [UInt32.toNat_toUInt64]
            exact (entrySize entry).toNat_lt⟩
        · exact hheld.file fp hfp

lemma Held.fclose (h : Held S c) (hfp : fp ∈ c.opened) :
    Held S { c with state := (fclose S fp c.state).2, opened := c.opened.erase fp } := by
  have herase : Held S { c with opened := c.opened.erase fp } :=
    ⟨h.nodup.erase fp, fun fp' hfp' => h.addr fp' (List.mem_of_mem_erase hfp'),
      fun fp' hfp' => h.file fp' (List.mem_of_mem_erase hfp')⟩
  unfold FileSystem.fclose
  split
  · exact herase
  · refine herase.update (fun hmem => ?_) _ _
    rw [h.addr fp hfp] at hmem
    exact absurd rfl (h.nodup.mem_erase_iff.mp hmem).1

lemma Held.exec (h : Held S c) (hfp : ∀ fp ∈ call.fp, fp ∈ c.opened)
    (hexec : exec S fuel call c = some c') : Held S c' := by
  cases call with
  | fopen path junk =>
    obtain ⟨r, hr, rfl⟩ := Option.map_eq_some_iff.mp hexec
    exact h.fopen (fopen_cases hr)
  | fread fp bytes junk =>
    obtain ⟨r, hr, rfl⟩ := Option.map_eq_some_iff.mp hexec
    refine ⟨h.nodup, h.addr, fun fp' hfp' => ?_⟩
    dsimp only
    rw [file_fread hr]
    exact h.file fp' hfp'
  | fseek fp offset position =>
    cases hexec
    exact h.update (fun _ => (h.file fp (hfp fp rfl)).seek offset position) _ _
  | rewind fp =>
    cases hexec
    unfold FileSystem.rewind
    dsimp only
    split
    · exact h
    · exact h.update (fun _ => (h.file fp (hfp fp rfl)).rewind) _ _
  | fclose fp =>
    cases hexec
    exact h.fclose (hfp fp rfl)

lemma Runs.held (hrun : Runs S calls c c') (h : Held S c) : Held S c' := by
  induction hrun with
  | nil => exact h
  | cons hfp hexec _ ih => exact ih (h.exec hfp hexec)

lemma held_nil (S : System) (s : State) (ptrs : List ℕ) : Held S ⟨s, [], ptrs⟩ :=
  ⟨List.nodup_nil, fun _ hfp => absurd hfp List.not_mem_nil,
    fun _ hfp => absurd hfp List.not_mem_nil⟩

lemma InBounds.read {f : FILE} (h : InBounds f) {bytes : UInt64}
    (hread : getsToFatRead S f bytes = true) :
    f.pointer.toNat + bytes.toNat ≤ f.size.toNat := by
  have hsub := UInt64.toNat_sub_of_le _ _ h.position
  have hle := UInt64.le_iff_toNat_le.mp h.position
  unfold getsToFatRead at hread
  split at hread
  · cases hread
  · split at hread
    · cases hread
    · rename_i hgt
      have hbytes := UInt64.le_iff_toNat_le.mp (UInt64.not_lt.mp hgt)
      omega

end held

/-- **Positions in files.** Whatever files a run opens, seeks in, rewinds, reads from and
closes, the position in every open file is at most the size, so the difference that `fread` takes
does not wrap, and a read that gets to `fat_read` ends within the file. -/
theorem position_within (S : System) (s : State) (calls : List Call) (c' : Config)
    (hrun : Runs S calls ⟨s, [], []⟩ c') (fp : ℕ) (hfp : fp ∈ c'.opened) :
    let f := c'.state.file (fileIndex S fp)
    f.pointer ≤ f.size ∧ f.size.toNat < 2 ^ 32 ∧
      (f.size - f.pointer).toNat = f.size.toNat - f.pointer.toNat ∧
      ∀ bytes, getsToFatRead S f bytes = true → f.pointer.toNat + bytes.toNat ≤ f.size.toNat := by
  have h := (hrun.held (held_nil S s [])).file fp hfp
  exact ⟨h.position, h.size, UInt64.toNat_sub_of_le _ _ h.position, fun _ => h.read⟩

def tenBytes : OnDisk := smallVolume
  (ascii ['T', 'E', 'N', ' ', ' ', ' ', ' ', ' ', 'T', 'X', 'T'] ++ 0x20 :: List.replicate 14 0 ++
    [3, 0, 10, 0, 0, 0])
  (ascii ['0', '1', '2', '3', '4', '5', '6', '7', '8', '9'])

def tenPath : List UInt8 := ascii ['|', 'A', '/', 'T', 'E', 'N', '.', 'T', 'X', 'T']

def smallSystem : System where
  machine := threeFrames
  files := 0x1000
  parts _ := ⟨.fat32, tenBytes.setup⟩

def zeros : Junk where
  slots _ := 0
  names _ _ := 0
  findFATbuffer _ := 0
  findBuffer _ := 0
  readFATbuffer _ := 0
  readBuffer _ := 0
  entry _ := 0
  filename _ := 0

def cleared : State :=
  ⟨⟨initMalloc, zeroed⟩, fun _ => ⟨⟨0, [], fun _ _ => 0⟩, 0, 0, 0, false⟩⟩

theorem position_within_ten :
    ∃ c', Runs smallSystem
        [.fopen tenPath zeros, .fseek 0x1000 4 .set, .fread 0x1000 6 zeros, .fseek 0x1000 (-3) .fin]
        ⟨cleared, [], []⟩ c' ∧ 0x1000 ∈ c'.opened ∧
      let f := c'.state.file (fileIndex smallSystem 0x1000)
      f.size = 10 ∧ f.pointer = 7 ∧ f.pointer ≤ f.size ∧ f.size.toNat < 2 ^ 32 ∧
        (f.size - f.pointer).toNat = f.size.toNat - f.pointer.toNat ∧
        ∀ bytes, getsToFatRead smallSystem f bytes = true →
          f.pointer.toNat + bytes.toNat ≤ f.size.toNat := by
  have heval : (execAll smallSystem 1 [.fopen tenPath zeros, .fseek 0x1000 4 .set,
      .fread 0x1000 6 zeros, .fseek 0x1000 (-3) .fin] ⟨cleared, [], []⟩).map
        (fun c => (c.opened, (c.state.file 0).size, (c.state.file 0).pointer)) =
      some ([0x1000], 10, 7) := by decide +kernel
  obtain ⟨c', hc', hval⟩ := Option.map_eq_some_iff.mp heval
  simp only [Prod.mk.injEq] at hval
  have hopen : 0x1000 ∈ c'.opened := by
    rw [hval.1]
    exact List.mem_cons_self
  exact ⟨c', runs_of_execAll hc', hopen, hval.2.1, hval.2.2,
    position_within smallSystem cleared _ c' (runs_of_execAll hc') 0x1000 hopen⟩

/-- **Reads do not go on.** No two reads, of `n` bytes and then of `m`, give what a read of
`n + m` bytes gives and leave the position behind it: the position stays where it is. -/
theorem reads_never_concatenate (S : System) (s : State) (fp : ℕ) (n m : UInt64)
    (hn : n ≠ 0) :
    ¬ ∃ fuel ja jb jc ra rb rc, fread S fuel fp n ja s = some ra ∧
      fread S fuel fp m jb ra.state = some rb ∧ fread S fuel fp (n + m) jc s = some rc ∧
      ra.value.2 ++ rb.value.2 = rc.value.2 ∧
      (rb.state.file (fileIndex S fp)).pointer.toNat =
        (s.file (fileIndex S fp)).pointer.toNat + n.toNat + m.toNat := by
  rintro ⟨fuel, ja, jb, jc, ra, rb, rc, ha, hb, -, -, hpos⟩
  rw [file_fread hb, file_fread ha] at hpos
  have hn0 : n.toNat ≠ 0 := fun h0 => hn (UInt64.toNat_inj.mp h0)
  omega

theorem reads_never_concatenate_ten :
    getsToFatRead smallSystem ⟨⟨0, [], fun _ _ => 0⟩, 0, 0, 10, true⟩ 7 = true ∧
    ¬ ∃ fuel ja jb jc ra rb rc,
      fread smallSystem fuel 0x1000 3 ja
        ⟨⟨initMalloc, zeroed⟩, fun _ => ⟨⟨0, [], fun _ _ => 0⟩, 0, 0, 10, true⟩⟩ = some ra ∧
      fread smallSystem fuel 0x1000 4 jb ra.state = some rb ∧
      fread smallSystem fuel 0x1000 (3 + 4) jc
        ⟨⟨initMalloc, zeroed⟩, fun _ => ⟨⟨0, [], fun _ _ => 0⟩, 0, 0, 10, true⟩⟩ = some rc ∧
      ra.value.2 ++ rb.value.2 = rc.value.2 ∧
      (rb.state.file (fileIndex smallSystem 0x1000)).pointer.toNat =
        (0 : UInt64).toNat + (3 : UInt64).toNat + (4 : UInt64).toNat :=
  ⟨by decide, reads_never_concatenate smallSystem
    ⟨⟨initMalloc, zeroed⟩, fun _ => ⟨⟨0, [], fun _ _ => 0⟩, 0, 0, 10, true⟩⟩ 0x1000 3 4
    (by decide)⟩

/-- The first seven bytes of the file, in two reads and in one. -/
theorem not_reads_concatenate :
    ∃ c, Runs smallSystem [.fopen tenPath zeros] ⟨cleared, [], []⟩ c ∧ c.opened = [0x1000] ∧
      (c.state.file (fileIndex smallSystem 0x1000)).pointer.toNat + 3 + 4 ≤
        (c.state.file (fileIndex smallSystem 0x1000)).size.toNat ∧
      ∃ ra rb rc, fread smallSystem 1 0x1000 3 zeros c.state = some ra ∧
        fread smallSystem 1 0x1000 4 zeros ra.state = some rb ∧
        fread smallSystem 1 0x1000 7 zeros c.state = some rc ∧
        ra.value.2 ++ rb.value.2 = ascii ['0', '1', '2', '0', '1', '2', '3'] ∧
        rc.value.2 = ascii ['0', '1', '2', '3', '4', '5', '6'] ∧
        (rb.state.file (fileIndex smallSystem 0x1000)).pointer = 0 := by
  have heval : ((execAll smallSystem 1 [.fopen tenPath zeros] ⟨cleared, [], []⟩).bind fun c =>
      (fread smallSystem 1 0x1000 3 zeros c.state).bind fun ra =>
        (fread smallSystem 1 0x1000 4 zeros ra.state).bind fun rb =>
          (fread smallSystem 1 0x1000 7 zeros c.state).map fun rc =>
            ((c.opened, (c.state.file 0).pointer.toNat, (c.state.file 0).size.toNat),
              ra.value.2 ++ rb.value.2, rc.value.2, (rb.state.file 0).pointer)) =
      some (([0x1000], 0, 10), ascii ['0', '1', '2', '0', '1', '2', '3'],
        ascii ['0', '1', '2', '3', '4', '5', '6'], 0) := by decide +kernel
  obtain ⟨c, hc, heval⟩ := Option.bind_eq_some_iff.mp heval
  obtain ⟨ra, hra, heval⟩ := Option.bind_eq_some_iff.mp heval
  obtain ⟨rb, hrb, heval⟩ := Option.bind_eq_some_iff.mp heval
  obtain ⟨rc, hrc, heval⟩ := Option.map_eq_some_iff.mp heval
  simp only [Prod.mk.injEq] at heval
  obtain ⟨⟨hopened, hpointer, hsize⟩, htwo, hone, hpos⟩ := heval
  have hindex : fileIndex smallSystem 0x1000 = 0 := by decide
  rw [hindex]
  refine ⟨c, runs_of_execAll hc, hopened, ?_, ra, rb, rc, hra, hrb, hrc, htwo, hone, hpos⟩
  rw [hpointer, hsize]
  decide

end FlameOS.FileRuns
