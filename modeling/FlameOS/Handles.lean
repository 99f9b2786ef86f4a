import FlameOS.FileRuns

/-!
The handles of files: what `fopen` returns while files are opened and closed, and where `fseek`
leaves the position.

The search of `fopen` for a file that is not in use has no end of its own. Behind a full table
it goes on, and the memory there is taken for one more file.
-/

namespace FlameOS.Handles

open FlameOS.PageTable FlameOS.MapRun FlameOS.HeapTable FlameOS.FatFind FlameOS.FileSystem
open FlameOS.FileRuns

variable {S : System} {fuel k fp : ℕ} {path : List UInt8} {junk : Junk} {s : State}

/-! ### Addresses of files -/

lemma aligncheck_fileAddr (S : System) (hk : k < MAX_OPEN_FILES) :
    aligncheck S (fileAddr S k) = 0 := by
  unfold aligncheck fileAddr
  have hlt : k * sizeofFILE < MAX_OPEN_FILES * sizeofFILE := Nat.mul_lt_mul_of_pos_right hk (by decide)
  rw [if_neg (by omega), if_neg (not_not.mpr (Nat.add_mul_mod_self_right _ _ _))]

lemma fileAddr_of_aligncheck (h : aligncheck S fp = 0) :
    fileAddr S (fileIndex S fp) = fp ∧ fileIndex S fp < MAX_OPEN_FILES := by
  unfold aligncheck at h
  split at h
  · cases h
  · rename_i hin
    split at h
    · cases h
    · rename_i hmod
      unfold fileAddr fileIndex MAX_OPEN_FILES sizeofFILE at *
      omega

/-! ### Runs of `fopen` and `fclose` -/

/-- A call of `fopen` in a run: what was before it, and its reply. -/
structure Opening where
  before : Config
  path : List UInt8
  reply : Reply ℕ

/-- A run of calls of `fopen` and `fclose` that return, with those of `fopen`. It may close what
is not open. -/
inductive Run (S : System) : List Opening → Config → Config → Prop
  | nil (c : Config) : Run S [] c c
  | fopen {openings : List Opening} {c c' : Config} {fuel : ℕ} {path : List UInt8} {junk : Junk}
      {r : Reply ℕ} (reply : fopen S fuel path junk c.state = some r)
      (rest : Run S openings
        ⟨r.state, if r.value = 0 then c.opened else r.value :: c.opened, c.ptrs ++ r.ptrs⟩ c') :
      Run S (⟨c, path, r⟩ :: openings) c c'
  | fclose {openings : List Opening} {c c' : Config} (fp : ℕ)
      (rest : Run S openings
        { c with state := (fclose S fp c.state).2, opened := c.opened.erase fp } c') :
      Run S openings c c'

/-- What `fopen` returns is an element of the table that was not in use and is none of the open
files. It returns 0 with a full table, and stores nothing behind it. -/
structure Handled (S : System) (o : Opening) : Prop where
  handle : o.reply.value ≠ 0 → ∃ k < MAX_OPEN_FILES, o.reply.value = fileAddr S k ∧
    (o.before.state.file k).used = false
  aligned : o.reply.value ≠ 0 → aligncheck S o.reply.value = 0
  fresh : o.reply.value ≠ 0 → o.reply.value ∉ o.before.opened
  full : (∀ k < MAX_OPEN_FILES, (o.before.state.file k).used = true) →
    o.reply.value = 0 ∧ ∀ k ≥ MAX_OPEN_FILES, o.reply.state.file k = o.before.state.file k

/-- The path is not looked at, or rejected, or there is a file that is not in use. -/
def HasRoom (o : Opening) : Prop :=
  dirs o.path = 0 ∨ checkVolume o.path = none ∨
    ∃ k < MAX_OPEN_FILES, (o.before.state.file k).used = false

lemma fopen_rejected {r : Reply ℕ} (hbad : dirs path = 0 ∨ checkVolume path = none)
    (h : fopen S fuel path junk s = some r) : r.value = 0 ∧ r.state.file = s.file := by
  rw [fopen] at h
  by_cases hd : dirs path = 0
  · rw [if_pos hd] at h
    cases h
    exact ⟨rfl, rfl⟩
  · rw [if_neg hd, hbad.resolve_left hd] at h
    cases h
    exact ⟨rfl, rfl⟩

/-- A call of `fopen` gives a handle as it should exactly if it has room. -/
lemma handled_iff {c : Config} {r : Reply ℕ} (hc : Held S c)
    (h : fopen S fuel path junk c.state = some r) :
    Handled S ⟨c, path, r⟩ ↔ HasRoom ⟨c, path, r⟩ := by
  by_cases hbad : dirs path = 0 ∨ checkVolume path = none
  · obtain ⟨hvalue, hfile⟩ := fopen_rejected hbad h
    refine iff_of_true ⟨fun hne => absurd hvalue hne, fun hne => absurd hvalue hne,
      fun hne => absurd hvalue hne, fun _ => ⟨hvalue, fun k _ => congrFun hfile k⟩⟩ ?_
    exact hbad.imp_right Or.inl
  · rw [not_or] at hbad
    obtain ⟨⟨volume, rest⟩, hv⟩ := Option.ne_none_iff_exists'.mp hbad.2
    obtain ⟨k, hunused, hfirst, hused, -, hend⟩ := fopen_passed hbad.1 hv h
    constructor
    · intro hh
      by_contra hroom
      -- the file that is taken is behind the full table
      have hfull : ∀ j < MAX_OPEN_FILES, (c.state.file j).used = true := fun j hj => by
        by_contra hj0
        exact hroom (Or.inr (Or.inr ⟨j, hj, Bool.not_eq_true _ ▸ hj0⟩))
      have hbehind : k ≥ MAX_OPEN_FILES := by
        by_contra hlt
        have hu := hfull k (by omega)
        rw [hunused] at hu
        cases hu
      have hsame := (hh.full hfull).2 k hbehind
      dsimp only at hsame
      rw [hsame, hunused] at hused
      cases hused
    · rintro (h0 | h0 | ⟨j, hj, hj0⟩)
      · exact absurd h0 hbad.1
      · exact absurd h0 hbad.2
      · have hkj : k ≤ j := by
          by_contra hlt
          have hu := hfirst j (by omega)
          dsimp only at hj0
          rw [hj0] at hu
          cases hu
        have hk256 : k < MAX_OPEN_FILES := by omega
        have haddr : r.value ≠ 0 → r.value = fileAddr S k := fun hne => by
          rcases hend with ⟨-, hk⟩ | ⟨-, h0, -⟩
          · exact hk
          · exact absurd h0 hne
        refine ⟨fun hne => ⟨k, hk256, haddr hne, hunused⟩, fun hne => ?_, fun hne hmem => ?_,
          fun hfull => ?_⟩
        · change aligncheck S r.value = 0
          rw [haddr hne]
          exact aligncheck_fileAddr S hk256
        · change r.value ∈ c.opened at hmem
          rw [haddr hne] at hmem
          exact hc.ne_index hunused hmem (fileIndex_fileAddr S k)
        · have hu := hfull j hj
          rw [hj0] at hu
          cases hu

lemma held_fclose {c : Config} (h : Held S c) (fp : ℕ) :
    Held S { c with state := (fclose S fp c.state).2, opened := c.opened.erase fp } := by
  by_cases hmem : fp ∈ c.opened
  · exact h.fclose hmem
  · rw [List.erase_of_not_mem hmem]
    unfold fclose
    split
    · exact h
    · rename_i halign
      refine h.update (fun hin => ?_) _ _
      rw [(fileAddr_of_aligncheck (not_not.mp halign)).1] at hin
      exact absurd hin hmem

/-- In a run all calls of `fopen` give handles as they should exactly if all have room. -/
lemma Run.handled_iff {openings : List Opening} {c c' : Config} (hrun : Run S openings c c')
    (hc : Held S c) : (∀ o ∈ openings, Handled S o) ↔ ∀ o ∈ openings, HasRoom o := by
  induction hrun with
  | nil => simp
  | fopen hreply _ ih =>
    rw [List.forall_mem_cons, List.forall_mem_cons, Handles.handled_iff hc hreply,
      ih (hc.fopen (fopen_cases hreply))]
  | fclose fp _ ih => exact ih (held_fclose hc fp)

/-- **Handles of files.** In a run of `fopen` and `fclose`, each call of `fopen` gives a handle
as it should exactly if none that passes the checks comes to a full table. -/
theorem handles_iff (S : System) (s : State) (openings : List Opening) (c' : Config)
    (hrun : Run S openings ⟨s, [], []⟩ c') :
    (∀ o ∈ openings, Handled S o) ↔ ∀ o ∈ openings, HasRoom o :=
  hrun.handled_iff (held_nil S s [])

/-- A file is opened, closed and opened again. -/
theorem handles_iff_ten :
    ∃ openings c', Run smallSystem openings ⟨cleared, [], []⟩ c' ∧
      openings.map (fun o => o.reply.value) = [0x1000, 0x1000] ∧
      ∀ o ∈ openings, Handled smallSystem o := by
  have heval : ((fopen smallSystem 1 tenPath zeros cleared).bind fun r =>
      (fopen smallSystem 1 tenPath zeros (fclose smallSystem 0x1000 r.state).2).map fun r' =>
        (r.value, r'.value, ((fclose smallSystem 0x1000 r.state).2.file 0).used)) =
      some (0x1000, 0x1000, false) := by decide +kernel
  obtain ⟨r, hr, heval⟩ := Option.bind_eq_some_iff.mp heval
  obtain ⟨r', hr', heval⟩ := Option.map_eq_some_iff.mp heval
  simp only [Prod.mk.injEq] at heval
  obtain ⟨hvalue, hvalue', hused⟩ := heval
  have hrun := Run.fopen (c := ⟨cleared, [], []⟩) hr (.fclose 0x1000 (.fopen hr' (.nil _)))
  refine ⟨_, _, hrun, by rw [List.map_cons, List.map_cons, List.map_nil, hvalue, hvalue'],
    (handles_iff smallSystem cleared _ _ hrun).mpr fun o ho => ?_⟩
  rcases List.mem_cons.mp ho with rfl | ho
  · exact Or.inr (Or.inr ⟨0, by decide, rfl⟩)
  · obtain rfl := List.mem_singleton.mp ho
    exact Or.inr (Or.inr ⟨0, by decide, hused⟩)

def noneSystem : System where
  machine := threeFrames
  files := 0x1000
  parts _ := ⟨.none, tenBytes.setup⟩

lemma findUnused_eq {file : ℕ → FILE} {i n : ℕ} (hused : ∀ j < i + n, (file j).used = true)
    (h : (file (i + n)).used = false) : findUnused file (n + 1) i = some (i + n) := by
  induction n generalizing i with
  | zero =>
    rw [Nat.add_zero] at h
    rw [findUnused, h, Nat.add_zero]
    rfl
  | succ n ih =>
    have hnext : i + 1 + n = i + (n + 1) := by omega
    rw [findUnused, if_pos (hused i (by omega)), ← hnext]
    exact ih (by rwa [hnext]) (by rwa [hnext])

lemma checkVolume_ten : checkVolume tenPath =
    some (0, ascii ['T', 'E', 'N', '.', 'T', 'X', 'T']) := rfl

lemma fopen_none {n : ℕ} (hused : ∀ k < n, (s.file k).used = true)
    (hunused : (s.file n).used = false) :
    ∃ r, fopen noneSystem (n + 1) tenPath zeros s = some r ∧ (r.state.file n).used = true ∧
      ∀ k, k ≠ n → r.state.file k = s.file k := by
  have hd : dirs tenPath ≠ 0 := by decide
  have hslot : findUnused s.file (n + 1) 0 = some (0 + n) := by
    apply findUnused_eq
    · rwa [Nat.zero_add]
    · rwa [Nat.zero_add]
  rw [Nat.zero_add] at hslot
  obtain ⟨r, hr⟩ : ∃ r, fopen noneSystem (n + 1) tenPath zeros s = some r := by
    rw [fopen, if_neg hd]
    dsimp only
    rw [checkVolume_ten, hslot]
    exact ⟨_, rfl⟩
  obtain ⟨k, hk, hbefore, hkused, hother, -⟩ := fopen_passed hd checkVolume_ten hr
  obtain rfl : k = n := by
    rcases Nat.lt_trichotomy k n with hlt | heq | hgt
    · rw [hused k hlt] at hk
      cases hk
    · exact heq
    · rw [hbefore n hgt] at hunused
      cases hunused
  exact ⟨r, hr, hkused, hother⟩

lemma run_full {m n : ℕ} (hn : n + m = MAX_OPEN_FILES) (c : Config)
    (hused : ∀ k < n, (c.state.file k).used = true)
    (hunused : ∀ k ≥ n, (c.state.file k).used = false) :
    ∃ openings c', Run noneSystem openings c c' ∧ ∃ o ∈ openings, ¬ HasRoom o := by
  obtain ⟨r, hr, hrused, hother⟩ := fopen_none hused (hunused n le_rfl)
  induction m generalizing n c r with
  | zero =>
    refine ⟨_, _, .fopen hr (.nil _), _, List.mem_singleton_self _, ?_⟩
    rintro (h0 | h0 | ⟨k, hk, hk0⟩)
    · exact absurd h0 (by decide : dirs tenPath ≠ 0)
    · rw [checkVolume_ten] at h0
      cases h0
    · have hu := hused k (by omega)
      dsimp only at hk0
      rw [hk0] at hu
      cases hu
  | succ m ih =>
    have hused' : ∀ k < n + 1, (r.state.file k).used = true := fun k hk => by
      rcases Nat.lt_succ_iff_lt_or_eq.mp hk with hlt | rfl
      · rw [hother k (by omega)]
        exact hused k hlt
      · exact hrused
    have hunused' : ∀ k ≥ n + 1, (r.state.file k).used = false := fun k hk => by
      rw [hother k (by omega)]
      exact hunused k (by omega)
    obtain ⟨r', hr', hrused', hother'⟩ := fopen_none hused' (hunused' (n + 1) le_rfl)
    obtain ⟨openings, c', hrun, o, ho, hroom⟩ := ih (by omega)
      ⟨r.state, if r.value = 0 then c.opened else r.value :: c.opened, c.ptrs ++ r.ptrs⟩
      hused' hunused' r' hr' hrused' hother'
    exact ⟨_, c', .fopen hr hrun, o, List.mem_cons_of_mem _ ho, hroom⟩

/-- After 256 calls that give up but leave their files in use, the next one takes the memory
behind the table for a file. -/
theorem not_handles : ∃ openings c', Run noneSystem openings ⟨cleared, [], []⟩ c' ∧
    ¬ ∀ o ∈ openings, Handled noneSystem o := by
  obtain ⟨openings, c', hrun, o, ho, hroom⟩ := run_full (n := 0) (Nat.zero_add _) ⟨cleared, [], []⟩
    (fun _ hk => absurd hk (Nat.not_lt_zero _)) fun _ _ => rfl
  refine ⟨openings, c', hrun, fun hall => hroom ?_⟩
  exact (hrun.handled_iff (held_nil noneSystem cleared [])).mp hall o ho

/-! ### Seeking -/

/-- The position that a seek is for, as an exact number. -/
def target (f : FILE) (offset : Int64) : Fpos → ℤ
  | .set => offset.toInt
  | .cur => f.pointer.toNat + offset.toInt
  | .fin => f.size.toNat + offset.toInt

/-- The position is in the file, and a seek from the end goes back. -/
def InFile (f : FILE) (offset : Int64) (position : Fpos) : Prop :=
  0 ≤ target f offset position ∧
    match position with
    | .set => target f offset position < f.size.toNat
    | .cur => target f offset position < f.size.toNat
    | .fin => offset.toInt < 0

/-- A seek to a position in the file sets it, and any other leaves it. -/
structure AllOrNothing (f : FILE) (offset : Int64) (position : Fpos) (r : ℤ × FILE) : Prop where
  zero : r.1 = 0 ↔ InFile f offset position
  moved : r.1 = 0 → (r.2.pointer.toNat : ℤ) = target f offset position
  kept : r.1 ≠ 0 → r.2.pointer = f.pointer

/-- A seek from the current position does not wrap, or wraps to where the file has no bytes, and
one from the end has nowhere to go. -/
def SeeksRight (f : FILE) (offset : Int64) : Fpos → Prop
  | .set => True
  | .cur => (f.size.toNat : ℤ) - 2 ^ 64 ≤ target f offset .cur ∧ target f offset .cur < 2 ^ 64
  | .fin => ¬ InFile f offset .fin

lemma toNat_toUInt64 (offset : Int64) : (offset.toUInt64.toNat : ℤ) =
    if offset.toInt < 0 then offset.toInt + 2 ^ 64 else offset.toInt := by
  have h : offset.toInt = offset.toUInt64.toBitVec.toInt := rfl
  have hlt := offset.toUInt64.toNat_lt
  rw [h, BitVec.toInt_eq_toNat_cond]
  change (offset.toUInt64.toNat : ℤ) = _
  simp only [UInt64.toNat_toBitVec]
  split <;> split <;> omega

lemma int64_neg_iff (offset : Int64) : offset < 0 ↔ offset.toInt < 0 := by
  rw [Int64.lt_iff_toInt_lt, Int64.toInt_zero]

section seek

variable {f : FILE} {offset : Int64}

lemma allOrNothing_refused {position : Fpos} :
    AllOrNothing f offset position (-2, f) ↔ ¬ InFile f offset position := by
  have hne : (-2 : ℤ) ≠ 0 := by decide
  exact ⟨fun h hin => hne (h.zero.mpr hin),
    fun h => ⟨iff_of_false hne h, fun h0 => absurd h0 hne, fun _ => rfl⟩⟩

lemma allOrNothing_moved {position : Fpos} (p : UInt64) :
    AllOrNothing f offset position (0, { f with pointer := p }) ↔
      InFile f offset position ∧ (p.toNat : ℤ) = target f offset position :=
  ⟨fun h => ⟨h.zero.mp rfl, h.moved rfl⟩,
    fun h => ⟨iff_of_true rfl h.1, fun _ => h.2, fun hne => absurd rfl hne⟩⟩

lemma seek_set (f : FILE) (offset : Int64) :
    AllOrNothing f offset .set (seek f offset .set) := by
  have hu := toNat_toUInt64 offset
  have hsize := f.size.toNat_lt
  rw [seek]
  by_cases hge : offset.toUInt64 ≥ f.size
  · rw [if_pos hge, allOrNothing_refused]
    rw [ge_iff_le, UInt64.le_iff_toNat_le] at hge
    simp only [InFile, target]
    omega
  · rw [if_neg hge]
    rw [ge_iff_le, UInt64.le_iff_toNat_le] at hge
    by_cases hneg : offset < 0
    · rw [if_pos hneg, allOrNothing_refused]
      rw [int64_neg_iff] at hneg
      simp only [InFile, target]
      omega
    · rw [if_neg hneg, allOrNothing_moved]
      rw [int64_neg_iff] at hneg
      simp only [InFile, target]
      omega

/-- The second check of a seek from the current position never fails. -/
lemma seek_cur (f : FILE) (offset : Int64) : seek f offset .cur =
    if offset.toUInt64 + f.pointer ≥ f.size then (-2, f)
    else (0, { f with pointer := f.pointer + offset.toUInt64 }) := by
  rw [seek]
  split
  · rfl
  · exact if_neg (UInt64.not_lt.mpr UInt64.zero_le)

lemma seek_cur_iff (h : f.pointer ≤ f.size) :
    AllOrNothing f offset .cur (seek f offset .cur) ↔ SeeksRight f offset .cur := by
  have hu := toNat_toUInt64 offset
  have hlt := offset.toInt_lt
  have hle := offset.le_toInt
  have hsize := f.size.toNat_lt
  have hp := UInt64.le_iff_toNat_le.mp h
  have hsum : (offset.toUInt64 + f.pointer).toNat =
      (offset.toUInt64.toNat + f.pointer.toNat) % 2 ^ 64 := UInt64.toNat_add _ _
  rw [seek_cur]
  by_cases hge : offset.toUInt64 + f.pointer ≥ f.size
  · rw [if_pos hge, allOrNothing_refused]
    rw [ge_iff_le, UInt64.le_iff_toNat_le, hsum] at hge
    simp only [InFile, SeeksRight, target]
    split at hu <;> omega
  · rw [if_neg hge, allOrNothing_moved, UInt64.add_comm, hsum]
    rw [ge_iff_le, UInt64.le_iff_toNat_le, hsum] at hge
    simp only [InFile, SeeksRight, target]
    split at hu <;> omega

lemma seek_fin_iff : AllOrNothing f offset .fin (seek f offset .fin) ↔ SeeksRight f offset .fin := by
  have hu := toNat_toUInt64 offset
  have hlt := offset.toInt_lt
  have hle := offset.le_toInt
  have hsize := f.size.toNat_lt
  have hnegate : (-offset).toUInt64.toNat = (2 ^ 64 - offset.toUInt64.toNat) % 2 ^ 64 := by
    rw [Int64.toUInt64_neg]
    exact UInt64.toNat_neg _
  rw [seek]
  by_cases hge : offset ≥ 0
  · rw [if_pos hge, allOrNothing_refused]
    rfl
  · rw [if_neg hge]
    by_cases hgt : (-offset).toUInt64 > f.size
    · rw [if_pos hgt, allOrNothing_refused]
      rfl
    · rw [if_neg hgt]
      -- the position is set, and the value is the one for a bad origin
      have hin : InFile f offset .fin := by
        rw [ge_iff_le, Int64.not_le, int64_neg_iff] at hge
        rw [if_pos hge] at hu
        rw [gt_iff_lt, UInt64.lt_iff_toNat_lt, hnegate] at hgt
        simp only [InFile, target]
        omega
      refine iff_of_false (fun h => ?_) (fun h => h hin)
      exact absurd (h.zero.mpr hin) (by decide : (-1 : ℤ) ≠ 0)

end seek

/-- **Seeking.** In a file whose position is not behind its end, `fseek` returns 0 for the
positions in the file only, and sets them then and leaves the position otherwise, exactly if a
seek from the current position does not wrap into the file, and a seek from the end is for a
position that is not in the file. -/
theorem fseek_all_or_nothing_iff (S : System) (fp : ℕ) (offset : Int64) (position : Fpos)
    (s : State) (h : (s.file (fileIndex S fp)).pointer ≤ (s.file (fileIndex S fp)).size) :
    AllOrNothing (s.file (fileIndex S fp)) offset position ((fseek S fp offset position s).1,
      (fseek S fp offset position s).2.file (fileIndex S fp)) ↔
        SeeksRight (s.file (fileIndex S fp)) offset position := by
  have hfile : (fseek S fp offset position s).2.file (fileIndex S fp) =
      (seek (s.file (fileIndex S fp)) offset position).2 := Function.update_self _ _ _
  rw [hfile]
  cases position with
  | set => exact iff_of_true (seek_set _ _) trivial
  | cur => exact seek_cur_iff h
  | fin => exact seek_fin_iff

def sixRead : State := { cleared with file := fun _ => ⟨⟨0, [], fun _ _ => 0⟩, 0, 6, 10, true⟩ }

theorem fseek_all_or_nothing_iff_ten :
    AllOrNothing (sixRead.file (fileIndex smallSystem 0x1000)) (-4) .cur
      ((fseek smallSystem 0x1000 (-4) .cur sixRead).1,
        (fseek smallSystem 0x1000 (-4) .cur sixRead).2.file (fileIndex smallSystem 0x1000)) :=
  (fseek_all_or_nothing_iff smallSystem 0x1000 (-4) .cur sixRead (by decide)).mpr
    ⟨by decide, by decide⟩

/-- A seek to the last byte from the end fails and leaves the position there. -/
theorem not_fseek_all_or_nothing :
    (sixRead.file (fileIndex smallSystem 0x1000)).pointer ≤
      (sixRead.file (fileIndex smallSystem 0x1000)).size ∧
    (fseek smallSystem 0x1000 (-1) .fin sixRead).1 = -1 ∧
    ((fseek smallSystem 0x1000 (-1) .fin sixRead).2.file
      (fileIndex smallSystem 0x1000)).pointer = 9 ∧
    ¬ AllOrNothing (sixRead.file (fileIndex smallSystem 0x1000)) (-1) .fin
      ((fseek smallSystem 0x1000 (-1) .fin sixRead).1,
        (fseek smallSystem 0x1000 (-1) .fin sixRead).2.file (fileIndex smallSystem 0x1000)) :=
  ⟨by decide, by decide, by decide, fun h =>
    absurd (h.zero.mpr ⟨by decide, by decide⟩) (by decide)⟩

end FlameOS.Handles
