import FlameOS.FatName
import FlameOS.FatRead
import FlameOS.StepLoop

/-!
`find_fat_entry`: which entry it finds for a path.

A round of the loop goes over the records of one cluster. What it shows for an entry may have
bytes of the names before it, a run of long-name records at the end of a cluster makes it go
over the same buffer again, and the link to the next cluster is taken from the sector of the
FAT that has the entry of the next cluster. With this sector as many others are read as a cluster
has, where there is room for one: the rest comes into the buffer with the records.
-/

namespace FlameOS.FatFind

open FlameOS.Fat FlameOS.FatName FlameOS.FatRead FlameOS.StepLoop

/-! ### The loop -/

/-- How the pass over the records of a cluster ends. -/
inductive Pass
  | fault
  | found (entry : FATEntry) (filename : Buffer) (len : ℕ)
  | crossed (filename : Buffer) (len : ℕ)
  | done (filename : Buffer) (len : ℕ)

/-- The pass over the records, `run` if the last one was a long-name record. There is no
component behind the last one of the path, but a null pointer. -/
def scan (comp : Option (List UInt8)) : List FATEntry → Bool → Buffer → ℕ → Pass
  | [], run, filename, len => if run then .crossed filename len else .done filename len
  | current :: rest, run, filename, len =>
    if current.attr = LFN then
      match putPiece filename current with
      | none => .fault
      | some filename => scan comp rest true filename (len + 13)
    else
      match if run then terminate filename len else some (putShort filename current) with
      | none => .fault
      | some filename =>
        let len := if run then 0 else len
        match comp with
        | none => .fault
        | some comp =>
          if strcmp (cstr filename) comp = 0 then .found current filename len
          else scan (some comp) rest false filename len

/-- The variables at `inloop2`. `FAT_buffer` has 512 bytes, and `buffer` begins `gap` bytes behind
its beginning. -/
structure Search where
  gap : ℕ
  activeCluster : UInt32
  FATbuffer : Buffer
  buffer : Buffer
  filename : Buffer
  len : ℕ
  depth : ℕ

/-- What `find_fat_entry` returns: 0 with its two outputs, or 2. -/
inductive Outcome
  | found (entry : FATEntry) (filename : Buffer)
  | notFound
  | fault

def records (buffer : Buffer) (n : ℕ) : List FATEntry :=
  (List.range n).map fun i k => buffer (32 * i + k)

variable (v : Volume) (path : List (List UInt8))

def readData (activeCluster : UInt32) (buffer : Buffer) : Buffer :=
  readsectorpio v.disk (dataLba v activeCluster) v.fsInfo.sectorsPerCluster.toNat buffer

def loadNext (activeCluster : UInt32) (FATbuffer : Buffer) : Buffer :=
  readsectorpio v.disk (fatLba v (fatWord FATbuffer (activeCluster % FEPS) / FEPS))
    v.fsInfo.sectorsPerCluster.toNat FATbuffer

def nextActive (activeCluster : UInt32) (FATbuffer : Buffer) : UInt32 :=
  fatWord (loadNext v activeCluster FATbuffer) (activeCluster % FEPS)

/-- At `inloop2` behind a match with a directory. -/
def enter (s : Search) (entry : FATEntry) (filename : Buffer) (len : ℕ) : Search :=
  { s with
    activeCluster := entry.cluster
    buffer := readData v entry.cluster s.buffer
    filename := filename
    len := len
    depth := s.depth + 1 }

/-- What the sectors of the FAT leave in `buffer`: they are read to `FAT_buffer`, which has room
for one. -/
def overlay (gap : ℕ) (sectors buffer : Buffer) : Buffer := fun k =>
  if gap + k < v.fsInfo.sectorsPerCluster.toNat * SECTOR_SIZE then sectors (gap + k) else buffer k

/-- At `inloop2` behind the end of a cluster. What the sectors of the FAT have left in `buffer` is
overwritten. -/
def advance (s : Search) (filename : Buffer) (len : ℕ) : Search :=
  { s with
    activeCluster := nextActive v s.activeCluster s.FATbuffer
    FATbuffer := loadNext v s.activeCluster s.FATbuffer
    buffer := readData v (nextActive v s.activeCluster s.FATbuffer) s.buffer
    filename := filename
    len := len }

/-- At `inloop2` behind the end of a cluster within a name. -/
def again (s : Search) (filename : Buffer) (len : ℕ) : Search :=
  { advance v s filename len with
    buffer := overlay v s.gap (loadNext v s.activeCluster s.FATbuffer) s.buffer }

/-- From the end of a pass to the next time at `inloop2`, or to the end. -/
def after (s : Search) : Pass → Except Outcome Search
  | .fault => .error .fault
  | .found entry filename len =>
    if entry.attr &&& 0x10 = 0 then .error (.found entry filename)
    else .ok (enter v s entry filename len)
  | .crossed filename len => .ok (again v s filename len)
  | .done filename len =>
    if nextActive v s.activeCluster s.FATbuffer &&& 0x0FFFFFFF < 0x0FFFFFF0 then
      .ok (advance v s filename len)
    else .error .notFound

def step (s : Search) : Except Outcome Search :=
  after v s (scan path[s.depth]? (records s.buffer ((bytesPerCluster v).toNat / 32)) false
    s.filename s.len)

/-- Before the first round. The buffers are as `malloc` returns them, and where it has put them. -/
def start (gap : ℕ) (FATbuffer buffer filename : Buffer) : Search where
  gap := gap
  activeCluster := v.fsInfo.rootCluster
  FATbuffer := readsectorpio v.disk (fatLba v (v.fsInfo.rootCluster / FEPS)) 1 FATbuffer
  buffer := readData v v.fsInfo.rootCluster buffer
  filename := filename
  len := 0
  depth := 0

def findFatEntry (fuel gap : ℕ) (FATbuffer buffer filename : Buffer) : Option Outcome :=
  rounds (step v path) fuel (start v gap FATbuffer buffer filename)

def Reaches : Search → Search → Prop := Relation.ReflTransGen (Next (step v path))

variable {v path}

/-- What a caller sees: the value returned, and the entry if it is 0. -/
def Outcome.returned : Outcome → Option (ℕ × Option FATEntry)
  | found entry _ => some (0, some entry)
  | notFound => some (2, none)
  | fault => none

lemma Outcome.returned_zero {o : Outcome} {e : FATEntry} (h : o.returned = some (0, some e)) :
    ∃ fn, o = .found e fn := by
  rcases o with ⟨e', fn⟩ | _ | _
  · exact ⟨fn, by simpa [returned] using h⟩
  · simp [returned] at h
  · cases h

/-! ### Entry by entry -/

/-- The pass over the entries of a cluster, and what is left at its end. -/
def scanItems (comp : List UInt8) : List Item → List FATEntry → Buffer → Pass
  | [], rest, filename =>
    match rest.foldlM putPiece filename with
    | none => .fault
    | some fn => if rest = [] then .done fn 0 else .crossed fn (13 * rest.length)
  | it :: its, rest, filename =>
    match putName filename it with
    | none => .fault
    | some fn =>
      if cstr fn = comp then .found it.entry fn 0 else scanItems comp its rest fn

section scan

variable {comp : List UInt8} {filename fn : Buffer} {long : List FATEntry}

lemma foldlM_putPiece_snoc (long : List FATEntry) (e : FATEntry) (filename : Buffer) :
    (long ++ [e]).foldlM putPiece filename =
      (long.foldlM putPiece filename).bind fun fn => putPiece fn e := by
  rw [List.foldlM_append]
  rcases long.foldlM putPiece filename with _ | fn
  · rfl
  · exact bind_pure (putPiece fn e)

lemma scanItems_fault (h : long.foldlM putPiece filename = none) (es : List FATEntry) :
    scanItems comp (items long es) (pending long es) filename = .fault := by
  induction es generalizing long with
  | nil =>
    rw [items, pending, scanItems, h]
  | cons e es ih =>
    rw [items, pending]
    split
    · refine ih ?_
      rw [foldlM_putPiece_snoc, h]
      rfl
    · have hne : long ≠ [] := by
        rintro rfl
        cases h
      rw [scanItems, putName, if_neg hne, h]
      rfl

/-- The pass goes from entry to entry. -/
lemma scan_eq (h : long.foldlM putPiece filename = some fn) (es : List FATEntry) :
    scan (some comp) es (decide (long ≠ [])) fn (13 * long.length) =
      scanItems comp (items long es) (pending long es) filename := by
  induction es generalizing long filename fn with
  | nil =>
    rw [scan, items, pending, scanItems, h]
    by_cases hne : long = []
    · subst hne
      rfl
    · simp [hne]
  | cons e es ih =>
    rw [scan, items, pending]
    split
    · have hsnoc := foldlM_putPiece_snoc long e filename
      rw [h, Option.bind_some] at hsnoc
      rcases hput : putPiece fn e with _ | fn₁
      · rw [hput] at hsnoc
        rw [scanItems_fault hsnoc]
      · rw [hput] at hsnoc
        rw [← ih hsnoc]
        simp [Nat.mul_succ]
    · have hname : putName filename ⟨long, e⟩ =
          if decide (long ≠ []) then terminate fn (13 * long.length) else some (putShort fn e) := by
        unfold putName
        by_cases hne : long = []
        · subst hne
          cases h
          rfl
        · simp [hne, h]
      have hlen : (if decide (long ≠ []) = true then 0 else 13 * long.length) = 0 := by
        by_cases hne : long = []
        · subst hne
          rfl
        · simp [hne]
      rw [scanItems, hname, hlen]
      split
      · rfl
      · rename_i fn₁ _
        simp only [strcmp_eq_zero]
        split
        · rfl
        · have hnil : ([] : List FATEntry).foldlM putPiece fn₁ = some fn₁ := rfl
          exact ih hnil

end scan

/-! ### Directories -/

structure OnDisk where
  disk : Disk
  loc : UInt64
  BPB : Bootrecord

def OnDisk.setup (w : OnDisk) : Volume := setupVolume w.disk w.loc w.BPB

def clusterRecords (w : OnDisk) (c : UInt32) : List FATEntry :=
  (List.range (w.BPB.bytesPerSector.toNat * w.BPB.sectorsPerCluster.toNat / 32)).map fun i k =>
    w.disk (clusterLba w.BPB w.loc c + (32 * i + k) / SECTOR_SIZE) ((32 * i + k) % SECTOR_SIZE)

/-- The entries of a cluster whose first record begins a name. -/
def clusterItems (w : OnDisk) (c : UInt32) : List Item := items [] (clusterRecords w c)

/-- The clusters come one after the other behind the first. -/
def Links (v : Volume) : UInt32 → List UInt32 → Prop
  | _, [] => True
  | c, d :: cs => nextCluster v c = d ∧ d < 0x0FFFFFF8 ∧ Links v d cs

/-- The directory that begins at the cluster has the entry, in any of its clusters. -/
def InDir (w : OnDisk) (c : UInt32) (it : Item) : Prop :=
  ∃ cs, Links w.setup c cs ∧ it ∈ items [] ((c :: cs).flatMap (clusterRecords w))

/-- The path leads from the directory to the record of a file, through directories. -/
inductive Resolves (w : OnDisk) : UInt32 → List (List UInt8) → FATEntry → Prop
  | file {c : UInt32} {comp : List UInt8} {it : Item} (dir : InDir w c it) (name : Named comp it)
      (regular : it.entry.attr &&& 0x10 = 0) : Resolves w c [comp] it.entry
  | dir {c : UInt32} {comp : List UInt8} {it : Item} {path : List (List UInt8)} {e : FATEntry}
      (dir : InDir w c it) (name : Named comp it) (directory : it.entry.attr &&& 0x10 ≠ 0)
      (rest : Resolves w it.entry.cluster path e) : Resolves w c (comp :: path) e

/-- On the way along the path every name is that of one record, as the names in a directory
are. -/
def Unambiguous (w : OnDisk) : UInt32 → List (List UInt8) → Prop
  | _, [] => True
  | c, comp :: path => ∀ it, InDir w c it → Named comp it →
      (∀ it', InDir w c it' → Named comp it' → it'.entry = it.entry) ∧
        Unambiguous w it.entry.cluster path

section directories

variable {w : OnDisk} {c d : UInt32} {it : Item}

lemma InDir.of_mem (h : it ∈ clusterItems w c) : InDir w c it :=
  ⟨[], trivial, by rwa [List.flatMap_singleton]⟩

/-- An entry behind the first cluster, if no name crosses its end. -/
lemma InDir.of_next (hcd : nextCluster w.setup c = d) (hd : d < 0x0FFFFFF8)
    (hpending : pending [] (clusterRecords w c) = []) (h : InDir w d it) : InDir w c it := by
  obtain ⟨cs, hcs, hit⟩ := h
  refine ⟨d :: cs, ⟨hcd, hd, hcs⟩, ?_⟩
  rw [List.flatMap_cons, items_append, hpending]
  exact List.mem_append_right _ hit

lemma Resolves.of_next (hcd : nextCluster w.setup c = d) (hd : d < 0x0FFFFFF8)
    (hpending : pending [] (clusterRecords w c) = []) {path : List (List UInt8)} {e : FATEntry}
    (h : Resolves w d path e) : Resolves w c path e := by
  cases h with
  | file dir name regular => exact .file (dir.of_next hcd hd hpending) name regular
  | dir dir name directory rest => exact .dir (dir.of_next hcd hd hpending) name directory rest

lemma Resolves.live {path : List (List UInt8)} {e : FATEntry} (h : Resolves w c path e) :
    Live e := by
  induction h with
  | file _ name _ => exact name.1
  | dir _ _ _ _ ih => exact ih

lemma InDir.mem (hlast : ¬ nextCluster w.setup c < 0x0FFFFFF8) (h : InDir w c it) :
    it ∈ clusterItems w c := by
  obtain ⟨cs, hcs, hit⟩ := h
  rcases cs with _ | ⟨d, cs⟩
  · rwa [List.flatMap_singleton] at hit
  · exact absurd (hcs.1 ▸ hcs.2.1) hlast

end directories

/-! ### Rounds that go right -/

/-- The pass goes right: every entry is put together within the array, one that is shown as the
component is plain and a file at the end of the path only, and one that is not may be missed.
Where no entry is shown as the component, the link is as it should be. -/
def CleanItems (comp : List UInt8) (last : Prop) (miss : Item → Prop) (link : Prop) :
    List Item → Buffer → Prop
  | [], _ => link
  | it :: its, filename =>
    match putName filename it with
    | none => False
    | some fn =>
      if cstr fn = comp then Plain it ∧ (it.entry.attr &&& 0x10 = 0 ↔ last)
      else miss it ∧ CleanItems comp last miss link its fn

/-- No name crosses the end of the cluster, and the cluster taken for the next one is the next
one, or ends the loop if there is none. -/
def FollowsLink (w : OnDisk) (c : UInt32) (FATbuffer : Buffer) : Prop :=
  pending [] (clusterRecords w c) = [] ∧
    if nextCluster w.setup c < 0x0FFFFFF0 then nextActive w.setup c FATbuffer = nextCluster w.setup c
    else 0x0FFFFFF0 ≤ nextActive w.setup c FATbuffer &&& 0x0FFFFFFF

/-- A round that looks for a component in a cluster goes right. -/
structure CleanRound (w : OnDisk) (path : List (List UInt8)) (comp : List UInt8)
    (miss : Item → Prop) (more : Prop) (s : Search) : Prop where
  address : (dataLba w.setup s.activeCluster).toNat % 2 ^ 48 =
    clusterLba w.BPB w.loc s.activeCluster
  names : CleanItems comp (s.depth + 1 = path.length) miss
    (FollowsLink w s.activeCluster s.FATbuffer ∧ more) (clusterItems w s.activeCluster) s.filename

/-- The path has a component left, and the round finds nothing else for it. -/
def SoundRound (w : OnDisk) (path : List (List UInt8)) (s : Search) : Prop :=
  ∃ comp, path[s.depth]? = some comp ∧ CleanRound w path comp (fun _ => True) True s

/-- The path has a component left, and the round does not miss it either. -/
def CompleteRound (w : OnDisk) (path : List (List UInt8)) (s : Search) : Prop :=
  ∃ comp, path[s.depth]? = some comp ∧ CleanRound w path comp (fun it => ¬ Named comp it)
    (nextCluster w.setup s.activeCluster < 0x0FFFFFF0) s

/-- The buffer has the cluster, and no name is begun. -/
structure Good (w : OnDisk) (s : Search) : Prop where
  buffer : ∃ b, s.buffer = readData w.setup s.activeCluster b
  len : s.len = 0

instance decidableCleanItems (comp : List UInt8) (last : Prop) [Decidable last]
    (miss : Item → Prop) [DecidablePred miss] (link : Prop) [Decidable link] :
    (its : List Item) → (filename : Buffer) → Decidable (CleanItems comp last miss link its filename)
  | [], _ => inferInstanceAs (Decidable link)
  | it :: its, filename =>
    match h : putName filename it with
    | none => .isFalse fun hc => by simp [CleanItems, h] at hc
    | some fn =>
      haveI := decidableCleanItems comp last miss link its fn
      decidable_of_iff (if cstr fn = comp then Plain it ∧ (it.entry.attr &&& 0x10 = 0 ↔ last)
        else miss it ∧ CleanItems comp last miss link its fn) (by simp [CleanItems, h])

instance (w : OnDisk) (c : UInt32) (FATbuffer : Buffer) : Decidable (FollowsLink w c FATbuffer) :=
  inferInstanceAs (Decidable (pending [] (clusterRecords w c) = [] ∧
    if nextCluster w.setup c < 0x0FFFFFF0 then nextActive w.setup c FATbuffer = nextCluster w.setup c
    else 0x0FFFFFF0 ≤ nextActive w.setup c FATbuffer &&& 0x0FFFFFFF))

instance (w : OnDisk) (path : List (List UInt8)) (comp : List UInt8) (miss : Item → Prop)
    [DecidablePred miss] (more : Prop) [Decidable more] (s : Search) :
    Decidable (CleanRound w path comp miss more s) :=
  decidable_of_iff ((dataLba w.setup s.activeCluster).toNat % 2 ^ 48 =
      clusterLba w.BPB w.loc s.activeCluster ∧
    CleanItems comp (s.depth + 1 = path.length) miss
      (FollowsLink w s.activeCluster s.FATbuffer ∧ more) (clusterItems w s.activeCluster) s.filename)
    ⟨fun h => ⟨h.1, h.2⟩, fun h => ⟨h.address, h.names⟩⟩

instance (w : OnDisk) (path : List (List UInt8)) (s : Search) : Decidable (SoundRound w path s) :=
  decidable_of_iff (∃ comp ∈ path[s.depth]?, CleanRound w path comp (fun _ => True) True s) Iff.rfl

instance (w : OnDisk) (path : List (List UInt8)) (s : Search) :
    Decidable (CompleteRound w path s) :=
  decidable_of_iff (∃ comp ∈ path[s.depth]?, CleanRound w path comp (fun it => ¬ Named comp it)
    (nextCluster w.setup s.activeCluster < 0x0FFFFFF0) s) Iff.rfl

section rounds

variable {w : OnDisk} {path : List (List UInt8)} {comp : List UInt8} {s : Search}

lemma records_readData (hbps : w.BPB.bytesPerSector = 512) {c : UInt32} (b : Buffer)
    (haddr : (dataLba w.setup c).toNat % 2 ^ 48 = clusterLba w.BPB w.loc c) :
    records (readData w.setup c b) ((bytesPerCluster w.setup).toNat / 32) = clusterRecords w c := by
  have hper : (bytesPerCluster w.setup).toNat =
      w.BPB.bytesPerSector.toNat * w.BPB.sectorsPerCluster.toNat := toNat_bytesPerCluster _
  have h512 : w.BPB.bytesPerSector.toNat = 512 := by rw [hbps]; rfl
  unfold records clusterRecords
  rw [hper, h512]
  refine List.map_congr_left fun i hi => funext fun k => ?_
  have hi' := List.mem_range.mp hi
  have hin : 32 * i + k < w.BPB.sectorsPerCluster.toNat * SECTOR_SIZE := by
    unfold SECTOR_SIZE
    omega
  have hcount : w.setup.fsInfo.sectorsPerCluster = w.BPB.sectorsPerCluster := rfl
  unfold readData readsectorpio
  rw [hcount, if_pos hin, haddr]
  rfl

/-- The pass finds the first entry that is shown as the component. -/
lemma CleanItems.scanItems {last : Prop} {miss : Item → Prop} {link : Prop} {its : List Item}
    {filename : Buffer} (h : CleanItems comp last miss link its filename) (rest : List FATEntry) :
    (∃ it ∈ its, Named comp it ∧ (it.entry.attr &&& 0x10 = 0 ↔ last) ∧
      ∃ fn, scanItems comp its rest filename = .found it.entry fn 0) ∨
    ((∀ it ∈ its, miss it) ∧ link) ∧
      ∃ fn, scanItems comp its rest filename = scanItems comp [] rest fn := by
  induction its generalizing filename with
  | nil => exact Or.inr ⟨⟨fun it hit => absurd hit List.not_mem_nil, h⟩, filename, rfl⟩
  | cons it its ih =>
    rw [CleanItems] at h
    rw [FatFind.scanItems]
    rcases hput : putName filename it with _ | fn
    · rw [hput] at h
      exact absurd h id
    · simp only [hput] at h
      by_cases hshown : cstr fn = comp
      · rw [if_pos hshown] at h
        refine Or.inl ⟨it, List.mem_cons_self, (h.1.shown_iff hput comp).mp hshown, h.2, fn, ?_⟩
        exact if_pos hshown
      · rw [if_neg hshown] at h
        simp only [if_neg hshown]
        rcases ih h.2 with ⟨it', hit', hfound⟩ | ⟨⟨hmiss, hlink⟩, hdone⟩
        · exact Or.inl ⟨it', List.mem_cons_of_mem it hit', hfound⟩
        · exact Or.inr ⟨⟨List.forall_mem_cons.mpr ⟨h.1, hmiss⟩, hlink⟩, hdone⟩

def Hits (w : OnDisk) (path : List (List UInt8)) (s : Search) (it : Item) : Prop :=
  ∃ fn, step w.setup path s = if it.entry.attr &&& 0x10 = 0 then .error (.found it.entry fn)
    else .ok (enter w.setup s it.entry fn 0)

def Passes (w : OnDisk) (path : List (List UInt8)) (s : Search) : Prop :=
  ∃ fn, step w.setup path s =
    if nextCluster w.setup s.activeCluster < 0x0FFFFFF0 then .ok (advance w.setup s fn 0)
    else .error .notFound

/-- A round that goes right finds an entry of the name, or goes over all of them. -/
lemma CleanRound.step {miss : Item → Prop} {more : Prop} (hbps : w.BPB.bytesPerSector = 512)
    (hg : Good w s) (hcomp : path[s.depth]? = some comp)
    (h : CleanRound w path comp miss more s) :
    (∃ it ∈ clusterItems w s.activeCluster, Named comp it ∧
      (it.entry.attr &&& 0x10 = 0 ↔ s.depth + 1 = path.length) ∧ Hits w path s it) ∨
    ((∀ it ∈ clusterItems w s.activeCluster, miss it) ∧
      FollowsLink w s.activeCluster s.FATbuffer ∧ more) ∧ Passes w path s := by
  obtain ⟨b, hb⟩ := hg.buffer
  have hscan : scan path[s.depth]? (records s.buffer ((bytesPerCluster w.setup).toNat / 32)) false
      s.filename s.len = FatFind.scanItems comp (clusterItems w s.activeCluster)
        (pending [] (clusterRecords w s.activeCluster)) s.filename := by
    have hnil : ([] : List FATEntry).foldlM putPiece s.filename = some s.filename := rfl
    rw [hcomp, hb, records_readData hbps b h.address, hg.len]
    exact scan_eq hnil _
  rcases h.names.scanItems (pending [] (clusterRecords w s.activeCluster)) with
    ⟨it, hit, hnamed, hlast, fn, hfound⟩ | ⟨hright, fn, hdone⟩
  · refine Or.inl ⟨it, hit, hnamed, hlast, fn, ?_⟩
    rw [FatFind.step, hscan, hfound, after]
  · refine Or.inr ⟨hright, fn, ?_⟩
    obtain ⟨-, ⟨hpending, hlink⟩, -⟩ := hright
    rw [hpending] at hdone hscan
    rw [FatFind.step, hscan, hdone]
    by_cases hnext : nextCluster w.setup s.activeCluster < 0x0FFFFFF0
    · rw [if_pos hnext] at hlink ⊢
      have hlt : nextActive w.setup s.activeCluster s.FATbuffer &&& 0x0FFFFFFF < 0x0FFFFFF0 := by
        rw [hlink]
        exact masked_lt hnext
      exact if_pos hlt
    · rw [if_neg hnext] at hlink ⊢
      exact if_neg (UInt32.not_lt.mpr hlink)

lemma Good.start (w : OnDisk) (gap : ℕ) (FATbuffer buffer filename : Buffer) :
    Good w (start w.setup gap FATbuffer buffer filename) := ⟨⟨buffer, rfl⟩, rfl⟩

lemma Good.enter (s : Search) (e : FATEntry) (fn : Buffer) :
    Good w (enter w.setup s e fn 0) := ⟨⟨s.buffer, rfl⟩, rfl⟩

lemma Good.advance (s : Search) (fn : Buffer) : Good w (advance w.setup s fn 0) :=
  ⟨⟨s.buffer, rfl⟩, rfl⟩

lemma FollowsLink.next {c : UInt32} {FATbuffer : Buffer} (h : FollowsLink w c FATbuffer)
    (hlt : nextCluster w.setup c < 0x0FFFFFF0) :
    nextActive w.setup c FATbuffer = nextCluster w.setup c := by
  have hlink := h.2
  rwa [if_pos hlt] at hlink

lemma lt_endMark {d : UInt32} (h : d < 0x0FFFFFF0) : d < 0x0FFFFFF8 :=
  UInt32.lt_trans h (by decide)

end rounds

/-! ### Small volumes -/

def ascii (l : List Char) : List UInt8 := l.map fun c => c.toNat.toUInt8

def shortRecord (name : List UInt8) (attr cluster : UInt8) : List UInt8 :=
  name ++ attr :: List.replicate 14 0 ++ cluster :: List.replicate 5 0

def longRecord (order checksum : UInt8) (name : List UInt8) : List UInt8 :=
  let chars := (name.flatMap fun b => [b, 0]) ++ [0, 0] ++ List.replicate 26 0xFF
  order :: chars.take 10 ++ [LFN, 0, checksum] ++ (chars.drop 10).take 12 ++ [0, 0] ++
    (chars.drop 22).take 4

def ofBytes (l : List UInt8) : FATEntry := fun k => l.getD k 0

/-- A volume of 1 GiB in which the root directory is cluster 2, and clusters 2 and 3 have the
given records and are the last of their chains. -/
def smallVolume (root sub : List UInt8) : OnDisk where
  disk lba i :=
    if lba = 32 then [0xF8, 0xFF, 0xFF, 0x0F, 0xFF, 0xFF, 0xFF, 0x0F, 0xFF, 0xFF, 0xFF, 0x0F,
      0xFF, 0xFF, 0xFF, 0x0F].getD i 0
    else if lba = 32736 then root.getD i 0
    else if lba = 32737 then sub.getD i 0
    else 0
  loc := 0
  BPB := gibibyte 1

lemma geometry_smallVolume (root sub : List UInt8) :
    Geometry (smallVolume root sub).BPB (smallVolume root sub).loc 2 :=
  have h : Geometry (gibibyte 1) 0 2 := ⟨Or.inl rfl, ⟨0, by decide, by decide⟩, by decide,
    by decide, by decide, by decide, by decide, by decide⟩
  h

def musicRecord : List UInt8 :=
  shortRecord (ascii ['M', 'U', 'S', 'I', 'C', ' ', ' ', ' ', ' ', ' ', ' ']) 0x10 3

def musicLong : List UInt8 :=
  longRecord 0x41 (checksum (ofBytes musicRecord)) (ascii ['m', 'u', 's', 'i', 'c'])

def noteRecord : List UInt8 :=
  shortRecord (ascii ['N', 'O', 'T', 'E', ' ', ' ', ' ', ' ', 'T', 'X', 'T']) 0x20 4

def music : OnDisk := smallVolume (musicLong ++ musicRecord)
  (shortRecord (ascii ['.', ' ', ' ', ' ', ' ', ' ', ' ', ' ', ' ', ' ', ' ']) 0x10 3 ++ noteRecord)

def notePath : List (List UInt8) :=
  [ascii ['m', 'u', 's', 'i', 'c'], ascii ['N', 'O', 'T', 'E', '.', 'T', 'X', 'T']]

def musicStart : Search := start music.setup 512 (fun _ => 0) (fun _ => 0) (fun _ => 0)

lemma rounds_music :
    ∃ fn, rounds (step music.setup notePath) 2 musicStart = some (.found (ofBytes noteRecord) fn) := by
  have h : (rounds (step music.setup notePath) 2 musicStart).bind Outcome.returned =
      some (0, some (ofBytes noteRecord)) := by decide +kernel
  obtain ⟨o, ho, hreturned⟩ := Option.bind_eq_some_iff.mp h
  obtain ⟨fn, rfl⟩ := Outcome.returned_zero hreturned
  exact ⟨fn, ho⟩

/-! ### Soundness -/

section sound

variable {w : OnDisk} {path : List (List UInt8)}

/-- What is found from the cluster of the state on is found from the root directory on. -/
def Leads (w : OnDisk) (path : List (List UInt8)) (s : Search) : Prop :=
  ∀ rest e, Resolves w s.activeCluster rest e →
    Resolves w w.BPB.rootCluster (path.take s.depth ++ rest) e

lemma take_succ_of_getElem? {comp : List UInt8} {k : ℕ} (h : path[k]? = some comp) :
    path.take (k + 1) = path.take k ++ [comp] := by
  rw [List.take_add_one, h]
  rfl

/-- A round keeps what is known about the state. -/
lemma step_leads (hbps : w.BPB.bytesPerSector = 512) {s s' : Search} (hg : Good w s)
    (hl : Leads w path s) (hc : SoundRound w path s) (hs : step w.setup path s = .ok s') :
    Good w s' ∧ Leads w path s' := by
  obtain ⟨comp, hcomp, hround⟩ := hc
  rcases hround.step hbps hg hcomp with ⟨it, hit, hnamed, -, fn, hhit⟩ |
    ⟨⟨-, hlink, -⟩, fn, hpass⟩
  · rw [hhit] at hs
    by_cases hfile : it.entry.attr &&& 0x10 = 0
    · rw [if_pos hfile] at hs
      cases hs
    · rw [if_neg hfile] at hs
      obtain rfl := Except.ok.inj hs
      refine ⟨Good.enter s it.entry fn, fun rest e hrest => ?_⟩
      have hdir := hl (comp :: rest) e (.dir (.of_mem hit) hnamed hfile hrest)
      have htake : path.take (s.depth + 1) ++ rest = path.take s.depth ++ comp :: rest := by
        rw [take_succ_of_getElem? hcomp, List.append_assoc, List.singleton_append]
      exact htake ▸ hdir
  · rw [hpass] at hs
    by_cases hnext : nextCluster w.setup s.activeCluster < 0x0FFFFFF0
    · rw [if_pos hnext] at hs
      obtain rfl := Except.ok.inj hs
      refine ⟨Good.advance s fn, fun rest e hrest => hl rest e ?_⟩
      exact hrest.of_next (hlink.next hnext).symm
        ((hlink.next hnext).symm ▸ lt_endMark hnext) hlink.1
    · rw [if_neg hnext] at hs
      cases hs

lemma reaches_leads (hbps : w.BPB.bytesPerSector = 512) {gap : ℕ}
    {FATbuffer buffer filename : Buffer}
    (hclean : ∀ s, Reaches w.setup path (start w.setup gap FATbuffer buffer filename) s →
      SoundRound w path s) {s : Search}
    (hs : Reaches w.setup path (start w.setup gap FATbuffer buffer filename) s) :
    Good w s ∧ Leads w path s := by
  induction hs with
  | refl => exact ⟨Good.start w gap FATbuffer buffer filename, fun rest e hrest => hrest⟩
  | tail hreach hstep ih => exact step_leads hbps ih.1 ih.2 (hclean _ hreach) hstep

/-- A round that returns 0 has found the file. -/
lemma step_found (hbps : w.BPB.bytesPerSector = 512) {s : Search} {e : FATEntry} {fn : Buffer}
    (hg : Good w s) (hl : Leads w path s) (hc : SoundRound w path s)
    (hs : step w.setup path s = .error (.found e fn)) : Resolves w w.BPB.rootCluster path e := by
  obtain ⟨comp, hcomp, hround⟩ := hc
  rcases hround.step hbps hg hcomp with ⟨it, hit, hnamed, hlast, fn', hhit⟩ | ⟨-, fn', hpass⟩
  · rw [hhit] at hs
    by_cases hfile : it.entry.attr &&& 0x10 = 0
    · rw [if_pos hfile] at hs
      obtain ⟨rfl, -⟩ : it.entry = e ∧ fn' = fn := by simpa using hs
      have hpath : path.take s.depth ++ [comp] = path := by
        rw [← take_succ_of_getElem? hcomp, hlast.mp hfile, List.take_length]
      rw [← hpath]
      exact hl [comp] it.entry (.file (.of_mem hit) hnamed hfile)
    · rw [if_neg hfile] at hs
      cases hs
  · rw [hpass] at hs
    split at hs <;> simp at hs

/-- **Soundness of the lookup.** If every round of the loop goes right, an entry that
`find_fat_entry` returns 0 with is the record of a file with the name of the last component,
reached through directories with the names of the others. -/
theorem find_sound (w : OnDisk) (path : List (List UInt8)) (gap : ℕ)
    (FATbuffer buffer filename : Buffer) (hbps : w.BPB.bytesPerSector = 512)
    (hclean : ∀ s, Reaches w.setup path (start w.setup gap FATbuffer buffer filename) s →
      SoundRound w path s)
    (fuel : ℕ) (e : FATEntry) (fn : Buffer)
    (h : findFatEntry w.setup path fuel gap FATbuffer buffer filename = some (.found e fn)) :
    Resolves w w.BPB.rootCluster path e := by
  obtain ⟨s, hs, hfound⟩ := rounds_eq_some.mp ⟨fuel, h⟩
  obtain ⟨hg, hl⟩ := reaches_leads hbps hclean hs
  exact step_found hbps hg hl (hclean s hs) hfound

theorem find_sound_music :
    ∃ fn, findFatEntry music.setup notePath 2 512 (fun _ => 0) (fun _ => 0) (fun _ => 0) =
      some (.found (ofBytes noteRecord) fn) ∧ Resolves music 2 notePath (ofBytes noteRecord) := by
  obtain ⟨fn, hfn⟩ := rounds_music
  have hclean : ∀ s ∈ states (step music.setup notePath) 2 musicStart, SoundRound music notePath s := by
    decide +kernel
  exact ⟨fn, hfn, find_sound music notePath 512 (fun _ => 0) (fun _ => 0) (fun _ => 0) rfl
    (fun s hs => hclean s (mem_states hfn hs)) 2 _ fn hfn⟩

def secret : List UInt8 := ascii ['s', 'e', 'c', 'r', 'e', 't', '.', 't', 'x', 't']

/-- The record of the file `secret.txt`, which has been deleted. -/
def deletedRecord : List UInt8 :=
  shortRecord (0xE5 :: ascii ['E', 'C', 'R', 'E', 'T', ' ', ' ', 'T', 'X', 'T']) 0x20 5

def deletedVolume : OnDisk := smallVolume (longRecord 0xE5 0x7B secret ++ deletedRecord) []

/-- A deleted file is found by a name that was in the array before: the long-name record is
taken for the fifth. -/
theorem not_find_sound :
    Geometry deletedVolume.BPB deletedVolume.loc 2 ∧
    (∃ fn, findFatEntry deletedVolume.setup [secret] 1 512 (fun _ => 0) (fun _ => 0)
      (fun i => secret.getD i 0) = some (.found (ofBytes deletedRecord) fn)) ∧
    ¬ Resolves deletedVolume 2 [secret] (ofBytes deletedRecord) := by
  refine ⟨geometry_smallVolume _ _, ?_, fun h => h.live.1 (by decide +kernel)⟩
  have h : (findFatEntry deletedVolume.setup [secret] 1 512 (fun _ => 0) (fun _ => 0)
      (fun i => secret.getD i 0)).bind Outcome.returned =
        some (0, some (ofBytes deletedRecord)) := by decide +kernel
  obtain ⟨o, ho, hreturned⟩ := Option.bind_eq_some_iff.mp h
  obtain ⟨fn, rfl⟩ := Outcome.returned_zero hreturned
  exact ⟨fn, ho⟩

end sound

/-! ### Completeness -/

section complete

variable {w : OnDisk} {path : List (List UInt8)}

lemma getElem?_of_drop {k : ℕ} {comp : List UInt8} {rest : List (List UInt8)}
    (h : path.drop k = comp :: rest) : path[k]? = some comp := by
  rw [← List.head?_drop, h]
  rfl

/-- Along the clusters of a directory the rounds come to an entry of the name. -/
lemma walk (hbps : w.BPB.bytesPerSector = 512) {c : UInt32} {comp : List UInt8} {it : Item}
    {cs : List UInt32} {s : Search} (hg : Good w s) (hcomp : path[s.depth]? = some comp)
    (hclean : ∀ s', Reaches w.setup path s s' → CompleteRound w path s')
    (hdir : ∀ it, InDir w s.activeCluster it → InDir w c it)
    (hcs : Links w.setup s.activeCluster cs)
    (hit : it ∈ items [] ((s.activeCluster :: cs).flatMap (clusterRecords w)))
    (hnamed : Named comp it) :
    ∃ s' it', Reaches w.setup path s s' ∧ s'.depth = s.depth ∧ InDir w c it' ∧ Named comp it' ∧
      Hits w path s' it' := by
  induction cs generalizing s with
  | nil =>
    obtain ⟨comp', hcomp', hround⟩ := hclean s .refl
    obtain rfl : comp = comp' := Option.some.inj (hcomp.symm.trans hcomp')
    rcases hround.step hbps hg hcomp with ⟨it', hit', hnamed', -, hhit⟩ | ⟨⟨hnone, -⟩, -⟩
    · exact ⟨s, it', .refl, rfl, hdir it' (.of_mem hit'), hnamed', hhit⟩
    · rw [List.flatMap_singleton] at hit
      exact absurd hnamed (hnone it hit)
  | cons d cs ih =>
    obtain ⟨comp', hcomp', hround⟩ := hclean s .refl
    obtain rfl : comp = comp' := Option.some.inj (hcomp.symm.trans hcomp')
    rcases hround.step hbps hg hcomp with ⟨it', hit', hnamed', -, hhit⟩ |
      ⟨⟨hnone, hlink, hlt⟩, fn, hpass⟩
    · exact ⟨s, it', .refl, rfl, hdir it' (.of_mem hit'), hnamed', hhit⟩
    · -- the entry is behind the end of this cluster
      obtain ⟨hcd, hd, hcs⟩ := hcs
      rw [List.flatMap_cons, items_append, hlink.1, List.mem_append] at hit
      have hit' := hit.resolve_left fun hmem => hnone it hmem hnamed
      have hactive : (advance w.setup s fn 0).activeCluster = d := (hlink.next hlt).trans hcd
      rw [if_pos hlt] at hpass
      obtain ⟨s', it₁, hreach, hdepth, hrest⟩ := ih (Good.advance s fn) hcomp
        (fun s' hs' => hclean s' (.head hpass hs'))
        (fun it₁ h₁ => hdir it₁ (.of_next hcd hd hlink.1 (hactive ▸ h₁)))
        (hactive.symm ▸ hcs) (hactive.symm ▸ hit')
      exact ⟨s', it₁, .head hpass hreach, hdepth, hrest⟩

lemma reaches_file (hbps : w.BPB.bytesPerSector = 512) {c : UInt32} {rest : List (List UInt8)}
    {e : FATEntry} (hres : Resolves w c rest e) (huniq : Unambiguous w c rest) {s : Search}
    (hg : Good w s) (hactive : s.activeCluster = c) (hrest : path.drop s.depth = rest)
    (hclean : ∀ s', Reaches w.setup path s s' → CompleteRound w path s') :
    ∃ s' fn, Reaches w.setup path s s' ∧ step w.setup path s' = .error (.found e fn) := by
  induction hres generalizing s with
  | file hdir hname hfile =>
    subst hactive
    have hcomp := getElem?_of_drop hrest
    obtain ⟨cs, hcs, hit⟩ := hdir
    obtain ⟨s', it', hreach, -, hdir', hname', fn, hhit⟩ :=
      walk hbps hg hcomp hclean (fun _ h => h) hcs hit hname
    have hsame := (huniq _ ⟨cs, hcs, hit⟩ hname).1 it' hdir' hname'
    rw [hsame, if_pos hfile] at hhit
    exact ⟨s', fn, hreach, hhit⟩
  | @dir _ _ _ path' _ hdir hname hdirectory _ ih =>
    subst hactive
    have hcomp := getElem?_of_drop hrest
    obtain ⟨cs, hcs, hit⟩ := hdir
    obtain ⟨s₁, it', hreach, hdepth, hdir', hname', fn, hhit⟩ :=
      walk hbps hg hcomp hclean (fun _ h => h) hcs hit hname
    obtain ⟨hsame, huniq'⟩ := huniq _ ⟨cs, hcs, hit⟩ hname
    rw [hsame it' hdir' hname', if_neg hdirectory] at hhit
    have hdrop : path.drop (s₁.depth + 1) = path' := by
      rw [hdepth, ← List.tail_drop, hrest]
      rfl
    obtain ⟨s', fn', hreach', hfound⟩ := ih huniq' (Good.enter s₁ _ fn) rfl hdrop
      fun s' hs' => hclean s' (hreach.trans (.head hhit hs'))
    exact ⟨s', fn', hreach.trans (.head hhit hreach'), hfound⟩

/-- **Completeness of the lookup.** If a path leads to a file, with no name on the way twice in
its directory, and every round of the loop goes right, `find_fat_entry` returns 0 with the
record of the file. -/
theorem find_complete (w : OnDisk) (path : List (List UInt8)) (e : FATEntry) (gap : ℕ)
    (FATbuffer buffer filename : Buffer) (hbps : w.BPB.bytesPerSector = 512)
    (hres : Resolves w w.BPB.rootCluster path e)
    (huniq : Unambiguous w w.BPB.rootCluster path)
    (hclean : ∀ s, Reaches w.setup path (start w.setup gap FATbuffer buffer filename) s →
      CompleteRound w path s) :
    ∃ fuel fn, findFatEntry w.setup path fuel gap FATbuffer buffer filename = some (.found e fn) := by
  obtain ⟨s, fn, hreach, hfound⟩ := reaches_file hbps hres huniq
    (Good.start w gap FATbuffer buffer filename) rfl List.drop_zero hclean
  obtain ⟨fuel, hfuel⟩ := rounds_eq_some.mpr ⟨s, hreach, hfound⟩
  exact ⟨fuel, fn, hfuel⟩

lemma resolves_music : Resolves music 2 notePath (ofBytes noteRecord) := by
  have hdir : ∃ it ∈ clusterItems music 2, Named (ascii ['m', 'u', 's', 'i', 'c']) it ∧
      it.entry.attr &&& 0x10 ≠ 0 ∧ it.entry.cluster = 3 := by decide +kernel
  have hfile : ∃ it ∈ clusterItems music 3,
      Named (ascii ['N', 'O', 'T', 'E', '.', 'T', 'X', 'T']) it ∧
        it.entry.attr &&& 0x10 = 0 ∧ it.entry = ofBytes noteRecord := by decide +kernel
  obtain ⟨it, hit, hname, hdirectory, hcluster⟩ := hdir
  obtain ⟨it', hit', hname', hregular, hentry⟩ := hfile
  refine .dir (.of_mem hit) hname hdirectory ?_
  rw [hcluster, ← hentry]
  exact .file (.of_mem hit') hname' hregular

lemma unambiguous_music : Unambiguous music 2 notePath := by
  have hroot : ∀ it ∈ clusterItems music 2, Named (ascii ['m', 'u', 's', 'i', 'c']) it →
      it.entry = ofBytes musicRecord := by decide +kernel
  have hsub : ∀ it ∈ clusterItems music 3,
      Named (ascii ['N', 'O', 'T', 'E', '.', 'T', 'X', 'T']) it →
        it.entry = ofBytes noteRecord := by decide +kernel
  have hcluster : (ofBytes musicRecord).cluster = 3 := by decide +kernel
  have hlast₂ : ¬ nextCluster music.setup 2 < 0x0FFFFFF8 := by decide +kernel
  have hlast₃ : ¬ nextCluster music.setup 3 < 0x0FFFFFF8 := by decide +kernel
  intro it hit hname
  have hentry := hroot it (hit.mem hlast₂) hname
  rw [hentry, hcluster]
  refine ⟨fun it' hit' hname' => hroot it' (hit'.mem hlast₂) hname', fun it hit hname => ?_⟩
  rw [hsub it (hit.mem hlast₃) hname]
  exact ⟨fun it' hit' hname' => hsub it' (hit'.mem hlast₃) hname', trivial⟩

theorem find_complete_music :
    ∃ fuel fn, findFatEntry music.setup notePath fuel 512 (fun _ => 0) (fun _ => 0) (fun _ => 0) =
      some (.found (ofBytes noteRecord) fn) := by
  obtain ⟨fn, hfn⟩ := rounds_music
  have hclean : ∀ s ∈ states (step music.setup notePath) 2 musicStart,
      CompleteRound music notePath s := by decide +kernel
  exact find_complete music notePath (ofBytes noteRecord) 512 (fun _ => 0) (fun _ => 0) (fun _ => 0)
    rfl resolves_music unambiguous_music fun s hs => hclean s (mem_states hfn hs)

def readme : List UInt8 := ascii ['R', 'E', 'A', 'D', 'M', 'E']

def readmeRecord : List UInt8 := shortRecord (readme ++ List.replicate 5 0x20) 0x20 3

def readmeVolume : OnDisk := smallVolume readmeRecord []

/-- A file without an extension is not found: it is shown with a dot and three spaces. -/
theorem not_find_complete :
    Geometry readmeVolume.BPB readmeVolume.loc 2 ∧
    Resolves readmeVolume 2 [readme] (ofBytes readmeRecord) ∧
    Unambiguous readmeVolume 2 [readme] ∧
    ∀ fuel e fn, findFatEntry readmeVolume.setup [readme] fuel 512 (fun _ => 0) (fun _ => 0)
      (fun _ => 0) ≠ some (.found e fn) := by
  have hfile : ∃ it ∈ clusterItems readmeVolume 2, Named readme it ∧
      it.entry.attr &&& 0x10 = 0 ∧ it.entry = ofBytes readmeRecord := by decide +kernel
  have honly : ∀ it ∈ clusterItems readmeVolume 2, Named readme it →
      it.entry = ofBytes readmeRecord := by decide +kernel
  have hlast : ¬ nextCluster readmeVolume.setup 2 < 0x0FFFFFF8 := by decide +kernel
  obtain ⟨it, hit, hname, hregular, hentry⟩ := hfile
  refine ⟨geometry_smallVolume _ _, hentry ▸ .file (.of_mem hit) hname hregular,
    fun it hit hname => ?_, fun fuel e fn h => ?_⟩
  · rw [honly it (hit.mem hlast) hname]
    exact ⟨fun it' hit' hname' => honly it' (hit'.mem hlast) hname', trivial⟩
  · have h₂ : (findFatEntry readmeVolume.setup [readme] 2 512 (fun _ => 0) (fun _ => 0)
        (fun _ => 0)).bind Outcome.returned = some (2, none) := by decide +kernel
    obtain ⟨o, ho, hreturned⟩ := Option.bind_eq_some_iff.mp h₂
    rw [rounds_unique ho h] at hreturned
    cases hreturned

end complete

end FlameOS.FatFind
