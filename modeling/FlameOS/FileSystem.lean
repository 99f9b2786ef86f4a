import FlameOS.Heap
import FlameOS.FatFind

/-!
The files of `FS.c`, with the part of `FAT.c` that is between them and the kernel heap:
`fopen`, `fclose`, `fread`, `fseek` and `rewind`.

Every buffer is a piece of memory of its own here. What a store past the end of one would do
to another one is not followed, but for the sectors of the FAT that `find_fat_entry` reads past
the end of `FAT_buffer`; which stores there are is.
-/

namespace FlameOS.FileSystem

open FlameOS.Word FlameOS.PageTable FlameOS.Fat FlameOS.FatName FlameOS.FatFind

def MAX_OPEN_FILES : ℕ := 0x100

def sizeofFILE : ℕ := 40
def sizeofPtr : ℕ := 8

/-- What `fpath` leads to: the array of pointers, and the buffers behind them, as memory to which
no other call stores. `PathMemory` has both in the blocks of the heap. -/
structure Path where
  addr : ℕ
  slots : List ℕ
  names : ℕ → Buffer

structure FILE where
  path : Path
  volume : UInt8
  pointer : UInt64
  size : UInt64
  used : Bool

inductive FS
  | none
  | fat32
  deriving DecidableEq

/-- `partinfo`: what is on a partition, and where. -/
structure Partinfo where
  fs : FS
  volume : Volume

/-- What the calls do not change: the address of the table `files`, and the partition that
`volumes` gives for an index, also for one that is not in the table. -/
structure System where
  machine : Machine
  files : ℕ
  parts : ℤ → Partinfo

/-- The heap and the files. Those from `MAX_OPEN_FILES` on are what the memory behind the table
is when it is taken for more of them. -/
structure State where
  heap : Heap.State
  file : ℕ → FILE

/-- What a call finds in memory that it has allocated or has on its stack. -/
structure Junk where
  slots : ℕ → ℕ
  names : ℕ → Buffer
  findFATbuffer : Buffer
  findBuffer : Buffer
  readFATbuffer : Buffer
  readBuffer : Buffer
  entry : FATEntry
  filename : Buffer

/-- What a call returns and leaves, and what its calls of `malloc` returned. -/
structure Reply (α : Type) where
  value : α
  state : State
  ptrs : List ℕ

/-! ### The heap -/

def mallocs (M : Machine) : List ℕ → Heap.State → List ℕ × Heap.State
  | [], h => ([], h)
  | size :: sizes, h =>
    ((Heap.malloc M size h).ptr :: (mallocs M sizes (Heap.malloc M size h).state).1,
      (mallocs M sizes (Heap.malloc M size h).state).2)

def frees (M : Machine) : List ℕ → Heap.State → Heap.State
  | [], h => h
  | ptr :: ptrs, h => frees M ptrs (Heap.free M ptr h)

/-! ### Paths -/

def dirs (path : List UInt8) : UInt32 := (path.count 0x2F).toUInt32

/-- The checks of `fopen`: the volume, and what is left of the path. `char` is signed. -/
def checkVolume : List UInt8 → Option (UInt8 × List UInt8)
  | c₀ :: c₁ :: c₂ :: path =>
    if c₀ ≠ 0x7C then none
    else if (c₁ - 0x41).toInt8 ≥ 26 then none
    else if c₂ ≠ 0x2F then none
    else some (c₁ - 0x41, path)
  | _ => none

/-- A store `fpath[index] = ptr` or `fpath[j][i] = c`. -/
inductive Store
  | slot (index : UInt32) (ptr : ℕ)
  | char (j i : UInt32) (c : UInt8)
  deriving DecidableEq

def Path.store (p : Path) : Store → Path
  | .slot index ptr => { p with slots := p.slots.set index.toNat ptr }
  | .char j i c =>
    { p with names :=
        Function.update p.names j.toNat (Function.update (p.names j.toNat) i.toNat c) }

/-- The loop that stores the buffers in `fpath`, from `i` on, and the store behind it. -/
def fillArray : UInt32 → List ℕ → List Store
  | i, [] => [.slot (i + 1) 0]
  | i, ptr :: ptrs => .slot i ptr :: fillArray (i + 1) ptrs

def splitPath : List UInt8 → UInt32 → UInt32 → List Store
  | [], j, _ => [.slot (j + 1) 0]
  | c :: path, j, i =>
    if c = 0x2F then .char j i 0 :: splitPath path (j + 1) 0
    else .char j i c :: splitPath path j (i + 1)

/-- The components up to the null pointer, as strings. -/
def Path.strings (p : Path) : List (List UInt8) :=
  (List.range (p.slots.takeWhile (· ≠ 0)).length).map fun k => cstr (p.names k)

/-! ### `find_fat_entry`, `fat_filesize` and `fat_read` -/

def entrySize (e : FATEntry) : UInt32 := le32 (e.byte 28) (e.byte 29) (e.byte 30) (e.byte 31)

/-- The output `entry` when nothing is found: it has the last directory on the way. -/
def lastDirectory (v : Volume) (path : List (List UInt8)) : ℕ → Search → FATEntry → FATEntry
  | 0, _, entry => entry
  | fuel + 1, s, entry =>
    match step v path s with
    | .error _ => entry
    | .ok s' =>
      lastDirectory v path fuel s' <|
        match scan path[s.depth]? (records s.buffer ((bytesPerCluster v).toNat / 32)) false
            s.filename s.len with
        | .found e _ _ => e
        | _ => entry

section calls

variable (S : System) (fuel : ℕ)

/-- How far `buffer` lies behind `FAT_buffer`, if these are the blocks of the two. -/
def bufferGap (ptrs : List ℕ) : ℕ := sub64 (ptrs.getD 1 0) (ptrs.headD 0)

/-- `find_fat_entry` for a file: the output `entry`. Its two buffers are not freed. -/
def findEntry (f : FILE) (junk : Junk) (h : Heap.State) :
    Option (FATEntry × List ℕ × Heap.State) :=
  let v := (S.parts f.volume.toInt8.toInt).volume
  let r := mallocs S.machine [SECTOR_SIZE, (bytesPerCluster v).toNat] h
  match findFatEntry v f.path.strings fuel (bufferGap r.1) junk.findFATbuffer junk.findBuffer
    junk.filename with
  | some (.found entry _) => some (entry, r)
  | some .notFound =>
    some (lastDirectory v f.path.strings fuel
      (start v (bufferGap r.1) junk.findFATbuffer junk.findBuffer junk.filename) junk.entry, r)
  | _ => none

/-- The return in the middle of `fat_read`: the bytes end in the cluster they begin in. -/
def endsInside (v : Volume) (pointer bytes : ℕ) : Bool :=
  decide (pointer % (bytesPerCluster v).toNat ≠ 0 ∧
    ¬ bytes > (bytesPerCluster v).toNat - pointer % (bytesPerCluster v).toNat)

/-- `fat_read`: the value returned, the bytes stored, and the heap. `buffer` is not freed, and
`FAT_buffer` at the end only. -/
def fatRead (f : FILE) (bytes : UInt64) (junk : Junk) (h : Heap.State) :
    Option ((ℕ × List UInt8) × List ℕ × Heap.State) :=
  let v := (S.parts f.volume.toNat).volume
  let r := mallocs S.machine [SECTOR_SIZE, (bytesPerCluster v).toNat] h
  (findEntry S fuel f junk r.2).bind fun (entry, ptrs, h) =>
    (FatRead.fatRead v entry f.pointer.toNat bytes.toNat junk.readFATbuffer junk.readBuffer).map
      fun out =>
        (out, r.1 ++ ptrs,
          if endsInside v f.pointer.toNat bytes.toNat then h
          else Heap.free S.machine (r.1.headD 0) h)

/-! ### `fopen` -/

def fileAddr (k : ℕ) : ℕ := S.files + k * sizeofFILE
def fileIndex (fp : ℕ) : ℕ := (fp - S.files) / sizeofFILE

/-- The search for a file that is not in use. -/
def findUnused (file : ℕ → FILE) : ℕ → ℕ → Option ℕ
  | 0, _ => none
  | fuel + 1, k => if (file k).used then findUnused file fuel (k + 1) else some k

/-- The blocks that `fopen` asks for: the array, and a buffer for each component. -/
def pathSizes (path : List UInt8) : List ℕ :=
  ((dirs path + 1).toNat * sizeofPtr) :: List.replicate (dirs path).toNat FILENAME_LENGTH

def fpath (path rest : List UInt8) (ptrs : List ℕ) (junk : Junk) : Path :=
  (fillArray 0 ptrs.tail ++ splitPath rest 0 0).foldl Path.store
    ⟨ptrs.headD 0, (List.range ((dirs path).toNat + 1)).map junk.slots, junk.names⟩

/-- The file at the switch of `fopen`, if it was `old` before. -/
def openedFile (old : FILE) (path rest : List UInt8) (volume : UInt8) (ptrs : List ℕ)
    (junk : Junk) : FILE :=
  { old with
    used := true
    path := fpath path rest ptrs junk
    pointer := 0
    volume := volume }

/-- `fopen`: the address of the file, or 0. -/
def fopen (path : List UInt8) (junk : Junk) (s : State) : Option (Reply ℕ) :=
  if dirs path = 0 then some ⟨0, s, []⟩
  else
    let r := mallocs S.machine (pathSizes path) s.heap
    match checkVolume path with
    | none => some ⟨0, { s with heap := Heap.free S.machine (r.1.headD 0) r.2 }, r.1⟩
    | some (volume, rest) =>
      (findUnused s.file fuel 0).bind fun k =>
        let f := openedFile (s.file k) path rest volume r.1 junk
        match (S.parts volume.toInt8.toInt).fs with
        | .fat32 =>
          (findEntry S fuel f junk r.2).map fun (entry, ptrs, h) =>
            ⟨fileAddr S k,
              ⟨h, Function.update s.file k { f with size := (entrySize entry).toUInt64 }⟩,
              r.1 ++ ptrs⟩
        | .none => some ⟨0, ⟨r.2, Function.update s.file k f⟩, r.1⟩

/-! ### Open files -/

def aligncheck (fp : ℕ) : ℕ :=
  if fp < S.files ∨ fp ≥ S.files + MAX_OPEN_FILES * sizeofFILE then 1
  else if fp % sizeofFILE ≠ S.files % sizeofFILE then 2
  else 0

def fclose (fp : ℕ) (s : State) : ℕ × State :=
  if aligncheck S fp ≠ 0 then (1, s)
  else
    let k := fileIndex S fp
    let p := (s.file k).path
    (0, ⟨frees S.machine (p.slots.takeWhile (· ≠ 0) ++ [p.addr]) s.heap,
      Function.update s.file k { s.file k with used := false }⟩)

/-- Whether `fread` gets to `fat_read`. -/
def getsToFatRead (f : FILE) (bytes : UInt64) : Bool :=
  if bytes = 0 then false
  else if bytes > f.size - f.pointer then false
  else
    match (S.parts f.volume.toNat).fs with
    | .fat32 => true
    | .none => false

/-- `fread`: the value returned, and the bytes stored. -/
def fread (fp : ℕ) (bytes : UInt64) (junk : Junk) (s : State) :
    Option (Reply (ℕ × List UInt8)) :=
  let f := s.file (fileIndex S fp)
  if getsToFatRead S f bytes then
    (fatRead S fuel f bytes junk s.heap).map fun (out, ptrs, h) => ⟨out, { s with heap := h }, ptrs⟩
  else some ⟨(0, []), s, []⟩

inductive Fpos
  | set
  | cur
  | fin
  deriving DecidableEq

def seek (f : FILE) (offset : Int64) : Fpos → ℤ × FILE
  | .set =>
    if offset.toUInt64 ≥ f.size then (-2, f)
    else if offset < 0 then (-2, f)
    else (0, { f with pointer := offset.toUInt64 })
  | .cur =>
    if offset.toUInt64 + f.pointer ≥ f.size then (-2, f)
    else if offset.toUInt64 + f.pointer < 0 then (-2, f)
    else (0, { f with pointer := f.pointer + offset.toUInt64 })
  | .fin =>
    if offset ≥ 0 then (-2, f)
    else if (-offset).toUInt64 > f.size then (-2, f)
    -- there is no `break` before the default
    else (-1, { f with pointer := f.size + offset.toUInt64 })

def fseek (fp : ℕ) (offset : Int64) (position : Fpos) (s : State) : ℤ × State :=
  let k := fileIndex S fp
  ((seek (s.file k) offset position).1,
    { s with file := Function.update s.file k (seek (s.file k) offset position).2 })

def rewind (fp : ℕ) (s : State) : State :=
  if aligncheck S fp ≠ 0 then s
  else
    let k := fileIndex S fp
    { s with file := Function.update s.file k { s.file k with pointer := 0 } }

end calls

end FlameOS.FileSystem
