import FlameOS.Tga
import Mathlib

/-!
What `tga_plot` reads and where it draws. The block is as long as the file. The fields of the
header say how many pixels are read from it and which ones are drawn, and nothing compares them
with the length of the file or the size of the screen.
-/

namespace FlameOS.TgaAccess

open FlameOS.Plot FlameOS.Tga FlameOS.Fat FlameOS.FileSystem

/-- A read of `len` bytes, or a pixel that is drawn. -/
inductive Access where
  | read (addr len : ℕ)
  | plot (x y : UInt32)
  deriving DecidableEq

/-- What `malloc` returned for a request of `size` bytes. -/
structure Block where
  ptr : ℕ
  size : ℕ

/-- A read inside of the block, if there is one, or a pixel on the screen. -/
def Access.Inside (s : Screen) (b : Block) : Access → Prop
  | .read addr len => b.ptr ≠ 0 ∧ b.ptr ≤ addr ∧ addr + len ≤ b.ptr + b.size
  | .plot x y => x < s.fbW ∧ y < s.fbH

section traced

variable (s : Screen) (ptr : ℕ) (header : Buffer)

def tracedRow (i : UInt32) :
    ℕ → UInt32 → ℕ → (ℕ → UInt32) → (ℕ → UInt32) × List Access
  | 0, _, _, px => (px, [])
  | n + 1, j, k, px =>
    let r := tracedRow i n (j + 1) (k + 1) (plotpixel s j i (image header k) px)
    (r.1, .read (ptr + sizeofTgaInfo + 4 * k) 4 :: .plot j i :: r.2)

def tracedRows (w : UInt16) :
    ℕ → UInt32 → ℕ → (ℕ → UInt32) → (ℕ → UInt32) × List Access
  | 0, _, _, px => (px, [])
  | n + 1, i, k, px =>
    let row := tracedRow s ptr header i w.toNat 0 k px
    let r := tracedRows w n (i + 1) (k + w.toNat) row.1
    (r.1, row.2 ++ r.2)

def tracedTga (px : ℕ → UInt32) : (ℕ → UInt32) × List Access :=
  let r := tracedRows s ptr header (tgaInfo header).w (tgaInfo header).h.toNat 0 0 px
  (r.1, .read (ptr + 14) 2 :: .read (ptr + 12) 2 :: r.2)

def tracedPlot (data : List UInt8) (buffer : Buffer) (_x _y : UInt32) (px : ℕ → UInt32) :
    (ℕ → UInt32) × List Access :=
  tracedTga s ptr (loaded data buffer) px

def tracedFile (S : System) (fuel fp : ℕ) (x y : UInt32) (junk : Junk) (buffer : Buffer)
    (st : State) (px : ℕ → UInt32) : Option ((State × (ℕ → UInt32)) × List Access) :=
  let r := Heap.malloc S.machine (fsize S fp st).toNat st.heap
  (fread S fuel fp (fsize S fp st) junk { st with heap := r.state }).map fun reply =>
    let t := tracedPlot s r.ptr reply.value.2 buffer x y px
    (({ reply.state with heap := Heap.free S.machine r.ptr reply.state.heap }, t.1), t.2)

end traced

/-! ### The same picture -/

variable {s : Screen} {ptr : ℕ} {header : Buffer}

lemma tracedRow_fst (i j : UInt32) (n k : ℕ) (px : ℕ → UInt32) :
    (tracedRow s ptr header i n j k px).1 = tgaRow s header i n j k px := by
  induction n generalizing j k px with
  | zero => rfl
  | succ n ih => exact ih (j + 1) (k + 1) _

lemma tracedRows_fst (w : UInt16) (n k : ℕ) (i : UInt32) (px : ℕ → UInt32) :
    (tracedRows s ptr header w n i k px).1 = tgaRows s header w n i k px := by
  induction n generalizing i k px with
  | zero => rfl
  | succ n ih =>
    rw [tgaRows, ← @tracedRow_fst s ptr header i 0 w.toNat k px]
    exact ih _ (i + 1) _

lemma tracedPlot_fst (data : List UInt8) (buffer : Buffer) (x y : UInt32) (px : ℕ → UInt32) :
    (tracedPlot s ptr data buffer x y px).1 = tgaPlot s data buffer x y px :=
  tracedRows_fst _ _ _ _ _

lemma tracedFile_fst (S : System) (fuel fp : ℕ) (x y : UInt32) (junk : Junk) (buffer : Buffer)
    (st : State) (px : ℕ → UInt32) :
    (tracedFile s S fuel fp x y junk buffer st px).map Prod.fst =
      tgaPlotFile S fuel s fp x y junk buffer st px := by
  rw [tracedFile, tgaPlotFile, Option.map_map]
  refine congrArg (Option.map · _) (funext fun reply => ?_)
  exact Prod.ext rfl (tracedPlot_fst _ _ x y px)

/-! ### The accesses -/

/-- A row goes from pixel to pixel, in the file and on the screen. -/
lemma tracedRow_snd (i j : UInt32) (n k : ℕ) (px : ℕ → UInt32) :
    (tracedRow s ptr header i n j k px).2 = (List.range n).flatMap fun q =>
      [.read (ptr + sizeofTgaInfo + 4 * (k + q)) 4, .plot (j + q.toUInt32) i] := by
  induction n generalizing j k px with
  | zero => rfl
  | succ n ih =>
    rw [List.range_succ_eq_map, List.flatMap_cons, List.flatMap_map]
    have h0 : j + (0 : ℕ).toUInt32 = j := UInt32.add_zero j
    simp only [tracedRow, ih, h0, toUInt32_succ, Nat.succ_eq_add_one, Nat.add_zero, Nat.add_assoc,
      Nat.add_comm 1, List.cons_append, List.nil_append]

lemma tracedRows_snd (w : UInt16) (n k : ℕ) (i : UInt32) (px : ℕ → UInt32) :
    (tracedRows s ptr header w n i k px).2 = (List.range n).flatMap fun r =>
      (List.range w.toNat).flatMap fun q =>
        [.read (ptr + sizeofTgaInfo + 4 * (k + (r * w.toNat + q))) 4,
          .plot (0 + q.toUInt32) (i + r.toUInt32)] := by
  induction n generalizing i k px with
  | zero => rfl
  | succ n ih =>
    rw [List.range_succ_eq_map, List.flatMap_cons, List.flatMap_map]
    have h0 : i + (0 : ℕ).toUInt32 = i := UInt32.add_zero i
    simp only [tracedRows, ih, tracedRow_snd, h0, toUInt32_succ, Nat.succ_eq_add_one, Nat.zero_mul,
      Nat.zero_add, Nat.succ_mul, Nat.add_assoc, Nat.add_left_comm, Nat.add_comm]

/-- The fields of the header, and then for each pixel its read and its place. -/
lemma forall_tracedTga (P : Access → Prop) (px : ℕ → UInt32) :
    (∀ a ∈ (tracedTga s ptr header px).2, P a) ↔
      P (.read (ptr + 14) 2) ∧ P (.read (ptr + 12) 2) ∧
        ∀ i < (tgaInfo header).h.toNat, ∀ j < (tgaInfo header).w.toNat,
          P (.read (ptr + sizeofTgaInfo + 4 * (i * (tgaInfo header).w.toNat + j)) 4) ∧
            P (.plot j.toUInt32 i.toUInt32) := by
  have h0 (q : ℕ) : 0 + q.toUInt32 = q.toUInt32 := UInt32.zero_add _
  simp only [tracedTga, tracedRows_snd, List.forall_mem_cons, List.forall_mem_flatMap,
    List.not_mem_nil, false_implies, implies_true, List.mem_range, and_true, h0, Nat.zero_add]

/-! ### The last pixel -/

/-- The pixels of the picture `info` are in a file of `n` bytes and on the screen. -/
def PictureFits (s : Screen) (n : ℕ) (info : TgaInfo) : Prop :=
  info.w = 0 ∨ info.h = 0 ∨
    sizeofTgaInfo + 4 * (info.w.toNat * info.h.toNat) ≤ n ∧
      info.w.toNat ≤ s.fbW.toNat ∧ info.h.toNat ≤ s.fbH.toNat

lemma forall_pixel_fits {w h : ℕ} (hw : 0 < w) (hh : 0 < h) (c n W H : ℕ) :
    (∀ i < h, ∀ j < w, c + 4 * (i * w + j) + 4 ≤ n ∧ j < W ∧ i < H) ↔
      c + 4 * (w * h) ≤ n ∧ w ≤ W ∧ h ≤ H := by
  constructor
  · intro hall
    obtain ⟨hn, hW, hH⟩ := hall (h - 1) (by omega) (w - 1) (by omega)
    have hlast : (h - 1) * w + w = w * h := by
      calc (h - 1) * w + w = (h - 1 + 1) * w := (Nat.succ_mul _ _).symm
        _ = w * h := by rw [Nat.sub_add_cancel hh, Nat.mul_comm]
    omega
  · rintro ⟨hn, hW, hH⟩ i hi j hj
    have hrow : i * w + w ≤ w * h := by
      calc i * w + w = (i + 1) * w := (Nat.succ_mul _ _).symm
        _ ≤ w * h := by rw [Nat.mul_comm w]; exact Nat.mul_le_mul_right w hi
    omega

/-- A pixel inside of the picture, with a coordinate that `unsigned int` holds. -/
lemma toUInt32_lt_iff {j : ℕ} {w : UInt16} (hj : j < w.toNat) (W : UInt32) :
    j.toUInt32 < W ↔ j < W.toNat := by
  have hw := w.toNat_lt
  rw [UInt32.lt_iff_toNat_lt, UInt32.toNat_ofNat', Nat.mod_eq_of_lt (by omega)]

lemma pictureFits_iff (n : ℕ) (info : TgaInfo) :
    (∀ i < info.h.toNat, ∀ j < info.w.toNat,
        sizeofTgaInfo + 4 * (i * info.w.toNat + j) + 4 ≤ n ∧
          j.toUInt32 < s.fbW ∧ i.toUInt32 < s.fbH) ↔ PictureFits s n info := by
  by_cases hw : info.w = 0
  · exact iff_of_true (by simp [hw]) (Or.inl hw)
  by_cases hh : info.h = 0
  · exact iff_of_true (by simp [hh]) (Or.inr (Or.inl hh))
  have hw0 : 0 < info.w.toNat := Nat.pos_of_ne_zero fun h => hw (UInt16.toNat_inj.mp h)
  have hh0 : 0 < info.h.toNat := Nat.pos_of_ne_zero fun h => hh (UInt16.toNat_inj.mp h)
  rw [PictureFits, or_iff_right hw, or_iff_right hh, ← forall_pixel_fits hw0 hh0]
  refine forall₂_congr fun i hi => forall₂_congr fun j hj => ?_
  rw [toUInt32_lt_iff hi, toUInt32_lt_iff hj]

@[simp] lemma inside_read (b : Block) (off len : ℕ) :
    (Access.read (b.ptr + off) len).Inside s b ↔ b.ptr ≠ 0 ∧ off + len ≤ b.size := by
  rw [Access.Inside]
  omega

@[simp] lemma inside_plot (b : Block) (x y : UInt32) :
    (Access.plot x y).Inside s b ↔ x < s.fbW ∧ y < s.fbH := Iff.rfl

/-- The accesses are inside exactly if there is a block, it has the fields of the header, and the
picture that they describe fits. -/
lemma inside_iff (b : Block) (px : ℕ → UInt32) :
    (∀ a ∈ (tracedTga s b.ptr header px).2, a.Inside s b) ↔
      b.ptr ≠ 0 ∧ 16 ≤ b.size ∧ PictureFits s b.size (tgaInfo header) := by
  rw [forall_tracedTga, ← pictureFits_iff]
  simp only [Nat.add_assoc b.ptr, inside_read, inside_plot, and_assoc]
  constructor
  · rintro ⟨hptr, hn, -, -, hall⟩
    exact ⟨hptr, hn, fun i hi j hj => (hall i hi j hj).2⟩
  · rintro ⟨hptr, hn, hall⟩
    exact ⟨hptr, hn, hptr, by omega, fun i hi j hj => ⟨hptr, hall i hi j hj⟩⟩

/-! ### `tga_plot` -/

variable {S : System} {fuel fp : ℕ} {x y : UInt32} {junk : Junk} {buffer : Buffer} {st : State}
  {px : ℕ → UInt32} {W H : UInt16} {img : ℕ → UInt32} {file : List UInt8}

/-- An image that is whole has to fit on the screen with its sides exchanged. -/
theorem isTga_inside_iff (hfile : IsTga W H img file) (hptr : ptr ≠ 0) :
    (∀ a ∈ (tracedPlot s ptr file buffer x y px).2, a.Inside s ⟨ptr, file.length⟩) ↔
      W = 0 ∨ H = 0 ∨ H.toNat ≤ s.fbW.toNat ∧ W.toNat ≤ s.fbH.toNat := by
  have hfile' := hfile.length
  have hlength : sizeofTgaInfo + 4 * (H.toNat * W.toNat) ≤ file.length := by
    rw [Nat.mul_comm H.toNat]
    exact hfile'
  rw [tracedPlot, inside_iff ⟨ptr, file.length⟩, tgaInfo_loaded hfile, and_iff_right hptr,
    and_iff_right (by dsimp only; omega), PictureFits, and_iff_right hlength]
  exact or_left_comm

/-- The accesses of a run of `tga_plot`, for the bytes that `fread` stores in it. -/
theorem tracedFile_inside_iff {r : (State × (ℕ → UInt32)) × List Access}
    (hrun : tracedFile s S fuel fp x y junk buffer st px = some r) :
    ∃ reply, fread S fuel fp (fsize S fp st) junk
        { st with heap := (Heap.malloc S.machine (fsize S fp st).toNat st.heap).state } =
          some reply ∧
      let ptr := (Heap.malloc S.machine (fsize S fp st).toNat st.heap).ptr
      let n := (fsize S fp st).toNat
      ((∀ a ∈ r.2, a.Inside s ⟨ptr, n⟩) ↔
        ptr ≠ 0 ∧ 16 ≤ n ∧ PictureFits s n (tgaInfo (loaded reply.value.2 buffer))) := by
  obtain ⟨reply, hread, rfl⟩ := Option.map_eq_some_iff.mp hrun
  exact ⟨reply, hread, inside_iff ⟨_, _⟩ px⟩

/-- **Where `tga_plot` reads and draws.** It stays in the block of `n` bytes that it allocated and
on the screen exactly if there is a block, the block has the fields of the header, and the picture
of the header is empty or ends in the block and is on the screen. -/
theorem tgaPlot_inside_iff (s : Screen) (ptr n : ℕ) (data : List UInt8) (buffer : Buffer)
    (x y : UInt32) (px : ℕ → UInt32) :
    (∀ a ∈ (tracedPlot s ptr data buffer x y px).2, a.Inside s ⟨ptr, n⟩) ↔
      ptr ≠ 0 ∧ 16 ≤ n ∧
        ((tgaInfo (loaded data buffer)).w = 0 ∨ (tgaInfo (loaded data buffer)).h = 0 ∨
          18 + 4 * ((tgaInfo (loaded data buffer)).w.toNat *
              (tgaInfo (loaded data buffer)).h.toNat) ≤ n ∧
            (tgaInfo (loaded data buffer)).w.toNat ≤ s.fbW.toNat ∧
              (tgaInfo (loaded data buffer)).h.toNat ≤ s.fbH.toNat) :=
  inside_iff ⟨ptr, n⟩ px

/-- A file that ends with its header and says that it has a pixel; and an image of two pixels in a
row, on a screen of two pixels in a row, of which the second is drawn below the screen. -/
theorem not_tgaPlot_inside :
    Access.read 4114 4 ∈ (tracedPlot ⟨4, 4, 4⟩ 4096
        [0, 0, 2, 0, 0, 0, 0, 0, 0, 0, 0, 0, 1, 0, 1, 0, 32, 0] (fun _ => 0) 0 0 fun _ => 0).2 ∧
      Access.plot 0 1 ∈ (tracedPlot ⟨2, 1, 2⟩ 4096 (tgaFile 2 1 fun k => k.toUInt32)
        (fun _ => 0) 0 0 fun _ => 0).2 ∧
      ¬ ∀ (s : Screen) (ptr : ℕ) (file : List UInt8) (buffer : Buffer) (x y : UInt32)
          (px : ℕ → UInt32), ptr ≠ 0 →
        ∀ a ∈ (tracedPlot s ptr file buffer x y px).2, a.Inside s ⟨ptr, file.length⟩ := by
  have hread : Access.read 4114 4 ∈ (tracedPlot ⟨4, 4, 4⟩ 4096
      [0, 0, 2, 0, 0, 0, 0, 0, 0, 0, 0, 0, 1, 0, 1, 0, 32, 0] (fun _ => 0) 0 0 fun _ => 0).2 := by
    decide
  refine ⟨hread, by decide, fun hall => ?_⟩
  have hin := hall _ _ _ _ _ _ _ (by decide) _ hread
  exact absurd hin.2.2 (by decide)

end FlameOS.TgaAccess
