import FlameOS.Plot
import FlameOS.FileSystem
import Mathlib

/-!
`tga_plot` of `tga.c`. The whole file is read into a block of its own length, with the header
`tga_info_t` at the front and the pixels behind it.

The format has the width at byte 12 and the height at byte 14. `tga_info_t` has them the other
way round, and the position asked for is not used.
-/

namespace FlameOS.Tga

open FlameOS.Writes FlameOS.Plot FlameOS.Fat FlameOS.FileSystem

structure TgaInfo where
  h : UInt16
  w : UInt16

def sizeofTgaInfo : ℕ := 18

def tgaInfo (header : Buffer) : TgaInfo :=
  ⟨le16 (header 12) (header 13), le16 (header 14) (header 15)⟩

def image (header : Buffer) (k : ℕ) : UInt32 :=
  le32 (header (sizeofTgaInfo + 4 * k)) (header (sizeofTgaInfo + 4 * k + 1))
    (header (sizeofTgaInfo + 4 * k + 2)) (header (sizeofTgaInfo + 4 * k + 3))

section plot

variable (s : Screen) (header : Buffer)

def tgaRow (i : UInt32) : ℕ → UInt32 → ℕ → (ℕ → UInt32) → ℕ → UInt32
  | 0, _, _, px => px
  | n + 1, j, k, px => tgaRow i n (j + 1) (k + 1) (plotpixel s j i (image header k) px)

def tgaRows (w : UInt16) : ℕ → UInt32 → ℕ → (ℕ → UInt32) → ℕ → UInt32
  | 0, _, _, px => px
  | n + 1, i, k, px => tgaRows w n (i + 1) (k + w.toNat) (tgaRow s header i w.toNat 0 k px)

def drawTga (px : ℕ → UInt32) : ℕ → UInt32 :=
  tgaRows s header (tgaInfo header).w (tgaInfo header).h.toNat 0 0 px

end plot

/-- The block behind `header` when `fread` has stored `data` in it. -/
def loaded (data : List UInt8) (buffer : Buffer) : Buffer := fun o => data.getD o (buffer o)

/-- `tga_plot` on the framebuffer, for a file of which `fread` stores the bytes `data`. -/
def tgaPlot (s : Screen) (data : List UInt8) (buffer : Buffer) (_x _y : UInt32)
    (px : ℕ → UInt32) : ℕ → UInt32 :=
  drawTga s (loaded data buffer) px

section files

variable (S : System) (fuel : ℕ)

def fsize (fp : ℕ) (st : State) : UInt64 :=
  if aligncheck S fp ≠ 0 then 0 else (st.file (fileIndex S fp)).size

def tgaPlotFile (s : Screen) (fp : ℕ) (x y : UInt32) (junk : Junk) (buffer : Buffer) (st : State)
    (px : ℕ → UInt32) : Option (State × (ℕ → UInt32)) :=
  let r := Heap.malloc S.machine (fsize S fp st).toNat st.heap
  (fread S fuel fp (fsize S fp st) junk { st with heap := r.state }).map fun reply =>
    ({ reply.state with heap := Heap.free S.machine r.ptr reply.state.heap },
      tgaPlot s reply.value.2 buffer x y px)

end files

/-! ### The format -/

/-- A file with an uncompressed image of 32 bits a pixel, row by row. -/
structure IsTga (W H : UInt16) (img : ℕ → UInt32) (file : List UInt8) : Prop where
  noId : file.getD 0 0 = 0
  noMap : file.getD 1 0 = 0
  trueColour : file.getD 2 0 = 2
  width : le16 (file.getD 12 0) (file.getD 13 0) = W
  height : le16 (file.getD 14 0) (file.getD 15 0) = H
  depth : file.getD 16 0 = 32
  length : 18 + 4 * (W.toNat * H.toNat) ≤ file.length
  pixels : ∀ k < W.toNat * H.toNat, image (fun o => file.getD o 0) k = img k

def tgaByte (W H : UInt16) (img : ℕ → UInt32) (o : ℕ) : UInt8 :=
  if o < 18 then
    [0, 0, 2, 0, 0, 0, 0, 0, 0, 0, 0, 0, W.toUInt8, (W >>> 8).toUInt8, H.toUInt8,
      (H >>> 8).toUInt8, 32, 0].getD o 0
  else
    [(img ((o - 18) / 4)).toUInt8, (img ((o - 18) / 4) >>> 8).toUInt8,
      (img ((o - 18) / 4) >>> 16).toUInt8, (img ((o - 18) / 4) >>> 24).toUInt8].getD
        ((o - 18) % 4) 0

def tgaFile (W H : UInt16) (img : ℕ → UInt32) : List UInt8 :=
  (List.range (18 + 4 * (W.toNat * H.toNat))).map (tgaByte W H img)

lemma le16_bytes (c : UInt16) : le16 c.toUInt8 (c >>> 8).toUInt8 = c := by
  have hbits : (le16 c.toUInt8 (c >>> 8).toUInt8).toBitVec =
      (c.toBitVec.setWidth 8).setWidth 16 |||
        ((c.toBitVec >>> 8).setWidth 8).setWidth 16 <<< 8 := rfl
  refine UInt16.eq_of_toBitVec_eq (BitVec.eq_of_getLsbD_eq fun i hi => ?_)
  rw [hbits]
  simp only [BitVec.getLsbD_or, BitVec.getLsbD_shiftLeft, BitVec.getLsbD_setWidth,
    BitVec.getLsbD_ushiftRight]
  grind

lemma le32_bytes (c : UInt32) :
    le32 c.toUInt8 (c >>> 8).toUInt8 (c >>> 16).toUInt8 (c >>> 24).toUInt8 = c := by
  have hbits : (le32 c.toUInt8 (c >>> 8).toUInt8 (c >>> 16).toUInt8 (c >>> 24).toUInt8).toBitVec =
      (c.toBitVec.setWidth 8).setWidth 32 |||
        ((c.toBitVec >>> 8).setWidth 8).setWidth 32 <<< 8 |||
        ((c.toBitVec >>> 16).setWidth 8).setWidth 32 <<< 16 |||
        ((c.toBitVec >>> 24).setWidth 8).setWidth 32 <<< 24 := rfl
  refine UInt32.eq_of_toBitVec_eq (BitVec.eq_of_getLsbD_eq fun i hi => ?_)
  rw [hbits]
  simp only [BitVec.getLsbD_or, BitVec.getLsbD_shiftLeft, BitVec.getLsbD_setWidth,
    BitVec.getLsbD_ushiftRight]
  grind

variable {s : Screen} {W H : UInt16} {img : ℕ → UInt32} {file : List UInt8}

lemma length_tgaFile : (tgaFile W H img).length = 18 + 4 * (W.toNat * H.toNat) := by
  rw [tgaFile, List.length_map, List.length_range]

lemma getD_tgaFile {o : ℕ} (ho : o < 18 + 4 * (W.toNat * H.toNat)) :
    (tgaFile W H img).getD o 0 = tgaByte W H img o := by
  rw [List.getD_eq_getElem _ _ (by rw [length_tgaFile]; exact ho)]
  simp only [tgaFile, List.getElem_map, List.getElem_range]

lemma tgaByte_pixel (k n : ℕ) (hn : n < 4) : tgaByte W H img (18 + 4 * k + n) =
    [(img k).toUInt8, (img k >>> 8).toUInt8, (img k >>> 16).toUInt8,
      (img k >>> 24).toUInt8].getD n 0 := by
  have hdiv : (18 + 4 * k + n - 18) / 4 = k := by omega
  have hmod : (18 + 4 * k + n - 18) % 4 = n := by omega
  rw [tgaByte, if_neg (by omega), hdiv, hmod]

lemma getD_pixel {k : ℕ} (hk : k < W.toNat * H.toNat) (n : ℕ) (hn : n < 4) :
    (tgaFile W H img).getD (sizeofTgaInfo + 4 * k + n) 0 =
      [(img k).toUInt8, (img k >>> 8).toUInt8, (img k >>> 16).toUInt8,
        (img k >>> 24).toUInt8].getD n 0 := by
  rw [sizeofTgaInfo, getD_tgaFile (by omega), tgaByte_pixel k n hn]

lemma isTga_tgaFile (W H : UInt16) (img : ℕ → UInt32) : IsTga W H img (tgaFile W H img) where
  noId := getD_tgaFile (by omega)
  noMap := getD_tgaFile (by omega)
  trueColour := getD_tgaFile (by omega)
  width := by
    rw [getD_tgaFile (by omega), getD_tgaFile (by omega)]
    exact le16_bytes W
  height := by
    rw [getD_tgaFile (by omega), getD_tgaFile (by omega)]
    exact le16_bytes H
  depth := getD_tgaFile (by omega)
  length := length_tgaFile.ge
  pixels k hk := by
    have h0 := @getD_pixel W H img k hk 0 (by decide)
    rw [Nat.add_zero] at h0
    rw [image, h0, getD_pixel hk 1 (by decide), getD_pixel hk 2 (by decide),
      getD_pixel hk 3 (by decide)]
    exact le32_bytes (img k)

/-! ### What is drawn -/

lemma loaded_of_lt {data : List UInt8} {o : ℕ} (h : o < data.length) (buffer : Buffer) :
    loaded data buffer o = data.getD o 0 := by
  rw [loaded, List.getD_eq_getElem _ _ h, List.getD_eq_getElem _ _ h]

lemma toUInt32_succ (a : UInt32) (n : ℕ) : a + (n + 1).toUInt32 = a + 1 + n.toUInt32 := by
  have h : (n + 1).toUInt32 = n.toUInt32 + 1 := UInt32.ofNat_add n 1
  rw [h, UInt32.add_comm n.toUInt32, UInt32.add_assoc]

lemma tgaRow_eq (header : Buffer) (i j : UInt32) (n k : ℕ) (px : ℕ → UInt32) :
    tgaRow s header i n j k px = (List.range n).foldl (fun px q =>
      Function.update px (loc s (j + q.toUInt32) i) (image header (k + q))) px := by
  induction n generalizing j k px with
  | zero => rfl
  | succ n ih =>
    rw [tgaRow, ih, List.range_succ_eq_map, List.foldl_cons, List.foldl_map]
    have h0 : j + (0 : ℕ).toUInt32 = j := UInt32.add_zero j
    simp only [h0, plotpixel, Nat.add_zero, Nat.succ_eq_add_one, toUInt32_succ, Nat.add_assoc,
      Nat.add_comm 1]

lemma tgaRows_eq (header : Buffer) (w : UInt16) (n k : ℕ) (i : UInt32) (px : ℕ → UInt32) :
    tgaRows s header w n i k px = (List.range n).foldl (fun px r => (List.range w.toNat).foldl
      (fun px q => Function.update px (loc s (0 + q.toUInt32) (i + r.toUInt32))
        (image header (k + r * w.toNat + q))) px) px := by
  induction n generalizing i k px with
  | zero => rfl
  | succ n ih =>
    rw [tgaRows, ih, tgaRow_eq, List.range_succ_eq_map, List.foldl_cons, List.foldl_map]
    have h0 : i + (0 : ℕ).toUInt32 = i := UInt32.add_zero i
    simp only [h0, Nat.zero_mul, Nat.add_zero, Nat.succ_eq_add_one, toUInt32_succ, Nat.succ_mul,
      Nat.add_assoc, Nat.add_left_comm, Nat.add_comm]

lemma drawTga_eq (header : Buffer) (px : ℕ → UInt32) :
    drawTga s header px = draw (fun k => loc s (0 + (k % (tgaInfo header).w.toNat).toUInt32)
      (0 + (k / (tgaInfo header).w.toNat).toUInt32)) (image header)
      (List.range ((tgaInfo header).h.toNat * (tgaInfo header).w.toNat)) px := by
  rw [drawTga, tgaRows_eq]
  simp only [Nat.zero_add]
  exact (draw_range_mul (fun i j => loc s (0 + j.toUInt32) (0 + i.toUInt32)) (image header)
    (tgaInfo header).h.toNat (tgaInfo header).w.toNat px).symm

lemma tgaInfo_loaded (hfile : IsTga W H img file) (buffer : Buffer) :
    tgaInfo (loaded file buffer) = ⟨W, H⟩ := by
  have hlen := hfile.length
  rw [tgaInfo, loaded_of_lt (by omega), loaded_of_lt (by omega), loaded_of_lt (by omega),
    loaded_of_lt (by omega), hfile.width, hfile.height]

lemma image_loaded (hfile : IsTga W H img file) (buffer : Buffer) {k : ℕ}
    (hk : k < W.toNat * H.toNat) : image (loaded file buffer) k = img k := by
  have hlen := hfile.length
  rw [← hfile.pixels k hk]
  simp only [image, sizeofTgaInfo]
  rw [loaded_of_lt (by omega), loaded_of_lt (by omega), loaded_of_lt (by omega),
    loaded_of_lt (by omega)]

/-- Pixel `k` of the file is drawn into a row of as many pixels as the image is high. -/
lemma tgaPlot_eq (hfile : IsTga W H img file) (buffer : Buffer) (x y : UInt32) (px : ℕ → UInt32) :
    tgaPlot s file buffer x y px =
      draw (fun k => k % H.toNat + k / H.toNat * s.fbPixperline.toNat % 2 ^ 32) img
        (List.range (W.toNat * H.toNat)) px := by
  rw [tgaPlot, drawTga_eq, tgaInfo_loaded hfile]
  refine draw_congr (fun k hk => ?_) fun k hk => image_loaded hfile buffer (List.mem_range.mp hk)
  have hlt : k < W.toNat * H.toNat := List.mem_range.mp hk
  have hpos : 0 < H.toNat := Nat.pos_of_lt_mul_left hlt
  have hj : k % H.toNat < 2 ^ 32 := (Nat.mod_lt k hpos).trans (H.toNat_lt.trans (by decide))
  have hi : k / H.toNat < 2 ^ 32 :=
    (Nat.div_lt_of_lt_mul (by rwa [Nat.mul_comm])).trans (W.toNat_lt.trans (by decide))
  have h0 : (0 : UInt32).toNat = 0 := rfl
  dsimp only
  rw [loc_add (by rwa [h0, Nat.zero_add]) (by rwa [h0, Nat.zero_add]), UInt32.zero_mul, h0,
    Nat.zero_add, Nat.zero_add]

/-! ### Where it should be -/

def place (P x y w k : ℕ) : ℕ := x + k % w + (y + k / w) * P

section places

variable {P x y w h n : ℕ}

lemma place_zero (P w k : ℕ) : place P 0 0 w k = 0 + k / w * P + k % w := by
  rw [place, Nat.zero_add (k / w)]
  omega

lemma le_of_apart (hn : 1 < n) (hp : Apart (place P 0 0 n) (List.range (n * n))) : n ≤ P := by
  by_contra hlt
  have hnn : n < n * n := Nat.lt_mul_self_iff.mpr hn
  have hmem : P ∈ List.range (n * n) := List.mem_range.mpr (by omega)
  have heq : place P 0 0 n P = place P 0 0 n n := by
    rw [place_zero, place_zero, Nat.div_eq_of_lt (by omega), Nat.mod_eq_of_lt (by omega),
      Nat.div_self (by omega), Nat.mod_self]
    omega
  have := hp hmem (List.mem_range.mpr hnn) heq
  omega

/-- A square: the rows have to be where they should, and must not meet. -/
lemma square_iff (hn : 0 < n) (hP : P < 2 ^ 32) :
    (∀ k ∈ List.range (n * n), k % n + k / n * P % 2 ^ 32 = place P 0 0 n k) ∧
        Apart (place P 0 0 n) (List.range (n * n)) ↔
      (n = 1 ∨ n ≤ P) ∧ (n - 1) * P < 2 ^ 32 := by
  have hrows : (∀ k ∈ List.range (n * n), k % n + k / n * P % 2 ^ 32 = place P 0 0 n k) ↔
      ∀ q < n, 0 + q * P = (0 + q * P) % 2 ^ 32 := by
    rw [← forall_row_iff hn]
    refine forall₂_congr fun k hk => ?_
    rw [place_zero]
    omega
  have happ : place P 0 0 n = fun k => 0 + k / n * P + k % n := funext (place_zero P n)
  rw [hrows]
  rcases Nat.lt_or_eq_of_le hn with hn' | rfl
  · rw [rows_eq_iff le_rfl hP hn']
    constructor
    · rintro ⟨⟨-, hlt⟩, hp⟩
      exact ⟨Or.inr (le_of_apart hn' hp), by rwa [Nat.zero_add] at hlt⟩
    · rintro ⟨h1 | hle, hlt⟩
      · omega
      · exact ⟨⟨rfl, by rwa [Nat.zero_add]⟩, happ ▸ apart_rows hle 0 n⟩
  · refine iff_of_true ⟨fun q hq => ?_, fun k hk l hl _ => ?_⟩ ⟨Or.inl rfl, by simp⟩
    · obtain rfl : q = 0 := by omega
      simp
    · have hk' := List.mem_range.mp hk
      have hl' := List.mem_range.mp hl
      omega

/-- An image higher than it is wide: its second row is drawn in the first one. -/
lemma one_of_higher (hw : 0 < w) (hlt : w < h) (hP : P < 2 ^ 32)
    (hplaces : ∀ k < w * h, k % h + k / h * P % 2 ^ 32 = place P 0 0 w k) : P = 1 ∧ w = 1 := by
  have hW := hplaces w ((Nat.lt_mul_iff_one_lt_right hw).mpr (by omega))
  rw [place_zero, Nat.mod_eq_of_lt hlt, Nat.div_eq_of_lt hlt, Nat.div_self hw, Nat.mod_self] at hW
  obtain rfl : w = P := by omega
  by_contra hne
  have hH := hplaces h ((Nat.lt_mul_iff_one_lt_left (by omega)).mpr (by omega))
  rw [place_zero, Nat.mod_self, Nat.div_self (by omega), Nat.one_mul, Nat.mod_eq_of_lt hP,
    Nat.zero_add, Nat.zero_add, Nat.mul_comm, Nat.div_add_mod] at hH
  omega

/-- An image wider than it is high: its first row is drawn in several. -/
lemma one_of_wider (hh : 0 < h) (hlt : h < w) (hP : P < 2 ^ 32) (hw' : w < 2 ^ 16)
    (hplaces : ∀ k < w * h, k % h + k / h * P % 2 ^ 32 = place P 0 0 w k) : P = 1 ∧ h = 1 := by
  have hH := hplaces h ((Nat.lt_mul_iff_one_lt_left hh).mpr (by omega))
  rw [place_zero, Nat.mod_eq_of_lt hlt, Nat.div_eq_of_lt hlt, Nat.div_self hh, Nat.mod_self,
    Nat.one_mul, Nat.mod_eq_of_lt hP] at hH
  obtain rfl : P = h := by omega
  by_contra hne
  have hW := hplaces w ((Nat.lt_mul_iff_one_lt_right (by omega)).mpr (by omega))
  have hlt' : w / P * P < 2 ^ 32 := (Nat.div_mul_le_self w P).trans_lt (by omega)
  rw [place_zero, Nat.mod_eq_of_lt hlt', Nat.mod_self, Nat.div_self (by omega), Nat.one_mul,
    Nat.mul_comm, Nat.mod_add_div] at hW
  omega

/-- A lone column or row fits on a screen of one column. -/
lemma line_iff (hw : 0 < w) (hne : w ≠ h) (hh : 0 < h) (hP : P < 2 ^ 32) (hw' : w < 2 ^ 16) :
    (∀ k ∈ List.range (w * h), k % h + k / h * P % 2 ^ 32 = place P 0 0 w k) ∧
        Apart (place P 0 0 w) (List.range (w * h)) ↔ P = 1 ∧ (w = 1 ∨ h = 1) := by
  constructor
  · rintro ⟨hplaces, -⟩
    have hat : ∀ k < w * h, k % h + k / h * P % 2 ^ 32 = place P 0 0 w k :=
      fun k hk => hplaces k (List.mem_range.mpr hk)
    rcases Nat.lt_or_gt_of_ne hne with hlt | hlt
    · exact (one_of_higher hw hlt hP hat).imp_right Or.inl
    · exact (one_of_wider hh hlt hP hw' hat).imp_right Or.inr
  · rintro ⟨rfl, rfl | rfl⟩
    · refine ⟨fun k hk => ?_, fun k _ l _ hkl => ?_⟩
      · have hlt : k < h := by simpa using hk
        rw [place_zero, Nat.mod_eq_of_lt hlt, Nat.div_eq_of_lt hlt]
        omega
      · simp only [place_zero] at hkl
        omega
    · refine ⟨fun k hk => ?_, fun k hk l hl hkl => ?_⟩
      · have hlt : k < w := by simpa using hk
        rw [place_zero, Nat.mod_eq_of_lt hlt, Nat.div_eq_of_lt hlt]
        omega
      · have hk' : k < w := by simpa using hk
        have hl' : l < w := by simpa using hl
        simpa [place_zero, Nat.div_eq_of_lt, Nat.mod_eq_of_lt, hk', hl'] using hkl

end places

lemma place_add (P x y w k : ℕ) : place P x y w k = x + y * P + place P 0 0 w k := by
  rw [place_zero, place, Nat.add_mul]
  omega

/-- The conditions on the image and its position, with `P` pixels to a scan line. -/
lemma places_iff {P x y w h : ℕ} (hw : 0 < w) (hh : 0 < h) (hP : P < 2 ^ 32)
    (hw' : w < 2 ^ 16) :
    (∀ k ∈ List.range (w * h), k % h + k / h * P % 2 ^ 32 = place P x y w k) ∧
        Apart (place P x y w) (List.range (w * h)) ↔
      x = 0 ∧ y * P = 0 ∧
        (w = h ∧ (w = 1 ∨ w ≤ P) ∧ (h - 1) * P < 2 ^ 32 ∨ P = 1 ∧ (w = 1 ∨ h = 1)) := by
  have horigin : (∀ k ∈ List.range (w * h), k % h + k / h * P % 2 ^ 32 = place P x y w k) →
      x = 0 ∧ y * P = 0 := fun hplaces => by
    have h0 := hplaces 0 (List.mem_range.mpr (Nat.mul_pos hw hh))
    rw [place_add, place_zero, Nat.zero_mod, Nat.zero_div, Nat.zero_mul, Nat.zero_mod,
      Nat.zero_div, Nat.zero_mul, Nat.zero_mod] at h0
    omega
  by_cases hxy : x = 0 ∧ y * P = 0
  · obtain ⟨rfl, hy⟩ := hxy
    have hplace : place P 0 y w = place P 0 0 w := by
      ext k
      rw [place_add P 0 y, hy, Nat.zero_add]
    rw [hplace, hy]
    by_cases hwh : w = h
    · subst hwh
      rw [square_iff hw hP]
      constructor
      · exact fun hsquare => ⟨rfl, rfl, Or.inl ⟨rfl, hsquare⟩⟩
      · rintro ⟨-, -, ⟨-, hsquare⟩ | ⟨rfl, hone⟩⟩
        · exact hsquare
        · obtain rfl : w = 1 := hone.elim id id
          exact ⟨Or.inl rfl, by decide⟩
    · rw [line_iff hw hwh hh hP hw']
      simp only [hwh, false_and, false_or, true_and]
  · refine iff_of_false (fun hboth => hxy (horigin hboth.1)) fun hcond => hxy ⟨hcond.1, hcond.2.1⟩

/-- Pixel `(x + j, y + i)` has the colour `i * W + j` of the image, and the rest of the
framebuffer is as before. -/
def Draws (s : Screen) (x y : UInt32) (W H : UInt16) (img px px' : ℕ → UInt32) : Prop :=
  (∀ i < H.toNat, ∀ j < W.toNat,
      px' (x.toNat + j + (y.toNat + i) * s.fbPixperline.toNat) = img (i * W.toNat + j)) ∧
    ∀ c, (∀ i < H.toNat, ∀ j < W.toNat,
      x.toNat + j + (y.toNat + i) * s.fbPixperline.toNat ≠ c) → px' c = px c

lemma draws_iff {s : Screen} {x y : UInt32} {W H : UInt16} {img px px' : ℕ → UInt32} :
    Draws s x y W H img px px' ↔
      (∀ k ∈ List.range (W.toNat * H.toNat),
          px' (place s.fbPixperline.toNat x.toNat y.toNat W.toNat k) = img k) ∧
        ∀ c, (∀ k ∈ List.range (W.toNat * H.toNat),
          place s.fbPixperline.toNat x.toNat y.toNat W.toNat k ≠ c) → px' c = px c := by
  have hcolours := forall_pixel_iff H.toNat W.toNat fun i j k =>
    px' (x.toNat + j + (y.toNat + i) * s.fbPixperline.toNat) = img k
  have hother (c : ℕ) := forall_pixel_iff H.toNat W.toNat fun i j _ =>
    x.toNat + j + (y.toNat + i) * s.fbPixperline.toNat ≠ c
  rw [Draws, ← hcolours, Nat.mul_comm W.toNat]
  simp only [← hother, place]

/-- `tga_plot` draws every image of width `W` and height `H` at `(x, y)`. -/
def DrawsEvery (s : Screen) (x y : UInt32) (W H : UInt16) : Prop :=
  ∀ img file, IsTga W H img file → ∀ buffer px,
    Draws s x y W H img px (tgaPlot s file buffer x y px)

/-- A file that `tga_plot` reads with `fread` is drawn if every file with the image is. -/
theorem tgaPlotFile_draws {S : System} {fuel : ℕ} {s : Screen} {fp : ℕ} {x y : UInt32}
    {junk : Junk} {buffer : Buffer} {st st' : State} {px px' : ℕ → UInt32} {W H : UInt16}
    (hevery : DrawsEvery s x y W H)
    (hrun : tgaPlotFile S fuel s fp x y junk buffer st px = some (st', px')) :
    ∃ reply, fread S fuel fp (fsize S fp st) junk
        { st with heap := (Heap.malloc S.machine (fsize S fp st).toNat st.heap).state } =
          some reply ∧
      ∀ img, IsTga W H img reply.value.2 → Draws s x y W H img px px' := by
  obtain ⟨reply, hread, heq⟩ := Option.map_eq_some_iff.mp hrun
  obtain ⟨-, rfl⟩ := Prod.mk.inj heq
  exact ⟨reply, hread, fun img hfile => hevery img _ hfile buffer px⟩

/-- **Where `tga_plot` draws.** It draws every image of width `W` and height `H` at `(x, y)`
exactly if there is nothing to draw, or the position is the origin and the image is a square whose
rows have room on a scan line and do not wrap, or one column or row on a screen of one column. -/
theorem tgaPlot_draws_iff (s : Screen) (x y : UInt32) (W H : UInt16) :
    DrawsEvery s x y W H ↔
      W = 0 ∨ H = 0 ∨ x = 0 ∧ y.toNat * s.fbPixperline.toNat = 0 ∧
        (W = H ∧ (W = 1 ∨ W.toNat ≤ s.fbPixperline.toNat) ∧
            (H.toNat - 1) * s.fbPixperline.toNat < 2 ^ 32 ∨
          s.fbPixperline = 1 ∧ (W = 1 ∨ H = 1)) := by
  have hall : DrawsEvery s x y W H ↔
      (∀ k ∈ List.range (W.toNat * H.toNat),
          k % H.toNat + k / H.toNat * s.fbPixperline.toNat % 2 ^ 32 =
            place s.fbPixperline.toNat x.toNat y.toNat W.toNat k) ∧
        Apart (place s.fbPixperline.toNat x.toNat y.toNat W.toNat)
          (List.range (W.toNat * H.toNat)) := by
    rw [← draw_places_iff (ν := UInt32)]
    constructor
    · intro hdraws img px
      have := hdraws img _ (isTga_tgaFile W H img) (fun _ => 0) px
      rwa [tgaPlot_eq (isTga_tgaFile W H img), draws_iff] at this
    · intro hdraw img file hfile buffer px
      rw [tgaPlot_eq hfile, draws_iff]
      exact hdraw img px
  rw [hall]
  by_cases hW : W = 0
  · subst hW
    exact iff_of_true ⟨by simp, by simp [Apart]⟩ (Or.inl rfl)
  by_cases hH : H = 0
  · subst hH
    exact iff_of_true ⟨by simp, by simp [Apart]⟩ (Or.inr (Or.inl rfl))
  have hw : 0 < W.toNat := Nat.pos_of_ne_zero fun h => hW (UInt16.toNat_inj.mp h)
  have hh : 0 < H.toNat := Nat.pos_of_ne_zero fun h => hH (UInt16.toNat_inj.mp h)
  have hx : x.toNat = 0 ↔ x = 0 := UInt32.toNat_inj (b := 0)
  have hW1 : W.toNat = 1 ↔ W = 1 := UInt16.toNat_inj (b := 1)
  have hH1 : H.toNat = 1 ↔ H = 1 := UInt16.toNat_inj (b := 1)
  have hP1 : s.fbPixperline.toNat = 1 ↔ s.fbPixperline = 1 := UInt32.toNat_inj (b := 1)
  rw [places_iff hw hh s.fbPixperline.toNat_lt W.toNat_lt, or_iff_right hW,
    or_iff_right hH, hx, hW1, hH1, hP1, UInt16.toNat_inj]

/-- An image of two pixels in a row, on a screen of 4 by 4. The second pixel comes out below the
first. At `(1, 0)`, an image of one pixel comes out at the origin. -/
theorem not_tgaPlot_draws :
    (∃ img file, IsTga 2 1 img file ∧
      tgaPlot ⟨4, 4, 4⟩ file (fun _ => 0) 0 0 (fun _ => 0) 1 ≠ img 1) ∧
    (∃ img file, IsTga 1 1 img file ∧
      tgaPlot ⟨4, 4, 4⟩ file (fun _ => 0) 1 0 (fun _ => 0) 1 ≠ img 0) ∧
    ¬ ∀ (s : Screen) (x y : UInt32) (W H : UInt16), x.toNat + W.toNat ≤ s.fbW.toNat →
      y.toNat + H.toNat ≤ s.fbH.toNat → DrawsEvery s x y W H := by
  have hrow : tgaPlot ⟨4, 4, 4⟩ (tgaFile 2 1 fun k => k.toUInt32 + 5) (fun _ => 0) 0 0
      (fun _ => 0) 1 = 0 := by decide
  have hat : tgaPlot ⟨4, 4, 4⟩ (tgaFile 1 1 fun k => k.toUInt32 + 5) (fun _ => 0) 1 0
      (fun _ => 0) 1 = 0 := by decide
  refine ⟨⟨_, _, isTga_tgaFile 2 1 fun k => k.toUInt32 + 5, by rw [hrow]; decide⟩,
    ⟨_, _, isTga_tgaFile 1 1 fun k => k.toUInt32 + 5, by rw [hat]; decide⟩, fun hall => ?_⟩
  have hdraws := hall ⟨4, 4, 4⟩ 1 0 1 1 (by decide) (by decide) _ _
    (isTga_tgaFile 1 1 fun k => k.toUInt32 + 5) (fun _ => 0) fun _ => 0
  have hpixel := hdraws.1 0 (by decide) 0 (by decide)
  exact absurd (hat.symm.trans hpixel) (by decide)

end FlameOS.Tga
