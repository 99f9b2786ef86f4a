import FlameOS.Plot
import Mathlib

/-!
`fillrect`, with one pointer to the start of a scan line and counters of type `int`. Both loops
compare their counter with a bound of type `unsigned int`, as one of that type.
-/

namespace FlameOS.FillRect

open FlameOS.Writes FlameOS.Plot

/-- `++i` for an `int`; at the largest one it is undefined. -/
def incr (i : Int32) : Option Int32 := if i = Int32.maxValue then none else some (i + 1)

/-- The inner loop of `fillrect`, for a number of rounds that it does not use up: the counter goes
up by one until it is `w`, or overflows. -/
def fillRow (w colour : UInt32) (loc : ℕ) : ℕ → Int32 → (ℕ → UInt32) → Option (ℕ → UInt32)
  | 0, _, _ => none
  | fuel + 1, j, px =>
    if j.toUInt32 < w then do
      let j' ← incr j
      fillRow w colour loc fuel j' (Function.update px (loc + j.toNatClampNeg) colour)
    else some px

variable (s : Screen)

/-- The outer loop, with `loc` at the start of the row. -/
def fillRows (w h colour : UInt32) :
    ℕ → Int32 → ℕ → (ℕ → UInt32) → Option (ℕ → UInt32)
  | 0, _, _, _ => none
  | fuel + 1, i, loc, px =>
    if i.toUInt32 < h then do
      let px' ← fillRow w colour loc (w.toNat + 1) 0 px
      let i' ← incr i
      fillRows w h colour fuel i' (loc + s.fbPixperline.toNat) px'
    else some px

def fillrect (x y w h colour : UInt32) (px : ℕ → UInt32) : Option (ℕ → UInt32) :=
  fillRows s w h colour (h.toNat + 1) 0 (x.toNat + (y * s.fbPixperline).toNat) px

/-! ### The counters -/

lemma toUInt32_lt_iff {n : ℕ} (hn : n < 2 ^ 31) (w : UInt32) :
    (Int32.ofNat n).toUInt32 < w ↔ n < w.toNat := by
  rw [UInt32.lt_iff_toNat_lt, Int32.toUInt32_ofNat', UInt32.toNat_ofNat',
    Nat.mod_eq_of_lt (hn.trans (by norm_num))]

lemma incr_ofNat {n : ℕ} (hn : n + 1 < 2 ^ 31) :
    incr (Int32.ofNat n) = some (Int32.ofNat (n + 1)) := by
  have hmax : Int32.ofNat n ≠ Int32.maxValue := by
    intro heq
    have := congrArg Int32.toNatClampNeg heq
    rw [Int32.toNatClampNeg_ofNat_of_lt (by omega)] at this
    have : n = 2 ^ 31 - 1 := this
    omega
  rw [incr, if_neg hmax, Int32.ofNat_add]
  rfl

variable {s} {x y w h colour : UInt32}

/-! ### The loops -/

lemma fillRow_eq (hw : w.toNat < 2 ^ 31) (loc n j fuel : ℕ) (hj : j + n = w.toNat)
    (hfuel : n < fuel) (px : ℕ → UInt32) :
    fillRow w colour loc fuel (Int32.ofNat j) px =
      some ((List.range n).foldl (fun px q => Function.update px (loc + (j + q)) colour) px) := by
  induction n generalizing j fuel px with
  | zero =>
    obtain ⟨fuel, rfl⟩ := Nat.exists_eq_succ_of_ne_zero hfuel.ne'
    have hend : ¬(Int32.ofNat j).toUInt32 < w := by
      rw [toUInt32_lt_iff (by omega)]
      omega
    rw [fillRow, if_neg hend]
    rfl
  | succ n ih =>
    obtain ⟨fuel, rfl⟩ := Nat.exists_eq_succ_of_ne_zero (Nat.ne_zero_of_lt hfuel)
    have hlt : (Int32.ofNat j).toUInt32 < w := by
      rw [toUInt32_lt_iff (by omega)]
      omega
    rw [fillRow, if_pos hlt, incr_ofNat (by omega), Int32.toNatClampNeg_ofNat_of_lt (by omega),
      Option.bind_eq_bind, Option.bind_some, ih (j + 1) fuel (by omega) (by omega),
      List.range_succ_eq_map, List.foldl_cons, List.foldl_map]
    simp only [Nat.add_zero, Nat.succ_eq_add_one, Nat.add_assoc, Nat.add_comm 1]

lemma fillRows_eq (loc n i fuel : ℕ) (hw : 0 < n → w.toNat < 2 ^ 31) (hh : h.toNat < 2 ^ 31)
    (hi : i + n = h.toNat) (hfuel : n < fuel) (px : ℕ → UInt32) :
    fillRows s w h colour fuel (Int32.ofNat i) loc px =
      some ((List.range n).foldl (fun px r => (List.range w.toNat).foldl
        (fun px q => Function.update px (loc + r * s.fbPixperline.toNat + q) colour) px) px) := by
  induction n generalizing i fuel loc px with
  | zero =>
    obtain ⟨fuel, rfl⟩ := Nat.exists_eq_succ_of_ne_zero hfuel.ne'
    have hend : ¬(Int32.ofNat i).toUInt32 < h := by
      rw [toUInt32_lt_iff (by omega)]
      omega
    rw [fillRows, if_neg hend]
    rfl
  | succ n ih =>
    obtain ⟨fuel, rfl⟩ := Nat.exists_eq_succ_of_ne_zero (Nat.ne_zero_of_lt hfuel)
    have hlt : (Int32.ofNat i).toUInt32 < h := by
      rw [toUInt32_lt_iff (by omega)]
      omega
    have hzero : (0 : Int32) = Int32.ofNat 0 := rfl
    have hrow : fillRow w colour loc (w.toNat + 1) (Int32.ofNat 0) px = some _ :=
      fillRow_eq (hw n.succ_pos) loc w.toNat 0 _ (Nat.zero_add _) (Nat.lt_succ_self _) px
    rw [fillRows, if_pos hlt, hzero, hrow, incr_ofNat (by omega), Option.bind_eq_bind,
      Option.bind_some, Option.bind_eq_bind, Option.bind_some,
      ih _ (i + 1) fuel (fun _ => hw n.succ_pos) (by omega) (by omega),
      List.range_succ_eq_map, List.foldl_cons, List.foldl_map]
    simp only [Nat.zero_mul, Nat.add_zero, Nat.succ_eq_add_one, Nat.succ_mul, Nat.add_assoc,
      Nat.add_left_comm, Nat.add_comm]

lemma fillrect_eq (hw : 0 < h.toNat → w.toNat < 2 ^ 31) (hh : h.toNat < 2 ^ 31) (px : ℕ → UInt32) :
    fillrect s x y w h colour px = some (draw (fun k => x.toNat + (y * s.fbPixperline).toNat +
      k / w.toNat * s.fbPixperline.toNat + k % w.toNat) (fun _ => colour)
        (List.range (h.toNat * w.toNat)) px) := by
  have hzero : (0 : Int32) = Int32.ofNat 0 := rfl
  rw [fillrect, hzero, fillRows_eq _ h.toNat 0 _ hw hh (Nat.zero_add _) (Nat.lt_succ_self _)]
  exact congrArg some (draw_range_mul (fun i j => x.toNat + (y * s.fbPixperline).toNat +
    i * s.fbPixperline.toNat + j) (fun _ => colour) h.toNat w.toNat px).symm

/-! ### The pixels -/

/-- A rectangle on a framebuffer of less than `2 ^ 31` pixels. -/
structure Fits (s : Screen) (x y w h : UInt32) : Prop where
  pitch : 0 < s.fbPixperline.toNat
  size : s.fbPixperline.toNat * s.fbH.toNat < 2 ^ 31
  columns : x.toNat + w.toNat ≤ s.fbPixperline.toNat
  rows : y.toNat + h.toNat ≤ s.fbH.toNat

namespace Fits

lemma h_lt (hfits : Fits s x y w h) : h.toNat < 2 ^ 31 := by
  have hrows := hfits.rows
  calc h.toNat ≤ s.fbH.toNat := by omega
    _ ≤ s.fbPixperline.toNat * s.fbH.toNat := Nat.le_mul_of_pos_left _ hfits.pitch
    _ < 2 ^ 31 := hfits.size

lemma row_le (hfits : Fits s x y w h) {i : ℕ} (hi : i < h.toNat) :
    (y.toNat + i) * s.fbPixperline.toNat + s.fbPixperline.toNat ≤
      s.fbPixperline.toNat * s.fbH.toNat := by
  have hrows := hfits.rows
  calc (y.toNat + i) * s.fbPixperline.toNat + s.fbPixperline.toNat
      = s.fbPixperline.toNat * (y.toNat + i + 1) := by ring
    _ ≤ s.fbPixperline.toNat * s.fbH.toNat := Nat.mul_le_mul_left _ (by omega)

/-- If there is a row at all, it is not too long for the counter. -/
lemma w_lt (hfits : Fits s x y w h) (hpos : 0 < h.toNat) : w.toNat < 2 ^ 31 := by
  have hcolumns := hfits.columns
  have hsize := hfits.size
  have hrow := hfits.row_le hpos
  omega

lemma loc_eq (hfits : Fits s x y w h) {i j : ℕ} (hi : i < h.toNat) (hj : j < w.toNat) :
    loc s (x + j.toUInt32) (y + i.toUInt32) =
      x.toNat + (y * s.fbPixperline).toNat + i * s.fbPixperline.toNat + j := by
  have hcolumns := hfits.columns
  have hrows := hfits.rows
  have hsize := hfits.size
  have hrow := hfits.row_le hi
  have hP := s.fbPixperline.toNat_lt
  have hH := s.fbH.toNat_lt
  rw [Nat.add_mul] at hrow
  have hy : (y * s.fbPixperline).toNat = y.toNat * s.fbPixperline.toNat := by
    rw [UInt32.toNat_mul, Nat.mod_eq_of_lt (by omega)]
  rw [loc_add (by omega) (by omega), hy, Nat.mod_eq_of_lt (by omega)]
  omega

/-- The calls of `plotpixel` go through the rectangle as `fillrect` does. -/
lemma plotpixels_eq_draw (hfits : Fits s x y w h) (px : ℕ → UInt32) :
    plotpixels s (fun _ => colour) x y w h px =
      draw (fun k => x.toNat + (y * s.fbPixperline).toNat + k / w.toNat * s.fbPixperline.toNat +
        k % w.toNat) (fun _ => colour) (List.range (h.toNat * w.toNat)) px := by
  rw [plotpixels_eq]
  refine draw_congr (fun k hk => ?_) fun k _ => rfl
  obtain ⟨hi, hj⟩ := row_col_of_mem hk
  exact hfits.loc_eq hi hj

/-- Rows are no longer than their distance, so each pixel keeps its colour. -/
lemma plotpixels_loc (hfits : Fits s x y w h) {i j : ℕ} (hi : i < h.toNat) (hj : j < w.toNat)
    (px : ℕ → UInt32) :
    plotpixels s (fun _ => colour) x y w h px (loc s (x + j.toUInt32) (y + i.toUInt32)) =
      colour := by
  have hcolumns := hfits.columns
  rw [hfits.plotpixels_eq_draw, hfits.loc_eq hi hj]
  refine (forall_pixel_iff h.toNat w.toNat fun i j _ => draw _ _ _ px (_ + i * _ + j) = colour).mp
    (fun k hk => ?_) i hi j hj
  exact draw_of_mem (apart_rows (by omega) _ _) hk

end Fits

/-- **`fillrect` and `plotpixel`.** On a framebuffer of less than `2 ^ 31` pixels, `fillrect`
returns, and it does what the calls of `plotpixel` for the pixels of the rectangle do. They get
the colour, and all others stay as they are. -/
theorem fillrect_eq_plotpixels (s : Screen) (hP : 1 ≤ s.fbPixperline)
    (hsize : s.fbPixperline.toNat * s.fbH.toNat < 2 ^ 31) (x y w h : UInt32)
    (hx : x.toNat + w.toNat ≤ s.fbPixperline.toNat) (hy : y.toNat + h.toNat ≤ s.fbH.toNat)
    (colour : UInt32) (px : ℕ → UInt32) :
    ∃ px', fillrect s x y w h colour px = some px' ∧
      px' = plotpixels s (fun _ => colour) x y w h px ∧
      (∀ i < h.toNat, ∀ j < w.toNat, px' (loc s (x + j.toUInt32) (y + i.toUInt32)) = colour) ∧
      ∀ c, (∀ i < h.toNat, ∀ j < w.toNat, loc s (x + j.toUInt32) (y + i.toUInt32) ≠ c) →
        px' c = px c := by
  have hfits : Fits s x y w h := ⟨hP, hsize, hx, hy⟩
  refine ⟨plotpixels s (fun _ => colour) x y w h px, ?_, rfl, fun i hi j hj => ?_,
    fun c hc => ?_⟩
  · rw [fillrect_eq hfits.w_lt hfits.h_lt, hfits.plotpixels_eq_draw]
  · exact hfits.plotpixels_loc hi hj px
  · exact plotpixels_of_ne hc _ px

/-- A square of 100 by 100 pixels in the corner of a screen of 640 by 480. -/
theorem fillrect_eq_plotpixels_vga :
    ∃ px', fillrect ⟨640, 480, 640⟩ 0 0 100 100 0x006040 (fun _ => 0xc99eff) = some px' ∧
      px' = plotpixels ⟨640, 480, 640⟩ (fun _ => 0x006040) 0 0 100 100 (fun _ => 0xc99eff) ∧
      (∀ i < (100 : UInt32).toNat, ∀ j < (100 : UInt32).toNat,
        px' (loc ⟨640, 480, 640⟩ (0 + j.toUInt32) (0 + i.toUInt32)) = 0x006040) ∧
      ∀ c, (∀ i < (100 : UInt32).toNat, ∀ j < (100 : UInt32).toNat,
          loc ⟨640, 480, 640⟩ (0 + j.toUInt32) (0 + i.toUInt32) ≠ c) →
        px' c = 0xc99eff :=
  fillrect_eq_plotpixels ⟨640, 480, 640⟩ (by decide) (by decide) 0 0 100 100 (by decide)
    (by decide) 0x006040 fun _ => 0xc99eff

/-- Two rows of two pixels, on scan lines of four. -/
example : (fillrect ⟨3, 2, 4⟩ 1 0 2 2 7 fun _ => 0).map (fun px => (List.range 8).map px) =
    some [0, 7, 7, 0, 0, 7, 7, 0] := rfl

end FlameOS.FillRect
