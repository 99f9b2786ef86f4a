import FlameOS.Writes
import Mathlib

/-!
`plotpixel` and `plotimg`. The framebuffer is its pixels by their distance from `fb_addr`.

`plotpixel` takes the scan lines to be `fb_pixperline` apart, in 32 bits. `plotimg` walks with
one pointer and takes them to be `fb_w` apart.
-/

namespace FlameOS.Plot

open FlameOS.Writes

/-- The size of the screen, and the pixels of a scan line in memory. -/
structure Screen where
  fbW : UInt32
  fbH : UInt32
  fbPixperline : UInt32

variable (s : Screen)

def loc (x y : UInt32) : ℕ := x.toNat + (y * s.fbPixperline).toNat

def plotpixel (x y colour : UInt32) (px : ℕ → UInt32) : ℕ → UInt32 :=
  Function.update px (loc s x y) colour

def plotRow (src : ℕ → UInt32) : ℕ → ℕ → ℕ → (ℕ → UInt32) → ℕ → UInt32
  | 0, _, _, px => px
  | n + 1, k, ptr, px => plotRow src n (k + 1) (ptr + 1) (Function.update px ptr (src k))

def plotRows (src : ℕ → UInt32) (w : UInt32) : ℕ → ℕ → ℕ → (ℕ → UInt32) → ℕ → UInt32
  | 0, _, _, px => px
  | n + 1, k, ptr, px =>
    plotRows src w n (k + w.toNat) (ptr + w.toNat + (s.fbW - w).toNat) (plotRow src w.toNat k ptr px)

def plotimg (src : ℕ → UInt32) (x y w h : UInt32) (px : ℕ → UInt32) : ℕ → UInt32 :=
  plotRows s src w h.toNat 0 ((y * s.fbPixperline).toNat + x.toNat) px

def plotpixels (src : ℕ → UInt32) (x y w h : UInt32) (px : ℕ → UInt32) : ℕ → UInt32 :=
  (List.range h.toNat).foldl (fun px i => (List.range w.toNat).foldl (fun px j =>
    plotpixel s (x + j.toUInt32) (y + i.toUInt32) (src (i * w.toNat + j)) px) px) px

/-! ### The places -/

instance nontrivial_uint32 : Nontrivial UInt32 := ⟨0, 1, by decide⟩

lemma plotRow_eq (src : ℕ → UInt32) (n k ptr : ℕ) (px : ℕ → UInt32) :
    plotRow src n k ptr px =
      (List.range n).foldl (fun px j => Function.update px (ptr + j) (src (k + j))) px := by
  induction n generalizing k ptr px with
  | zero => rfl
  | succ n ih =>
    rw [plotRow, ih, List.range_succ_eq_map, List.foldl_cons, List.foldl_map]
    simp only [Nat.add_zero, Nat.succ_eq_add_one, Nat.add_assoc, Nat.add_comm 1]

lemma plotRows_eq (src : ℕ → UInt32) (w : UInt32) (n k ptr : ℕ) (px : ℕ → UInt32) :
    plotRows s src w n k ptr px = (List.range n).foldl (fun px i => (List.range w.toNat).foldl
      (fun px j => Function.update px (ptr + i * (w.toNat + (s.fbW - w).toNat) + j)
        (src (k + i * w.toNat + j))) px) px := by
  induction n generalizing k ptr px with
  | zero => rfl
  | succ n ih =>
    rw [plotRows, ih, plotRow_eq, List.range_succ_eq_map, List.foldl_cons, List.foldl_map]
    simp only [Nat.zero_mul, Nat.add_zero, Nat.succ_eq_add_one, Nat.succ_mul, Nat.add_assoc,
      Nat.add_left_comm, Nat.add_comm]

variable {s} {x y w h : UInt32}

lemma plotimg_eq (hw : w ≤ s.fbW) (src : ℕ → UInt32) (px : ℕ → UInt32) :
    plotimg s src x y w h px = draw (fun k => (y * s.fbPixperline).toNat + x.toNat +
      k / w.toNat * s.fbW.toNat + k % w.toNat) src (List.range (h.toNat * w.toNat)) px := by
  have hstep : w.toNat + (s.fbW - w).toNat = s.fbW.toNat := by
    rw [UInt32.toNat_sub_of_le _ _ hw]
    have : w.toNat ≤ s.fbW.toNat := hw
    omega
  rw [plotimg, plotRows_eq, hstep]
  simp only [Nat.zero_add]
  exact (draw_range_mul (fun i j => (y * s.fbPixperline).toNat + x.toNat + i * s.fbW.toNat + j)
    src h.toNat w.toNat px).symm

lemma plotpixels_eq (src : ℕ → UInt32) (px : ℕ → UInt32) :
    plotpixels s src x y w h px = draw (fun k => loc s (x + (k % w.toNat).toUInt32)
      (y + (k / w.toNat).toUInt32)) src (List.range (h.toNat * w.toNat)) px :=
  (draw_range_mul (fun i j => loc s (x + j.toUInt32) (y + i.toUInt32)) src h.toNat w.toNat px).symm

/-- The place of a pixel on the screen; only the product can wrap. -/
lemma loc_add {i j : ℕ} (hj : x.toNat + j < 2 ^ 32) (hi : y.toNat + i < 2 ^ 32) :
    loc s (x + j.toUInt32) (y + i.toUInt32) =
      x.toNat + j + ((y * s.fbPixperline).toNat + i * s.fbPixperline.toNat) % 2 ^ 32 := by
  have hx : (x + j.toUInt32).toNat = x.toNat + j := by
    rw [UInt32.toNat_add, UInt32.toNat_ofNat', Nat.add_mod_mod, Nat.mod_eq_of_lt hj]
  have hy : (y + i.toUInt32).toNat = y.toNat + i := by
    rw [UInt32.toNat_add, UInt32.toNat_ofNat', Nat.add_mod_mod, Nat.mod_eq_of_lt hi]
  rw [loc, hx, UInt32.toNat_mul, hy, UInt32.toNat_mul, Nat.add_mul, Nat.mod_add_mod]

/-- Rows `W` and `P` apart begin at the same places, in 32 bits. -/
lemma rows_eq_iff {r W P h : ℕ} (hWP : W ≤ P) (hP : P < 2 ^ 32) (hh : 1 < h) :
    (∀ q < h, r + q * W = (r + q * P) % 2 ^ 32) ↔ W = P ∧ r + (h - 1) * P < 2 ^ 32 := by
  constructor
  · intro hrows
    have h1 := hrows 1 hh
    have hW : W = P := by omega
    subst hW
    refine ⟨rfl, ?_⟩
    rw [hrows (h - 1) (by omega)]
    exact Nat.mod_lt _ (by decide)
  · rintro ⟨rfl, hlt⟩ q hq
    have hle : q * W ≤ (h - 1) * W := Nat.mul_le_mul_right W (by omega)
    rw [Nat.mod_eq_of_lt (by omega)]

lemma apart_rows {w W : ℕ} (hw : w ≤ W) (a h : ℕ) :
    Apart (fun k => a + k / w * W + k % w) (List.range (h * w)) := by
  intro k hk l hl hkl
  have hpos : 0 < w := by
    rcases Nat.eq_zero_or_pos w with rfl | hpos
    · have hlt := List.mem_range.mp hk
      rw [Nat.mul_zero] at hlt
      exact absurd hlt (Nat.not_lt_zero k)
    · exact hpos
  have hk' : k % w < W := (Nat.mod_lt k hpos).trans_le hw
  have hl' : l % w < W := (Nat.mod_lt l hpos).trans_le hw
  have hsum : k % w + k / w * W = l % w + l / w * W := by
    dsimp only at hkl
    omega
  have hdiv : k / w = l / w := by
    have := congrArg (· / W) hsum
    rwa [Nat.add_mul_div_right _ _ (by omega), Nat.add_mul_div_right _ _ (by omega),
      Nat.div_eq_of_lt hk', Nat.div_eq_of_lt hl', Nat.zero_add, Nat.zero_add] at this
  rw [hdiv, Nat.add_right_cancel_iff] at hsum
  rw [← Nat.div_add_mod k w, ← Nat.div_add_mod l w, hdiv, hsum]

lemma row_col_of_mem {h w k : ℕ} (hk : k ∈ List.range (h * w)) : k / w < h ∧ k % w < w := by
  have hlt : k < w * h := by
    rw [Nat.mul_comm]
    exact List.mem_range.mp hk
  exact ⟨Nat.div_lt_of_lt_mul hlt, Nat.mod_lt k (Nat.pos_of_lt_mul_right hlt)⟩

lemma forall_pixel_iff (h w : ℕ) (Q : ℕ → ℕ → ℕ → Prop) :
    (∀ k ∈ List.range (h * w), Q (k / w) (k % w) k) ↔
      ∀ i < h, ∀ j < w, Q i j (i * w + j) := by
  constructor
  · intro hall i hi j hj
    have hlt : i * w + j < h * w := by
      have hle : (i + 1) * w ≤ h * w := Nat.mul_le_mul_right w hi
      rw [Nat.succ_mul] at hle
      omega
    have hk := hall (i * w + j) (List.mem_range.mpr hlt)
    rwa [Nat.add_comm, Nat.add_mul_div_right _ _ (by omega), Nat.add_mul_mod_self_right,
      Nat.div_eq_of_lt hj, Nat.mod_eq_of_lt hj, Nat.zero_add, Nat.add_comm] at hk
  · intro hall k hk
    obtain ⟨hi, hj⟩ := row_col_of_mem hk
    have hQ := hall (k / w) hi (k % w) hj
    rwa [Nat.div_add_mod'] at hQ

/-- A statement about the row of each pixel of an image is one about the rows. -/
lemma forall_row_iff {w : ℕ} (hw : 0 < w) (h : ℕ) (P : ℕ → Prop) :
    (∀ k ∈ List.range (h * w), P (k / w)) ↔ ∀ q < h, P q := by
  constructor
  · intro hall q hq
    have hlt : q * w < h * w := Nat.mul_lt_mul_of_pos_right hq hw
    have := hall (q * w) (List.mem_range.mpr hlt)
    rwa [Nat.mul_div_cancel _ hw] at this
  · intro hall k hk
    exact hall _ (row_col_of_mem hk).1

lemma plotpixels_of_ne {c : ℕ} (hc : ∀ i < h.toNat, ∀ j < w.toNat,
    loc s (x + j.toUInt32) (y + i.toUInt32) ≠ c) (src : ℕ → UInt32) (px : ℕ → UInt32) :
    plotpixels s src x y w h px c = px c := by
  rw [plotpixels_eq]
  refine draw_of_notMem fun k hk => ?_
  obtain ⟨hi, hj⟩ := row_col_of_mem hk
  exact hc _ hi _ hj

/-- Both go to the same places if their rows begin at the same ones. -/
lemma same_places_iff (hpos : 0 < w.toNat) (hxw : x.toNat + w.toNat < 2 ^ 32)
    (hyh : y.toNat + h.toNat < 2 ^ 32) :
    (∀ k ∈ List.range (h.toNat * w.toNat), (y * s.fbPixperline).toNat + x.toNat +
        k / w.toNat * s.fbW.toNat + k % w.toNat =
          loc s (x + (k % w.toNat).toUInt32) (y + (k / w.toNat).toUInt32)) ↔
      ∀ q < h.toNat, (y * s.fbPixperline).toNat + q * s.fbW.toNat =
        ((y * s.fbPixperline).toNat + q * s.fbPixperline.toNat) % 2 ^ 32 := by
  rw [← forall_row_iff hpos]
  refine forall₂_congr fun k hk => ?_
  obtain ⟨hi, hj⟩ := row_col_of_mem hk
  rw [loc_add (by omega) (by omega)]
  omega

/-- **`plotimg` and `plotpixel`.** For an image on the screen, `plotimg` draws what the calls of
`plotpixel` would, and nothing else, exactly if the image has at most one row or no column, or if
the scan lines are as long as the screen is wide and the products of the rows do not wrap. -/
theorem plotimg_eq_plotpixels_iff (s : Screen) (hline : s.fbW ≤ s.fbPixperline)
    (x y w h : UInt32) (hx : x.toNat + w.toNat ≤ s.fbW.toNat)
    (hy : y.toNat + h.toNat ≤ s.fbH.toNat) :
    (∀ src px, plotimg s src x y w h px = plotpixels s src x y w h px ∧
        ∀ c, (∀ i < h.toNat, ∀ j < w.toNat, loc s (x + j.toUInt32) (y + i.toUInt32) ≠ c) →
          plotimg s src x y w h px c = px c) ↔
      w = 0 ∨ h ≤ 1 ∨ s.fbW = s.fbPixperline ∧
        (y * s.fbPixperline).toNat + (h.toNat - 1) * s.fbPixperline.toNat < 2 ^ 32 := by
  have hwN : w.toNat ≤ s.fbW.toNat := by omega
  have hw : w ≤ s.fbW := hwN
  have hxw : x.toNat + w.toNat < 2 ^ 32 := hx.trans_lt s.fbW.toNat_lt
  have hyh : y.toNat + h.toNat < 2 ^ 32 := hy.trans_lt s.fbH.toNat_lt
  have hframe : (∀ src px, plotimg s src x y w h px = plotpixels s src x y w h px ∧
        ∀ c, (∀ i < h.toNat, ∀ j < w.toNat, loc s (x + j.toUInt32) (y + i.toUInt32) ≠ c) →
          plotimg s src x y w h px c = px c) ↔
      ∀ src px, plotimg s src x y w h px = plotpixels s src x y w h px := by
    refine ⟨fun hall src px => (hall src px).1, fun hall src px => ⟨hall src px, fun c hc => ?_⟩⟩
    rw [hall, plotpixels_of_ne hc]
  rw [hframe]
  simp only [plotimg_eq hw, plotpixels_eq]
  rw [draw_eq_iff (apart_rows hwN _ _)]
  rcases Nat.eq_zero_or_pos w.toNat with h0 | hpos
  · refine iff_of_true (fun k hk => ?_) (Or.inl (UInt32.toNat_inj.mp h0))
    rw [h0, Nat.mul_zero] at hk
    exact absurd hk List.not_mem_nil
  · have hw0 : w ≠ 0 := fun hw0 => hpos.ne' (by rw [hw0]; rfl)
    rw [same_places_iff hpos hxw hyh, or_iff_right hw0]
    by_cases hh : h ≤ 1
    · refine iff_of_true (fun q hq => ?_) (Or.inl hh)
      have hle : h.toNat ≤ 1 := hh
      obtain rfl : q = 0 := by omega
      rw [Nat.zero_mul, Nat.zero_mul, Nat.add_zero, Nat.mod_eq_of_lt (UInt32.toNat_lt _)]
    · have hlt : 1 < h.toNat := Nat.not_le.mp hh
      have hlineN : s.fbW.toNat ≤ s.fbPixperline.toNat := hline
      rw [rows_eq_iff hlineN s.fbPixperline.toNat_lt hlt, or_iff_right hh, UInt32.toNat_inj]

/-- A screen of 640 by 480 pixels with scan lines of 640. -/
theorem plotimg_eq_plotpixels_iff_vga :
    (∀ src px, plotimg ⟨640, 480, 640⟩ src 16 32 64 64 px =
          plotpixels ⟨640, 480, 640⟩ src 16 32 64 64 px ∧
        ∀ c, (∀ i < (64 : UInt32).toNat, ∀ j < (64 : UInt32).toNat,
            loc ⟨640, 480, 640⟩ (16 + j.toUInt32) (32 + i.toUInt32) ≠ c) →
          plotimg ⟨640, 480, 640⟩ src 16 32 64 64 px c = px c) ↔
      (64 : UInt32) = 0 ∨ (64 : UInt32) ≤ 1 ∨ (640 : UInt32) = 640 ∧
        ((32 : UInt32) * 640).toNat + ((64 : UInt32).toNat - 1) * (640 : UInt32).toNat < 2 ^ 32 :=
  plotimg_eq_plotpixels_iff ⟨640, 480, 640⟩ (by decide) 16 32 64 64 (by decide) (by decide)

/-- A screen of 3 by 2 pixels with scan lines of 4: the second pixel of a column is one too far
to the left. -/
theorem not_plotimg_eq_plotpixels :
    plotimg ⟨3, 2, 4⟩ (fun _ => 7) 1 0 1 2 (fun _ => 0) 4 = 7 ∧
      plotpixels ⟨3, 2, 4⟩ (fun _ => 7) 1 0 1 2 (fun _ => 0) 4 = 0 ∧
      ¬ ∀ (s : Screen) (x y w h : UInt32), s.fbW ≤ s.fbPixperline →
        x.toNat + w.toNat ≤ s.fbW.toNat → y.toNat + h.toNat ≤ s.fbH.toNat →
        ∀ src px, plotimg s src x y w h px = plotpixels s src x y w h px := by
  have himg : plotimg ⟨3, 2, 4⟩ (fun _ => 7) 1 0 1 2 (fun _ => 0) 4 = 7 := by decide
  have hpixels : plotpixels ⟨3, 2, 4⟩ (fun _ => 7) 1 0 1 2 (fun _ => 0) 4 = 0 := by decide
  refine ⟨himg, hpixels, fun hall => ?_⟩
  have h := hall ⟨3, 2, 4⟩ 1 0 1 2 (by decide) (by decide) (by decide) (fun _ => 7) fun _ => 0
  rw [h, hpixels] at himg
  exact absurd himg (by decide)

end FlameOS.Plot
