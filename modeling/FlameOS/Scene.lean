import FlameOS.FillRect

/-!
The picture at the end of `init`: the screen in one colour, and a square for each height of the
screen, the last one as high as the screen is.

On a screen that is higher than its scan lines are long, the squares run over the end of their
scan lines, and the last ones over the end of the framebuffer.
-/

namespace FlameOS.Scene

open FlameOS.Writes FlameOS.Plot FlameOS.FillRect

def background : UInt32 := 0xc99eff
def green : UInt32 := 0x006040

variable (s : Screen)

/-- The loop `for (int i = 0; i <= fb_h; ++i)` of `init`, for a number of rounds that it does not
use up. -/
def squares : ℕ → Int32 → (ℕ → UInt32) → Option (ℕ → UInt32)
  | 0, _, _ => none
  | fuel + 1, i, px =>
    if i.toUInt32 ≤ s.fbH then do
      let px' ← fillrect s 0 0 i.toUInt32 i.toUInt32 green px
      let i' ← incr i
      squares fuel i' px'
    else some px

def initPicture (px : ℕ → UInt32) : Option (ℕ → UInt32) := do
  let px' ← fillrect s 0 0 s.fbW s.fbH background px
  squares s (s.fbH.toNat + 2) 0 px'

/-- The pixels of `h` rows with `w` columns from the corner on, by their distance from `fb_addr`. -/
def corner (w h : ℕ) : Set ℕ :=
  {k | ∃ r < h, ∃ c < w, k = r * s.fbPixperline.toNat + c}

/-- The pixels have the colour, and all others are as they were. -/
def Coloured (colour : UInt32) (ks : Set ℕ) (px px' : ℕ → UInt32) : Prop :=
  (∀ k ∈ ks, px' k = colour) ∧ ∀ k ∉ ks, px' k = px k

variable {s} {w h n : ℕ} {px px' : ℕ → UInt32}

/-! ### Rectangles in the corner -/

lemma corner_mono (hn : n ≤ h) : corner s n n ⊆ corner s h h := by
  rintro k ⟨r, hr, c, hc, rfl⟩
  exact ⟨r, hr.trans_le hn, c, hc.trans_le hn, rfl⟩

lemma mem_corner_iff {k : ℕ} : k ∈ corner s w h ↔ ∃ i ∈ List.range (h * w),
    i / w * s.fbPixperline.toNat + i % w = k := by
  constructor
  · rintro ⟨r, hr, c, hc, rfl⟩
    have hlt : r * w + c < h * w := by
      calc r * w + c < r * w + w := Nat.add_lt_add_left hc _
        _ = (r + 1) * w := (Nat.succ_mul r w).symm
        _ ≤ h * w := Nat.mul_le_mul_right w hr
    refine ⟨r * w + c, List.mem_range.mpr hlt, ?_⟩
    rw [Nat.add_comm (r * w), Nat.add_mul_div_right _ _ (Nat.zero_lt_of_lt hc),
      Nat.add_mul_mod_self_right, Nat.div_eq_of_lt hc, Nat.mod_eq_of_lt hc, Nat.zero_add]
  · rintro ⟨i, hi, rfl⟩
    obtain ⟨hr, hc⟩ := row_col_of_mem hi
    exact ⟨i / w, hr, i % w, hc, rfl⟩

/-- One colour everywhere: what comes back to a place does not change it. -/
lemma coloured_draw (p : ℕ → ℕ) (colour : UInt32) (is : List ℕ) (px : ℕ → UInt32) :
    Coloured colour {k | ∃ i ∈ is, p i = k} px (draw p (fun _ => colour) is px) := by
  refine ⟨?_, fun k hk => draw_of_notMem fun i hi hik => hk ⟨i, hi, hik⟩⟩
  rintro k ⟨i, hi, rfl⟩
  induction is generalizing px with
  | nil => exact absurd hi List.not_mem_nil
  | cons j is ih =>
    rw [draw_cons]
    rcases draw_cases p (fun _ => colour) is (Function.update px (p j) colour) (p i) with
      hkept | ⟨l, -, -, hdrawn⟩
    · by_cases hij : p i = p j
      · rw [hkept, hij, Function.update_self]
      · rcases List.mem_cons.mp hi with rfl | hi
        · exact absurd rfl hij
        · exact ih _ hi
    · exact hdrawn

lemma fillrect_corner (colour : UInt32) {W H : UInt32} (hW : W.toNat < 2 ^ 31)
    (hH : H.toNat < 2 ^ 31) (px : ℕ → UInt32) :
    ∃ px', fillrect s 0 0 W H colour px = some px' ∧
      Coloured colour (corner s W.toNat H.toNat) px px' := by
  refine ⟨_, fillrect_eq (fun _ => hW) hH px, ?_⟩
  have hplaces : corner s W.toNat H.toNat = {k | ∃ i ∈ List.range (H.toNat * W.toNat),
      (0 : UInt32).toNat + (0 * s.fbPixperline).toNat + i / W.toNat * s.fbPixperline.toNat +
        i % W.toNat = k} := by
    ext k
    rw [mem_corner_iff, UInt32.zero_mul]
    simp only [UInt32.toNat_zero, Nat.zero_add, Set.mem_ofPred_eq]
  rw [hplaces]
  exact coloured_draw _ _ _ _

/-! ### The squares -/

lemma toNat_counter (hn : n < 2 ^ 31) : (Int32.ofNat n).toUInt32.toNat = n := by
  rw [Int32.toUInt32_ofNat', UInt32.toNat_ofNat', Nat.mod_eq_of_lt (hn.trans (by norm_num))]

/-- The squares that are left make one, as each lies in the last. -/
lemma squares_eq (hH : s.fbH.toNat + 1 < 2 ^ 31) {m fuel : ℕ} (hn : n + m = s.fbH.toNat)
    (hfuel : m + 1 < fuel) (px : ℕ → UInt32) :
    ∃ px', squares s fuel (Int32.ofNat n) px = some px' ∧
      Coloured green (corner s s.fbH.toNat s.fbH.toNat) px px' := by
  induction m generalizing n fuel px with
  | zero =>
    obtain ⟨fuel, rfl⟩ : ∃ f, fuel = f + 1 + 1 := ⟨fuel - 2, by omega⟩
    obtain rfl : n = s.fbH.toNat := hn
    have hcount := toNat_counter (n := s.fbH.toNat) (by omega)
    obtain ⟨px', hfill, hpx'⟩ := fillrect_corner (s := s) green
      (by rw [hcount]; omega) (by rw [hcount]; omega) px
    rw [hcount] at hpx'
    have hin : (Int32.ofNat s.fbH.toNat).toUInt32 ≤ s.fbH := by
      rw [UInt32.le_iff_toNat_le, hcount]
    have hout : ¬ (Int32.ofNat (s.fbH.toNat + 1)).toUInt32 ≤ s.fbH := by
      rw [UInt32.le_iff_toNat_le, toNat_counter hH]
      omega
    refine ⟨px', ?_, hpx'⟩
    rw [squares, if_pos hin, hfill, incr_ofNat hH, Option.bind_eq_bind, Option.bind_some,
      Option.bind_eq_bind, Option.bind_some, squares, if_neg hout]
  | succ m ih =>
    obtain ⟨fuel, rfl⟩ : ∃ f, fuel = f + 1 := ⟨fuel - 1, by omega⟩
    have hcount := toNat_counter (n := n) (by omega)
    obtain ⟨px₁, hfill, hpx₁⟩ := fillrect_corner (s := s) green
      (by rw [hcount]; omega) (by rw [hcount]; omega) px
    rw [hcount] at hpx₁
    obtain ⟨px', hrest, hpx'⟩ : ∃ px', squares s fuel (Int32.ofNat (n + 1)) px₁ = some px' ∧
      Coloured green (corner s s.fbH.toNat s.fbH.toNat) px₁ px' := ih (by omega) (by omega) px₁
    have hin : (Int32.ofNat n).toUInt32 ≤ s.fbH := by
      rw [UInt32.le_iff_toNat_le, hcount]
      omega
    refine ⟨px', ?_, hpx'.1, fun k hk => ?_⟩
    · rw [squares, if_pos hin, hfill, incr_ofNat (by omega), Option.bind_eq_bind, Option.bind_some,
        Option.bind_eq_bind, Option.bind_some]
      exact hrest
    · rw [hpx'.2 k hk]
      exact hpx₁.2 k fun hmem => hk (corner_mono (by omega) hmem)

/-! ### The picture -/

/-- What is on the screen in the end. -/
structure IsPicture (s : Screen) (px px' : ℕ → UInt32) : Prop where
  square : ∀ k ∈ corner s s.fbH.toNat s.fbH.toNat, px' k = green
  rest : ∀ k ∈ corner s s.fbW.toNat s.fbH.toNat, k ∉ corner s s.fbH.toNat s.fbH.toNat →
    px' k = background
  kept : ∀ k ∉ corner s s.fbW.toNat s.fbH.toNat, k ∉ corner s s.fbH.toNat s.fbH.toNat →
    px' k = px k

lemma initPicture_eq_some (hW : s.fbW.toNat < 2 ^ 31) (hH : s.fbH.toNat + 1 < 2 ^ 31)
    (px : ℕ → UInt32) : ∃ px', initPicture s px = some px' ∧ IsPicture s px px' := by
  obtain ⟨px₁, hfill, hpx₁⟩ := fillrect_corner (s := s) (H := s.fbH) background hW (by omega) px
  obtain ⟨px', hsquares, hpx'⟩ : ∃ px', squares s (s.fbH.toNat + 2) (Int32.ofNat 0) px₁ = some px' ∧
    Coloured green (corner s s.fbH.toNat s.fbH.toNat) px₁ px' :=
    squares_eq hH (Nat.zero_add _) (by omega) px₁
  refine ⟨px', ?_, ?_⟩
  · rw [initPicture, hfill, Option.bind_eq_bind, Option.bind_some]
    exact hsquares
  · refine ⟨hpx'.1, fun k hk hout => ?_, fun k hk hout => ?_⟩
    · rw [hpx'.2 k hout, hpx₁.1 k hk]
    · rw [hpx'.2 k hout, hpx₁.2 k hk]

/-- Rows that are no longer than a scan line stay in the framebuffer. -/
lemma lt_of_mem_corner (hw : w ≤ s.fbPixperline.toNat) {k : ℕ} (hk : k ∈ corner s w h) :
    k < h * s.fbPixperline.toNat := by
  obtain ⟨r, hr, c, hc, rfl⟩ := hk
  calc r * s.fbPixperline.toNat + c < r * s.fbPixperline.toNat + s.fbPixperline.toNat := by omega
    _ = (r + 1) * s.fbPixperline.toNat := (Nat.succ_mul _ _).symm
    _ ≤ h * s.fbPixperline.toNat := Nat.mul_le_mul_right _ hr

/-- The last pixel of a square that is longer than a scan line is behind its rows. -/
lemma last_mem_corner (hh : s.fbPixperline.toNat < h) :
    (h - 1) * s.fbPixperline.toNat + (h - 1) ∈ corner s h h ∧
      h * s.fbPixperline.toNat ≤ (h - 1) * s.fbPixperline.toNat + (h - 1) := by
  refine ⟨⟨h - 1, by omega, h - 1, by omega, rfl⟩, ?_⟩
  calc h * s.fbPixperline.toNat = (h - 1 + 1) * s.fbPixperline.toNat := by
        rw [Nat.sub_add_cancel (by omega)]
    _ = (h - 1) * s.fbPixperline.toNat + s.fbPixperline.toNat := Nat.succ_mul _ _
    _ ≤ (h - 1) * s.fbPixperline.toNat + (h - 1) := by omega

/-- **The picture.** On a screen whose measures the counters can reach, `init` gets through its
loop: the square is green, what the screen has besides has the colour of the background, and the
other pixels are as they were. It stores nothing behind the framebuffer exactly if the screen is
not higher than its scan lines are long. -/
theorem initPicture_drawn (s : Screen) (hline : s.fbW ≤ s.fbPixperline)
    (hW : s.fbW.toNat < 2 ^ 31) (hH : s.fbH.toNat + 1 < 2 ^ 31) :
    (∀ px, ∃ px', initPicture s px = some px' ∧ IsPicture s px px') ∧
      ((∀ px px', initPicture s px = some px' →
          ∀ k ≥ s.fbH.toNat * s.fbPixperline.toNat, px' k = px k) ↔
        s.fbH ≤ s.fbPixperline) := by
  refine ⟨initPicture_eq_some hW hH, fun hinside => ?_, fun hle px px' hpx' k hk => ?_⟩
  · by_contra hlt
    obtain ⟨px', hpx', hpicture⟩ := initPicture_eq_some hW hH fun _ => 0
    obtain ⟨hmem, hbehind⟩ := last_mem_corner (UInt32.not_le.mp hlt)
    have hgreen := hpicture.square _ hmem
    rw [hinside _ px' hpx' _ hbehind] at hgreen
    exact absurd hgreen (by decide)
  · obtain ⟨px₁, hpx₁, hpicture⟩ := initPicture_eq_some hW hH px
    obtain rfl : px' = px₁ := Option.some.inj (hpx'.symm.trans hpx₁)
    refine hpicture.kept k (fun hmem => ?_) fun hmem => ?_
    · exact absurd (lt_of_mem_corner hline hmem) (Nat.not_lt.mpr hk)
    · exact absurd (lt_of_mem_corner hle hmem) (Nat.not_lt.mpr hk)

/-- A screen of 640 by 480 pixels. -/
theorem initPicture_drawn_vga :
    (∀ px, ∃ px', initPicture ⟨640, 480, 640⟩ px = some px' ∧ IsPicture ⟨640, 480, 640⟩ px px') ∧
      ((∀ px px', initPicture ⟨640, 480, 640⟩ px = some px' →
          ∀ k ≥ (480 : UInt32).toNat * (640 : UInt32).toNat, px' k = px k) ↔
        (480 : UInt32) ≤ 640) :=
  initPicture_drawn ⟨640, 480, 640⟩ (by decide) (by decide) (by decide)

/-- Two columns and three rows: the last square runs over its scan lines. -/
example : (initPicture ⟨2, 3, 2⟩ fun _ => 0).map (fun px => (List.range 8).map px) =
    some [green, green, green, green, green, green, green, 0] := by decide

end FlameOS.Scene
