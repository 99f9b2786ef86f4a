import Mathlib

/-!
Machine words. Addresses and sizes are naturals below `2 ^ 64`; the operations of the
source that can wrap are the ones named here.
-/

namespace FlameOS.Word

def add64 (a b : ℕ) : ℕ := (a + b) % 2 ^ 64

def sub64 (a b : ℕ) : ℕ := (a + 2 ^ 64 - b) % 2 ^ 64

def PAGE_SIZE : ℕ := 4096

def CEILING (a b : ℕ) : ℕ := (a + b - 1) % 2 ^ 64 / b

lemma add64_eq {a b : ℕ} (h : a + b < 2 ^ 64) : add64 a b = a + b := Nat.mod_eq_of_lt h

lemma sub64_eq {a b : ℕ} (hb : b ≤ a) (ha : a < 2 ^ 64) : sub64 a b = a - b := by
  unfold sub64; omega

lemma ceiling_page {a : ℕ} (h : a + PAGE_SIZE ≤ 2 ^ 64) :
    CEILING a PAGE_SIZE = (a + 4095) / 4096 := by
  unfold CEILING PAGE_SIZE at *
  rw [Nat.mod_eq_of_lt (by omega)]; rfl

end FlameOS.Word
