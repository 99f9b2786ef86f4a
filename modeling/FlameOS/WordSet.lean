import Mathlib

/-!
A set of naturals kept as the bits of an array of `w`-bit words: `k` is a member when bit
`k % w` of word `k / w` is set.
-/

namespace FlameOS.WordSet

variable {w : ℕ} {m : ℕ → ℕ}

def mem (w : ℕ) (m : ℕ → ℕ) (k : ℕ) : Bool := (m (k / w)).testBit (k % w)

def insert (w : ℕ) (m : ℕ → ℕ) (k : ℕ) : ℕ → ℕ :=
  Function.update m (k / w) (m (k / w) ||| 1 <<< (k % w))

def erase (w : ℕ) (m : ℕ → ℕ) (k : ℕ) : ℕ → ℕ :=
  Function.update m (k / w) (m (k / w) &&& ((2 ^ w - 1) ^^^ 1 <<< (k % w)))

lemma and_shift_ne_zero (n b : ℕ) : n &&& 1 <<< b ≠ 0 ↔ n.testBit b = true := by
  rw [Nat.one_shiftLeft, Nat.and_two_pow]
  cases n.testBit b <;> simp

lemma div_mod_inj {j k : ℕ} (hd : j / w = k / w) (hm : j % w = k % w) : j = k := by
  rw [← Nat.div_add_mod j w, ← Nat.div_add_mod k w, hd, hm]

lemma mem_insert (j k : ℕ) :
    mem w (insert w m k) j = (mem w m j || decide (j = k)) := by
  unfold mem insert
  by_cases hd : j / w = k / w
  · rw [hd, Function.update_self, Nat.testBit_or, Nat.one_shiftLeft, Nat.testBit_two_pow]
    congr 1
    rw [decide_eq_decide]
    exact ⟨fun h => div_mod_inj hd h.symm, fun h => by rw [h]⟩
  · have hne : j ≠ k := fun h => hd (by rw [h])
    rw [Function.update_of_ne hd]
    simp [hne]

lemma mem_erase (hw : 0 < w) (j k : ℕ) :
    mem w (erase w m k) j = (mem w m j && !decide (j = k)) := by
  unfold mem erase
  by_cases hd : j / w = k / w
  · have hj : j % w < w := Nat.mod_lt _ hw
    rw [hd, Function.update_self, Nat.testBit_and, Nat.testBit_xor, Nat.one_shiftLeft,
      Nat.testBit_two_pow, Nat.testBit_two_pow_sub_one]
    have : decide (k % w = j % w) = decide (j = k) := by
      rw [decide_eq_decide]
      exact ⟨fun h => div_mod_inj hd h.symm, fun h => by rw [h]⟩
    rw [this]
    simp [hj]
  · have hne : j ≠ k := fun h => hd (by rw [h])
    rw [Function.update_of_ne hd]
    simp [hne]

@[simp] lemma mem_zero (k : ℕ) : mem w (fun _ => 0) k = false := by simp [mem]

end FlameOS.WordSet
