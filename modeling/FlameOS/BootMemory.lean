import FlameOS.Word
import FlameOS.MemoryMap
import Mathlib

/-!
`memcpy` and `memzero` of the bootloader, on the whole memory, with the addresses that they store
to. Pointers wrap at the end of the memory.
-/

namespace FlameOS.BootMemory

open FlameOS.Word
open FlameOS.MemoryMap (Bytes memcpyLoop)

/-- The memory, and the addresses that have been stored to, the latest first. -/
structure Ram where
  mem : Bytes
  stores : List ℕ

def Ram.store (r : Ram) (a : ℕ) (v : UInt8) : Ram := ⟨Function.update r.mem a v, a :: r.stores⟩

def memcpy (len d s : ℕ) (r : Ram) : Ram :=
  memcpyLoop (add64 · 1) Ram.mem Ram.store len d s r

def memzero : ℕ → ℕ → Ram → Ram
  | 0, _, r => r
  | len + 1, m, r => memzero len (add64 m 1) (r.store m 0)

/-- A block of `n` bytes at `d` has the bytes `f`, and only it has been stored to. -/
structure Stored (r r' : Ram) (d n : ℕ) (f : ℕ → UInt8) : Prop where
  mem : ∀ x, r'.mem x = if d ≤ x ∧ x < d + n then f (x - d) else r.mem x
  stores : ∀ a ∈ r'.stores, a ∈ r.stores ∨ d ≤ a ∧ a < d + n

namespace Stored

variable {r r₁ r' : Ram} {d n k x : ℕ} {f g : ℕ → UInt8}

lemma zero (r : Ram) (d : ℕ) (f : ℕ → UInt8) : Stored r r d 0 f :=
  ⟨fun _ => (if_neg (by omega)).symm, fun _ ha => Or.inl ha⟩

lemma mem_of_mem (h : Stored r r' d n f) (hk : k < n) : r'.mem (d + k) = f k := by
  rw [h.mem, if_pos (by omega), Nat.add_sub_cancel_left]

lemma mem_of_notMem (h : Stored r r' d n f) (hx : x < d ∨ d + n ≤ x) : r'.mem x = r.mem x := by
  rw [h.mem, if_neg (by omega)]

lemma congr (h : Stored r r' d n f) (hfg : ∀ k < n, f k = g k) : Stored r r' d n g := by
  refine ⟨fun x => ?_, h.stores⟩
  rw [h.mem]
  by_cases hx : d ≤ x ∧ x < d + n
  · rw [if_pos hx, if_pos hx, hfg _ (by omega)]
  · rw [if_neg hx, if_neg hx]

lemma trans (h : Stored r r₁ d n f) (h' : Stored r₁ r' (d + n) k g) :
    Stored r r' d (n + k) fun i => if i < n then f i else g (i - n) := by
  refine ⟨fun x => ?_, fun a ha => ?_⟩
  · rw [h'.mem, h.mem]
    by_cases hx : d ≤ x ∧ x < d + n
    · rw [if_neg (by omega), if_pos hx, if_pos (by omega), if_pos (by omega)]
    · rw [if_neg hx]
      by_cases hx' : d + n ≤ x ∧ x < d + n + k
      · have hsub : x - d - n = x - (d + n) := by omega
        rw [if_pos hx', if_pos (by omega), if_neg (by omega), hsub]
      · rw [if_neg hx', if_neg (by omega)]
  · rcases h'.stores a ha with ha | ha
    · rcases h.stores a ha with ha | ha
      · exact Or.inl ha
      · exact Or.inr (by omega)
    · exact Or.inr (by omega)

lemma store (r : Ram) (a : ℕ) (v : UInt8) : Stored r (r.store a v) a 1 fun _ => v := by
  refine ⟨fun x => ?_, fun b hb => ?_⟩
  · by_cases hx : x = a
    · subst hx
      rw [if_pos (by omega)]
      exact Function.update_self ..
    · rw [if_neg (by omega)]
      exact Function.update_of_ne hx ..
  · rcases List.mem_cons.mp hb with rfl | hb
    · exact Or.inr (by omega)
    · exact Or.inl hb

end Stored

lemma add64_mod (a b : ℕ) : add64 (a % 2 ^ 64) b = (a + b) % 2 ^ 64 := Nat.mod_add_mod a _ b

lemma memzero_stored {d n : ℕ} (hd : d + n ≤ 2 ^ 64) (r : Ram) :
    Stored r (memzero n (d % 2 ^ 64) r) d n fun _ => 0 := by
  induction n generalizing d r with
  | zero => exact Stored.zero r d _
  | succ n ih =>
    rw [memzero, add64_mod, Nat.mod_eq_of_lt (by omega : d < 2 ^ 64)]
    have h := (Stored.store r d 0).trans (ih (by omega) (r.store d 0))
    rw [Nat.add_comm 1 n] at h
    exact h.congr fun _ _ => ite_self _

lemma memcpy_stored {d s n : ℕ} (hd : d + n ≤ 2 ^ 64) (hs : s + n ≤ 2 ^ 64)
    (hapart : d + n ≤ s ∨ s + n ≤ d) (r : Ram) :
    Stored r (memcpy n (d % 2 ^ 64) (s % 2 ^ 64) r) d n fun k => r.mem (s + k) := by
  induction n generalizing d s r with
  | zero => exact Stored.zero r d _
  | succ n ih =>
    have hsd : s % 2 ^ 64 = s := Nat.mod_eq_of_lt (by omega)
    have hdd : d % 2 ^ 64 = d := Nat.mod_eq_of_lt (by omega)
    rw [memcpy, memcpyLoop, add64_mod, add64_mod, hsd, hdd, ← memcpy]
    have hfirst := Stored.store r d (r.mem s)
    have h := hfirst.trans
      (ih (d := d + 1) (s := s + 1) (by omega) (by omega) (by omega) (r.store d (r.mem s)))
    rw [Nat.add_comm 1 n] at h
    refine h.congr fun k hk => ?_
    rcases Nat.eq_zero_or_pos k with rfl | hpos
    · rw [if_pos Nat.zero_lt_one, Nat.add_zero]
    · -- the byte stored is not one of those still to be read
      have hsum : s + 1 + (k - 1) = s + k := by omega
      rw [if_neg (by omega), hsum, hfirst.mem_of_notMem (by omega)]

end FlameOS.BootMemory
