import Mathlib.Data.Set.Function
import Mathlib.Data.List.Range
import Mathlib.Logic.Nontrivial.Basic

/-!
Writes to a memory, one after the other. Each has a place and a value, and of those to one place
the last one counts.

Two ways to go through the same values do the same to every memory exactly if they go to the same
places, as long as one of them never comes back to a place.
-/

namespace FlameOS.Writes

variable {ι κ ν : Type*} [DecidableEq κ]

/-- The memory `f` after writes of the values `v` to the places `p`. -/
def draw (p : ι → κ) (v : ι → ν) (is : List ι) (f : κ → ν) : κ → ν :=
  is.foldl (fun f i => Function.update f (p i) (v i)) f

variable {p q : ι → κ} {v w : ι → ν} {is : List ι} {f : κ → ν} {k : κ}

@[simp] lemma draw_nil (p : ι → κ) (v : ι → ν) (f : κ → ν) : draw p v [] f = f := rfl

@[simp] lemma draw_cons (p : ι → κ) (v : ι → ν) (i : ι) (is : List ι) (f : κ → ν) :
    draw p v (i :: is) f = draw p v is (Function.update f (p i) (v i)) := rfl

lemma draw_congr (hp : ∀ i ∈ is, p i = q i) (hv : ∀ i ∈ is, v i = w i) :
    draw p v is f = draw q w is f :=
  List.foldl_ext _ _ _ fun f i hi => by rw [hp i hi, hv i hi]

lemma draw_of_notMem (h : ∀ i ∈ is, p i ≠ k) : draw p v is f k = f k := by
  induction is generalizing f with
  | nil => rfl
  | cons i is ih =>
    rw [draw_cons, ih fun j hj => h j (List.mem_cons_of_mem _ hj),
      Function.update_of_ne (h i List.mem_cons_self).symm]

lemma draw_cases (p : ι → κ) (v : ι → ν) (is : List ι) (f : κ → ν) (k : κ) :
    draw p v is f k = f k ∨ ∃ i ∈ is, p i = k ∧ draw p v is f k = v i := by
  induction is generalizing f with
  | nil => exact Or.inl rfl
  | cons i is ih =>
    rw [draw_cons]
    rcases ih (Function.update f (p i) (v i)) with h | ⟨j, hj, hk, h⟩
    · by_cases hi : p i = k
      · subst hi
        rw [Function.update_self] at h
        exact Or.inr ⟨i, List.mem_cons_self, rfl, h⟩
      · rw [Function.update_of_ne (Ne.symm hi)] at h
        exact Or.inl h
    · exact Or.inr ⟨j, List.mem_cons_of_mem _ hj, hk, h⟩

def Apart (p : ι → κ) (is : List ι) : Prop := Set.InjOn p {i | i ∈ is}

lemma draw_of_mem (hp : Apart p is) {i : ι} (hi : i ∈ is) : draw p v is f (p i) = v i := by
  induction is generalizing f with
  | nil => exact absurd hi List.not_mem_nil
  | cons j is ih =>
    have htail : Apart p is := hp.mono fun _ h => List.mem_cons_of_mem _ h
    rw [draw_cons]
    by_cases hmem : i ∈ is
    · exact ih htail hmem
    · obtain rfl : i = j := (List.mem_cons.mp hi).resolve_right hmem
      rw [draw_of_notMem fun l hl hli => hmem ?_, Function.update_self]
      rwa [← hp (List.mem_cons_of_mem _ hl) List.mem_cons_self hli]

lemma place_of_draw [DecidableEq ι] {a b : ν} (hab : a ≠ b) {i : ι}
    (h : draw q (fun j => if j = i then a else b) is (fun _ => b) k = a) : q i = k := by
  rcases draw_cases q (fun j => if j = i then a else b) is (fun _ => b) k with h' | ⟨j, -, hk, h'⟩
  · exact absurd (h.symm.trans h') hab
  · by_cases hj : j = i
    · rwa [← hj]
    · rw [h, if_neg hj] at h'
      exact absurd h' hab

variable [Nontrivial ν]

/-- **The same picture.** -/
theorem draw_eq_iff (hp : Apart p is) :
    (∀ (v : ι → ν) (f : κ → ν), draw p v is f = draw q v is f) ↔ ∀ i ∈ is, p i = q i := by
  classical
  constructor
  · intro h i hi
    obtain ⟨a, b, hab⟩ := exists_pair_ne ν
    have hdraw := draw_of_mem (v := fun j => if j = i then a else b) (f := fun _ => b) hp hi
    rw [h, if_pos rfl] at hdraw
    exact (place_of_draw hab hdraw).symm
  · exact fun h v f => draw_congr h fun i _ => rfl

/-- **The right picture.** Every value ends up where it should, and nothing else changes, exactly
if each is written to its own place and no place is meant for two. -/
theorem draw_places_iff :
    (∀ (v : ι → ν) (f : κ → ν), (∀ i ∈ is, draw q v is f (p i) = v i) ∧
        ∀ k, (∀ i ∈ is, p i ≠ k) → draw q v is f k = f k) ↔
      (∀ i ∈ is, q i = p i) ∧ Apart p is := by
  classical
  constructor
  · intro h
    obtain ⟨a, b, hab⟩ := exists_pair_ne ν
    refine ⟨fun i hi => ?_, fun i hi j hj hij => ?_⟩
    · have hdraw := (h (fun j => if j = i then a else b) fun _ => b).1 i hi
      rw [if_pos rfl] at hdraw
      exact place_of_draw hab hdraw
    · -- two values for one place
      by_contra hne
      have hi' := (h (fun l => if l = i then a else b) fun _ => b).1 i hi
      have hj' := (h (fun l => if l = i then a else b) fun _ => b).1 j hj
      rw [hij, hj', if_pos rfl, if_neg (Ne.symm hne)] at hi'
      exact hab hi'.symm
  · rintro ⟨hplaces, hp⟩ v f
    have hdraw : draw q v is f = draw p v is f := draw_congr hplaces fun i _ => rfl
    rw [hdraw]
    exact ⟨fun i hi => draw_of_mem hp hi, fun k hk => draw_of_notMem hk⟩

omit [DecidableEq κ] [Nontrivial ν] in
/-- Two nested loops are one loop over the products. -/
lemma foldl_range_mul {β : Type*} (g : β → ℕ → β) (h w : ℕ) (b : β) :
    (List.range (h * w)).foldl g b = (List.range h).foldl
      (fun b i => (List.range w).foldl (fun b j => g b (i * w + j)) b) b := by
  induction h with
  | zero => simp
  | succ h ih =>
    rw [Nat.succ_mul, List.range_add, List.foldl_append, ih, List.range_succ, List.foldl_append,
      List.foldl_map]
    rfl

omit [Nontrivial ν] in
lemma draw_range_mul (p : ℕ → ℕ → κ) (v : ℕ → ν) (h w : ℕ) (f : κ → ν) :
    draw (fun k => p (k / w) (k % w)) v (List.range (h * w)) f = (List.range h).foldl
      (fun f i => (List.range w).foldl (fun f j => Function.update f (p i j) (v (i * w + j))) f) f := by
  unfold draw
  rw [foldl_range_mul]
  refine List.foldl_ext _ _ _ fun f i _ => List.foldl_ext _ _ _ fun f j hj => ?_
  have hlt : j < w := List.mem_range.mp hj
  have hdiv : (i * w + j) / w = i := by
    rw [Nat.add_comm, Nat.add_mul_div_right _ _ (by omega), Nat.div_eq_of_lt hlt, Nat.zero_add]
  have hmod : (i * w + j) % w = j := by
    rw [Nat.add_comm, Nat.add_mul_mod_self_right, Nat.mod_eq_of_lt hlt]
  dsimp only
  rw [hdiv, hmod]

end FlameOS.Writes
