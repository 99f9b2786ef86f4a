import Mathlib.Data.Fintype.Pigeonhole
import Mathlib.Logic.Relation
import Mathlib.Order.WellFounded

/-!
Loops: a state that is taken to the next one, or ends the loop with a result.

A loop that has an invariant under which there is always a next state does not end, nor does one
that comes back to a state, or to one that differs from it in nothing that matters. One that does
not end has an infinite run, in which a bounded measure that never falls is constant from some
point on, and in which of finitely many values one comes back.
-/

namespace FlameOS.StepLoop

open Relation

variable {σ ε : Type*} (step : σ → Except ε σ)

def Next (s s' : σ) : Prop := step s = .ok s'

/-- The loop ends from the state on, with some result. -/
def Halts (s : σ) : Prop := ∃ s' e, ReflTransGen (Next step) s s' ∧ step s' = .error e

/-- The result of the loop, unless `fuel` runs out. -/
def rounds : ℕ → σ → Option ε
  | 0, _ => none
  | fuel + 1, s =>
    match step s with
    | .error e => some e
    | .ok s => rounds fuel s

def states : ℕ → σ → List σ
  | 0, _ => []
  | fuel + 1, s => s :: match step s with
    | .error _ => []
    | .ok s => states fuel s

/-- `n` times from one state to the next one. -/
def Steps (R : σ → σ → Prop) : ℕ → σ → σ → Prop
  | 0, s, s' => s = s'
  | n + 1, s, s' => ∃ t, R s t ∧ Steps R n t s'

variable {step} {s s' t : σ} {n m : ℕ} {R : σ → σ → Prop}

lemma Next.unique (h : Next step s s') (h' : Next step s t) : s' = t :=
  Except.ok.inj (h.symm.trans h')

lemma not_halts_of_invariant (P : σ → Prop) (hP : ∀ s, P s → ∃ s', Next step s s' ∧ P s')
    (hs : P s) : ¬ Halts step s := by
  rintro ⟨s', e, hreach, he⟩
  have hs' : P s' := by
    clear he
    induction hreach with
    | refl => exact hs
    | tail _ hnext ih =>
      obtain ⟨t, ht, hPt⟩ := hP _ ih
      exact ht.unique hnext ▸ hPt
  obtain ⟨t, ht, -⟩ := hP s' hs'
  have hok : Except.error e = Except.ok t := he.symm.trans ht
  cases hok

lemma Steps.trans (h : Steps R n s s') (h' : Steps R m s' t) : Steps R (n + m) s t := by
  induction n generalizing s with
  | zero =>
    cases h
    rwa [Nat.zero_add]
  | succ n ih =>
    obtain ⟨r, hr, hrest⟩ := h
    rw [Nat.succ_add]
    exact ⟨r, hr, ih hrest⟩

lemma Steps.mono {Q : σ → σ → Prop} (hRQ : ∀ s s', R s s' → Q s s') (h : Steps R n s s') :
    Steps Q n s s' := by
  induction n generalizing s with
  | zero => exact h
  | succ n ih =>
    obtain ⟨t, ht, hrest⟩ := h
    exact ⟨t, hRQ s t ht, ih hrest⟩

lemma Steps.reaches (h : Steps R n s s') : ReflTransGen R s s' := by
  induction n generalizing s with
  | zero =>
    cases h
    exact .refl
  | succ n ih =>
    obtain ⟨t, ht, hrest⟩ := h
    exact .head ht (ih hrest)

lemma rounds_eq_some {e : ε} :
    (∃ fuel, rounds step fuel s = some e) ↔
      ∃ s', ReflTransGen (Next step) s s' ∧ step s' = .error e := by
  constructor
  · rintro ⟨fuel, h⟩
    induction fuel generalizing s with
    | zero => cases h
    | succ fuel ih =>
      rw [rounds] at h
      split at h
      · rename_i e' he
        cases h
        exact ⟨s, .refl, he⟩
      · rename_i s₁ hs₁
        obtain ⟨s', hs', he⟩ := ih h
        exact ⟨s', .head hs₁ hs', he⟩
  · rintro ⟨s', hs', he⟩
    induction hs' using ReflTransGen.head_induction_on with
    | refl => exact ⟨1, by rw [rounds, he]⟩
    | head hnext _ ih =>
      obtain ⟨fuel, hfuel⟩ := ih
      refine ⟨fuel + 1, ?_⟩
      rw [rounds, hnext]
      exact hfuel

lemma rounds_unique {e e' : ε} (h : rounds step n s = some e) (h' : rounds step m s = some e') :
    e = e' := by
  induction n generalizing m s with
  | zero => cases h
  | succ n ih =>
    rcases m with _ | m
    · cases h'
    rw [rounds] at h h'
    rcases hs : step s with e₁ | s₁
    · rw [hs] at h h'
      exact Option.some.inj (h.symm.trans h')
    · rw [hs] at h h'
      exact ih h h'

lemma mem_states {fuel : ℕ} {e : ε} (h : rounds step fuel s = some e)
    (hs : ReflTransGen (Next step) s s') : s' ∈ states step fuel s := by
  induction hs using ReflTransGen.head_induction_on generalizing fuel with
  | refl =>
    rcases fuel with _ | fuel
    · cases h
    · exact List.mem_cons_self
  | head hnext _ ih =>
    rcases fuel with _ | fuel
    · cases h
    · rw [rounds, hnext] at h
      rw [states, hnext]
      exact List.mem_cons_of_mem _ (ih h)

/-- A loop that comes back to a state, up to a difference that does not matter, does not end. -/
lemma not_halts_of_cycle (E : σ → σ → Prop)
    (hE : ∀ s s' t, R s s' → E s t → ∃ t', Next step t t' ∧ E s' t')
    (h : Steps R (n + 1) s s') (hback : ∀ t, E s' t → E s t) (hs : E s s) : ¬ Halts step s := by
  refine not_halts_of_invariant (fun t => ∃ k r, Steps R (k + 1) r s' ∧ E r t) ?_ ⟨n, s, h, hs⟩
  rintro t ⟨k, r, ⟨u, hu, hrest⟩, ht⟩
  obtain ⟨t', hnext, ht'⟩ := hE r u t hu ht
  refine ⟨t', hnext, ?_⟩
  rcases k with _ | k
  · cases hrest
    exact ⟨n, s, h, hback t' ht'⟩
  · exact ⟨k, u, hrest, ht'⟩

/-- What comes before a state that the loop does not end from. -/
lemma not_halts_of_reaches (hreach : ReflTransGen (Next step) s s') (h : ¬ Halts step s') :
    ¬ Halts step s := by
  induction hreach using ReflTransGen.head_induction_on with
  | refl => exact h
  | head hnext _ ih =>
    rintro ⟨r, e, hr, he⟩
    rcases ReflTransGen.cases_head hr with rfl | ⟨u, hu, hrest⟩
    · have hok : Except.error e = Except.ok _ := he.symm.trans hnext
      cases hok
    · exact ih ⟨r, e, hnext.unique hu ▸ hrest, he⟩

lemma exists_run (h : ¬ Halts step s) :
    ∃ f : ℕ → σ, f 0 = s ∧ ∀ n, Next step (f n) (f (n + 1)) := by
  have hnext : ∀ s, ¬ Halts step s → ∃ s', Next step s s' ∧ ¬ Halts step s' := by
    intro s hs
    rcases hstep : step s with e | s'
    · exact absurd ⟨s, e, .refl, hstep⟩ hs
    · refine ⟨s', hstep, fun hhalts => hs ?_⟩
      obtain ⟨t, e, ht, he⟩ := hhalts
      exact ⟨t, e, .head hstep ht, he⟩
  choose g hg using hnext
  let f : ℕ → {s // ¬ Halts step s} := fun n =>
    Nat.rec ⟨s, h⟩ (fun _ t => ⟨g t.1 t.2, (hg t.1 t.2).2⟩) n
  exact ⟨fun n => (f n).1, rfl, fun n => (hg (f n).1 (f n).2).1⟩

section runs

variable {f : ℕ → σ}

lemma reaches_run (hf : ∀ n, Next step (f n) (f (n + 1))) (n : ℕ) :
    ReflTransGen (Next step) (f 0) (f n) := by
  induction n with
  | zero => exact .refl
  | succ n ih => exact ih.tail (hf n)

lemma steps_run (hf : ∀ n, R (f n) (f (n + 1))) (i n : ℕ) : Steps R n (f i) (f (i + n)) := by
  induction n generalizing i with
  | zero => exact rfl
  | succ n ih =>
    have hrest := ih (i + 1)
    rw [Nat.add_assoc, Nat.add_comm 1 n] at hrest
    exact ⟨f (i + 1), hf i, hrest⟩

/-- A measure that never falls and is bounded is constant from some point on. -/
lemma exists_constant (g : ℕ → ℕ) (hmono : ∀ n, g n ≤ g (n + 1)) (b : ℕ) (hb : ∀ n, g n ≤ b) :
    ∃ N, ∀ n, g (N + n) = g N := by
  have hmin := Function.argmin_le (fun n => b - g n)
  refine ⟨Function.argmin (fun n => b - g n), fun n => ?_⟩
  have hle := monotone_nat_of_le_succ hmono (Nat.le_add_right (Function.argmin fun n => b - g n) n)
  have hlast := hmin (Function.argmin (fun n => b - g n) + n)
  have h₁ := hb (Function.argmin fun n => b - g n)
  have h₂ := hb (Function.argmin (fun n => b - g n) + n)
  omega

/-- Of finitely many values one comes back. -/
lemma exists_again {α : Type*} [Finite α] (g : ℕ → α) : ∃ i n, g i = g (i + (n + 1)) := by
  obtain ⟨i, j, hne, heq⟩ := Finite.exists_ne_map_eq_of_infinite g
  rcases Nat.lt_or_gt_of_ne hne with hij | hji
  · obtain ⟨n, rfl⟩ := Nat.exists_eq_add_of_lt hij
    exact ⟨i, n, heq⟩
  · obtain ⟨n, rfl⟩ := Nat.exists_eq_add_of_lt hji
    exact ⟨j, n, heq.symm⟩

end runs

end FlameOS.StepLoop
