import Mathlib.Data.List.Basic

/-!
Runs of a system with labelled steps.

What every step keeps a run keeps, and a run of one system is a run of another one if each of its
steps is, or each of those that a user of the other one takes. The statements of a program that others interrupt go their way between such steps.
-/

namespace FlameOS.Runs

variable {σ τ α β ι : Type*}

/-- Steps one after the other, all of them from states in which `P` holds. -/
inductive Run (step : σ → α → σ → Prop) (P : σ → Prop) : σ → List α → σ → Prop
  | refl (s : σ) : Run step P s [] s
  | step {s t u : σ} {a : α} {as : List α} (hP : P s) (h : step s a t) (hrun : Run step P t as u) :
      Run step P s (a :: as) u

/-- The statements of a program, with steps of others in front of each of them. -/
inductive Interleave (step : σ → α → σ → Prop) (exec : ι → σ → Option σ) :
    List ι → σ → List α → σ → Prop
  | done (s : σ) : Interleave step exec [] s [] s
  | exec {c : ι} {cs : List ι} {s t u : σ} {as : List α} (h : exec c s = some t)
      (hrest : Interleave step exec cs t as u) : Interleave step exec (c :: cs) s as u
  | step {c : ι} {cs : List ι} {s t u : σ} {a : α} {as : List α} (h : step s a t)
      (hrest : Interleave step exec (c :: cs) t as u) : Interleave step exec (c :: cs) s (a :: as) u

variable {step : σ → α → σ → Prop} {step' : τ → β → τ → Prop} {P Q I : σ → Prop} {s t u : σ}
  {a : α} {as as' : List α}

lemma Run.append (h : Run step P s as t) (h' : Run step P t as' u) : Run step P s (as ++ as') u := by
  induction h with
  | refl s => exact h'
  | step hP hstep _ ih => exact .step hP hstep (ih h')

/-- **Invariants.** What every step keeps, all states of a run have. -/
lemma Run.invariant (hI : ∀ s a t, I s → step s a t → I t) (h : Run step P s as t) (hs : I s) :
    I t ∧ Run step (fun s => P s ∧ I s) s as t := by
  induction h with
  | refl s => exact ⟨hs, .refl s⟩
  | @step s t u a as hP h _ ih =>
    have hrest := ih (hI s a t hs h)
    exact ⟨hrest.1, .step ⟨hP, hs⟩ h hrest.2⟩

/-- **Simulation.** If each step of the one system is one of the other between the images of its
states, then so are all runs, with labels that belong to each other. -/
lemma Run.simulate (f : σ → τ) (matches' : α → β → Prop) {P' : τ → Prop}
    (hstep : ∀ s a t, P s → step s a t → ∃ b, matches' a b ∧ step' (f s) b (f t))
    (hP : ∀ s, P s → P' (f s)) (h : Run step P s as t) :
    ∃ bs, List.Forall₂ matches' as bs ∧ Run step' P' (f s) bs (f t) := by
  induction h with
  | refl s => exact ⟨[], .nil, .refl _⟩
  | @step s t u a as hs h _ ih =>
    obtain ⟨b, hb, hstep⟩ := hstep s a t hs h
    obtain ⟨bs, hbs, hrun⟩ := ih
    exact ⟨b :: bs, .cons hb hbs, .step (hP s hs) hstep hrun⟩

/-- **Isolation.** If the steps of others keep what one user of a system sees, and its own steps
can be taken wherever it sees the same, then in every run its own steps are a run without the
others. -/
lemma Run.isolate (step' : τ → α → τ → Prop) (own : α → Bool) (R : σ → τ → Prop)
    (hown : ∀ s a t s', P s → step s a t → own a = true → R s s' → ∃ t', step' s' a t' ∧ R t t')
    (hother : ∀ s a t s', P s → step s a t → own a = false → R s s' → R t s')
    (h : Run step P s as t) {s' : τ} (hR : R s s') :
    ∃ t', Run step' (fun _ => True) s' (as.filter own) t' ∧ R t t' := by
  induction h generalizing s' with
  | refl s => exact ⟨s', .refl s', hR⟩
  | @step s t u a as hP h _ ih =>
    cases ha : own a with
    | true =>
      obtain ⟨t', hstep, hR'⟩ := hown s a t s' hP h ha hR
      obtain ⟨u', hrun, hRu⟩ := ih hR'
      rw [List.filter_cons_of_pos ha]
      exact ⟨u', .step trivial hstep hrun, hRu⟩
    | false =>
      rw [List.filter_cons_of_neg (by rw [ha]; exact Bool.false_ne_true)]
      exact ih (hother s a t s' hP h ha hR)

/-- With nothing in between, the statements have the effect that they have alone. -/
lemma Interleave.of_foldlM {exec : ι → σ → Option σ} {cs : List ι}
    (h : cs.foldlM (fun s c => exec c s) s = some t) : Interleave step exec cs s [] t := by
  induction cs generalizing s with
  | nil =>
    obtain rfl := Option.some.inj h
    exact .done s
  | cons c cs ih =>
    rw [List.foldlM_cons] at h
    obtain ⟨u, hc, hcs⟩ := Option.bind_eq_some_iff.mp h
    exact .exec hc (ih hcs)

end FlameOS.Runs
