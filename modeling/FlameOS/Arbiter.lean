import FlameOS.Runs
import Mathlib.Data.List.Induction
import Mathlib.Data.List.Nodup
import Mathlib.Logic.Function.Basic

/-!
Requests on lines of fixed priority, which are served one at a time: always the first one that is
enabled. Requests and what is enabled come from outside, at any time.

A line stays requested until it is served. One that is enabled waits for the lines before it only,
so the others served in the meantime are no more than those that were requested before it, and
those that came to be.
-/

namespace FlameOS.Arbiter

open FlameOS.Runs

variable {ι : Type*} [DecidableEq ι]

@[ext]
structure State (ι : Type*) where
  requested : ι → Bool
  enabled : ι → Bool

inductive Label (ι : Type*)
  | raise (i : ι)
  | serve (i : ι)
  | enable (e : ι → Bool)

variable (order : List ι)

def next (s : State ι) : Option ι := order.find? fun i => s.requested i && s.enabled i

inductive Step : State ι → Label ι → State ι → Prop
  | raise (s : State ι) (i : ι) :
      Step s (.raise i) { s with requested := Function.update s.requested i true }
  | serve {s : State ι} {i : ι} (h : next order s = some i) :
      Step s (.serve i) { s with requested := Function.update s.requested i false }
  | enable (s : State ι) (e : ι → Bool) : Step s (.enable e) { s with enabled := e }

variable {order} {P : State ι → Prop} {s t : State ι} {i j : ι} {l : Label ι}
  {ls : List (Label ι)}

/-! ### What is requested -/

/-- What a label makes of the request of a line. -/
def Label.sets : Label ι → ι → Option Bool
  | .raise i, j => if i = j then some true else none
  | .serve i, j => if i = j then some false else none
  | .enable _, _ => none

lemma Step.requested (h : Step order s l t) (j : ι) :
    t.requested j = (l.sets j).getD (s.requested j) := by
  cases h with
  | raise i =>
    by_cases hj : i = j
    · subst hj
      simp [Label.sets]
    · simp [Label.sets, hj, Function.update_of_ne (Ne.symm hj)]
  | @serve i hi =>
    by_cases hj : i = j
    · subst hj
      simp [Label.sets]
    · simp [Label.sets, hj, Function.update_of_ne (Ne.symm hj)]
  | enable e => rfl

/-- Settings that come one after the other: the last one counts. -/
lemma foldl_getD {α β : Type*} (f : α → Option β) (as : List α) (b : β) :
    as.foldl (fun b a => (f a).getD b) b = (as.reverse.findSome? f).getD b := by
  induction as using List.reverseRecOn with
  | nil => rfl
  | append_singleton as a ih =>
    rw [List.foldl_append, ih, List.reverse_append, List.reverse_singleton, List.singleton_append,
      List.foldl_cons, List.foldl_nil, List.findSome?_cons]
    cases f a
    · rfl
    · rfl

/-- **No request is lost.** A line is requested if the last thing that happened to it is a request,
or if nothing did and it was requested before. -/
lemma requested_of_run (h : Run (Step order) P s ls t) (j : ι) :
    t.requested j = ls.foldl (fun b l => (l.sets j).getD b) (s.requested j) := by
  induction h with
  | refl s => rfl
  | step _ hstep _ ih => rw [ih, hstep.requested j, List.foldl_cons]

/-! ### Waiting -/

def before (order : List ι) (i : ι) : List ι := order.takeWhile (· ≠ i)

def ahead (order : List ι) (s : State ι) (i : ι) : ℕ := (before order i).countP s.requested

def Label.isServe : Label ι → Bool
  | .serve _ => true
  | _ => false

def Label.raises (is : List ι) : Label ι → Bool
  | .raise i => decide (i ∈ is)
  | _ => false

lemma countP_update_of_notMem {is : List ι} (p : ι → Bool) (b : Bool) (hi : i ∉ is) :
    is.countP (Function.update p i b) = is.countP p := by
  apply List.countP_congr
  intro j hj
  have hne : j ≠ i := fun h => hi (h ▸ hj)
  rw [Function.update_of_ne hne]

lemma countP_update_of_mem {is : List ι} (hnodup : is.Nodup) (p : ι → Bool) (b : Bool)
    (hi : i ∈ is) :
    is.countP (Function.update p i b) + (p i).toNat = is.countP p + b.toNat := by
  obtain ⟨l₁, l₂, rfl⟩ := List.append_of_mem hi
  rw [List.nodup_append, List.nodup_cons] at hnodup
  obtain ⟨-, ⟨h₂, -⟩, hdisj⟩ := hnodup
  have h₁ : i ∉ l₁ := fun h => hdisj i h i List.mem_cons_self rfl
  rw [List.countP_append, List.countP_append, List.countP_cons, List.countP_cons,
    countP_update_of_notMem p b h₁, countP_update_of_notMem p b h₂, Function.update_self]
  cases p i
  · cases b
    · simp
    · simp
      omega
  · cases b
    · simp
      omega
    · simp

/-- While a line is requested and enabled, no line behind it is served. -/
lemma mem_before_of_next (hi : i ∈ order) (hreq : s.requested i = true)
    (hen : s.enabled i = true) (h : next order s = some j) :
    j = i ∨ j ∈ before order i ∧ s.requested j = true := by
  obtain ⟨l, hl⟩ : ∃ l, order = before order i ++ i :: l := by
    obtain ⟨l₁, l₂, hsplit, hnot⟩ := List.eq_append_cons_of_mem hi
    refine ⟨l₂, ?_⟩
    have hall : ∀ k ∈ l₁, decide (k ≠ i) = true := fun k hk =>
      decide_eq_true fun h => hnot (h ▸ hk)
    have hbefore : before order i = l₁ := by
      rw [before, hsplit, List.takeWhile_append_of_pos hall]
      simp
    rw [hbefore, hsplit]
  rw [next, hl, List.find?_append, List.find?_cons_of_pos (by simp [hreq, hen])] at h
  rcases hfind : (before order i).find? fun k => s.requested k && s.enabled k with _ | k
  · rw [hfind, Option.none_or] at h
    exact Or.inl (Option.some.inj h).symm
  · rw [hfind, Option.some_or] at h
    obtain rfl := Option.some.inj h
    have hk := List.find?_some hfind
    rw [Bool.and_eq_true] at hk
    exact Or.inr ⟨List.mem_of_find?_eq_some hfind, hk.1⟩

/-- One step: the lines ahead become fewer by one that is served, and more by one that is new. -/
lemma Step.ahead (h : Step order s l t) (hnodup : order.Nodup) (hi : i ∈ order)
    (hreq : s.requested i = true) (hen : s.enabled i = true) (hl : l ≠ .serve i) :
    l.isServe.toNat + ahead order t i ≤ ahead order s i + (l.raises (before order i)).toNat := by
  have hbefore : (before order i).Nodup := hnodup.sublist (List.takeWhile_sublist _)
  unfold Arbiter.ahead
  cases h with
  | raise j =>
    by_cases hj : j ∈ before order i
    · have hcount := countP_update_of_mem hbefore s.requested true hj
      simp only [Label.isServe, Label.raises, hj, decide_true, Bool.toNat_true,
        Bool.toNat_false] at hcount ⊢
      omega
    · simp [Label.isServe, countP_update_of_notMem s.requested true hj]
  | @serve j hnext =>
    rcases mem_before_of_next hi hreq hen hnext with rfl | ⟨hj, hjreq⟩
    · exact absurd rfl hl
    · have hcount := countP_update_of_mem hbefore s.requested false hj
      rw [hjreq] at hcount
      simp only [Label.isServe, Label.raises, Bool.toNat_true, Bool.toNat_false] at hcount ⊢
      omega
  | enable e => simp [Label.isServe]

/-- **Bounded waiting.** While a line waits, enabled and not served, the others served are no more
than the requests ahead of it at the start, and those for lines before it that come in. -/
lemma waiting_of_run
    (h : Run (Step order) (fun s => s.requested i = true ∧ s.enabled i = true) s ls t)
    (hnodup : order.Nodup) (hi : i ∈ order) (hls : Label.serve i ∉ ls) :
    ls.countP Label.isServe + ahead order t i ≤
      ahead order s i + ls.countP (Label.raises (before order i)) := by
  induction h with
  | refl s => simp
  | @step s t u l ls hP hstep _ ih =>
    rw [List.mem_cons, not_or] at hls
    have hone := hstep.ahead hnodup hi hP.1 hP.2 (Ne.symm hls.1)
    have hrest := ih hls.2
    rw [List.countP_cons, List.countP_cons]
    cases hserve : l.isServe
    · cases hraises : l.raises (before order i)
      · simp [hserve, hraises] at hone ⊢
        omega
      · simp [hserve, hraises] at hone ⊢
        omega
    · cases hraises : l.raises (before order i)
      · simp [hserve, hraises] at hone ⊢
        omega
      · simp [hserve, hraises] at hone ⊢
        omega

/-! ### Progress -/

def waiting (order : List ι) (s : State ι) : List ι :=
  order.filter fun i => s.requested i && s.enabled i

omit [DecidableEq ι] in
lemma next_eq_head? (s : State ι) : next order s = (waiting order s).head? :=
  (List.head?_filter ..).symm

/-- **Progress.** With nothing new, all lines that can be served are, in their order, and then
there is none left. -/
lemma exists_run_waiting (hnodup : order.Nodup) (s : State ι) :
    ∃ t, Run (Step order) (fun _ => True) s ((waiting order s).map .serve) t ∧ next order t = none ∧
      t.enabled = s.enabled := by
  induction hw : waiting order s generalizing s with
  | nil =>
    refine ⟨s, .refl s, ?_, rfl⟩
    rw [next_eq_head?, hw]
    rfl
  | cons i is ih =>
    have hnext : next order s = some i := by
      rw [next_eq_head?, hw]
      rfl
    have hnot : i ∉ is := by
      have hn : (waiting order s).Nodup := hnodup.filter _
      rw [hw] at hn
      exact (List.nodup_cons.mp hn).1
    have hrest : waiting order { s with requested := Function.update s.requested i false } = is := by
      have hfilter : waiting order { s with requested := Function.update s.requested i false } =
          (waiting order s).filter (· ≠ i) := by
        unfold waiting
        rw [List.filter_filter]
        apply List.filter_congr
        intro j _
        by_cases hj : j = i
        · simp [hj]
        · simp [hj]
      have hself : is.filter (· ≠ i) = is :=
        List.filter_eq_self.mpr fun j hj => decide_eq_true fun h => hnot (h ▸ hj)
      rw [hfilter, hw, List.filter_cons_of_neg (by simp), hself]
    obtain ⟨t, hrun, hnone, hen⟩ := ih _ hrest
    exact ⟨t, .step trivial (.serve hnext) hrun, hnone, hen⟩

end FlameOS.Arbiter
