import Mathlib

/-!
Tries kept in a graph of nodes: `next t i` is the child of node `t` at index `i`. The nodes
within depth `d` of the root form a tree when no two paths of length at most `d` lead to one
node; the entries of the nodes at depth `d` are the values looked up.

Two updates are studied: hanging a fresh empty node below an empty entry, and rewriting one
entry of a node at depth `d`.
-/

namespace FlameOS.Trie

variable {T I : Type*}

/-- The node a path leads to. -/
def walk (next : T → I → Option T) (root : T) (π : List I) : Option T := π.foldlM next root

@[simp] lemma walk_nil (next : T → I → Option T) (root : T) : walk next root [] = some root := rfl

lemma walk_snoc (next : T → I → Option T) (root : T) (π : List I) (i : I) :
    walk next root (π ++ [i]) = (walk next root π).bind fun t => next t i := by
  simp [walk, List.foldlM_append]

lemma walk_snoc_eq_some {next : T → I → Option T} {root : T} {π : List I} {i : I} {x : T} :
    walk next root (π ++ [i]) = some x ↔ ∃ t, walk next root π = some t ∧ next t i = some x := by
  rw [walk_snoc, Option.bind_eq_some_iff]

lemma exists_snoc {ρ : List I} {d : ℕ} (hρ : ρ.length = d + 1) :
    ∃ σ j, ρ = σ ++ [j] ∧ σ.length = d := by
  rcases List.eq_nil_or_concat ρ with rfl | ⟨σ, j, rfl⟩
  · cases hρ
  · rw [List.concat_eq_append, List.length_append, List.length_singleton] at hρ
    exact ⟨σ, j, List.concat_eq_append, Nat.succ.inj hρ⟩

/-- A walk fails at one of the nodes on its way. -/
lemma walk_eq_none_iff {next : T → I → Option T} {root : T} {π : List I} :
    walk next root π = none ↔
      ∃ σ i ρ t, π = σ ++ i :: ρ ∧ walk next root σ = some t ∧ next t i = none := by
  induction π generalizing root with
  | nil =>
    refine iff_of_false (fun h => Option.some_ne_none _ h) ?_
    rintro ⟨σ, i, ρ, t, hπ, -⟩
    exact List.append_ne_nil_of_right_ne_nil σ (List.cons_ne_nil i ρ) hπ.symm
  | cons i π ih =>
    have hcons : ∀ π : List I, walk next root (i :: π) =
        (next root i).bind fun x => walk next x π := fun π => List.foldlM_cons
    rw [hcons]
    constructor
    · intro h
      rcases hi : next root i with _ | x
      · exact ⟨[], i, π, root, rfl, rfl, hi⟩
      · rw [hi, Option.bind_some, ih] at h
        obtain ⟨σ, j, ρ, t, rfl, hσ, hj⟩ := h
        refine ⟨i :: σ, j, ρ, t, rfl, ?_, hj⟩
        rw [hcons, hi, Option.bind_some, hσ]
    · rintro ⟨_ | ⟨j, σ⟩, k, ρ, t, hπ, hσ, hk⟩
      · obtain ⟨rfl, rfl⟩ := List.cons.inj hπ
        cases hσ
        rw [hk, Option.bind_none]
      · obtain ⟨rfl, rfl⟩ := List.cons.inj hπ
        rw [hcons] at hσ
        obtain ⟨x, hx, hσ⟩ := Option.bind_eq_some_iff.mp hσ
        rw [hx, Option.bind_some, ih]
        exact ⟨σ, k, ρ, t, rfl, hσ, hk⟩

/-- A walk that does not come to the entry `i` of the node `t` does not depend on it. -/
lemma walk_eq_of_avoid {next next' : T → I → Option T} {root t : T} {i : I} {π : List I}
    (hsame : ∀ x j, ¬ (x = t ∧ j = i) → next' x j = next x j)
    (havoid : ∀ σ ρ, π = σ ++ i :: ρ → walk next root σ ≠ some t) :
    walk next' root π = walk next root π := by
  induction π using List.reverseRecOn with
  | nil => rfl
  | append_singleton π j ih =>
    rw [walk_snoc, walk_snoc, ih fun σ ρ hπ => havoid σ (ρ ++ [j]) (by rw [hπ]; simp)]
    rcases hw : walk next root π with _ | x
    · rfl
    · rw [Option.bind_some, Option.bind_some]
      refine hsame x j ?_
      rintro ⟨rfl, rfl⟩
      exact havoid π [] rfl hw

/-- Entries that are taken away add no walk. -/
lemma walk_of_le {next next' : T → I → Option T} {root t : T} {π : List I}
    (hle : ∀ x j, next' x j = next x j ∨ next' x j = none) (hπ : walk next' root π = some t) :
    walk next root π = some t := by
  induction π using List.reverseRecOn generalizing t with
  | nil => exact hπ
  | append_singleton π j ih =>
    obtain ⟨x, hx, hj⟩ := walk_snoc_eq_some.mp hπ
    refine walk_snoc_eq_some.mpr ⟨x, ih hx, ?_⟩
    rcases hle x j with h | h
    · rw [← h, hj]
    · cases h.symm.trans hj

/-- The node is within depth `d`. -/
def Reached (next : T → I → Option T) (root : T) (d : ℕ) (t : T) : Prop :=
  ∃ π : List I, π.length ≤ d ∧ walk next root π = some t

/-- Within depth `d` the graph is a tree. -/
def Shaped (next : T → I → Option T) (root : T) (d : ℕ) : Prop :=
  ∀ π ρ : List I, π.length ≤ d → ρ.length ≤ d → ∀ t, walk next root π = some t →
    walk next root ρ = some t → π = ρ

variable {next next' : T → I → Option T} {root : T} {d : ℕ}

/-- In a tree no path leads back to the root. -/
lemma Shaped.ne_root (hs : Shaped next root d) {π : List I} {i : I} {x : T}
    (hlen : (π ++ [i]).length ≤ d) (hx : walk next root (π ++ [i]) = some x) : x ≠ root := by
  rintro rfl
  have h : π ++ [i] = [] := hs _ _ hlen (Nat.zero_le _) x hx rfl
  simp at h

/-- A root without entries is a tree. -/
lemma shaped_of_empty (h : ∀ i, next root i = none) : Shaped next root d := by
  have key : ∀ π t, walk next root π = some t → π = [] := by
    intro π
    cases π with
    | nil => simp
    | cons i π => simp [walk, List.foldlM_cons, h]
  intro π ρ _ _ t hπ hρ
  rw [key π t hπ, key ρ t hρ]

/-- How many nodes a path lacks. -/
def missing (next : T → I → Option T) : T → List I → ℕ
  | _, [] => 0
  | t, i :: is =>
    match next t i with
    | some x => missing next x is
    | none => is.length + 1

lemma missing_of_empty {t : T} (h : ∀ i, next t i = none) (is : List I) :
    missing next t is = is.length := by
  cases is with
  | nil => rfl
  | cons i is => simp [missing, h]

lemma walk_congr (h : ∀ t, Reached next root d t → ∀ i, next' t i = next t i) {π : List I}
    (hπ : π.length ≤ d + 1) : walk next' root π = walk next root π := by
  induction π using List.reverseRecOn with
  | nil => rfl
  | append_singleton π i ih =>
    rw [List.length_append, List.length_singleton] at hπ
    rw [walk_snoc, walk_snoc, ih (by omega)]
    rcases hw : walk next root π with _ | t
    · rfl
    · exact h t ⟨π, by omega, hw⟩ i

/-! ### Hanging a fresh node -/

/-- `next'` is `next` with the empty node `u` hung below entry `i` of `t`. -/
structure Hung (next next' : T → I → Option T) (t : T) (i : I) (u : T) : Prop where
  edge : next' t i = some u
  leaf : ∀ j, next' u j = none
  same : ∀ x j, x ≠ u → ¬ (x = t ∧ j = i) → next' x j = next x j

section hang

variable {t u : T} {i : I} {π : List I} (hh : Hung next next' t i u)
  (hs : Shaped next root d) (hπ : walk next root π = some t) (hd : π.length < d)
  (hn : next t i = none) (hu : ¬ Reached next root d u)

include hh hn hu

lemma walk_of_hung {ρ : List I} {x : T} (hρ : ρ.length ≤ d) (h : walk next root ρ = some x) :
    walk next' root ρ = some x := by
  induction ρ using List.reverseRecOn generalizing x with
  | nil => exact h
  | append_singleton ρ j ih =>
    rw [List.length_append, List.length_singleton] at hρ
    obtain ⟨y, hy, hx⟩ := walk_snoc_eq_some.mp h
    refine walk_snoc_eq_some.mpr ⟨y, ih (by omega) hy, ?_⟩
    rw [hh.same y j, hx]
    · rintro rfl
      exact hu ⟨ρ, by omega, hy⟩
    · rintro ⟨rfl, rfl⟩
      rw [hn] at hx
      cases hx

include hπ hd in
lemma walk_hung_self : walk next' root (π ++ [i]) = some u :=
  walk_snoc_eq_some.mpr ⟨t, walk_of_hung hh hn hu hd.le hπ, hh.edge⟩

include hs hπ hd

/-- The new walks are the old ones and the one to the fresh node. -/
lemma walk_hung_inv {ρ : List I} {x : T} (hρ : ρ.length ≤ d) (h : walk next' root ρ = some x) :
    walk next root ρ = some x ∨ (ρ = π ++ [i] ∧ x = u) := by
  induction ρ using List.reverseRecOn generalizing x with
  | nil => exact Or.inl h
  | append_singleton ρ j ih =>
    rw [List.length_append, List.length_singleton] at hρ
    obtain ⟨y, hy, hx⟩ := walk_snoc_eq_some.mp h
    rcases ih (by omega) hy with hy' | ⟨rfl, rfl⟩
    · by_cases hyt : y = t ∧ j = i
      · obtain ⟨rfl, rfl⟩ := hyt
        rw [hh.edge] at hx
        exact Or.inr ⟨by rw [hs ρ π (by omega) hd.le y hy' hπ], (Option.some.inj hx).symm⟩
      · have hyu : y ≠ u := by
          rintro rfl
          exact hu ⟨ρ, by omega, hy'⟩
        rw [hh.same y j hyu hyt] at hx
        exact Or.inl (walk_snoc_eq_some.mpr ⟨y, hy', hx⟩)
    · rw [hh.leaf] at hx
      cases hx

lemma reached_hung {x : T} : Reached next' root d x ↔ Reached next root d x ∨ x = u := by
  constructor
  · rintro ⟨ρ, hρ, h⟩
    rcases walk_hung_inv hh hs hπ hd hn hu hρ h with h | ⟨-, rfl⟩
    · exact Or.inl ⟨ρ, hρ, h⟩
    · exact Or.inr rfl
  · rintro (⟨ρ, hρ, h⟩ | rfl)
    · exact ⟨ρ, hρ, walk_of_hung hh hn hu hρ h⟩
    · exact ⟨π ++ [i], by simpa using hd, walk_hung_self hh hπ hd hn hu⟩

lemma shaped_hung : Shaped next' root d := by
  intro σ ρ hσ hρ x h1 h2
  rcases walk_hung_inv hh hs hπ hd hn hu hσ h1 with h1 | ⟨rfl, rfl⟩ <;>
    rcases walk_hung_inv hh hs hπ hd hn hu hρ h2 with h2 | ⟨rfl, h2'⟩
  · exact hs σ ρ hσ hρ x h1 h2
  · subst h2'
    exact absurd ⟨σ, hσ, h1⟩ hu
  · exact absurd ⟨ρ, hρ, h2⟩ hu
  · rfl

/-- No value changes: the fresh node has none. -/
lemma lookup_hung {ρ : List I} (hρ : ρ.length = d + 1) :
    walk next' root ρ = walk next root ρ := by
  obtain ⟨σ, j, rfl, hσ⟩ := exists_snoc hρ
  rw [walk_snoc, walk_snoc]
  rcases hw : walk next root σ with _ | y
  · rcases hw' : walk next' root σ with _ | y
    · rfl
    · rcases walk_hung_inv hh hs hπ hd hn hu (by omega) hw' with h | ⟨-, rfl⟩
      · rw [hw] at h
        cases h
      · simp [hh.leaf]
  · rw [walk_of_hung hh hn hu (by omega) hw, Option.bind_some, Option.bind_some]
    refine hh.same y j ?_ ?_
    · rintro rfl
      exact hu ⟨σ, by omega, hw⟩
    · rintro ⟨rfl, -⟩
      have := congrArg List.length (hs σ π (by omega) hd.le y hw hπ)
      omega

end hang

/-! ### Rewriting a value -/

section value

variable {p : T} {i : I} {π : List I}
  (hsame : ∀ x j, ¬ (x = p ∧ j = i) → next' x j = next x j)
  (hs : Shaped next root d) (hπ : walk next root π = some p) (hd : π.length = d)

include hsame hs hπ hd

lemma walk_value {ρ : List I} (hρ : ρ.length ≤ d) : walk next' root ρ = walk next root ρ := by
  induction ρ using List.reverseRecOn with
  | nil => rfl
  | append_singleton ρ j ih =>
    rw [List.length_append, List.length_singleton] at hρ
    rw [walk_snoc, walk_snoc, ih (by omega)]
    rcases hw : walk next root ρ with _ | y
    · rfl
    · rw [Option.bind_some, Option.bind_some]
      refine hsame y j ?_
      rintro ⟨rfl, -⟩
      have := congrArg List.length (hs ρ π (by omega) hd.le y hw hπ)
      omega

lemma shaped_value : Shaped next' root d := by
  intro σ ρ hσ hρ x h1 h2
  rw [walk_value hsame hs hπ hd hσ] at h1
  rw [walk_value hsame hs hπ hd hρ] at h2
  exact hs σ ρ hσ hρ x h1 h2

lemma reached_value {x : T} : Reached next' root d x ↔ Reached next root d x :=
  exists_congr fun _ => and_congr_right fun hρ => by rw [walk_value hsame hs hπ hd hρ]

lemma lookup_value_self : walk next' root (π ++ [i]) = next' p i := by
  rw [walk_snoc, walk_value hsame hs hπ hd hd.le, hπ, Option.bind_some]

lemma lookup_value {ρ : List I} (hρ : ρ.length = d + 1) (hne : ρ ≠ π ++ [i]) :
    walk next' root ρ = walk next root ρ := by
  obtain ⟨σ, j, rfl, hσ⟩ := exists_snoc hρ
  rw [walk_snoc, walk_snoc, walk_value hsame hs hπ hd (by omega)]
  rcases hw : walk next root σ with _ | y
  · rfl
  · rw [Option.bind_some, Option.bind_some]
    refine hsame y j ?_
    rintro ⟨rfl, rfl⟩
    exact hne (by rw [hs σ π (by omega) hd.le y hw hπ])

end value

end FlameOS.Trie
