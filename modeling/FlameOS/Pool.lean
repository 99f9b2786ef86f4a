import Mathlib

/-!
A pool of resources: what an allocator of interchangeable items does, as a history of
events, whatever data structure keeps it. A history is a list of events, the latest first.
-/

namespace FlameOS.Pool

variable {α : Type*}

inductive Event (α : Type*)
  | take (a : α)
  | full
  | give (a : α)

/-- The items taken and not given back since. -/
def outstanding : List (Event α) → Set α
  | [] => ∅
  | .take a :: h => insert a (outstanding h)
  | .full :: h => outstanding h
  | .give a :: h => outstanding h \ {a}

/-- A history a correct allocator of the items `cap` can have: it hands out only items of
`cap` that are not outstanding, and fails only when all are. -/
def Legal (cap : Set α) : List (Event α) → Prop
  | [] => True
  | .take a :: h => a ∈ cap ∧ a ∉ outstanding h ∧ Legal cap h
  | .full :: h => cap ⊆ outstanding h ∧ Legal cap h
  | .give a :: h => a ∈ cap ∧ Legal cap h

end FlameOS.Pool
