import ModeTree.Action.Registry

/-!
# Journals

The host's state, together with the names handed to the registry so far and what came of them.
-/

namespace ModeTree

universe u

/-- The host's state, and the names handed to the registry so far with what came of each. -/
structure Journal (σ : Type u) where
  host : σ
  attempts : List (String × InvokeOutcome)

namespace Journal

variable {σ : Type u}

/-- The journal of a host before anything is invoked. -/
def start (host : σ) : Journal σ := ⟨host, []⟩

/-- Invokes one name and notes the outcome. -/
def perform (r : Registry σ) (j : Journal σ) (name : String) : Journal σ :=
  let (outcome, host) := r.invoke name j.host
  ⟨host, j.attempts ++ [(name, outcome)]⟩

/-- Invokes names in order, going on after a failure. -/
def performAll (r : Registry σ) (j : Journal σ) (names : List String) : Journal σ :=
  names.foldl (perform r) j

/-- The names handed to the registry, in order. -/
def names (j : Journal σ) : List String := j.attempts.map (·.1)

@[simp] theorem names_perform (r : Registry σ) (j : Journal σ) (name : String) :
    (j.perform r name).names = j.names ++ [name] := by
  simp [perform, names]

@[simp] theorem performAll_nil (r : Registry σ) (j : Journal σ) : j.performAll r [] = j := rfl

theorem performAll_append (r : Registry σ) (j : Journal σ) (xs ys : List String) :
    j.performAll r (xs ++ ys) = (j.performAll r xs).performAll r ys := by
  simp [performAll]

@[simp] theorem names_performAll (r : Registry σ) (j : Journal σ) (xs : List String) :
    (j.performAll r xs).names = j.names ++ xs := by
  induction xs generalizing j with
  | nil => simp
  | cons x xs ih =>
    have := ih (j.perform r x)
    simp only [performAll, List.foldl_cons] at this ⊢
    simp [this]

end Journal

end ModeTree
