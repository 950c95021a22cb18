import Mathlib.Data.List.Basic

/-! # The stack of savepoint names

The engine numbers its open savepoints from the outermost. A name may be open more
than once, and then means the innermost savepoint of that name.
-/

namespace Quereus

/-- The depth of the innermost savepoint of a name. -/
def findSavepoint (savepointStack : List String) (name : String) : Option Nat :=
  (savepointStack.reverse.findIdx? (· = name)).map fun fromTop =>
    savepointStack.length - 1 - fromTop

theorem findSavepoint_lt {savepointStack : List String} {name : String} {index : Nat}
    (found : findSavepoint savepointStack name = some index) : index < savepointStack.length := by
  obtain ⟨fromTop, stored, rfl⟩ := Option.map_eq_some_iff.mp found
  have bound := (List.findIdx?_eq_some_iff_getElem.mp stored).1
  rw [List.length_reverse] at bound
  omega

end Quereus
