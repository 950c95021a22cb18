import Mathlib.Data.Option.Basic

/-! # Three-valued logic

A truth value is true, false or unknown; unknown is `none`. Only what makes a formula
true matters to its readers, so the lemmas say when a formula is true.
-/

namespace ThreeValued

def and3 : Option Bool → Option Bool → Option Bool
  | some false, _ => some false
  | _, some false => some false
  | some true, some true => some true
  | _, _ => none

def or3 : Option Bool → Option Bool → Option Bool
  | some true, _ => some true
  | _, some true => some true
  | some false, some false => some false
  | _, _ => none

def not3 (truth : Option Bool) : Option Bool :=
  truth.map not

/-- The disjunction of a list. -/
def any3 (truths : List (Option Bool)) : Option Bool :=
  truths.foldr or3 (some false)

theorem and3_eq_true {a b : Option Bool} : and3 a b = some true ↔ a = some true ∧
    b = some true := by
  rcases a with _ | _ | _ <;> rcases b with _ | _ | _ <;> decide

theorem or3_eq_true {a b : Option Bool} : or3 a b = some true ↔ a = some true ∨ b = some true := by
  rcases a with _ | _ | _ <;> rcases b with _ | _ | _ <;> decide

theorem not3_eq_true {a : Option Bool} : not3 a = some true ↔ a = some false := by
  rcases a with _ | _ | _ <;> decide

theorem any3_eq_true {truths : List (Option Bool)} :
    any3 truths = some true ↔ some true ∈ truths := by
  induction truths with
  | nil => simp [any3]
  | cons truth truths ih =>
    change or3 truth (any3 truths) = some true ↔ _
    rw [or3_eq_true, ih, List.mem_cons, eq_comm]

end ThreeValued
