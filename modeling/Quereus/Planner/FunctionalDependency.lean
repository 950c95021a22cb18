import Mathlib.Data.Finset.Card
import Mathlib.Data.Finset.Union
import Mathlib.Data.List.Sort
import Quereus.Lib.Exhaust

/-! # Functional dependencies, equivalence classes, bindings and domains

The facts a relational plan node states about its output columns, and the functions
of `fd-utils.ts` that build and merge them. Columns are numbers. The provenance tags
of facts, which nothing here reads, are left out, and so is the log.
-/

namespace Quereus.Planner

open Exhaust

variable {ν : Type}

inductive GuardClause (ν : Type) where
  | eqLiteral (column : Nat) (value : ν)
  | eqColumn (left right : Nat)
  | isNull (column : Nat) (negated : Bool)
  | range (column : Nat) (min max : Option ν) (minInclusive maxInclusive : Bool)
  | orOf (clauses : List (GuardClause ν))

inductive FdKind where
  /-- One row at most for each tuple of the determinants. -/
  | unique
  | determination
  deriving DecidableEq

structure FunctionalDependency (ν : Type) where
  determinants : List Nat
  dependents : List Nat
  /-- The clauses under which the dependency holds. -/
  guard : Option (List (GuardClause ν))
  kind : FdKind

/-- A bound parameter, `:name` or the position of a `?`. -/
inductive ParamRef where
  | name (name : String)
  | position (index : Nat)
  deriving DecidableEq

inductive ConstantValue (ν : Type) where
  | literal (value : ν)
  | parameter (paramRef : ParamRef)

structure ConstantBinding (ν : Type) where
  attrs : List Nat
  value : ConstantValue ν

inductive Domain (ν : Type) where
  | range (min max : Option ν) (minInclusive maxInclusive : Bool)
  | enum (values : List ν)

structure DomainConstraint (ν : Type) where
  column : Nat
  domain : Domain ν

def MAX_FDS_PER_NODE : Nat := 64

/-- The numbers of an array, each once, in order. -/
def normalizeClass (columns : List Nat) : List Nat :=
  columns.eraseDups.insertionSort (· ≤ ·)

@[simp] theorem mem_normalizeClass {columns : List Nat} {column : Nat} :
    column ∈ normalizeClass columns ↔ column ∈ columns := by
  rw [normalizeClass, List.mem_insertionSort, List.mem_eraseDups]

/-- One pass over the dependencies. Guarded ones are skipped. -/
def closurePass (fds : List (FunctionalDependency ν)) (closure : Finset Nat) : Finset Nat :=
  fds.foldl (fun closure fd =>
    if fd.guard.isNone ∧ ∀ determinant ∈ fd.determinants, determinant ∈ closure then
      closure ∪ fd.dependents.toFinset
    else closure) closure

def closureStep (fds : List (FunctionalDependency ν)) (closure : Finset Nat) :
    Option (Finset Nat) :=
  if closurePass fds closure = closure then none else some (closurePass fds closure)

/-- The passes are as many as there may be new columns. -/
def computeClosure (attrs : Finset Nat) (fds : List (FunctionalDependency ν)) : Finset Nat :=
  exhaust (closureStep fds) (fds.flatMap FunctionalDependency.dependents).length attrs

/-- Drop what can be dropped without changing the closure. -/
def minimalCover (attrs : List Nat) (fds : List (FunctionalDependency ν)) : Finset Nat :=
  let fullClosure := computeClosure attrs.toFinset fds
  attrs.foldl (fun result attr =>
    let trialClosure := computeClosure (result.erase attr) fds
    if trialClosure.card = fullClosure.card ∧ fullClosure ⊆ trialClosure then result.erase attr
    else result) attrs.toFinset

end Quereus.Planner
