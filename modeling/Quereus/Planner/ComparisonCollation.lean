import Quereus.Planner.Scalar

/-! # The collation of a comparison

Each operand contributes the collation of its type with the rank of where it comes from.
The higher rank wins; two collations of one rank conflict, unless both are defaults.
-/

namespace Quereus.Planner

variable {ν : Type}

structure CollationContribution where
  name : String
  rank : Nat
  deriving DecidableEq

def CollationSource.rank : CollationSource → Nat
  | .explicit => 3
  | .declared => 2
  | .default => 1

def collationContribution (type : ScalarType) : Option CollationContribution :=
  match type.collationName with
  | none => none
  | some name =>
    if type.collationSource.rank = 1 ∧ name = "BINARY" then none
      else some ⟨name, type.collationSource.rank⟩

/-- The collation of two operands, or none if they conflict. -/
def resolveContributions (left right : Option CollationContribution) : Option String :=
  match left, right with
  | none, none => some "BINARY"
  | none, some right => some right.name
  | some left, none => some left.name
  | some left, some right =>
    if left.rank ≠ right.rank then some (if right.rank < left.rank then left.name else right.name)
    else if left.name = right.name then some left.name
    else if left.rank = 1 then some "BINARY"
    else none

def effectiveComparisonCollation (left right : ScalarType) : Option String :=
  resolveContributions (collationContribution left) (collationContribution right)

/-- What `mergeContributions` has found so far: the best contribution, and another name of
its rank. -/
structure MergedContributions where
  best : Option CollationContribution
  conflictingName : Option String

def mergeContribution (merged : MergedContributions) (next : Option CollationContribution) :
    MergedContributions :=
  match next with
  | none => merged
  | some next =>
    match merged.best with
    | none => ⟨some next, none⟩
    | some best =>
      if best.rank < next.rank then ⟨some next, none⟩
      else if next.rank = best.rank ∧ next.name ≠ best.name ∧ merged.conflictingName.isNone then
        ⟨some best, some next.name⟩
      else merged

/-- The contribution of a list, or none if it conflicts. -/
def mergeContributions (contributions : List (Option CollationContribution)) :
    Option (Option CollationContribution) :=
  let merged := contributions.foldl mergeContribution ⟨none, none⟩
  match merged.best, merged.conflictingName with
  | some best, some _ => if best.rank = 1 then some none else none
  | best, _ => some best

def resolveInCollation (condition : ScalarType) (values : List ScalarType) : Option String :=
  match mergeContributions (values.map collationContribution) with
  | none => none
  | some merged => resolveContributions (collationContribution condition) merged

def operandCollation (type : ScalarType) : String :=
  type.collationName.getD "BINARY"

/-- A comparison under the one collation equates nothing the other tells apart. -/
def collationRefines (finer coarser : String) : Bool :=
  finer = "BINARY" || finer = coarser

/-- The comparison of each collation. -/
structure Collations (ν : Type) where
  collated : String → ν → ν → Ordering
  lawful : ∀ name, Std.TransCmp (collated name)
  eq_of_binary : ∀ name a b, collated "BINARY" a b = .eq → collated name a b = .eq

instance (collations : Collations ν) (name : String) : Std.TransCmp (collations.collated name) :=
  collations.lawful name

/-- The runtime compares the operands under the collation they resolve to. Values that
compare by meaning, as durations do, need not compare so. -/
def ComparesByCollation (semantics : ScalarSemantics ν) (collations : Collations ν)
    (condition : ScalarType)
    (values : List ScalarType) : Prop :=
  ∀ name, resolveInCollation condition values = some name →
    semantics.comparison condition values = collations.collated name

theorem ComparesByCollation.comparison {semantics : ScalarSemantics ν} {collations : Collations ν}
    {left right : ScalarType} {name : String}
    (compares : ComparesByCollation semantics collations left [right])
    (resolved : effectiveComparisonCollation left right = some name) :
    semantics.comparison left [right] = collations.collated name := by
  refine compares name ?_
  rw [← resolved]
  unfold resolveInCollation effectiveComparisonCollation mergeContributions
  cases isContribution : collationContribution right <;> simp [isContribution, mergeContribution]

end Quereus.Planner
