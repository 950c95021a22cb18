import Mathlib.Order.Compare
import Quereus.Lib.Agreement
import Quereus.Planner.FunctionalDependency

/-! # What facts say of rows

A row has a value in every column. Values are compared by an order in which only NULL
equals NULL; two values are the same if they compare equal. A dependency with a guard
speaks of the rows on which its guard is true.
-/

namespace Quereus.Planner

open Agreement

/-- Values with NULL, their comparison, and the test for identity that never holds of
values that compare unequal. -/
structure ValueOrder (ν : Type) where
  null : ν
  compare : ν → ν → Ordering
  lawful : Std.TransCmp compare
  sqlValueEquals : ν → ν → Bool
  eq_of_sqlValueEquals : ∀ {a b}, sqlValueEquals a b = true → compare a b = .eq

variable {ν : Type}

namespace ValueOrder

variable (order : ValueOrder ν)

instance : Std.TransCmp order.compare :=
  order.lawful

def Same (a b : ν) : Prop :=
  order.compare a b = .eq

instance (a b : ν) : Decidable (order.Same a b) :=
  inferInstanceAs (Decidable (_ = _))

def isNull (value : ν) : Bool :=
  order.compare value order.null = .eq

/-- Whether `a = b` is true in three-valued logic. -/
def equals (a b : ν) : Bool :=
  !order.isNull a && !order.isNull b && order.compare a b = .eq

/-- The value is above a lower bound. -/
def aboveMin (min : ν) (inclusive : Bool) (value : ν) : Bool :=
  match order.compare min value with
  | .lt => true
  | .eq => inclusive
  | .gt => false

def belowMax (max : ν) (inclusive : Bool) (value : ν) : Bool :=
  match order.compare value max with
  | .lt => true
  | .eq => inclusive
  | .gt => false

variable {order} {a b c : ν}

theorem Same.refl (a : ν) : order.Same a a :=
  Std.ReflCmp.compare_self

theorem Same.symm (same : order.Same a b) : order.Same b a :=
  Std.OrientedCmp.eq_symm same

theorem same_symm (order : ValueOrder ν) (a b : ν) (same : order.Same a b) : order.Same b a :=
  same.symm

theorem Same.trans (first : order.Same a b) (second : order.Same b c) : order.Same a c :=
  Std.TransCmp.eq_trans first second

variable (same : order.Same a b)

include same

theorem Same.compare_left (c : ν) : order.compare a c = order.compare b c :=
  Std.TransCmp.congr_left same

theorem Same.compare_right (c : ν) : order.compare c a = order.compare c b :=
  Std.TransCmp.congr_right same

theorem Same.isNull : order.isNull a = order.isNull b := by
  unfold ValueOrder.isNull
  rw [same.compare_left]

theorem Same.equals (c : ν) : order.equals c a = order.equals c b := by
  unfold ValueOrder.equals
  rw [same.isNull, same.compare_right]

omit same

theorem equals_comm (a b : ν) : order.equals a b = order.equals b a := by
  have swapped : (order.compare a b = .eq) ↔ (order.compare b a = .eq) := ⟨Same.symm, Same.symm⟩
  unfold ValueOrder.equals
  rw [Bool.and_comm (!order.isNull a), decide_eq_decide.mpr swapped]

theorem Same.aboveMin (same : order.Same a b) (inclusive : Bool) (value : ν) :
    order.aboveMin a inclusive value = order.aboveMin b inclusive value := by
  unfold ValueOrder.aboveMin
  rw [same.compare_left]

theorem Same.belowMax (same : order.Same a b) (inclusive : Bool) (value : ν) :
    order.belowMax a inclusive value = order.belowMax b inclusive value := by
  unfold ValueOrder.belowMax
  rw [same.compare_right]

end ValueOrder

section Guards

variable (order : ValueOrder ν)

mutual

/-- Whether a clause is true of a row. -/
def GuardClause.isTrue : GuardClause ν → (Nat → ν) → Bool
  | .eqLiteral column value, row => order.equals (row column) value
  | .eqColumn left right, row => order.equals (row left) (row right)
  | .isNull column negated, row => order.isNull (row column) != negated
  | .range column min max minInclusive maxInclusive, row =>
    !order.isNull (row column) &&
      min.all (fun min => !order.isNull min && order.aboveMin min minInclusive (row column)) &&
      max.all (fun max => !order.isNull max && order.belowMax max maxInclusive (row column))
  | .orOf clauses, row => (clauseTruths clauses row).any id

def clauseTruths : List (GuardClause ν) → (Nat → ν) → List Bool
  | [], _ => []
  | clause :: clauses, row => clause.isTrue row :: clauseTruths clauses row

end

theorem clauseTruths_eq_map (clauses : List (GuardClause ν)) (row : Nat → ν) :
    clauseTruths order clauses row = clauses.map (GuardClause.isTrue order · row) := by
  induction clauses with
  | nil => rfl
  | cons clause clauses ih => rw [clauseTruths, ih, List.map_cons]

/-- Whether all clauses of a guard are true of a row. -/
def guardHolds (guard : Option (List (GuardClause ν))) (row : Nat → ν) : Bool :=
  guard.all fun clauses => (clauseTruths order clauses row).all id

mutual

/-- The columns a clause reads. -/
def clauseColumns : GuardClause ν → List Nat
  | .eqLiteral column _ => [column]
  | .eqColumn left right => [left, right]
  | .isNull column _ => [column]
  | .range column _ _ _ _ => [column]
  | .orOf clauses => clauseColumnsAll clauses

def clauseColumnsAll : List (GuardClause ν) → List Nat
  | [] => []
  | clause :: clauses => clauseColumns clause ++ clauseColumnsAll clauses

end

def guardColumns (guard : Option (List (GuardClause ν))) : List Nat :=
  (guard.map clauseColumnsAll).getD []

end Guards

/-- The facts a plan node states of its output. -/
structure PhysicalProperties (ν : Type) where
  fds : List (FunctionalDependency ν)
  equivClasses : List (List Nat)
  constantBindings : List (ConstantBinding ν)
  domainConstraints : List (DomainConstraint ν)

section Meaning

variable (order : ValueOrder ν) (parameters : ParamRef → ν) (rows : List (Nat → ν))

def FunctionalDependency.HoldsOn (fd : FunctionalDependency ν) : Prop :=
  Determines order.Same (rows.filter (guardHolds order fd.guard)) (· ∈ fd.determinants)
    (· ∈ fd.dependents) ∧
    (fd.kind = .unique →
      Identifies order.Same (rows.filter (guardHolds order fd.guard)) (· ∈ fd.determinants))

/-- The columns of a class have the same value in every row. -/
def ClassHoldsOn (equivClass : List Nat) : Prop :=
  ∀ row ∈ rows, ∀ first ∈ equivClass, ∀ second ∈ equivClass, order.Same (row first) (row second)

def ConstantValue.value : ConstantValue ν → ν
  | .literal value => value
  | .parameter paramRef => parameters paramRef

/-- The bound columns compare equal to the constant in every row. -/
def ConstantBinding.HoldsOn (binding : ConstantBinding ν) : Prop :=
  ∀ row ∈ rows, ∀ column ∈ binding.attrs, order.Same (row column) (binding.value.value parameters)

def Domain.Contains (value : ν) : Domain ν → Prop
  | .range min max minInclusive maxInclusive =>
    (∀ bound ∈ min, order.aboveMin bound minInclusive value = true) ∧
      ∀ bound ∈ max, order.belowMax bound maxInclusive value = true
  | .enum values => ∃ member ∈ values, order.Same value member

/-- Every value of the column that is not NULL lies in the domain. -/
def DomainConstraint.HoldsOn (constraint : DomainConstraint ν) : Prop :=
  ∀ row ∈ rows, order.isNull (row constraint.column) = false →
    constraint.domain.Contains order (row constraint.column)

structure PhysicalProperties.HoldsOn (facts : PhysicalProperties ν) : Prop where
  fds : ∀ fd ∈ facts.fds, fd.HoldsOn order rows
  equivClasses : ∀ equivClass ∈ facts.equivClasses, ClassHoldsOn order rows equivClass
  constantBindings : ∀ binding ∈ facts.constantBindings, binding.HoldsOn order parameters rows
  domainConstraints : ∀ constraint ∈ facts.domainConstraints, constraint.HoldsOn order rows

end Meaning

/-- Numbers in their order, with zero for NULL. -/
def natOrder : ValueOrder Nat where
  null := 0
  compare := compare
  lawful := inferInstance
  sqlValueEquals := fun a b => a = b
  eq_of_sqlValueEquals := fun equal => compare_eq_iff_eq.mpr (of_decide_eq_true equal)

/-- Nothing is stated of the rows. -/
def noFacts : PhysicalProperties Nat :=
  ⟨[], [], [], []⟩

/-- The row of a table with these first columns. -/
def rowOf (values : List Nat) : Nat → Nat :=
  fun column => values.getD column 0

/-- The first column of a table of orders identifies its rows. -/
def orderFacts : PhysicalProperties Nat :=
  { noFacts with fds := [⟨[0], [1], none, .unique⟩] }

theorem orderFacts_holds :
    orderFacts.HoldsOn natOrder (fun _ => 0) [rowOf [1, 5], rowOf [2, 6]] where
  fds := by
    intro fd member
    rw [List.mem_singleton.mp member]
    have identifies : Identifies natOrder.Same [rowOf [1, 5], rowOf [2, 6]] (· ∈ [0]) :=
      List.pairwise_pair.mpr fun agree => absurd (agree 0 List.mem_cons_self) (by decide)
    refine ⟨?_, fun _ => ?_⟩
    · intro first inFirst second inSecond agree column _
      rw [identifies.eq_of_agree natOrder.same_symm inFirst inSecond agree]
      exact .refl _
    · exact identifies
  equivClasses := nofun
  constantBindings := nofun
  domainConstraints := nofun

end Quereus.Planner
