import Quereus.Planner.CoveredKeys
import Quereus.Planner.PredicateClauses

/-! # Dependencies of partial UNIQUE constraints

A UNIQUE constraint with a predicate holds of the rows in the scope of the predicate. The
table compiles the predicate into a test that compares under BINARY; the planner
recognizes the predicate as guard clauses, which the query engine evaluates under the
declared collation and type of each column. The rows on which the guard is true under
BINARY are in the scope; others may be true of it under the declared collations.
-/

namespace Quereus.Planner

open ThreeValued List Option

variable {ν : Type}

section Compilation

variable (semantics : ScalarSemantics ν) (compareSqlValues : ν → ν → Ordering)

mutual

/-- The value of a compiled expression for a row, or none if the expression is rejected. -/
def compileExpression (row : Nat → ν) : PredicateExpr ν → Option ν
  | .literal value => some value
  | .column index => index.map row
  | .unary operator operand => do compileUnary semantics operator (← compileExpression row operand)
  | .binary operator left right => do
    compileBinary semantics compareSqlValues operator (← compileExpression row left)
      (← compileExpression row right)
  | .inList operand values =>
    if values.isEmpty then some (semantics.ofTruth (some false))
    else do
      let value ← compileExpression row operand
      let members ← compileAll row values
      return semantics.ofTruth (inTruth semantics compareSqlValues value members)
  | .inSubquery _ => none
  | .between _ _ _ _ => none
  | .other => none

def compileAll (row : Nat → ν) : List (PredicateExpr ν) → Option (List ν)
  | [] => some []
  | expr :: exprs => do return (← compileExpression row expr) :: (← compileAll row exprs)

end

/-- The row is in the scope of the predicate. -/
def InScope (predicate : PredicateExpr ν) (row : Nat → ν) : Prop :=
  ∃ value, compileExpression semantics compareSqlValues row predicate = some value ∧
    semantics.truth value = some true

end Compilation

structure UniqueConstraint (ν : Type) where
  columns : List Nat
  predicate : Option (PredicateExpr ν)

/-- The columns a clause requires not to be NULL. -/
def GuardClause.nonNullColumn? : GuardClause ν → Option Nat
  | .isNull column true => some column
  | _ => none

def partialUniqueFd (isNull : ν → Bool) (zero : ν) (columns : PredicateColumns)
    (constraint : UniqueConstraint ν) :
    Option (FunctionalDependency ν) := do
  let predicate ← constraint.predicate
  let clauses ← recognizeGuardClauses isNull zero columns predicate
  let nonNullByPredicate := clauses.filterMap GuardClause.nonNullColumn?
  let dependents := (range columns.count).filter (· ∉ constraint.columns)
  if clauses.isEmpty then none
  else if ¬ constraint.columns.all (fun column => columns.notNull column ||
    column ∈ nonNullByPredicate) then none
  else if dependents.isEmpty then none
  else return ⟨constraint.columns, dependents, some clauses, .unique⟩

def extractPartialUniqueGuardedFds (isNull : ν → Bool) (zero : ν) (columns : PredicateColumns)
    (constraints : List (UniqueConstraint ν)) : List (FunctionalDependency ν) :=
  constraints.filterMap (partialUniqueFd isNull zero columns)

def BinaryOperator.compares (operator : BinaryOperator) : Bool :=
  operator.test?.isSome || operator == .is || operator == .isNot

mutual

/-- The operands that an expression compares. -/
def PredicateExpr.comparisons : PredicateExpr ν → List (PredicateExpr ν × List (PredicateExpr ν))
  | .unary _ operand => operand.comparisons
  | .binary operator left right =>
    (if operator.compares then [(left, [right])] else []) ++ (left.comparisons ++ right.comparisons)
  | .inList operand values => (operand, values) :: (operand.comparisons ++ comparisonsAll values)
  | _ => []

def comparisonsAll : List (PredicateExpr ν) → List (PredicateExpr ν × List (PredicateExpr ν))
  | [] => []
  | expr :: exprs => expr.comparisons ++ comparisonsAll exprs

end

variable {row : Nat → ν}

section Agreement

variable {engine : QueryEngine ν} {compareSqlValues : ν → ν → Ordering}

/-- The query compares as the table does. -/
def ComparesAs (engine : QueryEngine ν) (compareSqlValues : ν → ν → Ordering)
    (compared : List (PredicateExpr ν × List (PredicateExpr ν))) : Prop :=
  ∀ pair ∈ compared, engine.comparison pair.1 pair.2 = compareSqlValues

mutual

/-- A compiled expression has the value the query gives it. -/
theorem value_of_compileExpression : ∀ (expr : PredicateExpr ν) (value : ν),
    ComparesAs engine compareSqlValues expr.comparisons →
    compileExpression engine.semantics compareSqlValues row expr = some value →
      expr.value engine row = value
  | .literal _, _, _, isValue => some.inj isValue
  | .column (some _), _, _, isValue => some.inj isValue
  | .unary operator operand, value, compares, isValue => by
    obtain ⟨a, isOperand, isValue⟩ := bind_eq_some_iff.mp isValue
    rw [PredicateExpr.value, value_of_compileExpression operand a compares isOperand,
      isValue, getD_some]
  | .binary operator left right, value, compares, isValue => by
    rw [PredicateExpr.comparisons, ComparesAs, forall_mem_append, forall_mem_append] at compares
    obtain ⟨a, isLeft, isValue⟩ := bind_eq_some_iff.mp isValue
    obtain ⟨b, isRight, isValue⟩ := bind_eq_some_iff.mp isValue
    have same : compileBinary engine.semantics (engine.comparison left [right]) operator =
        compileBinary engine.semantics compareSqlValues operator := by
      cases operator <;> first | rfl | rw [compares.1 (left, [right]) (mem_singleton.mpr rfl)]
    rw [PredicateExpr.value, value_of_compileExpression left a compares.2.1 isLeft,
      value_of_compileExpression right b compares.2.2 isRight, same, isValue, getD_some]
  | .inList operand values, value, compares, isValue => by
    rw [PredicateExpr.comparisons, ComparesAs, forall_mem_cons, forall_mem_append] at compares
    rw [compileExpression] at isValue
    rw [PredicateExpr.value, compares.1]
    split at isValue
    · next isEmpty =>
      rw [isEmpty_iff.mp isEmpty, ← some.inj isValue]
      rfl
    · obtain ⟨a, isOperand, isValue⟩ := bind_eq_some_iff.mp isValue
      obtain ⟨members, areMembers, isValue⟩ := bind_eq_some_iff.mp isValue
      rw [value_of_compileExpression operand a compares.2.1 isOperand,
        valueAll_of_compileAll values members compares.2.2 areMembers]
      exact some.inj isValue

theorem valueAll_of_compileAll : ∀ (exprs : List (PredicateExpr ν)) (values : List ν),
    ComparesAs engine compareSqlValues (comparisonsAll exprs) →
    compileAll engine.semantics compareSqlValues row exprs = some values →
      valueAll engine row exprs = values
  | [], _, _, areValues => some.inj areValues
  | expr :: exprs, values, compares, areValues => by
    rw [comparisonsAll, ComparesAs, forall_mem_append] at compares
    obtain ⟨value, isValue, areValues⟩ := bind_eq_some_iff.mp areValues
    obtain ⟨rest, areRest, areValues⟩ := bind_eq_some_iff.mp areValues
    rw [valueAll, value_of_compileExpression expr value compares.1 isValue,
      valueAll_of_compileAll exprs rest compares.2 areRest]
    exact some.inj areValues

end

end Agreement

section Scope

variable {semantics : ScalarSemantics ν} {collations : Collations ν} {declared : Nat → String}
  {zero : ν} {columns : PredicateColumns}

/-- What every column declares if nothing else is said. -/
def binaryColumns (_ : Nat) : String :=
  "BINARY"

/-- A query that compares everything under BINARY. -/
def binaryEngine (semantics : ScalarSemantics ν) (collations : Collations ν) (zero : ν) :
    QueryEngine ν where
  semantics := semantics
  constant := fun _ => collations.collated "BINARY"
  columns := fun _ _ => collations.collated "BINARY"
  operands := fun _ _ => collations.collated "BINARY"
  compute := fun _ _ => zero
  lawful := fun _ => collations.lawful "BINARY"
  symmetric := fun _ _ _ _ => Std.OrientedCmp.eq_symm

theorem satisfied_orOf (clauses : List (GuardClause ν)) :
    (GuardClause.orOf clauses).Satisfied semantics collations declared row ↔
      ∃ clause ∈ clauses, clause.Satisfied semantics collations declared row := by
  rw [GuardClause.Satisfied, someSatisfied_iff]

/-- A clause that is true under BINARY is true in a query that compares so. -/
theorem holds_of_satisfied {leaf : PredicateExpr ν} {clause : GuardClause ν}
    (recognized : RecognizedLeaf semantics.isNull zero columns leaf clause)
    (satisfied : clause.Satisfied semantics collations binaryColumns row) :
    clause.Holds (binaryEngine semantics collations zero) row := by
  cases recognized with
  | isNull column | isNotNull column =>
    rwa [GuardClause.Holds]
  | inList column nonempty =>
    rw [holds_orOfClauses satisfied_orOf] at satisfied
    obtain ⟨clause, member, isTrue⟩ := satisfied
    refine (holds_orOfClauses holds_orOf).mpr ⟨clause, member, ?_⟩
    obtain ⟨literal, -, rfl⟩ := mem_map.mp member
    rw [GuardClause.Satisfied, EqualsConstant] at isTrue
    rwa [GuardClause.Holds]
  | not | constant | flippedConstant | columns =>
    rw [GuardClause.Satisfied, EqualsConstant] at satisfied
    rwa [GuardClause.Holds]
  | between column lowNotNull highNotNull =>
    simp only [GuardClause.Satisfied, some.injEq, forall_eq', compare3_eq_true] at satisfied
    obtain ⟨⟨notNull, -, above⟩, -, -, below⟩ := satisfied
    exact ⟨notNull, fun limit isLimit _ => some.inj isLimit ▸ above,
      fun limit isLimit _ => some.inj isLimit ▸ below⟩
  | range _ isClause | flippedRange _ isClause =>
    unfold rangeClause at isClause
    split at isClause <;> cases isClause <;>
      simp_all [GuardClause.Satisfied, GuardClause.Holds, BeyondBound, compare3_eq_true,
        binaryEngine, binaryColumns]

variable (zeroFalse : ∀ value, collations.collated "BINARY" value zero = .eq →
    semantics.truth value = some false)

include zeroFalse

/-- A row on which all clauses of a recognized predicate are true under BINARY is in its scope. -/
theorem recognizeGuardClauses_inScope {expr : PredicateExpr ν} {clauses : List (GuardClause ν)}
    (recognized : recognizeGuardClauses semantics.isNull zero columns expr = some clauses)
    (compiles : (compileExpression semantics (collations.collated "BINARY") row expr).isSome)
    (satisfied : ∀ clause ∈ clauses, clause.Satisfied semantics collations binaryColumns row) :
    InScope semantics (collations.collated "BINARY") expr row := by
  have compares : ComparesAs (binaryEngine semantics collations zero) (collations.collated "BINARY")
      expr.comparisons := by
    intro _ _
    unfold QueryEngine.comparison
    repeat' split
    all_goals rfl
  -- The scope of a predicate is what a query that compares as the table does keeps.
  suffices keeps : expr.Keeps (binaryEngine semantics collations zero) row by
    obtain ⟨value, isValue⟩ := isSome_iff_exists.mp compiles
    rw [PredicateExpr.Keeps, value_of_compileExpression expr value compares isValue] at keeps
    exact ⟨value, isValue, keeps⟩
  refine rel_recognizeGuardClauses compositional_if keeps_and keeps_or satisfied_orOf recognized
    ?_ satisfied
  intro leaf clause isLeaf _ satisfied
  refine rel_leaf compositional_if isLeaf (fun column _ _ _ isZero => ?_)
    (holds_of_satisfied isLeaf satisfied)
  exact zeroFalse _ (beq_iff_eq.mp (compare3_eq_true.mp isZero).2.2)

end Scope

section Uniqueness

variable (semantics : ScalarSemantics ν) (collations : Collations ν) (declared : Nat → String)

/-- All clauses of the guard of a dependency are true of a row. -/
def FunctionalDependency.GuardTrue (fd : FunctionalDependency ν) (row : Nat → ν) : Prop :=
  ∀ clauses, fd.guard = some clauses → ∀ clause ∈ clauses,
    clause.Satisfied semantics collations declared row

/-- The rows that the enforcement of a constraint admits: no two of them are in the scope
of its predicate, have values in its columns and agree on them. -/
def EnforcementAdmits (enforced : Nat → String) (constraint : UniqueConstraint ν)
    (rows : List (Nat → ν)) : Prop :=
  ∀ predicate, constraint.predicate = some predicate →
    (∀ row, (compileExpression semantics (collations.collated "BINARY") row predicate).isSome) ∧
      rows.Pairwise fun first second => InScope semantics (collations.collated "BINARY")
        predicate first →
        InScope semantics (collations.collated "BINARY") predicate second →
        (∀ column ∈ constraint.columns, semantics.isNull (first column) = false ∧
          semantics.isNull (second column) = false) →
        ¬ AgreeOn collations enforced constraint.columns first second

variable {semantics collations declared}

theorem partialUniqueFd_eq_some {isNull : ν → Bool} {zero : ν} {columns : PredicateColumns}
    {constraint : UniqueConstraint ν} {fd : FunctionalDependency ν}
    (extracted : partialUniqueFd isNull zero columns constraint = some fd) :
    ∃ predicate clauses, constraint.predicate = some predicate ∧
      recognizeGuardClauses isNull zero columns predicate = some clauses ∧ fd.determinants =
        constraint.columns ∧
      fd.guard = some clauses ∧ ∀ column ∈ constraint.columns, columns.notNull column = true ∨
        GuardClause.isNull column true ∈ clauses := by
  obtain ⟨predicate, isPredicate, rest⟩ := bind_eq_some_iff.mp extracted
  obtain ⟨clauses, areClauses, rest⟩ := bind_eq_some_iff.mp rest
  simp only at rest
  split at rest
  · cases rest
  split at rest
  · cases rest
  next nonNull =>
  split at rest
  · cases rest
  cases rest
  refine ⟨predicate, clauses, isPredicate, areClauses, rfl, rfl, fun column member => ?_⟩
  have either := all_eq_true.mp (not_not.mp nonNull) column member
  rcases Bool.or_eq_true_iff.mp either with declares | required
  · exact Or.inl declares
  · obtain ⟨clause, inClauses, isColumn⟩ := mem_filterMap.mp (of_decide_eq_true required)
    unfold GuardClause.nonNullColumn? at isColumn
    split at isColumn
    · cases isColumn
      exact Or.inr inClauses
    · cases isColumn

end Uniqueness

namespace Letter

/-- NULL before the letters, in the order of what a collation sees of them. -/
def compareBy (code : Char → Nat) : Option Char → Option Char → Ordering :=
  compareOn fun letter => (letter.map fun letter => code letter + 1).getD 0

instance (code : Char → Nat) : Std.TransCmp (compareBy code) :=
  inferInstanceAs (Std.TransCmp (compareOn _))

theorem eq_of_compareBy_toNat {a b : Option Char} (same : compareBy Char.toNat a b = .eq) :
    a = b := by
  have codes : (a.map fun letter => letter.toNat + 1).getD 0 =
      (b.map fun letter => letter.toNat + 1).getD 0 :=
    Std.LawfulEqCmp.eq_of_compare same
  cases a <;> cases b <;> simp_all [Char.toNat_inj]

def collations : Collations (Option Char) where
  collated := fun name => compareBy (if name = "NOCASE" then fun letter => letter.toLower.toNat
    else Char.toNat)
  lawful := fun _ => inferInstance
  eq_of_binary := by
    intro name a b same
    rw [eq_of_compareBy_toNat same]
    exact Std.ReflCmp.compare_self

def semantics : ScalarSemantics (Option Char) where
  isNull := Option.isNone
  truth := Option.map (· != '0')
  ofTruth := Option.map fun truth => if truth then '1' else '0'
  truth_ofTruth := by rintro (_ | _ | _) <;> rfl
  comparison := fun _ _ => collations.collated "BINARY"
  convert := fun _ => id
  apply := fun _ _ _ => none
  applyUnary := fun _ _ => none
  contains := fun _ _ _ => none
  call := fun _ _ => none

end Letter

/-- `UNIQUE (x0) WHERE x1 = 'a'` over two columns that are NOT NULL. -/
def partialUnique : UniqueConstraint (Option Char) :=
  ⟨[0], some (.binary .eq (.column (some 1)) (.literal (some 'a')))⟩

def letterColumns : PredicateColumns :=
  ⟨2, fun _ => true, fun _ => false⟩

def letterRow (first second : Char) (column : Nat) : Option Char :=
  if column = 0 then some first else some second

theorem enforcementAdmits_pair {first second : Nat → Option Char}
    (apart : InScope Letter.semantics (Letter.collations.collated "BINARY")
        (.binary .eq (.column (some 1)) (.literal (some 'a'))) second →
      ¬ AgreeOn Letter.collations (fun _ => "BINARY") [0] first second) :
    EnforcementAdmits Letter.semantics Letter.collations (fun _ => "BINARY") partialUnique
      [first, second] := by
  rintro predicate isPredicate
  cases isPredicate
  refine ⟨fun row => rfl, ?_⟩
  simp only [pairwise_cons, mem_singleton, forall_eq, not_mem_nil, false_imp_iff, implies_true,
    Pairwise.nil, and_true]
  exact fun _ inScope _ => apart inScope

end Quereus.Planner
