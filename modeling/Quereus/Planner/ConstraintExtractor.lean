import Quereus.Planner.ComparisonCollation
import Quereus.Planner.SatChecker

/-! # Extracting constraints from a predicate

`extractConstraints` turns the conjuncts of a predicate into constraints on the columns
of a table and keeps the rest as the residual predicate. A disjunction becomes one
constraint if all its branches are constraints on one column: a list of values, or a list
of ranges. The model is for one table; names and log messages are left out, and so are
the binary spellings `IN` and `NOT IN`, which the parser does not produce.
-/

namespace Quereus.Planner

variable {ν : Type}

inductive ConstraintOp where
  | eq
  | gt
  | ge
  | lt
  | le
  | like
  | glob
  | matches
  | isIn
  | isNull
  | isNotNull
  | orRange
  deriving DecidableEq

inductive BindingKind where
  | literal
  | parameter
  | correlated
  | expression
  | mixed
  deriving DecidableEq

/-- The value of a constraint. A value that is not known when planning is absent. -/
inductive ConstraintValue (ν : Type) where
  | scalar (value : Option ν)
  | list (values : List (Option ν))

inductive ValueExpr (ν : Type) where
  | absent
  | scalar (expr : Scalar ν)
  | list (exprs : List (Scalar ν))

structure RangeBound (ν : Type) where
  inclusive : Bool
  value : Option ν
  valueExpr : Option (Scalar ν)
  bindingKind : BindingKind
  correlated : Bool

structure RangeSpec (ν : Type) where
  lower : Option (RangeBound ν)
  upper : Option (RangeBound ν)

structure PredicateConstraint (ν : Type) where
  columnIndex : Nat
  attributeId : Nat
  op : ConstraintOp
  value : ConstraintValue ν
  valueExpr : ValueExpr ν
  bindingKind : BindingKind
  correlated : Bool
  ranges : List (RangeSpec ν)
  sourceExpression : Scalar ν

/-- The attribute of a column reference under casts that change nothing. -/
def columnReference? (node : Scalar ν) : Option Nat :=
  match unwrapCast node with
  | .column _ attributeId => some attributeId
  | _ => none

/-- Strip all casts. -/
def unwrapCastForBindingKind : Scalar ν → Scalar ν
  | .cast _ _ operand => unwrapCastForBindingKind operand
  | node => node

/-- The value is a parameter or a column, possibly under casts. -/
def isDynamicValue (node : Scalar ν) : Bool :=
  match unwrapCastForBindingKind node with
  | .parameter _ _ | .column _ _ => true
  | _ => false

def isUsableValue (node : Scalar ν) : Bool :=
  (literalOf node).isSome || isDynamicValue node

def mapOperatorToConstraint : BinaryOperator → Option ConstraintOp
  | .eq => some .eq
  | .gt => some .gt
  | .ge => some .ge
  | .lt => some .lt
  | .le => some .le
  | .like => some .like
  | .glob => some .glob
  | .matches => some .matches
  | _ => none

/-- The operator for swapped operands. That of a pattern is the same. -/
def flipOperator : ConstraintOp → ConstraintOp
  | .lt => .gt
  | .le => .ge
  | .gt => .lt
  | .ge => .le
  | op => op

section Extraction

variable (isNull : ν → Bool) (columnIndexMap : Nat → Option Nat)

/-- The value side refers to a column of another table. -/
def bindingReferencesOuterTable (valueExpr : Scalar ν) : Bool :=
  valueExpr.attributeIds.any fun attributeId => (columnIndexMap attributeId).isNone

/-- How a value that is not a literal is supplied, or none if a column of the same table
supplies it. -/
def bindingKindOf (valueSide : Scalar ν) : Option BindingKind :=
  match unwrapCastForBindingKind valueSide with
  | .parameter _ _ => some .parameter
  | .column _ attributeId => if (columnIndexMap attributeId).isSome then none else some .correlated
  | _ => some .expression

variable (source : Scalar ν)

def extractComparison (attributeId : Nat) (op : ConstraintOp) (valueSide : Scalar ν) :
    Option (PredicateConstraint ν) :=
  match literalOf valueSide with
  | some constant =>
    if isNull constant ∧ op ≠ .eq then none
    else do
      let columnIndex ← columnIndexMap attributeId
      return ⟨columnIndex, attributeId, op, .scalar (some constant), .absent, .literal,
        false, [], source⟩
  | none => do
    let columnIndex ← columnIndexMap attributeId
    let bindingKind ← bindingKindOf columnIndexMap valueSide
    return ⟨columnIndex, attributeId, op, .scalar none, .scalar valueSide, bindingKind,
      bindingReferencesOuterTable columnIndexMap valueSide, [], source⟩

def extractBinaryConstraint (operator : BinaryOperator) (left right : Scalar ν) :
    Option (PredicateConstraint ν) :=
  match columnReference? left, isUsableValue right with
  | some attributeId, true => do
    let op ← mapOperatorToConstraint operator
    extractComparison isNull columnIndexMap source attributeId op right
  | _, _ =>
    if isUsableValue left then do
      let attributeId ← columnReference? right
      let op ← mapOperatorToConstraint operator
      extractComparison isNull columnIndexMap source attributeId (flipOperator op) left
    else none

def extractBetweenConstraints (not : Bool) (expr lower upper : Scalar ν) :
    Option (List (PredicateConstraint ν)) :=
  if not then none
  else do
    let attributeId ← columnReference? expr
    let low ← valueOf isNull lower
    let high ← valueOf isNull upper
    let columnIndex ← columnIndexMap attributeId
    let bound (op : ConstraintOp) (value : ν) : PredicateConstraint ν :=
      ⟨columnIndex, attributeId, op, .scalar (some value), .absent, .literal, false, [], source⟩
    return [bound .ge low, bound .le high]

/-- Only a bare column is looked for in a list. -/
def extractInConstraint (condition : Scalar ν) (values : List (Scalar ν)) :
    Option (PredicateConstraint ν) :=
  match condition with
  | .column _ attributeId =>
    if values = [] ∨ ¬ values.all isUsableValue then none
    else do
      let columnIndex ← columnIndexMap attributeId
      let allLiteral := values.all fun value => (literalOf value).isSome
      return ⟨columnIndex, attributeId, .isIn, .list (values.map literalOf),
        if allLiteral then .absent else .list values, if allLiteral then .literal else .mixed,
        !allLiteral && values.any (bindingReferencesOuterTable columnIndexMap), [], source⟩
  | _ => none

def extractNullConstraint (operand : Scalar ν) (op : ConstraintOp) :
    Option (PredicateConstraint ν) := do
  let attributeId ← columnReference? operand
  let columnIndex ← columnIndexMap attributeId
  return ⟨columnIndex, attributeId, op, .scalar none, .absent, .literal, false, [], source⟩

/-- What is extracted from an expression: constraints, and the parts that are left. -/
structure Extracted (ν : Type) where
  constraints : List (PredicateConstraint ν)
  residual : List (Scalar ν)

def Extracted.ofConstraint : Option (PredicateConstraint ν) → Extracted ν
  | some constraint => ⟨[constraint], []⟩
  | none => ⟨[], [source]⟩

/-- Extraction from an expression that is neither a conjunction nor a disjunction. -/
def extractLeaf : Extracted ν :=
  match source with
  | .between _ not expr lower upper =>
    match extractBetweenConstraints isNull columnIndexMap source not expr lower upper with
    | some constraints => ⟨constraints, []⟩
    | none => ⟨[], [source]⟩
  | .inList _ condition values =>
    .ofConstraint source (extractInConstraint columnIndexMap source condition values)
  | .unary _ .isNull operand =>
    .ofConstraint source (extractNullConstraint columnIndexMap source operand .isNull)
  | .unary _ .isNotNull operand =>
    .ofConstraint source (extractNullConstraint columnIndexMap source operand .isNotNull)
  | .binary _ operator left right =>
    .ofConstraint source (extractBinaryConstraint isNull columnIndexMap source operator left right)
  | _ => ⟨[], [source]⟩

end Extraction

/-- The side of a comparison that is the column. -/
def columnSideOf (left right : Scalar ν) (attributeId : Nat) : Option (Scalar ν) :=
  if columnReference? left = some attributeId then some (unwrapCast left)
  else if columnReference? right = some attributeId then some (unwrapCast right)
  else none

/-- The side the column is compared with. -/
def valueSideOf (left right : Scalar ν) (attributeId : Nat) : Option (Scalar ν) :=
  if columnReference? left = some attributeId then some right
  else if columnReference? right = some attributeId then some left
  else none

variable (constraint : PredicateConstraint ν)

/-- The collation of a branch is that of its column. -/
def orBranchConstraintCollationOk : Bool :=
  match constraint.sourceExpression with
  | .binary _ _ left right =>
    match columnSideOf left right constraint.attributeId with
    | none => false
    | some colSide =>
      effectiveComparisonCollation left.getType right.getType =
        some (operandCollation colSide.getType)
  | .inList _ condition values =>
    resolveInCollation condition.getType (values.map Scalar.getType) =
      some (operandCollation condition.getType)
  | .between _ _ expr lower upper =>
    effectiveComparisonCollation expr.getType lower.getType =
      some (operandCollation expr.getType) &&
      effectiveComparisonCollation expr.getType upper.getType = some (operandCollation expr.getType)
  | _ => false

/-- The members of a list of values: those known, the expressions for all of them, and
whether some are not known. -/
structure Members (ν : Type) where
  values : List (Option ν)
  exprs : List (Scalar ν)
  hasNonLiteral : Bool

/-- The members a branch contributes to a list of values. -/
def branchMembers : Option (Members ν) :=
  match constraint.op, constraint.value with
  | .isIn, .list values =>
    match constraint.valueExpr with
    | .list exprs => some ⟨values, exprs, true⟩
    | _ =>
      match constraint.sourceExpression with
      | .inList _ _ exprs =>
        if exprs.length = values.length then some ⟨values, exprs, false⟩ else none
      | _ => none
  | _, .scalar value =>
    match constraint.valueExpr with
    | .scalar expr => some ⟨[value], [expr], true⟩
    | _ =>
      match constraint.sourceExpression with
      | .binary _ _ left right =>
        (valueSideOf left right constraint.attributeId).map fun expr => ⟨[value], [expr], false⟩
      | _ => none
  | _, _ => none

def collapseBranchesToIn (branches : List (PredicateConstraint ν))
    (template : PredicateConstraint ν)
    (source : Scalar ν) : Option (PredicateConstraint ν) := do
  let members ← branches.mapM branchMembers
  let hasNonLiteral := members.any (·.hasNonLiteral)
  return { template with
    op := .isIn
    value := .list (members.flatMap (·.values))
    valueExpr := if hasNonLiteral then .list (members.flatMap (·.exprs)) else .absent
    bindingKind := if hasNonLiteral then .mixed else .literal
    correlated := false
    ranges := []
    sourceExpression := source }

/-- The binding of a constraint as a bound of a range. -/
def boundOf (inclusive : Bool) : RangeBound ν where
  inclusive := inclusive
  value := match constraint.value with
    | .scalar value => value
    | .list _ => none
  valueExpr := match constraint.valueExpr with
    | .scalar expr => some expr
    | _ => none
  bindingKind := constraint.bindingKind
  correlated := constraint.correlated

/-- Put a constraint into the range of its branch. A bound that is there already is not
chosen from. -/
def addToRangeSpec (spec : RangeSpec ν) (constraint : PredicateConstraint ν) :
    Option (RangeSpec ν) :=
  match constraint.op with
  | .eq =>
    if spec.lower.isSome || spec.upper.isSome then none
    else some ⟨some (boundOf constraint true), some (boundOf constraint true)⟩
  | .gt =>
    if spec.lower.isSome then none else some { spec with lower := some (boundOf constraint false) }
  | .ge =>
    if spec.lower.isSome then none else some { spec with lower := some (boundOf constraint true) }
  | .lt =>
    if spec.upper.isSome then none else some { spec with upper := some (boundOf constraint false) }
  | .le =>
    if spec.upper.isSome then none else some { spec with upper := some (boundOf constraint true) }
  | _ => none

def branchToRangeSpec (constraints : List (PredicateConstraint ν)) : Option (RangeSpec ν) :=
  constraints.foldlM addToRangeSpec ⟨none, none⟩

/-- The kind of binding all bounds share, or a mixed one. -/
def summarizeBindingKind (ranges : List (RangeSpec ν)) : BindingKind :=
  let bounds := ranges.flatMap fun range => range.lower.toList ++ range.upper.toList
  match bounds with
  | [] => .mixed
  | first :: _ =>
    if bounds.all (·.bindingKind = first.bindingKind) then first.bindingKind else .mixed

def summarizeCorrelated (ranges : List (RangeSpec ν)) : Bool :=
  ranges.any fun range => range.lower.any (·.correlated) || range.upper.any (·.correlated)

/-- One or two constraints on one column. -/
def isRangeBranch (target : PredicateConstraint ν) (constraints : List (PredicateConstraint ν)) :
    Bool :=
  constraints.length ≤ 2 &&
    constraints.all (fun constraint => constraint.columnIndex = target.columnIndex) &&
    constraints.head?.all (fun first => first.attributeId = target.attributeId)

def tryCollapseToOrRange (branches : List (List (PredicateConstraint ν)))
    (target : PredicateConstraint ν)
    (source : Scalar ν) : Option (PredicateConstraint ν) :=
  if ¬ branches.all (isRangeBranch target) then none
  else do
    let ranges ← branches.mapM branchToRangeSpec
    if ranges.length < 2 then none
    else
      return { target with
        op := .orRange
        value := .scalar none
        valueExpr := .absent
        bindingKind := summarizeBindingKind ranges
        correlated := summarizeCorrelated ranges
        ranges := ranges
        sourceExpression := source }

/-- One equality or list of values on the column of the first branch. -/
def isMemberBranch (target : PredicateConstraint ν) (constraints : List (PredicateConstraint ν)) :
    Bool :=
  match constraints with
  | [constraint] =>
    (constraint.op = .eq || constraint.op = .isIn) && constraint.columnIndex = target.columnIndex &&
      constraint.attributeId = target.attributeId
  | _ => false

def tryExtractOrBranches (branches : List (Extracted ν)) (source : Scalar ν) :
    Option (PredicateConstraint ν) :=
  let constraints := branches.map Extracted.constraints
  if branches.length < 2 then none
  else if branches.any fun branch => !branch.residual.isEmpty ||
    branch.constraints.isEmpty then none
  else if ¬ constraints.all (·.all orBranchConstraintCollationOk) then none
  else
    match constraints.flatten.head? with
    | none => none
    | some first =>
      let asIn := if constraints.all (isMemberBranch first) then
          collapseBranchesToIn constraints.flatten first source
        else none
      asIn.or (tryCollapseToOrRange constraints first source)

section Predicates

variable (isNull : ν → Bool) (columnIndexMap : Nat → Option Nat)

/-- The disjuncts of a disjunction from left to right. -/
def flattenOrDisjuncts : Scalar ν → List (Scalar ν)
  | .binary _ .or left right => flattenOrDisjuncts left ++ flattenOrDisjuncts right
  | node => [node]

def extractOr (source : Scalar ν) (branches : List (Extracted ν)) : Extracted ν :=
  .ofConstraint source (tryExtractOrBranches branches source)

/-- What is extracted from an expression, given what is extracted from its disjuncts. -/
def concludeDisjuncts (source : Scalar ν) (disjuncts : List (Extracted ν)) : Extracted ν :=
  match source with
  | .binary _ .or _ _ => extractOr source disjuncts
  | _ => disjuncts.head?.getD ⟨[], [source]⟩

/-- What is extracted from each disjunct of an expression. -/
def extractDisjuncts : Scalar ν → List (Extracted ν)
  | .binary _ .or left right => extractDisjuncts left ++ extractDisjuncts right
  | .binary _ .and left right =>
    let first := concludeDisjuncts left (extractDisjuncts left)
    let second := concludeDisjuncts right (extractDisjuncts right)
    [⟨first.constraints ++ second.constraints, first.residual ++ second.residual⟩]
  | node => [extractLeaf isNull columnIndexMap node]

def extractFromExpression (source : Scalar ν) : Extracted ν :=
  concludeDisjuncts source (extractDisjuncts isNull columnIndexMap source)

/-- The parts that are left, in one predicate. -/
def residualPredicate (residual : List (Scalar ν)) : Option (Scalar ν) :=
  match residual with
  | [] => none
  | first :: rest =>
    some (rest.foldl (fun left right => .binary left.getType .and left right) first)

end Predicates

section Equations

variable {isNull : ν → Bool} {columnIndexMap : Nat → Option Nat}

theorem extractDisjuncts_of_not_or {source : Scalar ν}
    (notOr : ∀ type left right, source ≠ .binary type .or left right) :
    extractDisjuncts isNull columnIndexMap source =
      [extractFromExpression isNull columnIndexMap source] := by
  have single : ∃ extracted, extractDisjuncts isNull columnIndexMap source = [extracted] := by
    unfold extractDisjuncts
    split
    · next type left right => exact absurd rfl (notOr type left right)
    · exact ⟨_, rfl⟩
    · exact ⟨_, rfl⟩
  obtain ⟨extracted, isExtracted⟩ := single
  unfold extractFromExpression concludeDisjuncts
  split
  · next type left right => exact absurd rfl (notOr type left right)
  · rw [isExtracted]
    rfl

/-- A disjunction is extracted disjunct by disjunct. -/
theorem extractDisjuncts_eq_map (source : Scalar ν) :
    extractDisjuncts isNull columnIndexMap source =
      (flattenOrDisjuncts source).map (extractFromExpression isNull columnIndexMap) := by
  fun_induction flattenOrDisjuncts source with
  | case1 type left right ihLeft ihRight => rw [extractDisjuncts, ihLeft, ihRight, List.map_append]
  | case2 node notOr => rw [extractDisjuncts_of_not_or notOr, List.map_singleton]

theorem extractFromExpression_or (type : ScalarType) (left right : Scalar ν) :
    extractFromExpression isNull columnIndexMap (.binary type .or left right) =
      extractOr (.binary type .or left right)
        ((flattenOrDisjuncts (.binary type .or left right)).map
          (extractFromExpression isNull columnIndexMap)) := by
  rw [← extractDisjuncts_eq_map]
  rfl

end Equations

end Quereus.Planner
