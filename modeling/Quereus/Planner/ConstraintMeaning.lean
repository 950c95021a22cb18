import Quereus.Planner.ConstraintExtractor
import Quereus.Planner.SatSoundness

/-! # What an extracted constraint says

A constraint is read under the comparison of the expression it comes from, and one
collapsed from a disjunction under the comparison of its column. A leaf of a predicate is
true of a row exactly when its constraints hold. The pattern operators are not symmetric,
so a leaf whose pattern is taken for the column's text is out.
-/

namespace Quereus.Planner

open Option List PredicateConstraint Scalar

variable {ν : Type}

/-- What a constraint asks of the comparison of its column with its value. -/
def ConstraintOp.test : ConstraintOp → Ordering → Bool
  | .gt => (· == .gt)
  | .ge => (· != .lt)
  | .lt => (· == .lt)
  | .le => (· != .gt)
  | _ => (· == .eq)

/-- The operator of a pattern. -/
def ConstraintOp.pattern? : ConstraintOp → Option BinaryOperator
  | .like => some .like
  | .glob => some .glob
  | .matches => some .matches
  | _ => none

section Meaning

variable (semantics : ScalarSemantics ν) (ofColumn : Nat → ν → ν → Ordering) (env : Environment ν)

/-- The values a constraint compares its column with. -/
def PredicateConstraint.operands (constraint : PredicateConstraint ν) : List ν :=
  match constraint.valueExpr with
  | .scalar expr => [expr.eval semantics env]
  | .list exprs => exprs.map (Scalar.eval semantics env)
  | .absent =>
    match constraint.value with
    | .scalar value => value.toList
    | .list values => values.filterMap id

/-- The operands of a range. -/
def RangeBound.operands (bound : RangeBound ν) : List ν :=
  match bound.valueExpr with
  | some expr => [expr.eval semantics env]
  | none => bound.value.toList

/-- The comparison of a constraint: that of the expression it comes from, or that of its
column if it is collapsed from a disjunction. -/
def PredicateConstraint.comparison (constraint : PredicateConstraint ν) : ν → ν → Ordering :=
  match constraint.sourceExpression with
  | .binary _ .or _ _ => ofColumn constraint.attributeId
  | .binary _ _ left right => semantics.comparison left.getType [right.getType]
  | .between _ _ expr lower upper =>
    if constraint.op = .ge then semantics.comparison expr.getType [lower.getType]
    else semantics.comparison expr.getType [upper.getType]
  | .inList _ condition values => semantics.comparison condition.getType (values.map Scalar.getType)
  | _ => ofColumn constraint.attributeId

/-- A range contains a value: it compares with each bound as the bound asks. -/
def RangeSpec.Contains (comparison : ν → ν → Ordering) (range : RangeSpec ν) (value : ν) : Prop :=
  (∀ bound, range.lower = some bound → ∃ operand ∈ bound.operands semantics env,
      compare3 semantics (if bound.inclusive then (· != .lt) else (· == .gt)) comparison value
        operand = some true) ∧
    ∀ bound, range.upper = some bound → ∃ operand ∈ bound.operands semantics env,
      compare3 semantics (if bound.inclusive then (· != .gt) else (· == .lt)) comparison value
        operand = some true

/-- The constraint holds of a row. -/
def PredicateConstraint.HoldsFor (constraint : PredicateConstraint ν) : Prop :=
  let value := env.attributes constraint.attributeId
  let comparison := constraint.comparison semantics ofColumn
  match constraint.op with
  | .isNull => semantics.isNull value = true
  | .isNotNull => semantics.isNull value = false
  | .orRange => ∃ range ∈ constraint.ranges, range.Contains semantics env comparison value
  | op =>
    match op.pattern? with
    | some operator => ∃ operand ∈ constraint.operands semantics env,
        semantics.truth (semantics.apply operator value operand) = some true
    | none => ∃ operand ∈ constraint.operands semantics env,
        compare3 semantics op.test comparison value operand = some true

/-- The constraints hold and the rest is true. -/
def Extracted.HoldsFor (extracted : Extracted ν) : Prop :=
  (∀ constraint ∈ extracted.constraints, constraint.HoldsFor semantics ofColumn env) ∧
    ∀ part ∈ extracted.residual, part.IsTrue semantics env

end Meaning

mutual

/-- The column references of a node with the types they announce. -/
def Scalar.columnTypes : Scalar ν → List (Nat × ScalarType)
  | .literal _ _ => []
  | .column type attributeId => [(attributeId, type)]
  | .parameter _ _ => []
  | .cast _ _ operand => operand.columnTypes
  | .collate _ operand => operand.columnTypes
  | .binary _ _ left right => left.columnTypes ++ right.columnTypes
  | .unary _ _ operand => operand.columnTypes
  | .between _ _ expr lower upper => expr.columnTypes ++ lower.columnTypes ++ upper.columnTypes
  | .inList _ condition values => condition.columnTypes ++ columnTypesAll values
  | .inSource _ condition _ => condition.columnTypes
  | .other _ _ children => columnTypesAll children

def columnTypesAll : List (Scalar ν) → List (Nat × ScalarType)
  | [] => []
  | node :: nodes => node.columnTypes ++ columnTypesAll nodes

end

/-- All references to a column announce its type. -/
def Scalar.WellTyped (types : Nat → ScalarType) (node : Scalar ν) : Prop :=
  ∀ reference ∈ node.columnTypes, reference.2 = types reference.1

/-- The parts of a predicate under its conjunctions and disjunctions. -/
def Scalar.leaves : Scalar ν → List (Scalar ν)
  | .binary _ .and left right => left.leaves ++ right.leaves
  | .binary _ .or left right => left.leaves ++ right.leaves
  | node => [node]

/-- A pattern operator with a column for its pattern only. -/
def isFlippedPattern : Scalar ν → Bool
  | .binary _ .like left right | .binary _ .glob left right | .binary _ .matches left right =>
    (columnReference? left).isNone && (columnReference? right).isSome
  | _ => false

section Used

variable (isNull : ν → Bool) (columnIndexMap : Nat → Option Nat)

/-- The parts of a predicate that make up the constraints of its disjunctions. A disjunction that
does not collapse is left as it is. -/
def Scalar.collapsedLeaves : Scalar ν → List (Scalar ν)
  | .binary _ .and left right => left.collapsedLeaves ++ right.collapsedLeaves
  | .binary type .or left right =>
    if (extractFromExpression isNull columnIndexMap (.binary type .or left right)).residual =
      [] then
      (Scalar.binary type .or left right).leaves
    else []
  | _ => []

/-- The parts of a predicate that constraints are extracted from. -/
def Scalar.extractedLeaves : Scalar ν → List (Scalar ν)
  | .binary _ .and left right => left.extractedLeaves ++ right.extractedLeaves
  | .binary type .or left right =>
    (Scalar.binary type .or left right).collapsedLeaves isNull columnIndexMap
  | node => if (extractLeaf isNull columnIndexMap node).residual = [] then [node] else []

end Used

section Leaves

variable {semantics : ScalarSemantics ν} {ofColumn : Nat → ν → ν → Ordering}
    {types : Nat → ScalarType}
  {env : Environment ν} {isNull : ν → Bool} {columnIndexMap : Nat → Option Nat}
  {node : Scalar ν} {attributeId : Nat} {constraint : PredicateConstraint ν}
  {operator : BinaryOperator} {op : ConstraintOp} {source left right valueSide : Scalar ν}
  {type : ScalarType}

theorem eval_of_columnReference? (isColumn : columnReference? node = some attributeId) :
    node.eval semantics env = env.attributes attributeId := by
  unfold columnReference? at isColumn
  split at isColumn
  · next type found unwrapped =>
    cases isColumn
    rw [← eval_unwrapCast node, unwrapped, eval]
  · cases isColumn

theorem columnTypes_unwrapCast (node : Scalar ν) : (unwrapCast node).columnTypes =
    node.columnTypes := by
  fun_induction unwrapCast node with
  | case1 type operand ih => rw [ih, columnTypes]
  | case2 node => rfl

/-- The type of a column reference of a well-typed node. -/
theorem getType_of_columnReference? (wellTyped : node.WellTyped types)
    (isColumn : columnReference? node = some attributeId) :
    (unwrapCast node).getType = types attributeId := by
  unfold columnReference? at isColumn
  split at isColumn
  · next type found unwrapped =>
    cases isColumn
    have reference : (attributeId, type) ∈ node.columnTypes := by
      rw [← columnTypes_unwrapCast, unwrapped]
      exact mem_singleton.mpr rfl
    rw [unwrapped]
    exact wellTyped _ reference
  · cases isColumn

/-- The constraints of a comparison of a column with values. -/
def ConstraintOp.compares : ConstraintOp → Bool
  | .eq | .gt | .ge | .lt | .le | .isIn => true
  | _ => false

theorem holdsFor_iff_of_compares (compares : constraint.op.compares = true) :
    constraint.HoldsFor semantics ofColumn env ↔ ∃ operand ∈ constraint.operands semantics env,
      compare3 semantics constraint.op.test (constraint.comparison semantics ofColumn)
        (env.attributes constraint.attributeId) operand = some true := by
  unfold PredicateConstraint.HoldsFor
  cases isOp : constraint.op <;> rw [isOp] at compares <;> first | rfl | cases compares

/-- The operator of an expression with the column on the left. -/
theorem mapOperatorToConstraint_cases (mapped : mapOperatorToConstraint operator = some op) :
    (op.pattern? = none ∧ op.compares = true ∧ operator.test? = some op.test) ∨
      (op.pattern? = some operator ∧ op.compares = false ∧ (flipOperator op).compares = false ∧
        operator.test? = none) := by
  cases operator <;> cases mapped <;>
    first | exact Or.inl ⟨rfl, rfl, rfl⟩ | exact Or.inr ⟨rfl, rfl, rfl, rfl⟩

/-- A flipped operator tests the swapped comparison. -/
theorem flipOperator_test (order : Ordering) (compares : op.compares = true) :
    (flipOperator op).compares = true ∧ (flipOperator op).test order.swap = op.test order := by
  cases op <;> cases compares <;> cases order <;> exact ⟨rfl, rfl⟩

/-- What the extraction of one comparison with a value gives. -/
structure ComparisonConstraint (semantics : ScalarSemantics ν) (env : Environment ν)
    (columnIndexMap : Nat → Option Nat) (source : Scalar ν) (attributeId : Nat) (op : ConstraintOp)
    (valueSide : Scalar ν) (constraint : PredicateConstraint ν) : Prop where
  indexed : columnIndexMap attributeId = some constraint.columnIndex
  isAttribute : constraint.attributeId = attributeId
  isOp : constraint.op = op
  isSource : constraint.sourceExpression = source
  binding : (constraint.valueExpr = .absent ∧ constraint.value =
    .scalar (some (valueSide.eval semantics env))) ∨
    constraint.valueExpr = .scalar valueSide ∧ constraint.value = .scalar none

theorem extractComparison_spec
    (extracted : extractComparison isNull columnIndexMap source attributeId op valueSide =
      some constraint) :
    ComparisonConstraint semantics env columnIndexMap source attributeId op valueSide
      constraint := by
  unfold extractComparison at extracted
  split at extracted
  · next constant isLiteral =>
    split at extracted
    · cases extracted
    · obtain ⟨columnIndex, isIndex, isConstraint⟩ := bind_eq_some_iff.mp extracted
      cases isConstraint
      refine ⟨isIndex, rfl, rfl, rfl, Or.inl ⟨rfl, ?_⟩⟩
      rw [eval_of_literalOf isLiteral]
  · obtain ⟨columnIndex, isIndex, bound⟩ := bind_eq_some_iff.mp extracted
    obtain ⟨bindingKind, isKind, isConstraint⟩ := bind_eq_some_iff.mp bound
    cases isConstraint
    exact ⟨isIndex, rfl, rfl, rfl, Or.inr ⟨rfl, rfl⟩⟩

/-- What does not depend on the values of a comparison. -/
theorem extractComparison_shape
    (extracted : extractComparison isNull columnIndexMap source attributeId op valueSide =
      some constraint) :
    constraint.attributeId = attributeId ∧ constraint.op = op ∧
      constraint.sourceExpression = source ∧ ∃ value, constraint.value = .scalar value := by
  unfold extractComparison at extracted
  split at extracted
  · split at extracted
    · cases extracted
    · obtain ⟨_, -, isConstraint⟩ := bind_eq_some_iff.mp extracted
      cases isConstraint
      exact ⟨rfl, rfl, rfl, _, rfl⟩
  · obtain ⟨_, -, bound⟩ := bind_eq_some_iff.mp extracted
    obtain ⟨_, -, isConstraint⟩ := bind_eq_some_iff.mp bound
    cases isConstraint
    exact ⟨rfl, rfl, rfl, _, rfl⟩

theorem ComparisonConstraint.operands
    (spec : ComparisonConstraint semantics env columnIndexMap source attributeId op valueSide
      constraint) :
    constraint.operands semantics env = [valueSide.eval semantics env] := by
  unfold PredicateConstraint.operands
  rcases spec.binding with ⟨isExpr, isValue⟩ | ⟨isExpr, isValue⟩ <;> rw [isExpr]
  rw [isValue]
  rfl

theorem unwrapCastForBindingKind_unwrapCast (node : Scalar ν) :
    unwrapCastForBindingKind (unwrapCast node) = unwrapCastForBindingKind node := by
  fun_induction unwrapCast node with
  | case1 type operand ih => rw [ih, unwrapCastForBindingKind]
  | case2 node => rfl

theorem isUsableValue_of_columnReference? (isColumn : columnReference? node = some attributeId) :
    isUsableValue node = true := by
  have isDynamic : isDynamicValue node = true := by
    unfold isDynamicValue
    rw [← unwrapCastForBindingKind_unwrapCast]
    unfold columnReference? at isColumn
    split at isColumn
    · next unwrapped => rw [unwrapped]; rfl
    · cases isColumn
  unfold isUsableValue
  rw [isDynamic, Bool.or_true]

/-- The column and the value of a binary expression, and the operator between them. -/
inductive Sides (operator : BinaryOperator) (left right : Scalar ν) :
    Nat → ConstraintOp → Scalar ν → Prop
  | straight {attributeId : Nat} {op : ConstraintOp}
      (isColumn : columnReference? left = some attributeId)
      (mapped : mapOperatorToConstraint operator = some op) :
        Sides operator left right attributeId op right
  | flipped {attributeId : Nat} {op : ConstraintOp}
      (isColumn : columnReference? right = some attributeId)
      (mapped : mapOperatorToConstraint operator = some op)
        (notColumn : columnReference? left = none) :
      Sides operator left right attributeId (flipOperator op) left

/-- A constraint comes from a column and a value on either side. -/
theorem extractBinaryConstraint_sides
    (extracted : extractBinaryConstraint isNull columnIndexMap source operator left right =
    some constraint) :
    ∃ attributeId op valueSide, Sides operator left right attributeId op valueSide ∧
      isUsableValue valueSide = true ∧
      extractComparison isNull columnIndexMap source attributeId op valueSide =
        some constraint := by
  unfold extractBinaryConstraint at extracted
  split at extracted
  · next attributeId isColumn usable =>
    obtain ⟨op, mapped, isConstraint⟩ := bind_eq_some_iff.mp extracted
    exact ⟨attributeId, op, right, .straight isColumn mapped, usable, isConstraint⟩
  · next notStraight =>
    split at extracted
    · next usable =>
      obtain ⟨attributeId, isColumn, rest⟩ := bind_eq_some_iff.mp extracted
      obtain ⟨op, mapped, isConstraint⟩ := bind_eq_some_iff.mp rest
      refine ⟨attributeId, flipOperator op, left, .flipped isColumn mapped ?_, usable, isConstraint⟩
      cases isLeft : columnReference? left with
      | none => rfl
      | some other =>
        exact absurd (isUsableValue_of_columnReference? isColumn) (notStraight other isLeft)
    · cases extracted

variable (oriented : ∀ condition values, Std.OrientedCmp (semantics.comparison condition values))

variable (sides : Sides operator left right attributeId op valueSide)

include oriented sides in
/-- A comparison is true exactly when it holds between the column and the value. -/
theorem Sides.isTrue_iff (compares : op.compares = true) :
    Scalar.IsTrue semantics env (.binary type operator left right) ↔
      compare3 semantics op.test (semantics.comparison left.getType [right.getType])
        (env.attributes attributeId)
        (valueSide.eval semantics env) = some true := by
  cases sides with
  | straight isColumn mapped =>
    rcases mapOperatorToConstraint_cases mapped with ⟨-, -, isTest⟩ | ⟨-, pattern, -⟩
    · rw [isTrue_comparison isTest, eval_of_columnReference? isColumn]
    · exact absurd compares (ne_true_of_eq_false pattern)
  | @flipped op isColumn mapped notColumn =>
    rcases mapOperatorToConstraint_cases mapped with ⟨-, straight, isTest⟩ | ⟨-, -, pattern, -⟩
    · have swap := (oriented left.getType [right.getType]).eq_swap (a := left.eval semantics env)
        (b := env.attributes attributeId)
      rw [isTrue_comparison isTest, compare3_eq_true, compare3_eq_true,
        eval_of_columnReference? isColumn, swap,
        ← (flipOperator_test _ straight).2, Ordering.swap_swap]
      exact ⟨fun ⟨first, second, third⟩ => ⟨second, first, third⟩, fun ⟨first, second, third⟩ =>
        ⟨second, first, third⟩⟩
    · exact absurd compares (ne_true_of_eq_false pattern)

include sides in
theorem Sides.valueSideOf_eq : valueSideOf left right attributeId = some valueSide := by
  unfold valueSideOf
  cases sides with
  | straight isColumn _ => rw [if_pos isColumn]
  | flipped isColumn _ notColumn => rw [if_neg (by simp [notColumn]), if_pos isColumn]

theorem getType_of_columnSideOf {side : Scalar ν} (leftTyped : left.WellTyped types)
    (rightTyped : right.WellTyped types)
    (isSide : columnSideOf left right attributeId = some side) :
    side.getType = types attributeId := by
  unfold columnSideOf at isSide
  split at isSide
  · next isColumn =>
    cases isSide
    exact getType_of_columnReference? leftTyped isColumn
  · split at isSide
    · next isColumn =>
      cases isSide
      exact getType_of_columnReference? rightTyped isColumn
    · cases isSide

theorem holdsFor_iff_of_pattern (isPattern : constraint.op.pattern? = some operator) :
    constraint.HoldsFor semantics ofColumn env ↔ ∃ operand ∈ constraint.operands semantics env,
      semantics.truth (semantics.apply operator (env.attributes constraint.attributeId) operand) =
        some true := by
  unfold PredicateConstraint.HoldsFor
  cases isOp : constraint.op <;> rw [isOp] at isPattern <;> cases isPattern <;> rfl

theorem isTrue_pattern (isPattern : op.pattern? = some operator) :
    Scalar.IsTrue semantics env (.binary type operator left right) ↔
      semantics.truth (semantics.apply operator (left.eval semantics env)
        (right.eval semantics env)) = some true := by
  cases op <;> cases isPattern <;> rfl

theorem comparison_of_binary
    (isSource : constraint.sourceExpression = .binary type operator left right)
    (notOr : operator ≠ .or) :
    constraint.comparison semantics ofColumn =
      semantics.comparison left.getType [right.getType] := by
  simp only [comparison, isSource]

theorem ne_or_of_mapOperatorToConstraint (mapped : mapOperatorToConstraint operator = some op) :
    operator ≠ .or := by
  rintro rfl
  cases mapped

include sides in
theorem Sides.mapped :
    ∃ straight, mapOperatorToConstraint operator = some straight ∧
      (op = straight ∨ op = flipOperator straight) := by
  cases sides with
  | straight _ mapped => exact ⟨_, mapped, Or.inl rfl⟩
  | flipped _ mapped _ => exact ⟨_, mapped, Or.inr rfl⟩

include oriented in
/-- A binary predicate is true exactly when its constraint holds. -/
theorem extractBinaryConstraint_exact
    (straight : isFlippedPattern (.binary type operator left right) = false)
    (extracted : extractBinaryConstraint isNull columnIndexMap (.binary type operator left right)
      operator left right =
      some constraint) :
    Scalar.IsTrue semantics env (.binary type operator left right) ↔
      constraint.HoldsFor semantics ofColumn env := by
  obtain ⟨attributeId, op, valueSide, sides, -, isComparison⟩ :=
    extractBinaryConstraint_sides extracted
  have spec : ComparisonConstraint semantics env columnIndexMap _ attributeId op valueSide
      constraint :=
    extractComparison_spec isComparison
  obtain ⟨original, mapped, related⟩ := sides.mapped
  cases compares : op.compares with
  | true =>
    rw [sides.isTrue_iff oriented compares, holdsFor_iff_of_compares (spec.isOp ▸ compares),
      comparison_of_binary spec.isSource (ne_or_of_mapOperatorToConstraint mapped), spec.operands,
      spec.isAttribute, spec.isOp]
    simp
  | false =>
    cases sides with
    | straight isColumn mapped =>
      rcases mapOperatorToConstraint_cases mapped with ⟨-, compared, -⟩ | ⟨isPattern, -⟩
      · exact absurd compared (ne_true_of_eq_false compares)
      · rw [isTrue_pattern isPattern, holdsFor_iff_of_pattern (spec.isOp ▸ isPattern),
          spec.operands,
          spec.isAttribute, eval_of_columnReference? isColumn]
        simp
    | @flipped op isColumn mapped notColumn =>
      rcases mapOperatorToConstraint_cases mapped with ⟨-, compared, -⟩ | ⟨isPattern, -⟩
      · exact absurd (flipOperator_test .eq compared).1 (ne_true_of_eq_false compares)
      · cases op <;> cases isPattern <;> simp [isFlippedPattern, isColumn, notColumn] at straight

variable {constraints : List (PredicateConstraint ν)} {values : List (Scalar ν)}

variable {expr lower upper condition : Scalar ν} {not : Bool}

theorem extractBetweenConstraints_eq_some
    (extracted : extractBetweenConstraints isNull columnIndexMap source not expr lower upper =
      some constraints) :
    not = false ∧ ∃ attributeId low high columnIndex, columnReference? expr = some attributeId ∧
      valueOf isNull lower = some low ∧ valueOf isNull upper = some high ∧
      columnIndexMap attributeId = some columnIndex ∧
      constraints =
        [⟨columnIndex, attributeId, .ge, .scalar (some low), .absent, .literal, false, [], source⟩,
        ⟨columnIndex, attributeId, .le, .scalar (some high), .absent, .literal, false, [],
          source⟩] := by
  cases not with
  | true => cases extracted
  | false =>
    obtain ⟨attributeId, isColumn, rest⟩ := bind_eq_some_iff.mp extracted
    obtain ⟨low, isLow, rest⟩ := bind_eq_some_iff.mp rest
    obtain ⟨high, isHigh, rest⟩ := bind_eq_some_iff.mp rest
    obtain ⟨columnIndex, isIndex, isList⟩ := bind_eq_some_iff.mp rest
    cases isList
    exact ⟨rfl, attributeId, low, high, columnIndex, isColumn, isLow, isHigh, isIndex, rfl⟩

/-- A range is true exactly when both its constraints hold. -/
theorem extractBetweenConstraints_exact
    (extracted : extractBetweenConstraints semantics.isNull columnIndexMap
      (.between type not expr lower upper) not
      expr lower upper = some constraints) :
    Scalar.IsTrue semantics env (.between type not expr lower upper) ↔
      ∀ constraint ∈ constraints, constraint.HoldsFor semantics ofColumn env := by
  obtain ⟨rfl, attributeId, low, high, columnIndex, isColumn, isLow, isHigh, -, rfl⟩ :=
    extractBetweenConstraints_eq_some extracted
  rw [isTrue_between, (eval_of_valueOf env isLow).1, (eval_of_valueOf env isHigh).1,
    eval_of_columnReference? isColumn, forall_mem_cons, forall_mem_singleton,
      holdsFor_iff_of_compares rfl,
    holdsFor_iff_of_compares rfl]
  simp [operands, comparison, ConstraintOp.test]

theorem extractInConstraint_eq_some
    (extracted : extractInConstraint columnIndexMap source condition values = some constraint) :
    ∃ type attributeId columnIndex, condition = .column type attributeId ∧
      columnIndexMap attributeId = some columnIndex ∧ constraint.columnIndex = columnIndex ∧
      constraint.attributeId = attributeId ∧ constraint.op = .isIn ∧
        constraint.sourceExpression = source ∧
      constraint.value = .list (values.map literalOf) ∧
      (constraint.valueExpr =
        if values.all (fun value => (literalOf value).isSome) then .absent else .list values) ∧
      values ≠ [] ∧ ∀ value ∈ values, isUsableValue value = true := by
  unfold extractInConstraint at extracted
  split at extracted
  · next type attributeId =>
    split at extracted
    · cases extracted
    next usable =>
      rw [not_or, not_not] at usable
      obtain ⟨columnIndex, isIndex, isConstraint⟩ := bind_eq_some_iff.mp extracted
      cases isConstraint
      exact ⟨type, attributeId, columnIndex, rfl, isIndex, rfl, rfl, rfl, rfl, rfl, rfl, usable.1,
        all_eq_true.mp usable.2⟩
  · cases extracted

/-- A list of literals is the list of their values. -/
theorem filterMap_literalOf (env : Environment ν)
    (allLiteral : values.all (fun value => (literalOf value).isSome) = true) :
    (values.map literalOf).filterMap id = values.map (Scalar.eval semantics env) := by
  induction values with
  | nil => rfl
  | cons value values ih =>
    obtain ⟨isLiteral, others⟩ := Bool.and_eq_true_iff.mp (all_cons ▸ allLiteral)
    obtain ⟨constant, isConstant⟩ := isSome_iff_exists.mp isLiteral
    rw [map_cons, map_cons, isConstant, eval_of_literalOf isConstant, ← ih others]
    rfl

theorem operands_of_list (isValue : constraint.value = .list (values.map literalOf))
    (isExpr : constraint.valueExpr =
      if values.all (fun value => (literalOf value).isSome) then .absent else .list values) :
    constraint.operands semantics env = values.map (Scalar.eval semantics env) := by
  unfold operands
  by_cases allLiteral : values.all (fun value => (literalOf value).isSome) = true
  · rw [isExpr, if_pos allLiteral, isValue]
    exact filterMap_literalOf env allLiteral
  · rw [isExpr, if_neg allLiteral]

theorem extractNullConstraint_eq_some {operand : Scalar ν}
    (extracted : extractNullConstraint columnIndexMap source operand op = some constraint) :
    ∃ attributeId columnIndex, columnReference? operand = some attributeId ∧
      columnIndexMap attributeId = some columnIndex ∧
      constraint = ⟨columnIndex, attributeId, op, .scalar none, .absent, .literal, false, [],
        source⟩ := by
  obtain ⟨attributeId, isColumn, rest⟩ := bind_eq_some_iff.mp extracted
  obtain ⟨columnIndex, isIndex, isConstraint⟩ := bind_eq_some_iff.mp rest
  cases isConstraint
  exact ⟨attributeId, columnIndex, isColumn, isIndex, rfl⟩

theorem holdsFor_ofConstraint {found : Option (PredicateConstraint ν)}
    (exact : ∀ constraint, found = some constraint →
      (source.IsTrue semantics env ↔ constraint.HoldsFor semantics ofColumn env)) :
    source.IsTrue semantics env ↔ (Extracted.ofConstraint source found).HoldsFor semantics
      ofColumn env := by
  cases found with
  | none => simp [Extracted.ofConstraint, Extracted.HoldsFor]
  | some constraint => simp [Extracted.ofConstraint, Extracted.HoldsFor, exact constraint rfl]

include oriented in
/-- A leaf is true exactly when what is extracted from it holds. -/
theorem extractLeaf_exact {leaf : Scalar ν}
    (straight : (extractLeaf semantics.isNull columnIndexMap leaf).residual = [] →
      isFlippedPattern leaf = false) :
    leaf.IsTrue semantics env ↔
      (extractLeaf semantics.isNull columnIndexMap leaf).HoldsFor semantics ofColumn env := by
  unfold extractLeaf at straight ⊢
  split
  · split
    · next isExtracted =>
        simpa [Extracted.HoldsFor] using extractBetweenConstraints_exact isExtracted
    · simp [Extracted.HoldsFor]
  · next type condition values =>
    refine holdsFor_ofConstraint fun constraint extracted => ?_
    obtain ⟨columnType, attributeId, columnIndex, rfl, -, -, isAttribute, isOp, isSource, isValue,
        isExpr, -⟩ :=
      extractInConstraint_eq_some extracted
    have comparison : constraint.comparison semantics ofColumn =
        semantics.comparison (column columnType attributeId : Scalar ν).getType
          (values.map getType) := by
      simp only [comparison, isSource]
    rw [isTrue_inList, holdsFor_iff_of_compares (isOp ▸ rfl),
      operands_of_list isValue isExpr, comparison,
      isAttribute, isOp, eval]
    simp [ConstraintOp.test]
  iterate 2
    · refine holdsFor_ofConstraint fun constraint isExtracted => ?_
      obtain ⟨attributeId, columnIndex, isColumn, -, rfl⟩ :=
        extractNullConstraint_eq_some isExtracted
      simp only [isTrue_isNull, isTrue_isNotNull, eval_of_columnReference? isColumn]
      rfl
  · refine holdsFor_ofConstraint fun _ isExtracted => ?_
    have isStraight := straight (by simp only [isExtracted, Extracted.ofConstraint])
    exact extractBinaryConstraint_exact oriented isStraight isExtracted
  · simp [Extracted.HoldsFor]

end Leaves

end Quereus.Planner
