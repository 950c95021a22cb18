import Quereus.Planner.ComparisonCollation
import Quereus.Planner.Facts
import Quereus.Planner.SatSoundness

/-! # Predicates and the clauses they are recognized as

The expression of a predicate, how a query evaluates it and the clauses that the planner
recognizes it as. The clauses are true of exactly the rows that the predicate keeps.
-/

namespace Quereus.Planner

open ThreeValued List Option

variable {ν : Type}

section Meaning

variable (semantics : ScalarSemantics ν) (collations : Collations ν) (declared : Nat → String)

/-- The value compares equal to a constant in a column. -/
def EqualsConstant (row : Nat → ν) (column : Nat) (value : ν) : Prop :=
  compare3 semantics (· == .eq) (collations.collated (declared column)) (row column)
    value = some true

mutual

/-- A clause is true of a row, each comparison under the declared collation of its column. -/
def GuardClause.Satisfied (row : Nat → ν) : GuardClause ν → Prop
  | .eqLiteral column value => EqualsConstant semantics collations declared row column value
  | .eqColumn left right => EqualsConstant semantics collations declared row left (row right)
  | .isNull column negated => semantics.isNull (row column) = !negated
  | .range column min max minInclusive maxInclusive =>
    (∀ bound, min = some bound → compare3 semantics
      (if minInclusive then (· != .lt) else (· == .gt))
        (collations.collated (declared column)) (row column) bound = some true) ∧
      ∀ bound, max = some bound → compare3 semantics
        (if maxInclusive then (· != .gt) else (· == .lt))
        (collations.collated (declared column)) (row column) bound = some true
  | .orOf clauses => SomeSatisfied row clauses

def SomeSatisfied (row : Nat → ν) : List (GuardClause ν) → Prop
  | [] => False
  | clause :: clauses => clause.Satisfied row ∨ SomeSatisfied row clauses

end

variable {semantics collations declared}

theorem someSatisfied_iff {row : Nat → ν} {clauses : List (GuardClause ν)} :
    SomeSatisfied semantics collations declared row clauses ↔
      ∃ clause ∈ clauses, clause.Satisfied semantics collations declared row := by
  induction clauses with
  | nil => simp [SomeSatisfied]
  | cons clause clauses ih => rw [SomeSatisfied, ih, exists_mem_cons_iff]

end Meaning

/-- The unary operators of a partial index predicate. -/
inductive PredicateUnary where
  | isNull
  | isNotNull
  | isTrue
  | isNotTrue
  | isFalse
  | isNotFalse
  | not
  | plus
  | minus
  | other
  deriving DecidableEq

/-- The expression of a partial predicate. A column is given by what its name resolves to. -/
inductive PredicateExpr (ν : Type) where
  | literal (value : ν)
  | column (index : Option Nat)
  | unary (operator : PredicateUnary) (operand : PredicateExpr ν)
  | binary (operator : BinaryOperator) (left right : PredicateExpr ν)
  | inList (operand : PredicateExpr ν) (values : List (PredicateExpr ν))
  | inSubquery (operand : PredicateExpr ν)
  | between (not : Bool) (expr lower upper : PredicateExpr ν)
  | other

section Operators

variable (semantics : ScalarSemantics ν) (compareSqlValues : ν → ν → Ordering)

def compileUnary (operator : PredicateUnary) (operand : ν) : Option ν :=
  match operator with
  | .isNull => some (semantics.ofTruth (some (semantics.isNull operand)))
  | .isNotNull => some (semantics.ofTruth (some (!semantics.isNull operand)))
  | .isTrue => some (semantics.ofTruth (some ((semantics.truth operand).getD false)))
  | .isNotTrue => some (semantics.ofTruth (some (!(semantics.truth operand).getD false)))
  | .isFalse => some (semantics.ofTruth (some (!(semantics.truth operand).getD true)))
  | .isNotFalse => some (semantics.ofTruth (some ((semantics.truth operand).getD true)))
  | .not => some (semantics.ofTruth (not3 (semantics.truth operand)))
  | .plus => some (semantics.applyUnary "+" operand)
  | .minus => some (semantics.applyUnary "-" operand)
  | .other => none

def compileBinary (operator : BinaryOperator) (left right : ν) : Option ν :=
  match operator.test? with
  | some test => some (semantics.ofTruth (compare3 semantics test compareSqlValues left right))
  | none =>
    match operator with
    | .and => some (semantics.ofTruth (and3 (semantics.truth left) (semantics.truth right)))
    | .or => some (semantics.ofTruth (or3 (semantics.truth left) (semantics.truth right)))
    | .is => some (semantics.ofTruth (some (isTruth semantics compareSqlValues left right)))
    | .isNot => some (semantics.ofTruth (some (!isTruth semantics compareSqlValues left right)))
    | _ => none

end Operators

structure PredicateColumns where
  count : Nat
  notNull : Nat → Bool
  isNumeric : Nat → Bool

/-- The column an expression names. -/
def PredicateExpr.resolve : PredicateExpr ν → Option Nat
  | .column index => index
  | _ => none

def PredicateExpr.literalValue : PredicateExpr ν → Option ν
  | .literal value => some value
  | _ => none

section Recognition

variable (isNull : ν → Bool) (zero : ν) (columns : PredicateColumns)

/-- The range of a comparison with a literal. -/
def rangeClause (operator : BinaryOperator) (column : Nat) (literal : ν) : Option (GuardClause ν) :=
  match operator with
  | .gt => some (.range column (some literal) none false false)
  | .ge => some (.range column (some literal) none true false)
  | .lt => some (.range column none (some literal) false false)
  | .le => some (.range column none (some literal) false true)
  | _ => none

def nonNullLiteral (expr : PredicateExpr ν) : Option ν :=
  expr.literalValue.filter (!isNull ·)

/-- A comparison with a literal on either side. -/
def recognizeRange (operator : BinaryOperator) (left right : PredicateExpr ν) :
    Option (GuardClause ν) :=
  match left.resolve, right.resolve with
  | some column, _ => do rangeClause operator column (← nonNullLiteral isNull right)
  | none, some column =>
    do rangeClause (flipComparison operator) column (← nonNullLiteral isNull left)
  | none, none => none

/-- An equality with a literal or of two columns. -/
def recognizeEquality (left right : PredicateExpr ν) : Option (GuardClause ν) :=
  match left.resolve, right.resolve with
  | some l, some r => if l = r then none else some (.eqColumn l r)
  | some l, none => right.literalValue.map (.eqLiteral l)
  | none, some r => left.literalValue.map (.eqLiteral r)
  | none, none => none

def recognizeUnary (operator : PredicateUnary) (operand : PredicateExpr ν) :
    Option (GuardClause ν) := do
  let column ← operand.resolve
  match operator with
  | .isNull => some (.isNull column false)
  | .isNotNull => some (.isNull column true)
  | .not =>
    if columns.notNull column && columns.isNumeric column then some (.eqLiteral column zero)
    else none
  | _ => none

/-- A range with both bounds. -/
def recognizeBetween (not : Bool) (expr lower upper : PredicateExpr ν) : Option (GuardClause ν) :=
  if not then none
  else do
    let column ← expr.resolve
    let low ← nonNullLiteral isNull lower
    let high ← nonNullLiteral isNull upper
    return .range column (some low) (some high) true true

/-- One clause is itself, several are a disjunction. -/
def orOfClauses (clauses : List (GuardClause ν)) : GuardClause ν :=
  match clauses with
  | [clause] => clause
  | clauses => .orOf clauses

/-- A choice of literals. -/
def recognizeIn (operand : PredicateExpr ν) (values : List (PredicateExpr ν)) :
    Option (GuardClause ν) :=
  if values.isEmpty then none
  else do
    let column ← operand.resolve
    let literals ← values.mapM PredicateExpr.literalValue
    return orOfClauses (literals.map (.eqLiteral column))

/-- The clause of an expression that is no disjunction. -/
def recognizeLeaf : PredicateExpr ν → Option (GuardClause ν)
  | .unary operator operand => recognizeUnary zero columns operator operand
  | .inList operand values => recognizeIn operand values
  | .between not expr lower upper => recognizeBetween isNull not expr lower upper
  | .binary .eq left right | .binary .eqEq left right => recognizeEquality left right
  | .binary .lt left right => recognizeRange isNull .lt left right
  | .binary .le left right => recognizeRange isNull .le left right
  | .binary .gt left right => recognizeRange isNull .gt left right
  | .binary .ge left right => recognizeRange isNull .ge left right
  | _ => none

/-- The disjuncts of a clause. -/
def GuardClause.disjuncts : GuardClause ν → List (GuardClause ν)
  | .orOf clauses => clauses
  | clause => [clause]

/-- The clauses of the disjuncts of an expression, in one list. -/
def recognizeDisjuncts : PredicateExpr ν → Option (List (GuardClause ν))
  | .binary .or left right => do return (← recognizeDisjuncts left) ++ (← recognizeDisjuncts right)
  | expr => (recognizeLeaf isNull zero columns expr).map GuardClause.disjuncts

/-- One clause of a conjunction. -/
def recognizeClause (expr : PredicateExpr ν) : Option (GuardClause ν) :=
  match expr with
  | .binary .or _ _ => (recognizeDisjuncts isNull zero columns expr).map orOfClauses
  | _ => recognizeLeaf isNull zero columns expr

/-- The clauses of a predicate, none if one of its conjuncts is not recognized. -/
def recognizeGuardClauses : PredicateExpr ν → Option (List (GuardClause ν))
  | .binary .and left right =>
    do return (← recognizeGuardClauses left) ++ (← recognizeGuardClauses right)
  | expr => (recognizeClause isNull zero columns expr).map ([·])

end Recognition

/-- How a query compares and computes: a column with a constant under what the column
declares, two columns under what both declare. -/
structure QueryEngine (ν : Type) where
  semantics : ScalarSemantics ν
  constant : Nat → ν → ν → Ordering
  columns : Nat → Nat → ν → ν → Ordering
  /-- Comparisons with an operand that is neither a column nor a constant. -/
  operands : PredicateExpr ν → List (PredicateExpr ν) → ν → ν → Ordering
  /-- Expressions that are computed in another way. -/
  compute : PredicateExpr ν → (Nat → ν) → ν
  lawful : ∀ column, Std.TransCmp (constant column)
  symmetric : ∀ left right a b, columns left right a b = .eq → columns right left b a = .eq

instance (engine : QueryEngine ν) (column : Nat) : Std.TransCmp (engine.constant column) :=
  engine.lawful column

variable {row : Nat → ν}

section Evaluation

variable (engine : QueryEngine ν)

def QueryEngine.comparison (left : PredicateExpr ν) (values : List (PredicateExpr ν)) :
    ν → ν → Ordering :=
  match left, values with
  | .column (some l), [.column (some r)] => engine.columns l r
  | .column (some l), values =>
    if values.all (·.literalValue.isSome) then engine.constant l else engine.operands left values
  | .literal _, [.column (some r)] => engine.constant r
  | left, values => engine.operands left values

mutual

/-- The value of a predicate for a row. -/
def PredicateExpr.value (row : Nat → ν) : PredicateExpr ν → ν
  | .literal value => value
  | .column (some index) => row index
  | .column none => engine.compute (.column none) row
  | .unary operator operand =>
    (compileUnary engine.semantics operator (operand.value row)).getD
      (engine.compute (.unary operator operand) row)
  | .binary operator left right =>
    (compileBinary engine.semantics (engine.comparison left [right]) operator (left.value row)
      (right.value row)).getD (engine.compute (.binary operator left right) row)
  | .inList operand values =>
    engine.semantics.ofTruth (inTruth engine.semantics (engine.comparison operand values)
      (operand.value row)
      (valueAll row values))
  | .inSubquery operand => engine.compute (.inSubquery operand) row
  | .between not expr lower upper =>
    let truth := betweenTruth engine.semantics (engine.comparison expr [lower])
      (engine.comparison expr [upper])
      (expr.value row) (lower.value row) (upper.value row)
    engine.semantics.ofTruth (if not then not3 truth else truth)
  | .other => engine.compute .other row

def valueAll (row : Nat → ν) : List (PredicateExpr ν) → List ν
  | [] => []
  | expr :: exprs => expr.value row :: valueAll row exprs

end

/-- A query keeps the row. -/
def PredicateExpr.Keeps (row : Nat → ν) (predicate : PredicateExpr ν) : Prop :=
  engine.semantics.truth (predicate.value engine row) = some true

instance (row : Nat → ν) (predicate : PredicateExpr ν) : Decidable (predicate.Keeps engine row) :=
  inferInstanceAs (Decidable (_ = _))

/-- The value is beyond a bound on its side, if there is a bound. -/
def BeyondBound (side : Ordering) (column : Nat) (inclusive : Bool) (value : ν)
    (bound : Option ν) : Prop :=
  ∀ limit, bound = some limit → engine.semantics.isNull limit = false →
    (if inclusive then (· != side.swap) else (· == side))
    (engine.constant column value limit) = true

mutual

/-- A clause is true of a row in a query. -/
def GuardClause.Holds (row : Nat → ν) : GuardClause ν → Prop
  | .eqLiteral column value =>
    compare3 engine.semantics (· == .eq) (engine.constant column) (row column) value = some true
  | .eqColumn left right =>
    compare3 engine.semantics (· == .eq) (engine.columns left right) (row left) (row right) =
      some true
  | .isNull column negated => engine.semantics.isNull (row column) = !negated
  | .range column min max minInclusive maxInclusive =>
    engine.semantics.isNull (row column) = false ∧
      BeyondBound engine .gt column minInclusive (row column) min ∧
      BeyondBound engine .lt column maxInclusive (row column) max
  | .orOf clauses => SomeHolds row clauses

def SomeHolds (row : Nat → ν) : List (GuardClause ν) → Prop
  | [] => False
  | clause :: clauses => clause.Holds row ∨ SomeHolds row clauses

end

variable {engine}

theorem someHolds_iff {clauses : List (GuardClause ν)} :
    SomeHolds engine row clauses ↔ ∃ clause ∈ clauses, clause.Holds engine row := by
  induction clauses with
  | nil => simp [SomeHolds]
  | cons clause clauses ih => rw [SomeHolds, ih, exists_mem_cons_iff]

theorem valueAll_eq_map (exprs : List (PredicateExpr ν)) :
    valueAll engine row exprs = exprs.map (PredicateExpr.value engine row) := by
  induction exprs with
  | nil => rfl
  | cons expr exprs ih => rw [valueAll, ih, map_cons]

end Evaluation

variable {engine : QueryEngine ν}

section Columns

variable {other : Nat → ν}

variable (clauses : List (GuardClause ν))

theorem clauseColumnsAll_eq_flatMap : clauseColumnsAll clauses = clauses.flatMap clauseColumns := by
  induction clauses with
  | nil => rfl
  | cons clause clauses ih => rw [clauseColumnsAll, ih, flatMap_cons]

theorem clauseColumnsAll_append (others : List (GuardClause ν)) :
    clauseColumnsAll (clauses ++ others) = clauseColumnsAll clauses ++ clauseColumnsAll others := by
  simp [clauseColumnsAll_eq_flatMap]

theorem clauseColumnsAll_disjuncts (clause : GuardClause ν) :
    clauseColumnsAll clause.disjuncts = clauseColumns clause := by
  cases clause <;> simp [GuardClause.disjuncts, clauseColumnsAll_eq_flatMap, clauseColumns]

theorem clauseColumns_orOfClauses :
    clauseColumns (orOfClauses clauses) = clauseColumnsAll clauses := by
  unfold orOfClauses
  split
  · rw [clauseColumnsAll, clauseColumnsAll, append_nil]
  · rw [clauseColumns]

mutual

/-- The truth of a clause depends on its columns only. -/
theorem GuardClause.holds_congr : ∀ (clause : GuardClause ν),
    (∀ column ∈ clauseColumns clause, row column = other column) →
    (clause.Holds engine row ↔ clause.Holds engine other)
  | .eqLiteral column value, same => by
    rw [clauseColumns, forall_mem_singleton] at same
    rw [GuardClause.Holds, GuardClause.Holds, same]
  | .eqColumn left right, same => by
    simp only [clauseColumns, forall_mem_cons] at same
    rw [GuardClause.Holds, GuardClause.Holds, same.1, same.2.1]
  | .isNull column negated, same => by
    rw [clauseColumns, forall_mem_singleton] at same
    rw [GuardClause.Holds, GuardClause.Holds, same]
  | .range column min max minInclusive maxInclusive, same => by
    rw [clauseColumns, forall_mem_singleton] at same
    rw [GuardClause.Holds, GuardClause.Holds, same]
  | .orOf clauses, same => by
    exact someHolds_congr clauses same

theorem someHolds_congr : ∀ (clauses : List (GuardClause ν)),
    (∀ column ∈ clauseColumnsAll clauses, row column = other column) →
    (SomeHolds engine row clauses ↔ SomeHolds engine other clauses)
  | [], _ => by rw [SomeHolds, SomeHolds]
  | clause :: clauses, same => by
    rw [clauseColumnsAll, forall_mem_append] at same
    rw [SomeHolds, SomeHolds, clause.holds_congr same.1, someHolds_congr clauses same.2]

end

end Columns

variable {isNull : ν → Bool} {zero value : ν} {columns : PredicateColumns} {expr : PredicateExpr ν}
  {clause : GuardClause ν} {operator : BinaryOperator}

section Leaves

/-- The expressions that are recognized as one clause. -/
inductive RecognizedLeaf (isNull : ν → Bool) (zero : ν) (columns : PredicateColumns) :
    PredicateExpr ν → GuardClause ν → Prop
  | isNull (column : Nat) : RecognizedLeaf isNull zero columns
      (.unary .isNull (.column (some column))) (.isNull column false)
  | isNotNull (column : Nat) :
      RecognizedLeaf isNull zero columns (.unary .isNotNull (.column (some column)))
        (.isNull column true)
  | not {column : Nat} (notNull : columns.notNull column = true)
      (isNumeric : columns.isNumeric column = true) :
      RecognizedLeaf isNull zero columns (.unary .not (.column (some column)))
        (.eqLiteral column zero)
  | inList (column : Nat) {literals : List ν} (nonempty : literals ≠ []) :
      RecognizedLeaf isNull zero columns (.inList (.column (some column)) (literals.map .literal))
        (orOfClauses (literals.map (.eqLiteral column)))
  | between (column : Nat) {low high : ν} (lowNotNull : isNull low = false)
      (highNotNull : isNull high = false) :
      RecognizedLeaf isNull zero columns (.between false (.column (some column)) (.literal low)
        (.literal high))
        (.range column (some low) (some high) true true)
  | columns {operator : BinaryOperator} (isEq : operator.test? = some (· == .eq))
      (left right : Nat) :
      RecognizedLeaf isNull zero columns
        (.binary operator (.column (some left)) (.column (some right)))
        (.eqColumn left right)
  | constant {operator : BinaryOperator} (isEq : operator.test? = some (· == .eq)) (column : Nat)
      (value : ν) :
      RecognizedLeaf isNull zero columns (.binary operator (.column (some column)) (.literal value))
        (.eqLiteral column value)
  | flippedConstant {operator : BinaryOperator}
      (isEq : (flipComparison operator).test? = some (· == .eq)) (column : Nat)
      (value : ν) :
      RecognizedLeaf isNull zero columns (.binary operator (.literal value) (.column (some column)))
        (.eqLiteral column value)
  | range {operator : BinaryOperator} {column : Nat} {value : ν} {clause : GuardClause ν}
      (notNull : isNull value = false)
      (isClause : rangeClause operator column value = some clause) :
      RecognizedLeaf isNull zero columns (.binary operator (.column (some column)) (.literal value))
        clause
  | flippedRange {operator : BinaryOperator} {column : Nat} {value : ν} {clause : GuardClause ν}
      (notNull : isNull value = false) (isClause :
        rangeClause (flipComparison operator) column value = some clause) :
      RecognizedLeaf isNull zero columns (.binary operator (.literal value) (.column (some column)))
        clause

theorem resolve_eq_some {column : Nat} (resolved : expr.resolve = some column) :
    expr = .column (some column) := by
  cases expr <;> cases resolved
  rfl

variable {left right : PredicateExpr ν}

theorem literalValue_eq_some (isLiteral : expr.literalValue = some value) :
    expr = .literal value := by
  cases expr <;> cases isLiteral
  rfl

theorem nonNullLiteral_eq_some (isLiteral : nonNullLiteral isNull expr = some value) :
    expr = .literal value ∧ isNull value = false := by
  obtain ⟨isValue, passes⟩ := filter_eq_some_iff.mp isLiteral
  exact ⟨literalValue_eq_some isValue, by simpa using passes⟩

theorem literalValues_eq {values : List (PredicateExpr ν)} {literals : List ν}
    (areLiterals : values.mapM PredicateExpr.literalValue = some literals) :
      values = literals.map .literal := by
  rw [Fallible.mapM_eq_some_iff] at areLiterals
  induction areLiterals with
  | nil => rfl
  | cons isLiteral _ ih => rw [literalValue_eq_some isLiteral, ih, map_cons]

theorem recognizedRange (recognized : recognizeRange isNull operator left right = some clause) :
    RecognizedLeaf isNull zero columns (.binary operator left right) clause := by
  unfold recognizeRange at recognized
  split at recognized
  · next column isColumn =>
    obtain ⟨literal, isLiteral, isClause⟩ := bind_eq_some_iff.mp recognized
    obtain ⟨rfl, notNull⟩ := nonNullLiteral_eq_some isLiteral
    obtain rfl := resolve_eq_some isColumn
    exact .range notNull isClause
  · next column _ isColumn =>
    obtain ⟨literal, isLiteral, isClause⟩ := bind_eq_some_iff.mp recognized
    obtain ⟨rfl, notNull⟩ := nonNullLiteral_eq_some isLiteral
    obtain rfl := resolve_eq_some isColumn
    exact .flippedRange notNull isClause
  · cases recognized

theorem recognizedEquality (isEq : operator.test? = some (· == .eq))
    (isFlipped : (flipComparison operator).test? = some (· == .eq))
    (recognized : recognizeEquality left right = some clause) :
    RecognizedLeaf isNull zero columns (.binary operator left right) clause := by
  unfold recognizeEquality at recognized
  split at recognized
  · next l r isLeft isRight =>
    obtain rfl := resolve_eq_some isLeft
    obtain rfl := resolve_eq_some isRight
    split at recognized <;> cases recognized
    exact .columns isEq l r
  · next l isLeft _ =>
    obtain ⟨literal, isLiteral, rfl⟩ := map_eq_some_iff.mp recognized
    obtain rfl := resolve_eq_some isLeft
    obtain rfl := literalValue_eq_some isLiteral
    exact .constant isEq l literal
  · next r _ isRight =>
    obtain ⟨literal, isLiteral, rfl⟩ := map_eq_some_iff.mp recognized
    obtain rfl := resolve_eq_some isRight
    obtain rfl := literalValue_eq_some isLiteral
    exact .flippedConstant isFlipped r literal
  · cases recognized

/-- What a leaf is recognized as. -/
theorem recognizedLeaf (recognized : recognizeLeaf isNull zero columns expr = some clause) :
    RecognizedLeaf isNull zero columns expr clause := by
  unfold recognizeLeaf at recognized
  split at recognized
  · obtain ⟨column, isColumn, isClause⟩ := bind_eq_some_iff.mp recognized
    obtain rfl := resolve_eq_some isColumn
    split at isClause <;> try cases isClause
    · exact .isNull column
    · exact .isNotNull column
    · split at isClause <;> cases isClause
      next declares =>
        obtain ⟨notNull, isNumeric⟩ := Bool.and_eq_true_iff.mp declares
        exact .not notNull isNumeric
  · unfold recognizeIn at recognized
    split at recognized
    · cases recognized
    · next nonempty =>
      obtain ⟨column, isColumn, rest⟩ := bind_eq_some_iff.mp recognized
      obtain ⟨literals, areLiterals, isClause⟩ := bind_eq_some_iff.mp rest
      cases isClause
      obtain rfl := resolve_eq_some isColumn
      obtain rfl := literalValues_eq areLiterals
      exact .inList column (by simpa using nonempty)
  · unfold recognizeBetween at recognized
    split at recognized
    · cases recognized
    · next isNot =>
      obtain ⟨column, isColumn, rest⟩ := bind_eq_some_iff.mp recognized
      obtain ⟨low, isLow, rest⟩ := bind_eq_some_iff.mp rest
      obtain ⟨high, isHigh, isClause⟩ := bind_eq_some_iff.mp rest
      cases isClause
      obtain rfl := resolve_eq_some isColumn
      obtain ⟨rfl, lowNotNull⟩ := nonNullLiteral_eq_some isLow
      obtain ⟨rfl, highNotNull⟩ := nonNullLiteral_eq_some isHigh
      rw [Bool.not_eq_true] at isNot
      exact isNot ▸ .between column lowNotNull highNotNull
  iterate 2 · exact recognizedEquality rfl rfl recognized
  iterate 4 · exact recognizedRange recognized
  · cases recognized

end Leaves

/-- A relation between truths that the connectives keep. -/
structure Compositional (rel : Prop → Prop → Prop) : Prop where
  of_iff : ∀ {p q}, (p ↔ q) → rel p q
  and : ∀ {p q p' q'}, rel p q → rel p' q' → rel (p ∧ p') (q ∧ q')
  or : ∀ {p q p' q'}, rel p q → rel p' q' → rel (p ∨ p') (q ∨ q')

theorem compositional_iff : Compositional Iff :=
  ⟨id, and_congr, or_congr⟩

theorem compositional_if : Compositional fun p q => q → p :=
  ⟨Iff.mpr, And.imp, Or.imp⟩

section Composition

variable {rel : Prop → Prop → Prop} {keeps : PredicateExpr ν → Prop} {holds : GuardClause ν → Prop}
  (composes : Compositional rel)
  (keeps_and : ∀ left right, keeps (.binary .and left right) ↔ keeps left ∧ keeps right)
  (keeps_or : ∀ left right, keeps (.binary .or left right) ↔ keeps left ∨ keeps right)
  (holds_or : ∀ clauses, holds (.orOf clauses) ↔ ∃ clause ∈ clauses, holds clause)

variable {clauses : List (GuardClause ν)}

include holds_or in
theorem holds_orOfClauses : holds (orOfClauses clauses) ↔ ∃ clause ∈ clauses, holds clause := by
  unfold orOfClauses
  split
  · simp
  · exact holds_or clauses

include holds_or in
theorem holds_disjuncts (clause : GuardClause ν) :
    holds clause ↔ ∃ disjunct ∈ clause.disjuncts, holds disjunct := by
  unfold GuardClause.disjuncts
  split
  · exact holds_or _
  · simp

/-- The leaves of a predicate and their clauses are related. -/
def LeavesRelated (rel : Prop → Prop → Prop) (keeps : PredicateExpr ν → Prop)
    (holds : GuardClause ν → Prop)
    (isNull : ν → Bool) (zero : ν) (columns : PredicateColumns) (compared : List Nat) : Prop :=
  ∀ leaf clause, RecognizedLeaf isNull zero columns leaf clause →
    clauseColumns clause ⊆ compared → rel (keeps leaf) (holds clause)

theorem LeavesRelated.append {compared compared' : List Nat}
    (leaves : LeavesRelated rel keeps holds isNull zero columns (compared ++ compared')) :
    LeavesRelated rel keeps holds isNull zero columns compared ∧
      LeavesRelated rel keeps holds isNull zero columns compared' :=
  ⟨fun leaf clause isLeaf compares =>
      leaves leaf clause isLeaf (subset_append_of_subset_left _ compares),
    fun leaf clause isLeaf compares =>
      leaves leaf clause isLeaf (subset_append_of_subset_right _ compares)⟩

include composes keeps_or holds_or in
/-- The induction over a disjunction. -/
theorem rel_recognizeDisjuncts
    (recognized : recognizeDisjuncts isNull zero columns expr = some clauses)
    (leaves : LeavesRelated rel keeps holds isNull zero columns (clauseColumnsAll clauses)) :
    rel (keeps expr) (∃ clause ∈ clauses, holds clause) := by
  fun_induction recognizeDisjuncts isNull zero columns expr generalizing clauses with
  | case1 left right ihLeft ihRight =>
    obtain ⟨leftClauses, rightClauses, isLeft, isRight, rfl⟩ := Fallible.append_eq_some recognized
    rw [clauseColumnsAll_append] at leaves
    simp only [keeps_or, mem_append, or_and_right, exists_or]
    exact composes.or (ihLeft isLeft leaves.append.1) (ihRight isRight leaves.append.2)
  | case2 expr notOr =>
    obtain ⟨clause, isClause, rfl⟩ := map_eq_some_iff.mp recognized
    rw [clauseColumnsAll_disjuncts] at leaves
    rw [← holds_disjuncts holds_or]
    exact leaves expr clause (recognizedLeaf isClause) (Subset.refl _)

include composes keeps_and keeps_or holds_or in
/-- What relates the leaves of a predicate to their clauses relates the predicate to all its
clauses. -/
theorem rel_recognizeGuardClauses
    (recognized : recognizeGuardClauses isNull zero columns expr = some clauses)
    (leaves : LeavesRelated rel keeps holds isNull zero columns (clauseColumnsAll clauses)) :
    rel (keeps expr) (∀ clause ∈ clauses, holds clause) := by
  fun_induction recognizeGuardClauses isNull zero columns expr generalizing clauses with
  | case1 left right ihLeft ihRight =>
    obtain ⟨leftClauses, rightClauses, isLeft, isRight, rfl⟩ := Fallible.append_eq_some recognized
    rw [clauseColumnsAll_append] at leaves
    rw [keeps_and, forall_mem_append]
    exact composes.and (ihLeft isLeft leaves.append.1) (ihRight isRight leaves.append.2)
  | case2 expr notAnd =>
    obtain ⟨clause, isClause, rfl⟩ := map_eq_some_iff.mp recognized
    rw [clauseColumnsAll, clauseColumnsAll, append_nil] at leaves
    rw [forall_mem_singleton]
    unfold recognizeClause at isClause
    split at isClause
    · obtain ⟨clauses, areClauses, rfl⟩ := map_eq_some_iff.mp isClause
      rw [clauseColumns_orOfClauses] at leaves
      rw [holds_orOfClauses holds_or]
      exact rel_recognizeDisjuncts composes keeps_or holds_or areClauses leaves
    · exact leaves _ clause (recognizedLeaf isClause) (Subset.refl _)

end Composition

section Exactness

variable {column : Nat} (left right : PredicateExpr ν)

theorem keeps_comparison {test : Ordering → Bool} {left right : PredicateExpr ν}
    (isTest : operator.test? = some test) :
    PredicateExpr.Keeps engine row (.binary operator left right) ↔
      compare3 engine.semantics test (engine.comparison left [right]) (left.value engine row)
        (right.value engine row) = some true := by
  unfold PredicateExpr.Keeps
  rw [PredicateExpr.value]
  simp only [compileBinary, isTest, getD_some, engine.semantics.truth_ofTruth]

/-- A query keeps a row of a conjunction if both sides do. -/
theorem keeps_and :
    PredicateExpr.Keeps engine row (.binary .and left right) ↔ left.Keeps engine row ∧
      right.Keeps engine row := by
  unfold PredicateExpr.Keeps
  rw [PredicateExpr.value]
  simp only [compileBinary, BinaryOperator.test?, getD_some, engine.semantics.truth_ofTruth,
    and3_eq_true]

theorem keeps_or :
    PredicateExpr.Keeps engine row (.binary .or left right) ↔ left.Keeps engine row ∨
      right.Keeps engine row := by
  unfold PredicateExpr.Keeps
  rw [PredicateExpr.value]
  simp only [compileBinary, BinaryOperator.test?, getD_some, engine.semantics.truth_ofTruth,
    or3_eq_true]

theorem holds_orOf (clauses : List (GuardClause ν)) :
    (GuardClause.orOf clauses).Holds engine row ↔ ∃ clause ∈ clauses, clause.Holds engine row := by
  rw [GuardClause.Holds, someHolds_iff]

/-- A constant compared with a column asks of the column what the flipped comparison asks. -/
theorem keeps_flipped {flipped : Ordering → Bool}
    (isFlipped : (flipComparison operator).test? = some flipped) :
    PredicateExpr.Keeps engine row (.binary operator (.literal value) (.column (some column))) ↔
      compare3 engine.semantics flipped (engine.constant column) (row column) value =
        some true := by
  obtain ⟨test, isTest, same⟩ := flipComparison_test (engine.constant column) (row column)
    isFlipped value
  rw [keeps_comparison isTest, compare3_eq_true, compare3_eq_true, ← same]
  tauto

theorem holds_rangeClause (notNull : engine.semantics.isNull value = false)
    (isClause : rangeClause operator column value = some clause) :
    ∃ test, operator.test? = some test ∧ (clause.Holds engine row ↔
      compare3 engine.semantics test (engine.constant column) (row column) value = some true) := by
  cases operator <;> cases isClause <;> refine ⟨_, rfl, ?_⟩ <;>
    simp [GuardClause.Holds, BeyondBound, compare3_eq_true, notNull]

theorem comparison_literals (literals : List ν) :
    engine.comparison (.column (some column)) (literals.map .literal) = engine.constant column := by
  rcases literals with _ | ⟨first, _ | ⟨second, rest⟩⟩ <;>
    simp [QueryEngine.comparison, PredicateExpr.literalValue]

/-- A leaf keeps the rows of which its clause is true, if this is so of a negated column. -/
theorem rel_leaf {rel : Prop → Prop → Prop} (composes : Compositional rel) {leaf : PredicateExpr ν}
    (recognized : RecognizedLeaf engine.semantics.isNull zero columns leaf clause)
    (negated : ∀ column ∈ clauseColumns clause, columns.notNull column = true →
      columns.isNumeric column = true →
      rel (engine.semantics.truth (row column) = some false)
        (compare3 engine.semantics (· == .eq) (engine.constant column) (row column) zero =
          some true)) :
    rel (leaf.Keeps engine row) (clause.Holds engine row) := by
  cases recognized with
  | isNull column | isNotNull column =>
    refine composes.of_iff ?_
    simp [PredicateExpr.Keeps, PredicateExpr.value, compileUnary, GuardClause.Holds,
      engine.semantics.truth_ofTruth]
  | not notNull isNumeric =>
    simp only [PredicateExpr.Keeps, PredicateExpr.value, compileUnary, getD_some,
      engine.semantics.truth_ofTruth,
      not3_eq_true]
    exact negated _ (by simp [clauseColumns]) notNull isNumeric
  | inList column nonempty =>
    refine composes.of_iff ?_
    unfold PredicateExpr.Keeps
    rw [holds_orOfClauses holds_orOf, PredicateExpr.value, engine.semantics.truth_ofTruth, inTruth,
      any3_eq_true,
      valueAll_eq_map, comparison_literals]
    simp [GuardClause.Holds, PredicateExpr.value]
  | between column lowNotNull highNotNull =>
    refine composes.of_iff ?_
    simp [PredicateExpr.Keeps, PredicateExpr.value, engine.semantics.truth_ofTruth, betweenTruth,
      and3_eq_true,
      compare3_eq_true, GuardClause.Holds, BeyondBound, QueryEngine.comparison]
    tauto
  | columns isEq | constant isEq =>
    rw [keeps_comparison isEq]
    exact composes.of_iff Iff.rfl
  | flippedConstant isEq column value =>
    rw [keeps_flipped isEq]
    exact composes.of_iff Iff.rfl
  | range notNull isClause =>
    obtain ⟨test, isTest, holds⟩ := holds_rangeClause notNull isClause
    rw [keeps_comparison isTest, holds]
    exact composes.of_iff Iff.rfl
  | flippedRange notNull isClause =>
    obtain ⟨test, isTest, holds⟩ := holds_rangeClause notNull isClause
    rw [keeps_flipped isTest, holds]
    exact composes.of_iff Iff.rfl

/-- The value of a column is as the column declares it. -/
structure ConformsAt (engine : QueryEngine ν) (zero : ν) (columns : PredicateColumns)
    (row : Nat → ν) (column : Nat) :
    Prop where
  notNull : columns.notNull column = true → engine.semantics.isNull (row column) = false
  /-- Zero is the one number that is false. -/
  numeric : columns.isNumeric column = true → engine.semantics.isNull (row column) = false →
    (engine.semantics.truth (row column) = some false ↔
      engine.constant column (row column) zero = .eq)

theorem ConformsAt.congr {other : Nat → ν} (conforms : ConformsAt engine zero columns row column)
    (same : other column = row column) : ConformsAt engine zero columns other column :=
  ⟨same ▸ conforms.notNull, same ▸ conforms.numeric⟩

/-- A recognized predicate keeps the rows of which all its clauses are true. -/
theorem keeps_recognizeGuardClauses {clauses : List (GuardClause ν)}
    (zeroNotNull : engine.semantics.isNull zero = false)
    (recognized : recognizeGuardClauses engine.semantics.isNull zero columns expr = some clauses)
    (conforms : ∀ column ∈ clauseColumnsAll clauses, ConformsAt engine zero columns row column) :
    expr.Keeps engine row ↔ ∀ clause ∈ clauses, clause.Holds engine row := by
  refine rel_recognizeGuardClauses compositional_iff keeps_and keeps_or holds_orOf recognized ?_
  intro leaf clause isLeaf compares
  refine rel_leaf compositional_iff isLeaf fun column member notNull isNumeric => ?_
  have conforms := conforms column (compares member)
  have present := conforms.notNull notNull
  simp only [compare3_eq_true, present, zeroNotNull, true_and, beq_iff_eq,
    conforms.numeric isNumeric present]

end Exactness

end Quereus.Planner
