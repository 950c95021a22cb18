import Quereus.Lib.ThreeValued
import Quereus.Planner.FunctionalDependency

/-! # Scalar expressions of a plan

The scalar nodes a planner looks at, with the type each node announces, and their value
for a row. What the planner does not look into (functions, subqueries, arithmetic) keeps
its operands and has an arbitrary value.
-/

namespace Quereus.Planner

open ThreeValued

inductive CollationSource where
  | explicit
  | declared
  | default
  deriving DecidableEq

/-- What a node announces of its value. The collation name is normalized, and the logical type is
known by its name: how its values compare and convert is a matter of the runtime. -/
structure ScalarType where
  collationName : Option String
  collationSource : CollationSource
  logicalType : String
  deriving DecidableEq

inductive BinaryOperator where
  | and
  | or
  | eq
  | eqEq
  | ne
  | ltGt
  | lt
  | le
  | gt
  | ge
  | is
  | isNot
  | like
  | glob
  | matches
  | other (symbol : String)
  deriving DecidableEq

inductive UnaryOperator where
  | isNull
  | isNotNull
  | not
  | other (symbol : String)
  deriving DecidableEq

inductive Scalar (ν : Type) where
  | literal (type : ScalarType) (value : ν)
  | column (type : ScalarType) (attributeId : Nat)
  | parameter (type : ScalarType) (ref : ParamRef)
  /-- A no-op cast converts to the type its operand has. -/
  | cast (type : ScalarType) (noOp : Bool) (operand : Scalar ν)
  | collate (type : ScalarType) (operand : Scalar ν)
  | binary (type : ScalarType) (operator : BinaryOperator) (left right : Scalar ν)
  | unary (type : ScalarType) (operator : UnaryOperator) (operand : Scalar ν)
  | between (type : ScalarType) (not : Bool) (expr lower upper : Scalar ν)
  | inList (type : ScalarType) (condition : Scalar ν) (values : List (Scalar ν))
  | inSource (type : ScalarType) (condition : Scalar ν) (source : Nat)
  | other (type : ScalarType) (tag : Nat) (children : List (Scalar ν))

variable {ν : Type}

def Scalar.getType : Scalar ν → ScalarType
  | .literal type _ | .column type _ | .parameter type _ | .cast type _ _ | .collate type
      _ | .binary type _ _ _
  | .unary type _ _ | .between type _ _ _ _ | .inList type _ _ | .inSource type _ _ | .other
    type _ _ => type

mutual

/-- The attributes a node refers to. Subqueries are not descended into. -/
def Scalar.attributeIds : Scalar ν → List Nat
  | .literal _ _ => []
  | .column _ attributeId => [attributeId]
  | .parameter _ _ => []
  | .cast _ _ operand => operand.attributeIds
  | .collate _ operand => operand.attributeIds
  | .binary _ _ left right => left.attributeIds ++ right.attributeIds
  | .unary _ _ operand => operand.attributeIds
  | .between _ _ expr lower upper => expr.attributeIds ++ lower.attributeIds ++ upper.attributeIds
  | .inList _ condition values => condition.attributeIds ++ attributeIdsAll values
  | .inSource _ condition _ => condition.attributeIds
  | .other _ _ children => attributeIdsAll children

def attributeIdsAll : List (Scalar ν) → List Nat
  | [] => []
  | node :: nodes => node.attributeIds ++ attributeIdsAll nodes

end

/-- What an operator asks of the comparison of its operands. -/
def BinaryOperator.test? : BinaryOperator → Option (Ordering → Bool)
  | .eq | .eqEq => some (· == .eq)
  | .ne | .ltGt => some (· != .eq)
  | .lt => some (· == .lt)
  | .le => some (· != .gt)
  | .gt => some (· == .gt)
  | .ge => some (· != .lt)
  | _ => none

/-- How values are compared, converted and computed. A comparison depends on the type of
the one operand and the types of the others. -/
structure ScalarSemantics (ν : Type) where
  isNull : ν → Bool
  truth : ν → Option Bool
  ofTruth : Option Bool → ν
  truth_ofTruth : ∀ value, truth (ofTruth value) = value
  comparison : ScalarType → List ScalarType → ν → ν → Ordering
  convert : ScalarType → ν → ν
  apply : BinaryOperator → ν → ν → ν
  applyUnary : String → ν → ν
  contains : Nat → (Nat → ν) → ν → ν
  call : Nat → List ν → ν

/-- The attributes of a row and of the rows around it, and the bound parameters. -/
structure Environment (ν : Type) where
  attributes : Nat → ν
  parameters : ParamRef → ν

section Evaluation

variable (semantics : ScalarSemantics ν)

/-- A comparison is unknown if an operand is NULL. -/
def compare3 (test : Ordering → Bool) (comparison : ν → ν → Ordering) (a b : ν) : Option Bool :=
  if semantics.isNull a || semantics.isNull b then none else some (test (comparison a b))

/-- `IS` takes NULL for a value. -/
def isTruth (comparison : ν → ν → Ordering) (a b : ν) : Bool :=
  if semantics.isNull a || semantics.isNull b then semantics.isNull a && semantics.isNull b
  else comparison a b == .eq

def binaryValue (operator : BinaryOperator) (comparison : ν → ν → Ordering) (a b : ν) : ν :=
  match operator.test? with
  | some test => semantics.ofTruth (compare3 semantics test comparison a b)
  | none =>
    match operator with
    | .and => semantics.ofTruth (and3 (semantics.truth a) (semantics.truth b))
    | .or => semantics.ofTruth (or3 (semantics.truth a) (semantics.truth b))
    | .is => semantics.ofTruth (some (isTruth semantics comparison a b))
    | .isNot => semantics.ofTruth (some (!isTruth semantics comparison a b))
    | operator => semantics.apply operator a b

def unaryValue (operator : UnaryOperator) (a : ν) : ν :=
  match operator with
  | .isNull => semantics.ofTruth (some (semantics.isNull a))
  | .isNotNull => semantics.ofTruth (some (!semantics.isNull a))
  | .not => semantics.ofTruth (not3 (semantics.truth a))
  | .other symbol => semantics.applyUnary symbol a

def betweenTruth (lower upper : ν → ν → Ordering) (a low high : ν) : Option Bool :=
  and3 (compare3 semantics (· != .lt) lower a low) (compare3 semantics (· != .gt) upper a high)

def inTruth (comparison : ν → ν → Ordering) (a : ν) (values : List ν) : Option Bool :=
  any3 (values.map (compare3 semantics (· == .eq) comparison a))

mutual

def Scalar.eval (env : Environment ν) : Scalar ν → ν
  | .literal _ value => value
  | .column _ attributeId => env.attributes attributeId
  | .parameter _ ref => env.parameters ref
  | .cast type noOp operand =>
    if noOp then operand.eval env else semantics.convert type (operand.eval env)
  | .collate _ operand => operand.eval env
  | .binary _ operator left right =>
    binaryValue semantics operator (semantics.comparison left.getType [right.getType])
      (left.eval env)
      (right.eval env)
  | .unary _ operator operand => unaryValue semantics operator (operand.eval env)
  | .between _ not expr lower upper =>
    let truth := betweenTruth semantics (semantics.comparison expr.getType [lower.getType])
      (semantics.comparison expr.getType [upper.getType]) (expr.eval env) (lower.eval env)
        (upper.eval env)
    semantics.ofTruth (if not then not3 truth else truth)
  | .inList _ condition values =>
    semantics.ofTruth
      (inTruth semantics (semantics.comparison condition.getType (values.map Scalar.getType))
      (condition.eval env) (evalAll env values))
  | .inSource _ condition source => semantics.contains source env.attributes (condition.eval env)
  | .other _ tag children => semantics.call tag (evalAll env children)

def evalAll (env : Environment ν) : List (Scalar ν) → List ν
  | [] => []
  | node :: nodes => node.eval env :: evalAll env nodes

end

/-- Whether a predicate keeps a row. -/
def Scalar.IsTrue (env : Environment ν) (predicate : Scalar ν) : Prop :=
  semantics.truth (predicate.eval semantics env) = some true

instance (env : Environment ν) (predicate : Scalar ν) :
    Decidable (predicate.IsTrue semantics env) :=
  inferInstanceAs (Decidable (_ = _))

variable {semantics} {env : Environment ν}

theorem evalAll_eq_map (nodes : List (Scalar ν)) :
    evalAll semantics env nodes = nodes.map (Scalar.eval semantics env) := by
  induction nodes with
  | nil => rfl
  | cons node nodes ih => rw [evalAll, ih, List.map_cons]

variable {test : Ordering → Bool} {left right : Scalar ν}

theorem compare3_eq_true {comparison : ν → ν → Ordering} {a b : ν} :
    compare3 semantics test comparison a b = some true ↔
      semantics.isNull a = false ∧ semantics.isNull b = false ∧ test (comparison a b) = true := by
  unfold compare3
  cases semantics.isNull a <;> cases semantics.isNull b <;> simp

variable {type : ScalarType}

variable {operator : BinaryOperator} {operand : Scalar ν}

theorem isTrue_comparison (compares : operator.test? = some test) :
    Scalar.IsTrue semantics env (.binary type operator left right) ↔
      compare3 semantics test (semantics.comparison left.getType [right.getType])
        (left.eval semantics env)
        (right.eval semantics env) = some true := by
  unfold Scalar.IsTrue
  rw [Scalar.eval]
  simp only [binaryValue, compares, semantics.truth_ofTruth]

theorem isTrue_and :
    Scalar.IsTrue semantics env (.binary type .and left right) ↔
      left.IsTrue semantics env ∧ right.IsTrue semantics env := by
  unfold Scalar.IsTrue
  rw [Scalar.eval]
  simp only [binaryValue, BinaryOperator.test?, semantics.truth_ofTruth, and3_eq_true]

theorem isTrue_or :
    Scalar.IsTrue semantics env (.binary type .or left right) ↔
      left.IsTrue semantics env ∨ right.IsTrue semantics env := by
  unfold Scalar.IsTrue
  rw [Scalar.eval]
  simp only [binaryValue, BinaryOperator.test?, semantics.truth_ofTruth, or3_eq_true]

theorem isTrue_between {expr lower upper : Scalar ν} :
    Scalar.IsTrue semantics env (.between type false expr lower upper) ↔
      compare3 semantics (· != .lt) (semantics.comparison expr.getType [lower.getType])
        (expr.eval semantics env)
          (lower.eval semantics env) = some true ∧
        compare3 semantics (· != .gt) (semantics.comparison expr.getType [upper.getType])
          (expr.eval semantics env)
          (upper.eval semantics env) = some true := by
  unfold Scalar.IsTrue
  rw [Scalar.eval]
  simp only [betweenTruth, semantics.truth_ofTruth, Bool.false_eq_true, if_false, and3_eq_true]

theorem isTrue_inList {condition : Scalar ν} {values : List (Scalar ν)} :
    Scalar.IsTrue semantics env (.inList type condition values) ↔
      ∃ value ∈ values, compare3 semantics (· == .eq)
        (semantics.comparison condition.getType (values.map Scalar.getType))
          (condition.eval semantics env)
          (value.eval semantics env) = some true := by
  unfold Scalar.IsTrue
  rw [Scalar.eval]
  simp only [inTruth, semantics.truth_ofTruth, any3_eq_true, evalAll_eq_map, List.map_map,
    List.mem_map,
    Function.comp_apply]

theorem isTrue_isNull :
    Scalar.IsTrue semantics env (.unary type .isNull operand) ↔
      semantics.isNull (operand.eval semantics env) = true := by
  unfold Scalar.IsTrue
  rw [Scalar.eval]
  simp [unaryValue, semantics.truth_ofTruth]

theorem isTrue_isNotNull :
    Scalar.IsTrue semantics env (.unary type .isNotNull operand) ↔
      semantics.isNull (operand.eval semantics env) = false := by
  unfold Scalar.IsTrue
  rw [Scalar.eval]
  simp [unaryValue, semantics.truth_ofTruth]

end Evaluation

/-- Strip casts to the type the operand has. -/
def unwrapCast : Scalar ν → Scalar ν
  | .cast _ true operand => unwrapCast operand
  | node => node

theorem eval_unwrapCast {semantics : ScalarSemantics ν} {env : Environment ν} (node : Scalar ν) :
    (unwrapCast node).eval semantics env = node.eval semantics env := by
  fun_induction unwrapCast node with
  | case1 type operand ih => rw [ih, Scalar.eval, if_pos rfl]
  | case2 node => rfl

/-- NULL before the numbers in their order. -/
def compareNumbers? : Option Nat → Option Nat → Ordering :=
  compareOn fun number => (number.map (· + 1)).getD 0

instance : Std.TransCmp compareNumbers? :=
  inferInstanceAs (Std.TransCmp (compareOn _))

/-- Numbers with NULL: zero is false, every other number is true. Operators the planner
does not look into give NULL. -/
def numberSemantics : ScalarSemantics (Option Nat) where
  isNull := Option.isNone
  truth := Option.map (· != 0)
  ofTruth := Option.map Bool.toNat
  truth_ofTruth := by
    rintro (_ | _ | _) <;> rfl
  comparison := fun _ _ => compareNumbers?
  convert := fun _ => id
  apply := fun _ _ _ => none
  applyUnary := fun _ _ => none
  contains := fun _ _ _ => none
  call := fun _ _ => none

def numberType : ScalarType :=
  ⟨none, .default, "INTEGER"⟩

/-- The type of a predicate. -/
def truthType : ScalarType :=
  ⟨none, .default, "BOOLEAN"⟩

end Quereus.Planner
