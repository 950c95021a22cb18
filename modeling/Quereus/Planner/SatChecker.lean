import Mathlib.Data.List.Sigma
import Mathlib.Order.Compare
import Quereus.Planner.Scalar

/-! # Contradictions of a filter

`checkSatisfiability` folds the conjuncts of a filter, the domains and the literal
bindings of its source into one accumulator per column and looks for a column without
any value left. Domains and bindings say nothing of NULL, and a comparison that is true
excludes it. So an empty accumulator is a contradiction if the column is compared.
-/

namespace Quereus.Planner

variable {ν : Type}

inductive SatResult where
  | sat
  | unsat
  | unknown
  deriving DecidableEq

structure ColumnAccumulator (ν : Type) where
  minValue : Option ν
  minInclusive : Bool
  maxValue : Option ν
  maxInclusive : Bool
  /-- No membership was observed, or the values still allowed. -/
  allowedValues : Option (List ν)
  excluded : List ν
  sawUnknown : Bool

def emptyAccumulator : ColumnAccumulator ν :=
  ⟨none, false, none, false, none, [], false⟩

def MAX_CONJUNCTS : Nat := 64

def MAX_VALUES_PER_COL : Nat := 64

section Column

variable (cmp : ν → ν → Ordering)

def tightenLower (value : ν) (inclusive : Bool) (acc : ColumnAccumulator ν) : ColumnAccumulator ν :=
  match acc.minValue with
  | none => { acc with minValue := some value, minInclusive := inclusive }
  | some min =>
    match cmp value min with
    | .gt => { acc with minValue := some value, minInclusive := inclusive }
    | .eq => if acc.minInclusive && !inclusive then { acc with minInclusive := false } else acc
    | .lt => acc

def tightenUpper (value : ν) (inclusive : Bool) (acc : ColumnAccumulator ν) : ColumnAccumulator ν :=
  match acc.maxValue with
  | none => { acc with maxValue := some value, maxInclusive := inclusive }
  | some max =>
    match cmp value max with
    | .lt => { acc with maxValue := some value, maxInclusive := inclusive }
    | .eq => if acc.maxInclusive && !inclusive then { acc with maxInclusive := false } else acc
    | .gt => acc

def containsValue (values : List ν) (value : ν) : Bool :=
  values.any fun member => cmp member value == .eq

def intersectAllowed (isNull : ν → Bool) (values : List ν) (acc : ColumnAccumulator ν) :
    ColumnAccumulator ν :=
  let nonNull := values.filter (!isNull ·)
  if MAX_VALUES_PER_COL < nonNull.length then { acc with sawUnknown := true }
  else
    match acc.allowedValues with
    | none => { acc with allowedValues := some nonNull }
    | some allowed =>
      { acc with allowedValues := some (allowed.filter (containsValue cmp nonNull)) }

def exclude (value : ν) (acc : ColumnAccumulator ν) : ColumnAccumulator ν :=
  if acc.excluded.length < MAX_VALUES_PER_COL then
    if containsValue cmp acc.excluded value then acc
      else { acc with excluded := acc.excluded ++ [value] }
  else { acc with sawUnknown := true }

/-- A column equal to a value. -/
def pin (isNull : ν → Bool) (value : ν) (acc : ColumnAccumulator ν) : ColumnAccumulator ν :=
  intersectAllowed cmp isNull [value]
    (tightenUpper cmp value true (tightenLower cmp value true acc))

def reachesMin (min : ν) (inclusive : Bool) (value : ν) : Bool :=
  cmp value min == .gt || cmp value min == .eq && inclusive

def reachesMax (max : ν) (inclusive : Bool) (value : ν) : Bool :=
  cmp value max == .lt || cmp value max == .eq && inclusive

section Bounds

variable {cmp} {bound other value : ν} {inclusive : Bool}

theorem reachesMin_eq_test : reachesMin cmp bound inclusive value =
    (if inclusive then (· != .lt) else (· == .gt)) (cmp value bound) := by
  unfold reachesMin
  cases inclusive <;> cases cmp value bound <;> rfl

theorem reachesMax_eq_test : reachesMax cmp bound inclusive value =
    (if inclusive then (· != .gt) else (· == .lt)) (cmp value bound) := by
  unfold reachesMax
  cases inclusive <;> cases cmp value bound <;> rfl

variable [Std.TransCmp cmp]

theorem reachesMin_congr (same : cmp bound other = .eq) :
    reachesMin cmp bound inclusive value = reachesMin cmp other inclusive value := by
  rw [reachesMin, reachesMin, Std.TransCmp.congr_right same]

theorem reachesMax_congr (same : cmp bound other = .eq) :
    reachesMax cmp bound inclusive value = reachesMax cmp other inclusive value := by
  rw [reachesMax, reachesMax, Std.TransCmp.congr_right same]

end Bounds

def withinRange (acc : ColumnAccumulator ν) (value : ν) : Bool :=
  acc.minValue.all (reachesMin cmp · acc.minInclusive value) &&
    acc.maxValue.all (reachesMax cmp · acc.maxInclusive value)

/-- The allowed values in the range that are not excluded. -/
def remainingValues (acc : ColumnAccumulator ν) : Option (List ν) :=
  acc.allowedValues.map fun allowed =>
    allowed.filter fun value => withinRange cmp acc value && !containsValue cmp acc.excluded value

/-- The bounds cross, or meet in a value that is out. -/
def rangeEmpty (acc : ColumnAccumulator ν) : Bool :=
  match acc.minValue, acc.maxValue with
  | some min, some max =>
    match cmp min max with
    | .gt => true
    | .eq => !acc.minInclusive || !acc.maxInclusive || containsValue cmp acc.excluded min
    | .lt => false
  | _, _ => false

/-- Whether no value of the column is left. -/
def contradictory (acc : ColumnAccumulator ν) : Bool :=
  (remainingValues cmp acc).any (·.isEmpty) || rangeEmpty cmp acc ||
    match remainingValues cmp acc with
    | some [value] => containsValue cmp acc.excluded value
    | _ => false

end Column

/-- What a conjunct says of the one column it compares. -/
inductive ColumnFact (ν : Type) where
  | equals (value : ν)
  | differs (value : ν)
  | below (value : ν) (inclusive : Bool)
  | above (value : ν) (inclusive : Bool)
  | between (low high : ν)
  | among (values : List ν)

def ColumnFact.absorb (cmp : ν → ν → Ordering) (isNull : ν → Bool) :
    ColumnFact ν → ColumnAccumulator ν → ColumnAccumulator ν
  | .equals value, acc => pin cmp isNull value acc
  | .differs value, acc => exclude cmp value acc
  | .below value inclusive, acc => tightenUpper cmp value inclusive acc
  | .above value inclusive, acc => tightenLower cmp value inclusive acc
  | .between low high, acc => tightenUpper cmp high true (tightenLower cmp low true acc)
  | .among values, acc => intersectAllowed cmp isNull values acc

def literalOf (node : Scalar ν) : Option ν :=
  match unwrapCast node with
  | .literal _ value => some value
  | _ => none

section Recognition

variable (isNull : ν → Bool) (attrIndex : Nat → Option Nat)

def columnOf (node : Scalar ν) : Option Nat :=
  match unwrapCast node with
  | .column _ attributeId => attrIndex attributeId
  | _ => none

/-- A literal that is not NULL. -/
def valueOf (node : Scalar ν) : Option ν :=
  (literalOf node).filter (!isNull ·)

def factOf (operator : BinaryOperator) (value : ν) : Option (ColumnFact ν) :=
  match operator with
  | .eq | .eqEq => some (.equals value)
  | .ne | .ltGt => some (.differs value)
  | .lt => some (.below value false)
  | .le => some (.below value true)
  | .gt => some (.above value false)
  | .ge => some (.above value true)
  | _ => none

/-- Swap the operands of a comparison. -/
def flipComparison : BinaryOperator → BinaryOperator
  | .lt => .gt
  | .le => .ge
  | .gt => .lt
  | .ge => .le
  | operator => operator

def recognizeBinary (operator : BinaryOperator) (left right : Scalar ν) :
    Option (Nat × ColumnFact ν) :=
  match columnOf attrIndex left with
  | some col => do
    let value ← valueOf isNull right
    let fact ← factOf operator value
    return (col, fact)
  | none => do
    let col ← columnOf attrIndex right
    let value ← valueOf isNull left
    let fact ← factOf (flipComparison operator) value
    return (col, fact)

/-- The column a conjunct compares with literals and what it says of it, if it is of a
shape the checker reads. -/
def recognize : Scalar ν → Option (Nat × ColumnFact ν)
  | .binary _ operator left right => recognizeBinary isNull attrIndex operator left right
  | .between _ false expr lower upper => do
    let col ← columnOf attrIndex expr
    let low ← valueOf isNull lower
    let high ← valueOf isNull upper
    return (col, .between low high)
  | .inList _ condition values => do
    let col ← columnOf attrIndex condition
    let literals ← values.mapM literalOf
    return (col, .among literals)
  | _ => none

end Recognition

/-- The comparators of the columns. A collation that cannot be resolved gives none. -/
structure Comparators (ν : Type) where
  compare : Nat → ν → ν → Ordering
  lawful : ∀ col, Std.TransCmp (compare col)
  resolvable : Nat → Bool

abbrev Accumulators (ν : Type) := List (Nat × ColumnAccumulator ν)

/-- Change the accumulator of a column, an empty one if there is none. -/
def updateAcc (col : Nat) (change : ColumnAccumulator ν → ColumnAccumulator ν) :
    Accumulators ν → Accumulators ν
  | [] => [(col, change emptyAccumulator)]
  | (other, acc) :: accs =>
    if other = col then (col, change acc) :: accs else (other, acc) :: updateAcc col change accs

section Checker

variable (isNull : ν → Bool) (comparators : Comparators ν) (attrIndex : Nat → Option Nat)

def seedDomain (accs : Accumulators ν) (constraint : DomainConstraint ν) : Accumulators ν :=
  let cmp := comparators.compare constraint.column
  updateAcc constraint.column (fun acc =>
    match constraint.domain with
    | .range min max minInclusive maxInclusive =>
      let lowered := match min.filter (!isNull ·) with
        | some value => tightenLower cmp value minInclusive acc
        | none => acc
      match max.filter (!isNull ·) with
      | some value => tightenUpper cmp value maxInclusive lowered
      | none => lowered
    | .enum values => intersectAllowed cmp isNull values acc) accs

def seedBinding (accs : Accumulators ν) (binding : ConstantBinding ν) : Accumulators ν :=
  match binding.value with
  | .literal value =>
    if isNull value then accs
    else binding.attrs.foldl (fun accs col =>
      updateAcc col (pin (comparators.compare col) isNull value) accs) accs
  | .parameter _ => accs

def markUnknownForColumns (accs : Accumulators ν) (node : Scalar ν) : Accumulators ν :=
  (node.attributeIds.filterMap attrIndex).foldl
    (fun accs col => updateAcc col (fun acc => { acc with sawUnknown := true }) accs) accs

def absorb (accs : Accumulators ν) (conjunct : Scalar ν) : Accumulators ν :=
  match recognize isNull attrIndex conjunct with
  | some (col, fact) => updateAcc col (fact.absorb (comparators.compare col) isNull) accs
  | none => markUnknownForColumns attrIndex accs conjunct

def mentionedColumns (conjuncts : List (Scalar ν)) (domains : List (DomainConstraint ν))
    (bindings : List (ConstantBinding ν)) : List Nat :=
  domains.map DomainConstraint.column ++ bindings.flatMap ConstantBinding.attrs ++
    (conjuncts.flatMap Scalar.attributeIds).filterMap attrIndex

def gatherFacts (conjuncts : List (Scalar ν)) (domains : List (DomainConstraint ν))
    (bindings : List (ConstantBinding ν)) : Accumulators ν :=
  conjuncts.foldl (absorb isNull comparators attrIndex)
    (bindings.foldl (seedBinding isNull comparators)
      (domains.foldl (seedDomain isNull comparators) []))

def checkSatisfiability (conjuncts : List (Scalar ν)) (domains : List (DomainConstraint ν))
    (bindings : List (ConstantBinding ν)) : SatResult :=
  if MAX_CONJUNCTS < conjuncts.length then .unknown
  else if (mentionedColumns attrIndex conjuncts domains bindings).any
    (!comparators.resolvable ·) then .unknown
  else
    let accs := gatherFacts isNull comparators attrIndex conjuncts domains bindings
    if accs.any (fun (col, acc) => contradictory (comparators.compare col) acc) then .unsat
    else if accs.any (·.2.sawUnknown) then .unknown
    else .sat

end Checker

end Quereus.Planner
