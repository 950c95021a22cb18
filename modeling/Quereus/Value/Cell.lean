import Quereus.Lib.Comparator
import Quereus.Value.Comparison

/-! # Storable values and lawful comparison

A cell is any SQL value but NaN. The engine does store a NaN that is bound to a REAL,
NUMERIC or ANY column. It compares equal to every number, so no order is possible with
it, and what is proved here of tables is about tables without one. On cells and under
a lawful collation the engine's comparison is a total preorder. Two cells may compare
equal and still differ, such as a number and a boolean or two spellings of a text under
a collation that ignores case.
-/

namespace Quereus

open ExtendedValue Option SqlValue

def SqlValue.isNaN : SqlValue → Bool
  | .number value => value.isNaN
  | _ => false

/-- A value that is not NaN. -/
abbrev Cell := { value : SqlValue // value.isNaN = false }

instance : Inhabited Cell := ⟨⟨.null, rfl⟩⟩

def Cell.isNull (cell : Cell) : Bool :=
  cell.1 = .null

/-- A collation function that orders texts. -/
structure Collation where
  compare : CollationFunction
  lawful : Std.TransCmp compare

instance (collation : Collation) : Std.TransCmp collation.compare :=
  collation.lawful

/-- The value of a number as a pair in lexicographic order. -/
def ExtendedValue.key : ExtendedValue → Nat × Int
  | .negativeInfinity => (0, 0)
  | .finite units => (1, units)
  | .positiveInfinity => (2, 0)

def compareKeyPairs (first second : Nat × Int) : Ordering :=
  compareLex (compareOn Prod.fst) (compareOn Prod.snd) first second

instance : Std.TransCmp compareKeyPairs := by
  unfold compareKeyPairs
  infer_instance

theorem ExtendedValue.lt_iff (first second : ExtendedValue) :
    first.lt second = true ↔ compareKeyPairs first.key second.key = .lt := by
  cases first <;> cases second <;>
    simp [lt, key, compareKeyPairs, compareLex, compareOn,
      Ordering.then_eq_lt, Int.compare_eq_lt, Nat.compare_eq_lt]

/-- The key of a numeric operand; a NaN has none. -/
def Numeric.key (numeric : Numeric) : Nat × Int :=
  (numeric.value?.map ExtendedValue.key).getD (0, 0)

theorem compareNumbers_eq {first second : Numeric} (firstNumber : first.value?.isSome)
    (secondNumber : second.value?.isSome) :
    compareNumbers first second = compareKeyPairs first.key second.key := by
  obtain ⟨firstValue, firstSome⟩ := isSome_iff_exists.mp firstNumber
  obtain ⟨secondValue, secondSome⟩ := isSome_iff_exists.mp secondNumber
  have below : first.lt second = firstValue.lt secondValue := by
    rw [Numeric.lt, firstSome, secondSome]
  have above : second.lt first = secondValue.lt firstValue := by
    rw [Numeric.lt, firstSome, secondSome]
  have keys : compareKeyPairs first.key second.key =
      compareKeyPairs firstValue.key secondValue.key := by
    rw [Numeric.key, Numeric.key, firstSome, secondSome, map_some, map_some, getD_some, getD_some]
  rw [compareNumbers, below, above, keys]
  cases order : compareKeyPairs firstValue.key secondValue.key with
  | lt => rw [if_pos ((lt_iff _ _).mpr order)]
  | gt =>
    have reversed := Std.OrientedCmp.lt_of_gt order
    rw [if_neg, if_pos ((lt_iff _ _).mpr reversed)]
    rw [lt_iff, order]
    decide
  | eq =>
    have reversed := Std.OrientedCmp.eq_symm order
    rw [if_neg, if_neg]
    · rw [lt_iff, reversed]
      decide
    · rw [lt_iff, order]
      decide

namespace SqlValue

def numericKey (value : SqlValue) : Nat × Int :=
  if getStorageClass value = .numeric then value.toNumeric.key else (0, 0)

def textKey : SqlValue → Utf16
  | .string value => value
  | _ => []

def objectKey : SqlValue → Utf16
  | .object canonical => canonical
  | _ => []

end SqlValue

/-- Storage class first, then the part of the value its class compares. -/
def compareByParts (collation : Collation) : SqlValue → SqlValue → Ordering :=
  compareLex (compareOn fun value => (getStorageClass value).rank) <|
    compareLex (Comparator.via SqlValue.numericKey compareKeyPairs) <|
      compareLex (Comparator.via SqlValue.textKey collation.compare) <|
        compareLex (compareOn SqlValue.toBytes)
          (compareOn fun value => value.objectKey.map Utf16.unitRank)

instance (collation : Collation) : Std.TransCmp (compareByParts collation) := by
  unfold compareByParts
  infer_instance

theorem StorageClass.rank_injective : Function.Injective StorageClass.rank := by
  intro first second same
  cases first <;> cases second <;> first | rfl | cases same

theorem toNumeric_isSome {value : SqlValue} (number : value.isNaN = false) :
    value.toNumeric.value?.isSome := by
  cases value with
  | number double =>
    have real : double.isNaN = false := number
    simp only [toNumeric, Numeric.value?, real]
    split
    · contradiction
    · split
      · rfl
      · split <;> rfl
  | boolean value => cases value <;> rfl
  | _ => rfl

variable (collationFunc : CollationFunction) (collation : Collation)

/-- Values of different classes are ordered by class. -/
theorem compareSqlValuesFast_of_ne {a b : SqlValue}
    (different : getStorageClass a ≠ getStorageClass b) :
    compareSqlValuesFast a b collationFunc =
      compare (getStorageClass a).rank (getStorageClass b).rank := by
  simp only [compareSqlValuesFast]
  cases classA : getStorageClass a <;> cases classB : getStorageClass b <;>
    first
      | exact absurd (classA.trans classB.symm) different
      | rfl

theorem compareSqlValuesFast_of_eq {a b : SqlValue} (same : getStorageClass a = getStorageClass b) :
    compareSqlValuesFast a b collationFunc =
      compareSameType a b (getStorageClass a) collationFunc := by
  simp only [compareSqlValuesFast, ← same]
  cases getStorageClass a <;> rfl

theorem compareSqlValuesFast_eq {a b : SqlValue}
    (aNumber : a.isNaN = false) (bNumber : b.isNaN = false) :
    compareSqlValuesFast a b collation.compare = compareByParts collation a b := by
  have numbers := compareNumbers_eq (toNumeric_isSome aNumber) (toNumeric_isSome bNumber)
  by_cases same : getStorageClass a = getStorageClass b
  · rw [compareSqlValuesFast_of_eq _ same]
    -- In one class the parts of the other classes are the same on both sides.
    cases a <;> cases b <;> first
      | exact StorageClass.noConfusion same
      | simp only [compareSameType, getStorageClass, compareByParts, compareLex, compareOn,
          Comparator.via, numericKey, textKey, objectKey,
          toBytes, toText, reduceCtorEq, if_true, if_false,
          numbers, compareCodePoints_eq_ranked, Std.ReflCmp.compare_self,
          Ordering.eq_then, Ordering.then_eq]
  · have ranks : compare (getStorageClass a).rank (getStorageClass b).rank ≠ .eq := by
      rw [Ne, Nat.compare_eq_eq]
      exact fun equal => same (StorageClass.rank_injective equal)
    rw [compareSqlValuesFast_of_ne _ same, compareByParts, compareLex, compareOn]
    cases order : compare (getStorageClass a).rank (getStorageClass b).rank with
    | eq => exact absurd order ranks
    | lt => rfl
    | gt => rfl

/-- `compareSqlValuesFast` on cells. -/
def compareCells (collation : Collation) (a b : Cell) : Ordering :=
  compareSqlValuesFast a.1 b.1 collation.compare

theorem compareCells_eq :
    compareCells collation = Comparator.via Subtype.val (compareByParts collation) := by
  funext a b
  exact compareSqlValuesFast_eq collation a.2 b.2

instance (collation : Collation) : Std.TransCmp (compareCells collation) := by
  rw [compareCells_eq]
  infer_instance

/-- The code-point order of texts. -/
def BINARY_COLLATION : Collation where
  compare := binaryCollation
  lawful := by
    have ranked : binaryCollation = Comparator.via (List.map Utf16.unitRank) compare := by
      funext a b
      exact compareCodePoints_eq_ranked a b
    rw [ranked]
    infer_instance

/-- Case folding before code-point order. -/
def NOCASE_COLLATION (toLowerCase : Utf16 → Utf16) : Collation where
  compare := nocaseCollation toLowerCase
  lawful := inferInstanceAs
    (Std.TransCmp (Comparator.via toLowerCase BINARY_COLLATION.compare))

/-- Cells that compare equal are NULL together. -/
theorem isNull_eq_of_compareCells {collation : Collation} {a b : Cell}
    (same : compareCells collation a b = .eq) : a.isNull = b.isNull := by
  obtain ⟨a, aNumber⟩ := a
  obtain ⟨b, bNumber⟩ := b
  cases a <;> cases b <;> first | rfl | cases same

/-- Cells that agree in code points agree under every collation. -/
theorem compareCells_eq_of_binary {a b : Cell}
    (same : compareCells BINARY_COLLATION a b = .eq) (collation : Collation) :
    compareCells collation a b = .eq := by
  rw [compareCells_eq, Comparator.via, compareByParts] at same ⊢
  simp only [compareLex_eq_eq] at same ⊢
  refine ⟨same.1, same.2.1, ?_, same.2.2.2⟩
  rw [Comparator.via, compareCodePoints_eq_eq_iff.mp same.2.2.1]
  exact Std.ReflCmp.compare_self

end Quereus
