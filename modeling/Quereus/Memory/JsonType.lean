import Quereus.Memory.Schema

/-! # The JSON type

`JSON_TYPE` orders its values by the rank of their kind and then inside the kind.
Booleans and numbers are different kinds, although both are numeric to
`compareSqlValues`. How two JavaScript objects compare is a parameter, since a
value carries an array or an object only as its canonical text.
-/

namespace Quereus.Memory

/-- The rank of a value's kind; arrays and objects share the last one. -/
def jsonTypeOrder : SqlValue → Nat
  | .null => 0
  | .boolean _ => 1
  | .number _ => 2
  | .string _ => 3
  | _ => 4

variable (compareObjects : SqlValue → SqlValue → Ordering)

def deepCompareJson (a b : SqlValue) : Ordering :=
  if jsonTypeOrder a ≠ jsonTypeOrder b then compare (jsonTypeOrder a) (jsonTypeOrder b)
  else match a, b with
    | .null, .null => .eq
    | .string a, .string b => compareCodePoints a b
    | .boolean a, .boolean b => compare a b
    | .number _, .number _ => compareNumbers a.toNumeric b.toNumeric
    | .bigint _, .bigint _ => .eq
    | a, b => compareObjects a b

def jsonCompare (a b : Cell) (collation : Option Collation) : Ordering :=
  match a.1, b.1 with
  | .string a, .string b => (collation.getD BINARY_COLLATION).compare a b
  | a, b => deepCompareJson compareObjects a b

def jsonValidate (cell : Cell) : Bool :=
  match cell.1 with
  | .bigint _ | .blob _ => false
  | _ => true

def jsonBoolean : SqlValue → Bool
  | .boolean value => value
  | _ => false

def jsonNumber (value : SqlValue) : Nat × Int :=
  match value with
  | .number _ => value.numericKey
  | _ => (0, 0)

def jsonObject : SqlValue → SqlValue
  | .object canonical => .object canonical
  | .blob bytes => .blob bytes
  | _ => .null

/-- The order part by part. -/
def compareJsonParts (collation : Collation) : SqlValue → SqlValue → Ordering :=
  compareLex (compareOn fun value => (getStorageClass value).rank) <|
    compareLex (compareOn jsonTypeOrder) <|
      compareLex (compareOn jsonBoolean) <|
        compareLex (Comparator.via jsonNumber compareKeyPairs) <|
          compareLex (Comparator.via SqlValue.textKey collation.compare)
            (Comparator.via jsonObject compareObjects)

instance (compareObjects : SqlValue → SqlValue → Ordering) [Std.TransCmp compareObjects]
    (collation : Collation) : Std.TransCmp (compareJsonParts compareObjects collation) := by
  unfold compareJsonParts
  infer_instance

theorem typedComparator_json (compareObjects : SqlValue → SqlValue → Ordering)
    [Std.TransCmp compareObjects] (collation : Option Collation) (a b : Cell) :
    typedComparator (some (jsonCompare compareObjects)) collation a b =
      compareJsonParts compareObjects (collation.getD BINARY_COLLATION) a.1 b.1 := by
  obtain ⟨a, aNumber⟩ := a
  obtain ⟨b, bNumber⟩ := b
  have numbers := compareNumbers_eq (toNumeric_isSome aNumber) (toNumeric_isSome bNumber)
  cases a <;> cases b <;> first
    | rfl
    | simp [typedComparator, jsonCompare, deepCompareJson, compareJsonParts, compareLex, compareOn,
        Comparator.via, jsonTypeOrder, jsonBoolean, jsonNumber, jsonObject, SqlValue.textKey,
        SqlValue.numericKey, getStorageClass, Cell.isNull, numbers, Std.ReflCmp.compare_self]

def JSON_TYPE [Std.TransCmp compareObjects] : LogicalType where
  compare := some (jsonCompare compareObjects)
  semanticOrdering := true
  validate := jsonValidate
  lawful collation := by
    have parts : typedComparator (some (jsonCompare compareObjects)) collation =
        Comparator.via Subtype.val
          (compareJsonParts compareObjects (collation.getD BINARY_COLLATION)) := by
      funext a b
      exact typedComparator_json compareObjects collation a b
    rw [parts]
    infer_instance

/-- Code-point order is the finest: what it calls equal, every collation does. -/
theorem JSON_TYPE_finest (compareObjects : SqlValue → SqlValue → Ordering)
    [Std.TransCmp compareObjects] (collation : Collation) {a b : Cell}
    (same : createTypedComparator (JSON_TYPE compareObjects) (some BINARY_COLLATION) a b = .eq) :
    createTypedComparator (JSON_TYPE compareObjects) (some collation) a b = .eq := by
  unfold createTypedComparator JSON_TYPE at same ⊢
  rw [typedComparator_json, compareJsonParts] at same ⊢
  simp only [compareLex_eq_eq] at same ⊢
  refine ⟨same.1, same.2.1, same.2.2.1, same.2.2.2.1, ?_, same.2.2.2.2.2⟩
  rw [Comparator.via, compareCodePoints_eq_eq_iff.mp same.2.2.2.2.1]
  exact Std.ReflCmp.compare_self

end Quereus.Memory
