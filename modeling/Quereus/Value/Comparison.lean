import Mathlib.Data.List.DropRight
import Quereus.Lib.Double
import Quereus.Lib.Unicode

/-!
# SQL values and their comparison

The value domain of the engine and `util/comparison.ts`: storage classes, the built-in
collations, and `compareSqlValuesFast`, which orders any two values given a collation for the
text/text case. A comparison result is an `Ordering`; the source returns a number of which only
the sign is used.

`compareCodePoints_eq` says that the surrogate-ranking scan of the source is the order of the
code points of well-formed strings.
-/

namespace Quereus

/-- A SQL value. A JSON array or object is carried as the text `canonicalJsonString` gives for
it. Functions that return it or compare it by its parts do so up to that text: values it does
not tell apart, such as one with a member `__proto__` and the one without, are one here. -/
inductive SqlValue where
  | null
  | number (value : Double)
  | bigint (value : Int)
  | boolean (value : Bool)
  | string (value : Utf16)
  | blob (bytes : List UInt8)
  | object (canonical : Utf16)
deriving DecidableEq, Repr

/-- A row of values, one per column. -/
abbrev Row := List SqlValue

abbrev CollationFunction := Utf16 → Utf16 → Ordering

section CodePoints

def hasHighSurrogate (text : Utf16) : Bool :=
  text.any Utf16.isHighSurrogate

/-- The unit-by-unit scan of `compareCodePointsBounded`, on the two bounded prefixes. -/
def compareRankedUnits : Utf16 → Utf16 → Ordering
  | [], [] => .eq
  | [], _ :: _ => .lt
  | _ :: _, [] => .gt
  | unitA :: a, unitB :: b =>
    if unitA ≠ unitB then
      if Utf16.unitRank unitA < Utf16.unitRank unitB then .lt else .gt
    else compareRankedUnits a b

def compareCodePointsBounded (a : Utf16) (lenA : Nat) (b : Utf16) (lenB : Nat) : Ordering :=
  compareRankedUnits (a.take lenA) (b.take lenB)

def compareCodePoints (a b : Utf16) : Ordering :=
  if a = b then .eq
  else if !hasHighSurrogate a && !hasHighSurrogate b then
    if compare a b = .lt then .lt else .gt
  else compareCodePointsBounded a a.length b b.length

def binaryCollation : CollationFunction :=
  compareCodePoints

/-- `toLowerCase` is the string method of the JavaScript runtime. -/
def nocaseCollation (toLowerCase : Utf16 → Utf16) : CollationFunction :=
  fun a b => compareCodePoints (toLowerCase a) (toLowerCase b)

/-- The length left once trailing ASCII spaces are dropped. -/
def rtrimLength (text : Utf16) : Nat :=
  (text.reverse.dropWhile (· == 0x20)).length

def rtrimCollation : CollationFunction :=
  fun a b => compareCodePointsBounded a (rtrimLength a) b (rtrimLength b)

theorem unitRank_injective : Function.Injective Utf16.unitRank := by
  intro first second same
  have firstBound := first.toNat_lt
  have secondBound := second.toNat_lt
  rw [← UInt16.toNat_inj]
  simp only [Utf16.unitRank, Utf16.isHighSurrogate, decide_eq_true_eq] at same
  split at same <;> split at same <;> omega

theorem compareRankedUnits_eq (a b : Utf16) :
    compareRankedUnits a b = compare (a.map Utf16.unitRank) (b.map Utf16.unitRank) := by
  induction a generalizing b with
  | nil => cases b <;> rfl
  | cons unitA a ih =>
    cases b with
    | nil => rfl
    | cons unitB b =>
      rw [compareRankedUnits, List.map_cons, List.map_cons, List.compare_cons_cons]
      split
      next differ =>
        have ranksDiffer := unitRank_injective.ne differ
        rw [Nat.compare_eq_ite_lt]
        split_ifs <;> first | rfl | omega
      next same =>
        rw [not_not.mp same, Std.ReflOrd.compare_self, Ordering.eq_then, ih]

theorem map_unitRank_of_not_hasHighSurrogate {text : Utf16} (plain : !hasHighSurrogate text) :
    text.map Utf16.unitRank = text.map UInt16.toNat := by
  apply List.map_congr_left
  intro unit member
  simp only [hasHighSurrogate, Bool.not_eq_true', List.any_eq_false] at plain
  rw [Utf16.unitRank, if_neg (plain unit member)]

theorem compare_map_toNat (a b : Utf16) :
    compare (a.map UInt16.toNat) (b.map UInt16.toNat) = compare a b := by
  induction a generalizing b with
  | nil => cases b <;> rfl
  | cons unitA a ih =>
    cases b with
    | nil => rfl
    | cons unitB b =>
      rw [List.map_cons, List.map_cons, List.compare_cons_cons, List.compare_cons_cons, ih,
        UInt16.compare_eq_toNat_compare_toNat]

theorem compareCodePoints_eq_ranked (a b : Utf16) :
    compareCodePoints a b = compare (a.map Utf16.unitRank) (b.map Utf16.unitRank) := by
  unfold compareCodePoints
  split
  next same => rw [same, Std.ReflOrd.compare_self]
  next differ =>
    split
    next plain =>
      rw [Bool.and_eq_true] at plain
      rw [map_unitRank_of_not_hasHighSurrogate plain.1,
        map_unitRank_of_not_hasHighSurrogate plain.2, compare_map_toNat]
      cases verdict : compare a b with
      | lt => rfl
      | eq => exact absurd (Std.LawfulEqOrd.eq_of_compare verdict) differ
      | gt => rfl
    next =>
      rw [compareCodePointsBounded, List.take_length, List.take_length, compareRankedUnits_eq]

theorem compareCodePoints_eq_eq_iff {a b : Utf16} : compareCodePoints a b = .eq ↔ a = b := by
  rw [compareCodePoints_eq_ranked, Std.LawfulEqOrd.compare_eq_iff_eq,
    (List.map_injective_iff.mpr unitRank_injective).eq_iff]

/-- **The scan is code-point order** on well-formed strings. -/
theorem compareCodePoints_eq {a b : Utf16} (wellFormedA : a.WellFormed)
    (wellFormedB : b.WellFormed) :
    compareCodePoints a b = compare a.codePoints b.codePoints := by
  rw [compareCodePoints_eq_ranked, Utf16.compare_map_unitRank wellFormedA wellFormedB]

instance : Std.TransCmp compareCodePoints := by
  rw [funext₂ compareCodePoints_eq_ranked]
  exact inferInstanceAs (Std.TransCmp (compareOn (List.map Utf16.unitRank)))

instance : Std.LawfulEqCmp compareCodePoints where
  eq_of_compare := compareCodePoints_eq_eq_iff.mp
  compare_self := compareCodePoints_eq_eq_iff.mpr rfl

theorem take_rtrimLength (text : Utf16) :
    text.take (rtrimLength text) = text.rdropWhile (· == 0x20) := by
  have length : rtrimLength text = (text.rdropWhile (· == 0x20)).length := List.length_reverse.symm
  rw [length]
  exact (List.prefix_iff_eq_take.mp <| List.rdropWhile_prefix _ _).symm

/-- Dropping spaces cuts no surrogate pair. -/
theorem wellFormed_rdropWhile {text : Utf16} (wellFormed : text.WellFormed) :
    Utf16.WellFormed (text.rdropWhile (· == 0x20)) := by
  have whole : text.rdropWhile (· == 0x20) ++ text.rtakeWhile (· == 0x20) = text :=
    List.rdropWhile_append_rtakeWhile
  rw [← whole, Utf16.WellFormed, Utf16.codePoints_append] at wellFormed
  · exact fun codePoint member => wellFormed codePoint (List.mem_append_left _ member)
  · intro unit first
    have space := List.mem_rtakeWhile_imp (List.mem_of_head? first)
    rw [eq_of_beq space]
    rfl

/-- **Strings compare as their UTF-8 bytes**, those of a prefix and those of the text without
trailing spaces included, and any two strings compare in one total order. -/
theorem compareCodePoints_utf8 :
    (∀ a b : Utf16, a.WellFormed → b.WellFormed → compareCodePoints a b = compare a.utf8 b.utf8) ∧
    (∀ (a b : Utf16) (lenA lenB : Nat), lenA ≤ a.length → lenB ≤ b.length →
      Utf16.WellFormed (a.take lenA) → Utf16.WellFormed (b.take lenB) →
      compareCodePointsBounded a lenA b lenB =
        compare (Utf16.utf8 (a.take lenA)) (Utf16.utf8 (b.take lenB))) ∧
    (∀ a b : Utf16, a.WellFormed → b.WellFormed → rtrimCollation a b =
      compare (Utf16.utf8 (a.rdropWhile (· == 0x20))) (Utf16.utf8 (b.rdropWhile (· == 0x20)))) ∧
    Std.TransCmp compareCodePoints ∧ Std.LawfulEqCmp compareCodePoints ∧
      Std.TransCmp rtrimCollation := by
  have bounded (a b : Utf16) (wellFormedA : a.WellFormed) (wellFormedB : b.WellFormed) :
      compareRankedUnits a b = compare a.utf8 b.utf8 := by
    rw [compareRankedUnits_eq, Utf16.compare_map_unitRank wellFormedA wellFormedB,
      Utf16.compare_utf8 wellFormedA wellFormedB]
  refine ⟨fun a b wellFormedA wellFormedB => ?_, fun a b lenA lenB _ _ => bounded _ _,
    fun a b wellFormedA wellFormedB => ?_, inferInstance, inferInstance, ?_⟩
  · rw [compareCodePoints_eq_ranked, ← compareRankedUnits_eq, bounded a b wellFormedA wellFormedB]
  · rw [rtrimCollation, compareCodePointsBounded, take_rtrimLength, take_rtrimLength]
    exact bounded _ _ (wellFormed_rdropWhile wellFormedA) (wellFormed_rdropWhile wellFormedB)
  · have ranked : rtrimCollation = compareOn fun text =>
        (text.take (rtrimLength text)).map Utf16.unitRank :=
      funext₂ fun a b => compareRankedUnits_eq _ _
    rw [ranked]
    infer_instance

end CodePoints

section Values

/-- The storage classes that order values of different kinds. -/
inductive StorageClass where
  | null
  | numeric
  | text
  | blob
  | object
deriving DecidableEq, Repr

def StorageClass.rank : StorageClass → Nat
  | .null => 0
  | .numeric => 1
  | .text => 2
  | .blob => 3
  | .object => 4

def getStorageClass : SqlValue → StorageClass
  | .null => .null
  | .number _ | .bigint _ | .boolean _ => .numeric
  | .string _ => .text
  | .blob _ => .blob
  | .object _ => .object

/-- A JavaScript number or bigint, the operands of the relational operators. -/
inductive Numeric where
  | number (value : Double)
  | bigint (value : Int)
deriving DecidableEq, Repr

/-- The mathematical value of a number, infinities included. -/
inductive ExtendedValue where
  | negativeInfinity
  | finite (units : Int)
  | positiveInfinity
deriving DecidableEq, Repr

def ExtendedValue.lt : ExtendedValue → ExtendedValue → Bool
  | .negativeInfinity, .negativeInfinity => false
  | .negativeInfinity, _ => true
  | .finite a, .finite b => decide (a < b)
  | .finite _, .positiveInfinity => true
  | .finite _, .negativeInfinity => false
  | .positiveInfinity, _ => false

/-- The value of a numeric operand, in units of `2 ^ -1074`; a NaN has none. -/
def Numeric.value? : Numeric → Option ExtendedValue
  | .number value =>
    if value.isNaN then none
    else if value.isFinite then some (.finite value.units)
    else if value.signBit then some .negativeInfinity
    else some .positiveInfinity
  | .bigint value => some (.finite (value * Double.unitsPerOne))

/-- The relational operator on numbers and bigints: exact across the two, false with a NaN. -/
def Numeric.lt (a b : Numeric) : Bool :=
  match a.value?, b.value? with
  | some valueA, some valueB => valueA.lt valueB
  | _, _ => false

def compareNumbers (a b : Numeric) : Ordering :=
  if a.lt b then .lt else if b.lt a then .gt else .eq

/-- The numeric operand of a value of the numeric class, booleans as one and zero. -/
def SqlValue.toNumeric : SqlValue → Numeric
  | .number value => .number value
  | .bigint value => .bigint value
  | .boolean true => .number (Double.ofInt 1)
  | .boolean false => .number (Double.ofInt 0)
  | _ => .bigint 0

def SqlValue.toText : SqlValue → Utf16
  | .string value => value
  | .object canonical => canonical
  | _ => []

def SqlValue.toBytes : SqlValue → List UInt8
  | .blob bytes => bytes
  | _ => []

/-- Comparison inside one storage class. Blobs compare byte by byte, a proper prefix first, and
objects by the code points of their canonical text. -/
def compareSameType (a b : SqlValue) (storageClass : StorageClass)
    (collationFunc : CollationFunction) : Ordering :=
  match storageClass with
  | .numeric => compareNumbers a.toNumeric b.toNumeric
  | .text => collationFunc a.toText b.toText
  | .blob => compare a.toBytes b.toBytes
  | .object => compareCodePoints a.toText b.toText
  | .null => .eq

def compareSqlValuesFast (a b : SqlValue) (collationFunc : CollationFunction) : Ordering :=
  let classA := getStorageClass a
  let classB := getStorageClass b
  if classA = .null then
    if classB = .null then .eq else .lt
  else if classB = .null then .gt
  else if classA = classB then compareSameType a b classA collationFunc
  else compare classA.rank classB.rank

def compareSqlValues (a b : SqlValue) : Ordering :=
  compareSqlValuesFast a b binaryCollation

end Values

end Quereus
