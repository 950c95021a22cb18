import Quereus.Lib.Texts
import Quereus.Value.Cell

/-! # Keys for hashing

`util/key-serializer.ts` writes a tuple of values as one text: a tag for the kind of
each value, the value, and a NUL between two components. Hash joins, grouping and
the identity of rows compare these texts instead of the values.

A text component may hold a NUL itself and is not escaped. Two tuples that differ
then have one key if a text of one of them runs over into the components behind it,
and only then.

How the JavaScript runtime writes a number that is not an integer is a parameter.
-/

namespace Quereus

open List Texts Double

/-- The character between two components. -/
def NUL : UInt16 := 0

section Serializer

variable (numberToString : Double → Utf16)

def canonicalNumeric : SqlValue → Utf16
  | .boolean value => if value then ascii ['1'] else ascii ['0']
  | .bigint value => signedDecimal value
  | .number value =>
    match value.toInt? with
    | some integer => signedDecimal integer
    | none => numberToString value
  | _ => []

/-- The tagged text of one value; NULL has none. -/
def appendValue (value : SqlValue) (normalizer : Utf16 → Utf16) : Option Utf16 :=
  match value with
  | .null => none
  | .string text => some (ascii ['s', ':'] ++ normalizer text)
  | .number _ | .bigint _ | .boolean _ =>
    some (ascii ['n', ':'] ++ canonicalNumeric numberToString value)
  | .blob bytes =>
    some (ascii ['x', ':'] ++ joined 0x2C (bytes.map fun byte => decimal byte.toNat))
  | .object canonical => some (ascii ['o', ':'] ++ canonical)

/-- The components of a key, one for each value. -/
def keyParts (values : List SqlValue) (normalizers : List (Utf16 → Utf16)) : List (Option Utf16) :=
  zipWith (appendValue numberToString) values normalizers

/-- No key if a value is NULL. -/
def serializeKey (values : List SqlValue) (normalizers : List (Utf16 → Utf16)) : Option Utf16 :=
  ((keyParts numberToString values normalizers).mapM id).map (joined NUL)

/-- The component of a value in a key where NULLs group together. -/
def groupingPart (part : Option Utf16) : Utf16 :=
  part.getD (ascii ['N', ':'])

def serializeKeyNullGrouping (values : List SqlValue) (normalizers : List (Utf16 → Utf16)) :
    Utf16 :=
  joined NUL ((keyParts numberToString values normalizers).map groupingPart)

end Serializer

/-- A key column: its collation and the normalizer of its texts, which is exact for
the collation. -/
structure KeyNormalizer where
  collation : Collation
  normalizer : Utf16 → Utf16
  exact : ∀ first second, normalizer first = normalizer second ↔
    collation.compare first second = .eq

/-- How the runtime writes the numbers that are not integers, NaN apart: different
numbers differently, none like an integer, and without a NUL. -/
structure WritesNumbers (numberToString : Double → Utf16) : Prop where
  injective : ∀ first second : Double, first.isNaN = false → second.isNaN = false →
    first.toInt? = none → second.toInt? = none → numberToString first = numberToString second →
    first = second
  notInteger : ∀ (number : Double) (integer : Int), number.toInt? = none →
    numberToString number ≠ signedDecimal integer
  noNul : ∀ number : Double, number.toInt? = none → NUL ∉ numberToString number

/-- The canonical text of a JSON value escapes its control characters. -/
def JsonText : SqlValue → Prop
  | .object canonical => NUL ∉ canonical
  | _ => True

/-- The integer a numeric value stands for, if it is one. -/
def SqlValue.integer? : SqlValue → Option Int
  | .boolean value => some (if value then 1 else 0)
  | .bigint value => some value
  | .number value => value.toInt?
  | _ => none

/-- The key of a number: its value, or the side its infinity is on. -/
theorem key_number {number : Double} (real : number.isNaN = false) :
    (Numeric.number number).key = if number.isFinite then (1, number.units)
      else if number.signBit then (0, 0) else (2, 0) := by
  rw [Numeric.key, Numeric.value?, real]
  cases number.isFinite <;> cases number.signBit <;> rfl

theorem key_of_integer? {value : SqlValue} {integer : Int}
    (stands : value.integer? = some integer) :
    value.toNumeric.key = (1, integer * Double.unitsPerOne) := by
  cases value with
  | boolean value =>
    obtain rfl := Option.some.inj stands
    cases value <;> decide +kernel
  | bigint value =>
    obtain rfl := Option.some.inj stands
    rfl
  | number value =>
    obtain ⟨finite, units⟩ := toInt?_eq_some stands
    have number : value.isNaN = false := by
      simp only [isFinite, isNaN, decide_eq_true_eq, decide_eq_false_iff_not] at finite ⊢
      omega
    rw [SqlValue.toNumeric, key_number number, if_pos finite, units]
  | _ => cases stands

/-- A number that is no integer has the key of itself alone. -/
theorem eq_of_key_eq {first second : Double} (firstReal : first.isNaN = false)
    (secondReal : second.isNaN = false) (broken : first.toInt? = none)
    (same : (Numeric.number first).key = (Numeric.number second).key) : first = second := by
  rw [key_number firstReal, key_number secondReal] at same
  cases firstFinite : first.isFinite <;> cases secondFinite : second.isFinite
  · apply eq_of_infinite firstReal secondReal firstFinite secondFinite
    simp only [firstFinite, secondFinite] at same
    cases firstSign : first.signBit <;> cases secondSign : second.signBit <;>
      simp [firstSign, secondSign] at same ⊢
  · cases sign : first.signBit <;> simp [firstFinite, secondFinite, sign] at same
  · cases sign : second.signBit <;> simp [firstFinite, secondFinite, sign] at same
  · have units : first.units = second.units := by
      simpa [firstFinite, secondFinite] using same
    refine eq_of_units_eq units fun zero => ?_
    have whole : first.units = 0 * unitsPerOne := by rw [zero, Int.zero_mul]
    exact toInt?_isSome firstFinite whole broken

theorem key_ne_of_integer {number : Double} (real : number.isNaN = false)
    (broken : number.toInt? = none)
    (integer : Int) : (Numeric.number number).key ≠ (1, integer * Double.unitsPerOne) := by
  intro same
  rw [key_number real] at same
  split at same
  · next finite => exact toInt?_isSome finite (Prod.mk.inj same).2 broken
  · split at same <;> cases congrArg Prod.fst same

theorem compareKeyPairs_eq_eq {first second : Nat × Int} :
    compareKeyPairs first second = .eq ↔ first = second := by
  rw [compareKeyPairs, compareLex_eq_eq, compareOn, compareOn, Std.LawfulEqOrd.compare_eq_iff_eq,
    Std.LawfulEqOrd.compare_eq_iff_eq, Prod.ext_iff]

section Faithful

variable {numberToString : Double → Utf16} (writes : WritesNumbers numberToString)

variable {value : SqlValue} {columns : List KeyNormalizer} (column : KeyNormalizer)

theorem canonicalNumeric_of_integer? {integer : Int} (stands : value.integer? = some integer) :
    canonicalNumeric numberToString value = signedDecimal integer := by
  cases value with
  | boolean value =>
    obtain rfl := Option.some.inj stands
    cases value <;> rfl
  | bigint value => exact congrArg signedDecimal (Option.some.inj stands)
  | number value =>
    have whole : value.toInt? = some integer := stands
    simp only [canonicalNumeric, whole]
  | _ => cases stands

/-- A numeric value that is no integer is a number. -/
theorem number_of_integer?_none (numeric : getStorageClass value = .numeric)
    (broken : value.integer? = none) : ∃ number, value = .number number ∧ number.toInt? = none ∧
      canonicalNumeric numberToString value = numberToString number := by
  cases value with
  | number number =>
    have none : number.toInt? = none := broken
    exact ⟨number, rfl, none, by simp only [canonicalNumeric, none]⟩
  | boolean value => cases broken
  | bigint value => cases broken
  | _ => cases numeric

include writes in
/-- Numeric values are written alike exactly if they are equal. -/
theorem canonicalNumeric_eq_iff {first second : SqlValue} (firstReal : first.isNaN = false)
    (secondReal : second.isNaN = false) (firstNumeric : getStorageClass first = .numeric)
    (secondNumeric : getStorageClass second = .numeric) :
    canonicalNumeric numberToString first = canonicalNumeric numberToString second ↔
      compareNumbers first.toNumeric second.toNumeric = .eq := by
  rw [compareNumbers_eq (toNumeric_isSome firstReal) (toNumeric_isSome secondReal),
    compareKeyPairs_eq_eq]
  cases firstStands : first.integer? with
  | some firstInteger =>
    rw [canonicalNumeric_of_integer? firstStands, key_of_integer? firstStands]
    cases secondStands : second.integer? with
    | some secondInteger =>
      rw [canonicalNumeric_of_integer? secondStands, key_of_integer? secondStands,
        signedDecimal_injective.eq_iff, Prod.mk.injEq]
      have positive : (unitsPerOne : Int) ≠ 0 := by
        exact_mod_cast unitsPerOne_pos.ne'
      rw [Int.mul_eq_mul_right_iff positive, and_iff_right rfl]
    | none =>
      obtain ⟨number, rfl, broken, written⟩ := number_of_integer?_none secondNumeric secondStands
      rw [written]
      exact iff_of_false (writes.notInteger number firstInteger broken).symm
        (key_ne_of_integer secondReal broken firstInteger).symm
  | none =>
    obtain ⟨number, rfl, broken, written⟩ := number_of_integer?_none firstNumeric firstStands
    rw [written]
    cases secondStands : second.integer? with
    | some secondInteger =>
      rw [canonicalNumeric_of_integer? secondStands, key_of_integer? secondStands]
      exact iff_of_false (writes.notInteger number secondInteger broken)
        (key_ne_of_integer firstReal broken secondInteger)
    | none =>
      obtain ⟨other, rfl, otherBroken, otherWritten⟩ :=
        number_of_integer?_none secondNumeric secondStands
      rw [otherWritten]
      constructor
      · intro same
        rw [writes.injective number other firstReal secondReal broken otherBroken same]
      · intro same
        rw [eq_of_key_eq firstReal secondReal broken same]

include writes in
theorem nul_not_mem_canonicalNumeric (value : SqlValue) :
    NUL ∉ canonicalNumeric numberToString value := by
  cases stands : value.integer? with
  | some integer =>
    rw [canonicalNumeric_of_integer? stands]
    exact not_mem_signedDecimal (by decide) (by decide)
  | none =>
    cases value with
    | number number =>
      have broken : number.toInt? = none := stands
      simp only [canonicalNumeric, broken]
      exact writes.noNul number broken
    | boolean value => cases stands
    | bigint value => cases stands
    | _ => exact not_mem_nil

/-- The first character of the tag of a storage class. -/
def classTag : StorageClass → UInt16
  | .null => 0x4E
  | .numeric => 0x6E
  | .text => 0x73
  | .blob => 0x78
  | .object => 0x6F

/-- What stands behind the tag. -/
def classBody (numberToString : Double → Utf16) (normalizer : Utf16 → Utf16) : SqlValue → Utf16
  | .null => []
  | .string text => normalizer text
  | .blob bytes => joined 0x2C (bytes.map fun byte => decimal byte.toNat)
  | .object canonical => canonical
  | value => canonicalNumeric numberToString value

theorem groupingPart_appendValue (normalizer : Utf16 → Utf16) (value : SqlValue) :
    groupingPart (appendValue numberToString value normalizer) =
      classTag (getStorageClass value) :: 0x3A :: classBody numberToString normalizer value := by
  cases value <;> rfl

theorem classTag_injective : Function.Injective classTag := by
  intro first second same
  cases first <;> cases second <;> first | rfl | exact absurd same (by decide)

theorem joined_bytes_injective {first second : List UInt8}
    (same : joined 0x2C (first.map fun byte => decimal byte.toNat) =
      joined 0x2C (second.map fun byte => decimal byte.toNat)) : first = second := by
  have free : ∀ bytes : List UInt8, ∀ part ∈ bytes.map fun byte => decimal byte.toNat,
      (0x2C : UInt16) ∉ part := by
    intro bytes part member inside
    obtain ⟨byte, -, rfl⟩ := mem_map.mp member
    exact not_mem_decimal (by decide) inside
  have starts : ∀ byte : UInt8, ∀ rest, decimal byte.toNat ++ rest ≠ [] := by
    intro byte rest empty
    exact decimal_ne_nil _ (append_eq_nil_iff.mp empty).1
  cases first with
  | nil =>
    cases second with
    | nil => rfl
    | cons byte second => exact absurd same.symm (starts byte _)
  | cons byte first =>
    cases second with
    | nil => exact absurd same (starts byte _)
    | cons other second =>
      have parts := following_injective (free (byte :: first)) (free (other :: second))
        (congrArg (0x2C :: ·) same)
      exact map_injective_iff.mpr
        (fun _ _ equal => UInt8.toNat_inj.mp (decimal_injective equal)) parts

theorem nul_not_mem_joined_bytes (bytes : List UInt8) :
    NUL ∉ joined 0x2C (bytes.map fun byte => decimal byte.toNat) := by
  intro member
  rcases mem_joined member with comma | ⟨part, inParts, inPart⟩
  · exact absurd comma (by decide)
  · obtain ⟨byte, -, rfl⟩ := mem_map.mp inParts
    exact not_mem_decimal (by decide) inPart

include writes in
/-- Two values of one class have the same text behind the tag exactly if they are
equal. -/
theorem classBody_eq_iff {first second : SqlValue}
    (firstReal : first.isNaN = false) (secondReal : second.isNaN = false)
    (same : getStorageClass first = getStorageClass second) :
    classBody numberToString column.normalizer first =
        classBody numberToString column.normalizer second ↔
      compareSameType first second (getStorageClass first) column.collation.compare = .eq := by
  cases class_eq : getStorageClass first with
  | null =>
    cases first <;> cases class_eq
    cases second <;> cases same
    exact iff_of_true rfl rfl
  | numeric =>
    have bodies : ∀ value, getStorageClass value = .numeric →
        classBody numberToString column.normalizer value =
          canonicalNumeric numberToString value := by
      intro value numeric
      cases value <;> first | rfl | cases numeric
    rw [bodies first class_eq, bodies second (same.symm.trans class_eq)]
    exact canonicalNumeric_eq_iff writes firstReal secondReal class_eq (same.symm.trans class_eq)
  | text =>
    cases first <;> cases class_eq
    cases second <;> cases same
    exact column.exact _ _
  | blob =>
    cases first <;> cases class_eq
    cases second <;> cases same
    rw [compareSameType, Std.LawfulEqOrd.compare_eq_iff_eq]
    exact ⟨joined_bytes_injective, fun equal => by
      simp only [SqlValue.toBytes] at equal; rw [equal]⟩
  | object =>
    cases first <;> cases class_eq
    cases second <;> cases same
    exact compareCodePoints_eq_eq_iff.symm

include writes in
/-- Components are the same exactly if the values are equal. -/
theorem groupingPart_eq_iff (first second : Cell) :
    groupingPart (appendValue numberToString first.1 column.normalizer) =
        groupingPart (appendValue numberToString second.1 column.normalizer) ↔
      compareCells column.collation first second = .eq := by
  rw [groupingPart_appendValue, groupingPart_appendValue, cons.injEq, cons.injEq,
    classTag_injective.eq_iff, compareCells]
  by_cases same : getStorageClass first.1 = getStorageClass second.1
  · rw [compareSqlValuesFast_of_eq _ same, ← classBody_eq_iff writes column first.2 second.2 same]
    exact ⟨fun parts => parts.2.2, fun body => ⟨same, rfl, body⟩⟩
  · rw [compareSqlValuesFast_of_ne _ same, Nat.compare_eq_eq, StorageClass.rank_injective.eq_iff]
    exact iff_of_false (fun parts => same parts.1) same

include writes in
/-- Only a text has a NUL in its component. -/
theorem text_of_nul {normalizer : Utf16 → Utf16} (json : JsonText value)
    (member : NUL ∈ groupingPart (appendValue numberToString value normalizer)) :
    ∃ text, value = .string text := by
  rw [groupingPart_appendValue, mem_cons, mem_cons] at member
  have inBody := (member.resolve_left (by cases getStorageClass value <;> decide)).resolve_left
    (by decide)
  cases value with
  | null => cases inBody
  | string text => exact ⟨text, rfl⟩
  | blob bytes => exact absurd inBody (nul_not_mem_joined_bytes bytes)
  | object canonical => exact absurd inBody json
  | number number => exact absurd inBody (nul_not_mem_canonicalNumeric writes (.number number))
  | bigint integer => exact absurd inBody (nul_not_mem_canonicalNumeric writes (.bigint integer))
  | boolean truth => exact absurd inBody (nul_not_mem_canonicalNumeric writes (.boolean truth))

variable (numberToString)

/-- The components of a tuple in a key where NULLs group together. -/
def groupingParts (values : List SqlValue) (normalizers : List (Utf16 → Utf16)) : List Utf16 :=
  (keyParts numberToString values normalizers).map groupingPart

/-- At the first component where the tuples differ both have a text, and the
normalized text of the second is that of the first, a NUL and more. What is more,
with the components behind it, reads like the components behind in the first. -/
def TextRunsOver (normalizers : List (Utf16 → Utf16)) (first second : List SqlValue) : Prop :=
  ∃ index normalizer text other more, normalizers[index]? = some normalizer ∧
    first[index]? = some (.string text) ∧ second[index]? = some (.string other) ∧
    normalizer other = normalizer text ++ NUL :: more ∧
    (groupingParts numberToString first normalizers).take index =
      (groupingParts numberToString second normalizers).take index ∧
    following NUL ((groupingParts numberToString first normalizers).drop (index + 1)) =
      following NUL (more :: (groupingParts numberToString second normalizers).drop (index + 1))

variable {numberToString}

variable {normalizers : List (Utf16 → Utf16)} {first second cells : List Cell}

theorem getElem?_groupingParts {values : List SqlValue} {index : Nat} {part : Utf16} :
    (groupingParts numberToString values normalizers)[index]? = some part ↔
      ∃ value normalizer, values[index]? = some value ∧ normalizers[index]? = some normalizer ∧
        groupingPart (appendValue numberToString value normalizer) = part := by
  simp only [groupingParts, keyParts, getElem?_map, Option.map_eq_some_iff,
    getElem?_zipWith_eq_some]
  constructor
  · rintro ⟨_, ⟨value, normalizer, here, column, rfl⟩, rfl⟩
    exact ⟨value, normalizer, here, column, rfl⟩
  · rintro ⟨value, normalizer, here, column, rfl⟩
    exact ⟨_, ⟨value, normalizer, here, column, rfl⟩, rfl⟩

theorem eq_take_append_drop {parts : List Utf16} {index : Nat} {part : Utf16}
    (here : parts[index]? = some part) :
    parts = parts.take index ++ part :: parts.drop (index + 1) := by
  obtain ⟨inside, rfl⟩ := List.getElem?_eq_some_iff.mp here
  rw [← drop_eq_getElem_cons, take_append_drop]

/-- No text of the tuple contains a NUL once it is normalized. -/
def NoNul (normalizers : List (Utf16 → Utf16)) (values : List SqlValue) : Prop :=
  ∀ (index : Nat) (normalizer : Utf16 → Utf16) (text : Utf16),
    normalizers[index]? = some normalizer → values[index]? = some (.string text) →
      NUL ∉ normalizer text

theorem NoNul.not_textRunsOver {first second : List SqlValue}
    (plain : NoNul normalizers second) :
    ¬ TextRunsOver numberToString normalizers first second := by
  rintro ⟨index, normalizer, text, other, more, column, -, inSecond, continued, -⟩
  refine plain index normalizer other column inSecond ?_
  rw [continued]
  exact mem_append_right _ mem_cons_self

theorem TextRunsOver.runsOver {first second : List SqlValue}
    (runs : TextRunsOver numberToString normalizers first second) :
    RunsOver NUL (groupingParts numberToString first normalizers)
      (groupingParts numberToString second normalizers) := by
  obtain ⟨index, normalizer, text, other, more, column, inFirst, inSecond, continued, agree,
    behind⟩ := runs
  have firstHere : (groupingParts numberToString first normalizers)[index]? = _ :=
    getElem?_groupingParts.mpr ⟨_, normalizer, inFirst, column, rfl⟩
  have secondHere : (groupingParts numberToString second normalizers)[index]? = _ :=
    getElem?_groupingParts.mpr ⟨_, normalizer, inSecond, column, rfl⟩
  refine ⟨_, _, more, _, _, eq_take_append_drop firstHere, ?_, behind⟩
  rw [agree]
  refine (eq_take_append_drop secondHere).trans ?_
  rw [groupingPart_appendValue, groupingPart_appendValue]
  simp [classBody, continued, getStorageClass]

include writes in
/-- Components run over exactly if a text does. -/
theorem runsOver_iff {first second : List SqlValue} (json : ∀ value ∈ second, JsonText value) :
    RunsOver NUL (groupingParts numberToString first normalizers)
        (groupingParts numberToString second normalizers) ↔
      TextRunsOver numberToString normalizers first second := by
  refine ⟨?_, TextRunsOver.runsOver⟩
  rintro ⟨before, part, more, firstRest, secondRest, firstParts, secondParts, behind⟩
  have firstHere : (groupingParts numberToString first normalizers)[before.length]? =
      some part := by
    rw [firstParts]
    simp
  have secondHere : (groupingParts numberToString second normalizers)[before.length]? =
      some (part ++ NUL :: more) := by
    rw [secondParts]
    simp
  obtain ⟨value, normalizer, inFirst, column, rfl⟩ := getElem?_groupingParts.mp firstHere
  obtain ⟨other, _, inSecond, column', longer⟩ := getElem?_groupingParts.mp secondHere
  obtain rfl := Option.some.inj (column.symm.trans column')
  have hasNul : NUL ∈ groupingPart (appendValue numberToString other normalizer) := by
    rw [longer]
    simp
  obtain ⟨text', rfl⟩ := text_of_nul writes (json _ (mem_of_getElem? inSecond)) hasNul
  rw [groupingPart_appendValue, groupingPart_appendValue] at longer
  simp only [cons_append, cons.injEq] at longer
  obtain ⟨tag, -, continued⟩ := longer
  -- the tag of the shorter component is that of a text
  have isText : getStorageClass value = .text := (classTag_injective tag).symm
  obtain ⟨text, rfl⟩ : ∃ text, value = .string text := by
    cases value <;> first | exact ⟨_, rfl⟩ | cases isText
  refine ⟨before.length, normalizer, text, text', more, column, inFirst, inSecond,
    continued, ?_, ?_⟩
  · rw [firstParts, secondParts, take_left, take_left]
  · rw [firstParts, secondParts]
    simpa using behind

/-- The values compare equal in every component. -/
def TuplesEqual (columns : List KeyNormalizer) (first second : List Cell) : Prop :=
  ∀ (index : Nat) (column : KeyNormalizer) (a b : Cell), columns[index]? = some column →
    first[index]? = some a → second[index]? = some b → compareCells column.collation a b = .eq

/-- The values of cells. -/
def cellValues (cells : List Cell) : List SqlValue :=
  cells.map Subtype.val

variable (firstLength : first.length = columns.length)

include writes firstLength in
theorem groupingParts_eq_iff (secondLength : second.length = columns.length) :
    groupingParts numberToString (cellValues first) (columns.map KeyNormalizer.normalizer) =
        groupingParts numberToString (cellValues second) (columns.map KeyNormalizer.normalizer) ↔
      TuplesEqual columns first second := by
  have at_index : ∀ (cells : List Cell) (index : Nat) (cell : Cell) (column : KeyNormalizer),
      cells[index]? = some cell → columns[index]? = some column →
      (groupingParts numberToString (cellValues cells)
        (columns.map KeyNormalizer.normalizer))[index]? =
        some (groupingPart (appendValue numberToString cell.1 column.normalizer)) := by
    intro cells index cell column here found
    refine getElem?_groupingParts.mpr ⟨cell.1, column.normalizer, ?_, ?_, rfl⟩
    · rw [cellValues, getElem?_map, here, Option.map_some]
    · rw [getElem?_map, found, Option.map_some]
  constructor
  · intro same index column a b found inFirst inSecond
    have parts := congrArg (·[index]?) same
    simp only [at_index first index a column inFirst found,
      at_index second index b column inSecond found,
      Option.some.injEq] at parts
    exact (groupingPart_eq_iff writes column a b).mp parts
  · intro equal
    apply ext_getElem?
    intro index
    by_cases inside : index < columns.length
    · have inFirst := getElem?_eq_getElem (firstLength.symm ▸ inside : index < first.length)
      have inSecond := getElem?_eq_getElem (secondLength.symm ▸ inside : index < second.length)
      have found := getElem?_eq_getElem inside
      rw [at_index first index _ _ inFirst found, at_index second index _ _ inSecond found,
        (groupingPart_eq_iff writes _ _ _).mpr (equal index _ _ _ found inFirst inSecond)]
    · rw [getElem?_eq_none] <;> simp [groupingParts, keyParts, Nat.not_lt.mp inside]

theorem jsonText_cellValues (json : ∀ cell ∈ cells, JsonText cell.1) :
    ∀ value ∈ cellValues cells, JsonText value := by
  intro value member
  obtain ⟨cell, inCells, rfl⟩ := mem_map.mp member
  exact json cell inCells

/-- A key without NULLs is the grouping key. -/
theorem serializeKey_eq {values : List SqlValue} (lengths : values.length = normalizers.length) :
    serializeKey numberToString values normalizers =
      if SqlValue.null ∈ values then none
      else some (serializeKeyNullGrouping numberToString values normalizers) := by
  have parts : (keyParts numberToString values normalizers).mapM id =
      if SqlValue.null ∈ values then none
      else some (groupingParts numberToString values normalizers) := by
    induction values generalizing normalizers with
    | nil => rfl
    | cons value values ih =>
      obtain ⟨normalizer, rest, rfl⟩ := exists_cons_of_length_eq_add_one lengths.symm
      have tail := ih (Nat.succ.inj lengths)
      unfold groupingParts at tail ⊢
      simp only [keyParts, zipWith_cons_cons, mapM_cons, map_cons, id_eq] at tail ⊢
      cases value <;> split <;> simp_all [appendValue, groupingPart]
  rw [serializeKey, parts]
  split <;> rfl

/-- Keys that are alike stand for tuples that are. -/
structure KeysFaithful (numberToString : Double → Utf16) (columns : List KeyNormalizer)
    (first second : List Cell) : Prop where
  grouping :
    serializeKeyNullGrouping numberToString (cellValues first)
      (columns.map KeyNormalizer.normalizer) =
        serializeKeyNullGrouping numberToString (cellValues second)
          (columns.map KeyNormalizer.normalizer) ↔ TuplesEqual columns first second
  nonnull :
    (∃ key, serializeKey numberToString (cellValues first) (columns.map KeyNormalizer.normalizer) =
        some key ∧ serializeKey numberToString (cellValues second)
          (columns.map KeyNormalizer.normalizer) = some key) ↔
      (∀ cell ∈ first ++ second, cell.isNull = false) ∧ TuplesEqual columns first second

theorem nonnull_iff : (∀ cell ∈ cells, cell.isNull = false) ↔ SqlValue.null ∉ cellValues cells := by
  rw [cellValues, mem_map]
  constructor
  · rintro nonnull ⟨cell, member, isNull⟩
    exact absurd (nonnull cell member) (by simp [Cell.isNull, isNull])
  · intro absent cell member
    rw [Cell.isNull, decide_eq_false_iff_not]
    exact fun isNull => absent ⟨cell, member, isNull⟩

section Tuples

variable (secondLength : second.length = columns.length)
  (json : ∀ cell ∈ first ++ second, JsonText cell.1)

include writes firstLength secondLength json

/-- Keys are alike exactly if the tuples are or a text runs over. -/
theorem serializeKeyNullGrouping_eq_iff :
    serializeKeyNullGrouping numberToString (cellValues first)
        (columns.map KeyNormalizer.normalizer) =
      serializeKeyNullGrouping numberToString (cellValues second)
        (columns.map KeyNormalizer.normalizer) ↔
      TuplesEqual columns first second ∨
        TextRunsOver numberToString (columns.map KeyNormalizer.normalizer) (cellValues first)
          (cellValues second) ∨
        TextRunsOver numberToString (columns.map KeyNormalizer.normalizer) (cellValues second)
          (cellValues first) := by
  have lengths : (groupingParts numberToString (cellValues first)
        (columns.map KeyNormalizer.normalizer)).length =
      (groupingParts numberToString (cellValues second)
        (columns.map KeyNormalizer.normalizer)).length := by
    simp [groupingParts, keyParts, cellValues, firstLength, secondLength]
  have keys := @joined_eq_iff _ NUL _ _ lengths
  rwa [groupingParts_eq_iff writes firstLength secondLength,
    runsOver_iff writes (jsonText_cellValues fun _ here => json _ (mem_append_right _ here)),
    runsOver_iff writes (jsonText_cellValues fun _ here => json _ (mem_append_left _ here))] at keys

/-- Keys tell tuples apart when no text runs over. -/
theorem keysFaithful_of_not_textRunsOver
    (apart : ¬ TextRunsOver numberToString (columns.map KeyNormalizer.normalizer)
      (cellValues first) (cellValues second))
    (apart' : ¬ TextRunsOver numberToString (columns.map KeyNormalizer.normalizer)
      (cellValues second) (cellValues first)) :
    KeysFaithful numberToString columns first second := by
  have keys := serializeKeyNullGrouping_eq_iff writes firstLength secondLength json
  rw [or_iff_left (not_or.mpr ⟨apart, apart'⟩)] at keys
  refine ⟨keys, ?_⟩
  rw [serializeKey_eq (by simp [cellValues, firstLength]),
    serializeKey_eq (by simp [cellValues, secondLength]), ← keys, forall_mem_append, nonnull_iff,
    nonnull_iff]
  by_cases firstNull : SqlValue.null ∈ cellValues first
  · simp [firstNull]
  · by_cases secondNull : SqlValue.null ∈ cellValues second
    · simp [secondNull]
    · rw [if_neg firstNull, if_neg secondNull]
      refine ⟨fun ⟨_, made, other⟩ => ⟨⟨firstNull, secondNull⟩, ?_⟩, fun ⟨_, same⟩ => ⟨_, rfl, ?_⟩⟩
      · exact Option.some.inj (made.trans other.symm)
      · exact congrArg some same.symm

/-- Keys tell tuples apart whose normalized texts contain no NUL. -/
theorem keysFaithful_of_no_nul
    (plain : NoNul (columns.map KeyNormalizer.normalizer) (cellValues first))
    (plain' : NoNul (columns.map KeyNormalizer.normalizer) (cellValues second)) :
    KeysFaithful numberToString columns first second :=
  keysFaithful_of_not_textRunsOver writes firstLength secondLength json plain'.not_textRunsOver
    plain.not_textRunsOver

end Tuples

/-- Keys tell tuples of values apart if and only if no text of one tuple runs over
into its following components as the other tuple spells them. -/
theorem keysFaithful_iff (writes : WritesNumbers numberToString) (columns : List KeyNormalizer)
    (first second : List Cell) (firstLength : first.length = columns.length)
    (secondLength : second.length = columns.length)
    (json : ∀ cell ∈ first ++ second, JsonText cell.1) :
    KeysFaithful numberToString columns first second ↔
      ¬ TextRunsOver numberToString (columns.map KeyNormalizer.normalizer) (cellValues first)
        (cellValues second) ∧
      ¬ TextRunsOver numberToString (columns.map KeyNormalizer.normalizer) (cellValues second)
        (cellValues first) := by
  constructor
  · intro faithful
    have keys := faithful.grouping.symm.trans
      (serializeKeyNullGrouping_eq_iff writes firstLength secondLength json)
    rw [← groupingParts_eq_iff writes firstLength secondLength] at keys
    exact ⟨fun runs => runs.runsOver.ne (keys.mpr (.inr (.inl runs))),
      fun runs => runs.runsOver.ne (keys.mpr (.inr (.inr runs))).symm⟩
  · rintro ⟨apart, apart'⟩
    exact keysFaithful_of_not_textRunsOver writes firstLength secondLength json apart apart'

end Faithful

/-- Texts compared and keyed by their code points. -/
def binaryNormalizer : KeyNormalizer where
  collation := BINARY_COLLATION
  normalizer text := text
  exact _ _ := compareCodePoints_eq_eq_iff.symm

/-- A point and the bits of a number. -/
def pointedBits (number : Double) : Utf16 :=
  0x2E :: decimal number.bits.toNat

theorem writesNumbers_pointedBits : WritesNumbers pointedBits where
  injective first second _ _ _ _ same := by
    exact eq_of_toNat_bits (decimal_injective (cons.inj same).2)
  notInteger number integer _ same := by
    have point : (0x2E : UInt16) ∈ signedDecimal integer := same ▸ mem_cons_self
    exact not_mem_signedDecimal (by decide) (by decide) point
  noNul number _ member := by
    rcases mem_cons.mp member with point | digit
    · exact absurd point (by decide)
    · exact not_mem_decimal (by decide) digit

/-- A text component. -/
def textCell (text : Utf16) : Cell :=
  ⟨.string text, Eq.refl false⟩

/-- A tuple of letters and one with a null. -/
theorem keysFaithful_iff_letters :
    WritesNumbers pointedBits ∧
      KeysFaithful pointedBits [binaryNormalizer, binaryNormalizer] [textCell [97], textCell [98]]
        [textCell [97], default] := by
  have plain (last : Cell) (noNul : ∀ text, last.1 = .string text → NUL ∉ text) :
      NoNul ([binaryNormalizer, binaryNormalizer].map KeyNormalizer.normalizer)
        (cellValues [textCell [97], last]) := by
    intro index normalizer text column here
    rcases index with _ | _ | index
    · cases column
      cases here
      exact show NUL ∉ [97] by decide
    · cases column
      exact noNul text (Option.some.inj here)
    · cases column
  refine ⟨writesNumbers_pointedBits,
    (keysFaithful_iff writesNumbers_pointedBits _ _ _ rfl rfl ?_).mpr
    ⟨(plain default nofun).not_textRunsOver, (plain (textCell [98]) ?_).not_textRunsOver⟩⟩
  · intro cell member
    simp only [cons_append, nil_append, mem_cons, not_mem_nil, or_false] at member
    rcases member with rfl | rfl | rfl | rfl <;> trivial
  · intro text same
    cases same
    decide

/-- The tuples (a NUL s:b, c) and (a, b NUL s:c) have one key. -/
theorem keys_collide :
    serializeKeyNullGrouping pointedBits
        (cellValues [textCell [97, 0, 115, 58, 98], textCell [99]]) [id, id] =
      serializeKeyNullGrouping pointedBits
        (cellValues [textCell [97], textCell [98, 0, 115, 58, 99]]) [id, id] ∧
    compareCells BINARY_COLLATION (textCell [97, 0, 115, 58, 98]) (textCell [97]) ≠ .eq := by
  decide

end Quereus
