import Quereus.Lib.Fallible
import Quereus.Store.Encoding

/-!
# Store keys sort as the values do

Every component of a store key decides its own comparison: the numeric form by its sortable
double and then by the residual, text and blobs by escaped content and a terminator, values of
different storage classes by the tag. Bit inversion reverses a component's verdict, so the
concatenation compares as the tuple of values under `compareSqlValuesFast`, with the sign
flipped on descending columns.
-/

namespace Quereus.Store

open KeyOrder Fallible Double Except Utf16 List

section Numbers

/-- The sort key of a double: its pattern, moved so that unsigned order is numeric order. -/
private def sortKey (number : Double) : Nat :=
  if number.signBit then 2 ^ 64 - 1 - number.bits.toNat else number.bits.toNat + 2 ^ 63

variable {number : Double} {first second : Numeric}

theorem value?_number (finite : number.isFinite) :
    (Numeric.number number).value? = some (.finite number.units) := by
  have notNaN : number.isNaN = false := by
    simp only [isFinite, isNaN, decide_eq_true_eq, decide_eq_false_iff_not] at finite ⊢
    omega
  rw [Numeric.value?, notNaN, if_neg (by decide), if_pos finite]

private theorem bits_ne (nonzero : number ≠ Double.negativeZero) : number.bits.toNat ≠ 2 ^ 63 :=
  fun same => nonzero (eq_of_toNat_bits same)

private theorem number_lt_zero_iff (finite : number.isFinite)
    (nonzero : number ≠ Double.negativeZero) :
    (Numeric.number number).lt (.number Double.zero) = number.signBit := by
  have zeroValue : (Numeric.number zero).value? = some (.finite 0) := by decide
  have below := magnitudeUnits_strictMono.le_apply (x := number.magnitude)
  have pattern := number.bits_toNat_eq
  have bits := bits_ne nonzero
  rw [Numeric.lt, value?_number finite]
  change decide (number.units < 0) = number.signBit
  unfold units
  cases signed : number.signBit with
  | true =>
    rw [signed] at pattern
    simp only [↓reduceIte, decide_eq_true_eq] at pattern ⊢
    omega
  | false => simp

/-- The bytes of a double are those of its sort key. -/
private theorem writeSortableDouble_eq (finite : number.isFinite)
    (nonzero : number ≠ Double.negativeZero) :
    writeSortableDouble number = bigEndian 8 (sortKey number) := by
  rw [writeSortableDouble, if_neg nonzero, number_lt_zero_iff finite nonzero, sortKey]
  split
  · exact map_invertByte_bigEndian number.bits.isLt
  · exact flipLeadingBit_bigEndian 7 number.bits.toNat

/-- The sort key orders as the signed magnitude does. -/
private theorem sortKey_lt_iff {first second : Double} (nonzero : first ≠ Double.negativeZero) :
    first.signedMagnitude < second.signedMagnitude ↔ sortKey first < sortKey second := by
  have bits := bits_ne nonzero
  simp only [sortKey, signedMagnitude, signBit, magnitude, decide_eq_true_eq]
  split <;> split <;> omega

private theorem sortKey_lt (number : Double) : sortKey number < 256 ^ 8 := by
  simp only [sortKey, signBit, decide_eq_true_eq]
  split <;> omega

private theorem decides_writeSortableDouble {first second : Double} (firstFinite : first.isFinite)
    (secondFinite : second.isFinite) (firstNonzero : first ≠ Double.negativeZero)
    (secondNonzero : second ≠ Double.negativeZero) :
    Decides (compare first.signedMagnitude second.signedMagnitude)
      (writeSortableDouble first) (writeSortableDouble second) := by
  rw [writeSortableDouble_eq firstFinite firstNonzero,
    writeSortableDouble_eq secondFinite secondNonzero,
    compare_congr (sortKey_lt_iff firstNonzero) (sortKey_lt_iff secondNonzero)]
  exact decides_bigEndian (sortKey_lt first) (sortKey_lt second)

/-- The residual of a numeric key, in the range of a signed 64-bit integer. -/
private theorem decides_offset {first second : Int}
    (firstRange : -2 ^ 63 ≤ first ∧ first < 2 ^ 63)
    (secondRange : -2 ^ 63 ≤ second ∧ second < 2 ^ 63) :
    Decides (compare first second)
      (flipLeadingBit (bigEndian 8 (first % 2 ^ 64).toNat))
      (flipLeadingBit (bigEndian 8 (second % 2 ^ 64).toNat)) := by
  have flipped : ∀ offset : Int, -2 ^ 63 ≤ offset ∧ offset < 2 ^ 63 →
      flipLeadingBit (bigEndian 8 (offset % 2 ^ 64).toNat) =
        bigEndian 8 (offset + 2 ^ 63).toNat := by
    intro offset range
    have wrapped : ((offset % 2 ^ 64).toNat + 128 * 256 ^ 7) % 256 ^ 8 =
        (offset + 2 ^ 63).toNat := by
      omega
    rw [flipLeadingBit_bigEndian, ← bigEndian_mod, wrapped]
  rw [flipped first firstRange, flipped second secondRange,
    show compare first second = compare (first + 2 ^ 63).toNat (second + 2 ^ 63).toNat from
      compare_congr (by omega) (by omega)]
  exact decides_bigEndian (by omega) (by omega)

/-- A bigint whose difference from its nearest double fits a signed 64-bit integer. -/
def ResidualFits (value : Int) : Prop :=
  ∃ nearest ∈ (Double.ofInt value).toInt?, -2 ^ 63 ≤ value - nearest ∧ value - nearest < 2 ^ 63

instance (value : Int) : Decidable (ResidualFits value) :=
  inferInstanceAs (Decidable (∃ nearest ∈ (Double.ofInt value).toInt?,
    -2 ^ 63 ≤ value - nearest ∧ value - nearest < 2 ^ 63))

/-- Numeric operands with a faithful key: finite numbers, and bigints near their double. -/
def StorableNumeric : Numeric → Prop
  | .number value => value.isFinite
  | .bigint value => ResidualFits value

/-- The double a numeric key is sorted by first. -/
private def primaryOf : Numeric → Double
  | .number value => if value = Double.negativeZero then Double.zero else value
  | .bigint value => Double.ofInt value

/-- The exact value of a finite numeric, in units of the least double. -/
private def exactValue : Numeric → Int
  | .number value => value.units
  | .bigint value => value * Double.unitsPerOne

/-- What is encoded for a storable number, and how it adds up to the exact value. -/
private structure NumericKey (numeric : Numeric) where
  offset : Int
  parts : numericParts numeric = .ok (primaryOf numeric, offset)
  value_eq : numeric.value? = some (.finite (exactValue numeric))
  split : exactValue numeric = (primaryOf numeric).units + offset * Double.unitsPerOne
  range : -2 ^ 63 ≤ offset ∧ offset < 2 ^ 63
  finite : (primaryOf numeric).isFinite
  nonzero : primaryOf numeric ≠ Double.negativeZero

private theorem primaryOf_number (value : Double) :
    (primaryOf (.number value)).units = value.units ∧
      (primaryOf (.number value)).magnitude = value.magnitude ∧
      (primaryOf (.number value)).signedMagnitude = value.signedMagnitude ∧
      primaryOf (.number value) ≠ Double.negativeZero := by
  rw [primaryOf]
  split
  · next negative =>
    rw [negative]
    decide
  · next differs => exact ⟨rfl, rfl, rfl, differs⟩

private theorem numericKey_of_storable {numeric : Numeric} (storable : StorableNumeric numeric) :
    Nonempty (NumericKey numeric) := by
  cases numeric with
  | number value =>
    obtain ⟨units, magnitude, -, nonzero⟩ := primaryOf_number value
    refine ⟨0, rfl, value?_number storable, ?_, by decide, ?_, nonzero⟩
    · rw [units, Int.zero_mul, Int.add_zero]
      rfl
    · rw [isFinite, magnitude]
      exact storable
  | bigint value =>
    obtain ⟨nearest, rounded, range⟩ : ResidualFits value := storable
    rw [Option.mem_def] at rounded
    obtain ⟨finite, units⟩ := toInt?_eq_some rounded
    refine ⟨value - nearest, ?_, rfl, ?_, range, finite, ofInt_ne_negativeZero value⟩
    · simp only [numericParts, rounded, primaryOf]
    · rw [primaryOf, exactValue, Int.sub_mul]
      omega

variable (firstKey : NumericKey first) (secondKey : NumericKey second)

include firstKey secondKey

omit firstKey secondKey in
private theorem unitsPerOne_pos : (0 : Int) < Double.unitsPerOne := by
  exact_mod_cast Double.unitsPerOne_pos

/-- The nearest double never reverses the order of the exact values. -/
private theorem primaryOf_mono (le : exactValue first ≤ exactValue second) :
    (primaryOf first).signedMagnitude ≤ (primaryOf second).signedMagnitude := by
  have range : ∀ {number : Double}, NumericKey (.number number) →
      number.magnitude ≤ infinityMagnitude := by
    intro number key
    have finite := key.finite
    rw [isFinite, (primaryOf_number number).2.1, decide_eq_true_eq] at finite
    exact finite.le
  cases first with
  | number number =>
    rw [(primaryOf_number number).2.2.1]
    cases second with
    | number number' =>
      rw [(primaryOf_number number').2.2.1]
      have strict := signedMagnitude_lt_iff number' number
      simp only [exactValue] at le
      omega
    | bigint value => exact signedMagnitude_le_ofInt (range firstKey) le
  | bigint value =>
    cases second with
    | number number =>
      rw [(primaryOf_number number).2.2.1]
      exact ofInt_le_signedMagnitude (range secondKey) le
    | bigint value' =>
      exact ofInt_mono (Int.le_of_mul_le_mul_right le unitsPerOne_pos)

omit firstKey secondKey in
/-- Keys that never reverse an order decide it, and where they agree something else may. -/
private theorem compare_then_iff {first second firstKey secondKey : Int}
    (forward : first ≤ second → firstKey ≤ secondKey)
    (backward : second ≤ first → secondKey ≤ firstKey) (next : Ordering) :
    (compare firstKey secondKey).then next = compare first second ↔
      (firstKey = secondKey → next = compare first second) := by
  rcases Int.lt_trichotomy firstKey secondKey with below | same | above
  · rw [Int.compare_eq_lt.mpr below, Int.compare_eq_lt.mpr (by omega)]
    exact iff_of_true rfl fun same => by omega
  · rw [Int.compare_eq_eq.mpr same, Ordering.eq_then, forall_prop_of_true same]
  · rw [Int.compare_eq_gt.mpr above, Int.compare_eq_gt.mpr (by omega)]
    exact iff_of_true rfl fun same => by omega

/-- Exact values compare by the nearest double, and within one double by the residual. -/
private theorem compare_exactValue :
    compare (exactValue first) (exactValue second) =
      (compare (primaryOf first).signedMagnitude (primaryOf second).signedMagnitude).then
        (compare firstKey.offset secondKey.offset) := by
  refine ((compare_then_iff (primaryOf_mono firstKey secondKey) (primaryOf_mono secondKey firstKey)
    _).mpr fun same => ?_).symm
  have units := units_eq_of_signedMagnitude_eq same
  refine compare_congr ?_ ?_ <;>
    rw [firstKey.split, secondKey.split, units, Int.add_lt_add_iff_left,
      Int.mul_lt_mul_right unitsPerOne_pos]

/-- Numbers compare by their exact values. -/
private theorem compareNumbers_eq :
    compareNumbers first second = compare (exactValue first) (exactValue second) := by
  simp only [compareNumbers, Numeric.lt, firstKey.value_eq, secondKey.value_eq, ExtendedValue.lt,
    decide_eq_true_eq]
  rw [Int.compare_eq_ite_lt]

omit firstKey secondKey

/-- The sortable form alone decides between numbers. -/
theorem decides_writeSortableDouble_number {first second : Double} (firstFinite : first.isFinite)
    (secondFinite : second.isFinite) :
    Decides (compareNumbers (.number first) (.number second)) (writeSortableDouble first)
      (writeSortableDouble second) := by
  have primary : ∀ number : Double,
      writeSortableDouble number = writeSortableDouble (primaryOf (.number number)) := by
    intro number
    rw [primaryOf]
    split
    · next negative => rw [negative]; rfl
    · rfl
  have offset : ∀ {number : Double} (key : NumericKey (.number number)), key.offset = 0 :=
    fun key => (Prod.mk.inj (ok.inj key.parts)).2.symm
  obtain ⟨firstKey⟩ := @numericKey_of_storable (.number first) firstFinite
  obtain ⟨secondKey⟩ := @numericKey_of_storable (.number second) secondFinite
  rw [compareNumbers_eq firstKey secondKey, compare_exactValue firstKey secondKey, offset firstKey,
    offset secondKey, Std.ReflOrd.compare_self, Ordering.then_eq, primary first, primary second]
  exact decides_writeSortableDouble firstKey.finite secondKey.finite firstKey.nonzero
    secondKey.nonzero

/-- **Numeric keys sort by exact value**, across numbers and bigints. -/
theorem decides_encodeNumeric (firstStorable : StorableNumeric first)
    (secondStorable : StorableNumeric second) :
    ∃ firstBytes secondBytes, encodeNumeric first = .ok firstBytes ∧
      encodeNumeric second = .ok secondBytes ∧
      Decides (compareNumbers first second) firstBytes secondBytes := by
  obtain ⟨firstKey⟩ := numericKey_of_storable firstStorable
  obtain ⟨secondKey⟩ := numericKey_of_storable secondStorable
  refine ⟨_, _, by rw [encodeNumeric, firstKey.parts]; rfl,
    by rw [encodeNumeric, secondKey.parts]; rfl, ?_⟩
  rw [compareNumbers_eq firstKey secondKey, compare_exactValue firstKey secondKey]
  exact ((decides_writeSortableDouble firstKey.finite secondKey.finite firstKey.nonzero
    secondKey.nonzero).append (decides_offset firstKey.range secondKey.range)).cons typeNumeric

/-- **Bigint keys sort as the bigints** if both have a finite nearest double and, where it is
the same one, the differences from it still sort so when they wrap around at 64 bits. -/
theorem encodeNumeric_bigint_sorts_iff (first second : Int) :
    (∃ firstBytes secondBytes, encodeNumeric (.bigint first) = .ok firstBytes ∧
        encodeNumeric (.bigint second) = .ok secondBytes ∧
        compare firstBytes secondBytes = compare first second) ↔
      ∃ firstNearest ∈ (Double.ofInt first).toInt?, ∃ secondNearest ∈ (Double.ofInt second).toInt?,
        firstNearest = secondNearest →
          compare ((first - firstNearest).bmod (2 ^ 64)) ((second - secondNearest).bmod (2 ^ 64)) =
            compare first second := by
  have range : ∀ offset : Int, -2 ^ 63 ≤ offset.bmod (2 ^ 64) ∧ offset.bmod (2 ^ 64) < 2 ^ 63 :=
    fun offset => ⟨Int.le_bmod (by decide), Int.bmod_lt (by decide)⟩
  have wrapped : ∀ offset : Int, offset.bmod (2 ^ 64) % 2 ^ 64 = offset % 2 ^ 64 := fun _ =>
    Int.bmod_emod
  simp only [encodeNumeric, numericParts]
  cases firstRounded : (ofInt first).toInt? with
  | none => simp [Bind.bind, Except.bind]
  | some firstNearest =>
    cases secondRounded : (ofInt second).toInt? with
    | none => simp [Bind.bind, Except.bind]
    | some secondNearest =>
      have primary := decides_writeSortableDouble (toInt?_eq_some firstRounded).1
        (toInt?_eq_some secondRounded).1 (ofInt_ne_negativeZero first)
        (ofInt_ne_negativeZero second)
      have offset := decides_offset (range (first - firstNearest)) (range (second - secondNearest))
      rw [wrapped, wrapped] at offset
      -- The nearest doubles decide between bigints, and within one double something else may.
      have units := signedMagnitude_lt_iff (ofInt first) (ofInt second)
      have units' := signedMagnitude_lt_iff (ofInt second) (ofInt first)
      rw [(toInt?_eq_some firstRounded).2, (toInt?_eq_some secondRounded).2,
        Int.mul_lt_mul_right unitsPerOne_pos] at units units'
      have sorts := compare_then_iff (@ofInt_mono first second) ofInt_mono (compare
        ((first - firstNearest).bmod (2 ^ 64)) ((second - secondNearest).bmod (2 ^ 64)))
      have nearest : (ofInt first).signedMagnitude = (ofInt second).signedMagnitude ↔
          firstNearest = secondNearest := by omega
      rw [nearest, ← ((primary.append offset).cons typeNumeric).compare_eq] at sorts
      simpa [Bind.bind, Except.bind, pure, Except.pure] using sorts

/-- A difference of `2 ^ 63` wraps around and sorts below none at all. -/
theorem encodeNumeric_bigint_wraps :
    (do
      let firstBytes ← encodeNumeric (.bigint (2 ^ 118))
      let secondBytes ← encodeNumeric (.bigint (2 ^ 118 + 2 ^ 63))
      return compare firstBytes secondBytes) = .ok .gt := by
  decide +kernel

end Numbers

section Text

/-- The surrogate scan accepts exactly the well-formed strings. -/
theorem findUnpairedSurrogateFrom_eq_none_iff (index : Nat) (value : Utf16) :
    findUnpairedSurrogateFrom index value = none ↔ value.WellFormed := by
  fun_induction findUnpairedSurrogateFrom index value with
  | case1 => simp [Utf16.WellFormed, codePoints]
  | case2 index unit rest plain ih =>
    rw [wellFormed_iff (codePoints_cons_of_not_high rest ?_)]
    · grind [isSurrogate]
    · grind [isHighSurrogate]
  | case3 index unit rest surrogate low =>
    rw [wellFormed_iff (codePoints_cons_of_not_high rest ?_)]
    · grind [isSurrogate]
    · grind [isHighSurrogate]
  | case4 index unit surrogate notLow =>
    have spelled : codePoints [unit] = unit.toNat :: codePoints [] := rfl
    rw [wellFormed_iff spelled]
    grind [isSurrogate]
  | case5 index unit surrogate notLow next rest unpaired =>
    have spelled : codePoints (unit :: next :: rest) =
        unit.toNat :: codePoints (next :: rest) := by
      rw [codePoints, if_neg (by grind [isLowSurrogate])]
    rw [wellFormed_iff spelled]
    grind [isSurrogate]
  | case6 index unit surrogate notLow next rest paired ih =>
    have isPair : isHighSurrogate unit && isLowSurrogate next := by
      grind [isHighSurrogate, isLowSurrogate]
    have spelled : codePoints (unit :: next :: rest) =
        pairCodePoint unit next :: codePoints rest := by
      rw [codePoints, if_pos isPair]
    rw [wellFormed_iff spelled]
    grind [isSurrogate, pairCodePoint_bounds]

theorem exists_escapeContentByte (byte : UInt8) :
    ∃ head tail, escapeContentByte byte = head :: tail ∧ nullByte < head := by
  unfold escapeContentByte
  split
  · exact ⟨_, _, rfl, by decide⟩
  · split
    · exact ⟨_, _, rfl, by decide⟩
    · exact ⟨_, _, rfl, by grind [nullByte]⟩

/-- Only 0x00 and 0x01 are rewritten, to two-byte words that start below every other byte. -/
theorem decides_escapeContentByte (first second : UInt8) :
    Decides (compare first second) (escapeContentByte first) (escapeContentByte second) := by
  suffices strict : ∀ {first second : UInt8}, compare first second = .lt →
      Decides .lt (escapeContentByte first) (escapeContentByte second) from
    decides_of_lt strict strict
  intro first second below
  have word : ∀ {byte : UInt8}, escapeByte < byte → escapeContentByte byte = [byte] := by
    grind [escapeContentByte, nullByte]
  by_cases large : escapeByte < second
  · rw [word large]
    by_cases plain : escapeByte < first
    · rw [word plain]
      exact decides_cons_of_lt below
    · obtain ⟨tail, spelled⟩ : ∃ tail, escapeContentByte first = escapeByte :: tail := by
        grind [escapeContentByte, nullByte, escapeByte]
      rw [spelled]
      exact decides_cons_of_lt (Std.compare_eq_lt.mpr large)
  · obtain ⟨rfl, rfl⟩ : first = nullByte ∧ second = escapeByte := by grind [nullByte, escapeByte]
    exact decides_of_length_eq rfl

/-- **Escaped content with its terminator sorts as the content.** -/
theorem decides_writeEscapedWithTerminator (typeTag : UInt8) (left right : List UInt8) :
    Decides (compare left right) (writeEscapedWithTerminator typeTag left)
      (writeEscapedWithTerminator typeTag right) := by
  refine (decides_flatMap_terminated compare escapeContentByte nullByte ?_ ?_).cons typeTag
  · exact fun first _ second _ => decides_escapeContentByte first second
  · intro byte _
    obtain ⟨head, tail, spelled, below⟩ := exists_escapeContentByte byte
    rw [spelled]
    exact decides_cons_of_lt (Std.compare_eq_lt.mpr below)

end Text

section Values

/-- The values a store key is meant for. -/
def Storable : SqlValue → Prop
  | .null | .boolean _ | .blob _ => True
  | .number value => value.isFinite
  | .bigint value => ResidualFits value
  | .string value => value.WellFormed
  | .object canonical => canonical.WellFormed

instance : DecidablePred Storable
  | .null | .boolean _ | .blob _ => inferInstanceAs (Decidable True)
  | .number value => inferInstanceAs (Decidable (value.isFinite = true))
  | .bigint value => inferInstanceAs (Decidable (ResidualFits value))
  | .string value => inferInstanceAs (Decidable value.WellFormed)
  | .object canonical => inferInstanceAs (Decidable canonical.WellFormed)

/-- The normalizer turns the collation into code-point order, wherever it gives text that has
UTF-8 bytes at all. -/
def OrderPreserving (normalizer : KeyNormalizer) (collation : CollationFunction) : Prop :=
  ∀ a b, (normalizer a).WellFormed → (normalizer b).WellFormed →
    collation a b = compare (normalizer a).codePoints (normalizer b).codePoints

/-- The text that is encoded for a value has UTF-8 bytes. -/
def Normalizes (normalizer : KeyNormalizer) : SqlValue → Prop
  | .string value => (normalizer value).WellFormed
  | _ => True

private def classTag : StorageClass → UInt8
  | .null => typeNull
  | .numeric => typeNumeric
  | .text => typeText
  | .blob => typeBlob
  | .object => typeObject

/-- The operand whose numeric key a value of the numeric class gets. -/
private def keyNumeric : SqlValue → Numeric
  | .boolean value => .bigint (if value then 1 else 0)
  | value => value.toNumeric

private theorem value?_keyNumeric (value : SqlValue) :
    (keyNumeric value).value? = value.toNumeric.value? := by
  cases value with
  | boolean value => cases value <;> decide +kernel
  | _ => rfl

variable {value : SqlValue}

private theorem storableNumeric_keyNumeric (storable : Storable value)
    (numeric : getStorageClass value = .numeric) : StorableNumeric (keyNumeric value) := by
  cases value with
  | boolean value =>
    cases value <;> simp only [keyNumeric, StorableNumeric] <;> decide +kernel
  | number value => exact storable
  | bigint value => exact storable
  | null | string _ | blob _ | object _ => simp [getStorageClass] at numeric

variable {options : EncodeOptions} {normalizer : KeyNormalizer} {collation : CollationFunction}
  (resolved : options.normalizers (some (options.collation.getD "NOCASE")) = .ok normalizer)

include resolved

theorem encodeValue_string_iff {text : Utf16} {bytes : List UInt8} :
    encodeValue (.string text) options = .ok bytes ↔ (normalizer text).WellFormed ∧
      bytes = writeEscapedWithTerminator typeText (normalizer text).utf8 := by
  rw [← findUnpairedSurrogateFrom_eq_none_iff 0]
  simp only [encodeValue, encodeText, resolved, assertNoUnpairedSurrogate, findUnpairedSurrogate,
    bind, Except.bind, pure, Except.pure]
  cases findUnpairedSurrogateFrom 0 (normalizer text) <;> simp [eq_comm]

/-- Encoding a storable value fails exactly when its normalized text has no UTF-8 form. -/
private theorem encodeValue_cases (storable : Storable value) :
    (∃ bytes, encodeValue value options = .ok bytes) ↔ Normalizes normalizer value := by
  cases value with
  | null | blob _ | object _ => exact ⟨fun _ => trivial, fun _ => ⟨_, rfl⟩⟩
  | number _ | bigint _ | boolean _ =>
    have numeric := storableNumeric_keyNumeric storable rfl
    obtain ⟨bytes, -, encoded, -⟩ := decides_encodeNumeric numeric numeric
    exact ⟨fun _ => trivial, fun _ => ⟨bytes, encoded⟩⟩
  | string text => simp [encodeValue_string_iff resolved, Normalizes]

omit resolved in
private theorem encodeValue_of_numeric (numeric : getStorageClass value = .numeric) :
    encodeValue value options = encodeNumeric (keyNumeric value) := by
  cases value with
  | number _ | bigint _ | boolean _ => rfl
  | null | string _ | blob _ | object _ => simp [getStorageClass] at numeric

variable {bytes : List UInt8} {a b : SqlValue}

/-- An encoding starts with the tag of its class. -/
private theorem encodeValue_tag (encoded : encodeValue value options = .ok bytes) :
    ∃ body, bytes = classTag (getStorageClass value) :: body := by
  have numeric : ∀ {numeric : Numeric}, encodeNumeric numeric = .ok bytes →
      ∃ body, bytes = typeNumeric :: body := by
    intro numeric encoded
    obtain ⟨parts, -, written⟩ := bind_eq_ok_iff.mp encoded
    exact ⟨_, (ok.inj written).symm⟩
  cases value with
  | null | blob _ | object _ =>
    injection encoded with encoded
    exact ⟨_, encoded.symm⟩
  | number value | bigint value | boolean value => exact numeric encoded
  | string text => exact ⟨_, ((encodeValue_string_iff resolved).mp encoded).2⟩

/-- **One component decides its own comparison.** -/
theorem decides_encodeValue {bytesA bytesB : List UInt8} (storableA : Storable a)
    (storableB : Storable b) (orderPreserving : OrderPreserving normalizer collation)
    (encodedA : encodeValue a options = .ok bytesA)
    (encodedB : encodeValue b options = .ok bytesB) :
    Decides (compareSqlValuesFast a b collation) bytesA bytesB := by
  have apart : getStorageClass a ≠ getStorageClass b →
      Decides (compareSqlValuesFast a b collation) bytesA bytesB := by
    intro differ
    obtain ⟨bodyA, rfl⟩ := encodeValue_tag resolved encodedA
    obtain ⟨bodyB, rfl⟩ := encodeValue_tag resolved encodedB
    have ranked : compareSqlValuesFast a b collation =
        compare (classTag (getStorageClass a)) (classTag (getStorageClass b)) := by
      unfold compareSqlValuesFast
      cases classA : getStorageClass a <;> cases classB : getStorageClass b <;>
        first | rfl | exact absurd (classA.trans classB.symm) differ
    rw [ranked]
    apply decides_cons_of_ne
    cases classA : getStorageClass a <;> cases classB : getStorageClass b <;> simp_all <;> decide
  have numeric : getStorageClass a = .numeric → getStorageClass b = .numeric →
      Decides (compareSqlValuesFast a b collation) bytesA bytesB := by
    intro classA classB
    obtain ⟨bytesA', bytesB', encodedA', encodedB', decides⟩ := decides_encodeNumeric
      (storableNumeric_keyNumeric storableA classA) (storableNumeric_keyNumeric storableB classB)
    rw [encodeValue_of_numeric classA, encodedA'] at encodedA
    rw [encodeValue_of_numeric classB, encodedB'] at encodedB
    obtain rfl := ok.inj encodedA
    obtain rfl := ok.inj encodedB
    have same : compareNumbers (keyNumeric a) (keyNumeric b) =
        compareNumbers a.toNumeric b.toNumeric := by
      unfold compareNumbers Numeric.lt
      rw [value?_keyNumeric a, value?_keyNumeric b]
    rw [same] at decides
    simpa [compareSqlValuesFast, classA, classB, compareSameType] using decides
  cases a with
  | number _ | bigint _ | boolean _ =>
    cases b with
    | number _ | bigint _ | boolean _ => exact numeric rfl rfl
    | _ => exact apart nofun
  | null =>
    cases b with
    | null =>
      obtain rfl := ok.inj (encodedA.symm.trans encodedB)
      exact decides_eq_refl _
    | _ => exact apart nofun
  | string textA =>
    cases b with
    | string textB =>
      obtain ⟨wellFormedA, rfl⟩ := (encodeValue_string_iff resolved).mp encodedA
      obtain ⟨wellFormedB, rfl⟩ := (encodeValue_string_iff resolved).mp encodedB
      change Decides (collation textA textB) _ _
      rw [orderPreserving textA textB wellFormedA wellFormedB,
        ← compare_utf8 wellFormedA wellFormedB]
      exact decides_writeEscapedWithTerminator _ _ _
    | _ => exact apart nofun
  | blob contentA =>
    cases b with
    | blob contentB =>
      obtain rfl := ok.inj encodedA
      obtain rfl := ok.inj encodedB
      exact decides_writeEscapedWithTerminator _ _ _
    | _ => exact apart nofun
  | object canonicalA =>
    cases b with
    | object canonicalB =>
      obtain rfl := ok.inj encodedA
      obtain rfl := ok.inj encodedB
      change Decides (compareCodePoints canonicalA canonicalB) _ _
      rw [compareCodePoints_eq storableA storableB, ← compare_utf8 storableA storableB]
      exact decides_writeEscapedWithTerminator _ _ _
    | _ => exact apart nofun

end Values

section Tuples

variable {options : EncodeOptions} {directions : List Bool} {collations : List (Option String)}
  {transforms : List (Option KeyValueTransform)}
  {normalizer : Nat → KeyNormalizer} {collation : Nat → CollationFunction}

/-- The comparison of one column, with the sign flipped when it is descending. -/
def compareColumn (collation : Nat → CollationFunction) (directions : List Bool) (index : Nat)
    (a b : SqlValue) : Ordering :=
  let verdict := compareSqlValuesFast a b (collation index)
  if directions.getD index false then verdict.swap else verdict

/-- Lexicographic order of two tuples, from column `index` on. -/
def compareTuplesFrom (collation : Nat → CollationFunction) (directions : List Bool) :
    Nat → List SqlValue → List SqlValue → Ordering
  | index, a :: as, b :: bs =>
    (compareColumn collation directions index a b).then
      (compareTuplesFrom collation directions (index + 1) as bs)
  | _, _, _ => .eq

/-- Lexicographic order of two tuples of one length. -/
def compareTuples (collation : Nat → CollationFunction) (directions : List Bool)
    (as bs : List SqlValue) : Ordering :=
  compareTuplesFrom collation directions 0 as bs

/-- The collation name that governs the text of a column. -/
def columnCollation (options : EncodeOptions) (collations : List (Option String)) (index : Nat) :
    String :=
  (columnOptions options collations index).collation.getD "NOCASE"

variable {index : Nat}

variable {value : SqlValue} {values as bs : List SqlValue}

theorem encodePart_eq_ok_iff {part : List UInt8} :
    encodePart options directions collations transforms index value = .ok part ↔
      ∃ bytes, encodeValue (transformValue transforms index value)
          (columnOptions options collations index) = .ok bytes ∧
        part = if directions.getD index false then bytes.map invertByte else bytes := by
  simp [encodePart, bind_eq_ok_iff, pure, Except.pure, @eq_comm _ part]

theorem encodePartsFrom_cons_eq_ok_iff {key : List UInt8} :
    encodePartsFrom options directions collations transforms index (value :: values) = .ok key ↔
      ∃ part parts, encodePart options directions collations transforms index value = .ok part ∧
        encodePartsFrom options directions collations transforms (index + 1) values = .ok parts ∧
        key = part ++ parts := by
  simp [encodePartsFrom, bind_eq_ok_iff, pure, Except.pure, @eq_comm _ key]

variable {count : Nat} (resolved : ∀ column < count, options.normalizers
    (some (columnCollation options collations column)) = .ok (normalizer column))
  (orderPreserving : ∀ column < count, OrderPreserving (normalizer column) (collation column))

include resolved

private theorem resolved_column (column : index < count) :
    (columnOptions options collations index).normalizers
      (some ((columnOptions options collations index).collation.getD "NOCASE")) =
      .ok (normalizer index) := by
  have same : (columnOptions options collations index).normalizers = options.normalizers := by
    unfold columnOptions
    split <;> rfl
  rw [same]
  exact resolved index column

include orderPreserving in
/-- The induction over the columns. -/
private theorem decides_encodePartsFrom (sameLength : as.length = bs.length) (index : Nat)
    (bound : index + as.length ≤ count) (storableA : ∀ value ∈ as, Storable value)
    (storableB : ∀ value ∈ bs, Storable value) {keyA keyB : List UInt8}
    (encodedA : encodePartsFrom options directions collations [] index as = .ok keyA)
    (encodedB : encodePartsFrom options directions collations [] index bs = .ok keyB) :
    Decides (compareTuplesFrom collation directions index as bs) keyA keyB := by
  induction as generalizing bs index keyA keyB with
  | nil =>
    obtain rfl : bs = [] := eq_nil_of_length_eq_zero sameLength.symm
    obtain rfl := ok.inj encodedA
    obtain rfl := ok.inj encodedB
    exact decides_nil
  | cons a as ih =>
    cases bs with
    | nil => simp at sameLength
    | cons b bs =>
      rw [forall_mem_cons] at storableA storableB
      rw [length_cons] at bound
      obtain ⟨_, partsA, partA, encodedPartsA, rfl⟩ := encodePartsFrom_cons_eq_ok_iff.mp encodedA
      obtain ⟨_, partsB, partB, encodedPartsB, rfl⟩ := encodePartsFrom_cons_eq_ok_iff.mp encodedB
      obtain ⟨bytesA, encodedValueA, rfl⟩ := encodePart_eq_ok_iff.mp partA
      obtain ⟨bytesB, encodedValueB, rfl⟩ := encodePart_eq_ok_iff.mp partB
      have decides := decides_encodeValue (resolved_column resolved (by omega)) storableA.1
        storableB.1 (orderPreserving index (by omega)) encodedValueA encodedValueB
      refine Decides.append ?_ (ih (by simpa using sameLength) (index + 1) (by omega)
        storableA.2 storableB.2 encodedPartsA encodedPartsB)
      unfold compareColumn
      split
      · exact decides.map_reverse invertByte compare_invertByte
      · exact decides

/-- The tuples that are encoded. -/
private theorem encodePartsFrom_isOk_iff (directions : List Bool) (index : Nat)
    (bound : index + values.length ≤ count) (storable : ∀ value ∈ values, Storable value) :
    (∃ key, encodePartsFrom options directions collations [] index values = .ok key) ↔
      ∀ offset value, values[offset]? = some value →
        Normalizes (normalizer (index + offset)) value := by
  induction values generalizing index with
  | nil => exact ⟨fun _ => by simp, fun _ => ⟨[], rfl⟩⟩
  | cons value values ih =>
    rw [forall_mem_cons] at storable
    rw [length_cons] at bound
    have encodes := encodeValue_cases
      (resolved_column resolved (show index < count by omega)) storable.1
    have tail := ih (index + 1) (by omega) storable.2
    simp only [Nat.add_assoc, Nat.add_comm 1] at tail
    rw [forall_getElem?_cons, Nat.add_zero, ← encodes, ← tail]
    simp [encodePartsFrom_cons_eq_ok_iff, encodePart_eq_ok_iff, transformValue]

omit resolved

private theorem compareTuplesFrom_eq_eq_iff (index : Nat) :
    compareTuplesFrom collation directions index as bs = .eq ↔
      ∀ offset pair, (as.zip bs)[offset]? = some pair →
        compareSqlValuesFast pair.1 pair.2 (collation (index + offset)) = .eq := by
  induction as generalizing bs index with
  | nil => simp [compareTuplesFrom]
  | cons a as ih =>
    cases bs with
    | nil => simp [compareTuplesFrom]
    | cons b bs =>
      have column : compareColumn collation directions index a b = .eq ↔
          compareSqlValuesFast a b (collation index) = .eq := by
        unfold compareColumn
        split
        · cases compareSqlValuesFast a b (collation index) <;> simp
        · rfl
      rw [compareTuplesFrom, Ordering.then_eq_eq, column, ih, zip_cons_cons, forall_getElem?_cons]
      simp only [Nat.add_assoc, Nat.add_comm 1]
      rfl

/-- **Store keys are order-preserving.** For two tuples of storable values of one length, under
any directions and any collations whose normalizers give code-point order: a key exists exactly
when every normalized text has UTF-8 bytes, the byte order of two keys is the lexicographic
order of the tuples with descending columns flipped, and the keys are the same bytes exactly
when every column compares equal. -/
theorem compare_encodeCompositeKey (options : EncodeOptions) (directions : List Bool)
    (collations : List (Option String)) (normalizer : Nat → KeyNormalizer)
    (collation : Nat → CollationFunction) (as bs : List SqlValue)
    (sameLength : as.length = bs.length)
    (storableA : ∀ value ∈ as, Storable value) (storableB : ∀ value ∈ bs, Storable value)
    (resolved : ∀ column < as.length, options.normalizers
      (some (columnCollation options collations column)) = .ok (normalizer column))
    (orderPreserving : ∀ column < as.length,
      OrderPreserving (normalizer column) (collation column)) :
    ((∃ key, encodeCompositeKey as options directions collations [] = .ok key) ↔
      ∀ column text, as[column]? = some (.string text) →
        (normalizer column text).WellFormed) ∧
    ((∃ key, encodeCompositeKey bs options directions collations [] = .ok key) ↔
      ∀ column text, bs[column]? = some (.string text) →
        (normalizer column text).WellFormed) ∧
    ∀ keyA keyB, encodeCompositeKey as options directions collations [] = .ok keyA →
      encodeCompositeKey bs options directions collations [] = .ok keyB →
      compare keyA keyB = compareTuples collation directions as bs ∧
      (keyA = keyB ↔ ∀ column a b, as[column]? = some a → bs[column]? = some b →
        compareSqlValuesFast a b (collation column) = .eq) := by
  have encodes : ∀ values : List SqlValue, values.length = as.length →
      (∀ value ∈ values, Storable value) →
      ((∃ key, encodeCompositeKey values options directions collations [] = .ok key) ↔
        ∀ column text, values[column]? = some (.string text) →
          (normalizer column text).WellFormed) := by
    intro values length storable
    rw [encodeCompositeKey, encodePartsFrom_isOk_iff resolved directions 0 (by omega) storable]
    simp only [Nat.zero_add]
    refine ⟨fun all column text => all column _, fun all column value found => ?_⟩
    cases value with
    | string text => exact all column text found
    | _ => trivial
  refine ⟨encodes as rfl storableA, encodes bs sameLength.symm storableB,
    fun keyA keyB encodedA encodedB => ?_⟩
  have decides := decides_encodePartsFrom resolved orderPreserving sameLength 0 (by omega)
    storableA storableB encodedA encodedB
  refine ⟨decides.compare_eq, ?_⟩
  rw [decides.eq_iff, compareTuplesFrom_eq_eq_iff]
  simp [getElem?_zip_eq_some]

/-- The BINARY collation is code-point order under the identity normalizer. -/
theorem orderPreserving_binary : OrderPreserving id binaryCollation :=
  fun _ _ wellFormedA wellFormedB => compareCodePoints_eq wellFormedA wellFormedB

private def binaryOptions : EncodeOptions where
  collation := some "BINARY"
  normalizers := builtinKeyNormalizerResolver id

/-- Two rows that agree on an ascending integer, spelled as a bigint and as a boolean, and differ
in a descending text, of which one is a prefix of the other. -/
theorem compare_encodeCompositeKey_mixed :
    ∃ keyA keyB,
      encodeCompositeKey [.bigint 1, .string [0x61, 0x62]] binaryOptions [false, true] [] [] =
        .ok keyA ∧
      encodeCompositeKey [.boolean true, .string [0x61]] binaryOptions [false, true] [] [] =
        .ok keyB ∧
      compare keyA keyB = .lt := by
  obtain ⟨encodesA, encodesB, ordered⟩ := compare_encodeCompositeKey binaryOptions [false, true] []
    (fun _ => id) (fun _ => binaryCollation)
    [.bigint 1, .string [0x61, 0x62]] [.boolean true, .string [0x61]] rfl
    (by decide +kernel) (by decide +kernel) (fun _ _ => rfl) (fun _ _ => orderPreserving_binary)
  have verdict : compareTuples (fun _ => binaryCollation) [false, true]
      [.bigint 1, .string [0x61, 0x62]] [.boolean true, .string [0x61]] = .lt := by
    decide +kernel
  obtain ⟨keyA, encodedA⟩ := encodesA.mpr (by
    intro column text found
    rcases column with _ | _ | column <;> simp at found
    subst found
    decide)
  obtain ⟨keyB, encodedB⟩ := encodesB.mpr (by
    intro column text found
    rcases column with _ | _ | column <;> simp at found
    subst found
    decide)
  exact ⟨keyA, keyB, encodedA, encodedB, (ordered keyA keyB encodedA encodedB).1.trans verdict⟩

end Tuples

end Quereus.Store
