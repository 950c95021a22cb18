import Quereus.Value.Comparison

/-!
# Store key encoding

`quereus-store/src/common/encoding.ts`: every SQL value becomes a tagged byte string, and a
composite key is the concatenation of its components, a descending one with all bits inverted.
Encoding can fail: a collation name may be unknown to the resolver, a normalized text may hold
an unpaired surrogate, and a bigint beyond the double range has no nearest double to subtract.
-/

namespace Quereus.Store

open KeyOrder

/-- What an encode call raises. -/
inductive EncodeError where
  | noSuchCollation (collationName : String)
  | unpairedSurrogate (describe : String) (codeUnit : UInt16) (offset : Nat)
  | notAnInteger
deriving DecidableEq, Repr

/-- Four upper-case hexadecimal digits of a code unit. -/
def hexCodeUnit (codeUnit : UInt16) : String :=
  let digits := (String.ofList (Nat.toDigits 16 codeUnit.toNat)).toUpper
  String.ofList (List.replicate (4 - digits.length) '0') ++ digits

def EncodeError.message : EncodeError → String
  | .noSuchCollation collationName => "no such collation sequence: " ++ collationName
  | .unpairedSurrogate describe codeUnit offset =>
    "cannot store " ++ describe ++ " containing an unpaired surrogate (U+" ++
    hexCodeUnit codeUnit ++ " at offset " ++ toString offset ++ "): " ++
    "persistent storage keys text by its UTF-8 bytes, and no UTF-8 sequence encodes a lone " ++
    "surrogate — every one of them would collide on U+FFFD, merging distinct rows. " ++
    "In-memory tables accept the value."
  | .notAnInteger =>
    "The number Infinity cannot be converted to a BigInt because it is not an integer"

abbrev KeyNormalizer := Utf16 → Utf16

/-- Resolves a collation name to its key normalizer. -/
abbrev KeyNormalizerResolver := Option String → Except EncodeError KeyNormalizer

/-- The built-in normalizers: `toLowerCase` is the string method of the JavaScript runtime. -/
def builtinKeyNormalizerResolver (toLowerCase : Utf16 → Utf16) : KeyNormalizerResolver
  | none => .ok id
  | some collationName =>
    if collationName = "" ∨ collationName = "BINARY" then .ok id
    else match collationName.toUpper with
      | "BINARY" => .ok id
      | "NOCASE" => .ok toLowerCase
      | "RTRIM" => .ok fun text => text.take (rtrimLength text)
      | _ => .error (.noSuchCollation collationName)

/-- A per-column value transform, applied to non-NULL values before encoding. -/
abbrev KeyValueTransform := SqlValue → SqlValue

/-- `collation` is the key-wide default, `NOCASE` when absent. -/
structure EncodeOptions where
  collation : Option String
  normalizers : KeyNormalizerResolver

def typeNull : UInt8 := 0x00
def typeNumeric : UInt8 := 0x01
def typeText : UInt8 := 0x03
def typeBlob : UInt8 := 0x04
def typeObject : UInt8 := 0x05
def escapeByte : UInt8 := 0x01
def nullByte : UInt8 := 0x00

/-- The eight-byte sortable form of a double. -/
def writeSortableDouble (value : Double) : List UInt8 :=
  let normalized := if value = Double.negativeZero then Double.zero else value
  let bytes := bigEndian 8 normalized.bits.toNat
  if (Numeric.number normalized).lt (.number Double.zero) then bytes.map invertByte
  else flipLeadingBit bytes

/-- The nearest double of a numeric value and the exact residual to it. -/
def numericParts : Numeric → Except EncodeError (Double × Int)
  | .bigint value =>
    let primary := Double.ofInt value
    match primary.toInt? with
    | some nearest => .ok (primary, value - nearest)
    | none => .error .notAnInteger
  | .number value => .ok (if value = Double.negativeZero then Double.zero else value, 0)

/-- Tag, sortable nearest double, and the residual as a sign-flipped big-endian int64. -/
def encodeNumeric (value : Numeric) : Except EncodeError (List UInt8) := do
  let (primary, offset) ← numericParts value
  return typeNumeric :: (writeSortableDouble primary ++
    flipLeadingBit (bigEndian 8 (offset % 2 ^ 64).toNat))

def escapeContentByte (byte : UInt8) : List UInt8 :=
  if byte = nullByte then [escapeByte, 0x01]
  else if byte = escapeByte then [escapeByte, 0x02]
  else [byte]

def writeEscapedWithTerminator (typeTag : UInt8) (bytes : List UInt8) : List UInt8 :=
  typeTag :: (bytes.flatMap escapeContentByte ++ [nullByte])

/-- The scan of `findUnpairedSurrogate` from offset `index` on. -/
def findUnpairedSurrogateFrom (index : Nat) : Utf16 → Option (Nat × UInt16)
  | [] => none
  | unit :: rest =>
    if unit.toNat < 0xD800 ∨ 0xDFFF < unit.toNat then findUnpairedSurrogateFrom (index + 1) rest
    else if 0xDC00 ≤ unit.toNat then some (index, unit)
    else match rest with
      | [] => some (index, unit)
      | next :: rest' =>
        if next.toNat < 0xDC00 ∨ 0xDFFF < next.toNat then some (index, unit)
        else findUnpairedSurrogateFrom (index + 2) rest'

/-- The first unpaired surrogate of a string, with its offset. -/
def findUnpairedSurrogate (value : Utf16) : Option (Nat × UInt16) :=
  findUnpairedSurrogateFrom 0 value

def assertNoUnpairedSurrogate (value : Utf16) (describe : String) : Except EncodeError Unit :=
  match findUnpairedSurrogate value with
  | none => .ok ()
  | some (offset, codeUnit) => .error (.unpairedSurrogate describe codeUnit offset)

def encodeText (value : Utf16) (collation : String) (normalizers : KeyNormalizerResolver) :
    Except EncodeError (List UInt8) := do
  let normalizer ← normalizers (some collation)
  let sortValue := normalizer value
  assertNoUnpairedSurrogate sortValue "a text value"
  return writeEscapedWithTerminator typeText sortValue.utf8

def encodeBlob (value : List UInt8) : List UInt8 :=
  writeEscapedWithTerminator typeBlob value

def encodeObject (jsonString : Utf16) : List UInt8 :=
  writeEscapedWithTerminator typeObject jsonString.utf8

def encodeValue (value : SqlValue) (options : EncodeOptions) : Except EncodeError (List UInt8) :=
  let collation := options.collation.getD "NOCASE"
  match value with
  | .null => .ok [typeNull]
  | .bigint value => encodeNumeric (.bigint value)
  | .number value => encodeNumeric (.number value)
  | .string value => encodeText value collation options.normalizers
  | .blob value => .ok (encodeBlob value)
  | .boolean value => encodeNumeric (.bigint (if value then 1 else 0))
  | .object canonical => .ok (encodeObject canonical)

/-- The options of one component: a defined per-column collation overrides the key-wide one. -/
def columnOptions (options : EncodeOptions) (collations : List (Option String)) (index : Nat) :
    EncodeOptions :=
  match collations[index]? with
  | some (some collation) => { options with collation := some collation }
  | _ => options

/-- The value that is encoded for a component. NULL is exempt from the transform. -/
def transformValue (transforms : List (Option KeyValueTransform)) (index : Nat)
    (value : SqlValue) : SqlValue :=
  match transforms[index]? with
  | some (some transform) => if value = .null then value else transform value
  | _ => value

/-- One component of a composite key. -/
def encodePart (options : EncodeOptions) (directions : List Bool)
    (collations : List (Option String)) (transforms : List (Option KeyValueTransform))
    (index : Nat) (value : SqlValue) : Except EncodeError (List UInt8) := do
  let encoded ← encodeValue (transformValue transforms index value)
    (columnOptions options collations index)
  return if directions.getD index false then encoded.map invertByte else encoded

/-- The components from position `index` on, concatenated. -/
def encodePartsFrom (options : EncodeOptions) (directions : List Bool)
    (collations : List (Option String)) (transforms : List (Option KeyValueTransform)) :
    Nat → List SqlValue → Except EncodeError (List UInt8)
  | _, [] => .ok []
  | index, value :: values => do
    let part ← encodePart options directions collations transforms index value
    let parts ← encodePartsFrom options directions collations transforms (index + 1) values
    return part ++ parts

def encodeCompositeKey (values : List SqlValue) (options : EncodeOptions)
    (directions : List Bool) (collations : List (Option String))
    (transforms : List (Option KeyValueTransform)) : Except EncodeError (List UInt8) :=
  encodePartsFrom options directions collations transforms 0 values

end Quereus.Store
