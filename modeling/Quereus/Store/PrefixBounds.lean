import Quereus.Store.EncodingOrder

/-!
# Scan bounds of a key prefix

`key-builder.ts` looks for the keys with given leading values between the encoded prefix and its
increment. The increment keeps the length and zeroes the bytes it carries over, so the interval
also holds a few strings that are too short. No key is one of them: components delimit
themselves, and after a carry a descending NULL would have to meet an ascending one.
-/

namespace Quereus.Store

open Fallible KeyOrder List Except Double

/-- The bounds of a scan; without `lt` it runs to the end of the store. -/
structure ScanBounds where
  gte : List UInt8
  lt : Option (List UInt8)
deriving DecidableEq, Repr

def ScanBounds.Contains (bounds : ScanBounds) (key : List UInt8) : Prop :=
  bounds.gte ≤ key ∧ ∀ lt, bounds.lt = some lt → key < lt

/-- Increments from the end; a byte that overflows becomes zero. -/
def incrementLastByte : List UInt8 → Option (List UInt8)
  | [] => none
  | byte :: rest =>
    match incrementLastByte rest with
    | some incremented => some (byte :: incremented)
    | none => if byte < 0xff then some ((byte + 1) :: rest.map fun _ => 0) else none

def buildFullScanBounds : ScanBounds :=
  ⟨[], none⟩

section Builders

variable (values : List SqlValue) (options : EncodeOptions) (directions : List Bool)
  (collations : List (Option String)) (transforms : List (Option KeyValueTransform))

def buildPkPrefixBounds : Except EncodeError ScanBounds :=
  if values.length = 0 then .ok buildFullScanBounds
  else do
    let prefixEncoded ← encodeCompositeKey values options directions collations transforms
    return ⟨prefixEncoded, incrementLastByte prefixEncoded⟩

/-- The source repeats the text of `buildPkPrefixBounds`. -/
def buildIndexPrefixBounds : Except EncodeError ScanBounds :=
  buildPkPrefixBounds values options directions collations transforms

def buildDataKey : Except EncodeError (List UInt8) :=
  encodeCompositeKey values options directions collations transforms

end Builders

/-- One half of a secondary-index key. -/
structure IndexKeyHalf where
  values : List SqlValue
  directions : List Bool
  collations : List (Option String)
  transforms : List (Option KeyValueTransform)

def buildIndexKey (index pk : IndexKeyHalf) (options : EncodeOptions) :
    Except EncodeError (List UInt8) := do
  let indexEncoded ← encodeCompositeKey index.values options index.directions index.collations
    index.transforms
  let pkEncoded ← encodeCompositeKey pk.values options pk.directions pk.collations pk.transforms
  return indexEncoded ++ pkEncoded

section Interval

variable {bytes rest key part part' parts parts' : List UInt8}

/-- A string below the increment of another that does not extend it: the carry has zeroed more
bytes than the string has left. -/
def Stub : List UInt8 → List UInt8 → Prop
  | byte :: rest, head :: tail => byte = head ∧ Stub rest tail ∨
      byte < 0xff ∧ head = byte + 1 ∧ tail.length < rest.length ∧
        (∀ byte ∈ rest, byte = 0xff) ∧ ∀ byte ∈ tail, byte = 0
  | _, _ => False

theorem incrementLastByte_eq_none_iff :
    incrementLastByte bytes = none ↔ ∀ byte ∈ bytes, byte = 0xff := by
  induction bytes with
  | nil => simp [incrementLastByte]
  | cons byte rest ih =>
    rw [incrementLastByte, forall_mem_cons]
    grind

/-- Nothing lies above a string of largest bytes but its extensions. -/
theorem le_iff_prefix_of_top (top : ∀ byte ∈ bytes, byte = 0xff) :
    (bytes ≤ key ↔ bytes <+: key) ∧ ¬ Stub bytes key := by
  induction bytes generalizing key with
  | nil => exact ⟨iff_of_true (nil_le _) nil_prefix, id⟩
  | cons byte rest ih =>
    obtain ⟨rfl, tops⟩ := forall_mem_cons.mp top
    cases key with
    | nil => simp [Stub]
    | cons head tail =>
      rw [cons_le_cons_iff, Stub]
      grind

theorem lt_zeros_iff :
    key < rest.map (fun _ => 0) ↔ key.length < rest.length ∧ ∀ byte ∈ key, byte = 0 := by
  induction rest generalizing key with
  | nil => simp
  | cons byte rest ih =>
    cases key with
    | nil => simp
    | cons head tail =>
      rw [map_cons, cons_lt_cons_iff, forall_mem_cons]
      grind

theorem contains_incremented {lt : List UInt8} (incremented : incrementLastByte bytes = some lt) :
    bytes ≤ key ∧ key < lt ↔ bytes <+: key ∨ Stub bytes key := by
  induction bytes generalizing lt key with
  | nil => cases incremented
  | cons byte rest ih =>
    cases key with
    | nil => simp [Stub]
    | cons head tail =>
      have top := @incrementLastByte_eq_none_iff rest
      rw [incrementLastByte] at incremented
      rw [cons_le_cons_iff, Stub]
      cases later : incrementLastByte rest with
      | some next =>
        rw [later] at incremented top
        obtain rfl := Option.some.inj incremented
        rw [cons_lt_cons_iff]
        grind
      | none =>
        have tails := @le_iff_prefix_of_top _ tail (top.mp later)
        simp only [later] at incremented
        split at incremented
        · obtain rfl := Option.some.inj incremented
          rw [cons_lt_cons_iff, lt_zeros_iff]
          grind
        · cases incremented

theorem Stub.of_append_left (stub : Stub (part ++ parts) (part ++ parts')) : Stub parts parts' := by
  induction part with
  | nil => exact stub
  | cons byte part ih =>
    rcases stub with ⟨-, stub⟩ | ⟨-, next, -⟩
    · exact ih stub
    · exact absurd next (by grind)

/-- The carry starts where the first parts differ. -/
theorem Stub.split {verdict : Ordering} (decides : Decides verdict part part')
    (differ : part ≠ part')
    (stub : Stub (part ++ parts) (part' ++ parts')) :
    ∃ same byte rest rest', part = same ++ byte :: rest ∧ part' = same ++ (byte + 1) :: rest' ∧
      byte < 0xff ∧ (rest' ++ parts').length < (rest ++ parts).length ∧
      (∀ byte ∈ rest ++ parts, byte = 0xff) ∧ ∀ byte ∈ rest' ++ parts', byte = 0 := by
  induction part generalizing part' with
  | nil => exact absurd decides.eq_nil.symm differ
  | cons byte rest ih =>
    cases part' with
    | nil => exact absurd decides.swap.eq_nil differ
    | cons byte' rest' =>
      rcases stub with ⟨rfl, stub⟩ | ⟨bound, rfl, carried⟩
      · obtain ⟨same, byte', rest, rest', rfl, rfl, found⟩ :=
          ih (fun x y => by simpa using decides x y) (fun same => differ (same ▸ rfl)) stub
        exact ⟨byte :: same, byte', rest, rest', rfl, rfl, found⟩
      · exact ⟨[], byte, rest, rest', rfl, rfl, bound, carried⟩

end Interval

/-- What follows the tag of an encoded value. -/
def Body (tag : UInt8) (rest : List UInt8) : Prop :=
  if tag = typeNull then rest = []
  else if tag = typeNumeric then rest.length = 16 ∧ ¬ ∀ byte ∈ rest, byte = 0
  else ∃ content, rest = flatMap escapeContentByte content ++ [nullByte]

/-- The byte strings a value may be encoded to. There is no tag 0x02. -/
def Component : List UInt8 → Prop
  | [] => False
  | tag :: rest => tag ≤ typeObject ∧ tag ≠ 0x02 ∧ Body tag rest

variable {byte : UInt8}

section Components

variable {bytes same rest rest' content : List UInt8}

theorem eq_zero_of_bigEndian {width value : Nat} (bound : value < 256 ^ width)
    (zero : ∀ byte ∈ bigEndian width value, byte = 0) : value = 0 := by
  have same : bigEndian width value = bigEndian width 0 := by
    rw [eq_replicate_of_mem zero, length_bigEndian]
    clear bound zero
    induction width with
    | zero => rfl
    | succ width ih => rw [replicate_succ, ih, bigEndian, Nat.zero_div]; rfl
  rw [← Nat.compare_eq_eq, ← compare_bigEndian bound (Nat.pow_pos (by decide)), same]
  exact Std.ReflOrd.compare_self

/-- Only a NaN with all bits set and a negative zero could sort at zero. -/
theorem writeSortableDouble_nonzero (number : Double) :
    (writeSortableDouble number).length = 8 ∧ ¬ ∀ byte ∈ writeSortableDouble number, byte = 0 := by
  have signed : (if number = negativeZero then zero else number) ≠
      negativeZero := by grind [zero, negativeZero]
  unfold writeSortableDouble
  generalize (if number = negativeZero then zero else number) = normalized at *
  have bound : normalized.bits.toNat < 256 ^ 8 := normalized.bits.isLt
  dsimp only
  split
  · next negative =>
    rw [map_invertByte_bigEndian bound]
    refine ⟨length_bigEndian .., fun zero => ?_⟩
    have top := eq_zero_of_bigEndian (by omega) zero
    have nan : normalized = ⟨BitVec.ofNat 64 (2 ^ 64 - 1)⟩ :=
      eq_of_toNat_bits (show _ = 2 ^ 64 - 1 by omega)
    rw [nan] at negative
    exact absurd negative (by decide)
  · rw [flipLeadingBit_bigEndian 7, ← bigEndian_mod]
    refine ⟨length_bigEndian .., fun zero => signed ?_⟩
    have half := eq_zero_of_bigEndian (Nat.mod_lt _ (by decide)) zero
    exact eq_of_toNat_bits (show _ = 2 ^ 63 by omega)

theorem component_encodeNumeric {value : Numeric} (encoded : encodeNumeric value = .ok bytes) :
    Component bytes := by
  obtain ⟨⟨primary, offset⟩, -, written⟩ := bind_eq_ok_iff.mp encoded
  obtain rfl := ok.inj written
  obtain ⟨width, nonzero⟩ := writeSortableDouble_nonzero primary
  refine ⟨by decide, by decide, ?_, fun zero => nonzero fun byte member => ?_⟩
  · rw [length_append, width, flipLeadingBit_bigEndian 7, length_bigEndian]
  · exact zero byte (mem_append_left _ member)

theorem component_encodeValue {value : SqlValue} {options : EncodeOptions}
    (encoded : encodeValue value options = .ok bytes) : Component bytes := by
  cases value with
  | null => exact ok.inj encoded ▸ ⟨by decide, by decide, rfl⟩
  | bigint value => exact component_encodeNumeric encoded
  | number value => exact component_encodeNumeric encoded
  | boolean value => exact component_encodeNumeric encoded
  | blob content => exact ok.inj encoded ▸ ⟨by decide, by decide, content, rfl⟩
  | object canonical => exact ok.inj encoded ▸ ⟨by decide, by decide, _, rfl⟩
  | string text =>
    obtain ⟨normalizer, resolved, -⟩ := bind_eq_ok_iff.mp encoded
    rw [((encodeValue_string_iff resolved).mp encoded).2]
    exact ⟨by decide, by decide, _, rfl⟩

theorem Component.exists_decides (first : Component bytes) (second : Component rest) :
    ∃ verdict, Decides verdict bytes rest := by
  cases bytes with
  | nil => exact first.elim
  | cons tag bytes =>
    cases rest with
    | nil => exact second.elim
    | cons tag' rest =>
      by_cases same : tag = tag'
      · subst same
        have bodies := And.intro first.2.2 second.2.2
        unfold Body at bodies
        split_ifs at bodies
        · rw [bodies.1, bodies.2]
          exact ⟨_, decides_eq_refl _⟩
        · exact ⟨_, (decides_of_length_eq (bodies.1.1.trans bodies.2.1.symm)).cons _⟩
        · obtain ⟨⟨content, rfl⟩, content', rfl⟩ := bodies
          exact ⟨_, decides_writeEscapedWithTerminator tag content content'⟩
      · exact ⟨_, decides_cons_of_ne fun equal => same (Std.LawfulEqOrd.eq_of_compare equal)⟩

/-- The terminator is the last byte and none of the largest. -/
theorem terminated_inj (spelled : same ++ byte :: rest = content ++ [nullByte])
    (top : ∀ byte ∈ rest, byte = 0xff) : same = content ∧ byte = nullByte ∧ rest = [] := by
  rcases eq_nil_or_concat' rest with rfl | ⟨rest, last, rfl⟩
  · obtain ⟨rfl, last⟩ := append_inj' spelled rfl
    exact ⟨rfl, head_eq_of_cons_eq last, rfl⟩
  · rw [← cons_append, ← append_assoc] at spelled
    have terminator := head_eq_of_cons_eq (append_inj' spelled rfl).2
    cases terminator.symm.trans (top last (by simp))

/-- A terminator never cuts an escape short. -/
theorem escaped_ne (content other rest : List UInt8) :
    flatMap escapeContentByte content ++ [nullByte] ≠
      flatMap escapeContentByte other ++ 1 :: 0 :: rest := by
  induction other generalizing content with
  | nil =>
    cases content with
    | nil => simp
    | cons byte content =>
      simp only [flatMap_cons, escapeContentByte]
      split
      · simp
      · grind [escapeByte]
  | cons byte' other ih =>
    cases content with
    | nil =>
      obtain ⟨head, tail, spelled, below⟩ := exists_escapeContentByte byte'
      grind
    | cons byte content =>
      rw [flatMap_cons, flatMap_cons, append_assoc, append_assoc]
      intro same
      have word := (decides_escapeContentByte byte byte').eq_of_append_eq same
      rw [word] at same
      exact ih content (append_cancel_left same)

/-- The same for components that are inverted, before they are. -/
theorem Component.carry_descending (above : Component (same ++ (byte + 1) :: rest))
    (below : Component (same ++ byte :: rest')) (zero : ∀ byte ∈ rest, byte = 0)
    (top : ∀ byte ∈ rest', byte = 0xff) : rest.length ≤ rest'.length := by
  cases same with
  | nil =>
    have body := above.2.2
    unfold Body at body
    split_ifs at body with null numeric
    · rw [body]
      exact Nat.zero_le _
    · exact absurd zero body.2
    · have body' := below.2.2
      unfold Body at body'
      split_ifs at body' with null' numeric'
      · exact absurd (null' ▸ rfl) numeric
      · exact absurd (numeric' ▸ rfl) above.2.1
      · obtain ⟨content, rfl⟩ := body'
        cases top nullByte (by simp)
  | cons tag same =>
    rw [cons_append] at below above
    have bodies := And.intro above.2.2 below.2.2
    unfold Body at bodies
    split_ifs at bodies
    · simp at bodies
    · simp only [length_append, length_cons] at bodies
      omega
    · obtain ⟨⟨content, spelled⟩, content', spelled'⟩ := bodies
      obtain ⟨rfl, rfl, rfl⟩ := terminated_inj spelled' top
      cases rest with
      | nil => exact Nat.le_refl _
      | cons next rest =>
        obtain ⟨rfl, -⟩ := forall_mem_cons.mp zero
        exact absurd spelled.symm (escaped_ne content content' rest)

end Components

@[simp] theorem invertByte_invertByte (byte : UInt8) : invertByte (invertByte byte) = byte := by
  rw [invertByte, invertByte, UInt8.xor_assoc, UInt8.xor_self, UInt8.xor_zero]

/-- A component as it stands in a key. -/
def Part (descending : Bool) (part : List UInt8) : Prop :=
  Component (if descending then part.map invertByte else part)

section Parts

variable {descending : Bool} {part part' same rest rest' : List UInt8}

theorem Part.carry (below : Part descending (same ++ byte :: rest))
    (above : Part descending (same ++ (byte + 1) :: rest')) (bound : byte < 0xff)
    (top : ∀ byte ∈ rest, byte = 0xff) (zero : ∀ byte ∈ rest', byte = 0) :
    rest.length ≤ rest'.length := by
  cases descending with
  | false =>
    -- Bytes that a carry zeroes are left in the greater one of two components.
    cases same with
    | nil =>
      have body := below.2.2
      unfold Body at body
      split_ifs at body with null numeric
      · rw [body]
        exact Nat.zero_le _
      · exact absurd (numeric ▸ rfl) above.2.1
      · obtain ⟨content, rfl⟩ := body
        cases top nullByte (by simp)
    | cons tag same =>
      rw [cons_append] at below above
      have bodies := And.intro below.2.2 above.2.2
      unfold Body at bodies
      split_ifs at bodies
      · simp at bodies
      · simp only [length_append, length_cons] at bodies
        omega
      · obtain ⟨⟨content, spelled⟩, -⟩ := bodies
        rw [(terminated_inj spelled top).2.2]
        exact Nat.zero_le _
  | true =>
    have next : invertByte byte = invertByte (byte + 1) + 1 := by
      have small : byte.toNat < 255 := UInt8.lt_iff_toNat_lt.mp bound
      rw [← UInt8.toNat_inj, UInt8.toNat_add, toNat_invertByte, toNat_invertByte, UInt8.toNat_add]
      omega
    simp only [Part, ↓reduceIte, map_append, map_cons] at below above
    rw [next] at below
    have lengths := Component.carry_descending below above
      (forall_mem_map.mpr fun byte member => top byte member ▸ rfl)
      (forall_mem_map.mpr fun byte member => zero byte member ▸ rfl)
    rwa [length_map, length_map] at lengths

theorem Part.exists_decides (isPart : Part descending part) (isPart' : Part descending part') :
    ∃ verdict, Decides verdict part part' := by
  obtain ⟨verdict, decides⟩ := Component.exists_decides isPart isPart'
  cases descending with
  | false => exact ⟨_, decides⟩
  | true =>
    have reversed := decides.map_reverse invertByte compare_invertByte
    exact ⟨verdict.swap, by simpa [Function.comp_def] using reversed⟩

/-- The tag tells a descending component from an ascending one. -/
theorem Part.exists_cons (isPart : Part descending part) :
    ∃ head tail, part = head :: tail ∧ if descending then head ≠ 0 else head ≠ 0xff := by
  cases part with
  | nil => cases descending <;> exact isPart.elim
  | cons head tail =>
    refine ⟨head, tail, rfl, ?_⟩
    cases descending with
    | false =>
      rintro rfl
      exact absurd isPart.1 (by decide)
    | true =>
      rintro rfl
      exact absurd isPart.1 (by decide)

end Parts

section Keys

variable {options : EncodeOptions} {directions : List Bool} {collations : List (Option String)}
  {transforms : List (Option KeyValueTransform)} {leading values : List SqlValue}

theorem part_encodePart {index : Nat} {value : SqlValue} {part : List UInt8}
    (encoded : encodePart options directions collations transforms index value = .ok part) :
    Part (directions.getD index false) part := by
  obtain ⟨bytes, encodedValue, rfl⟩ := encodePart_eq_ok_iff.mp encoded
  have component := component_encodeValue encodedValue
  unfold Part
  split
  · simpa [Function.comp_def] using component
  · exact component

/-- The encoded prefix begins a key exactly when it encodes the key's leading values, and no key
is a stub. -/
theorem prefix_encodePartsFrom {index : Nat} {encoded key : List UInt8}
    (covers : leading.length ≤ values.length)
    (isPrefix : encodePartsFrom options directions collations transforms index leading =
      .ok encoded)
    (isKey : encodePartsFrom options directions collations transforms index values = .ok key)
    (rest : List UInt8) :
    ¬ Stub encoded (key ++ rest) ∧ (encoded <+: key ++ rest ↔
      encodePartsFrom options directions collations transforms index
        (values.take leading.length) = .ok encoded) := by
  induction leading generalizing values index encoded key with
  | nil =>
    obtain rfl := ok.inj isPrefix
    exact ⟨id, iff_of_true nil_prefix rfl⟩
  | cons first leading ih =>
    cases values with
    | nil => simp at covers
    | cons value values =>
      obtain ⟨part, parts, isPart, isParts, rfl⟩ := encodePartsFrom_cons_eq_ok_iff.mp isPrefix
      obtain ⟨part', parts', isPart', isParts', rfl⟩ := encodePartsFrom_cons_eq_ok_iff.mp isKey
      have below := part_encodePart isPart
      have above := part_encodePart isPart'
      obtain ⟨verdict, decides⟩ := below.exists_decides above
      obtain ⟨notStub, begins⟩ := ih (Nat.le_of_succ_le_succ covers) isParts isParts'
      rw [length_cons, take_succ_cons, encodePartsFrom_cons_eq_ok_iff, append_assoc]
      by_cases same : part = part'
      · subst same
        refine ⟨fun stub => notStub stub.of_append_left, ?_⟩
        rw [prefix_append_right_inj, begins]
        refine ⟨fun encoded => ⟨part, parts, isPart', encoded, rfl⟩, ?_⟩
        rintro ⟨found, others, isFound, isOthers, whole⟩
        obtain rfl := ok.inj (isPart'.symm.trans isFound)
        rwa [append_cancel_left whole]
      · refine ⟨fun stub => ?_, iff_of_false ?_ ?_⟩
        · obtain ⟨same, byte, left, left', rfl, rfl, bound, short, top, zero⟩ :=
            stub.split decides same
          rw [forall_mem_append] at top zero
          have carried := below.carry above bound top.1 zero.1
          -- What the carry zeroes besides is a descending NULL of the prefix.
          cases leading with
          | nil =>
            obtain rfl := ok.inj isParts
            simp only [length_append, length_nil] at short
            omega
          | cons second leading =>
            cases values with
            | nil => simp at covers
            | cons value values =>
              obtain ⟨next, _, isNext, -, rfl⟩ := encodePartsFrom_cons_eq_ok_iff.mp isParts
              obtain ⟨next', _, isNext', -, rfl⟩ := encodePartsFrom_cons_eq_ok_iff.mp isParts'
              obtain ⟨head, tail, rfl, descends⟩ := (part_encodePart isNext).exists_cons
              obtain ⟨head', tail', rfl, ascends⟩ := (part_encodePart isNext').exists_cons
              have topHead := top.2 head (by simp)
              have zeroHead := zero.2 head' (by simp)
              grind
        · rintro ⟨extra, whole⟩
          rw [append_assoc] at whole
          exact same (decides.eq_of_append_eq whole)
        · rintro ⟨found, others, isFound, -, whole⟩
          obtain rfl := ok.inj (isPart'.symm.trans isFound)
          exact same (decides.eq_of_append_eq whole)

/-- A key may go on after the components, as an index key does with the primary key. -/
theorem contains_prefixBounds {bounds : ScanBounds} {key : List UInt8}
    (covers : leading.length ≤ values.length)
    (built : buildPkPrefixBounds leading options directions collations transforms = .ok bounds)
    (isKey : encodeCompositeKey values options directions collations transforms = .ok key)
    (rest : List UInt8) :
    bounds.Contains (key ++ rest) ↔
      encodeCompositeKey (values.take leading.length) options directions collations transforms =
        encodeCompositeKey leading options directions collations transforms := by
  unfold buildPkPrefixBounds at built
  split at built
  · next empty =>
    obtain rfl := eq_nil_of_length_eq_zero empty
    obtain rfl := ok.inj built
    exact iff_of_true ⟨nil_le _, nofun⟩ rfl
  · obtain ⟨encoded, isPrefix, bounded⟩ := bind_eq_ok_iff.mp built
    obtain rfl := ok.inj bounded
    obtain ⟨notStub, begins⟩ := prefix_encodePartsFrom covers isPrefix isKey rest
    rw [isPrefix, encodeCompositeKey, ← begins]
    unfold ScanBounds.Contains
    cases incremented : incrementLastByte encoded with
    | none =>
      rw [← (le_iff_prefix_of_top (incrementLastByte_eq_none_iff.mp incremented)).1]
      exact and_iff_left (by simp)
    | some lt =>
      simp only [Option.some.injEq, forall_eq']
      rw [contains_incremented incremented, or_iff_left notStub]

/-- **The bounds of a prefix hold its keys and no others.** A full key, of a table or of an
index, lies between the bounds exactly when its leading values encode to the bytes of the
prefix. -/
theorem prefixBounds_exact {bounds : ScanBounds} {key : List UInt8}
    (built : buildPkPrefixBounds leading options directions collations transforms = .ok bounds ∧
        buildDataKey values options directions collations transforms = .ok key ∨
      buildIndexPrefixBounds leading options directions collations transforms = .ok bounds ∧
        ∃ pk, buildIndexKey ⟨values, directions, collations, transforms⟩ pk options = .ok key)
    (covers : leading.length ≤ values.length) :
    bounds.Contains key ↔
      encodeCompositeKey (values.take leading.length) options directions collations transforms =
        encodeCompositeKey leading options directions collations transforms := by
  rcases built with ⟨built, isKey⟩ | ⟨built, pk, isKey⟩
  · have exact := contains_prefixBounds covers built isKey []
    rwa [append_nil] at exact
  · obtain ⟨index, isIndex, indexed⟩ := bind_eq_ok_iff.mp isKey
    obtain ⟨encodedPk, -, whole⟩ := bind_eq_ok_iff.mp indexed
    obtain rfl := ok.inj whole
    exact contains_prefixBounds covers built isIndex encodedPk

/-- A descending blob whose last byte is escaped: the carry reaches into the escape. -/
theorem prefixBounds_exact_blob :
    (⟨[0xfb, 0xfe, 0xfe, 0xff], some [0xfb, 0xfe, 0xff, 0x00]⟩ : ScanBounds).Contains
      [0xfb, 0xfe, 0xfe, 0xff, 0x00] :=
  have options : EncodeOptions := ⟨none, builtinKeyNormalizerResolver id⟩
  have built : buildPkPrefixBounds [.blob [0]] options [true] [] [] =
      .ok ⟨[0xfb, 0xfe, 0xfe, 0xff], some [0xfb, 0xfe, 0xff, 0x00]⟩ := rfl
  have isKey : buildDataKey [.blob [0], .null] options [true] [] [] =
      .ok [0xfb, 0xfe, 0xfe, 0xff, 0x00] := rfl
  (prefixBounds_exact (.inl ⟨built, isKey⟩) (by decide)).mpr rfl

end Keys

end Quereus.Store
