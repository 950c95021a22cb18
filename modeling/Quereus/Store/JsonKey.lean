import Quereus.Lib.KeyedList
import Quereus.Store.EncodingOrder

/-!
# Structural keys of JSON values

`json-key.ts` writes a JSON value as self-delimiting bytes: a tag for its kind, and behind it the
value, the elements, or the keys and then the members. `deepCompareJson` of `json-type.ts` walks
two values side by side. Both sort the keys of an object by code point, so the bytes decide what
the walk does.
-/

namespace Quereus.Store

open Fallible KeyOrder List

/-- A JSON value. An object has its members in the order its keys were added. -/
inductive JsonValue where
  | null
  | boolean (value : Bool)
  | number (value : Double)
  | string (value : Utf16)
  | array (elements : List JsonValue)
  | object (members : List (Utf16 × JsonValue))

namespace JsonValue

def jsonTypeOrder : JsonValue → Nat
  | .null => 0
  | .boolean _ => 1
  | .number _ => 2
  | .string _ => 3
  | .array _ => 4
  | .object _ => 5

/-- The keys of an object in code-point order. -/
def sortedKeys (members : List (Utf16 × JsonValue)) : List Utf16 :=
  (members.map Prod.fst).insertionSort fun a b => compareCodePoints a b ≠ .gt

/-- The loop over the keys of two objects that have the same keys. -/
def compareMembers (comparisons : List (Utf16 × (JsonValue → Ordering)))
    (others : List (Utf16 × JsonValue)) : List Utf16 → Ordering
  | [] => .eq
  | key :: keys =>
    (match comparisons.lookup key, others.lookup key with
      | some comparison, some other => comparison other
      | _, _ => .eq).then (compareMembers comparisons others keys)

mutual

/-- Kinds that differ compare by their ranks. -/
def deepCompareJson : JsonValue → JsonValue → Ordering
  | .null, .null => .eq
  | .string a, .string b => compareCodePoints a b
  | .boolean a, .boolean b => compare a b
  | .number a, .number b => compareNumbers (.number a) (.number b)
  | .array a, .array b => compareElements a b
  | .object a, .object b =>
    ((sortedKeys a).compareLex compareCodePoints (sortedKeys b)).then
      (compareMembers (memberComparisons a) b (sortedKeys a))
  | a, b => compare a.jsonTypeOrder b.jsonTypeOrder

def compareElements : List JsonValue → List JsonValue → Ordering
  | [], [] => .eq
  | [], _ :: _ => .lt
  | _ :: _, [] => .gt
  | a :: as, b :: bs => (deepCompareJson a b).then (compareElements as bs)

/-- Each member with the comparison against it. -/
def memberComparisons : List (Utf16 × JsonValue) → List (Utf16 × (JsonValue → Ordering))
  | [] => []
  | (key, value) :: members => (key, deepCompareJson value) :: memberComparisons members

end

def TAG_NULL : UInt8 := 0x01
def TAG_BOOLEAN : UInt8 := 0x02
def TAG_NUMBER : UInt8 := 0x03
def TAG_STRING : UInt8 := 0x04
def TAG_ARRAY : UInt8 := 0x05
def TAG_OBJECT : UInt8 := 0x06
def TERMINATOR : UInt8 := 0x00
def KEY_MARKER : UInt8 := 0x01

def pushString (tag : UInt8) (value : Utf16) (describe : String) :
    Except EncodeError (List UInt8) := do
  assertNoUnpairedSurrogate value describe
  return writeEscapedWithTerminator tag value.utf8

/-- The keys, each behind its marker. -/
def pushKeys : List Utf16 → Except EncodeError (List UInt8)
  | [] => .ok [TERMINATOR]
  | key :: keys => do
    let first ← pushString KEY_MARKER key "a JSON object key"
    let rest ← pushKeys keys
    return first ++ rest

/-- The members in the order of the keys. -/
def pushMembers (encodings : List (Utf16 × Except EncodeError (List UInt8))) :
    List Utf16 → Except EncodeError (List UInt8)
  | [] => .ok []
  | key :: keys => do
    let first ← (encodings.lookup key).getD (.ok [])
    let rest ← pushMembers encodings keys
    return first ++ rest

mutual

def pushJsonNode : JsonValue → Except EncodeError (List UInt8)
  | .null => .ok [TAG_NULL]
  | .boolean value => .ok [TAG_BOOLEAN, if value then 0x01 else 0x00]
  | .number value => .ok (TAG_NUMBER :: writeSortableDouble value)
  | .string value => pushString TAG_STRING value "a JSON string value"
  | .array elements => do
    let body ← pushElements elements
    return TAG_ARRAY :: body
  | .object members => do
    let keys ← pushKeys (sortedKeys members)
    let values ← pushMembers (memberEncodings members) (sortedKeys members)
    return TAG_OBJECT :: (keys ++ values)

def pushElements : List JsonValue → Except EncodeError (List UInt8)
  | [] => .ok [TERMINATOR]
  | element :: elements => do
    let first ← pushJsonNode element
    let rest ← pushElements elements
    return first ++ rest

/-- Each member with its bytes. -/
def memberEncodings :
    List (Utf16 × JsonValue) → List (Utf16 × Except EncodeError (List UInt8))
  | [] => []
  | (key, value) :: members => (key, pushJsonNode value) :: memberEncodings members

end

/-- The bytes travel as a blob. -/
def jsonStructuralKey (value : JsonValue) : Except EncodeError SqlValue := do
  let bytes ← pushJsonNode value
  return .blob bytes

/-- Numbers are finite, and texts and keys are well formed. -/
inductive Storable : JsonValue → Prop
  | null : Storable .null
  | boolean (value : Bool) : Storable (.boolean value)
  | number {value : Double} (finite : value.isFinite) : Storable (.number value)
  | string {value : Utf16} (wellFormed : value.WellFormed) : Storable (.string value)
  | array {elements : List JsonValue} (each : ∀ element ∈ elements, Storable element) :
      Storable (.array elements)
  | object {members : List (Utf16 × JsonValue)} (keys : ∀ member ∈ members, member.1.WellFormed)
      (values : ∀ member ∈ members, Storable member.2) : Storable (.object members)

def tag : JsonValue → UInt8
  | .null => TAG_NULL
  | .boolean _ => TAG_BOOLEAN
  | .number _ => TAG_NUMBER
  | .string _ => TAG_STRING
  | .array _ => TAG_ARRAY
  | .object _ => TAG_OBJECT

/-- The bytes of a value that has some. -/
def bytes (value : JsonValue) : List UInt8 :=
  (pushJsonNode value).toOption.getD []

/-- The bytes of the member with a key. -/
def memberBytes (members : List (Utf16 × JsonValue)) (key : Utf16) : List UInt8 :=
  (members.lookup key).elim [] bytes

/-- A value is written, behind the tag of its kind. -/
def Written (value : JsonValue) : Prop :=
  ∃ body, pushJsonNode value = .ok (value.tag :: body)

variable {a b : JsonValue} {elements : List JsonValue} {members others : List (Utf16 × JsonValue)}
  {keys : List Utf16} {key : Utf16}

theorem bytes_of_ok {written : List UInt8} (isOk : pushJsonNode a = .ok written) :
    a.bytes = written := by
  rw [bytes, isOk]
  rfl

theorem Written.ok (written : Written a) : pushJsonNode a = .ok a.bytes := by
  obtain ⟨body, isOk⟩ := written
  rw [isOk, bytes_of_ok isOk]

theorem pushString_eq (tag : UInt8) {value : Utf16} (wellFormed : value.WellFormed)
    (describe : String) :
    pushString tag value describe = .ok (writeEscapedWithTerminator tag value.utf8) := by
  have paired := (findUnpairedSurrogateFrom_eq_none_iff 0 value).mpr wellFormed
  rw [pushString, assertNoUnpairedSurrogate, findUnpairedSurrogate, paired]
  rfl

theorem pushElements_eq (each : ∀ element ∈ elements, Written element) :
    pushElements elements = .ok (elements.flatMap bytes ++ [TERMINATOR]) := by
  induction elements with
  | nil => rfl
  | cons element elements ih =>
    obtain ⟨first, later⟩ := forall_mem_cons.mp each
    rw [pushElements, first.ok, ih later, flatMap_cons, append_assoc]
    rfl

theorem pushArray_eq (each : ∀ element ∈ elements, Written element) :
    pushJsonNode (.array elements) =
      .ok (TAG_ARRAY :: (elements.flatMap bytes ++ [TERMINATOR])) := by
  rw [pushJsonNode, pushElements_eq each]
  rfl

theorem pushKeys_eq (wellFormed : ∀ key ∈ keys, key.WellFormed) :
    pushKeys keys = .ok (keys.flatMap (fun key => writeEscapedWithTerminator KEY_MARKER key.utf8) ++
      [TERMINATOR]) := by
  induction keys with
  | nil => rfl
  | cons key keys ih =>
    obtain ⟨first, later⟩ := forall_mem_cons.mp wellFormed
    rw [pushKeys, pushString_eq _ first, ih later, flatMap_cons, append_assoc]
    rfl

theorem lookup_memberEncodings :
    (memberEncodings members).lookup key = (members.lookup key).map pushJsonNode := by
  induction members with
  | nil => rfl
  | cons member members ih =>
    rw [memberEncodings, lookup_cons, lookup_cons, ih]
    split <;> rfl

theorem lookup_memberComparisons :
    (memberComparisons members).lookup key = (members.lookup key).map deepCompareJson := by
  induction members with
  | nil => rfl
  | cons member members ih =>
    rw [memberComparisons, lookup_cons, lookup_cons, ih]
    split <;> rfl

theorem pushMembers_eq
    (each : ∀ key ∈ keys, ∃ value, members.lookup key = some value ∧ Written value) :
    pushMembers (memberEncodings members) keys = .ok (keys.flatMap (memberBytes members)) := by
  induction keys with
  | nil => rfl
  | cons key keys ih =>
    obtain ⟨⟨value, found, written⟩, later⟩ := forall_mem_cons.mp each
    rw [pushMembers, lookup_memberEncodings, ih later, flatMap_cons, memberBytes, found,
      Option.map_some, written.ok]
    rfl

theorem exists_member (listed : key ∈ sortedKeys members) :
    ∃ value, members.lookup key = some value ∧ (key, value) ∈ members := by
  have inside : key ∈ members.map Prod.fst := (mem_insertionSort _).mp listed
  cases found : members.lookup key with
  | none => exact absurd inside ((KeyedList.lookup_eq_none_iff _ key).mp found)
  | some value => exact ⟨value, rfl, KeyedList.mem_of_lookup found⟩

theorem pushObject_eq (wellFormed : ∀ member ∈ members, member.1.WellFormed)
    (each : ∀ member ∈ members, Written member.2) :
    pushJsonNode (.object members) = .ok (TAG_OBJECT ::
      (((sortedKeys members).flatMap fun key => writeEscapedWithTerminator KEY_MARKER key.utf8) ++
        [TERMINATOR] ++ (sortedKeys members).flatMap (memberBytes members))) := by
  rw [pushJsonNode, pushKeys_eq, pushMembers_eq]
  · rfl
  · intro key listed
    obtain ⟨value, found, member⟩ := exists_member listed
    exact ⟨value, found, each _ member⟩
  · intro key listed
    obtain ⟨value, -, member⟩ := exists_member listed
    exact wellFormed _ member

theorem Storable.written (storable : Storable a) : Written a := by
  induction storable with
  | null => exact ⟨_, rfl⟩
  | boolean value => exact ⟨_, rfl⟩
  | number finite => exact ⟨_, rfl⟩
  | string wellFormed => exact ⟨_, pushString_eq _ wellFormed _⟩
  | array each ih => exact ⟨_, pushArray_eq ih⟩
  | object wellFormed values ih => exact ⟨_, pushObject_eq wellFormed ih⟩

theorem decides_text (tag : UInt8) {a b : Utf16} (wellFormedA : a.WellFormed)
    (wellFormedB : b.WellFormed) :
    Decides (compareCodePoints a b) (writeEscapedWithTerminator tag a.utf8)
      (writeEscapedWithTerminator tag b.utf8) := by
  rw [compareCodePoints_eq wellFormedA wellFormedB, ← Utf16.compare_utf8 wellFormedA wellFormedB]
  exact decides_writeEscapedWithTerminator _ _ _

/-- Different kinds differ in their tags. -/
theorem decides_of_kinds (different : a.jsonTypeOrder ≠ b.jsonTypeOrder) (storableA : Storable a)
    (storableB : Storable b) : Decides (deepCompareJson a b) a.bytes b.bytes := by
  obtain ⟨bodyA, isA⟩ := storableA.written
  obtain ⟨bodyB, isB⟩ := storableB.written
  have ranks : deepCompareJson a b = compare a.tag b.tag ∧ compare a.tag b.tag ≠ .eq := by
    cases a <;> cases b <;> first | exact absurd rfl different | exact ⟨rfl, nofun⟩
  rw [bytes_of_ok isA, bytes_of_ok isB, ranks.1]
  exact decides_cons_of_ne ranks.2

theorem compareElements_eq (as bs : List JsonValue) :
    compareElements as bs = as.compareLex deepCompareJson bs := by
  induction as generalizing bs with
  | nil => cases bs <;> rfl
  | cons a as ih =>
    cases bs with
    | nil => rfl
    | cons b bs => rw [compareElements, ih, List.compareLex_cons_cons]

/-- Under the same keys the members decide one after the other. -/
theorem decides_memberBytes (each : ∀ key ∈ keys, ∃ value other, members.lookup key = some value ∧
      others.lookup key = some other ∧ Decides (deepCompareJson value other) value.bytes
        other.bytes) :
    Decides (compareMembers (memberComparisons members) others keys)
      (keys.flatMap (memberBytes members)) (keys.flatMap (memberBytes others)) := by
  induction keys with
  | nil => exact decides_nil
  | cons key keys ih =>
    obtain ⟨⟨value, other, found, foundOther, decides⟩, later⟩ := forall_mem_cons.mp each
    rw [compareMembers, lookup_memberComparisons, flatMap_cons, flatMap_cons, memberBytes,
      memberBytes,
      found, foundOther]
    exact decides.append (ih later)

theorem terminator_below (storable : Storable a) : Decides .lt [TERMINATOR] a.bytes := by
  obtain ⟨body, isOk⟩ := storable.written
  rw [bytes_of_ok isOk]
  exact decides_cons_of_lt (by cases a <;> rfl)

theorem decides_bytes (storableA : Storable a) (storableB : Storable b) :
    Decides (deepCompareJson a b) a.bytes b.bytes := by
  induction storableA generalizing b with
  | null =>
    cases b with
    | null => exact decides_eq_refl _
    | _ => exact decides_of_kinds nofun .null storableB
  | boolean value =>
    cases b with
    | boolean other =>
      cases value <;> cases other <;> exact decides_of_length_eq rfl
    | _ => exact decides_of_kinds nofun (.boolean value) storableB
  | number finite =>
    cases b with
    | number other =>
      cases storableB with | number otherFinite =>
      exact (decides_writeSortableDouble_number finite otherFinite).cons TAG_NUMBER
    | _ => exact decides_of_kinds nofun (.number finite) storableB
  | string wellFormed =>
    cases b with
    | string other =>
      cases storableB with | string otherFormed =>
      rw [bytes_of_ok (a := .string _) (pushString_eq _ wellFormed _),
        bytes_of_ok (a := .string _) (pushString_eq _ otherFormed _)]
      exact decides_text TAG_STRING wellFormed otherFormed
    | _ => exact decides_of_kinds nofun (.string wellFormed) storableB
  | array each ih =>
    cases b with
    | array others =>
      cases storableB with | array otherEach =>
      rw [bytes_of_ok (pushArray_eq fun _ member => (each _ member).written),
        bytes_of_ok (pushArray_eq fun _ member => (otherEach _ member).written), deepCompareJson,
        compareElements_eq]
      refine (decides_flatMap_terminated _ bytes TERMINATOR ?_ ?_).cons TAG_ARRAY
      · exact fun element member other otherMember =>
          ih element member (otherEach other otherMember)
      · exact fun element member => terminator_below
          ((mem_append.mp member).elim (each _) (otherEach _))
    | _ => exact decides_of_kinds nofun (.array each) storableB
  | object wellFormed values ih =>
    cases b with
    | object others =>
      cases storableB with | object otherFormed otherValues =>
      rw [bytes_of_ok (pushObject_eq wellFormed fun _ member => (values _ member).written),
        bytes_of_ok (pushObject_eq otherFormed fun _ member => (otherValues _ member).written)]
      refine Decides.cons TAG_OBJECT (Decides.append_of_eq ?_ fun same => ?_)
      · refine decides_flatMap_terminated _ _ TERMINATOR (fun key listed other otherListed => ?_) ?_
        · obtain ⟨value, -, member⟩ := exists_member listed
          obtain ⟨otherValue, -, otherMember⟩ := exists_member otherListed
          exact decides_text KEY_MARKER (wellFormed _ member) (otherFormed _ otherMember)
        · exact fun _ _ => decides_cons_of_lt rfl
      · rw [← Std.LawfulEqCmp.eq_of_compare same]
        refine decides_memberBytes fun key listed => ?_
        obtain ⟨value, found, member⟩ := exists_member listed
        obtain ⟨other, otherFound, otherMember⟩ :=
          exists_member (Std.LawfulEqCmp.eq_of_compare same ▸ listed)
        exact ⟨value, other, found, otherFound, ih _ member (otherValues _ otherMember)⟩
    | _ => exact decides_of_kinds nofun (.object wellFormed values) storableB

/-- The bytes of structural keys are in the order `deepCompareJson` puts the values in, and they
are the same exactly if it calls the values equal. -/
theorem jsonStructuralKey_order (storableA : Storable a) (storableB : Storable b) :
    ∃ keyA keyB, jsonStructuralKey a = .ok (.blob keyA) ∧ jsonStructuralKey b = .ok (.blob keyB) ∧
      compare keyA keyB = deepCompareJson a b ∧ (keyA = keyB ↔ deepCompareJson a b = .eq) := by
  have decides := decides_bytes storableA storableB
  refine ⟨a.bytes, b.bytes, ?_, ?_, decides.compare_eq, decides.eq_iff⟩
  · rw [jsonStructuralKey, storableA.written.ok]
    rfl
  · rw [jsonStructuralKey, storableB.written.ok]
    rfl

/-- `{"b": [], "a": null}` and `{"a": null, "b": [true]}`. -/
theorem jsonStructuralKey_order_nested :
    ∃ keyA keyB, jsonStructuralKey (.object [([98], .array []), ([97], .null)]) = .ok (.blob keyA) ∧
      jsonStructuralKey (.object [([97], .null), ([98], .array [.boolean true])]) =
        .ok (.blob keyB) ∧
      compare keyA keyB = .lt := by
  have first : Storable (.object [([98], .array []), ([97], .null)]) :=
    .object (by decide)
      (forall_mem_cons.mpr ⟨.array (forall_mem_nil _), forall_mem_singleton.mpr .null⟩)
  have second : Storable (.object [([97], .null), ([98], .array [.boolean true])]) :=
    .object (by decide) (forall_mem_cons.mpr
      ⟨.null, forall_mem_singleton.mpr (.array (forall_mem_singleton.mpr (.boolean true)))⟩)
  obtain ⟨keyA, keyB, isA, isB, order, -⟩ := jsonStructuralKey_order first second
  exact ⟨keyA, keyB, isA, isB, order.trans (by decide)⟩

end JsonValue

end Quereus.Store
