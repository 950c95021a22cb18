import Quereus.Lib.Comparator
import Quereus.Store.JsonKey

/-!
# Canonical JSON texts

`canonicalJsonString` of `json-canonical.ts` rebuilds a value with the keys of its objects sorted
and prints the result. The texts of two values should be the same exactly if `deepCompareJson`
calls the values equal. The rebuild loses what stands under the key `__proto__`.
-/

namespace Quereus.Store.JsonValue

open List KeyedList

section Rebuild

variable (number : Double → Double)
  (arrange : List (Utf16 × JsonValue) → List (Utf16 × JsonValue))

mutual

/-- The value with its numbers and the members of its objects replaced, innermost first. -/
def rebuild : JsonValue → JsonValue
  | .number value => .number (number value)
  | .array elements => .array (rebuildAll elements)
  | .object members => .object (arrange (rebuildMembers members))
  | value => value

def rebuildAll : List JsonValue → List JsonValue
  | [] => []
  | element :: elements => rebuild element :: rebuildAll elements

def rebuildMembers : List (Utf16 × JsonValue) → List (Utf16 × JsonValue)
  | [] => []
  | (key, value) :: members => (key, rebuild value) :: rebuildMembers members

end

end Rebuild

def protoKey : Utf16 := [95, 95, 112, 114, 111, 116, 111, 95, 95]

/-- The loop over the keys in code-unit order. An assignment to `__proto__` sets the prototype of
the new object and adds no member. -/
def assignSorted (members : List (Utf16 × JsonValue)) : List (Utf16 × JsonValue) :=
  (((members.map Prod.fst).insertionSort fun a b => compare a b ≠ .gt).filter
    (· ≠ protoKey)).filterMap fun key => (members.lookup key).map (key, ·)

def canonicalize : JsonValue → JsonValue :=
  rebuild id assignSorted

/-- `JSON.stringify` is a parameter. -/
def canonicalJsonString {Text : Type} (stringify : JsonValue → Text) (value : JsonValue) : Text :=
  stringify value.canonicalize

/-- What `JSON.stringify` shows of a value: it prints both zeros as `0`. -/
def printed : JsonValue → JsonValue :=
  rebuild (fun value => if value.units = 0 then .zero else value) id

/-- The value without the members named `__proto__`. -/
def ordinary : JsonValue → JsonValue :=
  rebuild id (filter fun member => member.1 ≠ protoKey)

/-- Numbers are finite, and the keys of an object differ. -/
inductive Plain : JsonValue → Prop
  | null : Plain .null
  | boolean (value : Bool) : Plain (.boolean value)
  | number {value : Double} (finite : value.isFinite) : Plain (.number value)
  | string (value : Utf16) : Plain (.string value)
  | array {elements : List JsonValue} (each : ∀ element ∈ elements, Plain element) :
      Plain (.array elements)
  | object {members : List (Utf16 × JsonValue)} (distinct : (members.map Prod.fst).Nodup)
      (values : ∀ member ∈ members, Plain member.2) : Plain (.object members)

variable {a b : JsonValue} {elements elements' : List JsonValue}
  {members others : List (Utf16 × JsonValue)} {keys : List Utf16} {key : Utf16}

theorem rebuildAll_eq (number arrange) :
    rebuildAll number arrange elements = elements.map (rebuild number arrange) := by
  induction elements with
  | nil => rfl
  | cons element elements ih => rw [rebuildAll, ih, map_cons]

theorem rebuildMembers_eq (number arrange) :
    rebuildMembers number arrange members =
      members.map fun member => (member.1, rebuild number arrange member.2) := by
  induction members with
  | nil => rfl
  | cons member members ih => rw [rebuildMembers, ih, map_cons]

theorem lookup_map (change : JsonValue → JsonValue) :
    (members.map fun member => (member.1, change member.2)).lookup key =
      (members.lookup key).map change := by
  induction members with
  | nil => rfl
  | cons member members ih =>
    rw [map_cons, lookup_cons, lookup_cons, ih]
    split <;> rfl

theorem lookup_collected (listed : (members.lookup key).isSome → key ∈ keys) :
    (keys.filterMap fun key => (members.lookup key).map (key, ·)).lookup key =
      members.lookup key := by
  induction keys with
  | nil => exact (Option.not_isSome_iff_eq_none.mp fun found => not_mem_nil (listed found)).symm
  | cons first keys ih =>
    rw [filterMap_cons]
    by_cases same : key = first
    · subst same
      cases found : members.lookup key with
      | none => simpa [found] using ih
      | some value => simp
    · have later := ih fun found => (mem_cons.mp (listed found)).resolve_left same
      cases members.lookup first with
      | none => exact later
      | some value => exact (lookup_cons_of_ne _ value same).trans later

theorem mem_keys_iff : key ∈ members.map Prod.fst ↔ (members.lookup key).isSome := by
  rw [← not_iff_not, ← KeyedList.lookup_eq_none_iff, Option.not_isSome_iff_eq_none]

theorem mem_sortedKeys : key ∈ sortedKeys members ↔ (members.lookup key).isSome :=
  (mem_insertionSort _).trans mem_keys_iff

/-- What stands in the text of a value. -/
def shown (value : JsonValue) : JsonValue :=
  value.canonicalize.printed

theorem shown_object (members : List (Utf16 × JsonValue)) :
    shown (.object members) = .object ((((members.map Prod.fst).insertionSort
      fun a b => compare a b ≠ .gt).filter (· ≠ protoKey)).filterMap fun key =>
        ((members.map fun member => (member.1, member.2.shown)).lookup key).map (key, ·)) := by
  rw [shown, canonicalize, printed, rebuild, rebuild, rebuildMembers_eq, rebuildMembers_eq,
    assignSorted, map_map, map_filterMap]
  simp only [lookup_map, Option.map_map]
  rfl

theorem compareMembers_eq_iff :
    compareMembers (memberComparisons members) others keys = .eq ↔
      ∀ key ∈ keys, ∀ value ∈ members.lookup key, ∀ other ∈ others.lookup key,
        deepCompareJson value other = .eq := by
  induction keys with
  | nil => simp [compareMembers]
  | cons key keys ih =>
    rw [compareMembers, Ordering.then_eq_eq, ih, forall_mem_cons, lookup_memberComparisons]
    refine and_congr_left fun _ => ?_
    cases members.lookup key <;> cases others.lookup key <;> simp

/-- The texts of two values are the same if the values compare equal, and exactly if they do
without the members named `__proto__`. -/
structure Settled (a b : JsonValue) : Prop where
  shown_eq_iff : a.shown = b.shown ↔ deepCompareJson a.ordinary b.ordinary = .eq
  shown_eq : deepCompareJson a b = .eq → a.shown = b.shown

theorem settled_of_kinds (different : a.jsonTypeOrder ≠ b.jsonTypeOrder) : Settled a b := by
  cases a <;> cases b <;> first | exact absurd rfl different | exact ⟨⟨nofun, nofun⟩, nofun⟩

theorem settled_of_leaf (whole : a.ordinary = a) (whole' : b.ordinary = b)
    (same : deepCompareJson a b = .eq ↔ a.shown = b.shown) : Settled a b :=
  ⟨by rw [whole, whole', same], same.mp⟩

section Objects

variable (distinct : (members.map Prod.fst).Nodup) (distinct' : (others.map Prod.fst).Nodup)
include distinct distinct'

/-- Objects with one text have the same shown members, `__proto__` apart. -/
theorem shown_object_eq_iff :
    shown (.object members) = shown (.object others) ↔
      ∀ key ≠ protoKey, (members.lookup key).map shown = (others.lookup key).map shown := by
  rw [shown_object, shown_object, object.injEq]
  constructor
  · intro same key ordinary
    have found := congrArg (lookup key) same
    rwa [lookup_collected, lookup_collected, lookup_map, lookup_map] at found
    all_goals
      rw [lookup_map, Option.isSome_map, mem_filter, mem_insertionSort, mem_keys_iff]
      exact fun found => ⟨found, decide_eq_true ordinary⟩
  · intro same
    rw [Comparator.filter_insertionSort_eq compare _ distinct distinct']
    · refine filterMap_congr fun key listed => ?_
      rw [lookup_map, lookup_map, same key (of_decide_eq_true (mem_filter.mp listed).2)]
    · intro key kept
      have found := congrArg Option.isSome (same key (of_decide_eq_true kept))
      rw [Option.isSome_map, Option.isSome_map] at found
      rw [mem_keys_iff, mem_keys_iff, found]

theorem deepCompareJson_object_iff :
    deepCompareJson (.object members) (.object others) = .eq ↔
      ∀ key, Option.Rel (deepCompareJson · · = .eq) (members.lookup key) (others.lookup key) := by
  rw [deepCompareJson, Ordering.then_eq_eq, Std.LawfulEqCmp.compare_eq_iff_eq,
    compareMembers_eq_iff]
  constructor
  · rintro ⟨same, each⟩ key
    have keys : (members.lookup key).isSome ↔ (others.lookup key).isSome := by
      rw [← mem_sortedKeys, same, mem_sortedKeys]
    have listed := fun found => each key (mem_sortedKeys.mpr found)
    cases found : members.lookup key <;> cases found' : others.lookup key <;>
      rw [found, found'] at keys
    · exact .none
    · cases keys.mpr rfl
    · cases keys.mp rfl
    · rw [found, found'] at listed
      exact .some (listed rfl _ rfl _ rfl)
  · intro related
    have same : sortedKeys members = sortedKeys others := by
      have sorted := Comparator.filter_insertionSort_eq compareCodePoints (fun _ => true) distinct
        distinct' fun key _ => by
          have related := related key
          rw [mem_keys_iff, mem_keys_iff]
          generalize members.lookup key = value, others.lookup key = other at related
          cases related <;> simp
      rwa [filter_true, filter_true] at sorted
    refine ⟨same, fun key _ value found other found' => ?_⟩
    have here := related key
    rw [found, found'] at here
    cases here with | some equal => exact equal

theorem settled_object
    (each : ∀ member ∈ members, ∀ other ∈ others, Settled member.2 other.2) :
    Settled (.object members) (.object others) := by
  have ordinary_object (members) : ordinary (.object members) = .object ((members.map fun member =>
      (member.1, member.2.ordinary)).filter fun member => member.1 ≠ protoKey) := by
    rw [ordinary, rebuild, rebuildMembers_eq]
  have kept {members : List (Utf16 × JsonValue)} (distinct : (members.map Prod.fst).Nodup) :
      (((members.map fun member => (member.1, member.2.ordinary)).filter
        fun member => member.1 ≠ protoKey).map Prod.fst).Nodup := by
    refine Nodup.sublist (filter_sublist.map _) ?_
    rwa [map_map]
  have apart (key) : ∀ value ∈ members.lookup key, ∀ other ∈ others.lookup key,
      Settled value other := fun value found other found' =>
    each _ (mem_of_lookup found) _ (mem_of_lookup found')
  constructor
  · rw [shown_object_eq_iff distinct distinct', ordinary_object, ordinary_object,
      deepCompareJson_object_iff (kept distinct) (kept distinct')]
    refine forall_congr' fun key => ?_
    have settled := apart key
    rw [lookup_filter _ (fun key => key ≠ protoKey),
      lookup_filter _ (fun key => key ≠ protoKey), lookup_map, lookup_map]
    generalize members.lookup key = value, others.lookup key = other at *
    by_cases proto : key = protoKey
    · simp [proto]
    · cases value <;> cases other <;> simp_all [Settled.shown_eq_iff]
  · rw [shown_object_eq_iff distinct distinct', deepCompareJson_object_iff distinct distinct']
    intro same key _
    have here := same key
    have settled := apart key
    generalize members.lookup key = value, others.lookup key = other at *
    cases here with
    | none => rfl
    | some equal => exact congrArg some ((settled _ rfl _ rfl).shown_eq equal)

end Objects

/-- Numbers compare equal if they are printed alike. -/
theorem compareNumbers_eq_eq_iff {first second : Double} (finite : first.isFinite)
    (finite' : second.isFinite) : compareNumbers (.number first) (.number second) = .eq ↔
      shown (.number first) = shown (.number second) := by
  have equal : compareNumbers (.number first) (.number second) = .eq ↔
      first.units = second.units := by
    simp only [compareNumbers, Numeric.lt, value?_number finite, value?_number finite',
      ExtendedValue.lt, decide_eq_true_eq]
    split
    · simp; omega
    · split <;> simp <;> omega
  have alike : shown (.number first) = shown (.number second) ↔
      (if first.units = 0 then Double.zero else first) =
        if second.units = 0 then Double.zero else second := by
    rw [← number.injEq]
    rfl
  have zero : Double.zero.units = 0 := rfl
  rw [equal, alike]
  constructor
  · intro same
    rw [same]
    split
    · rfl
    next nonzero => exact Double.eq_of_units_eq same (same ▸ nonzero)
  · intro same
    split at same <;> split at same <;> simp_all

theorem settled_array
    (each : ∀ element ∈ elements, ∀ element' ∈ elements', Settled element element') :
    Settled (.array elements) (.array elements') := by
  have shown_array (elements) : shown (.array elements) = .array (elements.map shown) := by
    rw [shown, canonicalize, printed, rebuild, rebuild, rebuildAll_eq, rebuildAll_eq, map_map]
    rfl
  have ordinary_array (elements) : ordinary (.array elements) = .array (elements.map ordinary) := by
    rw [ordinary, rebuild, rebuildAll_eq]
  suffices same : (elements.map shown = elements'.map shown ↔
      compareElements (elements.map ordinary) (elements'.map ordinary) = .eq) ∧
      (compareElements elements elements' = .eq → elements.map shown = elements'.map shown) by
    refine ⟨?_, ?_⟩
    · rw [shown_array, shown_array, ordinary_array, ordinary_array, array.injEq]
      exact same.1
    · rw [shown_array, shown_array, array.injEq]
      exact same.2
  induction elements generalizing elements' with
  | nil => cases elements' <;> simp [compareElements]
  | cons element elements ih =>
    cases elements' with
    | nil => simp [compareElements]
    | cons element' elements' =>
      obtain ⟨here, equal⟩ := each element mem_cons_self element' mem_cons_self
      obtain ⟨later, equals⟩ := ih fun _ member _ member' =>
        each _ (mem_cons_of_mem _ member) _ (mem_cons_of_mem _ member')
      simp only [map_cons, cons.injEq, compareElements, Ordering.then_eq_eq, here, later, true_and]
      exact fun same => ⟨here.mp (equal same.1), later.mp (equals same.2)⟩

theorem Plain.settled (plain : Plain a) (plain' : Plain b) : Settled a b := by
  induction plain generalizing b with
  | null =>
    cases b with
    | null => exact settled_of_leaf rfl rfl ⟨fun _ => rfl, fun _ => rfl⟩
    | _ => exact settled_of_kinds nofun
  | boolean value =>
    cases b with
    | boolean other =>
      refine settled_of_leaf rfl rfl ?_
      cases value <;> cases other <;> constructor <;> first | exact fun _ => rfl | exact nofun
    | _ => exact settled_of_kinds nofun
  | number finite =>
    cases plain' with
    | number finite' => exact settled_of_leaf rfl rfl (compareNumbers_eq_eq_iff finite finite')
    | _ => exact settled_of_kinds nofun
  | string value =>
    cases b with
    | string other =>
      exact settled_of_leaf rfl rfl
        (compareCodePoints_eq_eq_iff.trans (string.injEq ..).symm.to_iff)
    | _ => exact settled_of_kinds nofun
  | array each ih =>
    cases plain' with
    | array each' =>
      exact settled_array fun element member element' member' =>
        ih element member (each' element' member')
    | _ => exact settled_of_kinds nofun
  | object distinct values ih =>
    cases plain' with
    | object distinct' values' =>
      exact settled_object distinct distinct' fun member inside other inside' =>
        ih member inside (values' other inside')
    | _ => exact settled_of_kinds nofun

/-- The text decides equality of two values unless they differ in the members named `__proto__`
alone. -/
theorem canonicalJsonString_decides_iff {Text : Type} (stringify : JsonValue → Text)
    (prints : ∀ a b, Plain a → Plain b →
      (stringify a.canonicalize = stringify b.canonicalize ↔
        a.canonicalize.printed = b.canonicalize.printed))
    (plain : Plain a) (plain' : Plain b) :
    (canonicalJsonString stringify a = canonicalJsonString stringify b ↔
        deepCompareJson a b = .eq) ↔
      (deepCompareJson a.ordinary b.ordinary = .eq → deepCompareJson a b = .eq) := by
  obtain ⟨shown_eq_iff, shown_eq⟩ := plain.settled plain'
  rw [canonicalJsonString, canonicalJsonString, prints a b plain plain', ← shown_eq_iff]
  exact ⟨fun decides => decides.mp, fun only => ⟨only, shown_eq⟩⟩

/-- The character a text starts with. -/
def mark : JsonValue → UInt16
  | .null => 110
  | .boolean _ => 98
  | .number _ => 35
  | .string _ => 34
  | .array _ => 91
  | .object _ => 123

/-- Each unit after a backslash, and a quote. -/
def escape (text : Utf16) : Utf16 :=
  text.flatMap (fun unit => [92, unit]) ++ [34]

mutual

/-- The rest of the text: a number is printed by its bits. -/
def body : JsonValue → Utf16
  | .null => []
  | .boolean value => [if value then 49 else 48]
  | .number value => (range 64).map fun index => if value.bits.getLsbD index then 49 else 48
  | .string value => escape value
  | .array elements => bodyAll elements
  | .object members => bodyMembers members

def bodyAll : List JsonValue → Utf16
  | [] => [93]
  | element :: elements => mark element :: (body element ++ bodyAll elements)

def bodyMembers : List (Utf16 × JsonValue) → Utf16
  | [] => [125]
  | (key, value) :: members =>
    34 :: (escape key ++ mark value :: (body value ++ bodyMembers members))

end

/-- A text like that of `JSON.stringify`. -/
def print (value : JsonValue) : Utf16 :=
  value.printed.mark :: value.printed.body

theorem escape_append_inj {first second rest rest' : Utf16}
    (same : escape first ++ rest = escape second ++ rest') : first = second ∧ rest = rest' := by
  simp only [escape, append_assoc, cons_append, nil_append] at same
  induction first generalizing second with
  | nil => cases second <;> simp_all
  | cons unit first ih =>
    cases second with
    | nil => simp at same
    | cons other second =>
      simp only [flatMap_cons, cons_append, nil_append, cons.injEq, true_and] at same
      obtain ⟨rfl, later⟩ := same
      simpa using ih later

mutual

/-- A value can be read back from its text, whatever follows. -/
theorem body_append_inj : ∀ (a b : JsonValue) {rest rest' : Utf16}, a.mark = b.mark →
    a.body ++ rest = b.body ++ rest' → a = b ∧ rest = rest'
  | a, b, rest, rest', marks, same => by
    cases a <;> cases b <;> try (simp [mark] at marks; done)
    all_goals simp only [body, nil_append, cons_append, cons.injEq] at same
    case null => exact ⟨rfl, same⟩
    case boolean value other =>
      exact ⟨congrArg _ (by cases value <;> cases other <;> simp_all), same.2⟩
    case number value other =>
      obtain ⟨digits, rest⟩ := append_inj same (by simp)
      refine ⟨congrArg _ (Double.eq_of_toNat_bits (congrArg _ (BitVec.eq_of_getLsbD_eq ?_))), rest⟩
      intro index inside
      have digit := map_inj_left.mp digits index (mem_range.mpr inside)
      revert digit
      cases value.bits.getLsbD index <;> cases other.bits.getLsbD index <;> simp
    case string value other =>
      obtain ⟨rfl, rest⟩ := escape_append_inj same
      exact ⟨rfl, rest⟩
    case array elements others =>
      obtain ⟨rfl, rest⟩ := bodyAll_append_inj elements others same
      exact ⟨rfl, rest⟩
    case object members others =>
      obtain ⟨rfl, rest⟩ := bodyMembers_append_inj members others same
      exact ⟨rfl, rest⟩

theorem bodyAll_append_inj : ∀ (first second : List JsonValue) {rest rest' : Utf16},
    bodyAll first ++ rest = bodyAll second ++ rest' → first = second ∧ rest = rest'
  | [], [], _, _, same => ⟨rfl, (cons.inj same).2⟩
  | [], other :: _, _, _, same => by cases other <;> simp [bodyAll, mark] at same
  | element :: _, [], _, _, same => by cases element <;> simp [bodyAll, mark] at same
  | element :: elements, other :: others, _, _, same => by
    simp only [bodyAll, cons_append, append_assoc, cons.injEq] at same
    obtain ⟨rfl, later⟩ := body_append_inj element other same.1 same.2
    obtain ⟨rfl, rest⟩ := bodyAll_append_inj elements others later
    exact ⟨rfl, rest⟩

theorem bodyMembers_append_inj : ∀ (first second : List (Utf16 × JsonValue)) {rest rest' : Utf16},
    bodyMembers first ++ rest = bodyMembers second ++ rest' → first = second ∧ rest = rest'
  | [], [], _, _, same => ⟨rfl, (cons.inj same).2⟩
  | [], _ :: _, _, _, same => by simp [bodyMembers] at same
  | _ :: _, [], _, _, same => by simp [bodyMembers] at same
  | (_, value) :: members, (_, other) :: others, _, _, same => by
    simp only [bodyMembers, cons_append, append_assoc, cons.injEq, true_and] at same
    obtain ⟨rfl, values⟩ := escape_append_inj same
    obtain ⟨rfl, later⟩ := body_append_inj value other (cons.inj values).1 (cons.inj values).2
    obtain ⟨rfl, rest⟩ := bodyMembers_append_inj members others later
    exact ⟨rfl, rest⟩

end

/-- Values have one text exactly if they look alike in print. -/
theorem print_eq_iff : a.print = b.print ↔ a.printed = b.printed := by
  refine ⟨fun same => ?_, fun same => by rw [print, print, same]⟩
  obtain ⟨marks, bodies⟩ := cons.inj same
  have bodies : a.printed.body ++ [] = b.printed.body ++ [] := by rw [bodies]
  exact (body_append_inj _ _ marks bodies).1

/-- `{"b": 0, "a": null}` and `{"a": null, "b": -0}` have one text. -/
theorem canonicalJsonString_decides_iff_zeros :
    canonicalJsonString print (.object [([98], .number .zero), ([97], .null)]) =
      canonicalJsonString print (.object [([97], .null), ([98], .number .negativeZero)]) := by
  have first : Plain (.object [([98], .number .zero), ([97], .null)]) :=
    .object (by decide) (forall_mem_cons.mpr ⟨.number rfl, forall_mem_singleton.mpr .null⟩)
  have second : Plain (.object [([97], .null), ([98], .number .negativeZero)]) :=
    .object (by decide) (forall_mem_cons.mpr ⟨.null, forall_mem_singleton.mpr (.number rfl)⟩)
  refine ((canonicalJsonString_decides_iff print (fun _ _ _ _ => print_eq_iff) first second).mpr
    fun _ => ?_).mpr ?_ <;> decide

/-- `{"__proto__": null}` and `{}` have one text and differ. -/
theorem canonicalJsonString_proto :
    deepCompareJson (.object [(protoKey, .null)]) (.object []) ≠ .eq ∧
      ∀ (Text : Type) (stringify : JsonValue → Text),
        canonicalJsonString stringify (.object [(protoKey, .null)]) =
          canonicalJsonString stringify (.object []) :=
  ⟨by decide, fun _ stringify => congrArg stringify rfl⟩

end Quereus.Store.JsonValue
