import Quereus.Memory.IndexContents
import Quereus.Memory.Scan

/-! # The window of a plan

A prefix of equal values and a range in the next column cut a window out of a tree.
What the plan admits is a window in SQL's sense, where NULL compares to nothing.
The walk finds exactly the window: the start key lies before all of it, although it
may be shorter than the keys, and past the terminating bound nothing of it is left.
-/

namespace Quereus.Memory

open List Comparator IndexConstraintOp Option TableSchema OrderedWalk

/-- The comparator of a key column, its direction left out. -/
def TableSchema.columnComparator (schema : TableSchema) (column : KeyColumn) :
    Cell → Cell → Ordering :=
  createTypedComparator (schema.typeAt column.index) (column.collation.map schema.collationResolver)

instance (schema : TableSchema) (column : KeyColumn) :
    Std.TransCmp (schema.columnComparator column) :=
  inferInstanceAs (Std.TransCmp (createTypedComparator _ _))

/-- An SQL comparison, which is not true of NULL. -/
def IndexConstraintOp.holds (op : IndexConstraintOp) (cmp : Cell → Cell → Ordering)
    (part value : Cell) : Bool :=
  !part.isNull && !value.isNull &&
    match op with
    | .eq => cmp part value == .eq
    | .gt => cmp part value == .gt
    | .ge => (cmp part value).isGE
    | .lt => cmp part value == .lt
    | .le => (cmp part value).isLE

def ScanPlanRange.holds (range : ScanPlanRange) (cmp : Cell → Cell → Ordering)
    (part : Cell) : Bool :=
  (range.lowerBound.all fun bound => bound.op.holds cmp part bound.value) &&
    range.upperBound.all fun bound => bound.op.holds cmp part bound.value

/-- Lower bounds are `>` or `>=` and upper bounds are `<` or `<=`. -/
structure ScanPlanRange.Proper (range : ScanPlanRange) : Prop where
  lower : ∀ bound ∈ range.lowerBound, bound.op = .gt ∨ bound.op = .ge
  upper : ∀ bound ∈ range.upperBound, bound.op = .lt ∨ bound.op = .le

namespace TableSchema

variable (schema : TableSchema)

/-- Whether the leading parts of a key equal some values. -/
def partsEqual : List KeyColumn → Key → List Cell → Bool
  | _, _, [] => true
  | column :: columns, part :: parts, value :: values =>
    IndexConstraintOp.eq.holds (schema.columnComparator column) part value &&
      partsEqual columns parts values
  | _, _, _ :: _ => false

/-- Whether a key begins with some values and its next part is in a range. -/
def inWindow (columns : List KeyColumn) (values : List Cell) (range : ScanPlanRange) (key : Key) :
    Bool :=
  schema.partsEqual columns key values &&
    match columns[values.length]?, key[values.length]? with
    | some column, some part => range.holds (schema.columnComparator column) part
    | _, _ => true

end TableSchema

variable {schema : TableSchema} {columns : List KeyColumn}

section Congr

variable {first second : Key}

variable {column : KeyColumn} {firstPart secondPart : Cell}

theorem IndexConstraintOp.holds_congr (op : IndexConstraintOp)
    (same : schema.columnComparator column firstPart secondPart = .eq) (value : Cell) :
    op.holds (schema.columnComparator column) firstPart value =
      op.holds (schema.columnComparator column) secondPart value := by
  unfold holds
  rw [isNull_eq_of_typed same, Std.TransCmp.congr_left same]

theorem ScanPlanRange.holds_congr (range : ScanPlanRange)
    (same : schema.columnComparator column firstPart secondPart = .eq) :
    range.holds (schema.columnComparator column) firstPart =
      range.holds (schema.columnComparator column) secondPart := by
  unfold holds
  simp only [IndexConstraintOp.holds_congr _ same]

variable (same : schema.compareKeyTuples columns first second = .eq)

include same

variable (long : columns.length ≤ second.length)

include long

/-- Keys that compare equal are equally long and equal in every part. -/
theorem parts_of_compare_eq :
    columns.length ≤ first.length ∧ ∀ (position : Nat) (column : KeyColumn)
      (firstPart secondPart : Cell),
      columns[position]? = some column → first[position]? = some firstPart →
      second[position]? = some secondPart →
        schema.columnComparator column firstPart secondPart = .eq := by
  induction columns generalizing first second with
  | nil => exact ⟨Nat.zero_le _, nofun⟩
  | cons column columns ih =>
    cases second with
    | nil => exact absurd long (Nat.not_succ_le_zero _)
    | cons secondPart seconds =>
      cases first with
      | nil => cases same
      | cons firstPart firsts =>
        obtain ⟨here, rest⟩ := Ordering.then_eq_eq.mp same
        obtain ⟨firsts_long, parts⟩ := ih rest (Nat.le_of_succ_le_succ long)
        refine ⟨Nat.succ_le_succ firsts_long, fun position => ?_⟩
        cases position with
        | zero =>
          rintro _ _ _ ⟨⟩ ⟨⟩ ⟨⟩
          exact directed_eq_eq.mp here
        | succ position => exact parts position

theorem partsEqual_congr (values : List Cell) :
    schema.partsEqual columns first values = schema.partsEqual columns second values := by
  induction values generalizing columns first second with
  | nil => simp only [partsEqual]
  | cons value values ih =>
    cases columns with
    | nil => simp only [partsEqual]
    | cons column columns =>
      cases second with
      | nil => exact absurd long (Nat.not_succ_le_zero _)
      | cons secondPart seconds =>
        cases first with
        | nil => cases same
        | cons firstPart firsts =>
          obtain ⟨here, rest⟩ := Ordering.then_eq_eq.mp same
          simp only [partsEqual, ih rest (Nat.le_of_succ_le_succ long),
            holds_congr _ (directed_eq_eq.mp here)]

theorem inWindow_congr (values : List Cell) (range : ScanPlanRange) :
    schema.inWindow columns values range first = schema.inWindow columns values range second := by
  obtain ⟨first_long, parts⟩ := parts_of_compare_eq same long
  unfold inWindow
  rw [partsEqual_congr same long]
  congr 1
  cases found : columns[values.length]? with
  | none => simp only
  | some column =>
    obtain ⟨inside, -⟩ := List.getElem?_eq_some_iff.mp found
    have first_part := getElem?_eq_getElem (inside.trans_le first_long)
    have second_part := getElem?_eq_getElem (inside.trans_le long)
    simp only [first_part, second_part]
    exact range.holds_congr (parts _ _ _ _ found first_part second_part)

omit long

end Congr

/-- A plan whose comparators are those of the columns of the tree it walks, and whose
bounds are on a column of the tree. -/
structure ScanPlan.Fits (plan : ScanPlan) (schema : TableSchema) (columns : List KeyColumn)
    (comparators : ResolvedScanComparators) : Prop where
  equalityKey : plan.equalityKey = none
  ascending : plan.descending = false
  prefix_le : (plan.equalityPrefix.getD []).length ≤ columns.length
  prefix_eq : comparators.equalityPrefix =
    (columns.take (plan.equalityPrefix.getD []).length).map schema.columnComparator
  bound_eq : ∀ column, columns[(plan.equalityPrefix.getD []).length]? = some column →
    comparators.bound = schema.columnComparator column
  bounded : plan.lowerBound.isSome = true ∨ plan.upperBound.isSome = true →
    (plan.equalityPrefix.getD []).length < columns.length

namespace ScanPlan

variable {plan : ScanPlan} {comparators : ResolvedScanComparators}

/-- A prefix of the whole key leaves no column for a bound. -/
theorem Fits.unbounded (fits : plan.Fits schema columns comparators)
    (whole : ¬ (plan.equalityPrefix.getD []).length < columns.length) :
    plan.lowerBound = none ∧ plan.upperBound = none := by
  have free := mt fits.bounded whole
  simpa using free

theorem prefixAgrees_iff_tuple {values : List Cell} (short : values.length ≤ columns.length)
    (key : Key) :
    prefixAgrees ((columns.take values.length).map schema.columnComparator) key values = true ↔
      schema.compareKeyTuples (columns.take values.length) key values = .eq := by
  induction values generalizing columns key with
  | nil => simp [prefixAgrees, compareKeyTuples, tuple]
  | cons value values ih =>
    cases columns with
    | nil => exact absurd short (Nat.not_succ_le_zero _)
    | cons column columns =>
      cases key with
      | nil => simp [prefixAgrees, compareKeyTuples, tuple]
      | cons part parts =>
        have rest := ih (Nat.le_of_succ_le_succ short) parts
        simp only [length_cons, take_succ_cons, map_cons, prefixAgrees,
          Bool.and_eq_true, beq_iff_eq, compareKeyTuples, tuple,
          Ordering.then_eq_eq, rest]
        exact and_congr_left fun _ => directed_eq_eq.symm

theorem partsEqual_eq (schema : TableSchema) {values : List Cell}
    (short : values.length ≤ columns.length) (key : Key) :
    schema.partsEqual columns key values = (!values.any (·.isNull) &&
      prefixAgrees ((columns.take values.length).map schema.columnComparator) key values) := by
  induction values generalizing columns key with
  | nil => simp [partsEqual, prefixAgrees]
  | cons value values ih =>
    cases columns with
    | nil => exact absurd short (Nat.not_succ_le_zero _)
    | cons column columns =>
      cases key with
      | nil => simp [partsEqual, prefixAgrees]
      | cons part parts =>
        have rest := ih (Nat.le_of_succ_le_succ short) parts
        -- A part that equals a value is NULL only if the value is.
        have nulls : schema.columnComparator column part value = .eq → part.isNull = value.isNull :=
          isNull_eq_of_typed
        simp only [partsEqual, rest, length_cons, take_succ_cons,
          map_cons, prefixAgrees, holds, any_cons]
        by_cases same : schema.columnComparator column part value = .eq
        · rw [nulls same]
          cases value.isNull <;> simp [same]
        · rw [beq_eq_false_iff_ne.mpr same]
          simp

/-- A bound admits, from its own side, the values on which its comparison holds. -/
theorem all_admits {bound : Option ScanPlanRangeBound} {admits : Cell → ScanPlanRangeBound → Bool}
    (proper : ∀ stored, bound = some stored → admits = lowerAdmits comparators ∧
      (stored.op = .gt ∨ stored.op = .ge) ∨
      admits = upperAdmits comparators ∧ (stored.op = .lt ∨ stored.op = .le))
    (value : bound.any (·.value.isNull) = false) {part : Cell} (part_value : part.isNull = false) :
    bound.all (admits part) = bound.all fun bound =>
      bound.op.holds comparators.bound part bound.value := by
  cases bound with
  | none => rfl
  | some bound =>
    rw [any_some] at value
    obtain ⟨rfl, op | op⟩ | ⟨rfl, op | op⟩ := proper bound rfl <;>
      · simp only [all_some, lowerAdmits, upperAdmits, holds, op, part_value, value]
        cases comparators.bound part bound.value <;> rfl

variable (proper : ScanPlanRange.Proper ⟨plan.lowerBound, plan.upperBound⟩)

include proper in
/-- The bounds of a plan admit what is in their range. -/
theorem boundsAdmit_eq (lower_value : plan.lowerBound.any (·.value.isNull) = false)
    (upper_value : plan.upperBound.any (·.value.isNull) = false) (part : Cell) :
    plan.boundsAdmit comparators (some part) =
      ScanPlanRange.holds ⟨plan.lowerBound, plan.upperBound⟩ comparators.bound part := by
  simp only [boundsAdmit, ScanPlanRange.holds]
  cases null : part.isNull with
  | true =>
    cases plan.lowerBound <;> cases plan.upperBound <;>
      simp [holds, null]
  | false =>
    simp [all_admits (fun stored isStored => .inl ⟨rfl, proper.lower stored isStored⟩) lower_value
      null, all_admits (fun stored isStored => .inr ⟨rfl, proper.upper stored isStored⟩)
      upper_value null]

/-- A NULL bound admits nothing. -/
theorem holds_of_null_bound {lowerBound upperBound : Option ScanPlanRangeBound}
    (cmp : Cell → Cell → Ordering) (part : Cell)
    (null : (lowerBound.any (·.value.isNull) || upperBound.any (·.value.isNull)) = true) :
    ScanPlanRange.holds ⟨lowerBound, upperBound⟩ cmp part = false := by
  cases lowerBound <;> cases upperBound <;>
    simp_all [ScanPlanRange.holds, holds]
  obtain null | null := null <;> simp [null]

/-- A plan admits the keys in its window. -/
theorem planAppliesToKey_eq_inWindow (fits : plan.Fits schema columns comparators)
    (proper : ScanPlanRange.Proper ⟨plan.lowerBound, plan.upperBound⟩) {key : Key}
    (long : columns.length ≤ key.length) (compareKeys : Key → Key → Ordering) :
    plan.planAppliesToKey comparators key compareKeys =
      schema.inWindow columns (plan.equalityPrefix.getD [])
        ⟨plan.lowerBound, plan.upperBound⟩ key := by
  have equal := partsEqual_eq schema fits.prefix_le key
  simp only [planAppliesToKey, fits.equalityKey, inWindow, equal, fits.prefix_eq]
  cases null : (plan.lowerBound.any (·.value.isNull) || plan.upperBound.any (·.value.isNull)) with
  | true =>
    have bounded : plan.lowerBound.isSome = true ∨ plan.upperBound.isSome = true := by
      cases lower : plan.lowerBound <;> cases upper : plan.upperBound <;> simp_all
    have inside := fits.bounded bounded
    rw [getElem?_eq_getElem inside, getElem?_eq_getElem (inside.trans_le long)]
    simp only [↓reduceIte, holds_of_null_bound _ _ null, Bool.and_false]
  | false =>
    obtain ⟨lower_value, upper_value⟩ := Bool.or_eq_false_iff.mp null
    cases (plan.equalityPrefix.getD []).any (·.isNull) with
    | true => simp
    | false =>
      simp only [Bool.false_eq_true, ↓reduceIte, Bool.not_false, Bool.true_and]
      congr 1
      by_cases inside : (plan.equalityPrefix.getD []).length < columns.length
      · rw [getElem?_eq_getElem inside, getElem?_eq_getElem (inside.trans_le long)]
        rw [boundsAdmit_eq proper lower_value upper_value,
          fits.bound_eq _ (getElem?_eq_getElem inside)]
      · rw [getElem?_eq_none (Nat.le_of_not_lt inside)]
        obtain ⟨lower, upper⟩ := fits.unbounded inside
        cases key[(plan.equalityPrefix.getD []).length]? <;> simp [boundsAdmit, lower, upper]

theorem isLE_take {first second : Key} (below : (schema.compareKeyTuples columns first second).isLE)
    (count : Nat) : (schema.compareKeyTuples (columns.take count) first second).isLE := by
  simp only [compareKeyTuples, map_take] at below ⊢
  exact isLE_tuple_take below count

/-- Two parts of one column, in the order of the tree. -/
theorem isLE_part {position : Nat} {column : KeyColumn} (found : columns[position]? = some column)
    {first second : Key} {firstPart secondPart : Cell}
    (first_part : first[position]? = some firstPart)
    (second_part : second[position]? = some secondPart)
    (below : (schema.compareKeyTuples columns first second).isLE)
    (same : schema.compareKeyTuples (columns.take position) first second = .eq) :
    (schema.compareColumn column firstPart secondPart).isLE := by
  obtain ⟨first_lt, first_eq⟩ := List.getElem?_eq_some_iff.mp first_part
  obtain ⟨second_lt, second_eq⟩ := List.getElem?_eq_some_iff.mp second_part
  obtain ⟨column_lt, column_eq⟩ := List.getElem?_eq_some_iff.mp found
  simp only [compareKeyTuples, map_take] at below same
  rw [tuple_drop same first_lt.le second_lt.le, drop_eq_getElem_cons first_lt,
    drop_eq_getElem_cons second_lt,
    drop_eq_getElem_cons (by rwa [length_map]), getElem_map, tuple,
    Ordering.isLE_then_iff_or, first_eq, second_eq, column_eq] at below
  obtain less | ⟨equal, -⟩ := below
  · rw [less]; rfl
  · rw [equal]; rfl

theorem upperAdmits_of_isLE [Std.TransCmp comparators.bound] {first second : Cell}
    (below : (comparators.bound first second).isLE)
    (admitted : upperAdmits comparators second bound = true) :
    upperAdmits comparators first bound = true := by
  have strict := @Std.TransCmp.lt_of_isLE_of_lt _ comparators.bound _ first second bound.value below
  have weak := @Std.TransCmp.isLE_trans _ comparators.bound _ first second bound.value below
  unfold upperAdmits at admitted ⊢
  revert strict weak admitted
  cases comparators.bound first bound.value <;> cases comparators.bound second bound.value <;> simp

theorem lowerAdmits_of_isGE [Std.TransCmp comparators.bound] {first second : Cell}
    (above : (comparators.bound second first).isLE)
    (admitted : lowerAdmits comparators second bound = true) :
    lowerAdmits comparators first bound = true := by
  have strict := @Std.TransCmp.lt_of_isLE_of_lt _ comparators.bound _ second first bound.value above
  have weak := @Std.TransCmp.isLE_trans _ comparators.bound _ second first bound.value above
  unfold lowerAdmits at admitted ⊢
  revert strict weak admitted
  cases comparators.bound first bound.value <;> cases comparators.bound second bound.value <;> simp

section Walk

variable (fits : plan.Fits schema columns comparators)

/-- The direction of the column the bounds are on. -/
def boundDescends (plan : ScanPlan) (columns : List KeyColumn) : Bool :=
  (columns[(plan.equalityPrefix.getD []).length]?.map KeyColumn.desc).getD false

/-- The parts of the key a walk starts from. -/
def startParts (plan : ScanPlan) (columns : List KeyColumn) : Key :=
  plan.equalityPrefix.getD [] ++
    ((if plan.boundDescends columns then plan.upperBound else plan.lowerBound).map
      ScanPlanRangeBound.value).toList

include fits

variable {compareKeys : Key → Key → Ordering}

variable {key first second : Key} {ε : Type} {keyFromEntry : ε → Key} {tree : List ε}

/-- What a plan says of the keys it admits. -/
theorem admitted_of_applies (applies : plan.planAppliesToKey comparators key compareKeys = true) :
    schema.compareKeyTuples (columns.take (plan.equalityPrefix.getD []).length) key
        (plan.equalityPrefix.getD []) = .eq ∧
      ∀ part, key[(plan.equalityPrefix.getD []).length]? = some part →
        plan.lowerBound.all (lowerAdmits comparators part) = true ∧
          plan.upperBound.all (upperAdmits comparators part) = true := by
  simp only [planAppliesToKey, fits.equalityKey] at applies
  split at applies
  · cases applies
  · split at applies
    · cases applies
    · obtain ⟨agrees, bounds⟩ := Bool.and_eq_true_iff.mp applies
      rw [fits.prefix_eq] at agrees
      refine ⟨(prefixAgrees_iff_tuple fits.prefix_le key).mp agrees, fun part found => ?_⟩
      rw [found, boundsAdmit] at bounds
      split at bounds
      · cases lower : plan.lowerBound <;> cases upper : plan.upperBound <;> simp_all
      · exact Bool.and_eq_true_iff.mp bounds

/-- A part the bounds admit does not come before the bound a walk starts from. -/
theorem compareColumn_ne_lt {column : KeyColumn}
    (found : columns[(plan.equalityPrefix.getD []).length]? = some column) {part : Cell}
    (lower : plan.lowerBound.all (lowerAdmits comparators part) = true)
    (upper : plan.upperBound.all (upperAdmits comparators part) = true) {bound : ScanPlanRangeBound}
    (chosen : (if plan.boundDescends columns then plan.upperBound else plan.lowerBound) =
      some bound) :
    schema.compareColumn column part bound.value ≠ .lt := by
  simp only [boundDescends, found, map_some, getD_some] at chosen
  have comparator := fits.bound_eq column found
  change directed column.desc (schema.columnComparator column) part bound.value ≠ .lt
  rw [← comparator]
  cases descends : column.desc with
  | true =>
    simp only [descends, ↓reduceIte] at chosen
    rw [chosen, all_some, upperAdmits] at upper
    intro less
    rw [Ordering.swap_eq_lt.mp less] at upper
    cases upper
  | false =>
    simp only [descends, Bool.false_eq_true, ↓reduceIte] at chosen
    rw [chosen, all_some, lowerAdmits] at lower
    simp only [directed, Bool.false_eq_true, ↓reduceIte]
    intro less
    rw [less] at lower
    cases lower

/-- An admitted key does not come before the start. -/
theorem ne_lt_of_applies (long : columns.length ≤ key.length)
    (applies : plan.planAppliesToKey comparators key compareKeys = true) :
    schema.compareKeyTuples columns key (plan.startParts columns) ≠ .lt := by
  obtain ⟨agrees, admitted⟩ := admitted_of_applies fits applies
  simp only [compareKeyTuples, map_take] at agrees ⊢
  rw [startParts]
  generalize chosen : (if plan.boundDescends columns then plan.upperBound else plan.lowerBound) =
    seekBound
  have same := (tuple_take_append _ key _
    (seekBound.map ScanPlanRangeBound.value).toList).trans agrees
  rw [tuple_drop same (fits.prefix_le.trans long) (by simp), drop_left]
  cases seekBound with
  | none => exact tuple_nil_right_ne_lt _ _
  | some bound =>
    have bounded : plan.lowerBound.isSome = true ∨ plan.upperBound.isSome = true := by
      split at chosen
      · exact .inr (chosen ▸ rfl)
      · exact .inl (chosen ▸ rfl)
    have inside := fits.bounded bounded
    obtain ⟨lower, upper⟩ := admitted _ (getElem?_eq_getElem (inside.trans_le long))
    have part := compareColumn_ne_lt fits (getElem?_eq_getElem inside) lower upper chosen
    rw [drop_eq_getElem_cons (by rwa [length_map]),
      drop_eq_getElem_cons (inside.trans_le long), getElem_map, map_some,
      toList_some]
    intro less
    obtain less | ⟨-, less⟩ := Ordering.then_eq_lt.mp less
    · exact part less
    · exact tuple_nil_right_ne_lt _ _ less

/-- Between the start and an admitted key the prefix agrees. -/
theorem agrees_between
    (after : schema.compareKeyTuples columns first (plan.startParts columns) ≠ .lt)
    (below : schema.compareKeyTuples columns first second = .lt)
    (applies : plan.planAppliesToKey comparators second compareKeys = true) :
    schema.compareKeyTuples (columns.take (plan.equalityPrefix.getD []).length) first
      (plan.equalityPrefix.getD []) = .eq := by
  obtain ⟨agrees, -⟩ := admitted_of_applies fits applies
  have lower : (schema.compareKeyTuples (columns.take (plan.equalityPrefix.getD []).length)
      (plan.equalityPrefix.getD []) first).isLE := by
    have start := isLE_take (Std.OrientedCmp.isGE_iff_isLE.mp (Ordering.ne_lt_iff_isGE.mp after))
      (plan.equalityPrefix.getD []).length
    rw [← Std.OrientedCmp.isGE_iff_isLE] at start ⊢
    simp only [compareKeyTuples, map_take] at start ⊢
    rwa [startParts, tuple_take_append] at start
  have upper : (schema.compareKeyTuples (columns.take (plan.equalityPrefix.getD []).length)
      first (plan.equalityPrefix.getD [])).isLE := by
    rw [← Std.TransCmp.congr_right agrees]
    exact isLE_take (Ordering.isLE_of_eq_lt below) _
  exact Std.OrientedCmp.isLE_antisymm upper lower

/-- Past the terminating bound nothing is admitted. -/
theorem exhausted_of_applies (first_long : columns.length ≤ first.length)
    (second_long : columns.length ≤ second.length)
    (after : schema.compareKeyTuples columns first (plan.startParts columns) ≠ .lt)
    (below : schema.compareKeyTuples columns first second = .lt)
    (applies : plan.planAppliesToKey comparators second compareKeys = true) :
    plan.walkIsExhausted comparators first (plan.boundDescends columns) = false := by
  have agrees := agrees_between fits after below applies
  obtain ⟨second_agrees, admitted⟩ := admitted_of_applies fits applies
  have prefix_agrees := (prefixAgrees_iff_tuple fits.prefix_le first).mpr agrees
  rw [← fits.prefix_eq] at prefix_agrees
  simp only [walkIsExhausted, prefix_agrees, Bool.not_true, Bool.false_or]
  by_cases inside : (plan.equalityPrefix.getD []).length < columns.length
  · have column := getElem?_eq_getElem inside
    have first_part := getElem?_eq_getElem (inside.trans_le first_long)
    have second_part := getElem?_eq_getElem (inside.trans_le second_long)
    obtain ⟨lower, upper⟩ := admitted _ second_part
    have parts := isLE_part column first_part second_part (Ordering.isLE_of_eq_lt below)
      (Std.TransCmp.eq_trans agrees (Std.OrientedCmp.eq_symm second_agrees))
    have comparator := fits.bound_eq _ column
    have lawful : Std.TransCmp comparators.bound := comparator ▸ inferInstance
    rw [first_part]
    simp only [pastTerminatingBound, boundDescends, column, map_some, getD_some]
    change (directed _ (schema.columnComparator _) _ _).isLE at parts
    rw [← comparator] at parts
    cases descends : columns[(plan.equalityPrefix.getD []).length].desc with
    | true =>
      simp only [descends, directed, ↓reduceIte, Ordering.isLE_swap] at parts
      have above := Std.OrientedCmp.isGE_iff_isLE.mp parts
      cases stored : plan.lowerBound with
      | none => rfl
      | some bound =>
        rw [stored, all_some] at lower
        simp [lowerAdmits_of_isGE above lower]
    | false =>
      simp only [descends, directed, Bool.false_eq_true, ↓reduceIte] at parts
      cases stored : plan.upperBound with
      | none => rfl
      | some bound =>
        rw [stored, all_some] at upper
        simp [upperAdmits_of_isLE parts upper]
  · obtain ⟨lower, upper⟩ := fits.unbounded inside
    cases first[(plan.equalityPrefix.getD []).length]? with
    | none => rfl
    | some part => simp [pastTerminatingBound, lower, upper]

variable (ordered : KeyTree.Ordered keyFromEntry (schema.compareKeyTuples columns) tree)

include ordered in
/-- The walk finds the keys that the plan admits. -/
theorem walkTree_eq_filter (long : ∀ entry ∈ tree, columns.length ≤ (keyFromEntry entry).length) :
    Layer.walkTree (schema.compareKeyTuples columns) keyFromEntry tree columns plan comparators =
      tree.filter fun entry => plan.planAppliesToKey comparators (keyFromEntry entry)
        (schema.compareKeyTuples columns) := by
  have walked : Layer.walkTree (schema.compareKeyTuples columns) keyFromEntry tree columns plan
    comparators =
      walk
        (fun entry => plan.planAppliesToKey comparators (keyFromEntry entry)
          (schema.compareKeyTuples columns))
        (fun entry => plan.walkIsExhausted comparators (keyFromEntry entry)
          (plan.boundDescends columns))
        (startingAt (fun entry =>
          schema.compareKeyTuples columns (keyFromEntry entry) (plan.startParts columns) == .lt)
            tree) := by
    simp only [Layer.walkTree, fits.ascending, Bool.not_false, Bool.true_beq]
    refine congrArg _ ?_
    change safeIterate _ keyFromEntry tree true (if (plan.startParts columns).isEmpty then none
      else some (plan.startParts columns)) = _
    cases plan.startParts columns with
    | nil =>
      -- A walk without a start key starts before every key.
      refine (startingAt_of_none_before fun entry _ => ?_).symm
      exact beq_eq_false_iff_ne.mpr (tuple_nil_right_ne_lt _ _)
    | cons part parts => rfl
  rw [walked]
  refine walk_startingAt_eq_filter ?_ ?_ ?_
  · refine ordered.imp fun below stays => ?_
    rw [beq_eq_false_iff_ne] at stays ⊢
    exact fun before => stays (Std.TransCmp.lt_trans below before)
  · intro entry member before
    refine Bool.eq_false_iff.mpr fun applies => ?_
    exact ne_lt_of_applies fits (long entry member) applies (beq_iff_eq.mp before)
  · refine ordered.imp_of_mem fun first_mem second_mem below after _ stopped => ?_
    refine Bool.eq_false_iff.mpr fun applies => ?_
    have running := exhausted_of_applies fits (long _ first_mem) (long _ second_mem)
      (beq_eq_false_iff_ne.mp after) below applies
    rw [running] at stopped
    cases stopped

include proper ordered in
/-- The walk finds the keys in the window. -/
theorem walkTree_eq_window (long : ∀ entry ∈ tree, columns.length ≤ (keyFromEntry entry).length) :
    Layer.walkTree (schema.compareKeyTuples columns) keyFromEntry tree columns plan comparators =
      tree.filter fun entry => schema.inWindow columns (plan.equalityPrefix.getD [])
        ⟨plan.lowerBound, plan.upperBound⟩ (keyFromEntry entry) := by
  rw [walkTree_eq_filter fits ordered long]
  exact filter_congr fun entry member =>
    planAppliesToKey_eq_inWindow fits proper (long entry member) _

end Walk

end ScanPlan

end Quereus.Memory
