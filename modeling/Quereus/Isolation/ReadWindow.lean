import Quereus.Isolation.MergedRead

/-! # The pushed window of a merged read

The matcher that a merged read filters staged rows with decides the pushed
constraints under SQL's comparison, and looks at the constrained columns only.
-/

namespace Quereus.Isolation

open Memory List

namespace MergedTable

variable (table : MergedTable)

/-- A bound has to hold, and of the equalities on one column any. NULL compares to
nothing. -/
def ConstraintMet (index : IndexDescriptor) (constraints : List PushedConstraint) (row : Row)
    (constraint : PushedConstraint) (op : IndexConstraintOp) : Prop :=
  if op = .eq then
    ∃ other ∈ constraints, other.column = constraint.column ∧ other.op = some .eq ∧
      IndexConstraintOp.eq.holds (table.constraintComparator index constraint.column)
        (cellAt row constraint.column) other.value
  else op.holds (table.constraintComparator index constraint.column) (cellAt row constraint.column)
    constraint.value

/-- Whether a row lies in the pushed window. -/
def InWindow (filterInfo : FilterInfo) (row : Row) : Prop :=
  match filterInfo.accessPath with
  | .index _ .scan => True
  | .index index .multiRangeSeek =>
    match index.keyColumns, filterInfo.ranges with
    | [], _ | _, [] => True
    | keyColumn :: _, ranges =>
      (cellAt row keyColumn.index).isNull = false ∧ ∃ range ∈ ranges,
        rangeAdmits (table.constraintComparator index keyColumn.index)
          (cellAt row keyColumn.index) range
  | .index index _ =>
    ∀ constraint ∈ filterInfo.constraints, ∀ op, constraint.op = some op →
      table.ConstraintMet index filterInfo.constraints row constraint op
  | _ => True

variable {constraints : List PushedConstraint} {column : Nat} {op : IndexConstraintOp}
  {cmp : Cell → Cell → Ordering} {index : IndexDescriptor} {first second : Cell}

theorem mem_windowColumns :
    column ∈ windowColumns constraints ↔
      ∃ constraint ∈ constraints, constraint.op.isSome ∧ constraint.column = column := by
  simp [windowColumns, and_assoc]

variable {value part : Cell} {row : Row}

theorem mem_eqValues :
    value ∈ (windowFor constraints column).eqValues ↔
      ∃ constraint ∈ constraints, constraint.column = column ∧ constraint.op = some .eq ∧
        constraint.value = value := by
  simp [windowFor, and_assoc]

theorem mem_bounds : (op, value) ∈ (windowFor constraints column).bounds ↔
      ∃ constraint ∈ constraints, constraint.column = column ∧ constraint.op = some op ∧ op ≠ .eq ∧
        constraint.value = value := by
  simp only [windowFor, mem_filterMap, Option.ite_none_right_eq_some, Option.bind_eq_some_iff]
  constructor
  · rintro ⟨constraint, member, here, found, stored, kept⟩
    split at kept
    · cases kept
    · next range =>
      obtain ⟨rfl, rfl⟩ := Prod.mk.inj (Option.some.inj kept)
      exact ⟨constraint, member, here, stored, range, rfl⟩
  · rintro ⟨constraint, member, here, stored, range, rfl⟩
    exact ⟨constraint, member, here, op, stored, if_neg range⟩

theorem holds_of_bound (range : op ≠ .eq) (present : part.isNull = false) :
    (!value.isNull && satisfiesBound (cmp part value) op) = op.holds cmp part value := by
  unfold IndexConstraintOp.holds satisfiesBound
  rw [present]
  cases op with
  | eq => exact absurd rfl range
  | _ => cases cmp part value <;> cases value.isNull <;> rfl

theorem isNull_of_holds (holds : op.holds cmp part value = true) : part.isNull = false := by
  unfold IndexConstraintOp.holds at holds
  simp only [Bool.and_eq_true, Bool.not_eq_true'] at holds
  exact holds.1.1

variable {table} (filterInfo : FilterInfo)

/-- A met constraint speaks of a value that is not NULL. -/
theorem ConstraintMet.isNull {constraint : PushedConstraint}
    (met : table.ConstraintMet index constraints row constraint op) :
    (cellAt row constraint.column).isNull = false := by
  unfold ConstraintMet at met
  split at met
  · obtain ⟨other, -, -, -, equal⟩ := met
    exact isNull_of_holds equal
  · exact isNull_of_holds met

/-- The windows of the columns are the constraints taken together. -/
theorem windows_admit_iff :
    ((windowColumns constraints).all fun columnIndex =>
        (windowFor constraints columnIndex).admits (table.constraintComparator index columnIndex)
          (cellAt row columnIndex)) = true ↔
      ∀ constraint ∈ constraints, ∀ op, constraint.op = some op →
        table.ConstraintMet index constraints row constraint op := by
  rw [all_eq_true]
  constructor
  · intro admitted constraint member op stored
    have admits := admitted _ (mem_windowColumns.mpr ⟨constraint, member, stored ▸ rfl, rfl⟩)
    unfold ColumnWindow.admits at admits
    simp only [Bool.and_eq_true, Bool.or_eq_true, List.isEmpty_iff, List.any_eq_true,
      all_eq_true, Bool.not_eq_true'] at admits
    obtain ⟨⟨present, equals⟩, bounds⟩ := admits
    unfold ConstraintMet
    split
    · next equality =>
      subst equality
      have mine := mem_eqValues.mpr ⟨constraint, member, rfl, stored, rfl⟩
      obtain ⟨value, inValues, known, same⟩ := equals.resolve_left (List.ne_nil_of_mem mine)
      obtain ⟨other, inConstraints, here, equality, rfl⟩ := mem_eqValues.mp inValues
      refine ⟨other, inConstraints, here, equality, ?_⟩
      simp [IndexConstraintOp.holds, present, known, same]
    · next range =>
      have kept := bounds _ (mem_bounds.mpr ⟨constraint, member, rfl, stored, range, rfl⟩)
      rw [← holds_of_bound range present, Bool.and_eq_true, Bool.not_eq_true']
      exact kept
  · intro met column listed
    obtain ⟨constraint, member, interpreted, rfl⟩ := mem_windowColumns.mp listed
    obtain ⟨op, stored⟩ := Option.isSome_iff_exists.mp interpreted
    have present := (met constraint member op stored).isNull
    unfold ColumnWindow.admits
    simp only [Bool.and_eq_true, Bool.or_eq_true, any_eq_true, all_eq_true, Bool.not_eq_true']
    refine ⟨⟨present, ?_⟩, ?_⟩
    · cases values : (windowFor constraints constraint.column).eqValues with
      | nil => exact .inl rfl
      | cons value rest =>
        right
        have listed : value ∈ (windowFor constraints constraint.column).eqValues := by
          rw [values]
          exact mem_cons_self
        obtain ⟨first, first_mem, here, equality, -⟩ := mem_eqValues.mp listed
        have found := met first first_mem .eq equality
        unfold ConstraintMet at found
        rw [here] at found
        obtain ⟨other, other_mem, there, other_eq, equal⟩ := found
        refine ⟨other.value, values ▸ mem_eqValues.mpr ⟨other, other_mem, there, other_eq, rfl⟩, ?_⟩
        simpa [IndexConstraintOp.holds, present] using equal
    · rintro ⟨bound, value⟩ inBounds
      obtain ⟨other, other_mem, here, stored_bound, range, rfl⟩ := mem_bounds.mp inBounds
      have kept := met other other_mem bound stored_bound
      unfold ConstraintMet at kept
      rw [if_neg range, here, ← holds_of_bound range present, Bool.and_eq_true, Bool.not_eq_true']
        at kept
      exact kept

theorem matcher_iff (row : Row) :
    table.buildConstraintMatcher filterInfo row = true ↔ table.InWindow filterInfo row := by
  unfold buildConstraintMatcher InWindow
  cases filterInfo.accessPath with
  | index index plan =>
    cases plan with
    | scan => simp
    | multiRangeSeek =>
      unfold buildMultiRangeWindowMatcher
      cases columns : index.keyColumns <;> cases ranges : filterInfo.ranges <;> simp [columns]
    | _ => exact windows_admit_iff
  | _ => simp

/-- The name of the scanned index does not matter to the window. -/
theorem matcher_adapt (row : Row) :
    table.buildConstraintMatcher (adaptFilterInfoForOverlay filterInfo) row =
      table.buildConstraintMatcher filterInfo row := by
  unfold adaptFilterInfoForOverlay
  cases path : filterInfo.accessPath with
  | index index plan =>
    simp only
    split
    · unfold buildConstraintMatcher
      rw [path]
      cases plan <;> rfl
    · rfl
  | _ => rfl

/-- The columns a window looks at. -/
def windowLooksAt (filterInfo : FilterInfo) : List Nat :=
  match filterInfo.accessPath with
  | .index _ .scan => []
  | .index index .multiRangeSeek => (index.keyColumns.take 1).map KeyColumn.index
  | .index _ _ => windowColumns filterInfo.constraints
  | _ => []

/-- The scanned index, if any. -/
def scannedIndex (filterInfo : FilterInfo) : Option IndexDescriptor :=
  match filterInfo.accessPath with
  | .index index _ => some index
  | _ => none

theorem rangeAdmits_congr [Std.TransCmp cmp] (same : cmp first second = .eq)
    (range : ScanPlanRange) :
    rangeAdmits cmp first range = rangeAdmits cmp second range := by
  unfold rangeAdmits
  simp only [Std.TransCmp.congr_left same]

theorem isNull_eq_of_constraintComparator
    (same : table.constraintComparator index column first second = .eq) :
    first.isNull = second.isNull := by
  unfold constraintComparator at same
  split at same
  · exact isNull_eq_of_typed same
  · exact isNull_eq_of_compareCells same

/-- Rows that agree in the columns of a window are both in it or both outside. -/
theorem matcher_congr {filterInfo : FilterInfo} {first second : Row}
    (agree : ∀ index ∈ scannedIndex filterInfo, ∀ column ∈ windowLooksAt filterInfo,
      table.constraintComparator index column (cellAt first column) (cellAt second column) = .eq) :
    table.buildConstraintMatcher filterInfo first =
      table.buildConstraintMatcher filterInfo second := by
  unfold scannedIndex windowLooksAt at agree
  unfold buildConstraintMatcher
  cases path : filterInfo.accessPath with
  | index index plan =>
    simp only [path] at agree
    have agrees := agree index rfl
    cases plan with
    | scan => rfl
    | multiRangeSeek =>
      simp only [buildMultiRangeWindowMatcher]
      cases columns : index.keyColumns with
      | nil => rfl
      | cons keyColumn rest =>
        have same := agrees keyColumn.index (by simp [columns])
        cases filterInfo.ranges with
        | nil => rfl
        | cons range ranges =>
          simp only [isNull_eq_of_constraintComparator same, funext (rangeAdmits_congr same)]
    | _ =>
      rw [Bool.eq_iff_iff, all_eq_true, all_eq_true]
      refine forall₂_congr fun column listed => ?_
      have same := agrees column listed
      simp only [ColumnWindow.admits, isNull_eq_of_constraintComparator same,
        Std.TransCmp.congr_left same]
  | _ => rfl

end MergedTable

end Quereus.Isolation
