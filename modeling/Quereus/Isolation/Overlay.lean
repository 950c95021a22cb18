import Quereus.Memory.IndexContents
import Quereus.Memory.Mutation

/-! # The overlay of an isolated table

A transaction stages its writes in an overlay, a memory table with the columns of
the isolated table and one more that marks a row as deleted. A staged row shadows
the committed row of its key, and a tombstone hides it. The overlay's indexes and
UNIQUE constraints are narrowed to the rows that are not tombstones; its primary
key covers both.
-/

namespace Quereus.Isolation

open Memory KeyTree List

abbrev Row := Memory.Row

/-- The value 0 in the tombstone column. -/
def liveFlag : Cell :=
  ⟨.number Double.zero, by decide⟩

/-- The value 1 in the tombstone column. -/
def tombstoneFlag : Cell :=
  ⟨.number ⟨0x3FF0000000000000#64⟩, by decide⟩

/-- `AND` of truth values that may be unknown. -/
def threeValuedAnd (a b : Option Bool) : Option Bool :=
  if a = some false ∨ b = some false then some false
  else if a = none ∨ b = none then none
  else some true

/-- The truth of `<tombstone column> = 0`. -/
def isLive (tombstoneIndex : Nat) (row : Row) : Option Bool :=
  if (cellAt row tombstoneIndex).isNull then none
  else some (compareCells BINARY_COLLATION (cellAt row tombstoneIndex) liveFlag == .eq)

theorem isLive_congr {tombstoneIndex : Nat} {first second : Row}
    (same : compareCells BINARY_COLLATION (cellAt first tombstoneIndex)
      (cellAt second tombstoneIndex) = .eq) :
    isLive tombstoneIndex first = isLive tombstoneIndex second := by
  rw [isLive, isLive, isNull_eq_of_compareCells same, Std.TransCmp.congr_left same]

/-- The rows that are not tombstones. -/
def liveRowPredicate (tombstoneIndex : Nat) : CompiledPredicate where
  evaluate := isLive tombstoneIndex
  referencedColumns := [tombstoneIndex]
  stable _ _ same := isLive_congr (same tombstoneIndex (List.mem_singleton.mpr rfl))

def overlayPredicate (tombstoneIndex : Nat) (base : Option CompiledPredicate) : CompiledPredicate :=
  match base with
  | none => liveRowPredicate tombstoneIndex
  | some base =>
    { evaluate := fun row => threeValuedAnd (base.evaluate row) (isLive tombstoneIndex row)
      referencedColumns := base.referencedColumns ++ [tombstoneIndex]
      stable := fun first second same => by
        rw [List.forall_mem_append] at same
        rw [base.stable first second same.1,
          isLive_congr (same.2 tombstoneIndex (List.mem_singleton.mpr rfl))] }

/-- The column that marks tombstones; its position comes after the table's columns. -/
def tombstoneColumn (name : String) : Column where
  name := name
  logicalType := plainType
  collation := "BINARY"
  defaultConflict := none

/-- The overlay keeps the table's keys, indexes and constraints. -/
def createOverlaySchema (tombstoneName overlayName : String) (baseSchema : TableSchema) :
    TableSchema :=
  let predicate := overlayPredicate baseSchema.columns.length
  { baseSchema with
    name := overlayName
    columns := baseSchema.columns ++ [tombstoneColumn tombstoneName]
    indexes := baseSchema.indexes.map fun index =>
      { index with predicate := some (predicate index.predicate) }
    uniqueConstraints := baseSchema.uniqueConstraints.map fun uc =>
      { uc with predicate := some (predicate uc.predicate) } }

section MergedView

variable (schema : TableSchema)

def isTombstone (overlayRow : Row) : Bool :=
  cellAt overlayRow schema.columns.length = tombstoneFlag

/-- A staged row without its tombstone column. -/
def dataRow (overlayRow : Row) : Row :=
  overlayRow.take schema.columns.length

/-- A tombstone removes the row of its key, any other staged row takes its place. -/
def applyStaged (rows : List Row) (overlayRow : Row) : List Row :=
  if isTombstone schema overlayRow then
    erase schema.primaryKeyFromRow schema.comparePrimaryKeys rows
      (schema.primaryKeyFromRow overlayRow)
  else upsert schema.primaryKeyFromRow schema.comparePrimaryKeys rows (dataRow schema overlayRow)

/-- The rows a transaction sees: the committed ones shadowed by the staged ones. -/
def mergedView (underlyingRows overlayRows : List Row) : List Row :=
  overlayRows.foldl (applyStaged schema) underlyingRows

/-- The key columns are columns of the table. -/
def KeyInColumns : Prop :=
  ∀ column ∈ schema.primaryKeyDefinition, column.index < schema.columns.length

variable {schema}

theorem cellAt_dataRow (overlayRow : Row) {column : Nat} (inside : column < schema.columns.length) :
    cellAt (dataRow schema overlayRow) column = cellAt overlayRow column := by
  rw [cellAt, cellAt, dataRow, getD_eq_getElem?_getD, getD_eq_getElem?_getD,
    getElem?_take_of_lt inside]

/-- The tombstone column is not part of the key. -/
theorem primaryKeyFromRow_dataRow (keyInColumns : KeyInColumns schema) (overlayRow : Row) :
    schema.primaryKeyFromRow (dataRow schema overlayRow) = schema.primaryKeyFromRow overlayRow := by
  apply map_congr_left
  intro column member
  exact cellAt_dataRow overlayRow (keyInColumns column member)

/-- What a staged row shows. -/
def shownRow (schema : TableSchema) (overlayRow : Row) : Option Row :=
  if isTombstone schema overlayRow then none else some (dataRow schema overlayRow)

variable {rows underlyingRows overlayRows : List Row}

theorem rowsOrdered_applyStaged (ordered : RowsOrdered schema rows) (overlayRow : Row) :
    RowsOrdered schema (applyStaged schema rows overlayRow) := by
  unfold applyStaged
  split
  · exact ordered.erase _
  · exact ordered.upsert _

theorem find_applyStaged (keyInColumns : KeyInColumns schema) (ordered : RowsOrdered schema rows)
    (overlayRow : Row) (wanted : Key) :
    find schema.primaryKeyFromRow schema.comparePrimaryKeys
        (applyStaged schema rows overlayRow) wanted =
      if schema.comparePrimaryKeys (schema.primaryKeyFromRow overlayRow) wanted = .eq then
        shownRow schema overlayRow
      else find schema.primaryKeyFromRow schema.comparePrimaryKeys rows wanted := by
  unfold applyStaged shownRow
  split
  · simp only [find_erase, schema.comparePrimaryKeys_comm wanted]
  · rw [ordered.find_upsert, primaryKeyFromRow_dataRow keyInColumns]

theorem rowsOrdered_mergedView (ordered : RowsOrdered schema underlyingRows)
    (overlayRows : List Row) :
    RowsOrdered schema (mergedView schema underlyingRows overlayRows) := by
  induction overlayRows generalizing underlyingRows with
  | nil => exact ordered
  | cons overlayRow rest ih => exact ih (rowsOrdered_applyStaged ordered overlayRow)

/-- A key with a staged row shows what is staged, any other key the committed row. -/
theorem find_mergedView (keyInColumns : KeyInColumns schema)
    (ordered : RowsOrdered schema underlyingRows) (staged : RowsOrdered schema overlayRows)
    (wanted : Key) :
    find schema.primaryKeyFromRow schema.comparePrimaryKeys
        (mergedView schema underlyingRows overlayRows) wanted =
      match find schema.primaryKeyFromRow schema.comparePrimaryKeys overlayRows wanted with
      | some overlayRow => shownRow schema overlayRow
      | none => find schema.primaryKeyFromRow schema.comparePrimaryKeys underlyingRows wanted := by
  induction overlayRows generalizing underlyingRows with
  | nil => rfl
  | cons overlayRow rest ih =>
    obtain ⟨above, staged_rest⟩ := pairwise_cons.mp staged
    have later := ih (rowsOrdered_applyStaged ordered overlayRow) staged_rest
    rw [find_applyStaged keyInColumns ordered] at later
    refine Eq.trans later ?_
    by_cases same : schema.comparePrimaryKeys (schema.primaryKeyFromRow overlayRow) wanted = .eq
    · -- No later row is staged at this key.
      have absent : find schema.primaryKeyFromRow schema.comparePrimaryKeys rest wanted =
          none := by
        apply find_eq_none.mpr
        intro other member equal
        have less := above other member
        have equals : schema.comparePrimaryKeys (schema.primaryKeyFromRow overlayRow)
            (schema.primaryKeyFromRow other) = .eq :=
          Std.TransCmp.eq_trans same (Std.OrientedCmp.eq_symm equal)
        rw [equals] at less
        cases less
      have here : find schema.primaryKeyFromRow schema.comparePrimaryKeys
          (overlayRow :: rest) wanted = some overlayRow := by
        rw [find, find?_cons_of_pos]
        rw [same]
        rfl
      rw [absent, here, if_pos same]
    · have passed : find schema.primaryKeyFromRow schema.comparePrimaryKeys
          (overlayRow :: rest) wanted =
            find schema.primaryKeyFromRow schema.comparePrimaryKeys rest wanted := by
        rw [find, find?_cons_of_neg]
        · rfl
        · rwa [beq_iff_eq]
      rw [passed, if_neg same]

/-- The merged view holds the committed rows without a staged row at their key and what
the staged rows show. -/
theorem mem_mergedView (keyInColumns : KeyInColumns schema)
    (ordered : RowsOrdered schema underlyingRows) (staged : RowsOrdered schema overlayRows)
    {row : Row} :
    row ∈ mergedView schema underlyingRows overlayRows ↔
      (row ∈ underlyingRows ∧ ∀ overlayRow ∈ overlayRows, schema.comparePrimaryKeys
        (schema.primaryKeyFromRow overlayRow) (schema.primaryKeyFromRow row) ≠ .eq) ∨
      ∃ overlayRow ∈ overlayRows, shownRow schema overlayRow = some row := by
  have self : schema.comparePrimaryKeys (schema.primaryKeyFromRow row)
      (schema.primaryKeyFromRow row) = .eq := Std.ReflCmp.compare_self
  have found : row ∈ mergedView schema underlyingRows overlayRows ↔
      find schema.primaryKeyFromRow schema.comparePrimaryKeys
        (mergedView schema underlyingRows overlayRows) (schema.primaryKeyFromRow row) =
          some row := by
    rw [(rowsOrdered_mergedView ordered overlayRows).find_eq_some, and_iff_left self]
  -- A staged row that shows the row is staged at its key.
  have atKey : ∀ overlayRow, shownRow schema overlayRow = some row →
      schema.primaryKeyFromRow overlayRow = schema.primaryKeyFromRow row := by
    intro overlayRow shows
    unfold shownRow at shows
    split at shows
    · cases shows
    · rw [← Option.some.inj shows, primaryKeyFromRow_dataRow keyInColumns]
  rw [found, find_mergedView keyInColumns ordered staged]
  cases stored : find schema.primaryKeyFromRow schema.comparePrimaryKeys overlayRows
      (schema.primaryKeyFromRow row) with
  | none =>
    have absent := find_eq_none.mp stored
    simp only [ordered.find_eq_some, and_iff_left self]
    constructor
    · exact fun member => .inl ⟨member, absent⟩
    · rintro (⟨member, -⟩ | ⟨overlayRow, member, shows⟩)
      · exact member
      · exact absurd (atKey overlayRow shows ▸ self) (absent overlayRow member)
  | some overlayRow =>
    obtain ⟨member, same⟩ := staged.find_eq_some.mp stored
    constructor
    · exact fun shows => .inr ⟨overlayRow, member, shows⟩
    · rintro (⟨-, apart⟩ | ⟨other, other_mem, shows⟩)
      · exact absurd same (apart overlayRow member)
      · have equal : other = overlayRow := by
          apply staged.eq_of_key_eq other_mem member
          rw [atKey other shows]
          exact Std.OrientedCmp.eq_symm same
        rwa [← equal]

end MergedView

end Quereus.Isolation
