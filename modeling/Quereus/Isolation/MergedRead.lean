import Quereus.Isolation.Overlay
import Quereus.Lib.ShadowMerge
import Quereus.Memory.ScanWindow

/-! # Reading an isolated table

A read with staged rows asks the underlying table and the overlay and merges the
answers in the order of the scan. A primary scan walks both by key, where a staged
row takes the place of the committed row of its key. A secondary scan filters the
staged rows itself, leaves out every committed row with a staged one at its key and
puts the staged rows between the others.

The pushed constraints come with their values, and the ranges of an OR of ranges
are the decoded ones.
-/

namespace Quereus.Isolation

open Memory

inductive IndexPlanKind where
  | scan
  | eqSeek
  | rangeSeek
  | multiSeek
  | multiRangeSeek
  | prefixRangeSeek
  deriving DecidableEq

/-- Whether an index is the table's primary key, however it is named. -/
inductive IndexRole where
  | primary
  | secondary
  deriving DecidableEq

structure IndexDescriptor where
  name : String
  role : IndexRole
  keyColumns : List KeyColumn
  /-- The scan walks the index against its declared order. -/
  reverse : Bool

inductive AccessPath where
  | fullScan
  | empty
  | index (index : IndexDescriptor) (plan : IndexPlanKind)
  | unresolvedIndex (indexName : String)

/-- A constraint with its argument; the operator is missing when the merged read does
not interpret it. -/
structure PushedConstraint where
  column : Nat
  op : Option IndexConstraintOp
  value : Cell

structure FilterInfo where
  accessPath : AccessPath
  constraints : List PushedConstraint
  ranges : List ScanPlanRange

/-- An isolated table with staged rows, and how its parts answer. -/
structure MergedTable where
  schema : TableSchema
  tableName : String
  underlyingRows : List Row
  overlayRows : List Row
  /-- The key comparator of the underlying table, if it has one. -/
  comparePrimaryKey : Option (Key → Key → Ordering)
  getIndexComparator : String → Option (List (Cell → Cell → Ordering))
  /-- The text by which rows with one key are known. -/
  pkKeyOf : Key → String
  queryUnderlying : FilterInfo → List Row
  queryOverlay : FilterInfo → List Row

namespace MergedTable

variable (table : MergedTable)

/-- The comparator of a constrained column: under the collation of the scanned index
where the column is one of its key columns, else under the declared one. -/
def constraintComparator (index : IndexDescriptor) (columnIndex : Nat) : Cell → Cell → Ordering :=
  let name := ((index.keyColumns.find? (·.index = columnIndex)).bind KeyColumn.collation).or
    (table.schema.columns[columnIndex]?.map Column.collation)
  let collation := (name.map table.schema.collationResolver).getD BINARY_COLLATION
  if hasSemanticOrdering (table.schema.typeAt columnIndex) then
    createTypedComparator (table.schema.typeAt columnIndex) (some collation)
  else compareCells collation

instance (index : IndexDescriptor) (columnIndex : Nat) :
    Std.TransCmp (table.constraintComparator index columnIndex) := by
  unfold constraintComparator
  dsimp only
  split <;> infer_instance

def satisfiesBound (order : Ordering) : IndexConstraintOp → Bool
  | .gt => order == .gt
  | .ge => order != .lt
  | .lt => order == .lt
  | .le => order != .gt
  | .eq => true

/-- The values a column may equal, and the bounds it must keep. -/
structure ColumnWindow where
  eqValues : List Cell
  bounds : List (IndexConstraintOp × Cell)

def windowFor (constraints : List PushedConstraint) (columnIndex : Nat) : ColumnWindow where
  eqValues := constraints.filterMap fun constraint =>
    if constraint.column = columnIndex ∧ constraint.op =
      some .eq then some constraint.value else none
  bounds := constraints.filterMap fun constraint =>
    if constraint.column = columnIndex then
      constraint.op.bind fun op => if op = .eq then none else some (op, constraint.value)
    else none

/-- The columns with a constraint that is interpreted. -/
def windowColumns (constraints : List PushedConstraint) : List Nat :=
  ((constraints.filter fun constraint => constraint.op.isSome).map PushedConstraint.column).dedup

def ColumnWindow.admits (window : ColumnWindow) (compare : Cell → Cell → Ordering)
    (rowValue : Cell) :
    Bool :=
  !rowValue.isNull &&
    (window.eqValues.isEmpty ||
      window.eqValues.any fun value => !value.isNull && compare rowValue value == .eq) &&
    window.bounds.all fun (op, value) => !value.isNull && satisfiesBound (compare rowValue value) op

/-- One range of an OR of ranges; the bounds are strict or not by their operators. -/
def rangeAdmits (compare : Cell → Cell → Ordering) (rowValue : Cell)
    (range : ScanPlanRange) : Bool :=
  (range.lowerBound.all fun bound => !bound.value.isNull &&
      (if bound.op = .gt then compare rowValue bound.value == .gt
        else compare rowValue bound.value != .lt)) &&
    range.upperBound.all fun bound => !bound.value.isNull &&
      (if bound.op = .lt then compare rowValue bound.value == .lt
        else compare rowValue bound.value != .gt)

variable (filterInfo : FilterInfo)

def buildMultiRangeWindowMatcher (index : IndexDescriptor) (row : Row) : Bool :=
  match index.keyColumns, filterInfo.ranges with
  | [], _ | _, [] => true
  | keyColumn :: _, ranges =>
    let rowValue := cellAt row keyColumn.index
    !rowValue.isNull &&
      ranges.any (rangeAdmits (table.constraintComparator index keyColumn.index) rowValue)

/-- Whether a row lies in the pushed window. -/
def buildConstraintMatcher (row : Row) : Bool :=
  match filterInfo.accessPath with
  | .index index plan =>
    match plan with
    | .scan => true
    | .multiRangeSeek => table.buildMultiRangeWindowMatcher filterInfo index row
    | _ =>
      (windowColumns filterInfo.constraints).all fun columnIndex =>
        (windowFor filterInfo.constraints columnIndex).admits
          (table.constraintComparator index columnIndex) (cellAt row columnIndex)
  | _ => true

/-- The comparison of one key column where the underlying table has no comparator. -/
def pkCompare (column : KeyColumn) : Cell → Cell → Ordering :=
  if hasSemanticOrdering (table.schema.typeAt column.index) then
    createTypedComparator (table.schema.typeAt column.index) none
  else compareCells (table.schema.collationResolver (table.schema.collationAt column.index))

def getComparePK : Key → Key → Ordering :=
  table.comparePrimaryKey.getD
    (Comparator.tuple (table.schema.primaryKeyDefinition.map fun column =>
      Comparator.directed column.desc (table.pkCompare column)))

/-- The comparators of index columns by the descriptor. -/
def buildDescriptorComparators (keyColumns : List KeyColumn) : List (Cell → Cell → Ordering) :=
  keyColumns.map fun column =>
    let collation := (column.collation.map table.schema.collationResolver).getD BINARY_COLLATION
    Comparator.directed column.desc
      (if hasSemanticOrdering (table.schema.typeAt column.index) then
        createTypedComparator (table.schema.typeAt column.index) (some collation)
      else compareCells collation)

/-- Index key first, primary key second. -/
def buildCompareSortKey (indexKeyLength : Nat) (comparePK : Key → Key → Ordering)
    (indexComparators : List (Cell → Cell → Ordering)) : Key → Key → Ordering :=
  let columns := (List.range indexKeyLength).map fun position =>
    indexComparators[position]?.getD (compareCells BINARY_COLLATION)
  compareLex (Comparator.via (List.take indexKeyLength) (Comparator.tuple columns))
    (Comparator.via (List.drop indexKeyLength) comparePK)

/-- The index a scan walks. -/
inductive IndexScanInfo where
  | primary (reverse : Bool)
  | secondary (indexName : String) (keyColumns : List KeyColumn) (reverse : Bool)

def resolveScanIndex : Except String IndexScanInfo :=
  match filterInfo.accessPath with
  | .fullScan | .empty => .ok (.primary false)
  | .index index _ =>
    match index.role with
    | .primary => .ok (.primary index.reverse)
    | .secondary => .ok (.secondary index.name index.keyColumns index.reverse)
  | .unresolvedIndex indexName =>
    .error ("IsolatedTable '" ++ table.tableName ++ "': the underlying module chose index '" ++
      indexName ++ "', which the engine could not resolve against the table schema. " ++
      "A module that names an index anything other than '_primary_' or a schema index " ++
      "must return an 'indexDescriptor' from getBestAccessPlan (see docs/module-authoring.md).")

/-- What a scan sorts by. -/
structure MergeConfig where
  extractSortKey : Row → Key
  compareSortKey : Key → Key → Ordering

def buildMergeConfig : IndexScanInfo → MergeConfig
  | .primary reverse =>
    ⟨table.schema.primaryKeyFromRow, Comparator.directed reverse table.getComparePK⟩
  | .secondary indexName keyColumns reverse =>
    let comparators := (table.getIndexComparator indexName).getD
      (table.buildDescriptorComparators keyColumns)
    ⟨fun row => keyOf keyColumns row ++ table.schema.primaryKeyFromRow row,
      Comparator.directed reverse
        (buildCompareSortKey keyColumns.length table.getComparePK comparators)⟩

/-- The overlay's primary tree has one name, whatever the underlying table calls its
own. -/
def adaptFilterInfoForOverlay : FilterInfo :=
  match filterInfo.accessPath with
  | .index index plan =>
    if index.role = .primary ∧ index.name ≠ "_primary_" then
      { filterInfo with accessPath := .index { index with name := "_primary_" } plan }
    else filterInfo
  | _ => filterInfo

structure MergeEntry where
  /-- The staged row, or none for a tombstone. -/
  row : Option Row
  sortKey : Key

/-- The entries of the overlay for a primary scan. A tombstone passes the window. -/
def queryOverlayAsMergeEntries (compareSortKey : Key → Key → Ordering) : List MergeEntry :=
  let entries := (table.queryOverlay filterInfo).filterMap fun overlayRow =>
    let pk := table.schema.primaryKeyFromRow overlayRow
    if isTombstone table.schema overlayRow then some ⟨none, pk⟩
    else if table.buildConstraintMatcher filterInfo (dataRow table.schema overlayRow) then
      some ⟨some (dataRow table.schema overlayRow), pk⟩
    else none
  entries.insertionSort fun first second => (compareSortKey first.sortKey second.sortKey).isLE

def mergedPrimaryQuery (config : MergeConfig) : List Row :=
  ShadowMerge.merge MergeEntry.sortKey config.extractSortKey MergeEntry.row config.compareSortKey
    (table.queryOverlayAsMergeEntries (adaptFilterInfoForOverlay filterInfo)
      config.compareSortKey)
    (table.queryUnderlying filterInfo)

def mergedSecondaryIndexQuery (config : MergeConfig) : List Row :=
  let modifiedPKs := table.overlayRows.map fun row =>
    table.pkKeyOf (table.schema.primaryKeyFromRow row)
  let overlayRows := (table.overlayRows.filterMap (shownRow table.schema)).filter
    (table.buildConstraintMatcher filterInfo)
  let compareRows := Comparator.via config.extractSortKey config.compareSortKey
  ShadowMerge.interleave compareRows
    (overlayRows.insertionSort fun first second => (compareRows first second).isLE)
    ((table.queryUnderlying filterInfo).filter fun row =>
      table.pkKeyOf (table.schema.primaryKeyFromRow row) ∉ modifiedPKs)

def mergedQuery : Except String (List Row) := do
  let indexInfo ← table.resolveScanIndex filterInfo
  match indexInfo with
  | .secondary .. =>
    return table.mergedSecondaryIndexQuery filterInfo (table.buildMergeConfig indexInfo)
  | .primary _ => return table.mergedPrimaryQuery filterInfo (table.buildMergeConfig indexInfo)

end MergedTable

end Quereus.Isolation
