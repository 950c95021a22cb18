import Quereus.Value.Cell

/-! # Tables, keys and constraints of the memory backend

A table's primary key, its secondary indexes and its UNIQUE constraints each
compare cells by the column's logical type and a collation. A key is a tuple of
cells; the source stores a one-column key as the bare value and a longer one as
an array, which the arity tells apart.

The rows of this module are in declared form: a caller converts the values to
the column types before any function here runs.
-/

namespace Quereus.Memory

/-- The action of an `ON CONFLICT` clause. -/
inductive ConflictResolution where
  | rollback
  | abort
  | fail
  | ignore
  | replace
  deriving DecidableEq, Repr

abbrev Row := List Cell

/-- A primary key, or a key of an index. -/
abbrev Key := List Cell

def cellAt (row : Row) (index : Nat) : Cell :=
  row.getD index default

/-- The comparator of a type that compares with `compareFunc`, if it has one. Values
of different storage classes never reach the type's own comparison. -/
def typedComparator (compareFunc : Option (Cell → Cell → Option Collation → Ordering))
    (collation : Option Collation) (a b : Cell) : Ordering :=
  match compareFunc with
  | some compareFunc =>
    if a.isNull && b.isNull then .eq
    else if a.isNull then .lt
    else if b.isNull then .gt
    else if getStorageClass a.1 ≠ getStorageClass b.1 then
      compare (getStorageClass a.1).rank (getStorageClass b.1).rank
    else compareFunc a b collation
  | none => compareCells (collation.getD BINARY_COLLATION) a b

/-- A logical type as the tables use it. -/
structure LogicalType where
  compare : Option (Cell → Cell → Option Collation → Ordering)
  /-- The type's order is not the order of storage class and collation. -/
  semanticOrdering : Bool
  /-- Whether a value is of the type. -/
  validate : Cell → Bool
  lawful : ∀ collation, Std.TransCmp (typedComparator compare collation)

def hasSemanticOrdering (type : LogicalType) : Bool :=
  type.semanticOrdering && type.compare.isSome

def createTypedComparator (type : LogicalType) (collation : Option Collation) :
    Cell → Cell → Ordering :=
  typedComparator type.compare collation

instance (type : LogicalType) (collation : Option Collation) :
    Std.TransCmp (createTypedComparator type collation) :=
  type.lawful collation

/-- A type without a comparison of its own. -/
def plainType : LogicalType where
  compare := none
  semanticOrdering := false
  validate _ := true
  lawful collation :=
    inferInstanceAs (Std.TransCmp (compareCells (collation.getD BINARY_COLLATION)))

/-- Cells a typed comparator calls equal are NULL together. -/
theorem isNull_eq_of_typed {type : LogicalType} {collation : Option Collation} {a b : Cell}
    (same : createTypedComparator type collation a b = .eq) : a.isNull = b.isNull := by
  unfold createTypedComparator typedComparator at same
  cases compareFunc : type.compare with
  | none =>
    rw [compareFunc] at same
    exact isNull_eq_of_compareCells same
  | some compareFunc' =>
    simp only [compareFunc] at same
    cases aNull : a.isNull <;> cases bNull : b.isNull <;> simp [aNull, bNull] at same ⊢

structure Column where
  name : String
  logicalType : LogicalType
  collation : String
  defaultConflict : Option ConflictResolution

/-- A column of a primary key or of an index. -/
structure KeyColumn where
  index : Nat
  desc : Bool
  collation : Option String

/-- The predicate of a partial index or constraint. -/
structure CompiledPredicate where
  evaluate : Row → Option Bool
  referencedColumns : List Nat
  /-- Only the referenced columns matter, and only up to `compareSqlValues`: the
  compiled expressions read a column by comparing it with `compareSqlValues`, by
  testing it for NULL or by its truth value. -/
  stable : ∀ first second : Row, (∀ column ∈ referencedColumns,
      compareCells BINARY_COLLATION (cellAt first column) (cellAt second column) = .eq) →
    evaluate first = evaluate second

structure IndexSchema where
  name : String
  columns : List KeyColumn
  predicate : Option CompiledPredicate

structure UniqueConstraint where
  name : Option String
  columns : List Nat
  predicate : Option CompiledPredicate
  defaultConflict : Option ConflictResolution
  /-- The name of the index the constraint was made for, if any. -/
  derivedFromIndex : Option String

structure TableSchema where
  name : String
  columns : List Column
  primaryKeyDefinition : List KeyColumn
  primaryKeyDefaultConflict : Option ConflictResolution
  uniqueConstraints : List UniqueConstraint
  indexes : List IndexSchema
  /-- The collations registered on the owning database, by normalized name. -/
  collationResolver : String → Collation

/-- A row is in the scope of a predicate that is true of it, and every row is in
scope where there is no predicate. -/
def inScope (predicate : Option CompiledPredicate) (row : Row) : Bool :=
  match predicate with
  | some compiled => compiled.evaluate row == some true
  | none => true

/-- The cells of a row in the columns of a key. -/
def keyOf (columns : List KeyColumn) (row : Row) : Key :=
  columns.map fun column => cellAt row column.index

namespace TableSchema

variable (schema : TableSchema)

def typeAt (index : Nat) : LogicalType :=
  (schema.columns[index]?.map Column.logicalType).getD plainType

def collationAt (index : Nat) : String :=
  (schema.columns[index]?.map Column.collation).getD "BINARY"

def nameAt (index : Nat) : String :=
  (schema.columns[index]?.map Column.name).getD (toString index)

/-- The comparator of one key column, its direction included. -/
def compareColumn (column : KeyColumn) : Cell → Cell → Ordering :=
  Comparator.directed column.desc
    (createTypedComparator (schema.typeAt column.index)
      (column.collation.map schema.collationResolver))

instance (column : KeyColumn) : Std.TransCmp (schema.compareColumn column) :=
  inferInstanceAs (Std.TransCmp (Comparator.directed _ _))

def compareKeyTuples (columns : List KeyColumn) : Key → Key → Ordering :=
  Comparator.tuple (columns.map schema.compareColumn)

instance (columns : List KeyColumn) : Std.TransCmp (schema.compareKeyTuples columns) :=
  Comparator.transCmp_tuple fun cmp member => by
    obtain ⟨column, -, rfl⟩ := List.mem_map.mp member
    infer_instance

def primaryKeyFromRow (row : Row) : Key :=
  keyOf schema.primaryKeyDefinition row

def comparePrimaryKeys : Key → Key → Ordering :=
  schema.compareKeyTuples schema.primaryKeyDefinition

instance : Std.TransCmp schema.comparePrimaryKeys :=
  inferInstanceAs (Std.TransCmp (schema.compareKeyTuples _))

theorem comparePrimaryKeys_comm (first second : Key) :
    schema.comparePrimaryKeys first second = .eq ↔ schema.comparePrimaryKeys second first = .eq :=
  Std.OrientedCmp.eq_comm

def resolvePkDefaultConflict : Option ConflictResolution :=
  schema.primaryKeyDefaultConflict <|>
    schema.primaryKeyDefinition.findSome? fun column =>
      schema.columns[column.index]?.bind Column.defaultConflict

/-- The collation each column of a constraint is enforced under: that of the index
the constraint was made for, else the declared one. -/
def uniqueEnforcementCollations (uc : UniqueConstraint) : List String :=
  let index := uc.derivedFromIndex.bind fun name => schema.indexes.find? (·.name = name)
  uc.columns.zipIdx.map fun (column, position) =>
    ((index.bind (·.columns[position]?)).bind KeyColumn.collation).getD (schema.collationAt column)

/-- The comparator of one constrained column. -/
def enforcementComparator (column : Nat) (collation : String) : Cell → Cell → Ordering :=
  if hasSemanticOrdering (schema.typeAt column) then
    createTypedComparator (schema.typeAt column) (some (schema.collationResolver collation))
  else compareCells (schema.collationResolver collation)

instance (column : Nat) (collation : String) :
    Std.TransCmp (schema.enforcementComparator column collation) := by
  unfold enforcementComparator
  split <;> infer_instance

/-- Whether two rows agree in every constrained column. -/
def agreeOn (columns : List Nat) (collations : List String) (first second : Row) : Bool :=
  (columns.zip collations).all fun (column, collation) =>
    schema.enforcementComparator column collation (cellAt first column)
      (cellAt second column) == .eq

end TableSchema

def anyColumnChanged (columns : List Nat) (oldRow newRow : Row) : Bool :=
  columns.any fun column =>
    compareCells BINARY_COLLATION (cellAt oldRow column) (cellAt newRow column) != .eq

/-- Whether an update that keeps its key changes a column some constraint looks at. -/
def uniqueColumnsChanged (uniqueConstraints : List UniqueConstraint) (oldRow newRow : Row)
    (predicateColumns : UniqueConstraint → Option (List Nat)) : Bool :=
  uniqueConstraints.any fun uc =>
    anyColumnChanged uc.columns oldRow newRow ||
      (uc.predicate.isSome &&
        ((predicateColumns uc).map fun columns => anyColumnChanged columns oldRow newRow).getD
          false)

end Quereus.Memory
