import Quereus.Core.SavepointNames
import Quereus.Lib.NetChange
import Quereus.Memory.Schema

/-! # The transaction's change log

`TransactionManager` records the changed rows of a transaction, projected to the
columns that someone has asked for. The records of one row are merged, each
savepoint has a layer of its own, and a released layer is merged into the one below.

Table names are in lower case here. A layer of the source maps a table to a map of
its records by key; here the two are one key. The text of a coded key is the list
of its elements' codes.
-/

namespace Quereus.Core

open Memory (cellAt)

abbrev Row := Memory.Row

/-- The code of one value. The text of a finite number determines the number but for
the sign of zero, and all other numbers have the text `null`. -/
inductive ElementCode where
  | null
  | text (value : Utf16)
  | number (value : Option Double)
  | bigint (value : Int)
  | boolean (value : Bool)
  | blob (bytes : List UInt8)
  | json (canonical : Utf16)
  deriving DecidableEq

def encodeElement : SqlValue → ElementCode
  | .null => .null
  | .string value => .text value
  | .number value =>
    .number (if value.isFinite then
      some (if value = Double.negativeZero then Double.zero else value) else none)
  | .bigint value => .bigint value
  | .boolean value => .boolean value
  | .blob bytes => .blob bytes
  | .object canonical => .json canonical

def encodeKeyTuple (values : List Cell) : List ElementCode :=
  values.map fun value => encodeElement value.1

inductive CapturedOp where
  | insert
  | update
  | delete
  deriving DecidableEq

structure CapturedRow where
  op : CapturedOp
  oldProjection : Option (List Cell)
  newProjection : Option (List Cell)
  deriving DecidableEq

/-- How two records of one key are merged; none where the entry is dropped. -/
def mergeCaptured (existing incoming : CapturedRow) : Option CapturedRow :=
  match existing.op, incoming.op with
  | .insert, .delete => none
  | .insert, .update | .insert, .insert | .update, .update =>
    some { existing with newProjection := incoming.newProjection.or existing.newProjection }
  | .update, .delete => some { existing with op := .delete, newProjection := none }
  | .delete, .insert =>
    some { existing with op := .update, newProjection := incoming.newProjection }
  | .delete, .delete => some existing
  | .update, .insert | .delete, .update => some incoming

/-- A base table and the coded primary key of a row. -/
abbrev ChangeKey := String × List ElementCode

abbrev ChangeLogLayer := NetChange.Layer ChangeKey CapturedRow

/-- The base tables as the log reads them. -/
structure LogTables where
  /-- The primary key columns of a table. -/
  pkIndices : String → List Nat
  /-- The columns that someone has asked for, in the order they came. -/
  demand : String → List Nat

def projectRow (row : Row) (columns : List Nat) : List Cell :=
  columns.map (cellAt row)

structure ChangeLog where
  savepointStack : List String
  /-- The base layer and the layers of the savepoints. -/
  stack : NetChange.Stack ChangeKey CapturedRow

namespace LogTables

variable (tables : LogTables)

/-- The key columns, then what is asked for besides. -/
def captureColumnsFor (base : String) : List Nat :=
  tables.pkIndices base ++
    (tables.demand base).filter fun column => column ∉ tables.pkIndices base

def keyFor (base : String) (row : Row) : ChangeKey :=
  (base, encodeKeyTuple (projectRow row (tables.pkIndices base)))

def projectionFor (base : String) (row : Row) : List Cell :=
  projectRow row (tables.captureColumnsFor base)

variable (log : ChangeLog)

def mergeRecord (key : ChangeKey) (incoming : CapturedRow) : ChangeLog :=
  { log with stack := log.stack.noteOnTop mergeCaptured key incoming }

def recordInsert (base : String) (newRow : Row) : ChangeLog :=
  mergeRecord log (tables.keyFor base newRow)
    { op := .insert, oldProjection := none, newProjection :=
      some (tables.projectionFor base newRow) }

def recordDelete (base : String) (oldRow : Row) : ChangeLog :=
  mergeRecord log (tables.keyFor base oldRow)
    { op := .delete, oldProjection := some (tables.projectionFor base oldRow),
      newProjection := none }

/-- A changed key is a deletion of the old key and an insertion of the new one. -/
def recordUpdate (base : String) (oldRow newRow : Row) : ChangeLog :=
  if tables.keyFor base oldRow = tables.keyFor base newRow then
    mergeRecord log (tables.keyFor base oldRow)
      { op := .update, oldProjection := some (tables.projectionFor base oldRow),
        newProjection := some (tables.projectionFor base newRow) }
  else tables.recordInsert (tables.recordDelete log base oldRow) base newRow

/-- The projections a record reports. -/
def reported (record : CapturedRow) : List (List Cell) :=
  match record.op with
  | .insert => record.newProjection.toList
  | .delete => record.oldProjection.toList
  | .update => record.oldProjection.toList ++ record.newProjection.toList

/-- The first of the tuples with each code. -/
def distinctTuples (tuples : List (List Cell)) : List (List Cell) :=
  tuples.foldl (fun out tuple =>
    if encodeKeyTuple tuple ∈ out.map encodeKeyTuple then out else out ++ [tuple]) []

def getChangedTuples (base : String) (columnIndices : List Nat) :
    Except String (List (List Cell)) := do
  let projectionCols := tables.captureColumnsFor base
  let projectionIndices ← columnIndices.mapM fun column =>
    match projectionCols.idxOf? column with
    | some index => .ok index
    | none => .error ("getChangedTuples: column " ++ toString column ++ " on " ++ base ++
        " was not registered for capture")
  let projections := log.stack.all.flatMap fun layer =>
    (layer.filter fun entry => entry.1.1 = base).flatMap fun entry => reported entry.2
  return distinctTuples (projections.map fun projection =>
    projectionIndices.map fun index => projection.getD index default)

end LogTables

namespace ChangeLog

variable (log : ChangeLog)

def empty : ChangeLog :=
  ⟨[], ⟨[], []⟩⟩

def createSavepoint (name : String) : ChangeLog :=
  ⟨log.savepointStack ++ [name], log.stack.push⟩

/-- A savepoint that is not open is an error, and nothing happens. -/
def releaseSavepoint (name : String) : ChangeLog :=
  match findSavepoint log.savepointStack name with
  | none => log
  | some index =>
    ⟨log.savepointStack.take index,
      (NetChange.Stack.release mergeCaptured)^[log.savepointStack.length - index] log.stack⟩

/-- The savepoint itself stays, with a fresh layer. -/
def rollbackToSavepoint (name : String) : ChangeLog :=
  match findSavepoint log.savepointStack name with
  | none => log
  | some index =>
    ⟨log.savepointStack.take (index + 1),
      (NetChange.Stack.pop^[log.savepointStack.length - index] log.stack).push⟩

end ChangeLog

end Quereus.Core
