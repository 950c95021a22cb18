import Quereus.Memory.Layer

/-! # Inserts, updates and deletes on a layer

The table manager finds the structure that enforces each UNIQUE constraint, asks
it for candidate conflicts and resolves them by the conflict action, one
constraint after the other. A conflicting row that REPLACE displaces leaves the
layer as soon as it is found, before the constraints after it are checked.
-/

namespace Quereus.Memory

/-- What a write returns. -/
inductive UpdateResult where
  | ok (row replacedRow : Option Row) (evictedRows : List Row)
  | constraint (message : String) (existingRow : Row) (onConflict : ConflictResolution)
  | error (message : String)
  deriving DecidableEq

namespace UpdateResult

/-- The result of a write that did nothing. -/
def skipped : UpdateResult :=
  .ok none none []

end UpdateResult

/-- The keys the written row occupies, whose rows are not conflicts. -/
structure UniqueCheckSelf where
  key : Key
  vacated : Option Key

structure TableManager where
  schema : TableSchema
  /-- The index realizing a constraint, by the constraint's name. -/
  implicitCoveringStructures : String → Option String
  /-- Whether a live, row-time maintained view covers a constraint. -/
  linkedCoveringView : UniqueConstraint → Bool
  /-- A scan of the view's backing table when the table holds the given rows. -/
  scanBacking : UniqueConstraint → List Row → List Row
  scanBacking_perm : ∀ uc rows,
    (scanBacking uc rows).Perm (rows.filter (inScope uc.predicate))

/-- A manager of a table that no view covers. -/
def TableManager.viewless (schema : TableSchema)
    (implicitCoveringStructures : String → Option String) : TableManager where
  schema
  implicitCoveringStructures
  linkedCoveringView _ := false
  scanBacking uc rows := rows.filter (inScope uc.predicate)
  scanBacking_perm _ _ := .refl _

/-- The structure that enforces a constraint. -/
inductive CoveringStructure where
  | memoryIndex (index : MemoryIndex)
  | materializedView

namespace TableManager

variable (manager : TableManager)

variable (uc : UniqueConstraint)

def implicitIndexNameFor : String :=
  "_uc_" ++ "_".intercalate (uc.columns.map manager.schema.nameAt)

def getImplicitCoveringStructure : Option String :=
  manager.implicitCoveringStructures (uc.name.getD (manager.implicitIndexNameFor uc))

/-- A view answers for a constraint only where each enforcement collation is BINARY
or the declared one. -/
def coveringMvHonorsIndexCollation : Bool :=
  (uc.columns.zip (manager.schema.uniqueEnforcementCollations uc)).all fun (column, collation) =>
    collation = "BINARY" ∨ collation = manager.schema.collationAt column

def findRowTimeCoveringStructure : Bool :=
  manager.linkedCoveringView uc && manager.coveringMvHonorsIndexCollation uc

/-- The collation an index column enforces, or the declared one. -/
def indexCollations (spec : IndexSchema) (uc : UniqueConstraint) : List String :=
  uc.columns.zipIdx.map fun (column, position) =>
    (spec.columns[position]?.bind KeyColumn.collation).getD (manager.schema.collationAt column)

def indexCollationsMatchDeclared (spec : IndexSchema) (uc : UniqueConstraint) : Bool :=
  manager.indexCollations spec uc = uc.columns.map manager.schema.collationAt

variable (layer : Layer)

/-- The index made for a constraint, found by name. -/
def ownIndex (uc : UniqueConstraint) : Option MemoryIndex :=
  match uc.derivedFromIndex with
  | some name => layer.getSecondaryIndex name
  | none => (manager.getImplicitCoveringStructure uc).bind layer.getSecondaryIndex

/-- The first unfiltered index over a constraint's columns and collations. -/
def reusableIndex (uc : UniqueConstraint) : Option MemoryIndex :=
  if uc.predicate.isSome then none
  else
    (manager.schema.indexes.filter fun spec =>
      spec.predicate.isNone && spec.columns.map KeyColumn.index = uc.columns &&
        manager.indexCollationsMatchDeclared spec uc).findSome? fun spec =>
          layer.getSecondaryIndex spec.name

def findIndexForConstraint (uc : UniqueConstraint) : Option CoveringStructure :=
  if manager.findRowTimeCoveringStructure uc then some .materializedView
  else ((manager.ownIndex layer uc).or (manager.reusableIndex layer uc)).map .memoryIndex

def isSelfKey (self : UniqueCheckSelf) (primaryKey : Key) : Bool :=
  manager.schema.comparePrimaryKeys self.key primaryKey == .eq ||
    self.vacated.any fun vacated => manager.schema.comparePrimaryKeys vacated primaryKey == .eq

/-- The layer, the rows displaced so far and the result that ends the write, if any. -/
structure Checked where
  layer : Layer
  evicted : List Row
  result : Option UpdateResult

def uniqueFailure (existingRow : Row) (onConflict : ConflictResolution) : UpdateResult :=
  .constraint ("UNIQUE constraint failed: " ++ manager.schema.name ++ " (" ++
    ", ".intercalate (uc.columns.map manager.schema.nameAt) ++ ")") existingRow onConflict

/-- Resolve the candidates one by one; a candidate that is gone or does not conflict
is passed over. -/
def checkCandidates (uc : UniqueConstraint) (self : UniqueCheckSelf)
    (onConflict : ConflictResolution) (conflicts : Row → Bool) :
    List Key → Layer → List Row → Checked
  | [], layer, evicted => ⟨layer, evicted, none⟩
  | existingPK :: rest, layer, evicted =>
    if manager.isSelfKey self existingPK then
      checkCandidates uc self onConflict conflicts rest layer evicted
    else match layer.lookupEffectiveRow manager.schema existingPK with
      | none => checkCandidates uc self onConflict conflicts rest layer evicted
      | some row =>
        if conflicts row then
          match onConflict with
          | .ignore => ⟨layer, evicted, some .skipped⟩
          | .replace =>
            checkCandidates uc self onConflict conflicts rest
              (layer.recordDelete manager.schema existingPK row) (evicted ++ [row])
          | action => ⟨layer, evicted, some (manager.uniqueFailure uc row action)⟩
        else checkCandidates uc self onConflict conflicts rest layer evicted

def checkUniqueViaIndex (uc : UniqueConstraint) (index : MemoryIndex) (newRow : Row)
    (self : UniqueCheckSelf) (onConflict : ConflictResolution) (evicted : List Row) : Checked :=
  manager.checkCandidates uc self onConflict
    (fun row => manager.schema.agreeOn uc.columns (manager.indexCollations index.spec uc)
      newRow row &&
      index.rowMatchesPredicate row)
    (index.getPrimaryKeys manager.schema (index.keyFromRow newRow)) layer evicted

/-- Whether a view takes a backing row for the row being written. -/
def isOwnBackingRow (newSourcePk : Key) (row : Row) : Bool :=
  (manager.schema.primaryKeyDefinition.zip newSourcePk).all fun (column, cell) =>
    manager.schema.enforcementComparator column.index (column.collation.getD "BINARY")
      (cellAt row column.index) cell == .eq

/-- The candidates of a view: the backing rows that agree with the new row under the
declared collations, the new row's own key left out. -/
def lookupCoveringConflicts (backing : List Row) (newRow : Row) (newSourcePk : Key) : List Key :=
  ((manager.scanBacking uc backing).filter fun row =>
    manager.schema.agreeOn uc.columns (uc.columns.map manager.schema.collationAt) newRow row &&
      !manager.isOwnBackingRow newSourcePk row).map manager.schema.primaryKeyFromRow

/-- The view's backing table lags the layer: it still holds the rows the table had
when the write began. -/
def checkUniqueViaMaterializedView (backing : List Row) (layer : Layer) (uc : UniqueConstraint)
    (newRow : Row) (self : UniqueCheckSelf) (onConflict : ConflictResolution)
    (evicted : List Row) : Checked :=
  manager.checkCandidates uc self onConflict
    (manager.schema.agreeOn uc.columns (manager.schema.uniqueEnforcementCollations uc) newRow)
    (manager.lookupCoveringConflicts uc backing newRow self.key) layer evicted

/-- The scan ends at the first conflict, under REPLACE too. -/
def checkUniqueByScanning (uc : UniqueConstraint) (newRow : Row) (self : UniqueCheckSelf)
    (onConflict : ConflictResolution) (evicted : List Row) : Checked :=
  let conflict := layer.primary.find? fun row =>
    !manager.isSelfKey self (manager.schema.primaryKeyFromRow row) && inScope uc.predicate row &&
      manager.schema.agreeOn uc.columns (uc.columns.map manager.schema.collationAt) newRow row
  match conflict with
  | none => ⟨layer, evicted, none⟩
  | some row =>
    match onConflict with
    | .ignore => ⟨layer, evicted, some .skipped⟩
    | .replace =>
      ⟨layer.recordDelete manager.schema (manager.schema.primaryKeyFromRow row) row,
        evicted ++ [row], none⟩
    | action => ⟨layer, evicted, some (manager.uniqueFailure uc row action)⟩

/-- The action of a constraint: the statement's, else the constraint's own, else ABORT. -/
def effectiveAction (onConflict : Option ConflictResolution) (uc : UniqueConstraint) :
    ConflictResolution :=
  (onConflict <|> uc.defaultConflict).getD .abort

def checkSingleUniqueConstraint (backing : List Row) (layer : Layer) (uc : UniqueConstraint)
    (newRow : Row) (self : UniqueCheckSelf) (onConflict : Option ConflictResolution)
    (evicted : List Row) : Checked :=
  if uc.columns.any fun column => (cellAt newRow column).isNull then ⟨layer, evicted, none⟩
  else match manager.findIndexForConstraint layer uc with
    | some (.memoryIndex index) =>
      if index.rowMatchesPredicate newRow then
        manager.checkUniqueViaIndex layer uc index newRow self
          (effectiveAction onConflict uc) evicted
      else ⟨layer, evicted, none⟩
    | some .materializedView =>
      if inScope uc.predicate newRow then
        manager.checkUniqueViaMaterializedView backing layer uc newRow self
          (effectiveAction onConflict uc) evicted
      else ⟨layer, evicted, none⟩
    | none =>
      manager.checkUniqueByScanning layer uc newRow self (effectiveAction onConflict uc) evicted

def checkUniqueConstraints (backing : List Row) (newRow : Row) (self : UniqueCheckSelf)
    (onConflict : Option ConflictResolution) :
    List UniqueConstraint → Layer → List Row → Checked
  | [], layer, evicted => ⟨layer, evicted, none⟩
  | uc :: rest, layer, evicted =>
    let checked := manager.checkSingleUniqueConstraint backing layer uc newRow self
      onConflict evicted
    match checked.result with
    | some _ => checked
    | none =>
      checkUniqueConstraints backing newRow self onConflict rest checked.layer checked.evicted

/-- What ends the write when a row already has its key, unless the action is REPLACE. -/
def resolvePkConflict (onConflict : Option ConflictResolution) (existingRow : Row)
    (message : String) :
    Option UpdateResult :=
  match (onConflict <|> manager.schema.resolvePkDefaultConflict).getD .abort with
  | .replace => none
  | .ignore => some .skipped
  | action => some (.constraint message existingRow action)

def buildPrimaryKeyFromValues (keyValues : Row) : Except String Key :=
  let expected := manager.schema.primaryKeyDefinition.length
  if expected = 0 then .ok []
  else if keyValues.length ≠ expected then
    .error ("Key value count mismatch. Expected " ++ toString expected ++ ", got " ++
      toString keyValues.length ++ ".")
  else .ok keyValues

/-- Whether the row at the target key, if any, ends the write. -/
def keyConflict (existingRow : Option Row) (onConflict : Option ConflictResolution)
    (message : String) : Option UpdateResult :=
  existingRow.bind fun row => manager.resolvePkConflict onConflict row message

def performInsert (newRow : Row) (onConflict : Option ConflictResolution) : Layer × UpdateResult :=
  let primaryKey := manager.schema.primaryKeyFromRow newRow
  let existingRow := layer.lookupEffectiveRow manager.schema primaryKey
  match manager.keyConflict existingRow onConflict
      ("UNIQUE constraint failed: " ++ manager.schema.name ++ " PK.") with
  | some result => (layer, result)
  | none =>
    let checked := manager.checkUniqueConstraints layer.primary newRow ⟨primaryKey, none⟩ onConflict
      manager.schema.uniqueConstraints layer []
    match checked.result with
    | some result => (checked.layer, result)
    | none =>
      (checked.layer.recordUpsert manager.schema primaryKey newRow existingRow,
        .ok (some newRow) existingRow checked.evicted)

/-- The columns the gate of an update looks at for a partial constraint. -/
def predicateColumns (uc : UniqueConstraint) : Option (List Nat) :=
  match manager.findIndexForConstraint layer uc with
  | some (.memoryIndex index) => index.spec.predicate.map CompiledPredicate.referencedColumns
  | _ => uc.predicate.map CompiledPredicate.referencedColumns

def performUpdateWithPrimaryKeyChange (oldPrimaryKey newPrimaryKey : Key) (oldRow newRow : Row)
    (onConflict : Option ConflictResolution) : Layer × UpdateResult :=
  let existingRow := layer.lookupEffectiveRow manager.schema newPrimaryKey
  match manager.keyConflict existingRow onConflict
      ("UNIQUE constraint failed on new PK for " ++ manager.schema.name ++ ".") with
  | some result => (layer, result)
  | none =>
    let checked := manager.checkUniqueConstraints layer.primary newRow
      ⟨newPrimaryKey, some oldPrimaryKey⟩ onConflict manager.schema.uniqueConstraints layer []
    match checked.result with
    | some result => (checked.layer, result)
    | none =>
      let cleared := checked.layer.clearKey manager.schema newPrimaryKey existingRow
      ((cleared.recordDelete manager.schema oldPrimaryKey oldRow).recordUpsert manager.schema
          newPrimaryKey newRow none,
        .ok (some newRow) existingRow checked.evicted)

def performUpdateInPlace (targetPrimaryKey : Key) (oldRow newRow : Row)
    (onConflict : Option ConflictResolution) : Layer × UpdateResult :=
  let changed := uniqueColumnsChanged manager.schema.uniqueConstraints oldRow newRow
    (manager.predicateColumns layer)
  let checked := if changed then
      manager.checkUniqueConstraints layer.primary newRow ⟨targetPrimaryKey, none⟩ onConflict
        manager.schema.uniqueConstraints layer []
    else ⟨layer, [], none⟩
  match checked.result with
  | some result => (checked.layer, result)
  | none =>
    (checked.layer.recordUpsert manager.schema targetPrimaryKey newRow (some oldRow),
      .ok (some newRow) none checked.evicted)

def performUpdate (newRow : Row) (oldKeyValues : Row) (onConflict : Option ConflictResolution) :
    Layer × UpdateResult :=
  match manager.buildPrimaryKeyFromValues oldKeyValues with
  | .error message => (layer, .error message)
  | .ok targetPrimaryKey =>
    match layer.lookupEffectiveRow manager.schema targetPrimaryKey with
    | none => (layer, .skipped)
    | some oldRow =>
      let newPrimaryKey := manager.schema.primaryKeyFromRow newRow
      if manager.schema.comparePrimaryKeys targetPrimaryKey newPrimaryKey ≠ .eq then
        manager.performUpdateWithPrimaryKeyChange layer targetPrimaryKey newPrimaryKey oldRow
          newRow onConflict
      else manager.performUpdateInPlace layer targetPrimaryKey oldRow newRow onConflict

def performDelete (oldKeyValues : Row) : Layer × UpdateResult :=
  match manager.buildPrimaryKeyFromValues oldKeyValues with
  | .error message => (layer, .error message)
  | .ok targetPrimaryKey =>
    match layer.lookupEffectiveRow manager.schema targetPrimaryKey with
    | none => (layer, .skipped)
    | some oldRow =>
      (layer.recordDelete manager.schema targetPrimaryKey oldRow, .ok (some oldRow) none [])

/-- A write as a caller asks for it. -/
inductive Mutation where
  | insert (newRow : Row) (onConflict : Option ConflictResolution)
  | update (newRow oldKeyValues : Row) (onConflict : Option ConflictResolution)
  | delete (oldKeyValues : Row)

def performMutation : Mutation → Layer × UpdateResult
  | .insert newRow onConflict => manager.performInsert layer newRow onConflict
  | .update newRow oldKeyValues onConflict =>
    manager.performUpdate layer newRow oldKeyValues onConflict
  | .delete oldKeyValues => manager.performDelete layer oldKeyValues

end TableManager

end Quereus.Memory
