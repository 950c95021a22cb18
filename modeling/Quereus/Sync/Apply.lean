import Quereus.Lib.KeyedList
import Quereus.Sync.Clock
import Quereus.Value.Comparison

/-! # Applying remote changes to a table

The bookkeeping of one replicated table and the three phases in which a batch of
remote changes reaches it. Phase one resolves every change against the stored
cell versions and tombstones and then against the deletes of the same batch.
Phase two writes the surviving changes into the table's rows, in timestamp order
and one operation per row. Phase three files one record per cell and per deleted
row, each at a fresh position of the change log, and removes the cell versions
of the deleted rows.

Records are stored under the identity of a primary key, not under its spelling,
so the identity is a parameter of the table. Every function reads the schema and
table name of a change only to find these records, so the names are not part of
a change here.
-/

namespace Quereus.Sync

/-- A write of one cell. The before-image is the version its writer replaced. -/
structure ColumnChange where
  hlc : HLC
  pk : List SqlValue
  column : String
  value : SqlValue
  priorHlc : Option HLC
  priorValue : Option SqlValue
  deriving DecidableEq

/-- A delete of one row, with the row image its writer saw. -/
structure RowDeletion where
  hlc : HLC
  pk : List SqlValue
  priorRow : Option Row
  deriving DecidableEq

inductive Change where
  | column (change : ColumnChange)
  | delete (change : RowDeletion)
  deriving DecidableEq

namespace Change

def hlc : Change → HLC
  | .column change => change.hlc
  | .delete change => change.hlc

def pk : Change → List SqlValue
  | .column change => change.pk
  | .delete change => change.pk

end Change

/-- The facts of one transaction as a peer sends them. -/
structure ChangeSet where
  siteId : SiteId
  hlc : HLC
  changes : List Change

/-- The stored version of a cell. -/
structure ColumnVersion where
  hlc : HLC
  position : HLC
  value : SqlValue
  pk : List SqlValue
  prior : Option (HLC × SqlValue)
  deriving DecidableEq

structure Tombstone where
  hlc : HLC
  position : HLC
  createdAt : Nat
  pk : List SqlValue
  priorRow : Option Row
  deriving DecidableEq

/-- The key of a change-log entry: a cell of a row, or the row itself for a delete. -/
structure LogKey (ι : Type) where
  position : HLC
  identity : ι
  column : Option String
  deriving DecidableEq

/-- What one replica stores for the table. A change-log entry holds the origin
timestamp of the record it points at. -/
structure Replica (ι : Type) where
  clock : HLCManager
  deltaFloor : Option HLC
  columnVersions : List ((ι × String) × ColumnVersion)
  tombstones : List (ι × Tombstone)
  changeLog : List (LogKey ι × HLC)
  rows : List (ι × Row)
  deriving DecidableEq

/-- What a conflict resolver is told about a cell that has a local version. -/
structure ConflictContext where
  pk : List SqlValue
  column : String
  localValue : SqlValue
  localHlc : HLC
  remoteValue : SqlValue
  remoteHlc : HLC
  remotePriorHlc : Option HLC
  remotePriorValue : Option SqlValue

inductive ConflictWinner where
  | localSide
  | remoteSide
  deriving DecidableEq

/-- The replica's configuration and the table's key and column definitions. -/
structure TableContext (ι : Type) where
  siteId : SiteId
  allowResurrection : Bool
  conflictResolver : Option (ConflictContext → ConflictWinner)
  /-- The identity of a primary key under the table's keying. -/
  pkIdentity : List SqlValue → ι
  columnCount : Nat
  /-- The column of each key part. -/
  primaryKeyDefinition : List Nat
  /-- The column a name denotes, letter case ignored. -/
  columnIndexMap : String → Option Nat

variable {ι : Type} [DecidableEq ι]

namespace TableContext

def rowIdentity (ctx : TableContext ι) (change : Change) : ι :=
  ctx.pkIdentity change.pk

end TableContext

namespace Replica

def tombstone (replica : Replica ι) (row : ι) : Option Tombstone :=
  replica.tombstones.lookup row

def cell (replica : Replica ι) (row : ι) (column : String) : Option ColumnVersion :=
  replica.columnVersions.lookup (row, column)

def rowImage (replica : Replica ι) (row : ι) : Option Row :=
  replica.rows.lookup row

/-- Whether the row holds any cell version. -/
def hasCells (replica : Replica ι) (row : ι) : Bool :=
  replica.columnVersions.any fun entry => entry.1.1 = row

end Replica

/-! ## Phase one: resolution -/

inductive Outcome where
  | applied
  | skipped
  | conflict
  deriving DecidableEq

structure ResolvedChange where
  outcome : Outcome
  change : Change
  /-- For a winning delete, the columns its batch wrote past it. -/
  keepColumns : List String
  priorErasedByInBatchDelete : Bool
  editOfForgottenRow : Bool
  deriving DecidableEq

namespace ResolvedChange

def hlc (resolved : ResolvedChange) : HLC :=
  resolved.change.hlc

/-- A change that loses, with no annotation. -/
def skip (change : Change) : ResolvedChange :=
  ⟨.skipped, change, [], false, false⟩

def isAppliedDelete (resolved : ResolvedChange) : Bool :=
  resolved.outcome = .applied && match resolved.change with
    | .delete _ => true
    | .column _ => false

def isAppliedColumn (resolved : ResolvedChange) : Bool :=
  resolved.outcome = .applied && match resolved.change with
    | .delete _ => false
    | .column _ => true

end ResolvedChange

variable (ctx : TableContext ι) (replica : Replica ι)

/-- With resurrection a tombstone blocks what is not newer, without it everything. -/
def isDeletedAndBlocking (pk : List SqlValue) (incoming : HLC) : Bool :=
  match replica.tombstone (ctx.pkIdentity pk) with
  | none => false
  | some tombstone => if ctx.allowResurrection then incoming ≤ tombstone.hlc else true

/-- The writer saw an earlier version, while this replica has pruned a tombstone
and holds nothing of the row. -/
def isEditOfForgottenRow (change : ColumnChange) : Bool :=
  if ctx.allowResurrection || change.priorHlc.isNone then false
  else if replica.deltaFloor.isNone then false
  else !replica.hasCells (ctx.pkIdentity change.pk)

def remoteWins (change : ColumnChange) (version : ColumnVersion) : Bool :=
  match ctx.conflictResolver with
  | some resolver =>
    resolver ⟨change.pk, change.column, version.value, version.hlc, change.value, change.hlc,
      change.priorHlc, change.priorHlc.bind fun _ => change.priorValue⟩ = .remoteSide
  | none => version.hlc < change.hlc

def resolveChange (change : Change) : ResolvedChange :=
  if change.hlc.siteId = ctx.siteId then .skip change
  else match change with
    | .delete deletion =>
      match replica.tombstone (ctx.pkIdentity deletion.pk) with
      | some existing =>
        if deletion.hlc ≤ existing.hlc then .skip change
        else ⟨.applied, change, [], false, false⟩
      | none => ⟨.applied, change, [], false, false⟩
    | .column write =>
      let localVersion := replica.cell (ctx.pkIdentity write.pk) write.column
      if localVersion.any fun version => !remoteWins ctx write version then
        ⟨.conflict, change, [], false, false⟩
      else if isDeletedAndBlocking ctx replica write.pk write.hlc then .skip change
      else ⟨.applied, change, [], false,
        localVersion.isNone && isEditOfForgottenRow ctx replica write⟩

variable (resolved : List ResolvedChange)

/-- The latest applied delete of each row of the batch. -/
def deleteWinnersByRow : List (ι × ResolvedChange) :=
  KeyedList.latestByKey (fun entry => ctx.rowIdentity entry.change) ResolvedChange.hlc
    (resolved.filter ResolvedChange.isAppliedDelete)

/-- Whether a column change survives the latest delete of its row. -/
def survivesDelete (winner entry : ResolvedChange) : Bool :=
  ctx.allowResurrection && decide (winner.hlc < entry.hlc)

/-- The columns the batch writes past `winner`, the latest delete of its row. -/
def columnsPast (winner : ResolvedChange) : List String :=
  resolved.filterMap fun entry =>
    match entry.change with
    | .delete _ => none
    | .column write =>
      if entry.isAppliedColumn ∧ ctx.rowIdentity entry.change = ctx.rowIdentity winner.change ∧
          survivesDelete ctx winner entry then some write.column else none

/-- One change against the deletes of its batch: a delete that wins notes the
columns written past it, and a column change is dropped unless it survives. -/
def reconcileEntry (entry : ResolvedChange) : ResolvedChange :=
  if entry.outcome ≠ .applied then entry
  else match (deleteWinnersByRow ctx resolved).lookup (ctx.rowIdentity entry.change) with
    | none => entry
    | some winner =>
      match entry.change with
      | .delete _ =>
        if entry.hlc = winner.hlc then
          { entry with keepColumns := columnsPast ctx resolved winner }
        else entry
      | .column _ =>
        if survivesDelete ctx winner entry then
          { entry with priorErasedByInBatchDelete := true }
        else .skip entry.change

/-- Resolve the column changes of a batch against the deletes of the same batch.
Equally late deletes of one row repeat one fact, and only the first is filed, so
it does not matter that all of them are annotated. -/
def reconcileInBatchDeletes : List ResolvedChange :=
  resolved.map (reconcileEntry ctx resolved)

/-- The rows a batch writes a cell of without a before-image. -/
def foundedRows : List ι :=
  resolved.filterMap fun entry =>
    match entry.change with
    | .delete _ => none
    | .column write =>
      if entry.outcome = .applied ∧ write.priorHlc.isNone then
        some (ctx.rowIdentity entry.change)
      else none

def refuseEditsOfForgottenRows : List ResolvedChange :=
  resolved.map fun entry =>
    if entry.editOfForgottenRow ∧ ctx.rowIdentity entry.change ∉ foundedRows ctx resolved then
      .skip entry.change
    else entry

/-! ## Phase two: the rows -/

/-- One operation on the stored rows; an upsert is stored under the key of its row. -/
inductive ExternalRowOp where
  | upsert (row : Row)
  | delete (pk : List SqlValue)

def orderDataChangesByHLC (applied : List ResolvedChange) : List Change :=
  (applied.insertionSort fun first second => first.hlc ≤ second.hlc).map ResolvedChange.change

def groupChangesByRow (changes : List Change) : List (ι × List Change) :=
  KeyedList.groupBy ctx.rowIdentity changes

/-- Whether the changes of a row delete it, and the writes since the last delete. -/
def netEffect (changes : List Change) : Bool × List ColumnChange :=
  changes.foldl (fun (state : Bool × List ColumnChange) change =>
    match change with
    | .delete _ => (true, [])
    | .column write => (state.1, state.2 ++ [write])) (false, [])

/-- A row holding nothing but its key. -/
def keyOnlyRow (pk : List SqlValue) : Row :=
  (ctx.primaryKeyDefinition.zipIdx).foldl (fun (row : Row) (part : Nat × Nat) =>
    row.set part.1 (pk.getD part.2 .null)) (List.replicate ctx.columnCount .null)

/-- The value of a column the table does not have is discarded. -/
def setColumn (row : Row) (write : ColumnChange) : Row :=
  match ctx.columnIndexMap write.column with
  | some index => row.set index write.value
  | none => row

variable (rows : List (ι × Row))

def mergeColumnUpdates (pk : List SqlValue) (updates : List ColumnChange)
    (rowDeletedInGroup : Bool) : Row :=
  let existing := if rowDeletedInGroup then none else rows.lookup (ctx.pkIdentity pk)
  updates.foldl (setColumn ctx) (existing.getD (keyOnlyRow ctx pk))

def buildRowOp (changes : List Change) : ExternalRowOp :=
  let pk := (changes.head?.map Change.pk).getD []
  let (deleted, updates) := netEffect changes
  if deleted && updates.isEmpty then .delete pk
  else .upsert (mergeColumnUpdates ctx rows pk updates deleted)

def extractPK (row : Row) : List SqlValue :=
  ctx.primaryKeyDefinition.map fun index => row.getD index .null

def applyExternalRowOp : ExternalRowOp → List (ι × Row)
  | .delete pk => rows.filter fun entry => entry.1 ≠ ctx.pkIdentity pk
  | .upsert row => KeyedList.put rows (ctx.pkIdentity (extractPK ctx row)) row

/-- Every operation is built against the rows before the batch. -/
def writeTableRows (changes : List Change) : List (ι × Row) :=
  ((groupChangesByRow ctx changes).map fun group => buildRowOp ctx rows group.2).foldl
    (applyExternalRowOp ctx) rows

/-! ## Phase three: the records -/

/-- What a fact is filed under: a cell of its row, or the row itself for a delete. -/
def factKey (fact : ResolvedChange) : ι × Option String :=
  (ctx.rowIdentity fact.change, match fact.change with
    | .column write => some write.column
    | .delete _ => none)

/-- One fact per deleted row and per written cell: the latest of the batch. -/
def collapseInBatchRepeats : List ResolvedChange :=
  (KeyedList.latestByKey (factKey ctx) ResolvedChange.hlc
      (resolved.filter ResolvedChange.isAppliedDelete)).map Prod.snd ++
    (KeyedList.latestByKey (factKey ctx) ResolvedChange.hlc
      (resolved.filter ResolvedChange.isAppliedColumn)).map Prod.snd

def deleteEntry (log : List (LogKey ι × HLC)) (key : LogKey ι) : List (LogKey ι × HLC) :=
  log.filter fun entry => entry.1 ≠ key

/-- Replace the tombstone of a row, and its change-log entry with it. -/
def commitDeleteMetadata (now : Nat) (replica : Replica ι) (deletion : RowDeletion) (position : HLC)
    (oldTombstone : Option Tombstone) : Replica ι :=
  let row := ctx.pkIdentity deletion.pk
  let log := match oldTombstone with
    | some old => deleteEntry replica.changeLog ⟨old.position, row, none⟩
    | none => replica.changeLog
  { replica with
    tombstones := KeyedList.put replica.tombstones row
      ⟨deletion.hlc, position, now, deletion.pk, deletion.priorRow⟩
    changeLog := KeyedList.put log ⟨position, row, none⟩ deletion.hlc }

/-- Replace the version of a cell, and its change-log entry with it. -/
def commitColumnMetadata (write : ColumnChange) (position : HLC) (oldVersion : Option ColumnVersion)
    (priorErased : Bool) : Replica ι :=
  let row := ctx.pkIdentity write.pk
  let log := match oldVersion with
    | some old => deleteEntry replica.changeLog ⟨old.position, row, some write.column⟩
    | none => replica.changeLog
  let prior := if write.priorHlc.isSome && !priorErased then
      oldVersion.map fun old => (old.hlc, old.value)
    else none
  { replica with
    columnVersions := KeyedList.put replica.columnVersions (row, write.column)
      ⟨write.hlc, position, write.value, write.pk, prior⟩
    changeLog := KeyedList.put log ⟨position, row, some write.column⟩ write.hlc }

/-- File one fact. The record it replaces is the one `before` the filing began. -/
def fileFact (now : Nat) (before replica : Replica ι) (fact : ResolvedChange × HLC) : Replica ι :=
  match fact.1.change with
  | .delete deletion =>
    commitDeleteMetadata ctx now replica deletion fact.2
      (before.tombstone (ctx.pkIdentity deletion.pk))
  | .column write =>
    commitColumnMetadata ctx replica write fact.2
      (before.cell (ctx.pkIdentity write.pk) write.column) fact.1.priorErasedByInBatchDelete

/-- Give the facts the positions of one tick, from `index` on. -/
def placeFrom (tick : HLC) : Nat → List ResolvedChange →
    Except ApplyError (List (ResolvedChange × HLC))
  | _, [] => .ok []
  | index, fact :: rest => do
    let position ← positionsFrom tick index
    let placed ← placeFrom tick (index + 1) rest
    pure ((fact, position) :: placed)

/-- Give each fact its position off one tick, in origin order. -/
def placeFacts (tick : HLC) (facts : List ResolvedChange) :
    Except ApplyError (List (ResolvedChange × HLC)) :=
  placeFrom tick 0 (facts.insertionSort fun first second => first.hlc ≤ second.hlc)

def receiveWatermark (clock : HLCManager) (now : Nat) (watermark : Option HLC) :
    Except ApplyError HLCManager :=
  match watermark with
  | some stamp => clock.receive now stamp
  | none => .ok clock

def fileAtNextTick (now : Nat) (replica : Replica ι) (facts : List ResolvedChange)
    (watermark : Option HLC) : Except ApplyError (Replica ι) := do
  let merged ← receiveWatermark replica.clock now watermark
  if facts.isEmpty then pure { replica with clock := merged }
  else
    let ticked := merged.tick now
    let placed ← placeFacts (ticked.stamp ctx.siteId) facts
    pure { placed.foldl (fileFact ctx now replica) replica with clock := ticked }

/-- Remove the cell versions of a row and their change-log entries, some columns kept. -/
def deleteRowVersionsAndLogEntries (pk : List SqlValue) (keepColumns : List String) : Replica ι :=
  let row := ctx.pkIdentity pk
  let removed := replica.columnVersions.filter fun entry =>
    entry.1.1 = row && entry.1.2 ∉ keepColumns
  { replica with
    columnVersions := replica.columnVersions.filter fun entry =>
      !(entry.1.1 = row && entry.1.2 ∉ keepColumns)
    changeLog := removed.foldl (fun log entry =>
      deleteEntry log ⟨entry.2.position, row, some entry.1.2⟩) replica.changeLog }

/-- The cleanup after one filed fact: a delete removes the row's older cells. -/
def cleanupAfter (fact : ResolvedChange) : Replica ι :=
  match fact.change with
  | .delete deletion =>
    deleteRowVersionsAndLogEntries ctx replica deletion.pk fact.keepColumns
  | .column _ => replica

def commitChangeMetadata (now : Nat) (replica : Replica ι) (resolved : List ResolvedChange)
    (watermark : Option HLC) : Except ApplyError (Replica ι) := do
  let facts := collapseInBatchRepeats ctx resolved
  if facts.isEmpty ∧ watermark.isNone then pure replica
  else
    let filed ← fileAtNextTick ctx now replica facts watermark
    pure (facts.foldl (cleanupAfter ctx) filed)

/-! ## The whole apply -/

structure ApplyResult where
  applied : Nat
  skipped : Nat
  conflicts : Nat
  transactions : Nat
  deriving DecidableEq, Repr

/-- The resolutions of a batch once its changes have met each other. -/
def resolveBatch (changes : List Change) : List ResolvedChange :=
  refuseEditsOfForgottenRows ctx
    (reconcileInBatchDeletes ctx (changes.map (resolveChange ctx replica)))

def appliedChanges : List ResolvedChange :=
  resolved.filter fun entry => entry.outcome = .applied

def countOutcome (outcome : Outcome) : Nat :=
  resolved.countP fun entry => entry.outcome = outcome

/-- The changes of a batch without the echoes of this replica's own facts. -/
def foreignChanges (sets : List ChangeSet) : List Change :=
  (sets.flatMap ChangeSet.changes).filter fun change => change.hlc.siteId ≠ ctx.siteId

/-- Phase two: the surviving changes reach the rows before any record is filed. -/
def applyDataToStore (applied : List ResolvedChange) : Replica ι :=
  { replica with rows := writeTableRows ctx replica.rows (orderDataChangesByHLC applied) }

def summarize (sets : List ChangeSet) (resolved : List ResolvedChange) : ApplyResult where
  applied := countOutcome resolved .applied
  skipped := ((sets.flatMap ChangeSet.changes).length - (foreignChanges ctx sets).length) +
    countOutcome resolved .skipped
  conflicts := countOutcome resolved .conflict
  transactions := sets.length

/-- Apply change sets from a remote peer at wall time `now`. The drift bound is
checked before anything else, by the merge into the clock. -/
def applyChanges (now : Nat) (replica : Replica ι) (sets : List ChangeSet) :
    Except ApplyError (ApplyResult × Replica ι) := do
  let watermark := maxHLC (sets.map ChangeSet.hlc)
  let merged ← receiveWatermark replica.clock now watermark
  let resolved := resolveBatch ctx replica (foreignChanges ctx sets)
  let applied := appliedChanges resolved
  let written := applyDataToStore ctx { replica with clock := merged } applied
  let committed ← commitChangeMetadata ctx now written applied watermark
  pure (summarize ctx sets resolved, committed)

/-! ## Runs -/

/-- A call of `applyChanges` and the wall time it reads. -/
structure Call where
  now : Nat
  sets : List ChangeSet

namespace Call

def changes (call : Call) : List Change :=
  call.sets.flatMap ChangeSet.changes

/-- The call passes the checks the source makes: no change set lies beyond the
drift bound, and one tick has a position for every fact. -/
def Admissible (call : Call) : Prop :=
  (∀ set ∈ call.sets, set.hlc.wallTime ≤ call.now + MAX_DRIFT_MS) ∧
    call.changes.length ≤ MAX_OPSEQ + 1

end Call

/-- Make one call after another, as long as they succeed. -/
def applyAll (ctx : TableContext ι) : Replica ι → List Call → Except ApplyError (Replica ι)
  | replica, [] => .ok replica
  | replica, call :: rest => do
    let (_, after) ← applyChanges ctx call.now replica call.sets
    applyAll ctx after rest

end Quereus.Sync
