import Quereus.Lib.PagedRead
import Quereus.Sync.Apply

/-! # Serving a peer what was filed since its last pull

A replica keeps its cell versions and tombstones under the generation of their
table, and its change log lists them by filing position: the place this replica
gave each fact when it stored it. A pull reads the log from the peer's watermark,
skips the peer's own facts and the stale entries, adds the schema migrations and
the held changes to forward, groups everything by transaction and filing tick,
and replies with whole groups up to the batch size.

A record's filing position equals its origin timestamp when the source stores
none; the cell versions and tombstones here carry the resulting position.
-/

namespace Quereus.Sync.Delta

open Quereus.Sync

/-- The name a table has now. -/
structure TableName where
  schema : String
  table : String
  deriving DecidableEq

/-- A change as it travels, addressed by its table's name. -/
structure NamedChange where
  name : TableName
  change : Change
  deriving DecidableEq

inductive SchemaMigrationType where
  | create_table
  | drop_table
  | rename_table
  | add_column
  | drop_column
  | add_index
  | drop_index
  | alter_column
  deriving DecidableEq

structure SchemaMigration where
  type : SchemaMigrationType
  schema : String
  table : String
  fromTable : Option String
  columns : Option (List String)
  ddl : String
  hlc : HLC
  position : Option HLC
  schemaVersion : Nat
  deriving DecidableEq

/-- The two timestamps of a stored fact: its origin and where it is filed. -/
structure FiledAt where
  hlc : HLC
  position : HLC
  deriving DecidableEq

/-- A held change of a table this replica does not have. -/
structure QuarantineEntry where
  change : NamedChange
  receivedAt : Nat
  /-- Whether the change is offered to other peers. -/
  forwardable : Bool
  position : Option HLC
  deriving DecidableEq

/-- An entry of the change log. A `none` column stands for a delete entry. -/
structure ChangeLogEntry (ι : Type) where
  position : HLC
  hlc : HLC
  generation : String
  identity : ι
  column : Option String
  deriving DecidableEq

/-- What a replica has stored. The change log is in key order, and the migrations
are in the order `listAllMigrations` returns them. -/
structure SyncStore (ι : Type) where
  /-- The name of each table generation that is not retired. -/
  tableNames : List (String × TableName)
  columnVersions : List ((String × ι × String) × ColumnVersion)
  tombstones : List ((String × ι) × Tombstone)
  changeLog : List (ChangeLogEntry ι)
  schemaMigrations : List SchemaMigration
  quarantine : List QuarantineEntry

/-- One transaction's facts filed at one tick, as a reply carries them. -/
structure ChangeSet where
  siteId : SiteId
  transactionId : Nat × Nat × SiteId
  hlc : HLC
  changes : List NamedChange
  schemaMigrations : List SchemaMigration
  cursor : Option HLC
  deriving DecidableEq

def ChangeLogEntry.filedAt {ι : Type} (entry : ChangeLogEntry ι) : FiledAt :=
  ⟨entry.hlc, entry.position⟩

def SchemaMigration.filingPosition (migration : SchemaMigration) : HLC :=
  migration.position.getD migration.hlc

def holdPosition (entry : QuarantineEntry) : HLC :=
  entry.position.getD entry.change.change.hlc

/-- The transaction of an origin timestamp, or the tick of a position. The source
renders the three parts as one text that determines them. -/
def deterministicTxnId (base : HLC) : Nat × Nat × SiteId :=
  (base.wallTime, base.counter, base.siteId)

/-- A change paired with where the serving replica filed it. -/
structure FiledChange where
  change : NamedChange
  position : HLC
  deriving DecidableEq

/-- A fact of a reply. -/
inductive FiledFact where
  | change (filed : FiledChange)
  | migration (migration : SchemaMigration)
  deriving DecidableEq

namespace FiledFact

def filedAt : FiledFact → FiledAt
  | .change filed => ⟨filed.change.change.hlc, filed.position⟩
  | .migration record => ⟨record.hlc, record.filingPosition⟩

def change? : FiledFact → Option FiledChange
  | .change filed => some filed
  | .migration _ => none

def migration? : FiledFact → Option SchemaMigration
  | .change _ => none
  | .migration record => some record

end FiledFact

/-- A transaction and a filing tick. -/
abbrev GroupKey := (Nat × Nat × SiteId) × (Nat × Nat × SiteId)

def filingGroupKey (filed : FiledAt) : GroupKey :=
  (deterministicTxnId filed.hlc, deterministicTxnId filed.position)

structure FilingGroup where
  base : HLC
  siteId : SiteId
  changes : List FiledChange
  migrations : List SchemaMigration

/-- A group of the facts filed under one key. -/
def filingGroup (entry : GroupKey × List FiledFact) : FilingGroup where
  base := ⟨entry.1.1.1, entry.1.1.2.1, entry.1.1.2.2, 0⟩
  siteId := entry.1.1.2.2
  changes := (entry.2.filterMap FiledFact.change?).insertionSort
    fun first second => first.position ≤ second.position
  migrations := (entry.2.filterMap FiledFact.migration?).insertionSort
    fun first second => first.filingPosition ≤ second.filingPosition

namespace FilingGroup

/-- The group's greatest filing position. A group has a fact, so the base is
never taken. -/
def lastPosition (group : FilingGroup) : HLC :=
  (maxHLC (group.changes.map FiledChange.position ++
    group.migrations.map SchemaMigration.filingPosition)).getD group.base

/-- The group's greatest origin timestamp. -/
def lastOrigin (group : FilingGroup) : HLC :=
  (maxHLC (group.changes.map (fun filed => filed.change.change.hlc) ++
    group.migrations.map SchemaMigration.hlc)).getD group.base

end FilingGroup

def groupByTransactionAndTick (changes : List FiledChange) (migrations : List SchemaMigration) :
    List FilingGroup :=
  ((KeyedList.groupBy (fun fact => filingGroupKey fact.filedAt)
      (changes.map .change ++ migrations.map .migration)).map filingGroup).insertionSort
    fun first second => first.lastPosition ≤ second.lastPosition

def withoutPosition (migration : SchemaMigration) : SchemaMigration :=
  { migration with position := none }

def toChangeSet (group : FilingGroup) : ChangeSet where
  siteId := group.siteId
  transactionId := deterministicTxnId group.base
  hlc := group.lastOrigin
  changes := group.changes.map FiledChange.change
  schemaMigrations := group.migrations.map withoutPosition
  cursor := if group.lastPosition = group.lastOrigin then none else some group.lastPosition

/-- Whole groups in filing order until their changes reach the batch size. -/
def buildTransactionChangeSets (changes : List FiledChange) (migrations : List SchemaMigration)
    (batchSize : Nat) : List ChangeSet :=
  (PagedRead.takeUntil (fun group => group.changes.length) batchSize 0
    (groupByTransactionAndTick changes migrations)).map toChangeSet

section Reading

variable {ι : Type} [DecidableEq ι]

namespace SyncStore

def nameOf (store : SyncStore ι) (generation : String) : Option TableName :=
  store.tableNames.lookup generation

end SyncStore

def columnChange (name : TableName) (column : String) (version : ColumnVersion) : NamedChange :=
  ⟨name, .column
    { hlc := version.hlc, pk := version.pk, column := column, value := version.value,
      priorHlc := version.prior.map Prod.fst, priorValue := version.prior.map Prod.snd }⟩

def rowDeletion (name : TableName) (tombstone : Tombstone) : NamedChange :=
  ⟨name, .delete { hlc := tombstone.hlc, pk := tombstone.pk, priorRow := tombstone.priorRow }⟩

variable (store : SyncStore ι)

/-- The live change an entry points at. An entry is stale when its table is
retired, its record is gone, or the record is filed at another position. -/
def resolveLogEntry (entry : ChangeLogEntry ι) : Option NamedChange := do
  let name ← store.nameOf entry.generation
  match entry.column with
  | some column =>
    let version ← store.columnVersions.lookup (entry.generation, entry.identity, column)
    if version.position = entry.position then some (columnChange name column version) else none
  | none =>
    let tombstone ← store.tombstones.lookup (entry.generation, entry.identity)
    if tombstone.position = entry.position then some (rowDeletion name tombstone) else none

/-- The counters of a log scan: the changes of the whole groups passed, the group
being read, and its changes so far. -/
structure ScanState where
  completedChangeCount : Nat
  currentGroup : Option GroupKey
  currentGroupChangeCount : Nat

/-- Move to the group of the next wanted entry; `none` stops the scan. -/
def ScanState.enter (state : ScanState) (batchSize : Nat) (group : GroupKey) : Option ScanState :=
  match state.currentGroup with
  | none => some { state with currentGroup := some group }
  | some current =>
    if group = current then some state
    else if batchSize ≤ state.completedChangeCount + state.currentGroupChangeCount then none
    else some ⟨state.completedChangeCount + state.currentGroupChangeCount, some group, 0⟩

def ScanState.countChange (state : ScanState) : ScanState :=
  { state with currentGroupChangeCount := state.currentGroupChangeCount + 1 }

/-- The loop of `collectChangesSince`. -/
def scanLog (store : SyncStore ι) (batchSize : Nat) (isWantedOrigin : HLC → Bool) :
    ScanState → List (ChangeLogEntry ι) → List FiledChange
  | _, [] => []
  | state, entry :: rest =>
    if isWantedOrigin entry.hlc then
      match state.enter batchSize (filingGroupKey entry.filedAt) with
      | none => []
      | some entered =>
        match resolveLogEntry store entry with
        | none => scanLog store batchSize isWantedOrigin entered rest
        | some change =>
          ⟨change, entry.position⟩ ::
            scanLog store batchSize isWantedOrigin entered.countChange rest
    else scanLog store batchSize isWantedOrigin state rest

def collectChangesSince (batchSize : Nat) (logEntries : List (ChangeLogEntry ι))
    (isWantedOrigin : HLC → Bool) : List FiledChange :=
  scanLog store batchSize isWantedOrigin ⟨0, none, 0⟩ logEntries

/-- Every live record not written by the peer, at its own position. -/
def collectAllChanges (notFromPeer : HLC → Bool) : List FiledChange :=
  (store.columnVersions.filterMap fun entry =>
    (store.nameOf entry.1.1).bind fun name =>
      if notFromPeer entry.2.hlc then
        some ⟨columnChange name entry.1.2.2 entry.2, entry.2.position⟩
      else none) ++
  store.tombstones.filterMap fun entry =>
    (store.nameOf entry.1.1).bind fun name =>
      if notFromPeer entry.2.hlc then some ⟨rowDeletion name entry.2, entry.2.position⟩ else none

def collectSchemaMigrations (isWanted : SchemaMigration → Bool) : List SchemaMigration :=
  store.schemaMigrations.filter isWanted

/-- The entries of the change log filed after a position. -/
def changeLogSince (since : HLC) : List (ChangeLogEntry ι) :=
  store.changeLog.filter fun entry => since < entry.position

def collectForwardableChanges (notFromPeer : HLC → Bool) (since : Option HLC) : List FiledChange :=
  ((store.quarantine.filter QuarantineEntry.forwardable).filter fun entry =>
    notFromPeer entry.change.change.hlc && decide (PagedRead.After since (holdPosition entry))).map
      fun entry => ⟨entry.change, holdPosition entry⟩

def notFromPeer (peerSiteId : SiteId) (origin : HLC) : Bool :=
  origin.siteId != peerSiteId

def getChangesSince (batchSize : Nat) (peerSiteId : SiteId) (since : Option HLC) : List ChangeSet :=
  let wanted := notFromPeer peerSiteId
  let dataChanges := match since with
    | some position => collectChangesSince store batchSize (changeLogSince store position) wanted
    | none => collectAllChanges store wanted
  let migrations := collectSchemaMigrations store fun migration =>
    wanted migration.hlc && decide (PagedRead.After since migration.filingPosition)
  buildTransactionChangeSets (dataChanges ++ collectForwardableChanges store wanted since)
    migrations batchSize

/-- The position a reply moves its consumer to. -/
def replyWatermark (changeSets : List ChangeSet) : Option HLC :=
  maxHLC (changeSets.map fun set => set.cursor.getD set.hlc)

/-- A peer that pulls until a reply is empty, each time from the watermark of the
reply before. -/
def pullChanges (batchSize : Nat) (peerSiteId : SiteId) (fuel : Nat) (since : Option HLC) :
    Option (List (List ChangeSet)) :=
  PagedRead.drain (getChangesSince store batchSize peerSiteId) replyWatermark fuel since

end Reading

end Quereus.Sync.Delta
