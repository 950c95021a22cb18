import Quereus.Memory.Records

/-! # Connections and the layer chain

A connection reads a frozen layer and writes to a pending layer over it, which is
made at the first write. A savepoint freezes the pending layer and reads on from
there; a commit publishes the pending layer as the head of the table, or replays
its log over the head when another connection has moved it.

Layers are compared by identity in the source, here by `layerId`. A frozen layer
is never written again, so a reference to it is the layer itself with its parent.
-/

namespace Quereus.Memory

/-- A logged write, the source of a replay. -/
inductive OwnWrite where
  | upsert (primaryKey : Key) (newRow : Row)
  | delete (primaryKey : Key)

/-- A change as listeners hear of it. -/
inductive PendingChange where
  | insert (newRow : Row)
  | update (oldRow newRow : Row)
  | delete (oldRow : Row)

def Record.ownWrite : Record → OwnWrite
  | .upsert primaryKey newRow _ => .upsert primaryKey newRow
  | .delete primaryKey _ => .delete primaryKey

def Record.pendingChange : Record → PendingChange
  | .upsert _ newRow (some oldRow) => .update oldRow newRow
  | .upsert _ newRow none => .insert newRow
  | .delete _ oldRow => .delete oldRow

/-- A transaction layer without its parent. -/
structure TransactionData where
  layerId : Nat
  contents : Layer
  ownWrites : List OwnWrite
  /-- Missing when change tracking is off. -/
  pendingChanges : Option (List PendingChange)
  isCommitted : Bool

/-- A layer together with the layers below it. -/
inductive LayerRef where
  | base (contents : Layer)
  | transaction (data : TransactionData) (parentLayer : LayerRef)

namespace LayerRef

/-- The identity of a layer; that of the base is 0. -/
def layerId : LayerRef → Nat
  | .base _ => 0
  | .transaction data _ => data.layerId

def contents : LayerRef → Layer
  | .base contents => contents
  | .transaction data _ => data.contents

def getParent : LayerRef → Option LayerRef
  | .base _ => none
  | .transaction _ parentLayer => some parentLayer

/-- Whether a layer is this one or one below it. -/
def chainContains : LayerRef → LayerRef → Bool
  | .base contents, layer => (base contents).layerId = layer.layerId
  | .transaction data parentLayer, layer =>
    data.layerId = layer.layerId || parentLayer.chainContains layer

/-- The identities of a layer and the layers below it. -/
def layerChainSet : LayerRef → List Nat
  | .base contents => [(base contents).layerId]
  | .transaction data parentLayer => data.layerId :: parentLayer.layerChainSet

/-- The first layer on the way down whose identity is in the set. -/
def firstIn : LayerRef → List Nat → Option LayerRef
  | .base contents, layerIds =>
    if (base contents).layerId ∈ layerIds then some (.base contents) else none
  | .transaction data parentLayer, layerIds =>
    if data.layerId ∈ layerIds then some (.transaction data parentLayer)
    else parentLayer.firstIn layerIds

/-- The changes of the layers above a boundary, oldest layer first. -/
def collectPendingChanges : LayerRef → LayerRef → List PendingChange
  | .base _, _ => []
  | .transaction data parentLayer, boundary =>
    if data.layerId = boundary.layerId then []
    else parentLayer.collectPendingChanges boundary ++ data.pendingChanges.getD []

/-- The logged writes of the layers above a boundary, oldest layer first. -/
def ownWritesAbove : LayerRef → LayerRef → List OwnWrite
  | .base _, _ => []
  | .transaction data parentLayer, boundary =>
    if data.layerId = boundary.layerId then []
    else parentLayer.ownWritesAbove boundary ++ data.ownWrites

/-- Mark a layer as no longer writable. -/
def freeze : LayerRef → LayerRef
  | .base contents => .base contents
  | .transaction data parentLayer => .transaction { data with isCommitted := true } parentLayer

end LayerRef

/-- Make one record in a transaction layer. -/
def TransactionData.record (schema : TableSchema) (data : TransactionData) (record : Record) :
    TransactionData :=
  { data with
    contents := data.contents.record schema record
    ownWrites := data.ownWrites ++ [record.ownWrite]
    pendingChanges := data.pendingChanges.map (· ++ [record.pendingChange]) }

structure SavepointEntry where
  /-- The frozen pending layer, or none if there was no pending layer. -/
  snapshot : Option LayerRef
  readLayer : LayerRef
  readSnapshot : Option LayerRef

structure MemoryTableConnection where
  readLayer : LayerRef
  pendingTransactionLayer : Option LayerRef
  explicitTransaction : Bool
  savepointStack : List SavepointEntry
  readSnapshot : Option LayerRef

namespace MemoryTableConnection

/-- A connection that has done nothing yet. -/
def connect (initialReadLayer : LayerRef) : MemoryTableConnection where
  readLayer := initialReadLayer
  pendingTransactionLayer := none
  explicitTransaction := false
  savepointStack := []
  readSnapshot := none

variable (connection : MemoryTableConnection)

/-- The layer queries read. -/
def startLayer : LayerRef :=
  connection.pendingTransactionLayer.getD connection.readLayer

def clearSavepoints : MemoryTableConnection :=
  { connection with savepointStack := [], readSnapshot := none }

def clearTransactionState : MemoryTableConnection :=
  { connection with savepointStack := [], readSnapshot := none, explicitTransaction := false }

def beginTransaction : MemoryTableConnection :=
  { connection with explicitTransaction := true }

def createSavepoint : MemoryTableConnection :=
  match connection.pendingTransactionLayer with
  | some pending =>
    let snapshot := pending.freeze
    { readLayer := snapshot
      pendingTransactionLayer := none
      explicitTransaction := true
      savepointStack := connection.savepointStack ++
        [⟨some snapshot, connection.readLayer, connection.readSnapshot⟩]
      readSnapshot := some snapshot }
  | none =>
    { connection with
      explicitTransaction := true
      savepointStack := connection.savepointStack ++
        [⟨none, connection.readLayer, connection.readSnapshot⟩] }

def releaseSavepoint (targetDepth : Nat) : MemoryTableConnection :=
  if targetDepth > connection.savepointStack.length then connection
  else { connection with savepointStack := connection.savepointStack.take targetDepth }

def rollbackToSavepoint (targetDepth : Nat) : MemoryTableConnection :=
  match connection.savepointStack[targetDepth]? with
  | none => connection
  | some entry =>
    let kept := connection.savepointStack.take (targetDepth + 1)
    match entry.snapshot with
    | none =>
      { connection with
        readLayer := entry.readLayer
        pendingTransactionLayer := none
        readSnapshot := entry.readSnapshot
        savepointStack := kept }
    | some snapshot =>
      { connection with
        readLayer := snapshot
        pendingTransactionLayer := none
        readSnapshot := some snapshot
        savepointStack := kept }

/-- Give up the transaction and read the head again. -/
def rollback (currentCommittedLayer : LayerRef) : MemoryTableConnection :=
  { connection with
    readLayer := currentCommittedLayer
    pendingTransactionLayer := none }.clearTransactionState

end MemoryTableConnection

/-- What transactions change of the table manager. -/
structure MemoryTable where
  currentCommittedLayer : LayerRef
  nextLayerId : Nat

/-- A change event as it is delivered. -/
structure DataChangeEvent where
  change : PendingChange
  key : Option Key

/-- What is fixed while transactions run: the manager and whether anyone listens. -/
structure TransactionContext where
  manager : TableManager
  hasDataListeners : Bool

namespace TransactionContext

variable (context : TransactionContext)

variable (table : MemoryTable)

/-- A new layer over a parent, with nothing of its own. -/
def newTransactionLayer (parent : LayerRef) : MemoryTable × LayerRef :=
  ({ table with nextLayerId := table.nextLayerId + 1 },
    .transaction ⟨table.nextLayerId, parent.contents, [],
      if context.hasDataListeners then some [] else none, false⟩ parent)

variable (connection : MemoryTableConnection)

def ensureTransactionLayer : MemoryTable × LayerRef :=
  match connection.pendingTransactionLayer with
  | some pending => (table, pending)
  | none => context.newTransactionLayer table connection.readLayer

/-- Write to a pending layer. A frozen layer refuses. -/
def writeLayer (layer : LayerRef) (mutation : TableManager.Mutation) : LayerRef × UpdateResult :=
  match layer with
  | .base contents => (.base contents, .error "Cannot modify a committed layer")
  | .transaction data parentLayer =>
    let records := context.manager.mutationRecords data.contents mutation
    if data.isCommitted && !records.isEmpty then
      (.transaction data parentLayer, .error "Cannot modify a committed layer")
    else
      (.transaction (records.foldl (TransactionData.record context.manager.schema) data)
        parentLayer,
        (context.manager.performMutation data.contents mutation).2)

/-- The key of the row a change leaves, or of the row it removes. -/
def eventKeyFromImage (change : PendingChange) : Option Key :=
  let image := match change with
    | .insert newRow => newRow
    | .update _ newRow => newRow
    | .delete oldRow => oldRow
  if context.manager.schema.primaryKeyDefinition.all fun column => column.index < image.length then
    some (context.manager.schema.primaryKeyFromRow image)
  else none

def eventOf (change : PendingChange) : DataChangeEvent :=
  ⟨change, context.eventKeyFromImage change⟩

/-- Replay a logged write over a layer that may hold other rows than the one it was
made on. -/
def replayOwnWrite (data : TransactionData) (write : OwnWrite) : TransactionData :=
  match write with
  | .upsert primaryKey newRow =>
    data.record context.manager.schema (.upsert primaryKey newRow
      (data.contents.lookupEffectiveRow context.manager.schema primaryKey))
  | .delete primaryKey =>
    match data.contents.lookupEffectiveRow context.manager.schema primaryKey with
    | some effective => data.record context.manager.schema (.delete primaryKey effective)
    | none => data

def rebaseLayerOntoHead (pending forkPoint : LayerRef) : MemoryTable × LayerRef :=
  let head := table.currentCommittedLayer
  let fresh : TransactionData := ⟨table.nextLayerId, head.contents, [],
    if context.hasDataListeners then some [] else none, false⟩
  ({ table with nextLayerId := table.nextLayerId + 1 },
    (LayerRef.transaction ((pending.ownWritesAbove forkPoint).foldl context.replayOwnWrite fresh)
      head).freeze)

/-- What a commit leaves and delivers; an error means that it was refused. -/
structure CommitOutcome where
  table : MemoryTable
  connection : MemoryTableConnection
  events : List DataChangeEvent
  error : Option String

/-- Make a layer the head and deliver its changes. -/
def publish (layer : LayerRef) (changes : List PendingChange) : CommitOutcome where
  table := { table with currentCommittedLayer := layer }
  connection :=
    { connection.clearSavepoints with readLayer := layer, pendingTransactionLayer := none }
  events := if context.hasDataListeners then changes.map context.eventOf else []
  error := none

/-- The layer a commit publishes: the pending one, or a wrapper around a savepoint
snapshot that lies over the head. -/
def layerToCommit : MemoryTable × Option LayerRef :=
  match connection.pendingTransactionLayer with
  | some pending => (table, some pending)
  | none =>
    if connection.readLayer.layerId ≠ table.currentCommittedLayer.layerId ∧
        connection.readLayer.getParent.isSome ∧
        connection.readLayer.chainContains table.currentCommittedLayer then
      let (table, layer) := context.newTransactionLayer table connection.readLayer
      (table, some layer)
    else (table, none)

def commitTransaction (inCoordinatedCommit : Bool) (table : MemoryTable)
    (connection : MemoryTableConnection) : CommitOutcome :=
  match context.layerToCommit table connection with
  | (table, none) =>
    ⟨table, { connection with readLayer := table.currentCommittedLayer }, [], none⟩
  | (table, some pending) =>
    let head := table.currentCommittedLayer
    if pending.chainContains head then
      context.publish table connection pending.freeze (pending.collectPendingChanges head)
    else match pending.getParent.bind (·.firstIn head.layerChainSet) with
      | some forkPoint =>
        let (table, rebased) := context.rebaseLayerOntoHead table pending forkPoint
        context.publish table connection rebased (pending.collectPendingChanges forkPoint)
      | none =>
        if inCoordinatedCommit then
          context.publish table connection pending.freeze (pending.collectPendingChanges head)
        else
          ⟨table, { connection.clearSavepoints with pendingTransactionLayer := none }, [],
            some ("Commit failed: concurrent update on table " ++ context.manager.schema.name ++
              ". Retry.")⟩

/-- What a caller can ask of a connection. A write is told whether the database is in
autocommit mode, a commit whether other connections commit with it. -/
inductive ConnectionStep where
  | begin
  | write (mutation : TableManager.Mutation) (autocommit : Bool)
  | createSavepoint
  | releaseSavepoint (targetDepth : Nat)
  | rollbackToSavepoint (targetDepth : Nat)
  | commit (inCoordinatedCommit : Bool)
  | rollback

def commit (inCoordinatedCommit : Bool) (table : MemoryTable) (connection : MemoryTableConnection) :
    CommitOutcome :=
  if connection.pendingTransactionLayer.isSome ∨
      connection.readLayer.layerId ≠ table.currentCommittedLayer.layerId then
    let outcome := context.commitTransaction inCoordinatedCommit table connection
    match outcome.error with
    | some _ => outcome
    | none => { outcome with connection := outcome.connection.clearTransactionState }
  else ⟨table, connection.clearTransactionState, [], none⟩

/-- A write through a connection. Outside an explicit transaction it commits at once,
unless it throws. -/
def performMutation (mutation : TableManager.Mutation) (autocommit : Bool) :
    MemoryTable × MemoryTableConnection :=
  let (table, pending) := context.ensureTransactionLayer table connection
  let (written, result) := context.writeLayer pending mutation
  let connection := { connection with pendingTransactionLayer := some written }
  match result with
  | .error _ => (table, connection)
  | _ =>
    if !connection.explicitTransaction && autocommit then
      let outcome := context.commitTransaction false table connection
      (outcome.table, outcome.connection)
    else (table, connection)

def step : ConnectionStep → MemoryTable × MemoryTableConnection
  | .begin => (table, connection.beginTransaction)
  | .write mutation autocommit => context.performMutation table connection mutation autocommit
  | .createSavepoint => (table, connection.createSavepoint)
  | .releaseSavepoint targetDepth => (table, connection.releaseSavepoint targetDepth)
  | .rollbackToSavepoint targetDepth => (table, connection.rollbackToSavepoint targetDepth)
  | .commit inCoordinatedCommit =>
    let outcome := context.commit inCoordinatedCommit table connection
    (outcome.table, outcome.connection)
  | .rollback => (table, connection.rollback table.currentCommittedLayer)

end TransactionContext

end Quereus.Memory
