import Quereus.Lib.SnapshotMachine
import Quereus.Memory.LayerChain

/-! # A connection is a stack of snapshots

As long as no other connection writes, every layer a connection can reach lies over
the head of the table, and what a savepoint gives back is the contents it saw. The
run of the connection then follows a machine that copies the contents at every
savepoint.
-/

namespace Quereus.Memory

open List LayerRef

/-- The contents a rollback to a savepoint gives back. -/
def SavepointEntry.restored (entry : SavepointEntry) : LayerRef :=
  entry.snapshot.getD entry.readLayer

/-- A table with one writer, as a stack of snapshots of its contents. -/
structure ReferenceTable where
  machine : SnapshotMachine Layer
  explicitTransaction : Bool

namespace ReferenceTable

def idle (contents : Layer) : ReferenceTable :=
  ⟨.idle contents, false⟩

def write (manager : TableManager) (reference : ReferenceTable) (mutation : TableManager.Mutation)
    (autocommit : Bool) : ReferenceTable :=
  let (contents, result) := manager.performMutation reference.machine.current mutation
  let machine := reference.machine.write fun _ => contents
  match result with
  | .error _ => { reference with machine }
  | _ =>
    if !reference.explicitTransaction && autocommit then
      { reference with machine := machine.commit }
    else { reference with machine }

def step (manager : TableManager) (reference : ReferenceTable) :
    TransactionContext.ConnectionStep → ReferenceTable
  | .begin => { reference with explicitTransaction := true }
  | .write mutation autocommit => reference.write manager mutation autocommit
  | .createSavepoint => ⟨reference.machine.save, true⟩
  | .releaseSavepoint targetDepth =>
    { reference with machine := reference.machine.release targetDepth }
  | .rollbackToSavepoint targetDepth =>
    { reference with machine := reference.machine.restore targetDepth }
  | .commit _ => ⟨reference.machine.commit, false⟩
  | .rollback => ⟨reference.machine.rollback, false⟩

def run (manager : TableManager) (reference : ReferenceTable)
    (steps : List TransactionContext.ConnectionStep) : ReferenceTable :=
  steps.foldl (step manager) reference

end ReferenceTable

/-- A layer this table has made, over its head. -/
structure MemoryTable.Reaches (table : MemoryTable) (layer : LayerRef) : Prop where
  above : table.currentCommittedLayer.Above layer
  used : layer.layerId < table.nextLayerId

/-- A layer that takes writes, directly over another one. -/
structure LayerRef.OpenOver (parentLayer : LayerRef) (nextLayerId : Nat)
    (layer : LayerRef) : Prop where
  shape : ∃ data, layer = .transaction data parentLayer ∧ data.isCommitted = false
  newer : parentLayer.layerId < layer.layerId
  used : layer.layerId < nextLayerId

/-- The connection shows what the machine shows, and so does every savepoint. -/
structure Follows (table : MemoryTable) (connection : MemoryTableConnection)
    (reference : ReferenceTable) : Prop where
  committed : table.currentCommittedLayer.contents = reference.machine.committed
  current : connection.startLayer.contents = reference.machine.current
  snapshots : connection.savepointStack.map (·.restored.contents) = reference.machine.snapshots
  explicitTransaction : connection.explicitTransaction = reference.explicitTransaction
  reads : table.Reaches connection.readLayer
  restores : ∀ entry ∈ connection.savepointStack, table.Reaches entry.restored
  writes : ∀ pending ∈ connection.pendingTransactionLayer,
    connection.readLayer.OpenOver table.nextLayerId pending

namespace TransactionContext

variable {context : TransactionContext} {table : MemoryTable} {connection : MemoryTableConnection}
  {reference : ReferenceTable}

def run (context : TransactionContext) (table : MemoryTable) (connection : MemoryTableConnection)
    (steps : List ConnectionStep) : MemoryTable × MemoryTableConnection :=
  steps.foldl (fun state step => context.step state.1 state.2 step) (table, connection)

variable {pending layer : LayerRef}

/-- A write finds an open layer with the visible contents. -/
theorem ensureTransactionLayer_spec (context : TransactionContext)
    (follows : Follows table connection reference) :
    ∃ nextLayerId pending,
      context.ensureTransactionLayer table connection = ({ table with nextLayerId }, pending) ∧
        table.nextLayerId ≤ nextLayerId ∧ connection.readLayer.OpenOver nextLayerId pending ∧
        pending.contents = connection.startLayer.contents := by
  obtain ⟨readLayer, _ | pending, explicitTransaction, savepointStack, readSnapshot⟩ := connection
  · exact ⟨_, _, rfl, Nat.le_succ _, ⟨⟨_, rfl, rfl⟩, follows.reads.used, Nat.lt_succ_self _⟩, rfl⟩
  · exact ⟨table.nextLayerId, pending, rfl, le_rfl, follows.writes pending rfl, rfl⟩

/-- An open layer takes a write as the table manager makes it. -/
theorem writeLayer_spec (context : TransactionContext) {parentLayer : LayerRef} {nextLayerId : Nat}
    (openLayer : parentLayer.OpenOver nextLayerId layer) (mutation : TableManager.Mutation) :
    ∃ written, context.writeLayer layer mutation =
        (written, (context.manager.performMutation layer.contents mutation).2) ∧
      parentLayer.OpenOver nextLayerId written ∧
      written.contents = (context.manager.performMutation layer.contents mutation).1 := by
  obtain ⟨⟨data, rfl, writable⟩, newer, used⟩ := openLayer
  refine ⟨.transaction ((context.manager.mutationRecords data.contents mutation).foldl
    (TransactionData.record context.manager.schema) data) parentLayer, ?_,
      ⟨⟨_, rfl, ?_⟩, ?_, ?_⟩, ?_⟩
  · simp only [writeLayer, writable, Bool.false_and, Bool.false_eq_true, ↓reduceIte]
    rfl
  · rw [TransactionData.foldl_record_isCommitted, writable]
  · rwa [layerId_transaction, TransactionData.foldl_record_layerId]
  · rwa [layerId_transaction, TransactionData.foldl_record_layerId]
  · exact (TransactionData.foldl_record_contents ..).trans
      (TableManager.performMutation_eq_replay ..).symm

/-- A layer over the head is published as it is. -/
theorem commitTransaction_of_chainContains {inCoordinatedCommit : Bool} {table' : MemoryTable}
    (chosen : context.layerToCommit table connection = (table', some layer))
    (contains : layer.chainContains table'.currentCommittedLayer = true) :
    context.commitTransaction inCoordinatedCommit table connection =
      context.publish table' connection layer.freeze
        (layer.collectPendingChanges table'.currentCommittedLayer) := by
  simp only [commitTransaction, chosen, contains, ↓reduceIte]

/-- The head and the connection right after a layer with the visible contents was
published. -/
theorem follows_publish {changes : List PendingChange} (used : layer.layerId < table.nextLayerId)
    (explicitTransaction : Bool) :
    Follows (context.publish table connection layer.freeze changes).table
      { (context.publish table connection layer.freeze changes).connection with
        explicitTransaction }
      ⟨.idle layer.contents, explicitTransaction⟩ where
  committed := contents_freeze
  current := contents_freeze
  snapshots := rfl
  explicitTransaction := rfl
  reads := ⟨.head, layerId_freeze.trans_lt used⟩
  restores := forall_mem_nil _
  writes := nofun

variable (follows : Follows table connection reference)

include follows

/-- A new savepoint reads on from the layer it keeps, which shows what was visible. -/
theorem createSavepoint_spec :
    ∃ entry readSnapshot, connection.createSavepoint =
        ⟨entry.restored, none, true, connection.savepointStack ++ [entry], readSnapshot⟩ ∧
      entry.restored.contents = connection.startLayer.contents ∧ table.Reaches entry.restored := by
  obtain ⟨readLayer, _ | pending, explicitTransaction, savepointStack, readSnapshot⟩ := connection
  · exact ⟨⟨none, readLayer, readSnapshot⟩, readSnapshot, rfl, rfl, follows.reads⟩
  · obtain ⟨⟨data, shape, -⟩, newer, used⟩ := follows.writes pending rfl
    change pending = .transaction data readLayer at shape
    subst shape
    exact ⟨⟨some (transaction data readLayer).freeze, readLayer, readSnapshot⟩, _, rfl, rfl,
      .layered follows.reads.above newer, used⟩

theorem follows_createSavepoint :
    Follows table connection.createSavepoint ⟨reference.machine.save, true⟩ := by
  obtain ⟨entry, readSnapshot, created, shown, reached⟩ := createSavepoint_spec follows
  have current := shown.trans follows.current
  rw [created]
  refine ⟨follows.committed, current, ?_, rfl, reached, ?_, nofun⟩
  · simp only [map_append, map_cons, map_nil, follows.snapshots, current, SnapshotMachine.save]
  · exact forall_mem_append.mpr ⟨follows.restores, forall_mem_singleton.mpr reached⟩

omit follows

theorem releaseSavepoint_eq (connection : MemoryTableConnection) (targetDepth : Nat) :
    connection.releaseSavepoint targetDepth =
      { connection with savepointStack := connection.savepointStack.take targetDepth } := by
  unfold MemoryTableConnection.releaseSavepoint
  split
  · next out => rw [take_of_length_le (Nat.le_of_lt out)]
  · rfl

include follows in
theorem follows_releaseSavepoint (targetDepth : Nat) :
    Follows table (connection.releaseSavepoint targetDepth)
      { reference with machine := reference.machine.release targetDepth } := by
  rw [releaseSavepoint_eq]
  exact
    { follows with
      snapshots := by rw [map_take, follows.snapshots]; rfl
      restores := fun entry member => follows.restores entry (mem_of_mem_take member) }

/-- Rolling back to a savepoint reads on from the layer it kept. -/
theorem rollbackToSavepoint_of_getElem? {targetDepth : Nat} {entry : SavepointEntry}
    (found : connection.savepointStack[targetDepth]? = some entry) :
    ∃ readSnapshot, connection.rollbackToSavepoint targetDepth =
      { connection with
        readLayer := entry.restored
        pendingTransactionLayer := none
        readSnapshot
        savepointStack := connection.savepointStack.take (targetDepth + 1) } := by
  simp only [MemoryTableConnection.rollbackToSavepoint, found, SavepointEntry.restored]
  cases entry.snapshot <;> exact ⟨_, rfl⟩

include follows

theorem follows_rollbackToSavepoint (targetDepth : Nat) :
    Follows table (connection.rollbackToSavepoint targetDepth)
      { reference with machine := reference.machine.restore targetDepth } := by
  unfold SnapshotMachine.restore
  rw [← follows.snapshots, getElem?_map]
  cases found : connection.savepointStack[targetDepth]? with
  | none =>
    simp only [MemoryTableConnection.rollbackToSavepoint, found]
    exact follows
  | some entry =>
    obtain ⟨readSnapshot, restored⟩ := rollbackToSavepoint_of_getElem? found
    rw [restored]
    exact
      { follows with
        current := rfl
        snapshots := map_take
        reads := follows.restores entry (mem_of_getElem? found)
        restores := fun other member => follows.restores other (mem_of_mem_take member)
        writes := nofun }

theorem follows_rollback :
    Follows table (connection.rollback table.currentCommittedLayer)
      ⟨reference.machine.rollback, false⟩ where
  committed := follows.committed
  current := follows.committed
  snapshots := rfl
  explicitTransaction := rfl
  reads := ⟨.head, follows.reads.above.le_layerId.trans_lt follows.reads.used⟩
  restores := forall_mem_nil _
  writes := nofun

omit follows

/-- A commit publishes the pending layer, or a wrapper around the layer of a savepoint. -/
theorem commitTransaction_publishes (context : TransactionContext)
    (follows : Follows table connection reference)
    (changed : connection.pendingTransactionLayer.isSome ∨
      connection.readLayer.layerId ≠ table.currentCommittedLayer.layerId)
    (inCoordinatedCommit : Bool) :
    ∃ (nextLayerId : Nat) (layer : LayerRef) (changes : List PendingChange),
      context.commitTransaction inCoordinatedCommit table connection =
        context.publish { table with nextLayerId } connection layer.freeze changes ∧
      layer.contents = reference.machine.current ∧ layer.layerId < nextLayerId := by
  obtain ⟨readLayer, _ | pending, explicitTransaction, savepointStack, readSnapshot⟩ := connection
  · have other := changed.resolve_left nofun
    have reached := follows.reads.above
    exact ⟨_, _, _, commitTransaction_of_chainContains
      (if_pos ⟨other, reached.getParent_isSome other, reached.chainContains⟩)
      (LayerRef.Above.layered reached follows.reads.used).chainContains, follows.current,
      Nat.lt_succ_self _⟩
  · obtain ⟨⟨data, shape, -⟩, newer, used⟩ := follows.writes pending rfl
    change pending = .transaction data readLayer at shape
    subst shape
    exact ⟨_, _, _, commitTransaction_of_chainContains rfl
      (LayerRef.Above.layered follows.reads.above newer).chainContains, follows.current, used⟩

include follows

theorem follows_commit (inCoordinatedCommit : Bool) :
    let outcome := context.commit inCoordinatedCommit table connection
    Follows outcome.table outcome.connection ⟨reference.machine.commit, false⟩ := by
  unfold commit
  split
  · next changed =>
    obtain ⟨nextLayerId, layer, changes, published, shown, used⟩ :=
      commitTransaction_publishes context follows changed inCoordinatedCommit
    simp only [published, SnapshotMachine.commit, ← shown]
    exact follows_publish used false
  · next unchanged =>
    -- Nothing was written: the connection still reads the head.
    obtain ⟨readLayer, _ | pending, explicitTransaction, savepointStack, readSnapshot⟩ := connection
    · have reads := follows.reads.above.eq_head (of_not_not (not_or.mp unchanged).2)
      exact ⟨(congrArg contents reads).symm.trans follows.current, follows.current, rfl, rfl,
        follows.reads, forall_mem_nil _, nofun⟩
    · exact absurd (.inl rfl) unchanged

/-- The open layer replaced by one with other contents. -/
theorem follows_pending {nextLayerId : Nat} (older : table.nextLayerId ≤ nextLayerId)
    (openLayer : connection.readLayer.OpenOver nextLayerId pending) :
    Follows { table with nextLayerId } { connection with pendingTransactionLayer := some pending }
      { reference with machine := reference.machine.write fun _ => pending.contents } where
  committed := follows.committed
  current := rfl
  snapshots := follows.snapshots
  explicitTransaction := follows.explicitTransaction
  reads := ⟨follows.reads.above, follows.reads.used.trans_le older⟩
  restores := fun entry member =>
    ⟨(follows.restores entry member).above, (follows.restores entry member).used.trans_le older⟩
  writes := fun other stored => by
    obtain rfl := Option.some.inj stored
    exact openLayer

omit follows

theorem follows_autocommit (context : TransactionContext)
    (follows : Follows table connection reference)
    (stored : connection.pendingTransactionLayer = some pending) :
    let outcome := context.commitTransaction false table connection
    Follows outcome.table outcome.connection { reference with machine :=
      reference.machine.commit } := by
  obtain ⟨nextLayerId, layer, changes, published, shown, used⟩ :=
    commitTransaction_publishes context follows (.inl (Option.isSome_of_eq_some stored)) false
  simp only [published, SnapshotMachine.commit, ← shown, ← follows.explicitTransaction]
  exact follows_publish used connection.explicitTransaction

include follows

theorem follows_write (mutation : TableManager.Mutation) (autocommit : Bool) :
    let state := context.performMutation table connection mutation autocommit
    Follows state.1 state.2 (reference.write context.manager mutation autocommit) := by
  obtain ⟨nextLayerId, pending, ensured, older, openLayer, shown⟩ :=
    ensureTransactionLayer_spec context follows
  obtain ⟨layer, performed, written, left⟩ := writeLayer_spec context openLayer mutation
  rw [shown, follows.current] at performed left
  have kept := follows_pending follows older written
  have committed := follows_autocommit context kept rfl
  have settled : (!connection.explicitTransaction && autocommit) =
      (!reference.explicitTransaction && autocommit) := by rw [follows.explicitTransaction]
  simp only [performMutation, ensured, performed, ReferenceTable.write, ← left, settled]
  cases (context.manager.performMutation reference.machine.current mutation).2 with
  | error message => exact kept
  | ok row replacedRow evictedRows =>
    simp only
    split
    · exact committed
    · exact kept
  | constraint message existingRow action =>
    simp only
    split
    · exact committed
    · exact kept

theorem follows_step (step : ConnectionStep) : let state := context.step table connection step
    Follows state.1 state.2 (reference.step context.manager step) := by
  cases step with
  | begin => exact { follows with explicitTransaction := rfl }
  | write mutation autocommit => exact follows_write follows mutation autocommit
  | createSavepoint => exact follows_createSavepoint follows
  | releaseSavepoint targetDepth => exact follows_releaseSavepoint follows targetDepth
  | rollbackToSavepoint targetDepth => exact follows_rollbackToSavepoint follows targetDepth
  | commit inCoordinatedCommit => exact follows_commit follows inCoordinatedCommit
  | rollback => exact follows_rollback follows

omit follows

theorem follows_connect (used : table.currentCommittedLayer.layerId < table.nextLayerId) :
    Follows table (.connect table.currentCommittedLayer)
      (.idle table.currentCommittedLayer.contents) where
  committed := rfl
  current := rfl
  snapshots := rfl
  explicitTransaction := rfl
  reads := ⟨.head, used⟩
  restores := forall_mem_nil _
  writes := nofun

theorem follows_run (context : TransactionContext) (follows : Follows table connection reference)
    (steps : List ConnectionStep) :
    let state := context.run table connection steps
    Follows state.1 state.2 (reference.run context.manager steps) :=
  foldl_rel
    (r := fun (state : MemoryTable × MemoryTableConnection) reference =>
      Follows state.1 state.2 reference)
    follows fun step _ _ _ follows => follows_step follows step

/-- A connection that is the only writer shows, after any steps, what the machine
shows, and the table holds what the machine has committed; a commit makes that
the contents the connection showed. -/
theorem run_refines_snapshots (context : TransactionContext) (table : MemoryTable)
    (used : table.currentCommittedLayer.layerId < table.nextLayerId) (steps : List ConnectionStep) :
    let state := context.run table (.connect table.currentCommittedLayer) steps
    let reference := (ReferenceTable.idle table.currentCommittedLayer.contents).run
      context.manager steps
    state.2.startLayer.contents = reference.machine.current ∧
      state.1.currentCommittedLayer.contents = reference.machine.committed := by
  have follows := follows_run context (follows_connect used) steps
  exact ⟨follows.current, follows.committed⟩

/-- A table of texts, keyed by themselves. -/
def lettersContext : TransactionContext where
  manager := .viewless
    { name := "t"
      columns := [⟨"k", plainType, "BINARY", none⟩]
      primaryKeyDefinition := [⟨0, false, none⟩]
      primaryKeyDefaultConflict := none
      uniqueConstraints := []
      indexes := []
      collationResolver := fun _ => BINARY_COLLATION } fun _ => none
  hasDataListeners := true

def letterRow (letter : UInt16) : Row :=
  [⟨.string [letter], Eq.refl false⟩]

def lettersTable : MemoryTable :=
  ⟨.base ⟨[], []⟩, 1⟩

/-- A letter is inserted, another one is rolled back, and the first is committed. -/
theorem run_refines_snapshots_letters :
    lettersTable.currentCommittedLayer.layerId < lettersTable.nextLayerId ∧
      (lettersContext.run lettersTable (.connect lettersTable.currentCommittedLayer)
        [.begin, .write (.insert (letterRow 97) none) true, .createSavepoint,
          .write (.insert (letterRow 98) none) true, .rollbackToSavepoint 0,
          .commit false]).1.currentCommittedLayer.contents.primary = [letterRow 97] :=
  ⟨by decide,
    congrArg Layer.primary (run_refines_snapshots lettersContext lettersTable (by decide) _).2⟩

end TransactionContext

end Quereus.Memory
