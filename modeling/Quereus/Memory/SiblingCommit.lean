import Quereus.Memory.TransactionRuns

/-! # Commits beside other connections

Any number of connections write to one table. A registry, which only the proofs
know of, maps the identity of every frozen layer to the layer. It grows along a
run, and it is why layers that agree in identity agree altogether: the walks of a
commit over two chains meet in the layer where they forked.
-/

namespace Quereus.Memory

open Function LayerRef List MemoryTableConnection

/-- A table with its connections, by their number. -/
structure TableSystem where
  table : MemoryTable
  connections : Nat → MemoryTableConnection

/-- A connection is opened, or does a step. -/
inductive SystemStep where
  | connect (connectionId : Nat)
  | act (connectionId : Nat) (step : TransactionContext.ConnectionStep)

namespace TableSystem

/-- A table over some rows that nobody has written to. -/
def create (contents : Layer) : TableSystem :=
  ⟨⟨.base contents, 1⟩, fun _ => .connect (.base contents)⟩

def step (context : TransactionContext) (system : TableSystem) : SystemStep → TableSystem
  | .connect connectionId =>
    { system with
      connections := Function.update system.connections connectionId
        (.connect system.table.currentCommittedLayer) }
  | .act connectionId step =>
    let (table, connection) := context.step system.table (system.connections connectionId) step
    ⟨table, Function.update system.connections connectionId connection⟩

def run (context : TransactionContext) (system : TableSystem) (steps : List SystemStep) :
    TableSystem :=
  steps.foldl (step context) system

end TableSystem

variable {context : TransactionContext} {registry registry' : Nat → Option LayerRef}
  {state : MemoryTable × MemoryTableConnection} {table : MemoryTable}
  {connection : MemoryTableConnection}

section Registry

variable {nextLayerId : Nat} {parentLayer layer : LayerRef}

/-- Note a layer under its number. -/
def register (registry : Nat → Option LayerRef) (layer : LayerRef) : Nat → Option LayerRef :=
  Function.update registry layer.layerId (some layer)

/-- A layer that could be registered: its parent is, and its identity is not. -/
structure LayerRef.NewOver (context : TransactionContext) (registry : Nat → Option LayerRef)
    (nextLayerId : Nat) (layer parentLayer : LayerRef) : Prop where
  logged : ∃ data, layer = .transaction data parentLayer ∧ data.Logged context parentLayer
  parent_known : parentLayer.Known context registry
  used : layer.layerId < nextLayerId
  unregistered : registry layer.layerId = none

variable {layerId : Nat}

theorem register_of_eq_some (unregistered : registry layer.layerId = none) {stored : LayerRef}
    (registered : registry layerId = some stored) :
    register registry layer layerId = some stored := by
  have other : layerId ≠ layer.layerId := by
    rintro rfl
    rw [unregistered] at registered
    cases registered
  rw [register, update_of_ne other, registered]

namespace LayerRef.NewOver

variable (new : layer.NewOver context registry nextLayerId parentLayer)

include new

variable {other : LayerRef}

theorem known_of_known (known : other.Known context registry) :
    other.Known context (register registry layer) :=
  known.mono fun _ _ => register_of_eq_some new.unregistered

/-- Once registered, a new layer is known. -/
theorem known : layer.Known context (register registry layer) := by
  have parent_known := new.known_of_known new.parent_known
  obtain ⟨data, rfl, logged⟩ := new.logged
  exact ⟨update_self .., logged, parent_known⟩

theorem freeze : layer.freeze.NewOver context registry nextLayerId parentLayer := by
  obtain ⟨⟨data, rfl, logged⟩, parent_known, used, unregistered⟩ := new
  exact ⟨⟨_, rfl, { logged with }⟩, parent_known, used, unregistered⟩

/-- A new layer is on no chain but those over it. -/
theorem notMem_layerChainSet (known : other.Known context registry) :
    layer.layerId ∉ other.layerChainSet := by
  intro member
  obtain ⟨found, same, above⟩ := known.mem_layerChainSet member
  have registered := (known.of_above above).registered
  rw [same, new.unregistered] at registered
  cases registered

theorem firstIn_eq (known : other.Known context registry) :
    layer.firstIn other.layerChainSet = parentLayer.firstIn other.layerChainSet := by
  have out := new.notMem_layerChainSet known
  obtain ⟨data, rfl, -⟩ := new.logged
  exact if_neg out

theorem mono {nextLayerId' : Nat} (le : nextLayerId ≤ nextLayerId') :
    layer.NewOver context registry nextLayerId' parentLayer :=
  { new with used := new.used.trans_le le }

end LayerRef.NewOver

/-- Every layer a connection can reach is registered or its own. -/
structure SoundConnection (context : TransactionContext) (registry : Nat → Option LayerRef)
    (nextLayerId : Nat) (connection : MemoryTableConnection) : Prop where
  reads : connection.readLayer.Known context registry
  restores : ∀ entry ∈ connection.savepointStack, entry.restored.Known context registry
  writes : ∀ pending ∈ connection.pendingTransactionLayer,
    pending.NewOver context registry nextLayerId connection.readLayer

/-- A table and one of its connections. -/
structure SoundPair (context : TransactionContext) (registry : Nat → Option LayerRef)
    (table : MemoryTable) (connection : MemoryTableConnection) : Prop where
  bounded : ∀ layerId stored, registry layerId = some stored → layerId < table.nextLayerId
  head : table.currentCommittedLayer.Known context registry
  connection : SoundConnection context registry table.nextLayerId connection

/-- Whether a connection may register a layer: it is its own, or not made yet. -/
def Registrable (table : MemoryTable) (connection : MemoryTableConnection) (layerId : Nat) : Prop :=
  (∃ pending ∈ connection.pendingTransactionLayer, pending.layerId = layerId) ∨
    table.nextLayerId ≤ layerId

/-- What a step of one connection leaves to the others. -/
structure Progress (context : TransactionContext) (registry : Nat → Option LayerRef)
    (table : MemoryTable) (connection : MemoryTableConnection)
    (state : MemoryTable × MemoryTableConnection) (registry' : Nat → Option LayerRef) : Prop where
  kept : ∀ layerId stored, registry layerId = some stored → registry' layerId = some stored
  own : ∀ layerId, registry layerId = none → registry' layerId ≠ none →
    Registrable table connection layerId
  writes : ∀ pending ∈ state.2.pendingTransactionLayer, Registrable table connection pending.layerId
  older : table.nextLayerId ≤ state.1.nextLayerId
  sound : SoundPair context registry' state.1 state.2

/-- A step that registers nothing. -/
theorem Progress.of_sound (sound : SoundPair context registry state.1 state.2)
    (older : table.nextLayerId ≤ state.1.nextLayerId)
    (writes : ∀ pending ∈ state.2.pendingTransactionLayer,
      Registrable table connection pending.layerId) :
    Progress context registry table connection state registry where
  kept _ _ registered := registered
  own _ unregistered registered := absurd unregistered registered
  writes := writes
  older := older
  sound := sound

theorem Progress.registrable (progress : Progress context registry table connection state registry')
    (registrable : Registrable state.1 state.2 layerId) : Registrable table connection layerId := by
  obtain ⟨pending, stored, rfl⟩ | fresh := registrable
  · exact progress.writes pending stored
  · exact .inr (progress.older.trans fresh)

/-- Progress of two calls in a row. -/
theorem Progress.trans {middle : MemoryTable × MemoryTableConnection}
    {registry'' : Nat → Option LayerRef}
    (first : Progress context registry table connection middle registry')
    (second : Progress context registry' middle.1 middle.2 state registry'') :
    Progress context registry table connection state registry'' where
  kept layerId stored registered := second.kept layerId stored
    (first.kept layerId stored registered)
  own layerId unregistered registered := by
    by_cases between : registry' layerId = none
    · exact first.registrable (second.own layerId between registered)
    · exact first.own layerId unregistered between
  writes pending stored := first.registrable (second.writes pending stored)
  older := first.older.trans second.older
  sound := second.sound

variable (sound : SoundPair context registry table connection)

include sound

theorem SoundPair.nextLayerId_unregistered (fresh : table.nextLayerId ≤ layerId) :
    registry layerId = none := by
  cases stored : registry layerId with
  | none => rfl
  | some layer => exact absurd (sound.bounded layerId layer stored) (Nat.not_lt.mpr fresh)

/-- The layer that a connection would make next. -/
theorem SoundPair.newOver_fresh :
    (context.newTransactionLayer table connection.readLayer).2.NewOver context registry
      (table.nextLayerId + 1)
      connection.readLayer :=
  ⟨⟨_, rfl, .fresh context (sound.bounded _ _ sound.connection.reads.registered)⟩,
    sound.connection.reads,
    Nat.lt_succ_self _, sound.nextLayerId_unregistered le_rfl⟩

/-- A step that leaves the table alone and no layer pending. -/
theorem SoundPair.progress_of_idle {connection' : MemoryTableConnection}
    (idle : connection'.pendingTransactionLayer = none)
    (reads : connection'.readLayer.Known context registry)
    (restores : ∀ entry ∈ connection'.savepointStack, entry.restored.Known context registry) :
    Progress context registry table connection (table, connection') registry :=
  have none_pending {property : LayerRef → Prop} :
      ∀ pending ∈ connection'.pendingTransactionLayer, property pending := by simp [idle]
  .of_sound ⟨sound.bounded, sound.head, reads, restores, none_pending⟩ le_rfl none_pending

theorem SoundPair.advance (older : table.nextLayerId ≤ nextLayerId) :
    SoundPair context registry { table with nextLayerId } connection where
  bounded layerId stored registered := (sound.bounded layerId stored registered).trans_le older
  head := sound.head
  connection :=
    { sound.connection with
      writes := fun pending stored => (sound.connection.writes pending stored).mono older }

/-- A step that registers one layer and leaves no pending one. -/
theorem Progress.of_register (older : table.nextLayerId ≤ state.1.nextLayerId)
    (new : layer.NewOver context registry state.1.nextLayerId parentLayer)
    (own : Registrable table connection layer.layerId)
    (head : state.1.currentCommittedLayer = layer ∨
      state.1.currentCommittedLayer.Known context registry) (reads : state.2.readLayer = layer)
    (restores : ∀ entry ∈ state.2.savepointStack,
      entry.restored = layer ∨ entry.restored.Known context registry)
    (idle : state.2.pendingTransactionLayer = none) :
    Progress context registry table connection state (register registry layer) where
  kept _ _ := register_of_eq_some new.unregistered
  own layerId unregistered registered := by
    by_cases same : layerId = layer.layerId
    · exact same ▸ own
    · rw [register, update_of_ne same] at registered
      exact absurd unregistered registered
  writes pending stored := by
    rw [idle] at stored
    cases stored
  older := older
  sound :=
    { bounded := fun layerId stored registered => by
        by_cases same : layerId = layer.layerId
        · exact same ▸ new.used
        · rw [register, update_of_ne same] at registered
          exact (sound.bounded layerId stored registered).trans_le older
      head := head.elim (fun same => same ▸ new.known) new.known_of_known
      connection :=
        { reads := reads ▸ new.known
          restores := fun entry member =>
            (restores entry member).elim (fun same => same ▸ new.known) new.known_of_known
          writes := fun pending stored => by
            rw [idle] at stored
            cases stored } }

omit sound

end Registry

namespace TransactionContext

variable {parentLayer layer : LayerRef}

variable {data : TransactionData}

/-- What the replay of one write keeps. -/
theorem replayOwnWrite_spec (logged : data.Logged context parentLayer) (write : OwnWrite) :
    (context.replayOwnWrite data write).Logged context parentLayer ∧
      (context.replayOwnWrite data write).layerId = data.layerId ∧
      (context.replayOwnWrite data write).contents.primary =
        context.manager.schema.replay data.contents.primary [write.write] := by
  cases write with
  | upsert primaryKey newRow => exact ⟨logged.record trivial, rfl, rfl⟩
  | delete primaryKey =>
    cases found : data.contents.lookupEffectiveRow context.manager.schema primaryKey with
    | none =>
      simp only [replayOwnWrite, found]
      exact ⟨logged, trivial, (filter_eq_self.mpr fun item member =>
        bne_iff_ne.mpr (KeyTree.find_eq_none.mp found item member)).symm⟩
    | some effective =>
      simp only [replayOwnWrite, found]
      exact ⟨logged.record (KeyTree.mem_of_find found).2, rfl, rfl⟩

/-- What the replay of a whole log keeps. -/
theorem foldl_replayOwnWrite_spec (logged : data.Logged context parentLayer)
    (writes : List OwnWrite) :
    (writes.foldl context.replayOwnWrite data).Logged context parentLayer ∧
      (writes.foldl context.replayOwnWrite data).layerId = data.layerId ∧
      (writes.foldl context.replayOwnWrite data).contents.primary =
        context.manager.schema.replay data.contents.primary (writes.map OwnWrite.write) := by
  induction writes generalizing data with
  | nil => exact ⟨logged, rfl, rfl⟩
  | cons write rest ih =>
    obtain ⟨stepLogged, stepId, stepContents⟩ := replayOwnWrite_spec logged write
    obtain ⟨restLogged, restId, restContents⟩ := ih stepLogged
    exact ⟨restLogged, restId.trans stepId, restContents.trans (by rw [stepContents]; rfl)⟩

variable (sound : SoundPair context registry table connection)

include sound

/-- A rebased layer lies over the head and holds the replayed log. -/
theorem rebaseLayerOntoHead_spec (pending forkPoint : LayerRef) :
    ∃ rebased : LayerRef, context.rebaseLayerOntoHead table pending forkPoint =
        ({ table with nextLayerId := table.nextLayerId + 1 }, rebased) ∧
      rebased.NewOver context registry (table.nextLayerId + 1) table.currentCommittedLayer ∧
      rebased.layerId = table.nextLayerId ∧
      rebased.contents.primary =
        context.manager.schema.replay table.currentCommittedLayer.contents.primary
          ((pending.ownWritesAbove forkPoint).map OwnWrite.write) := by
  have newer := sound.bounded _ _ sound.head.registered
  obtain ⟨logged, layerId, contents⟩ := foldl_replayOwnWrite_spec
    (TransactionData.Logged.fresh context newer) (pending.ownWritesAbove forkPoint)
  have new : LayerRef.NewOver context registry (table.nextLayerId + 1)
      (.transaction _ table.currentCommittedLayer) table.currentCommittedLayer :=
    ⟨⟨_, rfl, logged⟩, sound.head, Nat.lt_succ_of_le layerId.le,
      (congrArg registry layerId).trans (sound.nextLayerId_unregistered le_rfl)⟩
  exact ⟨_, rfl, new.freeze, layerId, contents⟩

variable {table' : MemoryTable}

variable (chosen : context.layerToCommit table connection = (table', some layer))

include chosen in
/-- The layer a commit chooses shows what was visible. -/
theorem layerToCommit_spec :
    table'.currentCommittedLayer = table.currentCommittedLayer ∧
      table.nextLayerId ≤ table'.nextLayerId ∧
      layer.NewOver context registry table'.nextLayerId connection.readLayer ∧
      Registrable table connection layer.layerId := by
  obtain ⟨readLayer, _ | pending, explicitTransaction, savepointStack, readSnapshot⟩ := connection
  · simp only [layerToCommit] at chosen
    split at chosen <;> cases chosen
    exact ⟨rfl, Nat.le_succ _, sound.newOver_fresh, .inr le_rfl⟩
  · cases chosen
    exact ⟨rfl, le_rfl, sound.connection.writes _ rfl, .inl ⟨_, rfl, rfl⟩⟩

include chosen in
/-- A commit publishes the chosen layer if it lies over the head, and its log over
the head if not. Chains of one table always fork somewhere, so it never gives up. -/
theorem commitTransaction_cases (inCoordinatedCommit : Bool) :
    (table.currentCommittedLayer.Above layer ∧
      context.commitTransaction inCoordinatedCommit table connection =
        context.publish table' connection layer.freeze
          (layer.collectPendingChanges table.currentCommittedLayer)) ∨
    ∃ forkPoint, ¬ table.currentCommittedLayer.Above layer ∧
      layer.firstIn table.currentCommittedLayer.layerChainSet = some forkPoint ∧
      forkPoint.Above layer ∧ forkPoint.Above table.currentCommittedLayer ∧
      context.commitTransaction inCoordinatedCommit table connection =
        context.publish (context.rebaseLayerOntoHead table' layer forkPoint).1 connection
          (context.rebaseLayerOntoHead table' layer forkPoint).2
          (layer.collectPendingChanges forkPoint) := by
  obtain ⟨head, -, new, -⟩ := layerToCommit_spec sound chosen
  have head_known := new.known_of_known sound.head
  have contains := new.known.chainContains_iff_above head_known
  by_cases ahead : table.currentCommittedLayer.Above layer
  · refine .inl ⟨ahead, ?_⟩
    rw [← head]
    exact commitTransaction_of_chainContains chosen (by rw [head]; exact contains.mpr ahead)
  · refine .inr ?_
    have out : layer.chainContains table'.currentCommittedLayer = false := by
      rw [head, Bool.eq_false_iff]
      exact fun contained => ahead (contains.mp contained)
    obtain ⟨forkPoint, found, above, below⟩ := new.known.exists_fork head_known
    refine ⟨forkPoint, ahead, found, above, below, ?_⟩
    have fromParent : layer.getParent.bind (·.firstIn table'.currentCommittedLayer.layerChainSet) =
        some forkPoint := by
      rw [new.firstIn_eq sound.head] at found
      obtain ⟨data, rfl, -⟩ := new.logged
      rw [head]
      exact found
    simp only [commitTransaction, chosen, out, Bool.false_eq_true, ↓reduceIte, fromParent]

omit sound

/-- Without a layer to commit the connection reads the head again. -/
theorem layerToCommit_none (chosen : context.layerToCommit table connection = (table', none)) :
    table' = table ∧ connection.pendingTransactionLayer = none := by
  obtain ⟨readLayer, _ | pending, explicitTransaction, savepointStack, readSnapshot⟩ := connection
  · simp only [layerToCommit] at chosen
    split at chosen <;> cases chosen
    exact ⟨rfl, rfl⟩
  · cases chosen

include sound

/-- A commit makes progress. -/
theorem progress_commitTransaction (inCoordinatedCommit : Bool) :
    let outcome := context.commitTransaction inCoordinatedCommit table connection
    outcome.error = none ∧ ∃ registry', Progress context registry table connection
      (outcome.table, outcome.connection) registry' := by
  cases chosen : context.layerToCommit table connection with
  | mk table' layer? =>
    cases layer? with
    | none =>
      obtain ⟨rfl, idle⟩ := layerToCommit_none chosen
      simp only [commitTransaction, chosen]
      exact ⟨trivial, registry, sound.progress_of_idle idle sound.head sound.connection.restores⟩
    | some layer =>
      obtain ⟨head, older, new, own⟩ := layerToCommit_spec sound chosen
      obtain ⟨-, published⟩ | ⟨forkPoint, -, -, -, -, published⟩ :=
        commitTransaction_cases sound chosen inCoordinatedCommit
      · have frozen_own : Registrable table connection layer.freeze.layerId :=
          layerId_freeze.symm ▸ own
        rw [published]
        exact ⟨rfl, _, .of_register sound older new.freeze frozen_own (.inl rfl) rfl
          (forall_mem_nil _) rfl⟩
      · obtain ⟨head', nextLayerId⟩ := table'
        obtain rfl : head' = table.currentCommittedLayer := head
        obtain ⟨rebased, replayed, rebased_new, layerId, -⟩ :=
          rebaseLayerOntoHead_spec (sound.advance older) layer forkPoint
        rw [published, replayed]
        exact ⟨rfl, _, .of_register sound (older.trans (Nat.le_succ _)) rebased_new
          (.inr (layerId ▸ older)) (.inl rfl) rfl (forall_mem_nil _) rfl⟩

/-- So does a savepoint. -/
theorem progress_createSavepoint :
    ∃ registry', Progress context registry table connection (table, connection.createSavepoint)
      registry' := by
  obtain ⟨readLayer, _ | pending, explicitTransaction, savepointStack, readSnapshot⟩ := connection
  · exact ⟨registry, sound.progress_of_idle rfl sound.connection.reads <| forall_mem_append.mpr
      ⟨sound.connection.restores, forall_mem_singleton.mpr sound.connection.reads⟩⟩
  · refine ⟨_, .of_register sound le_rfl (sound.connection.writes pending rfl).freeze
      (.inl ⟨pending, rfl, layerId_freeze.symm⟩) (.inr sound.head) rfl ?_ rfl⟩
    exact forall_mem_append.mpr ⟨fun entry member => .inr (sound.connection.restores entry member),
      forall_mem_singleton.mpr (.inl rfl)⟩

/-- A write finds a layer of the connection's own. -/
theorem newOver_ensureTransactionLayer :
    ∃ nextLayerId pending,
      context.ensureTransactionLayer table connection = ({ table with nextLayerId }, pending) ∧
        table.nextLayerId ≤ nextLayerId ∧
        pending.NewOver context registry nextLayerId connection.readLayer ∧
        Registrable table connection pending.layerId := by
  obtain ⟨readLayer, _ | pending, explicitTransaction, savepointStack, readSnapshot⟩ := connection
  · exact ⟨_, _, rfl, Nat.le_succ _, sound.newOver_fresh, .inr le_rfl⟩
  · exact ⟨_, pending, rfl, le_rfl, sound.connection.writes pending rfl, .inl ⟨pending, rfl, rfl⟩⟩

omit sound

theorem newOver_writeLayer {nextLayerId : Nat}
    (new : layer.NewOver context registry nextLayerId parentLayer)
    (mutation : TableManager.Mutation) :
    (context.writeLayer layer mutation).1.NewOver context registry nextLayerId parentLayer ∧
      (context.writeLayer layer mutation).1.layerId = layer.layerId := by
  obtain ⟨data, rfl, logged⟩ := new.logged
  simp only [writeLayer]
  split
  · exact ⟨new, rfl⟩
  · have layerId := TransactionData.foldl_record_layerId context.manager.schema data
      (context.manager.mutationRecords data.contents mutation)
    have kept := foldlRecOn (motive := fun data : TransactionData => data.Logged context _)
      _ _ logged
      fun _ logged record member =>
        logged.record (TableManager.mutationRecords_named data.contents mutation record member)
    exact ⟨⟨⟨_, rfl, kept⟩, new.parent_known,
      layerId.trans_lt new.used, (congrArg registry layerId).trans new.unregistered⟩, layerId⟩

include sound in
/-- A write makes progress. -/
theorem progress_write (mutation : TableManager.Mutation) (autocommit : Bool) :
    ∃ registry', Progress context registry table connection
      (context.performMutation table connection mutation autocommit) registry' := by
  obtain ⟨nextLayerId, pending, ensured, older, new, own⟩ := newOver_ensureTransactionLayer sound
  obtain ⟨written, layerId⟩ := newOver_writeLayer new mutation
  have stored : Progress context registry table connection
      ({ table with nextLayerId },
        { connection with pendingTransactionLayer := some (context.writeLayer pending mutation).1 })
      registry := by
    refine .of_sound ⟨(sound.advance older).bounded, sound.head, sound.connection.reads,
      sound.connection.restores, ?_⟩ older ?_
    · exact fun other same => Option.some.inj same ▸ written
    · exact fun other same => Option.some.inj same ▸ layerId.symm ▸ own
  obtain ⟨-, registry', committed⟩ := progress_commitTransaction stored.sound false
  simp only [performMutation, ensured]
  split
  · exact ⟨registry, stored⟩
  · split
    · exact ⟨registry', stored.trans committed⟩
    · exact ⟨registry, stored⟩

theorem progress_clearTransactionState
    (progress : Progress context registry table connection state registry') :
    Progress context registry table connection (state.1, state.2.clearTransactionState) registry' :=
  { progress with
    sound := { progress.sound with
      connection := { progress.sound.connection with restores := forall_mem_nil _ } } }

include sound

theorem progress_refl : Progress context registry table connection (table, connection) registry :=
  .of_sound sound le_rfl fun pending stored => .inl ⟨pending, stored, rfl⟩

theorem progress_step (step : ConnectionStep) :
    ∃ registry', Progress context registry table connection (context.step table connection step)
      registry' := by
  have pending_own := (progress_refl sound).writes
  cases step with
  | begin =>
    exact ⟨registry, .of_sound ⟨sound.bounded, sound.head, { sound.connection with }⟩ le_rfl
      pending_own⟩
  | write mutation autocommit => exact progress_write sound mutation autocommit
  | createSavepoint => exact progress_createSavepoint sound
  | releaseSavepoint targetDepth =>
    rw [step, releaseSavepoint_eq]
    exact ⟨registry, .of_sound ⟨sound.bounded, sound.head, sound.connection.reads,
      fun entry member => sound.connection.restores entry (mem_of_mem_take member),
      sound.connection.writes⟩ le_rfl pending_own⟩
  | rollbackToSavepoint targetDepth =>
    rw [step]
    cases found : connection.savepointStack[targetDepth]? with
    | none =>
      simp only [rollbackToSavepoint, found]
      exact ⟨registry, progress_refl sound⟩
    | some entry =>
      obtain ⟨readSnapshot, restored⟩ := rollbackToSavepoint_of_getElem? found
      rw [restored]
      exact ⟨registry, sound.progress_of_idle rfl
        (sound.connection.restores entry (mem_of_getElem? found))
        fun other member => sound.connection.restores other (mem_of_mem_take member)⟩
  | commit inCoordinatedCommit =>
    obtain ⟨error, registry', committed⟩ := progress_commitTransaction sound inCoordinatedCommit
    simp only [step, commit, error]
    split
    · exact ⟨registry', progress_clearTransactionState committed⟩
    · exact ⟨registry, progress_clearTransactionState (progress_refl sound)⟩
  | rollback =>
    exact ⟨registry, sound.progress_of_idle rfl sound.head (forall_mem_nil _)⟩

end TransactionContext

/-- Every connection is sound, and no two write to the same layer. -/
structure SoundSystem (context : TransactionContext) (registry : Nat → Option LayerRef)
    (system : TableSystem) : Prop where
  pairs : ∀ connectionId,
    SoundPair context registry system.table (system.connections connectionId)
  distinct : ∀ first second, first ≠ second →
    ∀ pending ∈ (system.connections first).pendingTransactionLayer,
    ∀ other ∈ (system.connections second).pendingTransactionLayer, pending.layerId ≠ other.layerId

namespace SoundSystem

variable {system : TableSystem} {acting other : Nat}

variable (sound : SoundSystem context registry system)

include sound

/-- What a connection may register is not what another one writes to. -/
theorem ne_of_registrable (different : acting ≠ other) {layerId : Nat}
    (registrable : Registrable system.table (system.connections acting) layerId)
    {pending : LayerRef} (stored : pending ∈ (system.connections other).pendingTransactionLayer) :
    layerId ≠ pending.layerId := by
  obtain ⟨own, own_stored, rfl⟩ | fresh := registrable
  · exact sound.distinct acting other different own own_stored pending stored
  · exact (((sound.pairs other).connection.writes pending stored).used.trans_le fresh).ne'

/-- A step of one connection keeps the others sound. -/
theorem pair_of_progress (different : acting ≠ other)
    (progress : Progress context registry system.table (system.connections acting) state
      registry') :
    SoundPair context registry' state.1 (system.connections other) where
  bounded := progress.sound.bounded
  head := progress.sound.head
  connection :=
    { reads := (sound.pairs other).connection.reads.mono progress.kept
      restores := fun entry member =>
        ((sound.pairs other).connection.restores entry member).mono progress.kept
      writes := fun pending stored => by
        have new := (sound.pairs other).connection.writes pending stored
        refine ⟨new.logged, new.parent_known.mono progress.kept,
          new.used.trans_le progress.older, ?_⟩
        by_contra registered
        exact sound.ne_of_registrable different
          (progress.own pending.layerId new.unregistered registered) stored rfl }

theorem of_progress
    (progress : Progress context registry system.table (system.connections acting) state
      registry') :
    SoundSystem context registry' ⟨state.1, Function.update system.connections acting state.2⟩ where
  pairs connectionId := by
    by_cases same : connectionId = acting
    · subst same
      simpa only [update_self] using progress.sound
    · simpa only [update_of_ne same] using sound.pair_of_progress (Ne.symm same) progress
  distinct first second different := by
    by_cases firstActs : first = acting
    · subst firstActs
      simp only [update_self, update_of_ne different.symm]
      intro pending stored other otherStored
      exact sound.ne_of_registrable different (progress.writes pending stored) otherStored
    · by_cases secondActs : second = acting
      · subst secondActs
        simp only [update_self, update_of_ne different]
        intro pending stored other otherStored
        exact (sound.ne_of_registrable different.symm (progress.writes other otherStored)
          stored).symm
      · simpa only [update_of_ne firstActs, update_of_ne secondActs] using
          sound.distinct first second different

theorem step (step : SystemStep) :
    ∃ registry', SoundSystem context registry' (system.step context step) := by
  cases step with
  | connect connectionId =>
    have head := (sound.pairs connectionId).head
    have opened : Progress context registry system.table (system.connections connectionId)
        (system.table, .connect system.table.currentCommittedLayer) registry :=
      .of_sound ⟨(sound.pairs connectionId).bounded, head, head, forall_mem_nil _,
        nofun⟩ le_rfl nofun
    exact ⟨registry, sound.of_progress opened⟩
  | act connectionId step =>
    obtain ⟨registry', progress⟩ :=
      TransactionContext.progress_step (sound.pairs connectionId) step
    exact ⟨registry', sound.of_progress progress⟩

theorem run (steps : List SystemStep) :
    ∃ registry', SoundSystem context registry' (system.run context steps) := by
  induction steps generalizing system registry with
  | nil => exact ⟨registry, sound⟩
  | cons first rest ih =>
    obtain ⟨registry', next⟩ := sound.step first
    exact ih next

omit sound

/-- A new table registers its base. -/
theorem create {contents : Layer}
    (ordered : KeyTree.Ordered context.manager.schema.primaryKeyFromRow
      context.manager.schema.comparePrimaryKeys contents.primary) :
    SoundSystem context (register (fun _ => none) (.base contents))
      (TableSystem.create contents) := by
  have known : (base contents).Known context (register (fun _ => none) (.base contents)) :=
    ⟨update_self .., ordered⟩
  refine ⟨fun connectionId => ⟨fun layerId stored registered => ?_, known, known,
    forall_mem_nil _, nofun⟩, nofun⟩
  by_cases same : layerId = 0
  · exact same ▸ Nat.one_pos
  · rw [register, LayerRef.layerId, Function.update_of_ne same] at registered
    cases registered

end SoundSystem

namespace TransactionContext

variable (context : TransactionContext) (table : MemoryTable) (connection : MemoryTableConnection)

/-- The writes of a connection since its chain forked from the head. -/
def chainWrites : List (WriteLog.Write Key Row) :=
  match connection.startLayer.firstIn table.currentCommittedLayer.layerChainSet with
  | some forkPoint => (connection.startLayer.ownWritesAbove forkPoint).map OwnWrite.write
  | none => []

/-- Whether the chain of a connection wrote a key. -/
def chainWrote (primaryKey : Key) : Bool :=
  WriteLog.touches context.manager.schema.primaryKeyFromRow
    context.manager.schema.comparePrimaryKeys
    (chainWrites table connection) primaryKey

/-- A commit keeps the chain's state of every key the chain wrote and the head's
state of every other key, and the delivered events turn the head into the result. -/
structure CommitKeeps (outcome : CommitOutcome) : Prop where
  accepted : outcome.error = none
  rows : ∀ primaryKey,
    outcome.table.currentCommittedLayer.contents.lookupEffectiveRow context.manager.schema
      primaryKey =
      if context.chainWrote table connection primaryKey then
        connection.startLayer.contents.lookupEffectiveRow context.manager.schema primaryKey
      else table.currentCommittedLayer.contents.lookupEffectiveRow context.manager.schema primaryKey
  events : context.hasDataListeners = true →
    context.manager.schema.replay table.currentCommittedLayer.contents.primary
        (outcome.events.map (·.change.write context.manager.schema)) =
      outcome.table.currentCommittedLayer.contents.primary

/-- The writes are in a pending layer or in layers over the head, or the head shows
them already. -/
def CommitSafe : Prop :=
  connection.pendingTransactionLayer.isSome ∨
    connection.readLayer.chainContains table.currentCommittedLayer ∨
    ∀ primaryKey, context.chainWrote table connection primaryKey = true →
      connection.startLayer.contents.lookupEffectiveRow context.manager.schema primaryKey =
        table.currentCommittedLayer.contents.lookupEffectiveRow context.manager.schema primaryKey

variable {context table connection}

variable {layer forkPoint : LayerRef}

variable (sound : SoundPair context registry table connection)

include sound in
/-- The chosen layer carries the writes and the contents of the connection. -/
theorem chainWrites_of_chosen
    (chosen : context.layerToCommit table connection = (table', some layer))
    (found : layer.firstIn table.currentCommittedLayer.layerChainSet = some forkPoint)
    (below : forkPoint.Above table.currentCommittedLayer) :
    chainWrites table connection = (layer.ownWritesAbove forkPoint).map OwnWrite.write ∧
      layer.contents = connection.startLayer.contents := by
  have new := (layerToCommit_spec sound chosen).2.2.1
  obtain ⟨readLayer, _ | pending, explicitTransaction, savepointStack, readSnapshot⟩ := connection
  · -- The wrapper around a savepoint's layer has an empty log.
    simp only [layerToCommit] at chosen
    split at chosen <;> cases chosen
    have shared : forkPoint.layerId ∈ table.currentCommittedLayer.layerChainSet :=
      chainContains_iff.mp below.chainContains
    have other : table.nextLayerId ≠ forkPoint.layerId :=
      (ne_of_mem_of_not_mem shared (new.notMem_layerChainSet sound.head)).symm
    rw [new.firstIn_eq sound.head] at found
    simp only [chainWrites, startLayer, Option.getD_none, found,
      newTransactionLayer, ownWritesAbove, other, ↓reduceIte, append_nil, true_and]
    rfl
  · cases chosen
    simp only [chainWrites, startLayer, Option.getD_some, found, true_and]

/-- A commit that leaves the replayed log over the head keeps what it should. -/
theorem commitKeeps_of_replay {outcome : CommitOutcome}
    (fork_known : forkPoint.Known context registry)
    (head_known : table.currentCommittedLayer.Known context registry)
    (accepted : outcome.error = none) (visible : connection.startLayer.contents.primary =
      context.manager.schema.replay forkPoint.contents.primary (chainWrites table connection))
    (result : outcome.table.currentCommittedLayer.contents.primary =
      context.manager.schema.replay table.currentCommittedLayer.contents.primary
        (chainWrites table connection)) (events : context.hasDataListeners = true →
      context.manager.schema.replay table.currentCommittedLayer.contents.primary
          (outcome.events.map (·.change.write context.manager.schema)) =
        outcome.table.currentCommittedLayer.contents.primary) :
    context.CommitKeeps table connection outcome where
  accepted := accepted
  rows primaryKey := by
    simp only [Layer.lookupEffectiveRow, result, visible]
    cases wrote : context.chainWrote table connection primaryKey with
    | true => exact WriteLog.find_replay_of_touched head_known.ordered fork_known.ordered wrote
    | false => exact WriteLog.find_replay_of_untouched head_known.ordered wrote
  events := events

include sound in
theorem commitKeeps_of_chosen
    (chosen : context.layerToCommit table connection = (table', some layer))
    (inCoordinatedCommit : Bool) :
    context.CommitKeeps table connection
      (context.commitTransaction inCoordinatedCommit table connection) := by
  obtain ⟨head, older, new, -⟩ := layerToCommit_spec sound chosen
  have known := new.known
  have head_known := new.known_of_known sound.head
  obtain ⟨above, published⟩ | ⟨forkPoint, -, found, above, below, published⟩ :=
    commitTransaction_cases sound chosen inCoordinatedCommit
  · obtain ⟨writes, shown⟩ :=
      chainWrites_of_chosen sound chosen (above.firstIn_head head_known) .head
    have rows := known.primary_eq_replay above
    rw [← writes] at rows
    rw [published]
    refine commitKeeps_of_replay head_known head_known rfl (shown ▸ rows) ?_ fun listening => ?_
    · simp only [publish, contents_freeze, rows]
    · simp only [publish, listening, ↓reduceIte, map_map, comp_def, eventOf]
      rw [known.replay_changes above listening, ← writes, ← rows]
      exact congrArg Layer.primary contents_freeze.symm
  · obtain ⟨writes, shown⟩ := chainWrites_of_chosen sound chosen found below
    have rows := known.primary_eq_replay above
    rw [← writes] at rows
    obtain ⟨head', nextLayerId⟩ := table'
    obtain rfl : head' = table.currentCommittedLayer := head
    obtain ⟨rebased, replayed, -, -, contents⟩ :=
      rebaseLayerOntoHead_spec (sound.advance older) layer forkPoint
    rw [← writes] at contents
    rw [published, replayed]
    refine commitKeeps_of_replay (known.of_above above) head_known rfl (shown ▸ rows) contents
      fun listening => ?_
    simp only [publish, listening, ↓reduceIte, map_map, comp_def, eventOf]
    rw [known.replay_changes above listening, ← writes, ← contents]

/-- Where nothing is committed, the head stays. -/
theorem commitKeeps_iff_of_none (chosen : context.layerToCommit table connection = (table', none))
    (inCoordinatedCommit : Bool) :
    context.CommitKeeps table connection
        (context.commitTransaction inCoordinatedCommit table connection) ↔
      ∀ primaryKey, context.chainWrote table connection primaryKey = true →
        connection.startLayer.contents.lookupEffectiveRow context.manager.schema primaryKey =
          table.currentCommittedLayer.contents.lookupEffectiveRow context.manager.schema
            primaryKey := by
  obtain ⟨rfl, -⟩ := layerToCommit_none chosen
  simp only [commitTransaction, chosen]
  constructor
  · intro keeps primaryKey wrote
    have rows := keeps.rows primaryKey
    rw [if_pos wrote] at rows
    exact rows.symm
  · intro shown
    refine ⟨rfl, fun primaryKey => ?_, fun _ => rfl⟩
    split
    · next wrote => exact (shown primaryKey wrote).symm
    · rfl

include sound in
theorem commitKeeps_iff (inCoordinatedCommit : Bool) :
    context.CommitKeeps table connection
        (context.commitTransaction inCoordinatedCommit table connection) ↔
      context.CommitSafe table connection := by
  obtain ⟨readLayer, _ | pending, explicitTransaction, savepointStack, readSnapshot⟩ := connection
  · by_cases wrapped : readLayer.layerId ≠ table.currentCommittedLayer.layerId ∧
        readLayer.getParent.isSome ∧ readLayer.chainContains table.currentCommittedLayer
    · exact iff_of_true (commitKeeps_of_chosen sound (if_pos wrapped) inCoordinatedCommit)
        (.inr (.inl wrapped.2.2))
    · have chosen : context.layerToCommit table
          ⟨readLayer, none, explicitTransaction, savepointStack, readSnapshot⟩ = (table, none) :=
        if_neg wrapped
      rw [commitKeeps_iff_of_none chosen]
      refine ⟨fun shown => .inr (.inr shown), fun safe => ?_⟩
      obtain pending | contains | shown := safe
      · cases pending
      · -- A chain over the head that is not wrapped is the head.
        have above := (sound.connection.reads.chainContains_iff_above sound.head).mp contains
        have reads : readLayer = table.currentCommittedLayer := by
          by_contra different
          have other := fun same => different (above.eq_head same)
          exact wrapped ⟨other, above.getParent_isSome other, contains⟩
        -- It has written nothing.
        have found := LayerRef.Above.head.firstIn_head sound.head
        intro primaryKey wrote
        simp only [chainWrote, chainWrites, startLayer, Option.getD_none, reads, found] at wrote
        cases head : table.currentCommittedLayer <;> rw [head] at wrote <;>
          simp only [ownWritesAbove, layerId_transaction, map_nil] at wrote <;> cases wrote
      · exact shown
  · exact iff_of_true (commitKeeps_of_chosen sound rfl inCoordinatedCommit) (.inl rfl)

/-- One connection inserts and another one commits an insert in between. -/
def siblingSteps : List SystemStep :=
  [.act 1 .begin, .act 1 (.write (.insert (letterRow 98) none) true),
    .act 0 (.write (.insert (letterRow 97) none) true)]

end TransactionContext

end Quereus.Memory
