import Quereus.Isolation.Overlay
import Quereus.Memory.TransactionRuns
import Quereus.Core.SavepointNames

/-! # Savepoints of an isolated table

The overlay of an isolated table is made at the first write. Savepoints that were
set before it are known by their depths only, and rolling back to one of them
drops the overlay; later savepoints are kept by the overlay's own connection. A
rollback shows what the savepoint saw as long as no savepoint of the second kind
takes a depth that is still recorded for the first.
-/

namespace Quereus.Isolation

open Memory List Option SnapshotMachine TransactionContext

/-- What stays fixed while a transaction runs. -/
structure IsolatedTable where
  schema : TableSchema
  /-- The committed rows. -/
  underlyingRows : List Row
  tombstoneName : String
  overlayName : String
  overlayModule : TransactionContext
  overlaySchema : overlayModule.manager.schema =
    createOverlaySchema tombstoneName overlayName schema

/-- The overlay and the connection through which the database reaches it. -/
structure ConnectionOverlay where
  overlayTable : MemoryTable
  connection : MemoryTableConnection

structure IsolatedTransaction where
  /-- The names of the database's savepoints, the outermost first. -/
  savepointStack : List String
  /-- Whether the table's own connection hears of savepoints. -/
  registered : Bool
  overlay : Option ConnectionOverlay
  /-- The depths of the savepoints that were set before the overlay. -/
  savepointsBeforeOverlay : List Nat

/-- The transaction at its start. -/
def IsolatedTransaction.start (registered : Bool) : IsolatedTransaction :=
  ⟨[], registered, none, []⟩

namespace IsolatedTransaction

variable (state : IsolatedTransaction)

def onConnectionSavepoint (index : Nat) : IsolatedTransaction :=
  if state.overlay.isNone then
    { state with savepointsBeforeOverlay := state.savepointsBeforeOverlay.insert index }
  else state

def onConnectionReleaseSavepoint (index : Nat) : IsolatedTransaction :=
  { state with savepointsBeforeOverlay := state.savepointsBeforeOverlay.filter (· ≠ index) }

def onConnectionRollbackToSavepoint (index : Nat) : IsolatedTransaction :=
  if index ∈ state.savepointsBeforeOverlay then
    { state with
      overlay := none
      savepointsBeforeOverlay := state.savepointsBeforeOverlay.filter (· ≤ index) }
  else state

/-- A callback of the table's connection, if it is registered. -/
def notify (callback : IsolatedTransaction → IsolatedTransaction) : IsolatedTransaction :=
  if state.registered then callback state else state

/-- A call on the overlay's connection, if there is one. -/
def onOverlayConnection (call : MemoryTableConnection → MemoryTableConnection) :
    IsolatedTransaction :=
  { state with overlay := state.overlay.map fun overlay =>
      { overlay with connection := call overlay.connection } }

/-- A connection that registers late hears of every open savepoint. -/
def ensureConnection : IsolatedTransaction :=
  if state.registered then state
  else (range state.savepointStack.length).foldl onConnectionSavepoint
    { state with registered := true }

end IsolatedTransaction

namespace IsolatedTable

open IsolatedTransaction

variable (table : IsolatedTable)

/-- A new overlay, whose connection joins the transaction at its savepoint depth. -/
def createOverlay (activeDepth : Nat) : ConnectionOverlay :=
  let overlayTable : MemoryTable := ⟨.base (.empty table.overlayModule.manager.schema), 1⟩
  { overlayTable
    connection := MemoryTableConnection.createSavepoint^[activeDepth]
      (MemoryTableConnection.connect overlayTable.currentCommittedLayer).beginTransaction }

def ensureOverlay (state : IsolatedTransaction) : IsolatedTransaction :=
  match state.overlay with
  | some _ => state
  | none => { state with overlay := some (table.createOverlay state.savepointStack.length) }

/-- One write of the overlay. -/
def stage (overlay : ConnectionOverlay) (mutation : TableManager.Mutation) : ConnectionOverlay :=
  let (overlayTable, connection) := table.overlayModule.performMutation overlay.overlayTable
    overlay.connection mutation false
  ⟨overlayTable, connection⟩

/-- What a transaction can do to the table. A write stages rows and tombstones in the
overlay; which ones is the matter of `IsolatedTable.update`. -/
inductive Step where
  | write (mutations : List TableManager.Mutation)
  | createSavepoint (name : String)
  | releaseSavepoint (name : String)
  | rollbackToSavepoint (name : String)

/-- One step. A savepoint that does not exist is an error without an effect. -/
def step (state : IsolatedTransaction) : Step → IsolatedTransaction
  | .write mutations =>
    let state := table.ensureOverlay state.ensureConnection
    { state with overlay := state.overlay.map fun overlay => mutations.foldl table.stage overlay }
  | .createSavepoint name =>
    let depth := state.savepointStack.length
    ({ state with savepointStack := state.savepointStack ++ [name] }.notify
      (·.onConnectionSavepoint depth)).onOverlayConnection (·.createSavepoint)
  | .releaseSavepoint name =>
    match findSavepoint state.savepointStack name with
    | none => state
    | some index =>
      ({ state with savepointStack := state.savepointStack.take index }.notify
        (·.onConnectionReleaseSavepoint index)).onOverlayConnection (·.releaseSavepoint index)
  | .rollbackToSavepoint name =>
    match findSavepoint state.savepointStack name with
    | none => state
    | some index =>
      ({ state with savepointStack := state.savepointStack.take (index + 1) }.notify
        (·.onConnectionRollbackToSavepoint index)).onOverlayConnection
          (·.rollbackToSavepoint index)

/-- The rows the transaction sees. -/
def view (state : IsolatedTransaction) : List Row :=
  match state.overlay with
  | none => table.underlyingRows
  | some overlay =>
    mergedView table.schema table.underlyingRows overlay.connection.startLayer.contents.primary

/-- The views of the live savepoints at their creation, kept beside the transaction. -/
def viewsAfter (state : IsolatedTransaction) (views : List (List Row)) : Step → List (List Row)
  | .write _ => views
  | .createSavepoint _ => views ++ [table.view state]
  | .releaseSavepoint name =>
    match findSavepoint state.savepointStack name with
    | none => views
    | some index => views.take index
  | .rollbackToSavepoint name =>
    match findSavepoint state.savepointStack name with
    | none => views
    | some index => views.take (index + 1)

/-- A run, with the views its live savepoints saw. -/
def run (state : IsolatedTransaction) (views : List (List Row)) :
    List Step → IsolatedTransaction × List (List Row)
  | [] => (state, views)
  | step :: rest => run (table.step state step) (table.viewsAfter state views step) rest

/-- The overlay's connection holds a savepoint for every depth, and those that are not
recorded as older than the overlay show what was seen at their creation. -/
structure Stages (views : List (List Row)) (savepointsBeforeOverlay : List Nat)
    (overlay : ConnectionOverlay) (reference : ReferenceTable) : Prop where
  follows : Follows overlay.overlayTable overlay.connection reference
  depth : reference.machine.snapshots.length = views.length
  shown : ∀ depth view contents, depth ∉ savepointsBeforeOverlay → views[depth]? = some view →
    reference.machine.snapshots[depth]? = some contents →
    mergedView table.schema table.underlyingRows contents.primary = view

/-- Every live savepoint can give back the view of its creation. -/
structure Tracks (state : IsolatedTransaction) (views : List (List Row)) : Prop where
  depth : views.length = state.savepointStack.length
  unregistered : state.registered = false → state.overlay = none ∧
    state.savepointsBeforeOverlay = []
  recorded : state.registered = true → state.overlay = none →
    ∀ depth < state.savepointStack.length, depth ∈ state.savepointsBeforeOverlay
  /-- The savepoints older than the overlay are the outermost ones. -/
  outermost : ∀ depth ∈ state.savepointsBeforeOverlay, depth < state.savepointStack.length →
    ∀ outer ≤ depth, outer ∈ state.savepointsBeforeOverlay
  pristine : ∀ depth view, views[depth]? = some view →
    state.overlay = none ∨ depth ∈ state.savepointsBeforeOverlay → view = table.underlyingRows
  staged : ∀ overlay, state.overlay = some overlay →
    ∃ reference, table.Stages views state.savepointsBeforeOverlay overlay reference

/-- A new savepoint may not take a depth that is still recorded as older than the
overlay. -/
def Recordable (state : IsolatedTransaction) : Step → Prop
  | .createSavepoint _ =>
    state.overlay.isSome → state.savepointStack.length ∉ state.savepointsBeforeOverlay
  | _ => True

instance (state : IsolatedTransaction) (step : Step) : Decidable (Recordable state step) :=
  match step with
  | .createSavepoint _ => inferInstanceAs (Decidable (_ → _))
  | .write _ | .releaseSavepoint _ | .rollbackToSavepoint _ => isTrue trivial

/-- Every step of a run meets the condition in the state it is made in. -/
def RunRecordable (state : IsolatedTransaction) : List Step → Prop
  | [] => True
  | step :: rest => Recordable state step ∧ RunRecordable (table.step state step) rest

/-- Hearing of savepoints without an overlay records their depths. -/
theorem foldl_onConnectionSavepoint (depths : List Nat) (state : IsolatedTransaction)
    (absent : state.overlay = none) :
    ∃ recorded, depths.foldl onConnectionSavepoint state =
        { state with savepointsBeforeOverlay := recorded } ∧
      ∀ depth, depth ∈ recorded ↔ depth ∈ state.savepointsBeforeOverlay ∨ depth ∈ depths := by
  induction depths generalizing state with
  | nil => exact ⟨_, rfl, fun depth => by simp⟩
  | cons first rest ih =>
    have heard : state.onConnectionSavepoint first =
        { state with savepointsBeforeOverlay := state.savepointsBeforeOverlay.insert first } := by
      rw [onConnectionSavepoint, absent]
      rfl
    obtain ⟨recorded, folded, members⟩ := ih
      { state with savepointsBeforeOverlay := state.savepointsBeforeOverlay.insert first } absent
    refine ⟨recorded, by rw [foldl_cons, heard, folded], fun depth => ?_⟩
    rw [members, mem_insert_iff, mem_cons]
    tauto

variable {table : IsolatedTable} {state : IsolatedTransaction} {views : List (List Row)}

theorem view_of_none (absent : state.overlay = none) : table.view state = table.underlyingRows := by
  rw [view, absent]

variable {overlay : ConnectionOverlay} {reference : ReferenceTable} {index : Nat}

theorem view_of_some (present : state.overlay = some overlay) :
    table.view state = mergedView table.schema table.underlyingRows
      overlay.connection.startLayer.contents.primary := by
  rw [view, present]

variable (tracks : table.Tracks state views)

include tracks in
/-- Registering the connection late loses no savepoint. -/
theorem tracks_ensureConnection :
    table.Tracks state.ensureConnection views ∧ state.ensureConnection.registered = true ∧
      state.ensureConnection.savepointStack = state.savepointStack := by
  cases registered : state.registered with
  | true =>
    rw [ensureConnection, if_pos registered]
    exact ⟨tracks, registered, rfl⟩
  | false =>
    obtain ⟨absent, empty⟩ := tracks.unregistered registered
    obtain ⟨recorded, folded, members⟩ := foldl_onConnectionSavepoint
      (range state.savepointStack.length) { state with registered := true } absent
    rw [ensureConnection, if_neg (registered ▸ Bool.false_ne_true), folded]
    simp only [empty, not_mem_nil, false_or, mem_range] at members
    refine ⟨?_, rfl, rfl⟩
    exact
      { depth := tracks.depth
        unregistered := nofun
        recorded := fun _ _ depth live => (members depth).mpr live
        outermost := fun depth _ live outer below => (members outer).mpr (below.trans_lt live)
        pristine := fun depth view stored _ => tracks.pristine depth view stored (.inl absent)
        staged := fun overlay stored => nomatch absent.symm.trans stored }

theorem follows_iterate_createSavepoint {overlayTable : MemoryTable}
    {connection : MemoryTableConnection} (follows : Follows overlayTable connection reference)
    (count : Nat) :
    ∃ later, Follows overlayTable (MemoryTableConnection.createSavepoint^[count] connection) later ∧
      later.machine.snapshots.length = reference.machine.snapshots.length + count := by
  induction count with
  | zero => exact ⟨reference, follows, rfl⟩
  | succ count ih =>
    obtain ⟨later, kept, length⟩ := ih
    rw [Function.iterate_succ_apply']
    refine ⟨_, follows_createSavepoint kept, ?_⟩
    rw [save, length_append, length_singleton, length, Nat.add_assoc]

variable {recorded : List Nat}

/-- A new overlay has a savepoint for each depth, all of them older than itself. -/
theorem stages_createOverlay (older : ∀ depth < views.length, depth ∈ recorded) :
    ∃ reference, table.Stages views recorded (table.createOverlay views.length) reference := by
  let overlayTable := (table.createOverlay views.length).overlayTable
  have connected : Follows overlayTable (.connect overlayTable.currentCommittedLayer)
      (.idle (Layer.empty table.overlayModule.manager.schema)) :=
    follows_connect Nat.one_pos
  have joined : Follows overlayTable
      (MemoryTableConnection.connect overlayTable.currentCommittedLayer).beginTransaction
      ⟨.idle (Layer.empty table.overlayModule.manager.schema), true⟩ :=
    { connected with explicitTransaction := rfl }
  obtain ⟨reference, follows, length⟩ := follows_iterate_createSavepoint joined views.length
  refine ⟨reference, follows, length.trans (Nat.zero_add _), ?_⟩
  intro depth view contents newer stored
  exact absurd (older depth (List.getElem?_eq_some_iff.mp stored).1) newer

variable (stages : table.Stages views recorded overlay reference)

include stages in
/-- A write of the overlay changes no savepoint. -/
theorem Stages.stage (mutation : TableManager.Mutation) :
    ∃ later, table.Stages views recorded (table.stage overlay mutation) later := by
  have kept : (reference.write table.overlayModule.manager mutation false).machine.snapshots =
      reference.machine.snapshots := by
    unfold ReferenceTable.write
    simp only [Bool.and_false, Bool.false_eq_true, ↓reduceIte]
    split <;> rfl
  refine ⟨_, follows_write stages.follows mutation false, ?_, ?_⟩
  · rw [kept]
    exact stages.depth
  · rw [kept]
    exact stages.shown

include stages in
theorem Stages.foldl_stage (mutations : List TableManager.Mutation) :
    ∃ later, table.Stages views recorded (mutations.foldl table.stage overlay) later := by
  induction mutations generalizing overlay reference with
  | nil => exact ⟨reference, stages⟩
  | cons mutation rest ih =>
    obtain ⟨later, staged⟩ := stages.stage mutation
    exact ih staged

include tracks

theorem tracks_ensureOverlay (registered : state.registered = true) :
    table.Tracks (table.ensureOverlay state) views := by
  unfold ensureOverlay
  cases stored : state.overlay with
  | some overlay => exact tracks
  | none =>
    have older := tracks.recorded registered stored
    exact
      { depth := tracks.depth
        unregistered := fun never => nomatch registered.symm.trans never
        recorded := nofun
        outermost := tracks.outermost
        pristine := fun depth view seen _ => tracks.pristine depth view seen (.inl stored)
        staged := fun overlay made => by
          obtain rfl := some.inj made
          rw [← tracks.depth] at older ⊢
          exact stages_createOverlay older }

theorem tracks_write (mutations : List TableManager.Mutation) :
    table.Tracks (table.step state (.write mutations)) views := by
  obtain ⟨connected, registered, -⟩ := tracks_ensureConnection tracks
  have ready := tracks_ensureOverlay connected registered
  exact
    { depth := ready.depth
      unregistered := fun absent => by
        obtain ⟨missing, empty⟩ := ready.unregistered absent
        exact ⟨map_eq_none_iff.mpr missing, empty⟩
      recorded := fun present missing =>
        ready.recorded present (map_eq_none_iff.mp missing)
      outermost := ready.outermost
      pristine := fun depth view seen older => ready.pristine depth view seen
        (older.imp_left map_eq_none_iff.mp)
      staged := fun overlay stored => by
        obtain ⟨before, present, rfl⟩ := map_eq_some_iff.mp stored
        obtain ⟨reference, stages⟩ := ready.staged before present
        exact stages.foldl_stage mutations }

/-- A savepoint without an overlay sees the committed rows. -/
theorem tracks_createSavepoint_none (absent : state.overlay = none) (name : String) :
    table.Tracks (table.step state (.createSavepoint name)) (views ++ [table.underlyingRows]) := by
  have depth : (views ++ [table.underlyingRows]).length =
      (state.savepointStack ++ [name]).length := by
    rw [length_append, length_append, tracks.depth]
    rfl
  have pristine : ∀ (depth : Nat) (view : List Row),
    (views ++ [table.underlyingRows])[depth]? = some view →
      view = table.underlyingRows := by
    intro depth view stored
    rcases mem_append.mp (mem_of_getElem? stored) with older | newest
    · obtain ⟨position, seen⟩ := mem_iff_getElem?.mp older
      exact tracks.pristine position view seen (.inl absent)
    · exact mem_singleton.mp newest
  obtain ⟨stack, registered, _, recorded⟩ := state
  cases absent
  cases registered with
  | false =>
    obtain ⟨-, rfl⟩ : _ ∧ recorded = [] := tracks.unregistered rfl
    exact
      { depth
        unregistered := fun _ => ⟨rfl, rfl⟩
        recorded := nofun
        outermost := nofun
        pristine := fun depth view stored _ => pristine depth view stored
        staged := nofun }
  | true =>
    have all : ∀ depth < (stack ++ [name]).length, depth ∈ recorded.insert stack.length := by
      intro depth live
      rw [length_append] at live
      rw [mem_insert_iff]
      rcases Nat.lt_succ_iff_lt_or_eq.mp live with older | newest
      · exact .inr (tracks.recorded rfl rfl depth older)
      · exact .inl newest
    exact
      { depth
        unregistered := nofun
        recorded := fun _ _ => all
        outermost := fun depth _ live outer below => all outer (below.trans_lt live)
        pristine := fun depth view stored _ => pristine depth view stored
        staged := nofun }

/-- With an overlay the savepoint is kept by the overlay's connection. -/
theorem tracks_createSavepoint_some (present : state.overlay = some overlay)
    (free : state.savepointStack.length ∉ state.savepointsBeforeOverlay) (name : String) :
    table.Tracks (table.step state (.createSavepoint name)) (views ++ [table.view state]) := by
  have kept : table.step state (.createSavepoint name) =
      { state with
        savepointStack := state.savepointStack ++ [name]
        overlay := some { overlay with connection := overlay.connection.createSavepoint } } := by
    obtain ⟨stack, registered, _, recorded⟩ := state
    cases present
    cases registered <;> rfl
  have older : ∀ depth ∈ state.savepointsBeforeOverlay,
      depth < (state.savepointStack ++ [name]).length → depth < state.savepointStack.length := by
    intro depth member live
    rw [List.length_append] at live
    exact (Nat.lt_succ_iff_lt_or_eq.mp live).resolve_right fun newest => free (newest ▸ member)
  have depth : (views ++ [table.view state]).length = (state.savepointStack ++ [name]).length := by
    rw [List.length_append, List.length_append, tracks.depth]
    rfl
  rw [kept]
  exact
    { depth
      unregistered := fun absent => nomatch present.symm.trans (tracks.unregistered absent).1
      recorded := nofun
      outermost := fun depth member live => tracks.outermost depth member (older depth member live)
      pristine := fun position view stored old => by
        have member := old.resolve_left nofun
        have live := (List.getElem?_eq_some_iff.mp stored).1
        rw [depth] at live
        rw [List.getElem?_append_left (tracks.depth ▸ older position member live)] at stored
        exact tracks.pristine position view stored (.inr member)
      staged := fun later stored => by
        obtain rfl := Option.some.inj stored
        obtain ⟨reference, stages⟩ := tracks.staged overlay present
        refine ⟨_, TransactionContext.follows_createSavepoint stages.follows, ?_, ?_⟩
        · rw [SnapshotMachine.save, List.length_append, List.length_append, stages.depth]
          rfl
        · intro position view contents newer seen saved
          rw [SnapshotMachine.save] at saved
          rcases Nat.lt_or_ge position views.length with inside | outside
          · rw [List.getElem?_append_left inside] at seen
            rw [List.getElem?_append_left (stages.depth ▸ inside)] at saved
            exact stages.shown position view contents newer seen saved
          · -- The new savepoint saw the contents the overlay shows now.
            rw [List.getElem?_append_right outside, List.getElem?_singleton] at seen
            rw [List.getElem?_append_right (stages.depth ▸ outside), stages.depth,
              List.getElem?_singleton] at saved
            split at seen
            · rw [if_pos ‹_›] at saved
              rw [← Option.some.inj seen, ← Option.some.inj saved, view_of_some present,
                stages.follows.current]
            · cases seen }

theorem tracks_createSavepoint (name : String)
    (recordable : Recordable state (.createSavepoint name)) :
    table.Tracks (table.step state (.createSavepoint name)) (views ++ [table.view state]) := by
  cases stored : state.overlay with
  | none =>
    rw [view_of_none stored]
    exact tracks_createSavepoint_none tracks stored name
  | some overlay =>
    exact tracks_createSavepoint_some tracks stored (recordable (stored ▸ rfl)) name

omit tracks

theorem getElem?_of_take {count position : Nat} {view : List Row}
    (stored : (views.take count)[position]? = some view) :
    views[position]? = some view ∧ position < count := by
  rw [getElem?_take] at stored
  split at stored
  · next below => exact ⟨stored, below⟩
  · exact nomatch stored

/-- The newer savepoints go, in the overlay too. -/
theorem Tracks.take (tracks : table.Tracks state views) (count : Nat)
    {change : ConnectionOverlay → ConnectionOverlay}
    (staged : ∀ overlay reference, table.Stages views state.savepointsBeforeOverlay
      overlay reference →
      ∃ later, table.Stages (views.take count) state.savepointsBeforeOverlay
        (change overlay) later) :
    table.Tracks
      { state with savepointStack := state.savepointStack.take count, overlay :=
        state.overlay.map change }
      (views.take count) := by
  have within : ∀ depth < (state.savepointStack.take count).length,
      depth < state.savepointStack.length :=
    fun depth below => below.trans_le (length_take_le' _ _)
  exact
    { depth := by rw [length_take, length_take, tracks.depth]
      unregistered := fun absent => by
        obtain ⟨missing, empty⟩ := tracks.unregistered absent
        exact ⟨map_eq_none_iff.mpr missing, empty⟩
      recorded := fun present missing depth below =>
        tracks.recorded present (map_eq_none_iff.mp missing) depth (within depth below)
      outermost := fun depth member below => tracks.outermost depth member (within depth below)
      pristine := fun position view left old => tracks.pristine position view
        (getElem?_of_take left).1 (old.imp_left map_eq_none_iff.mp)
      staged := fun later made => by
        obtain ⟨overlay, present, rfl⟩ := map_eq_some_iff.mp made
        obtain ⟨reference, stages⟩ := tracks.staged overlay present
        exact staged overlay reference stages }

/-- A depth that is not live is recorded no more. -/
theorem Tracks.forget (tracks : table.Tracks state views)
    (beyond : state.savepointStack.length ≤ index) :
    table.Tracks
      { state with savepointsBeforeOverlay := state.savepointsBeforeOverlay.filter (· ≠ index) }
        views := by
  have kept : ∀ depth < state.savepointStack.length, depth ∈ state.savepointsBeforeOverlay →
      depth ∈ state.savepointsBeforeOverlay.filter (· ≠ index) := fun depth live member =>
    mem_filter.mpr ⟨member, decide_eq_true (live.trans_le beyond).ne⟩
  exact
    { depth := tracks.depth
      unregistered := fun absent => by
        obtain ⟨missing, empty⟩ := tracks.unregistered absent
        exact ⟨missing, by rw [empty, filter_nil]⟩
      recorded := fun present missing depth live =>
        kept depth live (tracks.recorded present missing depth live)
      outermost := fun depth member live outer order => kept outer (order.trans_lt live)
        (tracks.outermost depth (mem_of_mem_filter member) live outer order)
      pristine := fun position view stored old =>
        tracks.pristine position view stored (old.imp_right mem_of_mem_filter)
      staged := fun overlay stored => by
        obtain ⟨reference, stages⟩ := tracks.staged overlay stored
        refine ⟨reference, stages.follows, stages.depth, fun depth view contents newer seen => ?_⟩
        have live : depth < state.savepointStack.length :=
          tracks.depth ▸ (List.getElem?_eq_some_iff.mp seen).1
        exact stages.shown depth view contents (fun member => newer (kept depth live member)) seen }

include stages in
theorem Stages.releaseSavepoint :
    ∃ later, table.Stages (views.take index) recorded
      { overlay with connection := overlay.connection.releaseSavepoint index } later := by
  refine ⟨_, follows_releaseSavepoint stages.follows index, ?_, ?_⟩
  · rw [release, length_take, length_take, stages.depth]
  · intro depth view contents newer seen saved
    obtain ⟨seen, below⟩ := getElem?_of_take seen
    rw [release, getElem?_take, if_pos below] at saved
    exact stages.shown depth view contents newer seen saved

include tracks in
theorem tracks_releaseSavepoint {name : String}
    (found : findSavepoint state.savepointStack name = some index) :
    table.Tracks (table.step state (.releaseSavepoint name)) (views.take index) := by
  have cut := tracks.take index fun _ _ stages => stages.releaseSavepoint
  simp only [step, found, notify]
  split
  · exact cut.forget (length_take_le _ _)
  · exact cut

include stages in
theorem Stages.rollbackToSavepoint (live : index < views.length) :
    ∃ later contents, reference.machine.snapshots[index]? = some contents ∧
      later.machine.current = contents ∧ table.Stages (views.take (index + 1)) recorded
        { overlay with connection := overlay.connection.rollbackToSavepoint index } later := by
  have saved := getElem?_eq_getElem (stages.depth ▸ live)
  have restored := follows_rollbackToSavepoint stages.follows index
  rw [restore, saved] at restored
  refine ⟨_, _, saved, rfl, restored, ?_, ?_⟩
  · rw [length_take, length_take, stages.depth]
  · intro depth view contents newer seen kept
    obtain ⟨seen, below⟩ := getElem?_of_take seen
    rw [getElem?_take, if_pos below] at kept
    exact stages.shown depth view contents newer seen kept

include tracks in
/-- Rolling back to a savepoint shows what it saw, and the savepoints that are left can
still give back their views. -/
theorem tracks_rollbackToSavepoint {name : String}
    (found : findSavepoint state.savepointStack name = some index) :
    table.Tracks (table.step state (.rollbackToSavepoint name)) (views.take (index + 1)) ∧
      views[index]? = some (table.view (table.step state (.rollbackToSavepoint name))) := by
  have live := findSavepoint_lt found
  have inside : index < views.length := tracks.depth ▸ live
  obtain ⟨saw, stored⟩ : ∃ saw, views[index]? = some saw := ⟨_, getElem?_eq_getElem inside⟩
  rw [stored]
  by_cases older : index ∈ state.savepointsBeforeOverlay
  · -- The overlay is dropped, and every savepoint that is left is older than it.
    have registered : state.registered = true := by
      by_contra unregistered
      rw [(tracks.unregistered (Bool.eq_false_iff.mpr unregistered)).2] at older
      exact nomatch older
    have all : ∀ depth ≤ index, depth ∈ state.savepointsBeforeOverlay.filter (· ≤ index) :=
      fun depth below => mem_filter.mpr
        ⟨tracks.outermost index older live depth below, decide_eq_true below⟩
    simp only [step, found, notify, registered, ↓reduceIte, onConnectionRollbackToSavepoint, older,
      onOverlayConnection]
    refine ⟨?_, congrArg some ((tracks.pristine index saw stored (.inr older)).trans
      (view_of_none rfl).symm)⟩
    have within : ∀ depth < (state.savepointStack.take (index + 1)).length, depth ≤ index :=
      fun depth below => Nat.lt_succ_iff.mp (below.trans_le (length_take_le _ _))
    exact
      { depth := by rw [length_take, length_take, tracks.depth]
        unregistered := nofun
        recorded := fun _ _ depth below => all depth (within depth below)
        outermost := fun depth _ below outer order => all outer (order.trans (within depth below))
        pristine := fun position view kept _ =>
          tracks.pristine position view (getElem?_of_take kept).1
          (.inr (tracks.outermost index older live position
            (Nat.lt_succ_iff.mp (getElem?_of_take kept).2)))
        staged := nofun }
  · simp only [step, found, notify, onConnectionRollbackToSavepoint, older, ↓reduceIte, ite_self]
    refine ⟨tracks.take (index + 1) fun overlay reference stages => ?_, congrArg some ?_⟩
    · obtain ⟨restored, -, -, -, left⟩ := stages.rollbackToSavepoint inside
      exact ⟨restored, left⟩
    · cases present : state.overlay with
      | none =>
        exact (tracks.pristine index saw stored (.inl present)).trans (view_of_none rfl).symm
      | some overlay =>
        obtain ⟨reference, stages⟩ := tracks.staged overlay present
        obtain ⟨restored, contents, saved, current, left⟩ := stages.rollbackToSavepoint inside
        rw [view_of_some rfl, left.follows.current, current]
        exact (stages.shown index saw contents older stored saved).symm

theorem tracks_start (table : IsolatedTable) (registered : Bool) :
    table.Tracks (.start registered) [] where
  depth := rfl
  unregistered _ := ⟨rfl, rfl⟩
  recorded _ _ _ below := nomatch below
  outermost _ member := nomatch member
  pristine _ _ stored := nomatch stored
  staged _ stored := nomatch stored

include tracks in
theorem tracks_step (step : Step) (recordable : Recordable state step) :
    table.Tracks (table.step state step) (table.viewsAfter state views step) := by
  cases step with
  | write mutations => exact tracks_write tracks mutations
  | createSavepoint name => exact tracks_createSavepoint tracks name recordable
  | releaseSavepoint name =>
    cases found : findSavepoint state.savepointStack name with
    | none =>
      simp only [IsolatedTable.step, viewsAfter, found]
      exact tracks
    | some index =>
      have released := tracks_releaseSavepoint tracks found
      simpa only [viewsAfter, found] using released
  | rollbackToSavepoint name =>
    cases found : findSavepoint state.savepointStack name with
    | none =>
      simp only [IsolatedTable.step, viewsAfter, found]
      exact tracks
    | some index =>
      have restored := (tracks_rollbackToSavepoint tracks found).1
      simpa only [viewsAfter, found] using restored

theorem tracks_run (steps : List Step) (tracks : table.Tracks state views)
    (recordable : table.RunRecordable state steps) :
    table.Tracks (table.run state views steps).1 (table.run state views steps).2 := by
  induction steps generalizing state views with
  | nil => exact tracks
  | cons step rest ih => exact ih (tracks_step tracks step recordable.1) recordable.2

/-- In every run whose savepoints take no depth that is still recorded as older than
the overlay, rolling back to a live savepoint shows what the transaction saw when
the savepoint was created. -/
theorem run_rollback_restores (table : IsolatedTable) (registered : Bool) (steps : List Step)
    (recordable : table.RunRecordable (.start registered) steps) (name : String) (index : Nat)
    (found : findSavepoint (table.run (.start registered) [] steps).1.savepointStack name =
      some index) :
    (table.run (.start registered) [] steps).2[index]? =
      some (table.view (table.step (table.run (.start registered) [] steps).1
        (.rollbackToSavepoint name))) :=
  (tracks_rollbackToSavepoint (tracks_run steps (tracks_start table registered) recordable) found).2

/-- An isolated table of texts, keyed by themselves, with nothing committed. -/
def letters : IsolatedTable :=
  let schema := TransactionContext.lettersContext.manager.schema
  { schema
    underlyingRows := []
    tombstoneName := "_tombstone"
    overlayName := "_overlay_t_1"
    overlayModule :=
      { TransactionContext.lettersContext with
        manager :=
          { TransactionContext.lettersContext.manager with
            schema := createOverlaySchema "_tombstone" "_overlay_t_1" schema } }
    overlaySchema := rfl }

/-- Insert a letter. -/
def writeLetter (letter : UInt16) : Step :=
  .write [.insert (TransactionContext.letterRow letter ++ [liveFlag]) none]

/-- A rollback to the second savepoint leaves the first letter. -/
theorem run_rollback_restores_letters :
    letters.RunRecordable (.start true)
        [.createSavepoint "a", writeLetter 97, .createSavepoint "b", writeLetter 98] ∧
      findSavepoint (letters.run (.start true) []
        [.createSavepoint "a", writeLetter 97, .createSavepoint "b",
          writeLetter 98]).1.savepointStack
          "b" = some 1 ∧
      some [TransactionContext.letterRow 97] =
        some (letters.view (letters.step (letters.run (.start true) []
        [.createSavepoint "a", writeLetter 97, .createSavepoint "b", writeLetter 98]).1
          (.rollbackToSavepoint "b"))) :=
  have recordable : letters.RunRecordable (.start true)
      [.createSavepoint "a", writeLetter 97, .createSavepoint "b", writeLetter 98] :=
    ⟨by decide, trivial, by decide, trivial, trivial⟩
  ⟨recordable, by decide, run_rollback_restores letters true _ recordable "b" 1 (by decide)⟩

/-- Releasing `a` leaves the depth of `b` recorded. The savepoint `d` takes that depth
while there is an overlay, and rolling back to it drops the overlay with the
letter that `d` had seen. -/
theorem rollback_loses_letter :
    let ended := letters.run (.start true) []
      [.createSavepoint "a", .createSavepoint "b", .releaseSavepoint "a", writeLetter 97,
        .createSavepoint "c", .createSavepoint "d"]
    findSavepoint ended.1.savepointStack "d" = some 1 ∧
      ended.2[1]? = some [letterRow 97] ∧
      letters.view (letters.step ended.1 (.rollbackToSavepoint "d")) = [] := by
  decide

end IsolatedTable

end Quereus.Isolation
