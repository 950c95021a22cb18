import Mathlib.Data.List.Sort
import Quereus.Lib.KeyedList

/-!
# The transaction coordinator of a storage module

`quereus-store/src/common/transaction.ts`: the writes of a transaction are kept in one log over
all stores, together with an index of the last write of every store and key. A savepoint is a
pair of positions in the log and in the queue of events. Operations derived from logged writes
are spliced in behind them, and the operations of a store can be taken out again; both move the
positions of the savepoints.

A store handle is a value of `ς`, an event a value of `ε`. Maps and sets that iterate in
insertion order are lists of entries.
-/

namespace Quereus.Store

abbrev Bytes := List UInt8

/-- Two lower-case hexadecimal digits. -/
def hexByte (byte : UInt8) : List Char :=
  [Nat.digitChar (byte.toNat / 16), Nat.digitChar (byte.toNat % 16)]

def bytesToHex (key : Bytes) : String :=
  String.ofList (key.flatMap hexByte)

def compareBytes : Bytes → Bytes → Ordering
  | [], [] => .eq
  | [], _ :: _ => .lt
  | _ :: _, [] => .gt
  | a :: as, b :: bs => if a ≠ b then compare a b else compareBytes as bs

/-- An operation of a transaction. -/
inductive PendingOp (ς : Type) where
  | put (store : ς) (key value : Bytes)
  | delete (store : ς) (key : Bytes)
deriving DecidableEq

namespace PendingOp

variable {ς : Type}

def store : PendingOp ς → ς
  | .put store _ _ | .delete store _ => store

def key : PendingOp ς → Bytes
  | .put _ key _ | .delete _ key => key

def value : PendingOp ς → Option Bytes
  | .put _ _ value => some value
  | .delete _ _ => none

end PendingOp

/-- The last writes to one store, by hexadecimal key. -/
structure PendingBucket where
  puts : List (String × Bytes × Bytes)
  deletes : List String
deriving DecidableEq

/-- The view of a store without pending operations. -/
def emptyPending : PendingBucket :=
  ⟨[], []⟩

/-- The puts of a view in key order, and its deletes. -/
structure OrderedPendingOps where
  puts : List (Bytes × Bytes)
  deletes : List String
deriving DecidableEq

namespace PendingBucket

def record {ς : Type} (bucket : PendingBucket) (op : PendingOp ς) : PendingBucket :=
  match op with
  | .put _ key value =>
    let hex := bytesToHex key
    { puts := KeyedList.put bucket.puts hex (key, value)
      deletes := bucket.deletes.filter (· ≠ hex) }
  | .delete _ key =>
    let hex := bytesToHex key
    { puts := bucket.puts.filter (·.1 ≠ hex)
      deletes := if hex ∈ bucket.deletes then bucket.deletes else bucket.deletes ++ [hex] }

def orderedView (bucket : PendingBucket) : OrderedPendingOps where
  puts := (bucket.puts.map Prod.snd).insertionSort fun a b => (compareBytes a.1 b.1).isLE
  deletes := bucket.deletes

end PendingBucket

/-- The buckets of the stores with pending operations. -/
abbrev PendingIndex (ς : Type) := List (ς × PendingBucket)

namespace PendingIndex

variable {ς : Type} [DecidableEq ς]

def bucketIn (index : PendingIndex ς) (store : ς) : PendingBucket :=
  (index.lookup store).getD emptyPending

/-- One step of the incremental index. -/
def record (index : PendingIndex ς) (op : PendingOp ς) : PendingIndex ς :=
  KeyedList.put index op.store ((index.bucketIn op.store).record op)

end PendingIndex

/-- An operation owed by a derived structure, a delete when there is no value. -/
structure DerivedOp where
  key : Bytes
  value : Option Bytes

def DerivedOp.against {ς : Type} (target : ς) (op : DerivedOp) : PendingOp ς :=
  match op.value with
  | none => .delete target op.key
  | some value => .put target op.key value

/-- What a derived structure owes for a write, from the value before and after it. -/
abbrev DeriveOps := Option Bytes → Option Bytes → List DerivedOp

structure SavepointSnapshot where
  opIndex : Nat
  eventIndex : Nat
deriving DecidableEq

/-- The contents of all stores of a module. -/
abbrev Stores (ς : Type) := ς → Bytes → Option Bytes

namespace Stores

variable {ς : Type} [DecidableEq ς]

/-- One operation of a batch. -/
def write (stores : Stores ς) (op : PendingOp ς) : Stores ς :=
  Function.update stores op.store (Function.update (stores op.store) op.key op.value)

def writeAll (stores : Stores ς) (ops : List (PendingOp ς)) : Stores ς :=
  ops.foldl write stores

end Stores

/-- The part of the storage provider that a commit depends on. -/
structure Provider (ς : Type) where
  /-- Whether one batch can span several stores. -/
  atomicBatch : Bool
  /-- The stores whose batch fails. -/
  failing : ς → Bool

structure TransactionCoordinator (ς ε : Type) where
  inTransaction : Bool
  pendingOps : List (PendingOp ς)
  pendingEvents : List ε
  savepointStack : List SavepointSnapshot
  pendingIndex : PendingIndex ς
deriving DecidableEq

/-- How a commit ends. -/
structure StoreCommit (ς ε : Type) where
  stores : Stores ς
  emitted : List ε
  failed : Bool

namespace TransactionCoordinator

variable {ς ε : Type}

def clearTransaction : TransactionCoordinator ς ε :=
  ⟨false, [], [], [], []⟩

variable [DecidableEq ς] (coordinator : TransactionCoordinator ς ε)

def begin : TransactionCoordinator ς ε :=
  if coordinator.inTransaction then coordinator else ⟨true, [], [], [], []⟩

/-- Queue a put or a delete. -/
def queue (op : PendingOp ς) : Except String (TransactionCoordinator ς ε) :=
  if coordinator.inTransaction then
    .ok { coordinator with
      pendingOps := coordinator.pendingOps ++ [op]
      pendingIndex := coordinator.pendingIndex.record op }
  else .error "Cannot queue operation outside transaction"

def put (key value : Bytes) (store : ς) : Except String (TransactionCoordinator ς ε) :=
  coordinator.queue (.put store key value)

def delete (key : Bytes) (store : ς) : Except String (TransactionCoordinator ς ε) :=
  coordinator.queue (.delete store key)

/-- Outside a transaction an event is emitted at once. -/
def queueEvent (event : ε) : TransactionCoordinator ς ε × List ε :=
  if coordinator.inTransaction then
    ({ coordinator with pendingEvents := coordinator.pendingEvents ++ [event] }, [])
  else (coordinator, [event])

def opsByStore : List (ς × List (PendingOp ς)) :=
  KeyedList.groupBy PendingOp.store coordinator.pendingOps

/-- One batch for each store, until one fails. -/
def writeBatches (provider : Provider ς) (stores : Stores ς) :
    List (ς × List (PendingOp ς)) → Stores ς × Bool
  | [] => (stores, false)
  | (store, ops) :: rest =>
    if provider.failing store then (stores, true)
    else writeBatches provider (stores.writeAll ops) rest

/-- One batch for all stores, which fails as a whole. -/
def writeAtomic (provider : Provider ς) (stores : Stores ς)
    (groups : List (ς × List (PendingOp ς))) : Stores ς × Bool :=
  if groups.any fun group => provider.failing group.1 then (stores, true)
  else (stores.writeAll (groups.flatMap Prod.snd), false)

def commit (provider : Provider ς) (stores : Stores ς) :
    StoreCommit ς ε × TransactionCoordinator ς ε :=
  if coordinator.inTransaction then
    let (written, failed) :=
      if provider.atomicBatch then writeAtomic provider stores coordinator.opsByStore
      else writeBatches provider stores coordinator.opsByStore
    (⟨written, if failed then [] else coordinator.pendingEvents, failed⟩, clearTransaction)
  else (⟨stores, [], false⟩, coordinator)

def rollback : TransactionCoordinator ς ε :=
  if coordinator.inTransaction then clearTransaction else coordinator

def createSavepoint (depth : Nat) : TransactionCoordinator ς ε :=
  let started := coordinator.begin
  if started.savepointStack.length ≠ depth then started
  else { started with
    savepointStack := started.savepointStack ++
      [⟨started.pendingOps.length, started.pendingEvents.length⟩] }

def releaseSavepoint (targetDepth : Nat) : TransactionCoordinator ς ε :=
  if targetDepth > coordinator.savepointStack.length then coordinator
  else { coordinator with savepointStack := coordinator.savepointStack.take targetDepth }

/-- The index of the first operations of the log. -/
def replayOps (ops : List (PendingOp ς)) (opCount : Nat) : PendingIndex ς :=
  (ops.take opCount).foldl PendingIndex.record []

def rebuildPendingIndex : TransactionCoordinator ς ε :=
  { coordinator with
    pendingIndex := replayOps coordinator.pendingOps coordinator.pendingOps.length }

def rollbackToSavepoint (targetDepth : Nat) : TransactionCoordinator ς ε :=
  match coordinator.savepointStack[targetDepth]? with
  | none => coordinator
  | some snapshot =>
    { coordinator with
      pendingOps := coordinator.pendingOps.take snapshot.opIndex
      pendingEvents := coordinator.pendingEvents.take snapshot.eventIndex
      savepointStack := coordinator.savepointStack.take (targetDepth + 1) }.rebuildPendingIndex

/-- The loop of `rewriteLog` at position `i`: the savepoints at this position are moved to the
end of the new log, which then takes in what the operation there becomes. -/
def rewriteLoop : List (List (PendingOp ς)) → Nat → List SavepointSnapshot → List (PendingOp ς) →
    List SavepointSnapshot × List (PendingOp ς)
  | blocks, i, stack, log =>
    let here := (stack.takeWhile (·.opIndex = i)).map fun snapshot =>
      { snapshot with opIndex := log.length }
    let later := stack.dropWhile (·.opIndex = i)
    match blocks with
    | [] => (here ++ later, log)
    | block :: rest =>
      let (moved, rewritten) := rewriteLoop rest (i + 1) later (log ++ block)
      (here ++ moved, rewritten)

/-- Replace the operations of the log, each by its block. -/
def rewriteLog (blocks : List (List (PendingOp ς))) : TransactionCoordinator ς ε :=
  let (stack, log) := rewriteLoop blocks 0 coordinator.savepointStack []
  { coordinator with savepointStack := stack, pendingOps := log }.rebuildPendingIndex

/-- The operations derived from each operation of the log. `latest` has the last value logged
for a key of the source. -/
def derivedOps (committed : Bytes → Option Bytes) (source target : ς) (derive : DeriveOps) :
    List (String × Option Bytes) → List (PendingOp ς) → List (Option (List (PendingOp ς)))
  | _, [] => []
  | latest, op :: rest =>
    if op.store ≠ source then none :: derivedOps committed source target derive latest rest
    else
      let hex := bytesToHex op.key
      let before := (latest.lookup hex).getD (committed op.key)
      some ((derive before op.value).map (DerivedOp.against target)) ::
        derivedOps committed source target derive (KeyedList.put latest hex op.value) rest

def queueDerivedOps (stores : Stores ς) (source target : ς) (derive : DeriveOps) :
    TransactionCoordinator ς ε :=
  let derived := derivedOps (stores source) source target derive [] coordinator.pendingOps
  if derived.any Option.isSome then
    coordinator.rewriteLog
      (coordinator.pendingOps.zipWith (fun op derived => op :: derived.getD []) derived)
  else coordinator

def discardOpsFor (store : ς) : TransactionCoordinator ς ε :=
  if (coordinator.pendingIndex.lookup store).isSome then
    coordinator.rewriteLog
      (coordinator.pendingOps.map fun op => if op.store = store then [] else [op])
  else coordinator

def getPendingOpsForStore (store : ς) : PendingBucket :=
  coordinator.pendingIndex.bucketIn store

def getOrderedPendingOps (store : ς) : OrderedPendingOps :=
  (coordinator.pendingIndex.bucketIn store).orderedView

def getOrderedPendingOpsAtSavepoints (store : ς) : List OrderedPendingOps :=
  coordinator.savepointStack.map fun snapshot =>
    ((replayOps coordinator.pendingOps snapshot.opIndex).bucketIn store).orderedView

end TransactionCoordinator

/-- The calls on a coordinator. -/
inductive TransactionStep (ς ε : Type) where
  | begin
  | queue (op : PendingOp ς)
  | queueEvent (event : ε)
  | createSavepoint (depth : Nat)
  | releaseSavepoint (targetDepth : Nat)
  | rollbackToSavepoint (targetDepth : Nat)
  | queueDerivedOps (source target : ς) (derive : DeriveOps)
  | discardOpsFor (store : ς)
  | commit (provider : Provider ς)
  | rollback

/-- A coordinator with the stores it writes and the events it has emitted. -/
structure TransactionState (ς ε : Type) where
  coordinator : TransactionCoordinator ς ε
  stores : Stores ς
  emitted : List ε

namespace TransactionState

variable {ς ε : Type} [DecidableEq ς] (state : TransactionState ς ε)

/-- A call that throws changes nothing. -/
def step : TransactionStep ς ε → TransactionState ς ε
  | .begin => { state with coordinator := state.coordinator.begin }
  | .queue op =>
    match state.coordinator.queue op with
    | .ok coordinator => { state with coordinator }
    | .error _ => state
  | .queueEvent event =>
    let (coordinator, emitted) := state.coordinator.queueEvent event
    { state with coordinator, emitted := state.emitted ++ emitted }
  | .createSavepoint depth =>
    { state with coordinator := state.coordinator.createSavepoint depth }
  | .releaseSavepoint targetDepth =>
    { state with coordinator := state.coordinator.releaseSavepoint targetDepth }
  | .rollbackToSavepoint targetDepth =>
    { state with coordinator := state.coordinator.rollbackToSavepoint targetDepth }
  | .queueDerivedOps source target derive =>
    { state with
      coordinator := state.coordinator.queueDerivedOps state.stores source target derive }
  | .discardOpsFor store => { state with coordinator := state.coordinator.discardOpsFor store }
  | .commit provider =>
    let (outcome, coordinator) := state.coordinator.commit provider state.stores
    { coordinator, stores := outcome.stores, emitted := state.emitted ++ outcome.emitted }
  | .rollback => { state with coordinator := state.coordinator.rollback }

def run (state : TransactionState ς ε) (steps : List (TransactionStep ς ε)) :
    TransactionState ς ε :=
  steps.foldl step state

end TransactionState

end Quereus.Store
