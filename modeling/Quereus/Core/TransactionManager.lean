import Mathlib.Data.Finset.Basic
import Mathlib.Data.List.Nodup
import Quereus.Lib.Fallible
import Quereus.Core.ConnectionLifecycle
import Quereus.Core.SavepointNames

/-! # The transaction manager

How `TransactionManager` and `Database` bring the registered connections through a
transaction: begin, savepoints, an early commit of one connection, commit and
rollback, while connections come and go.

A call of a connection is awaited. While it is, other connections may register, and
in the end it resolves or rejects. An environment says which of it happens; it knows
all the calls so far. Autocommit is not being in a transaction: the source sets the
two flags together.
-/

namespace Quereus.Core

open Fallible

inductive TransactionSource where
  | explicit
  | implicit
  deriving DecidableEq

/-- The registered connections, in the order they came. -/
structure Registry where
  connections : List ConnectionId
  nodup : connections.Nodup

namespace Registry

def empty : Registry :=
  ⟨[], List.nodup_nil⟩

/-- A connection that is registered already keeps its place. -/
def set (registry : Registry) (connection : ConnectionId) : Registry :=
  if fresh : connection ∉ registry.connections then
    ⟨registry.connections ++ [connection], by
      rw [List.nodup_append]
      refine ⟨registry.nodup, List.nodup_singleton _, fun first inside second last => ?_⟩
      rw [List.mem_singleton.mp last]
      exact fun same => fresh (same ▸ inside)⟩
  else registry

def delete (registry : Registry) (connection : ConnectionId) : Registry :=
  ⟨registry.connections.filter (· ≠ connection), registry.nodup.filter _⟩

variable {registry : Registry} {connection other : ConnectionId}

@[simp] theorem mem_set :
    other ∈ (registry.set connection).connections ↔ other = connection ∨
      other ∈ registry.connections := by
  unfold set
  split
  · simp [or_comm]
  · next known =>
    rw [not_not] at known
    exact (or_iff_right_of_imp fun same => same ▸ known).symm

@[simp] theorem mem_delete :
    other ∈ (registry.delete connection).connections ↔
      other ≠ connection ∧ other ∈ registry.connections := by
  simp [delete, and_comm]

end Registry

structure Manager where
  activeConnections : Registry
  inTransaction : Bool
  transactionSource : Option TransactionSource
  /-- True during a commit and a rollback. -/
  closingTransaction : Bool
  openConnections : Finset ConnectionId
  savepointStack : List String
  /-- The calls that have been settled, in their order. -/
  calls : List Event

inductive Failure where
  | rejected (connection : ConnectionId) (call : LifecycleCall)
  | raised (message : String)
  deriving DecidableEq

/-- What the connections do. -/
structure Environment where
  /-- Whether a call resolves, given the calls before it. -/
  resolves : List Event → ConnectionId → LifecycleCall → Bool
  /-- The connections that register while the call is awaited. -/
  arrivals : List Event → ConnectionId → LifecycleCall → List ConnectionId

/-- No savepoint call rejects. -/
def Environment.SavepointsResolve (environment : Environment) : Prop :=
  ∀ calls connection call, LifecycleCall.isSavepoint call = true →
    environment.resolves calls connection call = true

namespace Manager

def initial : Manager :=
  ⟨.empty, false, none, false, ∅, [], []⟩

section Calls

variable (environment : Environment) (arrive : ConnectionId → Manager → Manager)

/-- Await a call of a connection. -/
def call (connection : ConnectionId) (call : LifecycleCall) (manager : Manager) :
    Outcome Manager Failure :=
  let arrived := (environment.arrivals manager.calls connection call).foldl
    (fun manager arrival => arrive arrival manager) manager
  let resolved := environment.resolves manager.calls connection call
  ({ arrived with calls := arrived.calls ++ [⟨connection, call, resolved⟩] },
    if resolved then none else some (.rejected connection call))

/-- A rejected savepoint is logged and passed over. -/
def replaySavepoints (connection : ConnectionId) (manager : Manager) : Manager :=
  eachSettled (fun depth => call environment arrive connection (.createSavepoint depth))
    (List.range manager.savepointStack.length) manager

def joinConnection (connection : ConnectionId) (manager : Manager) : Outcome Manager Failure :=
  if manager.inTransaction = false ∨ connection ∈ manager.openConnections then done manager
  else if manager.closingTransaction then done manager
  else
    andThen
      (onFailure
        (call environment arrive connection .begin
          { manager with openConnections := insert connection manager.openConnections })
        fun failed => { failed with openConnections := failed.openConnections.erase connection })
      fun begun => done (replaySavepoints environment arrive connection begun)

/-- `Database.registerConnection`: a rejected begin leaves the connection unregistered. -/
def registerConnection (connection : ConnectionId) (manager : Manager) : Outcome Manager Failure :=
  onFailure
    (joinConnection environment arrive connection
      { manager with activeConnections := manager.activeConnections.set connection })
    fun failed => { failed with activeConnections := failed.activeConnections.delete connection }

end Calls

/-- A connection that registers while a call is awaited; while it does, others may, to a
given nesting. One that is registered does not register again. -/
def arrive (environment : Environment) : Nat → ConnectionId → Manager → Manager
  | 0, _, manager => manager
  | nesting + 1, connection, manager =>
    if connection ∈ manager.activeConnections.connections then manager
    else (registerConnection environment (arrive environment nesting) connection manager).1

section Operations

variable (environment : Environment) (arrive : ConnectionId → Manager → Manager)

variable (manager : Manager)

/-- The registered connections that are open, in registration order. -/
def openParticipants : List ConnectionId :=
  manager.activeConnections.connections.filter (· ∈ manager.openConnections)

/-- A connection leaves the open set when its commit resolves. -/
def commitOpenConnections : Outcome Manager Failure :=
  each (fun connection manager =>
      andThen (call environment arrive connection .commit manager) fun committed =>
        done { committed with openConnections := committed.openConnections.erase connection })
    manager.openParticipants manager

/-- A rejected rollback is logged and passed over. -/
def rollbackOpenConnections : Manager :=
  eachSettled (fun connection manager =>
      call environment arrive connection .rollback
        { manager with openConnections := manager.openConnections.erase connection })
    manager.openParticipants manager

def resetToAutocommit : Manager :=
  { manager with
    inTransaction := false
    transactionSource := none
    closingTransaction := false
    openConnections := ∅
    savepointStack := [] }

/-- `failed` says whether an assertion or a deferred constraint fails. -/
def commitTransaction (failed : Option Failure) (manager : Manager) : Outcome Manager Failure :=
  if manager.inTransaction = false then done manager
  else
    let closing := { manager with closingTransaction := true }
    let committed := match failed with
      | some failure => (closing, some failure)
      | none => commitOpenConnections environment arrive closing
    let settled := onFailure committed (rollbackOpenConnections environment arrive)
    (settled.1.resetToAutocommit, settled.2)

def rollbackTransaction : Manager :=
  if manager.inTransaction = false then manager
  else (rollbackOpenConnections environment arrive
    { manager with closingTransaction := true }).resetToAutocommit

def beginTransaction (source : TransactionSource) (manager : Manager) : Outcome Manager Failure :=
  if manager.inTransaction then
    match source, manager.transactionSource with
    | .implicit, _ => done manager
    -- The upgrade of an implicit transaction clears the savepoint stack.
    | .explicit, some .implicit =>
      done { manager with transactionSource := some .explicit, savepointStack := [] }
    | .explicit, _ =>
      (manager, some (.raised "Cannot begin transaction: a transaction is already active"))
  else
    andThen
      (onFailure
        (each (joinConnection environment arrive) manager.activeConnections.connections
          { manager with inTransaction := true, transactionSource := some source })
        (rollbackTransaction environment arrive))
      fun begun =>
        done (match source with
          | .explicit => { begun with savepointStack := [] }
          | .implicit => begun)

def ensureTransaction : Outcome Manager Failure :=
  if manager.inTransaction then done manager else beginTransaction environment arrive
    .implicit manager

def commitConnectionEarly (connection : ConnectionId) (manager : Manager) :
    Outcome Manager Failure :=
  if connection ∉ manager.openConnections then
    (manager, some (.raised ("Internal error: early commit of connection " ++ toString connection ++
      ", which is not open in the current transaction")))
  else
    onFailure
      (andThen (call environment arrive connection .commit manager) fun committed =>
        joinConnection environment arrive connection
          { committed with openConnections := committed.openConnections.erase connection })
      (rollbackTransaction environment arrive)

/-- Send a call to every registered connection, up to the first that rejects it. -/
def broadcast (method : LifecycleCall) (manager : Manager) : Outcome Manager Failure :=
  each (fun connection => call environment arrive connection method)
    manager.activeConnections.connections manager

def createSavepointBroadcast (name : String) (manager : Manager) : Outcome Manager Failure :=
  broadcast environment arrive (.createSavepoint manager.savepointStack.length)
    { manager with savepointStack := manager.savepointStack ++ [name] }

def releaseSavepointBroadcast (name : String) (manager : Manager) : Outcome Manager Failure :=
  match findSavepoint manager.savepointStack name with
  | none => (manager, some (.raised ("No such savepoint: " ++ name)))
  | some index =>
    broadcast environment arrive (.releaseSavepoint index)
      { manager with savepointStack := manager.savepointStack.take index }

def rollbackToSavepointBroadcast (name : String) (manager : Manager) : Outcome Manager Failure :=
  match findSavepoint manager.savepointStack name with
  | none => (manager, some (.raised ("No such savepoint: " ++ name)))
  | some index =>
    broadcast environment arrive (.rollbackToSavepoint index)
      { manager with savepointStack := manager.savepointStack.take (index + 1) }

def upgradeToExplicitTransaction : Manager :=
  if manager.transactionSource = some .implicit then
    { manager with transactionSource := some .explicit }
  else manager

end Operations

/-- A connection is not unregistered during an implicit transaction. -/
def unregisterConnection (connection : ConnectionId) (manager : Manager) : Manager :=
  if manager.transactionSource = some .implicit then manager
  else { manager with activeConnections := manager.activeConnections.delete connection }

def removeConnection (connection : ConnectionId) (manager : Manager) : Manager :=
  { manager with activeConnections := manager.activeConnections.delete connection }

end Manager

inductive Operation where
  | beginTransaction (source : TransactionSource)
  | ensureTransaction
  | registerConnection (connection : ConnectionId)
  | unregisterConnection (connection : ConnectionId)
  | removeConnection (connection : ConnectionId)
  /-- The SAVEPOINT statement, which makes the transaction explicit. -/
  | savepoint (name : String)
  /-- A savepoint of a statement's own. -/
  | statementSavepoint (name : String)
  | release (name : String)
  | rollbackTo (name : String)
  | commitConnectionEarly (connection : ConnectionId)
  | commitTransaction (failed : Option Failure)
  | rollbackTransaction

namespace Manager

/-- One operation, with connections that register meanwhile to a given nesting. Both
kinds of savepoints make sure of a transaction first. -/
def perform (environment : Environment) (nesting : Nat) (manager : Manager)
    (operation : Operation) :
    Outcome Manager Failure :=
  let arrive := arrive environment nesting
  match operation with
  | .beginTransaction source => beginTransaction environment arrive source manager
  | .ensureTransaction => ensureTransaction environment arrive manager
  | .registerConnection connection => registerConnection environment arrive connection manager
  | .unregisterConnection connection => done (unregisterConnection connection manager)
  | .removeConnection connection => done (removeConnection connection manager)
  | .savepoint name =>
    andThen (ensureTransaction environment arrive manager) fun ensured =>
      createSavepointBroadcast environment arrive name (upgradeToExplicitTransaction ensured)
  | .statementSavepoint name =>
    andThen (ensureTransaction environment arrive manager)
      (createSavepointBroadcast environment arrive name)
  | .release name => releaseSavepointBroadcast environment arrive name manager
  | .rollbackTo name => rollbackToSavepointBroadcast environment arrive name manager
  | .commitConnectionEarly connection => commitConnectionEarly environment arrive connection manager
  | .commitTransaction failed => commitTransaction environment arrive failed manager
  | .rollbackTransaction => done (rollbackTransaction environment arrive manager)

/-- Failures are the caller's; the manager goes on. -/
def run (environment : Environment) (nesting : Nat) (operations : List Operation)
    (manager : Manager) :
    Manager :=
  eachSettled (fun operation manager => perform environment nesting manager operation)
    operations manager

end Manager

end Quereus.Core
