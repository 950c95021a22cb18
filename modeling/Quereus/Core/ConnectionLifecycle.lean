import Mathlib.Data.List.Basic

/-! # The lifecycle of a connection

The calls a connection may get, after `connection-lifecycle-check.ts`: what is legal
for a connection as it stands, and what becomes of it once the call is settled.
-/

namespace Quereus.Core

abbrev ConnectionId := Nat

inductive LifecycleCall where
  | begin
  | commit
  | rollback
  | createSavepoint (depth : Nat)
  | releaseSavepoint (depth : Nat)
  | rollbackToSavepoint (depth : Nat)
  deriving DecidableEq

inductive LifecycleState where
  | idle
  | opened
  | commitFailed
  deriving DecidableEq

structure ConnectionRecord where
  state : LifecycleState
  /-- The savepoints the connection holds while it is open. -/
  depth : Nat
  deriving DecidableEq

/-- A call that has been settled. -/
structure Event where
  connection : ConnectionId
  call : LifecycleCall
  resolved : Bool
  deriving DecidableEq

def LifecycleCall.isSavepoint : LifecycleCall → Bool
  | .createSavepoint _ | .releaseSavepoint _ | .rollbackToSavepoint _ => true
  | _ => false

namespace ConnectionRecord

def idle : ConnectionRecord :=
  ⟨.idle, 0⟩

variable (record : ConnectionRecord)

/-- Whether the depth of a savepoint call is the next one or one that is held. -/
def inRange : LifecycleCall → Bool
  | .createSavepoint depth => depth = record.depth
  | .releaseSavepoint depth | .rollbackToSavepoint depth => depth < record.depth
  | _ => true

/-- Whether the connection can take a call as it stands, the depth apart. -/
def takes : LifecycleCall → Bool
  | .begin => record.state = .idle
  | .rollback => record.state ≠ .idle
  | _ => record.state = .opened

/-- Whether a call is legal. With `strict` off the depth of a savepoint call is not
looked at. -/
def legal (strict : Bool) (call : LifecycleCall) : Bool :=
  record.takes call && (!strict || record.inRange call)

/-- A call that rejects leaves the connection as it was. But a rejected commit leaves
it able to take a rollback only, and a rollback ends the transaction either way. -/
def settle (call : LifecycleCall) (resolved : Bool) : ConnectionRecord :=
  match call, resolved with
  | .begin, true => { record with state := .opened }
  | .commit, true => idle
  | .commit, false => { record with state := .commitFailed }
  | .rollback, _ => idle
  | .createSavepoint depth, true => { record with depth := depth + 1 }
  | .releaseSavepoint depth, true => { record with depth := depth }
  | .rollbackToSavepoint depth, true => { record with depth := depth + 1 }
  | _, false => record

end ConnectionRecord

/-- One call of the connection that is watched. -/
def watch (strict : Bool) (record : ConnectionRecord) (event : Event) : Option ConnectionRecord :=
  if record.legal strict event.call then some (record.settle event.call event.resolved) else none

/-- What the calls so far have made of a connection, if all of its calls were legal. -/
def track (strict : Bool) (connection : ConnectionId) (calls : List Event) :
    Option ConnectionRecord :=
  (calls.filter fun event => event.connection = connection).foldlM (watch strict) .idle

section Track

variable {strict : Bool} {connection : ConnectionId} {calls : List Event}
    {record : ConnectionRecord}

theorem track_append_own (tracked : track strict connection calls = some record)
    {call : LifecycleCall}
    (legal : record.legal strict call = true) (resolved : Bool) :
    track strict connection (calls ++ [⟨connection, call, resolved⟩]) =
      some (record.settle call resolved) := by
  unfold track at tracked ⊢
  rw [List.filter_append, List.foldlM_append, tracked]
  simp [watch, legal]

end Track

end Quereus.Core
