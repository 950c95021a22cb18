import Mathlib.Data.List.Basic

/-! # Transactions with savepoints as a stack of snapshots

The machine keeps the committed contents, the contents a transaction sees, and
one snapshot per open savepoint, the outermost first. Rolling back to a savepoint
keeps it and drops the deeper ones; releasing it drops it as well.
-/

structure SnapshotMachine (σ : Type*) where
  committed : σ
  current : σ
  snapshots : List σ

namespace SnapshotMachine

variable {σ : Type*}

/-- The machine between two transactions. -/
def idle (contents : σ) : SnapshotMachine σ :=
  ⟨contents, contents, []⟩

variable (machine : SnapshotMachine σ)

def write (change : σ → σ) : SnapshotMachine σ :=
  { machine with current := change machine.current }

def save : SnapshotMachine σ :=
  { machine with snapshots := machine.snapshots ++ [machine.current] }

def release (depth : Nat) : SnapshotMachine σ :=
  { machine with snapshots := machine.snapshots.take depth }

/-- Without a savepoint of that depth nothing happens. -/
def restore (depth : Nat) : SnapshotMachine σ :=
  match machine.snapshots[depth]? with
  | none => machine
  | some snapshot =>
    { machine with current := snapshot, snapshots := machine.snapshots.take (depth + 1) }

/-- Tell the whole transaction differently, what the savepoints saw included. -/
def amend (change : σ → σ) : SnapshotMachine σ :=
  { machine with
    current := change machine.current
    snapshots := machine.snapshots.map change }

theorem amend_restore (change : σ → σ) (depth : Nat) :
    (machine.amend change).restore depth = (machine.restore depth).amend change := by
  simp only [amend, restore, List.getElem?_map]
  cases machine.snapshots[depth]? with
  | none => rfl
  | some snapshot => simp

theorem amend_eq_self {change : σ → σ} (current : change machine.current = machine.current)
    (snapshots : ∀ snapshot ∈ machine.snapshots, change snapshot = snapshot) :
    machine.amend change = machine := by
  have unchanged : machine.snapshots.map change = machine.snapshots := by
    simpa using List.map_congr_left snapshots
  rw [amend, current, unchanged]

def commit : SnapshotMachine σ :=
  idle machine.current

def rollback : SnapshotMachine σ :=
  idle machine.committed

end SnapshotMachine
