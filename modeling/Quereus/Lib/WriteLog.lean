import Mathlib.Data.List.Induction
import Quereus.Lib.KeyTree

/-! # Logs of keyed writes

A log is a list of writes, oldest first, each of which stores an item or removes
the item at a key. What a tree holds at a key after a log is replayed over it is
decided by the last write at that key, and only if there is none by the tree.
-/

namespace WriteLog

open KeyTree

variable {κ ν : Type} (key : ν → κ) (cmp : κ → κ → Ordering)

inductive Write (κ ν : Type) where
  | put (item : ν)
  | remove (key : κ)

namespace Write

/-- The key a write is about. -/
def place : Write κ ν → κ
  | .put item => key item
  | .remove unwanted => unwanted

/-- What a write leaves at its key. -/
def left : Write κ ν → Option ν
  | .put item => some item
  | .remove _ => none

def apply (tree : List ν) : Write κ ν → List ν
  | .put item => upsert key cmp tree item
  | .remove unwanted => erase key cmp tree unwanted

end Write

def replay (tree : List ν) (log : List (Write κ ν)) : List ν :=
  log.foldl (Write.apply key cmp) tree

/-- Whether a log writes at a key. -/
def touches (log : List (Write κ ν)) (wanted : κ) : Bool :=
  log.any fun write => cmp (write.place key) wanted == .eq

variable {key cmp}

theorem replay_append (tree : List ν) (first second : List (Write κ ν)) :
    replay key cmp tree (first ++ second) = replay key cmp (replay key cmp tree first) second :=
  List.foldl_append

section Lawful

variable [Std.TransCmp cmp] {tree : List ν}

variable (ordered : Ordered key cmp tree)

include ordered

theorem ordered_apply (write : Write κ ν) : Ordered key cmp (write.apply key cmp tree) := by
  cases write with
  | put item => exact ordered.upsert item
  | remove unwanted => exact ordered.erase unwanted

theorem ordered_replay (log : List (Write κ ν)) : Ordered key cmp (replay key cmp tree log) := by
  induction log generalizing tree with
  | nil => exact ordered
  | cons write rest ih => exact ih (ordered_apply ordered write)

theorem find_apply (write : Write κ ν) (wanted : κ) :
    find key cmp (write.apply key cmp tree) wanted =
      if cmp (write.place key) wanted = .eq then write.left else find key cmp tree wanted := by
  cases write with
  | put item => exact ordered.find_upsert item wanted
  | remove unwanted =>
    rw [Write.apply, find_erase]
    exact if_congr Std.OrientedCmp.eq_comm rfl rfl

/-- Away from the keys of a log the tree is unchanged. -/
theorem find_replay_of_untouched {log : List (Write κ ν)} {wanted : κ}
    (untouched : touches key cmp log wanted = false) :
    find key cmp (replay key cmp tree log) wanted = find key cmp tree wanted := by
  induction log generalizing tree with
  | nil => rfl
  | cons write rest ih =>
    rw [touches, List.any_cons, Bool.or_eq_false_iff, beq_eq_false_iff_ne] at untouched
    exact (ih (ordered_apply ordered write) untouched.2).trans
      ((find_apply ordered write wanted).trans (if_neg untouched.1))

omit ordered

/-- At a key of the log the tree it is replayed over does not matter. -/
theorem find_replay_of_touched {first second : List ν} (first_ordered : Ordered key cmp first)
    (second_ordered : Ordered key cmp second) {log : List (Write κ ν)} {wanted : κ}
    (touched : touches key cmp log wanted = true) :
    find key cmp (replay key cmp first log) wanted =
      find key cmp (replay key cmp second log) wanted := by
  induction log using List.reverseRecOn with
  | nil => cases touched
  | append_singleton log write ih =>
    rw [replay_append, replay_append]
    refine (find_apply (ordered_replay first_ordered log) write wanted).trans
      (Eq.trans ?_ (find_apply (ordered_replay second_ordered log) write wanted).symm)
    by_cases here : cmp (write.place key) wanted = .eq
    · rw [if_pos here, if_pos here]
    · rw [if_neg here, if_neg here]
      refine ih ?_
      simpa [touches, here] using touched

end Lawful

end WriteLog
