import Mathlib.Data.List.TakeWhile
import Mathlib.Data.List.Infix
import Quereus.Lib.SnapshotMachine
import Quereus.Store.PendingView

/-!
# The coordinator keeps a stack of snapshots

The reference keeps, for the transaction and for every open savepoint, the list of writes and
events that survive, and a rollback to a savepoint goes back to its list. Derived operations are
put behind the writes they belong to in all of these lists at once. The coordinator keeps one log
and positions in it; what the reference keeps is read off the log by cutting it at the positions.
-/

namespace Quereus.Store

open List TransactionState

variable {ς ε : Type} [DecidableEq ς]

/-- The writes and events of a transaction that no rollback has undone. -/
structure Surviving (ς ε : Type) where
  ops : List (PendingOp ς)
  events : List ε

/-- Between transactions there is no machine. -/
abbrev ReferenceTransaction (ς ε : Type) := Option (SnapshotMachine (Surviving ς ε))

/-- A transaction with nothing queued. -/
def freshTransaction : SnapshotMachine (Surviving ς ε) :=
  .idle ⟨[], []⟩

/-- The operations a structure owes for a write, after the writes before it. -/
def owedFor (committed : Bytes → Option Bytes) (source target : ς) (derive : DeriveOps)
    (earlier : List (PendingOp ς)) (op : PendingOp ς) : List (PendingOp ς) :=
  if op.store = source then
    (derive ((lastWrite earlier source op.key).getD (committed op.key)) op.value).map
      (DerivedOp.against target)
  else []

/-- Every write with the operations owed for it. -/
def derivedBlocks (committed : Bytes → Option Bytes) (source target : ς) (derive : DeriveOps) :
    List (PendingOp ς) → List (PendingOp ς) → List (List (PendingOp ς))
  | _, [] => []
  | earlier, op :: rest =>
    (op :: owedFor committed source target derive earlier op) ::
      derivedBlocks committed source target derive (earlier ++ [op]) rest

namespace Surviving

def withDerived (committed : Bytes → Option Bytes) (source target : ς) (derive : DeriveOps)
    (surviving : Surviving ς ε) : Surviving ς ε :=
  { surviving with ops := (derivedBlocks committed source target derive [] surviving.ops).flatten }

def without (store : ς) (surviving : Surviving ς ε) : Surviving ς ε :=
  { surviving with ops := surviving.ops.filter (·.store ≠ store) }

end Surviving

/-- The reference for one call. -/
def referenceStep (stores : Stores ς) (reference : ReferenceTransaction ς ε) :
    TransactionStep ς ε → ReferenceTransaction ς ε
  | .begin => some (reference.getD freshTransaction)
  | .queue op =>
    reference.map (·.write fun surviving => { surviving with ops := surviving.ops ++ [op] })
  | .queueEvent event =>
    reference.map
      (·.write fun surviving => { surviving with events := surviving.events ++ [event] })
  | .createSavepoint depth =>
    let machine := reference.getD freshTransaction
    some (if machine.snapshots.length = depth then machine.save else machine)
  | .releaseSavepoint targetDepth => reference.map (·.release targetDepth)
  | .rollbackToSavepoint targetDepth => reference.map (·.restore targetDepth)
  | .queueDerivedOps source target derive =>
    reference.map (·.amend (Surviving.withDerived (stores source) source target derive))
  | .discardOpsFor store => reference.map (·.amend (Surviving.without store))
  | .commit _ | .rollback => none

/-- The reference along a run; derived operations depend on the stores of the moment. -/
def referenceRun (state : TransactionState ς ε) (reference : ReferenceTransaction ς ε) :
    List (TransactionStep ς ε) → ReferenceTransaction ς ε
  | [] => reference
  | step :: rest => referenceRun (state.step step) (referenceStep state.stores reference step) rest

namespace TransactionCoordinator

variable {coordinator : TransactionCoordinator ς ε}

omit [DecidableEq ς] in
/-- The writes and events before a savepoint. -/
def cutAt (coordinator : TransactionCoordinator ς ε) (snapshot : SavepointSnapshot) :
    Surviving ς ε :=
  ⟨coordinator.pendingOps.take snapshot.opIndex, coordinator.pendingEvents.take snapshot.eventIndex⟩

/-- What a coordinator says about its transaction. -/
def keeps (coordinator : TransactionCoordinator ς ε) : ReferenceTransaction ς ε :=
  if coordinator.inTransaction then
    some
      { committed := ⟨[], []⟩
        current := ⟨coordinator.pendingOps, coordinator.pendingEvents⟩
        snapshots := coordinator.savepointStack.map coordinator.cutAt }
  else none

/-- The savepoints are positions in the log, the outermost first, and the index is that of the
log. -/
structure Sound (coordinator : TransactionCoordinator ς ε) : Prop where
  idle : coordinator.inTransaction = false → coordinator = clearTransaction
  index : coordinator.pendingIndex = coordinator.pendingOps.foldl PendingIndex.record []
  nested : coordinator.savepointStack.Pairwise fun outer inner =>
    outer.opIndex ≤ inner.opIndex ∧ outer.eventIndex ≤ inner.eventIndex
  inside : ∀ snapshot ∈ coordinator.savepointStack,
    snapshot.opIndex ≤ coordinator.pendingOps.length ∧
      snapshot.eventIndex ≤ coordinator.pendingEvents.length

/-- An idle coordinator is sound. -/
theorem sound_clearTransaction : (clearTransaction : TransactionCoordinator ς ε).Sound where
  idle _ := rfl
  index := rfl
  nested := .nil
  inside _ member := nomatch member

theorem Sound.running_or_clear (sound : coordinator.Sound) :
    coordinator.inTransaction = true ∨ coordinator = clearTransaction := by
  cases running : coordinator.inTransaction with
  | true => exact .inl rfl
  | false => exact .inr (sound.idle running)

section Rewrite

omit [DecidableEq ς]

theorem lt_of_mem_dropWhile {stack : List SavepointSnapshot} {i : Nat}
    (nested : stack.Pairwise fun outer inner => outer.opIndex ≤ inner.opIndex)
    (low : ∀ snapshot ∈ stack, i ≤ snapshot.opIndex) :
    ∀ snapshot ∈ stack.dropWhile (·.opIndex = i), i < snapshot.opIndex := by
  induction stack with
  | nil => exact nofun
  | cons first rest ih =>
    obtain ⟨below, nested⟩ := pairwise_cons.mp nested
    obtain ⟨here, low⟩ := forall_mem_cons.mp low
    rw [dropWhile_cons]
    split
    · exact ih nested low
    · next different =>
      have above : i < first.opIndex := by
        rw [decide_eq_true_eq] at different
        omega
      refine forall_mem_cons.mpr ⟨above, fun snapshot member => ?_⟩
      exact above.trans_le (below snapshot member)

variable (blocks : List (List (PendingOp ς)))

include blocks

/-- The loop concatenates the blocks and moves every savepoint to the end of the blocks before
it. -/
theorem rewriteLoop_eq {i : Nat} {stack : List SavepointSnapshot}
    (nested : stack.Pairwise fun outer inner => outer.opIndex ≤ inner.opIndex)
    (low : ∀ snapshot ∈ stack, i ≤ snapshot.opIndex)
    (high : ∀ snapshot ∈ stack, snapshot.opIndex ≤ i + blocks.length) (log : List (PendingOp ς)) :
    rewriteLoop blocks i stack log =
      (stack.map fun snapshot =>
          { snapshot with opIndex := (log ++ (blocks.take (snapshot.opIndex - i)).flatten).length },
        log ++ blocks.flatten) := by
  induction blocks generalizing i stack log with
  | nil =>
    have here : ∀ snapshot ∈ stack, decide (snapshot.opIndex = i) = true := fun snapshot member =>
      decide_eq_true (Nat.le_antisymm (high snapshot member) (low snapshot member))
    rw [rewriteLoop, takeWhile_eq_self_iff.mpr here, dropWhile_eq_nil_iff.mpr here]
    simp
  | cons block rest ih =>
    have later := lt_of_mem_dropWhile nested low
    have part : (stack.dropWhile (·.opIndex = i)).Sublist stack := dropWhile_sublist _
    rw [rewriteLoop, ih (nested.sublist part) later]
    · refine Prod.ext ?_ (by simp)
      nth_rewrite 3 [← takeWhile_append_dropWhile (p := fun snapshot => snapshot.opIndex = i)
        (l := stack)]
      rw [map_append]
      refine congrArg₂ _ (map_congr_left fun snapshot member => ?_)
        (map_congr_left fun snapshot member => ?_)
      · have here : snapshot.opIndex = i := by simpa using mem_takeWhile_imp member
        simp [here]
      · have above := later snapshot member
        have next : snapshot.opIndex - i = snapshot.opIndex - (i + 1) + 1 := by omega
        rw [next, take_succ_cons, flatten_cons, append_assoc]
    · intro snapshot member
      have bound := high snapshot (part.mem member)
      rw [length_cons] at bound
      omega

end Rewrite

/-- A way to rewrite logs, operation by operation. -/
structure Expansion (expand : List (PendingOp ς) → List (List (PendingOp ς))) : Prop where
  take : ∀ ops count, expand (ops.take count) = (expand ops).take count
  length : ∀ ops, (expand ops).length = ops.length

variable (sound : coordinator.Sound)

include sound in
/-- Rewriting the log tells the whole transaction differently. -/
theorem Sound.rewriteLog
    {expand : List (PendingOp ς) → List (List (PendingOp ς))} (expansion : Expansion expand) :
    (coordinator.rewriteLog (expand coordinator.pendingOps)).Sound ∧
      (coordinator.rewriteLog (expand coordinator.pendingOps)).keeps =
        coordinator.keeps.map (·.amend fun surviving =>
          { surviving with ops := (expand surviving.ops).flatten }) := by
  have looped := rewriteLoop_eq (expand coordinator.pendingOps) (sound.nested.imp And.left)
    (fun _ _ => Nat.zero_le _) (fun snapshot member => by
      rw [Nat.zero_add, expansion.length]
      exact (sound.inside snapshot member).1) []
  simp only [nil_append, Nat.sub_zero] at looped
  simp only [TransactionCoordinator.rewriteLog, looped, rebuildPendingIndex, replayOps, take_length]
  refine ⟨⟨fun outside => ?_, rfl, ?_, ?_⟩, ?_⟩
  · have empty := eq_nil_of_length_eq_zero (expansion.length ([] : List (PendingOp ς)))
    have cleared := sound.idle outside
    subst cleared
    simp [clearTransaction, empty]
  · refine pairwise_map.mpr (sound.nested.imp fun both => ⟨?_, both.2⟩)
    exact (take_prefix_take_left both.1).flatten.length_le
  · intro snapshot member
    obtain ⟨old, old_mem, rfl⟩ := mem_map.mp member
    refine ⟨?_, (sound.inside old old_mem).2⟩
    exact (IsPrefix.flatten <| take_prefix _ _).length_le
  · unfold keeps
    split
    · simp only [Option.map_some, SnapshotMachine.amend, map_map]
      congr 2
      refine map_congr_left fun snapshot member => ?_
      simp only [Function.comp_apply, cutAt, expansion.take]
      rw [← prefix_iff_eq_take.mp <| IsPrefix.flatten <| take_prefix _ _]
    · rfl

section Derived

variable (committed : Bytes → Option Bytes) (source target : ς) (derive : DeriveOps)

theorem expansion_derivedBlocks (earlier : List (PendingOp ς)) :
    Expansion (derivedBlocks committed source target derive earlier) where
  take ops count := by
    induction ops generalizing earlier count with
    | nil => simp [derivedBlocks]
    | cons op rest ih =>
      cases count with
      | zero => rfl
      | succ count => rw [take_succ_cons, derivedBlocks, derivedBlocks, ih, take_succ_cons]
  length ops := by
    induction ops generalizing earlier with
    | nil => rfl
    | cons op rest ih => rw [derivedBlocks, length_cons, ih, length_cons]

/-- The values noted on the way are the last writes. -/
theorem zipWith_derivedOps (earlier ops : List (PendingOp ς))
    {latest : List (String × Option Bytes)}
    (noted : ∀ key, latest.lookup (bytesToHex key) = lastWrite earlier source key) :
    ops.zipWith (fun op derived => op :: derived.getD [])
        (derivedOps committed source target derive latest ops) =
      derivedBlocks committed source target derive earlier ops := by
  induction ops generalizing earlier latest with
  | nil => rfl
  | cons op rest ih =>
    by_cases here : op.store = source
    · rw [derivedOps, if_neg (not_not.mpr here), zipWith_cons_cons, derivedBlocks, owedFor,
        if_pos here, noted]
      refine congrArg₂ _ rfl (ih (earlier ++ [op]) fun key => ?_)
      rw [KeyedList.lookup_put, lastWrite_concat, noted]
      refine if_congr ?_ rfl rfl
      rw [beq_iff_eq, bytesToHex_inj, eq_comm, and_iff_right here]
    · rw [derivedOps, if_pos here, derivedBlocks, owedFor, if_neg here]
      refine congrArg₂ _ rfl (ih (earlier ++ [op]) fun key => ?_)
      rw [noted, lastWrite_concat, if_neg fun both => here both.1]

theorem any_derivedOps (latest : List (String × Option Bytes)) (ops : List (PendingOp ς)) :
    (derivedOps committed source target derive latest ops).any Option.isSome =
      ops.any (·.store == source) := by
  induction ops generalizing latest with
  | nil => rfl
  | cons op rest ih =>
    by_cases here : op.store = source
    · rw [derivedOps]
      simp [here]
    · rw [derivedOps, if_pos here, any_cons, ih, any_cons, beq_eq_false_iff_ne.mpr here]
      rfl

variable {committed source target derive}

theorem flatten_derivedBlocks_of_forall (earlier : List (PendingOp ς)) {ops : List (PendingOp ς)}
    (untouched : ∀ op ∈ ops, op.store ≠ source) :
    (derivedBlocks committed source target derive earlier ops).flatten = ops := by
  induction ops generalizing earlier with
  | nil => rfl
  | cons op rest ih =>
    obtain ⟨here, later⟩ := forall_mem_cons.mp untouched
    rw [derivedBlocks, owedFor, if_neg here, flatten_cons, ih (earlier ++ [op]) later]
    rfl

end Derived

theorem expansion_discard (store : ς) :
    Expansion fun ops : List (PendingOp ς) =>
      ops.map fun op => if op.store = store then [] else [op] where
  take _ _ := map_take
  length _ := length_map _

theorem flatten_discard (store : ς) (ops : List (PendingOp ς)) :
    (ops.map fun op => if op.store = store then [] else [op]).flatten =
      ops.filter (·.store ≠ store) := by
  induction ops with
  | nil => rfl
  | cons op rest ih =>
    rw [map_cons, flatten_cons, ih]
    by_cases here : op.store = store
    · simp [here]
    · simp [here]

omit [DecidableEq ς] in
/-- Telling a transaction differently changes nothing where no operation changes. -/
theorem keeps_amend_eq_self {change : Surviving ς ε → Surviving ς ε}
    (unchanged : ∀ surviving : Surviving ς ε,
      (∀ op ∈ surviving.ops, op ∈ coordinator.pendingOps) → change surviving = surviving) :
    coordinator.keeps.map (·.amend change) = coordinator.keeps := by
  unfold keeps
  split
  · refine congrArg some (SnapshotMachine.amend_eq_self _ (unchanged _ fun _ => id) ?_)
    intro snapshot member
    obtain ⟨position, -, rfl⟩ := mem_map.mp member
    exact unchanged _ fun op listed => mem_of_mem_take listed
  · rfl

include sound in
/-- Derived operations go into every snapshot that has their source. -/
theorem Sound.queueDerivedOps (stores : Stores ς) (source target : ς) (derive : DeriveOps) :
    (coordinator.queueDerivedOps stores source target derive).Sound ∧
      (coordinator.queueDerivedOps stores source target derive).keeps =
        coordinator.keeps.map
          (·.amend (Surviving.withDerived (stores source) source target derive)) := by
  have queued : coordinator.queueDerivedOps stores source target derive =
      if coordinator.pendingOps.any (·.store == source) then
        coordinator.rewriteLog
          (derivedBlocks (stores source) source target derive [] coordinator.pendingOps)
      else coordinator := by
    have blocks : coordinator.pendingOps.zipWith (fun op derived => op :: derived.getD [])
        (derivedOps (stores source) source target derive [] coordinator.pendingOps) =
          derivedBlocks (stores source) source target derive [] coordinator.pendingOps :=
      zipWith_derivedOps _ _ _ _ [] _ fun _ => rfl
    simp only [TransactionCoordinator.queueDerivedOps, any_derivedOps, blocks]
  rw [queued]
  split
  · exact sound.rewriteLog (expansion_derivedBlocks (stores source) source target derive [])
  · next none_derived =>
    refine ⟨sound, (keeps_amend_eq_self fun surviving part => ?_).symm⟩
    have untouched : ∀ op ∈ surviving.ops, op.store ≠ source := fun op member same =>
      none_derived (any_eq_true.mpr ⟨op, part op member, beq_iff_eq.mpr same⟩)
    rw [Surviving.withDerived, flatten_derivedBlocks_of_forall [] untouched]

include sound in
/-- The operations of a dropped store leave every snapshot. -/
theorem Sound.discardOpsFor (store : ς) :
    (coordinator.discardOpsFor store).Sound ∧
      (coordinator.discardOpsFor store).keeps =
        coordinator.keeps.map (·.amend (Surviving.without store)) := by
  unfold TransactionCoordinator.discardOpsFor
  rw [sound.index, lookup_replay_isSome]
  split
  · have rewritten := sound.rewriteLog (expansion_discard store)
    simp only [flatten_discard] at rewritten
    exact rewritten
  · next none_there =>
    refine ⟨sound, (keeps_amend_eq_self fun surviving part => ?_).symm⟩
    have kept : surviving.ops.filter (·.store ≠ store) = surviving.ops :=
      filter_eq_self.mpr fun op member => decide_eq_true fun same =>
        none_there (any_eq_true.mpr ⟨op, part op member, beq_iff_eq.mpr same⟩)
    rw [Surviving.without, kept]

omit [DecidableEq ς] in
theorem keeps_of_inTransaction (running : coordinator.inTransaction = true) :
    coordinator.keeps = some
      { committed := ⟨[], []⟩
        current := ⟨coordinator.pendingOps, coordinator.pendingEvents⟩
        snapshots := coordinator.savepointStack.map coordinator.cutAt } := by
  rw [keeps, if_pos running]

include sound in
/-- A begin opens a transaction unless one is running. -/
theorem Sound.begin :
    coordinator.begin.Sound ∧ coordinator.begin.inTransaction = true ∧
      coordinator.begin.keeps = some (coordinator.keeps.getD freshTransaction) := by
  obtain running | rfl := sound.running_or_clear
  · rw [TransactionCoordinator.begin, if_pos running, keeps_of_inTransaction running]
    exact ⟨sound, running, rfl⟩
  · exact ⟨⟨nofun, rfl, .nil, nofun⟩, rfl, rfl⟩

/-- Writes and events at the end of the log. -/
def extend (coordinator : TransactionCoordinator ς ε) (ops : List (PendingOp ς)) (events : List ε) :
    TransactionCoordinator ς ε :=
  { coordinator with
    pendingOps := coordinator.pendingOps ++ ops
    pendingEvents := coordinator.pendingEvents ++ events
    pendingIndex := ops.foldl PendingIndex.record coordinator.pendingIndex }

include sound in
/-- They are after every savepoint. -/
theorem Sound.extend (running : coordinator.inTransaction = true)
    (ops : List (PendingOp ς)) (events : List ε) :
    (coordinator.extend ops events).Sound ∧
      (coordinator.extend ops events).keeps = coordinator.keeps.map (·.write fun surviving =>
        ⟨surviving.ops ++ ops, surviving.events ++ events⟩) := by
  have running' : (coordinator.extend ops events).inTransaction = true := running
  refine ⟨⟨fun outside => ?_, ?_, sound.nested, fun snapshot member => ?_⟩, ?_⟩
  · rw [running'] at outside
    cases outside
  · simp [TransactionCoordinator.extend, sound.index]
  · obtain ⟨opInside, eventInside⟩ := sound.inside snapshot member
    simp only [TransactionCoordinator.extend, length_append]
    exact ⟨opInside.trans (Nat.le_add_right _ _), eventInside.trans (Nat.le_add_right _ _)⟩
  · have cuts : coordinator.savepointStack.map (coordinator.extend ops events).cutAt =
        coordinator.savepointStack.map coordinator.cutAt := by
      refine map_congr_left fun snapshot member => ?_
      obtain ⟨opInside, eventInside⟩ := sound.inside snapshot member
      simp only [cutAt, TransactionCoordinator.extend, take_append_of_le_length opInside,
        take_append_of_le_length eventInside]
    rw [keeps_of_inTransaction running', keeps_of_inTransaction running]
    exact congrArg (fun cuts => some (SnapshotMachine.mk _ _ cuts)) cuts

theorem queue_eq (running : coordinator.inTransaction = true) (op : PendingOp ς) :
    coordinator.queue op = .ok (coordinator.extend [op] []) := by
  simp only [queue, running, if_true, TransactionCoordinator.extend, append_nil, foldl_cons,
    foldl_nil]

theorem queueEvent_eq (running : coordinator.inTransaction = true) (event : ε) :
    coordinator.queueEvent event = (coordinator.extend [] [event], []) := by
  simp only [queueEvent, running, if_true, TransactionCoordinator.extend, append_nil, foldl_nil]

variable (sound : coordinator.Sound)

include sound

/-- A savepoint is a snapshot. -/
theorem Sound.createSavepoint (depth : Nat) :
    (coordinator.createSavepoint depth).Sound ∧
      (coordinator.createSavepoint depth).keeps =
        let machine := coordinator.keeps.getD freshTransaction
        some (if machine.snapshots.length = depth then machine.save else machine) := by
  obtain ⟨begun, running, kept⟩ := sound.begin
  have machine := Option.some.inj ((keeps_of_inTransaction running).symm.trans kept)
  simp only [TransactionCoordinator.createSavepoint, ← machine, length_map]
  by_cases here : coordinator.begin.savepointStack.length = depth
  · rw [if_neg (not_not.mpr here), if_pos here]
    refine ⟨⟨fun outside => ?_, begun.index, ?_, ?_⟩, ?_⟩
    · exact absurd (running.symm.trans outside) (by decide)
    · refine pairwise_append.mpr ⟨begun.nested, pairwise_singleton _ _, ?_⟩
      intro outer outer_mem inner inner_mem
      rw [mem_singleton] at inner_mem
      subst inner_mem
      exact begun.inside outer outer_mem
    · intro snapshot member
      obtain old | new := mem_append.mp member
      · exact begun.inside snapshot old
      · rw [mem_singleton] at new
        subst new
        exact ⟨Nat.le_refl _, Nat.le_refl _⟩
    · have whole : coordinator.begin.cutAt
          ⟨coordinator.begin.pendingOps.length, coordinator.begin.pendingEvents.length⟩ =
            ⟨coordinator.begin.pendingOps, coordinator.begin.pendingEvents⟩ := by
        simp [cutAt]
      simp only [keeps, running, map_append, ← whole]
      rfl
  · rw [if_pos here, if_neg here]
    exact ⟨begun, keeps_of_inTransaction running⟩

/-- A release drops snapshots. -/
theorem Sound.releaseSavepoint (targetDepth : Nat) :
    (coordinator.releaseSavepoint targetDepth).Sound ∧
      (coordinator.releaseSavepoint targetDepth).keeps =
        coordinator.keeps.map (·.release targetDepth) := by
  have released : coordinator.releaseSavepoint targetDepth =
      { coordinator with savepointStack := coordinator.savepointStack.take targetDepth } := by
    unfold TransactionCoordinator.releaseSavepoint
    split
    · next beyond => rw [take_of_length_le (Nat.le_of_lt beyond)]
    · rfl
  have part := take_sublist targetDepth coordinator.savepointStack
  rw [released]
  obtain running | rfl := sound.running_or_clear
  · refine ⟨⟨fun outside => ?_, sound.index, sound.nested.sublist part,
      fun snapshot member => sound.inside snapshot (part.mem member)⟩, ?_⟩
    · exact absurd (running.symm.trans outside) (by decide)
    · simp only [keeps, running, map_take]
      rfl
  · have none_left : ([] : List SavepointSnapshot).take targetDepth = [] := take_nil
    simp only [clearTransaction, none_left]
    exact ⟨sound_clearTransaction, rfl⟩

/-- The savepoints that a rollback keeps are positions before the cut. -/
theorem Sound.le_of_mem_take {targetDepth : Nat} {target : SavepointSnapshot}
    (found : coordinator.savepointStack[targetDepth]? = some target) :
    ∀ snapshot ∈ coordinator.savepointStack.take (targetDepth + 1),
      snapshot.opIndex ≤ target.opIndex ∧ snapshot.eventIndex ≤ target.eventIndex := by
  obtain ⟨inside, rfl⟩ := List.getElem?_eq_some_iff.mp found
  intro snapshot member
  rw [take_succ_eq_append_getElem inside, mem_append, mem_singleton] at member
  obtain outer | rfl := member
  · have nested := sound.nested
    rw [← take_append_drop targetDepth coordinator.savepointStack, pairwise_append] at nested
    refine nested.2.2 snapshot outer _ ?_
    rw [drop_eq_getElem_cons inside]
    exact mem_cons_self
  · exact ⟨Nat.le_refl _, Nat.le_refl _⟩

/-- A rollback returns to one. -/
theorem Sound.rollbackToSavepoint (targetDepth : Nat) :
    (coordinator.rollbackToSavepoint targetDepth).Sound ∧
      (coordinator.rollbackToSavepoint targetDepth).keeps =
        coordinator.keeps.map (·.restore targetDepth) := by
  obtain running | rfl := sound.running_or_clear
  swap
  · exact ⟨sound, rfl⟩
  cases found : coordinator.savepointStack[targetDepth]? with
  | none =>
    simp only [TransactionCoordinator.rollbackToSavepoint, found]
    refine ⟨sound, ?_⟩
    simp only [keeps, running, if_true, Option.map_some, SnapshotMachine.restore, getElem?_map,
      found, Option.map_none]
  | some target =>
    simp only [TransactionCoordinator.rollbackToSavepoint, found]
    have before := sound.le_of_mem_take found
    have bounds := sound.inside target (mem_of_getElem? found)
    have part := take_sublist (targetDepth + 1) coordinator.savepointStack
    refine ⟨⟨fun outside => ?_, ?_, sound.nested.sublist part, fun snapshot member => ?_⟩, ?_⟩
    · exact absurd (running.symm.trans outside) (by decide)
    · simp only [rebuildPendingIndex, replayOps, take_length]
    · obtain ⟨opBefore, eventBefore⟩ := before snapshot member
      simp only [rebuildPendingIndex, length_take]
      omega
    · have cuts : (coordinator.savepointStack.take (targetDepth + 1)).map coordinator.cutAt =
          (coordinator.savepointStack.take (targetDepth + 1)).map fun snapshot =>
            ⟨(coordinator.pendingOps.take target.opIndex).take snapshot.opIndex,
              (coordinator.pendingEvents.take target.eventIndex).take snapshot.eventIndex⟩ := by
        refine map_congr_left fun snapshot member => ?_
        obtain ⟨opBefore, eventBefore⟩ := before snapshot member
        rw [cutAt, take_take, take_take, Nat.min_eq_left opBefore, Nat.min_eq_left eventBefore]
      simp only [keeps, running, if_true, Option.map_some, SnapshotMachine.restore,
        getElem?_map, found, ← map_take, cuts]
      rfl

omit sound

/-- Sound coordinators that keep the same are the same. -/
theorem Sound.eq_of_keeps {first second : TransactionCoordinator ς ε} (firstSound : first.Sound)
    (secondSound : second.Sound) (same : first.keeps = second.keeps) : first = second := by
  obtain running | rfl := firstSound.running_or_clear <;>
    obtain running' | rfl := secondSound.running_or_clear
  · rw [keeps_of_inTransaction running, keeps_of_inTransaction running'] at same
    obtain ⟨-, current, snapshots⟩ := SnapshotMachine.mk.inj (Option.some.inj same)
    obtain ⟨ops, events⟩ := Surviving.mk.inj current
    -- A position is the length of the log before it.
    have positions : ∀ {coordinator : TransactionCoordinator ς ε}, coordinator.Sound →
        (coordinator.savepointStack.map coordinator.cutAt).map
          (fun cut => SavepointSnapshot.mk cut.ops.length cut.events.length) =
            coordinator.savepointStack := by
      intro coordinator sound
      rw [map_map]
      refine map_congr_left (fun snapshot member => ?_) |>.trans (map_id _)
      obtain ⟨opInside, eventInside⟩ := sound.inside snapshot member
      simp only [Function.comp_apply, cutAt, length_take, Nat.min_eq_left opInside,
        Nat.min_eq_left eventInside, id]
    have stack := positions firstSound
    rw [snapshots, positions secondSound] at stack
    have index := firstSound.index
    rw [ops, ← secondSound.index] at index
    cases first
    cases second
    simp only at running running' ops events stack index
    rw [running, running', ops, events, stack, index]
  · rw [keeps_of_inTransaction running] at same
    cases same
  · rw [keeps_of_inTransaction running'] at same
    cases same
  · rfl

include sound in
/-- Derived operations are undone with the writes they are derived from: it does not matter
whether they are queued before a rollback to a savepoint or after it. -/
theorem Sound.queueDerivedOps_rollbackToSavepoint (stores : Stores ς)
    (source target : ς) (derive : DeriveOps) (depth : Nat) :
    (coordinator.queueDerivedOps stores source target derive).rollbackToSavepoint depth =
      (coordinator.rollbackToSavepoint depth).queueDerivedOps stores source target derive := by
  obtain ⟨derivedSound, derivedKeeps⟩ := sound.queueDerivedOps stores source target derive
  obtain ⟨leftSound, leftKeeps⟩ := derivedSound.rollbackToSavepoint depth
  obtain ⟨backSound, backKeeps⟩ := sound.rollbackToSavepoint depth
  obtain ⟨rightSound, rightKeeps⟩ := backSound.queueDerivedOps stores source target derive
  refine leftSound.eq_of_keeps rightSound ?_
  rw [leftKeeps, derivedKeeps, rightKeeps, backKeeps, Option.map_map, Option.map_map]
  exact congrArg (fun change => coordinator.keeps.map change)
    (funext fun machine => SnapshotMachine.amend_restore machine _ depth)

end TransactionCoordinator

namespace TransactionState

variable {state : TransactionState ς ε}

open TransactionCoordinator

/-- A module with these stores and no transaction. -/
def start (stores : Stores ς) : TransactionState ς ε :=
  ⟨clearTransaction, stores, []⟩

/-- Every call does to the log what it does to the stack of snapshots. -/
theorem step_refines (sound : state.coordinator.Sound) (step : TransactionStep ς ε) :
    (state.step step).coordinator.Sound ∧
      (state.step step).coordinator.keeps = referenceStep state.stores
        state.coordinator.keeps step := by
  obtain ⟨coordinator, stores, emitted⟩ := state
  change coordinator.Sound at sound
  cases step with
  | begin =>
    obtain ⟨begun, -, kept⟩ := sound.begin
    exact ⟨begun, kept⟩
  | queue op =>
    obtain running | rfl := sound.running_or_clear
    · simp only [step, queue_eq running]
      have extended := sound.extend running [op] []
      simp only [append_nil] at extended
      exact extended
    · exact ⟨sound, rfl⟩
  | queueEvent event =>
    obtain running | rfl := sound.running_or_clear
    · simp only [step, queueEvent_eq running]
      have extended := sound.extend running [] [event]
      simp only [append_nil] at extended
      exact extended
    · exact ⟨sound, rfl⟩
  | createSavepoint depth => exact sound.createSavepoint depth
  | releaseSavepoint targetDepth => exact sound.releaseSavepoint targetDepth
  | rollbackToSavepoint targetDepth => exact sound.rollbackToSavepoint targetDepth
  | queueDerivedOps source target derive =>
    exact sound.queueDerivedOps stores source target derive
  | discardOpsFor store => exact sound.discardOpsFor store
  | commit provider =>
    obtain running | rfl := sound.running_or_clear
    · simp only [step, commit, running]
      exact ⟨sound_clearTransaction, rfl⟩
    · exact ⟨sound, rfl⟩
  | rollback =>
    obtain running | rfl := sound.running_or_clear
    · simp only [step, rollback, running]
      exact ⟨sound_clearTransaction, rfl⟩
    · exact ⟨sound, rfl⟩

/-- A run of the coordinator is one of the machine of snapshots. -/
theorem run_keeps (state : TransactionState ς ε) (sound : state.coordinator.Sound)
    (steps : List (TransactionStep ς ε)) :
    (state.run steps).coordinator.Sound ∧
      (state.run steps).coordinator.keeps = referenceRun state state.coordinator.keeps steps := by
  induction steps generalizing state with
  | nil => exact ⟨sound, rfl⟩
  | cons step rest ih =>
    obtain ⟨stepSound, stepKeeps⟩ := step_refines sound step
    have later := ih (state.step step) stepSound
    rw [stepKeeps] at later
    exact later

/-- The writes of the transaction that survive. -/
def survivingOps (reference : ReferenceTransaction ς ε) : List (PendingOp ς) :=
  (reference.map fun machine => machine.current.ops).getD []

/-- The writes that survive a rollback to each open savepoint. -/
def savedOps (reference : ReferenceTransaction ς ε) : List (List (PendingOp ς)) :=
  (reference.map fun machine => machine.snapshots.map Surviving.ops).getD []

/-- The coordinator does what the stack of snapshots does. -/
structure RefinesSnapshots (state : TransactionState ς ε) (reference : ReferenceTransaction ς ε) :
    Prop where
  /-- The pending view is the last write of the surviving writes. -/
  pending : ∀ store, (state.coordinator.getPendingOpsForStore store).Shows
    (lastWrite (survivingOps reference) store)
  /-- A rollback to a savepoint leaves the writes that were there when it was made. -/
  restored : ∀ depth ops, (savedOps reference)[depth]? = some ops → ∀ store,
    ((state.coordinator.rollbackToSavepoint depth).getPendingOpsForStore store).Shows
      (lastWrite ops store)
  /-- The views reported for the savepoints are the ones that a rollback would leave. -/
  reported : ∀ store, state.coordinator.getOrderedPendingOpsAtSavepoints store =
    (range (savedOps reference).length).map fun depth =>
      (state.coordinator.rollbackToSavepoint depth).getOrderedPendingOps store
  /-- Derived operations are undone with the writes they are derived from. -/
  derived : ∀ source target derive depth,
    (state.coordinator.queueDerivedOps state.stores source target derive).rollbackToSavepoint
      depth =
      (state.coordinator.rollbackToSavepoint depth).queueDerivedOps state.stores source
        target derive
  /-- A commit writes the pending view. -/
  commit : ∀ provider, (state.coordinator.commit provider state.stores).1.failed = false →
    (state.step (.commit provider)).stores = fun store key =>
      (lastWrite (survivingOps reference) store key).getD (state.stores store key)
  /-- A commit that fails writes all of the pending view of a store or nothing of it. -/
  commitFails : ∀ provider store,
    ((state.step (.commit provider)).stores store = fun key =>
      (lastWrite (survivingOps reference) store key).getD (state.stores store key)) ∨
    (state.step (.commit provider)).stores store = state.stores store
  /-- Only a commit writes. -/
  writesNothing : ∀ step, (∀ provider, step ≠ .commit provider) →
    (state.step step).stores = state.stores

theorem survivingOps_keeps (sound : state.coordinator.Sound) :
    survivingOps state.coordinator.keeps = state.coordinator.pendingOps := by
  obtain running | idle := sound.running_or_clear
  · rw [keeps_of_inTransaction running]
    rfl
  · rw [idle]
    rfl

theorem savedOps_keeps (sound : state.coordinator.Sound) :
    savedOps state.coordinator.keeps = state.coordinator.savepointStack.map fun snapshot =>
      state.coordinator.pendingOps.take snapshot.opIndex := by
  obtain running | idle := sound.running_or_clear
  · rw [keeps_of_inTransaction running]
    simp only [savedOps, Option.map_some, map_map]
    rfl
  · rw [idle]
    rfl

theorem rollbackToSavepoint_index {coordinator : TransactionCoordinator ς ε} {depth : Nat}
    {snapshot : SavepointSnapshot} (found : coordinator.savepointStack[depth]? = some snapshot) :
    (coordinator.rollbackToSavepoint depth).pendingIndex =
      replayOps coordinator.pendingOps snapshot.opIndex := by
  simp only [rollbackToSavepoint, found, rebuildPendingIndex, replayOps, take_length]

/-- A commit writes the queued operations store by store, all of them unless it fails. -/
theorem commit_stores (sound : state.coordinator.Sound) (provider : Provider ς) :
    ∃ groups : List (ς × List (PendingOp ς)),
      groups.Sublist (KeyedList.groupBy PendingOp.store state.coordinator.pendingOps) ∧
      (state.step (.commit provider)).stores = state.stores.writeAll (groups.flatMap Prod.snd) ∧
      ((state.coordinator.commit provider state.stores).1.failed = false →
        groups = KeyedList.groupBy PendingOp.store state.coordinator.pendingOps) := by
  obtain ⟨coordinator, stores, emitted⟩ := state
  change coordinator.Sound at sound
  obtain running | rfl := sound.running_or_clear
  swap
  · exact ⟨[], nil_sublist _, rfl, fun _ => rfl⟩
  cases atomic : provider.atomicBatch with
  | true =>
    cases fails : (KeyedList.groupBy PendingOp.store coordinator.pendingOps).any
        fun group => provider.failing group.1 with
    | true =>
      refine ⟨[], nil_sublist _, ?_, fun succeeded => ?_⟩
      · simp only [step, commit, running, atomic, writeAtomic, opsByStore, fails]
        rfl
      · simp [commit, running, atomic, writeAtomic, opsByStore, fails] at succeeded
    | false =>
      simp [step, commit, running, atomic, writeAtomic, opsByStore, fails]
  | false =>
    refine ⟨_, takeWhile_sublist fun group => !provider.failing group.1, ?_, fun succeeded => ?_⟩
    · simp [step, commit, running, atomic, writeBatches_eq, opsByStore]
    · simp only [commit, running, atomic, writeBatches_eq] at succeeded
      refine takeWhile_eq_self_iff.mpr fun group member => ?_
      have passes := any_eq_false.mp succeeded group member
      simpa using passes

theorem refinesSnapshots_of_sound (sound : state.coordinator.Sound) :
    state.RefinesSnapshots state.coordinator.keeps where
  pending store := by
    rw [survivingOps_keeps sound, getPendingOpsForStore, sound.index]
    exact shows_replay _ store
  restored depth ops found store := by
    rw [savedOps_keeps sound, getElem?_map, Option.map_eq_some_iff] at found
    obtain ⟨snapshot, found, rfl⟩ := found
    rw [getPendingOpsForStore, rollbackToSavepoint_index found]
    exact shows_replay _ store
  reported store := by
    rw [savedOps_keeps sound, getOrderedPendingOpsAtSavepoints]
    refine ext_getElem (by simp) fun depth inside _ => ?_
    rw [length_map] at inside
    simp only [getElem_map, getElem_range, getOrderedPendingOps]
    rw [rollbackToSavepoint_index (getElem?_eq_getElem inside)]
  derived source target derive depth :=
    sound.queueDerivedOps_rollbackToSavepoint state.stores source target derive depth
  commit provider succeeded := by
    rw [survivingOps_keeps sound]
    obtain ⟨groups, -, written, whole⟩ := commit_stores sound provider
    rw [written, whole succeeded, writeAll_groupBy]
  commitFails provider store := by
    rw [survivingOps_keeps sound]
    obtain ⟨groups, part, written, -⟩ := commit_stores sound provider
    rw [written]
    exact (writeAll_groups state.stores _ part store).imp_right And.right
  writesNothing step other := by
    cases step with
    | commit provider => exact absurd rfl (other provider)
    | queue op =>
      simp only [step]
      split <;> rfl
    | _ => rfl

/-- The transaction coordinator refines a stack of snapshots along every run. -/
theorem run_refines_snapshot_stack (stores : Stores ς) (steps : List (TransactionStep ς ε)) :
    ((start stores).run steps).RefinesSnapshots (referenceRun (start stores) none steps) := by
  obtain ⟨sound, kept⟩ := run_keeps (start stores) sound_clearTransaction steps
  have refined := refinesSnapshots_of_sound sound
  rwa [kept] at refined

end TransactionState

end Quereus.Store
