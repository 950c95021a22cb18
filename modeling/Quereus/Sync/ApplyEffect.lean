import Quereus.Sync.Resolution

/-! # What one apply does to the records

The effect of a batch on each row. A row with an accepted delete gets the
tombstone of the latest one, and a cell with an admitted write holds the latest
one. Every other cell is as before, or gone with its row.
-/

namespace Quereus.Sync

open KeyedList List Replica

variable {ι : Type} [DecidableEq ι]

open Latest (IsLatest)

/-- What a record keeps of its fact: everything but where and when it was filed
and the before-image. -/
def Tombstone.fact (tombstone : Tombstone) : HLC × List SqlValue :=
  (tombstone.hlc, tombstone.pk)

@[inherit_doc Tombstone.fact]
def ColumnVersion.fact (version : ColumnVersion) : HLC × SqlValue × List SqlValue :=
  (version.hlc, version.value, version.pk)

def RowDeletion.fact (deletion : RowDeletion) : HLC × List SqlValue :=
  (deletion.hlc, deletion.pk)

def ColumnChange.fact (write : ColumnChange) : HLC × SqlValue × List SqlValue :=
  (write.hlc, write.value, write.pk)

namespace Replica

def tombstoneFact (replica : Replica ι) (row : ι) : Option (HLC × List SqlValue) :=
  (replica.tombstone row).map Tombstone.fact

def cellFact (replica : Replica ι) (row : ι) (column : String) :
    Option (HLC × SqlValue × List SqlValue) :=
  (replica.cell row column).map ColumnVersion.fact

end Replica

variable {ctx : TableContext ι} {now : Nat} {before replica : Replica ι}
  {facts : List ResolvedChange} {column : String} {row : ι}

section Filing

theorem exists_placeFrom (tick : HLC) {index : Nat} (room : index + facts.length ≤ MAX_OPSEQ + 1) :
    ∃ placed, placeFrom tick index facts = .ok placed ∧ placed.map Prod.fst = facts := by
  induction facts generalizing index with
  | nil => exact ⟨[], rfl, rfl⟩
  | cons fact rest ih =>
    rw [length_cons] at room
    have further : index + 1 + rest.length ≤ MAX_OPSEQ + 1 := by omega
    obtain ⟨tail, remaining, same⟩ := ih further
    have first : positionsFrom tick index = .ok { tick with opSeq := index } :=
      if_neg (by omega)
    refine ⟨(fact, { tick with opSeq := index }) :: tail, ?_, ?_⟩
    · unfold placeFrom
      rw [first, remaining]
      rfl
    · rw [map_cons, same]

variable {fact : ResolvedChange × HLC}

theorem fileFact_tombstone_of_ne (other : factKey ctx fact.1 ≠ (row, none)) :
    (fileFact ctx now before replica fact).tombstone row = replica.tombstone row := by
  unfold fileFact
  cases isChange : fact.1.change with
  | delete deletion =>
    refine lookup_put_of_ne _ _ fun same => other ?_
    exact factKey_delete.mpr ⟨deletion, isChange, same.symm⟩
  | column write => rfl

theorem fileFact_cell_of_ne (other : factKey ctx fact.1 ≠ (row, some column)) :
    (fileFact ctx now before replica fact).cell row column = replica.cell row column := by
  unfold fileFact
  cases isChange : fact.1.change with
  | delete deletion => rfl
  | column write =>
    refine lookup_put_of_ne _ _ fun same => other ?_
    cases same
    exact factKey_column.mpr ⟨write, isChange, rfl, rfl⟩

variable {placed : List (ResolvedChange × HLC)}

variable (distinct : (placed.map fun fact => factKey ctx fact.1).Nodup)

include distinct

theorem filed_tombstone (member : fact ∈ placed) {deletion : RowDeletion}
    (isDelete : fact.1.change = .delete deletion) :
    (placed.foldl (fileFact ctx now before) replica).tombstone (ctx.pkIdentity deletion.pk) =
      some ⟨deletion.hlc, fact.2, now, deletion.pk, deletion.priorRow⟩ := by
  refine foldl_view_eq_of_mem (fileFact ctx now before)
    (fun state => state.tombstone (ctx.pkIdentity deletion.pk)) replica member (fun state => ?_) ?_
  · simp only [fileFact, isDelete]
    exact lookup_put_self _ _ _
  intro state other inside different
  refine fileFact_tombstone_of_ne fun same => different ?_
  exact inj_on_of_nodup_map distinct inside member
    (same.trans (factKey_delete.mpr ⟨deletion, isDelete, rfl⟩).symm)

theorem filed_cell (member : fact ∈ placed) {write : ColumnChange}
    (isColumn : fact.1.change = .column write) :
    (placed.foldl (fileFact ctx now before) replica).cellFact (ctx.pkIdentity write.pk)
      write.column = some write.fact := by
  refine foldl_view_eq_of_mem (fileFact ctx now before)
    (fun state => state.cellFact (ctx.pkIdentity write.pk) write.column) replica member
      (fun state => ?_) ?_
  · simp only [fileFact, isColumn, commitColumnMetadata, cellFact, cell, lookup_put_self]
    rfl
  intro state other inside different
  have frame : factKey ctx other.1 ≠ (ctx.pkIdentity write.pk, some write.column) := fun same =>
    different (inj_on_of_nodup_map distinct inside member
      (same.trans (factKey_column.mpr ⟨write, isColumn, rfl, rfl⟩).symm))
  simp only [cellFact, fileFact_cell_of_ne frame]

end Filing

section Cleanup

/-- The fact deletes the row and does not spare the column. -/
def Clears (ctx : TableContext ι) (row : ι) (column : String) (fact : ResolvedChange) : Prop :=
  factKey ctx fact = (row, none) ∧ column ∉ fact.keepColumns

variable {fact : ResolvedChange}

theorem cleanupAfter_cell_of_clears (clears : Clears ctx row column fact) :
    (cleanupAfter ctx replica fact).cell row column = none := by
  obtain ⟨deletion, isDelete, rfl⟩ := factKey_delete.mp clears.1
  unfold cleanupAfter
  rw [isDelete]
  simp only [deleteRowVersionsAndLogEntries, cell]
  rw [lookup_filter replica.columnVersions
    (fun key => !(key.1 = ctx.pkIdentity deletion.pk && key.2 ∉ fact.keepColumns))]
  simp [clears.2]

theorem cleanupAfter_cell_of_not_clears (spares : ¬ Clears ctx row column fact) :
    (cleanupAfter ctx replica fact).cell row column = replica.cell row column := by
  unfold cleanupAfter
  cases isChange : fact.change with
  | column write => rfl
  | delete deletion =>
    simp only [deleteRowVersionsAndLogEntries, cell]
    rw [lookup_filter replica.columnVersions
      (fun key => !(key.1 = ctx.pkIdentity deletion.pk && key.2 ∉ fact.keepColumns))]
    by_contra cleared
    refine spares ⟨factKey_delete.mpr ⟨deletion, isChange, ?_⟩, ?_⟩ <;> simp_all

theorem cleaned_cell_of_spared (spared : ∀ fact ∈ facts, ¬ Clears ctx row column fact) :
    (facts.foldl (cleanupAfter ctx) replica).cell row column = replica.cell row column :=
  foldl_view_eq (cleanupAfter ctx) (fun state => state.cell row column) replica
    fun _ fact inside => cleanupAfter_cell_of_not_clears (spared fact inside)

end Cleanup

section Effect

variable {watermark : Option HLC}
  (near : ∀ stamp, watermark = some stamp → stamp.wallTime ≤ now + MAX_DRIFT_MS)

variable {resolved : List ResolvedChange}

/-- The records of a batch after it has been applied, against those before it. -/
structure ApplyEffect (ctx : TableContext ι) (before after : Replica ι) (changes : List Change) :
    Prop where
  floor : after.deltaFloor = before.deltaFloor
  rows : after.rows = writeTableRows ctx before.rows
    (orderDataChangesByHLC (appliedChanges (resolveBatch ctx before changes)))
  tombstone_set : ∀ row, (acceptedDeletions ctx before changes row).Nonempty →
    ∃ deletion, IsLatest RowDeletion.hlc (acceptedDeletions ctx before changes row) deletion ∧
      after.tombstoneFact row = some deletion.fact
  tombstone_kept : ∀ row, acceptedDeletions ctx before changes row = ∅ →
    after.tombstoneFact row = before.tombstoneFact row
  cell_set : ∀ row column, (admittedWrites ctx before changes row column).Nonempty →
    ∃ write, IsLatest ColumnChange.hlc (admittedWrites ctx before changes row column) write ∧
      after.cellFact row column = some write.fact
  cell_cleared : ∀ row column, admittedWrites ctx before changes row column = ∅ →
    (acceptedDeletions ctx before changes row).Nonempty → after.cellFact row column = none
  cell_kept : ∀ row column, admittedWrites ctx before changes row column = ∅ →
    acceptedDeletions ctx before changes row = ∅ →
      after.cellFact row column = before.cellFact row column

theorem cleaned_rest (facts : List ResolvedChange) (replica : Replica ι) :
    (facts.foldl (cleanupAfter ctx) replica).tombstones = replica.tombstones ∧
      (facts.foldl (cleanupAfter ctx) replica).rows = replica.rows ∧
      (facts.foldl (cleanupAfter ctx) replica).deltaFloor = replica.deltaFloor := by
  have kept := foldl_view_eq (cleanupAfter ctx)
    (fun state => (state.tombstones, state.rows, state.deltaFloor)) replica
    fun state fact (_ : fact ∈ facts) => by
      unfold cleanupAfter
      cases fact.change <;> rfl
  simpa only [Prod.mk.injEq] using kept

theorem filed_rest (placed : List (ResolvedChange × HLC)) (before replica : Replica ι) :
    (placed.foldl (fileFact ctx now before) replica).rows = replica.rows ∧
      (placed.foldl (fileFact ctx now before) replica).deltaFloor = replica.deltaFloor := by
  have kept := foldl_view_eq (fileFact ctx now before)
    (fun state => (state.rows, state.deltaFloor)) replica
    fun state fact (_ : fact ∈ placed) => by
      unfold fileFact
      cases fact.1.change <;> rfl
  simpa only [Prod.mk.injEq] using kept

variable {changes : List Change}

/-- The records once the facts of a batch are filed and cleaned up after. -/
theorem commit_effect (now : Nat) (merged clock : HLCManager) (plain : Unassisted ctx before)
    (foreign : Foreign ctx changes) {placed : List (ResolvedChange × HLC)} {written : Replica ι}
    (perm : (placed.map Prod.fst).Perm (batchFacts ctx before changes))
    (isWritten : written = applyDataToStore ctx { before with clock := merged }
      (appliedChanges (resolveBatch ctx before changes))) :
    ApplyEffect ctx before ((batchFacts ctx before changes).foldl (cleanupAfter ctx)
      { placed.foldl (fileFact ctx now written) written with clock := clock }) changes := by
  subst isWritten
  have distinct : (placed.map fun fact => factKey ctx fact.1).Nodup := by
    have keyed := (perm.map (factKey ctx)).nodup_iff.mpr (nodup_factKeys _)
    rwa [map_map] at keyed
  have mem_placed (fact : ResolvedChange) :
      (∃ position, (fact, position) ∈ placed) ↔ fact ∈ batchFacts ctx before changes := by
    rw [← perm.mem_iff, mem_map]
    exact ⟨fun ⟨position, inside⟩ => ⟨_, inside, rfl⟩, fun ⟨pair, inside, same⟩ =>
      ⟨pair.2, same ▸ inside⟩⟩
  have no_delete {row : ι} (none_accepted : acceptedDeletions ctx before changes row = ∅)
      {fact : ResolvedChange} (isFact : fact ∈ batchFacts ctx before changes) :
      factKey ctx fact ≠ (row, none) := by
    intro key
    obtain ⟨deletion, isDelete, rfl⟩ := factKey_delete.mp key
    exact (Set.eq_empty_iff_forall_notMem.mp none_accepted) deletion
      (deleteFact_isLatest plain foreign isFact isDelete).1
  have tombstone_eq (row : ι) (replica : Replica ι) :
      ((batchFacts ctx before changes).foldl (cleanupAfter ctx) replica).tombstone row =
        replica.tombstone row := by
    simp only [tombstone, (cleaned_rest _ _).1]
  refine ⟨?_, ?_, ?_, ?_, ?_, ?_, ?_⟩
  · rw [(cleaned_rest _ _).2.2]
    exact (filed_rest _ _ _).2
  · rw [(cleaned_rest _ _).2.1]
    exact (filed_rest _ _ _).1
  · intro row accepted
    obtain ⟨fact, isFact, key, -⟩ := exists_deleteFact plain foreign accepted.some_mem
    obtain ⟨deletion, isDelete, rfl⟩ := factKey_delete.mp key
    obtain ⟨position, inside⟩ := (mem_placed fact).mpr isFact
    refine ⟨deletion, deleteFact_isLatest plain foreign isFact isDelete, ?_⟩
    rw [tombstoneFact, tombstone_eq]
    exact congrArg (Option.map Tombstone.fact) (filed_tombstone distinct inside isDelete)
  · intro row none_accepted
    rw [tombstoneFact, tombstone_eq]
    refine congrArg (Option.map Tombstone.fact)
      (foldl_view_eq (fileFact ctx now _) (fun state => state.tombstone row) _ fun _ fact inside =>
        ?_)
    exact fileFact_tombstone_of_ne
      (no_delete none_accepted ((mem_placed fact.1).mp ⟨fact.2, inside⟩))
  · intro row column admitted
    obtain ⟨fact, isFact, key, -⟩ := exists_columnFact plain foreign admitted.some_mem
    obtain ⟨write, isColumn, rfl, rfl⟩ := factKey_column.mp key
    obtain ⟨position, inside⟩ := (mem_placed fact).mpr isFact
    refine ⟨write, columnFact_isLatest plain foreign isFact isColumn, ?_⟩
    rw [cellFact, cleaned_cell_of_spared]
    · exact filed_cell distinct inside isColumn
    · -- No fact clears a cell that has an admitted write.
      rintro _ isOther ⟨key, unspared⟩
      obtain ⟨deletion, isDelete, sameRow⟩ := factKey_delete.mp key
      exact unspared ((mem_keepColumns plain foreign (mem_of_mem_facts isOther) isDelete
        (deleteFact_isLatest plain foreign isOther isDelete) _).mpr (sameRow ▸ admitted))
  · intro row column none_admitted accepted
    obtain ⟨fact, isFact, key, -⟩ := exists_deleteFact plain foreign accepted.some_mem
    obtain ⟨deletion, isDelete, rfl⟩ := factKey_delete.mp key
    have latest := deleteFact_isLatest plain foreign isFact isDelete
    have clears : Clears ctx (ctx.pkIdentity deletion.pk) column fact := by
      refine ⟨key, ?_⟩
      rw [mem_keepColumns plain foreign (mem_of_mem_facts isFact) isDelete latest, none_admitted]
      exact Set.not_nonempty_empty
    refine congrArg (Option.map ColumnVersion.fact) (foldl_view_eq_of_mem (cleanupAfter ctx)
      (fun state => state.cell _ column) _ isFact (fun _ => cleanupAfter_cell_of_clears clears) ?_)
    intro state other inside different
    refine cleanupAfter_cell_of_not_clears fun otherClears => different ?_
    exact inj_on_of_nodup_map (nodup_factKeys _) inside isFact (otherClears.1.trans clears.1.symm)
  · intro row column none_admitted none_accepted
    rw [cellFact, cleaned_cell_of_spared]
    · refine congrArg (Option.map ColumnVersion.fact)
        (foldl_view_eq (fileFact ctx now _) (fun state => state.cell row column) _ fun _ fact
          inside => ?_)
      refine fileFact_cell_of_ne fun key => ?_
      obtain ⟨write, isColumn, rfl, rfl⟩ := factKey_column.mp key
      exact (Set.eq_empty_iff_forall_notMem.mp none_admitted) write
        (columnFact_isLatest plain foreign
        ((mem_placed fact.1).mp ⟨fact.2, inside⟩) isColumn).1
    · exact fun fact isFact clears => no_delete none_accepted isFact clears.1

include near in
theorem exists_receiveWatermark (clock : HLCManager) :
    ∃ merged, receiveWatermark clock now watermark = .ok merged := by
  cases watermark with
  | none => exact ⟨clock, rfl⟩
  | some stamp =>
    have within : assertWithinDrift stamp.wallTime now = .ok () :=
      if_neg (Nat.not_lt.mpr (near stamp rfl))
    simp only [receiveWatermark, HLCManager.receive, within, bind]
    exact ⟨_, rfl⟩

theorem length_facts_le (ctx : TableContext ι) (applied : List ResolvedChange) :
    (collapseInBatchRepeats ctx applied).length ≤ applied.length := by
  have distinct : ((collapseInBatchRepeats ctx applied).map (factKey ctx)).Nodup :=
    nodup_factKeys applied
  exact ((distinct.of_map _).subperm fun _ isFact => mem_of_mem_facts isFact).length_le

theorem length_appliedChanges_le (replica : Replica ι) (changes : List Change) :
    (appliedChanges (resolveBatch ctx replica changes)).length ≤ changes.length := by
  refine (length_filter_le _ _).trans (le_of_eq ?_)
  simp only [resolveBatch, refuseEditsOfForgottenRows, reconcileInBatchDeletes, length_map]

include near

theorem exists_fileAtNextTick (ctx : TableContext ι) (replica : Replica ι)
    (room : facts.length ≤ MAX_OPSEQ + 1) :
    ∃ (placed : List (ResolvedChange × HLC)) (clock : HLCManager),
      (placed.map Prod.fst).Perm facts ∧ fileAtNextTick ctx now replica facts watermark =
        .ok { placed.foldl (fileFact ctx now replica) replica with clock := clock } := by
  obtain ⟨merged, merging⟩ := exists_receiveWatermark near replica.clock
  unfold fileAtNextTick
  rw [merging]
  by_cases empty : facts.isEmpty
  · refine ⟨[], merged, ?_, if_pos empty⟩
    rw [isEmpty_iff.mp empty]
    exact .nil
  · have fits : 0 + (facts.insertionSort fun first second => first.hlc ≤ second.hlc).length ≤
        MAX_OPSEQ + 1 := by
      rw [Nat.zero_add, length_insertionSort]
      exact room
    obtain ⟨placed, placing, same⟩ := exists_placeFrom ((merged.tick now).stamp ctx.siteId) fits
    refine ⟨placed, merged.tick now, same ▸ perm_insertionSort _ _, ?_⟩
    simp only [bind, Except.bind, placeFacts, placing]
    exact if_neg empty

/-- Phase three succeeds when the clock can merge the watermark and every fact
finds a position: the facts are filed at positions of one tick, and then cleaned up after. -/
theorem exists_commitChangeMetadata (replica : Replica ι) (room : resolved.length ≤ MAX_OPSEQ + 1) :
    ∃ (placed : List (ResolvedChange × HLC)) (clock : HLCManager),
      (placed.map Prod.fst).Perm (collapseInBatchRepeats ctx resolved) ∧
      commitChangeMetadata ctx now replica resolved watermark =
        .ok ((collapseInBatchRepeats ctx resolved).foldl (cleanupAfter ctx)
          { placed.foldl (fileFact ctx now replica) replica with clock := clock }) := by
  obtain ⟨placed, clock, perm, filing⟩ :=
    exists_fileAtNextTick near ctx replica ((length_facts_le ctx resolved).trans room)
  simp only [commitChangeMetadata]
  rw [filing]
  by_cases idle : (collapseInBatchRepeats ctx resolved).isEmpty ∧ watermark.isNone
  · have none : collapseInBatchRepeats ctx resolved = [] := isEmpty_iff.mp idle.1
    refine ⟨[], replica.clock, ?_, (if_pos idle).trans ?_⟩ <;> rw [none]
    · exact .nil
    · rfl
  · exact ⟨placed, clock, perm, if_neg idle⟩

omit near

/-- A call of foreign facts that passes the checks succeeds, with the effect of its batch. -/
theorem applyChanges_effect {call : Call} (plain : Unassisted ctx replica)
    (foreign : Foreign ctx call.changes) (admissible : call.Admissible) :
    ∃ result after, applyChanges ctx call.now replica call.sets = .ok (result, after) ∧
      ApplyEffect ctx replica after call.changes := by
  have near (stamp : HLC) (found : maxHLC (call.sets.map ChangeSet.hlc) = some stamp) :
      stamp.wallTime ≤ call.now + MAX_DRIFT_MS := by
    obtain ⟨set, inside, rfl⟩ := mem_map.mp (maxHLC_mem found)
    exact admissible.1 set inside
  have all : foreignChanges ctx call.sets = call.changes :=
    filter_eq_self.mpr fun change inside => decide_eq_true (foreign change inside)
  obtain ⟨merged, merging⟩ := exists_receiveWatermark near replica.clock
  obtain ⟨placed, clock, perm, committed⟩ := exists_commitChangeMetadata near
    (applyDataToStore ctx { replica with clock := merged }
      (appliedChanges (resolveBatch ctx replica call.changes)))
    ((length_appliedChanges_le replica call.changes).trans admissible.2)
  refine ⟨summarize ctx call.sets (resolveBatch ctx replica call.changes), _, ?_,
    commit_effect call.now merged clock plain foreign perm rfl⟩
  simp only [applyChanges]
  rw [merging, all]
  simp only [bind, Except.bind]
  rw [committed]
  rfl

end Effect

end Quereus.Sync
