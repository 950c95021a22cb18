import Quereus.Lib.Latest
import Quereus.Sync.Apply

/-! # Which changes of a batch survive

The outcome of Phase one, stated without the batch's internal order. A delete is
accepted when it is newer than the tombstone of its row. A write is admitted when
it is newer than its cell, no tombstone blocks it, and no accepted delete of the
same batch does. Phase three files the latest accepted delete of each row and the
latest admitted write of each cell, and the columns a filed delete spares are
those with an admitted write.
-/

namespace Quereus.Sync

open List KeyedList ResolvedChange

variable {ι : Type} [DecidableEq ι]

open Latest (IsLatest)

/-- Nothing but timestamps decides: there is no conflict resolver, and no
tombstone has been pruned. -/
structure Unassisted (ctx : TableContext ι) (replica : Replica ι) : Prop where
  resolver : ctx.conflictResolver = none
  floor : replica.deltaFloor = none

/-- A delete is accepted when it is newer than the tombstone of its row. -/
def DeleteAccepted (ctx : TableContext ι) (replica : Replica ι) (deletion : RowDeletion) : Prop :=
  ∀ tombstone, replica.tombstone (ctx.pkIdentity deletion.pk) = some tombstone →
    tombstone.hlc < deletion.hlc

/-- A write is accepted when it is newer than its cell and no tombstone blocks it. -/
def WriteAccepted (ctx : TableContext ι) (replica : Replica ι) (write : ColumnChange) : Prop :=
  (∀ version, replica.cell (ctx.pkIdentity write.pk) write.column = some version →
    version.hlc < write.hlc) ∧
  ∀ tombstone, replica.tombstone (ctx.pkIdentity write.pk) = some tombstone →
    ctx.allowResurrection ∧ tombstone.hlc < write.hlc

/-- The accepted deletes of a row in a batch. -/
def acceptedDeletions (ctx : TableContext ι) (replica : Replica ι) (changes : List Change)
    (row : ι) : Set RowDeletion :=
  {deletion | .delete deletion ∈ changes ∧ ctx.pkIdentity deletion.pk = row ∧
    DeleteAccepted ctx replica deletion}

/-- The writes of a cell that pass the stored records and the deletes of the batch. -/
def admittedWrites (ctx : TableContext ι) (replica : Replica ι) (changes : List Change)
    (row : ι) (column : String) : Set ColumnChange :=
  {write | .column write ∈ changes ∧ ctx.pkIdentity write.pk = row ∧ write.column = column ∧
    WriteAccepted ctx replica write ∧
    ∀ deletion ∈ acceptedDeletions ctx replica changes row,
      ctx.allowResurrection ∧ deletion.hlc < write.hlc}

variable {ctx : TableContext ι} {replica : Replica ι}

section Resolution

@[simp] theorem resolveChange_change (change : Change) :
    (resolveChange ctx replica change).change = change := by
  simp only [resolveChange]
  repeat' split
  all_goals rfl

/-- When a deletion of another site is applied. -/
theorem resolveChange_delete_applied {deletion : RowDeletion}
    (foreign : (Change.delete deletion).hlc.siteId ≠ ctx.siteId) :
    (resolveChange ctx replica (.delete deletion)).outcome = .applied ↔
      DeleteAccepted ctx replica deletion := by
  unfold resolveChange DeleteAccepted
  rw [if_neg foreign]
  dsimp only
  cases replica.tombstone (ctx.pkIdentity deletion.pk) with
  | none => simp
  | some tombstone =>
    by_cases older : deletion.hlc ≤ tombstone.hlc
    · simp [older, skip]
    · simp [older, not_le.mp older]

theorem isDeletedAndBlocking_eq_false {pk : List SqlValue} {incoming : HLC} :
    isDeletedAndBlocking ctx replica pk incoming = false ↔
      ∀ tombstone, replica.tombstone (ctx.pkIdentity pk) = some tombstone →
        ctx.allowResurrection ∧ tombstone.hlc < incoming := by
  unfold isDeletedAndBlocking
  cases replica.tombstone (ctx.pkIdentity pk) with
  | none => simp
  | some tombstone => cases ctx.allowResurrection <;> simp

/-- When a column write of another site is applied. -/
theorem resolveChange_column_applied (plain : Unassisted ctx replica) {write : ColumnChange}
    (foreign : (Change.column write).hlc.siteId ≠ ctx.siteId) :
    (resolveChange ctx replica (.column write)).outcome = .applied ↔
      WriteAccepted ctx replica write := by
  unfold resolveChange WriteAccepted
  rw [if_neg foreign, ← isDeletedAndBlocking_eq_false]
  simp only [remoteWins, plain.resolver]
  cases replica.cell (ctx.pkIdentity write.pk) write.column with
  | none => cases isDeletedAndBlocking ctx replica write.pk write.hlc <;> simp [skip]
  | some version =>
    by_cases newer : version.hlc < write.hlc
    · cases isDeletedAndBlocking ctx replica write.pk write.hlc <;>
        simp [newer, skip]
    · simp [newer]

/-- Without a pruned tombstone no change is taken for an edit of a forgotten row. -/
theorem resolveChange_editOfForgottenRow (plain : Unassisted ctx replica) (change : Change) :
    (resolveChange ctx replica change).editOfForgottenRow = false := by
  have known (write : ColumnChange) : isEditOfForgottenRow ctx replica write = false := by
    simp [isEditOfForgottenRow, plain.floor]
  simp only [resolveChange, known]
  repeat' split
  all_goals simp [skip]

end Resolution

variable {changes : List Change} {entry : ResolvedChange}

section Batch

/-- The batch has only facts of other sites. -/
def Foreign (ctx : TableContext ι) (changes : List Change) : Prop :=
  ∀ change ∈ changes, change.hlc.siteId ≠ ctx.siteId

theorem isAppliedDelete_iff (entry : ResolvedChange) :
    entry.isAppliedDelete ↔
      entry.outcome = .applied ∧ ∃ deletion, entry.change = .delete deletion := by
  unfold isAppliedDelete
  cases entry.change <;> simp

theorem isAppliedColumn_iff (entry : ResolvedChange) :
    entry.isAppliedColumn ↔
      entry.outcome = .applied ∧ ∃ write, entry.change = .column write := by
  unfold isAppliedColumn
  cases entry.change <;> simp

variable (plain : Unassisted ctx replica) (foreign : Foreign ctx changes)

variable {winner : ResolvedChange} {write : ColumnChange} {resolved : List ResolvedChange}

section Deletes

include foreign

/-- The applied deletes Phase one finds are the accepted ones. -/
theorem mem_appliedDeletes (entry : ResolvedChange) :
    entry ∈ (changes.map (resolveChange ctx replica)).filter ResolvedChange.isAppliedDelete ↔
      ∃ deletion, .delete deletion ∈ changes ∧ DeleteAccepted ctx replica deletion ∧
        entry = resolveChange ctx replica (.delete deletion) := by
  rw [mem_filter, isAppliedDelete_iff, mem_map]
  constructor
  · rintro ⟨⟨change, member, rfl⟩, applied, deletion, isDelete⟩
    rw [resolveChange_change] at isDelete
    subst isDelete
    exact ⟨deletion, member, (resolveChange_delete_applied (foreign _ member)).mp applied, rfl⟩
  · rintro ⟨deletion, member, accepted, rfl⟩
    exact ⟨⟨_, member, rfl⟩, (resolveChange_delete_applied (foreign _ member)).mpr accepted,
      deletion, resolveChange_change _⟩

theorem deleteWinner_eq_none (row : ι) :
    (deleteWinnersByRow ctx (changes.map (resolveChange ctx replica))).lookup row = none ↔
      acceptedDeletions ctx replica changes row = ∅ := by
  unfold deleteWinnersByRow
  rw [lookup_latestByKey_eq_none, Set.eq_empty_iff_forall_notMem]
  constructor
  · rintro absent deletion ⟨member, named, accepted⟩
    refine absent _ ((mem_appliedDeletes foreign _).mpr ⟨deletion, member, accepted, rfl⟩) ?_
    rw [resolveChange_change]
    exact named
  · intro absent entry member named
    obtain ⟨deletion, inside, accepted, rfl⟩ := (mem_appliedDeletes foreign entry).mp member
    rw [resolveChange_change] at named
    exact absent deletion ⟨inside, named, accepted⟩

/-- The winning delete of a row is the latest accepted one. -/
theorem deleteWinner_isLatest {row : ι}
    (found : (deleteWinnersByRow ctx (changes.map (resolveChange ctx replica))).lookup row =
      some winner) :
    ∃ deletion, winner.change = .delete deletion ∧
      IsLatest RowDeletion.hlc (acceptedDeletions ctx replica changes row) deletion := by
  obtain ⟨member, named, latest⟩ := lookup_latestByKey_eq_some _ _ found
  obtain ⟨deletion, inside, accepted, rfl⟩ := (mem_appliedDeletes foreign winner).mp member
  rw [resolveChange_change] at named
  refine ⟨deletion, resolveChange_change _, ⟨inside, named, accepted⟩, ?_⟩
  rintro other ⟨otherInside, otherNamed, otherAccepted⟩
  have bound :=
    latest _ ((mem_appliedDeletes foreign _).mpr ⟨other, otherInside, otherAccepted, rfl⟩)
  simp only [resolveChange_change, hlc] at bound
  exact bound otherNamed

end Deletes

@[simp] theorem reconcileEntry_change (resolved : List ResolvedChange) (entry : ResolvedChange) :
    (reconcileEntry ctx resolved entry).change = entry.change := by
  unfold reconcileEntry
  repeat' split
  all_goals rfl

variable {deletion : RowDeletion}

theorem reconcileEntry_delete_outcome (isDelete : entry.change = .delete deletion)
    (resolved : List ResolvedChange) :
    (reconcileEntry ctx resolved entry).outcome = entry.outcome := by
  unfold reconcileEntry
  split
  · rfl
  · split
    · rfl
    · rw [isDelete]
      dsimp only
      split <;> rfl

theorem reconcileEntry_column_applied (isColumn : entry.change = .column write)
    (resolved : List ResolvedChange) :
    (reconcileEntry ctx resolved entry).outcome = .applied ↔
      entry.outcome = .applied ∧ ∀ winner,
        (deleteWinnersByRow ctx resolved).lookup (ctx.pkIdentity write.pk) = some winner →
          survivesDelete ctx winner entry := by
  have row : ctx.rowIdentity entry.change = ctx.pkIdentity write.pk := by
    rw [isColumn]
    rfl
  unfold reconcileEntry
  by_cases applied : entry.outcome = .applied
  · rw [if_neg (not_not.mpr applied), row]
    cases (deleteWinnersByRow ctx resolved).lookup (ctx.pkIdentity write.pk) with
    | none => simp
    | some winner =>
      rw [isColumn]
      by_cases survives : survivesDelete ctx winner entry <;>
        simp [survives, applied, skip]
  · simp [applied]

theorem refuseEditsOfForgottenRows_eq_self
    (known : ∀ entry ∈ resolved, entry.editOfForgottenRow = false) :
    refuseEditsOfForgottenRows ctx resolved = resolved := by
  conv_rhs => rw [← map_id resolved]
  apply map_congr_left
  intro entry member
  rw [known entry member]
  simp

include plain in
/-- The changes of a batch that Phases two and three go on with. -/
theorem mem_appliedChanges (entry : ResolvedChange) :
    entry ∈ appliedChanges (resolveBatch ctx replica changes) ↔
      ∃ change ∈ changes, entry = reconcileEntry ctx (changes.map (resolveChange ctx replica))
          (resolveChange ctx replica change) ∧ entry.outcome = .applied := by
  unfold appliedChanges resolveBatch
  rw [refuseEditsOfForgottenRows_eq_self]
  · simp only [reconcileInBatchDeletes, mem_filter, mem_map, decide_eq_true_eq]
    constructor
    · rintro ⟨⟨_, ⟨change, member, rfl⟩, rfl⟩, applied⟩
      exact ⟨change, member, rfl, applied⟩
    · rintro ⟨change, member, rfl, applied⟩
      exact ⟨⟨_, ⟨change, member, rfl⟩, rfl⟩, applied⟩
  · intro entry member
    obtain ⟨before, inside, rfl⟩ := mem_map.mp member
    obtain ⟨change, _, rfl⟩ := mem_map.mp inside
    unfold reconcileEntry
    repeat' split
    all_goals first | exact resolveChange_editOfForgottenRow plain change | rfl

include plain in
theorem exists_applied (change : Change) :
    (∃ entry ∈ appliedChanges (resolveBatch ctx replica changes), entry.change = change) ↔
      change ∈ changes ∧ (reconcileEntry ctx (changes.map (resolveChange ctx replica))
        (resolveChange ctx replica change)).outcome = .applied := by
  simp only [mem_appliedChanges plain]
  constructor
  · rintro ⟨_, ⟨source, member, rfl, applied⟩, rfl⟩
    rw [reconcileEntry_change, resolveChange_change]
    exact ⟨member, applied⟩
  · rintro ⟨member, applied⟩
    refine ⟨_, ⟨change, member, rfl, applied⟩, ?_⟩
    rw [reconcileEntry_change, resolveChange_change]

include plain foreign in
/-- The deletions that a batch applies. -/
theorem exists_appliedDelete (deletion : RowDeletion) :
    (∃ entry ∈ appliedChanges (resolveBatch ctx replica changes), entry.change = .delete deletion) ↔
      deletion ∈ acceptedDeletions ctx replica changes (ctx.pkIdentity deletion.pk) := by
  rw [exists_applied plain, reconcileEntry_delete_outcome (resolveChange_change _)]
  constructor
  · rintro ⟨member, applied⟩
    exact ⟨member, rfl, (resolveChange_delete_applied (foreign _ member)).mp applied⟩
  · rintro ⟨member, -, accepted⟩
    exact ⟨member, (resolveChange_delete_applied (foreign _ member)).mpr accepted⟩

include foreign in
/-- Surviving the winning delete is being newer than every accepted one. -/
theorem survives_winner_iff
    (isColumn : entry.change = .column write) (row : ι) :
    (∀ winner, (deleteWinnersByRow ctx (changes.map (resolveChange ctx replica))).lookup row =
        some winner → survivesDelete ctx winner entry) ↔
      ∀ deletion ∈ acceptedDeletions ctx replica changes row,
        ctx.allowResurrection ∧ deletion.hlc < write.hlc := by
  have stamp : entry.hlc = write.hlc := by
    simp only [hlc, isColumn, Change.hlc]
  simp only [survivesDelete, Bool.and_eq_true, decide_eq_true_eq, stamp]
  constructor
  · intro survives deletion member
    cases found : (deleteWinnersByRow ctx (changes.map (resolveChange ctx replica))).lookup row with
    | none =>
      rw [deleteWinner_eq_none foreign] at found
      rw [found] at member
      exact absurd member (Set.notMem_empty _)
    | some winner =>
      obtain ⟨latest, isDelete, -, bound⟩ := deleteWinner_isLatest foreign found
      obtain ⟨allowed, newer⟩ := survives winner found
      rw [hlc, isDelete] at newer
      exact ⟨allowed, lt_of_le_of_lt (bound deletion member) newer⟩
  · intro newer winner found
    obtain ⟨latest, isDelete, member, -⟩ := deleteWinner_isLatest foreign found
    rw [hlc, isDelete]
    exact newer latest member

include plain foreign in
/-- The column writes that a batch applies. -/
theorem exists_appliedColumn (write : ColumnChange) :
    (∃ entry ∈ appliedChanges (resolveBatch ctx replica changes), entry.change = .column write) ↔
      write ∈ admittedWrites ctx replica changes (ctx.pkIdentity write.pk) write.column := by
  rw [exists_applied plain, reconcileEntry_column_applied (resolveChange_change _),
    survives_winner_iff foreign (resolveChange_change _)]
  constructor
  · rintro ⟨member, applied, newer⟩
    exact ⟨member, rfl, rfl, (resolveChange_column_applied plain (foreign _ member)).mp applied,
      newer⟩
  · rintro ⟨member, -, -, accepted, newer⟩
    exact ⟨member, (resolveChange_column_applied plain (foreign _ member)).mpr accepted, newer⟩

theorem mem_columnsPast (resolved : List ResolvedChange) (winner : ResolvedChange)
    (column : String) :
    column ∈ columnsPast ctx resolved winner ↔
      ∃ entry ∈ resolved, ∃ write, entry.change = .column write ∧ entry.outcome = .applied ∧
        ctx.pkIdentity write.pk = ctx.rowIdentity winner.change ∧
        survivesDelete ctx winner entry ∧ write.column = column := by
  unfold columnsPast
  rw [mem_filterMap]
  refine exists_congr fun entry => and_congr_right fun _ => ?_
  split
  · next deletion isDelete => simp [isDelete]
  · next write isColumn =>
    rw [Option.ite_none_right_eq_some, Option.some.injEq, isAppliedColumn_iff]
    constructor
    · rintro ⟨⟨⟨applied, _⟩, sameRow, survives⟩, named⟩
      rw [isColumn] at sameRow
      exact ⟨write, isColumn, applied, sameRow, survives, named⟩
    · rintro ⟨other, isOther, applied, sameRow, survives, named⟩
      cases isColumn.symm.trans isOther
      rw [isColumn]
      exact ⟨⟨⟨applied, write, rfl⟩, sameRow, survives⟩, named⟩

include plain foreign in
/-- The columns a filed delete spares are those with an admitted write. -/
theorem mem_keepColumns
    (member : entry ∈ appliedChanges (resolveBatch ctx replica changes))
    (isDelete : entry.change = .delete deletion)
    (latest : IsLatest RowDeletion.hlc
      (acceptedDeletions ctx replica changes (ctx.pkIdentity deletion.pk)) deletion)
    (column : String) :
    column ∈ entry.keepColumns ↔
      (admittedWrites ctx replica changes (ctx.pkIdentity deletion.pk) column).Nonempty := by
  obtain ⟨change, inside, rfl, applied⟩ := (mem_appliedChanges plain entry).mp member
  rw [reconcileEntry_change, resolveChange_change] at isDelete
  subst isDelete
  rw [reconcileEntry_delete_outcome (resolveChange_change _)] at applied
  set resolved := changes.map (resolveChange ctx replica) with resolvedDef
  cases found : (deleteWinnersByRow ctx resolved).lookup (ctx.pkIdentity deletion.pk) with
  | none =>
    rw [deleteWinner_eq_none foreign] at found
    exact absurd latest.1 (found ▸ Set.notMem_empty _)
  | some winner =>
    obtain ⟨winning, winnerDelete, winningLatest⟩ := deleteWinner_isLatest foreign found
    have sameStamp : (resolveChange ctx replica (.delete deletion)).hlc = winner.hlc := by
      rw [hlc, hlc, resolveChange_change, winnerDelete]
      exact le_antisymm (winningLatest.2 _ latest.1) (latest.2 _ winningLatest.1)
    have winnerRow : ctx.rowIdentity winner.change = ctx.pkIdentity deletion.pk := by
      rw [winnerDelete]
      exact winningLatest.1.2.1
    have survives_iff {write : ColumnChange} {other : ResolvedChange}
        (isColumn : other.change = .column write) :
        survivesDelete ctx winner other ↔
          ∀ accepted ∈ acceptedDeletions ctx replica changes (ctx.pkIdentity deletion.pk),
            ctx.allowResurrection ∧ accepted.hlc < write.hlc := by
      rw [← survives_winner_iff foreign isColumn, found]
      simp
    have kept :
      (reconcileEntry ctx resolved (resolveChange ctx replica (.delete deletion))).keepColumns =
        columnsPast ctx resolved winner := by
      have located : (deleteWinnersByRow ctx resolved).lookup (ctx.rowIdentity (.delete deletion)) =
          some winner := found
      rw [reconcileEntry, if_neg (not_not.mpr applied), resolveChange_change, located]
      exact congrArg _ (if_pos sameStamp)
    rw [kept, mem_columnsPast, winnerRow]
    constructor
    · rintro ⟨other, otherInside, write, isColumn, otherApplied, sameRow, survives, named⟩
      obtain ⟨source, sourceInside, rfl⟩ := mem_map.mp otherInside
      rw [resolveChange_change] at isColumn
      subst isColumn
      exact ⟨write, sourceInside, sameRow, named,
        (resolveChange_column_applied plain (foreign _ sourceInside)).mp otherApplied,
        (survives_iff (resolveChange_change _)).mp survives⟩
    · rintro ⟨write, writeInside, sameRow, named, accepted, newer⟩
      exact ⟨_, mem_map_of_mem writeInside, write, resolveChange_change _,
        (resolveChange_column_applied plain (foreign _ writeInside)).mpr accepted, sameRow,
        (survives_iff (resolveChange_change _)).mpr newer, named⟩

end Batch

section Facts

variable {fact : ResolvedChange} {row : ι}

omit [DecidableEq ι] in
theorem factKey_delete :
    factKey ctx fact = (row, none) ↔
      ∃ deletion, fact.change = .delete deletion ∧ ctx.pkIdentity deletion.pk = row := by
  unfold factKey TableContext.rowIdentity
  cases fact.change <;> simp [Change.pk]

variable {column : String}

omit [DecidableEq ι] in
theorem factKey_column :
    factKey ctx fact = (row, some column) ↔
      ∃ write, fact.change = .column write ∧ ctx.pkIdentity write.pk = row ∧
        write.column = column := by
  unfold factKey TableContext.rowIdentity
  cases fact.change <;> simp [Change.pk]

variable {applied : List ResolvedChange}

theorem mem_of_mem_facts (member : fact ∈ collapseInBatchRepeats ctx applied) : fact ∈ applied := by
  unfold collapseInBatchRepeats at member
  rw [mem_append, mem_winners_iff, mem_winners_iff] at member
  rcases member with isDelete | isColumn
  · exact (mem_filter.mp (lookup_latestByKey_eq_some _ _ isDelete).1).1
  · exact (mem_filter.mp (lookup_latestByKey_eq_some _ _ isColumn).1).1

/-- At most one fact is filed under a key. -/
theorem nodup_factKeys (applied : List ResolvedChange) :
    ((collapseInBatchRepeats ctx applied).map (factKey ctx)).Nodup := by
  unfold collapseInBatchRepeats
  rw [map_append, map_key_latestByKey, map_key_latestByKey]
  refine (nodup_keys_latestByKey _ _ _).append (nodup_keys_latestByKey _ _ _) ?_
  rintro ⟨row, column⟩ inDeletes inColumns
  rw [← map_key_latestByKey] at inDeletes inColumns
  obtain ⟨first, firstWins, firstKey⟩ := mem_map.mp inDeletes
  obtain ⟨second, secondWins, secondKey⟩ := mem_map.mp inColumns
  rw [mem_winners_iff] at firstWins secondWins
  have firstApplied := (mem_filter.mp (lookup_latestByKey_eq_some _ _ firstWins).1).2
  have secondApplied :=
    (mem_filter.mp (lookup_latestByKey_eq_some _ _ secondWins).1).2
  obtain ⟨-, deletion, isDelete⟩ := (isAppliedDelete_iff first).mp firstApplied
  obtain ⟨-, write, isColumn⟩ := (isAppliedColumn_iff second).mp secondApplied
  have different := firstKey.trans secondKey.symm
  simp [factKey, isDelete, isColumn] at different

/-- Every applied change is represented by a fact of its key that is not older. -/
theorem exists_fact (ctx : TableContext ι) (member : entry ∈ applied)
    (outcome : entry.outcome = .applied) :
    ∃ fact ∈ collapseInBatchRepeats ctx applied,
      factKey ctx fact = factKey ctx entry ∧ entry.hlc ≤ fact.hlc := by
  unfold collapseInBatchRepeats
  simp only [mem_append, or_and_right, exists_or]
  cases isChange : entry.change with
  | delete deletion =>
    left
    apply exists_winner
    exact mem_filter.mpr ⟨member, (isAppliedDelete_iff entry).mpr ⟨outcome, _, isChange⟩⟩
  | column write =>
    right
    apply exists_winner
    exact mem_filter.mpr ⟨member, (isAppliedColumn_iff entry).mpr ⟨outcome, _, isChange⟩⟩

theorem appliedChanges_outcome {resolved : List ResolvedChange}
    (member : entry ∈ appliedChanges resolved) : entry.outcome = .applied :=
  of_decide_eq_true (mem_filter.mp member).2

/-- The facts Phase three files for a batch. -/
abbrev batchFacts (ctx : TableContext ι) (replica : Replica ι) (changes : List Change) :
    List ResolvedChange :=
  collapseInBatchRepeats ctx (appliedChanges (resolveBatch ctx replica changes))

variable (plain : Unassisted ctx replica) (foreign : Foreign ctx changes)

include plain foreign

/-- A row with an accepted deletion has a delete fact. -/
theorem exists_deleteFact {deletion : RowDeletion}
    (accepted : deletion ∈ acceptedDeletions ctx replica changes row) :
    ∃ fact ∈ batchFacts ctx replica changes, factKey ctx fact = (row, none) ∧ deletion.hlc ≤
      fact.hlc := by
  have own := accepted
  rw [← accepted.2.1] at own
  obtain ⟨entry, member, isDelete⟩ := (exists_appliedDelete plain foreign deletion).mpr own
  obtain ⟨fact, isFact, sameKey, bound⟩ := exists_fact ctx member (appliedChanges_outcome member)
  rw [hlc, isDelete] at bound
  exact ⟨fact, isFact, sameKey.trans (factKey_delete.mpr ⟨deletion, isDelete, accepted.2.1⟩), bound⟩

/-- The delete fact of a row is its latest accepted deletion. -/
theorem deleteFact_isLatest (isFact : fact ∈ batchFacts ctx replica changes)
    {deletion : RowDeletion} (isDelete : fact.change = .delete deletion) :
    IsLatest RowDeletion.hlc
      (acceptedDeletions ctx replica changes (ctx.pkIdentity deletion.pk)) deletion := by
  refine ⟨(exists_appliedDelete plain foreign deletion).mp
    ⟨fact, mem_of_mem_facts isFact, isDelete⟩, fun other accepted => ?_⟩
  obtain ⟨found, isFound, key, bound⟩ := exists_deleteFact plain foreign accepted
  rwa [inj_on_of_nodup_map (nodup_factKeys _) isFound isFact
    (key.trans (factKey_delete.mpr ⟨deletion, isDelete, rfl⟩).symm), hlc, isDelete] at bound

/-- A cell with an admitted write has a column fact. -/
theorem exists_columnFact {write : ColumnChange}
    (admitted : write ∈ admittedWrites ctx replica changes row column) :
    ∃ fact ∈ batchFacts ctx replica changes, factKey ctx fact = (row, some column) ∧
      write.hlc ≤ fact.hlc := by
  have own := admitted
  obtain ⟨-, sameRow, sameColumn, -⟩ := admitted
  rw [← sameRow, ← sameColumn] at own
  obtain ⟨entry, member, isColumn⟩ := (exists_appliedColumn plain foreign write).mpr own
  obtain ⟨fact, isFact, sameKey, bound⟩ := exists_fact ctx member (appliedChanges_outcome member)
  rw [hlc, isColumn] at bound
  exact ⟨fact, isFact, sameKey.trans (factKey_column.mpr ⟨write, isColumn, sameRow, sameColumn⟩),
    bound⟩

/-- The column fact of a cell is its latest admitted write. -/
theorem columnFact_isLatest (isFact : fact ∈ batchFacts ctx replica changes) {write : ColumnChange}
    (isColumn : fact.change = .column write) :
    IsLatest ColumnChange.hlc
      (admittedWrites ctx replica changes (ctx.pkIdentity write.pk) write.column) write := by
  refine ⟨(exists_appliedColumn plain foreign write).mp
    ⟨fact, mem_of_mem_facts isFact, isColumn⟩, fun other admitted => ?_⟩
  obtain ⟨found, isFound, key, bound⟩ := exists_columnFact plain foreign admitted
  rwa [inj_on_of_nodup_map (nodup_factKeys _) isFound isFact
    (key.trans (factKey_column.mpr ⟨write, isColumn, rfl, rfl⟩).symm), hlc, isColumn] at bound

end Facts

end Quereus.Sync
