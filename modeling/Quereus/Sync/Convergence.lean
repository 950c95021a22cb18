import Quereus.Sync.ApplyEffect

/-! # Convergence

What a set of facts says the records should be, whatever the calls that brought
them: each row has the tombstone of its latest delete, and each cell holds the
latest write that no delete of its row blocks. Without resurrection a delete
blocks every write of its row, and every sequence of calls ends in these records.
-/

namespace Quereus.Sync

variable {ι : Type} [DecidableEq ι]

open Latest (IsLatest Holds newer)

/-- The deletes of a row among some facts. -/
def deletionsOf (ctx : TableContext ι) (facts : List Change) (row : ι) : Set RowDeletion :=
  {deletion | .delete deletion ∈ facts ∧ ctx.pkIdentity deletion.pk = row}

/-- The writes of a cell among some facts. -/
def writesOf (ctx : TableContext ι) (facts : List Change) (row : ι) (column : String) :
    Set ColumnChange :=
  {write | .column write ∈ facts ∧ ctx.pkIdentity write.pk = row ∧ write.column = column}

/-- No delete of `facts` blocks the write. -/
def Unblocked (ctx : TableContext ι) (facts : List Change) (row : ι)
    (write : ColumnChange) : Prop :=
  ∀ deletion ∈ deletionsOf ctx facts row, ctx.allowResurrection ∧ deletion.hlc < write.hlc

/-- The writes of a cell in `facts` that no delete of `all` blocks. -/
def unblockedWrites (ctx : TableContext ι) (facts all : List Change) (row : ι) (column : String) :
    Set ColumnChange :=
  {write | write ∈ writesOf ctx facts row column ∧ Unblocked ctx all row write}

/-- The writes of a cell that no delete of the row blocks. -/
abbrev liveWrites (ctx : TableContext ι) (facts : List Change) (row : ι) (column : String) :
    Set ColumnChange :=
  unblockedWrites ctx facts facts row column

/-- The replica's tombstones are the latest deletes of `facts`. -/
def TombstonesConverged (ctx : TableContext ι) (facts : List Change) (replica : Replica ι) : Prop :=
  ∀ row, ∃ stored, Holds RowDeletion.hlc (deletionsOf ctx facts row) stored ∧
    replica.tombstoneFact row = stored.map RowDeletion.fact

/-- The replica's records are those `facts` call for. -/
structure Converged (ctx : TableContext ι) (facts : List Change) (replica : Replica ι) : Prop where
  tombstones : TombstonesConverged ctx facts replica
  cells : ∀ row column, ∃ stored,
    Holds ColumnChange.hlc (liveWrites ctx facts row column) stored ∧
      replica.cellFact row column = stored.map ColumnChange.fact

section Step

variable {ctx : TableContext ι} {before after : Replica ι} {seen changes : List Change}

omit [DecidableEq ι] in
theorem deletionsOf_append (row : ι) :
    deletionsOf ctx (seen ++ changes) row =
      deletionsOf ctx seen row ∪ deletionsOf ctx changes row := by
  ext deletion
  simp [deletionsOf, or_and_right]

/-- A record and the fact it was filed for have one timestamp. -/
theorem forall_stored_iff {α β γ : Type} {record : Option α} {stored : Option β}
    {recordFact : α → HLC × γ} {storedFact : β → HLC × γ}
    (same : record.map recordFact = stored.map storedFact) (bound : HLC → Prop) :
    (∀ found, record = some found → bound (recordFact found).1) ↔
      ∀ old, stored = some old → bound (storedFact old).1 := by
  cases record with
  | none =>
    cases stored with
    | none => simp
    | some old => simp at same
  | some found =>
    cases stored with
    | none => simp at same
    | some old =>
      have facts : recordFact found = storedFact old := Option.some.inj same
      simp [facts]

variable {row : ι} {stored : Option RowDeletion}

/-- A row accepts the deletes that are newer than its register. -/
theorem acceptedDeletions_eq_newer (same : before.tombstoneFact row = stored.map RowDeletion.fact) :
    acceptedDeletions ctx before changes row =
      newer RowDeletion.hlc stored (deletionsOf ctx changes row) := by
  ext deletion
  simp only [newer, deletionsOf, Set.mem_ofPred_eq, and_assoc]
  refine and_congr_right fun _ => and_congr_right fun named => ?_
  subst named
  exact forall_stored_iff same fun stamp => stamp < deletion.hlc

/-- A call leaves the latest deletes of all facts met so far. -/
theorem TombstonesConverged.step (converged : TombstonesConverged ctx seen before)
    (effect : ApplyEffect ctx before after changes) :
    TombstonesConverged ctx (seen ++ changes) after := by
  intro row
  obtain ⟨stored, holds, same⟩ := converged row
  rw [deletionsOf_append]
  have accepted : acceptedDeletions ctx before changes row =
      newer RowDeletion.hlc stored (deletionsOf ctx changes row) :=
    acceptedDeletions_eq_newer same
  rcases Set.eq_empty_or_nonempty (acceptedDeletions ctx before changes row) with none | some
  · refine ⟨stored, holds.union_of_none_newer (accepted ▸ none), ?_⟩
    rw [effect.tombstone_kept row none, same]
  · obtain ⟨deletion, latest, kept⟩ := effect.tombstone_set row some
    rw [accepted] at latest
    exact ⟨deletion, holds.union_of_newer latest, kept⟩

omit [DecidableEq ι] in
/-- The register of a row blocks what the deletes it stands for block. -/
theorem unblocked_iff_stored {facts : List Change}
    (holds : Holds RowDeletion.hlc (deletionsOf ctx facts row) stored) (write : ColumnChange) :
    Unblocked ctx facts row write ↔
      ∀ old, stored = some old → ctx.allowResurrection ∧ old.hlc < write.hlc := by
  constructor
  · exact fun unblocked old found => unblocked old (holds.1 old found).1
  · intro above deletion inside
    cases stored with
    | none => exact absurd inside (holds.2 rfl ▸ Set.notMem_empty _)
    | some old =>
      exact ⟨(above old rfl).1,
        lt_of_le_of_lt ((holds.1 old rfl).2 deletion inside) (above old rfl).2⟩

/-- The register of a row and the deletes it accepts block what all deletes met so far block. -/
theorem unblocked_append_iff (holds : Holds RowDeletion.hlc (deletionsOf ctx seen row) stored)
    (same : before.tombstoneFact row = stored.map RowDeletion.fact) (write : ColumnChange) :
    Unblocked ctx (seen ++ changes) row write ↔
      (∀ old, stored = some old → ctx.allowResurrection ∧ old.hlc < write.hlc) ∧
        ∀ deletion ∈ acceptedDeletions ctx before changes row,
          ctx.allowResurrection ∧ deletion.hlc < write.hlc := by
  rw [acceptedDeletions_eq_newer same, Unblocked, deletionsOf_append, ← unblocked_iff_stored holds]
  constructor
  · exact fun unblocked => ⟨fun deletion inside => unblocked deletion (Or.inl inside),
      fun deletion accepted => unblocked deletion (Or.inr accepted.1)⟩
  · rintro ⟨aboveSeen, aboveAccepted⟩ deletion (inside | member)
    · exact aboveSeen deletion inside
    · by_cases taken : deletion ∈ newer RowDeletion.hlc stored (deletionsOf ctx changes row)
      · exact aboveAccepted deletion taken
      · obtain ⟨old, found, bound⟩ := Latest.exists_not_newer member taken
        obtain ⟨allowed, above⟩ := aboveSeen old (holds.1 old found).1
        exact ⟨allowed, lt_of_le_of_lt bound above⟩

section Cell

variable {row : ι} {column : String} {storedDelete : Option RowDeletion}
  {stored : Option ColumnChange}

variable (holdsDelete : Holds RowDeletion.hlc (deletionsOf ctx seen row) storedDelete)
  (sameDelete : before.tombstoneFact row = storedDelete.map RowDeletion.fact)

include holdsDelete sameDelete in
/-- The admitted writes of a batch are those newer than the cell's register that
no delete met so far blocks. -/
theorem admittedWrites_eq_newer (same : before.cellFact row column = stored.map ColumnChange.fact) :
    admittedWrites ctx before changes row column =
      newer ColumnChange.hlc stored (unblockedWrites ctx changes (seen ++ changes) row column) := by
  ext write
  have unblocked_iff : Unblocked ctx (seen ++ changes) row write ↔ _ :=
    unblocked_append_iff holdsDelete sameDelete write
  have newer_iff := forall_stored_iff same fun stamp => stamp < write.hlc
  have above_iff := forall_stored_iff sameDelete fun stamp => ctx.allowResurrection ∧
    stamp < write.hlc
  constructor
  · rintro ⟨member, rfl, rfl, ⟨newerCell, newerTombstone⟩, survives⟩
    exact ⟨⟨⟨member, rfl, rfl⟩, unblocked_iff.mpr ⟨above_iff.mp newerTombstone, survives⟩⟩,
      newer_iff.mp newerCell⟩
  · rintro ⟨⟨⟨member, rfl, rfl⟩, unblocked⟩, newerCell⟩
    obtain ⟨newerTombstone, survives⟩ := unblocked_iff.mp unblocked
    exact ⟨member, rfl, rfl, ⟨newer_iff.mpr newerCell, above_iff.mpr newerTombstone⟩, survives⟩

omit [DecidableEq ι] in
theorem liveWrites_append :
    liveWrites ctx (seen ++ changes) row column =
      unblockedWrites ctx seen (seen ++ changes) row column ∪
        unblockedWrites ctx changes (seen ++ changes) row column := by
  ext write
  simp only [unblockedWrites, writesOf, Set.mem_union, Set.mem_ofPred_eq, List.mem_append,
    or_and_right]

include holdsDelete sameDelete in
/-- A batch without an accepted delete blocks no further write. -/
theorem unblockedWrites_of_none_accepted (none : acceptedDeletions ctx before changes row = ∅) :
    unblockedWrites ctx seen (seen ++ changes) row column = liveWrites ctx seen row column := by
  ext write
  refine and_congr_right fun _ => ?_
  rw [unblocked_append_iff holdsDelete sameDelete, none, unblocked_iff_stored holdsDelete]
  simp

/-- Some accepted delete of the batch is not older than what the cell holds. -/
def Outdated (ctx : TableContext ι) (before : Replica ι) (changes : List Change) (row : ι)
    (stored : Option ColumnChange) : Prop :=
  ∀ old, stored = some old → ∃ deletion ∈ acceptedDeletions ctx before changes row,
    ¬ (ctx.allowResurrection ∧ deletion.hlc < old.hlc)

include holdsDelete sameDelete

/-- Deletes that reach the newest earlier write block all earlier writes. -/
theorem unblockedWrites_of_outdated
    (holds : Holds ColumnChange.hlc (liveWrites ctx seen row column) stored)
    (outdated : Outdated ctx before changes row stored) :
    unblockedWrites ctx seen (seen ++ changes) row column = ∅ := by
  refine Set.eq_empty_iff_forall_notMem.mpr fun write member => ?_
  -- A later delete only blocks more.
  have isLive : write ∈ liveWrites ctx seen row column := ⟨member.1, fun deletion inside =>
    member.2 deletion (by rw [deletionsOf_append]; exact Or.inl inside)⟩
  cases stored with
  | none => exact absurd isLive (holds.2 rfl ▸ Set.notMem_empty _)
  | some old =>
    obtain ⟨deletion, accepted, notNewer⟩ := outdated old rfl
    obtain ⟨allowed, above⟩ :=
      ((unblocked_append_iff holdsDelete sameDelete write).mp member.2).2 deletion accepted
    exact notNewer ⟨allowed, lt_of_lt_of_le above ((holds.1 old rfl).2 write isLive)⟩

/-- Every write that survives such deletes is newer than what the cell holds. -/
theorem newer_of_outdated (outdated : Outdated ctx before changes row stored) :
    newer ColumnChange.hlc stored (unblockedWrites ctx changes (seen ++ changes) row column) =
      newer ColumnChange.hlc none (unblockedWrites ctx changes (seen ++ changes) row column) := by
  ext write
  refine and_congr_right fun member => ⟨fun _ => nofun, fun _ old found => ?_⟩
  obtain ⟨deletion, accepted, notNewer⟩ := outdated old found
  obtain ⟨allowed, above⟩ :=
    ((unblocked_append_iff holdsDelete sameDelete write).mp member.2).2 deletion accepted
  exact lt_of_le_of_lt (not_lt.mp fun older => notNewer ⟨allowed, older⟩) above

omit holdsDelete sameDelete

/-- A cell holds the latest live write after a call, unless the call deletes the
row with deletes that are all older than the cell. -/
theorem cell_step (effect : ApplyEffect ctx before after changes)
    (holdsDelete : Holds RowDeletion.hlc (deletionsOf ctx seen row) storedDelete)
    (sameDelete : before.tombstoneFact row = storedDelete.map RowDeletion.fact)
    (holds : Holds ColumnChange.hlc (liveWrites ctx seen row column) stored)
    (same : before.cellFact row column = stored.map ColumnChange.fact)
    (outdated : (acceptedDeletions ctx before changes row).Nonempty →
      Outdated ctx before changes row stored) :
    ∃ kept, Holds ColumnChange.hlc (liveWrites ctx (seen ++ changes) row column) kept ∧
      after.cellFact row column = kept.map ColumnChange.fact := by
  have admitted : admittedWrites ctx before changes row column =
      newer ColumnChange.hlc stored (unblockedWrites ctx changes (seen ++ changes) row column) :=
    admittedWrites_eq_newer holdsDelete sameDelete same
  -- The register the batch's writes are compared with once the batch's deletes have been met.
  have merged (base : Option ColumnChange)
      (baseHolds : Holds ColumnChange.hlc
        (unblockedWrites ctx seen (seen ++ changes) row column) base)
      (sameNewer : admittedWrites ctx before changes row column =
        newer ColumnChange.hlc base (unblockedWrites ctx changes (seen ++ changes) row column))
      (untouched : admittedWrites ctx before changes row column = ∅ →
        after.cellFact row column = base.map ColumnChange.fact) :
      ∃ kept, Holds ColumnChange.hlc (liveWrites ctx (seen ++ changes) row column) kept ∧
        after.cellFact row column = kept.map ColumnChange.fact := by
    rw [liveWrites_append]
    rcases Set.eq_empty_or_nonempty (admittedWrites ctx before changes row column) with none | some
    · exact ⟨base, baseHolds.union_of_none_newer (sameNewer ▸ none), untouched none⟩
    · obtain ⟨write, latest, kept⟩ := effect.cell_set row column some
      rw [sameNewer] at latest
      exact ⟨write, baseHolds.union_of_newer latest, kept⟩
  rcases Set.eq_empty_or_nonempty (acceptedDeletions ctx before changes row) with none | some
  · refine merged stored ?_ admitted fun refused => ?_
    · rw [unblockedWrites_of_none_accepted holdsDelete sameDelete none]
      exact holds
    · rw [effect.cell_kept row column refused none, same]
  · refine merged Option.none ?_ ?_ fun refused => effect.cell_cleared row column refused some
    · rw [unblockedWrites_of_outdated holdsDelete sameDelete holds (outdated some)]
      exact Latest.holds_none
    · rw [admitted, newer_of_outdated holdsDelete sameDelete (outdated some)]

end Cell

/-- Without resurrection a call leaves the records all facts met so far call for. -/
theorem Converged.step_deleteWins (deleteWins : ctx.allowResurrection = false)
    (converged : Converged ctx seen before) (effect : ApplyEffect ctx before after changes) :
    Converged ctx (seen ++ changes) after := by
  refine ⟨converged.tombstones.step effect, fun row column => ?_⟩
  obtain ⟨storedDelete, holdsDelete, sameDelete⟩ := converged.tombstones row
  obtain ⟨stored, holds, same⟩ := converged.cells row column
  refine cell_step effect holdsDelete sameDelete holds same ?_
  rintro ⟨deletion, accepted⟩ old -
  refine ⟨deletion, accepted, fun ⟨allowed, _⟩ => ?_⟩
  rw [deleteWins] at allowed
  cases allowed

end Step

end Quereus.Sync
