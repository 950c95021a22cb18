import Quereus.Sync.DeleteWins

/-! # One call or several

With resurrection a write newer than the deletes of its row should survive them.
It does when it meets them in one call, or meets them as a tombstone. But a delete
is never compared with the cells that are already stored, so a delete that arrives
in a later call erases them all, also those newer than itself. One call and a
split into several therefore agree exactly when no cell's final write arrives in
an earlier call than the latest delete of its row.
-/

namespace Quereus.Sync

open List

variable {ι : Type} [DecidableEq ι]

open Latest (IsLatest Holds newer)

/-- The call that brings the latest delete of a row comes after no call that
brings the final write of one of its cells. -/
def DeletesArriveFirst (ctx : TableContext ι) (calls : List Call) : Prop :=
  ∀ made call rest, calls = made ++ call :: rest → ∀ row column deletion write,
    .delete deletion ∈ call.changes →
      IsLatest RowDeletion.hlc (deletionsOf ctx (deliveries calls) row) deletion →
        IsLatest ColumnChange.hlc (liveWrites ctx (deliveries calls) row column) write →
          .column write ∉ deliveries made

section Step

variable {ctx : TableContext ι} {before after : Replica ι} {seen changes all : List Change}
  {row : ι} {column : String} (facts : List Change)

omit [DecidableEq ι] in
theorem finite_deletionsOf (row : ι) : (deletionsOf ctx facts row).Finite := by
  refine ((finite_toSet facts).preimage fun _ _ _ _ => Change.delete.inj).subset ?_
  exact fun deletion member => member.1

omit [DecidableEq ι] in
theorem finite_liveWrites (row : ι) (column : String) :
    (liveWrites ctx facts row column).Finite := by
  refine (finite_toSet (facts.filterMap Change.asColumn)).subset fun write member => ?_
  exact mem_filterMap.mpr ⟨_, member.1.1, rfl⟩

variable {write final : ColumnChange}

omit [DecidableEq ι] in
theorem Unblocked.mono (subset : ∀ change ∈ changes, change ∈ all)
    (unblocked : Unblocked ctx all row write) : Unblocked ctx changes row write :=
  fun deletion member => unblocked deletion ⟨subset _ member.1, member.2⟩

omit [DecidableEq ι] in
/-- No write of the cell is newer than the final one. -/
theorem le_final (isFinal : IsLatest ColumnChange.hlc (liveWrites ctx all row column) final)
    (written : write ∈ writesOf ctx all row column) : write.hlc ≤ final.hlc := by
  by_contra later
  refine later (isFinal.2 write ⟨written, fun deletion member => ?_⟩)
  exact (isFinal.1.2 deletion member).imp_right fun below => below.trans (not_le.mp later)

/-- What a run knows of a cell before the facts are all delivered: it holds a live
write of the facts so far, and the final write once this has been delivered. -/
def KeepsFinal (ctx : TableContext ι) (all seen : List Change) (replica : Replica ι) (row : ι)
    (column : String) : Prop :=
  ∃ stored, replica.cellFact row column = stored.map ColumnChange.fact ∧
    (∀ write, stored = some write → write ∈ liveWrites ctx seen row column) ∧
    ∀ final, IsLatest ColumnChange.hlc (liveWrites ctx all row column) final →
      .column final ∈ seen → stored = some final

/-- One call keeps what a run knows of a cell, if it deletes no row whose final
write it has met. -/
theorem KeepsFinal.step (distinct : Distinct all)
    (subset : ∀ change ∈ seen ++ changes, change ∈ all)
    (tombstones : TombstonesConverged ctx seen before)
    (keeps : KeepsFinal ctx all seen before row column)
    (effect : ApplyEffect ctx before after changes)
    (undeleted : ∀ final, IsLatest ColumnChange.hlc (liveWrites ctx all row column) final →
      .column final ∈ seen → acceptedDeletions ctx before changes row = ∅) :
    KeepsFinal ctx all (seen ++ changes) after row column := by
  obtain ⟨storedDelete, holdsDelete, sameDelete⟩ := tombstones row
  obtain ⟨stored, same, live, kept⟩ := keeps
  -- The final write is admitted by the call that first brings it.
  have admits (final : ColumnChange)
      (isFinal : IsLatest ColumnChange.hlc (liveWrites ctx all row column) final)
      (brought : .column final ∈ seen ++ changes) (first : .column final ∉ seen) :
      final ∈ admittedWrites ctx before changes row column := by
    rw [admittedWrites_eq_newer holdsDelete sameDelete same]
    refine ⟨⟨⟨(mem_append.mp brought).resolve_left first, isFinal.1.1.2⟩, isFinal.1.2.mono subset⟩,
      fun old found => ?_⟩
    have written := (live old found).1
    have inAll := subset _ (mem_append_left _ written.1)
    refine lt_of_le_of_ne (le_final isFinal ⟨inAll, written.2⟩) fun equal => first ?_
    have isOld : Change.column old = .column final := distinct _ inAll _ isFinal.1.1.1 equal
    exact isOld ▸ written.1
  rcases Set.eq_empty_or_nonempty (admittedWrites ctx before changes row column) with none | some
  · rcases Set.eq_empty_or_nonempty (acceptedDeletions ctx before changes row) with spared | deleted
    · refine ⟨stored, (effect.cell_kept row column none spared).trans same, fun write found => ?_,
        fun final isFinal brought => ?_⟩
      · rw [liveWrites_append, unblockedWrites_of_none_accepted holdsDelete sameDelete spared]
        exact Or.inl (live write found)
      · by_cases met : .column final ∈ seen
        · exact kept final isFinal met
        · exact absurd (admits final isFinal brought met) (none ▸ Set.notMem_empty _)
    · refine ⟨Option.none, effect.cell_cleared row column none deleted, nofun,
        fun final isFinal brought => ?_⟩
      by_cases met : .column final ∈ seen
      · exact absurd deleted (undeleted final isFinal met ▸ Set.not_nonempty_empty)
      · exact absurd (admits final isFinal brought met) (none ▸ Set.notMem_empty _)
  · obtain ⟨write, latest, stores⟩ := effect.cell_set row column some
    have admitted := latest.1
    rw [admittedWrites_eq_newer holdsDelete sameDelete same] at admitted
    have written : write ∈ writesOf ctx all row column :=
      ⟨subset _ (mem_append_right _ admitted.1.1.1), admitted.1.1.2⟩
    refine ⟨write, stores, fun other found => ?_, fun final isFinal brought => ?_⟩
    · cases found
      rw [liveWrites_append]
      exact Or.inr admitted.1
    · have above : final.hlc ≤ write.hlc := by
        by_cases met : .column final ∈ seen
        · exact le_of_lt (admitted.2 final (kept final isFinal met))
        · exact latest.2 final (admits final isFinal brought met)
      have isFinalWrite : Change.column write = .column final :=
        distinct _ written.1 _ isFinal.1.1.1 (le_antisymm (le_final isFinal written) above)
      rw [Change.column.inj isFinalWrite]

end Step

section Runs

variable {ctx : TableContext ι} {calls : List Call}

omit [DecidableEq ι] in
theorem deliveries_append (made rest : List Call) :
    deliveries (made ++ rest) = deliveries made ++ deliveries rest :=
  flatMap_append

variable {made rest : List Call} {call : Call}

omit [DecidableEq ι] in
theorem deliveries_split (split : calls = made ++ call :: rest) :
    deliveries calls = deliveries made ++ (call.changes ++ deliveries rest) := by
  rw [split, deliveries_append]
  rfl

omit [DecidableEq ι] in
theorem delivered_so_far (split : calls = made ++ call :: rest) :
    ∀ change ∈ deliveries made ++ call.changes, change ∈ deliveries calls := by
  intro change member
  rw [deliveries_split split, ← append_assoc]
  exact mem_append_left _ member

variable {before start final : Replica ι} {row : ι}

/-- Deletes that arrive first find no cell whose final write has been met. -/
theorem DeletesArriveFirst.undeleted (arriveFirst : DeletesArriveFirst ctx calls)
    (split : calls = made ++ call :: rest)
    (tombstones : TombstonesConverged ctx (deliveries made) before) {column : String}
    {final : ColumnChange}
    (isFinal : IsLatest ColumnChange.hlc (liveWrites ctx (deliveries calls) row column) final)
    (met : .column final ∈ deliveries made) :
    acceptedDeletions ctx before call.changes row = ∅ := by
  refine Set.eq_empty_iff_forall_notMem.mpr fun deletion accepted => ?_
  obtain ⟨stored, holds, same⟩ := tombstones row
  have inAll : deletion ∈ deletionsOf ctx (deliveries calls) row :=
    ⟨delivered_so_far split _ (mem_append_right _ accepted.1), accepted.2.1⟩
  obtain ⟨last, isLast⟩ := Latest.exists_isLatest RowDeletion.hlc
    (finite_deletionsOf _ _) ⟨deletion, inAll⟩
  rw [acceptedDeletions_eq_newer same] at accepted
  have brought := isLast.1.1
  rw [deliveries_split split, mem_append, mem_append] at brought
  rcases brought with early | now | late
  · -- The latest delete has been met, so nothing newer than the tombstone is left.
    cases stored with
    | none => exact absurd ⟨early, isLast.1.2⟩ (holds.2 rfl ▸ Set.notMem_empty last)
    | some old =>
      have reached := (holds.1 old rfl).2 last ⟨early, isLast.1.2⟩
      exact absurd (accepted.2 old rfl) (not_lt.mpr ((isLast.2 deletion inAll).trans reached))
  · exact arriveFirst made call rest split row column last final now isLast isFinal met
  · obtain ⟨later, inRest, inside⟩ := mem_flatMap.mp late
    obtain ⟨between, after, rfl⟩ := append_of_mem inRest
    refine arriveFirst (made ++ call :: between) later after ?_ row column last final inside isLast
      isFinal ?_
    · rw [split, append_assoc, cons_append]
    · rw [deliveries_append]
      exact mem_append_left _ met

/-- When the deletes arrive first, the run ends in the records of its facts. -/
theorem applyAll_converged_of_arriveFirst (noResolver : ctx.conflictResolver = none)
    (distinct : Distinct (deliveries calls)) (foreign : Foreign ctx (deliveries calls))
    (fresh : start.Fresh) (admissible : ∀ call ∈ calls, call.Admissible)
    (arriveFirst : DeletesArriveFirst ctx calls) (finished : applyAll ctx start calls = .ok final) :
    Converged ctx (deliveries calls) final := by
  obtain ⟨reached, finished', tombstones, keeps⟩ := applyAll_invariant noResolver foreign admissible
    (fun made replica => TombstonesConverged ctx (deliveries made) replica ∧
      ∀ row column, KeepsFinal ctx (deliveries calls) (deliveries made) replica row column)
    (fun made call rest before after split holds plain own effect => by
      rw [deliveries_concat]
      exact ⟨holds.1.step effect, fun row column =>
        (holds.2 row column).step distinct (delivered_so_far split) holds.1 effect
          fun final isFinal met => arriveFirst.undeleted split holds.1 isFinal met⟩)
    fresh.floor ⟨fresh.converged.tombstones, fun row column =>
      ⟨none, fresh.cellFact row column, nofun, nofun⟩⟩
  cases finished.symm.trans finished'
  refine ⟨tombstones, fun row column => ?_⟩
  obtain ⟨stored, same, live, kept⟩ := keeps row column
  refine ⟨stored, ⟨fun write found => ?_, fun missing => ?_⟩, same⟩
  · obtain ⟨last, isLast⟩ := Latest.exists_isLatest ColumnChange.hlc
      (finite_liveWrites _ _ _) ⟨write, live write found⟩
    rw [Option.some.inj (found.symm.trans (kept last isLast isLast.1.1.1))]
    exact isLast
  · by_contra some
    obtain ⟨last, isLast⟩ := Latest.exists_isLatest ColumnChange.hlc
      (finite_liveWrites _ _ _) (Set.nonempty_iff_ne_empty.mpr some)
    cases missing.symm.trans (kept last isLast isLast.1.1.1)

/-- A delete that comes in a later call than the final write erases it for good. -/
theorem DeletesArriveFirst.of_converged (noResolver : ctx.conflictResolver = none)
    (distinct : Distinct (deliveries calls)) (nodup : (deliveries calls).Nodup)
    (foreign : Foreign ctx (deliveries calls)) (fresh : start.Fresh)
    (admissible : ∀ call ∈ calls, call.Admissible) (finished : applyAll ctx start calls = .ok final)
    (converged : Converged ctx (deliveries calls) final) : DeletesArriveFirst ctx calls := by
  intro early late rest cut row column deletion write brought isLast isFinal met
  have once {made remaining : List Call} {call : Call} (split : calls = made ++ call :: remaining)
      {change : Change} (delivered : change ∈ deliveries made) : change ∉ call.changes := by
    rw [deliveries_split split, nodup_append] at nodup
    exact fun again => nodup.2.2 change delivered change (mem_append_left _ again) rfl
  have other_write {made remaining : List Call} {call : Call}
      (split : calls = made ++ call :: remaining) (delivered : .column write ∈ deliveries made)
      {written : ColumnChange} (inCall : .column written ∈ call.changes) :
      written.fact ≠ write.fact := by
    intro same
    have isWrite : Change.column written = .column write :=
      distinct _ (delivered_so_far split _ (mem_append_right _ inCall)) _ isFinal.1.1.1
        (congrArg Prod.fst same)
    exact once split delivered (isWrite ▸ inCall)
  obtain ⟨reached, finished', -, lost⟩ := applyAll_invariant noResolver foreign admissible
    (fun made replica => TombstonesConverged ctx (deliveries made) replica ∧
      (early ++ [late] <+: made → replica.cellFact row column ≠ some write.fact))
    (fun made call remaining before after split holds plain own effect => by
      rw [deliveries_concat]
      refine ⟨holds.1.step effect, fun erased => ?_⟩
      obtain ⟨delivered, unspared⟩ : .column write ∈ deliveries made ∧
          (acceptedDeletions ctx before call.changes row = ∅ →
            before.cellFact row column ≠ some write.fact) := by
        rcases prefix_concat_iff.mp erased with same | ⟨between, rfl⟩
        · obtain ⟨rfl, isLate⟩ := append_inj' same rfl
          cases isLate
          refine ⟨met, fun none => absurd ?_ (none ▸ Set.notMem_empty deletion)⟩
          -- The latest delete of all is accepted by the call that first brings it.
          obtain ⟨stored, held, same⟩ := holds.1 row
          rw [acceptedDeletions_eq_newer same]
          refine ⟨⟨brought, isLast.1.2⟩, fun old found => ?_⟩
          have older := (held.1 old found).1
          have inAll := delivered_so_far split _ (mem_append_left _ older.1)
          refine lt_of_le_of_ne (isLast.2 old ⟨inAll, older.2⟩) fun equal => once split ?_ brought
          have isOld : Change.delete old = .delete deletion := distinct _ inAll _ isLast.1.1 equal
          exact isOld ▸ older.1
        · refine ⟨?_, fun _ => holds.2 ⟨between, rfl⟩⟩
          rw [deliveries_append, deliveries_append]
          exact mem_append_left _ (mem_append_left _ met)
      rcases Set.eq_empty_or_nonempty (admittedWrites ctx before call.changes row column) with
        none | some
      · rcases Set.eq_empty_or_nonempty (acceptedDeletions ctx before call.changes row) with
          spared | deleted
        · rw [effect.cell_kept row column none spared]
          exact unspared spared
        · rw [effect.cell_cleared row column none deleted]
          exact nofun
      · obtain ⟨written, latest, stored⟩ := effect.cell_set row column some
        rw [stored]
        exact fun same => other_write split delivered latest.1.1 (Option.some.inj same))
    fresh.floor ⟨fresh.converged.tombstones, fun impossible => by simp at impossible⟩
  cases finished.symm.trans finished'
  refine lost ?_ (converged.cellFact_eq distinct isFinal)
  rw [cut]
  exact ⟨rest, by rw [append_assoc, singleton_append]⟩

omit [DecidableEq ι] in
/-- In a single call no write comes before a delete. -/
theorem deletesArriveFirst_singleton (call : Call) : DeletesArriveFirst ctx [call] := by
  intro made late rest split row column deletion write _ _ _ met
  cases made with
  | nil => exact not_mem_nil met
  | cons first tail =>
    exact absurd (cons.inj split).2.symm (append_ne_nil_of_right_ne_nil _ nofun)

/-- The sample table on a replica that lets newer writes bring a row back. -/
def resurrectingTable : TableContext (List SqlValue) :=
  { sampleTable with allowResurrection := true }

/-- What a run leaves of row `1`: its tombstone, its cell `v` and its stored image. -/
def sampleOutcome (calls : List Call) :
    Option (Option (HLC × List SqlValue) × Option (HLC × SqlValue × List SqlValue) × Option Row) :=
  (applyAll resurrectingTable sampleReplica calls).toOption.map fun replica =>
    (replica.tombstoneFact [.bigint 1], replica.cellFact [.bigint 1] "v",
      replica.rowImage [.bigint 1])

end Runs

end Quereus.Sync
