import Quereus.Sync.RowImages

/-! # Every delivery ends in the same state

Runs of `applyChanges` calls from a replica that has nothing of the table yet.
Without resurrection the records a run leaves depend only on the set of facts it
was given: not on how the facts were split into calls, nor on the order of the
calls or of the facts inside one, nor on repetitions.
-/

namespace Quereus.Sync

variable {ι : Type} [DecidableEq ι]

open Latest (IsLatest Holds)

/-- The replica has nothing of the table yet. Its clock may have any value. -/
structure Replica.Fresh (replica : Replica ι) : Prop where
  floor : replica.deltaFloor = none
  cells : replica.columnVersions = []
  tombstones : replica.tombstones = []
  rows : replica.rows = []

/-- The facts a sequence of calls brings. -/
def deliveries (calls : List Call) : List Change :=
  calls.flatMap Call.changes

/-- The records agree up to filing positions, filing times and before-images. -/
def SameRecords (first second : Replica ι) : Prop :=
  (∀ row, first.tombstoneFact row = second.tombstoneFact row) ∧
    ∀ row column, first.cellFact row column = second.cellFact row column

def SameRows (first second : Replica ι) : Prop :=
  ∀ row, first.rowImage row = second.rowImage row

/-- The rows agree, except that they may spell their keys differently. -/
def SameRowsRespelled (ctx : TableContext ι) (first second : Replica ι) : Prop :=
  ∀ row, Option.Rel (Respelled ctx row) (first.rowImage row) (second.rowImage row)

section Runs

variable {ctx : TableContext ι}

variable {start : Replica ι}

variable {calls : List Call}

/-- An invariant of the calls made so far holds at the end of a run, which succeeds. -/
theorem applyAll_invariant (noResolver : ctx.conflictResolver = none)
    (foreign : Foreign ctx (deliveries calls)) (admissible : ∀ call ∈ calls, call.Admissible)
    (motive : List Call → Replica ι → Prop)
    (step : ∀ made call rest before after, calls = made ++ call :: rest → motive made before →
      Unassisted ctx before → Foreign ctx call.changes →
        ApplyEffect ctx before after call.changes → motive (made ++ [call]) after)
    (floor : start.deltaFloor = none) (initial : motive [] start) :
    ∃ final, applyAll ctx start calls = .ok final ∧ motive calls final := by
  -- Induction on the calls still to be made, for every prefix already made.
  suffices remaining : ∀ rest made (replica : Replica ι), calls = made ++ rest →
      replica.deltaFloor = none → motive made replica →
        ∃ final, applyAll ctx replica rest = .ok final ∧ motive calls final from
    remaining calls [] start rfl floor initial
  intro rest
  induction rest with
  | nil =>
    rintro made replica rfl - holds
    exact ⟨replica, rfl, (List.append_nil made).symm ▸ holds⟩
  | cons call rest ih =>
    intro made replica split noFloor holds
    have member : call ∈ calls := split ▸ List.mem_append_right _ List.mem_cons_self
    have plain : Unassisted ctx replica := ⟨noResolver, noFloor⟩
    have own : Foreign ctx call.changes := fun change inside =>
      foreign change (List.mem_flatMap.mpr ⟨call, member, inside⟩)
    obtain ⟨result, after, applied, effect⟩ :=
      applyChanges_effect plain own (admissible call member)
    obtain ⟨final, finished, reached⟩ := ih (made ++ [call]) after
      (by rw [split, List.append_assoc, List.singleton_append])
      (effect.floor.trans noFloor) (step made call rest replica after split holds plain own effect)
    refine ⟨final, ?_, reached⟩
    simp only [applyAll, applied, bind, Except.bind, finished]

omit [DecidableEq ι] in
theorem deliveries_concat (made : List Call) (call : Call) :
    deliveries (made ++ [call]) = deliveries made ++ call.changes := by
  simp [deliveries]

variable (fresh : start.Fresh)

include fresh

theorem Replica.Fresh.cellFact (row : ι) (column : String) : start.cellFact row column = none := by
  simp [Replica.cellFact, Replica.cell, fresh.cells]

theorem Replica.Fresh.tombstoneFact (row : ι) : start.tombstoneFact row = none := by
  simp [Replica.tombstoneFact, Replica.tombstone, fresh.tombstones]

/-- A fresh replica has the records of no facts. -/
theorem Replica.Fresh.converged : Converged ctx [] start := by
  refine ⟨fun row => ⟨none, ?_, fresh.tombstoneFact row⟩,
    fun row column => ⟨none, ?_, fresh.cellFact row column⟩⟩
  · exact ⟨nofun, fun _ => by simp [deletionsOf]⟩
  · exact ⟨by simp, fun _ => by simp [unblockedWrites, writesOf]⟩

theorem Replica.Fresh.rowsMatch (facts : List Change) : RowsMatch ctx facts start := by
  have noRow (row : ι) : start.rowImage row = none := by
    simp [Replica.rowImage, fresh.rows]
  refine ⟨fun row column fact found => ?_, fun row => ?_, fun row image stored => ?_⟩
  · rw [fresh.cellFact] at found
    cases found
  · exact ⟨fun _ => fresh.cellFact row, fun _ => noRow row⟩
  · rw [noRow] at stored
    cases stored

omit fresh

/-- A run of admissible calls succeeds, and its rows are the images of its cells. -/
theorem applyAll_rowsMatch (noResolver : ctx.conflictResolver = none) {facts : List Change}
    (distinct : Distinct facts) (foreign : Foreign ctx facts) (fresh : start.Fresh)
    (delivered : ∀ change, change ∈ deliveries calls ↔ change ∈ facts)
    (admissible : ∀ call ∈ calls, call.Admissible) :
    ∃ final, applyAll ctx start calls = .ok final ∧
      (Uniform ctx facts → RowsMatch ctx facts final) := by
  refine applyAll_invariant noResolver
    (fun change member => foreign change ((delivered change).mp member)) admissible
    (fun _ replica => Uniform ctx facts → RowsMatch ctx facts replica)
    (fun made call rest before after split holds plain own effect uniform => ?_)
    fresh.floor fun _ => fresh.rowsMatch facts
  refine (holds uniform).step uniform distinct plain own (fun change inside => ?_) effect
  exact (delivered change).mp (List.mem_flatMap.mpr
    ⟨call, split ▸ List.mem_append_right _ List.mem_cons_self, inside⟩)

section Rows

variable {facts : List Change} {first second : Replica ι} (uniform : Uniform ctx facts)
  (firstMatch : RowsMatch ctx facts first) (secondMatch : RowsMatch ctx facts second)
  (same : SameRecords first second)

include uniform firstMatch secondMatch same

/-- Equal records mean equal rows up to the spelling of keys. -/
theorem RowsMatch.sameRowsRespelled : SameRowsRespelled ctx first second := by
  intro row
  obtain ⟨none, none'⟩ | ⟨image, other, stored, stored', respelled, -⟩ :=
    firstMatch.rowImage_cases uniform secondMatch same.2 row
  · rw [none, none']
    exact .none
  · rw [stored, stored']
    exact .some respelled

/-- With one spelling of each key, equal records mean equal rows. -/
theorem RowsMatch.sameRows (spelled : OneSpelling ctx facts) : SameRows first second := by
  intro row
  obtain ⟨none, none'⟩ | ⟨image, other, stored, stored', -, equal⟩ :=
    firstMatch.rowImage_cases uniform secondMatch same.2 row
  · rw [none, none']
  · rw [stored, stored', equal spelled]

end Rows

end Runs

section Unique

variable {ctx : TableContext ι} {facts : List Change}

variable {replica : Replica ι}

/-- Only which facts there are matters. -/
theorem Converged.congr {others : List Change} (same : ∀ change, change ∈ facts ↔ change ∈ others)
    (converged : Converged ctx facts replica) : Converged ctx others replica := by
  have deletions : deletionsOf ctx facts = deletionsOf ctx others := by
    unfold deletionsOf
    simp only [same]
  have live : liveWrites ctx facts = liveWrites ctx others := by
    unfold liveWrites unblockedWrites writesOf Unblocked
    simp only [same, deletions]
  exact ⟨fun row => deletions ▸ converged.tombstones row,
    fun row column => live ▸ converged.cells row column⟩

variable {first second : Replica ι} {column : String}

/-- A set of facts with distinct timestamps determines the records. -/
theorem Converged.sameRecords (distinct : Distinct facts)
    (firstConverged : Converged ctx facts first) (secondConverged : Converged ctx facts second) :
    SameRecords first second := by
  refine ⟨fun row => ?_, fun row column => ?_⟩
  · obtain ⟨stored, holds, same⟩ := firstConverged.tombstones row
    obtain ⟨other, otherHolds, otherSame⟩ := secondConverged.tombstones row
    rw [same, otherSame, holds.unique (fun deletion member deletion' member' equal =>
      ?_) otherHolds]
    exact Change.delete.inj (distinct _ member.1 _ member'.1 equal)
  · obtain ⟨stored, holds, same⟩ := firstConverged.cells row column
    obtain ⟨other, otherHolds, otherSame⟩ := secondConverged.cells row column
    rw [same, otherSame, holds.unique (fun write member write' member' equal => ?_) otherHolds]
    exact Change.column.inj (distinct _ member.1.1 _ member'.1.1 equal)

theorem Converged.of_sameRecords (same : SameRecords first second)
    (converged : Converged ctx facts first) : Converged ctx facts second := by
  refine ⟨fun row => ?_, fun row column => ?_⟩
  · rw [← same.1 row]
    exact converged.tombstones row
  · rw [← same.2 row column]
    exact converged.cells row column

variable {row : ι}

theorem Converged.cellFact_eq (distinct : Distinct facts) (converged : Converged ctx facts replica)
    {write : ColumnChange}
    (latest : IsLatest ColumnChange.hlc (liveWrites ctx facts row column) write) :
    replica.cellFact row column = some write.fact := by
  obtain ⟨stored, holds, same⟩ := converged.cells row column
  rw [same, holds.unique (fun first member second member' equal => ?_)
    (Latest.holds_some.mpr latest)]
  · rfl
  · exact Change.column.inj (distinct _ member.1.1 _ member'.1.1 equal)

theorem Converged.cellFact_eq_none (converged : Converged ctx facts replica)
    (none : liveWrites ctx facts row column = ∅) :
    replica.cellFact row column = Option.none := by
  obtain ⟨stored, holds, same⟩ := converged.cells row column
  rw [same, holds.eq_none_iff.mpr none]
  rfl

end Unique

section DeleteWins

variable {ctx : TableContext ι}

/-- The state a set of facts leads to when a delete beats every write of its row:
a row with a delete is left with the tombstone of the latest one and no cells, and
any other row has no tombstone and holds the latest write of each cell. -/
structure DeleteWinsState (ctx : TableContext ι) (facts : List Change) (replica : Replica ι) :
    Prop where
  deleted : ∀ row deletion, IsLatest RowDeletion.hlc (deletionsOf ctx facts row) deletion →
    replica.tombstoneFact row = some deletion.fact ∧
      ∀ column, replica.cellFact row column = none
  alive : ∀ row, deletionsOf ctx facts row = ∅ → replica.tombstoneFact row = none
  written : ∀ row column write, deletionsOf ctx facts row = ∅ →
    IsLatest ColumnChange.hlc (writesOf ctx facts row column) write →
      replica.cellFact row column = some write.fact
  unwritten : ∀ row column, writesOf ctx facts row column = ∅ →
    replica.cellFact row column = none
  rows : Uniform ctx facts → RowsMatch ctx facts replica

variable {facts : List Change}

variable {row : ι}

omit [DecidableEq ι] in
theorem liveWrites_of_alive (alive : deletionsOf ctx facts row = ∅) (column : String) :
    liveWrites ctx facts row column = writesOf ctx facts row column := by
  ext write
  exact ⟨fun live => live.1, fun member =>
    ⟨member, fun deletion deleted => absurd deleted (alive ▸ Set.notMem_empty _)⟩⟩

theorem deleteWinsState_of_converged (deleteWins : ctx.allowResurrection = false)
    (distinct : Distinct facts) {replica : Replica ι} (converged : Converged ctx facts replica)
    (rows : Uniform ctx facts → RowsMatch ctx facts replica) :
    DeleteWinsState ctx facts replica := by
  refine ⟨fun row deletion latest => ⟨?_, fun column => ?_⟩, fun row none => ?_,
    fun row column write alive latest => ?_, fun row column none => ?_, rows⟩
  · obtain ⟨stored, holds, same⟩ := converged.tombstones row
    rw [same, holds.unique (fun first member second member' equal => ?_)
      (Latest.holds_some.mpr latest)]
    · rfl
    · exact Change.delete.inj (distinct _ member.1 _ member'.1 equal)
  · refine converged.cellFact_eq_none (Set.eq_empty_iff_forall_notMem.mpr fun write live => ?_)
    have allowed := (live.2 deletion latest.1).1
    rw [deleteWins] at allowed
    cases allowed
  · obtain ⟨stored, holds, same⟩ := converged.tombstones row
    rw [same, holds.eq_none_iff.mpr none]
    rfl
  · rw [← liveWrites_of_alive alive] at latest
    exact converged.cellFact_eq distinct latest
  · refine converged.cellFact_eq_none (Set.eq_empty_iff_forall_notMem.mpr fun write live => ?_)
    exact Set.notMem_empty write (none ▸ live.1)

/-- A run without resurrection leaves the records of the facts it was given. -/
theorem applyAll_converged (deleteWins : ctx.allowResurrection = false)
    (noResolver : ctx.conflictResolver = none) (foreign : Foreign ctx facts) {start : Replica ι}
    (fresh : start.Fresh) {calls : List Call}
    (delivered : ∀ change, change ∈ deliveries calls ↔ change ∈ facts)
    (admissible : ∀ call ∈ calls, call.Admissible) {final : Replica ι}
    (finished : applyAll ctx start calls = .ok final) : Converged ctx facts final := by
  obtain ⟨reached, finished', converged⟩ := applyAll_invariant noResolver
    (fun change member => foreign change ((delivered change).mp member)) admissible
    (fun made replica => Converged ctx (deliveries made) replica)
    (fun made call rest before after split holds plain own effect => by
      rw [deliveries_concat]
      exact holds.step_deleteWins deleteWins effect)
    fresh.floor fresh.converged
  cases finished.symm.trans finished'
  exact converged.congr delivered

/-- A table `t(k, v)` keyed by `k`, on a replica that never resurrects rows. -/
def sampleTable : TableContext (List SqlValue) where
  siteId := [0]
  allowResurrection := false
  conflictResolver := none
  pkIdentity := id
  columnCount := 2
  primaryKeyDefinition := [0]
  columnIndexMap name := if name = "k" then some 0 else if name = "v" then some 1 else none

def sampleStamp (wallTime : Nat) : HLC :=
  ⟨wallTime, 0, [1], 0⟩

def sampleWrite (wallTime key value : Nat) : Change :=
  .column ⟨sampleStamp wallTime, [.bigint key], "v", .bigint value, none, none⟩

def sampleDelete (wallTime key : Nat) : Change :=
  .delete ⟨sampleStamp wallTime, [.bigint key], none⟩

/-- A call with one change set. -/
def sampleCall (wallTime : Nat) (changes : List Change) : Call :=
  ⟨wallTime, [⟨[1], sampleStamp wallTime, changes⟩]⟩

def sampleReplica : Replica (List SqlValue) :=
  ⟨⟨0, 0⟩, none, [], [], [], []⟩

theorem sampleReplica_fresh : sampleReplica.Fresh :=
  ⟨rfl, rfl, rfl, rfl⟩

def lowerA : SqlValue :=
  .string [0x61]

def upperA : SqlValue :=
  .string [0x41]

/-- The identity of a key under a collation that takes `A` for `a`. -/
def foldedKey (pk : List SqlValue) : List SqlValue :=
  pk.map fun value => if value = upperA then lowerA else value

/-- A table `t(k, v, w)` keyed by `k`, whose keys `a` and `A` are one key. -/
def foldedTable : TableContext (List SqlValue) where
  siteId := [0]
  allowResurrection := false
  conflictResolver := none
  pkIdentity := foldedKey
  columnCount := 3
  primaryKeyDefinition := [0]
  columnIndexMap name := if name = "v" then some 1 else if name = "w" then some 2 else none

/-- A row is written under two spellings of its key, and another one is deleted. -/
def foldedFacts : List Change :=
  [.column ⟨sampleStamp 10, [lowerA], "v", .bigint 7, none, none⟩,
    .column ⟨sampleStamp 20, [upperA], "w", .bigint 8, none, none⟩, sampleDelete 5 2]

/-- The facts in one call each, the later write first and delivered again. -/
def foldedCalls : List Call :=
  (foldedFacts.reverse ++ foldedFacts).map fun change => sampleCall 20 [change]

/-- The image a run leaves of the row `a`. -/
def foldedImage (calls : List Call) : Option Row :=
  (applyAll foldedTable sampleReplica calls).toOption.bind fun replica =>
    replica.rowImage [lowerA]

end DeleteWins

end Quereus.Sync
