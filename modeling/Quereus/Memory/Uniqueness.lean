import Quereus.Memory.Enforcement
import Quereus.Memory.IndexRuns
import Quereus.Memory.JsonType

/-! # UNIQUE constraints along a run

The rows of a table never agree on a constraint, provided the rows are in
declared form and the gate of an update in place is right to skip the checks. The
indexes may hold stale keys; what is needed of them is that they lead to every
row a constraint binds (`Covers`), which uniqueness itself protects: two rows
under one index key would already be in conflict.
-/

namespace Quereus.Memory

open List KeyTree MemoryIndex TableSchema Displacement

namespace TableManager

variable {manager : TableManager}

/-- The rows satisfy every constraint. -/
def UniqueHolds (manager : TableManager) (rows : List Row) : Prop :=
  ∀ uc ∈ manager.schema.uniqueConstraints, ∀ first ∈ rows, ∀ second ∈ rows,
    manager.conflictsUnder uc first second = true → first = second

/-- The index leads to every row the constraint binds. -/
def Covers (manager : TableManager) (uc : UniqueConstraint) (index : MemoryIndex)
    (rows : List Row) :
    Prop :=
  ∀ row ∈ rows, manager.conflictsUnder uc row row = true →
    ∃ code primaryKey, index.listed manager.schema (index.keyFromRow row) code = some primaryKey ∧
      manager.schema.comparePrimaryKeys (manager.schema.primaryKeyFromRow row) primaryKey = .eq

/-- What a run keeps true of a layer. -/
structure UniqueLayer (manager : TableManager) (layer : Layer) : Prop where
  ordered : RowsOrdered manager.schema layer.primary
  specs : layer.specs = manager.schema.indexes
  valid : ∀ row ∈ layer.primary, RowValid manager.schema row
  unique : manager.UniqueHolds layer.primary
  wellFormed : ∀ index ∈ layer.secondaryIndexes,
    PostingTree.WellFormed (index.compareKeys manager.schema) index.data
  covers : ∀ uc ∈ manager.schema.uniqueConstraints, ∀ index ∈ layer.secondaryIndexes,
    manager.Realized uc index.spec → manager.Covers uc index layer.primary

variable {layer : Layer}

section Layers

variable (aligned : Aligned manager.schema)

include aligned

/-- Two rows a constraint binds that have a place in common are in conflict. -/
theorem conflictsUnder_of_place {uc : UniqueConstraint} {index : MemoryIndex}
    (inSchema : index.spec ∈ manager.schema.indexes) (realized : manager.Realized uc index.spec)
    {first second : Row} (first_valid : RowValid manager.schema first)
    (second_valid : RowValid manager.schema second)
    (bound : manager.conflictsUnder uc first first = true)
    (place : index.Place manager.schema second (index.keyFromRow first)) :
    manager.conflictsUnder uc first second = true := by
  obtain ⟨nonnull, first_in, -, -⟩ := conflictsUnder_iff.mp bound
  exact conflictsUnder_iff.mpr ⟨nonnull, first_in, (realized.scope second).symm.trans place.1,
    (realized.compareKeys_eq_iff aligned inSchema first_valid second_valid).mp place.2⟩

variable (now : manager.UniqueLayer layer)

include now

/-- Deleting a row, under any spelling of its key, keeps the other rows covered. -/
theorem UniqueLayer.recordDelete {primaryKey : Key} {oldRow : Row} (member : oldRow ∈ layer.primary)
    (same : manager.schema.comparePrimaryKeys (manager.schema.primaryKeyFromRow oldRow) primaryKey =
      .eq) :
    manager.UniqueLayer (layer.recordDelete manager.schema primaryKey oldRow) where
  ordered := now.ordered.erase primaryKey
  specs := by rw [Layer.specs_recordDelete, now.specs]
  valid row left := now.valid row (mem_erase.mp left).1
  unique uc inSchema first first_left second second_left :=
    now.unique uc inSchema first (mem_erase.mp first_left).1 second
      (mem_erase.mp second_left).1
  wellFormed index inLayer := by
    obtain ⟨before, inBefore, rfl⟩ := mem_map.mp inLayer
    have kept := wellFormed_recordDelete (now.wellFormed before inBefore) primaryKey oldRow
    rwa [compareKeys, recordDelete_spec]
  covers uc inSchema index inLayer realized row left bound := by
    obtain ⟨before, inBefore, rfl⟩ := mem_map.mp inLayer
    rw [recordDelete_spec] at realized
    obtain ⟨inTable, different⟩ := mem_erase.mp left
    obtain ⟨code, found, listed, names⟩ := now.covers uc inSchema before inBefore realized row
      inTable bound
    refine ⟨code, found, ?_, names⟩
    have key_eq : (before.recordDelete manager.schema primaryKey oldRow).keyFromRow row =
        before.keyFromRow row := by
      simp [keyFromRow]
    rw [key_eq, listed_recordDelete (now.wellFormed before inBefore), if_neg, listed]
    rintro ⟨place, -⟩
    have conflict := conflictsUnder_of_place aligned (mem_specs now.specs inBefore) realized
      (now.valid row inTable) (now.valid oldRow member) bound place
    exact different (now.unique uc inSchema row inTable oldRow member conflict ▸ same)

theorem UniqueLayer.clearKey (primaryKey : Key) (existing : Option Row)
    (named : ∀ row, existing = some row → row ∈ layer.primary ∧
      manager.schema.comparePrimaryKeys (manager.schema.primaryKeyFromRow row) primaryKey = .eq) :
    manager.UniqueLayer (layer.clearKey manager.schema primaryKey existing) := by
  cases existing with
  | none => exact now
  | some row => exact now.recordDelete aligned (named row rfl).1 (named row rfl).2

/-- Storing a row that no other row conflicts with keeps the constraints. -/
theorem UniqueLayer.recordUpsert {primaryKey : Key} {newRow : Row} {oldRow : Option Row}
    (new_valid : RowValid manager.schema newRow)
    (names : manager.schema.comparePrimaryKeys (manager.schema.primaryKeyFromRow newRow)
      primaryKey = .eq)
    (old : ∀ row, oldRow = some row → row ∈ layer.primary ∧
      manager.schema.comparePrimaryKeys (manager.schema.primaryKeyFromRow row) primaryKey = .eq)
    (free : ∀ uc ∈ manager.schema.uniqueConstraints, ∀ row ∈ layer.primary,
      manager.schema.comparePrimaryKeys (manager.schema.primaryKeyFromRow row)
        (manager.schema.primaryKeyFromRow newRow) ≠ .eq →
      manager.conflictsUnder uc newRow row = false) :
    manager.UniqueLayer (layer.recordUpsert manager.schema primaryKey newRow oldRow) where
  ordered := now.ordered.upsert newRow
  specs := by rw [Layer.specs_recordUpsert, now.specs]
  valid row stored := by
    rcases now.ordered.mem_upsert.mp stored with rfl | ⟨member, -⟩
    · exact new_valid
    · exact now.valid row member
  unique uc inSchema first first_stored second second_stored conflict := by
    rcases now.ordered.mem_upsert.mp first_stored with rfl | ⟨first_mem, first_other⟩ <;>
      rcases now.ordered.mem_upsert.mp second_stored with rfl | ⟨second_mem, second_other⟩
    · rfl
    · rw [free uc inSchema second second_mem second_other] at conflict
      cases conflict
    · have reversed := conflictsUnder_symm conflict
      rw [free uc inSchema first first_mem first_other] at reversed
      cases reversed
    · exact now.unique uc inSchema first first_mem second second_mem conflict
  wellFormed index inLayer := by
    obtain ⟨before, inBefore, rfl⟩ := mem_map.mp inLayer
    have kept := wellFormed_recordUpsert (now.wellFormed before inBefore) primaryKey newRow oldRow
    rwa [compareKeys, recordUpsert_spec]
  covers uc inSchema index inLayer realized row stored bound := by
    obtain ⟨before, inBefore, rfl⟩ := mem_map.mp inLayer
    rw [recordUpsert_spec] at realized
    have inSpecs := mem_specs now.specs inBefore
    have key_eq : (before.recordUpsert manager.schema primaryKey newRow oldRow).keyFromRow row =
        before.keyFromRow row := by
      simp [keyFromRow]
    simp only [key_eq, listed_recordUpsert (now.wellFormed before inBefore)]
    rcases now.ordered.mem_upsert.mp stored with rfl | ⟨member, other⟩
    · have matched : before.rowMatchesPredicate row = true :=
        (realized.scope row).trans (conflictsUnder_iff.mp bound).2.1
      refine ⟨encodePrimaryKey primaryKey, primaryKey, ?_, names⟩
      rw [if_pos ⟨⟨matched, Std.ReflCmp.compare_self⟩, rfl⟩]
    · obtain ⟨code, found, listed, found_names⟩ :=
        now.covers uc inSchema before inBefore realized row member bound
      refine ⟨code, found, ?_, found_names⟩
      rw [if_neg, if_neg, listed]
      · rintro ⟨⟨replaced, isOld, place⟩, -⟩
        obtain ⟨old_mem, old_names⟩ := old replaced isOld
        have conflict := conflictsUnder_of_place aligned inSpecs realized (now.valid row member)
          (now.valid replaced old_mem) bound place
        have equal := now.unique uc inSchema row member replaced old_mem conflict
        exact other (Std.TransCmp.eq_trans (equal ▸ old_names) (Std.OrientedCmp.eq_symm names))
      · rintro ⟨place, -⟩
        have conflict := conflictsUnder_symm (conflictsUnder_of_place aligned inSpecs realized
          (now.valid row member) new_valid bound place)
        rw [free uc inSchema row member other] at conflict
        cases conflict

omit now

end Layers

variable {onConflict : Option ConflictResolution}

section Checks

variable {newRow : Row} {self : UniqueCheckSelf} {uc : UniqueConstraint}

variable (realizes : manager.Realizes) (aligned : Aligned manager.schema)
    (now : manager.UniqueLayer layer)
  (new_valid : RowValid manager.schema newRow) (member : uc ∈ manager.schema.uniqueConstraints)

include realizes now

include aligned new_valid member in
/-- An index that covers a constraint leads a check to every agreeing row. -/
theorem UniqueLayer.reaches {index : MemoryIndex}
    (found : manager.findIndexForConstraint layer uc = some (.memoryIndex index))
    (nonnull : uc.columns.any (fun column => (cellAt newRow column).isNull) = false)
    (new_matched : index.rowMatchesPredicate newRow = true) :
    manager.Reaches layer uc index newRow := by
  intro row inTable matched agree
  have realized := realizes.found now.specs member found
  have inLayer := mem_of_findIndexForConstraint found
  rw [realized.indexCollations_eq] at agree
  have same := (realized.compareKeys_eq_iff aligned (mem_specs now.specs inLayer) new_valid
    (now.valid row inTable)).mpr agree
  refine iff_of_true ?_ same
  have conflict : manager.conflictsUnder uc newRow row = true :=
    conflictsUnder_iff.mpr ⟨by simpa using nonnull, (realized.scope newRow).symm.trans new_matched,
      (realized.scope row).symm.trans matched, agree⟩
  have bound := conflictsUnder_trans (conflictsUnder_symm conflict) conflict
  obtain ⟨code, primaryKey, listed, names⟩ :=
    now.covers uc member index inLayer realized row inTable bound
  rw [← listed_congr index same] at listed
  exact ⟨primaryKey, (mem_getPrimaryKeys (now.wellFormed index inLayer)).mpr ⟨code, listed⟩, names⟩

include aligned new_valid in
theorem UniqueLayer.checkInvariant (self : UniqueCheckSelf)
    (onConflict : Option ConflictResolution) :
    CheckInvariant manager layer newRow self onConflict manager.schema.uniqueConstraints
      fun current =>
      manager.UniqueLayer current ∧ ∀ row ∈ current.primary, row ∈ layer.primary where
  ordered current := current.1.ordered
  held current := current.2
  specs current := current.1.specs.trans now.specs.symm
  reaches current _ member _ found nonnull matched :=
    current.1.reaches realizes aligned new_valid member found nonnull matched
  check {current} holds uc _ evicted := by
    refine checkSingleUniqueConstraint_induct
      (motive := fun later => manager.UniqueLayer later ∧ ∀ row ∈ later.primary,
        row ∈ layer.primary)
      holds.1.ordered holds.2 onConflict evicted ?_ holds
    intro later candidate row left _ _ found
    obtain ⟨member, same⟩ := mem_of_find found
    refine ⟨left.1.recordDelete aligned member same, fun other remains => ?_⟩
    exact left.2 other (mem_erase.mp remains).1

include member in
/-- A scan finds at most one row, since the rows it finds conflict with each other. -/
theorem UniqueLayer.takes_all :
    (manager.ruleOf layer newRow self onConflict uc).everyConflict = true ∨
      ∀ first ∈ (manager.ruleOf layer newRow self onConflict uc).conflicts,
        ∀ second ∈ (manager.ruleOf layer newRow self onConflict uc).conflicts, first = second := by
  unfold ruleOf
  cases found : manager.findIndexForConstraint layer uc with
  | some covering => exact .inl rfl
  | none =>
    refine .inr fun first first_found second second_found => ?_
    obtain ⟨first_mem, first_finds⟩ := mem_filter.mp first_found
    obtain ⟨second_mem, second_finds⟩ := mem_filter.mp second_found
    simp only [findsConflict, Bool.and_eq_true, Bool.not_eq_true', any_eq_false,
      ← uniqueEnforcementCollations_of_none (realizes.scanned now.specs member found)]
      at first_finds second_finds
    obtain ⟨⟨nonnull, -⟩, first_in, first_agrees⟩ := first_finds
    obtain ⟨-, second_in, second_agrees⟩ := second_finds
    refine now.unique uc member first first_mem second second_mem (conflictsUnder_iff.mpr
      ⟨fun column inColumns => ?_, first_in, second_in,
        agreeOn_trans (agreeOn_symm first_agrees) second_agrees⟩)
    rw [← isNull_eq_of_agreeOn first_agrees inColumns]
    simpa using nonnull column inColumns

include aligned new_valid in
/-- The checks keep the constraints and the rows at the written row's keys, and when
they pass no other row conflicts with the new one. -/
theorem UniqueLayer.checkUniqueConstraints (self : UniqueCheckSelf)
    (key_valid : KeyValid manager.schema self.key) (onConflict : Option ConflictResolution) :
    let checked := manager.checkUniqueConstraints layer.primary newRow self onConflict
      manager.schema.uniqueConstraints layer []
    manager.UniqueLayer checked.layer ∧
      (∀ row ∈ layer.primary, manager.isSelfKey self (manager.schema.primaryKeyFromRow row) = true →
        row ∈ checked.layer.primary) ∧
      (checked.result = none → ∀ uc ∈ manager.schema.uniqueConstraints,
        ∀ row ∈ checked.layer.primary,
          manager.isSelfKey self (manager.schema.primaryKeyFromRow row) = false →
            manager.conflictsUnder uc newRow row = false) := by
  have invariant := now.checkInvariant realizes aligned new_valid self onConflict
  have none_gone : layer.primary = layer.primary.filter (· ∉ ([] : List Row)) := by simp
  obtain ⟨⟨after, held⟩, rows, -, stopped, -⟩ := invariant.run now.ordered (fun _ member => member)
    ⟨now, fun _ member => member⟩ none_gone (Perm.refl [])
  refine ⟨after, fun row member own => ?_, fun passed uc member row left other => ?_⟩
  · rw [rows]
    refine mem_filter.mpr ⟨member, decide_eq_true fun gone => ?_⟩
    obtain ⟨rule, inRules, conflict⟩ := exists_of_mem_run gone
    rw [(mem_conflicts inRules conflict).2] at own
    cases own
  · rw [← Bool.not_eq_true]
    intro conflict
    have inTable := held row left
    have finds := findsConflict_of_conflictsUnder realizes aligned now.specs member new_valid
      (now.valid row inTable) key_valid other conflict
    have passes : Displacement.Passes (manager.rulesOf layer newRow self onConflict) := by
      by_contra stops
      have ended := (run_stops_clean stops).1
      rw [rulesOf, ← stopped, passed] at ended
      cases ended
    have gone := mem_displaced_of_passes passes (mem_map_of_mem member)
      (now.takes_all realizes member) (mem_filter.mpr ⟨inTable, finds⟩)
    rw [rows] at left
    have remains := (mem_filter.mp left).2
    rw [decide_eq_true_eq, ← rulesOf, run_of_passes passes] at remains
    exact remains gone

end Checks

/-- An update in place whose gate finds no change leaves the constrained columns of
types with an order of their own equal in that order. The gate compares storage
classes and texts, which need not tell all values of such a type apart. -/
def GateSound (manager : TableManager) (layer : Layer) (oldRow newRow : Row) : Prop :=
  uniqueColumnsChanged manager.schema.uniqueConstraints oldRow newRow
      (manager.predicateColumns layer) = false →
    ∀ uc ∈ manager.schema.uniqueConstraints,
      ∀ pair ∈ uc.columns.zip (manager.schema.uniqueEnforcementCollations uc),
        hasSemanticOrdering (manager.schema.typeAt pair.1) = true →
          manager.schema.enforcementComparator pair.1 pair.2 (cellAt oldRow pair.1)
            (cellAt newRow pair.1) = .eq

/-- A write in declared form that its gate judges rightly. -/
def SoundWrite (manager : TableManager) (layer : Layer) : Mutation → Prop
  | .insert newRow _ => RowValid manager.schema newRow
  | .update newRow oldKeyValues _ =>
    RowValid manager.schema newRow ∧
      ∀ target, manager.buildPrimaryKeyFromValues oldKeyValues = .ok target →
        KeyValid manager.schema target ∧
          ∀ oldRow, layer.lookupEffectiveRow manager.schema target = some oldRow →
            manager.schema.comparePrimaryKeys target (manager.schema.primaryKeyFromRow newRow) =
              .eq →
              manager.GateSound layer oldRow newRow
  | .delete _ => True

section Writes

variable {newRow oldRow : Row}

variable {uc : UniqueConstraint}

variable (realizes : manager.Realizes) (aligned : Aligned manager.schema)
  (now : manager.UniqueLayer layer) (member : uc ∈ manager.schema.uniqueConstraints)
  (gate : manager.GateSound layer oldRow newRow)
  (unchanged : uniqueColumnsChanged manager.schema.uniqueConstraints oldRow newRow
    (manager.predicateColumns layer) = false)

include member gate unchanged in
theorem agreeOn_of_unchanged :
    manager.schema.agreeOn uc.columns (manager.schema.uniqueEnforcementCollations uc)
      oldRow newRow =
      true := by
  refine agreeOn_iff.mpr fun pair inZip => ?_
  have semantic := gate unchanged uc member pair inZip
  by_cases ownOrder : hasSemanticOrdering (manager.schema.typeAt pair.1) = true
  · exact semantic ownOrder
  · rw [enforcementComparator, if_neg ownOrder]
    have none_changed := any_eq_false.mp unchanged uc member
    rw [Bool.not_eq_true, Bool.or_eq_false_iff] at none_changed
    have same := any_eq_false.mp none_changed.1 pair.1 (of_mem_zip inZip).1
    exact compareCells_eq_of_binary (by simpa using same) _

theorem evaluate_eq_of_unchanged (predicate : CompiledPredicate)
    (unchanged : anyColumnChanged predicate.referencedColumns oldRow newRow = false) :
    inScope (some predicate) oldRow = inScope (some predicate) newRow := by
  have same : predicate.evaluate oldRow = predicate.evaluate newRow :=
    predicate.stable oldRow newRow fun column referenced => by
      simpa using any_eq_false.mp unchanged column referenced
  simp only [inScope, same]

include realizes now

include member unchanged in
theorem inScope_of_unchanged : inScope uc.predicate oldRow = inScope uc.predicate newRow := by
  have none_changed := any_eq_false.mp unchanged uc member
  rw [Bool.not_eq_true, Bool.or_eq_false_iff] at none_changed
  cases partial' : uc.predicate with
  | none => rfl
  | some predicate =>
    have columns : ((manager.predicateColumns layer uc).map fun columns =>
        anyColumnChanged columns oldRow newRow).getD false = false := by
      simpa [partial'] using none_changed.2
    unfold predicateColumns at columns
    split at columns
    · next index found =>
      -- The gate reads the columns of the index's predicate, which has the same scope.
      have scope := (realizes.found now.specs member found).scope
      rw [← partial', ← scope, ← scope]
      cases indexed : index.spec.predicate with
      | none => rfl
      | some compiled => exact evaluate_eq_of_unchanged compiled (by simpa [indexed] using columns)
    · exact evaluate_eq_of_unchanged predicate (by simpa [partial'] using columns)

include member gate unchanged in
/-- A row that an update in place leaves equal in all constrained columns conflicts with
what the old row conflicted with. -/
theorem conflictsUnder_of_unchanged {row : Row}
    (conflict : manager.conflictsUnder uc newRow row = true) :
    manager.conflictsUnder uc oldRow row = true := by
  have agree := agreeOn_of_unchanged member gate unchanged
  obtain ⟨nonnull, new_in, -, -⟩ := conflictsUnder_iff.mp conflict
  have old_in := (inScope_of_unchanged realizes now member unchanged).trans new_in
  refine conflictsUnder_trans (conflictsUnder_symm (conflictsUnder_iff.mpr
    ⟨nonnull, new_in, old_in, agreeOn_symm agree⟩)) conflict

include aligned

variable (new_valid : RowValid manager.schema newRow)

include new_valid

theorem UniqueLayer.performInsert :
    manager.UniqueLayer (manager.performInsert layer newRow onConflict).1 := by
  unfold TableManager.performInsert
  simp only
  split
  · exact now
  · obtain ⟨after, kept, free⟩ := now.checkUniqueConstraints realizes aligned new_valid
      ⟨manager.schema.primaryKeyFromRow newRow, none⟩ new_valid.key onConflict
    split
    · exact after
    · next passed =>
      refine after.recordUpsert aligned new_valid Std.ReflCmp.compare_self (fun row existing => ?_)
        fun uc member row left other => ?_
      · obtain ⟨inTable, same⟩ := mem_of_find existing
        exact ⟨kept row inTable (isSelfKey_of_eq same), same⟩
      · exact free passed uc member row left (isSelfKey_eq_false.mpr ⟨other, by simp⟩)

theorem UniqueLayer.performUpdateInPlace {target : Key} (key_valid : KeyValid manager.schema target)
    (found : layer.lookupEffectiveRow manager.schema target = some oldRow)
    (stays : manager.schema.comparePrimaryKeys target (manager.schema.primaryKeyFromRow newRow) =
      .eq)
    (gate : manager.GateSound layer oldRow newRow) :
    manager.UniqueLayer (manager.performUpdateInPlace layer target oldRow newRow onConflict).1 := by
  obtain ⟨old_mem, old_same⟩ := mem_of_find found
  have names := (manager.schema.comparePrimaryKeys_comm _ _).mp stays
  have elsewhere : ∀ row, manager.schema.comparePrimaryKeys (manager.schema.primaryKeyFromRow row)
      (manager.schema.primaryKeyFromRow newRow) ≠ .eq →
        manager.schema.comparePrimaryKeys (manager.schema.primaryKeyFromRow row) target ≠ .eq :=
    fun row other same => other (Std.TransCmp.eq_trans same stays)
  unfold TableManager.performUpdateInPlace
  cases changed : uniqueColumnsChanged manager.schema.uniqueConstraints oldRow newRow
      (manager.predicateColumns layer) with
  | true =>
    obtain ⟨after, kept, free⟩ := now.checkUniqueConstraints realizes aligned new_valid
      ⟨target, none⟩
      key_valid onConflict
    simp only [if_true]
    split
    · exact after
    · next passed =>
      refine after.recordUpsert aligned new_valid names (fun row isOld => ?_)
        fun uc member row left other => ?_
      · cases isOld
        exact ⟨kept oldRow old_mem (isSelfKey_of_eq old_same), old_same⟩
      · exact free passed uc member row left (isSelfKey_eq_false.mpr ⟨elsewhere row other, by simp⟩)
  | false =>
    refine now.recordUpsert aligned new_valid names (fun row isOld => ?_)
      fun uc member row inTable other => ?_
    · cases isOld
      exact ⟨old_mem, old_same⟩
    · rw [← Bool.not_eq_true]
      intro conflict
      have before := conflictsUnder_of_unchanged realizes now member gate changed conflict
      exact elsewhere row other (now.unique uc member oldRow old_mem row inTable before ▸ old_same)

theorem UniqueLayer.performUpdateWithPrimaryKeyChange {target : Key}
    (found : layer.lookupEffectiveRow manager.schema target = some oldRow)
    (moves : manager.schema.comparePrimaryKeys target (manager.schema.primaryKeyFromRow newRow) ≠
      .eq) :
    manager.UniqueLayer (manager.performUpdateWithPrimaryKeyChange layer target
      (manager.schema.primaryKeyFromRow newRow) oldRow newRow onConflict).1 := by
  obtain ⟨old_mem, old_same⟩ := mem_of_find found
  unfold TableManager.performUpdateWithPrimaryKeyChange
  simp only
  split
  · exact now
  · obtain ⟨after, kept, free⟩ := now.checkUniqueConstraints realizes aligned new_valid
      ⟨manager.schema.primaryKeyFromRow newRow, some target⟩ new_valid.key onConflict
    split
    · exact after
    · next passed =>
      have cleared := after.clearKey aligned (manager.schema.primaryKeyFromRow newRow)
        (layer.lookupEffectiveRow manager.schema (manager.schema.primaryKeyFromRow newRow))
        fun row existing => by
          obtain ⟨inTable, same⟩ := mem_of_find existing
          exact ⟨kept row inTable (isSelfKey_of_eq same), same⟩
      have old_elsewhere : manager.schema.comparePrimaryKeys
        (manager.schema.primaryKeyFromRow oldRow)
          (manager.schema.primaryKeyFromRow newRow) ≠ .eq :=
        fun same => moves (Std.TransCmp.eq_trans (Std.OrientedCmp.eq_symm old_same) same)
      have old_kept := kept oldRow old_mem (isSelfKey_of_vacated rfl old_same)
      have deleted := cleared.recordDelete aligned
        ((mem_clearKey_of_ne _ _ old_elsewhere).mpr old_kept) old_same
      refine deleted.recordUpsert aligned new_valid Std.ReflCmp.compare_self (nofun)
        fun uc member row left other => ?_
      obtain ⟨inCleared, not_old⟩ := mem_erase.mp left
      refine free passed uc member row ((mem_clearKey_of_ne _ _ other).mp inCleared)
        (isSelfKey_eq_false.mpr ⟨other, fun vacated isOld => ?_⟩)
      cases isOld
      exact not_old

omit new_valid

theorem UniqueLayer.performUpdate {oldKeyValues : Row}
    (sound : manager.SoundWrite layer (.update newRow oldKeyValues onConflict)) :
    manager.UniqueLayer (manager.performUpdate layer newRow oldKeyValues onConflict).1 := by
  unfold TableManager.performUpdate
  split
  · exact now
  · next target built =>
    obtain ⟨key_valid, gate⟩ := sound.2 target built
    split
    · exact now
    · next oldRow found =>
      simp only
      split
      · next moves =>
          exact now.performUpdateWithPrimaryKeyChange realizes aligned sound.1 found moves
      · next stays =>
        have stays := Classical.not_not.mp stays
        exact now.performUpdateInPlace realizes aligned sound.1 key_valid found stays
          (gate oldRow found stays)

omit realizes

theorem UniqueLayer.performDelete (oldKeyValues : Row) :
    manager.UniqueLayer (manager.performDelete layer oldKeyValues).1 := by
  unfold TableManager.performDelete
  split
  · exact now
  · split
    · exact now
    · next found =>
      obtain ⟨member, same⟩ := mem_of_find found
      exact now.recordDelete aligned member same

include realizes in
theorem UniqueLayer.performMutation {mutation : Mutation}
    (sound : manager.SoundWrite layer mutation) :
    manager.UniqueLayer (manager.performMutation layer mutation).1 := by
  cases mutation with
  | insert newRow onConflict => exact now.performInsert realizes aligned sound
  | update newRow oldKeyValues onConflict => exact now.performUpdate realizes aligned sound
  | delete oldKeyValues => exact now.performDelete aligned oldKeyValues

end Writes

def SoundStep (manager : TableManager) : List Layer → ChainStep → Prop
  | layer :: _, .write mutation => manager.SoundWrite layer mutation
  | _, _ => True

/-- Every write of a run is sound where it is made. -/
def SoundRun (manager : TableManager) : List Layer → List ChainStep → Prop
  | _, [] => True
  | chain, step :: rest =>
    manager.SoundStep chain step ∧ manager.SoundRun (manager.stepChain chain step) rest

theorem runChain_uniqueLayer (realizes : manager.Realizes) (aligned : Aligned manager.schema)
    {chain : List Layer} {steps : List ChainStep}
    (start : ∀ layer ∈ chain, manager.UniqueLayer layer)
    (sound : manager.SoundRun chain steps) :
    ∀ layer ∈ manager.runChain chain steps, manager.UniqueLayer layer := by
  induction steps generalizing chain with
  | nil => exact start
  | cons step rest ih =>
    refine ih (stepChain_all start ?_) sound.2
    rintro newest parents mutation rfl rfl
    exact (start newest mem_cons_self).performMutation realizes aligned sound.1

/-- A table `t (k text primary key, j json unique)`. -/
def jsonSchema : TableSchema where
  name := "t"
  columns := [⟨"k", plainType, "BINARY", none⟩,
    ⟨"j", JSON_TYPE (compareByParts BINARY_COLLATION), "BINARY", none⟩]
  primaryKeyDefinition := [⟨0, false, some "BINARY"⟩]
  primaryKeyDefaultConflict := none
  uniqueConstraints := [⟨none, [1], none, none, none⟩]
  indexes := [⟨"_uc_j", [⟨1, false, some "BINARY"⟩], none⟩]
  collationResolver _ := BINARY_COLLATION

def jsonManager : TableManager :=
  .viewless jsonSchema fun name => if name = "_uc_j" then some "_uc_j" else none

def jsonRow (k : UInt16) (j : Cell) : Row :=
  [⟨.string [k], Eq.refl false⟩, j]

theorem jsonManager_realizes : jsonManager.Realizes where
  named := by decide
  collated := by decide
  derived uc member name derived := by
    cases mem_singleton.mp member
    cases derived
  implicit uc member name _ spec inSchema _ := by
    cases mem_singleton.mp member
    cases mem_singleton.mp inSchema
    exact ⟨rfl, fun _ => rfl⟩

theorem jsonSchema_aligned : Aligned jsonManager.schema where
  binary := rfl
  indexed spec inSchema column inIndex name collation a b _ _ := by
    cases mem_singleton.mp inSchema
    cases mem_singleton.mp inIndex
    exact Iff.rfl
  keyed column inKey a b _ _ same := by
    cases mem_singleton.mp inKey
    exact same
  finest column semantic collation a b same := by
    match column, semantic, same with
    | 0, semantic, _ => cases semantic
    | 1, _, same => exact JSON_TYPE_finest _ collation same
    | _ + 2, semantic, _ => cases semantic

theorem rowValid_jsonRow (k : UInt16) {j : Cell} (valid : jsonValidate j = true) :
    RowValid jsonManager.schema (jsonRow k j) := by
  intro column
  match column with
  | 0 => rfl
  | 1 => exact valid
  | _ + 2 => rfl

/-- The writes of the samples: two inserts, and an update of the second row in place. -/
def jsonSteps (first second updated : Cell) : List ChainStep :=
  [.write (.insert (jsonRow 97 first) none), .write (.insert (jsonRow 98 second) none),
    .write (.update (jsonRow 98 updated) [⟨.string [98], Eq.refl false⟩] none)]

end TableManager

end Quereus.Memory
