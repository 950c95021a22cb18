import Quereus.Lib.Displacement
import Quereus.Memory.IndexConsistency

/-! # A write's checks as rules over the rows

The constraints of a write are rules that are resolved in order over the rows the
table held before it. Each rule conflicts with the rows its check finds, and the
checks do to the layer what the rules do to the rows. That needs indexes that
lead to the conflicting rows, which an invariant of the checks provides.
-/

namespace Quereus.Memory

open List MemoryIndex Layer

/-- The schema of the index, if the structure is one. -/
def CoveringStructure.spec : CoveringStructure → Option IndexSchema
  | .memoryIndex index => some index.spec
  | .materializedView => none

/-- The schemas of a layer's indexes, which no write changes. -/
def Layer.specs (layer : Layer) : List IndexSchema :=
  layer.secondaryIndexes.map MemoryIndex.spec

@[simp] theorem Layer.specs_recordDelete (schema : TableSchema) (layer : Layer) (primaryKey : Key)
    (oldRow : Row) : (layer.recordDelete schema primaryKey oldRow).specs = layer.specs := by
  simp [specs, recordDelete]

@[simp] theorem Layer.specs_recordUpsert (schema : TableSchema) (layer : Layer) (primaryKey : Key)
    (newRow : Row) (oldRow : Option Row) :
    (layer.recordUpsert schema primaryKey newRow oldRow).specs = layer.specs := by
  simp [specs, recordUpsert]

theorem Layer.spec_getSecondaryIndex (layer : Layer) (name : String) :
    (layer.getSecondaryIndex name).map MemoryIndex.spec = layer.specs.find? (·.name = name) := by
  unfold getSecondaryIndex specs
  rw [find?_map]
  rfl

namespace TableManager

/-- Two rows that may not both stand under a constraint. -/
def conflictsUnder (manager : TableManager) (uc : UniqueConstraint) (newRow row : Row) : Bool :=
  !(uc.columns.any fun column => (cellAt newRow column).isNull) &&
    inScope uc.predicate newRow && inScope uc.predicate row &&
    manager.schema.agreeOn uc.columns (manager.schema.uniqueEnforcementCollations uc) newRow row

variable {manager : TableManager}

variable {first second : Layer}

theorem spec_findSome (same : first.specs = second.specs) (usable : List IndexSchema) :
    (usable.findSome? fun spec => first.getSecondaryIndex spec.name).map MemoryIndex.spec =
      (usable.findSome? fun spec => second.getSecondaryIndex spec.name).map MemoryIndex.spec := by
  induction usable with
  | nil => rfl
  | cons spec rest ih =>
    have here : (first.getSecondaryIndex spec.name).map MemoryIndex.spec =
        (second.getSecondaryIndex spec.name).map MemoryIndex.spec := by
      rw [spec_getSecondaryIndex, spec_getSecondaryIndex, same]
    cases inFirst : first.getSecondaryIndex spec.name <;>
      cases inSecond : second.getSecondaryIndex spec.name <;>
      simp_all

/-- The structure found for a constraint depends on the schemas alone. -/
theorem spec_findIndexForConstraint (manager : TableManager) (same : first.specs = second.specs)
    (uc : UniqueConstraint) :
    (manager.findIndexForConstraint first uc).map CoveringStructure.spec =
      (manager.findIndexForConstraint second uc).map CoveringStructure.spec := by
  have named : ∀ name, (first.getSecondaryIndex name).map spec =
      (second.getSecondaryIndex name).map spec := by
    intro name
    rw [spec_getSecondaryIndex, spec_getSecondaryIndex, same]
  have own : (manager.ownIndex first uc).map spec =
      (manager.ownIndex second uc).map spec := by
    unfold ownIndex
    cases uc.derivedFromIndex with
    | some name => exact named name
    | none =>
      cases manager.getImplicitCoveringStructure uc with
      | some name => exact named name
      | none => rfl
  have reused : (manager.reusableIndex first uc).map spec =
      (manager.reusableIndex second uc).map spec := by
    unfold reusableIndex
    split
    · rfl
    · exact spec_findSome same _
  have through : ∀ found : Option MemoryIndex, (found.map CoveringStructure.memoryIndex).map
      CoveringStructure.spec = (found.map spec).map some := by
    intro found
    cases found <;> rfl
  unfold findIndexForConstraint
  split
  · rfl
  · simp only [through, Option.map_or, own, reused]

/-- So do the conflicts that are found through it. -/
theorem findsConflict_congr {first second : Option CoveringStructure}
    (same : first.map CoveringStructure.spec = second.map CoveringStructure.spec)
    (uc : UniqueConstraint) (newRow : Row) (self : UniqueCheckSelf) :
    manager.findsConflict first uc newRow self = manager.findsConflict second uc newRow self := by
  funext row
  match first, second with
  | none, none => rfl
  | some .materializedView, some .materializedView => rfl
  | some (.memoryIndex index), some (.memoryIndex other) =>
    have specs : index.spec = other.spec := by simpa [CoveringStructure.spec] using same
    simp only [findsConflict, rowMatchesPredicate, compareKeys, keyFromRow, specs]
  | some (.memoryIndex _), some .materializedView | some .materializedView, some (.memoryIndex _) =>
    simp [CoveringStructure.spec] at same
  | some _, none | none, some _ => simp at same

/-- The rule of a constraint over the rows of a layer. -/
def ruleOf (manager : TableManager) (layer : Layer) (newRow : Row) (self : UniqueCheckSelf)
    (onConflict : Option ConflictResolution) (uc : UniqueConstraint) : Displacement.Rule Row where
  conflicts := layer.primary.filter
    (manager.findsConflict (manager.findIndexForConstraint layer uc) uc newRow self)
  replaces := effectiveAction onConflict uc = .replace
  everyConflict := (manager.findIndexForConstraint layer uc).isSome

/-- The rules of all constraints, in the order they are checked. -/
def rulesOf (manager : TableManager) (layer : Layer) (newRow : Row) (self : UniqueCheckSelf)
    (onConflict : Option ConflictResolution) : List (Displacement.Rule Row) :=
  manager.schema.uniqueConstraints.map (manager.ruleOf layer newRow self onConflict)

/-- What the checks of a write keep true of the layer, so that each of them finds its
conflicts. -/
structure CheckInvariant (manager : TableManager) (base : Layer) (newRow : Row)
    (own : UniqueCheckSelf) (onConflict : Option ConflictResolution)
    (uniqueConstraints : List UniqueConstraint) (holds : Layer → Prop) : Prop where
  ordered : ∀ {current}, holds current → RowsOrdered manager.schema current.primary
  held : ∀ {current}, holds current → ∀ row ∈ current.primary, row ∈ base.primary
  specs : ∀ {current}, holds current → current.specs = base.specs
  reaches : ∀ {current}, holds current → ∀ uc ∈ uniqueConstraints, ∀ index,
    manager.findIndexForConstraint current uc = some (.memoryIndex index) →
    uc.columns.any (fun column => (cellAt newRow column).isNull) = false →
    index.rowMatchesPredicate newRow = true → manager.Reaches current uc index newRow
  check : ∀ {current}, holds current → ∀ uc ∈ uniqueConstraints, ∀ evicted,
    holds (manager.checkSingleUniqueConstraint base.primary current uc newRow own onConflict
      evicted).layer

section Checks

variable {base : Layer} {newRow : Row} {self : UniqueCheckSelf}
  {onConflict : Option ConflictResolution} {uniqueConstraints : List UniqueConstraint}
  {holds : Layer → Prop}

variable {layer current : Layer} {gone : List Row}

/-- A rule conflicts with rows of the table other than the written one. -/
theorem mem_conflicts {rule : Displacement.Rule Row}
    (member : rule ∈ manager.rulesOf layer newRow self onConflict) {row : Row}
    (conflict : row ∈ rule.conflicts) :
    row ∈ layer.primary ∧
      manager.isSelfKey self (manager.schema.primaryKeyFromRow row) = false := by
  obtain ⟨uc, -, rfl⟩ := mem_map.mp member
  obtain ⟨inLayer, finds⟩ := mem_filter.mp conflict
  refine ⟨inLayer, ?_⟩
  unfold findsConflict at finds
  simp only [Bool.and_eq_true, Bool.not_eq_true'] at finds
  exact finds.1.2

variable (invariant : CheckInvariant manager base newRow self onConflict uniqueConstraints holds)

include invariant in
/-- One check on what is left of the table is the rule of its constraint. -/
theorem CheckInvariant.resolution
    (base_ordered : RowsOrdered manager.schema base.primary) (now : holds current)
    {uc : UniqueConstraint} (member : uc ∈ uniqueConstraints)
    (rows : current.primary = base.primary.filter (· ∉ gone)) (evicted : List Row) :
    Resolution manager uc (effectiveAction onConflict uc)
      (manager.ruleOf base newRow self onConflict uc).everyConflict
      ((manager.ruleOf base newRow self onConflict uc).left gone) current evicted
      (manager.checkSingleUniqueConstraint base.primary current uc newRow self onConflict
        evicted) := by
  have same := spec_findIndexForConstraint manager (invariant.specs now) uc
  have resolution : Resolution manager uc (effectiveAction onConflict uc) _ _ current evicted
      (manager.checkSingleUniqueConstraint base.primary current uc newRow self
        onConflict evicted) :=
    checkSingleUniqueConstraint_resolution (invariant.ordered now) base_ordered (invariant.held now)
      evicted (invariant.reaches now uc member) onConflict
  have conflicts : current.primary.filter
      (manager.findsConflict (manager.findIndexForConstraint current uc) uc newRow self) =
        (manager.ruleOf base newRow self onConflict uc).left gone := by
    rw [findsConflict_congr same, rows, filter_filter]
    unfold Displacement.Rule.left ruleOf
    rw [filter_filter]
    refine filter_congr fun row _ => ?_
    rw [Bool.eq_iff_iff]
    simp [and_comm]
  have every : (manager.findIndexForConstraint current uc).isSome =
      (manager.ruleOf base newRow self onConflict uc).everyConflict := by
    have both := congrArg Option.isSome same
    rwa [Option.isSome_map, Option.isSome_map] at both
  rwa [conflicts, every] at resolution

include invariant in
/-- The checks of a write run the rules of its constraints over the rows. -/
theorem CheckInvariant.run
    (base_ordered : RowsOrdered manager.schema base.primary) {rest : List UniqueConstraint}
    (within : ∀ uc ∈ rest, uc ∈ uniqueConstraints) (now : holds current) {evicted : List Row}
    (rows : current.primary = base.primary.filter (· ∉ gone)) (reported : evicted.Perm gone) :
    let checked := manager.checkUniqueConstraints base.primary newRow self onConflict rest
      current evicted
    let outcome := Displacement.run (rest.map (manager.ruleOf base newRow self onConflict)) gone
    holds checked.layer ∧ checked.layer.primary = base.primary.filter (· ∉ outcome.2) ∧
      checked.evicted.Perm outcome.2 ∧ checked.result.isSome = outcome.1 ∧
      ∀ result, checked.result = some result →
        ∃ uc ∈ rest, ∃ conflicts, manager.Stops uc (effectiveAction onConflict uc) conflicts
          result := by
  induction rest generalizing current gone evicted with
  | nil => exact ⟨now, rows, reported, rfl, nofun⟩
  | cons uc rest ih =>
    have resolution := invariant.resolution base_ordered now (within uc mem_cons_self) rows evicted
    have after := invariant.check now uc (within uc mem_cons_self) evicted
    rw [map_cons, Displacement.run, checkUniqueConstraints]
    set checked := manager.checkSingleUniqueConstraint base.primary current uc newRow self
      onConflict evicted
    set rule := manager.ruleOf base newRow self onConflict uc
    obtain ⟨more, more_reported, more_perm⟩ := resolution.reported
    -- What is gone after the rule is what was gone and what its action displaces.
    have gone_after : rule.after gone =
        gone ++ displaced (effectiveAction onConflict uc) rule.everyConflict (rule.left gone) := by
      unfold Displacement.Rule.after displaced
      by_cases replaces : effectiveAction onConflict uc = .replace
      · simp [rule, ruleOf, replaces, Displacement.Rule.takes]
      · simp [rule, ruleOf, replaces]
    have rows_after : checked.layer.primary = base.primary.filter (· ∉ rule.after gone) := by
      rw [resolution.rows, rows, filter_filter, gone_after]
      refine filter_congr fun row _ => ?_
      rw [Bool.eq_iff_iff]
      simp [and_comm]
    have reported_after : checked.evicted.Perm (rule.after gone) := by
      rw [more_reported, gone_after]
      exact reported.append more_perm
    have passes : checked.result = none ↔ rule.replaces ∨ rule.left gone = [] := by
      rw [resolution.passes]
      simp [rule, ruleOf]
    cases ended : checked.result with
    | some result =>
      -- The rule stops, so its action displaced nothing.
      have blocked := mt passes.mpr (ended ▸ Option.some_ne_none result)
      have kept : rule.after gone = gone := by
        rw [Displacement.Rule.after, if_neg (not_or.mp blocked).1]
      rw [kept] at rows_after reported_after
      simp only [if_neg blocked]
      refine ⟨after, rows_after, reported_after, by rw [ended]; rfl, fun other stopped => ?_⟩
      exact ⟨uc, mem_cons_self, _, resolution.stops other stopped⟩
    | none =>
      simp only [if_pos (passes.mp ended)]
      obtain ⟨holds, rows, reported, stopped, stops⟩ := ih
        (fun other member => within other (mem_cons_of_mem uc member)) after rows_after
        reported_after
      refine ⟨holds, rows, reported, stopped, fun result ended => ?_⟩
      obtain ⟨other, member, rest⟩ := stops result ended
      exact ⟨other, mem_cons_of_mem uc member, rest⟩

/-- An exact index leads to the rows at a key. -/
theorem reaches_of_exact (ordered : RowsOrdered manager.schema layer.primary) {index : MemoryIndex}
    (exact : index.Exact manager.schema layer.primary) (uc : UniqueConstraint) (newRow : Row) :
    manager.Reaches layer uc index newRow := by
  intro row member matched _
  constructor
  · rintro ⟨candidate, listed, same⟩
    obtain ⟨code, found⟩ := (mem_getPrimaryKeys exact.wellFormed).mp listed
    obtain ⟨owner, owner_mem, place, names, -⟩ := exact.sound found
    cases (ordered.key_eq_iff owner_mem names.equal member).mp same
    exact place.2
  · intro same
    obtain ⟨candidate, listed, names⟩ := exact.complete row member matched
    rw [← listed_congr index same] at listed
    exact ⟨candidate, (mem_getPrimaryKeys exact.wellFormed).mpr ⟨_, listed⟩, names.equal⟩

/-- On a consistent layer the checks find every conflict. -/
theorem checkInvariant_of_consistent (consistent : layer.Consistent manager.schema) (newRow : Row)
    (self : UniqueCheckSelf) (onConflict : Option ConflictResolution)
    (uniqueConstraints : List UniqueConstraint) :
    CheckInvariant manager layer newRow self onConflict uniqueConstraints fun current =>
      manager.Checking layer.primary self current ∧ current.specs = layer.specs where
  ordered now := now.1.consistent.ordered
  held now := now.1.held
  specs now := now.2
  reaches now uc _ index found _ _ :=
    reaches_of_exact now.1.consistent.ordered
      (now.1.consistent.exact index (mem_of_findIndexForConstraint found)) uc newRow
  check now uc _ evicted :=
    ⟨now.1.checkSingleUniqueConstraint consistent.ordered uc onConflict evicted,
      checkSingleUniqueConstraint_induct (motive := fun later => later.specs = layer.specs)
        now.1.consistent.ordered now.1.held onConflict evicted
        (fun _ _ _ same _ _ _ => (specs_recordDelete ..).trans same) now.2⟩

end Checks

end TableManager

end Quereus.Memory
