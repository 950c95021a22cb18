import Quereus.Memory.IndexContents
import Quereus.Memory.Mutation

/-! # What a UNIQUE check does to the rows

One check compares the new row with the rows it is led to. Whatever structure
leads it there, the check resolves the conflicting rows by the action: REPLACE
displaces them (a scan displaces only the first), any other action stops the
write and leaves the layer as it is. `findsConflict` names the conflicting rows
by the rows themselves, without the index.
-/

namespace Quereus.Memory.TableManager

open List KeyTree

variable {manager : TableManager}

theorem isSelfKey_congr (self : UniqueCheckSelf) {first second : Key}
    (same : manager.schema.comparePrimaryKeys first second = .eq) :
    manager.isSelfKey self first = manager.isSelfKey self second := by
  unfold isSelfKey
  rw [Std.TransCmp.congr_right same]
  congr 2
  funext vacated
  rw [Std.TransCmp.congr_right same]

variable {self : UniqueCheckSelf} {key : Key}

theorem isSelfKey_eq_false :
    manager.isSelfKey self key = false ↔
      manager.schema.comparePrimaryKeys key self.key ≠ .eq ∧
        ∀ vacated, self.vacated = some vacated →
          manager.schema.comparePrimaryKeys key vacated ≠ .eq := by
  unfold isSelfKey
  rw [Bool.or_eq_false_iff, beq_eq_false_iff_ne, Ne,
    manager.schema.comparePrimaryKeys_comm self.key]
  cases self.vacated with
  | none => simp
  | some vacated => simp [manager.schema.comparePrimaryKeys_comm vacated]

theorem isSelfKey_of_eq (same : manager.schema.comparePrimaryKeys key self.key = .eq) :
    manager.isSelfKey self key = true := by
  rw [isSelfKey, (manager.schema.comparePrimaryKeys_comm self.key key).mpr same]
  rfl

theorem isSelfKey_of_vacated {vacated : Key} (isVacated : self.vacated = some vacated)
    (same : manager.schema.comparePrimaryKeys key vacated = .eq) :
    manager.isSelfKey self key = true := by
  rw [isSelfKey, isVacated, Option.any_some,
    (manager.schema.comparePrimaryKeys_comm vacated key).mpr same]
  exact Bool.or_true _

variable {row : Row} {uc : UniqueConstraint} {layer : Layer} {index : MemoryIndex}

/-- Away from the key, clearing it changes nothing. -/
theorem mem_clearKey_of_ne (current : Layer) (existing : Option Row)
    (other : manager.schema.comparePrimaryKeys (manager.schema.primaryKeyFromRow row) key ≠ .eq) :
    row ∈ (current.clearKey manager.schema key existing).primary ↔ row ∈ current.primary := by
  cases existing with
  | none => exact Iff.rfl
  | some existing => exact mem_erase.trans (and_iff_left other)

/-- The rows the action displaces among the conflicting ones. -/
def displaced (action : ConflictResolution) (everyConflict : Bool)
    (conflicts : List Row) : List Row :=
  if action = .replace then if everyConflict then conflicts else conflicts.take 1 else []

/-- What ends a write at a conflict under an action other than REPLACE. -/
def Stops (manager : TableManager) (uc : UniqueConstraint) (action : ConflictResolution)
    (conflicts : List Row) (result : UpdateResult) : Prop :=
  (action = .ignore ∧ result = .skipped) ∨
    (action ≠ .ignore ∧ ∃ row ∈ conflicts, result = manager.uniqueFailure uc row action)

/-- A check resolves the conflicting rows of a layer. -/
structure Resolution (manager : TableManager) (uc : UniqueConstraint) (action : ConflictResolution)
    (everyConflict : Bool) (conflicts : List Row) (layer : Layer) (evicted : List Row)
    (checked : Checked) : Prop where
  rows : checked.layer.primary =
    layer.primary.filter fun row => row ∉ displaced action everyConflict conflicts
  reported : ∃ more, checked.evicted = evicted ++ more ∧
    more.Perm (displaced action everyConflict conflicts)
  passes : checked.result = none ↔ action = .replace ∨ conflicts = []
  stops : ∀ result, checked.result = some result → manager.Stops uc action conflicts result

/-- A check that meets no conflict. -/
theorem Resolution.of_none (uc : UniqueConstraint) (action : ConflictResolution)
    (everyConflict : Bool)
    (layer : Layer) (evicted : List Row) :
    Resolution manager uc action everyConflict [] layer evicted ⟨layer, evicted, none⟩ where
  rows := by simp [displaced]
  reported := ⟨[], by simp, by simp [displaced]⟩
  passes := by simp
  stops result stopped := nomatch stopped

/-- A check that stops at a conflicting row. -/
theorem Resolution.of_stop {action : ConflictResolution} {conflicts : List Row}
    (everyConflict : Bool) (layer : Layer) (evicted : List Row) {result : UpdateResult}
    (keeps : action ≠ .replace) (member : row ∈ conflicts)
    (stops : manager.Stops uc action conflicts result) :
    Resolution manager uc action everyConflict conflicts layer evicted
      ⟨layer, evicted, some result⟩ where
  rows := by simp [displaced, keeps]
  reported := ⟨[], by simp, by simp [displaced, keeps]⟩
  passes := by simp [keeps, ne_nil_of_mem member]
  stops other stopped := by
    cases stopped
    exact stops

/-- The rows a list of candidate keys leads to. -/
def hits (manager : TableManager) (self : UniqueCheckSelf) (conflicts : Row → Bool)
    (candidates : List Key) (row : Row) : Bool :=
  !manager.isSelfKey self (manager.schema.primaryKeyFromRow row) && conflicts row &&
    candidates.any fun candidate =>
      manager.schema.comparePrimaryKeys (manager.schema.primaryKeyFromRow row) candidate == .eq

section Candidates

variable {conflicts : Row → Bool} {candidate : Key} {candidates : List Key} {rows : List Row}

/-- A candidate that leads to no conflicting row adds nothing. -/
theorem filter_hits_cons_of_miss
    (miss : ∀ row ∈ rows, manager.schema.comparePrimaryKeys
      (manager.schema.primaryKeyFromRow row) candidate = .eq →
        manager.isSelfKey self candidate = true ∨ conflicts row = false) :
    rows.filter (manager.hits self conflicts (candidate :: candidates)) =
      rows.filter (manager.hits self conflicts candidates) := by
  refine filter_congr fun row member => ?_
  unfold hits
  rw [any_cons]
  by_cases same : manager.schema.comparePrimaryKeys
      (manager.schema.primaryKeyFromRow row) candidate = .eq
  · rw [isSelfKey_congr self same]
    rcases miss row member same with own | unrelated
    · simp [own]
    · simp [unrelated]
  · rw [beq_eq_false_iff_ne.mpr same, Bool.false_or]

variable (ordered : RowsOrdered manager.schema layer.primary)

include ordered

variable (action : ConflictResolution) (evicted : List Row)

/-- One candidate is passed over, or leads to a conflicting row. -/
theorem checkCandidates_cons :
    (manager.checkCandidates uc self action conflicts (candidate :: candidates) layer evicted =
        manager.checkCandidates uc self action conflicts candidates layer evicted ∧
      ∀ row ∈ layer.primary, manager.schema.comparePrimaryKeys
        (manager.schema.primaryKeyFromRow row) candidate = .eq →
          manager.isSelfKey self candidate = true ∨ conflicts row = false) ∨
    ∃ row ∈ layer.primary,
      manager.schema.comparePrimaryKeys (manager.schema.primaryKeyFromRow row) candidate = .eq ∧
      manager.isSelfKey self candidate = false ∧ conflicts row = true ∧
      manager.checkCandidates uc self action conflicts (candidate :: candidates) layer evicted =
        match action with
        | .ignore => ⟨layer, evicted, some .skipped⟩
        | .replace =>
          manager.checkCandidates uc self action conflicts candidates
            (layer.recordDelete manager.schema candidate row) (evicted ++ [row])
        | other => ⟨layer, evicted, some (manager.uniqueFailure uc row other)⟩ := by
  cases own : manager.isSelfKey self candidate with
  | true => exact .inl ⟨by rw [checkCandidates, if_pos own], fun _ _ _ => .inl rfl⟩
  | false =>
    cases found : layer.lookupEffectiveRow manager.schema candidate with
    | none =>
      refine .inl ⟨by simp only [checkCandidates, own, found, Bool.false_eq_true, ↓reduceIte], ?_⟩
      intro row member same
      exact absurd same (find_eq_none.mp found row member)
    | some row =>
      obtain ⟨member, same⟩ := mem_of_find found
      cases conflict : conflicts row with
      | false =>
        refine .inl ⟨by simp only [checkCandidates, own, found, conflict, Bool.false_eq_true,
          ↓reduceIte], ?_⟩
        intro other other_mem other_same
        right
        rwa [(ordered.key_eq_iff member same other_mem).mp other_same]
      | true =>
        refine .inr ⟨row, member, same, rfl, conflict, ?_⟩
        cases action <;>
          simp only [checkCandidates, own, found, conflict, Bool.false_eq_true, ↓reduceIte]

/-- The first displaced row, and then the rest from the layer without it. -/
theorem Resolution.displace_cons {evicted : List Row} {checked : Checked} {first rest : List Row}
    (member : row ∈ layer.primary) (same : manager.schema.comparePrimaryKeys
      (manager.schema.primaryKeyFromRow row) candidate = .eq) (perm : first.Perm (row :: rest))
    (resolved : Resolution manager uc .replace true rest
      (layer.recordDelete manager.schema candidate row) (evicted ++ [row]) checked) :
    Resolution manager uc .replace true first layer evicted checked where
  rows := by
    rw [resolved.rows, Layer.recordDelete, erase, filter_filter]
    refine filter_congr fun other other_mem => ?_
    rw [Bool.eq_iff_iff]
    simp [displaced, perm.mem_iff, ordered.key_eq_iff member same other_mem, and_comm]
  reported := by
    obtain ⟨more, reported, more_perm⟩ := resolved.reported
    refine ⟨row :: more, by rw [reported, append_assoc, singleton_append], ?_⟩
    exact (more_perm.cons row).trans perm.symm
  passes := by simpa using resolved.passes
  stops result stopped := by
    have passed := resolved.passes.mpr (.inl rfl)
    rw [passed] at stopped
    cases stopped

theorem checkCandidates_resolution : Resolution manager uc action true
      (layer.primary.filter (manager.hits self conflicts candidates)) layer evicted
      (manager.checkCandidates uc self action conflicts candidates layer evicted) := by
  induction candidates generalizing layer evicted with
  | nil =>
    have none_hit : layer.primary.filter (manager.hits self conflicts []) = [] := by simp [hits]
    rw [none_hit]
    exact Resolution.of_none uc action true layer evicted
  | cons candidate rest ih =>
    rcases checkCandidates_cons ordered action evicted with
      ⟨passed, miss⟩ | ⟨row, member, same, other, conflict, taken⟩
    · rw [passed, filter_hits_cons_of_miss miss]
      exact ih ordered evicted
    · -- A candidate that leads to a conflicting row adds that row.
      have hit : manager.hits self conflicts (candidate :: rest) row = true := by
        simp [hits, isSelfKey_congr self same, other, conflict, same]
      have perm := (ordered.perm_cons_erase member same).filter
        (manager.hits self conflicts (candidate :: rest))
      rw [filter_cons_of_pos hit, filter_hits_cons_of_miss fun left left_mem left_same =>
        absurd left_same (mem_erase.mp left_mem).2] at perm
      have first : row ∈ layer.primary.filter (manager.hits self conflicts (candidate :: rest)) :=
        perm.mem_iff.mpr mem_cons_self
      rw [taken]
      cases action with
      | replace =>
        have left : RowsOrdered manager.schema
            (layer.recordDelete manager.schema candidate row).primary := ordered.erase candidate
        exact .displace_cons ordered member same perm (ih left (evicted ++ [row]))
      | ignore => exact .of_stop true layer evicted (by decide) first (.inl ⟨rfl, rfl⟩)
      | rollback | abort | fail =>
        exact .of_stop true layer evicted (by decide) first (.inr ⟨by decide, row, first, rfl⟩)

omit ordered

end Candidates

/-- The rows a check finds in conflict with the new row. -/
def findsConflict (manager : TableManager) (covering : Option CoveringStructure)
    (uc : UniqueConstraint) (newRow : Row) (self : UniqueCheckSelf) (row : Row) : Bool :=
  !(uc.columns.any fun column => (cellAt newRow column).isNull) &&
    !manager.isSelfKey self (manager.schema.primaryKeyFromRow row) &&
    match covering with
    | some (.memoryIndex index) =>
      index.rowMatchesPredicate newRow && index.rowMatchesPredicate row &&
        index.compareKeys manager.schema (index.keyFromRow newRow) (index.keyFromRow row) == .eq &&
        manager.schema.agreeOn uc.columns (manager.indexCollations index.spec uc) newRow row
    | some .materializedView =>
      inScope uc.predicate newRow && inScope uc.predicate row &&
        manager.schema.agreeOn uc.columns (uc.columns.map manager.schema.collationAt) newRow row &&
        !manager.isOwnBackingRow self.key row &&
        manager.schema.agreeOn uc.columns (manager.schema.uniqueEnforcementCollations uc) newRow row
    | none =>
      inScope uc.predicate row &&
        manager.schema.agreeOn uc.columns (uc.columns.map manager.schema.collationAt) newRow row

/-- The index leads from the new row's key to exactly the agreeing rows at that key. -/
def Reaches (manager : TableManager) (layer : Layer) (uc : UniqueConstraint) (index : MemoryIndex)
    (newRow : Row) : Prop :=
  ∀ row ∈ layer.primary, index.rowMatchesPredicate row = true →
    manager.schema.agreeOn uc.columns (manager.indexCollations index.spec uc) newRow row = true →
    ((∃ candidate ∈ index.getPrimaryKeys manager.schema (index.keyFromRow newRow),
        manager.schema.comparePrimaryKeys (manager.schema.primaryKeyFromRow row) candidate = .eq) ↔
      index.compareKeys manager.schema (index.keyFromRow newRow) (index.keyFromRow row) = .eq)

variable {newRow : Row} {backing : List Row}

section OneConstraint

variable (ordered : RowsOrdered manager.schema layer.primary)
  (backing_ordered : RowsOrdered manager.schema backing)
    (held : ∀ row ∈ layer.primary, row ∈ backing)
  (nonnull : uc.columns.any (fun column => (cellAt newRow column).isNull) = false)
  (action : ConflictResolution) (evicted : List Row)

include ordered

include nonnull in
theorem checkUniqueViaIndex_resolution (matched : index.rowMatchesPredicate newRow = true)
    (reaches : manager.Reaches layer uc index newRow) :
    Resolution manager uc action true
      (layer.primary.filter (manager.findsConflict (some (.memoryIndex index)) uc newRow self))
      layer evicted (manager.checkUniqueViaIndex layer uc index newRow self action evicted) := by
  have same :
    layer.primary.filter (manager.findsConflict (some (.memoryIndex index)) uc newRow self) =
      layer.primary.filter (manager.hits self
        (fun row => manager.schema.agreeOn uc.columns (manager.indexCollations index.spec uc)
          newRow row &&
          index.rowMatchesPredicate row)
        (index.getPrimaryKeys manager.schema (index.keyFromRow newRow))) := by
    refine filter_congr fun row member => ?_
    rw [Bool.eq_iff_iff]
    simp only [findsConflict, hits, nonnull, matched, Bool.and_eq_true, any_eq_true, beq_iff_eq,
      Bool.not_false, true_and]
    constructor
    · rintro ⟨other, ⟨row_matched, equal⟩, agree⟩
      exact ⟨⟨other, agree, row_matched⟩, (reaches row member row_matched agree).mpr equal⟩
    · rintro ⟨⟨other, agree, row_matched⟩, candidate⟩
      exact ⟨other, ⟨row_matched, (reaches row member row_matched agree).mp candidate⟩, agree⟩
  rw [same]
  exact checkCandidates_resolution ordered action evicted

include backing_ordered held nonnull in
theorem checkUniqueViaMaterializedView_resolution (matched : inScope uc.predicate newRow = true) :
    Resolution manager uc action true
      (layer.primary.filter (manager.findsConflict (some .materializedView) uc newRow self)) layer
      evicted (manager.checkUniqueViaMaterializedView backing layer uc newRow self action
        evicted) := by
  have same : layer.primary.filter (manager.findsConflict (some .materializedView) uc newRow self) =
      layer.primary.filter (manager.hits self
        (manager.schema.agreeOn uc.columns (manager.schema.uniqueEnforcementCollations uc) newRow)
        (manager.lookupCoveringConflicts uc backing newRow self.key)) := by
    refine filter_congr fun row member => ?_
    rw [Bool.eq_iff_iff]
    simp only [findsConflict, hits, nonnull, matched, Bool.and_eq_true, any_eq_true, beq_iff_eq,
      Bool.not_false, true_and, lookupCoveringConflicts, mem_map, mem_filter,
      (manager.scanBacking_perm uc backing).mem_iff]
    constructor
    · rintro ⟨other, ⟨⟨row_matched, declared⟩, foreign⟩, agree⟩
      exact ⟨⟨other, agree⟩, manager.schema.primaryKeyFromRow row,
        ⟨row, ⟨⟨held row member, row_matched⟩, declared, foreign⟩, rfl⟩, Std.ReflCmp.compare_self⟩
    · rintro ⟨⟨other, agree⟩, -, ⟨source, ⟨⟨source_mem, source_matched⟩, declared, foreign⟩, rfl⟩,
        equal⟩
      cases backing_ordered.eq_of_key_eq (held row member) source_mem equal
      exact ⟨other, ⟨⟨source_matched, declared⟩, foreign⟩, agree⟩
  rw [same]
  exact checkCandidates_resolution ordered action evicted

include nonnull in
theorem checkUniqueByScanning_resolution :
    Resolution manager uc action false
      (layer.primary.filter (manager.findsConflict none uc newRow self)) layer evicted
      (manager.checkUniqueByScanning layer uc newRow self action evicted) := by
  have test : manager.findsConflict none uc newRow self = fun row =>
      !manager.isSelfKey self (manager.schema.primaryKeyFromRow row) && inScope uc.predicate row &&
        manager.schema.agreeOn uc.columns (uc.columns.map manager.schema.collationAt)
          newRow row := by
    funext row
    simp only [findsConflict, nonnull, Bool.not_false, Bool.true_and, Bool.and_assoc]
  unfold checkUniqueByScanning
  rw [← test]
  cases found : layer.primary.find? (manager.findsConflict none uc newRow self) with
  | none =>
    have empty : layer.primary.filter (manager.findsConflict none uc newRow self) = [] :=
      filter_eq_nil_iff.mpr (find?_eq_none.mp found)
    rw [empty]
    exact .of_none uc action false layer evicted
  | some row =>
    have head : (layer.primary.filter (manager.findsConflict none uc newRow self)).head? =
        some row := by
      rw [head?_filter, found]
    obtain ⟨rest, conflicts⟩ := head?_eq_some_iff.mp head
    have member : row ∈ layer.primary := mem_of_find?_eq_some found
    rw [conflicts]
    cases action with
    | ignore => exact .of_stop false layer evicted (by decide) mem_cons_self (.inl ⟨rfl, rfl⟩)
    | rollback | abort | fail =>
      exact .of_stop false layer evicted (by decide) mem_cons_self
        (.inr ⟨by decide, row, mem_cons_self, rfl⟩)
    | replace =>
      exact {
        rows := by
          refine filter_congr fun other other_mem => ?_
          rw [Bool.eq_iff_iff]
          simp [displaced, ordered.key_eq_iff member Std.ReflCmp.compare_self other_mem]
        reported := ⟨[row], rfl, by simp [displaced]⟩
        passes := by simp
        stops := nofun }

include backing_ordered held in
/-- A check resolves the conflicting rows of the layer, whichever way it finds them. -/
theorem checkSingleUniqueConstraint_resolution
    (reaches : ∀ index, manager.findIndexForConstraint layer uc = some (.memoryIndex index) →
      uc.columns.any (fun column => (cellAt newRow column).isNull) = false →
      index.rowMatchesPredicate newRow = true → manager.Reaches layer uc index newRow)
    (onConflict : Option ConflictResolution) :
    Resolution manager uc (effectiveAction onConflict uc)
      (manager.findIndexForConstraint layer uc).isSome
      (layer.primary.filter
        (manager.findsConflict (manager.findIndexForConstraint layer uc) uc newRow self))
      layer evicted
      (manager.checkSingleUniqueConstraint backing layer uc newRow self onConflict evicted) := by
  unfold checkSingleUniqueConstraint
  cases nonnull : uc.columns.any fun column => (cellAt newRow column).isNull with
  | true =>
    -- A new row that takes no part in the constraint conflicts with nothing.
    rw [filter_eq_nil_iff.mpr fun row _ => by simp [findsConflict, nonnull]]
    exact .of_none uc _ _ layer evicted
  | false =>
    cases covering : manager.findIndexForConstraint layer uc with
    | none => exact checkUniqueByScanning_resolution ordered nonnull _ evicted
    | some structure' =>
      cases structure' with
      | memoryIndex index =>
        cases matched : index.rowMatchesPredicate newRow with
        | true =>
          simp only [matched, ↓reduceIte]
          exact checkUniqueViaIndex_resolution ordered nonnull _ evicted matched
            (reaches index covering nonnull matched)
        | false =>
          simp only [matched, Bool.false_eq_true, ↓reduceIte]
          rw [filter_eq_nil_iff.mpr fun row _ => by simp [findsConflict, matched]]
          exact .of_none uc _ _ layer evicted
      | materializedView =>
        cases matched : inScope uc.predicate newRow with
        | true =>
          exact checkUniqueViaMaterializedView_resolution ordered backing_ordered held nonnull _
            evicted matched
        | false =>
          rw [filter_eq_nil_iff.mpr fun row _ => by simp [findsConflict, matched]]
          exact .of_none uc _ _ layer evicted

end OneConstraint

theorem mem_of_getSecondaryIndex {name : String}
    (found : layer.getSecondaryIndex name = some index) :
    index ∈ layer.secondaryIndexes :=
  mem_of_find?_eq_some found

theorem mem_of_findIndexForConstraint
    (found : manager.findIndexForConstraint layer uc = some (.memoryIndex index)) :
    index ∈ layer.secondaryIndexes := by
  unfold findIndexForConstraint at found
  split at found
  · cases found
  · obtain ⟨other, either, same⟩ := Option.map_eq_some_iff.mp found
    cases same
    rcases Option.or_eq_some_iff.mp either with own | ⟨-, reused⟩
    · unfold ownIndex at own
      split at own
      · exact mem_of_getSecondaryIndex own
      · obtain ⟨name, -, named⟩ := Option.bind_eq_some_iff.mp own
        exact mem_of_getSecondaryIndex named
    · unfold reusableIndex at reused
      split at reused
      · cases reused
      · obtain ⟨spec, -, named⟩ := exists_of_findSome?_eq_some reused
        exact mem_of_getSecondaryIndex named

/-- Where the key of a candidate comes from: an index of the layer, or a row the
table held when the write began. -/
inductive Candidate (manager : TableManager) (backing : List Row) (layer : Layer) : Key → Prop where
  | listed {index : MemoryIndex} (inLayer : index ∈ layer.secondaryIndexes)
      {indexKey candidate : Key}
      (listed : candidate ∈ index.getPrimaryKeys manager.schema indexKey) :
      Candidate manager backing layer candidate
  | stored {row : Row} (member : row ∈ backing) :
      Candidate manager backing layer (manager.schema.primaryKeyFromRow row)

section Evictions

variable {motive : Layer → Prop}

theorem checkCandidates_induct {conflicts : Row → Bool} {candidates : List Key}
    {action : ConflictResolution} (evicted : List Row)
    (evict : ∀ current candidate row, motive current → candidate ∈ candidates →
      manager.isSelfKey self candidate = false →
      current.lookupEffectiveRow manager.schema candidate = some row →
      motive (current.recordDelete manager.schema candidate row)) (start : motive layer) :
    motive (manager.checkCandidates uc self action conflicts candidates layer evicted).layer := by
  induction candidates generalizing layer evicted with
  | nil => exact start
  | cons candidate rest ih =>
    have tail := fun current other row holds member =>
      evict current other row holds (mem_cons_of_mem candidate member)
    unfold checkCandidates
    split
    · exact ih evicted tail start
    · next other =>
      split
      · exact ih evicted tail start
      · next row found =>
        split
        · split
          · exact start
          · refine ih _ tail (evict layer candidate row start mem_cons_self ?_ found)
            exact Bool.eq_false_iff.mpr other
          · exact start
        · exact ih evicted tail start

/-- What every eviction of a check preserves, the check preserves. -/
theorem checkSingleUniqueConstraint_induct (ordered : RowsOrdered manager.schema layer.primary)
    (held : ∀ row ∈ layer.primary, row ∈ backing) (onConflict : Option ConflictResolution)
    (evicted : List Row)
    (evict : ∀ current candidate row, motive current → manager.Candidate backing layer candidate →
      manager.isSelfKey self candidate = false →
      current.lookupEffectiveRow manager.schema candidate = some row →
      motive (current.recordDelete manager.schema candidate row)) (start : motive layer) :
    motive (manager.checkSingleUniqueConstraint backing layer uc newRow self onConflict
      evicted).layer := by
  unfold checkSingleUniqueConstraint
  split
  · exact start
  · split
    · next index covering =>
      split
      · refine checkCandidates_induct evicted (fun current candidate row holds member => ?_) start
        exact evict current candidate row holds
          (.listed (mem_of_findIndexForConstraint covering) member)
      · exact start
    · split
      · refine checkCandidates_induct evicted (fun current candidate row holds member => ?_) start
        obtain ⟨source, source_mem, rfl⟩ := mem_map.mp member
        have inBacking := (manager.scanBacking_perm uc backing).mem_iff.mp
          (mem_filter.mp source_mem).1
        exact evict current _ row holds (.stored (mem_filter.mp inBacking).1)
      · exact start
    · unfold checkUniqueByScanning
      simp only
      split
      · exact start
      · next row found =>
        have member := mem_of_find?_eq_some found
        split
        · exact start
        · refine evict layer _ row start (.stored (held row member)) ?_ ?_
          · have test := find?_some found
            simp only [Bool.and_eq_true, Bool.not_eq_true'] at test
            exact test.1.1
          · exact ordered.find_isSome member Std.ReflCmp.compare_self
        · exact start

end Evictions

end Quereus.Memory.TableManager
