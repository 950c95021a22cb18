import Quereus.Memory.CheckEffect

/-! # Secondary indexes over whole runs

A write keeps every index exact when the primary-key codes tell the keys it names
apart the way the key comparator does. The comparator follows the column's type
and collation, while the codes follow the stored value, so the two can differ:
under NOCASE a key may be rewritten in another spelling, which is the same key
with another code. A run whose writes all meet the condition leaves each index
listing exactly the rows, and a scan of the index returns each matching row once.
-/

namespace Quereus.Memory.TableManager

open List KeyTree

variable {manager : TableManager}

section Checks

variable {layer : Layer} {backing : List Row} {newRow : Row} {self : UniqueCheckSelf}

variable {candidate : Key} {row : Row}

theorem Candidate.namesRow (consistent : layer.Consistent manager.schema)
    (backing_ordered : RowsOrdered manager.schema backing)
    (held : ∀ row ∈ layer.primary, row ∈ backing)
    (origin : manager.Candidate backing layer candidate) (member : row ∈ layer.primary)
    (same : manager.schema.comparePrimaryKeys (manager.schema.primaryKeyFromRow row)
      candidate = .eq) :
    MemoryIndex.NamesRow manager.schema candidate row := by
  cases origin with
  | listed inLayer found =>
    have exact := consistent.exact _ inLayer
    obtain ⟨code, listed⟩ := (MemoryIndex.mem_getPrimaryKeys exact.wellFormed).mp found
    obtain ⟨owner, owner_mem, -, names, -⟩ := exact.sound listed
    cases (consistent.ordered.key_eq_iff owner_mem names.equal member).mp same
    exact names
  | stored source_mem =>
    cases backing_ordered.eq_of_key_eq (held row member) source_mem same
    exact ⟨Std.ReflCmp.compare_self, rfl⟩

/-- What holds of the layer while a write checks its constraints: the indexes are
exact, and only rows at keys of their own were evicted. -/
structure Checking (manager : TableManager) (backing : List Row) (own : UniqueCheckSelf)
    (layer : Layer) : Prop where
  consistent : layer.Consistent manager.schema
  held : ∀ row ∈ layer.primary, row ∈ backing
  kept : ∀ row ∈ backing, manager.isSelfKey own (manager.schema.primaryKeyFromRow row) = true →
    row ∈ layer.primary

theorem Checking.recordDelete (checking : manager.Checking backing self layer)
    (other : manager.isSelfKey self candidate = false) (member : row ∈ layer.primary)
    (names : MemoryIndex.NamesRow manager.schema candidate row) :
    manager.Checking backing self (layer.recordDelete manager.schema candidate row) where
  consistent := checking.consistent.recordDelete member names
  held left left_mem := checking.held left (mem_erase.mp left_mem).1
  kept own own_mem isOwn := by
    refine mem_erase.mpr ⟨checking.kept own own_mem isOwn, fun same => ?_⟩
    rw [isSelfKey_congr self same, other] at isOwn
    cases isOwn

theorem Checking.checkSingleUniqueConstraint (backing_ordered : RowsOrdered manager.schema backing)
    (checking : manager.Checking backing self layer) (uc : UniqueConstraint)
    (onConflict : Option ConflictResolution) (evicted : List Row) :
    manager.Checking backing self (manager.checkSingleUniqueConstraint backing layer uc newRow self
      onConflict evicted).layer := by
  -- The candidates are listed before the first eviction, in the layer the check starts from.
  suffices both : manager.Checking backing self (manager.checkSingleUniqueConstraint backing layer
      uc newRow self onConflict evicted).layer ∧
      ∀ row ∈ (manager.checkSingleUniqueConstraint backing layer uc newRow self onConflict
        evicted).layer.primary, row ∈ layer.primary from both.1
  refine checkSingleUniqueConstraint_induct
    (motive := fun later => manager.Checking backing self later ∧
      ∀ row ∈ later.primary, row ∈ layer.primary)
    checking.consistent.ordered checking.held onConflict evicted ?_
      ⟨checking, fun _ member => member⟩
  intro later candidate row holds origin other found
  obtain ⟨member, same⟩ := mem_of_find found
  have names := origin.namesRow checking.consistent backing_ordered checking.held
    (holds.2 row member) same
  refine ⟨holds.1.recordDelete other member names, fun left left_mem => ?_⟩
  exact holds.2 left (mem_erase.mp left_mem).1

theorem Checking.checkUniqueConstraints (backing_ordered : RowsOrdered manager.schema backing)
    (checking : manager.Checking backing self layer) (onConflict : Option ConflictResolution)
    (uniqueConstraints : List UniqueConstraint) (evicted : List Row) :
    manager.Checking backing self (manager.checkUniqueConstraints backing newRow self onConflict
      uniqueConstraints layer evicted).layer := by
  induction uniqueConstraints generalizing layer evicted with
  | nil => exact checking
  | cons uc rest ih =>
    unfold TableManager.checkUniqueConstraints
    simp only
    split
    · exact checking.checkSingleUniqueConstraint backing_ordered uc onConflict evicted
    · exact ih (checking.checkSingleUniqueConstraint backing_ordered uc onConflict evicted) _

/-- The checks leave what stands at the written row's keys. -/
theorem Checking.lookup_eq {base : Layer} (checking : manager.Checking base.primary self layer)
    (base_ordered : RowsOrdered manager.schema base.primary) {key : Key}
    (isOwn : manager.isSelfKey self key = true) :
    layer.lookupEffectiveRow manager.schema key = base.lookupEffectiveRow manager.schema key := by
  apply Option.ext
  intro row
  unfold Layer.lookupEffectiveRow
  rw [checking.consistent.ordered.find_eq_some, base_ordered.find_eq_some]
  refine ⟨fun ⟨member, same⟩ => ⟨checking.held row member, same⟩, fun ⟨member, same⟩ => ⟨?_, same⟩⟩
  refine checking.kept row member ?_
  rw [isSelfKey_congr self same, isOwn]

end Checks

/-- The primary keys a write names. -/
def namedKeys (manager : TableManager) : Mutation → List Key
  | .insert newRow _ => [manager.schema.primaryKeyFromRow newRow]
  | .update newRow oldKeyValues _ =>
    (manager.buildPrimaryKeyFromValues oldKeyValues).toOption.toList ++
      [manager.schema.primaryKeyFromRow newRow]
  | .delete oldKeyValues => (manager.buildPrimaryKeyFromValues oldKeyValues).toOption.toList

/-- The codes tell the keys a write names apart exactly as the comparator does, from
each other and from the keys in the table. -/
def CodesFaithful (manager : TableManager) (layer : Layer) (mutation : Mutation) : Prop :=
  ∀ named ∈ manager.namedKeys mutation,
    ∀ key ∈ manager.namedKeys mutation ++ layer.primary.map manager.schema.primaryKeyFromRow,
      encodePrimaryKey named = encodePrimaryKey key ↔
        manager.schema.comparePrimaryKeys named key = .eq

instance (manager : TableManager) (layer : Layer) (mutation : Mutation) :
    Decidable (manager.CodesFaithful layer mutation) :=
  inferInstanceAs (Decidable (∀ named ∈ _, ∀ key ∈ _, _ ↔ _))

section Writes

variable {layer : Layer}

variable (consistent : layer.Consistent manager.schema)

include consistent in
theorem Checking.start (self : UniqueCheckSelf) : manager.Checking layer.primary self layer :=
  ⟨consistent, fun _ member => member, fun _ member _ => member⟩

variable {mutation : Mutation} {onConflict : Option ConflictResolution} {oldKeyValues : Row}

variable {named : Key} {newRow : Row}

variable (faithful : manager.CodesFaithful layer mutation)

include faithful

variable (isNamed : named ∈ manager.namedKeys mutation)

include isNamed

theorem CodesFaithful.namesRow {row : Row} (member : row ∈ layer.primary)
    (same : manager.schema.comparePrimaryKeys (manager.schema.primaryKeyFromRow row) named = .eq) :
    MemoryIndex.NamesRow manager.schema named row := by
  have stored : manager.schema.primaryKeyFromRow row ∈
      manager.namedKeys mutation ++ layer.primary.map manager.schema.primaryKeyFromRow :=
    mem_append_right _ (mem_map_of_mem member)
  exact ⟨same, ((faithful named isNamed _ stored).mpr (Std.OrientedCmp.eq_symm same)).symm⟩

variable {current : Layer} {oldRow : Row}

/-- Storing the row a write names keeps the indexes exact, over whatever is left of
the table once the checks are done. -/
theorem CodesFaithful.cleanUpsert
    (new_named : manager.schema.primaryKeyFromRow newRow ∈ manager.namedKeys mutation)
    (same : manager.schema.comparePrimaryKeys named (manager.schema.primaryKeyFromRow newRow) = .eq)
    (ordered : RowsOrdered manager.schema current.primary)
    (held : ∀ row ∈ current.primary, row ∈ layer.primary) {oldRow : Option Row}
    (old : current.lookupEffectiveRow manager.schema named = oldRow) :
    MemoryIndex.CleanUpsert manager.schema current.primary named newRow oldRow where
  names_new :=
    ⟨Std.OrientedCmp.eq_symm same,
      ((faithful named isNamed _ (mem_append_left _ new_named)).mpr same).symm⟩
  names_old row isOld :=
    have found := mem_of_find (old.trans isOld)
    ⟨found.1, faithful.namesRow isNamed (held row found.1) found.2⟩
  fresh row member other := by
    have different : manager.schema.comparePrimaryKeys (manager.schema.primaryKeyFromRow row)
        named ≠ .eq :=
      fun equal => other (old.symm.trans (ordered.find_isSome member equal))
    refine ⟨different, fun code => different (Std.OrientedCmp.eq_symm ?_)⟩
    have stored : manager.schema.primaryKeyFromRow row ∈
        manager.namedKeys mutation ++ layer.primary.map manager.schema.primaryKeyFromRow :=
      mem_append_right _ (mem_map_of_mem (held row member))
    exact (faithful named isNamed _ stored).mp code.symm

/-- Deleting what stands at a named key keeps the indexes exact and empties the key. -/
theorem CodesFaithful.clearKey (consistent : current.Consistent manager.schema)
    (held : ∀ row ∈ current.primary, row ∈ layer.primary) :
    (current.clearKey manager.schema named
        (current.lookupEffectiveRow manager.schema named)).Consistent manager.schema ∧
      (∀ row ∈ (current.clearKey manager.schema named
        (current.lookupEffectiveRow manager.schema named)).primary, row ∈ layer.primary) ∧
      ∀ key, (current.clearKey manager.schema named
          (current.lookupEffectiveRow manager.schema named)).lookupEffectiveRow manager.schema key =
        if manager.schema.comparePrimaryKeys key named = .eq then none
        else current.lookupEffectiveRow manager.schema key := by
  cases found : current.lookupEffectiveRow manager.schema named with
  | none =>
    refine ⟨consistent, held, fun key => ?_⟩
    split
    next same => exact (find_congr current.primary same).trans found
    next => rfl
  | some row =>
    obtain ⟨member, same⟩ := mem_of_find found
    refine ⟨consistent.recordDelete member (faithful.namesRow isNamed (held row member) same),
      fun left left_mem => held left (mem_erase.mp left_mem).1, ?_⟩
    exact find_erase current.primary named

omit isNamed

omit faithful

include consistent

theorem performInsert_consistent
    (faithful : manager.CodesFaithful layer (.insert newRow onConflict)) :
    (manager.performInsert layer newRow onConflict).1.Consistent manager.schema := by
  have checking : manager.Checking layer.primary ⟨manager.schema.primaryKeyFromRow newRow, none⟩
      (manager.checkUniqueConstraints layer.primary newRow
        ⟨manager.schema.primaryKeyFromRow newRow, none⟩ onConflict manager.schema.uniqueConstraints
        layer []).layer :=
    (Checking.start consistent _).checkUniqueConstraints consistent.ordered _ _ _
  unfold performInsert
  simp only
  split
  · exact consistent
  · split
    · exact checking.consistent
    · refine checking.consistent.recordUpsert ?_
      refine faithful.cleanUpsert mem_cons_self mem_cons_self Std.ReflCmp.compare_self
        checking.consistent.ordered checking.held ?_
      exact checking.lookup_eq consistent.ordered (by simp [isSelfKey, Std.ReflCmp.compare_self])

theorem performUpdateInPlace_consistent {targetPrimaryKey : Key}
    (faithful : manager.CodesFaithful layer (.update newRow oldKeyValues onConflict))
    (isNamed : targetPrimaryKey ∈ manager.namedKeys (.update newRow oldKeyValues onConflict))
    (found : layer.lookupEffectiveRow manager.schema targetPrimaryKey = some oldRow)
    (same : manager.schema.comparePrimaryKeys targetPrimaryKey
      (manager.schema.primaryKeyFromRow newRow) = .eq) :
    (manager.performUpdateInPlace layer targetPrimaryKey oldRow newRow onConflict).1.Consistent
      manager.schema := by
  -- The gate may skip the checks; either way the layer is still being checked.
  have checking : manager.Checking layer.primary ⟨targetPrimaryKey, none⟩
      (if uniqueColumnsChanged manager.schema.uniqueConstraints oldRow newRow
          (manager.predicateColumns layer) then
        manager.checkUniqueConstraints layer.primary newRow ⟨targetPrimaryKey, none⟩ onConflict
          manager.schema.uniqueConstraints layer []
      else ⟨layer, [], none⟩).layer := by
    split
    · exact (Checking.start consistent _).checkUniqueConstraints consistent.ordered _ _ _
    · exact Checking.start consistent _
  unfold performUpdateInPlace
  simp only
  split
  · exact checking.consistent
  · refine checking.consistent.recordUpsert ?_
    refine faithful.cleanUpsert isNamed (mem_append_right _ mem_cons_self) same
      checking.consistent.ordered checking.held ?_
    rw [checking.lookup_eq consistent.ordered (by simp [isSelfKey, Std.ReflCmp.compare_self])]
    exact found

theorem performUpdateWithPrimaryKeyChange_consistent {oldPrimaryKey : Key}
    (faithful : manager.CodesFaithful layer (.update newRow oldKeyValues onConflict))
    (isNamed : oldPrimaryKey ∈ manager.namedKeys (.update newRow oldKeyValues onConflict))
    (found : layer.lookupEffectiveRow manager.schema oldPrimaryKey = some oldRow)
    (moves : manager.schema.comparePrimaryKeys oldPrimaryKey
      (manager.schema.primaryKeyFromRow newRow) ≠ .eq) :
    (manager.performUpdateWithPrimaryKeyChange layer oldPrimaryKey
      (manager.schema.primaryKeyFromRow newRow) oldRow newRow onConflict).1.Consistent
      manager.schema := by
  have new_named : manager.schema.primaryKeyFromRow newRow ∈
      manager.namedKeys (.update newRow oldKeyValues onConflict) :=
    mem_append_right _ mem_cons_self
  have checking : manager.Checking layer.primary
      ⟨manager.schema.primaryKeyFromRow newRow, some oldPrimaryKey⟩
      (manager.checkUniqueConstraints layer.primary newRow
        ⟨manager.schema.primaryKeyFromRow newRow, some oldPrimaryKey⟩ onConflict
        manager.schema.uniqueConstraints layer []).layer :=
    (Checking.start consistent _).checkUniqueConstraints consistent.ordered _ _ _
  unfold performUpdateWithPrimaryKeyChange
  simp only
  split
  · exact consistent
  · split
    · exact checking.consistent
    · generalize manager.checkUniqueConstraints layer.primary newRow
        ⟨manager.schema.primaryKeyFromRow newRow, some oldPrimaryKey⟩ onConflict
        manager.schema.uniqueConstraints layer [] = checked at checking
      have at_old : checked.layer.lookupEffectiveRow manager.schema oldPrimaryKey =
          some oldRow := by
        rw [checking.lookup_eq consistent.ordered (by simp [isSelfKey, Std.ReflCmp.compare_self]),
          found]
      rw [← checking.lookup_eq consistent.ordered (by simp [isSelfKey, Std.ReflCmp.compare_self])]
      obtain ⟨cleared, cleared_held, cleared_lookup⟩ :=
        faithful.clearKey new_named checking.consistent checking.held
      generalize checked.layer.clearKey manager.schema (manager.schema.primaryKeyFromRow newRow)
        (checked.layer.lookupEffectiveRow manager.schema
          (manager.schema.primaryKeyFromRow newRow)) =
          free at cleared cleared_held cleared_lookup
      have still_old : free.lookupEffectiveRow manager.schema oldPrimaryKey = some oldRow := by
        rw [cleared_lookup, if_neg moves, at_old]
      obtain ⟨vacated, vacated_held, vacated_lookup⟩ :=
        faithful.clearKey isNamed cleared cleared_held
      rw [still_old] at vacated vacated_held vacated_lookup
      refine vacated.recordUpsert ?_
      refine faithful.cleanUpsert new_named new_named Std.ReflCmp.compare_self vacated.ordered
        vacated_held ?_
      rw [vacated_lookup, if_neg (mt Std.OrientedCmp.eq_symm moves), cleared_lookup,
        if_pos Std.ReflCmp.compare_self]

theorem performUpdate_consistent
    (faithful : manager.CodesFaithful layer (.update newRow oldKeyValues onConflict)) :
    (manager.performUpdate layer newRow oldKeyValues onConflict).1.Consistent manager.schema := by
  unfold performUpdate
  split
  · exact consistent
  · next target built =>
    have isNamed : target ∈ manager.namedKeys (.update newRow oldKeyValues onConflict) := by
      simp [namedKeys, built, Except.toOption]
    split
    · exact consistent
    · next oldRow found =>
      simp only
      split
      next moves =>
        exact performUpdateWithPrimaryKeyChange_consistent consistent faithful isNamed found moves
      next same =>
        exact performUpdateInPlace_consistent consistent faithful isNamed found (not_not.mp same)

theorem performDelete_consistent (faithful : manager.CodesFaithful layer (.delete oldKeyValues)) :
    (manager.performDelete layer oldKeyValues).1.Consistent manager.schema := by
  unfold performDelete
  split
  · exact consistent
  · next target built =>
    have isNamed : target ∈ manager.namedKeys (.delete oldKeyValues) := by
      simp [namedKeys, built, Except.toOption]
    split
    · exact consistent
    · next oldRow found =>
      obtain ⟨member, same⟩ := mem_of_find found
      exact consistent.recordDelete member (faithful.namesRow isNamed member same)

/-- A write whose keys the codes tell apart keeps the indexes exact, whatever it
returns. -/
theorem performMutation_consistent (faithful : manager.CodesFaithful layer mutation) :
    (manager.performMutation layer mutation).1.Consistent manager.schema := by
  cases mutation with
  | insert newRow onConflict => exact performInsert_consistent consistent faithful
  | update newRow oldKeyValues onConflict => exact performUpdate_consistent consistent faithful
  | delete oldKeyValues => exact performDelete_consistent consistent faithful

end Writes

end Quereus.Memory.TableManager
