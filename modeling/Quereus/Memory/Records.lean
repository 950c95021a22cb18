import Quereus.Lib.WriteLog
import Quereus.Memory.IndexContents
import Quereus.Memory.Mutation

/-! # The records a write makes

Every change to a layer is a call of `recordUpsert` or `recordDelete`. A write
makes a list of such calls, in order; a layer logs them, and a commit may replay
the log over another layer. `performMutation_eq_replay` says that the list is
what the write does.
-/

namespace Quereus.Memory

open List

/-- One call of `recordUpsert` or `recordDelete`. -/
inductive Record where
  | upsert (primaryKey : Key) (newRow : Row) (oldRow : Option Row)
  | delete (primaryKey : Key) (oldRow : Row)

/-- What a record does to the rows. -/
def Record.write : Record → WriteLog.Write Key Row
  | .upsert _ newRow _ => .put newRow
  | .delete primaryKey _ => .remove primaryKey

/-- A deletion is under a key of the deleted row. -/
def Record.Named (schema : TableSchema) : Record → Prop
  | .upsert _ _ _ => True
  | .delete primaryKey oldRow =>
    schema.comparePrimaryKeys (schema.primaryKeyFromRow oldRow) primaryKey = .eq

namespace Layer

variable (schema : TableSchema)

def record (layer : Layer) : Record → Layer
  | .upsert primaryKey newRow oldRow => layer.recordUpsert schema primaryKey newRow oldRow
  | .delete primaryKey oldRow => layer.recordDelete schema primaryKey oldRow

def replay (layer : Layer) (records : List Record) : Layer :=
  records.foldl (Layer.record schema) layer

theorem replay_append (layer : Layer) (first second : List Record) :
    layer.replay schema (first ++ second) = (layer.replay schema first).replay schema second :=
  foldl_append

end Layer

namespace TableManager

variable (manager : TableManager)

/-- The calls of `checkCandidates`. -/
def candidateRecords (self : UniqueCheckSelf) (onConflict : ConflictResolution)
    (conflicts : Row → Bool) : List Key → Layer → List Record
  | [], _ => []
  | existingPK :: rest, layer =>
    if manager.isSelfKey self existingPK then candidateRecords self onConflict conflicts rest layer
    else match layer.lookupEffectiveRow manager.schema existingPK with
      | none => candidateRecords self onConflict conflicts rest layer
      | some row =>
        if conflicts row then
          match onConflict with
          | .replace =>
            .delete existingPK row :: candidateRecords self onConflict conflicts rest
              (layer.recordDelete manager.schema existingPK row)
          | _ => []
        else candidateRecords self onConflict conflicts rest layer

def indexCheckRecords (layer : Layer) (uc : UniqueConstraint) (index : MemoryIndex) (newRow : Row)
    (self : UniqueCheckSelf) (onConflict : ConflictResolution) : List Record :=
  manager.candidateRecords self onConflict
    (fun row => manager.schema.agreeOn uc.columns (manager.indexCollations index.spec uc)
      newRow row &&
      index.rowMatchesPredicate row)
    (index.getPrimaryKeys manager.schema (index.keyFromRow newRow)) layer

def viewCheckRecords (backing : List Row) (layer : Layer) (uc : UniqueConstraint) (newRow : Row)
    (self : UniqueCheckSelf) (onConflict : ConflictResolution) : List Record :=
  manager.candidateRecords self onConflict
    (manager.schema.agreeOn uc.columns (manager.schema.uniqueEnforcementCollations uc) newRow)
    (manager.lookupCoveringConflicts uc backing newRow self.key) layer

def scanCheckRecords (layer : Layer) (uc : UniqueConstraint) (newRow : Row) (self : UniqueCheckSelf)
    (onConflict : ConflictResolution) : List Record :=
  let conflict := layer.primary.find? fun row =>
    !manager.isSelfKey self (manager.schema.primaryKeyFromRow row) && inScope uc.predicate row &&
      manager.schema.agreeOn uc.columns (uc.columns.map manager.schema.collationAt) newRow row
  match conflict, onConflict with
  | some row, .replace => [.delete (manager.schema.primaryKeyFromRow row) row]
  | _, _ => []

/-- The calls of `checkSingleUniqueConstraint`. -/
def constraintRecords (backing : List Row) (layer : Layer) (uc : UniqueConstraint) (newRow : Row)
    (self : UniqueCheckSelf) (onConflict : Option ConflictResolution) : List Record :=
  if uc.columns.any fun column => (cellAt newRow column).isNull then []
  else match manager.findIndexForConstraint layer uc with
    | some (.memoryIndex index) =>
      if index.rowMatchesPredicate newRow then
        manager.indexCheckRecords layer uc index newRow self (effectiveAction onConflict uc)
      else []
    | some .materializedView =>
      if inScope uc.predicate newRow then
        manager.viewCheckRecords backing layer uc newRow self (effectiveAction onConflict uc)
      else []
    | none => manager.scanCheckRecords layer uc newRow self (effectiveAction onConflict uc)

/-- The calls of `checkUniqueConstraints`. -/
def uniqueRecords (backing : List Row) (newRow : Row) (self : UniqueCheckSelf)
    (onConflict : Option ConflictResolution) :
      List UniqueConstraint → Layer → List Row → List Record
  | [], _, _ => []
  | uc :: rest, layer, evicted =>
    let checked := manager.checkSingleUniqueConstraint backing layer uc newRow self
      onConflict evicted
    manager.constraintRecords backing layer uc newRow self onConflict ++
      match checked.result with
      | some _ => []
      | none => uniqueRecords backing newRow self onConflict rest checked.layer checked.evicted

def insertRecords (layer : Layer) (newRow : Row) (onConflict : Option ConflictResolution) :
    List Record :=
  let primaryKey := manager.schema.primaryKeyFromRow newRow
  let existingRow := layer.lookupEffectiveRow manager.schema primaryKey
  match manager.keyConflict existingRow onConflict
      ("UNIQUE constraint failed: " ++ manager.schema.name ++ " PK.") with
  | some _ => []
  | none =>
    let checked := manager.checkUniqueConstraints layer.primary newRow ⟨primaryKey, none⟩ onConflict
      manager.schema.uniqueConstraints layer []
    manager.uniqueRecords layer.primary newRow ⟨primaryKey, none⟩ onConflict
        manager.schema.uniqueConstraints layer [] ++
      match checked.result with
      | some _ => []
      | none => [.upsert primaryKey newRow existingRow]

def keyChangeRecords (layer : Layer) (oldPrimaryKey newPrimaryKey : Key) (oldRow newRow : Row)
    (onConflict : Option ConflictResolution) : List Record :=
  let existingRow := layer.lookupEffectiveRow manager.schema newPrimaryKey
  match manager.keyConflict existingRow onConflict
      ("UNIQUE constraint failed on new PK for " ++ manager.schema.name ++ ".") with
  | some _ => []
  | none =>
    let checked := manager.checkUniqueConstraints layer.primary newRow
      ⟨newPrimaryKey, some oldPrimaryKey⟩ onConflict manager.schema.uniqueConstraints layer []
    manager.uniqueRecords layer.primary newRow ⟨newPrimaryKey, some oldPrimaryKey⟩ onConflict
        manager.schema.uniqueConstraints layer [] ++
      match checked.result with
      | some _ => []
      | none =>
        (existingRow.map (Record.delete newPrimaryKey)).toList ++
          [.delete oldPrimaryKey oldRow, .upsert newPrimaryKey newRow none]

def inPlaceRecords (layer : Layer) (targetPrimaryKey : Key) (oldRow newRow : Row)
    (onConflict : Option ConflictResolution) : List Record :=
  if uniqueColumnsChanged manager.schema.uniqueConstraints oldRow newRow
      (manager.predicateColumns layer) then
    let checked := manager.checkUniqueConstraints layer.primary newRow ⟨targetPrimaryKey, none⟩
      onConflict manager.schema.uniqueConstraints layer []
    manager.uniqueRecords layer.primary newRow ⟨targetPrimaryKey, none⟩ onConflict
        manager.schema.uniqueConstraints layer [] ++
      match checked.result with
      | some _ => []
      | none => [.upsert targetPrimaryKey newRow (some oldRow)]
  else [.upsert targetPrimaryKey newRow (some oldRow)]

/-- The calls of `performMutation`. -/
def mutationRecords (layer : Layer) : Mutation → List Record
  | .insert newRow onConflict => manager.insertRecords layer newRow onConflict
  | .update newRow oldKeyValues onConflict =>
    match manager.buildPrimaryKeyFromValues oldKeyValues with
    | .error _ => []
    | .ok targetPrimaryKey =>
      match layer.lookupEffectiveRow manager.schema targetPrimaryKey with
      | none => []
      | some oldRow =>
        let newPrimaryKey := manager.schema.primaryKeyFromRow newRow
        if manager.schema.comparePrimaryKeys targetPrimaryKey newPrimaryKey ≠ .eq then
          manager.keyChangeRecords layer targetPrimaryKey newPrimaryKey oldRow newRow onConflict
        else manager.inPlaceRecords layer targetPrimaryKey oldRow newRow onConflict
  | .delete oldKeyValues =>
    match manager.buildPrimaryKeyFromValues oldKeyValues with
    | .error _ => []
    | .ok targetPrimaryKey =>
      match layer.lookupEffectiveRow manager.schema targetPrimaryKey with
      | none => []
      | some oldRow => [.delete targetPrimaryKey oldRow]

variable {manager}

theorem checkCandidates_eq_replay (uc : UniqueConstraint) (self : UniqueCheckSelf)
    (action : ConflictResolution) (conflicts : Row → Bool) (candidates : List Key) (layer : Layer)
    (evicted : List Row) :
    (manager.checkCandidates uc self action conflicts candidates layer evicted).layer =
      layer.replay manager.schema (manager.candidateRecords self action conflicts candidates
        layer) := by
  induction candidates generalizing layer evicted with
  | nil => rfl
  | cons existingPK rest ih =>
    cases own : manager.isSelfKey self existingPK with
    | true => simp only [checkCandidates, candidateRecords, own, ↓reduceIte, ih]
    | false =>
      cases found : layer.lookupEffectiveRow manager.schema existingPK with
      | none => simp only [checkCandidates, candidateRecords, own, found, Bool.false_eq_true,
          ↓reduceIte, ih]
      | some row =>
        cases conflict : conflicts row with
        | false => simp only [checkCandidates, candidateRecords, own, found, conflict,
            Bool.false_eq_true, ↓reduceIte, ih]
        | true =>
          cases action <;> simp only [checkCandidates, candidateRecords, own, found, conflict,
            Bool.false_eq_true, ↓reduceIte, ih] <;> rfl

variable (layer : Layer) (backing : List Row) (newRow : Row)

theorem checkSingleUniqueConstraint_eq_replay (layer : Layer) (uc : UniqueConstraint) (newRow : Row)
    (self : UniqueCheckSelf) (onConflict : Option ConflictResolution) (evicted : List Row) :
    (manager.checkSingleUniqueConstraint backing layer uc newRow self onConflict evicted).layer =
      layer.replay manager.schema
        (manager.constraintRecords backing layer uc newRow self onConflict) := by
  unfold checkSingleUniqueConstraint constraintRecords
  split
  · rfl
  · cases manager.findIndexForConstraint layer uc with
    | none =>
      unfold checkUniqueByScanning scanCheckRecords
      cases layer.primary.find? _ with
      | none => rfl
      | some row => cases effectiveAction onConflict uc <;> rfl
    | some covering =>
      cases covering with
      | memoryIndex index =>
        simp only
        split
        · exact checkCandidates_eq_replay ..
        · rfl
      | materializedView =>
        simp only
        split
        · exact checkCandidates_eq_replay ..
        · rfl

variable (self : UniqueCheckSelf) (onConflict : Option ConflictResolution)
  (uniqueConstraints : List UniqueConstraint) (mutation : Mutation)

theorem checkUniqueConstraints_eq_replay (layer : Layer) (evicted : List Row) :
    (manager.checkUniqueConstraints backing newRow self onConflict uniqueConstraints layer
      evicted).layer =
      layer.replay manager.schema
        (manager.uniqueRecords backing newRow self onConflict uniqueConstraints layer evicted) := by
  induction uniqueConstraints generalizing layer evicted with
  | nil => rfl
  | cons uc rest ih =>
    simp only [checkUniqueConstraints, uniqueRecords, Layer.replay_append,
      ← checkSingleUniqueConstraint_eq_replay backing layer uc newRow self onConflict evicted]
    cases (manager.checkSingleUniqueConstraint backing layer uc newRow self onConflict
      evicted).result with
    | some result => rfl
    | none => exact ih _ _

/-- A write changes the layer by the calls it makes, and by nothing else. -/
theorem performMutation_eq_replay : (manager.performMutation layer mutation).1 =
      layer.replay manager.schema (manager.mutationRecords layer mutation) := by
  cases mutation with
  | insert newRow onConflict =>
    simp only [performMutation, performInsert, mutationRecords, insertRecords]
    cases manager.keyConflict _ onConflict _ with
    | some result => rfl
    | none =>
      simp only [Layer.replay_append, ← checkUniqueConstraints_eq_replay]
      cases (manager.checkUniqueConstraints _ newRow _ onConflict _ layer []).result <;> rfl
  | update newRow oldKeyValues onConflict =>
    simp only [performMutation, performUpdate, mutationRecords]
    cases manager.buildPrimaryKeyFromValues oldKeyValues with
    | error message => rfl
    | ok target =>
      simp only
      cases layer.lookupEffectiveRow manager.schema target with
      | none => rfl
      | some oldRow =>
        simp only
        split
        · unfold performUpdateWithPrimaryKeyChange keyChangeRecords
          simp only
          cases manager.keyConflict _ onConflict _ with
          | some result => rfl
          | none =>
            simp only [Layer.replay_append, ← checkUniqueConstraints_eq_replay]
            cases (manager.checkUniqueConstraints _ newRow _ onConflict _ layer []).result with
            | some result => rfl
            | none => cases layer.lookupEffectiveRow manager.schema _ <;> rfl
        · unfold performUpdateInPlace inPlaceRecords
          cases uniqueColumnsChanged manager.schema.uniqueConstraints oldRow newRow
              (manager.predicateColumns layer) with
          | false => rfl
          | true =>
            simp only [↓reduceIte, Layer.replay_append, ← checkUniqueConstraints_eq_replay]
            cases (manager.checkUniqueConstraints _ newRow _ onConflict _ layer []).result <;> rfl
  | delete oldKeyValues =>
    simp only [performMutation, performDelete, mutationRecords]
    cases manager.buildPrimaryKeyFromValues oldKeyValues with
    | error message => rfl
    | ok target =>
      simp only
      cases layer.lookupEffectiveRow manager.schema target <;> rfl

theorem candidateRecords_named (action : ConflictResolution) (conflicts : Row → Bool)
    (candidates : List Key) (layer : Layer) :
    ∀ record ∈ manager.candidateRecords self action conflicts candidates layer,
      record.Named manager.schema := by
  induction candidates generalizing layer with
  | nil => exact forall_mem_nil _
  | cons existingPK rest ih =>
    unfold candidateRecords
    split
    · exact ih layer
    · split
      · exact ih layer
      · next row found =>
        split
        · split
          · exact forall_mem_cons.mpr ⟨(KeyTree.mem_of_find found).2, ih _⟩
          · exact forall_mem_nil _
        · exact ih layer

theorem uniqueRecords_named (layer : Layer) (evicted : List Row) :
    ∀ record ∈ manager.uniqueRecords backing newRow self onConflict uniqueConstraints layer evicted,
      record.Named manager.schema := by
  induction uniqueConstraints generalizing layer evicted with
  | nil => exact forall_mem_nil _
  | cons uc rest ih =>
    refine forall_mem_append.mpr ⟨?_, ?_⟩
    · unfold constraintRecords
      split
      · exact forall_mem_nil _
      · split
        · split
          · exact candidateRecords_named _ _ _ _ _
          · exact forall_mem_nil _
        · split
          · exact candidateRecords_named _ _ _ _ _
          · exact forall_mem_nil _
        · unfold scanCheckRecords
          simp only
          split
          · exact forall_mem_singleton.mpr Std.ReflCmp.compare_self
          · exact forall_mem_nil _
    · split
      · exact forall_mem_nil _
      · exact ih _ _

theorem mutationRecords_named :
    ∀ record ∈ manager.mutationRecords layer mutation, record.Named manager.schema := by
  cases mutation with
  | insert newRow onConflict =>
    simp only [mutationRecords, insertRecords]
    split
    · exact forall_mem_nil _
    · refine forall_mem_append.mpr ⟨uniqueRecords_named _ _ _ _ _ _ _, ?_⟩
      split
      · exact forall_mem_nil _
      · exact forall_mem_singleton.mpr trivial
  | update newRow oldKeyValues onConflict =>
    simp only [mutationRecords]
    split
    · exact forall_mem_nil _
    · split
      · exact forall_mem_nil _
      · next oldRow found =>
        split
        · unfold keyChangeRecords
          simp only
          split
          · exact forall_mem_nil _
          · refine forall_mem_append.mpr ⟨uniqueRecords_named _ _ _ _ _ _ _, ?_⟩
            split
            · exact forall_mem_nil _
            · refine forall_mem_append.mpr ⟨fun record member => ?_, ?_⟩
              · obtain ⟨existing, stored, rfl⟩ :=
                  Option.map_eq_some_iff.mp (Option.mem_toList.mp member)
                exact (KeyTree.mem_of_find stored).2
              · exact forall_mem_cons.mpr ⟨(KeyTree.mem_of_find found).2,
                  forall_mem_singleton.mpr trivial⟩
        · unfold inPlaceRecords
          split
          · refine forall_mem_append.mpr ⟨uniqueRecords_named _ _ _ _ _ _ _, ?_⟩
            split
            · exact forall_mem_nil _
            · exact forall_mem_singleton.mpr trivial
          · exact forall_mem_singleton.mpr trivial
  | delete oldKeyValues =>
    simp only [mutationRecords]
    split
    · exact forall_mem_nil _
    · split
      · exact forall_mem_nil _
      · next oldRow found => exact forall_mem_singleton.mpr (KeyTree.mem_of_find found).2

end TableManager

end Quereus.Memory
