import Quereus.Memory.ConflictRules

/-! # When a write is all or nothing

A write either stores its row, displacing exactly the rows that conflict with it
under REPLACE and reporting each of them, or leaves the rows alone
(`AllOrNothing`). The checks do not guarantee it: a constraint under REPLACE
evicts its conflicts before a later constraint ends the write. A write is all or
nothing exactly when the constraints it meets do not mix the two
(`writes_allOrNothing_iff`).
-/

namespace Quereus.Memory

open List Displacement

namespace TableManager

/-- The rows a write must displace: those that conflict with the new row under a
constraint resolved to REPLACE. The row being updated, at `target`, and the row at
the new row's key are not among them. -/
def replaceConflict (manager : TableManager) (newRow : Row) (target : Option Key)
    (onConflict : Option ConflictResolution) (row : Row) : Bool :=
  !manager.isSelfKey ⟨manager.schema.primaryKeyFromRow newRow, target⟩
      (manager.schema.primaryKeyFromRow row) &&
    manager.schema.uniqueConstraints.any fun uc =>
      effectiveAction onConflict uc = .replace && manager.conflictsUnder uc newRow row

/-- The row at the new row's key, unless it is the row being updated. -/
def keyReplaced (manager : TableManager) (newRow : Row) (target : Option Key) (row : Row) : Bool :=
  manager.schema.comparePrimaryKeys (manager.schema.primaryKeyFromRow newRow)
      (manager.schema.primaryKeyFromRow row) == .eq &&
    !target.any fun key =>
      manager.schema.comparePrimaryKeys key (manager.schema.primaryKeyFromRow row) == .eq

/-- A stored row changed exactly the rows it had to, and reports those it displaced;
any other result changed nothing. -/
def AllOrNothing (manager : TableManager) (layer : Layer) (newRow : Row) (target : Option Key)
    (onConflict : Option ConflictResolution) (outcome : Layer × UpdateResult) : Prop :=
  match outcome.2 with
  | .ok (some row) replacedRow evictedRows =>
    row = newRow ∧
    outcome.1.primary.Perm (newRow :: layer.primary.filter fun row =>
      !manager.isSelfKey ⟨manager.schema.primaryKeyFromRow newRow, target⟩
        (manager.schema.primaryKeyFromRow row) &&
      !manager.replaceConflict newRow target onConflict row) ∧
    (replacedRow.toList ++ evictedRows).Perm (layer.primary.filter fun row =>
      manager.keyReplaced newRow target row || manager.replaceConflict newRow target onConflict row)
  | _ => outcome.1.primary = layer.primary

variable {manager : TableManager}

/-- The first constraint with a conflict ends the write, or every conflict is
displaced and REPLACE finds all the rows it has to. -/
def ChecksClean (manager : TableManager) (layer : Layer) (newRow : Row) (self : UniqueCheckSelf)
    (target : Option Key) (onConflict : Option ConflictResolution) : Prop :=
  StopsAtOnce (manager.rulesOf layer newRow self onConflict) ∨
    (Passes (manager.rulesOf layer newRow self onConflict) ∧
      ∀ row ∈ layer.primary,
        row ∈ Displacement.displaced (manager.rulesOf layer newRow self onConflict) ↔
          manager.replaceConflict newRow target onConflict row = true)

/-- The checks under REPLACE find the rows that conflict, and a row that a scan passes over
is displaced by another check. -/
structure ReplacesAll (manager : TableManager) (layer : Layer) (newRow : Row)
    (own : UniqueCheckSelf) (target : Option Key) (onConflict : Option ConflictResolution) :
    Prop where
  finds : ∀ uc ∈ manager.schema.uniqueConstraints, effectiveAction onConflict uc = .replace →
    ∀ row ∈ layer.primary,
      (manager.findsConflict (manager.findIndexForConstraint layer uc) uc newRow own row = true ↔
        manager.isSelfKey ⟨manager.schema.primaryKeyFromRow newRow, target⟩
          (manager.schema.primaryKeyFromRow row) = false ∧
        manager.conflictsUnder uc newRow row = true)
  settled : Settled (manager.rulesOf layer newRow own onConflict)

/-- No row has the key, or the action for it is REPLACE. -/
def keyFree (manager : TableManager) (layer : Layer) (key : Key)
    (onConflict : Option ConflictResolution) : Prop :=
  layer.lookupEffectiveRow manager.schema key = none ∨
    (onConflict <|> manager.schema.resolvePkDefaultConflict).getD .abort = .replace

def InsertClean (manager : TableManager) (layer : Layer) (newRow : Row)
    (onConflict : Option ConflictResolution) : Prop :=
  manager.keyFree layer (manager.schema.primaryKeyFromRow newRow) onConflict →
    manager.ChecksClean layer newRow ⟨manager.schema.primaryKeyFromRow newRow, none⟩ none onConflict

/-- An update that changes the key is checked like an insert. One that does not is
checked when its gate finds a change; otherwise it must have nothing to displace. -/
def UpdateClean (manager : TableManager) (layer : Layer) (newRow oldKeyValues : Row)
    (onConflict : Option ConflictResolution) : Prop :=
  ∀ target, manager.buildPrimaryKeyFromValues oldKeyValues = .ok target →
    ∀ oldRow, layer.lookupEffectiveRow manager.schema target = some oldRow →
      if manager.schema.comparePrimaryKeys target (manager.schema.primaryKeyFromRow newRow) ≠
        .eq then
        manager.keyFree layer (manager.schema.primaryKeyFromRow newRow) onConflict →
          manager.ChecksClean layer newRow ⟨manager.schema.primaryKeyFromRow newRow, some target⟩
            (some target) onConflict
      else if uniqueColumnsChanged manager.schema.uniqueConstraints oldRow newRow
          (manager.predicateColumns layer) then
        manager.ChecksClean layer newRow ⟨target, none⟩ (some target) onConflict
      else ∀ row ∈ layer.primary,
        manager.replaceConflict newRow (some target) onConflict row = false

section Writes

variable {layer : Layer} {newRow : Row} {self : UniqueCheckSelf} {target : Option Key}
  {onConflict : Option ConflictResolution}

variable {replaced : Option Row} {current : Layer} {oldRow : Row}

/-- A write that displaced some rows and stored its own is all or nothing exactly when
these are the rows it had to displace. -/
theorem stored_allOrNothing_iff (ordered : RowsOrdered manager.schema layer.primary)
    {gone evicted : List Row} (gone_mem : ∀ row ∈ gone, row ∈ layer.primary)
    (gone_other : ∀ row ∈ gone, manager.isSelfKey ⟨manager.schema.primaryKeyFromRow newRow, target⟩
      (manager.schema.primaryKeyFromRow row) = false) (gone_nodup : gone.Nodup)
    (reported : evicted.Perm gone) {after : Layer}
    (rows : after.primary.Perm (newRow :: layer.primary.filter fun row => row ∉ gone ∧
      manager.isSelfKey ⟨manager.schema.primaryKeyFromRow newRow, target⟩
        (manager.schema.primaryKeyFromRow row) = false))
    (replaced_eq : replaced.toList = layer.primary.filter (manager.keyReplaced newRow target)) :
    manager.AllOrNothing layer newRow target onConflict
      (after, .ok (some newRow) replaced evicted) ↔
      ∀ row ∈ layer.primary, row ∈ gone ↔ manager.replaceConflict newRow target onConflict
        row = true := by
  have own_kept : ∀ row, manager.isSelfKey ⟨manager.schema.primaryKeyFromRow newRow, target⟩
      (manager.schema.primaryKeyFromRow row) = true →
        manager.replaceConflict newRow target onConflict row = false := by
    intro row own
    rw [replaceConflict, own]
    rfl
  constructor
  · rintro ⟨-, contract, -⟩ row member
    cases own : manager.isSelfKey ⟨manager.schema.primaryKeyFromRow newRow, target⟩
        (manager.schema.primaryKeyFromRow row) with
    | true =>
      rw [own_kept row own]
      refine ⟨fun isGone => ?_, nofun⟩
      rw [gone_other row isGone] at own
      cases own
    | false =>
      have distinct : row ≠ newRow := by
        rintro rfl
        have same : manager.schema.comparePrimaryKeys (manager.schema.primaryKeyFromRow row)
          (manager.schema.primaryKeyFromRow row) = .eq := Std.ReflCmp.compare_self
        simp [isSelfKey, same] at own
      have stays := (rows.symm.trans contract).mem_iff (a := row)
      simp only [mem_cons, distinct, false_or, mem_filter, member, own, true_and,
        decide_eq_true_eq, and_true, Bool.not_false, Bool.true_and, Bool.not_eq_true'] at stays
      rw [← not_iff_not, stays, Bool.not_eq_true]
  · intro exact
    have kept : (layer.primary.filter fun row => row ∉ gone ∧
        manager.isSelfKey ⟨manager.schema.primaryKeyFromRow newRow, target⟩
          (manager.schema.primaryKeyFromRow row) = false) =
        layer.primary.filter fun row =>
          !manager.isSelfKey ⟨manager.schema.primaryKeyFromRow newRow, target⟩
            (manager.schema.primaryKeyFromRow row) &&
          !manager.replaceConflict newRow target onConflict row := by
      refine filter_congr fun row member => ?_
      rw [Bool.eq_iff_iff]
      simp [exact row member, and_comm]
    refine ⟨rfl, kept ▸ rows, ?_⟩
    have distinct : (replaced.toList ++ evicted).Nodup := by
      rw [replaced_eq]
      refine (ordered.nodup.filter _).append (reported.nodup_iff.mpr gone_nodup) ?_
      intro row inReplaced inEvicted
      have own := (Bool.and_eq_true_iff.mp (mem_filter.mp inReplaced).2).1
      have other := gone_other row (reported.mem_iff.mp inEvicted)
      rw [isSelfKey, own] at other
      cases other
    rw [perm_ext_iff_of_nodup distinct (ordered.nodup.filter _)]
    intro row
    rw [mem_append, replaced_eq, reported.mem_iff, mem_filter, mem_filter,
      Bool.or_eq_true, and_or_left]
    refine or_congr Iff.rfl ⟨fun isGone => ?_, fun both => (exact row both.1).mpr both.2⟩
    exact ⟨gone_mem row isGone, (exact row (gone_mem row isGone)).mp isGone⟩

theorem ReplacesAll.checksClean (all : manager.ReplacesAll layer newRow self target onConflict)
    (passes : Passes (manager.rulesOf layer newRow self onConflict)) :
    manager.ChecksClean layer newRow self target onConflict := by
  refine .inr ⟨passes, fun row member => ?_⟩
  rw [mem_displaced_iff_of_settled all.settled, replaceConflict, Bool.and_eq_true, any_eq_true,
    Bool.not_eq_true']
  simp only [rulesOf, mem_map, ruleOf, exists_exists_and_eq_and, decide_eq_true_eq,
    mem_filter, member,
    true_and, Bool.and_eq_true]
  constructor
  · rintro ⟨uc, inSchema, replaces, finds⟩
    obtain ⟨foreign, conflict⟩ := (all.finds uc inSchema replaces row member).mp finds
    exact ⟨foreign, uc, inSchema, replaces, conflict⟩
  · rintro ⟨foreign, uc, inSchema, replaces, conflict⟩
    exact ⟨uc, inSchema, replaces, (all.finds uc inSchema replaces row member).mpr
      ⟨foreign, conflict⟩⟩

variable (consistent : layer.Consistent manager.schema)

include consistent

/-- The checks of a write on a consistent layer. -/
theorem checks_run (newRow : Row) (self : UniqueCheckSelf)
    (onConflict : Option ConflictResolution) :
    let checked := manager.checkUniqueConstraints layer.primary newRow self onConflict
      manager.schema.uniqueConstraints layer []
    let outcome := run (manager.rulesOf layer newRow self onConflict) []
    manager.Checking layer.primary self checked.layer ∧
      checked.layer.primary = layer.primary.filter (· ∉ outcome.2) ∧
      checked.evicted.Perm outcome.2 ∧ checked.result.isSome = outcome.1 ∧
      ∀ row replaced evicted, checked.result ≠ some (.ok (some row) replaced evicted) := by
  have invariant := checkInvariant_of_consistent consistent newRow self onConflict
    manager.schema.uniqueConstraints
  have none_gone : layer.primary = layer.primary.filter (· ∉ ([] : List Row)) := by simp
  obtain ⟨⟨checking, -⟩, rows, reported, stopped, ends⟩ := invariant.run consistent.ordered
    (fun _ member => member) ⟨Checking.start consistent self, rfl⟩ none_gone (Perm.refl [])
  refine ⟨checking, rows, reported, stopped, fun row replaced evicted ended => ?_⟩
  obtain ⟨uc, -, conflicts, ⟨-, skips⟩ | ⟨-, existing, -, fails⟩⟩ := ends _ ended
  · cases skips
  · cases fails

/-- The rest of a write after its checks is all or nothing exactly when the checks are
clean, provided it stores the new row in place of the rows at its keys. -/
theorem checked_allOrNothing_iff (same_self : ∀ key, manager.isSelfKey self key =
      manager.isSelfKey ⟨manager.schema.primaryKeyFromRow newRow, target⟩ key)
    (replaced_eq : replaced.toList = layer.primary.filter (manager.keyReplaced newRow target))
    (store : Layer → Layer) (stores : ∀ current, RowsOrdered manager.schema current.primary →
      (store current).primary.Perm (newRow :: current.primary.filter fun row =>
        manager.isSelfKey ⟨manager.schema.primaryKeyFromRow newRow, target⟩
          (manager.schema.primaryKeyFromRow row) = false)) :
    let checked := manager.checkUniqueConstraints layer.primary newRow self onConflict
      manager.schema.uniqueConstraints layer []
    manager.AllOrNothing layer newRow target onConflict
        (match checked.result with
        | some result => (checked.layer, result)
        | none => (store checked.layer, .ok (some newRow) replaced checked.evicted)) ↔
      manager.ChecksClean layer newRow self target onConflict := by
  intro checked
  obtain ⟨checking, rows, reported, stopped, ends⟩ := checks_run consistent newRow self onConflict
  unfold ChecksClean
  by_cases passes : Passes (manager.rulesOf layer newRow self onConflict)
  · rw [run_of_passes passes] at rows reported stopped
    have gone_mem : ∀ row ∈ Displacement.displaced (manager.rulesOf layer newRow self onConflict),
        row ∈ layer.primary ∧
          manager.isSelfKey self (manager.schema.primaryKeyFromRow row) = false := by
      intro row gone
      obtain ⟨rule, member, -, conflict⟩ := exists_of_mem_displaced gone
      exact mem_conflicts member conflict
    have gone_nodup :
        (Displacement.displaced (manager.rulesOf layer newRow self onConflict)).Nodup := by
      refine nodup_displaced fun rule member => ?_
      obtain ⟨uc, -, rfl⟩ := mem_map.mp member
      exact consistent.ordered.nodup.filter _
    have passed : checked.result = none := Option.isSome_eq_false_iff.mp stopped |>
      Option.isNone_iff_eq_none.mp
    have stored := stores checked.layer checking.consistent.ordered
    rw [rows, filter_filter] at stored
    rw [passed]
    simp only [passes, true_and, not_stopsAtOnce_of_passes passes, false_or]
    refine stored_allOrNothing_iff consistent.ordered (fun row gone => (gone_mem row gone).1)
      (fun row gone => same_self _ ▸ (gone_mem row gone).2) gone_nodup reported ?_ replaced_eq
    refine stored.trans (Perm.of_eq (congrArg _ (filter_congr fun row _ => ?_)))
    simp [and_comm]
  · obtain ⟨isStopped, clean⟩ := run_stops_clean passes
    obtain ⟨result, ended⟩ := Option.isSome_iff_exists.mp (stopped.trans isStopped)
    have unchanged : checked.layer.primary = layer.primary ↔
        StopsAtOnce (manager.rulesOf layer newRow self onConflict) := by
      rw [rows, ← clean, filter_eq_self, eq_nil_iff_forall_not_mem]
      refine ⟨fun kept row gone => ?_, fun none_gone row _ => by simpa using none_gone row⟩
      obtain ⟨rule, member, conflict⟩ := exists_of_mem_run gone
      simpa [gone] using kept row (mem_conflicts member conflict).1
    rw [show checked.result = some result from ended]
    simp only [passes, false_and, or_false]
    rw [← unchanged]
    match result, ends with
    | .ok (some row) replaced evicted, ends => exact absurd ended (ends row replaced evicted)
    | .ok none _ _, _ | .constraint _ _ _, _ | .error _, _ => exact Iff.rfl

omit consistent

theorem keyConflict_eq_none {key : Key} (message : String) :
    manager.keyConflict (layer.lookupEffectiveRow manager.schema key) onConflict message = none ↔
      manager.keyFree layer key onConflict := by
  unfold keyConflict keyFree
  cases layer.lookupEffectiveRow manager.schema key with
  | none => simp
  | some row =>
    rw [Option.bind_some, resolvePkConflict]
    split <;> simp_all

/-- A write that its key ends changes nothing. -/
theorem allOrNothing_of_keyConflict {key : Key} {message : String} {result : UpdateResult}
    {clean : Prop}
    (ended : manager.keyConflict (layer.lookupEffectiveRow manager.schema key) onConflict message =
      some result) :
    manager.AllOrNothing layer newRow target onConflict (layer, result) ↔
      (manager.keyFree layer key onConflict → clean) := by
  refine iff_of_true ?_ fun free => ?_
  · obtain ⟨row, -, resolved⟩ := Option.bind_eq_some_iff.mp ended
    unfold resolvePkConflict at resolved
    split at resolved <;> cases resolved <;> rfl
  · rw [(keyConflict_eq_none _).mpr free] at ended
    cases ended

/-- Storing a row leaves the rows at other keys. -/
theorem recordUpsert_perm (ordered : RowsOrdered manager.schema current.primary) (key : Key)
    (newRow : Row) (oldRow : Option Row) :
    (current.recordUpsert manager.schema key newRow oldRow).primary.Perm
      (newRow :: current.primary.filter fun row => manager.schema.comparePrimaryKeys
        (manager.schema.primaryKeyFromRow newRow) (manager.schema.primaryKeyFromRow row) ≠
          .eq) := by
  refine (ordered.upsert_perm newRow).trans (Perm.of_eq (congrArg _ ?_))
  refine filter_congr fun row _ => ?_
  rw [Bool.eq_iff_iff, bne_iff_ne, decide_eq_true_eq, ne_eq, ne_eq,
    manager.schema.comparePrimaryKeys_comm]

/-- Moving a row leaves the rows at other keys than its old and its new one. -/
theorem relocate_perm (ordered : RowsOrdered manager.schema current.primary) (oldPrimaryKey : Key)
    (oldRow newRow : Row) (existing : Option Row) :
    (((current.clearKey manager.schema (manager.schema.primaryKeyFromRow newRow)
      existing).recordDelete
        manager.schema oldPrimaryKey oldRow).recordUpsert manager.schema
          (manager.schema.primaryKeyFromRow newRow) newRow none).primary.Perm
      (newRow :: current.primary.filter fun row =>
        manager.isSelfKey ⟨manager.schema.primaryKeyFromRow newRow, some oldPrimaryKey⟩
          (manager.schema.primaryKeyFromRow row) = false) := by
  have deleted_ordered : RowsOrdered manager.schema
      ((current.clearKey manager.schema (manager.schema.primaryKeyFromRow newRow)
        existing).recordDelete
        manager.schema oldPrimaryKey oldRow).primary := by
    refine KeyTree.Ordered.erase ?_ oldPrimaryKey
    cases existing with
    | none => exact ordered
    | some row => exact KeyTree.Ordered.erase ordered _
  refine (recordUpsert_perm deleted_ordered _ newRow none).trans (Perm.cons newRow ?_)
  rw [perm_ext_iff_of_nodup (deleted_ordered.nodup.filter _) (ordered.nodup.filter _)]
  intro row
  simp only [mem_filter, Layer.recordDelete, KeyTree.mem_erase, decide_eq_true_eq,
    isSelfKey_eq_false, Option.some.injEq, forall_eq', ne_eq,
    manager.schema.comparePrimaryKeys_comm (manager.schema.primaryKeyFromRow newRow)]
  constructor
  · rintro ⟨⟨member, not_old⟩, not_new⟩
    exact ⟨(mem_clearKey_of_ne current existing not_new).mp member, not_new, not_old⟩
  · rintro ⟨member, not_new, not_old⟩
    exact ⟨⟨(mem_clearKey_of_ne current existing not_new).mpr member, not_old⟩, not_new⟩

theorem toList_lookup (ordered : RowsOrdered manager.schema layer.primary) (key : Key) :
    (layer.lookupEffectiveRow manager.schema key).toList = layer.primary.filter fun row =>
      manager.schema.comparePrimaryKeys key (manager.schema.primaryKeyFromRow row) == .eq := by
  refine (ordered.toList_find key).trans (filter_congr fun row _ => ?_)
  rw [Bool.eq_iff_iff, beq_iff_eq, beq_iff_eq, manager.schema.comparePrimaryKeys_comm]

include consistent

theorem performInsert_allOrNothing_iff :
    manager.AllOrNothing layer newRow none onConflict
      (manager.performInsert layer newRow onConflict) ↔
      manager.InsertClean layer newRow onConflict := by
  unfold performInsert InsertClean
  simp only
  split
  · next ended => exact allOrNothing_of_keyConflict ended
  · next free =>
    simp only [(keyConflict_eq_none _).mp free, true_imp_iff]
    refine checked_allOrNothing_iff consistent (fun _ => rfl) ?_
      (fun current => current.recordUpsert _ _ newRow _) fun current ordered => ?_
    · refine (toList_lookup consistent.ordered _).trans (filter_congr fun row _ => ?_)
      simp [keyReplaced]
    · refine (recordUpsert_perm ordered _ newRow _).trans (Perm.of_eq ?_)
      simp [isSelfKey]

theorem performUpdateWithPrimaryKeyChange_allOrNothing_iff {oldPrimaryKey : Key}
    (moves : manager.schema.comparePrimaryKeys oldPrimaryKey
      (manager.schema.primaryKeyFromRow newRow) ≠ .eq) :
    manager.AllOrNothing layer newRow (some oldPrimaryKey) onConflict
        (manager.performUpdateWithPrimaryKeyChange layer oldPrimaryKey
          (manager.schema.primaryKeyFromRow newRow) oldRow newRow onConflict) ↔
      (manager.keyFree layer (manager.schema.primaryKeyFromRow newRow) onConflict →
        manager.ChecksClean layer newRow
          ⟨manager.schema.primaryKeyFromRow newRow, some oldPrimaryKey⟩ (some oldPrimaryKey)
          onConflict) := by
  unfold performUpdateWithPrimaryKeyChange
  simp only
  split
  · next ended => exact allOrNothing_of_keyConflict ended
  · next free =>
    simp only [(keyConflict_eq_none _).mp free, true_imp_iff]
    refine checked_allOrNothing_iff consistent (fun _ => rfl) ?_
      (fun current => ((current.clearKey _ _ _).recordDelete _ oldPrimaryKey oldRow).recordUpsert
        _ _
        newRow none) fun current ordered => ?_
    · refine (toList_lookup consistent.ordered _).trans (filter_congr fun row _ => ?_)
      rw [Bool.eq_iff_iff, keyReplaced, Bool.and_eq_true, beq_iff_eq]
      refine ⟨fun same => ⟨same, ?_⟩, And.left⟩
      simpa [← Std.TransCmp.congr_right same] using moves
    · exact relocate_perm ordered _ oldRow newRow _

theorem performUpdateInPlace_allOrNothing_iff {targetPrimaryKey : Key}
    (stays : manager.schema.comparePrimaryKeys targetPrimaryKey
      (manager.schema.primaryKeyFromRow newRow) = .eq) :
    manager.AllOrNothing layer newRow (some targetPrimaryKey) onConflict
        (manager.performUpdateInPlace layer targetPrimaryKey oldRow newRow onConflict) ↔
      (if uniqueColumnsChanged manager.schema.uniqueConstraints oldRow newRow
          (manager.predicateColumns layer) then
        manager.ChecksClean layer newRow ⟨targetPrimaryKey, none⟩ (some targetPrimaryKey) onConflict
      else ∀ row ∈ layer.primary,
        manager.replaceConflict newRow (some targetPrimaryKey) onConflict row = false) := by
  have own :
    ∀ key, manager.isSelfKey ⟨manager.schema.primaryKeyFromRow newRow, some targetPrimaryKey⟩
      key = (manager.schema.comparePrimaryKeys (manager.schema.primaryKeyFromRow newRow)
        key == .eq) := by
    simp [isSelfKey, Std.TransCmp.congr_left stays]
  have none_replaced : (none : Option Row).toList =
      layer.primary.filter (manager.keyReplaced newRow (some targetPrimaryKey)) := by
    simp [keyReplaced, Std.TransCmp.congr_left stays]
  have stores : ∀ current : Layer, RowsOrdered manager.schema current.primary →
      (current.recordUpsert manager.schema targetPrimaryKey newRow (some oldRow)).primary.Perm
        (newRow :: current.primary.filter fun row =>
          manager.isSelfKey ⟨manager.schema.primaryKeyFromRow newRow, some targetPrimaryKey⟩
            (manager.schema.primaryKeyFromRow row) = false) := by
    intro current ordered
    refine (recordUpsert_perm ordered _ newRow _).trans (Perm.of_eq ?_)
    simp [own]
  unfold performUpdateInPlace
  cases uniqueColumnsChanged manager.schema.uniqueConstraints oldRow newRow
      (manager.predicateColumns layer) with
  | true =>
    refine checked_allOrNothing_iff consistent (fun key => ?_) none_replaced _ stores
    rw [own, isSelfKey, Std.TransCmp.congr_left stays]
    simp
  | false =>
    -- The gate found no change, so nothing was displaced.
    refine (stored_allOrNothing_iff consistent.ordered (forall_mem_nil _) (forall_mem_nil _)
      nodup_nil (Perm.refl []) ?_ none_replaced).trans ?_
    · simpa using stores layer consistent.ordered
    · simp

end Writes

/-- A table whose first constraint replaces and whose second aborts. -/
def mixedSchema : TableSchema where
  name := "t"
  columns := [⟨"k", plainType, "BINARY", none⟩, ⟨"u", plainType, "BINARY", none⟩,
    ⟨"v", plainType, "BINARY", none⟩]
  primaryKeyDefinition := [⟨0, false, none⟩]
  primaryKeyDefaultConflict := none
  uniqueConstraints := [⟨none, [1], none, some .replace, none⟩, ⟨none, [2], none, none, none⟩]
  indexes := []
  collationResolver _ := BINARY_COLLATION

def mixedManager : TableManager :=
  .viewless mixedSchema fun _ => none

/-- A row of three texts of one character each. -/
def mixedRow (k u v : UInt16) : Row :=
  [⟨.string [k], rfl⟩, ⟨.string [u], rfl⟩, ⟨.string [v], rfl⟩]

def mixedLayer : Layer where
  primary := [mixedRow 97 120 112, mixedRow 98 121 113]
  secondaryIndexes := []

theorem mixedLayer_consistent : mixedLayer.Consistent mixedManager.schema where
  ordered := pairwise_pair.mpr rfl
  exact _ member := nomatch member

end TableManager

end Quereus.Memory
