import Mathlib.Data.List.Zip
import Quereus.Memory.ConflictRules

/-! # Constraints and the structures that enforce them

A constraint is enforced through the index made for it, through an index that can
stand in for it, through a view or by scanning. Under the assumptions below,
which the schema builder and the built-in types provide, every structure finds
each row that conflicts with the written one.
-/

namespace Quereus.Memory

open List TableSchema Comparator

/-- Every cell is of its column's type. -/
def RowValid (schema : TableSchema) (row : Row) : Prop :=
  ∀ column, (schema.typeAt column).validate (cellAt row column) = true

/-- Every cell of a primary key is of its column's type. -/
def KeyValid (schema : TableSchema) (key : Key) : Prop :=
  List.Forall₂ (fun column cell => (schema.typeAt column.index).validate cell = true)
    schema.primaryKeyDefinition key

theorem RowValid.key {schema : TableSchema} {row : Row} (valid : RowValid schema row) :
    KeyValid schema (schema.primaryKeyFromRow row) := by
  unfold KeyValid primaryKeyFromRow keyOf
  rw [forall₂_map_right_iff, forall₂_same]
  exact fun column _ => valid column.index

namespace TableSchema

variable {schema : TableSchema} {columns : List Nat} {collations : List String}

variable {first second : Row} {column : Nat}

theorem agreeOn_iff :
    schema.agreeOn columns collations first second = true ↔
      ∀ pair ∈ columns.zip collations, schema.enforcementComparator pair.1 pair.2
        (cellAt first pair.1) (cellAt second pair.1) = .eq := by
  unfold agreeOn
  rw [all_eq_true]
  exact forall₂_congr fun _ _ => beq_iff_eq

variable (agree : schema.agreeOn columns collations first second = true)

include agree

theorem agreeOn_symm : schema.agreeOn columns collations second first = true :=
  agreeOn_iff.mpr fun pair member => Std.OrientedCmp.eq_symm (agreeOn_iff.mp agree pair member)

theorem agreeOn_trans {third : Row}
    (further : schema.agreeOn columns collations second third = true) :
    schema.agreeOn columns collations first third = true :=
  agreeOn_iff.mpr fun pair member =>
    Std.TransCmp.eq_trans (agreeOn_iff.mp agree pair member) (agreeOn_iff.mp further pair member)

omit agree

@[simp] theorem length_uniqueEnforcementCollations (uc : UniqueConstraint) :
    (schema.uniqueEnforcementCollations uc).length = uc.columns.length := by
  simp [uniqueEnforcementCollations]

variable {uc : UniqueConstraint}

/-- A constraint that no index was made for is enforced under the declared collations. -/
theorem uniqueEnforcementCollations_of_none (plain : uc.derivedFromIndex = none) :
    schema.uniqueEnforcementCollations uc = uc.columns.map schema.collationAt := by
  unfold uniqueEnforcementCollations
  simp only [plain, Option.bind_none, Option.getD_none]
  have fst : (fun pair : Nat × Nat => schema.collationAt pair.1) = schema.collationAt ∘
    Prod.fst := rfl
  rw [fst, ← map_map, zipIdx_map_fst]

theorem exists_mem_zip (schema : TableSchema) (member : column ∈ uc.columns) :
    ∃ collation, (column, collation) ∈ uc.columns.zip (schema.uniqueEnforcementCollations uc) := by
  have firsts : (uc.columns.zip (schema.uniqueEnforcementCollations uc)).map Prod.fst =
      uc.columns :=
    map_fst_zip (length_uniqueEnforcementCollations uc).ge
  rw [← firsts] at member
  obtain ⟨⟨same, collation⟩, inZip, rfl⟩ := mem_map.mp member
  exact ⟨collation, inZip⟩

/-- Rows that agree are NULL in the same constrained columns. -/
theorem isNull_eq_of_agreeOn
    (agree : schema.agreeOn uc.columns (schema.uniqueEnforcementCollations uc) first second = true)
    (member : column ∈ uc.columns) :
    (cellAt first column).isNull = (cellAt second column).isNull := by
  obtain ⟨collation, inZip⟩ := exists_mem_zip schema member
  have same := agreeOn_iff.mp agree _ inZip
  unfold enforcementComparator at same
  split at same
  · exact isNull_eq_of_typed same
  · exact isNull_eq_of_compareCells same

end TableSchema

namespace TableManager

variable {manager : TableManager} {uc : UniqueConstraint}

variable {row : Row} {spec : IndexSchema}

variable {newRow : Row} {self : UniqueCheckSelf}

theorem conflictsUnder_iff : manager.conflictsUnder uc newRow row = true ↔
    (∀ column ∈ uc.columns, (cellAt newRow column).isNull = false) ∧
      inScope uc.predicate newRow = true ∧ inScope uc.predicate row = true ∧
      manager.schema.agreeOn uc.columns (manager.schema.uniqueEnforcementCollations uc) newRow row =
        true := by
  simp [conflictsUnder, and_assoc]

variable {first second : Row}

theorem conflictsUnder_symm (conflict : manager.conflictsUnder uc first second = true) :
    manager.conflictsUnder uc second first = true := by
  obtain ⟨nonnull, first_in, second_in, agree⟩ := conflictsUnder_iff.mp conflict
  refine conflictsUnder_iff.mpr ⟨fun column member => ?_, second_in, first_in, agreeOn_symm agree⟩
  rw [← isNull_eq_of_agreeOn agree member, nonnull column member]

theorem conflictsUnder_trans {third : Row}
    (conflict : manager.conflictsUnder uc first second = true)
    (further : manager.conflictsUnder uc second third = true) :
    manager.conflictsUnder uc first third = true := by
  obtain ⟨nonnull, first_in, -, agree⟩ := conflictsUnder_iff.mp conflict
  obtain ⟨-, -, third_in, agree'⟩ := conflictsUnder_iff.mp further
  exact conflictsUnder_iff.mpr ⟨nonnull, first_in, third_in, agreeOn_trans agree agree'⟩

/-- An index over the constrained columns, each under the collation the constraint is
enforced under, with the constraint's scope. -/
structure Realized (manager : TableManager) (uc : UniqueConstraint)
    (spec : IndexSchema) : Prop where
  columns : spec.columns.map (fun column => (column.index, column.collation)) =
    (uc.columns.zip (manager.schema.uniqueEnforcementCollations uc)).map (Prod.map id some)
  scope : ∀ row, inScope spec.predicate row = inScope uc.predicate row

/-- What the schema builder provides: an index resolved by a constraint's name
realizes that constraint. -/
structure Realizes (manager : TableManager) : Prop where
  named : (manager.schema.indexes.map IndexSchema.name).Nodup
  collated : ∀ spec ∈ manager.schema.indexes, ∀ column ∈ spec.columns, column.collation.isSome
  derived : ∀ uc ∈ manager.schema.uniqueConstraints, ∀ name, uc.derivedFromIndex = some name →
    ∃ spec ∈ manager.schema.indexes, spec.name = name ∧ manager.Realized uc spec
  implicit : ∀ uc ∈ manager.schema.uniqueConstraints, ∀ name,
    manager.getImplicitCoveringStructure uc = some name →
      ∀ spec ∈ manager.schema.indexes, spec.name = name → manager.Realized uc spec

/-- What the types and collations provide on values in declared form: the comparator
of an index column and that of the constraint call the same values equal. -/
structure Aligned (schema : TableSchema) : Prop where
  binary : schema.collationResolver "BINARY" = BINARY_COLLATION
  indexed : ∀ spec ∈ schema.indexes, ∀ column ∈ spec.columns, ∀ name, column.collation = some name →
    ∀ a b, (schema.typeAt column.index).validate a = true →
      (schema.typeAt column.index).validate b = true →
      (createTypedComparator (schema.typeAt column.index)
        (some (schema.collationResolver name)) a b = .eq ↔
        schema.enforcementComparator column.index name a b = .eq)
  keyed : ∀ column ∈ schema.primaryKeyDefinition,
    ∀ a b, (schema.typeAt column.index).validate a = true →
      (schema.typeAt column.index).validate b = true →
      schema.enforcementComparator column.index (column.collation.getD "BINARY") a b = .eq →
      createTypedComparator (schema.typeAt column.index)
        (column.collation.map schema.collationResolver)
        a b = .eq
  finest : ∀ column, hasSemanticOrdering (schema.typeAt column) = true → ∀ collation a b,
    createTypedComparator (schema.typeAt column) (some BINARY_COLLATION) a b = .eq →
      createTypedComparator (schema.typeAt column) (some collation) a b = .eq

variable (realized : manager.Realized uc spec) (aligned : Aligned manager.schema)

include realized

theorem Realized.mem_zip_iff {pair : Nat × String} :
    pair ∈ uc.columns.zip (manager.schema.uniqueEnforcementCollations uc) ↔
      ∃ column ∈ spec.columns, column.index = pair.1 ∧ column.collation = some pair.2 := by
  have injective : Function.Injective (Prod.map id some : Nat × String → Nat × Option String) :=
    Function.injective_id.prodMap (Option.some_injective _)
  rw [← mem_map_of_injective injective, ← realized.columns]
  simp [Prod.ext_iff]

theorem Realized.exists_collation {column : KeyColumn} (member : column ∈ spec.columns) :
    ∃ name, column.collation = some name := by
  have mapped := mem_map_of_mem (f := fun column => (column.index, column.collation)) member
  rw [realized.columns, mem_map] at mapped
  obtain ⟨pair, -, same⟩ := mapped
  exact ⟨pair.2, (congrArg Prod.snd same).symm⟩

theorem Realized.indexCollations_eq :
    manager.indexCollations spec uc = manager.schema.uniqueEnforcementCollations uc := by
  refine ext_getElem (by simp [indexCollations]) fun position inIndex inEnforced => ?_
  have inColumns : position < uc.columns.length := by simpa using inEnforced
  have zipped : (uc.columns.zip (manager.schema.uniqueEnforcementCollations uc))[position]? =
      some (uc.columns[position], (manager.schema.uniqueEnforcementCollations uc)[position]) := by
    rw [getElem?_eq_getElem (by simpa using inColumns), getElem_zip]
  have here := congrArg (fun list => list[position]?) realized.columns
  simp only [getElem?_map, zipped, Option.map_some, Option.map_eq_some_iff] at here
  obtain ⟨column, found, same⟩ := here
  have collation : column.collation = some _ := congrArg Prod.snd same
  simp [indexCollations, found, collation]

omit realized

include aligned in
/-- Rows in declared form have one key in the index exactly when they agree. -/
theorem Realized.compareKeys_eq_iff {index : MemoryIndex}
    (inSchema : index.spec ∈ manager.schema.indexes) (realized : manager.Realized uc index.spec)
    (first_valid : RowValid manager.schema first) (second_valid : RowValid manager.schema second) :
    index.compareKeys manager.schema (index.keyFromRow first) (index.keyFromRow second) = .eq ↔
      manager.schema.agreeOn uc.columns (manager.schema.uniqueEnforcementCollations uc)
        first second =
        true := by
  unfold MemoryIndex.compareKeys compareKeyTuples MemoryIndex.keyFromRow keyOf
  rw [tuple_map_eq_eq, agreeOn_iff]
  constructor
  · intro equal pair member
    obtain ⟨column, inIndex, same, collation⟩ := realized.mem_zip_iff.mp member
    have typed := directed_eq_eq.mp (equal column inIndex)
    rw [collation] at typed
    rw [← same]
    exact (aligned.indexed _ inSchema column inIndex _ collation _ _ (first_valid _)
      (second_valid _)).mp typed
  · intro agree column inIndex
    obtain ⟨name, collation⟩ := realized.exists_collation inIndex
    refine directed_eq_eq.mpr ?_
    rw [collation]
    refine (aligned.indexed _ inSchema column inIndex _ collation _ _ (first_valid _)
      (second_valid _)).mpr ?_
    exact agree (column.index, name) (realized.mem_zip_iff.mpr ⟨column, inIndex, rfl, collation⟩)

section Found

variable {layer : Layer} {index : MemoryIndex} {spec : IndexSchema} (realizes : manager.Realizes)
  (specs : layer.specs = manager.schema.indexes) (member : uc ∈ manager.schema.uniqueConstraints)

include specs

include realizes in
/-- An index of the layer is that of the schema with its name. -/
theorem Realizes.spec_eq {name : String} (found : layer.getSecondaryIndex name = some index)
    (inSchema : spec ∈ manager.schema.indexes) (named : spec.name = name) : index.spec = spec := by
  have inSpecs := Layer.spec_getSecondaryIndex layer name
  rw [found, specs] at inSpecs
  have member := mem_of_find?_eq_some inSpecs.symm
  have same : index.spec.name = name := by simpa using find?_some inSpecs.symm
  exact inj_on_of_nodup_map realizes.named member inSchema (same.trans named.symm)

theorem mem_specs (inLayer : index ∈ layer.secondaryIndexes) :
    index.spec ∈ manager.schema.indexes :=
  specs ▸ mem_map_of_mem inLayer

include realizes member

/-- A constraint made for an index has that index. -/
theorem Realizes.plain_of_ownIndex (missing : manager.ownIndex layer uc = none) :
    uc.derivedFromIndex = none := by
  cases derived : uc.derivedFromIndex with
  | none => rfl
  | some name =>
    obtain ⟨spec, inSchema, rfl, -⟩ := realizes.derived uc member name derived
    have inSpecs := Layer.spec_getSecondaryIndex layer spec.name
    simp only [TableManager.ownIndex, derived] at missing
    rw [specs, missing, Option.map_none, eq_comm, find?_eq_none] at inSpecs
    exact absurd (by simp) (inSpecs spec inSchema)

theorem Realizes.ownIndex (found : manager.ownIndex layer uc = some index) :
    manager.Realized uc index.spec := by
  unfold TableManager.ownIndex at found
  cases derived : uc.derivedFromIndex with
  | some name =>
    rw [derived] at found
    obtain ⟨spec, inSchema, named, realized⟩ := realizes.derived uc member name derived
    rw [realizes.spec_eq specs found inSchema named]
    exact realized
  | none =>
    rw [derived] at found
    obtain ⟨name, implicit, inLayer⟩ := Option.bind_eq_some_iff.mp found
    have inSpecs := Layer.spec_getSecondaryIndex layer name
    rw [inLayer, specs] at inSpecs
    exact realizes.implicit uc member name implicit index.spec
      (mem_of_find?_eq_some inSpecs.symm) (by simpa using find?_some inSpecs.symm)

omit specs member in
/-- An unfiltered index over a constraint's columns and declared collations realizes a
constraint that no index was made for. -/
theorem Realizes.reusable (inSchema : spec ∈ manager.schema.indexes)
    (plain : uc.derivedFromIndex = none) (unfiltered : uc.predicate = none)
    (spec_unfiltered : spec.predicate = none)
    (columns : spec.columns.map KeyColumn.index = uc.columns)
    (declared : manager.indexCollationsMatchDeclared spec uc = true) :
    manager.Realized uc spec where
  columns := by
    rw [uniqueEnforcementCollations_of_none plain, ← map_prod_left_eq_zip, map_map,
      ← columns, map_map]
    refine map_congr_left fun column member => ?_
    obtain ⟨name, collation⟩ := Option.isSome_iff_exists.mp
      (realizes.collated spec inSchema column member)
    obtain ⟨position, inSpec, rfl⟩ := getElem_of_mem member
    have inColumns : position < uc.columns.length := by simpa [← columns] using inSpec
    have here : uc.columns[position] = spec.columns[position].index := by simp [← columns]
    have enforced := congrArg (fun list => list[position]?) (of_decide_eq_true declared)
    simp only [indexCollations, getElem?_map, getElem?_zipIdx,
      getElem?_eq_getElem inColumns, getElem?_eq_getElem inSpec, Option.map_some,
      Option.bind_some, Nat.zero_add, collation, Option.getD_some, here] at enforced
    simp [collation, enforced]
  scope row := by rw [unfiltered, spec_unfiltered]

theorem Realizes.found
    (found : manager.findIndexForConstraint layer uc = some (.memoryIndex index)) :
    manager.Realized uc index.spec := by
  unfold findIndexForConstraint at found
  split at found
  · cases found
  · obtain ⟨same, inEither, equal⟩ := Option.map_eq_some_iff.mp found
    cases equal
    rcases Option.or_eq_some_iff.mp inEither with own | ⟨none_own, reused⟩
    · exact realizes.ownIndex specs member own
    · have plain := realizes.plain_of_ownIndex specs member none_own
      unfold reusableIndex at reused
      split at reused
      · cases reused
      · next unfiltered =>
        obtain ⟨spec, usable, inLayer⟩ := exists_of_findSome?_eq_some reused
        obtain ⟨inSchema, fits⟩ := mem_filter.mp usable
        simp only [Bool.and_eq_true, Option.isNone_iff_eq_none, decide_eq_true_eq] at fits
        rw [realizes.spec_eq specs inLayer inSchema rfl]
        exact realizes.reusable inSchema plain (by simpa using unfiltered) fits.1.1 fits.1.2 fits.2

/-- A constraint that is scanned for was not made for an index. -/
theorem Realizes.scanned
    (scanned : manager.findIndexForConstraint layer uc = none) : uc.derivedFromIndex = none := by
  unfold findIndexForConstraint at scanned
  split at scanned
  · cases scanned
  · rw [Option.map_eq_none_iff, Option.or_eq_none_iff] at scanned
    exact realizes.plain_of_ownIndex specs member scanned.1

end Found

include aligned

/-- Where a view answers for a constraint, rows that agree under the enforcement
collations agree under the declared ones. -/
theorem agreeOn_declared (honors : manager.coveringMvHonorsIndexCollation uc = true)
    (agree : manager.schema.agreeOn uc.columns (manager.schema.uniqueEnforcementCollations uc) first
      second = true) :
    manager.schema.agreeOn uc.columns (uc.columns.map manager.schema.collationAt) first
      second = true := by
  rw [agreeOn_iff, ← map_prod_left_eq_zip, forall_mem_map]
  intro column member
  obtain ⟨collation, inZip⟩ := exists_mem_zip manager.schema member
  have equal := agreeOn_iff.mp agree _ inZip
  have gate : collation = "BINARY" ∨ collation = manager.schema.collationAt column :=
    of_decide_eq_true (all_eq_true.mp honors _ inZip)
  rcases gate with rfl | rfl
  · simp only [enforcementComparator, aligned.binary] at equal ⊢
    split
    · next semantic =>
      rw [if_pos semantic] at equal
      exact aligned.finest column semantic _ _ _ equal
    · next plain =>
      rw [if_neg plain] at equal
      exact compareCells_eq_of_binary equal _
  · exact equal

theorem tuple_eq_of_enforced (row_valid : RowValid manager.schema row) {columns : List KeyColumn}
    {key : Key} (inKey : ∀ column ∈ columns, column ∈ manager.schema.primaryKeyDefinition)
    (key_valid : List.Forall₂
      (fun column cell => (manager.schema.typeAt column.index).validate cell = true) columns key)
    (enforced : ∀ pair ∈ columns.zip key, manager.schema.enforcementComparator pair.1.index
      (pair.1.collation.getD "BINARY") (cellAt row pair.1.index) pair.2 = .eq) :
    manager.schema.compareKeyTuples columns key (keyOf columns row) = .eq := by
  induction key_valid with
  | nil => rfl
  | @cons column cell columns key cell_valid _ ih =>
    rw [zip_cons_cons, forall_mem_cons] at enforced
    obtain ⟨here, rest⟩ := forall_mem_cons.mp inKey
    refine Ordering.then_eq_eq.mpr ⟨directed_eq_eq.mpr ?_, ih rest enforced.2⟩
    exact Std.OrientedCmp.eq_symm
      (aligned.keyed column here _ _ (row_valid _) cell_valid enforced.1)

omit aligned

/-- Whatever structure a check goes through, it finds every conflicting row. -/
theorem findsConflict_of_conflictsUnder (realizes : manager.Realizes)
    (aligned : Aligned manager.schema) {layer : Layer}
    (specs : layer.specs = manager.schema.indexes) (member : uc ∈ manager.schema.uniqueConstraints)
    (new_valid : RowValid manager.schema newRow) (row_valid : RowValid manager.schema row)
    (key_valid : KeyValid manager.schema self.key)
    (other : manager.isSelfKey self (manager.schema.primaryKeyFromRow row) = false)
    (conflict : manager.conflictsUnder uc newRow row = true) :
    manager.findsConflict (manager.findIndexForConstraint layer uc) uc newRow self row = true := by
  obtain ⟨nonnull, new_in, row_in, agree⟩ := conflictsUnder_iff.mp conflict
  have nulls : (uc.columns.any fun column => (cellAt newRow column).isNull) = false := by
    simpa using nonnull
  unfold findsConflict
  rw [nulls, other, Bool.not_false, Bool.true_and]
  cases found : manager.findIndexForConstraint layer uc with
  | none =>
    rw [uniqueEnforcementCollations_of_none (realizes.scanned specs member found)] at agree
    simp [row_in, agree]
  | some structure' =>
    cases structure' with
    | memoryIndex index =>
      have realized := realizes.found specs member found
      have inSchema := mem_specs specs (mem_of_findIndexForConstraint found)
      have same := (realized.compareKeys_eq_iff aligned inSchema new_valid row_valid).mpr agree
      simp [MemoryIndex.rowMatchesPredicate, realized.scope, realized.indexCollations_eq, new_in,
        row_in, agree, same]
    | materializedView =>
      have covered : manager.findRowTimeCoveringStructure uc = true := by
        by_contra uncovered
        rw [findIndexForConstraint, if_neg uncovered] at found
        obtain ⟨_, _, impossible⟩ := Option.map_eq_some_iff.mp found
        cases impossible
      have honors := (Bool.and_eq_true_iff.mp covered).2
      have foreign : manager.isOwnBackingRow self.key row = false := by
        rw [← Bool.not_eq_true]
        intro own
        have same : manager.schema.comparePrimaryKeys self.key
            (manager.schema.primaryKeyFromRow row) = .eq :=
          tuple_eq_of_enforced aligned row_valid (fun _ member => member) key_valid
            fun pair member =>
            beq_iff_eq.mp (all_eq_true.mp own pair member)
        simp [isSelfKey, same] at other
      simp [new_in, row_in, agree, agreeOn_declared aligned honors agree, foreign]

end TableManager

end Quereus.Memory
