import Quereus.Memory.Layer

/-! # What a secondary index lists

An index is described by `listed`: the primary key it holds under an index key
and a code. `Exact` says that the index lists the rows of a table, each in scope
row once and under its own code. It survives a write whose key has the code of
the row it names and of no other row.
-/

namespace Quereus.Memory

/-- The rows of a table are in primary-key order. -/
abbrev RowsOrdered (schema : TableSchema) (rows : List Row) : Prop :=
  KeyTree.Ordered schema.primaryKeyFromRow schema.comparePrimaryKeys rows

namespace MemoryIndex

variable (schema : TableSchema)

/-- The primary key listed under an index key with a code. -/
def listed (index : MemoryIndex) (indexKey : Key) (code : List ScalarCode) : Option Key :=
  PostingTree.lookup (index.compareKeys schema) index.data indexKey code

/-- The place in the index a row in scope belongs to. -/
def Place (index : MemoryIndex) (row : Row) (indexKey : Key) : Prop :=
  index.rowMatchesPredicate row = true ∧
    index.compareKeys schema indexKey (index.keyFromRow row) = .eq

instance (index : MemoryIndex) (row : Row) (indexKey : Key) :
    Decidable (index.Place schema row indexKey) :=
  inferInstanceAs (Decidable (_ ∧ _))

variable {schema} {index : MemoryIndex}

section Writes

@[simp] theorem recordDelete_spec (primaryKey : Key) (oldRow : Row) :
    (index.recordDelete schema primaryKey oldRow).spec = index.spec := by
  unfold recordDelete
  split <;> rfl

@[simp] theorem recordUpsert_spec (primaryKey : Key) (newRow : Row) (oldRow : Option Row) :
    (index.recordUpsert schema primaryKey newRow oldRow).spec = index.spec := by
  unfold recordUpsert
  repeat' split
  all_goals rfl

variable (wellFormed : PostingTree.WellFormed (index.compareKeys schema) index.data)

include wellFormed

variable (primaryKey : Key)

theorem wellFormed_recordDelete (oldRow : Row) : PostingTree.WellFormed (index.compareKeys schema)
      (index.recordDelete schema primaryKey oldRow).data := by
  unfold recordDelete
  split
  · exact wellFormed.remove _ _
  · exact wellFormed

theorem wellFormed_recordUpsert (newRow : Row) (oldRow : Option Row) :
    PostingTree.WellFormed (index.compareKeys schema)
      (index.recordUpsert schema primaryKey newRow oldRow).data := by
  unfold recordUpsert
  repeat' split
  all_goals first
    | exact wellFormed
    | exact wellFormed.remove _ _
    | exact wellFormed.add _ _ _
    | exact (wellFormed.remove _ _).add _ _ _

theorem listed_addEntry (key primaryKey indexKey : Key) (code : List ScalarCode) :
    (index.addEntry schema key primaryKey).listed schema indexKey code =
      if index.compareKeys schema indexKey key = .eq ∧ code = encodePrimaryKey primaryKey then
        some primaryKey
      else index.listed schema indexKey code :=
  wellFormed.lookup_add key (encodePrimaryKey primaryKey) primaryKey indexKey code

theorem listed_removeEntry (key primaryKey indexKey : Key) (code : List ScalarCode) :
    (index.removeEntry schema key primaryKey).listed schema indexKey code =
      if index.compareKeys schema indexKey key = .eq ∧ code = encodePrimaryKey primaryKey then none
      else index.listed schema indexKey code :=
  wellFormed.lookup_remove key (encodePrimaryKey primaryKey) indexKey code

theorem listed_recordDelete (oldRow : Row) (indexKey : Key) (code : List ScalarCode) :
    (index.recordDelete schema primaryKey oldRow).listed schema indexKey code =
      if index.Place schema oldRow indexKey ∧ code = encodePrimaryKey primaryKey then none
      else index.listed schema indexKey code := by
  unfold recordDelete
  split
  next matched =>
    rw [listed_removeEntry wellFormed]
    simp [Place, matched]
  next unmatched => rw [if_neg fun both => unmatched both.1.1]

/-- A write puts the new row's place under its code and clears the old row's place
under the same code. -/
theorem listed_recordUpsert (newRow : Row) (oldRow : Option Row) (indexKey : Key)
    (code : List ScalarCode) :
    (index.recordUpsert schema primaryKey newRow oldRow).listed schema indexKey code =
      if index.Place schema newRow indexKey ∧ code = encodePrimaryKey primaryKey then
        some primaryKey
      else if (∃ old, oldRow = some old ∧ index.Place schema old indexKey) ∧
          code = encodePrimaryKey primaryKey then none
      else index.listed schema indexKey code := by
  cases oldRow with
  | none =>
    unfold recordUpsert
    simp only
    split
    next matched =>
      rw [listed_addEntry wellFormed]
      simp [Place, matched]
    next unmatched => simp [Place, unmatched]
  | some old =>
    unfold recordUpsert
    simp only [Option.some.injEq, exists_eq_left']
    cases oldMatched : index.rowMatchesPredicate old <;>
      cases newMatched : index.rowMatchesPredicate newRow
    · simp [Place, oldMatched, newMatched]
    · rw [listed_addEntry wellFormed]
      simp [Place, oldMatched, newMatched]
    · rw [listed_removeEntry wellFormed]
      simp [Place, oldMatched, newMatched]
    · simp only
      split
      next =>
        rw [listed_addEntry (wellFormed.remove _ _)]
        simp only [Place, oldMatched, newMatched, true_and]
        refine if_congr Iff.rfl rfl ?_
        exact listed_removeEntry wellFormed _ _ _ _
      next same =>
        rw [listed_addEntry wellFormed]
        have equal := not_not.mp same
        simp only [Place, oldMatched, newMatched, true_and]
        split
        next => rfl
        next unplaced =>
          rw [if_neg]
          rwa [Std.TransCmp.congr_right equal]

omit wellFormed

theorem listed_congr (index : MemoryIndex) {first second : Key}
    (same : index.compareKeys schema first second = .eq) (code : List ScalarCode) :
    index.listed schema first code = index.listed schema second code := by
  unfold listed PostingTree.lookup
  rw [PostingTree.items_congr index.data same]

end Writes

variable {primaryKey : Key}

theorem mem_sortPrimaryKeys {primaryKeys : List (List ScalarCode × Key)} :
    primaryKey ∈ sortPrimaryKeys schema primaryKeys ↔ ∃ code, (code, primaryKey) ∈ primaryKeys := by
  unfold sortPrimaryKeys
  rw [List.mem_insertionSort, List.mem_map]
  exact ⟨fun ⟨entry, member, same⟩ => ⟨entry.1, same ▸ member⟩, fun ⟨code, member⟩ =>
    ⟨_, member, rfl⟩⟩

theorem mem_getPrimaryKeys
    (wellFormed : PostingTree.WellFormed (index.compareKeys schema) index.data) {indexKey : Key} :
    primaryKey ∈ index.getPrimaryKeys schema indexKey ↔
      ∃ code, index.listed schema indexKey code = some primaryKey := by
  rw [getPrimaryKeys, mem_sortPrimaryKeys]
  exact exists_congr fun code => wellFormed.lookup_eq_some.symm

/-- A key that names a row, spelled so that it has the row's code. -/
structure NamesRow (schema : TableSchema) (primaryKey : Key) (row : Row) : Prop where
  equal : schema.comparePrimaryKeys (schema.primaryKeyFromRow row) primaryKey = .eq
  code : encodePrimaryKey (schema.primaryKeyFromRow row) = encodePrimaryKey primaryKey

/-- The index lists every row in scope once, under the row's own code, and nothing
else. -/
structure Exact (schema : TableSchema) (index : MemoryIndex) (rows : List Row) : Prop where
  wellFormed : PostingTree.WellFormed (index.compareKeys schema) index.data
  sound : ∀ {indexKey : Key} {code : List ScalarCode} {primaryKey : Key},
    index.listed schema indexKey code = some primaryKey →
    ∃ row ∈ rows, index.Place schema row indexKey ∧ NamesRow schema primaryKey row ∧
      code = encodePrimaryKey primaryKey
  complete : ∀ row ∈ rows, index.rowMatchesPredicate row = true →
    ∃ primaryKey, index.listed schema (index.keyFromRow row)
        (encodePrimaryKey (schema.primaryKeyFromRow row)) = some primaryKey ∧
      NamesRow schema primaryKey row

variable {rows : List Row}

theorem Exact.recordDelete (exact : index.Exact schema rows) (ordered : RowsOrdered schema rows)
    {oldRow : Row} (member : oldRow ∈ rows) (names : NamesRow schema primaryKey oldRow) :
    (index.recordDelete schema primaryKey oldRow).Exact schema
      (KeyTree.erase schema.primaryKeyFromRow schema.comparePrimaryKeys rows primaryKey) where
  wellFormed := by
    have kept := wellFormed_recordDelete exact.wellFormed primaryKey oldRow
    rwa [compareKeys, recordDelete_spec]
  sound := by
    intro indexKey code found listed
    rw [listed_recordDelete exact.wellFormed] at listed
    split at listed
    · cases listed
    · next untouched =>
      obtain ⟨row, row_mem, place, row_named, row_code⟩ := exact.sound listed
      refine ⟨row, KeyTree.mem_erase.mpr ⟨row_mem, fun same => untouched ?_⟩, ?_,
        row_named, row_code⟩
      · cases (ordered.key_eq_iff member names.equal row_mem).mp same
        exact ⟨place, row_code.trans (row_named.code.symm.trans names.code)⟩
      · simpa [Place, rowMatchesPredicate, compareKeys, keyFromRow] using place
  complete := by
    intro row row_mem matched
    obtain ⟨old_mem, different⟩ := KeyTree.mem_erase.mp row_mem
    have matched' : index.rowMatchesPredicate row = true := by
      simpa [rowMatchesPredicate] using matched
    obtain ⟨found, listed, row_named⟩ := exact.complete row old_mem matched'
    refine ⟨found, ?_, row_named⟩
    have key_eq : (index.recordDelete schema primaryKey oldRow).keyFromRow row =
        index.keyFromRow row := by
      simp [keyFromRow]
    rw [key_eq, listed_recordDelete exact.wellFormed, if_neg]
    · exact listed
    · -- Two rows at one place with one code are the same row.
      rintro ⟨⟨old_matched, place⟩, code⟩
      obtain ⟨oldKey, old_listed, old_named⟩ := exact.complete oldRow member old_matched
      rw [listed_congr index place, code.trans names.code.symm, old_listed, Option.some.injEq]
        at listed
      subst listed
      have equal : row = oldRow := ordered.eq_of_key_eq old_mem member
        (Std.TransCmp.eq_trans row_named.equal (Std.OrientedCmp.eq_symm old_named.equal))
      exact different (equal ▸ names.equal)

/-- The conditions under which a write keeps its indexes exact: the key has the code
of the new row, of the row it replaces and of no other row. -/
structure CleanUpsert (schema : TableSchema) (rows : List Row) (primaryKey : Key) (newRow : Row)
    (oldRow : Option Row) : Prop where
  names_new : NamesRow schema primaryKey newRow
  names_old : ∀ old, oldRow = some old → old ∈ rows ∧ NamesRow schema primaryKey old
  fresh : ∀ row ∈ rows, oldRow ≠ some row →
    schema.comparePrimaryKeys (schema.primaryKeyFromRow row) primaryKey ≠ .eq ∧
      encodePrimaryKey (schema.primaryKeyFromRow row) ≠ encodePrimaryKey primaryKey

variable {newRow : Row} {oldRow : Option Row}

theorem CleanUpsert.mem_upsert (clean : CleanUpsert schema rows primaryKey newRow oldRow)
    (ordered : RowsOrdered schema rows) {row : Row} :
    row ∈ KeyTree.upsert schema.primaryKeyFromRow schema.comparePrimaryKeys rows newRow ↔
      row = newRow ∨ (row ∈ rows ∧ oldRow ≠ some row) := by
  rw [ordered.mem_upsert]
  refine or_congr_right (and_congr_right fun member => ?_)
  rw [Std.TransCmp.congr_right clean.names_new.equal]
  refine ⟨fun different old => different (clean.names_old row old).2.equal, fun other => ?_⟩
  exact (clean.fresh row member other).1

theorem Exact.recordUpsert (exact : index.Exact schema rows) (ordered : RowsOrdered schema rows)
    (clean : CleanUpsert schema rows primaryKey newRow oldRow) :
    (index.recordUpsert schema primaryKey newRow oldRow).Exact schema
      (KeyTree.upsert schema.primaryKeyFromRow schema.comparePrimaryKeys rows newRow) where
  wellFormed := by
    have kept := wellFormed_recordUpsert exact.wellFormed primaryKey newRow oldRow
    rwa [compareKeys, recordUpsert_spec]
  sound := by
    intro indexKey code found listed
    have place_eq : ∀ row, (index.recordUpsert schema primaryKey newRow oldRow).Place schema
      row indexKey ↔
        index.Place schema row indexKey := by
      simp [Place, rowMatchesPredicate, compareKeys, keyFromRow]
    rw [listed_recordUpsert exact.wellFormed] at listed
    split at listed
    · next placed =>
      cases listed
      exact ⟨newRow, (clean.mem_upsert ordered).mpr (.inl rfl), (place_eq newRow).mpr placed.1,
        clean.names_new, placed.2⟩
    · split at listed
      · cases listed
      · next untouched =>
        obtain ⟨row, row_mem, place, row_named, row_code⟩ := exact.sound listed
        refine ⟨row, (clean.mem_upsert ordered).mpr (.inr ⟨row_mem, fun old => untouched ?_⟩),
          (place_eq row).mpr place, row_named, row_code⟩
        exact ⟨⟨row, old, place⟩,
          row_code.trans (row_named.code.symm.trans (clean.names_old row old).2.code)⟩
  complete := by
    intro row row_mem matched
    have key_eq : (index.recordUpsert schema primaryKey newRow oldRow).keyFromRow row =
        index.keyFromRow row := by
      simp [keyFromRow]
    have matched' : index.rowMatchesPredicate row = true := by
      simpa [rowMatchesPredicate] using matched
    rw [key_eq]
    simp only [listed_recordUpsert exact.wellFormed]
    rcases (clean.mem_upsert ordered).mp row_mem with rfl | ⟨old_mem, other⟩
    · refine ⟨primaryKey, ?_, clean.names_new⟩
      rw [if_pos ⟨⟨matched', Std.ReflCmp.compare_self⟩, clean.names_new.code⟩]
    · obtain ⟨found, listed, row_named⟩ := exact.complete row old_mem matched'
      have code_ne := (clean.fresh row old_mem other).2
      refine ⟨found, ?_, row_named⟩
      rw [if_neg fun both => code_ne both.2, if_neg fun both => code_ne both.2]
      exact listed

end MemoryIndex

namespace Layer

variable {schema : TableSchema} {layer : Layer}

/-- The rows are in key order and every index lists them exactly. -/
structure Consistent (schema : TableSchema) (layer : Layer) : Prop where
  ordered : RowsOrdered schema layer.primary
  exact : ∀ index ∈ layer.secondaryIndexes, index.Exact schema layer.primary

theorem Consistent.empty (schema : TableSchema) : (Layer.empty schema).Consistent schema where
  ordered := List.Pairwise.nil
  exact index inLayer := by
    obtain ⟨spec, -, rfl⟩ := List.mem_map.mp inLayer
    exact ⟨.nil, nofun, nofun⟩

theorem Consistent.recordDelete (consistent : layer.Consistent schema) {oldRow : Row}
    (member : oldRow ∈ layer.primary) (names : MemoryIndex.NamesRow schema primaryKey oldRow) :
    (layer.recordDelete schema primaryKey oldRow).Consistent schema where
  ordered := consistent.ordered.erase primaryKey
  exact index inLayer := by
    obtain ⟨old, old_mem, rfl⟩ := List.mem_map.mp inLayer
    exact (consistent.exact old old_mem).recordDelete consistent.ordered member names

theorem Consistent.recordUpsert (consistent : layer.Consistent schema) {newRow : Row}
    {oldRow : Option Row}
    (clean : MemoryIndex.CleanUpsert schema layer.primary primaryKey newRow oldRow) :
    (layer.recordUpsert schema primaryKey newRow oldRow).Consistent schema where
  ordered := consistent.ordered.upsert newRow
  exact index inLayer := by
    obtain ⟨old, old_mem, rfl⟩ := List.mem_map.mp inLayer
    exact (consistent.exact old old_mem).recordUpsert consistent.ordered clean

end Layer

end Quereus.Memory
