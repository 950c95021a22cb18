import Quereus.Core.ChangeRuns
import Quereus.Lib.OrderedWalk

/-! # The change log covers the net effect

A row that is not what it was at the start of the transaction is reported with its
old and its new projection, and only changes that are not undone are reported.
-/

namespace Quereus.Core

open Memory (cellAt)
open List LogTables

/-- Two tuples with the same values. -/
def SameValues (first second : List Cell) : Prop :=
  List.Forall₂ (fun a b => compareCells BINARY_COLLATION a b = .eq) first second

theorem equatesZeros_compareCells : EquatesZeros (compareCells BINARY_COLLATION) := by
  rintro ⟨first, _⟩ ⟨second, _⟩ rfl rfl
  rfl

theorem sameValues_of_encodeKeyTuple {first second : List Cell} (finite : second.all isFiniteCell)
    (same : encodeKeyTuple first = encodeKeyTuple second) : SameValues first second := by
  induction first generalizing second with
  | nil =>
    rw [map_eq_nil_iff.mp same.symm]
    exact .nil
  | cons cell first ih =>
    cases second with
    | nil => cases same
    | cons other second =>
      rw [all_cons, Bool.and_eq_true] at finite
      obtain ⟨here, rest⟩ := cons.inj same
      exact .cons (compare_of_encodeElement equatesZeros_compareCells finite.1 here)
        (ih finite.2 rest)

namespace LogTables

/-- One step of `distinctTuples`. -/
theorem distinctTuples_append (tuples : List (List Cell)) (tuple : List Cell) :
    distinctTuples (tuples ++ [tuple]) =
      if encodeKeyTuple tuple ∈ (distinctTuples tuples).map encodeKeyTuple then
        distinctTuples tuples
      else distinctTuples tuples ++ [tuple] := by
  unfold distinctTuples
  rw [foldl_append]
  rfl

theorem distinctTuples_subset (tuples : List (List Cell)) : distinctTuples tuples ⊆ tuples := by
  induction tuples using reverseRecOn with
  | nil => exact Subset.refl _
  | append_singleton tuples tuple ih =>
    rw [distinctTuples_append]
    split
    · exact subset_append_of_subset_left _ ih
    · exact append_subset.mpr ⟨subset_append_of_subset_left _ ih, subset_append_right _ _⟩

theorem exists_mem_distinctTuples {tuples : List (List Cell)} {tuple : List Cell}
    (member : tuple ∈ tuples) :
    ∃ kept ∈ distinctTuples tuples, encodeKeyTuple kept = encodeKeyTuple tuple := by
  induction tuples using reverseRecOn with
  | nil => cases member
  | append_singleton tuples last ih =>
    rw [distinctTuples_append]
    rw [mem_append, mem_singleton] at member
    split
    · next known =>
      rcases member with member | rfl
      · exact ih member
      · exact mem_map.mp known
    · rcases member with member | rfl
      · obtain ⟨kept, inside, same⟩ := ih member
        exact ⟨kept, mem_append_left _ inside, same⟩
      · exact ⟨tuple, mem_append_right _ (mem_singleton_self _), rfl⟩

variable {tables : LogTables} {log : ChangeLog} {base : String} {columns : List Nat}

/-- The requested columns of a projection. -/
def pick (tables : LogTables) (base : String) (columns : List Nat) (projection : List Cell) :
    List Cell :=
  columns.map fun column => projection.getD ((tables.captureColumnsFor base).idxOf column) default

variable (captured : ∀ column ∈ columns, column ∈ tables.captureColumnsFor base)

include captured in
theorem pick_projectionFor
    (row : Row) : tables.pick base columns (tables.projectionFor base row) =
      projectRow row columns := by
  apply map_congr_left
  intro column member
  have inside := idxOf_lt_length_iff.mpr (captured column member)
  rw [projectionFor, projectRow, getD_eq_getElem?_getD, getElem?_map,
    getElem?_eq_getElem inside, getElem_idxOf, Option.map_some, Option.getD_some]

/-- What `getChangedTuples` collects before it picks columns and drops repetitions. -/
def collected (log : ChangeLog) (base : String) : List (List Cell) :=
  log.stack.all.flatMap fun layer => (layer.filter fun entry => entry.1.1 = base).flatMap
    fun entry => reported entry.2

include captured in
theorem getChangedTuples_eq :
    tables.getChangedTuples log base columns =
      .ok (distinctTuples ((collected log base).map (tables.pick base columns))) := by
  have index : ∀ column ∈ columns, (tables.captureColumnsFor base).idxOf? column =
      some ((tables.captureColumnsFor base).idxOf column) := by
    intro column member
    have inside := captured column member
    rw [idxOf?_eq_some_iff]
    exact ⟨idxOf_lt_length_iff.mpr inside, getElem_idxOf _, fun other before => by
      simpa using not_of_lt_findIdx before⟩
  unfold getChangedTuples
  simp only []
  rw [OrderedWalk.mapM_eq_ok_map fun column member => by rw [index column member]]
  change Except.ok (distinctTuples _) = _
  simp only [map_map]
  rfl

/-- A reported record's projections are collected. -/
theorem mem_collected {layer : ChangeLogLayer} {row : Row} {record : CapturedRow}
    {image : List Cell}
    (inStack : layer ∈ log.stack.all) (found : (tables.keyFor base row, record) ∈ layer)
    (there : image ∈ reported record) : image ∈ collected log base := by
  refine mem_flatMap.mpr ⟨layer, inStack, mem_flatMap.mpr
    ⟨(tables.keyFor base row, record), ?_, there⟩⟩
  exact mem_filter.mpr ⟨found, by simp [keyFor]⟩

end LogTables

namespace Tables

variable {tables : Tables} {first second contents : Contents} {base : String} {row other : Row}
  {key : List Cell}

theorem mem_of_rowAt (found : tables.rowAt contents base key = some row) :
    row ∈ contents base ∧ tables.sameKey base row key = true := by
  exact ⟨mem_of_find?_eq_some found, by simpa using find?_some found⟩

theorem rowAt_of_mem (unique : tables.UniqueKeys contents) (member : other ∈ contents base)
    (same : tables.sameKey base other key = true) :
      tables.rowAt contents base key = some other := by
  have found : (tables.rowAt contents base key).isSome = true :=
    find?_isSome.mpr ⟨other, member, same⟩
  obtain ⟨row, found⟩ := Option.isSome_iff_exists.mp found
  obtain ⟨inside, sameRow⟩ := mem_of_rowAt found
  rw [sameKey, beq_iff_eq] at same sameRow
  have equal : row = other := by
    apply unique base row inside other member
    rw [sameKey, beq_iff_eq]
    exact Std.TransCmp.eq_trans sameRow (Std.OrientedCmp.eq_symm same)
  rw [found, equal]

/-- A row whose captured columns are not those of the row of its key elsewhere has
another projection at its coded key there. -/
theorem valuesOf_ne_of_changed (uniqueFirst : tables.UniqueKeys first)
    (uniqueSecond : tables.UniqueKeys second)
    (untouched : ∀ base row, ¬ tables.Finite base row → row ∈ first base → row ∈ second base)
    (found : tables.rowAt first base key = some row)
    (changed : (tables.rowAt first base key).map (tables.projectionFor base) ≠
      (tables.rowAt second base key).map (tables.projectionFor base)) :
    tables.Finite base row ∧
      tables.valuesOf first (tables.keyFor base row) = some (tables.projectionFor base row) ∧
      tables.valuesOf second (tables.keyFor base row) ≠ some (tables.projectionFor base row) := by
  obtain ⟨member, here⟩ := mem_of_rowAt found
  have finite : tables.Finite base row := by
    by_contra infinite
    have stays := rowAt_of_mem uniqueSecond (untouched base row infinite member) here
    exact changed (by rw [found, stays])
  refine ⟨finite, valuesOf_of_mem uniqueFirst member finite, fun same => ?_⟩
  obtain ⟨other, foundOther, projection⟩ := Option.map_eq_some_iff.mp same
  have memberOther : other ∈ second base := mem_of_find?_eq_some foundOther
  have sameCode : tables.keyFor base other = tables.keyFor base row := by
    have holds := find?_some foundOther
    exact of_decide_eq_true holds
  have sameOther : tables.sameKey base other key = true := beq_iff_eq.mpr (Std.TransCmp.eq_trans
    (beq_iff_eq.mp (sameKey_of_keyFor finite sameCode.symm)) (beq_iff_eq.mp here))
  have there := rowAt_of_mem uniqueSecond memberOther sameOther
  apply changed
  rw [found, there, Option.map_some, Option.map_some, ← projection]
  rfl

end Tables

namespace Transaction

variable {tables : Tables} {begun : Contents} {transaction : Transaction}
    {base : String} {row : Row}
  {key : List Cell}

theorem reported_subset_imagesIn (record : CapturedRow) :
    reported record ⊆ Tables.imagesIn record := by
  obtain ⟨op, oldProjection, newProjection⟩ := record
  cases op <;> simp [reported, Tables.imagesIn]

theorem mem_reported_of_captures {record : CapturedRow} {image : List Cell}
    {before after : Option (List Cell)}
    (captures : Tables.captures record before after)
    (held : before = some image ∨ after = some image) :
    image ∈ reported record := by
  obtain ⟨op, oldProjection, newProjection⟩ := record
  cases op <;> obtain rfl | rfl := held <;> simp_all [Tables.captures, reported]

/-- The old and the new row of a key whose captured columns have changed are collected. -/
theorem Tracks.collects (tracks : Tracks tables begun transaction)
    (unique : tables.UniqueKeys begun)
    (changed : (tables.rowAt begun base key).map (tables.projectionFor base) ≠
      (tables.rowAt transaction.contents base key).map (tables.projectionFor base))
    (found : tables.rowAt begun base key = some row ∨
      tables.rowAt transaction.contents base key = some row) :
    tables.Finite base row ∧ tables.projectionFor base row ∈ collected transaction.log base := by
  have nowUnique := tracks.unique _ mem_cons_self
  have untouched := tracks.untouched _ mem_cons_self
  rcases found with found | found
  · obtain ⟨finite, before, after⟩ := Tables.valuesOf_ne_of_changed unique nowUnique
      (fun base row infinite => (untouched base row infinite).mp) found changed
    obtain ⟨layer, inStack, record, _, inLayer, captures⟩ :=
      (NetChange.StackSpans.exists_ends tracks.spans (before ▸ after.symm)).1
    exact ⟨finite, mem_collected inStack inLayer (mem_reported_of_captures captures (.inl before))⟩
  · obtain ⟨finite, after, before⟩ := Tables.valuesOf_ne_of_changed nowUnique unique
      (fun base row infinite => (untouched base row infinite).mpr) found changed.symm
    obtain ⟨layer, inStack, record, _, inLayer, captures⟩ :=
      (NetChange.StackSpans.exists_ends tracks.spans (after ▸ before)).2
    exact ⟨finite, mem_collected inStack inLayer (mem_reported_of_captures captures (.inr after))⟩

/-- What the log reports of a table after a transaction: the old and the new row of every
key whose captured columns have changed, and nothing but rows of changes that are not
undone. -/
structure Covers (tables : Tables) (begun : Contents) (transaction : Transaction) (base : String)
    (columns : List Nat) (tuples : List (List Cell)) : Prop where
  old : ∀ key, (tables.rowAt begun base key).map (tables.projectionFor base) ≠
      (tables.rowAt transaction.contents base key).map (tables.projectionFor base) →
    ∀ row ∈ tables.rowAt begun base key, ∃ tuple ∈ tuples, SameValues tuple (projectRow row columns)
  new : ∀ key, (tables.rowAt begun base key).map (tables.projectionFor base) ≠
      (tables.rowAt transaction.contents base key).map (tables.projectionFor base) →
    ∀ row ∈ tables.rowAt transaction.contents base key,
      ∃ tuple ∈ tuples, SameValues tuple (projectRow row columns)
  surviving : ∀ tuple ∈ tuples, ∃ change ∈ transaction.survivingChanges, ∃ row,
    (base, row) ∈ change.rows ∧ tuple = projectRow row columns

theorem exists_reported {columns : List Nat}
    (captured : ∀ column ∈ columns, column ∈ tables.captureColumnsFor base)
    (collected : tables.Finite base row ∧
      tables.projectionFor base row ∈ collected transaction.log base) :
    ∃ tuple ∈ distinctTuples
        ((LogTables.collected transaction.log base).map (tables.pick base columns)),
      SameValues tuple (projectRow row columns) := by
  obtain ⟨tuple, member, same⟩ := exists_mem_distinctTuples
    (mem_map_of_mem (f := tables.pick base columns) collected.2)
  rw [pick_projectionFor captured] at same
  refine ⟨tuple, member, sameValues_of_encodeKeyTuple ?_ same⟩
  rw [projectRow, all_map, all_eq_true]
  intro column inside
  exact all_eq_true.mp collected.1 _ (mem_map_of_mem (captured column inside))

end Transaction

/-- Tables whose columns compare by their values. -/
def binaryTables (log : LogTables) : Tables where
  toLogTables := log
  compareColumn _ _ := compareCells BINARY_COLLATION
  lawful _ _ := inferInstance
  zeros _ _ := equatesZeros_compareCells

/-- Column 0 is the key, and column 1 is asked for. -/
def readingTables : Tables :=
  binaryTables { pkIndices := fun _ => [0], demand := fun _ => [1] }

def reading (key : Int) (value : Cell) : Row :=
  [⟨.bigint key, rfl⟩, value]

def count (value : Int) : Cell :=
  ⟨.bigint value, rfl⟩

def readings (rows : List Row) : Contents :=
  fun base => if base = "readings" then rows else []

namespace Transaction

theorem uniqueKeys_readings (row : Row) : readingTables.UniqueKeys (readings [row]) := by
  intro base first inFirst second inSecond _
  unfold readings at inFirst inSecond
  split at inFirst <;> simp_all

/-- A change that is rolled back, then another that is released. -/
def recount : Transaction :=
  (start (readings [reading 1 (count 1)])).run readingTables
    [.createSavepoint "a", .change (.update "readings" (reading 1 (count 1)) (reading 1 (count 2))),
      .change (.insert "readings" (reading 2 (count 5))), .rollbackToSavepoint "a",
      .change (.update "readings" (reading 1 (count 1)) (reading 1 (count 3))),
        .releaseSavepoint "a"]

def infinity : Cell :=
  ⟨.number ⟨BitVec.ofNat 64 Double.infinityMagnitude⟩, by decide⟩

def negativeInfinity : Cell :=
  ⟨.number ⟨BitVec.ofNat 64 (2 ^ 63 + Double.infinityMagnitude)⟩, by decide⟩

/-- A reading turns from one infinity to the other. -/
def flip : Change :=
  .update "readings" (reading 1 infinity) (reading 1 negativeInfinity)

end Transaction

end Quereus.Core
