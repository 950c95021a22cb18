import Mathlib.Data.List.GetD
import Quereus.Sync.Convergence

/-! # The rows follow the records

Rows are written in Phase two and records in Phase three, so nothing in the
source ties the two together but the order in which changes are applied. When the
facts name each column by one name, the stored row is always the image of the
row's cell versions: a column with a cell holds its value, a key column without
one holds its part of some spelling of the key, and every other column is null.
Equal records then mean rows that are equal up to the spelling of the key, and
equal rows when the facts have one spelling of each key.
-/

namespace Quereus.Sync

open List KeyedList Change

variable {ι : Type} [DecidableEq ι]

open Latest (IsLatest)

namespace Change

def isDelete : Change → Bool
  | .delete _ => true
  | .column _ => false

def asColumn : Change → Option ColumnChange
  | .delete _ => none
  | .column write => some write

theorem asColumn_eq_some {change : Change} {write : ColumnChange} :
    change.asColumn = some write ↔ change = .column write := by
  cases change <;> simp [asColumn]

end Change

variable {ctx : TableContext ι}

section RowOp

/-- When no delete follows a write, nothing but the deletes is undone. -/
theorem netEffect_eq {changes : List Change}
    (deletesFirst : changes.Pairwise fun first second =>
      first.isDelete = false → second.isDelete = false) :
    netEffect changes = (changes.any Change.isDelete, changes.filterMap Change.asColumn) := by
  induction changes using reverseRecOn with
  | nil => rfl
  | append_singleton changes last ih =>
    rw [pairwise_append] at deletesFirst
    obtain ⟨earlier, -, across⟩ := deletesFirst
    have unfolded : netEffect (changes ++ [last]) = match last with
        | .delete _ => (true, [])
        | .column write => ((netEffect changes).1, (netEffect changes).2 ++ [write]) := by
      unfold netEffect
      rw [foldl_append]
      cases last <;> rfl
    rw [unfolded, ih earlier, any_append]
    cases last with
    | column write => simp [isDelete, asColumn]
    | delete deletion =>
      have noWrites : changes.filterMap asColumn = [] := by
        refine filterMap_eq_nil_iff.mpr fun change member => ?_
        cases change with
        | delete _ => rfl
        | column write =>
          exact absurd (across _ member _ (mem_singleton_self _) rfl) nofun
      simp [noWrites, isDelete, asColumn]

omit [DecidableEq ι] in
@[simp] theorem length_setColumn (row : Row) (write : ColumnChange) :
    (setColumn ctx row write).length = row.length := by
  unfold setColumn
  split <;> simp

omit [DecidableEq ι] in
@[simp] theorem length_foldl_setColumn (updates : List ColumnChange) (row : Row) :
    (updates.foldl (setColumn ctx) row).length = row.length :=
  foldl_view_eq _ length row fun _ _ _ => length_setColumn _ _

omit [DecidableEq ι] in
@[simp] theorem length_keyOnlyRow (pk : List SqlValue) :
    (keyOnlyRow ctx pk).length = ctx.columnCount := by
  unfold keyOnlyRow
  rw [foldl_view_eq _ length _ fun row part _ => length_set]
  exact length_replicate

omit [DecidableEq ι] in
theorem setColumn_getD (row : Row) (write : ColumnChange) {index : Nat}
    (inside : index < row.length) :
    (setColumn ctx row write).getD index .null =
      if ctx.columnIndexMap write.column = some index then write.value
      else row.getD index .null := by
  unfold setColumn
  cases ctx.columnIndexMap write.column with
  | none => simp
  | some target =>
    by_cases same : target = index
    · subst same
      simp [inside]
    · simp [same]

omit [DecidableEq ι] in
/-- A column ends with its last write, or as it was when there is none. -/
theorem foldl_setColumn_getD (ctx : TableContext ι) (updates : List ColumnChange) {row : Row}
    {index : Nat} (inside : index < row.length) :
    (updates.foldl (setColumn ctx) row).getD index .null =
      (((updates.filter fun write => ctx.columnIndexMap write.column = some index).getLast?).map
        ColumnChange.value).getD (row.getD index .null) := by
  induction updates using reverseRecOn with
  | nil => rfl
  | append_singleton updates last ih =>
    rw [foldl_append, foldl_cons, foldl_nil,
      setColumn_getD _ _ (by rw [length_foldl_setColumn]; exact inside), ih]
    by_cases named : ctx.columnIndexMap last.column = some index <;> simp [named]

end RowOp

/-- The value stands in this column of the key, as a fact of the row spells it. -/
def KeyPart (ctx : TableContext ι) (facts : List Change) (row : ι) (index : Nat)
    (value : SqlValue) : Prop :=
  ∃ change ∈ facts, ctx.rowIdentity change = row ∧
    value = (keyOnlyRow ctx change.pk).getD index .null

/-- Every key has one spelling in the facts. -/
def OneSpelling (ctx : TableContext ι) (facts : List Change) : Prop :=
  ∀ first ∈ facts, ∀ second ∈ facts,
    ctx.rowIdentity first = ctx.rowIdentity second → first.pk = second.pk

/-- The facts name each column by one name, a write of a key column repeats the key,
and keys are identified part by part, as `encodePkIdentity` does: a key put together
from spellings of a row's key is a key of that row. -/
structure Uniform (ctx : TableContext ι) (facts : List Change) : Prop where
  keyed : ∀ change ∈ facts, ∀ image : Row, image.length = ctx.columnCount →
    (∀ index ∈ ctx.primaryKeyDefinition,
      KeyPart ctx facts (ctx.rowIdentity change) index (image.getD index .null)) →
    ctx.pkIdentity (extractPK ctx image) = ctx.rowIdentity change
  named : ∀ first second index, .column first ∈ facts → .column second ∈ facts →
    ctx.columnIndexMap first.column = some index →
      ctx.columnIndexMap second.column = some index → first.column = second.column
  keyWrite : ∀ write index, .column write ∈ facts →
    ctx.columnIndexMap write.column = some index → index ∈ ctx.primaryKeyDefinition →
      write.value = (keyOnlyRow ctx write.pk).getD index .null

/-- No two facts share a timestamp. -/
def Distinct (facts : List Change) : Prop :=
  ∀ first ∈ facts, ∀ second ∈ facts, first.hlc = second.hlc → first = second

/-- What the cells of a row say about one column of its image. -/
def ColumnImage (ctx : TableContext ι) (facts : List Change) (replica : Replica ι) (row : ι)
    (index : Nat) (value : SqlValue) : Prop :=
  (∃ column fact, replica.cellFact row column = some fact ∧
    ctx.columnIndexMap column = some index ∧ value = fact.2.1) ∨
  ((∀ column fact, replica.cellFact row column = some fact →
    ctx.columnIndexMap column ≠ some index) ∧ KeyPart ctx facts row index value)

/-- The stored rows are the images of the cells, which `facts` wrote. -/
structure RowsMatch (ctx : TableContext ι) (facts : List Change) (replica : Replica ι) :
    Prop where
  source : ∀ row column fact, replica.cellFact row column = some fact →
    ∃ write ∈ writesOf ctx facts row column, write.fact = fact
  present : ∀ row, replica.rowImage row = none ↔ ∀ column, replica.cellFact row column = none
  image : ∀ row image, replica.rowImage row = some image → image.length = ctx.columnCount ∧
    ∀ index < ctx.columnCount, ColumnImage ctx facts replica row index (image.getD index .null)

variable {facts : List Change} {replica : Replica ι}

section Match

omit [DecidableEq ι] in
/-- A row holding nothing but its key is null outside the key. -/
theorem keyOnlyRow_getD_of_notMem (pk : List SqlValue) {index : Nat}
    (other : index ∉ ctx.primaryKeyDefinition) :
    (keyOnlyRow ctx pk).getD index .null = .null := by
  unfold keyOnlyRow
  rw [foldl_view_eq _ (fun row : Row => row.getD index .null) _ fun row part member => ?_]
  · simp [getD_eq_getElem?_getD, getElem?_replicate]
    split <;> rfl
  · have different : part.1 ≠ index := by
      rintro rfl
      exact other (fst_mem_of_mem_zipIdx member)
    simp [getD_eq_getElem?_getD, getElem?_set_ne different]

/-- The key columns of an image spell the row's key. -/
theorem ColumnImage.keyPart (uniform : Uniform ctx facts) {row : ι} {index : Nat}
    {value : SqlValue}
    (source : ∀ column fact, replica.cellFact row column = some fact →
      ∃ write ∈ writesOf ctx facts row column, write.fact = fact)
    (isKey : index ∈ ctx.primaryKeyDefinition)
    (image : ColumnImage ctx facts replica row index value) :
      KeyPart ctx facts row index value := by
  rcases image with ⟨column, fact, found, isColumn, value⟩ | ⟨-, part⟩
  · obtain ⟨write, ⟨written, sameRow, rfl⟩, rfl⟩ := source column fact found
    exact ⟨_, written, sameRow, value.trans (uniform.keyWrite write index written isColumn isKey)⟩
  · exact part

omit [DecidableEq ι] in
/-- A row has nothing outside the columns of the table. -/
theorem getD_outside {image : Row} (length : image.length = ctx.columnCount) {index : Nat}
    (outside : ¬ index < ctx.columnCount) : image.getD index .null = .null :=
  getD_eq_default _ _ (length.trans_le (not_lt.mp outside))

/-- An image of a row's columns has the row's key. -/
theorem Uniform.identity (uniform : Uniform ctx facts) {row : ι} {image : Row}
    (length : image.length = ctx.columnCount)
    (source : ∀ column fact, replica.cellFact row column = some fact →
      ∃ write ∈ writesOf ctx facts row column, write.fact = fact)
    {change : Change} (member : change ∈ facts) (named : ctx.rowIdentity change = row)
    (columns : ∀ index < ctx.columnCount,
      ColumnImage ctx facts replica row index (image.getD index .null)) :
    ctx.pkIdentity (extractPK ctx image) = row := by
  subst named
  refine uniform.keyed change member image length fun index isKey => ?_
  by_cases inside : index < ctx.columnCount
  · exact (columns index inside).keyPart uniform source isKey
  · refine ⟨change, member, rfl, ?_⟩
    rw [getD_outside length inside, getD_outside (length_keyOnlyRow change.pk) inside]

end Match

/-- The key an operation acts on. -/
def ExternalRowOp.key (ctx : TableContext ι) : ExternalRowOp → ι
  | .delete pk => ctx.pkIdentity pk
  | .upsert row => ctx.pkIdentity (extractPK ctx row)

/-- What an operation leaves under its key. -/
def ExternalRowOp.result : ExternalRowOp → Option Row
  | .delete _ => none
  | .upsert row => some row

section Write

theorem lookup_applyExternalRowOp_self (rows : List (ι × Row)) (op : ExternalRowOp) :
    (applyExternalRowOp ctx rows op).lookup (op.key ctx) = op.result := by
  cases op with
  | delete pk =>
    unfold applyExternalRowOp ExternalRowOp.key
    rw [lookup_filter rows fun key => key ≠ ctx.pkIdentity pk]
    simp [ExternalRowOp.result]
  | upsert row => exact lookup_put_self _ _ _

theorem lookup_applyExternalRowOp_of_ne (rows : List (ι × Row)) {op : ExternalRowOp} {row : ι}
    (other : op.key ctx ≠ row) :
    (applyExternalRowOp ctx rows op).lookup row = rows.lookup row := by
  cases op with
  | delete pk =>
    unfold applyExternalRowOp
    rw [lookup_filter rows fun key => key ≠ ctx.pkIdentity pk]
    exact if_pos (decide_eq_true (Ne.symm other))
  | upsert image => exact lookup_put_of_ne _ _ (Ne.symm other)

/-- When each row's operation stays at its row, a row ends as its own changes leave it. -/
theorem lookup_writeTableRows {rows : List (ι × Row)} {changes : List Change}
    (stays : ∀ row group, (groupChangesByRow ctx changes).lookup row = some group →
      (buildRowOp ctx rows group).key ctx = row) (row : ι) :
    (writeTableRows ctx rows changes).lookup row =
      match (groupChangesByRow ctx changes).lookup row with
      | none => rows.lookup row
      | some group => (buildRowOp ctx rows group).result := by
  have distinct : ((groupChangesByRow ctx changes).map Prod.fst).Nodup :=
    nodup_keys_groupBy _ _
  have own {entry : ι × List Change} (member : entry ∈ groupChangesByRow ctx changes) :
      (buildRowOp ctx rows entry.2).key ctx = entry.1 :=
    stays entry.1 entry.2 (lookup_of_mem distinct member)
  unfold writeTableRows
  rw [foldl_map]
  cases found : (groupChangesByRow ctx changes).lookup row with
  | none =>
    refine foldl_view_eq _ (fun state : List (ι × Row) => state.lookup row) rows
      fun state entry member => lookup_applyExternalRowOp_of_ne state ?_
    rw [own member]
    rintro rfl
    rw [lookup_of_mem distinct member] at found
    cases found
  | some group =>
    refine foldl_view_eq_of_mem _ (fun state : List (ι × Row) => state.lookup row) rows
      (mem_of_lookup found) (fun state => ?_) fun state entry member different => ?_
    · conv_lhs => rw [← stays row group found]
      exact lookup_applyExternalRowOp_self state _
    · refine lookup_applyExternalRowOp_of_ne state ?_
      rw [own member]
      rintro rfl
      refine different (Prod.ext rfl ?_)
      exact Option.some.inj ((lookup_of_mem distinct member).symm.trans found)

theorem mem_orderDataChangesByHLC {applied : List ResolvedChange} {change : Change} :
    change ∈ orderDataChangesByHLC applied ↔ ∃ entry ∈ applied, entry.change = change := by
  unfold orderDataChangesByHLC
  rw [mem_map]
  simp

end Write

variable {changes : List Change} {row : ι} {change : Change}

section RowGroup

variable {before : Replica ι}

/-- The changes Phase two applies to a row, in timestamp order. -/
def rowGroup (ctx : TableContext ι) (before : Replica ι) (changes : List Change) (row : ι) :
    List Change :=
  (orderDataChangesByHLC (appliedChanges (resolveBatch ctx before changes))).filter
    fun change => ctx.rowIdentity change == row

/-- The writes among them. -/
def rowUpdates (ctx : TableContext ι) (before : Replica ι) (changes : List Change) (row : ι) :
    List ColumnChange :=
  (rowGroup ctx before changes row).filterMap Change.asColumn

/-- The row the writes of a batch are set in. -/
def baseRow (ctx : TableContext ι) (before : Replica ι) (changes : List Change) (row : ι)
    (pk : List SqlValue) : Row :=
  (if (rowGroup ctx before changes row).any Change.isDelete then none
    else before.rowImage row).getD (keyOnlyRow ctx pk)

theorem rowGroup_pairwise (row : ι) :
    (rowGroup ctx before changes row).Pairwise fun first second => first.hlc ≤ second.hlc := by
  refine Pairwise.filter _ ?_
  rw [orderDataChangesByHLC, pairwise_map]
  exact pairwise_insertionSort (fun first second : ResolvedChange => first.hlc ≤ second.hlc) _

theorem rowUpdates_pairwise (row : ι) :
    (rowUpdates ctx before changes row).Pairwise fun first second => first.hlc ≤ second.hlc := by
  refine (rowGroup_pairwise row).filterMap asColumn ?_
  intro first second ordered write isFirst other isSecond
  rw [asColumn_eq_some] at isFirst isSecond
  rwa [isFirst, isSecond] at ordered

variable (plain : Unassisted ctx before) (foreign : Foreign ctx changes)

include plain foreign

theorem mem_rowGroup_delete {deletion : RowDeletion} :
    .delete deletion ∈ rowGroup ctx before changes row ↔
      deletion ∈ acceptedDeletions ctx before changes row := by
  unfold rowGroup
  rw [mem_filter, mem_orderDataChangesByHLC, exists_appliedDelete plain foreign, beq_iff_eq]
  exact ⟨fun ⟨accepted, named⟩ => named ▸ accepted,
    fun accepted => ⟨accepted.2.1.symm ▸ accepted, accepted.2.1⟩⟩

theorem mem_rowGroup_column {write : ColumnChange} :
    .column write ∈ rowGroup ctx before changes row ↔
      write ∈ admittedWrites ctx before changes row write.column := by
  unfold rowGroup
  rw [mem_filter, mem_orderDataChangesByHLC, exists_appliedColumn plain foreign, beq_iff_eq]
  exact ⟨fun ⟨admitted, named⟩ => named ▸ admitted,
    fun admitted => ⟨admitted.2.1.symm ▸ admitted, admitted.2.1⟩⟩

theorem mem_rowUpdates {write : ColumnChange} :
    write ∈ rowUpdates ctx before changes row ↔
      write ∈ admittedWrites ctx before changes row write.column := by
  rw [rowUpdates, mem_filterMap, ← mem_rowGroup_column plain foreign]
  simp only [asColumn_eq_some]
  exact ⟨fun ⟨_, member, same⟩ => same ▸ member, fun member => ⟨_, member, rfl⟩⟩

/-- A write that survives the batch is newer than the deletes of its row. -/
theorem rowGroup_deletesFirst :
    (rowGroup ctx before changes row).Pairwise fun first second =>
      first.isDelete = false → second.isDelete = false := by
  refine (rowGroup_pairwise row).imp_of_mem fun {first second} firstIn secondIn ordered => ?_
  cases first with
  | delete _ => exact nofun
  | column write =>
    cases second with
    | column _ => exact fun _ => rfl
    | delete deletion =>
      have admitted := (mem_rowGroup_column plain foreign).mp firstIn
      have accepted := (mem_rowGroup_delete plain foreign).mp secondIn
      exact absurd ordered (not_le.mpr (admitted.2.2.2.2 deletion accepted).2)

theorem netEffect_rowGroup :
    netEffect (rowGroup ctx before changes row) =
      ((rowGroup ctx before changes row).any Change.isDelete,
        rowUpdates ctx before changes row) :=
  netEffect_eq (rowGroup_deletesFirst plain foreign)

theorem any_isDelete_rowGroup :
    (rowGroup ctx before changes row).any Change.isDelete ↔
      (acceptedDeletions ctx before changes row).Nonempty := by
  rw [any_eq_true]
  constructor
  · rintro ⟨change, member, isDelete⟩
    cases change with
    | column _ => cases isDelete
    | delete deletion => exact ⟨deletion, (mem_rowGroup_delete plain foreign).mp member⟩
  · rintro ⟨deletion, accepted⟩
    exact ⟨_, (mem_rowGroup_delete plain foreign).mpr accepted, rfl⟩

variable (subset : ∀ change ∈ changes, change ∈ facts)

include subset

/-- The changes of a row are facts about it. -/
theorem mem_facts_of_mem_rowGroup (member : change ∈ rowGroup ctx before changes row) :
    change ∈ facts ∧ ctx.rowIdentity change = row := by
  cases change with
  | delete deletion =>
    have accepted := (mem_rowGroup_delete plain foreign).mp member
    exact ⟨subset _ accepted.1, accepted.2.1⟩
  | column write =>
    have admitted := (mem_rowGroup_column plain foreign).mp member
    exact ⟨subset _ admitted.1, admitted.2.1⟩

/-- The operation of a row with changes, addressed by the first of them. -/
theorem buildRowOp_rowGroup (busy : rowGroup ctx before changes row ≠ []) :
    ∃ change ∈ facts, ctx.rowIdentity change = row ∧
      buildRowOp ctx before.rows (rowGroup ctx before changes row) =
        if (rowGroup ctx before changes row).any Change.isDelete &&
            (rowUpdates ctx before changes row).isEmpty then .delete change.pk
        else .upsert ((rowUpdates ctx before changes row).foldl (setColumn ctx)
          (baseRow ctx before changes row change.pk)) := by
  obtain ⟨head, tail, isGroup⟩ := exists_cons_of_ne_nil busy
  have isHead : head ∈ rowGroup ctx before changes row := isGroup ▸ mem_cons_self
  obtain ⟨inFacts, named⟩ := mem_facts_of_mem_rowGroup plain foreign subset isHead
  refine ⟨head, inFacts, named, ?_⟩
  have addressed : ((rowGroup ctx before changes row).head?.map pk).getD [] = head.pk := by
    rw [isGroup]
    rfl
  have located : ctx.pkIdentity head.pk = row := named
  simp only [buildRowOp, netEffect_rowGroup plain foreign, mergeColumnUpdates, addressed, located,
    baseRow, Replica.rowImage]

end RowGroup

section Step

variable {before after : Replica ι} {pk : List SqlValue} {index : Nat} {value : SqlValue}

theorem length_baseRow (rowsMatch : RowsMatch ctx facts before) (row : ι) (pk : List SqlValue) :
    (baseRow ctx before changes row pk).length = ctx.columnCount := by
  unfold baseRow
  split
  · exact length_keyOnlyRow pk
  · cases stored : before.rowImage row with
    | none => exact length_keyOnlyRow pk
    | some image => exact (rowsMatch.image row image stored).1

theorem ColumnImage.congr {first second : Replica ι}
    (same : ∀ column, second.cellFact row column = first.cellFact row column)
    (image : ColumnImage ctx facts first row index value) :
    ColumnImage ctx facts second row index value := by
  unfold ColumnImage
  simp only [same]
  exact image

/-- Two images of a column differ only in the spelling of the key. -/
theorem columnImage_eq_or (uniform : Uniform ctx facts) (rowsMatch : RowsMatch ctx facts replica)
    {first second : SqlValue} (firstImage : ColumnImage ctx facts replica row index first)
    (secondImage : ColumnImage ctx facts replica row index second) :
    first = second ∨ KeyPart ctx facts row index first ∧ KeyPart ctx facts row index second := by
  rcases firstImage with ⟨column, fact, found, isColumn, rfl⟩ | ⟨unnamed, part⟩
  · rcases secondImage with ⟨other, otherFact, otherFound, isOther, rfl⟩ | ⟨unnamed, -⟩
    · obtain ⟨write, ⟨written, -, rfl⟩, -⟩ := rowsMatch.source row column fact found
      obtain ⟨write', ⟨written', -, rfl⟩, -⟩ := rowsMatch.source row other otherFact otherFound
      rw [uniform.named write write' index written written' isColumn isOther] at found
      exact Or.inl (by rw [Option.some.inj (found.symm.trans otherFound)])
    · exact absurd isColumn (unnamed column fact found)
  · rcases secondImage with ⟨other, otherFact, otherFound, isOther, -⟩ | ⟨-, otherPart⟩
    · exact absurd isOther (unnamed other otherFact otherFound)
    · exact Or.inr ⟨part, otherPart⟩

/-- A call on rows that match, with all its facts. -/
structure Matching (ctx : TableContext ι) (facts changes : List Change) (before after : Replica ι) :
    Prop where
  uniform : Uniform ctx facts
  distinct : Distinct facts
  plain : Unassisted ctx before
  foreign : Foreign ctx changes
  subset : ∀ change ∈ changes, change ∈ facts
  rowsMatch : RowsMatch ctx facts before
  effect : ApplyEffect ctx before after changes

namespace Matching

variable (call : Matching ctx facts changes before after)

include call

/-- A column that no update of the row names has no admitted write. -/
theorem admittedWrites_eq_empty {column : String}
    (unnamed : ∀ write ∈ rowUpdates ctx before changes row, write.column ≠ column) :
    admittedWrites ctx before changes row column = ∅ := by
  refine Set.eq_empty_iff_forall_notMem.mpr fun write admitted => ?_
  obtain rfl : write.column = column := admitted.2.2.1
  exact unnamed write ((mem_rowUpdates call.plain call.foreign).mpr admitted) rfl

/-- A cell changes only in a row with changes. -/
theorem cellFact_of_rowGroup_nil (none : rowGroup ctx before changes row = []) (column : String) :
    after.cellFact row column = before.cellFact row column := by
  refine call.effect.cell_kept row column (call.admittedWrites_eq_empty ?_) ?_
  · rw [rowUpdates, none]
    exact forall_mem_nil _
  · refine Set.eq_empty_iff_forall_notMem.mpr fun deletion accepted => ?_
    exact not_mem_nil (none ▸ (mem_rowGroup_delete call.plain call.foreign).mpr accepted)

/-- Every cell comes from a write of the facts. -/
theorem cell_source {column : String} {fact : HLC × SqlValue × List SqlValue}
    (found : after.cellFact row column = some fact) :
    ∃ write ∈ writesOf ctx facts row column, write.fact = fact := by
  rcases Set.eq_empty_or_nonempty (admittedWrites ctx before changes row column) with none | some
  · rcases Set.eq_empty_or_nonempty (acceptedDeletions ctx before changes row) with kept | deleted
    · rw [call.effect.cell_kept row column none kept] at found
      exact call.rowsMatch.source row column fact found
    · rw [call.effect.cell_cleared row column none deleted] at found
      cases found
  · obtain ⟨write, latest, stored⟩ := call.effect.cell_set row column some
    obtain ⟨member, sameRow, sameColumn, -⟩ := latest.1
    exact ⟨write, ⟨call.subset _ member, sameRow, sameColumn⟩,
      Option.some.inj (stored.symm.trans found)⟩

/-- The last update of a column is its latest admitted write. -/
theorem rowUpdates_isLatest {earlier : List ColumnChange} {write : ColumnChange}
    (split : ((rowUpdates ctx before changes row).filter fun write =>
      ctx.columnIndexMap write.column = some index) = earlier ++ [write]) :
    ctx.columnIndexMap write.column = some index ∧
      IsLatest ColumnChange.hlc (admittedWrites ctx before changes row write.column) write := by
  obtain ⟨member, isColumn⟩ :=
    mem_filter.mp (split ▸ mem_append_right earlier (mem_singleton_self _))
  have ordered : (earlier ++ [write]).Pairwise fun first second => first.hlc ≤ second.hlc :=
    split ▸ (rowUpdates_pairwise row).filter _
  refine ⟨of_decide_eq_true isColumn, (mem_rowUpdates call.plain call.foreign).mp member,
    fun other admitted => ?_⟩
  have sameColumn := admitted.2.2.1
  have listed : other ∈ earlier ++ [write] := by
    rw [← split, mem_filter, mem_rowUpdates call.plain call.foreign, sameColumn]
    exact ⟨admitted, isColumn⟩
  obtain early | final := mem_append.mp listed
  · exact (pairwise_append.mp ordered).2.2 other early write (mem_singleton_self _)
  · rw [mem_singleton.mp final]

/-- A column without an admitted write keeps its image, or is part of a new row. -/
theorem baseRow_columnImage (inFacts : change ∈ facts) (named : ctx.rowIdentity change = row)
    (inside : index < ctx.columnCount)
    (unwritten : ∀ column, ctx.columnIndexMap column = some index →
      admittedWrites ctx before changes row column = ∅) :
    ColumnImage ctx facts after row index
      ((baseRow ctx before changes row change.pk).getD index .null) := by
  unfold baseRow
  split
  · next deleted =>
    have accepted := (any_isDelete_rowGroup call.plain call.foreign).mp deleted
    refine Or.inr ⟨fun column fact found isColumn => ?_, change, inFacts, named, rfl⟩
    rw [call.effect.cell_cleared row column (unwritten column isColumn) accepted] at found
    cases found
  · next undeleted =>
    have kept (column : String) (isColumn : ctx.columnIndexMap column = some index) :
        after.cellFact row column = before.cellFact row column := by
      refine call.effect.cell_kept row column (unwritten column isColumn) ?_
      exact Set.not_nonempty_iff_eq_empty.mp
        (mt (any_isDelete_rowGroup call.plain call.foreign).mpr undeleted)
    cases stored : before.rowImage row with
    | none =>
      refine Or.inr ⟨fun column fact found isColumn => ?_, change, inFacts, named, rfl⟩
      rw [kept column isColumn, (call.rowsMatch.present row).mp stored column] at found
      cases found
    | some image =>
      rcases (call.rowsMatch.image row image stored).2 index inside with
        ⟨column, fact, found, isColumn, same⟩ | ⟨unnamed, same⟩
      · exact Or.inl ⟨column, fact, (kept column isColumn).trans found, isColumn, same⟩
      · refine Or.inr ⟨fun column fact found isColumn => ?_, same⟩
        rw [kept column isColumn] at found
        exact unnamed column fact found isColumn

/-- The image of an updated row, column by column. -/
theorem updated_columnImage (inFacts : change ∈ facts) (named : ctx.rowIdentity change = row)
    (inside : index < ctx.columnCount) :
    ColumnImage ctx facts after row index
      (((rowUpdates ctx before changes row).foldl (setColumn ctx)
        (baseRow ctx before changes row change.pk)).getD index .null) := by
  have bound : index < (baseRow ctx before changes row change.pk).length :=
    (length_baseRow call.rowsMatch row change.pk).symm ▸ inside
  rw [foldl_setColumn_getD ctx _ bound]
  cases last : ((rowUpdates ctx before changes row).filter fun write =>
      ctx.columnIndexMap write.column = some index).getLast? with
  | some write =>
    obtain ⟨earlier, split⟩ := getLast?_eq_some_iff.mp last
    obtain ⟨isColumn, isLatest⟩ := call.rowUpdates_isLatest split
    -- A call writes the latest admitted write into its cell.
    obtain ⟨other, otherLatest, stored⟩ := call.effect.cell_set row write.column ⟨write, isLatest.1⟩
    have same : column other = .column write := call.distinct _
      (call.subset _ otherLatest.1.1) _ (call.subset _ isLatest.1.1) (otherLatest.stamp_eq isLatest)
    cases same
    exact Or.inl ⟨_, _, stored, isColumn, rfl⟩
  | none =>
    refine call.baseRow_columnImage inFacts named inside fun column isColumn =>
      call.admittedWrites_eq_empty fun write member same => ?_
    exact filter_eq_nil_iff.mp (getLast?_eq_none_iff.mp last) write member
      (decide_eq_true (same ▸ isColumn))

/-- The operation of a row stays at the row. -/
theorem rowOp_key (busy : rowGroup ctx before changes row ≠ []) :
    (buildRowOp ctx before.rows (rowGroup ctx before changes row)).key ctx = row := by
  obtain ⟨change, inFacts, named, built⟩ :=
    buildRowOp_rowGroup call.plain call.foreign call.subset busy
  rw [built]
  split
  · exact named
  · exact call.uniform.identity (by rw [length_foldl_setColumn, length_baseRow call.rowsMatch])
      (fun _ _ => call.cell_source) inFacts named
      fun index inside => call.updated_columnImage inFacts named inside

/-- A row without changes stays, and a row with changes is what its operation leaves. -/
theorem rowImage_after (row : ι) :
    after.rowImage row = if (rowGroup ctx before changes row).isEmpty then before.rowImage row
      else (buildRowOp ctx before.rows (rowGroup ctx before changes row)).result := by
  have group (other : ι) : (groupChangesByRow ctx (orderDataChangesByHLC
      (appliedChanges (resolveBatch ctx before changes)))).lookup other =
      if (rowGroup ctx before changes other).isEmpty then none
      else some (rowGroup ctx before changes other) :=
    lookup_groupBy _ _ other
  unfold Replica.rowImage
  rw [call.effect.rows, lookup_writeTableRows, group]
  · cases (rowGroup ctx before changes row).isEmpty <;> rfl
  · intro other own found
    rw [group] at found
    split at found
    · cases found
    · next nonempty =>
      cases found
      exact call.rowOp_key fun empty => nonempty (isEmpty_iff.mpr empty)

/-- After the call too a row is absent exactly if it has no cell. -/
theorem present_after (row : ι) :
    after.rowImage row = none ↔ ∀ column, after.cellFact row column = none := by
  by_cases idle : rowGroup ctx before changes row = []
  · rw [call.rowImage_after, if_pos (isEmpty_iff.mpr idle), call.rowsMatch.present]
    simp only [call.cellFact_of_rowGroup_nil idle]
  · obtain ⟨_, -, -, built⟩ := buildRowOp_rowGroup call.plain call.foreign call.subset idle
    obtain ⟨change, member⟩ := exists_mem_of_ne_nil _ idle
    rw [call.rowImage_after, if_neg (mt List.isEmpty_iff.mp idle), built]
    split
    · next cleared =>
      rw [Bool.and_eq_true, any_isDelete_rowGroup call.plain call.foreign,
        List.isEmpty_iff] at cleared
      refine ⟨fun _ column => call.effect.cell_cleared row column
        (call.admittedWrites_eq_empty ?_) cleared.1, fun _ => rfl⟩
      rw [cleared.2]
      exact forall_mem_nil _
    · next updated =>
      obtain ⟨write, written⟩ : ∃ write, write ∈ rowUpdates ctx before changes row := by
        by_contra none
        have empty : rowUpdates ctx before changes row = [] :=
          eq_nil_iff_forall_not_mem.mpr fun write written => none ⟨write, written⟩
        cases change with
        | column write => exact none ⟨write, mem_filterMap.mpr ⟨_, member, rfl⟩⟩
        | delete deletion =>
          refine updated (Bool.and_eq_true_iff.mpr ⟨any_eq_true.mpr ⟨_, member, rfl⟩, ?_⟩)
          exact isEmpty_iff.mpr empty
      have admitted := (mem_rowUpdates call.plain call.foreign).mp written
      obtain ⟨_, -, stored⟩ := call.effect.cell_set row write.column ⟨write, admitted⟩
      refine ⟨nofun, fun none => ?_⟩
      rw [none write.column] at stored
      cases stored

end Matching

/-- A call keeps the rows the images of the cells. -/
theorem RowsMatch.step (uniform : Uniform ctx facts) (distinct : Distinct facts)
    (plain : Unassisted ctx before) (foreign : Foreign ctx changes)
    (subset : ∀ change ∈ changes, change ∈ facts) (rowsMatch : RowsMatch ctx facts before)
    (effect : ApplyEffect ctx before after changes) : RowsMatch ctx facts after := by
  have call : Matching ctx facts changes before after :=
    ⟨uniform, distinct, plain, foreign, subset, rowsMatch, effect⟩
  refine ⟨fun row column fact => call.cell_source, call.present_after, fun row image stored => ?_⟩
  rw [call.rowImage_after] at stored
  split at stored
  · next idle =>
    have unchanged := call.cellFact_of_rowGroup_nil (isEmpty_iff.mp idle)
    obtain ⟨length, columns⟩ := rowsMatch.image row image stored
    exact ⟨length, fun index inside => (columns index inside).congr unchanged⟩
  · next busy =>
    obtain ⟨change, inFacts, named, built⟩ :=
      buildRowOp_rowGroup plain foreign subset (mt isEmpty_iff.mpr busy)
    rw [built] at stored
    split at stored
    · cases stored
    · cases stored
      exact ⟨by rw [length_foldl_setColumn, length_baseRow rowsMatch],
        fun index inside => call.updated_columnImage inFacts named inside⟩

end Step

/-- Two rows under one key that may differ in how they spell it. -/
structure Respelled (ctx : TableContext ι) (row : ι) (first second : Row) : Prop where
  length : first.length = second.length
  firstKey : ctx.pkIdentity (extractPK ctx first) = row
  secondKey : ctx.pkIdentity (extractPK ctx second) = row
  columns : ∀ index, index ∉ ctx.primaryKeyDefinition →
    first.getD index .null = second.getD index .null

section Records

variable {first second : Replica ι} (uniform : Uniform ctx facts)
  (firstMatch : RowsMatch ctx facts first) (secondMatch : RowsMatch ctx facts second)
  (same : ∀ row column, first.cellFact row column = second.cellFact row column)

include uniform firstMatch secondMatch same

/-- Equal cells mean the same rows, with equal images up to the spelling of the key. -/
theorem RowsMatch.rowImage_cases (row : ι) :
    (first.rowImage row = none ∧ second.rowImage row = none) ∨
      ∃ image other, first.rowImage row = some image ∧ second.rowImage row = some other ∧
        Respelled ctx row image other ∧ (OneSpelling ctx facts → image = other) := by
  have absent : first.rowImage row = none ↔ second.rowImage row = none := by
    rw [firstMatch.present, secondMatch.present]
    simp only [same]
  cases firstRow : first.rowImage row with
  | none => exact Or.inl ⟨rfl, absent.mp firstRow⟩
  | some image =>
    cases secondRow : second.rowImage row with
    | none =>
      rw [absent.mpr secondRow] at firstRow
      cases firstRow
    | some other =>
      -- A stored row has a cell, and so a fact that names it.
      obtain ⟨column, found⟩ := not_forall.mp (mt (firstMatch.present row).mpr (firstRow ▸ nofun))
      obtain ⟨fact, found⟩ := Option.ne_none_iff_exists'.mp found
      obtain ⟨write, ⟨written, sameRow, -⟩, -⟩ := firstMatch.source row column fact found
      obtain ⟨length, columns⟩ := firstMatch.image row image firstRow
      obtain ⟨otherLength, otherColumns⟩ := secondMatch.image row other secondRow
      have agree (index : Nat) (inside : index < ctx.columnCount) :=
        columnImage_eq_or uniform firstMatch (columns index inside)
          ((otherColumns index inside).congr fun column => same row column)
      refine Or.inr ⟨image, other, rfl, rfl, ⟨length.trans otherLength.symm,
        uniform.identity length (firstMatch.source row) written sameRow columns,
        uniform.identity otherLength (secondMatch.source row) written sameRow otherColumns,
        fun index noKey => ?_⟩, fun spelled => ?_⟩
      · by_cases inside : index < ctx.columnCount
        · rcases agree index inside with equal | ⟨⟨_, -, -, value⟩, _, -, -, otherValue⟩
          · exact equal
          · rw [value, otherValue, keyOnlyRow_getD_of_notMem _ noKey,
              keyOnlyRow_getD_of_notMem _ noKey]
        · rw [getD_outside length inside, getD_outside otherLength inside]
      · refine ext_getElem (length.trans otherLength.symm) fun index inside otherInside => ?_
        have agree := agree index (length ▸ inside)
        rw [getD_eq_getElem _ _ inside, getD_eq_getElem _ _ otherInside] at agree
        rcases agree with equal | ⟨⟨_, inFacts, named, value⟩, _, otherIn, otherNamed, otherValue⟩
        · exact equal
        · rw [value, otherValue, spelled _ inFacts _ otherIn (named.trans otherNamed.symm)]

end Records

end Quereus.Sync
