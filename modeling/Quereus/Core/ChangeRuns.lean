import Quereus.Core.ChangeLog

/-! # Transactions and their change log

In every run of valid row changes and savepoint operations the layers of the log say
how the rows of each key have changed, layer by layer, and their records come from
changes that are not undone. Infinite numbers are the exception: all of them have
one code.
-/

namespace Quereus.Core

open Memory (cellAt)
open List NetChange

def isFiniteCell (cell : Cell) : Bool :=
  match cell.1 with
  | .number value => value.isFinite
  | _ => true

/-- The two zeros compare equal. -/
def EquatesZeros (compare : Cell → Cell → Ordering) : Prop :=
  ∀ first second : Cell, first.1 = .number .zero → second.1 = .number .negativeZero →
    compare first second = .eq

/-- The tables of a database: what the log reads, and how the columns compare. -/
structure Tables extends LogTables where
  compareColumn : String → Nat → Cell → Cell → Ordering
  lawful : ∀ base column, Std.TransCmp (compareColumn base column)
  zeros : ∀ base column, EquatesZeros (compareColumn base column)

/-- The rows of every table. -/
abbrev Contents := String → List Row

/-- A change of a row. -/
inductive Change where
  | insert (base : String) (newRow : Row)
  | delete (base : String) (oldRow : Row)
  | update (base : String) (oldRow newRow : Row)

/-- The rows a change takes away or puts in, with the table. -/
def Change.rows : Change → List (String × Row)
  | .insert base newRow => [(base, newRow)]
  | .delete base oldRow => [(base, oldRow)]
  | .update base oldRow newRow => [(base, oldRow), (base, newRow)]

/-- A step of a transaction. -/
inductive Step where
  | change (change : Change)
  | createSavepoint (name : String)
  | releaseSavepoint (name : String)
  | rollbackToSavepoint (name : String)

namespace Contents

def insert (contents : Contents) (base : String) (newRow : Row) : Contents :=
  Function.update contents base (newRow :: contents base)

def delete (contents : Contents) (base : String) (oldRow : Row) : Contents :=
  Function.update contents base ((contents base).filter fun row => row ≠ oldRow)

/-- The contents after a change. -/
def apply (contents : Contents) : Change → Contents
  | .insert base newRow => contents.insert base newRow
  | .delete base oldRow => contents.delete base oldRow
  | .update base oldRow newRow => (contents.delete base oldRow).insert base newRow

end Contents

/-- A transaction with what is told of it besides the log: the contents each savepoint
saw, and for each layer the changes that are not undone, the innermost first. -/
structure Transaction where
  contents : Contents
  snapshots : List Contents
  log : ChangeLog
  changes : List (List Change)

namespace Tables

variable (tables : Tables)

def comparePrimaryKey (base : String) : List Cell → List Cell → Ordering :=
  Comparator.tuple ((tables.pkIndices base).map (tables.compareColumn base))

instance (base : String) : Std.TransCmp (tables.comparePrimaryKey base) :=
  Comparator.transCmp_tuple fun compare member => by
    obtain ⟨column, -, rfl⟩ := mem_map.mp member
    exact tables.lawful base column

def keyOf (base : String) (row : Row) : List Cell :=
  projectRow row (tables.pkIndices base)

def sameKey (base : String) (row : Row) (key : List Cell) : Bool :=
  tables.comparePrimaryKey base (tables.keyOf base row) key == .eq

/-- The row of a key. -/
def rowAt (contents : Contents) (base : String) (key : List Cell) : Option Row :=
  (contents base).find? fun row => tables.sameKey base row key

/-- No two rows of a table have the same key. -/
def UniqueKeys (contents : Contents) : Prop :=
  ∀ base, ∀ first ∈ contents base, ∀ second ∈ contents base,
    tables.sameKey base first (tables.keyOf base second) → first = second

/-- An inserted key is new, a deleted or updated row is there, and an update takes no
other row's key. -/
def Valid (contents : Contents) : Change → Prop
  | .insert base newRow =>
    ∀ row ∈ contents base, tables.sameKey base row (tables.keyOf base newRow) = false
  | .delete base oldRow => oldRow ∈ contents base
  | .update base oldRow newRow => oldRow ∈ contents base ∧ ∀ row ∈ contents base, row ≠ oldRow →
      tables.sameKey base row (tables.keyOf base newRow) = false

instance (contents : Contents) (change : Change) : Decidable (tables.Valid contents change) :=
  match change with
  | .insert _ _ => inferInstanceAs (Decidable (∀ _ ∈ _, _))
  | .delete _ _ => inferInstanceAs (Decidable (_ ∈ _))
  | .update _ _ _ => inferInstanceAs (Decidable (_ ∧ ∀ _ ∈ _, _))

/-- The captured columns of a row hold no infinite number. -/
def Finite (base : String) (row : Row) : Prop :=
  (tables.projectionFor base row).all isFiniteCell

def FiniteChange : Change → Prop
  | .insert base newRow => tables.Finite base newRow
  | .delete base oldRow => tables.Finite base oldRow
  | .update base oldRow newRow => tables.Finite base oldRow ∧ tables.Finite base newRow

instance (change : Change) : Decidable (tables.FiniteChange change) :=
  match change with
  | .insert _ _ => inferInstanceAs (Decidable (_ = true))
  | .delete _ _ => inferInstanceAs (Decidable (_ = true))
  | .update _ _ _ => inferInstanceAs (Decidable (_ = true ∧ _ = true))

/-- The log after a change. -/
def record (log : ChangeLog) : Change → ChangeLog
  | .insert base newRow => tables.recordInsert log base newRow
  | .delete base oldRow => tables.recordDelete log base oldRow
  | .update base oldRow newRow => tables.recordUpdate log base oldRow newRow

/-- The projections of a change, with the table. -/
def imagesOf (change : Change) : List (String × List Cell) :=
  change.rows.map fun (base, row) => (base, tables.projectionFor base row)

end Tables

/-- Add a change to the innermost layer's. -/
def noteChange (change : Change) : List (List Change) → List (List Change)
  | [] => [[change]]
  | innermost :: others => (innermost ++ [change]) :: others

/-- Give the innermost layer's changes to the next layer. -/
def mergeChanges : List (List Change) → List (List Change)
  | innermost :: next :: others => (next ++ innermost) :: others
  | changes => changes

namespace Transaction

variable (tables : Tables)

def start (contents : Contents) : Transaction :=
  ⟨contents, [], .empty, [[]]⟩

def step (transaction : Transaction) : Step → Transaction
  | .change change =>
    { transaction with
      contents := transaction.contents.apply change
      log := tables.record transaction.log change
      changes := noteChange change transaction.changes }
  | .createSavepoint name =>
    { contents := transaction.contents
      snapshots := transaction.contents :: transaction.snapshots
      log := transaction.log.createSavepoint name
      changes := [] :: transaction.changes }
  | .releaseSavepoint name =>
    match findSavepoint transaction.log.savepointStack name with
    | none => transaction
    | some index =>
      let count := transaction.log.savepointStack.length - index
      { contents := transaction.contents
        snapshots := transaction.snapshots.drop count
        log := transaction.log.releaseSavepoint name
        changes := mergeChanges^[count] transaction.changes }
  | .rollbackToSavepoint name =>
    match findSavepoint transaction.log.savepointStack name with
    | none => transaction
    | some index =>
      let count := transaction.log.savepointStack.length - index
      match (transaction.contents :: transaction.snapshots).drop count with
      | [] => transaction
      | saved :: others =>
        { contents := saved
          snapshots := saved :: others
          log := transaction.log.rollbackToSavepoint name
          changes := [] :: transaction.changes.drop count }

def run (transaction : Transaction) (steps : List Step) : Transaction :=
  steps.foldl (step tables) transaction

/-- The changes that are not undone. -/
def survivingChanges (transaction : Transaction) : List Change :=
  transaction.changes.flatten

/-- A row change is valid for the table, and the captured columns of its rows hold no
infinite number. -/
def StepValid (transaction : Transaction) : Step → Prop
  | .change change => tables.Valid transaction.contents change ∧ tables.FiniteChange change
  | _ => True

/-- Every step is one that the contents before it allow. -/
def RunValid (transaction : Transaction) : List Step → Prop
  | [] => True
  | next :: steps =>
    StepValid tables transaction next ∧ RunValid (step tables transaction next) steps

instance (transaction : Transaction) (next : Step) :
    Decidable (StepValid tables transaction next) :=
  match next with
  | .change _ => inferInstanceAs (Decidable (_ ∧ _))
  | .createSavepoint _ | .releaseSavepoint _ | .rollbackToSavepoint _ => .isTrue trivial

instance decidableRunValid (transaction : Transaction) (steps : List Step) :
    Decidable (RunValid tables transaction steps) :=
  match steps with
  | [] => .isTrue trivial
  | next :: steps =>
    have := decidableRunValid (step tables transaction next) steps
    inferInstanceAs (Decidable (_ ∧ _))

end Transaction

namespace Tables

variable (tables : Tables)

/-- The projection of the row of each coded key. -/
def valuesOf (contents : Contents) : Values ChangeKey (List Cell) :=
  fun key => ((contents key.1).find? fun row => tables.keyFor key.1 row = key).map
    (tables.projectionFor key.1)

/-- What a record says of the row of its key. -/
def captures (record : CapturedRow) (before after : Option (List Cell)) : Prop :=
  match record.op with
  | .insert => before = none ∧ after.isSome ∧ record.newProjection = after
  | .delete => before.isSome ∧ record.oldProjection = before ∧ after = none
  | .update =>
    before.isSome ∧ record.oldProjection = before ∧ after.isSome ∧ record.newProjection = after

/-- Merged records say what the two records say. Pairs that do not fit together, such as
two insertions, do not occur: the row is there between them and is not. -/
theorem captures_composes : Composes captures mergeCaptured := by
  rintro ⟨firstOp, firstOld, firstNew⟩ ⟨secondOp, secondOld, secondNew⟩ before between after
    first second
  cases firstOp <;> cases secondOp <;>
    simp only [captures] at first second <;>
    simp only [mergeCaptured, Spans, captures] <;>
    grind [Option.or_of_isSome]

end Tables

section Codes

/-- Only the two zeros share a code with another finite number. -/
theorem eq_or_zeros_of_code {first second : Double} (finite : second.isFinite = true)
    (same : encodeElement (.number first) = encodeElement (.number second)) :
    first = second ∨ first = .zero ∧ second = .negativeZero ∨ first = .negativeZero ∧
      second = .zero := by
  by_cases firstFinite : first.isFinite = true
  · by_cases firstZero : first = .negativeZero <;>
      by_cases secondZero : second = .negativeZero <;> simp_all [encodeElement]
  · simp_all [encodeElement]

/-- Finite values of one code are equal to any comparison that has the two zeros equal. -/
theorem compare_of_encodeElement {compare : Cell → Cell → Ordering} [Std.TransCmp compare]
    (zeros : EquatesZeros compare) {first second : Cell} (finite : isFiniteCell second = true)
    (same : encodeElement first.1 = encodeElement second.1) : compare first second = .eq := by
  obtain ⟨first, firstNumber⟩ := first
  obtain ⟨second, secondNumber⟩ := second
  cases first with
  | number first =>
    cases second with
    | number second =>
      obtain rfl | ⟨rfl, rfl⟩ | ⟨rfl, rfl⟩ := eq_or_zeros_of_code finite same
      · exact Std.ReflCmp.compare_self
      · exact zeros _ _ rfl rfl
      · exact Std.OrientedCmp.eq_symm (zeros _ _ rfl rfl)
    | _ => cases same
  | _ =>
    cases second <;> cases same
    exact Std.ReflCmp.compare_self

end Codes

namespace Tables

variable {tables : Tables} {contents : Contents} {base : String}
    {first second row newRow oldRow : Row}

theorem comparePrimaryKey_of_encodeKeyTuple {first second : List Cell}
    (finite : second.all isFiniteCell) (same : encodeKeyTuple first = encodeKeyTuple second) :
    tables.comparePrimaryKey base first second = .eq := by
  unfold comparePrimaryKey
  induction tables.pkIndices base generalizing first second with
  | nil => rfl
  | cons column columns ih =>
    cases first with
    | nil => rw [map_eq_nil_iff.mp same.symm]; rfl
    | cons cell first =>
      cases second with
      | nil => cases same
      | cons other second =>
        rw [all_cons, Bool.and_eq_true] at finite
        obtain ⟨here, rest⟩ := cons.inj same
        have := tables.lawful base column
        rw [map_cons, Comparator.tuple, ih finite.2 rest,
          compare_of_encodeElement (tables.zeros base column) finite.1 here]
        rfl

theorem finite_key (finite : tables.Finite base row) :
    (tables.keyOf base row).all isFiniteCell := by
  unfold Finite LogTables.projectionFor LogTables.captureColumnsFor projectRow at finite
  rw [map_append, all_append, Bool.and_eq_true] at finite
  exact finite.1

/-- Rows with one coded key have equal keys. -/
theorem sameKey_of_keyFor (finite : tables.Finite base first)
    (same : tables.keyFor base first = tables.keyFor base second) :
    tables.sameKey base second (tables.keyOf base first) = true := by
  rw [sameKey, beq_iff_eq]
  exact comparePrimaryKey_of_encodeKeyTuple (finite_key finite) (Prod.mk.inj same).2.symm

/-- The coded key of a row finds the row. -/
theorem valuesOf_of_mem (unique : tables.UniqueKeys contents) (member : row ∈ contents base)
    (finite : tables.Finite base row) :
    tables.valuesOf contents (tables.keyFor base row) = some (tables.projectionFor base row) := by
  obtain ⟨other, found⟩ : ∃ other, (contents base).find? (fun other =>
      tables.keyFor base other = tables.keyFor base row) = some other := by
    rw [← Option.isSome_iff_exists, find?_isSome]
    exact ⟨row, member, by simp⟩
  have same : tables.keyFor base other = tables.keyFor base row := by
    simpa using find?_some found
  have equal : other = row := unique base other (mem_of_find?_eq_some found) row member
    (sameKey_of_keyFor finite same.symm)
  rw [equal] at found
  exact congrArg (Option.map (tables.projectionFor base)) found

variable {key : ChangeKey} {table : String} {change : Change}

/-- A coded key without a row has no value. -/
theorem valuesOf_eq_none (absent : ∀ row ∈ contents key.1, tables.keyFor key.1 row ≠ key) :
    tables.valuesOf contents key = none := by
  unfold valuesOf
  rw [Option.map_eq_none_iff, find?_eq_none]
  intro row member same
  exact absent row member (of_decide_eq_true same)

theorem mem_insert : row ∈ contents.insert base newRow table ↔
    (table = base ∧ row = newRow) ∨ row ∈ contents table := by
  by_cases here : table = base
  · subst here
    simp [Contents.insert]
  · simp [Contents.insert, here]

theorem mem_delete : row ∈ contents.delete base oldRow table ↔
    row ∈ contents table ∧ ¬ (table = base ∧ row = oldRow) := by
  by_cases here : table = base
  · subst here
    simp [Contents.delete]
  · simp [Contents.delete, here]

/-- An insert sets the value at its key alone. -/
theorem valuesOf_insert (contents : Contents) (base : String) (newRow : Row) (key : ChangeKey) :
    tables.valuesOf (contents.insert base newRow) key =
      if key = tables.keyFor base newRow then some (tables.projectionFor base newRow)
      else tables.valuesOf contents key := by
  obtain ⟨table, code⟩ := key
  unfold valuesOf Contents.insert
  by_cases here : table = base
  · subst here
    by_cases same : tables.keyFor table newRow = (table, code)
    · simp [same]
    · simp [same, Ne.symm same]
  · rw [Function.update_of_ne here, if_neg]
    exact fun same => here (Prod.mk.inj same).1

/-- A delete clears the value at its key alone. -/
theorem valuesOf_delete (unique : tables.UniqueKeys contents) (member : oldRow ∈ contents base)
    (finite : tables.Finite base oldRow) (key : ChangeKey) :
    tables.valuesOf (contents.delete base oldRow) key =
      if key = tables.keyFor base oldRow then none else tables.valuesOf contents key := by
  split
  · next same =>
    subst same
    apply valuesOf_eq_none
    intro row inside equal
    obtain ⟨inside, other⟩ := mem_delete.mp inside
    exact other ⟨rfl, unique base row inside oldRow member (sameKey_of_keyFor finite equal.symm)⟩
  · next different =>
    obtain ⟨table, code⟩ := key
    unfold valuesOf Contents.delete
    by_cases here : table = base
    · subst here
      rw [Function.update_self, find?_filter]
      congr 2
      funext row
      by_cases old : row = oldRow
      · subst old
        simp [Ne.symm different]
      · simp [old]
    · rw [Function.update_of_ne here]

theorem uniqueKeys_insert (unique : tables.UniqueKeys contents)
    (fresh : ∀ row ∈ contents base, tables.sameKey base row (tables.keyOf base newRow) = false) :
    tables.UniqueKeys (contents.insert base newRow) := by
  intro table first inFirst second inSecond same
  obtain ⟨rfl, rfl⟩ | firstOld := mem_insert.mp inFirst <;>
    obtain ⟨here, rfl⟩ | secondOld := mem_insert.mp inSecond
  · rfl
  · have reversed : tables.sameKey table second (tables.keyOf table first) = true := by
      rw [sameKey, beq_iff_eq] at same ⊢
      exact Std.OrientedCmp.eq_symm same
    rw [fresh second secondOld] at reversed
    cases reversed
  · subst here
    rw [fresh first firstOld] at same
    cases same
  · exact unique table first firstOld second secondOld same

theorem uniqueKeys_delete (unique : tables.UniqueKeys contents) :
    tables.UniqueKeys (contents.delete base oldRow) :=
  fun table first inFirst second inSecond =>
    unique table first (mem_delete.mp inFirst).1 second (mem_delete.mp inSecond).1

/-- A valid update takes a key that is free once the old row is gone. -/
theorem fresh_of_update (others : ∀ row ∈ contents base, row ≠ oldRow →
      tables.sameKey base row (tables.keyOf base newRow) = false) :
    ∀ row ∈ contents.delete base oldRow base,
      tables.sameKey base row (tables.keyOf base newRow) = false := by
  intro row member
  obtain ⟨member, other⟩ := mem_delete.mp member
  exact others row member fun same => other ⟨rfl, same⟩

/-- A valid change keeps the keys unique. -/
theorem uniqueKeys_apply (unique : tables.UniqueKeys contents)
    (valid : tables.Valid contents change) : tables.UniqueKeys (contents.apply change) := by
  cases change with
  | insert base newRow => exact uniqueKeys_insert unique valid
  | delete base oldRow => exact uniqueKeys_delete unique
  | update base oldRow newRow =>
    exact uniqueKeys_insert (uniqueKeys_delete unique) (fresh_of_update valid.2)

section Recorded

variable {start : Values ChangeKey (List Cell)}
  {opened : List (Values ChangeKey (List Cell))} {log : ChangeLog}

/-- The layers of the log say how the contents have changed. -/
def LogSpans (log : ChangeLog) (start : Values ChangeKey (List Cell))
    (opened : List (Values ChangeKey (List Cell)))
    (current : Values ChangeKey (List Cell)) : Prop :=
  StackSpans captures log.stack.bottom start log.stack.layers opened current

variable (spans : LogSpans log start opened (tables.valuesOf contents))

include spans

theorem logSpans_recordInsert (finite : tables.Finite base newRow)
    (fresh : ∀ row ∈ contents base, tables.sameKey base row (tables.keyOf base newRow) = false) :
    LogSpans (tables.recordInsert log base newRow) start opened
      (tables.valuesOf (contents.insert base newRow)) := by
  have absent : tables.valuesOf contents (tables.keyFor base newRow) = none := by
    apply valuesOf_eq_none
    intro row member same
    have equal := sameKey_of_keyFor finite same.symm
    rw [fresh row member] at equal
    cases equal
  refine StackSpans.noteOnTop captures_composes spans ?_ fun other different => ?_
  · rw [absent, valuesOf_insert, if_pos rfl]
    exact ⟨rfl, rfl, rfl⟩
  · rw [valuesOf_insert, if_neg different]

variable (unique : tables.UniqueKeys contents)

include unique

theorem logSpans_recordDelete (member : oldRow ∈ contents base)
    (finite : tables.Finite base oldRow) :
    LogSpans (tables.recordDelete log base oldRow) start opened
      (tables.valuesOf (contents.delete base oldRow)) := by
  refine StackSpans.noteOnTop captures_composes spans ?_ fun other different => ?_
  · rw [valuesOf_of_mem unique member finite, valuesOf_delete unique member finite, if_pos rfl]
    exact ⟨rfl, rfl, rfl⟩
  · rw [valuesOf_delete unique member finite, if_neg different]

theorem logSpans_recordUpdate (valid : tables.Valid contents (.update base oldRow newRow))
    (finite : tables.FiniteChange (.update base oldRow newRow)) :
    LogSpans (tables.recordUpdate log base oldRow newRow) start opened
      (tables.valuesOf (contents.apply (.update base oldRow newRow))) := by
  unfold LogTables.recordUpdate Contents.apply
  split
  · next same =>
    refine StackSpans.noteOnTop captures_composes spans ?_ fun other different => ?_
    · rw [valuesOf_of_mem unique valid.1 finite.1, valuesOf_insert, if_pos same]
      exact ⟨rfl, rfl, rfl, rfl⟩
    · rw [valuesOf_insert, if_neg (same ▸ different), valuesOf_delete unique valid.1 finite.1,
        if_neg different]
  · exact logSpans_recordInsert (logSpans_recordDelete spans unique valid.1 finite.1) finite.2
      (fresh_of_update valid.2)

omit unique

end Recorded

/-- The projections in a record. -/
def imagesIn (record : CapturedRow) : List (List Cell) :=
  record.oldProjection.toList ++ record.newProjection.toList

/-- A projection in the record of a table is one of a change of the table. -/
def ComesFrom (tables : Tables) (changes : List Change) (key : ChangeKey)
    (record : CapturedRow) : Prop :=
  ∀ image ∈ imagesIn record, (key.1, image) ∈ changes.flatMap tables.imagesOf

theorem comesFrom_mono {changes more : List Change} (subset : changes ⊆ more) {record : CapturedRow}
    (comes : ComesFrom tables changes key record) :
    ComesFrom tables more key record := by
  intro image member
  obtain ⟨change, inChanges, there⟩ := mem_flatMap.mp (comes image member)
  exact mem_flatMap.mpr ⟨change, subset inChanges, there⟩

theorem comesFrom_merge (changes : List Change) (key : ChangeKey)
    (first second merged : CapturedRow)
    (combined : mergeCaptured first second = some merged)
    (fromFirst : ComesFrom tables changes key first)
    (fromSecond : ComesFrom tables changes key second) : ComesFrom tables changes key merged := by
  intro image member
  have parts : image ∈ imagesIn first ∨ image ∈ imagesIn second := by
    obtain ⟨firstOp, firstOld, firstNew⟩ := first
    obtain ⟨secondOp, secondOld, secondNew⟩ := second
    unfold imagesIn at member ⊢
    cases firstOp <;> cases secondOp <;> simp only [mergeCaptured, Option.some.injEq, reduceCtorEq]
      at combined <;>
      subst combined <;> grind [Option.or_eq_some_iff]
  exact parts.elim (fromFirst image) (fromSecond image)

/-- Each layer's records come from the layer's changes. -/
def Sourced (tables : Tables) (stack : Stack ChangeKey CapturedRow)
    (changes : List (List Change)) : Prop :=
  List.Forall₂ (fun layer group => ∀ entry ∈ layer, ComesFrom tables group entry.1 entry.2)
    stack.fromTop changes

section Sources

variable {stack : Stack ChangeKey CapturedRow} {changes : List (List Change)}

/-- A record of a change goes to the top layer. -/
theorem Sourced.noteOnTop {group : List Change} {groups : List (List Change)}
    (sourced : Sourced tables stack (group :: groups)) {incoming : CapturedRow}
    (comes : ComesFrom tables group key incoming) :
    Sourced tables (stack.noteOnTop mergeCaptured key incoming) (group :: groups) := by
  obtain ⟨bottom, layers⟩ := stack
  cases layers <;> obtain _ | ⟨here, others⟩ := sourced <;>
    exact .cons (forall_note (comesFrom_merge group) here comes) others

/-- A recorded change is one of those of its layer. -/
theorem Sourced.record {log : ChangeLog} (sourced : Sourced tables log.stack changes)
    (change : Change) :
    Sourced tables (tables.record log change).stack (noteChange change changes) := by
  obtain ⟨group, groups, rfl, wider⟩ : ∃ group groups, changes = group :: groups ∧
      Sourced tables log.stack ((group ++ [change]) :: groups) := by
    generalize log.stack = stack at sourced ⊢
    obtain ⟨bottom, layers⟩ := stack
    cases layers <;> obtain _ | ⟨here, others⟩ := sourced
    all_goals
      refine ⟨_, _, rfl, .cons (fun entry member => ?_) others⟩
      exact comesFrom_mono (subset_append_left _ _) (here entry member)
  have own : ∀ key record, (∀ image ∈ imagesIn record, (key, image) ∈ tables.imagesOf change) →
      ∀ code, ComesFrom tables (group ++ [change]) (key, code) record := by
    intro key record images code image member
    exact mem_flatMap.mpr ⟨change, by simp, images image member⟩
  cases change with
  | insert | delete => exact wider.noteOnTop (own _ _ (by simp [imagesIn, imagesOf, Change.rows]) _)
  | update base oldRow newRow =>
    change Sourced tables (tables.recordUpdate log base oldRow newRow).stack _
    unfold LogTables.recordUpdate
    split
    · exact wider.noteOnTop (own _ _ (by simp [imagesIn, imagesOf, Change.rows]) _)
    · refine Sourced.noteOnTop (Sourced.noteOnTop wider ?_) ?_ <;>
        exact own _ _ (by simp [imagesIn, imagesOf, Change.rows]) _

theorem Sourced.push (sourced : Sourced tables stack changes) :
    Sourced tables stack.push ([] :: changes) :=
  .cons (nofun) sourced

theorem Sourced.pops (count : Nat) (sourced : Sourced tables stack changes)
    (deep : count ≤ stack.layers.length) :
    Sourced tables (Stack.pop^[count] stack) (changes.drop count) := by
  induction count generalizing stack changes with
  | zero => exact sourced
  | succ count ih =>
    obtain ⟨bottom, _ | ⟨top, layers⟩⟩ := stack
    · cases deep
    · obtain _ | ⟨here, others⟩ := sourced
      exact ih others (Nat.le_of_succ_le_succ deep)

theorem Sourced.releases (count : Nat) (sourced : Sourced tables stack changes)
    (deep : count ≤ stack.layers.length) :
    Sourced tables ((Stack.release mergeCaptured)^[count] stack)
      (mergeChanges^[count] changes) := by
  induction count generalizing stack changes with
  | zero => exact sourced
  | succ count ih =>
    refine ih ?_ (by rw [Stack.length_release]; omega)
    obtain ⟨bottom, _ | ⟨top, layers⟩⟩ := stack
    · cases deep
    · obtain _ | ⟨here, others⟩ := sourced
      cases layers <;> obtain _ | ⟨there, others⟩ := others
      all_goals
        refine .cons (forall_absorb (comesFrom_merge _) ?_ ?_) others
        · exact fun entry member => comesFrom_mono (subset_append_left _ _) (there entry member)
        · exact fun entry member => comesFrom_mono (subset_append_right _ _) (here entry member)

end Sources

/-- Rows with an infinite number in a captured column are where they were. -/
def Untouched (tables : Tables) (start contents : Contents) : Prop :=
  ∀ base row, ¬ tables.Finite base row → (row ∈ start base ↔ row ∈ contents base)

theorem Untouched.apply {start : Contents} (untouched : Untouched tables start contents)
    (finite : tables.FiniteChange change) : Untouched tables start (contents.apply change) := by
  intro table row infinite
  have differs : ∀ {base other}, tables.Finite base other → ¬ (table = base ∧ row = other) := by
    rintro base other isFinite ⟨rfl, rfl⟩
    exact infinite isFinite
  rw [untouched table row infinite]
  cases change with
  | insert base newRow => exact (mem_insert.trans (or_iff_right (differs finite))).symm
  | delete base oldRow => exact (mem_delete.trans (and_iff_left (differs finite))).symm
  | update base oldRow newRow =>
    exact ((mem_insert.trans (or_iff_right (differs finite.2))).trans
      (mem_delete.trans (and_iff_left (differs finite.1)))).symm

end Tables

namespace Transaction

variable {tables : Tables} {begun : Contents} {transaction : Transaction}

/-- What holds of a transaction that began with some contents. -/
structure Tracks (tables : Tables) (begun : Contents) (transaction : Transaction) : Prop where
  names : transaction.log.savepointStack.length = transaction.snapshots.length
  unique : ∀ contents ∈ transaction.contents :: transaction.snapshots, tables.UniqueKeys contents
  untouched : ∀ contents ∈ transaction.contents :: transaction.snapshots,
    tables.Untouched begun contents
  spans : Tables.LogSpans transaction.log (tables.valuesOf begun)
    (transaction.snapshots.map tables.valuesOf) (tables.valuesOf transaction.contents)
  sourced : tables.Sourced transaction.log.stack transaction.changes

theorem tracks_start (unique : tables.UniqueKeys begun) : Tracks tables begun (start begun) where
  names := rfl
  unique := by simpa [start] using unique
  untouched := by simp [start, Tables.Untouched]
  spans := layerSpans_nil _
  sourced := .cons (nofun) .nil

variable (tracks : Tracks tables begun transaction)

include tracks

/-- There is a layer for every savepoint. -/
theorem Tracks.layers : transaction.log.stack.layers.length = transaction.snapshots.length := by
  rw [StackSpans.length tracks.spans, length_map]

/-- A change is recorded. -/
theorem tracks_change {change : Change} (valid : tables.Valid transaction.contents change)
    (finite : tables.FiniteChange change) :
    Tracks tables begun (step tables transaction (.change change)) := by
  obtain ⟨unique, uniqueSaved⟩ := forall_mem_cons.mp tracks.unique
  obtain ⟨untouched, untouchedSaved⟩ := forall_mem_cons.mp tracks.untouched
  have names : (tables.record transaction.log change).savepointStack =
      transaction.log.savepointStack := by
    cases change with
    | update base oldRow newRow =>
      change (tables.recordUpdate _ _ _ _).savepointStack = _
      unfold LogTables.recordUpdate
      split <;> rfl
    | _ => rfl
  exact
    { names := (congrArg length names).trans tracks.names
      unique := forall_mem_cons.mpr ⟨Tables.uniqueKeys_apply unique valid, uniqueSaved⟩
      untouched := forall_mem_cons.mpr ⟨untouched.apply finite, untouchedSaved⟩
      spans := by
        cases change with
        | insert base newRow => exact Tables.logSpans_recordInsert tracks.spans finite valid
        | delete base oldRow => exact Tables.logSpans_recordDelete tracks.spans unique valid finite
        | update base oldRow newRow =>
          exact Tables.logSpans_recordUpdate tracks.spans unique valid finite
      sourced := tracks.sourced.record change }

variable (name : String)

/-- A savepoint opens a layer. -/
theorem tracks_createSavepoint :
    Tracks tables begun (step tables transaction (.createSavepoint name)) where
  names := by simp [step, ChangeLog.createSavepoint, tracks.names]
  unique := forall_mem_cons.mpr ⟨tracks.unique _ mem_cons_self, tracks.unique⟩
  untouched := forall_mem_cons.mpr ⟨tracks.untouched _ mem_cons_self, tracks.untouched⟩
  spans := StackSpans.push tracks.spans
  sourced := tracks.sourced.push

/-- A release merges the layers above it. -/
theorem tracks_releaseSavepoint :
    Tracks tables begun (step tables transaction (.releaseSavepoint name)) := by
  unfold step
  cases found : findSavepoint transaction.log.savepointStack name with
  | none => simpa only [found] using tracks
  | some index =>
    have names := tracks.names
    have deep : transaction.log.savepointStack.length - index ≤
      transaction.snapshots.length := by omega
    simp only [found]
    exact
      { names := by
          simp only [ChangeLog.releaseSavepoint, found, length_take, length_drop]
          omega
        unique := fun contents member => tracks.unique contents
          (cons_subset_cons _ (drop_subset _ _) member)
        untouched := fun contents member => tracks.untouched contents
          (cons_subset_cons _ (drop_subset _ _) member)
        spans := by
          have released := StackSpans.releases Tables.captures_composes _ tracks.spans
            (deep.trans_eq (length_map _).symm)
          simpa only [Tables.LogSpans, ChangeLog.releaseSavepoint, found, map_drop] using released
        sourced := by
          have released := tracks.sourced.releases _ (tracks.layers ▸ deep)
          simpa only [ChangeLog.releaseSavepoint, found] using released }

/-- A rollback drops them. -/
theorem tracks_rollbackToSavepoint :
    Tracks tables begun (step tables transaction (.rollbackToSavepoint name)) := by
  unfold step
  cases found : findSavepoint transaction.log.savepointStack name with
  | none => simpa only [found] using tracks
  | some index =>
    have inside := findSavepoint_lt found
    have names := tracks.names
    have deep : transaction.log.savepointStack.length - index ≤
      transaction.snapshots.length := by omega
    obtain ⟨savedValues, otherValues, dropped, spans⟩ :=
      StackSpans.pops _ tracks.spans (deep.trans_eq (length_map _).symm)
    rw [← map_cons, ← map_drop] at dropped
    simp only [found]
    cases history : (transaction.contents :: transaction.snapshots).drop
        (transaction.log.savepointStack.length - index) with
    | nil =>
      rw [history] at dropped
      cases dropped
    | cons saved others =>
      rw [history] at dropped
      obtain ⟨rfl, rfl⟩ := cons.inj dropped
      have among : saved :: saved :: others ⊆ transaction.contents :: transaction.snapshots := by
        have sublist : saved :: others ⊆ _ := history ▸ drop_subset _ _
        exact cons_subset.mpr ⟨sublist mem_cons_self, sublist⟩
      have length := congrArg length history
      simp only [length_drop, length_cons] at length
      exact
        { names := by
            simp only [ChangeLog.rollbackToSavepoint, found, length_take, length_cons]
            omega
          unique := fun contents member => tracks.unique contents (among member)
          untouched := fun contents member => tracks.untouched contents (among member)
          spans := by
            simp only [ChangeLog.rollbackToSavepoint, found]
            exact StackSpans.push spans
          sourced := by
            have popped := tracks.sourced.pops _ (tracks.layers ▸ deep)
            simpa only [ChangeLog.rollbackToSavepoint, found] using popped.push }

/-- A step keeps the log in line with the contents. -/
theorem tracks_step (next : Step) (valid : StepValid tables transaction next) :
    Tracks tables begun (step tables transaction next) := by
  cases next with
  | change change => exact tracks_change tracks valid.1 valid.2
  | createSavepoint name => exact tracks_createSavepoint tracks name
  | releaseSavepoint name => exact tracks_releaseSavepoint tracks name
  | rollbackToSavepoint name => exact tracks_rollbackToSavepoint tracks name

omit tracks

/-- A run does. -/
theorem tracks_run (steps : List Step) (tracks : Tracks tables begun transaction)
    (valid : RunValid tables transaction steps) :
      Tracks tables begun (transaction.run tables steps) := by
  induction steps generalizing transaction with
  | nil => exact tracks
  | cons next steps ih => exact ih (tracks_step tracks next valid.1) valid.2

end Transaction

end Quereus.Core
