import Quereus.Lib.Comparator
import Quereus.Planner.PartialUnique

/-! # Sort keys and their pruning

A sort compares rows key by key, each with the comparator `createTypedOrderByComparator` builds for
it. `ruleOrderByFdPruning` drops the keys that the bare column keys before them determine, and all
keys behind columns that identify the rows.
-/

namespace Quereus.Planner

open Agreement Comparator List

variable {ν : Type}

inductive SortDirection
  | asc
  | desc
  deriving DecidableEq

inductive NullsOrdering
  | first
  | last
  deriving DecidableEq

/-- A bare column reference, or an expression with a value and an order of its own. -/
inductive SortExpression (ν : Type)
  | column (attributeId : Nat)
  | other (value : (Nat → ν) → ν) (compare : ν → ν → Ordering)

structure SortKey (ν : Type) where
  expression : SortExpression ν
  direction : SortDirection
  nulls : Option NullsOrdering

/-- Where NULLs go does not depend on the direction. -/
def orderByNullResult (aIsNull bIsNull : Bool) (nullsOrdering : Option NullsOrdering) : Ordering :=
  if aIsNull && bIsNull then .eq
  else if aIsNull then if nullsOrdering = some .last then .gt else .lt
  else if nullsOrdering = some .last then .lt else .gt

def createTypedOrderByComparator (isNull : ν → Bool) (typedCompare : ν → ν → Ordering)
    (direction : SortDirection) (nullsOrdering : Option NullsOrdering) (a b : ν) : Ordering :=
  if !isNull a && !isNull b then directed (direction = .desc) typedCompare a b
  else orderByNullResult (isNull a) (isNull b) nullsOrdering

/-- The source of a sort: what is known of its rows, where its attributes are, and the order that
type and collation give each column. -/
structure SortSource (ν : Type) where
  rel : KeyRel (Nat × ν)
  equivClasses : List (List Nat)
  attributeIndex : Nat → Option Nat
  isNull : ν → Bool
  compare : Nat → ν → ν → Ordering
  lawful : ∀ column, Std.OrientedCmp (compare column)

namespace SortSource

variable (source : SortSource ν)

/-- A column from outside the source is the same for all rows. -/
def compareKey (key : SortKey ν) (first second : Nat → ν) : Ordering :=
  match key.expression with
  | .column attributeId =>
    match source.attributeIndex attributeId with
    | some index => createTypedOrderByComparator source.isNull (source.compare index) key.direction
        key.nulls (first index) (second index)
    | none => .eq
  | .other value compare => createTypedOrderByComparator source.isNull compare key.direction
      key.nulls (value first) (value second)

def compareKeys : List (SortKey ν) → (first second : Nat → ν) → Ordering
  | [], _, _ => .eq
  | key :: keys, first, second =>
    (source.compareKey key first second).then (compareKeys keys first second)

def SortedBy (keys : List (SortKey ν)) (rows : List (Nat → ν)) : Prop :=
  rows.Pairwise fun first second => (source.compareKeys keys first second).isLE

/-- The loop over the keys, with the columns that those kept determine and the columns kept. -/
def survivors : List (SortKey ν) → (determined : Finset Nat) → (leadingCols : List Nat) →
    List (SortKey ν)
  | [], _, _ => []
  | key :: keys, determined, leadingCols =>
    match key.expression with
    | .other _ _ => key :: survivors keys determined leadingCols
    | .column attributeId =>
      match source.attributeIndex attributeId with
      | none => key :: survivors keys determined leadingCols
      | some srcIdx =>
        if srcIdx ∈ determined then survivors keys determined leadingCols
        else if source.rel.isUnique (leadingCols ++ [srcIdx]) then [key]
        else key :: survivors keys (insert srcIdx determined ∪ computeClosure
          (insert srcIdx determined) (expandEcsToFds source.equivClasses source.rel.fds))
          (leadingCols ++ [srcIdx])

/-- The keys of the new sort, if there is one. Without keys it is the source itself. -/
def ruleOrderByFdPruning (sortKeys : List (SortKey ν)) : Option (List (SortKey ν)) :=
  if source.rel.isAtMostOneRow then some []
  else if sortKeys.length < 2 then none
  else if source.rel.fds.isEmpty && source.equivClasses.isEmpty && source.rel.keysOf.isEmpty then
    none
  else
    let kept := source.survivors sortKeys ∅ []
    if kept.length = sortKeys.length ∨ kept = [] then none else some kept

/-- Values of one column that the comparison of the column does not tell apart. -/
def Same (first second : Nat × ν) : Prop :=
  first.1 = second.1 ∧ createTypedOrderByComparator source.isNull (source.compare first.1) .asc none
    first.2 second.2 = .eq

def withColumns (row : Nat → ν) (column : Nat) : Nat × ν :=
  (column, row column)

def Agrees (columns : Nat → Prop) (first second : Nat → ν) : Prop :=
  Agree source.Same columns (withColumns first) (withColumns second)

/-- Keys and dependencies hold under the comparison of each column, the columns of a class have one
value in every row, and they are compared alike. -/
structure HoldsOf (rows : List (Nat → ν)) : Prop where
  facts : source.rel.HoldsOf source.Same (rows.map withColumns)
  equal : ∀ cls ∈ source.equivClasses, ∀ a ∈ cls, ∀ b ∈ cls, ∀ row ∈ rows, row a = row b
  alike : ∀ cls ∈ source.equivClasses, ∀ a ∈ cls, ∀ b ∈ cls, source.compare a = source.compare b

variable {source} {first second : Nat → ν} {rows : List (Nat → ν)}

/-- Direction and NULL placement do not change which values tie. -/
theorem createTypedOrderByComparator_eq_iff {isNull : ν → Bool} {compare : ν → ν → Ordering}
    (direction : SortDirection) (nulls : Option NullsOrdering) {a b : ν} :
    createTypedOrderByComparator isNull compare direction nulls a b = .eq ↔
      isNull a = isNull b ∧ (isNull a = false → compare a b = .eq) := by
  unfold createTypedOrderByComparator orderByNullResult
  cases isNull a <;> cases isNull b
  · simp [directed_eq_eq]
  · by_cases last : nulls = some .last <;> simp [last]
  · by_cases last : nulls = some .last <;> simp [last]
  · simp

theorem Same.symm {first second : Nat × ν} (same : source.Same first second) :
    source.Same second first := by
  obtain ⟨column, a⟩ := first
  obtain ⟨_, b⟩ := second
  obtain ⟨rfl, same⟩ := same
  refine ⟨rfl, ?_⟩
  rw [createTypedOrderByComparator_eq_iff] at same ⊢
  have := source.lawful column
  exact ⟨same.1.symm, fun present => Std.OrientedCmp.eq_symm (same.2 (same.1.trans present))⟩

/-- The dependencies of classes hold too. -/
theorem HoldsOf.valuesHold (holds : source.HoldsOf rows) :
    ValuesHold source.Same (rows.map withColumns)
      (expandEcsToFds source.equivClasses source.rel.fds) := by
  intro fd member unguarded
  rcases mem_expandEcsToFds member with given | ⟨cls, inClasses, a, inA, b, inB, rfl⟩
  · exact holds.facts.dependencies.values fd given unguarded
  · intro _ inFirst _ inSecond agree column isB
    obtain ⟨first, inRows, rfl⟩ := mem_map.mp inFirst
    obtain ⟨second, inRows', rfl⟩ := mem_map.mp inSecond
    obtain rfl := mem_singleton.mp isB
    have same := (agree a mem_cons_self).2
    refine ⟨rfl, ?_⟩
    change createTypedOrderByComparator _ (source.compare a) _ _ (first a) (second a) = _ at same
    rwa [holds.alike cls inClasses a inA column inB,
      holds.equal cls inClasses a inA column inB first
      inRows, holds.equal cls inClasses a inA column inB second inRows'] at same

/-- Two rows that agree on what is determined compare by the keys kept as by all keys. -/
theorem compareKeys_survivors
    (closed : ∀ attrs, source.Agrees (· ∈ attrs) first second →
      source.Agrees (· ∈ computeClosure attrs
      (expandEcsToFds source.equivClasses source.rel.fds)) first second)
    (apart : ∀ cols, source.rel.isUnique cols = true → ¬ source.Agrees (· ∈ cols) first second)
    (keys : List (SortKey ν)) {determined : Finset Nat} {leadingCols : List Nat}
    (agrees : source.Agrees (· ∈ determined) first second)
    (within : ∀ column ∈ leadingCols, column ∈ determined) :
    source.compareKeys (source.survivors keys determined leadingCols) first second =
      source.compareKeys keys first second := by
  induction keys generalizing determined leadingCols with
  | nil => rfl
  | cons key keys ih =>
    unfold survivors
    split
    · rw [compareKeys, compareKeys, ih agrees within]
    next attributeId isColumn =>
    split
    · rw [compareKeys, compareKeys, ih agrees within]
    next srcIdx resolved =>
    have tie : source.compareKey key first second = .eq ↔
        source.Same (withColumns first srcIdx) (withColumns second srcIdx) := by
      simp only [compareKey, isColumn, resolved, Same, withColumns, true_and,
        createTypedOrderByComparator_eq_iff]
    split
    · next known =>
      rw [compareKeys, ih agrees within, tie.mpr (agrees srcIdx known), Ordering.eq_then]
    have leads : ∀ column ∈ leadingCols ++ [srcIdx], column ∈ insert srcIdx determined :=
      forall_mem_append.mpr ⟨fun column old =>
        Finset.mem_insert_of_mem (within column old), by simp⟩
    cases verdict : source.compareKey key first second with
    | eq =>
      have agrees' : source.Agrees (· ∈ insert srcIdx determined) first second :=
        (Finset.forall_mem_insert ..).mpr ⟨tie.mp verdict, agrees⟩
      split
      · next unique => exact absurd (agrees'.mono leads) (apart _ unique)
      · rw [compareKeys, compareKeys, ih]
        · exact fun column member => (Finset.mem_union.mp member).elim (agrees' column)
            (closed _ agrees' column)
        · exact fun column member => Finset.mem_union_left _ (leads column member)
    | _ =>
      -- The rows are told apart here, whatever is dropped behind.
      split <;> simp [compareKeys, verdict]

/-- Every arrangement of the rows that is sorted by the keys kept is sorted by all keys. -/
theorem ruleOrderByFdPruning_sorted (source : SortSource ν) {sortKeys kept : List (SortKey ν)}
    (rewritten : source.ruleOrderByFdPruning sortKeys = some kept) {rows arranged : List (Nat → ν)}
    (holds : source.HoldsOf rows) (arranges : arranged ~ rows)
    (sorted : source.SortedBy kept arranged) : source.SortedBy sortKeys arranged := by
  refine pairwise_iff_forall_sublist.mpr fun {first second} pair => ?_
  have taken : [withColumns first, withColumns second].Subperm (rows.map withColumns) :=
    (pair.map withColumns).subperm.trans (arranges.map withColumns).subperm
  have apart (cols : List Nat) (unique : source.rel.isUnique cols = true) :
      ¬ source.Agrees (· ∈ cols) first second :=
    pairwise_pair.mp
      ((KeyRel.isUnique_identifies holds.facts unique).subperm (fun _ _ => Same.symm) taken)
  simp only [ruleOrderByFdPruning] at rewritten
  split_ifs at rewritten with single
  · exact absurd nofun (apart [] single)
  · obtain rfl := Option.some.inj rewritten
    have verdict := pairwise_iff_forall_sublist.mp sorted pair
    have closed (attrs : Finset Nat) := determines_computeClosure holds.valuesHold attrs _
      (taken.subset mem_cons_self) _ (taken.subset (mem_cons_of_mem _ mem_cons_self))
    rwa [compareKeys_survivors closed apart sortKeys (by simp [Agrees, Agree]) (by simp)] at verdict

/-- Two columns of letters with one value, each with a collation. -/
def mirrored (collation : Nat → String) : SortSource (Option Char) where
  rel := ⟨[], 2, false, []⟩
  equivClasses := [[0, 1]]
  attributeIndex := some
  isNull := Option.isNone
  compare := fun column => Letter.collations.collated (collation column)
  lawful := fun _ => (Letter.collations.lawful _).toOrientedCmp

def ascending (attributeId : Nat) : SortKey (Option Char) :=
  ⟨.column attributeId, .asc, none⟩

/-- The second of two equal columns is pruned. -/
theorem ruleOrderByFdPruning_sorted_mirrored :
    (mirrored fun _ => "BINARY").SortedBy [ascending 0, ascending 1]
    [fun _ => none, fun _ => some 'a'] := by
  have pruned : (mirrored fun _ => "BINARY").ruleOrderByFdPruning [ascending 0, ascending 1] =
      some [ascending 0] := rfl
  refine ruleOrderByFdPruning_sorted _ pruned ⟨⟨nofun, nofun, nofun, nofun⟩,
    by simp [mirrored], by simp [mirrored]⟩ (.refl _) ?_
  simp [SortedBy]
  decide

/-- If one of two equal columns is compared more coarsely, the pruned sort may leave the other out
of order. -/
theorem ruleOrderByFdPruning_coarse :
    let source := mirrored fun column => if column = 0 then "NOCASE" else "BINARY"
    let rows := [fun _ => some 'a', fun _ => some 'A']
    source.ruleOrderByFdPruning [ascending 0, ascending 1] = some [ascending 0] ∧
      source.rel.HoldsOf source.Same (rows.map withColumns) ∧
      (∀ row ∈ rows, row 0 = row 1) ∧ source.SortedBy [ascending 0] rows ∧
      ¬ source.SortedBy [ascending 0, ascending 1] rows := by
  refine ⟨rfl, ⟨nofun, nofun, nofun, nofun⟩, by simp, ?_, ?_⟩ <;> simp [SortedBy] <;> decide

end SortSource

end Quereus.Planner
