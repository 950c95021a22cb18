import Quereus.Planner.DependencyMerging

/-! # Merging classes, bindings and domains

The functions of `fd-utils.ts` that merge equivalence classes, extend constant bindings
over them and gather domains. Facts that hold of rows are merged to facts that hold of
them.
-/

namespace Quereus.Planner

open Exhaust List

variable {ν : Type} {order : ValueOrder ν} {parameters : ParamRef → ν} {rows : List (Nat → ν)}

def overlaps (first second : List Nat) : Bool :=
  second.any (· ∈ first)

/-- Merge the first two classes that overlap. -/
def mergeOnce : List (List Nat) → Option (List (List Nat))
  | [] => none
  | first :: classes =>
    match classes.find? (overlaps first) with
    | some second => some (normalizeClass (first ++ second) :: classes.eraseP (overlaps first))
    | none => (mergeOnce classes).map (first :: ·)

/-- The loop of `mergeEquivClasses`: the classes when no two overlap any more. -/
def mergedClasses (a b : List (List Nat)) : List (List Nat) :=
  let classes := (a ++ b).map normalizeClass
  exhaust mergeOnce classes.length classes

def mergeEquivClasses (a b : List (List Nat)) : List (List Nat) :=
  (mergedClasses a b).filter (2 ≤ ·.length)

def addEquivalence (classes : List (List Nat)) (a b : Nat) : List (List Nat) :=
  if a = b then classes else mergeEquivClasses classes [[a, b]]

/-- All columns of a class are related. -/
def Joins (rel : Setoid Nat) (equivClass : List Nat) : Prop :=
  ∀ first ∈ equivClass, ∀ second ∈ equivClass, rel first second

/-- The columns that are the same in every row. -/
def sameIn (order : ValueOrder ν) (rows : List (Nat → ν)) : Setoid Nat where
  r first second := ∀ row ∈ rows, order.Same (row first) (row second)
  iseqv := ⟨fun _ _ _ => .refl _, fun same row member => (same row member).symm,
    fun first second row member => (first row member).trans (second row member)⟩

theorem joins_sameIn {equivClass : List Nat} :
    Joins (sameIn order rows) equivClass ↔ ClassHoldsOn order rows equivClass :=
  ⟨fun joins row member first inFirst second inSecond =>
    joins first inFirst second inSecond row member,
    fun holds first inFirst second inSecond row member =>
      holds row member first inFirst second inSecond⟩

theorem joins_normalizeClass {rel : Setoid Nat} {equivClass : List Nat} :
    Joins rel (normalizeClass equivClass) ↔ Joins rel equivClass := by
  simp [Joins]

/-- Classes that share a column are one class. -/
theorem joins_append {rel : Setoid Nat} {first second : List Nat}
    (overlap : overlaps first second = true) :
    Joins rel (first ++ second) ↔ Joins rel first ∧ Joins rel second := by
  obtain ⟨shared, inSecond, inFirst⟩ := any_eq_true.mp overlap
  constructor
  · exact fun joins =>
      ⟨fun a inA b inB => joins a (mem_append_left _ inA) b (mem_append_left _ inB),
      fun a inA b inB => joins a (mem_append_right _ inA) b (mem_append_right _ inB)⟩
  · rintro ⟨firstJoins, secondJoins⟩ a inA b inB
    have toShared : ∀ column ∈ first ++ second, rel column shared := by
      intro column inEither
      rcases mem_append.mp inEither with left | right
      · exact firstJoins column left shared (of_decide_eq_true inFirst)
      · exact secondJoins column right shared inSecond
    exact rel.trans (toShared a inA) (rel.symm (toShared b inB))

variable {classes merged : List (List Nat)} {bindings : List (ConstantBinding ν)}
    {expanded : List Nat}
  {ecs : List (List Nat)}

theorem mergeOnce_eq_some (stepped : mergeOnce classes = some merged) :
    ∃ before first between second after, classes = before ++ first :: (between ++ second :: after) ∧
      overlaps first second = true ∧ merged = before ++ normalizeClass (first ++ second) ::
        (between ++ after) := by
  induction classes generalizing merged with
  | nil => cases stepped
  | cons first classes ih =>
    unfold mergeOnce at stepped
    cases found : classes.find? (overlaps first) with
    | some second =>
      rw [found] at stepped
      cases stepped
      obtain ⟨hit, between, after, rfl, misses⟩ := find?_eq_some_iff_append.mp found
      rw [eraseP_append_right _ (by simpa using misses), eraseP_cons_of_pos hit]
      exact ⟨[], first, between, second, after, rfl, hit, rfl⟩
    | none =>
      rw [found] at stepped
      obtain ⟨rest, steppedRest, rfl⟩ := Option.map_eq_some_iff.mp stepped
      obtain ⟨before, one, between, other, after, rfl, hit, rfl⟩ := ih steppedRest
      exact ⟨first :: before, one, between, other, after, rfl, hit, rfl⟩

theorem mergeOnce_joins {rel : Setoid Nat} (stepped : mergeOnce classes = some merged) :
    (∀ equivClass ∈ merged, Joins rel equivClass) ↔ ∀ equivClass ∈ classes,
      Joins rel equivClass := by
  obtain ⟨before, first, between, second, after, rfl, hit, rfl⟩ := mergeOnce_eq_some stepped
  simp only [forall_mem_append, forall_mem_cons, joins_normalizeClass, joins_append hit]
  tauto

/-- What joins the merged classes is what joins the given ones. -/
theorem mergedClasses_joins (rel : Setoid Nat) (a b : List (List Nat)) :
    (∀ equivClass ∈ mergedClasses a b, Joins rel equivClass) ↔
      ∀ equivClass ∈ a ++ b, Joins rel equivClass := by
  refine exhaust_invariant (fun classes => (∀ equivClass ∈ classes, Joins rel equivClass) ↔
    ∀ equivClass ∈ a ++ b, Joins rel equivClass)
      (fun _ _ stepped => (mergeOnce_joins stepped).trans) ?_
  simp only [forall_mem_map, joins_normalizeClass]

theorem mergeEquivClasses_holds {a b : List (List Nat)}
    (holdA : ∀ equivClass ∈ a, ClassHoldsOn order rows equivClass)
    (holdB : ∀ equivClass ∈ b, ClassHoldsOn order rows equivClass) :
    ∀ equivClass ∈ mergeEquivClasses a b, ClassHoldsOn order rows equivClass := by
  have given := forall_mem_append.mpr ⟨holdA, holdB⟩
  have joined := (mergedClasses_joins (sameIn order rows) a b).mpr fun equivClass member =>
    joins_sameIn.mpr (given equivClass member)
  exact fun equivClass member => joins_sameIn.mp (joined equivClass (mem_of_mem_filter member))

/-- The loop of `mergeEquivClasses` ends because no two classes overlap. -/
theorem mergedClasses_disjoint (a b : List (List Nat)) :
    (mergedClasses a b).Pairwise List.Disjoint := by
  have ended : mergeOnce (mergedClasses a b) = none := by
    refine step_exhaust length (fun classes merged stepped => ?_) le_rfl
    obtain ⟨before, first, between, second, after, rfl, -, rfl⟩ := mergeOnce_eq_some stepped
    simp
  generalize mergedClasses a b = classes at ended
  induction classes with
  | nil => exact .nil
  | cons first classes ih =>
    unfold mergeOnce at ended
    cases found : classes.find? (overlaps first) with
    | some second => simp [found] at ended
    | none =>
      rw [found] at ended
      refine .cons (fun second member column inFirst inSecond => ?_)
        (ih (Option.map_eq_none_iff.mp ended))
      exact find?_eq_none.mp found second member
        (any_eq_true.mpr ⟨column, inSecond, decide_eq_true inFirst⟩)

theorem nodup_eraseDups (columns : List Nat) : columns.eraseDups.Nodup := by
  induction length : columns.length using Nat.strong_induction_on generalizing columns with
  | _ size ih =>
    subst length
    cases columns with
    | nil => exact .nil
    | cons column columns =>
      rw [eraseDups_cons, nodup_cons, mem_eraseDups]
      exact ⟨by simp, ih _ (Nat.lt_succ_of_le (length_filter_le _ _)) _ rfl⟩

theorem nodup_normalizeClass (columns : List Nat) : (normalizeClass columns).Nodup :=
  (perm_insertionSort _ _).nodup_iff.mpr (nodup_eraseDups columns)

/-- A merged class lists each of its columns once. -/
theorem mergedClasses_nodup (a b : List (List Nat)) :
    ∀ equivClass ∈ mergedClasses a b, equivClass.Nodup := by
  refine exhaust_invariant (fun classes : List (List Nat) => ∀ equivClass ∈ classes,
    equivClass.Nodup)
    (fun classes merged stepped nodup => ?_) (forall_mem_map.mpr fun _ _ => nodup_normalizeClass _)
  obtain ⟨before, first, between, second, after, rfl, -, rfl⟩ := mergeOnce_eq_some stepped
  simp only [forall_mem_append, forall_mem_cons] at nodup ⊢
  exact ⟨nodup.1, nodup_normalizeClass _, nodup.2.2.1, nodup.2.2.2.2⟩

/-- **Merged classes are the partition that the given classes generate**, without the blocks of
one column. -/
theorem mergeEquivClasses_partition (a b : List (List Nat)) :
    (mergeEquivClasses a b).Pairwise List.Disjoint ∧
    (∀ equivClass ∈ mergeEquivClasses a b,
      ∃ first ∈ equivClass, ∃ second ∈ equivClass, first ≠ second) ∧
    ∀ first second, first ≠ second →
      ((∃ equivClass ∈ mergeEquivClasses a b, first ∈ equivClass ∧ second ∈ equivClass) ↔
        Relation.EqvGen (fun first second =>
          ∃ equivClass ∈ a ++ b, first ∈ equivClass ∧ second ∈ equivClass) first second) := by
  have disjoint := mergedClasses_disjoint a b
  refine ⟨disjoint.filter _, fun equivClass member => ?_,
    fun first second different => ⟨?_, fun linked => ?_⟩⟩
  · obtain ⟨merged, long⟩ := mem_filter.mp member
    have distinct := mergedClasses_nodup a b equivClass merged
    rcases equivClass with _ | ⟨one, _ | ⟨other, rest⟩⟩
    · cases long
    · cases long
    · exact ⟨one, mem_cons_self, other, mem_cons_of_mem _ mem_cons_self,
        fun same => (nodup_cons.mp distinct).1 (same ▸ mem_cons_self)⟩
  · rintro ⟨equivClass, member, inFirst, inSecond⟩
    refine (mergedClasses_joins (Relation.EqvGen.setoid _) a b).mpr
      (fun equivClass member one inOne other inOther => ?_)
      equivClass (mem_of_mem_filter member) first inFirst second inSecond
    exact .rel _ _ ⟨equivClass, member, inOne, inOther⟩
  · -- Being in one merged class is an equivalence, for no two overlap.
    let together : Setoid Nat :=
      { r := fun first second => first = second ∨ ∃ equivClass ∈ mergedClasses a b,
          first ∈ equivClass ∧ second ∈ equivClass
        iseqv := by
          refine ⟨fun _ => .inl rfl, ?_, ?_⟩
          · rintro first second (rfl | ⟨equivClass, member, inFirst, inSecond⟩)
            · exact .inl rfl
            · exact .inr ⟨equivClass, member, inSecond, inFirst⟩
          · rintro first second third (rfl | ⟨one, inMerged, inOne, middle⟩)
              (rfl | ⟨other, inMerged', middle', inOther⟩)
            · exact .inl rfl
            · exact .inr ⟨other, inMerged', middle', inOther⟩
            · exact .inr ⟨one, inMerged, inOne, middle⟩
            · have : Std.Symm (List.Disjoint (α := Nat)) := ⟨fun _ _ => List.Disjoint.symm⟩
              obtain rfl : one = other := by_contra fun apart =>
                disjoint.forall inMerged inMerged' apart middle middle'
              exact .inr ⟨one, inMerged, inOne, inOther⟩ }
    have joined := (mergedClasses_joins together a b).mp fun equivClass member one inOne
      other inOther =>
      .inr ⟨equivClass, member, inOne, inOther⟩
    have coarser : together first second := together.iseqv.eqvGen_iff.mp <| linked.mono
      fun one other ⟨equivClass, member, inOne, inOther⟩ =>
        joined equivClass member one inOne other inOther
    obtain same | ⟨equivClass, member, inFirst, inSecond⟩ := coarser
    · exact absurd same different
    · have long : 2 ≤ equivClass.length := by
        rcases equivClass with _ | ⟨one, _ | ⟨other, rest⟩⟩ <;> simp_all
      exact ⟨equivClass, mem_filter.mpr ⟨member, decide_eq_true long⟩, inFirst, inSecond⟩

theorem addEquivalence_holds {a b : Nat}
    (hold : ∀ equivClass ∈ classes, ClassHoldsOn order rows equivClass)
    (same : ∀ row ∈ rows, order.Same (row a) (row b)) :
    ∀ equivClass ∈ addEquivalence classes a b, ClassHoldsOn order rows equivClass := by
  unfold addEquivalence
  split
  · exact hold
  · refine mergeEquivClasses_holds hold fun equivClass member => ?_
    rw [mem_singleton.mp member]
    intro row inRows first inFirst second inSecond
    have toA : ∀ column ∈ [a, b], order.Same (row column) (row a) := by
      intro column inPair
      rcases mem_pair.mp inPair with rfl | rfl
      · exact .refl _
      · exact (same row inRows).symm
    exact (toA first inFirst).trans (toA second inSecond).symm

variable (order)

def constantValueEquals : ConstantValue ν → ConstantValue ν → Bool
  | .literal value, .literal value' => order.sqlValueEquals value value'
  | .parameter paramRef, .parameter paramRef' => paramRef = paramRef'
  | _, _ => false

def normalizeBinding (binding : ConstantBinding ν) : ConstantBinding ν :=
  { binding with attrs := normalizeClass binding.attrs }

def unionAttrs (a b : List Nat) : List Nat :=
  normalizeClass (a ++ b)

/-- Add the columns of a binding to the first one with its value. -/
def mergeBinding (next : ConstantBinding ν) : List (ConstantBinding ν) → List (ConstantBinding ν)
  | [] => [next]
  | binding :: bindings =>
    if constantValueEquals order binding.value next.value then
      { binding with attrs := unionAttrs binding.attrs next.attrs } :: bindings
    else binding :: mergeBinding next bindings

def mergeConstantBindings (a b : List (ConstantBinding ν)) : List (ConstantBinding ν) :=
  (b.foldl (fun result raw => mergeBinding order (normalizeBinding raw) result)
    (a.map normalizeBinding)).take MAX_FDS_PER_NODE

/-- Add the columns of a class that are not there yet, if one of them is. -/
def expandClass (expanded equivClass : List Nat) : List Nat :=
  if equivClass.any (· ∈ expanded) then
    equivClass.foldl (fun expanded column => if column ∈ expanded then expanded
      else expanded ++ [column]) expanded
  else expanded

def expandStep (ecs : List (List Nat)) (expanded : List Nat) : Option (List Nat) :=
  if (ecs.foldl expandClass expanded).length = expanded.length then none
    else some (ecs.foldl expandClass expanded)

/-- The passes are as many as there may be new columns. -/
def expandOverEcs (ecs : List (List Nat)) (attrs : List Nat) : List Nat :=
  exhaust (expandStep ecs) ecs.flatten.length attrs.eraseDups

def closeConstantBindingsOverEcs (bindings : List (ConstantBinding ν)) (ecs : List (List Nat)) :
    List (ConstantBinding ν) :=
  if bindings = [] then []
  else if ecs = [] then bindings.map normalizeBinding
  else
    let result := bindings.map fun binding =>
      { binding with attrs := (expandOverEcs ecs binding.attrs).insertionSort (· ≤ ·) }
    mergeConstantBindings order result []

variable {order}

theorem constantValueEquals_same {a b : ConstantValue ν}
    (equal : constantValueEquals order a b = true) :
    order.Same (a.value parameters) (b.value parameters) := by
  match a, b, equal with
  | .literal value, .literal value', equal => exact order.eq_of_sqlValueEquals equal
  | .parameter paramRef, .parameter paramRef', equal =>
    rw [of_decide_eq_true equal]
    exact .refl _

theorem ConstantBinding.HoldsOn.attrs {binding : ConstantBinding ν}
    (holds : binding.HoldsOn order parameters rows) {attrs : List Nat}
    (subset : ∀ column ∈ attrs, column ∈ binding.attrs) :
    ConstantBinding.HoldsOn order parameters rows { binding with attrs } :=
  fun row member column inAttrs => holds row member column (subset column inAttrs)

theorem normalizeBinding_holds {binding : ConstantBinding ν}
    (holds : binding.HoldsOn order parameters rows) :
    (normalizeBinding binding).HoldsOn order parameters rows :=
  holds.attrs fun _ => mem_normalizeClass.mp

variable (hold : ∀ binding ∈ bindings, binding.HoldsOn order parameters rows)

include hold in
theorem map_normalizeBinding_hold :
    ∀ binding ∈ bindings.map normalizeBinding, binding.HoldsOn order parameters rows := by
  intro binding member
  obtain ⟨original, inBindings, rfl⟩ := mem_map.mp member
  exact normalizeBinding_holds (hold original inBindings)

theorem mergeBinding_holds {next : ConstantBinding ν}
    (nextHolds : next.HoldsOn order parameters rows)
    (hold : ∀ binding ∈ bindings, binding.HoldsOn order parameters rows) :
    ∀ binding ∈ mergeBinding order next bindings, binding.HoldsOn order parameters rows := by
  induction bindings with
  | nil =>
    intro binding member
    rw [mem_singleton.mp member]
    exact nextHolds
  | cons first bindings ih =>
    obtain ⟨firstHolds, othersHold⟩ := forall_mem_cons.mp hold
    unfold mergeBinding
    split
    · next equal =>
      refine forall_mem_cons.mpr ⟨?_, othersHold⟩
      intro row member column inUnion
      rcases mem_append.mp (mem_normalizeClass.mp inUnion) with inFirst | inNext
      · exact firstHolds row member column inFirst
      · exact (nextHolds row member column inNext).trans (constantValueEquals_same equal).symm
    · exact forall_mem_cons.mpr ⟨firstHolds, ih othersHold⟩

theorem mergeConstantBindings_hold {a b : List (ConstantBinding ν)}
    (holdA : ∀ binding ∈ a, binding.HoldsOn order parameters rows)
    (holdB : ∀ binding ∈ b, binding.HoldsOn order parameters rows) :
    ∀ binding ∈ mergeConstantBindings order a b, binding.HoldsOn order parameters rows := by
  intro binding member
  refine foldlRecOn (motive := fun result : List (ConstantBinding ν) =>
    ∀ binding ∈ result, binding.HoldsOn order parameters rows) b
      _ (map_normalizeBinding_hold holdA) ?_
    binding (mem_of_mem_take member)
  exact fun result hold raw inB => mergeBinding_holds (normalizeBinding_holds (holdB raw inB)) hold

/-- The second list has the first at its front and adds some columns that are new. -/
def Extends (columns : List Nat) (expanded larger : List Nat) : Prop :=
  ∃ added, larger = expanded ++ added ∧ ∀ column ∈ added, column ∉ expanded ∧ column ∈ columns

theorem Extends.refl (columns expanded : List Nat) : Extends columns expanded expanded :=
  ⟨[], (append_nil _).symm, nofun⟩

theorem Extends.trans {columns larger largest : List Nat} (first : Extends columns expanded larger)
    (second : Extends columns larger largest) : Extends columns expanded largest := by
  obtain ⟨added, rfl, new⟩ := first
  obtain ⟨more, rfl, newer⟩ := second
  refine ⟨added ++ more, append_assoc .., fun column member => ?_⟩
  rcases mem_append.mp member with inAdded | inMore
  · exact new column inAdded
  · exact ⟨fun old => (newer column inMore).1 (mem_append_left _ old), (newer column inMore).2⟩

theorem expandClass_extends (expanded equivClass : List Nat) :
    Extends equivClass expanded (expandClass expanded equivClass) := by
  unfold expandClass
  split
  · refine foldlRecOn (motive := Extends equivClass expanded) equivClass _ (.refl _ _) ?_
    intro current so column member
    split
    · exact so
    · next new =>
      refine so.trans ⟨[column], rfl, fun added inAdded => ?_⟩
      rw [mem_singleton.mp inAdded]
      exact ⟨new, member⟩
  · exact .refl _ _

include hold in
theorem closeConstantBindingsOverEcs_hold
    (classesHold : ∀ equivClass ∈ ecs, ClassHoldsOn order rows equivClass) :
    ∀ binding ∈ closeConstantBindingsOverEcs order bindings ecs,
      binding.HoldsOn order parameters rows := by
  unfold closeConstantBindingsOverEcs
  split
  · exact nofun
  split
  · exact map_normalizeBinding_hold hold
  refine mergeConstantBindings_hold ?_ nofun
  intro expanded member
  obtain ⟨binding, inBindings, rfl⟩ := mem_map.mp member
  intro row inRows column inAttrs
  refine exhaust_invariant (fun expanded => ∀ column ∈ expanded, order.Same (row column) _) ?_
    (fun column member => hold binding inBindings row inRows column (mem_eraseDups.mp member))
      column
    ((mem_insertionSort _).mp inAttrs)
  intro expanded next stepped known
  simp only [expandStep, Option.ite_none_left_eq_some, Option.some.injEq] at stepped
  obtain ⟨-, rfl⟩ := stepped
  refine foldlRecOn (motive := fun expanded : List Nat =>
    ∀ column ∈ expanded, order.Same (row column) _) ecs _ known ?_
  intro current known equivClass inEcs column member
  by_cases overlap : equivClass.any (· ∈ current) = true
  · obtain ⟨added, split, new⟩ := expandClass_extends current equivClass
    rw [split] at member
    rcases mem_append.mp member with old | inAdded
    · exact known column old
    · obtain ⟨shared, inClass, inExpanded⟩ := any_eq_true.mp overlap
      exact (classesHold equivClass inEcs row inRows column (new column inAdded).2 shared
        inClass).trans
        (known shared (of_decide_eq_true inExpanded))
  · unfold expandClass at member
    rw [if_neg overlap] at member
    exact known column member

variable (order)

/-- The comparison of domains, value for value in order. -/
def domainConstraintEquals (a b : DomainConstraint ν) : Bool :=
  a.column = b.column &&
    match a.domain, b.domain with
    | .range min max minInclusive maxInclusive, .range min' max' minInclusive' maxInclusive' =>
      boundEquals order min min' minInclusive minInclusive' &&
        boundEquals order max max' maxInclusive maxInclusive'
    | .enum values, .enum values' =>
      values.length = values'.length && (values.zip values').all fun (value, value') =>
        order.sqlValueEquals value value'
    | _, _ => false

def mergeDomainConstraints (a b : List (DomainConstraint ν)) : List (DomainConstraint ν) :=
  (b.foldl (fun result next =>
    if result.any (domainConstraintEquals order · next) then result else result ++ [next]) a).take
      MAX_FDS_PER_NODE

variable {order}

theorem mergeDomainConstraints_hold {a b : List (DomainConstraint ν)}
    (holdA : ∀ constraint ∈ a, constraint.HoldsOn order rows)
    (holdB : ∀ constraint ∈ b, constraint.HoldsOn order rows) :
    ∀ constraint ∈ mergeDomainConstraints order a b, constraint.HoldsOn order rows := by
  intro constraint member
  refine foldlRecOn (motive := fun result : List (DomainConstraint ν) =>
    ∀ constraint ∈ result, constraint.HoldsOn order rows) b _ holdA ?_ constraint
      (mem_of_mem_take member)
  intro result hold next inB kept inKept
  split at inKept
  · exact hold kept inKept
  · rcases mem_append.mp inKept with old | new
    · exact hold kept old
    · rw [mem_singleton.mp new]
      exact holdB next inB

end Quereus.Planner
