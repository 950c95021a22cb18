import Mathlib.Order.Bounds.Defs
import Quereus.Lib.Agreement
import Quereus.Planner.FunctionalDependency

/-! # Reading uniqueness

`keysOf`, `isUnique` and `isAtMostOneRow` read the uniqueness of a relation off its
declared keys, its dependencies and its being a set. What they say is true of every bag
of rows that meets these facts.
-/

namespace Quereus.Planner

open Agreement Exhaust List

variable {ν : Type}

/-- What is known of a relation: the columns of its declared keys, how many columns it
has, whether it is a set, and its dependencies. -/
structure KeyRel (ν : Type) where
  keys : List (List Nat)
  columnCount : Nat
  isSet : Bool
  fds : List (FunctionalDependency ν)

/-- The columns are closed under the dependencies and something makes rows unique: the
relation is a set, or a unique dependency's determinants are among them. -/
def isUniqueDeterminant (attrs : Finset Nat) (fds : List (FunctionalDependency ν))
    (columnCount : Nat)
    (isSet : Bool) : Bool :=
  let closure := computeClosure attrs fds
  decide (∀ column < columnCount, column ∈ closure) &&
    (isSet || fds.any fun fd => fd.guard.isNone && fd.kind = .unique &&
      fd.determinants.all fun determinant => determinant ∈ closure)

def deriveKeysFromFds (fds : List (FunctionalDependency ν)) (columnCount : Nat) (isSet : Bool) :
    List (List Nat) :=
  fds.foldl (fun results fd =>
    if fd.guard.isSome then results
    else if columnCount ≤ fd.determinants.length then results
    else
      let det := fd.determinants.eraseDups
      if isUniqueDeterminant det.toFinset fds columnCount isSet = false then results
      else
        let minimal := minimalCover det fds
        let sorted := normalizeClass (det.filter (· ∈ minimal))
        if sorted ∈ results then results else results ++ [sorted]) []

def hasSingletonFd (fds : List (FunctionalDependency ν)) (columnCount : Nat)
    (isSet : Bool) : Bool :=
  decide (0 < columnCount) && isUniqueDeterminant ∅ fds columnCount isSet

/-- The keys without those that contain a shorter one. -/
def normalizeKeys (keys : List (List Nat)) : List (List Nat) :=
  let uniq := (keys.map normalizeClass).eraseDups
  uniq.filter fun key =>
    !uniq.any fun other => decide (other.length < key.length) && other.all (· ∈ key)

namespace KeyRel

variable (rel : KeyRel ν)

/-- The keys `keysOf` gathers before it drops the superfluous ones. -/
def gatheredKeys : List (List Nat) :=
  rel.keys ++
    (if hasSingletonFd rel.fds rel.columnCount rel.isSet then [[]] else []) ++
    deriveKeysFromFds rel.fds rel.columnCount rel.isSet

def keysOf : List (List Nat) :=
  let normalized := normalizeKeys rel.gatheredKeys
  if normalized = [] ∧ rel.isSet = true ∧ 0 < rel.columnCount then [range rel.columnCount]
  else normalized

def isUnique (cols : List Nat) : Bool :=
  rel.keysOf.any (fun key => key.all (· ∈ cols)) ||
    isUniqueDeterminant cols.toFinset rel.fds rel.columnCount rel.isSet

def isAtMostOneRow : Bool :=
  rel.isUnique []

end KeyRel

section Closure

variable {fds : List (FunctionalDependency ν)} {attrs closure : Finset Nat}

/-- Every dependency without a guard leads from the columns to the columns. -/
def ClosedUnder (fds : List (FunctionalDependency ν)) (columns : Finset Nat) : Prop :=
  ∀ fd ∈ fds, fd.guard.isNone → (∀ column ∈ fd.determinants, column ∈ columns) →
    ∀ column ∈ fd.dependents, column ∈ columns

theorem subset_closurePass (fds : List (FunctionalDependency ν)) (closure : Finset Nat) :
    closure ⊆ closurePass fds closure := by
  unfold closurePass
  induction fds generalizing closure with
  | nil => exact subset_rfl
  | cons fd fds ih =>
    rw [foldl_cons]
    refine subset_trans ?_ (ih _)
    split
    · exact Finset.subset_union_left
    · exact subset_rfl

theorem mem_closurePass_of_dependent {fd : FunctionalDependency ν} (member : fd ∈ fds)
    (unguarded : fd.guard.isNone) (inside : ∀ column ∈ fd.determinants, column ∈ closure) :
    ∀ column ∈ fd.dependents, column ∈ closurePass fds closure := by
  induction fds generalizing closure with
  | nil => cases member
  | cons first fds ih =>
    unfold closurePass
    rw [foldl_cons]
    rcases mem_cons.mp member with rfl | later
    · rw [if_pos ⟨unguarded, inside⟩]
      exact fun column dependent =>
        subset_closurePass fds _ (Finset.mem_union_right _ (mem_toFinset.mpr dependent))
    · refine ih later fun column determinant => ?_
      split
      · exact Finset.mem_union_left _ (inside column determinant)
      · exact inside column determinant

theorem closureStep_eq_some {next : Finset Nat} (stepped : closureStep fds closure = some next) :
    closurePass fds closure ≠ closure ∧ closurePass fds closure = next := by
  simpa [closureStep] using stepped

theorem forall_mem_closurePass {P : Nat → Prop}
    (closed : ∀ fd ∈ fds, fd.guard.isNone → (∀ column ∈ fd.determinants, P column) →
      ∀ column ∈ fd.dependents, P column)
    (start : ∀ column ∈ closure, P column) : ∀ column ∈ closurePass fds closure, P column := by
  unfold closurePass
  induction fds generalizing closure with
  | nil => exact start
  | cons fd fds ih =>
    obtain ⟨here, later⟩ := forall_mem_cons.mp closed
    rw [foldl_cons]
    refine ih later ?_
    split
    · next applies =>
      intro column member
      rcases Finset.mem_union.mp member with old | new
      · exact start column old
      · exact here applies.1 (fun determinant inside =>
          start determinant (applies.2 determinant inside)) column
          (mem_toFinset.mp new)
    · exact start

/-- What the dependencies carry from determinants to dependents holds of the closure if it
holds at the start. -/
theorem forall_mem_computeClosure {P : Nat → Prop}
    (closed : ∀ fd ∈ fds, fd.guard.isNone → (∀ column ∈ fd.determinants, P column) →
      ∀ column ∈ fd.dependents, P column)
    (start : ∀ column ∈ attrs, P column) : ∀ column ∈ computeClosure attrs fds, P column := by
  refine exhaust_invariant (fun closure => ∀ column ∈ closure, P column) ?_ start
  intro closure next stepped holds
  obtain ⟨-, rfl⟩ := closureStep_eq_some stepped
  exact forall_mem_closurePass closed holds

/-- The loop ends because a pass adds nothing: every pass before takes a dependent away from
those that are missing. -/
theorem closureStep_computeClosure (attrs : Finset Nat) (fds : List (FunctionalDependency ν)) :
    closureStep fds (computeClosure attrs fds) = none := by
  refine step_exhaust
    (fun closure => ((fds.flatMap FunctionalDependency.dependents).toFinset \ closure).card) ?_ ?_
  · intro closure next stepped
    obtain ⟨changed, rfl⟩ := closureStep_eq_some stepped
    have grown := subset_closurePass fds closure
    have added := forall_mem_closurePass (P := fun column => column ∈ closure ∨
        column ∈ (fds.flatMap FunctionalDependency.dependents).toFinset)
      (fun fd member _ _ column dependent => .inr
        (mem_toFinset.mpr (mem_flatMap.mpr ⟨fd, member, dependent⟩)))
      fun _ => .inl
    refine Finset.card_lt_card ⟨Finset.sdiff_subset_sdiff subset_rfl grown, fun back => changed ?_⟩
    refine subset_antisymm (fun column member => by_contra fun absent => ?_) grown
    have missing := Finset.mem_sdiff.mpr ⟨(added column member).resolve_left absent, absent⟩
    exact (Finset.mem_sdiff.mp (back missing)).2 member
  · exact (Finset.card_le_card Finset.sdiff_subset).trans (toFinset_card_le _)

theorem computeClosure_isLeast (attrs : Finset Nat) (fds : List (FunctionalDependency ν)) :
    IsLeast {columns | attrs ⊆ columns ∧ ClosedUnder fds columns} (computeClosure attrs fds) := by
  refine ⟨⟨?_, fun fd member unguarded inside column dependent => ?_⟩, fun columns other =>
    forall_mem_computeClosure other.2 other.1⟩
  · refine exhaust_invariant (attrs ⊆ ·) (fun closure next stepped holds => ?_) subset_rfl
    obtain ⟨-, rfl⟩ := closureStep_eq_some stepped
    exact holds.trans (subset_closurePass fds closure)
  · have ended : closurePass fds (computeClosure attrs fds) = computeClosure attrs fds := by
      simpa [closureStep] using closureStep_computeClosure attrs fds
    exact ended ▸ mem_closurePass_of_dependent member unguarded inside column dependent

theorem computeClosure_mono {fewer : Finset Nat} (subset : fewer ⊆ attrs) :
    computeClosure fewer fds ⊆ computeClosure attrs fds :=
  have closed := (computeClosure_isLeast attrs fds).1
  (computeClosure_isLeast fewer fds).2 ⟨subset.trans closed.1, closed.2⟩

variable {same : ν → ν → Prop} {rows : List (Nat → ν)}

/-- Every dependency without a guard holds of the rows. -/
def ValuesHold (same : ν → ν → Prop) (rows : List (Nat → ν)) (fds : List (FunctionalDependency ν)) :
    Prop :=
  ∀ fd ∈ fds, fd.guard.isNone →
    Determines same rows (· ∈ fd.determinants) (· ∈ fd.dependents)

/-- Rows that agree on some columns agree on their closure. -/
theorem determines_computeClosure (values : ValuesHold same rows fds) (attrs : Finset Nat) :
    Determines same rows (· ∈ attrs) (· ∈ computeClosure attrs fds) :=
  fun first inFirst second inSecond agree => forall_mem_computeClosure
    (fun fd member unguarded => values fd member unguarded first inFirst second inSecond) agree

/-- The closure stays, and what is kept once it was tried cannot be dropped later either. -/
theorem cover_of_tried {full result : Finset Nat} {tried : List Nat}
    (covers : computeClosure result fds = full) :
    let final := tried.foldl (fun result attr =>
      let trialClosure := computeClosure (result.erase attr) fds
      if trialClosure.card = full.card ∧ full ⊆ trialClosure then result.erase attr else result)
        result
    computeClosure final fds = full ∧ final ⊆ result ∧
      ∀ attr ∈ tried, attr ∈ final → ¬ full ⊆ computeClosure (final.erase attr) fds := by
  induction tried generalizing result with
  | nil => exact ⟨covers, subset_rfl, nofun⟩
  | cons first tried ih =>
    simp only [foldl_cons, forall_mem_cons]
    split
    · next smaller =>
      obtain ⟨same, within, kept⟩ := ih (Finset.eq_of_subset_of_card_le smaller.2 smaller.1.le).symm
      exact ⟨same, within.trans (Finset.erase_subset _ _),
        fun inFinal => absurd (within inFinal) (Finset.notMem_erase _ _), kept⟩
    · next needed =>
      obtain ⟨same, within, kept⟩ := ih covers
      refine ⟨same, within, fun _ back => needed ?_, kept⟩
      have larger := back.trans (computeClosure_mono (Finset.erase_subset_erase first within))
      have bounded := covers ▸ computeClosure_mono (Finset.erase_subset first result)
      exact ⟨congrArg Finset.card (subset_antisymm bounded larger), larger⟩

/-- A minimal cover has the closure of what it covers. -/
theorem computeClosure_minimalCover (attrs : List Nat) (fds : List (FunctionalDependency ν)) :
    computeClosure (minimalCover attrs fds) fds = computeClosure attrs.toFinset fds ∧
      minimalCover attrs fds ⊆ attrs.toFinset :=
  ⟨(cover_of_tried rfl).1, (cover_of_tried rfl).2.1⟩

/-- **The closure is the least closed set over the attributes, and the cover is a least part of
them with that closure.** Its loop ends because nothing is added. -/
theorem computeClosure_minimalCover_exact (attrs : List Nat) (fds : List (FunctionalDependency ν)) :
    let closure := computeClosure attrs.toFinset fds
    let cover := minimalCover attrs fds
    closureStep fds closure = none ∧
      IsLeast {columns | attrs.toFinset ⊆ columns ∧ ClosedUnder fds columns} closure ∧
      cover ⊆ attrs.toFinset ∧ computeClosure cover fds = closure ∧
      ∀ attr ∈ cover, computeClosure (cover.erase attr) fds ⊂ closure := by
  obtain ⟨covers, within⟩ := computeClosure_minimalCover attrs fds
  refine ⟨closureStep_computeClosure _ fds, computeClosure_isLeast _ fds, within, covers,
    fun attr inCover => ?_⟩
  refine ⟨computeClosure_mono ((Finset.erase_subset attr _).trans within), ?_⟩
  exact (cover_of_tried rfl).2.2 attr (mem_toFinset.mp (within inCover)) inCover

end Closure

section Sound

variable {same : ν → ν → Prop} {rows : List (Nat → ν)} {fds : List (FunctionalDependency ν)}
  {columnCount : Nat} {isSet : Bool}

/-- The rows of a bag are as the dependencies and set-ness say. -/
structure DependenciesHold (same : ν → ν → Prop) (rows : List (Nat → ν))
    (fds : List (FunctionalDependency ν)) (columnCount : Nat) (isSet : Bool) : Prop where
  values : ValuesHold same rows fds
  unique : ∀ fd ∈ fds, fd.guard.isNone → fd.kind = .unique →
    Identifies same rows (· ∈ fd.determinants)
  set : isSet = true → Identifies same rows (· < columnCount)

variable (holds : DependenciesHold same rows fds columnCount isSet)

include holds

theorem isUniqueDeterminant_sound {attrs : Finset Nat}
    (unique : isUniqueDeterminant attrs fds columnCount isSet = true) :
    Identifies same rows (· ∈ attrs) := by
  simp only [isUniqueDeterminant, Bool.and_eq_true, decide_eq_true_eq, Bool.or_eq_true, any_eq_true,
    all_eq_true] at unique
  obtain ⟨covers, isSet | ⟨fd, member, ⟨guardless, kind⟩, determinants⟩⟩ := unique
  · refine (holds.set isSet).of_determines fun first inFirst second inSecond agree => ?_
    exact (determines_computeClosure holds.values attrs first inFirst second inSecond agree).mono
      covers
  · refine (holds.unique fd member guardless kind).of_determines fun first inFirst second
      inSecond agree => ?_
    exact (determines_computeClosure holds.values attrs first inFirst second inSecond agree).mono
      determinants

theorem deriveKeysFromFds_sound :
    ∀ key ∈ deriveKeysFromFds fds columnCount isSet, Identifies same rows (· ∈ key) := by
  refine foldlRecOn (motive := fun results => ∀ key ∈ results, Identifies same rows (· ∈ key)) fds _
    (nofun) ?_
  intro results known fd _
  simp only
  split_ifs with guarded long unknown seen
  · exact known
  · exact known
  · exact known
  · exact known
  · intro key member
    rcases mem_append.mp member with old | new
    · exact known key old
    · rw [mem_singleton.mp new]
      obtain ⟨sameClosure, within⟩ := computeClosure_minimalCover fd.determinants.eraseDups fds
      have unique := Bool.eq_true_of_not_eq_false unknown
      rw [isUniqueDeterminant, ← sameClosure, ← isUniqueDeterminant] at unique
      refine (isUniqueDeterminant_sound holds unique).mono fun column inCover => ?_
      have inDeterminants := within inCover
      rw [mem_normalizeClass, mem_filter]
      exact ⟨mem_toFinset.mp inDeterminants, decide_eq_true inCover⟩

omit holds

namespace KeyRel

variable {rel : KeyRel ν}

/-- The rows of a bag are as is known of the relation: no two rows agree on a declared
key, every dependency without a guard holds of them, a unique one has one row for every
value of its determinants, and no two rows of a set agree on all columns. -/
structure HoldsOf (rel : KeyRel ν) (same : ν → ν → Prop) (rows : List (Nat → ν)) : Prop where
  keys : ∀ key ∈ rel.keys, Identifies same rows (· ∈ key)
  dependencies : DependenciesHold same rows rel.fds rel.columnCount rel.isSet

theorem gatheredKeys_identify (holds : rel.HoldsOf same rows) :
    ∀ key ∈ rel.gatheredKeys, Identifies same rows (· ∈ key) := by
  intro key member
  rcases mem_append.mp member with early | derived
  · rcases mem_append.mp early with declared | singleton
    · exact holds.keys key declared
    · split at singleton
      · next single =>
        have unique := (Bool.and_eq_true_iff.mp single).2
        exact (isUniqueDeterminant_sound holds.dependencies unique).mono (by simp)
      · cases singleton
  · exact deriveKeysFromFds_sound holds.dependencies key derived

theorem keysOf_identifies (holds : rel.HoldsOf same rows) :
    ∀ key ∈ rel.keysOf, Identifies same rows (· ∈ key) := by
  intro key member
  unfold keysOf at member
  simp only at member
  split at member
  · next fallback =>
    rw [mem_singleton.mp member]
    exact (holds.dependencies.set fallback.2.1).mono fun column below => mem_range.mpr below
  · have inUniq := mem_eraseDups.mp (mem_of_mem_filter member)
    obtain ⟨gathered, inKeys, rfl⟩ := mem_map.mp inUniq
    exact (gatheredKeys_identify holds gathered inKeys).mono fun column listed =>
      mem_normalizeClass.mpr listed

theorem isUnique_identifies (holds : rel.HoldsOf same rows) {cols : List Nat}
    (unique : rel.isUnique cols = true) :
    Identifies same rows (· ∈ cols) := by
  rcases Bool.or_eq_true_iff.mp unique with covered | determined
  · obtain ⟨key, member, covers⟩ := any_eq_true.mp covered
    refine (keysOf_identifies holds key member).mono fun column inKey => ?_
    exact of_decide_eq_true (all_eq_true.mp covers column inKey)
  · exact (isUniqueDeterminant_sound holds.dependencies determined).mono
      fun column inCols => mem_toFinset.mp inCols

/-- What the readers say of a relation is true of every bag it is known of: the keys
identify at most one row each, so do columns said to be unique, and a relation said to
have at most one row has at most one. -/
theorem readers_sound (rel : KeyRel ν) (same : ν → ν → Prop) (rows : List (Nat → ν))
    (holds : rel.HoldsOf same rows) :
    (∀ key ∈ rel.keysOf, Identifies same rows (· ∈ key)) ∧
      (∀ cols, rel.isUnique cols = true → Identifies same rows (· ∈ cols)) ∧
      (rel.isAtMostOneRow = true → rows.length ≤ 1) := by
  refine ⟨keysOf_identifies holds, fun cols => isUnique_identifies holds, fun single => ?_⟩
  exact ((isUnique_identifies holds single).mono (by simp)).length_le_one

/-- The first column determines the second, and the second is unique. -/
def chained : KeyRel Nat where
  keys := []
  columnCount := 3
  isSet := false
  fds := [⟨[0], [1], none, .determination⟩, ⟨[1], [2], none, .unique⟩]

def chainedRows : List (Nat → Nat) :=
  [fun column => [1, 10, 5].getD column 0, fun column => [2, 20, 5].getD column 0]

theorem chained_holds : chained.HoldsOf (· = ·) chainedRows where
  keys := nofun
  dependencies :=
    { values := by
        intro fd member _ first inFirst second inSecond agree
        have same : first = second := by
          simp only [chainedRows, mem_cons, not_mem_nil, or_false] at inFirst inSecond
          simp only [chained, mem_cons, not_mem_nil, or_false] at member
          rcases inFirst with rfl | rfl <;> rcases inSecond with rfl | rfl <;>
            rcases member with rfl | rfl
          all_goals first | rfl | exact absurd (agree _ mem_cons_self) (by decide)
        exact fun column _ => congrFun same column
      unique := by
        intro fd member _ kind
        simp only [chained, mem_cons, not_mem_nil, or_false] at member
        rcases member with rfl | rfl
        · cases kind
        · exact pairwise_pair.mpr fun agree => absurd (agree 1 mem_cons_self) (by decide)
      set := nofun }

/-- The key read off two chained dependencies identifies the rows. -/
theorem readers_sound_chained : chained.HoldsOf (· = ·) chainedRows ∧ chained.keysOf = [[0]] ∧
    Identifies (· = ·) chainedRows (· ∈ [0]) := by
  have keys : chained.keysOf = [[0]] := by decide
  refine ⟨chained_holds, keys, ?_⟩
  exact (readers_sound chained (· = ·) chainedRows chained_holds).1 [0] (by exact mem_cons_self)

/-- Columns are unique if some of them are. -/
theorem isUnique_of_subset (rel : KeyRel ν) {cols more : List Nat} (subset : cols ⊆ more)
    (unique : rel.isUnique cols = true) : rel.isUnique more = true := by
  have grown : computeClosure cols.toFinset rel.fds ⊆ computeClosure more.toFinset rel.fds :=
    computeClosure_mono fun column member => mem_toFinset.mpr (subset (mem_toFinset.mp member))
  simp only [isUnique, isUniqueDeterminant, Bool.or_eq_true, Bool.and_eq_true, any_eq_true,
    all_eq_true, decide_eq_true_eq] at unique ⊢
  apply unique.imp
  · rintro ⟨key, member, covers⟩
    exact ⟨key, member, fun column inKey => subset (covers column inKey)⟩
  · rintro ⟨covers, source⟩
    refine ⟨fun column below => grown (covers column below), source.imp_right ?_⟩
    rintro ⟨fd, member, kind, inside⟩
    exact ⟨fd, member, kind, fun column listed => grown (inside column listed)⟩

/-- A key stays one with a column more. -/
theorem isUnique_of_subset_chained :
    chained.isUnique [0] = true ∧ chained.isUnique [0, 2] = true :=
  ⟨by decide, chained.isUnique_of_subset (cons_subset_cons 0 (nil_subset _)) (by decide)⟩

end KeyRel

end Sound

end Quereus.Planner
