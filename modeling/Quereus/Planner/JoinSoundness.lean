import Quereus.Planner.JoinFacts

/-! # The facts of a join hold

Every output row of an inner join shows a row of each side, and an outer join keeps one
side whole. Facts of a side that is shown hold of the output, except that a row may be
shown several times; a preserved key within the side excludes this.
-/

namespace Quereus.Planner

open Agreement List

variable {ν : Type} {order : ValueOrder ν} {parameters : ParamRef → ν}

/-- Where an output row comes from. -/
inductive Origin (ν : Type) where
  | matched (left right : Nat → ν)
  | leftOnly (left : Nat → ν)
  | rightOnly (right : Nat → ν)

/-- The output row: the columns of the right side follow those of the left one, and a
side without a row is NULL. -/
def Origin.row (null : ν) (leftColumnCount : Nat) : Origin ν → Nat → ν
  | .matched left right, column =>
    if column < leftColumnCount then left column else right (column - leftColumnCount)
  | .leftOnly left, column => if column < leftColumnCount then left column else null
  | .rightOnly right, column =>
    if column < leftColumnCount then null else right (column - leftColumnCount)

variable {leftColumnCount : Nat}

section Output

variable (order) (equiPairs : List (EquiPair leftColumnCount)) (leftRows rightRows : List (Nat → ν))

/-- What a join may emit: matched rows have equal values in the compared columns, none of
them NULL, and a side is padded as the type of the join says. -/
def Emits (joinType : JoinType) : Origin ν → Prop
  | .matched left right => left ∈ leftRows ∧ right ∈ rightRows ∧
      ∀ pair ∈ equiPairs, order.equals (left pair.left) (right pair.right) = true
  | .leftOnly left => left ∈ leftRows ∧ (joinType = .left ∨ joinType = .full)
  | .rightOnly right => right ∈ rightRows ∧ (joinType = .right ∨ joinType = .full)

def IsJoinOutput (joinType : JoinType) (outs : List (Nat → ν)) : Prop :=
  match joinType with
  | .semi | .anti => outs.Subperm leftRows
  | joinType => ∃ origins : List (Origin ν),
      (∀ origin ∈ origins, Emits order equiPairs leftRows rightRows joinType origin) ∧
        outs = origins.map (Origin.row order.null leftColumnCount)

end Output

section Shown

variable {rows outs : List (Nat → ν)} {offset : Nat} {within : Nat → Prop}

/-- The columns a dependency speaks of. -/
def FunctionalDependency.columns (fd : FunctionalDependency ν) : List Nat :=
  fd.determinants ++ fd.dependents ++ guardColumns fd.guard

/-- The rows on which the shifted guard holds show rows on which the guard holds. -/
theorem carried_filter (order : ValueOrder ν) (fd : FunctionalDependency ν)
    (carried : Carried rows outs (· + offset) within)
    (inside : ∀ column ∈ guardColumns fd.guard, within column) :
    Carried (rows.filter (guardHolds order fd.guard))
      (outs.filter (guardHolds order (shiftFd offset fd).guard))
      (· + offset) within := by
  intro out member
  obtain ⟨inOuts, guarded⟩ := mem_filter.mp member
  obtain ⟨base, inRows, shows⟩ := carried out inOuts
  have same : guardHolds order (shiftFd offset fd).guard out = guardHolds order fd.guard base :=
    shiftGuard_holds fun column inGuard => shows column (inside column inGuard)
  exact ⟨base, mem_filter.mpr ⟨inRows, same ▸ guarded⟩, shows⟩

theorem renamed_mem (columns : List Nat) :
    renamed (· + offset) (· ∈ columns) = (· ∈ columns.map (· + offset)) :=
  funext fun _ => propext mem_map.symm

variable {fd : FunctionalDependency ν}

theorem shiftFd_determines (holds : fd.HoldsOn order rows)
    (carried : Carried rows outs (· + offset) within)
    (inside : ∀ column ∈ fd.columns, within column) :
    Determines order.Same (outs.filter (guardHolds order (shiftFd offset fd).guard))
      (· ∈ (shiftFd offset fd).determinants) (· ∈ (shiftFd offset fd).dependents) := by
  have guarded := carried_filter order fd carried
    fun column member => inside column (mem_append_right _ member)
  have determines := guarded.determines holds.1
    (fun column member => inside column (mem_append_left _ (mem_append_left _ member)))
    (fun column member => inside column (mem_append_left _ (mem_append_right _ member)))
  rwa [renamed_mem, renamed_mem] at determines

/-- Every column the facts speak of is one of a set. -/
structure PhysicalProperties.Within (facts : PhysicalProperties ν)
    (within : Nat → Prop) : Prop where
  fds : ∀ fd ∈ facts.fds, ∀ column ∈ fd.columns, within column
  equivClasses : ∀ equivClass ∈ facts.equivClasses, ∀ column ∈ equivClass, within column
  constantBindings : ∀ binding ∈ facts.constantBindings, ∀ column ∈ binding.attrs, within column
  domainConstraints : ∀ constraint ∈ facts.domainConstraints, within constraint.column

variable {facts : PhysicalProperties ν}

variable (holds : facts.HoldsOn order parameters rows)
  (carried : Carried rows outs (· + offset) within)

include holds carried

/-- The dependencies kept of a side: as they are if some preserved key lies in the side,
and downgraded otherwise. -/
theorem kept_hold {preservedKeys : List (List Nat)} {inSide : Nat → Bool}
    (inside : facts.Within within)
    (keys : ∀ key ∈ preservedKeys, Identifies order.Same outs (· ∈ key))
    (shown : ∀ column, inSide column = true → ∃ base, within base ∧ base + offset = column) :
    ∀ fd ∈ shiftFds (if preservedKeys.any (·.all inSide) then facts.fds
      else downgradeUniqueFds facts.fds) offset,
      fd.HoldsOn order outs := by
  intro fd member
  rw [shiftFds_eq_map] at member
  obtain ⟨kept, inKept, rfl⟩ := mem_map.mp member
  split at inKept
  · next preserved =>
    obtain ⟨key, inKeys, isInside⟩ := any_eq_true.mp preserved
    have within := inside.fds kept inKept
    refine ⟨shiftFd_determines (holds.fds kept inKept) carried within, fun kind => ?_⟩
    -- A key of the output within the columns that show rows keeps their uniqueness.
    have guarded := carried_filter order kept carried
      fun column member => within column (mem_append_right _ member)
    have identifies := guarded.identifies order.same_symm ValueOrder.Same.refl
      ((holds.fds kept inKept).2 kind)
      (fun column member => within column (mem_append_left _ (mem_append_left _ member)))
      ((keys key inKeys).sublist filter_sublist)
      fun column inKey => shown column (all_eq_true.mp isInside column inKey)
    rwa [renamed_mem] at identifies
  · obtain ⟨original, inFds, rfl⟩ := mem_map.mp inKept
    have weaker : (downgradeFd original).HoldsOn order rows := ⟨(holds.fds original inFds).1, nofun⟩
    exact ⟨shiftFd_determines weaker carried (inside.fds original inFds), nofun⟩

theorem shiftEquivClasses_hold (inside : facts.Within within) :
    ∀ equivClass ∈ shiftEquivClasses facts.equivClasses offset,
      ClassHoldsOn order outs equivClass := by
  have mapped : shiftEquivClasses facts.equivClasses offset =
      facts.equivClasses.map (·.map (· + offset)) := by
    unfold shiftEquivClasses
    split
    · next zero => simp [zero]
    · rfl
  intro equivClass member
  rw [mapped] at member
  obtain ⟨original, inClasses, rfl⟩ := mem_map.mp member
  intro out inOuts first inFirst second inSecond
  obtain ⟨base, inRows, shows⟩ := carried out inOuts
  obtain ⟨firstBase, inOriginal, rfl⟩ := mem_map.mp inFirst
  obtain ⟨secondBase, inOriginal', rfl⟩ := mem_map.mp inSecond
  rw [shows firstBase (inside.equivClasses original inClasses _ inOriginal),
    shows secondBase (inside.equivClasses original inClasses _ inOriginal')]
  exact holds.equivClasses original inClasses base inRows _ inOriginal _ inOriginal'

omit holds carried

/-- A binding of columns that show bound columns holds. -/
theorem binding_holds {original binding : ConstantBinding ν}
    (holds : original.HoldsOn order parameters rows)
    (carried : Carried rows outs (· + offset) within)
    (inside : ∀ column ∈ original.attrs, within column)
    (value : binding.value = original.value)
    (shown : ∀ column ∈ binding.attrs, ∃ base ∈ original.attrs, base + offset = column) :
    binding.HoldsOn order parameters outs := by
  intro out inOuts column member
  obtain ⟨base, inRows, shows⟩ := carried out inOuts
  obtain ⟨baseColumn, inAttrs, rfl⟩ := shown column member
  rw [value, shows baseColumn (inside baseColumn inAttrs)]
  exact holds base inRows baseColumn inAttrs

include holds carried

theorem shiftConstantBindings_hold (inside : facts.Within within) :
    ∀ binding ∈ shiftConstantBindings facts.constantBindings offset,
      binding.HoldsOn order parameters outs := by
  intro binding member
  unfold shiftConstantBindings at member
  split at member
  · next zero =>
    subst zero
    obtain ⟨original, inBindings, rfl⟩ := mem_map.mp member
    refine binding_holds (holds.constantBindings original inBindings) carried
      (inside.constantBindings original inBindings) rfl fun column inAttrs => ?_
    exact ⟨column, mem_normalizeClass.mp inAttrs, rfl⟩
  · obtain ⟨original, inBindings, rfl⟩ := mem_map.mp member
    refine binding_holds (holds.constantBindings original inBindings) carried
      (inside.constantBindings original inBindings) rfl fun column inAttrs => ?_
    exact mem_map.mp ((mem_insertionSort _).mp inAttrs)

theorem shiftDomainConstraints_hold (inside : facts.Within within) :
    ∀ constraint ∈ shiftDomainConstraints facts.domainConstraints offset,
      constraint.HoldsOn order outs := by
  have mapped : shiftDomainConstraints facts.domainConstraints offset =
      facts.domainConstraints.map fun constraint =>
        { constraint with column := constraint.column + offset } := by
    unfold shiftDomainConstraints
    split
    · next zero => simp [zero]
    · rfl
  intro constraint member
  rw [mapped] at member
  obtain ⟨original, inDomains, rfl⟩ := mem_map.mp member
  intro out inOuts
  obtain ⟨base, inRows, shows⟩ := carried out inOuts
  rw [shows original.column (inside.domainConstraints original inDomains)]
  exact holds.domainConstraints original inDomains base inRows

end Shown

variable {preservedKeys : List (List Nat)} {equiPairs : List (EquiPair leftColumnCount)}

section Added

variable {outs : List (Nat → ν)}

theorem filter_guardHolds_none (rows : List (Nat → ν)) :
    rows.filter (guardHolds order none) = rows :=
  filter_eq_self.mpr fun _ _ => rfl

variable {fds : List (FunctionalDependency ν)}

theorem withKeyFds_hold {totalColumnCount : Nat} (hold : ∀ fd ∈ fds, fd.HoldsOn order outs)
    (keys : ∀ key ∈ preservedKeys, Identifies order.Same outs (· ∈ key)) :
    ∀ fd ∈ withKeyFds order totalColumnCount preservedKeys fds, fd.HoldsOn order outs := by
  refine foldlRecOn (motive := fun fds : List (FunctionalDependency ν) =>
    ∀ fd ∈ fds, fd.HoldsOn order outs) preservedKeys _ hold ?_
  intro fds hold key inKeys
  split
  · next keyFd isFd =>
    -- A key determines all other columns and is unique.
    simp only [superkeyToFd] at isFd
    split at isFd <;> cases isFd
    refine addFd_sound hold ⟨?_, fun _ => ?_⟩ (fun _ _ _ => .inl rfl) preservedKeys
    · rw [filter_guardHolds_none]
      intro first inFirst second inSecond agree column _
      rw [(keys key inKeys).eq_of_agree order.same_symm inFirst inSecond agree]
      exact .refl _
    · rw [filter_guardHolds_none]
      exact keys key inKeys
  · exact hold

/-- Columns with the same value in every row determine each other. -/
theorem pairFd_holds {first second : Nat}
    (same : ∀ out ∈ outs, order.Same (out first) (out second)) :
    FunctionalDependency.HoldsOn order outs ⟨[first], [second], none, .determination⟩ := by
  refine ⟨?_, nofun⟩
  rw [filter_guardHolds_none]
  intro one inOne other inOther agree column member
  rw [mem_singleton.mp member]
  exact ((same one inOne).symm.trans (agree first mem_cons_self)).trans (same other inOther)

theorem addPairFds_hold (hold : ∀ fd ∈ fds, fd.HoldsOn order outs)
    (same : ∀ pair ∈ equiPairs, ∀ out ∈ outs,
      order.Same (out pair.left) (out (pair.right + leftColumnCount))) :
    ∀ fd ∈ addPairFds order equiPairs preservedKeys fds, fd.HoldsOn order outs := by
  refine foldlRecOn (motive := fun fds : List (FunctionalDependency ν) =>
    ∀ fd ∈ fds, fd.HoldsOn order outs) equiPairs _ hold ?_
  intro fds hold pair member
  have forth := addFd_sound hold (pairFd_holds (same pair member))
    (earnsKind_of_nodup (nodup_singleton _)) preservedKeys
  have back := pairFd_holds fun out inOuts => (same pair member out inOuts).symm
  exact addFd_sound forth back (earnsKind_of_nodup (nodup_singleton _)) preservedKeys

end Added

section Sides

variable {leftRows rightRows : List (Nat → ν)} {joinType : JoinType} {origins : List (Origin ν)}

variable (emits : ∀ origin ∈ origins, Emits order equiPairs leftRows rightRows joinType origin)

include emits

theorem carried_left (notRight : joinType ≠ .right) (notFull : joinType ≠ .full) :
    Carried leftRows (origins.map (Origin.row order.null leftColumnCount)) (· + 0)
      (· < leftColumnCount) := by
  intro out member
  obtain ⟨origin, inOrigins, rfl⟩ := mem_map.mp member
  have emitted := emits origin inOrigins
  cases origin with
  | matched left right => exact ⟨left, emitted.1, fun column isLeft => if_pos isLeft⟩
  | leftOnly left => exact ⟨left, emitted.1, fun column isLeft => if_pos isLeft⟩
  | rightOnly right => exact absurd emitted.2 (not_or.mpr ⟨notRight, notFull⟩)

theorem carried_right (notLeft : joinType ≠ .left) (notFull : joinType ≠ .full) :
    Carried rightRows (origins.map (Origin.row order.null leftColumnCount)) (· + leftColumnCount)
      fun _ => True := by
  have shifted (column : Nat) : ¬ column + leftColumnCount < leftColumnCount := by omega
  intro out member
  obtain ⟨origin, inOrigins, rfl⟩ := mem_map.mp member
  have emitted := emits origin inOrigins
  cases origin with
  | matched left right =>
    refine ⟨right, emitted.2.1, fun column _ => ?_⟩
    simp only [Origin.row, if_neg (shifted column), Nat.add_sub_cancel]
  | leftOnly left => exact absurd emitted.2 (not_or.mpr ⟨notLeft, notFull⟩)
  | rightOnly right =>
    refine ⟨right, emitted.1, fun column _ => ?_⟩
    simp only [Origin.row, if_neg (shifted column), Nat.add_sub_cancel]

/-- Where no side is padded, the compared columns are the same. -/
theorem pairs_same (notLeft : joinType ≠ .left) (notRight : joinType ≠ .right)
    (notFull : joinType ≠ .full) :
    ∀ pair ∈ equiPairs, ∀ out ∈ origins.map (Origin.row order.null leftColumnCount),
      order.Same (out pair.left) (out (pair.right + leftColumnCount)) := by
  intro pair inPairs out member
  obtain ⟨origin, inOrigins, rfl⟩ := mem_map.mp member
  have emitted := emits origin inOrigins
  cases origin with
  | matched left right =>
    have equal := emitted.2.2 pair inPairs
    have shifted : ¬ pair.right + leftColumnCount < leftColumnCount := by omega
    simp only [Origin.row, if_pos pair.left.isLt, if_neg shifted, Nat.add_sub_cancel]
    exact of_decide_eq_true (Bool.and_eq_true_iff.mp equal).2
  | leftOnly left => exact absurd emitted.2 (not_or.mpr ⟨notLeft, notFull⟩)
  | rightOnly right => exact absurd emitted.2 (not_or.mpr ⟨notRight, notFull⟩)

end Sides

/-- Rows of a bag, each once at most, have the facts of the bag. -/
theorem PhysicalProperties.HoldsOn.subperm {facts : PhysicalProperties ν}
    {rows outs : List (Nat → ν)}
    (holds : facts.HoldsOn order parameters rows) (taken : outs.Subperm rows) :
    facts.HoldsOn order parameters outs where
  fds := by
    intro fd member
    have guarded := taken.filter (guardHolds order fd.guard)
    exact ⟨(holds.fds fd member).1.subset fun row => guarded.subset (a := row),
      fun unique => ((holds.fds fd member).2 unique).subperm order.same_symm guarded⟩
  equivClasses := fun equivClass member row inOuts =>
    holds.equivClasses equivClass member row (taken.subset inOuts)
  constantBindings := fun binding member row inOuts =>
    holds.constantBindings binding member row (taken.subset inOuts)
  domainConstraints := fun constraint member row inOuts =>
    holds.domainConstraints constraint member row (taken.subset inOuts)

section Main

variable {leftPhys rightPhys : PhysicalProperties ν} {totalColumnCount : Nat}
  {leftRows rightRows outs : List (Nat → ν)}

theorem PhysicalProperties.within_true (facts : PhysicalProperties ν) :
    facts.Within fun _ => True :=
  ⟨fun _ _ _ _ => trivial, fun _ _ _ _ => trivial, fun _ _ _ _ => trivial, fun _ _ => trivial⟩

/-- Shifting columns lists none twice that was listed once. -/
theorem keptRightFds_nodup (plain : ∀ fd ∈ rightPhys.fds, fd.determinants.Nodup) :
    ∀ fd ∈ shiftFds (keptRightFds rightPhys leftColumnCount preservedKeys) leftColumnCount,
      fd.determinants.Nodup := by
  have kept : ∀ fd ∈ keptRightFds rightPhys leftColumnCount preservedKeys,
      fd.determinants.Nodup := by
    unfold keptRightFds
    split
    · exact plain
    · intro fd member
      obtain ⟨original, inFds, rfl⟩ := mem_map.mp member
      exact plain original inFds
  intro fd member
  rw [shiftFds_eq_map] at member
  obtain ⟨original, inKept, rfl⟩ := mem_map.mp member
  exact (kept original inKept).map (add_left_injective leftColumnCount)

variable (leftHolds : leftPhys.HoldsOn order parameters leftRows)
  (rightHolds : rightPhys.HoldsOn order parameters rightRows)
  (inside : leftPhys.Within (· < leftColumnCount))
  (left : Carried leftRows outs (· + 0) (· < leftColumnCount))
  (right : Carried rightRows outs (· + leftColumnCount) fun _ => True)
  (keys : ∀ key ∈ preservedKeys, Identifies order.Same outs (· ∈ key))

include leftHolds inside left in
theorem leftBindings_hold : ∀ binding ∈ leftPhys.constantBindings,
    binding.HoldsOn order parameters outs :=
  fun binding member => binding_holds (leftHolds.constantBindings binding member) left
    (inside.constantBindings binding member) rfl fun column inAttrs => ⟨column, inAttrs, rfl⟩

include keys

include leftHolds inside left in
theorem keptLeftFds_hold : ∀ fd ∈ keptLeftFds leftPhys leftColumnCount preservedKeys,
    fd.HoldsOn order outs :=
  kept_hold leftHolds left inside keys fun column isLeft => ⟨column, of_decide_eq_true isLeft, rfl⟩

include rightHolds right

theorem keptRightFds_hold :
    ∀ fd ∈ shiftFds (keptRightFds rightPhys leftColumnCount preservedKeys) leftColumnCount,
      fd.HoldsOn order outs :=
  kept_hold rightHolds right rightPhys.within_true keys fun column isRight =>
    ⟨column - leftColumnCount, trivial, Nat.sub_add_cancel (of_decide_eq_true isRight)⟩

include leftHolds inside left in
theorem propagateInner_holds
    (earns : MergeEarns order preservedKeys (keptLeftFds leftPhys leftColumnCount preservedKeys)
      (shiftFds (keptRightFds rightPhys leftColumnCount preservedKeys) leftColumnCount))
    (same : ∀ pair ∈ equiPairs, ∀ out ∈ outs,
      order.Same (out pair.left) (out (pair.right + leftColumnCount))) :
    (propagateInner order leftPhys rightPhys equiPairs totalColumnCount preservedKeys).HoldsOn
      order parameters outs := by
  have fds := mergeFds_hold (keptLeftFds_hold leftHolds inside left keys)
    (keptRightFds_hold rightHolds right keys) earns
  have classes := foldlRecOn (motive := fun classes : List (List Nat) =>
      ∀ equivClass ∈ classes, ClassHoldsOn order outs equivClass) equiPairs _
    (mergeEquivClasses_holds (shiftEquivClasses_hold leftHolds left inside)
      (shiftEquivClasses_hold rightHolds right rightPhys.within_true))
    fun _ hold pair member => addEquivalence_holds hold (same pair member)
  have bindings := mergeConstantBindings_hold (leftBindings_hold leftHolds inside left)
    (shiftConstantBindings_hold rightHolds right rightPhys.within_true)
  exact
    { fds := withKeyFds_hold (addPairFds_hold fds same) keys
      equivClasses := classes
      constantBindings := closeConstantBindingsOverEcs_hold bindings classes
      domainConstraints := mergeDomainConstraints_hold
        (shiftDomainConstraints_hold leftHolds left inside)
        (shiftDomainConstraints_hold rightHolds right rightPhys.within_true) }

end Main

theorem noFacts_holds (rows : List (Nat → Nat)) : noFacts.HoldsOn natOrder (fun _ => 0) rows :=
  ⟨nofun, nofun, nofun, nofun⟩

theorem noFacts_within (within : Nat → Prop) : noFacts.Within within :=
  ⟨nofun, nofun, nofun, nofun⟩

def matchedOrders : List (Origin Nat) :=
  [.matched (rowOf [1]) (rowOf [1, 5]), .matched (rowOf [2]) (rowOf [2, 6])]

theorem matchedOrders_output : IsJoinOutput natOrder [(⟨0, 0⟩ : EquiPair 1)] [rowOf [1], rowOf [2]]
    [rowOf [1, 5], rowOf [2, 6]] .inner (matchedOrders.map (Origin.row 0 1)) := by
  refine ⟨matchedOrders, fun origin member => ?_, rfl⟩
  rcases mem_pair.mp member with rfl | rfl
  · refine ⟨mem_cons_self, mem_cons_self, fun pair inPairs => ?_⟩
    rw [mem_singleton.mp inPairs]
    decide
  · refine ⟨mem_cons_of_mem _ mem_cons_self, mem_cons_of_mem _ mem_cons_self,
      fun pair inPairs => ?_⟩
    rw [mem_singleton.mp inPairs]
    decide

/-- The second dependency lists its determinant twice. -/
def repeatedFacts : PhysicalProperties Nat :=
  { noFacts with fds := [⟨[0, 1], [2], none, .unique⟩, ⟨[0, 0], [2, 3], none, .determination⟩] }

def repeatedRows : List (Nat → Nat) :=
  [rowOf [1, 1, 5, 6], rowOf [1, 2, 5, 6]]

theorem repeatedFacts_holds : repeatedFacts.HoldsOn natOrder (fun _ => 0) repeatedRows where
  fds := by
    intro fd member
    have constant : ∀ row ∈ repeatedRows, row 2 = 5 ∧ row 3 = 6 := by
      intro row inRows
      rcases mem_pair.mp inRows with rfl | rfl <;> exact ⟨rfl, rfl⟩
    have determines (columns : List Nat) (dependents : List Nat)
      (within : ∀ column ∈ dependents, column = 2 ∨ column = 3) :
        Determines natOrder.Same repeatedRows (· ∈ columns) (· ∈ dependents) := by
      intro first inFirst second inSecond _ column inDependents
      rcases within column inDependents with rfl | rfl
      · rw [(constant first inFirst).1, (constant second inSecond).1]
        exact .refl _
      · rw [(constant first inFirst).2, (constant second inSecond).2]
        exact .refl _
    rcases mem_pair.mp member with rfl | rfl
    · refine ⟨?_, fun _ => ?_⟩
      · exact determines _ _ (by decide)
      · exact pairwise_pair.mpr fun agree => absurd (agree 1 (by decide)) (by decide)
    · refine ⟨?_, nofun⟩
      exact determines _ _ (by decide)
  equivClasses := nofun
  constantBindings := nofun
  domainConstraints := nofun

def repeatedOutput : List (Nat → Nat) :=
  repeatedRows.map fun right => Origin.row 0 1 (.matched (rowOf [7]) right)

end Quereus.Planner
