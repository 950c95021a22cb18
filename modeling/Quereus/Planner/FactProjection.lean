import Quereus.Planner.Facts

/-! # Dependencies under new column numbers

`projectFds` renumbers the columns of dependencies by a partial map and drops a dependency
that loses a determinant, a guard column or all its dependents; `shiftFds` renumbers by an
offset. A node that renumbers emits one row for each row of its input, so a dependency says
of the emitted rows what it said of the rows they show.
-/

namespace Quereus.Planner

open Agreement List

variable {ν : Type}

mutual

def shiftClause (offset : Nat) : GuardClause ν → GuardClause ν
  | .eqLiteral column value => .eqLiteral (column + offset) value
  | .eqColumn left right => .eqColumn (left + offset) (right + offset)
  | .isNull column negated => .isNull (column + offset) negated
  | .range column min max minInclusive maxInclusive =>
    .range (column + offset) min max minInclusive maxInclusive
  | .orOf clauses => .orOf (shiftClauses offset clauses)

def shiftClauses (offset : Nat) : List (GuardClause ν) → List (GuardClause ν)
  | [] => []
  | clause :: clauses => shiftClause offset clause :: shiftClauses offset clauses

end

def shiftGuard (offset : Nat) (guard : Option (List (GuardClause ν))) :
    Option (List (GuardClause ν)) :=
  guard.map (shiftClauses offset)

def shiftFd (offset : Nat) (fd : FunctionalDependency ν) : FunctionalDependency ν where
  determinants := fd.determinants.map (· + offset)
  dependents := fd.dependents.map (· + offset)
  guard := shiftGuard offset fd.guard
  kind := fd.kind

def shiftFds (fds : List (FunctionalDependency ν)) (offset : Nat) : List (FunctionalDependency ν) :=
  if offset = 0 then fds else fds.map (shiftFd offset)

mutual

def projectClause (mapping : Nat → Option Nat) : GuardClause ν → Option (GuardClause ν)
  | .eqLiteral column value => (mapping column).map (.eqLiteral · value)
  | .eqColumn left right => (mapping left).bind fun left => (mapping right).map (.eqColumn left)
  | .isNull column negated => (mapping column).map (.isNull · negated)
  | .range column min max minInclusive maxInclusive =>
    (mapping column).map (.range · min max minInclusive maxInclusive)
  | .orOf clauses => (projectGuard mapping clauses).map .orOf

/-- The clauses of a guard or of a disjunction, all or none. -/
def projectGuard (mapping : Nat → Option Nat) : List (GuardClause ν) → Option (List (GuardClause ν))
  | [] => some []
  | clause :: clauses =>
    (projectClause mapping clause).bind fun mapped =>
      (projectGuard mapping clauses).map (mapped :: ·)

end

/-- The body of the loop of `projectFds`. -/
def projectFd (mapping : Nat → Option Nat) (fd : FunctionalDependency ν) :
    Option (FunctionalDependency ν) :=
  let newDet := fd.determinants.filterMap mapping
  let newDep := fd.dependents.filterMap mapping
  if (∃ column ∈ fd.determinants, mapping column = none) ∨ newDep = [] then none
  else (fd.guard.mapM (projectGuard mapping)).map fun newGuard =>
    { fd with determinants := newDet, dependents := newDep, guard := newGuard }

def projectFds (fds : List (FunctionalDependency ν)) (mapping : Nat → Option Nat) :
    List (FunctionalDependency ν) :=
  fds.filterMap (projectFd mapping)

variable {order : ValueOrder ν} {mapping : Nat → Option Nat} {offset : Nat} {base out : Nat → ν}
  {guard guard' : Option (List (GuardClause ν))}

mutual

theorem projectClause_isTrue : ∀ {clause clause' : GuardClause ν}, projectClause mapping clause =
    some clause' →
    (∀ column ∈ clauseColumns clause, ∀ column' ∈ mapping column, out column' = base column) →
      clause'.isTrue order out = clause.isTrue order base
  | .eqLiteral .., _, mapped, shows | .isNull .., _, mapped, shows | .range .., _,
    mapped, shows => by
    obtain ⟨column', isColumn, rfl⟩ := Option.map_eq_some_iff.mp mapped
    unfold GuardClause.isTrue
    rw [shows _ mem_cons_self _ isColumn]
  | .eqColumn .., _, mapped, shows => by
    obtain ⟨left', isLeft, mapped⟩ := Option.bind_eq_some_iff.mp mapped
    obtain ⟨right', isRight, rfl⟩ := Option.map_eq_some_iff.mp mapped
    unfold GuardClause.isTrue
    rw [shows _ mem_cons_self _ isLeft, shows _ (mem_cons_of_mem _ mem_cons_self) _ isRight]
  | .orOf .., _, mapped, shows => by
    obtain ⟨clauses', areClauses, rfl⟩ := Option.map_eq_some_iff.mp mapped
    unfold GuardClause.isTrue
    rw [projectGuard_truths areClauses shows]

theorem projectGuard_truths : ∀ {clauses clauses' : List (GuardClause ν)},
    projectGuard mapping clauses = some clauses' →
    (∀ column ∈ clauseColumnsAll clauses, ∀ column' ∈ mapping column, out column' = base column) →
      clauseTruths order clauses' out = clauseTruths order clauses base
  | [], _, mapped, _ => by
    cases mapped
    rfl
  | clause :: clauses, _, mapped, shows => by
    obtain ⟨clause', isClause, mapped⟩ := Option.bind_eq_some_iff.mp mapped
    obtain ⟨clauses', areClauses, rfl⟩ := Option.map_eq_some_iff.mp mapped
    unfold clauseTruths
    rw [projectClause_isTrue isClause fun column member => shows column (mem_append_left _ member),
      projectGuard_truths areClauses fun column member => shows column (mem_append_right _ member)]

end

theorem guardHolds_of_projected (projected : guard.mapM (projectGuard mapping) = some guard')
    (shows : ∀ column ∈ guardColumns guard, ∀ column' ∈ mapping column, out column' = base column) :
    guardHolds order guard' out = guardHolds order guard base := by
  cases guard with
  | none =>
    cases projected
    rfl
  | some clauses =>
    obtain ⟨clauses', areClauses, rfl⟩ := Option.map_eq_some_iff.mp projected
    exact congrArg (all · id) (projectGuard_truths areClauses shows)

mutual

/-- A shift is a projection that drops no column. -/
theorem projectClause_shift : ∀ clause : GuardClause ν,
    projectClause (fun column => some (column + offset)) clause = some (shiftClause offset clause)
  | .eqLiteral .. | .eqColumn .. | .isNull .. | .range .. => rfl
  | .orOf clauses => congrArg (Option.map GuardClause.orOf) (projectGuard_shift clauses)

theorem projectGuard_shift : ∀ clauses : List (GuardClause ν),
    projectGuard (fun column => some (column + offset)) clauses = some (shiftClauses offset clauses)
  | [] => rfl
  | clause :: clauses => by
    unfold projectGuard
    rw [projectClause_shift clause, projectGuard_shift clauses]
    rfl

end

theorem shiftGuard_holds
    (shows : ∀ column ∈ guardColumns guard, out (column + offset) = base column) :
    guardHolds order (shiftGuard offset guard) out = guardHolds order guard base := by
  have projected : guard.mapM (projectGuard fun column => some (column + offset)) =
      some (shiftGuard offset guard) := by
    cases guard with
    | none => rfl
    | some clauses => exact congrArg (Option.map some) (projectGuard_shift clauses)
  refine guardHolds_of_projected projected fun column member column' isColumn => ?_
  rw [← Option.some.inj isColumn, shows column member]

mutual

theorem shiftClause_zero : ∀ clause : GuardClause ν, shiftClause 0 clause = clause
  | .eqLiteral .. | .eqColumn .. | .isNull .. | .range .. => rfl
  | .orOf clauses => congrArg GuardClause.orOf (shiftClauses_zero clauses)

theorem shiftClauses_zero : ∀ clauses : List (GuardClause ν), shiftClauses 0 clauses = clauses
  | [] => rfl
  | clause :: clauses => by
    unfold shiftClauses
    rw [shiftClause_zero clause, shiftClauses_zero clauses]

end

theorem shiftFd_zero (fd : FunctionalDependency ν) : shiftFd 0 fd = fd := by
  obtain ⟨determinants, dependents, guard, kind⟩ := fd
  have guards : shiftGuard 0 guard = guard := by
    cases guard with
    | none => rfl
    | some clauses => exact congrArg some (shiftClauses_zero clauses)
  simp [shiftFd, guards]

theorem shiftFds_eq_map (fds : List (FunctionalDependency ν)) :
    shiftFds fds offset = fds.map (shiftFd offset) := by
  unfold shiftFds
  split
  · next zero =>
    subst zero
    rw [funext shiftFd_zero, map_id']
  · rfl

variable {fd fd' : FunctionalDependency ν} {rows : List (Nat → ν)} {project : (Nat → ν) → Nat → ν}

/-- One row for each row: a dependency that speaks of the emitted rows as another one does
of the rows they show holds with it. -/
theorem holdsOn_map (holds : fd.HoldsOn order rows) (kinds : fd'.kind = fd.kind)
    (guards : ∀ row, guardHolds order fd'.guard (project row) = guardHolds order fd.guard row)
    (determined : ∀ column ∈ fd.determinants, ∃ column' ∈ fd'.determinants, ∀ row,
      project row column' = row column)
    (dependent : ∀ column' ∈ fd'.dependents, ∃ column ∈ fd.dependents, ∀ row, project row column' =
      row column) :
    fd'.HoldsOn order (rows.map project) := by
  have agree : ∀ first second, Agree order.Same (· ∈ fd'.determinants) (project first)
    (project second) →
      Agree order.Same (· ∈ fd.determinants) first second := by
    intro first second agree column member
    obtain ⟨column', member', shown⟩ := determined column member
    have same := agree column' member'
    rwa [shown, shown] at same
  have filtered : (rows.map project).filter (guardHolds order fd'.guard) =
      (rows.filter (guardHolds order fd.guard)).map project := by
    rw [filter_map]
    exact congrArg (map project <| filter · rows) (funext guards)
  unfold FunctionalDependency.HoldsOn
  rw [filtered, kinds]
  refine ⟨?_, fun isUnique => pairwise_map.mpr
    ((holds.2 isUnique).imp fun apart => mt (agree _ _) apart)⟩
  intro _ inFirst _ inSecond agreed column' member'
  obtain ⟨first, firstRow, rfl⟩ := mem_map.mp inFirst
  obtain ⟨second, secondRow, rfl⟩ := mem_map.mp inSecond
  obtain ⟨column, member, shown⟩ := dependent column' member'
  rw [shown, shown]
  exact holds.1 first firstRow second secondRow (agree _ _ agreed) column member

/-- The columns of a row that `mapping` keeps are those of the row it emits. -/
def Shows (mapping : Nat → Option Nat) (project : (Nat → ν) → Nat → ν) : Prop :=
  ∀ column column', mapping column = some column' → ∀ row, project row column' = row column

theorem projectFd_holds (shows : Shows mapping project) (holds : fd.HoldsOn order rows)
    (projected : projectFd mapping fd = some fd') : fd'.HoldsOn order (rows.map project) := by
  dsimp only [projectFd] at projected
  split at projected
  · cases projected
  next kept =>
  obtain ⟨guard', isGuard, rfl⟩ := Option.map_eq_some_iff.mp projected
  refine holdsOn_map holds rfl (fun row => ?_) (fun column member => ?_) fun column' member' => ?_
  · exact guardHolds_of_projected isGuard fun column _ column' isColumn =>
      shows column column' isColumn row
  · obtain ⟨column', isColumn⟩ := Option.ne_none_iff_exists'.mp fun isNone =>
      kept (.inl ⟨column, member, isNone⟩)
    exact ⟨column', mem_filterMap.mpr ⟨column, member, isColumn⟩, shows column column' isColumn⟩
  · obtain ⟨column, member, isColumn⟩ := mem_filterMap.mp member'
    exact ⟨column, member, shows column column' isColumn⟩

/-- A bag whose columns are renumbered, in part or all by one offset, satisfies the
renumbered dependencies of the bag, each with its kind and guard. -/
theorem renumbered_hold (order : ValueOrder ν) (fds : List (FunctionalDependency ν))
    (rows : List (Nat → ν))
    (hold : ∀ fd ∈ fds, fd.HoldsOn order rows) (project : (Nat → ν) → Nat → ν) :
    (∀ mapping : Nat → Option Nat, Shows mapping project →
        ∀ fd ∈ projectFds fds mapping, fd.HoldsOn order (rows.map project)) ∧
      ∀ offset, (∀ row column, project row (column + offset) = row column) →
        ∀ fd ∈ shiftFds fds offset, fd.HoldsOn order (rows.map project) := by
  constructor
  · intro mapping shows fd' member'
    obtain ⟨fd, member, projected⟩ := mem_filterMap.mp member'
    exact projectFd_holds shows (hold fd member) projected
  · intro offset shows fd' member'
    rw [shiftFds_eq_map] at member'
    obtain ⟨fd, member, rfl⟩ := mem_map.mp member'
    refine holdsOn_map (hold fd member) rfl (fun row => shiftGuard_holds fun column _ =>
      shows row column) ?_ ?_
    · exact fun column member => ⟨column + offset, mem_map_of_mem member, fun row =>
        shows row column⟩
    · intro column' member'
      obtain ⟨column, member, rfl⟩ := mem_map.mp member'
      exact ⟨column, member, fun row => shows row column⟩

/-- Two columns swap places. -/
theorem renumbered_hold_orders :
    orderFacts.HoldsOn natOrder (fun _ => 0) [rowOf [1, 5], rowOf [2, 6]] ∧
      ∀ fd ∈ projectFds orderFacts.fds (fun column =>
        if column < 2 then some (1 - column) else none),
        fd.HoldsOn natOrder ([rowOf [1, 5], rowOf [2, 6]].map fun row column =>
          row (1 - column)) := by
  refine ⟨orderFacts_holds, (renumbered_hold natOrder _ _ orderFacts_holds.fds _).1 _ ?_⟩
  intro column column' mapped row
  obtain ⟨low, rfl⟩ : column < 2 ∧ 1 - column = column' := by simpa using mapped
  exact congrArg row (by omega)

end Quereus.Planner
