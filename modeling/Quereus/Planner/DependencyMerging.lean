import Quereus.Planner.Facts

/-! # Merging dependencies

`addFd` and `mergeFds` gather dependencies into one list. What they keep holds of the
rows of which the given ones hold, if a dependency that becomes unique on the way has the
determinants of a unique one. One that lists no determinant twice has them;
`determinantsEqual` compares arrays by length and by inclusion one way, so another may not.
-/

namespace Quereus.Planner

open Agreement List

variable {ν : Type} (order : ValueOrder ν)

/-- Both bounds are absent, or both are there with the same value and inclusivity. -/
def boundEquals (bound bound' : Option ν) (inclusive inclusive' : Bool) : Bool :=
  match bound, bound' with
  | none, none => true
  | some value, some value' => order.sqlValueEquals value value' && inclusive = inclusive'
  | _, _ => false

mutual

/-- Two clauses say the same. The order of the columns of an equality and of the
clauses of a disjunction is free. -/
def guardClauseEquals : GuardClause ν → GuardClause ν → Bool
  | .eqLiteral column value, .eqLiteral column' value' =>
    column = column' && order.sqlValueEquals value value'
  | .eqColumn left right, .eqColumn left' right' =>
    (left = left' && right = right') || (left = right' && right = left')
  | .isNull column negated, .isNull column' negated' => column = column' && negated = negated'
  | .range column min max minInclusive maxInclusive,
    .range column' min' max' minInclusive' maxInclusive' =>
    column = column' && boundEquals order min min' minInclusive minInclusive' &&
      boundEquals order max max' maxInclusive maxInclusive'
  | .orOf clauses, .orOf clauses' =>
    clauses.length = clauses'.length && clausesMatch clauses clauses'
  | _, _ => false

/-- Each clause takes the first clause that equals it of those not taken yet. -/
def clausesMatch : List (GuardClause ν) → List (GuardClause ν) → Bool
  | [], _ => true
  | clause :: clauses, free =>
    free.any (guardClauseEquals clause) && clausesMatch clauses
      (free.eraseP (guardClauseEquals clause))

end

/-- Equality of guards. The shortcut for one and the same object is not modelled. -/
def guardsEqual : Option (List (GuardClause ν)) → Option (List (GuardClause ν)) → Bool
  | none, none => true
  | some clauses, some clauses' =>
    clauses.length = clauses'.length && clausesMatch order clauses clauses'
  | _, _ => false

variable {order}

theorem boundEquals_all {bound bound' : Option ν} {inclusive inclusive' : Bool}
    (equal : boundEquals order bound bound' inclusive inclusive' = true) (reaches : ν → Bool → Bool)
    (congr : ∀ {a b}, order.Same a b → reaches a inclusive = reaches b inclusive) :
    bound.all (fun value => reaches value inclusive) =
      bound'.all (fun value => reaches value inclusive') := by
  match bound, bound', equal with
  | none, none, _ => rfl
  | some value, some value', equal =>
    obtain ⟨same, rfl⟩ := by simpa [boundEquals] using equal
    exact congr (order.eq_of_sqlValueEquals same)

mutual

/-- Clauses that say the same are true of the same rows. -/
theorem guardClauseEquals_isTrue : ∀ {clause clause' : GuardClause ν},
    guardClauseEquals order clause clause' = true → ∀ row, clause.isTrue order row =
      clause'.isTrue order row
  | .eqLiteral column value, .eqLiteral column' value', equal, row => by
    obtain ⟨rfl, same⟩ := by simpa [guardClauseEquals] using equal
    exact ValueOrder.Same.equals (order.eq_of_sqlValueEquals same) (row column)
  | .eqColumn left right, .eqColumn left' right', equal, row => by
    rcases (by simpa [guardClauseEquals] using equal :
      left = left' ∧ right = right' ∨ left = right' ∧ right = left') with ⟨rfl, rfl⟩ | ⟨rfl, rfl⟩
    · rfl
    · exact ValueOrder.equals_comm (row left) (row right)
  | .isNull column negated, .isNull column' negated', equal, row => by
    obtain ⟨rfl, rfl⟩ := by simpa [guardClauseEquals] using equal
    rfl
  | .range column min max minInclusive maxInclusive,
      .range column' min' max' minInclusive' maxInclusive',
      equal, row => by
      obtain ⟨⟨rfl, lower⟩, upper⟩ := by simpa [guardClauseEquals] using equal
      unfold GuardClause.isTrue
      rw [boundEquals_all lower fun min inclusive => !order.isNull min &&
        order.aboveMin min inclusive (row column),
        boundEquals_all upper fun max inclusive => !order.isNull max &&
          order.belowMax max inclusive (row column)]
      · intro a b same
        rw [same.isNull, same.belowMax]
      · intro a b same
        rw [same.isNull, same.aboveMin]
  | .orOf clauses, .orOf clauses', equal, row => by
    obtain ⟨lengths, matched⟩ := by simpa [guardClauseEquals] using equal
    exact (clausesMatch_perm matched lengths row).any_eq

/-- Clauses that match one to one have the same truths, in some order. -/
theorem clausesMatch_perm : ∀ {clauses free : List (GuardClause ν)},
    clausesMatch order clauses free = true → clauses.length = free.length → ∀ row,
      (clauseTruths order clauses row).Perm (clauseTruths order free row)
  | [], free, _, lengths, row => by
    rw [eq_nil_of_length_eq_zero lengths.symm]
  | clause :: clauses, free, matched, lengths, row => by
    obtain ⟨found, rest⟩ := Bool.and_eq_true_iff.mp matched
    obtain ⟨taken, member, equal⟩ := any_eq_true.mp found
    obtain ⟨partner, before, after, -, equalsPartner, split, erased⟩ :=
      exists_of_eraseP member equal
    rw [erased] at rest
    have restLengths : clauses.length = (before ++ after).length := by
      rw [split] at lengths
      simp only [length_append, length_cons] at lengths ⊢
      omega
    have restPerm := clausesMatch_perm rest restLengths row
    rw [split, clauseTruths, guardClauseEquals_isTrue equalsPartner row]
    rw [clauseTruths_eq_map order (before ++ after)] at restPerm
    rw [clauseTruths_eq_map order (before ++ partner :: after)]
    exact (restPerm.cons _).trans (perm_middle.symm.map (GuardClause.isTrue order · row))

end

variable (order)

/-- The arrays have one length and the second has no column that the first has not. -/
def determinantsEqual (a b : List Nat) : Bool :=
  a.length = b.length && b.all (· ∈ a)

def dependentsSubset (sub sup : List Nat) : Bool :=
  sub.all (· ∈ sup)

def fdsEqual (a b : FunctionalDependency ν) : Bool :=
  determinantsEqual a.determinants b.determinants && determinantsEqual a.dependents b.dependents &&
    guardsEqual order a.guard b.guard

/-- What `addFd` keeps while it goes through the list. -/
structure AddFd (ν : Type) where
  result : List (FunctionalDependency ν)
  subsumedByExisting : Bool
  nextKind : FdKind

/-- An existing dependency, made unique if the new one is. -/
def upgraded (existing next : FunctionalDependency ν) : FunctionalDependency ν :=
  if next.kind = .unique then { existing with kind := .unique } else existing

def addFdStep (next : FunctionalDependency ν) (state : AddFd ν)
    (existing : FunctionalDependency ν) : AddFd ν :=
  let keepUpgraded : AddFd ν :=
    { state with result := state.result ++ [upgraded existing next], subsumedByExisting := true }
  if fdsEqual order existing next then keepUpgraded
  else if determinantsEqual existing.determinants next.determinants &&
    guardsEqual order existing.guard next.guard then
    if dependentsSubset existing.dependents next.dependents then
      { state with nextKind := if existing.kind = .unique then .unique else state.nextKind }
    else if dependentsSubset next.dependents existing.dependents then keepUpgraded
    else { state with result := state.result ++ [existing] }
  else { state with result := state.result ++ [existing] }

/-- Unique dependencies first. -/
def uniqueFirst (fds : List (FunctionalDependency ν)) : List (FunctionalDependency ν) :=
  fds.filter (·.kind = .unique) ++ fds.filter (·.kind ≠ .unique)

def enforceCap (fds : List (FunctionalDependency ν)) (keyHints : List (List Nat)) (cap : Nat) :
    List (FunctionalDependency ν) :=
  if fds.length ≤ cap then fds
  else
    let isSubsetOfAnyKey (fd : FunctionalDependency ν) : Bool :=
      keyHints.any fun key => fd.determinants.all (· ∈ key)
    let preferred := fds.filter isSubsetOfAnyKey
    let other := fds.filter (!isSubsetOfAnyKey ·)
    if cap ≤ preferred.length then (uniqueFirst preferred).take cap
    else preferred ++ (uniqueFirst other).take (cap - preferred.length)

def addFd (fds : List (FunctionalDependency ν)) (next : FunctionalDependency ν)
    (keyHints : List (List Nat)) :
    List (FunctionalDependency ν) :=
  if next.dependents = [] then fds
  else
    let state := fds.foldl (addFdStep order next) ⟨[], false, next.kind⟩
    let result := if state.subsumedByExisting then state.result
      else state.result ++ [{ next with kind := state.nextKind }]
    enforceCap result keyHints MAX_FDS_PER_NODE

def mergeFds (a b : List (FunctionalDependency ν)) (keyHints : List (List Nat)) :
    List (FunctionalDependency ν) :=
  b.foldl (fun result fd => addFd order result fd keyHints) a

variable {order} {rows : List (Nat → ν)}

theorem subset_of_determinantsEqual {a b : List Nat} (equal : determinantsEqual a b = true) :
    ∀ column ∈ b, column ∈ a := by
  intro column member
  exact of_decide_eq_true (all_eq_true.mp (Bool.and_eq_true_iff.mp equal).2 column member)

/-- The rows a dependency speaks of depend on its guard only. -/
theorem filter_guardHolds_eq {guard guard' : Option (List (GuardClause ν))}
    (equal : guardsEqual order guard guard' = true) (rows : List (Nat → ν)) :
    rows.filter (guardHolds order guard) = rows.filter (guardHolds order guard') := by
  congr 1
  funext row
  match guard, guard', equal with
  | none, none, _ => rfl
  | some clauses, some clauses', equal =>
    obtain ⟨lengths, matched⟩ := by simpa [guardsEqual] using equal
    exact (clausesMatch_perm matched lengths row).all_eq

variable {next fd : FunctionalDependency ν} {fds : List (FunctionalDependency ν)}

/-- An upgraded dependency has the uniqueness of a dependency whose determinants are
among its own. -/
theorem HoldsOn.upgraded {existing : FunctionalDependency ν} (holds : existing.HoldsOn order rows)
    (nextHolds : next.HoldsOn order rows)
    (guards : guardsEqual order existing.guard next.guard = true)
    (subset : ∀ column ∈ next.determinants, column ∈ existing.determinants) :
    (Planner.upgraded existing next).HoldsOn order rows := by
  unfold Planner.upgraded
  split
  · next unique =>
    refine ⟨holds.1, fun _ => ?_⟩
    have identifies := nextHolds.2 unique
    rw [← filter_guardHolds_eq guards] at identifies
    exact identifies.mono subset
  · exact holds

variable (order) in
/-- If `addFd` makes a new dependency unique, a unique one with its guard has no determinants
beside those of the new one. -/
def EarnsKind (fds : List (FunctionalDependency ν)) (next : FunctionalDependency ν) : Prop :=
  let state := fds.foldl (addFdStep order next) ⟨[], false, next.kind⟩
  next.dependents ≠ [] → state.subsumedByExisting = false → state.nextKind = .unique →
    next.kind = .unique ∨ ∃ existing ∈ fds, existing.kind = .unique ∧
      guardsEqual order existing.guard next.guard ∧
      ∀ column ∈ existing.determinants, column ∈ next.determinants

variable (order) in
/-- Every dependency merged into a list earns its kind when its turn comes. -/
def MergeEarns (keyHints : List (List Nat)) :
    List (FunctionalDependency ν) → List (FunctionalDependency ν) → Prop
  | _, [] => True
  | fds, next :: rest =>
    EarnsKind order fds next ∧ MergeEarns keyHints (addFd order fds next keyHints) rest

/-- A dependency that lists no determinant twice earns its kind. -/
theorem earnsKind_of_nodup (nodup : next.determinants.Nodup) : EarnsKind order fds next := by
  intro _ _
  refine foldlRecOn (motive := fun state : AddFd ν => state.nextKind = .unique → _) fds _ .inl ?_
  intro state earned existing member isUnique
  simp only [addFdStep] at isUnique
  split_ifs at isUnique with equal comparable covered unique covers
  · exact earned isUnique
  · obtain ⟨determinants, guards⟩ := Bool.and_eq_true_iff.mp comparable
    -- a list of as many columns, none twice, has the same columns
    have lengths := of_decide_eq_true (Bool.and_eq_true_iff.mp determinants).1
    have perm := (nodup.subperm (subset_of_determinantsEqual determinants)).perm_of_length_le
      (le_of_eq lengths)
    exact .inr ⟨existing, member, unique, guards, fun column inside => perm.mem_iff.mpr inside⟩
  all_goals exact earned isUnique

theorem mergeEarns_of_nodup {keyHints : List (List Nat)} {merged : List (FunctionalDependency ν)}
    (plain : ∀ fd ∈ merged, fd.determinants.Nodup) : MergeEarns order keyHints fds merged := by
  induction merged generalizing fds with
  | nil => trivial
  | cons next rest ih =>
    obtain ⟨nodup, plain⟩ := forall_mem_cons.mp plain
    exact ⟨earnsKind_of_nodup nodup, ih plain⟩

/-- The dependencies kept while `addFd` goes through the list hold. -/
theorem addFdStep_hold {existing : FunctionalDependency ν} {state : AddFd ν}
    (nextHolds : next.HoldsOn order rows) (hold : ∀ fd ∈ state.result, fd.HoldsOn order rows)
    (holds : existing.HoldsOn order rows) :
    ∀ fd ∈ (addFdStep order next state existing).result, fd.HoldsOn order rows := by
  have push {kept : FunctionalDependency ν} (keptHolds : kept.HoldsOn order rows) :
      ∀ fd ∈ state.result ++ [kept], fd.HoldsOn order rows :=
    forall_mem_append.mpr ⟨hold, forall_mem_singleton.mpr keptHolds⟩
  simp only [addFdStep]
  split_ifs with equal comparable covered unique covers
  · obtain ⟨columns, guards⟩ := Bool.and_eq_true_iff.mp equal
    have determinants := (Bool.and_eq_true_iff.mp columns).1
    exact push (HoldsOn.upgraded holds nextHolds guards (subset_of_determinantsEqual determinants))
  · exact hold
  · exact hold
  · obtain ⟨determinants, guards⟩ := Bool.and_eq_true_iff.mp comparable
    exact push (HoldsOn.upgraded holds nextHolds guards (subset_of_determinantsEqual determinants))
  · exact push holds
  · exact push holds

theorem mem_uniqueFirst (member : fd ∈ uniqueFirst fds) : fd ∈ fds := by
  rcases mem_append.mp member with isUnique | isOther
  · exact mem_of_mem_filter isUnique
  · exact mem_of_mem_filter isOther

theorem mem_of_mem_enforceCap {keyHints : List (List Nat)} {cap : Nat}
    (member : fd ∈ enforceCap fds keyHints cap) : fd ∈ fds := by
  simp only [enforceCap] at member
  split_ifs at member
  · exact member
  · exact mem_of_mem_filter (mem_uniqueFirst (mem_of_mem_take member))
  · rcases mem_append.mp member with preferred | other
    · exact mem_of_mem_filter preferred
    · exact mem_of_mem_filter (mem_uniqueFirst (mem_of_mem_take other))

/-- What `addFd` keeps holds if a new dependency earns its kind. -/
theorem addFd_sound (hold : ∀ fd ∈ fds, fd.HoldsOn order rows) (nextHolds : next.HoldsOn order rows)
    (earns : EarnsKind order fds next) (keyHints : List (List Nat)) :
    ∀ fd ∈ addFd order fds next keyHints, fd.HoldsOn order rows := by
  intro fd member
  unfold addFd at member
  split at member
  · exact hold fd member
  · next some_dependent =>
    have kept_hold : ∀ fd ∈ (fds.foldl (addFdStep order next) ⟨[], false, next.kind⟩).result,
        fd.HoldsOn order rows := by
      refine foldlRecOn (motive := fun state : AddFd ν =>
        ∀ fd ∈ state.result, fd.HoldsOn order rows) fds _ nofun ?_
      exact fun state kept existing inFds => addFdStep_hold nextHolds kept (hold existing inFds)
    have kept := mem_of_mem_enforceCap member
    split at kept
    · exact kept_hold fd kept
    · next isNew =>
      rcases mem_append.mp kept with old | new
      · exact kept_hold fd old
      · rw [mem_singleton.mp new]
        refine ⟨nextHolds.1, fun isUnique => ?_⟩
        rcases earns some_dependent (Bool.eq_false_iff.mpr isNew) isUnique with
          unique | ⟨existing, inFds, unique, guards, subset⟩
        · exact nextHolds.2 unique
        · have identifies := (hold existing inFds).2 unique
          rw [filter_guardHolds_eq guards] at identifies
          exact identifies.mono subset

/-- What `mergeFds` keeps holds if every merged dependency earns its kind. -/
theorem mergeFds_hold {keyHints : List (List Nat)} {merged : List (FunctionalDependency ν)}
    (hold : ∀ fd ∈ fds, fd.HoldsOn order rows) (mergedHold : ∀ fd ∈ merged, fd.HoldsOn order rows)
    (earns : MergeEarns order keyHints fds merged) :
    ∀ fd ∈ mergeFds order fds merged keyHints, fd.HoldsOn order rows := by
  induction merged generalizing fds with
  | nil => exact hold
  | cons next rest ih =>
    obtain ⟨nextHolds, restHold⟩ := forall_mem_cons.mp mergedHold
    exact ih (addFd_sound hold nextHolds earns.1 keyHints) restHold earns.2

end Quereus.Planner
