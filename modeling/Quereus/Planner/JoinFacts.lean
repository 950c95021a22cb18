import Quereus.Planner.ConstantMerging
import Quereus.Planner.FactProjection

/-! # Facts of a join

`propagateJoinFds` states facts of the output of a join from the facts of its sides.
An output row pairs a row of each side or pads one side with NULL; the columns of the
right side follow those of the left one. A semijoin or antijoin emits rows of the left
side, each once.
-/

namespace Quereus.Planner

open Agreement

variable {ν : Type}

inductive JoinType where
  | inner
  | cross
  | left
  | right
  | full
  | semi
  | anti
  deriving DecidableEq

/-- A column of the left side and one of the right side that the join compares. -/
structure EquiPair (leftColumnCount : Nat) where
  left : Fin leftColumnCount
  right : Nat

def shiftEquivClasses (classes : List (List Nat)) (offset : Nat) : List (List Nat) :=
  if offset = 0 then classes else classes.map (·.map (· + offset))

def shiftConstantBindings (bindings : List (ConstantBinding ν)) (offset : Nat) :
    List (ConstantBinding ν) :=
  if offset = 0 then bindings.map normalizeBinding
  else bindings.map fun binding =>
    { binding with attrs := (binding.attrs.map (· + offset)).insertionSort (· ≤ ·) }

def shiftDomainConstraints (domains : List (DomainConstraint ν)) (offset : Nat) :
    List (DomainConstraint ν) :=
  if offset = 0 then domains else domains.map fun constraint =>
    { constraint with column := constraint.column + offset }

/-- Keep the values a dependency determines and give up its uniqueness. -/
def downgradeFd (fd : FunctionalDependency ν) : FunctionalDependency ν :=
  { fd with kind := .determination }

def downgradeUniqueFds (fds : List (FunctionalDependency ν)) : List (FunctionalDependency ν) :=
  fds.map downgradeFd

/-- The dependency of all other columns on a key, if there are any. -/
def superkeyToFd (key : List Nat) (columnCount : Nat) : Option (FunctionalDependency ν) :=
  let dependents := (List.range columnCount).filter (· ∉ key)
  if dependents = [] then none else some ⟨key, dependents, none, .unique⟩

section Propagation

variable (order : ValueOrder ν) (leftPhys rightPhys : PhysicalProperties ν) {leftColumnCount : Nat}
  (equiPairs : List (EquiPair leftColumnCount)) (totalColumnCount : Nat)
    (preservedKeys : List (List Nat))

def withKeyFds (fds : List (FunctionalDependency ν)) : List (FunctionalDependency ν) :=
  preservedKeys.foldl (fun out key =>
    match superkeyToFd key totalColumnCount with
    | some keyFd => addFd order out keyFd preservedKeys
    | none => out) fds

variable (leftColumnCount) in
/-- The dependencies of the left side, downgraded if no preserved key lies in it. -/
def keptLeftFds : List (FunctionalDependency ν) :=
  if preservedKeys.any (·.all (· < leftColumnCount)) then leftPhys.fds
    else downgradeUniqueFds leftPhys.fds

variable (leftColumnCount) in
def keptRightFds : List (FunctionalDependency ν) :=
  if preservedKeys.any (·.all (leftColumnCount ≤ ·)) then rightPhys.fds
    else downgradeUniqueFds rightPhys.fds

/-- Both directions of each compared pair. -/
def addPairFds (fds : List (FunctionalDependency ν)) : List (FunctionalDependency ν) :=
  equiPairs.foldl (fun fds pair =>
    let shifted := pair.right + leftColumnCount
    let forth := addFd order fds ⟨[pair.left], [shifted], none, .determination⟩ preservedKeys
    addFd order forth ⟨[shifted], [pair.left], none, .determination⟩ preservedKeys) fds

def addPairClasses (classes : List (List Nat)) : List (List Nat) :=
  equiPairs.foldl (fun classes pair => addEquivalence classes pair.left
    (pair.right + leftColumnCount)) classes

def propagateInner : PhysicalProperties ν :=
  let fds := mergeFds order (keptLeftFds leftPhys leftColumnCount preservedKeys)
    (shiftFds (keptRightFds rightPhys leftColumnCount preservedKeys) leftColumnCount) preservedKeys
  let equiv := addPairClasses equiPairs
    (mergeEquivClasses leftPhys.equivClasses
      (shiftEquivClasses rightPhys.equivClasses leftColumnCount))
  let mergedBindings := mergeConstantBindings order leftPhys.constantBindings
    (shiftConstantBindings rightPhys.constantBindings leftColumnCount)
  { fds := withKeyFds order totalColumnCount preservedKeys
      (addPairFds order equiPairs preservedKeys fds)
    equivClasses := equiv
    constantBindings := closeConstantBindingsOverEcs order mergedBindings equiv
    domainConstraints := mergeDomainConstraints order leftPhys.domainConstraints
      (shiftDomainConstraints rightPhys.domainConstraints leftColumnCount) }

def propagateJoinFds (joinType : JoinType) : PhysicalProperties ν :=
  match joinType with
  | .inner | .cross =>
    propagateInner order leftPhys rightPhys equiPairs totalColumnCount preservedKeys
  | .left =>
    { leftPhys with
      fds := withKeyFds order totalColumnCount preservedKeys
        (keptLeftFds leftPhys leftColumnCount preservedKeys) }
  | .right =>
    { fds := withKeyFds order totalColumnCount preservedKeys
        (shiftFds (keptRightFds rightPhys leftColumnCount preservedKeys) leftColumnCount)
      equivClasses := shiftEquivClasses rightPhys.equivClasses leftColumnCount
      constantBindings := shiftConstantBindings rightPhys.constantBindings leftColumnCount
      domainConstraints := shiftDomainConstraints rightPhys.domainConstraints leftColumnCount }
  | .full => ⟨[], [], [], []⟩
  | .semi | .anti =>
    { leftPhys with fds := withKeyFds order totalColumnCount preservedKeys leftPhys.fds }

end Propagation

end Quereus.Planner
