import Mathlib.Data.List.Basic
import Mathlib.Data.List.Pairwise
import Mathlib.Data.List.Perm.Subperm
import Mathlib.Order.Basic

/-! # Rows that agree on columns

Rows are read column by column, and a relation says which values are the same. Some
columns determine others if rows that agree on the ones agree on the others; they
identify rows if no two rows of the bag agree on them.
-/

namespace Agreement

open List

variable {κ ν : Type*}

/-- Two rows have the same values in some columns. -/
def Agree (same : ν → ν → Prop) (columns : κ → Prop) (first second : κ → ν) : Prop :=
  ∀ column, columns column → same (first column) (second column)

def Determines (same : ν → ν → Prop) (rows : List (κ → ν)) (determinants dependents : κ → Prop) :
    Prop :=
  ∀ first ∈ rows, ∀ second ∈ rows, Agree same determinants first second →
    Agree same dependents first second

/-- No two rows of a bag agree. -/
def Identifies (same : ν → ν → Prop) (rows : List (κ → ν)) (columns : κ → Prop) : Prop :=
  rows.Pairwise fun first second => ¬ Agree same columns first second

variable {same : ν → ν → Prop} {rows : List (κ → ν)} {columns others : κ → Prop}

variable {first second : κ → ν} {some : List (κ → ν)}

theorem Agree.mono (agree : Agree same columns first second)
    (subset : ∀ column, others column → columns column) : Agree same others first second :=
  fun column member => agree column (subset column member)

/-- Columns that determine an identifying set of columns identify. -/
theorem Identifies.of_determines (identifies : Identifies same rows others)
    (determines : Determines same rows columns others) : Identifies same rows columns :=
  List.Pairwise.imp_of_mem
    (fun inFirst inSecond apart agree => apart (determines _ inFirst _ inSecond agree)) identifies

theorem Identifies.mono (identifies : Identifies same rows others)
    (subset : ∀ column, others column → columns column) : Identifies same rows columns :=
  identifies.of_determines fun _ _ _ _ agree => agree.mono subset

theorem Determines.subset (determines : Determines same rows columns others)
    (subset : ∀ row ∈ some, row ∈ rows) : Determines same some columns others :=
  fun one inOne other inOther agree => determines one (subset one inOne) other
    (subset other inOther) agree

/-- Rows that agree on identifying columns are one row. -/
theorem Identifies.eq_of_agree (symmetric : ∀ a b, same a b → same b a)
    (identifies : Identifies same rows columns) (inFirst : first ∈ rows) (inSecond : second ∈ rows)
    (agree : Agree same columns first second) : first = second := by
  by_contra different
  have apart : Std.Symm fun one other : κ → ν => ¬ Agree same columns one other :=
    ⟨fun _ _ apart agree => apart fun column member => symmetric _ _ (agree column member)⟩
  exact identifies.forall inFirst inSecond different agree

/-- Rows taken from a bag, each once at most, are identified by the same columns. -/
theorem Identifies.subperm (symmetric : ∀ a b, same a b → same b a)
    (identifies : Identifies same rows columns) (taken : some.Subperm rows) :
    Identifies same some columns := by
  obtain ⟨arranged, permuted, sublist⟩ := taken
  refine (identifies.sublist sublist).perm permuted fun apart agree => ?_
  exact apart fun column member => symmetric _ _ (agree column member)

/-- Elements that are pairwise apart and pairwise alike are one element at most. -/
theorem length_le_one_of_pairwise {α : Type*} {alike : α → α → Prop} {elements : List α}
    (apart : elements.Pairwise fun first second => ¬ alike first second)
    (together : ∀ first ∈ elements, ∀ second ∈ elements, alike first second) :
      elements.length ≤ 1 := by
  rcases elements with _ | ⟨first, _ | ⟨second, rest⟩⟩
  · exact Nat.zero_le 1
  · exact Nat.le_refl 1
  · exact absurd (together first mem_cons_self second (mem_cons_of_mem _ mem_cons_self))
      (rel_of_pairwise_cons apart mem_cons_self)

variable {κ' : Type*}

/-- Every row shows some row of another bag: the columns of a set, renamed. -/
def Carried (rows : List (κ → ν)) (outs : List (κ' → ν)) (rename : κ → κ')
    (within : κ → Prop) : Prop :=
  ∀ out ∈ outs, ∃ base ∈ rows, ∀ column, within column → out (rename column) = base column

/-- The columns that show those of a set. -/
def renamed (rename : κ → κ') (columns : κ → Prop) (column' : κ') : Prop :=
  ∃ column, columns column ∧ rename column = column'

variable {outs : List (κ' → ν)} {rename : κ → κ'} {within : κ → Prop}

/-- Shown rows agree where the rows they show agree. -/
theorem agree_renamed_iff {base base' : κ → ν} {out out' : κ' → ν}
    (shows : ∀ column, within column → out (rename column) = base column)
    (shows' : ∀ column, within column → out' (rename column) = base' column)
    (inside : ∀ column, columns column → within column) :
    Agree same (renamed rename columns) out out' ↔ Agree same columns base base' := by
  constructor
  · intro agree column member
    have shown := agree (rename column) ⟨column, member, rfl⟩
    rwa [shows column (inside column member), shows' column (inside column member)] at shown
  · rintro agree _ ⟨column, member, rfl⟩
    rw [shows column (inside column member), shows' column (inside column member)]
    exact agree column member

theorem Carried.determines (carried : Carried rows outs rename within)
    (determines : Determines same rows columns others)
    (inside : ∀ column, columns column → within column)
    (othersInside : ∀ column, others column → within column) :
    Determines same outs (renamed rename columns) (renamed rename others) := by
  intro first inFirst second inSecond agree
  obtain ⟨base, inRows, shows⟩ := carried first inFirst
  obtain ⟨base', inRows', shows'⟩ := carried second inSecond
  have baseAgree := (agree_renamed_iff shows shows' inside).mp agree
  exact (agree_renamed_iff shows shows' othersInside).mpr
    (determines base inRows base' inRows' baseAgree)

/-- If columns that show identify the rows that show, no row is shown twice, and what
identifies the rows shown identifies the rows that show them. -/
theorem Carried.identifies (symmetric : ∀ a b, same a b → same b a) (reflexive : ∀ a, same a a)
    (carried : Carried rows outs rename within) (identifies : Identifies same rows columns)
    (inside : ∀ column, columns column → within column) {key : κ' → Prop}
    (unique : Identifies same outs key)
    (shown : ∀ column', key column' → ∃ column, within column ∧ rename column = column') :
    Identifies same outs (renamed rename columns) := by
  refine List.Pairwise.imp_of_mem (fun {first second} inFirst inSecond apart agree =>
    apart ?_) unique
  obtain ⟨base, inRows, shows⟩ := carried first inFirst
  obtain ⟨base', inRows', shows'⟩ := carried second inSecond
  have one : base = base' :=
    identifies.eq_of_agree symmetric inRows inRows'
      ((agree_renamed_iff shows shows' inside).mp agree)
  intro column' member
  obtain ⟨column, isWithin, rfl⟩ := shown column' member
  rw [shows column isWithin, shows' column isWithin, one]
  exact reflexive _

/-- A bag without rows that agree on nothing at all has one row at most. -/
theorem Identifies.length_le_one (identifies : Identifies same rows fun _ => False) :
    rows.length ≤ 1 := by
  match rows, identifies with
  | [], _ => exact Nat.zero_le 1
  | [_], _ => exact Nat.le_refl 1
  | first :: second :: _, identifies =>
    exact absurd (fun _ member => member.elim) (rel_of_pairwise_cons identifies mem_cons_self)

end Agreement
