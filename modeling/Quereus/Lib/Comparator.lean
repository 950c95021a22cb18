import Mathlib.Order.Basic
import Mathlib.Data.List.Basic
import Mathlib.Data.List.Sort

/-! # Building comparators

A comparator decides a total preorder: its equality may be coarser than that of
the values. Comparators are built here by looking at a part of a value, by
reversing, and by comparing tuples column by column.
-/

namespace Comparator

open List

variable {α β : Type}

theorem swap_eq (cmp : α → α → Ordering) [Std.OrientedCmp cmp] (first second : α) :
    cmp first second = (cmp second first).swap :=
  Std.OrientedCmp.eq_swap

/-- Compare by a part of the value. -/
def via (part : α → β) (cmp : β → β → Ordering) (first second : α) : Ordering :=
  cmp (part first) (part second)

instance (part : α → β) (cmp : β → β → Ordering) [Std.TransCmp cmp] :
    Std.TransCmp (via part cmp) where
  eq_swap := swap_eq cmp _ _
  isLE_trans := @fun _ _ _ => @Std.TransCmp.isLE_trans _ cmp _ _ _ _

/-- Compare in the other direction on request. -/
def directed (descending : Bool) (cmp : α → α → Ordering) (first second : α) : Ordering :=
  if descending then (cmp first second).swap else cmp first second

theorem directed_eq_eq {descending : Bool} {cmp : α → α → Ordering} {first second : α} :
    directed descending cmp first second = .eq ↔ cmp first second = .eq := by
  unfold directed
  split
  · cases cmp first second <;> decide
  · rfl

instance (descending : Bool) (cmp : α → α → Ordering) [Std.TransCmp cmp] :
    Std.TransCmp (directed descending cmp) where
  eq_swap {first second} := by
    unfold directed
    rw [swap_eq cmp first second]
    split <;> rfl
  isLE_trans {first second third} := by
    unfold directed
    split
    · rw [← swap_eq cmp, ← swap_eq cmp, ← swap_eq cmp]
      exact fun below above => Std.TransCmp.isLE_trans above below
    · exact Std.TransCmp.isLE_trans

/-- Compare tuples by one comparator per column. A tuple that ends early comes
first, and what lies beyond the columns is not compared. -/
def tuple : List (α → α → Ordering) → List α → List α → Ordering
  | [], _, _ => .eq
  | _ :: _, [], [] => .eq
  | _ :: _, [], _ :: _ => .lt
  | _ :: _, _ :: _, [] => .gt
  | cmp :: columns, first :: firsts, second :: seconds =>
    (cmp first second).then (tuple columns firsts seconds)

variable {columns : List (α → α → Ordering)}

variable (lawful : ∀ cmp ∈ columns, Std.TransCmp cmp)

include lawful

theorem tuple_swap (firsts seconds : List α) :
    tuple columns firsts seconds = (tuple columns seconds firsts).swap := by
  induction columns generalizing firsts seconds with
  | nil => rfl
  | cons cmp columns ih =>
    have here := lawful cmp mem_cons_self
    cases firsts <;> cases seconds
    case cons.cons first firsts second seconds =>
      rw [tuple, tuple, Ordering.swap_then,
        ← ih (fun other member => lawful other (mem_cons_of_mem _ member)),
        ← swap_eq cmp]
    all_goals rfl

theorem tuple_isLE_trans (firsts seconds thirds : List α)
    (below : (tuple columns firsts seconds).isLE) (above : (tuple columns seconds thirds).isLE) :
    (tuple columns firsts thirds).isLE := by
  induction columns generalizing firsts seconds thirds with
  | nil => rfl
  | cons cmp columns ih =>
    have here := lawful cmp mem_cons_self
    have rest := ih fun other member => lawful other (mem_cons_of_mem _ member)
    cases firsts with
    | nil => cases thirds <;> rfl
    | cons first firsts =>
      cases seconds with
      | nil => cases below
      | cons second seconds =>
        cases thirds with
        | nil => cases above
        | cons third thirds =>
          rw [tuple, Ordering.isLE_then_iff_or] at below above ⊢
          rcases below with less | ⟨same, below⟩
          · rcases above with lessAbove | ⟨sameAbove, -⟩
            · exact Or.inl (Std.TransCmp.lt_trans less lessAbove)
            · exact Or.inl (Std.TransCmp.lt_of_lt_of_eq less sameAbove)
          · rcases above with lessAbove | ⟨sameAbove, above⟩
            · exact Or.inl (Std.TransCmp.lt_of_eq_of_lt same lessAbove)
            · exact Or.inr ⟨Std.TransCmp.eq_trans same sameAbove, rest _ _ _ below above⟩

/-- Tuples are ordered when every column is. -/
theorem transCmp_tuple : Std.TransCmp (tuple columns) where
  eq_swap := tuple_swap lawful _ _
  isLE_trans := tuple_isLE_trans lawful _ _ _

omit lawful

/-- Tuples read off two values column by column compare equal when every column
does. -/
theorem tuple_map_eq_eq {σ : Type} (columns : List σ) (cmp : σ → α → α → Ordering)
    (first second : σ → α) :
    tuple (columns.map cmp) (columns.map first) (columns.map second) = .eq ↔
      ∀ column ∈ columns, cmp column (first column) (second column) = .eq := by
  induction columns with
  | nil => simp [tuple]
  | cons column columns ih =>
    rw [map_cons, map_cons, map_cons, tuple, Ordering.then_eq_eq, ih, forall_mem_cons]

variable (cmp : α → α → Ordering)

/-- Sorting by a comparator sorts. -/
theorem pairwise_insertionSort [Std.TransCmp cmp] (items : List α) :
    (items.insertionSort fun first second => (cmp first second).isLE).Pairwise
      fun first second => (cmp first second).isLE := by
  have total : Std.Total fun first second => (cmp first second).isLE = true :=
    ⟨fun first second => by
      rw [swap_eq cmp second first]
      cases cmp first second <;> simp⟩
  have trans : IsTrans α fun first second => (cmp first second).isLE = true :=
    ⟨fun _ _ _ => Std.TransCmp.isLE_trans⟩
  exact List.pairwise_insertionSort _ items

/-- Duplicate-free lists with the same kept items agree on them once sorted. -/
theorem filter_insertionSort_eq [Std.TransCmp cmp] [Std.LawfulEqCmp cmp]
    (keep : α → Bool) {first second : List α} (distinct : first.Nodup) (distinct' : second.Nodup)
    (same : ∀ item, keep item → (item ∈ first ↔ item ∈ second)) :
    (first.insertionSort fun a b => cmp a b ≠ .gt).filter keep =
      (second.insertionSort fun a b => cmp a b ≠ .gt).filter keep := by
  have sorted (items : List α) :
      ((items.insertionSort fun a b => cmp a b ≠ .gt).filter keep).Pairwise
        fun a b => (cmp a b).isLE := by
    simp only [← Ordering.isLE_iff_ne_gt]
    exact (Comparator.pairwise_insertionSort cmp items).filter _
  have kept : first.filter keep ~ second.filter keep := by
    refine (perm_ext_iff_of_nodup (distinct.filter _) (distinct'.filter _)).mpr fun item => ?_
    rw [mem_filter, mem_filter]
    exact and_congr_left (same item)
  refine Perm.eq_of_pairwise (fun a b _ _ below above => ?_) (sorted first) (sorted second)
    ((((perm_insertionSort _ first).filter _).trans kept).trans
      ((perm_insertionSort _ second).filter _).symm)
  exact Std.LawfulEqCmp.eq_of_compare (Std.OrientedCmp.isLE_antisymm below above)

section Leading

variable {columns : List (α → α → Ordering)} {firsts seconds : List α}

/-- A tuple never comes before one that ends at once. -/
theorem tuple_nil_right_ne_lt (columns : List (α → α → Ordering)) (firsts : List α) :
    tuple columns firsts [] ≠ .lt := by
  cases columns <;> cases firsts <;> simp [tuple]

/-- The order of tuples is an order of their leading columns. -/
theorem isLE_tuple_take (below : (tuple columns firsts seconds).isLE) (count : Nat) :
    (tuple (columns.take count) firsts seconds).isLE := by
  induction count generalizing columns firsts seconds with
  | zero => rfl
  | succ count ih =>
    cases columns with
    | nil => rfl
    | cons cmp columns =>
      cases firsts with
      | nil => cases seconds <;> exact below
      | cons first firsts =>
        cases seconds with
        | nil => exact below
        | cons second seconds =>
          rw [take_succ_cons]
          rw [tuple, Ordering.isLE_then_iff_or] at below ⊢
          exact below.imp_right fun ⟨same, rest⟩ => ⟨same, ih rest⟩

/-- What lies beyond the compared columns does not matter. -/
theorem tuple_take_append (columns : List (α → α → Ordering)) (firsts leading rest : List α) :
    tuple (columns.take leading.length) firsts (leading ++ rest) =
      tuple (columns.take leading.length) firsts leading := by
  induction leading generalizing columns firsts with
  | nil => rfl
  | cons value leading ih =>
    cases columns with
    | nil => rfl
    | cons cmp columns =>
      cases firsts with
      | nil => rfl
      | cons first firsts =>
        rw [length_cons, take_succ_cons, cons_append, tuple, tuple, ih]

/-- Tuples that agree in their leading columns are compared by the others. -/
theorem tuple_drop {count : Nat} (same : tuple (columns.take count) firsts seconds = .eq)
    (firsts_long : count ≤ firsts.length) (seconds_long : count ≤ seconds.length) :
    tuple columns firsts seconds = tuple (columns.drop count) (firsts.drop count)
      (seconds.drop count) := by
  induction count generalizing columns firsts seconds with
  | zero => rfl
  | succ count ih =>
    cases columns with
    | nil => rfl
    | cons cmp columns =>
      cases firsts with
      | nil => exact absurd firsts_long (Nat.not_succ_le_zero count)
      | cons first firsts =>
        cases seconds with
        | nil => exact absurd seconds_long (Nat.not_succ_le_zero count)
        | cons second seconds =>
          rw [take_succ_cons, tuple, Ordering.then_eq_eq] at same
          rw [tuple, same.1, drop_succ_cons]
          exact ih same.2 (Nat.le_of_succ_le_succ firsts_long) (Nat.le_of_succ_le_succ seconds_long)

end Leading

end Comparator
