import Mathlib.Data.List.Basic

/-!
# Order-preserving, self-delimiting encodings

A key encoder writes several components one after the other and compares the results as plain
symbol strings. The comparison of two such strings is only meaningful if each component decides
its own verdict without looking at what follows it. `Decides` states exactly that, and the
lemmas of this module say which constructions keep it: concatenation, a symbol-wise reversal of
the order, fixed-width numerals, and a terminated sequence of codewords.
-/

namespace KeyOrder

open Std List

/-- Comparisons with the same strict verdicts agree. -/
theorem compare_congr {α β : Type*} [Ord α] [LT α] [LE α] [LawfulOrderOrd α] [LawfulOrderLT α]
    [Ord β] [LT β] [LE β] [LawfulOrderOrd β] [LawfulOrderLT β] {first second : α}
    {first' second' : β} (lt : first < second ↔ first' < second')
    (gt : second < first ↔ second' < first') :
    compare first second = compare first' second' := by
  rw [← compare_eq_lt, ← compare_eq_lt] at lt
  rw [← compare_eq_gt, ← compare_eq_gt] at gt
  cases verdict : compare first second <;> cases verdict' : compare first' second' <;> simp_all

variable {α β : Type*}

/-- What holds of every place of a list holds of the first and of the later ones. -/
theorem forall_getElem?_cons {holds : Nat → α → Prop} {head : α} {tail : List α} :
    (∀ place element, (head :: tail)[place]? = some element → holds place element) ↔
      holds 0 head ∧ ∀ place element, tail[place]? = some element → holds (place + 1) element := by
  constructor
  · exact fun all => ⟨all 0 head rfl, fun place element => all (place + 1) element⟩
  · rintro ⟨first, later⟩ (_ | place) element found
    · exact Option.some.inj found ▸ first
    · exact later place element found

variable [Ord α]

/-- Two strings decide the verdict `verdict`: whatever follows them, the comparison is settled
by `verdict`, and moves on to the continuations exactly when `verdict` is equality. -/
def Decides (verdict : Ordering) (left right : List α) : Prop :=
  ∀ leftRest rightRest : List α,
    compare (left ++ leftRest) (right ++ rightRest) =
      verdict.then (compare leftRest rightRest)

namespace Decides

variable {verdict next : Ordering} {left right left' right' : List α}

variable (decides : Decides verdict left right)

include decides

theorem compare_eq : compare left right = verdict := by
  have whole := decides [] []
  simpa using whole

theorem eq_iff [LawfulEqOrd α] : left = right ↔ verdict = .eq := by
  rw [← LawfulEqOrd.compare_eq_iff_eq, decides.compare_eq]

theorem swap [TransOrd α] : Decides verdict.swap right left := by
  intro rightRest leftRest
  rw [OrientedOrd.eq_swap (a := right ++ rightRest), decides leftRest rightRest,
    Ordering.swap_then, ← OrientedOrd.eq_swap]

omit decides

theorem append (first : Decides verdict left right) (second : Decides next left' right') :
    Decides (verdict.then next) (left ++ left') (right ++ right') := by
  intro leftRest rightRest
  rw [append_assoc, append_assoc, first, second, Ordering.then_assoc]

/-- A verdict other than equality absorbs whatever the two strings go on with. -/
theorem append_of_ne (decides : Decides verdict left right) (settled : verdict ≠ .eq) :
    Decides verdict (left ++ left') (right ++ right') := by
  intro leftRest rightRest
  rw [append_assoc, append_assoc, decides]
  cases verdict with
  | eq => exact absurd rfl settled
  | lt => rfl
  | gt => rfl

/-- What follows decides only between strings that are equal so far. -/
theorem append_of_eq (first : Decides verdict left right)
    (second : verdict = .eq → Decides next left' right') :
    Decides (verdict.then next) (left ++ left') (right ++ right') := by
  cases verdict with
  | eq => exact first.append (second rfl)
  | lt => exact first.append_of_ne nofun
  | gt => exact first.append_of_ne nofun

end Decides

theorem decides_eq_refl [LawfulEqOrd α] (string : List α) : Decides .eq string string := by
  intro leftRest rightRest
  induction string with
  | nil => simp
  | cons head tail ih => simpa using ih

theorem decides_nil : Decides .eq ([] : List α) [] := by
  intro leftRest rightRest
  simp

theorem decides_cons_of_ne {left right : List α} {first second : α}
    (settled : compare first second ≠ .eq) :
    Decides (compare first second) (first :: left) (second :: right) := by
  intro leftRest rightRest
  rw [List.cons_append, List.cons_append, List.compare_cons_cons]
  cases verdict : compare first second with
  | eq => exact absurd verdict settled
  | lt => rfl
  | gt => rfl

theorem decides_cons_of_lt {left right : List α} {first second : α}
    (below : compare first second = .lt) : Decides .lt (first :: left) (second :: right) := by
  rw [← below]
  exact decides_cons_of_ne (by rw [below]; decide)

theorem Decides.cons [LawfulEqOrd α] {verdict : Ordering} {left right : List α} (symbol : α)
    (decides : Decides verdict left right) :
    Decides verdict (symbol :: left) (symbol :: right) := by
  have whole := (decides_eq_refl [symbol]).append decides
  simpa using whole

/-- Strings of one length always decide their own comparison. -/
theorem decides_of_length_eq {left right : List α} (sameLength : left.length = right.length) :
    Decides (compare left right) left right := by
  intro leftRest rightRest
  induction left generalizing right with
  | nil =>
    obtain rfl : right = [] := eq_nil_of_length_eq_zero sameLength.symm
    simp
  | cons head tail ih =>
    cases right with
    | nil => simp at sameLength
    | cons head' tail' =>
      have tails := ih (by simpa using sameLength)
      rw [List.cons_append, List.cons_append, List.compare_cons_cons,
        List.compare_cons_cons, tails, Ordering.then_assoc]

/-- Strings that decide a verdict do not start one string unless they are equal. -/
theorem Decides.eq_of_append_eq [TransOrd α] [LawfulEqOrd α] {verdict : Ordering}
    {left right leftRest rightRest : List α} (decides : Decides verdict left right)
    (same : left ++ leftRest = right ++ rightRest) : left = right := by
  have self := decides leftRest rightRest
  rw [same, ReflOrd.compare_self] at self
  exact decides.eq_iff.mpr (Ordering.then_eq_eq.mp self.symm).1

/-- The empty string decides nothing but equality with itself. -/
theorem Decides.eq_nil [TransOrd α] [LawfulEqOrd α] {verdict : Ordering} {right : List α}
    (decides : Decides verdict [] right) : right = [] :=
  (decides.eq_of_append_eq (append_nil _).symm).symm

/-- **Reversing every symbol reverses the verdict.** A decided comparison is never settled by
one string being a prefix of the other, so a symbol-wise order reversal flips it. -/
theorem Decides.map_reverse [TransOrd α] [LawfulEqOrd α] {verdict : Ordering} {left right : List α}
    (reverse : α → α) (reverses : ∀ a b, compare (reverse a) (reverse b) = compare b a)
    (decides : Decides verdict left right) :
    Decides verdict.swap (left.map reverse) (right.map reverse) := by
  induction left generalizing right verdict with
  | nil =>
    obtain rfl := decides.eq_nil
    obtain rfl := decides.eq_iff.mp rfl
    exact decides_nil
  | cons head tail ih =>
    cases right with
    | nil => exact absurd decides.swap.eq_nil (by simp)
    | cons head' tail' =>
      by_cases same : compare head head' = .eq
      · obtain rfl := LawfulEqOrd.eq_of_compare same
        have tails : Decides verdict tail tail' := by
          intro leftRest rightRest
          have whole := decides leftRest rightRest
          simpa using whole
        simpa using (ih tails).cons (reverse head)
      · have verdictEq : verdict = compare head head' := by
          have heads : Decides (compare head head') (head :: tail) (head' :: tail') :=
            decides_cons_of_ne same
          rw [← decides.compare_eq, heads.compare_eq]
        have flipped : compare (reverse head) (reverse head') = verdict.swap := by
          rw [reverses, verdictEq, ← OrientedOrd.eq_swap]
        have settled : compare (reverse head) (reverse head') ≠ .eq := by
          rw [reverses]
          exact fun equal => same (OrientedCmp.eq_symm equal)
        rw [← flipped, map_cons]
        exact decides_cons_of_ne settled

section Codewords

variable [Ord β]

/-- Codewords that decide every strict verdict decide all verdicts. -/
theorem decides_of_lt [TransOrd α] [LawfulEqOrd α] [TransOrd β] [LawfulEqOrd β]
    {code : β → List α} {first second : β}
    (forward : compare first second = .lt → Decides .lt (code first) (code second))
    (backward : compare second first = .lt → Decides .lt (code second) (code first)) :
    Decides (compare first second) (code first) (code second) := by
  cases verdict : compare first second with
  | lt => exact forward verdict
  | eq =>
    rw [LawfulEqOrd.eq_of_compare verdict]
    exact decides_eq_refl _
  | gt => exact (backward (OrientedCmp.lt_of_gt verdict)).swap

omit [Ord β] in
/-- A sequence of codewords closed by a terminator that sorts before every codeword decides the
order of the sequences, a proper prefix first. -/
theorem decides_flatMap_terminated [TransOrd α] [LawfulEqOrd α] (order : β → β → Ordering)
    (code : β → List α) (terminator : α) {left right : List β}
    (decides : ∀ first ∈ left, ∀ second ∈ right,
      Decides (order first second) (code first) (code second))
    (terminates : ∀ symbol ∈ left ++ right, Decides .lt [terminator] (code symbol)) :
    Decides (left.compareLex order right) (left.flatMap code ++ [terminator])
      (right.flatMap code ++ [terminator]) := by
  induction left generalizing right with
  | nil =>
    cases right with
    | nil => exact decides_eq_refl [terminator]
    | cons head tail =>
      rw [flatMap_cons, append_assoc, flatMap_nil, nil_append]
      exact (terminates head (by simp)).append_of_ne (by decide)
  | cons head tail ih =>
    cases right with
    | nil =>
      rw [flatMap_cons, append_assoc, flatMap_nil, nil_append]
      exact (terminates head (by simp)).swap.append_of_ne (by decide)
    | cons head' tail' =>
      rw [flatMap_cons, flatMap_cons, append_assoc, append_assoc, List.compareLex_cons_cons]
      refine (decides head mem_cons_self head' mem_cons_self).append (ih ?_ ?_)
      · exact fun first member second member' =>
          decides first (mem_cons_of_mem _ member) second (mem_cons_of_mem _ member')
      · exact fun symbol member => terminates symbol (by grind)

/-- Without a terminator, nonempty codewords still preserve the order of the sequences. -/
theorem compare_flatMap (code : β → List α) (left right : List β)
    (decides : ∀ first ∈ left, ∀ second ∈ right,
      Decides (compare first second) (code first) (code second))
    (leftNonempty : ∀ symbol ∈ left, code symbol ≠ [])
    (rightNonempty : ∀ symbol ∈ right, code symbol ≠ []) :
    compare (left.flatMap code) (right.flatMap code) = compare left right := by
  induction left generalizing right with
  | nil =>
    cases right with
    | nil => rfl
    | cons head tail =>
      obtain ⟨symbol, word, spelled⟩ :=
        exists_cons_of_ne_nil (rightNonempty head mem_cons_self)
      simp [spelled]
  | cons head tail ih =>
    cases right with
    | nil =>
      obtain ⟨symbol, word, spelled⟩ :=
        exists_cons_of_ne_nil (leftNonempty head mem_cons_self)
      simp [spelled]
    | cons head' tail' =>
      have tails := ih tail'
        (fun first member second member' =>
          decides first (mem_cons_of_mem _ member) second
            (mem_cons_of_mem _ member'))
        (fun symbol member => leftNonempty symbol (mem_cons_of_mem _ member))
        (fun symbol member => rightNonempty symbol (mem_cons_of_mem _ member))
      rw [flatMap_cons, flatMap_cons,
        decides head mem_cons_self head' mem_cons_self, tails,
        List.compare_cons_cons]

end Codewords

end KeyOrder
