import Mathlib.Data.List.Induction
import Mathlib.Data.List.Nodup

/-! # Resolving conflicts one rule after the other

A list of rules is applied to a set of items in order. Each rule conflicts with
some of the items. A rule that replaces displaces the items it conflicts with,
all of them or only the first; any other rule stops the whole at an item it
conflicts with, unless an earlier rule displaced that item. What was displaced
before a stop stays displaced, so the whole is atomic only under a condition on
the conflicts, which this module states and proves.
-/

namespace Displacement

open List

variable {ρ : Type} [DecidableEq ρ]

/-- What a rule conflicts with, and what it does about it. -/
structure Rule (ρ : Type) where
  conflicts : List ρ
  replaces : Bool
  everyConflict : Bool

/-- The conflicts no earlier rule displaced. -/
def Rule.left (rule : Rule ρ) (gone : List ρ) : List ρ :=
  rule.conflicts.filter (· ∉ gone)

/-- The items a replacing rule displaces. -/
def Rule.takes (rule : Rule ρ) (gone : List ρ) : List ρ :=
  if rule.everyConflict then rule.left gone else (rule.left gone).take 1

/-- What is gone after a rule that does not stop. -/
def Rule.after (rule : Rule ρ) (gone : List ρ) : List ρ :=
  if rule.replaces then gone ++ rule.takes gone else gone

/-- The items displaced by rules none of which stops. -/
def displaced (rules : List (Rule ρ)) : List ρ :=
  rules.foldl (fun gone rule => rule.after gone) []

/-- Apply the rules: whether one of them stopped, and what is gone by then. -/
def run : List (Rule ρ) → List ρ → Bool × List ρ
  | [], gone => (false, gone)
  | rule :: rest, gone =>
    if rule.replaces ∨ rule.left gone = [] then run rest (rule.after gone) else (true, gone)

/-- Every conflict of a rule that does not replace is displaced before it. -/
def Passes (rules : List (Rule ρ)) : Prop :=
  ∀ before rule after, rules = before ++ rule :: after → rule.replaces = false →
    ∀ item ∈ rule.conflicts, item ∈ displaced before

/-- The first rule with a conflict does not replace. -/
def StopsAtOnce (rules : List (Rule ρ)) : Prop :=
  ∃ before rule after, rules = before ++ rule :: after ∧ rule.replaces = false ∧
    rule.conflicts ≠ [] ∧ ∀ earlier ∈ before, earlier.conflicts = []

/-- The conflicts that a rule passes over because it takes only the first are displaced by
another rule. -/
def Settled (rules : List (Rule ρ)) : Prop :=
  ∀ before rule after, rules = before ++ rule :: after → rule.replaces = true →
    rule.everyConflict = false → ∀ item ∈ (rule.left (displaced before)).drop 1,
      item ∈ displaced rules

variable {rule : Rule ρ} {gone : List ρ} {rules : List (Rule ρ)} {item : ρ}

theorem Rule.left_eq_nil : rule.left gone = [] ↔ ∀ item ∈ rule.conflicts, item ∈ gone := by
  simp [Rule.left]

theorem displaced_append_singleton (before : List (Rule ρ)) (rule : Rule ρ) :
    displaced (before ++ [rule]) = rule.after (displaced before) := by
  simp [displaced]

theorem passes_append_singleton {last : Rule ρ} :
    Passes (rules ++ [last]) ↔
      Passes rules ∧ (last.replaces = false → ∀ item ∈ last.conflicts, item ∈ displaced rules) := by
  constructor
  · intro passes
    refine ⟨fun before rule after split => ?_, passes rules last [] rfl⟩
    exact passes before rule (after ++ [last]) (by simp [split])
  · rintro ⟨earlier, final⟩ before rule after split
    rcases eq_nil_or_concat after with rfl | ⟨inner, other, rfl⟩
    · obtain ⟨rfl, same⟩ := append_inj' split rfl
      cases same
      exact final
    · have longer : rules ++ [last] = (before ++ rule :: inner) ++ [other] := by simp [split]
      exact earlier before rule inner (append_inj' longer rfl).1

/-- A run passes the rules one by one, or stops at one of them. -/
theorem run_append (before rest : List (Rule ρ)) (passed : Passes before) :
    run (before ++ rest) [] = run rest (displaced before) := by
  induction before using reverseRecOn generalizing rest with
  | nil => rfl
  | append_singleton before rule ih =>
    obtain ⟨earlier, last⟩ := passes_append_singleton.mp passed
    have through : rule.replaces ∨ rule.left (displaced before) = [] := by
      cases replaces : rule.replaces with
      | true => exact .inl rfl
      | false => exact .inr (Rule.left_eq_nil.mpr (last replaces))
    rw [append_assoc, ih _ earlier, singleton_append, run, if_pos through,
      displaced_append_singleton]

theorem run_of_passes (passes : Passes rules) : run rules [] = (false, displaced rules) := by
  have whole := run_append rules [] passes
  rwa [append_nil] at whole

/-- Rules that do not all pass split at the first that stops. -/
theorem exists_stop (stops : ¬ Passes rules) :
    ∃ before rule after, rules = before ++ rule :: after ∧ Passes before ∧ rule.replaces = false ∧
      rule.left (displaced before) ≠ [] := by
  induction rules using reverseRecOn with
  | nil => exact absurd (fun before rule after split => by simp at split) stops
  | append_singleton rules last ih =>
    by_cases earlier : Passes rules
    · refine ⟨rules, last, [], rfl, earlier, ?_⟩
      rw [passes_append_singleton, not_and, Classical.not_imp, ← Rule.left_eq_nil] at stops
      exact stops earlier
    · obtain ⟨before, rule, after, split, rest⟩ := ih earlier
      exact ⟨before, rule, after ++ [last], by simp [split], rest⟩

theorem run_of_stop {before after : List (Rule ρ)} (passed : Passes before)
    (keeps : rule.replaces = false) (some_left : rule.left (displaced before) ≠ []) :
    run (before ++ rule :: after) [] = (true, displaced before) := by
  rw [run_append before _ passed, run]
  simp [keeps, some_left]

/-- Nothing is displaced exactly when the rules that passed had no conflict. -/
theorem displaced_eq_nil (passed : Passes rules) :
    displaced rules = [] ↔ ∀ rule ∈ rules, rule.conflicts = [] := by
  induction rules using reverseRecOn with
  | nil => simp [displaced]
  | append_singleton rules last ih =>
    obtain ⟨earlier, final⟩ := passes_append_singleton.mp passed
    have last_nil : displaced rules = [] →
        (last.after (displaced rules) = [] ↔ last.conflicts = []) := by
      intro none_gone
      cases replaces : last.replaces with
      | true => cases every : last.everyConflict <;>
          simp [Rule.after, Rule.takes, Rule.left, replaces, every, none_gone]
      | false =>
        have empty : last.conflicts = [] := eq_nil_iff_forall_not_mem.mpr fun item member => by
          simpa [none_gone] using final replaces item member
        simp [Rule.after, replaces, none_gone, empty]
    have grows : last.after (displaced rules) = [] → displaced rules = [] := by
      intro none_gone
      unfold Rule.after at none_gone
      split at none_gone
      · exact (append_eq_nil_iff.mp none_gone).1
      · exact none_gone
    rw [displaced_append_singleton, forall_mem_append, forall_mem_singleton]
    exact ⟨fun none_gone => ⟨(ih earlier).mp (grows none_gone),
        (last_nil (grows none_gone)).mp none_gone⟩,
      fun ⟨others, own⟩ => (last_nil ((ih earlier).mpr others)).mpr own⟩

theorem run_of_stopsAtOnce (stops : StopsAtOnce rules) : run rules [] = (true, []) := by
  obtain ⟨before, rule, after, rfl, keeps, nonempty, none_before⟩ := stops
  have passed : Passes before := by
    rintro front other back rfl - item member
    simp [none_before other (by simp)] at member
  have none_gone := (displaced_eq_nil passed).mpr none_before
  have some_left : rule.left (displaced before) ≠ [] := by
    simpa [none_gone, Rule.left] using nonempty
  rw [run_of_stop passed keeps some_left, none_gone]

/-- When the run stops, it has displaced nothing exactly when the first rule with a
conflict is the one that stopped it. -/
theorem run_stops_clean (stops : ¬ Passes rules) :
    (run rules []).1 = true ∧ ((run rules []).2 = [] ↔ StopsAtOnce rules) := by
  obtain ⟨before, rule, after, split, passed, keeps, some_left⟩ := exists_stop stops
  have stopped : run rules [] = (true, displaced before) := by
    rw [split, run_of_stop passed keeps some_left]
  refine ⟨by rw [stopped], fun clean => ?_, fun atOnce => by rw [run_of_stopsAtOnce atOnce]⟩
  rw [stopped] at clean
  refine ⟨before, rule, after, split, keeps, fun empty => some_left ?_,
    (displaced_eq_nil passed).mp clean⟩
  simp [Rule.left, empty]

/-- Rules that all pass do not stop at once. -/
theorem not_stopsAtOnce_of_passes (passes : Passes rules) : ¬ StopsAtOnce rules := by
  intro stops
  have stopped := run_of_stopsAtOnce stops
  rw [run_of_passes passes] at stopped
  cases stopped

theorem Rule.takes_sublist (rule : Rule ρ) (gone : List ρ) :
    (rule.takes gone).Sublist (rule.left gone) := by
  unfold Rule.takes
  split
  · exact Sublist.refl _
  · exact take_sublist 1 _

theorem Rule.mem_of_mem_takes (taken : item ∈ rule.takes gone) :
    item ∈ rule.conflicts ∧ item ∉ gone := by
  have inLeft := (rule.takes_sublist gone).subset taken
  simpa [Rule.left] using inLeft

/-- An item is gone only if a replacing rule conflicts with it. -/
theorem exists_of_mem_displaced (gone : item ∈ displaced rules) :
    ∃ rule ∈ rules, rule.replaces = true ∧ item ∈ rule.conflicts := by
  induction rules using reverseRecOn with
  | nil => simp [displaced] at gone
  | append_singleton rules last ih =>
    have earlier : item ∈ displaced rules →
        ∃ rule ∈ rules ++ [last], rule.replaces = true ∧ item ∈ rule.conflicts := by
      intro before
      obtain ⟨rule, member, rest⟩ := ih before
      exact ⟨rule, mem_append_left _ member, rest⟩
    rw [displaced_append_singleton, Rule.after] at gone
    split at gone
    · next replaces =>
      rcases mem_append.mp gone with before | taken
      · exact earlier before
      · exact ⟨last, by simp, replaces, (Rule.mem_of_mem_takes taken).1⟩
    · exact earlier gone

/-- What a run displaces are conflicts of its rules. -/
theorem exists_of_mem_run (gone : item ∈ (run rules []).2) :
    ∃ rule ∈ rules, item ∈ rule.conflicts := by
  by_cases passes : Passes rules
  · rw [run_of_passes passes] at gone
    obtain ⟨rule, member, -, conflict⟩ := exists_of_mem_displaced gone
    exact ⟨rule, member, conflict⟩
  · obtain ⟨before, rule, after, rfl, passed, keeps, some_left⟩ := exists_stop passes
    rw [run_of_stop passed keeps some_left] at gone
    obtain ⟨earlier, member, -, conflict⟩ := exists_of_mem_displaced gone
    exact ⟨earlier, mem_append_left _ member, conflict⟩

theorem Rule.subset_after (rule : Rule ρ) (gone : List ρ) : gone ⊆ rule.after gone := by
  unfold Rule.after
  split
  · exact subset_append_left _ _
  · exact Subset.refl _

/-- When the rules all pass, every conflict of a rule is gone, provided a replacing rule
has no more conflicts than it takes. -/
theorem mem_displaced_of_passes (passes : Passes rules) (member : rule ∈ rules)
    (takes_all : rule.everyConflict = true ∨ ∀ first ∈ rule.conflicts, ∀ second ∈ rule.conflicts,
      first = second) (conflict : item ∈ rule.conflicts) : item ∈ displaced rules := by
  induction rules using reverseRecOn with
  | nil => simp at member
  | append_singleton rules last ih =>
    obtain ⟨earlier, final⟩ := passes_append_singleton.mp passes
    rw [displaced_append_singleton]
    rcases mem_append.mp member with before | isLast
    · exact last.subset_after _ (ih earlier before)
    · obtain rfl := mem_singleton.mp isLast
      by_cases gone : item ∈ displaced rules
      · exact rule.subset_after _ gone
      · have inLeft : item ∈ rule.left (displaced rules) := by simp [Rule.left, conflict, gone]
        have replaces : rule.replaces = true := by
          by_contra keeps
          exact gone (final (Bool.not_eq_true _ ▸ keeps) item conflict)
        rw [Rule.after, if_pos replaces]
        refine mem_append_right _ ?_
        unfold Rule.takes
        split
        · exact inLeft
        · next first =>
          have alone := takes_all.resolve_left first
          cases left : rule.left (displaced rules) with
          | nil => simp [left] at inLeft
          | cons head tail =>
            have head_conflict : head ∈ rule.conflicts :=
              (mem_filter.mp (left ▸ mem_cons_self : head ∈ rule.left _)).1
            rw [alone item conflict head head_conflict]
            exact mem_cons_self

theorem displaced_subset_append (before rest : List (Rule ρ)) :
    displaced before ⊆ displaced (before ++ rest) := by
  induction rest using reverseRecOn with
  | nil => rw [append_nil]; exact Subset.refl _
  | append_singleton rest last ih =>
    rw [← append_assoc, displaced_append_singleton]
    exact List.Subset.trans ih (last.subset_after _)

/-- Settled rules displace every conflict of the replacing ones. -/
theorem mem_displaced_iff_of_settled (settled : Settled rules) :
    item ∈ displaced rules ↔ ∃ rule ∈ rules, rule.replaces = true ∧ item ∈ rule.conflicts := by
  refine ⟨exists_of_mem_displaced, ?_⟩
  rintro ⟨rule, member, replaces, conflict⟩
  obtain ⟨before, after, split⟩ := append_of_mem member
  have kept := displaced_subset_append (before ++ [rule]) after
  rw [append_assoc, singleton_append, ← split, displaced_append_singleton, Rule.after,
    if_pos replaces] at kept
  by_cases gone : item ∈ displaced before
  · exact kept (mem_append_left _ gone)
  have inLeft : item ∈ rule.left (displaced before) := by simp [Rule.left, conflict, gone]
  cases every : rule.everyConflict with
  | true =>
    rw [Rule.takes, if_pos every] at kept
    exact kept (mem_append_right _ inLeft)
  | false =>
    rw [Rule.takes, if_neg (Bool.eq_false_iff.mp every)] at kept
    rw [← take_append_drop 1 (rule.left _)] at inLeft
    rcases mem_append.mp inLeft with first | passedOver
    · exact kept (mem_append_right _ first)
    · exact settled before rule after split replaces every item passedOver

theorem nodup_displaced (distinct : ∀ rule ∈ rules, rule.conflicts.Nodup) :
    (displaced rules).Nodup := by
  induction rules using reverseRecOn with
  | nil => exact nodup_nil
  | append_singleton rules last ih =>
    have earlier := ih fun rule member => distinct rule (mem_append_left _ member)
    rw [displaced_append_singleton, Rule.after]
    split
    · refine earlier.append ?_ fun item before taken => (Rule.mem_of_mem_takes taken).2 before
      exact (last.takes_sublist _).nodup ((distinct last (by simp)).filter _)
    · exact earlier

end Displacement
