import Mathlib.Data.List.Basic
import Mathlib.Data.List.Nodup
import Mathlib.Data.List.TakeWhile
import Quereus.Lib.Fallible

/-! # Walks of an ordered list

A walk is positioned by a key, keeps the items that apply and stops at an item
that shows there are no more. It finds what a filter of the whole list finds if
no item before the start applies and none after the stop.

A walk made of several parts may meet an item more than once; `distinctBy` keeps
the first item of each code.
-/

namespace OrderedWalk

open Fallible List

variable {ε χ : Type*}

/-- The items from the first one that does not come before the start; the last item
if they all do. -/
def startingAt (before : ε → Bool) (items : List ε) : List ε :=
  match items.dropWhile before with
  | [] => items.getLast?.toList
  | first :: rest => first :: rest

def walk (applies exhausted : ε → Bool) : List ε → List ε
  | [] => []
  | item :: rest =>
    if applies item then item :: walk applies exhausted rest
    else if exhausted item then []
    else walk applies exhausted rest

variable {before applies exhausted : ε → Bool} {items : List ε}

theorem startingAt_of_none_before (stays : ∀ item ∈ items, before item = false) :
    startingAt before items = items := by
  cases items with
  | nil => rfl
  | cons first rest =>
    rw [startingAt, dropWhile_cons_of_neg]
    rw [stays first mem_cons_self]
    exact Bool.false_ne_true

theorem walk_eq_filter
    (final : items.Pairwise fun first second =>
      applies first = false → exhausted first = true → applies second = false) :
    walk applies exhausted items = items.filter applies := by
  induction items with
  | nil => rfl
  | cons item rest ih =>
    obtain ⟨stops, others⟩ := pairwise_cons.mp final
    rw [walk, filter_cons, ih others]
    cases applied : applies item with
    | true => rfl
    | false =>
      simp only [Bool.false_eq_true, ↓reduceIte]
      split
      · next stopped =>
        refine (filter_eq_nil_iff.mpr fun other member => ?_).symm
        rw [stops other member applied stopped]
        exact Bool.false_ne_true
      · rfl

variable (monotone : items.Pairwise fun first second => before first = false →
    before second = false)

include monotone

theorem before_of_mem_dropWhile {item : ε} (member : item ∈ items.dropWhile before) :
    before item = false := by
  induction items with
  | nil => cases member
  | cons first rest ih =>
    obtain ⟨later, others⟩ := pairwise_cons.mp monotone
    rw [dropWhile_cons] at member
    split at member
    · exact ih others member
    · next here =>
      have first_stays : before first = false := Bool.eq_false_iff.mpr here
      obtain rfl | inside := mem_cons.mp member
      · exact first_stays
      · exact later item inside first_stays

/-- A positioned walk finds what a filter of all items finds. -/
theorem walk_startingAt_eq_filter
    (skipped : ∀ item ∈ items, before item = true → applies item = false)
    (final : items.Pairwise fun first second =>
      before first = false → applies first = false → exhausted first = true →
        applies second = false) :
    walk applies exhausted (startingAt before items) = items.filter applies := by
  have split := takeWhile_append_dropWhile (p := before) (l := items)
  have left : (items.takeWhile before).filter applies = [] := by
    refine filter_eq_nil_iff.mpr fun item member => ?_
    rw [skipped item (( takeWhile_prefix before).subset member) (mem_takeWhile_imp member)]
    exact Bool.false_ne_true
  have right : walk applies exhausted (items.dropWhile before) =
      (items.dropWhile before).filter applies := by
    refine walk_eq_filter (Pairwise.imp_of_mem (fun member _ stops => ?_)
      (final.sublist (dropWhile_sublist before)))
    exact stops (before_of_mem_dropWhile monotone member)
  have whole : items.filter applies = (items.dropWhile before).filter applies := by
    conv_lhs => rw [← split, filter_append, left, nil_append]
  rw [whole, ← right, startingAt]
  cases rest : items.dropWhile before with
  | cons first others => rfl
  | nil =>
    -- The walk is put back on the last item, which comes before the start.
    have all := dropWhile_eq_nil_iff.mp rest
    cases last : items.getLast? with
    | none => rfl
    | some item =>
      have member := mem_of_getLast? last
      simp [walk, skipped item member (all item member)]

omit monotone

section Distinct

variable [DecidableEq χ] (code : ε → χ)

def distinctBy : List χ → List ε → List ε
  | _, [] => []
  | seen, item :: rest =>
    if code item ∈ seen then distinctBy seen rest
    else item :: distinctBy (code item :: seen) rest

variable {code}

theorem distinctBy_sublist (seen : List χ) (items : List ε) :
    (distinctBy code seen items).Sublist items := by
  induction items generalizing seen with
  | nil => exact Sublist.slnil
  | cons item rest ih =>
    rw [distinctBy]
    split
    · exact (ih seen).cons _
    · exact (ih _).cons_cons _

variable {seen : List χ} {item : ε}

theorem notMem_of_mem_distinctBy (member : item ∈ distinctBy code seen items) :
    code item ∉ seen := by
  induction items generalizing seen with
  | nil => cases member
  | cons first rest ih =>
    rw [distinctBy] at member
    split at member
    · exact ih member
    · next fresh =>
      obtain rfl | inside := mem_cons.mp member
      · exact fresh
      · exact fun old => ih inside (mem_cons_of_mem _ old)

theorem nodup_map_distinctBy (seen : List χ) (items : List ε) :
    ((distinctBy code seen items).map code).Nodup := by
  induction items generalizing seen with
  | nil => exact nodup_nil
  | cons item rest ih =>
    rw [distinctBy]
    split
    · exact ih seen
    · refine nodup_cons.mpr ⟨fun repeated => ?_, ih _⟩
      obtain ⟨other, member, same⟩ := mem_map.mp repeated
      exact notMem_of_mem_distinctBy member (same ▸ mem_cons_self)

/-- An item is kept if its code is new and no other item has it. -/
theorem mem_distinctBy_of_unique (member : item ∈ items) (fresh : code item ∉ seen)
    (unique : ∀ other ∈ items, code other = code item → other = item) :
    item ∈ distinctBy code seen items := by
  induction items generalizing seen with
  | nil => cases member
  | cons first rest ih =>
    obtain ⟨first_unique, others⟩ := forall_mem_cons.mp unique
    rw [distinctBy]
    obtain rfl | inside := mem_cons.mp member
    · rw [if_neg fresh]
      exact mem_cons_self
    · split
      · exact ih inside fresh others
      · by_cases same : code first = code item
        · exact first_unique same ▸ mem_cons_self
        · refine mem_cons_of_mem _ (ih inside (fun old => ?_) others)
          obtain repeated | old := mem_cons.mp old
          · exact same repeated.symm
          · exact fresh old

/-- Everything is kept exactly when different items have different codes. -/
theorem forall_mem_distinctBy_iff :
    (∀ item ∈ items, item ∈ distinctBy code [] items) ↔
      ∀ first ∈ items, ∀ second ∈ items, code first = code second → first = second := by
  refine ⟨fun kept first first_mem second second_mem same => ?_, fun injective item member => ?_⟩
  · exact inj_on_of_nodup_map (nodup_map_distinctBy [] items) (kept first first_mem)
      (kept second second_mem) same
  · exact mem_distinctBy_of_unique member not_mem_nil fun other other_mem same =>
      injective other other_mem item member same

theorem distinctBy_append (seen : List χ) (first second : List ε) :
    ∃ seen', distinctBy code seen (first ++ second) =
      distinctBy code seen first ++ distinctBy code seen' second := by
  induction first generalizing seen with
  | nil => exact ⟨seen, rfl⟩
  | cons item rest ih =>
    rw [cons_append, distinctBy, distinctBy]
    split
    · exact ih seen
    · obtain ⟨seen', parts⟩ := ih (code item :: seen)
      exact ⟨seen', by rw [parts, cons_append]⟩

variable (code) in
/-- The kept items of several parts are parts of the parts. -/
theorem distinctBy_flatten (seen : List χ) (parts : List (List ε)) :
    ∃ segments : List (List ε), distinctBy code seen parts.flatten = segments.flatten ∧
      List.Forall₂ Sublist segments parts := by
  induction parts generalizing seen with
  | nil => exact ⟨[], rfl, .nil⟩
  | cons part rest ih =>
    obtain ⟨seen', split⟩ := distinctBy_append seen part rest.flatten
    obtain ⟨segments, flat, sublists⟩ := ih seen'
    refine ⟨distinctBy code seen part :: segments, ?_,
      .cons (distinctBy_sublist seen part) sublists⟩
    rw [flatten_cons, flatten_cons, split, flat]

end Distinct

section Parts

variable {α β δ : Type*} {R : α → β → Prop}

variable {found : α → Except δ β} {parts : List α}

/-- Parts that can all be walked are walked in their order. -/
theorem mapM_eq_ok (each : ∀ part ∈ parts, ∃ run, found part = .ok run ∧ R part run) :
    ∃ runs, parts.mapM found = .ok runs ∧ List.Forall₂ R parts runs := by
  induction parts with
  | nil => exact ⟨[], rfl, .nil⟩
  | cons part rest ih =>
    obtain ⟨⟨run, ok, related⟩, others⟩ := forall_mem_cons.mp each
    obtain ⟨runs, rest_ok, rest_related⟩ := ih others
    refine ⟨run :: runs, ?_, .cons related rest_related⟩
    rw [mapM_cons, ok, rest_ok]
    rfl

theorem mapM_eq_ok_map {run : α → β} (each : ∀ part ∈ parts, found part = .ok (run part)) :
    parts.mapM found = .ok (parts.map run) := by
  obtain ⟨runs, ok, related⟩ := mapM_eq_ok (R := fun part found => found = run part)
    fun part member => ⟨run part, each part member, rfl⟩
  have same : List.Forall₂ (· = ·) (parts.map run) runs :=
    forall₂_map_left_iff.mpr (related.imp fun _ _ equal => equal.symm)
  rw [forall₂_eq_eq_eq] at same
  rw [ok, same]

/-- Relations between the runs are relations between the parts. -/
theorem pairwise_iff_of_forall₂ {S : α → α → Prop} {T : β → β → Prop}
    (agree : ∀ first second firstRun secondRun, R first firstRun → R second secondRun →
      (S first second ↔ T firstRun secondRun)) {runs : List β}
        (related : List.Forall₂ R parts runs) :
    parts.Pairwise S ↔ runs.Pairwise T := by
  induction related with
  | nil => simp
  | @cons part run parts runs first rest ih =>
    rw [pairwise_cons, pairwise_cons, ih]
    refine and_congr_left fun _ => ⟨fun all other other_mem => ?_, fun all other other_mem => ?_⟩
    · obtain ⟨part', member, holds⟩ := exists_of_mem_left rest.flip other_mem
      exact (agree _ _ _ _ first holds).mp (all part' member)
    · obtain ⟨run', member, holds⟩ := exists_of_mem_left rest other_mem
      exact (agree _ _ _ _ first holds).mpr (all run' member)

end Parts

end OrderedWalk
