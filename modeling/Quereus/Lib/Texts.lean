import Quereus.Lib.Unicode

/-! # Texts put together from parts

Parts joined by a separator can be told apart again if no part contains it. A part
that does contain it may run over into the parts behind it: two lists of parts of
one length have the same joined text exactly if they are the same or one of them
runs over in this way. Numbers are written in decimal.
-/

namespace Texts

open List

section Joined

variable {α : Type} (separator : α)

/-- The parts with a separator before each. -/
def following (parts : List (List α)) : List α :=
  parts.flatMap (separator :: ·)

/-- The parts with a separator between any two. -/
def joined : List (List α) → List α
  | [] => []
  | part :: parts => part ++ following separator parts

/-- At the first place where they differ, the second list has the part of the first
list, a separator and more. What is more, with the parts behind it, reads like the
parts behind in the first list. -/
def RunsOver (first second : List (List α)) : Prop :=
  ∃ before part more firstRest secondRest,
    first = before ++ part :: firstRest ∧
    second = before ++ (part ++ separator :: more) :: secondRest ∧
    following separator firstRest = following separator (more :: secondRest)

variable {separator}

@[simp] theorem following_cons (part : List α) (parts : List (List α)) :
    following separator (part :: parts) = separator :: (part ++ following separator parts) := rfl

theorem following_append (first second : List (List α)) :
    following separator (first ++ second) = following separator first ++
      following separator second :=
  flatMap_append

variable {first second : List (List α)}

/-- Two texts in front of joined parts that read alike are one, or one continues the
other with a separator. -/
theorem append_following_cases {part other : List α}
    (same : part ++ following separator first = other ++ following separator second) :
    (part = other ∧ following separator first = following separator second) ∨
      (∃ more, other = part ++ separator :: more ∧
        following separator first = following separator (more :: second)) ∨
      ∃ more, part = other ++ separator :: more ∧
        following separator second = following separator (more :: first) := by
  have continued {parts : List (List α)} {unit : α} {units : List α}
      (starts : following separator parts = unit :: units) : unit = separator := by
    cases parts with
    | nil => cases starts
    | cons part parts => exact (cons.inj starts).1.symm
  rcases append_eq_append_iff.mp same with ⟨more, rfl, rest⟩ | ⟨more, rfl, rest⟩
  · cases more with
    | nil => exact .inl ⟨(append_nil _).symm, rest⟩
    | cons unit more =>
      obtain rfl := continued rest
      exact .inr (.inl ⟨more, rfl, rest⟩)
  · cases more with
    | nil => exact .inl ⟨append_nil _, rest.symm⟩
    | cons unit more =>
      obtain rfl := continued rest
      exact .inr (.inr ⟨more, rfl, rest⟩)

theorem joined_eq_of_following (lengths : first.length = second.length)
    (same : following separator first = following separator second) :
    joined separator first = joined separator second := by
  cases first with
  | nil => rw [length_eq_zero_iff.mp lengths.symm]
  | cons part first =>
    obtain ⟨other, second, rfl⟩ := exists_cons_of_length_eq_add_one lengths.symm
    exact (cons.inj same).2

variable {parts : List (List α)} {unit : α}

theorem mem_following (member : unit ∈ following separator parts) :
    unit = separator ∨ ∃ part ∈ parts, unit ∈ part := by
  obtain ⟨part, inParts, inPart⟩ := mem_flatMap.mp member
  exact (mem_cons.mp inPart).imp_right fun inside => ⟨part, inParts, inside⟩

theorem mem_joined (member : unit ∈ joined separator parts) :
    unit = separator ∨ ∃ part ∈ parts, unit ∈ part := by
  cases parts with
  | nil => cases member
  | cons part parts => exact mem_following (mem_cons_of_mem _ member)

theorem runsOver_cons (part : List α) (runs : RunsOver separator first second) :
    RunsOver separator (part :: first) (part :: second) := by
  obtain ⟨before, here, more, firstRest, secondRest, rfl, rfl, same⟩ := runs
  exact ⟨part :: before, here, more, firstRest, secondRest, rfl, rfl, same⟩

theorem RunsOver.ne (runs : RunsOver separator first second) : first ≠ second := by
  obtain ⟨before, part, more, firstRest, secondRest, rfl, rfl, -⟩ := runs
  simp

theorem joined_eq_of_runsOver (runs : RunsOver separator first second) :
    joined separator first = joined separator second := by
  obtain ⟨before, part, more, firstRest, secondRest, rfl, rfl, same⟩ := runs
  cases before with
  | nil => rw [nil_append, nil_append, joined, joined, same, following_cons, append_assoc,
      cons_append]
  | cons head before =>
    rw [cons_append, cons_append, joined, joined, following_append, following_append,
      following_cons, following_cons, same, following_cons, append_assoc, cons_append]

/-- Joined parts read alike exactly if they are alike or run over. -/
theorem joined_eq_iff (lengths : first.length = second.length) :
    joined separator first = joined separator second ↔
      first = second ∨ RunsOver separator first second ∨ RunsOver separator second first := by
  constructor
  · induction first generalizing second with
    | nil =>
      intro _
      rw [length_eq_zero_iff.mp lengths.symm]
      exact .inl rfl
    | cons part first ih =>
      obtain ⟨other, second, rfl⟩ := exists_cons_of_length_eq_add_one lengths.symm
      intro same
      have rest := Nat.succ.inj lengths
      rcases append_following_cases same with
        ⟨rfl, behind⟩ | ⟨more, rfl, behind⟩ | ⟨more, rfl, behind⟩
      · rcases ih rest (joined_eq_of_following rest behind) with rfl | runs | runs
        · exact .inl rfl
        · exact .inr (.inl (runsOver_cons part runs))
        · exact .inr (.inr (runsOver_cons part runs))
      · exact .inr (.inl ⟨[], part, more, first, second, rfl, rfl, behind⟩)
      · exact .inr (.inr ⟨[], other, more, second, first, rfl, rfl, behind⟩)
  · rintro (rfl | runs | runs)
    · rfl
    · exact joined_eq_of_runsOver runs
    · exact (joined_eq_of_runsOver runs).symm

/-- Parts without the separator are read off their joined text. -/
theorem following_injective (firstFree : ∀ part ∈ first, separator ∉ part)
    (secondFree : ∀ part ∈ second, separator ∉ part)
    (same : following separator first = following separator second) : first = second := by
  induction first generalizing second with
  | nil =>
    cases second with
    | nil => rfl
    | cons other second => cases same
  | cons part first ih =>
    cases second with
    | nil => cases same
    | cons other second =>
      rw [forall_mem_cons] at firstFree secondFree
      rcases append_following_cases (cons.inj same).2 with
        ⟨rfl, behind⟩ | ⟨more, rfl, -⟩ | ⟨more, rfl, -⟩
      · rw [ih firstFree.2 secondFree.2 behind]
      · exact absurd (by simp) secondFree.1
      · exact absurd (by simp) firstFree.1

end Joined

/-- A text of ASCII characters. -/
def ascii (characters : List Char) : Utf16 :=
  characters.map fun character => UInt16.ofNat character.toNat

def decimal (value : Nat) : Utf16 :=
  ascii (Nat.toDigits 10 value)

def signedDecimal (value : Int) : Utf16 :=
  if value < 0 then 0x2D :: decimal value.natAbs else decimal value.natAbs

variable {character : Char} {value : Nat} {unit : UInt16}

theorem digit_bounds (digit : character ∈ Nat.toDigits 10 value) :
    48 ≤ character.toNat ∧ character.toNat ≤ 57 := by
  have isDigit := Nat.isDigit_of_mem_toDigits (by decide) (by decide) digit
  simpa [Char.isDigit, UInt32.le_iff_toNat_le] using isDigit

theorem toNat_ofNat_digit (digit : character ∈ Nat.toDigits 10 value) :
    (UInt16.ofNat character.toNat).toNat = character.toNat := by
  have bounds := digit_bounds digit
  exact UInt16.toNat_ofNat_of_lt' (Nat.lt_of_le_of_lt bounds.2 (by decide))

theorem not_mem_decimal (below : unit.toNat < 48) : unit ∉ decimal value := by
  intro member
  obtain ⟨character, digit, rfl⟩ := mem_map.mp member
  rw [toNat_ofNat_digit digit] at below
  exact absurd (digit_bounds digit).1 (Nat.not_le.mpr below)

theorem decimal_ne_nil (value : Nat) : decimal value ≠ [] :=
  fun empty => Nat.toDigits_ne_nil (map_eq_nil_iff.mp empty)

theorem decimal_injective : Function.Injective decimal := by
  intro first second same
  have back : ∀ value, (decimal value).map (fun unit => Char.ofNat unit.toNat) =
      Nat.toDigits 10 value := by
    intro value
    rw [decimal, ascii, map_map]
    refine (map_congr_left fun character digit => ?_).trans (map_id _)
    rw [Function.comp_apply, toNat_ofNat_digit digit, Char.ofNat_toNat, id]
  rw [← Nat.ofDigitChars_ten_toDigits (n := first), ← back, same, back,
    Nat.ofDigitChars_ten_toDigits]

theorem signedDecimal_injective : Function.Injective signedDecimal := by
  have noSign : ∀ value rest, decimal value ≠ 0x2D :: rest := by
    intro value rest same
    exact not_mem_decimal (by decide) (same ▸ mem_cons_self : (0x2D : UInt16) ∈ decimal value)
  intro first second same
  unfold signedDecimal at same
  split at same <;> split at same
  · have magnitude := decimal_injective (cons.inj same).2
    omega
  · exact absurd same.symm (noSign _ _)
  · exact absurd same (noSign _ _)
  · have magnitude := decimal_injective same
    omega

theorem not_mem_signedDecimal {value : Int} (below : unit.toNat < 48) (noSign : unit ≠ 0x2D) :
    unit ∉ signedDecimal value := by
  unfold signedDecimal
  split
  · exact not_mem_cons_of_ne_of_not_mem noSign (not_mem_decimal below)
  · exact not_mem_decimal below

end Texts
