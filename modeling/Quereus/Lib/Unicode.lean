import Quereus.Lib.BigEndian

/-!
# UTF-16 strings, code points and UTF-8

A `Utf16` string is a list of 16-bit code units, surrogates paired or not. Two orders are
compared here: the lexicographic order of the code points, and what byte strings and unit
strings give for it. UTF-8 preserves code-point order byte by byte (`compare_utf8`), and so do
the code units once high surrogates are ranked above all other units (`compare_map_unitRank`).
-/

/-- A string as a sequence of UTF-16 code units. -/
abbrev Utf16 := List UInt16

namespace Utf16

open KeyOrder

def isHighSurrogate (unit : UInt16) : Bool :=
  decide (0xD800 ≤ unit.toNat ∧ unit.toNat ≤ 0xDBFF)

def isLowSurrogate (unit : UInt16) : Bool :=
  decide (0xDC00 ≤ unit.toNat ∧ unit.toNat ≤ 0xDFFF)

/-- Code points that encode no character. -/
def isSurrogate (codePoint : Nat) : Bool :=
  decide (0xD800 ≤ codePoint ∧ codePoint ≤ 0xDFFF)

/-- The character a surrogate pair stands for. -/
def pairCodePoint (high low : UInt16) : Nat :=
  0x10000 + (high.toNat - 0xD800) * 0x400 + (low.toNat - 0xDC00)

/-- The code points of a string; an unpaired surrogate stands for itself. -/
def codePoints : Utf16 → List Nat
  | [] => []
  | [unit] => [unit.toNat]
  | first :: second :: rest =>
    if isHighSurrogate first && isLowSurrogate second then
      pairCodePoint first second :: codePoints rest
    else first.toNat :: codePoints (second :: rest)

/-- Every surrogate of the string belongs to a pair. -/
def WellFormed (string : Utf16) : Prop :=
  ∀ codePoint ∈ codePoints string, isSurrogate codePoint = false

instance (string : Utf16) : Decidable (WellFormed string) :=
  inferInstanceAs (Decidable (∀ codePoint ∈ codePoints string, isSurrogate codePoint = false))

/-- The UTF-8 bytes of one code point. -/
def utf8Bytes (codePoint : Nat) : List UInt8 :=
  if codePoint < 0x80 then [UInt8.ofNat codePoint]
  else if codePoint < 0x800 then
    [UInt8.ofNat (0xC0 + codePoint / 64), UInt8.ofNat (0x80 + codePoint % 64)]
  else if codePoint < 0x10000 then
    [UInt8.ofNat (0xE0 + codePoint / 64 / 64), UInt8.ofNat (0x80 + codePoint / 64 % 64),
      UInt8.ofNat (0x80 + codePoint % 64)]
  else
    [UInt8.ofNat (0xF0 + codePoint / 64 / 64 / 64), UInt8.ofNat (0x80 + codePoint / 64 / 64 % 64),
      UInt8.ofNat (0x80 + codePoint / 64 % 64), UInt8.ofNat (0x80 + codePoint % 64)]

/-- The UTF-8 encoding of a string. An unpaired surrogate becomes U+FFFD. -/
def utf8 (string : Utf16) : List UInt8 :=
  (codePoints string).flatMap fun codePoint =>
    utf8Bytes (if isSurrogate codePoint then 0xFFFD else codePoint)

/-- A unit's rank in code-point order: high surrogates move above all other units. -/
def unitRank (unit : UInt16) : Nat :=
  if isHighSurrogate unit then unit.toNat + 0x2800 else unit.toNat

theorem pairCodePoint_bounds {high low : UInt16} (isHigh : isHighSurrogate high)
    (isLow : isLowSurrogate low) :
    0x10000 ≤ pairCodePoint high low ∧ pairCodePoint high low < 0x110000 := by
  simp only [isHighSurrogate, isLowSurrogate, decide_eq_true_eq] at isHigh isLow
  unfold pairCodePoint
  omega

theorem codePoint_lt {string : Utf16} {codePoint : Nat}
    (member : codePoint ∈ codePoints string) : codePoint < 0x110000 := by
  fun_induction codePoints string with
  | case1 => simp at member
  | case2 unit =>
    have bound := unit.toNat_lt
    rw [List.mem_singleton] at member
    omega
  | case3 first second rest paired ih =>
    rw [Bool.and_eq_true] at paired
    have bounds := pairCodePoint_bounds paired.1 paired.2
    rcases List.mem_cons.mp member with same | later
    · omega
    · exact ih later
  | case4 first second rest unpaired ih =>
    have bound := first.toNat_lt
    rcases List.mem_cons.mp member with same | later
    · omega
    · exact ih later

section Utf8

variable {first second : Nat}

theorem compare_ofNat_add {offset : Nat} (firstBound : offset + first < 256)
    (secondBound : offset + second < 256) :
    compare (UInt8.ofNat (offset + first)) (UInt8.ofNat (offset + second)) =
      compare first second := by
  rw [UInt8.compare_eq_toNat_compare_toNat, UInt8.toNat_ofNat', UInt8.toNat_ofNat',
    Nat.mod_eq_of_lt firstBound,
    Nat.mod_eq_of_lt secondBound]
  exact compare_congr (by omega) (by omega)

/-- Leading bytes in increasing order settle the comparison. -/
private theorem decides_leading {left right : List UInt8} (below : first < second)
    (bound : second < 256) :
    Decides .lt (UInt8.ofNat first :: left) (UInt8.ofNat second :: right) := by
  apply decides_cons_of_lt
  rw [UInt8.compare_eq_toNat_compare_toNat, UInt8.toNat_ofNat', UInt8.toNat_ofNat',
    Nat.mod_eq_of_lt (below.trans bound), Nat.mod_eq_of_lt bound]
  exact Nat.compare_eq_lt.mpr below

private theorem decides_utf8Bytes_of_lt (below : first < second) (bound : second < 0x110000) :
    Decides .lt (utf8Bytes first) (utf8Bytes second) := by
  have sameWidth : ∀ {left right : List UInt8}, left.length = right.length →
      compare left right = compare first second → Decides .lt left right := by
    intro left right lengths verdict
    rw [← Nat.compare_eq_lt.mpr below, ← verdict]
    exact decides_of_length_eq lengths
  have low := compare_eq_then_div_mod 64 first second
  have middle := compare_eq_then_div_mod 64 (first / 64) (second / 64)
  have high := compare_eq_then_div_mod 64 (first / 64 / 64) (second / 64 / 64)
  have continuation : ∀ left right : Nat, compare (UInt8.ofNat (0x80 + left % 64))
      (UInt8.ofNat (0x80 + right % 64)) = compare (left % 64) (right % 64) :=
    fun left right => compare_ofNat_add (by omega) (by omega)
  -- Code points of one width compare digit by digit; a wider one has the larger leading byte.
  unfold utf8Bytes
  split_ifs <;>
    first
    | omega
    | exact decides_leading (by omega) (by omega)
    | refine sameWidth rfl ?_
  · rw [List.compare_cons_cons, List.compare_cons_cons, List.compare_nil_nil, continuation,
      compare_ofNat_add (by omega) (by omega), low, Ordering.then_eq]
  · rw [List.compare_cons_cons, List.compare_cons_cons, List.compare_cons_cons,
      List.compare_nil_nil, continuation, continuation, compare_ofNat_add (by omega) (by omega),
      low, middle, Ordering.then_eq, Ordering.then_assoc]
  · rw [List.compare_cons_cons, List.compare_cons_cons, List.compare_cons_cons,
      List.compare_cons_cons, List.compare_nil_nil, continuation, continuation, continuation,
      compare_ofNat_add (by omega) (by omega), low, middle, high, Ordering.then_eq,
      Ordering.then_assoc, Ordering.then_assoc]

theorem utf8Bytes_ne_nil (codePoint : Nat) : utf8Bytes codePoint ≠ [] := by
  unfold utf8Bytes
  split
  · simp
  · split
    · simp
    · split <;> simp

theorem utf8_of_wellFormed {string : Utf16} (wellFormed : WellFormed string) :
    utf8 string = (codePoints string).flatMap utf8Bytes := by
  apply List.flatMap_congr
  intro codePoint member
  rw [if_neg (by simp [wellFormed codePoint member])]

/-- **UTF-8 bytes compare as code points.** -/
theorem compare_utf8 {left right : Utf16} (leftWellFormed : WellFormed left)
    (rightWellFormed : WellFormed right) :
    compare (utf8 left) (utf8 right) = compare (codePoints left) (codePoints right) := by
  rw [utf8_of_wellFormed leftWellFormed, utf8_of_wellFormed rightWellFormed]
  apply compare_flatMap
  · intro first firstMember second secondMember
    exact decides_of_lt
      (fun below => decides_utf8Bytes_of_lt (Nat.compare_eq_lt.mp below)
        (codePoint_lt secondMember))
      (fun below => decides_utf8Bytes_of_lt (Nat.compare_eq_lt.mp below) (codePoint_lt firstMember))
  · exact fun codePoint _ => utf8Bytes_ne_nil codePoint
  · exact fun codePoint _ => utf8Bytes_ne_nil codePoint

end Utf8

section UnitOrder

variable {string rest : Utf16} {unit high low : UInt16} {codePoint : Nat}

theorem codePoints_cons_of_not_high (rest : Utf16) (plain : isHighSurrogate unit = false) :
    codePoints (unit :: rest) = unit.toNat :: codePoints rest := by
  cases rest with
  | nil => rfl
  | cons second rest' => rw [codePoints, plain, Bool.false_and, if_neg (by decide)]

/-- Only a low surrogate reads on from the units before it. -/
theorem codePoints_append (string : Utf16)
    (plain : ∀ unit ∈ rest.head?, isLowSurrogate unit = false) :
    codePoints (string ++ rest) = codePoints string ++ codePoints rest := by
  fun_induction codePoints string with
  | case1 => rfl
  | case2 unit =>
    cases rest with
    | nil => rfl
    | cons next rest => simp [codePoints, plain next rfl]
  | case3 high low string paired ih =>
    rw [List.cons_append, List.cons_append, codePoints, if_pos paired, ih, List.cons_append]
  | case4 unit next string unpaired ih =>
    rw [List.cons_append, List.cons_append, codePoints, if_neg unpaired, ← List.cons_append, ih,
      List.cons_append]

theorem wellFormed_iff (spelled : codePoints string = codePoint :: codePoints rest) :
    WellFormed string ↔ isSurrogate codePoint = false ∧ WellFormed rest := by
  rw [WellFormed, spelled, List.forall_mem_cons, WellFormed]

/-- The ranks of the units that spell a code point. -/
def unitRanks (codePoint : Nat) : List Nat :=
  if codePoint < 0x10000 then [codePoint]
  else [0x10000 + (codePoint - 0x10000) / 0x400, 0xDC00 + (codePoint - 0x10000) % 0x400]

private theorem unitRanks_plain (plain : isSurrogate unit.toNat = false) :
    unitRanks unit.toNat = [unitRank unit] := by
  have bound := unit.toNat_lt
  simp only [isSurrogate, decide_eq_false_iff_not] at plain
  rw [unitRanks, if_pos bound, unitRank, if_neg]
  simp only [isHighSurrogate, decide_eq_true_eq]
  omega

private theorem unitRanks_pair (isHigh : isHighSurrogate high) (isLow : isLowSurrogate low) :
    unitRanks (pairCodePoint high low) = [unitRank high, unitRank low] := by
  have rank : unitRank high = high.toNat + 0x2800 := if_pos isHigh
  simp only [isHighSurrogate, isLowSurrogate, decide_eq_true_eq] at isHigh isLow
  have notHigh : ¬ isHighSurrogate low := by
    simp only [isHighSurrogate, decide_eq_true_eq]
    omega
  have quotient : (pairCodePoint high low - 0x10000) / 0x400 = high.toNat - 0xD800 := by
    unfold pairCodePoint
    omega
  have remainder : (pairCodePoint high low - 0x10000) % 0x400 = low.toNat - 0xDC00 := by
    unfold pairCodePoint
    omega
  rw [unitRanks, if_neg (by unfold pairCodePoint; omega), rank, unitRank, if_neg notHigh]
  exact congrArg₂ (fun first second => [first, second]) (by omega) (by omega)

theorem map_unitRank (wellFormed : WellFormed string) :
    string.map unitRank = (codePoints string).flatMap unitRanks := by
  fun_induction codePoints string with
  | case1 => rfl
  | case2 unit =>
    have plain : isSurrogate unit.toNat = false := wellFormed _ (by simp [codePoints])
    simp [unitRanks_plain plain]
  | case3 high low rest paired ih =>
    have spelled : codePoints (high :: low :: rest) = pairCodePoint high low ::
        codePoints rest := by
      rw [codePoints, if_pos paired]
    rw [Bool.and_eq_true] at paired
    rw [List.flatMap_cons, unitRanks_pair paired.1 paired.2,
      ← ih ((wellFormed_iff spelled).mp wellFormed).2]
    rfl
  | case4 unit next rest unpaired ih =>
    have spelled : codePoints (unit :: next :: rest) = unit.toNat :: codePoints (next :: rest) := by
      rw [codePoints, if_neg unpaired]
    obtain ⟨plain, later⟩ := (wellFormed_iff spelled).mp wellFormed
    rw [List.flatMap_cons, unitRanks_plain plain, ← ih later]
    rfl

theorem decides_unitRanks (first second : Nat) :
    Decides (compare first second) (unitRanks first) (unitRanks second) := by
  suffices strict : ∀ {first second : Nat}, compare first second = .lt →
      Decides .lt (unitRanks first) (unitRanks second) from decides_of_lt strict strict
  intro first second below
  rw [Nat.compare_eq_lt] at below
  unfold unitRanks
  split_ifs
  · exact decides_cons_of_lt (Nat.compare_eq_lt.mpr below)
  · exact decides_cons_of_lt (Nat.compare_eq_lt.mpr (by omega))
  · omega
  · by_cases same : (first - 0x10000) / 0x400 = (second - 0x10000) / 0x400
    · rw [same]
      exact (decides_cons_of_lt (Nat.compare_eq_lt.mpr (by omega))).cons _
    · exact decides_cons_of_lt (Nat.compare_eq_lt.mpr (by omega))

/-- **Ranked code units compare as code points**, so no pair has to be decoded. -/
theorem compare_map_unitRank {left right : Utf16} (leftWellFormed : WellFormed left)
    (rightWellFormed : WellFormed right) :
    compare (left.map unitRank) (right.map unitRank) =
      compare (codePoints left) (codePoints right) := by
  have nonempty : ∀ codePoint, unitRanks codePoint ≠ [] := by
    intro codePoint
    unfold unitRanks
    split <;> simp
  rw [map_unitRank leftWellFormed, map_unitRank rightWellFormed]
  exact compare_flatMap _ _ _ (fun first _ second _ => decides_unitRanks first second)
    (fun codePoint _ => nonempty codePoint) fun codePoint _ => nonempty codePoint

end UnitOrder

end Utf16
