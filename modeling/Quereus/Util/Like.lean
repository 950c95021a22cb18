import Quereus.Lib.Unicode

/-! # LIKE patterns

`compileLike` of `patterns.ts` writes a LIKE pattern as a regular expression: it escapes the
characters that mean something there, but not the question mark, and writes `%` as `.*` and `_`
as `.`. A dot stands for any code point but a line terminator. The cache of compiled patterns is
left out.
-/

namespace Quereus.Util

open List

def escaped : List Nat :=
  ['.', '*', '+', '^', '$', '{', '}', '(', ')', '|', '[', ']', '\\'].map Char.toNat

/-- The source between `^` and `$`, after the three replacements. -/
def regexPattern (pattern : List Nat) : List Nat :=
  ((pattern.flatMap fun point => if point ∈ escaped then ['\\'.toNat, point] else [point]).flatMap
    fun point => if point = '%'.toNat then ['.'.toNat, '*'.toNat] else [point]).flatMap
      fun point => if point = '_'.toNat then ['.'.toNat] else [point]

/-- A character or the dot, or a mark behind one. -/
inductive Piece
  | atom (character : Option Nat)
  | star
  | question

def readPoint (point : Nat) : Piece :=
  if point = '.'.toNat then .atom none
  else if point = '*'.toNat then .star
  else if point = '?'.toNat then .question
  else .atom (some point)

/-- The pieces of a source. All other characters with a meaning are escaped in it. -/
def readPieces : List Nat → List Piece
  | [] => []
  | [point] => [readPoint point]
  | point :: next :: source =>
    if point = '\\'.toNat then .atom (some next) :: readPieces source
    else readPoint point :: readPieces (next :: source)

inductive Quantifier
  | once
  | optional
  | any

/-- A second mark makes the first lazy, which changes no verdict. -/
def quantifier : List Piece → Option Quantifier
  | [] => some .once
  | [.question] | [.question, .question] => some .optional
  | [.star] | [.star, .question] => some .any
  | _ => none

/-- An atom takes the marks behind it. -/
def addPiece : Piece → List Piece × List (Option Nat × Quantifier) →
    Option (List Piece × List (Option Nat × Quantifier))
  | .atom character, (marks, terms) =>
    (quantifier marks).map fun quantifier => ([], (character, quantifier) :: terms)
  | mark, (marks, terms) => some (mark :: marks, terms)

/-- `new RegExp` throws on marks that are behind no atom. -/
def newRegExp (source : List Nat) : Option (List (Option Nat × Quantifier)) := do
  let (marks, terms) ← (readPieces source).foldrM addPiece ([], [])
  if marks.isEmpty then some terms else none

def lineTerminators : List Nat := [0x0A, 0x0D, 0x2028, 0x2029]

def accepts : Option Nat → Nat → Bool
  | none, point => point ∉ lineTerminators
  | some character, point => character = point

def Quantifier.allows : Quantifier → Nat → Bool
  | .once, count => count = 1
  | .optional, count => count ≤ 1
  | .any, _ => true

/-- The terms take the whole text. -/
def test : List (Option Nat × Quantifier) → List Nat → Bool
  | [], text => text.isEmpty
  | (character, quantifier) :: terms, text =>
    (range (text.length + 1)).any fun count => quantifier.allows count &&
      (text.take count).all (accepts character) && test terms (text.drop count)

def compileLike (pattern text : Utf16) : Bool :=
  match newRegExp (regexPattern pattern.codePoints) with
  | some terms => test terms text.codePoints
  | none => false

def simpleLike (pattern text : Utf16) : Bool :=
  compileLike pattern text

/-- The text can be split so that `%` matches any characters, `_` matches one, and every other
character matches itself. Wildcards match the characters in `wild`. -/
def LikeMatches (wild : Nat → Prop) : List Nat → List Nat → Prop
  | [], text => text = []
  | point :: pattern, text => ∃ taken rest, text = taken ++ rest ∧ LikeMatches wild pattern rest ∧
      if point = '%'.toNat then ∀ character ∈ taken, wild character
      else if point = '_'.toNat then ∃ character, taken = [character] ∧ wild character
      else taken = [point]

/-- The term a character of the pattern becomes. -/
def likeTerm (point : Nat) : Option Nat × Quantifier :=
  if point = '%'.toNat then (none, .any)
  else if point = '_'.toNat then (none, .once)
  else (some point, .once)

variable {pattern text : List Nat}

theorem LikeMatches.imp {wild wild' : Nat → Prop} (weaker : ∀ point, wild point → wild' point)
    (matched : LikeMatches wild pattern text) : LikeMatches wild' pattern text := by
  induction pattern generalizing text with
  | nil => exact matched
  | cons point pattern ih =>
    obtain ⟨taken, rest, split, later, taken_ok⟩ := matched
    refine ⟨taken, rest, split, ih later, ?_⟩
    split_ifs at taken_ok ⊢
    · exact fun character member => weaker _ (taken_ok character member)
    · exact taken_ok.imp fun character one => ⟨one.1, weaker _ one.2⟩
    · exact taken_ok

theorem readPieces_cons {point : Nat} (plain : point ≠ '\\'.toNat) (source : List Nat) :
    readPieces (point :: source) = readPoint point :: readPieces source := by
  cases source with
  | nil => rfl
  | cons next source => rw [readPieces, if_neg plain]

/-- Without question marks every character becomes its term. -/
theorem newRegExp_regexPattern (plain : '?'.toNat ∉ pattern) :
    newRegExp (regexPattern pattern) = some (pattern.map likeTerm) := by
  have read : (readPieces (regexPattern pattern)).foldrM addPiece ([], []) =
      some ([], pattern.map likeTerm) := by
    induction pattern with
    | nil => rfl
    | cons point pattern ih =>
      rw [mem_cons, not_or] at plain
      have later := ih plain.2
      have source : regexPattern (point :: pattern) =
          regexPattern [point] ++ regexPattern pattern := by
        simp [regexPattern]
      rw [source, map_cons]
      by_cases percent : point = 37
      · subst percent
        change foldrM _ _ (readPieces (46 :: 42 :: regexPattern pattern)) = _
        rw [readPieces_cons (by decide), readPieces_cons (by decide), foldrM_cons, foldrM_cons,
          later]
        rfl
      by_cases underscore : point = 95
      · subst underscore
        change foldrM _ _ (readPieces (46 :: regexPattern pattern)) = _
        rw [readPieces_cons (by decide), foldrM_cons, later]
        rfl
      have term : likeTerm point = (some point, .once) := by
        simp [likeTerm, percent, underscore]
      by_cases special : point ∈ escaped
      · have escapes : regexPattern [point] = [92, point] := by
          simp [regexPattern, special, percent, underscore]
        rw [escapes, term]
        change foldrM _ _ (.atom (some point) :: readPieces (regexPattern pattern)) = _
        rw [foldrM_cons, later]
        rfl
      · have itself : regexPattern [point] = [point] := by
          simp [regexPattern, special, percent, underscore]
        have atom : readPoint point = .atom (some point) := by
          rw [escaped] at special
          simp_all [readPoint, eq_comm]
        rw [itself, term, singleton_append, readPieces_cons, foldrM_cons, later, atom]
        · rfl
        · rintro rfl
          exact special (by decide)
  rw [newRegExp, read]
  rfl

theorem test_cons (character : Option Nat) (quantifier : Quantifier)
    (terms : List (Option Nat × Quantifier)) :
    test ((character, quantifier) :: terms) text = true ↔ ∃ taken rest, text = taken ++ rest ∧
      test terms rest = true ∧ quantifier.allows taken.length = true ∧
        ∀ point ∈ taken, accepts character point = true := by
  rw [test, any_eq_true]
  constructor
  · rintro ⟨count, inside, found⟩
    rw [Bool.and_eq_true, Bool.and_eq_true, all_eq_true] at found
    refine ⟨_, _, (take_append_drop count text).symm, found.2, ?_, found.1.2⟩
    rw [length_take, min_eq_left (Nat.lt_succ_iff.mp (mem_range.mp inside))]
    exact found.1.1
  · rintro ⟨taken, rest, rfl, later, allows, accepted⟩
    refine ⟨taken.length, mem_range.mpr (by rw [length_append]; omega), ?_⟩
    simpa [later, allows] using accepted

theorem test_likeTerms :
    test (pattern.map likeTerm) text = true ↔
      LikeMatches (· ∉ lineTerminators) pattern text := by
  induction pattern generalizing text with
  | nil => simp [test, LikeMatches]
  | cons point pattern ih =>
    rw [map_cons, likeTerm, LikeMatches]
    split
    · simp [test_cons, ih, Quantifier.allows, accepts]
    · split
      · simp [test_cons, ih, Quantifier.allows, accepts, length_eq_one_iff]
      · simp [test_cons, ih, Quantifier.allows, accepts, length_eq_one_iff]

/-- For a pattern without question marks the verdict is right exactly if the text, should it match,
matches with no line terminator under a wildcard. -/
theorem simpleLike_iff (pattern text : Utf16) (plain : '?'.toNat ∉ pattern.codePoints) :
    (simpleLike pattern text = true ↔
        LikeMatches (fun _ => True) pattern.codePoints text.codePoints) ↔
      (LikeMatches (fun _ => True) pattern.codePoints text.codePoints →
        LikeMatches (· ∉ lineTerminators) pattern.codePoints text.codePoints) := by
  have verdict : simpleLike pattern text = true ↔
      LikeMatches (· ∉ lineTerminators) pattern.codePoints text.codePoints := by
    rw [← test_likeTerms, simpleLike, compileLike, newRegExp_regexPattern plain]
  rw [verdict]
  exact ⟨Iff.mpr, fun only => ⟨LikeMatches.imp fun _ _ => trivial, only⟩⟩

/-- `a%_` and `abc`. -/
theorem simpleLike_iff_wildcards : simpleLike [97, 37, 95] [97, 98, 99] = true := by
  have matched : LikeMatches (· ∉ lineTerminators) [97, 37, 95] [97, 98, 99] :=
    ⟨[97], _, rfl, ⟨[98], _, rfl, ⟨[99], _, rfl, rfl, 99, rfl, by decide⟩,
      by simp [lineTerminators]⟩, rfl⟩
  exact ((simpleLike_iff [97, 37, 95] [97, 98, 99] (by decide)).mpr fun _ => matched).mpr
    (matched.imp fun _ _ => trivial)

/-- `a?` does not match itself, and `%` does not match a line feed. -/
theorem simpleLike_misses :
    simpleLike [97, 63] [97, 63] = false ∧ LikeMatches (fun _ => True) [97, 63] [97, 63] ∧
      simpleLike [37] [10] = false ∧ LikeMatches (fun _ => True) [37] [10] :=
  ⟨by decide, ⟨[97], _, rfl, ⟨[63], _, rfl, rfl, rfl⟩, rfl⟩, by decide,
    ⟨[10], _, rfl, rfl, fun _ _ => trivial⟩⟩

end Quereus.Util
