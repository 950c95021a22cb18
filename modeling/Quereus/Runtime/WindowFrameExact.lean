import Quereus.Runtime.WindowFrame
import Mathlib.Tactic.IntervalCases

/-! # Exact window frames

For ROWS frames, and for RANGE frames that are bounded by peers, `getFrameBounds` returns
the positions of the frame. With a RANGE offset it does so exactly if each row that a scan
looks at is judged as SQL judges it, or nothing is in the interval and in the frame. This
is so if the sort ascends, the numbers involved are exact, and the frame has a row with a
key.
-/

namespace Quereus.Runtime

open Option Double

variable {first second : Int} {rows : WindowRows} {accepts : Int → Bool} {index : Nat}
  {order : SortOrder}

theorem SortOrder.eq_of_le_of_le {first second : Option Int}
    (le : order.shift first 0 ≤ order.shift second 0)
    (ge : order.shift second 0 ≤ order.shift first 0) : first = second := by
  obtain ⟨descending, nullsFirst⟩ := order
  cases first <;> cases second <;> cases descending <;> cases nullsFirst <;>
    simp_all [SortOrder.shift] <;> omega

theorem WindowRows.firstIndex_le_iff {left start : Nat} (inside : index < start + left) :
    rows.firstIndex accepts left start ≤ index ↔
      ∃ found, (found ≤ index ∧ start ≤ found) ∧ rows.accepted accepts found = true := by
  induction left generalizing start with
  | zero =>
    refine iff_of_false (by unfold firstIndex; omega) ?_
    omega
  | succ left ih =>
    unfold firstIndex
    split
    · next accepted =>
      exact ⟨fun le => ⟨start, ⟨le, le_rfl⟩, accepted⟩, fun ⟨_, ⟨le, ge⟩, _⟩ => ge.trans le⟩
    · next rejected =>
      rw [ih (by omega)]
      refine exists_congr fun found => and_congr_left fun accepted => ?_
      have other : found ≠ start := by
        rintro rfl
        exact rejected accepted
      omega

theorem WindowRows.le_lastIndex_iff {count : Nat} :
    (index : Int) ≤ rows.lastIndex accepts count ↔
      ∃ found, (index ≤ found ∧ found < count) ∧ rows.accepted accepts found = true := by
  induction count with
  | zero =>
    refine iff_of_false (by unfold lastIndex; omega) ?_
    omega
  | succ count ih =>
    unfold lastIndex
    split
    · next accepted =>
      rw [Nat.cast_le]
      exact ⟨fun le => ⟨count, ⟨le, Nat.lt_succ_self count⟩, accepted⟩,
        fun ⟨_, ⟨le, bound⟩, _⟩ => le.trans (Nat.lt_succ_iff.mp bound)⟩
    · next rejected =>
      rw [ih]
      refine exists_congr fun found => and_congr_left fun accepted => ?_
      have other : found ≠ count := by
        rintro rfl
        exact rejected accepted
      omega

section Judged

variable {fits : Nat → Prop}

/-- A scan for the first row finds where the fitting rows begin exactly if it judges the rows
right that it looks at. -/
theorem WindowRows.firstIndex_judged_iff
    (later : ∀ low high, low ≤ high → high < rows.totalRows → fits low → fits high) :
    (∀ index < rows.totalRows, index ≤ rows.firstIndex accepts rows.totalRows 0 →
      (rows.accepted accepts index = true ↔ fits index)) ↔
    ∀ index < rows.totalRows, (rows.firstIndex accepts rows.totalRows 0 ≤ index ↔ fits index) := by
  have le_iff : ∀ index < rows.totalRows, (rows.firstIndex accepts rows.totalRows 0 ≤ index ↔
      ∃ found, (found ≤ index ∧ 0 ≤ found) ∧ rows.accepted accepts found = true) :=
    fun index inside => firstIndex_le_iff (by omega)
  generalize rows.firstIndex accepts rows.totalRows 0 = start at le_iff ⊢
  have first : start < rows.totalRows → rows.accepted accepts start = true := by
    intro inside
    obtain ⟨found, ⟨le, -⟩, accepted⟩ := (le_iff start inside).mp le_rfl
    have ge := (le_iff found (by omega)).mpr ⟨found, ⟨le_rfl, Nat.zero_le _⟩, accepted⟩
    rwa [le_antisymm ge le]
  constructor
  · intro judged index inside
    constructor
    · intro le
      have bound := le.trans_lt inside
      exact later start index le inside ((judged start bound le_rfl).mp (first bound))
    · intro isFit
      by_contra before
      have accepted := (judged index inside (by omega)).mpr isFit
      exact before ((le_iff index inside).mpr ⟨index, ⟨le_rfl, Nat.zero_le _⟩, accepted⟩)
  · intro found index inside visited
    rw [← found index inside]
    constructor
    · exact fun accepted => (le_iff index inside).mpr ⟨index, ⟨le_rfl, Nat.zero_le _⟩, accepted⟩
    · intro le
      obtain rfl := le_antisymm visited le
      exact first inside

/-- The same of a scan for the last row. -/
theorem WindowRows.lastIndex_judged_iff
    (earlier : ∀ low high, low ≤ high → high < rows.totalRows → fits high → fits low) :
    (∀ index < rows.totalRows, rows.lastIndex accepts rows.totalRows ≤ index →
      (rows.accepted accepts index = true ↔ fits index)) ↔
    ∀ index < rows.totalRows, ((index : Int) ≤ rows.lastIndex accepts rows.totalRows ↔
      fits index) := by
  have le_iff : ∀ index : Nat, ((index : Int) ≤ rows.lastIndex accepts rows.totalRows ↔
      ∃ found, (index ≤ found ∧ found < rows.totalRows) ∧ rows.accepted accepts found = true) :=
    fun index => le_lastIndex_iff
  generalize rows.lastIndex accepts rows.totalRows = stop at le_iff ⊢
  have last : ∀ index : Nat, stop = index → rows.accepted accepts index = true ∧
      index < rows.totalRows := by
    rintro index rfl
    obtain ⟨found, ⟨le, inside⟩, accepted⟩ := (le_iff index).mp le_rfl
    have ge := Nat.cast_le.mp ((le_iff found).mpr ⟨found, ⟨le_rfl, inside⟩, accepted⟩)
    rw [le_antisymm le ge]
    exact ⟨accepted, inside⟩
  constructor
  · intro judged index inside
    constructor
    · intro le
      obtain ⟨final, rfl⟩ := Int.eq_ofNat_of_zero_le ((Int.natCast_nonneg index).trans le)
      obtain ⟨accepted, bound⟩ := last final rfl
      exact earlier index final (Nat.cast_le.mp le) bound ((judged final bound le_rfl).mp accepted)
    · intro isFit
      by_contra after
      have accepted := (judged index inside (by omega)).mpr isFit
      exact after ((le_iff index).mpr ⟨index, ⟨le_rfl, inside⟩, accepted⟩)
  · intro found index inside visited
    rw [← found index inside]
    constructor
    · exact fun accepted => (le_iff index).mpr ⟨index, ⟨le_rfl, inside⟩, accepted⟩
    · exact fun le => (last index (le_antisymm visited le)).1

end Judged

/-- `Number(value)` is the value. -/
def ExactNumber (value : Int) : Prop :=
  (Double.ofInt value).toInt? = some value

instance (value : Int) : Decidable (ExactNumber value) :=
  inferInstanceAs (Decidable (_ = _))

theorem numberLE_iff (firstExact : ExactNumber first) (secondExact : ExactNumber second) :
    numberLE (Double.ofInt first) (Double.ofInt second) = true ↔ first ≤ second := by
  rw [numberLE, decide_eq_true_eq]
  exact ⟨le_of_signedMagnitude_le firstExact secondExact, ofInt_mono⟩

/-- Rounding does not carry an integer over a small one. -/
theorem rounded_le_iff (small : second.natAbs < 2 ^ 52) :
    rounded first ≤ second ↔ first ≤ second := by
  unfold rounded
  cases isRounded : (Double.ofInt first).toInt? with
  | none => rfl
  | some nearest =>
    refine ⟨fun le => ?_, fun le => le_of_signedMagnitude_le isRounded (toInt?_ofInt (by omega))
      (ofInt_mono le)⟩
    by_contra greater
    have next : second + 1 ≤ nearest := le_of_signedMagnitude_le (toInt?_ofInt (by omega)) isRounded
      (ofInt_mono (by omega))
    exact absurd (next.trans le) (by omega)

theorem le_rounded_iff (small : first.natAbs < 2 ^ 51) :
    first ≤ rounded second ↔ first ≤ second := by
  have below : rounded second ≤ first - 1 ↔ second ≤ first - 1 := rounded_le_iff (by omega)
  omega

section Offset

variable {value : Nat} {offset : Int}

theorem rounded_eq_of_getFrameOffset (isOffset : getFrameOffset value = .ok offset) :
    rounded value = offset := by
  unfold getFrameOffset at isOffset
  unfold rounded
  split at isOffset
  · next read => rw [read, Option.getD_some, Except.ok.inj isOffset]
  · cases isOffset

theorem getFrameOffset_le_iff (isOffset : getFrameOffset value = .ok offset) (number : Int)
    (small : number.natAbs < 2 ^ 52) : offset ≤ number ↔ value ≤ number :=
  rounded_eq_of_getFrameOffset isOffset ▸ rounded_le_iff small

theorem le_getFrameOffset_iff (isOffset : getFrameOffset value = .ok offset) (number : Int)
    (small : number.natAbs < 2 ^ 51) : number ≤ offset ↔ number ≤ value :=
  rounded_eq_of_getFrameOffset isOffset ▸ le_rounded_iff small

end Offset

namespace Partition

variable {rows : Partition order}

theorem place_eq {first second : Nat} (peers : rows.arePeerRows first second = true) :
    rows.place first 0 = rows.place second 0 :=
  congrArg (order.shift · 0) (beq_iff_eq.mp peers)

theorem place_current (offset : Int) : rows.place rows.currentIndex offset =
    order.shift rows.currentVals offset :=
  rfl

section Scans

variable (inside : index < rows.totalRows)

include inside

theorem findFirstPeer_le_iff {first : Nat} (bound : first < rows.totalRows)
    (isFirst : rows.place first 0 = rows.place rows.currentIndex 0) :
    rows.findFirstPeer first ≤ index ↔ rows.place rows.currentIndex 0 ≤ rows.place index 0 := by
  induction first with
  | zero => exact iff_of_true (Nat.zero_le _) (isFirst ▸ rows.sorted 0 index (Nat.zero_le _) inside)
  | succ first ih =>
    unfold WindowRows.findFirstPeer
    split
    · next peer => exact ih (by omega) (place_eq peer)
    · next other =>
      refine ⟨fun le => isFirst ▸ rows.sorted _ _ le inside, fun le => ?_⟩
      by_contra before
      have upper : rows.place first 0 ≤ rows.place rows.currentIndex 0 :=
        isFirst ▸ rows.sorted first _ (Nat.le_succ first) bound
      have lower := rows.sorted index first (by omega) (by omega)
      exact other (beq_iff_eq.mpr (SortOrder.eq_of_le_of_le upper (le.trans lower)))

theorem le_findLastPeer_iff {left last : Nat} (counted : last + left + 1 = rows.totalRows)
    (isLast : rows.place last 0 = rows.place rows.currentIndex 0) :
    index ≤ rows.findLastPeer left last ↔ rows.place index 0 ≤ rows.place rows.currentIndex 0 := by
  induction left generalizing last with
  | zero =>
    have le : index ≤ last := by omega
    exact iff_of_true le (isLast ▸ rows.sorted _ _ le (by omega))
  | succ left ih =>
    unfold WindowRows.findLastPeer
    split
    · next peer => exact ih (by omega) (place_eq peer)
    · next other =>
      refine ⟨fun le => isLast ▸ rows.sorted _ _ le (by omega), fun le => ?_⟩
      by_contra after
      have lower : rows.place rows.currentIndex 0 ≤ rows.place (last + 1) 0 :=
        isLast ▸ rows.sorted last _ (Nat.le_succ last) (by omega)
      have upper := rows.sorted (last + 1) index (by omega) inside
      exact other (beq_iff_eq.mpr (SortOrder.eq_of_le_of_le (upper.trans le) lower))

/-- The rows from the first peer on are those whose place is not before that of the current row. -/
theorem firstPeer_le_iff : rows.firstPeer ≤ index ↔ rows.place rows.currentIndex 0 ≤
    rows.place index 0 :=
  findFirstPeer_le_iff inside rows.inside rfl

/-- And the rows up to the last peer. -/
theorem le_lastPeer_iff : index ≤ rows.lastPeer ↔ rows.place index 0 ≤
    rows.place rows.currentIndex 0 :=
  le_findLastPeer_iff inside (by have := rows.inside; omega) rfl

end Scans

/-- Whether SQL has a row at or after a start bound. -/
def NotBefore (rows : Partition order) (bound : WindowFrameBound) (index : Nat) : Prop :=
  bound.limit (rows.place rows.currentIndex) ≤ rows.place index 0

/-- Whether SQL has a row at or before an end bound. -/
def NotAfter (rows : Partition order) (bound : WindowFrameBound) (index : Nat) : Prop :=
  rows.place index 0 ≤ bound.limit (rows.place rows.currentIndex)

end Partition

/-- The signed offset of a bound. -/
def WindowFrameBound.offset? : WindowFrameBound → Option Int
  | .preceding offset => some (-offset)
  | .following offset => some offset
  | _ => none

/-- The offset of a bound as a number. -/
def WindowFrameBound.readOffset : WindowFrameBound → Except String (Option Int)
  | .preceding value => (getFrameOffset value).map fun offset => some (-offset)
  | .following value => (getFrameOffset value).map some
  | _ => .ok none

namespace Partition

/-- The rows that the scan for the start looks at are found at or after the offset just if
SQL has them there. A current row without a finite number stands for its peers. -/
def StartJudged (rows : Partition order) (bound : WindowFrameBound) : Prop :=
  ∀ offset, bound.readOffset = .ok (some offset) →
    match rangeOrdinal rows.currentVals with
    | none =>
      ∀ index < rows.totalRows, (rows.NotBefore .currentRow index ↔ rows.NotBefore bound index)
    | some currentVal => ∀ index < rows.totalRows, index ≤ rows.rangeOffsetStart offset →
        (rows.accepted (WindowRows.atOrAfter currentVal offset) index = true ↔
          rows.NotBefore bound index)

/-- The rows that the scan for the end looks at are found at or before the offset just if
SQL has them there. -/
def EndJudged (rows : Partition order) (bound : WindowFrameBound) : Prop :=
  ∀ offset, bound.readOffset = .ok (some offset) →
    match rangeOrdinal rows.currentVals with
    | none =>
      ∀ index < rows.totalRows, (rows.NotAfter .currentRow index ↔ rows.NotAfter bound index)
    | some currentVal => ∀ index < rows.totalRows, rows.rangeOffsetEnd offset ≤ index →
        (rows.accepted (WindowRows.atOrBefore currentVal offset) index = true ↔
          rows.NotAfter bound index)

end Partition

namespace WindowFrame

/-- SQL has no frame that starts at UNBOUNDED FOLLOWING or ends at UNBOUNDED PRECEDING. -/
def Legal (frame : WindowFrame) : Prop :=
  frame.start ≠ .unboundedFollowing ∧ frame.last ≠ .unboundedPreceding

/-- A frame whose scans judge the rows right that they look at, or which is empty and for
which an empty interval is returned. An offset that is no finite number is rejected. -/
structure Judged (frame : WindowFrame) (rows : Partition order) : Prop where
  returns : ∃ bounds, rows.getFrameBounds (some frame) true = .ok bounds
  judged : frame.type = .range →
    rows.StartJudged frame.start ∧ rows.EndJudged frame.last ∨
      rows.getFrameBounds (some frame) true =
        .ok ((rows.currentIndex + 1 : Int), (rows.currentIndex : Int)) ∧
      ∀ index < rows.totalRows, ¬ frame.Covers rows index

/-- A frame whose offsets from a key are read right: the keys ascend, the numbers are exact,
and the frame has a row with a key, so that no scan goes on to those without. -/
structure Readable (frame : WindowFrame) (rows : Partition order) (value : Int) : Prop where
  ascending : order.descending = false
  read : ∀ bound ∈ [frame.start, frame.last], bound.readOffset = .ok bound.offset?
  targets : ∀ bound ∈ [frame.start, frame.last], ∀ offset ∈ bound.offset?,
    ExactNumber (value + offset)
  keys : ∀ index < rows.totalRows, ∀ key ∈ rows.orderByValues index, ExactNumber key
  keyed : ∃ index < rows.totalRows, (rows.orderByValues index).isSome ∧ frame.Covers rows index

end WindowFrame

namespace Partition

variable {rows : Partition order} {frame : WindowFrame}

theorem covers_range (range : frame.type = .range) :
    frame.Covers rows index ↔ rows.NotBefore frame.start index ∧
      rows.NotAfter frame.last index := by
  unfold WindowFrame.Covers
  rw [range]
  rfl

/-- The rows that are not before a bound are closed upwards. -/
theorem NotBefore.later {bound : WindowFrameBound} {low high : Nat} (le : low ≤ high)
    (inside : high < rows.totalRows) (fits : rows.NotBefore bound low) :
      rows.NotBefore bound high :=
  fits.trans (rows.sorted low high le inside)

/-- The rows that are not after a bound are closed downwards. -/
theorem NotAfter.earlier {bound : WindowFrameBound} {low high : Nat} (le : low ≤ high)
    (inside : high < rows.totalRows) (fits : rows.NotAfter bound high) : rows.NotAfter bound low :=
  (rows.sorted low high le inside).trans fits

section Judged

variable {bound : WindowFrameBound} {start stop : Int}

theorem rangeOffsetStart_judged_iff {offset : Int}
    (isOffset : bound.readOffset = .ok (some offset)) :
    rows.StartJudged bound ↔
      ∀ index < rows.totalRows,
        (rows.rangeOffsetStart offset ≤ index ↔ rows.NotBefore bound index) := by
  have only : rows.StartJudged bound ↔ _ :=
    ⟨fun judged => judged offset isOffset, fun judged other isOther => by
    cases isOffset.symm.trans isOther
    exact judged⟩
  rw [only]
  unfold WindowRows.rangeOffsetStart
  cases rangeOrdinal rows.currentVals with
  | none => exact forall₂_congr fun index inside => iff_congr (firstPeer_le_iff inside).symm Iff.rfl
  | some currentVal => exact WindowRows.firstIndex_judged_iff fun _ _ => NotBefore.later

theorem rangeOffsetEnd_judged_iff {offset : Int} (isOffset : bound.readOffset = .ok (some offset)) :
    rows.EndJudged bound ↔
      ∀ index < rows.totalRows,
        (index ≤ rows.rangeOffsetEnd offset ↔ rows.NotAfter bound index) := by
  have only : rows.EndJudged bound ↔ _ :=
    ⟨fun judged => judged offset isOffset, fun judged other isOther => by
    cases isOffset.symm.trans isOther
    exact judged⟩
  rw [only]
  unfold WindowRows.rangeOffsetEnd
  cases rangeOrdinal rows.currentVals with
  | none =>
    exact forall₂_congr fun index inside =>
      iff_congr ((le_lastPeer_iff inside).symm.trans Nat.cast_le.symm) Iff.rfl
  | some currentVal => exact WindowRows.lastIndex_judged_iff fun _ _ => NotAfter.earlier

/-- A bound without an offset is judged by the peers or not at all. -/
theorem startIndex_judged_iff (legal : bound ≠ .unboundedFollowing)
    (isStart : rows.startIndex .range bound = .ok start) :
    rows.StartJudged bound ↔
      ∀ index < rows.totalRows, (start ≤ index ↔ rows.NotBefore bound index) := by
  cases bound with
  | unboundedPreceding =>
    cases isStart
    exact iff_of_true nofun fun index _ => iff_of_true (by omega) bot_le
  | unboundedFollowing => exact absurd rfl legal
  | currentRow =>
    cases isStart
    exact iff_of_true nofun fun index inside => Nat.cast_le.trans (firstPeer_le_iff inside)
  | preceding value | following value =>
    cases isOffset : getFrameOffset value with
    | error => simp [WindowRows.startIndex, isOffset, Except.map] at isStart
    | ok offset =>
      simp only [WindowRows.startIndex, isOffset, Except.map, Except.ok.injEq] at isStart
      subst isStart
      simp only [WindowRows.startAt, Nat.cast_le]
      exact rangeOffsetStart_judged_iff
        (by simp [WindowFrameBound.readOffset, isOffset, Except.map])

/-- The loop of an end bound finds its rows exactly when the bound is judged as the rows are. -/
theorem endIndex_judged_iff (legal : bound ≠ .unboundedPreceding)
    (isStop : rows.endIndex .range bound = .ok stop) :
    rows.EndJudged bound ↔
      ∀ index < rows.totalRows, ((index : Int) ≤ stop ↔ rows.NotAfter bound index) := by
  cases bound with
  | unboundedPreceding => exact absurd rfl legal
  | unboundedFollowing =>
    cases isStop
    exact iff_of_true nofun fun index _ => iff_of_true (by omega) le_top
  | currentRow =>
    cases isStop
    exact iff_of_true nofun fun index inside => Nat.cast_le.trans (le_lastPeer_iff inside)
  | preceding value | following value =>
    cases isOffset : getFrameOffset value with
    | error => simp [WindowRows.endIndex, isOffset, Except.map] at isStop
    | ok offset =>
      simp only [WindowRows.endIndex, isOffset, Except.map, Except.ok.injEq] at isStop
      subst isStop
      exact rangeOffsetEnd_judged_iff (by simp [WindowFrameBound.readOffset, isOffset, Except.map])

end Judged

section Readable

variable {bound : WindowFrameBound} {offset value : Int}

theorem limit_of_offset? {shift : Int → Place} (isOffset : bound.offset? = some offset) :
    bound.limit shift = shift offset := by
  cases bound <;> cases isOffset <;> rfl

/-- A row without a key is its peers' peer whatever the offset. -/
theorem judged_of_keyless (keyless : rows.currentVals = none) :
    rows.StartJudged bound ∧ rows.EndJudged bound := by
  have same : ∀ offset, bound.readOffset = .ok (some offset) →
      WindowFrameBound.currentRow.limit (rows.place rows.currentIndex) =
        bound.limit (rows.place rows.currentIndex) := by
    intro offset isOffset
    cases bound <;> simp only [WindowFrameBound.readOffset, reduceCtorEq, Except.ok.injEq]
      at isOffset <;>
      simp only [WindowFrameBound.limit, place_current, keyless, SortOrder.shift]
  constructor <;> intro offset isOffset <;> rw [keyless] <;> intro index _
  · rw [NotBefore, NotBefore, same offset isOffset]
  · rw [NotAfter, NotAfter, same offset isOffset]

variable (current : rows.currentVals = some value) (ascending : order.descending = false)
  (keys : ∀ index < rows.totalRows, ∀ key ∈ rows.orderByValues index, ExactNumber key)
  (isOffset : bound.offset? = some offset) (target : ExactNumber (value + offset))
  (inside : index < rows.totalRows)

include current ascending keys isOffset target inside

/-- Exact numbers are compared as the places are. -/
theorem accepted_of_key {key : Int} (isKey : rows.orderByValues index = some key) :
    (rows.accepted (WindowRows.atOrAfter value offset) index = true ↔ rows.NotBefore bound index) ∧
      (rows.accepted (WindowRows.atOrBefore value offset) index = true ↔
        rows.NotAfter bound index) := by
  have exact := keys index inside key isKey
  have ordinal : rangeOrdinal (some key) = some key := exact
  rw [WindowRows.accepted, WindowRows.accepted, isKey, ordinal, any_some, any_some,
    WindowRows.atOrAfter, WindowRows.atOrBefore, numberLE_iff target exact,
      numberLE_iff exact target,
    NotBefore, NotAfter, limit_of_offset? isOffset, place_current, current, place, isKey]
  simp [SortOrder.shift, ascending]

/-- A row without a key is looked at only where it is on the other side of the keys. -/
theorem judged_of_key {found : Nat} (bound' : found < rows.totalRows)
    (isKeyed : (rows.orderByValues found).isSome) :
    (rows.NotBefore bound found → index ≤ rows.rangeOffsetStart offset →
      (rows.accepted (WindowRows.atOrAfter value offset) index = true ↔
        rows.NotBefore bound index)) ∧
    (rows.NotAfter bound found → rows.rangeOffsetEnd offset ≤ index →
      (rows.accepted (WindowRows.atOrBefore value offset) index = true ↔
        rows.NotAfter bound index)) := by
  have ordinal : rangeOrdinal (some value) = some value := keys _ rows.inside value current
  obtain ⟨key, isFound⟩ := isSome_iff_exists.mp isKeyed
  have atFound := accepted_of_key current ascending keys isOffset target bound' isFound
  cases isKey : rows.orderByValues index with
  | some key =>
    have atIndex := accepted_of_key current ascending keys isOffset target inside isKey
    exact ⟨fun _ _ => atIndex.1, fun _ _ => atIndex.2⟩
  | none =>
    unfold WindowRows.rangeOffsetStart WindowRows.rangeOffsetEnd
    rw [current, ordinal]
    refine ⟨fun fits visited => iff_of_false ?_ fun isFit => ?_,
      fun fits visited => iff_of_false ?_ fun isFit => ?_⟩
    · simp [WindowRows.accepted, isKey, rangeOrdinal]
    · have reached : rows.firstIndex (WindowRows.atOrAfter value offset) rows.totalRows 0 ≤ found :=
        (WindowRows.firstIndex_le_iff (by omega)).mpr
          ⟨found, ⟨le_rfl, Nat.zero_le _⟩, atFound.1.mpr fits⟩
      have inOrder := rows.sorted index found (visited.trans reached) bound'
      rw [isKey, isFound] at inOrder
      rw [NotBefore, limit_of_offset? isOffset, place_current, current, place, isKey] at isFit
      cases nulls : order.nullsFirst <;> simp [SortOrder.shift, nulls] at isFit inOrder
    · simp [WindowRows.accepted, isKey, rangeOrdinal]
    · have reached := WindowRows.le_lastIndex_iff.mpr ⟨found, ⟨le_rfl, bound'⟩, atFound.2.mpr fits⟩
      have inOrder := rows.sorted found index (Nat.cast_le.mp (reached.trans visited)) inside
      rw [isKey, isFound] at inOrder
      rw [NotAfter, limit_of_offset? isOffset, place_current, current, place, isKey] at isFit
      cases nulls : order.nullsFirst <;> simp [SortOrder.shift, nulls] at isFit inOrder

omit current ascending keys isOffset target inside

theorem judged_of_readable (range : frame.type = .range)
    (readable : ∀ value ∈ rows.currentVals, frame.Readable rows value) :
    rows.StartJudged frame.start ∧ rows.EndJudged frame.last := by
  cases current : rows.currentVals with
  | none => exact ⟨(judged_of_keyless current).1, (judged_of_keyless current).2⟩
  | some value =>
    obtain ⟨ascending, read, targets, keys, found, bound, isKeyed, covers⟩ := readable value current
    have ordinal : rangeOrdinal (some value) = some value := keys _ rows.inside value current
    obtain ⟨lower, upper⟩ := (covers_range range).mp covers
    have first := List.mem_cons_self (a := frame.start) (l := [frame.last])
    have last : frame.last ∈ [frame.start, frame.last] := List.mem_cons_of_mem _ List.mem_cons_self
    constructor <;> intro offset isRead <;> rw [current, ordinal] <;> intro index inside visited
    · have isOffset := Except.ok.inj ((read _ first).symm.trans isRead)
      exact (judged_of_key current ascending keys isOffset (targets _ first offset isOffset)
        inside bound
        isKeyed).1 lower visited
    · have isOffset := Except.ok.inj ((read _ last).symm.trans isRead)
      exact (judged_of_key current ascending keys isOffset (targets _ last offset isOffset)
        inside bound
        isKeyed).2 upper visited

end Readable

end Partition

namespace WindowRows

variable {bound : WindowFrameBound} {start stop : Int}

theorem findLastPeer_le (left last : Nat) : rows.findLastPeer left last ≤ last + left := by
  induction left generalizing last with
  | zero => exact le_rfl
  | succ left ih =>
    unfold findLastPeer
    split
    · exact (ih (last + 1)).trans (by omega)
    · omega

theorem lastIndex_lt (count : Nat) : rows.lastIndex accepts count < count := by
  by_contra beyond
  obtain ⟨found, between, -⟩ := le_lastIndex_iff.mp (not_lt.mp beyond)
  omega

theorem startIndex_nonneg (isStart : rows.startIndex .range bound = .ok start) : 0 ≤ start := by
  cases bound with
  | unboundedPreceding | unboundedFollowing | currentRow => cases isStart; omega
  | preceding value | following value =>
    cases isRead : getFrameOffset value <;>
      simp only [startIndex, isRead, Except.map, reduceCtorEq, Except.ok.injEq] at isStart
    rw [← isStart]
    exact Int.natCast_nonneg _

theorem endIndex_lt (isStop : rows.endIndex .range bound = .ok stop) : stop < rows.totalRows := by
  have inside := rows.inside
  have peer : rows.lastPeer < rows.totalRows := lt_of_le_of_lt (findLastPeer_le _ _) (by omega)
  cases bound with
  | unboundedPreceding | unboundedFollowing | currentRow => cases isStop; omega
  | preceding value | following value =>
    cases isRead : getFrameOffset value <;>
      simp only [endIndex, isRead, Except.map, reduceCtorEq, Except.ok.injEq] at isStop
    rw [← isStop, endAt, rangeOffsetEnd]
    split
    · exact_mod_cast peer
    · exact lastIndex_lt _

/-- A bound of a ROWS frame is where it should be after it is clamped. -/
theorem startIndex_rows_le_iff (inside : index < rows.totalRows)
    (legal : bound ≠ .unboundedFollowing)
    (isStart : rows.startIndex .rows bound = .ok start) :
    max 0 start ≤ index ↔ bound.limit (fun offset => Place.at (rows.currentIndex + offset)) ≤
      Place.at (index + 0) := by
  have array := rows.isArray
  have current := rows.inside
  rw [max_le_iff, and_iff_right (Int.natCast_nonneg index)]
  cases bound with
  | unboundedPreceding =>
    cases isStart
    exact iff_of_true (by omega) bot_le
  | unboundedFollowing => exact absurd rfl legal
  | currentRow =>
    cases isStart
    simp [WindowFrameBound.limit]
  | preceding value | following value =>
    cases isRead : getFrameOffset value <;>
      simp only [startIndex, isRead, Except.map, reduceCtorEq, Except.ok.injEq] at isStart
    next offset =>
    rw [← isStart, startAt, rounded_le_iff (by omega), WindowFrameBound.limit, Place.at_le_at]
    have below := le_getFrameOffset_iff isRead (rows.currentIndex - index) (by omega)
    have above := getFrameOffset_le_iff isRead (index - rows.currentIndex) (by omega)
    omega

/-- The rows up to the end of a `ROWS` frame. -/
theorem le_endIndex_rows_iff (inside : index < rows.totalRows) (legal : bound ≠ .unboundedPreceding)
    (isStop : rows.endIndex .rows bound = .ok stop) :
    index ≤ min (rows.totalRows - 1 : Int) stop ↔
      Place.at (index + 0) ≤ bound.limit (fun offset => Place.at (rows.currentIndex + offset)) := by
  have array := rows.isArray
  have current := rows.inside
  rw [le_min_iff, and_iff_right (by omega)]
  cases bound with
  | unboundedPreceding => exact absurd rfl legal
  | unboundedFollowing =>
    cases isStop
    exact iff_of_true (by omega) le_top
  | currentRow =>
    cases isStop
    simp [WindowFrameBound.limit]
  | preceding value | following value =>
    cases isRead : getFrameOffset value <;>
      simp only [endIndex, isRead, Except.map, reduceCtorEq, Except.ok.injEq] at isStop
    next offset =>
    rw [← isStop, endAt, le_rounded_iff (by omega), WindowFrameBound.limit, Place.at_le_at]
    have below := le_getFrameOffset_iff isRead (index - rows.currentIndex) (by omega)
    have above := getFrameOffset_le_iff isRead (rows.currentIndex - index) (by omega)
    omega

end WindowRows

/-- The positions of an interval are those of the rows it is to cover. It is empty, with
its end before its start, if there is none. -/
structure Encloses (bounds : Int × Int) (totalRows : Nat) (covers : Nat → Prop) : Prop where
  positions : ∀ position : Int, bounds.1 ≤ position ∧ position ≤ bounds.2 ↔
    ∃ index : Nat, position = index ∧ index < totalRows ∧ covers index
  empty : bounds.2 < bounds.1 ↔ ∀ index < totalRows, ¬ covers index

theorem encloses_of_agrees {totalRows : Nat} {covers : Nat → Prop} {start stop current : Int}
    (lower : 0 ≤ start) (upper : stop < totalRows)
    (agrees : ∀ index < totalRows, covers index ↔ start ≤ index ∧ index ≤ stop) :
    Encloses (if start > stop then (current + 1, current) else (start, stop)) totalRows covers := by
  have rows : ∀ position : Int, start ≤ position ∧ position ≤ stop ↔
      ∃ index : Nat, position = index ∧ index < totalRows ∧ covers index := by
    intro position
    constructor
    · intro between
      obtain ⟨index, rfl⟩ := Int.eq_ofNat_of_zero_le (lower.trans between.1)
      exact ⟨index, rfl, by omega, (agrees index (by omega)).mpr between⟩
    · rintro ⟨index, rfl, inside, covered⟩
      exact (agrees index inside).mp covered
  split
  · next inverted =>
    refine ⟨fun position => ?_, iff_of_true (by simp) fun index inside covered => ?_⟩
    · rw [← rows]
      omega
    · have between := (agrees index inside).mp covered
      omega
  · next ordered =>
    refine ⟨rows, iff_of_false ordered fun empty => ?_⟩
    obtain ⟨index, -, inside, covered⟩ := (rows start).mp ⟨le_rfl, not_lt.mp ordered⟩
    exact empty index inside covered

/-- The interval between two positions is right exactly if each position is where its side
of the frame begins or ends, or if both interval and frame are empty. -/
theorem encloses_iff {totalRows : Nat} {lower upper : Nat → Prop} {start stop current : Int}
    (later : ∀ low high, low ≤ high → high < totalRows → lower low → lower high)
    (earlier : ∀ low high, low ≤ high → high < totalRows → upper high → upper low)
    (nonneg : 0 ≤ start) (bounded : stop < totalRows) :
    Encloses (if start > stop then (current + 1, current) else (start, stop)) totalRows
        (fun index => lower index ∧ upper index) ↔
      ((∀ index < totalRows, (start ≤ index ↔ lower index)) ∧
        ∀ index < totalRows, (index ≤ stop ↔ upper index)) ∨
      stop < start ∧ ∀ index < totalRows, ¬ (lower index ∧ upper index) := by
  constructor
  · intro encloses
    by_cases inverted : stop < start
    · refine .inr ⟨inverted, encloses.empty.mp ?_⟩
      rw [if_pos inverted]
      exact Int.lt_succ current
    · rw [if_neg inverted] at encloses
      have covered :
          ∀ index < totalRows, (start ≤ index ∧ index ≤ stop ↔ lower index ∧ upper index) := by
        intro index inside
        rw [encloses.positions index]
        exact ⟨fun ⟨other, same, _, covers⟩ => Nat.cast_injective same ▸ covers,
          fun covers => ⟨index, rfl, inside, covers⟩⟩
      obtain ⟨first, rfl⟩ := Int.eq_ofNat_of_zero_le nonneg
      obtain ⟨last, rfl⟩ := Int.eq_ofNat_of_zero_le (nonneg.trans (not_lt.mp inverted))
      have firstIn := (covered first (by omega)).mp (by omega)
      have lastIn := (covered last (by omega)).mp (by omega)
      refine .inl ⟨fun index inside => ⟨fun le => ?_, fun isLower => ?_⟩,
        fun index inside => ⟨fun le => ?_, fun isUpper => ?_⟩⟩
      · exact later first index (by omega) inside firstIn.1
      · by_contra before
        have isUpper := earlier index last (by omega) (by omega) lastIn.2
        exact before ((covered index inside).mpr ⟨isLower, isUpper⟩).1
      · exact earlier index last (by omega) (by omega) lastIn.2
      · by_contra after
        have isLower := later first index (by omega) inside firstIn.1
        exact after ((covered index inside).mpr ⟨isLower, isUpper⟩).2
  · rintro (⟨isStart, isStop⟩ | ⟨inverted, empty⟩)
    · exact encloses_of_agrees nonneg bounded fun index inside =>
        and_congr (isStart index inside).symm (isStop index inside).symm
    · exact encloses_of_agrees nonneg bounded fun index inside =>
        iff_of_false (empty index inside) (by omega)

/-- The frame of a window without one. -/
def defaultFrame : WindowFrame := ⟨.range, .unboundedPreceding, some .currentRow⟩

section Bounds

variable {rows : Partition order} {frame : WindowFrame}

theorem getFrameBounds_some_iff {P : Int × Int → Prop} :
    (∃ bounds, rows.getFrameBounds (some frame) true = .ok bounds ∧ P bounds) ↔
      ∃ start stop, rows.startIndex frame.type frame.start = .ok start ∧
        rows.endIndex frame.type frame.last = .ok stop ∧
          P (rows.interval frame.type start stop) := by
  unfold WindowRows.getFrameBounds
  dsimp only
  cases rows.startIndex frame.type frame.start <;> cases rows.endIndex frame.type frame.last <;>
    simp [bind, Except.bind, pure, Except.pure]

variable {start stop : Int}

/-- A `ROWS` frame has the rows it covers. -/
theorem interval_rows_encloses (isRows : frame.type = .rows) (legal : frame.Legal)
    (isStart : rows.startIndex .rows frame.start = .ok start)
    (isStop : rows.endIndex .rows frame.last = .ok stop) :
    Encloses (rows.interval .rows start stop) rows.totalRows (frame.Covers rows) := by
  refine encloses_of_agrees (le_max_left _ _) (by omega) fun index inside => ?_
  unfold WindowFrame.Covers
  rw [isRows, WindowRows.startIndex_rows_le_iff inside legal.1 isStart,
    WindowRows.le_endIndex_rows_iff inside legal.2 isStop]

/-- A `RANGE` frame does exactly when both its bounds are judged, or when it is empty and covers
none. -/
theorem interval_range_encloses_iff (isRange : frame.type = .range) (legal : frame.Legal)
    (isStart : rows.startIndex .range frame.start = .ok start)
    (isStop : rows.endIndex .range frame.last = .ok stop) :
    Encloses (rows.interval .range start stop) rows.totalRows (frame.Covers rows) ↔
      rows.StartJudged frame.start ∧ rows.EndJudged frame.last ∨
        rows.interval .range start stop =
          ((rows.currentIndex + 1 : Int), (rows.currentIndex : Int)) ∧
        ∀ index < rows.totalRows, ¬ frame.Covers rows index := by
  have covers : frame.Covers rows =
      fun index => rows.NotBefore frame.start index ∧ rows.NotAfter frame.last index :=
    funext fun index => propext (Partition.covers_range isRange)
  have empty : rows.interval .range start stop =
      ((rows.currentIndex + 1 : Int), (rows.currentIndex : Int)) ↔ stop < start := by
    unfold WindowRows.interval
    by_cases inverted : stop < start
    · simp [inverted]
    · simp [inverted]
      omega
  rw [empty, covers, Partition.startIndex_judged_iff legal.1 isStart,
    Partition.endIndex_judged_iff legal.2 isStop]
  exact encloses_iff (fun _ _ => Partition.NotBefore.later) (fun _ _ => Partition.NotAfter.earlier)
    (WindowRows.startIndex_nonneg isStart) (WindowRows.endIndex_lt isStop)

end Bounds

/-- Three rows, of which the middle one is the current one. -/
def threeRows (first middle last : Int)
    (before : order.shift (some first) 0 ≤ order.shift (some middle) 0)
    (after : order.shift (some middle) 0 ≤ order.shift (some last) 0) : Partition order where
  totalRows := 3
  orderByValues index := [some first, some middle, some last].getD index none
  currentIndex := 1
  inside := by decide
  isArray := by decide
  sorted := by
    intro low high le inside
    interval_cases high <;> interval_cases low
    exacts [le_rfl, before, le_rfl, before.trans after, after, le_rfl]

def ascendingRows : Partition ⟨false, true⟩ := threeRows 1 3 5 (by decide) (by decide)

def descendingRows : Partition ⟨true, false⟩ := threeRows 5 3 1 (by decide) (by decide)

end Quereus.Runtime
