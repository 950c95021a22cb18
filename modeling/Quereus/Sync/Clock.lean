import Mathlib.Order.Defs.LinearOrder
import Mathlib.Data.List.Induction
import Mathlib.Data.List.Sort

/-! # Hybrid logical clocks

The timestamps of the sync layer and the clock of one replica. Every fact has an
origin timestamp, and timestamps are totally ordered by wall time, counter, site
and position inside the transaction, in this order. A replica merges the
timestamps it receives into its clock and ticks past them for its own use.
-/

namespace Quereus.Sync

open List

abbrev SiteId := List UInt8

/-- A hybrid logical clock timestamp. -/
structure HLC where
  wallTime : Nat
  counter : Nat
  siteId : SiteId
  opSeq : Nat
  deriving DecidableEq, Repr

/-- Site identifiers are compared byte by byte, a proper prefix first. -/
def compareSiteIds (first second : SiteId) : Ordering :=
  compare first second

def compareHLC (first second : HLC) : Ordering :=
  (compare first.wallTime second.wallTime).then <|
    (compare first.counter second.counter).then <|
      (compareSiteIds first.siteId second.siteId).then <|
        compare first.opSeq second.opSeq

instance : Std.TransCmp compareHLC :=
  inferInstanceAs
    (Std.TransCmp (compareLex (compareOn HLC.wallTime) (compareLex (compareOn HLC.counter)
    (compareLex (compareOn HLC.siteId) (compareOn HLC.opSeq)))))

instance : Std.LawfulEqCmp compareHLC where
  eq_of_compare := by
    rintro ⟨wallTime, counter, siteId, opSeq⟩ ⟨wallTime', counter', siteId', opSeq'⟩ equal
    simp only [compareHLC, compareSiteIds, Ordering.then_eq_eq, Std.LawfulEqOrd.compare_eq_iff_eq]
      at equal
    obtain ⟨rfl, rfl, rfl, rfl⟩ := equal
    rfl

theorem compareHLC_swap (first second : HLC) :
    compareHLC second first = (compareHLC first second).swap :=
  Std.OrientedCmp.eq_swap

/-- The order of timestamps is the order `compareHLC` decides. -/
instance : LinearOrder HLC where
  le first second := (compareHLC first second).isLE
  lt first second := compareHLC first second = .lt
  le_refl first := by simp [Std.ReflCmp.compare_self]
  le_trans _ _ _ := Std.TransCmp.isLE_trans
  lt_iff_le_not_ge first second := by
    rw [compareHLC_swap first second]
    cases compareHLC first second <;> decide
  le_antisymm first second below above := by
    rw [compareHLC_swap first second] at above
    have equal : compareHLC first second = .eq := by
      revert below above
      cases compareHLC first second <;> decide
    exact Std.LawfulEqCmp.eq_of_compare equal
  le_total first second := by
    rw [compareHLC_swap first second]
    cases compareHLC first second <;> decide
  toDecidableEq := inferInstance
  toDecidableLE first second := inferInstanceAs (Decidable ((compareHLC first second).isLE = true))
  toDecidableLT first second := inferInstanceAs (Decidable (compareHLC first second = .lt))

def keepGreater : Option HLC → HLC → Option HLC
  | none, stamp => some stamp
  | some greatest, stamp => if greatest < stamp then some stamp else some greatest

/-- The greatest timestamp of a list, if any. -/
def maxHLC (stamps : List HLC) : Option HLC :=
  stamps.foldl keepGreater none

theorem maxHLC_mem {stamps : List HLC} {greatest : HLC} (found : maxHLC stamps = some greatest) :
    greatest ∈ stamps := by
  induction stamps using reverseRecOn generalizing greatest with
  | nil => simp [maxHLC] at found
  | append_singleton stamps last ih =>
    have last_step : maxHLC (stamps ++ [last]) = keepGreater (maxHLC stamps) last := by
      simp [maxHLC]
    rw [last_step] at found
    rw [mem_append, mem_singleton]
    cases earlier : maxHLC stamps with
    | none =>
      rw [earlier] at found
      exact Or.inr (Option.some.inj found).symm
    | some best =>
      rw [earlier, keepGreater] at found
      split at found
      · exact Or.inr (Option.some.inj found).symm
      · exact Or.inl (ih (earlier.trans found))

theorem keepGreater_isSome (earlier : Option HLC) (stamp : HLC) :
    ∃ greatest, keepGreater earlier stamp = some greatest ∧ stamp ≤ greatest ∧
      ∀ best ∈ earlier, best ≤ greatest := by
  cases earlier with
  | none => exact ⟨stamp, rfl, le_refl stamp, nofun⟩
  | some best =>
    rw [keepGreater]
    split
    · rename_i above
      exact ⟨stamp, rfl, le_refl stamp, fun other found => Option.mem_some.mp found ▸ above.le⟩
    · rename_i below
      exact ⟨best, rfl, not_lt.mp below, fun other found => (Option.mem_some.mp found).ge⟩

/-- A list with a timestamp has a greatest one. -/
theorem exists_maxHLC {stamps : List HLC} {stamp : HLC} (member : stamp ∈ stamps) :
    ∃ greatest, maxHLC stamps = some greatest ∧ stamp ≤ greatest := by
  induction stamps using reverseRecOn with
  | nil => simp at member
  | append_singleton stamps last ih =>
    have last_step : maxHLC (stamps ++ [last]) = keepGreater (maxHLC stamps) last := by
      simp [maxHLC]
    obtain ⟨greatest, found, above_last, above_earlier⟩ := keepGreater_isSome (maxHLC stamps) last
    refine ⟨greatest, last_step.trans found, ?_⟩
    rcases mem_append.mp member with earlier | final
    · obtain ⟨best, best_found, below⟩ := ih earlier
      exact below.trans (above_earlier best best_found)
    · exact mem_singleton.mp final ▸ above_last

def MAX_COUNTER : Nat := 0xFFFF

def MAX_OPSEQ : Nat := 0xFFFFFFFF

def MAX_DRIFT_MS : Nat := 60000

/-- Why a batch of changes was refused. -/
inductive ApplyError where
  /-- A timestamp lies this many milliseconds beyond the local wall clock. -/
  | drift (ahead : Nat)
  /-- One filing tick has no position left for a further fact. -/
  | tickFull
  deriving DecidableEq, Repr

def ApplyError.message : ApplyError → String
  | .drift ahead =>
    "Remote clock too far in future: " ++ toString ahead ++ "ms ahead (max " ++
      toString MAX_DRIFT_MS ++ "ms)"
  | .tickFull => "A filing tick holds at most " ++ toString (MAX_OPSEQ + 1) ++ " facts"

def assertWithinDrift (remoteWallTime now : Nat) : Except ApplyError Unit :=
  if now + MAX_DRIFT_MS < remoteWallTime then .error (.drift (remoteWallTime - now)) else .ok ()

/-- The state of a replica's clock. -/
structure HLCManager where
  wallTime : Nat
  counter : Nat
  deriving DecidableEq, Repr

namespace HLCManager

/-- A counter past its bound moves the clock to the next millisecond. -/
def carry (clock : HLCManager) : HLCManager :=
  if MAX_COUNTER < clock.counter then ⟨clock.wallTime + 1, 0⟩ else clock

/-- Advance the clock for a local event at wall time `now`. -/
def tick (clock : HLCManager) (now : Nat) : HLCManager :=
  if clock.wallTime < now then ⟨now, 0⟩ else carry ⟨clock.wallTime, clock.counter + 1⟩

/-- Merge a received timestamp into the clock at wall time `now`. -/
def receive (clock : HLCManager) (now : Nat) (remote : HLC) : Except ApplyError HLCManager := do
  assertWithinDrift remote.wallTime now
  let maxWall := max now (max clock.wallTime remote.wallTime)
  pure <| carry <|
    if maxWall = clock.wallTime ∧ maxWall = remote.wallTime then
      ⟨clock.wallTime, max clock.counter remote.counter + 1⟩
    else if maxWall = clock.wallTime then ⟨clock.wallTime, clock.counter + 1⟩
    else if maxWall = remote.wallTime then ⟨remote.wallTime, remote.counter + 1⟩
    else ⟨maxWall, 0⟩

/-- The timestamp a clock state stands for on its replica. -/
def stamp (clock : HLCManager) (siteId : SiteId) : HLC :=
  ⟨clock.wallTime, clock.counter, siteId, 0⟩

end HLCManager

/-- The position of the fact at `index` among those filed at one tick. -/
def positionsFrom (tick : HLC) (index : Nat) : Except ApplyError HLC :=
  if MAX_OPSEQ < index then .error .tickFull else .ok { tick with opSeq := index }

/-- An earlier wall time, or an earlier counter at the same wall time. -/
def HLC.Earlier (first second : HLC) : Prop :=
  first.wallTime < second.wallTime ∨
    first.wallTime = second.wallTime ∧ first.counter < second.counter

theorem HLC.Earlier.trans {first second third : HLC} (before : first.Earlier second)
    (after : second.Earlier third) : first.Earlier third := by
  unfold Earlier at *
  omega

/-- A call to the clock, with what the wall clock shows. -/
inductive ClockCall where
  | tick (now : Nat)
  | receive (now : Nat) (remote : HLC)

/-- A call, the clock before and after it, and the timestamp it issues or why it refuses. -/
structure ClockAnswer where
  call : ClockCall
  before : HLCManager
  after : HLCManager
  result : Except ApplyError HLC

namespace ClockAnswer

/-- The call issues the timestamp. -/
def Issues (answer : ClockAnswer) (stamp : HLC) : Prop :=
  answer.result = .ok stamp

/-- The call merges the remote timestamp into the clock. -/
def Accepts (answer : ClockAnswer) (remote : HLC) : Prop :=
  (∃ now, answer.call = .receive now remote) ∧ ∃ stamp, answer.Issues stamp

end ClockAnswer

namespace HLCManager

def respond (clock : HLCManager) : ClockCall → Except ApplyError HLCManager
  | .tick now => .ok (clock.tick now)
  | .receive now remote => clock.receive now remote

/-- A call that throws has not written to the clock. -/
def answers (siteId : SiteId) : HLCManager → List ClockCall → List ClockAnswer
  | _, [] => []
  | clock, call :: calls =>
    match clock.respond call with
    | .ok next => ⟨call, clock, next, .ok (next.stamp siteId)⟩ :: answers siteId next calls
    | .error refusal => ⟨call, clock, clock, .error refusal⟩ :: answers siteId clock calls

variable {clock next : HLCManager} {remote : HLC} (siteId : SiteId)

theorem carry_counter (clock : HLCManager) : clock.carry.counter ≤ MAX_COUNTER := by
  unfold carry
  split
  · exact Nat.zero_le _
  · next within => exact Nat.le_of_not_lt within

theorem earlier_carry (earlier : remote.Earlier (clock.stamp siteId)) :
    remote.Earlier (clock.carry.stamp siteId) := by
  unfold carry
  split
  · unfold HLC.Earlier stamp at *
    dsimp only at *
    omega
  · exact earlier

/-- A clock that answers is past its old state and past a timestamp it accepts. -/
theorem respond_spec {call : ClockCall} (responded : clock.respond call = .ok next) :
    (clock.stamp siteId).Earlier (next.stamp siteId) ∧ next.counter ≤ MAX_COUNTER ∧
      ∀ now remote, call = .receive now remote → remote.Earlier (next.stamp siteId) := by
  cases call with
  | tick now =>
    obtain rfl := Except.ok.inj responded
    unfold tick
    split
    · next later => exact ⟨.inl later, Nat.zero_le _, nofun⟩
    · exact ⟨earlier_carry siteId (.inr ⟨rfl, Nat.lt_succ_self _⟩), carry_counter _, nofun⟩
  | receive now remote =>
    simp only [respond, receive, assertWithinDrift] at responded
    split at responded
    · cases responded
    obtain rfl := Except.ok.inj responded
    refine ⟨earlier_carry siteId ?_, carry_counter _, ?_⟩
    · unfold HLC.Earlier stamp
      split_ifs <;> dsimp only <;> omega
    · rintro now remote ⟨⟩
      refine earlier_carry siteId ?_
      unfold HLC.Earlier stamp
      split_ifs <;> dsimp only <;> omega

theorem answers_later (calls : List ClockCall) (clock : HLCManager) :
    ∀ answer ∈ clock.answers siteId calls, ∀ stamp, answer.Issues stamp →
      (clock.stamp siteId).Earlier stamp := by
  induction calls generalizing clock with
  | nil => nofun
  | cons call calls ih =>
    unfold answers
    cases responded : clock.respond call with
    | error refusal => exact forall_mem_cons.mpr ⟨nofun, ih clock⟩
    | ok next =>
      have later := (respond_spec siteId responded).1
      refine forall_mem_cons.mpr ⟨?_, fun answer member stamp issues => ?_⟩
      · rintro _ ⟨⟩
        exact later
      · exact later.trans (ih next answer member stamp issues)

/-- **The clock only moves forward**, whatever the wall clock shows: what a call issues is past
all that was issued or accepted before it and past what the call itself accepts, its counter is
within the bound, and a call that is refused leaves the clock as it was. -/
theorem answers_monotone (siteId : SiteId) (clock : HLCManager) (calls : List ClockCall) :
    ((clock.answers siteId calls).Pairwise fun earlier later => ∀ stamp, later.Issues stamp →
      (∀ issued, earlier.Issues issued → issued.Earlier stamp) ∧
        ∀ remote, earlier.Accepts remote → remote.Earlier stamp) ∧
      ∀ answer ∈ clock.answers siteId calls,
        (∀ stamp, answer.Issues stamp → stamp.counter ≤ MAX_COUNTER ∧
          ∀ remote, answer.Accepts remote → remote.Earlier stamp) ∧
        ∀ refusal, answer.result = .error refusal → answer.after = answer.before := by
  induction calls generalizing clock with
  | nil => exact ⟨.nil, nofun⟩
  | cons call calls ih =>
    unfold answers
    cases responded : clock.respond call with
    | error refusal =>
      obtain ⟨apart, each⟩ := ih clock
      refine ⟨.cons (fun later _ stamp _ => ⟨nofun, ?_⟩) apart, forall_mem_cons.mpr ⟨?_, each⟩⟩
      · rintro remote ⟨-, _, ⟨⟩⟩
      · exact ⟨nofun, fun _ _ => rfl⟩
    | ok next =>
      obtain ⟨apart, each⟩ := ih next
      obtain ⟨-, counter, foreign⟩ := respond_spec siteId responded
      refine ⟨.cons (fun later member stamp issues => ?_) apart, forall_mem_cons.mpr ⟨?_, each⟩⟩
      · have beyond := answers_later siteId calls next later member stamp issues
        refine ⟨?_, ?_⟩
        · rintro _ ⟨⟩
          exact beyond
        · rintro remote ⟨⟨now, received⟩, -⟩
          exact (foreign now remote received).trans beyond
      · refine ⟨?_, nofun⟩
        rintro _ ⟨⟩
        exact ⟨counter, fun remote ⟨⟨now, received⟩, _⟩ => foreign now remote received⟩

end HLCManager

end Quereus.Sync
