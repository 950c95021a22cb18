import Mathlib.Algebra.Order.Group.Nat
import Mathlib.Data.List.Induction

/-! # Latches

`latches.ts` serializes the callers of a key through a chain of promises: a call waits for the
promise that was the tail of the key when it came, and its own is resolved by its release. A
waiter that times out resolves its promise too, while an earlier call may still hold the latch.
-/

namespace Quereus.Util

open Function List

/-- A call of `acquire`. Its place among the calls of its key stands for its promise `newTail`. -/
structure LatchCall where
  timeoutMs : Option Nat
  currentTail : Option Nat

inductive LatchPhase
  | waiting
  | holding
  | released
  | timedOut
deriving DecidableEq

/-- Whether the promise of the call is resolved. -/
def LatchPhase.settled : LatchPhase → Bool
  | .waiting | .holding => false
  | .released | .timedOut => true

/-- The calls for one key, and the entry of the key in `lockQueues`. -/
structure LatchQueue where
  calls : List LatchCall
  phase : Nat → LatchPhase
  tail : Option Nat

/-- A call, the end of its wait, its release by the holder, the expiry of its timer. -/
inductive LatchEvent
  | acquire (timeoutMs : Option Nat)
  | resume (index : Nat)
  | release (index : Nat)
  | expire (index : Nat)

namespace LatchQueue

variable (queue : LatchQueue)

def acquire (timeoutMs : Option Nat) : LatchQueue where
  calls := queue.calls ++ [⟨timeoutMs, queue.tail⟩]
  phase := update queue.phase queue.calls.length .waiting
  tail := some queue.calls.length

/-- The inner function `release`. The phase says who called it, the holder or the timer. -/
def release (index : Nat) (phase : LatchPhase) : LatchQueue where
  calls := queue.calls
  phase := update queue.phase index phase
  tail := if queue.tail = some index then none else queue.tail

/-- Whether the promise that the call waits for is resolved. -/
def awaited (call : LatchCall) : Bool :=
  call.currentTail.all fun last => (queue.phase last).settled

/-- An event that cannot happen changes nothing. -/
def step : LatchEvent → LatchQueue
  | .acquire timeoutMs => queue.acquire timeoutMs
  | .resume index =>
    if queue.phase index = .waiting ∧ queue.calls[index]?.any queue.awaited then
      { queue with phase := update queue.phase index .holding }
    else queue
  | .release index => if queue.phase index = .holding then queue.release index .released else queue
  | .expire index =>
    if queue.phase index = .waiting ∧ queue.calls[index]?.any (·.timeoutMs.isSome) then
      queue.release index .timedOut
    else queue

/-- The calls that stand before a place, seen from the tail there: without a tail they are over. -/
def Follows (tail : Option Nat) (place : Nat) : Prop :=
  match tail with
  | none => ∀ earlier < place, (queue.phase earlier).settled
  | some last => last + 1 = place

/-- The chain of promises keeps the calls in order. -/
structure Ordered : Prop where
  queued : queue.Follows queue.tail queue.calls.length
  waits : ∀ index call, queue.calls[index]? = some call → queue.Follows call.currentTail index
  granted : ∀ index, queue.phase index ≠ .waiting →
    index < queue.calls.length ∧ queue.Follows none index

variable {queue} {tail : Option Nat} {place index : Nat} (ordered : queue.Ordered)

include ordered

/-- Behind a tail that is resolved all calls are over. -/
theorem Ordered.over_of_resolved (follows : queue.Follows tail place)
    (resolved : tail.all fun last => (queue.phase last).settled) : queue.Follows none place := by
  cases tail with
  | none => exact follows
  | some last =>
    intro earlier before
    have started : queue.phase last ≠ .waiting := fun waiting => by
      simp [waiting, LatchPhase.settled] at resolved
    rcases Nat.lt_succ_iff_lt_or_eq.mp (before.trans_eq follows.symm) with ahead | rfl
    · exact (ordered.granted last started).2 earlier ahead
    · exact resolved

omit ordered in
theorem Follows.grow {later : LatchQueue} (follows : queue.Follows tail place)
    (kept : ∀ earlier < place, (queue.phase earlier).settled → (later.phase earlier).settled) :
    later.Follows tail place := by
  cases tail with
  | none => exact fun earlier before => kept earlier before (follows earlier before)
  | some last => exact follows

/-- A call moves on once the calls before it are over. -/
theorem Ordered.move (inside : index < queue.calls.length) (before : queue.Follows none index)
    (pending : (queue.phase index).settled = false) (phase : LatchPhase) :
    Ordered { queue with phase := update queue.phase index phase } := by
  have kept : ∀ place, (queue.phase place).settled →
      (update queue.phase index phase place).settled := by
    grind
  refine ⟨ordered.queued.grow fun _ _ => kept _,
    fun place call found => (ordered.waits place call found).grow fun _ _ => kept _,
    fun place started => ?_⟩
  by_cases here : place = index
  · subst here
    exact ⟨inside, before.grow fun _ _ => kept _⟩
  · refine (ordered.granted place ?_).imp_right fun past => past.grow fun _ _ => kept _
    simpa [here] using started

theorem Ordered.acquire (timeoutMs : Option Nat) : (queue.acquire timeoutMs).Ordered := by
  have same : ∀ place, place ≠ queue.calls.length →
      (queue.acquire timeoutMs).phase place = queue.phase place :=
    fun place other => update_of_ne other ..
  have grow : ∀ {tail place}, place ≤ queue.calls.length → queue.Follows tail place →
      (queue.acquire timeoutMs).Follows tail place := fun inside follows =>
    follows.grow fun earlier before => by rw [same earlier (before.trans_le inside).ne]; exact id
  refine ⟨by simp [LatchQueue.acquire, Follows], fun place call found => ?_,
    fun place started => ?_⟩
  · rw [LatchQueue.acquire, getElem?_append] at found
    split at found
    · next inside => exact grow inside.le (ordered.waits place call found)
    · obtain ⟨rfl, rfl⟩ : place = queue.calls.length ∧ call = ⟨timeoutMs, queue.tail⟩ := by grind
      exact grow le_rfl ordered.queued
  · have old : place ≠ queue.calls.length := by
      rintro rfl
      exact started (update_self ..)
    obtain ⟨inside, past⟩ := ordered.granted place (same place old ▸ started)
    exact ⟨by simp [LatchQueue.acquire, inside.trans], grow inside.le past⟩

theorem Ordered.step {event : LatchEvent} (steady : ∀ index, event ≠ .expire index) :
    (queue.step event).Ordered := by
  rcases event with timeoutMs | index | index | index
  · exact ordered.acquire timeoutMs
  · rw [LatchQueue.step]
    split
    · next ready =>
      obtain ⟨call, found, resolved⟩ := (Option.any_eq_true ..).mp ready.2
      have before := ordered.over_of_resolved (ordered.waits index call found) resolved
      exact ordered.move (List.getElem?_eq_some_iff.mp found).1 before (ready.1 ▸ rfl) .holding
    · exact ordered
  · rw [LatchQueue.step]
    split
    · next holds =>
      obtain ⟨inside, before⟩ := ordered.granted index (by simp [holds])
      have moved := ordered.move inside before (holds ▸ rfl) .released
      refine ⟨?_, moved.waits, moved.granted⟩
      change Follows _ (if queue.tail = some index then none else queue.tail) _
      split
      · next isTail =>
        refine moved.over_of_resolved moved.queued ?_
        simp [isTail, LatchPhase.settled]
      · exact moved.queued
    · exact ordered
  · exact absurd rfl (steady index)

/-- Up to a waiting call with no holder before it, some call can be granted. -/
theorem Ordered.exists_ready (inside : index < queue.calls.length)
    (waiting : queue.phase index = .waiting)
    (free : ∀ earlier < index, queue.phase earlier ≠ .holding) :
    ∃ next ≤ index, queue.phase next = .waiting ∧
      (queue.step (.resume next)).phase next = .holding := by
  induction index using Nat.strong_induction_on with
  | _ index ih =>
    have waits := ordered.waits index _ (getElem?_eq_getElem inside)
    cases resolved : queue.awaited queue.calls[index] with
    | true => exact ⟨index, le_rfl, waiting, by simp [LatchQueue.step, inside, waiting, resolved]⟩
    | false =>
      -- The call waits for the one before it, which waits itself.
      obtain ⟨last, linked, pending⟩ := (Option.all_eq_false ..).mp resolved
      rw [linked] at waits
      have before : last < index := Nat.lt_of_succ_le waits.le
      have stands : queue.phase last = .waiting := by
        have notHolding := free last before
        revert pending notHolding
        cases queue.phase last <;> simp [LatchPhase.settled]
      obtain ⟨next, upTo, ready⟩ := ih last before (before.trans inside) stands
        fun place below => free place (below.trans before)
      exact ⟨next, upTo.trans before.le, ready⟩

end LatchQueue

variable {κ : Type} [DecidableEq κ] {events : List (κ × LatchEvent)} {key : κ}

namespace Latches

/-- The queues of all keys after the events of a run. -/
def run (events : List (κ × LatchEvent)) : κ → LatchQueue :=
  events.foldl (fun queues entry =>
    update queues entry.1 ((queues entry.1).step entry.2)) fun _ =>
      ⟨[], fun _ => .waiting, none⟩

theorem ordered_run (steady : ∀ index, (key, .expire index) ∉ events) :
    (run events key).Ordered := by
  induction events using reverseRecOn with
  | nil => constructor <;> simp [run, LatchQueue.Follows]
  | append_singleton events entry ih =>
    have before := ih fun index member => steady index (mem_append_left _ member)
    obtain ⟨other, event⟩ := entry
    rw [run, foldl_append, foldl_cons, foldl_nil, update_apply]
    split
    · next same =>
      subst same
      refine before.step ?_
      rintro index rfl
      exact steady index (mem_append_right _ mem_cons_self)
    · exact before

end Latches

end Quereus.Util
