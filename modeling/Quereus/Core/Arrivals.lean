import Quereus.Core.TransactionManager

/-! # What registering connections can do

One connection is watched. Whatever other connections register while a call is
awaited, the watched one gets no call that is not legal, and if it is open, or the
transaction is closing, it gets no call at all.
-/

namespace Quereus.Core.Manager

open Fallible ConnectionRecord Registry Manager

/-- What an awaited call leaves as it is. -/
structure Kept (watched : ConnectionId) (manager after : Manager) : Prop where
  inTransaction : after.inTransaction = manager.inTransaction
  source : after.transactionSource = manager.transactionSource
  closing : after.closingTransaction = manager.closingTransaction
  stack : after.savepointStack = manager.savepointStack
  registered : watched ∈ manager.activeConnections.connections →
    watched ∈ after.activeConnections.connections

/-- Nothing happens to the watched connection. -/
structure Quiet (watched : ConnectionId) (manager after : Manager) : Prop extends
    Kept watched manager after where
  calls : (after.calls.filter fun event => event.connection = watched) =
    manager.calls.filter fun event => event.connection = watched
  opened : watched ∈ after.openConnections ↔ watched ∈ manager.openConnections

/-- The watched connection cannot join a transaction now. -/
def Shut (watched : ConnectionId) (manager : Manager) : Prop :=
  watched ∈ manager.openConnections ∨ manager.closingTransaction = true ∨
    manager.inTransaction = false

/-- All calls of the watched connection were legal, and it is idle unless it is in the
open set. -/
def Standing (strict : Bool) (watched : ConnectionId) (isOpen : ConnectionRecord → Prop)
    (manager : Manager) : Prop :=
  ∃ record, track strict watched manager.calls = some record ∧
    if watched ∈ manager.openConnections then isOpen record else record = .idle

/-- The connection is open with so many savepoints. -/
def OpenAt (strict : Bool) (depth : Nat) (record : ConnectionRecord) : Prop :=
  record.state = .opened ∧ (strict = true → record.depth = depth)

/-- The manager and the calls a watched connection has seen agree. -/
structure Sound (strict : Bool) (watched : ConnectionId) (manager : Manager) : Prop where
  standing : Standing strict watched (OpenAt strict manager.savepointStack.length) manager
  within : watched ∈ manager.openConnections → manager.inTransaction = true ∧
    watched ∈ manager.activeConnections.connections
  autocommit : manager.inTransaction = false → manager.savepointStack = []

/-- A registered connection is in the transaction. -/
def Joined (watched : ConnectionId) (manager : Manager) : Prop :=
  manager.inTransaction = true → manager.closingTransaction = false →
    watched ∈ manager.activeConnections.connections → watched ∈ manager.openConnections

variable {strict : Bool} {watched : ConnectionId} {manager : Manager}

section Frames

variable {between after : Manager} {isOpen : ConnectionRecord → Prop}

theorem Kept.refl (manager : Manager) : Kept watched manager manager :=
  ⟨rfl, rfl, rfl, rfl, id⟩

theorem Kept.trans (first : Kept watched manager between) (second : Kept watched between after) :
    Kept watched manager after :=
  ⟨second.inTransaction.trans first.inTransaction, second.source.trans first.source,
    second.closing.trans first.closing, second.stack.trans first.stack,
    fun registered => second.registered (first.registered registered)⟩

theorem Quiet.refl (manager : Manager) : Quiet watched manager manager :=
  ⟨Kept.refl manager, rfl, Iff.rfl⟩

theorem Quiet.trans (first : Quiet watched manager between) (second : Quiet watched between after) :
    Quiet watched manager after :=
  ⟨first.toKept.trans second.toKept, second.calls.trans first.calls,
    second.opened.trans first.opened⟩

variable (quiet : Quiet watched manager after)

include quiet

theorem Quiet.shut (shut : Shut watched manager) : Shut watched after := by
  unfold Shut
  rw [quiet.opened, quiet.closing, quiet.inTransaction]
  exact shut

theorem Quiet.track : track strict watched after.calls = track strict watched manager.calls := by
  unfold Core.track
  rw [quiet.calls]

theorem Quiet.standing (standing : Standing strict watched isOpen manager) :
    Standing strict watched isOpen after := by
  obtain ⟨record, tracked, shape⟩ := standing
  refine ⟨record, quiet.track.trans tracked, ?_⟩
  simp only [quiet.opened]
  exact shape

/-- Nothing the connection sees has changed. -/
theorem Quiet.sound (sound : Sound strict watched manager) : Sound strict watched after where
  standing := by
    rw [quiet.stack]
    exact quiet.standing sound.standing
  within member := by
    obtain ⟨inside, registered⟩ := sound.within (quiet.opened.mp member)
    exact ⟨quiet.inTransaction.trans inside, quiet.registered registered⟩
  autocommit ended := quiet.stack.trans (sound.autocommit (quiet.inTransaction.symm.trans ended))

omit quiet

theorem Standing.imp {isOpen' : ConnectionRecord → Prop}
    (standing : Standing strict watched isOpen manager)
    (weaker : ∀ record, isOpen record → isOpen' record) :
      Standing strict watched isOpen' manager := by
  obtain ⟨record, tracked, shape⟩ := standing
  refine ⟨record, tracked, ?_⟩
  split
  · next member => exact weaker record (by simpa only [if_pos member] using shape)
  · next absent => simpa only [if_neg absent] using shape

end Frames

/-- A predicate that stays true while allowed connections begin, and whatever arrives. -/
structure Stable (arrive : ConnectionId → Manager → Manager) (allowed : ConnectionId → Prop)
    (holds : Manager → Prop) : Prop where
  arriving : ∀ arrival manager, holds manager → holds (arrive arrival manager)
  calling : ∀ event manager, allowed event.connection → holds manager →
    holds { manager with calls := manager.calls ++ [event] }
  opening : ∀ connection manager, allowed connection → holds manager →
    holds { manager with openConnections := insert connection manager.openConnections }
  closing : ∀ connection manager, allowed connection → holds manager →
    holds { manager with openConnections := manager.openConnections.erase connection }

variable {environment : Environment} {arrive : ConnectionId → Manager → Manager}
  {connection : ConnectionId}

section Stability

variable {allowed : ConnectionId → Prop} {holds : Manager → Prop}

/-- What one arrival keeps, a list of them does. -/
theorem Stable.arrivals (stable : Stable arrive allowed holds) (arrivals : List ConnectionId)
    (start : holds manager) :
      holds (arrivals.foldl (fun manager arrival => arrive arrival manager) manager) := by
  induction arrivals generalizing manager with
  | nil => exact start
  | cons arrival arrivals ih => exact ih (stable.arriving arrival manager start)

/-- And so does a call with the arrivals during it. -/
theorem Stable.call (stable : Stable arrive allowed holds) (may : allowed connection)
    (method : LifecycleCall) (start : holds manager) :
    holds (Manager.call environment arrive connection method manager).1 :=
  stable.calling _ _ may (stable.arrivals _ start)

theorem Stable.joinConnection (stable : Stable arrive allowed holds) (may : allowed connection)
    (start : holds manager) :
      holds (Manager.joinConnection environment arrive connection manager).1 := by
  unfold Manager.joinConnection
  split
  · exact start
  · split
    · exact start
    · apply Meets.state
      refine meets_andThen holds (meets_onFailure holds ?_ ?_) ?_
      · exact meets_of_state (stable.call may _ (stable.opening _ _ may start))
      · exact fun failed => stable.closing _ _ may
      · intro begun holdsBegun
        exact eachSettled_invariant (fun _ => holds)
          (fun depth _ _ => stable.call may (.createSavepoint depth)) holdsBegun

end Stability

/-- What is asked of connections that arrive. -/
structure Harmless (strict : Bool) (watched : ConnectionId)
    (arrive : ConnectionId → Manager → Manager) : Prop where
  kept : ∀ arrival manager, Kept watched manager (arrive arrival manager)
  quiet : ∀ arrival manager, Shut watched manager → Quiet watched manager (arrive arrival manager)
  sound : ∀ arrival manager, Sound strict watched manager →
    Sound strict watched (arrive arrival manager)
  joined : ∀ arrival manager, Sound strict watched manager → Joined watched manager →
    Joined watched (arrive arrival manager)

section Harmless

variable {before : Manager}

variable (harmless : Harmless strict watched arrive) (other : connection ≠ watched)

include harmless in
theorem Harmless.stable_kept (before : Manager) :
    Stable arrive (fun _ => True) (Kept watched before) where
  arriving arrival manager kept := kept.trans (harmless.kept arrival manager)
  calling _ _ _ kept := { kept with }
  opening _ _ _ kept := { kept with }
  closing _ _ _ kept := { kept with }

/-- A change that concerns other connections only. -/
structure Apart (watched : ConnectionId) (manager after : Manager) : Prop extends
    Quiet watched manager after where
  unregistered : watched ∈ after.activeConnections.connections →
    watched ∈ manager.activeConnections.connections

include other

theorem apart_closing :
    Apart watched manager
      { manager with openConnections := manager.openConnections.erase connection } :=
  ⟨⟨⟨rfl, rfl, rfl, rfl, id⟩, rfl, by rw [Finset.mem_erase, and_iff_right other.symm]⟩, id⟩

theorem apart_delete :
    Apart watched manager
      { manager with activeConnections := manager.activeConnections.delete connection } :=
  ⟨⟨⟨rfl, rfl, rfl, rfl, fun registered => mem_delete.mpr ⟨other.symm, registered⟩⟩, rfl,
    Iff.rfl⟩, fun registered => (mem_delete.mp registered).2⟩

omit other

/-- A predicate that speaks of the watched connection only is stable if arrivals keep it. -/
theorem stable_of_apart {holds : Manager → Prop}
    (closed : ∀ manager after, Apart watched manager after → holds manager → holds after)
    (arriving : ∀ arrival manager, holds manager → holds (arrive arrival manager)) :
    Stable arrive (· ≠ watched) holds where
  arriving := arriving
  calling _ _ other := closed _ _ ⟨⟨⟨rfl, rfl, rfl, rfl, id⟩, by simp [other], Iff.rfl⟩, id⟩
  opening _ _ other := closed _ _ ⟨⟨⟨rfl, rfl, rfl, rfl, id⟩, rfl,
    by rw [Finset.mem_insert, or_iff_right other.symm]⟩, id⟩
  closing _ _ other := closed _ _ (apart_closing other)

theorem Apart.joined {after : Manager} (apart : Apart watched manager after)
    (joined : Joined watched manager) : Joined watched after := by
  unfold Joined
  rw [apart.inTransaction, apart.closing, apart.opened]
  exact fun inside notClosing registered => joined inside notClosing (apart.unregistered registered)

include harmless

theorem Harmless.stable_quiet (shut : Shut watched before) :
    Stable arrive (· ≠ watched) (Quiet watched before) :=
  stable_of_apart (fun _ _ apart quiet => quiet.trans apart.toQuiet)
    fun arrival manager quiet => quiet.trans (harmless.quiet arrival manager (quiet.shut shut))

theorem Harmless.stable_sound : Stable arrive (· ≠ watched) (Sound strict watched) :=
  stable_of_apart (fun _ _ apart => apart.sound) harmless.sound

theorem Harmless.stable_joined :
    Stable arrive (· ≠ watched) fun manager => Sound strict watched manager ∧
      Joined watched manager :=
  stable_of_apart (fun _ _ apart both => ⟨apart.sound both.1, apart.joined both.2⟩)
    fun arrival manager both =>
      ⟨harmless.sound arrival manager both.1, harmless.joined arrival manager both.1 both.2⟩

variable {record : ConnectionRecord} {method : LifecycleCall} {depth : Nat}

/-- A legal call of the watched connection, which cannot join meanwhile. -/
theorem Harmless.meets_call (shut : Shut watched manager)
    (tracked : track strict watched manager.calls = some record)
    (legal : record.legal strict method = true) {well failed : Manager → Prop}
    (resolves : ∀ after, Kept watched manager after →
      (watched ∈ after.openConnections ↔ watched ∈ manager.openConnections) →
      track strict watched after.calls = some (record.settle method true) → well after)
    (rejects : environment.resolves manager.calls watched method = false → ∀ after,
      Kept watched manager after →
        (watched ∈ after.openConnections ↔ watched ∈ manager.openConnections) →
      track strict watched after.calls = some (record.settle method false) → failed after) :
    Meets (call environment arrive watched method manager) well failed := by
  have quiet := (harmless.stable_quiet shut).arrivals
    (environment.arrivals manager.calls watched method) (Quiet.refl manager)
  have settled := track_append_own (quiet.track.trans tracked) legal
  unfold call
  cases outcome : environment.resolves manager.calls watched method with
  | true => exact resolves _ { quiet.1 with } quiet.opened (settled true)
  | false => exact rejects outcome _ { quiet.1 with } quiet.opened (settled false)

omit harmless

/-- The watched connection is open with so many savepoints. -/
def Holds (strict : Bool) (watched : ConnectionId) (depth : Nat) (manager : Manager) : Prop :=
  watched ∈ manager.openConnections ∧
    ∃ record, track strict watched manager.calls = some record ∧ OpenAt strict depth record

theorem Holds.standing (holds : Holds strict watched depth manager) :
    Standing strict watched (OpenAt strict depth) manager := by
  obtain ⟨member, record, tracked, isOpen⟩ := holds
  exact ⟨record, tracked, by rwa [if_pos member]⟩

theorem legal_of_openAt (isOpen : OpenAt strict depth record)
    (takes : ConnectionRecord.takes ⟨.opened, depth⟩ method = true)
    (inRange : ConnectionRecord.inRange ⟨.opened, depth⟩ method = true) :
    record.legal strict method = true := by
  obtain ⟨state, held⟩ := record
  obtain ⟨rfl, depths⟩ := isOpen
  cases strict with
  | false => cases method <;> simp_all [ConnectionRecord.legal, ConnectionRecord.takes]
  | true =>
    simp_all [legal]

variable (resolve : strict = true → environment.SavepointsResolve)

include harmless resolve

/-- A savepoint call that is in range. -/
theorem Harmless.meets_savepoint (holds : Holds strict watched depth manager)
    (method : LifecycleCall)
    (savepoint : method.isSavepoint = true)
    (inRange : ConnectionRecord.inRange ⟨.opened, depth⟩ method = true) :
    Meets (call environment arrive watched method manager)
      (fun after => Kept watched manager after ∧
        Holds strict watched (ConnectionRecord.settle ⟨.opened, depth⟩ method true).depth after)
      (fun after => strict = false ∧ Kept watched manager after ∧ ∀ depth,
        Holds strict watched depth after) := by
  obtain ⟨member, record, tracked, isOpen⟩ := holds
  have takes : takes ⟨.opened, depth⟩ method = true := by
    cases method <;> first | rfl | cases savepoint
  refine harmless.meets_call (.inl member) tracked (legal_of_openAt isOpen takes inRange) ?_ ?_
  · intro after kept opened settled
    refine ⟨kept, opened.mpr member, _, settled, ?_⟩
    obtain ⟨state, held⟩ := record
    obtain ⟨rfl, depths⟩ := isOpen
    cases method <;> first | exact ⟨rfl, fun _ => rfl⟩ | cases savepoint
  · intro rejected after kept opened settled
    have lenient : strict = false := by
      cases strict with
      | false => rfl
      | true =>
        rw [resolve rfl manager.calls watched method savepoint] at rejected
        cases rejected
    refine ⟨lenient, kept, fun depth => ⟨opened.mpr member, _, settled, ?_⟩⟩
    refine ⟨?_, fun isStrict => absurd isStrict (by simp [lenient])⟩
    cases method <;> first | exact isOpen.1 | cases savepoint

/-- A connection that joins is brought to the depth of the savepoints. -/
theorem Harmless.replayFrom (count depth : Nat) (holds : Holds strict watched depth manager) :
    Kept watched manager (eachSettled
        (fun depth => call environment arrive watched (.createSavepoint depth))
        (List.range' depth count) manager) ∧
      Holds strict watched (depth + count) (eachSettled
        (fun depth => call environment arrive watched (.createSavepoint depth))
        (List.range' depth count) manager) := by
  induction count generalizing depth manager with
  | zero => exact ⟨Kept.refl manager, holds⟩
  | succ count ih =>
    have next := harmless.meets_savepoint resolve holds (.createSavepoint depth) rfl
      (by simp [inRange])
    have called :=
      (next.imp (fun _ => id) fun _ failed => ⟨failed.2.1, failed.2.2 (depth + 1)⟩).state
    obtain ⟨kept, after⟩ := ih (depth + 1) called.2
    refine ⟨called.1.trans kept, ?_⟩
    rw [Nat.add_right_comm] at after
    exact after

/-- The savepoints are replayed in their order. -/
theorem Harmless.replaySavepoints (holds : Holds strict watched 0 manager) :
    Kept watched manager (replaySavepoints environment arrive watched manager) ∧
      Holds strict watched manager.savepointStack.length
        (replaySavepoints environment arrive watched manager) := by
  have replayed := harmless.replayFrom resolve manager.savepointStack.length 0 holds
  rwa [← List.range_eq_range', Nat.zero_add] at replayed

/-- The watched connection begins, or is left as it was. -/
theorem Harmless.meets_join (sound : Sound strict watched manager)
    (inside : manager.inTransaction = true)
    (notClosing : manager.closingTransaction = false) (absent : watched ∉ manager.openConnections)
    (registered : watched ∈ manager.activeConnections.connections) :
    Meets (joinConnection environment arrive watched manager)
      (fun after => Kept watched manager after ∧ Sound strict watched after ∧
        watched ∈ after.openConnections)
      (fun after => Kept watched manager after ∧ Sound strict watched after ∧
        watched ∉ after.openConnections) := by
  obtain ⟨record, tracked, shape⟩ := sound.standing
  rw [if_neg absent] at shape
  subst shape
  unfold joinConnection
  rw [if_neg (by simp [inside, absent]), if_neg (by simp [notClosing])]
  refine meets_andThen (fun begun => Kept watched manager begun ∧ Holds strict watched 0 begun)
    (meets_onFailure (fun failed => Kept watched manager failed ∧
      track strict watched failed.calls = some .idle) ?_ ?_) ?_
  · have marked : watched ∈ insert watched manager.openConnections := Finset.mem_insert_self _ _
    have shut : Shut watched
        { manager with openConnections := insert watched manager.openConnections } := .inl marked
    have legal : idle.legal strict .begin = true := by
      simp [legal, takes, inRange, idle]
    refine harmless.meets_call shut tracked legal ?_ ?_
    · intro after kept opened settled
      exact ⟨{ kept with }, opened.mpr marked, _, settled, rfl, fun _ => rfl⟩
    · intro _ after kept _ settled
      exact ⟨{ kept with }, settled⟩
  · rintro failed ⟨kept, idle⟩
    have gone : watched ∉ failed.openConnections.erase watched := Finset.notMem_erase _ _
    refine ⟨{ kept with }, ⟨⟨.idle, idle, ?_⟩, fun member => absurd member gone, ?_⟩, gone⟩
    · rw [if_neg gone]
    · intro ended
      rw [show failed.inTransaction = true from kept.inTransaction.trans inside] at ended
      cases ended
  · rintro begun ⟨kept, holds⟩
    obtain ⟨replayed, deep⟩ := harmless.replaySavepoints resolve holds
    have whole := kept.trans replayed
    refine meets_done
      ⟨whole, ⟨?_, fun _ => ⟨whole.inTransaction.trans inside, whole.registered registered⟩,
      ?_⟩, deep.1⟩
    · rw [replayed.stack]
      exact deep.standing
    · intro ended
      rw [whole.inTransaction, inside] at ended
      cases ended

end Harmless

section Nesting

/-- A connection that cannot join is registered and nothing else. -/
theorem joinConnection_of_shut (shut : Shut watched manager) :
    joinConnection environment arrive watched manager = done manager := by
  unfold joinConnection
  rcases shut with member | closing | ended
  · rw [if_pos (.inr member)]
  · rw [if_pos closing, ite_self]
  · rw [if_pos (.inl ended)]

/-- Another connection registers. -/
theorem Stable.registerConnection {holds : Manager → Prop}
    (stable : Stable arrive (· ≠ watched) holds)
    (closed : ∀ manager after, Apart watched manager after → holds manager → holds after)
    (other : connection ≠ watched) (start : holds manager) :
    holds (registerConnection environment arrive connection manager).1 := by
  apply Meets.state
  refine meets_onFailure holds (meets_of_state (stable.joinConnection other ?_)) ?_
  · exact closed manager
      _ ⟨⟨⟨rfl, rfl, rfl, rfl, fun registered => mem_set.mpr (.inr registered)⟩, rfl,
      Iff.rfl⟩, fun registered => (mem_set.mp registered).resolve_left other.symm⟩ start
  · exact fun failed => closed _ _ (apart_delete other)

/-- The watched connection is registered. -/
theorem quiet_set : Quiet watched manager
    { manager with activeConnections := manager.activeConnections.set watched } :=
  ⟨⟨rfl, rfl, rfl, rfl, fun _ => mem_set.mpr (.inl rfl)⟩, rfl, Iff.rfl⟩

/-- The watched connection registers. -/
theorem Harmless.registerConnection (harmless : Harmless strict watched arrive)
    (resolve : strict = true → environment.SavepointsResolve)
    (sound : Sound strict watched manager) :
    Sound strict watched (registerConnection environment arrive watched manager).1 ∧
      Joined watched (registerConnection environment arrive watched manager).1 ∧
      (registerConnection environment arrive watched manager).1.closingTransaction =
        manager.closingTransaction := by
  have soundSet := quiet_set.sound sound
  suffices registered : Meets (Manager.registerConnection environment arrive watched manager)
      (fun after => Sound strict watched after ∧ Joined watched after ∧
        after.closingTransaction = manager.closingTransaction)
      (fun after => Sound strict watched after ∧ Joined watched after ∧
        after.closingTransaction = manager.closingTransaction) from registered.state
  unfold Manager.registerConnection
  by_cases shut :
    Shut watched { manager with activeConnections := manager.activeConnections.set watched }
  · rw [joinConnection_of_shut shut]
    refine meets_done ⟨soundSet, fun inside notClosing _ => ?_, rfl⟩
    rcases shut with member | closing | ended
    · exact member
    · cases notClosing.symm.trans closing
    · cases inside.symm.trans ended
  · simp only [Shut, not_or, Bool.not_eq_true, Bool.not_eq_false] at shut
    obtain ⟨absent, notClosing, inside⟩ := shut
    refine meets_onFailure _ ((harmless.meets_join resolve soundSet inside notClosing absent
      (mem_set.mpr (.inl rfl))).imp ?_ fun _ => id) ?_
    · exact fun after joined => ⟨joined.2.1, fun _ _ _ => joined.2.2, joined.1.closing⟩
    · rintro failed ⟨kept, ⟨standing, _, autocommit⟩, gone⟩
      refine ⟨⟨standing, fun member => absurd member gone, autocommit⟩, fun _ _ registered =>
        ?_, kept.closing⟩
      exact absurd rfl (mem_delete.mp registered).1

/-- What arrives does no harm, to any nesting. -/
theorem harmless_arrive (watched : ConnectionId) (environment : Environment)
    (resolve : strict = true → environment.SavepointsResolve) (nesting : Nat) :
    Harmless strict watched (Manager.arrive environment nesting) := by
  induction nesting with
  | zero =>
    exact ⟨fun _ => Kept.refl, fun _ manager _ => Quiet.refl manager, fun _ _ =>
    id, fun _ _ _ => id⟩
  | succ nesting harmless =>
    constructor
    · intro arrival manager
      unfold arrive
      split
      · exact Kept.refl manager
      · next fresh =>
        have start : Kept watched manager
            { manager with activeConnections := manager.activeConnections.set arrival } :=
          ⟨rfl, rfl, rfl, rfl, fun registered => mem_set.mpr (.inr registered)⟩
        apply Meets.state
        refine meets_onFailure (Kept watched manager)
          (meets_of_state ((harmless.stable_kept manager).joinConnection trivial start)) ?_
        intro failed kept
        refine { kept with registered := fun registered => ?_ }
        refine mem_delete.mpr ⟨fun same => ?_, kept.registered registered⟩
        exact fresh (same ▸ registered)
    · intro arrival manager shut
      unfold arrive
      split
      · exact Quiet.refl manager
      · by_cases other : arrival = watched
        · subst other
          unfold registerConnection
          rw [joinConnection_of_shut (quiet_set.shut shut)]
          exact quiet_set
        · exact (harmless.stable_quiet shut).registerConnection
            (fun _ _ apart quiet => quiet.trans apart.toQuiet) other (Quiet.refl manager)
    · intro arrival manager sound
      unfold arrive
      split
      · exact sound
      · by_cases other : arrival = watched
        · subst other
          exact (harmless.registerConnection resolve sound).1
        · exact harmless.stable_sound.registerConnection (fun _ _ apart => apart.sound) other sound
    · intro arrival manager sound joined
      unfold arrive
      split
      · exact joined
      · by_cases other : arrival = watched
        · subst other
          exact (harmless.registerConnection resolve sound).2.1
        · exact (harmless.stable_joined.registerConnection
            (fun _ _ apart both => ⟨apart.sound both.1, apart.joined both.2⟩) other
              ⟨sound, joined⟩).2

end Nesting

end Quereus.Core.Manager
