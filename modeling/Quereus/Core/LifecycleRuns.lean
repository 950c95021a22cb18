import Quereus.Core.Arrivals

/-! # Connections over whole runs

Whatever is begun, saved, committed and rolled back, and whichever calls reject, a
connection that is not removed gets a begin only when it is idle, and after each
begin that resolves one commit that resolves or a rollback. It is idle in autocommit.
If no savepoint call rejects, and no implicit transaction with savepoints is made
explicit by a BEGIN, its savepoint calls are in range besides.
-/

namespace Quereus.Core.Manager

open Fallible List ConnectionRecord

variable {strict : Bool} {watched connection : ConnectionId} {environment : Environment}
  {arrive : ConnectionId → Manager → Manager} {manager : Manager} {rest : List ConnectionId}

section Closing

/-- The watched connection while a transaction closes, with the participants that are
still to come. -/
structure Pending (strict : Bool) (watched : ConnectionId) (isOpen : ConnectionRecord → Prop)
    (rest : List ConnectionId) (manager : Manager) : Prop where
  standing : Standing strict watched isOpen manager
  closing : manager.closingTransaction = true
  distinct : rest.Nodup
  pending : watched ∈ manager.openConnections ↔ watched ∈ rest
  registered : watched ∈ manager.openConnections → watched ∈ manager.activeConnections.connections

variable {isOpen : ConnectionRecord → Prop}

variable (harmless : Harmless strict watched arrive)

variable {after : Manager}

theorem Pending.quiet (pending : Pending strict watched isOpen rest manager)
    (quiet : Quiet watched manager after) : Pending strict watched isOpen rest after where
  standing := quiet.standing pending.standing
  closing := quiet.closing.trans pending.closing
  distinct := pending.distinct
  pending := quiet.opened.trans pending.pending
  registered member := quiet.registered (pending.registered (quiet.opened.mp member))

/-- A participant that is not watched has had its turn. -/
theorem Pending.skip (pending : Pending strict watched isOpen (connection :: rest) manager)
    (other : connection ≠ watched) : Pending strict watched isOpen rest manager where
  standing := pending.standing
  closing := pending.closing
  distinct := (nodup_cons.mp pending.distinct).2
  pending := by rw [pending.pending, mem_cons, or_iff_right other.symm]
  registered := pending.registered

/-- A transaction closes, and the watched connection takes part if it is open. -/
structure Closing (strict : Bool) (watched : ConnectionId) (isOpen : ConnectionRecord → Prop)
    (manager : Manager) : Prop where
  standing : Standing strict watched isOpen manager
  closing : manager.closingTransaction = true
  registered : watched ∈ manager.openConnections → watched ∈ manager.activeConnections.connections

theorem Closing.pending (closing : Closing strict watched isOpen manager) :
    Pending strict watched isOpen manager.openParticipants manager where
  standing := closing.standing
  closing := closing.closing
  distinct := manager.activeConnections.nodup.filter _
  pending := by
    simp only [openParticipants, mem_filter, decide_eq_true_eq]
    exact ⟨fun member => ⟨closing.registered member, member⟩, And.right⟩
  registered := closing.registered

theorem Standing.notIdle
    (standing : Standing strict watched (fun record => record.state = .opened) manager) :
    Standing strict watched (fun record => record.state ≠ .idle) manager :=
  standing.imp fun record opened => by
    rw [opened]
    exact LifecycleState.noConfusion

/-- The watched connection is idle and out of the open set. -/
def Idle (strict : Bool) (watched : ConnectionId) (manager : Manager) : Prop :=
  watched ∉ manager.openConnections ∧ track strict watched manager.calls = some .idle

theorem Pending.idle (pending : Pending strict watched isOpen [] manager) :
    Idle strict watched manager := by
  have gone : watched ∉ manager.openConnections := fun member => by
    cases pending.pending.mp member
  obtain ⟨record, tracked, shape⟩ := pending.standing
  rw [if_neg gone] at shape
  exact ⟨gone, shape ▸ tracked⟩

/-- The watched connection has had its turn and is idle. -/
theorem Pending.finish (pending : Pending strict watched isOpen (watched :: rest) manager)
    (closing : after.closingTransaction = manager.closingTransaction)
    (idle : Idle strict watched after) : Pending strict watched isOpen rest after where
  standing := ⟨.idle, idle.2, by rw [if_neg idle.1]⟩
  closing := closing.trans pending.closing
  distinct := (nodup_cons.mp pending.distinct).2
  pending := ⟨fun member => absurd member idle.1,
    fun member => absurd member (nodup_cons.mp pending.distinct).1⟩
  registered member := absurd member idle.1

include harmless

/-- A call of another participant. -/
theorem Pending.call_other (pending : Pending strict watched isOpen (connection :: rest) manager)
    (other : connection ≠ watched) (environment : Environment) (method : LifecycleCall) :
    Pending strict watched isOpen rest (call environment arrive connection method manager).1 :=
  (pending.skip other).quiet
    ((harmless.stable_quiet (.inr (.inl pending.closing))).call other method (Quiet.refl manager))

/-- Every open participant is rolled back. -/
theorem Harmless.rollbackOpenConnections
    (closing : Closing strict watched (fun record => record.state ≠ .idle) manager) :
    Idle strict watched (rollbackOpenConnections environment arrive manager) := by
  refine Pending.idle (eachSettled_invariant
    (Pending strict watched fun record => record.state ≠ .idle) ?_ closing.pending)
  intro connection rest state pending
  by_cases other : connection = watched
  · subst other
    have member := pending.pending.mpr mem_cons_self
    obtain ⟨record, tracked, shape⟩ := pending.standing
    rw [if_pos member] at shape
    have shut :
        Shut connection { state with openConnections := state.openConnections.erase connection } :=
      .inr (.inl pending.closing)
    have legal : record.legal strict .rollback = true := by
      simp [legal, takes, inRange, shape]
    have settled : ∀ after, Kept connection
        { state with openConnections := state.openConnections.erase connection } after →
        (connection ∈ after.openConnections ↔ connection ∈ state.openConnections.erase connection) →
        track strict connection after.calls = some .idle →
        Pending strict connection (fun record => record.state ≠ .idle) rest after := by
      intro after kept opened idle
      exact pending.finish kept.closing ⟨fun inside =>
        Finset.notMem_erase _ _ (opened.mp inside), idle⟩
    exact (harmless.meets_call shut tracked legal settled fun _ => settled).state
  · exact (pending.quiet (apart_closing other).toQuiet).call_other harmless other
      environment .rollback

/-- The watched connection, which is open, commits. -/
theorem Harmless.meets_commit (member : watched ∈ manager.openConnections)
    (standing : Standing strict watched (fun record => record.state = .opened) manager) :
    Meets (call environment arrive watched .commit manager)
      (fun after => Kept watched manager after ∧ track strict watched after.calls = some .idle)
      (fun after => Kept watched manager after ∧
        Standing strict watched (fun record => record.state ≠ .idle) after) := by
  obtain ⟨record, tracked, shape⟩ := standing
  rw [if_pos member] at shape
  have legal : record.legal strict .commit = true := by
    simp [legal, takes, inRange, shape]
  refine harmless.meets_call (.inl member) tracked legal ?_ ?_
  · exact fun after kept _ idle => ⟨kept, idle⟩
  · intro _ after kept opened failed
    refine ⟨kept, _, failed, ?_⟩
    rw [if_pos (opened.mpr member)]
    exact LifecycleState.noConfusion

/-- Open participants are committed up to the first that rejects. -/
theorem Harmless.commitOpenConnections
    (closing : Closing strict watched (fun record => record.state = .opened) manager) :
    Meets (commitOpenConnections environment arrive manager) (Idle strict watched)
      (Closing strict watched fun record => record.state ≠ .idle) := by
  refine Meets.imp (meets_each (Pending strict watched fun record => record.state = .opened) ?_
    closing.pending) (fun _ => Pending.idle) fun _ => id
  intro connection rest state pending
  by_cases other : connection = watched
  · subst other
    have member := pending.pending.mpr mem_cons_self
    refine meets_andThen _ ((harmless.meets_commit member pending.standing).imp (fun _ => id) ?_) ?_
    · rintro after ⟨kept, standing⟩
      exact ⟨standing, kept.closing.trans pending.closing,
        fun _ => kept.registered (pending.registered member)⟩
    · rintro committed ⟨kept, idle⟩
      exact meets_done (pending.finish kept.closing ⟨Finset.notMem_erase _ _, idle⟩)
  · have called := pending.call_other harmless other environment .commit
    refine meets_andThen (Pending strict watched (fun record => record.state = .opened) rest)
      ((meets_of_state called).imp (fun _ => id) ?_) ?_
    · exact fun after still => ⟨still.standing.notIdle, still.closing, still.registered⟩
    · exact fun committed still => meets_done (still.quiet (apart_closing other).toQuiet)

omit harmless

/-- The watched connection between two operations. -/
structure Settled (strict : Bool) (watched : ConnectionId) (manager : Manager) : Prop where
  sound : Sound strict watched manager
  joined : Joined watched manager
  closing : manager.closingTransaction = false

theorem Idle.reset (idle : Idle strict watched manager) :
    Settled strict watched manager.resetToAutocommit where
  sound := ⟨⟨.idle, idle.2, rfl⟩, fun member => absurd member (Finset.notMem_empty _), fun _ => rfl⟩
  joined inside := Bool.noConfusion inside
  closing := rfl

/-- The watched connection can be rolled back. -/
structure Abortable (strict : Bool) (watched : ConnectionId) (manager : Manager) : Prop where
  standing : Standing strict watched (fun record => record.state ≠ .idle) manager
  registered : watched ∈ manager.openConnections → watched ∈ manager.activeConnections.connections
  inside : manager.inTransaction = true

theorem Sound.opened (sound : Sound strict watched manager) :
    Standing strict watched (fun record => record.state = .opened) manager :=
  sound.standing.imp fun _ => And.left

theorem Sound.abortable (sound : Sound strict watched manager)
    (inside : manager.inTransaction = true) :
    Abortable strict watched manager where
  standing := sound.opened.notIdle
  registered member := (sound.within member).2
  inside := inside

include harmless

/-- A rollback ends every participation. -/
theorem Harmless.rollbackTransaction (abortable : Abortable strict watched manager) :
    Settled strict watched (rollbackTransaction environment arrive manager) := by
  unfold Manager.rollbackTransaction
  rw [if_neg (by simp [abortable.inside])]
  refine (harmless.rollbackOpenConnections ?_).reset
  exact ⟨abortable.standing, rfl, abortable.registered⟩

theorem Settled.rollbackTransaction (settled : Settled strict watched manager) :
    Settled strict watched (rollbackTransaction environment arrive manager) := by
  cases inside : manager.inTransaction with
  | true => exact harmless.rollbackTransaction (settled.sound.abortable inside)
  | false =>
    unfold Manager.rollbackTransaction
    rw [if_pos inside]
    exact settled

/-- A commit does, whether it succeeds or falls back to a rollback. -/
theorem Harmless.commitTransaction (settled : Settled strict watched manager)
    (failed : Option Failure) :
    Settled strict watched (commitTransaction environment arrive failed manager).1 := by
  unfold Manager.commitTransaction
  split
  · exact settled
  · apply Idle.reset
    apply Meets.state
    apply meets_onFailure (Closing strict watched fun record => record.state ≠ .idle)
    · have registered := fun member => (settled.sound.within member).2
      cases failed with
      | some failure => exact ⟨settled.sound.opened.notIdle, rfl, registered⟩
      | none => exact harmless.commitOpenConnections ⟨settled.sound.opened, rfl, registered⟩
    · exact fun _ => harmless.rollbackOpenConnections

end Closing

section Beginning

/-- While the connections begin, with those that are still to come. -/
structure Beginning (strict : Bool) (watched : ConnectionId) (rest : List ConnectionId)
    (manager : Manager) : Prop where
  sound : Sound strict watched manager
  inside : manager.inTransaction = true
  closing : manager.closingTransaction = false
  stack : manager.savepointStack = []
  awaiting : watched ∈ manager.activeConnections.connections →
    watched ∈ manager.openConnections ∨ watched ∈ rest
  listed : watched ∈ rest → watched ∈ manager.activeConnections.connections

variable (harmless : Harmless strict watched arrive)

include harmless

/-- Another connection begins. -/
theorem Beginning.join_other (beginning : Beginning strict watched (connection :: rest) manager)
    (other : connection ≠ watched) :
    Beginning strict watched rest (joinConnection environment arrive connection manager).1 := by
  have kept : Kept watched manager (joinConnection environment arrive connection manager).1 :=
    (harmless.stable_kept manager).joinConnection trivial (Kept.refl manager)
  refine ⟨harmless.stable_sound.joinConnection other beginning.sound,
    kept.inTransaction.trans beginning.inside,
    kept.closing.trans beginning.closing, kept.stack.trans beginning.stack, fun registered => ?_,
    fun member => kept.registered (beginning.listed (mem_cons_of_mem _ member))⟩
  by_cases known : watched ∈ manager.activeConnections.connections
  · rcases beginning.awaiting known with member | listed
    · have quiet : Quiet watched manager (joinConnection environment arrive connection manager).1 :=
        (harmless.stable_quiet (.inl member)).joinConnection other (Quiet.refl manager)
      exact .inl (quiet.opened.mpr member)
    · exact .inr ((mem_cons.mp listed).resolve_left other.symm)
  -- A connection that has come meanwhile has joined.
  · have joined : Joined watched (joinConnection environment arrive connection manager).1 :=
      (harmless.stable_joined.joinConnection other
        ⟨beginning.sound, fun _ _ registered => absurd registered known⟩).2
    exact .inl (joined (kept.inTransaction.trans beginning.inside)
      (kept.closing.trans beginning.closing)
      registered)

variable (resolve : strict = true → environment.SavepointsResolve)

include resolve in
/-- The next participant joins. -/
theorem Beginning.join (beginning : Beginning strict watched (connection :: rest) manager) :
    Meets (joinConnection environment arrive connection manager) (Beginning strict watched rest)
      (Abortable strict watched) := by
  by_cases other : connection = watched
  · subst other
    by_cases member : connection ∈ manager.openConnections
    · rw [joinConnection_of_shut (.inl member)]
      exact meets_done ⟨beginning.sound, beginning.inside, beginning.closing, beginning.stack,
        fun _ => .inl member, fun later => beginning.listed (mem_cons_of_mem _ later)⟩
    · have registered := beginning.listed mem_cons_self
      refine (harmless.meets_join resolve beginning.sound beginning.inside beginning.closing member
        registered).imp ?_ ?_
      · rintro after ⟨kept, sound, opened⟩
        exact ⟨sound, kept.inTransaction.trans beginning.inside,
          kept.closing.trans beginning.closing,
          kept.stack.trans beginning.stack, fun _ => .inl opened, fun _ =>
            kept.registered registered⟩
      · rintro after ⟨kept, sound, -⟩
        exact sound.abortable (kept.inTransaction.trans beginning.inside)
  · refine (meets_of_state (beginning.join_other harmless other)).imp (fun _ => id) ?_
    exact fun after still => still.sound.abortable still.inside

omit harmless

/-- All connections have begun. -/
theorem Beginning.settled (beginning : Beginning strict watched [] manager) :
    Settled strict watched manager where
  sound := beginning.sound
  joined _ _ registered := (beginning.awaiting registered).resolve_right not_mem_nil
  closing := beginning.closing

/-- The savepoints of an open connection are forgotten with the stack. -/
theorem Sound.clear (sound : Sound strict watched manager)
    (empty : strict = true → manager.savepointStack = []) (source : Option TransactionSource) :
    Sound strict watched { manager with transactionSource := source, savepointStack := [] } where
  standing := by
    refine sound.standing.imp fun record isOpen => ⟨isOpen.1, fun isStrict => ?_⟩
    rw [isOpen.2 isStrict, empty isStrict]
  within := sound.within
  autocommit _ := rfl

include harmless

include resolve

variable (settled : Settled strict watched manager)

include settled in
/-- What a begin ends in, by its outcome. -/
theorem Harmless.meets_begin (source : TransactionSource)
    (fits : strict = true → source = .explicit → manager.transactionSource = some .implicit →
      manager.savepointStack = []) :
    Meets (beginTransaction environment arrive source manager)
      (fun after => Settled strict watched after ∧ after.inTransaction = true)
      (Settled strict watched) := by
  unfold Manager.beginTransaction
  split
  · next inside =>
    split
    · exact meets_done ⟨settled, inside⟩
    · next upgraded =>
      refine meets_done ⟨⟨?_, settled.joined, settled.closing⟩, inside⟩
      exact settled.sound.clear (fun isStrict => fits isStrict rfl upgraded) _
    · exact settled
  · next outside =>
    rw [Bool.not_eq_true] at outside
    have absent : watched ∉ manager.openConnections := fun member => by
      cases outside.symm.trans (settled.sound.within member).1
    have start : Beginning strict watched manager.activeConnections.connections
        { manager with inTransaction := true, transactionSource := some source } :=
      { sound := ⟨settled.sound.standing, fun member => absurd member absent, nofun⟩
        inside := rfl
        closing := settled.closing
        stack := settled.sound.autocommit outside
        awaiting := .inr
        listed := id }
    refine meets_andThen (Beginning strict watched []) (meets_onFailure (Abortable strict watched)
      (meets_each (Beginning strict watched) ?_ start) ?_) ?_
    · exact fun connection rest state beginning => beginning.join harmless resolve
    · exact fun failed abortable => harmless.rollbackTransaction abortable
    · intro begun beginning
      cases source with
      | explicit =>
        refine meets_done ⟨⟨?_, beginning.settled.joined, beginning.closing⟩, beginning.inside⟩
        exact beginning.sound.clear (fun _ => beginning.stack) _
      | implicit => exact meets_done ⟨beginning.settled, beginning.inside⟩

include settled in
/-- What the implicit begin ends in. -/
theorem Harmless.meets_ensure :
    Meets (ensureTransaction environment arrive manager)
      (fun after => Settled strict watched after ∧ after.inTransaction = true)
      (Settled strict watched) := by
  unfold Manager.ensureTransaction
  split
  · next inside => exact meets_done ⟨settled, inside⟩
  · exact harmless.meets_begin resolve settled .implicit nofun

omit resolve

omit harmless in
theorem settled_of_apart (manager after : Manager) (apart : Apart watched manager after)
    (settled : Settled strict watched manager) : Settled strict watched after :=
  ⟨apart.sound settled.sound, apart.joined settled.joined, apart.closing.trans settled.closing⟩

/-- Calls and joins of other connections leave the watched one settled. -/
theorem Harmless.stable_settled : Stable arrive (· ≠ watched) (Settled strict watched) :=
  stable_of_apart settled_of_apart
    fun arrival manager settled => ⟨harmless.sound arrival manager settled.sound,
      harmless.joined arrival manager settled.sound settled.joined,
      (harmless.kept arrival manager).closing.trans settled.closing⟩

include resolve

include settled in
/-- The watched connection commits and begins again. -/
theorem Harmless.meets_recommit (member : watched ∈ manager.openConnections) :
    Meets (andThen (call environment arrive watched .commit manager) fun committed =>
        joinConnection environment arrive watched
          { committed with openConnections := committed.openConnections.erase watched })
      (Settled strict watched) (Abortable strict watched) := by
  obtain ⟨inside, registered⟩ := settled.sound.within member
  refine meets_andThen _ ((harmless.meets_commit member settled.sound.opened).imp (fun _ => id) ?_)
    ?_
  · rintro after ⟨kept, standing⟩
    exact ⟨standing, fun _ => kept.registered registered, kept.inTransaction.trans inside⟩
  · rintro committed ⟨kept, idle⟩
    have gone : watched ∉ committed.openConnections.erase watched := Finset.notMem_erase _ _
    have nowInside := kept.inTransaction.trans inside
    have sound : Sound strict watched
        { committed with openConnections := committed.openConnections.erase watched } :=
      ⟨⟨.idle, idle, by rw [if_neg gone]⟩, fun absent => absurd absent gone,
        fun ended => by cases nowInside.symm.trans ended⟩
    refine (harmless.meets_join resolve sound nowInside (kept.closing.trans settled.closing) gone
      (kept.registered registered)).imp ?_ ?_
    · rintro after ⟨again, sound, opened⟩
      exact ⟨sound, fun _ _ _ => opened, again.closing.trans (kept.closing.trans settled.closing)⟩
    · rintro after ⟨again, sound, -⟩
      exact sound.abortable (again.inTransaction.trans nowInside)

include settled in
/-- A connection commits ahead of its transaction and begins again. -/
theorem Harmless.commitConnectionEarly (connection : ConnectionId) :
    Settled strict watched (commitConnectionEarly environment arrive connection manager).1 := by
  unfold Manager.commitConnectionEarly
  split
  · exact settled
  · next member =>
    rw [not_not] at member
    apply Meets.state
    by_cases other : connection = watched
    · subst other
      exact meets_onFailure _ (harmless.meets_recommit resolve settled member)
        fun failed => harmless.rollbackTransaction
    · have stable := harmless.stable_settled
      refine meets_onFailure (Settled strict watched) (meets_andThen (Settled strict watched)
        (meets_of_state (stable.call other .commit settled)) ?_) fun failed =>
          Settled.rollbackTransaction harmless
      exact fun committed still =>
        meets_of_state (stable.joinConnection other (stable.closing _ _ other still))

end Beginning

section Savepoints

variable {before after : Nat}

theorem Holds.lenient (holds : Holds strict watched before manager) (lenient : strict = false)
    (depth : Nat) :
    Holds strict watched depth manager := by
  obtain ⟨member, record, tracked, isOpen⟩ := holds
  refine ⟨member, record, tracked, isOpen.1, fun isStrict => ?_⟩
  rw [lenient] at isStrict
  cases isStrict

variable (harmless : Harmless strict watched arrive)

include harmless

variable (resolve : strict = true → environment.SavepointsResolve)
  (settled : Settled strict watched manager)

include resolve

variable {method : LifecycleCall}

/-- A savepoint call of another connection rejects only if savepoint calls may. -/
theorem Harmless.meets_savepoint_other (other : connection ≠ watched)
    (savepoint : method.isSavepoint = true) (shut : Shut watched manager) :
    Meets (call environment arrive connection method manager) (Quiet watched manager)
      (fun failed => strict = false ∧ Quiet watched manager failed) := by
  have quiet : Quiet watched manager (call environment arrive connection method manager).1 :=
    (harmless.stable_quiet shut).call other method (Quiet.refl manager)
  unfold Meets
  split
  · exact quiet
  · next failure failed =>
    refine ⟨?_, quiet⟩
    unfold Manager.call at failed
    cases strict with
    | false => rfl
    | true => simp [resolve rfl manager.calls connection method savepoint] at failed

/-- A savepoint call reaches the watched connection, which is open. -/
theorem Harmless.meets_broadcast (savepoint : method.isSavepoint = true)
    (inRange : ConnectionRecord.inRange ⟨.opened, before⟩ method = true)
    (settle : (ConnectionRecord.settle ⟨.opened, before⟩ method true).depth = after)
    (registered : watched ∈ manager.activeConnections.connections)
    (holds : Holds strict watched before manager) :
    Meets (broadcast environment arrive method manager)
      (fun sent => Kept watched manager sent ∧ Holds strict watched after sent)
      (fun sent => Kept watched manager sent ∧ Holds strict watched after sent) := by
  refine (meets_each (fun rest sent => rest.Nodup ∧ Kept watched manager sent ∧
    Holds strict watched (if watched ∈ rest then before else after) sent) ?_
    ⟨manager.activeConnections.nodup, Kept.refl manager, by rwa [if_pos registered]⟩).imp
      (fun sent done => ⟨done.2.1, by simpa using done.2.2⟩) fun _ => id
  rintro connection rest state ⟨distinct, kept, holds⟩
  obtain ⟨fresh, distinct⟩ := nodup_cons.mp distinct
  by_cases other : connection = watched
  · subst other
    rw [if_pos mem_cons_self] at holds
    refine (harmless.meets_savepoint resolve holds method savepoint inRange).imp ?_ ?_
    · rintro sent ⟨again, deeper⟩
      refine ⟨distinct, kept.trans again, ?_⟩
      rwa [if_neg fresh, ← settle]
    · exact fun sent ⟨lenient, again, any⟩ => ⟨kept.trans again, any after⟩
  · have same : (watched ∈ connection :: rest) = (watched ∈ rest) := by
      rw [mem_cons, or_iff_right (Ne.symm other)]
    simp only [same] at holds
    have stays : ∀ sent, Quiet watched state sent → ∀ depth, Holds strict watched depth state →
        Holds strict watched depth sent := by
      rintro sent quiet depth ⟨member, record, tracked, isOpen⟩
      exact ⟨quiet.opened.mpr member, record, quiet.track.trans tracked, isOpen⟩
    refine (harmless.meets_savepoint_other resolve other savepoint (.inl holds.1)).imp ?_ ?_
    · exact fun sent quiet => ⟨distinct, kept.trans quiet.toKept, stays sent quiet _ holds⟩
    · exact fun sent ⟨lenient, quiet⟩ =>
        ⟨kept.trans quiet.toKept, (stays sent quiet _ holds).lenient lenient after⟩

include settled

/-- A savepoint call is broadcast with the stack it leaves. -/
theorem Settled.broadcast (inside : manager.inTransaction = true)
    (savepoint : method.isSavepoint = true)
    (inRange : ConnectionRecord.inRange ⟨.opened, manager.savepointStack.length⟩ method = true)
    {stack : List String}
    (settle : (ConnectionRecord.settle ⟨.opened, manager.savepointStack.length⟩ method true).depth =
      stack.length) :
    Settled strict watched
      (broadcast environment arrive method { manager with savepointStack := stack }).1 := by
  by_cases member : watched ∈ manager.openConnections
  · obtain ⟨record, tracked, shape⟩ := settled.sound.standing
    rw [if_pos member] at shape
    have registered : watched ∈
        ({ manager with savepointStack := stack } : Manager).activeConnections.connections :=
      (settled.sound.within member).2
    have holds : Holds strict watched manager.savepointStack.length
        { manager with savepointStack := stack } := ⟨member, record, tracked, shape⟩
    obtain ⟨kept, deep⟩ :=
      (harmless.meets_broadcast resolve savepoint inRange settle registered holds).state
    refine ⟨⟨?_, fun _ => ⟨kept.inTransaction.trans inside, kept.registered registered⟩,
      fun ended => ?_⟩,
      fun _ _ _ => deep.1, kept.closing.trans settled.closing⟩
    · rw [kept.stack]
      exact deep.standing
    · cases (kept.inTransaction.trans inside).symm.trans ended
  -- One that is not open is not registered, and joins with the new stack if it comes.
  · have unregistered : watched ∉ manager.activeConnections.connections :=
      fun registered => member (settled.joined inside settled.closing registered)
    have start : Settled strict watched { manager with savepointStack := stack } := by
      obtain ⟨record, tracked, shape⟩ := settled.sound.standing
      refine ⟨⟨⟨record, tracked, ?_⟩, settled.sound.within, fun ended => ?_⟩, settled.joined,
        settled.closing⟩
      · rw [if_neg member] at shape ⊢
        exact shape
      · cases inside.symm.trans ended
    apply Meets.state
    refine (meets_each (fun rest state => watched ∉ rest ∧ Settled strict watched state) ?_
      ⟨unregistered, start⟩).imp (fun _ => And.right) fun _ => id
    rintro connection rest state ⟨absent, still⟩
    rw [mem_cons, not_or] at absent
    have called : Settled strict watched (call environment arrive connection method state).1 :=
      harmless.stable_settled.call (Ne.symm absent.1) method still
    exact (meets_of_state called).imp (fun _ after => ⟨absent.2, after⟩) fun _ => id

theorem Settled.createSavepointBroadcast (inside : manager.inTransaction = true) (name : String) :
    Settled strict watched (createSavepointBroadcast environment arrive name manager).1 := by
  apply settled.broadcast harmless resolve inside rfl
  · exact decide_eq_true rfl
  · rw [length_append]
    rfl

omit harmless

omit resolve

/-- There are savepoints in a transaction only. -/
theorem Settled.inside_of_find {name : String} {index : Nat}
    (found : findSavepoint manager.savepointStack name = some index) :
    manager.inTransaction = true := by
  cases inside : manager.inTransaction with
  | true => rfl
  | false =>
    have below := findSavepoint_lt found
    rw [settled.sound.autocommit inside] at below
    exact absurd below (Nat.not_lt_zero _)

include harmless

include resolve

theorem Settled.releaseSavepointBroadcast (name : String) :
    Settled strict watched (releaseSavepointBroadcast environment arrive name manager).1 := by
  unfold Manager.releaseSavepointBroadcast
  split
  · exact settled
  · next index found =>
    have below := findSavepoint_lt found
    apply settled.broadcast harmless resolve (settled.inside_of_find found) rfl
    · exact decide_eq_true below
    · exact (length_take_of_le below.le).symm

theorem Settled.rollbackToSavepointBroadcast (name : String) :
    Settled strict watched (rollbackToSavepointBroadcast environment arrive name manager).1 := by
  unfold Manager.rollbackToSavepointBroadcast
  split
  · exact settled
  · next index found =>
    have below := findSavepoint_lt found
    apply settled.broadcast harmless resolve (settled.inside_of_find found) rfl
    · exact decide_eq_true below
    · exact (length_take_of_le below).symm

end Savepoints

section Runs

variable {nesting : Nat}

/-- A connection may be registered at any time. -/
theorem Settled.registerConnection
    (harmless : Harmless strict watched arrive)
    (resolve : strict = true → environment.SavepointsResolve)
    (settled : Settled strict watched manager) (connection : ConnectionId) :
    Settled strict watched (registerConnection environment arrive connection manager).1 := by
  by_cases other : connection = watched
  · subst other
    obtain ⟨sound, joined, closing⟩ := harmless.registerConnection resolve settled.sound
    exact ⟨sound, joined, closing.trans settled.closing⟩
  · exact harmless.stable_settled.registerConnection settled_of_apart other settled

/-- The operation takes a connection out of the registry. -/
def removes (watched : ConnectionId) : Operation → Bool
  | .unregisterConnection connection | .removeConnection connection => connection = watched
  | _ => false

/-- No BEGIN makes an implicit transaction with savepoints explicit. -/
def Fits (manager : Manager) : Operation → Prop
  | .beginTransaction .explicit =>
    manager.transactionSource = some .implicit → manager.savepointStack = []
  | _ => True

/-- One operation keeps a settled manager settled. -/
theorem Settled.perform (resolve : strict = true → environment.SavepointsResolve)
    (settled : Settled strict watched manager) {operation : Operation}
    (stays : removes watched operation = false) (fits : strict = true → Fits manager operation) :
    Settled strict watched (perform environment nesting manager operation).1 := by
  have harmless := harmless_arrive watched environment resolve nesting
  unfold Manager.perform
  cases operation with
  | beginTransaction source =>
    refine ((harmless.meets_begin resolve settled source ?_).imp (fun _ => And.left)
      fun _ => id).state
    rintro isStrict rfl
    exact fits isStrict
  | ensureTransaction =>
    exact ((harmless.meets_ensure resolve settled).imp (fun _ => And.left) fun _ => id).state
  | registerConnection connection => exact settled.registerConnection harmless resolve connection
  | unregisterConnection connection =>
    simp only [unregisterConnection]
    split
    · exact settled
    · exact settled_of_apart _ _ (apart_delete (of_decide_eq_false stays)) settled
  | removeConnection connection =>
    exact settled_of_apart _ _ (apart_delete (of_decide_eq_false stays)) settled
  | savepoint name =>
    apply Meets.state
    refine meets_andThen _ (harmless.meets_ensure resolve settled) fun ensured ⟨still, inside⟩ => ?_
    refine meets_of_state (Settled.createSavepointBroadcast harmless resolve ?_ ?_ name)
    · unfold upgradeToExplicitTransaction
      split
      · exact { still with sound := { still.sound with } }
      · exact still
    · unfold upgradeToExplicitTransaction
      split <;> exact inside
  | statementSavepoint name =>
    apply Meets.state
    refine meets_andThen _ (harmless.meets_ensure resolve settled) fun ensured ⟨still, inside⟩ => ?_
    exact meets_of_state (still.createSavepointBroadcast harmless resolve inside name)
  | release name => exact settled.releaseSavepointBroadcast harmless resolve name
  | rollbackTo name => exact settled.rollbackToSavepointBroadcast harmless resolve name
  | commitConnectionEarly connection =>
    exact harmless.commitConnectionEarly resolve settled connection
  | commitTransaction failed => exact harmless.commitTransaction settled failed
  | rollbackTransaction => exact settled.rollbackTransaction harmless

/-- No BEGIN of the run makes an implicit transaction with savepoints explicit. -/
def RunFits (environment : Environment) (nesting : Nat) (manager : Manager) : List Operation → Prop
  | [] => True
  | operation :: operations => Fits manager operation ∧
      RunFits environment nesting (perform environment nesting manager operation).1 operations

/-- A run of operations does. -/
theorem Settled.run (resolve : strict = true → environment.SavepointsResolve)
    {operations : List Operation}
    (settled : Settled strict watched manager)
    (stays : ∀ operation ∈ operations, removes watched operation = false)
    (fits : strict = true → RunFits environment nesting manager operations) :
    Settled strict watched (run environment nesting operations manager) := by
  induction operations generalizing manager with
  | nil => exact settled
  | cons operation operations ih =>
    obtain ⟨here, later⟩ := forall_mem_cons.mp stays
    have next : Settled strict watched (Manager.perform environment nesting manager operation).1 :=
      settled.perform resolve here fun isStrict => (fits isStrict).1
    exact ih next later fun isStrict => (fits isStrict).2

theorem settled_initial : Settled strict watched .initial :=
  ⟨⟨⟨.idle, rfl, rfl⟩, fun member => absurd member (Finset.notMem_empty _), fun _ => rfl⟩,
    fun inside => Bool.noConfusion inside, rfl⟩

/-- All calls of a connection were legal, and it is idle in autocommit. -/
def Follows (strict : Bool) (watched : ConnectionId) (manager : Manager) : Prop :=
  ∃ record, track strict watched manager.calls = some record ∧
    (manager.inTransaction = false → record = .idle)

/-- In a settled manager the calls of a connection are legal. -/
theorem Settled.follows (settled : Settled strict watched manager) :
    Follows strict watched manager := by
  obtain ⟨record, tracked, shape⟩ := settled.sound.standing
  refine ⟨record, tracked, fun outside => ?_⟩
  rw [if_neg] at shape
  · exact shape
  · intro member
    cases outside.symm.trans (settled.sound.within member).1

/-- Whichever calls reject, a connection that is not removed is begun when it is idle,
then committed or rolled back once, and rolled back after a commit that rejects; it
gets savepoint calls while it is open, and it is idle in autocommit. If no savepoint
call rejects and no BEGIN drops the savepoints of an implicit transaction, the depths
of its savepoint calls are in range. -/
theorem run_follows (environment : Environment) (nesting : Nat) (operations : List Operation)
    (watched : ConnectionId) (stays : ∀ operation ∈ operations, removes watched operation = false) :
    Follows false watched (run environment nesting operations .initial) ∧
      (environment.SavepointsResolve → RunFits environment nesting .initial operations →
        Follows true watched (run environment nesting operations .initial)) := by
  constructor
  · exact (settled_initial.run (fun isStrict => by cases isStrict) stays fun isStrict => by
      cases isStrict).follows
  · exact fun resolve fits => (settled_initial.run (fun _ => resolve) stays fun _ => fits).follows

end Runs

/-- Connection 3 comes while 1 begins, the first begin of 2 rejects and so does the commit
of 1. -/
def busyEnvironment : Environment where
  resolves calls connection call :=
    !(connection = 2 && call = .begin && calls.length = 4) && !(connection = 1 && call = .commit)
  arrivals _ connection call := if connection = 1 && call = .begin then [3] else []

def busyOperations : List Operation :=
  [.registerConnection 1, .savepoint "a", .registerConnection 2, .registerConnection 2,
    .rollbackTo "a", .commitConnectionEarly 3, .commitTransaction none]

theorem savepointsResolve_busy : busyEnvironment.SavepointsResolve := by
  intro calls connection call savepoint
  cases call <;> simp_all [busyEnvironment, LifecycleCall.isSavepoint]

/-- Connection 1 sees a legal sequence of calls in the midst of arrivals and rejections. -/
theorem run_follows_busy :
    ((run busyEnvironment 1 busyOperations .initial).calls.filter fun event =>
      event.connection = 1) =
        [⟨1, .begin, true⟩, ⟨1, .createSavepoint 0, true⟩, ⟨1, .rollbackToSavepoint 0, true⟩,
          ⟨1, .commit, false⟩, ⟨1, .rollback, true⟩] ∧
      Follows true 1 (run busyEnvironment 1 busyOperations .initial) :=
  ⟨by decide, (run_follows busyEnvironment 1 busyOperations 1 (by decide)).2 savepointsResolve_busy
    ⟨trivial, trivial, trivial, trivial, trivial, trivial, trivial, trivial⟩⟩

/-- Every call resolves but for a new savepoint. -/
def savepointless : Environment where
  resolves _ _ call := !call.isSavepoint
  arrivals _ _ _ := []

/-- A savepoint that a connection rejects is on the manager's stack all the same: a
rollback to it is out of range on the connection. -/
theorem rollbackTo_out_of_range :
    (∀ operation ∈ [.registerConnection 1, .savepoint "a", .rollbackTo "a"],
        removes 1 operation = false) ∧
      ¬ Follows true 1
        (run savepointless 0 [.registerConnection 1, .savepoint "a", .rollbackTo "a"]
          .initial) := by
  refine ⟨by decide, ?_⟩
  rintro ⟨record, tracked, -⟩
  cases tracked

end Quereus.Core.Manager
