import Wolf.PoolJournal.Readers

/-! # The winner audit scheduler of the pool backend actor

The scheduler reads the durable order of the winners and goes round the
proofs below a bound, first those to submit, then those that are not
mature, then one mature one.

Each read of the journal is taken under the lock of the actor, so `next`
is cut into three passes where it releases the lock, and composes them
over a journal that does not change in between. The scheduler of first
attempts is not part of the model. -/

namespace Wolf.PoolActor

open PoolJournal Exec

/-! ## Durations, errors and snapshots -/

/-- `Duration`, in nanoseconds. -/
abbrev Duration : Type := Nat

def fromMillis (milliseconds : Nat) : Duration := milliseconds * 1000000

def fromSecs (seconds : Nat) : Duration := seconds * 1000000000

/-- The errors of `PoolBackendActorError` that the scheduler returns. A
poisoned mutex is no part of the model: a panic ends it. -/
inductive PoolBackendActorError where
  | journal (error : PoolBackendJournalError)
  | winnerAuthorityMismatch

structure PoolBackendWinnerKey where
  journalStream : CanonicalUuid
  winnerOrdinal : Nat
  shareId : Hex32
  chain : MergedChain
  deriving DecidableEq

structure PoolBackendWinnerSnapshot where
  journalStream : CanonicalUuid
  winnerOrdinal : Nat
  state : JournalWinnerState
  deriving DecidableEq

def PoolBackendWinnerSnapshot.key (snapshot : PoolBackendWinnerSnapshot) :
    PoolBackendWinnerKey where
  journalStream := snapshot.journalStream
  winnerOrdinal := snapshot.winnerOrdinal
  shareId := snapshot.state.shareId
  chain := snapshot.state.winner.chain

/-- The closure that makes a snapshot of a journal entry. -/
def winnerSnapshot (journalStream : CanonicalUuid) (winner : Nat × JournalWinnerState) :
    PoolBackendWinnerSnapshot where
  journalStream := journalStream
  winnerOrdinal := winner.1
  state := winner.2

/-! ## The audit scheduler -/

def winnerSubmissionRetryInterval : Duration := fromMillis 100

def winnerHistoricalStepInterval : Duration := fromMillis 100

structure PoolBackendWinnerWork where
  snapshot : Option PoolBackendWinnerSnapshot
  completesPass : Bool
  delay : Duration
  deriving DecidableEq

structure PoolBackendWinnerAuditScheduler where
  chain : Option MergedChain := none
  journalStream : Option CanonicalUuid := none
  submissionAfter : Option PoolBackendWinnerKey := none
  submissionPassComplete : Bool := false
  unsettledAfter : Option PoolBackendWinnerKey := none
  maturedAfter : Option PoolBackendWinnerKey := none
  deriving DecidableEq

variable (journalStream : CanonicalUuid) (journal : JournalState)
  (after : Option PoolBackendWinnerKey) (beforeOrdinal : Nat) (chain : Option MergedChain)

def nextWinnerSnapshotBeforeWith
    (select : Option Nat → Nat → JournalState → Result (Option (Nat × JournalWinnerState))) :
    Except PoolBackendActorError (Option PoolBackendWinnerSnapshot) := do
  rejectIf (after.any fun key => key.journalStream ≠ journalStream) .winnerAuthorityMismatch
  let winner ← mapErr .journal
    (select (after.map PoolBackendWinnerKey.winnerOrdinal) beforeOrdinal journal)
  .ok (winner.map (winnerSnapshot journalStream))

def nextSubmissionRequiredWinnerSnapshotBefore :
    Except PoolBackendActorError (Option PoolBackendWinnerSnapshot) :=
  nextWinnerSnapshotBeforeWith journalStream journal after beforeOrdinal fun after before journal =>
    nextSubmissionRequiredWinnerStateBeforeForChain after before chain journal

def nextUnsettledWinnerSnapshotBefore :
    Except PoolBackendActorError (Option PoolBackendWinnerSnapshot) :=
  nextWinnerSnapshotBeforeWith journalStream journal after beforeOrdinal fun after before journal =>
    nextWinnerStateByMaturityBefore after (some false) before chain journal

def nextMaturedWinnerSnapshotBefore :
    Except PoolBackendActorError (Option PoolBackendWinnerSnapshot) :=
  nextWinnerSnapshotBeforeWith journalStream journal after beforeOrdinal fun after before journal =>
    nextWinnerStateByMaturityBefore after (some true) before chain journal

namespace PoolBackendWinnerAuditScheduler

def forChain (chain : MergedChain) : PoolBackendWinnerAuditScheduler where
  chain := some chain

/-- A method of the scheduler. -/
abbrev AuditM (α : Type) : Type := EStateM PoolBackendActorError PoolBackendWinnerAuditScheduler α

/-- The start of `next`: the scheduler is bound to one journal. -/
def bindStream : AuditM Unit := do
  let self ← get
  check (rejectIf (self.journalStream.any fun bound => bound ≠ journalStream)
    .winnerAuthorityMismatch)
  set { self with journalStream := some journalStream }

/-- The submission tier of `next`. It gives no work when its pass is over. -/
def submissionPass : AuditM (Option PoolBackendWinnerWork) := do
  let self ← get
  if self.submissionPassComplete then pure none
  else
    match ← check (nextSubmissionRequiredWinnerSnapshotBefore journalStream journal
        self.submissionAfter beforeOrdinal self.chain) with
    | some snapshot =>
      set { self with submissionAfter := some snapshot.key }
      pure (some ⟨some snapshot, false, winnerSubmissionRetryInterval⟩)
    | none =>
      set { self with submissionAfter := none, submissionPassComplete := true }
      pure none

/-- The lifecycle tier of `next`. At the end of its pass the submission
tier is due again. -/
def unsettledPass : AuditM (Option PoolBackendWinnerWork) := do
  let self ← get
  match ← check (nextUnsettledWinnerSnapshotBefore journalStream journal
      self.unsettledAfter beforeOrdinal self.chain) with
  | some snapshot =>
    set { self with unsettledAfter := some snapshot.key }
    pure (some ⟨some snapshot, false, winnerHistoricalStepInterval⟩)
  | none =>
    set { self with unsettledAfter := none, submissionPassComplete := false }
    pure none

/-- The maturity tier of `next`, which ends a round. -/
def maturedPass : AuditM PoolBackendWinnerWork := do
  let self ← get
  let snapshot ← check (nextMaturedWinnerSnapshotBefore journalStream journal
    self.maturedAfter beforeOrdinal self.chain)
  set { self with maturedAfter := snapshot.map PoolBackendWinnerSnapshot.key }
  pure ⟨snapshot, true, fromSecs 1⟩

def next : AuditM PoolBackendWinnerWork := do
  bindStream journalStream
  match ← submissionPass journalStream journal beforeOrdinal with
  | some work => pure work
  | none =>
    match ← unsettledPass journalStream journal beforeOrdinal with
    | some work => pure work
    | none => maturedPass journalStream journal beforeOrdinal

/-! ## The tiers, by what they read -/

section

variable {journalStream journal beforeOrdinal} {self : PoolBackendWinnerAuditScheduler}
  {found : Option PoolBackendWinnerSnapshot}
  {e : PoolBackendActorError}

theorem bindStream_ok (h : ∀ bound ∈ self.journalStream, bound = journalStream) :
    bindStream journalStream self = .ok () { self with journalStream := some journalStream } := by
  have hbound : ¬ (self.journalStream.any fun bound => bound ≠ journalStream) = true := by
    cases hstream : self.journalStream with
    | none => exact Bool.false_ne_true
    | some bound => simpa using h bound hstream
  unfold bindStream
  rw [get_bind_run, check_bind_of_ok (rejectIf_of_not hbound)]
  rfl

theorem submissionPass_ok (hpass : self.submissionPassComplete = false)
    (hread : nextSubmissionRequiredWinnerSnapshotBefore journalStream journal self.submissionAfter
      beforeOrdinal self.chain = .ok found) :
    submissionPass journalStream journal beforeOrdinal self
      = .ok (found.map fun snapshot => ⟨some snapshot, false, winnerSubmissionRetryInterval⟩)
          { self with
            submissionAfter := found.map PoolBackendWinnerSnapshot.key
            submissionPassComplete := found.isNone } := by
  unfold submissionPass
  rw [get_bind_run, if_neg (Bool.eq_false_iff.mp hpass), check_bind_of_ok hread]
  cases found with
  | none => rfl
  | some snapshot => exact congrArg (fun complete => EStateM.Result.ok _
      { self with submissionAfter := some snapshot.key, submissionPassComplete := complete }) hpass

theorem submissionPass_error (hpass : self.submissionPassComplete = false)
    (hread : nextSubmissionRequiredWinnerSnapshotBefore journalStream journal self.submissionAfter
      beforeOrdinal self.chain = .error e) :
    submissionPass journalStream journal beforeOrdinal self = .error e self := by
  unfold submissionPass
  rw [get_bind_run, if_neg (Bool.eq_false_iff.mp hpass)]
  exact check_bind_err.mpr (.inl ⟨hread, rfl⟩)

theorem submissionPass_complete (hpass : self.submissionPassComplete = true) :
    submissionPass journalStream journal beforeOrdinal self = .ok none self := by
  unfold submissionPass
  rw [get_bind_run, if_pos hpass]
  rfl

theorem unsettledPass_ok
    (hread : nextUnsettledWinnerSnapshotBefore journalStream journal self.unsettledAfter
      beforeOrdinal self.chain = .ok found) :
    unsettledPass journalStream journal beforeOrdinal self
      = .ok (found.map fun snapshot => ⟨some snapshot, false, winnerHistoricalStepInterval⟩)
          { self with
            unsettledAfter := found.map PoolBackendWinnerSnapshot.key
            submissionPassComplete := found.isSome && self.submissionPassComplete } := by
  unfold unsettledPass
  rw [get_bind_run, check_bind_of_ok hread]
  cases found <;> rfl

theorem unsettledPass_error
    (hread : nextUnsettledWinnerSnapshotBefore journalStream journal self.unsettledAfter
      beforeOrdinal self.chain = .error e) :
    unsettledPass journalStream journal beforeOrdinal self = .error e self := by
  exact check_bind_err.mpr (.inl ⟨hread, rfl⟩)

theorem maturedPass_ok
    (hread : nextMaturedWinnerSnapshotBefore journalStream journal self.maturedAfter
      beforeOrdinal self.chain = .ok found) :
    maturedPass journalStream journal beforeOrdinal self
      = .ok ⟨found, true, fromSecs 1⟩
          { self with maturedAfter := found.map PoolBackendWinnerSnapshot.key } := by
  unfold maturedPass
  rw [get_bind_run, check_bind_of_ok hread]
  rfl

end

end PoolBackendWinnerAuditScheduler

end Wolf.PoolActor
