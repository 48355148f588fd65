import Wolf.PoolJournal.Semantic

/-! # The pool backend journal: creation and appends

`create_new`, `append_event`, `append_share_committed` and
`compare_and_transition_winner`, all of which end in `append_locked`.

The operating system and the allocator are an explicit environment: for
every call that can fail, whether it fails, and for a failed write how
many bytes reached the file. `apply_record` runs before the first
write; from then on every failure poisons the journal. -/

namespace Wolf.PoolJournal

open PoolBackendJournalError Exec

variable (x : External)

/-! ## Files -/

/-- `verify_locked_journal_path`: the checks of path, owner, mode and links
have the given outcome, then the length is compared. -/
def verifyLockedJournalPath (outcome : Option PoolBackendJournalError) (file : Bytes)
    (expectedLength : Nat) : Result Unit :=
  match outcome with
  | some error => .error error
  | none => rejectIf (file.length ≠ expectedLength) pathChanged

/-- An operating-system call with the given outcome. -/
def journalIo (operation : String) : Option IoError → Result Unit
  | none => .ok ()
  | some source => .error (io operation source)

def newline : UInt8 := 0x0a

/-! ## Creation -/

/-- `fresh_journal_stream`, given the random identifiers it draws. -/
def freshJournalStream (candidates : List CanonicalUuid) (backendInstance : CanonicalUuid) :
    Result CanonicalUuid :=
  okOr ((candidates.take 8).find? (fun candidate => candidate ≠ backendInstance))
    (invalidConfiguration "could not create a unique random journal stream identity")

/-- Outcomes of the calls made by `create_new`. `prepare` is the first
failure of the path checks, the creation, the lock and the mode. -/
structure CreateEnv where
  candidates : List CanonicalUuid
  prepare : Option PoolBackendJournalError := none
  verifyBefore : Option PoolBackendJournalError := none
  write : Option IoError := none
  sync : Option IoError := none
  verifyAfter : Option PoolBackendJournalError := none
  syncParent : Option IoError := none
  seek : Option IoError := none

/-- The header that `create_new` writes. -/
def newHeader (identity : JournalIdentity) (journalStream : CanonicalUuid) : JournalHeader where
  formatVersion := journalFormatVersion
  backendProtocolVersion := x.backendProtocolVersion
  backendInstance := identity.backendInstance
  journalStream := journalStream
  wcashGenesis := identity.wcashGenesis
  zcashGenesis := identity.zcashGenesis
  wcashPayoutCommitment := identity.wcashPayoutCommitment
  zcashPayoutCommitment := identity.zcashPayoutCommitment
  chainId := identity.chainId

def createNewWithStream (env : CreateEnv) (identity : JournalIdentity)
    (journalStream : CanonicalUuid) : Result (JournalHeader × JournalState) := do
  validateIdentityAndNetwork identity (some journalStream)
  let header := newHeader x identity journalStream
  let lastDigest ← digestHeader x header
  let json ← canonicalJson (x.headerJson header) "journal header"
  let encodedHeader := json ++ [newline]
  checkRecordSize encodedHeader.length 1
  match env.prepare with
  | some error => .error error
  | none => do
    verifyLockedJournalPath env.verifyBefore [] 0
    journalIo "write header to" env.write
    journalIo "fsync" env.sync
    verifyLockedJournalPath env.verifyAfter encodedHeader encodedHeader.length
    journalIo "fsync parent of" env.syncParent
    journalIo "seek" env.seek
    .ok (header,
      { file := encodedHeader
        bytesWritten := encodedHeader.length
        lastDigest := lastDigest
        events := []
        semantic := {}
        poisoned := false })

def createNew (env : CreateEnv) (identity : JournalIdentity) :
    Result (JournalHeader × JournalState) := do
  let journalStream ← freshJournalStream env.candidates identity.backendInstance
  createNewWithStream x env identity journalStream

/-! ## `append_locked` -/

/-- A method of the journal, with the state mutex held. -/
abbrev JournalM (α : Type) : Type := EStateM PoolBackendJournalError JournalState α

/-- Outcomes of the calls made by one append. A failed write leaves a
number of bytes in the file. -/
structure AppendEnv where
  reserveEvents : Option TryReserveError := none
  reserveJobs : Option TryReserveError := none
  reserveShares : Option TryReserveError := none
  reserveWinners : Option TryReserveError := none
  reserveOrder : Option TryReserveError := none
  blockMemory : BlockMemory := fun _ => none
  verifyBefore : Option PoolBackendJournalError := none
  write : Option (Nat × IoError) := none
  sync : Option IoError := none
  verifyAfter : Option PoolBackendJournalError := none

def ensureUsable (state : JournalState) : Result Unit := rejectIf state.poisoned poisoned

/-- `events.last().map_or(0, BackendEvent::event_seq)`. -/
def lastEventSeq (events : List BackendEvent) : Nat :=
  (events.getLast?.map BackendEvent.eventSeq).getD 0

def nextEventSeq (events : List BackendEvent) : Result Nat :=
  okOr (checkedAdd 64 (lastEventSeq events) 1) overflow

def eventWithSequence (eventSeq : Nat) : BackendEvent → Result BackendEvent
  | .jobActivated _ job => .ok (.jobActivated eventSeq job)
  | .jobInvalidated _ jobId reason acceptForMs =>
    .ok (.jobInvalidated eventSeq jobId reason acceptForMs)
  | .generationClosed _ jobId => .ok (.generationClosed eventSeq jobId)
  | .shareCommitted _ _ _ _ =>
    .error (panicked "share events are rejected before sequence allocation")
  | .winnerChanged _ shareId jobId winner change =>
    .ok (.winnerChanged eventSeq shareId jobId winner change)

def reserveFor (env : AppendEnv) (self : JournalSemanticState) : BackendEvent → Result Unit
  | .jobActivated _ _ => tryReserve env.reserveJobs
  | .shareCommitted receipt _ _ _ => do
    let _ ← checkedWinnerCapacity self.winnerOrder.length receipt.winners.length
    tryReserve env.reserveShares
    tryReserve env.reserveWinners
    tryReserve env.reserveOrder
  | _ => .ok ()

/-- What `append_locked` has computed when it calls `apply_record`. -/
structure PreparedAppend where
  record : PersistedEventRecord
  encoded : Bytes
  newLength : Nat

/-- `append_locked` up to its call of `apply_record`. -/
def prepareAppend (env : AppendEnv) (state : JournalState) (event : BackendEvent)
    (winnerBlocks : PersistedWinnerBlocks) : Result PreparedAppend := do
  mapErr (invalidEvent event.eventSeq) (x.validateEvent event)
  ensureEventFitsPage x event
  let expected ← nextEventSeq state.events
  rejectIf (event.eventSeq ≠ expected) (nonContiguousSequence expected event.eventSeq)
  tryReserve env.reserveEvents
  reserveFor env state.semantic event
  let digest ← digestEvent x event winnerBlocks state.lastDigest
  let record : PersistedEventRecord :=
    { eventSeq := event.eventSeq, event, winnerBlocks, previousDigest := state.lastDigest, digest }
  let json ← canonicalJson (x.recordJson record) "journal event record"
  let encoded := json ++ [newline]
  checkRecordSize encoded.length (min (expected + 1) (2 ^ 64 - 1))
  let recordBytes ← okOr (checkedAdd 64 encoded.length 0) overflow
  let newLength ← checkedAppendLimits state.events.length state.bytesWritten recordBytes
  .ok { record, encoded, newLength }

/-- `if let Err(error) = .. { state.poisoned = true; return Err(error) }`. -/
def orPoison : Result Unit → JournalM Unit
  | .ok () => pure ()
  | .error error => do
    modify fun state => { state with poisoned := true }
    throw error

/-- `write_all` of an append: all of the bytes, or some and an error. -/
def writeAppend (outcome : Option (Nat × IoError)) (encoded : Bytes) : JournalM Unit :=
  match outcome with
  | none => modify fun state => { state with file := state.file ++ encoded }
  | some (written, source) => do
    modify fun state => { state with file := state.file ++ encoded.take written }
    orPoison (.error (io "append to" source))

/-- `append_locked` after its call of `apply_record`. -/
def persistAppend (env : AppendEnv) (prepared : PreparedAppend) : JournalM Unit := do
  let state ← get
  orPoison (verifyLockedJournalPath env.verifyBefore state.file state.bytesWritten)
  writeAppend env.write prepared.encoded
  orPoison (journalIo "fsync" env.sync)
  let state ← get
  orPoison (verifyLockedJournalPath env.verifyAfter state.file prepared.newLength)
  modify fun state =>
    { state with
      bytesWritten := prepared.newLength
      lastDigest := prepared.record.digest
      events := state.events ++ [prepared.record.event] }

def appendLocked (env : AppendEnv) (event : BackendEvent) (winnerBlocks : PersistedWinnerBlocks) :
    JournalM Unit := do
  let state ← get
  let prepared ← check (prepareAppend x env state event winnerBlocks)
  onField JournalState.semantic (fun semantic state => { state with semantic })
    (applyRecord x env.blockMemory prepared.record)
  persistAppend env prepared

/-! ## The public appends -/

/-- `append_event`. The sequence number of the given event is replaced. -/
def appendEvent (env : AppendEnv) (event : BackendEvent) : JournalM BackendEvent :=
  match event with
  | .shareCommitted _ _ _ _ => throw shareRequiresAtomicAppend
  | .winnerChanged _ _ _ _ _ => throw winnerRequiresCompareAndSwap
  | event => do
    let state ← get
    check (ensureUsable state)
    let eventSeq ← check (nextEventSeq state.events)
    let event ← check (eventWithSequence eventSeq event)
    appendLocked x env event {}
    pure event

/-- The arguments of `append_share_committed`. -/
structure ShareSubmission where
  jobId : Hex32
  shareId : Hex32
  parentHashLe : Hex32
  winners : List WinnerDescriptor
  identity : WorkerIdentity
  targetLe : TargetLe
  winnerBlocks : JournalWinnerBlocks
  deriving DecidableEq

/-- The receipt of a submission at a sequence number. -/
def ShareSubmission.receipt (share : ShareSubmission) (eventSeq : Nat) (attributionId : Hex32) :
    ShareReceipt where
  eventSeq := eventSeq
  jobId := share.jobId
  shareId := share.shareId
  attributionId := attributionId
  parentHashLe := share.parentHashLe
  winners := share.winners

/-- The branch of `append_share_committed` for a known share. -/
def replayShare (share : ShareSubmission) (attributionId : Hex32) (existing : JournalShareState) :
    Result JournalShareCommit :=
  if existing.receipt = share.receipt existing.receipt.eventSeq attributionId ∧
      existing.identity = share.identity ∧ existing.targetLe = share.targetLe ∧
      existing.blocks = share.winnerBlocks then
    .ok { receipt := existing.receipt, replayed := true }
  else
    .error (shareConflict share.shareId)

/-- The branch of `append_share_committed` for a new share. -/
def commitShare (env : AppendEnv) (share : ShareSubmission) (attributionId : Hex32) :
    JournalM JournalShareCommit := do
  let state ← get
  let eventSeq ← check (nextEventSeq state.events)
  let receipt := share.receipt eventSeq attributionId
  let persistedBlocks ← check (encodeWinnerBlocks share.winnerBlocks eventSeq)
  appendLocked x env (.shareCommitted receipt share.jobId share.identity share.targetLe)
    persistedBlocks
  pure { receipt, replayed := false }

def appendShareCommitted (env : AppendEnv) (share : ShareSubmission) :
    JournalM JournalShareCommit := do
  let attributionId ← check
    (mapErr (invalidEvent 0) (x.canonicalAttributionId share.identity share.targetLe))
  let state ← get
  check (ensureUsable state)
  match state.semantic.shares.lookup share.shareId with
  | some existing => check (replayShare share attributionId existing)
  | none => commitShare x env share attributionId

def compareAndTransitionWinner (env : AppendEnv) (shareId : Hex32) (chain : MergedChain)
    (expectedRevision : Nat) (transition : WinnerTransition) : JournalM BackendEvent := do
  let state ← get
  check (ensureUsable state)
  let winner ← check (okOr (state.semantic.winners.lookup ⟨shareId, chain⟩)
    (winnerNotFound shareId chain))
  check (rejectIf (winner.revisionEventSeq ≠ expectedRevision)
    (winnerRevisionConflict shareId chain expectedRevision winner.revisionEventSeq))
  let eventSeq ← check (nextEventSeq state.events)
  let event := transition.intoEvent eventSeq winner
  appendLocked x env event {}
  pure event

/-- One call of a public append. Its result is kept only as success or
failure. -/
inductive AppendCall where
  | event (proposed : BackendEvent)
  | share (submission : ShareSubmission)
  | winner (shareId : Hex32) (chain : MergedChain) (expectedRevision : Nat)
      (transition : WinnerTransition)

def AppendCall.run (env : AppendEnv) : AppendCall → JournalM Unit
  | .event proposed => do
    let _ ← appendEvent x env proposed
    pure ()
  | .share submission => do
    let _ ← appendShareCommitted x env submission
    pure ()
  | .winner shareId chain expectedRevision transition => do
    let _ ← compareAndTransitionWinner x env shareId chain expectedRevision transition
    pure ()

end Wolf.PoolJournal
