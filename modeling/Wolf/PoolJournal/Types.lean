import Wolf.Framework.Exec
import Wolf.Framework.Hex

/-! # The pool backend journal: data

The durable event journal of the pool backend: the protocol types it
stores, its on-disk records, its in-memory state and its errors.

Unsigned machine integers are natural numbers; an operation that the
source checks for overflow is a checked one at the same width. The
crates the journal rests on (the pool protocol, `serde_json`, `sha2`,
the block decoders) are the parameter `External`. -/

namespace Wolf.PoolJournal

/-! ## Limits -/

def journalFormatVersion : Nat := 2
def maxJournalEvents : Nat := 4000000
def maxJournalBytes : Nat := 4 * 1024 * 1024 * 1024
def maxJournalRecordBytes : Nat := 10 * 1024 * 1024
def maxWinnerBlockBytes : Nat := 2000000
def maxRetainedWinners : Nat := 100000

def headerDigestDomain : Bytes := "wcash-pool/backend-journal-header/v2\x00".toUTF8.data.toList

def eventDigestDomain : Bytes := "wcash-pool/backend-journal-event/v2\x00".toUTF8.data.toList

/-! ## Protocol types -/

abbrev Hex32 : Type := FixedBytes 32
abbrev TargetLe : Type := FixedBytes 32
abbrev CanonicalUuid : Type := FixedBytes 16

def CanonicalUuid.isNil (uuid : CanonicalUuid) : Bool := uuid = FixedBytes.fill 16 0

def Hex32.isZero (hash : Hex32) : Bool := hash = FixedBytes.fill 32 0

inductive MergedChain where
  | wcash
  | zcash
  deriving DecidableEq, Repr

def chainName : MergedChain → String
  | .wcash => "Wcash"
  | .zcash => "Zcash"

structure ChainTip where
  blockHashLe : Hex32
  height : Nat
  deriving DecidableEq

structure WinnerDescriptor where
  chain : MergedChain
  blockHashLe : Hex32
  height : Nat
  coinbaseTxidLe : Hex32
  rewardZat : Nat
  maturityConfirmations : Nat
  deriving DecidableEq

structure ShareReceipt where
  eventSeq : Nat
  jobId : Hex32
  shareId : Hex32
  attributionId : Hex32
  parentHashLe : Hex32
  winners : List WinnerDescriptor
  deriving DecidableEq

structure WorkerIdentity where
  accountId : CanonicalUuid
  workerId : CanonicalUuid
  label : String
  deriving DecidableEq

structure JobDescriptor where
  jobId : Hex32
  wcashCandidateHashLe : Hex32
  headerInput : FixedBytes 108
  wcashPreviousHashLe : Hex32
  zcashPreviousHashLe : Hex32
  wcashCoinbaseTxidLe : Hex32
  zcashCoinbaseTxidLe : Hex32
  wcashTargetLe : TargetLe
  zcashTargetLe : TargetLe
  wcashHeight : Nat
  zcashHeight : Nat
  wcashRewardZat : Nat
  zcashRewardZat : Nat
  wcashMaturityConfirmations : Nat
  zcashMaturityConfirmations : Nat
  maxAgeMs : Nat
  deriving DecidableEq

inductive JobInvalidationReason where
  | age
  | superseded
  | wcashTipChanged
  | zcashTipChanged
  deriving DecidableEq

/-- `JournalWinnerTransition`: one lifecycle result of reconciliation. -/
inductive WinnerTransition where
  | sideChain (tip : ChainTip)
  | observed (tip : ChainTip) (confirmations : Nat)
  | orphaned (tip : ChainTip)
  | quarantined (tip : ChainTip)
  | requeued (tip : ChainTip)
  | matured (tip : ChainTip) (confirmations : Nat)
  deriving DecidableEq

/-- `BackendEvent`. The six variants `WinnerSideChain`, `WinnerObserved`,
`WinnerOrphaned`, `WinnerQuarantined`, `WinnerRequeued` and
`WinnerMatured` share the fields of `winnerChanged`; which one it is,
with its tip and confirmations, is the `change`. -/
inductive BackendEvent where
  | jobActivated (eventSeq : Nat) (job : JobDescriptor)
  | jobInvalidated (eventSeq : Nat) (jobId : Hex32) (reason : JobInvalidationReason)
      (acceptForMs : Nat)
  | generationClosed (eventSeq : Nat) (jobId : Hex32)
  | shareCommitted (receipt : ShareReceipt) (jobId : Hex32) (identity : WorkerIdentity)
      (targetLe : TargetLe)
  | winnerChanged (eventSeq : Nat) (shareId jobId : Hex32) (winner : WinnerDescriptor)
      (change : WinnerTransition)
  deriving DecidableEq

/-- `BackendEvent::event_seq`. A committed share carries its sequence in
the receipt. -/
def BackendEvent.eventSeq : BackendEvent → Nat
  | .jobActivated eventSeq _ => eventSeq
  | .jobInvalidated eventSeq _ _ _ => eventSeq
  | .generationClosed eventSeq _ => eventSeq
  | .shareCommitted receipt _ _ _ => receipt.eventSeq
  | .winnerChanged eventSeq _ _ _ _ => eventSeq

/-! ## Records on disk -/

/-- `JournalHeader`, without the record tag that has a single value. -/
structure JournalHeader where
  formatVersion : Nat
  backendProtocolVersion : Nat
  backendInstance : CanonicalUuid
  journalStream : CanonicalUuid
  wcashGenesis : Hex32
  zcashGenesis : Hex32
  wcashPayoutCommitment : Hex32
  zcashPayoutCommitment : Hex32
  chainId : Nat
  deriving DecidableEq

/-- `PersistedWinnerBlocks`: hexadecimal text. -/
structure PersistedWinnerBlocks where
  wcash : Option Bytes := none
  zcash : Option Bytes := none
  deriving DecidableEq

def PersistedWinnerBlocks.isEmpty (blocks : PersistedWinnerBlocks) : Bool :=
  blocks.wcash.isNone && blocks.zcash.isNone

/-- `PersistedEventRecord`, without its constant record tag. -/
structure PersistedEventRecord where
  eventSeq : Nat
  event : BackendEvent
  winnerBlocks : PersistedWinnerBlocks
  previousDigest : Hex32
  digest : Hex32
  deriving DecidableEq

structure CanonicalUnsignedEventRecord where
  eventSeq : Nat
  event : BackendEvent
  winnerBlocks : PersistedWinnerBlocks
  previousDigest : Hex32
  deriving DecidableEq

/-! ## State in memory -/

/-- `JournalWinnerBlocks`: exact decoded blocks. -/
structure JournalWinnerBlocks where
  wcash : Option Bytes := none
  zcash : Option Bytes := none
  deriving DecidableEq

/-- The block kept for a chain. -/
def JournalWinnerBlocks.get (blocks : JournalWinnerBlocks) : MergedChain → Option Bytes
  | .wcash => blocks.wcash
  | .zcash => blocks.zcash

structure JournalShareCommit where
  receipt : ShareReceipt
  replayed : Bool
  deriving DecidableEq

/-- `JournalWinnerLifecycle`. -/
inductive WinnerLifecycle where
  | pending
  | sideChain (tip : ChainTip)
  | observed (tip : ChainTip) (confirmations : Nat)
  | orphaned (tip : ChainTip)
  | quarantined (tip : ChainTip)
  | requeued (tip : ChainTip)
  | matured (tip : ChainTip) (confirmations : Nat)
  deriving DecidableEq

def WinnerLifecycle.requiresSubmission : WinnerLifecycle → Bool
  | .pending => true
  | .requeued _ => true
  | _ => false

structure JournalWinnerState where
  shareId : Hex32
  jobId : Hex32
  winner : WinnerDescriptor
  parentHashLe : Hex32
  blockBytes : Bytes
  lifecycle : WinnerLifecycle
  revisionEventSeq : Nat
  deriving DecidableEq

def WinnerTransition.intoEvent (transition : WinnerTransition) (eventSeq : Nat)
    (state : JournalWinnerState) : BackendEvent :=
  .winnerChanged eventSeq state.shareId state.jobId state.winner transition

structure WinnerKey where
  shareId : Hex32
  chain : MergedChain
  deriving DecidableEq

inductive JobLifecycle where
  | active
  | invalidated
  | closed
  deriving DecidableEq

structure JournalJobState where
  job : JobDescriptor
  lifecycle : JobLifecycle
  deriving DecidableEq

structure JournalShareState where
  receipt : ShareReceipt
  identity : WorkerIdentity
  targetLe : TargetLe
  blocks : JournalWinnerBlocks
  deriving DecidableEq

/-- `JournalSemanticState`. Winners are never removed; `winnerOrder`
lists their keys in journal order. -/
structure JournalSemanticState where
  jobs : HashMap Hex32 JournalJobState := ∅
  shares : HashMap Hex32 JournalShareState := ∅
  winners : HashMap WinnerKey JournalWinnerState := ∅
  winnerOrder : List WinnerKey := []

/-- `JournalState`, with the contents of the locked file. -/
structure JournalState where
  file : Bytes
  bytesWritten : Nat
  lastDigest : Hex32
  events : List BackendEvent
  semantic : JournalSemanticState
  poisoned : Bool

/-! ## Errors -/

/-- Errors of the operating system, the allocator, the protocol crate and
the block validation carry their text only. -/
abbrev IoError : Type := String
abbrev TryReserveError : Type := String
abbrev ProtocolError : Type := String

inductive Category where
  | io
  | syntaxError
  | data
  | eof
  deriving DecidableEq

/-- `serde_json::Error`. -/
structure SerdeError where
  classify : Category
  message : String
  deriving DecidableEq

/-- `PoolBackendJournalError`. The journal's path, the same in every
error of one journal, is left out. `panicked` is not a value of the
source's type: it stands for a panic with the given message. -/
inductive PoolBackendJournalError where
  | invalidPath (reason : String)
  | alreadyExists
  | io (operation : String) (source : IoError)
  | lock (source : IoError)
  | symbolicLink
  | notRegularFile
  | unsafeParentType
  | unsafeParentMode
  | unsafeParentOwner (ownerUid effectiveUid : Nat)
  | unsafeFileMode (mode : Nat)
  | unsafeFileOwner (ownerUid effectiveUid : Nat)
  | hardLinked (links : Nat)
  | pathChanged
  | invalidConfiguration (reason : String)
  | emptyJournal
  | unterminatedHeader
  | malformedHeader (source : SerdeError)
  | unsupportedVersion (field : String) (actual : Nat)
  | headerMismatch (field : String)
  | malformedRecord (line : Nat) (source : SerdeError)
  | recordTooLarge (line maximum : Nat)
  | journalTooLarge (maximum : Nat)
  | eventCapacity (maximum : Nat)
  | winnerCapacity (maximum : Nat)
  | overflow
  | allocation (source : TryReserveError)
  | invalidEvent (eventSeq : Nat) (source : ProtocolError)
  | semanticViolation (eventSeq : Nat) (reason : String)
  | shareConflict (shareId : Hex32)
  | winnerNotFound (shareId : Hex32) (chain : MergedChain)
  | winnerRevisionConflict (shareId : Hex32) (chain : MergedChain) (expected actual : Nat)
  | invalidWinnerBlock (eventSeq : Nat) (chain : String) (reason : String)
  | shareRequiresAtomicAppend
  | winnerRequiresCompareAndSwap
  | eventSequenceMismatch (recordSeq eventSeq : Nat)
  | nonContiguousSequence (expected actual : Nat)
  | previousDigestMismatch (eventSeq : Nat)
  | digestMismatch (eventSeq : Nat)
  | serialization (context : String) (source : SerdeError)
  | eventTooLargeForPage (eventSeq maximum : Nat)
  | invalidPageLimit (actual maximum : Nat)
  | cursorBeyondEnd (after current : Nat)
  | poisoned
  | panicked (message : String)
  deriving DecidableEq

/-- A fallible step of the journal. -/
abbrev Result (α : Type) : Type := Except PoolBackendJournalError α

/-! ## What the journal calls -/

/-- Facts of a decoded block that the journal binds to the job.
`target` is `none` where the compact target does not expand. -/
structure BlockFacts where
  previousHash : Hex32
  target : Option TargetLe
  coinbaseTxid : Option Hex32

/-- `BackendMessage::EventsPage`. -/
structure EventsPage where
  version : Nat
  id : Nat
  afterEventSeq : Nat
  nextEventSeq : Nat
  complete : Bool
  events : List BackendEvent

/-- Code outside the journal: the pool protocol crate, the JSON encoding
of the schema types, SHA-256 and the block validation. -/
structure External where
  backendProtocolVersion : Nat
  maxBackendPayloadBytes : Nat
  maxEventPageItems : Nat
  /-- `BackendEvent::validate`. -/
  validateEvent : BackendEvent → Except ProtocolError Unit
  validateForJob : ShareReceipt → JobDescriptor → Except ProtocolError Unit
  canonicalAttributionId : WorkerIdentity → TargetLe → Except ProtocolError Hex32
  /-- `serde_json::to_vec` at each type that the journal encodes. -/
  headerJson : JournalHeader → Except SerdeError Bytes
  unsignedRecordJson : CanonicalUnsignedEventRecord → Except SerdeError Bytes
  recordJson : PersistedEventRecord → Except SerdeError Bytes
  eventJson : BackendEvent → Except SerdeError Bytes
  eventsPageJson : EventsPage → Except SerdeError Bytes
  /-- `serde_json::from_slice` at the two types that the journal reads. -/
  parseHeader : Bytes → Except SerdeError JournalHeader
  parseRecord : Bytes → Except SerdeError PersistedEventRecord
  /-- `Sha256::digest`. -/
  sha256 : Bytes → Hex32
  /-- `validate_persisted_winner_block`, with the display hash in
  hexadecimal; the result is the parent hash of the proof. -/
  validatePersistedWinnerBlock : Bytes → Bytes → Nat → MergedChain → Except String Hex32
  /-- `zcash_deserialize_into` of a block of a chain. -/
  decodeBlock : MergedChain → Bytes → Except String BlockFacts

end Wolf.PoolJournal
