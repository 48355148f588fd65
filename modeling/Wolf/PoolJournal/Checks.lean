import Wolf.PoolJournal.Types

/-! # The pool backend journal: checks without state

Validation of the journal's identity and header, the digest chain, the
size limits, and the private winner blocks of a committed share. -/

namespace Wolf.PoolJournal

open PoolBackendJournalError

variable (x : External)

/-! ## Identity and header -/

/-- The identity a journal is created with or expected to have. -/
structure JournalIdentity where
  backendInstance : CanonicalUuid
  wcashGenesis : Hex32
  zcashGenesis : Hex32
  wcashPayoutCommitment : Hex32
  zcashPayoutCommitment : Hex32
  chainId : Nat
  deriving DecidableEq

/-- The identity part of a header. -/
def JournalHeader.identity (header : JournalHeader) : JournalIdentity where
  backendInstance := header.backendInstance
  wcashGenesis := header.wcashGenesis
  zcashGenesis := header.zcashGenesis
  wcashPayoutCommitment := header.wcashPayoutCommitment
  zcashPayoutCommitment := header.zcashPayoutCommitment
  chainId := header.chainId

/-- The stream checks of `validate_identity_and_network`. -/
def validateStream (backendInstance : CanonicalUuid) : Option CanonicalUuid → Result Unit
  | none => .ok ()
  | some journalStream => do
    rejectIf journalStream.isNil (invalidConfiguration "journal_stream must be non-nil")
    rejectIf (journalStream = backendInstance)
      (invalidConfiguration "backend_instance and journal_stream must be distinct")

def validateIdentityAndNetwork (identity : JournalIdentity)
    (journalStream : Option CanonicalUuid) : Result Unit := do
  rejectIf identity.backendInstance.isNil (invalidConfiguration "backend_instance must be non-nil")
  validateStream identity.backendInstance journalStream
  rejectIf identity.wcashGenesis.isZero (invalidConfiguration "wcash_genesis must be nonzero")
  rejectIf identity.zcashGenesis.isZero (invalidConfiguration "zcash_genesis must be nonzero")
  rejectIf identity.wcashPayoutCommitment.isZero
    (invalidConfiguration "wcash_payout_commitment must be nonzero")
  rejectIf identity.zcashPayoutCommitment.isZero
    (invalidConfiguration "zcash_payout_commitment must be nonzero")
  rejectIf (identity.chainId = 0) (invalidConfiguration "chain_id must be nonzero")

def validateHeader (header : JournalHeader) : Result Unit := do
  rejectIf (header.formatVersion ≠ journalFormatVersion)
    (unsupportedVersion "journal format" header.formatVersion)
  rejectIf (header.backendProtocolVersion ≠ x.backendProtocolVersion)
    (unsupportedVersion "backend protocol" header.backendProtocolVersion)
  validateIdentityAndNetwork header.identity (some header.journalStream)

def validateExpectedHeader (header : JournalHeader) (expected : JournalIdentity) : Result Unit := do
  rejectIf (header.backendInstance ≠ expected.backendInstance) (headerMismatch "backend_instance")
  rejectIf (header.wcashGenesis ≠ expected.wcashGenesis) (headerMismatch "wcash_genesis")
  rejectIf (header.zcashGenesis ≠ expected.zcashGenesis) (headerMismatch "zcash_genesis")
  rejectIf (header.wcashPayoutCommitment ≠ expected.wcashPayoutCommitment)
    (headerMismatch "wcash_payout_commitment")
  rejectIf (header.zcashPayoutCommitment ≠ expected.zcashPayoutCommitment)
    (headerMismatch "zcash_payout_commitment")
  rejectIf (header.chainId ≠ expected.chainId) (headerMismatch "chain_id")

/-! ## Digests and sizes -/

/-- `canonical_json`: names the schema in the error. -/
def canonicalJson (encoded : Except SerdeError Bytes) (context : String) : Result Bytes :=
  mapErr (serialization context) encoded

/-- What `digest_canonical` hashes; the length goes in big-endian. -/
def digestPreimage (domain : Bytes) (length : Nat) (canonical : Bytes) : Bytes :=
  domain ++ (leBytes 8 length).reverse ++ canonical

def digestCanonical (domain : Bytes) (encoded : Except SerdeError Bytes) (context : String) :
    Result Hex32 := do
  let canonical ← canonicalJson encoded context
  let length ← okOr (checkedAdd 64 canonical.length 0) overflow
  .ok (x.sha256 (digestPreimage domain length canonical))

def digestHeader (header : JournalHeader) : Result Hex32 :=
  digestCanonical x headerDigestDomain (x.headerJson header) "journal header"

def digestEvent (event : BackendEvent) (winnerBlocks : PersistedWinnerBlocks)
    (previousDigest : Hex32) : Result Hex32 :=
  digestCanonical x eventDigestDomain
    (x.unsignedRecordJson ⟨event.eventSeq, event, winnerBlocks, previousDigest⟩)
    "unsigned event record"

/-- The envelope of `empty_events_page_payload_size`. -/
def emptyEventsPage (afterEventSeq : Nat) : EventsPage where
  version := x.backendProtocolVersion
  id := 2 ^ 64 - 1
  afterEventSeq
  nextEventSeq := 2 ^ 64 - 1
  complete := false
  events := []

def emptyEventsPagePayloadSize (afterEventSeq : Nat) : Result Nat := do
  let bytes ← canonicalJson (x.eventsPageJson (emptyEventsPage x afterEventSeq))
    "empty events-page envelope"
  .ok bytes.length

def ensureEventFitsPage (event : BackendEvent) : Result Unit := do
  let afterEventSeq ← okOr (checkedSub event.eventSeq 1) (nonContiguousSequence 1 0)
  let base ← emptyEventsPagePayloadSize x afterEventSeq
  let encoded ← canonicalJson (x.eventJson event) "backend event"
  let total ← okOr (checkedAdd 64 base encoded.length) overflow
  rejectIf (x.maxBackendPayloadBytes < total)
    (eventTooLargeForPage event.eventSeq x.maxBackendPayloadBytes)

def checkRecordSize (encodedBytes lineNumber : Nat) : Result Unit :=
  rejectIf (maxJournalRecordBytes < encodedBytes) (recordTooLarge lineNumber maxJournalRecordBytes)

/-- `checked_append_limits`: the length after the append. -/
def checkedAppendLimits (currentEventCount currentBytes recordBytes : Nat) : Result Nat := do
  rejectIf (maxJournalEvents ≤ currentEventCount) (eventCapacity maxJournalEvents)
  let newLength ← okOr (checkedAdd 64 currentBytes recordBytes) overflow
  rejectIf (maxJournalBytes < newLength) (journalTooLarge maxJournalBytes)
  .ok newLength

/-- `checked_winner_capacity`: the number of winners after the commit. -/
def checkedWinnerCapacity (currentWinners additionalWinners : Nat) : Result Nat := do
  let total ← okOr (checkedAdd 64 currentWinners additionalWinners) overflow
  rejectIf (maxRetainedWinners < total) (winnerCapacity maxRetainedWinners)
  .ok total

/-! ## Replayed records -/

def validateReplayedRecord (record : PersistedEventRecord) (expectedPreviousDigest : Hex32)
    (priorEventCount : Nat) : Result Unit := do
  let expected ← okOr (checkedAdd 64 priorEventCount 1) overflow
  rejectIf (record.eventSeq ≠ expected) (nonContiguousSequence expected record.eventSeq)
  rejectIf (record.event.eventSeq ≠ record.eventSeq)
    (eventSequenceMismatch record.eventSeq record.event.eventSeq)
  mapErr (invalidEvent record.eventSeq) (x.validateEvent record.event)
  rejectIf (record.previousDigest ≠ expectedPreviousDigest) (previousDigestMismatch record.eventSeq)
  let digest ← digestEvent x record.event record.winnerBlocks record.previousDigest
  rejectIf (record.digest ≠ digest) (digestMismatch record.eventSeq)

/-! ## Private winner blocks -/

/-- `encode` of `encode_winner_blocks`. -/
def encodeWinnerBlock (bytes : Option Bytes) (chain : String) (eventSeq : Nat) :
    Result (Option Bytes) :=
  match bytes with
  | none => .ok none
  | some bytes => do
    rejectIf (bytes.isEmpty ∨ maxWinnerBlockBytes < bytes.length)
      (invalidWinnerBlock eventSeq chain
        ("decoded block length must be in 1..=" ++ toString maxWinnerBlockBytes ++ ", found "
          ++ toString bytes.length))
    .ok (some (hexEncode bytes))

def encodeWinnerBlocks (blocks : JournalWinnerBlocks) (eventSeq : Nat) :
    Result PersistedWinnerBlocks := do
  let wcash ← encodeWinnerBlock blocks.wcash "Wcash" eventSeq
  let zcash ← encodeWinnerBlock blocks.zcash "Zcash" eventSeq
  .ok ⟨wcash, zcash⟩

/-- Which allocations made while decoding winner blocks fail. -/
abbrev BlockMemory : Type := MergedChain → Option TryReserveError

/-- `try_reserve(..).map_err(Allocation)` with a given outcome. -/
def tryReserve : Option TryReserveError → Result Unit
  | none => .ok ()
  | some error => .error (allocation error)

/-- `decode` of `decode_and_validate_winner_blocks`. -/
def decodeWinnerBlock (memory : Option TryReserveError) (encoded : Option Bytes) (chain : String)
    (eventSeq : Nat) : Result (Option Bytes) :=
  match encoded with
  | none => .ok none
  | some encoded => do
    let maximumEncoded ← okOr (checkedMul 64 maxWinnerBlockBytes 2) overflow
    rejectIf (encoded.isEmpty ∨ maximumEncoded < encoded.length ∨ encoded.length % 2 ≠ 0 ∨
        ¬ encoded.all isLowerHex)
      (invalidWinnerBlock eventSeq chain
        ("block must be 1..=" ++ toString maxWinnerBlockBytes
          ++ " bytes of canonical lowercase hex"))
    tryReserve memory
    let bytes ← okOr (hexDecode encoded)
      (invalidWinnerBlock eventSeq chain "invalid hexadecimal block bytes")
    .ok (some bytes)

/-- The job's predecessor hash on a chain. -/
def JobDescriptor.previousHashLe (job : JobDescriptor) : MergedChain → Hex32
  | .wcash => job.wcashPreviousHashLe
  | .zcash => job.zcashPreviousHashLe

/-- The job's target on a chain. -/
def JobDescriptor.targetLe (job : JobDescriptor) : MergedChain → TargetLe
  | .wcash => job.wcashTargetLe
  | .zcash => job.zcashTargetLe

def validateExactWinnerMetadata (blockBytes : Bytes) (winner : WinnerDescriptor)
    (job : JobDescriptor) (eventSeq : Nat) : Result Unit := do
  let metadataError := invalidWinnerBlock eventSeq (chainName winner.chain)
  let block ← mapErr
    (fun error => metadataError ("canonical " ++ chainName winner.chain
      ++ " block could not be decoded for metadata binding: " ++ error))
    (x.decodeBlock winner.chain blockBytes)
  let target ← okOr block.target (metadataError "block has an invalid compact target")
  rejectIf (block.previousHash ≠ job.previousHashLe winner.chain)
    (metadataError "block predecessor does not match its activated job")
  rejectIf (target ≠ job.targetLe winner.chain)
    (metadataError "block target does not match its activated job")
  rejectIf (block.coinbaseTxid ≠ some winner.coinbaseTxidLe)
    (metadataError "block coinbase transaction ID does not match its winner descriptor")

def validateExactWinnerBlock (blockBytes : Bytes) (winner : WinnerDescriptor)
    (receipt : ShareReceipt) (job : JobDescriptor) (eventSeq : Nat) : Result Unit := do
  let displayHash := winner.blockHashLe.reverse
  let recoveredParent ← mapErr (invalidWinnerBlock eventSeq (chainName winner.chain))
    (x.validatePersistedWinnerBlock blockBytes (hexEncode displayHash.data) winner.height
      winner.chain)
  rejectIf (recoveredParent ≠ receipt.parentHashLe)
    (invalidWinnerBlock eventSeq (chainName winner.chain)
      "block proof does not bind the receipt parent hash")
  validateExactWinnerMetadata x blockBytes winner job eventSeq

/-- One turn of the loop over both chains in
`decode_and_validate_winner_blocks`. -/
def validateChainBlock (blocks : JournalWinnerBlocks) (receipt : ShareReceipt)
    (job : JobDescriptor) (eventSeq : Nat) (chain : MergedChain) : Result Unit :=
  match receipt.winners.find? (fun winner => winner.chain = chain), blocks.get chain with
  | none, none => .ok ()
  | none, some _ =>
    .error (invalidWinnerBlock eventSeq (chainName chain)
      "block bytes were supplied without a winner descriptor")
  | some _, none =>
    .error (invalidWinnerBlock eventSeq (chainName chain)
      "winner descriptor has no exact retained block bytes")
  | some winner, some bytes => validateExactWinnerBlock x bytes winner receipt job eventSeq

def decodeAndValidateWinnerBlocks (memory : BlockMemory) (encoded : PersistedWinnerBlocks)
    (receipt : ShareReceipt) (job : JobDescriptor) (eventSeq : Nat) :
    Result JournalWinnerBlocks := do
  let wcash ← decodeWinnerBlock (memory .wcash) encoded.wcash "Wcash" eventSeq
  let zcash ← decodeWinnerBlock (memory .zcash) encoded.zcash "Zcash" eventSeq
  validateChainBlock x ⟨wcash, zcash⟩ receipt job eventSeq .wcash
  validateChainBlock x ⟨wcash, zcash⟩ receipt job eventSeq .zcash
  .ok ⟨wcash, zcash⟩

end Wolf.PoolJournal
