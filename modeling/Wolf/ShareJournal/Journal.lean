import Wolf.AuxPow.Basic
import Wolf.ShareJournal.Accounting

/-! # The share journal: the coordinator

`ShareJournal` of the coordinator: the replay at `open`, which rebuilds
the outbox of pending winners, and the three calls that append a line.

The calls run in `EStateM` over the state behind the journal's lock.
What the file system answers is an argument (`OpenEnv`, `AppendEnv`). -/

namespace Wolf.ShareJournal

open Exec

/-! ## Limits and data -/

def maxSharesPerJob : Nat := 100000
def maxPendingWinners : Nat := 4096
def maxReplayedWinnerShares : Nat := 1000000
def maxJournalBytes : Nat := 1024 * 1024 * 1024

structure ActiveJournalJob where
  jobId : Text
  childHashDisplay : Text
  childHeight : UInt32
  parentHeight : UInt32
  childCandidateBytes : Bytes

inductive JournalWorkerAuthentication where
  | operator
  | exactCredential
  | sharedSecret
  | legacyUnknown
  deriving DecidableEq

def JournalWorkerAuthentication.asStr : JournalWorkerAuthentication → Text
  | .operator => utf8 "operator"
  | .exactCredential => utf8 "exact_credential"
  | .sharedSecret => utf8 "shared_secret"
  | .legacyUnknown => utf8 "legacy_unknown"

def JournalWorkerAuthentication.fromPersisted : Option Text → Result JournalWorkerAuthentication
  | some value =>
    if value = utf8 "operator" then .ok .operator
    else if value = utf8 "exact_credential" then .ok .exactCredential
    else if value = utf8 "shared_secret" then .ok .sharedSecret
    else .error
      (.invalidRequest "share journal contains unknown worker authentication provenance" value)
  | none => .ok .legacyUnknown

structure ShareAttribution where
  worker : Text
  authentication : JournalWorkerAuthentication
  deriving DecidableEq

structure ShareReplayIdentity where
  attribution : ShareAttribution
  acceptedAt : Option Nat
  immutableFingerprint : Hex32
  deriving DecidableEq

structure PendingWinner where
  key : WinnerKey
  jobId : Text
  blockHashDisplay : Text
  height : Nat
  blockBytes : Bytes
  observedOnBestChain : Bool
  conflictingWitness : Bool
  deriving DecidableEq

structure JournalState where
  file : Bytes
  bytesWritten : Nat
  poisoned : Bool
  activeJob : Option ActiveJournalJob
  seenJobIds : Finset Hex32
  activeJobAttributions : HashMap Hex32 ShareReplayIdentity
  activeWinnerAttributions : HashMap Hex32 ShareReplayIdentity
  pendingWinners : HashMap WinnerKey PendingWinner

/-- The part of `ValidatedNativeShare` that the journal reads. -/
structure ValidatedNativeShare where
  parentBlockHash : Hex32
  acceptedTarget : AuxPow.Target
  /-- `wcash_candidate().encoded_proof()`. -/
  wcashCandidate : Option Bytes
  parentBlock : Option Bytes

/-! ## Text fields -/

def parseJournalId (encoded : Text) (kind : String) : Result Hex32 := do
  rejectIf (encoded.length ≠ 64)
    (invalid ("share journal contains a non-32-byte " ++ kind ++ " ID"))
  let bytes ← okOr (hexDecode encoded)
    (invalid ("share journal contains invalid " ++ kind ++ " ID"))
  if h : bytes.length = 32 then do
    rejectIf (encoded ≠ hexEncode bytes)
      (invalid ("share journal " ++ kind ++ " ID is not canonical lowercase hexadecimal"))
    .ok ⟨bytes, h⟩
  else .error (invalid ("share journal " ++ kind ++ " ID decoded to " ++ toString bytes.length ++
    " bytes, expected 32"))

def parseJobId (encoded : Text) : Result Hex32 := parseJournalId encoded "job"

def parseShareId (encoded : Text) : Result Hex32 := parseJournalId encoded "share"

def parseRawHash (encoded : Text) (field : String) : Result Hex32 := do
  rejectIf (encoded.length ≠ 64) (.invalidHexField field
    ("expected 64 hexadecimal characters, got " ++ toString encoded.length))
  let bytes ← okOr (hexDecode encoded) (.invalidHexField field "invalid character")
  if h : bytes.length = 32 then .ok ⟨bytes, h⟩
  else .error (.invalidHexField field
    ("decoded to " ++ toString bytes.length ++ " bytes, expected 32"))

def parseCanonicalJournalHex (encoded : Text) (field : String) : Result Hex32 := do
  let decoded ← parseRawHash encoded field
  rejectIf (encoded ≠ hexEncode decoded.data)
    (invalid ("share journal " ++ field ++ " is not canonical lowercase hexadecimal"))
  .ok decoded

def parseDisplayHash (encoded : Text) (field : String) : Result Hex32 := do
  let bytes ← parseRawHash encoded field
  .ok bytes.reverse

def displayHash (rawLittleEndian : Hex32) : Text := hexEncode rawLittleEndian.reverse.data

def displayTarget (target : AuxPow.Target) : Text := displayHash target.bytes

/-- `decode_bounded_hex`, with the bound of a block. -/
def decodeBoundedHex (encoded : Text) (field : String) : Result Bytes := do
  rejectIf (maxWinnerBlockBytes * 2 < encoded.length ∨ encoded.length % 2 ≠ 0)
    (.invalidHexField field ("expected complete bytes totalling at most 2000000 bytes, got " ++
      toString encoded.length ++ " hexadecimal characters"))
  okOr (hexDecode encoded) (.invalidHexField field "invalid character")

/-- `u8::to_ascii_lowercase`. -/
def asciiLower (byte : UInt8) : UInt8 :=
  if 0x41 ≤ byte ∧ byte ≤ 0x5a then byte + 0x20 else byte

def eqIgnoreAsciiCase (a b : Text) : Bool := a.map asciiLower = b.map asciiLower

def WinnerChain.parse (value : Text) : Result WinnerChain :=
  if value = utf8 "wcash" then .ok .wcash
  else if value = utf8 "zcash" then .ok .zcash
  else .error (.invalidRequest "share journal contains unknown winner chain" value)

/-! ## Records -/

section

variable (x : External) (record : PersistedShareKey)

def requiredShareId : Result Hex32 := do
  let text ← requiredRecordField record.shareId "share_id"
  parseShareId text

/-- The metadata that a persisted activation must not have, or must have
positive. -/
def persistedActivationMalformed : Prop :=
  record.recordedAt = some 0 ∨ record.recordedAt.isNone ∨ record.acceptedAt.isSome ∨
    record.shareId.isSome ∨ record.worker.isSome ∨ record.workerAuthentication.isSome ∨
    record.parentHashLe.isSome ∨ record.shareTarget.isSome ∨ record.wcashCandidate = true ∨
    record.zcashCandidate = true ∨ record.wcashBlock.isSome ∨ record.zcashBlock.isSome ∨
    record.chain.isSome ∨ record.blockHash.isSome ∨ record.height.isSome
  deriving Decidable

def validatePersistedJobActivation : Result Unit := do
  let _ ← parseJobId record.jobId
  rejectIf (persistedActivationMalformed record)
    (invalid "share journal contains malformed job activation metadata")
  let childHash ← requiredRecordField record.wcashBlockHash "job_activated.wcash_block_hash"
  let _ ← parseCanonicalJournalHex childHash "job_activated.wcash_block_hash"
  rejectIf (noHeight record.wcashHeight ∨ noHeight record.zcashHeight)
    (invalid "share journal job activation has no positive chain heights")

/-- `update_fingerprint_bytes`. -/
def fingerprintBytes (value : Bytes) : Bytes := leBytes 8 value.length ++ value

/-- `update_fingerprint_optional`, and its variants for integers. -/
def fingerprintOptional {α : Type} (encode : α → Bytes) : Option α → Bytes
  | some value => 1 :: encode value
  | none => [0]

/-- What `persisted_share_fingerprint` hashes. -/
def shareMessage : Bytes :=
  utf8 "Wcash/share-journal/immutable-replay/v1\x00" ++
    fingerprintBytes record.record ++ fingerprintBytes record.jobId ++
    fingerprintOptional fingerprintBytes record.worker ++
    fingerprintOptional fingerprintBytes record.workerAuthentication ++
    fingerprintOptional fingerprintBytes record.parentHashLe ++
    fingerprintOptional fingerprintBytes record.shareTarget ++
    [UInt8.ofNat record.wcashCandidate.toNat, UInt8.ofNat record.zcashCandidate.toNat] ++
    fingerprintOptional fingerprintBytes record.wcashBlockHash ++
    fingerprintOptional (leBytes 4) record.wcashHeight ++
    fingerprintOptional (leBytes 4) record.zcashHeight ++
    fingerprintOptional fingerprintBytes record.wcashBlock ++
    fingerprintOptional fingerprintBytes record.zcashBlock

def persistedShareFingerprint : Hex32 :=
  x.sha256 (shareMessage record)

/-- What `persisted_journal_record_fingerprint` hashes. -/
def recordMessage : Bytes :=
  utf8 "Wcash/share-journal/exact-record/v1\x00" ++
    fingerprintOptional (leBytes 8) record.acceptedAt ++ (persistedShareFingerprint x record).data

def persistedJournalRecordFingerprint : Hex32 :=
  x.sha256 (recordMessage x record)

def validateAttributionWorker (worker : Text) : Result Unit :=
  rejectIf (badWorkerName worker)
    (invalid "share worker must contain 1..=128 ASCII letters, digits, '.', '-', '_', or ':'")

def persistedShareAttribution : Result ShareAttribution := do
  let worker ← requiredRecordField record.worker "share.worker"
  validateAttributionWorker worker
  let authentication ← JournalWorkerAuthentication.fromPersisted record.workerAuthentication
  .ok { worker, authentication }

def persistedShareIdentity : Result ShareReplayIdentity := do
  rejectIf (record.acceptedAt = some 0)
    (invalid "share journal has an invalid zero acceptance timestamp")
  let attribution ← persistedShareAttribution record
  .ok { attribution, acceptedAt := record.acceptedAt
        immutableFingerprint := persistedShareFingerprint x record }

/-- The part of `persisted_winners` that both chains share. -/
def persistedWinner (expectedParentHash : Hex32) (key : WinnerKey) (blockHashDisplay : Text)
    (height : Option Nat) (block : Option Text) : Result PendingWinner := do
  let field := "winner_outbox." ++ key.chain.asStr ++ "_block"
  let height ← okOr height (invalid ("winner_outbox has no " ++ key.chain.title ++ " height"))
  let encoded ← requiredRecordField block field
  let blockBytes ← decodeBoundedHex encoded field
  let recoveredParentHash ←
    x.validatePersistedWinnerBlock blockBytes blockHashDisplay height key.chain
  rejectIf (recoveredParentHash ≠ expectedParentHash) (invalid
    ("share journal " ++ key.chain.title ++ " winner is bound to a different parent header"))
  .ok { key, jobId := record.jobId, blockHashDisplay, height, blockBytes
        observedOnBestChain := false, conflictingWitness := false }

/-- The winner of a candidate. -/
def persistedCandidate (candidate : Bool) (winner : Result PendingWinner) :
    Result (Option PendingWinner) :=
  if candidate then do
    let winner ← winner
    .ok (some winner)
  else .ok none

/-- The Wcash part of `persisted_winners`. -/
def persistedWcashWinner (expectedParentHash shareId : Hex32) : Result (Option PendingWinner) :=
  persistedCandidate record.wcashCandidate do
    let blockHashDisplay ← requiredRecordField record.wcashBlockHash
      "winner_outbox.wcash_block_hash"
    let _ ← parseDisplayHash blockHashDisplay "winner_outbox.wcash_block_hash"
    persistedWinner x record expectedParentHash ⟨shareId, .wcash⟩ blockHashDisplay
      record.wcashHeight record.wcashBlock

/-- The Zcash part of `persisted_winners`. -/
def persistedZcashWinner (expectedParentHash shareId : Hex32) : Result (Option PendingWinner) :=
  persistedCandidate record.zcashCandidate
    (persistedWinner x record expectedParentHash ⟨shareId, .zcash⟩
      (displayHash expectedParentHash) record.zcashHeight record.zcashBlock)

def persistedWinners (shareId : Hex32) : Result (List PendingWinner) := do
  let text ← requiredRecordField record.parentHashLe "winner_outbox.parent_hash_le"
  let expectedParentHash ← parseRawHash text "winner_outbox.parent_hash_le"
  let wcash ← persistedWcashWinner x record expectedParentHash shareId
  let zcash ← persistedZcashWinner x record expectedParentHash shareId
  .ok (wcash.toList ++ zcash.toList)

end

/-! ## The replay of `open` -/

/-- The local variables of the replay. -/
structure OutboxReplay where
  seenJobIds : Finset Hex32 := ∅
  replayedWinnerIdentities : HashMap Hex32 Hex32 := ∅
  pendingWinners : HashMap WinnerKey PendingWinner := ∅
  completeBytes : Nat := 0

def insertSeenJobId (seenJobIds : Finset Hex32) (jobId : Hex32) : Result (Finset Hex32) := do
  ensureGenerationCapacity seenJobIds.card (decide (jobId ∈ seenJobIds))
  .ok (insert jobId seenJobIds)

/-- The loop that inserts the winners of a record. -/
def insertPendingWinners (pendingWinners : HashMap WinnerKey PendingWinner)
    (winners : List PendingWinner) : Result (HashMap WinnerKey PendingWinner) :=
  winners.foldlM (fun map winner =>
    match map.lookup winner.key with
    | some previous => do
      rejectIf (previous ≠ winner)
        (invalid "share journal redefines an existing winner with different immutable data")
      .ok map
    | none => do
      let map := map.insert winner.key winner
      rejectIf (maxPendingWinners < map.entries.length)
        (invalid "share journal contains more than 4096 unconfirmed network winners")
      .ok map) pendingWinners

/-- The transition of a winner. A matured winner leaves the outbox. -/
def PendingWinner.transition (pending : PendingWinner) (chain : WinnerChain) :
    StatusRecord → Result (Option PendingWinner)
  | .observed | .confirmed => do
    rejectIf (pending.observedOnBestChain = true) (invalid
      "share journal observes the same winner twice without an intervening orphan transition")
    .ok (some { pending with observedOnBestChain := true, conflictingWitness := false })
  | .orphaned => do
    rejectIf (pending.observedOnBestChain = false ∧ pending.conflictingWitness = false)
      (invalid "share journal orphans a winner that was neither observed nor quarantined")
    .ok (some { pending with observedOnBestChain := false, conflictingWitness := false })
  | .conflicting => do
    rejectIf (chain ≠ .wcash)
      (invalid "only a Wcash winner can enter conflicting-witness quarantine")
    rejectIf (pending.conflictingWitness = true) (invalid
      ("share journal quarantines the same conflicting witness twice without exact " ++
        "best-chain observation"))
    .ok (some { pending with observedOnBestChain := false, conflictingWitness := true })
  | .matured => do
    rejectIf (pending.observedOnBestChain = false ∨ pending.conflictingWitness = true)
      (invalid "share journal matures a winner before best-chain observation")
    .ok none

/-- The arm for status records. -/
def replayWinnerStatus (record : PersistedShareKey) (status : StatusRecord)
    (pendingWinners : HashMap WinnerKey PendingWinner) :
    Result (HashMap WinnerKey PendingWinner) := do
  let shareId ← requiredShareId record
  let chainName ← okOr record.chain (invalid "winner status record has no chain")
  let chain ← WinnerChain.parse chainName
  let pending ← okOr (pendingWinners.lookup ⟨shareId, chain⟩)
    (invalid "share journal updates an unknown or already-matured winner")
  let confirmedHash ← okOr record.blockHash (invalid "winner status record has no block_hash")
  let confirmedHeight ← okOr record.height (invalid "winner status record has no height")
  rejectIf (pending.jobId ≠ record.jobId ∨
      eqIgnoreAsciiCase pending.blockHashDisplay confirmedHash = false ∨
      pending.height ≠ confirmedHeight)
    (invalid "winner status metadata does not match its immutable outbox entry")
  let updated ← pending.transition chain status
  .ok (putBack pendingWinners ⟨shareId, chain⟩ updated)

section

variable (x : External) (s : OutboxReplay) (record : PersistedShareKey) (jobId : Hex32)

/-- The arm for `job_activated`. -/
def OutboxReplay.activateJob : Result OutboxReplay := do
  validatePersistedJobActivation record
  rejectIf (jobId ∈ s.seenJobIds) (invalid "share journal activates a previously used job ID")
  let seenJobIds ← insertSeenJobId s.seenJobIds jobId
  .ok { s with seenJobIds }

/-- The arm for `winner_outbox`. -/
def OutboxReplay.replayWinner : Result OutboxReplay := do
  let shareId ← requiredShareId record
  let seenJobIds ← insertSeenJobId s.seenJobIds jobId
  let identity := persistedJournalRecordFingerprint x record
  match s.replayedWinnerIdentities.lookup shareId with
  | some previous => do
    rejectIf (previous ≠ identity)
      (invalid "share journal redefines a winner share ID with different immutable data")
    .ok { s with seenJobIds }
  | none => do
    let replayedWinnerIdentities := s.replayedWinnerIdentities.insert shareId identity
    rejectIf (maxReplayedWinnerShares < replayedWinnerIdentities.entries.length)
      (invalid "share journal contains more than 1000000 distinct winner shares")
    let winners ← persistedWinners x record shareId
    rejectIf (winners.isEmpty = true) (invalid "winner_outbox record contains no network winner")
    let pendingWinners ← insertPendingWinners s.pendingWinners winners
    .ok { s with seenJobIds, replayedWinnerIdentities, pendingWinners }

/-- The record of a line, with its job. -/
def readPersistedRecord (line : Bytes) : Result (PersistedShareKey × Hex32) := do
  let record ← mapErr corrupted (fromSlice x PersistedShareKey.ofJson line)
  rejectIf (record.version ≠ journalVersion) (unsupportedRecord record)
  let jobId ← parseJobId record.jobId
  .ok (record, jobId)

/-- What a record does to the variables of the replay. -/
def OutboxReplay.applyRecord : Result OutboxReplay :=
  match RecordKind.ofName record.record with
  | some .jobActivated => s.activateJob record jobId
  | some .acceptedShare => do
    let _ ← requiredShareId record
    let seenJobIds ← insertSeenJobId s.seenJobIds jobId
    .ok { s with seenJobIds }
  | some .winnerOutbox => s.replayWinner x record jobId
  | some (.status status) => do
    let pendingWinners ← replayWinnerStatus record status s.pendingWinners
    .ok { s with pendingWinners }
  | none => .error (unsupportedRecord record)

/-- One turn of the loop of `open`. -/
def OutboxReplay.applyLine (line : Bytes) : Result OutboxReplay := do
  let completeBytes ← okOr (checkedAdd 64 s.completeBytes (line.length + 1))
    (invalid "share journal length overflowed")
  let (record, jobId) ← readPersistedRecord x line
  { s with completeBytes : OutboxReplay }.applyRecord x record jobId

/-- What the file system answers to `open`. -/
structure OpenEnv where
  /-- The path, the lock, and what kind of file it is. -/
  admission : Result Unit
  /-- The permissions, and the sync of the directory. -/
  permissions : Result Unit
  /-- The two passes over the file. -/
  firstPass : Reader UInt8 String
  secondPass : Reader UInt8 String
  /-- `seek(SeekFrom::Start(0))`. -/
  rewind : Result Unit
  /-- `set_len` and `sync_all`. -/
  truncate : Result Unit

/-- Cuts off a torn tail. -/
def OpenEnv.discard (env : OpenEnv) (tail : Bytes) : Result Unit :=
  if tail = [] then .ok () else env.truncate

/-- `ShareJournal::open`, on a file with the given content. -/
def openJournal (env : OpenEnv) (content : Bytes) : Result JournalState := do
  env.admission
  rejectIf (maxJournalBytes < content.length)
    (invalid "share journal exceeds the 1073741824-byte safety limit")
  env.permissions
  let _ ← readAccountingSnapshotFromReader x env.firstPass
  env.rewind
  let (s, tail) ← forLines lineFeed .io maxJournalRecordBytes recordTooLarge
    (OutboxReplay.applyLine x) {} env.secondPass
  env.discard tail
  .ok { file := if tail = [] then content else content.take s.completeBytes
        bytesWritten := s.completeBytes
        poisoned := false
        activeJob := none
        seenJobIds := s.seenJobIds
        activeJobAttributions := ∅
        activeWinnerAttributions := ∅
        pendingWinners := s.pendingWinners }

end

/-! ## Appending a line -/

abbrev JournalM : Type → Type := EStateM MinerError JournalState

/-- What the clock and the file system answer to a call. -/
structure AppendEnv where
  unixTimestamp : Result UInt64
  verifyBefore : Result Unit
  /-- A write that fails, with the number of bytes that reached the file. -/
  writeFailure : Option (Nat × String)
  verifyAfter : Result Unit

def journalLengthAfterAppend (s : JournalState) (recordBytes : Nat) : Result Nat := do
  rejectIf (s.poisoned = true) (invalid ("share journal is poisoned after an append or durability "
    ++ "failure; restart the coordinator to recover its unterminated tail"))
  rejectIf (maxJournalRecordBytes < recordBytes)
    (invalid "share journal record exceeds the 10485760-byte safety limit")
  let newLength ← okOr (checkedAdd 64 s.bytesWritten recordBytes)
    (invalid "share journal length overflowed")
  rejectIf (maxJournalBytes < newLength) (invalid ("share journal reached the 1073741824-byte "
    ++ "safety limit; stop and archive it before accepting more work"))
  .ok newLength

/-- Poisons the journal and fails. -/
def poison {α : Type} (e : MinerError) : JournalM α := do
  modify fun s => { s with poisoned := true }
  throw e

/-- A check whose failure poisons the journal. -/
def orPoison : Result Unit → JournalM Unit
  | .ok () => pure ()
  | .error e => poison e

def appendSyncedJournalRecord (env : AppendEnv) (encoded : Bytes) : JournalM Unit := do
  let s ← get
  let newLength ← check (journalLengthAfterAppend s encoded.length)
  orPoison env.verifyBefore
  match env.writeFailure with
  | some (n, e) =>
    modify fun s => { s with file := s.file ++ encoded.take n }
    poison (.io e)
  | none =>
    modify fun s => { s with file := s.file ++ encoded }
    orPoison env.verifyAfter
    modify fun s => { s with bytesWritten := newLength }

/-! ## The calls -/

/-- A `json!` object. -/
abbrev JsonRecord : Type := List (Field × Json)

/-- The object, with its keys. -/
def JsonRecord.keyed (record : JsonRecord) : List (Bytes × Json) :=
  record.map fun entry => (entry.1.key, entry.2)

/-- `Option<String>` as JSON. -/
def jsonOption : Option Text → Json
  | some text => .string text
  | none => .null

section

variable (x : External)

/-- `serde_json::to_vec(&record)?`, and the terminator. -/
def encodeRecord (record : JsonRecord) : Result Bytes := do
  let encoded ← mapErr .json (x.toVec record.keyed)
  .ok (encoded ++ [lineFeed])

/-- The record of `activate_job`. -/
def activationRecord (job : ActiveJournalJob) (timestamp : UInt64) : JsonRecord :=
  [(.version, .uint journalVersion), (.record, .string RecordKind.jobActivated.name),
    (.recordedAt, .uint timestamp.toNat), (.jobId, .string job.jobId),
    (.wcashBlockHash, .string job.childHashDisplay), (.wcashHeight, .uint job.childHeight.toNat),
    (.zcashHeight, .uint job.parentHeight.toNat)]

def activateJob (env : AppendEnv) (activeJob : ActiveJournalJob) : JournalM Unit := do
  let jobId ← check (parseJobId activeJob.jobId)
  let _ ← check (parseCanonicalJournalHex activeJob.childHashDisplay "activated Wcash block hash")
  check (rejectIf (activeJob.childHeight = 0 ∨ activeJob.parentHeight = 0)
    (invalid "activated native job heights must be positive"))
  let s ← get
  check (rejectIf (jobId ∈ s.seenJobIds) (.staleNativeJob activeJob.jobId))
  check (ensureGenerationCapacity s.seenJobIds.card false)
  let timestamp ← check env.unixTimestamp
  let encoded ← check (encodeRecord x (activationRecord activeJob timestamp))
  appendSyncedJournalRecord env encoded
  modify fun s => { s with
    seenJobIds := insert jobId s.seenJobIds
    activeJobAttributions := ∅
    activeWinnerAttributions := ∅
    activeJob := some activeJob }

def activeJobForShare (s : JournalState) (jobId : Text) : Result ActiveJournalJob := do
  let activeJob ← okOr s.activeJob (invalid "share journal has no active mining job")
  rejectIf (activeJob.jobId ≠ jobId)
    (invalid "share belongs to a different or retired journal generation")
  .ok activeJob

def completeWcashCandidate (candidate : Bytes) (expectedHashDisplay : Text) (proof : Bytes) :
    Result Bytes := do
  let (hash, serialized) ← x.assembleWcashBlock candidate proof
  let expectedHash ← parseDisplayHash expectedHashDisplay "Wcash winner block hash"
  rejectIf (hash ≠ expectedHash) .childHeaderMismatch
  let completed ← serialized
  rejectIf (maxWinnerBlockBytes < completed.length) (.invalidParentTemplate
    ("completed Wcash block is " ++ toString completed.length ++ " bytes, maximum is 2000000"))
  .ok completed

/-- `option.map(..).transpose()?`. -/
def transposed {α β : Type} (f : α → Result β) : Option α → Result (Option β)
  | some a => do
    let b ← f a
    .ok (some b)
  | none => .ok none

/-- The record of `record`. -/
def shareRecord (job : ActiveJournalJob) (worker : Text)
    (authentication : JournalWorkerAuthentication) (jobId : Text) (share : ValidatedNativeShare)
    (shareId : Hex32) (wcashBlock : Option Bytes) (timestamp : UInt64) : JsonRecord :=
  let winner := share.wcashCandidate.isSome || share.parentBlock.isSome
  [(.version, .uint journalVersion),
    (.record, .string (if winner then RecordKind.winnerOutbox.name
      else RecordKind.acceptedShare.name)),
    (.acceptedAt, .uint timestamp.toNat), (.shareId, .string (hexEncode shareId.data)),
    (.worker, .string worker), (.workerAuthentication, .string authentication.asStr),
    (.jobId, .string jobId), (.parentHashLe, .string (hexEncode share.parentBlockHash.data)),
    (.shareTarget, .string (displayTarget share.acceptedTarget)),
    (.wcashCandidate, .bool share.wcashCandidate.isSome),
    (.zcashCandidate, .bool share.parentBlock.isSome),
    (.wcashBlockHash, .string job.childHashDisplay), (.wcashHeight, .uint job.childHeight.toNat),
    (.zcashHeight, .uint job.parentHeight.toNat),
    (.wcashBlock, jsonOption (wcashBlock.map hexEncode)),
    (.zcashBlock, jsonOption (share.parentBlock.map hexEncode))]

/-- `serde_json::from_value(record.clone())?`. -/
def persistedOfRecord (record : JsonRecord) : Result PersistedShareKey :=
  okOr (PersistedShareKey.ofJson (.object record.keyed)) (.json "data does not match the struct")

def isMatchingReplay (s : JournalState) (shareId : Hex32) (identity : ShareReplayIdentity) :
    Result Bool :=
  match (s.activeJobAttributions.lookup shareId).or (s.activeWinnerAttributions.lookup shareId) with
  | none => .ok false
  | some existing => do
    rejectIf (existing.attribution ≠ identity.attribution ∨
        existing.immutableFingerprint ≠ identity.immutableFingerprint)
      (invalid "share replay conflicts with immutable data in the durable journal entry")
    .ok true

def ensurePendingWinnerCapacity (current additional : Nat) : Result Unit := do
  let resulting ← okOr (checkedAdd 64 current additional)
    (invalid "pending winner count overflowed")
  rejectIf (maxPendingWinners < resulting) (invalid ("winner outbox reached the 4096-entry "
    ++ "safety limit; stop mining and restore child/parent RPC availability before accepting more "
    ++ "winning shares"))

/-- The outbox entry of one chain. -/
def outboxEntry (shareId : Hex32) (chain : WinnerChain) (jobId blockHashDisplay : Text)
    (height : Nat) (blockBytes : Bytes) : PendingWinner :=
  { key := ⟨shareId, chain⟩, jobId, blockHashDisplay, height, blockBytes
    observedOnBestChain := false, conflictingWitness := false }

/-- The outbox entries of a share, in the order of their insertion. -/
def outboxEntries (job : ActiveJournalJob) (jobId : Text) (share : ValidatedNativeShare)
    (shareId : Hex32) (wcashBlock : Option Bytes) : List PendingWinner :=
  (wcashBlock.map fun block =>
    outboxEntry shareId .wcash jobId job.childHashDisplay job.childHeight.toNat block).toList ++
  (share.parentBlock.map fun block =>
    outboxEntry shareId .zcash jobId (displayHash share.parentBlockHash) job.parentHeight.toNat
      block).toList

/-- The state after a share was appended. -/
def JournalState.withShare (s : JournalState) (shareId : Hex32) (identity : ShareReplayIdentity)
    (winner : Bool) (entries : List PendingWinner) : JournalState :=
  if winner then
    { s with
      activeWinnerAttributions := s.activeWinnerAttributions.insert shareId identity
      pendingWinners := entries.foldl (fun map entry => map.insert entry.key entry)
        s.pendingWinners }
  else { s with activeJobAttributions := s.activeJobAttributions.insert shareId identity }

/-- The capacity checks of `record`. -/
def checkShareCapacity (s : JournalState) (shareId : Hex32) (winner : Bool)
    (entries : List PendingWinner) : Result Unit := do
  rejectIf (winner = false ∧ maxSharesPerJob ≤ s.activeJobAttributions.entries.length)
    (invalid ("share journal reached the 100000-share per-job safety limit; rotate work before "
      ++ "accepting more shares"))
  if winner then
    ensurePendingWinnerCapacity s.pendingWinners.entries.length (entries.filter fun entry =>
        (s.pendingWinners.lookup ⟨shareId, entry.key.chain⟩).isNone).length
  else .ok ()

def record (env : AppendEnv) (worker : Text) (authentication : JournalWorkerAuthentication)
    (jobId : Text) (share : ValidatedNativeShare) : JournalM Hex32 := do
  check (validateAttributionWorker worker)
  let s ← get
  let activeJob ← check (activeJobForShare s jobId)
  let shareId := shareIdOf x jobId share.parentBlockHash
  let winner := share.wcashCandidate.isSome || share.parentBlock.isSome
  let wcashBlock ← check (transposed
    (completeWcashCandidate x activeJob.childCandidateBytes activeJob.childHashDisplay)
    share.wcashCandidate)
  let timestamp ← check env.unixTimestamp
  let line := shareRecord activeJob worker authentication jobId share shareId wcashBlock timestamp
  let persistedRecord ← check (persistedOfRecord line)
  let identity ← check (persistedShareIdentity x persistedRecord)
  let matching ← check (isMatchingReplay s shareId identity)
  if matching then pure shareId
  else do
    let entries := outboxEntries activeJob jobId share shareId wcashBlock
    check (checkShareCapacity s shareId winner entries)
    let encoded ← check (encodeRecord x line)
    appendSyncedJournalRecord env encoded
    modify fun s => s.withShare shareId identity winner entries
    pure shareId

inductive WinnerStatus where
  | observed
  | orphaned
  | conflicting
  | matured
  deriving DecidableEq

def WinnerStatus.asRecord : WinnerStatus → StatusRecord
  | .observed => .observed
  | .orphaned => .orphaned
  | .conflicting => .conflicting
  | .matured => .matured

/-- The guard of `mark_status`: whether there is something to record. -/
def statusChanges (current : PendingWinner) : WinnerStatus → Result Bool
  | .observed => .ok (!(current.observedOnBestChain && !current.conflictingWitness))
  | .orphaned => .ok (!(!current.observedOnBestChain && !current.conflictingWitness))
  | .conflicting => do
    rejectIf (current.key.chain ≠ .wcash)
      (invalid "only a Wcash winner can enter conflicting-witness quarantine")
    .ok (!current.conflictingWitness)
  | .matured => do
    rejectIf (current.observedOnBestChain = false ∨ current.conflictingWitness = true)
      (invalid "cannot mature a winner before best-chain observation")
    .ok true

/-- The entry after a status was recorded. -/
def PendingWinner.withStatus (current : PendingWinner) : WinnerStatus → Option PendingWinner
  | .observed => some { current with observedOnBestChain := true, conflictingWitness := false }
  | .orphaned => some { current with observedOnBestChain := false, conflictingWitness := false }
  | .conflicting => some { current with observedOnBestChain := false, conflictingWitness := true }
  | .matured => none

/-- The record of `mark_status`. -/
def statusRecord (winner : PendingWinner) (status : WinnerStatus) (timestamp : UInt64) :
    JsonRecord :=
  [(.version, .uint journalVersion), (.record, .string (RecordKind.status status.asRecord).name),
    (.recordedAt, .uint timestamp.toNat), (.shareId, .string (hexEncode winner.key.shareId.data)),
    (.jobId, .string winner.jobId), (.chain, .string (utf8 winner.key.chain.asStr)),
    (.blockHash, .string winner.blockHashDisplay), (.height, .uint winner.height)]

/-- The metadata that identifies a winner is the same. -/
def sameWinner (current winner : PendingWinner) : Prop :=
  current.jobId = winner.jobId ∧ current.blockHashDisplay = winner.blockHashDisplay ∧
    current.height = winner.height ∧ current.blockBytes = winner.blockBytes
  deriving Decidable

def markStatus (env : AppendEnv) (winner : PendingWinner) (status : WinnerStatus) :
    JournalM Unit := do
  let s ← get
  match s.pendingWinners.lookup winner.key with
  | none => pure ()
  | some current => do
    check (rejectIf (¬ sameWinner current winner)
      (invalid "winner status does not match the durable outbox entry"))
    let changes ← check (statusChanges current status)
    if changes then do
      let timestamp ← check env.unixTimestamp
      let encoded ← check (encodeRecord x (statusRecord winner status timestamp))
      appendSyncedJournalRecord env encoded
      modify fun s => { s with
        pendingWinners := putBack s.pendingWinners winner.key (current.withStatus status) }
    else pure ()

end

end Wolf.ShareJournal
