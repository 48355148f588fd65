import Wolf.Framework.Counts
import Wolf.Framework.LineLoop
import Wolf.ShareJournal.Record

/-! # The share journal: the accounting replay

`read_accounting_snapshot_from_reader` replays the journal line by line
into an `AccountingSnapshot`. -/

namespace Wolf.ShareJournal

/-! ## Hexadecimal fields -/

def validateHex (n : Nat) (encoded : Text) (field : String) : Result (FixedBytes n) := do
  let bytes ← okOr (hexDecode encoded) (invalid (field ++ " is invalid hexadecimal"))
  if h : bytes.length = n then .ok ⟨bytes, h⟩
  else .error (invalid (field ++ " decoded to " ++ toString bytes.length ++ " bytes, expected " ++
    toString n))

def validateCanonicalHex (n : Nat) (encoded : Text) (field : String) : Result (FixedBytes n) := do
  let bytes ← validateHex n encoded field
  rejectIf (encoded ≠ hexEncode bytes.data)
    (invalid (field ++ " is not canonical lowercase hexadecimal"))
  .ok bytes

/-- A canonical field is the encoding of what it decodes to. -/
theorem validateCanonicalHex_eq_ok {n : Nat} {encoded : Text} {field : String}
    {bytes : FixedBytes n} :
    validateCanonicalHex n encoded field = .ok bytes ↔ encoded = hexEncode bytes.data := by
  unfold validateCanonicalHex
  constructor
  · intro h
    obtain ⟨decoded, _, h⟩ := of_bind h
    obtain ⟨hsame, h⟩ := of_require_bind h
    cases h
    exact hsame
  · intro h
    have hvalid : validateHex n encoded field = .ok bytes := by
      unfold validateHex
      rw [h, hexDecode_hexEncode, okOr_bind, dif_pos bytes.length_data]
    rw [hvalid, ok_bind, rejectIf_of_not (not_not_intro h)]
    rfl

/-- `required_record_field`, and `required_journal_field` of the
coordinator. -/
def requiredRecordField (value : Option Text) (field : String) : Result Text :=
  okOr value (invalid ("share journal has no " ++ field))

def decodeBoundedBlock (encoded : Text) (field : String) : Result Bytes := do
  rejectIf (maxWinnerBlockBytes * 2 < encoded.length)
    (invalid (field ++ " exceeds 2000000 decoded bytes"))
  let bytes ← okOr (hexDecode encoded) (invalid (field ++ " is invalid hexadecimal"))
  rejectIf (encoded ≠ hexEncode bytes)
    (invalid (field ++ " is not canonical lowercase hexadecimal"))
  .ok bytes

/-! ## Job activations -/

/-- The metadata that an activation must not have, or must have positive. -/
def activationMalformed (record : JournalRecord) : Prop :=
  record.recordedAt = some 0 ∨ record.recordedAt.isNone ∨ record.acceptedAt.isSome ∨
    record.shareId.isSome ∨ record.worker.isSome ∨ record.workerAuthentication.isSome ∨
    record.shareTarget.isSome ∨ record.parentHashLe.isSome ∨ record.wcashCandidate.isSome ∨
    record.zcashCandidate.isSome ∨ record.wcashBlock.isSome ∨ record.zcashBlock.isSome ∨
    record.chain.isSome ∨ record.blockHash.isSome ∨ record.height.isSome
  deriving Decidable

/-- `height.is_none_or(|height| height == 0)`. -/
def noHeight (height : Option Nat) : Prop := ∀ value ∈ height, value = 0
  deriving Decidable

def validateJobActivation (record : JournalRecord) : Result Unit := do
  rejectIf (activationMalformed record) (invalid "job activation contains malformed metadata")
  let blockHash ← requiredRecordField record.wcashBlockHash "job_activated.wcash_block_hash"
  let _ ← validateCanonicalHex 32 blockHash "job_activated.wcash_block_hash"
  rejectIf (noHeight record.wcashHeight ∨ noHeight record.zcashHeight)
    (invalid "job activation has no positive chain heights")

/-! ## Shares -/

structure ImmutableShare where
  acceptedAt : Nat
  worker : Text
  authentication : Text
  jobId : Text
  parentHashLe : Text
  shareTarget : Text
  wcashBlockHash : Text
  wcashHeight : Nat
  zcashHeight : Nat
  wcashCandidate : Bool
  zcashCandidate : Bool
  winnerFingerprint : Option Hex32
  deriving DecidableEq

/-- `value.filter(|height| *height > 0)`. -/
def positive (height : Option Nat) : Option Nat := height.filter (0 < ·)

/-- The bytes of a worker name. -/
def isWorkerByte (byte : UInt8) : Bool :=
  (0x41 ≤ byte ∧ byte ≤ 0x5a) ∨ (0x61 ≤ byte ∧ byte ≤ 0x7a) ∨ (0x30 ≤ byte ∧ byte ≤ 0x39) ∨
    byte = 0x2e ∨ byte = 0x2d ∨ byte = 0x5f ∨ byte = 0x3a

/-- The test of `validate_worker_name` and of `validate_attribution_worker`. -/
def badWorkerName (worker : Text) : Prop :=
  worker = [] ∨ 128 < worker.length ∨ worker.all isWorkerByte = false
  deriving Decidable

def validateWorkerName (worker : Text) : Result Unit :=
  rejectIf (badWorkerName worker)
    (invalid "worker name must contain 1..=128 ASCII letters, digits, '.', '-', '_', or ':'")

/-- `byte.is_ascii_control()`. -/
def isAsciiControl (byte : UInt8) : Bool := byte < 0x20 ∨ byte = 0x7f

def validateLegacyWorkerName (worker : Text) : Result Unit :=
  rejectIf (worker = [] ∨ 128 < worker.length ∨ worker.any isAsciiControl = true)
    (invalid "legacy worker name must contain 1..=128 bytes without ASCII control characters")

/-- The provenances that a record may name. -/
def knownAuthentications : List Text :=
  [utf8 "operator", utf8 "exact_credential", utf8 "shared_secret"]

def validateAuthentication : Option Text → Result Text
  | some authentication =>
    if authentication ∈ knownAuthentications then .ok authentication
    else .error
      (.invalidRequest "accepted share has unknown authentication provenance" authentication)
  | none => .ok (utf8 "legacy_unknown")

/-- The candidate flags must fit the kind of the record. -/
def checkCandidates (record : Text) (wcashCandidate zcashCandidate : Bool) : Result Unit := do
  rejectIf (record = RecordKind.acceptedShare.name ∧
      (wcashCandidate = true ∨ zcashCandidate = true))
    (invalid "accepted_share is incorrectly marked as a network winner")
  rejectIf (record = RecordKind.winnerOutbox.name ∧ wcashCandidate = false ∧
      zcashCandidate = false)
    (invalid "winner_outbox contains no network winner")

/-- The worker name, which an old record without provenance may have in
another alphabet. -/
def validateShareWorker (authentication worker : Text) : Result Unit :=
  if authentication = utf8 "legacy_unknown" then validateLegacyWorkerName worker
  else validateWorkerName worker

def immutableShare (record : JournalRecord) : Result ImmutableShare := do
  rejectIf (record.acceptedAt = some 0 ∨ record.acceptedAt.isNone ∨ record.recordedAt.isSome)
    (invalid "accepted share has an invalid acceptance timestamp")
  rejectIf (record.chain.isSome ∨ record.blockHash.isSome ∨ record.height.isSome)
    (invalid "accepted share contains winner-status metadata")
  let worker ← okOr record.worker (invalid "accepted share has no worker")
  let authentication ← validateAuthentication record.workerAuthentication
  validateShareWorker authentication worker
  let parentHashLe ← okOr record.parentHashLe (invalid "accepted share has no parent_hash_le")
  let _ ← validateCanonicalHex 32 parentHashLe "parent_hash_le"
  let shareTarget ← okOr record.shareTarget (invalid "accepted share has no share_target")
  let target ← validateCanonicalHex 32 shareTarget "share_target"
  rejectIf (target = .fill 32 0) (invalid "accepted share has a zero target")
  let wcashBlockHash ← requiredRecordField record.wcashBlockHash "share.wcash_block_hash"
  let _ ← validateCanonicalHex 32 wcashBlockHash "share.wcash_block_hash"
  let wcashHeight ← okOr (positive record.wcashHeight)
    (invalid "accepted share has no positive Wcash height")
  let zcashHeight ← okOr (positive record.zcashHeight)
    (invalid "accepted share has no positive Zcash height")
  let wcashCandidate ← okOr record.wcashCandidate
    (invalid "accepted share has no wcash_candidate flag")
  let zcashCandidate ← okOr record.zcashCandidate
    (invalid "accepted share has no zcash_candidate flag")
  checkCandidates record.record wcashCandidate zcashCandidate
  let acceptedAt ← okOr record.acceptedAt
    (invalid "accepted share has an invalid acceptance timestamp")
  .ok { acceptedAt, worker, authentication, jobId := record.jobId, parentHashLe, shareTarget,
        wcashBlockHash, wcashHeight, zcashHeight, wcashCandidate, zcashCandidate,
        winnerFingerprint := none }

/-- What `immutable_share` checks, and what it takes over. -/
structure ShareChecked (record : JournalRecord) (share : ImmutableShare) : Prop where
  acceptedAt : record.acceptedAt = some share.acceptedAt
  acceptedAt_ne : share.acceptedAt ≠ 0
  recordedAt : record.recordedAt = none
  chain : record.chain = none
  blockHash : record.blockHash = none
  height : record.height = none
  worker : record.worker = some share.worker
  authentication : validateAuthentication record.workerAuthentication = .ok share.authentication
  workerName : validateShareWorker share.authentication share.worker = .ok ()
  jobId : share.jobId = record.jobId
  parentHashLe : record.parentHashLe = some share.parentHashLe
  parentHash : ∃ hash : Hex32, share.parentHashLe = hexEncode hash.data
  shareTarget : record.shareTarget = some share.shareTarget
  target : ∃ target : Hex32, share.shareTarget = hexEncode target.data ∧
    target ≠ .fill 32 0
  wcashBlockHash : record.wcashBlockHash = some share.wcashBlockHash
  blockHashHex : ∃ hash : Hex32, share.wcashBlockHash = hexEncode hash.data
  wcashHeight : positive record.wcashHeight = some share.wcashHeight
  zcashHeight : positive record.zcashHeight = some share.zcashHeight
  wcashCandidate : record.wcashCandidate = some share.wcashCandidate
  zcashCandidate : record.zcashCandidate = some share.zcashCandidate
  candidates : checkCandidates record.record share.wcashCandidate share.zcashCandidate = .ok ()
  winnerFingerprint : share.winnerFingerprint = none

variable {record : JournalRecord} {share : ImmutableShare} {status : StatusRecord}
  {pendingWinners pendingWinners' : HashMap WinnerKey PendingWinnerStatus}

theorem immutableShare_ok (h : immutableShare record = .ok share) : ShareChecked record share := by
  obtain ⟨htimes, h⟩ := of_rejectIf_bind h
  obtain ⟨hstatus, h⟩ := of_rejectIf_bind h
  obtain ⟨_, worker, h⟩ := of_okOr_bind h
  obtain ⟨_, authentication, h⟩ := of_bind h
  obtain ⟨_, workerName, h⟩ := of_bind h
  obtain ⟨_, parentHashLe, h⟩ := of_okOr_bind h
  obtain ⟨_, hparentHex, h⟩ := of_bind h
  obtain ⟨_, shareTarget, h⟩ := of_okOr_bind h
  obtain ⟨target, htarget, h⟩ := of_bind h
  obtain ⟨hzero, h⟩ := of_rejectIf_bind h
  obtain ⟨_, wcashBlockHash, h⟩ := of_okOr_bind h
  obtain ⟨_, hblockHex, h⟩ := of_bind h
  obtain ⟨_, wcashHeight, h⟩ := of_okOr_bind h
  obtain ⟨_, zcashHeight, h⟩ := of_okOr_bind h
  obtain ⟨_, wcashCandidate, h⟩ := of_okOr_bind h
  obtain ⟨_, zcashCandidate, h⟩ := of_okOr_bind h
  obtain ⟨_, candidates, h⟩ := of_bind h
  obtain ⟨_, acceptedAt, h⟩ := of_okOr_bind h
  cases h
  simp only [acceptedAt, Option.some.injEq, Option.isNone_some, Bool.false_eq_true, false_or,
    not_or, Bool.not_eq_true, Option.isSome_eq_false_iff, Option.isNone_iff_eq_none]
    at htimes hstatus
  obtain ⟨acceptedAt_ne, recordedAt⟩ := htimes
  obtain ⟨chain, blockHash, height⟩ := hstatus
  exact { acceptedAt, acceptedAt_ne, recordedAt, chain, blockHash, height, worker, authentication,
          workerName, parentHashLe, shareTarget, wcashBlockHash, wcashHeight, zcashHeight,
          wcashCandidate, zcashCandidate, candidates
          jobId := rfl
          parentHash := ⟨_, validateCanonicalHex_eq_ok.mp hparentHex⟩
          target := ⟨target, validateCanonicalHex_eq_ok.mp htarget, hzero⟩
          blockHashHex := ⟨_, validateCanonicalHex_eq_ok.mp hblockHex⟩
          winnerFingerprint := rfl }

theorem ShareChecked.immutableShare (h : ShareChecked record share) :
    immutableShare record = .ok share := by
  obtain ⟨parentHash, hparentHash⟩ := h.parentHash
  obtain ⟨target, htarget, hzero⟩ := h.target
  obtain ⟨blockHash, hblockHash⟩ := h.blockHashHex
  have htimes : ¬ (record.acceptedAt = some 0 ∨ record.acceptedAt.isNone = true ∨
      record.recordedAt.isSome = true) := by
    simp [h.acceptedAt, h.acceptedAt_ne, h.recordedAt]
  have hstatus : ¬ (record.chain.isSome = true ∨ record.blockHash.isSome = true ∨
      record.height.isSome = true) := by
    simp [h.chain, h.blockHash, h.height]
  unfold ShareJournal.immutableShare requiredRecordField
  rw [rejectIf_bind htimes, rejectIf_bind hstatus, h.worker, okOr_bind, h.authentication, ok_bind,
    h.workerName, ok_bind, h.parentHashLe, okOr_bind, validateCanonicalHex_eq_ok.mpr hparentHash,
    ok_bind, h.shareTarget, okOr_bind, validateCanonicalHex_eq_ok.mpr htarget, ok_bind,
    rejectIf_bind hzero, h.wcashBlockHash, okOr_bind, validateCanonicalHex_eq_ok.mpr hblockHash,
    ok_bind, h.wcashHeight, okOr_bind, h.zcashHeight, okOr_bind, h.wcashCandidate, okOr_bind,
    h.zcashCandidate, okOr_bind, h.candidates, ok_bind, h.acceptedAt, okOr_bind, ← h.jobId,
    ← h.winnerFingerprint]

section

variable (x : External)

/-- The digest of a job and a parent hash that names a share. -/
def shareIdOf (jobId : Text) (parentHash : Hex32) : Hex32 :=
  x.sha256 (utf8 "Wcash/share-journal/v2\x00" ++ leBytes 8 jobId.length ++ jobId ++ parentHash.data)

def validateShareId (record : JournalRecord) (share : ImmutableShare) : Result Hex32 := do
  let text ← requiredRecordField record.shareId "share_id"
  let actual ← validateCanonicalHex 32 text "share_id"
  let parentHash ← validateCanonicalHex 32 share.parentHashLe "parent_hash_le"
  rejectIf (actual ≠ shareIdOf x share.jobId parentHash)
    (invalid "share ID does not match its immutable job and parent hash")
  .ok actual

/-! ## Winner blocks -/

structure PendingWinnerStatus where
  jobId : Text
  blockHash : Text
  height : Nat
  observed : Bool
  conflictingWitness : Bool
  deriving DecidableEq

/-- An entry of the outbox, and what it adds to the fingerprint. -/
structure ValidatedWinner where
  key : WinnerKey
  status : PendingWinnerStatus
  fingerprint : Bytes

/-- The part of `validate_winner_blocks` that both chains share. -/
def validateWinnerBlock (record : JournalRecord) (expectedParentHash : Hex32) (key : WinnerKey)
    (blockHash : Text) (height : Option Nat) (block : Option Text) : Result ValidatedWinner := do
  let field := "winner_outbox." ++ key.chain.asStr ++ "_block"
  let height ← okOr (positive height)
    (invalid ("winner_outbox has no positive " ++ key.chain.title ++ " height"))
  let encoded ← requiredRecordField block field
  let block ← decodeBoundedBlock encoded field
  let recoveredParentHash ← x.validatePersistedWinnerBlock block blockHash height key.chain
  rejectIf (recoveredParentHash ≠ expectedParentHash)
    (invalid ("winner_outbox " ++ key.chain.title ++
      " block is bound to a different parent header"))
  .ok { key
        status := { jobId := record.jobId, blockHash, height, observed := false,
                    conflictingWitness := false }
        fingerprint := utf8 (key.chain.asStr ++ "\x00") ++ blockHash ++ leBytes 4 height ++
          leBytes 8 block.length ++ block }

/-- The winner of a candidate. Without one there must be no bytes. -/
def validateCandidate (candidate : Option Bool) (block : Option Text) (chain : WinnerChain)
    (winner : Result ValidatedWinner) : Result (Option ValidatedWinner) :=
  if candidate = some true then do
    let winner ← winner
    .ok (some winner)
  else do
    rejectIf (block.isSome = true) (invalid ("winner_outbox has " ++ chain.title ++
      " block bytes without a " ++ chain.title ++ " candidate"))
    .ok none

/-- The Wcash part of `validate_winner_blocks`. -/
def validateWcashWinner (record : JournalRecord) (expectedParentHash shareId : Hex32) :
    Result (Option ValidatedWinner) :=
  validateCandidate record.wcashCandidate record.wcashBlock .wcash do
    let blockHash ← requiredRecordField record.wcashBlockHash "winner_outbox.wcash_block_hash"
    let _ ← validateCanonicalHex 32 blockHash "winner_outbox.wcash_block_hash"
    validateWinnerBlock x record expectedParentHash ⟨shareId, .wcash⟩ blockHash record.wcashHeight
      record.wcashBlock

/-- The Zcash part of `validate_winner_blocks`: the block is the parent. -/
def validateZcashWinner (record : JournalRecord) (expectedParentHash shareId : Hex32) :
    Result (Option ValidatedWinner) :=
  validateCandidate record.zcashCandidate record.zcashBlock .zcash
    (validateWinnerBlock x record expectedParentHash ⟨shareId, .zcash⟩
      (hexEncode expectedParentHash.reverse.data) record.zcashHeight record.zcashBlock)

/-- `validate_winner_blocks`: the entries and their fingerprint. -/
def validateWinnerBlocks (record : JournalRecord) (shareId : Hex32) :
    Result (List ValidatedWinner × Option Hex32) :=
  if record.record = RecordKind.acceptedShare.name then do
    rejectIf (record.wcashBlock.isSome = true ∨ record.zcashBlock.isSome = true)
      (invalid "accepted_share contains network-winner block bytes")
    .ok ([], none)
  else do
    let text ← requiredRecordField record.parentHashLe "winner_outbox.parent_hash_le"
    let expectedParentHash ← validateCanonicalHex 32 text "winner_outbox.parent_hash_le"
    let wcash ← validateWcashWinner x record expectedParentHash shareId
    let zcash ← validateZcashWinner x record expectedParentHash shareId
    let winners := wcash.toList ++ zcash.toList
    rejectIf (winners.isEmpty = true) (invalid "winner_outbox contains no network winner")
    .ok (winners, some (x.sha256 (utf8 "Wcash/share-journal/winner-record/v1\x00" ++
      winners.flatMap ValidatedWinner.fingerprint)))

end

/-! ## Counters -/

structure WorkerAccounting where
  acceptedShares : Nat := 0
  sharesByAuthentication : HashMap Text Nat := ∅
  wcashWinners : Nat := 0
  zcashWinners : Nat := 0
  sharesByTarget : HashMap Text Nat := ∅

structure AccountingSnapshot where
  acceptedShares : Nat := 0
  sharesByAuthentication : HashMap Text Nat := ∅
  workers : HashMap Text WorkerAccounting := ∅

/-- `counter.checked_add(1)`, a `u64`. -/
def increment (counter : Nat) (label : String) : Result Nat :=
  okOr (checkedAdd 64 counter 1) (invalid (label ++ " overflowed"))

def incrementBucket (buckets : HashMap Text Nat) (key : Text) (label : String) :
    Result (HashMap Text Nat) := do
  let count ← increment (valueAt id buckets key) label
  .ok (buckets.insert key count)

/-- `if flag { counter.checked_add(1)? }`. -/
def incrementIf (flag : Bool) (counter : Nat) (label : String) : Result Nat :=
  if flag then increment counter label else .ok counter

/-- The part of `apply_share` that updates a worker. -/
def WorkerAccounting.applyShare (worker : WorkerAccounting) (share : ImmutableShare) :
    Result WorkerAccounting := do
  let acceptedShares ← increment worker.acceptedShares "worker accepted-share count"
  let sharesByAuthentication ← incrementBucket worker.sharesByAuthentication share.authentication
    "worker authentication-provenance count"
  let wcashWinners ← incrementIf share.wcashCandidate worker.wcashWinners
    "worker Wcash-winner count"
  let zcashWinners ← incrementIf share.zcashCandidate worker.zcashWinners
    "worker Zcash-winner count"
  let sharesByTarget ← incrementBucket worker.sharesByTarget share.shareTarget
    "worker target-bucket count"
  .ok { acceptedShares, sharesByAuthentication, wcashWinners, zcashWinners, sharesByTarget }

def applyShare (snapshot : AccountingSnapshot) (share : ImmutableShare) :
    Result AccountingSnapshot := do
  let acceptedShares ← increment snapshot.acceptedShares "accepted-share count"
  let sharesByAuthentication ← incrementBucket snapshot.sharesByAuthentication
    share.authentication "authentication-provenance count"
  let worker ← ((snapshot.workers.lookup share.worker).getD {}).applyShare share
  .ok { acceptedShares, sharesByAuthentication
        workers := snapshot.workers.insert share.worker worker }

/-! ## Winner statuses -/

/-- The metadata that a status record must not have, or must have positive. -/
def statusMalformed (record : JournalRecord) : Prop :=
  record.recordedAt = some 0 ∨ record.recordedAt.isNone ∨ record.acceptedAt.isSome ∨
    record.worker.isSome ∨ record.workerAuthentication.isSome ∨ record.shareTarget.isSome ∨
    record.parentHashLe.isSome ∨ record.wcashCandidate.isSome ∨ record.zcashCandidate.isSome ∨
    record.wcashBlockHash.isSome ∨ record.wcashHeight.isSome ∨ record.zcashHeight.isSome ∨
    record.wcashBlock.isSome ∨ record.zcashBlock.isSome
  deriving Decidable

/-- The chain that a status record names. -/
def chainOfName (chain : Option Text) : Option WinnerChain :=
  if chain = some (utf8 "wcash") then some .wcash
  else if chain = some (utf8 "zcash") then some .zcash
  else none

/-- The transition of a winner. A matured winner leaves the outbox. -/
def PendingWinnerStatus.transition (pending : PendingWinnerStatus) (chain : WinnerChain) :
    StatusRecord → Result (Option PendingWinnerStatus)
  | .observed | .confirmed => do
    rejectIf (pending.observed = true)
      (invalid "winner is observed twice without an intervening orphan transition")
    .ok (some { pending with observed := true, conflictingWitness := false })
  | .orphaned => do
    rejectIf (pending.observed = false ∧ pending.conflictingWitness = false)
      (invalid "winner is orphaned before best-chain observation or conflicting-witness quarantine")
    .ok (some { pending with observed := false, conflictingWitness := false })
  | .conflicting => do
    rejectIf (chain ≠ .wcash)
      (invalid "only a Wcash winner can enter conflicting-witness quarantine")
    rejectIf (pending.conflictingWitness = true)
      (invalid
        "winner enters conflicting-witness quarantine twice without exact best-chain observation")
    .ok (some { pending with observed := false, conflictingWitness := true })
  | .matured => do
    rejectIf (pending.observed = false ∨ pending.conflictingWitness = true)
      (invalid "winner is matured before best-chain observation")
    .ok none

/-- Writes an entry back, or removes it. -/
def putBack {K V : Type} [DecidableEq K] (map : HashMap K V) (key : K) :
    Option V → HashMap K V
  | some value => map.insert key value
  | none => map.erase key

section

variable {K V : Type} [DecidableEq K]

@[simp] theorem lookup_putBack (map : HashMap K V) (key : K) (updated : Option V) :
    (putBack map key updated).lookup key = updated := by
  cases updated with
  | some value => exact AList.lookup_insert _
  | none => exact AList.lookup_erase _ _

theorem lookup_putBack_ne {map : HashMap K V} {key other : K} (h : other ≠ key)
    (updated : Option V) : (putBack map key updated).lookup other = map.lookup other := by
  cases updated with
  | some value => exact AList.lookup_insert_ne h
  | none => exact AList.lookup_erase_ne h

end

def applyWinnerStatus (record : JournalRecord) (status : StatusRecord)
    (pendingWinners : HashMap WinnerKey PendingWinnerStatus) :
    Result (HashMap WinnerKey PendingWinnerStatus) := do
  rejectIf (statusMalformed record) (invalid "winner status record contains malformed metadata")
  let _ ← validateCanonicalHex 32 record.jobId "status.job_id"
  let text ← requiredRecordField record.shareId "share_id"
  let shareId ← validateCanonicalHex 32 text "share_id"
  let chain ← okOr (chainOfName record.chain) (invalid "winner status record has an unknown chain")
  let pending ← okOr (pendingWinners.lookup ⟨shareId, chain⟩)
    (invalid "winner status record updates an unknown or already-matured winner")
  let blockHash ← requiredRecordField record.blockHash "status.block_hash"
  let _ ← validateCanonicalHex 32 blockHash "status.block_hash"
  let height ← okOr (positive record.height) (invalid "winner status record has no positive height")
  rejectIf (pending.jobId ≠ record.jobId ∨ pending.blockHash ≠ blockHash ∨
      pending.height ≠ height)
    (invalid "winner status metadata differs from its immutable outbox entry")
  let updated ← pending.transition chain status
  .ok (putBack pendingWinners ⟨shareId, chain⟩ updated)

/-- What `apply_winner_status` checks. -/
structure StatusChecked (record : JournalRecord) (status : StatusRecord)
    (pendingWinners : HashMap WinnerKey PendingWinnerStatus) (key : WinnerKey)
    (pending : PendingWinnerStatus) (updated : Option PendingWinnerStatus) : Prop where
  clean : ¬ statusMalformed record
  jobIdHex : ∃ jobId : Hex32, record.jobId = hexEncode jobId.data
  shareId : record.shareId = some (hexEncode key.shareId.data)
  chain : chainOfName record.chain = some key.chain
  entry : pendingWinners.lookup key = some pending
  jobId : pending.jobId = record.jobId
  blockHash : record.blockHash = some pending.blockHash
  blockHashHex : ∃ hash : Hex32, pending.blockHash = hexEncode hash.data
  height : positive record.height = some pending.height
  transition : pending.transition key.chain status = .ok updated

theorem applyWinnerStatus_ok
    (h : applyWinnerStatus record status pendingWinners = .ok pendingWinners') :
    ∃ key pending updated, StatusChecked record status pendingWinners key pending updated ∧
      pendingWinners' = putBack pendingWinners key updated := by
  obtain ⟨hclean, h⟩ := of_rejectIf_bind h
  obtain ⟨jobId, hjobId, h⟩ := of_bind h
  obtain ⟨text, htext, h⟩ := of_okOr_bind h
  obtain ⟨shareId, hshareId, h⟩ := of_bind h
  obtain ⟨chain, hchain, h⟩ := of_okOr_bind h
  obtain ⟨pending, hpending, h⟩ := of_okOr_bind h
  obtain ⟨blockHash, hblockHash, h⟩ := of_okOr_bind h
  obtain ⟨hash, hhash, h⟩ := of_bind h
  obtain ⟨height, hheight, h⟩ := of_okOr_bind h
  obtain ⟨hsame, h⟩ := of_rejectIf_bind h
  obtain ⟨updated, hupdated, h⟩ := of_bind h
  have hresult := (Except.ok.inj h).symm
  simp only [not_or, not_not] at hsame
  obtain ⟨hjob, rfl, rfl⟩ := hsame
  rw [validateCanonicalHex_eq_ok.mp hshareId] at htext
  exact ⟨⟨shareId, chain⟩, pending, updated, {
    clean := hclean
    jobIdHex := ⟨jobId, validateCanonicalHex_eq_ok.mp hjobId⟩
    shareId := htext
    chain := hchain
    entry := hpending
    jobId := hjob
    blockHash := hblockHash
    blockHashHex := ⟨hash, validateCanonicalHex_eq_ok.mp hhash⟩
    height := hheight
    transition := hupdated }, hresult⟩

theorem StatusChecked.applyWinnerStatus {key : WinnerKey} {pending : PendingWinnerStatus}
    {updated : Option PendingWinnerStatus}
    (h : StatusChecked record status pendingWinners key pending updated) :
    applyWinnerStatus record status pendingWinners = .ok (putBack pendingWinners key updated) := by
  obtain ⟨jobId, hjobId⟩ := h.jobIdHex
  obtain ⟨hash, hhash⟩ := h.blockHashHex
  have hsame : ¬ (pending.jobId ≠ record.jobId ∨ pending.blockHash ≠ pending.blockHash ∨
      pending.height ≠ pending.height) := by
    simp [h.jobId]
  have hpending : pendingWinners.lookup ⟨key.shareId, key.chain⟩ = some pending := h.entry
  unfold ShareJournal.applyWinnerStatus requiredRecordField
  rw [rejectIf_bind h.clean, validateCanonicalHex_eq_ok.mpr hjobId, ok_bind, h.shareId, okOr_bind,
    validateCanonicalHex_eq_ok.mpr rfl, ok_bind, h.chain, okOr_bind, hpending, okOr_bind,
    h.blockHash, okOr_bind, validateCanonicalHex_eq_ok.mpr hhash, ok_bind, h.height, okOr_bind,
    rejectIf_bind hsame, h.transition, ok_bind]

/-! ## The loop -/

def maxAccountingShares : Nat := 1000000

/-- The local variables of the replay. -/
structure Accounting where
  accepted : HashMap Hex32 ImmutableShare := ∅
  pendingWinners : HashMap WinnerKey PendingWinnerStatus := ∅
  usedJobs : Finset Hex32 := ∅
  snapshot : AccountingSnapshot := {}

/-- The loop that inserts the winners of a share. -/
def insertWinners (pendingWinners : HashMap WinnerKey PendingWinnerStatus)
    (winners : List ValidatedWinner) : Result (HashMap WinnerKey PendingWinnerStatus) :=
  winners.foldlM (fun map winner => do
    rejectIf ((map.lookup winner.key).isSome = true)
      (invalid "share journal defines one network winner more than once")
    .ok (map.insert winner.key winner.status)) pendingWinners

section

variable (x : External)

/-- What an accepted line says: the share, and the winners it carries. -/
structure ShareLine where
  shareId : Hex32
  immutable : ImmutableShare
  winners : List ValidatedWinner

/-- The checks of a share record that need no state. -/
def readShareLine (record : JournalRecord) : Result ShareLine := do
  let immutable ← immutableShare record
  let shareId ← validateShareId x record immutable
  let (winners, fingerprint) ← validateWinnerBlocks x record shareId
  .ok { shareId, immutable := { immutable with winnerFingerprint := fingerprint }, winners }

/-- The arm for `job_activated`. -/
def Accounting.activateJob (s : Accounting) (record : JournalRecord) (jobId : Hex32) :
    Result Accounting := do
  validateJobActivation record
  rejectIf (jobId ∈ s.usedJobs) (invalid "share journal activates a previously used job ID")
  ensureGenerationCapacity s.usedJobs.card false
  .ok { s with usedJobs := insert jobId s.usedJobs }

/-- The end of the arm for shares, for a share ID that is new. -/
def Accounting.acceptShare (s : Accounting) (line : ShareLine) : Result Accounting := do
  rejectIf (maxAccountingShares ≤ s.accepted.entries.length)
    (invalid "share journal contains more than 1000000 accepted shares")
  let snapshot ← applyShare s.snapshot line.immutable
  let pendingWinners ← insertWinners s.pendingWinners line.winners
  .ok { s with accepted := s.accepted.insert line.shareId line.immutable, pendingWinners, snapshot }

/-- The arm for `accepted_share` and `winner_outbox`. -/
def Accounting.applyShareRecord (s : Accounting) (record : JournalRecord) (jobId : Hex32) :
    Result Accounting := do
  ensureGenerationCapacity s.usedJobs.card (decide (jobId ∈ s.usedJobs))
  let s := { s with usedJobs := insert jobId s.usedJobs }
  let line ← readShareLine x record
  match s.accepted.lookup line.shareId with
  | some previous => do
    rejectIf (previous ≠ line.immutable)
      (invalid "share journal assigns one share ID to conflicting accounting data")
    .ok s
  | none => s.acceptShare line

/-- The record of a line, with its job. -/
def readJournalRecord (line : Bytes) : Result (JournalRecord × Hex32) := do
  let record ← mapErr corrupted (fromSlice x JournalRecord.ofJson line)
  rejectIf (record.version ≠ journalVersion) (unsupportedRecord record)
  let jobId ← validateCanonicalHex 32 record.jobId "job_id"
  .ok (record, jobId)

/-- One turn of the loop. -/
def Accounting.applyLine (s : Accounting) (line : Bytes) : Result Accounting := do
  let (record, jobId) ← readJournalRecord x line
  match RecordKind.ofName record.record with
  | some .jobActivated => s.activateJob record jobId
  | some .acceptedShare => s.applyShareRecord x record jobId
  | some .winnerOutbox => s.applyShareRecord x record jobId
  | some (.status status) => do
    let pendingWinners ← applyWinnerStatus record status s.pendingWinners
    .ok { s with pendingWinners }
  | none => .error (unsupportedRecord record)

/-- The loop of `read_accounting_snapshot_from_reader`: its variables at
the end, and the torn tail that it ignores. -/
def replayAccounting (reader : Reader UInt8 String) : Result (Accounting × Bytes) :=
  forLines lineFeed .io maxJournalRecordBytes recordTooLarge (Accounting.applyLine x) {} reader

def readAccountingSnapshotFromReader (reader : Reader UInt8 String) :
    Result AccountingSnapshot := do
  let (s, _) ← replayAccounting x reader
  .ok s.snapshot

end

/-! ## What one line does -/

variable {x : External} {s s' : Accounting} {line : Bytes} {jobId : Hex32}

/-- A line that holds a share. -/
def HoldsShare (x : External) (line : Bytes) (jobId : Hex32) (share : ShareLine) : Prop :=
  ∃ record, readJournalRecord x line = .ok (record, jobId) ∧
    (RecordKind.ofName record.record = some .acceptedShare ∨
      RecordKind.ofName record.record = some .winnerOutbox) ∧
    readShareLine x record = .ok share

/-- What a turn of the loop can do. -/
inductive LineEffect (x : External) (s : Accounting) (line : Bytes) (s' : Accounting) : Prop where
  | activated {record : JournalRecord} {jobId : Hex32}
      (hrecord : readJournalRecord x line = .ok (record, jobId))
      (hkind : RecordKind.ofName record.record = some .jobActivated)
      (hvalid : validateJobActivation record = .ok ()) (hnew : jobId ∉ s.usedJobs)
      (hroom : ensureGenerationCapacity s.usedJobs.card false = .ok ())
      (hs' : s' = { s with usedJobs := insert jobId s.usedJobs })
  | repeated {jobId : Hex32} {share : ShareLine} (hshare : HoldsShare x line jobId share)
      (hroom : ensureGenerationCapacity s.usedJobs.card (decide (jobId ∈ s.usedJobs)) = .ok ())
      (hknown : s.accepted.lookup share.shareId = some share.immutable)
      (hs' : s' = { s with usedJobs := insert jobId s.usedJobs })
  | accepted {jobId : Hex32} {share : ShareLine} {snapshot : AccountingSnapshot}
      {pendingWinners : HashMap WinnerKey PendingWinnerStatus}
      (hshare : HoldsShare x line jobId share)
      (hroom : ensureGenerationCapacity s.usedJobs.card (decide (jobId ∈ s.usedJobs)) = .ok ())
      (hnew : s.accepted.lookup share.shareId = none)
      (hcount : s.accepted.entries.length < maxAccountingShares)
      (hsnapshot : applyShare s.snapshot share.immutable = .ok snapshot)
      (hwinners : insertWinners s.pendingWinners share.winners = .ok pendingWinners)
      (hs' : s' = { accepted := s.accepted.insert share.shareId share.immutable, pendingWinners
                    usedJobs := insert jobId s.usedJobs, snapshot })
  | status {record : JournalRecord} {jobId : Hex32} {status : StatusRecord}
      {pendingWinners : HashMap WinnerKey PendingWinnerStatus}
      (hrecord : readJournalRecord x line = .ok (record, jobId))
      (hkind : RecordKind.ofName record.record = some (.status status))
      (hstatus : applyWinnerStatus record status s.pendingWinners = .ok pendingWinners)
      (hs' : s' = { s with pendingWinners })

theorem activateJob_eq_ok :
    s.activateJob record jobId = .ok s' ↔
      validateJobActivation record = .ok () ∧ jobId ∉ s.usedJobs ∧
      ensureGenerationCapacity s.usedJobs.card false = .ok () ∧
      s' = { s with usedJobs := insert jobId s.usedJobs } := by
  unfold Accounting.activateJob
  constructor
  · intro h
    obtain ⟨_, hvalid, h⟩ := of_bind h
    obtain ⟨hnew, h⟩ := of_rejectIf_bind h
    obtain ⟨_, hroom, h⟩ := of_bind h
    exact ⟨hvalid, hnew, hroom, (Except.ok.inj h).symm⟩
  · rintro ⟨hvalid, hnew, hroom, rfl⟩
    rw [hvalid, rejectIf_bind hnew, hroom]
    rfl

theorem acceptShare_eq_ok {share : ShareLine} :
    s.acceptShare share = .ok s' ↔
      s.accepted.entries.length < maxAccountingShares ∧
      ∃ snapshot pendingWinners, applyShare s.snapshot share.immutable = .ok snapshot ∧
        insertWinners s.pendingWinners share.winners = .ok pendingWinners ∧
        s' = { s with accepted := s.accepted.insert share.shareId share.immutable
                      pendingWinners, snapshot } := by
  unfold Accounting.acceptShare
  constructor
  · intro h
    obtain ⟨hcount, h⟩ := of_rejectIf_bind h
    obtain ⟨snapshot, hsnapshot, h⟩ := of_bind h
    obtain ⟨pendingWinners, hwinners, h⟩ := of_bind h
    exact ⟨Nat.lt_of_not_le hcount, snapshot, pendingWinners, hsnapshot,
      hwinners, (Except.ok.inj h).symm⟩
  · rintro ⟨hcount, snapshot, pendingWinners, hsnapshot, hwinners, rfl⟩
    rw [rejectIf_bind (Nat.not_le_of_lt hcount), hsnapshot, hwinners]
    rfl

theorem applyShareRecord_effect (hrecord : readJournalRecord x line = .ok (record, jobId))
    (hkind : RecordKind.ofName record.record = some .acceptedShare ∨
      RecordKind.ofName record.record = some .winnerOutbox)
    (h : s.applyShareRecord x record jobId = .ok s') : LineEffect x s line s' := by
  obtain ⟨_, hroom, h⟩ := of_bind h
  obtain ⟨share, hread, h⟩ := of_bind h
  have hshare : HoldsShare x line jobId share := ⟨record, hrecord, hkind, hread⟩
  cases hlookup : s.accepted.lookup share.shareId with
  | some previous =>
    rw [hlookup] at h
    obtain ⟨hsame, h⟩ := of_require_bind h
    exact .repeated hshare hroom (hsame ▸ hlookup) (Except.ok.inj h).symm
  | none =>
    rw [hlookup] at h
    obtain ⟨hcount, snapshot, pendingWinners, hsnapshot, hwinners, hs'⟩ := acceptShare_eq_ok.mp h
    exact .accepted hshare hroom hlookup hcount hsnapshot hwinners hs'

/-- Every turn is one of the four. -/
theorem applyLine_effect (h : s.applyLine x line = .ok s') : LineEffect x s line s' := by
  obtain ⟨⟨record, jobId⟩, hrecord, h⟩ := of_bind h
  dsimp only at h
  cases hkind : RecordKind.ofName record.record with
  | none =>
    rw [hkind] at h
    cases h
  | some kind =>
    rw [hkind] at h
    cases kind with
    | jobActivated =>
      obtain ⟨hvalid, hnew, hroom, hs'⟩ := activateJob_eq_ok.mp h
      exact .activated hrecord hkind hvalid hnew hroom hs'
    | acceptedShare => exact applyShareRecord_effect hrecord (.inl hkind) h
    | winnerOutbox => exact applyShareRecord_effect hrecord (.inr hkind) h
    | status status =>
      obtain ⟨pendingWinners, hstatus, h⟩ := of_bind h
      exact .status hrecord hkind hstatus (Except.ok.inj h).symm

/-- The turn for a line that holds a share. -/
theorem applyLine_of_holdsShare {share : ShareLine} (h : HoldsShare x line jobId share)
    (hroom : ensureGenerationCapacity s.usedJobs.card (decide (jobId ∈ s.usedJobs)) = .ok ()) :
    s.applyLine x line =
      match s.accepted.lookup share.shareId with
      | some previous => do
        rejectIf (previous ≠ share.immutable)
          (invalid "share journal assigns one share ID to conflicting accounting data")
        .ok { s with usedJobs := insert jobId s.usedJobs }
      | none => { s with usedJobs := insert jobId s.usedJobs : Accounting }.acceptShare share := by
  obtain ⟨record, hrecord, hkind, hread⟩ := h
  have hshare : s.applyLine x line = s.applyShareRecord x record jobId := by
    unfold Accounting.applyLine
    rw [hrecord, ok_bind]
    rcases hkind with hkind | hkind
    · simp only [hkind]
    · simp only [hkind]
  rw [hshare]
  unfold Accounting.applyShareRecord
  rw [hroom]
  rw [hread]
  rfl

/-- Every one of the four is a turn. -/
theorem LineEffect.applyLine (h : LineEffect x s line s') : s.applyLine x line = .ok s' := by
  cases h with
  | activated hrecord hkind hvalid hnew hroom hs' =>
    unfold Accounting.applyLine
    rw [hrecord, ok_bind]
    simp only [hkind]
    exact activateJob_eq_ok.mpr ⟨hvalid, hnew, hroom, hs'⟩
  | repeated hshare hroom hknown hs' =>
    rw [applyLine_of_holdsShare hshare hroom, hknown]
    dsimp only
    rw [rejectIf_of_not (not_not_intro rfl), hs']
    rfl
  | accepted hshare hroom hnew hcount hsnapshot hwinners hs' =>
    rw [applyLine_of_holdsShare hshare hroom, hnew]
    exact acceptShare_eq_ok.mpr ⟨hcount, _, _, hsnapshot, hwinners, hs'⟩
  | status hrecord hkind hstatus hs' =>
    unfold Accounting.applyLine
    rw [hrecord, ok_bind]
    simp only [hkind]
    rw [hstatus, hs']
    rfl

end Wolf.ShareJournal
