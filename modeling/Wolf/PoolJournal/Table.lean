import Wolf.PoolJournal.Recovery

/-! # The pool backend journal: the outside world of a table

`tableExternal` is the outside world restricted to the values of a
table: it encodes and parses exactly the listed header and records, and
knows the digests and blocks that are listed. Its texts stand in for
those of `serde_json`: all that the journal needs of them is
`LawfulJson`, and they have it.

The module ends with one such table and the journal it describes. -/

namespace Wolf.PoolJournal

open PoolBackendJournalError Exec List

/-! ## The outside world of a table -/

/-- A text in braces. -/
def braced (text : Bytes) : Bytes := [0x7b] ++ text ++ [0x7d]

/-- A header is named by its stream. -/
def headerText (header : JournalHeader) : Bytes := braced (hexEncode header.journalStream.data)

/-- A number, in hexadecimal digits. -/
def seqText (eventSeq : Nat) : Bytes := hexEncode (leBytes 8 eventSeq)

def eventText (event : BackendEvent) : Bytes := braced (seqText event.eventSeq)

/-- A record is named by its number and the digest before it. -/
def unsignedRecordText (record : CanonicalUnsignedEventRecord) : Bytes :=
  braced (seqText record.eventSeq ++ hexEncode record.previousDigest.data)

/-- A record with its digest. -/
def recordText (record : PersistedEventRecord) : Bytes :=
  braced (seqText record.eventSeq ++ hexEncode record.digest.data)

theorem length_unsignedRecordText (record : CanonicalUnsignedEventRecord) :
    (unsignedRecordText record).length = 82 := by
  simp [unsignedRecordText, braced, seqText]

def PersistedEventRecord.unsigned (record : PersistedEventRecord) :
    CanonicalUnsignedEventRecord where
  eventSeq := record.eventSeq
  event := record.event
  winnerBlocks := record.winnerBlocks
  previousDigest := record.previousDigest

/-- A block that passes validation, with what validation finds in it. -/
structure KnownBlock where
  chain : MergedChain
  bytes : Bytes
  hashDisplay : Bytes
  height : Nat
  parentHash : Hex32
  facts : BlockFacts

structure JournalTable where
  header : JournalHeader
  headerDigest : Hex32
  records : List PersistedEventRecord
  /-- SHA-256 of the listed inputs. -/
  digests : List (Bytes × Hex32)
  attributions : List ((WorkerIdentity × TargetLe) × Hex32)
  blocks : List KnownBlock

variable (t : JournalTable)

def refused (category : Category) : SerdeError := ⟨category, "not in the table"⟩

/-- A listed text is read as its record, the beginning of one as cut off. -/
def JournalTable.parseRecord (bytes : Bytes) : Except SerdeError PersistedEventRecord :=
  match t.records.find? (fun record => recordText record = bytes) with
  | some record => .ok record
  | none =>
    if t.records.any (fun record => bytes.isPrefixOf (recordText record)) then
      .error (refused .eof)
    else
      .error (refused .syntaxError)

/-- The winner of a receipt agrees with the job on its chain. -/
def winnerMatchesJob (job : JobDescriptor) (winner : WinnerDescriptor) : Bool :=
  match winner.chain with
  | .wcash => winner.height = job.wcashHeight ∧ winner.coinbaseTxidLe = job.wcashCoinbaseTxidLe ∧
      winner.rewardZat = job.wcashRewardZat ∧
      winner.maturityConfirmations = job.wcashMaturityConfirmations
  | .zcash => winner.height = job.zcashHeight ∧ winner.coinbaseTxidLe = job.zcashCoinbaseTxidLe ∧
      winner.rewardZat = job.zcashRewardZat ∧
      winner.maturityConfirmations = job.zcashMaturityConfirmations

def tableExternal : External where
  backendProtocolVersion := 1
  maxBackendPayloadBytes := 65536
  maxEventPageItems := 256
  validateEvent event := rejectIf (event.eventSeq = 0) "event_seq must be nonzero"
  validateForJob receipt job :=
    rejectIf (¬ (receipt.jobId = job.jobId ∧ (receipt.winners.map (·.chain)).Nodup ∧
      receipt.winners.all (winnerMatchesJob job))) "receipt does not match its job"
  canonicalAttributionId identity targetLe :=
    okOr (t.attributions.lookup (identity, targetLe)) "not in the table"
  headerJson header :=
    if header = t.header then .ok (headerText header) else .error (refused .data)
  unsignedRecordJson record :=
    if record ∈ t.records.map PersistedEventRecord.unsigned then .ok (unsignedRecordText record)
    else .error (refused .data)
  recordJson record :=
    if record ∈ t.records then .ok (recordText record) else .error (refused .data)
  eventJson event := .ok (eventText event)
  eventsPageJson page := .ok (braced ([0x2c].intercalate (page.events.map eventText)))
  parseHeader bytes :=
    if bytes = headerText t.header then .ok t.header else .error (refused .data)
  parseRecord := t.parseRecord
  sha256 input := (t.digests.lookup input).getD (.fill 32 0)
  validatePersistedWinnerBlock bytes hash height chain :=
    match t.blocks.find? (fun block => block.chain = chain ∧ block.bytes = bytes ∧
        block.hashDisplay = hash ∧ block.height = height) with
    | some block => .ok block.parentHash
    | none => .error "not in the table"
  decodeBlock chain bytes :=
    match t.blocks.find? (fun block => block.chain = chain ∧ block.bytes = bytes) with
    | some block => .ok block.facts
    | none => .error "not in the table"

/-- No text of the table has a line break, and none is a prefix of another. -/
structure JournalTable.PrefixFree : Prop where
  header_line : newline ∉ headerText t.header
  record_line : ∀ record ∈ t.records, newline ∉ recordText record
  prefix_free : t.records.Pairwise fun record other =>
    ¬ recordText record <+: recordText other ∧ ¬ recordText other <+: recordText record

variable {t} {record other : PersistedEventRecord} {semantic : JournalSemanticState} {img : Image}

/-- Of the listed texts only a record's own is a prefix of it. -/
theorem JournalTable.PrefixFree.find_eq (ht : t.PrefixFree) {text : Bytes}
    (hrecord : record ∈ t.records) (h : text <+: recordText record)
    (hfind : t.records.find? (fun record => recordText record = text) = some other) :
    other = record ∧ text = recordText record := by
  have htext : recordText other = text := by simpa using List.find?_some hfind
  obtain rfl : other = record := by
    by_contra hne
    have hsymm : Std.Symm fun record other : PersistedEventRecord =>
        ¬ recordText record <+: recordText other ∧ ¬ recordText other <+: recordText record :=
      ⟨fun _ _ h => h.symm⟩
    rw [← htext] at h
    exact (ht.prefix_free.forall (mem_of_find?_eq_some hfind) hrecord hne).1 h
  exact ⟨rfl, htext.symm⟩

/-- What is encoded is listed. -/
theorem ok_of_listed {p : Prop} [Decidable p] {text json : Bytes} {e : SerdeError}
    (h : (if p then Except.ok text else .error e) = .ok json) : p ∧ json = text := by
  split at h
  · exact ⟨‹p›, (Except.ok.inj h).symm⟩
  · cases h

/-- The JSON of a prefix-free table is lawful. -/
theorem tableExternal_lawful (ht : t.PrefixFree) : LawfulJson (tableExternal t) where
  header_line := by
    intro header json h
    obtain ⟨rfl, rfl⟩ := ok_of_listed h
    exact ht.header_line
  header_parses := by
    intro header json h
    obtain ⟨rfl, rfl⟩ := ok_of_listed h
    exact if_pos rfl
  record_line := by
    intro record json h
    obtain ⟨hmem, rfl⟩ := ok_of_listed h
    exact ht.record_line record hmem
  record_parses := by
    intro record json h
    obtain ⟨hmem, rfl⟩ := ok_of_listed h
    show t.parseRecord (recordText record) = _
    unfold JournalTable.parseRecord
    cases hfind : t.records.find? (fun other => recordText other = recordText record) with
    | none => exact absurd (List.find?_eq_none.mp hfind record hmem) (by simp)
    | some other => rw [(ht.find_eq hmem (prefix_refl _) hfind).1]
  record_torn := by
    intro record json torn h htorn hne
    obtain ⟨hmem, rfl⟩ := ok_of_listed h
    refine ⟨refused .eof, ?_, rfl⟩
    show t.parseRecord torn = _
    unfold JournalTable.parseRecord
    cases hfind : t.records.find? (fun record => recordText record = torn) with
    | some other => exact absurd (ht.find_eq hmem htorn hfind).2 hne
    | none =>
      have hany : t.records.any (fun record => torn.isPrefixOf (recordText record)) = true :=
        any_eq_true.mpr ⟨record, hmem, List.isPrefixOf_iff_prefix.mpr htorn⟩
      exact if_pos hany

/-! ## Appending listed records -/

/-- The listed digests belong to distinct inputs, and the header and every
listed record have theirs. -/
structure JournalTable.Digested (t : JournalTable) : Prop where
  inputs : (t.digests.map Prod.fst).Nodup
  header : (digestPreimage headerDigestDomain (headerText t.header).length (headerText t.header),
    t.headerDigest) ∈ t.digests
  record : ∀ record ∈ t.records,
    (digestPreimage eventDigestDomain (unsignedRecordText record.unsigned).length
      (unsignedRecordText record.unsigned), record.digest) ∈ t.digests

theorem tableExternal_headerJson (t : JournalTable) :
    (tableExternal t).headerJson t.header = .ok (headerText t.header) := if_pos rfl

theorem tableExternal_digestCanonical (ht : t.Digested) {domain text : Bytes} {digest : Hex32}
    (hmem : (digestPreimage domain text.length text, digest) ∈ t.digests)
    (hsize : text.length < 2 ^ 64) (context : String) :
    digestCanonical (tableExternal t) domain (.ok text) context = .ok digest := by
  have hlength : checkedAdd 64 text.length 0 = some text.length := checkedAdd_of_lt hsize
  have hsha : (tableExternal t).sha256 (digestPreimage domain text.length text) = digest :=
    congrArg (Option.getD · _) ((lookup_eq_some_iff_mem ht.inputs).mpr hmem)
  show (okOr (checkedAdd 64 text.length 0) overflow >>= _) = _
  rw [hlength, okOr_bind, hsha]

/-- The image with one more record. -/
def Image.push (img : Image) (record : PersistedEventRecord) (semantic : JournalSemanticState) :
    Image where
  content := img.content ++ (recordText record ++ [newline])
  lastDigest := record.digest
  events := img.events ++ [record.event]
  semantic := semantic

/-- A listed record that follows an image is appended to it. The bounds
keep the file far below its limit. -/
theorem tableExternal_appends (ht : t.Digested) (hmem : record ∈ t.records)
    (hnext : nextEventSeq img.events = .ok record.eventSeq)
    (hseq : record.event.eventSeq = record.eventSeq)
    (hprevious : record.previousDigest = img.lastDigest)
    (hfits : ensureEventFitsPage (tableExternal t) record.event = .ok ())
    (hsize : (recordText record).length + 1 ≤ maxJournalRecordBytes)
    (hcount : img.events.length < 100) (hcontent : img.content.length < 10000)
    (happlies : Applies (tableExternal t) record img.semantic semantic) :
    Appends (tableExternal t) img record (img.push record semantic) where
  seq := hnext
  eventSeq := hseq
  valid := by
    refine rejectIf_of_not ?_
    rw [hseq, (nextEventSeq_ok.mp hnext).1]
    exact Nat.succ_ne_zero _
  fits := hfits
  previous := hprevious
  digest := by
    have hrecord : (⟨record.event.eventSeq, record.event, record.winnerBlocks,
        record.previousDigest⟩ : CanonicalUnsignedEventRecord) = record.unsigned := by
      rw [hseq]
      rfl
    unfold digestEvent
    rw [hrecord, show (tableExternal t).unsignedRecordJson record.unsigned
        = .ok (unsignedRecordText record.unsigned) from if_pos (mem_map_of_mem hmem)]
    refine tableExternal_digestCanonical ht (ht.record record hmem) ?_ _
    rw [length_unsignedRecordText]
    decide
  applies := happlies
  text := by
    have hlength : img.content.length + ((recordText record).length + 1) ≤ maxJournalBytes := by
      unfold maxJournalRecordBytes at hsize
      unfold maxJournalBytes
      omega
    refine ⟨recordText record, if_pos hmem, hsize, rfl, ?_⟩
    rw [show (img.push record semantic).content.length
      = img.content.length + ((recordText record).length + 1) by
        simp [Image.push]]
    refine checkedAppendLimits_ok.mpr ⟨?_, ?_, rfl, hlength⟩
    · unfold maxJournalEvents
      omega
    · unfold maxJournalBytes at hlength
      omega
  lastDigest := rfl
  events := rfl

/-! ## A table

A job, a share that wins a block of each chain, and the observation and
maturity of the Zcash one. -/

def sampleUuid (last : UInt8) : CanonicalUuid :=
  ⟨[0, 0, 0, 0, 0, 0, 0x40, 0, 0x80, 0, 0, 0, 0, 0, 0, last], rfl⟩

def sampleIdentity : JournalIdentity where
  backendInstance := sampleUuid 1
  wcashGenesis := .fill 32 0x11
  zcashGenesis := .fill 32 0x22
  wcashPayoutCommitment := .fill 32 0x33
  zcashPayoutCommitment := .fill 32 0x44
  chainId := 0x57434153

def sampleHeader : JournalHeader where
  formatVersion := 2
  backendProtocolVersion := 1
  backendInstance := sampleUuid 1
  journalStream := sampleUuid 2
  wcashGenesis := .fill 32 0x11
  zcashGenesis := .fill 32 0x22
  wcashPayoutCommitment := .fill 32 0x33
  zcashPayoutCommitment := .fill 32 0x44
  chainId := 0x57434153

def sampleBlock : Bytes := replicate 150 0x5a

def sampleWcashBlock : Bytes := replicate 150 0x57

def sampleBlocks : JournalWinnerBlocks := ⟨some sampleWcashBlock, some sampleBlock⟩

def sampleBlockHash : Hex32 := .fill 32 0x51

def sampleCoinbase : Hex32 := .fill 32 0x52

def sampleParent : Hex32 := .fill 32 0x53

def sampleTarget : TargetLe :=
  ofHex 32 "00000000000000000000000000000000000000000000000000000000ffff0700"

def sampleJob : JobDescriptor where
  jobId := .fill 32 0x10
  wcashCandidateHashLe := .fill 32 0x12
  headerInput := FixedBytes.copyFromSlice 108 (sampleBlock.take 108)
  wcashPreviousHashLe := .fill 32 0x13
  zcashPreviousHashLe := sampleParent
  wcashCoinbaseTxidLe := .fill 32 0x14
  zcashCoinbaseTxidLe := sampleCoinbase
  wcashTargetLe := .fill 32 0xff
  zcashTargetLe := sampleTarget
  wcashHeight := 17
  zcashHeight := 1
  wcashRewardZat := 625000000
  zcashRewardZat := 62500
  wcashMaturityConfirmations := 100
  zcashMaturityConfirmations := 100
  maxAgeMs := 60000

def sampleWinner : WinnerDescriptor where
  chain := .zcash
  blockHashLe := sampleBlockHash
  height := 1
  coinbaseTxidLe := sampleCoinbase
  rewardZat := 62500
  maturityConfirmations := 100

def sampleWcashWinner : WinnerDescriptor where
  chain := .wcash
  blockHashLe := .fill 32 0x12
  height := 17
  coinbaseTxidLe := .fill 32 0x14
  rewardZat := 625000000
  maturityConfirmations := 100

def sampleWorker : WorkerIdentity where
  accountId := sampleUuid 3
  workerId := sampleUuid 4
  label := "account.rig-1"

def sampleShare : ShareSubmission where
  jobId := .fill 32 0x10
  shareId := .fill 32 0x20
  parentHashLe := sampleBlockHash
  winners := [sampleWcashWinner, sampleWinner]
  identity := sampleWorker
  targetLe := .fill 32 0xff
  winnerBlocks := sampleBlocks

def sampleAttribution : Hex32 := .fill 32 0x21

def sampleObserved : WinnerTransition := .observed ⟨.fill 32 0x31, 60⟩ 60

def sampleMatured : WinnerTransition := .matured ⟨.fill 32 0x32, 100⟩ 100

def sampleHeaderDigest : Hex32 :=
  ofHex 32 "37531b03b49e143f30154837c309c18139a61b789fbe480b64cca857ba4e7311"

def sampleJobDigest : Hex32 :=
  ofHex 32 "ee6bfb11c5a1d510ee857eb9ac043827c606b5f2608df8d4ef80a357dcf7c9bd"

def sampleShareDigest : Hex32 :=
  ofHex 32 "ad95a1940b1ddbcdab3425d2a2cb265e9ba458c30cacaae04c576a8d3d08bf2e"

def sampleObservedDigest : Hex32 :=
  ofHex 32 "6f74ec91a8e65dd2ff96e1163c7ced6d407bfe7adb9c9a97768cabceb5c50cf8"

def sampleMaturedDigest : Hex32 :=
  ofHex 32 "95d53bcfd39f1f766bd9b75eddcd86ecb5d73e2df481c9e820d4a3b86c0a0c05"

def sampleReceipt : ShareReceipt := sampleShare.receipt 2 sampleAttribution

def sampleJobRecord : PersistedEventRecord where
  eventSeq := 1
  event := .jobActivated 1 sampleJob
  winnerBlocks := {}
  previousDigest := sampleHeaderDigest
  digest := sampleJobDigest

def sampleShareRecord : PersistedEventRecord where
  eventSeq := 2
  event := .shareCommitted sampleReceipt sampleShare.jobId sampleWorker sampleShare.targetLe
  winnerBlocks := ⟨some (hexEncode sampleWcashBlock), some (hexEncode sampleBlock)⟩
  previousDigest := sampleJobDigest
  digest := sampleShareDigest

def sampleObservedRecord : PersistedEventRecord where
  eventSeq := 3
  event := .winnerChanged 3 sampleShare.shareId sampleShare.jobId sampleWinner sampleObserved
  winnerBlocks := {}
  previousDigest := sampleShareDigest
  digest := sampleObservedDigest

def sampleMaturedRecord : PersistedEventRecord where
  eventSeq := 4
  event := .winnerChanged 4 sampleShare.shareId sampleShare.jobId sampleWinner sampleMatured
  winnerBlocks := {}
  previousDigest := sampleObservedDigest
  digest := sampleMaturedDigest

def sampleRecords : List PersistedEventRecord :=
  [sampleJobRecord, sampleShareRecord, sampleObservedRecord, sampleMaturedRecord]

/-- The block of a winner of the share. -/
def sampleKnown (winner : WinnerDescriptor) (bytes : Bytes) : KnownBlock where
  chain := winner.chain
  bytes
  hashDisplay := hexEncode winner.blockHashLe.reverse.data
  height := winner.height
  parentHash := sampleBlockHash
  facts := ⟨sampleJob.previousHashLe winner.chain, some (sampleJob.targetLe winner.chain),
    some winner.coinbaseTxidLe⟩

def sampleTable : JournalTable where
  header := sampleHeader
  headerDigest := sampleHeaderDigest
  records := sampleRecords
  digests :=
    (digestPreimage headerDigestDomain (headerText sampleHeader).length (headerText sampleHeader),
      sampleHeaderDigest) ::
    sampleRecords.map fun record =>
      (digestPreimage eventDigestDomain (unsignedRecordText record.unsigned).length
        (unsignedRecordText record.unsigned), record.digest)
  attributions := [((sampleWorker, sampleShare.targetLe), sampleAttribution)]
  blocks := [sampleKnown sampleWcashWinner sampleWcashBlock, sampleKnown sampleWinner sampleBlock]

-- The texts of the sample are evaluated byte by byte.
set_option maxRecDepth 20000

theorem sampleTable_prefixFree : sampleTable.PrefixFree where
  header_line := by decide
  record_line := by decide
  prefix_free := by decide

theorem sampleTable_digested : sampleTable.Digested where
  inputs := by decide
  header := mem_cons_self
  record := fun _ hrecord => mem_cons_of_mem _ (mem_map_of_mem hrecord)

def sample : External := tableExternal sampleTable

theorem sample_lawful : LawfulJson sample := tableExternal_lawful sampleTable_prefixFree

/-! ## The journal of the table -/

def sampleCreated : Image where
  content := headerText sampleHeader ++ [newline]
  lastDigest := sampleHeaderDigest
  events := []
  semantic := {}

def sampleWithJob : Image :=
  sampleCreated.push sampleJobRecord
    { jobs := (∅ : HashMap Hex32 JournalJobState).insert sampleJob.jobId ⟨sampleJob, .active⟩ }

def sampleWithShare : Image :=
  sampleWithJob.push sampleShareRecord
    (sampleWithJob.semantic.withShare 2 sampleReceipt sampleWorker sampleShare.targetLe
      sampleBlocks)

def sampleKey : WinnerKey := ⟨sampleShare.shareId, .zcash⟩

def samplePending : JournalWinnerState := pendingWinner 2 sampleReceipt sampleWinner sampleBlock

def sampleWithObserved : Image :=
  sampleWithShare.push sampleObservedRecord
    (sampleWithShare.semantic.withChange 3 sampleKey samplePending sampleObserved)

def sampleWithMatured : Image :=
  sampleWithObserved.push sampleMaturedRecord
    (sampleWithObserved.semantic.withChange 4 sampleKey
      { samplePending with lifecycle := sampleObserved.lifecycle, revisionEventSeq := 3 }
      sampleMatured)

theorem sample_created :
    createNew sample { candidates := [sampleUuid 2] } sampleIdentity
      = .ok (sampleHeader, sampleCreated.state) := by
  have hheader : newHeader sample sampleIdentity (sampleUuid 2) = sampleHeader := rfl
  have hjson : sample.headerJson sampleHeader = .ok (headerText sampleHeader) :=
    tableExternal_headerJson sampleTable
  have hdigest : digestHeader sample sampleHeader = .ok sampleHeaderDigest :=
    tableExternal_digestCanonical sampleTable_digested mem_cons_self (by decide) _
  have hsize : checkRecordSize (headerText sampleHeader ++ [newline]).length 1 = .ok () := by
    decide
  unfold createNew createNewWithStream
  rw [show freshJournalStream [sampleUuid 2] sampleIdentity.backendInstance = .ok (sampleUuid 2) by
    decide, ok_bind,
    show validateIdentityAndNetwork sampleIdentity (some (sampleUuid 2)) = .ok () by
    decide, ok_bind]
  dsimp only
  rw [hheader, hdigest, ok_bind, hjson,
    show canonicalJson (.ok (headerText sampleHeader)) "journal header"
      = .ok (headerText sampleHeader) from rfl, ok_bind, hsize, ok_bind,
    show verifyLockedJournalPath none [] 0 = .ok () by decide, ok_bind,
    show verifyLockedJournalPath none (headerText sampleHeader ++ [newline])
      (headerText sampleHeader ++ [newline]).length = .ok () from
    rejectIf_of_not (not_not.mpr rfl)]
  rfl

theorem sampleRecords_size : ∀ record ∈ sampleRecords,
    (recordText record).length + 1 ≤ maxJournalRecordBytes := by
  decide

theorem sampleRecords_fits : ∀ record ∈ sampleRecords,
    ensureEventFitsPage sample record.event = .ok () := by
  decide

/-- A record of the sample that follows an image is appended to it. -/
theorem sample_appends (hmem : record ∈ sampleRecords)
    (hnext : nextEventSeq img.events = .ok record.eventSeq)
    (hseq : record.event.eventSeq = record.eventSeq)
    (hprevious : record.previousDigest = img.lastDigest) (hcount : img.events.length < 100)
    (hcontent : img.content.length < 10000)
    (happlies : Applies sample record img.semantic semantic) :
    Appends sample img record (img.push record semantic) :=
  tableExternal_appends sampleTable_digested hmem hnext hseq hprevious
    (sampleRecords_fits record hmem) (sampleRecords_size record hmem) hcount hcontent happlies

theorem sample_takes_job :
    Takes sample sampleCreated (.event (.jobActivated 0 sampleJob)) sampleJobRecord
      sampleWithJob where
  records := ⟨rfl, rfl, fun _ _ _ _ _ h => nomatch h⟩
  appends := by
    refine sample_appends (by simp [sampleRecords]) rfl rfl rfl (by decide) (by decide) ?_
    exact .jobActivated rfl rfl rfl

theorem sample_encoded :
    encodeWinnerBlocks sampleBlocks 2 = .ok sampleShareRecord.winnerBlocks := by
  unfold encodeWinnerBlocks encodeWinnerBlock
  dsimp only [sampleBlocks]
  rw [rejectIf_bind (by decide), ok_bind, rejectIf_bind (by decide)]
  rfl

theorem sample_applies_share :
    Applies sample sampleShareRecord sampleWithJob.semantic sampleWithShare.semantic := by
  have hcapacity : checkedWinnerCapacity sampleWithJob.semantic.winnerOrder.length
      sampleReceipt.winners.length = .ok 2 := rfl
  have hvalid : sample.validateForJob sampleReceipt sampleJob = .ok () := rfl
  refine .shareCommitted rfl hcapacity (AList.lookup_insert _) (by decide) hvalid rfl
    ?_ fun winner _ => rfl
  refine (decodeAndValidateWinnerBlocks_of_encode sample sample_encoded).trans ?_
  have hchain : ∀ chain, validateChainBlock sample sampleBlocks sampleReceipt sampleJob 2 chain =
      .ok () := by
    intro chain
    cases chain <;> decide
  rw [hchain, ok_bind, hchain, ok_bind]

theorem sample_takes_share :
    Takes sample sampleWithJob (.share sampleShare) sampleShareRecord sampleWithShare where
  records := by
    have hattribution : sample.canonicalAttributionId sampleShare.identity sampleShare.targetLe
        = .ok sampleAttribution := rfl
    exact ⟨sampleAttribution, hattribution, rfl, rfl, sample_encoded⟩
  appends := sample_appends (by simp [sampleRecords]) rfl rfl rfl (by decide) (by decide)
    sample_applies_share

theorem sample_pending : sampleWithShare.semantic.winners.lookup sampleKey = some samplePending :=
  AList.lookup_insert _

theorem sample_takes_observed :
    Takes sample sampleWithShare (.winner sampleShare.shareId .zcash 2 sampleObserved)
      sampleObservedRecord sampleWithObserved where
  records := ⟨samplePending, sample_pending, rfl, rfl, rfl⟩
  appends := by
    have hevent : sampleObservedRecord.event =
        .winnerChanged 3 sampleShare.shareId sampleShare.jobId sampleWinner sampleObserved := rfl
    have hguard : checkChange 3 sampleWinner .pending sampleObserved = .ok () := by decide
    exact sample_appends (by simp [sampleRecords]) rfl rfl rfl (by decide) (by decide)
      (.winnerChanged hevent rfl sample_pending rfl rfl hguard)

theorem sample_observed : sampleWithObserved.semantic.winners.lookup sampleKey =
    some { samplePending with lifecycle := sampleObserved.lifecycle, revisionEventSeq := 3 } :=
  AList.lookup_insert _

theorem sample_takes_matured :
    Takes sample sampleWithObserved (.winner sampleShare.shareId .zcash 3 sampleMatured)
      sampleMaturedRecord sampleWithMatured where
  records := ⟨_, sample_observed, rfl, rfl, rfl⟩
  appends := by
    have hevent : sampleMaturedRecord.event =
        .winnerChanged 4 sampleShare.shareId sampleShare.jobId sampleWinner sampleMatured := rfl
    have hguard : checkChange 4 sampleWinner sampleObserved.lifecycle sampleMatured = .ok () := by
      decide
    exact sample_appends (by simp [sampleRecords]) rfl rfl rfl (by decide) (by decide)
      (.winnerChanged hevent rfl sample_observed rfl rfl hguard)

end Wolf.PoolJournal
