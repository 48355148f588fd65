import Wolf.ShareJournal.Agreement

/-! # The share journal: lines that are read back

What the three calls write, as the two replays read it. -/

namespace Wolf.ShareJournal

open List Nat RecordKind

/-! ## `serde_json` -/

/-- Printable ASCII text without the characters that JSON escapes. -/
def AsciiText (text : Bytes) : Prop := ∀ c ∈ text, 0x20 ≤ c ∧ c < 0x80 ∧ c ≠ 0x22 ∧ c ≠ 0x5c
  deriving Decidable

/-- The scalars that the journal writes. -/
def Writable : Json → Prop
  | .string text => AsciiText text
  | .uint n => n < 2 ^ 64
  | .bool _ => True
  | .null => True
  | _ => False

/-- What is assumed of the code outside this development. -/
structure Laws (x : External) : Prop where
  /-- An object that `to_vec` writes is one line, and `from_slice` reads it
  back with its keys in some order. -/
  json : ∀ fields text, (∀ field ∈ fields, AsciiText field.1 ∧ Writable field.2) →
    (fields.map Prod.fst).Nodup → x.toVec fields = .ok text →
    lineFeed ∉ text ∧ ∃ fields', fields'.Perm fields ∧ x.parseJson text = .ok (.object fields')
  /-- The block codecs refuse more than 2000000 bytes. -/
  blocks : ∀ bytes hash height chain parent,
    x.validatePersistedWinnerBlock bytes hash height chain = .ok parent →
    bytes.length ≤ maxWinnerBlockBytes

theorem Field.asciiText_key (field : Field) : AsciiText field.key := by
  cases field <;> decide +kernel

theorem keyed_keys (record : JsonRecord) :
    record.keyed.map Prod.fst = (record.map Prod.fst).map Field.key := by
  simp [JsonRecord.keyed]

variable {record : JsonRecord} {hash : Hex32} {worker : Text} {r : JournalRecord} {text : Bytes}

/-- What a struct reads of an object that was read back. -/
theorem read_keyed {fields : List (Bytes × Json)} (hperm : fields.Perm record.keyed)
    (hnodup : (record.map Prod.fst).Nodup) {order : List Field} (horder : ∀ field, field ∈ order)
    {Flag : Type} {readFlag : Option Json → Option Flag} {r : RecordFields Flag}
    (hreads : RecordFields.Reads readFlag (fun field => record.lookup field) r) :
    ((Json.structFields (order.map Field.key) (.object fields)).bind fun get =>
      RecordFields.read readFlag fun field => get field.key) = some r := by
  have hkeyed : (record.keyed.map Prod.fst).Nodup := by
    rw [keyed_keys]
    exact hnodup.map Field.key_injective
  have hfields : (fields.map Prod.fst).Nodup := (hperm.map Prod.fst).nodup_iff.mpr hkeyed
  have hknown : ∀ key ∈ fields.map Prod.fst, key ∈ order.map Field.key := by
    intro key hkey
    rw [(hperm.map Prod.fst).mem_iff, keyed_keys, mem_map] at hkey
    obtain ⟨field, _, rfl⟩ := hkey
    exact mem_map_of_mem (horder field)
  have hget : (fun field : Field => fields.lookup field.key) =
      fun field => record.lookup field := by
    funext field
    refine Eq.trans (b := record.keyed.lookup field.key) ?_ (lookup_key record field)
    ext value
    rw [lookup_eq_some_iff_mem hfields, lookup_eq_some_iff_mem hkeyed]
    exact hperm.mem_iff
  rw [Json.structFields, if_pos ⟨hfields, hknown⟩, Option.bind_some, hget]
  exact hreads.read

/-- A record that both structs read: the flags are there or missing. -/
structure ReadBack (record : JsonRecord) (r : JournalRecord) : Prop where
  writable : ∀ entry ∈ record, Writable entry.2
  nodup : (record.map Prod.fst).Nodup
  reads : RecordFields.Reads (Json.optional Json.asBool) (fun field => record.lookup field) r
  wcash : record.lookup .wcashCandidate ≠ some .null
  zcash : record.lookup .zcashCandidate ≠ some .null

theorem ReadBack.persisted (h : ReadBack record r) :
    RecordFields.Reads Json.defaultFalse (fun field => record.lookup field) r.persisted :=
  h.reads.mapFlags h.wcash h.zcash

section

variable {x : External} {text : Bytes}

/-- An encoded record is one line, and both structs read it back. -/
theorem ReadBack.fromSlice (laws : Laws x) (h : ReadBack record r)
    (htext : x.toVec record.keyed = .ok text) :
    lineFeed ∉ text ∧ fromSlice x JournalRecord.ofJson text = .ok r ∧
      fromSlice x PersistedShareKey.ofJson text = .ok r.persisted := by
  have hfields : ∀ field ∈ record.keyed, AsciiText field.1 ∧ Writable field.2 := by
    intro field hfield
    obtain ⟨entry, hentry, rfl⟩ := mem_map.mp hfield
    exact ⟨entry.1.asciiText_key, h.writable entry hentry⟩
  have hkeyed : (record.keyed.map Prod.fst).Nodup := by
    rw [keyed_keys]
    exact h.nodup.map Field.key_injective
  obtain ⟨hline, fields, hperm, hparse⟩ := laws.json _ _ hfields hkeyed htext
  have hread : JournalRecord.ofJson (.object fields) = some r :=
    read_keyed hperm h.nodup Field.mem_journalRecordOrder h.reads
  have hpersisted : PersistedShareKey.ofJson (.object fields) = some r.persisted :=
    read_keyed hperm h.nodup Field.mem_persistedShareKeyOrder h.persisted
  unfold ShareJournal.fromSlice
  rw [hparse, ok_bind, ok_bind, hread, hpersisted]
  exact ⟨hline, rfl, rfl⟩

/-- `from_value` of the same record. -/
theorem ReadBack.persistedOfRecord (h : ReadBack record r) :
    persistedOfRecord record = .ok r.persisted := by
  have hread : PersistedShareKey.ofJson (.object record.keyed) = some r.persisted :=
    read_keyed (List.Perm.refl _) h.nodup Field.mem_persistedShareKeyOrder h.persisted
  unfold ShareJournal.persistedOfRecord
  rw [hread, okOr_some]

end

/-! ## The records -/

/-- Text of bytes of a class that is printable. -/
theorem asciiText_of_all {p : UInt8 → Bool} (h : text.all p = true)
    (hp : ∀ n : Fin 256, p (UInt8.ofNat n) = true → 0x20 ≤ UInt8.ofNat n ∧
      UInt8.ofNat n < 0x80 ∧ UInt8.ofNat n ≠ 0x22 ∧ UInt8.ofNat n ≠ 0x5c) : AsciiText text := by
  intro c hc
  have hc := all_eq_true.mp h c hc
  simpa only [UInt8.ofNat_toNat] using hp ⟨c.toNat, c.toNat_lt⟩ (by simpa using hc)

theorem asciiText_hexEncode (bytes : Bytes) : AsciiText (hexEncode bytes) :=
  asciiText_of_all (hexEncode_isLowerHex bytes) (by decide +kernel)

theorem asciiText_of_eq {text : Text} (h : text = hexEncode hash.data) : AsciiText text :=
  h ▸ asciiText_hexEncode _

theorem asciiText_worker (h : ¬ badWorkerName worker) : AsciiText worker := by
  simp only [badWorkerName, not_or, Bool.not_eq_false] at h
  exact asciiText_of_all h.2.2 (by decide +kernel)

theorem writable_u32 {n : Nat} (h : n < 2 ^ 32) : Writable (.uint n) :=
  lt_trans h (by decide)

theorem writable_version : Writable (.uint journalVersion) :=
  writable_u32 (by decide)

theorem asUint_of_lt {w n : Nat} (h : n < 2 ^ w) : Json.asUint w (.uint n) = some n :=
  if_pos h

/-- The line of `activate_job`, as it is read back. -/
def activationFields (job : ActiveJournalJob) (timestamp : UInt64) : JournalRecord where
  version := journalVersion
  record := RecordKind.jobActivated.name
  jobId := job.jobId
  recordedAt := some timestamp.toNat
  wcashCandidate := none
  zcashCandidate := none
  wcashBlockHash := some job.childHashDisplay
  wcashHeight := some job.childHeight.toNat
  zcashHeight := some job.parentHeight.toNat

theorem optional_uint {w n : Nat} (h : n < 2 ^ w) :
    Json.optional (Json.asUint w) (some (.uint n)) = some (some n) :=
  congrArg (Option.map some) (asUint_of_lt h)

variable {job : ActiveJournalJob}

theorem activation_readBack (hjob : AsciiText job.jobId) (hhash : AsciiText job.childHashDisplay)
    (timestamp : UInt64) :
    ReadBack (activationRecord job timestamp) (activationFields job timestamp) where
  writable := by
    have hname : AsciiText RecordKind.jobActivated.name := by decide +kernel
    simp only [activationRecord, forall_mem_cons]
    exact ⟨writable_version, hname, timestamp.toNat_lt, hjob, hhash,
      writable_u32 job.childHeight.toNat_lt, writable_u32 job.parentHeight.toNat_lt,
      forall_mem_nil _⟩
  nodup := by simp [activationRecord]
  reads := by
    constructor <;> first
      | rfl
      | exact optional_uint timestamp.toNat_lt
      | exact optional_uint (UInt32.toNat_lt _)
  wcash h := by cases h
  zcash h := by cases h

/-- The line of `record`, as it is read back. -/
def shareFields (job : ActiveJournalJob) (worker : Text)
    (authentication : JournalWorkerAuthentication) (jobId : Text) (share : ValidatedNativeShare)
    (shareId : Hex32) (wcashBlock : Option Bytes) (timestamp : UInt64) : JournalRecord where
  version := journalVersion
  record := if share.wcashCandidate.isSome || share.parentBlock.isSome
    then RecordKind.winnerOutbox.name else RecordKind.acceptedShare.name
  jobId := jobId
  shareId := some (hexEncode shareId.data)
  acceptedAt := some timestamp.toNat
  worker := some worker
  workerAuthentication := some authentication.asStr
  shareTarget := some (displayTarget share.acceptedTarget)
  parentHashLe := some (hexEncode share.parentBlockHash.data)
  wcashCandidate := some share.wcashCandidate.isSome
  zcashCandidate := some share.parentBlock.isSome
  wcashBlockHash := some job.childHashDisplay
  wcashHeight := some job.childHeight.toNat
  zcashHeight := some job.parentHeight.toNat
  wcashBlock := wcashBlock.map hexEncode
  zcashBlock := share.parentBlock.map hexEncode

theorem optional_jsonOption (text : Option Text) :
    Json.optional Json.asString (some (jsonOption text)) = some text := by
  cases text <;> rfl

theorem writable_jsonOption (bytes : Option Bytes) :
    Writable (jsonOption (bytes.map hexEncode)) := by
  cases bytes with
  | none => trivial
  | some bytes => exact asciiText_hexEncode bytes

theorem JournalWorkerAuthentication.asciiText (authentication : JournalWorkerAuthentication) :
    AsciiText authentication.asStr := by
  cases authentication <;> decide +kernel

theorem share_readBack {jobId : Text} (hjob : AsciiText jobId)
    (hhash : AsciiText job.childHashDisplay) (hworker : AsciiText worker)
    (authentication : JournalWorkerAuthentication) (share : ValidatedNativeShare) (shareId : Hex32)
    (wcashBlock : Option Bytes) (timestamp : UInt64) :
    ReadBack (shareRecord job worker authentication jobId share shareId wcashBlock timestamp)
      (shareFields job worker authentication jobId share shareId wcashBlock timestamp) where
  writable := by
    have hname : AsciiText (if share.wcashCandidate.isSome || share.parentBlock.isSome
        then RecordKind.winnerOutbox.name else RecordKind.acceptedShare.name) := by
      split <;> decide +kernel
    simp only [shareRecord, forall_mem_cons]
    exact ⟨writable_version, hname, timestamp.toNat_lt, asciiText_hexEncode _, hworker,
      authentication.asciiText, hjob, asciiText_hexEncode _, asciiText_hexEncode _, trivial,
      trivial, hhash, writable_u32 job.childHeight.toNat_lt, writable_u32 job.parentHeight.toNat_lt,
      writable_jsonOption _, writable_jsonOption _, forall_mem_nil _⟩
  nodup := by simp [shareRecord]
  reads := by
    constructor <;> first
      | rfl
      | exact optional_uint timestamp.toNat_lt
      | exact optional_uint (UInt32.toNat_lt _)
      | exact optional_jsonOption _
  wcash h := by cases h
  zcash h := by cases h

/-- The line of `mark_status`, as it is read back. -/
def statusFields (winner : PendingWinner) (status : WinnerStatus) (timestamp : UInt64) :
    JournalRecord where
  version := journalVersion
  record := (RecordKind.status status.asRecord).name
  jobId := winner.jobId
  shareId := some (hexEncode winner.key.shareId.data)
  recordedAt := some timestamp.toNat
  wcashCandidate := none
  zcashCandidate := none
  chain := some (utf8 winner.key.chain.asStr)
  blockHash := some winner.blockHashDisplay
  height := some winner.height

theorem status_readBack {winner : PendingWinner} (hjob : AsciiText winner.jobId)
    (hhash : AsciiText winner.blockHashDisplay) (hheight : winner.height < 2 ^ 32)
    (status : WinnerStatus) (timestamp : UInt64) :
    ReadBack (statusRecord winner status timestamp) (statusFields winner status timestamp) where
  writable := by
    have hname : AsciiText (RecordKind.status status.asRecord).name := by
      cases status <;> decide +kernel
    have hchain : AsciiText (utf8 winner.key.chain.asStr) := by
      cases winner.key.chain <;> decide +kernel
    simp only [statusRecord, forall_mem_cons]
    exact ⟨writable_version, hname, timestamp.toNat_lt, asciiText_hexEncode _, hjob, hchain, hhash,
      writable_u32 hheight, forall_mem_nil _⟩
  nodup := by simp [statusRecord]
  reads := by
    constructor <;> first
      | rfl
      | exact optional_uint timestamp.toNat_lt
      | exact optional_uint hheight
  wcash h := by cases h
  zcash h := by cases h

/-! ## Lines -/

theorem parseJournalId_hexEncode (id : Hex32) (kind : String) :
    parseJournalId (hexEncode id.data) kind = .ok id := by
  have hlength : ¬ (hexEncode id.data).length ≠ 64 := by
    simp [id.length_data]
  unfold parseJournalId
  rw [rejectIf_bind hlength, hexDecode_hexEncode, okOr_bind,
    dif_pos id.length_data, rejectIf_of_not (not_not_intro rfl)]
  rfl

theorem parseCanonicalJournalHex_hexEncode (field : String) :
    parseCanonicalJournalHex (hexEncode hash.data) field = .ok hash := by
  unfold parseCanonicalJournalHex
  rw [parseRawHash_hexEncode, ok_bind, rejectIf_of_not (not_not_intro rfl)]
  rfl

/-- A line that both replays read as `r`. -/
structure IsLine (x : External) (text : Bytes) (r : JournalRecord) (jobId : Hex32) : Prop where
  line : lineFeed ∉ text
  record : readJournalRecord x text = .ok (r, jobId)
  persisted : readPersistedRecord x text = .ok (r.persisted, jobId)

/-- Both replays accept a line and move on. -/
structure Replayed (x : External) (a : Accounting) (b : OutboxReplay) (text : Bytes)
    (a' : Accounting) (b' : OutboxReplay) : Prop where
  line : lineFeed ∉ text
  accounting : a.applyLine x text = .ok a'
  outbox : b.applyLine x text = .ok b'

/-- The replay of `open` after it read a line. -/
def OutboxReplay.counted (b : OutboxReplay) (text : Bytes) : OutboxReplay :=
  { b with completeBytes := b.completeBytes + (text.length + 1) }

section

variable {x : External} {a : Accounting} {b : OutboxReplay} {jobId : Hex32} {status : WinnerStatus}
  {timestamp : UInt64}

theorem ReadBack.isLine (laws : Laws x) (h : ReadBack record r)
    (hversion : r.version = journalVersion) (hjob : r.jobId = hexEncode jobId.data)
    (htext : x.toVec record.keyed = .ok text) : IsLine x text r jobId := by
  obtain ⟨hline, hread, hpersisted⟩ := h.fromSlice laws htext
  refine ⟨hline, ?_, ?_⟩
  · unfold readJournalRecord
    rw [hread, mapErr_ok, ok_bind, rejectIf_bind (not_not_intro hversion),
      validateCanonicalHex_eq_ok.mpr hjob]
    rfl
  · have hversion' : r.persisted.version = journalVersion := hversion
    have hjob' : r.persisted.jobId = hexEncode jobId.data := hjob
    unfold readPersistedRecord parseJobId
    rw [hpersisted, mapErr_ok, ok_bind, rejectIf_bind (not_not_intro hversion'), hjob',
      parseJournalId_hexEncode]
    rfl

theorem IsLine.applyLine (h : IsLine x text r jobId)
    (hbytes : b.completeBytes + (text.length + 1) < 2 ^ 64) :
    b.applyLine x text = (b.counted text).applyRecord x r.persisted jobId := by
  unfold OutboxReplay.applyLine
  rw [checkedAdd_of_lt hbytes, h.persisted]
  rfl

/-! ### Activations -/

theorem activation_replayed (h : IsLine x text (activationFields job timestamp) jobId)
    (hagrees : Agrees a b) (hnew : jobId ∉ a.usedJobs)
    (hroom : a.usedJobs.card < maxJournalGenerations)
    (hhash : job.childHashDisplay = hexEncode hash.data) (hchild : job.childHeight ≠ 0)
    (hparent : job.parentHeight ≠ 0) (htime : timestamp ≠ 0)
    (hbytes : b.completeBytes + (text.length + 1) < 2 ^ 64) :
    Replayed x a b text { a with usedJobs := insert jobId a.usedJobs }
      { b.counted text with seenJobIds := insert jobId b.seenJobIds } := by
  have hjob : job.jobId = hexEncode jobId.data := (readJournalRecord_ok h.record).2.2
  have htime' : timestamp.toNat ≠ 0 := fun heq => htime (UInt64.toNat_inj.mp heq)
  have hchild' : job.childHeight.toNat ≠ 0 := fun heq => hchild (UInt32.toNat_inj.mp heq)
  have hparent' : job.parentHeight.toNat ≠ 0 := fun heq => hparent (UInt32.toNat_inj.mp heq)
  have hcapacity : ensureGenerationCapacity a.usedJobs.card false = .ok () :=
    rejectIf_of_not (by omega)
  have hheights :
      ¬ (noHeight (some job.childHeight.toNat) ∨ noHeight (some job.parentHeight.toNat)) := by
    simp [noHeight, hchild', hparent']
  refine ⟨h.line, ?_, ?_⟩
  · have hclean : ¬ activationMalformed (activationFields job timestamp) := by
      simp [activationMalformed, activationFields, htime']
    have hvalid : validateJobActivation (activationFields job timestamp) = .ok () := by
      unfold validateJobActivation
      rw [rejectIf_bind hclean]
      show (validateCanonicalHex 32 job.childHashDisplay _ >>= _) = _
      rw [validateCanonicalHex_eq_ok.mpr hhash]
      exact rejectIf_of_not hheights
    exact LineEffect.applyLine
      (.activated h.record (ofName_name .jobActivated) hvalid hnew hcapacity rfl)
  · have hclean : ¬ persistedActivationMalformed (activationFields job timestamp).persisted := by
      simp [persistedActivationMalformed, activationFields, JournalRecord.persisted,
        RecordFields.mapFlags, htime']
    have hvalid : validatePersistedJobActivation (activationFields job timestamp).persisted
        = .ok () := by
      unfold validatePersistedJobActivation parseJobId
      rw [show (activationFields job timestamp).persisted.jobId = _ from hjob,
        parseJournalId_hexEncode, rejectIf_bind hclean]
      show (parseCanonicalJournalHex job.childHashDisplay _ >>= _) = _
      rw [hhash, parseCanonicalJournalHex_hexEncode]
      exact rejectIf_of_not hheights
    have hnew' : jobId ∉ (b.counted text).seenJobIds := by
      rw [show (b.counted text).seenJobIds = a.usedJobs from hagrees.jobs]
      exact hnew
    have hinsert : insertSeenJobId (b.counted text).seenJobIds jobId
        = .ok (insert jobId b.seenJobIds) := by
      unfold insertSeenJobId
      rw [decide_eq_false hnew', show (b.counted text).seenJobIds = a.usedJobs from hagrees.jobs,
        hcapacity, hagrees.jobs]
      rfl
    have hactivate : (b.counted text).activateJob (activationFields job timestamp).persisted jobId
        = .ok { b.counted text with seenJobIds := insert jobId b.seenJobIds } := by
      unfold OutboxReplay.activateJob
      rw [hvalid, rejectIf_bind hnew', hinsert]
      rfl
    rw [h.applyLine hbytes]
    exact hactivate

/-! ### Statuses -/

/-- What holds of every pending winner. -/
structure StatusOk (status : PendingWinnerStatus) : Prop where
  jobId : ∃ jobId : Hex32, status.jobId = hexEncode jobId.data
  blockHash : ∃ hash : Hex32, status.blockHash = hexEncode hash.data
  height_pos : 0 < status.height
  height_lt : status.height < 2 ^ 32
  /-- A winner is not both observed and in quarantine. -/
  exclusive : status.observed = false ∨ status.conflictingWitness = false

theorem chainOfName_asStr (chain : WinnerChain) :
    chainOfName (some (utf8 chain.asStr)) = some chain := by
  cases chain <;> decide +kernel

theorem parse_asStr (chain : WinnerChain) : WinnerChain.parse (utf8 chain.asStr) = .ok chain := by
  cases chain <;> decide +kernel

/-- A status that `mark_status` writes is a transition of both replays. -/
theorem transition_of_changes {current : PendingWinner} (hok : StatusOk current.status)
    (hchanges : statusChanges current status = .ok true) :
    current.transition current.key.chain status.asRecord = .ok (current.withStatus status) ∧
      current.status.transition current.key.chain status.asRecord
        = .ok ((current.withStatus status).map PendingWinner.status) := by
  have hexclusive : current.observedOnBestChain = false ∨ current.conflictingWitness = false :=
    hok.exclusive
  cases status with
  | observed =>
    have hreject : ¬ current.observedOnBestChain = true := by
      have hchanges := Except.ok.inj hchanges
      intro hobserved
      simp_all
    exact ⟨rejectIf_bind hreject _, rejectIf_bind hreject _⟩
  | orphaned =>
    have hreject :
        ¬ (current.observedOnBestChain = false ∧ current.conflictingWitness = false) := by
      have hchanges := Except.ok.inj hchanges
      rintro ⟨hobserved, hconflicting⟩
      simp_all
    exact ⟨rejectIf_bind hreject _, rejectIf_bind hreject _⟩
  | conflicting =>
    obtain ⟨hchain, hchanges⟩ := of_rejectIf_bind hchanges
    have hreject : ¬ current.conflictingWitness = true := by
      have hchanges := Except.ok.inj hchanges
      simp_all
    exact ⟨(rejectIf_bind hchain _).trans (rejectIf_bind hreject _),
      (rejectIf_bind hchain _).trans (rejectIf_bind hreject _)⟩
  | matured =>
    obtain ⟨hready, _⟩ := of_rejectIf_bind hchanges
    exact ⟨rejectIf_bind hready _, rejectIf_bind hready _⟩

theorem status_replayed {winner current : PendingWinner}
    (h : IsLine x text (statusFields winner status timestamp) jobId) (hagrees : Agrees a b)
    (hcurrent : b.pendingWinners.lookup winner.key = some current) (hkey : current.key = winner.key)
    (hsame : sameWinner current winner) (hok : StatusOk current.status)
    (hchanges : statusChanges current status = .ok true) (htime : timestamp ≠ 0)
    (hbytes : b.completeBytes + (text.length + 1) < 2 ^ 64) :
    Replayed x a b text
      { a with
        pendingWinners := putBack a.pendingWinners winner.key
          ((current.withStatus status).map PendingWinner.status) }
      { b.counted text with
        pendingWinners := putBack b.pendingWinners winner.key (current.withStatus status) } := by
  obtain ⟨hjob, hhash, hheight, _⟩ := hsame
  have htime' : timestamp.toNat ≠ 0 := fun heq => htime (UInt64.toNat_inj.mp heq)
  obtain ⟨htransition, htransition'⟩ := transition_of_changes hok hchanges
  rw [hkey] at htransition htransition'
  have hentry : a.pendingWinners.lookup winner.key = some current.status := by
    rw [hagrees.outbox, hcurrent]
    rfl
  refine ⟨h.line, ?_, ?_⟩
  · have hchecked : StatusChecked (statusFields winner status timestamp) status.asRecord
        a.pendingWinners winner.key current.status
        ((current.withStatus status).map PendingWinner.status) := {
      clean := by simp [statusMalformed, statusFields, htime']
      jobIdHex := by
        obtain ⟨id, hid⟩ := hok.jobId
        exact ⟨id, hjob.symm.trans hid⟩
      shareId := rfl
      chain := chainOfName_asStr _
      entry := hentry
      jobId := hjob
      blockHash := congrArg some hhash.symm
      blockHashHex := hok.blockHash
      height := by
        have hpos : 0 < current.height := hok.height_pos
        show positive (some winner.height) = some current.height
        rw [← hheight]
        simp [positive, hpos]
      transition := htransition' }
    exact LineEffect.applyLine
      (.status h.record (ofName_name (.status status.asRecord)) hchecked.applyWinnerStatus rfl)
  · have hmatch : ¬ (current.jobId ≠ winner.jobId ∨
        eqIgnoreAsciiCase current.blockHashDisplay winner.blockHashDisplay = false ∨
        current.height ≠ winner.height) := by
      simp [hjob, hhash, hheight, eqIgnoreAsciiCase]
    have hcurrent' : (b.counted text).pendingWinners.lookup ⟨winner.key.shareId, winner.key.chain⟩
        = some current := hcurrent
    have hreplay : replayWinnerStatus (statusFields winner status timestamp).persisted
        status.asRecord (b.counted text).pendingWinners
        = .ok (putBack b.pendingWinners winner.key (current.withStatus status)) := by
      unfold replayWinnerStatus requiredShareId requiredRecordField parseShareId
      rw [show (statusFields winner status timestamp).persisted.shareId = some _ from rfl,
        okOr_bind, parseJournalId_hexEncode, ok_bind, show (statusFields winner status
        timestamp).persisted.chain = some _ from rfl, okOr_bind, parse_asStr, ok_bind, hcurrent']
      refine (rejectIf_bind hmatch _).trans ?_
      rw [htransition]
      rfl
    rw [h.applyLine hbytes]
    unfold OutboxReplay.applyRecord
    rw [show RecordKind.ofName (statusFields winner status timestamp).persisted.record = _ from
      ofName_name (.status status.asRecord)]
    show (replayWinnerStatus _ _ _ >>= _) = _
    rw [hreplay]
    rfl

/-! ### Shares -/

/-- What `activate_job` has checked of a job, apart from its id. -/
structure JobChecked (job : ActiveJournalJob) : Prop where
  blockHash : ∃ hash : Hex32, job.childHashDisplay = hexEncode hash.data
  childHeight : job.childHeight ≠ 0
  parentHeight : job.parentHeight ≠ 0

/-- What `record` has checked when it writes a share, and what is known of
the stored blocks. -/
structure ShareCall (x : External) (job : ActiveJournalJob) (worker : Text)
    (authentication : JournalWorkerAuthentication) (share : ValidatedNativeShare)
    (wcashBlock : Option Bytes) (timestamp : UInt64) : Prop extends checked : JobChecked job where
  worker : ¬ badWorkerName worker
  authentication : authentication ≠ .legacyUnknown
  timestamp : timestamp ≠ 0
  wcash : wcashBlock.isSome = share.wcashCandidate.isSome
  wcashBlock : ∀ block, wcashBlock = some block →
    x.validatePersistedWinnerBlock block job.childHashDisplay job.childHeight.toNat .wcash
      = .ok share.parentBlockHash
  zcashBlock : ∀ block, share.parentBlock = some block →
    x.validatePersistedWinnerBlock block (displayHash share.parentBlockHash)
      job.parentHeight.toNat .zcash = .ok share.parentBlockHash

variable {authentication : JournalWorkerAuthentication} {share : ValidatedNativeShare}
  {wcashBlock : Option Bytes} {timestamp : UInt64} {shareId : Hex32} {block : Bytes}
  {bound counter : Nat} {height : UInt32}

theorem positive_of_ne (h : height ≠ 0) : positive (some height.toNat) = some height.toNat := by
  simp [positive, pos_of_ne_zero fun heq => h (UInt32.toNat_inj.mp heq)]

/-- The share of the line, without the fingerprint of its blocks. -/
def lineShare (job : ActiveJournalJob) (worker : Text)
    (authentication : JournalWorkerAuthentication) (share : ValidatedNativeShare)
    (timestamp : UInt64) : ImmutableShare where
  acceptedAt := timestamp.toNat
  worker := worker
  authentication := authentication.asStr
  jobId := job.jobId
  parentHashLe := hexEncode share.parentBlockHash.data
  shareTarget := displayTarget share.acceptedTarget
  wcashBlockHash := job.childHashDisplay
  wcashHeight := job.childHeight.toNat
  zcashHeight := job.parentHeight.toNat
  wcashCandidate := share.wcashCandidate.isSome
  zcashCandidate := share.parentBlock.isSome
  winnerFingerprint := none

theorem validateAuthentication_asStr (h : authentication ≠ .legacyUnknown) :
    validateAuthentication (some authentication.asStr) = .ok authentication.asStr ∧
      authentication.asStr ≠ utf8 "legacy_unknown" := by
  cases authentication with
  | legacyUnknown => exact absurd rfl h
  | _ => decide +kernel

theorem checkCandidates_line :
    checkCandidates (if share.wcashCandidate.isSome || share.parentBlock.isSome
        then RecordKind.winnerOutbox.name else RecordKind.acceptedShare.name)
      share.wcashCandidate.isSome share.parentBlock.isSome = .ok () := by
  cases share.wcashCandidate.isSome <;> cases share.parentBlock.isSome <;> decide +kernel

/-- The line of the call. -/
abbrev ShareCall.fields
    (_ : ShareCall x job worker authentication share wcashBlock timestamp) (shareId : Hex32) :
    JournalRecord :=
  shareFields job worker authentication job.jobId share shareId wcashBlock timestamp

theorem ShareCall.shareChecked
    (h : ShareCall x job worker authentication share wcashBlock timestamp) :
    ShareChecked (h.fields shareId) (lineShare job worker authentication share timestamp) where
  acceptedAt := rfl
  acceptedAt_ne heq := h.timestamp (UInt64.toNat_inj.mp heq)
  recordedAt := rfl
  chain := rfl
  blockHash := rfl
  height := rfl
  worker := rfl
  authentication := (validateAuthentication_asStr h.authentication).1
  workerName := by
    have hlegacy := (validateAuthentication_asStr h.authentication).2
    exact (if_neg hlegacy).trans (rejectIf_of_not h.worker)
  jobId := rfl
  parentHashLe := rfl
  parentHash := ⟨share.parentBlockHash, rfl⟩
  shareTarget := rfl
  target := ⟨_, rfl, fun heq => share.acceptedTarget.nonzero (FixedBytes.reverse_injective heq)⟩
  wcashBlockHash := rfl
  blockHashHex := h.blockHash
  wcashHeight := positive_of_ne h.childHeight
  zcashHeight := positive_of_ne h.parentHeight
  wcashCandidate := rfl
  zcashCandidate := rfl
  candidates := checkCandidates_line
  winnerFingerprint := rfl

theorem validateShareId_line
    (hid : shareId = shareIdOf x job.jobId share.parentBlockHash) :
    validateShareId x
      (shareFields job worker authentication job.jobId share shareId wcashBlock timestamp)
      (lineShare job worker authentication share timestamp) = .ok shareId := by
  have hsame : ¬ shareId ≠ shareIdOf x (lineShare job worker authentication share timestamp).jobId
      share.parentBlockHash := not_not_intro hid
  show (validateCanonicalHex 32 (hexEncode shareId.data) _ >>= _) = _
  rw [validateCanonicalHex_eq_ok.mpr rfl]
  show (validateCanonicalHex 32 (hexEncode share.parentBlockHash.data) _ >>= _) = _
  rw [validateCanonicalHex_eq_ok.mpr rfl]
  exact rejectIf_bind hsame _

/-! ### Winner blocks -/

/-- One chain's block passes both replays. -/
theorem winner_replayed (laws : Laws x) (record : JournalRecord) {parentHash : Hex32}
    (key : WinnerKey) {blockHash : Text} (hheight : height ≠ 0)
    (hblock : x.validatePersistedWinnerBlock block blockHash height.toNat key.chain
      = .ok parentHash) :
    (∃ winner, validateWinnerBlock x record parentHash key blockHash (some height.toNat)
        (some (hexEncode block)) = .ok winner) ∧
      persistedWinner x record.persisted parentHash key blockHash (some height.toNat)
        (some (hexEncode block))
        = .ok { outboxEntry key.shareId key.chain record.jobId blockHash height.toNat block with
                key } := by
  have hlength := laws.blocks _ _ _ _ _ hblock
  -- The text of the block is within both limits.
  have hshort : ¬ maxWinnerBlockBytes * 2 < (hexEncode block).length := by
    rw [length_hexEncode]
    omega
  have heven : ¬ (maxWinnerBlockBytes * 2 < (hexEncode block).length ∨
      (hexEncode block).length % 2 ≠ 0) := by
    rw [length_hexEncode]
    omega
  constructor
  · apply Exists.intro
    unfold validateWinnerBlock requiredRecordField decodeBoundedBlock
    rw [positive_of_ne hheight, okOr_bind, okOr_bind, rejectIf_bind hshort, hexDecode_hexEncode,
      okOr_bind, rejectIf_bind (not_not_intro rfl), ok_bind, hblock, ok_bind,
      rejectIf_bind (not_not_intro rfl)]
  · unfold persistedWinner requiredRecordField decodeBoundedHex
    rw [okOr_bind, okOr_bind, rejectIf_bind heven, hexDecode_hexEncode, okOr_some, ok_bind, hblock,
      ok_bind, rejectIf_bind (not_not_intro rfl)]
    rfl

/-- A candidate with a block passes both replays if the block does. -/
theorem candidate_replayed {stored : Option Bytes} {chain : WinnerChain}
    {result : Result ValidatedWinner} {result' : Result PendingWinner}
    {entry : Bytes → PendingWinner}
    (hresult : ∀ block ∈ stored, (∃ winner, result = .ok winner) ∧ result' = .ok (entry block)) :
    (∃ winner, validateCandidate (some stored.isSome) (stored.map hexEncode) chain result
        = .ok winner) ∧ persistedCandidate stored.isSome result' = .ok (stored.map entry) := by
  cases stored with
  | none => exact ⟨⟨none, rfl⟩, rfl⟩
  | some block =>
    obtain ⟨⟨winner, rfl⟩, rfl⟩ := hresult block rfl
    exact ⟨⟨some winner, rfl⟩, rfl⟩

section

variable (laws : Laws x) (h : ShareCall x job worker authentication share wcashBlock timestamp)

section

include laws

theorem wcashWinner_replayed (shareId : Hex32) :
    (∃ winner, validateWcashWinner x (h.fields shareId) share.parentBlockHash shareId
        = .ok winner) ∧
      persistedWcashWinner x (h.fields shareId).persisted share.parentBlockHash shareId
        = .ok (wcashBlock.map fun block =>
            outboxEntry shareId .wcash job.jobId job.childHashDisplay job.childHeight.toNat
              block) := by
  obtain ⟨hash, hhash⟩ := h.blockHash
  unfold validateWcashWinner persistedWcashWinner
  rw [show (h.fields shareId).wcashCandidate = some wcashBlock.isSome from
    congrArg some h.wcash.symm,
    show (h.fields shareId).persisted.wcashCandidate = wcashBlock.isSome from h.wcash.symm]
  refine candidate_replayed fun block hblock => ?_
  have hfield : (h.fields shareId).wcashBlock = some (hexEncode block) :=
    congrArg (Option.map hexEncode) hblock
  obtain ⟨⟨winner, hwinner⟩, hpersisted⟩ := winner_replayed laws (h.fields shareId)
    ⟨shareId, .wcash⟩ h.childHeight (h.wcashBlock block hblock)
  rw [hfield, show (h.fields shareId).persisted.wcashBlock = _ from hfield]
  constructor
  · refine ⟨winner, ?_⟩
    show (validateCanonicalHex 32 job.childHashDisplay _ >>= _) = _
    rw [validateCanonicalHex_eq_ok.mpr hhash]
    exact hwinner
  · show (parseDisplayHash job.childHashDisplay _ >>= _) = _
    unfold parseDisplayHash
    rw [hhash, parseRawHash_hexEncode, ← hhash]
    exact hpersisted

theorem zcashWinner_replayed (shareId : Hex32) :
    (∃ winner, validateZcashWinner x (h.fields shareId) share.parentBlockHash shareId
        = .ok winner) ∧
      persistedZcashWinner x (h.fields shareId).persisted share.parentBlockHash shareId
        = .ok (share.parentBlock.map fun block =>
            outboxEntry shareId .zcash job.jobId (displayHash share.parentBlockHash)
              job.parentHeight.toNat block) := by
  refine candidate_replayed fun block hblock => ?_
  have hfield : (h.fields shareId).zcashBlock = some (hexEncode block) :=
    congrArg (Option.map hexEncode) hblock
  rw [hfield, show (h.fields shareId).persisted.zcashBlock = _ from hfield]
  exact winner_replayed laws (h.fields shareId) ⟨shareId, .zcash⟩ h.parentHeight
    (h.zcashBlock block hblock)

end

/-- The share is a winner of one of the chains. -/
def ValidatedNativeShare.isWinner (share : ValidatedNativeShare) : Bool :=
  share.wcashCandidate.isSome || share.parentBlock.isSome

include h

/-- A winner has an outbox entry. -/
theorem ShareCall.entries_pos (hwinner : share.isWinner = true) (shareId : Hex32) :
    0 < (outboxEntries job job.jobId share shareId wcashBlock).length := by
  unfold ValidatedNativeShare.isWinner at hwinner
  rw [← h.wcash] at hwinner
  unfold outboxEntries
  cases wcashBlock with
  | some block => simp
  | none =>
    cases hparent : share.parentBlock with
    | some block => simp
    | none => simp [hparent] at hwinner

theorem ShareCall.record_winner (hwinner : share.isWinner = true) (shareId : Hex32) :
    (h.fields shareId).record = RecordKind.winnerOutbox.name :=
  if_pos hwinner

theorem ShareCall.record_plain (hwinner : share.isWinner = false) (shareId : Hex32) :
    (h.fields shareId).record = RecordKind.acceptedShare.name :=
  if_neg (by simpa [ValidatedNativeShare.isWinner] using hwinner)

theorem ShareCall.record_ne_accepted (hwinner : share.isWinner = true) :
    (h.fields shareId).record ≠ RecordKind.acceptedShare.name := by
  rw [h.record_winner hwinner]
  decide +kernel

include laws

/-- Both replays find the outbox entries that `record` inserts. -/
theorem winners_replayed (hwinner : share.isWinner = true) (shareId : Hex32) :
    (∃ winners fingerprint, validateWinnerBlocks x (h.fields shareId) shareId
        = .ok (winners, fingerprint)) ∧
      persistedWinners x (h.fields shareId).persisted shareId
        = .ok (outboxEntries job job.jobId share shareId wcashBlock) := by
  obtain ⟨⟨wcash, hwcash⟩, hwcash'⟩ := wcashWinner_replayed laws h shareId
  obtain ⟨⟨zcash, hzcash⟩, hzcash'⟩ := zcashWinner_replayed laws h shareId
  constructor
  swap
  · show (parseRawHash (hexEncode share.parentBlockHash.data) _ >>= _) = _
    rw [parseRawHash_hexEncode, ok_bind, hwcash', hzcash']
    rfl
  -- The accounting replay finds as many winners as the coordinator.
  have hsame : SameOption wcash _ := wcashWinner_agree hwcash hwcash'
  have hsame' : SameOption zcash _ := zcashWinner_agree hzcash hzcash'
  have hnonempty : ¬ (wcash.toList ++ zcash.toList).isEmpty = true := by
    intro hempty
    have hlength : (wcash.toList ++ zcash.toList).length
        = (outboxEntries job job.jobId share shareId wcashBlock).length :=
      (rel_append hsame.toList hsame'.toList).length_eq
    rw [List.isEmpty_iff.mp hempty] at hlength
    exact absurd hlength.symm (ne_of_gt (h.entries_pos hwinner shareId))
  refine ⟨wcash.toList ++ zcash.toList, some (x.sha256
    (utf8 "Wcash/share-journal/winner-record/v1\x00" ++
      (wcash.toList ++ zcash.toList).flatMap ValidatedWinner.fingerprint)), ?_⟩
  unfold validateWinnerBlocks
  rw [if_neg (h.record_ne_accepted hwinner)]
  show (validateCanonicalHex 32 (hexEncode share.parentBlockHash.data) _ >>= _) = _
  rw [validateCanonicalHex_eq_ok.mpr rfl, ok_bind, hwcash, hzcash]
  exact rejectIf_bind hnonempty _

/-- The share on the line, as the accounting replay reads it. -/
theorem share_line (hid : shareId = shareIdOf x job.jobId share.parentBlockHash) :
    ∃ line, readShareLine x (h.fields shareId) = .ok line ∧ line.shareId = shareId ∧
      line.immutable.jobId = job.jobId ∧ ∃ fingerprint,
        validateWinnerBlocks x (h.fields shareId) shareId = .ok (line.winners, fingerprint) := by
  have hread : ∃ winners fingerprint,
      validateWinnerBlocks x (h.fields shareId) shareId = .ok (winners, fingerprint) := by
    cases hwinner : share.isWinner with
    | true => exact (winners_replayed laws h hwinner shareId).1
    | false =>
      have hnone : ¬ ((wcashBlock.map hexEncode).isSome = true ∨
          (share.parentBlock.map hexEncode).isSome = true) := by
        simp only [ValidatedNativeShare.isWinner, ← h.wcash, Bool.or_eq_false_iff] at hwinner
        simp [hwinner]
      refine ⟨[], none, ?_⟩
      unfold validateWinnerBlocks
      rw [if_pos (h.record_plain hwinner shareId)]
      exact rejectIf_bind hnone _
  obtain ⟨winners, fingerprint, hwinners⟩ := hread
  refine ⟨{ shareId, winners
            immutable := { lineShare job worker authentication share timestamp with
                           winnerFingerprint := fingerprint } }, ?_, rfl, rfl, fingerprint,
    hwinners⟩
  unfold readShareLine
  rw [(h.shareChecked).immutableShare, ok_bind, validateShareId_line hid, ok_bind, hwinners]
  rfl

end

/-! ### Counters -/

theorem increment_of_lt (hle : counter ≤ bound) (hbound : bound + 1 < 2 ^ 64) (label : String) :
    ∃ count, increment counter label = .ok count := by
  refine ⟨counter + 1, ?_⟩
  unfold increment
  rw [checkedAdd_of_lt (by omega)]
  rfl

theorem incrementBucket_of_lt {buckets : HashMap Text Nat} (hle : sumValues id buckets ≤ bound)
    (hbound : bound + 1 < 2 ^ 64) (key : Text) (label : String) :
    ∃ buckets', incrementBucket buckets key label = .ok buckets' := by
  have hvalue := le_trans (valueAt_le_sumValues id key) hle
  obtain ⟨count, hcount⟩ := increment_of_lt hvalue hbound label
  refine ⟨buckets.insert key count, ?_⟩
  unfold incrementBucket
  rw [hcount]
  rfl

theorem incrementIf_of_lt {flag : Bool} (hle : counter ≤ bound) (hbound : bound + 1 < 2 ^ 64)
    (label : String) : ∃ count, incrementIf flag counter label = .ok count := by
  cases flag with
  | true => exact increment_of_lt hle hbound label
  | false => exact ⟨counter, rfl⟩

/-- A quantity of one worker is at most its sum over the workers. -/
theorem worker_le_sum (snapshot : AccountingSnapshot) (f : WorkerAccounting → Nat)
    (hzero : f {} = 0)
    (name : Text) : f (snapshot.worker name) ≤ sumValues f snapshot.workers := by
  refine le_trans (le_of_eq ?_) (valueAt_le_sumValues f name)
  unfold AccountingSnapshot.worker valueAt
  cases snapshot.workers.lookup name with
  | none => exact hzero
  | some w => rfl

/-- No counter overflows while the total does not. -/
theorem Balanced.applyShare {accepted : HashMap Hex32 ImmutableShare}
    {snapshot : AccountingSnapshot} (h : Balanced accepted snapshot)
    (hbound : accepted.entries.length + 1 < 2 ^ 64) (share : ImmutableShare) :
    ∃ snapshot', applyShare snapshot share = .ok snapshot' := by
  have htotal : snapshot.acceptedShares = accepted.entries.length := by
    rw [h.total, sumValues_one]
  have hflags : ∀ flag : ImmutableShare → Bool,
      sumValues (fun share => (flag share).toNat) accepted ≤ accepted.entries.length := by
    intro flag
    rw [← sumValues_one]
    exact sumValues_mono (fun share => Bool.toNat_le _)
  -- Every counter of the worker is at most the sum of that counter.
  have hworkers := worker_le_sum snapshot WorkerAccounting.acceptedShares rfl share.worker
  have hbuckets := worker_le_sum snapshot (fun w => sumValues id w.sharesByAuthentication) rfl
    share.worker
  have htargets := worker_le_sum snapshot (fun w => sumValues id w.sharesByTarget) rfl share.worker
  have hwcash := worker_le_sum snapshot WorkerAccounting.wcashWinners rfl share.worker
  have hzcash := worker_le_sum snapshot WorkerAccounting.zcashWinners rfl share.worker
  rw [h.workers, htotal] at hworkers
  rw [h.workersByAuthentication, htotal] at hbuckets
  rw [h.workersByTarget, htotal] at htargets
  rw [h.wcashWinners] at hwcash
  rw [h.zcashWinners] at hzcash
  have hauthentication := le_of_eq (h.sharesByAuthentication.trans htotal)
  unfold ShareJournal.applyShare
  refine exists_bind_ok (increment_of_lt (le_of_eq htotal) hbound _) fun _ => ?_
  refine exists_bind_ok (incrementBucket_of_lt hauthentication hbound _ _) fun _ => ?_
  refine exists_bind_ok ?_ fun _ => ⟨_, rfl⟩
  refine exists_bind_ok (increment_of_lt hworkers hbound _) fun _ => ?_
  refine exists_bind_ok (incrementBucket_of_lt hbuckets hbound _ _) fun _ => ?_
  refine exists_bind_ok (incrementIf_of_lt (le_trans hwcash (hflags _)) hbound _) fun _ => ?_
  refine exists_bind_ok (incrementIf_of_lt (le_trans hzcash (hflags _)) hbound _) fun _ => ?_
  exact exists_bind_ok (incrementBucket_of_lt htargets hbound _ _) fun _ => ⟨_, rfl⟩

/-! ### The outbox -/

/-- The keys that are still to be inserted stay new. -/
theorem new_after_insert {α V : Type} {key : α → WinnerKey} {first : α} {rest : List α}
    {map : HashMap WinnerKey V} (hfirst : key first ∉ rest.map key)
    (hnew : ∀ winner ∈ first :: rest, map.lookup (key winner) = none) (value : V) :
    ∀ winner ∈ rest, (map.insert (key first) value).lookup (key winner) = none := by
  intro winner hwinner
  have hne : key winner ≠ key first := by
    intro heq
    exact hfirst (heq ▸ mem_map_of_mem hwinner)
  rw [AList.lookup_insert_ne hne]
  exact hnew winner (mem_cons_of_mem _ hwinner)

theorem insertWinners_of_new {winners : List ValidatedWinner}
    {map : HashMap WinnerKey PendingWinnerStatus} (hnodup : (winners.map ValidatedWinner.key).Nodup)
    (hnew : ∀ winner ∈ winners, map.lookup winner.key = none) :
    ∃ map', insertWinners map winners = .ok map' := by
  unfold insertWinners
  induction winners generalizing map with
  | nil => exact ⟨map, rfl⟩
  | cons winner rest ih =>
    rw [map_cons, nodup_cons] at hnodup
    have hfirst := hnew winner mem_cons_self
    have hnone : ¬ (map.lookup winner.key).isSome = true := by simp [hfirst]
    rw [foldlM_cons, rejectIf_bind hnone]
    exact ih hnodup.2 (new_after_insert hnodup.1 hnew _)

theorem insertPendingWinners_of_new {winners : List PendingWinner}
    {map : HashMap WinnerKey PendingWinner} (hnodup : (winners.map PendingWinner.key).Nodup)
    (hnew : ∀ winner ∈ winners, map.lookup winner.key = none)
    (hroom : map.entries.length + winners.length ≤ maxPendingWinners) :
    insertPendingWinners map winners
      = .ok (winners.foldl (fun map entry => map.insert entry.key entry) map) := by
  unfold insertPendingWinners
  induction winners generalizing map with
  | nil => rfl
  | cons winner rest ih =>
    rw [map_cons, nodup_cons] at hnodup
    rw [length_cons] at hroom
    have hfirst := hnew winner mem_cons_self
    have hlength := length_entries_insert hfirst winner
    have hfits : ¬ maxPendingWinners < (map.insert winner.key winner).entries.length := by omega
    rw [foldlM_cons, hfirst]
    rw [rejectIf_bind hfits]
    exact ih hnodup.2 (new_after_insert hnodup.1 hnew _) (by omega)

theorem outboxEntries_key :
    ((outboxEntries job job.jobId share shareId wcashBlock).map PendingWinner.key).Nodup ∧
      ∀ entry ∈ outboxEntries job job.jobId share shareId wcashBlock,
        entry.key.shareId = shareId := by
  unfold outboxEntries
  cases wcashBlock with
  | none => cases share.parentBlock <;> simp [outboxEntry]
  | some block => cases share.parentBlock <;> simp [outboxEntry]

/-- The outbox after `record`. -/
def outboxAfter (map : HashMap WinnerKey PendingWinner) (job : ActiveJournalJob)
    (share : ValidatedNativeShare) (shareId : Hex32) (wcashBlock : Option Bytes) :
    HashMap WinnerKey PendingWinner :=
  if share.isWinner then
    (outboxEntries job job.jobId share shareId wcashBlock).foldl
      (fun map entry => map.insert entry.key entry) map
  else map

/-- The entries of a share that is new are new to the outbox. -/
theorem Agrees.entries_new (hagrees : Agrees a b) (hnew : a.accepted.lookup shareId = none)
    (hpending : ∀ key status, a.pendingWinners.lookup key = some status →
      ∃ share, a.accepted.lookup key.shareId = some share) {key : WinnerKey}
    (hkey : key.shareId = shareId) :
    a.pendingWinners.lookup key = none ∧ b.pendingWinners.lookup key = none := by
  have hnone : a.pendingWinners.lookup key = none := by
    cases hlookup : a.pendingWinners.lookup key with
    | none => rfl
    | some status =>
      obtain ⟨old, hold⟩ := hpending key status hlookup
      rw [hkey, hnew] at hold
      cases hold
  refine ⟨hnone, ?_⟩
  rw [hagrees.outbox key] at hnone
  exact Option.map_eq_none_iff.mp hnone

section

variable (laws : Laws x) (h : ShareCall x job worker authentication share wcashBlock timestamp)
  (hline : IsLine x text (h.fields shareId) jobId) (hagrees : Agrees a b)
  (hjob : jobId ∈ a.usedJobs)
  (hnew : a.accepted.lookup shareId = none)
  (hcount : a.accepted.entries.length < maxAccountingShares)
  (hroom : share.isWinner = true → b.pendingWinners.entries.length +
    (outboxEntries job job.jobId share shareId wcashBlock).length ≤ maxPendingWinners)
  (hbytes : b.completeBytes + (text.length + 1) < 2 ^ 64)

include laws h hline hagrees hjob hnew hcount hroom hbytes

/-- The coordinator's turn for a share. -/
theorem share_outbox
    (hpending : ∀ key status, a.pendingWinners.lookup key = some status →
      ∃ share, a.accepted.lookup key.shareId = some share) :
    ∃ b', b.applyLine x text = .ok b' ∧ b'.seenJobIds = b.seenJobIds ∧
      b'.pendingWinners = outboxAfter b.pendingWinners job share shareId wcashBlock := by
  have hmem : jobId ∈ b.seenJobIds := by
    rw [hagrees.jobs]
    exact hjob
  have hinsert : insertSeenJobId (b.counted text).seenJobIds jobId = .ok b.seenJobIds := by
    unfold insertSeenJobId
    rw [show (b.counted text).seenJobIds = b.seenJobIds from rfl, decide_eq_true hmem,
      Finset.insert_eq_of_mem hmem]
    rfl
  have hid : requiredShareId (h.fields shareId).persisted = .ok shareId :=
    parseJournalId_hexEncode shareId "share"
  rw [hline.applyLine hbytes]
  unfold OutboxReplay.applyRecord outboxAfter
  cases hwinner : share.isWinner with
  | false =>
    rw [show (h.fields shareId).persisted.record = _ from h.record_plain hwinner shareId]
    refine ⟨{ b.counted text with seenJobIds := b.seenJobIds }, ?_, rfl, rfl⟩
    rw [hid, hinsert]
    rfl
  | true =>
    have hpersisted := (winners_replayed laws h hwinner shareId).2
    obtain ⟨hnodup, hkeys⟩ := outboxEntries_key
    -- The coordinator does not know the share, and has room for it.
    have hunknown : (b.counted text).replayedWinnerIdentities.lookup shareId = none := by
      cases hlookup : b.replayedWinnerIdentities.lookup shareId with
      | none => exact hlookup
      | some identity =>
        obtain ⟨old, hold, _⟩ := (hagrees.winners shareId).mp ⟨identity, hlookup⟩
        rw [hnew] at hold
        cases hold
    have hknown : b.replayedWinnerIdentities.entries.length ≤ a.accepted.entries.length := by
      refine length_entries_le ?_
      intro other identity hidentity
      obtain ⟨old, hold, _⟩ := (hagrees.winners other).mp ⟨identity, hidentity⟩
      exact ⟨old, hold⟩
    have hfits : ∀ identity, ¬ maxReplayedWinnerShares <
        ((b.counted text).replayedWinnerIdentities.insert shareId identity).entries.length := by
      intro identity
      rw [length_entries_insert hunknown]
      have hsame : (b.counted text).replayedWinnerIdentities.entries.length
          = b.replayedWinnerIdentities.entries.length := rfl
      unfold maxAccountingShares at hcount
      unfold maxReplayedWinnerShares
      omega
    have hnonempty : ¬ (outboxEntries job job.jobId share shareId wcashBlock).isEmpty = true := by
      have hpos := h.entries_pos hwinner shareId
      intro hempty
      rw [List.isEmpty_iff.mp hempty] at hpos
      exact absurd hpos (lt_irrefl 0)
    have hinserted := insertPendingWinners_of_new hnodup
      (fun entry hentry => (hagrees.entries_new hnew hpending (hkeys entry hentry)).2)
      (hroom hwinner)
    rw [show (h.fields shareId).persisted.record = _ from h.record_winner hwinner shareId]
    refine ⟨{ b.counted text with
      seenJobIds := b.seenJobIds
      replayedWinnerIdentities := (b.counted text).replayedWinnerIdentities.insert shareId
        (persistedJournalRecordFingerprint x (h.fields shareId).persisted)
      pendingWinners := (outboxEntries job job.jobId share shareId wcashBlock).foldl
        (fun map entry => map.insert entry.key entry) b.pendingWinners }, ?_, rfl, rfl⟩
    · show (b.counted text).replayWinner x _ jobId = _
      unfold OutboxReplay.replayWinner
      rw [hid, ok_bind, hinsert, ok_bind]
      rw [hunknown]
      dsimp only
      rw [rejectIf_bind (hfits _), hpersisted, ok_bind, rejectIf_bind hnonempty]
      show (insertPendingWinners b.pendingWinners _ >>= _) = _
      rw [hinserted]
      rfl

/-- Both turns for a share that is new. -/
theorem share_replayed {lines : List Bytes}
    (hid : shareId = shareIdOf x job.jobId share.parentBlockHash)
    (hconserved : Conserved x lines a) :
    ∃ a' b' immutable, Replayed x a b text a' b' ∧
      a'.accepted = a.accepted.insert shareId immutable ∧ immutable.jobId = job.jobId ∧
      b'.seenJobIds = b.seenJobIds ∧
      b'.pendingWinners = outboxAfter b.pendingWinners job share shareId wcashBlock := by
  obtain ⟨b', hb', hseen, hpendingWinners⟩ :=
    share_outbox laws h hline hagrees hjob hnew hcount hroom hbytes hconserved.pending
  obtain ⟨line, hread, rfl, hjobId, fingerprint, hwinners⟩ := share_line laws h hid
  have hkind : RecordKind.ofName (h.fields line.shareId).record = some .acceptedShare ∨
      RecordKind.ofName (h.fields line.shareId).record = some .winnerOutbox := by
    unfold ShareCall.fields shareFields
    dsimp only
    split
    · exact .inr (ofName_name _)
    · exact .inl (ofName_name _)
  have hholds : HoldsShare x text jobId line := ⟨_, hline.record, hkind, hread⟩
  have hcapacity : ensureGenerationCapacity a.usedJobs.card (decide (jobId ∈ a.usedJobs))
      = .ok () := by
    rw [decide_eq_true hjob]
    exact rejectIf_of_not (by simp)
  have hbound : a.accepted.entries.length + 1 < 2 ^ 64 := by
    unfold maxAccountingShares at hcount
    omega
  obtain ⟨snapshot, hsnapshot⟩ := hconserved.balanced.applyShare hbound line.immutable
  have hnodup : (line.winners.map ValidatedWinner.key).Nodup := by
    cases hwinner : share.isWinner with
    | false =>
      rw [((shareLine_kind hread).1 (h.record_plain hwinner _)).2]
      exact nodup_nil
    | true =>
      have hsame := winners_agree (h.record_ne_accepted hwinner) hwinners
        (winners_replayed laws h hwinner line.shareId).2
      have hkeys : line.winners.map ValidatedWinner.key
          = (outboxEntries job job.jobId share line.shareId wcashBlock).map PendingWinner.key := by
        rw [← forall₂_eq_eq_eq, forall₂_map_left_iff, forall₂_map_right_iff]
        exact hsame.imp fun _ _ hentry => hentry.1
      rw [hkeys]
      exact (outboxEntries_key).1
  obtain ⟨pendingWinners, hinsert⟩ := insertWinners_of_new hnodup fun winner hwinner =>
    (hagrees.entries_new hnew hconserved.pending (hholds.winners_key winner hwinner)).1
  have heffect := LineEffect.accepted hholds hcapacity hnew hcount hsnapshot hinsert rfl
  exact ⟨_, b', line.immutable, ⟨hline.line, heffect.applyLine, hb'⟩, rfl, hjobId, hseen,
    hpendingWinners⟩

end

end

end Wolf.ShareJournal
