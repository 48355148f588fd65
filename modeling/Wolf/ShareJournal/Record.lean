import Wolf.Framework.Exec
import Wolf.Framework.Hex
import Wolf.Framework.Json

/-! # The share journal: records

The coordinator's share journal is a file of JSON lines. Two parsers
read it: the accounting report deserializes a line into a
`JournalRecord`, the coordinator into a `PersistedShareKey`. The two
structs differ in the order of their fields and in the type of the two
candidate flags. -/

namespace Wolf.ShareJournal

open Option

/-! ## Errors and the outside world -/

abbrev Hex32 : Type := FixedBytes 32

/-- A `String`, in UTF-8. -/
abbrev Text : Type := Bytes

/-- The errors of these modules. `quoted` is the value that a message
quotes at its end. -/
inductive MinerError where
  | invalidRequest (message : String) (quoted : Text := [])
  | invalidHexField (field reason : String)
  | staleNativeJob (jobId : Text)
  | childHeaderMismatch
  | invalidParentTemplate (message : String)
  | json (source : String)
  | io (source : String)
  | auxPow (source : String)
  deriving DecidableEq

abbrev Result (α : Type) : Type := Except MinerError α

def invalid (message : String) : MinerError := .invalidRequest message

inductive WinnerChain where
  | wcash
  | zcash
  deriving DecidableEq

def WinnerChain.asStr : WinnerChain → String
  | .wcash => "wcash"
  | .zcash => "zcash"

/-- The name of the chain in messages. -/
def WinnerChain.title : WinnerChain → String
  | .wcash => "Wcash"
  | .zcash => "Zcash"

structure WinnerKey where
  shareId : Hex32
  chain : WinnerChain
  deriving DecidableEq

/-- Code outside this development: SHA-256, `serde_json`, and the block
codecs behind `validate_persisted_winner_block` and
`complete_wcash_candidate`. -/
structure External where
  sha256 : Bytes → Hex32
  parseJson : Bytes → Except String Json
  toVec : List (Bytes × Json) → Except String Bytes
  validatePersistedWinnerBlock : Bytes → Text → Nat → WinnerChain → Result Hex32
  /-- The block of a candidate with its proof: its hash, and its bytes. -/
  assembleWcashBlock : (candidate proof : Bytes) → Result (Hex32 × Result Bytes)

/-! ## Fields -/

/-- The fields of a journal line. -/
inductive Field where
  | version | record | jobId | shareId | acceptedAt | recordedAt | worker | workerAuthentication
  | shareTarget | parentHashLe | wcashCandidate | zcashCandidate | wcashBlockHash | wcashHeight
  | zcashHeight | wcashBlock | zcashBlock | chain | blockHash | height
  deriving DecidableEq

def Field.key : Field → Bytes
  | .version => utf8 "version"
  | .record => utf8 "record"
  | .jobId => utf8 "job_id"
  | .shareId => utf8 "share_id"
  | .acceptedAt => utf8 "accepted_at"
  | .recordedAt => utf8 "recorded_at"
  | .worker => utf8 "worker"
  | .workerAuthentication => utf8 "worker_authentication"
  | .shareTarget => utf8 "share_target"
  | .parentHashLe => utf8 "parent_hash_le"
  | .wcashCandidate => utf8 "wcash_candidate"
  | .zcashCandidate => utf8 "zcash_candidate"
  | .wcashBlockHash => utf8 "wcash_block_hash"
  | .wcashHeight => utf8 "wcash_height"
  | .zcashHeight => utf8 "zcash_height"
  | .wcashBlock => utf8 "wcash_block"
  | .zcashBlock => utf8 "zcash_block"
  | .chain => utf8 "chain"
  | .blockHash => utf8 "block_hash"
  | .height => utf8 "height"

/-- The fields in the order of `JournalRecord`. -/
def journalRecordOrder : List Field :=
  [.version, .record, .jobId, .shareId, .acceptedAt, .recordedAt, .worker, .workerAuthentication,
    .shareTarget, .parentHashLe, .wcashCandidate, .zcashCandidate, .wcashBlockHash, .wcashHeight,
    .zcashHeight, .wcashBlock, .zcashBlock, .chain, .blockHash, .height]

/-- The fields in the order of `PersistedShareKey`. -/
def persistedShareKeyOrder : List Field :=
  [.version, .record, .jobId, .shareId, .acceptedAt, .recordedAt, .worker, .workerAuthentication,
    .wcashCandidate, .zcashCandidate, .parentHashLe, .shareTarget, .wcashBlockHash, .wcashHeight,
    .zcashHeight, .wcashBlock, .zcashBlock, .chain, .blockHash, .height]

theorem Field.mem_journalRecordOrder (field : Field) : field ∈ journalRecordOrder := by
  cases field <;> decide

theorem Field.mem_persistedShareKeyOrder (field : Field) : field ∈ persistedShareKeyOrder := by
  cases field <;> decide

theorem Field.key_injective : Function.Injective Field.key := by
  have hall : (journalRecordOrder.map Field.key).Nodup := by decide
  intro a b h
  exact List.inj_on_of_nodup_map hall a.mem_journalRecordOrder b.mem_journalRecordOrder h

/-- A line as a struct. The candidate flags are of type `Flag`; what a line leaves out is
`none`. -/
structure RecordFields (Flag : Type) where
  version : Nat
  record : Text
  jobId : Text
  shareId : Option Text := none
  acceptedAt : Option Nat := none
  recordedAt : Option Nat := none
  worker : Option Text := none
  workerAuthentication : Option Text := none
  shareTarget : Option Text := none
  parentHashLe : Option Text := none
  wcashCandidate : Flag
  zcashCandidate : Flag
  wcashBlockHash : Option Text := none
  wcashHeight : Option Nat := none
  zcashHeight : Option Nat := none
  wcashBlock : Option Text := none
  zcashBlock : Option Text := none
  chain : Option Text := none
  blockHash : Option Text := none
  height : Option Nat := none

/-- `JournalRecord` of the accounting report. -/
abbrev JournalRecord : Type := RecordFields (Option Bool)

/-- `PersistedShareKey` of the coordinator. -/
abbrev PersistedShareKey : Type := RecordFields Bool

/-- The derived `Deserialize`, given the fields that were found. -/
def RecordFields.read {Flag : Type} (readFlag : Option Json → Option Flag)
    (get : Field → Option Json) : Option (RecordFields Flag) := do
  let version ← (get .version).bind (Json.asUint 8)
  let record ← (get .record).bind Json.asString
  let jobId ← (get .jobId).bind Json.asString
  let shareId ← Json.optional Json.asString (get .shareId)
  let acceptedAt ← Json.optional (Json.asUint 64) (get .acceptedAt)
  let recordedAt ← Json.optional (Json.asUint 64) (get .recordedAt)
  let worker ← Json.optional Json.asString (get .worker)
  let workerAuthentication ← Json.optional Json.asString (get .workerAuthentication)
  let shareTarget ← Json.optional Json.asString (get .shareTarget)
  let parentHashLe ← Json.optional Json.asString (get .parentHashLe)
  let wcashCandidate ← readFlag (get .wcashCandidate)
  let zcashCandidate ← readFlag (get .zcashCandidate)
  let wcashBlockHash ← Json.optional Json.asString (get .wcashBlockHash)
  let wcashHeight ← Json.optional (Json.asUint 32) (get .wcashHeight)
  let zcashHeight ← Json.optional (Json.asUint 32) (get .zcashHeight)
  let wcashBlock ← Json.optional Json.asString (get .wcashBlock)
  let zcashBlock ← Json.optional Json.asString (get .zcashBlock)
  let chain ← Json.optional Json.asString (get .chain)
  let blockHash ← Json.optional Json.asString (get .blockHash)
  let height ← Json.optional (Json.asUint 32) (get .height)
  some { version, record, jobId, shareId, acceptedAt, recordedAt, worker, workerAuthentication,
         shareTarget, parentHashLe, wcashCandidate, zcashCandidate, wcashBlockHash, wcashHeight,
         zcashHeight, wcashBlock, zcashBlock, chain, blockHash, height }

def JournalRecord.ofJson (json : Json) : Option JournalRecord := do
  let get ← Json.structFields (journalRecordOrder.map Field.key) json
  RecordFields.read (Json.optional Json.asBool) fun field => get field.key

def PersistedShareKey.ofJson (json : Json) : Option PersistedShareKey := do
  let get ← Json.structFields (persistedShareKeyOrder.map Field.key) json
  RecordFields.read Json.defaultFalse fun field => get field.key

section

variable (x : External)

/-- `serde_json::from_slice` into a struct. -/
def fromSlice {α : Type} (ofJson : Json → Option α) (line : Bytes) : Except String α := do
  let json ← x.parseJson line
  okOr (ofJson json) "data does not match the struct"

/-- The error that both replays give for a line that is no record. -/
def corrupted (source : String) : MinerError :=
  invalid ("share journal is corrupted: " ++ source)

end

/-! ## Kinds of records -/

inductive StatusRecord where
  | observed
  | orphaned
  | conflicting
  | matured
  | confirmed
  deriving DecidableEq

inductive RecordKind where
  | jobActivated
  | acceptedShare
  | winnerOutbox
  | status (status : StatusRecord)
  deriving DecidableEq

def RecordKind.name : RecordKind → Text
  | .jobActivated => utf8 "job_activated"
  | .acceptedShare => utf8 "accepted_share"
  | .winnerOutbox => utf8 "winner_outbox"
  | .status .observed => utf8 "winner_observed"
  | .status .orphaned => utf8 "winner_orphaned"
  | .status .conflicting => utf8 "winner_conflicting"
  | .status .matured => utf8 "winner_matured"
  | .status .confirmed => utf8 "winner_confirmed"

def RecordKind.all : List RecordKind :=
  [.jobActivated, .acceptedShare, .winnerOutbox, .status .observed, .status .orphaned,
    .status .conflicting, .status .matured, .status .confirmed]

/-- `match record.record.as_str()`. -/
def RecordKind.ofName (name : Text) : Option RecordKind :=
  RecordKind.all.find? fun kind => kind.name = name

theorem RecordKind.ofName_eq_some {name : Text} {kind : RecordKind}
    (h : RecordKind.ofName name = some kind) : name = kind.name := by
  have hname := List.find?_some h
  exact (of_decide_eq_true hname).symm

@[simp] theorem RecordKind.ofName_name (kind : RecordKind) :
    RecordKind.ofName kind.name = some kind := by
  cases kind with
  | status status => cases status <;> decide
  | _ => decide

/-! ## Limits shared by the two replays -/

def journalVersion : Nat := 2

def maxJournalRecordBytes : Nat := 10 * 1024 * 1024

/-- `MAX_JOURNAL_GENERATIONS`, and `MAX_ACCOUNTING_GENERATIONS`. -/
def maxJournalGenerations : Nat := 1000000

/-- `MAX_CHILD_BLOCK_BYTES` of the coordinator and `MAX_WINNER_BLOCK_BYTES`
of the report. -/
def maxWinnerBlockBytes : Nat := 2000000

def lineFeed : UInt8 := 0x0a

/-- The error that both line readers give for a line above the limit. -/
def recordTooLarge : MinerError :=
  invalid "share journal contains a record larger than 10485760 bytes"

/-- `ensure_accounting_generation_capacity` and
`ensure_job_generation_capacity`. -/
def ensureGenerationCapacity (count : Nat) (alreadySeen : Bool) : Result Unit :=
  rejectIf (alreadySeen = false ∧ maxJournalGenerations ≤ count)
    (invalid "share journal contains more than 1000000 mining generations")

/-- The error that both replays give for an unknown version or record. -/
def unsupportedRecord {Flag : Type} (record : RecordFields Flag) : MinerError :=
  .invalidRequest ("share journal contains unsupported version " ++ toString record.version ++
    " record") record.record

/-! ## The two structs agree -/

/-- The record with its flags converted. -/
def RecordFields.mapFlags {Flag Flag' : Type} (f : Flag → Flag') (record : RecordFields Flag) :
    RecordFields Flag' :=
  { record with
    wcashCandidate := f record.wcashCandidate
    zcashCandidate := f record.zcashCandidate }

/-- A flag that is not `null`, as the coordinator reads it. -/
theorem defaultFalse_getD {value : Option Json} {flag : Option Bool}
    (h : Json.optional Json.asBool value = some flag) (hnull : value ≠ some .null) :
    Json.defaultFalse value = some (flag.getD false) := by
  cases value with
  | none =>
    cases h
    rfl
  | some json =>
    cases json with
    | bool b =>
      cases h
      rfl
    | null => exact absurd rfl hnull
    | _ => cases h

theorem ne_null_of_defaultFalse {value : Option Json} {flag : Bool}
    (h : Json.defaultFalse value = some flag) : value ≠ some .null := by
  rintro rfl
  cases h

/-- The fields in an object and in an array, by the field and not by its
key. -/
theorem lookup_key (fields : List (Field × Json)) (field : Field) :
    (fields.map fun entry => (entry.1.key, entry.2)).lookup field.key = fields.lookup field := by
  induction fields with
  | nil => rfl
  | cons entry rest ih =>
    obtain ⟨other, value⟩ := entry
    rw [List.map_cons, List.lookup_cons, List.lookup_cons, ih]
    by_cases h : field = other
    · subst h
      simp
    · rw [beq_false_of_ne h, beq_false_of_ne fun heq => h (Field.key_injective heq)]

theorem lookup_zip_key (order : List Field) (elements : List Json) (field : Field) :
    ((order.map Field.key).zip elements).lookup field.key = (order.zip elements).lookup field := by
  rw [← lookup_key, List.zip_map_left]
  rfl

/-- The fields of a record are those that were found. -/
structure RecordFields.Reads {Flag : Type} (readFlag : Option Json → Option Flag)
    (get : Field → Option Json) (r : RecordFields Flag) : Prop where
  version : (get .version).bind (Json.asUint 8) = some r.version
  record : (get .record).bind Json.asString = some r.record
  jobId : (get .jobId).bind Json.asString = some r.jobId
  shareId : Json.optional Json.asString (get .shareId) = some r.shareId
  acceptedAt : Json.optional (Json.asUint 64) (get .acceptedAt) = some r.acceptedAt
  recordedAt : Json.optional (Json.asUint 64) (get .recordedAt) = some r.recordedAt
  worker : Json.optional Json.asString (get .worker) = some r.worker
  workerAuthentication : Json.optional Json.asString (get .workerAuthentication) =
    some r.workerAuthentication
  shareTarget : Json.optional Json.asString (get .shareTarget) = some r.shareTarget
  parentHashLe : Json.optional Json.asString (get .parentHashLe) = some r.parentHashLe
  wcashCandidate : readFlag (get .wcashCandidate) = some r.wcashCandidate
  zcashCandidate : readFlag (get .zcashCandidate) = some r.zcashCandidate
  wcashBlockHash : Json.optional Json.asString (get .wcashBlockHash) = some r.wcashBlockHash
  wcashHeight : Json.optional (Json.asUint 32) (get .wcashHeight) = some r.wcashHeight
  zcashHeight : Json.optional (Json.asUint 32) (get .zcashHeight) = some r.zcashHeight
  wcashBlock : Json.optional Json.asString (get .wcashBlock) = some r.wcashBlock
  zcashBlock : Json.optional Json.asString (get .zcashBlock) = some r.zcashBlock
  chain : Json.optional Json.asString (get .chain) = some r.chain
  blockHash : Json.optional Json.asString (get .blockHash) = some r.blockHash
  height : Json.optional (Json.asUint 32) (get .height) = some r.height

variable {get : Field → Option Json} {Flag : Type} {readFlag : Option Json → Option Flag}

theorem RecordFields.reads_of_read {r : RecordFields Flag}
    (h : RecordFields.read readFlag get = some r) : RecordFields.Reads readFlag get r := by
  obtain ⟨_, version, h⟩ := bind_eq_some_iff.mp h
  obtain ⟨_, record, h⟩ := bind_eq_some_iff.mp h
  obtain ⟨_, jobId, h⟩ := bind_eq_some_iff.mp h
  obtain ⟨_, shareId, h⟩ := bind_eq_some_iff.mp h
  obtain ⟨_, acceptedAt, h⟩ := bind_eq_some_iff.mp h
  obtain ⟨_, recordedAt, h⟩ := bind_eq_some_iff.mp h
  obtain ⟨_, worker, h⟩ := bind_eq_some_iff.mp h
  obtain ⟨_, workerAuthentication, h⟩ := bind_eq_some_iff.mp h
  obtain ⟨_, shareTarget, h⟩ := bind_eq_some_iff.mp h
  obtain ⟨_, parentHashLe, h⟩ := bind_eq_some_iff.mp h
  obtain ⟨_, wcashCandidate, h⟩ := bind_eq_some_iff.mp h
  obtain ⟨_, zcashCandidate, h⟩ := bind_eq_some_iff.mp h
  obtain ⟨_, wcashBlockHash, h⟩ := bind_eq_some_iff.mp h
  obtain ⟨_, wcashHeight, h⟩ := bind_eq_some_iff.mp h
  obtain ⟨_, zcashHeight, h⟩ := bind_eq_some_iff.mp h
  obtain ⟨_, wcashBlock, h⟩ := bind_eq_some_iff.mp h
  obtain ⟨_, zcashBlock, h⟩ := bind_eq_some_iff.mp h
  obtain ⟨_, chain, h⟩ := bind_eq_some_iff.mp h
  obtain ⟨_, blockHash, h⟩ := bind_eq_some_iff.mp h
  obtain ⟨_, height, h⟩ := bind_eq_some_iff.mp h
  cases h
  exact { version, record, jobId, shareId, acceptedAt, recordedAt, worker, workerAuthentication,
          shareTarget, parentHashLe, wcashCandidate, zcashCandidate, wcashBlockHash, wcashHeight,
          zcashHeight, wcashBlock, zcashBlock, chain, blockHash, height }

theorem RecordFields.Reads.read {r : RecordFields Flag} (h : RecordFields.Reads readFlag get r) :
    RecordFields.read readFlag get = some r := by
  simp only [RecordFields.read, h.version, h.record, h.jobId, h.shareId, h.acceptedAt,
    h.recordedAt, h.worker, h.workerAuthentication, h.shareTarget, h.parentHashLe,
    h.wcashCandidate, h.zcashCandidate, h.wcashBlockHash, h.wcashHeight, h.zcashHeight,
    h.wcashBlock, h.zcashBlock, h.chain, h.blockHash, h.height, Option.bind_eq_bind,
    Option.bind_some]

variable {p : PersistedShareKey} {r : JournalRecord}

/-- Without a `null` flag the second struct reads what the first one does. -/
theorem RecordFields.Reads.mapFlags (h : RecordFields.Reads (Json.optional Json.asBool) get r)
    (hwcash : get .wcashCandidate ≠ some .null) (hzcash : get .zcashCandidate ≠ some .null) :
    RecordFields.Reads Json.defaultFalse get (r.mapFlags fun flag => flag.getD false) :=
  { h with
    wcashCandidate := defaultFalse_getD h.wcashCandidate hwcash
    zcashCandidate := defaultFalse_getD h.zcashCandidate hzcash }

/-- From the same fields both structs get the same record. -/
theorem RecordFields.Reads.agree (hr : RecordFields.Reads (Json.optional Json.asBool) get r)
    (hp : RecordFields.Reads Json.defaultFalse get p) :
    p = r.mapFlags fun flag => flag.getD false := by
  have hmapped := hr.mapFlags (ne_null_of_defaultFalse hp.wcashCandidate)
    (ne_null_of_defaultFalse hp.zcashCandidate)
  exact Option.some.inj (hp.read.symm.trans hmapped.read)

/-- A line that both parsers accept has the same fields in both. -/
theorem fromSlice_agree {x : External} {line : Bytes}
    (hr : fromSlice x JournalRecord.ofJson line = .ok r)
    (hp : fromSlice x PersistedShareKey.ofJson line = .ok p) :
    p = r.mapFlags fun flag => flag.getD false := by
  obtain ⟨json, hjson, hr⟩ := of_bind hr
  obtain ⟨json', hjson', hp⟩ := of_bind hp
  cases hjson.symm.trans hjson'
  obtain ⟨get, hget, hr⟩ := bind_eq_some_iff.mp (okOr_eq_ok.mp hr)
  obtain ⟨get', hget', hp⟩ := bind_eq_some_iff.mp (okOr_eq_ok.mp hp)
  have hr := RecordFields.reads_of_read hr
  have hp := RecordFields.reads_of_read hp
  cases json with
  | object fields =>
    simp only [Json.structFields, ite_none_right_eq_some, Option.some.injEq] at hget hget'
    obtain ⟨_, rfl⟩ := hget
    obtain ⟨_, rfl⟩ := hget'
    exact hr.agree hp
  | array elements =>
    simp only [Json.structFields, ite_none_right_eq_some, Option.some.injEq] at hget hget'
    obtain ⟨_, rfl⟩ := hget
    obtain ⟨_, rfl⟩ := hget'
    simp only [lookup_zip_key] at hr hp
    -- The orders differ from the ninth element on, which is a text in one
    -- of them and a flag in the other.
    have hsame : (fun field => (journalRecordOrder.zip elements).lookup field)
        = fun field => (persistedShareKeyOrder.zip elements).lookup field := by
      match elements with
      | [] | [_] | [_, _] | [_, _, _] | [_, _, _, _] | [_, _, _, _, _] | [_, _, _, _, _, _]
      | [_, _, _, _, _, _, _] | [_, _, _, _, _, _, _, _] => rfl
      | _ :: _ :: _ :: _ :: _ :: _ :: _ :: _ :: value :: _ =>
        have htext : Json.optional Json.asString (some value) = some r.shareTarget := hr.shareTarget
        have hflag : Json.asBool value = some p.wcashCandidate := hp.wcashCandidate
        cases value with
        | bool b => cases htext
        | _ => cases hflag
    rw [hsame] at hr
    exact hr.agree hp
  | _ => cases hget

end Wolf.ShareJournal
