import Wolf.ShareJournal.Writer

/-! # The share journal: what the coordinator has written

The invariant of a journal in use, and that each call keeps it.

* `Written`: the file is a list of complete lines that both replays
  accept, and the state in memory is the one they end in. -/

namespace Wolf.ShareJournal

open Exec List

variable {x : External} {line text : Bytes} {lines : List Bytes} {a a' : Accounting}
  {b b' : OutboxReplay} {jobId shareId : Hex32} {status : StatusRecord}
  {pendingWinners pendingWinners' : HashMap WinnerKey PendingWinner} {chain : WinnerChain}

/-! ## The variables of the accounting replay -/

theorem optional_asUint_lt {w : Nat} {value : Option Json} {read : Option Nat}
    (h : Json.optional (Json.asUint w) value = some read) : ∀ n, read = some n → n < 2 ^ w := by
  rintro n rfl
  cases value with
  | none => cases h
  | some json =>
    cases json with
    | uint m =>
      have hm : (if m < 2 ^ w then some m else none).map some = some (some n) := h
      by_cases hlt : m < 2 ^ w
      · rw [if_pos hlt] at hm
        cases hm
        exact hlt
      · rw [if_neg hlt] at hm
        cases hm
    | _ => cases h

/-- A transition keeps an entry well formed. -/
theorem StatusOk.transition {pending updated : PendingWinnerStatus} (hok : StatusOk pending)
    (h : pending.transition chain status = .ok (some updated)) : StatusOk updated := by
  cases status with
  | observed | confirmed | orphaned =>
    obtain ⟨_, _, h⟩ := of_bind h
    cases h
    exact ⟨hok.jobId, hok.blockHash, hok.height_pos, hok.height_lt, .inr rfl⟩
  | conflicting =>
    obtain ⟨_, _, h⟩ := of_two_binds h
    cases h
    exact ⟨hok.jobId, hok.blockHash, hok.height_pos, hok.height_lt, .inl rfl⟩
  | matured =>
    obtain ⟨_, _, h⟩ := of_bind h
    cases h

/-- What the lines say about the variables of the accounting replay. -/
structure Sound (x : External) (lines : List Bytes) (a : Accounting) : Prop where
  pending : ∀ key status, a.pendingWinners.lookup key = some status → StatusOk status
  /-- An accepted share stands on a line. -/
  origin : ∀ shareId share, a.accepted.lookup shareId = some share →
    ∃ line ∈ lines, ∃ jobId held, HoldsShare x line jobId held ∧ held.shareId = shareId ∧
      held.immutable = share
  count : a.accepted.entries.length ≤ maxAccountingShares

theorem sound_init : Sound x [] {} := by
  constructor
  · intro key status h
    cases h
  · intro shareId share h
    cases h
  · exact Nat.zero_le _

/-- A line that adds no share. -/
theorem Sound.keep (h : Sound x lines a) (haccepted : a'.accepted = a.accepted)
    (hpending : ∀ key status, a'.pendingWinners.lookup key = some status → StatusOk status) :
    Sound x (lines ++ [line]) a' := by
  constructor
  · exact hpending
  · intro shareId share hshare
    rw [haccepted] at hshare
    obtain ⟨old, hold, hheld⟩ := h.origin shareId share hshare
    exact ⟨old, mem_append_left _ hold, hheld⟩
  · rw [haccepted]
    exact h.count

/-- Step lemma. -/
theorem Sound.step (h : Sound x lines a) (heffect : LineEffect x a line a') :
    Sound x (lines ++ [line]) a' := by
  cases heffect with
  | activated _ _ _ _ _ hs' | repeated _ _ _ hs' =>
    subst hs'
    exact h.keep rfl h.pending
  | @accepted jobId share snapshot pendingWinners hshare _ hnew hcount _ hwinners hs' =>
    subst hs'
    constructor
    · intro key status hlookup
      rcases insertWinners_lookup hwinners key status hlookup with hold | ⟨winner, hmem, _, rfl⟩
      · exact h.pending key status hold
      · -- The winners of a share line start out as well-formed entries.
        obtain ⟨record, hrecord, _, hread⟩ := hshare
        obtain ⟨hslice, _, hjob⟩ := readJournalRecord_ok hrecord
        obtain ⟨json, _, hslice⟩ := of_bind hslice
        obtain ⟨get, _, hslice⟩ := Option.bind_eq_some_iff.mp (okOr_eq_ok.mp hslice)
        have hreads := RecordFields.reads_of_read hslice
        obtain ⟨_, _, _, _, hwinners, _⟩ := readShareLine_ok hread
        have hwinner := validateWinnerBlocks_ok hwinners winner hmem
        have hheight : 0 < winner.status.height ∧ winner.status.height < 2 ^ 32 := by
          rcases hwinner.height with hheight | hheight
          all_goals obtain ⟨hsome, hpos⟩ := Option.filter_eq_some_iff.mp hheight
          · exact ⟨of_decide_eq_true hpos, optional_asUint_lt hreads.wcashHeight _ hsome⟩
          · exact ⟨of_decide_eq_true hpos, optional_asUint_lt hreads.zcashHeight _ hsome⟩
        exact ⟨⟨jobId, hwinner.jobId.trans hjob⟩, hwinner.blockHash, hheight.1, hheight.2,
          .inl hwinner.observed⟩
    · intro shareId other hlookup
      rcases lookup_insert_some hlookup with ⟨rfl, rfl⟩ | hlookup
      · exact ⟨line, mem_append_right _ mem_cons_self, jobId, share, hshare, rfl, rfl⟩
      · obtain ⟨old, hold, hheld⟩ := h.origin shareId other hlookup
        exact ⟨old, mem_append_left _ hold, hheld⟩
    · show (a.accepted.insert _ _).entries.length ≤ _
      rw [length_entries_insert hnew]
      exact hcount
  | status hrecord hkind hstatus hs' =>
    subst hs'
    obtain ⟨key, pending, updated, hchecked, rfl⟩ := applyWinnerStatus_ok hstatus
    refine h.keep rfl ?_
    intro other status hlookup
    by_cases hkey : other = key
    · rw [hkey, lookup_putBack] at hlookup
      subst hlookup
      exact (h.pending key pending hchecked.entry).transition hchecked.transition
    · rw [lookup_putBack_ne hkey] at hlookup
      exact h.pending other status hlookup

/-- Run lemma. -/
theorem sound_of_folds (h : lines.foldlM (Accounting.applyLine x) {} = .ok a) : Sound x lines a :=
  foldlM_induct (P := Sound x) sound_init
    (fun hsound hbody => hsound.step (applyLine_effect hbody)) h

/-! ## The variables of the replay at `open` -/

/-- Every entry of the outbox stands under its own key. -/
def Keyed (pendingWinners : HashMap WinnerKey PendingWinner) : Prop :=
  ∀ key entry, pendingWinners.lookup key = some entry → entry.key = key

theorem Keyed.insertPendingWinners (h : Keyed pendingWinners) {winners : List PendingWinner}
    (hinsert : insertPendingWinners pendingWinners winners = .ok pendingWinners') :
    Keyed pendingWinners' := by
  refine foldlM_induct (P := fun _ map => Keyed map) h ?_ hinsert
  intro done winner map map' hmap hbody
  dsimp only at hbody
  cases hlookup : map.lookup winner.key
  all_goals
    rw [hlookup] at hbody
    obtain ⟨_, _, hbody⟩ := of_bind hbody
    cases hbody
  · intro key other hlookup
    rcases lookup_insert_some hlookup with ⟨rfl, rfl⟩ | hlookup
    · rfl
    · exact hmap key other hlookup
  · exact hmap

theorem transition_key {pending updated : PendingWinner}
    (h : pending.transition chain status = .ok (some updated)) : updated.key = pending.key := by
  cases status with
  | observed | confirmed | orphaned =>
    obtain ⟨_, _, h⟩ := of_bind h
    cases h
    rfl
  | conflicting =>
    obtain ⟨_, h⟩ := of_require_bind h
    obtain ⟨_, _, h⟩ := of_bind h
    cases h
    rfl
  | matured =>
    obtain ⟨_, _, h⟩ := of_bind h
    cases h

/-- Applying a record leaves the byte count alone. -/
theorem applyRecord_keeps {record : PersistedShareKey} (h : b.applyRecord x record jobId = .ok b') :
    b'.completeBytes = b.completeBytes ∧ (Keyed b.pendingWinners → Keyed b'.pendingWinners) := by
  have happly := h
  unfold OutboxReplay.applyRecord at h
  cases hkind : RecordKind.ofName record.record with
  | none =>
    rw [hkind] at h
    cases h
  | some kind =>
    rw [hkind] at h
    cases kind with
    | jobActivated | acceptedShare =>
      cases applyRecord_plain (by simp [hkind]) happly
      exact ⟨rfl, id⟩
    | winnerOutbox =>
      obtain ⟨_, _, ⟨_, rfl⟩ | ⟨_, _, _, _, _, hinsert, rfl⟩⟩ := replayWinner_ok h
      · exact ⟨rfl, id⟩
      · exact ⟨rfl, fun hkeyed => hkeyed.insertPendingWinners hinsert⟩
    | status status =>
      obtain ⟨_, hstatus, h⟩ := of_bind h
      cases h
      refine ⟨rfl, ?_⟩
      intro hkeyed other entry hlookup
      obtain ⟨key, _, pending, updated, _, _, _, hpending, hupdated, rfl⟩ :=
        replayWinnerStatus_ok hstatus
      by_cases hsame : other = key
      · rw [hsame, lookup_putBack] at hlookup
        subst hlookup
        rw [hsame, transition_key hupdated]
        exact hkeyed key pending hpending
      · rw [lookup_putBack_ne hsame] at hlookup
        exact hkeyed other entry hlookup

/-- Lines with their terminators. -/
def joinLines (lines : List Bytes) : Bytes := lines.flatMap (· ++ [lineFeed])

theorem joinLines_append :
    joinLines (lines ++ [line]) = joinLines lines ++ (line ++ [lineFeed]) := by
  simp [joinLines]

theorem splitLines_joinLines (h : ∀ line ∈ lines, lineFeed ∉ line) :
    splitLines lineFeed (joinLines lines) = (lines, []) := by
  have hsplit : splitLines lineFeed (joinLines lines ++ []) = (lines, []) :=
    splitLines_flatMap h not_mem_nil
  rwa [append_nil] at hsplit

/-- What the lines say about the variables of the replay at `open`. -/
structure Counted (lines : List Bytes) (b : OutboxReplay) : Prop where
  completeBytes : b.completeBytes = (joinLines lines).length
  keyed : Keyed b.pendingWinners

theorem counted_of_folds (h : lines.foldlM (OutboxReplay.applyLine x) {} = .ok b) :
    Counted lines b := by
  refine foldlM_induct (P := Counted) ⟨rfl, fun _ _ hlookup => by cases hlookup⟩ ?_ h
  intro done line b b' hdone hbody
  obtain ⟨completeBytes, hbytes, hbody⟩ := of_okOr_bind hbody
  obtain ⟨⟨record, jobId⟩, _, hbody⟩ := of_bind hbody
  obtain ⟨hsame, hkeyed⟩ := applyRecord_keeps hbody
  have hsum := (checkedAdd_eq_some.mp hbytes).2
  constructor
  · rw [hsame, joinLines_append, length_append, length_append, ← hdone.completeBytes]
    exact hsum.symm
  · exact hkeyed hdone.keyed

/-! ## What the calls append -/

/-- A record that was appended as one line. -/
structure Appended (s : JournalState) (text : Bytes) (s' : JournalState) : Prop where
  fits : text.length ≤ maxJournalRecordBytes
  size : s.bytesWritten + (text.length + 1) ≤ maxJournalBytes
  state : s' = { s with file := s.file ++ (text ++ [lineFeed])
                        bytesWritten := s.bytesWritten + (text.length + 1) }

variable {env : AppendEnv} {s s' s₁ : JournalState} {identity : ShareReplayIdentity}
  {job : ActiveJournalJob} {winner current : PendingWinner} {timestamp : UInt64}
  {authentication : JournalWorkerAuthentication} {share : ValidatedNativeShare}

theorem orPoison_eq_ok {result : Result Unit} (h : orPoison result s = .ok () s') : s' = s := by
  cases result with
  | ok u =>
    cases h
    rfl
  | error e => cases h

theorem appendSyncedJournalRecord_ok
    (h : appendSyncedJournalRecord env (text ++ [lineFeed]) s = .ok () s') :
    Appended s text s' := by
  obtain ⟨newLength, hlength, h⟩ := check_bind_ok.mp h
  obtain ⟨_, s₁, hbefore, h⟩ := bind_ok.mp h
  cases orPoison_eq_ok hbefore
  cases hwrite : env.writeFailure with
  | some failure =>
    -- A failed write poisons the journal and fails.
    rw [hwrite] at h
    cases h
  | none =>
    rw [hwrite] at h
    dsimp only at h
    rw [modify_bind_run] at h
    obtain ⟨_, s₂, hafter, h⟩ := bind_ok.mp h
    cases orPoison_eq_ok hafter
    cases h
    obtain ⟨_, _, hlength⟩ := of_bind hlength
    obtain ⟨hfits, hlength⟩ := of_rejectIf_bind hlength
    obtain ⟨sum, hsum, hlength⟩ := of_okOr_bind hlength
    obtain ⟨hsize, hlength⟩ := of_rejectIf_bind hlength
    cases hlength
    have hsum := (checkedAdd_eq_some.mp hsum).2
    rw [length_append, length_singleton] at hfits hsum
    constructor
    · omega
    · omega
    · rw [hsum]

/-- The end of the three calls: a record is encoded and appended. -/
theorem appendRecord_ok {α : Type} {record : JsonRecord} {r : α} {next : JournalM α}
    (h : (check (encodeRecord x record) >>= fun encoded =>
      appendSyncedJournalRecord env encoded >>= fun _ => next) s = .ok r s') :
    ∃ text s₁, x.toVec record.keyed = .ok text ∧ Appended s text s₁ ∧ next s₁ = .ok r s' := by
  obtain ⟨encoded, hencoded, h⟩ := check_bind_ok.mp h
  obtain ⟨text, htext, hencoded⟩ := of_mapErr_bind hencoded
  cases hencoded
  obtain ⟨_, s₁, happend, h⟩ := bind_ok.mp h
  exact ⟨text, s₁, htext, appendSyncedJournalRecord_ok happend, h⟩

/-- What `activate_job` did. -/
structure Activates (x : External) (env : AppendEnv) (job : ActiveJournalJob) (s s' : JournalState)
    (jobId : Hex32) (timestamp : UInt64) (text : Bytes) : Prop extends checked : JobChecked job where
  named : job.jobId = hexEncode jobId.data
  unseen : jobId ∉ s.seenJobIds
  room : s.seenJobIds.card < maxJournalGenerations
  clock : env.unixTimestamp = .ok timestamp
  encoded : x.toVec (activationRecord job timestamp).keyed = .ok text
  appended : ∃ s₁, Appended s text s₁ ∧
    s' = { s₁ with
      seenJobIds := insert jobId s.seenJobIds
      activeJobAttributions := ∅
      activeWinnerAttributions := ∅
      activeJob := some job }

theorem activateJob_ok (h : activateJob x env job s = .ok () s') :
    ∃ jobId timestamp text, Activates x env job s s' jobId timestamp text := by
  obtain ⟨jobId, hjobId, h⟩ := check_bind_ok.mp h
  obtain ⟨hash, hhash, h⟩ := check_bind_ok.mp h
  obtain ⟨_, hheights, h⟩ := check_bind_ok.mp h
  obtain ⟨_, hunseen, h⟩ := check_bind_ok.mp h
  obtain ⟨_, hroom, h⟩ := check_bind_ok.mp h
  obtain ⟨timestamp, htimestamp, h⟩ := check_bind_ok.mp h
  obtain ⟨text, s₁, htext, happended, h⟩ := appendRecord_ok h
  cases h
  obtain ⟨decoded, _, hhash⟩ := of_bind hhash
  obtain ⟨hcanonical, _⟩ := of_require_bind hhash
  have hheights := not_or.mp (rejectIf_eq_ok.mp hheights)
  have hroom := rejectIf_eq_ok.mp hroom
  refine ⟨jobId, timestamp, text, ⟨⟨_, hcanonical⟩, hheights.1, hheights.2⟩,
    parseJournalId_ok hjobId, rejectIf_eq_ok.mp hunseen, ?_, htimestamp, htext, s₁, happended, ?_⟩
  · exact Nat.lt_of_not_le fun hle => hroom ⟨rfl, hle⟩
  · rw [happended.state]

/-- What `record` did when it appended a line. -/
structure Records (x : External) (s s' : JournalState) (job : ActiveJournalJob) (worker : Text)
    (authentication : JournalWorkerAuthentication) (share : ValidatedNativeShare)
    (wcashBlock : Option Bytes) (timestamp : UInt64) (shareId : Hex32) (text : Bytes) : Prop where
  unknown : s.activeJobAttributions.lookup shareId = none ∧
    s.activeWinnerAttributions.lookup shareId = none
  capacity : checkShareCapacity s shareId share.isWinner
    (outboxEntries job job.jobId share shareId wcashBlock) = .ok ()
  encoded : x.toVec (shareRecord job worker authentication job.jobId share shareId wcashBlock
    timestamp).keyed = .ok text
  appended : ∃ s₁ identity, Appended s text s₁ ∧
    s' = s₁.withShare shareId identity share.isWinner
      (outboxEntries job job.jobId share shareId wcashBlock)

/-- What `record` has checked before it looks for a replay. -/
structure Attributes (x : External) (env : AppendEnv) (s : JournalState) (job : ActiveJournalJob)
    (worker : Text) (authentication : JournalWorkerAuthentication) (jobId : Text)
    (share : ValidatedNativeShare) (wcashBlock : Option Bytes) (timestamp : UInt64)
    (shareId : Hex32) : Prop where
  workerName : ¬ badWorkerName worker
  active : s.activeJob = some job
  named : job.jobId = jobId
  digest : shareId = shareIdOf x jobId share.parentBlockHash
  completed : transposed (completeWcashCandidate x job.childCandidateBytes job.childHashDisplay)
    share.wcashCandidate = .ok wcashBlock
  clock : env.unixTimestamp = .ok timestamp
  identity : ∃ persisted identity, persistedOfRecord (shareRecord job worker authentication jobId
    share shareId wcashBlock timestamp) = .ok persisted ∧
    persistedShareIdentity x persisted = .ok identity

theorem isMatchingReplay_false (h : isMatchingReplay s shareId identity = .ok false) :
    s.activeJobAttributions.lookup shareId = none ∧
      s.activeWinnerAttributions.lookup shareId = none := by
  unfold isMatchingReplay at h
  cases hlookup : (s.activeJobAttributions.lookup shareId).or
      (s.activeWinnerAttributions.lookup shareId) with
  | none => exact Option.or_eq_none_iff.mp hlookup
  | some existing =>
    rw [hlookup] at h
    obtain ⟨_, _, h⟩ := of_bind h
    cases h

theorem record_ok {worker jobId : Text}
    (h : record x env worker authentication jobId share s = .ok shareId s') :
    ∃ job wcashBlock timestamp,
      Attributes x env s job worker authentication jobId share wcashBlock timestamp shareId ∧
      (s' = s ∨ ∃ text,
        Records x s s' job worker authentication share wcashBlock timestamp shareId text) := by
  obtain ⟨_, hworker, h⟩ := check_bind_ok.mp h
  obtain ⟨job, hjob, h⟩ := check_bind_ok.mp h
  obtain ⟨wcashBlock, hwcash, h⟩ := check_bind_ok.mp h
  obtain ⟨timestamp, htimestamp, h⟩ := check_bind_ok.mp h
  obtain ⟨persisted, hpersisted, h⟩ := check_bind_ok.mp h
  obtain ⟨identity, hidentity, h⟩ := check_bind_ok.mp h
  obtain ⟨matching, hmatching, h⟩ := check_bind_ok.mp h
  obtain ⟨active, hactive, hjob⟩ := of_okOr_bind hjob
  obtain ⟨hsame, hjob⟩ := of_require_bind hjob
  cases hjob
  subst hsame
  have hattributes : Attributes x env s job worker authentication job.jobId share wcashBlock
      timestamp (shareIdOf x job.jobId share.parentBlockHash) :=
    ⟨rejectIf_eq_ok.mp hworker, hactive, rfl, rfl, hwcash, htimestamp, persisted,
      identity, hpersisted, hidentity⟩
  cases matching with
  | true =>
    cases h
    exact ⟨job, wcashBlock, timestamp, hattributes, .inl rfl⟩
  | false =>
    obtain ⟨_, hcapacity, h⟩ := check_bind_ok.mp h
    obtain ⟨text, s₁, htext, happended, h⟩ := appendRecord_ok h
    cases h
    refine ⟨job, wcashBlock, timestamp, hattributes, .inr ⟨text, ?_⟩⟩
    exact ⟨isMatchingReplay_false hmatching, hcapacity, htext, s₁, identity, happended, rfl⟩

/-- What `mark_status` did when it appended a line. -/
structure Marks (x : External) (env : AppendEnv) (s s' : JournalState) (winner : PendingWinner)
    (status : WinnerStatus) (current : PendingWinner) (timestamp : UInt64) (text : Bytes) :
    Prop where
  entry : s.pendingWinners.lookup winner.key = some current
  same : sameWinner current winner
  changes : statusChanges current status = .ok true
  clock : env.unixTimestamp = .ok timestamp
  encoded : x.toVec (statusRecord winner status timestamp).keyed = .ok text
  appended : ∃ s₁, Appended s text s₁ ∧
    s' = { s₁ with
      pendingWinners := putBack s.pendingWinners winner.key (current.withStatus status) }

theorem markStatus_ok {status : WinnerStatus} (h : markStatus x env winner status s = .ok () s') :
    s' = s ∨ ∃ current timestamp text, Marks x env s s' winner status current timestamp text := by
  unfold markStatus at h
  rw [get_bind_run] at h
  cases hcurrent : s.pendingWinners.lookup winner.key with
  | none =>
    rw [hcurrent] at h
    cases h
    exact .inl rfl
  | some current =>
    rw [hcurrent] at h
    obtain ⟨_, hsame, h⟩ := check_bind_ok.mp h
    obtain ⟨changes, hchanges, h⟩ := check_bind_ok.mp h
    cases changes with
    | false =>
      cases h
      exact .inl rfl
    | true =>
      obtain ⟨timestamp, htimestamp, h⟩ := check_bind_ok.mp h
      obtain ⟨text, s₁, htext, happended, h⟩ := appendRecord_ok h
      cases h
      refine .inr ⟨current, timestamp, text, hcurrent, of_rejectIf hsame,
        hchanges, htimestamp, htext, s₁, happended, ?_⟩
      rw [happended.state]

/-! ## The invariant -/

/-- The active job passed the checks of `activate_job`. -/
structure ActiveOk (seen : Finset Hex32) (job : ActiveJournalJob) : Prop
    extends checked : JobChecked job where
  jobId : ∃ jobId ∈ seen, job.jobId = hexEncode jobId.data

/-- The journal remembers a share of the active job. -/
def JournalState.Attributed (s : JournalState) (shareId : Hex32) : Prop :=
  (∃ identity, s.activeJobAttributions.lookup shareId = some identity) ∨
    ∃ identity, s.activeWinnerAttributions.lookup shareId = some identity

/-- The invariant of a journal in use. -/
structure Written (x : External) (s : JournalState) (lines : List Bytes) (a : Accounting)
    (b : OutboxReplay) : Prop where
  file : s.file = joinLines lines
  notMem : ∀ line ∈ lines, lineFeed ∉ line
  fits : ∀ line ∈ lines, line.length ≤ maxJournalRecordBytes
  accounting : lines.foldlM (Accounting.applyLine x) {} = .ok a
  outbox : lines.foldlM (OutboxReplay.applyLine x) {} = .ok b
  bytesWritten : s.bytesWritten = s.file.length
  size : s.file.length ≤ maxJournalBytes
  /-- The state in memory is the one that a replay ends in. -/
  seen : s.seenJobIds = b.seenJobIds
  pending : s.pendingWinners = b.pendingWinners
  active : ∀ job, s.activeJob = some job → ActiveOk s.seenJobIds job
  /-- A share of the active job cannot be written twice. -/
  attributed : ∀ job, s.activeJob = some job → ∀ shareId share,
    a.accepted.lookup shareId = some share → share.jobId = job.jobId → s.Attributed shareId

section

variable (h : Written x s lines a b)

include h

theorem Written.agrees : Agrees a b :=
  agrees_of_folds h.accounting h.outbox agrees_init

theorem Written.usedJobs : a.usedJobs = s.seenJobIds := by
  rw [h.seen, h.agrees.jobs]

theorem Written.split : splitLines lineFeed s.file = (lines, []) := by
  rw [h.file]
  exact splitLines_joinLines h.notMem

/-- The byte counter of a replay cannot overflow. -/
theorem Written.bytes (happ : Appended s text s₁) :
    b.completeBytes + (text.length + 1) < 2 ^ 64 := by
  have hbytes : b.completeBytes = s.bytesWritten := by
    rw [(counted_of_folds h.outbox).completeBytes, h.bytesWritten, h.file]
  have hsize := happ.size
  unfold maxJournalBytes at hsize
  omega

end

theorem foldlM_snoc {σ : Type} {step : σ → Bytes → Result σ} {s₀ s₁ s₂ : σ}
    (h : lines.foldlM step s₀ = .ok s₁) (hstep : step s₁ text = .ok s₂) :
    (lines ++ [text]).foldlM step s₀ = .ok s₂ := by
  rw [foldlM_append, h, ok_bind, foldlM_cons, hstep]
  rfl

/-- A line that both replays accept keeps the file readable. What a call
does to the rest of the state is up to the call. -/
theorem Written.append (h : Written x s lines a b) (happ : Appended s text s₁)
    (hreplayed : Replayed x a b text a' b') (hfile : s'.file = s₁.file)
    (hbytes : s'.bytesWritten = s₁.bytesWritten) (hseen : s'.seenJobIds = b'.seenJobIds)
    (hpending : s'.pendingWinners = b'.pendingWinners)
    (hactive : ∀ job, s'.activeJob = some job → ActiveOk s'.seenJobIds job)
    (hattributed : ∀ job, s'.activeJob = some job → ∀ shareId share,
      a'.accepted.lookup shareId = some share → share.jobId = job.jobId →
      s'.Attributed shareId) : Written x s' (lines ++ [text]) a' b' := by
  have hfile' : s'.file = s.file ++ (text ++ [lineFeed]) := by rw [hfile, happ.state]
  have hlength : s'.file.length = s.bytesWritten + (text.length + 1) := by
    rw [hfile', h.bytesWritten]
    simp
  constructor
  · rw [hfile', h.file, joinLines_append]
  · exact forall_mem_append.mpr ⟨h.notMem, forall_mem_singleton.mpr hreplayed.line⟩
  · exact forall_mem_append.mpr ⟨h.fits, forall_mem_singleton.mpr happ.fits⟩
  · exact foldlM_snoc h.accounting hreplayed.accounting
  · exact foldlM_snoc h.outbox hreplayed.outbox
  · rw [hlength, hbytes, happ.state]
  · rw [hlength]
    exact happ.size
  · exact hseen
  · exact hpending
  · exact hactive
  · exact hattributed

/-! ## The calls keep it -/

/-- Step lemma for `activate_job`. -/
theorem Written.activateJob (laws : Laws x) (h : Written x s lines a b)
    (hcall : Activates x env job s s' jobId timestamp text) (hclock : timestamp ≠ 0) :
    ∃ a' b', Written x s' (lines ++ [text]) a' b' := by
  obtain ⟨s₁, happ, hs'⟩ := hcall.appended
  obtain ⟨hash, hhash⟩ := hcall.blockHash
  have hline : IsLine x text (activationFields job timestamp) jobId :=
    (activation_readBack (asciiText_of_eq hcall.named) (asciiText_of_eq hhash)
      timestamp).isLine laws
      rfl hcall.named hcall.encoded
  have hreplayed := activation_replayed hline h.agrees (h.usedJobs ▸ hcall.unseen)
    (h.usedJobs ▸ hcall.room) hhash hcall.childHeight hcall.parentHeight hclock (h.bytes happ)
  subst hs'
  obtain rfl := happ.state
  refine ⟨_, _, h.append happ hreplayed rfl rfl ?_ h.pending ?_ ?_⟩
  · exact congrArg (insert jobId) h.seen
  · intro active hactive
    cases hactive
    exact ⟨hcall.checked, jobId, Finset.mem_insert_self _ _, hcall.named⟩
  · -- The job is new, and so has no share yet.
    intro active hactive shareId share hshare hsame
    cases hactive
    obtain ⟨line, hline, used, held, hheld, _, rfl⟩ :=
      (sound_of_folds h.accounting).origin shareId share hshare
    obtain ⟨hused, _⟩ := (conserved_of_folds h.accounting).known line hline used held hheld
    obtain ⟨record, hrecord, _, hread⟩ := hheld
    obtain ⟨_, _, hchecked, _, _, himmutable⟩ := readShareLine_ok hread
    have hname := hchecked.jobId.trans (readJournalRecord_ok hrecord).2.2
    rw [himmutable] at hsame
    rw [← hexEncode_hash_injective (hcall.named.symm.trans (hsame.symm.trans hname)),
      h.usedJobs] at hused
    exact absurd hused hcall.unseen

/-- The blocks that `record` stores for a winner pass
`validate_persisted_winner_block`, which finds the share's parent. -/
structure StoredBlocksPass (x : External) (job : ActiveJournalJob) (share : ValidatedNativeShare) :
    Prop where
  wcash : ∀ proof block, share.wcashCandidate = some proof →
    completeWcashCandidate x job.childCandidateBytes job.childHashDisplay proof = .ok block →
    x.validatePersistedWinnerBlock block job.childHashDisplay job.childHeight.toNat .wcash
      = .ok share.parentBlockHash
  zcash : ∀ block, share.parentBlock = some block →
    x.validatePersistedWinnerBlock block (displayHash share.parentBlockHash)
      job.parentHeight.toNat .zcash = .ok share.parentBlockHash

/-- No share of another job in the file has the same digest. -/
def NoCollision (x : External) (file : Bytes) (jobId : Text) (shareId : Hex32) : Prop :=
  ∀ line ∈ (splitLines lineFeed file).1, ∀ id held, HoldsShare x line id held →
    held.shareId = shareId → held.immutable.jobId = jobId

section

variable {worker jobId : Text} {wcashBlock candidate : Option Bytes} {shareId other : Hex32}
  {entries : List PendingWinner} {seen : Finset Hex32}

/-- The texts of a share record need no escapes. -/
theorem Attributes.readBack
    (h : Attributes x env s job worker authentication jobId share wcashBlock timestamp shareId)
    (hactive : ActiveOk seen job) :
    ReadBack (shareRecord job worker authentication job.jobId share shareId wcashBlock timestamp)
      (shareFields job worker authentication job.jobId share shareId wcashBlock timestamp) := by
  obtain ⟨id, _, hid⟩ := hactive.jobId
  obtain ⟨hash, hhash⟩ := hactive.blockHash
  exact share_readBack (asciiText_of_eq hid) (asciiText_of_eq hhash)
    (asciiText_worker h.workerName) _ _ _ _ _

theorem transposed_ok {f : Bytes → Result Bytes} (h : transposed f candidate = .ok wcashBlock) :
    wcashBlock.isSome = candidate.isSome ∧
      ∀ block, wcashBlock = some block → ∃ proof, candidate = some proof ∧ f proof = .ok block := by
  cases candidate with
  | none =>
    cases h
    exact ⟨rfl, fun block hblock => by cases hblock⟩
  | some proof =>
    obtain ⟨block, hblock, h⟩ := of_bind h
    cases h
    refine ⟨rfl, ?_⟩
    intro other hother
    cases hother
    exact ⟨proof, rfl, hblock⟩

theorem Attributes.shareCall
    (h : Attributes x env s job worker authentication jobId share wcashBlock timestamp shareId)
    (hactive : ActiveOk seen job) (hclock : timestamp ≠ 0)
    (hblocks : StoredBlocksPass x job share) :
    ShareCall x job worker authentication share wcashBlock timestamp where
  worker := h.workerName
  authentication := by
    -- `legacy_unknown` is no provenance that can be written.
    intro hlegacy
    obtain ⟨persisted, identity, hpersisted, hidentity⟩ := h.identity
    rw [← h.named, (h.readBack hactive).persistedOfRecord] at hpersisted
    cases hpersisted
    obtain ⟨_, _, hidentity⟩ := of_bind hidentity
    obtain ⟨_, hattribution, _⟩ := of_bind hidentity
    obtain ⟨_, _, hattribution⟩ := of_two_binds hattribution
    obtain ⟨provenance, hprovenance, _⟩ := of_bind hattribution
    have hunknown : ∀ provenance, JournalWorkerAuthentication.fromPersisted
        (some JournalWorkerAuthentication.legacyUnknown.asStr) ≠ .ok provenance := by
      intro provenance
      cases provenance <;> decide
    subst hlegacy
    exact hunknown provenance hprovenance
  timestamp := hclock
  checked := hactive.checked
  wcash := (transposed_ok h.completed).1
  wcashBlock := by
    intro block hblock
    obtain ⟨proof, hproof, hcomplete⟩ := (transposed_ok h.completed).2 block hblock
    exact hblocks.wcash proof block hproof hcomplete
  zcashBlock := hblocks.zcash

/-- A share that `record` appends is new. -/
theorem Written.share_new (h : Written x s lines a b) (hactive : s.activeJob = some job)
    (hunknown : s.activeJobAttributions.lookup shareId = none ∧
      s.activeWinnerAttributions.lookup shareId = none)
    (hcollision : NoCollision x s.file job.jobId shareId) : a.accepted.lookup shareId = none := by
  cases hlookup : a.accepted.lookup shareId with
  | none => rfl
  | some old =>
    obtain ⟨line, hline, id, held, hheld, hid, rfl⟩ :=
      (sound_of_folds h.accounting).origin shareId old hlookup
    rw [NoCollision, h.split] at hcollision
    -- It is a share of the active job, and those are remembered.
    have hjob := hcollision line hline id held hheld hid
    rcases h.attributed job hactive shareId _ hlookup hjob with ⟨_, hknown⟩ | ⟨_, hknown⟩
    · rw [hunknown.1] at hknown
      cases hknown
    · rw [hunknown.2] at hknown
      cases hknown

/-- The capacity that `record` checks is the one that a replay needs. -/
theorem capacity_ok (h : checkShareCapacity s shareId true entries = .ok ())
    (hkeys : ∀ entry ∈ entries, entry.key.shareId = shareId)
    (hnew : ∀ entry ∈ entries, s.pendingWinners.lookup entry.key = none) :
    s.pendingWinners.entries.length + entries.length ≤ maxPendingWinners := by
  have hall : entries.filter (fun entry =>
      (s.pendingWinners.lookup ⟨shareId, entry.key.chain⟩).isNone) = entries := by
    apply filter_eq_self.mpr
    intro entry hentry
    have hkey : (⟨shareId, entry.key.chain⟩ : WinnerKey) = entry.key := by
      rw [← hkeys entry hentry]
    rw [hkey, hnew entry hentry]
    rfl
  obtain ⟨_, _, h⟩ := of_bind h
  rw [hall] at h
  obtain ⟨sum, hsum, h⟩ := of_okOr_bind h
  have hsum := (checkedAdd_eq_some.mp hsum).2
  have hmax := rejectIf_eq_ok.mp h
  omega

/-- What the journal remembered before a share, it remembers after it. -/
theorem Attributed_withShare {winner : Bool} (h : other ≠ shareId → s.Attributed other) :
    (s.withShare shareId identity winner entries).Attributed other := by
  by_cases hid : other = shareId
  · subst hid
    cases winner with
    | true => exact .inr ⟨identity, AList.lookup_insert _⟩
    | false => exact .inl ⟨identity, AList.lookup_insert _⟩
  · cases winner with
    | true =>
      rcases h hid with hleft | ⟨known, hknown⟩
      · exact .inl hleft
      · exact .inr ⟨known, (AList.lookup_insert_ne hid).trans hknown⟩
    | false =>
      rcases h hid with ⟨known, hknown⟩ | hright
      · exact .inl ⟨known, (AList.lookup_insert_ne hid).trans hknown⟩
      · exact .inr hright

/-- Step lemma for `record`, when it appends a share that fits. -/
theorem Written.record (laws : Laws x) (h : Written x s lines a b)
    (hattributes :
      Attributes x env s job worker authentication jobId share wcashBlock timestamp shareId)
    (hcall : Records x s s' job worker authentication share wcashBlock timestamp shareId text)
    (hclock : timestamp ≠ 0) (hblocks : StoredBlocksPass x job share)
    (hcollision : NoCollision x s.file job.jobId shareId)
    (hcount : a.accepted.entries.length < maxAccountingShares) :
    ∃ a' b', Written x s' (lines ++ [text]) a' b' := by
  have hactive := h.active job hattributes.active
  have hnew := h.share_new hattributes.active hcall.unknown hcollision
  have hshareCall := hattributes.shareCall hactive hclock hblocks
  have hconserved := conserved_of_folds h.accounting
  obtain ⟨id, hseen, hid⟩ := hactive.jobId
  obtain ⟨s₁, identity, happ, hs'⟩ := hcall.appended
  have hline : IsLine x text (shareFields job worker authentication job.jobId share shareId
      wcashBlock timestamp) id :=
    (hattributes.readBack hactive).isLine laws rfl hid hcall.encoded
  have hdigest : shareId = shareIdOf x job.jobId share.parentBlockHash := by
    rw [hattributes.named]
    exact hattributes.digest
  have hroom : share.isWinner = true → b.pendingWinners.entries.length +
      (outboxEntries job job.jobId share shareId wcashBlock).length ≤ maxPendingWinners := by
    intro hwinner
    obtain ⟨_, hkeys⟩ := outboxEntries_key
    have hcapacity := hcall.capacity
    rw [hwinner] at hcapacity
    rw [← h.pending]
    refine capacity_ok hcapacity hkeys ?_
    intro entry hentry
    rw [h.pending]
    exact (h.agrees.entries_new hnew hconserved.pending (hkeys entry hentry)).2
  obtain ⟨a', b', immutable, hreplayed, haccepted, hjob, hseen', hpending'⟩ :=
    share_replayed laws hshareCall hline h.agrees (h.usedJobs ▸ hseen) hnew hcount hroom
      (h.bytes happ) hdigest hconserved
  have hframe : s'.file = s₁.file ∧ s'.bytesWritten = s₁.bytesWritten ∧
      s'.seenJobIds = s₁.seenJobIds ∧ s'.activeJob = s₁.activeJob ∧
      s'.pendingWinners = outboxAfter s₁.pendingWinners job share shareId wcashBlock := by
    rw [hs']
    unfold outboxAfter
    cases share.isWinner <;> exact ⟨rfl, rfl, rfl, rfl, rfl⟩
  obtain rfl := happ.state
  refine ⟨a', b', h.append happ hreplayed hframe.1 hframe.2.1 ?_ ?_ ?_ ?_⟩
  · rw [hframe.2.2.1, hseen']
    exact h.seen
  · rw [hframe.2.2.2.2, hpending', ← h.pending]
  · intro active hother
    rw [hframe.2.2.1]
    rw [hframe.2.2.2.1] at hother
    exact h.active active hother
  · intro active hother shareId' share' hshare' hsame
    rw [hframe.2.2.2.1] at hother
    rw [hs']
    refine Attributed_withShare ?_
    intro hne
    rw [haccepted, AList.lookup_insert_ne hne] at hshare'
    exact h.attributed active hother shareId' share' hshare' hsame

end

/-- Step lemma for `mark_status`. -/
theorem Written.markStatus (laws : Laws x) (h : Written x s lines a b) {status : WinnerStatus}
    (hcall : Marks x env s s' winner status current timestamp text) (hclock : timestamp ≠ 0) :
    ∃ a' b', Written x s' (lines ++ [text]) a' b' := by
  obtain ⟨s₁, happ, hs'⟩ := hcall.appended
  have hcurrent : b.pendingWinners.lookup winner.key = some current := by
    rw [← h.pending]
    exact hcall.entry
  have hkey := (counted_of_folds h.outbox).keyed winner.key current hcurrent
  have hok : StatusOk current.status := by
    refine (sound_of_folds h.accounting).pending winner.key _ ?_
    rw [h.agrees.outbox, hcurrent]
    rfl
  obtain ⟨hjob, hhash, hheight, _⟩ := hcall.same
  obtain ⟨jobId, hjobId⟩ := hok.jobId
  obtain ⟨hash, hblockHash⟩ := hok.blockHash
  have hname : winner.jobId = hexEncode jobId.data := hjob.symm.trans hjobId
  have hline : IsLine x text (statusFields winner status timestamp) jobId :=
    (status_readBack (asciiText_of_eq hname) (asciiText_of_eq (hhash.symm.trans hblockHash))
      (hheight ▸ hok.height_lt) status timestamp).isLine laws rfl hname hcall.encoded
  have hreplayed := status_replayed hline h.agrees hcurrent hkey hcall.same hok hcall.changes hclock
    (h.bytes happ)
  subst hs'
  obtain rfl := happ.state
  refine ⟨_, _, h.append happ hreplayed rfl rfl h.seen ?_ h.active h.attributed⟩
  exact congrArg (putBack · winner.key (current.withStatus status)) h.pending

end Wolf.ShareJournal
