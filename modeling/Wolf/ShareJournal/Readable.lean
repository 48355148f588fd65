import Wolf.ShareJournal.Runs

/-! # The share journal: what the coordinator writes can be read back

The writer limits the shares of one job and the bytes of the file; the
accounting reader limits the shares of the whole file.

* `readable_iff_shares_fit`: the file of a run is readable as long as it
  names at most `maxAccountingShares` shares.
* `overfull_journal_unreadable`: the writer goes beyond that. -/

namespace Wolf.ShareJournal

open Exec List

variable {x : External} {s s' s₁ : JournalState} {content text : Bytes} {lines : List Bytes}
  {a : Accounting} {b : OutboxReplay} {env : AppendEnv} {timestamp : UInt64} {shareId : Hex32}
  {job : ActiveJournalJob} {n : Nat}

/-! ## Runs -/

/-- The clock of a call gives a positive time. -/
def AppendEnv.ClockPositive (env : AppendEnv) : Prop :=
  ∀ timestamp, env.unixTimestamp = .ok timestamp → timestamp ≠ 0

/-- The states of a journal all of whose calls returned `Ok`. A later
`open` is the start of a run on the file as it is then. -/
inductive CoordinatorRun (x : External) : JournalState → Prop where
  | opened {env : OpenEnv} {content : Bytes} {s : JournalState} {faults faults' : Prop}
      (hfirst : Delivers faults env.firstPass content)
      (hsecond : Delivers faults' env.secondPass content)
      (h : openJournal x env content = .ok s) : CoordinatorRun x s
  | activated {env : AppendEnv} {job : ActiveJournalJob} {s s' : JournalState}
      (hrun : CoordinatorRun x s) (hclock : env.ClockPositive)
      (h : activateJob x env job s = .ok () s') : CoordinatorRun x s'
  | recorded {env : AppendEnv} {worker jobId : Text}
      {authentication : JournalWorkerAuthentication} {share : ValidatedNativeShare}
      {shareId : Hex32} {s s' : JournalState} (hrun : CoordinatorRun x s)
      (hclock : env.ClockPositive)
      (hblocks : ∀ job, s.activeJob = some job → StoredBlocksPass x job share)
      (hcollision : NoCollision x s.file jobId (shareIdOf x jobId share.parentBlockHash))
      (h : record x env worker authentication jobId share s = .ok shareId s') : CoordinatorRun x s'
  | marked {env : AppendEnv} {winner : PendingWinner} {status : WinnerStatus}
      {s s' : JournalState} (hrun : CoordinatorRun x s) (hclock : env.ClockPositive)
      (h : markStatus x env winner status s = .ok () s') : CoordinatorRun x s'

/-- A file system that serves the file without a fault. -/
structure OpenEnv.Serves (env : OpenEnv) (content : Bytes) : Prop where
  admission : env.admission = .ok ()
  permissions : env.permissions = .ok ()
  firstPass : Delivers False env.firstPass content
  secondPass : Delivers False env.secondPass content
  rewind : env.rewind = .ok ()
  truncate : env.truncate = .ok ()

/-- Both readers accept the file. -/
structure Readable (x : External) (content : Bytes) : Prop where
  /-- `read_accounting_snapshot_from_reader`, in whatever chunks the file
  arrives. -/
  accounting : ∀ reader, Delivers False reader content →
    ∃ snapshot, readAccountingSnapshotFromReader x reader = .ok snapshot
  /-- A later `open`. -/
  reopens : ∀ env : OpenEnv, env.Serves content →
    ∃ s, openJournal x env content = .ok s

/-! ## The number of shares decides -/

theorem Written.replays (h : Written x s lines a b) :
    FoldsLines lineFeed maxJournalRecordBytes (Accounting.applyLine x) s.file {} a [] ∧
      FoldsLines lineFeed maxJournalRecordBytes (OutboxReplay.applyLine x) s.file {} b [] := by
  refine ⟨⟨?_, ?_, Nat.zero_le _, ?_⟩, ?_, ?_, Nat.zero_le _, ?_⟩ <;> rw [h.split]
  · exact h.fits
  · exact h.accounting
  · exact h.fits
  · exact h.outbox

theorem Written.readable (h : Written x s lines a b) : Readable x s.file := by
  obtain ⟨haccounting, houtbox⟩ := h.replays
  constructor
  · intro reader hd
    exact ⟨a.snapshot, Replays.read ⟨[], haccounting⟩ hd⟩
  · intro env henv
    have hsize : ¬ maxJournalBytes < s.file.length := Nat.not_lt.mpr h.size
    unfold openJournal
    rw [henv.admission, rejectIf_bind hsize, henv.permissions, Replays.read ⟨[], haccounting⟩
      henv.firstPass, henv.rewind, (forLines_eq_ok henv.secondPass).mpr houtbox]
    exact ⟨_, rfl⟩

/-- The number of different shares on the lines of a replay. -/
theorem card_shareIds (h : lines.foldlM (Accounting.applyLine x) {} = .ok a)
    (hlines : (splitLines lineFeed content).1 = lines) :
    (shareIds x content).card = a.accepted.entries.length := by
  unfold shareIds
  rw [hlines, (conserved_of_folds h).ids.card]
  exact sumValues_one

/-- Some reader delivers any content. -/
theorem exists_delivers : ∃ reader : Reader UInt8 String, Delivers False reader content := by
  cases content with
  | nil => exact ⟨[], .done⟩
  | cons c cs =>
    have hd : Delivers False [.ok (c :: cs)] ((c :: cs) ++ []) :=
      Delivers.chunk (E := String) (cons_ne_nil c cs) .done
    rw [append_nil] at hd
    exact ⟨_, hd⟩

/-- The accounting reader accepts no more than its limit. -/
theorem Readable.shares_fit (h : Readable x content) :
    (shareIds x content).card ≤ maxAccountingShares := by
  obtain ⟨reader, hd⟩ := exists_delivers
  obtain ⟨snapshot, hread⟩ := h.accounting reader hd
  obtain ⟨a, ⟨tail, hfolds⟩, _⟩ := replays_of_read hd hread
  rw [card_shareIds hfolds.folds rfl]
  exact (sound_of_folds hfolds.folds).count

theorem Appended.shares_le (h : Appended s text s₁) :
    (shareIds x s.file).card ≤ (shareIds x s₁.file).card := by
  rw [h.state]
  have hcut : (splitLines lineFeed s.file).1 <+: _ :=
    (splitLines_cut (List.prefix_append _ (text ++ [lineFeed]))).1
  obtain ⟨rest, hrest⟩ := hcut
  apply Finset.card_le_card
  intro id hid
  unfold shareIds at hid ⊢
  rw [← hrest, filterMap_append, toFinset_append]
  exact Finset.mem_union_left _ hid

/-- A line with a new share adds one to the number of shares. -/
theorem Written.card_append (h : Written x s lines a b) (happ : Appended s text s₁)
    (hline : lineFeed ∉ text)
    (hid : lineField x RecordFields.shareId text = some (hexEncode shareId.data))
    (hnew : a.accepted.lookup shareId = none) :
    (shareIds x s₁.file).card = a.accepted.entries.length + 1 := by
  have hlines : (splitLines lineFeed s₁.file).1 = lines ++ [text] := by
    have hfile : s₁.file = joinLines (lines ++ [text]) := by
      rw [happ.state, joinLines_append, ← h.file]
    rw [hfile, splitLines_joinLines]
    exact forall_mem_append.mpr ⟨h.notMem, forall_mem_singleton.mpr hline⟩
  have hold : hexEncode shareId.data ∉ shareIds x s.file := by
    unfold shareIds
    rw [h.split, mem_toFinset, (conserved_of_folds h.accounting).ids]
    rintro ⟨other, share, hother, _, hsame⟩
    rw [← hexEncode_hash_injective hsame, hnew] at hother
    cases hother
  have hinsert : shareIds x s₁.file = insert (hexEncode shareId.data) (shareIds x s.file) := by
    unfold shareIds
    rw [hlines, h.split]
    simp [hid]
  rw [hinsert, Finset.card_insert_of_notMem hold, card_shareIds h.accounting (by rw [h.split])]

/-- A journal that was just opened. -/
theorem written_of_open {env : OpenEnv} {faults faults' : Prop}
    (hfirst : Delivers faults env.firstPass content)
    (hsecond : Delivers faults' env.secondPass content)
    (h : openJournal x env content = .ok s) : ∃ lines a b, Written x s lines a b := by
  obtain ⟨snapshot, b, tail, hsize, hsnapshot, houtbox, hs⟩ := open_ok h
  obtain ⟨a, ⟨tail', haccounting⟩, _⟩ := replays_of_read hfirst hsnapshot
  have houtbox := forLines_ok hsecond houtbox
  have hcounted := counted_of_folds houtbox.folds
  -- The file is cut behind its last complete line.
  have hcontent : content = joinLines (splitLines lineFeed content).1 ++ tail := by
    rw [← houtbox.tail_eq]
    exact (splitLines_join).symm
  have htake : content.take b.completeBytes = joinLines (splitLines lineFeed content).1 := by
    rw [hcounted.completeBytes]
    generalize joinLines (splitLines lineFeed content).1 = complete at hcontent ⊢
    rw [hcontent]
    exact take_left
  have hfile : s.file = joinLines (splitLines lineFeed content).1 := by
    rw [hs]
    by_cases htail : tail = []
    · rw [if_pos htail]
      rw [htail, append_nil] at hcontent
      exact hcontent
    · rw [if_neg htail]
      exact htake
  refine ⟨_, a, b, hfile, splitLines_notMem, haccounting.fits, haccounting.folds,
    houtbox.folds, ?_, ?_, ?_, ?_, ?_, ?_⟩
  · rw [hfile, ← hcounted.completeBytes, hs]
  · have hlength := congrArg List.length hcontent
    rw [length_append] at hlength
    rw [hfile]
    omega
  · rw [hs]
  · rw [hs]
  -- No job is active yet.
  all_goals
    intro job hjob
    rw [hs] at hjob
    cases hjob

/-- Run lemma: while the shares fit, the invariant holds. -/
theorem CoordinatorRun.written (laws : Laws x) (h : CoordinatorRun x s)
    (hfit : (shareIds x s.file).card ≤ maxAccountingShares) :
    ∃ lines a b, Written x s lines a b := by
  induction h with
  | opened hfirst hsecond hopen => exact written_of_open hfirst hsecond hopen
  | activated hrun hclock hcall ih =>
    obtain ⟨jobId, timestamp, text, hactivates⟩ := activateJob_ok hcall
    obtain ⟨s₁, happ, hs'⟩ := hactivates.appended
    subst hs'
    obtain ⟨lines, a, b, hwritten⟩ := ih (happ.shares_le.trans hfit)
    obtain ⟨a', b', hnext⟩ :=
      hwritten.activateJob laws hactivates (hclock timestamp hactivates.clock)
    exact ⟨_, a', b', hnext⟩
  | @recorded env worker jobId authentication share shareId s s' hrun hclock hblocks hcollision
      hcall ih =>
    obtain ⟨job, wcashBlock, timestamp, hattributes, rfl | ⟨text, hrecords⟩⟩ := record_ok hcall
    · exact ih hfit
    · obtain ⟨s₁, identity, happ, hs'⟩ := hrecords.appended
      have hfile : s'.file = s₁.file := by
        rw [hs']
        cases share.isWinner <;> rfl
      rw [hfile] at hfit
      obtain ⟨lines, a, b, hwritten⟩ := ih (happ.shares_le.trans hfit)
      have hcollision : NoCollision x s.file job.jobId shareId := by
        rw [hattributes.named, hattributes.digest]
        exact hcollision
      have hnew := hwritten.share_new hattributes.active hrecords.unknown hcollision
      -- The new share still fits, so that one fewer did before.
      have hback := hattributes.readBack (hwritten.active job hattributes.active)
      obtain ⟨hline, hslice, _⟩ := hback.fromSlice laws hrecords.encoded
      have hid : lineField x RecordFields.shareId text = some (hexEncode shareId.data) := by
        unfold lineField
        rw [hslice]
        rfl
      rw [hwritten.card_append happ hline hid hnew] at hfit
      obtain ⟨a', b', hnext⟩ := hwritten.record laws hattributes hrecords
        (hclock timestamp hattributes.clock) (hblocks job hattributes.active) hcollision hfit
      exact ⟨_, a', b', hnext⟩
  | marked hrun hclock hcall ih =>
    rcases markStatus_ok hcall with rfl | ⟨current, timestamp, text, hmarks⟩
    · exact ih hfit
    · obtain ⟨s₁, happ, hs'⟩ := hmarks.appended
      subst hs'
      obtain ⟨lines, a, b, hwritten⟩ := ih (happ.shares_le.trans hfit)
      obtain ⟨a', b', hnext⟩ := hwritten.markStatus laws hmarks (hclock timestamp hmarks.clock)
      exact ⟨_, a', b', hnext⟩

/-! ## Calls that succeed -/

/-- A clock and a file system that give no trouble. -/
structure AppendEnv.Reliable (env : AppendEnv) (timestamp : UInt64) : Prop where
  clock : env.unixTimestamp = .ok timestamp
  verifyBefore : env.verifyBefore = .ok ()
  writeFailure : env.writeFailure = none
  verifyAfter : env.verifyAfter = .ok ()

theorem appendSyncedJournalRecord_of_room (henv : env.Reliable timestamp)
    (hpoisoned : s.poisoned = false) (hfits : text.length + 1 ≤ maxJournalRecordBytes)
    (hsize : s.bytesWritten + (text.length + 1) ≤ maxJournalBytes) :
    appendSyncedJournalRecord env (text ++ [lineFeed]) s
      = .ok () { s with file := s.file ++ (text ++ [lineFeed])
                        bytesWritten := s.bytesWritten + (text.length + 1) } := by
  have hlength : (text ++ [lineFeed]).length = text.length + 1 := by simp
  have hsum : s.bytesWritten + (text.length + 1) < 2 ^ 64 := by
    unfold maxJournalBytes at hsize
    omega
  have hcheck : journalLengthAfterAppend s (text ++ [lineFeed]).length
      = .ok (s.bytesWritten + (text.length + 1)) := by
    unfold journalLengthAfterAppend
    rw [hlength, rejectIf_bind (by simp [hpoisoned]), rejectIf_bind (Nat.not_lt.mpr hfits),
      checkedAdd_of_lt hsum, okOr_bind, rejectIf_bind (Nat.not_lt.mpr hsize)]
  unfold appendSyncedJournalRecord
  rw [get_bind_run, hcheck, henv.verifyBefore, henv.writeFailure, henv.verifyAfter]
  rfl

theorem encodeRecord_of_toVec {record : JsonRecord} (h : x.toVec record.keyed = .ok text) :
    encodeRecord x record = .ok (text ++ [lineFeed]) := by
  unfold encodeRecord
  rw [h]
  rfl

section

variable {worker : Text} {authentication : JournalWorkerAuthentication}
  {share : ValidatedNativeShare} (hworker : ¬ badWorkerName worker)
  (hauthentication : authentication ≠ .legacyUnknown) (hclock : timestamp ≠ 0)

include hworker hauthentication hclock

theorem persistedShareIdentity_line (x : External) (job : ActiveJournalJob)
    (share : ValidatedNativeShare) (shareId : Hex32) (wcashBlock : Option Bytes) :
    ∃ identity, persistedShareIdentity x (shareFields job worker authentication job.jobId share
      shareId wcashBlock timestamp).persisted = .ok identity := by
  have hprovenance : JournalWorkerAuthentication.fromPersisted (some authentication.asStr)
      = .ok authentication := by
    cases authentication with
    | legacyUnknown => exact absurd rfl hauthentication
    | _ => decide
  have htime : ¬ some timestamp.toNat = some 0 := by
    intro hzero
    exact hclock (UInt64.toNat_inj.mp (Option.some.inj hzero))
  have hattribution : persistedShareAttribution (shareFields job worker authentication job.jobId
      share shareId wcashBlock timestamp).persisted = .ok ⟨worker, authentication⟩ := by
    show (rejectIf (badWorkerName worker) _ >>= _) = _
    rw [rejectIf_bind hworker]
    show (JournalWorkerAuthentication.fromPersisted (some authentication.asStr) >>= _) = _
    rw [hprovenance]
    rfl
  refine exists_bind_ok ⟨(), rejectIf_of_not htime⟩ fun _ => ?_
  exact exists_bind_ok ⟨_, hattribution⟩ fun _ => ⟨_, rfl⟩

/-- A share that is no winner, that is new, and for which there is room. -/
theorem record_of_room (henv : env.Reliable timestamp)
    (hid : shareIdOf x job.jobId share.parentBlockHash = shareId)
    (hback : ReadBack
      (shareRecord job worker authentication job.jobId share shareId none timestamp)
      (shareFields job worker authentication job.jobId share shareId none timestamp))
    (hactive : s.activeJob = some job) (hpoisoned : s.poisoned = false)
    (hwcash : share.wcashCandidate = none) (hzcash : share.parentBlock = none)
    (hnew : s.activeJobAttributions.lookup shareId = none)
    (hnew' : s.activeWinnerAttributions.lookup shareId = none)
    (hroom : s.activeJobAttributions.entries.length < maxSharesPerJob)
    (htext : x.toVec (shareRecord job worker authentication job.jobId share shareId none
      timestamp).keyed = .ok text) (hfits : text.length + 1 ≤ maxJournalRecordBytes)
    (hsize : s.bytesWritten + (text.length + 1) ≤ maxJournalBytes) :
    ∃ identity, record x env worker authentication job.jobId share s = .ok shareId { s with
      file := s.file ++ (text ++ [lineFeed])
      bytesWritten := s.bytesWritten + (text.length + 1)
      activeJobAttributions := s.activeJobAttributions.insert shareId identity } := by
  obtain ⟨identity, hidentity⟩ :=
    persistedShareIdentity_line hworker hauthentication hclock x job share shareId none
  have hjob : activeJobForShare s job.jobId = .ok job := by
    unfold activeJobForShare
    rw [hactive, okOr_bind, rejectIf_bind (not_not_intro rfl)]
  have hmatching : isMatchingReplay s shareId identity = .ok false := by
    unfold isMatchingReplay
    rw [hnew, hnew']
    rfl
  have hcapacity : ∀ entries, checkShareCapacity s shareId false entries = .ok () := by
    intro entries
    unfold checkShareCapacity
    rw [rejectIf_bind fun hfull => Nat.not_le_of_lt hroom hfull.2]
    rfl
  refine ⟨identity, ?_⟩
  subst hid
  unfold record validateAttributionWorker
  rw [check_bind_of_ok (rejectIf_of_not hworker), get_bind_run, check_bind_of_ok hjob, hwcash,
    hzcash]
  show (check (.ok none) >>= _) s = _
  rw [check_bind_of_ok rfl, check_bind_of_ok henv.clock, check_bind_of_ok hback.persistedOfRecord,
    check_bind_of_ok hidentity, check_bind_of_ok hmatching]
  show (check (checkShareCapacity s _ false _) >>= _) s = _
  rw [check_bind_of_ok (hcapacity _), check_bind_of_ok (encodeRecord_of_toVec htext),
    bind_of_ok (appendSyncedJournalRecord_of_room henv hpoisoned hfits hsize)]
  rfl

end

/-! ## A coordinator that keeps mining

Jobs and shares are numbered; every job gets as many shares as the
journal admits before it is replaced. -/

theorem plainExternal_laws (sha256 : Bytes → Hex32) : Laws (plainExternal sha256) where
  json fields text hfields _ htext := by
    have htext : Json.objectText fields = text := Except.ok.inj htext
    have hplain : ∀ field ∈ fields, Json.PlainText field.1 ∧ field.2.Plain := by
      intro field hfield
      obtain ⟨hkey, hvalue⟩ := hfields field hfield
      have htexts : ∀ {text : Bytes}, AsciiText text → Json.PlainText text :=
        fun h c hc => ⟨(h c hc).1, (h c hc).2.2.1, (h c hc).2.2.2⟩
      refine ⟨htexts hkey, ?_⟩
      cases hjson : field.2 with
      | string text =>
        rw [hjson] at hvalue
        exact htexts hvalue
      | array _ | object _ | number =>
        rw [hjson] at hvalue
        exact hvalue.elim
      | _ => rfl
    rw [← htext]
    refine ⟨Json.newline_notMem_objectText hplain, fields, List.Perm.refl _, ?_⟩
    unfold plainExternal
    dsimp only
    rw [Json.parseObject_objectText hplain]
  blocks _ _ _ _ _ h := by cases h

def numberedHash (n : Nat) : Hex32 := ⟨leBytes 32 n, length_leBytes 32 n⟩

theorem numberedHash_injective {m : Nat} (hm : m < 256 ^ 32) (hn : n < 256 ^ 32)
    (h : numberedHash m = numberedHash n) : m = n :=
  leBytes_injective hm hn (congrArg FixedBytes.data h)

/-- The job with a number. -/
def numberedJob (j : Nat) : ActiveJournalJob where
  jobId := hexEncode (numberedHash j).data
  childHashDisplay := hexEncode (numberedHash 51).data
  childHeight := 7
  parentHeight := 9
  childCandidateBytes := []

/-- The share with a number, which wins nothing. -/
def numberedShare (n : Nat) : ValidatedNativeShare where
  parentBlockHash := numberedHash n
  acceptedTarget := ⟨numberedHash 68, by decide⟩
  wcashCandidate := none
  parentBlock := none

/-- A clock and a file system that work. -/
def steadyEnv : AppendEnv where
  unixTimestamp := .ok 1700000001
  verifyBefore := .ok ()
  writeFailure := none
  verifyAfter := .ok ()

theorem steadyEnv_reliable : steadyEnv.Reliable 1700000001 := ⟨rfl, rfl, rfl, rfl⟩

theorem steadyEnv_clockPositive : steadyEnv.ClockPositive := by
  intro timestamp h
  cases h
  decide

section

variable (sha256 : Bytes → Hex32)

/-- The ID of the share with a number, under the job that it falls in. -/
def numberedId (n : Nat) : Hex32 :=
  shareIdOf (plainExternal sha256) (numberedJob (n / maxSharesPerJob)).jobId
    (numberedShare n).parentBlockHash

def workerName : Text := utf8 "alice"

/-- The record of a numbered share. -/
def numberedRecord (j n : Nat) : JsonRecord :=
  shareRecord (numberedJob j) workerName .operator (numberedJob j).jobId (numberedShare n)
    (shareIdOf (plainExternal sha256) (numberedJob j).jobId (numberedShare n).parentBlockHash) none
    1700000001

theorem Field.length_key_le (field : Field) : field.key.length ≤ 21 := by
  cases field <;> decide

/-- The text of a value is within a bound. -/
def ValueFits (entry : Field × Json) (bound : Nat) : Prop := entry.2.scalarText.length ≤ bound
  deriving Decidable

/-- The text of a record, from bounds for the texts of its values. -/
theorem length_keyed_le {record : JsonRecord} {bounds : List Nat}
    (h : List.Forall₂ ValueFits record bounds) :
    (Json.objectText record.keyed).length ≤ bounds.sum + 25 * bounds.length + 2 := by
  have hsum : (record.keyed.map Json.fieldSize).sum ≤ bounds.sum + 25 * bounds.length := by
    induction h with
    | nil => exact Nat.le_refl _
    | @cons entry bound record bounds hentry _ ih =>
      have hkey := entry.1.length_key_le
      have hvalue : entry.2.scalarText.length ≤ bound := hentry
      have hsize : Json.fieldSize (entry.1.key, entry.2)
          = entry.1.key.length + entry.2.scalarText.length + 4 := rfl
      rw [JsonRecord.keyed, map_cons, map_cons, sum_cons, sum_cons, length_cons]
      rw [JsonRecord.keyed] at ih
      omega
  have htext := Json.length_objectText_le record.keyed
  omega

theorem hexFits (field : Field) (hash : Hex32) :
    ValueFits (field, .string (hexEncode hash.data)) 66 := by
  simp [ValueFits, Json.scalarText, Json.stringText]

theorem uintFits (field : Field) (h : n < 10 ^ 10) : ValueFits (field, .uint n) 10 :=
  Json.length_decimal_le (by omega) h

theorem heightFits (field : Field) (height : UInt32) : ValueFits (field, .uint height.toNat) 10 :=
  uintFits field (height.toNat_lt.trans (by decide))

/-- An activation takes less than 1000 bytes. -/
theorem length_activation_le (j : Nat) :
    (Json.objectText (activationRecord (numberedJob j) 1700000001).keyed).length + 1 ≤ 1000 := by
  have hname : ValueFits (.record, .string RecordKind.jobActivated.name) 20 := by decide
  have hbound : List.Forall₂ ValueFits (activationRecord (numberedJob j) 1700000001)
      [10, 20, 10, 66, 66, 10, 10] :=
    .cons (uintFits _ (by decide)) <| .cons hname <| .cons (uintFits _ (by decide)) <|
    .cons (hexFits _ _) <| .cons (hexFits _ _) <| .cons (heightFits _ _) <|
    .cons (heightFits _ _) .nil
  exact (Nat.succ_le_succ (length_keyed_le hbound)).trans (by decide)

/-- A share that wins nothing takes less than 1000 bytes. -/
theorem length_share_le (j n : Nat) :
    (Json.objectText (numberedRecord sha256 j n).keyed).length + 1 ≤ 1000 := by
  have hname : ValueFits (.record, .string RecordKind.acceptedShare.name) 20 := by decide
  have hworker : ValueFits (.worker, .string workerName) 10 := by decide
  have hauthentication : ValueFits (.workerAuthentication,
      .string JournalWorkerAuthentication.operator.asStr) 20 := by decide
  have hflag : ∀ field, ValueFits (field, .bool false) 5 := fun _ => Nat.le_refl 5
  have hnull : ∀ field, ValueFits (field, .null) 4 := fun _ => Nat.le_refl 4
  have hbound : List.Forall₂ ValueFits (numberedRecord sha256 j n)
      [10, 20, 10, 66, 10, 20, 66, 66, 66, 5, 5, 66, 10, 10, 4, 4] :=
    .cons (uintFits _ (by decide)) <| .cons hname <| .cons (uintFits _ (by decide)) <|
    .cons (hexFits _ _) <| .cons hworker <| .cons hauthentication <| .cons (hexFits _ _) <|
    .cons (hexFits _ _) <| .cons (hexFits _ _) <| .cons (hflag _) <| .cons (hflag _) <|
    .cons (hexFits _ _) <| .cons (heightFits _ _) <| .cons (heightFits _ _) <|
    .cons (hnull _) <| .cons (hnull _) .nil
  exact (Nat.succ_le_succ (length_keyed_le hbound)).trans (by decide)

/-- The first `count` shares have different IDs. -/
def DistinctIds (count : Nat) : Prop :=
  ∀ n < count, ∀ m < n, numberedId sha256 m ≠ numberedId sha256 n

/-- The journal in job `j`, after `k` shares of it and all that the jobs
before it had room for. -/
structure Filled (j k : Nat) (s : JournalState) : Prop where
  run : CoordinatorRun (plainExternal sha256) s
  active : s.activeJob = some (numberedJob j)
  poisoned : s.poisoned = false
  seen : s.seenJobIds = (Finset.range (j + 1)).image numberedHash
  count : s.activeJobAttributions.entries.length = k
  shares : ∀ shareId identity, s.activeJobAttributions.lookup shareId = some identity →
    ∃ m < j * maxSharesPerJob + k, shareId = numberedId sha256 m
  winners : s.activeWinnerAttributions = ∅
  lines : ∃ lines, s.file = joinLines lines ∧ (∀ line ∈ lines, lineFeed ∉ line) ∧
    lines.filterMap (lineField (plainExternal sha256) RecordFields.shareId)
      = (List.range (j * maxSharesPerJob + k)).map fun m => hexEncode (numberedId sha256 m).data
  bytes : s.bytesWritten ≤ (j * maxSharesPerJob + k + j + 1) * 1000

variable {sha256} {j k : Nat}

/-- The share IDs of a journal that was filled. -/
theorem Filled.shareIds_eq (h : Filled sha256 j k s) :
    shareIds (plainExternal sha256) s.file = (Finset.range (j * maxSharesPerJob + k)).image
      fun m => hexEncode (numberedId sha256 m).data := by
  obtain ⟨lines, hfile, hlines, hids⟩ := h.lines
  unfold shareIds
  rw [hfile, splitLines_joinLines hlines, hids]
  ext id
  simp

/-- No share of the file has the ID of the next one. -/
theorem Filled.noCollision (h : Filled sha256 j k s)
    (hnew : ∀ m < j * maxSharesPerJob + k, numberedId sha256 m ≠ numberedId sha256 n)
    (jobId : Text) :
    NoCollision (plainExternal sha256) s.file jobId (numberedId sha256 n) := by
  intro line hline id held hheld hsame
  have hmem : hexEncode held.shareId.data ∈ shareIds (plainExternal sha256) s.file := by
    unfold shareIds
    rw [mem_toFinset, mem_filterMap]
    exact ⟨line, hline, hheld.lineFields.1⟩
  rw [h.shareIds_eq, Finset.mem_image] at hmem
  obtain ⟨m, hm, hhex⟩ := hmem
  have hid : numberedId sha256 m = held.shareId := hexEncode_hash_injective hhex
  exact absurd (hid.trans hsame) (hnew m (Finset.mem_range.mp hm))

/-- A line of the journal that names a share, or none. -/
theorem filterMap_snoc {lines : List Bytes} {line : Bytes} {ids : List Text} {id : Option Text}
    (hids : lines.filterMap (lineField x RecordFields.shareId) = ids)
    (hline : lineField x RecordFields.shareId line = id) :
    (lines ++ [line]).filterMap (lineField x RecordFields.shareId) = ids ++ id.toList := by
  rw [filterMap_append, hids]
  cases id with
  | none => simp [hline]
  | some text => simp [hline]

/-- A million records of this size fit into the file. -/
theorem bytes_fit {bytes length : Nat} (hfit : j * maxSharesPerJob + k ≤ maxAccountingShares)
    (hbytes : bytes ≤ (j * maxSharesPerJob + k + j + 1) * 1000) (hlength : length + 1 ≤ 1000) :
    length + 1 ≤ maxJournalRecordBytes ∧ bytes + (length + 1) ≤ maxJournalBytes := by
  unfold maxSharesPerJob at hfit hbytes
  unfold maxAccountingShares at hfit
  unfold maxJournalRecordBytes maxJournalBytes
  omega

/-- The next share of the job. -/
theorem Filled.record (h : Filled sha256 j k s) (hk : k < maxSharesPerJob)
    (hfit : j * maxSharesPerJob + k ≤ maxAccountingShares)
    (hnew : ∀ m < j * maxSharesPerJob + k,
      numberedId sha256 m ≠ numberedId sha256 (j * maxSharesPerJob + k)) :
    ∃ s', Filled sha256 j (k + 1) s' := by
  have hjob : (j * maxSharesPerJob + k) / maxSharesPerJob = j := by
    unfold maxSharesPerJob at hk ⊢
    omega
  have hid : numberedId sha256 (j * maxSharesPerJob + k) = shareIdOf (plainExternal sha256)
      (numberedJob j).jobId (numberedShare (j * maxSharesPerJob + k)).parentBlockHash := by
    unfold numberedId
    rw [hjob]
  have hlength := length_share_le sha256 j (j * maxSharesPerJob + k)
  obtain ⟨hfits, hsize⟩ := bytes_fit hfit h.bytes hlength
  have hsucc : j * maxSharesPerJob + (k + 1) = j * maxSharesPerJob + k + 1 := by omega
  generalize hn : j * maxSharesPerJob + k = n at *
  have hback : ReadBack (numberedRecord sha256 j n)
      (shareFields (numberedJob j) workerName .operator (numberedJob j).jobId (numberedShare n)
        (shareIdOf (plainExternal sha256) (numberedJob j).jobId (numberedShare n).parentBlockHash)
        none 1700000001) :=
    share_readBack (asciiText_hexEncode _) (asciiText_hexEncode _) (by decide +kernel) _ _ _ _ _
  obtain ⟨hline, hslice, _⟩ := hback.fromSlice (plainExternal_laws sha256) rfl
  have hunknown : s.activeJobAttributions.lookup (numberedId sha256 n) = none := by
    cases hlookup : s.activeJobAttributions.lookup (numberedId sha256 n) with
    | none => rfl
    | some identity =>
      obtain ⟨m, hm, hsame⟩ := h.shares _ identity hlookup
      exact absurd hsame.symm (hnew m (hn ▸ hm))
  have hwinners : s.activeWinnerAttributions.lookup (numberedId sha256 n) = none := by
    rw [h.winners]
    rfl
  rw [hid] at hunknown hwinners
  obtain ⟨identity, hcall⟩ := record_of_room (by decide) (by decide) (by decide)
    steadyEnv_reliable rfl hback h.active h.poisoned rfl rfl hunknown hwinners (h.count ▸ hk) rfl
    hfits hsize
  have hcollision := h.noCollision (n := n) (by rw [hn]; exact hnew) (numberedJob j).jobId
  rw [hid] at hcollision
  have hblocks : ∀ job, s.activeJob = some job →
      StoredBlocksPass (plainExternal sha256) job (numberedShare n) := by
    intro job _
    constructor
    · intro proof block hproof
      cases hproof
    · intro block hblock
      cases hblock
  have hrun := CoordinatorRun.recorded h.run steadyEnv_clockPositive hblocks hcollision hcall
  refine ⟨_, hrun, h.active, h.poisoned, h.seen, ?_, ?_, h.winners, ?_, ?_⟩
  · exact (length_entries_insert hunknown identity).trans (congrArg (· + 1) h.count)
  · intro shareId other hlookup
    rw [hsucc]
    by_cases hsame : shareId = numberedId sha256 n
    · exact ⟨n, Nat.lt_succ_self n, hsame⟩
    · rw [hid] at hsame
      rw [AList.lookup_insert_ne hsame] at hlookup
      obtain ⟨m, hm, heq⟩ := h.shares shareId other hlookup
      exact ⟨m, by omega, heq⟩
  · obtain ⟨lines, hfile, hlines, hids⟩ := h.lines
    have hfield : lineField (plainExternal sha256) RecordFields.shareId
        (Json.objectText (numberedRecord sha256 j n).keyed)
        = some (hexEncode (numberedId sha256 n).data) := by
      unfold lineField
      rw [hslice, hid]
      rfl
    refine ⟨lines ++ [Json.objectText (numberedRecord sha256 j n).keyed], ?_,
      forall_mem_append.mpr ⟨hlines, forall_mem_singleton.mpr hline⟩, ?_⟩
    · rw [joinLines_append, ← hfile]
      rfl
    · rw [hn] at hids
      rw [filterMap_snoc hids hfield, hsucc, range_succ, map_append]
      rfl
  · have hbytes := h.bytes
    show s.bytesWritten + ((Json.objectText (numberedRecord sha256 j n).keyed).length + 1) ≤ _
    rw [hsucc]
    omega

/-- The lines of an activation, which names no share. -/
theorem activation_line (sha256 : Bytes → Hex32) (j : Nat) :
    lineFeed ∉ Json.objectText (activationRecord (numberedJob j) 1700000001).keyed ∧
      lineField (plainExternal sha256) RecordFields.shareId
        (Json.objectText (activationRecord (numberedJob j) 1700000001).keyed) = none := by
  have hback : ReadBack (activationRecord (numberedJob j) 1700000001)
      (activationFields (numberedJob j) 1700000001) :=
    activation_readBack (asciiText_hexEncode _) (asciiText_hexEncode _) _
  obtain ⟨hline, hslice, _⟩ := hback.fromSlice (plainExternal_laws sha256) rfl
  refine ⟨hline, ?_⟩
  unfold lineField
  rw [hslice]
  rfl

/-- The activation of job `j`, on a journal that has used the jobs before
it. -/
theorem filled_activate (hj : j ≤ 10) (hrun : CoordinatorRun (plainExternal sha256) s)
    (hpoisoned : s.poisoned = false) (hseen : s.seenJobIds = (Finset.range j).image numberedHash)
    (hlines : ∃ lines, s.file = joinLines lines ∧ (∀ line ∈ lines, lineFeed ∉ line) ∧
      lines.filterMap (lineField (plainExternal sha256) RecordFields.shareId)
        = (List.range (j * maxSharesPerJob)).map fun m => hexEncode (numberedId sha256 m).data)
    (hbytes : s.bytesWritten ≤ (j * maxSharesPerJob + j) * 1000) : ∃ s', Filled sha256 j 0 s' := by
  have hbytes' : s.bytesWritten ≤ (j * maxSharesPerJob + 0 + j + 1) * 1000 := by
    have hle : j * maxSharesPerJob + j ≤ j * maxSharesPerJob + 0 + j + 1 := by omega
    exact Nat.le_trans hbytes (Nat.mul_le_mul_right _ hle)
  have hheights : ¬ ((numberedJob j).childHeight = 0 ∨ (numberedJob j).parentHeight = 0) :=
    (by decide : ¬ ((7 : UInt32) = 0 ∨ (9 : UInt32) = 0))
  obtain ⟨hline, hfield⟩ := activation_line sha256 j
  have hlength := length_activation_le j
  generalize htext : Json.objectText (activationRecord (numberedJob j) 1700000001).keyed = text
    at hline hfield hlength
  have hnew : numberedHash j ∉ s.seenJobIds := by
    rw [hseen]
    intro hmem
    obtain ⟨m, hm, hsame⟩ := Finset.mem_image.mp hmem
    have hlt := Finset.mem_range.mp hm
    have := numberedHash_injective (by omega) (by omega) hsame
    omega
  have hroom : s.seenJobIds.card < maxJournalGenerations := by
    have hcard : s.seenJobIds.card ≤ j := by
      rw [hseen]
      exact Finset.card_image_le.trans (Finset.card_range j).le
    unfold maxJournalGenerations
    omega
  have hfit : j * maxSharesPerJob + 0 ≤ maxAccountingShares := by
    unfold maxSharesPerJob maxAccountingShares
    omega
  obtain ⟨hfits, hsize⟩ := bytes_fit hfit hbytes' hlength
  have hcall : activateJob (plainExternal sha256) steadyEnv (numberedJob j) s = .ok () { s with
      file := s.file ++ (text ++ [lineFeed])
      bytesWritten := s.bytesWritten + (text.length + 1)
      seenJobIds := insert (numberedHash j) s.seenJobIds
      activeJobAttributions := ∅
      activeWinnerAttributions := ∅
      activeJob := some (numberedJob j) } := by
    have hcapacity : ensureGenerationCapacity s.seenJobIds.card false = .ok () :=
      rejectIf_of_not fun hfull => Nat.not_le_of_lt hroom hfull.2
    unfold activateJob parseJobId
    have hjob : (numberedJob j).jobId = hexEncode (numberedHash j).data := rfl
    have hhash : (numberedJob j).childHashDisplay = hexEncode (numberedHash 51).data := rfl
    rw [hjob, parseJournalId_hexEncode, check_bind_of_ok rfl, hhash,
      check_bind_of_ok (parseCanonicalJournalHex_hexEncode _),
      check_bind_of_ok (rejectIf_of_not hheights), get_bind_run,
      check_bind_of_ok (rejectIf_of_not hnew), check_bind_of_ok hcapacity,
      check_bind_of_ok steadyEnv_reliable.clock,
      check_bind_of_ok (encodeRecord_of_toVec (congrArg _ htext)),
      bind_of_ok (appendSyncedJournalRecord_of_room steadyEnv_reliable hpoisoned hfits hsize)]
    rfl
  have hnext := CoordinatorRun.activated hrun steadyEnv_clockPositive hcall
  refine ⟨_, hnext, rfl, hpoisoned, ?_, rfl, ?_, rfl, ?_, ?_⟩
  · show insert (numberedHash j) s.seenJobIds = _
    rw [hseen, Finset.range_add_one, Finset.image_insert]
  · intro shareId identity hlookup
    cases hlookup
  · obtain ⟨lines, hfile, hnotMem, hids⟩ := hlines
    refine ⟨lines ++ [_], ?_,
      forall_mem_append.mpr ⟨hnotMem, forall_mem_singleton.mpr hline⟩, ?_⟩
    · rw [joinLines_append, ← hfile]
    · rw [filterMap_snoc hids hfield]
      simp
  · show s.bytesWritten + _ ≤ _
    omega

/-- A file system that serves an empty file. -/
def emptyEnv : OpenEnv where
  admission := .ok ()
  permissions := .ok ()
  firstPass := []
  secondPass := []
  rewind := .ok ()
  truncate := .ok ()

/-- The run starts with an empty file and the first job. -/
theorem filled_start (sha256 : Bytes → Hex32) : ∃ s, Filled sha256 0 0 s := by
  have hdone : Delivers False emptyEnv.firstPass [] := .done
  have hdone' : Delivers False emptyEnv.secondPass [] := .done
  have hrun := CoordinatorRun.opened (x := plainExternal sha256) hdone hdone' rfl
  refine filled_activate (Nat.zero_le _) hrun rfl rfl ⟨[], rfl, ?_, rfl⟩ (Nat.zero_le _)
  intro line hline
  cases hline

/-- While the IDs are different, the journal takes share after share. -/
theorem filled_shares (hk : k ≤ maxSharesPerJob)
    (hfit : j * maxSharesPerJob + k ≤ maxAccountingShares + 1)
    (hids : DistinctIds sha256 (j * maxSharesPerJob + k))
    (hstart : ∃ s, Filled sha256 j 0 s) : ∃ s, Filled sha256 j k s := by
  induction k with
  | zero => exact hstart
  | succ k ih =>
    obtain ⟨s, hs⟩ := ih (by omega) (by omega) fun n hn => hids n (by omega)
    exact hs.record (by omega) (by omega) (hids (j * maxSharesPerJob + k) (by omega))

theorem filled_jobs (hj : j ≤ 10)
    (hids : DistinctIds sha256 (j * maxSharesPerJob)) : ∃ s, Filled sha256 j 0 s := by
  induction j with
  | zero => exact filled_start sha256
  | succ j ih =>
    have hsucc : (j + 1) * maxSharesPerJob = j * maxSharesPerJob + maxSharesPerJob := by ring
    have hstart := ih (by omega) fun n hn => hids n (by omega)
    have hfit : j * maxSharesPerJob + maxSharesPerJob ≤ maxAccountingShares + 1 := by
      unfold maxSharesPerJob maxAccountingShares
      omega
    obtain ⟨s, hs⟩ := filled_shares (Nat.le_refl _) hfit (hsucc ▸ hids) hstart
    have hlines := hs.lines
    have hbytes := hs.bytes
    rw [← hsucc] at hlines hbytes
    exact filled_activate hj hs.run hs.poisoned hs.seen hlines (by omega)

theorem Filled.card_shareIds (h : Filled sha256 j k s)
    (hids : DistinctIds sha256 (j * maxSharesPerJob + k)) :
    (shareIds (plainExternal sha256) s.file).card = j * maxSharesPerJob + k := by
  rw [h.shareIds_eq, Finset.card_image_of_injOn, Finset.card_range]
  intro m hm n hn hsame
  have hm := Finset.mem_range.mp hm
  have hn := Finset.mem_range.mp hn
  have hid : numberedId sha256 m = numberedId sha256 n := hexEncode_hash_injective hsame
  rcases Nat.lt_trichotomy m n with hlt | heq | hlt
  · exact absurd hid (hids n hn m hlt)
  · exact heq
  · exact absurd hid.symm (hids m hm n hlt)

end

/-! ## The limit -/

/-- The file of a run is accepted by both readers exactly when it names at
most `maxAccountingShares` different shares. -/
theorem readable_iff_shares_fit (laws : Laws x) (h : CoordinatorRun x s) :
    Readable x s.file ↔ (shareIds x s.file).card ≤ maxAccountingShares := by
  constructor
  · intro hreadable
    exact hreadable.shares_fit
  · intro hfit
    obtain ⟨lines, a, b, hwritten⟩ := h.written laws hfit
    exact hwritten.readable

/-- The SHA-256 digest of the first numbered share. -/
def firstDigest : Hex32 :=
  ⟨[0x50, 0x57, 0x80, 0xc9, 0x41, 0xfc, 0x89, 0x50, 0xfe, 0x30, 0xed, 0x1b, 0x1e, 0x11, 0x03, 0x7a,
    0xcd, 0x78, 0xb9, 0x45, 0xbb, 0x45, 0xcf, 0x57, 0x6e, 0xe0, 0xf7, 0x7c, 0xc0, 0x3c, 0xb0, 0xbe],
    rfl⟩

theorem readable_iff_shares_fit_one_share :
    ∃ s, CoordinatorRun (plainExternal fun _ => firstDigest) s ∧
      (shareIds (plainExternal fun _ => firstDigest) s.file).card = 1 ∧
      Readable (plainExternal fun _ => firstDigest) s.file := by
  have hids : DistinctIds (fun _ => firstDigest) (0 * maxSharesPerJob + 1) := by
    intro n hn m hm
    omega
  obtain ⟨s, hs⟩ := filled_shares (by decide) (by decide) hids (filled_start _)
  have hcard := hs.card_shareIds hids
  refine ⟨s, hs.run, hcard, ?_⟩
  rw [readable_iff_shares_fit (plainExternal_laws _) hs.run, hcard]
  decide

/-- A stand-in for the digest: the last 32 bytes of the message. -/
def tailDigest (message : Bytes) : Hex32 :=
  ⟨(List.replicate 32 0 ++ message).drop message.length, by
    rw [length_drop, length_append, length_replicate, Nat.add_sub_cancel]⟩

/-- Eleven jobs of up to 100,000 shares each, all of which were recorded,
make a file that can no longer be read. -/
theorem overfull_journal_unreadable :
    ∃ s, Laws (plainExternal tailDigest) ∧ CoordinatorRun (plainExternal tailDigest) s ∧
      (shareIds (plainExternal tailDigest) s.file).card = maxAccountingShares + 1 ∧
      ¬ Readable (plainExternal tailDigest) s.file := by
  have hcount : 10 * maxSharesPerJob + 1 = maxAccountingShares + 1 := by decide
  have hids : DistinctIds tailDigest (10 * maxSharesPerJob + 1) := by
    intro n hn m hm hsame
    have hsmall : 10 * maxSharesPerJob + 1 < 256 ^ 32 := by decide
    have heq := numberedHash_injective (Nat.lt_trans (Nat.lt_trans hm hn) hsmall)
      (Nat.lt_trans hn hsmall) hsame
    exact Nat.ne_of_lt hm heq
  have hstart := filled_jobs (Nat.le_refl 10) fun n hn => hids n (Nat.lt_succ_of_lt hn)
  obtain ⟨s, hs⟩ := filled_shares (by decide) (Nat.le_of_eq hcount) hids hstart
  have hcard := (hs.card_shareIds hids).trans hcount
  refine ⟨s, plainExternal_laws _, hs.run, hcard, ?_⟩
  intro hreadable
  have hfit := hreadable.shares_fit
  rw [hcard] at hfit
  exact Nat.not_succ_le_self _ hfit

end Wolf.ShareJournal
