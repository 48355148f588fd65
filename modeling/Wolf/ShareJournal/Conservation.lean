import Wolf.ShareJournal.Accounting

/-! # The share journal: conservation of shares

Every counter of the accounting report is a sum over the distinct
shares of the journal.

* `accounting_conserves`: it holds for every journal that is read. -/

namespace Wolf.ShareJournal

open List Nat

variable {x : External} {s s' : Accounting} {line : Bytes} {label : String}
  {buckets buckets' : HashMap Text Nat} {key text : Text} {share : ImmutableShare}
  {a b snapshot snapshot' c : AccountingSnapshot} {jobId parentHash shareId jobId' : Hex32}
  {record : JournalRecord} {winner : Option ValidatedWinner} {winners : List ValidatedWinner}
  {pendingWinners pendingWinners' : HashMap WinnerKey PendingWinnerStatus}
  {accepted : HashMap Hex32 ImmutableShare}

/-! ## One share in the counters -/

theorem increment_ok {counter count : Nat} (h : increment counter label = .ok count) :
    count = counter + 1 :=
  (checkedAdd_eq_some.mp (okOr_eq_ok.mp h)).2.symm

/-- One bucket is higher by one. -/
def Bumped (key : Text) (buckets buckets' : HashMap Text Nat) : Prop :=
  buckets' = buckets.insert key (valueAt id buckets key + 1)

theorem incrementBucket_ok (h : incrementBucket buckets key label = .ok buckets') :
    Bumped key buckets buckets' := by
  obtain ⟨count, hcount, h⟩ := of_bind h
  rw [increment_ok hcount] at h
  exact (Except.ok.inj h).symm

theorem Bumped.sum (h : Bumped key buckets buckets') :
    sumValues id buckets' = sumValues id buckets + 1 := by
  rw [h]
  exact sumValues_insert_add rfl

/-- No bucket is lower. -/
def BucketsLe (buckets buckets' : HashMap Text Nat) : Prop :=
  ∀ key, valueAt id buckets key ≤ valueAt id buckets' key

theorem Bumped.le (h : Bumped key buckets buckets') : BucketsLe buckets buckets' := by
  intro other
  rw [h]
  by_cases hkey : other = key
  · subst hkey
    rw [valueAt_insert_self]
    exact le_succ _
  · rw [valueAt_insert_ne _ _ hkey]

theorem incrementIf_ok {flag : Bool} {counter count : Nat}
    (h : incrementIf flag counter label = .ok count) : count = counter + flag.toNat := by
  cases flag with
  | true => exact increment_ok h
  | false => exact (Except.ok.inj h).symm

/-- A worker's counters before and after one share. -/
structure WorkerAccounting.Counts (share : ImmutableShare) (w w' : WorkerAccounting) : Prop where
  acceptedShares : w'.acceptedShares = w.acceptedShares + 1
  sharesByAuthentication :
    Bumped share.authentication w.sharesByAuthentication w'.sharesByAuthentication
  wcashWinners : w'.wcashWinners = w.wcashWinners + share.wcashCandidate.toNat
  zcashWinners : w'.zcashWinners = w.zcashWinners + share.zcashCandidate.toNat
  sharesByTarget : Bumped share.shareTarget w.sharesByTarget w'.sharesByTarget

theorem WorkerAccounting.applyShare_ok {w w' : WorkerAccounting} (h : w.applyShare share = .ok w') :
    WorkerAccounting.Counts share w w' := by
  obtain ⟨_, haccepted, h⟩ := of_bind h
  obtain ⟨_, hauthentication, h⟩ := of_bind h
  obtain ⟨_, hwcash, h⟩ := of_bind h
  obtain ⟨_, hzcash, h⟩ := of_bind h
  obtain ⟨_, htarget, h⟩ := of_bind h
  cases h
  exact ⟨increment_ok haccepted, incrementBucket_ok hauthentication, incrementIf_ok hwcash,
    incrementIf_ok hzcash, incrementBucket_ok htarget⟩

/-- The counters of a worker, all zero if it has no entry. -/
def AccountingSnapshot.worker (snapshot : AccountingSnapshot) (name : Text) : WorkerAccounting :=
  (snapshot.workers.lookup name).getD {}

/-- A report before and after one share. -/
structure AccountingSnapshot.Counts (share : ImmutableShare) (a b : AccountingSnapshot) :
    Prop where
  acceptedShares : b.acceptedShares = a.acceptedShares + 1
  sharesByAuthentication :
    Bumped share.authentication a.sharesByAuthentication b.sharesByAuthentication
  worker : ∃ w', WorkerAccounting.Counts share (a.worker share.worker) w' ∧
    b.workers = a.workers.insert share.worker w'

theorem applyShare_ok (h : applyShare snapshot share = .ok snapshot') :
    AccountingSnapshot.Counts share snapshot snapshot' := by
  obtain ⟨_, haccepted, h⟩ := of_bind h
  obtain ⟨_, hauthentication, h⟩ := of_bind h
  obtain ⟨w', hworker, h⟩ := of_bind h
  cases h
  exact ⟨increment_ok haccepted, incrementBucket_ok hauthentication, w',
    WorkerAccounting.applyShare_ok hworker, rfl⟩

/-- A quantity of a worker that moves by `d share` sums to one that does. -/
theorem AccountingSnapshot.Counts.sum_workers (h : AccountingSnapshot.Counts share a b)
    (f : WorkerAccounting → Nat) (d : Nat) (hzero : f {} = 0)
    (hstep : ∀ w w', WorkerAccounting.Counts share w w' → f w' = f w + d) :
    sumValues f b.workers = sumValues f a.workers + d := by
  obtain ⟨w', hcounts, hworkers⟩ := h.worker
  rw [hworkers]
  refine sumValues_insert_add ?_
  rw [hstep _ _ hcounts]
  unfold AccountingSnapshot.worker valueAt
  cases a.workers.lookup share.worker with
  | none => simp [hzero]
  | some w => rfl

/-! ## The counters are sums over the accepted shares -/

/-- The counters of a report against the shares it counted. -/
structure Balanced (accepted : HashMap Hex32 ImmutableShare) (snapshot : AccountingSnapshot) :
    Prop where
  total : snapshot.acceptedShares = sumValues (fun _ => 1) accepted
  sharesByAuthentication : sumValues id snapshot.sharesByAuthentication = snapshot.acceptedShares
  workers : sumValues WorkerAccounting.acceptedShares snapshot.workers = snapshot.acceptedShares
  workersByAuthentication :
    sumValues (fun w => sumValues id w.sharesByAuthentication) snapshot.workers
      = snapshot.acceptedShares
  workersByTarget :
    sumValues (fun w => sumValues id w.sharesByTarget) snapshot.workers = snapshot.acceptedShares
  wcashWinners : sumValues WorkerAccounting.wcashWinners snapshot.workers
    = sumValues (fun share => share.wcashCandidate.toNat) accepted
  zcashWinners : sumValues WorkerAccounting.zcashWinners snapshot.workers
    = sumValues (fun share => share.zcashCandidate.toNat) accepted

theorem balanced_init : Balanced ∅ {} := by
  constructor <;> rfl

/-- Step lemma. -/
theorem Balanced.step (h : Balanced accepted a) (hcounts : AccountingSnapshot.Counts share a b)
    (hnew : accepted.lookup shareId = none) : Balanced (accepted.insert shareId share) b := by
  -- A new share adds its own value to every sum over the shares.
  have hsum : ∀ f : ImmutableShare → Nat,
      sumValues f (accepted.insert shareId share) = sumValues f accepted + f share := by
    intro f
    refine sumValues_insert_add ?_
    unfold valueAt
    rw [hnew]
    exact (zero_add _).symm
  constructor
  · rw [hcounts.acceptedShares, hsum, h.total]
  · rw [hcounts.sharesByAuthentication.sum, h.sharesByAuthentication, hcounts.acceptedShares]
  · rw [hcounts.sum_workers _ 1 rfl fun _ _ hw => hw.acceptedShares, h.workers,
      hcounts.acceptedShares]
  · rw [hcounts.sum_workers _ 1 rfl fun _ _ hw => hw.sharesByAuthentication.sum,
      h.workersByAuthentication, hcounts.acceptedShares]
  · rw [hcounts.sum_workers _ 1 rfl fun _ _ hw => hw.sharesByTarget.sum, h.workersByTarget,
      hcounts.acceptedShares]
  · rw [hcounts.sum_workers _ _ rfl fun _ _ hw => hw.wcashWinners, h.wcashWinners, hsum]
  · rw [hcounts.sum_workers _ _ rfl fun _ _ hw => hw.zcashWinners, h.zcashWinners, hsum]

/-! ## What a line names -/

theorem hexEncode_hash_injective {a b : Hex32} (h : hexEncode a.data = hexEncode b.data) :
    a = b := by
  have hdecoded := congrArg hexDecode h
  simp only [hexDecode_hexEncode, Option.some.injEq] at hdecoded
  exact FixedBytes.ext hdecoded

/-- A field of the record on a line. -/
def lineField {α : Type} (x : External) (read : JournalRecord → Option α) (line : Bytes) :
    Option α :=
  match fromSlice x JournalRecord.ofJson line with
  | .ok record => read record
  | .error _ => none

/-- The share ID of a record that carries a flag. -/
def flaggedId (flag : JournalRecord → Option Bool) (record : JournalRecord) : Option Text :=
  if flag record = some true then record.shareId else none

theorem readJournalRecord_ok (h : readJournalRecord x line = .ok (record, jobId)) :
    fromSlice x JournalRecord.ofJson line = .ok record ∧ record.version = journalVersion ∧
      record.jobId = hexEncode jobId.data := by
  obtain ⟨r, hr, h⟩ := of_mapErr_bind h
  obtain ⟨hversion, h⟩ := of_require_bind h
  obtain ⟨id, hid, h⟩ := of_bind h
  cases h
  exact ⟨hr, hversion,
    validateCanonicalHex_eq_ok.mp hid⟩

theorem lineField_of_record {α : Type} (read : JournalRecord → Option α)
    (h : readJournalRecord x line = .ok (record, jobId)) : lineField x read line = read record := by
  unfold lineField
  rw [(readJournalRecord_ok h).1]

theorem lineField_flaggedId {flag : JournalRecord → Option Bool}
    (h : lineField x (flaggedId flag) line = some text) :
    lineField x RecordFields.shareId line = some text ∧ lineField x flag line = some true := by
  unfold lineField at h ⊢
  cases hrecord : fromSlice x JournalRecord.ofJson line with
  | error e =>
    rw [hrecord] at h
    cases h
  | ok record =>
    rw [hrecord] at h
    simp only [flaggedId, Option.ite_none_right_eq_some] at h
    exact ⟨h.2, h.1⟩

/-- What the checks of a share record have found. -/
theorem readShareLine_ok {share : ShareLine} (h : readShareLine x record = .ok share) :
    ∃ immutable fingerprint, ShareChecked record immutable ∧
      record.shareId = some (hexEncode share.shareId.data) ∧
      validateWinnerBlocks x record share.shareId = .ok (share.winners, fingerprint) ∧
      share.immutable = { immutable with winnerFingerprint := fingerprint } := by
  obtain ⟨immutable, himmutable, h⟩ := of_bind h
  obtain ⟨shareId, hshareId, h⟩ := of_bind h
  obtain ⟨⟨winners, fingerprint⟩, hwinners, h⟩ := of_bind h
  cases h
  obtain ⟨text, htext, hshareId⟩ := of_okOr_bind hshareId
  obtain ⟨actual, hactual, hshareId⟩ := of_bind hshareId
  obtain ⟨_, _, hshareId⟩ := of_two_binds hshareId
  cases hshareId
  refine ⟨immutable, fingerprint, immutableShare_ok himmutable, ?_, hwinners, rfl⟩
  rw [← validateCanonicalHex_eq_ok.mp hactual]
  exact htext

theorem HoldsShare.lineFields {share : ShareLine} (h : HoldsShare x line jobId share) :
    lineField x RecordFields.shareId line = some (hexEncode share.shareId.data) ∧
      lineField x RecordFields.wcashCandidate line = some share.immutable.wcashCandidate ∧
      lineField x RecordFields.zcashCandidate line = some share.immutable.zcashCandidate := by
  obtain ⟨record, hrecord, _, hread⟩ := h
  obtain ⟨immutable, _, hchecked, hid, _, himmutable⟩ := readShareLine_ok hread
  simp only [lineField_of_record _ hrecord, himmutable]
  exact ⟨hid, hchecked.wcashCandidate, hchecked.zcashCandidate⟩

/-- A line holds at most one share. -/
theorem HoldsShare.unique {share share' : ShareLine} (h : HoldsShare x line jobId share)
    (h' : HoldsShare x line jobId' share') : jobId = jobId' ∧ share = share' := by
  obtain ⟨record, hrecord, _, hread⟩ := h
  obtain ⟨record', hrecord', _, hread'⟩ := h'
  cases hrecord.symm.trans hrecord'
  cases hread.symm.trans hread'
  exact ⟨rfl, rfl⟩

/-- A record of another kind holds no share. -/
theorem not_holdsShare {kind : RecordKind}
    (hrecord : readJournalRecord x line = .ok (record, jobId))
    (hkind : RecordKind.ofName record.record = some kind) (hne : kind ≠ .acceptedShare)
    (hne' : kind ≠ .winnerOutbox) (share : ShareLine) : ¬ HoldsShare x line jobId' share := by
  rintro ⟨record', hrecord', hkind', _⟩
  cases hrecord.symm.trans hrecord'
  simp [hkind, hne, hne'] at hkind'

/-! ## The lines name the accepted shares -/

/-- The texts that the lines give are the IDs of the accepted shares that
satisfy `p`. -/
def Names (x : External) (read : JournalRecord → Option Text) (p : ImmutableShare → Bool)
    (lines : List Bytes) (accepted : HashMap Hex32 ImmutableShare) : Prop :=
  ∀ text, text ∈ lines.filterMap (lineField x read) ↔
    ∃ shareId share, accepted.lookup shareId = some share ∧ p share = true ∧
      text = hexEncode shareId.data

section

variable {read : JournalRecord → Option Text} {p : ImmutableShare → Bool} {lines : List Bytes}

theorem names_init : Names x read p [] ∅ := by
  intro text
  simp

theorem mem_filterMap_append :
    text ∈ (lines ++ [line]).filterMap (lineField x read) ↔
      text ∈ lines.filterMap (lineField x read) ∨ lineField x read line = some text := by
  simp

/-- A line that names no other share. -/
theorem Names.keep (h : Names x read p lines accepted)
    (hline : ∀ text, lineField x read line = some text →
      ∃ shareId share, accepted.lookup shareId = some share ∧ p share = true ∧
        text = hexEncode shareId.data) : Names x read p (lines ++ [line]) accepted := by
  intro text
  rw [mem_filterMap_append, h text]
  constructor
  · rintro (hold | hnew)
    · exact hold
    · exact hline text hnew
  · exact .inl

/-- A line that names a new share. -/
theorem Names.insert (h : Names x read p lines accepted) {shareId : Hex32} {share : ImmutableShare}
    (hnew : accepted.lookup shareId = none)
    (hline : lineField x read line = if p share then some (hexEncode shareId.data) else none) :
    Names x read p (lines ++ [line]) (accepted.insert shareId share) := by
  intro text
  rw [mem_filterMap_append, h text, hline]
  constructor
  · rintro (⟨other, old, hold, hp, htext⟩ | hthis)
    · exact ⟨other, old, lookup_insert_of_new hnew hold, hp, htext⟩
    · by_cases hp : p share = true
      · rw [if_pos hp] at hthis
        exact ⟨shareId, share, AList.lookup_insert _, hp, (Option.some.inj hthis).symm⟩
      · rw [if_neg hp] at hthis
        cases hthis
  · rintro ⟨other, old, hold, hp, htext⟩
    rcases lookup_insert_some hold with ⟨rfl, rfl⟩ | hold
    · rw [if_pos hp]
      exact .inr (congrArg some htext.symm)
    · exact .inl ⟨other, old, hold, hp, htext⟩

/-- The number of different texts is the number of those shares. -/
theorem Names.card (h : Names x read p lines accepted) :
    (lines.filterMap (lineField x read)).toFinset.card
      = sumValues (fun share => (p share).toNat) accepted := by
  have himage : (lines.filterMap (lineField x read)).toFinset
      = (keysWhere p accepted).image fun shareId => hexEncode shareId.data := by
    ext text
    rw [mem_toFinset, h text, Finset.mem_image]
    simp only [mem_keysWhere]
    constructor
    · rintro ⟨shareId, share, hlookup, hp, htext⟩
      exact ⟨shareId, ⟨share, hlookup, hp⟩, htext.symm⟩
    · rintro ⟨shareId, ⟨share, hlookup, hp⟩, htext⟩
      exact ⟨shareId, share, hlookup, hp, htext.symm⟩
  rw [himage, Finset.card_image_of_injective _ fun _ _ => hexEncode_hash_injective,
    sumValues_toNat]

end

/-! ## The invariant of the replay -/

/-- What holds after the replay of `lines`. -/
structure Conserved (x : External) (lines : List Bytes) (s : Accounting) : Prop where
  balanced : Balanced s.accepted s.snapshot
  ids : Names x RecordFields.shareId (fun _ => true) lines s.accepted
  wcash : Names x (flaggedId RecordFields.wcashCandidate) ImmutableShare.wcashCandidate lines
    s.accepted
  zcash : Names x (flaggedId RecordFields.zcashCandidate) ImmutableShare.zcashCandidate lines
    s.accepted
  pending : ∀ key status, s.pendingWinners.lookup key = some status →
    ∃ share, s.accepted.lookup key.shareId = some share
  /-- A share line that was replayed is known. -/
  known : ∀ line ∈ lines, ∀ jobId share, HoldsShare x line jobId share →
    jobId ∈ s.usedJobs ∧ s.accepted.lookup share.shareId = some share.immutable

theorem conserved_init : Conserved x [] {} := by
  constructor
  · exact balanced_init
  · exact names_init
  · exact names_init
  · exact names_init
  · intro key status h
    cases h
  · intro line hline
    cases hline

/-- A winner that a record carries enters the outbox under the share's ID,
with the job, the block hash and one of the heights of the record. -/
structure WinnerOf (record : JournalRecord) (shareId : Hex32) (winner : ValidatedWinner) :
    Prop where
  key : winner.key.shareId = shareId
  jobId : winner.status.jobId = record.jobId
  blockHash : ∃ hash : Hex32, winner.status.blockHash = hexEncode hash.data
  height : positive record.wcashHeight = some winner.status.height ∨
    positive record.zcashHeight = some winner.status.height
  observed : winner.status.observed = false
  conflictingWitness : winner.status.conflictingWitness = false

theorem validateWinnerBlock_ok {key : WinnerKey} {blockHash : Text} {height : Option Nat}
    {block : Option Text} {winner : ValidatedWinner}
    (h : validateWinnerBlock x record parentHash key blockHash height block = .ok winner) :
    ∃ n, positive height = some n ∧ winner.key = key ∧
      winner.status = ⟨record.jobId, blockHash, n, false, false⟩ := by
  obtain ⟨n, hn, h⟩ := of_okOr_bind h
  obtain ⟨_, _, h⟩ := of_two_binds h
  obtain ⟨_, _, h⟩ := of_two_binds h
  cases h
  exact ⟨n, hn, rfl, rfl⟩

theorem validateCandidate_ok {P : ValidatedWinner → Prop} {candidate : Option Bool}
    {block : Option Text} {chain : WinnerChain} {result : Result ValidatedWinner}
    (h : validateCandidate candidate block chain result = .ok winner)
    (hresult : ∀ entry, result = .ok entry → P entry) : ∀ entry ∈ winner, P entry := by
  unfold validateCandidate at h
  split at h
  · obtain ⟨entry, hentry, h⟩ := of_bind h
    cases h
    intro other hother
    cases hother
    exact hresult entry hentry
  · obtain ⟨_, _, h⟩ := of_bind h
    cases h
    intro other hother
    cases hother

theorem validateWcashWinner_ok (h : validateWcashWinner x record parentHash shareId = .ok winner) :
    ∀ entry ∈ winner, WinnerOf record shareId entry := by
  refine validateCandidate_ok h ?_
  intro entry hentry
  obtain ⟨_, _, hentry⟩ := of_bind hentry
  obtain ⟨hash, hhash, hentry⟩ := of_bind hentry
  obtain ⟨n, hn, hkey, hstatus⟩ := validateWinnerBlock_ok hentry
  constructor <;> simp only [hkey, hstatus]
  · exact ⟨hash, validateCanonicalHex_eq_ok.mp hhash⟩
  · exact .inl hn

theorem validateZcashWinner_ok (h : validateZcashWinner x record parentHash shareId = .ok winner) :
    ∀ entry ∈ winner, WinnerOf record shareId entry := by
  refine validateCandidate_ok h ?_
  intro entry hentry
  obtain ⟨n, hn, hkey, hstatus⟩ := validateWinnerBlock_ok hentry
  constructor <;> simp only [hkey, hstatus]
  · exact ⟨_, rfl⟩
  · exact .inr hn

theorem validateWinnerBlocks_ok {fingerprint : Option Hex32}
    (h : validateWinnerBlocks x record shareId = .ok (winners, fingerprint)) :
    ∀ winner ∈ winners, WinnerOf record shareId winner := by
  unfold validateWinnerBlocks at h
  split at h
  · obtain ⟨_, _, h⟩ := of_bind h
    cases h
    intro winner hwinner
    cases hwinner
  · obtain ⟨_, _, h⟩ := of_two_binds h
    obtain ⟨wcash, hwcash, h⟩ := of_bind h
    obtain ⟨zcash, hzcash, h⟩ := of_bind h
    obtain ⟨_, _, h⟩ := of_bind h
    cases h
    intro winner hwinner
    rcases mem_append.mp hwinner with hwinner | hwinner
    · exact validateWcashWinner_ok hwcash winner (Option.mem_toList.mp hwinner)
    · exact validateZcashWinner_ok hzcash winner (Option.mem_toList.mp hwinner)

theorem HoldsShare.winners_key {share : ShareLine} (h : HoldsShare x line jobId share) :
    ∀ winner ∈ share.winners, winner.key.shareId = share.shareId := by
  obtain ⟨record, _, _, hread⟩ := h
  obtain ⟨_, _, _, _, hwinners, _⟩ := readShareLine_ok hread
  exact fun winner hwinner => (validateWinnerBlocks_ok hwinners winner hwinner).key

/-- An entry of the outbox was there before or is a winner of the share. -/
theorem insertWinners_lookup (h : insertWinners pendingWinners winners = .ok pendingWinners') :
    ∀ key status, pendingWinners'.lookup key = some status →
      pendingWinners.lookup key = some status ∨
        ∃ winner ∈ winners, winner.key = key ∧ winner.status = status := by
  refine foldlM_induct (P := fun done map => ∀ key status, map.lookup key = some status →
    pendingWinners.lookup key = some status ∨
      ∃ winner ∈ done, winner.key = key ∧ winner.status = status) ?_ ?_ h
  · intro key status hlookup
    exact .inl hlookup
  · intro done winner map map' hmap hbody key status hlookup
    obtain ⟨_, _, hbody⟩ := of_bind hbody
    cases hbody
    rcases lookup_insert_some hlookup with ⟨rfl, rfl⟩ | hlookup
    · exact .inr ⟨winner, mem_append_right _ mem_cons_self, rfl, rfl⟩
    · rcases hmap key status hlookup with hold | ⟨other, hother, hwinner⟩
      · exact .inl hold
      · exact .inr ⟨other, mem_append_left _ hother, hwinner⟩

section

variable {lines : List Bytes}

/-- A line that changes neither the shares nor the counters. -/
theorem Conserved.keep (h : Conserved x lines s)
    (haccepted : s'.accepted = s.accepted) (hsnapshot : s'.snapshot = s.snapshot)
    (hused : s.usedJobs ⊆ s'.usedJobs)
    (hpending : ∀ key status, s'.pendingWinners.lookup key = some status →
      ∃ before, s.pendingWinners.lookup key = some before)
    (hid : ∀ text, lineField x RecordFields.shareId line = some text →
      ∃ shareId share, s.accepted.lookup shareId = some share ∧ text = hexEncode shareId.data ∧
        (lineField x RecordFields.wcashCandidate line = some true → share.wcashCandidate = true) ∧
        (lineField x RecordFields.zcashCandidate line = some true → share.zcashCandidate = true))
    (hknown : ∀ jobId share, HoldsShare x line jobId share →
      jobId ∈ s'.usedJobs ∧ s.accepted.lookup share.shareId = some share.immutable) :
    Conserved x (lines ++ [line]) s' := by
  constructor
  · rw [haccepted, hsnapshot]
    exact h.balanced
  · rw [haccepted]
    refine h.ids.keep ?_
    intro text htext
    obtain ⟨shareId, share, hlookup, hhex, _, _⟩ := hid text htext
    exact ⟨shareId, share, hlookup, rfl, hhex⟩
  · rw [haccepted]
    refine h.wcash.keep ?_
    intro text htext
    obtain ⟨htext, hflag⟩ := lineField_flaggedId htext
    obtain ⟨shareId, share, hlookup, hhex, hwcash, _⟩ := hid text htext
    exact ⟨shareId, share, hlookup, hwcash hflag, hhex⟩
  · rw [haccepted]
    refine h.zcash.keep ?_
    intro text htext
    obtain ⟨htext, hflag⟩ := lineField_flaggedId htext
    obtain ⟨shareId, share, hlookup, hhex, _, hzcash⟩ := hid text htext
    exact ⟨shareId, share, hlookup, hzcash hflag, hhex⟩
  · intro key status hstatus
    obtain ⟨before, hbefore⟩ := hpending key status hstatus
    rw [haccepted]
    exact h.pending key before hbefore
  · intro other hother jobId share hshare
    rw [haccepted]
    rcases mem_append.mp hother with hother | hother
    · obtain ⟨hjob, hlookup⟩ := h.known other hother jobId share hshare
      exact ⟨hused hjob, hlookup⟩
    · rw [mem_singleton.mp hother] at hshare
      exact hknown jobId share hshare

/-- A line that adds a share. -/
theorem Conserved.accept (h : Conserved x lines s) {share : ShareLine}
    (hshare : HoldsShare x line jobId share) (hnew : s.accepted.lookup share.shareId = none)
    (hsnapshot : applyShare s.snapshot share.immutable = .ok snapshot)
    (hwinners : insertWinners s.pendingWinners share.winners = .ok pendingWinners) :
    Conserved x (lines ++ [line])
      { accepted := s.accepted.insert share.shareId share.immutable, pendingWinners
        usedJobs := insert jobId s.usedJobs, snapshot } := by
  obtain ⟨hid, hwcash, hzcash⟩ := hshare.lineFields
  have hflagged : ∀ {flag : JournalRecord → Option Bool} {b : Bool},
      lineField x flag line = some b →
      lineField x (flaggedId flag) line =
        if b then some (hexEncode share.shareId.data) else none := by
    intro flag b hflag
    unfold lineField at hid hflag ⊢
    cases hrecord : fromSlice x JournalRecord.ofJson line with
    | error e =>
      rw [hrecord] at hid
      cases hid
    | ok record =>
      rw [hrecord] at hid hflag
      simp only [flaggedId, hid, hflag, Option.some.injEq]
  constructor
  · exact h.balanced.step (applyShare_ok hsnapshot) hnew
  · exact h.ids.insert hnew (by simpa using hid)
  · exact h.wcash.insert hnew (hflagged hwcash)
  · exact h.zcash.insert hnew (hflagged hzcash)
  · intro key status hstatus
    rcases insertWinners_lookup hwinners key status hstatus with hold | ⟨winner, hmem, rfl, _⟩
    · obtain ⟨old, hlookup⟩ := h.pending key status hold
      exact ⟨old, lookup_insert_of_new hnew hlookup⟩
    · rw [hshare.winners_key winner hmem]
      exact ⟨_, AList.lookup_insert _⟩
  · intro other hother job' share' hother'
    rcases mem_append.mp hother with hother | hother
    · obtain ⟨hjob, hlookup⟩ := h.known other hother job' share' hother'
      exact ⟨Finset.mem_insert_of_mem hjob, lookup_insert_of_new hnew hlookup⟩
    · rw [mem_singleton.mp hother] at hother'
      obtain ⟨rfl, rfl⟩ := hshare.unique hother'
      exact ⟨Finset.mem_insert_self _ _, AList.lookup_insert _⟩

/-- Step lemma. -/
theorem Conserved.step (h : Conserved x lines s) (hline : LineEffect x s line s') :
    Conserved x (lines ++ [line]) s' := by
  cases hline with
  | @activated record jobId hrecord hkind hvalid hnew hroom hs' =>
    subst hs'
    have hid : record.shareId = none := by
      obtain ⟨hclean, _⟩ := of_rejectIf_bind hvalid
      simp only [activationMalformed, not_or] at hclean
      simpa using hclean.2.2.2.1
    refine h.keep rfl rfl (Finset.subset_insert _ _) (fun key status h => ⟨status, h⟩) ?_ ?_
    · intro text htext
      rw [lineField_of_record _ hrecord, hid] at htext
      cases htext
    · intro job' share hshare
      exact absurd hshare
        (not_holdsShare hrecord hkind RecordKind.noConfusion RecordKind.noConfusion _)
  | @repeated jobId share hshare hroom hknown hs' =>
    subst hs'
    obtain ⟨hid, hwcash, hzcash⟩ := hshare.lineFields
    refine h.keep rfl rfl (Finset.subset_insert _ _) (fun key status h => ⟨status, h⟩) ?_ ?_
    · intro text htext
      rw [hid] at htext
      rw [hwcash, hzcash]
      exact ⟨share.shareId, share.immutable, hknown, (Option.some.inj htext).symm,
        Option.some.inj, Option.some.inj⟩
    · intro job' share' hshare'
      obtain ⟨rfl, rfl⟩ := hshare.unique hshare'
      exact ⟨Finset.mem_insert_self _ _, hknown⟩
  | accepted hshare hroom hnew hcount hsnapshot hwinners hs' =>
    subst hs'
    exact h.accept hshare hnew hsnapshot hwinners
  | @status record jobId status pendingWinners hrecord hkind hstatus hs' =>
    subst hs'
    obtain ⟨key, pending, updated, hchecked, rfl⟩ := applyWinnerStatus_ok hstatus
    have hclean := hchecked.clean
    simp only [statusMalformed, not_or, Bool.not_eq_true, Option.isSome_eq_false_iff,
      Option.isNone_iff_eq_none] at hclean
    obtain ⟨_, _, _, _, _, _, _, hwcash, hzcash, _⟩ := hclean
    refine h.keep rfl rfl (Finset.Subset.refl _) (fun other status hother => ?_) ?_ ?_
    · -- A status leaves no entry that was not there.
      by_cases hkey : other = key
      · exact ⟨pending, hkey ▸ hchecked.entry⟩
      · exact ⟨status, (lookup_putBack_ne hkey updated).symm.trans hother⟩
    · intro text htext
      rw [lineField_of_record _ hrecord, hchecked.shareId] at htext
      obtain ⟨share, hlookup⟩ := h.pending key pending hchecked.entry
      rw [lineField_of_record _ hrecord, lineField_of_record _ hrecord, hwcash, hzcash]
      exact ⟨key.shareId, share, hlookup, (Option.some.inj htext).symm, nofun, nofun⟩
    · intro job' share hshare
      exact absurd hshare
        (not_holdsShare hrecord hkind RecordKind.noConfusion RecordKind.noConfusion _)

/-- Run lemma. -/
theorem conserved_of_folds (h : lines.foldlM (Accounting.applyLine x) {} = .ok s) :
    Conserved x lines s :=
  foldlM_induct conserved_init (fun hs hbody => hs.step (applyLine_effect hbody)) h

end

/-! ## Shorter journals -/

/-- No counter of a worker is lower. -/
structure WorkerAccounting.Le (a b : WorkerAccounting) : Prop where
  acceptedShares : a.acceptedShares ≤ b.acceptedShares
  sharesByAuthentication : BucketsLe a.sharesByAuthentication b.sharesByAuthentication
  wcashWinners : a.wcashWinners ≤ b.wcashWinners
  zcashWinners : a.zcashWinners ≤ b.zcashWinners
  sharesByTarget : BucketsLe a.sharesByTarget b.sharesByTarget

/-- No counter of a report is lower. -/
structure AccountingSnapshot.Le (a b : AccountingSnapshot) : Prop where
  acceptedShares : a.acceptedShares ≤ b.acceptedShares
  sharesByAuthentication : BucketsLe a.sharesByAuthentication b.sharesByAuthentication
  worker : ∀ name, WorkerAccounting.Le (a.worker name) (b.worker name)

theorem BucketsLe.refl (buckets : HashMap Text Nat) : BucketsLe buckets buckets :=
  fun _ => le_refl _

theorem BucketsLe.trans {a b c : HashMap Text Nat} (hab : BucketsLe a b) (hbc : BucketsLe b c) :
    BucketsLe a c :=
  fun key => le_trans (hab key) (hbc key)

theorem WorkerAccounting.Le.refl (w : WorkerAccounting) : WorkerAccounting.Le w w :=
  ⟨le_refl _, .refl _, le_refl _, le_refl _, .refl _⟩

theorem WorkerAccounting.Le.trans {a b c : WorkerAccounting} (hab : WorkerAccounting.Le a b)
    (hbc : WorkerAccounting.Le b c) : WorkerAccounting.Le a c where
  acceptedShares := le_trans hab.acceptedShares hbc.acceptedShares
  sharesByAuthentication := hab.sharesByAuthentication.trans hbc.sharesByAuthentication
  wcashWinners := le_trans hab.wcashWinners hbc.wcashWinners
  zcashWinners := le_trans hab.zcashWinners hbc.zcashWinners
  sharesByTarget := hab.sharesByTarget.trans hbc.sharesByTarget

theorem AccountingSnapshot.Le.refl (a : AccountingSnapshot) : AccountingSnapshot.Le a a :=
  ⟨le_refl _, .refl _, fun _ => .refl _⟩

theorem AccountingSnapshot.Le.trans (hab : AccountingSnapshot.Le a b)
    (hbc : AccountingSnapshot.Le b c) : AccountingSnapshot.Le a c where
  acceptedShares := le_trans hab.acceptedShares hbc.acceptedShares
  sharesByAuthentication := hab.sharesByAuthentication.trans hbc.sharesByAuthentication
  worker name := (hab.worker name).trans (hbc.worker name)

theorem WorkerAccounting.Counts.le {w w' : WorkerAccounting}
    (h : WorkerAccounting.Counts share w w') : WorkerAccounting.Le w w' where
  acceptedShares := by
    rw [h.acceptedShares]
    exact le_succ _
  sharesByAuthentication := h.sharesByAuthentication.le
  wcashWinners := by
    rw [h.wcashWinners]
    exact le_add_right _ _
  zcashWinners := by
    rw [h.zcashWinners]
    exact le_add_right _ _
  sharesByTarget := h.sharesByTarget.le

theorem AccountingSnapshot.Counts.le (h : AccountingSnapshot.Counts share a b) :
    AccountingSnapshot.Le a b where
  acceptedShares := by
    rw [h.acceptedShares]
    exact le_succ _
  sharesByAuthentication := h.sharesByAuthentication.le
  worker name := by
    obtain ⟨w', hcounts, hworkers⟩ := h.worker
    by_cases hname : name = share.worker
    · have hw' : b.worker name = w' := by
        unfold AccountingSnapshot.worker
        rw [hworkers, hname, AList.lookup_insert]
        rfl
      rw [hw', hname]
      exact hcounts.le
    · have hsame : b.worker name = a.worker name := by
        unfold AccountingSnapshot.worker
        rw [hworkers, AList.lookup_insert_ne hname]
      rw [hsame]
      exact .refl _

/-- Step lemma. -/
theorem LineEffect.le (h : LineEffect x s line s') :
    AccountingSnapshot.Le s.snapshot s'.snapshot := by
  cases h with
  | activated _ _ _ _ _ hs' | repeated _ _ _ hs' | status _ _ _ hs' =>
    rw [hs']
    exact .refl _
  | accepted _ _ _ _ hsnapshot _ hs' =>
    rw [hs']
    exact (applyShare_ok hsnapshot).le

/-- Run lemma. -/
theorem le_of_folds {lines : List Bytes} (h : lines.foldlM (Accounting.applyLine x) s = .ok s') :
    AccountingSnapshot.Le s.snapshot s'.snapshot :=
  foldlM_induct (P := fun _ next => AccountingSnapshot.Le s.snapshot next.snapshot) (.refl _)
    (fun hle hbody => hle.trans (applyLine_effect hbody).le) h

/-! ## Journals -/

/-- The content replays to `s`. -/
def Replays (x : External) (content : Bytes) (s : Accounting) : Prop :=
  ∃ tail, FoldsLines lineFeed maxJournalRecordBytes (Accounting.applyLine x) content {} s tail

section

variable {faults : Prop} {reader : Reader UInt8 String} {content : Bytes} {line : Bytes}

theorem replays_of_read (hd : Delivers faults reader content)
    (h : readAccountingSnapshotFromReader x reader = .ok snapshot) :
    ∃ s, Replays x content s ∧ s.snapshot = snapshot := by
  obtain ⟨⟨s, tail⟩, hloop, h⟩ := of_bind h
  exact ⟨s, ⟨tail, forLines_ok hd hloop⟩, Except.ok.inj h⟩

theorem Replays.read (h : Replays x content s) (hd : Delivers False reader content) :
    readAccountingSnapshotFromReader x reader = .ok s.snapshot := by
  obtain ⟨tail, hfolds⟩ := h
  unfold readAccountingSnapshotFromReader replayAccounting
  rw [(forLines_eq_ok hd).mpr hfolds]
  rfl

/-- A prefix replays, to a state from which the rest of the lines lead on. -/
theorem Replays.cut (h : Replays x content s) {content' : Bytes} (hpre : content' <+: content) :
    ∃ mid, Replays x content' mid ∧ AccountingSnapshot.Le mid.snapshot s.snapshot := by
  obtain ⟨tail, hfolds⟩ := h
  have hsplit : (splitLines lineFeed content').1 <+: (splitLines lineFeed content).1 :=
    (splitLines_cut hpre).1
  obtain ⟨rest, hrest⟩ := hsplit
  have hall := hfolds.folds
  rw [← hrest, foldlM_append] at hall
  obtain ⟨mid, hmid, hlater⟩ := of_bind hall
  refine ⟨mid, ⟨_, ?_, rfl, ?_, hmid⟩, le_of_folds hlater⟩
  · intro line hline
    refine hfolds.fits line ?_
    rw [← hrest]
    exact mem_append_left _ hline
  · refine (splitLines_cut hpre).2 _ hfolds.fits ?_
    rw [hfolds.tail_eq]
    exact hfolds.tail_fits

/-- A text that ends with a complete line, or is empty. -/
def Complete (content : Bytes) : Prop := (splitLines lineFeed content).2 = []

theorem splitLines_of_complete {a : Bytes} (h : Complete a) (b : Bytes) :
    splitLines lineFeed (a ++ b)
      = ((splitLines lineFeed a).1 ++ (splitLines lineFeed b).1, (splitLines lineFeed b).2) := by
  rw [splitLines_append, h, nil_append]

/-- A share line of `before`, repeated behind it. -/
theorem Replays.again {before after : Bytes} (h : Replays x (before ++ after) s)
    (hcomplete : Complete before) (hline : line ∈ (splitLines lineFeed before).1)
    {share : ShareLine} (hshare : HoldsShare x line jobId share) :
    Replays x (before ++ (line ++ lineFeed :: after)) s := by
  obtain ⟨tail, hfits, htail, htailFits, hfolds⟩ := h
  rw [splitLines_of_complete hcomplete] at hfits htail hfolds
  have hsplit := splitLines_of_complete hcomplete (line ++ lineFeed :: after)
  rw [splitLines_line _ (splitLines_notMem line hline)] at hsplit
  rw [foldlM_append] at hfolds
  obtain ⟨mid, hmid, hlater⟩ := of_bind hfolds
  refine ⟨tail, ?_, ?_, htailFits, ?_⟩
  · rw [forall_mem_append] at hfits
    rw [hsplit, forall_mem_append, forall_mem_cons]
    exact ⟨hfits.1, hfits.1 line hline, hfits.2⟩
  · rw [hsplit]
    exact htail
  · obtain ⟨hjob, hlookup⟩ := (conserved_of_folds hmid).known line hline jobId share hshare
    have hroom :
        ensureGenerationCapacity mid.usedJobs.card (decide (jobId ∈ mid.usedJobs)) = .ok () :=
      rejectIf_of_not (by simp [hjob])
    have hagain : mid.applyLine x line = .ok mid := by
      refine LineEffect.applyLine (.repeated hshare hroom hlookup ?_)
      rw [Finset.insert_eq_of_mem hjob]
    rw [hsplit, foldlM_append, hmid, ok_bind, foldlM_cons, hagain]
    exact hlater

/-- The kind of the record on a line. -/
def lineKind (x : External) (line : Bytes) : Option RecordKind :=
  lineField x (fun record => RecordKind.ofName record.record) line

theorem lineKind_of_record (h : readJournalRecord x line = .ok (record, jobId)) :
    lineKind x line = RecordKind.ofName record.record :=
  lineField_of_record _ h

/-- Every line of a content that replays was accepted by a turn. -/
theorem Replays.effect (h : Replays x content s) (hline : line ∈ (splitLines lineFeed content).1) :
    ∃ before after, LineEffect x before line after := by
  obtain ⟨tail, hfolds⟩ := h
  obtain ⟨a, b, hab⟩ := append_of_mem hline
  have hall := hfolds.folds
  rw [hab, foldlM_append] at hall
  obtain ⟨mid, _, hall⟩ := of_bind hall
  obtain ⟨next, hnext, _⟩ := of_bind hall
  exact ⟨mid, next, applyLine_effect hnext⟩

/-! ## Conservation -/

/-- The different share IDs in the complete lines of a journal. -/
def shareIds (x : External) (content : Bytes) : Finset Text :=
  ((splitLines lineFeed content).1.filterMap (lineField x RecordFields.shareId)).toFinset

/-- The different share IDs in complete lines that carry a flag. -/
def winnerIds (x : External) (flag : JournalRecord → Option Bool) (content : Bytes) : Finset Text :=
  ((splitLines lineFeed content).1.filterMap (lineField x (flaggedId flag))).toFinset

/-- The reader gives `snapshot` for `content`, in whatever chunks it
arrives. -/
def Reports (x : External) (content : Bytes) (snapshot : AccountingSnapshot) : Prop :=
  ∀ reader, Delivers False reader content →
    readAccountingSnapshotFromReader x reader = .ok snapshot

/-- What the report conserves. -/
structure Conserves (x : External) (content : Bytes) (snapshot : AccountingSnapshot) : Prop where
  /-- The total is the number of different share IDs. -/
  total : snapshot.acceptedShares = (shareIds x content).card
  /-- It is the sum over the workers. -/
  workers : sumValues WorkerAccounting.acceptedShares snapshot.workers = snapshot.acceptedShares
  /-- It is the sum over the authentication buckets. -/
  authentication : sumValues id snapshot.sharesByAuthentication = snapshot.acceptedShares
  /-- So are the workers' own authentication buckets. -/
  workersAuthentication :
    sumValues (fun w => sumValues id w.sharesByAuthentication) snapshot.workers
      = snapshot.acceptedShares
  /-- It is the sum over the target buckets. -/
  targets :
    sumValues (fun w => sumValues id w.sharesByTarget) snapshot.workers = snapshot.acceptedShares
  /-- Wcash winners are the different share IDs with that flag. -/
  wcashWinners : sumValues WorkerAccounting.wcashWinners snapshot.workers
    = (winnerIds x RecordFields.wcashCandidate content).card
  /-- Zcash winners are the different share IDs with that flag. -/
  zcashWinners : sumValues WorkerAccounting.zcashWinners snapshot.workers
    = (winnerIds x RecordFields.zcashCandidate content).card
  /-- Repeating a share line anywhere later changes nothing. -/
  again : ∀ before line after, content = before ++ after → Complete before →
    line ∈ (splitLines lineFeed before).1 →
    (lineKind x line = some .acceptedShare ∨ lineKind x line = some .winnerOutbox) →
    Reports x (before ++ (line ++ lineFeed :: after)) snapshot
  /-- A status line changes nothing. -/
  status : ∀ before line after status, content = before ++ (line ++ lineFeed :: after) →
    Complete before → lineFeed ∉ line → lineKind x line = some (.status status) →
    ∃ counted, Reports x before counted ∧ Reports x (before ++ (line ++ [lineFeed])) counted
  /-- Every prefix is accepted, with lower counters. -/
  cut : ∀ content', content' <+: content →
    ∃ snapshot', Reports x content' snapshot' ∧ AccountingSnapshot.Le snapshot' snapshot

/-- The state before and after a status line. -/
theorem Replays.status {before after : Bytes} {status : StatusRecord}
    (h : Replays x (before ++ (line ++ lineFeed :: after)) s) (hcomplete : Complete before)
    (hline : lineFeed ∉ line) (hkind : lineKind x line = some (.status status)) :
    ∃ mid next, Replays x before mid ∧ Replays x (before ++ (line ++ [lineFeed])) next ∧
      next.snapshot = mid.snapshot := by
  have hpre : before ++ (line ++ [lineFeed]) <+: before ++ (line ++ lineFeed :: after) :=
    ⟨after, by simp⟩
  obtain ⟨next, hnext, _⟩ := h.cut hpre
  obtain ⟨mid, hmid, _⟩ := hnext.cut (prefix_append before _)
  refine ⟨mid, next, hmid, hnext, ?_⟩
  obtain ⟨_, hmidFolds⟩ := hmid
  obtain ⟨_, hnextFolds⟩ := hnext
  have hall := hnextFolds.folds
  rw [splitLines_of_complete hcomplete, splitLines_line [] hline, foldlM_append, hmidFolds.folds,
    ok_bind] at hall
  obtain ⟨last, hlast, hall⟩ := of_bind hall
  cases hall
  cases applyLine_effect hlast with
  | activated _ _ _ _ _ hs' | repeated _ _ _ hs' | status _ _ _ hs' => rw [hs']
  | accepted hshare _ _ _ _ _ _ =>
    obtain ⟨record, hrecord, hkind', _⟩ := hshare
    rw [← lineKind_of_record hrecord, hkind] at hkind'
    simp at hkind'

/-- Every journal that the reader accepts is conserved by its report. -/
theorem accounting_conserves (hd : Delivers faults reader content)
    (h : readAccountingSnapshotFromReader x reader = .ok snapshot) :
    Conserves x content snapshot := by
  obtain ⟨s, hs, rfl⟩ := replays_of_read hd h
  have hconserved : Conserved x (splitLines lineFeed content).1 s := by
    obtain ⟨tail, hfolds⟩ := hs
    exact conserved_of_folds hfolds.folds
  have hbalanced := hconserved.balanced
  constructor
  · exact hbalanced.total.trans hconserved.ids.card.symm
  · exact hbalanced.workers
  · exact hbalanced.sharesByAuthentication
  · exact hbalanced.workersByAuthentication
  · exact hbalanced.workersByTarget
  · exact hbalanced.wcashWinners.trans hconserved.wcash.card.symm
  · exact hbalanced.zcashWinners.trans hconserved.zcash.card.symm
  · intro before line after hcontent hcomplete hline hkind
    subst hcontent
    have hmem : line ∈ (splitLines lineFeed (before ++ after)).1 := by
      rw [splitLines_of_complete hcomplete]
      exact mem_append_left _ hline
    obtain ⟨_, _, heffect⟩ := hs.effect hmem
    obtain ⟨jobId, share, hshare⟩ : ∃ jobId share, HoldsShare x line jobId share := by
      cases heffect with
      | activated hrecord hkind' _ _ _ _ | status hrecord hkind' _ _ =>
        rw [lineKind_of_record hrecord, hkind'] at hkind
        simp at hkind
      | repeated hshare _ _ _ | accepted hshare _ _ _ _ _ _ => exact ⟨_, _, hshare⟩
    intro reader' hd'
    exact (hs.again hcomplete hline hshare).read hd'
  · intro before line after status hcontent hcomplete hline hkind
    subst hcontent
    obtain ⟨mid, next, hmid, hnext, hsame⟩ := hs.status hcomplete hline hkind
    refine ⟨mid.snapshot, fun _ hd' => hmid.read hd', fun _ hd' => ?_⟩
    rw [← hsame]
    exact hnext.read hd'
  · intro content' hpre
    obtain ⟨mid, hmid, hle⟩ := hs.cut hpre
    exact ⟨mid.snapshot, fun _ hd' => hmid.read hd', hle⟩

/-- The text format that the coordinator writes, and block codecs that are
never asked. -/
def plainExternal (sha256 : Bytes → Hex32) : External where
  sha256
  parseJson text := match Json.parseObject text with
    | some fields => .ok (.object fields)
    | none => .error "expected value"
  toVec fields := .ok (Json.objectText fields)
  validatePersistedWinnerBlock _ _ _ _ := .error .childHeaderMismatch
  assembleWcashBlock _ _ := .error .childHeaderMismatch

/-- A digest of one share. -/
def sampleExternal : External :=
  plainExternal fun _ =>
    ofHex 32 "80467b446ecec160cd7ce15a4d10beb89c08469f7b00b92240353d13898d9072"

/-- The activation of a job. -/
def sampleActivation : Bytes :=
  utf8 "\x7b\"job_id\":\"" ++ replicate 64 0x31 ++
    utf8 ("\",\"record\":\"job_activated\",\"recorded_at\":1700000000,\"version\":2," ++
      "\"wcash_block_hash\":\"") ++ replicate 64 0x33 ++
    utf8 "\",\"wcash_height\":7,\"zcash_height\":9\x7d\n"

/-- A share of the job. -/
def sampleShare : Bytes :=
  utf8 "\x7b\"accepted_at\":1700000001,\"job_id\":\"" ++ replicate 64 0x31 ++
    utf8 "\",\"parent_hash_le\":\"" ++ replicate 64 0x32 ++
    utf8 ("\",\"record\":\"accepted_share\"," ++
      "\"share_id\":\"80467b446ecec160cd7ce15a4d10beb89c08469f7b00b92240353d13898d9072\"," ++
      "\"share_target\":\"") ++ replicate 64 0x34 ++
    utf8 "\",\"version\":2,\"wcash_block\":null,\"wcash_block_hash\":\"" ++ replicate 64 0x33 ++
    utf8 ("\",\"wcash_candidate\":false,\"wcash_height\":7,\"worker\":\"alice\"," ++
      "\"worker_authentication\":\"operator\",\"zcash_block\":null,\"zcash_candidate\":false," ++
      "\"zcash_height\":9\x7d\n")

/-- A journal with a repeated share and a torn line. -/
def sampleJournal : Bytes :=
  sampleActivation ++ (sampleShare ++ (sampleShare ++ utf8 "\x7b\"acc"))

/-- The journal, read in one piece. -/
def sampleReader : Reader UInt8 String := [.ok sampleJournal]

/-- A report that counts one share. -/
def countsOne : Result AccountingSnapshot → Bool
  | .ok snapshot => snapshot.acceptedShares = 1
  | .error _ => false

theorem accounting_conserves_repeated_share :
    ∃ snapshot, readAccountingSnapshotFromReader sampleExternal sampleReader = .ok snapshot ∧
      snapshot.acceptedShares = 1 ∧ Conserves sampleExternal sampleJournal snapshot := by
  have hd : Delivers False sampleReader (sampleJournal ++ []) := .chunk (by decide +kernel) .done
  rw [append_nil] at hd
  have hone : countsOne (readAccountingSnapshotFromReader sampleExternal sampleReader) = true := by
    decide +kernel
  cases hread : readAccountingSnapshotFromReader sampleExternal sampleReader with
  | error e =>
    rw [hread] at hone
    cases hone
  | ok snapshot =>
    rw [hread] at hone
    exact ⟨snapshot, rfl, of_decide_eq_true hone, accounting_conserves hd hread⟩

end

end Wolf.ShareJournal
