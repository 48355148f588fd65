import Wolf.ShareJournal.Conservation
import Wolf.ShareJournal.Journal

/-! # The share journal: the two replays agree

`open` runs the accounting replay first and its own replay second.
Line by line, the outbox that the second one builds is the set of
pending winners of the first.

* `Agrees.step`: one line, by the four cases of `LineEffect`. -/

namespace Wolf.ShareJournal

open List

variable {x : External} {jobId parentHash shareId : Hex32} {height : Option Nat}
  {a : Option ValidatedWinner} {b : Option PendingWinner} {record : JournalRecord} {line : Bytes}

/-! ## The parsers of the coordinator -/

theorem parseJournalId_ok {encoded : Text} {kind : String} {id : Hex32}
    (h : parseJournalId encoded kind = .ok id) : encoded = hexEncode id.data := by
  obtain ⟨_, _, h⟩ := of_bind h
  obtain ⟨bytes, _, h⟩ := of_bind h
  split at h
  · obtain ⟨hcanonical, h⟩ := of_require_bind h
    cases h
    exact hcanonical
  · cases h

/-- An encoding of fixed length is decoded. -/
theorem parseRawHash_hexEncode (hash : Hex32) (field : String) :
    parseRawHash (hexEncode hash.data) field = .ok hash := by
  have hlength : ¬ (hexEncode hash.data).length ≠ 64 := by
    simp [hash.length_data]
  unfold parseRawHash
  rw [rejectIf_bind hlength, hexDecode_hexEncode, okOr_bind,
    dif_pos hash.length_data]

/-- The record of the accounting replay, as the coordinator reads it. -/
def JournalRecord.persisted (record : JournalRecord) : PersistedShareKey :=
  record.mapFlags fun flag => flag.getD false

variable {persisted : PersistedShareKey} {as : List ValidatedWinner} {bs : List PendingWinner}
  {winner : PendingWinner} {block : Option Text} {blockHash name : Text} {key : WinnerKey}

theorem requiredShareId_ok {shareId' : Hex32} (hid : record.shareId = some (hexEncode shareId.data))
    (h : requiredShareId record.persisted = .ok shareId') : shareId' = shareId := by
  obtain ⟨text, htext, h⟩ := of_okOr_bind h
  have htext : record.shareId = some text := htext
  rw [hid] at htext
  cases htext
  exact (hexEncode_hash_injective (parseJournalId_ok h)).symm

theorem insertSeenJobId_ok {seen seen' : Finset Hex32}
    (h : insertSeenJobId seen jobId = .ok seen') :
    seen' = insert jobId seen := by
  obtain ⟨_, _, h⟩ := of_bind h
  exact (Except.ok.inj h).symm

/-! ## The winners of a record -/

/-- What the accounting replay keeps of an outbox entry. -/
def PendingWinner.status (winner : PendingWinner) : PendingWinnerStatus where
  jobId := winner.jobId
  blockHash := winner.blockHashDisplay
  height := winner.height
  observed := winner.observedOnBestChain
  conflictingWitness := winner.conflictingWitness

/-- The same winner in both replays. -/
def SameEntry (a : ValidatedWinner) (b : PendingWinner) : Prop :=
  a.key = b.key ∧ a.status = b.status

theorem positive_eq_some {n : Nat} (h : positive height = some n) : height = some n :=
  (Option.filter_eq_some_iff.mp h).1

theorem winner_agree {a : ValidatedWinner} {b : PendingWinner}
    (ha : validateWinnerBlock x record parentHash key blockHash height block = .ok a)
    (hb : persistedWinner x record.persisted parentHash key blockHash height block = .ok b) :
    SameEntry a b := by
  obtain ⟨n, hn, hkey, hstatus⟩ := validateWinnerBlock_ok ha
  obtain ⟨m, hm, hb⟩ := of_okOr_bind hb
  obtain ⟨_, _, hb⟩ := of_two_binds hb
  obtain ⟨_, _, hb⟩ := of_two_binds hb
  cases hb
  cases (positive_eq_some hn).symm.trans hm
  exact ⟨hkey, hstatus⟩

/-- Both replays find the winner of a chain, or neither does. -/
inductive SameOption : Option ValidatedWinner → Option PendingWinner → Prop where
  | none : SameOption none none
  | some {a : ValidatedWinner} {b : PendingWinner} (h : SameEntry a b) :
      SameOption (some a) (some b)

/-- A missing flag counts as false. -/
theorem candidate_agree {candidate : Option Bool} {block : Option Text} {chain : WinnerChain}
    {result : Result ValidatedWinner} {result' : Result PendingWinner}
    (ha : validateCandidate candidate block chain result = .ok a)
    (hb : persistedCandidate (candidate.getD false) result' = .ok b)
    (hresult : ∀ a b, result = .ok a → result' = .ok b → SameEntry a b) : SameOption a b := by
  unfold validateCandidate at ha
  unfold persistedCandidate at hb
  by_cases hflag : candidate = some true
  · rw [if_pos hflag] at ha
    rw [hflag, if_pos (Option.getD_some ..)] at hb
    obtain ⟨winner, hwinner, ha⟩ := of_bind ha
    obtain ⟨winner', hwinner', hb⟩ := of_bind hb
    cases ha
    cases hb
    exact .some (hresult _ _ hwinner hwinner')
  · rw [if_neg hflag] at ha
    obtain ⟨_, _, ha⟩ := of_bind ha
    rw [if_neg (by cases candidate <;> simp_all)] at hb
    cases ha
    cases hb
    exact .none

theorem wcashWinner_agree (ha : validateWcashWinner x record parentHash shareId = .ok a)
    (hb : persistedWcashWinner x record.persisted parentHash shareId = .ok b) : SameOption a b := by
  refine candidate_agree ha hb ?_
  intro winner winner' hwinner hwinner'
  obtain ⟨hash, hhash, hwinner⟩ := of_okOr_bind hwinner
  obtain ⟨_, _, hwinner⟩ := of_bind hwinner
  obtain ⟨hash', hhash', hwinner'⟩ := of_okOr_bind hwinner'
  obtain ⟨_, _, hwinner'⟩ := of_bind hwinner'
  cases hhash.symm.trans hhash'
  exact winner_agree hwinner hwinner'

theorem zcashWinner_agree (ha : validateZcashWinner x record parentHash shareId = .ok a)
    (hb : persistedZcashWinner x record.persisted parentHash shareId = .ok b) : SameOption a b :=
  candidate_agree ha hb fun _ _ => winner_agree

theorem SameOption.toList (h : SameOption a b) : List.Forall₂ SameEntry a.toList b.toList := by
  cases h with
  | none => exact .nil
  | some h => exact .cons h .nil

/-- Both replays find the same winners, in the same order. -/
theorem winners_agree {fingerprint : Option Hex32}
    (hkind : record.record ≠ RecordKind.acceptedShare.name)
    (ha : validateWinnerBlocks x record shareId = .ok (as, fingerprint))
    (hb : persistedWinners x record.persisted shareId = .ok bs) : List.Forall₂ SameEntry as bs := by
  unfold validateWinnerBlocks at ha
  rw [if_neg hkind] at ha
  obtain ⟨text, htext, ha⟩ := of_okOr_bind ha
  obtain ⟨parentHash, hparent, ha⟩ := of_bind ha
  obtain ⟨wcash, hwcash, ha⟩ := of_bind ha
  obtain ⟨zcash, hzcash, ha⟩ := of_bind ha
  obtain ⟨_, _, ha⟩ := of_bind ha
  obtain ⟨text', htext', hb⟩ := of_okOr_bind hb
  obtain ⟨parentHash', hparent', hb⟩ := of_bind hb
  obtain ⟨wcash', hwcash', hb⟩ := of_bind hb
  obtain ⟨zcash', hzcash', hb⟩ := of_bind hb
  cases ha
  cases hb
  cases htext.symm.trans htext'
  rw [validateCanonicalHex_eq_ok.mp hparent, parseRawHash_hexEncode] at hparent'
  cases hparent'
  have hsameWcash := (wcashWinner_agree hwcash hwcash').toList
  have hsameZcash := (zcashWinner_agree hzcash hzcash').toList
  exact rel_append hsameWcash hsameZcash

/-! ## The outbox -/

/-- The outbox entries of the two replays. -/
def SameOutbox (a : HashMap WinnerKey PendingWinnerStatus) (b : HashMap WinnerKey PendingWinner) :
    Prop :=
  ∀ key, a.lookup key = (b.lookup key).map PendingWinner.status

theorem SameOutbox.putBack {a : HashMap WinnerKey PendingWinnerStatus}
    {b : HashMap WinnerKey PendingWinner} (h : SameOutbox a b) (key : WinnerKey)
    (updated : Option PendingWinner) :
    SameOutbox (putBack a key (updated.map PendingWinner.status)) (putBack b key updated) := by
  intro other
  by_cases hkey : other = key
  · rw [hkey, lookup_putBack, lookup_putBack]
  · rw [lookup_putBack_ne hkey, lookup_putBack_ne hkey]
    exact h other

/-- The insertion loops: a winner that is new to one outbox is new to the
other. -/
theorem SameOutbox.insertWinners (hentries : List.Forall₂ SameEntry as bs)
    {a a' : HashMap WinnerKey PendingWinnerStatus} {b b' : HashMap WinnerKey PendingWinner}
    (h : SameOutbox a b) (ha : insertWinners a as = .ok a')
    (hb : insertPendingWinners b bs = .ok b') : SameOutbox a' b' := by
  unfold ShareJournal.insertWinners at ha
  unfold insertPendingWinners at hb
  induction hentries generalizing a b with
  | nil =>
    cases ha
    cases hb
    exact h
  | @cons first second as bs hfirst _ ih =>
    obtain ⟨hkey, hstatus⟩ := hfirst
    rw [foldlM_cons] at ha hb
    obtain ⟨next, hnext, ha⟩ := of_bind ha
    obtain ⟨next', hnext', hb⟩ := of_bind hb
    obtain ⟨hnew, hnext⟩ := of_rejectIf_bind hnext
    have hnew : a.lookup second.key = none := by
      rw [← hkey]
      simpa using hnew
    have hnew' : b.lookup second.key = none := by
      have := h second.key
      rw [hnew] at this
      exact Option.map_eq_none_iff.mp this.symm
    rw [hnew'] at hnext'
    obtain ⟨_, _, hnext'⟩ := of_bind hnext'
    cases hnext
    cases hnext'
    refine ih ?_ ha hb
    rw [hkey, hstatus]
    exact h.putBack second.key (some second)

theorem chainOfName_parse {chain chain' : WinnerChain} (h : chainOfName (some name) = some chain)
    (h' : WinnerChain.parse name = .ok chain') : chain' = chain := by
  unfold chainOfName at h
  unfold WinnerChain.parse at h'
  simp only [Option.some.injEq] at h
  split at h
  · rename_i hname
    rw [if_pos hname] at h'
    cases h
    cases h'
    rfl
  · rename_i hname
    rw [if_neg hname] at h'
    split at h
    · rename_i hname'
      rw [if_pos hname'] at h'
      cases h
      cases h'
      rfl
    · cases h

/-- What the arm for status records has found and done. -/
theorem replayWinnerStatus_ok {record : PersistedShareKey} {status : StatusRecord}
    {pendingWinners pendingWinners' : HashMap WinnerKey PendingWinner}
    (h : replayWinnerStatus record status pendingWinners = .ok pendingWinners') :
    ∃ key name pending updated, requiredShareId record = .ok key.shareId ∧
      record.chain = some name ∧ WinnerChain.parse name = .ok key.chain ∧
      pendingWinners.lookup key = some pending ∧
      pending.transition key.chain status = .ok updated ∧
      pendingWinners' = putBack pendingWinners key updated := by
  obtain ⟨shareId, hshareId, h⟩ := of_bind h
  obtain ⟨name, hname, h⟩ := of_okOr_bind h
  obtain ⟨chain, hchain, h⟩ := of_bind h
  obtain ⟨pending, hpending, h⟩ := of_okOr_bind h
  obtain ⟨_, _, h⟩ := of_two_binds h
  obtain ⟨_, _, h⟩ := of_bind h
  obtain ⟨updated, hupdated, h⟩ := of_bind h
  exact ⟨⟨shareId, chain⟩, name, pending, updated, hshareId, hname, hchain,
    hpending, hupdated, (Except.ok.inj h).symm⟩

/-- The arms for status records. -/
theorem SameOutbox.status {a a' : HashMap WinnerKey PendingWinnerStatus}
    {b b' : HashMap WinnerKey PendingWinner} (h : SameOutbox a b) {status : StatusRecord}
    (ha : applyWinnerStatus record status a = .ok a')
    (hb : replayWinnerStatus record.persisted status b = .ok b') : SameOutbox a' b' := by
  obtain ⟨key, pending, updated, hchecked, rfl⟩ := applyWinnerStatus_ok ha
  obtain ⟨⟨shareId, chain⟩, name, winner, updated', hshareId, hname, hchain, hwinner, hupdated',
    rfl⟩ := replayWinnerStatus_ok hb
  have hchain' := hchecked.chain
  rw [show record.chain = some name from hname] at hchain'
  cases chainOfName_parse hchain' hchain
  cases requiredShareId_ok hchecked.shareId hshareId
  have hstatus : pending = winner.status := by
    have hentry := hchecked.entry
    rw [h key, hwinner] at hentry
    exact (Option.some.inj hentry).symm
  have htransition := hchecked.transition
  rw [hstatus] at htransition
  have hagree : updated = updated'.map PendingWinner.status := by
    cases status with
    | conflicting =>
      obtain ⟨_, _, ha⟩ := of_two_binds htransition
      obtain ⟨_, _, hb⟩ := of_two_binds hupdated'
      cases ha
      cases hb
      rfl
    | _ =>
      obtain ⟨_, _, ha⟩ := of_bind htransition
      obtain ⟨_, _, hb⟩ := of_bind hupdated'
      cases ha
      cases hb
      rfl
  rw [hagree]
  exact h.putBack key updated'

/-! ## One line -/

/-- The share was accepted as a winner of a chain. -/
def ImmutableShare.isWinner (share : ImmutableShare) : Prop :=
  share.wcashCandidate = true ∨ share.zcashCandidate = true

/-- The variables of the two replays after the same lines. -/
structure Agrees (a : Accounting) (b : OutboxReplay) : Prop where
  jobs : b.seenJobIds = a.usedJobs
  outbox : SameOutbox a.pendingWinners b.pendingWinners
  /-- The identities that the coordinator keeps are the accepted winners. -/
  winners : ∀ shareId, (∃ identity, b.replayedWinnerIdentities.lookup shareId = some identity) ↔
    ∃ share, a.accepted.lookup shareId = some share ∧ share.isWinner

theorem agrees_init : Agrees {} {} := by
  constructor
  · rfl
  · intro key
    rfl
  · intro shareId
    constructor
    · rintro ⟨identity, h⟩
      cases h
    · rintro ⟨share, h, _⟩
      cases h

section

variable {a a' : Accounting} {b b' : OutboxReplay} {jobId : Hex32} {share : ShareLine}

/-- The record on a line, as the coordinator's turn sees it. -/
theorem outboxLine_record (hrecord : readJournalRecord x line = .ok (record, jobId))
    (h : b.applyLine x line = .ok b') :
    ∃ completeBytes, { b with completeBytes : OutboxReplay }.applyRecord x record.persisted jobId
      = .ok b' := by
  obtain ⟨completeBytes, _, h⟩ := of_bind h
  obtain ⟨⟨persisted, jobId'⟩, hpersisted, h⟩ := of_bind h
  obtain ⟨_, hread', hpersisted⟩ := of_mapErr_bind hpersisted
  obtain ⟨_, _, hpersisted⟩ := of_bind hpersisted
  obtain ⟨id, hid, hpersisted⟩ := of_bind hpersisted
  cases hpersisted
  -- Both replays read the same record and the same job.
  obtain ⟨hread, _, hjob⟩ := readJournalRecord_ok hrecord
  obtain rfl : persisted = record.persisted := fromSlice_agree hread hread'
  obtain rfl := hexEncode_hash_injective (hjob.symm.trans (parseJournalId_ok hid))
  exact ⟨completeBytes, h⟩

/-- The flags of an accepted record of one of the two kinds. -/
theorem shareLine_kind (h : readShareLine x record = .ok share) :
    (record.record = RecordKind.acceptedShare.name →
      ¬ share.immutable.isWinner ∧ share.winners = []) ∧
    (record.record = RecordKind.winnerOutbox.name → share.immutable.isWinner) := by
  obtain ⟨immutable, fingerprint, hchecked, _, hwinners, himmutable⟩ := readShareLine_ok h
  obtain ⟨_, haccepted, hwinner⟩ := of_bind hchecked.candidates
  simp only [ImmutableShare.isWinner, himmutable]
  have haccepted := rejectIf_eq_ok.mp haccepted
  have hwinner := rejectIf_eq_ok.mp hwinner
  constructor
  · intro hkind
    unfold validateWinnerBlocks at hwinners
    rw [if_pos hkind] at hwinners
    obtain ⟨_, _, hwinners⟩ := of_bind hwinners
    refine ⟨fun hflags => haccepted ⟨hkind, hflags⟩, ?_⟩
    exact (Prod.mk.inj (Except.ok.inj hwinners)).1.symm
  · intro hkind
    by_contra hflags
    simp only [not_or, Bool.not_eq_true] at hflags
    exact hwinner ⟨hkind, hflags⟩

/-- The ID on a record that holds a share. -/
theorem shareLine_id (h : readShareLine x record = .ok share) :
    record.shareId = some (hexEncode share.shareId.data) := by
  obtain ⟨_, _, _, hid, _⟩ := readShareLine_ok h
  exact hid

/-- A share that is no winner changes only the jobs. -/
theorem Agrees.plain (h : Agrees a b) (hjobs : b'.seenJobIds = a'.usedJobs)
    (houtbox : a'.pendingWinners = a.pendingWinners)
    (houtbox' : b'.pendingWinners = b.pendingWinners)
    (hids : b'.replayedWinnerIdentities = b.replayedWinnerIdentities)
    (haccepted : ∀ shareId, (∃ share, a'.accepted.lookup shareId = some share ∧ share.isWinner) ↔
      ∃ share, a.accepted.lookup shareId = some share ∧ share.isWinner) : Agrees a' b' := by
  constructor
  · exact hjobs
  · rw [houtbox, houtbox']
    exact h.outbox
  · intro shareId
    rw [hids, haccepted shareId]
    exact h.winners shareId

/-- Replaying a winner that is known changes only the jobs, and a winner
that is new enters the outbox. -/
theorem replayWinner_ok (h : b.replayWinner x persisted jobId = .ok b') :
    ∃ shareId, requiredShareId persisted = .ok shareId ∧
      ((∃ identity, b.replayedWinnerIdentities.lookup shareId = some identity) ∧
          b' = { b with seenJobIds := insert jobId b.seenJobIds } ∨
        b.replayedWinnerIdentities.lookup shareId = none ∧
          ∃ identity winners pendingWinners, persistedWinners x persisted shareId = .ok winners ∧
            insertPendingWinners b.pendingWinners winners = .ok pendingWinners ∧
            b' = { b with seenJobIds := insert jobId b.seenJobIds
                          replayedWinnerIdentities :=
                            b.replayedWinnerIdentities.insert shareId identity
                          pendingWinners }) := by
  obtain ⟨shareId, hshareId, h⟩ := of_bind h
  obtain ⟨seen, hseen, h⟩ := of_bind h
  cases insertSeenJobId_ok hseen
  refine ⟨shareId, hshareId, ?_⟩
  cases hlookup : b.replayedWinnerIdentities.lookup shareId with
  | some previous =>
    rw [hlookup] at h
    obtain ⟨_, _, h⟩ := of_bind h
    exact .inl ⟨⟨previous, rfl⟩, (Except.ok.inj h).symm⟩
  | none =>
    rw [hlookup] at h
    obtain ⟨_, _, h⟩ := of_bind h
    obtain ⟨winners, hwinners, h⟩ := of_bind h
    obtain ⟨_, _, h⟩ := of_bind h
    obtain ⟨pendingWinners, hpending, h⟩ := of_bind h
    exact .inr ⟨rfl, _, winners, pendingWinners, hwinners, hpending, (Except.ok.inj h).symm⟩

/-- An activation and a share that is no winner only add their job. -/
theorem applyRecord_plain
    (hkind : RecordKind.ofName persisted.record = some .jobActivated ∨
      RecordKind.ofName persisted.record = some .acceptedShare)
    (h : b.applyRecord x persisted jobId = .ok b') :
    b' = { b with seenJobIds := insert jobId b.seenJobIds } := by
  unfold OutboxReplay.applyRecord at h
  rcases hkind with hkind | hkind
  · rw [hkind] at h
    obtain ⟨_, _, h⟩ := of_two_binds h
    obtain ⟨_, hseen, h⟩ := of_bind h
    rw [← insertSeenJobId_ok hseen]
    exact (Except.ok.inj h).symm
  · rw [hkind] at h
    obtain ⟨_, _, h⟩ := of_bind h
    obtain ⟨_, hseen, h⟩ := of_bind h
    rw [← insertSeenJobId_ok hseen]
    exact (Except.ok.inj h).symm

/-- A line that the accounting replay knows. -/
theorem Agrees.repeated (h : Agrees a b) (hshare : HoldsShare x line jobId share)
    (hknown : a.accepted.lookup share.shareId = some share.immutable)
    (hb : b.applyLine x line = .ok b') :
    Agrees { a with usedJobs := insert jobId a.usedJobs } b' := by
  obtain ⟨record, hrecord, hkind, hread⟩ := hshare
  obtain ⟨completeBytes, hb⟩ := outboxLine_record hrecord hb
  rcases hkind with hkind | hkind
  · cases applyRecord_plain (.inr hkind) hb
    exact h.plain (congrArg (insert jobId) h.jobs) rfl rfl rfl fun _ => Iff.rfl
  · unfold OutboxReplay.applyRecord at hb
    rw [show RecordKind.ofName record.persisted.record = _ from hkind] at hb
    obtain ⟨shareId, hshareId, hcases⟩ := replayWinner_ok hb
    cases requiredShareId_ok (shareLine_id hread) hshareId
    rcases hcases with ⟨_, rfl⟩ | ⟨hnone, _⟩
    · exact h.plain (congrArg (insert jobId) h.jobs) rfl rfl rfl fun _ => Iff.rfl
    · -- The accepted share is a winner, so the coordinator knows it too.
      have hwinner := (shareLine_kind hread).2 (RecordKind.ofName_eq_some hkind)
      obtain ⟨identity, hsome⟩ := (h.winners share.shareId).mpr ⟨_, hknown, hwinner⟩
      rw [show b.replayedWinnerIdentities.lookup share.shareId = none from hnone] at hsome
      cases hsome

/-- A line with a share that is new. -/
theorem Agrees.accepted (h : Agrees a b) {snapshot : AccountingSnapshot}
    {pendingWinners : HashMap WinnerKey PendingWinnerStatus}
    (hshare : HoldsShare x line jobId share) (hnew : a.accepted.lookup share.shareId = none)
    (hwinners : insertWinners a.pendingWinners share.winners = .ok pendingWinners)
    (hb : b.applyLine x line = .ok b') :
    Agrees { accepted := a.accepted.insert share.shareId share.immutable, pendingWinners
             usedJobs := insert jobId a.usedJobs, snapshot } b' := by
  obtain ⟨record, hrecord, hkind, hread⟩ := hshare
  obtain ⟨completeBytes, hb⟩ := outboxLine_record hrecord hb
  rcases hkind with hkind | hkind
  · cases applyRecord_plain (.inr hkind) hb
    obtain ⟨hplain, hempty⟩ := (shareLine_kind hread).1 (RecordKind.ofName_eq_some hkind)
    rw [hempty] at hwinners
    cases hwinners
    refine h.plain (congrArg (insert jobId) h.jobs) rfl rfl rfl ?_
    intro shareId
    by_cases hid : shareId = share.shareId
    · subst hid
      rw [hnew]
      simp [hplain]
    · rw [AList.lookup_insert_ne hid]
  · unfold OutboxReplay.applyRecord at hb
    rw [show RecordKind.ofName record.persisted.record = _ from hkind] at hb
    obtain ⟨shareId, hshareId, hcases⟩ := replayWinner_ok hb
    cases requiredShareId_ok (shareLine_id hread) hshareId
    have hwinner := (shareLine_kind hread).2 (RecordKind.ofName_eq_some hkind)
    rcases hcases with ⟨hknown, _⟩ | ⟨_, identity, winners, pending, hpersisted, hinsert, rfl⟩
    · obtain ⟨old, hold, _⟩ := (h.winners share.shareId).mp hknown
      rw [hnew] at hold
      cases hold
    · obtain ⟨_, _, _, _, hvalidated, _⟩ := readShareLine_ok hread
      have hname : record.record ≠ RecordKind.acceptedShare.name := by
        rw [RecordKind.ofName_eq_some hkind]
        decide +kernel
      have hentries := winners_agree hname hvalidated hpersisted
      constructor
      · exact congrArg (insert jobId) h.jobs
      · exact h.outbox.insertWinners hentries hwinners hinsert
      · intro other
        by_cases hid : other = share.shareId
        · subst hid
          rw [AList.lookup_insert, AList.lookup_insert]
          exact ⟨fun _ => ⟨_, rfl, hwinner⟩, fun _ => ⟨identity, rfl⟩⟩
        · rw [AList.lookup_insert_ne hid, AList.lookup_insert_ne hid]
          exact h.winners other

/-- Step lemma. -/
theorem Agrees.step (h : Agrees a b) (ha : LineEffect x a line a')
    (hb : b.applyLine x line = .ok b') : Agrees a' b' := by
  cases ha with
  | activated hrecord hkind _ _ _ hs' =>
    subst hs'
    obtain ⟨completeBytes, hb⟩ := outboxLine_record hrecord hb
    cases applyRecord_plain (.inl hkind) hb
    exact h.plain (congrArg (insert _) h.jobs) rfl rfl rfl fun _ => Iff.rfl
  | repeated hshare _ hknown hs' =>
    subst hs'
    exact h.repeated hshare hknown hb
  | accepted hshare _ hnew _ _ hwinners hs' =>
    subst hs'
    exact h.accepted hshare hnew hwinners hb
  | status hrecord hkind hstatus hs' =>
    subst hs'
    obtain ⟨completeBytes, hb⟩ := outboxLine_record hrecord hb
    unfold OutboxReplay.applyRecord at hb
    rw [show RecordKind.ofName (JournalRecord.persisted _).record = _ from hkind] at hb
    obtain ⟨pendingWinners, hpending, hb⟩ := of_bind hb
    cases hb
    exact ⟨h.jobs, h.outbox.status hstatus hpending, h.winners⟩

/-- Run lemma. -/
theorem agrees_of_folds {lines : List Bytes}
    (ha : lines.foldlM (Accounting.applyLine x) a = .ok a')
    (hb : lines.foldlM (OutboxReplay.applyLine x) b = .ok b') (h : Agrees a b) : Agrees a' b' := by
  induction lines generalizing a b with
  | nil =>
    cases ha
    cases hb
    exact h
  | cons line rest ih =>
    obtain ⟨next, hnext, ha⟩ := of_bind ha
    obtain ⟨next', hnext', hb⟩ := of_bind hb
    exact ih ha hb (h.step (applyLine_effect hnext) hnext')

end

/-! ## Whole files -/

/-- The two passes of an `open` that succeeds. -/
theorem open_ok {env : OpenEnv} {content : Bytes} {s : JournalState}
    (h : openJournal x env content = .ok s) :
    ∃ snapshot outbox tail, content.length ≤ maxJournalBytes ∧
      readAccountingSnapshotFromReader x env.firstPass = .ok snapshot ∧
      forLines lineFeed .io maxJournalRecordBytes recordTooLarge (OutboxReplay.applyLine x) {}
        env.secondPass = .ok (outbox, tail) ∧
      s = { file := if tail = [] then content else content.take outbox.completeBytes
            bytesWritten := outbox.completeBytes
            poisoned := false
            activeJob := none
            seenJobIds := outbox.seenJobIds
            activeJobAttributions := ∅
            activeWinnerAttributions := ∅
            pendingWinners := outbox.pendingWinners } := by
  obtain ⟨_, _, h⟩ := of_bind h
  obtain ⟨hlength, h⟩ := of_rejectIf_bind h
  obtain ⟨_, _, h⟩ := of_bind h
  obtain ⟨snapshot, hsnapshot, h⟩ := of_bind h
  obtain ⟨_, _, h⟩ := of_bind h
  obtain ⟨⟨outbox, tail⟩, houtbox, h⟩ := of_bind h
  obtain ⟨_, _, h⟩ := of_bind h
  exact ⟨snapshot, outbox, tail, Nat.le_of_not_lt hlength, hsnapshot, houtbox,
    (Except.ok.inj h).symm⟩

/-- What the accounting replay and the journal agree on. -/
structure SameState (a : Accounting) (s : JournalState) : Prop where
  /-- The used job IDs. -/
  jobs : s.seenJobIds = a.usedJobs
  /-- The pending winners: their keys, and for each key its job, block
  hash, height and flags. -/
  outbox : ∀ key, a.pendingWinners.lookup key =
    (s.pendingWinners.lookup key).map PendingWinner.status

/-- For every content that `open` accepts, the accounting replay of the same
bytes ends in the state that `open` returns. -/
theorem replays_agree {firstFaults secondFaults : Prop} {env : OpenEnv} {content : Bytes}
    {s : JournalState} (hfirst : Delivers firstFaults env.firstPass content)
    (hsecond : Delivers secondFaults env.secondPass content)
    (h : openJournal x env content = .ok s) :
    ∃ a, (∀ reader, Delivers False reader content →
        ∃ tail, replayAccounting x reader = .ok (a, tail)) ∧ SameState a s := by
  obtain ⟨snapshot, outbox, tail, _, hsnapshot, houtbox, rfl⟩ := open_ok h
  obtain ⟨a, ⟨tail', hfolds⟩, _⟩ := replays_of_read hfirst hsnapshot
  have hagrees := agrees_of_folds hfolds.folds (forLines_ok hsecond houtbox).folds agrees_init
  refine ⟨a, fun reader hd => ⟨tail', (forLines_eq_ok hd).mpr hfolds⟩, ?_⟩
  exact ⟨hagrees.jobs, hagrees.outbox⟩

/-- A file system that serves the sample journal. -/
def sampleOpenEnv : OpenEnv where
  admission := .ok ()
  permissions := .ok ()
  firstPass := sampleReader
  secondPass := sampleReader
  rewind := .ok ()
  truncate := .ok ()

/-- A journal that is open with one job. -/
def hasOneJob : Result JournalState → Bool
  | .ok s => s.seenJobIds.card = 1
  | .error _ => false

theorem replays_agree_torn_journal :
    ∃ s, openJournal sampleExternal sampleOpenEnv sampleJournal = .ok s ∧
      s.seenJobIds.card = 1 ∧
      ∃ a, (∀ reader, Delivers False reader sampleJournal →
        ∃ tail, replayAccounting sampleExternal reader = .ok (a, tail)) ∧ SameState a s := by
  have hd : Delivers False sampleReader (sampleJournal ++ []) := .chunk (by decide +kernel) .done
  rw [append_nil] at hd
  have hone : hasOneJob (openJournal sampleExternal sampleOpenEnv sampleJournal) = true := by
    decide +kernel
  cases hopen : openJournal sampleExternal sampleOpenEnv sampleJournal with
  | error e =>
    rw [hopen] at hone
    cases hone
  | ok s =>
    rw [hopen] at hone
    exact ⟨s, rfl, of_decide_eq_true hone, replays_agree hd hd hopen⟩

end Wolf.ShareJournal
