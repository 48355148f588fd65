import Wolf.PoolJournal.Append

/-! # The pool backend journal as a log

What the journal is for, without its file handle, counters and poison
flag: an `Image` grows one record at a time.

* `AppendCall.run_settled`: a public append on a settled journal
  appends one record, changes nothing, or halts with the record
  pending. -/

namespace Wolf.PoolJournal

open PoolBackendJournalError Exec List

variable (x : External) {s s' : JournalState} {env : AppendEnv} {event : BackendEvent}
  {prepared : PreparedAppend} {e : PoolBackendJournalError} {blocks : PersistedWinnerBlocks}
  {semantic : JournalSemanticState} {outcome : Option (Nat × IoError)} {r : Result Unit}
  {encoded : Bytes}

/-! ## Images -/

/-- The durable content of a journal with what it means. -/
structure Image where
  content : Bytes
  lastDigest : Hex32
  events : List BackendEvent
  semantic : JournalSemanticState

/-- The image of a journal in memory. -/
def JournalState.image (s : JournalState) : Image where
  content := s.file
  lastDigest := s.lastDigest
  events := s.events
  semantic := s.semantic

/-- The text that a record adds to the file. -/
structure EncodesTo (record : PersistedEventRecord) (before after : Bytes)
    (eventCount : Nat) (json : Bytes) : Prop where
  encoded : x.recordJson record = .ok json
  size : json.length + 1 ≤ maxJournalRecordBytes
  content : after = before ++ (json ++ [newline])
  limits : checkedAppendLimits eventCount before.length (json.length + 1) = .ok after.length

/-- Writing `record` takes the image `img` to `img'`. -/
structure Appends (img : Image) (record : PersistedEventRecord) (img' : Image) : Prop where
  seq : nextEventSeq img.events = .ok record.eventSeq
  eventSeq : record.event.eventSeq = record.eventSeq
  valid : x.validateEvent record.event = .ok ()
  fits : ensureEventFitsPage x record.event = .ok ()
  previous : record.previousDigest = img.lastDigest
  digest : digestEvent x record.event record.winnerBlocks record.previousDigest = .ok record.digest
  applies : Applies x record img.semantic img'.semantic
  text : ∃ json, EncodesTo x record img.content img'.content img.events.length json
  lastDigest : img'.lastDigest = record.digest
  events : img'.events = img.events ++ [record.event]

/-- The image of a journal that holds only its header. -/
structure HeaderImage (header : JournalHeader) (img : Image) : Prop where
  valid : validateHeader x header = .ok ()
  digest : digestHeader x header = .ok img.lastDigest
  text : ∃ json, x.headerJson header = .ok json ∧ json.length + 1 ≤ maxJournalRecordBytes ∧
    img.content = json ++ [newline]
  events : img.events = []
  semantic : img.semantic = {}

/-- The images reached from the header by records that satisfy `policy`,
with the records in order. -/
inductive Logged (policy : Image → PersistedEventRecord → Prop) (header : JournalHeader) :
    List PersistedEventRecord → Image → Prop where
  | created {img : Image} (h : HeaderImage x header img) : Logged policy header [] img
  | append {records : List PersistedEventRecord} {img img' : Image}
      {record : PersistedEventRecord} (hlog : Logged policy header records img)
      (hpolicy : policy img record) (h : Appends x img record img') :
      Logged policy header (records ++ [record]) img'

/-! ## Sequence numbers -/

theorem lastEventSeq_append (events : List BackendEvent) :
    lastEventSeq (events ++ [event]) = event.eventSeq := by
  unfold lastEventSeq
  simp

theorem nextEventSeq_ok {events : List BackendEvent} {seq : Nat} :
    nextEventSeq events = .ok seq ↔ seq = lastEventSeq events + 1 ∧ seq < 2 ^ 64 := by
  unfold nextEventSeq
  rw [okOr_eq_ok, checkedAdd_eq_some]
  constructor
  · intro ⟨hlt, hseq⟩
    exact ⟨hseq.symm, hseq ▸ hlt⟩
  · intro ⟨hseq, hlt⟩
    exact ⟨hseq ▸ hlt, hseq.symm⟩

section

variable {x} {policy : Image → PersistedEventRecord → Prop} {header : JournalHeader}
  {records : List PersistedEventRecord} {img img' : Image} {record : PersistedEventRecord}

/-- Sequence numbers count the records from one without a gap. -/
theorem Logged.lastEventSeq_eq (h : Logged x policy header records img) :
    lastEventSeq img.events = img.events.length := by
  induction h with
  | created h =>
    rw [h.events]
    rfl
  | append _ _ h ih =>
    have hseq := (nextEventSeq_ok.mp h.seq).1
    rw [h.events, lastEventSeq_append, h.eventSeq, hseq, ih, length_append]
    rfl

theorem Logged.record_seq (h : Logged x policy header records img)
    (happ : Appends x img record img') : record.eventSeq = img.events.length + 1 := by
  rw [(nextEventSeq_ok.mp happ.seq).1, h.lastEventSeq_eq]

theorem checkedAppendLimits_ok {count bytes added total : Nat} :
    checkedAppendLimits count bytes added = .ok total ↔
      count < maxJournalEvents ∧ bytes + added < 2 ^ 64 ∧ total = bytes + added ∧
        total ≤ maxJournalBytes := by
  unfold checkedAppendLimits
  rw [bind_eq_ok]
  constructor
  · intro ⟨_, hcount, h⟩
    obtain ⟨sum, hsum, h⟩ := of_okOr_bind h
    obtain ⟨hmax, h⟩ := of_rejectIf_bind h
    obtain ⟨hlt, hsum⟩ := checkedAdd_eq_some.mp hsum
    have htotal : sum = total := Except.ok.inj h
    rw [rejectIf_eq_ok] at hcount
    refine ⟨?_, hlt, ?_, ?_⟩
    · exact Nat.lt_of_not_le hcount
    · rw [← htotal, hsum]
    · rw [← htotal]
      exact Nat.le_of_not_lt hmax
  · intro ⟨hcount, hlt, htotal, hmax⟩
    refine ⟨(), rejectIf_of_not (Nat.not_le.mpr hcount), ?_⟩
    rw [checkedAdd_of_lt hlt, okOr_bind, ← htotal,
      rejectIf_bind (Nat.not_lt.mpr hmax)]

/-- A logged file is not empty, and the reader accepts its length. -/
theorem Logged.content_pos (h : Logged x policy header records img) : 0 < img.content.length := by
  induction h with
  | created h =>
    obtain ⟨json, _, _, hcontent⟩ := h.text
    rw [hcontent, length_append]
    exact Nat.lt_of_lt_of_le Nat.one_pos (Nat.le_add_left _ _)
  | append _ _ h ih =>
    obtain ⟨json, htext⟩ := h.text
    rw [htext.content, length_append]
    exact Nat.lt_of_lt_of_le ih (Nat.le_add_right _ _)

theorem Logged.content_le (h : Logged x policy header records img) :
    img.content.length ≤ maxJournalBytes := by
  cases h with
  | created h =>
    obtain ⟨json, _, hsize, hcontent⟩ := h.text
    rw [hcontent, length_append]
    exact Nat.le_trans hsize (by unfold maxJournalRecordBytes maxJournalBytes; omega)
  | append _ _ h =>
    obtain ⟨json, htext⟩ := h.text
    exact (checkedAppendLimits_ok.mp htext.limits).2.2.2

end

/-! ## Settled and halted journals -/

/-- A journal between two appends: usable, with its counter at the end of
the file. -/
structure Settled (s : JournalState) : Prop where
  usable : s.poisoned = false
  bytesWritten : s.bytesWritten = s.file.length

/-- The settled journal with a given image. -/
def Image.state (img : Image) : JournalState where
  file := img.content
  bytesWritten := img.content.length
  lastDigest := img.lastDigest
  events := img.events
  semantic := img.semantic
  poisoned := false

theorem Image.state_settled (img : Image) : Settled img.state := ⟨rfl, rfl⟩

theorem Settled.state_image (hs : Settled s) : s.image.state = s := by
  cases s
  have hp := hs.usable
  have hb := hs.bytesWritten
  dsimp only at hp hb
  unfold Image.state JournalState.image
  rw [hp, hb]

/-- A poisoned journal: the record of the failed append is in the semantic
state, and a part of its text may be in the file. -/
structure Halted (s : JournalState) (img : Image) (record : PersistedEventRecord)
    (img' : Image) : Prop where
  poisoned : s.poisoned = true
  appends : Appends x img record img'
  events : s.events = img.events
  lastDigest : s.lastDigest = img.lastDigest
  bytesWritten : s.bytesWritten = img.content.length
  semantic : s.semantic = img'.semantic
  lower : img.content <+: s.file
  upper : s.file <+: img'.content

/-- A created journal is settled and holds only its header. -/
theorem createNew_ok {env : CreateEnv} {identity : JournalIdentity} {header : JournalHeader}
    (h : createNew x env identity = .ok (header, s)) :
    HeaderImage x header s.image ∧ Settled s ∧ header.identity = identity := by
  obtain ⟨stream, _, h⟩ := of_bind h
  obtain ⟨_, hidentity, h⟩ := of_bind h
  obtain ⟨digest, hdigest, h⟩ := of_bind h
  obtain ⟨json, hjson, h⟩ := of_mapErr_bind h
  obtain ⟨hsize, h⟩ := of_rejectIf_bind h
  cases hprepare : env.prepare with
  | some error =>
    rw [hprepare] at h
    cases h
  | none =>
    rw [hprepare] at h
    obtain ⟨_, _, h⟩ := of_two_binds h
    obtain ⟨_, _, h⟩ := of_two_binds h
    obtain ⟨_, _, h⟩ := of_two_binds h
    obtain ⟨rfl, rfl⟩ := Prod.mk.inj (Except.ok.inj h)
    have hsize := Nat.le_of_not_lt hsize
    rw [length_append, length_singleton] at hsize
    refine ⟨?_, ⟨rfl, rfl⟩, rfl⟩
    exact
      { valid := by
          unfold validateHeader
          rw [rejectIf_bind (by simp [newHeader]),
            rejectIf_bind (by simp [newHeader])]
          exact hidentity
        digest := hdigest
        text := ⟨json, hjson, hsize, rfl⟩
        events := rfl
        semantic := rfl }

/-! ## `append_locked` on images -/

/-- The image that a prepared append makes of a journal. -/
def PreparedAppend.imageAfter (prepared : PreparedAppend) (s : JournalState)
    (semantic : JournalSemanticState) : Image where
  content := s.file ++ prepared.encoded
  lastDigest := prepared.record.digest
  events := s.events ++ [prepared.record.event]
  semantic := semantic

/-- Preparation and `apply_record` together give an append of images. -/
theorem appends_of_prepareAppend (hs : Settled s)
    (h : prepareAppend x env s event blocks = .ok prepared)
    (happly : applyRecord x env.blockMemory prepared.record s.semantic = .ok () semantic) :
    Appends x s.image prepared.record (prepared.imageAfter s semantic) ∧
    prepared.record.event = event ∧ prepared.record.winnerBlocks = blocks ∧
    prepared.newLength = (s.file ++ prepared.encoded).length := by
  obtain ⟨_, hvalid, h⟩ := of_mapErr_bind h
  obtain ⟨_, hfits, h⟩ := of_bind h
  obtain ⟨expected, hnext, h⟩ := of_bind h
  obtain ⟨hseq, h⟩ := of_require_bind h
  obtain ⟨_, _, h⟩ := of_two_binds h
  obtain ⟨digest, hdigest, h⟩ := of_bind h
  obtain ⟨json, hjson, h⟩ := of_mapErr_bind h
  obtain ⟨hsize, h⟩ := of_rejectIf_bind h
  obtain ⟨bytes, hbytes, h⟩ := of_okOr_bind h
  obtain ⟨newLength, hlimits, h⟩ := of_bind h
  have hprepared := Except.ok.inj h
  subst hprepared
  have hlength : (json ++ [newline]).length = json.length + 1 := length_append
  have hbytes := (checkedAdd_eq_some.mp hbytes).2
  rw [← hbytes, Nat.add_zero, hlength] at hlimits
  rw [hlength] at hsize
  have hnewLength : newLength = (s.file ++ (json ++ [newline])).length := by
    rw [(checkedAppendLimits_ok.mp hlimits).2.2.1, hs.bytesWritten, length_append, hlength]
  refine ⟨?_, rfl, rfl, hnewLength⟩
  exact
    { seq := hseq ▸ hnext
      eventSeq := rfl
      valid := hvalid
      fits := hfits
      previous := rfl
      digest := hdigest
      applies := .of_applyRecord x happly
      text := ⟨json, hjson, Nat.le_of_not_lt hsize, rfl,
        by show _ = Except.ok (s.file ++ (json ++ [newline])).length
           rw [← hnewLength, ← hlimits, hs.bytesWritten]; rfl⟩
      lastDigest := rfl
      events := rfl }

theorem orPoison_ok : orPoison r s = .ok () s' ↔ r = .ok () ∧ s = s' := by
  cases r with
  | ok u =>
    show EStateM.Result.ok () s = .ok () s' ↔ _
    simp
  | error e =>
    show EStateM.Result.error e { s with poisoned := true } = .ok () s' ↔ _
    simp

theorem orPoison_err :
    orPoison r s = .error e s' ↔ r = .error e ∧ { s with poisoned := true } = s' := by
  cases r with
  | ok u =>
    show EStateM.Result.ok () s = .error e s' ↔ _
    simp
  | error e' =>
    show EStateM.Result.error e' { s with poisoned := true } = .error e s' ↔ _
    simp

theorem writeAppend_ok (h : writeAppend outcome encoded s = .ok () s') :
    outcome = none ∧ { s with file := s.file ++ encoded } = s' := by
  cases outcome with
  | none =>
    cases h
    exact ⟨rfl, rfl⟩
  | some failure =>
    cases h

/-- The journal after a completed append. -/
def JournalState.committed (s : JournalState) (prepared : PreparedAppend) : JournalState :=
  { s with
    file := s.file ++ prepared.encoded
    bytesWritten := prepared.newLength
    lastDigest := prepared.record.digest
    events := s.events ++ [prepared.record.event] }

/-- The steps of a write that succeeded. -/
theorem persistAppend_ok (h : persistAppend env prepared s = .ok () s') :
    verifyLockedJournalPath env.verifyBefore s.file s.bytesWritten = .ok () ∧
      env.write = none ∧ env.sync = none ∧
      verifyLockedJournalPath env.verifyAfter (s.file ++ prepared.encoded) prepared.newLength
        = .ok () ∧ s.committed prepared = s' := by
  unfold persistAppend at h
  rw [get_bind_run] at h
  obtain ⟨_, s₁, hverify, h⟩ := bind_ok.mp h
  obtain ⟨hbefore, rfl⟩ := orPoison_ok.mp hverify
  obtain ⟨_, s₂, hwrite, h⟩ := bind_ok.mp h
  obtain ⟨hwritten, rfl⟩ := writeAppend_ok hwrite
  obtain ⟨_, s₃, hsync, h⟩ := bind_ok.mp h
  obtain ⟨hsync, rfl⟩ := orPoison_ok.mp hsync
  rw [get_bind_run] at h
  obtain ⟨_, s₄, hverify, h⟩ := bind_ok.mp h
  obtain ⟨hafter, rfl⟩ := orPoison_ok.mp hverify
  cases h
  have hsynced : env.sync = none := by
    cases hs : env.sync with
    | none => rfl
    | some source =>
      rw [hs] at hsync
      cases hsync
  exact ⟨hbefore, hwritten, hsynced, hafter, rfl⟩

/-- Every failure of the last part poisons; a prefix of the record text has
reached the file, and no counter has moved. -/
theorem persistAppend_err (h : persistAppend env prepared s = .error e s') :
    ∃ written, { s with file := s.file ++ prepared.encoded.take written, poisoned := true }
      = s' := by
  unfold persistAppend at h
  rw [get_bind_run] at h
  rcases bind_err.mp h with hverify | ⟨_, s₁, hverify, h⟩
  · -- The check before the write: the file is as it was.
    obtain ⟨_, hs⟩ := orPoison_err.mp hverify
    refine ⟨0, ?_⟩
    rw [← hs, take_zero, append_nil]
  obtain ⟨_, rfl⟩ := orPoison_ok.mp hverify
  rcases bind_err.mp h with hwrite | ⟨_, s₂, hwrite, h⟩
  · generalize env.write = outcome at hwrite
    cases outcome with
    | none => cases hwrite
    | some failure =>
      obtain ⟨written, source⟩ := failure
      cases hwrite
      exact ⟨written, rfl⟩
  -- From here on the whole text is in the file.
  obtain ⟨_, hs₂⟩ := writeAppend_ok hwrite
  have hall : ∀ s', { s₂ with poisoned := true } = s' → ∃ written,
      { s with file := s.file ++ prepared.encoded.take written, poisoned := true } = s' := by
    intro s' hs'
    refine ⟨prepared.encoded.length, ?_⟩
    rw [take_length, ← hs', ← hs₂]
  rcases bind_err.mp h with hsync | ⟨_, s₃, hsync, h⟩
  · exact hall s' (orPoison_err.mp hsync).2
  obtain ⟨_, rfl⟩ := orPoison_ok.mp hsync
  rw [get_bind_run] at h
  rcases bind_err.mp h with hafter | ⟨_, s₄, hafter, h⟩
  · exact hall s' (orPoison_err.mp hafter).2
  · cases h

/-- A prepared record that is applied comes to the write. -/
theorem appendLocked_of_apply (hprepared : prepareAppend x env s event blocks = .ok prepared)
    (happly : applyRecord x env.blockMemory prepared.record s.semantic = .ok () semantic) :
    appendLocked x env event blocks s = persistAppend env prepared { s with semantic } := by
  unfold appendLocked
  rw [get_bind_run, check_bind_of_ok hprepared]
  exact bind_of_ok (onField_ok.mpr ⟨semantic, happly, rfl⟩)

/-- `append_locked` is refused with the journal as it was, or it comes to
the write. -/
theorem appendLocked_cases :
    (∃ e, appendLocked x env event blocks s = .error e s) ∨
      ∃ prepared semantic, prepareAppend x env s event blocks = .ok prepared ∧
        applyRecord x env.blockMemory prepared.record s.semantic = .ok () semantic ∧
        appendLocked x env event blocks s = persistAppend env prepared { s with semantic } := by
  cases hprepared : prepareAppend x env s event blocks with
  | error e =>
    refine .inl ⟨e, ?_⟩
    unfold appendLocked
    rw [get_bind_run, hprepared]
    rfl
  | ok prepared =>
    cases happly : applyRecord x env.blockMemory prepared.record s.semantic with
    | ok u semantic =>
      exact .inr ⟨prepared, semantic, rfl, happly, appendLocked_of_apply x hprepared happly⟩
    | error e semantic =>
      -- `apply_record` refused: it wrote nothing.
      refine .inl ⟨e, ?_⟩
      unfold appendLocked
      rw [get_bind_run, check_bind_of_ok hprepared]
      refine bind_of_err (onField_err.mpr ⟨semantic, happly, ?_⟩)
      rw [applyRecord_error x happly]

/-- What `append_locked` does to a settled journal when it succeeds. -/
theorem appendLocked_ok (hs : Settled s) (h : appendLocked x env event blocks s = .ok () s') :
    ∃ record, record.event = event ∧ record.winnerBlocks = blocks ∧
      Appends x s.image record s'.image ∧ Settled s' := by
  rcases appendLocked_cases x with
    ⟨e, he⟩ | ⟨prepared, semantic, hprepared, happly, heq⟩
  · rw [he] at h
    cases h
  · rw [heq] at h
    obtain ⟨happends, hevent, hblocks, hlength⟩ := appends_of_prepareAppend x hs hprepared happly
    obtain ⟨_, _, _, _, rfl⟩ := persistAppend_ok h
    exact ⟨prepared.record, hevent, hblocks, happends, hs.usable, hlength⟩

/-! ## The public appends on images -/

/-- The records that a call writes to an image. -/
def Records (img : Image) (record : PersistedEventRecord) : AppendCall → Prop
  | .event proposed =>
    eventWithSequence record.eventSeq proposed = .ok record.event ∧ record.winnerBlocks = {} ∧
      ∀ eventSeq shareId jobId winner change,
        record.event ≠ .winnerChanged eventSeq shareId jobId winner change
  | .share submission =>
    ∃ attributionId,
      x.canonicalAttributionId submission.identity submission.targetLe = .ok attributionId ∧
      img.semantic.shares.lookup submission.shareId = none ∧
      record.event = .shareCommitted (submission.receipt record.eventSeq attributionId)
        submission.jobId submission.identity submission.targetLe ∧
      encodeWinnerBlocks submission.winnerBlocks record.eventSeq = .ok record.winnerBlocks
  | .winner shareId chain expectedRevision transition =>
    ∃ entry, img.semantic.winners.lookup ⟨shareId, chain⟩ = some entry ∧
      entry.revisionEventSeq = expectedRevision ∧
      record.event = transition.intoEvent record.eventSeq entry ∧ record.winnerBlocks = {}

/-- What a call may do to a settled journal. -/
def CallOutcome {α : Type} (call : AppendCall) (s : JournalState) :
    EStateM.Result PoolBackendJournalError JournalState α → Prop
  | .ok _ s' => s' = s ∨ ∃ record, Records x s.image record call ∧
      Appends x s.image record s'.image ∧ Settled s'
  | .error _ s' => s' = s ∨ ∃ record img', Records x s.image record call ∧
      Halted x s' s.image record img'

section

variable {x} {call : AppendCall} {env : AppendEnv} {s : JournalState} {img' : Image} {α β : Type}

variable (x call env s) in
/-- How a call runs: it is refused before the journal is touched, it
answers from memory, or it ends in an append. -/
inductive CallShape (result : EStateM.Result PoolBackendJournalError JournalState α) : Prop where
  | refused {e : PoolBackendJournalError} (h : result = .error e s)
  | answered {a : α} (husable : s.poisoned = false) (h : result = .ok a s)
  | appends {event : BackendEvent} {blocks : PersistedWinnerBlocks} {a : α}
      (husable : s.poisoned = false)
      (hrec : ∀ record : PersistedEventRecord, record.event = event →
        record.winnerBlocks = blocks → record.eventSeq = event.eventSeq →
        Records x s.image record call)
      (h : result = (appendLocked x env event blocks >>= fun _ => pure a) s)

/-- A check in front of a call. -/
theorem CallShape.check_bind {r : Result α} {f : α → JournalM β}
    (h : ∀ a, r = .ok a → CallShape x call env s (f a s)) :
    CallShape x call env s ((check r >>= f) s) := by
  cases r with
  | ok a => exact h a rfl
  | error e => exact .refused rfl

/-- Dropping the result of a call. -/
theorem CallShape.discard {m : JournalM α} (h : CallShape x call env s (m s)) :
    CallShape x call env s ((m >>= fun _ => pure ()) s) := by
  cases h with
  | refused h => exact .refused (bind_of_err h)
  | answered husable h => exact .answered husable (bind_of_ok h)
  | @appends event blocks a husable hrec h =>
    refine .appends (a := ()) husable hrec ?_
    cases happ : appendLocked x env event blocks s with
    | ok u s' =>
      rw [bind_of_ok happ] at h
      rw [bind_of_ok h, bind_of_ok happ]
    | error e s' =>
      rw [bind_of_err happ] at h
      rw [bind_of_err h, bind_of_err happ]

theorem ensureUsable_ok : ensureUsable s = .ok () ↔ s.poisoned = false := by
  unfold ensureUsable
  rw [rejectIf_eq_ok]
  simp

theorem appendEvent_shape (proposed : BackendEvent) :
    CallShape x (.event proposed) env s (appendEvent x env proposed s) := by
  -- The two guarded kinds return before the state is touched.
  have hbody : (∀ eventSeq shareId jobId winner change,
        proposed ≠ .winnerChanged eventSeq shareId jobId winner change) →
      CallShape x (.event proposed) env s ((do
        let state ← get
        check (ensureUsable state)
        let eventSeq ← check (nextEventSeq state.events)
        let event ← check (eventWithSequence eventSeq proposed)
        appendLocked x env event {}
        pure event : JournalM BackendEvent) s) := by
    intro hkind
    refine CallShape.check_bind fun _ husable => CallShape.check_bind fun eventSeq _ =>
      CallShape.check_bind fun event hevent => .appends (ensureUsable_ok.mp husable) ?_ rfl
    intro record hrecord hblocks hseq
    have hnext : event.eventSeq = eventSeq := by cases proposed <;> cases hevent <;> rfl
    rw [hnext] at hseq
    refine ⟨by rw [hseq, hrecord]; exact hevent, hblocks, ?_⟩
    intro eventSeq' shareId jobId winner change heq
    rw [hrecord] at heq
    subst heq
    cases proposed with
    | winnerChanged seq share job w c => exact hkind seq share job w c rfl
    | _ => cases hevent
  cases proposed with
  | shareCommitted receipt jobId identity targetLe
  | winnerChanged eventSeq shareId jobId winner change => exact .refused rfl
  | jobActivated eventSeq job | jobInvalidated eventSeq jobId reason acceptForMs
  | generationClosed eventSeq jobId => exact hbody (fun _ _ _ _ _ h => by cases h)

/-- How a public append runs, on any journal. -/
theorem AppendCall.run_shape : CallShape x call env s (call.run x env s) := by
  cases call with
  | event proposed => exact (appendEvent_shape proposed).discard
  | share submission =>
    refine CallShape.discard (CallShape.check_bind fun attributionId hattribution =>
      CallShape.check_bind fun _ husable => ?_)
    have husable := ensureUsable_ok.mp husable
    cases hshare : s.semantic.shares.lookup submission.shareId with
    | some existing =>
      dsimp only
      cases replayShare submission attributionId existing with
      | ok commit => exact .answered husable rfl
      | error e => exact .refused rfl
    | none =>
      dsimp only
      refine CallShape.check_bind fun eventSeq _ => CallShape.check_bind fun blocks hblocks =>
        .appends husable ?_ rfl
      intro record hevent hrecordBlocks hseq
      subst hseq
      exact ⟨attributionId, mapErr_eq_ok.mp hattribution, hshare, hevent,
        by rw [hrecordBlocks]; exact hblocks⟩
  | winner shareId chain expectedRevision transition =>
    refine CallShape.discard (CallShape.check_bind fun _ husable => CallShape.check_bind
      fun entry hentry => CallShape.check_bind fun _ hrevision => CallShape.check_bind
        fun eventSeq _ => .appends (ensureUsable_ok.mp husable) ?_ rfl)
    intro record hevent hblocks hseq
    subst hseq
    exact ⟨entry, okOr_eq_ok.mp hentry, of_rejectIf hrevision, hevent, hblocks⟩

/-- A public append on a settled journal. -/
theorem AppendCall.run_settled (hs : Settled s) (call : AppendCall) (env : AppendEnv) :
    CallOutcome x call s (call.run x env s) := by
  cases AppendCall.run_shape (x := x) with
  | refused h | answered _ h =>
    rw [h]
    exact .inl rfl
  | @appends event blocks _ _ hrec h =>
    rw [h]
    cases happ : appendLocked x env event blocks s with
    | ok u s' =>
      rw [bind_of_ok happ]
      obtain ⟨record, hevent, hblocks, happ, hs'⟩ := appendLocked_ok x hs happ
      have hseq : record.eventSeq = event.eventSeq := by rw [← hevent, happ.eventSeq]
      exact .inr ⟨record, hrec record hevent hblocks hseq, happ, hs'⟩
    | error e s' =>
      rw [bind_of_err happ]
      rcases appendLocked_cases x with
        ⟨e, he⟩ | ⟨prepared, semantic, hprepared, happly, heq⟩
      · rw [he] at happ
        cases happ
        exact .inl rfl
      -- The journal halts with the record pending.
      rw [heq] at happ
      obtain ⟨happends, hevent, hblocks, _⟩ := appends_of_prepareAppend x hs hprepared happly
      have hseq : prepared.record.eventSeq = event.eventSeq := by rw [← hevent, happends.eventSeq]
      obtain ⟨written, hs'⟩ := persistAppend_err happ
      subst hs'
      refine .inr ⟨prepared.record, prepared.imageAfter s semantic,
        hrec prepared.record hevent hblocks hseq, ?_⟩
      exact
        { poisoned := rfl
          appends := happends
          events := rfl
          lastDigest := rfl
          bytesWritten := hs.bytesWritten
          semantic := rfl
          lower := prefix_append _ _
          upper := (prefix_append_right_inj s.file).mpr (List.take_prefix _ _) }

/-- A public append on a poisoned journal fails and changes nothing. -/
theorem AppendCall.run_poisoned (hs : s.poisoned = true) (call : AppendCall) (env : AppendEnv) :
    ∃ e, call.run x env s = .error e s := by
  cases AppendCall.run_shape (x := x) with
  | @refused e h => exact ⟨e, h⟩
  | answered husable _ | appends husable _ _ =>
    rw [hs] at husable
    cases husable

/-! ## Acceptable records are written

With an environment in which nothing fails, a call whose record can be
appended appends it. -/

variable {record : PersistedEventRecord}

theorem reserveFor_of_applies (h : Applies x record s.semantic semantic) :
    reserveFor {} s.semantic record.event = .ok () := by
  cases h with
  | jobActivated hevent _ _ | jobInvalidated hevent _ _ _ | generationClosed hevent _ _ _
  | winnerChanged hevent _ _ _ _ _ =>
    rw [hevent]
    rfl
  | shareCommitted hevent hcapacity _ _ _ _ _ _ =>
    rw [hevent]
    show (checkedWinnerCapacity _ _ >>= _) = _
    rw [hcapacity]
    rfl

section

variable (hs : Settled s) (h : Appends x s.image record img') {json : Bytes}

include hs h

theorem prepareAppend_of_appends
    (htext : EncodesTo x record s.file img'.content s.events.length json) :
    prepareAppend x {} s record.event record.winnerBlocks =
      .ok ⟨record, json ++ [newline], img'.content.length⟩ := by
  have hnext : nextEventSeq s.events = .ok record.eventSeq := h.seq
  have hrecord : (⟨record.event.eventSeq, record.event, record.winnerBlocks, s.lastDigest,
      record.digest⟩ : PersistedEventRecord) = record := by
    rw [h.eventSeq, show s.lastDigest = record.previousDigest from h.previous.symm]
  have hdigest : digestEvent x record.event record.winnerBlocks s.lastDigest
      = .ok record.digest := by
    rw [show s.lastDigest = record.previousDigest from h.previous.symm]
    exact h.digest
  have hlength : (json ++ [newline]).length = json.length + 1 := length_append
  have hlt : json.length + 1 + 0 < 2 ^ 64 :=
    Nat.lt_of_le_of_lt htext.size (by unfold maxJournalRecordBytes; omega)
  have hlimits : checkedAppendLimits s.events.length s.bytesWritten (json.length + 1)
      = .ok img'.content.length := by
    rw [hs.bytesWritten]
    exact htext.limits
  unfold prepareAppend
  rw [h.valid, mapErr_ok, ok_bind, h.fits, ok_bind, hnext, ok_bind,
    rejectIf_bind (not_not.mpr h.eventSeq), show tryReserve none = .ok () from rfl,
    ok_bind, reserveFor_of_applies h.applies, ok_bind, hdigest, ok_bind]
  dsimp only
  rw [hrecord, htext.encoded, show canonicalJson (.ok json) "journal event record" = .ok json
    from rfl, ok_bind, hlength, show checkRecordSize (json.length + 1) _ = .ok () from
    rejectIf_of_not (Nat.not_lt.mpr htext.size), ok_bind, checkedAdd_of_lt hlt, okOr_bind,
    Nat.add_zero, hlimits, ok_bind]

/-- `append_locked` up to its call of `verify_locked_journal_path`. -/
theorem appendLocked_persists (htext : EncodesTo x record s.file img'.content s.events.length json)
    (sync : Option IoError) :
    appendLocked x { sync } record.event record.winnerBlocks s =
      persistAppend { sync } ⟨record, json ++ [newline], img'.content.length⟩
        { s with semantic := img'.semantic } := by
  have hprepare : prepareAppend x { sync } s record.event record.winnerBlocks =
      .ok ⟨record, json ++ [newline], img'.content.length⟩ := prepareAppend_of_appends hs h htext
  exact appendLocked_of_apply x hprepare h.applies.applyRecord

/-- The journal after an append of which everything was written and
nothing synced. -/
def JournalState.unsynced (s : JournalState) (img' : Image) : JournalState :=
  { s with file := img'.content, semantic := img'.semantic, poisoned := true }

end

/-- A call whose record is next to be written is an append of it. -/
theorem AppendCall.run_eq_appendLocked (env : AppendEnv) (husable : s.poisoned = false)
    (hrec : Records x s.image record call) (hnext : nextEventSeq s.events = .ok record.eventSeq) :
    call.run x env s = appendLocked x env record.event record.winnerBlocks s := by
  have husable : ensureUsable s = .ok () := ensureUsable_ok.mpr husable
  -- The value that the call returns is dropped.
  have hdrop : ∀ {α : Type} (a : α) (event : BackendEvent) (blocks : PersistedWinnerBlocks),
      (appendLocked x env event blocks >>= fun _ => (pure a : JournalM α) >>= fun _ => pure ()) s
        = appendLocked x env event blocks s := by
    intro α a event blocks
    cases happ : appendLocked x env event blocks s with
    | ok u s' => rw [bind_of_ok happ]; rfl
    | error e s' => rw [bind_of_err happ]
  cases call with
  | event proposed =>
    obtain ⟨hevent, hblocks, hkind⟩ := hrec
    have hbody : ((do
        let state ← get
        check (ensureUsable state)
        let eventSeq ← check (nextEventSeq state.events)
        let event ← check (eventWithSequence eventSeq proposed)
        appendLocked x env event {}
        pure event : JournalM BackendEvent) >>= fun _ => pure ()) s
          = appendLocked x env record.event record.winnerBlocks s := by
      rw [bind_assoc, get_bind_run, bind_assoc, check_bind_of_ok husable, bind_assoc,
        check_bind_of_ok hnext, bind_assoc, check_bind_of_ok hevent, bind_assoc, hdrop, hblocks]
    cases proposed with
    | shareCommitted receipt jobId identity targetLe => cases hevent
    | winnerChanged eventSeq shareId jobId winner change =>
      exact absurd (Except.ok.inj hevent).symm (hkind _ _ _ _ _)
    | jobActivated eventSeq job | jobInvalidated eventSeq jobId reason acceptForMs
    | generationClosed eventSeq jobId => exact hbody
  | share submission =>
    obtain ⟨attributionId, hattribution, hnew, hevent, hblocks⟩ := hrec
    have hnew : s.semantic.shares.lookup submission.shareId = none := hnew
    show (appendShareCommitted x env submission >>= fun _ => pure ()) s = _
    unfold appendShareCommitted
    rw [bind_assoc, check_bind_of_ok (mapErr_eq_ok.mpr hattribution), bind_assoc, get_bind_run,
      bind_assoc, check_bind_of_ok husable, hnew]
    unfold commitShare
    rw [bind_assoc, get_bind_run, bind_assoc, check_bind_of_ok hnext, bind_assoc,
      check_bind_of_ok hblocks, bind_assoc, hdrop, hevent]
  | winner shareId chain expectedRevision transition =>
    obtain ⟨entry, hentry, hrevision, hevent, hblocks⟩ := hrec
    have hentry : s.semantic.winners.lookup ⟨shareId, chain⟩ = some entry := hentry
    show (compareAndTransitionWinner x env shareId chain expectedRevision transition >>=
      fun _ => pure ()) s = _
    unfold compareAndTransitionWinner
    rw [bind_assoc, get_bind_run, bind_assoc, check_bind_of_ok husable, bind_assoc,
      check_bind_of_ok (okOr_eq_ok.mpr hentry), bind_assoc,
      check_bind_of_ok (rejectIf_of_not (not_not.mpr hrevision)), bind_assoc,
      check_bind_of_ok hnext, bind_assoc, hdrop, hevent, hblocks]

/-- A call whose record can be appended. -/
structure Takes (x : External) (img : Image) (call : AppendCall) (record : PersistedEventRecord)
    (img' : Image) : Prop where
  records : Records x img record call
  appends : Appends x img record img'

/-- It is appended. -/
theorem Takes.run (h : Takes x img call record img') :
    call.run x {} img.state = .ok () img'.state := by
  rw [AppendCall.run_eq_appendLocked {} rfl h.records h.appends.seq]
  obtain ⟨json, htext⟩ := h.appends.text
  have hcontent : img.state.file ++ (json ++ [newline]) = img'.content := htext.content.symm
  rw [appendLocked_persists img.state_settled h.appends htext]
  unfold persistAppend
  rw [get_bind_run, show verifyLockedJournalPath none _ _ = .ok () from
    rejectIf_of_not (not_not.mpr img.state_settled.bytesWritten.symm)]
  show (orPoison (verifyLockedJournalPath none (img.state.file ++ (json ++ [newline])) _) >>=
    _) _ = _
  rw [hcontent, show verifyLockedJournalPath none img'.content _ = .ok () from
    rejectIf_of_not (not_not.mpr rfl)]
  show EStateM.Result.ok () _ = _
  unfold Image.state
  rw [h.appends.lastDigest, h.appends.events, ← hcontent]
  rfl

/-- The same call when the file cannot be synced. -/
theorem Takes.run_unsynced (h : Takes x img call record img') (source : IoError) :
    call.run x { sync := some source } img.state =
      .error (io "fsync" source) (img.state.unsynced img') := by
  rw [AppendCall.run_eq_appendLocked _ rfl h.records h.appends.seq]
  obtain ⟨json, htext⟩ := h.appends.text
  have hcontent : img.state.file ++ (json ++ [newline]) = img'.content := htext.content.symm
  rw [appendLocked_persists img.state_settled h.appends htext]
  unfold persistAppend JournalState.unsynced
  rw [get_bind_run, show verifyLockedJournalPath none _ _ = .ok () from
    rejectIf_of_not (not_not.mpr img.state_settled.bytesWritten.symm), ← hcontent]
  rfl

end

end Wolf.PoolJournal
