import Wolf.PoolJournal.Log
import Wolf.PoolJournal.Open

/-! # The pool backend journal: recovery

`open_existing` on a file that a crashed append may have left: all of a
logged image, and a prefix of the text of one further record. -/

namespace Wolf.PoolJournal

open PoolBackendJournalError Exec List

variable {x : External} {policy : Image → PersistedEventRecord → Prop} {header : JournalHeader}
  {records : List PersistedEventRecord} {img img' : Image} {record : PersistedEventRecord}
  {env : OpenEnv}

/-! ## What is assumed of the JSON encoding -/

/-- Compact JSON of the header and of records: it has no line break, reads
back as what was written, and a strict prefix of a record is reported
as cut off. -/
structure LawfulJson (x : External) : Prop where
  header_line : ∀ header json, x.headerJson header = .ok json → newline ∉ json
  header_parses : ∀ header json, x.headerJson header = .ok json → x.parseHeader json = .ok header
  record_line : ∀ record json, x.recordJson record = .ok json → newline ∉ json
  record_parses : ∀ record json, x.recordJson record = .ok json → x.parseRecord json = .ok record
  record_torn : ∀ record json torn, x.recordJson record = .ok json → torn <+: json → torn ≠ json →
    ∃ source, x.parseRecord torn = .error source ∧ source.classify = .eof

/-! ## Expected ends -/

/-- A step of `open_existing` gives `a`, or the environment failed. -/
def Gives {α : Type} (env : OpenEnv) (r : Result α) (a : α) : Prop :=
  r = .ok a ∨ (¬ env.Reliable ∧ ∃ e, r = .error e)

/-- A method of `open_existing` ends with `a` and the file `file`, or the
environment failed and left a file with `left`. -/
def Ends {α : Type} (env : OpenEnv) (left : Bytes → Prop)
    (m : EStateM.Result PoolBackendJournalError Bytes α) (a : α) (file : Bytes) : Prop :=
  m = .ok a file ∨ (¬ env.Reliable ∧ ∃ e file', m = .error e file' ∧ left file')

section

variable {α β : Type} {left left' : Bytes → Prop} {a : α} {b : β} {file file' : Bytes}
  {r : Result α} {f : α → OpenM β}

theorem Gives.of_ok (h : r = .ok a) : Gives env r a := .inl h

theorem Gives.bind {f : α → Result β} (hr : Gives env r a) (hf : Gives env (f a) b) :
    Gives env (r >>= f) b := by
  rcases hr with hr | ⟨henv, e, hr⟩
  · rw [hr, ok_bind]
    exact hf
  · rw [hr, error_bind]
    exact .inr ⟨henv, e, rfl⟩

theorem Ends.check_bind (hr : Gives env r a) (hleft : left file)
    (hf : Ends env left (f a file) b file') : Ends env left ((check r >>= f) file) b file' := by
  rcases hr with hr | ⟨henv, e, hr⟩
  · rw [hr, check_ok, pure_bind]
    exact hf
  · rw [hr]
    exact .inr ⟨henv, e, file, rfl, hleft⟩

theorem Ends.bind {m : OpenM α} {middle : Bytes} (hm : Ends env left (m file) a middle)
    (hf : Ends env left (f a middle) b file') : Ends env left ((m >>= f) file) b file' := by
  rcases hm with hm | ⟨henv, e, f', hm, hleft⟩
  · rw [bind_of_ok hm]
    exact hf
  · rw [bind_of_err hm]
    exact .inr ⟨henv, e, f', rfl, hleft⟩

theorem Ends.mono {m : EStateM.Result PoolBackendJournalError Bytes α} (h : Ends env left m a file)
    (himp : ∀ f, left f → left' f) : Ends env left' m a file := by
  rcases h with h | ⟨henv, e, f', h, hleft⟩
  · exact .inl h
  · exact .inr ⟨henv, e, f', h, himp f' hleft⟩

theorem gives_tryReserve {outcome : Option TryReserveError} (h : env.Reliable → outcome = none) :
    Gives env (tryReserve outcome) () := by
  cases outcome with
  | none => exact .inl rfl
  | some e => exact .inr ⟨fun hrel => absurd (h hrel) (by simp), allocation e, rfl⟩

theorem gives_journalIo {operation : String} {outcome : Option IoError}
    (h : env.Reliable → outcome = none) : Gives env (journalIo operation outcome) () := by
  cases outcome with
  | none => exact .inl rfl
  | some e => exact .inr ⟨fun hrel => absurd (h hrel) (by simp), io operation e, rfl⟩

theorem gives_verify {outcome : Option PoolBackendJournalError} {length : Nat}
    (h : env.Reliable → outcome = none) (hlength : file.length = length) :
    Gives env (verifyLockedJournalPath outcome file length) () := by
  cases outcome with
  | none => exact .inl (rejectIf_of_not (not_not.mpr hlength))
  | some e => exact .inr ⟨fun hrel => absurd (h hrel) (by simp), e, rfl⟩

end

/-- The reader of an environment fails only where the environment does. -/
theorem OpenEnv.delivers_of_faults (env : OpenEnv) (file : Bytes) :
    Delivers (¬ env.Reliable) (env.reader file) file := by
  have hmono : ∀ {p q : Prop} {reader : Reader UInt8 IoError} {content : Bytes}, (p → q) →
      Delivers p reader content → Delivers q reader content := by
    intro p q reader content himp hd
    induction hd with
    | done => exact .done
    | chunk hne _ ih => exact .chunk hne ih
    | failed h => exact .failed (himp h)
  by_cases hrel : env.Reliable
  · exact hmono False.elim (hrel.delivers file)
  · exact hmono (fun _ => hrel) (env.delivers file)

/-! ## Lines -/

theorem checkLineSize_ok {lineNumber size : Nat} {terminated : Bool}
    (h : size + terminated.toNat ≤ maxJournalRecordBytes) :
    checkLineSize lineNumber size terminated = .ok () := by
  have hlt : size + terminated.toNat < 2 ^ 64 :=
    Nat.lt_of_le_of_lt h (by unfold maxJournalRecordBytes; omega)
  unfold checkLineSize
  rw [checkedAdd_of_lt hlt, okOr_bind]
  exact rejectIf_of_not (Nat.not_lt.mpr h)

variable {reader : Reader UInt8 IoError} {lineNumber : Nat} {faults : Prop}
  {rs : List PersistedEventRecord} {json file part tail rest file' : Bytes}

theorem readBoundedLine_terminated {body : Bytes}
    (hd : Delivers faults reader (body ++ newline :: rest)) (hbody : newline ∉ body)
    (hsize : body.length + 1 ≤ maxJournalRecordBytes) :
    (∃ reader', readBoundedLine reader lineNumber
        = .ok (some ⟨body, true, body.length + 1⟩, reader') ∧ Delivers faults reader' rest) ∨
      (faults ∧ ∃ e, readBoundedLine reader lineNumber = .error e) := by
  have hread := readLine_terminated (io "read") (checkLineSize lineNumber) [] hd hbody
    (by
      intro n hn
      rw [length_nil, Nat.zero_add] at hn
      exact checkLineSize_ok (by show n + 0 ≤ _; omega))
    (by
      rw [length_nil, Nat.zero_add]
      exact checkLineSize_ok hsize)
  unfold readBoundedLine
  rcases hread with ⟨reader', hline, hrest⟩ | ⟨hf, e, hline⟩
  · left
    rw [hline]
    exact ⟨reader', rfl, hrest⟩
  · right
    rw [hline]
    exact ⟨hf, io "read" e, rfl⟩

theorem readBoundedLine_unterminated {content : Bytes} (hd : Delivers faults reader content)
    (hcontent : newline ∉ content) (hsize : content.length ≤ maxJournalRecordBytes) :
    readBoundedLine reader lineNumber =
        .ok (if content = [] then none else some ⟨content, false, content.length⟩, []) ∨
      (faults ∧ ∃ e, readBoundedLine reader lineNumber = .error e) := by
  have hread := readLine_unterminated (io "read") (checkLineSize lineNumber) [] hd hcontent
    (by
      intro n hn
      rw [length_nil, Nat.zero_add] at hn
      exact checkLineSize_ok (by show n + 0 ≤ _; omega))
  unfold readBoundedLine
  rcases hread with hline | ⟨hf, e, hline⟩
  · left
    rw [hline, nil_append]
    by_cases hnil : content = []
    · rw [if_pos hnil, if_pos hnil]
      rfl
    · rw [if_neg hnil, if_neg hnil]
      rfl
  · right
    rw [hline]
    exact ⟨hf, io "read" e, rfl⟩

/-! ## One record -/

/-- The replay that has reached an image. -/
def Replay.of (img : Image) : Replay where
  completeBytes := img.content.length
  previousDigest := img.lastDigest
  events := img.events
  semantic := img.semantic

/-- Sequence numbers count the events of the image. -/
def Counted (img : Image) : Prop := lastEventSeq img.events = img.events.length

theorem Counted.append (h : Counted img) (happ : Appends x img record img') : Counted img' := by
  show lastEventSeq img'.events = img'.events.length
  rw [happ.events, lastEventSeq_append, happ.eventSeq, (nextEventSeq_ok.mp happ.seq).1, h,
    length_append]
  rfl

/-- A record that was appended is accepted by the replay. -/
theorem gives_acceptRecord (hc : Counted img) (happ : Appends x img record img') (line : Nat) :
    Gives env (acceptRecord x (env.blockMemory line) record (Replay.of img)) img'.semantic := by
  have hvalid : validateReplayedRecord x record img.lastDigest img.events.length = .ok () := by
    obtain ⟨hseq, hlt⟩ := nextEventSeq_ok.mp happ.seq
    rw [hc] at hseq
    unfold validateReplayedRecord
    rw [checkedAdd_of_lt (hseq ▸ hlt), okOr_bind, ← hseq,
      rejectIf_bind (not_not.mpr rfl),
      rejectIf_bind (not_not.mpr happ.eventSeq), happ.valid, mapErr_ok, ok_bind,
      rejectIf_bind (not_not.mpr happ.previous), happ.digest, ok_bind,
      rejectIf_of_not (not_not.mpr rfl)]
  have hreplayed : Gives env (applyReplayed x (env.blockMemory line) record img.semantic)
      img'.semantic := by
    unfold applyReplayed
    by_cases hrel : env.Reliable
    · left
      have hmemory : env.blockMemory line = fun _ => none := funext (hrel.blockMemory line)
      rw [hmemory, happ.applies.applyRecord]
    · cases h : applyRecord x (env.blockMemory line) record img.semantic with
      | ok u semantic =>
        left
        rw [(Applies.of_applyRecord x h).unique x happ.applies]
      | error e semantic => exact .inr ⟨hrel, e, rfl⟩
  exact Gives.bind (.of_ok hvalid) (Gives.bind hreplayed
    (Gives.bind (.of_ok happ.fits) (.of_ok rfl)))

theorem Replay.push_of (happ : Appends x img record img') :
    (Replay.of img).push record img'.semantic img'.content.length = Replay.of img' := by
  unfold Replay.push Replay.of
  rw [happ.lastDigest, happ.events]

/-! ## All complete records -/

/-- A log read forwards. -/
inductive Steps (x : External) : Image → List PersistedEventRecord → Image → Prop where
  | done {img : Image} : Steps x img [] img
  | record {img img₁ img' : Image} {record : PersistedEventRecord}
      {rest : List PersistedEventRecord} (h : Appends x img record img₁)
      (hrest : Steps x img₁ rest img') : Steps x img (record :: rest) img'

theorem Steps.snoc {img₁ : Image} (h : Steps x img rs img₁) (happ : Appends x img₁ record img') :
    Steps x img (rs ++ [record]) img' := by
  induction h with
  | done => exact .record happ .done
  | record h _ ih => exact .record h (ih happ)

theorem Logged.steps (h : Logged x policy header records img) :
    ∃ img₀, HeaderImage x header img₀ ∧ Steps x img₀ records img := by
  induction h with
  | created h => exact ⟨_, h, .done⟩
  | append _ _ happ ih =>
    obtain ⟨img₀, hheader, hsteps⟩ := ih
    exact ⟨img₀, hheader, hsteps.snoc happ⟩

/-- The text of a log contains at least a byte per record. -/
theorem Steps.content (h : Steps x img rs img') :
    ∃ text, img'.content = img.content ++ text ∧ rs.length ≤ text.length := by
  induction h with
  | done => exact ⟨[], by rw [append_nil], Nat.le_refl _⟩
  | record happ _ ih =>
    obtain ⟨text, hcontent, hlength⟩ := ih
    obtain ⟨json, htext⟩ := happ.text
    refine ⟨json ++ [newline] ++ text, ?_, ?_⟩
    · rw [hcontent, htext.content, append_assoc]
    · rw [length_append, length_append, length_cons, length_singleton]
      omega

theorem HeaderImage.counted (h : HeaderImage x header img) : Counted img := by
  show lastEventSeq img.events = img.events.length
  rw [h.events]
  rfl

section

variable {left : Bytes → Prop} {file file' : Bytes} {initialLength turns : Nat} {a : Replay}

/-- Complete records are replayed one by one, whatever follows them. -/
theorem replayLoop_records (hx : LawfulJson x) (hsteps : Steps x img rs img') (hc : Counted img)
    (hd : Delivers (¬ env.Reliable) reader rest)
    (hrest : img.content ++ rest = img'.content ++ tail) (hleft : left file)
    (hend : ∀ reader', Delivers (¬ env.Reliable) reader' tail →
      Ends env left (replayLoop x env initialLength turns reader' (img'.events.length + 2)
        (Replay.of img') file) a file') :
    Ends env left (replayLoop x env initialLength (turns + rs.length) reader
      (img.events.length + 2) (Replay.of img) file) a file' := by
  induction hsteps generalizing reader rest with
  | done =>
    rw [append_cancel_left hrest] at hd
    exact hend reader hd
  | @record img img₁ img' record rs happ hsteps ih =>
    obtain ⟨json, htext⟩ := happ.text
    obtain ⟨text, hcontent, _⟩ := hsteps.content
    -- What is left to read starts with the line of this record.
    have hline : rest = json ++ newline :: (text ++ tail) := by
      rw [hcontent, htext.content, append_assoc, append_assoc] at hrest
      rw [append_cancel_left hrest, append_assoc, singleton_append]
    rw [hline] at hd
    have hcount : img₁.events.length = img.events.length + 1 := by
      rw [happ.events, length_append]
      rfl
    have hnumber : checkedAdd 64 (img.events.length + 2) 1 = some (img₁.events.length + 2) := by
      have := (checkedAppendLimits_ok.mp htext.limits).1
      rw [checkedAdd_of_lt (by unfold maxJournalEvents at this; omega), hcount]
    show Ends env left ((check (readBoundedLine reader (img.events.length + 2)) >>= _) file) a file'
    rcases readBoundedLine_terminated hd
        (hx.record_line record json htext.encoded) htext.size with
      ⟨reader', hread, hd'⟩ | ⟨henv, e, hread⟩
    · rw [check_bind_of_ok hread]
      have hturn : Gives env (replayTerminated x env ⟨json, true, json.length + 1⟩
          (img.events.length + 2) (Replay.of img)) (Replay.of img₁) := by
        obtain ⟨_, hlt, hlength, _⟩ := checkedAppendLimits_ok.mp htext.limits
        refine Gives.bind (.of_ok (mapErr_eq_ok.mpr
          (hx.record_parses record json htext.encoded))) ?_
        refine Gives.bind (gives_acceptRecord hc happ _) ?_
        refine Gives.bind (.of_ok htext.limits) ?_
        refine Gives.bind (gives_tryReserve fun hrel => hrel.reserveEvents _) ?_
        refine Gives.bind (.of_ok (okOr_eq_ok.mpr (checkedAdd_eq_some.mpr ⟨hlt, hlength.symm⟩))) ?_
        rw [Replay.push_of happ]
        exact .of_ok rfl
      refine Ends.check_bind hturn hleft ?_
      refine Ends.check_bind (.of_ok (okOr_eq_ok.mpr hnumber)) hleft ?_
      refine ih (hc.append happ) hd' ?_ hend
      rw [hcontent, append_assoc]
    · rw [hread]
      exact .inr ⟨henv, e, file, rfl, hleft⟩

/-! ## The end of the file -/

/-- A complete record without its newline is completed. -/
theorem replayUnterminated_complete (hx : LawfulJson x) (hc : Counted img)
    (happ : Appends x img record img')
    (htext : EncodesTo x record img.content img'.content img.events.length json)
    (hleft : left (img.content ++ json)) (hleft' : left img'.content) :
    Ends env left (replayUnterminated x env (img.content ++ json).length
      ⟨json, false, json.length⟩ lineNumber (Replay.of img) (img.content ++ json))
      (Replay.of img') img'.content := by
  obtain ⟨_, hlt, hlength, _⟩ := checkedAppendLimits_ok.mp htext.limits
  have hcontent : img.content ++ json ++ [newline] = img'.content := by
    rw [htext.content, append_assoc]
  have hconsumed : checkedAdd 64 json.length 1 = some (json.length + 1) :=
    checkedAdd_of_lt (Nat.lt_of_le_of_lt (Nat.le_add_left _ _) hlt)
  -- Writing the newline gives the file after the append, or fails and leaves
  -- one of the two.
  have hwrite : Ends env left (writeDelimiter env.writeTail (img.content ++ json)) ()
      img'.content := by
    cases hout : env.writeTail with
    | none =>
      left
      rw [← hcontent]
      rfl
    | some failure =>
      obtain ⟨written, source⟩ := failure
      right
      refine ⟨fun hrel => ?_, _, _, rfl, ?_⟩
      · rw [hrel.writeTail] at hout
        cases hout
      · show left (img.content ++ json ++ [newline].take written)
        cases written with
        | zero =>
          rw [take_zero, append_nil]
          exact hleft
        | succ n =>
          rw [take_of_length_le (by simp), hcontent]
          exact hleft'
  unfold replayUnterminated
  rw [hx.record_parses record json htext.encoded]
  refine Ends.check_bind (gives_acceptRecord hc happ _) hleft ?_
  refine Ends.check_bind (.of_ok (okOr_eq_ok.mpr hconsumed)) hleft ?_
  refine Ends.check_bind (.of_ok htext.limits) hleft ?_
  refine Ends.check_bind (gives_verify (fun hrel => hrel.verifyTail) rfl) hleft ?_
  refine Ends.bind hwrite ?_
  refine Ends.check_bind (gives_journalIo fun hrel => hrel.syncTail) hleft' ?_
  refine Ends.check_bind
    (.of_ok (okOr_eq_ok.mpr (checkedAdd_eq_some.mpr ⟨hlt, hlength.symm⟩))) hleft' ?_
  refine Ends.check_bind (gives_verify (fun hrel => hrel.verifySettled) rfl) hleft' ?_
  refine Ends.check_bind (gives_tryReserve fun hrel => hrel.reserveEvents lineNumber) hleft' ?_
  rw [Replay.push_of happ]
  exact .inl rfl

end

/-! ## `open_existing` -/

theorem validateExpectedHeader_identity :
    validateExpectedHeader header header.identity = .ok () := by
  unfold validateExpectedHeader JournalHeader.identity
  simp [rejectIf]

theorem gives_openFile (hvalid : validateHeader x header = .ok ()) (hpos : 0 < file.length)
    (hmax : file.length ≤ maxJournalBytes) : Gives env (openFile env header.identity file) () := by
  refine Gives.bind (a := ()) (.of_ok ?_) ?_
  · obtain ⟨_, _, hvalid⟩ := of_two_binds hvalid
    unfold validateIdentityAndNetwork at hvalid ⊢
    obtain ⟨_, hinstance, hvalid⟩ := of_bind hvalid
    obtain ⟨_, _, hvalid⟩ := of_bind hvalid
    rw [hinstance, ok_bind]
    exact hvalid
  cases hprepare : env.prepare with
  | some error =>
    refine .inr ⟨fun hrel => ?_, error, rfl⟩
    rw [hrel.prepare] at hprepare
    cases hprepare
  | none =>
    refine Gives.bind (gives_journalIo fun hrel => hrel.inspect) ?_
    refine Gives.bind (.of_ok (rejectIf_of_not (Nat.pos_iff_ne_zero.mp hpos))) ?_
    refine Gives.bind (.of_ok (rejectIf_of_not (Nat.not_lt.mpr hmax))) ?_
    refine Gives.bind (gives_verify (fun hrel => hrel.verifyInitial) rfl) ?_
    refine Gives.bind (gives_journalIo fun hrel => hrel.clone) ?_
    exact gives_journalIo fun hrel => hrel.seekStart

/-- The journal in memory that a replay ends in. -/
def Replay.state (replay : Replay) (file : Bytes) : JournalState where
  file := file
  bytesWritten := replay.completeBytes
  lastDigest := replay.previousDigest
  events := replay.events
  semantic := replay.semantic
  poisoned := false

section

variable (hx : LawfulJson x) (hlog : Logged x policy header records img)

include hx hlog

/-- Opening a file that starts with a log: everything but its end. -/
theorem openExisting_logged {left : Bytes → Prop} {a : Replay}
    (hmax : (img.content ++ tail).length ≤ maxJournalBytes)
    (hleft : left (img.content ++ tail)) (hleft' : left file')
    (hend : ∀ turns reader', Delivers (¬ env.Reliable) reader' tail →
      Ends env left (replayLoop x env (img.content ++ tail).length (turns + 1) reader'
        (img.events.length + 2) (Replay.of img) (img.content ++ tail)) a file') :
    Ends env left (openExisting x env header.identity (img.content ++ tail))
      (header, a.state file') file' := by
  obtain ⟨img₀, hheader, hsteps⟩ := hlog.steps
  obtain ⟨json, hjson, hsize, hcontent₀⟩ := hheader.text
  obtain ⟨text, hcontent, hcount⟩ := hsteps.content
  have hpos : 0 < (img.content ++ tail).length := by
    rw [length_append]
    exact Nat.lt_of_lt_of_le hlog.content_pos (Nat.le_add_right _ _)
  have hreplay : (⟨json.length + 1, img₀.lastDigest, [], {}⟩ : Replay) = Replay.of img₀ := by
    unfold Replay.of
    rw [hheader.events, hheader.semantic, hcontent₀, length_append]
    rfl
  have hfile : img.content ++ tail = json ++ newline :: (text ++ tail) := by
    rw [hcontent, hcontent₀, append_assoc, append_assoc, singleton_append]
  have hd := env.delivers_of_faults (img.content ++ tail)
  refine Ends.check_bind (gives_openFile hheader.valid hpos hmax) hleft ?_
  nth_rewrite 2 [hfile] at hd
  rcases readBoundedLine_terminated hd (hx.header_line header json hjson) hsize with
    ⟨reader', hread, hd'⟩ | ⟨henv, e, hread⟩
  · have hopen : openHeader x header.identity (some ⟨json, true, json.length + 1⟩)
        = .ok (header, Replay.of img₀) := by
      unfold openHeader
      rw [okOr_bind, rejectIf_bind (by simp),
        hx.header_parses header json hjson, mapErr_ok, ok_bind, hheader.valid, ok_bind,
        validateExpectedHeader_identity, ok_bind, hheader.digest, ok_bind, hreplay]
    rw [check_bind_of_ok hread]
    dsimp only
    rw [check_bind_of_ok hopen]
    dsimp only
    -- One turn per record, and at least one more for the end.
    have hturns : ∃ turns, (img.content ++ tail).length + 1 = turns + 1 + records.length := by
      refine ⟨(img.content ++ tail).length - records.length, ?_⟩
      have : records.length ≤ (img.content ++ tail).length := by
        rw [hcontent, length_append, length_append]
        omega
      omega
    obtain ⟨turns, hturns⟩ := hturns
    rw [hturns]
    have hzero : 2 = img₀.events.length + 2 := by
      rw [hheader.events]
      rfl
    have hloop : Ends env left (replayLoop x env (img.content ++ tail).length
        (turns + 1 + records.length) reader' 2 (Replay.of img₀) (img.content ++ tail)) a file' := by
      nth_rewrite 1 [hzero]
      refine replayLoop_records hx hsteps hheader.counted hd' ?_ hleft (hend turns)
      rw [hcontent, append_assoc]
    refine Ends.bind hloop ?_
    exact Ends.check_bind (gives_journalIo fun hrel => hrel.seekEnd) hleft' (.inl rfl)
  · rw [hread]
    exact .inr ⟨henv, e, _, rfl, hleft⟩

/-- A file that ends after a complete record. -/
theorem openExisting_whole :
    Ends env (fun file => file = img.content) (openExisting x env header.identity img.content)
      (header, img.state) img.content := by
  have hopen : Ends env (fun file => file = img.content)
      (openExisting x env header.identity (img.content ++ []))
      (header, (Replay.of img).state img.content) img.content := by
    refine openExisting_logged hx hlog ?_ (append_nil _) rfl ?_
    · rw [append_nil]
      exact hlog.content_le
    · intro turns reader' hd
      rw [append_nil]
      show Ends env _ ((check (readBoundedLine reader' _) >>= _) img.content) _ _
      rcases readBoundedLine_unterminated hd not_mem_nil
          (Nat.zero_le _) with hread | ⟨henv, e, hread⟩
      · rw [check_bind_of_ok hread]
        show Ends env _ (finishReplay env img.content.length (Replay.of img) img.content) _ _
        refine Ends.check_bind (gives_verify (fun hrel => hrel.verifyFinal) rfl) rfl ?_
        exact Ends.check_bind (.of_ok (rejectIf_of_not (not_not.mpr rfl))) rfl (.inl rfl)
      · rw [hread]
        exact .inr ⟨henv, e, img.content, rfl, rfl⟩
  rw [append_nil] at hopen
  exact hopen

/-- The files between two images, which a crash can leave. -/
def Between (img img' : Image) (file : Bytes) : Prop :=
  img.content <+: file ∧ file <+: img'.content

/-- A file that ends inside a record. -/
theorem openExisting_part
    (htext : EncodesTo x record img.content img'.content img.events.length json)
    (hpart : part <+: json) (hpos : part ≠ []) {target : Image}
    (htarget : Between img img' target.content)
    (hend : ∀ lineNumber, Between img img' (img.content ++ part) →
      Ends env (Between img img') (replayUnterminated x env (img.content ++ part).length
        ⟨part, false, part.length⟩ lineNumber (Replay.of img) (img.content ++ part))
        (Replay.of target) target.content) :
    Ends env (Between img img') (openExisting x env header.identity (img.content ++ part))
      (header, target.state) target.content := by
  have hleft : Between img img' (img.content ++ part) := by
    refine ⟨prefix_append _ _, htext.content ▸ (prefix_append_right_inj _).mpr ?_⟩
    exact hpart.trans (prefix_append _ _)
  show Ends env (Between img img') _ (header, (Replay.of target).state target.content) _
  refine openExisting_logged hx hlog ?_ hleft htarget ?_
  · exact Nat.le_trans hleft.2.length_le (checkedAppendLimits_ok.mp htext.limits).2.2.2
  · intro turns reader' hd
    have hline : newline ∉ part :=
      fun hmem => hx.record_line record json htext.encoded (hpart.subset hmem)
    have hsize : part.length ≤ maxJournalRecordBytes := by
      have := htext.size
      have := hpart.length_le
      omega
    show Ends env _ ((check (readBoundedLine reader' _) >>= _) _) _ _
    rcases readBoundedLine_unterminated hd hline hsize with hread | ⟨henv, e, hread⟩
    · rw [if_neg hpos] at hread
      rw [check_bind_of_ok hread]
      exact hend _ hleft
    · rw [hread]
      exact .inr ⟨henv, e, _, rfl, hleft⟩

/-- Opening what a crashed append left gives the journal before the append
or the one after it: the latter exactly when the whole record, with or
without its newline, was written. -/
theorem openExisting_between (happ : Appends x img record img') (hpolicy : policy img record)
    (hfile : Between img img' file) :
    Ends env (Between img img') (openExisting x env header.identity file)
        (header, img.state) img.content ∨
      Ends env (Between img img') (openExisting x env header.identity file)
        (header, img'.state) img'.content := by
  obtain ⟨json, htext⟩ := happ.text
  obtain ⟨hlower, hupper⟩ := hfile
  obtain ⟨part, rfl⟩ := hlower
  have hpart : part <+: json ++ [newline] := by
    rw [htext.content] at hupper
    exact (prefix_append_right_inj _).mp hupper
  have hbefore : Between img img' img.content :=
    ⟨prefix_rfl, htext.content ▸ prefix_append _ _⟩
  have hafter : Between img img' img'.content := ⟨hbefore.2, prefix_rfl⟩
  by_cases hempty : part = []
  · -- Nothing was written.
    subst hempty
    left
    rw [append_nil]
    exact (openExisting_whole hx hlog).mono fun _ hf => hf ▸ hbefore
  rcases prefix_concat_iff.mp hpart with hall | hpart
  · -- The whole line was written.
    right
    rw [hall, ← htext.content]
    exact (openExisting_whole hx (hlog.append hpolicy happ)).mono fun _ hf => hf ▸ hafter
  · by_cases hjson : part = json
    · -- Only the newline is missing: the record is completed.
      subst hjson
      exact .inr (openExisting_part hx hlog htext hpart hempty hafter fun _ hleft =>
        replayUnterminated_complete hx hlog.lastEventSeq_eq happ htext hleft hafter)
    · -- The record is cut off.
      refine .inl (openExisting_part hx hlog htext hpart hempty hbefore fun lineNumber hleft => ?_)
      obtain ⟨source, hparse, heof⟩ := hx.record_torn record json part htext.encoded hpart hjson
      have htake : (img.content ++ part).take img.content.length = img.content := take_left
      unfold replayUnterminated
      rw [hparse]
      dsimp only
      rw [if_pos heof]
      refine Ends.check_bind (gives_verify (fun hrel => hrel.verifyTail) rfl) hleft ?_
      refine Ends.check_bind (gives_journalIo fun hrel => hrel.truncateTail) hleft ?_
      rw [modify_bind_run]
      show Ends env _ ((_ : OpenM Replay) ((img.content ++ part).take img.content.length)) _ _
      rw [htake]
      refine Ends.check_bind (gives_journalIo fun hrel => hrel.syncTail) hbefore ?_
      exact Ends.check_bind (gives_verify (fun hrel => hrel.verifySettled) rfl) hbefore (.inl rfl)

end

end Wolf.PoolJournal
