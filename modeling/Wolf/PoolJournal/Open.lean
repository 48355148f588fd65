import Wolf.Framework.Lines
import Wolf.PoolJournal.Append

/-! # The pool backend journal: opening and replay

`open_existing` reads the file line by line, validates and applies each
record, and settles an unterminated last line: a complete record gets
its newline, a torn one is cut off, anything else is refused.

The method runs on the contents of the file. As for the appends, the
operating system and the allocator are an explicit environment, which
here also decides in which chunks the file is read. -/

namespace Wolf.PoolJournal

open PoolBackendJournalError Exec

variable (x : External)

/-! ## Lines -/

structure BoundedLine where
  bytes : Bytes
  terminated : Bool
  consumed : Nat

/-- The size check of `read_bounded_line`; the newline counts. -/
def checkLineSize (lineNumber size : Nat) (terminated : Bool) : Result Unit := do
  let resultingSize ← okOr (checkedAdd 64 size terminated.toNat) overflow
  rejectIf (maxJournalRecordBytes < resultingSize) (recordTooLarge lineNumber maxJournalRecordBytes)

def readBoundedLine (reader : Reader UInt8 IoError) (lineNumber : Nat) :
    Result (Option BoundedLine × Reader UInt8 IoError) := do
  let (line, reader) ← readLine newline (io "read") (checkLineSize lineNumber) [] reader
  .ok (line.map fun line =>
    ⟨line.bytes, line.terminated, line.bytes.length + line.terminated.toNat⟩, reader)

/-! ## The environment -/

/-- Outcomes of the calls made by `open_existing`. `prepare` is the first
failure of the path checks, the preflight, the open and the lock;
memory outcomes are given per line. -/
structure OpenEnv where
  prepare : Option PoolBackendJournalError := none
  inspect : Option IoError := none
  verifyInitial : Option PoolBackendJournalError := none
  clone : Option IoError := none
  seekStart : Option IoError := none
  reader : Bytes → Reader UInt8 IoError
  delivers : ∀ file, Delivers True (reader file) file
  blockMemory : Nat → BlockMemory := fun _ _ => none
  reserveEvents : Nat → Option TryReserveError := fun _ => none
  verifyTail : Option PoolBackendJournalError := none
  writeTail : Option (Nat × IoError) := none
  truncateTail : Option IoError := none
  syncTail : Option IoError := none
  verifySettled : Option PoolBackendJournalError := none
  verifyFinal : Option PoolBackendJournalError := none
  seekEnd : Option IoError := none

/-- No call fails, whatever the chunks. -/
structure OpenEnv.Reliable (env : OpenEnv) : Prop where
  prepare : env.prepare = none
  inspect : env.inspect = none
  verifyInitial : env.verifyInitial = none
  clone : env.clone = none
  seekStart : env.seekStart = none
  delivers : ∀ file, Delivers False (env.reader file) file
  blockMemory : ∀ line chain, env.blockMemory line chain = none
  reserveEvents : ∀ line, env.reserveEvents line = none
  verifyTail : env.verifyTail = none
  writeTail : env.writeTail = none
  truncateTail : env.truncateTail = none
  syncTail : env.syncTail = none
  verifySettled : env.verifySettled = none
  verifyFinal : env.verifyFinal = none
  seekEnd : env.seekEnd = none

/-- The environment that reads the whole file as one chunk. -/
def OpenEnv.wholeFile : OpenEnv where
  reader file := pushChunk file []
  delivers file := by
    have h : Delivers True (pushChunk file ([] : Reader UInt8 IoError)) (file ++ []) :=
      Delivers.pushChunk .done
    rwa [List.append_nil] at h

theorem OpenEnv.wholeFile_reliable : OpenEnv.wholeFile.Reliable where
  prepare := rfl
  inspect := rfl
  verifyInitial := rfl
  clone := rfl
  seekStart := rfl
  delivers file := by
    have h : Delivers False (pushChunk file ([] : Reader UInt8 IoError)) (file ++ []) :=
      Delivers.pushChunk .done
    rwa [List.append_nil] at h
  blockMemory _ _ := rfl
  reserveEvents _ := rfl
  verifyTail := rfl
  writeTail := rfl
  truncateTail := rfl
  syncTail := rfl
  verifySettled := rfl
  verifyFinal := rfl
  seekEnd := rfl

/-! ## Replay -/

/-- The locals of the replay loop. -/
structure Replay where
  completeBytes : Nat
  previousDigest : Hex32
  events : List BackendEvent
  semantic : JournalSemanticState

/-- A method on the contents of the opened file. -/
abbrev OpenM (α : Type) : Type := EStateM PoolBackendJournalError Bytes α

/-- `semantic.apply_record(&record)?` on the semantic state of the replay,
which is dropped on failure. -/
def applyReplayed (memory : BlockMemory) (record : PersistedEventRecord)
    (semantic : JournalSemanticState) : Result JournalSemanticState :=
  match applyRecord x memory record semantic with
  | .ok _ semantic => .ok semantic
  | .error e _ => .error e

/-- The three checks shared by the two branches that accept a record. -/
def acceptRecord (memory : BlockMemory) (record : PersistedEventRecord) (replay : Replay) :
    Result JournalSemanticState := do
  validateReplayedRecord x record replay.previousDigest replay.events.length
  let semantic ← applyReplayed x memory record replay.semantic
  ensureEventFitsPage x record.event
  .ok semantic

/-- The replay after an accepted record. -/
def Replay.push (replay : Replay) (record : PersistedEventRecord)
    (semantic : JournalSemanticState) (completeBytes : Nat) : Replay where
  completeBytes := completeBytes
  previousDigest := record.digest
  events := replay.events ++ [record.event]
  semantic := semantic

/-- The loop body for a terminated line. -/
def replayTerminated (env : OpenEnv) (line : BoundedLine) (lineNumber : Nat) (replay : Replay) :
    Result Replay := do
  let record ← mapErr (malformedRecord lineNumber) (x.parseRecord line.bytes)
  let semantic ← acceptRecord x (env.blockMemory lineNumber) record replay
  let _ ← checkedAppendLimits replay.events.length replay.completeBytes line.consumed
  tryReserve (env.reserveEvents lineNumber)
  let completeBytes ← okOr (checkedAdd 64 replay.completeBytes line.consumed) overflow
  .ok (replay.push record semantic completeBytes)

/-- `file.write_all(b"\n")`. -/
def writeDelimiter : Option (Nat × IoError) → OpenM Unit
  | none => modify fun file => file ++ [newline]
  | some (written, source) => do
    modify fun file => file ++ [newline].take written
    throw (io "repair delimiter in" source)

/-- The unterminated line is a complete record: its newline is written. -/
def repairTail (env : OpenEnv) (initialLength : Nat) (line : BoundedLine) (lineNumber : Nat)
    (record : PersistedEventRecord) (replay : Replay) : OpenM Replay := do
  let semantic ← check (acceptRecord x (env.blockMemory lineNumber) record replay)
  let repairedConsumed ← check (okOr (checkedAdd 64 line.consumed 1) overflow)
  let _ ← check (checkedAppendLimits replay.events.length replay.completeBytes repairedConsumed)
  let file ← get
  check (verifyLockedJournalPath env.verifyTail file initialLength)
  writeDelimiter env.writeTail
  check (journalIo "fsync repaired" env.syncTail)
  let completeBytes ← check (okOr (checkedAdd 64 replay.completeBytes repairedConsumed) overflow)
  let file ← get
  check (verifyLockedJournalPath env.verifySettled file completeBytes)
  check (tryReserve (env.reserveEvents lineNumber))
  pure (replay.push record semantic completeBytes)

/-- The unterminated line is torn: it is cut off. -/
def truncateTail (env : OpenEnv) (initialLength : Nat) (replay : Replay) : OpenM Replay := do
  let file ← get
  check (verifyLockedJournalPath env.verifyTail file initialLength)
  check (journalIo "truncate torn tail from" env.truncateTail)
  modify fun file => file.take replay.completeBytes
  check (journalIo "fsync recovered" env.syncTail)
  let file ← get
  check (verifyLockedJournalPath env.verifySettled file replay.completeBytes)
  pure replay

/-- The loop body for the unterminated last line. -/
def replayUnterminated (env : OpenEnv) (initialLength : Nat) (line : BoundedLine)
    (lineNumber : Nat) (replay : Replay) : OpenM Replay :=
  match x.parseRecord line.bytes with
  | .ok record => repairTail x env initialLength line lineNumber record replay
  | .error source =>
    if source.classify = .eof then
      truncateTail env initialLength replay
    else
      throw (malformedRecord lineNumber source)

/-- The checks after the loop when no tail was settled. -/
def finishReplay (env : OpenEnv) (initialLength : Nat) (replay : Replay) : OpenM Replay := do
  let file ← get
  check (verifyLockedJournalPath env.verifyFinal file initialLength)
  check (rejectIf (replay.completeBytes ≠ initialLength) pathChanged)
  pure replay

/-- The replay loop. Every turn reads at least one byte, so one turn per
byte of the file, and one more for its end, are enough. -/
def replayLoop (env : OpenEnv) (initialLength : Nat) :
    Nat → Reader UInt8 IoError → Nat → Replay → OpenM Replay
  | 0, _, _, _ => throw overflow
  | turns + 1, reader, lineNumber, replay => do
    let (line, reader) ← check (readBoundedLine reader lineNumber)
    match line with
    | none => finishReplay env initialLength replay
    | some line =>
      if line.terminated then do
        let replay ← check (replayTerminated x env line lineNumber replay)
        let lineNumber ← check (okOr (checkedAdd 64 lineNumber 1) overflow)
        replayLoop env initialLength turns reader lineNumber replay
      else
        replayUnterminated x env initialLength line lineNumber replay

/-! ## `open_existing` -/

/-- The checks of the header line. -/
def openHeader (expected : JournalIdentity) (line : Option BoundedLine) :
    Result (JournalHeader × Replay) := do
  let line ← okOr line emptyJournal
  rejectIf (¬ line.terminated) unterminatedHeader
  let header ← mapErr malformedHeader (x.parseHeader line.bytes)
  validateHeader x header
  validateExpectedHeader header expected
  let previousDigest ← digestHeader x header
  .ok (header, ⟨line.consumed, previousDigest, [], {}⟩)

/-- Everything before the first line is read. -/
def openFile (env : OpenEnv) (expected : JournalIdentity) (file : Bytes) : Result Unit := do
  validateIdentityAndNetwork expected none
  match env.prepare with
  | some error => .error error
  | none => do
    journalIo "inspect" env.inspect
    rejectIf (file.length = 0) emptyJournal
    rejectIf (maxJournalBytes < file.length) (journalTooLarge maxJournalBytes)
    verifyLockedJournalPath env.verifyInitial file file.length
    journalIo "clone descriptor for replay of" env.clone
    journalIo "seek" env.seekStart

def openExisting (env : OpenEnv) (expected : JournalIdentity) :
    OpenM (JournalHeader × JournalState) := do
  let file ← get
  check (openFile env expected file)
  let (headerLine, reader) ← check (readBoundedLine (env.reader file) 1)
  let (header, replay) ← check (openHeader x expected headerLine)
  let replay ← replayLoop x env file.length (file.length + 1) reader 2 replay
  check (journalIo "seek" env.seekEnd)
  let file ← get
  pure (header,
    { file := file
      bytesWritten := replay.completeBytes
      lastDigest := replay.previousDigest
      events := replay.events
      semantic := replay.semantic
      poisoned := false })

end Wolf.PoolJournal
