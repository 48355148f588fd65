import Wolf.PoolJournal.Append

/-! # The pool backend journal: queries

What callers can read from an open journal: event pages, the winner
schedulers, single winners, counts and job descriptors. Each starts
with the poison check, which `ReadCall.run_poisoned` states for all of
them at once.

What a page holds is in `Wolf.PoolJournal.Pages`. -/

namespace Wolf.PoolJournal

open PoolBackendJournalError Exec

variable (x : External)

/-! ## Event pages -/

structure JournalEventPage where
  afterEventSeq : Nat
  nextEventSeq : Nat
  complete : Bool
  events : List BackendEvent

/-- The loop of `read_events`: events are taken while the payload fits. -/
def pageEvents (payloadSize : Nat) (events : List BackendEvent) :
    List BackendEvent → Result (List BackendEvent)
  | [] => .ok events
  | event :: rest => do
    let encoded ← canonicalJson (x.eventJson event) "backend event"
    let candidateSize ← okOr
      ((checkedAdd 64 payloadSize (if events.isEmpty then 0 else 1)).bind
        fun size => checkedAdd 64 size encoded.length) overflow
    if x.maxBackendPayloadBytes < candidateSize then .ok events
    else pageEvents candidateSize (events ++ [event]) rest

/-- `read_events`. `memory` is the outcome of the reservation for the
page. The slice of the source panics beyond the end. -/
def readEvents (memory : Option TryReserveError) (afterEventSeq limit : Nat)
    (state : JournalState) : Result JournalEventPage := do
  rejectIf (¬ (1 ≤ limit ∧ limit ≤ x.maxEventPageItems))
    (invalidPageLimit limit x.maxEventPageItems)
  ensureUsable state
  let current := lastEventSeq state.events
  rejectIf (current < afterEventSeq) (cursorBeyondEnd afterEventSeq current)
  rejectIf (state.events.length < afterEventSeq) (panicked "range start index out of range")
  let available := state.events.drop afterEventSeq
  tryReserve memory
  let payloadSize ← emptyEventsPagePayloadSize x afterEventSeq
  let events ← pageEvents x payloadSize [] (available.take limit)
  rejectIf (events.isEmpty ∧ ¬ available.isEmpty)
    (eventTooLargeForPage ((available.head?.map BackendEvent.eventSeq).getD 0)
      x.maxBackendPayloadBytes)
  let nextEventSeq := (events.getLast?.map BackendEvent.eventSeq).getD afterEventSeq
  .ok { afterEventSeq, nextEventSeq, complete := nextEventSeq = current, events }

def currentEventSeq (state : JournalState) : Result Nat := do
  ensureUsable state
  .ok (lastEventSeq state.events)

/-! ## Winner schedulers -/

/-- The lookup that every scheduler makes for an entry of the order. -/
def indexedWinner (state : JournalState) (eventSeq : Nat) (key : WinnerKey) :
    Result JournalWinnerState :=
  okOr (state.semantic.winners.lookup key)
    (semantic eventSeq "winner index references absent private state")

/-- `chain.is_some_and(|required| key.chain != required)`. -/
def otherChain (chain : Option MergedChain) (key : WinnerKey) : Bool :=
  chain.any fun required => key.chain ≠ required

/-- The loop of the two cursor scans. -/
def scanWinners (state : JournalState) (chain : Option MergedChain)
    (wanted : JournalWinnerState → Bool) :
    List (WinnerKey × Nat) → Result (Option (Nat × JournalWinnerState))
  | [] => .ok none
  | (key, index) :: rest =>
    if otherChain chain key then scanWinners state chain wanted rest
    else do
      let eventSeq ← nextEventSeq state.events
      let winner ← indexedWinner state eventSeq key
      if wanted winner then .ok (some (index, winner))
      else scanWinners state chain wanted rest

/-- A cursor scan for a winner that is wanted. -/
def nextWinnerMatching (wanted : JournalWinnerState → Bool) (afterOrdinal : Option Nat)
    (beforeOrdinal : Nat) (chain : Option MergedChain) (state : JournalState) :
    Result (Option (Nat × JournalWinnerState)) := do
  ensureUsable state
  let start ← match afterOrdinal with
    | some ordinal => okOr (checkedAdd 64 ordinal 1) overflow
    | none => .ok 0
  scanWinners state chain wanted ((state.semantic.winnerOrder.zipIdx.take beforeOrdinal).drop start)

/-- `usize::MAX`. -/
def usizeMax : Nat := 2 ^ 64 - 1

def nextWinnerStateByMaturityBefore (afterOrdinal : Option Nat) (matured : Option Bool)
    (beforeOrdinal : Nat) (chain : Option MergedChain) (state : JournalState) :
    Result (Option (Nat × JournalWinnerState)) :=
  nextWinnerMatching
    (fun winner => matured.all fun required => required = winner.lifecycle.isMatured)
    afterOrdinal beforeOrdinal chain state

def nextWinnerState (afterOrdinal : Option Nat) (state : JournalState) :
    Result (Option (Nat × JournalWinnerState)) :=
  nextWinnerStateByMaturityBefore afterOrdinal none usizeMax none state

def nextUnsettledWinnerState (afterOrdinal : Option Nat) (state : JournalState) :
    Result (Option (Nat × JournalWinnerState)) :=
  nextWinnerStateByMaturityBefore afterOrdinal (some false) usizeMax none state

def nextMaturedWinnerState (afterOrdinal : Option Nat) (state : JournalState) :
    Result (Option (Nat × JournalWinnerState)) :=
  nextWinnerStateByMaturityBefore afterOrdinal (some true) usizeMax none state

def nextSubmissionRequiredWinnerStateBeforeForChain (afterOrdinal : Option Nat)
    (beforeOrdinal : Nat) (chain : Option MergedChain) (state : JournalState) :
    Result (Option (Nat × JournalWinnerState)) :=
  nextWinnerMatching (fun winner => winner.lifecycle.requiresSubmission) afterOrdinal beforeOrdinal
    chain state

def maxInspectedWinners : Nat := 256

/-- The loop of the first-attempt scan, with `next_ordinal` as its state. -/
def firstAttemptLoop (state : JournalState) (eventSeq : Nat) (chain : Option MergedChain) :
    List (WinnerKey × Nat) →
      EStateM PoolBackendJournalError Nat (Option (Nat × JournalWinnerState) × Bool)
  | [] => do
    let nextOrdinal ← get
    pure (none, nextOrdinal < state.semantic.winnerOrder.length)
  | (key, index) :: rest => do
    let nextOrdinal ← check (okOr (checkedAdd 64 index 1) overflow)
    set nextOrdinal
    if otherChain chain key then firstAttemptLoop state eventSeq chain rest
    else do
      let winner ← check (indexedWinner state eventSeq key)
      if winner.lifecycle = .pending then
        pure (some (index, winner), nextOrdinal < state.semantic.winnerOrder.length)
      else firstAttemptLoop state eventSeq chain rest

def nextFirstAttemptWinnerStateForChain (chain : Option MergedChain) (state : JournalState) :
    EStateM PoolBackendJournalError Nat (Option (Nat × JournalWinnerState) × Bool) := do
  check (ensureUsable state)
  let eventSeq ← check (nextEventSeq state.events)
  let nextOrdinal ← get
  firstAttemptLoop state eventSeq chain
    ((state.semantic.winnerOrder.zipIdx.drop nextOrdinal).take maxInspectedWinners)

/-- The loop of `winner_recovery_state`: the newest pending winner of each
chain. -/
def recoveryLoop (state : JournalState) (eventSeq : Nat)
    (wcash zcash : Option (Nat × JournalWinnerState)) :
    List (WinnerKey × Nat) →
      Result (Option (Nat × JournalWinnerState) × Option (Nat × JournalWinnerState))
  | [] => .ok (wcash, zcash)
  | (key, ordinal) :: rest => do
    let winner ← indexedWinner state eventSeq key
    if winner.lifecycle ≠ .pending then recoveryLoop state eventSeq wcash zcash rest
    else
      let wcash := if key.chain = .wcash ∧ wcash.isNone then some (ordinal, winner) else wcash
      let zcash := if key.chain = .zcash ∧ zcash.isNone then some (ordinal, winner) else zcash
      if wcash.isSome ∧ zcash.isSome then .ok (wcash, zcash)
      else recoveryLoop state eventSeq wcash zcash rest

def winnerRecoveryState (state : JournalState) :
    Result (Nat × List (Nat × JournalWinnerState)) := do
  ensureUsable state
  let eventSeq ← nextEventSeq state.events
  let tail := state.semantic.winnerOrder.length
  let (wcash, zcash) ← recoveryLoop state eventSeq none none
    state.semantic.winnerOrder.zipIdx.reverse
  .ok (tail, (wcash.toList ++ zcash.toList).mergeSort fun a b => a.1 ≤ b.1)

def winnerState (shareId : Hex32) (chain : MergedChain) (state : JournalState) :
    Result (Option JournalWinnerState) := do
  ensureUsable state
  .ok (state.semantic.winners.lookup ⟨shareId, chain⟩)

/-! ## Counts and descriptors -/

structure JournalWinnerSummary where
  pendingWcash : Nat := 0
  quarantinedWcash : Nat := 0
  pendingZcash : Nat := 0

/-- `checked_add(1)` on a counter of the summary. -/
def increment (count : Nat) : Result Nat := okOr (checkedAdd 32 count 1) overflow

/-- One turn of the loop of `winner_summary`. -/
def summarizeWinner (summary : JournalWinnerSummary) (winner : JournalWinnerState) :
    Result JournalWinnerSummary :=
  if winner.lifecycle.isMatured then .ok summary
  else match winner.winner.chain with
    | .wcash => do
      let quarantinedWcash ←
        if winner.lifecycle.isQuarantined then increment summary.quarantinedWcash
        else .ok summary.quarantinedWcash
      let pendingWcash ← increment summary.pendingWcash
      .ok { summary with pendingWcash, quarantinedWcash }
    | .zcash => do
      let pendingZcash ← increment summary.pendingZcash
      .ok { summary with pendingZcash }

def winnerSummary (state : JournalState) : Result JournalWinnerSummary := do
  ensureUsable state
  (state.semantic.winners.entries.map Sigma.snd).foldlM summarizeWinner {}

def jobDescriptors (state : JournalState) : Result (List (JobDescriptor × Bool)) := do
  ensureUsable state
  .ok (state.semantic.jobs.entries.map fun entry =>
    (entry.2.job, entry.2.lifecycle = .closed))

/-! ## The poison check -/

/-- One query. -/
inductive ReadCall where
  | currentEventSeq
  | readEvents (memory : Option TryReserveError) (afterEventSeq limit : Nat)
  | winnerState (shareId : Hex32) (chain : MergedChain)
  | winnerSummary
  | jobDescriptors
  | winnerRecoveryState
  | nextWinnerState (afterOrdinal : Option Nat)
  | nextUnsettledWinnerState (afterOrdinal : Option Nat)
  | nextMaturedWinnerState (afterOrdinal : Option Nat)
  | nextWinnerStateByMaturityBefore (afterOrdinal : Option Nat) (matured : Option Bool)
      (beforeOrdinal : Nat) (chain : Option MergedChain)
  | nextSubmissionRequiredWinnerState (afterOrdinal : Option Nat) (beforeOrdinal : Nat)
      (chain : Option MergedChain)
  | nextFirstAttemptWinnerState (nextOrdinal : Nat) (chain : Option MergedChain)

/-- The outcome of a query, without its value. -/
def ReadCall.run (state : JournalState) : ReadCall → Result Unit
  | .currentEventSeq => do
    let _ ← PoolJournal.currentEventSeq state
    .ok ()
  | .readEvents memory afterEventSeq limit => do
    let _ ← PoolJournal.readEvents x memory afterEventSeq limit state
    .ok ()
  | .winnerState shareId chain => do
    let _ ← PoolJournal.winnerState shareId chain state
    .ok ()
  | .winnerSummary => do
    let _ ← PoolJournal.winnerSummary state
    .ok ()
  | .jobDescriptors => do
    let _ ← PoolJournal.jobDescriptors state
    .ok ()
  | .winnerRecoveryState => do
    let _ ← PoolJournal.winnerRecoveryState state
    .ok ()
  | .nextWinnerState afterOrdinal => do
    let _ ← PoolJournal.nextWinnerState afterOrdinal state
    .ok ()
  | .nextUnsettledWinnerState afterOrdinal => do
    let _ ← PoolJournal.nextUnsettledWinnerState afterOrdinal state
    .ok ()
  | .nextMaturedWinnerState afterOrdinal => do
    let _ ← PoolJournal.nextMaturedWinnerState afterOrdinal state
    .ok ()
  | .nextWinnerStateByMaturityBefore afterOrdinal matured beforeOrdinal chain => do
    let _ ← PoolJournal.nextWinnerStateByMaturityBefore afterOrdinal matured beforeOrdinal chain
      state
    .ok ()
  | .nextSubmissionRequiredWinnerState afterOrdinal beforeOrdinal chain => do
    let _ ← nextSubmissionRequiredWinnerStateBeforeForChain afterOrdinal beforeOrdinal chain state
    .ok ()
  | .nextFirstAttemptWinnerState nextOrdinal chain =>
    match nextFirstAttemptWinnerStateForChain chain state nextOrdinal with
    | .ok _ _ => .ok ()
    | .error e _ => .error e

variable {x} {state : JournalState}

theorem ensureUsable_poisoned (h : state.poisoned = true) :
    ensureUsable state = .error poisoned := rejectIf_of_pos h

/-- A method behind the poison check. -/
theorem guarded_poisoned {α β : Type} {f : Unit → Result α} {g : α → Result β}
    (h : state.poisoned = true) : ((ensureUsable state >>= f) >>= g) = .error poisoned := by
  rw [ensureUsable_poisoned h]
  rfl

/-- No query of a poisoned journal returns. -/
theorem ReadCall.run_poisoned (h : state.poisoned = true) (call : ReadCall) :
    ∃ e, call.run x state = .error e := by
  cases call with
  | readEvents memory afterEventSeq limit =>
    by_cases hlimit : ¬ (1 ≤ limit ∧ limit ≤ x.maxEventPageItems)
    · refine ⟨invalidPageLimit limit x.maxEventPageItems, ?_⟩
      show (PoolJournal.readEvents x memory afterEventSeq limit state >>= _) = _
      unfold PoolJournal.readEvents
      rw [rejectIf_of_pos hlimit]
      rfl
    · refine ⟨poisoned, ?_⟩
      show (PoolJournal.readEvents x memory afterEventSeq limit state >>= _) = _
      unfold PoolJournal.readEvents
      rw [rejectIf_bind hlimit]
      exact guarded_poisoned h
  | nextFirstAttemptWinnerState nextOrdinal chain =>
    refine ⟨poisoned, ?_⟩
    show (match nextFirstAttemptWinnerStateForChain chain state nextOrdinal with
      | .ok _ _ => Except.ok ()
      | .error e _ => .error e) = _
    unfold nextFirstAttemptWinnerStateForChain
    rw [ensureUsable_poisoned h]
    rfl
  | _ => exact ⟨poisoned, guarded_poisoned h⟩

end Wolf.PoolJournal
