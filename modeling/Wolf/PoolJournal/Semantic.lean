import Wolf.PoolJournal.Checks

/-! # The pool backend journal: semantic state

`apply_record` folds one record into the jobs, shares and winners. The
source mutates the maps in place, so the model is a method on mutable
state: an early return keeps whatever was written before it.

* `Applies`: what an accepted record requires and what it does, one
  rule per kind of event.
* `Applies.of_applyRecord`, `Applies.applyRecord`: with memory at hand,
  `apply_record` accepts exactly by these rules. -/

namespace Wolf.PoolJournal

open PoolBackendJournalError Exec List

variable (x : External) {eventSeq : Nat} {memory : BlockMemory}
  {encoded winnerBlocks : PersistedWinnerBlocks} {receipt : ShareReceipt} {job : JobDescriptor}
  {winner : WinnerDescriptor} {jobId shareId : Hex32} {s s' : JournalSemanticState}
  {e unknown : PoolBackendJournalError} {u : Unit} {blocks : JournalWinnerBlocks}
  {record : PersistedEventRecord} {move : JobLifecycle → Result JobLifecycle}
  {winners : List WinnerDescriptor} {change : WinnerTransition} {identity : WorkerIdentity}
  {targetLe : TargetLe} {chain : String} {α : Type}

/-! ## The model -/

/-- A method of `JournalSemanticState`. -/
abbrev SemanticM (α : Type) : Type := EStateM PoolBackendJournalError JournalSemanticState α

def semantic (eventSeq : Nat) (reason : String) : PoolBackendJournalError :=
  semanticViolation eventSeq reason

def requireNoPrivateBlocks (blocks : PersistedWinnerBlocks) (eventSeq : Nat) : Result Unit :=
  rejectIf (¬ blocks.isEmpty)
    (semantic eventSeq "private winner blocks are only valid on ShareCommitted")

/-- The lifecycle match of `JobInvalidated`. -/
def invalidateJob (eventSeq : Nat) : JobLifecycle → Result JobLifecycle
  | .active => .ok .invalidated
  | .invalidated => .error (semantic eventSeq "job was invalidated more than once")
  | .closed => .error (semantic eventSeq "closed job cannot be invalidated")

/-- The lifecycle match of `GenerationClosed`. -/
def closeJob (eventSeq : Nat) : JobLifecycle → Result JobLifecycle
  | .invalidated => .ok .closed
  | .active => .error (semantic eventSeq "active job must be invalidated before closure")
  | .closed => .error (semantic eventSeq "job was closed more than once")

/-- `jobs.get_mut(job_id)`, the lifecycle match and the assignment of the
two job events. -/
def moveJob (jobId : Hex32) (unknown : PoolBackendJournalError)
    (move : JobLifecycle → Result JobLifecycle) : SemanticM Unit := do
  let self ← get
  let entry ← check (okOr (self.jobs.lookup jobId) unknown)
  let lifecycle ← check (move entry.lifecycle)
  modify fun self => { self with jobs := self.jobs.insert jobId { entry with lifecycle } }

/-- `matches!(lifecycle, Observed { .. })` and its like. -/
def WinnerLifecycle.isObserved : WinnerLifecycle → Bool
  | .observed _ _ => true
  | _ => false

@[inherit_doc WinnerLifecycle.isObserved]
def WinnerLifecycle.isMatured : WinnerLifecycle → Bool
  | .matured _ _ => true
  | _ => false

@[inherit_doc WinnerLifecycle.isObserved]
def WinnerLifecycle.isQuarantined : WinnerLifecycle → Bool
  | .quarantined _ => true
  | _ => false

/-- The guard of each winner event against the current lifecycle. -/
def checkChange (eventSeq : Nat) (winner : WinnerDescriptor) (lifecycle : WinnerLifecycle) :
    WinnerTransition → Result Unit
  | .sideChain _ =>
    rejectIf (winner.chain ≠ .zcash ∨ lifecycle ≠ .pending)
      (semantic eventSeq "only a pending Zcash proof can enter side-chain monitoring")
  | .observed _ confirmations =>
    rejectIf (lifecycle.isMatured ∧ winner.maturityConfirmations ≤ confirmations)
      (semantic eventSeq "matured winner can return to observed only below its maturity threshold")
  | .orphaned _ =>
    rejectIf (¬ (lifecycle.isObserved ∨ lifecycle.isMatured))
      (semantic eventSeq "only an observed or matured winner can be orphaned")
  | .quarantined _ =>
    rejectIf lifecycle.isQuarantined
      (semantic eventSeq "winner cannot enter quarantine from its current state")
  | .requeued _ =>
    rejectIf (¬ lifecycle.isQuarantined)
      (semantic eventSeq "only a quarantined winner can be requeued")
  | .matured _ _ =>
    rejectIf (¬ lifecycle.isObserved) (semantic eventSeq "only an observed winner can mature")

/-- The lifecycle each winner event assigns. -/
def WinnerTransition.lifecycle : WinnerTransition → WinnerLifecycle
  | .sideChain tip => .sideChain tip
  | .observed tip confirmations => .observed tip confirmations
  | .orphaned tip => .orphaned tip
  | .quarantined tip => .quarantined tip
  | .requeued tip => .requeued tip
  | .matured tip confirmations => .matured tip confirmations

def exactWinnerMut (eventSeq : Nat) (shareId jobId : Hex32) (winner : WinnerDescriptor) :
    SemanticM JournalWinnerState := do
  let self ← get
  let state ← check (okOr (self.winners.lookup ⟨shareId, winner.chain⟩)
    (semantic eventSeq "lifecycle event references an unknown winner"))
  check (rejectIf (state.jobId ≠ jobId ∨ state.winner ≠ winner)
    (semantic eventSeq "lifecycle event changed immutable winner metadata"))
  pure state

def ShareReceipt.winnerKey (receipt : ShareReceipt) (winner : WinnerDescriptor) : WinnerKey :=
  ⟨receipt.shareId, winner.chain⟩

/-- The record kept for a new winner. -/
def pendingWinner (eventSeq : Nat) (receipt : ShareReceipt) (winner : WinnerDescriptor)
    (blockBytes : Bytes) : JournalWinnerState where
  shareId := receipt.shareId
  jobId := receipt.jobId
  winner := winner
  parentHashLe := receipt.parentHashLe
  blockBytes := blockBytes
  lifecycle := .pending
  revisionEventSeq := eventSeq

/-- The first loop over the winners of a share: no key may be taken. -/
def checkWinnerKeys (eventSeq : Nat) (receipt : ShareReceipt)
    (winners : HashMap WinnerKey JournalWinnerState) : List WinnerDescriptor → Result Unit
  | [] => .ok ()
  | winner :: rest => do
    rejectIf (winners.lookup (receipt.winnerKey winner)).isSome
      (semantic eventSeq "winner key was committed more than once")
    checkWinnerKeys eventSeq receipt winners rest

/-- The second loop over the winners of a share: each is stored as
pending. A winner without block bytes panics the source. -/
def insertWinners (eventSeq : Nat) (receipt : ShareReceipt) (blocks : JournalWinnerBlocks) :
    List WinnerDescriptor → SemanticM Unit
  | [] => pure ()
  | winner :: rest => do
    let blockBytes ← check (okOr (blocks.get winner.chain)
      (panicked ("validated " ++ chainName winner.chain ++ " winner bytes exist")))
    modify fun self =>
      { self with
        winnerOrder := self.winnerOrder ++ [receipt.winnerKey winner]
        winners := self.winners.insert (receipt.winnerKey winner)
          (pendingWinner eventSeq receipt winner blockBytes) }
    insertWinners eventSeq receipt blocks rest

/-- The `ShareCommitted` branch of `apply_record`. -/
def applyShare (memory : BlockMemory) (eventSeq : Nat) (winnerBlocks : PersistedWinnerBlocks)
    (receipt : ShareReceipt) (jobId : Hex32) (identity : WorkerIdentity) (targetLe : TargetLe) :
    SemanticM Unit := do
  let self ← get
  let _ ← check (checkedWinnerCapacity self.winnerOrder.length receipt.winners.length)
  let entry ← check (okOr (self.jobs.lookup jobId)
    (semantic eventSeq "share references an unknown job"))
  check (rejectIf (entry.lifecycle = .closed)
    (semantic eventSeq "new share references a closed job"))
  check (mapErr (invalidEvent eventSeq) (x.validateForJob receipt entry.job))
  check (rejectIf (self.shares.lookup receipt.shareId).isSome
    (semantic eventSeq "share ID already has a durable commit record"))
  let blocks ← check
    (decodeAndValidateWinnerBlocks x memory winnerBlocks receipt entry.job eventSeq)
  check (checkWinnerKeys eventSeq receipt self.winners receipt.winners)
  modify fun self =>
    { self with
      shares := self.shares.insert receipt.shareId ⟨receipt, identity, targetLe, blocks⟩ }
  insertWinners eventSeq receipt blocks receipt.winners

/-- The winner branches of `apply_record`. -/
def applyWinnerChange (eventSeq : Nat) (shareId jobId : Hex32) (winner : WinnerDescriptor)
    (change : WinnerTransition) : SemanticM Unit := do
  let state ← exactWinnerMut eventSeq shareId jobId winner
  check (checkChange eventSeq winner state.lifecycle change)
  modify fun self =>
    { self with
      winners := self.winners.insert ⟨shareId, winner.chain⟩
        { state with lifecycle := change.lifecycle, revisionEventSeq := eventSeq } }

/-- The `JobActivated` branch of `apply_record`. -/
def activateJob (eventSeq : Nat) (job : JobDescriptor) : SemanticM Unit := do
  let self ← get
  check (rejectIf (self.jobs.lookup job.jobId).isSome
    (semantic eventSeq "job ID was activated more than once"))
  modify fun self => { self with jobs := self.jobs.insert job.jobId ⟨job, .active⟩ }

def applyRecord (memory : BlockMemory) (record : PersistedEventRecord) : SemanticM Unit :=
  match record.event with
  | .jobActivated _ job => do
    check (requireNoPrivateBlocks record.winnerBlocks record.eventSeq)
    activateJob record.eventSeq job
  | .jobInvalidated _ jobId _ _ => do
    check (requireNoPrivateBlocks record.winnerBlocks record.eventSeq)
    moveJob jobId (semantic record.eventSeq "invalidation references an unknown job")
      (invalidateJob record.eventSeq)
  | .generationClosed _ jobId => do
    check (requireNoPrivateBlocks record.winnerBlocks record.eventSeq)
    moveJob jobId (semantic record.eventSeq "closure references an unknown job")
      (closeJob record.eventSeq)
  | .shareCommitted receipt jobId identity targetLe =>
    applyShare x memory record.eventSeq record.winnerBlocks receipt jobId identity targetLe
  | .winnerChanged _ shareId jobId winner change => do
    check (requireNoPrivateBlocks record.winnerBlocks record.eventSeq)
    applyWinnerChange record.eventSeq shareId jobId winner change

/-! ## Winner blocks of an accepted share -/

/-- Memory is the only input of the decoder besides the text. -/
theorem decodeWinnerBlock_memory {memory : Option TryReserveError} {encoded : Option Bytes}
    {bytes : Option Bytes} (h : decodeWinnerBlock memory encoded chain eventSeq = .ok bytes) :
    decodeWinnerBlock none encoded chain eventSeq = .ok bytes := by
  cases encoded with
  | none => exact h
  | some encoded =>
    obtain ⟨maximum, hmax, h⟩ := of_bind h
    obtain ⟨_, hform, h⟩ := of_bind h
    obtain ⟨_, _, h⟩ := of_bind h
    show (_ >>= _) = _
    rw [hmax, ok_bind, hform, ok_bind]
    exact h

section

variable (h : decodeAndValidateWinnerBlocks x memory encoded receipt job eventSeq = .ok blocks)

include h

theorem decodeAndValidateWinnerBlocks_memory :
    decodeAndValidateWinnerBlocks x (fun _ => none) encoded receipt job eventSeq = .ok blocks := by
  obtain ⟨wcash, hw, h⟩ := of_bind h
  obtain ⟨zcash, hz, h⟩ := of_bind h
  show (_ >>= _) = _
  rw [decodeWinnerBlock_memory hw, ok_bind, decodeWinnerBlock_memory hz, ok_bind]
  exact h

/-- The two turns of the loop over the chains. -/
theorem validateChainBlock_of_decode (chain : MergedChain) :
    validateChainBlock x blocks receipt job eventSeq chain = .ok () := by
  obtain ⟨wcash, _, h⟩ := of_bind h
  obtain ⟨zcash, _, h⟩ := of_bind h
  obtain ⟨_, hw, h⟩ := of_bind h
  obtain ⟨_, hz, h⟩ := of_bind h
  have hblocks : (⟨wcash, zcash⟩ : JournalWinnerBlocks) = blocks := Except.ok.inj h
  subst hblocks
  cases chain with
  | wcash => exact hw
  | zcash => exact hz

/-- Every winner of an accepted receipt has its block, so the `expect` of
the insertion loop never fires. -/
theorem blocks_of_decode (hmem : winner ∈ receipt.winners) :
    ∃ bytes, blocks.get winner.chain = some bytes := by
  have hturn := validateChainBlock_of_decode x h winner.chain
  -- The first winner of this chain need not be `winner`, but it exists.
  have hfound : (receipt.winners.find? (fun other => other.chain = winner.chain)).isSome :=
    List.find?_isSome.mpr ⟨winner, hmem, by simp⟩
  obtain ⟨first, hfirst⟩ := Option.isSome_iff_exists.mp hfound
  unfold validateChainBlock at hturn
  rw [hfirst] at hturn
  cases hget : blocks.get winner.chain with
  | none =>
    rw [hget] at hturn
    cases hturn
  | some bytes => exact ⟨bytes, rfl⟩

end

/-- Encoded blocks are decoded to the same bytes. -/
theorem decodeWinnerBlock_encodeWinnerBlock {bytes encoded : Option Bytes}
    (h : encodeWinnerBlock bytes chain eventSeq = .ok encoded) :
    decodeWinnerBlock none encoded chain eventSeq = .ok bytes := by
  cases bytes with
  | none =>
    cases h
    rfl
  | some bytes =>
    obtain ⟨hlength, h⟩ := of_rejectIf_bind h
    have hencoded : some (hexEncode bytes) = encoded := Except.ok.inj h
    subst hencoded
    obtain ⟨hempty, hmax⟩ := not_or.mp hlength
    have hform : ¬ ((hexEncode bytes).isEmpty ∨ maxWinnerBlockBytes * 2 < (hexEncode bytes).length ∨
        (hexEncode bytes).length % 2 ≠ 0 ∨ ¬ (hexEncode bytes).all isLowerHex) := by
      rw [isEmpty_iff_length_eq_zero] at hempty ⊢
      rw [hexEncode_isLowerHex, length_hexEncode]
      have := Nat.mul_mod_left bytes.length 2
      have hmax := Nat.mul_le_mul_right 2 (Nat.le_of_not_lt hmax)
      rintro (h | h | h | h)
      · omega
      · exact absurd h (Nat.not_lt.mpr hmax)
      · exact h this
      · exact h rfl
    show (okOr (checkedMul 64 maxWinnerBlockBytes 2) overflow >>= _) = _
    rw [show checkedMul 64 maxWinnerBlockBytes 2 = some (maxWinnerBlockBytes * 2) by decide,
      okOr_bind, rejectIf_bind hform]
    show (okOr (hexDecode (hexEncode bytes)) _ >>= _) = _
    rw [hexDecode_hexEncode]
    rfl

/-- Decoding what `encode_winner_blocks` wrote leaves only the checks of the
two chains. -/
theorem decodeAndValidateWinnerBlocks_of_encode
    (h : encodeWinnerBlocks blocks eventSeq = .ok encoded) :
    decodeAndValidateWinnerBlocks x (fun _ => none) encoded receipt job eventSeq = (do
      validateChainBlock x blocks receipt job eventSeq .wcash
      validateChainBlock x blocks receipt job eventSeq .zcash
      .ok blocks) := by
  obtain ⟨wcash, hw, h⟩ := of_bind h
  obtain ⟨zcash, hz, h⟩ := of_bind h
  have hencoded : (⟨wcash, zcash⟩ : PersistedWinnerBlocks) = encoded := Except.ok.inj h
  subst hencoded
  show (decodeWinnerBlock none wcash _ _ >>= _) = _
  rw [decodeWinnerBlock_encodeWinnerBlock hw, ok_bind]
  show (decodeWinnerBlock none zcash _ _ >>= _) = _
  rw [decodeWinnerBlock_encodeWinnerBlock hz, ok_bind]

/-! ## Refusal changes nothing -/

/-- A method that checks first and writes last: from a check to the rest. -/
theorem keeps_bind {σ β : Type} {r : Result α} {f : α → EStateM PoolBackendJournalError σ β} {s : σ}
    (hrest : ∀ a, r = .ok a → ∀ e s', f a s = .error e s' → s' = s) (e : PoolBackendJournalError)
    (s' : σ) (h : (check r >>= f) s = .error e s') : s' = s := by
  rcases check_bind_err.mp h with ⟨_, hs⟩ | ⟨a, ha, hf⟩
  · exact hs.symm
  · exact hrest a ha e s' hf

/-- The state after the insertion loop. -/
def JournalSemanticState.withWinners (eventSeq : Nat) (receipt : ShareReceipt)
    (blocks : JournalWinnerBlocks) (self : JournalSemanticState)
    (winners : List WinnerDescriptor) : JournalSemanticState :=
  { self with
    winnerOrder := self.winnerOrder ++ winners.map receipt.winnerKey
    winners := winners.foldl (fun map winner => map.insert (receipt.winnerKey winner)
      (pendingWinner eventSeq receipt winner ((blocks.get winner.chain).getD []))) self.winners }

theorem insertWinners_ok (h : ∀ winner ∈ winners, ∃ bytes, blocks.get winner.chain = some bytes)
    (self : JournalSemanticState) :
    insertWinners eventSeq receipt blocks winners self =
      .ok () (self.withWinners eventSeq receipt blocks winners) := by
  induction winners generalizing self with
  | nil =>
    unfold insertWinners JournalSemanticState.withWinners
    simp
    rfl
  | cons winner rest ih =>
    obtain ⟨bytes, hbytes⟩ := h winner (mem_cons_self ..)
    have hrest : ∀ other ∈ rest, ∃ bytes, blocks.get other.chain = some bytes := by
      intro other hother
      exact h other (mem_cons_of_mem _ hother)
    unfold insertWinners
    rw [check_bind_of_ok (okOr_eq_ok.mpr hbytes), modify_bind_run, ih hrest]
    unfold JournalSemanticState.withWinners
    simp [hbytes]

theorem moveJob_error (h : moveJob jobId unknown move s = .error e s') : s' = s := by
  refine keeps_bind ?_ e s' h
  intro entry _
  refine keeps_bind ?_
  intro lifecycle _ e s' h
  cases h

theorem activateJob_error (h : activateJob eventSeq job s = .error e s') : s' = s := by
  refine keeps_bind ?_ e s' h
  intro _ _ e s' h
  cases h

theorem applyWinnerChange_error
    (h : applyWinnerChange eventSeq shareId jobId winner change s = .error e s') : s' = s := by
  unfold applyWinnerChange exactWinnerMut at h
  rw [bind_assoc, get_bind_run, bind_assoc] at h
  refine keeps_bind ?_ e s' h
  intro entry _ e s' h
  rw [bind_assoc] at h
  refine keeps_bind ?_ e s' h
  intro _ _ e s' h
  refine keeps_bind ?_ e s' h
  intro _ _ e s' h
  cases h

/-- A refused record leaves the semantic state as it was. -/
theorem applyRecord_error (h : applyRecord x memory record s = .error e s') : s' = s := by
  unfold applyRecord at h
  cases hevent : record.event with
  | jobActivated _ job =>
    simp only [hevent] at h
    exact keeps_bind (fun _ _ _ _ h => activateJob_error h) e s' h
  | jobInvalidated _ jobId _ _ | generationClosed _ jobId =>
    simp only [hevent] at h
    exact keeps_bind (fun _ _ _ _ h => moveJob_error h) e s' h
  | shareCommitted receipt jobId identity targetLe =>
    simp only [hevent] at h
    refine keeps_bind ?_ e s' h
    intro _ _
    refine keeps_bind ?_
    intro entry _
    refine keeps_bind ?_
    intro _ _
    refine keeps_bind ?_
    intro _ _
    refine keeps_bind ?_
    intro _ _
    refine keeps_bind ?_
    intro blocks hblocks
    refine keeps_bind ?_
    -- From here on the state is written; no step after this point can fail.
    intro _ _ e s' h
    rw [modify_bind_run, insertWinners_ok (fun _ => blocks_of_decode x hblocks)] at h
    cases h
  | winnerChanged _ shareId jobId winner change =>
    simp only [hevent] at h
    exact keeps_bind (fun _ _ _ _ h => applyWinnerChange_error h) e s' h

/-! ## Acceptance, one rule per kind of event -/

/-- The state after a committed share. -/
def JournalSemanticState.withShare (eventSeq : Nat) (receipt : ShareReceipt)
    (identity : WorkerIdentity) (targetLe : TargetLe) (blocks : JournalWinnerBlocks)
    (self : JournalSemanticState) : JournalSemanticState :=
  JournalSemanticState.withWinners eventSeq receipt blocks
    { self with
      shares := self.shares.insert receipt.shareId ⟨receipt, identity, targetLe, blocks⟩ }
    receipt.winners

/-- The state after a winner event. -/
def JournalSemanticState.withChange (eventSeq : Nat) (key : WinnerKey)
    (entry : JournalWinnerState) (change : WinnerTransition) (self : JournalSemanticState) :
    JournalSemanticState :=
  { self with
    winners := self.winners.insert key
      { entry with lifecycle := change.lifecycle, revisionEventSeq := eventSeq } }

/-- `Applies x record s s'`: the record is accepted in `s` and makes it `s'`. -/
inductive Applies (record : PersistedEventRecord) (s : JournalSemanticState) :
    JournalSemanticState → Prop where
  | jobActivated {eventSeq : Nat} {job : JobDescriptor}
      (hevent : record.event = .jobActivated eventSeq job)
      (hblocks : record.winnerBlocks.isEmpty = true)
      (hnew : s.jobs.lookup job.jobId = none) :
      Applies record s { s with jobs := s.jobs.insert job.jobId ⟨job, .active⟩ }
  | jobInvalidated {eventSeq : Nat} {jobId : Hex32} {reason : JobInvalidationReason}
      {acceptForMs : Nat} {entry : JournalJobState}
      (hevent : record.event = .jobInvalidated eventSeq jobId reason acceptForMs)
      (hblocks : record.winnerBlocks.isEmpty = true)
      (hentry : s.jobs.lookup jobId = some entry) (hactive : entry.lifecycle = .active) :
      Applies record s
        { s with jobs := s.jobs.insert jobId { entry with lifecycle := .invalidated } }
  | generationClosed {eventSeq : Nat} {jobId : Hex32} {entry : JournalJobState}
      (hevent : record.event = .generationClosed eventSeq jobId)
      (hblocks : record.winnerBlocks.isEmpty = true)
      (hentry : s.jobs.lookup jobId = some entry) (hinvalid : entry.lifecycle = .invalidated) :
      Applies record s
        { s with jobs := s.jobs.insert jobId { entry with lifecycle := .closed } }
  | shareCommitted {receipt : ShareReceipt} {jobId : Hex32} {identity : WorkerIdentity}
      {targetLe : TargetLe} {total : Nat} {entry : JournalJobState} {blocks : JournalWinnerBlocks}
      (hevent : record.event = .shareCommitted receipt jobId identity targetLe)
      (hcapacity : checkedWinnerCapacity s.winnerOrder.length receipt.winners.length = .ok total)
      (hentry : s.jobs.lookup jobId = some entry) (hopen : entry.lifecycle ≠ .closed)
      (hvalid : x.validateForJob receipt entry.job = .ok ())
      (hnew : s.shares.lookup receipt.shareId = none)
      (hblocks : decodeAndValidateWinnerBlocks x (fun _ => none) record.winnerBlocks receipt
        entry.job record.eventSeq = .ok blocks)
      (hkeys : ∀ winner ∈ receipt.winners, s.winners.lookup (receipt.winnerKey winner) = none) :
      Applies record s (s.withShare record.eventSeq receipt identity targetLe blocks)
  | winnerChanged {eventSeq : Nat} {shareId jobId : Hex32} {winner : WinnerDescriptor}
      {change : WinnerTransition} {entry : JournalWinnerState}
      (hevent : record.event = .winnerChanged eventSeq shareId jobId winner change)
      (hblocks : record.winnerBlocks.isEmpty = true)
      (hentry : s.winners.lookup ⟨shareId, winner.chain⟩ = some entry)
      (hjob : entry.jobId = jobId) (hwinner : entry.winner = winner)
      (hguard : checkChange record.eventSeq winner entry.lifecycle change = .ok ()) :
      Applies record s (s.withChange record.eventSeq ⟨shareId, winner.chain⟩ entry change)

theorem requireNoPrivateBlocks_ok {blocks : PersistedWinnerBlocks} :
    requireNoPrivateBlocks blocks eventSeq = .ok u ↔ blocks.isEmpty = true := by
  unfold requireNoPrivateBlocks
  rw [rejectIf_eq_ok, Classical.not_not]

theorem rejectIf_isSome_ok {o : Option α} : rejectIf (o.isSome = true) e = .ok u ↔ o = none := by
  rw [rejectIf_eq_ok]
  cases o with
  | none => simp
  | some a => simp

theorem checkWinnerKeys_ok {map : HashMap WinnerKey JournalWinnerState} :
    checkWinnerKeys eventSeq receipt map winners = .ok u ↔
      ∀ winner ∈ winners, map.lookup (receipt.winnerKey winner) = none := by
  induction winners with
  | nil =>
    unfold checkWinnerKeys
    simp
  | cons winner rest ih =>
    unfold checkWinnerKeys
    rw [bind_eq_ok, forall_mem_cons]
    constructor
    · intro ⟨_, hfree, hrest⟩
      exact ⟨rejectIf_isSome_ok.mp hfree, ih.mp hrest⟩
    · intro ⟨hfree, hrest⟩
      exact ⟨(), rejectIf_isSome_ok.mpr hfree, ih.mpr hrest⟩

theorem moveJob_ok :
    moveJob jobId unknown move s = .ok () s' ↔
      ∃ entry lifecycle, s.jobs.lookup jobId = some entry ∧ move entry.lifecycle = .ok lifecycle ∧
        s' = { s with jobs := s.jobs.insert jobId { entry with lifecycle } } := by
  unfold moveJob
  rw [get_bind_run]
  constructor
  · intro h
    obtain ⟨entry, hentry, h⟩ := check_bind_ok.mp h
    obtain ⟨lifecycle, hmove, h⟩ := check_bind_ok.mp h
    cases h
    exact ⟨entry, lifecycle, okOr_eq_ok.mp hentry, hmove, rfl⟩
  · intro ⟨entry, lifecycle, hentry, hmove, hs⟩
    rw [check_bind_of_ok (okOr_eq_ok.mpr hentry), check_bind_of_ok hmove, hs]
    rfl

theorem invalidateJob_ok {lifecycle lifecycle' : JobLifecycle} :
    invalidateJob eventSeq lifecycle = .ok lifecycle' ↔
      lifecycle = .active ∧ lifecycle' = .invalidated := by
  cases lifecycle <;> simp [invalidateJob, eq_comm]

theorem closeJob_ok {lifecycle lifecycle' : JobLifecycle} :
    closeJob eventSeq lifecycle = .ok lifecycle' ↔
      lifecycle = .invalidated ∧ lifecycle' = .closed := by
  cases lifecycle <;> simp [closeJob, eq_comm]

theorem activateJob_ok :
    activateJob eventSeq job s = .ok () s' ↔
      s.jobs.lookup job.jobId = none ∧
        s' = { s with jobs := s.jobs.insert job.jobId ⟨job, .active⟩ } := by
  unfold activateJob
  rw [get_bind_run, check_bind_ok]
  constructor
  · intro ⟨_, hnew, h⟩
    cases h
    exact ⟨rejectIf_isSome_ok.mp hnew, rfl⟩
  · intro ⟨hnew, hs⟩
    rw [hs]
    exact ⟨(), rejectIf_isSome_ok.mpr hnew, rfl⟩

theorem applyWinnerChange_ok :
    applyWinnerChange eventSeq shareId jobId winner change s = .ok () s' ↔
      ∃ entry, s.winners.lookup ⟨shareId, winner.chain⟩ = some entry ∧ entry.jobId = jobId ∧
        entry.winner = winner ∧ checkChange eventSeq winner entry.lifecycle change = .ok () ∧
        s' = s.withChange eventSeq ⟨shareId, winner.chain⟩ entry change := by
  unfold applyWinnerChange exactWinnerMut
  rw [bind_assoc, get_bind_run, bind_assoc]
  constructor
  · intro h
    obtain ⟨entry, hentry, h⟩ := check_bind_ok.mp h
    rw [bind_assoc] at h
    obtain ⟨_, hsame, h⟩ := check_bind_ok.mp h
    obtain ⟨_, hguard, h⟩ := check_bind_ok.mp h
    cases h
    have hsame := rejectIf_eq_ok.mp hsame
    push Not at hsame
    exact ⟨entry, okOr_eq_ok.mp hentry, hsame.1, hsame.2, hguard, rfl⟩
  · intro ⟨entry, hentry, hjob, hwinner, hguard, hs⟩
    have hsame : ¬ (entry.jobId ≠ jobId ∨ entry.winner ≠ winner) := by
      push Not
      exact ⟨hjob, hwinner⟩
    rw [check_bind_of_ok (okOr_eq_ok.mpr hentry), check_bind_of_ok (rejectIf_of_not hsame),
      pure_bind, check_bind_of_ok hguard, hs]
    rfl

theorem applyShare_ok :
    applyShare x memory eventSeq winnerBlocks receipt jobId identity targetLe s = .ok () s' ↔
      ∃ total entry blocks,
        checkedWinnerCapacity s.winnerOrder.length receipt.winners.length = .ok total ∧
        s.jobs.lookup jobId = some entry ∧ entry.lifecycle ≠ .closed ∧
        x.validateForJob receipt entry.job = .ok () ∧
        s.shares.lookup receipt.shareId = none ∧
        decodeAndValidateWinnerBlocks x memory winnerBlocks receipt entry.job eventSeq
          = .ok blocks ∧
        (∀ winner ∈ receipt.winners, s.winners.lookup (receipt.winnerKey winner) = none) ∧
        s' = s.withShare eventSeq receipt identity targetLe blocks := by
  unfold applyShare
  rw [get_bind_run]
  constructor
  · intro h
    obtain ⟨total, hcapacity, h⟩ := check_bind_ok.mp h
    obtain ⟨entry, hentry, h⟩ := check_bind_ok.mp h
    obtain ⟨_, hopen, h⟩ := check_bind_ok.mp h
    obtain ⟨_, hvalid, h⟩ := check_bind_ok.mp h
    obtain ⟨_, hnew, h⟩ := check_bind_ok.mp h
    obtain ⟨blocks, hblocks, h⟩ := check_bind_ok.mp h
    obtain ⟨_, hkeys, h⟩ := check_bind_ok.mp h
    rw [modify_bind_run, insertWinners_ok (fun _ => blocks_of_decode x hblocks)] at h
    cases h
    exact ⟨total, entry, blocks, hcapacity, okOr_eq_ok.mp hentry, rejectIf_eq_ok.mp hopen,
      mapErr_eq_ok.mp hvalid, rejectIf_isSome_ok.mp hnew, hblocks, checkWinnerKeys_ok.mp hkeys,
      rfl⟩
  · intro ⟨total, entry, blocks, hcapacity, hentry, hopen, hvalid, hnew, hblocks, hkeys, hs⟩
    rw [check_bind_of_ok hcapacity, check_bind_of_ok (okOr_eq_ok.mpr hentry),
      check_bind_of_ok (rejectIf_of_not hopen), check_bind_of_ok (mapErr_eq_ok.mpr hvalid),
      check_bind_of_ok ((rejectIf_isSome_ok (u := ())).mpr hnew), check_bind_of_ok hblocks,
      check_bind_of_ok ((checkWinnerKeys_ok (u := ())).mpr hkeys), modify_bind_run,
      insertWinners_ok (fun _ => blocks_of_decode x hblocks), hs]
    rfl

/-- An accepted record is accepted by one of the rules. -/
theorem Applies.of_applyRecord (h : applyRecord x memory record s = .ok () s') :
    Applies x record s s' := by
  unfold applyRecord at h
  cases hevent : record.event with
  | jobActivated eventSeq job =>
    simp only [hevent] at h
    obtain ⟨_, hblocks, h⟩ := check_bind_ok.mp h
    obtain ⟨hnew, rfl⟩ := activateJob_ok.mp h
    exact .jobActivated hevent (requireNoPrivateBlocks_ok.mp hblocks) hnew
  | jobInvalidated eventSeq jobId reason acceptForMs =>
    simp only [hevent] at h
    obtain ⟨_, hblocks, h⟩ := check_bind_ok.mp h
    obtain ⟨entry, lifecycle, hentry, hmove, rfl⟩ := moveJob_ok.mp h
    obtain ⟨hactive, rfl⟩ := invalidateJob_ok.mp hmove
    exact .jobInvalidated hevent (requireNoPrivateBlocks_ok.mp hblocks) hentry hactive
  | generationClosed eventSeq jobId =>
    simp only [hevent] at h
    obtain ⟨_, hblocks, h⟩ := check_bind_ok.mp h
    obtain ⟨entry, lifecycle, hentry, hmove, rfl⟩ := moveJob_ok.mp h
    obtain ⟨hinvalid, rfl⟩ := closeJob_ok.mp hmove
    exact .generationClosed hevent (requireNoPrivateBlocks_ok.mp hblocks) hentry hinvalid
  | shareCommitted receipt jobId identity targetLe =>
    simp only [hevent] at h
    obtain ⟨total, entry, blocks, hcapacity, hentry, hopen, hvalid, hnew, hblocks, hkeys, rfl⟩ :=
      (applyShare_ok x).mp h
    exact .shareCommitted hevent hcapacity hentry hopen hvalid hnew
      (decodeAndValidateWinnerBlocks_memory x hblocks) hkeys
  | winnerChanged eventSeq shareId jobId winner change =>
    simp only [hevent] at h
    obtain ⟨_, hblocks, h⟩ := check_bind_ok.mp h
    obtain ⟨entry, hentry, hjob, hwinner, hguard, rfl⟩ := applyWinnerChange_ok.mp h
    exact .winnerChanged hevent (requireNoPrivateBlocks_ok.mp hblocks) hentry hjob hwinner hguard

/-- With memory at hand, a record that one of the rules accepts is accepted. -/
theorem Applies.applyRecord (h : Applies x record s s') :
    applyRecord x (fun _ => none) record s = .ok () s' := by
  unfold PoolJournal.applyRecord
  cases h with
  | jobActivated hevent hblocks hnew =>
    simp only [hevent]
    rw [check_bind_of_ok ((requireNoPrivateBlocks_ok (u := ())).mpr hblocks)]
    exact activateJob_ok.mpr ⟨hnew, rfl⟩
  | jobInvalidated hevent hblocks hentry hactive =>
    simp only [hevent]
    rw [check_bind_of_ok ((requireNoPrivateBlocks_ok (u := ())).mpr hblocks)]
    exact moveJob_ok.mpr ⟨_, _, hentry, invalidateJob_ok.mpr ⟨hactive, rfl⟩, rfl⟩
  | generationClosed hevent hblocks hentry hinvalid =>
    simp only [hevent]
    rw [check_bind_of_ok ((requireNoPrivateBlocks_ok (u := ())).mpr hblocks)]
    exact moveJob_ok.mpr ⟨_, _, hentry, closeJob_ok.mpr ⟨hinvalid, rfl⟩, rfl⟩
  | shareCommitted hevent hcapacity hentry hopen hvalid hnew hblocks hkeys =>
    simp only [hevent]
    exact (applyShare_ok x).mpr
      ⟨_, _, _, hcapacity, hentry, hopen, hvalid, hnew, hblocks, hkeys, rfl⟩
  | winnerChanged hevent hblocks hentry hjob hwinner hguard =>
    simp only [hevent]
    rw [check_bind_of_ok ((requireNoPrivateBlocks_ok (u := ())).mpr hblocks)]
    exact applyWinnerChange_ok.mpr ⟨_, hentry, hjob, hwinner, hguard, rfl⟩

/-- The rules determine the next state. -/
theorem Applies.unique {s₁ s₂ : JournalSemanticState} (h₁ : Applies x record s s₁)
    (h₂ : Applies x record s s₂) : s₁ = s₂ := by
  have h := h₁.applyRecord
  rw [h₂.applyRecord] at h
  cases h
  rfl

end Wolf.PoolJournal
