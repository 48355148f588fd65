import Wolf.PoolJournal.Lifecycle

/-! # Reconciliation and the journal agree

The guards of a winner event are written twice: `pool_winner_transition`
decides what to propose, `apply_record` decides what to accept. This
module runs the two together on one winner, as a worker does that sees
the same observation again and again.

* `checkChange_of_transition`: every proposed event passes the guard of
  the journal.
* `reconciliation_settles`: both facts on the state of the journal. -/

namespace Wolf.PoolJournal

open PoolBackendJournalError Exec

variable {x : External} {memory : BlockMemory} {lifecycle : WinnerLifecycle}
  {winner : WinnerDescriptor} {observation : PoolWinnerObservation} {change : WinnerTransition}
  {s : JournalSemanticState} {answer : Option WinnerTransition} {key : WinnerKey}
  {entry : JournalWinnerState} {tip : ChainTip}

/-! ## The worker -/

/-- The two ways in which a turn of the worker can fail. -/
inductive ReconcileError where
  | refused (error : MinerError)
  | persistence (error : PoolBackendJournalError)

/-- What the journal adds to an event when it is appended. -/
structure Stamp where
  eventSeq : Nat
  previousDigest : Hex32
  digest : Hex32

/-- The record of an event that carries no blocks. -/
def Stamp.record (stamp : Stamp) (event : BackendEvent) : PersistedEventRecord where
  eventSeq := stamp.eventSeq
  event := event
  winnerBlocks := {}
  previousDigest := stamp.previousDigest
  digest := stamp.digest

/-- `reconcile_pool_backend_snapshot` on the winner of a key that nobody
else changes: the transition is applied to the journal, if there is one. -/
def reconcileSnapshot (x : External) (memory : BlockMemory) (key : WinnerKey)
    (observation : PoolWinnerObservation) (stamp : Stamp) (s : JournalSemanticState) :
    Except ReconcileError (Option WinnerTransition × JournalSemanticState) :=
  match s.winners.lookup key with
  | none => .ok (none, s)
  | some entry =>
    match poolWinnerTransition entry.lifecycle entry.winner observation with
    | .error error => .error (.refused error)
    | .ok none => .ok (none, s)
    | .ok (some transition) =>
      match applyRecord x memory (stamp.record (transition.intoEvent stamp.eventSeq entry)) s with
      | .ok () s' => .ok (some transition, s')
      | .error error _ => .error (.persistence error)

/-- The worker sees the same observation once for each stamp. The list
holds the transitions that were applied, in order. -/
def reconcileAgain (x : External) (memory : BlockMemory) (key : WinnerKey)
    (observation : PoolWinnerObservation) :
    List Stamp → JournalSemanticState →
      Except ReconcileError (List WinnerTransition × JournalSemanticState)
  | [], s => .ok ([], s)
  | stamp :: rest, s => do
    let (transition, s') ← reconcileSnapshot x memory key observation stamp s
    let (applied, s'') ← reconcileAgain x memory key observation rest s'
    .ok (transition.toList ++ applied, s'')

/-- The observations that a node can repeat: a block that is absent,
present, or there with another witness. -/
def PoolWinnerObservation.repeats : PoolWinnerObservation → Bool
  | .absent _ | .conflictingWitness _ | .present _ _ => true
  | .unavailable | .sideChain _ => false

/-! ## Proposed events pass the guards -/

/-- A winner in quarantine is not put there again. -/
theorem not_quarantined_twice
    (h : poolWinnerTransition lifecycle winner observation = .ok (some (.quarantined tip))) :
    lifecycle.isQuarantined = false := by
  cases observation with
  | unavailable => cases h
  | sideChain _ =>
    obtain ⟨_, _, h⟩ := of_bind h
    cases h
  | absent _ => cases lifecycle <;> cases h
  | conflictingWitness _ =>
    obtain ⟨_, _, h⟩ := of_bind h
    by_cases hquarantined : lifecycle.isQuarantined = true
    · rw [if_pos hquarantined] at h
      cases h
    · exact Bool.eq_false_iff.mpr hquarantined
  | present _ _ =>
    -- A block that is present leads to no quarantine.
    obtain ⟨_, _, h⟩ := of_two_binds h
    cases lifecycle with
    | matured _ _ =>
      dsimp only at h
      split at h <;> cases h
    | observed _ _ =>
      dsimp only at h
      split at h
      · cases h
      · split at h <;> cases h
    | pending | sideChain _ | orphaned _ | quarantined _ | requeued _ => cases h

theorem checkChange_of_transition
    (h : poolWinnerTransition lifecycle winner observation = .ok (some change)) (eventSeq : Nat) :
    checkChange eventSeq winner lifecycle change = .ok () := by
  cases poolWinnerTransition_some h with
  | sideChain hchain hpending =>
    refine rejectIf_of_not ?_
    rintro (hother | hother)
    · exact hother hchain
    · exact hother hpending
  | observed _ hbelow =>
    refine rejectIf_of_not ?_
    rintro ⟨hmatured, hle⟩
    exact absurd (hbelow hmatured) (Nat.not_lt.mpr hle)
  | orphaned hseen => exact rejectIf_of_not (not_not_intro hseen)
  | quarantined _ =>
    refine rejectIf_of_not ?_
    rw [not_quarantined_twice h]
    exact Bool.false_ne_true
  | requeued hquarantined => exact rejectIf_of_not (not_not_intro hquarantined)
  | matured _ hobserved _ => exact rejectIf_of_not (not_not_intro hobserved)

/-- The state after a winner event of the entry under its own key. -/
theorem applyRecord_change (hentry : s.winners.lookup entry.key = some entry)
    {record : PersistedEventRecord} {eventSeq : Nat}
    (hevent : record.event = change.intoEvent eventSeq entry)
    (hblocks : record.winnerBlocks.isEmpty = true)
    (hguard : checkChange record.eventSeq entry.winner entry.lifecycle change = .ok ()) :
    applyRecord x memory record s
      = .ok () (s.withChange record.eventSeq entry.key entry change) := by
  unfold applyRecord
  rw [hevent]
  show (check _ >>= _) s = _
  rw [check_bind_of_ok ((requireNoPrivateBlocks_ok (u := ())).mpr hblocks)]
  exact applyWinnerChange_ok.mpr ⟨entry, hentry, rfl, rfl, hguard, rfl⟩

theorem withChange_lookup (s : JournalSemanticState) (eventSeq : Nat) (key : WinnerKey)
    (entry : JournalWinnerState) (change : WinnerTransition) :
    (s.withChange eventSeq key entry change).winners.lookup key =
      some { entry with lifecycle := change.lifecycle, revisionEventSeq := eventSeq } :=
  AList.lookup_insert _

/-! ## An observation settles -/

/-- The answer of `pool_winner_transition` to a block with the right number
of confirmations. -/
def presentAnswer (winner : WinnerDescriptor) (tip : ChainTip) (confirmations : Nat) :
    WinnerLifecycle → Option WinnerTransition
  | .matured _ _ =>
    if confirmations < winner.maturityConfirmations then some (.observed tip confirmations)
    else none
  | .observed previousTip previous =>
    if winner.maturityConfirmations ≤ confirmations then some (.matured tip confirmations)
    else if confirmations = previous ∧ tip = previousTip then none
    else some (.observed tip confirmations)
  | _ => some (.observed tip confirmations)

/-- The checks of a present block do not read the lifecycle. -/
theorem transition_present {confirmations : Nat}
    (h : poolWinnerTransition lifecycle winner (.present tip confirmations) = .ok answer)
    (other : WinnerLifecycle) :
    poolWinnerTransition other winner (.present tip confirmations)
      = .ok (presentAnswer winner tip confirmations other) := by
  obtain ⟨expected, hexpected, h⟩ := of_bind h
  obtain ⟨_, hsame, _⟩ := of_bind h
  unfold poolWinnerTransition
  dsimp only
  rw [hexpected, ok_bind, hsame, ok_bind]
  cases other <;> rfl

/-- The third answer to a repeated observation is that nothing changes. -/
theorem transition_settles {first second : WinnerTransition} (hrepeats : observation.repeats = true)
    (hfirst : poolWinnerTransition lifecycle winner observation = .ok (some first))
    (hsecond : poolWinnerTransition first.lifecycle winner observation = .ok (some second)) :
    poolWinnerTransition second.lifecycle winner observation = .ok none := by
  cases observation with
  | unavailable => cases hrepeats
  | sideChain _ => cases hrepeats
  | absent tip =>
    -- An absent winner is orphaned or requeued, and stays so.
    cases lifecycle <;> cases hfirst <;> cases hsecond
  | conflictingWitness tip =>
    obtain ⟨_, hguard, hfirst⟩ := of_bind hfirst
    obtain ⟨_, _, hsecond⟩ := of_bind hsecond
    split at hfirst
    · cases hfirst
    · cases hfirst
      cases hsecond
  | present tip confirmations =>
    have hanswer := transition_present hfirst
    have hfirst := Except.ok.inj ((hanswer lifecycle).symm.trans hfirst)
    have hsecond := Except.ok.inj ((hanswer first.lifecycle).symm.trans hsecond)
    rw [hanswer second.lifecycle]
    congr 1
    -- The first answer repeats the observation, or matures the winner.
    have hshape : first = .observed tip confirmations ∨
        first = .matured tip confirmations ∧ winner.maturityConfirmations ≤ confirmations := by
      cases lifecycle with
      | matured _ _ =>
        simp only [presentAnswer] at hfirst
        split at hfirst
        · exact .inl (Option.some.inj hfirst).symm
        · cases hfirst
      | observed _ _ =>
        simp only [presentAnswer] at hfirst
        split at hfirst
        · rename_i hle
          exact .inr ⟨(Option.some.inj hfirst).symm, hle⟩
        · split at hfirst
          · cases hfirst
          · exact .inl (Option.some.inj hfirst).symm
      | pending | sideChain _ | orphaned _ | quarantined _ | requeued _ =>
        exact .inl (Option.some.inj hfirst).symm
    rcases hshape with rfl | ⟨rfl, hle⟩
    · -- A second event after an observation is maturity.
      simp only [WinnerTransition.lifecycle, presentAnswer, and_self, if_true] at hsecond
      split at hsecond
      · rename_i hle
        cases hsecond
        exact if_neg (Nat.not_lt.mpr hle)
      · cases hsecond
    · simp only [WinnerTransition.lifecycle, presentAnswer, if_neg (Nat.not_lt.mpr hle)]
        at hsecond
      cases hsecond

/-! ## The worker on the journal -/

/-- The observation leads to no event for the winner of the key. -/
def Quiet (key : WinnerKey) (observation : PoolWinnerObservation) (s : JournalSemanticState) :
    Prop :=
  ∃ entry, s.winners.lookup key = some entry ∧
    poolWinnerTransition entry.lifecycle entry.winner observation = .ok none

/-- A winner that is settled after at most `n` events, whatever their
stamps: the turns of the worker succeed and apply at most `n` events. -/
def SettlesWithin (x : External) (memory : BlockMemory) (key : WinnerKey)
    (observation : PoolWinnerObservation) (n : Nat) (s : JournalSemanticState) : Prop :=
  ∀ stamps : List Stamp, ∃ applied s',
    reconcileAgain x memory key observation stamps s = .ok (applied, s') ∧
    applied.length ≤ n ∧ (n ≤ stamps.length → Quiet key observation s')

theorem SettlesWithin.of_quiet (h : Quiet key observation s) (n : Nat) :
    SettlesWithin x memory key observation n s := by
  intro stamps
  refine ⟨[], s, ?_, Nat.zero_le _, fun _ => h⟩
  -- A settled winner is left alone from then on.
  obtain ⟨entry, hentry, hnone⟩ := h
  induction stamps with
  | nil => rfl
  | cons stamp rest ih =>
    unfold reconcileAgain reconcileSnapshot
    rw [hentry]
    dsimp only
    rw [hnone, ok_bind]
    dsimp only
    rw [ih]
    rfl

/-- One event less remains after a turn that applies one. -/
theorem SettlesWithin.step {n : Nat} (hentry : s.winners.lookup entry.key = some entry)
    (h : poolWinnerTransition entry.lifecycle entry.winner observation = .ok (some change))
    (hrest : ∀ eventSeq, SettlesWithin x memory entry.key observation n
      (s.withChange eventSeq entry.key entry change)) :
    SettlesWithin x memory entry.key observation (n + 1) s := by
  intro stamps
  cases stamps with
  | nil => exact ⟨[], s, rfl, Nat.zero_le _, fun hle => absurd hle (Nat.not_succ_le_zero n)⟩
  | cons stamp rest =>
    obtain ⟨applied, s', hruns, hlength, hsettled⟩ := hrest stamp.eventSeq rest
    refine ⟨change :: applied, s', ?_, Nat.succ_le_succ hlength, ?_⟩
    · have happ : applyRecord x memory (stamp.record (change.intoEvent stamp.eventSeq entry)) s
          = .ok () (s.withChange stamp.eventSeq entry.key entry change) :=
        applyRecord_change hentry rfl rfl (checkChange_of_transition h _)
      unfold reconcileAgain reconcileSnapshot
      rw [hentry]
      dsimp only
      rw [h]
      dsimp only
      rw [happ, ok_bind]
      dsimp only
      rw [hruns]
      rfl
    · intro hle
      exact hsettled (Nat.le_of_succ_le_succ hle)

/-! ## The result -/

/-- Reconciliation proposes only events that the journal accepts, and an
observation that is repeated settles: for every winner that stands
under its own key in the journal, whatever its lifecycle, the event of
a proposed transition is accepted by `apply_record`; and when the same
absent, conflicting or present observation is made again and again, the
worker never fails, applies at most two transitions in all, and after
two turns the answer is that nothing changes. -/
theorem reconciliation_settles (x : External) (memory : BlockMemory) (s : JournalSemanticState)
    (entry : JournalWinnerState) (hentry : s.winners.lookup entry.key = some entry) :
    (∀ observation change,
      poolWinnerTransition entry.lifecycle entry.winner observation = .ok (some change) →
      ∀ (record : PersistedEventRecord) (eventSeq : Nat),
        record.event = change.intoEvent eventSeq entry →
        record.winnerBlocks.isEmpty = true →
        ∃ s', applyRecord x memory record s = .ok () s' ∧
          s'.winners.lookup entry.key = some
            { entry with lifecycle := change.lifecycle, revisionEventSeq := record.eventSeq }) ∧
    (∀ observation answer, observation.repeats = true →
      poolWinnerTransition entry.lifecycle entry.winner observation = .ok answer →
      ∀ stamps : List Stamp, ∃ applied s',
        reconcileAgain x memory entry.key observation stamps s = .ok (applied, s') ∧
        applied.length ≤ 2 ∧
        (2 ≤ stamps.length → ∃ entry', s'.winners.lookup entry.key = some entry' ∧
          poolWinnerTransition entry'.lifecycle entry'.winner observation = .ok none)) := by
  constructor
  · intro observation change hchange record eventSeq hevent hblocks
    have hguard := checkChange_of_transition hchange record.eventSeq
    exact ⟨_, applyRecord_change hentry hevent hblocks hguard,
      withChange_lookup s record.eventSeq entry.key entry change⟩
  · intro observation answer hrepeats haccepted
    show SettlesWithin x memory entry.key observation 2 s
    cases answer with
    | none => exact .of_quiet ⟨entry, hentry, haccepted⟩ 2
    | some first =>
      refine .step hentry haccepted fun seq₁ => ?_
      -- The entry after the first event stands under the same key.
      have hentry₁ := withChange_lookup s seq₁ entry.key entry first
      -- An accepted observation is accepted in every state of the winner.
      obtain ⟨answer₁, hanswer₁⟩ : ∃ answer,
          poolWinnerTransition first.lifecycle entry.winner observation = .ok answer := by
        cases observation with
        | unavailable => cases hrepeats
        | sideChain _ => cases hrepeats
        | absent _ => cases first.lifecycle <;> exact ⟨_, rfl⟩
        | conflictingWitness _ =>
          obtain ⟨_, hguard, _⟩ := of_bind haccepted
          unfold poolWinnerTransition
          rw [hguard]
          exact ⟨_, rfl⟩
        | present _ _ => exact ⟨_, transition_present haccepted _⟩
      cases answer₁ with
      | none => exact .of_quiet ⟨_, hentry₁, hanswer₁⟩ 1
      | some second =>
        let entry₁ : JournalWinnerState :=
          { entry with lifecycle := first.lifecycle, revisionEventSeq := seq₁ }
        have hkey : entry₁.key = entry.key := rfl
        rw [← hkey] at hentry₁ ⊢
        refine .step hentry₁ hanswer₁ fun seq₂ => ?_
        refine .of_quiet ⟨_, withChange_lookup _ seq₂ entry₁.key entry₁ second, ?_⟩ 0
        exact transition_settles hrepeats haccepted hanswer₁

/-- The pending winner of the sample table, seen twice with 100
confirmations, is observed, matures, and is then left alone. -/
theorem reconciliation_settles_sample :
    sampleWithShare.semantic.winners.lookup samplePending.key = some samplePending ∧
    ∀ stamps : List Stamp, ∃ applied s',
      reconcileAgain sample (fun _ => none) samplePending.key
        (.present ⟨.fill 32 0x32, 100⟩ 100) stamps sampleWithShare.semantic = .ok (applied, s') ∧
      applied.length ≤ 2 ∧
      (2 ≤ stamps.length → ∃ entry', s'.winners.lookup samplePending.key = some entry' ∧
        poolWinnerTransition entry'.lifecycle entry'.winner
          (.present ⟨.fill 32 0x32, 100⟩ 100) = .ok none) := by
  have hentry : sampleWithShare.semantic.winners.lookup samplePending.key = some samplePending :=
    sample_pending
  have haccepted : poolWinnerTransition samplePending.lifecycle samplePending.winner
      (.present ⟨.fill 32 0x32, 100⟩ 100)
        = .ok (some (.observed ⟨.fill 32 0x32, 100⟩ 100)) := by decide
  exact ⟨hentry, (reconciliation_settles sample (fun _ => none) sampleWithShare.semantic
    samplePending hentry).2 _ _ rfl haccepted⟩

end Wolf.PoolJournal
