import Wolf.PoolJournal.System
import Wolf.PoolJournal.Table
import Wolf.PoolJournal.Winners

/-! # The lifecycle of a winner

`pool_winner_transition` turns what a node reports about a winner into
the next lifecycle event. This module models it and proves what it
gives together with the journal: over every life of a journal whose
winner events come from this function, a reward is called mature only
when it is, and a block is submitted again only after a quarantine.

* `poolWinnerTransition_some`: what the function can return.
* `accounted_of_grows`: every winner that is not pending was made so by
  one call, and kept since.
* `payout_safety`: the lifecycle over whole runs. -/

namespace Wolf.PoolJournal

open PoolBackendJournalError Exec Nat AppendCall

variable {lifecycle : WinnerLifecycle} {change : WinnerTransition} {confirmations : Nat}
  {tip : ChainTip}

/-! ## Reconciliation -/

inductive PoolWinnerObservation where
  | unavailable
  | sideChain (tip : ChainTip)
  | absent (tip : ChainTip)
  | conflictingWitness (tip : ChainTip)
  | present (tip : ChainTip) (confirmations : Nat)

/-- `MinerError`, of which reconciliation uses one variant. -/
inductive MinerError where
  | rpcProtocol (message : String)
  deriving DecidableEq

def poolWinnerTransition (lifecycle : WinnerLifecycle) (winner : WinnerDescriptor) :
    PoolWinnerObservation → Except MinerError (Option WinnerTransition)
  | .unavailable => .ok none
  | .sideChain tip => do
    rejectIf (winner.chain ≠ .zcash ∨ lifecycle ≠ .pending)
      (.rpcProtocol "only a pending Zcash proof can enter side-chain monitoring")
    .ok (some (.sideChain tip))
  | .absent tip =>
    match lifecycle with
    | .observed _ _ | .matured _ _ => .ok (some (.orphaned tip))
    | .quarantined _ => .ok (some (.requeued tip))
    | .pending | .sideChain _ | .orphaned _ | .requeued _ => .ok none
  | .conflictingWitness tip => do
    rejectIf (winner.chain ≠ .wcash)
      (.rpcProtocol "a Zcash winner cannot have a proof-independent witness conflict")
    .ok (if lifecycle.isQuarantined then none else some (.quarantined tip))
  | .present tip confirmations => do
    let expectedConfirmations ← okOr
      ((checkedSub tip.height winner.height).bind fun depth => checkedAdd 32 depth 1)
      (.rpcProtocol "winner confirmation tip is below its block height")
    rejectIf (confirmations ≠ expectedConfirmations)
      (.rpcProtocol "winner confirmations do not match the stable chain-tip snapshot")
    match lifecycle with
    | .matured _ _ =>
      .ok (if confirmations < winner.maturityConfirmations then some (.observed tip confirmations)
        else none)
    | .observed previousTip previous =>
      .ok (if winner.maturityConfirmations ≤ confirmations then some (.matured tip confirmations)
        else if confirmations = previous ∧ tip = previousTip then none
        else some (.observed tip confirmations))
    | .pending | .sideChain _ | .orphaned _ | .quarantined _ | .requeued _ =>
      .ok (some (.observed tip confirmations))

/-- The confirmations of a winner below a tip. -/
structure ConfirmedBy (winner : WinnerDescriptor) (tip : ChainTip) (confirmations : Nat) :
    Prop where
  above : winner.height ≤ tip.height
  exact : confirmations = tip.height - winner.height + 1

/-- What `pool_winner_transition` can return, one rule per event. -/
inductive Reconciles (lifecycle : WinnerLifecycle) (winner : WinnerDescriptor) :
    WinnerTransition → Prop where
  | sideChain {tip : ChainTip} (hchain : winner.chain = .zcash) (h : lifecycle = .pending) :
      Reconciles lifecycle winner (.sideChain tip)
  | observed {tip : ChainTip} {confirmations : Nat}
      (hconfirmed : ConfirmedBy winner tip confirmations)
      (h : lifecycle.isMatured → confirmations < winner.maturityConfirmations) :
      Reconciles lifecycle winner (.observed tip confirmations)
  | orphaned {tip : ChainTip} (h : lifecycle.isObserved ∨ lifecycle.isMatured) :
      Reconciles lifecycle winner (.orphaned tip)
  | quarantined {tip : ChainTip} (hchain : winner.chain = .wcash) :
      Reconciles lifecycle winner (.quarantined tip)
  | requeued {tip : ChainTip} (h : lifecycle.isQuarantined) :
      Reconciles lifecycle winner (.requeued tip)
  | matured {tip : ChainTip} {confirmations : Nat}
      (hconfirmed : ConfirmedBy winner tip confirmations) (h : lifecycle.isObserved)
      (hmature : winner.maturityConfirmations ≤ confirmations) :
      Reconciles lifecycle winner (.matured tip confirmations)

theorem poolWinnerTransition_present {winner : WinnerDescriptor}
    (h : poolWinnerTransition lifecycle winner (.present tip confirmations) = .ok (some change)) :
    Reconciles lifecycle winner change := by
  obtain ⟨expected, hexpected, h⟩ := of_okOr_bind h
  obtain ⟨hsame, h⟩ := of_require_bind h
  have hconfirmed : ConfirmedBy winner tip confirmations := by
    obtain ⟨depth, hdepth, hadd⟩ := Option.bind_eq_some_iff.mp hexpected
    obtain ⟨habove, hdepth⟩ := checkedSub_eq_some.mp hdepth
    obtain ⟨_, hadd⟩ := checkedAdd_eq_some.mp hadd
    exact ⟨habove, by rw [hsame, ← hadd, hdepth]⟩
  -- An observation is recorded as it is, except for a mature winner.
  have hplain : lifecycle.isMatured = false →
      (Except.ok (some (WinnerTransition.observed tip confirmations)) :
        Except MinerError (Option WinnerTransition)) = .ok (some change) →
      Reconciles lifecycle winner change := by
    intro hmatured h
    cases h
    exact .observed hconfirmed fun h => by rw [hmatured] at h; cases h
  cases lifecycle with
  | matured previousTip previous =>
    by_cases hbelow : confirmations < winner.maturityConfirmations
    · rw [if_pos hbelow] at h
      cases h
      exact .observed hconfirmed fun _ => hbelow
    · rw [if_neg hbelow] at h
      cases h
  | observed previousTip previous =>
    have h := Except.ok.inj h
    by_cases hmature : winner.maturityConfirmations ≤ confirmations
    · rw [if_pos hmature] at h
      cases h
      exact .matured hconfirmed rfl hmature
    · rw [if_neg hmature] at h
      by_cases hsame : confirmations = previous ∧ tip = previousTip
      · rw [if_pos hsame] at h
        cases h
      · rw [if_neg hsame] at h
        exact hplain rfl (by rw [h])
  | _ => exact hplain rfl h

theorem poolWinnerTransition_some {winner : WinnerDescriptor} {observation : PoolWinnerObservation}
    (h : poolWinnerTransition lifecycle winner observation = .ok (some change)) :
    Reconciles lifecycle winner change := by
  cases observation with
  | unavailable => cases h
  | sideChain tip =>
    obtain ⟨hguard, h⟩ := of_rejectIf_bind h
    obtain ⟨hchain, hpending⟩ := not_or.mp hguard
    cases h
    exact .sideChain (Classical.not_not.mp hchain) (Classical.not_not.mp hpending)
  | absent tip =>
    cases lifecycle with
    | observed previousTip previous =>
      cases h
      exact .orphaned (.inl rfl)
    | matured previousTip previous =>
      cases h
      exact .orphaned (.inr rfl)
    | quarantined previousTip =>
      cases h
      exact .requeued rfl
    | _ => cases h
  | conflictingWitness tip =>
    obtain ⟨hchain, h⟩ := of_require_bind h
    by_cases hquarantined : lifecycle.isQuarantined = true
    · rw [if_pos hquarantined] at h
      cases h
    · rw [if_neg hquarantined] at h
      cases h
      exact .quarantined hchain
  | present tip confirmations => exact poolWinnerTransition_present h

/-! ## One step of a winner -/

/-- The calls of this section: a winner event that would be applied is
what reconciliation made of the winner it is applied to. -/
def Reconciled (img : Image) : AppendCall → Prop
  | .winner shareId chain expectedRevision transition =>
    ∀ entry, img.semantic.winners.lookup ⟨shareId, chain⟩ = some entry →
      entry.revisionEventSeq = expectedRevision →
      ∃ observation, poolWinnerTransition entry.lifecycle entry.winner observation
        = .ok (some transition)
  | _ => True

/-- A winner event of a call: `before` becomes `after`. -/
structure WinnerCall (key : WinnerKey) (call : AppendCall) (change : WinnerTransition)
    (before after : JournalWinnerState) : Prop where
  call : call = .winner key.shareId key.chain before.revisionEventSeq change
  result : after = { before with
    lifecycle := change.lifecycle, revisionEventSeq := after.revisionEventSeq }
  revision : before.revisionEventSeq < after.revisionEventSeq

variable {x : External} {header : JournalHeader} {allowed : Image → AppendCall → Prop}
  {record : PersistedEventRecord} {before after : JournalWinnerState} {call : AppendCall}
  {records : List PersistedEventRecord} {s : JournalState} {key : WinnerKey}

/-- What a call does to the winner of a key: nothing, or it commits the
winner as pending, or it is the winner event of that key. -/
theorem Grows.winner {img img' : Image} (hlog : Logged x (fun _ _ => True) header records img)
    (h : Grows x allowed img call record img') (key : WinnerKey) :
    img'.semantic.winners.lookup key = img.semantic.winners.lookup key ∨
    (img.semantic.winners.lookup key = none ∧
      ∃ after, img'.semantic.winners.lookup key = some after ∧ after.lifecycle = .pending) ∨
    ∃ change before after, WinnerCall key call change before after ∧
      img.semantic.winners.lookup key = some before ∧
      img'.semantic.winners.lookup key = some after := by
  cases h.appends.applies.winnerEffect key with
  | kept hkept => exact .inl hkept
  | committed _ _ _ hnew hlookup => exact .inr (.inl ⟨hnew, _, hlookup, rfl⟩)
  | @changed eventSeq entry change hevent hchain hentry hguard hlookup =>
    have hat := hlog.winner key entry hentry
    have hrevision : entry.revisionEventSeq < record.eventSeq := by
      have := hat.revision
      have := hlog.record_seq h.appends
      omega
    have hrec := h.records
    cases call with
    | event proposed => exact absurd hevent (hrec.2.2 _ _ _ _ _)
    | share submission =>
      obtain ⟨attributionId, _, _, hshare, _⟩ := hrec
      rw [hevent] at hshare
      cases hshare
    | winner shareId chain expectedRevision transition =>
      -- The compared winner stands under its own key, so it is this one.
      obtain ⟨compared, hcompared, hexpected, hinto, _⟩ := hrec
      obtain ⟨hshareId, hcomparedChain, _⟩ := hlog.winner _ compared hcompared
      rw [hevent] at hinto
      obtain ⟨_, hkeyShare, _, hwinner, hchange⟩ := BackendEvent.winnerChanged.inj hinto
      have hkey : (⟨shareId, chain⟩ : WinnerKey) = key := by
        have hkeyChain : chain = key.chain := by
          rw [← hchain, hwinner, hcomparedChain]
        have hkeyShare : shareId = key.shareId := by
          rw [hkeyShare, hshareId]
        rw [hkeyChain, hkeyShare]
      rw [hkey, hentry] at hcompared
      have hsame : entry = compared := Option.some.inj hcompared
      subst hkey hsame hexpected hchange
      exact .inr (.inr ⟨change, entry, _, ⟨rfl, rfl, hrevision⟩, hentry, hlookup⟩)

/-! ## The call that made a winner what it is -/

/-- The winner of a key in an open journal. -/
def JournalState.winner (s : JournalState) (key : WinnerKey) : Option JournalWinnerState :=
  s.semantic.winners.lookup key

/-- Step `m` of the run made the winner what it is in state `n`: it was a
compare-and-swap on a serving journal in which the winner was `before`,
and since then every serving journal shows `after`. -/
structure Maker (r : Run (journalMachine x header allowed)) (key : WinnerKey) (n m : Nat)
    (change : WinnerTransition) (before after : JournalWinnerState) : Prop where
  earlier : m < n
  call : ∃ call outcome, r.label m = .call call outcome ∧
    WinnerCall key call change before after ∧
    ∃ s, (r.state m).Serves s ∧ s.winner key = some before ∧ allowed s.image call
  made : ∃ s', r.state (m + 1) = .running s' ∧ s'.winner key = some after
  kept : ∀ j s, m < j → j ≤ n → (r.state j).Serves s → s.winner key = some after

/-- A winner in state `n` is pending, or has a maker. -/
def Accounted (r : Run (journalMachine x header allowed)) (key : WinnerKey) (n : Nat)
    (after : JournalWinnerState) : Prop :=
  after.lifecycle = .pending ∨ ∃ m change before, Maker r key n m change before after

section

variable {r : Run (journalMachine x header allowed)} {key : WinnerKey} {n : Nat}
  {after : JournalWinnerState}

theorem Accounted.succ (h : Accounted r key n after)
    (hnext : ∀ s, (r.state (n + 1)).Serves s → s.winner key = some after) :
    Accounted r key (n + 1) after := by
  rcases h with hpending | ⟨m, change, before, hmaker⟩
  · exact .inl hpending
  · refine .inr ⟨m, change, before, lt_succ_of_lt hmaker.earlier, hmaker.call, hmaker.made, ?_⟩
    intro j s hj hjn hserves
    rcases lt_or_eq_of_le hjn with hlt | heq
    · exact hmaker.kept j s hj (le_of_lt_succ hlt) hserves
    · subst heq
      exact hnext s hserves

variable (t : Tracking r (ledgerMachine x header allowed) (Tracks x header))

include t

/-- A call accounts for the winners of the image it makes. -/
theorem accounted_of_grows {outcome : Result Unit} {s' : JournalState} {img' : Image}
    (hlabel : r.label n = .call call outcome) (hpending : (t.run.state n).pending = none)
    (hgrows : Grows x allowed (t.run.state n).image call record img')
    (hrun : r.state (n + 1) = .running s') (hsemantic : s'.semantic = img'.semantic)
    (ih : (t.run.state n).image.semantic.winners.lookup key = some after →
      Accounted r key n after) (hafter : img'.semantic.winners.lookup key = some after) :
    Accounted r key (n + 1) after := by
  have hshows : s'.winner key = some after := by
    unfold JournalState.winner
    rw [hsemantic]
    exact hafter
  have hnext : ∀ s, (r.state (n + 1)).Serves s → s.winner key = some after := by
    intro s hserves
    rw [hrun] at hserves
    cases hserves.running
    exact hshows
  rcases hgrows.winner (t.related n).logged key with
    hkept | ⟨_, after', hafter', hlifecycle⟩ | ⟨change, before, after', hcall, hbefore, hafter'⟩
  · rw [hkept] at hafter
    exact (ih hafter).succ hnext
  · rw [hafter] at hafter'
    cases hafter'
    exact .inl hlifecycle
  · -- The step from `n` is the maker.
    rw [hafter] at hafter'
    cases hafter'
    have hstep := r.steps n
    rw [hlabel] at hstep
    obtain ⟨s, _, hrunning, _⟩ := hstep.call_running
    obtain ⟨hserves, himage⟩ := serves_of_settled t hrunning hpending
    have hallowed := hgrows.allowed
    rw [himage] at hbefore hallowed
    refine .inr ⟨n, change, before, lt_succ_self n,
      ⟨call, outcome, hlabel, hcall, s, hserves, hbefore, hallowed⟩, ⟨s', hrun, hshows⟩, ?_⟩
    intro j s hj hjn hserves
    have : j = n + 1 := le_antisymm hjn hj
    subst this
    exact hnext s hserves

/-- The winners that an open journal shows come from the image of its
ledger, or, once it is poisoned, from one record more. -/
theorem running_winner (hrun : r.state n = .running s) :
    ∃ img, s.winner key = img.semantic.winners.lookup key ∧
      (img = (t.run.state n).image ∨
        ∃ call record, Grows x allowed (t.run.state n).image call record img) := by
  have hrel := t.related n
  rw [hrun] at hrel
  rcases hrel.running with ⟨_, himage, _⟩ | ⟨record, img', _, hpending, hsemantic, _⟩
  · refine ⟨(t.run.state n).image, ?_, .inl rfl⟩
    rw [himage]
    rfl
  · obtain ⟨call, hgrows, _⟩ := pending_grows t n record img' hpending
    refine ⟨img', ?_, .inr ⟨call, record, hgrows⟩⟩
    unfold JournalState.winner
    rw [hsemantic]

end

/-! ## Payout safety -/

/-- How a winner may change. -/
structure PayoutStep (before after : JournalWinnerState) : Prop where
  /-- Maturity is left only by too few confirmations, by absence from the
  chain or, for Wcash, by a conflicting witness. -/
  fromMatured : before.lifecycle.isMatured →
    (∃ tip confirmations, after.lifecycle = .observed tip confirmations ∧
      confirmations < before.winner.maturityConfirmations) ∨
    (∃ tip, after.lifecycle = .orphaned tip) ∨
    (before.winner.chain = .wcash ∧ ∃ tip, after.lifecycle = .quarantined tip)
  toMatured : after.lifecycle.isMatured → before.lifecycle.isObserved
  toSideChain : ∀ tip, after.lifecycle = .sideChain tip →
    before.lifecycle = .pending ∧ before.winner.chain = .zcash
  toRequeued : ∀ tip, after.lifecycle = .requeued tip → before.lifecycle.isQuarantined

theorem Reconciles.payoutStep (h : Reconciles before.lifecycle before.winner change)
    (hafter : after.lifecycle = change.lifecycle) : PayoutStep before after := by
  constructor
  · intro hmatured
    rw [hafter]
    cases h with
    | sideChain _ hpending =>
      rw [hpending] at hmatured
      cases hmatured
    | observed _ hbelow => exact .inl ⟨_, _, rfl, hbelow hmatured⟩
    | orphaned _ => exact .inr (.inl ⟨_, rfl⟩)
    | quarantined hchain => exact .inr (.inr ⟨hchain, _, rfl⟩)
    | requeued hother | matured _ hother _ =>
      -- No other lifecycle is mature.
      cases hbefore : before.lifecycle <;> rw [hbefore] at hmatured hother <;>
        first | (cases hmatured; done) | cases hother
  · intro hmatured
    rw [hafter] at hmatured
    cases h with
    | matured _ hobserved _ => exact hobserved
    | _ => cases hmatured
  · intro tip hside
    rw [hafter] at hside
    cases h with
    | sideChain hchain hpending => exact ⟨hpending, hchain⟩
    | _ => cases hside
  · intro tip hrequeued
    rw [hafter] at hrequeued
    cases h with
    | requeued hquarantined => exact hquarantined
    | _ => cases hrequeued

/-- A winner that was observed and not quarantined since. -/
def WinnerLifecycle.seen : WinnerLifecycle → Bool
  | .observed _ _ | .matured _ _ | .orphaned _ => true
  | _ => false

theorem WinnerLifecycle.seen_of_observed (h : lifecycle.isObserved) : lifecycle.seen = true := by
  cases lifecycle <;> first | rfl | cases h

/-- From there only a quarantine leads away. -/
theorem Reconciles.seen {winner : WinnerDescriptor} (h : Reconciles lifecycle winner change)
    (hseen : lifecycle.seen) : change.lifecycle.seen ∨ change.lifecycle.isQuarantined := by
  cases h with
  | sideChain _ hpending =>
    rw [hpending] at hseen
    cases hseen
  | requeued hquarantined =>
    cases lifecycle <;> first | (cases hquarantined; done) | cases hseen
  | observed _ _ | orphaned _ | matured _ _ _ => exact .inl rfl
  | quarantined _ => exact .inr rfl

/-- The winner of a key over one allowed call: the same, or a payout step
that reconciliation made. -/
theorem Grows.reconciles {img img' : Image} (hlog : Logged x (fun _ _ => True) header records img)
    (h : Grows x Reconciled img call record img')
    (hbefore : img.semantic.winners.lookup key = some before) :
    ∃ after, img'.semantic.winners.lookup key = some after ∧
      (after = before ∨ ∃ change, after.lifecycle = change.lifecycle ∧
        Reconciles before.lifecycle before.winner change) := by
  rcases h.winner hlog key with
    hkept | ⟨hnew, _⟩ | ⟨change, before', after, hcall, hbefore', hafter⟩
  · exact ⟨before, hkept.trans hbefore, .inl rfl⟩
  · rw [hbefore] at hnew
    cases hnew
  · rw [hbefore] at hbefore'
    cases hbefore'
    have hallowed := h.allowed
    rw [hcall.call] at hallowed
    obtain ⟨observation, hobservation⟩ := hallowed before hbefore rfl
    have hlifecycle : after.lifecycle = change.lifecycle := by rw [hcall.result]
    exact ⟨after, hafter, .inr ⟨change, hlifecycle, poolWinnerTransition_some hobservation⟩⟩

/-- The safety of payouts along a run. -/
structure PayoutSafe (r : Run (journalMachine x header allowed)) : Prop where
  /-- A mature winner was made so by a compare-and-swap on an observed one,
  with as many confirmations as the tip gives and no fewer than
  maturity needs. -/
  matured : ∀ n s key after tip confirmations, r.state n = .running s →
    s.winner key = some after → after.lifecycle = .matured tip confirmations →
    ∃ m before, Maker r key n m (.matured tip confirmations) before after ∧
      before.lifecycle.isObserved ∧ ConfirmedBy after.winner tip confirmations ∧
      after.winner.maturityConfirmations ≤ confirmations
  /-- A serving journal and the next one that is open, with no serving one
  between them: a winner is the same or has made a payout step, and a
  new winner is pending. -/
  changes : ∀ i k s s' key, i < k → (r.state i).Serves s → r.state k = .running s' →
    (∀ j, i < j → j < k → ∀ t, ¬ (r.state j).Serves t) →
    (∀ before, s.winner key = some before →
      ∃ after, s'.winner key = some after ∧ (after = before ∨ PayoutStep before after)) ∧
    (∀ after, s.winner key = none → s'.winner key = some after → after.lifecycle = .pending)
  /-- A poisoned journal does not change until the process stops. -/
  poisoned : ∀ i k s, i ≤ k → r.state i = .running s → s.poisoned = true →
    (∀ j, i ≤ j → j < k → r.label j ≠ .stop) → r.state k = .running s
  submission : ∀ n s key entry, r.state n = .running s → s.winner key = some entry →
    (entry.lifecycle.requiresSubmission = true ↔
      entry.lifecycle = .pending ∨ ∃ tip, entry.lifecycle = .requeued tip)
  /-- An observed winner needs submission again only after a quarantine. -/
  resubmission : ∀ i k s s' key before after, i ≤ k → (r.state i).Serves s →
    s.winner key = some before → before.lifecycle.isObserved → r.state k = .running s' →
    s'.winner key = some after → after.lifecycle.requiresSubmission = true →
    ∃ j t entry, i < j ∧ j ≤ k ∧ (r.state j).Serves t ∧ t.winner key = some entry ∧
      entry.lifecycle.isQuarantined

section

variable {r : Run (journalMachine x header Reconciled)}
  (t : Tracking r (ledgerMachine x header Reconciled) (Tracks x header))

include t

variable {s' : JournalState} {i k : Nat}

theorem matured_of_maker {n : Nat} (hrun : r.state n = .running s)
    (hafter : s.winner key = some after) (hmatured : after.lifecycle = .matured tip confirmations) :
    ∃ m before, Maker r key n m (.matured tip confirmations) before after ∧
      before.lifecycle.isObserved ∧ ConfirmedBy after.winner tip confirmations ∧
      after.winner.maturityConfirmations ≤ confirmations := by
  -- Every winner of an open journal is pending or was made by one call.
  have haccounted : Accounted r key n after := by
    have hrel := t.related n
    rw [hrun] at hrel
    obtain ⟨himage, hpend⟩ := ledger_explained t
      (fun img after => img.semantic.winners.lookup key = some after) (Accounted r key)
      (fun img after himg hafter => by
        rw [himg.semantic] at hafter
        cases hafter)
      (fun _ _ haccounted hshow => haccounted.succ hshow)
      (fun _ _ _ _ _ _ _ hlabel hpending hgrows hrun hsemantic ih hafter =>
        accounted_of_grows t hlabel hpending hgrows hrun hsemantic ih hafter) n
    rcases hrel.running with ⟨_, hsame, _⟩ | ⟨record, img', _, hpending, hsemantic, _⟩
    · refine himage after ?_
      rw [hsame]
      exact hafter
    · refine hpend record img' after hpending ?_
      rw [← hsemantic]
      exact hafter
  rcases haccounted with hpending | ⟨m, change, before, hmaker⟩
  · rw [hmatured] at hpending
    cases hpending
  · obtain ⟨call, outcome, _, hcall, s₀, _, hbefore, hallowed⟩ := hmaker.call
    rw [hcall.call] at hallowed
    obtain ⟨observation, hobservation⟩ := hallowed before hbefore rfl
    have hreconciles := poolWinnerTransition_some hobservation
    have hwinner : after.winner = before.winner := by rw [hcall.result]
    have hchange : change = .matured tip confirmations := by
      have hlifecycle : after.lifecycle = change.lifecycle := by rw [hcall.result]
      rw [hmatured] at hlifecycle
      cases change <;> cases hlifecycle
      rfl
    subst hchange
    rw [hwinner]
    cases hreconciles with
    | matured hconfirmed hobserved hmature =>
      exact ⟨m, before, hmaker, hobserved, hconfirmed, hmature⟩

section

variable (hik : i < k) (hserves : (r.state i).Serves s) (hrun : r.state k = .running s')
  (hnot : ∀ j, i < j → j < k → ∀ t, ¬ (r.state j).Serves t) (key : WinnerKey)

include hik hserves hrun hnot

/-- From a serving journal to the next open one there is at most one
record. -/
theorem next_open :
    ∃ img, s'.winner key = img.semantic.winners.lookup key ∧
      (img = s.image ∨ ∃ call record, Grows x Reconciled s.image call record img) := by
  obtain ⟨k, rfl⟩ : ∃ k', k = k' + 1 := ⟨k - 1, by omega⟩
  -- The image stays up to `k`, the state before the last step.
  have hsame : (t.run.state k).image = s.image := by
    rw [← ((t.related i).serves hserves).1]
    refine image_eq_of_not_serving t (le_of_lt_succ hik) ?_
    intro j hij hjk
    exact hnot j hij (lt_succ_of_le hjk)
  obtain ⟨img, hwinner, himg⟩ := running_winner t hrun
  rcases image_step t k with hstay | ⟨⟨s'', hserves'⟩, hgrows⟩
  · rw [hstay, hsame] at himg
    exact ⟨img, hwinner, himg⟩
  · -- The last step appended a record, and the journal shows its image.
    rw [hsame] at hgrows
    refine ⟨(t.run.state (k + 1)).image, ?_, .inr hgrows⟩
    rw [((t.related (k + 1)).serves hserves').1]
    have hrunning := hserves'.running
    rw [hrun] at hrunning
    cases hrunning
    rfl

theorem winner_changes :
    (∀ before, s.winner key = some before →
      ∃ after, s'.winner key = some after ∧ (after = before ∨ PayoutStep before after)) ∧
    (∀ after, s.winner key = none → s'.winner key = some after → after.lifecycle = .pending) := by
  have hlog := (t.related i).logged
  rw [((t.related i).serves hserves).1] at hlog
  obtain ⟨img, hwinner, himg⟩ := next_open t hik hserves hrun hnot key
  rw [hwinner]
  rcases himg with rfl | ⟨call, record, hgrows⟩
  · constructor
    · intro before hbefore
      exact ⟨before, hbefore, .inl rfl⟩
    · intro after hnone hafter
      cases hnone.symm.trans hafter
  · constructor
    · intro before hbefore
      obtain ⟨after, hafter, heq | ⟨change, hlifecycle, hreconciles⟩⟩ :=
        hgrows.reconciles hlog hbefore
      · exact ⟨after, hafter, .inl heq⟩
      · exact ⟨after, hafter, .inr (hreconciles.payoutStep hlifecycle)⟩
    · intro after hnone hafter
      rcases hgrows.winner hlog key with
        hkept | ⟨_, after', hafter', hpending⟩ | ⟨_, before, _, _, hbefore, _⟩
      · cases hnone.symm.trans (hkept.symm.trans hafter)
      · rw [hafter] at hafter'
        cases hafter'
        exact hpending
      · cases hnone.symm.trans hbefore

end

/-- An observed winner stays seen in the ledger until a serving journal
shows it quarantined. -/
theorem seen_until_quarantined (hik : i ≤ k) (hserves : (r.state i).Serves s)
    (hbefore : s.winner key = some before) (hseen : before.lifecycle.seen) :
    (∃ j t entry, i < j ∧ j ≤ k ∧ (r.state j).Serves t ∧ t.winner key = some entry ∧
      entry.lifecycle.isQuarantined) ∨
    ∃ entry, (t.run.state k).image.semantic.winners.lookup key = some entry ∧
      entry.lifecycle.seen := by
  induction hik with
  | refl =>
    refine .inr ⟨before, ?_, hseen⟩
    rw [((t.related i).serves hserves).1]
    exact hbefore
  | @step k hle ih =>
    rcases ih with ⟨j, t', entry, hij, hjk, hquarantined⟩ | ⟨entry, hentry, hseen⟩
    · exact .inl ⟨j, t', entry, hij, le_succ_of_le hjk, hquarantined⟩
    · rcases image_step t k with hstay | ⟨⟨s', hserves'⟩, call, record, hgrows⟩
      · rw [hstay]
        exact .inr ⟨entry, hentry, hseen⟩
      · obtain ⟨after, hafter, heq | ⟨change, hlifecycle, hreconciles⟩⟩ :=
          hgrows.reconciles (t.related k).logged hentry
        · subst heq
          exact .inr ⟨after, hafter, hseen⟩
        · rcases hreconciles.seen hseen with hnext | hnext
          · exact .inr ⟨after, hafter, hlifecycle ▸ hnext⟩
          · refine .inl ⟨k + 1, s', after, lt_succ_of_le hle, le_refl _, hserves', ?_,
              hlifecycle ▸ hnext⟩
            rw [((t.related (k + 1)).serves hserves').1] at hafter
            exact hafter

theorem quarantined_before_resubmission (hik : i ≤ k) (hserves : (r.state i).Serves s)
    (hbefore : s.winner key = some before) (hobserved : before.lifecycle.isObserved)
    (hrun : r.state k = .running s') (hafter : s'.winner key = some after)
    (hrequires : after.lifecycle.requiresSubmission = true) :
    ∃ j t entry, i < j ∧ j ≤ k ∧ (r.state j).Serves t ∧ t.winner key = some entry ∧
      entry.lifecycle.isQuarantined := by
  have hseen := WinnerLifecycle.seen_of_observed hobserved
  rcases seen_until_quarantined t hik hserves hbefore hseen with hfound | ⟨entry, hentry, hseen⟩
  · exact hfound
  -- What the journal shows is at most one record further, so it is seen or quarantined.
  have hshows : after.lifecycle.seen ∨ after.lifecycle.isQuarantined := by
    obtain ⟨img, hwinner, heq | ⟨call, record, hgrows⟩⟩ := running_winner t hrun
    · rw [hwinner, heq, hentry] at hafter
      cases hafter
      exact .inl hseen
    · obtain ⟨after', hafter', heq | ⟨change, hlifecycle, hreconciles⟩⟩ :=
        hgrows.reconciles (t.related k).logged hentry
      · rw [hwinner, hafter', heq] at hafter
        cases hafter
        exact .inl hseen
      · rw [hwinner, hafter'] at hafter
        cases hafter
        rw [hlifecycle]
        exact hreconciles.seen hseen
  generalize after.lifecycle = lifecycle at hshows hrequires
  cases lifecycle <;> first | (cases hrequires; done) | (rcases hshows with h | h <;> cases h)

end

/-- A poisoned journal does not change until the process stops. -/
theorem poisoned_until_stop {r : Run (journalMachine x header allowed)} {i k : Nat} (hik : i ≤ k)
    (hrun : r.state i = .running s) (hpoisoned : s.poisoned = true)
    (hnot : ∀ j, i ≤ j → j < k → r.label j ≠ .stop) : r.state k = .running s := by
  induction hik with
  | refl => exact hrun
  | @step k hle ih =>
    have hk := ih fun j hij hjk => hnot j hij (lt_succ_of_lt hjk)
    have hlabel := hnot k hle (lt_succ_self k)
    have hstep := r.steps k
    rw [hk] at hstep
    generalize r.label k = action at hstep hlabel
    generalize r.state (k + 1) = p at hstep ⊢
    cases hstep with
    | @returned env call _ s' _ h =>
      obtain ⟨e, hfails⟩ := run_poisoned (x := x) hpoisoned call env
      rw [hfails] at h
      cases h
    | @failed env call _ s' e _ h =>
      obtain ⟨e, hfails⟩ := run_poisoned (x := x) hpoisoned call env
      rw [hfails] at h
      cases h
      rfl
    | stopped _ _ => exact absurd rfl hlabel

/-! ## A run to maturity

The Zcash winner of the sample table is observed with 60 confirmations
and matures with 100. -/

def sampleState : Nat → Process
  | 0 => .running sampleCreated.state
  | 1 => .running sampleWithJob.state
  | 2 => .running sampleWithShare.state
  | 3 => .running sampleWithObserved.state
  | _ => .running sampleWithMatured.state

/-- A call that is refused at once. -/
def sampleIdle : AppendCall :=
  .event (.shareCommitted sampleReceipt sampleShare.jobId sampleWorker sampleShare.targetLe)

def sampleAction : Nat → Action
  | 0 => .call (.event (.jobActivated 0 sampleJob)) (.ok ())
  | 1 => .call (.share sampleShare) (.ok ())
  | 2 => .call (.winner sampleShare.shareId .zcash 2 sampleObserved) (.ok ())
  | 3 => .call (.winner sampleShare.shareId .zcash 3 sampleMatured) (.ok ())
  | _ => .call sampleIdle (.error shareRequiresAtomicAppend)

theorem sample_steps (n : Nat) :
    ProcessStep sample sampleIdentity Reconciled (sampleState n) (sampleAction n)
      (sampleState (n + 1)) := by
  match n with
  | 0 => exact .returned trivial sample_takes_job.run
  | 1 => exact .returned trivial sample_takes_share.run
  | 2 =>
    refine .returned ?_ sample_takes_observed.run
    intro entry hentry _
    have heq : samplePending = entry := Option.some.inj (sample_pending.symm.trans hentry)
    subst heq
    exact ⟨.present ⟨.fill 32 0x31, 60⟩ 60, by decide⟩
  | 3 =>
    refine .returned ?_ sample_takes_matured.run
    intro entry hentry _
    have heq := Option.some.inj (sample_observed.symm.trans hentry)
    subst heq
    exact ⟨.present ⟨.fill 32 0x32, 100⟩ 100, by decide⟩
  | n + 4 =>
    have hidle : sampleIdle.run sample {} sampleWithMatured.state
        = .error shareRequiresAtomicAppend sampleWithMatured.state := rfl
    exact .failed trivial hidle

def sampleRun : Run (journalMachine sample sampleHeader Reconciled) where
  state := sampleState
  label := sampleAction
  starts := ⟨_, _, sample_created, rfl⟩
  steps := sample_steps

/-- The winner of the run from state 4 on. -/
def sampleMature : JournalWinnerState :=
  { samplePending with lifecycle := sampleMatured.lifecycle, revisionEventSeq := 4 }

/-! ## The result -/

/-- Payout safety of the winner lifecycle. Over every life of a journal,
restarts included, in which each winner event is what reconciliation
made of the winner at the compared revision, whatever the nodes
report. -/
theorem payout_safety (hx : LawfulJson x) (r : Run (journalMachine x header Reconciled)) :
    PayoutSafe r := by
  obtain ⟨t⟩ := (journal_simulation hx).exists_tracking r
  constructor
  · intro n s key after tip confirmations hrun hafter hmatured
    exact matured_of_maker t hrun hafter hmatured
  · intro i k s s' key hik hserves hrun hnot
    exact winner_changes t hik hserves hrun hnot key
  · intro i k s hik hrun hpoisoned hnot
    exact poisoned_until_stop hik hrun hpoisoned hnot
  · intro n s key entry _ _
    cases entry.lifecycle <;> simp [WinnerLifecycle.requiresSubmission]
  · intro i k s s' key before after hik hserves hbefore hobserved hrun hafter hrequires
    exact quarantined_before_resubmission t hik hserves hbefore hobserved hrun hafter hrequires

/-- The mature winner of the sample run was made so by step 3 of it. -/
theorem payout_safety_sample_run :
    ∃ m before, Maker sampleRun sampleKey 4 m sampleMatured before sampleMature ∧
      before.lifecycle.isObserved ∧
      ConfirmedBy sampleWinner ⟨.fill 32 0x32, 100⟩ 100 ∧
      sampleWinner.maturityConfirmations ≤ 100 := by
  have hmature : sampleWithMatured.state.winner sampleKey = some sampleMature :=
    AList.lookup_insert _
  exact (payout_safety sample_lawful sampleRun).matured 4 _ sampleKey sampleMature _ _ rfl
    hmature rfl

end Wolf.PoolJournal
