import Wolf.PoolJournal.Readers
import Wolf.PoolJournal.Retention

/-! # The pool backend journal: compare-and-swap of winners

Reconcilers read a winner, ask a node about it, and later call
`compare_and_transition_winner` with the revision they read. All
methods hold the journal mutex, so a schedule of any number of threads
is a run of the journal: reads happen in its states and calls are its
steps.

* `swaps_lose_no_update`: the guarantees of the compare-and-swap. -/

namespace Wolf.PoolJournal

open PoolBackendJournalError Exec Nat AppendCall

variable {x : External} {header : JournalHeader} {allowed : Image → AppendCall → Prop}
  {after before current entry : JournalWinnerState} {key : WinnerKey} {s : JournalState}
  {record : PersistedEventRecord} {revision : Nat}

/-! ## Revisions -/

/-- A winner is as it was, or was changed since. -/
def Newer (before after : JournalWinnerState) : Prop :=
  after = before ∨ before.revisionEventSeq < after.revisionEventSeq

theorem Newer.le (h : Newer before after) : before.revisionEventSeq ≤ after.revisionEventSeq := by
  rcases h with rfl | hlt
  · exact le_refl _
  · exact le_of_lt hlt

theorem Newer.trans (h : Newer before entry) (h' : Newer entry after) : Newer before after := by
  rcases h with rfl | hlt
  · exact h'
  · exact .inr (lt_of_lt_of_le hlt h'.le)

/-- The revision tells the state. -/
theorem Newer.eq_of_revision (h : Newer before after)
    (hrevision : after.revisionEventSeq = before.revisionEventSeq) : after = before := by
  rcases h with heq | hlt
  · exact heq
  · omega

/-- Step lemma: a record changes a winner only with a new revision. -/
theorem Grows.newer {img img' : Image} {call : AppendCall} {records : List PersistedEventRecord}
    (hlog : Logged x (fun _ _ => True) header records img)
    (h : Grows x allowed img call record img')
    (hbefore : img.semantic.winners.lookup key = some before) :
    ∃ after, img'.semantic.winners.lookup key = some after ∧ Newer before after := by
  rcases h.winner hlog key with hkept | ⟨hnone, _⟩ | ⟨change, entry, after, hcall, hentry, hafter⟩
  · exact ⟨before, hkept.trans hbefore, .inl rfl⟩
  · rw [hnone] at hbefore
    cases hbefore
  · rw [hentry] at hbefore
    cases hbefore
    exact ⟨after, hafter, .inr hcall.revision⟩

/-! ## One call -/

/-- A revision that is not the current one is refused, and nothing
changes. -/
theorem compareAndTransitionWinner_stale (env : AppendEnv) (transition : WinnerTransition)
    (hcurrent : s.winner key = some current) (hstale : current.revisionEventSeq ≠ revision) :
    compareAndTransitionWinner x env key.shareId key.chain revision transition s =
      .error (if s.poisoned then poisoned else
        winnerRevisionConflict key.shareId key.chain revision current.revisionEventSeq) s := by
  have hcurrent : s.semantic.winners.lookup ⟨key.shareId, key.chain⟩ = some current := hcurrent
  unfold compareAndTransitionWinner
  rw [get_bind_run]
  by_cases hpoisoned : s.poisoned = true
  · rw [ensureUsable_poisoned hpoisoned, if_pos hpoisoned]
    rfl
  · rw [check_bind_of_ok (ensureUsable_ok.mpr (Bool.eq_false_iff.mpr hpoisoned)), if_neg hpoisoned,
      check_bind_of_ok (okOr_eq_ok.mpr hcurrent), rejectIf_of_pos hstale]
    rfl

variable (x) in
/-- `compare_and_transition_winner` after its comparison. -/
def appendTransition (env : AppendEnv) (transition : WinnerTransition)
    (winner : JournalWinnerState) : JournalM BackendEvent := do
  let state ← get
  let eventSeq ← check (nextEventSeq state.events)
  let event := transition.intoEvent eventSeq winner
  appendLocked x env event {}
  pure event

/-- With the current revision the call goes on to append its event. -/
theorem compareAndTransitionWinner_current (env : AppendEnv) (transition : WinnerTransition)
    (husable : s.poisoned = false) (hcurrent : s.winner key = some current) :
    compareAndTransitionWinner x env key.shareId key.chain current.revisionEventSeq transition s =
      appendTransition x env transition current s := by
  have hcurrent : s.semantic.winners.lookup ⟨key.shareId, key.chain⟩ = some current := hcurrent
  unfold compareAndTransitionWinner appendTransition
  rw [get_bind_run, check_bind_of_ok (ensureUsable_ok.mpr husable),
    check_bind_of_ok (okOr_eq_ok.mpr hcurrent),
    check_bind_of_ok (rejectIf_of_not (not_not.mpr rfl)), get_bind_run]

variable {transition change : WinnerTransition}

/-- What a winner event does. -/
theorem Applies.withChange {s s' : JournalSemanticState} {eventSeq : Nat} {shareId jobId : Hex32}
    {winner : WinnerDescriptor} (h : Applies x record s s')
    (hevent : record.event = .winnerChanged eventSeq shareId jobId winner change) :
    ∃ entry, s.winners.lookup ⟨shareId, winner.chain⟩ = some entry ∧
      s' = s.withChange record.eventSeq ⟨shareId, winner.chain⟩ entry change := by
  cases h with
  | winnerChanged hevent' _ hentry _ _ _ =>
    rw [hevent] at hevent'
    cases hevent'
    exact ⟨_, hentry, rfl⟩
  | jobActivated hevent' _ _ | jobInvalidated hevent' _ _ _ | generationClosed hevent' _ _ _
  | shareCommitted hevent' _ _ _ _ _ _ _ => rw [hevent] at hevent'; cases hevent'

/-! ## Schedules -/

/-- Some thread reads the winner in state `i`. -/
def ReadAt (r : Run (journalMachine x header allowed)) (i : Nat) (key : WinnerKey)
    (entry : JournalWinnerState) : Prop :=
  ∃ s, r.state i = .running s ∧ winnerState key.shareId key.chain s = .ok (some entry)

/-- Step `k` is a call for the winner with a revision, by some thread. -/
def SwapAt (r : Run (journalMachine x header allowed)) (k : Nat) (key : WinnerKey)
    (revision : Nat) (transition : WinnerTransition) (outcome : Result Unit) : Prop :=
  r.label k = .call (.winner key.shareId key.chain revision transition) outcome

section

variable {r : Run (journalMachine x header allowed)} {key : WinnerKey} {i : Nat}

/-- Only a usable journal is read. -/
theorem ReadAt.serves (h : ReadAt r i key entry) :
    ∃ s, (r.state i).Serves s ∧ s.winner key = some entry := by
  obtain ⟨s, hrun, hread⟩ := h
  obtain ⟨_, husable, hread⟩ := of_bind hread
  exact ⟨s, ⟨hrun, ensureUsable_ok.mp husable⟩, Except.ok.inj hread⟩

variable (t : Tracking r (ledgerMachine x header allowed) (Tracks x header))

include t

/-- A serving journal shows the winners of the ledger. -/
theorem serves_winner {n : Nat} {s : JournalState} (hserves : (r.state n).Serves s) :
    (t.run.state n).image.semantic.winners.lookup key = s.winner key := by
  rw [((t.related n).serves hserves).1]
  rfl

/-- Run lemma: revisions in the ledger only grow. -/
theorem ledger_newer {k : Nat} (hik : i ≤ k)
    (hentry : (t.run.state i).image.semantic.winners.lookup key = some entry) :
    ∃ current, (t.run.state k).image.semantic.winners.lookup key = some current ∧
      Newer entry current := by
  induction hik with
  | refl => exact ⟨entry, hentry, .inl rfl⟩
  | @step k _ ih =>
    obtain ⟨current, hcurrent, hnewer⟩ := ih
    rcases image_step t k with heq | ⟨_, call, record, hgrows⟩
    · rw [heq]
      exact ⟨current, hcurrent, hnewer⟩
    · obtain ⟨after, hafter, hnewer'⟩ := hgrows.newer (t.related k).logged hcurrent
      exact ⟨after, hafter, hnewer.trans hnewer'⟩

/-- What a call that succeeds does: its expected revision is the current
one, and the winner gets the lifecycle of the transition. -/
theorem swap_succeeds {k : Nat} (hswap : SwapAt r k key revision transition (.ok ())) :
    ∃ s s' before after, (r.state k).Serves s ∧ (r.state (k + 1)).Serves s' ∧
      s.winner key = some before ∧ s'.winner key = some after ∧
      before.revisionEventSeq = revision ∧ revision < after.revisionEventSeq ∧
      after = { before with
        lifecycle := transition.lifecycle, revisionEventSeq := after.revisionEventSeq } := by
  have hstep := r.steps k
  rw [show r.label k = _ from hswap] at hstep
  obtain ⟨s, s', hrun, hrun'⟩ := hstep.call_running
  have hrel := t.related k
  rw [hrun] at hrel
  rw [hrun, hrun'] at hstep
  generalize t.run.state k = l at hrel
  cases hstep with
  | @returned env _ _ _ _ h =>
    cases hrel with
    | halted _ hhalt =>
      -- A poisoned journal returns from no call.
      obtain ⟨e, hfails⟩ := run_poisoned (x := x) hhalt.poisoned
        (.winner key.shareId key.chain revision transition) env
      rw [hfails] at h
      cases h
    | settled hs hlog =>
      obtain ⟨_, _, h, hdone⟩ := bind_ok.mp h
      cases hdone
      obtain ⟨_, _, h⟩ := check_bind_ok.mp h
      obtain ⟨before, hbefore, h⟩ := check_bind_ok.mp h
      obtain ⟨_, hrevision, h⟩ := check_bind_ok.mp h
      obtain ⟨eventSeq, _, h⟩ := check_bind_ok.mp h
      obtain ⟨_, _, happ, hdone⟩ := bind_ok.mp h
      cases hdone
      have hbefore : s.winner key = some before := okOr_eq_ok.mp hbefore
      have hrevision := of_rejectIf hrevision
      obtain ⟨record, hevent, _, happ, hs'⟩ := appendLocked_ok x hs happ
      -- The winner stands under its own key, so the event is about this key.
      obtain ⟨hshareId, hchain, hle⟩ := hlog.winner key before hbefore
      obtain ⟨before', hbefore', hsemantic⟩ := happ.applies.withChange hevent
      have hkey : (⟨before.shareId, before.winner.chain⟩ : WinnerKey) = key := by
        rw [hshareId, hchain]
      rw [hkey] at hbefore' hsemantic
      have heq : before = before' := Option.some.inj (hbefore.symm.trans hbefore')
      subst heq
      have hseq := hlog.record_seq happ
      refine ⟨s, s', before, { before with
        lifecycle := transition.lifecycle, revisionEventSeq := record.eventSeq },
        ⟨hrun, hs.usable⟩, ⟨hrun', hs'.usable⟩, hbefore, ?_, hrevision, ?_, rfl⟩
      · show s'.image.semantic.winners.lookup key = _
        rw [hsemantic]
        exact AList.lookup_insert _
      · show revision < record.eventSeq
        omega

/-- What is in the ledger was read as such, or came by a call for the
winner since. -/
theorem ledger_unswapped (n : Nat)
    (hcurrent : (t.run.state n).image.semantic.winners.lookup key = some current) (hin : i ≤ n)
    (hread : ReadAt r i key entry) :
    current = entry ∨ ∃ j revision transition outcome, i ≤ j ∧ j < n ∧
      SwapAt r j key revision transition outcome := by
  -- In state `n` everything read so far is explained in this way.
  have hexplained := ledger_explained t
    (fun img current => img.semantic.winners.lookup key = some current)
    (fun n current => ∀ i entry, i ≤ n → ReadAt r i key entry →
      current = entry ∨ ∃ j revision transition outcome, i ≤ j ∧ j < n ∧
        SwapAt r j key revision transition outcome) ?_ ?_ ?_ n
  · exact hexplained.1 current hcurrent i entry hin hread
  · intro img current himg hcurrent
    rw [himg.semantic] at hcurrent
    cases hcurrent
  · intro n current ih hshow i entry hin hread
    rcases lt_or_eq_of_le hin with hlt | heq
    · rcases ih i entry (le_of_lt_succ hlt) hread with heq | ⟨j, _, _, _, hij, hjn, hswap⟩
      · exact .inl heq
      · exact .inr ⟨j, _, _, _, hij, lt_succ_of_lt hjn, hswap⟩
    · subst heq
      obtain ⟨s, hserves, hentry⟩ := hread.serves
      exact .inl (Option.some.inj ((hshow s hserves).symm.trans hentry))
  · intro n current call outcome s' record img' hlabel hpending hgrows hrun hsemantic ih hcurrent i
      entry hin hread
    rcases lt_or_eq_of_le hin with hlt | heq
    · have hin := le_of_lt_succ hlt
      rcases hgrows.winner (t.related n).logged key with
        hkept | ⟨hnone, _⟩ | ⟨change, before, after, hcall, _⟩
      · rcases ih (hkept.symm.trans hcurrent) i entry hin hread with
          heq | ⟨j, _, _, _, hij, hjn, hswap⟩
        · exact .inl heq
        · exact .inr ⟨j, _, _, _, hij, lt_succ_of_lt hjn, hswap⟩
      · -- A winner that was read is not new.
        obtain ⟨s, hserves, hentry⟩ := hread.serves
        obtain ⟨_, hsome, _⟩ := ledger_newer t hin ((serves_winner t hserves).trans hentry)
        rw [hnone] at hsome
        cases hsome
      · refine .inr ⟨n, before.revisionEventSeq, change, outcome, hin, lt_succ_self n, ?_⟩
        show r.label n = _
        rw [hlabel, hcall.call]
    · subst heq
      obtain ⟨s, hserves, hentry⟩ := hread.serves
      have hrunning := hserves.running
      rw [hrun] at hrunning
      cases hrunning
      refine .inl (Option.some.inj (hcurrent.symm.trans ?_))
      rw [← hsemantic]
      exact hentry

end

/-- Both reconcilers of the sample read the committed winner. -/
theorem sample_stale_read : ReadAt sampleLossRun 5 sampleKey samplePending :=
  ⟨_, rfl, congrArg Except.ok sample_pending⟩

/-! ## The result -/

/-- Compare-and-swap loses no update, in every schedule. -/
structure SwapsSafe (r : Run (journalMachine x header allowed)) : Prop where
  /-- A transition that succeeds is applied to exactly the state that was
  read, and gives the winner a greater revision. -/
  applied : ∀ i k key entry transition, i ≤ k → ReadAt r i key entry →
    SwapAt r k key entry.revisionEventSeq transition (.ok ()) →
    ∃ s s' after, (r.state k).Serves s ∧ (r.state (k + 1)).Serves s' ∧
      s.winner key = some entry ∧ s'.winner key = some after ∧
      entry.revisionEventSeq < after.revisionEventSeq ∧
      after = { entry with
        lifecycle := transition.lifecycle, revisionEventSeq := after.revisionEventSeq }
  /-- At most one call succeeds for a winner and a revision. -/
  once : ∀ k k' key revision transition transition', SwapAt r k key revision transition (.ok ()) →
    SwapAt r k' key revision transition' (.ok ()) → k = k'
  /-- A stale revision is refused without effect. -/
  stale : ∀ i k key entry current transition outcome s, i ≤ k → ReadAt r i key entry →
    SwapAt r k key entry.revisionEventSeq transition outcome → r.state k = .running s →
    s.winner key = some current → current.revisionEventSeq ≠ entry.revisionEventSeq →
    outcome = .error (if s.poisoned then poisoned else winnerRevisionConflict key.shareId key.chain
      entry.revisionEventSeq current.revisionEventSeq) ∧ r.state (k + 1) = .running s
  /-- Without a call for this winner since it was read, its revision is
  current and the call goes on to append, whatever else was appended. -/
  others : ∀ i k key entry s, i ≤ k → ReadAt r i key entry → (r.state k).Serves s →
    (∀ j revision transition outcome, i ≤ j → j < k →
      ¬ SwapAt r j key revision transition outcome) →
    ∀ env transition, compareAndTransitionWinner x env key.shareId key.chain
      entry.revisionEventSeq transition s = appendTransition x env transition entry s

/-- The compare-and-swap of winners is safe in every schedule of any
number of threads, whatever else is appended and with restarts. -/
theorem swaps_lose_no_update (hx : LawfulJson x) (header : JournalHeader)
    (r : Run (journalMachine x header fun _ _ => True)) : SwapsSafe r := by
  obtain ⟨t⟩ := (journal_simulation hx).exists_tracking r
  -- A call succeeds only on the winner as it was read.
  have hcurrent : ∀ i k key entry s current, i ≤ k → ReadAt r i key entry →
      (r.state k).Serves s → s.winner key = some current → Newer entry current := by
    intro i k key entry s current hik hread hserves hcurrent
    obtain ⟨s₀, hserves₀, hentry⟩ := hread.serves
    obtain ⟨current', hcurrent', hnewer⟩ :=
      ledger_newer t hik ((serves_winner t hserves₀).trans hentry)
    rw [serves_winner t hserves, hcurrent] at hcurrent'
    cases hcurrent'
    exact hnewer
  have hearlier : ∀ k k' key revision transition transition', k < k' →
      SwapAt r k key revision transition (.ok ()) →
      ¬ SwapAt r k' key revision transition' (.ok ()) := by
    intro k k' key revision transition transition' hlt hswap hswap'
    obtain ⟨_, s, _, after, _, hserves, _, hafter, _, hgreater, _⟩ := swap_succeeds t hswap
    obtain ⟨s', _, before, _, hserves', _, hbefore, _, hrevision, _⟩ := swap_succeeds t hswap'
    obtain ⟨current, hcurrent, hnewer⟩ :=
      ledger_newer t hlt ((serves_winner t hserves).trans hafter)
    rw [serves_winner t hserves', hbefore] at hcurrent
    cases hcurrent
    have := hnewer.le
    omega
  constructor
  · intro i k key entry transition hik hread hswap
    obtain ⟨s, s', before, after, hserves, hserves', hbefore, hafter, hrevision, hgreater, heq⟩ :=
      swap_succeeds t hswap
    have hsame := (hcurrent i k key entry s before hik hread hserves hbefore).eq_of_revision
      hrevision
    subst hsame
    exact ⟨s, s', after, hserves, hserves', hbefore, hafter, hgreater, heq⟩
  · intro k k' key revision transition transition' hswap hswap'
    rcases lt_trichotomy k k' with hlt | heq | hlt
    · exact absurd hswap' (hearlier k k' key revision _ _ hlt hswap)
    · exact heq
    · exact absurd hswap (hearlier k' k key revision _ _ hlt hswap')
  · intro i k key entry current transition outcome s _ _ hswap hrun hcurrent hstale
    have hstep := r.steps k
    rw [show r.label k = _ from hswap, hrun] at hstep
    generalize r.state (k + 1) = p at hstep ⊢
    cases hstep with
    | @returned env _ _ s' _ h =>
      obtain ⟨_, _, h, _⟩ := bind_ok.mp h
      rw [compareAndTransitionWinner_stale env transition hcurrent hstale] at h
      cases h
    | @failed env _ _ s' e _ h =>
      rcases bind_err.mp h with h | ⟨_, _, h, _⟩
      · rw [compareAndTransitionWinner_stale env transition hcurrent hstale] at h
        cases h
        exact ⟨rfl, rfl⟩
      · rw [compareAndTransitionWinner_stale env transition hcurrent hstale] at h
        cases h
  · intro i k key entry s hik hread hserves hnone env transition
    obtain ⟨s₀, hserves₀, hentry⟩ := hread.serves
    obtain ⟨current, hcurrent, _⟩ :=
      ledger_newer t hik ((serves_winner t hserves₀).trans hentry)
    rcases ledger_unswapped t k hcurrent hik hread with heq | ⟨j, _, _, _, hij, hjk, hswap⟩
    · subst heq
      rw [serves_winner t hserves] at hcurrent
      exact compareAndTransitionWinner_current env transition hserves.usable hcurrent
    · exact absurd hswap (hnone j _ _ _ hij hjk)

/-- The first reconciler of the sample swaps the winner that it read. -/
theorem swaps_lose_no_update_observed :
    ∃ s s' after, (sampleLossRun.state 5).Serves s ∧ (sampleLossRun.state 6).Serves s' ∧
      s.winner sampleKey = some samplePending ∧ s'.winner sampleKey = some after ∧
      2 < after.revisionEventSeq ∧ after = { samplePending with
        lifecycle := sampleObserved.lifecycle, revisionEventSeq := after.revisionEventSeq } :=
  (swaps_lose_no_update sample_lawful sampleHeader sampleLossRun).applied 5 5 sampleKey
    samplePending sampleObserved (le_refl 5) sample_stale_read rfl

/-- The other one calls with the revision it read, when the winner has
another one and the journal is poisoned. It is told so, and gets no
conflict. -/
theorem stale_swap_not_conflict :
    ReadAt sampleLossRun 5 sampleKey samplePending ∧
      (∃ s current, sampleLossRun.state 7 = .running s ∧ s.winner sampleKey = some current ∧
        current.revisionEventSeq = 4) ∧
      SwapAt sampleLossRun 7 sampleKey samplePending.revisionEventSeq sampleObserved
        (.error poisoned) :=
  ⟨sample_stale_read, ⟨_, _, rfl, AList.lookup_insert _, rfl⟩, rfl⟩

end Wolf.PoolJournal
