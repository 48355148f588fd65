import Wolf.PoolJournal.Readers
import Wolf.PoolJournal.System
import Wolf.PoolJournal.Table

/-! # The pool backend journal: failures leave no trace or poison

An append changes the semantic state before it writes, so a failure on
the way leaves memory ahead of the file. Such a journal is poisoned,
and a poisoned journal answers nothing.

* `failures_contained`: no caller sees a record that is not durable. -/

namespace Wolf.PoolJournal

open PoolBackendJournalError Exec AppendCall

variable (x : External)

/-! ## One append -/

/-- The record took `s` to `s'`, and every step of the write succeeded. -/
structure Durable (env : AppendEnv) (s : JournalState) (record : PersistedEventRecord)
    (s' : JournalState) : Prop where
  verifiedBefore : verifyLockedJournalPath env.verifyBefore s.file s.bytesWritten = .ok ()
  written : env.write = none
  synced : env.sync = none
  verifiedAfter : verifyLockedJournalPath env.verifyAfter s'.file s'.bytesWritten = .ok ()
  appends : Appends x s.image record s'.image
  settled : Settled s'

/-- What a call may do to a journal. -/
def Effect {α : Type} (env : AppendEnv) (s : JournalState) :
    EStateM.Result PoolBackendJournalError JournalState α → Prop
  | .ok _ s' => s' = s ∨ ∃ record, Durable x env s record s'
  | .error _ s' => s' = s ∨ s.poisoned = false ∧ s'.poisoned = true

section

variable {x} {env : AppendEnv} {s s' : JournalState} {event : BackendEvent}
  {blocks : PersistedWinnerBlocks} {prepared : PreparedAppend} {e : PoolBackendJournalError}

/-- Step lemma: `append_locked` on any usable journal. -/
theorem appendLocked_effect (env : AppendEnv) (event : BackendEvent)
    (blocks : PersistedWinnerBlocks) (husable : s.poisoned = false) :
    Effect x env s (appendLocked x env event blocks s) := by
  rcases appendLocked_cases x with
    ⟨e, he⟩ | ⟨prepared, semantic, hprepared, happly, heq⟩
  · rw [he]
    exact .inl rfl
  rw [heq]
  cases h : persistAppend env prepared { s with semantic } with
  | ok u s' =>
    obtain ⟨hbefore, hwritten, hsynced, hafter, rfl⟩ := persistAppend_ok h
    -- The first verification compares the length of the file.
    have hs : Settled s := by
      refine ⟨husable, Eq.symm ?_⟩
      unfold verifyLockedJournalPath at hbefore
      split at hbefore
      · cases hbefore
      · exact of_rejectIf hbefore
    obtain ⟨happends, _, _, hlength⟩ := appends_of_prepareAppend x hs hprepared happly
    exact .inr ⟨prepared.record, hbefore, hwritten, hsynced, hafter, happends, husable, hlength⟩
  | error e s' =>
    obtain ⟨written, hs'⟩ := persistAppend_err h
    refine .inr ⟨husable, ?_⟩
    rw [← hs']

/-- A public append on any journal. -/
theorem AppendCall.run_effect (call : AppendCall) (env : AppendEnv) (s : JournalState) :
    Effect x env s (call.run x env s) := by
  cases run_shape (x := x) with
  | refused h | answered _ h =>
    rw [h]
    exact .inl rfl
  | @appends event blocks _ husable _ h =>
    rw [h]
    have heffect := appendLocked_effect (x := x) env event blocks husable
    cases happ : appendLocked x env event blocks s with
    | ok u s' =>
      rw [bind_of_ok happ]
      rw [happ] at heffect
      exact heffect
    | error e s' =>
      rw [bind_of_err happ]
      rw [happ] at heffect
      exact heffect

/-- A journal that answers is not poisoned. -/
theorem usable_of_answer {read : ReadCall} (h : read.run x s = .ok ()) : s.poisoned = false := by
  rw [Bool.eq_false_iff]
  intro hpoisoned
  obtain ⟨e, herror⟩ := ReadCall.run_poisoned (x := x) hpoisoned read
  rw [herror] at h
  cases h

end

/-! ## The result -/

/-- The state after a call, in both cases. -/
def stateAfter {α : Type} : EStateM.Result PoolBackendJournalError JournalState α → JournalState
  | .ok _ s' => s'
  | .error _ s' => s'

/-- Failures of a journal leave no trace, or stop it. -/
structure FailuresContained : Prop where
  /-- A failed call leaves the whole journal as it was, or poisons it. -/
  unchanged : ∀ (call : AppendCall) (env : AppendEnv) (s s' : JournalState)
    (e : PoolBackendJournalError), call.run x env s = .error e s' →
    s' = s ∨ s.poisoned = false ∧ s'.poisoned = true
  /-- Any failure after `apply_record` poisons. -/
  poisons : ∀ (env : AppendEnv) (s s' : JournalState) (event : BackendEvent)
    (blocks : PersistedWinnerBlocks) (prepared : PreparedAppend) (semantic : JournalSemanticState)
    (e : PoolBackendJournalError), prepareAppend x env s event blocks = .ok prepared →
    applyRecord x env.blockMemory prepared.record s.semantic = .ok () semantic →
    appendLocked x env event blocks s = .error e s' → s'.poisoned = true
  /-- A poisoned journal refuses every append and every query, and stays as it is. -/
  refuses : ∀ s : JournalState, s.poisoned = true →
    (∀ (call : AppendCall) (env : AppendEnv), ∃ e, call.run x env s = .error e s) ∧
      ∀ read : ReadCall, ∃ e, read.run x s = .error e
  /-- After a call, whatever it returned, a query that answers sees the
  journal from before the call or one with a durable record more. -/
  durable : ∀ (call : AppendCall) (env : AppendEnv) (s : JournalState) (read : ReadCall),
    read.run x (stateAfter (call.run x env s)) = .ok () →
    stateAfter (call.run x env s) = s ∨
      ∃ record, Durable x env s record (stateAfter (call.run x env s))
  /-- Over the life of a journal, what a query answers from is the content
  of the file. -/
  answers : LawfulJson x → ∀ (header : JournalHeader)
    (r : Run (journalMachine x header fun _ _ => True)) (n : Nat) (s : JournalState)
    (read : ReadCall), r.state n = .running s → read.run x s = .ok () →
    Settled s ∧ ∃ records, Logged x (fun _ _ => True) header records s.image

/-- No caller can observe a record that was not written, synced and
verified. -/
theorem failures_contained : FailuresContained x where
  unchanged call env s s' e h := by
    have heffect := run_effect (x := x) call env s
    rw [h] at heffect
    exact heffect
  poisons env s s' event blocks prepared semantic e hprepared happly h := by
    rw [appendLocked_of_apply x hprepared happly] at h
    obtain ⟨written, hs'⟩ := persistAppend_err h
    rw [← hs']
  refuses s hs :=
    ⟨fun call env => run_poisoned hs call env, fun read => ReadCall.run_poisoned hs read⟩
  durable call env s read hread := by
    have heffect := run_effect (x := x) call env s
    cases h : call.run x env s with
    | ok u s' =>
      rw [h] at heffect
      exact heffect
    | error e s' =>
      rw [h] at heffect hread
      rcases heffect with heq | ⟨_, hpoisoned⟩
      · exact .inl heq
      · have husable : s'.poisoned = false := usable_of_answer hread
        rw [hpoisoned] at husable
        cases husable
  answers hx header r n s read hrun hread := by
    obtain ⟨t⟩ := (journal_simulation hx).exists_tracking r
    have hrel := t.related n
    rw [hrun] at hrel
    generalize t.run.state n = l at hrel
    cases hrel with
    | @settled _ records hs hlog => exact ⟨hs, records, hlog⟩
    | halted hlog h =>
      have husable := usable_of_answer hread
      rw [h.poisoned] at husable
      cases husable

/-- The sample share when its sync fails: the winner is in memory, and no
query shows it. -/
theorem failures_contained_unsynced_share :
    ∃ s', (AppendCall.share sampleShare).run sample { sync := some "full" } sampleWithJob.state
        = .error (io "fsync" "full") s' ∧
      s'.semantic.winners.lookup sampleKey = some samplePending ∧
      ∀ read : ReadCall, ∃ e, read.run sample s' = .error e := by
  refine ⟨sampleWithJob.state.unsynced sampleWithShare, ?_, sample_pending, ?_⟩
  · exact sample_takes_share.run_unsynced "full"
  · exact ((failures_contained sample).refuses _ rfl).2

end Wolf.PoolJournal
