import Wolf.PoolJournal.Table
import Mathlib.Logic.Relation

/-! # The pool backend journal: appends are crash-atomic

From a created journal, any successful appends, and one more append of
which a crash lets only a prefix of the line reach the file: reopening
gives the journal before that append or the one after it. -/

namespace Wolf.PoolJournal

open PoolBackendJournalError Exec

variable {x : External} {header : JournalHeader} {s₀ s s' : JournalState}
  {records : List PersistedEventRecord}

/-- One successful public append. -/
def AppendStep (x : External) (s s' : JournalState) : Prop :=
  ∃ env call, AppendCall.run x env call s = .ok () s'

/-- Step lemma: a successful append keeps the journal settled and logged,
and adds at most one record. -/
theorem AppendStep.logged (hs : Settled s)
    (hlog : Logged x (fun _ _ => True) header records s.image) (hstep : AppendStep x s s') :
    s' = s ∨ ∃ record, Appends x s.image record s'.image ∧ Settled s' ∧
      Logged x (fun _ _ => True) header (records ++ [record]) s'.image := by
  obtain ⟨env, call, hrun⟩ := hstep
  have hout := AppendCall.run_settled (x := x) hs call env
  rw [hrun] at hout
  rcases hout with heq | ⟨record, _, happ, hs'⟩
  · exact .inl heq
  · exact .inr ⟨record, happ, hs', hlog.append trivial happ⟩

/-- Run lemma: after any successful appends the journal is settled and its
image is a log. -/
theorem run_logged (hheader : HeaderImage x header s₀.image) (hs₀ : Settled s₀)
    (hrun : Relation.ReflTransGen (AppendStep x) s₀ s) :
    Settled s ∧ ∃ records, Logged x (fun _ _ => True) header records s.image := by
  induction hrun with
  | refl => exact ⟨hs₀, [], .created hheader⟩
  | tail _ hstep ih =>
    obtain ⟨hs, records, hlog⟩ := ih
    rcases hstep.logged hs hlog with heq | ⟨record, _, hs', hlog'⟩
    · rw [heq]
      exact ⟨hs, records, hlog⟩
    · exact ⟨hs', _, hlog'⟩

theorem Ends.ok_of_reliable {α : Type} {env : OpenEnv} {left : Bytes → Prop} {a : α}
    {file : Bytes} {m : EStateM.Result PoolBackendJournalError Bytes α}
    (h : Ends env left m a file) (hrel : env.Reliable) : m = .ok a file := by
  rcases h with h | ⟨henv, _⟩
  · exact h
  · exact absurd hrel henv

/-- The next append to a logged journal takes the next sequence number. -/
theorem next_seq_contiguous (hs : Settled s)
    (hlog : Logged x (fun _ _ => True) header records s.image) (hstep : AppendStep x s s') :
    s' = s ∨ ∃ event, s'.events = s.events ++ [event] ∧ event.eventSeq = s.events.length + 1 := by
  rcases hstep.logged hs hlog with heq | ⟨record, happ, _, _⟩
  · exact .inl heq
  · refine .inr ⟨record.event, happ.events, ?_⟩
    rw [happ.eventSeq, hlog.record_seq happ]
    rfl

/-- A crashed append is all or nothing. `s` is any journal reached from a
new one by successful appends, `s'` the journal that one further append
would make of it, and `file` the old contents with any part of the new
line. Then `open_existing` succeeds with exactly the journal `s` or
exactly the journal `s'` (events, last digest, byte length, jobs,
shares, winners and winner order); with `s'` if the line was complete
and with `s` if nothing was written. The next append to the result
takes the next sequence number. -/
theorem append_crash_atomic (hx : LawfulJson x) {createEnv : CreateEnv}
    {identity : JournalIdentity} (hcreate : createNew x createEnv identity = .ok (header, s₀))
    (hrun : Relation.ReflTransGen (AppendStep x) s₀ s) (hlast : AppendStep x s s')
    {file : Bytes} (hlower : s.file <+: file) (hupper : file <+: s'.file)
    {env : OpenEnv} (hrel : env.Reliable) :
    ∃ r, openExisting x env identity file = .ok (header, r) r.file ∧ (r = s ∨ r = s') ∧
      (file = s'.file → r = s') ∧ (file = s.file → r = s) ∧
      ∀ r', AppendStep x r r' → r' = r ∨
        ∃ event, r'.events = r.events ++ [event] ∧ event.eventSeq = r.events.length + 1 := by
  obtain ⟨hheader, hs₀, hidentity⟩ := createNew_ok x hcreate
  obtain ⟨hs, records, hlog⟩ := run_logged hheader hs₀ hrun
  rw [← hidentity]
  -- Opening a complete journal gives that journal.
  have hwhole : ∀ {t : JournalState} {rs : List PersistedEventRecord}, Settled t →
      Logged x (fun _ _ => True) header rs t.image →
      openExisting x env header.identity t.file = .ok (header, t) t.file := by
    intro t rs ht hlogt
    have hopen := (openExisting_whole hx hlogt).ok_of_reliable hrel
    rw [ht.state_image] at hopen
    exact hopen
  have hsame : ∀ {t r : JournalState} {rs : List PersistedEventRecord}, Settled t →
      Logged x (fun _ _ => True) header rs t.image → file = t.file →
      openExisting x env header.identity file = .ok (header, r) r.file → r = t := by
    intro t r rs ht hlogt hfile hopen
    rw [hfile, hwhole ht hlogt] at hopen
    cases hopen
    rfl
  rcases hlast.logged hs hlog with heq | ⟨record, happ, hs', hlog'⟩
  · -- An idempotent replay of a share: nothing was to be written.
    subst heq
    have hfile : file = s'.file := (hlower.eq_of_length_le hupper.length_le).symm
    refine ⟨s', ?_, .inl rfl, fun _ => rfl, fun _ => rfl, ?_⟩
    · rw [hfile]
      exact hwhole hs hlog
    · intro r' hstep
      exact next_seq_contiguous hs hlog hstep
  · have hbetween : Between s.image s'.image file := ⟨hlower, hupper⟩
    rcases openExisting_between hx hlog happ trivial hbetween with hopen | hopen
    · have hopen := hopen.ok_of_reliable hrel
      rw [hs.state_image] at hopen
      refine ⟨s, hopen, .inl rfl, ?_, fun _ => rfl, ?_⟩
      · intro hfile
        exact hsame hs' hlog' hfile hopen
      · intro r' hstep
        exact next_seq_contiguous hs hlog hstep
    · have hopen := hopen.ok_of_reliable hrel
      rw [hs'.state_image] at hopen
      refine ⟨s', hopen, .inr rfl, fun _ => rfl, ?_, ?_⟩
      · intro hfile
        exact hsame hs hlog hfile hopen
      · intro r' hstep
        exact next_seq_contiguous hs' hlog' hstep

/-- A share of which 40 bytes were written: the journal reopens as it was
with its job alone. -/
theorem append_crash_atomic_torn_share :
    ∃ r, openExisting sample .wholeFile sampleIdentity
        (sampleWithJob.content ++ (recordText sampleShareRecord ++ [newline]).take 40)
        = .ok (sampleHeader, r) r.file ∧
      (r = sampleWithJob.state ∨ r = sampleWithShare.state) := by
  have hjob : AppendStep sample sampleCreated.state sampleWithJob.state :=
    ⟨{}, _, sample_takes_job.run⟩
  have hshare : AppendStep sample sampleWithJob.state sampleWithShare.state :=
    ⟨{}, _, sample_takes_share.run⟩
  obtain ⟨r, hopen, hr, _⟩ := append_crash_atomic sample_lawful sample_created (.single hjob)
    hshare (List.prefix_append _ _)
    ((List.prefix_append_right_inj _).mpr (List.take_prefix _ _)) OpenEnv.wholeFile_reliable
  exact ⟨r, hopen, hr⟩

end Wolf.PoolJournal
