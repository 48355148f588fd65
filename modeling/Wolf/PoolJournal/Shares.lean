import Wolf.PoolJournal.Retention

/-! # The pool backend journal: committed shares

A miner that got no answer submits its share again, to the same process
or to one that was started after a crash.

* `shares_committed_once`: a repeated call gets the first receipt, and a
  changed one is refused.
* `events_survive`: what a usable journal shows is never lost. -/

namespace Wolf.PoolJournal

open PoolBackendJournalError Exec List

/-- The share that an event commits. -/
def BackendEvent.committedShare : BackendEvent → Option Hex32
  | .shareCommitted receipt _ _ _ => some receipt.shareId
  | _ => none

/-- What the journal keeps of a submission. -/
def ShareSubmission.stored (share : ShareSubmission) (eventSeq : Nat) (attributionId : Hex32) :
    JournalShareState where
  receipt := share.receipt eventSeq attributionId
  identity := share.identity
  targetLe := share.targetLe
  blocks := share.winnerBlocks

section

variable {x : External} {header : JournalHeader} {allowed : Image → AppendCall → Prop}
  {r : Run (journalMachine x header allowed)} {id attributionId : Hex32} {eventSeq i k n : Nat}
  {stored : JournalShareState} {share other : ShareSubmission} {s s' : JournalState}
  {env : AppendEnv} {record : PersistedEventRecord} {commit : JournalShareCommit}

/-! ## One record -/

section

variable {s s' : JournalSemanticState} (h : Applies x record s s')

include h

/-- A stored share stays as it is. -/
theorem Applies.keeps_share (hstored : s.shares.lookup id = some stored) :
    s'.shares.lookup id = some stored := by
  cases h with
  | shareCommitted _ _ _ _ _ hnew _ _ => exact lookup_insert_of_new hnew hstored
  | _ => exact hstored

/-- A committed share is new. -/
theorem Applies.new_share (hid : record.event.committedShare = some id) :
    s.shares.lookup id = none ∧ ∃ stored, s'.shares.lookup id = some stored := by
  cases h with
  | shareCommitted hevent _ _ _ _ hnew _ _ =>
    rw [hevent] at hid
    cases hid
    exact ⟨hnew, _, AList.lookup_insert _⟩
  | jobActivated hevent _ _ | jobInvalidated hevent _ _ _ | generationClosed hevent _ _ _
  | winnerChanged hevent _ _ _ _ _ =>
    rw [hevent] at hid
    cases hid

/-- It is stored with the blocks that were encoded. -/
theorem Applies.stores_share {jobId : Hex32}
    (hevent : record.event = .shareCommitted (share.receipt eventSeq attributionId) jobId
      share.identity share.targetLe)
    (hencoded : encodeWinnerBlocks share.winnerBlocks record.eventSeq = .ok record.winnerBlocks) :
    s'.shares.lookup share.shareId = some (share.stored eventSeq attributionId) := by
  cases h with
  | shareCommitted hcommitted _ _ _ _ _ hdecoded _ =>
    rw [hevent] at hcommitted
    cases hcommitted
    rw [decodeAndValidateWinnerBlocks_of_encode x hencoded] at hdecoded
    obtain ⟨_, _, hdecoded⟩ := of_two_binds hdecoded
    cases hdecoded
    exact AList.lookup_insert _
  | jobActivated hother _ _ | jobInvalidated hother _ _ _ | generationClosed hother _ _ _
  | winnerChanged hother _ _ _ _ _ =>
    rw [hevent] at hother
    cases hother

end

/-- Every event commits another share, which is then stored. -/
theorem Logged.shares {policy : Image → PersistedEventRecord → Prop}
    {records : List PersistedEventRecord} {img : Image} (h : Logged x policy header records img) :
    (img.events.filterMap BackendEvent.committedShare).Nodup ∧
      ∀ id ∈ img.events.filterMap BackendEvent.committedShare,
        ∃ stored, img.semantic.shares.lookup id = some stored := by
  induction h with
  | created h =>
    rw [h.events]
    exact ⟨nodup_nil, fun id hid => absurd hid not_mem_nil⟩
  | @append _ img img' record _ _ happ ih =>
    have hkept : ∀ id ∈ img.events.filterMap BackendEvent.committedShare,
        ∃ stored, img'.semantic.shares.lookup id = some stored := by
      intro id hid
      obtain ⟨stored, hstored⟩ := ih.2 id hid
      exact ⟨stored, happ.applies.keeps_share hstored⟩
    rw [happ.events, filterMap_append]
    cases hid : record.event.committedShare with
    | none =>
      rw [filterMap_cons_none hid, filterMap_nil, append_nil]
      exact ⟨ih.1, hkept⟩
    | some id =>
      obtain ⟨hnew, hstored⟩ := happ.applies.new_share hid
      rw [filterMap_cons_some hid, filterMap_nil, nodup_append]
      refine ⟨⟨ih.1, nodup_singleton id, ?_⟩, ?_⟩
      · intro id' hid' _ hlast heq
        obtain ⟨stored, hstored⟩ := ih.2 id' hid'
        rw [heq, mem_singleton.mp hlast, hnew] at hstored
        cases hstored
      · intro id' hid'
        rcases mem_append.mp hid' with hid' | hid'
        · exact hkept id' hid'
        · rw [mem_singleton.mp hid']
          exact hstored

/-! ## One call -/

theorem ShareSubmission.stored_inj {attributionId' : Hex32}
    (h : share.stored eventSeq attributionId = other.stored eventSeq attributionId') :
    other = share := by
  cases share
  cases other
  cases h
  rfl

theorem replayShare_ok (h : replayShare share attributionId stored = .ok commit) :
    stored = share.stored stored.receipt.eventSeq attributionId := by
  unfold replayShare at h
  split at h
  · rename_i hsame
    cases stored
    simp only [ShareSubmission.stored, JournalShareState.mk.injEq]
    exact hsame
  · cases h

/-- A call that returned has stored its share. -/
theorem appendShareCommitted_stored (hs : Settled s)
    (h : appendShareCommitted x env share s = .ok commit s') :
    Settled s' ∧ ∃ eventSeq attributionId,
      x.canonicalAttributionId share.identity share.targetLe = .ok attributionId ∧
      s'.semantic.shares.lookup share.shareId = some (share.stored eventSeq attributionId) := by
  obtain ⟨attributionId, hattribution, h⟩ := check_bind_ok.mp h
  have hattribution := mapErr_eq_ok.mp hattribution
  rw [get_bind_run] at h
  obtain ⟨_, _, h⟩ := check_bind_ok.mp h
  cases hlookup : s.semantic.shares.lookup share.shareId with
  | some existing =>
    rw [hlookup] at h
    dsimp only at h
    cases hreplay : replayShare share attributionId existing with
    | error e =>
      rw [hreplay] at h
      cases h
    | ok replayed =>
      rw [hreplay] at h
      cases h
      refine ⟨hs, existing.receipt.eventSeq, attributionId, hattribution, ?_⟩
      rw [hlookup, ← replayShare_ok hreplay]
  | none =>
    rw [hlookup] at h
    obtain ⟨eventSeq, _, h⟩ := check_bind_ok.mp h
    obtain ⟨encoded, hencoded, h⟩ := check_bind_ok.mp h
    obtain ⟨_, s₁, happend, h⟩ := bind_ok.mp h
    cases h
    obtain ⟨record, hevent, hblocks, happ, hs'⟩ := appendLocked_ok x hs happend
    have hseq : record.eventSeq = eventSeq := by
      rw [← happ.eventSeq, hevent]
      rfl
    refine ⟨hs', eventSeq, attributionId, hattribution, happ.applies.stores_share hevent ?_⟩
    rw [hblocks, hseq]
    exact hencoded

/-- On a journal with the share, a call is a replay or a conflict. -/
theorem appendShareCommitted_of_stored (husable : s.poisoned = false)
    (hattribution : x.canonicalAttributionId share.identity share.targetLe = .ok attributionId)
    (hstored : s.semantic.shares.lookup share.shareId = some (share.stored eventSeq attributionId))
    (hid : other.shareId = share.shareId) (env : AppendEnv) :
    (other = share → appendShareCommitted x env other s
      = .ok ⟨share.receipt eventSeq attributionId, true⟩ s) ∧
    (other ≠ share → ∃ e, appendShareCommitted x env other s = .error e s ∧
      (e = shareConflict other.shareId ∨ ∃ source, e = invalidEvent 0 source)) := by
  have hrun : ∀ {a}, x.canonicalAttributionId other.identity other.targetLe = .ok a →
      appendShareCommitted x env other s =
        check (replayShare other a (share.stored eventSeq attributionId)) s := by
    intro a ha
    unfold appendShareCommitted
    rw [check_bind_of_ok (mapErr_eq_ok.mpr ha), get_bind_run,
      check_bind_of_ok (ensureUsable_ok.mpr husable), hid, hstored]
  constructor
  · intro heq
    subst heq
    rw [hrun hattribution]
    unfold replayShare
    rw [if_pos ⟨rfl, rfl, rfl, rfl⟩]
    rfl
  · intro hne
    cases ha : x.canonicalAttributionId other.identity other.targetLe with
    | error e =>
      unfold appendShareCommitted
      rw [ha]
      exact ⟨_, rfl, .inr ⟨e, rfl⟩⟩
    | ok a =>
      rw [hrun ha]
      cases hreplay : replayShare other a (share.stored eventSeq attributionId) with
      | error e =>
        refine ⟨e, rfl, .inl ?_⟩
        unfold replayShare at hreplay
        split at hreplay
        · cases hreplay
        · exact (Except.error.inj hreplay).symm
      | ok commit => exact absurd (ShareSubmission.stored_inj (replayShare_ok hreplay)) hne

/-! ## Whole runs -/

variable (t : Tracking r (ledgerMachine x header allowed) (Tracks x header))

/-- The ledger is only written at its end, and keeps its shares. -/
theorem image_grows (hik : i ≤ k) :
    (t.run.state i).image.content <+: (t.run.state k).image.content ∧
      (t.run.state i).image.events <+: (t.run.state k).image.events ∧
      ∀ id stored, (t.run.state i).image.semantic.shares.lookup id = some stored →
        (t.run.state k).image.semantic.shares.lookup id = some stored := by
  induction hik with
  | refl => exact ⟨prefix_refl _, prefix_refl _, fun _ _ h => h⟩
  | @step k _ ih =>
    rcases image_step t k with heq | ⟨_, call, record, hgrows⟩
    · rw [heq]
      exact ih
    · have happ := hgrows.appends
      obtain ⟨json, htext⟩ := happ.text
      rw [htext.content, happ.events]
      exact ⟨ih.1.trans (prefix_append _ _), ih.2.1.trans (prefix_append _ _),
        fun id stored h => happ.applies.keeps_share (ih.2.2 id stored h)⟩

include t in
/-- What a call stored is in every later journal that serves. -/
theorem returned_share_kept (hcall : r.label n = .call (.share share) (.ok ())) :
    ∃ eventSeq attributionId,
      x.canonicalAttributionId share.identity share.targetLe = .ok attributionId ∧
      ∀ k s, n < k → (r.state k).Serves s → s.semantic.shares.lookup share.shareId
        = some (share.stored eventSeq attributionId) := by
  have hstep := r.steps n
  rw [hcall] at hstep
  have hrel := t.related n
  have hrel' := t.related (n + 1)
  generalize r.state n = p at hstep hrel
  generalize r.state (n + 1) = p' at hstep hrel'
  generalize t.run.state n = l at hrel
  cases hstep with
  | @returned env _ s s' _ h =>
    cases hrel with
    | halted _ hhalt =>
      -- A poisoned journal returns from no append.
      obtain ⟨e, hrun⟩ := AppendCall.run_poisoned (x := x) hhalt.poisoned (.share share) env
      rw [hrun] at h
      cases h
    | settled hs _ =>
      obtain ⟨commit, s₁, h, hdone⟩ := bind_ok.mp h
      cases hdone
      obtain ⟨hs', eventSeq, attributionId, hattribution, hstored⟩ :=
        appendShareCommitted_stored hs h
      refine ⟨eventSeq, attributionId, hattribution, fun k s hnk hserves => ?_⟩
      have hkept := (image_grows t hnk).2.2 share.shareId (share.stored eventSeq attributionId)
      rw [(hrel'.serves ⟨rfl, hs'.usable⟩).1, ((t.related k).serves hserves).1] at hkept
      exact hkept hstored

end

/-- The shares along a run. -/
structure SharesOnce {x : External} {header : JournalHeader}
    {allowed : Image → AppendCall → Prop} (r : Run (journalMachine x header allowed)) : Prop where
  /-- No share is committed by two events. -/
  once : ∀ n s, (r.state n).Serves s → (s.events.filterMap BackendEvent.committedShare).Nodup
  /-- After a call that returned, the same call gives the same receipt
  whenever it is made, and writes nothing. -/
  again : ∀ n share, r.label n = .call (.share share) (.ok ()) → ∃ receipt, ∀ k s, n < k →
    (r.state k).Serves s → ∀ env, appendShareCommitted x env share s = .ok ⟨receipt, true⟩ s
  /-- A call for the same share that differs in anything is refused, as a
  conflict unless it has no attribution. -/
  conflict : ∀ n share other, r.label n = .call (.share share) (.ok ()) →
    other.shareId = share.shareId → other ≠ share → ∀ k s, n < k → (r.state k).Serves s →
    ∀ env, ∃ e, appendShareCommitted x env other s = .error e s ∧
      (e = shareConflict other.shareId ∨ ∃ source, e = invalidEvent 0 source)

/-- Over every life of a journal a share is committed once. -/
theorem shares_committed_once {x : External} (hx : LawfulJson x) {header : JournalHeader}
    {allowed : Image → AppendCall → Prop} (r : Run (journalMachine x header allowed)) :
    SharesOnce r := by
  obtain ⟨t⟩ := (journal_simulation hx).exists_tracking r
  constructor
  · intro n s hserves
    have hshares := (t.related n).logged.shares.1
    rw [((t.related n).serves hserves).1] at hshares
    exact hshares
  · intro n share hcall
    obtain ⟨eventSeq, attributionId, hattribution, hkept⟩ := returned_share_kept t hcall
    refine ⟨share.receipt eventSeq attributionId, fun k s hnk hserves env => ?_⟩
    exact (appendShareCommitted_of_stored hserves.usable hattribution (hkept k s hnk hserves) rfl
      env).1 rfl
  · intro n share other hcall hid hne k s hnk hserves env
    obtain ⟨eventSeq, attributionId, hattribution, hkept⟩ := returned_share_kept t hcall
    exact (appendShareCommitted_of_stored hserves.usable hattribution (hkept k s hnk hserves) hid
      env).2 hne

/-- The share that was lost and committed again, submitted once more. -/
theorem shares_committed_once_loss_run :
    ∃ receipt, ∀ env, appendShareCommitted sample env sampleShare sampleWithObserved.state
      = .ok ⟨receipt, true⟩ sampleWithObserved.state := by
  obtain ⟨receipt, hagain⟩ := (shares_committed_once sample_lawful sampleLossRun).again 4 _ rfl
  exact ⟨receipt, hagain 6 _ (by omega) ⟨rfl, rfl⟩⟩

/-- What a usable journal shows is in every later one. A stop leaves it in
the file. -/
theorem events_survive {x : External} (hx : LawfulJson x) {header : JournalHeader}
    {allowed : Image → AppendCall → Prop} (r : Run (journalMachine x header allowed)) {i k : Nat}
    (hik : i ≤ k) {s : JournalState} (hserves : (r.state i).Serves s) :
    (∀ s', r.state k = .running s' → s.file <+: s'.file ∧ s.events <+: s'.events) ∧
      ∀ file, r.state k = .stopped file → s.file <+: file := by
  obtain ⟨t⟩ := (journal_simulation hx).exists_tracking r
  obtain ⟨hcontent, hevents, _⟩ := image_grows t hik
  rw [((t.related i).serves hserves).1] at hcontent hevents
  have hrel := t.related k
  generalize t.run.state k = l at hrel hcontent hevents
  constructor
  · intro s' hrun
    rw [hrun] at hrel
    cases hrel with
    | settled _ _ => exact ⟨hcontent, hevents⟩
    | halted _ hhalt =>
      rw [hhalt.events]
      exact ⟨hcontent.trans hhalt.lower, hevents⟩
  · intro file hstopped
    rw [hstopped] at hrel
    cases hrel with
    | closed _ => exact hcontent
    | torn _ _ hfile => exact hcontent.trans hfile.1

/-- What was shown before the failed sync is in the file that the stop
leaves, and in the journal after the restart. -/
theorem events_survive_loss_run :
    ∃ s s' file, (sampleLossRun.state 1).Serves s ∧ sampleLossRun.state 3 = .stopped file ∧
      sampleLossRun.state 5 = .running s' ∧ s.file <+: file ∧ s.file <+: s'.file ∧
      s.events <+: s'.events := by
  have hserves : (sampleLossRun.state 1).Serves sampleWithJob.state := ⟨rfl, rfl⟩
  have hstopped := (events_survive sample_lawful sampleLossRun (show 1 ≤ 3 by omega)
    hserves).2 _ rfl
  have hreopened := (events_survive sample_lawful sampleLossRun (show 1 ≤ 5 by omega)
    hserves).1 _ rfl
  exact ⟨_, _, _, hserves, rfl, rfl, hstopped, hreopened⟩

end Wolf.PoolJournal
