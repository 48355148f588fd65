import Wolf.PoolJournal.CrashAtomic
import Wolf.PoolJournal.Lifecycle

/-! # The pool backend journal: retained winners

The schedulers address winners by their position in `winner_order`.
What keeps these positions good:

* `Retained`: the order has every key of the winners map once, in the
  order of the committed shares, and every winner is stored as its
  share gave it.
* `Extends`: later states add keys at the end and alter no winner
  beyond its lifecycle.
* `winners_retained`: both hold over every life of a journal. -/

namespace Wolf.PoolJournal

open PoolBackendJournalError Exec List

variable (x : External)

/-! ## The order of the winners -/

/-- The keys that an event adds to the order. -/
def BackendEvent.winnerKeys : BackendEvent → List WinnerKey
  | .shareCommitted receipt _ _ _ => receipt.winners.map receipt.winnerKey
  | _ => []

/-- The winners of the committed shares, in the order of the events and of
each receipt. -/
def committedWinners (events : List BackendEvent) : List WinnerKey :=
  events.flatMap BackendEvent.winnerKeys

/-- Two states of one winner: only the lifecycle and the revision may
differ. -/
structure SameWinner (before after : JournalWinnerState) : Prop where
  shareId : after.shareId = before.shareId
  jobId : after.jobId = before.jobId
  winner : after.winner = before.winner
  parentHashLe : after.parentHashLe = before.parentHashLe
  blockBytes : after.blockBytes = before.blockBytes

/-- The winner under `key` is one that a stored share committed. -/
def StoredWinner (s : JournalSemanticState) (key : WinnerKey) (entry : JournalWinnerState) : Prop :=
  ∃ share winner, s.shares.lookup key.shareId = some share ∧ winner ∈ share.receipt.winners ∧
    share.receipt.winnerKey winner = key ∧
    SameWinner (pendingWinner share.receipt.eventSeq share.receipt winner
      ((share.blocks.get winner.chain).getD [])) entry

/-- The order, the map and the shares of a journal agree with its events. -/
structure Retained (s : JournalSemanticState) (events : List BackendEvent) : Prop where
  nodup : s.winnerOrder.Nodup
  keys : ∀ key, key ∈ s.winnerOrder ↔ ∃ entry, s.winners.lookup key = some entry
  order : s.winnerOrder = committedWinners events
  stored : ∀ key entry, s.winners.lookup key = some entry → StoredWinner s key entry

/-- `s'` has the winners of `s` at their positions, and maybe more. -/
structure Extends (s s' : JournalSemanticState) : Prop where
  order : s.winnerOrder <+: s'.winnerOrder
  winners : ∀ key before, s.winners.lookup key = some before →
    ∃ after, s'.winners.lookup key = some after ∧ SameWinner before after

/-- `validate_for_job` accepts at most one winner of each chain. -/
def DistinctChains : Prop :=
  ∀ receipt job, x.validateForJob receipt job = .ok () →
    (receipt.winners.map WinnerDescriptor.chain).Nodup

section

variable {x} {record : PersistedEventRecord} {s s' s'' : JournalSemanticState}
  {events : List BackendEvent} {before after entry : JournalWinnerState} {receipt : ShareReceipt}

@[simp] theorem SameWinner.refl (entry : JournalWinnerState) : SameWinner entry entry :=
  ⟨rfl, rfl, rfl, rfl, rfl⟩

theorem SameWinner.trans (h : SameWinner before entry) (h' : SameWinner entry after) :
    SameWinner before after :=
  ⟨h'.shareId.trans h.shareId, h'.jobId.trans h.jobId, h'.winner.trans h.winner,
    h'.parentHashLe.trans h.parentHashLe, h'.blockBytes.trans h.blockBytes⟩

theorem Extends.refl (s : JournalSemanticState) : Extends s s :=
  ⟨prefix_refl _, fun _ before h => ⟨before, h, .refl before⟩⟩

theorem Extends.trans (h : Extends s s') (h' : Extends s' s'') : Extends s s'' := by
  refine ⟨h.order.trans h'.order, ?_⟩
  intro key before hbefore
  obtain ⟨entry, hentry, hsame⟩ := h.winners key before hbefore
  obtain ⟨after, hafter, hsame'⟩ := h'.winners key entry hentry
  exact ⟨after, hafter, hsame.trans hsame'⟩

theorem committedWinners_append (event : BackendEvent) :
    committedWinners (events ++ [event]) = committedWinners events ++ event.winnerKeys := by
  simp [committedWinners]

/-! ## One record -/

/-- A record of another kind leaves the order and the shares alone. -/
theorem Retained.of_other (hr : Retained s events) (horder : s'.winnerOrder = s.winnerOrder)
    (hshares : s'.shares = s.shares) (hkeys : record.event.winnerKeys = [])
    (hwinners : ∀ key, (∃ entry, s'.winners.lookup key = some entry) ↔
      ∃ entry, s.winners.lookup key = some entry)
    (hstored : ∀ key after, s'.winners.lookup key = some after →
      ∃ before, s.winners.lookup key = some before ∧ SameWinner before after) :
    Retained s' (events ++ [record.event]) where
  nodup := by
    rw [horder]
    exact hr.nodup
  keys key := by
    rw [horder, hwinners]
    exact hr.keys key
  order := by
    rw [horder, committedWinners_append, hkeys, append_nil]
    exact hr.order
  stored key after hafter := by
    obtain ⟨before, hbefore, hsame⟩ := hstored key after hafter
    obtain ⟨share, winner, hshare, hmem, hkey, hpending⟩ := hr.stored key before hbefore
    refine ⟨share, winner, ?_, hmem, hkey, hpending.trans hsame⟩
    rw [hshares]
    exact hshare

/-- A committed share adds its keys at the end. -/
theorem Retained.withShare {eventSeq : Nat} {jobId : Hex32} {identity : WorkerIdentity}
    {targetLe : TargetLe} {blocks : JournalWinnerBlocks} (hr : Retained s events)
    (hnew : s.shares.lookup receipt.shareId = none)
    (hkeys : ∀ winner ∈ receipt.winners, s.winners.lookup (receipt.winnerKey winner) = none)
    (hdistinct : (receipt.winners.map receipt.winnerKey).Nodup)
    (hevent : record.event = .shareCommitted receipt jobId identity targetLe) :
    Retained (s.withShare eventSeq receipt identity targetLe blocks)
      (events ++ [record.event]) := by
  have horder : (s.withShare eventSeq receipt identity targetLe blocks).winnerOrder
      = s.winnerOrder ++ receipt.winners.map receipt.winnerKey := rfl
  have hshares : (s.withShare eventSeq receipt identity targetLe blocks).shares
      = s.shares.insert receipt.shareId ⟨receipt, identity, targetLe, blocks⟩ := rfl
  -- A key that the receipt does not add is found as before.
  have hother : ∀ key, (∀ winner ∈ receipt.winners, receipt.winnerKey winner ≠ key) →
      (s.withShare eventSeq receipt identity targetLe blocks).winners.lookup key
        = s.winners.lookup key :=
    fun key hmem => withWinners_lookup_other eventSeq blocks hmem _
  have hsplit : ∀ key, (∃ winner ∈ receipt.winners, receipt.winnerKey winner = key) ∨
      ∀ winner ∈ receipt.winners, receipt.winnerKey winner ≠ key := by
    intro key
    by_cases h : ∃ winner ∈ receipt.winners, receipt.winnerKey winner = key
    · exact .inl h
    · exact .inr fun winner hmem heq => h ⟨winner, hmem, heq⟩
  constructor
  · refine nodup_append.mpr ⟨hr.nodup, hdistinct, ?_⟩
    intro key hold other hother heq
    subst heq
    obtain ⟨entry, hentry⟩ := (hr.keys key).mp hold
    obtain ⟨winner, hmem, hkey⟩ := mem_map.mp hother
    rw [← hkey, hkeys winner hmem] at hentry
    cases hentry
  · intro key
    rw [horder, mem_append, mem_map]
    rcases hsplit key with hmem | hmem
    · obtain ⟨winner, _, _, hlookup⟩ := withWinners_lookup_mem eventSeq blocks hmem
        { s with shares := s.shares.insert receipt.shareId ⟨receipt, identity, targetLe, blocks⟩ }
      exact ⟨fun _ => ⟨_, hlookup⟩, fun _ => .inr hmem⟩
    · rw [hother key hmem, ← hr.keys key]
      constructor
      · rintro (hold | ⟨winner, hwinner, hkey⟩)
        · exact hold
        · exact absurd hkey (hmem winner hwinner)
      · exact .inl
  · rw [horder, committedWinners_append, hevent, hr.order]
    rfl
  · intro key entry hentry
    rcases hsplit key with hmem | hmem
    · obtain ⟨winner, hwinner, hkey, hlookup⟩ := withWinners_lookup_mem eventSeq blocks hmem
        { s with shares := s.shares.insert receipt.shareId ⟨receipt, identity, targetLe, blocks⟩ }
      have heq := Option.some.inj (hlookup.symm.trans hentry)
      refine ⟨⟨receipt, identity, targetLe, blocks⟩, winner, ?_, hwinner, hkey, ?_⟩
      · rw [hshares, ← hkey]
        exact AList.lookup_insert _
      · rw [← heq]
        exact ⟨rfl, rfl, rfl, rfl, rfl⟩
    · rw [hother key hmem] at hentry
      obtain ⟨share, winner, hshare, hstored⟩ := hr.stored key entry hentry
      refine ⟨share, winner, ?_, hstored⟩
      exact lookup_insert_of_new hnew hshare

/-- Step lemma for the agreement of the indexes. -/
theorem Applies.retained (hx : DistinctChains x) (h : Applies x record s s')
    (hr : Retained s events) : Retained s' (events ++ [record.event]) := by
  have hsame : ∀ key after, s.winners.lookup key = some after →
      ∃ before, s.winners.lookup key = some before ∧ SameWinner before after :=
    fun _ after h => ⟨after, h, .refl after⟩
  cases h with
  | jobActivated hevent _ _ | jobInvalidated hevent _ _ _ | generationClosed hevent _ _ _ =>
    exact hr.of_other rfl rfl (by rw [hevent]; rfl) (fun _ => Iff.rfl) hsame
  | shareCommitted hevent _ _ _ hvalid hnew _ hkeys =>
    refine hr.withShare hnew hkeys ?_ hevent
    -- The keys of one receipt differ, as its chains do.
    have hchains := hx _ _ hvalid
    rw [List.Nodup, pairwise_map] at hchains ⊢
    refine hchains.imp ?_
    intro winner other hne heq
    exact hne (congrArg WinnerKey.chain heq)
  | @winnerChanged eventSeq shareId jobId winner change entry hevent _ hentry _ _ _ =>
    refine hr.of_other rfl rfl (by rw [hevent]; rfl) ?_ ?_
    · intro key
      by_cases hkey : key = ⟨shareId, winner.chain⟩
      · subst hkey
        exact ⟨fun _ => ⟨entry, hentry⟩, fun _ => ⟨_, AList.lookup_insert _⟩⟩
      · rw [show (s.withChange record.eventSeq ⟨shareId, winner.chain⟩ entry change).winners.lookup
          key = s.winners.lookup key from AList.lookup_insert_ne hkey]
    · intro key after hafter
      by_cases hkey : key = ⟨shareId, winner.chain⟩
      · subst hkey
        have heq := Option.some.inj ((AList.lookup_insert _).symm.trans hafter)
        rw [← heq]
        exact ⟨entry, hentry, rfl, rfl, rfl, rfl, rfl⟩
      · rw [show (s.withChange record.eventSeq ⟨shareId, winner.chain⟩ entry change).winners.lookup
          key = s.winners.lookup key from AList.lookup_insert_ne hkey] at hafter
        exact ⟨after, hafter, .refl after⟩

/-- Step lemma for the positions and the winners. -/
theorem Applies.extends (h : Applies x record s s') : Extends s s' := by
  constructor
  · cases h with
    | shareCommitted _ _ _ _ _ _ _ _ => exact prefix_append _ _
    | _ => exact prefix_refl _
  · intro key before hbefore
    cases h.winnerEffect key with
    | kept hkept =>
      rw [hkept]
      exact ⟨before, hbefore, .refl before⟩
    | committed _ _ _ hnew _ =>
      rw [hnew] at hbefore
      cases hbefore
    | changed _ _ hentry _ hlookup =>
      rw [hentry] at hbefore
      cases hbefore
      exact ⟨_, hlookup, rfl, rfl, rfl, rfl, rfl⟩

/-! ## Whole runs -/

/-- Run lemma over the log. -/
theorem Logged.retained {policy : Image → PersistedEventRecord → Prop} {header : JournalHeader}
    {records : List PersistedEventRecord} {img : Image} (hx : DistinctChains x)
    (h : Logged x policy header records img) : Retained img.semantic img.events := by
  induction h with
  | created h =>
    rw [h.semantic, h.events]
    refine ⟨nodup_nil, ?_, rfl, ?_⟩
    · intro key
      constructor
      · intro hmem
        cases hmem
      · rintro ⟨entry, hentry⟩
        cases hentry
    · intro key entry hentry
      cases hentry
  | append _ _ happ ih =>
    rw [happ.events]
    exact happ.applies.retained hx ih

variable {header : JournalHeader} {allowed : Image → AppendCall → Prop}
  {r : Run (journalMachine x header allowed)}
  (t : Tracking r (ledgerMachine x header allowed) (Tracks x header))

/-- The image of the ledger only extends. -/
theorem image_extends {i k : Nat} (hik : i ≤ k) :
    Extends (t.run.state i).image.semantic (t.run.state k).image.semantic := by
  induction hik with
  | refl => exact .refl _
  | @step k _ ih =>
    rcases image_step t k with heq | ⟨_, call, record, hgrows⟩
    · rw [heq]
      exact ih
    · exact ih.trans hgrows.appends.applies.extends

/-- The call of an earlier step failed, and would have written `record`. -/
def FailedToWrite (r : Run (journalMachine x header allowed)) (n : Nat)
    (record : PersistedEventRecord) : Prop :=
  ∃ m s call e, m < n ∧ r.state m = .running s ∧ r.label m = .call call (.error e) ∧
    Records x s.image record call

/-- What an open journal shows: the image of its ledger, or the record of a
failed call more. -/
theorem running_semantic {n : Nat} {s : JournalState} (hrun : r.state n = .running s) :
    (s.poisoned = false ∧ s.image = (t.run.state n).image) ∨
      (s.poisoned = true ∧ s.events = (t.run.state n).image.events ∧
        ∃ record, FailedToWrite r n record ∧
          Applies x record (t.run.state n).image.semantic s.semantic) := by
  have hrel := t.related n
  rw [hrun] at hrel
  rcases hrel.running with ⟨hserves, himage, _⟩ | ⟨record, img', hpoisoned, hpending, hsem, hevents⟩
  · exact .inl ⟨hserves.usable, himage.symm⟩
  · obtain ⟨call, hgrows, m, s₀, e, hlt, hstate, hlabel, himage⟩ :=
      pending_grows t n record img' hpending
    refine .inr ⟨hpoisoned, hevents, record, ⟨m, s₀, call, e, hlt, hstate, hlabel, ?_⟩, ?_⟩
    · rw [himage]
      exact hgrows.records
    · rw [hsem]
      exact hgrows.appends.applies

end

/-! ## A share that is lost and committed again

The share of the sample table is written without a sync, lost when the
process stops, and submitted again after the restart. Two reconcilers
read its winner. One swaps it to observed; the maturity of the winner is
then written without a sync. From there on the other one calls. -/

def sampleLossState : Nat → Process
  | 0 => .running sampleCreated.state
  | 1 => .running sampleWithJob.state
  | 2 => .running (sampleWithJob.state.unsynced sampleWithShare)
  | 3 => .stopped sampleWithJob.content
  | 4 => .running sampleWithJob.state
  | 5 => .running sampleWithShare.state
  | 6 => .running sampleWithObserved.state
  | _ => .running (sampleWithObserved.state.unsynced sampleWithMatured)

def sampleLossAction : Nat → Action
  | 0 => .call (.event (.jobActivated 0 sampleJob)) (.ok ())
  | 1 => .call (.share sampleShare) (.error (io "fsync" "full"))
  | 2 => .stop
  | 3 => .reopen (.ok ())
  | 4 => .call (.share sampleShare) (.ok ())
  | 5 => .call (.winner sampleShare.shareId .zcash 2 sampleObserved) (.ok ())
  | 6 => .call (.winner sampleShare.shareId .zcash 3 sampleMatured) (.error (io "fsync" "full"))
  | _ => .call (.winner sampleShare.shareId .zcash 2 sampleObserved) (.error poisoned)

theorem sample_loss_steps (n : Nat) :
    ProcessStep sample sampleIdentity (fun _ _ => True) (sampleLossState n) (sampleLossAction n)
      (sampleLossState (n + 1)) := by
  match n with
  | 0 => exact .returned trivial sample_takes_job.run
  | 1 => exact .failed trivial (sample_takes_share.run_unsynced "full")
  | 2 =>
    -- Nothing of the unsynced line survives.
    have hwhole : sampleWithShare.content.take sampleWithJob.content.length
        <+: sampleWithJob.content := by
      rw [show sampleWithShare.content = sampleWithJob.content ++ _ from rfl, take_left]
    exact .stopped hwhole (prefix_append _ _)
  | 3 =>
    have hlogged : Logged sample (fun _ _ => True) sampleHeader _ sampleWithJob :=
      .append (.created (createNew_ok sample sample_created).1) trivial sample_takes_job.appends
    exact .opened ((openExisting_whole sample_lawful hlogged).ok_of_reliable
      OpenEnv.wholeFile_reliable)
  | 4 => exact .returned trivial sample_takes_share.run
  | 5 => exact .returned trivial sample_takes_observed.run
  | 6 => exact .failed trivial (sample_takes_matured.run_unsynced "full")
  | n + 7 =>
    have hstale : (AppendCall.winner sampleShare.shareId .zcash 2 sampleObserved).run sample {}
        (sampleWithObserved.state.unsynced sampleWithMatured)
        = .error poisoned (sampleWithObserved.state.unsynced sampleWithMatured) := rfl
    exact .failed trivial hstale

def sampleLossRun : Run (journalMachine sample sampleHeader fun _ _ => True) where
  state := sampleLossState
  label := sampleLossAction
  starts := ⟨_, _, sample_created, rfl⟩
  steps := sample_loss_steps

theorem sample_distinctChains : DistinctChains sample := by
  intro receipt job hvalid
  exact (of_rejectIf hvalid).2.1

/-! ## The result -/

/-- No winner is lost, moved or altered along a run. -/
structure WinnersRetained {x : External} {header : JournalHeader}
    {allowed : Image → AppendCall → Prop} (r : Run (journalMachine x header allowed)) : Prop where
  /-- A usable journal is in agreement with its events. -/
  usable : ∀ n s, r.state n = .running s → s.poisoned = false → Retained s.semantic s.events
  /-- A poisoned one is, counting the event that a failed call did not
  write. -/
  poisoned : ∀ n s, r.state n = .running s → s.poisoned = true →
    ∃ record, FailedToWrite r n record ∧ Retained s.semantic (s.events ++ [record.event])
  /-- What a usable journal has, every later one has. -/
  kept : ∀ i k s s', i ≤ k → (r.state i).Serves s → r.state k = .running s' →
    Extends s.semantic s'.semantic

/-- Winners are retained over every life of a journal, whatever is
appended and however often it is reopened. -/
theorem winners_retained {x : External} (hx : LawfulJson x) (hchains : DistinctChains x)
    (header : JournalHeader) (r : Run (journalMachine x header fun _ _ => True)) :
    WinnersRetained r := by
  obtain ⟨t⟩ := (journal_simulation hx).exists_tracking r
  have hlogged : ∀ n, Retained (t.run.state n).image.semantic (t.run.state n).image.events :=
    fun n => (t.related n).logged.retained hchains
  constructor
  · intro n s hrun husable
    rcases running_semantic t hrun with ⟨_, himage⟩ | ⟨hpoisoned, _⟩
    · have hr := hlogged n
      rw [← himage] at hr
      exact hr
    · rw [husable] at hpoisoned
      cases hpoisoned
  · intro n s hrun hpoisoned
    rcases running_semantic t hrun with ⟨husable, _⟩ | ⟨_, hevents, record, hfailed, happlies⟩
    · rw [hpoisoned] at husable
      cases husable
    · rw [hevents]
      exact ⟨record, hfailed, happlies.retained hchains (hlogged n)⟩
  · intro i k s s' hik hserves hrun
    have hstart : (t.run.state i).image.semantic = s.semantic :=
      congrArg Image.semantic ((t.related i).serves hserves).1
    have hext := image_extends t hik
    rw [hstart] at hext
    rcases running_semantic t hrun with ⟨_, himage⟩ | ⟨_, _, record, _, happlies⟩
    · rw [← himage] at hext
      exact hext
    · exact hext.trans happlies.extends

/-- The second commit of the sample share: the order is its two winners, and
the observed winner is a committed one. -/
theorem winners_retained_loss_run :
    Retained sampleWithObserved.semantic sampleWithObserved.events ∧
      Extends sampleWithShare.semantic sampleWithObserved.semantic := by
  have hrun := winners_retained sample_lawful sample_distinctChains sampleHeader sampleLossRun
  exact ⟨hrun.usable 6 _ rfl rfl, hrun.kept 5 6 _ _ (by omega) ⟨rfl, rfl⟩ rfl⟩

/-- After the failed sync the order has winners that no event has, and
after the restart it is shorter. -/
theorem poisoned_order_not_retained :
    ∃ s s', sampleLossRun.state 2 = .running s ∧ sampleLossRun.state 4 = .running s' ∧
      s.semantic.winnerOrder = [⟨sampleShare.shareId, .wcash⟩, sampleKey] ∧ committedWinners s.events = [] ∧
      s'.semantic.winnerOrder = [] :=
  ⟨_, _, rfl, rfl, rfl, rfl, rfl⟩

end Wolf.PoolJournal
