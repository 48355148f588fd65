import Wolf.PoolJournal.Log

/-! # The pool backend journal: winners along the log

What one record does to the winner of one key, and what therefore
holds of every winner in a logged image.

* `Logged.winner`: a winner stands under its own key, and its revision
  is the number of a record of the log. -/

namespace Wolf.PoolJournal

open PoolBackendJournalError List

variable {x : External} {record : PersistedEventRecord} {s s' : JournalSemanticState}

/-! ## One record -/

/-- The key under which the journal keeps a winner. -/
def JournalWinnerState.key (entry : JournalWinnerState) : WinnerKey :=
  ⟨entry.shareId, entry.winner.chain⟩

variable {key : WinnerKey} {winners : List WinnerDescriptor} {receipt : ShareReceipt}

/-- The insertion loop keeps a key that no winner of the receipt has. -/
theorem withWinners_lookup_other (eventSeq : Nat) (blocks : JournalWinnerBlocks)
    (h : ∀ winner ∈ winners, receipt.winnerKey winner ≠ key) (s : JournalSemanticState) :
    (s.withWinners eventSeq receipt blocks winners).winners.lookup key = s.winners.lookup key := by
  unfold JournalSemanticState.withWinners
  generalize s.winners = map
  induction winners generalizing map with
  | nil => rfl
  | cons winner rest ih =>
    have hrest : ∀ other ∈ rest, receipt.winnerKey other ≠ key := by
      intro other hother
      exact h other (mem_cons_of_mem _ hother)
    rw [foldl_cons, ih hrest, AList.lookup_insert_ne]
    exact (h winner mem_cons_self).symm

/-- A key that is inserted holds one of its winners. -/
theorem withWinners_lookup_mem (eventSeq : Nat) (blocks : JournalWinnerBlocks)
    (h : ∃ winner ∈ winners, receipt.winnerKey winner = key) (s : JournalSemanticState) :
    ∃ winner ∈ winners, receipt.winnerKey winner = key ∧
      (s.withWinners eventSeq receipt blocks winners).winners.lookup key =
        some (pendingWinner eventSeq receipt winner ((blocks.get winner.chain).getD [])) := by
  unfold JournalSemanticState.withWinners
  generalize s.winners = map
  induction winners generalizing map with
  | nil =>
    obtain ⟨winner, hmem, _⟩ := h
    cases hmem
  | cons winner rest ih =>
    by_cases hrest : ∃ other ∈ rest, receipt.winnerKey other = key
    · obtain ⟨other, hother, hkey, hlookup⟩ := ih hrest (map.insert (receipt.winnerKey winner)
        (pendingWinner eventSeq receipt winner ((blocks.get winner.chain).getD [])))
      exact ⟨other, mem_cons_of_mem _ hother, hkey, hlookup⟩
    · -- The first winner is the last one with this key.
      have hkey : receipt.winnerKey winner = key := by
        obtain ⟨other, hmem, hkey⟩ := h
        rcases mem_cons.mp hmem with heq | hmem
        · rw [← heq]
          exact hkey
        · exact absurd ⟨other, hmem, hkey⟩ hrest
      have hkeep := withWinners_lookup_other eventSeq blocks
        (fun other hother heq => hrest ⟨other, hother, heq⟩)
        { winners := map.insert (receipt.winnerKey winner)
            (pendingWinner eventSeq receipt winner ((blocks.get winner.chain).getD [])) }
      refine ⟨winner, mem_cons_self, hkey, hkeep.trans ?_⟩
      rw [hkey, AList.lookup_insert]

/-- What a record does to the winner of a key. -/
inductive WinnerEffect (record : PersistedEventRecord) (s s' : JournalSemanticState)
    (key : WinnerKey) : Prop where
  | kept (h : s'.winners.lookup key = s.winners.lookup key)
  | committed {receipt : ShareReceipt} {jobId : Hex32} {identity : WorkerIdentity}
      {targetLe : TargetLe} {winner : WinnerDescriptor} {blockBytes : Bytes}
      (hevent : record.event = .shareCommitted receipt jobId identity targetLe)
      (hmem : winner ∈ receipt.winners) (hkey : receipt.winnerKey winner = key)
      (hnew : s.winners.lookup key = none)
      (hlookup : s'.winners.lookup key =
        some (pendingWinner record.eventSeq receipt winner blockBytes))
  | changed {eventSeq : Nat} {entry : JournalWinnerState} {change : WinnerTransition}
      (hevent : record.event = .winnerChanged eventSeq key.shareId entry.jobId entry.winner change)
      (hchain : entry.winner.chain = key.chain) (hentry : s.winners.lookup key = some entry)
      (hguard : checkChange record.eventSeq entry.winner entry.lifecycle change = .ok ())
      (hlookup : s'.winners.lookup key =
        some { entry with lifecycle := change.lifecycle, revisionEventSeq := record.eventSeq })

theorem Applies.winnerEffect (h : Applies x record s s') (key : WinnerKey) :
    WinnerEffect record s s' key := by
  cases h with
  | jobActivated _ _ _ | jobInvalidated _ _ _ _ | generationClosed _ _ _ _ => exact .kept rfl
  | @shareCommitted receipt jobId identity targetLe total entry blocks hevent _ _ _ _ _ _ hkeys =>
    by_cases hmem : ∃ winner ∈ receipt.winners, receipt.winnerKey winner = key
    · obtain ⟨winner, hwinner, hkey, hlookup⟩ := withWinners_lookup_mem record.eventSeq blocks hmem
        { s with
          shares := s.shares.insert receipt.shareId ⟨receipt, identity, targetLe, blocks⟩ }
      have hnew : s.winners.lookup key = none := by
        rw [← hkey]
        exact hkeys winner hwinner
      exact .committed hevent hwinner hkey hnew hlookup
    · refine .kept (withWinners_lookup_other record.eventSeq blocks ?_ _)
      intro winner hwinner hkey
      exact hmem ⟨winner, hwinner, hkey⟩
  | @winnerChanged eventSeq shareId jobId winner change entry hevent _ hentry hjob hwinner hguard =>
    subst hjob hwinner
    by_cases hkey : key = ⟨shareId, entry.winner.chain⟩
    · subst hkey
      exact .changed hevent rfl hentry hguard (AList.lookup_insert _)
    · exact .kept (AList.lookup_insert_ne hkey)

/-! ## Every winner of a log -/

/-- A winner under its key, with a revision up to `last`. -/
structure WinnerAt (key : WinnerKey) (last : Nat) (entry : JournalWinnerState) : Prop where
  shareId : entry.shareId = key.shareId
  chain : entry.winner.chain = key.chain
  revision : entry.revisionEventSeq ≤ last

/-- Step lemma. -/
theorem Applies.winnerAt {last : Nat} (h : Applies x record s s') (hseq : last ≤ record.eventSeq)
    (hs : ∀ key entry, s.winners.lookup key = some entry → WinnerAt key last entry)
    (key : WinnerKey) (entry : JournalWinnerState) (hentry : s'.winners.lookup key = some entry) :
    WinnerAt key record.eventSeq entry := by
  cases h.winnerEffect key with
  | kept hkept =>
    rw [hkept] at hentry
    have hat := hs key entry hentry
    exact ⟨hat.shareId, hat.chain, Nat.le_trans hat.revision hseq⟩
  | committed _ _ hkey _ hlookup =>
    rw [hlookup] at hentry
    cases hentry
    subst hkey
    exact ⟨rfl, rfl, Nat.le_refl _⟩
  | changed _ _ hold _ hlookup =>
    rw [hlookup] at hentry
    cases hentry
    have hat := hs key _ hold
    exact ⟨hat.shareId, hat.chain, Nat.le_refl _⟩

/-- Run lemma. -/
theorem Logged.winner {policy : Image → PersistedEventRecord → Prop} {header : JournalHeader}
    {records : List PersistedEventRecord} {img : Image} (h : Logged x policy header records img) :
    ∀ key entry, img.semantic.winners.lookup key = some entry →
      WinnerAt key img.events.length entry := by
  induction h with
  | created h =>
    intro key entry hentry
    rw [h.semantic] at hentry
    cases hentry
  | @append records img img' record hlog _ happ ih =>
    intro key entry hentry
    have hseq := hlog.record_seq happ
    have hlength : img'.events.length = record.eventSeq := by
      rw [happ.events, hseq, length_append, length_singleton]
    rw [hlength]
    refine happ.applies.winnerAt ?_ ih key entry hentry
    rw [hseq]
    exact Nat.le_succ _

end Wolf.PoolJournal
