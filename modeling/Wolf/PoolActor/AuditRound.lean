import Wolf.PoolActor.Scans

/-! # The audit round is fair

The audit scheduler keeps three cursors with different rules for
starting over. On a journal that does not change, its steps form
rounds: all winners to submit, all winners that are not mature, and
then one mature winner or none.

* `audit_round_is_fair`: any number of rounds, and how long a mature
  winner waits. -/

namespace Wolf.PoolActor

open PoolJournal PoolBackendJournalError Exec PoolBackendWinnerAuditScheduler List

/-! ## Tiers and rounds -/

/-- What is audited: the winners of a chain in a journal, up to an ordinal. -/
structure Audit where
  stream : CanonicalUuid
  journal : JournalState
  chain : MergedChain
  before : Nat

/-- The winners that one cursor goes through. -/
def tier (a : Audit) (wanted : JournalWinnerState → Bool) : List PoolBackendWinnerSnapshot :=
  (winnersBelow a.journal (some a.chain) wanted a.before).map (winnerSnapshot a.stream)

/-- The winners that require a submission. -/
def submissionTier (a : Audit) : List PoolBackendWinnerSnapshot :=
  tier a fun winner => winner.lifecycle.requiresSubmission

/-- The winners that are not mature. -/
def unsettledTier (a : Audit) : List PoolBackendWinnerSnapshot :=
  tier a fun winner => !winner.lifecycle.isMatured

/-- The mature winners. -/
def maturedTier (a : Audit) : List PoolBackendWinnerSnapshot :=
  tier a fun winner => winner.lifecycle.isMatured

/-- What the steps of a round return, when `last` is its mature winner. -/
def auditRound (a : Audit) (last : Option PoolBackendWinnerSnapshot) : List PoolBackendWinnerWork :=
  (submissionTier a).map (fun snapshot => ⟨some snapshot, false, winnerSubmissionRetryInterval⟩) ++
  (unsettledTier a).map (fun snapshot => ⟨some snapshot, false, winnerHistoricalStepInterval⟩) ++
  [⟨last, true, fromSecs 1⟩]

/-- A number of calls of `next`, with what they return. -/
def auditSteps (a : Audit) : Nat → AuditM (List PoolBackendWinnerWork)
  | 0 => pure []
  | n + 1 => do
    let work ← next a.stream a.journal a.before
    let works ← auditSteps a n
    pure (work :: works)

variable {a : Audit} {p : Nat} {wanted : JournalWinnerState → Bool}
  {snapshot : PoolBackendWinnerSnapshot} {works : List PoolBackendWinnerWork}

theorem auditSteps_succ {n : Nat} {self self₁ self₂ : PoolBackendWinnerAuditScheduler}
    {work : PoolBackendWinnerWork} (hnext : next a.stream a.journal a.before self = .ok work self₁)
    (hrest : auditSteps a n self₁ = .ok works self₂) :
    auditSteps a (n + 1) self = .ok (work :: works) self₂ := by
  unfold auditSteps
  rw [bind_of_ok hnext, bind_of_ok hrest]
  rfl

theorem auditSteps_append {m n : Nat} {self self₁ self₂ : PoolBackendWinnerAuditScheduler}
    {first second : List PoolBackendWinnerWork}
    (hfirst : auditSteps a m self = .ok first self₁)
    (hsecond : auditSteps a n self₁ = .ok second self₂) :
    auditSteps a (m + n) self = .ok (first ++ second) self₂ := by
  induction m generalizing self first with
  | zero =>
    cases hfirst
    rw [Nat.zero_add]
    exact hsecond
  | succ m ih =>
    obtain ⟨work, self', hnext, hfirst⟩ := bind_ok.mp hfirst
    obtain ⟨works, self'', hworks, hfirst⟩ := bind_ok.mp hfirst
    cases hfirst
    rw [show m + 1 + n = m + n + 1 by omega]
    exact auditSteps_succ hnext (ih hworks)

/-! ## Cursors of a tier -/

/-- The key that a cursor remembers after `p` winners of a tier. -/
def cursorKey (l : List PoolBackendWinnerSnapshot) (p : Nat) : Option PoolBackendWinnerKey :=
  (Cursor.seen l p).map PoolBackendWinnerSnapshot.key

theorem seen_map {α β : Type} (f : α → β) (l : List α) :
    Cursor.seen (l.map f) p = (Cursor.seen l p).map f := by
  cases p with
  | zero => rfl
  | succ p => exact List.getElem?_map

theorem seen_mem {α : Type} {l : List α} {a : α} (h : Cursor.seen l p = some a) : a ∈ l := by
  cases p with
  | zero => cases h
  | succ p => exact mem_of_getElem? h

theorem cursorKey_succ {l : List PoolBackendWinnerSnapshot} (hp : p < l.length) :
    cursorKey l (p + 1) = some l[p].key := by
  show (l[p]?).map _ = _
  rw [List.getElem?_eq_getElem hp]
  rfl

section

variable (hs : Scannable a.journal)

include hs

/-- A cursor of a tier returns its winners one by one. -/
theorem nextWinnerSnapshot_tier (hp : p ≤ (tier a wanted).length) :
    nextWinnerSnapshotBeforeWith a.stream a.journal (cursorKey (tier a wanted) p) a.before
        (fun after before journal => nextWinnerMatching wanted after before (some a.chain) journal)
      = .ok (tier a wanted)[p]? := by
  have hl := winnersBelow_ascending a.journal (some a.chain) wanted a.before
  unfold tier at hp ⊢
  generalize hlist : winnersBelow a.journal (some a.chain) wanted a.before = l at hl hp ⊢
  rw [length_map] at hp
  have hkey : cursorKey (l.map (winnerSnapshot a.stream)) p
      = (Cursor.seen l p).map fun winner => (winnerSnapshot a.stream winner).key := by
    unfold cursorKey
    rw [seen_map, Option.map_map]
    rfl
  have hstream : ¬ ((cursorKey (l.map (winnerSnapshot a.stream)) p).any fun key =>
      key.journalStream ≠ a.stream) = true := by
    rw [hkey]
    cases Cursor.seen l p with
    | none => exact Bool.false_ne_true
    | some winner => simp [winnerSnapshot, PoolBackendWinnerSnapshot.key]
  have hordinal : (cursorKey (l.map (winnerSnapshot a.stream)) p).map
      PoolBackendWinnerKey.winnerOrdinal = (Cursor.seen l p).map Prod.fst := by
    rw [hkey, Option.map_map]
    rfl
  have hafter : ∀ ordinal ∈ (Cursor.seen l p).map Prod.fst, ordinal ≤ maxRetainedWinners := by
    intro ordinal hmem
    obtain ⟨winner, hseen, rfl⟩ := Option.map_eq_some_iff.mp hmem
    have hwinner := seen_mem hseen
    rw [← hlist] at hwinner
    obtain ⟨key, hkey, _⟩ := mem_winnersBelow.mp hwinner
    obtain ⟨hlt, _⟩ := List.getElem?_eq_some_iff.mp hkey
    exact Nat.le_trans (Nat.le_of_lt hlt) hs.count
  have hresume : ((Cursor.seen l p).map Prod.fst).elim 0 (· + 1)
      = Cursor.resume Prod.fst (Cursor.seen l p) := by
    cases Cursor.seen l p <;> rfl
  unfold nextWinnerSnapshotBeforeWith
  rw [rejectIf_bind hstream, hordinal]
  dsimp only
  rw [nextWinnerMatching_eq hs hafter a.before, hresume, hlist, Cursor.find_resume hl hp]
  show Except.ok ((l[p]?).map (winnerSnapshot a.stream)) = _
  rw [List.getElem?_map]

theorem nextSubmission_tier (hp : p ≤ (submissionTier a).length) :
    nextSubmissionRequiredWinnerSnapshotBefore a.stream a.journal
        (cursorKey (submissionTier a) p) a.before (some a.chain)
      = .ok (submissionTier a)[p]? :=
  nextWinnerSnapshot_tier hs hp

theorem nextByMaturity_tier (required : Bool)
    (hwanted : ∀ winner, wanted winner = decide (required = winner.lifecycle.isMatured))
    (hp : p ≤ (tier a wanted).length) :
    nextWinnerSnapshotBeforeWith a.stream a.journal (cursorKey (tier a wanted) p) a.before
        (fun after before journal =>
          nextWinnerStateByMaturityBefore after (some required) before (some a.chain) journal)
      = .ok (tier a wanted)[p]? := by
  obtain rfl := funext hwanted
  exact nextWinnerSnapshot_tier hs hp

theorem nextUnsettled_tier (hp : p ≤ (unsettledTier a).length) :
    nextUnsettledWinnerSnapshotBefore a.stream a.journal
        (cursorKey (unsettledTier a) p) a.before (some a.chain)
      = .ok (unsettledTier a)[p]? :=
  nextByMaturity_tier hs false (fun winner => by cases winner.lifecycle.isMatured <;> rfl) hp

end

/-! ## The steps of a round -/

/-- The scheduler whose cursors have seen so many winners of their tiers. -/
def auditAt (a : Audit)
    (submitted : Nat) (complete : Bool) (unsettled matured : Nat) :
    PoolBackendWinnerAuditScheduler where
  chain := some a.chain
  journalStream := some a.stream
  submissionAfter := cursorKey (submissionTier a) submitted
  submissionPassComplete := complete
  unsettledAfter := cursorKey (unsettledTier a) unsettled
  maturedAfter := cursorKey (maturedTier a) matured

section

variable {submitted unsettled matured : Nat} {complete : Bool}

theorem bindStream_auditAt :
    bindStream a.stream (auditAt a submitted complete unsettled matured)
      = .ok () (auditAt a submitted complete unsettled matured) :=
  bindStream_ok fun _ hbound => (Option.some.inj hbound).symm

section

variable (hs : Scannable a.journal)

include hs

/-- A step of the submission tier. -/
theorem next_submission (hp : submitted < (submissionTier a).length) :
    next a.stream a.journal a.before (auditAt a submitted false unsettled matured)
      = .ok ⟨some (submissionTier a)[submitted], false, winnerSubmissionRetryInterval⟩
          (auditAt a (submitted + 1) false unsettled matured) := by
  have hpass : submissionPass a.stream a.journal a.before
      (auditAt a submitted false unsettled matured) = _ :=
    submissionPass_ok rfl (nextSubmission_tier hs (Nat.le_of_lt hp))
  rw [List.getElem?_eq_getElem hp, Option.map_some, Option.map_some, ← cursorKey_succ hp] at hpass
  unfold PoolBackendWinnerAuditScheduler.next
  rw [bind_of_ok bindStream_auditAt, bind_of_ok hpass]
  rfl

/-- The submission tier from a position on. -/
theorem auditSteps_submission {k : Nat} (hk : submitted + k = (submissionTier a).length) :
    auditSteps a k (auditAt a submitted false 0 matured)
      = .ok (((submissionTier a).drop submitted).map
          fun snapshot => ⟨some snapshot, false, winnerSubmissionRetryInterval⟩)
          (auditAt a (submissionTier a).length false 0 matured) := by
  induction k generalizing submitted with
  | zero =>
    rw [← hk, Nat.add_zero, drop_of_length_le (by omega)]
    rfl
  | succ k ih =>
    have hp : submitted < (submissionTier a).length := by omega
    rw [drop_eq_getElem_cons hp, map_cons]
    exact auditSteps_succ (next_submission hs hp) (ih (by omega))

section

-- The submission tier gives no work: it has ended, or it ends now.
variable (hover : complete = true ∧ submitted = 0 ∨
  complete = false ∧ submitted = (submissionTier a).length)

include hover

theorem submissionPass_over :
    submissionPass a.stream a.journal a.before (auditAt a submitted complete unsettled matured)
      = .ok none (auditAt a 0 true unsettled matured) := by
  rcases hover with ⟨rfl, rfl⟩ | ⟨rfl, rfl⟩
  · rfl
  · refine Eq.trans (submissionPass_ok rfl (nextSubmission_tier hs (Nat.le_refl _))) ?_
    rw [List.getElem?_eq_none (Nat.le_refl _)]
    rfl

/-- A step of the lifecycle tier. -/
theorem next_unsettled (hp : unsettled < (unsettledTier a).length) :
    next a.stream a.journal a.before (auditAt a submitted complete unsettled matured)
      = .ok ⟨some (unsettledTier a)[unsettled], false, winnerHistoricalStepInterval⟩
          (auditAt a 0 true (unsettled + 1) matured) := by
  have hpass : unsettledPass a.stream a.journal a.before (auditAt a 0 true unsettled matured) = _ :=
    unsettledPass_ok (nextUnsettled_tier hs (Nat.le_of_lt hp))
  rw [List.getElem?_eq_getElem hp, Option.map_some, Option.map_some, ← cursorKey_succ hp] at hpass
  unfold PoolBackendWinnerAuditScheduler.next
  rw [bind_of_ok bindStream_auditAt, bind_of_ok (submissionPass_over hs hover)]
  dsimp only
  rw [bind_of_ok hpass]
  rfl

/-- The step that ends a round. -/
theorem next_matured (hp : matured ≤ (maturedTier a).length) :
    next a.stream a.journal a.before (auditAt a submitted complete (unsettledTier a).length matured)
      = .ok ⟨(maturedTier a)[matured]?, true, fromSecs 1⟩
          (auditAt a 0 false 0 (Cursor.cyclePos (maturedTier a).length matured)) := by
  have hpass : unsettledPass a.stream a.journal a.before
      (auditAt a 0 true (unsettledTier a).length matured) = _ :=
    unsettledPass_ok (nextUnsettled_tier hs (Nat.le_refl _))
  rw [List.getElem?_eq_none (Nat.le_refl _)] at hpass
  -- The cursor after the last mature winner starts over.
  have hcursor : ((maturedTier a)[matured]?).map PoolBackendWinnerSnapshot.key
      = cursorKey (maturedTier a) (Cursor.cyclePos (maturedTier a).length matured) := by
    unfold Cursor.cyclePos
    split
    · rfl
    · rw [List.getElem?_eq_none (by omega)]
      rfl
  unfold PoolBackendWinnerAuditScheduler.next
  rw [bind_of_ok bindStream_auditAt, bind_of_ok (submissionPass_over hs hover)]
  dsimp only
  rw [bind_of_ok hpass]
  refine Eq.trans (maturedPass_ok (nextByMaturity_tier hs true
    (fun winner => by cases winner.lifecycle.isMatured <;> rfl) hp)) ?_
  unfold maturedTier at hcursor
  rw [hcursor]
  rfl

/-- The lifecycle tier from a position on, and the end of the round. -/
theorem auditSteps_unsettled (hp : matured ≤ (maturedTier a).length) {k : Nat}
    (hk : unsettled + k = (unsettledTier a).length) :
    auditSteps a (k + 1) (auditAt a submitted complete unsettled matured)
      = .ok (((unsettledTier a).drop unsettled).map
          (fun snapshot => ⟨some snapshot, false, winnerHistoricalStepInterval⟩) ++
          [⟨(maturedTier a)[matured]?, true, fromSecs 1⟩])
          (auditAt a 0 false 0 (Cursor.cyclePos (maturedTier a).length matured)) := by
  induction k generalizing submitted complete unsettled with
  | zero =>
    rw [Nat.add_zero] at hk
    rw [drop_of_length_le (by omega), hk]
    exact auditSteps_succ (next_matured hs hover hp) rfl
  | succ k ih =>
    have hlt : unsettled < (unsettledTier a).length := by omega
    rw [drop_eq_getElem_cons hlt, map_cons, cons_append]
    exact auditSteps_succ (next_unsettled hs hover hlt) (ih (.inl ⟨rfl, rfl⟩) (by omega))

end

end

end

/-! ## Rounds -/

/-- The mature winners of the first `k` rounds. -/
def maturedChoices (a : Audit) (k : Nat) : List (Option PoolBackendWinnerSnapshot) :=
  (List.range k).map fun round =>
    (maturedTier a)[round % ((maturedTier a).length + 1)]?

/-- Any number of rounds from the start. -/
theorem auditSteps_rounds (hs : Scannable a.journal) (k : Nat) :
    auditSteps a ((maturedChoices a k).flatMap (auditRound a)).length (auditAt a 0 false 0 0)
      = .ok ((maturedChoices a k).flatMap (auditRound a))
          (auditAt a 0 false 0 (k % ((maturedTier a).length + 1))) := by
  induction k with
  | zero => rfl
  | succ k ih =>
    have hlt := Nat.mod_lt k (Nat.succ_pos (maturedTier a).length)
    -- One round, from its start to the start of the next.
    have hround := auditSteps_append (@auditSteps_submission a 0 _ hs _ (Nat.zero_add _))
      (auditSteps_unsettled hs (.inr ⟨rfl, rfl⟩) (Nat.le_of_lt_succ hlt) (Nat.zero_add _))
    rw [Cursor.cyclePos_mod] at hround
    have hchoices : maturedChoices a (k + 1) =
        maturedChoices a k ++ [(maturedTier a)[k % ((maturedTier a).length + 1)]?] := by
      unfold maturedChoices
      rw [range_succ, map_append]
      rfl
    rw [hchoices, flatMap_append, flatMap_singleton, length_append]
    refine auditSteps_append ih ?_
    unfold auditRound
    rw [length_append, length_append, length_map, length_map, append_assoc, Nat.add_assoc]
    exact hround

theorem auditSteps_fresh {k : Nat} {self : PoolBackendWinnerAuditScheduler}
    (h : auditSteps a k (auditAt a 0 false 0 0) = .ok works self) :
    ∃ self', auditSteps a k (forChain a.chain) = .ok works self' := by
  cases k with
  | zero =>
    cases h
    exact ⟨_, rfl⟩
  | succ k =>
    unfold auditSteps at h ⊢
    obtain ⟨work, self', hnext, h⟩ := bind_ok.mp h
    -- A scheduler that is not bound yet takes the same steps.
    have hfresh : bindStream a.stream (forChain a.chain) = .ok () (auditAt a 0 false 0 0) := rfl
    have hsame : next a.stream a.journal a.before (forChain a.chain) = .ok work self' := by
      rw [← hnext]
      unfold PoolBackendWinnerAuditScheduler.next
      rw [bind_of_ok hfresh, bind_of_ok bindStream_auditAt]
    rw [bind_of_ok hsame]
    exact ⟨self, h⟩

/-! ## The result -/

/-- On a journal that does not change, the steps of a fresh scheduler form
rounds that treat every winner of the chain below the bound fairly. -/
structure FairAudit (a : Audit) : Prop where
  /-- A tier has the winners that belong to it. -/
  exact : ∀ wanted snapshot, snapshot ∈ tier a wanted ↔
    snapshot.journalStream = a.stream ∧ snapshot.winnerOrdinal < a.before ∧
    a.journal.semantic.winnerOrder[snapshot.winnerOrdinal]? = some snapshot.state.key ∧
    a.journal.semantic.winners.lookup snapshot.state.key = some snapshot.state ∧
    snapshot.state.winner.chain = a.chain ∧ wanted snapshot.state = true
  /-- It has them in the order of their ordinals. -/
  ordered : ∀ wanted, (tier a wanted).Pairwise fun a b => a.winnerOrdinal < b.winnerOrdinal
  /-- It has each of them once. -/
  once : ∀ wanted, ((tier a wanted).map fun snapshot => snapshot.state.key).Nodup
  /-- The steps form rounds, each of which may end with a mature winner. -/
  rounds : ∀ k, ∃ choices : List (Option PoolBackendWinnerSnapshot), choices.length = k ∧
    (∃ self, auditSteps a (choices.flatMap (auditRound a)).length (forChain a.chain)
      = .ok (choices.flatMap (auditRound a)) self) ∧
    (∀ snapshot, some snapshot ∈ choices → snapshot ∈ maturedTier a) ∧
    ∀ i, i + ((maturedTier a).length + 1) ≤ k → ∀ snapshot ∈ maturedTier a,
      some snapshot ∈ (choices.drop i).take ((maturedTier a).length + 1)

theorem mem_tier (hs : Scannable a.journal) : snapshot ∈ tier a wanted ↔
      snapshot.journalStream = a.stream ∧ snapshot.winnerOrdinal < a.before ∧
      a.journal.semantic.winnerOrder[snapshot.winnerOrdinal]? = some snapshot.state.key ∧
      a.journal.semantic.winners.lookup snapshot.state.key = some snapshot.state ∧
      snapshot.state.winner.chain = a.chain ∧ wanted snapshot.state = true := by
  unfold tier
  rw [mem_map]
  constructor
  · rintro ⟨winner, hmem, rfl⟩
    obtain ⟨key, hkey, hlt, hchain, hentry, hwanted⟩ := mem_winnersBelow.mp hmem
    have hown := hs.key key _ hentry
    have hchain : key.chain = a.chain := by
      have hnot := of_decide_eq_false hchain
      exact Classical.not_not.mp hnot
    subst hown
    exact ⟨rfl, hlt, hkey, hentry, hchain, hwanted⟩
  · rintro ⟨hstream, hlt, hkey, hentry, hchain, hwanted⟩
    have hother : otherChain (some a.chain) snapshot.state.key = false :=
      decide_eq_false (not_not_intro hchain)
    refine ⟨(snapshot.winnerOrdinal, snapshot.state), ?_, ?_⟩
    · exact mem_winnersBelow.mpr ⟨_, hkey, hlt, hother, hentry, hwanted⟩
    · unfold winnerSnapshot
      rw [← hstream]

theorem tier_ordered (wanted : JournalWinnerState → Bool) :
    (tier a wanted).Pairwise fun a b => a.winnerOrdinal < b.winnerOrdinal := by
  unfold tier
  rw [pairwise_map]
  exact winnersBelow_ascending a.journal (some a.chain) wanted a.before

theorem fairAudit (hs : Scannable a.journal) : FairAudit a where
  exact _ _ := mem_tier hs
  ordered := tier_ordered
  once wanted := by
    rw [List.Nodup, pairwise_map]
    refine ((tier_ordered wanted).imp_of_mem ?_)
    intro a b ha hb hlt hkey
    obtain ⟨_, _, hposition, _⟩ := (mem_tier hs).mp ha
    obtain ⟨_, _, hposition', _⟩ := (mem_tier hs).mp hb
    rw [← hkey] at hposition'
    obtain ⟨hi, ha⟩ := List.getElem?_eq_some_iff.mp hposition
    obtain ⟨hj, hb⟩ := List.getElem?_eq_some_iff.mp hposition'
    have hsame := (List.Nodup.getElem_inj_iff hs.nodup).mp (ha.trans hb.symm)
    omega
  rounds k := by
    refine ⟨maturedChoices a k, ?_, auditSteps_fresh (auditSteps_rounds hs k), ?_, ?_⟩
    · unfold maturedChoices
      rw [length_map, length_range]
    · intro snapshot hmem
      obtain ⟨round, _, hround⟩ := mem_map.mp hmem
      exact mem_of_getElem? hround
    · intro i hi snapshot hmem
      obtain ⟨p, hp, hsnapshot⟩ := mem_iff_getElem.mp hmem
      obtain ⟨round, hlow, hhigh, hround⟩ :=
        Cursor.exists_visit (maturedTier a).length i (Nat.le_of_lt hp)
      refine mem_iff_getElem?.mpr ⟨round - i, ?_⟩
      rw [List.getElem?_take, if_pos (by omega), List.getElem?_drop,
        show i + (round - i) = round by omega]
      unfold maturedChoices
      rw [List.getElem?_map, List.getElem?_range (by omega), Option.map_some, hround,
        List.getElem?_eq_getElem hp, hsnapshot]

/-- A poisoned journal gives no work. -/
theorem next_poisoned (hpoisoned : a.journal.poisoned = true)
    (self : PoolBackendWinnerAuditScheduler) :
    ∃ e self', next a.stream a.journal a.before self = .error e self' := by
  have hread : ∀ (after : Option PoolBackendWinnerKey) (wanted : JournalWinnerState → Bool)
      (chain : Option MergedChain), ∃ e,
      nextWinnerSnapshotBeforeWith a.stream a.journal after a.before
        (fun after before journal => nextWinnerMatching wanted after before chain journal)
          = .error e := by
    intro after wanted chain
    unfold nextWinnerSnapshotBeforeWith
    by_cases hstream : (after.any fun key => key.journalStream ≠ a.stream) = true
    · rw [rejectIf_of_pos hstream]
      exact ⟨_, rfl⟩
    · rw [rejectIf_bind hstream]
      unfold nextWinnerMatching
      dsimp only
      rw [ensureUsable_poisoned hpoisoned]
      exact ⟨_, rfl⟩
  unfold PoolBackendWinnerAuditScheduler.next
  cases hbind : bindStream a.stream self with
  | error e self' => exact ⟨e, self', bind_of_err hbind⟩
  | ok u self₁ =>
    rw [bind_of_ok hbind]
    by_cases hcomplete : self₁.submissionPassComplete = true
    · rw [bind_of_ok (submissionPass_complete hcomplete)]
      obtain ⟨e, he⟩ := hread self₁.unsettledAfter _ self₁.chain
      exact ⟨e, self₁, bind_of_err (unsettledPass_error he)⟩
    · obtain ⟨e, he⟩ := hread self₁.submissionAfter _ self₁.chain
      exact ⟨e, self₁, bind_of_err (submissionPass_error (Bool.eq_false_iff.mpr hcomplete) he)⟩

/-- The audit round is fair. For every open journal in any life of the
journal, every chain and every bound: a poisoned journal gives no work
at all, and on a usable one that does not change the steps of a fresh
scheduler form rounds, each with all winners to submit, all winners
that are not mature and at most one mature winner, such that every
mature winner appears in any as many rounds as there are mature
winners, and one. -/
theorem audit_round_is_fair {x : External} (hx : LawfulJson x) (hchains : DistinctChains x)
    {header : JournalHeader} {allowed : Image → AppendCall → Prop}
    (r : Run (journalMachine x header allowed)) (n : Nat) (s : JournalState)
    (hrun : r.state n = .running s) (stream : CanonicalUuid) (chain : MergedChain)
    (before : Nat) :
    (s.poisoned = true → ∀ self, ∃ e self', next stream s before self = .error e self') ∧
    (s.poisoned = false → FairAudit ⟨stream, s, chain, before⟩) := by
  refine ⟨fun hpoisoned self => next_poisoned (a := ⟨stream, s, chain, before⟩) hpoisoned self,
    fun husable => ?_⟩
  obtain ⟨t⟩ := (journal_simulation hx).exists_tracking r
  have himage : (t.run.state n).image = s.image :=
    ((t.related n).serves ⟨hrun, husable⟩).1
  have hlog := (t.related n).logged
  rw [himage] at hlog
  exact fairAudit (Logged.scannable hchains hlog husable)

/-- The journal of the sample run after its last event. Its Wcash winner is
to be submitted and its Zcash winner is mature, and the audit of either
chain is fair. -/
theorem audit_round_is_fair_sample :
    submissionTier ⟨sampleUuid 2, sampleWithMatured.state, .wcash, 2⟩
      = [⟨sampleUuid 2, 0, pendingWinner 2 sampleReceipt sampleWcashWinner sampleWcashBlock⟩] ∧
    maturedTier ⟨sampleUuid 2, sampleWithMatured.state, .zcash, 2⟩
      = [⟨sampleUuid 2, 1, sampleMature⟩] ∧
    ∀ chain, FairAudit ⟨sampleUuid 2, sampleWithMatured.state, chain, 2⟩ :=
  ⟨by decide +kernel, by decide +kernel, fun chain => (audit_round_is_fair sample_lawful
    sample_distinctChains sampleRun 4 _ rfl (sampleUuid 2) chain 2).2 rfl⟩

end Wolf.PoolActor
