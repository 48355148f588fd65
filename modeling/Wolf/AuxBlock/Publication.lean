import Wolf.AuxBlock.CacheRuns

/-! # Publication of reserved candidates

A `create_aux_block` call inserts its candidate, looks at the tip again,
and publishes or discards the lease that it holds. A
`submit_aux_block` call begins a submission and, if its block turns out
to be committed, removes the id from the cache.

* `CallsInvariant`: until it expires, the entry that a call reserved is
  in the cache as the call left it.
* `publish_finds_reservation`: no publication panics as long as no
  submission removes a reserved id and no token is drawn twice.
* `submission_removes_reservation`: a submission does remove one. -/

namespace Wolf.AuxBlock

open Finmap List

variable {Block : Type}

/-! ## Calls that share a cache -/

/-- The cache and the calls that are under way. -/
structure CallsState (Block : Type) where
  inner : CacheInner Block := {}
  /-- The time of the last step. -/
  clock : Nat := 0
  /-- The leases of `create_aux_block` calls after `insert`, each with the
  time that `insert` read. -/
  creating : List (CandidateLease × Nat) := []
  /-- The ids of `submit_aux_block` calls after `begin_submission`. -/
  submitting : List Hash := []

/-- The calls that are under way after an operation. Whether a lease is
published or discarded depends on the tip, which is arbitrary here: it is
read apart from the cache and from the committed blocks. -/
inductive CallsMove (ttl : Nat) (s : CallsState Block) (now time : Nat) :
    CacheOperation Block → CacheOutcome Block → List (CandidateLease × Nat) → List Hash →
    Prop where
  | insert {candidate : Block} {lease : CandidateLease} :
      CallsMove ttl s now time (.insert candidate) (.inserted (.ok lease))
        ((lease, now) :: s.creating) s.submitting
  | refused {candidate : Block} {error : CandidateInsertError} :
      CallsMove ttl s now time (.insert candidate) (.inserted (.error error)) s.creating
        s.submitting
  | finish {held : CandidateLease × Nat} {op : CacheOperation Block} {outcome : CacheOutcome Block}
      (hheld : held ∈ s.creating)
      (hop : op = .publish held.1 ∧ age time held.2 < ttl ∨ op = .discardUnpublished held.1) :
      CallsMove ttl s now time op outcome (s.creating.erase held) s.submitting
  | begin {id : Hash} {outcome : CacheOutcome Block} :
      CallsMove ttl s now time (.beginSubmission id) outcome s.creating (id :: s.submitting)
  | remove {id : Hash} {outcome : CacheOutcome Block} (hid : id ∈ s.submitting) :
      CallsMove ttl s now time (.remove id) outcome s.creating (s.submitting.erase id)
  | retire {id : Hash} {token : Token} {outcome : CacheOutcome Block} :
      CallsMove ttl s now time (.retire id token) outcome s.creating s.submitting

/-- A step of one of the calls. A call reads the time before it takes the
lock. -/
structure CallsStep (cache : AuxBlockCandidateCache Block) (s : CallsState Block) (call : Call)
    (op : CacheOperation Block) (outcome : CacheOutcome Block) (s' : CallsState Block) : Prop where
  apply : cache.apply call s.inner op = some (outcome, s'.inner)
  clock : s.clock ≤ s'.clock
  read : call.now ≤ s'.clock
  move : CallsMove cache.ttl s call.now s'.clock op outcome s'.creating s'.submitting

/-- The states that the calls lead to in any order of steps that obey a
rule. -/
inductive CallsReach (cache : AuxBlockCandidateCache Block)
    (rule : CallsState Block → CacheOperation Block → CacheOutcome Block → Prop) :
    CallsState Block → Prop where
  | start : CallsReach cache rule {}
  | step {s s' : CallsState Block} {call : Call} {op : CacheOperation Block}
      {outcome : CacheOutcome Block} (hreach : CallsReach cache rule s)
      (hrule : rule s op outcome) (hstep : CallsStep cache s call op outcome s') :
      CallsReach cache rule s'

/-- No submission removes an id that a call has reserved and not published,
and no random token is one that a call under way drew before. -/
def Undisturbed (s : CallsState Block) : CacheOperation Block → CacheOutcome Block → Prop
  | .remove id, _ => ∀ held ∈ s.creating, held.1.needsPublication = true → held.1.id ≠ id
  | .insert _, .inserted (.ok lease) =>
    ∀ held ∈ s.creating, held.1.retireToken ≠ lease.retireToken
  | _, _ => True

/-! ## Reservations -/

section Reservations

variable {cache : AuxBlockCandidateCache Block} {call : Call} {inner inner' : CacheInner Block}
  {history : List (CacheOperation Block × CacheOutcome Block)} {s s' : CallsState Block}
  {op : CacheOperation Block} {outcome : CacheOutcome Block} {held : CandidateLease × Nat}
  {id : Hash} {e : CacheEntry Block} {lease : CandidateLease}

/-- The entry that the insertion of a call made. -/
def Reserved (inner : CacheInner Block) (held : CandidateLease × Nat) : Prop :=
  ∃ candidate, inner.entries.lookup held.1.id =
    some ⟨candidate, held.2, [held.1.retireToken], .publishing⟩

theorem Reserved.publish (h : Reserved inner held) : (inner.publish held.1).1 = .ok () := by
  obtain ⟨candidate, hlookup⟩ := h
  unfold CacheInner.publish
  by_cases hneeds : held.1.needsPublication = false
  · rw [if_pos hneeds]
  · simp [hneeds, hlookup, tokenIndex]

/-- A publication of another id leaves an entry as it is. -/
theorem publish_frame (hid : id ≠ lease.id) :
    (inner.publish lease).2.entries.lookup id = inner.entries.lookup id := by
  unfold CacheInner.publish
  repeat' split
  all_goals first | rfl | exact lookup_insert_of_ne _ hid

theorem discardUnpublished_frame (hid : id ≠ lease.id) :
    (inner.discardUnpublished lease).entries.lookup id = inner.entries.lookup id := by
  unfold CacheInner.discardUnpublished
  repeat' split
  all_goals first
    | rfl
    | exact lookup_insert_of_ne _ hid
    | exact lookup_erase_ne hid

theorem retirePurged_frame {id' : Hash} {token : Token} (hid : id ≠ id') :
    (AuxBlockCandidateCache.retirePurged call inner id' token).2.entries.lookup id =
      inner.entries.lookup id := by
  unfold AuxBlockCandidateCache.retirePurged CacheInner.retireEntry
  repeat' split
  all_goals try rfl
  all_goals
    rw [rememberRetiredToken_entries]
    first | exact lookup_insert_of_ne _ hid | exact lookup_erase_ne hid

/-- An entry that is being published changes only by its removal and by its
own token. -/
theorem publishing_kept (h : CacheInvariant cache history inner)
    (happly : cache.apply call inner op = some (outcome, inner'))
    (hlookup : inner.entries.lookup id = some e) (hstate : e.state = .publishing)
    (hage : age call.now e.createdAt < cache.ttl) (hremove : op ≠ .remove id)
    (htoken : ∀ lease, op = .publish lease ∨ op = .discardUnpublished lease →
      lease.id = id → lease.retireToken ∉ e.activeRetireTokens) :
    inner'.entries.lookup id = some e := by
  have hpurged := h.lookup_purged hlookup hage
  cases op with
  | insert candidate =>
    obtain ⟨⟨result, next⟩, hinsert, hresult⟩ := Option.map_eq_some_iff.mp happly
    cases hresult
    rcases insertPurged_cases hinsert with ⟨_, rfl, rfl⟩ | ⟨existing, _, hold, hne, _, _, rfl, rfl⟩
      | ⟨_, hnone, _, _, rfl, rfl⟩
    · exact hpurged
    all_goals
      -- The id that was free or published is not this one.
      have hid : id ≠ cache.hash candidate := by
        rintro rfl
        simp_all
      exact (lookup_insert_of_ne _ hid).trans hpurged
  | publish lease =>
    cases happly
    by_cases hid : lease.id = id
    · subst hid
      have hnone : (tokenIndex e.activeRetireTokens lease.retireToken).isNone = true := by
        have hmem := htoken lease (.inl rfl) rfl
        simp only [tokenIndex, Option.isNone_iff_eq_none, findIdx?_eq_none_iff]
        intro t ht
        simpa using fun heq : t = lease.retireToken => hmem (heq ▸ ht)
      simp only [CacheInner.publish, hlookup]
      split <;> exact hlookup
    · exact (publish_frame (Ne.symm hid)).trans hlookup
  | discardUnpublished lease =>
    cases happly
    by_cases hid : lease.id = id
    · subst hid
      simp only [CacheInner.discardUnpublished, hlookup,
        removeToken_eq_none.mpr (htoken lease (.inr rfl) rfl)]
    · exact (discardUnpublished_frame (Ne.symm hid)).trans hlookup
  | beginSubmission id' =>
    cases happly
    unfold AuxBlockCandidateCache.beginSubmission
    by_cases hid : id = id'
    · subst hid
      simp [hlookup, Nat.not_le.mpr hage, hstate]
    · split
      · exact hlookup
      · split
        · exact (congrArg _ (h.expireEntry id' call.now).2).trans
            ((lookup_erase_ne hid).trans hlookup)
        · split
          · exact hlookup
          · exact (lookup_insert_of_ne _ hid).trans hlookup
  | retire id' token =>
    cases happly
    show (AuxBlockCandidateCache.retirePurged call _ id' token).2.entries.lookup id = _
    by_cases hid : id = id'
    · subst hid
      unfold AuxBlockCandidateCache.retirePurged CacheInner.retireEntry
      simp only [hpurged, hstate]
      repeat' split
      all_goals exact hpurged
    · exact (retirePurged_frame hid).trans hpurged
  | remove id' =>
    cases happly
    refine (lookup_erase_ne ?_).trans hlookup
    rintro rfl
    exact hremove rfl

/-! ## Every interleaving -/

structure CallsInvariant (cache : AuxBlockCandidateCache Block) (s : CallsState Block) : Prop where
  inner : ∃ history, CacheInvariant cache history s.inner
  reserved : ∀ held ∈ s.creating, held.1.needsPublication = true →
    age s.clock held.2 < cache.ttl → Reserved s.inner held
  tokens : (s.creating.map fun held => held.1.retireToken).Nodup

/-- Step lemma. -/
theorem CallsInvariant.step (h : CallsInvariant cache s) (hrule : Undisturbed s op outcome)
    (hstep : CallsStep cache s call op outcome s') : CallsInvariant cache s' := by
  obtain ⟨history, hinner⟩ := h.inner
  -- A reservation is kept unless the step is its removal or uses its token.
  have hkept : ∀ held ∈ s.creating, held.1.needsPublication = true →
      age s'.clock held.2 < cache.ttl → op ≠ .remove held.1.id →
      (∀ lease, op = .publish lease ∨ op = .discardUnpublished lease →
        lease.retireToken ≠ held.1.retireToken) → Reserved s'.inner held := by
    intro held hheld hneeds htime hremove htoken
    have hage : ∀ time ≤ s'.clock, age time held.2 < cache.ttl := fun time hle =>
      Nat.lt_of_le_of_lt (Nat.sub_le_sub_right hle _) htime
    obtain ⟨candidate, hlookup⟩ := h.reserved held hheld hneeds (hage _ hstep.clock)
    refine ⟨candidate,
      publishing_kept hinner hstep.apply hlookup rfl (hage _ hstep.read) hremove ?_⟩
    intro lease hop _
    simpa using htoken lease hop
  have hinner' : ∃ history, CacheInvariant cache history s'.inner :=
    ⟨_, hinner.apply hstep.apply⟩
  have hmove := hstep.move
  have happly := hstep.apply
  obtain ⟨inner', clock', creating', submitting'⟩ := s'
  cases hmove with
  | @insert candidate lease =>
    refine ⟨hinner', ?_, ?_⟩
    · intro held hheld hneeds htime
      rcases mem_cons.mp hheld with rfl | hheld
      · obtain ⟨⟨result, next⟩, hinsert, hresult⟩ := Option.map_eq_some_iff.mp happly
        cases hresult
        rcases insertPurged_cases hinsert with ⟨_, hresult, _⟩ | ⟨_, _, _, _, _, _, hresult, _⟩ |
          ⟨token, _, _, _, hresult, rfl⟩
        · cases hresult
        · cases hresult
          cases hneeds
        · cases hresult
          exact ⟨candidate, lookup_insert _⟩
      · exact hkept held hheld hneeds htime nofun (by simp)
    · rw [map_cons, nodup_cons]
      refine ⟨?_, h.tokens⟩
      intro hmem
      obtain ⟨held, hheld, heq⟩ := mem_map.mp hmem
      exact hrule held hheld heq
  | finish hheld hop =>
    refine ⟨hinner', ?_, h.tokens.sublist (erase_sublist.map _)⟩
    intro held' hheld' hneeds htime
    -- The others do not have the token of the lease that is given up.
    obtain ⟨hother, hmem⟩ := (h.tokens.of_map _).mem_erase_iff.mp hheld'
    have htoken : _ ≠ held'.1.retireToken := fun heq =>
      hother (inj_on_of_nodup_map h.tokens hmem hheld heq.symm)
    rcases hop with ⟨rfl, _⟩ | rfl
    all_goals
      refine hkept held' hmem hneeds htime nofun ?_
      rintro lease (hlease | hlease) <;> cases hlease
      exact htoken
  | remove _ =>
    refine ⟨hinner', ?_, h.tokens⟩
    intro held hheld hneeds htime
    refine hkept held hheld hneeds htime ?_ (by simp)
    rintro ⟨⟩
    exact hrule held hheld hneeds rfl
  | refused | begin | retire =>
    exact ⟨hinner', fun held hheld hneeds htime => hkept held hheld hneeds htime nofun (by simp),
      h.tokens⟩

/-- Run lemma. -/
theorem CallsReach.invariant (hreach : CallsReach cache Undisturbed s) :
    CallsInvariant cache s := by
  induction hreach with
  | start => exact ⟨⟨[], .empty⟩, by simp, by simp⟩
  | step _ hrule hstep ih => exact ih.step hrule hstep

/-- In every interleaving of the calls in which no submission removes a
reserved id and no token is drawn twice, a publication less than the time
to live after its insertion returns. -/
theorem publish_finds_reservation {lease : CandidateLease} {result : Except PublishPanic Unit}
    (hreach : CallsReach cache Undisturbed s)
    (hstep : CallsStep cache s call (.publish lease) (.published result) s') : result = .ok () := by
  have hinv := hreach.invariant
  have happly := hstep.apply
  have hmove := hstep.move
  have hclock := hstep.clock
  obtain ⟨_, _, _, _⟩ := s'
  cases happly
  cases hmove with
  | @finish held _ _ hheld hop =>
    rcases hop with ⟨hop, htime⟩ | hop
    · cases hop
      by_cases hneeds : held.1.needsPublication = true
      · exact (hinv.reserved held hheld hneeds
          (Nat.lt_of_le_of_lt (Nat.sub_le_sub_right hclock _) htime)).publish
      · simp [CacheInner.publish, hneeds]
    · cases hop

end Reservations

/-- A call has inserted candidate 1. -/
def sampleCreating : CallsState Hash := { inner := sampleReserved, creating := [(sampleLease, 0)] }

theorem sampleCreating_step :
    CallsStep sampleCache {} (sampleCall 0) (.insert (.fill 32 1)) (.inserted (.ok sampleLease))
      sampleCreating :=
  ⟨rfl, Nat.le_refl _, Nat.le_refl _, .insert⟩

theorem publish_finds_reservation_sample :
    ∃ result s', CallsStep sampleCache sampleCreating (sampleCall 599) (.publish sampleLease)
      (.published result) s' ∧ result = .ok () := by
  have hreach : CallsReach sampleCache Undisturbed sampleCreating :=
    .step .start (by simp [Undisturbed]) sampleCreating_step
  have hstep : CallsStep sampleCache sampleCreating (sampleCall 599) (.publish sampleLease)
      (.published _) { inner := samplePublished, clock := 599 } :=
    ⟨rfl, by decide, Nat.le_refl _, @CallsMove.finish _ _ _ _ _ (sampleLease, 0) _ _
      mem_cons_self (.inl ⟨rfl, by decide⟩)⟩
  exact ⟨_, _, hstep, publish_finds_reservation hreach hstep⟩

/-- A submission of the same id begins while the candidate is being
published, finds the block committed and removes the reservation. The
tip that the creating call reads next may still be the old one, and its
publication panics. -/
theorem submission_removes_reservation :
    ∃ s s' : CallsState Hash, CallsReach sampleCache (fun _ _ _ => True) s ∧
      CallsStep sampleCache s (sampleCall 1) (.publish sampleLease)
        (.published (.error .noReservation)) s' := by
  have hcreating : CallsReach sampleCache (fun _ _ _ => True) sampleCreating :=
    .step .start trivial sampleCreating_step
  have hbegun : CallsStep sampleCache sampleCreating (sampleCall 1) (.beginSubmission (.fill 32 1))
      (.submission (.error .unknown))
      { sampleCreating with clock := 1, submitting := [.fill 32 1] } :=
    ⟨rfl, by decide, Nat.le_refl _, .begin⟩
  have hremoved : CallsStep sampleCache
      { sampleCreating with clock := 1, submitting := [.fill 32 1] } (sampleCall 1)
      (.remove (.fill 32 1)) .removed
      { inner := sampleReserved.remove (.fill 32 1), clock := 1, creating := [(sampleLease, 0)] } :=
    ⟨rfl, Nat.le_refl _, Nat.le_refl _, .remove mem_cons_self⟩
  exact ⟨_, { inner := sampleReserved.remove (.fill 32 1), clock := 1 },
    .step (.step hcreating trivial hbegun) trivial hremoved, rfl, Nat.le_refl _, Nat.le_refl _,
    @CallsMove.finish _ _ _ _ _ (sampleLease, 0) _ _ mem_cons_self (.inl ⟨rfl, by decide⟩)⟩

end Wolf.AuxBlock
