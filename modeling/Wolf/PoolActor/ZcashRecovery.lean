import Wolf.PoolJournal.Types

/-! # The Zcash recovery authority

`zcash_recovery.rs`: refreshes ask the Zcash nodes for their tip and
publish the answer, observers compare the stored tip with a job, and
`close` revokes the authority. Calls run on any number of threads; one
event takes one call past its next access to what they share: the flag,
the attempt counter and the locked sample. Only the holder of the lock
sees the sample, so it reads or writes it and gives the lock back in one
event. It cannot panic: the lock is never poisoned.

* `recovery_evidence_is_revocable`: all schedules. -/

namespace Wolf.PoolActor

open PoolJournal

/-! ## Calls -/

/-- `AUTHORITY_MAX_AGE`, in nanoseconds as all times here. -/
def authorityMaxAge : Nat := 1000000000

structure NativeChainTip where
  blockHashLe : Hex32
  height : Nat

/-- `PoolBackendZcashWorkObservation`. -/
inductive Observation where
  | current
  | stale
  | unknown

structure RecoverySample where
  attempt : Nat
  started : Nat
  completed : Nat
  tip : Option NativeChainTip

structure RecoveryState where
  closed : Bool := false
  nextAttempt : Nat := 0
  sample : Option RecoverySample := none
  /-- Some call has the lock of the sample. -/
  locked : Bool := false

/-- `cached_tip`, after the second load of the flag. -/
def cachedTip (now : Nat) (closed : Bool) (sample : RecoverySample) : Option NativeChainTip :=
  if closed = true ∨ sample.completed < sample.started ∨ now < sample.completed ∨
      (checkedSub now sample.started).all (authorityMaxAge ≤ ·) then none
  else sample.tip

/-- `observe_at`, on what `cached_tip` has found. -/
def observation (job : JobDescriptor) : Option NativeChainTip → Observation
  | none => .unknown
  | some tip =>
    if checkedSub job.zcashHeight 1 = some tip.height ∧ job.zcashPreviousHashLe = tip.blockHashLe
    then .current else .stale

/-- Where a call stands, named by what it does next. -/
inductive Call where
  | refresh
  | fetchAttempt
  | start (attempt : Nat)
  | request (attempt started : Nat)
  | publish (sample : RecoverySample)
  | lock (sample : RecoverySample)
  | recheck (sample : RecoverySample)
  | store (sample : RecoverySample)
  | close
  | observe (job : JobDescriptor)
  | load (job : JobDescriptor) (now : Nat)
  | tryLock (job : JobDescriptor) (now : Nat)
  | judge (job : JobDescriptor) (now : Nat)
  | observed (job : JobDescriptor) (now : Nat) (answer : Observation)
  | returned

/-- One step of a call at time `clock`; `answer` is what the nodes say. -/
def advance (clock : Nat) (answer : Option NativeChainTip) (s : RecoveryState) :
    Call → RecoveryState × Call
  | .refresh => (s, if s.closed then .returned else .fetchAttempt)
  | .fetchAttempt =>
    match checkedAdd 64 s.nextAttempt 1 with
    | some next => ({ s with nextAttempt := next }, .start next)
    | none => (s, .close)
  | .start attempt => (s, .request attempt clock)
  | .request attempt started => (s, .publish ⟨attempt, started, clock, answer⟩)
  | .publish sample => (s, if s.closed then .returned else .lock sample)
  | .lock sample =>
    if s.locked then (s, .lock sample) else ({ s with locked := true }, .recheck sample)
  | .recheck sample =>
    if s.closed then ({ s with locked := false }, .returned) else (s, .store sample)
  | .store sample =>
    (if s.sample.all (·.attempt < sample.attempt) then
      { s with sample := some sample, locked := false } else { s with locked := false }, .returned)
  | .close => ({ s with closed := true }, .returned)
  | .observe job => (s, .load job clock)
  | .load job now => (s, if s.closed then .observed job now .unknown else .tryLock job now)
  | .tryLock job now =>
    if s.locked then (s, .observed job now .unknown)
    else ({ s with locked := true }, .judge job now)
  | .judge job now =>
    ({ s with locked := false },
      .observed job now (observation job (s.sample.bind (cachedTip now s.closed))))
  | call => (s, call)

/-- What a caller may ask for. -/
inductive Request where
  | refresh
  | publish (sample : RecoverySample)
  | close
  | observe (job : JobDescriptor)

def Request.call : Request → Call
  | .refresh => .refresh
  | .publish sample => .publish sample
  | .close => .close
  | .observe job => .observe job

/-- The authority with all calls that will ever be made, one number for
each. -/
structure Authority where
  state : RecoveryState
  clock : Nat
  calls : Nat → Call

/-- No call has taken a step. -/
def Authority.new (clock : Nat) (requests : Nat → Request) : Authority where
  state := {}
  clock := clock
  calls id := (requests id).call

/-- Call `id` is run for one step after some time. -/
structure Turn where
  id : Nat
  elapsed : Nat := 0
  answer : Option NativeChainTip := none

def Authority.advanced (s : Authority) (turn : Turn) : RecoveryState × Call :=
  advance (s.clock + turn.elapsed) turn.answer s.state (s.calls turn.id)

def Authority.step (s : Authority) (turn : Turn) : Authority where
  state := (s.advanced turn).1
  clock := s.clock + turn.elapsed
  calls := Function.update s.calls turn.id (s.advanced turn).2

def Authority.run (s : Authority) (turns : List Turn) : Authority :=
  turns.foldl Authority.step s

/-! ## Steps -/

/-- The attempt of the sample a call has or is about to get. -/
def Call.attempt? : Call → Option Nat
  | .start attempt | .request attempt _ => some attempt
  | .publish sample | .lock sample | .recheck sample | .store sample => some sample.attempt
  | _ => none

/-- The evidence for `Current`. -/
structure Supports (job : JobDescriptor) (now : Nat) (sample : RecoverySample) : Prop where
  started : sample.started ≤ now
  fresh : now < sample.started + authorityMaxAge
  tip : ∃ tip, sample.tip = some tip ∧ tip.blockHashLe = job.zcashPreviousHashLe ∧
    tip.height + 1 = job.zcashHeight

theorem supports_of_current {job : JobDescriptor} {now : Nat} {closed : Bool}
    {sample : Option RecoverySample}
    (h : observation job (sample.bind (cachedTip now closed)) = .current) :
    ∃ found, sample = some found ∧ Supports job now found := by
  cases sample with
  | none => cases h
  | some found =>
    refine ⟨found, rfl, ?_⟩
    simp only [Option.bind_some, cachedTip] at h
    split at h
    · cases h
    · rename_i hvalid
      cases htip : found.tip with
      | none =>
        rw [htip] at h
        cases h
      | some tip =>
        rw [htip] at h
        simp only [observation, checkedSub_eq_some] at h
        split at h
        · rename_i hjob
          simp only [not_or, checkedSub] at hvalid
          -- The age is defined, and below the limit.
          by_cases hage : found.started ≤ now
          · rw [if_pos hage] at hvalid
            simp only [Option.all_some, decide_eq_true_eq] at hvalid
            exact ⟨hage, by omega, tip, htip, hjob.2.symm, by omega⟩
          · simp [hage] at hvalid
        · cases h

/-- What a step does to the shared state. -/
structure Later (s s' : RecoveryState) : Prop where
  closed : s.closed = true → s'.closed = true
  attempts : s.nextAttempt ≤ s'.nextAttempt
  sample : ∀ old, s.sample = some old →
    ∃ new, s'.sample = some new ∧ (new = old ∨ old.attempt < new.attempt)

variable {attempt : Nat}

section

variable {s : RecoveryState} {clock : Nat} {answer : Option NativeChainTip} {call : Call}

theorem Later.refl : Later s s :=
  ⟨fun h => h, Nat.le_refl _, fun old h => ⟨old, h, .inl rfl⟩⟩

theorem Later.trans {s' s'' : RecoveryState} (h : Later s s') (h' : Later s' s'') :
    Later s s'' := by
  refine ⟨h'.closed ∘ h.closed, h.attempts.trans h'.attempts, fun old hold => ?_⟩
  obtain ⟨mid, hmid, hle⟩ := h.sample old hold
  obtain ⟨new, hnew, hle'⟩ := h'.sample mid hmid
  refine ⟨new, hnew, ?_⟩
  rcases hle with rfl | hle
  · exact hle'
  · rcases hle' with rfl | hle'
    · exact .inr hle
    · exact .inr (hle.trans hle')

theorem advance_later : Later s (advance clock answer s call).1 := by
  cases call with
  | fetchAttempt =>
    simp only [advance]
    split
    · rename_i next hnext
      refine ⟨fun h => h, ?_, fun old h => ⟨old, h, .inl rfl⟩⟩
      have := (checkedAdd_eq_some.mp hnext).2
      show s.nextAttempt ≤ next
      omega
    · exact .refl
  | store sample =>
    simp only [advance]
    split
    · rename_i hnewer
      refine ⟨fun h => h, Nat.le_refl _, fun old hold => ⟨sample, rfl, .inr ?_⟩⟩
      simpa [hold] using hnewer
    · exact ⟨fun h => h, Nat.le_refl _, fun old h => ⟨old, h, .inl rfl⟩⟩
  | close => exact ⟨fun _ => rfl, Nat.le_refl _, fun old h => ⟨old, h, .inl rfl⟩⟩
  | _ =>
    -- Nothing else touches more than the lock.
    simp only [advance]
    first | split | skip
    all_goals exact ⟨fun h => h, Nat.le_refl _, fun old h => ⟨old, h, .inl rfl⟩⟩

/-- A new attempt is the next value of the counter. -/
theorem advance_attempt (h : (advance clock answer s call).2.attempt? = some attempt) :
    call.attempt? = some attempt ∨
      attempt = s.nextAttempt + 1 ∧ attempt = (advance clock answer s call).1.nextAttempt := by
  cases call with
  | fetchAttempt =>
    simp only [advance] at h ⊢
    split at h
    · rename_i next hnext
      cases h
      exact .inr ⟨(checkedAdd_eq_some.mp hnext).2.symm, rfl⟩
    · cases h
  | _ =>
    simp only [advance] at h
    first | exact .inl h | (split at h <;> first | exact .inl h | cases h) | cases h

/-- The call has not got past the first load of the flag in `cached_tip`, or
was refused. -/
def Call.Refused : Call → Prop
  | .tryLock _ _ | .judge _ _ => False
  | .observed _ _ answer => answer = .unknown
  | _ => True

theorem Call.Refused.advance (h : call.Refused) (hclosed : s.closed = true) :
    (advance clock answer s call).2.Refused := by
  cases call with
  | fetchAttempt | lock =>
    simp only [PoolActor.advance]
    split <;> trivial
  | _ => simp_all [PoolActor.advance, Call.Refused]

end

/-! ## Schedules -/

section

variable {s : Authority} {turn : Turn} (turns : List Turn) {id : Nat}

/-- Run lemma. -/
theorem run_later : Later s.state (s.run turns).state := by
  induction turns generalizing s with
  | nil => exact .refl
  | cons turn rest ih =>
    have hstep : Later s.state (s.step turn).state := advance_later
    exact hstep.trans ih

/-- A property of one call and the shared state, kept by the steps of the
call and by whatever the others do, holds until the end. -/
theorem run_call {P : RecoveryState → Call → Prop}
    (hown : ∀ clock answer s call, P s call →
      P (advance clock answer s call).1 (advance clock answer s call).2)
    (hother : ∀ s s' call, Later s s' → P s call → P s' call)
    (h : P s.state (s.calls id)) : P (s.run turns).state ((s.run turns).calls id) := by
  induction turns generalizing s with
  | nil => exact h
  | cons turn rest ih =>
    refine ih ?_
    show P (s.advanced turn).1 (Function.update s.calls turn.id (s.advanced turn).2 id)
    by_cases hid : id = turn.id
    · subst hid
      rw [Function.update_self]
      exact hown _ _ _ _ h
    · rw [Function.update_of_ne hid]
      exact hother _ _ _ advance_later h

/-- A refresh has an attempt that the counter has reached. -/
theorem attempt_le (hnone : (s.calls id).attempt? = none)
    (h : ((s.run turns).calls id).attempt? = some attempt) :
    s.state.nextAttempt < attempt ∧ attempt ≤ (s.run turns).state.nextAttempt := by
  refine (run_call turns (P := fun t call => s.state.nextAttempt ≤ t.nextAttempt ∧
    ∀ attempt, call.attempt? = some attempt →
      s.state.nextAttempt < attempt ∧ attempt ≤ t.nextAttempt) ?_ ?_ ⟨Nat.le_refl _, ?_⟩).2
        attempt h
  · rintro clock answer t call ⟨hle, hall⟩
    have hlater : Later t (advance clock answer t call).1 := advance_later
    refine ⟨hle.trans hlater.attempts, fun attempt hattempt => ?_⟩
    rcases advance_attempt hattempt with hold | ⟨hnext, hcounter⟩
    · exact ⟨(hall attempt hold).1, (hall attempt hold).2.trans hlater.attempts⟩
    · omega
  · rintro t t' call hlater ⟨hle, hall⟩
    exact ⟨hle.trans hlater.attempts,
      fun attempt h => ⟨(hall attempt h).1, (hall attempt h).2.trans hlater.attempts⟩⟩
  · simp [hnone]

/-- What holds of the evidence in a state and all that follow it. -/
structure Authority.Sound (requests : Nat → Request) (s : Authority) : Prop where
  /-- A stored sample is replaced only by that of a later attempt. -/
  replaced : ∀ turns old, s.state.sample = some old → ∃ new,
    (s.run turns).state.sample = some new ∧ (new = old ∨ old.attempt < new.attempt)
  /-- A refresh that takes its attempt later gets a later one. -/
  ordered : ∀ turns first second attempt attempt', requests first = .refresh →
    (s.calls first).attempt? = some attempt → (s.calls second).attempt? = none →
    ((s.run turns).calls second).attempt? = some attempt' → attempt < attempt'
  /-- Whoever observes `Current` has evidence for it. -/
  current : ∀ turn job now, s.calls turn.id ≠ .observed job now .current →
    (s.step turn).calls turn.id = .observed job now .current →
    ∃ sample, s.state.sample = some sample ∧ Supports job now sample
  /-- After a `close` every call to `observe` is refused. -/
  revoked : ∀ turn, s.calls turn.id = .close → ∀ turns,
    ((s.step turn).run turns).state.closed = true ∧
      ∀ id job now answer, s.calls id = .observe job →
        ((s.step turn).run turns).calls id = .observed job now answer → answer = .unknown
  /-- A refresh that finds no attempt left closes the authority. -/
  exhausted : ∀ turn, s.calls turn.id = .fetchAttempt → 2 ^ 64 ≤ s.state.nextAttempt + 1 →
    ∀ turns, ((s.step turn).run turns).state.closed = true ∨
      ((s.step turn).run turns).calls turn.id = .close

/-- In every schedule of refreshes, publications, observers and `close`, the
evidence is fresh, monotone and revocable. -/
theorem recovery_evidence_is_revocable (clock : Nat) (requests : Nat → Request)
    (turns : List Turn) : ((Authority.new clock requests).run turns).Sound requests := by
  have hattempts : ∀ id attempt, requests id = .refresh →
      (((Authority.new clock requests).run turns).calls id).attempt? = some attempt →
      attempt ≤ ((Authority.new clock requests).run turns).state.nextAttempt := by
    intro id attempt hrefresh hattempt
    refine (attempt_le turns ?_ hattempt).2
    show (requests id).call.attempt? = none
    rw [hrefresh]
    rfl
  generalize (Authority.new clock requests).run turns = s at hattempts
  constructor
  · exact fun turns old hold => (run_later turns).sample old hold
  · intro turns first second attempt attempt' hrefresh hfirst hsecond hlater
    exact (hattempts first attempt hrefresh hfirst).trans_lt (attempt_le turns hsecond hlater).1
  · intro turn job now hbefore hafter
    simp only [Authority.step, Function.update_self, Authority.advanced] at hafter
    -- Only `judge` ends in an answer that is not `Unknown`.
    generalize s.calls turn.id = call at hbefore hafter
    cases call with
    | judge job' now' =>
      simp only [advance, Call.observed.injEq] at hafter
      obtain ⟨rfl, rfl, hcurrent⟩ := hafter
      exact supports_of_current hcurrent
    | observed => exact absurd hafter hbefore
    | _ =>
      simp only [advance] at hafter
      first | cases hafter | (split at hafter <;> cases hafter)
  · intro turn hclose turns
    have hclosed : (s.step turn).state.closed = true := by
      simp [Authority.step, Authority.advanced, hclose, advance]
    refine ⟨(run_later turns).closed hclosed, fun id job now answer hid hanswer => ?_⟩
    have hne : id ≠ turn.id := by
      rintro rfl
      rw [hclose] at hid
      cases hid
    have hrefused : ((s.step turn).calls id).Refused := by
      simp [Authority.step, Function.update_of_ne hne, hid, Call.Refused]
    have hlast := run_call turns (P := fun t call => t.closed = true ∧ call.Refused)
      (fun _ _ _ _ h => ⟨advance_later.closed h.1, h.2.advance h.1⟩)
      (fun _ _ _ hlater h => ⟨hlater.closed h.1, h.2⟩) ⟨hclosed, hrefused⟩
    rw [hanswer] at hlast
    exact hlast.2
  · intro turn hcall hfull turns
    have hnone : checkedAdd 64 s.state.nextAttempt 1 = none := if_neg (by omega)
    -- The call stays at its `close` until it has run it.
    refine run_call turns (P := fun t call => t.closed = true ∨ call = .close) ?_ ?_ ?_
    · rintro clock answer t call (h | rfl)
      · exact .inl (advance_later.closed h)
      · exact .inl rfl
    · exact fun _ _ _ hlater h => h.imp_left hlater.closed
    · simp [Authority.step, Authority.advanced, hcall, advance, hnone]

/-- The attempt is taken before the clock is read: the sample that started
later can be the one that is replaced. -/
theorem earlier_start_replaces_later : ∃ turns turn old new,
    ((Authority.new 0 fun _ => .refresh).run turns).state.sample = some old ∧
      (((Authority.new 0 fun _ => .refresh).run turns).step turn).state.sample = some new ∧
      new.started < old.started :=
  ⟨[{ id := 0 }, { id := 0 }, { id := 1 }, { id := 1 }, { id := 1 }, { id := 0, elapsed := 1 },
      { id := 0 }, { id := 0 }, { id := 0 }, { id := 0 }, { id := 0 },
      { id := 1 }, { id := 1 }, { id := 1 }, { id := 1 }], { id := 1 },
    ⟨1, 1, 1, none⟩, ⟨2, 0, 1, none⟩, rfl, rfl, Nat.zero_lt_one⟩

end

end Wolf.PoolActor
