import Wolf.Framework.Machine
import Wolf.PoolJournal.Recovery

/-! # The pool backend journal as a system

The journal over its whole life: it is created once, its appends are
called, the process stops at any moment, and the file is opened again.

Two machines with the same labels:

* `journalMachine`: the modelled code. A state is an open journal or a
  file.
* `ledgerMachine`: what the journal is for. A state is a log of
  records with, possibly, one further record that a failure left
  undecided.

`journal_simulation` connects them, so that a property of runs is
proved about the ledger, whose steps append one record or nothing. -/

namespace Wolf.PoolJournal

open PoolBackendJournalError Exec

variable (x : External)

/-! ## The journal as a machine -/

/-- The backend process: with an open journal, or stopped, which leaves
the file. -/
inductive Process where
  | running (s : JournalState)
  | stopped (file : Bytes)

/-- What happens to the process, with the outcome of a call. -/
inductive Action where
  | call (call : AppendCall) (outcome : Result Unit)
  | stop
  | reopen (outcome : Result Unit)

/-- One step of the process. `allowed` restricts the calls. A process
stops between two calls or after a failed one; what a failed append
wrote and did not sync may be lost in part. -/
inductive ProcessStep (identity : JournalIdentity) (allowed : Image → AppendCall → Prop) :
    Process → Action → Process → Prop where
  | returned {env : AppendEnv} {call : AppendCall} {s s' : JournalState}
      (hallowed : allowed s.image call) (h : call.run x env s = .ok () s') :
      ProcessStep identity allowed (.running s) (.call call (.ok ())) (.running s')
  | failed {env : AppendEnv} {call : AppendCall} {s s' : JournalState}
      {e : PoolBackendJournalError} (hallowed : allowed s.image call)
      (h : call.run x env s = .error e s') :
      ProcessStep identity allowed (.running s) (.call call (.error e)) (.running s')
  | stopped {s : JournalState} {file : Bytes} (hlower : s.file.take s.bytesWritten <+: file)
      (hupper : file <+: s.file) :
      ProcessStep identity allowed (.running s) .stop (.stopped file)
  | opened {env : OpenEnv} {file file' : Bytes} {header : JournalHeader} {s : JournalState}
      (h : openExisting x env identity file = .ok (header, s) file') :
      ProcessStep identity allowed (.stopped file) (.reopen (.ok ())) (.running s)
  | refused {env : OpenEnv} {file file' : Bytes} {e : PoolBackendJournalError}
      (h : openExisting x env identity file = .error e file') :
      ProcessStep identity allowed (.stopped file) (.reopen (.error e)) (.stopped file')

/-- The life of a journal that was created with `header`. -/
def journalMachine (header : JournalHeader) (allowed : Image → AppendCall → Prop) :
    Machine Process Action where
  init p := ∃ env s, createNew x env header.identity = .ok (header, s) ∧ p = .running s
  step := ProcessStep x header.identity allowed

/-- The process has an open journal that is not poisoned. -/
structure Process.Serves (p : Process) (s : JournalState) : Prop where
  running : p = .running s
  usable : s.poisoned = false

/-! ## The ledger -/

/-- The records that count, the image they make, and a record whose fate
is open with the image it would make. -/
structure Ledger where
  records : List PersistedEventRecord
  image : Image
  pending : Option (PersistedEventRecord × Image) := none

/-- An allowed call appends its record to an image. -/
structure Grows (allowed : Image → AppendCall → Prop) (img : Image) (call : AppendCall)
    (record : PersistedEventRecord) (img' : Image) : Prop where
  allowed : allowed img call
  records : Records x img record call
  appends : Appends x img record img'

inductive LedgerStep (allowed : Image → AppendCall → Prop) (l : Ledger) (action : Action)
    (l' : Ledger) : Prop where
  /-- Nothing counts. -/
  | stay (h : l' = l)
  /-- A call appends its record. -/
  | write {call : AppendCall} {record : PersistedEventRecord} {img' : Image}
      (haction : action = .call call (.ok ())) (hpending : l.pending = none)
      (hgrows : Grows x allowed l.image call record img')
      (h : l' = ⟨l.records ++ [record], img', none⟩)
  /-- A call fails on the way, and its record is left open. -/
  | halt {call : AppendCall} {record : PersistedEventRecord} {img' : Image}
      {e : PoolBackendJournalError} (haction : action = .call call (.error e))
      (hpending : l.pending = none) (hgrows : Grows x allowed l.image call record img')
      (h : l' = ⟨l.records, l.image, some (record, img')⟩)
  /-- Recovery keeps the open record. -/
  | keep {record : PersistedEventRecord} {img' : Image} (haction : action = .reopen (.ok ()))
      (hpending : l.pending = some (record, img')) (h : l' = ⟨l.records ++ [record], img', none⟩)
  /-- Recovery cuts the open record off. -/
  | drop (haction : action = .reopen (.ok ())) (h : l' = ⟨l.records, l.image, none⟩)

def ledgerMachine (header : JournalHeader) (allowed : Image → AppendCall → Prop) :
    Machine Ledger Action where
  init l := ∃ img, HeaderImage x header img ∧ l = ⟨[], img, none⟩
  step := LedgerStep x allowed

/-! ## The journal keeps a ledger -/

/-- The ledger behind a process. -/
inductive Tracks (header : JournalHeader) : Process → Ledger → Prop where
  | settled {s : JournalState} {records : List PersistedEventRecord} (hs : Settled s)
      (hlog : Logged x (fun _ _ => True) header records s.image) :
      Tracks header (.running s) ⟨records, s.image, none⟩
  | halted {s : JournalState} {records : List PersistedEventRecord} {img img' : Image}
      {record : PersistedEventRecord} (hlog : Logged x (fun _ _ => True) header records img)
      (h : Halted x s img record img') :
      Tracks header (.running s) ⟨records, img, some (record, img')⟩
  | closed {records : List PersistedEventRecord} {img : Image}
      (hlog : Logged x (fun _ _ => True) header records img) :
      Tracks header (.stopped img.content) ⟨records, img, none⟩
  | torn {file : Bytes} {records : List PersistedEventRecord} {img img' : Image}
      {record : PersistedEventRecord} (hlog : Logged x (fun _ _ => True) header records img)
      (happ : Appends x img record img') (hfile : Between img img' file) :
      Tracks header (.stopped file) ⟨records, img, some (record, img')⟩

section

variable {x} {header : JournalHeader} {allowed : Image → AppendCall → Prop} {s s' : JournalState}
  {l : Ledger} {p p' : Process} {identity : JournalIdentity} {outcome : Result Unit}
  {call : AppendCall} {file : Bytes}

/-- A call on a settled journal. -/
theorem track_call_settled {env : AppendEnv} {records : List PersistedEventRecord} (hs : Settled s)
    (hlog : Logged x (fun _ _ => True) header records s.image) (hallowed : allowed s.image call)
    (h : CallOutcome x call s (call.run x env s))
    (hok : outcome = .ok () → call.run x env s = .ok () s')
    (herr : ∀ e, outcome = .error e → call.run x env s = .error e s') :
    ∃ l', LedgerStep x allowed ⟨records, s.image, none⟩ (.call call outcome) l' ∧
      Tracks x header (.running s') l' := by
  cases outcome with
  | ok u =>
    rw [hok rfl] at h
    rcases h with heq | ⟨record, hrec, happ, hs'⟩
    · subst heq
      exact ⟨_, .stay rfl, .settled hs hlog⟩
    · exact ⟨_, .write rfl rfl ⟨hallowed, hrec, happ⟩ rfl, .settled hs' (hlog.append trivial happ)⟩
  | error e =>
    rw [herr e rfl] at h
    rcases h with heq | ⟨record, img', hrec, hhalt⟩
    · subst heq
      exact ⟨_, .stay rfl, .settled hs hlog⟩
    · exact ⟨_, .halt rfl rfl ⟨hallowed, hrec, hhalt.appends⟩ rfl, .halted hlog hhalt⟩

/-- Opening a file gives a ledger with its open record decided; a failed
attempt decides nothing. -/
theorem track_open (allowed : Image → AppendCall → Prop) (hx : LawfulJson x) {env : OpenEnv}
    (hrel : Tracks x header (.stopped file) l) :
    (∀ header' s file', openExisting x env header.identity file = .ok (header', s) file' →
      ∃ l', LedgerStep x allowed l (.reopen (.ok ())) l' ∧ Tracks x header (.running s) l') ∧
    (∀ e file', openExisting x env header.identity file = .error e file' →
      Tracks x header (.stopped file') l) := by
  -- What `Ends` says in the two cases of the result.
  have hends : ∀ {img : Image} {left : Bytes → Prop} {content : Bytes},
      Ends env left (openExisting x env header.identity file) (header, img.state) content →
      (∀ header' s file', openExisting x env header.identity file = .ok (header', s) file' →
        s = img.state) ∧
      (∀ e file', openExisting x env header.identity file = .error e file' → left file') := by
    intro img left content h
    rcases h with h | ⟨_, e, file', h, hleft⟩
    · rw [h]
      constructor
      · intro header' s file' h
        cases h
        rfl
      · intro e file' h
        cases h
    · rw [h]
      constructor
      · intro header' s file' h
        cases h
      · intro e' file'' h
        cases h
        exact hleft
  cases hrel with
  | closed hlog =>
    obtain ⟨hok, herr⟩ := hends (openExisting_whole hx hlog)
    constructor
    · intro header' s file' h
      rw [hok header' s file' h]
      exact ⟨_, .stay rfl, .settled (Image.state_settled _) hlog⟩
    · intro e file' h
      rw [herr e file' h]
      exact .closed hlog
  | torn hlog happ hfile =>
    rcases openExisting_between hx hlog happ trivial hfile with hopen | hopen
    · obtain ⟨hok, herr⟩ := hends hopen
      constructor
      · intro header' s file' h
        rw [hok header' s file' h]
        exact ⟨_, .drop rfl rfl, .settled (Image.state_settled _) hlog⟩
      · intro e file' h
        exact .torn hlog happ (herr e file' h)
    · obtain ⟨hok, herr⟩ := hends hopen
      constructor
      · intro header' s file' h
        rw [hok header' s file' h]
        exact ⟨_, .keep rfl rfl rfl, .settled (Image.state_settled _) (hlog.append trivial happ)⟩
      · intro e file' h
        exact .torn hlog happ (herr e file' h)

/-- Step lemma: every step of the process is a step of its ledger. -/
theorem track_step (hx : LawfulJson x) {action : Action} (hrel : Tracks x header p l)
    (hstep : ProcessStep x header.identity allowed p action p') :
    ∃ l', LedgerStep x allowed l action l' ∧ Tracks x header p' l' := by
  cases hstep with
  | @returned env call s s' hallowed h =>
    cases hrel with
    | settled hs hlog =>
      exact track_call_settled hs hlog hallowed (AppendCall.run_settled hs call env)
        (fun _ => h) (fun _ he => by cases he)
    | halted hlog hhalt =>
      -- A poisoned journal returns from no append.
      obtain ⟨e, hrun⟩ := AppendCall.run_poisoned (x := x) hhalt.poisoned call env
      rw [hrun] at h
      cases h
  | @failed env call s s' e hallowed h =>
    cases hrel with
    | settled hs hlog =>
      exact track_call_settled hs hlog hallowed (AppendCall.run_settled hs call env)
        (fun he => by cases he) (fun _ he => by cases he; exact h)
    | halted hlog hhalt =>
      obtain ⟨e', hrun⟩ := AppendCall.run_poisoned (x := x) hhalt.poisoned call env
      rw [hrun] at h
      cases h
      exact ⟨_, .stay rfl, .halted hlog hhalt⟩
  | @stopped s file hlower hupper =>
    -- The file has the content of the ledger.
    refine ⟨l, .stay rfl, ?_⟩
    cases hrel with
    | settled hs hlog =>
      rw [hs.bytesWritten, List.take_length] at hlower
      have hfile : s.file = file := hlower.eq_of_length_le hupper.length_le
      rw [← hfile]
      exact .closed hlog
    | halted hlog h =>
      rw [h.bytesWritten, ← List.prefix_iff_eq_take.mp h.lower] at hlower
      exact .torn hlog h.appends ⟨hlower, hupper.trans h.upper⟩
  | opened h => exact (track_open allowed hx hrel).1 _ _ _ h
  | refused h => exact ⟨l, .stay rfl, (track_open allowed hx hrel).2 _ _ h⟩

/-- Every life of the journal is a life of its ledger. -/
theorem journal_simulation (hx : LawfulJson x) :
    Simulation (journalMachine x header allowed) (ledgerMachine x header allowed)
      (Tracks x header) where
  init p hp := by
    obtain ⟨env, s, hcreate, rfl⟩ := hp
    obtain ⟨hheader, hs, _⟩ := createNew_ok x hcreate
    exact ⟨⟨[], s.image, none⟩, ⟨s.image, hheader, rfl⟩, .settled hs (.created hheader)⟩
  step p action p' l hrel hstep := track_step hx hrel hstep

/-! ## Images along a run -/

/-- A journal that serves has the image of its ledger, with nothing open. -/
theorem Tracks.serves (hrel : Tracks x header p l) (hserves : p.Serves s) :
    l.image = s.image ∧ l.pending = none := by
  obtain ⟨hrun, husable⟩ := hserves
  subst hrun
  cases hrel with
  | settled hs hlog => exact ⟨rfl, rfl⟩
  | halted hlog h =>
    rw [h.poisoned] at husable
    cases husable

/-- An open journal shows the image of its ledger, or, once poisoned, the
one with the open record. -/
theorem Tracks.running (hrel : Tracks x header (.running s) l) :
    ((Process.running s).Serves s ∧ l.image = s.image ∧ l.pending = none) ∨
      ∃ record img', s.poisoned = true ∧ l.pending = some (record, img') ∧
        s.semantic = img'.semantic ∧ s.events = l.image.events := by
  cases hrel with
  | settled hs hlog => exact .inl ⟨⟨rfl, hs.usable⟩, rfl, rfl⟩
  | halted hlog h => exact .inr ⟨_, _, h.poisoned, rfl, h.semantic, h.events⟩

theorem Tracks.logged (hrel : Tracks x header p l) :
    Logged x (fun _ _ => True) header l.records l.image := by
  cases hrel with
  | settled _ hlog | halted hlog _ | closed hlog | torn hlog _ _ => exact hlog

/-- A call is made by a running process, which runs on. -/
theorem ProcessStep.call_running (h : ProcessStep x identity allowed p (.call call outcome) p') :
    ∃ s s', p = .running s ∧ p' = .running s' := by
  cases h with
  | returned _ _ | failed _ _ => exact ⟨_, _, rfl, rfl⟩

theorem ProcessStep.reopen_running (h : ProcessStep x identity allowed p (.reopen (.ok ())) p') :
    ∃ s', p' = .running s' := by
  cases h with
  | opened _ => exact ⟨_, rfl⟩

variable {r : Run (journalMachine x header allowed)}
  (t : Tracking r (ledgerMachine x header allowed) (Tracks x header))

/-- A running process with nothing open serves. -/
theorem serves_of_settled {n : Nat} (hrun : r.state n = .running s)
    (hpending : (t.run.state n).pending = none) :
    (r.state n).Serves s ∧ (t.run.state n).image = s.image := by
  have hrel := t.related n
  rw [hrun] at hrel ⊢
  rcases hrel.running with ⟨hserves, himage, _⟩ | ⟨record, img', _, hopen, _⟩
  · exact ⟨hserves, himage⟩
  · rw [hpending] at hopen
    cases hopen

/-- The open record is the one of an allowed call that failed, on the image
that the ledger still has. -/
theorem pending_grows (n : Nat) : ∀ record img', (t.run.state n).pending = some (record, img') →
    ∃ call, Grows x allowed (t.run.state n).image call record img' ∧
      ∃ m s e, m < n ∧ r.state m = .running s ∧ r.label m = .call call (.error e) ∧
        s.image = (t.run.state n).image := by
  refine t.run.invariant ?_ ?_ n
  · intro record img' hpending
    obtain ⟨img, _, hinit⟩ := t.run.starts
    rw [hinit] at hpending
    cases hpending
  · intro n ih hstep record img' hpending
    cases hstep with
    | stay h =>
      rw [h] at hpending ⊢
      obtain ⟨call, hgrows, m, s, e, hlt, hfailed⟩ := ih record img' hpending
      exact ⟨call, hgrows, m, s, e, Nat.lt_succ_of_lt hlt, hfailed⟩
    | @halt call _ _ e haction hnone hgrows h =>
      have hlabel : r.label n = .call call (.error e) := (t.label n).symm.trans haction
      have hproc := r.steps n
      rw [hlabel] at hproc
      obtain ⟨s, _, hrun, _⟩ := hproc.call_running
      have himage := (serves_of_settled t hrun hnone).2
      rw [h] at hpending ⊢
      cases hpending
      exact ⟨call, hgrows, n, s, e, Nat.lt_succ_self n, hrun, hlabel, himage.symm⟩
    | write _ _ _ h | keep _ _ h | drop _ h =>
      rw [h] at hpending
      cases hpending

/-- Step lemma: the image grows by one record or stays, and where it grows
the journal serves afterwards. -/
theorem image_step (n : Nat) :
    (t.run.state (n + 1)).image = (t.run.state n).image ∨
      (∃ s, (r.state (n + 1)).Serves s) ∧ ∃ call record,
        Grows x allowed (t.run.state n).image call record (t.run.state (n + 1)).image := by
  have hstep := r.steps n
  rw [← t.label n] at hstep
  cases t.run.steps n with
  | stay h | halt _ _ _ h | drop _ h => exact .inl (by rw [h])
  | write haction _ hgrows h =>
    right
    rw [haction] at hstep
    obtain ⟨_, s, _, hrun⟩ := hstep.call_running
    refine ⟨⟨s, (serves_of_settled t hrun (by rw [h])).1⟩, ?_⟩
    rw [h]
    exact ⟨_, _, hgrows⟩
  | keep haction hpending h =>
    right
    rw [haction] at hstep
    obtain ⟨s, hrun⟩ := hstep.reopen_running
    obtain ⟨call, hgrows, _⟩ := pending_grows t n _ _ hpending
    refine ⟨⟨s, (serves_of_settled t hrun (by rw [h])).1⟩, ?_⟩
    rw [h]
    exact ⟨call, _, hgrows⟩

/-- While no journal serves, the image stays. -/
theorem image_eq_of_not_serving {i j : Nat} (hij : i ≤ j)
    (hnot : ∀ k, i < k → k ≤ j → ∀ s, ¬ (r.state k).Serves s) :
    (t.run.state j).image = (t.run.state i).image := by
  induction hij with
  | refl => rfl
  | @step j hle ih =>
    rcases image_step t j with heq | ⟨⟨s, hserves⟩, _⟩
    · rw [heq]
      exact ih fun k hik hkj => hnot k hik (Nat.le_succ_of_le hkj)
    · exact absurd hserves (hnot (j + 1) (Nat.lt_succ_of_le hle) (Nat.le_refl _) s)

/-- A serving journal shows what the image of the ledger has. -/
theorem holds_of_serves {ι : Type} {holds : Image → ι → Prop} {n : Nat} {i : ι}
    (hi : holds (t.run.state n).image i) (s : JournalState) (hserves : (r.state n).Serves s) :
    holds s.image i := by
  rw [((t.related n).serves hserves).1] at hi
  exact hi

/-- With an open record no journal serves. -/
theorem not_serves_of_pending {n : Nat} {pending : PersistedEventRecord × Image}
    (hpending : (t.run.state n).pending = some pending) (s : JournalState) :
    ¬ (r.state n).Serves s := by
  intro hserves
  rw [((t.related n).serves hserves).2] at hpending
  cases hpending

/-- After a call the process shows the image that its record makes, be it
appended or left open. -/
theorem semantic_of_call {n : Nat} {img' : Image} (hlabel : r.label n = .call call outcome)
    (h : (t.run.state (n + 1)).image = img' ∧ (t.run.state (n + 1)).pending = none ∨
      ∃ record, (t.run.state (n + 1)).pending = some (record, img')) :
    ∃ s', r.state (n + 1) = .running s' ∧ s'.semantic = img'.semantic := by
  have hproc := r.steps n
  rw [hlabel] at hproc
  obtain ⟨_, s', _, hrun⟩ := hproc.call_running
  refine ⟨s', hrun, ?_⟩
  have hrel := t.related (n + 1)
  rw [hrun] at hrel
  rcases hrel.running with ⟨_, himage, hnone⟩ | ⟨_, _, _, hsome, hsemantic, _⟩
  · rcases h with ⟨rfl, _⟩ | ⟨_, hopen⟩
    · exact congrArg Image.semantic himage.symm
    · rw [hnone] at hopen
      cases hopen
  · rcases h with ⟨_, hnone⟩ | ⟨_, hopen⟩
    · rw [hnone] at hsome
      cases hsome
    · rw [hopen] at hsome
      cases hsome
      exact hsemantic

/-- Accounting rule. `holds` are facts that a new journal lacks, and `why`
explains a fact of state `n`. If a call explains the facts of the image
it makes (`hcall`), and explanations stay good while serving journals
show the fact (`hkeep`), then every fact of the ledger, counted or open,
is explained. -/
theorem ledger_explained {ι : Type} (holds : Image → ι → Prop) (why : Nat → ι → Prop)
    (hstart : ∀ img i, HeaderImage x header img → ¬ holds img i)
    (hkeep : ∀ n i, why n i → (∀ s, (r.state (n + 1)).Serves s → holds s.image i) →
      why (n + 1) i)
    (hcall : ∀ n i call outcome s' record img', r.label n = .call call outcome →
      (t.run.state n).pending = none → Grows x allowed (t.run.state n).image call record img' →
      r.state (n + 1) = .running s' → s'.semantic = img'.semantic →
      (holds (t.run.state n).image i → why n i) → holds img' i → why (n + 1) i) (n : Nat) :
    (∀ i, holds (t.run.state n).image i → why n i) ∧
      ∀ record img' i, (t.run.state n).pending = some (record, img') → holds img' i → why n i := by
  refine t.run.invariant ?_ ?_ n
  · obtain ⟨img, himg, hinit⟩ := t.run.starts
    rw [hinit]
    exact ⟨fun i hi => absurd hi (hstart img i himg), fun _ _ _ hpending => nomatch hpending⟩
  · intro n ih hstep
    obtain ⟨himage, hpend⟩ := ih
    have hlabel := t.label n
    -- A step that leaves the image alone, and one that leaves nothing open.
    have hsame : (t.run.state (n + 1)).image = (t.run.state n).image →
        ∀ i, holds (t.run.state (n + 1)).image i → why (n + 1) i := by
      intro h i hi
      exact hkeep n i (himage i (h ▸ hi)) (holds_of_serves t hi)
    have hclosed : (t.run.state (n + 1)).pending = none → ∀ record img' i,
        (t.run.state (n + 1)).pending = some (record, img') → holds img' i → why (n + 1) i := by
      intro h record img' i hpending
      rw [h] at hpending
      cases hpending
    cases hstep with
    | stay h =>
      refine ⟨hsame (by rw [h]), fun record img' i hpending hi => ?_⟩
      have hnot := not_serves_of_pending t hpending
      rw [h] at hpending
      exact hkeep n i (hpend record img' i hpending hi) fun s hs => absurd hs (hnot s)
    | write haction hpending hgrows h =>
      rw [haction] at hlabel
      obtain ⟨s', hrun, hsemantic⟩ :=
        semantic_of_call t hlabel.symm (.inl ⟨congrArg Ledger.image h, congrArg Ledger.pending h⟩)
      refine ⟨fun i hi => ?_, hclosed (by rw [h])⟩
      rw [h] at hi
      exact hcall n i _ _ s' _ _ hlabel.symm hpending hgrows hrun hsemantic (himage i) hi
    | halt haction hpending hgrows h =>
      rw [haction] at hlabel
      refine ⟨hsame (by rw [h]), fun record img' i hopen hi => ?_⟩
      obtain ⟨s', hrun, hsemantic⟩ := semantic_of_call t hlabel.symm (.inr ⟨_, hopen⟩)
      rw [h] at hopen
      cases hopen
      exact hcall n i _ _ s' _ _ hlabel.symm hpending hgrows hrun hsemantic (himage i) hi
    | keep _ hpending h =>
      refine ⟨fun i hi => ?_, hclosed (by rw [h])⟩
      have hshow := holds_of_serves t hi
      rw [h] at hi
      exact hkeep n i (hpend _ _ i hpending hi) hshow
    | drop _ h => exact ⟨hsame (by rw [h]), hclosed (by rw [h])⟩

end

end Wolf.PoolJournal
