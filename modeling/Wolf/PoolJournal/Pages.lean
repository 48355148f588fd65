import Mathlib.Data.Nat.Digits.Defs
import Wolf.PoolJournal.Lifecycle
import Wolf.PoolJournal.Readers

/-! # The pool backend journal: event pages

A client that replays the journal reads it page by page and continues
where the last page ended. A page ends at the item limit or when the
next event would make its payload too large. If one event alone were
too large, the client could never get past it; every append has checked
that its event fits a page that starts with it.

* `pages_are_exact`: all pages from a cursor on. -/

namespace Wolf.PoolJournal

open PoolBackendJournalError List

variable (x : External)

/-! ## The size of a page -/

/-- The texts of an array with their separators. -/
def itemsSize (events : List Bytes) : Nat := ([0x2c].intercalate events : Bytes).length

@[simp] theorem itemsSize_nil : itemsSize [] = 0 := rfl

theorem itemsSize_concat (events : List Bytes) (event : Bytes) :
    itemsSize (events ++ [event]) =
      itemsSize events + (if events.isEmpty then 0 else 1) + event.length := by
  unfold itemsSize
  induction events with
  | nil => simp
  | cons first rest ih =>
    cases rest with
    | nil =>
      simp [intercalate_cons_cons]
      omega
    | cons second rest =>
      simp only [cons_append, intercalate_cons_cons, length_append,
        isEmpty_cons] at ih ⊢
      omega

/-- What is assumed of the encoder of `events_page` messages, which is part
of the protocol crate. -/
structure LawfulPages : Prop where
  /-- `MAX_BACKEND_PAYLOAD_BYTES` is 64 KiB. -/
  maximum : x.maxBackendPayloadBytes = 65536
  /-- The envelope without events can be encoded and fits a page. -/
  empty : ∀ after < 2 ^ 64, ∃ frame, x.eventsPageJson (emptyEventsPage x after) = .ok frame ∧
    frame.length ≤ x.maxBackendPayloadBytes
  /-- The size law: a message takes no more than its envelope with the widest
  request id, cursor and flag, and the texts of its events with their
  separators. -/
  size : ∀ page texts frame, page.version = x.backendProtocolVersion → page.id < 2 ^ 64 →
    page.nextEventSeq < 2 ^ 64 → page.events.mapM x.eventJson = .ok texts →
    x.eventsPageJson (emptyEventsPage x page.afterEventSeq) = .ok frame →
    ∃ payload, x.eventsPageJson page = .ok payload ∧
      payload.length ≤ frame.length + itemsSize texts

/-- The message that answers a request with a page. -/
def JournalEventPage.message (page : JournalEventPage) (id : Nat) : EventsPage where
  version := x.backendProtocolVersion
  id
  afterEventSeq := page.afterEventSeq
  nextEventSeq := page.nextEventSeq
  complete := page.complete
  events := page.events

/-- The size of a page without events. -/
def frameSize (after : Nat) : Nat :=
  match x.eventsPageJson (emptyEventsPage x after) with
  | .ok frame => frame.length
  | .error _ => 0

/-! ## The events of a journal -/

/-- What every append has checked of its event. -/
structure Pageable (events : List BackendEvent) : Prop where
  seq : ∀ i event, events[i]? = some event → event.eventSeq = i + 1
  fits : ∀ event ∈ events, ensureEventFitsPage x event = .ok ()
  bound : events.length < 2 ^ 64

section Events

variable {x} {policy : Image → PersistedEventRecord → Prop} {header : JournalHeader}
  {records : List PersistedEventRecord} {img img' : Image} {record : PersistedEventRecord}
  {events done rest : List BackendEvent} {event : BackendEvent} {after limit base : Nat}
  {state : JournalState}

theorem Pageable.append (h : Pageable x events) (hseq : event.eventSeq = events.length + 1)
    (hfits : ensureEventFitsPage x event = .ok ()) (hbound : event.eventSeq < 2 ^ 64) :
    Pageable x (events ++ [event]) := by
  refine ⟨?_, ?_, ?_⟩
  · intro i e hget
    by_cases hi : i < events.length
    · rw [List.getElem?_append_left hi] at hget
      exact h.seq i e hget
    · rw [List.getElem?_append_right (by omega)] at hget
      have hzero : i - events.length = 0 := by
        have hlt := (List.getElem?_eq_some_iff.mp hget).1
        rw [length_singleton] at hlt
        omega
      rw [hzero] at hget
      cases hget
      omega
  · exact forall_mem_append.mpr ⟨h.fits, forall_mem_singleton.mpr hfits⟩
  · rw [length_append, length_singleton, ← hseq]
    exact hbound

/-- The events of every log can be paged. -/
theorem Logged.pageable (h : Logged x policy header records img) : Pageable x img.events := by
  induction h with
  | created h =>
    rw [h.events]
    exact ⟨by simp, by simp, by decide⟩
  | append hlog _ happ ih =>
    rw [happ.events]
    refine ih.append ?_ happ.fits ?_
    · rw [happ.eventSeq, hlog.record_seq happ]
    · rw [happ.eventSeq]
      exact (nextEventSeq_ok.mp happ.seq).2

/-! ## The loop of a page -/

/-- The text of an event that can be encoded. -/
def eventBytes (x : External) (event : BackendEvent) : Bytes :=
  match x.eventJson event with
  | .ok text => text
  | .error _ => []

/-- The event can be encoded, in at most the size of a page. -/
def Encodable (x : External) (event : BackendEvent) : Prop :=
  x.eventJson event = .ok (eventBytes x event) ∧
    (eventBytes x event).length ≤ x.maxBackendPayloadBytes

/-- An event fits a page that starts with it. -/
theorem encodable_of_fits (h : ensureEventFitsPage x event = .ok ()) :
    Encodable x event ∧
      frameSize x (event.eventSeq - 1) + (eventBytes x event).length ≤
        x.maxBackendPayloadBytes := by
  obtain ⟨after, hafter, h⟩ := of_okOr_bind h
  obtain ⟨base, hbase, h⟩ := of_bind h
  obtain ⟨text, htext, h⟩ := of_bind h
  obtain ⟨total, htotal, h⟩ := of_okOr_bind h
  obtain ⟨_, hsub⟩ := checkedSub_eq_some.mp hafter
  obtain ⟨bytes, hbytes, hlength⟩ := of_bind hbase
  rw [canonicalJson, mapErr_eq_ok] at hbytes htext
  obtain ⟨_, hsum⟩ := checkedAdd_eq_some.mp htotal
  have hle := Nat.not_lt.mp (rejectIf_eq_ok.mp h)
  cases hlength
  have heventBytes : eventBytes x event = text := by simp [eventBytes, htext]
  have hframe : frameSize x after = bytes.length := by simp [frameSize, hbytes]
  rw [Encodable, heventBytes, hsub, hframe]
  exact ⟨⟨htext, by omega⟩, by omega⟩

/-- The size of some events in a page. -/
def pageSize (x : External) (base : Nat) (events : List BackendEvent) : Nat :=
  base + itemsSize (events.map (eventBytes x))

theorem pageSize_concat :
    pageSize x base (events ++ [event]) =
      pageSize x base events + (if events.isEmpty then 0 else 1) + (eventBytes x event).length := by
  unfold pageSize
  rw [map_append, map_singleton, itemsSize_concat]
  simp only [isEmpty_map]
  omega

/-- One round of the loop. -/
theorem pageEvents_cons (hmax : x.maxBackendPayloadBytes = 65536) (hevent : Encodable x event)
    (hdone : pageSize x base done ≤ x.maxBackendPayloadBytes) :
    pageEvents x (pageSize x base done) done (event :: rest) =
      if x.maxBackendPayloadBytes < pageSize x base (done ++ [event]) then .ok done
      else pageEvents x (pageSize x base (done ++ [event])) (done ++ [event]) rest := by
  have hsep : pageSize x base done + (if done.isEmpty then 0 else 1) < 2 ^ 64 := by
    split <;> omega
  have hsum : pageSize x base done + (if done.isEmpty then 0 else 1) +
      (eventBytes x event).length < 2 ^ 64 := by
    have hsize := hevent.2
    split <;> omega
  rw [pageEvents, hevent.1]
  simp only [canonicalJson, mapErr_ok, ok_bind, checkedAdd_of_lt hsep, Option.bind_some,
    checkedAdd_of_lt hsum, okOr_some]
  rw [pageSize_concat]

/-- The loop takes events while they fit. -/
theorem pageEvents_spec (hmax : x.maxBackendPayloadBytes = 65536)
    (hrest : ∀ event ∈ rest, Encodable x event)
    (hdone : pageSize x base done ≤ x.maxBackendPayloadBytes) :
    ∃ taken left, rest = taken ++ left ∧
      pageEvents x (pageSize x base done) done rest = .ok (done ++ taken) ∧
      pageSize x base (done ++ taken) ≤ x.maxBackendPayloadBytes ∧
      (taken = [] → ∀ event ∈ rest.head?,
        x.maxBackendPayloadBytes < pageSize x base (done ++ [event])) := by
  induction rest generalizing done with
  | nil =>
    refine ⟨[], [], rfl, ?_, ?_, ?_⟩
    · rw [append_nil, pageEvents]
    · rw [append_nil]
      exact hdone
    · intro _ event hevent
      cases hevent
  | cons event rest ih =>
    have hround := @pageEvents_cons x done rest event base hmax (hrest event mem_cons_self) hdone
    by_cases hlarge : x.maxBackendPayloadBytes < pageSize x base (done ++ [event])
    · rw [if_pos hlarge] at hround
      refine ⟨[], event :: rest, rfl, ?_, ?_, ?_⟩
      · rw [append_nil]
        exact hround
      · rw [append_nil]
        exact hdone
      · intro _ first hfirst
        cases hfirst
        exact hlarge
    · rw [if_neg hlarge] at hround
      obtain ⟨taken, left, hsplit, hloop, hsize, _⟩ :=
        ih (fun e he => hrest e (mem_cons_of_mem _ he)) (Nat.not_lt.mp hlarge)
      rw [append_assoc] at hloop hsize
      refine ⟨event :: taken, left, by rw [hsplit, cons_append], hround.trans hloop, hsize, ?_⟩
      intro hempty
      cases hempty

/-! ## One page -/

/-- A page of the events after a cursor. -/
structure PageOf (x : External) (journal : List BackendEvent) (after : Nat)
    (page : JournalEventPage) : Prop where
  afterEventSeq : page.afterEventSeq = after
  nextEventSeq : page.nextEventSeq = after + page.events.length
  events : page.events <+: journal.drop after
  complete : page.complete = true ↔ page.nextEventSeq = journal.length
  advances : page.complete = false → page.afterEventSeq < page.nextEventSeq
  payload : ∀ id < 2 ^ 64, ∃ payload, x.eventsPageJson (page.message x id) = .ok payload ∧
    payload.length ≤ x.maxBackendPayloadBytes

theorem lastEventSeq_eq_length (h : Pageable x events) : lastEventSeq events = events.length := by
  unfold lastEventSeq
  rcases eq_nil_or_concat events with rfl | ⟨init, last, rfl⟩
  · rfl
  · have hlast := h.seq init.length last (by simp)
    simp [hlast]

theorem mapM_eventJson (h : ∀ event ∈ events, x.eventJson event = .ok (eventBytes x event)) :
    events.mapM x.eventJson = .ok (events.map (eventBytes x)) := by
  induction events with
  | nil => rfl
  | cons event rest ih =>
    rw [mapM_cons, h event mem_cons_self, ih fun e he => h e (mem_cons_of_mem _ he)]
    rfl

/-- The position behind a page. -/
theorem next_of_prefix (h : Pageable x events) {taken left : List BackendEvent}
    (hsplit : events.drop after = taken ++ left) :
    (taken.getLast?.map BackendEvent.eventSeq).getD after = after + taken.length := by
  rcases eq_nil_or_concat taken with rfl | ⟨init, last, rfl⟩
  · rfl
  · rw [concat_eq_append] at hsplit ⊢
    have hget : events[after + init.length]? = some last := by
      rw [← List.getElem?_drop, hsplit, append_assoc,
        List.getElem?_append_right (Nat.le_refl _)]
      simp
    simp [h.seq _ last hget]
    omega

/-- What the loop takes from the events behind a cursor. -/
theorem pageEvents_available (hx : LawfulPages x) (h : Pageable x events)
    (hafter : after ≤ events.length) (hlimit : 1 ≤ limit) :
    ∃ taken left, events.drop after = taken ++ left ∧ taken.length ≤ limit ∧
      pageEvents x (frameSize x after) [] ((events.drop after).take limit) = .ok taken ∧
      pageSize x (frameSize x after) taken ≤ x.maxBackendPayloadBytes ∧
      (taken = [] → events.drop after = []) := by
  -- The framing alone fits, so the loop starts with a size that is allowed.
  have hstart : pageSize x (frameSize x after) [] ≤ x.maxBackendPayloadBytes := by
    obtain ⟨frame, hframe, hfits⟩ := hx.empty after (Nat.lt_of_le_of_lt hafter h.bound)
    simpa [pageSize, frameSize, hframe] using hfits
  have hencodable : ∀ event ∈ (events.drop after).take limit, Encodable x event := by
    intro event hevent
    exact (encodable_of_fits (h.fits event (mem_of_mem_drop (mem_of_mem_take hevent)))).1
  obtain ⟨taken, left, hsplit, hloop, hsize, hfirst⟩ :=
    pageEvents_spec hx.maximum hencodable hstart
  refine ⟨taken, left ++ (events.drop after).drop limit, ?_, ?_, hloop, hsize, ?_⟩
  · rw [← append_assoc, ← hsplit, take_append_drop]
  · have hle := congrArg List.length hsplit
    rw [length_take, length_append] at hle
    omega
  · intro hempty
    cases hrest : events.drop after with
    | nil => rfl
    | cons event rest =>
      have hget : events[after]? = some event := by
        rw [← List.head?_drop, hrest]
        rfl
      have hhead : event ∈ ((events.drop after).take limit).head? := by
        rw [List.head?_take, if_neg (by omega), hrest]
        rfl
      have hlarge := hfirst hempty event hhead
      -- The append has measured the event with this very cursor.
      have hfits := (encodable_of_fits (h.fits event (mem_of_getElem? hget))).2
      rw [h.seq after event hget, Nat.add_sub_cancel] at hfits
      have hfits : pageSize x (frameSize x after) [event] ≤ x.maxBackendPayloadBytes := by
        simpa [pageSize, itemsSize] using hfits
      rw [nil_append] at hlarge
      omega

section

variable (hx : LawfulPages x) (husable : state.poisoned = false) (h : Pageable x state.events)
  (hafter : after ≤ state.events.length)

include hx husable h hafter

/-- `read_events` returns a page for every cursor up to the end. -/
theorem readEvents_spec (hlimit : 1 ≤ limit ∧ limit ≤ x.maxEventPageItems) :
    ∃ page, readEvents x none after limit state = .ok page ∧
      PageOf x state.events after page ∧ page.events.length ≤ limit := by
  obtain ⟨taken, left, hsplit, htaken, hloop, hsize, hprogress⟩ :=
    pageEvents_available hx h hafter hlimit.1
  have hlength : after + taken.length ≤ state.events.length := by
    have hle := congrArg List.length hsplit
    simp only [length_drop, length_append] at hle
    omega
  obtain ⟨frame, hempty, _⟩ := hx.empty after (Nat.lt_of_le_of_lt hafter h.bound)
  have hsizeFrame : frameSize x after = frame.length := by simp [frameSize, hempty]
  -- All checks pass.
  have hread : readEvents x none after limit state = .ok ⟨after, after + taken.length,
      decide (after + taken.length = state.events.length), taken⟩ := by
    have hframe : emptyEventsPagePayloadSize x after = .ok (frameSize x after) := by
      rw [emptyEventsPagePayloadSize, hempty, hsizeFrame]
      rfl
    have hnonempty : ¬ (taken.isEmpty = true ∧ ¬ (state.events.drop after).isEmpty = true) := by
      rintro ⟨hnone, havailable⟩
      rw [hprogress (List.isEmpty_iff.mp hnone)] at havailable
      exact havailable rfl
    unfold readEvents
    simp only [rejectIf_of_not (not_not.mpr hlimit), ensureUsable_ok.mpr husable,
      lastEventSeq_eq_length h, rejectIf_of_not (Nat.not_lt.mpr hafter), ok_bind, tryReserve,
      hframe, hloop, rejectIf_of_not hnonempty, next_of_prefix h hsplit]
  refine ⟨_, hread, ⟨rfl, rfl, ⟨left, hsplit.symm⟩, decide_eq_true_iff, ?_, ?_⟩, htaken⟩
  · intro hincomplete
    show after < after + taken.length
    have hend := of_decide_eq_false hincomplete
    have hne : taken ≠ [] := by
      intro hempty
      have hnone := congrArg List.length (hprogress hempty)
      rw [length_drop, length_nil] at hnone
      omega
    have hpos := length_pos_iff.mpr hne
    omega
  · -- The payload is at most what the loop has counted.
    intro id hid
    have hencodable : ∀ event ∈ taken, x.eventJson event = .ok (eventBytes x event) := by
      intro event hevent
      have hmem : event ∈ state.events.drop after := hsplit ▸ mem_append_left _ hevent
      exact (encodable_of_fits (h.fits event (mem_of_mem_drop hmem))).1.1
    obtain ⟨payload, hpayload, hle⟩ := hx.size (JournalEventPage.message x ⟨after,
      after + taken.length, decide (after + taken.length = state.events.length), taken⟩ id) _ _
      rfl hid (Nat.lt_of_le_of_lt hlength h.bound) (mapM_eventJson hencodable) hempty
    refine ⟨payload, hpayload, Nat.le_trans hle ?_⟩
    rw [← hsizeFrame]
    exact hsize

/-! ## All pages -/

/-- A client that reads pages until one is complete. Every call has a limit
of its own, and the memory it asks for. -/
def readPages (x : External) (state : JournalState) :
    List Nat → Nat → Result (List JournalEventPage)
  | [], _ => .ok []
  | limit :: limits, after => do
    let page ← readEvents x none after limit state
    if page.complete then .ok [page]
    else do
      let rest ← readPages x state limits page.nextEventSeq
      .ok (page :: rest)

/-- Every page is one of the journal, the first starts at the cursor, and
each one starts where the one before has ended. -/
def Consecutive (x : External) (journal : List BackendEvent) : Nat → List JournalEventPage → Prop
  | _, [] => True
  | after, page :: rest =>
    PageOf x journal after page ∧ Consecutive x journal page.nextEventSeq rest

/-- The pages of a client. -/
theorem readPages_spec {limits : List Nat}
    (hlimits : ∀ limit ∈ limits, 1 ≤ limit ∧ limit ≤ x.maxEventPageItems) :
    ∃ pages, readPages x state limits after = .ok pages ∧
      Consecutive x state.events after pages ∧
      (state.events.length - after < limits.length →
        (∃ last ∈ pages.getLast?, last.complete = true) ∧
          pages.flatMap (fun page => page.events) = state.events.drop after) := by
  induction limits generalizing after with
  | nil => exact ⟨[], rfl, trivial, fun hlt => absurd hlt (Nat.not_lt_zero _)⟩
  | cons limit limits ih =>
    obtain ⟨page, hread, hpage, _⟩ :=
      readEvents_spec hx husable h hafter (hlimits limit mem_cons_self)
    obtain ⟨left, hleft⟩ := hpage.events
    have hrest : state.events.drop page.nextEventSeq = left := by
      rw [hpage.nextEventSeq, ← drop_drop, ← hleft, drop_left]
    have hnext : page.nextEventSeq ≤ state.events.length := by
      have hlength := congrArg List.length hleft
      rw [length_append, length_drop] at hlength
      rw [hpage.nextEventSeq]
      omega
    rw [readPages, hread, ok_bind]
    by_cases hcomplete : page.complete = true
    · -- Nothing is left behind a complete page.
      rw [if_pos hcomplete]
      refine ⟨[page], rfl, ⟨hpage, trivial⟩, fun _ => ⟨⟨page, rfl, hcomplete⟩, ?_⟩⟩
      have hnil : left = [] := by
        rw [← hrest, hpage.complete.mp hcomplete, drop_length]
      rw [flatMap_singleton, ← hleft, hnil, append_nil]
    · rw [if_neg hcomplete]
      have hadvance := hpage.advances (Bool.not_eq_true _ ▸ hcomplete)
      rw [hpage.afterEventSeq] at hadvance
      obtain ⟨pages, hpages, hconsecutive, hall⟩ :=
        ih hnext fun limit hlimit => hlimits limit (mem_cons_of_mem _ hlimit)
      rw [hpages, ok_bind]
      refine ⟨page :: pages, rfl, ⟨hpage, hconsecutive⟩, ?_⟩
      intro henough
      rw [length_cons] at henough
      obtain ⟨⟨last, hlast, hdone⟩, hevents⟩ := hall (by omega)
      refine ⟨⟨last, ?_, hdone⟩, ?_⟩
      · rw [List.getLast?_cons, Option.mem_def.mp hlast]
        rfl
      · rw [flatMap_cons, hevents, hrest, hleft]

end

end Events

/-- Event pages lose and repeat nothing. At every point of the life of a
journal at which it serves, a client that starts at a cursor up to the
current sequence number reads consecutive pages, whatever limits it
asks for; with enough calls it reaches the end, and it has then read the
events after the cursor, in order. -/
theorem pages_are_exact {x : External} {header : JournalHeader}
    {allowed : Image → AppendCall → Prop} (hjson : LawfulJson x) (hx : LawfulPages x)
    (r : Run (journalMachine x header allowed)) {n : Nat} {s : JournalState}
    (hserves : (r.state n).Serves s) {after : Nat} (hafter : after ≤ lastEventSeq s.events)
    {limits : List Nat} (hlimits : ∀ limit ∈ limits, 1 ≤ limit ∧ limit ≤ x.maxEventPageItems) :
    ∃ pages, readPages x s limits after = .ok pages ∧
      Consecutive x s.events after pages ∧
      (lastEventSeq s.events - after < limits.length →
        (∃ last ∈ pages.getLast?, last.complete = true) ∧
        pages.flatMap (fun page => page.events) = s.events.drop after ∧
        (s.events.drop after).map BackendEvent.eventSeq =
          List.range' (after + 1) (lastEventSeq s.events - after)) := by
  obtain ⟨t⟩ := (journal_simulation hjson).exists_tracking r
  have hpageable : Pageable x s.events := by
    have hlogged := (t.related n).logged.pageable
    rw [((t.related n).serves hserves).1] at hlogged
    exact hlogged
  have hcurrent := lastEventSeq_eq_length hpageable
  rw [hcurrent] at hafter ⊢
  obtain ⟨pages, hpages, hconsecutive, hall⟩ :=
    readPages_spec hx hserves.usable hpageable hafter hlimits
  refine ⟨pages, hpages, hconsecutive, ?_⟩
  intro henough
  obtain ⟨hlast, hevents⟩ := hall henough
  refine ⟨hlast, hevents, ?_⟩
  apply ext_getElem
  · simp
  · intro i hi _
    rw [getElem_map, getElem_range', getElem_drop]
    have hin : after + i < s.events.length := by
      rw [length_map, length_drop] at hi
      omega
    rw [hpageable.seq (after + i) _ (List.getElem?_eq_getElem hin)]
    omega

/-- The page encoder of the sample writes the events alone. -/
theorem sample_lawfulPages : LawfulPages sample := by
  have hempty : (braced []).length ≤ sample.maxBackendPayloadBytes := by decide
  refine ⟨rfl, fun _ _ => ⟨_, rfl, hempty⟩, ?_⟩
  intro page texts frame _ _ _ htexts hframe
  cases (mapM_eventJson fun _ _ => rfl).symm.trans htexts
  cases hframe
  refine ⟨_, rfl, ?_⟩
  show (braced ([0x2c].intercalate (page.events.map eventText))).length ≤ (braced []).length +
    itemsSize (page.events.map eventText)
  simp only [braced, itemsSize, length_append, length_singleton, length_nil]
  omega

/-- The events of the sample run, read from the first one on in pages of at
most two events. -/
theorem pages_are_exact_sample :
    ∃ pages, readPages sample sampleWithMatured.state [1, 2, 2, 2, 2] 1 = .ok pages ∧
      Consecutive sample sampleWithMatured.events 1 pages ∧
      pages.flatMap (fun page => page.events) = sampleWithMatured.events.drop 1 := by
  have hserves : (sampleRun.state 4).Serves sampleWithMatured.state := ⟨rfl, rfl⟩
  have hafter : 1 ≤ lastEventSeq sampleWithMatured.state.events := by decide
  have hlimits : ∀ limit ∈ [1, 2, 2, 2, 2], 1 ≤ limit ∧ limit ≤ sample.maxEventPageItems := by
    decide
  obtain ⟨pages, hpages, hconsecutive, hall⟩ :=
    pages_are_exact sample_lawful sample_lawfulPages sampleRun hserves hafter hlimits
  exact ⟨pages, hpages, hconsecutive, (hall (by decide)).2.1⟩

end Wolf.PoolJournal
