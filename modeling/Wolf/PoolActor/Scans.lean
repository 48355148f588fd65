import Wolf.Framework.Cursor
import Wolf.PoolActor.Schedulers
import Wolf.PoolJournal.Retention

/-! # What the scans of the winner order return

On a journal that serves, every scan of a scheduler succeeds.

* `Scannable`: what the scans rely on. `Logged.scannable` shows it of
  every usable journal. -/

namespace Wolf.PoolActor

open PoolJournal PoolBackendJournalError Exec List

/-! ## Journals that can be scanned -/

/-- The indexes of the winners agree, and the counters have room. -/
structure Scannable (s : JournalState) : Prop where
  usable : s.poisoned = false
  last : lastEventSeq s.events = s.events.length
  events : s.events.length ≤ maxJournalEvents
  entry : ∀ key ∈ s.semantic.winnerOrder, ∃ entry, s.semantic.winners.lookup key = some entry
  ordered : ∀ key entry, s.semantic.winners.lookup key = some entry →
    key ∈ s.semantic.winnerOrder
  key : ∀ key entry, s.semantic.winners.lookup key = some entry → entry.key = key
  nodup : s.semantic.winnerOrder.Nodup
  count : s.semantic.winnerOrder.length ≤ maxRetainedWinners

variable {s : JournalState} {wanted : JournalWinnerState → Bool} {winner : Nat × JournalWinnerState}
  {chain : Option MergedChain} {α : Type}

theorem Scannable.seq (hs : Scannable s) : ∃ eventSeq, nextEventSeq s.events = .ok eventSeq := by
  have hcount := hs.events
  refine ⟨s.events.length + 1, nextEventSeq_ok.mpr ⟨by rw [hs.last], ?_⟩⟩
  unfold maxJournalEvents at hcount
  omega

section

variable {x : External} {policy : Image → PersistedEventRecord → Prop} {header : JournalHeader}
  {records : List PersistedEventRecord} {img : Image}

theorem winnerOrder_count {record : PersistedEventRecord} {s s' : JournalSemanticState}
    (h : Applies x record s s') (hs : s.winnerOrder.length ≤ maxRetainedWinners) :
    s'.winnerOrder.length ≤ maxRetainedWinners := by
  cases h with
  | @shareCommitted receipt _ _ _ _ _ blocks _ hcapacity =>
    have horder : (s.winnerOrder ++ receipt.winners.map receipt.winnerKey).length
        ≤ maxRetainedWinners := by
      rw [length_append, length_map]
      obtain ⟨sum, hsum, hcapacity⟩ := of_okOr_bind hcapacity
      obtain ⟨hle, _⟩ := of_rejectIf_bind hcapacity
      have hsum := (checkedAdd_eq_some.mp hsum).2
      omega
    exact horder
  | _ => exact hs

theorem Logged.winnerOrder_count (h : Logged x policy header records img) :
    img.semantic.winnerOrder.length ≤ maxRetainedWinners := by
  induction h with
  | created h =>
    rw [h.semantic]
    exact Nat.zero_le _
  | append _ _ happ ih => exact PoolActor.winnerOrder_count happ.applies ih

theorem Logged.event_count (h : Logged x policy header records img) :
    img.events.length ≤ maxJournalEvents := by
  cases h with
  | created h =>
    rw [h.events]
    exact Nat.zero_le _
  | append _ _ happ =>
    obtain ⟨json, htext⟩ := happ.text
    have := (checkedAppendLimits_ok.mp htext.limits).1
    rw [happ.events, length_append, length_singleton]
    exact this

/-- Every usable journal can be scanned. -/
theorem Logged.scannable (hx : DistinctChains x) (h : Logged x policy header records s.image)
    (husable : s.poisoned = false) : Scannable s where
  usable := husable
  last := h.lastEventSeq_eq
  events := Logged.event_count h
  entry key hmem := ((h.retained hx).keys key).mp hmem
  ordered key entry hentry := ((h.retained hx).keys key).mpr ⟨entry, hentry⟩
  key key entry hentry := by
    obtain ⟨hshare, hchain, _⟩ := h.winner key entry hentry
    unfold JournalWinnerState.key
    rw [hshare, hchain]
  nodup := (h.retained hx).nodup
  count := Logged.winnerOrder_count h

end

/-! ## The wanted winners -/

/-- The entry of the order that a scan may return. -/
def pickWinner (s : JournalState) (chain : Option MergedChain)
    (wanted : JournalWinnerState → Bool) (indexed : WinnerKey × Nat) :
    Option (Nat × JournalWinnerState) :=
  if otherChain chain indexed.1 then none
  else (s.semantic.winners.lookup indexed.1).bind fun winner =>
    if wanted winner then some (indexed.2, winner) else none

/-- The winners below a bound that a scan wants, with their ordinals. -/
def winnersBelow (s : JournalState) (chain : Option MergedChain)
    (wanted : JournalWinnerState → Bool) (before : Nat) : List (Nat × JournalWinnerState) :=
  (s.semantic.winnerOrder.zipIdx.take before).filterMap (pickWinner s chain wanted)

theorem pickWinner_eq_some {indexed : WinnerKey × Nat} :
    pickWinner s chain wanted indexed = some winner ↔
      otherChain chain indexed.1 = false ∧ s.semantic.winners.lookup indexed.1 = some winner.2 ∧
        wanted winner.2 = true ∧ indexed.2 = winner.1 := by
  unfold pickWinner
  by_cases hother : otherChain chain indexed.1 = true
  · simp [hother]
  · rw [if_neg hother, Option.bind_eq_some_iff]
    constructor
    · rintro ⟨entry, hentry, h⟩
      by_cases hwanted : wanted entry = true
      · rw [if_pos hwanted] at h
        cases h
        exact ⟨Bool.eq_false_iff.mpr hother, hentry, hwanted, rfl⟩
      · rw [if_neg hwanted] at h
        cases h
    · rintro ⟨_, hentry, hwanted, hindex⟩
      refine ⟨winner.2, hentry, ?_⟩
      rw [if_pos hwanted, hindex]

/-- The indices of an indexed list are the positions. -/
theorem mem_zipIdx_take {l : List α} {before i : Nat} {a : α} :
    (a, i) ∈ l.zipIdx.take before ↔ l[i]? = some a ∧ i < before := by
  rw [mem_iff_getElem?]
  constructor
  · rintro ⟨n, hn⟩
    rw [List.getElem?_take] at hn
    split at hn
    · rw [List.getElem?_zipIdx, Nat.zero_add, Option.map_eq_some_iff] at hn
      obtain ⟨b, hb, heq⟩ := hn
      cases heq
      exact ⟨hb, by assumption⟩
    · cases hn
  · rintro ⟨ha, hlt⟩
    refine ⟨i, ?_⟩
    rw [List.getElem?_take, if_pos hlt, List.getElem?_zipIdx, ha, Nat.zero_add]
    rfl

/-- What `winnersBelow` holds, without the list. -/
theorem mem_winnersBelow {before : Nat} :
    winner ∈ winnersBelow s chain wanted before ↔
      ∃ key, s.semantic.winnerOrder[winner.1]? = some key ∧ winner.1 < before ∧
        otherChain chain key = false ∧ s.semantic.winners.lookup key = some winner.2 ∧
        wanted winner.2 = true := by
  unfold winnersBelow
  rw [mem_filterMap]
  constructor
  · rintro ⟨⟨key, i⟩, hmem, hpick⟩
    obtain ⟨hchain, hentry, hwanted, hindex⟩ := pickWinner_eq_some.mp hpick
    obtain ⟨hkey, hlt⟩ := mem_zipIdx_take.mp hmem
    subst hindex
    exact ⟨key, hkey, hlt, hchain, hentry, hwanted⟩
  · rintro ⟨key, hkey, hlt, hchain, hentry, hwanted⟩
    exact ⟨(key, winner.1), mem_zipIdx_take.mpr ⟨hkey, hlt⟩,
      pickWinner_eq_some.mpr ⟨hchain, hentry, hwanted, rfl⟩⟩

theorem zipIdx_ascending (l : List α) (n : Nat) : (l.zipIdx n).Pairwise fun a b => a.2 < b.2 := by
  rw [pairwise_iff_getElem]
  intro i j _ _ hij
  rw [getElem_zipIdx, getElem_zipIdx]
  exact Nat.add_lt_add_left hij n

/-- The wanted winners come in the order of their ordinals. -/
theorem winnersBelow_ascending (s : JournalState) (chain : Option MergedChain)
    (wanted : JournalWinnerState → Bool) (before : Nat) :
    (winnersBelow s chain wanted before).Pairwise fun a b => a.1 < b.1 := by
  unfold winnersBelow
  rw [pairwise_filterMap]
  refine ((zipIdx_ascending _ 0).sublist (take_sublist _ _)).imp ?_
  intro a b hlt winner hpick other hpick'
  obtain ⟨_, _, _, hindex⟩ := pickWinner_eq_some.mp hpick
  obtain ⟨_, _, _, hindex'⟩ := pickWinner_eq_some.mp hpick'
  rw [← hindex, ← hindex']
  exact hlt

/-! ## Cursor scans -/

/-- The loop of a cursor scan finds the first wanted entry. -/
theorem scanWinners_eq (hs : Scannable s) {entries : List (WinnerKey × Nat)}
    (hmem : ∀ indexed ∈ entries, indexed.1 ∈ s.semantic.winnerOrder) :
    scanWinners s chain wanted entries
      = .ok (entries.filterMap (pickWinner s chain wanted)).head? := by
  induction entries with
  | nil => rfl
  | cons indexed rest ih =>
    obtain ⟨key, i⟩ := indexed
    have ih := ih fun other hother => hmem other (mem_cons_of_mem _ hother)
    obtain ⟨eventSeq, hseq⟩ := hs.seq
    obtain ⟨entry, hentry⟩ := hs.entry key (hmem _ mem_cons_self)
    unfold scanWinners
    by_cases hother : otherChain chain key = true
    · have hpick : pickWinner s chain wanted (key, i) = none := if_pos hother
      rw [if_pos hother, filterMap_cons_none hpick]
      exact ih
    · rw [if_neg hother, hseq, ok_bind]
      have hindexed : indexedWinner s eventSeq key = .ok entry := okOr_eq_ok.mpr hentry
      rw [hindexed, ok_bind]
      by_cases hwanted : wanted entry = true
      · have hpick : pickWinner s chain wanted (key, i) = some (i, entry) :=
          pickWinner_eq_some.mpr ⟨Bool.eq_false_iff.mpr hother, hentry, hwanted, rfl⟩
        rw [if_pos hwanted, filterMap_cons_some hpick]
        rfl
      · have hpick : pickWinner s chain wanted (key, i) = none := by
          show (if otherChain chain key then none else _) = none
          rw [if_neg hother, hentry, Option.bind_some, if_neg hwanted]
        rw [if_neg hwanted, filterMap_cons_none hpick]
        exact ih

/-- Dropping from an indexed list leaves the higher indices. -/
theorem zipIdx_take_drop (l : List α) (n before start : Nat) :
    ((l.zipIdx n).take before).drop start
      = ((l.zipIdx n).take before).filter fun indexed => n + start ≤ indexed.2 := by
  induction l generalizing n before start with
  | nil => simp
  | cons a l ih =>
    cases before with
    | zero => simp
    | succ before =>
      rw [zipIdx_cons, take_succ_cons]
      cases start with
      | zero =>
        rw [drop_zero, eq_comm, filter_eq_self]
        intro indexed hmem
        rw [← take_succ_cons, ← zipIdx_cons] at hmem
        exact decide_eq_true (le_snd_of_mem_zipIdx (mem_of_mem_take hmem))
      | succ start =>
        rw [drop_succ_cons, filter_cons_of_neg (by simp), ih,
          show n + 1 + start = n + (start + 1) by omega]

/-- A cursor scan on a journal that can be scanned returns the next wanted
winner after the cursor. -/
theorem nextWinnerMatching_eq (hs : Scannable s) {after : Option Nat}
    (hafter : ∀ ordinal ∈ after, ordinal ≤ maxRetainedWinners) (before : Nat) :
    nextWinnerMatching wanted after before chain s
      = .ok ((winnersBelow s chain wanted before).filter fun winner =>
          (after.elim 0 (· + 1)) ≤ winner.1).head? := by
  have husable : ensureUsable s = .ok () := ensureUsable_ok.mpr hs.usable
  have hscan : nextWinnerMatching wanted after before chain s = scanWinners s chain wanted
      ((s.semantic.winnerOrder.zipIdx.take before).drop (after.elim 0 (· + 1))) := by
    unfold nextWinnerMatching
    rw [husable, ok_bind]
    cases after with
    | none => rfl
    | some ordinal =>
      have := hafter ordinal rfl
      unfold maxRetainedWinners at this
      have hnext : checkedAdd 64 ordinal 1 = some (ordinal + 1) := checkedAdd_of_lt (by omega)
      dsimp only
      rw [hnext]
      rfl
  rw [hscan, scanWinners_eq hs, zipIdx_take_drop]
  · congr 2
    unfold winnersBelow
    rw [filter_filterMap, filterMap_filter]
    refine filterMap_congr ?_
    intro indexed _
    rw [Nat.zero_add]
    cases hpick : pickWinner s chain wanted indexed with
    | none => split <;> rfl
    | some winner =>
      obtain ⟨_, _, _, hindex⟩ := pickWinner_eq_some.mp hpick
      rw [hindex]
      by_cases hle : after.elim 0 (· + 1) ≤ winner.1
      · rw [if_pos (decide_eq_true hle)]
        exact (if_pos (decide_eq_true hle)).symm
      · have hfalse : ¬ decide (after.elim 0 (· + 1) ≤ winner.1) = true := by simpa using hle
        rw [if_neg hfalse]
        exact (if_neg hfalse).symm
  · intro indexed hmem
    have hmem := mem_of_mem_drop hmem
    exact mem_of_getElem? (mem_zipIdx_take.mp hmem).1

end Wolf.PoolActor
