import Wolf.Difficulty.Compact
import Wolf.Framework.Median

/-! # Difficulty adjustment

The target of a block is the mean target of the 17 blocks before it,
scaled by the time that they took. That time is the difference of two
medians, damped and clamped.

* `adjustment_is_exact`: it is defined, exact and monotone. -/

namespace Wolf.Difficulty

open List

/-! ## Networks and durations -/

inductive NetworkUpgrade where
  | genesis
  | beforeOverwinter
  | overwinter
  | sapling
  | blossom
  | heartwood
  | canopy
  | nu5
  | nu6
  | nu6_1
  | nu6_2
  | nu6_3
  | nu7
  deriving DecidableEq

/-- A duration in nanoseconds. -/
abbrev Duration : Type := Int

def Duration.ofSeconds (seconds : Int) : Duration := seconds * 10 ^ 9

/-- `num_seconds`, which rounds towards zero. -/
def Duration.numSeconds (d : Duration) : Int := Int.tdiv d (10 ^ 9)

def powAveragingWindow : Nat := 17

def powMedianBlockSpan : Nat := 11

def powAdjustmentBlockSpan : Nat := powAveragingWindow + powMedianBlockSpan

def NetworkUpgrade.targetSpacing : NetworkUpgrade → Duration
  | .genesis | .beforeOverwinter | .overwinter | .sapling => .ofSeconds 150
  | .blossom | .heartwood | .canopy | .nu5 | .nu6 | .nu6_1 | .nu6_2 | .nu6_3 | .nu7 =>
    .ofSeconds 75

def NetworkUpgrade.averagingWindowTimespan (upgrade : NetworkUpgrade) : Duration :=
  upgrade.targetSpacing * (powAveragingWindow : Int)

/-- What the adjustment reads of a network. The upgrade that is current at
a height comes from its activation list. -/
structure Network where
  isRegtest : Bool
  isATestNetwork : Bool
  targetDifficultyLimit : Nat
  minimumDifficultyStartHeight : Option Nat
  current : Nat → NetworkUpgrade

def Network.isTestnetMinDifficultyBlock (net : Network) (blockHeight : Nat)
    (blockTime previousBlockTime : Int) : Bool :=
  match net.minimumDifficultyStartHeight with
  | none => false
  | some startHeight =>
    if blockHeight < startHeight then false
    else
      decide ((net.current blockHeight).targetSpacing * 6 <
        Duration.ofSeconds (blockTime - previousBlockTime))

/-! ## The adjustment -/

/-- `AdjustedDifficulty`. Block times are whole seconds. -/
structure AdjustedDifficulty where
  candidateTime : Int
  candidateHeight : Nat
  network : Network
  relevantDifficultyThresholds : List CompactDifficulty
  relevantTimes : List Int
  thresholds_pos : 1 ≤ relevantDifficultyThresholds.length
  thresholds_le : relevantDifficultyThresholds.length ≤ powAdjustmentBlockSpan
  times_pos : 1 ≤ relevantTimes.length
  times_le : relevantTimes.length ≤ powAdjustmentBlockSpan

namespace AdjustedDifficulty

variable (d : AdjustedDifficulty)

/-- `averaging_window_timespan_for_height` for the candidate. -/
def averagingWindowTimespan : Duration :=
  (d.network.current d.candidateHeight).averagingWindowTimespan

/-- The conversion of a signed number to a 256-bit number. -/
def toU256 (n : Int) : Except Panic Nat := if 0 ≤ n then .ok n.toNat else .error .negative

/-- The sum of `mean_target_difficulty`. -/
def sumExpanded (thresholds : List CompactDifficulty) : Except Panic Nat :=
  thresholds.foldlM (fun total compact => do
    let expanded ← toExpanded compact
    let expanded ← okOr expanded .invalidThreshold
    u256 (total + expanded)) 0

def meanTargetDifficulty : Except Panic Nat :=
  if powAveragingWindow ≤ d.relevantDifficultyThresholds.length then do
    let total ← sumExpanded (d.relevantDifficultyThresholds.take powAveragingWindow)
    .ok (total / powAveragingWindow)
  else .ok d.network.targetDifficultyLimit

def medianTime (medianBlockSpanTimes : List Int) : Except Panic Int :=
  okOr (median medianBlockSpanTimes) .emptyContext

def medianTimePast : Except Panic Int := medianTime (d.relevantTimes.take powMedianBlockSpan)

def medianTimespan : Except Panic Duration := do
  let newerMedian ← d.medianTimePast
  let olderMedian ←
    if powAveragingWindow < d.relevantTimes.length then
      medianTime ((d.relevantTimes.drop powAveragingWindow).take powMedianBlockSpan)
    else okOr d.relevantTimes.getLast? .emptyContext
  .ok (.ofSeconds (newerMedian - olderMedian))

/-- `median_timespan_bounded`. On whole seconds the divisions by 4 and 100
leave nothing below a nanosecond. -/
def medianTimespanBounded : Except Panic Duration := do
  let window := d.averagingWindowTimespan
  let timespan ← d.medianTimespan
  let dampedVariance := Duration.ofSeconds (Duration.numSeconds (Int.tdiv (timespan - window) 4))
  let medianTimespanDamped := window + dampedVariance
  let minMedianTimespan := Int.tdiv (window * (100 - 16)) 100
  let maxMedianTimespan := Int.tdiv (window * (100 + 32)) 100
  .ok (max minMedianTimespan (min maxMedianTimespan medianTimespanDamped))

def thresholdBits : Except Panic CompactDifficulty := do
  let mean ← d.meanTargetDifficulty
  let divisor ← toU256 d.averagingWindowTimespan.numSeconds
  rejectIf (divisor = 0) .divisionByZero
  let timespan ← d.medianTimespanBounded
  let factor ← toU256 timespan.numSeconds
  let threshold ← u256 (mean / divisor * factor)
  toCompact (min d.network.targetDifficultyLimit threshold)

def expectedDifficultyThreshold : Except Panic CompactDifficulty :=
  if d.network.isRegtest then toCompact d.network.targetDifficultyLimit
  else
    match d.relevantTimes.head? with
    | none => .error .emptyContext
    | some previousBlockTime =>
      if d.network.isTestnetMinDifficultyBlock d.candidateHeight d.candidateTime
          previousBlockTime then
        if d.network.isATestNetwork then toCompact d.network.targetDifficultyLimit
        else .error .notATestNetwork
      else d.thresholdBits

/-! ## What the result depends on -/

/-- The averaging window in seconds. -/
def window : Nat := d.averagingWindowTimespan.numSeconds.toNat

/-- The number a threshold expands to. -/
def expandedValue (c : CompactDifficulty) : Nat :=
  match toExpanded c with
  | .ok (some e) => e
  | _ => 0

/-- The mean of the 17 newest thresholds, or the limit if there are
fewer. -/
def mean : Nat :=
  if d.relevantDifficultyThresholds.length < powAveragingWindow then
    d.network.targetDifficultyLimit
  else
    ((d.relevantDifficultyThresholds.take powAveragingWindow).map expandedValue).sum /
      powAveragingWindow

/-- The median of the 11 newest times. -/
def newerMedian : Option Int := median (d.relevantTimes.take powMedianBlockSpan)

/-- The median of the times that follow the 17 newest ones, or the oldest
time if there are none. -/
def olderMedian : Option Int :=
  if powAveragingWindow < d.relevantTimes.length then
    median ((d.relevantTimes.drop powAveragingWindow).take powMedianBlockSpan)
  else d.relevantTimes.getLast?

/-- The damped timespan, clamped. -/
def boundedTimespan (window : Nat) (timespan : Int) : Int :=
  max (84 * window / 100) (min (132 * window / 100) (window + Int.tdiv (timespan - window) 4))

/-- The thresholds of the context are below the limit of the network, and
their mean is not too small. -/
structure Adjustable (d : AdjustedDifficulty) : Prop where
  limit : d.network.targetDifficultyLimit ≤ 2 ^ 251 - 1
  thresholds : ∀ c ∈ d.relevantDifficultyThresholds, ∃ e, toExpanded c = .ok (some e) ∧
    e ≤ d.network.targetDifficultyLimit
  mean : d.window ≤ d.mean

/-! ## The parts -/

section Parts

variable {d} {thresholds : List CompactDifficulty} {d' : AdjustedDifficulty} {c : CompactDifficulty}
  {window limit : Nat} {timespan timespan' : Int}

/-- There are two averaging windows. -/
theorem averagingWindowTimespan_eq (d : AdjustedDifficulty) :
    d.averagingWindowTimespan = .ofSeconds d.window ∧ (d.window = 2550 ∨ d.window = 1275) := by
  unfold window averagingWindowTimespan
  cases d.network.current d.candidateHeight <;>
    simp [NetworkUpgrade.averagingWindowTimespan, NetworkUpgrade.targetSpacing, Duration.ofSeconds,
      Duration.numSeconds, powAveragingWindow]

@[simp]
theorem numSeconds_ofSeconds (n : Int) : Duration.numSeconds (.ofSeconds n) = n :=
  Int.mul_tdiv_cancel n (by decide)

theorem expandedValue_of {e : Nat} (h : toExpanded c = .ok (some e)) : expandedValue c = e := by
  rw [expandedValue, h]

/-- Numbers below a bound add up to at most the bound for each. -/
theorem sum_expandedValue_le (h : ∀ c ∈ thresholds, expandedValue c ≤ limit) :
    (thresholds.map expandedValue).sum ≤ thresholds.length * limit := by
  induction thresholds with
  | nil => simp
  | cons c rest ih =>
    have hc := h c mem_cons_self
    have hrest := ih fun c hc => h c (mem_cons_of_mem _ hc)
    rw [map_cons, sum_cons, length_cons, Nat.add_mul]
    omega

/-- The sum does not overflow. -/
theorem sumExpanded_eq (h : ∀ c ∈ thresholds, ∃ e, toExpanded c = .ok (some e) ∧ e ≤ limit)
    (hfits : thresholds.length * limit < 2 ^ 256) :
    sumExpanded thresholds = .ok (thresholds.map expandedValue).sum := by
  induction thresholds using List.reverseRecOn with
  | nil => rfl
  | append_singleton thresholds c ih =>
    obtain ⟨e, hexpand, hle⟩ := h c (mem_append_right _ mem_cons_self)
    have hprefix : ∀ c ∈ thresholds, ∃ e, toExpanded c = .ok (some e) ∧ e ≤ limit :=
      fun c hc => h c (mem_append_left _ hc)
    rw [length_append, length_singleton, Nat.add_mul] at hfits
    have hsum := @sum_expandedValue_le thresholds limit fun c hc => by
      obtain ⟨e, hexpand, hle⟩ := hprefix c hc
      rw [expandedValue_of hexpand]
      exact hle
    have htotal : (thresholds.map expandedValue).sum + e < 2 ^ 256 := by omega
    have hrec := ih hprefix (by omega)
    unfold sumExpanded at hrec ⊢
    rw [foldlM_append, hrec]
    simp [hexpand, u256_of_lt htotal, expandedValue_of hexpand]

/-- The mean is at most the limit. -/
theorem Adjustable.mean_le (h : Adjustable d) : d.mean ≤ d.network.targetDifficultyLimit := by
  unfold AdjustedDifficulty.mean
  by_cases hshort : d.relevantDifficultyThresholds.length < powAveragingWindow
  · rw [if_pos hshort]
  · rw [if_neg hshort]
    have hlength : (d.relevantDifficultyThresholds.take powAveragingWindow).length =
        powAveragingWindow := by
      rw [length_take]
      omega
    have hsum := @sum_expandedValue_le (d.relevantDifficultyThresholds.take powAveragingWindow)
      d.network.targetDifficultyLimit (by
        intro c hc
        obtain ⟨e, hexpand, hle⟩ := h.thresholds c (mem_of_mem_take hc)
        rw [expandedValue_of hexpand]
        exact hle)
    rw [hlength] at hsum
    exact Nat.div_le_of_le_mul hsum

theorem Adjustable.meanTargetDifficulty_eq (h : Adjustable d) :
    d.meanTargetDifficulty = .ok d.mean := by
  unfold meanTargetDifficulty AdjustedDifficulty.mean
  by_cases hlong : powAveragingWindow ≤ d.relevantDifficultyThresholds.length
  · rw [if_pos hlong, if_neg (by omega)]
    have hlength : (d.relevantDifficultyThresholds.take powAveragingWindow).length = 17 := by
      rw [length_take]
      exact Nat.min_eq_left hlong
    have hlimit := h.limit
    rw [sumExpanded_eq (fun c hc => h.thresholds c (mem_of_mem_take hc))
      (by rw [hlength]; omega), ok_bind]
  · rw [if_neg hlong, if_pos (by omega)]

/-- The context has times, so both medians exist. -/
theorem exists_medians (d : AdjustedDifficulty) : ∃ newer older,
    d.newerMedian = some newer ∧ d.olderMedian = some older ∧
      d.medianTimespan = .ok (.ofSeconds (newer - older)) := by
  have hpos := d.times_pos
  obtain ⟨newer, hnewer⟩ := @median_eq_some Int _ (d.relevantTimes.take powMedianBlockSpan) (by
    rw [← length_pos_iff, length_take, powMedianBlockSpan]
    omega)
  have holder : ∃ older, d.olderMedian = some older := by
    unfold olderMedian
    by_cases hlong : powAveragingWindow < d.relevantTimes.length
    · rw [if_pos hlong]
      refine median_eq_some ?_
      rw [← length_pos_iff, length_take, length_drop, powMedianBlockSpan]
      omega
    · rw [if_neg hlong]
      have hne : d.relevantTimes ≠ [] := length_pos_iff.mp hpos
      exact ⟨_, List.getLast?_eq_getLast_of_ne_nil hne⟩
  obtain ⟨older, holder⟩ := holder
  refine ⟨newer, older, hnewer, holder, ?_⟩
  unfold medianTimespan medianTimePast medianTime
  rw [hnewer, okOr_bind]
  unfold olderMedian at holder
  by_cases hlong : powAveragingWindow < d.relevantTimes.length
  · rw [if_pos hlong] at holder ⊢
    rw [holder, okOr_bind]
  · rw [if_neg hlong] at holder ⊢
    rw [holder, okOr_bind]

/-- A quarter of whole seconds, rounded towards zero. -/
theorem numSeconds_quarter (n : Int) :
    Duration.numSeconds (Int.tdiv (Duration.ofSeconds n) 4) = Int.tdiv n 4 := by
  unfold Duration.numSeconds Duration.ofSeconds
  rcases Int.le_total 0 n with hn | hn
  · have hquarter : Int.tdiv (n * 10 ^ 9) 4 = n * 10 ^ 9 / 4 :=
      Int.tdiv_eq_ediv_of_nonneg (by omega)
    rw [Int.tdiv_eq_ediv_of_nonneg (by omega), Int.tdiv_eq_ediv_of_nonneg hn]
    omega
  · obtain ⟨m, rfl⟩ : ∃ m, n = -m := ⟨-n, by omega⟩
    have hquarter : Int.tdiv (m * 10 ^ 9) 4 = m * 10 ^ 9 / 4 :=
      Int.tdiv_eq_ediv_of_nonneg (by omega)
    rw [Int.neg_mul, Int.neg_tdiv, Int.neg_tdiv, Int.neg_tdiv, hquarter,
      Int.tdiv_eq_ediv_of_nonneg (show 0 ≤ m * 10 ^ 9 / 4 by omega),
      Int.tdiv_eq_ediv_of_nonneg (show 0 ≤ m by omega)]
    omega

/-- The bounded timespan in seconds. -/
theorem medianTimespanBounded_eq (h : d.medianTimespan = .ok (.ofSeconds timespan)) :
    ∃ bounded, d.medianTimespanBounded = .ok bounded ∧
      Duration.numSeconds bounded = boundedTimespan d.window timespan := by
  unfold medianTimespanBounded
  rw [h]
  refine ⟨_, rfl, ?_⟩
  have hdifference : Duration.ofSeconds timespan - Duration.ofSeconds d.window =
      Duration.ofSeconds (timespan - d.window) := (Int.sub_mul _ _ _).symm
  rw [(averagingWindowTimespan_eq d).1, hdifference, numSeconds_quarter]
  unfold boundedTimespan
  unfold Duration.numSeconds Duration.ofSeconds
  -- The clamp keeps whole seconds, up to what `num_seconds` cuts off.
  have hmin : Int.tdiv ((d.window : Int) * 10 ^ 9 * (100 - 16)) 100 =
      (d.window : Int) * 10 ^ 9 * (100 - 16) / 100 := Int.tdiv_eq_ediv_of_nonneg (by omega)
  have hmax : Int.tdiv ((d.window : Int) * 10 ^ 9 * (100 + 32)) 100 =
      (d.window : Int) * 10 ^ 9 * (100 + 32) / 100 := Int.tdiv_eq_ediv_of_nonneg (by omega)
  rw [Int.tdiv_eq_ediv_of_nonneg (le_max_of_le_left (by omega))]
  omega

theorem boundedTimespan_bounds (hwindow : window = 2550 ∨ window = 1275) (timespan : Int) :
    0 < boundedTimespan window timespan ∧ boundedTimespan window timespan ≤ 2 * window := by
  unfold boundedTimespan
  omega

theorem boundedTimespan_mono (h : timespan ≤ timespan') :
    boundedTimespan window timespan ≤ boundedTimespan window timespan' := by
  unfold boundedTimespan
  have hdiv : Int.tdiv (timespan - window) 4 ≤ Int.tdiv (timespan' - window) 4 :=
    Int.tdiv_le_tdiv (by decide) (by omega)
  omega

/-- A conversion of a positive number. -/
theorem toU256_of_nonneg {n : Int} (h : 0 ≤ n) : toU256 n = .ok n.toNat := if_pos h

/-- The threshold before it is compacted. -/
def threshold (d : AdjustedDifficulty) (timespan : Int) : Nat :=
  min d.network.targetDifficultyLimit
    (d.mean / d.window * (boundedTimespan d.window timespan).toNat)

/-- The threshold is positive and fits in 256 bits. -/
theorem Adjustable.threshold_bounds (h : Adjustable d) (timespan : Int) :
    d.mean / d.window * (boundedTimespan d.window timespan).toNat < 2 ^ 256 ∧
      0 < d.threshold timespan ∧ d.threshold timespan < 2 ^ 256 := by
  obtain ⟨_, hcases⟩ := averagingWindowTimespan_eq d
  have hwindow : 0 < d.window := by omega
  obtain ⟨hpos, hle⟩ := boundedTimespan_bounds hcases timespan
  have hmean := h.mean
  have hmeanLe := h.mean_le
  have hlimit := h.limit
  have hquotient : 1 ≤ d.mean / d.window := (Nat.one_le_div_iff hwindow).mpr hmean
  have hproduct : d.mean / d.window * (boundedTimespan d.window timespan).toNat ≤ 2 * d.mean :=
    calc
      d.mean / d.window * (boundedTimespan d.window timespan).toNat
        ≤ d.mean / d.window * (2 * d.window) := Nat.mul_le_mul_left _ (by omega)
      _ = 2 * (d.mean / d.window * d.window) := by ring
      _ ≤ 2 * d.mean := Nat.mul_le_mul_left _ (Nat.div_mul_le_self _ _)
  have hproductPos : 0 < d.mean / d.window * (boundedTimespan d.window timespan).toNat :=
    Nat.mul_pos hquotient (by omega)
  refine ⟨by omega, ?_, ?_⟩
  · exact Nat.lt_min.mpr ⟨by omega, hproductPos⟩
  · exact (Nat.min_le_left _ _).trans_lt (by omega)

/-- The result as a function of the mean and the two medians. -/
theorem Adjustable.thresholdBits_eq (h : Adjustable d) {newer older : Int}
    (hnewer : d.newerMedian = some newer) (holder : d.olderMedian = some older) :
    d.thresholdBits = toCompact (d.threshold (newer - older)) := by
  obtain ⟨newer', older', hnewer', holder', htimespan⟩ := exists_medians d
  obtain rfl : newer = newer' := Option.some.inj (hnewer.symm.trans hnewer')
  obtain rfl : older = older' := Option.some.inj (holder.symm.trans holder')
  obtain ⟨hwindow, hcases⟩ := averagingWindowTimespan_eq d
  obtain ⟨bounded, hbounded, hseconds⟩ := medianTimespanBounded_eq htimespan
  obtain ⟨hpos, _⟩ := boundedTimespan_bounds hcases (newer - older)
  obtain ⟨hfits, _, _⟩ := h.threshold_bounds (newer - older)
  have hdivisor : toU256 d.averagingWindowTimespan.numSeconds = .ok d.window := by
    rw [hwindow, numSeconds_ofSeconds]
    exact toU256_of_nonneg (by omega)
  unfold thresholdBits
  rw [h.meanTargetDifficulty_eq, ok_bind, hdivisor, ok_bind, rejectIf_bind (show ¬ d.window = 0 by
    omega), hbounded, ok_bind, hseconds, toU256_of_nonneg hpos.le, ok_bind, u256_of_lt hfits]
  rfl

end Parts

/-! ## The adjustment -/

/-- Two contexts for one network and height, whose thresholds are below the
limit. The threshold is defined and is the compact form of the scaled
mean. It depends on the thresholds only through their mean, and on the
times only through the two medians, where the oldest time stands for
the older median in a context of at most 17 blocks. Its expansion
grows with each threshold and with the newer median, and falls with
the older median. -/
theorem adjustment_is_exact {d d' : AdjustedDifficulty} (h : Adjustable d) (h' : Adjustable d')
    (hnetwork : d.network = d'.network) (hheight : d.candidateHeight = d'.candidateHeight) :
    ∃ newer older newer' older' bits bits' expanded expanded',
      d.newerMedian = some newer ∧ d.olderMedian = some older ∧
      d'.newerMedian = some newer' ∧ d'.olderMedian = some older' ∧
      d.thresholdBits = .ok bits ∧ d'.thresholdBits = .ok bits' ∧
      toCompact (min d.network.targetDifficultyLimit (d.mean / d.window *
        (boundedTimespan d.window (newer - older)).toNat)) = .ok bits ∧
      toExpanded bits = .ok (some expanded) ∧ toExpanded bits' = .ok (some expanded') ∧
      expanded ≤ d.network.targetDifficultyLimit ∧
      (d.mean = d'.mean → newer = newer' → older = older' → bits = bits') ∧
      (List.Forall₂ (fun c c' => expandedValue c ≤ expandedValue c')
          d.relevantDifficultyThresholds d'.relevantDifficultyThresholds →
        newer ≤ newer' → older' ≤ older → expanded ≤ expanded') := by
  obtain ⟨newer, older, hnewer, holder, _⟩ := exists_medians d
  obtain ⟨newer', older', hnewer', holder', _⟩ := exists_medians d'
  obtain ⟨_, hpos, hfits⟩ := h.threshold_bounds (newer - older)
  obtain ⟨_, hpos', hfits'⟩ := h'.threshold_bounds (newer' - older')
  obtain ⟨bits, hcompact, hexpand⟩ := expand_compact hpos hfits
  obtain ⟨bits', hcompact', hexpand'⟩ := expand_compact hpos' hfits'
  have hbits : d.thresholdBits = .ok bits := (h.thresholdBits_eq hnewer holder).trans hcompact
  have hbits' : d'.thresholdBits = .ok bits' :=
    (h'.thresholdBits_eq hnewer' holder').trans hcompact'
  have hwindow : d.window = d'.window := by
    unfold window averagingWindowTimespan
    rw [hnetwork, hheight]
  refine ⟨newer, older, newer', older', bits, bits', _, _, hnewer, holder, hnewer', holder', hbits,
    hbits', hcompact, hexpand, hexpand', ?_, ?_, ?_⟩
  · exact (roundDown_le).trans (Nat.min_le_left _ _)
  · intro hmean hnewerEq holderEq
    have hthreshold : d.threshold (newer - older) = d'.threshold (newer' - older') := by
      unfold threshold
      rw [hnetwork, hwindow, hmean, hnewerEq, holderEq]
    rw [hthreshold, hcompact'] at hcompact
    exact (Except.ok.inj hcompact).symm
  · intro hthresholds hnewerLe holderLe
    -- The threshold grows with the mean and with the timespan.
    have htimespan : newer - older ≤ newer' - older' := by omega
    have hbounded := @boundedTimespan_mono d'.window _ _ htimespan
    apply roundDown_mono
    unfold threshold
    rw [hnetwork, hwindow]
    refine min_le_min_left _ (Nat.mul_le_mul (Nat.div_le_div_right ?_) (by omega))
    unfold mean
    rw [hnetwork, hthresholds.length_eq]
    split
    · exact le_refl _
    · have hwindow := forall₂_take powAveragingWindow hthresholds
      refine Nat.div_le_div_right ?_
      generalize d.relevantDifficultyThresholds.take powAveragingWindow = cs at hwindow
      generalize d'.relevantDifficultyThresholds.take powAveragingWindow = cs' at hwindow
      induction hwindow with
      | nil => exact le_refl _
      | cons hc _ ih =>
        exact Nat.add_le_add hc ih

/-- A network with the limit 2^243 - 1. -/
def sampleNetwork : Network where
  isRegtest := false
  isATestNetwork := true
  targetDifficultyLimit := 2 ^ 243 - 1
  minimumDifficultyStartHeight := none
  current := fun _ => .nu6_3

/-- A context of two blocks. -/
def sampleContext (oldest : Int) : AdjustedDifficulty where
  candidateTime := 11000
  candidateHeight := 2
  network := sampleNetwork
  relevantDifficultyThresholds := [⟨0x1e00ffff⟩, ⟨0x1e00ffff⟩]
  relevantTimes := [10000, oldest]
  thresholds_pos := by decide
  thresholds_le := by decide
  times_pos := by simp
  times_le := by simp [powAdjustmentBlockSpan, powAveragingWindow, powMedianBlockSpan]

theorem sampleContext_adjustable (oldest : Int) : Adjustable (sampleContext oldest) where
  limit := show 2 ^ 243 - 1 ≤ 2 ^ 251 - 1 by decide
  thresholds := by
    intro c hc
    obtain rfl : c = ⟨0x1e00ffff⟩ := by simpa [sampleContext] using hc
    exact ⟨65535 * 256 ^ 27, by decide,
      show 65535 * 256 ^ 27 ≤ 2 ^ 243 - 1 by decide⟩
  mean := by
    show (sampleContext 0).window ≤ (sampleContext 0).mean
    decide

/-- The target falls when the oldest block is later. -/
theorem adjustment_is_exact_sample :
    ∃ bits bits' expanded expanded', (sampleContext 9000).thresholdBits = .ok bits ∧
      (sampleContext 0).thresholdBits = .ok bits' ∧ toExpanded bits = .ok (some expanded) ∧
      toExpanded bits' = .ok (some expanded') ∧ expanded ≤ expanded' := by
  obtain ⟨newer, older, newer', older', bits, bits', expanded, expanded', hnewer, holder, hnewer',
    holder', hbits, hbits', _, hexpand, hexpand', _, _, hmono⟩ :=
    adjustment_is_exact (sampleContext_adjustable 9000) (sampleContext_adjustable 0) rfl rfl
  refine ⟨bits, bits', expanded, expanded', hbits, hbits', hexpand, hexpand', hmono ?_ ?_ ?_⟩
  · exact .cons (le_refl _) (.cons (le_refl _) .nil)
  · have hsame : (sampleContext 9000).newerMedian = (sampleContext 0).newerMedian := by
      decide
    rw [hnewer, hnewer'] at hsame
    exact (Option.some.inj hsame).le
  · cases holder
    cases holder'
    decide

/-- In a context of at most 17 blocks the result depends on the oldest time,
which is neither the median of the 11 newest times nor one of the times
after the 17 newest. -/
theorem short_context_reads_oldest_time :
    ∃ d d' : AdjustedDifficulty, Adjustable d ∧ Adjustable d' ∧ d.network = d'.network ∧
      d.candidateHeight = d'.candidateHeight ∧ d.mean = d'.mean ∧
      d.newerMedian = d'.newerMedian ∧
      (d.relevantTimes.drop powAveragingWindow).take powMedianBlockSpan =
        (d'.relevantTimes.drop powAveragingWindow).take powMedianBlockSpan ∧
      d.thresholdBits ≠ d'.thresholdBits :=
  ⟨sampleContext 0, sampleContext 9000, sampleContext_adjustable 0, sampleContext_adjustable 9000,
    rfl, rfl, rfl, by decide, rfl, by decide⟩

end AdjustedDifficulty

end Wolf.Difficulty
