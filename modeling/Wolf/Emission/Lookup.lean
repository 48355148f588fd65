import Wolf.Framework.FloorDecay
import Wolf.Emission.Schedule

/-! # The subsidy lookup refines the recurrence

Along the canonical schedule the counter passes three phases:

* slow start: the counter is zero;
* the curve: what remains of the scale decays by the fraction
  `5 / 2 ^ 22` per block, as long as the reward exceeds the tail;
* the tail: the reward is the tail subsidy and the counter runs up to
  its cap.

The curve ends exactly at `FIRST_TAIL_HEIGHT`. What remains there is
within 0.0007 % of the threshold, which rounding would blur over the
3.4 million blocks of the curve; so the power bounds carry the bracket
to 557056 blocks before the end, and single steps from there. -/

namespace Wolf.Emission

open List

variable {counter height subsidy value : Nat}

/-! ## One block -/

theorem tryFrom_of_lt {w : Nat} (h : value < 2 ^ w) : tryFrom w value = some value :=
  if_pos h

theorem subsidyAtoms_ramp (h : height ≤ slowStartBlocks) :
    subsidyAtoms height 0 = .ok (rampPeak * height / slowStartBlocks) := by
  have hlt : rampPeak * height / slowStartBlocks < 2 ^ 64 := by
    unfold rampPeak slowStartBlocks at *
    omega
  rw [subsidyAtoms, rejectIf_bind (by simp), if_pos h,
    rejectIf_bind (by simp), tryFrom_of_lt hlt, okOr_some]

/-- The reward of the curve when `remaining` units are left. -/
def curveReward (remaining : Nat) : Nat :=
  emissionNumerator * remaining / emissionDenominator

/-- The subsidy after the ramp. -/
theorem subsidyAtoms_curve (h : slowStartBlocks < height) (hcounter : counter ≤ mainEmissionScale) :
    subsidyAtoms height counter =
      .ok (max (curveReward (mainEmissionScale - counter)) tailSubsidy) := by
  have hlt : emissionNumerator * (mainEmissionScale - counter) / emissionDenominator < 2 ^ 64 := by
    unfold emissionNumerator mainEmissionScale emissionDenominator at *
    omega
  rw [subsidyAtoms, rejectIf_bind (Nat.not_lt.mpr hcounter),
    if_neg (Nat.not_le.mpr h)]
  dsimp only
  rw [tryFrom_of_lt hlt, okOr_bind]
  rfl

theorem advanceCurveCounter_ramp (h : height ≤ slowStartBlocks) :
    advanceCurveCounter height 0 subsidy = .ok 0 := by
  rw [advanceCurveCounter, rejectIf_bind (by simp), if_pos h,
    rejectIf_bind (by simp)]

theorem advanceCurveCounter_curve (h : slowStartBlocks < height)
    (hcounter : counter ≤ mainEmissionScale) (hsubsidy : subsidy < 2 ^ 32) :
    advanceCurveCounter height counter subsidy =
      .ok (min (counter + subsidy) mainEmissionScale) := by
  have hlt : counter + subsidy < 2 ^ 64 := by
    unfold mainEmissionScale at hcounter
    omega
  rw [advanceCurveCounter, rejectIf_bind (Nat.not_lt.mpr hcounter),
    if_neg (Nat.not_le.mpr h), checkedAdd_of_lt hlt, okOr_bind]

/-! ## The recurrence never fails -/

/-- The curve counter is in range, and zero through slow start. -/
structure CounterInv (height counter : Nat) : Prop where
  le_scale : counter ≤ mainEmissionScale
  ramp_zero : height ≤ slowStartBlocks → counter = 0

/-- At a canonical counter both functions succeed, the subsidy fits in 32
bits, and the next counter is canonical. -/
theorem CounterInv.step (h : CounterInv height counter) :
    ∃ subsidy next, subsidyAtoms height counter = .ok subsidy ∧ subsidy < 2 ^ 32 ∧
      advanceCurveCounter height counter subsidy = .ok next ∧ CounterInv (height + 1) next := by
  by_cases hramp : height ≤ slowStartBlocks
  · obtain rfl := h.ramp_zero hramp
    refine ⟨_, 0, subsidyAtoms_ramp hramp, ?_, advanceCurveCounter_ramp hramp, ?_⟩
    · unfold rampPeak slowStartBlocks at *
      omega
    · exact ⟨Nat.zero_le _, fun _ => rfl⟩
  · have hcurve : slowStartBlocks < height := Nat.not_le.mp hramp
    have hlt : max (curveReward (mainEmissionScale - counter)) tailSubsidy < 2 ^ 32 := by
      unfold curveReward emissionNumerator emissionDenominator mainEmissionScale tailSubsidy
      omega
    refine ⟨_, _, subsidyAtoms_curve hcurve h.le_scale, hlt,
      advanceCurveCounter_curve hcurve h.le_scale hlt, ?_⟩
    exact ⟨Nat.min_le_right _ _, fun hle => by omega⟩

/-- The canonical counter exists at every height. -/
theorem curveCounter_ok :
    ∃ counter, curveCounter height = .ok counter ∧ CounterInv height counter := by
  induction height with
  | zero => exact ⟨0, rfl, Nat.zero_le _, fun _ => rfl⟩
  | succ height ih =>
    obtain ⟨counter, hcounter, hinv⟩ := ih
    obtain ⟨subsidy, next, hsubsidy, _, hnext, hinv'⟩ := hinv.step
    refine ⟨next, ?_, hinv'⟩
    rw [curveCounter, hcounter, ok_bind, hsubsidy, ok_bind, hnext]

theorem curveCounter_ramp (h : height ≤ slowStartBlocks + 1) : curveCounter height = .ok 0 := by
  induction height with
  | zero => rfl
  | succ height ih =>
    have hle : height ≤ slowStartBlocks := by omega
    rw [curveCounter, ih (by omega), ok_bind, subsidyAtoms_ramp hle, ok_bind,
      advanceCurveCounter_ramp hle]

/-! ## The end of the curve -/

/-- What remains of the scale after `k` blocks of the curve. -/
def remainingAfter (k : Nat) : Nat :=
  (decay emissionNumerator emissionDenominator)^[k] mainEmissionScale

/-- Blocks of the curve before the first tail block. -/
def curveBlocks : Nat := firstTailHeight - (slowStartBlocks + 1)

/-- The least remainder with a reward above the tail. -/
def tailThreshold : Nat := 31457280838861

theorem curveReward_gt_tail_iff (remaining : Nat) :
    tailSubsidy < curveReward remaining ↔ tailThreshold ≤ remaining := by
  unfold tailSubsidy curveReward emissionNumerator emissionDenominator tailThreshold
  omega

theorem remainingAfter_succ (k : Nat) :
    remainingAfter (k + 1) = remainingAfter k - curveReward (remainingAfter k) :=
  Function.iterate_succ_apply' _ _ _

theorem remainingAfter_antitone : Antitone remainingAfter := by
  apply antitone_nat_of_succ_le
  intro k
  rw [remainingAfter_succ]
  exact Nat.sub_le _ _

theorem remainingAfter_le (k : Nat) : remainingAfter k ≤ mainEmissionScale :=
  remainingAfter_antitone (Nat.zero_le k)

/-- Unit of the fixed-point powers. -/
def powScale : Nat := 2 ^ 100

/-- The fraction kept per block, in that unit. -/
def powBase : Nat := (emissionDenominator - emissionNumerator) * 2 ^ 78

theorem rate_eq : (1 - emissionNumerator / emissionDenominator : ℚ) = powBase / powScale := by
  have hbase : (powBase : ℚ) = (4194304 - 5) * 2 ^ 78 := by
    unfold powBase emissionDenominator emissionNumerator
    push_cast
    norm_num
  have hscale : (powScale : ℚ) = 4194304 * 2 ^ 78 := by
    unfold powScale
    push_cast
    norm_num
  rw [hbase, hscale, mul_div_mul_right _ _ (by positivity)]
  norm_num [emissionNumerator, emissionDenominator]

theorem powScale_pos : 0 < powScale := by decide

/-- A lower bound that the rounded power confirms. -/
theorem bound_le_remainingAfter {n bound : Nat} (hn : n < 2 ^ 22)
    (hcheck : bound * powScale ≤ fixedPow powScale powBase 0 22 n * mainEmissionScale) :
    bound ≤ remainingAfter n := by
  have hpow : (fixedPow powScale powBase 0 22 n : ℚ) ≤ ((powBase : ℚ) / powScale) ^ n * powScale :=
    fixedPow_le_pow powScale_pos hn
  have hdecay := iterate_decay_ge (a := emissionNumerator) (b := emissionDenominator)
    (by decide) (by decide) n mainEmissionScale
  rw [rate_eq] at hdecay
  have hscale : (0 : ℚ) < powScale := by exact_mod_cast powScale_pos
  have hcheck' : (bound : ℚ) * powScale ≤ fixedPow powScale powBase 0 22 n * mainEmissionScale := by
    exact_mod_cast hcheck
  have hchain : (bound : ℚ) * powScale ≤ (remainingAfter n : ℚ) * powScale := by
    calc (bound : ℚ) * powScale
        ≤ fixedPow powScale powBase 0 22 n * mainEmissionScale := hcheck'
      _ ≤ ((powBase : ℚ) / powScale) ^ n * powScale * mainEmissionScale :=
          mul_le_mul_of_nonneg_right hpow (Nat.cast_nonneg _)
      _ = ((powBase : ℚ) / powScale) ^ n * mainEmissionScale * powScale := by ring
      _ ≤ (remainingAfter n : ℚ) * powScale := mul_le_mul_of_nonneg_right hdecay hscale.le
  exact_mod_cast le_of_mul_le_mul_right hchain hscale

/-- One block before the tail the reward still exceeds the tail subsidy:
the geometric lower bound is 0.0002 % above the threshold. -/
theorem tailThreshold_le_remaining : tailThreshold ≤ remainingAfter (curveBlocks - 1) :=
  bound_le_remainingAfter (by decide) (by decide +kernel)

/-- Blocks at the end of the curve that are run one by one. -/
def singleBlocks : Nat := 557056

/-- The bound carried to the block where the single steps start. -/
def carriedBound : Nat := 61111089713477

/-- An upper bound that the rounded power confirms: `9223372032660472` is
five times the scale less the offset `2 ^ 22 - 1`. -/
theorem remainingAfter_le_bound {n bound : Nat} (hn : n < 2 ^ 22)
    (hcheck : 4194303 * powScale + fixedPow powScale powBase 1 22 n * 9223372032660472 ≤
      bound * (5 * powScale)) : remainingAfter n ≤ bound := by
  have hpow : ((powBase : ℚ) / powScale) ^ n * powScale ≤ fixedPow powScale powBase 1 22 n :=
    pow_le_fixedPow powScale_pos hn
  have hdecay := iterate_decay_le (a := emissionNumerator) (b := emissionDenominator)
    (by decide) (by decide) n mainEmissionScale
  rw [rate_eq] at hdecay
  have hscale : (0 : ℚ) < powScale := by exact_mod_cast powScale_pos
  have hnum : (emissionNumerator : ℚ) = 5 := rfl
  have hden : (emissionDenominator : ℚ) = 4194304 := rfl
  have hmain : (mainEmissionScale : ℚ) = 1844674407370955 := rfl
  have hcheck' : (4194303 : ℚ) * powScale + fixedPow powScale powBase 1 22 n * 9223372032660472 ≤
      bound * (5 * powScale) := by
    exact_mod_cast hcheck
  rw [hnum, hden, hmain] at hdecay
  have hchain : (remainingAfter n : ℚ) * (5 * powScale) ≤ bound * (5 * powScale) := by
    calc (remainingAfter n : ℚ) * (5 * powScale)
        ≤ ((4194304 - 1) / 5 + ((powBase : ℚ) / powScale) ^ n *
            (1844674407370955 - (4194304 - 1) / 5)) * (5 * powScale) :=
          mul_le_mul_of_nonneg_right hdecay (by positivity)
      _ = 4194303 * powScale +
            ((powBase : ℚ) / powScale) ^ n * powScale * 9223372032660472 := by ring
      _ ≤ 4194303 * powScale + fixedPow powScale powBase 1 22 n * 9223372032660472 := by gcongr
      _ ≤ bound * (5 * powScale) := hcheck'
  exact_mod_cast le_of_mul_le_mul_right hchain (by positivity)

/-- At the first tail block the reward of the curve is at most the tail
subsidy. -/
theorem remaining_lt_tailThreshold : remainingAfter curveBlocks < tailThreshold := by
  have hrun : decayBlocks emissionNumerator emissionDenominator 8704 carriedBound <
      tailThreshold := by
    decide +kernel
  have hsplit : remainingAfter curveBlocks =
      (decay emissionNumerator emissionDenominator)^[64 * 8704]
        (remainingAfter (curveBlocks - singleBlocks)) := by
    rw [remainingAfter, remainingAfter, ← Function.iterate_add_apply]
    rfl
  rw [decayBlocks_eq] at hrun
  rw [hsplit]
  refine Nat.lt_of_le_of_lt ?_ hrun
  exact (decay_mono (by decide) (by decide)).iterate _
    (remainingAfter_le_bound (by decide) (by decide +kernel))

/-! ## The three phases -/

theorem slowStart_lt_firstTail : slowStartBlocks < firstTailHeight := by
  unfold slowStartBlocks firstTailHeight
  omega

theorem tailSubsidy_lt : tailSubsidy < 2 ^ 32 := by
  unfold tailSubsidy
  omega

/-- On the curve the counter is the part of the scale already paid out. -/
theorem curveCounter_curve {k : Nat} (hk : k ≤ curveBlocks) :
    curveCounter (slowStartBlocks + 1 + k) = .ok (mainEmissionScale - remainingAfter k) := by
  induction k with
  | zero =>
    have hzero : remainingAfter 0 = mainEmissionScale := rfl
    rw [Nat.add_zero, curveCounter_ramp (Nat.le_refl _), hzero, Nat.sub_self]
  | succ k ih =>
    have hthreshold : tailThreshold ≤ remainingAfter k :=
      Nat.le_trans tailThreshold_le_remaining (remainingAfter_antitone (by omega))
    have htail := (curveReward_gt_tail_iff _).mpr hthreshold
    have hle := remainingAfter_le k
    have hpaid : mainEmissionScale - (mainEmissionScale - remainingAfter k) =
        remainingAfter k := by omega
    have hlt : curveReward (remainingAfter k) < 2 ^ 32 := by
      unfold curveReward emissionNumerator emissionDenominator mainEmissionScale at *
      omega
    have hcurve : slowStartBlocks < slowStartBlocks + 1 + k := by omega
    rw [← Nat.add_assoc, curveCounter, ih (by omega), ok_bind,
      subsidyAtoms_curve hcurve (Nat.sub_le _ _), ok_bind, hpaid, Nat.max_eq_left htail.le,
      advanceCurveCounter_curve hcurve (Nat.sub_le _ _) hlt, remainingAfter_succ]
    apply congrArg Except.ok
    have hreward : curveReward (remainingAfter k) ≤ remainingAfter k := by
      unfold curveReward emissionNumerator emissionDenominator
      omega
    omega

/-- Too little remains for the curve to pay more than the tail. -/
theorem curveReward_le_tail {remaining : Nat} (h : remaining < tailThreshold) :
    curveReward remaining ≤ tailSubsidy := by
  apply Nat.not_lt.mp
  rw [curveReward_gt_tail_iff]
  exact Nat.not_le.mpr h

/-- From the first tail height on, the counter leaves too little for the
curve to pay more than the tail. -/
theorem curveCounter_tail (h : firstTailHeight ≤ height) :
    ∃ counter, curveCounter height = .ok counter ∧ counter ≤ mainEmissionScale ∧
      mainEmissionScale - counter < tailThreshold := by
  obtain ⟨k, rfl⟩ := Nat.exists_eq_add_of_le h
  induction k with
  | zero =>
    have hle := remainingAfter_le curveBlocks
    have hlt := remaining_lt_tailThreshold
    have hend : firstTailHeight + 0 = slowStartBlocks + 1 + curveBlocks := by decide
    rw [hend]
    refine ⟨_, curveCounter_curve (Nat.le_refl curveBlocks), Nat.sub_le _ _, ?_⟩
    omega
  | succ k ih =>
    obtain ⟨counter, hcounter, hscale, hlt⟩ := ih (Nat.le_add_right _ _)
    have hcurve : slowStartBlocks < firstTailHeight + k :=
      Nat.lt_of_lt_of_le slowStart_lt_firstTail (Nat.le_add_right _ _)
    refine ⟨min (counter + tailSubsidy) mainEmissionScale, ?_, Nat.min_le_right _ _,
      by omega⟩
    rw [← Nat.add_assoc, curveCounter, hcounter, ok_bind, subsidyAtoms_curve hcurve hscale,
      ok_bind, Nat.max_eq_right (curveReward_le_tail hlt)]
    exact advanceCurveCounter_curve hcurve hscale tailSubsidy_lt

theorem subsidy_eq_tail (h : firstTailHeight ≤ height) :
    ∃ counter, curveCounter height = .ok counter ∧
      subsidyAtoms height counter = .ok tailSubsidy := by
  obtain ⟨counter, hcounter, hscale, hlt⟩ := curveCounter_tail h
  have hcurve : slowStartBlocks < height := Nat.lt_of_lt_of_le slowStart_lt_firstTail h
  refine ⟨counter, hcounter, ?_⟩
  rw [subsidyAtoms_curve hcurve hscale, Nat.max_eq_right (curveReward_le_tail hlt)]

/-! ## The table -/

/-- The table filled up to `n`: every entry is the subsidy of the
recurrence, and the loop carries its counter. -/
theorem buildStep_foldlM (n : Nat) :
    ∃ subsidies counter, (List.range n).foldlM buildStep ([], 0) = .ok (subsidies, counter) ∧
      curveCounter n = .ok counter ∧ subsidies.length = n ∧
      ∀ height, height < n → ∃ c subsidy, curveCounter height = .ok c ∧
        subsidyAtoms height c = .ok subsidy ∧ subsidies[height]? = some subsidy := by
  induction n with
  | zero => exact ⟨[], 0, rfl, rfl, rfl, fun _ h => absurd h (Nat.not_lt_zero _)⟩
  | succ n ih =>
    obtain ⟨subsidies, counter, hfold, hcounter, hlen, hentries⟩ := ih
    obtain ⟨counter', hcounter', hinv⟩ := curveCounter_ok
    obtain rfl : counter = counter' := Except.ok.inj (hcounter.symm.trans hcounter')
    obtain ⟨subsidy, next, hsubsidy, hlt, hnext, _⟩ := hinv.step
    refine ⟨subsidies ++ [subsidy], next, ?_, ?_, by simp [hlen], ?_⟩
    · rw [range_succ, foldlM_append, hfold, ok_bind]
      simp only [foldlM_cons, foldlM_nil, buildStep, expect, hsubsidy, hnext, mapErr_ok,
        ok_bind, tryFrom_of_lt hlt, okOr_some]
      rfl
    · rw [curveCounter, hcounter, ok_bind, hsubsidy, ok_bind, hnext]
    · intro height hheight
      rcases Nat.lt_or_eq_of_le (Nat.le_of_lt_succ hheight) with hlt' | rfl
      · obtain ⟨c, s, hc, hs, hentry⟩ := hentries height hlt'
        refine ⟨c, s, hc, hs, ?_⟩
        rw [List.getElem?_append_left (by omega)]
        exact hentry
      · refine ⟨counter, subsidy, hcounter, hsubsidy, ?_⟩
        rw [List.getElem?_append_right (by omega), hlen, Nat.sub_self]
        rfl

/-- Building the table ends without a panic, debug assertions included. -/
theorem buildPreTailSubsidies_ok :
    ∃ subsidies, buildPreTailSubsidies = .ok subsidies ∧
      ∀ height, height < firstTailHeight → ∃ c subsidy, curveCounter height = .ok c ∧
        subsidyAtoms height c = .ok subsidy ∧ subsidies[height]? = some subsidy := by
  obtain ⟨subsidies, counter, hfold, hcounter, hlen, hentries⟩ := buildStep_foldlM firstTailHeight
  obtain ⟨counter', hcounter', htail⟩ := subsidy_eq_tail (Nat.le_refl firstTailHeight)
  obtain rfl : counter = counter' := Except.ok.inj (hcounter.symm.trans hcounter')
  refine ⟨subsidies, ?_, hentries⟩
  rw [buildPreTailSubsidies, hfold, ok_bind]
  dsimp only
  rw [rejectIf_bind (not_not.mpr hlen), rejectIf_bind (not_not.mpr htail)]

theorem amountTryFrom_of_lt (h : value < 2 ^ 32) : amountTryFrom value = .ok value := by
  have hmoney : ¬ maxMoney < value := by
    unfold maxMoney
    omega
  rw [amountTryFrom, rejectIf_bind (not_not.mpr (by omega)),
    rejectIf_bind hmoney]

/-- The lookup returns the subsidy of the recurrence. -/
theorem blockSubsidy_eq (hcounter : curveCounter height = .ok counter)
    (hsubsidy : subsidyAtoms height counter = .ok subsidy) : blockSubsidy height = .ok subsidy := by
  rw [blockSubsidy]
  by_cases htail : firstTailHeight ≤ height
  · obtain ⟨c, hc, hs⟩ := subsidy_eq_tail htail
    obtain rfl : counter = c := Except.ok.inj (hcounter.symm.trans hc)
    obtain rfl : subsidy = tailSubsidy := Except.ok.inj (hsubsidy.symm.trans hs)
    rw [if_pos htail]
    exact amountTryFrom_of_lt tailSubsidy_lt
  · obtain ⟨subsidies, hbuild, hentries⟩ := buildPreTailSubsidies_ok
    obtain ⟨c, s, hc, hs, hentry⟩ := hentries height (Nat.not_le.mp htail)
    obtain rfl : counter = c := Except.ok.inj (hcounter.symm.trans hc)
    obtain rfl : subsidy = s := Except.ok.inj (hsubsidy.symm.trans hs)
    obtain ⟨c', hc', hinv⟩ := curveCounter_ok
    obtain rfl : counter = c' := Except.ok.inj (hcounter.symm.trans hc')
    obtain ⟨s', _, hs', hlt, _⟩ := hinv.step
    obtain rfl : subsidy = s' := Except.ok.inj (hsubsidy.symm.trans hs')
    rw [if_neg htail, hbuild, ok_bind, hentry, okOr_bind]
    exact amountTryFrom_of_lt hlt

/-- The subsidy lookup refines the recurrence: at every height the
recurrence succeeds and the lookup returns its subsidy; building the
table hits none of its panics; the tail subsidy is reached first at
`FIRST_TAIL_HEIGHT` after slow start and is kept from there on. -/
theorem lookup_refines_recurrence :
    (∀ height < 2 ^ 32, ∃ counter subsidy next,
      curveCounter height = .ok counter ∧ subsidyAtoms height counter = .ok subsidy ∧
        advanceCurveCounter height counter subsidy = .ok next ∧
        blockSubsidy height = .ok subsidy) ∧
    (∃ subsidies, buildPreTailSubsidies = .ok subsidies) ∧
    (∀ height, slowStartBlocks < height → height < firstTailHeight →
      blockSubsidy height ≠ .ok tailSubsidy) ∧
    (∀ height < 2 ^ 32, firstTailHeight ≤ height → blockSubsidy height = .ok tailSubsidy) := by
  refine ⟨?_, ?_, ?_, ?_⟩
  · intro height _
    obtain ⟨counter, hcounter, hinv⟩ := curveCounter_ok
    obtain ⟨subsidy, next, hsubsidy, _, hnext, _⟩ := hinv.step
    exact ⟨counter, subsidy, next, hcounter, hsubsidy, hnext, blockSubsidy_eq hcounter hsubsidy⟩
  · obtain ⟨subsidies, hbuild, _⟩ := buildPreTailSubsidies_ok
    exact ⟨subsidies, hbuild⟩
  · intro height hramp htail
    -- Before the tail every reward of the curve exceeds the tail subsidy.
    obtain ⟨k, rfl⟩ := Nat.exists_eq_add_of_le (Nat.succ_le_of_lt hramp)
    have hk : k ≤ curveBlocks - 1 := by
      unfold curveBlocks
      omega
    have hle := remainingAfter_le k
    have hpaid : mainEmissionScale - (mainEmissionScale - remainingAfter k) =
        remainingAfter k := by omega
    have hgt := (curveReward_gt_tail_iff _).mpr
      (Nat.le_trans tailThreshold_le_remaining (remainingAfter_antitone hk))
    rw [blockSubsidy_eq (curveCounter_curve (by omega))
      (subsidyAtoms_curve hramp (Nat.sub_le _ _)), hpaid]
    intro heq
    exact Nat.ne_of_gt (Nat.lt_of_lt_of_le hgt (Nat.le_max_left _ _)) (Except.ok.inj heq)
  · intro height _ htail
    obtain ⟨counter, hcounter, hsubsidy⟩ := subsidy_eq_tail htail
    exact blockSubsidy_eq hcounter hsubsidy

end Wolf.Emission
