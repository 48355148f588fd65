import Wolf.Framework.ByteOrder
import Wolf.AuxPow.Basic
import Wolf.PoolJournal.Table

/-! # Share targets of a job

The policy of `pool_backend.rs` for the targets that miners submit
shares against. A larger target is easier. The operator caps the
targets from above, the two networks of a job bound them from below.

* `share_target_keeps_winners`: no network winner misses an accepted
  target. -/

namespace Wolf.PoolActor

open PoolJournal AuxPow

/-! ## The policy -/

inductive PoolShareTargetPolicyError where
  | zeroOperatorTarget
  | zeroWcashNetworkTarget
  | zeroZcashNetworkTarget
  | operatorTargetExcludesNetworkWinner (required configured : TargetLe)
  | zeroSubmittedTarget
  | submittedTargetExcludesNetworkWinner (submitted required : TargetLe)
  | submittedTargetExceedsOperatorCeiling (submitted operatorEasiest : TargetLe)
  deriving DecidableEq

open PoolShareTargetPolicyError

abbrev isZero (t : TargetLe) : Prop := t = .fill 32 0

/-- `target_numeric_cmp`: `Iterator::cmp` from the most significant byte. -/
def targetNumericCmp (left right : TargetLe) : Ordering :=
  List.compareLex compare left.data.reverse right.data.reverse

def easierTarget (left right : TargetLe) : TargetLe :=
  if targetNumericCmp left right = .lt then right else left

/-- `PoolShareTargetPolicy`. The field is private in the source and set
only by `new`, whose check `nonzero` records. -/
structure PoolShareTargetPolicy where
  operatorEasiest : TargetLe
  nonzero : ¬ isZero operatorEasiest

def PoolShareTargetPolicy.new (operatorEasiest : TargetLe) :
    Except PoolShareTargetPolicyError PoolShareTargetPolicy :=
  if h : isZero operatorEasiest then .error zeroOperatorTarget else .ok ⟨operatorEasiest, h⟩

structure PoolShareTargetBounds where
  requiredNetwork : TargetLe
  operatorEasiest : TargetLe

namespace PoolShareTargetPolicy

def boundsForJob (policy : PoolShareTargetPolicy) (job : JobDescriptor) :
    Except PoolShareTargetPolicyError PoolShareTargetBounds := do
  rejectIf (isZero job.wcashTargetLe) zeroWcashNetworkTarget
  rejectIf (isZero job.zcashTargetLe) zeroZcashNetworkTarget
  let requiredNetwork := easierTarget job.wcashTargetLe job.zcashTargetLe
  rejectIf (targetNumericCmp policy.operatorEasiest requiredNetwork = .lt)
    (operatorTargetExcludesNetworkWinner requiredNetwork policy.operatorEasiest)
  .ok ⟨requiredNetwork, policy.operatorEasiest⟩

end PoolShareTargetPolicy

def PoolShareTargetBounds.validateSubmitted (bounds : PoolShareTargetBounds)
    (submitted : TargetLe) : Except PoolShareTargetPolicyError Unit := do
  rejectIf (isZero submitted) zeroSubmittedTarget
  rejectIf (targetNumericCmp submitted bounds.requiredNetwork = .lt)
    (submittedTargetExcludesNetworkWinner submitted bounds.requiredNetwork)
  rejectIf (targetNumericCmp submitted bounds.operatorEasiest = .gt)
    (submittedTargetExceedsOperatorCeiling submitted bounds.operatorEasiest)

def PoolShareTargetPolicy.validateForJob (policy : PoolShareTargetPolicy) (job : JobDescriptor)
    (submitted : TargetLe) : Except PoolShareTargetPolicyError Unit := do
  let bounds ← policy.boundsForJob job
  bounds.validateSubmitted submitted

/-! ## The comparison -/

/-- The comparison of the policy is the one of the 256-bit numbers. -/
theorem targetNumericCmp_eq (left right : TargetLe) :
    targetNumericCmp left right = compare (leNat left.data) (leNat right.data) := by
  have h := compareLex_reverse (left.size_eq.trans right.size_eq.symm) [] []
  rw [List.append_nil, List.append_nil, List.compareLex_nil_nil, Ordering.then_eq] at h
  exact h

theorem leNat_easierTarget (left right : TargetLe) :
    leNat (easierTarget left right).data = max (leNat left.data) (leNat right.data) := by
  simp only [easierTarget, targetNumericCmp_eq, Nat.compare_eq_lt]
  split <;> omega

/-- A target is zero when its number is. -/
theorem isZero_iff {t : TargetLe} : isZero t ↔ leNat t.data = 0 := by
  have hzero : leNat (FixedBytes.fill 32 0).data = 0 := by decide
  constructor
  · rintro rfl
    exact hzero
  · intro h
    exact FixedBytes.ext (leNat_injective (by simp) (h.trans hzero.symm))

/-! ## The accepted targets -/

variable {policy : PoolShareTargetPolicy} {job : JobDescriptor} {bounds : PoolShareTargetBounds}

/-- The easier of the two network targets of a job, as a number. -/
def networkBound (job : JobDescriptor) : Nat :=
  max (leNat job.wcashTargetLe.data) (leNat job.zcashTargetLe.data)

theorem boundsForJob_eq_ok :
    policy.boundsForJob job = .ok bounds ↔
      ¬ isZero job.wcashTargetLe ∧ ¬ isZero job.zcashTargetLe ∧
        networkBound job ≤ leNat policy.operatorEasiest.data ∧
        bounds = ⟨easierTarget job.wcashTargetLe job.zcashTargetLe, policy.operatorEasiest⟩ := by
  simp only [PoolShareTargetPolicy.boundsForJob, bind_eq_ok, rejectIf_eq_ok, targetNumericCmp_eq,
    leNat_easierTarget, Nat.compare_eq_lt, Nat.not_lt, exists_const, Except.ok.injEq,
    networkBound, @eq_comm _ _ bounds]

/-- The accepted targets are those between the bound of the networks and
the ceiling of the operator. -/
theorem validateForJob_iff {t : TargetLe} (h : policy.boundsForJob job = .ok bounds) :
    policy.validateForJob job t = .ok () ↔
      networkBound job ≤ leNat t.data ∧ leNat t.data ≤ leNat policy.operatorEasiest.data := by
  obtain ⟨hwcash, _, _, rfl⟩ := boundsForJob_eq_ok.mp h
  rw [PoolShareTargetPolicy.validateForJob, h, ok_bind]
  simp only [PoolShareTargetBounds.validateSubmitted, bind_eq_ok, rejectIf_eq_ok, exists_const,
    targetNumericCmp_eq, leNat_easierTarget, Nat.compare_eq_lt, Nat.compare_eq_gt, Nat.not_lt]
  rw [isZero_iff] at hwcash ⊢
  unfold networkBound
  omega

/-- Every hash that wins on one of the networks of a job meets each share
target accepted for it; no accepted target is above the ceiling; and
the accepted targets are the interval from the larger network target
to the ceiling, which is not empty when the job has bounds. -/
theorem share_target_keeps_winners (policy : PoolShareTargetPolicy) (job : JobDescriptor) :
    (∀ t, policy.validateForJob job t = .ok () →
      leNat t.data ≤ leNat policy.operatorEasiest.data ∧
      ∃ wcash zcash share, Target.fromLeBytes job.wcashTargetLe = .ok wcash ∧
        Target.fromLeBytes job.zcashTargetLe = .ok zcash ∧ Target.fromLeBytes t = .ok share ∧
        ∀ hash, wcash.isMetByLeHash hash ∨ zcash.isMetByLeHash hash → share.isMetByLeHash hash) ∧
    (∀ bounds, policy.boundsForJob job = .ok bounds →
      (∀ t, policy.validateForJob job t = .ok () ↔
        networkBound job ≤ leNat t.data ∧ leNat t.data ≤ leNat policy.operatorEasiest.data) ∧
      ∃ t, policy.validateForJob job t = .ok ()) ∧
    (∀ e, policy.boundsForJob job = .error e → ∀ t, policy.validateForJob job t = .error e) := by
  refine ⟨fun t ht => ?_, fun bounds hbounds => ?_, fun e he t => ?_⟩
  · obtain ⟨bounds, hbounds, _⟩ := of_bind ht
    obtain ⟨hlow, hhigh⟩ := (validateForJob_iff hbounds).mp ht
    obtain ⟨hwcash, hzcash, _, _⟩ := boundsForJob_eq_ok.mp hbounds
    have hshare : ¬ isZero t := by
      rw [isZero_iff] at hwcash ⊢
      unfold networkBound at hlow
      omega
    refine ⟨hhigh, ⟨_, hwcash⟩, ⟨_, hzcash⟩, ⟨_, hshare⟩, dif_neg hwcash, dif_neg hzcash,
      dif_neg hshare, fun hash hmet => ?_⟩
    rw [Target.isMetByLeHash_iff] at hmet ⊢
    rw [Target.isMetByLeHash_iff] at hmet
    exact (hmet.elim (le_max_of_le_left ·) (le_max_of_le_right ·)).trans hlow
  · refine ⟨fun t => validateForJob_iff hbounds, policy.operatorEasiest, ?_⟩
    exact (validateForJob_iff hbounds).mpr ⟨(boundsForJob_eq_ok.mp hbounds).2.2.1, Nat.le_refl _⟩
  · rw [PoolShareTargetPolicy.validateForJob, he]
    rfl

/-- A ceiling at the easiest target admits a share for the sample job. -/
theorem share_target_keeps_winners_easiest :
    ∃ t, (PoolShareTargetPolicy.mk (.fill 32 0xff) (by decide)).validateForJob sampleJob t
      = .ok () := by
  obtain ⟨_, hinterval, _⟩ := share_target_keeps_winners ⟨.fill 32 0xff, by decide⟩ sampleJob
  exact (hinterval _ (boundsForJob_eq_ok.mpr ⟨by decide, by decide, by decide +kernel, rfl⟩)).2

end Wolf.PoolActor
