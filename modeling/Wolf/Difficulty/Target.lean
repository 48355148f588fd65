import Wolf.AuxPow.Basic
import Wolf.Difficulty.Compact

/-! # Targets and their work

The hash of a block has to be at most its target. The node compares
the two as 256-bit numbers, the verifier of merge-mined proofs byte by
byte. The work of a target is 2^256 over the next number: the node
computes it for chains, the pool adds it up for shares.

* `target_checks_agree`: the two comparisons.
* `work_is_exact`: the work of one target, and the totals of the pool. -/

namespace Wolf.Difficulty

open AuxPow (Hash Target AuxPowError)

/-! ## Comparisons -/

theorem length_u256Bytes (n : Nat) : (leBytes 32 n).length = 32 := length_leBytes 32 n

def toLittleEndian (n : Nat) : Hash := ⟨leBytes 32 n, length_u256Bytes n⟩

def wcashAuxpowTarget (difficulty : Nat) : Except AuxPowError Target :=
  Target.fromLeBytes (toLittleEndian difficulty)

def includes (t other : Target) : Bool := t.isMetByLeHash other.bytes

def fromHash (hash : Hash) : Nat := leNat hash.data

/-- `partial_cmp` of a difficulty with a hash. -/
def partialCmp (difficulty : Nat) (hash : Hash) : Option Ordering :=
  some (compare difficulty (fromHash hash))

/-- `partial_cmp` of a hash with a difficulty. -/
def hashPartialCmp (hash : Hash) (difficulty : Nat) : Option Ordering :=
  -- `partialCmp` is never `none`, which is what the `expect` says
  (partialCmp difficulty hash).map Ordering.swap

theorem leNat_toLittleEndian {n : Nat} (h : n < 2 ^ 256) : leNat (toLittleEndian n).data = n :=
  leNat_leBytes_of_lt h

theorem includes_iff (t u : Target) :
    includes t u = true ↔ leNat u.bytes.data ≤ leNat t.bytes.data :=
  t.isMetByLeHash_iff u.bytes

/-- The byte loop, the order of the numbers and the comparisons of the
node agree, and a target includes another exactly when it is met by
every hash that meets the other. -/
theorem target_checks_agree :
    (∀ c x, toExpanded c = .ok (some x) → ∃ t, wcashAuxpowTarget x = .ok t ∧ ∀ hash,
      (t.isMetByLeHash hash = true ↔ leNat hash.data ≤ x) ∧
      (t.isMetByLeHash hash = true ↔ (hashPartialCmp hash x).any Ordering.isLE = true) ∧
      (t.isMetByLeHash hash = true ↔ (partialCmp x hash).any Ordering.isGE = true)) ∧
    (∀ t u, includes t u = true ↔ leNat u.bytes.data ≤ leNat t.bytes.data) ∧
    (∀ t u, includes t u = true → includes u t = true → t = u) ∧
    ∀ t u, includes t u = true ↔
      ∀ hash, u.isMetByLeHash hash = true → t.isMetByLeHash hash = true := by
  refine ⟨fun c x h => ?_, includes_iff, fun t u htu hut => ?_, fun t u => ?_⟩
  · obtain ⟨hne, hlt, -⟩ := toExpanded_eq_some h
    have hvalue := leNat_toLittleEndian hlt
    have hnonzero : toLittleEndian x ≠ .fill 32 0 := by
      intro hzero
      rw [hzero] at hvalue
      exact hne hvalue.symm
    refine ⟨⟨_, hnonzero⟩, dif_neg hnonzero, fun hash => ?_⟩
    rw [Target.isMetByLeHash_iff]
    dsimp only
    rw [hvalue]
    simp [hashPartialCmp, partialCmp, fromHash, Nat.isGE_compare]
  · rw [includes_iff] at htu hut
    have hbytes : t.bytes = u.bytes := FixedBytes.ext (leNat_injective (by simp) (by omega))
    cases t
    cases hbytes
    rfl
  · rw [includes_iff]
    simp only [Target.isMetByLeHash_iff]
    exact ⟨fun h hash hmet => hmet.trans h, fun h => h u.bytes le_rfl⟩

/-! ## Work -/

/-- The quotient of both implementations, in 256-bit operations. -/
def quotient (target : Nat) : Except Panic Nat := do
  let divisor ← u256 (target + 1)
  u256 ((2 ^ 256 - 1 - target) / divisor + 1)

/-- `TryFrom<ExpandedDifficulty> for Work`. -/
def workTryFrom (expanded : Nat) : Except Panic (Option Nat) := do
  let result ← quotient expanded
  .ok (if result ≤ 2 ^ 128 - 1 then some result else none)

/-- `PoolBackendZcashWorkObservation`, the index of the arrays below. -/
inductive PoolBackendZcashWorkObservation where
  | current
  | stale
  | unknown
  deriving DecidableEq

structure PoolBackendZcashWorkStats where
  shares : PoolBackendZcashWorkObservation → Nat
  targetWorkLe : PoolBackendZcashWorkObservation → FixedBytes 32
  firstEventSeq : Nat
  lastEventSeq : Nat
  overflowed : Bool

/-- `PoolBackendZcashWorkStats::default`. -/
def PoolBackendZcashWorkStats.empty : PoolBackendZcashWorkStats where
  shares _ := 0
  targetWorkLe _ := .fill 32 0
  firstEventSeq := 0
  lastEventSeq := 0
  overflowed := false

/-- The arguments of `record`. -/
structure WorkCall where
  observation : PoolBackendZcashWorkObservation
  target : FixedBytes 32
  eventSeq : Nat

/-- `checked_add` of the counters, which saturate. -/
def saturate (bound n : Nat) : Nat := if n < bound then n else bound - 1

/-- The work that `record` adds for a target. -/
def targetWork (target : Nat) : Except Panic Nat :=
  if target = 2 ^ 256 - 1 then .ok 1 else quotient target

/-- The counters of `record`. -/
def count (s : PoolBackendZcashWorkStats) (call : WorkCall) (work : Nat) :
    PoolBackendZcashWorkStats :=
  let next := leNat (s.targetWorkLe call.observation).data + work
  let shares := s.shares call.observation + 1
  { shares := Function.update s.shares call.observation (saturate (2 ^ 64) shares)
    targetWorkLe := Function.update s.targetWorkLe call.observation
      (toLittleEndian (saturate (2 ^ 256) next))
    firstEventSeq := if s.firstEventSeq = 0 then call.eventSeq else s.firstEventSeq
    lastEventSeq := call.eventSeq
    overflowed := s.overflowed || decide (2 ^ 256 ≤ next) || decide (2 ^ 64 ≤ shares) }

def record (s : PoolBackendZcashWorkStats) (call : WorkCall) :
    Except Panic PoolBackendZcashWorkStats :=
  if leNat call.target.data = 0 then .ok { s with overflowed := true }
  else do
    let work ← targetWork (leNat call.target.data)
    .ok (count s call work)

/-- The work that a call stands for. -/
def WorkCall.work (call : WorkCall) : Nat := 2 ^ 256 / (leNat call.target.data + 1)

theorem quotient_eq {t : Nat} (hpos : 0 < t) (hlt : t < 2 ^ 256 - 1) :
    quotient t = .ok (2 ^ 256 / (t + 1)) := by
  have hsplit : 2 ^ 256 / (t + 1) = (2 ^ 256 - 1 - t) / (t + 1) + 1 := by
    rw [← Nat.add_div_right _ (by omega)]
    congr 1
    omega
  have hbound : 2 ^ 256 / (t + 1) < 2 ^ 256 := Nat.div_lt_self (by decide) (by omega)
  rw [quotient, u256_of_lt (by omega), ok_bind, ← hsplit, u256_of_lt hbound]

theorem workTryFrom_eq {t : Nat} (hpos : 0 < t) (hlt : t < 2 ^ 256 - 1) :
    workTryFrom t =
      .ok (if 2 ^ 256 / (t + 1) < 2 ^ 128 then some (2 ^ 256 / (t + 1)) else none) := by
  rw [workTryFrom, quotient_eq hpos hlt, ok_bind,
    if_congr (Nat.le_sub_one_iff_lt (by decide)) rfl rfl]

theorem targetWork_eq {call : WorkCall} (hne : leNat call.target.data ≠ 0) :
    targetWork (leNat call.target.data) = .ok call.work := by
  have hlt := leNat_lt call.target.data
  rw [call.target.length_data] at hlt
  unfold targetWork
  split
  · rename_i hmax
    simp [WorkCall.work, hmax]
  · exact quotient_eq (by omega) (by omega)

/-- A call that sets no flag adds its work and one share to its class. -/
theorem record_exact (s : PoolBackendZcashWorkStats) (call : WorkCall) :
    ∃ s', record s call = .ok s' ∧ (s'.overflowed = false → s.overflowed = false ∧ ∀ o,
      leNat (s'.targetWorkLe o).data =
        leNat (s.targetWorkLe o).data + (if call.observation = o then call.work else 0) ∧
      s'.shares o = s.shares o + (if call.observation = o then 1 else 0)) := by
  unfold record
  by_cases hzero : leNat call.target.data = 0
  · exact ⟨_, if_pos hzero, fun h => Bool.noConfusion h⟩
  · rw [if_neg hzero, targetWork_eq hzero, ok_bind]
    refine ⟨_, rfl, fun h => ?_⟩
    simp only [count, Bool.or_eq_false_iff, decide_eq_false_iff_not, not_le] at h
    obtain ⟨⟨hflag, hnext⟩, hshares⟩ := h
    refine ⟨hflag, fun o => ?_⟩
    by_cases ho : call.observation = o
    · subst ho
      simp only [count, saturate, Function.update_self, if_pos hnext, if_pos hshares, if_true,
        and_true]
      exact leNat_toLittleEndian hnext
    · simp [count, ho, Function.update_of_ne (Ne.symm ho)]

/-- `record` for one share after the other. -/
def recordAll : PoolBackendZcashWorkStats → List WorkCall → Except Panic PoolBackendZcashWorkStats
  | s, [] => .ok s
  | s, call :: calls => do
    let s ← record s call
    recordAll s calls

theorem recordAll_exact (calls : List WorkCall) (s : PoolBackendZcashWorkStats) :
    ∃ s', recordAll s calls = .ok s' ∧ (s'.overflowed = false → s.overflowed = false ∧ ∀ o,
      leNat (s'.targetWorkLe o).data = leNat (s.targetWorkLe o).data +
        ((calls.filter (·.observation = o)).map WorkCall.work).sum ∧
      s'.shares o = s.shares o + (calls.filter (·.observation = o)).length) := by
  induction calls generalizing s with
  | nil => exact ⟨s, rfl, fun h => ⟨h, fun o => ⟨rfl, rfl⟩⟩⟩
  | cons call calls ih =>
    obtain ⟨middle, hmiddle, hcall⟩ := record_exact s call
    obtain ⟨last, hlast, hcalls⟩ := ih middle
    refine ⟨last, by rw [recordAll, hmiddle, ok_bind, hlast], fun h => ?_⟩
    obtain ⟨hflag, hrest⟩ := hcalls h
    obtain ⟨hflag, hfirst⟩ := hcall hflag
    refine ⟨hflag, fun o => ?_⟩
    obtain ⟨hwork, hshares⟩ := hrest o
    rw [hwork, hshares, (hfirst o).1, (hfirst o).2]
    by_cases ho : call.observation = o
    · simp [ho]
      omega
    · simp [ho]

/-- Both implementations compute the work of a target exactly. The node
fails on the largest target only, where the pool returns 1. -/
theorem work_is_exact :
    (∀ t, 0 < t → t < 2 ^ 256 - 1 → workTryFrom t =
      .ok (if 2 ^ 256 / (t + 1) < 2 ^ 128 then some (2 ^ 256 / (t + 1)) else none)) ∧
    workTryFrom (2 ^ 256 - 1) = .error .overflow ∧
    (∀ t t' w, 0 < t → t ≤ t' → t' < 2 ^ 256 - 1 → workTryFrom t = .ok (some w) →
      ∃ w', workTryFrom t' = .ok (some w') ∧ w' ≤ w) ∧
    ∀ calls, ∃ s, recordAll .empty calls = .ok s ∧ (s.overflowed = false → ∀ o,
      leNat (s.targetWorkLe o).data = ((calls.filter (·.observation = o)).map WorkCall.work).sum ∧
      s.shares o = (calls.filter (·.observation = o)).length) := by
  refine ⟨fun t => workTryFrom_eq, by decide +kernel, fun t t' w hpos hle hlt hw => ?_,
    fun calls => ?_⟩
  · rw [workTryFrom_eq hpos (by omega)] at hw
    have hmono : 2 ^ 256 / (t' + 1) ≤ 2 ^ 256 / (t + 1) := Nat.div_le_div_left (by omega) (by omega)
    by_cases hsmall : 2 ^ 256 / (t + 1) < 2 ^ 128
    · rw [if_pos hsmall] at hw
      cases hw
      exact ⟨_, (workTryFrom_eq (by omega) hlt).trans (by rw [if_pos (hmono.trans_lt hsmall)]),
        hmono⟩
    · rw [if_neg hsmall] at hw
      cases hw
  · obtain ⟨s, hs, hexact⟩ := recordAll_exact calls .empty
    refine ⟨s, hs, fun h o => ?_⟩
    obtain ⟨hwork, hshares⟩ := (hexact h).2 o
    rw [hwork, hshares]
    exact ⟨Nat.zero_add _, Nat.zero_add _⟩

end Wolf.Difficulty
