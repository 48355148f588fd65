import Wolf.Framework.Result
import Wolf.Framework.Bytes

/-! # Wcash Mainnet emission

The stateful emission recurrence (`subsidy_atoms`,
`advance_curve_counter`) and the lookup that consensus uses in its
place (`block_subsidy`, with a table built once from the recurrence and
a hard-coded first tail height).

Amounts are atomic units as natural numbers; every conversion and
addition that the source checks is checked here against the same
width. A panic of the source (`expect`, `debug_assert_eq`, an index
out of bounds) is an error with its message. -/

namespace Wolf.Emission

/-! ## Constants -/

def slowStartBlocks : Nat := 40000
def mainEmissionScale : Nat := 1844674407370955
def emissionNumerator : Nat := 5
def emissionDenominator : Nat := 4194304
def tailSubsidy : Nat := 37500000
def rampPeak : Nat := 2199023255
def firstTailHeight : Nat := 3455360

/-- `MAX_MONEY` under the `wcash-consensus` feature: `i64::MAX / 2`. -/
def maxMoney : Nat := (2 ^ 63 - 1) / 2

/-- The errors of `EmissionError` that the recurrence returns. -/
inductive EmissionError where
  | counterOutOfRange
  | counterBeforeCurve
  | amountOverflow
  deriving DecidableEq

/-! ## The recurrence -/

/-- `uN::try_from(value)` for an unsigned type of `w` bits. -/
def tryFrom (w value : Nat) : Option Nat := if value < 2 ^ w then some value else none

def subsidyAtoms (height curveEmittedBefore : Nat) : Except EmissionError Nat := do
  rejectIf (mainEmissionScale < curveEmittedBefore) .counterOutOfRange
  if height ≤ slowStartBlocks then
    rejectIf (curveEmittedBefore ≠ 0) .counterBeforeCurve
    okOr (tryFrom 64 (rampPeak * height / slowStartBlocks)) .amountOverflow
  else
    let remaining := mainEmissionScale - curveEmittedBefore
    let curveReward ← okOr (tryFrom 64 (emissionNumerator * remaining / emissionDenominator))
      .amountOverflow
    .ok (max curveReward tailSubsidy)

def advanceCurveCounter (height curveEmittedBefore subsidy : Nat) : Except EmissionError Nat := do
  rejectIf (mainEmissionScale < curveEmittedBefore) .counterOutOfRange
  if height ≤ slowStartBlocks then
    rejectIf (curveEmittedBefore ≠ 0) .counterBeforeCurve
    .ok 0
  else
    let counter ← okOr (checkedAdd 64 curveEmittedBefore subsidy) .amountOverflow
    .ok (min counter mainEmissionScale)

/-- The curve counter before `height` when every block claims its exact
subsidy: `c(0) = 0` and `c(h + 1) = advance(h, c(h), subsidy(h, c(h)))`. -/
def curveCounter : Nat → Except EmissionError Nat
  | 0 => .ok 0
  | height + 1 => do
    let counter ← curveCounter height
    let subsidy ← subsidyAtoms height counter
    advanceCurveCounter height counter subsidy

/-! ## The lookup -/

/-- What `block_subsidy` can end in besides an amount. -/
inductive LookupError where
  /-- A panic with its message. -/
  | panicked (message : String)
  /-- `SubsidyError::InvalidAmount`. -/
  | invalidAmount (value : Nat)
  deriving DecidableEq

/-- `result.expect(message)`. -/
def expect {α ε : Type} (result : Except ε α) (message : String) : Except LookupError α :=
  mapErr (fun _ => .panicked message) result

/-- One round of the loop of `build_pre_tail_subsidies`. -/
def buildStep (state : List Nat × Nat) (height : Nat) : Except LookupError (List Nat × Nat) := do
  let subsidy ← expect (subsidyAtoms height state.2) "the canonical emission counter is valid"
  let entry ← okOr (tryFrom 32 subsidy)
    (.panicked "Wcash subsidies fit in an unsigned 32-bit integer")
  let counter ← expect (advanceCurveCounter height state.2 subsidy)
    "the canonical emission counter is valid"
  .ok (state.1 ++ [entry], counter)

/-- `build_pre_tail_subsidies`, debug assertions included. -/
def buildPreTailSubsidies : Except LookupError (List Nat) := do
  let (subsidies, counter) ← (List.range firstTailHeight).foldlM buildStep ([], 0)
  rejectIf (subsidies.length ≠ firstTailHeight) (.panicked "assertion failed: subsidies.len()")
  rejectIf (subsidyAtoms firstTailHeight counter ≠ .ok tailSubsidy)
    (.panicked "assertion failed: subsidy_atoms(FIRST_TAIL_HEIGHT)")
  .ok subsidies

/-- `Amount::<NonNegative>::try_from(u64)`. -/
def amountTryFrom (value : Nat) : Except LookupError Nat := do
  rejectIf (¬ value < 2 ^ 63) (.invalidAmount value)
  rejectIf (maxMoney < value) (.invalidAmount value)
  .ok value

def blockSubsidy (height : Nat) : Except LookupError Nat :=
  if firstTailHeight ≤ height then
    amountTryFrom tailSubsidy
  else do
    let subsidies ← buildPreTailSubsidies
    let subsidy ← okOr subsidies[height]? (.panicked "index out of bounds")
    amountTryFrom subsidy

end Wolf.Emission
