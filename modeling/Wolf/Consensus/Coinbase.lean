import Wolf.Emission.Lookup
import Wolf.Ledger.Transaction

/-! # The coinbase rules of Wcash Mainnet

What the block verifier asks of the coinbase transaction: the mandatory
foundation output, one payout mode (transparent or Ironwood), the limit
on its value, and that its output equals the subsidy plus the fees. The
network is Wcash Mainnet throughout; the branches of the source for the
Zcash networks are not modelled.

The trial decryption behind `wcash_coinbase_outputs_are_private` is a
parameter. It only rejects.

* `coinbase_value_conserved`: both checks together imply it. -/

namespace Wolf.Consensus

open Ledger List

/-! ## Errors -/

/-- `SubsidyError`, as far as the Mainnet branches return it. -/
inductive SubsidyError where
  | noCoinbase
  | invalidMinerFees
  | wcashSaplingCoinbaseOutput
  | wcashOrchardCoinbaseOutput
  | wcashCoinbaseOutputMissing
  | wcashMixedCoinbaseOutputs
  | wcashIronwoodValueBalanceNotNegative
  | wcashCoinbaseValueTooLarge
  | wcashFoundationOutputMissing
  | overflow
  | underflow
  | invalidAmount (e : AmountError)
  /-- What the emission lookup ends in besides an amount. -/
  | lookup (e : Emission.LookupError)
  deriving DecidableEq

/-- `TransactionError`, as far as the modelled checks return it. -/
inductive TransactionError where
  | subsidy (e : SubsidyError)
  | coinbasePosition
  | coinbaseAfterFirst
  | notCoinbase
  | wcashCoinbaseOutputPubliclyRecoverable
  | wcashRequiresV6 (version : Nat)
  | wcashSproutPoolDisabled
  | wcashSaplingPoolDisabled
  | wcashOrchardPoolDisabled
  | coinbaseHasJoinSplit
  | coinbaseHasSpend
  | coinbaseHasEnableSpendsOrchard
  | coinbaseHasEnableSpendsIronwood
  | nonCoinbaseHasCoinbaseInput
  | transparentInputNotFound
  | incorrectFee
  | coinbaseConstruction (message : String)
  /-- An error of a check that is not modelled. -/
  | other (message : String)
  deriving DecidableEq

/-- `BlockError`, as far as the modelled checks return it. -/
inductive BlockError where
  | transaction (e : TransactionError)
  | noTransactions
  | missingHeight
  | tooManyTransparentSignatureOperations (sigops : Nat)
  | summingMinerFees (e : AmountError)
  | other (message : String)
  deriving DecidableEq

/-- `From<SubsidyError>`. -/
def BlockError.subsidy (e : SubsidyError) : BlockError := .transaction (.subsidy e)

/-! ## The subsidy and the foundation output -/

/-- `block_subsidy` on Mainnet, as an amount. -/
def blockSubsidy (height : Nat) : Except SubsidyError (Amount .nonNegative) := do
  let value ← mapErr .lookup (Emission.blockSubsidy height)
  mapErr .invalidAmount (Amount.tryFrom .nonNegative value)

/-- `WCASH_FOUNDATION_START_HEIGHT`, inclusive. -/
def foundationStartHeight : Nat := 33000

/-- `WCASH_FOUNDATION_EXPIRY_HEIGHT`, exclusive. -/
def foundationExpiryHeight : Nat := 621455

/-- The lock script of `WCASH_FOUNDATION_ADDRESS`: a payment to its public
key hash. -/
def foundationScript : Bytes :=
  [0x76, 0xa9, 0x14, 0x87, 0x08, 0xe7, 0x8a, 0x02, 0x03, 0xf9, 0x3b, 0x26, 0x91, 0x05, 0x72, 0x81,
    0xe1, 0x77, 0x3f, 0xd2, 0x63, 0x70, 0x20, 0x88, 0xac]

/-- `WcashFoundationAllocation`; the address by its script. -/
structure WcashFoundationAllocation where
  amount : Amount .nonNegative
  script : Bytes
  deriving DecidableEq

def WcashFoundationAllocation.output (a : WcashFoundationAllocation) : Output :=
  ⟨a.amount, a.script⟩

section

variable (height : Nat) (grossSubsidy : Amount .nonNegative)

/-- Thirty percent, rounded down. The conversions of the source cannot
fail: the result is between zero and the gross subsidy. -/
def foundationAmount : Amount .nonNegative where
  val := grossSubsidy.zatoshis * 3 / 10
  lo_le := by
    have hlo : 0 ≤ grossSubsidy.zatoshis := grossSubsidy.lo_le
    show 0 ≤ grossSubsidy.zatoshis * 3 / 10
    omega
  le_hi := by
    have hlo : 0 ≤ grossSubsidy.zatoshis := grossSubsidy.lo_le
    have hhi : grossSubsidy.zatoshis ≤ maxMoney := grossSubsidy.le_hi
    show grossSubsidy.zatoshis * 3 / 10 ≤ maxMoney
    omega

def wcashFoundationFund : Option WcashFoundationAllocation :=
  if height < foundationStartHeight ∨ foundationExpiryHeight ≤ height then none
  else some ⟨foundationAmount grossSubsidy, foundationScript⟩

/-- `wcash_foundation_fund_output_index`: the first output that is exactly
the required one. -/
def wcashFoundationFundOutputIndex (outputs : List Output) : Except SubsidyError (Option Nat) :=
  match wcashFoundationFund height grossSubsidy with
  | none => .ok none
  | some allocation => do
    let index ← okOr (outputs.findIdx? (· == allocation.output)) .wcashFoundationOutputMissing
    .ok (some index)

/-- The foundation output of a height, if there is one. -/
def foundationOutputs : List Output :=
  ((wcashFoundationFund height grossSubsidy).map WcashFoundationAllocation.output).toList

/-- The amount of the foundation output, zero without one. -/
def foundationFundAmount : Amount .nonNegative :=
  ((wcashFoundationFund height grossSubsidy).map WcashFoundationAllocation.amount).getD (.zero _)

/-- What the foundation receives at a height. -/
def foundationShare : Int :=
  (foundationFundAmount height grossSubsidy).zatoshis

end

/-- `subsidy_is_valid`; the deferred change of Mainnet is zero. -/
def subsidyIsValid (block : Block) (expectedBlockSubsidy : Amount .nonNegative) :
    Except BlockError (Amount .negativeAllowed) :=
  if expectedBlockSubsidy.zatoshis = 0 then .ok (.zero _)
  else do
    let height ← okOr block.coinbaseHeight (.subsidy .noCoinbase)
    let coinbase ← okOr block.transactions.head? (.subsidy .noCoinbase)
    let _ ← mapErr .subsidy
      (wcashFoundationFundOutputIndex height expectedBlockSubsidy coinbase.outputs)
    .ok (.zero _)

/-! ## The miner fees -/

inductive WcashCoinbasePayoutMode where
  | transparent
  | ironwood
  deriving DecidableEq

def wcashCoinbasePayoutMode (hasTransparentOutputs hasIronwoodOutputs : Bool) :
    Except SubsidyError WcashCoinbasePayoutMode :=
  match hasTransparentOutputs, hasIronwoodOutputs with
  | false, false => .error .wcashCoinbaseOutputMissing
  | true, true => .error .wcashMixedCoinbaseOutputs
  | true, false => .ok .transparent
  | false, true => .ok .ironwood

section Checks

variable (privateFromZeroOvk : Transaction → Nat → Bool)

def wcashCoinbaseOutputsArePrivate (tx : Transaction) (height : Nat) :
    Except TransactionError Unit := do
  rejectIf (tx.isCoinbase = false) .notCoinbase
  rejectIf (privateFromZeroOvk tx height = false) .wcashCoinbaseOutputPubliclyRecoverable

/-- The Ironwood branch of `miner_fees_are_valid`. -/
def ironwoodPayoutIsValid (coinbaseTx : Transaction) (height : Nat)
    (totalInputValue expectedBlockSubsidy : Amount .nonNegative) : Except BlockError Unit := do
  mapErr .transaction (wcashCoinbaseOutputsArePrivate privateFromZeroOvk coinbaseTx height)
  let minerInputValue ← mapErr (fun _ => .subsidy .underflow)
    (totalInputValue.sub (foundationFundAmount height expectedBlockSubsidy))
  rejectIf (minerInputValue.zatoshis ≠ 0 ∧ 0 ≤ coinbaseTx.ironwoodAmount.zatoshis)
    (.subsidy .wcashIronwoodValueBalanceNotNegative)

/-- The Wcash rules on the components of a coinbase above genesis. -/
def payoutIsValid (coinbaseTx : Transaction) (height : Nat)
    (totalInputValue expectedBlockSubsidy : Amount .nonNegative) : Except BlockError Unit := do
  rejectIf coinbaseTx.saplingBundle.isSome (.subsidy .wcashSaplingCoinbaseOutput)
  rejectIf coinbaseTx.orchardBundle.isSome (.subsidy .wcashOrchardCoinbaseOutput)
  let foundationOutputIndex ← mapErr .subsidy
    (wcashFoundationFundOutputIndex height expectedBlockSubsidy coinbaseTx.outputs)
  let hasTransparentOutputs :=
    decide (foundationOutputIndex.isSome.toNat < coinbaseTx.outputs.length)
  let hasIronwoodOutputs := coinbaseTx.ironwoodActions.head?.isSome
  let mode ← mapErr .subsidy (wcashCoinbasePayoutMode hasTransparentOutputs hasIronwoodOutputs)
  match mode with
  | .ironwood =>
    ironwoodPayoutIsValid privateFromZeroOvk coinbaseTx height totalInputValue expectedBlockSubsidy
  | .transparent => .ok ()

/-- The genesis coinbase has no such rules. -/
def componentsAreValid (coinbaseTx : Transaction) (height : Nat)
    (totalInputValue expectedBlockSubsidy : Amount .nonNegative) : Except BlockError Unit :=
  if 0 < height then
    payoutIsValid privateFromZeroOvk coinbaseTx height totalInputValue expectedBlockSubsidy
  else .ok ()

/-- The total output value of the coinbase. -/
def totalOutputValue (coinbaseTx : Transaction) (transparent deferred : Amount .negativeAllowed) :
    Except AmountError (Amount .negativeAllowed) := do
  let sum ← transparent.sub coinbaseTx.saplingAmount
  let sum ← sum.sub coinbaseTx.orchardAmount
  let sum ← sum.sub coinbaseTx.ironwoodAmount
  sum.add deferred

/-- The explicit limit on the coinbase input of a block above genesis. The
`checked_add` of the source cannot overflow: both are amounts. -/
def coinbaseValueLimit (height : Nat) (expectedBlockSubsidy blockMinerFees : Amount .nonNegative) :
    Except BlockError Unit :=
  rejectIf (0 < height ∧
      maxSingleTransactionValue < expectedBlockSubsidy.zatoshis + blockMinerFees.zatoshis)
    (.subsidy .wcashCoinbaseValueTooLarge)

def minerFeesAreValid (coinbaseTx : Transaction) (height : Nat)
    (blockMinerFees expectedBlockSubsidy : Amount .nonNegative)
    (expectedDeferredPoolBalanceChange : Amount .negativeAllowed) : Except BlockError Unit := do
  let transparent ← mapErr (fun _ => .subsidy .overflow)
    (Amount.sum (coinbaseTx.outputs.map Output.value))
  let transparent ← mapErr (fun _ => .other "invalid transparent value balance")
    (transparent.constrain .negativeAllowed)
  let totalOutput ← mapErr (fun _ => .subsidy .overflow)
    (totalOutputValue coinbaseTx transparent expectedDeferredPoolBalanceChange)
  coinbaseValueLimit height expectedBlockSubsidy blockMinerFees
  let totalInput ← mapErr (fun _ => .subsidy .overflow) (expectedBlockSubsidy.add blockMinerFees)
  componentsAreValid privateFromZeroOvk coinbaseTx height totalInput expectedBlockSubsidy
  rejectIf (totalOutput.zatoshis ≠ totalInput.zatoshis) (.subsidy .invalidMinerFees)

end Checks

/-! ## What the checks imply -/

variable {height value : Nat}

theorem blockSubsidy_ramp (h : height ≤ Emission.slowStartBlocks)
    (hvalue : Emission.rampPeak * height / Emission.slowStartBlocks = value)
    (hle : (value : Int) ≤ maxMoney) :
    blockSubsidy height = .ok ⟨value, Int.natCast_nonneg value, hle⟩ := by
  have hlookup :=
    Emission.blockSubsidy_eq (Emission.curveCounter_ramp (by omega)) (Emission.subsidyAtoms_ramp h)
  unfold blockSubsidy
  rw [hlookup, hvalue, mapErr_ok, ok_bind, Amount.tryFrom_of_mem (Int.natCast_nonneg value) hle,
    mapErr_ok]

theorem foundationShare_eq (grossSubsidy : Amount .nonNegative) :
    foundationShare height grossSubsidy =
      ((foundationOutputs height grossSubsidy).map fun output => output.value.zatoshis).sum := by
  unfold foundationShare foundationFundAmount foundationOutputs
  cases wcashFoundationFund height grossSubsidy with
  | none => rfl
  | some allocation => simp [WcashFoundationAllocation.output]

/-- A found index: the required output is among the outputs, and it is
counted exactly when there is one. -/
theorem wcashFoundationFundOutputIndex_eq_ok {grossSubsidy : Amount .nonNegative}
    {outputs : List Output} {index : Option Nat}
    (h : wcashFoundationFundOutputIndex height grossSubsidy outputs = .ok index) :
    (∀ output ∈ foundationOutputs height grossSubsidy, output ∈ outputs) ∧
      index.isSome.toNat = (foundationOutputs height grossSubsidy).length := by
  unfold wcashFoundationFundOutputIndex at h
  unfold foundationOutputs
  cases hfund : wcashFoundationFund height grossSubsidy with
  | none =>
    rw [hfund] at h
    cases h
    simp
  | some allocation =>
    rw [hfund] at h
    obtain ⟨i, hi, h⟩ := of_okOr_bind h
    cases h
    -- The index points at an output equal to the required one.
    have hmem : allocation.output ∈ outputs := by
      obtain ⟨hlt, heq, _⟩ := List.findIdx?_eq_some_iff_getElem.mp hi
      rw [← eq_of_beq heq]
      exact getElem_mem hlt
    simp [hmem]

/-- What an accepted coinbase does with the subsidy `S` and the fees `F`. -/
structure Conserved (tx : Transaction) (height : Nat) (S F : Amount .nonNegative) : Prop where
  noSapling : tx.saplingBundle = none
  noOrchard : tx.orchardBundle = none
  /-- No unit is created or lost. -/
  total : tx.outputTotal - tx.ironwoodAmount.zatoshis = S.zatoshis + F.zatoshis
  limit : S.zatoshis + F.zatoshis ≤ maxSingleTransactionValue
  /-- In its term the foundation is paid by one output. -/
  foundation : 33000 ≤ height → height ≤ 621454 →
    ∃ output ∈ tx.outputs,
      output.value.zatoshis = 3 * S.zatoshis / 10 ∧ output.lockScript = foundationScript
  /-- The rest goes to transparent outputs alone, or to Ironwood alone. -/
  payout :
    (tx.ironwoodActions = [] ∧ tx.outputTotal = S.zatoshis + F.zatoshis) ∨
    (tx.outputs = foundationOutputs height S ∧
      tx.ironwoodAmount.zatoshis = -(S.zatoshis + F.zatoshis - foundationShare height S))

/-- What the Wcash rules on the components leave. -/
structure PayoutOk (tx : Transaction) (height : Nat) (S : Amount .nonNegative) : Prop where
  noSapling : tx.saplingBundle = none
  noOrchard : tx.orchardBundle = none
  foundation : ∀ output ∈ foundationOutputs height S, output ∈ tx.outputs
  mode : tx.ironwoodActions = [] ∨ tx.outputs = foundationOutputs height S

variable {tx : Transaction} {privateFromZeroOvk : Transaction → Nat → Bool}
  {deferred : Amount .negativeAllowed}

theorem payoutIsValid_eq_ok {totalInput S : Amount .nonNegative}
    (h : payoutIsValid privateFromZeroOvk tx height totalInput S = .ok ()) :
    PayoutOk tx height S := by
  obtain ⟨hsapling, h⟩ := of_rejectIf_bind h
  obtain ⟨horchard, h⟩ := of_rejectIf_bind h
  obtain ⟨index, hindex, h⟩ := of_mapErr_bind h
  obtain ⟨mode, hmode, h⟩ := of_mapErr_bind h
  obtain ⟨hfound, hcount⟩ := wcashFoundationFundOutputIndex_eq_ok hindex
  refine ⟨by simpa using hsapling, by simpa using horchard, hfound, ?_⟩
  by_cases hactions : tx.ironwoodActions = []
  · exact .inl hactions
  · -- With an action the mode can only be Ironwood, so that no other output is left.
    right
    have hsome : tx.ironwoodActions.head?.isSome = true := by
      cases hlist : tx.ironwoodActions with
      | nil => exact absurd hlist hactions
      | cons action rest => rfl
    rw [hsome] at hmode
    have hlen : ¬ index.isSome.toNat < tx.outputs.length := by
      intro hlt
      rw [decide_eq_true hlt] at hmode
      cases hmode
    rw [hcount] at hlen
    unfold foundationOutputs at hfound hlen ⊢
    cases hfund : wcashFoundationFund height S with
    | none =>
      rw [hfund] at hlen
      simpa using hlen
    | some allocation =>
      rw [hfund] at hfound hlen
      have hmem : allocation.output ∈ tx.outputs := by
        apply hfound
        simp
      cases houtputs : tx.outputs with
      | nil =>
        rw [houtputs] at hmem
        cases hmem
      | cons first rest =>
        rw [houtputs] at hmem hlen
        have hrest : rest = [] := by simpa using hlen
        subst hrest
        rw [← mem_singleton.mp hmem]
        rfl

/-- The amounts behind an accepted coinbase. -/
structure FeesOk (tx : Transaction) (height : Nat) (F S : Amount .nonNegative)
    (deferred : Amount .negativeAllowed) : Prop where
  total : tx.outputTotal - tx.saplingAmount.zatoshis - tx.orchardAmount.zatoshis -
    tx.ironwoodAmount.zatoshis + deferred.zatoshis = S.zatoshis + F.zatoshis
  limit : 0 < height → S.zatoshis + F.zatoshis ≤ maxSingleTransactionValue
  payout : 0 < height → PayoutOk tx height S

theorem minerFeesAreValid_eq_ok {F S : Amount .nonNegative}
    (h : minerFeesAreValid privateFromZeroOvk tx height F S deferred = .ok ()) :
    FeesOk tx height F S deferred := by
  obtain ⟨sum, hsum, h⟩ := of_bind h
  obtain ⟨transparent, htransparent, h⟩ := of_bind h
  obtain ⟨output, houtput, h⟩ := of_bind h
  obtain ⟨_, hlimit, h⟩ := of_bind h
  obtain ⟨input, hinput, h⟩ := of_bind h
  obtain ⟨_, hpayout, h⟩ := of_bind h
  simp only [mapErr_eq_ok, Amount.constrain_eq_ok, Amount.add_eq_ok, rejectIf_eq_ok,
    coinbaseValueLimit] at hsum htransparent houtput hlimit hinput h
  refine ⟨?_, fun hpos => ?_, fun hpos => ?_⟩
  · simp only [totalOutputValue, bind_eq_ok, Amount.sub_eq_ok, Amount.add_eq_ok] at houtput
    have houtputs : sum.zatoshis = tx.outputTotal := by
      rw [Amount.sum_eq_ok hsum, map_map]
      rfl
    omega
  · omega
  · rw [componentsAreValid, if_pos hpos] at hpayout
    exact payoutIsValid_eq_ok hpayout

/-- The deferred change of an accepted subsidy is zero. -/
theorem subsidyIsValid_eq_ok {block : Block} {S : Amount .nonNegative}
    (h : subsidyIsValid block S = .ok deferred) : deferred = .zero _ := by
  unfold subsidyIsValid at h
  split at h
  · cases h
    rfl
  · obtain ⟨_, _, h⟩ := of_two_binds h
    obtain ⟨_, _, h⟩ := of_bind h
    cases h
    rfl

theorem saplingAmount_of_none (h : tx.saplingBundle = none) : tx.saplingAmount.zatoshis = 0 := by
  rw [Transaction.saplingAmount, h]
  rfl

theorem orchardAmount_of_none (h : tx.orchardBundle = none) : tx.orchardAmount.zatoshis = 0 := by
  rw [Transaction.orchardAmount, h]
  rfl

theorem ironwoodAmount_of_none (h : tx.ironwoodBundle = none) : tx.ironwoodAmount.zatoshis = 0 := by
  rw [Transaction.ironwoodAmount, h]
  rfl

/-- Wcash coinbase value is conserved: a Mainnet coinbase above genesis that
passes both checks pays out exactly the subsidy and the fees, the
foundation its share, and the rest in one payout mode. -/
theorem coinbase_value_conserved {privateFromZeroOvk : Transaction → Nat → Bool}
    {block : Block} {coinbase : Transaction} {height : Nat} {S F : Amount .nonNegative}
    {deferred : Amount .negativeAllowed} (_hcoinbase : block.transactions.head? = some coinbase)
    (_hheight : block.coinbaseHeight = some height) (hpos : 0 < height)
    (_hS : blockSubsidy height = .ok S) (hsubsidy : subsidyIsValid block S = .ok deferred)
    (hfees : minerFeesAreValid privateFromZeroOvk coinbase height F S deferred = .ok ()) :
    Conserved coinbase height S F := by
  have hok := minerFeesAreValid_eq_ok hfees
  have hpayout := hok.payout hpos
  have hdeferred : deferred.zatoshis = 0 := by
    rw [subsidyIsValid_eq_ok hsubsidy]
    rfl
  have htotal : coinbase.outputTotal - coinbase.ironwoodAmount.zatoshis =
      S.zatoshis + F.zatoshis := by
    have h := hok.total
    rw [saplingAmount_of_none hpayout.noSapling, orchardAmount_of_none hpayout.noOrchard] at h
    omega
  refine ⟨hpayout.noSapling, hpayout.noOrchard, htotal, hok.limit hpos, ?_, ?_⟩
  · intro hstart hend
    refine ⟨⟨foundationAmount S, foundationScript⟩, hpayout.foundation _ ?_, ?_, rfl⟩
    · unfold foundationOutputs wcashFoundationFund foundationStartHeight foundationExpiryHeight
      rw [if_neg (by omega)]
      exact mem_singleton.mpr rfl
    · show S.zatoshis * 3 / 10 = 3 * S.zatoshis / 10
      rw [Int.mul_comm]
  · rcases hpayout.mode with hactions | houtputs
    · left
      have hzero := ironwoodAmount_of_none (Transaction.ironwoodActions_eq_nil.mp hactions)
      exact ⟨hactions, by omega⟩
    · right
      refine ⟨houtputs, ?_⟩
      have hshare : coinbase.outputTotal = foundationShare height S := by
        rw [Transaction.outputTotal, houtputs, foundationShare_eq]
      omega

/-! A coinbase at the first height of the foundation term: the foundation
output, and the rest shielded into Ironwood. -/

def sampleSubsidy : Amount .nonNegative := ⟨1814194185, by decide, by decide⟩

def sampleFees : Amount .nonNegative := ⟨1000, by decide, by decide⟩

def sampleShielded : OrchardBundle where
  actions := [⟨.fill 32 1, .fill 32 2⟩]
  actions_ne := by decide
  spendsEnabled := false
  outputsEnabled := true
  valueBalance := ⟨-1269936930, by decide, by decide⟩

def sampleCoinbase : Transaction where
  hash := .fill 32 7
  version := 6
  inputs := [.coinbase 33000]
  outputs := [⟨⟨544258255, by decide, by decide⟩, foundationScript⟩]
  sproutBundle := none
  saplingBundle := none
  orchardBundle := none
  ironwoodBundle := some sampleShielded

def sampleBlock : Block := ⟨.fill 32 8, .fill 32 9, 1, [sampleCoinbase]⟩

theorem coinbase_value_conserved_shielded :
    Conserved sampleCoinbase 33000 sampleSubsidy sampleFees := by
  have hcoinbase : sampleBlock.transactions.head? = some sampleCoinbase := rfl
  have hheight : sampleBlock.coinbaseHeight = some 33000 := rfl
  have hS : blockSubsidy 33000 = .ok sampleSubsidy :=
    blockSubsidy_ramp (by decide) (by decide) (by decide)
  have hsubsidy : subsidyIsValid sampleBlock sampleSubsidy = .ok (.zero _) := by decide
  have hfees : minerFeesAreValid (fun _ _ => true) sampleCoinbase 33000 sampleFees sampleSubsidy
      (.zero _) = .ok () := by decide
  exact coinbase_value_conserved hcoinbase hheight (by decide) hS hsubsidy hfees

end Wolf.Consensus
