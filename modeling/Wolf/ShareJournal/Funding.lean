import Wolf.Consensus.Coinbase
import Wolf.ShareJournal.Record

/-! # The funding checks of the coordinator

The coordinator inspects the coinbase of a Wcash block twice: a
candidate before it is mined on (`validate_wcash_candidate_payout`) and a
retained winner before it is replayed (`validate_recovered_wcash_funding`).
This module states both, and the two consensus checks that the first
result compares them with, for each of the three Wcash networks.

Trial decryption, the upgrade schedule and the branch id in the bytes of
a transaction are parameters (`Funding`). A message that quotes an
inner error is kept without the quotation.

* `funding_checks_agree`: recovery accepts what consensus accepts, and
  an accepted candidate pays exactly what it advertises. -/

namespace Wolf.ShareJournal

open Ledger Consensus List Int

/-! ## The Wcash networks -/

inductive WcashNetwork where
  | mainnet
  | testnet
  | regtest
  deriving DecidableEq

/-- The branch id of the transactions of a network. -/
def WcashNetwork.branchId : WcashNetwork → Nat
  | mainnet => 0xd9c6a7ee
  | testnet => 0x54ba2bfb
  | regtest => 0xc3a6678a

/-- What the checks read besides the block. -/
structure Funding where
  /-- `WCASH_FOUNDATION_TEST_FIXTURE_ENABLED`. -/
  fixtureEnabled : Bool
  consensusBranchId : Transaction → Nat
  /-- `NetworkUpgrade::current(network, height) < NetworkUpgrade::Nu6`. -/
  beforeNu6 : WcashNetwork → Nat → Bool
  /-- `ironwood_outputs_are_private_from_zero_ovk`. -/
  privateFromZeroOvk : WcashNetwork → Transaction → Nat → Bool

/-- `WCASH_INITIAL_BLOCK_SUBSIDY`. -/
def initialBlockSubsidy : Nat := 625000000

/-- `WCASH_TESTNET_SLOW_START_INTERVAL`. -/
def testnetSlowStartInterval : Nat := 40000

/-- `halving` on Testnet and Regtest. -/
def WcashNetwork.halving (net : WcashNetwork) (height : Nat) : Nat :=
  (height - if net = .testnet then 20000 else 1) / 1680000

def WcashNetwork.blockSubsidy (net : WcashNetwork) (height : Nat) :
    Except SubsidyError (Amount .nonNegative) :=
  if net = .mainnet then Consensus.blockSubsidy height
  else if net = .testnet ∧ height ≤ testnetSlowStartInterval then
    mapErr .invalidAmount
      (Amount.tryFrom _ ↑(initialBlockSubsidy * height / testnetSlowStartInterval))
  else if height = 0 then .ok (.zero _)
  else
    -- `checked_shr` refuses to shift by the width of the type.
    let amount := if net.halving height < 64 then initialBlockSubsidy >>> net.halving height else 0
    mapErr .invalidAmount (Amount.tryFrom _ ↑amount)

/-- The script of a pay-to-public-key-hash address. -/
def p2pkhScript (hash : Bytes) : Bytes := [0x76, 0xa9, 0x14] ++ hash ++ [0x88, 0xac]

/-- The script of a pay-to-script-hash address. -/
def p2shScript (hash : Bytes) : Bytes := [0xa9, 0x14] ++ hash ++ [0x87]

/-- The public key hash of `WCASH_FOUNDATION_TEST_ADDRESS`. -/
def foundationTestHash : Bytes :=
  [0x7d, 0x43, 0x7b, 0xac, 0x72, 0x0b, 0x61, 0x06, 0x92, 0xae, 0x37, 0x3e, 0x43, 0xfa, 0x65, 0x4c,
    0x50, 0xc1, 0x96, 0xf2]

section Rules

variable (x : Funding) (net : WcashNetwork)

/-- `wcash_foundation_activation_height` and `wcash_foundation_expiry_height`. -/
def foundationTerm : Option (Nat × Nat) :=
  if net = .mainnet then some (foundationStartHeight, foundationExpiryHeight)
  else if x.fixtureEnabled ∧ net = .regtest then some (10, 20)
  else none

/-- `wcash_foundation_fund`. -/
def foundationFund (height : Nat) (grossSubsidy : Amount .nonNegative) :
    Option WcashFoundationAllocation := do
  let (start, expiry) ← foundationTerm x net
  if height < start ∨ expiry ≤ height then none
  else
    let script := if net = .mainnet then foundationScript else p2pkhScript foundationTestHash
    some ⟨foundationAmount grossSubsidy, script⟩

/-- The amount of the foundation output, zero without one. -/
def fundAmount (height : Nat) (grossSubsidy : Amount .nonNegative) : Amount .nonNegative :=
  ((foundationFund x net height grossSubsidy).map WcashFoundationAllocation.amount).getD (.zero _)

/-- `wcash_foundation_fund_output_index`. -/
def fundOutputIndex (height : Nat) (grossSubsidy : Amount .nonNegative) (outputs : List Output) :
    Except SubsidyError (Option Nat) :=
  match foundationFund x net height grossSubsidy with
  | none => .ok none
  | some allocation => do
    let index ← okOr (outputs.findIdx? (· == allocation.output)) .wcashFoundationOutputMissing
    .ok (some index)

/-! ## The consensus checks -/

def subsidyIsValid (block : Block) (expectedBlockSubsidy : Amount .nonNegative) :
    Except BlockError (Amount .negativeAllowed) :=
  if expectedBlockSubsidy.zatoshis = 0 then .ok (.zero _)
  else do
    let height ← okOr block.coinbaseHeight (.subsidy .noCoinbase)
    let coinbase ← okOr block.transactions.head? (.subsidy .noCoinbase)
    let _ ← mapErr .subsidy (fundOutputIndex x net height expectedBlockSubsidy coinbase.outputs)
    .ok (.zero _)

/-- The Ironwood branch of `miner_fees_are_valid`. -/
def ironwoodPayoutIsValid (coinbaseTx : Transaction) (height : Nat)
    (totalInputValue expectedBlockSubsidy : Amount .nonNegative) : Except BlockError Unit := do
  mapErr .transaction (wcashCoinbaseOutputsArePrivate (x.privateFromZeroOvk net) coinbaseTx height)
  let minerInputValue ← mapErr (fun _ => .subsidy .underflow)
    (totalInputValue.sub (fundAmount x net height expectedBlockSubsidy))
  rejectIf (minerInputValue.zatoshis ≠ 0 ∧ 0 ≤ coinbaseTx.ironwoodAmount.zatoshis)
    (.subsidy .wcashIronwoodValueBalanceNotNegative)

/-- The rules on the components of a coinbase above genesis. -/
def payoutIsValid (coinbaseTx : Transaction) (height : Nat)
    (totalInputValue expectedBlockSubsidy : Amount .nonNegative) : Except BlockError Unit := do
  rejectIf coinbaseTx.saplingBundle.isSome (.subsidy .wcashSaplingCoinbaseOutput)
  rejectIf coinbaseTx.orchardBundle.isSome (.subsidy .wcashOrchardCoinbaseOutput)
  let index ← mapErr .subsidy (fundOutputIndex x net height expectedBlockSubsidy coinbaseTx.outputs)
  let mode ← mapErr .subsidy (wcashCoinbasePayoutMode
    (decide (index.isSome.toNat < coinbaseTx.outputs.length))
    coinbaseTx.ironwoodActions.head?.isSome)
  match mode with
  | .ironwood => ironwoodPayoutIsValid x net coinbaseTx height totalInputValue expectedBlockSubsidy
  | .transparent => .ok ()

def minerFeesAreValid (coinbaseTx : Transaction) (height : Nat)
    (blockMinerFees expectedBlockSubsidy : Amount .nonNegative)
    (expectedDeferredPoolBalanceChange : Amount .negativeAllowed) : Except BlockError Unit := do
  let transparent ← mapErr (fun _ => .subsidy .overflow)
    (Amount.sum (coinbaseTx.outputs.map Output.value))
  let transparent ← mapErr (fun _ => .other "invalid transparent value balance")
    (transparent.constrain .negativeAllowed)
  let totalOutput ← mapErr (fun _ => .subsidy .overflow)
    (totalOutputValue coinbaseTx transparent expectedDeferredPoolBalanceChange)
  coinbaseValueLimit height expectedBlockSubsidy blockMinerFees
  let totalInput ← mapErr (fun _ => .subsidy .overflow) (expectedBlockSubsidy.add blockMinerFees)
  (if 0 < height then payoutIsValid x net coinbaseTx height totalInput expectedBlockSubsidy
    else .ok () : Except BlockError Unit)
  rejectIf
    (if net ≠ .mainnet ∧ x.beforeNu6 net height then totalInput.zatoshis < totalOutput.zatoshis
      else totalOutput.zatoshis ≠ totalInput.zatoshis)
    (.subsidy .invalidMinerFees)

/-! ## The recovery of a retained winner -/

/-- The checked `i64` operations: the exact result, if it fits. -/
def i64 (value : Int) : Option Int :=
  if -2 ^ 63 ≤ value ∧ value < 2 ^ 63 then some value else none

/-- `try_fold` with `checked_add`. -/
def sumI64 (outputs : List Output) : Option Int :=
  outputs.foldlM (fun sum output => i64 (sum + output.value.zatoshis)) 0

def embeddedConsensusBranchId (tx : Transaction) : Option Nat :=
  if 5 ≤ tx.version then some (x.consensusBranchId tx) else none

/-- `recovered_wcash_network`. The parameters of Mainnet are frozen, so
that its profile is always available. -/
def recoveredWcashNetwork (block : Block) : Result WcashNetwork := do
  let coinbase ← okOr block.transactions.head? (invalid "retained Wcash winner has no coinbase")
  match embeddedConsensusBranchId x coinbase with
  | some 0xd9c6a7ee => .ok .mainnet
  | some 0x54ba2bfb => .ok .testnet
  | some 0xc3a6678a => .ok .regtest
  | _ => .error (invalid ("retained Wcash winner has an unknown transaction domain; " ++
      "preserve the journal for operator review"))

/-- The checks of `validate_recovered_wcash_funding` above genesis. -/
def checkRecoveredFunding (coinbase : Transaction) (height : Nat) : Result Unit := do
  rejectIf (x.fixtureEnabled ∧ net ≠ .regtest)
    (invalid "funding-test-fixture cannot recover public-network Wcash winners")
  let gross ← mapErr (fun _ => invalid "retained Wcash subsidy is invalid")
    (net.blockSubsidy height)
  let fundIndex ← mapErr
    (fun _ => invalid ("retained Wcash winner violates the foundation policy; preserve the " ++
      "journal and use an upgraded validating node; incompatible winner bytes must not be " ++
      "replayed or credited"))
    (fundOutputIndex x net height gross coinbase.outputs)
  let hasMinerTransparent := decide (fundIndex.isSome.toNat < coinbase.outputs.length)
  let hasIronwood := coinbase.ironwoodActions.head?.isSome
  rejectIf (coinbase.saplingBundle.isSome ∨ coinbase.orchardBundle.isSome ∨
      hasMinerTransparent = hasIronwood)
    (invalid "retained Wcash winner violates the miner payout-mode rules")
  let transparentValue ← okOr (sumI64 coinbase.outputs)
    (invalid "retained Wcash output value overflows")
  let total ← okOr (i64 (transparentValue - coinbase.ironwoodAmount.zatoshis))
    (invalid "retained Wcash total coinbase value overflows")
  rejectIf (total < gross.zatoshis ∨ maxSingleTransactionValue < total)
    (invalid "retained Wcash winner has an invalid total coinbase value")
  rejectIf (hasIronwood ∧ (0 < coinbase.ironwoodAmount.zatoshis ∨
      x.privateFromZeroOvk net coinbase height = false))
    (invalid "retained Wcash winner violates the private Ironwood payout rules")

def validateRecoveredWcashFunding (block : Block) : Result Unit := do
  let height ← okOr block.coinbaseHeight (invalid "retained Wcash winner has no coinbase height")
  if height = 0 then .ok ()
  else
    let coinbase ← okOr block.transactions.head? (invalid "retained Wcash winner has no coinbase")
    let net ← recoveredWcashNetwork x block
    checkRecoveredFunding x net coinbase height

/-! ## The payout of a candidate -/

inductive WcashAddressKind where
  | p2pkh (hash : FixedBytes 20)
  | p2sh (hash : FixedBytes 20)
  | unified
  | tex

/-- `WcashPayoutAuthority`; the incoming viewing key by the value and the
recipient that it decrypts from an action. -/
inductive WcashPayoutAuthority (Recipient : Type) where
  | transparent
  | ironwood (recipient : Recipient) (preparedIvk : Action → Option (Nat × Recipient))

inductive NativeWcashPayoutVerification where
  | exactTransparentRecipient
  | exactPrivateRecipient
  deriving DecidableEq

structure ValidatedWcashCandidatePayout where
  valueZatoshis : Nat
  verification : NativeWcashPayoutVerification
  deriving DecidableEq

/-- The `miner_outputs` of `validate_transparent_wcash_payout`. -/
def minerOutputs (outputs : List Output) (fundOutputIndex : Option Nat) : List Output :=
  (outputs.zipIdx.filter fun entry => decide (some entry.2 ≠ fundOutputIndex)).map Prod.fst

/-- `u64::try_from`. -/
def tryU64 (value : Int) : Result Nat := do
  rejectIf (value < 0) (.invalidParentTemplate "createauxblock coinbase value exceeds u64")
  .ok value.toNat

def validateTransparentWcashPayout (coinbase : Transaction) (expectedScript : Bytes)
    (advertisedValue : Int) (fundOutputIndex : Option Nat) : Result Nat := do
  let outputs := minerOutputs coinbase.outputs fundOutputIndex
  rejectIf (outputs = [] ∨ coinbase.saplingBundle.isSome ∨ coinbase.orchardBundle.isSome ∨
      coinbase.ironwoodBundle.isSome ∨ ∃ output ∈ outputs, output.lockScript ≠ expectedScript)
    (.invalidParentTemplate
      "createauxblock candidate does not pay only the configured transparent Wcash address")
  let actualValue ← okOr (sumI64 outputs)
    (.invalidParentTemplate "createauxblock transparent output value overflows i64")
  rejectIf (actualValue ≠ advertisedValue)
    (.invalidParentTemplate "createauxblock transparent outputs do not match coinbasevalue")
  tryU64 actualValue

variable {Recipient : Type} [DecidableEq Recipient]

/-- One action of the attribution loop. -/
def attributeAction (recipient : Recipient) (preparedIvk : Action → Option (Nat × Recipient))
    (attributedValue : Nat) (action : Action) : Result Nat := do
  let (value, decryptedRecipient) ← okOr (preparedIvk action)
    (.invalidParentTemplate "createauxblock contains an unattributed Ironwood payout action")
  rejectIf (decryptedRecipient ≠ recipient) (.invalidParentTemplate
    "createauxblock Ironwood action does not pay the configured Wcash receiver")
  okOr (checkedAdd 64 attributedValue value)
    (.invalidParentTemplate "createauxblock attributed Ironwood value overflows u64")

/-- The `Unified` arm of the candidate check. -/
def validateIronwoodWcashPayout (coinbase : Transaction) (recipient : Recipient)
    (preparedIvk : Action → Option (Nat × Recipient)) (advertisedValue : Int) (height : Nat)
    (fundOutputIndex : Option Nat) : Result Nat := do
  rejectIf (coinbase.outputs.length ≠ fundOutputIndex.isSome.toNat ∨
      coinbase.saplingBundle.isSome ∨ coinbase.orchardBundle.isSome ∨
      coinbase.ironwoodActions = [])
    (.invalidParentTemplate "createauxblock candidate does not use an Ironwood-only private payout")
  let actualValue ← okOr (i64 (-coinbase.ironwoodAmount.zatoshis))
    (.invalidParentTemplate "createauxblock coinbase value cannot be negated")
  rejectIf (actualValue ≠ advertisedValue)
    (.invalidParentTemplate "createauxblock Ironwood value does not match coinbasevalue")
  rejectIf (x.privateFromZeroOvk net coinbase height = false)
    (.invalidParentTemplate "createauxblock Ironwood payout is publicly recoverable")
  let valueZatoshis ← tryU64 actualValue
  let bundle ← okOr coinbase.ironwoodBundle
    (.invalidParentTemplate "createauxblock candidate has no Ironwood payout bundle")
  let attributedValue ← bundle.actions.foldlM (attributeAction recipient preparedIvk) 0
  rejectIf (attributedValue ≠ valueZatoshis)
    (.invalidParentTemplate "createauxblock attributed Ironwood value does not match coinbasevalue")
  .ok valueZatoshis

/-- The `match` on the expected payout. -/
def validatePayoutKind (coinbase : Transaction) (expectedPayout : WcashAddressKind)
    (payoutAuthority : WcashPayoutAuthority Recipient) (advertisedValue : Int) (height : Nat)
    (fundOutputIndex : Option Nat) : Result ValidatedWcashCandidatePayout :=
  match expectedPayout, payoutAuthority with
  | .p2pkh hash, .transparent => do
    let value ← validateTransparentWcashPayout coinbase (p2pkhScript hash.data) advertisedValue
      fundOutputIndex
    .ok ⟨value, .exactTransparentRecipient⟩
  | .p2sh hash, .transparent => do
    let value ← validateTransparentWcashPayout coinbase (p2shScript hash.data) advertisedValue
      fundOutputIndex
    .ok ⟨value, .exactTransparentRecipient⟩
  | .unified, .ironwood recipient preparedIvk => do
    let value ← validateIronwoodWcashPayout x net coinbase recipient preparedIvk advertisedValue
      height fundOutputIndex
    .ok ⟨value, .exactPrivateRecipient⟩
  | .unified, .transparent =>
    .error (invalid "private Wcash payout has no matching incoming-viewing authority")
  | .tex, _ => .error (invalid "TEX is not a Wcash coinbase payout mode")
  | _, _ => .error (invalid "Wcash payout authority does not match its transparent address")

def validateWcashCandidatePayoutWithAuthority (candidate : Block)
    (expectedPayout : WcashAddressKind) (payoutAuthority : WcashPayoutAuthority Recipient)
    (advertisedValue : Int) (height : Nat) : Result ValidatedWcashCandidatePayout := do
  rejectIf (advertisedValue < 0)
    (.invalidParentTemplate "createauxblock advertised a negative coinbase value")
  let coinbase ← okOr candidate.transactions.head?
    (.invalidParentTemplate "createauxblock candidate has no coinbase transaction")
  rejectIf (coinbase.isCoinbase = false) (.invalidParentTemplate
    "createauxblock candidate does not start with a coinbase transaction")
  let expectedBlockSubsidy ← mapErr
    (fun _ => .invalidParentTemplate s!"cannot calculate Wcash block subsidy at height {height}")
    (net.blockSubsidy height)
  rejectIf (candidate.coinbaseHeight ≠ some height) (.invalidParentTemplate
    "createauxblock payout height does not match the serialized candidate")
  let fundOutputIndex ← mapErr
    (fun _ => .invalidParentTemplate "createauxblock mandatory Wcash foundation output is invalid")
    (fundOutputIndex x net height expectedBlockSubsidy coinbase.outputs)
  let fund := fundAmount x net height expectedBlockSubsidy
  rejectIf ((i64 (advertisedValue + fund.zatoshis)).all (maxSingleTransactionValue < ·))
    (.invalidParentTemplate "createauxblock total coinbase value exceeds the Wcash limit")
  let minimum ← mapErr
    (fun _ => .invalidParentTemplate s!"cannot calculate Wcash miner subsidy at height {height}")
    (expectedBlockSubsidy.sub fund)
  rejectIf (advertisedValue < minimum.zatoshis) (.invalidParentTemplate
    (s!"createauxblock coinbasevalue {advertisedValue} is below the Wcash miner subsidy " ++
      s!"{minimum.zatoshis} at height {height}"))
  rejectIf (advertisedValue = 0 ∧ candidate.transactions.length ≠ 1) (.invalidParentTemplate
    "zero-value createauxblock candidate contains transactions whose fees cannot be authenticated")
  validatePayoutKind x net coinbase expectedPayout payoutAuthority advertisedValue height
    fundOutputIndex

end Rules

/-! ## The foundation output among the outputs -/

variable {outputs : List Output} {block : Block} {index : Option Nat} {tx : Transaction}
  {net : WcashNetwork}

/-- Leaving out one index leaves out one output. -/
theorem minerOutputs_perm {index : Nat} (h : index < outputs.length) :
    outputs.Perm (outputs[index] :: minerOutputs outputs (some index)) := by
  -- The indexes of a tail start at any number.
  suffices hfrom : ∀ (outputs : List Output) (start index : Nat) (h : index < outputs.length),
      outputs.Perm (outputs[index] :: ((outputs.zipIdx start).filter fun entry =>
        decide (some entry.2 ≠ some (index + start))).map Prod.fst) from
    hfrom outputs 0 index h
  intro outputs
  induction outputs with
  | nil => exact fun start index h => absurd h (Nat.not_lt_zero index)
  | cons first rest ih =>
    intro start index h
    rw [zipIdx_cons]
    cases index with
    | zero =>
      have hkeep : (rest.zipIdx (start + 1)).filter
          (fun entry => decide (some entry.2 ≠ some (0 + start))) = rest.zipIdx (start + 1) := by
        refine filter_eq_self.mpr fun entry hentry => ?_
        have hle := le_snd_of_mem_zipIdx hentry
        simp
        omega
      rw [filter_cons_of_neg (by simp), hkeep]
      simp
    | succ index =>
      have hrest := ih (start + 1) index (Nat.lt_of_succ_lt_succ h)
      rw [filter_cons_of_pos (by simp), Nat.add_right_comm index 1 start]
      exact (hrest.cons first).trans (List.Perm.swap _ _ _)

section Index

variable {x : Funding} {net : WcashNetwork} {height : Nat} {S : Amount .nonNegative}

/-- The outputs are the miner's and, if there is an allocation, one output
for it. -/
theorem fundOutputIndex_eq_ok (h : fundOutputIndex x net height S tx.outputs = .ok index) :
    tx.outputTotal = ((minerOutputs tx.outputs index).map fun output => output.value.zatoshis).sum +
        (fundAmount x net height S).zatoshis ∧
      tx.outputs.length = (minerOutputs tx.outputs index).length + index.isSome.toNat := by
  unfold fundOutputIndex at h
  unfold fundAmount Transaction.outputTotal
  cases hfund : foundationFund x net height S with
  | none =>
    rw [hfund] at h
    cases h
    simp [minerOutputs]
  | some allocation =>
    rw [hfund] at h
    obtain ⟨i, hi, h⟩ := of_okOr_bind h
    cases h
    obtain ⟨hlt, heq, _⟩ := List.findIdx?_eq_some_iff_getElem.mp hi
    have hperm := minerOutputs_perm hlt
    rw [eq_of_beq heq] at hperm
    constructor
    · rw [(hperm.map fun output => output.value.zatoshis).sum_eq]
      exact add_comm _ _
    · exact hperm.length_eq

end Index

theorem sumI64_of_le {sum : Int} (hlo : 0 ≤ sum)
    (h : sum + (outputs.map fun output => output.value.zatoshis).sum ≤ maxMoney) :
    outputs.foldlM (fun sum output => i64 (sum + output.value.zatoshis)) sum =
      some (sum + (outputs.map fun output => output.value.zatoshis).sum) := by
  induction outputs generalizing sum with
  | nil => simp
  | cons output rest ih =>
    have hrest : 0 ≤ (rest.map fun output => output.value.zatoshis).sum := by
      apply sum_nonneg
      intro value hvalue
      obtain ⟨a, _, rfl⟩ := mem_map.mp hvalue
      exact a.value.lo_le
    have hvalue : 0 ≤ output.value.zatoshis := output.value.lo_le
    have hmax : maxMoney < 2 ^ 63 := by decide
    rw [map_cons, sum_cons] at h ⊢
    rw [foldlM_cons, i64, if_pos (by omega), Option.bind_eq_bind, Option.bind_some,
      ih (by omega) (by omega), add_assoc]

theorem sumI64_eq_some {sum total : Int}
    (h : outputs.foldlM (fun sum output => i64 (sum + output.value.zatoshis)) sum = some total) :
    total = sum + (outputs.map fun output => output.value.zatoshis).sum := by
  induction outputs generalizing sum with
  | nil =>
    cases h
    simp
  | cons output rest ih =>
    rw [foldlM_cons, Option.bind_eq_bind, Option.bind_eq_some_iff] at h
    obtain ⟨next, hnext, h⟩ := h
    unfold i64 at hnext
    split at hnext
    · cases hnext
      rw [ih h, map_cons, sum_cons, add_assoc]
    · cases hnext

/-! ## What the checks leave -/

/-- What recovery asks for, of a coinbase that passed. -/
structure FundingOk (x : Funding) (net : WcashNetwork) (tx : Transaction) (height : Nat)
    (S : Amount .nonNegative) (index : Option Nat) : Prop where
  noSapling : tx.saplingBundle = none
  noOrchard : tx.orchardBundle = none
  found : fundOutputIndex x net height S tx.outputs = .ok index
  mode : decide (index.isSome.toNat < tx.outputs.length) ≠ tx.ironwoodActions.head?.isSome
  outputs : tx.outputTotal ≤ maxMoney
  atLeast : S.zatoshis ≤ tx.outputTotal - tx.ironwoodAmount.zatoshis
  atMost : tx.outputTotal - tx.ironwoodAmount.zatoshis ≤ maxSingleTransactionValue
  shielded : tx.ironwoodActions.head?.isSome = true →
    x.privateFromZeroOvk net tx height = true ∧ tx.ironwoodAmount.zatoshis ≤ 0

section Consensus

variable {x : Funding} {net : WcashNetwork} {height : Nat} {S F totalInput : Amount .nonNegative}
  {deferred : Amount .negativeAllowed}

theorem deferred_eq_zero (h : subsidyIsValid x net block S = .ok deferred) :
    deferred.zatoshis = 0 := by
  unfold subsidyIsValid at h
  split at h
  · cases h
    rfl
  · obtain ⟨_, _, h⟩ := of_two_binds h
    obtain ⟨_, _, h⟩ := of_bind h
    cases h
    rfl

theorem wcashCoinbasePayoutMode_eq_ok {transparent ironwood : Bool}
    {mode : WcashCoinbasePayoutMode} (h : wcashCoinbasePayoutMode transparent ironwood = .ok mode) :
    transparent ≠ ironwood ∧ (ironwood = true → mode = .ironwood) := by
  cases transparent <;> cases ironwood <;> cases h <;> simp

/-- Consensus leaves nothing that recovery could refuse. -/
theorem fundingOk_of_consensus (hpos : 0 < height)
    (hsubsidy : subsidyIsValid x net block S = .ok deferred)
    (hfees : minerFeesAreValid x net tx height F S deferred = .ok ())
    (hrule : net = .mainnet ∨ x.beforeNu6 net height = false) :
    ∃ index, FundingOk x net tx height S index := by
  obtain ⟨sum, hsum, h⟩ := of_bind hfees
  obtain ⟨transparent, htransparent, h⟩ := of_bind h
  obtain ⟨output, houtput, h⟩ := of_bind h
  obtain ⟨_, hlimit, h⟩ := of_bind h
  obtain ⟨input, hinput, h⟩ := of_bind h
  obtain ⟨_, hpayout, h⟩ := of_bind h
  rw [if_pos hpos] at hpayout
  obtain ⟨_, hsapling, hpayout⟩ := of_bind hpayout
  obtain ⟨_, horchard, hpayout⟩ := of_bind hpayout
  obtain ⟨index, hindex, hpayout⟩ := of_bind hpayout
  obtain ⟨mode, hmode, hpayout⟩ := of_bind hpayout
  have hequal : ¬ (net ≠ .mainnet ∧ x.beforeNu6 net height = true) := by
    rintro ⟨hnet, hbefore⟩
    rcases hrule with hrule | hrule
    · exact hnet hrule
    · rw [hrule] at hbefore
      cases hbefore
  simp only [mapErr_eq_ok, Amount.constrain_eq_ok, Amount.add_eq_ok, rejectIf_eq_ok,
    coinbaseValueLimit, totalOutputValue, bind_eq_ok, Amount.sub_eq_ok, if_neg hequal]
    at hsum htransparent houtput hlimit hinput h hsapling horchard hindex hmode
  obtain ⟨_, h₁, _, h₂, _, h₃, h₄⟩ := houtput
  have hsapling : tx.saplingBundle = none := by simpa using hsapling
  have horchard : tx.orchardBundle = none := by simpa using horchard
  have hdeferred := deferred_eq_zero hsubsidy
  have houtputs : sum.zatoshis = tx.outputTotal := by
    rw [Amount.sum_eq_ok hsum, map_map]
    rfl
  have htotal : tx.outputTotal - tx.ironwoodAmount.zatoshis = input.zatoshis := by
    rw [saplingAmount_of_none hsapling] at h₁
    rw [orchardAmount_of_none horchard] at h₂
    omega
  have hmax : sum.zatoshis ≤ maxMoney := sum.le_hi
  have hfee : 0 ≤ F.zatoshis := F.lo_le
  obtain ⟨hne, hironwood⟩ := wcashCoinbasePayoutMode_eq_ok hmode
  refine ⟨index, hsapling, horchard, hindex, hne, by omega, by omega, by omega, fun hactions => ?_⟩
  rw [hironwood hactions] at hpayout
  obtain ⟨_, hprivate, hpayout⟩ := of_bind hpayout
  obtain ⟨miner, hminer, hpayout⟩ := of_mapErr_bind hpayout
  obtain ⟨_, _, hprivate⟩ := of_bind (mapErr_eq_ok.mp hprivate)
  rw [Amount.sub_eq_ok] at hminer
  rw [rejectIf_eq_ok] at hprivate hpayout
  refine ⟨by simpa using hprivate, ?_⟩
  -- Next to an Ironwood payout no output is the miner's.
  obtain ⟨hpaid, hlength⟩ := fundOutputIndex_eq_ok hindex
  have hnone : minerOutputs tx.outputs index = [] := by
    rw [hactions] at hne
    have hnot : ¬ index.isSome.toNat < tx.outputs.length := by simpa using hne
    exact length_eq_zero_iff.mp (by omega)
  rw [hnone, map_nil, sum_nil] at hpaid
  omega

/-- Recovery accepts such a coinbase. -/
theorem FundingOk.recovered (h : FundingOk x net tx height S index)
    (hfixture : x.fixtureEnabled = false) (hS : net.blockSubsidy height = .ok S) :
    checkRecoveredFunding x net tx height = .ok () := by
  have hmax : maxSingleTransactionValue < 2 ^ 63 := by decide
  have hgross : 0 ≤ S.zatoshis := S.lo_le
  have hsum : sumI64 tx.outputs = some tx.outputTotal := by
    have houtputs : 0 + tx.outputTotal ≤ maxMoney := by
      rw [zero_add]
      exact h.outputs
    have hfold := sumI64_of_le (le_refl 0) houtputs
    rw [zero_add] at hfold
    exact hfold
  have htotal : i64 (tx.outputTotal - tx.ironwoodAmount.zatoshis) =
      some (tx.outputTotal - tx.ironwoodAmount.zatoshis) := by
    have hatLeast := h.atLeast
    have hatMost := h.atMost
    exact if_pos (by omega)
  unfold checkRecoveredFunding
  rw [rejectIf_bind (by simp [hfixture]), hS, mapErr_ok, ok_bind, h.found, mapErr_ok, ok_bind]
  rw [rejectIf_bind (by simpa [h.noSapling, h.noOrchard] using h.mode), hsum, okOr_bind,
    htotal, okOr_bind,
    rejectIf_bind (not_or.mpr ⟨not_lt.mpr h.atLeast, not_lt.mpr h.atMost⟩)]
  apply rejectIf_of_not
  rintro ⟨hactions, hpublic⟩
  obtain ⟨hprivate, hbalance⟩ := h.shielded hactions
  rcases hpublic with hpositive | hpublic
  · exact not_lt.mpr hbalance hpositive
  · rw [hprivate] at hpublic
    cases hpublic

end Consensus

/-! ## What an accepted candidate pays -/

section Candidate

variable {x : Funding} {height : Nat} {v : Int} {value : Nat} {S : Amount .nonNegative}
  {Recipient : Type}

/-- What the miner receives is advertised. -/
def PaysMiner (tx : Transaction) (index : Option Nat) (v : Int) : Prop :=
  ((minerOutputs tx.outputs index).map fun output => output.value.zatoshis).sum -
    tx.ironwoodAmount.zatoshis = v

theorem validateTransparentWcashPayout_eq_ok {script : Bytes}
    (h : validateTransparentWcashPayout tx script v index = .ok value) : PaysMiner tx index v := by
  obtain ⟨hmode, h⟩ := of_rejectIf_bind h
  obtain ⟨actual, hactual, h⟩ := of_okOr_bind h
  obtain ⟨hvalue, _⟩ := of_rejectIf_bind h
  have hnone : tx.ironwoodBundle = none := by
    simp only [not_or, Option.not_isSome_iff_eq_none] at hmode
    exact hmode.2.2.2.1
  have hsum := sumI64_eq_some hactual
  unfold PaysMiner
  rw [ironwoodAmount_of_none hnone]
  omega

theorem validatePayoutKind_eq_ok [DecidableEq Recipient] {kind : WcashAddressKind}
    {authority : WcashPayoutAuthority Recipient} {payout : ValidatedWcashCandidatePayout}
    (hindex : fundOutputIndex x net height S tx.outputs = .ok index)
    (h : validatePayoutKind x net tx kind authority v height index = .ok payout) :
    PaysMiner tx index v := by
  unfold validatePayoutKind at h
  split at h
  · obtain ⟨_, hvalue, _⟩ := of_bind h
    exact validateTransparentWcashPayout_eq_ok hvalue
  · obtain ⟨_, hvalue, _⟩ := of_bind h
    exact validateTransparentWcashPayout_eq_ok hvalue
  · obtain ⟨_, h, _⟩ := of_bind h
    obtain ⟨hmode, h⟩ := of_rejectIf_bind h
    obtain ⟨actual, hactual, h⟩ := of_okOr_bind h
    obtain ⟨hvalue, _⟩ := of_rejectIf_bind h
    have hlength := (fundOutputIndex_eq_ok hindex).2
    have hnone : minerOutputs tx.outputs index = [] := by
      exact length_eq_zero_iff.mp (by omega)
    unfold i64 at hactual
    split at hactual
    · cases hactual
      unfold PaysMiner
      rw [hnone, map_nil, sum_nil]
      omega
    · cases hactual
  all_goals cases h

end Candidate

/-- Recovery never refuses the funding of a winner that consensus accepts,
and a candidate that the coordinator accepts pays the advertised value
and the foundation, which is at least the subsidy. -/
theorem funding_checks_agree (x : Funding) :
    (∀ block tx net height S F deferred, block.transactions.head? = some tx →
      block.coinbaseHeight = some height → 0 < height →
      embeddedConsensusBranchId x tx = some (WcashNetwork.branchId net) →
      net.blockSubsidy height = .ok S → subsidyIsValid x net block S = .ok deferred →
      minerFeesAreValid x net tx height F S deferred = .ok () →
      (net = .mainnet ∨ x.beforeNu6 net height = false) → x.fixtureEnabled = false →
      validateRecoveredWcashFunding x block = .ok ()) ∧
    (∀ (Recipient : Type) [DecidableEq Recipient] candidate kind
      (authority : WcashPayoutAuthority Recipient) net v height payout,
      validateWcashCandidatePayoutWithAuthority x net candidate kind authority v height
        = .ok payout →
      ∃ tx S, candidate.transactions.head? = some tx ∧ net.blockSubsidy height = .ok S ∧
        tx.outputTotal - tx.ironwoodAmount.zatoshis = v + (fundAmount x net height S).zatoshis ∧
        S.zatoshis ≤ tx.outputTotal - tx.ironwoodAmount.zatoshis ∧
        tx.outputTotal - tx.ironwoodAmount.zatoshis ≤ maxSingleTransactionValue) := by
  constructor
  · intro block tx net height S F deferred htx hheight hpos hbranch hS hsubsidy hfees hrule hfixture
    obtain ⟨index, hok⟩ := fundingOk_of_consensus hpos hsubsidy hfees hrule
    have hnetwork : recoveredWcashNetwork x block = .ok net := by
      unfold recoveredWcashNetwork
      rw [htx, okOr_bind, hbranch]
      cases net <;> rfl
    unfold validateRecoveredWcashFunding
    rw [hheight, okOr_bind, if_neg (Nat.ne_of_gt hpos), htx, hnetwork]
    exact hok.recovered hfixture hS
  · intro Recipient _ candidate kind authority net v height payout h
    obtain ⟨_, _, h⟩ := of_bind h
    obtain ⟨tx, htx, h⟩ := of_okOr_bind h
    obtain ⟨_, _, h⟩ := of_bind h
    obtain ⟨S, hS, h⟩ := of_mapErr_bind h
    obtain ⟨_, _, h⟩ := of_bind h
    obtain ⟨index, hindex, h⟩ := of_mapErr_bind h
    obtain ⟨hlimit, h⟩ := of_rejectIf_bind h
    obtain ⟨minimum, hminimum, h⟩ := of_mapErr_bind h
    obtain ⟨hleast, h⟩ := of_rejectIf_bind h
    obtain ⟨_, _, h⟩ := of_bind h
    have hmost : v + (fundAmount x net height S).zatoshis ≤ maxSingleTransactionValue := by
      unfold i64 at hlimit
      split at hlimit
      · simpa using hlimit
      · exact absurd rfl hlimit
    have hpays : PaysMiner tx index v := validatePayoutKind_eq_ok hindex h
    have hpaid := (fundOutputIndex_eq_ok hindex).1
    rw [Amount.sub_eq_ok] at hminimum
    unfold PaysMiner at hpays
    exact ⟨tx, S, htx, hS, by omega, by omega, by omega⟩

/-! The Mainnet coinbase of `Consensus.sampleBlock`, which shields the
miner's part, and a transparent candidate on Regtest. -/

def sampleFunding : Funding :=
  ⟨false, fun tx => if tx.inputs = [.coinbase 33000] then 0xd9c6a7ee else 0xc3a6678a,
    fun _ _ => false, fun _ _ _ => true⟩

def sampleCandidate : Block :=
  ⟨.fill 32 8, .fill 32 9, 1, [
    { sampleCoinbase with
      inputs := [.coinbase 1]
      outputs := [⟨⟨625000000, by decide, by decide⟩, p2pkhScript (FixedBytes.fill 20 5).data⟩]
      ironwoodBundle := none }]⟩

theorem funding_checks_agree_sample :
    validateRecoveredWcashFunding sampleFunding sampleBlock = .ok () ∧
      ∃ tx, sampleCandidate.transactions.head? = some tx ∧
        tx.outputTotal - tx.ironwoodAmount.zatoshis = 625000000 := by
  obtain ⟨hrecovered, hcandidate⟩ := funding_checks_agree sampleFunding
  constructor
  · have hS : WcashNetwork.mainnet.blockSubsidy 33000 = .ok sampleSubsidy :=
      blockSubsidy_ramp (by decide) (by decide) (by decide)
    exact hrecovered sampleBlock sampleCoinbase .mainnet 33000 sampleSubsidy sampleFees (.zero _)
      rfl rfl (by decide) rfl hS (by decide) (by decide) (.inl rfl) rfl
  · obtain ⟨tx, S, htx, hS, htotal, _⟩ := hcandidate Unit sampleCandidate (.p2pkh (.fill 20 5))
      .transparent .regtest 625000000 1 ⟨625000000, .exactTransparentRecipient⟩ (by decide)
    refine ⟨tx, htx, ?_⟩
    rw [htotal]
    rfl

end Wolf.ShareJournal
