import Mathlib.Algebra.BigOperators.Intervals
import Wolf.Consensus.Coinbase
import Wolf.Ledger.Path

/-! # The block verifier and the money supply

The transaction verifier computes the fee of every transaction, the
block verifier sums the fees in the order in which the answers arrive
and checks the coinbase against the sum, and the state adds the change
of the value pools that it computes from the block by itself.

The checks that concern no value (headers, scripts, proofs, expiry) are
parameters of the environment: they only reject. So are the answers of
the state to a lookup of a spent output.

* `emission_is_exact`: run lemma, by induction over the chain. -/

namespace Wolf.Consensus

open Ledger List

/-! ## The transaction verifier -/

/-- What the verifier asks of code outside this model. -/
structure VerifierEnv where
  /-- The checks on the header, the Merkle root and the time. -/
  headerChecks : Block → Except BlockError Unit
  /-- `check_structure_and_network_rules`. -/
  structureRules : Transaction → Nat → Except TransactionError Unit
  /-- The rules on expiry and lock time, and `check_transaction_invariants`. -/
  otherRules : Transaction → Nat → Except TransactionError Unit
  /-- The state's answer to `AwaitUtxo`. -/
  awaitUtxo : OutPoint → Except TransactionError Utxo
  /-- Scripts, proofs and signatures. -/
  asyncChecks : Transaction → Except TransactionError Unit
  sigops : Transaction → Except TransactionError Nat
  privateFromZeroOvk : Transaction → Nat → Bool

structure BlockResponse where
  minerFee : Option (Amount .nonNegative)
  sigops : Nat

/-- `coinbase_tx_no_prevout_joinsplit_spend` on a coinbase transaction. -/
def coinbaseTxNoPrevoutJoinsplitSpend (tx : Transaction) : Except TransactionError Unit := do
  rejectIf (0 < tx.joinsplitCount) .coinbaseHasJoinSplit
  rejectIf (tx.saplingBundle.any fun bundle => 0 < bundle.nullifiers.length) .coinbaseHasSpend
  rejectIf (tx.orchardBundle.any fun bundle => bundle.spendsEnabled)
    .coinbaseHasEnableSpendsOrchard
  rejectIf (tx.ironwoodBundle.any fun bundle => bundle.spendsEnabled)
    .coinbaseHasEnableSpendsIronwood

/-- The rules that distinguish coinbase transactions from others. -/
def coinbaseRules (tx : Transaction) : Except TransactionError Unit :=
  if tx.isCoinbase then coinbaseTxNoPrevoutJoinsplitSpend tx
  else rejectIf (tx.isValidNonCoinbase = false) .nonCoinbaseHasCoinbaseInput

def checkCommonConsensusRules (env : VerifierEnv) (tx : Transaction) (height : Nat) :
    Except TransactionError Unit := do
  rejectIf (0 < height ∧ tx.version ≠ 6) (.wcashRequiresV6 tx.version)
  rejectIf tx.sproutBundle.isSome .wcashSproutPoolDisabled
  rejectIf tx.saplingBundle.isSome .wcashSaplingPoolDisabled
  rejectIf tx.orchardBundle.isSome .wcashOrchardPoolDisabled
  env.structureRules tx height
  coinbaseRules tx
  env.otherRules tx height

section

variable (env : VerifierEnv) (knownUtxos : HashMap OutPoint OrderedUtxo)

/-- One input of `block_spent_utxos`: the block's own outputs come before
the state's answer. -/
def addSpentUtxo (spentUtxos : HashMap OutPoint Utxo) :
    Input → Except TransactionError (HashMap OutPoint Utxo)
  | .prevOut outpoint =>
    match knownUtxos.lookup outpoint with
    | some ordered => .ok (spentUtxos.insert outpoint ordered.utxo)
    | none => do
      let utxo ← env.awaitUtxo outpoint
      .ok (spentUtxos.insert outpoint utxo)
  | .coinbase _ => .ok spentUtxos

def blockSpentUtxos (tx : Transaction) : Except TransactionError (HashMap OutPoint Utxo) :=
  tx.inputs.foldlM (addSpentUtxo env knownUtxos) ∅

def minerFee (tx : Transaction) (spentUtxos : HashMap OutPoint Utxo) :
    Except TransactionError (Amount .nonNegative) :=
  match tx.valueBalance spentUtxos with
  | .ok balance => mapErr (fun _ => .incorrectFee) balance.remainingTransactionValue
  | .error _ => .error .incorrectFee

/-- Coinbase transactions pay no fee. -/
def feeOf (tx : Transaction) (spentUtxos : HashMap OutPoint Utxo) :
    Except TransactionError (Option (Amount .nonNegative)) :=
  if tx.isCoinbase then .ok none
  else do
    let fee ← minerFee tx spentUtxos
    .ok (some fee)

/-- `BlockTxVerifier::call`. -/
def verifyTransaction (height : Nat) (tx : Transaction) :
    Except TransactionError BlockResponse := do
  checkCommonConsensusRules env tx height
  let spentUtxos ← blockSpentUtxos env knownUtxos tx
  env.asyncChecks tx
  let fee ← feeOf tx spentUtxos
  let sigops ← env.sigops tx
  .ok ⟨fee, sigops⟩

/-! ## The block verifier -/

def coinbaseIsFirst (block : Block) : Except BlockError Transaction :=
  match block.transactions with
  | [] => .error .noTransactions
  | first :: rest => do
    rejectIf (first.isCoinbase = false) (.transaction .coinbasePosition)
    rejectIf (¬ rest.all Transaction.isValidNonCoinbase) (.transaction .coinbaseAfterFirst)
    .ok first

def maxBlockSigops : Nat := 20000

/-- The running totals of the block verifier: signature operations, and
the fees as a `Result`. -/
structure Totals where
  sigops : Nat
  fees : Except AmountError (Amount .nonNegative)

/-- `block_miner_fees += miner_fee`: an error stays. -/
def addFee (fees : Except AmountError (Amount .nonNegative)) :
    Option (Amount .nonNegative) → Except AmountError (Amount .nonNegative)
  | none => fees
  | some fee => do
    let sum ← fees
    sum.add fee

/-- One answer of the transaction verifier. -/
def addResponse (height : Nat) (totals : Totals) (tx : Transaction) : Except BlockError Totals := do
  let response ← mapErr .transaction (verifyTransaction env knownUtxos height tx)
  .ok ⟨totals.sigops + response.sigops, addFee totals.fees response.minerFee⟩

end

/-- The checks of `SemanticBlockVerifier::call` before the block is given to
the state. `order` is the order in which the transaction verifier
answers. -/
def verifyBlock (env : VerifierEnv) (block : Block) (order : List Transaction) :
    Except BlockError Unit := do
  let height ← okOr block.coinbaseHeight .missingHeight
  env.headerChecks block
  let coinbase ← coinbaseIsFirst block
  let expectedBlockSubsidy ← mapErr .subsidy (blockSubsidy height)
  let deferred ← subsidyIsValid block expectedBlockSubsidy
  let knownUtxos := newOrderedOutputs block height
  let totals ← order.foldlM (addResponse env knownUtxos height) ⟨0, .ok (.zero _)⟩
  rejectIf (maxBlockSigops < totals.sigops) (.tooManyTransparentSignatureOperations totals.sigops)
  let fees ← mapErr .summingMinerFees totals.fees
  minerFeesAreValid env.privateFromZeroOvk coinbase height fees expectedBlockSubsidy deferred

/-! ## The deferred term of the state -/

inductive FundingStreamReceiver where
  | ecc
  | zcashFoundation
  | majorGrants
  | deferred
  deriving DecidableEq

/-- `funding_stream_values` returns no stream under Wcash consensus. -/
def fundingStreamValues : HashMap FundingStreamReceiver (Amount .nonNegative) := ∅

/-- The lockbox disbursements of the Mainnet parameters. -/
def lockboxDisbursements : List (Amount .nonNegative) := []

/-- `lockbox_disbursement_total_amount` at the height that has one. -/
def lockboxDisbursementTotalAmount : Amount .nonNegative :=
  match Amount.sum lockboxDisbursements with
  | .ok total => total
  | .error _ => .zero _

def calculateDeferredPoolBalanceChange (height : Nat) : Amount .negativeAllowed :=
  if Emission.slowStartBlocks < height then
    let stream := (fundingStreamValues.lookup .deferred).getD (.zero _)
    match Amount.tryFrom .negativeAllowed
        (stream.zatoshis - lockboxDisbursementTotalAmount.zatoshis) with
    | .ok change => change
    | .error _ => .zero _
  else .zero _

/-- The state's own deferred term agrees with the verifier's: both are zero. -/
theorem calculateDeferredPoolBalanceChange_eq (height : Nat) :
    (calculateDeferredPoolBalanceChange height).zatoshis = 0 := by
  unfold calculateDeferredPoolBalanceChange
  by_cases h : Emission.slowStartBlocks < height
  · rw [if_pos h]
    decide
  · rw [if_neg h]
    rfl

/-! ## What a verified block satisfies -/

section Verified

variable {env : VerifierEnv} {outputOf : OutPoint → Output} {tx : Transaction}
  {utxos : HashMap OutPoint Utxo}

/-- The state answers with the output that an outpoint determines. -/
def Answers (env : VerifierEnv) (outputOf : OutPoint → Output) : Prop :=
  ∀ outpoint utxo, env.awaitUtxo outpoint = .ok utxo → utxo.output = outputOf outpoint

theorem holdsOutputs_insert {outpoint : OutPoint} {utxo : Utxo} (h : HoldsOutputs outputOf utxos)
    (hutxo : utxo.output = outputOf outpoint) :
    HoldsOutputs outputOf (utxos.insert outpoint utxo) := by
  intro other found hfound
  rcases lookup_insert_some hfound with ⟨rfl, rfl⟩ | hfound
  · exact hutxo
  · exact h other found hfound

variable {block : Block} {height : Nat} (hanswers : Answers env outputOf)
  (hnamed : ∀ entry ∈ created block.transactions, outputOf entry.1 = entry.2)

include hanswers hnamed in
/-- The collected outputs are right. -/
theorem blockSpentUtxos_holds
    (h : blockSpentUtxos env (newOrderedOutputs block height) tx = .ok utxos) :
    HoldsOutputs outputOf utxos := by
  -- Every input inserts a right output or nothing.
  have hstep : ∀ {input : Input} {s s' : HashMap OutPoint Utxo}, HoldsOutputs outputOf s →
      addSpentUtxo env (newOrderedOutputs block height) s input = .ok s' →
      HoldsOutputs outputOf s' := by
    intro input s s' hs hadd
    cases input with
    | coinbase _ =>
      cases hadd
      exact hs
    | prevOut outpoint =>
      rw [addSpentUtxo] at hadd
      split at hadd
      · rename_i ordered hordered
        cases hadd
        exact holdsOutputs_insert hs (hnamed _ (newOrderedOutputs_lookup hordered)).symm
      · obtain ⟨utxo, hutxo, hadd⟩ := of_bind hadd
        cases hadd
        exact holdsOutputs_insert hs (hanswers outpoint utxo hutxo)
  have hrun : ∀ {inputs : List Input} {s : HashMap OutPoint Utxo}, HoldsOutputs outputOf s →
      inputs.foldlM (addSpentUtxo env (newOrderedOutputs block height)) s = .ok utxos →
      HoldsOutputs outputOf utxos := by
    intro inputs
    induction inputs with
    | nil =>
      intro s hs hfold
      cases hfold
      exact hs
    | cons input rest ih =>
      intro s hs hfold
      rw [foldlM_cons, bind_eq_ok] at hfold
      obtain ⟨mid, hmid, hfold⟩ := hfold
      exact ih (hstep hs hmid) hfold
  apply hrun _ h
  intro outpoint utxo hnone
  cases hnone

/-- What the verifier adds to the fees for a transaction. -/
def feeShare (outputOf : OutPoint → Output) (tx : Transaction) : Int :=
  if tx.isCoinbase then 0 else tx.balanceTotal (worth outputOf)

/-- A transaction that the verifier accepts. -/
structure TransactionOk (outputOf : OutPoint → Output) (tx : Transaction)
    (response : BlockResponse) : Prop where
  /-- A coinbase transaction has no JoinSplit. -/
  coinbase : tx.isCoinbase = true → tx.sproutNet = 0
  fee : feeShare outputOf tx = (response.minerFee.map Amount.zatoshis).getD 0

include hanswers hnamed in
theorem verifyTransaction_eq_ok {response : BlockResponse}
    (h : verifyTransaction env (newOrderedOutputs block height) height tx = .ok response) :
    TransactionOk outputOf tx response := by
  obtain ⟨_, hrules, h⟩ := of_bind h
  obtain ⟨utxos, hutxos, h⟩ := of_bind h
  obtain ⟨_, _, h⟩ := of_bind h
  obtain ⟨fee, hfee, h⟩ := of_bind h
  obtain ⟨_, _, h⟩ := of_bind h
  cases h
  refine ⟨fun hcoinbase => ?_, ?_⟩
  · simp only [checkCommonConsensusRules, bind_eq_ok] at hrules
    obtain ⟨_, _, _, _, _, _, _, _, _, _, _, hrule, _⟩ := hrules
    rw [coinbaseRules, if_pos hcoinbase] at hrule
    obtain ⟨hcount, _⟩ := of_rejectIf_bind hrule
    rw [Transaction.joinsplitCount] at hcount
    have hnil : tx.sproutJoinsplitDescriptions = [] := by
      apply eq_nil_of_length_eq_zero
      omega
    rw [Transaction.sproutNet, hnil]
    rfl
  · unfold feeOf at hfee
    unfold feeShare
    by_cases hcoinbase : tx.isCoinbase
    · rw [if_pos hcoinbase] at hfee ⊢
      cases hfee
      rfl
    · rw [if_neg hcoinbase] at hfee ⊢
      obtain ⟨amount, hamount, hfee⟩ := of_bind hfee
      cases hfee
      unfold minerFee at hamount
      split at hamount
      · rename_i balance hbalance
        have hbalanced := Transaction.valueBalance_eq_ok hbalance
        have htotal := hbalanced.total (blockSpentUtxos_holds hanswers hnamed hutxos)
        rw [mapErr_eq_ok] at hamount
        show _ = amount.zatoshis
        rw [ValueBalance.remainingTransactionValue_eq_ok hamount, hbalanced.deferred, htotal]
        omega
      · cases hamount

include hanswers hnamed in
/-- The fees of the answers, in any order: when no addition failed, the
total is the sum of the shares. -/
theorem addResponse_fees {order : List Transaction} {totals totals' : Totals}
    {sum : Amount .nonNegative}
    (h : order.foldlM (addResponse env (newOrderedOutputs block height) height) totals =
      .ok totals')
    (hsum : totals'.fees = .ok sum) :
    (∀ tx ∈ order, tx.isCoinbase = true → tx.sproutNet = 0) ∧
    ∃ start, totals.fees = .ok start ∧
      sum.zatoshis = start.zatoshis + (order.map (feeShare outputOf)).sum := by
  induction order generalizing totals with
  | nil =>
    cases h
    exact ⟨by simp, sum, hsum, by simp⟩
  | cons tx rest ih =>
    rw [foldlM_cons, bind_eq_ok] at h
    obtain ⟨mid, hmid, h⟩ := h
    obtain ⟨hcoinbase, next, hnext, hrest⟩ := ih h
    obtain ⟨response, hresponse, hmid⟩ := of_mapErr_bind hmid
    cases hmid
    have hok := verifyTransaction_eq_ok hanswers hnamed hresponse
    constructor
    · intro other hother
      rcases mem_cons.mp hother with rfl | hother
      · exact hok.coinbase
      · exact hcoinbase other hother
    · rw [map_cons, sum_cons, hok.fee]
      cases hfee : response.minerFee with
      | none =>
        rw [hfee] at hnext
        refine ⟨next, hnext, ?_⟩
        simpa using hrest
      | some fee =>
        rw [hfee] at hnext
        obtain ⟨start, hstart, hadd⟩ := of_bind hnext
        refine ⟨start, hstart, ?_⟩
        rw [hrest, Amount.add_eq_ok.mp hadd]
        simp only [Option.map_some, Option.getD_some]
        omega

/-- A coinbase transaction spends no outpoint. -/
theorem spentOutpoints_of_isCoinbase (h : tx.isCoinbase = true) : tx.spentOutpoints = [] := by
  unfold Transaction.isCoinbase at h
  unfold Transaction.spentOutpoints
  split at h
  · rename_i height hinputs
    rw [hinputs]
    rfl
  · cases h

/-- A later transaction of a block is no coinbase transaction. -/
theorem isCoinbase_of_validNonCoinbase (h : tx.isValidNonCoinbase = true) :
    tx.isCoinbase = false := by
  unfold Transaction.isCoinbase
  split
  · rename_i height hinputs
    rw [Transaction.isValidNonCoinbase, hinputs] at h
    cases h
  · rfl

include hanswers hnamed in
/-- The effect of a verified block on the transaction value pool: what is
left after all fees are claimed is the subsidy, with the opposite sign. -/
theorem verifyBlock_eq_ok {order : List Transaction} (horder : order.Perm block.transactions)
    (hheight : block.coinbaseHeight = some height)
    (h : verifyBlock env block order = .ok ()) :
    ∃ S, blockSubsidy height = .ok S ∧
      (block.transactions.map fun tx => tx.balanceTotal (worth outputOf)).sum = -S.zatoshis := by
  rw [verifyBlock, hheight, okOr_bind] at h
  obtain ⟨_, _, h⟩ := of_bind h
  obtain ⟨coinbase, hfirst, h⟩ := of_bind h
  obtain ⟨S, hS, h⟩ := of_mapErr_bind h
  obtain ⟨deferred, hdeferred, h⟩ := of_bind h
  obtain ⟨totals, htotals, h⟩ := of_bind h
  obtain ⟨_, _, h⟩ := of_bind h
  obtain ⟨fees, hfees, h⟩ := of_mapErr_bind h
  refine ⟨S, hS, ?_⟩
  obtain ⟨hsprout, start, hstart, hsum⟩ := addResponse_fees hanswers hnamed htotals hfees
  cases hstart
  -- The coinbase is the first transaction and the only one.
  cases hblock : block.transactions with
  | nil =>
    rw [coinbaseIsFirst, hblock] at hfirst
    cases hfirst
  | cons first rest =>
    rw [coinbaseIsFirst, hblock] at hfirst
    obtain ⟨hcoinbase, hfirst⟩ := of_rejectIf_bind hfirst
    obtain ⟨hrest, hfirst⟩ := of_rejectIf_bind hfirst
    cases hfirst
    rw [Bool.not_eq_false] at hcoinbase
    rw [not_not] at hrest
    -- The fees are the shares of all transactions but the coinbase.
    have hshare : (order.map (feeShare outputOf)).sum =
        (rest.map fun tx => tx.balanceTotal (worth outputOf)).sum := by
      rw [(horder.map (feeShare outputOf)).sum_eq, hblock, map_cons, sum_cons, feeShare,
        if_pos hcoinbase, Int.zero_add]
      congr 1
      apply map_congr_left
      intro tx htx
      have hnot := isCoinbase_of_validNonCoinbase (all_eq_true.mp hrest tx htx)
      rw [feeShare, hnot]
      rfl
    -- The coinbase balance is the subsidy and the fees, with the opposite sign.
    have hok := minerFeesAreValid_eq_ok h
    have hmem : coinbase ∈ order := by
      rw [horder.mem_iff, hblock]
      exact mem_cons_self
    have hzero : deferred.zatoshis = 0 := by
      rw [subsidyIsValid_eq_ok hdeferred]
      rfl
    have hbalance : coinbase.balanceTotal (worth outputOf) = -(S.zatoshis + fees.zatoshis) := by
      have htotal := hok.total
      rw [Transaction.balanceTotal, Transaction.inputTotal, spentOutpoints_of_isCoinbase hcoinbase,
        hsprout coinbase hmem hcoinbase]
      simp only [map_nil, sum_nil]
      omega
    rw [map_cons, sum_cons, hbalance]
    rw [hsum, Amount.zero_zatoshis]
    omega

end Verified

/-! ## The chain -/

/-- A block above genesis that the verifier accepted and whose value-pool
update succeeded. The outputs that the two of them look up may come
from different places; both are the outputs that the outpoints
determine. -/
inductive Accepted (outputOf : OutPoint → Output) (height : Nat) (block : Block)
    (pools pools' : ValueBalance .nonNegative) : Prop where
  | intro (env : VerifierEnv) (order : List Transaction) (utxos : HashMap OutPoint Utxo)
      (change : ValueBalance .negativeAllowed)
      (hheight : block.coinbaseHeight = some height)
      (horder : order.Perm block.transactions)
      (hanswers : Answers env outputOf)
      (hverified : verifyBlock env block order = .ok ())
      (hutxos : HoldsOutputs outputOf utxos)
      (hchange : block.chainValuePoolChange utxos (calculateDeferredPoolBalanceChange height) =
        .ok change)
      (hupdate : pools.addChainValuePoolChange change = .ok pools')

/-- A Mainnet chain: the blocks above genesis and the value pools after each
height. The outputs of the genesis block are not in the state's set of
unspent outputs, so that a path starts at height 1. -/
structure MainnetChain where
  outputOf : OutPoint → Output
  blocks : List Block
  pools : Nat → ValueBalance .nonNegative
  accepted : ∀ i (h : i < blocks.length),
    Accepted outputOf (i + 1) blocks[i] (pools i) (pools (i + 1))
  /-- An outpoint determines its output. -/
  unique : OutpointsUnique (pathOf blocks blocks.length)
  named : ∀ entry ∈ created (pathOf blocks blocks.length), outputOf entry.1 = entry.2
  /-- Every input spends an earlier, not yet spent output. -/
  sound : SpendsSound (pathOf blocks blocks.length)

/-- The subsidy of a height that has one. -/
def subsidyAt (height : Nat) : Amount .nonNegative := (blockSubsidy height).toOption.getD (.zero _)

variable {S : Amount .nonNegative}

theorem subsidyAt_of_ok {height : Nat} (h : blockSubsidy height = .ok S) :
    subsidyAt height = S := by
  rw [subsidyAt, h]
  rfl

namespace MainnetChain

variable (chain : MainnetChain) {i : Nat}

theorem pathOf_succ (h : i < chain.blocks.length) :
    pathOf chain.blocks (i + 1) = pathOf chain.blocks i ++ chain.blocks[i].transactions := by
  unfold pathOf
  rw [take_succ_eq_append_getElem h, flatMap_append]
  simp

/-- The whole path is a shorter one and what follows. -/
theorem pathOf_append :
    pathOf chain.blocks chain.blocks.length =
      pathOf chain.blocks i ++ (chain.blocks.drop i).flatMap Block.transactions := by
  unfold pathOf
  rw [take_length, ← flatMap_append, take_append_drop]

theorem created_named {entry : OutPoint × Output} (h : entry ∈ created (pathOf chain.blocks i)) :
    chain.outputOf entry.1 = entry.2 := by
  apply chain.named
  rw [chain.pathOf_append, created_append]
  exact mem_append_left _ h

/-- What block `i` does to the pools. -/
theorem effect (h : i < chain.blocks.length) :
    ∃ S, blockSubsidy (i + 1) = .ok S ∧
      (chain.pools (i + 1)).totalZatoshis = (chain.pools i).totalZatoshis + S.zatoshis ∧
      (chain.pools (i + 1)).transparent.zatoshis = (chain.pools i).transparent.zatoshis +
        (chain.blocks[i].transactions.map
          fun tx => tx.outputTotal - tx.inputTotal (worth chain.outputOf)).sum := by
  have hnamed : ∀ entry ∈ created chain.blocks[i].transactions,
      chain.outputOf entry.1 = entry.2 := by
    intro entry hentry
    apply chain.created_named (i := i + 1)
    rw [chain.pathOf_succ h, created_append]
    exact mem_append_right _ hentry
  obtain ⟨env, order, utxos, change, hheight, horder, hanswers, hverified, hutxos, hchange,
    hupdate⟩ := chain.accepted i h
  obtain ⟨S, hS, hsum⟩ := verifyBlock_eq_ok hanswers hnamed horder hheight hverified
  obtain ⟨htotal, htransparent⟩ := Block.chainValuePoolChange_eq_ok hchange hutxos
  have hadd := ValueBalance.addChainValuePoolChange_eq_ok hupdate
  refine ⟨S, hS, ?_, ?_⟩
  · rw [hadd.total, htotal, calculateDeferredPoolBalanceChange_eq]
    omega
  · rw [hadd.transparent, htransparent, sum_neg, map_map]
    congr 2
    apply map_congr_left
    simp only [Function.comp]
    omega

/-- Run lemma for all pools together. -/
theorem total_eq {height : Nat} (h : height ≤ chain.blocks.length) :
    (chain.pools height).totalZatoshis = (chain.pools 0).totalZatoshis +
      ∑ i ∈ Finset.range height, (subsidyAt (i + 1)).zatoshis := by
  induction height with
  | zero => simp
  | succ i ih =>
    obtain ⟨S, hS, htotal, _⟩ := chain.effect h
    rw [Finset.sum_range_succ, subsidyAt_of_ok hS]
    omega

/-- Run lemma for the transparent pool. -/
theorem transparent_eq {height : Nat} (h : height ≤ chain.blocks.length) :
    (chain.pools height).transparent.zatoshis = (chain.pools 0).transparent.zatoshis +
      ((pathOf chain.blocks height).map
        fun tx => tx.outputTotal - tx.inputTotal (worth chain.outputOf)).sum := by
  induction height with
  | zero => simp [pathOf]
  | succ i ih =>
    obtain ⟨_, _, _, htransparent⟩ := chain.effect h
    rw [chain.pathOf_succ h, map_append, sum_append]
    omega

/-- What the inputs of a path take is the value of what it spends. -/
theorem sum_inputs (valueOf : OutPoint → Int) (txs : List Transaction) :
    (txs.map fun tx => tx.outputTotal - tx.inputTotal valueOf).sum =
      (txs.map Transaction.outputTotal).sum - ((spent txs).map valueOf).sum := by
  induction txs with
  | nil => rfl
  | cons tx rest ih =>
    have hspent : spent (tx :: rest) = tx.spentOutpoints ++ spent rest := flatMap_cons
    rw [map_cons, sum_cons, map_cons, sum_cons, hspent, map_append, sum_append,
      Transaction.inputTotal]
    omega

/-- Wcash issues exactly its emission schedule: after every height the pools
hold together the subsidies so far, and the transparent pool holds the
outputs created and not spent so far. -/
theorem emission_is_exact {height : Nat} (h : height ≤ chain.blocks.length) :
    ∃ S : Nat → Amount .nonNegative, (∀ i < height, blockSubsidy (i + 1) = .ok (S (i + 1))) ∧
      (chain.pools height).totalZatoshis - (chain.pools 0).totalZatoshis =
        ∑ i ∈ Finset.range height, (S (i + 1)).zatoshis ∧
      (chain.pools height).transparent.zatoshis - (chain.pools 0).transparent.zatoshis =
        valueSum (unspent (pathOf chain.blocks height)) := by
  refine ⟨subsidyAt, ?_, ?_, ?_⟩
  · intro i hi
    obtain ⟨S, hS, _⟩ := chain.effect (Nat.lt_of_lt_of_le hi h)
    rw [subsidyAt_of_ok hS, hS]
  · rw [chain.total_eq h]
    omega
  · have hunique := chain.unique
    have hsound := chain.sound
    rw [chain.pathOf_append (i := height)] at hunique hsound
    have hworth : ∀ entry ∈ created (pathOf chain.blocks height),
        worth chain.outputOf entry.1 = entry.2.value.zatoshis := by
      intro entry hentry
      rw [worth, chain.created_named hentry]
    rw [chain.transparent_eq h, sum_inputs,
      unspent_total hunique.of_append hsound.of_append hworth]
    omega

end MainnetChain

/-! A chain of two blocks: the second spends the coinbase of the first, and
its own coinbase claims the fee. -/

/-- The verifier with the subsidy already computed. -/
theorem verifyBlock_of_subsidy {env : VerifierEnv} {block : Block} {order : List Transaction}
    {height : Nat} (hheight : block.coinbaseHeight = some height) (hS : blockSubsidy height = .ok S)
    (h : (do
      env.headerChecks block
      let coinbase ← coinbaseIsFirst block
      let deferred ← subsidyIsValid block S
      let totals ← order.foldlM (addResponse env (newOrderedOutputs block height) height)
        ⟨0, .ok (.zero _)⟩
      rejectIf (maxBlockSigops < totals.sigops)
        (.tooManyTransparentSignatureOperations totals.sigops)
      let fees ← mapErr .summingMinerFees totals.fees
      minerFeesAreValid env.privateFromZeroOvk coinbase height fees S deferred) = .ok ()) :
    verifyBlock env block order = .ok () := by
  unfold verifyBlock
  rw [hheight, okOr_bind, hS]
  exact h

def sampleScript : Bytes := [0x51]

def sampleTx (hash : UInt8) (inputs : List Input) (outputs : List Output) : Transaction :=
  ⟨.fill 32 hash, 6, inputs, outputs, none, none, none, none⟩

def sampleOutput₁ : Output := ⟨⟨54975, by decide, by decide⟩, sampleScript⟩

def sampleOutput₂ : Output := ⟨⟨114926, by decide, by decide⟩, sampleScript⟩

def sampleOutput₃ : Output := ⟨⟨50000, by decide, by decide⟩, sampleScript⟩

def sampleSpend : Transaction := sampleTx 3 [.prevOut ⟨.fill 32 1, 0⟩] [sampleOutput₃]

def sampleBlock₁ : Block :=
  ⟨.fill 32 11, .fill 32 10, 1, [sampleTx 1 [.coinbase 1] [sampleOutput₁]]⟩

def sampleBlock₂ : Block :=
  ⟨.fill 32 12, .fill 32 11, 1, [sampleTx 2 [.coinbase 2] [sampleOutput₂], sampleSpend]⟩

def sampleOutputOf (outpoint : OutPoint) : Output :=
  if outpoint = ⟨.fill 32 1, 0⟩ then sampleOutput₁
  else if outpoint = ⟨.fill 32 2, 0⟩ then sampleOutput₂ else sampleOutput₃

/-- The state knows the output of the first block; every other check passes. -/
def sampleEnv : VerifierEnv where
  headerChecks := fun _ => .ok ()
  structureRules := fun _ _ => .ok ()
  otherRules := fun _ _ => .ok ()
  awaitUtxo := fun outpoint =>
    if outpoint = ⟨.fill 32 1, 0⟩ then .ok ⟨sampleOutput₁, 1, true⟩
    else .error .transparentInputNotFound
  asyncChecks := fun _ => .ok ()
  sigops := fun _ => .ok 1
  privateFromZeroOvk := fun _ _ => true

theorem sampleEnv_answers : Answers sampleEnv sampleOutputOf := by
  intro outpoint utxo h
  by_cases hknown : outpoint = ⟨.fill 32 1, 0⟩
  · simp only [sampleEnv, if_pos hknown] at h
    cases h
    rw [sampleOutputOf, if_pos hknown]
  · simp only [sampleEnv, if_neg hknown] at h
    cases h

def samplePools : Nat → ValueBalance .nonNegative
  | 0 => .zero _
  | 1 => .fromTransparentAmount ⟨54975, by decide, by decide⟩
  | _ => .fromTransparentAmount ⟨164926, by decide, by decide⟩

theorem sampleBlock₁_accepted :
    Accepted sampleOutputOf 1 sampleBlock₁ (samplePools 0) (samplePools 1) := by
  have hS : blockSubsidy 1 = .ok ⟨54975, by decide, by decide⟩ :=
    blockSubsidy_ramp (by decide) (by decide) (by decide)
  have hheight : sampleBlock₁.coinbaseHeight = some 1 := rfl
  have hverified : verifyBlock sampleEnv sampleBlock₁ sampleBlock₁.transactions = .ok () := by
    apply verifyBlock_of_subsidy hheight hS
    decide
  exact .intro sampleEnv _ ∅ (.fromTransparentAmount ⟨54975, by decide, by decide⟩) hheight
    (.refl _) sampleEnv_answers hverified (fun _ _ h => by cases h) (by decide) (by decide)

theorem sampleBlock₂_accepted :
    Accepted sampleOutputOf 2 sampleBlock₂ (samplePools 1) (samplePools 2) := by
  have hS : blockSubsidy 2 = .ok ⟨109951, by decide, by decide⟩ :=
    blockSubsidy_ramp (by decide) (by decide) (by decide)
  have hheight : sampleBlock₂.coinbaseHeight = some 2 := rfl
  -- The answer for the second transaction arrives first.
  have hverified :
      verifyBlock sampleEnv sampleBlock₂ sampleBlock₂.transactions.reverse = .ok () := by
    apply verifyBlock_of_subsidy hheight hS
    decide
  have hutxos : HoldsOutputs sampleOutputOf
      ((∅ : HashMap OutPoint Utxo).insert ⟨.fill 32 1, 0⟩ ⟨sampleOutput₁, 1, true⟩) := by
    apply holdsOutputs_insert
    · intro _ _ h
      cases h
    · rfl
  exact .intro sampleEnv _ _ (.fromTransparentAmount ⟨109951, by decide, by decide⟩) hheight
    (reverse_perm _) sampleEnv_answers hverified hutxos (by decide) (by decide)

def sampleChain : MainnetChain where
  outputOf := sampleOutputOf
  blocks := [sampleBlock₁, sampleBlock₂]
  pools := samplePools
  accepted := by
    intro i h
    have hi : i = 0 ∨ i = 1 := by
      simp only [length_cons, length_nil] at h
      omega
    rcases hi with rfl | rfl
    · exact sampleBlock₁_accepted
    · exact sampleBlock₂_accepted
  unique := by
    unfold OutpointsUnique
    decide
  named := by decide
  sound :=
    { once := by decide
      earlier := by
        intro before tx after heq
        rcases before with _ | ⟨_, _ | ⟨_, _ | ⟨_, before⟩⟩⟩
        · cases heq
          decide
        · cases heq
          decide
        · cases heq
          decide
        · -- The path has three transactions.
          have hlength : 3 = (_ :: _ :: _ :: before ++ tx :: after).length :=
            congrArg List.length heq
          simp only [cons_append, length_cons, length_append] at hlength
          omega }

theorem emission_is_exact_two_blocks :
    ∃ S : Nat → Amount .nonNegative, (∀ i < 2, blockSubsidy (i + 1) = .ok (S (i + 1))) ∧
      (sampleChain.pools 2).totalZatoshis - (sampleChain.pools 0).totalZatoshis =
        ∑ i ∈ Finset.range 2, (S (i + 1)).zatoshis ∧
      (sampleChain.pools 2).transparent.zatoshis - (sampleChain.pools 0).transparent.zatoshis =
        valueSum (unspent (pathOf sampleChain.blocks 2)) :=
  sampleChain.emission_is_exact (by decide)

end Wolf.Consensus
