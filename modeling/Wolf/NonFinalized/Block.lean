import Wolf.Framework.UniqueIndex
import Wolf.Ledger.Path
import Wolf.Ledger.Shielded

/-! # Verified blocks and what they do to the indexes of a chain

A block reaches the non-finalized state semantically verified, and gets
its spent outputs and its change of the value pools when its context is
known.

`update_chain_tip_with` and `revert_chain_with` go through the
transactions of a block and make one small update after the other.
`updateEdits` and `revertEdits` list these updates in the order in which
the two functions make them: both go through the transactions in block
order, and inside a transaction the nullifiers come first in the one and
last in the other. -/

namespace Wolf.NonFinalized

open Ledger

/-! ## Failures -/

/-- `ValidateContextError`, as far as the modelled checks return it. The
difficulty, time, anchor and commitment rules are parameters of the
model and have one error each. -/
inductive ValidateContextError where
  | blockPreviouslyInvalidated (hash : Hash)
  | notReadyToBeCommitted
  | orphanedBlock (candidateHeight finalizedTipHeight : Nat)
  | nonSequentialBlock (candidateHeight parentHeight : Nat)
  | invalidDifficultyOrTime
  | duplicateTransparentSpend (outpoint : OutPoint) (location : String)
  | missingTransparentOutput (outpoint : OutPoint) (location : String)
  | earlyTransparentSpend (outpoint : OutPoint)
  | unshieldedTransparentCoinbaseSpend (outpoint : OutPoint)
  | immatureTransparentCoinbaseSpend (outpoint : OutPoint)
      (spendHeight minSpendHeight createdHeight : Nat)
  | duplicateNullifier (pool : Pool) (nullifier : Word) (inFinalizedState : Bool)
  | negativeRemainingTransactionValue (e : AmountError) (height txIndexInBlock : Nat) (hash : Hash)
  | calculateRemainingTransactionValue (e : AmountError) (height txIndexInBlock : Nat) (hash : Hash)
  | calculateTransactionValueBalances (e : ValueBalanceError) (height txIndexInBlock : Nat)
      (hash : Hash)
  | calculateBlockChainValueChange (e : ValueBalanceError) (height : Nat) (blockHash : Hash)
      (transactionCount : Nat)
  | addValuePool (e : ValueBalanceError) (height : Nat)
  | noteCommitmentTreeError (pool : Pool)
  | historyTreeError
  | invalidBlockCommitment
  | unknownAnchor
  deriving DecidableEq

/-- The assertions and `expect`s of the chain and the state, one for each
message. -/
inductive Panic where
  -- blocks and work
  | duplicateBlockHash
  | missingBlockHash
  | workOverflow
  | workUnderflow
  | emptyBlocks
  | lastBlockPopped
  -- transactions and outputs
  | duplicateTransaction
  | missingTransaction
  | missingNewOutput
  | duplicateCreatedOutput
  | missingCreatedOutput
  | duplicateSpentOutput
  | missingSpentOutpoint
  | missingSpentOutput
  -- the address index
  | addressBalanceOverflow
  | reversedBalanceOverflow
  | missingAddress
  | duplicateAddressOutput
  | missingAddressOutput
  | duplicateAddressSpend
  | missingAddressSpend
  | missingAddressTransaction
  -- nullifiers
  | missingNullifier
  -- trees
  | noTree
  | treeOverwrite
  | anchorOverwrite
  | historyTreeOverwrite
  | missingAnchor
  | missingRemovedTree
  | missingHistoryTree
  | missingTreestate
  -- value pools
  | revertedPoolsInvalid
  -- the set of chains
  | noChain
  | rootMismatch
  | chainLostBlock
  | noInvalidatedBlocks
  deriving DecidableEq

/-- How an update of the state can fail: with an error for the caller, or
with a panic. -/
inductive Fault where
  | rejected (e : ValidateContextError)
  | panicked (p : Panic)
  deriving DecidableEq

/-! ## Blocks -/

/-- `SemanticallyVerifiedBlock`: the hash, the new outputs and the
transaction hashes are those of the block, and the height is the one in
its coinbase. -/
structure SemanticallyVerifiedBlock where
  block : Block
  height : Nat
  height_eq : block.coinbaseHeight = some height
  deriving DecidableEq

namespace SemanticallyVerifiedBlock

def hash (b : SemanticallyVerifiedBlock) : Hash := b.block.hash

def previousBlockHash (b : SemanticallyVerifiedBlock) : Hash := b.block.previousBlockHash

def newOutputs (b : SemanticallyVerifiedBlock) : HashMap OutPoint OrderedUtxo :=
  newOrderedOutputs b.block b.height

end SemanticallyVerifiedBlock

structure ContextuallyVerifiedBlock extends SemanticallyVerifiedBlock where
  spentOutputs : HashMap OutPoint OrderedUtxo
  chainValuePoolChange : ValueBalance .negativeAllowed

def utxosFromOrderedUtxos (utxos : HashMap OutPoint OrderedUtxo) : HashMap OutPoint Utxo :=
  extendMap ∅ (utxos.entries.map fun entry => (entry.1, entry.2.utxo))

def ContextuallyVerifiedBlock.withBlockAndSpentUtxos (b : SemanticallyVerifiedBlock)
    (spentOutputs : HashMap OutPoint OrderedUtxo)
    (deferredPoolBalanceChange : Amount .negativeAllowed) :
    Except ValueBalanceError ContextuallyVerifiedBlock := do
  let spentOutputs := b.newOutputs ∪ spentOutputs
  let change ← b.block.chainValuePoolChange (utxosFromOrderedUtxos spentOutputs)
    deferredPoolBalanceChange
  .ok { b with spentOutputs := spentOutputs, chainValuePoolChange := change }

structure TransactionLocation where
  height : Nat
  index : Nat
  deriving DecidableEq

structure OutputLocation where
  transaction : TransactionLocation
  outputIndex : Nat
  deriving DecidableEq

/-- `OutputLocation::from_outpoint` at the `transaction_location` of an
output. -/
def outputLocation (outpoint : OutPoint) (ordered : OrderedUtxo) : OutputLocation :=
  ⟨⟨ordered.utxo.height, ordered.txIndexInBlock⟩, outpoint.index⟩

/-- A transparent address. -/
abbrev Address : Type := Bytes

/-! ## Updates of the indexes -/

/-- What happens to an address: it receives an output, or one of its
outputs is spent. -/
inductive Transfer where
  | received (outpoint : OutPoint) (utxo : OrderedUtxo)
  | spent (outpoint : OutPoint) (spendingTx : Hash) (utxo : OrderedUtxo)
  deriving DecidableEq

/-- One update of an index of the chain. -/
inductive Edit where
  | nullifier (pool : Pool) (nullifier : Word) (txId : Hash)
  | transaction (hash : Hash) (location : TransactionLocation)
  | created (outpoint : OutPoint) (utxo : OrderedUtxo)
  | spent (outpoint : OutPoint) (txId : Hash)
  | transfer (address : Address) (transfer : Transfer)
  /-- The data of an output is missing from the block. -/
  | missing (panic : Panic)
  deriving DecidableEq

/-- The update of the address index for an output with an address. -/
def addressEdit (address : Output → Option Address) (utxo : OrderedUtxo) (transfer : Transfer) :
    List Edit :=
  match address utxo.utxo.output with
  | some receiver => [.transfer receiver transfer]
  | none => []

namespace ContextuallyVerifiedBlock

variable (address : Output → Option Address) (b : ContextuallyVerifiedBlock)

/-- The four calls of `add_to_non_finalized_chain_unique`. -/
def nullifierEdits (tx : Transaction) : List Edit :=
  Pool.all.flatMap fun pool => (tx.nullifiers pool).map fun n => .nullifier pool n tx.hash

/-- The loop over the created outputs of a transaction. -/
def outputEdits (tx : Transaction) : List Edit :=
  (List.range tx.outputs.length).flatMap fun index =>
    match b.newOutputs.lookup ⟨tx.hash, index⟩ with
    | none => [.missing .missingNewOutput]
    | some utxo =>
      .created ⟨tx.hash, index⟩ utxo :: addressEdit address utxo (.received ⟨tx.hash, index⟩ utxo)

/-- The loop over the spending inputs of a transaction. -/
def inputEdits (tx : Transaction) : List Edit :=
  tx.spentOutpoints.flatMap fun outpoint =>
    .spent outpoint tx.hash ::
      match b.spentOutputs.lookup outpoint with
      | none => [.missing .missingSpentOutput]
      | some utxo => addressEdit address utxo (.spent outpoint tx.hash utxo)

/-- The updates of `update_chain_tip_with_block_except_trees` for one
transaction. -/
def updateEditsOf (tx : Transaction) (index : Nat) : List Edit :=
  nullifierEdits tx ++ .transaction tx.hash ⟨b.height, index⟩ ::
    (b.outputEdits address tx ++ b.inputEdits address tx)

/-- The updates that `revert_chain_with` undoes for one transaction. -/
def revertEditsOf (tx : Transaction) (index : Nat) : List Edit :=
  b.outputEdits address tx ++ b.inputEdits address tx ++
    .transaction tx.hash ⟨b.height, index⟩ :: nullifierEdits tx

/-- The updates for a block, in the order of `update_chain_tip_with`. -/
def updateEdits : List Edit :=
  b.block.transactions.zipIdx.flatMap fun item => b.updateEditsOf address item.1 item.2

/-- The updates for a block, in the order in which `revert_chain_with`
undoes them. -/
def revertEdits : List Edit :=
  b.block.transactions.zipIdx.flatMap fun item => b.revertEditsOf address item.1 item.2

/-- What is undone is what was done. -/
theorem revertEdits_perm : (b.revertEdits address).Perm (b.updateEdits address) := by
  refine List.Perm.flatMap_left _ ?_
  intro item _
  apply List.perm_append_comm.trans
  exact List.perm_middle.symm

end ContextuallyVerifiedBlock

end Wolf.NonFinalized
