import Mathlib.Data.Prod.Lex
import Wolf.Framework.IndexMap
import Wolf.NonFinalized.Chain

/-! # The non-finalized state

`NonFinalizedState`: the set of chains above the finalized tip, with the
operations that commit, finalize, invalidate and reconsider blocks.

The database (`ZebraDb`) is modelled by the blocks of the finalized
chain and the state at its tip. Its UTXO set and its nullifier sets are
computed from these blocks, which is what it means for them to be exact.
Difficulty, time, anchor and commitment rules are parameters of the
model (`Checks`); which blocks they accept does not matter for what is
proved about the set of chains. -/

namespace Wolf.NonFinalized

open Ledger

variable {H : Type}

/-! ## The finalized state -/

def maxNonFinalizedChainForks : Nat := 10

def maxInvalidatedBlocks : Nat := 100

def minTransparentCoinbaseMaturity : Nat := 100

/-- `ZebraDb`: the finalized blocks below the tip, the tip block, and the
state after it. -/
structure ZebraDb (H : Type) where
  lower : List SemanticallyVerifiedBlock
  top : SemanticallyVerifiedBlock
  trees : Pool → NoteCommitmentTree
  history : H
  valuePools : ValueBalance .nonNegative

/-- The outputs that some blocks create, with their positions. -/
def createdOutputs (bs : List SemanticallyVerifiedBlock) : List (OutPoint × OrderedUtxo) :=
  bs.flatMap fun b => b.block.orderedOutputs b.height

/-- The transactions of some blocks. -/
def transactionsOf (bs : List SemanticallyVerifiedBlock) : List Transaction :=
  bs.flatMap fun b => b.block.transactions

namespace ZebraDb

variable (db : ZebraDb H)

/-- The finalized chain. -/
def blocks : List SemanticallyVerifiedBlock := db.lower ++ [db.top]

/-- What a new chain is made of. -/
def tipState : TipState H := ⟨db.top.height, db.trees, db.history, db.valuePools⟩

def utxo (outpoint : OutPoint) : Option OrderedUtxo :=
  if outpoint ∈ spent (transactionsOf db.blocks) then none
  else ((createdOutputs db.blocks).find? fun entry => entry.1 = outpoint).map Prod.snd

/-- `contains_sprout_nullifier` and its namesakes. -/
def containsNullifier (pool : Pool) (nullifier : Word) : Bool :=
  decide (nullifier ∈ (transactionsOf db.blocks).flatMap fun tx => tx.nullifiers pool)

/-- `commit_finalized_direct`, for a block from the non-finalized state. -/
def commitFinalizedDirect (b : ContextuallyVerifiedBlock) (treestate : Treestate H) :
    Except ValueBalanceError (ZebraDb H) := do
  let valuePools ← db.valuePools.addChainValuePoolChange b.chainValuePoolChange
  .ok {
    lower := db.blocks
    top := b.toSemanticallyVerifiedBlock
    trees := treestate.trees
    history := treestate.history
    valuePools }

end ZebraDb

/-! ## The set of chains -/

/-- A hash as a number: byte arrays are compared from the first byte on. -/
def hashOrder (hash : Hash) : Nat := leNat hash.data.reverse

/-- `Ord for Chain`: by work, then by the hash of the tip. -/
def Chain.order (c : Chain H) : Nat ×ₗ Nat :=
  toLex (c.partialCumulativeWork, (c.tipHash.map hashOrder).getD 0)

structure NonFinalizedState (H : Type) where
  chainSet : SortedList (Chain.order : Chain H → Nat ×ₗ Nat)
  invalidatedBlocks : IndexMap Nat (List ContextuallyVerifiedBlock)

/-- The contextual rules. -/
structure Checks (H : Type) extends Rules H where
  allowUnshieldedCoinbaseSpends : Bool
  deferredPoolBalanceChange : Nat → Amount .negativeAllowed
  /-- The rules about the difficulty threshold and the time of a block. -/
  difficultyAndTimeValid : ZebraDb H → NonFinalizedState H → SemanticallyVerifiedBlock → Bool
  /-- `block_sapling_orchard_anchors_refer_to_final_treestates`. -/
  anchorsKnown : ZebraDb H → Chain H → SemanticallyVerifiedBlock → Bool
  /-- `block_sprout_anchors_refer_to_treestates`. -/
  sproutAnchorsKnown : ZebraDb H → Chain H → SemanticallyVerifiedBlock → Bool
  /-- `block_commitment_is_valid_for_chain_history`. -/
  commitmentValid : H → Block → Bool

namespace NonFinalizedState

variable (checks : Checks H) (s : NonFinalizedState H)

def bestChain : Option (Chain H) := s.chainSet.last?

/-- `chain_iter`: the best chain first. -/
def chainIter : List (Chain H) := s.chainSet.items.reverse

def findChain (p : Chain H → Bool) : Option (Chain H) := s.chainIter.find? p

def bestChainLen : Option Nat := s.bestChain.map fun c => c.blocks.items.length

/-- `pop_first` while there are more than `MAX_NON_FINALIZED_CHAIN_FORKS`
chains. -/
def limitForks (set : SortedList (Chain.order : Chain H → Nat ×ₗ Nat)) :
    SortedList (Chain.order : Chain H → Nat ×ₗ Nat) :=
  SortedList.popFirst^[set.items.length - maxNonFinalizedChainForks] set

/-- `insert_with`, with the filter as a predicate on chains. -/
def insertWith (c : Chain H) (keep : Chain H → Bool) : NonFinalizedState H :=
  { s with chainSet := limitForks ((s.chainSet.insertAbsent c).filter keep) }

def insert (c : Chain H) : NonFinalizedState H := s.insertWith c fun _ => true

/-- The first chain that can be forked at a block. -/
def firstFork (hash : Hash) : List (Chain H) → Except Panic (Option (Chain H))
  | [] => .ok none
  | c :: rest => do
    let forked ← c.fork checks.toRules hash
    match forked with
    | some f => .ok (some f)
    | none => firstFork hash rest

def parentChain (parentHash : Hash) : Except Fault (Chain H) :=
  match s.findChain fun c => c.tipHash = some parentHash with
  | some c => .ok c
  | none => do
    let forked ← mapErr Fault.panicked (firstFork checks parentHash s.chainIter)
    okOr forked (.rejected .notReadyToBeCommitted)

end NonFinalizedState

/-! ## Contextual checks -/

section Checks

variable (checks : Checks H) (db : ZebraDb H) (c : Chain H) (b : SemanticallyVerifiedBlock)

/-- An entry of `unspent_utxos`. -/
def Chain.unspentUtxo (outpoint : OutPoint) : Option OrderedUtxo :=
  if outpoint ∈ c.spentUtxos then none else c.createdUtxos.lookup outpoint

def transparentSpendChainOrder (index : Nat) (outpoint : OutPoint) :
    Except ValidateContextError OrderedUtxo :=
  match b.newOutputs.lookup outpoint with
  | some output =>
    if index ≤ output.txIndexInBlock then .error (.earlyTransparentSpend outpoint)
    else .ok output
  | none =>
    if outpoint ∈ c.spentUtxos then
      .error (.duplicateTransparentSpend outpoint "the non-finalized chain")
    else okOr ((c.unspentUtxo outpoint).or (db.utxo outpoint))
      (.missingTransparentOutput outpoint "the non-finalized and finalized chain")

/-- `transparent_coinbase_spend`, with the `coinbase_spend_restriction` of
the transaction. -/
def transparentCoinbaseSpend (tx : Transaction) (spendHeight : Nat) (outpoint : OutPoint)
    (utxo : Utxo) : Except ValidateContextError Unit :=
  if utxo.fromCoinbase = false then .ok ()
  else if tx.outputs = [] ∨ checks.allowUnshieldedCoinbaseSpends = true then
    rejectIf (spendHeight < utxo.height + minTransparentCoinbaseMaturity)
      (.immatureTransparentCoinbaseSpend outpoint spendHeight
        (utxo.height + minTransparentCoinbaseMaturity) utxo.height)
  else .error (.unshieldedTransparentCoinbaseSpend outpoint)

/-- One spend of a transaction. -/
def checkSpend (tx : Transaction) (index : Nat) (spends : HashMap OutPoint OrderedUtxo)
    (outpoint : OutPoint) : Except ValidateContextError (HashMap OutPoint OrderedUtxo) := do
  let utxo ← transparentSpendChainOrder db c b index outpoint
  transparentCoinbaseSpend checks tx b.height outpoint utxo.utxo
  rejectIf (outpoint ∈ spends) (.duplicateTransparentSpend outpoint "the same block")
  .ok (spends.insert outpoint utxo)

/-- One round of `remaining_transaction_value`. -/
def remainingValue (utxos : HashMap OutPoint Utxo) (tx : Transaction) (index : Nat) :
    Except ValidateContextError Unit :=
  if tx.isCoinbase then .ok ()
  else do
    let balance ← mapErr (fun e => .calculateTransactionValueBalances e b.height index tx.hash)
      (tx.valueBalance utxos)
    let _ ← mapErr (fun e =>
      match e with
      | .constraint value _ _ =>
        if value < 0 then .negativeRemainingTransactionValue e b.height index tx.hash
        else .calculateRemainingTransactionValue e b.height index tx.hash
      | _ => .calculateRemainingTransactionValue e b.height index tx.hash)
      balance.remainingTransactionValue
    .ok ()

/-- `transparent_spend`: the outputs that a block spends. -/
def transparentSpend : Except ValidateContextError (HashMap OutPoint OrderedUtxo) := do
  let spends ← b.block.transactions.zipIdx.foldlM (fun spends item =>
    item.1.spentOutpoints.foldlM (checkSpend checks db c b item.1 item.2) spends) ∅
  b.block.transactions.zipIdx.forM fun item =>
    remainingValue b (utxosFromOrderedUtxos spends) item.1 item.2
  .ok spends

end Checks

namespace NonFinalizedState

variable (checks : Checks H) (s : NonFinalizedState H) (db : ZebraDb H)

/-- Some invalidation record has the block. -/
def isInvalidated (hash : Hash) : Bool :=
  s.invalidatedBlocks.any fun entry => entry.2.any fun b => b.hash = hash

/-- `validate_and_update_parallel`. A panic of `push` is raised before the
results of the two other tasks are looked at. -/
def validateAndUpdateParallel (c : Chain H) (b : ContextuallyVerifiedBlock) :
    Except Fault (Chain H) := do
  let history ← okOr c.historyTreesByHeight.last? (Fault.panicked .missingHistoryTree)
  match c.push checks.toRules b with
  | .error (.panicked p) => .error (.panicked p)
  | result => do
    rejectIf (checks.commitmentValid history.2 b.block = false) (.rejected .invalidBlockCommitment)
    rejectIf (checks.sproutAnchorsKnown db c b.toSemanticallyVerifiedBlock = false)
      (.rejected .unknownAnchor)
    result

def validateAndCommit (c : Chain H) (b : SemanticallyVerifiedBlock) : Except Fault (Chain H) := do
  rejectIf (s.isInvalidated b.hash = true) (.rejected (.blockPreviouslyInvalidated b.hash))
  let spent ← mapErr Fault.rejected (transparentSpend checks db c b)
  rejectIf (checks.anchorsKnown db c b = false) (.rejected .unknownAnchor)
  let contextual ← mapErr (fun e => Fault.rejected (.calculateBlockChainValueChange e b.height
    b.hash b.block.transactions.length))
    (ContextuallyVerifiedBlock.withBlockAndSpentUtxos b spent
      (checks.deferredPoolBalanceChange b.height))
  validateAndUpdateParallel checks db c contextual

def commitBlock (b : SemanticallyVerifiedBlock) : Except Fault (NonFinalizedState H) := do
  let parent ← s.parentChain checks b.previousBlockHash
  let modified ← s.validateAndCommit checks db parent b
  .ok (s.insertWith modified fun c => c.tipHash ≠ some b.previousBlockHash)

def commitNewChain (b : SemanticallyVerifiedBlock) : Except Fault (NonFinalizedState H) := do
  let c ← mapErr Fault.panicked (Chain.new checks.toRules db.tipState)
  let modified ← s.validateAndCommit checks db c b
  .ok (s.insert modified)

/-- The height of a block of any chain or of the database. -/
def heightByHash (hash : Hash) : Option Nat :=
  match s.findChain fun c => c.containsBlockHash hash with
  | some c => c.heightByHash.lookup hash
  | none => (db.blocks.find? fun b => b.hash = hash).map fun b => b.height

def noDuplicatesInFinalizedChain (b : SemanticallyVerifiedBlock) :
    Except ValidateContextError Unit :=
  Pool.all.forM fun pool => (b.block.nullifiers pool).forM fun nullifier =>
    rejectIf (db.containsNullifier pool nullifier = true) (.duplicateNullifier pool nullifier true)

def initialContextualValidity (b : SemanticallyVerifiedBlock) :
    Except ValidateContextError Unit := do
  rejectIf (b.height ≤ db.top.height) (.orphanedBlock b.height db.top.height)
  let parentHeight ← okOr (s.heightByHash db b.previousBlockHash) .notReadyToBeCommitted
  rejectIf (b.height ≠ parentHeight + 1) (.nonSequentialBlock b.height parentHeight)
  rejectIf (checks.difficultyAndTimeValid db s b = false) .invalidDifficultyOrTime
  noDuplicatesInFinalizedChain db b

def validateAndCommitNonFinalized (b : SemanticallyVerifiedBlock) :
    Except Fault (NonFinalizedState H) := do
  mapErr Fault.rejected (s.initialContextualValidity checks db b)
  if db.top.hash = b.previousBlockHash then s.commitNewChain checks db b
  else s.commitBlock checks db b

/-! ## Finalization -/

/-- A chain without its root, if any block is left. -/
def reinsert (c : Chain H) : NonFinalizedState H :=
  if c.blocks.items = [] then s else s.insert c

/-- The body of the loop over the side chains. -/
def finalizeSideChain (rootHash : Hash) (s : NonFinalizedState H) (c : Chain H) :
    Except Panic (NonFinalizedState H) := do
  let root ← okOr c.rootHash .emptyBlocks
  if root ≠ rootHash then .ok s
  else do
    let (popped, b, _) ← c.popRoot checks.toRules
    rejectIf (b.hash ≠ rootHash) .rootMismatch
    .ok (s.reinsert popped)

/-- `finalize`: the state, and the block with its treestate. -/
def finalize : Except Panic (NonFinalizedState H × ContextuallyVerifiedBlock × Treestate H) := do
  let best ← okOr s.bestChain .noChain
  let (popped, root, treestate) ← best.popRoot checks.toRules
  let taken : NonFinalizedState H := { s with chainSet := ∅ }
  let kept ← s.chainSet.items.dropLast.reverse.foldlM (finalizeSideChain checks root.hash)
    (taken.reinsert popped)
  .ok ({ kept with
    invalidatedBlocks := kept.invalidatedBlocks.filter fun entry => root.height ≤ entry.1 },
    root, treestate)

/-! ## Operator requests -/

inductive InvalidateError where
  | blockNotFound (hash : Hash)
  deriving DecidableEq

inductive ReconsiderError where
  | missingInvalidatedBlock (hash : Hash)
  | invalidatedBlocksEmpty
  | parentChainNotFound (hash : Hash)
  | replayFailed (e : ValidateContextError)
  deriving DecidableEq

/-- A new record, and the eviction of the oldest ones. -/
def recordInvalidated (blocks : List ContextuallyVerifiedBlock) :
    Except Panic (NonFinalizedState H) := do
  let first ← okOr blocks.head? .noInvalidatedBlocks
  .ok { s with
    invalidatedBlocks :=
      (s.invalidatedBlocks.insert first.height blocks).limit maxInvalidatedBlocks }

/-- `invalidate_block`. A panic is outside of the result. -/
def invalidateBlock (hash : Hash) : Except Panic (Except InvalidateError (NonFinalizedState H)) :=
  match s.findChain fun c => c.containsBlockHash hash with
  | none => .ok (.error (.blockNotFound hash))
  | some c =>
    if c.rootHash = some hash then do
      let removed : NonFinalizedState H := { s with chainSet := s.chainSet.erase c.order }
      let recorded ← removed.recordInvalidated c.blocks.items
      .ok (.ok recorded)
    else do
      let result ← c.invalidateBlock checks.toRules hash
      let (kept, invalidated) ← okOr result .chainLostBlock
      let inserted := s.insertWith kept fun c => !c.containsBlockHash hash
      let recorded ← inserted.recordInvalidated invalidated
      .ok (.ok recorded)

/-- A result whose panics are outside. -/
def splitFault {ε α : Type} (f : ValidateContextError → ε) (x : Except Fault α) :
    Except Panic (Except ε α) :=
  match x with
  | .ok a => .ok (.ok a)
  | .error (.rejected e) => .ok (.error (f e))
  | .error (.panicked p) => .error p

/-- The chain that reconsidered blocks are pushed onto. -/
def reconsiderParent (hash parentHash : Hash) : Except Panic (Except ReconsiderError (Chain H)) :=
  if parentHash = db.top.hash then do
    let c ← Chain.new checks.toRules db.tipState
    .ok (.ok c)
  else splitFault (fun _ => .parentChainNotFound hash) (s.parentChain checks parentHash)

/-- The chain with the reconsidered blocks. -/
def replay (c : Chain H) (blocks : List ContextuallyVerifiedBlock) :
    Except Panic (Except ReconsiderError (Chain H)) :=
  splitFault .replayFailed (blocks.foldlM (fun c b => c.push checks.toRules b) c)

/-- The state with reconsidered blocks. -/
def restore (height : Nat) (parentHash : Hash) (c : Chain H) : NonFinalizedState H :=
  let records := (s.invalidatedBlocks.shiftRemove height).filter fun entry =>
    db.top.height ≤ entry.1
  ({ s with invalidatedBlocks := records } : NonFinalizedState H).insertWith c fun c' =>
    c'.tipHash ≠ some parentHash

def reconsiderBlock (hash : Hash) : Except Panic (Except ReconsiderError (NonFinalizedState H)) :=
  match s.invalidatedBlocks.find? fun entry => (entry.2.head?.map fun b => b.hash) = some hash with
  | none => .ok (.error (.missingInvalidatedBlock hash))
  | some (height, blocks) =>
    match blocks.head? with
    | none => .ok (.error .invalidatedBlocksEmpty)
    | some root => do
      let parent ← s.reconsiderParent checks db hash root.previousBlockHash
      match parent with
      | .error e => .ok (.error e)
      | .ok c => do
        let modified ← replay checks c blocks
        match modified with
        | .error e => .ok (.error e)
        | .ok c => .ok (.ok (s.restore db height root.previousBlockHash c))

end NonFinalizedState

end Wolf.NonFinalized
