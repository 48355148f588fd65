import Wolf.Ledger.Path
import Wolf.Ledger.Shielded
import Wolf.Mempool.Dependencies

/-! # The verified set of the mempool

The transactions of the mempool, with caches of what they create, spend
and reveal, of their total size and cost, and of the dependencies
between them.

A removed transaction takes with it all transactions that spend its
outputs, directly or indirectly.

The two totals are a `usize` and a `u64` in the source. Each counts what
the held transactions take, at most two million for each of them, so
that 2^64 is out of reach of a set that fits into memory: they are plain
numbers here. -/

namespace Wolf.Mempool

open Ledger

/-! ## Transactions -/

inductive UnminedTxId where
  | legacy (hash : Hash)
  | witnessed (hash authDigest : Hash)
  deriving DecidableEq

def UnminedTxId.minedId : UnminedTxId → Hash
  | .legacy hash => hash
  | .witnessed hash _ => hash

/-- `UnminedTx`, identified by the hash of its transaction. The expiry
height is one of the transaction. -/
structure UnminedTx where
  id : UnminedTxId
  transaction : Transaction
  id_eq : id.minedId = transaction.hash
  size : Nat
  conventionalFee : Amount .nonNegative
  expiryHeight : Option Nat

structure VerifiedUnminedTx where
  transaction : UnminedTx
  minerFee : Amount .nonNegative
  legacySigopCount : Nat
  p2shSigopCount : Nat
  unpaidActions : Nat
  height : Option Nat

def mempoolTransactionCostThreshold : Nat := 10000

namespace VerifiedUnminedTx

variable (tx : VerifiedUnminedTx)

/-- `transaction.id.mined_id()`. -/
def minedId : Hash := tx.transaction.id.minedId

/-- The effects of the transaction. -/
def effects : Transaction := tx.transaction.transaction

def blockSigopCount : Nat := min (tx.legacySigopCount + tx.p2shSigopCount) (2 ^ 32 - 1)

def paysConventionalFee : Bool :=
  tx.transaction.conventionalFee.zatoshis ≤ tx.minerFee.zatoshis

def cost : Nat := max tx.transaction.size mempoolTransactionCostThreshold

end VerifiedUnminedTx

/-! ## The set -/

/-- The panics of the mempool storage. -/
inductive Panic where
  /-- A total is smaller than one of its parts. -/
  | underflow
  /-- A victim is drawn from an empty set. -/
  | noWeights
  /-- Nothing was evicted. -/
  | emptyMempool
  /-- A rejection list already has the transaction. -/
  | alreadyEvicted
  deriving DecidableEq

inductive SameEffectsTipRejectionError where
  | spendConflict
  | missingOutput
  deriving DecidableEq

/-- What the standard library decides: the order in which hash sets are
visited, and which element of a set is drawn. Weights are positive, so
every element can be drawn. -/
structure Chance where
  iteration : Iteration Hash
  draw : Finset Hash → Hash
  draw_mem : ∀ s, s.Nonempty → draw s ∈ s

structure VerifiedSet where
  transactions : Index Hash VerifiedUnminedTx := ∅
  transactionDependencies : TransactionDependencies := {}
  createdOutputs : Index OutPoint Output := ∅
  transactionsSerializedSize : Nat := 0
  totalCost : Nat := 0
  spentOutpoints : Finset OutPoint := ∅
  nullifiers : Pool → Finset Word := fun _ => ∅

namespace VerifiedSet

variable (s : VerifiedSet)

def contains (id : Hash) : Bool := id ∈ s.transactions

def hasSpendConflicts (tx : Transaction) : Bool :=
  (tx.spentOutpoints.any fun outpoint => outpoint ∈ s.spentOutpoints) ||
    Pool.all.any fun pool => (tx.nullifiers pool).any fun nullifier => nullifier ∈ s.nullifiers pool

/-- The set with a transaction that passed the checks of `insert`. -/
def insertChecked (tx : VerifiedUnminedTx) (spentMempoolOutpoints : List OutPoint)
    (height : Option Nat) : VerifiedSet where
  transactions := Finmap.insert tx.minedId { tx with height } s.transactions
  transactionDependencies := s.transactionDependencies.add tx.minedId spentMempoolOutpoints
  createdOutputs := tx.effects.newOutputs.foldl
    (fun outputs entry => Finmap.insert entry.1 entry.2 outputs) s.createdOutputs
  transactionsSerializedSize := s.transactionsSerializedSize + tx.transaction.size
  totalCost := s.totalCost + tx.cost
  spentOutpoints := s.spentOutpoints ∪ tx.effects.spentOutpoints.toFinset
  nullifiers := fun pool => s.nullifiers pool ∪ (tx.effects.nullifiers pool).toFinset

def insert (tx : VerifiedUnminedTx) (spentMempoolOutpoints : List OutPoint) (height : Option Nat) :
    Except SameEffectsTipRejectionError Unit × VerifiedSet :=
  if s.hasSpendConflicts tx.effects then (.error .spendConflict, s)
  else if spentMempoolOutpoints.any fun outpoint => outpoint ∉ s.createdOutputs then
    (.error .missingOutput, s)
  else (.ok (), s.insertChecked tx spentMempoolOutpoints height)

def removeOutputs (tx : Transaction) : VerifiedSet :=
  { s with
    createdOutputs := (List.range tx.outputs.length).foldl
      (fun outputs index => outputs.erase ⟨tx.hash, index⟩) s.createdOutputs
    spentOutpoints := s.spentOutpoints \ tx.spentOutpoints.toFinset
    nullifiers := fun pool => s.nullifiers pool \ (tx.nullifiers pool).toFinset }

/-- The round of `remove` for one key. -/
def removeTransaction (key : Hash) : Except Panic (VerifiedSet × Option VerifiedUnminedTx) :=
  match s.transactions.lookup key with
  | none => .ok (s, none)
  | some tx => do
    let transactionsSerializedSize ←
      okOr (checkedSub s.transactionsSerializedSize tx.transaction.size) .underflow
    let totalCost ← okOr (checkedSub s.totalCost tx.cost) .underflow
    .ok ({ s.removeOutputs tx.effects with
      transactions := s.transactions.erase key
      transactionsSerializedSize
      totalCost }, some tx)

/-- The loop of `remove`. -/
def removeTransactions (keys : List Hash) : Except Panic (VerifiedSet × List VerifiedUnminedTx) :=
  keys.foldlM (fun (acc : VerifiedSet × List VerifiedUnminedTx) key => do
    let removed ← acc.1.removeTransaction key
    .ok (removed.1, acc.2 ++ removed.2.toList)) (s, [])

def remove (it : Iteration Hash) (keyToRemove : Hash) :
    Except Panic (VerifiedSet × List VerifiedUnminedTx) :=
  let removed := s.transactionDependencies.removeAll it keyToRemove
  removeTransactions { s with transactionDependencies := removed.1 }
    (it.list removed.2 ++ [keyToRemove])

def evictOne (chance : Chance) : Except Panic (VerifiedSet × Option VerifiedUnminedTx) := do
  rejectIf (s.transactions.keys = ∅) Panic.noWeights
  let removed ← s.remove chance.iteration (chance.draw s.transactions.keys)
  .ok (removed.1, removed.2.getLast?)

def clearMinedDependencies (it : Iteration Hash) (minedIds : Finset Hash) : VerifiedSet :=
  { s with
    transactionDependencies := s.transactionDependencies.clearMinedDependencies it minedIds }

/-- The keys of the transactions that match a predicate. -/
def matching (predicate : VerifiedUnminedTx → Bool) : Finset Hash :=
  s.transactions.keys.filter fun key => (s.transactions.lookup key).any predicate

/-- The loop of `remove_all_that`. -/
def removeAllFrom (it : Iteration Hash) (keys : List Hash) :
    Except Panic (VerifiedSet × Finset UnminedTxId) :=
  keys.foldlM (fun (acc : VerifiedSet × Finset UnminedTxId) key =>
    if key ∈ acc.1.transactions then do
      let removed ← acc.1.remove it key
      .ok (removed.1, acc.2 ∪ (removed.2.map fun tx => tx.transaction.id).toFinset)
    else .ok acc) (s, ∅)

def removeAllThat (it : Iteration Hash) (predicate : VerifiedUnminedTx → Bool) :
    Except Panic (VerifiedSet × Finset UnminedTxId) :=
  s.removeAllFrom it (it.list (s.matching predicate))

def clear : VerifiedSet := {}

end VerifiedSet

end Wolf.Mempool
