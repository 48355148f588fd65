import Wolf.Ledger.Transaction

/-! # Shielded pools

The nullifiers that a transaction reveals and the note commitments that
it adds, pool by pool. The pools are disjoint: a nullifier is a pair of
a pool and a bit pattern. -/

namespace Wolf.Ledger

/-- The shielded pools, in the order in which the state visits them. -/
inductive Pool where
  | sprout
  | sapling
  | orchard
  | ironwood
  deriving DecidableEq

def Pool.all : List Pool := [.sprout, .sapling, .orchard, .ironwood]

theorem Pool.mem_all (pool : Pool) : pool ∈ Pool.all := by
  cases pool <;> decide

/-- The actions of an Orchard-shaped bundle. -/
def bundleActions (bundle : Option OrchardBundle) : List Action :=
  (bundle.map OrchardBundle.actions).getD []

/-- `sprout_nullifiers`, `sapling_nullifiers`, `orchard_nullifiers` and
`ironwood_nullifiers`. -/
def Transaction.nullifiers (tx : Transaction) : Pool → List Word
  | .sprout => tx.sproutJoinsplitDescriptions.flatMap JsDescription.nullifiers
  | .sapling => (tx.saplingBundle.map SaplingBundle.nullifiers).getD []
  | .orchard => (bundleActions tx.orchardBundle).map Action.nullifier
  | .ironwood => (bundleActions tx.ironwoodBundle).map Action.nullifier

/-- `sprout_note_commitments` and its namesakes in the other pools. -/
def Transaction.noteCommitments (tx : Transaction) : Pool → List Word
  | .sprout => tx.sproutJoinsplitDescriptions.flatMap JsDescription.commitments
  | .sapling => (tx.saplingBundle.map SaplingBundle.commitments).getD []
  | .orchard => (bundleActions tx.orchardBundle).map Action.commitment
  | .ironwood => (bundleActions tx.ironwoodBundle).map Action.commitment

def Block.nullifiers (block : Block) (pool : Pool) : List Word :=
  block.transactions.flatMap fun tx => tx.nullifiers pool

def Block.noteCommitments (block : Block) (pool : Pool) : List Word :=
  block.transactions.flatMap fun tx => tx.noteCommitments pool

end Wolf.Ledger
