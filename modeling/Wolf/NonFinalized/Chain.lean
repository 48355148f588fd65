import Wolf.NonFinalized.Indexes
import Wolf.NonFinalized.Trees

/-! # Chains

`Chain`: the blocks of a fork that are not finalized, with all indexes
over them.

`push` adds a block at the tip, `popTip` takes it off again for a fork,
and `popRoot` takes the lowest block off when it is finalized. Address
decoding, the tree hashes, the history tree and the serialized size of a
block are parameters (`Rules`). `last_fork_height` is left out: it is
not part of `ChainInner` and only metrics read it.

A panic of the source is an error of its own kind here, so that what
never panics can be stated. -/

namespace Wolf.NonFinalized

open Ledger

/-! ## Parameters and data -/

/-- What a chain uses of the protocol crates; `H` is the history tree. -/
structure Rules (H : Type) where
  address : Output → Option Address
  treeHash : TreeHash
  /-- `HistoryTree::push`, with the Sapling, Orchard and Ironwood roots. -/
  pushHistory : H → Block → Word → Word → Word → Except ValidateContextError H
  serializedSize : Block → Nat

structure BlockInfo where
  valuePools : ValueBalance .nonNegative
  size : Nat

/-- `ChainInner`. -/
structure Chain (H : Type) extends Indexes where
  blocks : SortedList fun b : ContextuallyVerifiedBlock => b.height
  heightByHash : Index Hash Nat
  trees : Pool → TreeIndex
  historyTreesByHeight : HeightMap H
  partialCumulativeWork : Nat
  chainValuePools : ValueBalance .nonNegative
  blockInfoByHeight : HeightMap BlockInfo

/-- What `Chain::new` gets of the finalized state. -/
structure TipState (H : Type) where
  height : Nat
  trees : Pool → NoteCommitmentTree
  history : H
  valuePools : ValueBalance .nonNegative

structure Treestate (H : Type) where
  trees : Pool → NoteCommitmentTree
  subtrees : Pool → Option (Nat × SubtreeData)
  history : H

/-- One fallible step for each pool, Sprout first. -/
def forPools {ε α : Type} (f : Pool → Except ε α) : Except ε (Pool → α) := do
  let sprout ← f .sprout
  let sapling ← f .sapling
  let orchard ← f .orchard
  let ironwood ← f .ironwood
  .ok fun
    | .sprout => sprout
    | .sapling => sapling
    | .orchard => orchard
    | .ironwood => ironwood

theorem forPools_eq_ok {ε α : Type} {f : Pool → Except ε α} {g : Pool → α} :
    forPools f = .ok g ↔ ∀ pool, f pool = .ok (g pool) := by
  unfold forPools
  simp only [bind_eq_ok]
  constructor
  · rintro ⟨sprout, h₁, sapling, h₂, orchard, h₃, ironwood, h₄, hg⟩ pool
    cases hg
    cases pool <;> assumption
  · intro h
    refine ⟨_, h .sprout, _, h .sapling, _, h .orchard, _, h .ironwood, ?_⟩
    congr 1
    funext pool
    cases pool <;> rfl

/-- Two tasks that run in parallel. A panic of either one is raised again
when both have finished; after that the result of the first is looked at
first. -/
def inParallel {α β : Type} (x : Except Fault α) (y : Except Fault β) : Except Fault (α × β) :=
  match x, y with
  | .error (.panicked p), _ => .error (.panicked p)
  | _, .error (.panicked p) => .error (.panicked p)
  | .error (.rejected e), _ => .error (.rejected e)
  | _, .error (.rejected e) => .error (.rejected e)
  | .ok a, .ok b => .ok (a, b)

theorem inParallel_eq_ok {α β : Type} {x : Except Fault α} {y : Except Fault β} {r : α × β} :
    inParallel x y = .ok r ↔ x = .ok r.1 ∧ y = .ok r.2 := by
  obtain ⟨a, b⟩ := r
  unfold inParallel
  rcases x with (e | p) | a' <;> rcases y with (e' | p') | b' <;> simp

namespace Chain

variable {H : Type} (rules : Rules H) (c : Chain H)

/-! ## Queries -/

def maxBlockHeight : Option Nat := c.blocks.last?.map fun b => b.height

def tipBlock : Option ContextuallyVerifiedBlock := c.blocks.last?

/-- The hash of the tip block; `non_finalized_tip_hash` panics without
blocks. -/
def tipHash : Option Hash := c.tipBlock.map fun b => b.hash

/-- The hash of the root block; `non_finalized_root_hash` panics without
blocks. -/
def rootHash : Option Hash := c.blocks.first?.map fun b => b.hash

/-- `sapling_subtree_for_tip` and its namesakes. -/
def subtreeForTip (pool : Pool) : Option (Nat × SubtreeData) :=
  c.maxBlockHeight.bind (c.trees pool).subtreeAt

/-- `treestate` at a height. -/
def treestate (height : Nat) : Except Panic (Treestate H) := do
  let trees ← forPools fun pool => okOr ((c.trees pool).treeAt height) .missingTreestate
  let history ← okOr (c.historyTreesByHeight.find? height) .missingTreestate
  .ok { trees, subtrees := fun pool => (c.trees pool).subtreeAt height, history := history.2 }

def childBlocks (height : Nat) : List ContextuallyVerifiedBlock :=
  c.blocks.items.filter fun b => height ≤ b.height

def containsBlockHash (hash : Hash) : Bool := decide (hash ∈ c.heightByHash)

/-! ## New chains and new blocks -/

def new (tip : TipState H) : Except Panic (Chain H) := do
  let trees ← forPools fun pool =>
    TreeIndex.empty.addTreeAndAnchor rules.treeHash pool tip.height (tip.trees pool)
  .ok { Indexes.empty with
    blocks := ∅
    heightByHash := ∅
    trees
    historyTreesByHeight := (∅ : HeightMap H).insert (tip.height, tip.history)
    partialCumulativeWork := 0
    chainValuePools := tip.valuePools
    blockInfoByHeight := ∅ }

/-- The trees and subtrees after a block. -/
def nextTrees (b : ContextuallyVerifiedBlock) :
    Except Fault (Pool → NoteCommitmentTree × Option (Nat × SubtreeData)) := do
  let tips ← forPools fun pool => mapErr Fault.panicked (c.trees pool).treeForTip
  forPools fun pool => mapErr Fault.rejected (TreeIndex.nextTree rules.treeHash pool
    (c.subtreeForTip pool) (tips pool) (b.block.noteCommitments pool) b.height)

/-- `PartialCumulativeWork::add`, a checked addition of `u128`s. -/
def addWork (work added : Nat) : Except Fault Nat := do
  rejectIf (2 ^ 128 ≤ work + added) (Fault.panicked .workOverflow)
  .ok (work + added)

/-- `PartialCumulativeWork::sub`, a checked subtraction. -/
def subWork (work removed : Nat) : Except Panic Nat := do
  rejectIf (work < removed) Panic.workUnderflow
  .ok (work - removed)

/-- `update_chain_tip_with_block_except_trees`. -/
def updateExceptTrees (b : ContextuallyVerifiedBlock) : Except Fault (Chain H) := do
  let heightByHash ← c.heightByHash.insertNew b.hash b.height (.panicked .duplicateBlockHash)
  let partialCumulativeWork ← addWork c.partialCumulativeWork b.block.work
  let indexes ← c.toIndexes.applyAll (b.updateEdits rules.address)
  let chainValuePools ← mapErr (fun e => Fault.rejected (.addValuePool e b.height))
    (c.chainValuePools.addChainValuePoolChange b.chainValuePoolChange)
  .ok { c with
    toIndexes := indexes
    heightByHash
    partialCumulativeWork
    chainValuePools
    blockInfoByHeight := c.blockInfoByHeight.insert
      (b.height, ⟨chainValuePools, rules.serializedSize b.block % 2 ^ 32⟩) }

/-- The root of the tree of the tip. -/
def tipRoot (trees : Pool → TreeIndex) (pool : Pool) : Except Fault Word := do
  let tree ← mapErr Fault.panicked (trees pool).treeForTip
  .ok (rules.treeHash.root pool tree)

/-- The history tree after a block. -/
def nextHistory (trees : Pool → TreeIndex) (b : ContextuallyVerifiedBlock) : Except Fault H := do
  let sapling ← tipRoot rules trees .sapling
  let orchard ← tipRoot rules trees .orchard
  let ironwood ← tipRoot rules trees .ironwood
  let tip ← okOr c.historyTreesByHeight.last? (Fault.panicked .missingHistoryTree)
  mapErr Fault.rejected (rules.pushHistory tip.2 b.block sapling orchard ironwood)

/-- `push`. The chain is dropped on an error. -/
def push (b : ContextuallyVerifiedBlock) : Except Fault (Chain H) := do
  let (next, updated) ← inParallel (c.nextTrees rules b) (c.updateExceptTrees rules b)
  let trees ← forPools fun pool => mapErr Fault.panicked
    ((c.trees pool).extend rules.treeHash pool b.height (next pool))
  let history ← updated.nextHistory rules trees b
  let historyTreesByHeight ← mapErr Fault.panicked
    (updated.historyTreesByHeight.insertNew b.height history .historyTreeOverwrite)
  .ok { updated with trees, historyTreesByHeight, blocks := c.blocks.insert b }

/-! ## Removed blocks -/

def removeHistoryTree (position : RevertPosition) (height : Nat) : Except Panic (HeightMap H) :=
  match position with
  | .root => .ok (c.historyTreesByHeight.filter fun e => height < e.1)
  | .tip =>
    if (c.historyTreesByHeight.find? height).isSome then
      .ok (c.historyTreesByHeight.erase height)
    else .error .missingHistoryTree

/-- `revert_chain_with` for the value pools. -/
def revertValuePools (position : RevertPosition) (change : ValueBalance .negativeAllowed) :
    Except Panic (ValueBalance .nonNegative) :=
  match position with
  | .root => .ok c.chainValuePools
  | .tip => mapErr (fun _ => .revertedPoolsInvalid)
      (c.chainValuePools.addChainValuePoolChange change.neg)

/-- `revert_chain_with`, for a block that is no longer in `blocks`. -/
def revertWith (b : ContextuallyVerifiedBlock) (position : RevertPosition) :
    Except Panic (Chain H) := do
  let heightByHash ← c.heightByHash.removePresent b.hash .missingBlockHash
  let partialCumulativeWork ← subWork c.partialCumulativeWork b.block.work
  let indexes ← c.toIndexes.undoAll (b.revertEdits rules.address)
  let trees ← forPools fun pool =>
    (c.trees pool).removeTreeAndAnchor pool position b.height c.maxBlockHeight
  let historyTreesByHeight ← c.removeHistoryTree position b.height
  let chainValuePools ← c.revertValuePools position b.chainValuePoolChange
  .ok { c with
    toIndexes := indexes
    heightByHash
    partialCumulativeWork
    trees
    historyTreesByHeight
    chainValuePools
    blockInfoByHeight := c.blockInfoByHeight.erase b.height }

def popTip : Except Panic (Chain H) := do
  let b ← okOr c.blocks.last? .emptyBlocks
  let blocks := c.blocks.erase b.height
  rejectIf (blocks.items = []) .lastBlockPopped
  { c with blocks, trees := fun pool => (c.trees pool).popTipSubtree b.height }.revertWith
    rules b .tip

def popRoot : Except Panic (Chain H × ContextuallyVerifiedBlock × Treestate H) := do
  let b ← okOr c.blocks.first? .emptyBlocks
  let treestate ← c.treestate b.height
  let popped ← { c with
    blocks := c.blocks.erase b.height
    trees := fun pool => (c.trees pool).popRootSubtree b.height }.revertWith rules b .root
  .ok (popped, b, treestate)

/-- The loop of `fork`. Every round removes a block and the last one is
never removed, so the number of blocks bounds the rounds. -/
def forkAt (tip : Hash) : Nat → Chain H → Except Panic (Chain H)
  | 0, _ => .error .emptyBlocks
  | rounds + 1, c => do
    let b ← okOr c.blocks.last? .emptyBlocks
    if b.hash = tip then .ok c
    else do
      let popped ← c.popTip rules
      forkAt tip rounds popped

def fork (tip : Hash) : Except Panic (Option (Chain H)) :=
  if tip ∈ c.heightByHash then do
    let forked ← forkAt rules tip c.blocks.items.length c
    .ok (some forked)
  else .ok none

def invalidateBlock (hash : Hash) :
    Except Panic (Option (Chain H × List ContextuallyVerifiedBlock)) :=
  match c.heightByHash.lookup hash with
  | none => .ok none
  | some height => do
    let forked ← c.fork rules hash
    match forked with
    | none => .ok none
    | some forked => do
      let kept ← forked.popTip rules
      .ok (some (kept, c.childBlocks height))

end Chain

end Wolf.NonFinalized
