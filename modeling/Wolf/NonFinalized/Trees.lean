import Wolf.Framework.SortedList
import Wolf.NonFinalized.Block

/-! # Note commitment trees of a chain

A chain keeps, for each shielded pool, the note commitment trees, anchors
and completed subtrees of its blocks. A tree is stored under a height
only if it differs from the tree below; anchors are stored under every
height.

A tree is modelled by its leaves. The source keeps the frontier of the
tree and computes its root with a hash of the pool, which is a parameter
here; trees are compared by their roots, as in the source. -/

namespace Wolf.NonFinalized

open Ledger

/-! ## Trees -/

@[ext]
structure NoteCommitmentTree where
  leaves : List Word
  deriving DecidableEq

/-- The Merkle hashes of the pools. -/
structure TreeHash where
  root : Pool → NoteCommitmentTree → Word
  subtreeRoot : Pool → List Word → Word

/-- No two of the trees collide: those with one root are one tree. -/
def TreeHash.CollisionFree (hash : TreeHash) (pool : Pool) (trees : List NoteCommitmentTree) :
    Prop :=
  ∀ t ∈ trees, ∀ t' ∈ trees, hash.root pool t = hash.root pool t' → t = t'

variable {hash : TreeHash} {pool : Pool}

theorem TreeHash.CollisionFree.mono {trees trees' : List NoteCommitmentTree}
    (h : hash.CollisionFree pool trees) (hsub : ∀ t ∈ trees', t ∈ trees) :
    hash.CollisionFree pool trees' :=
  fun t ht t' ht' => h t (hsub t ht) t' (hsub t' ht')

/-- `1 << TRACKED_SUBTREE_HEIGHT`. -/
def subtreeSize : Nat := 2 ^ 16

/-- The number of leaves of a full tree. -/
def treeCapacity : Pool → Nat
  | .sprout => 2 ^ 29
  | _ => 2 ^ 32

/-- `NoteCommitmentSubtreeData`. -/
structure SubtreeData where
  endHeight : Nat
  root : Word
  deriving DecidableEq

namespace NoteCommitmentTree

def append (pool : Pool) (t : NoteCommitmentTree) (commitment : Word) :
    Except ValidateContextError NoteCommitmentTree :=
  if t.leaves.length < treeCapacity pool then .ok ⟨t.leaves ++ [commitment]⟩
  else .error (.noteCommitmentTreeError pool)

/-- `completed_subtree_index_and_root`. Sprout trees have no subtrees. -/
def completedSubtree (hash : TreeHash) (pool : Pool) (t : NoteCommitmentTree) :
    Option (Nat × Word) :=
  if pool ≠ .sprout ∧ t.leaves ≠ [] ∧ t.leaves.length % subtreeSize = 0 then
    some (t.leaves.length / subtreeSize - 1,
      hash.subtreeRoot pool (t.leaves.drop (t.leaves.length - subtreeSize)))
  else none

/-- One commitment of a block, with the last subtree it completed. -/
def appendNext (hash : TreeHash) (pool : Pool) (state : NoteCommitmentTree × Option (Nat × Word))
    (commitment : Word) :
    Except ValidateContextError (NoteCommitmentTree × Option (Nat × Word)) := do
  let t ← state.1.append pool commitment
  .ok (t, (t.completedSubtree hash pool).or state.2)

/-- `update_sprout_note_commitment_tree` and its namesakes. -/
def update (hash : TreeHash) (pool : Pool) (t : NoteCommitmentTree) (commitments : List Word) :
    Except ValidateContextError (NoteCommitmentTree × Option (Nat × Word)) :=
  commitments.foldlM (appendNext hash pool) (t, none)

/-- A subtree is completed when the tree has that many leaves. -/
theorem completedSubtree_eq_some {t : NoteCommitmentTree} {index : Nat} {node : Word}
    (h : t.completedSubtree hash pool = some (index, node)) :
    (index + 1) * subtreeSize = t.leaves.length := by
  unfold completedSubtree at h
  split at h
  · rename_i hcond
    obtain ⟨_, hne, hmod⟩ := hcond
    have hindex := (Prod.mk.inj (Option.some.inj h)).1
    have hdvd := Nat.dvd_of_mod_eq_zero hmod
    have hpos : 0 < t.leaves.length := List.length_pos_iff.mpr hne
    have hquot : 0 < t.leaves.length / subtreeSize :=
      Nat.div_pos (Nat.le_of_dvd hpos hdvd) (by decide)
    rw [← hindex, Nat.sub_add_cancel hquot, Nat.div_mul_cancel hdvd]
  · cases h

/-- The tree with more leaves. -/
def grow (t : NoteCommitmentTree) (commitments : List Word) : NoteCommitmentTree :=
  ⟨t.leaves ++ commitments⟩

/-- An updated tree, and the subtree that the update completed. -/
theorem update_eq_ok {t t' : NoteCommitmentTree} {commitments : List Word}
    {completed : Option (Nat × Word)} (h : t.update hash pool commitments = .ok (t', completed)) :
    t' = t.grow commitments ∧
      ∀ index node, completed = some (index, node) →
        t.leaves.length < (index + 1) * subtreeSize ∧
          (index + 1) * subtreeSize ≤ t'.leaves.length := by
  -- Along the loop, with what was completed before it.
  have hloop : ∀ (commitments : List Word) (s s' : NoteCommitmentTree × Option (Nat × Word)),
      commitments.foldlM (appendNext hash pool) s = .ok s' →
      (∀ index node, s.2 = some (index, node) → t.leaves.length < (index + 1) * subtreeSize ∧
        (index + 1) * subtreeSize ≤ s.1.leaves.length) →
      t.leaves.length ≤ s.1.leaves.length →
      s'.1 = s.1.grow commitments ∧
        ∀ index node, s'.2 = some (index, node) → t.leaves.length < (index + 1) * subtreeSize ∧
          (index + 1) * subtreeSize ≤ s'.1.leaves.length := by
    intro commitments
    induction commitments with
    | nil =>
      intro s s' hs hcompleted _
      cases hs
      exact ⟨by simp [grow], hcompleted⟩
    | cons commitment rest ih =>
      intro s s' hs hcompleted hle
      rw [List.foldlM_cons, bind_eq_ok] at hs
      obtain ⟨mid, hmid, hrest⟩ := hs
      obtain ⟨next, hnext, hmid⟩ := of_bind hmid
      cases hmid
      have hnext : next = s.1.grow [commitment] := by
        unfold append at hnext
        split at hnext
        · cases hnext
          rfl
        · cases hnext
      have hlength : next.leaves.length = s.1.leaves.length + 1 := by
        rw [hnext]
        exact List.length_append
      obtain ⟨hgrow, hdone⟩ := ih _ _ hrest (by
        intro index node hor
        rcases Option.or_eq_some_iff.mp hor with hnew | ⟨_, hold⟩
        · have hindex := completedSubtree_eq_some hnew
          dsimp only
          omega
        · have := hcompleted index node hold
          dsimp only
          omega) (by dsimp only; omega)
      refine ⟨?_, hdone⟩
      rw [hgrow, hnext]
      simp [grow]
  exact hloop commitments (t, none) (t', completed) h (fun _ _ hnone => by cases hnone)
    (Nat.le_refl _)

end NoteCommitmentTree

/-! ## The index of a pool -/

/-- A `BTreeMap` with heights or indexes as keys. -/
abbrev HeightMap (V : Type) : Type := SortedList (Prod.fst : Nat × V → Nat)

/-- `insert` of a key that must be absent. -/
def HeightMap.insertNew {V : Type} (m : HeightMap V) (k : Nat) (v : V) (p : Panic) :
    Except Panic (HeightMap V) :=
  if (m.find? k).isSome then .error p else .ok (m.insert (k, v))

theorem HeightMap.insertNew_eq_ok {V : Type} {m m' : HeightMap V} {k : Nat} {v : V} {p : Panic} :
    m.insertNew k v p = .ok m' ↔ (∀ e ∈ m, e.1 ≠ k) ∧ m' = m.insert (k, v) := by
  unfold insertNew
  rw [← SortedList.find?_eq_none]
  cases m.find? k with
  | none => simp [eq_comm]
  | some e => simp

/-- The trees, anchors and subtrees of one pool. Only the Sprout index uses
`treesByAnchor`, and all others use `subtrees`. -/
@[ext]
structure TreeIndex where
  treesByHeight : HeightMap NoteCommitmentTree
  anchorsByHeight : HeightMap Word
  anchors : Multiset Word
  treesByAnchor : Index Word NoteCommitmentTree
  subtrees : HeightMap SubtreeData

inductive RevertPosition where
  | root
  | tip
  deriving DecidableEq

namespace TreeIndex

/-- No trees. -/
def empty : TreeIndex where
  treesByHeight := ∅
  anchorsByHeight := ∅
  anchors := 0
  treesByAnchor := ∅
  subtrees := ∅

variable (hash : TreeHash) (pool : Pool) (i : TreeIndex)

/-- `sprout_tree` and its namesakes, by height. -/
def treeAt (height : Nat) : Option NoteCommitmentTree :=
  (i.treesByHeight.lastUpTo height).map Prod.snd

/-- `sprout_note_commitment_tree_for_tip` and its namesakes. -/
def treeForTip : Except Panic NoteCommitmentTree :=
  okOr (i.treesByHeight.last?.map Prod.snd) .noTree

/-- `sapling_subtree` and its namesakes, by height. -/
def subtreeAt (height : Nat) : Option (Nat × SubtreeData) :=
  i.subtrees.items.find? fun e => e.2.endHeight = height

/-- The test of `add_sprout_tree_and_anchor` and its namesakes: there is no
tree at the height below, or it differs from the new one. -/
def isNewTree (height : Nat) (tree : NoteCommitmentTree) : Bool :=
  decide (height = 0) ||
    decide ((i.treeAt (height - 1)).map (hash.root pool) ≠ some (hash.root pool tree))

/-- The stored trees, with the new one if it differs. -/
def storeTree (height : Nat) (tree : NoteCommitmentTree) :
    Except Panic (HeightMap NoteCommitmentTree) :=
  if i.isNewTree hash pool height tree then i.treesByHeight.insertNew height tree .treeOverwrite
  else .ok i.treesByHeight

/-- `add_sprout_tree_and_anchor` and its namesakes. -/
def addTreeAndAnchor (height : Nat) (tree : NoteCommitmentTree) : Except Panic TreeIndex := do
  let anchor := hash.root pool tree
  let treesByHeight ← i.storeTree hash pool height tree
  let anchorsByHeight ← i.anchorsByHeight.insertNew height anchor .anchorOverwrite
  .ok { i with
    treesByHeight
    anchorsByHeight
    anchors := anchor ::ₘ i.anchors
    treesByAnchor := if pool = .sprout then i.treesByAnchor.insert anchor tree
      else i.treesByAnchor }

/-- The insertion of a subtree, if there is one. -/
def addSubtree (subtree : Option (Nat × SubtreeData)) : TreeIndex :=
  match subtree with
  | some entry => { i with subtrees := i.subtrees.insert entry }
  | none => i

/-- What `update_trees_parallel` computes for a pool: the tree, and the
subtree that is to be inserted. Without new commitments both are those
of the tip. -/
def nextTree (tipSubtree : Option (Nat × SubtreeData)) (tree : NoteCommitmentTree)
    (commitments : List Word) (height : Nat) :
    Except ValidateContextError (NoteCommitmentTree × Option (Nat × SubtreeData)) :=
  if commitments = [] then .ok (tree, tipSubtree)
  else do
    let (tree, completed) ← tree.update hash pool commitments
    .ok (tree, completed.map fun entry => (entry.1, ⟨height, entry.2⟩))

/-- The updates of a pool for a new block. -/
def extend (height : Nat) (next : NoteCommitmentTree × Option (Nat × SubtreeData)) :
    Except Panic TreeIndex := do
  let added ← i.addTreeAndAnchor hash pool height next.1
  .ok (added.addSubtree next.2)

/-- The body of the loop over the removed heights. -/
def removeAt (height : Nat) : Except Panic TreeIndex := do
  let entry ← okOr (i.anchorsByHeight.find? height) .missingAnchor
  let anchors ← removeOne i.anchors entry.2 .missingAnchor
  .ok { i with
    treesByHeight := i.treesByHeight.erase height
    anchorsByHeight := i.anchorsByHeight.erase height
    anchors
    treesByAnchor := if pool = .sprout ∧ entry.2 ∉ anchors then i.treesByAnchor.erase entry.2
      else i.treesByAnchor }

/-- The invariant that `remove_sprout_tree_and_anchor` restores: there is a
tree above the removed heights. -/
def restoreNext (height : Nat) (highestRemovedTree : Option NoteCommitmentTree)
    (tipHeight : Option Nat) : Except Panic TreeIndex :=
  if tipHeight.any (height < ·) then
    if (i.treesByHeight.find? (height + 1)).isSome then .ok i
    else do
      let tree ← okOr highestRemovedTree .missingRemovedTree
      .ok { i with treesByHeight := i.treesByHeight.insert (height + 1, tree) }
  else .ok i

/-- `remove_sprout_tree_and_anchor` and its namesakes. -/
def removeTreeAndAnchor (position : RevertPosition) (height : Nat) (tipHeight : Option Nat) :
    Except Panic TreeIndex := do
  let removedHeights := match position with
    | .root => (i.anchorsByHeight.items.map Prod.fst).filter (· ≤ height)
    | .tip => [height]
  let highestRemovedTree := match position with
    | .root => i.treeAt height
    | .tip => none
  let removed ← removedHeights.foldlM (removeAt pool) i
  removed.restoreNext height highestRemovedTree tipHeight

/-- What `pop_tip` does to the subtrees. -/
def popTipSubtree (height : Nat) : TreeIndex :=
  if i.subtrees.last?.any fun e => e.2.endHeight = height then
    { i with subtrees := i.subtrees.popLast }
  else i

/-- What `pop_root` does to the subtrees. -/
def popRootSubtree (height : Nat) : TreeIndex :=
  if (i.subtreeAt height).isSome then { i with subtrees := i.subtrees.popFirst } else i

end TreeIndex

end Wolf.NonFinalized
