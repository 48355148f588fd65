import Wolf.NonFinalized.Chain

/-! # The blocks of a chain

`Chain.Contains`: the hash index, the transaction indexes and the work
of a chain are those of its blocks, whatever its trees are. Every
operation on chains that succeeds keeps this, so it is the invariant
for results about sets of chains.

When a block is taken off, the lookups in these indexes never fail.
What can fail is the check of an address balance: the updates of a block
are undone in block order and not in the opposite order, so that a
balance may leave the range of an amount on the way back even though it
never did on the way up.

* `Contains.push`, `Contains.popTip`, `Contains.popRoot`: step lemmas.
* `Contains.popTip_error` and its namesakes: how a removal can fail. -/

namespace Wolf.NonFinalized

open Ledger List

variable {H : Type} {hash : Hash} {position : RevertPosition}

/-! ## Blocks and their updates -/

/-- The updates of some blocks. -/
def editsOf (rules : Rules H) (bs : List ContextuallyVerifiedBlock) : Multiset Edit :=
  (bs.map fun b => (↑(b.updateEdits rules.address) : Multiset Edit)).sum

/-- No address balance leaves the range of amounts while the block `b` is
reverted, with the blocks `kept` in the chain. -/
def Reverts (rules : Rules H) (b : ContextuallyVerifiedBlock)
    (kept : List ContextuallyVerifiedBlock) : Prop :=
  ReversalInRange (b.revertEdits rules.address) (editsOf rules kept)

/-- The index of block hashes that belongs to some blocks. -/
def hashesOf (bs : List ContextuallyVerifiedBlock) : Multiset (Hash × Nat) :=
  ↑(bs.map fun b => (b.hash, b.height))

/-- The work of some blocks. -/
def workOf (bs : List ContextuallyVerifiedBlock) : Nat := (bs.map fun b => b.block.work).sum

section Lists

variable {rules : Rules H} {b : ContextuallyVerifiedBlock} {bs : List ContextuallyVerifiedBlock}

theorem editsOf_concat :
    editsOf rules (bs ++ [b]) = ↑(b.updateEdits rules.address) + editsOf rules bs := by
  rw [editsOf, map_append, sum_append, add_comm]
  simp [editsOf]

theorem hashesOf_concat : hashesOf (bs ++ [b]) = (b.hash, b.height) ::ₘ hashesOf bs := by
  rw [hashesOf, map_append]
  exact Multiset.coe_eq_coe.mpr (perm_append_singleton _ _)

theorem workOf_concat : workOf (bs ++ [b]) = b.block.work + workOf bs := by
  rw [workOf, map_append, sum_append, Nat.add_comm]
  simp [workOf]

theorem mem_hashesOf : hash ∈ (hashesOf bs).map Prod.fst ↔ ∃ b ∈ bs, b.hash = hash := by
  simp [hashesOf]

end Lists

/-- The panics of `revert_chain_with` that are not about the transaction
indexes, together with the check of address balances. -/
def Panic.OfReversal (p : Panic) : Prop :=
  p = .reversedBalanceOverflow ∨ p = .missingAnchor ∨ p = .missingRemovedTree ∨
    p = .missingHistoryTree ∨ p = .revertedPoolsInvalid

theorem removeTreeAndAnchor_error {i : TreeIndex} {pool : Pool} {height : Nat} {tip : Option Nat}
    {p : Panic} (h : i.removeTreeAndAnchor pool position height tip = .error p) : p.OfReversal := by
  rcases bind_eq_error.mp h with hfold | ⟨removed, _, hrestore⟩
  · -- Every round of the loop fails in one way only.
    have hloop : ∀ (heights : List Nat) (j : TreeIndex),
        heights.foldlM (TreeIndex.removeAt pool) j = .error p → p = .missingAnchor := by
      intro heights
      induction heights with
      | nil => intro j hj; cases hj
      | cons k rest ih =>
        intro j hj
        rcases bind_eq_error.mp hj with hk | ⟨j', _, hrest⟩
        · rcases bind_eq_error.mp hk with hfind | ⟨entry, _, hk⟩
          · exact (okOr_eq_error.mp hfind).2.symm
          · rcases bind_eq_error.mp hk with hone | ⟨_, _, hk⟩
            · unfold removeOne at hone
              split at hone
              · cases hone
              · cases hone
                rfl
            · cases hk
        · exact ih j' hrest
    exact .inr (.inl (hloop _ _ hfold))
  · unfold TreeIndex.restoreNext at hrestore
    split at hrestore
    · split at hrestore
      · cases hrestore
      · rcases bind_eq_error.mp hrestore with htree | ⟨_, _, htree⟩
        · exact .inr (.inr (.inl (okOr_eq_error.mp htree).2.symm))
        · cases htree
    · cases hrestore

theorem forPools_eq_error {ε α : Type} {f : Pool → Except ε α} {err : ε}
    (h : forPools f = .error err) : ∃ pool, f pool = .error err := by
  unfold forPools at h
  simp only [bind_eq_error, reduceCtorEq, and_false, exists_false, or_false] at h
  rcases h with h | ⟨_, _, h | ⟨_, _, h | ⟨_, _, h⟩⟩⟩
  · exact ⟨.sprout, h⟩
  · exact ⟨.sapling, h⟩
  · exact ⟨.orchard, h⟩
  · exact ⟨.ironwood, h⟩

namespace Chain

variable {rules : Rules H} {c c' : Chain H} {b : ContextuallyVerifiedBlock}
  {bs : List ContextuallyVerifiedBlock} {p : Panic}

/-- The indexes of a chain are those of its blocks. -/
structure Contains (rules : Rules H) (c : Chain H) (bs : List ContextuallyVerifiedBlock) :
    Prop where
  blocks : c.blocks.items = bs
  hashes : Holds c.heightByHash (hashesOf bs)
  indexes : Indexed c.toIndexes (editsOf rules bs)
  work : c.partialCumulativeWork = workOf bs

/-- A chain without the block `b`, except that some indexes still hold it. -/
structure Removing (rules : Rules H) (c : Chain H) (b : ContextuallyVerifiedBlock)
    (bs : List ContextuallyVerifiedBlock) : Prop where
  blocks : c.blocks.items = bs
  hashes : Holds c.heightByHash ((b.hash, b.height) ::ₘ hashesOf bs)
  indexes : Indexed c.toIndexes (↑(b.updateEdits rules.address) + editsOf rules bs)
  work : c.partialCumulativeWork = b.block.work + workOf bs

/-! ## What `revert_chain_with` does -/

/-- The part of `revert_chain_with` that is the same at both ends. -/
theorem Removing.revertWith_eq (h : c.Removing rules b bs) (position : RevertPosition) :
    (Reverts rules b bs ∧ ∃ hashes' indexes', Holds hashes' (hashesOf bs) ∧
      Indexed indexes' (editsOf rules bs) ∧
      c.revertWith rules b position = (do
        let trees ← forPools fun pool =>
          (c.trees pool).removeTreeAndAnchor pool position b.height c.maxBlockHeight
        let historyTreesByHeight ← c.removeHistoryTree position b.height
        let chainValuePools ← c.revertValuePools position b.chainValuePoolChange
        .ok { c with
          toIndexes := indexes'
          heightByHash := hashes'
          partialCumulativeWork := workOf bs
          trees
          historyTreesByHeight
          chainValuePools
          blockInfoByHeight := c.blockInfoByHeight.erase b.height })) ∨
      (¬ Reverts rules b bs ∧
        c.revertWith rules b position = .error .reversedBalanceOverflow) := by
  obtain ⟨hashes', hremove, hhashes'⟩ := h.hashes.removePresent Panic.missingBlockHash
  have hsub : subWork c.partialCumulativeWork b.block.work = .ok (workOf bs) := by
    unfold subWork
    rw [h.work, rejectIf_bind (by omega), Nat.add_sub_cancel_left]
  have hperm : (↑(b.updateEdits rules.address) : Multiset Edit) = ↑(b.revertEdits rules.address) :=
    Multiset.coe_eq_coe.mpr (b.revertEdits_perm rules.address).symm
  have hindexes := h.indexes
  rw [hperm] at hindexes
  unfold revertWith
  rw [hremove, ok_bind, hsub, ok_bind]
  rcases hindexes.undoAll_cases with ⟨indexes', hundo, hindexes', hrange⟩ | ⟨herror, hrange⟩
  · left
    refine ⟨hrange, hashes', indexes', hhashes', hindexes', ?_⟩
    rw [hundo, ok_bind]
  · right
    refine ⟨hrange, ?_⟩
    rw [herror]
    rfl

theorem Removing.revertWith_ok (h : c.Removing rules b bs)
    (hrevert : c.revertWith rules b position = .ok c') :
    Reverts rules b bs ∧ c'.Contains rules bs := by
  rcases h.revertWith_eq position with
    ⟨hrange, hashes', indexes', hhashes', hindexes', heq⟩ | ⟨_, heq⟩
  · rw [heq] at hrevert
    obtain ⟨_, _, hrevert⟩ := of_two_binds hrevert
    obtain ⟨_, _, hrevert⟩ := of_bind hrevert
    cases hrevert
    exact ⟨hrange, h.blocks, hhashes', hindexes', rfl⟩
  · rw [heq] at hrevert
    cases hrevert

theorem Removing.revertWith_error (h : c.Removing rules b bs)
    (hrevert : c.revertWith rules b position = .error p) : p.OfReversal := by
  rcases h.revertWith_eq position with
    ⟨_, hashes', indexes', _, _, heq⟩ | ⟨_, heq⟩
  · rw [heq] at hrevert
    rcases bind_eq_error.mp hrevert with htrees | ⟨_, _, hrevert⟩
    · obtain ⟨pool, hpool⟩ := forPools_eq_error htrees
      exact removeTreeAndAnchor_error hpool
    · rcases bind_eq_error.mp hrevert with hhistory | ⟨_, _, hrevert⟩
      · cases position with
        | root => cases hhistory
        | tip =>
          unfold removeHistoryTree at hhistory
          simp only at hhistory
          split at hhistory
          · cases hhistory
          · cases hhistory
            exact .inr (.inr (.inr (.inl rfl)))
      · rcases bind_eq_error.mp hrevert with hpools | ⟨_, _, hrevert⟩
        · cases position with
          | root => cases hpools
          | tip =>
            unfold revertValuePools at hpools
            cases hadd : c.chainValuePools.addChainValuePoolChange b.chainValuePoolChange.neg with
            | ok pools => simp [hadd] at hpools
            | error e =>
              simp only [hadd, mapErr, Except.error.injEq] at hpools
              exact .inr (.inr (.inr (.inr hpools.symm)))
        · cases hrevert
  · rw [heq] at hrevert
    cases hrevert
    exact .inl rfl

namespace Contains

/-! ## Step lemmas -/

theorem heights (h : c.Contains rules bs) : bs.Pairwise fun b b' => b.height < b'.height := by
  rw [← h.blocks]
  exact c.blocks.sorted

theorem hashes_nodup (h : c.Contains rules bs) : (bs.map fun b => b.hash).Nodup := by
  have hnodup := h.hashes.nodup
  rw [hashesOf, Multiset.map_coe, Multiset.coe_nodup, map_map] at hnodup
  exact hnodup

theorem mem_heightByHash (h : c.Contains rules bs) :
    hash ∈ c.heightByHash ↔ ∃ b ∈ bs, b.hash = hash :=
  h.hashes.mem_iff.trans mem_hashesOf

theorem new {tip : TipState H} (hnew : Chain.new rules tip = .ok c) : c.Contains rules [] := by
  obtain ⟨trees, _, hnew⟩ := of_bind hnew
  cases hnew
  exact ⟨rfl, Holds.empty, Indexed.empty, rfl⟩

theorem push (h : c.Contains rules bs) (hheight : ∀ b' ∈ bs, b'.height < b.height)
    (hpush : c.push rules b = .ok c') : c'.Contains rules (bs ++ [b]) := by
  obtain ⟨⟨next, updated⟩, hparallel, hpush⟩ := of_bind hpush
  obtain ⟨_, hupdated⟩ := inParallel_eq_ok.mp hparallel
  obtain ⟨trees, _, hpush⟩ := of_bind hpush
  obtain ⟨history, _, hpush⟩ := of_bind hpush
  obtain ⟨histories, _, hpush⟩ := of_bind hpush
  cases hpush
  obtain ⟨hashes, hhashes, hupdated⟩ := of_bind hupdated
  obtain ⟨work, hwork, hupdated⟩ := of_bind hupdated
  obtain ⟨indexes, hindexes, hupdated⟩ := of_bind hupdated
  obtain ⟨pools, _, hupdated⟩ := of_bind hupdated
  cases hupdated
  obtain ⟨_, _, hwork⟩ := of_bind hwork
  cases hwork
  refine ⟨?_, ?_, ?_, ?_⟩
  · exact SortedList.insert_items_of_lt h.blocks hheight
  · rw [hashesOf_concat]
    exact h.hashes.insertNew hhashes
  · rw [editsOf_concat]
    exact h.indexes.applyAll hindexes
  · rw [workOf_concat, Nat.add_comm, ← h.work]

theorem blocks_last (h : c.Contains rules (bs ++ [b])) : c.blocks.last? = some b := by
  unfold SortedList.last?
  rw [h.blocks, List.getLast?_concat]

theorem blocks_first (h : c.Contains rules (b :: bs)) : c.blocks.first? = some b := by
  unfold SortedList.first?
  rw [h.blocks]
  rfl

/-- The tip is about to be removed. -/
theorem removing_tip (h : c.Contains rules (bs ++ [b])) (trees : Pool → TreeIndex) :
    Removing rules { c with blocks := c.blocks.erase b.height, trees } b bs where
  blocks := by
    rw [SortedList.erase_items_of_append h.blocks, append_nil]
  hashes := by
    rw [← hashesOf_concat]
    exact h.hashes
  indexes := by
    rw [← editsOf_concat]
    exact h.indexes
  work := by
    rw [← workOf_concat]
    exact h.work

/-- The root is about to be removed. -/
theorem removing_root (h : c.Contains rules (b :: bs)) (trees : Pool → TreeIndex) :
    Removing rules { c with blocks := c.blocks.erase b.height, trees } b bs where
  blocks := by
    have hitems : c.blocks.items = [] ++ b :: bs := h.blocks
    rw [SortedList.erase_items_of_append hitems, nil_append]
  hashes := h.hashes
  indexes := h.indexes
  work := h.work

/-- What `pop_tip` does to a chain with more than one block. -/
theorem popTip_eq (h : c.Contains rules (bs ++ [b])) (hne : bs ≠ []) :
    c.popTip rules = { c with
      blocks := c.blocks.erase b.height
      trees := fun pool => (c.trees pool).popTipSubtree b.height }.revertWith rules b .tip := by
  unfold Chain.popTip
  rw [h.blocks_last, okOr_bind]
  have hitems : (c.blocks.erase b.height).items = bs := (h.removing_tip c.trees).blocks
  dsimp only
  rw [rejectIf_of_not (by rw [hitems]; exact hne)]
  rfl

/-- The last block is never popped. -/
theorem popTip_single (h : c.Contains rules [b]) : c.popTip rules = .error .lastBlockPopped := by
  have hlast : c.Contains rules ([] ++ [b]) := h
  unfold Chain.popTip
  rw [hlast.blocks_last, okOr_bind]
  have hitems : (c.blocks.erase b.height).items = [] := (hlast.removing_tip c.trees).blocks
  dsimp only
  rw [rejectIf_of_pos hitems]
  rfl

theorem popTip (h : c.Contains rules bs) (hpop : c.popTip rules = .ok c') :
    ∃ kept b, bs = kept ++ [b] ∧ kept ≠ [] ∧ Reverts rules b kept ∧ c'.Contains rules kept := by
  rcases eq_nil_or_concat' bs with rfl | ⟨kept, b, rfl⟩
  · obtain ⟨b, hb, _⟩ := of_okOr_bind hpop
    have hmem := SortedList.last?_mem hb
    rw [← SortedList.mem_items, h.blocks] at hmem
    cases hmem
  · by_cases hne : kept = []
    · subst hne
      rw [h.popTip_single] at hpop
      cases hpop
    · rw [h.popTip_eq hne] at hpop
      obtain ⟨hrange, hcontains⟩ := (h.removing_tip _).revertWith_ok hpop
      exact ⟨kept, b, rfl, hne, hrange, hcontains⟩

theorem popTip_error (h : c.Contains rules (bs ++ [b])) (hne : bs ≠ [])
    (hpop : c.popTip rules = .error p) : p.OfReversal := by
  rw [h.popTip_eq hne] at hpop
  exact (h.removing_tip _).revertWith_error hpop

theorem popRoot {treestate : Treestate H} (h : c.Contains rules bs)
    (hpop : c.popRoot rules = .ok (c', b, treestate)) :
    ∃ rest, bs = b :: rest ∧ Reverts rules b rest ∧ c'.Contains rules rest := by
  obtain ⟨b', hb', hpop⟩ := of_okOr_bind hpop
  obtain ⟨_, _, hpop⟩ := of_bind hpop
  obtain ⟨popped, hrevert, hpop⟩ := of_bind hpop
  cases hpop
  rw [SortedList.first?, h.blocks] at hb'
  cases bs with
  | nil => cases hb'
  | cons b₀ rest =>
    cases hb'
    obtain ⟨hrange, hcontains⟩ := (h.removing_root _).revertWith_ok hrevert
    exact ⟨rest, rfl, hrange, hcontains⟩

end Contains

end Chain

end Wolf.NonFinalized
