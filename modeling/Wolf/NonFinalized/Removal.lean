import Wolf.NonFinalized.Represents
import Wolf.NonFinalized.Supply

/-! # Removed blocks

`pop_tip` and `pop_root` take a block off either end of a chain, with
separate code for each index. Here both are operations on the list of
the entries of a chain: the chain that is left represents the other
entries.

* `Represents.popTip`, `Represents.popRoot`: a block is removed exactly
  if its address balances stay in range (`Reverts`), and the source
  panics otherwise.
* `Represents.fork`: a fork represents the entries up to its tip, if the
  blocks stay within the supply. -/

namespace Wolf.NonFinalized

open Ledger List

variable {H : Type}

namespace Chain.Represents

variable {rules : Rules H} {c c' : Chain H} {origin : TipState H} {fresh : Bool}
  {es : List (Entry H)} {e : Entry H} {s : Nat × SubtreeData} {tip : Option Nat} {pool : Pool}

/-! ## Facts about the ends -/

theorem lt_completed_endHeight (h : Steps rules origin (e :: es))
    (hs : s ∈ es.filterMap fun e => e.completed pool) : e.block.height < s.2.endHeight := by
  obtain ⟨e', he', hse⟩ := mem_filterMap.mp hs
  rw [(h.completed (mem_cons_of_mem _ he') hse).1]
  exact (pairwise_cons.mp h.heights).1 e' he'

section

variable (h : c.Represents rules origin fresh (es ++ [e]))

include h

theorem contains_concat : c.Contains rules (es.map Entry.block ++ [e.block]) := by
  have hcontains := h.toContains
  rw [map_append] at hcontains
  exact hcontains

/-! ## The tip -/

/-- The trees without those of the tip. -/
theorem tip_trees (htip : ∀ k ∈ tip, k < e.block.height) (pool : Pool) :
    ∃ i', ((c.trees pool).popTipSubtree e.block.height).removeTreeAndAnchor pool .tip
        e.block.height tip = .ok i' ∧
      i'.Represents rules.treeHash pool (levelsOf pool (statesOf origin fresh es))
        (es.filterMap fun e => e.completed pool) := by
  have hrep := h.trees pool
  rw [statesOf_concat, levelsOf_concat, completed_concat] at hrep
  refine hrep.retractTip ?_ ?_ htip
  · intro s hs
    obtain ⟨e', he', hse⟩ := mem_filterMap.mp hs
    rw [(h.steps.completed (mem_append_left _ he') hse).1]
    exact (pairwise_append.mp h.steps.heights).2.2 e' he' e mem_cons_self
  · intro s hs
    exact (h.steps.completed (mem_append_right _ mem_cons_self) hs).1

/-- The history trees without that of the tip. -/
theorem tip_history :
    c.removeHistoryTree .tip e.block.height =
        .ok (c.historyTreesByHeight.erase e.block.height) ∧
      (c.historyTreesByHeight.erase e.block.height).items =
        (statesOf origin fresh es).map fun t => (t.height, t.history) := by
  have hitems := h.history
  rw [statesOf_concat, map_append, map_singleton] at hitems
  constructor
  · apply if_pos
    rw [Option.isSome_iff_exists]
    refine ⟨(e.block.height, e.history), SortedList.find?_eq_some.mpr ⟨?_, rfl⟩⟩
    rw [← SortedList.mem_items, hitems]
    exact mem_append_right _ mem_cons_self
  · have herase := @SortedList.erase_items_of_append _ _ _ Prod.fst c.historyTreesByHeight
      (e.block.height, e.history) _ _ hitems
    rw [append_nil] at herase
    exact herase

/-- The value pools below the tip. -/
theorem tip_valuePools (hne : es ≠ []) :
    c.revertValuePools .tip e.block.chainValuePoolChange = .ok (tipOf origin es).valuePools := by
  have hnext := Entry.next_eq_ok.mp h.steps.concat.next
  have htotal : ∃ total, (tipOf origin es).valuePools.total = .ok total := by
    obtain ⟨init, last, rfl⟩ := (eq_nil_or_concat' es).resolve_left hne
    rw [tipOf_concat]
    have hnext := Entry.next_eq_ok.mp h.steps.init.concat.next
    exact ValueBalance.addChainValuePoolChange_total hnext.2.2.2
  have hback := ValueBalance.addChainValuePoolChange_neg hnext.2.2.2 htotal
  have htip : c.chainValuePools = e.valuePools := by
    rw [h.valuePools, tipOf_concat]
    rfl
  unfold revertValuePools
  rw [htip, hback]
  rfl

/-- Step lemma: the tip of a chain with more than one block is removed. -/
theorem popTip (hne : es ≠ []) :
    (Reverts rules e.block (es.map Entry.block) ∧ ∃ c', c.popTip rules = .ok c' ∧
      c'.Represents rules origin fresh es) ∨
      (¬ Reverts rules e.block (es.map Entry.block) ∧
        c.popTip rules = .error .reversedBalanceOverflow) := by
  have hcontains := h.contains_concat
  have hmap : es.map Entry.block ≠ [] := by simpa using hne
  rw [hcontains.popTip_eq hmap]
  have hremoving := hcontains.removing_tip fun pool =>
    (c.trees pool).popTipSubtree e.block.height
  rcases hremoving.revertWith_eq .tip with
    ⟨hrange, hashes, indexes, hhashes, hindexes, heq⟩ | herror
  · left
    refine ⟨hrange, ?_⟩
    have htip : ∀ k ∈ maxBlockHeight { c with
        blocks := c.blocks.erase e.block.height
        trees := fun pool => (c.trees pool).popTipSubtree e.block.height },
        k < e.block.height := by
      intro k hk
      obtain ⟨b, hb, rfl⟩ := Option.map_eq_some_iff.mp hk
      have hmem := SortedList.last?_mem hb
      rw [← SortedList.mem_items, hremoving.blocks] at hmem
      exact (pairwise_append.mp hcontains.heights).2.2 b hmem e.block mem_cons_self
    choose trees htrees hreps using h.tip_trees htip
    rw [heq, forPools_eq_ok.mpr htrees, ok_bind]
    change ∃ c', (c.removeHistoryTree .tip e.block.height >>= fun histories =>
      c.revertValuePools .tip e.block.chainValuePoolChange >>= fun pools => .ok _) = .ok c' ∧ _
    rw [h.tip_history.1, ok_bind, h.tip_valuePools hne, ok_bind]
    refine ⟨_, rfl, ⟨hremoving.blocks, hhashes, hindexes, rfl⟩, h.steps.init, hreps,
      h.tip_history.2, rfl, ?_⟩
    have hitems := h.info
    rw [map_append, map_singleton] at hitems
    have herase := @SortedList.erase_items_of_append _ _ _ Prod.fst c.blockInfoByHeight
      (Entry.info rules e) _ _ hitems
    rw [append_nil] at herase
    exact herase
  · exact .inr herror

end

/-! ## The root -/

section

variable (h : c.Represents rules origin fresh (e :: es))

include h

/-- The trees without those of the root. -/
theorem root_trees (htip : tip.any (e.block.height < ·) = true ↔ es ≠ []) (pool : Pool) :
    ∃ i', ((c.trees pool).popRootSubtree e.block.height).removeTreeAndAnchor pool .root
        e.block.height tip = .ok i' ∧
      i'.Represents rules.treeHash pool (levelsOf pool (statesOf e.tip false es))
        (es.filterMap fun e => e.completed pool) := by
  have hrep := h.trees pool
  rw [statesOf_cons, levelsOf, map_append, map_append, completed_cons] at hrep
  refine hrep.retractRoot ?_ ?_ (fun s hs => (h.steps.completed mem_cons_self hs).1)
    fun s hs => lt_completed_endHeight h.steps hs
  · intro l hl
    cases es with
    | nil => cases hl
    | cons e₁ es =>
      obtain rfl := Option.some.inj hl
      exact h.steps.2.1.height
  · rw [Entry.tip_height, htip]
    simp [statesOf]

theorem treestate_root : c.treestate e.block.height = .ok e.treestate := by
  have htrees : ∀ pool, okOr ((c.trees pool).treeAt e.block.height) Panic.missingTreestate =
      .ok (e.trees pool) := by
    intro pool
    have hrep := h.trees pool
    rw [statesOf_cons, levelsOf, map_append, map_append] at hrep
    have htree : (c.trees pool).treeAt e.block.height = some (e.trees pool) := hrep.treeAt
    rw [htree]
    rfl
  have hhistory : c.historyTreesByHeight.find? e.block.height =
      some (e.block.height, e.history) := by
    refine SortedList.find?_eq_some.mpr ⟨?_, rfl⟩
    rw [← SortedList.mem_items, h.history, statesOf_cons, map_append, map_append]
    exact mem_append_left _ (mem_append_right _ mem_cons_self)
  have hsubtrees : ∀ pool, (c.trees pool).subtreeAt e.block.height = e.completed pool := by
    intro pool
    have hrep := h.trees pool
    rw [completed_cons] at hrep
    exact (hrep.popRootSubtree (fun s hs => (h.steps.completed mem_cons_self hs).1)
      (fun s hs => lt_completed_endHeight h.steps hs)).1
  unfold Chain.treestate
  rw [forPools_eq_ok.mpr htrees, ok_bind, hhistory, okOr_bind]
  congr 1
  simp only [Entry.treestate, Treestate.mk.injEq, true_and, and_true]
  exact funext hsubtrees

/-- The history trees above the root. -/
theorem root_history :
    (c.historyTreesByHeight.filter fun t => e.block.height < t.1).items =
      (statesOf e.tip false es).map fun t => (t.height, t.history) := by
  change c.historyTreesByHeight.items.filter _ = _
  rw [h.history, statesOf_cons, map_append, filter_append,
    filter_eq_nil_iff.mpr, filter_eq_self.mpr, nil_append]
  · intro t ht
    obtain ⟨t', ht', rfl⟩ := mem_map.mp ht
    obtain ⟨e', he', rfl⟩ := mem_map.mp ht'
    exact decide_eq_true (h.steps.2.height_lt he')
  · intro t ht
    obtain ⟨t', ht', rfl⟩ := mem_map.mp ht
    have horigin := h.steps.1.height
    rcases @mem_statesOf _ _ _ [e] _ ht' with rfl | ⟨_, he, rfl⟩
    · simp only [decide_eq_true_eq]
      omega
    · rw [mem_singleton.mp he]
      simp

/-- Step lemma: the root of a chain is removed. -/
theorem popRoot :
    (Reverts rules e.block (es.map Entry.block) ∧
      ∃ c', c.popRoot rules = .ok (c', e.block, e.treestate) ∧
        c'.Represents rules e.tip false es) ∨
      (¬ Reverts rules e.block (es.map Entry.block) ∧
        c.popRoot rules = .error .reversedBalanceOverflow) := by
  have hcontains : c.Contains rules (e.block :: es.map Entry.block) := h.toContains
  have hremoving := hcontains.removing_root fun pool =>
    (c.trees pool).popRootSubtree e.block.height
  unfold Chain.popRoot
  rw [hcontains.blocks_first, okOr_bind, h.treestate_root, ok_bind]
  rcases hremoving.revertWith_eq .root with
    ⟨hrange, hashes, indexes, hhashes, hindexes, heq⟩ | ⟨hrange, herror⟩
  · left
    refine ⟨hrange, ?_⟩
    have htip : (maxBlockHeight { c with
        blocks := c.blocks.erase e.block.height
        trees := fun pool => (c.trees pool).popRootSubtree e.block.height }).any
        (e.block.height < ·) = true ↔ es ≠ [] := by
      unfold maxBlockHeight SortedList.last?
      rw [hremoving.blocks]
      rcases eq_nil_or_concat' es with rfl | ⟨init, last, rfl⟩
      · simp
      · have hlt := h.steps.2.height_lt (mem_append_right init (mem_cons_self (a := last)))
        simpa using hlt
    choose trees htrees hreps using h.root_trees htip
    rw [heq, forPools_eq_ok.mpr htrees]
    refine ⟨_, rfl, ⟨hremoving.blocks, hhashes, hindexes, rfl⟩, h.steps.2, hreps, h.root_history,
      h.valuePools, ?_⟩
    have hitems : c.blockInfoByHeight.items =
        [] ++ Entry.info rules e :: es.map (Entry.info rules) := h.info
    exact @SortedList.erase_items_of_append _ _ _ Prod.fst c.blockInfoByHeight
      (Entry.info rules e) _ _ hitems
  · right
    refine ⟨hrange, ?_⟩
    rw [herror]
    rfl

end

/-! ## Forks -/

variable {above : List (Entry H)}

section

variable {bs : List ContextuallyVerifiedBlock} (hsupply : WithinSupply rules bs)
  (h : c.Represents rules origin fresh (es ++ [e] ++ above))
  (hblocks : (es ++ [e] ++ above).map Entry.block <:+: bs)

include hsupply h hblocks

/-- The loop of `fork` takes off all blocks above its tip. -/
theorem forkAt {rounds : Nat} (hrounds : above.length < rounds) :
    ∃ c', Chain.forkAt rules e.block.hash rounds c = .ok c' ∧
      c'.Represents rules origin fresh (es ++ [e]) := by
  induction rounds generalizing c above with
  | zero => exact absurd hrounds (Nat.not_lt_zero _)
  | succ rounds ih =>
    rcases eq_nil_or_concat' above with rfl | ⟨init, last, rfl⟩
    · rw [append_nil] at h
      refine ⟨c, ?_, h⟩
      rw [Chain.forkAt, h.contains_concat.blocks_last, okOr_bind, if_pos rfl]
    · rw [← append_assoc] at h
      -- Block hashes are unique within a chain, so the loop goes on.
      have hne : last.block.hash ≠ e.block.hash := by
        have hnodup := h.hashes_nodup
        rw [map_map, map_append, nodup_append] at hnodup
        intro heq
        exact hnodup.2.2 e.block.hash (mem_map.mpr ⟨e, by simp, rfl⟩) last.block.hash
          (mem_map.mpr ⟨last, by simp, rfl⟩) heq.symm
      rw [← append_assoc, map_append] at hblocks
      rcases h.popTip (by simp) with ⟨_, popped, hpop, hpopped⟩ | ⟨hnot, _⟩
      · obtain ⟨c', hloop, hc'⟩ := ih hpopped ((prefix_append _ _).isInfix.trans hblocks) (by
          rw [length_append, length_singleton] at hrounds
          omega)
        refine ⟨c', ?_, hc'⟩
        rw [Chain.forkAt, h.contains_concat.blocks_last, okOr_bind, if_neg hne, hpop,
          ok_bind, hloop]
      · exact absurd (hsupply.reverts_tip hblocks) hnot

/-- A fork represents the entries up to its tip. -/
theorem fork :
    ∃ c', c.fork rules e.block.hash = .ok (some c') ∧
      c'.Represents rules origin fresh (es ++ [e]) := by
  obtain ⟨c', hloop, hc'⟩ := h.forkAt hsupply hblocks (show above.length < c.blocks.items.length by
    rw [h.blocks]
    simp only [length_map, length_append, length_singleton]
    omega)
  refine ⟨c', ?_, hc'⟩
  have hmem : e.block.hash ∈ c.heightByHash :=
    h.mem_heightByHash.mpr ⟨e.block, mem_map_of_mem (by simp), rfl⟩
  unfold Chain.fork
  rw [if_pos hmem, hloop]
  rfl

end

end Chain.Represents

end Wolf.NonFinalized
