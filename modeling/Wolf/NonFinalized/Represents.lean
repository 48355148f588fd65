import Wolf.NonFinalized.Contains
import Wolf.NonFinalized.TreeLevels

/-! # What a chain holds

An `Entry` is a block with the state after it: trees, history tree and
value pools. `Entry.next` computes it from the state below, without any
index; this is the abstract view of a chain.

A chain *represents* a list of entries that starts above an `origin`,
the state of the block below its root. A chain that was made by
`Chain::new` also holds the trees of its origin; `pop_root` removes
them, so that every other chain only holds those of its own blocks
(`fresh` tells the two apart).

* `Represents.new`, `Represents.push`: a new chain has no entries, and a
  block that is pushed adds the next one.
* `Represents.unique`: the entries determine the chain.

The removal of blocks is in `Wolf.NonFinalized.Removal`. -/

namespace Wolf.NonFinalized

open Ledger List

variable {H : Type} {s : Nat × SubtreeData} {b : ContextuallyVerifiedBlock} {pool : Pool}

/-! ## Entries -/

/-- A block and the state after it. -/
structure Entry (H : Type) where
  block : ContextuallyVerifiedBlock
  trees : Pool → NoteCommitmentTree
  /-- The subtrees that the block completes. -/
  completed : Pool → Option (Nat × SubtreeData)
  history : H
  valuePools : ValueBalance .nonNegative

namespace Entry

/-- The state after the block. -/
def tip (e : Entry H) : TipState H := ⟨e.block.height, e.trees, e.history, e.valuePools⟩

@[simp] theorem tip_height (e : Entry H) : e.tip.height = e.block.height := rfl

/-- The treestate of the block. -/
def treestate (e : Entry H) : Treestate H := ⟨e.trees, e.completed, e.history⟩

/-- The state after a block, from the state below it. -/
def next (rules : Rules H) (below : TipState H) (b : ContextuallyVerifiedBlock) :
    Except ValidateContextError (Entry H) := do
  let trees ← forPools fun pool => TreeIndex.nextTree rules.treeHash pool none (below.trees pool)
    (b.block.noteCommitments pool) b.height
  let history ← rules.pushHistory below.history b.block
    (rules.treeHash.root .sapling (trees .sapling).1)
    (rules.treeHash.root .orchard (trees .orchard).1)
    (rules.treeHash.root .ironwood (trees .ironwood).1)
  let valuePools ← mapErr (fun e => .addValuePool e b.height)
    (below.valuePools.addChainValuePoolChange b.chainValuePoolChange)
  .ok ⟨b, fun pool => (trees pool).1, fun pool => (trees pool).2, history, valuePools⟩

/-- An entry is the next one above a state. -/
structure Follows (rules : Rules H) (below : TipState H) (e : Entry H) : Prop where
  next : Entry.next rules below e.block = .ok e
  height : e.block.height = below.height + 1

variable {below : TipState H}

/-- What `Entry.next` computes. -/
theorem next_eq_ok {rules : Rules H} {e : Entry H} :
    Entry.next rules below b = .ok e ↔ e.block = b ∧
      (∀ pool, TreeIndex.nextTree rules.treeHash pool none (below.trees pool)
        (b.block.noteCommitments pool) b.height = .ok (e.trees pool, e.completed pool)) ∧
      rules.pushHistory below.history b.block (rules.treeHash.root .sapling (e.trees .sapling))
        (rules.treeHash.root .orchard (e.trees .orchard))
        (rules.treeHash.root .ironwood (e.trees .ironwood)) = .ok e.history ∧
      below.valuePools.addChainValuePoolChange b.chainValuePoolChange = .ok e.valuePools := by
  unfold Entry.next
  simp only [bind_eq_ok, forPools_eq_ok, mapErr_eq_ok]
  constructor
  · rintro ⟨trees, htrees, history, hhistory, pools, hpools, he⟩
    cases he
    exact ⟨rfl, htrees, hhistory, hpools⟩
  · rintro ⟨rfl, htrees, hhistory, hpools⟩
    exact ⟨fun pool => (e.trees pool, e.completed pool), htrees, _, hhistory, _, hpools, rfl⟩

namespace Follows

variable {rules : Rules H} {e e' : Entry H}

/-- The trees grow by the commitments of the block. -/
theorem trees_eq (h : Follows rules below e) :
    e.trees pool = (below.trees pool).grow (e.block.block.noteCommitments pool) :=
  (TreeIndex.nextTree_none_eq_ok ((next_eq_ok.mp h.next).2.1 pool)).1

/-- A completed subtree ends in the new part of a tree. -/
theorem completed (h : Follows rules below e) (hs : e.completed pool = some s) :
    s.2.endHeight = e.block.height ∧
      (s.1 + 1) * subtreeSize ≤ (e.trees pool).leaves.length := by
  have hdone := (TreeIndex.nextTree_none_eq_ok ((next_eq_ok.mp h.next).2.1 pool)).2 s hs
  exact ⟨hdone.1, hdone.2.2⟩

end Follows

end Entry

/-- The state at the top of some entries. -/
def tipOf (origin : TipState H) (es : List (Entry H)) : TipState H :=
  es.foldl (fun _ e => e.tip) origin

/-- Every entry is the next one above the entry before. -/
def Steps (rules : Rules H) : TipState H → List (Entry H) → Prop
  | _, [] => True
  | below, e :: es => e.Follows rules below ∧ Steps rules e.tip es

section Steps

variable {rules : Rules H} {origin : TipState H} {es es' : List (Entry H)} {e : Entry H}

@[simp] theorem tipOf_nil : tipOf origin [] = origin := rfl

@[simp] theorem tipOf_cons : tipOf origin (e :: es) = tipOf e.tip es := rfl

@[simp] theorem tipOf_concat : tipOf origin (es ++ [e]) = e.tip := by
  rw [tipOf, foldl_append]
  rfl

theorem tipOf_append : tipOf origin (es ++ es') = tipOf (tipOf origin es) es' := foldl_append

theorem steps_append :
    Steps rules origin (es ++ es') ↔ Steps rules origin es ∧ Steps rules (tipOf origin es) es' := by
  induction es generalizing origin with
  | nil => simp [Steps]
  | cons e es ih => simp only [cons_append, Steps, ih, tipOf_cons, and_assoc]

namespace Steps

theorem concat (h : Steps rules origin (es ++ [e])) : e.Follows rules (tipOf origin es) :=
  (steps_append.mp h).2.1

theorem init (h : Steps rules origin (es ++ [e])) : Steps rules origin es := (steps_append.mp h).1

theorem height_lt (h : Steps rules origin es) (he : e ∈ es) : origin.height < e.block.height := by
  induction es generalizing origin with
  | nil => cases he
  | cons e₀ es ih =>
    have hheight := h.1.height
    rcases mem_cons.mp he with rfl | he
    · omega
    · have := ih h.2 he
      change e₀.block.height < _ at this
      omega

/-- Heights increase. -/
theorem heights (h : Steps rules origin es) :
    es.Pairwise fun e e' => e.block.height < e'.block.height := by
  induction es generalizing origin with
  | nil => exact List.Pairwise.nil
  | cons e es ih => exact pairwise_cons.mpr ⟨fun e' he' => h.2.height_lt he', ih h.2⟩

/-- The trees of a pool grow. -/
theorem leaves_le (h : Steps rules origin es) (pool : Pool) :
    (origin.trees pool).leaves.length ≤ ((tipOf origin es).trees pool).leaves.length := by
  induction es generalizing origin with
  | nil => exact Nat.le_refl _
  | cons e es ih =>
    refine Nat.le_trans (m := (e.trees pool).leaves.length) ?_ (ih h.2)
    rw [h.1.trees_eq, NoteCommitmentTree.grow, length_append]
    omega

/-- A completed subtree ends at the height of its block, and lies within the
tree of the tip. -/
theorem completed (h : Steps rules origin es) (he : e ∈ es) (hs : e.completed pool = some s) :
    s.2.endHeight = e.block.height ∧
      (s.1 + 1) * subtreeSize ≤ ((tipOf origin es).trees pool).leaves.length := by
  induction es generalizing origin with
  | nil => cases he
  | cons e₀ es ih =>
    rcases mem_cons.mp he with rfl | he
    · exact ⟨(h.1.completed hs).1, Nat.le_trans (h.1.completed hs).2 (h.2.leaves_le pool)⟩
    · exact ih h.2 he

end Steps

end Steps

/-! ## Chains of entries -/

/-- The states of a chain, lowest first. -/
def statesOf (origin : TipState H) (fresh : Bool) (es : List (Entry H)) : List (TipState H) :=
  (if fresh then [origin] else []) ++ es.map Entry.tip

/-- The levels of the trees of a pool. -/
def levelsOf (pool : Pool) (states : List (TipState H)) : List (Nat × NoteCommitmentTree) :=
  states.map fun t => (t.height, t.trees pool)

/-- The block info of an entry. -/
def Entry.info (rules : Rules H) (e : Entry H) : Nat × BlockInfo :=
  (e.block.height, ⟨e.valuePools, rules.serializedSize e.block.block % 2 ^ 32⟩)

/-- All indexes of a chain are those of its entries. -/
structure Chain.Represents (rules : Rules H) (c : Chain H) (origin : TipState H) (fresh : Bool)
    (es : List (Entry H)) : Prop extends c.Contains rules (es.map Entry.block) where
  steps : Steps rules origin es
  trees : ∀ pool, (c.trees pool).Represents rules.treeHash pool
    (levelsOf pool (statesOf origin fresh es)) (es.filterMap fun e => e.completed pool)
  history : c.historyTreesByHeight.items =
    (statesOf origin fresh es).map fun t => (t.height, t.history)
  valuePools : c.chainValuePools = (tipOf origin es).valuePools
  info : c.blockInfoByHeight.items = es.map (Entry.info rules)

section Lists

variable {rules : Rules H} {origin : TipState H} {fresh : Bool} {es : List (Entry H)} {e : Entry H}

theorem statesOf_concat : statesOf origin fresh (es ++ [e]) =
    statesOf origin fresh es ++ [e.tip] := by
  rw [statesOf, map_append, ← append_assoc]
  rfl

/-- A state of a chain is its origin or the one after an entry. -/
theorem mem_statesOf (ht : t ∈ statesOf origin fresh es) : t = origin ∨ ∃ e ∈ es, e.tip = t := by
  rcases mem_append.mp ht with ht | ht
  · cases fresh with
    | false => cases ht
    | true => exact .inl (mem_singleton.mp ht)
  · exact .inr (mem_map.mp ht)

/-- The highest state is that of the tip. -/
theorem statesOf_tip (hlive : fresh = true ∨ es ≠ []) :
    ∃ lower, statesOf origin fresh es = lower ++ [tipOf origin es] := by
  rcases eq_nil_or_concat' es with rfl | ⟨init, last, rfl⟩
  · rcases hlive with rfl | hne
    · exact ⟨[], rfl⟩
    · exact absurd rfl hne
  · rw [statesOf_concat, tipOf_concat]
    exact ⟨_, rfl⟩

theorem completed_concat :
    (es ++ [e]).filterMap (fun e => e.completed pool) =
      es.filterMap (fun e => e.completed pool) ++ (e.completed pool).toList := by
  cases hsome : e.completed pool <;> simp [hsome]

theorem completed_cons :
    (e :: es).filterMap (fun e => e.completed pool) =
      (e.completed pool).toList ++ es.filterMap fun e => e.completed pool := by
  cases hsome : e.completed pool <;> simp [hsome]

theorem levelsOf_concat (states : List (TipState H)) (t : TipState H) :
    levelsOf pool (states ++ [t]) = levelsOf pool states ++ [(t.height, t.trees pool)] :=
  map_append

theorem statesOf_cons :
    statesOf origin fresh (e :: es) = (if fresh then [origin] else []) ++ [e.tip] ++
      statesOf e.tip false es := by
  simp [statesOf]

end Lists

namespace Chain.Represents

variable {rules : Rules H} {c c' : Chain H} {origin t : TipState H} {fresh : Bool}
  {es : List (Entry H)} {e : Entry H}

/-- A chain is determined by its entries. -/
theorem unique (h : c.Represents rules origin fresh es) (h' : c'.Represents rules origin fresh es) :
    c = c' := by
  have hindexes := h.indexes.unique h'.indexes
  have hblocks : c.blocks = c'.blocks := SortedList.ext (h.blocks.trans h'.blocks.symm)
  have hhashes := h.hashes.unique h'.hashes
  have htrees : c.trees = c'.trees := funext fun pool => (h.trees pool).unique (h'.trees pool)
  have hhistory : c.historyTreesByHeight = c'.historyTreesByHeight :=
    SortedList.ext (h.history.trans h'.history.symm)
  have hwork := h.work.trans h'.work.symm
  have hpools := h.valuePools.trans h'.valuePools.symm
  have hinfo : c.blockInfoByHeight = c'.blockInfoByHeight :=
    SortedList.ext (h.info.trans h'.info.symm)
  cases c
  subst hindexes hblocks hhashes htrees hhistory hwork hpools hinfo
  rfl

/-- A new chain has no entries. -/
theorem new (rules : Rules H) (tip : TipState H) :
    ∃ c, Chain.new rules tip = .ok c ∧ c.Represents rules tip true [] := by
  have hindex : ∀ pool, ∃ i : TreeIndex,
      TreeIndex.empty.addTreeAndAnchor rules.treeHash pool tip.height (tip.trees pool) = .ok i ∧
      i.Represents rules.treeHash pool [(tip.height, tip.trees pool)] [] :=
    fun pool => TreeIndex.addTreeAndAnchor_empty
  choose trees hok htrees using hindex
  refine ⟨{ Indexes.empty with
    blocks := ∅
    heightByHash := ∅
    trees
    historyTreesByHeight := (∅ : HeightMap H).insert (tip.height, tip.history)
    partialCumulativeWork := 0
    chainValuePools := tip.valuePools
    blockInfoByHeight := ∅ }, ?_, ⟨rfl, Holds.empty, Indexed.empty, rfl⟩, trivial, htrees, rfl, rfl,
    rfl⟩
  unfold Chain.new
  rw [forPools_eq_ok.mpr hok]
  rfl

/-! ## New blocks -/

/-- The subtree of the tip is one of those that are stored. -/
theorem subtreeForTip_mem (h : c.Represents rules origin fresh es)
    (hs : c.subtreeForTip pool = some s) : s ∈ es.filterMap fun e => e.completed pool := by
  obtain ⟨_, _, hsubtree⟩ := Option.bind_eq_some_iff.mp hs
  have hmem := mem_of_find?_eq_some hsubtree
  rw [(h.trees pool).subtrees] at hmem
  exact hmem

/-- The history tree of the tip. -/
theorem history_last (h : c.Represents rules origin fresh es) (hlive : fresh = true ∨ es ≠ []) :
    c.historyTreesByHeight.last? =
      some ((tipOf origin es).height, (tipOf origin es).history) := by
  obtain ⟨lower, hlower⟩ := statesOf_tip hlive
  unfold SortedList.last?
  rw [h.history, hlower, map_append, map_singleton, List.getLast?_concat]

/-- The states of a chain are not above its tip. -/
theorem state_height_le (h : Steps rules origin es) (ht : t ∈ statesOf origin fresh es) :
    t.height ≤ (tipOf origin es).height := by
  rcases eq_nil_or_concat' es with rfl | ⟨init, last, rfl⟩
  · rcases mem_statesOf ht with rfl | ⟨e, he, _⟩
    · exact Nat.le_refl _
    · cases he
  · rw [tipOf_concat]
    rcases mem_statesOf ht with rfl | ⟨e, he, rfl⟩
    · exact (h.height_lt (mem_append_right _ mem_cons_self)).le
    · rcases mem_append.mp he with he | he
      · exact ((pairwise_append.mp h.heights).2.2 e he last mem_cons_self).le
      · rw [mem_singleton.mp he]

/-- What a block changes besides the transaction indexes and the work. -/
theorem updateExceptTrees_frame {updated : Chain H}
    (h : c.updateExceptTrees rules b = .ok updated) :
    c.chainValuePools.addChainValuePoolChange b.chainValuePoolChange =
        .ok updated.chainValuePools ∧
      updated.historyTreesByHeight = c.historyTreesByHeight ∧
      updated.blockInfoByHeight = c.blockInfoByHeight.insert
        (b.height, ⟨updated.chainValuePools, rules.serializedSize b.block % 2 ^ 32⟩) := by
  obtain ⟨_, _, h⟩ := of_two_binds h
  obtain ⟨_, _, h⟩ := of_bind h
  obtain ⟨pools, hpools, h⟩ := of_mapErr_bind h
  cases h
  exact ⟨hpools, rfl, rfl⟩

section Push

variable (h : c.Represents rules origin fresh es) (hlive : fresh = true ∨ es ≠ [])

include h hlive

/-- The levels of a pool end in the tree of the tip. -/
theorem tree (pool : Pool) :
    ∃ lower, levelsOf pool (statesOf origin fresh es) =
        lower ++ [((tipOf origin es).height, (tipOf origin es).trees pool)] ∧
      (c.trees pool).Represents rules.treeHash pool
        (lower ++ [((tipOf origin es).height, (tipOf origin es).trees pool)])
        (es.filterMap fun e => e.completed pool) := by
  obtain ⟨lower, hlower⟩ : ∃ lower, statesOf origin fresh es = lower ++ [tipOf origin es] :=
    statesOf_tip hlive
  have hlevels : levelsOf pool (statesOf origin fresh es) = levelsOf pool lower ++
      [((tipOf origin es).height, (tipOf origin es).trees pool)] := by
    rw [hlower, levelsOf_concat]
  exact ⟨_, hlevels, hlevels ▸ h.trees pool⟩

theorem nextTrees_eq_ok {next : Pool → NoteCommitmentTree × Option (Nat × SubtreeData)} :
    c.nextTrees rules b = .ok next ↔
      ∀ pool, TreeIndex.nextTree rules.treeHash pool (c.subtreeForTip pool)
        ((tipOf origin es).trees pool) (b.block.noteCommitments pool) b.height =
          .ok (next pool) := by
  have htips : (forPools fun pool => mapErr Fault.panicked (c.trees pool).treeForTip) =
      .ok (tipOf origin es).trees := by
    rw [forPools_eq_ok]
    intro pool
    obtain ⟨lower, _, hlower⟩ := h.tree hlive pool
    rw [hlower.treeForTip]
    rfl
  unfold nextTrees
  rw [htips, ok_bind, forPools_eq_ok]
  simp only [mapErr_eq_ok]

/-- The trees of a block are always added. -/
theorem extend {tree : NoteCommitmentTree} {completed subtree : Option (Nat × SubtreeData)}
    (hheight : b.height = (tipOf origin es).height + 1)
    (hfree : rules.treeHash.CollisionFree pool
      ((statesOf origin fresh es).map (fun t => t.trees pool) ++
        [((tipOf origin es).trees pool).grow (b.block.noteCommitments pool)]))
    (hnext : TreeIndex.nextTree rules.treeHash pool none ((tipOf origin es).trees pool)
      (b.block.noteCommitments pool) b.height = .ok (tree, completed))
    (hsubtree : subtree = completed ∨ completed = none ∧ subtree = c.subtreeForTip pool) :
    ∃ i, (c.trees pool).extend rules.treeHash pool b.height (tree, subtree) = .ok i ∧
      i.Represents rules.treeHash pool
        (levelsOf pool (statesOf origin fresh es) ++ [(b.height, tree)])
        ((es.filterMap fun e => e.completed pool) ++ completed.toList) := by
  have hgrown := TreeIndex.nextTree_none_eq_ok hnext
  rw [← hgrown.1] at hfree
  have hfree : rules.treeHash.CollisionFree pool
      ((levelsOf pool (statesOf origin fresh es) ++ [(b.height, tree)]).map Prod.snd) := by
    rw [map_append, levelsOf, map_map]
    exact hfree
  obtain ⟨lower, hlevels, hrep⟩ := h.tree hlive pool
  rw [hheight, hlevels] at hfree ⊢
  obtain ⟨i, hi⟩ := hrep.exists_extend (tree, subtree)
  refine ⟨i, hi, hrep.extend hfree hi ?_⟩
  rcases hsubtree with rfl | ⟨hnone, rfl⟩
  · left
    refine ⟨rfl, ?_⟩
    -- A new subtree ends above all leaves that were there.
    intro s hs s' hs'
    obtain ⟨e, he, hse⟩ := mem_filterMap.mp hs'
    have hold := (h.steps.completed he hse).2
    have hnew := (hgrown.2 s hs).2.1
    by_contra hge
    have := Nat.mul_le_mul_right subtreeSize (Nat.succ_le_succ (Nat.le_of_not_lt hge))
    simp only [Nat.succ_eq_add_one] at this
    omega
  · exact .inr ⟨hnone, fun s hs => h.subtreeForTip_mem hs⟩

/-- The history tree of a block, from the trees that were added. -/
theorem nextHistory_eq {updated : Chain H} {trees : Pool → TreeIndex}
    {next : Pool → NoteCommitmentTree}
    (hhistory : updated.historyTreesByHeight = c.historyTreesByHeight)
    (htrees : ∀ pool, (trees pool).treeForTip = .ok (next pool)) :
    updated.nextHistory rules trees b = mapErr Fault.rejected
      (rules.pushHistory (tipOf origin es).history b.block
        (rules.treeHash.root .sapling (next .sapling))
        (rules.treeHash.root .orchard (next .orchard))
        (rules.treeHash.root .ironwood (next .ironwood))) := by
  have hroot : ∀ pool, tipRoot rules trees pool = .ok (rules.treeHash.root pool (next pool)) := by
    intro pool
    unfold tipRoot
    rw [htrees]
    rfl
  unfold nextHistory
  rw [hroot, ok_bind, hroot, ok_bind, hroot, ok_bind, hhistory, h.history_last hlive, okOr_bind]

variable (hheight : b.height = (tipOf origin es).height + 1)
  (hfree : ∀ pool, rules.treeHash.CollisionFree pool
    ((statesOf origin fresh es).map (fun t => t.trees pool) ++
      [((tipOf origin es).trees pool).grow (b.block.noteCommitments pool)]))

include hheight hfree

/-- A block is pushed if there is a state after it and the indexes have room
for it. -/
theorem exists_push {updated : Chain H} (hnext : Entry.next rules (tipOf origin es) b = .ok e)
    (hupdated : c.updateExceptTrees rules b = .ok updated) :
    ∃ c', c.push rules b = .ok c' ∧ c'.Represents rules origin fresh (es ++ [e]) := by
  obtain ⟨rfl, htrees, hhistory, hpools⟩ := Entry.next_eq_ok.mp hnext
  have hsteps : Steps rules origin (es ++ [e]) :=
    steps_append.mpr ⟨h.steps, ⟨hnext, hheight⟩, trivial⟩
  have hbelow : ∀ t ∈ statesOf origin fresh es, t.height < e.block.height := by
    intro t ht
    have := state_height_le h.steps ht
    omega
  have habove : ∀ e' ∈ es, e'.block.height < e.block.height := fun e' he' =>
    (pairwise_append.mp hsteps.heights).2.2 e' he' e mem_cons_self
  choose subtrees hsubtrees hcompleted using fun pool =>
    TreeIndex.nextTree_eq_ok (c.subtreeForTip pool) (htrees pool)
  choose trees hextend hreps using fun pool =>
    h.extend hlive hheight (hfree pool) (htrees pool) (hcompleted pool)
  obtain ⟨hadd, hkept, hinfo⟩ := updateExceptTrees_frame hupdated
  rw [h.valuePools, hpools] at hadd
  have hvalues := Except.ok.inj hadd
  have hpush : c.push rules e.block = .ok { updated with
      trees
      historyTreesByHeight := updated.historyTreesByHeight.insert (e.block.height, e.history)
      blocks := c.blocks.insert e.block } := by
    refine bind_eq_ok.mpr ⟨(_, updated), inParallel_eq_ok.mpr
      ⟨(h.nextTrees_eq_ok hlive).mpr hsubtrees, hupdated⟩, bind_eq_ok.mpr ⟨trees, ?_,
      bind_eq_ok.mpr ⟨e.history, ?_, bind_eq_ok.mpr
        ⟨_, mapErr_eq_ok.mpr (HeightMap.insertNew_eq_ok.mpr ⟨?_, rfl⟩), rfl⟩⟩⟩⟩
    · exact forPools_eq_ok.mpr fun pool => mapErr_eq_ok.mpr (hextend pool)
    · rw [h.nextHistory_eq hlive hkept fun pool => (hreps pool).treeForTip]
      exact mapErr_eq_ok.mpr hhistory
    · intro t ht
      rw [hkept, ← SortedList.mem_items, h.history] at ht
      obtain ⟨state, hstate, rfl⟩ := mem_map.mp ht
      exact (hbelow state hstate).ne
  refine ⟨_, hpush, ?_, hsteps, ?_, ?_, ?_, ?_⟩
  · rw [map_append]
    exact h.toContains.push (forall_mem_map.mpr habove) hpush
  · intro pool
    rw [statesOf_concat, levelsOf_concat, completed_concat]
    exact hreps pool
  · rw [hkept, SortedList.insert_items_of_lt h.history (forall_mem_map.mpr hbelow),
      statesOf_concat, map_append]
    rfl
  · rw [tipOf_concat]
    exact hvalues.symm
  · rw [hinfo, ← hvalues, SortedList.insert_items_of_lt (a := (e.block.height, _)) h.info
      (forall_mem_map.mpr habove), map_append]
    rfl

/-- Step lemma: a block is pushed. -/
theorem push (hpush : c.push rules b = .ok c') :
    ∃ e : Entry H, Entry.next rules (tipOf origin es) b = .ok e ∧
      (∃ updated, c.updateExceptTrees rules b = .ok updated) ∧
      c'.Represents rules origin fresh (es ++ [e]) := by
  have hpushed := hpush
  obtain ⟨⟨next, updated⟩, hparallel, hpush⟩ := of_bind hpush
  obtain ⟨hnext, hupdated⟩ := inParallel_eq_ok.mp hparallel
  obtain ⟨trees, htrees, hpush⟩ := of_bind hpush
  obtain ⟨history, hhistory, _⟩ := of_bind hpush
  choose completed hcompleted hsubtree using fun pool =>
    TreeIndex.nextTree_eq_ok none ((h.nextTrees_eq_ok hlive).mp hnext pool)
  -- The trees that were added end in the next trees.
  have htips : ∀ pool, (trees pool).treeForTip = .ok (next pool).1 := by
    intro pool
    obtain ⟨i, hi, hrep⟩ := h.extend hlive hheight (hfree pool) (hcompleted pool)
      ((hsubtree pool).imp Eq.symm And.symm)
    have htree := mapErr_eq_ok.mp (forPools_eq_ok.mp htrees pool)
    rw [hi] at htree
    cases htree
    exact hrep.treeForTip
  obtain ⟨hpools, hkept, _⟩ := updateExceptTrees_frame hupdated
  rw [h.valuePools] at hpools
  rw [h.nextHistory_eq hlive hkept htips, mapErr_eq_ok] at hhistory
  have hentry : Entry.next rules (tipOf origin es) b =
      .ok ⟨b, fun pool => (next pool).1, completed, history, updated.chainValuePools⟩ :=
    Entry.next_eq_ok.mpr ⟨rfl, hcompleted, hhistory, hpools⟩
  obtain ⟨c'', hpushed', hrep⟩ := h.exists_push hlive hheight hfree hentry hupdated
  rw [hpushed] at hpushed'
  cases hpushed'
  exact ⟨_, hentry, ⟨_, hupdated⟩, hrep⟩

end Push

end Chain.Represents

end Wolf.NonFinalized
