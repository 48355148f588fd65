import Wolf.NonFinalized.Trees

/-! # What a tree index holds

The index of a pool is filled by new blocks and emptied from both ends:
`pop_tip` takes the highest block off when a chain is forked, `pop_root`
the lowest one when a block is finalized. Between the two the index is
that of some consecutive *levels*, the trees at the heights of the chain. -/

namespace Wolf.NonFinalized

open Ledger List Finmap

namespace TreeIndex

/-! ## What the index holds -/

section Changes

variable (hash : TreeHash) (pool : Pool)

/-- The levels with a tree that differs from the one below. -/
def changes : Option Word → List (Nat × NoteCommitmentTree) → List (Nat × NoteCommitmentTree)
  | _, [] => []
  | below, level :: levels =>
    if below = some (hash.root pool level.2) then changes below levels
    else level :: changes (some (hash.root pool level.2)) levels

/-- The root of the highest level. -/
def topRoot (below : Option Word) (levels : List (Nat × NoteCommitmentTree)) : Option Word :=
  levels.foldl (fun _ level => some (hash.root pool level.2)) below

variable (below : Option Word) (levels levels' : List (Nat × NoteCommitmentTree))

@[simp] theorem topRoot_concat (level : Nat × NoteCommitmentTree) :
    topRoot hash pool below (levels ++ [level]) = some (hash.root pool level.2) := by
  rw [topRoot, foldl_append]
  rfl

theorem changes_sublist : (changes hash pool below levels).Sublist levels := by
  induction levels generalizing below with
  | nil => exact List.Sublist.refl []
  | cons level levels ih =>
    unfold changes
    split
    · exact (ih _).cons _
    · exact (ih _).cons_cons _

theorem changes_append :
    changes hash pool below (levels ++ levels') =
      changes hash pool below levels ++
        changes hash pool (topRoot hash pool below levels) levels' := by
  induction levels generalizing below with
  | nil => rfl
  | cons level levels ih =>
    rw [cons_append, changes, changes, topRoot, foldl_cons]
    split
    · rename_i hsame
      rw [ih, hsame]
      rfl
    · rw [ih, cons_append]
      rfl

/-- The highest tree that is stored has the root of the highest level. -/
theorem topRoot_changes :
    topRoot hash pool below (changes hash pool below levels) = topRoot hash pool below levels := by
  induction levels generalizing below with
  | nil => rfl
  | cons level levels ih =>
    rw [changes]
    split
    · rename_i hsame
      rw [ih, hsame]
      rfl
    · exact ih _

/-- The highest tree that is stored is the highest one. -/
theorem changes_getLast? {hash : TreeHash} (height : Nat) (tree : NoteCommitmentTree)
    (hfree : hash.CollisionFree pool ((levels ++ [(height, tree)]).map Prod.snd)) :
    (changes hash pool none (levels ++ [(height, tree)])).getLast?.map Prod.snd = some tree := by
  have htop := topRoot_changes hash pool none (levels ++ [(height, tree)])
  rw [topRoot_concat] at htop
  rcases eq_nil_or_concat (changes hash pool none (levels ++ [(height, tree)])) with
    hnil | ⟨init, last, hlast⟩
  · rw [hnil] at htop
    cases htop
  · rw [concat_eq_append] at hlast
    have hmem : last ∈ levels ++ [(height, tree)] := by
      apply (changes_sublist hash pool none _).subset
      rw [hlast]
      exact mem_append_right _ mem_cons_self
    rw [hlast, topRoot_concat] at htop
    rw [hlast, List.getLast?_concat, Option.map_some]
    exact congrArg some (hfree _ (mem_map_of_mem hmem) _ (by simp) (Option.some.inj htop))

end Changes

/-- The anchors of the index are those of the levels, whose trees do not
collide. -/
structure AnchorsOf (hash : TreeHash) (pool : Pool) (i : TreeIndex)
    (levels : List (Nat × NoteCommitmentTree)) : Prop where
  free : hash.CollisionFree pool (levels.map Prod.snd)
  byHeight : i.anchorsByHeight.items = levels.map fun l => (l.1, hash.root pool l.2)
  anchors : i.anchors = ↑(levels.map fun l => hash.root pool l.2)
  byAnchor : ∀ anchor tree, i.treesByAnchor.lookup anchor = some tree ↔
    pool = .sprout ∧ hash.root pool tree = anchor ∧ tree ∈ levels.map Prod.snd

/-- The index holds the trees of the levels, lowest first, and the
subtrees. -/
structure Represents (hash : TreeHash) (pool : Pool) (i : TreeIndex)
    (levels : List (Nat × NoteCommitmentTree)) (subtrees : List (Nat × SubtreeData)) : Prop
    extends AnchorsOf hash pool i levels where
  trees : i.treesByHeight.items = changes hash pool none levels
  subtrees : i.subtrees.items = subtrees

variable {hash : TreeHash} {pool : Pool} {i i' : TreeIndex}
  {levels lower upper : List (Nat × NoteCommitmentTree)} {subtrees : List (Nat × SubtreeData)}
  {height : Nat} {tree tree' : NoteCommitmentTree} {commitments : List Word}
  {completed : Option (Nat × SubtreeData)}

theorem AnchorsOf.heights (h : AnchorsOf hash pool i levels) :
    levels.Pairwise fun l l' => l.1 < l'.1 := by
  have hsorted := i.anchorsByHeight.sorted
  rw [h.byHeight, pairwise_map] at hsorted
  exact hsorted

section

variable {l : Nat × NoteCommitmentTree}
  (h : AnchorsOf hash pool i (lower ++ [(height, tree)] ++ upper))

include h

theorem AnchorsOf.le_of_mem_lower (hl : l ∈ lower ++ [(height, tree)]) : l.1 ≤ height := by
  have hlower := (pairwise_append.mp (pairwise_append.mp h.heights).1).2.2
  rcases mem_append.mp hl with hl | hl
  · exact (hlower l hl (height, tree) mem_cons_self).le
  · rw [mem_singleton.mp hl]

theorem AnchorsOf.lt_of_mem_upper (hl : l ∈ upper) : height < l.1 :=
  (pairwise_append.mp h.heights).2.2 (height, tree) (by simp) l hl

end

namespace Represents

/-- An index is determined by what it holds. -/
theorem unique (h : Represents hash pool i levels subtrees)
    (h' : Represents hash pool i' levels subtrees) : i = i' := by
  apply TreeIndex.ext
  · exact SortedList.ext (h.trees.trans h'.trees.symm)
  · exact SortedList.ext (h.byHeight.trans h'.byHeight.symm)
  · exact h.anchors.trans h'.anchors.symm
  · apply ext_lookup
    intro anchor
    apply Option.ext
    intro tree
    exact (h.byAnchor anchor tree).trans (h'.byAnchor anchor tree).symm
  · exact SortedList.ext (h.subtrees.trans h'.subtrees.symm)

variable {l e : Nat × NoteCommitmentTree}
  (h : Represents hash pool i (levels ++ [(height, tree)]) subtrees)

include h in
theorem heights_lt (hl : l ∈ levels) : l.1 < height :=
  (pairwise_append.mp h.heights).2.2 l hl (height, tree) mem_cons_self

include h in
theorem heights_le (hl : l ∈ levels ++ [(height, tree)]) : l.1 ≤ height := by
  rw [← append_nil (levels ++ _)] at h
  exact h.le_of_mem_lower hl

theorem mem_levels (h : Represents hash pool i levels subtrees) (he : e ∈ i.treesByHeight) :
    e ∈ levels := by
  rw [← SortedList.mem_items, h.trees] at he
  exact (changes_sublist hash pool none levels).subset he

include h in
theorem treeForTip : i.treeForTip = .ok tree := by
  unfold TreeIndex.treeForTip SortedList.last?
  rw [h.trees, changes_getLast? pool levels height tree h.free]
  rfl

/-- The tree of any level. -/
theorem treeAt (h : Represents hash pool i (lower ++ [(height, tree)] ++ upper) subtrees) :
    i.treeAt height = some tree := by
  have hitems : (i.treesByHeight.filter fun e => e.1 ≤ height).items =
      changes hash pool none (lower ++ [(height, tree)]) := by
    change i.treesByHeight.items.filter _ = _
    rw [h.trees, changes_append, filter_append, filter_eq_self.mpr,
      filter_eq_nil_iff.mpr, append_nil]
    · intro e he
      have := h.lt_of_mem_upper ((changes_sublist hash pool _ upper).subset he)
      simpa using this
    · intro e he
      have := h.le_of_mem_lower ((changes_sublist hash pool _ _).subset he)
      simpa using this
  unfold TreeIndex.treeAt SortedList.lastUpTo SortedList.last?
  rw [hitems]
  apply changes_getLast? pool lower height tree
  apply h.free.mono
  intro t ht
  rw [map_append]
  exact mem_append_left _ ht

end Represents

/-- The index of a new chain. -/
theorem addTreeAndAnchor_empty :
    ∃ i, empty.addTreeAndAnchor hash pool height tree = .ok i ∧
      Represents hash pool i [(height, tree)] [] := by
  have hnew : empty.isNewTree hash pool height tree = true := by
    unfold isNewTree
    simp [TreeIndex.treeAt, SortedList.lastUpTo, SortedList.last?, empty, SortedList.filter,
      EmptyCollection.emptyCollection, SortedList.empty]
  refine ⟨{ empty with
    treesByHeight := (∅ : HeightMap NoteCommitmentTree).insert (height, tree)
    anchorsByHeight := (∅ : HeightMap Word).insert (height, hash.root pool tree)
    anchors := hash.root pool tree ::ₘ 0
    treesByAnchor := if pool = .sprout then
      (∅ : Index Word NoteCommitmentTree).insert (hash.root pool tree) tree else ∅ }, ?_, ?_⟩
  · unfold addTreeAndAnchor storeTree
    rw [if_pos hnew]
    rfl
  · refine ⟨⟨?_, rfl, rfl, ?_⟩, ?_, rfl⟩
    · intro t ht t' ht' _
      rw [mem_singleton.mp ht, mem_singleton.mp ht']
    · intro anchor tree'
      split
      · rename_i hpool
        by_cases hkey : anchor = hash.root pool tree
        · subst hkey
          rw [lookup_insert]
          simp [hpool, eq_comm]
          rintro rfl
          rfl
        · rw [lookup_insert_of_ne _ hkey]
          simp
          rintro - hroot rfl
          exact hkey hroot.symm
      · rename_i hpool
        simp [hpool]
    · rfl

/-! ## A new block -/

/-- What a new tree does. -/
theorem addTreeAndAnchor_eq_ok (h : i.addTreeAndAnchor hash pool height tree = .ok i') :
    (∀ e ∈ i.anchorsByHeight, e.1 ≠ height) ∧
    i' = { i with
      treesByHeight := if i.isNewTree hash pool height tree then
        i.treesByHeight.insert (height, tree) else i.treesByHeight
      anchorsByHeight := i.anchorsByHeight.insert (height, hash.root pool tree)
      anchors := hash.root pool tree ::ₘ i.anchors
      treesByAnchor := if pool = .sprout then i.treesByAnchor.insert (hash.root pool tree) tree
        else i.treesByAnchor } := by
  obtain ⟨trees, htrees, h⟩ := of_bind h
  obtain ⟨anchors, hanchors, h⟩ := of_bind h
  obtain ⟨habsent, rfl⟩ := HeightMap.insertNew_eq_ok.mp hanchors
  cases h
  refine ⟨habsent, ?_⟩
  unfold storeTree at htrees
  split at htrees
  · rename_i hnew
    obtain ⟨_, rfl⟩ := HeightMap.insertNew_eq_ok.mp htrees
    rw [if_pos hnew]
  · rename_i hsame
    cases htrees
    rw [if_neg hsame]

/-- The next tree does not depend on the subtree of the tip. Without new
commitments that subtree is inserted once more. -/
theorem nextTree_eq_ok {tipSubtree subtree : Option (Nat × SubtreeData)}
    (tipSubtree' : Option (Nat × SubtreeData))
    (h : nextTree hash pool tipSubtree tree commitments height = .ok (tree', subtree)) :
    ∃ subtree', nextTree hash pool tipSubtree' tree commitments height = .ok (tree', subtree') ∧
      (subtree' = subtree ∨ subtree = tipSubtree ∧ subtree' = tipSubtree') := by
  unfold nextTree at h ⊢
  split at h
  · rename_i hnil
    cases h
    rw [if_pos hnil]
    exact ⟨tipSubtree', rfl, .inr ⟨rfl, rfl⟩⟩
  · rename_i hne
    rw [if_neg hne]
    exact ⟨subtree, h, .inl rfl⟩

/-- The next tree, and the subtree that it completes. -/
theorem nextTree_none_eq_ok
    (h : nextTree hash pool none tree commitments height = .ok (tree', completed)) :
    tree' = tree.grow commitments ∧
      ∀ e, completed = some e → e.2.endHeight = height ∧
        tree.leaves.length < (e.1 + 1) * subtreeSize ∧
        (e.1 + 1) * subtreeSize ≤ tree'.leaves.length := by
  unfold nextTree at h
  split at h
  · rename_i hnil
    cases h
    exact ⟨by simp [NoteCommitmentTree.grow, hnil], fun _ hnone => by cases hnone⟩
  · obtain ⟨⟨tree₁, done⟩, hupdate, h⟩ := of_bind h
    cases h
    obtain ⟨hgrow, hdone⟩ := NoteCommitmentTree.update_eq_ok hupdate
    refine ⟨hgrow, ?_⟩
    intro e he
    obtain ⟨⟨index, node⟩, hsome, rfl⟩ := Option.map_eq_some_iff.mp he
    exact ⟨rfl, hdone index node hsome⟩

/-- The anchors with a new level. -/
theorem AnchorsOf.add (h : AnchorsOf hash pool i levels)
    (hfree : hash.CollisionFree pool ((levels ++ [(height, tree)]).map Prod.snd))
    (hadd : i.addTreeAndAnchor hash pool height tree = .ok i')
    (hheight : ∀ l ∈ levels, l.1 < height) :
    AnchorsOf hash pool i' (levels ++ [(height, tree)]) := by
  obtain ⟨_, rfl⟩ := addTreeAndAnchor_eq_ok hadd
  refine ⟨hfree, ?_, ?_, ?_⟩
  · rw [SortedList.insert_items_of_lt h.byHeight (forall_mem_map.mpr hheight), map_append]
    rfl
  · rw [h.anchors, map_append, Multiset.cons_coe, Multiset.coe_eq_coe]
    exact (perm_append_singleton _ _).symm
  · intro anchor t
    rw [map_append, mem_append]
    by_cases hpool : pool = .sprout
    · rw [if_pos hpool]
      by_cases hkey : anchor = hash.root pool tree
      · subst hkey
        rw [lookup_insert]
        constructor
        · intro heq
          obtain rfl := Option.some.inj heq
          exact ⟨hpool, rfl, .inr (by simp)⟩
        · rintro ⟨_, hroot, hmem⟩
          rw [← mem_append, ← map_append] at hmem
          rw [hfree t hmem tree (by simp) hroot]
      · rw [lookup_insert_of_ne _ hkey, h.byAnchor]
        constructor
        · rintro ⟨_, hroot, hmem⟩
          exact ⟨hpool, hroot, .inl hmem⟩
        · rintro ⟨_, hroot, hmem | hmem⟩
          · exact ⟨hpool, hroot, hmem⟩
          · rw [mem_map] at hmem
            obtain ⟨l, hl, rfl⟩ := hmem
            rw [mem_singleton.mp hl] at hroot
            exact absurd hroot.symm hkey
    · rw [if_neg hpool, h.byAnchor]
      simp [hpool]

namespace Represents

variable {subtree : Option (Nat × SubtreeData)}
  (h : Represents hash pool i (levels ++ [(height, tree)]) subtrees)

include h

/-- The test for a new tree looks at the tip. -/
theorem isNewTree_eq :
    i.isNewTree hash pool (height + 1) tree' =
      decide (some (hash.root pool tree) ≠ some (hash.root pool tree')) := by
  have htree : i.treeAt height = some tree := by
    rw [← append_nil (levels ++ [(height, tree)])] at h
    exact h.treeAt
  simp [isNewTree, htree]

/-- There is room for a level above the tip. -/
theorem exists_extend (next : NoteCommitmentTree × Option (Nat × SubtreeData)) :
    ∃ i', i.extend hash pool (height + 1) next = .ok i' := by
  have htrees : ∃ trees, i.storeTree hash pool (height + 1) next.1 = .ok trees := by
    unfold storeTree
    split
    · refine ⟨_, HeightMap.insertNew_eq_ok.mpr ⟨fun e he => ?_, rfl⟩⟩
      exact (Nat.lt_succ_of_le (h.heights_le (h.mem_levels he))).ne
    · exact ⟨_, rfl⟩
  obtain ⟨trees, htrees⟩ := htrees
  have hanchors : ∀ e ∈ i.anchorsByHeight, e.1 ≠ height + 1 := by
    intro e he
    rw [← SortedList.mem_items, h.byHeight] at he
    obtain ⟨l, hl, rfl⟩ := mem_map.mp he
    exact (Nat.lt_succ_of_le (h.heights_le hl)).ne
  exact ⟨_, bind_eq_ok.mpr ⟨_, bind_eq_ok.mpr ⟨_, htrees, bind_eq_ok.mpr
    ⟨_, HeightMap.insertNew_eq_ok.mpr ⟨hanchors, rfl⟩, rfl⟩⟩, rfl⟩⟩

/-- A level is added above the tip. -/
theorem extend (hfree : hash.CollisionFree pool
      ((levels ++ [(height, tree)] ++ [(height + 1, tree')]).map Prod.snd))
    (hextend : i.extend hash pool (height + 1) (tree', subtree) = .ok i')
    (hsubtree : (subtree = completed ∧ ∀ e ∈ completed, ∀ e' ∈ subtrees, e'.1 < e.1) ∨
      (completed = none ∧ ∀ e ∈ subtree, e ∈ subtrees)) :
    Represents hash pool i' (levels ++ [(height, tree)] ++ [(height + 1, tree')])
      (subtrees ++ completed.toList) := by
  obtain ⟨added, hadd, hextend⟩ := of_bind hextend
  cases hextend
  have hanchors := h.toAnchorsOf.add hfree hadd fun l hl => Nat.lt_succ_of_le (h.heights_le hl)
  obtain ⟨_, hadded⟩ := addTreeAndAnchor_eq_ok hadd
  have htrees : added.treesByHeight.items =
      changes hash pool none (levels ++ [(height, tree)] ++ [(height + 1, tree')]) := by
    rw [hadded, h.isNewTree_eq, changes_append, topRoot_concat, ← h.trees]
    simp only [decide_eq_true_eq]
    split
    · rename_i hne
      have hbelow : ∀ e ∈ i.treesByHeight, e.1 < height + 1 := fun e he =>
        Nat.lt_succ_of_le (h.heights_le (h.mem_levels he))
      rw [SortedList.insert_items_of_lt rfl hbelow, changes, if_neg hne]
      rfl
    · rename_i hsame
      rw [changes, if_pos (not_not.mp hsame)]
      exact (append_nil _).symm
  have hsubtrees : (added.addSubtree subtree).subtrees.items = subtrees ++ completed.toList := by
    have hold := h.subtrees
    have hj : added.subtrees = i.subtrees := by rw [hadded]
    rcases hsubtree with ⟨rfl, habove⟩ | ⟨rfl, hthere⟩
    · cases subtree with
      | none => rw [addSubtree, hj, hold, Option.toList_none, append_nil]
      | some e =>
        change (added.subtrees.insert e).items = _
        rw [hj, SortedList.insert_items_of_lt hold (habove e rfl), Option.toList_some]
    · rw [Option.toList_none, append_nil]
      cases subtree with
      | none => rw [addSubtree, hj, hold]
      | some e =>
        change (added.subtrees.insert e).items = _
        have hmem : e ∈ i.subtrees := by
          rw [← SortedList.mem_items, hold]
          exact hthere e rfl
        rw [hj, SortedList.insert_of_mem hmem, hold]
  cases subtree with
  | none => exact ⟨hanchors, htrees, hsubtrees⟩
  | some e =>
    exact ⟨⟨hanchors.free, hanchors.byHeight, hanchors.anchors, hanchors.byAnchor⟩, htrees,
      hsubtrees⟩

end Represents

/-! ## Removed blocks -/

/-- One height is removed. -/
theorem AnchorsOf.removeAt (h : AnchorsOf hash pool i (lower ++ (height, tree) :: upper)) :
    ∃ i', i.removeAt pool height = .ok i' ∧ AnchorsOf hash pool i' (lower ++ upper) ∧
      i'.treesByHeight = i.treesByHeight.erase height ∧ i'.subtrees = i.subtrees := by
  have hitems := h.byHeight
  rw [map_append, map_cons] at hitems
  have hfind : i.anchorsByHeight.find? height = some (height, hash.root pool tree) := by
    rw [SortedList.find?_eq_some, ← SortedList.mem_items, hitems]
    exact ⟨by simp, rfl⟩
  have hanchors : i.anchors = hash.root pool tree ::ₘ
      (↑((lower ++ upper).map fun l => hash.root pool l.2) : Multiset Word) := by
    rw [h.anchors, Multiset.cons_coe, Multiset.coe_eq_coe, map_append, map_append]
    exact perm_middle
  refine ⟨{ i with
    treesByHeight := i.treesByHeight.erase height
    anchorsByHeight := i.anchorsByHeight.erase height
    anchors := ↑((lower ++ upper).map fun l => hash.root pool l.2)
    treesByAnchor := if pool = .sprout ∧ hash.root pool tree ∉
        (↑((lower ++ upper).map fun l => hash.root pool l.2) : Multiset Word) then
      i.treesByAnchor.erase (hash.root pool tree) else i.treesByAnchor }, ?_, ?_, rfl, rfl⟩
  · unfold TreeIndex.removeAt
    rw [hfind, okOr_bind, hanchors, removeOne_cons]
    rfl
  · refine ⟨?_, ?_, rfl, ?_⟩
    · apply h.free.mono
      intro t ht
      simp only [map_append, map_cons, mem_append, mem_cons] at ht ⊢
      tauto
    · have herase := @SortedList.erase_items_of_append _ _ _ Prod.fst i.anchorsByHeight
        (height, hash.root pool tree) _ _ hitems
      rw [herase, map_append]
    · intro anchor t
      have hlookup := h.byAnchor anchor t
      rw [map_append, map_cons, perm_middle.mem_iff, mem_cons, ← map_append] at hlookup
      split
      · rename_i hgone
        obtain ⟨hpool, hgone⟩ := hgone
        have hnot : ∀ t' ∈ (lower ++ upper).map Prod.snd,
            hash.root pool t' ≠ hash.root pool tree := by
          intro t' ht' hroot
          obtain ⟨l, hl, rfl⟩ := mem_map.mp ht'
          exact hgone (Multiset.mem_coe.mpr (mem_map.mpr ⟨l, hl, hroot⟩))
        by_cases hkey : anchor = hash.root pool tree
        · subst hkey
          rw [lookup_erase]
          simp only [reduceCtorEq, false_iff, not_and]
          exact fun _ hroot hmem => hnot t hmem hroot
        · rw [lookup_erase_ne hkey, hlookup]
          constructor
          · rintro ⟨_, hroot, rfl | hmem⟩
            · exact absurd hroot.symm hkey
            · exact ⟨hpool, hroot, hmem⟩
          · exact fun ⟨_, hroot, hmem⟩ => ⟨hpool, hroot, .inr hmem⟩
      · rename_i hthere
        rw [hlookup]
        constructor
        · rintro ⟨hpool, hroot, rfl | hmem⟩
          · -- A tree of another level with the same root is the same tree.
            rw [not_and, not_not, Multiset.mem_coe, mem_map] at hthere
            obtain ⟨l, hl, heq⟩ := hthere hpool
            have hsame := h.free l.2 (mem_map_of_mem (by
              simp only [mem_append, mem_cons] at hl ⊢
              tauto)) t (by simp) heq
            exact ⟨hpool, hroot, hsame ▸ mem_map_of_mem hl⟩
          · exact ⟨hpool, hroot, hmem⟩
        · exact fun ⟨hpool, hroot, hmem⟩ => ⟨hpool, hroot, .inr hmem⟩

/-- All lower heights are removed. -/
theorem AnchorsOf.removeAll (h : AnchorsOf hash pool i (lower ++ upper)) :
    ∃ i', (lower.map Prod.fst).foldlM (TreeIndex.removeAt pool) i = .ok i' ∧
      AnchorsOf hash pool i' upper ∧ i'.subtrees = i.subtrees ∧
      ∀ e, e ∈ i'.treesByHeight ↔ e ∈ i.treesByHeight ∧ e.1 ∉ lower.map Prod.fst := by
  induction lower generalizing i with
  | nil => exact ⟨i, rfl, h, rfl, fun e => by simp⟩
  | cons level lower ih =>
    have hfirst : AnchorsOf hash pool i ([] ++ (level.1, level.2) :: (lower ++ upper)) := h
    obtain ⟨mid, hmid, hanchors, htrees, hsubtrees⟩ := hfirst.removeAt
    obtain ⟨i', hrest, hanchors', hsubtrees', htrees'⟩ := ih hanchors
    refine ⟨i', ?_, hanchors', hsubtrees'.trans hsubtrees, ?_⟩
    · rw [map_cons, foldlM_cons, hmid, ok_bind, hrest]
    · intro e
      rw [htrees', htrees, SortedList.mem_erase, map_cons, mem_cons]
      tauto

namespace Represents

variable {tipHeight : Option Nat}

section

variable (hold : ∀ e ∈ subtrees, e.2.endHeight < height)
  (hnew : ∀ e ∈ completed, e.2.endHeight = height)

include hold hnew

/-- The subtree of the tip block is the last one. -/
theorem popTipSubtree (h : Represents hash pool i levels (subtrees ++ completed.toList)) :
    Represents hash pool (i.popTipSubtree height) levels subtrees := by
  have hitems := h.subtrees
  unfold TreeIndex.popTipSubtree SortedList.last?
  cases completed with
  | none =>
    rw [Option.toList_none, append_nil] at hitems
    rw [if_neg]
    · exact ⟨h.toAnchorsOf, h.trees, hitems⟩
    · rw [hitems]
      intro hany
      obtain ⟨e, he, hend⟩ := (Option.any_eq_true _ _).mp hany
      have := hold e (mem_of_getLast? he)
      simp only [decide_eq_true_eq] at hend
      omega
  | some e =>
    rw [Option.toList_some] at hitems
    rw [if_pos]
    · refine ⟨⟨h.free, h.byHeight, h.anchors, h.byAnchor⟩, h.trees, ?_⟩
      change i.subtrees.items.dropLast = subtrees
      rw [hitems, dropLast_concat]
    · rw [hitems, List.getLast?_concat]
      simpa using hnew e rfl

/-- The tip is taken off. -/
theorem retractTip
    (h : Represents hash pool i (lower ++ [(height, tree)]) (subtrees ++ completed.toList))
    (htip : ∀ tip ∈ tipHeight, tip < height) :
    ∃ i', (i.popTipSubtree height).removeTreeAndAnchor pool .tip height tipHeight = .ok i' ∧
      Represents hash pool i' lower subtrees := by
  have hpop := h.popTipSubtree hold hnew
  have hlast : AnchorsOf hash pool (i.popTipSubtree height) (lower ++ (height, tree) :: []) :=
    hpop.toAnchorsOf
  obtain ⟨i', hremove, hanchors, htrees, hsubtrees⟩ := hlast.removeAt
  rw [append_nil] at hanchors
  have hnone : i'.restoreNext height none tipHeight = .ok i' := by
    apply if_neg
    intro hany
    obtain ⟨tip, htipHeight, hlt⟩ := (Option.any_eq_true _ _).mp hany
    have := htip tip htipHeight
    simp only [decide_eq_true_eq] at hlt
    omega
  refine ⟨i', ?_, hanchors, ?_, hsubtrees ▸ hpop.subtrees⟩
  · unfold removeTreeAndAnchor
    dsimp only
    rw [foldlM_cons, hremove, ok_bind, foldlM_nil]
    exact hnone
  · apply SortedList.items_eq
    · exact hanchors.heights.sublist (changes_sublist hash pool none lower)
    · intro e
      rw [htrees, SortedList.mem_erase, ← SortedList.mem_items, hpop.trees, changes_append,
        mem_append]
      constructor
      · rintro ⟨hmem | hmem, hne⟩
        · exact hmem
        · have := (changes_sublist hash pool _ _).subset hmem
          rw [mem_singleton.mp this] at hne
          exact absurd rfl hne
      · intro hmem
        exact ⟨.inl hmem, (h.heights_lt ((changes_sublist hash pool _ _).subset hmem)).ne⟩

end

/-- The subtree of the root block is the first one. -/
theorem popRootSubtree (h : Represents hash pool i levels (completed.toList ++ subtrees))
    (hold : ∀ e ∈ completed, e.2.endHeight = height)
    (hnew : ∀ e ∈ subtrees, height < e.2.endHeight) :
    i.subtreeAt height = completed ∧
      Represents hash pool (i.popRootSubtree height) levels subtrees := by
  have hitems := h.subtrees
  have hsubtree : i.subtreeAt height = completed := by
    unfold subtreeAt
    rw [hitems, List.find?_append]
    have hrest : subtrees.find? (fun e => e.2.endHeight = height) = none := by
      apply List.find?_eq_none.mpr
      intro e he
      have := hnew e he
      simp only [decide_eq_true_eq]
      omega
    rw [hrest, Option.or_none]
    cases completed with
    | none => rfl
    | some e => simp [hold e rfl]
  refine ⟨hsubtree, ?_⟩
  unfold TreeIndex.popRootSubtree
  rw [hsubtree]
  cases completed with
  | none => exact ⟨h.toAnchorsOf, h.trees, hitems⟩
  | some e =>
    refine ⟨⟨h.free, h.byHeight, h.anchors, h.byAnchor⟩, h.trees, ?_⟩
    change i.subtrees.items.tail = subtrees
    rw [hitems]
    rfl

section

variable (hheights : ∀ l ∈ upper.head?, l.1 = height + 1)
  (htip : tipHeight.any (height < ·) = true ↔ upper ≠ [])

include hheights htip

/-- The highest level that stays after the root is taken off gets a tree of
its own. -/
theorem restoreNext (hanchors : AnchorsOf hash pool i upper)
    (hsubtrees : i.subtrees.items = subtrees)
    (hfree : hash.CollisionFree pool (tree :: upper.map Prod.snd))
    (htrees : i.treesByHeight.items = changes hash pool (some (hash.root pool tree)) upper) :
    ∃ i', i.restoreNext height (some tree) tipHeight = .ok i' ∧
      Represents hash pool i' upper subtrees := by
  unfold TreeIndex.restoreNext
  cases upper with
  | nil =>
    rw [if_neg (by simpa using htip)]
    exact ⟨i, rfl, hanchors, htrees, hsubtrees⟩
  | cons level upper =>
    obtain ⟨next, tree₁⟩ := level
    obtain rfl : next = height + 1 := hheights _ rfl
    rw [if_pos (htip.mpr (cons_ne_nil _ _))]
    have habove := (pairwise_cons.mp hanchors.heights).1
    have hupper : ∀ below, ∀ e ∈ changes hash pool below upper, height + 1 < e.1 :=
      fun below e he => habove e ((changes_sublist hash pool below upper).subset he)
    rw [changes] at htrees
    split at htrees
    · rename_i hsame
      -- The tree of the next level is the one that was removed.
      have htree := hfree tree (by simp) tree₁ (by simp) (Option.some.inj hsame)
      have habsent : i.treesByHeight.find? (height + 1) = none := by
        rw [SortedList.find?_eq_none]
        intro e he
        rw [← SortedList.mem_items, htrees] at he
        exact (hupper _ e he).ne'
      rw [habsent]
      refine ⟨{ i with treesByHeight := i.treesByHeight.insert (height + 1, tree) }, rfl,
        ⟨hanchors.free, hanchors.byHeight, hanchors.anchors, hanchors.byAnchor⟩, ?_, hsubtrees⟩
      have hitems := @SortedList.insert_items_of_gt _ _ _ Prod.fst i.treesByHeight
        (height + 1, tree) (fun e he => hupper _ e (by rwa [← htrees]))
      rw [hitems, htrees, changes, if_neg (by simp), htree]
    · have hthere : (i.treesByHeight.find? (height + 1)).isSome = true := by
        rw [Option.isSome_iff_exists]
        refine ⟨(height + 1, tree₁), SortedList.find?_eq_some.mpr ⟨?_, rfl⟩⟩
        rw [← SortedList.mem_items, htrees]
        exact mem_cons_self
      rw [if_pos hthere]
      refine ⟨i, rfl, hanchors, ?_, hsubtrees⟩
      rw [htrees, changes, if_neg (by simp)]

/-- The root is taken off, with what is below it. -/
theorem retractRoot
    (h : Represents hash pool i (lower ++ [(height, tree)] ++ upper)
      (completed.toList ++ subtrees)) (hold : ∀ e ∈ completed, e.2.endHeight = height)
    (hnew : ∀ e ∈ subtrees, height < e.2.endHeight) :
    ∃ i', (i.popRootSubtree height).removeTreeAndAnchor pool .root height tipHeight = .ok i' ∧
      Represents hash pool i' upper subtrees := by
  have hpop := (h.popRootSubtree hold hnew).2
  have htree := hpop.treeAt
  have hremoved : ((i.popRootSubtree height).anchorsByHeight.items.map Prod.fst).filter
      (· ≤ height) = (lower ++ [(height, tree)]).map Prod.fst := by
    rw [hpop.byHeight, map_map, map_append, filter_append,
      filter_eq_self.mpr, filter_eq_nil_iff.mpr, append_nil]
    · rfl
    · intro k hk
      obtain ⟨l, hl, rfl⟩ := mem_map.mp hk
      simpa using hpop.lt_of_mem_upper hl
    · intro k hk
      obtain ⟨l, hl, rfl⟩ := mem_map.mp hk
      simpa using hpop.le_of_mem_lower hl
  obtain ⟨mid, hfold, hanchors, hsubtrees, htrees⟩ := hpop.toAnchorsOf.removeAll
  have hitems : mid.treesByHeight.items =
      changes hash pool (some (hash.root pool tree)) upper := by
    apply SortedList.items_eq
    · exact hanchors.heights.sublist (changes_sublist hash pool _ upper)
    · intro e
      rw [htrees, ← SortedList.mem_items, hpop.trees, changes_append, topRoot_concat,
        mem_append]
      constructor
      · rintro ⟨hmem | hmem, hnot⟩
        · exact absurd (mem_map_of_mem ((changes_sublist hash pool _ _).subset hmem)) hnot
        · exact hmem
      · intro hmem
        refine ⟨.inr hmem, ?_⟩
        intro hin
        obtain ⟨l, hl, heq⟩ := mem_map.mp hin
        have hle := hpop.le_of_mem_lower hl
        have hlt := hpop.lt_of_mem_upper ((changes_sublist hash pool _ _).subset hmem)
        omega
  have hkept : mid.subtrees.items = subtrees := by
    rw [hsubtrees]
    exact hpop.subtrees
  have hfree : hash.CollisionFree pool (tree :: upper.map Prod.snd) := by
    apply hpop.free.mono
    intro t ht
    simp only [map_append, mem_append, mem_cons] at ht ⊢
    rcases ht with rfl | ht
    · exact .inl (.inr (by simp))
    · exact .inr ht
  obtain ⟨i', hrestore, hrep⟩ := restoreNext hheights htip hanchors hkept hfree hitems
  refine ⟨i', ?_, hrep⟩
  unfold removeTreeAndAnchor
  dsimp only
  rw [hremoved, htree, hfold, ok_bind]
  exact hrestore

end

end Represents

end TreeIndex

end Wolf.NonFinalized
