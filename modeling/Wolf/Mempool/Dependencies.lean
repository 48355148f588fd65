import Mathlib.Logic.Relation
import Wolf.Framework.SetIndex
import Wolf.Ledger.Transaction

/-! # Dependencies between mempool transactions

A mempool transaction depends on the mempool transactions whose outputs
it spends. `TransactionDependencies` keeps the relation in both
directions.

`remove_all` removes a transaction with everything that depends on it,
directly or indirectly: level by level, while it takes the edges of
the transactions it visits out of both maps.

* `removeAll_spec`: what is removed is what can be reached from the
  transaction, and all edges between other transactions stay. -/

namespace Wolf.Mempool

open Ledger List

/-! ## The two maps -/

structure TransactionDependencies where
  dependencies : SetIndex Hash Hash := ∅
  dependents : SetIndex Hash Hash := ∅

namespace TransactionDependencies

variable (it : Iteration Hash) (d : TransactionDependencies) {d' : TransactionDependencies}

def directDependents (txHash : Hash) : Finset Hash := d.dependents.get txHash

def directDependencies (txHash : Hash) : Finset Hash := d.dependencies.get txHash

def add (dependent : Hash) (spentMempoolOutpoints : List OutPoint) : TransactionDependencies where
  dependents := spentMempoolOutpoints.foldl
    (fun dependents outpoint => dependents.insertInto outpoint.hash dependent) d.dependents
  dependencies :=
    if spentMempoolOutpoints = [] then d.dependencies
    else Finmap.insert dependent (spentMempoolOutpoints.map fun outpoint => outpoint.hash).toFinset
      d.dependencies

/-- The round of `clear_mined_dependencies` for one transaction. -/
def clearMined (minedTxId : Hash) : TransactionDependencies where
  dependents := d.dependents.erase minedTxId
  dependencies := (it.list (d.dependents.get minedTxId)).foldl
    (fun dependencies dependent => dependencies.removeFrom dependent minedTxId) d.dependencies

def clearMinedDependencies (minedIds : Finset Hash) : TransactionDependencies :=
  (it.list minedIds).foldl (clearMined it) d

/-- The part of a level of `remove_all` for one transaction: its edges are
removed, and its dependents are returned. -/
def detach (dependent : Hash) : TransactionDependencies × Finset Hash :=
  let dependents := (it.list (d.dependencies.get dependent)).foldl
    (fun dependents dependency => dependents.removeFrom dependency dependent) d.dependents
  (⟨d.dependencies.erase dependent, dependents.erase dependent⟩, dependents.get dependent)

/-- A level of `remove_all`. -/
def detachLevel (level : List Hash) : TransactionDependencies × Finset Hash :=
  level.foldl (fun (acc : TransactionDependencies × Finset Hash) dependent =>
    let detached := acc.1.detach it dependent
    (detached.1, acc.2 ∪ detached.2)) (d, ∅)

/-- The loop of `remove_all`, for at most `fuel` levels. -/
def removeLevels (it : Iteration Hash) :
    Nat → TransactionDependencies → Finset Hash → Finset Hash →
      TransactionDependencies × Finset Hash
  | 0, d, _, allDependents => (d, allDependents)
  | fuel + 1, d, level, allDependents =>
    if level = ∅ then (d, allDependents)
    else
      let next := d.detachLevel it (it.list level)
      removeLevels it fuel next.1 next.2 (allDependents ∪ next.2)

/-- `remove_all`. A level that has a next one removes an entry of
`dependents`. -/
def removeAll (txHash : Hash) : TransactionDependencies × Finset Hash :=
  removeLevels it (d.dependents.keys.card + 1) d {txHash} ∅

def clear : TransactionDependencies := {}

/-! ## Well-formed dependencies -/

/-- `b` depends on `a`. -/
def Edge (a b : Hash) : Prop := b ∈ d.directDependents a

/-- The two maps say the same, and have no empty entries. -/
structure WellFormed (d : TransactionDependencies) : Prop where
  inverse : ∀ a b, b ∈ d.directDependents a ↔ a ∈ d.directDependencies b
  dependents_ne : d.dependents.NoEmpty
  dependencies_ne : d.dependencies.NoEmpty

/-- No transaction depends on itself, directly or indirectly. -/
def Acyclic (d : TransactionDependencies) : Prop := ∀ a, ¬ Relation.TransGen d.Edge a a

section Updates

variable {d} {a b dependent : Hash}

theorem WellFormed.empty : WellFormed {} where
  inverse := by simp [directDependents, directDependencies, SetIndex.get]
  dependents_ne := .empty
  dependencies_ne := .empty

theorem acyclic_empty : Acyclic {} := by
  intro a h
  obtain ⟨b, hab, _⟩ := Relation.TransGen.head'_iff.mp h
  simp [Edge, directDependents, SetIndex.get] at hab

theorem directDependents_add (outpoints : List OutPoint) :
    (d.add dependent outpoints).directDependents a =
      if a ∈ outpoints.map (fun outpoint => outpoint.hash) then
        insert dependent (d.directDependents a)
      else d.directDependents a := by
  unfold directDependents add
  dsimp only
  generalize d.dependents = m
  induction outpoints generalizing m with
  | nil => simp
  | cons outpoint rest ih =>
    rw [foldl_cons, ih, SetIndex.get_insertInto]
    by_cases hhead : a = outpoint.hash
    · simp [hhead]
    · simp [hhead]

theorem directDependencies_add (outpoints : List OutPoint)
    (hnew : d.directDependencies dependent = ∅) :
    (d.add dependent outpoints).directDependencies b =
      if b = dependent then (outpoints.map fun outpoint => outpoint.hash).toFinset
      else d.directDependencies b := by
  unfold add
  by_cases hnil : outpoints = []
  · by_cases hb : b = dependent
    · simp [hnil, hb, hnew]
    · simp [hnil, hb]
  · simp only [hnil, if_false]
    exact SetIndex.get_insert _

/-- A transaction that is not yet known can be added. -/
theorem WellFormed.add (h : d.WellFormed) (outpoints : List OutPoint)
    (hnew : d.directDependencies dependent = ∅) : (d.add dependent outpoints).WellFormed where
  inverse := by
    intro a b
    rw [directDependents_add, directDependencies_add outpoints hnew]
    by_cases hb : b = dependent
    · have hold : dependent ∉ d.directDependents a := by
        rw [h.inverse, hnew]
        exact Finset.notMem_empty a
      subst hb
      by_cases ha : a ∈ outpoints.map fun outpoint => outpoint.hash
      · simp only [ha, if_true, Finset.mem_insert_self, mem_toFinset]
      · simp only [ha, if_false, hold, if_true, mem_toFinset]
    · rw [if_neg hb, ← h.inverse]
      by_cases ha : a ∈ outpoints.map fun outpoint => outpoint.hash
      · rw [if_pos ha, Finset.mem_insert, or_iff_right hb]
      · rw [if_neg ha]
  dependents_ne := by
    show (outpoints.foldl _ d.dependents).NoEmpty
    have hfold : ∀ m : SetIndex Hash Hash, m.NoEmpty →
        (outpoints.foldl (fun m outpoint => m.insertInto outpoint.hash dependent) m).NoEmpty := by
      induction outpoints with
      | nil => exact fun m hm => hm
      | cons outpoint rest ih => exact fun m hm => ih _ hm.insertInto
    exact hfold _ h.dependents_ne
  dependencies_ne := by
    unfold TransactionDependencies.add
    by_cases hnil : outpoints = []
    · simp only [hnil, if_true]
      exact h.dependencies_ne
    · simp only [hnil, if_false]
      apply h.dependencies_ne.insert
      intro hempty
      rw [toFinset_eq_empty_iff, map_eq_nil_iff] at hempty
      exact hnil hempty

/-- A transaction without dependents closes no cycle. -/
theorem Acyclic.add (h : d.Acyclic) (outpoints : List OutPoint)
    (hself : dependent ∉ outpoints.map fun outpoint => outpoint.hash)
    (hnone : d.directDependents dependent = ∅) : (d.add dependent outpoints).Acyclic := by
  -- No edge leaves the new transaction, so a cycle consists of old edges.
  have hedge : ∀ a b, (d.add dependent outpoints).Edge a b →
      a ≠ dependent ∧ (d.Edge a b ∨ b = dependent) := by
    intro a b hab
    unfold Edge at hab ⊢
    rw [directDependents_add] at hab
    by_cases ha : a ∈ outpoints.map fun outpoint => outpoint.hash
    · rw [if_pos ha, Finset.mem_insert] at hab
      exact ⟨fun heq => hself (heq ▸ ha), hab.symm⟩
    · rw [if_neg ha] at hab
      refine ⟨?_, .inl hab⟩
      intro heq
      rw [heq, hnone] at hab
      exact Finset.notMem_empty b hab
  have hpath : ∀ a b, Relation.TransGen (d.add dependent outpoints).Edge a b → b ≠ dependent →
      Relation.TransGen d.Edge a b := by
    intro a b hab
    induction hab with
    | single hab =>
      intro hb
      exact .single ((hedge _ _ hab).2.resolve_right hb)
    | tail _ hbc ih =>
      intro hc
      exact .tail (ih (hedge _ _ hbc).1) ((hedge _ _ hbc).2.resolve_right hc)
  intro a hcycle
  obtain ⟨b, hab, _⟩ := Relation.TransGen.head'_iff.mp hcycle
  exact h a (hpath a a hcycle (hedge a b hab).1)

theorem Acyclic.mono (h : d.Acyclic) (hedge : ∀ a b, d'.Edge a b → d.Edge a b) : d'.Acyclic :=
  fun a hcycle => h a (Relation.TransGen.mono hedge a a hcycle)

/-- One element is removed from the sets of some keys. -/
theorem get_foldl_removeFrom (keys : List Hash) (m : SetIndex Hash Hash) :
    (keys.foldl (fun m key => m.removeFrom key dependent) m).get a =
      if a ∈ keys then (m.get a).erase dependent else m.get a := by
  induction keys generalizing m with
  | nil => simp
  | cons key rest ih =>
    rw [foldl_cons, ih, SetIndex.get_removeFrom]
    by_cases hhead : a = key
    · simp [hhead]
    · simp [hhead]

theorem noEmpty_foldl_removeFrom (keys : List Hash) {m : SetIndex Hash Hash} (h : m.NoEmpty) :
    (keys.foldl (fun m key => m.removeFrom key dependent) m).NoEmpty := by
  induction keys generalizing m with
  | nil => exact h
  | cons key rest ih => exact ih h.removeFrom

theorem directDependents_clearMined (mined : Hash) :
    (d.clearMined it mined).directDependents a =
      if a = mined then ∅ else d.directDependents a :=
  SetIndex.get_erase

theorem directDependencies_clearMined (h : d.WellFormed) (mined : Hash) :
    (d.clearMined it mined).directDependencies b = (d.directDependencies b).erase mined := by
  show ((it.list (d.dependents.get mined)).foldl _ d.dependencies).get b = _
  rw [get_foldl_removeFrom]
  by_cases hb : b ∈ d.dependents.get mined
  · rw [if_pos ((it.mem_list _ b).mpr hb)]
    rfl
  · rw [if_neg (mt (it.mem_list _ b).mp hb)]
    have hnot : mined ∉ d.directDependencies b := fun hmem => hb ((h.inverse mined b).mpr hmem)
    exact (Finset.erase_eq_of_notMem hnot).symm

theorem WellFormed.clearMined (h : d.WellFormed) (mined : Hash) :
    (d.clearMined it mined).WellFormed where
  inverse := by
    intro a b
    rw [directDependents_clearMined, directDependencies_clearMined it h, Finset.mem_erase,
      ← h.inverse]
    by_cases ha : a = mined
    · simp [ha]
    · simp [ha]
  dependents_ne := h.dependents_ne.erase
  dependencies_ne := noEmpty_foldl_removeFrom _ h.dependencies_ne

/-- `clear_mined_dependencies` removes the edges from the mined
transactions. -/
theorem WellFormed.clearMinedDependencies (h : d.WellFormed) (mined : Finset Hash) :
    (d.clearMinedDependencies it mined).WellFormed ∧
      ∀ a b, (d.clearMinedDependencies it mined).Edge a b ↔ a ∉ mined ∧ d.Edge a b := by
  have hfold : ∀ (ids : List Hash) (d : TransactionDependencies), d.WellFormed →
      (ids.foldl (TransactionDependencies.clearMined it) d).WellFormed ∧
        ∀ a b, (ids.foldl (TransactionDependencies.clearMined it) d).Edge a b ↔
          a ∉ ids ∧ d.Edge a b := by
    intro ids
    induction ids with
    | nil =>
      intro d hd
      exact ⟨hd, by simp⟩
    | cons id rest ih =>
      intro d hd
      obtain ⟨hwell, hedge⟩ := ih _ (hd.clearMined it id)
      refine ⟨hwell, ?_⟩
      intro a b
      rw [foldl_cons, hedge, Edge, directDependents_clearMined, mem_cons, not_or]
      by_cases ha : a = id
      · simp [ha]
      · simp [ha, Edge]
  obtain ⟨hwell, hedge⟩ := hfold (it.list mined) d h
  refine ⟨hwell, ?_⟩
  intro a b
  rw [TransactionDependencies.clearMinedDependencies, hedge, it.mem_list]

end Updates

/-! ## Removal of a transaction with its dependents -/

/-- `d` is what is left of `d₀` when all edges of the visited transactions
are gone, except for the dependencies of others on them. -/
structure Detached (d₀ : TransactionDependencies) (visited : Finset Hash)
    (d : TransactionDependencies) : Prop where
  dependents : ∀ a, d.directDependents a =
    if a ∈ visited then ∅ else d₀.directDependents a \ visited
  dependencies : ∀ b, d.directDependencies b =
    if b ∈ visited then ∅ else d₀.directDependencies b
  dependents_ne : d.dependents.NoEmpty
  dependencies_ne : d.dependencies.NoEmpty

section Removal

variable {d} {d₀ : TransactionDependencies} {k a b node : Hash}
  {visited level allDependents : Finset Hash}

theorem Detached.refl (h : d.WellFormed) : Detached d ∅ d where
  dependents := by simp
  dependencies := by simp
  dependents_ne := h.dependents_ne
  dependencies_ne := h.dependencies_ne

section

variable (h : Detached d₀ visited d) (h₀ : d₀.WellFormed)

include h h₀

/-- The loop over the dependencies of a visited transaction removes it from
all sets of dependents. -/
theorem Detached.unlink :
    ((it.list (d.dependencies.get node)).foldl (fun m key => m.removeFrom key node)
      d.dependents).get a = (d.directDependents a).erase node := by
  rw [get_foldl_removeFrom]
  by_cases ha : a ∈ d.dependencies.get node
  · rw [if_pos ((it.mem_list _ a).mpr ha)]
    rfl
  · rw [if_neg (mt (it.mem_list _ a).mp ha)]
    refine (Finset.erase_eq_of_notMem ?_).symm
    intro hnode
    change node ∈ d.directDependents a at hnode
    rw [h.dependents] at hnode
    by_cases hvisited : a ∈ visited
    · simp [hvisited] at hnode
    · rw [if_neg hvisited, Finset.mem_sdiff, h₀.inverse] at hnode
      apply ha
      show a ∈ d.directDependencies node
      rw [h.dependencies, if_neg hnode.2]
      exact hnode.1

/-- One transaction of a level. -/
theorem Detached.detach (node : Hash) :
    Detached d₀ (insert node visited) (d.detach it node).1 ∧
      (d.detach it node).2 =
        if node ∈ visited then ∅ else d₀.directDependents node \ insert node visited := by
  have hdependents : ∀ a, (d.detach it node).1.directDependents a =
      if a = node then ∅ else (d.directDependents a).erase node := by
    intro a
    have hget := @SetIndex.get_erase Hash Hash _ ((it.list (d.dependencies.get node)).foldl
      (fun m key => m.removeFrom key node) d.dependents) node a
    rw [h.unlink it h₀] at hget
    exact hget
  refine ⟨⟨?_, ?_, ?_, ?_⟩, ?_⟩
  · intro a
    rw [hdependents, h.dependents]
    by_cases ha : a = node
    · simp [ha]
    · by_cases hvisited : a ∈ visited
      · simp [hvisited]
      · simp [ha, hvisited, Finset.sdiff_insert]
  · intro b
    show SetIndex.get (d.dependencies.erase node) b = _
    rw [SetIndex.get_erase]
    by_cases hb : b = node
    · simp [hb]
    · have hrest := h.dependencies b
      unfold directDependencies at hrest
      simp [hb, hrest, directDependencies]
  · exact (noEmpty_foldl_removeFrom _ h.dependents_ne).erase
  · exact h.dependencies_ne.erase
  · show ((it.list (d.dependencies.get node)).foldl _ d.dependents).get node = _
    rw [h.unlink it h₀, h.dependents]
    by_cases hvisited : node ∈ visited
    · simp [hvisited]
    · simp [hvisited, Finset.sdiff_insert]

/-- What a level collects. -/
structure Collected (d₀ : TransactionDependencies) (visited : Finset Hash) (level : List Hash)
    (next : Finset Hash) : Prop where
  sound : ∀ b ∈ next, ∃ a ∈ level, a ∉ visited ∧ d₀.Edge a b ∧ b ∉ visited
  complete : ∀ a ∈ level, a ∉ visited → ∀ b, d₀.Edge a b →
    b ∈ visited ∪ level.toFinset ∨ b ∈ next

/-- The transactions of a level, one after the other. -/
theorem Detached.detachLevel (level : List Hash) :
    Detached d₀ (visited ∪ level.toFinset) (d.detachLevel it level).1 ∧
      Collected d₀ visited level (d.detachLevel it level).2 := by
  induction level using List.reverseRecOn with
  | nil =>
    refine ⟨?_, by simp [TransactionDependencies.detachLevel], by simp⟩
    simpa [TransactionDependencies.detachLevel] using h
  | append_singleton level node ih =>
    obtain ⟨hlevel, hcollected⟩ := ih
    have hlast : d.detachLevel it (level ++ [node]) =
        (((d.detachLevel it level).1.detach it node).1,
          (d.detachLevel it level).2 ∪ ((d.detachLevel it level).1.detach it node).2) := by
      simp [TransactionDependencies.detachLevel, foldl_append]
    obtain ⟨hdetached, hnext⟩ := hlevel.detach it h₀ node
    have hvisited : visited ∪ (level ++ [node]).toFinset =
        insert node (visited ∪ level.toFinset) := by
      ext x
      simp only [Finset.mem_union, mem_toFinset, mem_append, mem_singleton,
        Finset.mem_insert]
      tauto
    rw [hlast, hvisited]
    refine ⟨hdetached, ?_⟩
    show Collected d₀ visited (level ++ [node])
      ((d.detachLevel it level).2 ∪ ((d.detachLevel it level).1.detach it node).2)
    -- What the transactions before have collected is kept.
    have hbefore : ∀ a ∈ level, a ∉ visited → ∀ b, d₀.Edge a b →
        b ∈ visited ∪ (level ++ [node]).toFinset ∨
          b ∈ (d.detachLevel it level).2 ∪ ((d.detachLevel it level).1.detach it node).2 := by
      intro a ha hfresh b hab
      rw [hvisited]
      rcases hcollected.complete a ha hfresh b hab with hb | hb
      · exact .inl (Finset.mem_insert_of_mem hb)
      · exact .inr (Finset.mem_union_left _ hb)
    constructor
    · intro b hb
      rcases Finset.mem_union.mp hb with hb | hb
      · obtain ⟨a, ha, hfacts⟩ := hcollected.sound b hb
        exact ⟨a, mem_append_left _ ha, hfacts⟩
      · rw [hnext] at hb
        by_cases hnode : node ∈ visited ∪ level.toFinset
        · simp [hnode] at hb
        · rw [if_neg hnode, Finset.mem_sdiff, Finset.mem_insert, Finset.mem_union] at hb
          rw [Finset.mem_union, not_or] at hnode
          exact ⟨node, mem_append_right _ mem_cons_self, hnode.1, hb.1,
            fun hmem => hb.2 (.inr (.inl hmem))⟩
    · intro a ha hfresh b hab
      rcases mem_append.mp ha with ha | ha
      · exact hbefore a ha hfresh b hab
      · rw [mem_singleton] at ha
        subst ha
        by_cases hnode : a ∈ visited ∪ level.toFinset
        · -- The transaction came up before in this level.
          rw [Finset.mem_union, mem_toFinset] at hnode
          exact hbefore a (hnode.resolve_left hfresh) hfresh b hab
        · rw [hvisited, hnext, if_neg hnode]
          by_cases hb : b ∈ insert a (visited ∪ level.toFinset)
          · exact .inl hb
          · exact .inr (Finset.mem_union_right _ (Finset.mem_sdiff.mpr ⟨hab, hb⟩))

end

/-- The state of `remove_all` between two levels. -/
structure Walk (d₀ : TransactionDependencies) (k : Hash) (visited level allDependents : Finset Hash)
    (d : TransactionDependencies) : Prop where
  detached : Detached d₀ visited d
  start : k ∈ visited ∪ level
  reached : ∀ a ∈ visited ∪ level, Relation.ReflTransGen d₀.Edge k a
  dependents : ∀ a ∈ allDependents, Relation.TransGen d₀.Edge k a
  closed : ∀ a ∈ visited, ∀ b, d₀.Edge a b → b ∈ visited ∪ level
  seen : visited ∪ level = insert k allDependents

theorem Walk.init (h : d.WellFormed) (k : Hash) : Walk d k ∅ {k} ∅ d where
  detached := .refl h
  start := by simp
  reached := by
    intro a ha
    have hk : a = k := by simpa using ha
    rw [hk]
  dependents := by simp
  closed := by simp
  seen := by simp

section

variable (h : Walk d₀ k visited level allDependents d) (h₀ : d₀.WellFormed)

include h h₀

/-- Step lemma: one level. -/
theorem Walk.step :
    Walk d₀ k (visited ∪ level) (d.detachLevel it (it.list level)).2
      (allDependents ∪ (d.detachLevel it (it.list level)).2)
      (d.detachLevel it (it.list level)).1 := by
  obtain ⟨hdetached, hcollected⟩ := h.detached.detachLevel it h₀ (it.list level)
  have hlevel : (it.list level).toFinset = level := by
    ext a
    rw [mem_toFinset, it.mem_list]
  rw [hlevel] at hdetached
  have hnext : ∀ b ∈ (d.detachLevel it (it.list level)).2, Relation.TransGen d₀.Edge k b := by
    intro b hb
    obtain ⟨a, ha, _, hab, _⟩ := hcollected.sound b hb
    rw [it.mem_list] at ha
    exact Relation.TransGen.tail' (h.reached a (Finset.mem_union_right _ ha)) hab
  refine ⟨hdetached, Finset.mem_union_left _ h.start, ?_, ?_, ?_, ?_⟩
  · intro a ha
    rcases Finset.mem_union.mp ha with ha | ha
    · exact h.reached a ha
    · exact (hnext a ha).to_reflTransGen
  · intro a ha
    rcases Finset.mem_union.mp ha with ha | ha
    · exact h.dependents a ha
    · exact hnext a ha
  · intro a ha b hab
    by_cases hvisited : a ∈ visited
    · exact Finset.mem_union_left _ (h.closed a hvisited b hab)
    · have hin : a ∈ it.list level := by
        rw [it.mem_list]
        exact (Finset.mem_union.mp ha).resolve_left hvisited
      rcases hcollected.complete a hin hvisited b hab with hb | hb
      · rw [hlevel] at hb
        exact Finset.mem_union_left _ hb
      · exact Finset.mem_union_right _ hb
  · rw [h.seen, Finset.insert_union]

/-- A level that has a next one removes an entry. -/
theorem Walk.keys_card_lt (hnext : (d.detachLevel it (it.list level)).2 ≠ ∅) :
    (d.detachLevel it (it.list level)).1.dependents.keys.card < d.dependents.keys.card := by
  obtain ⟨hdetached, hcollected⟩ := h.detached.detachLevel it h₀ (it.list level)
  obtain ⟨b, hb⟩ := Finset.nonempty_iff_ne_empty.mpr hnext
  obtain ⟨a, ha, hfresh, hab, hbfresh⟩ := hcollected.sound b hb
  have hkeys : ∀ {d' : TransactionDependencies} {visited' : Finset Hash}, Detached d₀ visited' d' →
      ∀ x, x ∈ d'.dependents.keys ↔ x ∉ visited' ∧ d₀.directDependents x \ visited' ≠ ∅ := by
    intro d' visited' hd' x
    have hget := hd'.dependents x
    unfold directDependents at hget
    rw [Finmap.mem_keys, hd'.dependents_ne.mem_iff, hget]
    by_cases hx : x ∈ visited'
    · simp [hx]
    · simp [hx, directDependents]
  apply Finset.card_lt_card
  rw [Finset.ssubset_iff_of_subset]
  · refine ⟨a, (hkeys h.detached a).mpr ⟨hfresh, ?_⟩, ?_⟩
    · rw [← Finset.nonempty_iff_ne_empty]
      exact ⟨b, Finset.mem_sdiff.mpr ⟨hab, hbfresh⟩⟩
    · intro hin
      exact ((hkeys hdetached a).mp hin).1 (Finset.mem_union_right _ (mem_toFinset.mpr ha))
  · intro x hx
    obtain ⟨hx, hne⟩ := (hkeys hdetached x).mp hx
    rw [Finset.mem_union, not_or] at hx
    refine (hkeys h.detached x).mpr ⟨hx.1, ?_⟩
    rw [← Finset.nonempty_iff_ne_empty] at hne ⊢
    obtain ⟨y, hy⟩ := hne
    rw [Finset.mem_sdiff, Finset.mem_union, not_or] at hy
    exact ⟨y, Finset.mem_sdiff.mpr ⟨hy.1, hy.2.1⟩⟩

/-- Run lemma: the levels end. -/
theorem Walk.run {fuel : Nat} (hfuel : level = ∅ ∨ d.dependents.keys.card < fuel) :
    ∃ visited', Walk d₀ k visited' ∅ (removeLevels it fuel d level allDependents).2
      (removeLevels it fuel d level allDependents).1 := by
  induction fuel generalizing visited level allDependents d with
  | zero =>
    rcases hfuel with rfl | hlt
    · exact ⟨visited, h⟩
    · exact absurd hlt (Nat.not_lt_zero _)
  | succ fuel ih =>
    rw [removeLevels]
    by_cases hempty : level = ∅
    · subst hempty
      exact ⟨visited, h⟩
    · rw [if_neg hempty]
      refine ih (h.step it h₀) ?_
      by_cases hnext : (d.detachLevel it (it.list level)).2 = ∅
      · exact .inl hnext
      · have hlt := h.keys_card_lt it h₀ hnext
        have hfuel := hfuel.resolve_left hempty
        omega

end

/-- What `remove_all` leaves and returns. -/
structure RemovedAll (d : TransactionDependencies) (k : Hash) (d' : TransactionDependencies)
    (allDependents : Finset Hash) : Prop where
  wellFormed : d'.WellFormed
  removed : ∀ a, a ∈ insert k allDependents ↔ Relation.ReflTransGen d.Edge k a
  dependents : ∀ a ∈ allDependents, Relation.TransGen d.Edge k a
  edge : ∀ a b, d'.Edge a b ↔ d.Edge a b ∧ a ∉ insert k allDependents ∧ b ∉ insert k allDependents

theorem removeAll_spec (h : d.WellFormed) :
    RemovedAll d k (d.removeAll it k).1 (d.removeAll it k).2 := by
  obtain ⟨visited, hwalk⟩ := (Walk.init h k).run it h
    (.inr (Nat.lt_succ_self d.dependents.keys.card))
  change Walk d k visited ∅ (d.removeAll it k).2 (d.removeAll it k).1 at hwalk
  have hseen : visited = insert k (d.removeAll it k).2 := by
    rw [← hwalk.seen, Finset.union_empty]
  have hclosed : ∀ a ∈ visited, ∀ b, d.Edge a b → b ∈ visited := by
    intro a ha b hab
    simpa using hwalk.closed a ha b hab
  have hedge : ∀ a b, (d.removeAll it k).1.Edge a b ↔ d.Edge a b ∧ a ∉ visited ∧ b ∉ visited := by
    intro a b
    unfold Edge
    rw [hwalk.detached.dependents]
    by_cases ha : a ∈ visited
    · simp [ha]
    · simp [ha, Finset.mem_sdiff]
  rw [hseen] at hedge
  refine ⟨⟨?_, hwalk.detached.dependents_ne, hwalk.detached.dependencies_ne⟩, ?_,
    hwalk.dependents, hedge⟩
  · intro a b
    refine (hedge a b).trans ?_
    rw [← hseen, hwalk.detached.dependencies]
    by_cases hb : b ∈ visited
    · simp [hb]
    · rw [if_neg hb, ← h.inverse]
      constructor
      · exact fun hab => hab.1
      · intro hab
        exact ⟨hab, fun ha => hb (hclosed a ha b hab), hb⟩
  · intro a
    rw [← hseen]
    constructor
    · intro ha
      exact hwalk.reached a (Finset.mem_union_left _ ha)
    · intro hreach
      have hk : k ∈ visited := by simpa using hwalk.start
      induction hreach with
      | refl => exact hk
      | tail _ hab ih => exact hclosed _ ih _ hab

end Removal

end TransactionDependencies

end Wolf.Mempool
