import Wolf.Mempool.VerifiedSet

/-! # The caches of the verified set are exact

The verified set keeps totals and indexes over the transactions it
holds, and a graph of their dependencies. Each operation updates them
in place: an insertion adds to all of them, and a removal goes through
the dependents level by level and takes each one out of every cache.

* `Caches`: the caches are what the held transactions make them.
* `Exact`: moreover, the dependencies relate held transactions.
* `RemovesAll`: what the removal of some transactions, with all their
  dependents, leaves of the set and of the graph.
* `verified_set_exact`: the caches are exact after every run of
  operations, whatever order hash sets are visited in. -/

namespace Wolf.Mempool

open Ledger List

/-! ## The caches -/

/-- Two transactions spend one output or reveal one nullifier. -/
def Conflict (tx tx' : Transaction) : Prop :=
  (∃ o, o ∈ tx.spentOutpoints ∧ o ∈ tx'.spentOutpoints) ∨
    ∃ pool n, n ∈ tx.nullifiers pool ∧ n ∈ tx'.nullifiers pool

/-- The caches are exact for the transactions `txs`, each of which is held
once. -/
structure Caches (s : VerifiedSet) (txs : Multiset VerifiedUnminedTx) : Prop where
  transactions : Holds s.transactions (txs.map fun tx => (tx.minedId, tx))
  createdOutputs : Holds s.createdOutputs (txs.bind fun tx => ↑tx.effects.newOutputs)
  size : s.transactionsSerializedSize = (txs.map fun tx => tx.transaction.size).sum
  cost : s.totalCost = (txs.map fun tx => tx.cost).sum
  spentOutpoints : ∀ o, o ∈ s.spentOutpoints ↔ ∃ tx ∈ txs, o ∈ tx.effects.spentOutpoints
  nullifiers : ∀ pool n, n ∈ s.nullifiers pool ↔ ∃ tx ∈ txs, n ∈ tx.effects.nullifiers pool
  conflictFree : ∀ tx ∈ txs, ∀ tx' ∈ txs, Conflict tx.effects tx'.effects → tx = tx'

section Caches

variable {s s' : VerifiedSet} {txs rest : Multiset VerifiedUnminedTx} {tx tx' : VerifiedUnminedTx}
  {key : Hash} {o : OutPoint}

theorem Caches.empty : Caches {} 0 where
  transactions := by simpa using Holds.empty
  createdOutputs := by simpa using Holds.empty
  size := rfl
  cost := rfl
  spentOutpoints := by simp
  nullifiers := by simp
  conflictFree := by simp

theorem Caches.mem_iff (h : Caches s txs) :
    key ∈ s.transactions ↔ ∃ tx ∈ txs, tx.minedId = key := by
  rw [h.transactions.mem_iff, Multiset.map_map, Multiset.mem_map]
  rfl

/-- The transaction under a key. -/
theorem Caches.lookup (h : Caches s txs) :
    s.transactions.lookup key = some tx ↔ tx ∈ txs ∧ tx.minedId = key := by
  rw [h.transactions.lookup, Multiset.mem_map]
  constructor
  · rintro ⟨tx', htx', heq⟩
    cases heq
    exact ⟨htx', rfl⟩
  · rintro ⟨htx, rfl⟩
    exact ⟨tx, htx, rfl⟩

/-- Ids are unique. -/
theorem Caches.eq_of_minedId (h : Caches s txs) (htx : tx ∈ txs) (htx' : tx' ∈ txs)
    (hid : tx.minedId = tx'.minedId) : tx = tx' := by
  have hlookup := h.lookup.mpr ⟨htx, hid⟩
  rw [h.lookup.mpr ⟨htx', rfl⟩] at hlookup
  exact (Option.some.inj hlookup).symm

theorem Caches.notMem_rest (h : Caches s (tx ::ₘ rest)) : tx ∉ rest := by
  have hnodup := h.transactions.nodup
  rw [Multiset.map_cons, Multiset.map_cons, Multiset.nodup_cons] at hnodup
  intro hmem
  apply hnodup.1
  rw [Multiset.map_map, Multiset.mem_map]
  exact ⟨tx, hmem, rfl⟩

/-- `has_spend_conflicts` looks for conflicts with held transactions. -/
theorem Caches.hasSpendConflicts (h : Caches s txs) (effects : Transaction) :
    s.hasSpendConflicts effects = true ↔ ∃ tx ∈ txs, Conflict effects tx.effects := by
  unfold VerifiedSet.hasSpendConflicts
  rw [Bool.or_eq_true, any_eq_true, any_eq_true]
  simp only [decide_eq_true_eq, any_eq_true, h.spentOutpoints, h.nullifiers]
  constructor
  · rintro (⟨o, ho, tx, htx, ho'⟩ | ⟨pool, _, n, hn, tx, htx, hn'⟩)
    · exact ⟨tx, htx, .inl ⟨o, ho, ho'⟩⟩
    · exact ⟨tx, htx, .inr ⟨pool, n, hn, hn'⟩⟩
  · rintro ⟨tx, htx, ⟨o, ho, ho'⟩ | ⟨pool, n, hn, hn'⟩⟩
    · exact .inl ⟨o, ho, tx, htx, ho'⟩
    · exact .inr ⟨pool, pool.mem_all, n, hn, tx, htx, hn'⟩

theorem newOutputs_hash {effects : Transaction} (h : o ∈ effects.newOutputs.map Prod.fst) :
    o.hash = effects.hash := by
  rw [newOutputs_keys] at h
  obtain ⟨index, _, rfl⟩ := mem_map.mp h
  rfl

theorem VerifiedUnminedTx.minedId_eq (tx : VerifiedUnminedTx) : tx.minedId = tx.effects.hash :=
  tx.transaction.id_eq

/-- A created output is one of a held transaction. -/
theorem Caches.mem_createdOutputs (h : Caches s txs) (ho : o ∈ s.createdOutputs) :
    o.hash ∈ s.transactions := by
  rw [h.createdOutputs.mem_iff, Multiset.mem_map] at ho
  obtain ⟨entry, hentry, rfl⟩ := ho
  obtain ⟨tx, htx, hentry⟩ := Multiset.mem_bind.mp hentry
  rw [h.mem_iff]
  refine ⟨tx, htx, ?_⟩
  rw [tx.minedId_eq, newOutputs_hash (mem_map_of_mem (Multiset.mem_coe.mp hentry))]

theorem newOutputs_nodup (effects : Transaction) : (effects.newOutputs.map Prod.fst).Nodup := by
  rw [newOutputs_keys]
  refine nodup_range.map ?_
  intro i j hij
  exact congrArg OutPoint.index hij

/-- A new transaction without conflicts. -/
theorem Caches.insert (h : Caches s txs) (hnew : tx.minedId ∉ s.transactions)
    (hconflicts : s.hasSpendConflicts tx.effects = false) (outpoints : List OutPoint)
    (height : Option Nat) :
    Caches (s.insertChecked tx outpoints height) ({ tx with height } ::ₘ txs) where
  transactions := by
    rw [Multiset.map_cons]
    exact h.transactions.insert hnew
  createdOutputs := by
    rw [Multiset.cons_bind]
    refine h.createdOutputs.insertAll (newOutputs_nodup tx.effects) ?_
    intro o ho hmem
    apply hnew
    rw [tx.minedId_eq, ← newOutputs_hash ho]
    exact h.mem_createdOutputs hmem
  size := by
    rw [Multiset.map_cons, Multiset.sum_cons, ← h.size, Nat.add_comm]
    rfl
  cost := by
    rw [Multiset.map_cons, Multiset.sum_cons, ← h.cost, Nat.add_comm]
    rfl
  spentOutpoints := by
    intro o
    show o ∈ s.spentOutpoints ∪ tx.effects.spentOutpoints.toFinset ↔ _
    rw [Finset.mem_union, mem_toFinset, h.spentOutpoints]
    simp only [Multiset.mem_cons, exists_eq_or_imp]
    exact or_comm
  nullifiers := by
    intro pool n
    show n ∈ s.nullifiers pool ∪ (tx.effects.nullifiers pool).toFinset ↔ _
    rw [Finset.mem_union, mem_toFinset, h.nullifiers]
    simp only [Multiset.mem_cons, exists_eq_or_imp]
    exact or_comm
  conflictFree := by
    have hnone : ∀ tx' ∈ txs, ¬ Conflict tx.effects tx'.effects := by
      intro tx' htx' hconflict
      have htrue := (h.hasSpendConflicts tx.effects).mpr ⟨tx', htx', hconflict⟩
      rw [hconflicts] at htrue
      cases htrue
    have hsymm : ∀ {a b : Transaction}, Conflict a b → Conflict b a := by
      rintro a b (⟨o, ha, hb⟩ | ⟨pool, n, ha, hb⟩)
      · exact .inl ⟨o, hb, ha⟩
      · exact .inr ⟨pool, n, hb, ha⟩
    intro a ha b hb hconflict
    rcases Multiset.mem_cons.mp ha with rfl | ha
    · rcases Multiset.mem_cons.mp hb with rfl | hb
      · rfl
      · exact absurd hconflict (hnone b hb)
    · rcases Multiset.mem_cons.mp hb with rfl | hb
      · exact absurd (hsymm hconflict) (hnone a ha)
      · exact h.conflictFree a ha b hb hconflict

/-- What a held transaction spends and reveals, no other one does. -/
theorem Caches.remove_used {α : Type} (h : Caches s (tx ::ₘ rest)) {f : VerifiedUnminedTx → List α}
    (hconflict : ∀ a b x, x ∈ f a → x ∈ f b → Conflict a.effects b.effects) (x : α) :
    (∃ tx' ∈ tx ::ₘ rest, x ∈ f tx') ∧ x ∉ f tx ↔ ∃ tx' ∈ rest, x ∈ f tx' := by
  simp only [Multiset.mem_cons, exists_eq_or_imp]
  constructor
  · rintro ⟨hx | hx, hnot⟩
    · exact absurd hx hnot
    · exact hx
  · rintro ⟨tx', htx', hx⟩
    refine ⟨.inr ⟨tx', htx', hx⟩, ?_⟩
    intro htx
    have heq := h.conflictFree tx (Multiset.mem_cons_self _ _) tx' (Multiset.mem_cons_of_mem htx')
      (hconflict tx tx' x htx hx)
    exact h.notMem_rest (heq ▸ htx')

theorem Caches.removeTransaction (h : Caches s (tx ::ₘ rest)) :
    ∃ s', s.removeTransaction tx.minedId = .ok (s', some tx) ∧ Caches s' rest ∧
      s'.transactionDependencies = s.transactionDependencies := by
  have hlookup : s.transactions.lookup tx.minedId = some tx :=
    h.lookup.mpr ⟨Multiset.mem_cons_self _ _, rfl⟩
  have hsize : checkedSub s.transactionsSerializedSize tx.transaction.size =
      some (rest.map fun tx => tx.transaction.size).sum := by
    rw [h.size, Multiset.map_cons, Multiset.sum_cons, checkedSub_eq_some]
    omega
  have hcost : checkedSub s.totalCost tx.cost = some (rest.map fun tx => tx.cost).sum := by
    rw [h.cost, Multiset.map_cons, Multiset.sum_cons, checkedSub_eq_some]
    omega
  unfold VerifiedSet.removeTransaction
  rw [hlookup]
  simp only [hsize, hcost, okOr_bind]
  refine ⟨_, rfl, ⟨?_, ?_, rfl, rfl, ?_, ?_, ?_⟩, rfl⟩
  · have htransactions := h.transactions
    rw [Multiset.map_cons] at htransactions
    exact htransactions.erase
  · have houtputs := h.createdOutputs
    rw [Multiset.cons_bind] at houtputs
    have herased := houtputs.eraseAll
    rw [newOutputs_keys, foldl_map] at herased
    exact herased
  · intro o
    show o ∈ s.spentOutpoints \ tx.effects.spentOutpoints.toFinset ↔ _
    rw [Finset.mem_sdiff, mem_toFinset, h.spentOutpoints]
    exact h.remove_used (f := fun tx => tx.effects.spentOutpoints)
      (fun a b o ha hb => .inl ⟨o, ha, hb⟩) o
  · intro pool n
    show n ∈ s.nullifiers pool \ (tx.effects.nullifiers pool).toFinset ↔ _
    rw [Finset.mem_sdiff, mem_toFinset, h.nullifiers]
    exact h.remove_used (f := fun tx => tx.effects.nullifiers pool)
      (fun a b n ha hb => .inr ⟨pool, n, ha, hb⟩) n
  · intro a ha b hb
    exact h.conflictFree a (Multiset.mem_cons_of_mem ha) b (Multiset.mem_cons_of_mem hb)

/-- The transactions under some keys are removed, in the order of the
keys. -/
theorem Caches.removeTransactions {keys : List Hash} (h : Caches s txs) (hkeys : keys.Nodup)
    (hheld : ∀ key ∈ keys, key ∈ s.transactions) :
    ∃ s' removed rest, s.removeTransactions keys = .ok (s', removed) ∧ Caches s' rest ∧
      txs = ↑removed + rest ∧ removed.map (fun tx => tx.minedId) = keys ∧
      s'.transactionDependencies = s.transactionDependencies := by
  induction keys using List.reverseRecOn with
  | nil => exact ⟨s, [], txs, rfl, h, by simp, rfl, rfl⟩
  | append_singleton keys key ih =>
    obtain ⟨hkeys, _, hfresh⟩ := nodup_append.mp hkeys
    obtain ⟨s₁, removed, rest, hloop, hcaches, htxs, hremoved, hdeps⟩ :=
      ih hkeys fun k hk => hheld k (mem_append_left _ hk)
    -- The key is not among those removed before, so it is still held.
    obtain ⟨tx, htx, rfl⟩ := h.mem_iff.mp (hheld key (mem_append_right _ mem_cons_self))
    have hrest : tx ∈ rest := by
      rw [htxs, Multiset.mem_add] at htx
      refine htx.resolve_left fun hmem => ?_
      have hkey : tx.minedId ∈ keys := by
        rw [← hremoved]
        exact mem_map_of_mem (Multiset.mem_coe.mp hmem)
      exact hfresh _ hkey _ mem_cons_self rfl
    obtain ⟨rest', rfl⟩ := Multiset.exists_cons_of_mem hrest
    obtain ⟨s₂, hremove, hcaches₂, hdeps₂⟩ := hcaches.removeTransaction
    refine ⟨s₂, removed ++ [tx], rest', ?_, hcaches₂, ?_, ?_, hdeps₂.trans hdeps⟩
    · unfold VerifiedSet.removeTransactions at hloop ⊢
      rw [foldlM_append, hloop]
      simp [hremove, pure, Except.pure]
    · rw [htxs, ← Multiset.coe_add, add_assoc, ← Multiset.singleton_add, Multiset.coe_singleton]
    · rw [map_append, hremoved]
      rfl

end Caches

/-! ## The set with its dependencies -/

/-- The caches are exact, and the dependencies relate held transactions. -/
structure Exact (s : VerifiedSet) (txs : Multiset VerifiedUnminedTx) : Prop extends
    Caches s txs where
  dependencies : s.transactionDependencies.WellFormed
  acyclic : s.transactionDependencies.Acyclic
  held : ∀ a b, s.transactionDependencies.Edge a b → a ∈ s.transactions ∧ b ∈ s.transactions

/-- What `remove` does to the held transactions `txs`: the key and its
transitive dependents are removed, and the key comes last. -/
structure RemovesExactly (s : VerifiedSet) (key : Hash) (txs rest : Multiset VerifiedUnminedTx)
    (removed : List VerifiedUnminedTx) : Prop where
  split : txs = ↑removed + rest
  reached : ∀ tx ∈ txs, tx ∈ removed ↔
    Relation.ReflTransGen s.transactionDependencies.Edge key tx.minedId
  last : ∃ tx, removed.getLast? = some tx ∧ tx.minedId = key

section Exact

variable {s s' : VerifiedSet} {txs rest : Multiset VerifiedUnminedTx} {tx : VerifiedUnminedTx}
  {key a : Hash} (it : Iteration Hash) {removed : List VerifiedUnminedTx}

theorem Exact.empty : Exact {} 0 where
  toCaches := .empty
  dependencies := .empty
  acyclic := TransactionDependencies.acyclic_empty
  held := by
    intro a b hab
    simp [TransactionDependencies.Edge, TransactionDependencies.directDependents,
      SetIndex.get] at hab

/-- What depends on a held transaction is held. -/
theorem Exact.mem_of_reach (h : Exact s txs) (hkey : key ∈ s.transactions)
    (hreach : Relation.ReflTransGen s.transactionDependencies.Edge key a) : a ∈ s.transactions := by
  induction hreach with
  | refl => exact hkey
  | tail _ hab _ => exact (h.held _ _ hab).2

/-- `remove` of a held transaction. -/
theorem Exact.remove (h : Exact s txs) (hkey : key ∈ s.transactions) :
    ∃ s' removed rest, s.remove it key = .ok (s', removed) ∧ Exact s' rest ∧
      RemovesExactly s key txs rest removed ∧
      ∀ a b, s'.transactionDependencies.Edge a b ↔ s.transactionDependencies.Edge a b ∧
        ¬ Relation.ReflTransGen s.transactionDependencies.Edge key a ∧
        ¬ Relation.ReflTransGen s.transactionDependencies.Edge key b := by
  have hspec := TransactionDependencies.removeAll_spec (k := key) it h.dependencies
  have hnotMem := fun hk => h.acyclic key (hspec.dependents key hk)
  have hmem : ∀ a, a ∈ it.list (s.transactionDependencies.removeAll it key).2 ++ [key] ↔
      Relation.ReflTransGen s.transactionDependencies.Edge key a := by
    intro a
    rw [← hspec.removed, mem_append, mem_singleton, it.mem_list, Finset.mem_insert]
    exact or_comm
  have hkeys : (it.list (s.transactionDependencies.removeAll it key).2 ++ [key]).Nodup := by
    refine concat_eq_append ▸ List.Nodup.concat ?_ (it.nodup _)
    rw [it.mem_list]
    exact hnotMem
  have hcaches : Caches
      { s with transactionDependencies := (s.transactionDependencies.removeAll it key).1 } txs :=
    ⟨h.transactions, h.createdOutputs, h.size, h.cost, h.spentOutpoints, h.nullifiers,
      h.conflictFree⟩
  obtain ⟨s', removed, rest, hloop, hcaches', htxs, hremoved, hdeps⟩ :=
    hcaches.removeTransactions hkeys fun a ha => h.mem_of_reach hkey ((hmem a).mp ha)
  have hedge : ∀ a b, s'.transactionDependencies.Edge a b ↔
      s.transactionDependencies.Edge a b ∧
        ¬ Relation.ReflTransGen s.transactionDependencies.Edge key a ∧
        ¬ Relation.ReflTransGen s.transactionDependencies.Edge key b := by
    intro a b
    rw [hdeps, hspec.edge, hspec.removed, hspec.removed]
  have hids : ∀ tx ∈ txs, tx ∈ removed ↔
      Relation.ReflTransGen s.transactionDependencies.Edge key tx.minedId := by
    intro tx htx
    rw [← hmem, ← hremoved, mem_map]
    constructor
    · exact fun hin => ⟨tx, hin, rfl⟩
    · rintro ⟨tx', hin, hid⟩
      have htx' : tx' ∈ txs := htxs ▸ Multiset.mem_add.mpr (.inl (Multiset.mem_coe.mpr hin))
      exact h.eq_of_minedId htx' htx hid ▸ hin
  -- A transaction that is not removed is still held.
  have hkept : ∀ a ∈ s.transactions, ¬ Relation.ReflTransGen s.transactionDependencies.Edge key a →
      a ∈ s'.transactions := by
    intro a ha hnot
    obtain ⟨tx, htx, rfl⟩ := h.mem_iff.mp ha
    refine hcaches'.mem_iff.mpr ⟨tx, ?_, rfl⟩
    have hin := htx
    rw [htxs, Multiset.mem_add] at hin
    exact hin.resolve_left fun hmem => hnot ((hids tx htx).mp (Multiset.mem_coe.mp hmem))
  refine ⟨s', removed, rest, hloop, ⟨hcaches', ?_, ?_, ?_⟩, ⟨htxs, hids, ?_⟩, hedge⟩
  · rw [hdeps]
    exact hspec.wellFormed
  · exact h.acyclic.mono fun a b hab => ((hedge a b).mp hab).1
  · intro a b hab
    obtain ⟨hab, ha, hb⟩ := (hedge a b).mp hab
    exact ⟨hkept a (h.held a b hab).1 ha, hkept b (h.held a b hab).2 hb⟩
  · have hlast := congrArg List.getLast? hremoved
    rw [List.getLast?_map, List.getLast?_append, List.getLast?_singleton, Option.some_or] at hlast
    exact Option.map_eq_some_iff.mp hlast

/-- Every transaction is held once. -/
theorem Exact.nodup (h : Exact s txs) : txs.Nodup :=
  Multiset.Nodup.of_map _ (Multiset.Nodup.of_map _ h.transactions.nodup)

theorem RemovesExactly.le (h : RemovesExactly s key txs rest removed) : rest ≤ txs := by
  rw [h.split]
  exact Multiset.le_add_left _ _

/-- The transactions that a removal leaves. -/
theorem RemovesExactly.mem_iff {x : Hash} (h : Exact s txs) (h' : Exact s' rest)
    (hremoves : RemovesExactly s key txs rest removed) :
    x ∈ s'.transactions ↔
      x ∈ s.transactions ∧ ¬ Relation.ReflTransGen s.transactionDependencies.Edge key x := by
  constructor
  · intro hx
    obtain ⟨tx, htx, rfl⟩ := h'.mem_iff.mp hx
    have hmem : tx ∈ txs := Multiset.mem_of_le hremoves.le htx
    refine ⟨h.mem_iff.mpr ⟨tx, hmem, rfl⟩, ?_⟩
    rw [← hremoves.reached tx hmem]
    intro hremoved
    -- A transaction is held once, so it is not both removed and left.
    have hnodup : txs.Nodup := h.nodup
    rw [hremoves.split] at hnodup
    exact Multiset.disjoint_left.mp (Multiset.nodup_add.mp hnodup).2.2
      (Multiset.mem_coe.mpr hremoved) htx
  · rintro ⟨hx, hnot⟩
    obtain ⟨tx, htx, rfl⟩ := h.mem_iff.mp hx
    refine h'.mem_iff.mpr ⟨tx, ?_, rfl⟩
    have hin := htx
    rw [hremoves.split, Multiset.mem_add] at hin
    exact hin.resolve_left fun hremoved =>
      hnot ((hremoves.reached tx htx).mp (Multiset.mem_coe.mp hremoved))

/-- Ids identify effects, and every transaction spends or reveals
something. -/
structure Insertable (txOf : Hash → Transaction) (tx : VerifiedUnminedTx) : Prop where
  known : tx.effects = txOf tx.minedId
  spends : tx.effects.spentOutpoints ≠ [] ∨ ∃ pool, tx.effects.nullifiers pool ≠ []

/-- The held transactions are known by their ids. -/
def AllKnown (txOf : Hash → Transaction) (txs : Multiset VerifiedUnminedTx) : Prop :=
  ∀ tx ∈ txs, tx.effects = txOf tx.minedId

section

variable (h : Exact s txs)

include h

/-- A transaction conflicts with itself, so a held one is not inserted
again. -/
theorem Exact.notMem_of_insertable {txOf : Hash → Transaction}
    (hknown : AllKnown txOf txs) (htx : Insertable txOf tx)
    (hconflicts : s.hasSpendConflicts tx.effects = false) : tx.minedId ∉ s.transactions := by
  intro hmem
  obtain ⟨tx', htx', hid⟩ := h.mem_iff.mp hmem
  have heffects : tx'.effects = tx.effects := by
    rw [hknown tx' htx', hid, ← htx.known]
  have hself : Conflict tx.effects tx'.effects := by
    rw [heffects]
    rcases htx.spends with hne | ⟨pool, hne⟩
    · obtain ⟨o, ho⟩ := exists_mem_of_ne_nil _ hne
      exact .inl ⟨o, ho, ho⟩
    · obtain ⟨n, hn⟩ := exists_mem_of_ne_nil _ hne
      exact .inr ⟨pool, n, hn, hn⟩
  rw [(h.hasSpendConflicts tx.effects).mpr ⟨tx', htx', hself⟩] at hconflicts
  cases hconflicts

/-- `insert` of a transaction that is not rejected. -/
theorem Exact.insertChecked (hnew : tx.minedId ∉ s.transactions)
    (hconflicts : s.hasSpendConflicts tx.effects = false) {outpoints : List OutPoint}
    (houtpoints : ∀ o ∈ outpoints, o ∈ s.createdOutputs) (height : Option Nat) :
    Exact (s.insertChecked tx outpoints height) ({ tx with height } ::ₘ txs) := by
  -- A transaction that is not held has no dependencies and no dependents.
  have hdependencies : s.transactionDependencies.directDependencies tx.minedId = ∅ := by
    rw [Finset.eq_empty_iff_forall_notMem]
    intro a ha
    exact hnew (h.held a _ ((h.dependencies.inverse a _).mpr ha)).2
  have hdependents : s.transactionDependencies.directDependents tx.minedId = ∅ := by
    rw [Finset.eq_empty_iff_forall_notMem]
    intro b hb
    exact hnew (h.held _ b hb).1
  have hhashes : ∀ a ∈ outpoints.map (fun o => o.hash), a ∈ s.transactions := by
    intro a ha
    obtain ⟨o, ho, rfl⟩ := mem_map.mp ha
    exact h.mem_createdOutputs (houtpoints o ho)
  refine ⟨h.toCaches.insert hnew hconflicts outpoints height,
    h.dependencies.add outpoints hdependencies,
    h.acyclic.add outpoints (fun hself => hnew (hhashes _ hself)) hdependents, ?_⟩
  intro a b hab
  have hold : ∀ x ∈ s.transactions, x ∈ (s.insertChecked tx outpoints height).transactions :=
    fun x hx => Finmap.mem_insert.mpr (.inr hx)
  have hself : tx.minedId ∈ (s.insertChecked tx outpoints height).transactions :=
    Finmap.mem_insert.mpr (.inl rfl)
  change b ∈ (s.transactionDependencies.add tx.minedId outpoints).directDependents a at hab
  rw [TransactionDependencies.directDependents_add] at hab
  by_cases ha : a ∈ outpoints.map fun o => o.hash
  · rw [if_pos ha, Finset.mem_insert] at hab
    refine ⟨hold a (hhashes a ha), ?_⟩
    rcases hab with rfl | hab
    · exact hself
    · exact hold b (h.held a b hab).2
  · rw [if_neg ha] at hab
    exact ⟨hold a (h.held a b hab).1, hold b (h.held a b hab).2⟩

theorem Exact.clearMinedDependencies (mined : Finset Hash) :
    Exact (s.clearMinedDependencies it mined) txs := by
  obtain ⟨hwell, hedge⟩ := h.dependencies.clearMinedDependencies it mined
  refine ⟨⟨h.transactions, h.createdOutputs, h.size, h.cost, h.spentOutpoints, h.nullifiers,
    h.conflictFree⟩, hwell, h.acyclic.mono fun a b hab => ((hedge a b).mp hab).2, ?_⟩
  intro a b hab
  exact h.held a b ((hedge a b).mp hab).2

/-- What `remove_all_that` leaves: none of the keys and nothing that depends
on one, but every transaction outside a set that has the keys and what
depends on its members. -/
structure RemovesAll (s : VerifiedSet) (keys : List Hash) (s' : VerifiedSet) : Prop where
  /-- The dependencies are those between the transactions that are left. -/
  edge : ∀ a b, s'.transactionDependencies.Edge a b ↔
    s.transactionDependencies.Edge a b ∧ a ∈ s'.transactions ∧ b ∈ s'.transactions
  removed : ∀ key ∈ keys, key ∉ s'.transactions
  /-- What is left has its dependencies. -/
  closed : ∀ a b, s.transactionDependencies.Edge a b → b ∈ s'.transactions → a ∈ s'.transactions
  kept : ∀ gone : Hash → Prop, (∀ a b, s.transactionDependencies.Edge a b → gone a → gone b) →
    (∀ key ∈ keys, gone key) → ∀ x ∈ s.transactions, ¬ gone x → x ∈ s'.transactions

/-- The loop of `remove_all_that`. -/
theorem Exact.removeAllFrom (keys : List Hash) :
    ∃ s' ids rest, s.removeAllFrom it keys = .ok (s', ids) ∧ Exact s' rest ∧ rest ≤ txs ∧
      RemovesAll s keys s' := by
  induction keys using List.reverseRecOn with
  | nil =>
    exact ⟨s, ∅, txs, rfl, h, le_refl _, fun a b => ⟨fun hab => ⟨hab, h.held a b hab⟩, And.left⟩,
      by simp, fun a b hab _ => (h.held a b hab).1, fun _ _ _ x hx _ => hx⟩
  | append_singleton keys key ih =>
    obtain ⟨s₁, ids, rest, hloop, hexact, hle, hall⟩ := ih
    unfold VerifiedSet.removeAllFrom at hloop ⊢
    rw [foldlM_append, hloop]
    by_cases hkey : key ∈ s₁.transactions
    · obtain ⟨s₂, removed, rest₂, hremove, hexact₂, hremoves, hedge⟩ := hexact.remove it hkey
      have hmem := fun x => hremoves.mem_iff (x := x) hexact hexact₂
      refine ⟨s₂, ids ∪ (removed.map fun tx => tx.transaction.id).toFinset, rest₂, ?_, hexact₂,
        hremoves.le.trans hle, ?_, ?_, ?_, ?_⟩
      · simp only [ok_bind, foldlM_cons, foldlM_nil, if_pos hkey, hremove]
        rfl
      · intro a b
        rw [hedge, hall.edge, hmem, hmem]
        tauto
      · refine forall_mem_append.mpr
          ⟨?_, forall_mem_singleton.mpr fun hx => ((hmem key).mp hx).2 .refl⟩
        exact fun x hx hin => hall.removed x hx ((hmem x).mp hin).1
      · intro a b hab hb
        obtain ⟨hb, hnot⟩ := (hmem b).mp hb
        have ha := hall.closed a b hab hb
        exact (hmem a).mpr ⟨ha, fun hreach =>
          hnot (hreach.tail ((hall.edge a b).mpr ⟨hab, ha, hb⟩))⟩
      · intro gone hclosed hkeys x hx hnot
        obtain ⟨hold, hlast⟩ := forall_mem_append.mp hkeys
        -- What the key reaches is gone with it.
        have hgone : ∀ y, Relation.ReflTransGen s₁.transactionDependencies.Edge key y → gone y := by
          intro y hreach
          induction hreach with
          | refl => exact forall_mem_singleton.mp hlast
          | tail _ hab ih => exact hclosed _ _ ((hall.edge _ _).mp hab).1 ih
        exact (hmem x).mpr ⟨hall.kept gone hclosed hold x hx hnot, mt (hgone x) hnot⟩
    · refine ⟨s₁, ids, rest, ?_, hexact, hle, hall.edge, ?_, hall.closed, ?_⟩
      · simp only [ok_bind, foldlM_cons, foldlM_nil, if_neg hkey]
        rfl
      · exact forall_mem_append.mpr ⟨hall.removed, forall_mem_singleton.mpr hkey⟩
      · exact fun gone hclosed hkeys => hall.kept gone hclosed (forall_mem_append.mp hkeys).1

theorem Exact.removeAllThat {predicate : VerifiedUnminedTx → Bool}
    {removed : VerifiedSet × Finset UnminedTxId}
    (hremove : s.removeAllThat it predicate = .ok removed) :
    ∃ rest, Exact removed.1 rest ∧ rest ≤ txs ∧
      RemovesAll s (it.list (s.matching predicate)) removed.1 := by
  obtain ⟨s', ids, rest, hloop, hrest⟩ := h.removeAllFrom it (it.list (s.matching predicate))
  rw [VerifiedSet.removeAllThat, hloop] at hremove
  cases hremove
  exact ⟨rest, hrest⟩

/-- `insert` of a transaction that is not held or that conflicts, which
changes nothing if it rejects the transaction. -/
theorem Exact.insert_of
    (hnew : s.hasSpendConflicts tx.effects = false → tx.minedId ∉ s.transactions)
    (outpoints : List OutPoint) (height : Option Nat) :
    (∃ e, s.insert tx outpoints height = (.error e, s)) ∨
      s.insert tx outpoints height = (.ok (), s.insertChecked tx outpoints height) ∧
        Exact (s.insertChecked tx outpoints height) ({ tx with height } ::ₘ txs) := by
  unfold VerifiedSet.insert
  by_cases hconflicts : s.hasSpendConflicts tx.effects = true
  · rw [if_pos hconflicts]
    exact .inl ⟨_, rfl⟩
  · rw [if_neg hconflicts]
    by_cases hmissing : (outpoints.any fun o => o ∉ s.createdOutputs) = true
    · rw [if_pos hmissing]
      exact .inl ⟨_, rfl⟩
    · rw [if_neg hmissing]
      have hfound : ∀ o ∈ outpoints, o ∈ s.createdOutputs := by simpa using hmissing
      rw [Bool.not_eq_true] at hconflicts
      exact .inr ⟨rfl, h.insertChecked (hnew hconflicts) hconflicts hfound height⟩

/-- `evict_one` fails only on an empty set. -/
theorem Exact.evictOne (chance : Chance) :
    (s.transactions.keys = ∅ ∧ s.evictOne chance = .error .noWeights) ∨
      chance.draw s.transactions.keys ∈ s.transactions ∧
      ∃ s' tx removed rest, s.evictOne chance = .ok (s', some tx) ∧ Exact s' rest ∧
        RemovesExactly s (chance.draw s.transactions.keys) txs rest removed ∧
        removed.getLast? = some tx ∧ tx.minedId = chance.draw s.transactions.keys ∧
        ∀ a b, s'.transactionDependencies.Edge a b ↔ s.transactionDependencies.Edge a b ∧
          ¬ Relation.ReflTransGen s.transactionDependencies.Edge
            (chance.draw s.transactions.keys) a ∧
          ¬ Relation.ReflTransGen s.transactionDependencies.Edge
            (chance.draw s.transactions.keys) b := by
  unfold VerifiedSet.evictOne
  by_cases hempty : s.transactions.keys = ∅
  · left
    rw [rejectIf_of_pos hempty]
    exact ⟨hempty, rfl⟩
  · right
    have hdraw : chance.draw s.transactions.keys ∈ s.transactions :=
      Finmap.mem_keys.mp (chance.draw_mem _ (Finset.nonempty_iff_ne_empty.mpr hempty))
    obtain ⟨s', removed, rest, hremove, hexact, hremoves, hedge⟩ := h.remove chance.iteration hdraw
    obtain ⟨tx, hlast, hid⟩ := hremoves.last
    refine ⟨hdraw, s', tx, removed, rest, ?_, hexact, hremoves, hlast, hid, hedge⟩
    rw [rejectIf_bind hempty, hremove, ok_bind, hlast]

end

end Exact

/-! ## Runs -/

/-- The operations of the verified set. -/
inductive SetOperation where
  | insert (tx : VerifiedUnminedTx) (spentMempoolOutpoints : List OutPoint) (height : Option Nat)
  | evictOne
  | removeAllThat (predicate : VerifiedUnminedTx → Bool)
  | clearMinedDependencies (minedIds : Finset Hash)
  | clear

namespace SetOperation

/-- The set after an operation. -/
def apply (chance : Chance) (s : VerifiedSet) : SetOperation → Except Panic VerifiedSet
  | .insert tx spentMempoolOutpoints height => .ok (s.insert tx spentMempoolOutpoints height).2
  | .evictOne => do
    let evicted ← s.evictOne chance
    .ok evicted.1
  | .removeAllThat predicate => do
    let removed ← s.removeAllThat chance.iteration predicate
    .ok removed.1
  | .clearMinedDependencies minedIds => .ok (s.clearMinedDependencies chance.iteration minedIds)
  | .clear => .ok VerifiedSet.clear

/-- What is inserted spends or reveals something and is known by its id. -/
def Valid (txOf : Hash → Transaction) : SetOperation → Prop
  | .insert tx _ _ => Insertable txOf tx
  | _ => True

end SetOperation

/-- The sets that some operations lead to, whatever is drawn and in
whatever order sets are visited. -/
inductive SetReaches : List SetOperation → VerifiedSet → Prop where
  | empty : SetReaches [] {}
  | step {ops : List SetOperation} {s s' : VerifiedSet} {op : SetOperation} {chance : Chance}
      (hreach : SetReaches ops s) (h : op.apply chance s = .ok s') : SetReaches (ops ++ [op]) s'

section Runs

variable {txOf : Hash → Transaction} {s s' : VerifiedSet} {txs rest : Multiset VerifiedUnminedTx}
  {op : SetOperation} {chance : Chance}

theorem AllKnown.mono (h : AllKnown txOf txs) (hle : rest ≤ txs) : AllKnown txOf rest :=
  fun tx htx => h tx (Multiset.mem_of_le hle htx)

/-- Step lemma. -/
theorem Exact.apply (h : Exact s txs) (hknown : AllKnown txOf txs) (hvalid : op.Valid txOf) :
    (∃ s' txs', op.apply chance s = .ok s' ∧ Exact s' txs' ∧ AllKnown txOf txs') ∨
      op.apply chance s = .error .noWeights := by
  cases op with
  | insert tx outpoints height =>
    left
    rcases h.insert_of (h.notMem_of_insertable hknown hvalid) outpoints height with
      ⟨e, hinsert⟩ | ⟨hinsert, hexact⟩
    · exact ⟨s, txs, by rw [SetOperation.apply, hinsert], h, hknown⟩
    · refine ⟨_, _, by rw [SetOperation.apply, hinsert], hexact, ?_⟩
      intro tx' htx'
      rcases Multiset.mem_cons.mp htx' with rfl | htx'
      · exact hvalid.known
      · exact hknown tx' htx'
  | evictOne =>
    rcases h.evictOne chance with ⟨_, hevict⟩ |
      ⟨_, s', tx, removed, rest, hevict, hexact, hremoves, _⟩
    · right
      rw [SetOperation.apply, hevict]
      rfl
    · left
      exact ⟨s', rest, by rw [SetOperation.apply, hevict]; rfl, hexact, hknown.mono hremoves.le⟩
  | removeAllThat predicate =>
    left
    obtain ⟨s', ids, rest, hremove, hexact, hle, _⟩ :=
      h.removeAllFrom chance.iteration (chance.iteration.list (s.matching predicate))
    refine ⟨s', rest, ?_, hexact, hknown.mono hle⟩
    rw [SetOperation.apply, VerifiedSet.removeAllThat, hremove]
    rfl
  | clearMinedDependencies minedIds =>
    exact .inl ⟨_, txs, rfl, h.clearMinedDependencies chance.iteration minedIds, hknown⟩
  | clear =>
    exact .inl ⟨_, 0, rfl, .empty, fun tx htx => absurd htx (Multiset.notMem_zero tx)⟩

/-- Run lemma. -/
theorem SetReaches.exact {ops : List SetOperation} (hreach : SetReaches ops s)
    (hops : ∀ op ∈ ops, op.Valid txOf) : ∃ txs, Exact s txs ∧ AllKnown txOf txs := by
  induction hreach with
  | empty => exact ⟨0, .empty, fun tx htx => absurd htx (Multiset.notMem_zero tx)⟩
  | step _ hstep ih =>
    obtain ⟨txs, hexact, hknown⟩ := ih fun op hop => hops op (mem_append_left _ hop)
    have hvalid := hops _ (mem_append_right _ mem_cons_self)
    rcases hexact.apply hknown hvalid with ⟨s', txs', happly, hexact', hknown'⟩ | happly
    · rw [happly] at hstep
      cases hstep
      exact ⟨txs', hexact', hknown'⟩
    · rw [happly] at hstep
      cases hstep

/-- The caches of every reached set are exact for the transactions it holds.
No total underflows, `remove` removes a transaction and its transitive
dependents with the transaction last, and a rejected insertion changes
nothing. -/
theorem verified_set_exact {ops : List SetOperation} (hops : ∀ op ∈ ops, op.Valid txOf)
    (hreach : SetReaches ops s) :
    ∃ txs, Exact s txs ∧
      (∀ chance (op : SetOperation), op.Valid txOf → op.apply chance s ≠ .error .underflow) ∧
      (∀ it key, key ∈ s.transactions → ∃ s' removed rest, s.remove it key = .ok (s', removed) ∧
        Exact s' rest ∧ RemovesExactly s key txs rest removed) ∧
      ∀ tx outpoints height e, (s.insert tx outpoints height).1 = .error e →
        (s.insert tx outpoints height).2 = s := by
  obtain ⟨txs, hexact, hknown⟩ := hreach.exact hops
  refine ⟨txs, hexact, ?_, ?_, ?_⟩
  · intro chance op hvalid hunderflow
    rcases hexact.apply hknown hvalid with ⟨s', txs', happly, _⟩ | happly
    · rw [happly] at hunderflow
      cases hunderflow
    · rw [happly] at hunderflow
      cases hunderflow
  · intro it key hkey
    obtain ⟨s', removed, rest, hremove, hexact', hremoves, _⟩ := hexact.remove it hkey
    exact ⟨s', removed, rest, hremove, hexact', hremoves⟩
  · intro tx outpoints height e herror
    unfold VerifiedSet.insert at herror ⊢
    split
    · rfl
    · rename_i hconflicts
      rw [if_neg hconflicts] at herror
      split
      · rfl
      · rename_i hmissing
        rw [if_neg hmissing] at herror
        cases herror

end Runs

/-! ## Samples -/

/-- Sets are visited in the order of the bytes of their elements. -/
def sampleIteration : Iteration Hash :=
  .byKey (fun hash => leNat hash.data) fun a b h => FixedBytes.ext (leNat_injective (by
    rw [a.length_data, b.length_data]) h)

/-- The first element is drawn. -/
def sampleChance : Chance where
  iteration := sampleIteration
  draw s := (sampleIteration.list s).headD (.fill 32 0)
  draw_mem := by
    intro s hs
    obtain ⟨a, ha⟩ := hs
    rw [← sampleIteration.mem_list] at ha
    rw [← sampleIteration.mem_list]
    cases hlist : sampleIteration.list s with
    | nil =>
      rw [hlist] at ha
      cases ha
    | cons b rest => exact mem_cons_self

/-- A transaction with one input and one output. -/
def sampleEffects (id spent : UInt8) : Transaction where
  hash := .fill 32 id
  version := 5
  inputs := [.prevOut ⟨.fill 32 spent, 0⟩]
  outputs := [⟨⟨1, by decide, by decide⟩, []⟩]
  sproutBundle := none
  saplingBundle := none
  orchardBundle := none
  ironwoodBundle := none

def sampleTx (id spent : UInt8) : VerifiedUnminedTx where
  transaction := ⟨.legacy (.fill 32 id), sampleEffects id spent, rfl, 300,
    ⟨0, by decide, by decide⟩, none⟩
  minerFee := ⟨0, by decide, by decide⟩
  legacySigopCount := 0
  p2shSigopCount := 0
  unpaidActions := 0
  height := none

/-- Transaction 2 spends the output of transaction 1. -/
def sampleTxOf (hash : Hash) : Transaction :=
  if hash = .fill 32 1 then sampleEffects 1 9 else sampleEffects 2 1

def sampleInserts : List SetOperation :=
  [.insert (sampleTx 1 9) [] none, .insert (sampleTx 2 1) [⟨.fill 32 1, 0⟩] none]

theorem sampleInserts_valid : ∀ op ∈ sampleInserts, op.Valid sampleTxOf := by
  intro op hop
  simp only [sampleInserts, mem_cons, not_mem_nil, or_false] at hop
  rcases hop with rfl | rfl
  · exact ⟨by decide, .inl (by decide)⟩
  · exact ⟨by decide, .inl (by decide)⟩

def sampleFirst : VerifiedSet := (VerifiedSet.insert {} (sampleTx 1 9) [] none).2

def sampleSecond : VerifiedSet := (sampleFirst.insert (sampleTx 2 1) [⟨.fill 32 1, 0⟩] none).2

theorem sampleSecond_reached : SetReaches sampleInserts sampleSecond := by
  have hfirst : SetReaches ([] ++ [.insert (sampleTx 1 9) [] none]) sampleFirst :=
    @SetReaches.step [] {} sampleFirst (.insert (sampleTx 1 9) [] none) sampleChance .empty rfl
  exact @SetReaches.step _ _ _ (.insert (sampleTx 2 1) [⟨.fill 32 1, 0⟩] none) sampleChance
    hfirst rfl

/-- The removal of the first of two transactions removes both. -/
theorem verified_set_exact_sample :
    ∃ txs, Exact sampleSecond txs ∧ ∃ s' removed rest,
      sampleSecond.remove sampleIteration (.fill 32 1) = .ok (s', removed) ∧ Exact s' rest ∧
      RemovesExactly sampleSecond (.fill 32 1) txs rest removed := by
  obtain ⟨txs, hexact, _, hremove, _⟩ :=
    verified_set_exact sampleInserts_valid sampleSecond_reached
  exact ⟨txs, hexact, hremove sampleIteration (.fill 32 1) (by decide +kernel)⟩

end Wolf.Mempool
