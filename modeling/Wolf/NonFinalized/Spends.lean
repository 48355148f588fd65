import Wolf.Framework.LineLoop
import Wolf.NonFinalized.BestChain
import Wolf.NonFinalized.Paths

/-! # Transparent spends along a path

The unspent outputs that a block may spend are spread over the database,
the created outputs of a chain, and the spent outputs of the chain that
hide some of both. Pushed blocks extend the two maps, popped tips and
roots are taken out of them, and popped roots move to the database.

* `no_double_spend`: no reached chain spends an output twice. -/

namespace Wolf.NonFinalized

open Ledger List Option

variable {H : Type} {tx : Transaction} {height : Nat} {block : Block}

/-! ## The outputs of a path -/

/-- Transaction ids are unique along a path. -/
def IdsUnique (path : List SemanticallyVerifiedBlock) : Prop :=
  ((transactionsOf path).map fun tx => tx.hash).Nodup

/-- Spends are sound along a path, and coinbase outputs mature before they
are spent. -/
structure PathSpends (path : List SemanticallyVerifiedBlock) : Prop where
  sound : SpendsSound (transactionsOf path)
  mature : ∀ b ∈ path, ∀ tx ∈ b.block.transactions, ∀ outpoint ∈ tx.spentOutpoints, ∀ u,
    (outpoint, u) ∈ createdOutputs path → u.utxo.fromCoinbase = true →
    u.utxo.height + minTransparentCoinbaseMaturity ≤ b.height

section Outputs

variable {path more : List SemanticallyVerifiedBlock} {o : OutPoint} {u v : OrderedUtxo}

theorem transactionsOf_append :
    transactionsOf (path ++ more) = transactionsOf path ++ transactionsOf more :=
  flatMap_append

theorem createdOutputs_append :
    createdOutputs (path ++ more) = createdOutputs path ++ createdOutputs more :=
  flatMap_append

theorem IdsUnique.of_append (h : IdsUnique (path ++ more)) : IdsUnique path := by
  unfold IdsUnique at h ⊢
  rw [transactionsOf_append, map_append] at h
  exact (nodup_append.mp h).1

theorem createdOutputs_keys :
    (createdOutputs path).map Prod.fst = (created (transactionsOf path)).map Prod.fst := by
  unfold createdOutputs transactionsOf created
  rw [map_flatMap, map_flatMap, flatMap_assoc]
  apply flatMap_congr
  intro b _
  unfold Block.orderedOutputs
  rw [map_flatMap]
  have hitem : ∀ item ∈ b.block.transactions.zipIdx,
      (item.1.orderedOutputs b.height item.2).map Prod.fst = item.1.newOutputs.map Prod.fst := by
    simp [Transaction.orderedOutputs, Function.comp_def]
  rw [flatMap_congr hitem]
  conv_rhs => rw [← zipIdx_map_fst 0 b.block.transactions, flatMap_map]

theorem mem_created_of_mem (h : (o, u) ∈ createdOutputs path) :
    o ∈ (created (transactionsOf path)).map Prod.fst := by
  rw [← createdOutputs_keys]
  exact mem_map_of_mem h

/-- Different transactions create different outpoints. -/
theorem IdsUnique.outpoints (h : IdsUnique path) : OutpointsUnique (transactionsOf path) := by
  unfold OutpointsUnique created
  rw [map_flatMap, nodup_flatMap]
  simp only [newOutputs_keys]
  constructor
  · intro tx _
    refine nodup_range.map ?_
    intro i j hij
    exact congrArg OutPoint.index hij
  · refine (pairwise_map.mp h).imp ?_
    intro a b hne o ha hb
    obtain ⟨i, _, rfl⟩ := mem_map.mp ha
    obtain ⟨j, _, hj⟩ := mem_map.mp hb
    exact hne (congrArg OutPoint.hash hj).symm

theorem IdsUnique.keys (h : IdsUnique path) : ((createdOutputs path).map Prod.fst).Nodup := by
  rw [createdOutputs_keys]
  exact h.outpoints

/-- An outpoint has one output. -/
theorem IdsUnique.eq (h : IdsUnique path) (hu : (o, u) ∈ createdOutputs path)
    (hv : (o, v) ∈ createdOutputs path) : u = v :=
  congrArg Prod.snd (inj_on_of_nodup_map h.keys hu hv rfl)

/-- No outpoint is created in both parts of a path. -/
theorem IdsUnique.disjoint (h : IdsUnique (path ++ more))
    (hpath : o ∈ (created (transactionsOf path)).map Prod.fst)
    (hmore : o ∈ (created (transactionsOf more)).map Prod.fst) : False := by
  have hunique := h.outpoints
  unfold OutpointsUnique at hunique
  rw [transactionsOf_append, created_append, map_append] at hunique
  exact (nodup_append.mp hunique).2.2 o hpath o hmore rfl

/-- An output of a block, with its transaction. -/
theorem mem_orderedOutputs (h : (o, u) ∈ block.orderedOutputs height) :
    ∃ tx, (tx, u.txIndexInBlock) ∈ block.transactions.zipIdx ∧
      ∃ index < tx.outputs.length, o = ⟨tx.hash, index⟩ := by
  obtain ⟨⟨tx, i⟩, htx, hentry⟩ := mem_flatMap.mp h
  obtain ⟨entry, hmem, heq⟩ := mem_map.mp hentry
  cases heq
  refine ⟨tx, htx, ?_⟩
  have hkey := mem_map_of_mem (f := Prod.fst) hmem
  rw [newOutputs_keys] at hkey
  obtain ⟨index, hindex, hkey⟩ := mem_map.mp hkey
  exact ⟨index, mem_range.mp hindex, hkey.symm⟩

variable {K V : Type} [DecidableEq K] {entries : List (K × V)} {map : HashMap K V} {key : K}

theorem extendMap_of_notMem (h : key ∉ entries.map Prod.fst) :
    (extendMap map entries).lookup key = map.lookup key := by
  induction entries generalizing map with
  | nil => rfl
  | cons entry rest ih =>
    rw [map_cons, mem_cons, not_or] at h
    exact (ih h.2).trans (AList.lookup_insert_ne h.1)

theorem extendMap_of_mem {value : V} (hkeys : (entries.map Prod.fst).Nodup)
    (h : (key, value) ∈ entries) : (extendMap map entries).lookup key = some value := by
  induction entries generalizing map with
  | nil => cases h
  | cons entry rest ih =>
    rw [map_cons, nodup_cons] at hkeys
    rcases mem_cons.mp h with rfl | h
    · exact (extendMap_of_notMem hkeys.1).trans (AList.lookup_insert _)
    · exact ih hkeys.2 h

/-- The new outputs of a block on a path. -/
theorem IdsUnique.lookup_newOutputs (h : IdsUnique path) {b : SemanticallyVerifiedBlock}
    (hb : b ∈ path) :
    b.newOutputs.lookup o = some u ↔ (o, u) ∈ b.block.orderedOutputs b.height := by
  have hkeys := h.keys
  unfold createdOutputs at hkeys
  rw [map_flatMap, nodup_flatMap] at hkeys
  constructor
  · intro hlookup
    rcases extendMap_lookup hlookup with hmem | hnone
    · exact hmem
    · cases hnone
  · intro hmem
    exact extendMap_of_mem (hkeys.1 b hb) hmem

end Outputs

/-! ## The unspent view -/

/-- The finalized outputs and the created outputs of a chain, without its
spent outputs. -/
def unspentView (db : ZebraDb H) (c : Chain H) (outpoint : OutPoint) : Option OrderedUtxo :=
  if outpoint ∈ c.spentUtxos then none
  else (c.createdUtxos.lookup outpoint).or (db.utxo outpoint)

section View

variable {rules : Rules H} {db : ZebraDb H} {c : Chain H} {bs : List ContextuallyVerifiedBlock}
  {o : OutPoint} {u : OrderedUtxo}

/-- The blocks of a chain without what their context added. -/
def semantic (bs : List ContextuallyVerifiedBlock) : List SemanticallyVerifiedBlock :=
  bs.map fun b => b.toSemanticallyVerifiedBlock

theorem transactionsOf_semantic : transactionsOf (semantic bs) = chainTransactions bs :=
  flatMap_map _ _ _

/-- The database is exact for the finalized chain. -/
theorem ZebraDb.utxo_eq_some (hids : IdsUnique db.blocks) :
    db.utxo o = some u ↔
      (o, u) ∈ createdOutputs db.blocks ∧ o ∉ spent (transactionsOf db.blocks) := by
  unfold ZebraDb.utxo
  by_cases hspent : o ∈ spent (transactionsOf db.blocks)
  · simp [hspent]
  · simp only [hspent, if_false, map_eq_some_iff, not_false_eq_true, and_true]
    constructor
    · rintro ⟨⟨o', u'⟩, hfind, rfl⟩
      have hkey := List.find?_some hfind
      simp only [decide_eq_true_eq] at hkey
      subst hkey
      exact mem_of_find?_eq_some hfind
    · intro hmem
      have hsome : ((createdOutputs db.blocks).find? fun entry => entry.1 = o).isSome := by
        rw [List.find?_isSome]
        exact ⟨(o, u), hmem, decide_eq_true rfl⟩
      obtain ⟨⟨o', u'⟩, hfind⟩ := isSome_iff_exists.mp hsome
      have hkey := List.find?_some hfind
      simp only [decide_eq_true_eq] at hkey
      subst hkey
      exact ⟨_, hfind, hids.eq (mem_of_find?_eq_some hfind) hmem⟩

/-- The view holds what the path has created and not spent. -/
theorem unspentView_eq_some (h : c.Contains rules bs) (hids : IdsUnique (db.path bs))
    (hsound : SpendsSound (transactionsOf db.blocks)) :
    unspentView db c o = some u ↔
      (o, u) ∈ createdOutputs (db.path bs) ∧ o ∉ spent (transactionsOf (db.path bs)) := by
  have hpath : db.path bs = db.blocks ++ semantic bs := rfl
  have hcreated : ∀ v, c.createdUtxos.lookup o = some v ↔
      (o, v) ∈ createdOutputs (semantic bs) := by
    intro v
    have hlookup : ∀ b ∈ bs, b.newOutputs.lookup o = some v ↔
        (o, v) ∈ b.block.orderedOutputs b.height := by
      intro b hb
      exact hids.lookup_newOutputs (mem_append_right _ (mem_map_of_mem hb))
    rw [h.lookup_createdUtxos]
    constructor
    · rintro ⟨b, hb, tx, _, index, _, _, hnew⟩
      exact mem_flatMap.mpr ⟨_, mem_map_of_mem hb, (hlookup b hb).mp hnew⟩
    · intro hmem
      obtain ⟨_, hsemantic, hmem⟩ := mem_flatMap.mp hmem
      obtain ⟨b, hb, rfl⟩ := mem_map.mp hsemantic
      obtain ⟨tx, htx, index, hindex, ho⟩ := mem_orderedOutputs hmem
      exact ⟨b, hb, tx, (mem_zipIdx htx).2.2 ▸ getElem_mem _, index, hindex, ho,
        (hlookup b hb).mpr hmem⟩
  have hutxo := @ZebraDb.utxo_eq_some H db o u hids.of_append
  rw [hpath, createdOutputs_append, transactionsOf_append, spent_append, mem_append,
    mem_append, transactionsOf_semantic, ← h.mem_spentUtxos]
  unfold unspentView
  by_cases hspent : o ∈ c.spentUtxos
  · simp [hspent]
  · simp only [hspent, if_false, or_false]
    constructor
    · intro hview
      rcases or_eq_some_iff.mp hview with hnew | ⟨_, hold⟩
      · have hmem := (hcreated u).mp hnew
        refine ⟨.inr hmem, ?_⟩
        -- What the finalized chain spends, it has created.
        intro hfinal
        exact hids.disjoint (hsound.spent_subset hfinal) (mem_created_of_mem hmem)
      · exact ⟨.inl (hutxo.mp hold).1, (hutxo.mp hold).2⟩
    · rintro ⟨hmem | hmem, hfinal⟩
      · have hnone : c.createdUtxos.lookup o = none := by
          rw [eq_none_iff_forall_not_mem]
          intro v hv
          exact hids.disjoint (mem_created_of_mem hmem) (mem_created_of_mem ((hcreated v).mp hv))
        rw [hnone, none_or]
        exact hutxo.mpr ⟨hmem, hfinal⟩
      · rw [(hcreated u).mpr hmem, some_or]

end View

/-! ## The checks of a block -/

section Loop

variable {checks : Checks H} {db : ZebraDb H} {c : Chain H} {b : SemanticallyVerifiedBlock}
  {o : OutPoint} {u : OrderedUtxo} {spends spends' : HashMap OutPoint OrderedUtxo} {index : Nat}

/-- One spend passed its checks. -/
def SpendChecked (checks : Checks H) (db : ZebraDb H) (c : Chain H) (b : SemanticallyVerifiedBlock)
    (tx : Transaction) (index : Nat) (outpoint : OutPoint) : Prop :=
  ∃ u, transparentSpendChainOrder db c b index outpoint = .ok u ∧
    transparentCoinbaseSpend checks tx b.height outpoint u.utxo = .ok ()

/-- The outpoints that some transactions spend. -/
def spentBy (items : List (Transaction × Nat)) : List OutPoint :=
  items.flatMap fun item => item.1.spentOutpoints

/-- The spends hold each of some outpoints once. -/
def HoldsOnce (outpoints : List OutPoint) (spends : HashMap OutPoint OrderedUtxo) : Prop :=
  outpoints.Nodup ∧ ∀ o, o ∈ spends ↔ o ∈ outpoints

theorem HoldsOnce.step {outpoints : List OutPoint} (h : HoldsOnce outpoints spends)
    (hcheck : checkSpend checks db c b tx index spends o = .ok spends') :
    HoldsOnce (outpoints ++ [o]) spends' ∧ SpendChecked checks db c b tx index o := by
  obtain ⟨u, horder, hcheck⟩ := of_bind hcheck
  obtain ⟨_, hmature, hcheck⟩ := of_bind hcheck
  obtain ⟨hnew, hcheck⟩ := of_rejectIf_bind hcheck
  cases hcheck
  have hnotMem : o ∉ outpoints := fun hmem => hnew ((h.2 o).mpr hmem)
  refine ⟨⟨concat_eq_append ▸ List.Nodup.concat hnotMem h.1, ?_⟩, u, horder, hmature⟩
  intro o'
  rw [AList.mem_insert, h.2, mem_append, mem_singleton, or_comm]

/-- The spends of one transaction. -/
theorem HoldsOnce.run {before outpoints : List OutPoint} (h : HoldsOnce before spends)
    (hloop : outpoints.foldlM (checkSpend checks db c b tx index) spends = .ok spends') :
    HoldsOnce (before ++ outpoints) spends' ∧
      ∀ o ∈ outpoints, SpendChecked checks db c b tx index o := by
  refine foldlM_induct (P := fun done spends => HoldsOnce (before ++ done) spends ∧
    ∀ o ∈ done, SpendChecked checks db c b tx index o) ?_ ?_ hloop
  · rw [append_nil]
    exact ⟨h, fun o ho => by cases ho⟩
  · intro done o spends spends' hdone hcheck
    obtain ⟨hholds, hchecked⟩ := hdone.1.step hcheck
    rw [← append_assoc]
    exact ⟨hholds, forall_mem_append.mpr ⟨hdone.2, forall_mem_singleton.mpr hchecked⟩⟩

/-- A block that passes its checks spends every outpoint once, and every
spend passed its own checks. -/
theorem transparentSpend_eq_ok (h : transparentSpend checks db c b = .ok spends) :
    (spent b.block.transactions).Nodup ∧ ∀ item ∈ b.block.transactions.zipIdx,
      ∀ o ∈ item.1.spentOutpoints, SpendChecked checks db c b item.1 item.2 o := by
  obtain ⟨found, hloop, _⟩ := of_bind h
  have hall : HoldsOnce (spentBy b.block.transactions.zipIdx) found ∧
      ∀ item ∈ b.block.transactions.zipIdx, ∀ o ∈ item.1.spentOutpoints,
        SpendChecked checks db c b item.1 item.2 o := by
    refine foldlM_induct (P := fun done spends => HoldsOnce (spentBy done) spends ∧
      ∀ item ∈ done, ∀ o ∈ item.1.spentOutpoints,
        SpendChecked checks db c b item.1 item.2 o) ?_ ?_ hloop
    · refine ⟨⟨nodup_nil, ?_⟩, fun item hitem => by cases hitem⟩
      simp [spentBy, AList.notMem_empty]
    · intro done item spends spends' hdone htx
      obtain ⟨hholds, hchecked⟩ := hdone.1.run htx
      refine ⟨?_, ?_⟩
      · simpa [spentBy] using hholds
      · exact forall_mem_append.mpr ⟨hdone.2, forall_mem_singleton.mpr hchecked⟩
  have hspent : spentBy b.block.transactions.zipIdx = spent b.block.transactions := by
    unfold spentBy spent
    conv_rhs => rw [← zipIdx_map_fst 0 b.block.transactions, flatMap_map]
  exact ⟨hspent ▸ hall.1.1, hall.2⟩

/-- Where a spent output was found: in an earlier transaction of the block,
or in the view. -/
theorem transparentSpendChainOrder_eq_ok (h : transparentSpendChainOrder db c b index o = .ok u) :
    (b.newOutputs.lookup o = some u ∧ u.txIndexInBlock < index) ∨ unspentView db c o = some u := by
  unfold transparentSpendChainOrder at h
  split at h
  · rename_i output hlookup
    split at h
    · cases h
    · rename_i hlt
      cases h
      exact .inl ⟨hlookup, Nat.not_le.mp hlt⟩
  · split at h
    · cases h
    · rename_i hspent
      right
      rw [okOr_eq_ok, Chain.unspentUtxo, if_neg hspent] at h
      rw [unspentView, if_neg hspent]
      exact h

end Loop

/-! ## Commits -/

section Extend

variable {checks : Checks H} {blockOf : Hash → Block} {s : NonFinalizedState H} {db : ZebraDb H}
  {p m : Chain H} {a : SemanticallyVerifiedBlock} {b : ContextuallyVerifiedBlock}
  {path : List SemanticallyVerifiedBlock} {o : OutPoint} {u : OrderedUtxo}

/-- Every spend of a block above a path was found: in an earlier transaction
of the block, or unspent on the path. -/
structure SpendsFound (path : List SemanticallyVerifiedBlock) (a : SemanticallyVerifiedBlock) :
    Prop where
  once : (spent a.block.transactions).Nodup
  found : ∀ item ∈ a.block.transactions.zipIdx, ∀ o ∈ item.1.spentOutpoints, ∃ u,
    ((o, u) ∈ a.block.orderedOutputs a.height ∧ u.txIndexInBlock < item.2 ∨
      (o, u) ∈ createdOutputs path ∧ o ∉ spent (transactionsOf path)) ∧
    (u.utxo.fromCoinbase = true → u.utxo.height + minTransparentCoinbaseMaturity ≤ a.height)

/-- The checks of a block in terms of its path. -/
theorem CommitSpec.spendsFound (h : CommitSpec checks blockOf s db a p b m)
    (hids : IdsUnique (db.path p.blocks.items ++ [a]))
    (hsound : SpendsSound (transactionsOf db.blocks)) : SpendsFound (db.path p.blocks.items) a := by
  obtain ⟨spends, hspends, _⟩ := h.accepted.spends
  obtain ⟨honce, hchecked⟩ := transparentSpend_eq_ok hspends
  refine ⟨honce, ?_⟩
  intro item hitem o ho
  obtain ⟨u, horder, hmature⟩ := hchecked item hitem o ho
  refine ⟨u, ?_, ?_⟩
  · rcases transparentSpendChainOrder_eq_ok horder with ⟨hnew, hlt⟩ | hview
    · have hmem : a ∈ db.path p.blocks.items ++ [a] := mem_append_right _ mem_cons_self
      exact .inl ⟨(hids.lookup_newOutputs hmem).mp hnew, hlt⟩
    · exact .inr ((unspentView_eq_some h.parent.contains hids.of_append hsound).mp hview)
  · intro hcoinbase
    unfold transparentCoinbaseSpend at hmature
    rw [if_neg (by simp [hcoinbase])] at hmature
    split at hmature
    · exact Nat.not_lt.mp (rejectIf_eq_ok.mp hmature)
    · cases hmature

theorem transactionsOf_concat :
    transactionsOf (path ++ [a]) = transactionsOf path ++ a.block.transactions := by
  simp [transactionsOf]

theorem createdOutputs_concat :
    createdOutputs (path ++ [a]) = createdOutputs path ++ a.block.orderedOutputs a.height := by
  simp [createdOutputs]

/-- The outputs of a block above a path are not yet spent. -/
theorem IdsUnique.notMem_spent (hids : IdsUnique (path ++ [a]))
    (hsound : SpendsSound (transactionsOf path))
    (hmem : (o, u) ∈ a.block.orderedOutputs a.height) : o ∉ spent (transactionsOf path) := by
  intro hspent
  have hown : (o, u) ∈ createdOutputs [a] :=
    mem_flatMap.mpr ⟨a, mem_singleton_self a, hmem⟩
  exact hids.disjoint (hsound.spent_subset hspent) (mem_created_of_mem hown)

theorem SpendsFound.sound (h : SpendsFound path a) (hids : IdsUnique (path ++ [a]))
    (hsound : SpendsSound (transactionsOf path)) : SpendsSound (transactionsOf (path ++ [a])) := by
  rw [transactionsOf_concat]
  -- A spend at a position of the new block.
  have hown : ∀ before tx after, a.block.transactions = before ++ tx :: after →
      ∀ o ∈ tx.spentOutpoints,
        o ∈ (created (transactionsOf path ++ before)).map Prod.fst ∧
          o ∉ spent (transactionsOf path) := by
    intro before tx after hsplit o ho
    have hitem : (tx, before.length) ∈ a.block.transactions.zipIdx := by
      rw [hsplit, mem_zipIdx_iff_getElem?, List.getElem?_append_right (Nat.le_refl _)]
      simp
    obtain ⟨u, ⟨hmem, hlt⟩ | ⟨hmem, hunspent⟩, _⟩ := h.found _ hitem o ho
    · rw [created_append, map_append]
      refine ⟨mem_append_right _ ?_, hids.notMem_spent hsound hmem⟩
      -- The output is one of the transactions before.
      obtain ⟨earlier, hearlier, index, hindex, rfl⟩ := mem_orderedOutputs hmem
      rw [hsplit, mem_zipIdx_iff_getElem?, List.getElem?_append_left hlt] at hearlier
      unfold created
      rw [map_flatMap]
      refine mem_flatMap.mpr ⟨earlier, mem_of_getElem? hearlier, ?_⟩
      rw [newOutputs_keys]
      exact mem_map_of_mem (mem_range.mpr hindex)
    · rw [created_append, map_append]
      exact ⟨mem_append_left _ (mem_created_of_mem hmem), hunspent⟩
  constructor
  · rw [spent_append, nodup_append]
    refine ⟨hsound.once, h.once, ?_⟩
    intro o hold o' hnew heq
    subst heq
    obtain ⟨tx, htx, ho⟩ := mem_flatMap.mp hnew
    obtain ⟨before, after, hsplit⟩ := append_of_mem htx
    exact (hown before tx after hsplit o ho).2 hold
  · intro before tx after hsplit o ho
    rcases append_eq_append_iff.mp hsplit with ⟨own, rfl, hblock⟩ | ⟨rest, hpath, hrest⟩
    · exact (hown own tx after hblock o ho).1
    · cases rest with
      | nil =>
        rw [append_nil] at hpath
        have hfirst := (hown [] tx after hrest.symm o ho).1
        rw [append_nil, hpath] at hfirst
        exact hfirst
      | cons first rest =>
        obtain ⟨rfl, _⟩ := List.cons.inj hrest
        exact hsound.earlier before tx rest hpath o ho

/-- An accepted block keeps the path sound. -/
theorem PathSpends.extend (h : PathSpends path) (hfound : SpendsFound path a)
    (hids : IdsUnique (path ++ [a])) : PathSpends (path ++ [a]) := by
  refine ⟨hfound.sound hids h.sound, ?_⟩
  intro b hb tx htx o ho u hmem hcoinbase
  rcases mem_append.mp hb with hb | hb
  · rw [createdOutputs_concat] at hmem
    rcases mem_append.mp hmem with hmem | hmem
    · exact h.mature b hb tx htx o ho u hmem hcoinbase
    · -- An old spend does not refer to a new output.
      have hspent : o ∈ spent (transactionsOf path) :=
        mem_flatMap.mpr ⟨tx, mem_flatMap.mpr ⟨b, hb, htx⟩, ho⟩
      exact absurd hspent (hids.notMem_spent h.sound hmem)
  · rw [mem_singleton] at hb
    subst hb
    obtain ⟨i, hi, rfl⟩ := getElem_of_mem htx
    have hitem : (b.block.transactions[i], i) ∈ b.block.transactions.zipIdx := by
      rw [mem_zipIdx_iff_getElem?]
      exact List.getElem?_eq_getElem hi
    obtain ⟨v, hv, hmature⟩ := hfound.found _ hitem o ho
    have hcreated : (o, v) ∈ createdOutputs (path ++ [b]) := by
      rw [createdOutputs_concat]
      rcases hv with ⟨hv, _⟩ | ⟨hv, _⟩
      · exact mem_append_right _ hv
      · exact mem_append_left _ hv
    rw [hids.eq hmem hcreated] at hcoinbase ⊢
    exact hmature hcoinbase

/-! ## Runs -/

/-- Along every path of a reached chain each outpoint is spent at most once,
by a transaction after the one that creates it and not before a coinbase
output has matured, and the view holds what the path leaves unspent. -/
theorem no_double_spend {start t : System H} {ops : List Operation} {c : Chain H}
    (hstart : start.Initial blockOf) (hfinalized : PathSpends start.finalized.blocks)
    (hops : ∀ op ∈ ops, ∀ hash, op ≠ .reconsiderBlock hash)
    (hrun : Reaches checks blockOf start ops t) (hc : c ∈ t.state.chainSet)
    (hids : IdsUnique (t.finalized.path c.blocks.items)) :
    PathSpends (t.finalized.path c.blocks.items) ∧
    ∀ outpoint u, unspentView t.finalized c outpoint = some u ↔
      (outpoint, u) ∈ createdOutputs (t.finalized.path c.blocks.items) ∧
        outpoint ∉ spent (transactionsOf (t.finalized.path c.blocks.items)) := by
  have hwell : t.WellFormed checks blockOf := hrun.wellFormed hstart.wellFormed
  have hpaths : PathInvariant (fun path => IdsUnique path → PathSpends path) t := by
    refine Reaches.pathInvariant hstart.wellFormed ⟨fun _ => hfinalized, ?_⟩ hops ?_ hrun
    · intro c hc
      rw [← SortedList.mem_items, hstart.chains] at hc
      cases hc
    · intro v _ op _ a p b m hspec _ hparent hids
      rw [ZebraDb.path_concat, hspec.accepted.block] at hids ⊢
      have hpath := hparent hids.of_append
      have hfinalized : SpendsSound (transactionsOf v.finalized.blocks) := by
        have hsound := hpath.sound
        rw [transactionsOf_path] at hsound
        exact hsound.of_append
      exact hpath.extend (hspec.spendsFound hids hfinalized) hids
  refine ⟨hpaths.chains c hc _ [] (append_nil _).symm hids, ?_⟩
  intro outpoint u
  exact unspentView_eq_some (hwell.attached c hc).contains hids
    (hpaths.finalized hids.of_append).sound

end Extend

/-! ## Samples -/

theorem pathSpends_of_spent_nil {path : List SemanticallyVerifiedBlock}
    (h : spent (transactionsOf path) = []) : PathSpends path := by
  have hnone : ∀ tx ∈ transactionsOf path, tx.spentOutpoints = [] :=
    flatMap_eq_nil_iff.mp h
  refine ⟨⟨h ▸ nodup_nil, ?_⟩, ?_⟩
  · intro before tx after hsplit o ho
    rw [hnone tx (hsplit ▸ mem_append_right _ mem_cons_self)] at ho
    cases ho
  · intro b hb tx htx o ho
    rw [hnone tx (mem_flatMap.mpr ⟨b, hb, htx⟩)] at ho
    cases ho

/-- An output is spent in the block that creates it, and what is left can be
spent. -/
theorem no_double_spend_sample :
    ∃ t c u, Reaches sampleChecks sampleBlockOf sampleSystem
        [.commit transferBlock] t ∧
      c ∈ t.state.chainSet ∧ PathSpends (t.finalized.path c.blocks.items) ∧
      unspentView t.finalized c ⟨.fill 32 100, 0⟩ = none ∧
      unspentView t.finalized c ⟨.fill 32 101, 0⟩ = some u := by
  obtain ⟨t, ht, hcheck⟩ := (any_eq_true _ _).mp
    (show (sampleSystem.applyAll sampleChecks [.commit transferBlock]).any (fun t =>
      t.state.chainSet.items.any fun c =>
        decide (t.finalized.path c.blocks.items =
          sampleDb.blocks ++ [transferBlock])) = true by
      decide)
  obtain ⟨c, hc, hpath⟩ := any_eq_true.mp hcheck
  rw [decide_eq_true_eq] at hpath
  have hrun : Reaches sampleChecks sampleBlockOf sampleSystem [.commit transferBlock] t := by
    refine System.applyAll_reaches ht (forall_mem_singleton.mpr ?_)
    intro b hb
    cases hb
    rfl
  have hops : ∀ op ∈ [Operation.commit transferBlock],
      ∀ hash, op ≠ .reconsiderBlock hash := forall_mem_singleton.mpr nofun
  have hids : IdsUnique (t.finalized.path c.blocks.items) := by
    rw [hpath]
    unfold IdsUnique
    decide
  obtain ⟨hspends, hview⟩ := no_double_spend sampleSystem_initial
    (pathSpends_of_spent_nil (by decide)) hops hrun hc hids
  rw [hpath] at hview
  have hspent : unspentView t.finalized c ⟨.fill 32 100, 0⟩ = none := by
    rw [eq_none_iff_forall_not_mem]
    intro u hu
    exact ((hview _ u).mp hu).2 (by decide)
  exact ⟨t, c, ⟨⟨⟨smallValue, [2]⟩, 11, false⟩, 2⟩, hrun, hc, hspends, hspent,
    (hview _ _).mpr (by decide)⟩

end Wolf.NonFinalized
