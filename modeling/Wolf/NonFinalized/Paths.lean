import Wolf.NonFinalized.Forks

/-! # Paths of blocks

The finalized chain followed by the blocks of a non-finalized chain.
Finalization moves a block from the second part of a path to the first
part and does not change the path, so a property of paths that every
commit keeps holds of all chains and of all their forks. -/

namespace Wolf.NonFinalized

open Ledger List

variable {H : Type}

/-! ## Invariants of paths -/

/-- The finalized chain followed by some blocks. -/
def ZebraDb.path (db : ZebraDb H) (bs : List ContextuallyVerifiedBlock) :
    List SemanticallyVerifiedBlock :=
  db.blocks ++ bs.map fun b => b.toSemanticallyVerifiedBlock

/-- A property of the paths of all chains and of all their forks. -/
structure PathInvariant (P : List SemanticallyVerifiedBlock → Prop) (t : System H) : Prop where
  finalized : P t.finalized.blocks
  chains : ∀ c ∈ t.state.chainSet, ∀ kept above, c.blocks.items = kept ++ above →
    P (t.finalized.path kept)

section Invariants

variable {checks : Checks H} {blockOf : Hash → Block} {P : List SemanticallyVerifiedBlock → Prop}
  {s s' : NonFinalizedState H} {db db' : ZebraDb H} {t u : System H} {op : Operation}
  {bs : List ContextuallyVerifiedBlock} {b : ContextuallyVerifiedBlock} {c p m : Chain H}

@[simp] theorem ZebraDb.path_nil : db.path [] = db.blocks := append_nil _

theorem ZebraDb.path_concat :
    db.path (bs ++ [b]) = db.path bs ++ [b.toSemanticallyVerifiedBlock] := by
  rw [ZebraDb.path, map_append, ← append_assoc]
  rfl

/-- A finalized block stays on the path. -/
theorem ZebraDb.path_finalized (hlower : db'.lower = db.blocks)
    (htop : db'.top = b.toSemanticallyVerifiedBlock) : db'.path bs = db.path (b :: bs) := by
  rw [ZebraDb.path, ZebraDb.blocks, hlower, htop, append_assoc]
  rfl

/-- The block is the one of the operation, which may have been validated
before. -/
def Operation.Commits (checks : Checks H) (t : System H) (b : SemanticallyVerifiedBlock)
    (op : Operation) : Prop :=
  op = .commitBlock b ∨ op = .commitNewChain b ∨
    op = .commit b ∧ t.state.initialContextualValidity checks t.finalized b = .ok ()

section

variable (h : PathInvariant P ⟨s, db⟩)

include h

section

variable (hwell : System.WellFormed checks blockOf ⟨s, db⟩)

include hwell

theorem PathInvariant.trimmed (hc : c ∈ s.chainSet) (htrimmed : Chain.Trimmed checks.toRules c p)
    {kept above : List ContextuallyVerifiedBlock} (hkept : p.blocks.items = kept ++ above) :
    P (db.path kept) := by
  obtain ⟨_, rest, hrest⟩ := (hwell.attached c hc).trimmed htrimmed
  apply h.chains c hc kept (above ++ rest)
  rw [hrest, hkept, append_assoc]

theorem PathInvariant.commit {a : SemanticallyVerifiedBlock}
    (hspec : CommitSpec checks blockOf s db a p b m) {keep : Chain H → Bool}
    (hextend : P (db.path p.blocks.items) → P (db.path (p.blocks.items ++ [b]))) :
    PathInvariant P ⟨s.insertWith m keep, db⟩ where
  finalized := h.finalized
  chains := by
    have hparent : ∀ kept above, p.blocks.items = kept ++ above → P (db.path kept) := by
      intro kept above hkept
      rcases hspec.source with hnew | ⟨c₀, hc₀, htrimmed, _⟩
      · rw [(Chain.Contains.new hnew).blocks] at hkept
        rw [(append_eq_nil_iff.mp hkept.symm).1, ZebraDb.path_nil]
        exact h.finalized
      · exact h.trimmed hwell hc₀ htrimmed hkept
    intro c hc kept above hkept
    rcases (NonFinalizedState.mem_insertWith hc).1 with hc | rfl
    · exact h.chains c hc kept above hkept
    · -- A fork of the new chain is a fork of the parent chain, or all of it.
      rw [hspec.blocks] at hkept
      rcases eq_nil_or_concat above with rfl | ⟨init, last, hlast⟩
      · rw [append_nil] at hkept
        rw [← hkept]
        exact hextend (hparent _ [] (append_nil _).symm)
      · rw [hlast, concat_eq_append, ← append_assoc] at hkept
        exact hparent kept init (append_inj' hkept rfl).1

theorem PathInvariant.finalize {root : ContextuallyVerifiedBlock} {treestate : Treestate H}
    (hfinalize : s.finalize checks = .ok (s', root, treestate))
    (hdb : db.commitFinalizedDirect root treestate = .ok db') : PathInvariant P ⟨s', db'⟩ := by
  obtain ⟨htop, hlower, _⟩ := ZebraDb.commitFinalizedDirect_eq_ok hdb
  have hknown : Known blockOf db'.top :=
    hwell.finalized_concat hfinalize hdb _ (mem_append_right _ mem_cons_self)
  obtain ⟨⟨best, popped, hbest, hpop⟩, _, _, hchains⟩ := NonFinalizedState.finalize_eq_ok hfinalize
  constructor
  · have hmem := SortedList.last?_mem hbest
    obtain ⟨rest, hblocks, _⟩ := (hwell.attached best hmem).contains.popRoot hpop
    have hroot := h.chains best hmem [root] rest hblocks
    rw [← ZebraDb.path_finalized hlower htop, ZebraDb.path_nil] at hroot
    exact hroot
  · intro c hc kept above hkept
    obtain ⟨c₀, hc₀, hwithout⟩ := hchains c hc
    obtain ⟨_, b, hblocks, hb⟩ :=
      (hwell.attached c₀ hc₀).withoutRoot hknown (by rw [htop]) hwithout
    rw [ZebraDb.path_finalized hlower hb.symm]
    apply h.chains c₀ hc₀ (b :: kept) above
    rw [hblocks, hkept]
    rfl

theorem PathInvariant.invalidateBlock {hash : Hash}
    (hinvalidate : s.invalidateBlock checks hash = .ok (.ok s')) : PathInvariant P ⟨s', db⟩ where
  finalized := h.finalized
  chains := by
    intro c hc kept above hkept
    obtain ⟨c₀, hc₀, htrimmed⟩ := NonFinalizedState.invalidateBlock_trimmed hinvalidate hc
    exact h.trimmed hwell hc₀ htrimmed hkept

end

end

/-- Step lemma: only commits have to be looked at. -/
theorem Step.pathInvariant (h : PathInvariant P t) (hwell : t.WellFormed checks blockOf)
    (hstep : Step checks blockOf t op u) (hop : ∀ hash, op ≠ .reconsiderBlock hash)
    (hextend : ∀ a p b m, CommitSpec checks blockOf t.state t.finalized a p b m →
      op.Commits checks t a → P (t.finalized.path p.blocks.items) →
      P (t.finalized.path (p.blocks.items ++ [b]))) : PathInvariant P u := by
  cases hstep.spec hwell with
  | commit hknown hcommits hspec hkeep =>
    exact h.commit hwell hspec (hextend _ _ _ _ hspec hcommits)
  | finalize hfinalize hdb => exact h.finalize hwell hfinalize hdb
  | invalidateBlock hinvalidate => exact h.invalidateBlock hwell hinvalidate
  | reconsiderBlock hreconsider => exact absurd rfl (hop _)

/-- Run lemma. -/
theorem Reaches.pathInvariant {ops : List Operation} (hwell : t.WellFormed checks blockOf)
    (h : PathInvariant P t) (hops : ∀ op ∈ ops, ∀ hash, op ≠ .reconsiderBlock hash)
    (hextend : ∀ v : System H, v.WellFormed checks blockOf → ∀ op ∈ ops, ∀ a p b m,
      CommitSpec checks blockOf v.state v.finalized a p b m → op.Commits checks v a →
      P (v.finalized.path p.blocks.items) → P (v.finalized.path (p.blocks.items ++ [b])))
    (hrun : Reaches checks blockOf t ops u) : PathInvariant P u := by
  induction hrun with
  | refl => exact h
  | @step v w ops op hrun hstep ih =>
    have hv := ih (fun op hop => hops op (mem_append_left _ hop))
      (fun v hv op hop => hextend v hv op (mem_append_left _ hop))
    have hlast : op ∈ ops ++ [op] := mem_append_right _ mem_cons_self
    have hvwell := hrun.wellFormed hwell
    exact hstep.pathInvariant hv hvwell (hops op hlast) (hextend v hvwell op hlast)

end Invariants

/-! ## The maps of a chain -/

section Maps

variable {rules : Rules H} {c : Chain H} {bs : List ContextuallyVerifiedBlock}
  {b : ContextuallyVerifiedBlock} {α : Type} {f : Edit → Option α}

/-- The transactions of the blocks of a chain. -/
def chainTransactions (bs : List ContextuallyVerifiedBlock) : List Transaction :=
  bs.flatMap fun b => b.block.transactions

theorem transactionsOf_path (db : ZebraDb H) :
    transactionsOf (db.path bs) = transactionsOf db.blocks ++ chainTransactions bs := by
  rw [transactionsOf, ZebraDb.path, flatMap_append, flatMap_map]
  rfl

theorem editsOf_eq : editsOf rules bs = ↑(bs.flatMap fun b => b.updateEdits rules.address) := by
  induction bs with
  | nil => rfl
  | cons b bs ih =>
    rw [flatMap_cons, ← Multiset.coe_add, ← ih]
    simp [editsOf]

/-- A filter of the updates of a chain that keeps a fixed part of the
updates of every transaction. -/
theorem filterMap_editsOf {g : Transaction → List α}
    (h : ∀ b ∈ bs, ∀ tx index, (b.updateEditsOf rules.address tx index).filterMap f = g tx) :
    (editsOf rules bs).filterMap f = ↑((chainTransactions bs).flatMap g) := by
  rw [editsOf_eq, Multiset.filterMap_coe, Multiset.coe_eq_coe, filterMap_flatMap,
    chainTransactions, flatMap_assoc]
  apply List.Perm.of_eq
  apply flatMap_congr
  intro b hb
  unfold ContextuallyVerifiedBlock.updateEdits
  rw [filterMap_flatMap]
  have hpair : ∀ item ∈ b.block.transactions.zipIdx,
      (b.updateEditsOf rules.address item.1 item.2).filterMap f = g item.1 :=
    fun item _ => h b hb item.1 item.2
  rw [flatMap_congr hpair]
  conv_rhs => rw [← zipIdx_map_fst 0 b.block.transactions, flatMap_map]

theorem addressEdit_filterMap (h : ∀ address transfer, f (.transfer address transfer) = none)
    (address : Output → Option Address) (utxo : OrderedUtxo) (transfer : Transfer) :
    (addressEdit address utxo transfer).filterMap f = [] := by
  unfold addressEdit
  split
  · simp [h]
  · rfl

section

variable {tx : Transaction} (htransfer : ∀ address transfer, f (.transfer address transfer) = none)
  (hmissing : ∀ p, f (.missing p) = none)

include htransfer hmissing

/-- What a filter of the updates of a transaction keeps. -/
theorem outputEdits_filterMap (hcreated : ∀ o u, f (.created o u) = none) :
    (b.outputEdits rules.address tx).filterMap f = [] := by
  unfold ContextuallyVerifiedBlock.outputEdits
  rw [filterMap_flatMap, flatMap_eq_nil_iff]
  intro index _
  split
  · simp [hmissing]
  · rw [filterMap_cons_none (hcreated _ _)]
    exact addressEdit_filterMap htransfer _ _ _

theorem inputEdits_filterMap :
    (b.inputEdits rules.address tx).filterMap f =
      tx.spentOutpoints.filterMap fun o => f (.spent o tx.hash) := by
  unfold ContextuallyVerifiedBlock.inputEdits
  rw [filterMap_flatMap, filterMap_eq_flatMap_toList]
  apply flatMap_congr
  intro o _
  have hcons : ∀ rest : List Edit, rest.filterMap f = [] →
      (Edit.spent o tx.hash :: rest).filterMap f = (f (.spent o tx.hash)).toList := by
    intro rest hrest
    cases hspent : f (.spent o tx.hash) with
    | none =>
      rw [filterMap_cons_none hspent]
      exact hrest
    | some a =>
      rw [filterMap_cons_some hspent]
      exact congrArg (a :: ·) hrest
  apply hcons
  split
  · simp [hmissing]
  · exact addressEdit_filterMap htransfer _ _ _

end

theorem nullifierEdits_filterMap (tx : Transaction) (pool : Pool) :
    (ContextuallyVerifiedBlock.nullifierEdits tx).filterMap (Edit.nullifierEntry pool) =
      (tx.nullifiers pool).map fun n => (n, tx.hash) := by
  have hpool : ∀ pool', ((tx.nullifiers pool').map fun n =>
      Edit.nullifier pool' n tx.hash).filterMap (Edit.nullifierEntry pool) =
      if pool' = pool then (tx.nullifiers pool').map fun n => (n, tx.hash) else [] := by
    intro pool'
    rw [filterMap_map]
    split
    · rename_i heq
      subst heq
      rw [← filterMap_eq_map]
      apply filterMap_congr
      intro n _
      exact if_pos rfl
    · rename_i hne
      rw [filterMap_eq_nil_iff]
      intro n _
      exact if_neg hne
  unfold ContextuallyVerifiedBlock.nullifierEdits
  rw [filterMap_flatMap]
  simp only [hpool]
  cases pool <;> simp [Pool.all]

theorem nullifierEdits_other (h : ∀ pool n txId, f (.nullifier pool n txId) = none)
    (tx : Transaction) : (ContextuallyVerifiedBlock.nullifierEdits tx).filterMap f = [] := by
  rw [filterMap_eq_nil_iff]
  intro e he
  obtain ⟨pool, _, he⟩ := mem_flatMap.mp he
  obtain ⟨n, _, rfl⟩ := mem_map.mp he
  exact h pool n tx.hash

/-- The nullifier map of a pool holds the nullifiers of the chain, each one
once. -/
theorem Chain.Contains.nullifiers (h : c.Contains rules bs) (pool : Pool) :
    ((chainTransactions bs).flatMap fun tx => tx.nullifiers pool).Nodup ∧
      ∀ n, n ∈ c.nullifiers pool ↔
        n ∈ (chainTransactions bs).flatMap fun tx => tx.nullifiers pool := by
  have hentries : (editsOf rules bs).filterMap (Edit.nullifierEntry pool) =
      ↑((chainTransactions bs).flatMap fun tx =>
        (tx.nullifiers pool).map fun n => (n, tx.hash)) := by
    apply filterMap_editsOf
    intro b _ tx index
    unfold ContextuallyVerifiedBlock.updateEditsOf
    rw [filterMap_append, nullifierEdits_filterMap, filterMap_cons_none rfl,
      filterMap_append,
      outputEdits_filterMap (fun _ _ => rfl) (fun _ => rfl) (fun _ _ => rfl),
      inputEdits_filterMap (fun _ _ => rfl) (fun _ => rfl)]
    simp [Edit.nullifierEntry]
  have hholds := h.indexes.nullifiers pool
  rw [hentries] at hholds
  have hkeys : (↑((chainTransactions bs).flatMap fun tx =>
      (tx.nullifiers pool).map fun n => (n, tx.hash)) : Multiset (Word × Hash)).map Prod.fst =
      ↑((chainTransactions bs).flatMap fun tx => tx.nullifiers pool) := by
    rw [Multiset.map_coe, map_flatMap]
    simp only [map_map, Function.comp_def, map_id']
  constructor
  · have hnodup := hholds.nodup
    rw [hkeys, Multiset.coe_nodup] at hnodup
    exact hnodup
  · intro n
    rw [hholds.mem_iff, hkeys, Multiset.mem_coe]

/-- The map of spent outputs holds what the chain spends. -/
theorem Chain.Contains.mem_spentUtxos (h : c.Contains rules bs) (o : OutPoint) :
    o ∈ c.spentUtxos ↔ o ∈ spent (chainTransactions bs) := by
  have hentries : (editsOf rules bs).filterMap Edit.spentEntry =
      ↑((chainTransactions bs).flatMap fun tx => tx.spentOutpoints.map fun o => (o, tx.hash)) := by
    apply filterMap_editsOf
    intro b _ tx index
    unfold ContextuallyVerifiedBlock.updateEditsOf
    rw [filterMap_append, nullifierEdits_other (fun _ _ _ => rfl),
      filterMap_cons_none rfl, filterMap_append,
      outputEdits_filterMap (fun _ _ => rfl) (fun _ => rfl) (fun _ _ => rfl),
      inputEdits_filterMap (fun _ _ => rfl) (fun _ => rfl), nil_append, nil_append]
    exact congrFun filterMap_eq_map _
  have hholds := h.indexes.spent
  rw [hentries] at hholds
  rw [hholds.mem_iff, Multiset.map_coe, Multiset.mem_coe, map_flatMap]
  simp only [map_map, Function.comp_def, map_id']
  rfl

/-- The outputs that a transaction creates. -/
theorem mem_outputEdits_created {tx : Transaction} {o : OutPoint} {u : OrderedUtxo} :
    (o, u) ∈ (b.outputEdits rules.address tx).filterMap Edit.createdEntry ↔
      ∃ index < tx.outputs.length, o = ⟨tx.hash, index⟩ ∧ b.newOutputs.lookup o = some u := by
  unfold ContextuallyVerifiedBlock.outputEdits
  simp only [filterMap_flatMap, mem_flatMap, mem_range]
  refine exists_congr fun index => and_congr_right fun _ => ?_
  split
  · rename_i hnone
    refine ⟨nofun, ?_⟩
    rintro ⟨rfl, hsome⟩
    rw [hnone] at hsome
    cases hsome
  · rename_i utxo hsome
    show _ ∈ (⟨tx.hash, index⟩, utxo) :: (addressEdit _ _ _).filterMap Edit.createdEntry ↔ _
    rw [addressEdit_filterMap (fun _ _ => rfl), mem_singleton]
    constructor
    · rintro ⟨⟩
      exact ⟨rfl, hsome⟩
    · rintro ⟨rfl, hu⟩
      cases hsome.symm.trans hu
      rfl

/-- The entries of the map of created outputs. -/
theorem Chain.Contains.lookup_createdUtxos (h : c.Contains rules bs) (o : OutPoint)
    (u : OrderedUtxo) :
    c.createdUtxos.lookup o = some u ↔ ∃ b ∈ bs, ∃ tx ∈ b.block.transactions,
      ∃ index < tx.outputs.length, o = ⟨tx.hash, index⟩ ∧ b.newOutputs.lookup o = some u := by
  have htx : ∀ (b : ContextuallyVerifiedBlock) tx i,
      (b.updateEditsOf rules.address tx i).filterMap Edit.createdEntry =
        (b.outputEdits rules.address tx).filterMap Edit.createdEntry := by
    intro b tx i
    unfold ContextuallyVerifiedBlock.updateEditsOf
    rw [filterMap_append, nullifierEdits_other (fun _ _ _ => rfl), filterMap_cons_none rfl,
      filterMap_append, inputEdits_filterMap (fun _ _ => rfl) (fun _ => rfl)]
    simp [Edit.createdEntry]
  rw [h.indexes.created.lookup, editsOf_eq, Multiset.filterMap_coe, Multiset.mem_coe,
    filterMap_flatMap]
  simp only [mem_flatMap, ContextuallyVerifiedBlock.updateEdits, filterMap_flatMap, htx,
    mem_outputEdits_created, exists_mem_iff_getElem, length_zipIdx, getElem_zipIdx]

end Maps

end Wolf.NonFinalized
