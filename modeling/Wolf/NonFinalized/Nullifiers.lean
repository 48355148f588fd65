import Wolf.NonFinalized.BestChain
import Wolf.NonFinalized.Paths

/-! # Nullifiers along a path

A nullifier that is revealed twice would be a note that is spent twice.
Duplicates within a chain are found when a block is pushed, in the map
of the pool; duplicates of finalized nullifiers are found before that,
in the database. Finalization moves the nullifiers of a block from the
one to the other.

* `nullifiers_never_repeat`: every path reveals every nullifier at most
  once. -/

namespace Wolf.NonFinalized

open Ledger List

variable {H : Type}

/-! ## Commits -/

/-- The nullifiers of a pool that some transactions reveal. -/
def revealed (pool : Pool) (txs : List Transaction) : List Word :=
  txs.flatMap fun tx => tx.nullifiers pool

/-- Every nullifier is revealed at most once in its pool. -/
def NullifiersUnique (path : List SemanticallyVerifiedBlock) : Prop :=
  ∀ pool, (revealed pool (transactionsOf path)).Nodup

/-- The operations that are validated, and those that need not be. -/
def Operation.IsValidated : Operation → Prop
  | .commit _ => True
  | .finalize => True
  | .invalidateBlock _ => True
  | _ => False

section Commits

variable {checks : Checks H} {blockOf : Hash → Block} {rules : Rules H} {t u : System H}
  {op : Operation} {db : ZebraDb H} {c c' p m : Chain H} {a : SemanticallyVerifiedBlock}
  {b : ContextuallyVerifiedBlock} {bs : List ContextuallyVerifiedBlock} {s : NonFinalizedState H}

theorem revealed_append (pool : Pool) (txs more : List Transaction) :
    revealed pool (txs ++ more) = revealed pool txs ++ revealed pool more :=
  flatMap_append

/-- A validated commit keeps nullifiers unique. -/
theorem nullifiers_extend (hspec : CommitSpec checks blockOf s db a p b m)
    (hvalid : s.initialContextualValidity checks db a = .ok ())
    (h : NullifiersUnique (db.path p.blocks.items)) :
    NullifiersUnique (db.path (p.blocks.items ++ [b])) := by
  intro pool
  have hparent := h pool
  have hcontains := hspec.attached.contains
  rw [hspec.blocks] at hcontains
  have hchain := (hcontains.nullifiers pool).1
  rw [transactionsOf_path, revealed_append, nodup_append] at hparent ⊢
  refine ⟨hparent.1, hchain, ?_⟩
  intro n hfinal n' hn' heq
  subst heq
  have hsplit : chainTransactions (p.blocks.items ++ [b]) =
      chainTransactions p.blocks.items ++ b.block.transactions := by
    simp [chainTransactions]
  rw [hsplit, revealed_append] at hn'
  rcases mem_append.mp hn' with hold | hnew
  · exact hparent.2.2 n hfinal n hold rfl
  · have hblock : b.block = a.block := by rw [hspec.accepted.block]
    rw [hblock] at hnew
    -- A validated block reveals no finalized nullifier.
    obtain ⟨_, _, hvalid⟩ := of_two_binds hvalid
    obtain ⟨_, _, hvalid⟩ := of_two_binds hvalid
    have hpool := forM_eq_ok.mp hvalid pool pool.mem_all
    have hword := rejectIf_eq_ok.mp (forM_eq_ok.mp hpool n hnew)
    unfold ZebraDb.containsNullifier at hword
    exact absurd hfinal (by simpa [revealed] using hword)

/-! ## Removals -/

theorem Panic.OfReversal.ne_missingNullifier {e : Panic} (h : e.OfReversal) :
    e ≠ .missingNullifier := by
  rcases h with rfl | rfl | rfl | rfl | rfl <;> decide

/-- `pop_tip` finds all nullifiers that it removes. -/
theorem popTip_ne_missingNullifier (h : c.Contains rules bs) :
    c.popTip rules ≠ .error .missingNullifier := by
  intro hpop
  rcases eq_nil_or_concat' bs with rfl | ⟨kept, last, rfl⟩
  · rcases bind_eq_error.mp hpop with herror | ⟨tip, htip, _⟩
    · cases (okOr_eq_error.mp herror).2
    · have hmem := SortedList.last?_mem (okOr_eq_ok.mp htip)
      rw [← SortedList.mem_items, h.blocks] at hmem
      cases hmem
  · by_cases hne : kept = []
    · subst hne
      rw [h.popTip_single] at hpop
      cases hpop
    · exact (h.popTip_error hne hpop).ne_missingNullifier rfl

/-- `pop_root` finds all nullifiers that it removes. -/
theorem popRoot_ne_missingNullifier (h : c.Contains rules bs) :
    c.popRoot rules ≠ .error .missingNullifier := by
  intro hpop
  rcases bind_eq_error.mp hpop with herror | ⟨root, hroot, hpop⟩
  · cases (okOr_eq_error.mp herror).2
  · rw [okOr_eq_ok, SortedList.first?, h.blocks] at hroot
    cases bs with
    | nil => cases hroot
    | cons first rest =>
      cases hroot
      rcases bind_eq_error.mp hpop with htreestate | ⟨_, _, hpop⟩
      · unfold Chain.treestate at htreestate
        rcases bind_eq_error.mp htreestate with htrees | ⟨_, _, htreestate⟩
        · obtain ⟨pool, hpool⟩ := forPools_eq_error htrees
          cases (okOr_eq_error.mp hpool).2
        · rcases bind_eq_error.mp htreestate with hhistory | ⟨_, _, htreestate⟩
          · cases (okOr_eq_error.mp hhistory).2
          · cases htreestate
      · rcases bind_eq_error.mp hpop with hrevert | ⟨_, _, hpop⟩
        · exact ((h.removing_root _).revertWith_error hrevert).ne_missingNullifier rfl
        · cases hpop

/-! ## Runs -/

/-- Every path reveals every nullifier at most once in its pool, the maps of
a chain hold the nullifiers of its own blocks, pools do not interfere,
and removed nullifiers are found. -/
theorem nullifiers_never_repeat {start : System H} {ops : List Operation}
    (hstart : start.Initial blockOf) (hfinalized : NullifiersUnique start.finalized.blocks)
    (hops : ∀ op ∈ ops, op.IsValidated) (hrun : Reaches checks blockOf start ops t)
    (hc : c ∈ t.state.chainSet) :
    NullifiersUnique (t.finalized.path c.blocks.items) ∧
    (∀ pool n, n ∈ c.nullifiers pool ↔ n ∈ revealed pool (chainTransactions c.blocks.items)) ∧
    (∀ pool n txId, (∃ i, c.toIndexes.apply (.nullifier pool n txId) = .ok i) ↔
      n ∉ revealed pool (chainTransactions c.blocks.items)) ∧
    ∀ c', Chain.Trimmed checks.toRules c c' →
      c'.popTip checks.toRules ≠ .error .missingNullifier ∧
        c'.popRoot checks.toRules ≠ .error .missingNullifier := by
  have hwell : t.WellFormed checks blockOf := hrun.wellFormed hstart.wellFormed
  have hpaths : PathInvariant NullifiersUnique t := by
    refine Reaches.pathInvariant hstart.wellFormed ⟨hfinalized, ?_⟩ ?_ ?_ hrun
    · intro c hc
      rw [← SortedList.mem_items, hstart.chains] at hc
      cases hc
    · rintro op hop hash rfl
      exact hops _ hop
    · intro v _ op hop a p b m hspec hcommits
      rcases hcommits with rfl | rfl | ⟨rfl, hvalid⟩
      · exact (hops _ hop).elim
      · exact (hops _ hop).elim
      · exact nullifiers_extend hspec hvalid
  have hcontains := (hwell.attached c hc).contains
  refine ⟨hpaths.chains c hc _ [] (append_nil _).symm,
    fun pool n => (hcontains.nullifiers pool).2 n, ?_, ?_⟩
  · intro pool n txId
    have hmem := (hcontains.nullifiers pool).2 n
    unfold Indexes.apply Index.insertNew
    by_cases hn : n ∈ c.nullifiers pool
    · simp only [hn, if_true, error_bind, reduceCtorEq, exists_false, false_iff, not_not]
      exact hmem.mp hn
    · simp only [hn, if_false, ok_bind, Except.ok.injEq, exists_eq', true_iff]
      exact fun hrevealed => hn (hmem.mpr hrevealed)
  · intro c' htrimmed
    obtain ⟨_, _, _, hc'⟩ := hcontains.trimmed htrimmed
    exact ⟨popTip_ne_missingNullifier hc', popRoot_ne_missingNullifier hc'⟩

end Commits

/-! ## Samples -/

/-- A bundle that reveals the word 7. -/
def revealSeven : OrchardBundle :=
  ⟨[⟨.fill 32 7, .fill 32 1⟩], by simp, true, true, ⟨0, by decide, by decide⟩⟩

/-- A block that reveals one bit pattern in two pools. -/
def shieldedBlock : SemanticallyVerifiedBlock :=
  sampleBlock 11 10 11 [{ sampleTransaction 102 [] [] with
    orchardBundle := some revealSeven
    ironwoodBundle := some revealSeven }]

def shieldedBlockOf : Hash → Block :=
  blockAmong (sampleDb.blocks ++ [shieldedBlock])

/-- The pools do not conflict, and the nullifier is known afterwards. -/
theorem nullifiers_never_repeat_sample :
    ∃ t c, Reaches sampleChecks shieldedBlockOf sampleSystem [.commit shieldedBlock] t ∧
      c ∈ t.state.chainSet ∧ NullifiersUnique (t.finalized.path c.blocks.items) ∧
      (.fill 32 7 : Word) ∈ c.nullifiers .orchard ∧
        (.fill 32 7 : Word) ∈ c.nullifiers .ironwood := by
  obtain ⟨t, ht, hcheck⟩ := (Option.any_eq_true _ _).mp
    (show (sampleSystem.applyAll sampleChecks [.commit shieldedBlock]).any (fun t =>
      t.state.chainSet.items.any fun c =>
        decide (c.blocks.items.map (fun b => b.block) = [shieldedBlock.block])) = true by
      decide +kernel)
  obtain ⟨c, hc, hblocks⟩ := any_eq_true.mp hcheck
  have hrun : Reaches sampleChecks shieldedBlockOf sampleSystem [.commit shieldedBlock] t := by
    refine System.applyAll_reaches ht (forall_mem_singleton.mpr ?_)
    intro b hb
    cases hb
    rfl
  have hinitial : sampleSystem.Initial shieldedBlockOf := by
    refine ⟨rfl, rfl, ?_⟩
    intro b hb
    simp only [sampleSystem, ZebraDb.blocks, sampleDb, mem_append, mem_cons,
      not_mem_nil, or_false] at hb
    rcases hb with rfl | rfl <;> rfl
  have hfinalized : NullifiersUnique sampleSystem.finalized.blocks := by
    intro pool
    cases pool <;> decide
  have hvalidated : ∀ op ∈ [Operation.commit shieldedBlock], op.IsValidated :=
    forall_mem_singleton.mpr trivial
  obtain ⟨hunique, hmap, _⟩ := nullifiers_never_repeat hinitial hfinalized hvalidated hrun hc
  have htxs : chainTransactions c.blocks.items = shieldedBlock.block.transactions := by
    have hflat : chainTransactions c.blocks.items =
        (c.blocks.items.map fun b => b.block).flatMap fun b => b.transactions :=
      (flatMap_map _ _ _).symm
    rw [hflat, of_decide_eq_true hblocks, flatMap_singleton]
  refine ⟨t, c, hrun, hc, hunique, (hmap _ _).mpr ?_, (hmap _ _).mpr ?_⟩
  · rw [htxs]
    decide
  · rw [htxs]
    decide

end Wolf.NonFinalized
