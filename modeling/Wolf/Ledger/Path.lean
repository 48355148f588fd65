import Wolf.Ledger.Transaction

/-! # Paths of transactions

The transactions of consecutive blocks, in chain order, and the outputs
they create and spend. -/

namespace Wolf.Ledger

open List

/-- The outputs created along a path. -/
def created (txs : List Transaction) : List (OutPoint × Output) :=
  txs.flatMap Transaction.newOutputs

/-- The outpoints spent along a path. -/
def spent (txs : List Transaction) : List OutPoint := txs.flatMap Transaction.spentOutpoints

/-- The outputs created and not spent along a path. -/
def unspent (txs : List Transaction) : List (OutPoint × Output) :=
  (created txs).filter fun entry => entry.1 ∉ spent txs

/-- The transactions of the first `n` of some blocks. -/
def pathOf (blocks : List Block) (n : Nat) : List Transaction :=
  (blocks.take n).flatMap Block.transactions

/-- No outpoint is created twice: an outpoint determines its output. -/
def OutpointsUnique (txs : List Transaction) : Prop := ((created txs).map Prod.fst).Nodup

/-- Every input spends an earlier output of the path that is not yet spent. -/
structure SpendsSound (txs : List Transaction) : Prop where
  once : (spent txs).Nodup
  earlier : ∀ before tx after, txs = before ++ tx :: after → ∀ outpoint ∈ tx.spentOutpoints,
    outpoint ∈ (created before).map Prod.fst

/-- The outpoints of a transaction are numbered from zero. -/
theorem newOutputs_keys (tx : Transaction) :
    tx.newOutputs.map Prod.fst =
      (List.range tx.outputs.length).map fun index => (⟨tx.hash, index⟩ : OutPoint) := by
  have hindexes : List.range tx.outputs.length = tx.outputs.zipIdx.map Prod.snd := by
    rw [zipIdx_map_snd, range_eq_range']
  rw [hindexes, Transaction.newOutputs, map_map, map_map]
  rfl

variable {outpoint : OutPoint}

section Prefixes

variable {txs more : List Transaction}

theorem created_append : created (txs ++ more) = created txs ++ created more :=
  flatMap_append

theorem spent_append : spent (txs ++ more) = spent txs ++ spent more :=
  flatMap_append

theorem OutpointsUnique.of_append (h : OutpointsUnique (txs ++ more)) : OutpointsUnique txs := by
  unfold OutpointsUnique at h ⊢
  rw [created_append, map_append] at h
  exact (nodup_append.mp h).1

theorem SpendsSound.of_append (h : SpendsSound (txs ++ more)) : SpendsSound txs where
  once := by
    have honce := h.once
    rw [spent_append] at honce
    exact (nodup_append.mp honce).1
  earlier := by
    intro before tx after heq
    apply h.earlier before tx (after ++ more)
    rw [heq, append_assoc, cons_append]

/-- What is spent was created on the path. -/
theorem SpendsSound.spent_subset (h : SpendsSound txs) (hspent : outpoint ∈ spent txs) :
    outpoint ∈ (created txs).map Prod.fst := by
  obtain ⟨tx, htx, hmem⟩ := mem_flatMap.mp hspent
  obtain ⟨before, after, heq⟩ := append_of_mem htx
  have hearlier := h.earlier before tx after heq outpoint hmem
  rw [heq, created_append, map_append]
  exact mem_append_left _ hearlier

end Prefixes

/-! ## The outputs of a block -/

/-- `new_transaction_ordered_outputs`. -/
def Transaction.orderedOutputs (tx : Transaction) (height index : Nat) :
    List (OutPoint × OrderedUtxo) :=
  tx.newOutputs.map fun entry => (entry.1, ⟨⟨entry.2, height, index == 0⟩, index⟩)

/-- `HashMap::extend`. -/
def extendMap {K V : Type} [DecidableEq K] (map : HashMap K V) (entries : List (K × V)) :
    HashMap K V :=
  entries.foldl (fun map entry => map.insert entry.1 entry.2) map

/-- The outputs of a block, in order, under their outpoints. -/
def Block.orderedOutputs (block : Block) (height : Nat) : List (OutPoint × OrderedUtxo) :=
  block.transactions.zipIdx.flatMap fun (tx, index) => tx.orderedOutputs height index

/-- `new_ordered_outputs_with_height`. -/
def newOrderedOutputs (block : Block) (height : Nat) : HashMap OutPoint OrderedUtxo :=
  extendMap ∅ (block.orderedOutputs height)

theorem extendMap_lookup {K V : Type} [DecidableEq K] {entries : List (K × V)} {map : HashMap K V}
    {key : K} {value : V} (h : (extendMap map entries).lookup key = some value) :
    (key, value) ∈ entries ∨ map.lookup key = some value := by
  induction entries generalizing map with
  | nil => exact .inr h
  | cons entry rest ih =>
    rcases ih h with hmem | hlookup
    · exact .inl (mem_cons_of_mem _ hmem)
    · rcases lookup_insert_some hlookup with ⟨rfl, rfl⟩ | hlookup
      · exact .inl mem_cons_self
      · exact .inr hlookup

/-- An output of the map is an output of the block. -/
theorem newOrderedOutputs_lookup {block : Block} {height : Nat} {ordered : OrderedUtxo}
    (h : (newOrderedOutputs block height).lookup outpoint = some ordered) :
    (outpoint, ordered.utxo.output) ∈ created block.transactions := by
  rcases extendMap_lookup h with hmem | hnone
  · obtain ⟨⟨tx, index⟩, htx, hmem⟩ := mem_flatMap.mp hmem
    obtain ⟨entry, hentry, heq⟩ := mem_map.mp hmem
    cases heq
    have hin : tx ∈ block.transactions := by
      have hget := mem_zipIdx htx
      rw [hget.2.2]
      exact getElem_mem _
    exact mem_flatMap.mpr ⟨tx, hin, hentry⟩
  · cases hnone

/-! ## The value of what is left -/

/-- The values of some outputs. -/
def valueSum (entries : List (OutPoint × Output)) : Int :=
  (entries.map fun entry => entry.2.value.zatoshis).sum

theorem valueSum_append (a b : List (OutPoint × Output)) :
    valueSum (a ++ b) = valueSum a + valueSum b := by
  simp [valueSum]

theorem valueSum_filter (p : OutPoint × Output → Bool) (entries : List (OutPoint × Output)) :
    valueSum entries = valueSum (entries.filter p) + valueSum (entries.filter fun e => !p e) := by
  rw [← valueSum_append]
  exact ((filter_append_perm p entries).map _).sum_eq.symm

/-- What the transactions of a path create, in value. -/
theorem valueSum_created (txs : List Transaction) :
    valueSum (created txs) = (txs.map Transaction.outputTotal).sum := by
  induction txs with
  | nil => rfl
  | cons tx rest ih =>
    have hnew : valueSum tx.newOutputs = tx.outputTotal := by
      unfold valueSum Transaction.newOutputs Transaction.outputTotal
      rw [map_map]
      have hvalue : ((fun entry : OutPoint × Output => entry.2.value.zatoshis) ∘
          fun x : Output × Nat => ((⟨tx.hash, x.2⟩ : OutPoint), x.1)) =
          (fun output : Output => output.value.zatoshis) ∘ Prod.fst := rfl
      rw [hvalue, ← map_map, zipIdx_map_fst]
    rw [show created (tx :: rest) = tx.newOutputs ++ created rest from rfl, valueSum_append, hnew,
      ih, map_cons, sum_cons]

/-- The outputs that are left are worth what was created less what was
spent. -/
theorem unspent_total {txs : List Transaction} {valueOf : OutPoint → Int}
    (hunique : OutpointsUnique txs) (hsound : SpendsSound txs)
    (hvalue : ∀ entry ∈ created txs, valueOf entry.1 = entry.2.value.zatoshis) :
    valueSum (unspent txs) =
      (txs.map Transaction.outputTotal).sum - ((spent txs).map valueOf).sum := by
  -- The created outputs that were spent are, up to order, the spent outpoints.
  have hperm : (((created txs).filter fun e => e.1 ∈ spent txs).map Prod.fst).Perm (spent txs) := by
    apply (perm_ext_iff_of_nodup _ hsound.once).mpr
    · intro outpoint
      simp only [mem_map, List.mem_filter, decide_eq_true_eq]
      constructor
      · rintro ⟨entry, ⟨_, hmem⟩, rfl⟩
        exact hmem
      · intro hmem
        obtain ⟨entry, hentry, rfl⟩ := mem_map.mp (hsound.spent_subset hmem)
        exact ⟨entry, ⟨hentry, hmem⟩, rfl⟩
    · exact hunique.sublist (filter_sublist.map _)
  have hspent : valueSum ((created txs).filter fun e => e.1 ∈ spent txs) =
      ((spent txs).map valueOf).sum := by
    rw [← (hperm.map valueOf).sum_eq, map_map]
    unfold valueSum
    congr 1
    apply map_congr_left
    intro entry hentry
    exact (hvalue entry (List.mem_filter.mp hentry).1).symm
  have hsplit := valueSum_filter (fun e => decide (e.1 ∈ spent txs)) (created txs)
  rw [valueSum_created, hspent] at hsplit
  have hunspent : valueSum (unspent txs) =
      valueSum ((created txs).filter fun e => !decide (e.1 ∈ spent txs)) := by
    unfold unspent
    simp only [decide_not]
  omega

end Wolf.Ledger
