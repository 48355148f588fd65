import Wolf.AuxPow.Codec
import Wolf.Consensus.Supply
import Wolf.Framework.Topological
import Wolf.Mempool.Exact

/-! # Selection of mempool transactions for a block template

Candidates without dependencies are drawn at random, first those that
pay the conventional fee. After each one that fits, its dependents are
tried level by level.

The loops consume three things that the program does not control: the
draws, the order in which hash sets and hash maps are visited, and
whether weights can be drawn from. They are parameters here.

* `selection_is_sound`: every result. -/

namespace Wolf.BlockTemplate

open Ledger Mempool List

/-! ## Limits -/

def maxBlockBytes : Nat := 2000000

def minTransparentTxSize : Nat := (32 + 4 + 4 + 1) + 4 + (8 + 1)

def blockUnpaidActionLimit : Nat := 0

def maxTransactionCountSize : Nat := AuxPow.compactSizeLen (maxBlockBytes / minTransparentTxSize)

/-- What a network says about its solutions: `uses_wcash_consensus` and
`is_regtest`. -/
structure Network where
  usesWcashConsensus : Bool
  isRegtest : Bool

def maxWcashAuxpowBytes : Nat := 256 * 1024

def solutionSerializedSize (net : Network) : Nat :=
  if net.usesWcashConsensus then 5 + maxWcashAuxpowBytes
  else if net.isRegtest then 1 + 36
  else 3 + 1344

def headerSerializedSize (net : Network) : Nat :=
  (4 + 32 * 3 + 4 * 2) + 32 + solutionSerializedSize net

/-- `TransactionError`: an error of the coinbase builder, or
`CoinbaseConstruction`. -/
inductive TransactionError where
  | build
  | coinbaseConstruction (message : String)
  deriving DecidableEq

/-- `TransactionTemplate`, as far as it counts for the limits. -/
structure TransactionTemplate where
  data : Bytes
  sigops : Nat

/-! ## The loops -/

/-- What the program does not control. The tick counts the uses, so that
equal questions can have different answers. -/
structure Sampling where
  order : Nat → Iteration Hash
  weightsValid : List VerifiedUnminedTx → Bool
  sample : Nat → List VerifiedUnminedTx → Nat
  sample_lt : ∀ tick txs, txs ≠ [] → sample tick txs < txs.length

/-- The variables of the loops. -/
structure Template where
  selectedTxs : List VerifiedUnminedTx
  dependentTxs : Index Hash VerifiedUnminedTx
  remainingBlockBytes : Nat
  remainingBlockSigops : Nat
  remainingBlockUnpaidActions : Nat
  tick : Nat

/-- `setup_fee_weighted_index` returns an index. -/
def hasWeightedIndex (x : Sampling) (transactions : List VerifiedUnminedTx) : Bool :=
  !transactions.isEmpty && x.weightsValid transactions

/-- The loop of `has_direct_dependencies`. -/
def countsAllDeps (deps : Finset Hash) : List VerifiedUnminedTx → Nat → Bool
  | [], _ => false
  | tx :: rest, numAvailableDeps =>
    if tx.minedId ∈ deps then
      if numAvailableDeps + 1 = deps.card then true
      else countsAllDeps deps rest (numAvailableDeps + 1)
    else countsAllDeps deps rest numAvailableDeps

def hasDirectDependencies (candidateTxDeps : Option (Finset Hash))
    (selectedTxs : List VerifiedUnminedTx) : Bool :=
  match candidateTxDeps with
  | none => true
  | some deps =>
    if selectedTxs.length < deps.card then false else countsAllDeps deps selectedTxs 0

namespace Template

variable (t : Template)

/-- `try_update_block_template_limits`, and the transaction is selected. -/
def trySelect (tx : VerifiedUnminedTx) : Option Template :=
  if tx.transaction.size ≤ t.remainingBlockBytes ∧
      tx.blockSigopCount ≤ t.remainingBlockSigops ∧
      tx.unpaidActions ≤ t.remainingBlockUnpaidActions then
    some { t with
      selectedTxs := t.selectedTxs ++ [tx]
      remainingBlockBytes := t.remainingBlockBytes - tx.transaction.size
      remainingBlockSigops := t.remainingBlockSigops - tx.blockSigopCount
      remainingBlockUnpaidActions := t.remainingBlockUnpaidActions - tx.unpaidActions }
  else none

/-- A transaction is taken out of the dependent ones. -/
def takeDependent (id : Hash) : Template := { t with dependentTxs := t.dependentTxs.erase id }

/-- The order in which a set is visited, which is asked for once. -/
def ticked : Template := { t with tick := t.tick + 1 }

end Template

section

variable (x : Sampling) (deps : TransactionDependencies)

/-- The part of a level for one dependent transaction. -/
def addDependent (acc : Template × Finset Hash) (dependentTxId : Hash) : Template × Finset Hash :=
  if hasDirectDependencies (deps.dependencies.lookup dependentTxId) acc.1.selectedTxs then
    match acc.1.dependentTxs.lookup dependentTxId with
    | none => acc
    | some candidateTx =>
      let t := acc.1.takeDependent dependentTxId
      if candidateTx.paysConventionalFee = false then (t, acc.2)
      else
        match t.trySelect candidateTx with
        | none => (t, acc.2)
        | some t => (t, acc.2 ∪ deps.directDependents dependentTxId)
  else acc

/-- A level of dependent transactions. -/
def addLevel (t : Template) (currentLevelDependents : Finset Hash) : Template × Finset Hash :=
  ((x.order t.tick).list currentLevelDependents).foldl (addDependent deps) (t.ticked, ∅)

/-- The loop over the levels, for at most `fuel` levels. -/
def addLevels : Nat → Template → Finset Hash → Option Template
  | 0, t, level => if level = ∅ then some t else none
  | fuel + 1, t, level =>
    if level = ∅ then some t
    else
      let added := addLevel x deps t level
      addLevels fuel added.1 added.2

/-- `checked_add_transaction_weighted_random` for the candidate that was
drawn. -/
def checkedAddTransaction (t : Template) (candidateTx : VerifiedUnminedTx) : Option Template :=
  match t.trySelect candidateTx with
  | none => some t
  | some t =>
    addLevels x deps (t.dependentTxs.keys.card + 1) t (deps.directDependents candidateTx.minedId)

/-- A loop of `select_mempool_transactions`, for at most `fuel` rounds. -/
def selectFrom : Nat → List VerifiedUnminedTx → Template → Option Template
  | 0, candidateTxs, t => if hasWeightedIndex x candidateTxs = false then some t else none
  | fuel + 1, candidateTxs, t =>
    if hasWeightedIndex x candidateTxs = false then some t
    else do
      let (candidateTx, rest) ← swapRemove candidateTxs (x.sample t.tick candidateTxs)
      let t ← checkedAddTransaction x deps t.ticked candidateTx
      selectFrom fuel rest t

end

/-- Transactions by their ids. -/
def byMinedId (txs : List VerifiedUnminedTx) : Index Hash VerifiedUnminedTx :=
  txs.foldl (fun index tx => Finmap.insert tx.minedId tx index) ∅

/-- `into_values`. -/
def values (it : Iteration Hash) (index : Index Hash VerifiedUnminedTx) : List VerifiedUnminedTx :=
  (it.list index.keys).filterMap index.lookup

/-- The loops of `select_mempool_transactions`. -/
def selectWithin (x : Sampling) (mempoolTxs : List VerifiedUnminedTx)
    (deps : TransactionDependencies) (remainingBlockBytes remainingBlockSigops : Nat) :
    Option (List VerifiedUnminedTx) := do
  let independent := mempoolTxs.filter fun tx => tx.minedId ∉ deps.dependencies
  let dependent := mempoolTxs.filter fun tx => tx.minedId ∈ deps.dependencies
  let independentTxs := values (x.order 0) (byMinedId independent)
  let conventionalFeeTxs := independentTxs.filter fun tx => tx.paysConventionalFee
  let lowFeeTxs := independentTxs.filter fun tx => !tx.paysConventionalFee
  let t : Template :=
    { selectedTxs := []
      dependentTxs := byMinedId dependent
      remainingBlockBytes
      remainingBlockSigops
      remainingBlockUnpaidActions := blockUnpaidActionLimit
      tick := 1 }
  let t ← selectFrom x deps conventionalFeeTxs.length conventionalFeeTxs t
  let t ← selectFrom x deps lowFeeTxs.length lowFeeTxs t
  some t.selectedTxs

/-- The budgets of `select_mempool_transactions`: bytes and signature
operations that the coinbase and the block framing leave. -/
def remainingLimits (net : Network) (fakeCoinbaseTx : TransactionTemplate) :
    Except TransactionError (Nat × Nat) := do
  let remainingBlockBytes ← okOr
    ((checkedSub maxBlockBytes (headerSerializedSize net)).bind fun remaining =>
      (checkedSub remaining maxTransactionCountSize).bind fun remaining =>
        checkedSub remaining fakeCoinbaseTx.data.length)
    (.coinbaseConstruction "the coinbase and block framing exceed the consensus block size limit")
  let remainingBlockSigops ← okOr (checkedSub Consensus.maxBlockSigops fakeCoinbaseTx.sigops)
    (.coinbaseConstruction "the coinbase exceeds the consensus block sigop limit")
  .ok (remainingBlockBytes, remainingBlockSigops)

/-- The fake coinbase: as it is built or cached, with the commitment to an
auxiliary block if one is requested. -/
def fakeCoinbase (coinbase : Except TransactionError TransactionTemplate)
    (withWcashAux : Option (TransactionTemplate → Except TransactionError TransactionTemplate)) :
    Except TransactionError TransactionTemplate := do
  let fakeCoinbaseTx ← coinbase
  match withWcashAux with
  | some update => update fakeCoinbaseTx
  | none => .ok fakeCoinbaseTx

def selectMempoolTransactions (x : Sampling) (net : Network)
    (coinbase : Except TransactionError TransactionTemplate)
    (mempoolTxs : List VerifiedUnminedTx) (deps : TransactionDependencies)
    (withWcashAux : Option (TransactionTemplate → Except TransactionError TransactionTemplate)) :
    Option (Except TransactionError (List VerifiedUnminedTx)) :=
  match fakeCoinbase coinbase withWcashAux >>= remainingLimits net with
  | .error e => some (.error e)
  | .ok limits => (selectWithin x mempoolTxs deps limits.1 limits.2).map .ok

/-! ## The invariant -/

/-- The transactions of the mempool, and what is left of the block. -/
structure Request where
  txs : List VerifiedUnminedTx
  bytes : Nat
  sigops : Nat

/-- The invariant of the loops: `pending` are the independent transactions
that have not been drawn. -/
structure Progress (deps : TransactionDependencies) (q : Request)
    (pending : List VerifiedUnminedTx) (t : Template) : Prop where
  bytes_eq : (t.selectedTxs.map fun tx => tx.transaction.size).sum + t.remainingBlockBytes = q.bytes
  sigops_eq :
    (t.selectedTxs.map fun tx => tx.blockSigopCount).sum + t.remainingBlockSigops = q.sigops
  unpaid_eq : (t.selectedTxs.map fun tx => tx.unpaidActions).sum + t.remainingBlockUnpaidActions =
    blockUnpaidActionLimit
  nodup : ((t.selectedTxs ++ pending).map fun tx => tx.minedId).Nodup
  mem : ∀ tx ∈ t.selectedTxs ++ pending, tx ∈ q.txs
  independent : ∀ tx ∈ pending, tx.minedId ∉ deps.dependencies
  dependent : ∀ id tx, t.dependentTxs.lookup id = some tx → tx ∈ q.txs ∧ tx.minedId = id ∧
    id ∉ (t.selectedTxs ++ pending).map fun tx => tx.minedId
  ordered : DependenciesFirst (fun a b => b ∈ deps.directDependencies a)
    (t.selectedTxs.map fun tx => tx.minedId)
  paid : ∀ tx ∈ t.selectedTxs, tx.minedId ∈ deps.dependencies → tx.paysConventionalFee = true

/-- A transaction that can be selected, if it fits. -/
structure Selectable (deps : TransactionDependencies) (q : Request)
    (pending : List VerifiedUnminedTx) (t : Template) (tx : VerifiedUnminedTx) : Prop where
  mem : tx ∈ q.txs
  fresh : tx.minedId ∉ (t.selectedTxs ++ pending).map fun tx => tx.minedId
  taken : t.dependentTxs.lookup tx.minedId = none
  ready : ∀ b ∈ deps.directDependencies tx.minedId, b ∈ t.selectedTxs.map fun tx => tx.minedId
  paid : tx.minedId ∈ deps.dependencies → tx.paysConventionalFee = true

variable {id : Hash}

section Progress

variable {x : Sampling} {deps : TransactionDependencies} {q : Request} {fuel : Nat}
  {pending selected rest candidates : List VerifiedUnminedTx}
  {t t' : Template} {tx : VerifiedUnminedTx} {ids : Finset Hash}

section

variable (h : Progress deps q pending t) {pending' : List VerifiedUnminedTx}

include h

theorem Progress.subperm (hsub : pending'.Subperm pending) : Progress deps q pending' t := by
  have hall : (t.selectedTxs ++ pending').Subperm (t.selectedTxs ++ pending) :=
    (subperm_append_left _).mpr hsub
  refine ⟨h.bytes_eq, h.sigops_eq, h.unpaid_eq, ?_, ?_, ?_, ?_, h.ordered, h.paid⟩
  · obtain ⟨all, hperm, hsublist⟩ := hall
    exact (hperm.map _).nodup_iff.mp (h.nodup.sublist (hsublist.map _))
  · exact fun tx htx => h.mem tx (hall.subset htx)
  · exact fun tx htx => h.independent tx (hsub.subset htx)
  · intro id tx hlookup
    obtain ⟨hmem, hid, hnot⟩ := h.dependent id tx hlookup
    exact ⟨hmem, hid, fun hin => hnot (map_subset _ hall.subset hin)⟩

theorem Progress.ticked : Progress deps q pending t.ticked :=
  ⟨h.bytes_eq, h.sigops_eq, h.unpaid_eq, h.nodup, h.mem, h.independent, h.dependent, h.ordered,
    h.paid⟩

theorem Progress.takeDependent (id : Hash) : Progress deps q pending (t.takeDependent id) := by
  refine ⟨h.bytes_eq, h.sigops_eq, h.unpaid_eq, h.nodup, h.mem, h.independent, ?_, h.ordered,
    h.paid⟩
  intro id' tx hlookup
  change (t.dependentTxs.erase id).lookup id' = some tx at hlookup
  by_cases hid : id' = id
  · rw [hid, Finmap.lookup_erase] at hlookup
    cases hlookup
  · rw [Finmap.lookup_erase_ne hid] at hlookup
    exact h.dependent id' tx hlookup

end

/-- A drawn candidate can be selected. -/
theorem Progress.selectable_head (h : Progress deps q (tx :: rest) t) :
    Selectable deps q rest t tx := by
  have hmem : tx ∈ t.selectedTxs ++ tx :: rest := by simp
  have hindependent := h.independent tx mem_cons_self
  refine ⟨h.mem tx hmem, ?_, ?_, ?_, fun hdep => absurd hdep hindependent⟩
  · have hnodup := h.nodup
    rw [(perm_middle.map _).nodup_iff, map_cons, nodup_cons] at hnodup
    exact hnodup.1
  · by_contra hsome
    obtain ⟨tx', hlookup⟩ := Option.ne_none_iff_exists'.mp hsome
    exact (h.dependent _ _ hlookup).2.2 (mem_map_of_mem hmem)
  · intro b hb
    -- A transaction that is no key has no dependencies.
    have hnone : deps.dependencies.lookup tx.minedId = none :=
      Finmap.lookup_eq_none.mpr hindependent
    simp [TransactionDependencies.directDependencies, SetIndex.get, hnone] at hb

/-- A transaction that fits is selected. -/
theorem Progress.trySelect (h : Progress deps q pending t)
    (htx : Selectable deps q pending t tx) (hselect : t.trySelect tx = some t') :
    Progress deps q pending t' ∧ t'.dependentTxs = t.dependentTxs := by
  unfold Template.trySelect at hselect
  split at hselect
  · cases hselect
    have hids : ((t.selectedTxs ++ [tx]) ++ pending).Perm (tx :: (t.selectedTxs ++ pending)) := by
      rw [append_assoc]
      exact perm_middle
    refine ⟨⟨?_, ?_, ?_, ?_, ?_, h.independent, ?_, ?_, ?_⟩, rfl⟩
    · have := h.bytes_eq
      simp only [map_append, sum_append, map_cons, map_nil, sum_singleton]
      omega
    · have := h.sigops_eq
      simp only [map_append, sum_append, map_cons, map_nil, sum_singleton]
      omega
    · have := h.unpaid_eq
      simp only [map_append, sum_append, map_cons, map_nil, sum_singleton]
      omega
    · rw [(hids.map _).nodup_iff, map_cons, nodup_cons]
      exact ⟨htx.fresh, h.nodup⟩
    · intro tx' htx'
      rcases mem_cons.mp (hids.mem_iff.mp htx') with rfl | hold
      · exact htx.mem
      · exact h.mem tx' hold
    · intro id tx' hlookup
      obtain ⟨hmem, hid, hnot⟩ := h.dependent id tx' hlookup
      refine ⟨hmem, hid, fun hin => ?_⟩
      rw [(hids.map _).mem_iff, map_cons, mem_cons] at hin
      rcases hin with rfl | hin
      · change t.dependentTxs.lookup tx.minedId = some tx' at hlookup
        rw [htx.taken] at hlookup
        cases hlookup
      · exact hnot hin
    · rw [map_append]
      exact h.ordered.snoc htx.ready
    · intro tx' htx' hdep
      rcases mem_append.mp htx' with hold | hnew
      · exact h.paid tx' hold hdep
      · rw [mem_singleton] at hnew
        exact hnew ▸ htx.paid (hnew ▸ hdep)
  · cases hselect

/-- The count is that of the selected dependencies. -/
theorem card_le_of_countsAllDeps {n : Nat} (h : countsAllDeps ids selected n = true) :
    ids.card ≤ n + ((selected.map fun tx => tx.minedId).filter (· ∈ ids)).length := by
  induction selected generalizing n with
  | nil => cases h
  | cons tx rest ih =>
    rw [countsAllDeps] at h
    by_cases hmem : tx.minedId ∈ ids
    · rw [if_pos hmem] at h
      have hlength : (((tx :: rest).map fun tx => tx.minedId).filter (· ∈ ids)).length =
          ((rest.map fun tx => tx.minedId).filter (· ∈ ids)).length + 1 := by
        simp [hmem]
      by_cases hall : n + 1 = ids.card
      · omega
      · rw [if_neg hall] at h
        have := ih h
        omega
    · rw [if_neg hmem] at h
      have := ih h
      simpa [hmem] using this

/-- A dependent transaction whose dependencies are selected can be
selected. -/
theorem Progress.selectable_dependent (h : Progress deps q pending t)
    (hdeps : hasDirectDependencies (deps.dependencies.lookup id) t.selectedTxs = true)
    (hlookup : t.dependentTxs.lookup id = some tx) (hpaid : tx.paysConventionalFee = true) :
    Selectable deps q pending (t.takeDependent id) tx := by
  obtain ⟨hmem, rfl, hnot⟩ := h.dependent id tx hlookup
  refine ⟨hmem, hnot, Finmap.lookup_erase _ _, ?_, fun _ => hpaid⟩
  intro b hb
  have hselected : (t.selectedTxs.map fun tx => tx.minedId).Nodup := by
    have hnodup := h.nodup
    rw [map_append, nodup_append] at hnodup
    exact hnodup.1
  cases hids : deps.dependencies.lookup tx.minedId with
  | none => simp [TransactionDependencies.directDependencies, SetIndex.get, hids] at hb
  | some ids =>
    rw [hids] at hdeps
    have hb' : b ∈ ids := by
      simpa [TransactionDependencies.directDependencies, SetIndex.get, hids] using hb
    have hcount : countsAllDeps ids t.selectedTxs 0 = true := by
      unfold hasDirectDependencies at hdeps
      by_cases hshort : t.selectedTxs.length < ids.card
      · simp [hshort] at hdeps
      · simpa [hshort] using hdeps
    -- Distinct selected transactions, as many as there are dependencies, are all of them.
    let found := (t.selectedTxs.map fun tx => tx.minedId).filter (· ∈ ids)
    have hsubset : found.toFinset ⊆ ids := by
      intro b hb
      simpa [found] using (List.mem_filter.mp (mem_toFinset.mp hb)).2
    have heq : found.toFinset = ids := by
      refine Finset.eq_of_subset_of_card_le hsubset ?_
      rw [toFinset_card_of_nodup (hselected.filter _)]
      exact (card_le_of_countsAllDeps hcount).trans (Nat.zero_add _).le
    rw [← heq, mem_toFinset] at hb'
    exact (List.mem_filter.mp hb').1

/-! ## The loops -/

/-- Step lemma for a dependent transaction: the next level grows only if a
transaction is taken out. -/
theorem addDependent_spec {acc : Template × Finset Hash} (id : Hash)
    (h : Progress deps q pending acc.1) :
    Progress deps q pending (addDependent deps acc id).1 ∧
      (addDependent deps acc id = acc ∨
        (addDependent deps acc id).1.dependentTxs.keys.card < acc.1.dependentTxs.keys.card) := by
  unfold addDependent
  by_cases hdeps : hasDirectDependencies (deps.dependencies.lookup id) acc.1.selectedTxs = true
  · rw [if_pos hdeps]
    cases hlookup : acc.1.dependentTxs.lookup id with
    | none => exact ⟨h, .inl rfl⟩
    | some tx =>
      have htaken := h.takeDependent id
      have hcard : (acc.1.takeDependent id).dependentTxs.keys.card <
          acc.1.dependentTxs.keys.card := by
        have hid : id ∈ acc.1.dependentTxs.keys :=
          Finmap.mem_keys.mpr (Finmap.mem_of_lookup_eq_some hlookup)
        have hkeys : (acc.1.takeDependent id).dependentTxs.keys =
            acc.1.dependentTxs.keys.erase id := Finmap.keys_erase _ _
        rw [hkeys]
        exact Finset.card_erase_lt_of_mem hid
      by_cases hpaid : tx.paysConventionalFee = false
      · simp only [if_pos hpaid]
        exact ⟨htaken, .inr hcard⟩
      · simp only [if_neg hpaid]
        cases hselect : (acc.1.takeDependent id).trySelect tx with
        | none => exact ⟨htaken, .inr hcard⟩
        | some t' =>
          have hselectable := h.selectable_dependent hdeps hlookup (by simpa using hpaid)
          obtain ⟨hprogress, hdependent⟩ := htaken.trySelect hselectable hselect
          refine ⟨hprogress, .inr ?_⟩
          show t'.dependentTxs.keys.card < _
          rw [hdependent]
          exact hcard
  · rw [if_neg hdeps]
    exact ⟨h, .inl rfl⟩

/-- A level: there is a next one only if a transaction is taken out. -/
theorem addLevel_spec (level : Finset Hash) (h : Progress deps q pending t) :
    Progress deps q pending (addLevel x deps t level).1 ∧
      ((addLevel x deps t level).2 = ∅ ∨
        (addLevel x deps t level).1.dependentTxs.keys.card < t.dependentTxs.keys.card) := by
  unfold addLevel
  generalize (x.order t.tick).list level = ids
  have hrun : ∀ acc : Template × Finset Hash, Progress deps q pending acc.1 →
      Progress deps q pending (ids.foldl (addDependent deps) acc).1 ∧
        (ids.foldl (addDependent deps) acc = acc ∨
          (ids.foldl (addDependent deps) acc).1.dependentTxs.keys.card <
            acc.1.dependentTxs.keys.card) := by
    induction ids with
    | nil => exact fun acc hacc => ⟨hacc, .inl rfl⟩
    | cons id ids ih =>
      intro acc hacc
      obtain ⟨hstep, hchange⟩ := addDependent_spec id hacc
      obtain ⟨hrest, hchanges⟩ := ih _ hstep
      refine ⟨hrest, ?_⟩
      rw [foldl_cons]
      rcases hchange with hsame | hless
      · rw [hsame] at hchanges ⊢
        exact hchanges
      · rcases hchanges with hsame | hmore
        · rw [hsame]
          exact .inr hless
        · exact .inr (hmore.trans hless)
  obtain ⟨hprogress, hsame | hless⟩ := hrun (t.ticked, ∅) h.ticked
  · exact ⟨hprogress, .inl (by rw [hsame])⟩
  · exact ⟨hprogress, .inr hless⟩

/-- The levels end: every level but the last one takes a transaction out. -/
theorem addLevels_spec (level : Finset Hash) (h : Progress deps q pending t)
    (hfuel : t.dependentTxs.keys.card < fuel) :
    ∃ t', addLevels x deps fuel t level = some t' ∧ Progress deps q pending t' := by
  induction fuel generalizing t level with
  | zero => omega
  | succ fuel ih =>
    rw [addLevels]
    by_cases hempty : level = ∅
    · rw [if_pos hempty]
      exact ⟨t, rfl, h⟩
    · rw [if_neg hempty]
      obtain ⟨hprogress, hnext⟩ := @addLevel_spec x deps q pending t level h
      rcases hnext with hlast | hless
      · simp only [hlast]
        refine ⟨_, ?_, hprogress⟩
        cases fuel <;> simp [addLevels]
      · exact ih _ hprogress (by omega)

/-- A drawn candidate with its dependents. -/
theorem checkedAddTransaction_spec (h : Progress deps q (tx :: rest) t) :
    ∃ t', checkedAddTransaction x deps t tx = some t' ∧ Progress deps q rest t' := by
  have hrest := h.subperm (sublist_cons_self tx rest).subperm
  unfold checkedAddTransaction
  cases hselect : t.trySelect tx with
  | none => exact ⟨t, rfl, hrest⟩
  | some t₁ => exact addLevels_spec _ (hrest.trySelect h.selectable_head hselect).1 (by omega)

/-- A loop over candidates ends: every round takes one out. -/
theorem selectFrom_spec (h : Progress deps q (candidates ++ pending) t)
    (hfuel : candidates.length ≤ fuel) :
    ∃ t', selectFrom x deps fuel candidates t = some t' ∧ Progress deps q pending t' := by
  have hdone := h.subperm (sublist_append_right candidates pending).subperm
  induction fuel generalizing candidates t with
  | zero =>
    have hnil : candidates = [] := length_eq_zero_iff.mp (by omega)
    exact ⟨t, by simp [selectFrom, hasWeightedIndex, hnil], hdone⟩
  | succ fuel ih =>
    rw [selectFrom]
    by_cases hindex : hasWeightedIndex x candidates = false
    · rw [if_pos hindex]
      exact ⟨t, rfl, hdone⟩
    · rw [if_neg hindex]
      have hne : candidates ≠ [] := by
        rintro rfl
        exact hindex rfl
      obtain ⟨rest, hremove, hperm⟩ := swapRemove_spec (x.sample_lt t.tick candidates hne)
      have hprogress : Progress deps q (_ :: (rest ++ pending)) t.ticked :=
        (h.subperm (hperm.append_right pending).symm.subperm).ticked
      obtain ⟨t₁, hadd, hprogress₁⟩ := @checkedAddTransaction_spec x _ _ _ _ _ hprogress
      have hlength := hperm.length_eq
      rw [length_cons] at hlength
      obtain ⟨t', hloop, hprogress'⟩ := ih hprogress₁ (by omega)
        (hprogress₁.subperm (sublist_append_right rest pending).subperm)
      refine ⟨t', ?_, hprogress'⟩
      simp [hremove, hadd, hloop]

end Progress

/-! ## The selection -/

section Selection

variable {x : Sampling} {deps : TransactionDependencies} {txs : List VerifiedUnminedTx}
  {tx : VerifiedUnminedTx}

theorem lookup_byMinedId (h : (byMinedId txs).lookup id = some tx) :
    tx ∈ txs ∧ tx.minedId = id := by
  induction txs using List.reverseRecOn with
  | nil => simp [byMinedId] at h
  | append_singleton txs last ih =>
    rw [byMinedId, foldl_append, foldl_cons, foldl_nil] at h
    by_cases hid : id = last.minedId
    · rw [hid, Finmap.lookup_insert] at h
      cases h
      exact ⟨by simp, hid.symm⟩
    · rw [Finmap.lookup_insert_of_ne _ hid] at h
      obtain ⟨hmem, hkey⟩ := ih h
      exact ⟨mem_append_left _ hmem, hkey⟩

theorem mem_values {it : Iteration Hash} (h : tx ∈ values it (byMinedId txs)) : tx ∈ txs := by
  obtain ⟨id, _, hlookup⟩ := mem_filterMap.mp h
  exact (lookup_byMinedId hlookup).1

/-- The values of a map by ids have distinct ids. -/
theorem nodup_values (it : Iteration Hash) :
    ((values it (byMinedId txs)).map fun tx => tx.minedId).Nodup := by
  have hids : (values it (byMinedId txs)).map (fun tx => tx.minedId) =
      it.list (byMinedId txs).keys := by
    unfold values
    rw [map_filterMap]
    conv_rhs => rw [← filterMap_some (l := it.list (byMinedId txs).keys)]
    refine filterMap_congr ?_
    intro id hid
    obtain ⟨tx, hlookup⟩ :=
      Finmap.mem_iff.mp (Finmap.mem_keys.mp ((it.mem_list _ id).mp hid))
    rw [hlookup, Option.map_some, (lookup_byMinedId hlookup).2]
  rw [hids]
  exact it.nodup _

/-- The loops end with a sound selection. -/
theorem selectWithin_spec (x : Sampling) (txs : List VerifiedUnminedTx)
    (deps : TransactionDependencies) (bytes sigops : Nat) :
    ∃ t, selectWithin x txs deps bytes sigops = some t.selectedTxs ∧
      Progress deps ⟨txs, bytes, sigops⟩ [] t := by
  let independentTxs := values (x.order 0)
    (byMinedId (txs.filter fun tx => tx.minedId ∉ deps.dependencies))
  let conventionalFeeTxs := independentTxs.filter fun tx => tx.paysConventionalFee
  let lowFeeTxs := independentTxs.filter fun tx => !tx.paysConventionalFee
  let t₀ : Template :=
    { selectedTxs := []
      dependentTxs := byMinedId (txs.filter fun tx => tx.minedId ∈ deps.dependencies)
      remainingBlockBytes := bytes
      remainingBlockSigops := sigops
      remainingBlockUnpaidActions := blockUnpaidActionLimit
      tick := 1 }
  have hindependent : ∀ tx ∈ independentTxs, tx ∈ txs ∧ tx.minedId ∉ deps.dependencies := by
    intro tx htx
    simpa using List.mem_filter.mp (mem_values htx)
  have hinit : Progress deps ⟨txs, bytes, sigops⟩ independentTxs t₀ := by
    refine ⟨by simp [t₀], by simp [t₀], by simp [t₀], nodup_values _, ?_, ?_, ?_, .nil, ?_⟩
    · exact fun tx htx => (hindependent tx htx).1
    · exact fun tx htx => (hindependent tx htx).2
    · intro id tx hlookup
      obtain ⟨hmem, rfl⟩ := lookup_byMinedId hlookup
      obtain ⟨htx, hdep⟩ := List.mem_filter.mp hmem
      refine ⟨htx, rfl, ?_⟩
      intro hin
      obtain ⟨tx', htx', hid⟩ := mem_map.mp hin
      exact (hindependent tx' htx').2 (hid ▸ of_decide_eq_true hdep)
    · exact fun tx htx => absurd htx not_mem_nil
  have hpartition : independentTxs.Perm (conventionalFeeTxs ++ (lowFeeTxs ++ [])) := by
    rw [append_nil]
    exact (filter_append_perm _ _).symm
  obtain ⟨t₁, hfirst, hprogress₁⟩ :=
    @selectFrom_spec x _ _ _ _ _ _ (hinit.subperm hpartition.symm.subperm) le_rfl
  obtain ⟨t₂, hsecond, hprogress₂⟩ := @selectFrom_spec x _ _ _ _ _ _ hprogress₁ le_rfl
  refine ⟨t₂, ?_, hprogress₂⟩
  show (selectFrom x deps conventionalFeeTxs.length conventionalFeeTxs t₀ >>= fun t =>
    selectFrom x deps lowFeeTxs.length lowFeeTxs t >>= fun t => some t.selectedTxs) = _
  simp [hfirst, hsecond]

/-- The selection ends for every outcome of the sampling. A result has no
duplicates, holds mempool transactions only, each after everything it
depends on, keeps all limits together with the coinbase and the block
framing, and every transaction with dependencies pays the conventional
fee. -/
theorem selection_is_sound (x : Sampling) (net : Network)
    (coinbase : Except TransactionError TransactionTemplate)
    (mempoolTxs : List VerifiedUnminedTx) (deps : TransactionDependencies)
    (withWcashAux : Option (TransactionTemplate → Except TransactionError TransactionTemplate)) :
    ∃ r, selectMempoolTransactions x net coinbase mempoolTxs deps withWcashAux = some r ∧
      ∀ selected, r = .ok selected →
        (selected.map fun tx => tx.minedId).Nodup ∧
        (∀ tx ∈ selected, tx ∈ mempoolTxs) ∧
        DependenciesFirst (fun a b => b ∈ deps.directDependencies a)
          (selected.map fun tx => tx.minedId) ∧
        (∃ fakeCoinbaseTx, fakeCoinbase coinbase withWcashAux = .ok fakeCoinbaseTx ∧
          (selected.map fun tx => tx.transaction.size).sum + fakeCoinbaseTx.data.length +
            headerSerializedSize net + maxTransactionCountSize ≤ maxBlockBytes ∧
          (selected.map fun tx => tx.blockSigopCount).sum + fakeCoinbaseTx.sigops ≤
            Consensus.maxBlockSigops) ∧
        (selected.map fun tx => tx.unpaidActions).sum ≤ blockUnpaidActionLimit ∧
        ∀ tx ∈ selected, deps.directDependencies tx.minedId ≠ ∅ →
          tx.paysConventionalFee = true := by
  unfold selectMempoolTransactions
  cases hlimits : fakeCoinbase coinbase withWcashAux >>= remainingLimits net with
  | error e => exact ⟨_, rfl, fun selected h => by cases h⟩
  | ok limits =>
    obtain ⟨t, hselect, hprogress⟩ := selectWithin_spec x mempoolTxs deps limits.1 limits.2
    refine ⟨.ok t.selectedTxs, by simp [hselect], ?_⟩
    intro selected hok
    cases hok
    obtain ⟨fakeCoinbaseTx, hcoinbase, hremaining⟩ := of_bind hlimits
    obtain ⟨bytes, hbytes, hremaining⟩ := of_okOr_bind hremaining
    obtain ⟨sigops, hsigops, hremaining⟩ := of_okOr_bind hremaining
    cases hremaining
    obtain ⟨first, hfirst, hrest⟩ := Option.bind_eq_some_iff.mp hbytes
    obtain ⟨second, hsecond, hthird⟩ := Option.bind_eq_some_iff.mp hrest
    rw [checkedSub_eq_some] at hfirst hsecond hthird hsigops
    have hnodup := hprogress.nodup
    rw [append_nil] at hnodup
    refine ⟨hnodup, ?_, hprogress.ordered, ⟨fakeCoinbaseTx, hcoinbase, ?_, ?_⟩, ?_, ?_⟩
    · exact fun tx htx => hprogress.mem tx (mem_append_left _ htx)
    · have : _ = bytes := hprogress.bytes_eq
      omega
    · have : _ = sigops := hprogress.sigops_eq
      omega
    · have := hprogress.unpaid_eq
      omega
    · intro tx htx hdeps
      refine hprogress.paid tx htx ?_
      by_contra hnot
      rw [← Finmap.lookup_eq_none] at hnot
      simp [TransactionDependencies.directDependencies, SetIndex.get, hnot] at hdeps

end Selection

/-- The first candidate is drawn every time. -/
def sampleSampling : Sampling where
  order _ := sampleIteration
  weightsValid _ := true
  sample _ _ := 0
  sample_lt _ _ := length_pos_iff.mpr

/-- The pair of the mempool sample: transaction 2 depends on transaction 1
and comes after it. -/
theorem selection_is_sound_pair :
    ∃ selected, selectMempoolTransactions sampleSampling ⟨true, false⟩ (.ok ⟨[0], 0⟩)
        [sampleTx 2 1, sampleTx 1 9] sampleSecond.transactionDependencies none =
          some (.ok selected) ∧
      selected.map (fun tx => tx.minedId) = [.fill 32 1, .fill 32 2] ∧
      DependenciesFirst (fun a b => b ∈ sampleSecond.transactionDependencies.directDependencies a)
        [.fill 32 1, .fill 32 2] := by
  obtain ⟨r, hselect, hsound⟩ := selection_is_sound sampleSampling ⟨true, false⟩ (.ok ⟨[0], 0⟩)
    [sampleTx 2 1, sampleTx 1 9] sampleSecond.transactionDependencies none
  have hids : (selectMempoolTransactions sampleSampling ⟨true, false⟩ (.ok ⟨[0], 0⟩)
      [sampleTx 2 1, sampleTx 1 9] sampleSecond.transactionDependencies none).map
        (Except.map (map fun tx => tx.minedId)) = some (.ok [.fill 32 1, .fill 32 2]) := by
    decide +kernel
  rw [hselect] at hids
  cases r with
  | error e => cases hids
  | ok selected =>
    have hids : selected.map (fun tx => tx.minedId) = [.fill 32 1, .fill 32 2] :=
      Except.ok.inj (Option.some.inj hids)
    exact ⟨selected, hselect, hids, hids ▸ (hsound selected rfl).2.2.1⟩

end Wolf.BlockTemplate
