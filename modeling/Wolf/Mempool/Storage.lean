import Mathlib.Data.Finset.Order
import Mathlib.Data.List.TakeWhile
import Mathlib.Data.Nat.Pairing
import Wolf.Framework.LineLoop
import Wolf.Mempool.Exact

/-! # Mempool storage

The verified set with the lists of rejected transactions. `insert` adds
a transaction and then evicts transactions at random until the total
cost is within its limit.

The result of `insert` is changed to an error when the new transaction
is drawn as a victim. It is not changed when a transaction is drawn
that the new one depends on, although the new one is removed with it.

* `insert_reports_stored`: over all reached storages and all choices of
  victims, with the exact condition under which a stored transaction is
  really there.
* `storage_stays_bounded`: the cost and the lists stay within bounds.
* `insert_reports_missing`: a transaction is reported as stored that is
  not.
* `expiry_reports_removed`: what `remove_expired_transactions` returns. -/

namespace Wolf.Mempool

open Ledger Finmap Multiset

/-! ## Rejections -/

inductive NonStandardTransactionError where
  | isDust
  | scriptSigTooLarge
  | scriptSigNotPushOnly
  | scriptPubKeyNonStandard
  | bareMultiSig
  | multiOpReturn
  | dataCarrierTooLarge
  | tooManySigops
  | nonStandardInputs
  deriving DecidableEq

/-- `ExactTipRejectionError`, without the consensus error. -/
inductive ExactTipRejectionError where
  | failedVerification
  | failedStandard (e : NonStandardTransactionError)
  deriving DecidableEq

inductive SameEffectsChainRejectionError where
  | expired
  | duplicateSpend
  | mined
  | randomlyEvicted
  deriving DecidableEq

inductive RejectionError where
  | exactTip (e : ExactTipRejectionError)
  | sameEffectsTip (e : SameEffectsTipRejectionError)
  | sameEffectsChain (e : SameEffectsChainRejectionError)
  | nonStandardTransaction (e : NonStandardTransactionError)
  deriving DecidableEq

/-- `MempoolError`, as far as the storage returns it. -/
inductive MempoolError where
  | storageExactTip (e : ExactTipRejectionError)
  | storageEffectsTip (e : SameEffectsTipRejectionError)
  | storageEffectsChain (e : SameEffectsChainRejectionError)
  | inMempool
  | nonStandardTransaction (e : NonStandardTransactionError)
  deriving DecidableEq

/-- `TransactionDownloadVerifyError`, without its payloads. -/
inductive TransactionDownloadVerifyError where
  | inState
  | stateError
  | downloadFailed
  | cancelled
  | invalid
  deriving DecidableEq

def maxEvictionMemoryEntries : Nat := 40000

/-- `EvictionList`: transactions with the times at which they were added,
the oldest first. -/
structure EvictionList where
  entries : List (Hash × Nat) := []

variable {key : Hash} {e : Panic}

namespace EvictionList

variable (l : EvictionList) (evictionMemoryTime now : Nat)

def hasExpired (evictedAt : Nat) : Bool := evictionMemoryTime < now - evictedAt

def containsKey (txid : Hash) : Bool :=
  l.entries.any fun entry => entry.1 = txid ∧ hasExpired evictionMemoryTime now entry.2 = false

def pruneOld : EvictionList :=
  ⟨l.entries.dropWhile fun entry => hasExpired evictionMemoryTime now entry.2⟩

/-- `insert`, which panics if the list has the transaction. -/
def insert (key : Hash) : Except Panic EvictionList :=
  let pruned := (l.pruneOld evictionMemoryTime now).entries
  let kept := if maxEvictionMemoryEntries ≤ pruned.length then pruned.drop 1 else pruned
  if key ∈ kept.map Prod.fst then .error .alreadyEvicted else .ok ⟨kept ++ [(key, now)]⟩

end EvictionList

/-! ## The storage -/

/-- What one call of the storage depends on besides its arguments: chance,
the time, the order in which the rejection lists are searched, and the
policy that decides whether a transaction is standard. -/
structure Env extends Chance where
  idIteration : Iteration UnminedTxId
  now : Nat
  rejectionOrder : List SameEffectsChainRejectionError
  mem_rejectionOrder : ∀ e, e ∈ rejectionOrder
  rejectIfNonStandardTx : Nat → VerifiedUnminedTx → Option NonStandardTransactionError

/-- `Storage`, without the requests that wait for outputs. -/
structure Storage where
  verified : VerifiedSet := {}
  tipRejectedExact : Index UnminedTxId ExactTipRejectionError := ∅
  tipRejectedSameEffects : Index Hash SameEffectsTipRejectionError := ∅
  chainRejectedSameEffects : SameEffectsChainRejectionError → EvictionList := fun _ => {}
  evictionMemoryTime : Nat
  txCostLimit : Nat
  maxDatacarrierBytes : Nat

/-- The ids of the transactions under some keys. -/
def VerifiedSet.idsOf (v : VerifiedSet) (keys : Finset Hash) : Finset UnminedTxId :=
  keys.biUnion fun key => ((v.transactions.lookup key).map fun tx => tx.transaction.id).toFinset

namespace Storage

variable (env : Env) (s : Storage)

def limitRejectionListMemory : Storage :=
  { s with
    tipRejectedExact :=
      if maxEvictionMemoryEntries < s.tipRejectedExact.keys.card then ∅ else s.tipRejectedExact
    tipRejectedSameEffects :=
      if maxEvictionMemoryEntries < s.tipRejectedSameEffects.keys.card then ∅
      else s.tipRejectedSameEffects }

def reject (txId : UnminedTxId) (reason : RejectionError) : Except Panic Storage :=
  match reason with
  | .exactTip e =>
    .ok { s with tipRejectedExact := s.tipRejectedExact.insert txId e }.limitRejectionListMemory
  | .sameEffectsTip e =>
    .ok { s with
      tipRejectedSameEffects :=
        s.tipRejectedSameEffects.insert txId.minedId e }.limitRejectionListMemory
  | .sameEffectsChain e => do
    let list ← (s.chainRejectedSameEffects e).insert s.evictionMemoryTime env.now txId.minedId
    .ok { s with
      chainRejectedSameEffects := fun reason =>
        if reason = e then list else s.chainRejectedSameEffects reason }.limitRejectionListMemory
  | .nonStandardTransaction e =>
    .ok { s with
      tipRejectedExact :=
        s.tipRejectedExact.insert txId (.failedStandard e) }.limitRejectionListMemory

def rejectionError (txid : UnminedTxId) : Option MempoolError :=
  match s.tipRejectedExact.lookup txid with
  | some e => some (.storageExactTip e)
  | none =>
    match s.tipRejectedSameEffects.lookup txid.minedId with
    | some e => some (.storageEffectsTip e)
    | none => (env.rejectionOrder.find? fun e =>
        (s.chainRejectedSameEffects e).containsKey s.evictionMemoryTime env.now txid.minedId).map
          .storageEffectsChain

/-- The result of an insertion. -/
abbrev Inserted : Type := Except MempoolError UnminedTxId

/-- One round of the eviction loop of `insert`. -/
def evictRound : Except Panic (VerifiedUnminedTx × Storage) := do
  let evicted ← s.verified.evictOne env.toChance
  let victim ← okOr evicted.2 .emptyMempool
  let s ← { s with verified := evicted.1 }.reject env victim.transaction.id
    (.sameEffectsChain .randomlyEvicted)
  .ok (victim, s)

/-- The eviction loop of `insert`. Every round evicts a transaction, so
there are at most as many rounds as transactions; a further one finds
an empty set. -/
def evictOverLimit (env : Env) (unminedTxId : UnminedTxId) :
    Nat → Storage → Inserted → Except Panic (Inserted × Storage)
  | 0, s, result =>
    if s.verified.totalCost ≤ s.txCostLimit then .ok (result, s) else .error .noWeights
  | rounds + 1, s, result =>
    if s.verified.totalCost ≤ s.txCostLimit then .ok (result, s)
    else do
      let evicted ← s.evictRound env
      evictOverLimit env unminedTxId rounds evicted.2
        (if evicted.1.transaction.id = unminedTxId then
          .error (.storageEffectsChain .randomlyEvicted)
        else result)

/-- The part of `insert` behind the first checks. -/
def insertAndEvict (tx : VerifiedUnminedTx) (spentMempoolOutpoints : List OutPoint)
    (height : Option Nat) : Except Panic (Inserted × Storage) :=
  let inserted := s.verified.insert tx spentMempoolOutpoints height
  match inserted.1 with
  | .ok _ =>
    evictOverLimit env tx.transaction.id inserted.2.transactions.keys.card
      { s with verified := inserted.2 } (.ok tx.transaction.id)
  | .error e => do
    let s ← { s with verified := inserted.2 }.reject env tx.transaction.id (.sameEffectsTip e)
    evictOverLimit env tx.transaction.id s.verified.transactions.keys.card s
      (.error (.storageEffectsTip e))

def insert (tx : VerifiedUnminedTx) (spentMempoolOutpoints : List OutPoint)
    (height : Option Nat) : Except Panic (Inserted × Storage) :=
  match s.rejectionError env tx.transaction.id with
  | some e => .ok (.error e, s)
  | none =>
    if s.verified.contains tx.minedId then .ok (.error .inMempool, s)
    else
      match env.rejectIfNonStandardTx s.maxDatacarrierBytes tx with
      | some e => do
        let s ← s.reject env tx.transaction.id (.nonStandardTransaction e)
        .ok (.error (.nonStandardTransaction e), s)
      | none => s.insertAndEvict env tx spentMempoolOutpoints height

def removeExact (exactWtxids : Finset UnminedTxId) : Except Panic Storage := do
  let removed ← s.verified.removeAllThat env.iteration fun tx => tx.transaction.id ∈ exactWtxids
  .ok { s with verified := removed.1 }

def clearMinedDependencies (minedIds : Finset Hash) : Storage :=
  { s with verified := s.verified.clearMinedDependencies env.iteration minedIds }

/-- The transactions that spend or reveal something that some mined
transactions do. -/
def duplicateSpendIds (transactions : List Transaction) : Finset UnminedTxId :=
  s.verified.idsOf (s.verified.matching fun tx =>
    (tx.effects.spentOutpoints.any fun o => transactions.any fun t => o ∈ t.spentOutpoints) ||
      Pool.all.any fun pool => (tx.effects.nullifiers pool).any fun n =>
        transactions.any fun t => n ∈ t.nullifiers pool)

def rejectAndRemoveSameEffects (minedIds : Finset Hash) (transactions : List Transaction) :
    Except Panic Storage := do
  let removedMined ← s.verified.removeAllThat env.iteration fun tx => tx.minedId ∈ minedIds
  let s := { s with verified := removedMined.1 }
  let duplicates := s.duplicateSpendIds transactions
  let removedDuplicateSpend ← s.verified.removeAllThat env.iteration fun tx =>
    tx.transaction.id ∈ duplicates
  let s := { s with verified := removedDuplicateSpend.1 }
  let s ← (env.iteration.list minedIds).foldlM
    (fun s id => s.reject env (.legacy id) (.sameEffectsChain .mined)) s
  (env.idIteration.list duplicates).foldlM
    (fun s id => s.reject env id (.sameEffectsChain .duplicateSpend)) s

def clear : Storage :=
  { s with
    verified := .clear
    tipRejectedExact := ∅
    tipRejectedSameEffects := ∅
    chainRejectedSameEffects := fun _ => {} }

def clearTipRejections : Storage :=
  { s with tipRejectedExact := ∅, tipRejectedSameEffects := ∅ }

def rejectIfNeeded (txId : UnminedTxId) : TransactionDownloadVerifyError → Except Panic Storage
  | .invalid => s.reject env txId (.exactTip .failedVerification)
  | _ => .ok s

/-- The transactions whose expiry height the tip has reached. -/
def expired (tipHeight : Nat) : Finset Hash :=
  s.verified.matching fun tx =>
    tx.transaction.expiryHeight.any fun expiryHeight => expiryHeight ≤ tipHeight

def removeExpiredTransactions (tipHeight : Nat) : Except Panic (Finset UnminedTxId × Storage) := do
  let txIds := s.expired tipHeight
  let unminedTxIds := s.verified.idsOf txIds
  let removed ← s.verified.removeAllThat env.iteration fun tx => tx.minedId ∈ txIds
  let s ← (env.iteration.list txIds).foldlM
    (fun s id => s.reject env (.legacy id) (.sameEffectsChain .expired))
    { s with verified := removed.1 }
  .ok (unminedTxIds, s)

end Storage

/-! ## Eviction -/

variable {reason : RejectionError} {id : UnminedTxId} {r : Storage.Inserted} {s₁ : Storage}

section Eviction

variable {env : Env} {s s' : Storage} {txs rest : Multiset VerifiedUnminedTx}
  {victim : VerifiedUnminedTx} {result : Storage.Inserted} {txId : UnminedTxId}

/-- The lists of rejected transactions are apart from the verified set. -/
theorem Storage.reject_eq_ok (h : s.reject env txId reason = .ok s') :
    s'.verified = s.verified ∧ s'.txCostLimit = s.txCostLimit := by
  cases reason with
  | exactTip e | sameEffectsTip e | nonStandardTransaction e =>
    cases h
    exact ⟨rfl, rfl⟩
  | sameEffectsChain e =>
    obtain ⟨list, _, h⟩ := of_bind h
    cases h
    exact ⟨rfl, rfl⟩

theorem Storage.reject_eq_error (h : s.reject env txId reason = .error e) :
    e = .alreadyEvicted := by
  cases reason with
  | exactTip _ | sameEffectsTip _ | nonStandardTransaction _ => cases h
  | sameEffectsChain reason =>
    rcases bind_eq_error.mp h with hinsert | ⟨list, _, h⟩
    · unfold EvictionList.insert at hinsert
      dsimp only at hinsert
      split_ifs at hinsert
      all_goals
        cases hinsert
        rfl
    · cases h

/-- An entry is added unless the list has it already. -/
theorem EvictionList.insert_cases (l : EvictionList) (evictionMemoryTime now : Nat) (key : Hash) :
    (l.insert evictionMemoryTime now key = .error .alreadyEvicted ∧
      ∃ entry ∈ (l.pruneOld evictionMemoryTime now).entries, entry.1 = key) ∨
    ∃ l', l.insert evictionMemoryTime now key = .ok l' ∧ ∀ entry ∈ l'.entries,
      entry ∈ (l.pruneOld evictionMemoryTime now).entries ∨ entry.1 = key := by
  unfold EvictionList.insert
  dsimp only
  generalize (l.pruneOld evictionMemoryTime now).entries = pruned
  have hsub : (if maxEvictionMemoryEntries ≤ pruned.length then pruned.drop 1 else pruned) ⊆
      pruned := by
    split
    · exact List.drop_subset _ _
    · exact List.Subset.refl _
  generalize (if maxEvictionMemoryEntries ≤ pruned.length then pruned.drop 1 else pruned) = kept
    at hsub ⊢
  split_ifs with hkey
  · obtain ⟨entry, hentry, hkey⟩ := List.mem_map.mp hkey
    exact .inl ⟨rfl, entry, hsub hentry, hkey⟩
  · refine .inr ⟨_, rfl, ?_⟩
    intro entry hentry
    rcases List.mem_append.mp hentry with hentry | hentry
    · exact .inl (hsub hentry)
    · exact .inr (by rw [List.mem_singleton.mp hentry])

/-- No held transaction is in the list of evicted ones, apart from entries
that have expired. -/
def Storage.Unlisted (s : Storage) (now : Nat) : Prop :=
  ∀ entry ∈
      ((s.chainRejectedSameEffects .randomlyEvicted).pruneOld s.evictionMemoryTime now).entries,
    entry.1 ∉ s.verified.transactions

/-- What a round of the eviction loop does. -/
structure Evicts (env : Env) (s : Storage) (txs rest : Multiset VerifiedUnminedTx)
    (victim : VerifiedUnminedTx) (s' : Storage) : Prop where
  exact : Exact s'.verified rest
  limit : s'.txCostLimit = s.txCostLimit
  le : rest ≤ txs
  drawn : victim.minedId = env.draw s.verified.transactions.keys
  victim_mem : victim ∈ txs
  mem_iff : ∀ x, x ∈ s'.verified.transactions ↔ x ∈ s.verified.transactions ∧
    ¬ Relation.ReflTransGen s.verified.transactionDependencies.Edge victim.minedId x
  edge : ∀ a b, s'.verified.transactionDependencies.Edge a b →
    s.verified.transactionDependencies.Edge a b
  unlisted : s.Unlisted env.now → s'.Unlisted env.now

/-- An empty set costs nothing. -/
theorem Exact.totalCost_of_keys_empty {v : VerifiedSet} (h : Exact v txs)
    (hempty : v.transactions.keys = ∅) : v.totalCost = 0 := by
  have hnone : txs = 0 := by
    rw [eq_zero_iff_forall_notMem]
    intro tx htx
    have hmem := mem_keys.mpr (h.mem_iff.mpr ⟨tx, htx, rfl⟩)
    rw [hempty] at hmem
    exact Finset.notMem_empty _ hmem
  rw [h.cost, hnone]
  rfl

/-- A set whose cost is over the limit is not empty, so a round finds a
victim. It fails only if that victim was evicted before. -/
theorem Storage.evictRound_spec (h : Exact s.verified txs)
    (hcost : ¬ s.verified.totalCost ≤ s.txCostLimit) :
    (s.evictRound env = .error .alreadyEvicted ∧ ¬ s.Unlisted env.now) ∨
      ∃ victim s' rest, s.evictRound env = .ok (victim, s') ∧ Evicts env s txs rest victim s' := by
  unfold Storage.evictRound
  rcases h.evictOne env.toChance with ⟨hempty, _⟩ |
    ⟨hdraw, v', victim, removed, rest, hevict, hexact, hremoves, hlast, hid, hedge⟩
  · rw [h.totalCost_of_keys_empty hempty] at hcost
    exact absurd (Nat.zero_le _) hcost
  rw [hevict, ok_bind, okOr_bind]
  rcases (s.chainRejectedSameEffects .randomlyEvicted).insert_cases s.evictionMemoryTime
    env.now victim.minedId with ⟨hinsert, entry, hentry, hkey⟩ | ⟨list, hinsert, hlist⟩
  · refine .inl ⟨?_, fun hunlisted => hunlisted entry hentry ?_⟩
    · show (((s.chainRejectedSameEffects .randomlyEvicted).insert s.evictionMemoryTime env.now
        victim.minedId >>= _) >>= _) = _
      rw [hinsert]
      rfl
    · rw [hkey, hid]
      exact hdraw
  · right
    have hmem : ∀ x, x ∈ v'.transactions ↔ x ∈ s.verified.transactions ∧
        ¬ Relation.ReflTransGen s.verified.transactionDependencies.Edge victim.minedId x := by
      intro x
      rw [hid]
      exact hremoves.mem_iff h hexact
    refine ⟨victim, Storage.limitRejectionListMemory { s with
      verified := v'
      chainRejectedSameEffects := fun reason =>
        if reason = .randomlyEvicted then list else s.chainRejectedSameEffects reason }, rest, ?_,
      hexact, rfl, hremoves.le, hid, ?_, hmem, fun a b hab => ((hedge a b).mp hab).1, ?_⟩
    · show (((s.chainRejectedSameEffects .randomlyEvicted).insert s.evictionMemoryTime env.now
        victim.minedId >>= _) >>= _) = _
      rw [hinsert]
      rfl
    · rw [hremoves.split, mem_add]
      exact .inl (mem_coe.mpr (List.mem_of_getLast? hlast))
    · intro hunlisted entry hentry hheld
      rcases hlist entry ((List.dropWhile_sublist _).subset hentry) with hold | hnew
      · exact hunlisted entry hold ((hmem _).mp hheld).1
      · rw [hnew] at hheld
        exact ((hmem _).mp hheld).2 .refl

/-- A round leaves fewer transactions. -/
theorem Evicts.card_lt (h : Exact s.verified txs) (he : Evicts env s txs rest victim s₁) :
    s₁.verified.transactions.keys.card < s.verified.transactions.keys.card := by
  refine Finset.card_lt_card (Finset.ssubset_iff_subset_ne.mpr ⟨?_, ?_⟩)
  · intro x hx
    exact mem_keys.mpr ((he.mem_iff x).mp (mem_keys.mp hx)).1
  · intro heq
    have hmem := mem_keys.mpr (h.mem_iff.mpr ⟨victim, he.victim_mem, rfl⟩)
    rw [← heq, mem_keys, he.mem_iff] at hmem
    exact hmem.2 .refl

/-- What the eviction loop reports and leaves. -/
structure Reports (id : UnminedTxId) (s : Storage) (txs : Multiset VerifiedUnminedTx)
    (result r : Storage.Inserted) (s' : Storage) : Prop where
  exact : ∃ rest ≤ txs, Exact s'.verified rest
  cost : s'.verified.totalCost ≤ s'.txCostLimit
  limit : s'.txCostLimit = s.txCostLimit
  result : r = result ∨ r = .error (.storageEffectsChain .randomlyEvicted) ∧
    id.minedId ∈ s.verified.transactions ∧ id.minedId ∉ s'.verified.transactions
  /-- A transaction stays if there is room for it or if it depends on no
  other one. -/
  held : r = .ok id → id.minedId ∈ s.verified.transactions →
    s.verified.totalCost ≤ s.txCostLimit ∨
      (∀ a, ¬ s.verified.transactionDependencies.Edge a id.minedId) →
    id.minedId ∈ s'.verified.transactions

/-- One more round in front. -/
theorem Reports.cons (hid : ∀ tx ∈ txs, tx.minedId = id.minedId → tx.transaction.id = id)
    (h : Exact s.verified txs) (hcost : ¬ s.verified.totalCost ≤ s.txCostLimit)
    (he : Evicts env s txs rest victim s₁)
    (hr : Reports id s₁ rest
      (if victim.transaction.id = id then .error (.storageEffectsChain .randomlyEvicted)
        else result) r s') : Reports id s txs result r s' := by
  obtain ⟨final, hfinal, hexact⟩ := hr.exact
  -- A transaction that is gone does not come back.
  have hgone : id.minedId ∉ s₁.verified.transactions → id.minedId ∉ s'.verified.transactions := by
    intro hnot hmem
    obtain ⟨tx, htx, hkey⟩ := hexact.mem_iff.mp hmem
    exact hnot (he.exact.mem_iff.mpr ⟨tx, mem_of_le hfinal htx, hkey⟩)
  refine ⟨⟨final, hfinal.trans he.le, hexact⟩, hr.cost, hr.limit.trans he.limit, ?_, ?_⟩
  · rcases hr.result with hsame | ⟨hevicted, hmem, hnot⟩
    · by_cases hvictim : victim.transaction.id = id
      · rw [if_pos hvictim] at hsame
        subst hvictim
        exact .inr ⟨hsame, h.mem_iff.mpr ⟨victim, he.victim_mem, rfl⟩,
          hgone fun hmem => ((he.mem_iff _).mp hmem).2 .refl⟩
      · rw [if_neg hvictim] at hsame
        exact .inl hsame
    · exact .inr ⟨hevicted, ((he.mem_iff _).mp hmem).1, hnot⟩
  · intro hok hmem hroom
    have hfree := hroom.resolve_left hcost
    -- The victim is another transaction, since the result is not an error.
    have hne : victim.minedId ≠ id.minedId := by
      intro heq
      have hvictim := hid victim he.victim_mem heq
      rw [if_pos hvictim, hok] at hr
      rcases hr.result with hsame | hevicted
      · cases hsame
      · cases hevicted.1
    refine hr.held hok ((he.mem_iff _).mpr ⟨hmem, ?_⟩) (.inr fun a hab => hfree a (he.edge _ _ hab))
    intro hreach
    rcases hreach.cases_tail with heq | ⟨a, _, hab⟩
    · exact hne heq.symm
    · exact hfree a hab

/-- The loop does nothing within the limit. -/
theorem Reports.refl (h : Exact s.verified txs) (hcost : s.verified.totalCost ≤ s.txCostLimit) :
    Reports id s txs result result s :=
  ⟨⟨txs, le_refl _, h⟩, hcost, rfl, .inl rfl, fun _ hmem _ => hmem⟩

/-- The eviction loop ends with a cost within the limit, unless a rejection
list already has a victim. -/
theorem Storage.evictOverLimit_spec (id : UnminedTxId) (rounds : Nat) (result : Inserted)
    (h : Exact s.verified txs)
    (hid : ∀ tx ∈ txs, tx.minedId = id.minedId → tx.transaction.id = id)
    (hrounds : s.verified.transactions.keys.card ≤ rounds) :
    (evictOverLimit env id rounds s result = .error .alreadyEvicted ∧ ¬ s.Unlisted env.now) ∨
      ∃ r s', evictOverLimit env id rounds s result = .ok (r, s') ∧
        Reports id s txs result r s' := by
  induction rounds generalizing s txs result with
  | zero =>
    have hempty : s.verified.transactions.keys = ∅ := Finset.card_eq_zero.mp (by omega)
    have hcost : s.verified.totalCost ≤ s.txCostLimit := by
      rw [h.totalCost_of_keys_empty hempty]
      exact Nat.zero_le _
    exact .inr ⟨result, s, if_pos hcost, .refl h hcost⟩
  | succ rounds ih =>
    by_cases hcost : s.verified.totalCost ≤ s.txCostLimit
    · exact .inr ⟨result, s, if_pos hcost, .refl h hcost⟩
    · rw [evictOverLimit, if_neg hcost]
      rcases @evictRound_spec env s txs h hcost with
        ⟨hround, hlisted⟩ | ⟨victim, s₁, rest, hround, he⟩
      · left
        rw [hround]
        exact ⟨rfl, hlisted⟩
      · rw [hround, ok_bind]
        have hcard := he.card_lt h
        rcases ih _ he.exact (fun tx htx => hid tx (mem_of_le he.le htx))
          (by omega) with ⟨herror, hlisted⟩ | ⟨r, s', hloop, hreports⟩
        · exact .inl ⟨herror, mt he.unlisted hlisted⟩
        · exact .inr ⟨r, s', hloop, hreports.cons hid h hcost he⟩

/-- The loop loses the new transaction and reports it as stored, if it
draws one that the new transaction depends on. -/
theorem Storage.evictOverLimit_loses (h : Exact s.verified txs)
    (hid : ∀ tx ∈ txs, tx.minedId = id.minedId → tx.transaction.id = id)
    (hcost : ¬ s.verified.totalCost ≤ s.txCostLimit) (hunlisted : s.Unlisted env.now)
    (hedge : s.verified.transactionDependencies.Edge (env.draw s.verified.transactions.keys)
      id.minedId) :
    ∃ s', evictOverLimit env id s.verified.transactions.keys.card s (.ok id) = .ok (.ok id, s') ∧
      id.minedId ∉ s'.verified.transactions := by
  rcases @evictRound_spec env s txs h hcost with ⟨_, hlisted⟩ | ⟨victim, s₁, rest, hround, he⟩
  · exact absurd hunlisted hlisted
  have hcard := he.card_lt h
  obtain ⟨rounds, hrounds⟩ := Nat.exists_eq_succ_of_ne_zero (Nat.ne_zero_of_lt hcard)
  rw [← he.drawn] at hedge
  have hgone : id.minedId ∉ s₁.verified.transactions :=
    fun hmem => ((he.mem_iff _).mp hmem).2 (.single hedge)
  -- No transaction depends on itself, so the victim is another one.
  have hne : victim.transaction.id ≠ id := by
    rintro rfl
    exact h.acyclic _ (.single hedge)
  rw [hrounds, evictOverLimit, if_neg hcost, hround, ok_bind, if_neg hne]
  rcases evictOverLimit_spec id rounds (.ok id) he.exact
    (fun tx htx => hid tx (mem_of_le he.le htx)) (by omega) with
    ⟨_, hlisted⟩ | ⟨r, s', hloop, hreports⟩
  · exact absurd (he.unlisted hunlisted) hlisted
  · rcases hreports.result with rfl | ⟨_, hmem, _⟩
    · refine ⟨s', hloop, fun hmem => ?_⟩
      obtain ⟨final, hle, hfinal⟩ := hreports.exact
      obtain ⟨tx, htx, hkey⟩ := hfinal.mem_iff.mp hmem
      exact hgone (he.exact.mem_iff.mpr ⟨tx, mem_of_le hle htx, hkey⟩)
    · exact absurd hmem hgone

end Eviction

/-! ## Runs -/

inductive StorageOperation where
  | insert (tx : VerifiedUnminedTx) (spentMempoolOutpoints : List OutPoint) (height : Option Nat)
  | removeExact (exactWtxids : Finset UnminedTxId)
  | clearMinedDependencies (minedIds : Finset Hash)
  | rejectAndRemoveSameEffects (minedIds : Finset Hash) (transactions : List Transaction)
  | clear
  | clearTipRejections
  | reject (txId : UnminedTxId) (reason : RejectionError)
  | rejectIfNeeded (txId : UnminedTxId) (e : TransactionDownloadVerifyError)
  | removeExpiredTransactions (tipHeight : Nat)

/-- The storage after an operation. -/
def StorageOperation.apply (env : Env) (s : Storage) : StorageOperation → Except Panic Storage
  | .insert tx spentMempoolOutpoints height => do
    let inserted ← s.insert env tx spentMempoolOutpoints height
    .ok inserted.2
  | .removeExact exactWtxids => s.removeExact env exactWtxids
  | .clearMinedDependencies minedIds => .ok (s.clearMinedDependencies env minedIds)
  | .rejectAndRemoveSameEffects minedIds transactions =>
    s.rejectAndRemoveSameEffects env minedIds transactions
  | .clear => .ok s.clear
  | .clearTipRejections => .ok s.clearTipRejections
  | .reject txId reason => s.reject env txId reason
  | .rejectIfNeeded txId e => s.rejectIfNeeded env txId e
  | .removeExpiredTransactions tipHeight => do
    let removed ← s.removeExpiredTransactions env tipHeight
    .ok removed.2

/-- The storages that operations lead to from an empty one. -/
inductive StorageReaches : Storage → Prop where
  | new (evictionMemoryTime txCostLimit maxDatacarrierBytes : Nat) :
      StorageReaches { evictionMemoryTime, txCostLimit, maxDatacarrierBytes }
  | step {env : Env} {s s' : Storage} {op : StorageOperation} (hreach : StorageReaches s)
      (h : op.apply env s = .ok s') : StorageReaches s'

section Runs

variable {env : Env} {s s' : Storage} {txs : Multiset VerifiedUnminedTx} {tx : VerifiedUnminedTx}
  {outpoints : List OutPoint} {height : Option Nat} {e : MempoolError}

/-- The transaction spends no output of the mempool, or there is room for
it. -/
def Storage.HasRoom (s : Storage) (tx : VerifiedUnminedTx) (outpoints : List OutPoint) : Prop :=
  outpoints = [] ∨ s.verified.totalCost + tx.cost ≤ s.txCostLimit

/-- What `insert` reports for `tx` and what it leaves. -/
structure InsertReports (s : Storage) (tx : VerifiedUnminedTx) (outpoints : List OutPoint)
    (r : Storage.Inserted) (s' : Storage) : Prop where
  exact : ∃ rest, Exact s'.verified rest
  limit : s'.txCostLimit = s.txCostLimit
  stored : ∀ id, r = .ok id → id = tx.transaction.id ∧
    s'.verified.totalCost ≤ s'.txCostLimit ∧
    (s.HasRoom tx outpoints → tx.minedId ∈ s'.verified.transactions)
  rejected : ∀ e, r = .error e →
    tx.minedId ∈ s'.verified.transactions → tx.minedId ∈ s.verified.transactions

/-- An error that leaves the verified set as it is. -/
theorem InsertReports.of_error (h : Exact s.verified txs) (hverified : s'.verified = s.verified)
    (hlimit : s'.txCostLimit = s.txCostLimit) : InsertReports s tx outpoints (.error e) s' where
  exact := ⟨txs, hverified ▸ h⟩
  limit := hlimit
  stored := by
    intro id hid
    cases hid
  rejected := by
    intro _ _ hmem
    rwa [hverified] at hmem

/-- The eviction loop after an insertion that was rejected. -/
theorem Reports.of_rejected (hlimit : s₁.txCostLimit = s.txCostLimit)
    (hnew : tx.minedId ∉ s.verified.transactions) (h : Exact s.verified txs)
    (hr : Reports tx.transaction.id s₁ txs (.error e) r s') :
    InsertReports s tx outpoints r s' := by
  obtain ⟨rest, hle, hexact⟩ := hr.exact
  refine ⟨⟨rest, hexact⟩, hr.limit.trans hlimit, ?_, ?_⟩
  · intro id hok
    rcases hr.result with hsame | ⟨hevicted, _⟩
    · rw [hsame] at hok
      cases hok
    · rw [hevicted] at hok
      cases hok
  · intro _ _ hmem
    obtain ⟨tx', htx', hkey⟩ := hexact.mem_iff.mp hmem
    exact absurd (h.mem_iff.mpr ⟨tx', mem_of_le hle htx', hkey⟩) hnew

/-- The eviction loop after an insertion. -/
theorem Reports.of_inserted (h : Exact s.verified txs) (hnew : tx.minedId ∉ s.verified.transactions)
    (hr : Reports tx.transaction.id
      { s with verified := s.verified.insertChecked tx outpoints height }
      ({ tx with height } ::ₘ txs) (.ok tx.transaction.id) r s') :
    InsertReports s tx outpoints r s' := by
  obtain ⟨rest, _, hexact⟩ := hr.exact
  refine ⟨⟨rest, hexact⟩, hr.limit, ?_, ?_⟩
  · intro id hok
    have hid : id = tx.transaction.id := by
      rcases hr.result with hsame | ⟨hevicted, _⟩
      · rw [hok] at hsame
        exact Except.ok.inj hsame
      · rw [hok] at hevicted
        cases hevicted
    refine ⟨hid, hr.cost, fun hroom => hr.held (hid ▸ hok) (mem_insert.mpr (.inl rfl)) ?_⟩
    rcases hroom with rfl | hroom
    · -- Without outpoints the dependencies are those of before.
      exact .inr fun a hab => hnew (h.held a _ hab).2
    · exact .inl hroom
  · intro e herror hmem
    rcases hr.result with hsame | ⟨_, _, hnot⟩
    · rw [herror] at hsame
      cases hsame
    · exact absurd hmem hnot

theorem Storage.insertAndEvict_spec (h : Exact s.verified txs)
    (hnew : tx.minedId ∉ s.verified.transactions) :
    s.insertAndEvict env tx outpoints height = .error .alreadyEvicted ∨
      ∃ r s', s.insertAndEvict env tx outpoints height = .ok (r, s') ∧
        InsertReports s tx outpoints r s' := by
  have hid : ∀ tx' ∈ txs, tx'.minedId = tx.minedId → tx'.transaction.id = tx.transaction.id :=
    fun tx' htx' hkey => absurd (h.mem_iff.mpr ⟨tx', htx', hkey⟩) hnew
  unfold insertAndEvict
  rcases h.insert_of (fun _ => hnew) outpoints height with ⟨e, hinsert⟩ | ⟨hinsert, hexact⟩
  · rw [hinsert]
    cases hreject : s.reject env tx.transaction.id (.sameEffectsTip e) with
    | error panic =>
      left
      show (s.reject env tx.transaction.id (.sameEffectsTip e) >>= _) = _
      rw [hreject, Storage.reject_eq_error hreject]
      rfl
    | ok s₁ =>
      obtain ⟨hverified, hlimit⟩ := Storage.reject_eq_ok hreject
      have hexact₁ : Exact s₁.verified txs := hverified ▸ h
      have hspec := @evictOverLimit_spec env s₁ txs tx.transaction.id
        s₁.verified.transactions.keys.card (.error (.storageEffectsTip e)) hexact₁ hid le_rfl
      show (s.reject env tx.transaction.id (.sameEffectsTip e) >>= _) = _ ∨
        ∃ r s', (s.reject env tx.transaction.id (.sameEffectsTip e) >>= _) = _ ∧ _
      rw [hreject]
      rcases hspec with ⟨herror, _⟩ | ⟨r, s', hloop, hreports⟩
      · exact .inl herror
      · exact .inr ⟨r, s', hloop, hreports.of_rejected hlimit hnew h⟩
  · rw [hinsert]
    have hids : ∀ tx' ∈ { tx with height } ::ₘ txs, tx'.minedId = tx.transaction.id.minedId →
        tx'.transaction.id = tx.transaction.id := by
      intro tx' htx' hkey
      rcases mem_cons.mp htx' with rfl | htx'
      · rfl
      · exact hid tx' htx' hkey
    have hspec := @evictOverLimit_spec env
      { s with verified := s.verified.insertChecked tx outpoints height } _ tx.transaction.id
      (s.verified.insertChecked tx outpoints height).transactions.keys.card
      (.ok tx.transaction.id) hexact hids le_rfl
    rcases hspec with ⟨herror, _⟩ | ⟨r, s', hloop, hreports⟩
    · exact .inl herror
    · exact .inr ⟨r, s', hloop, hreports.of_inserted h hnew⟩

/-- `insert` returns a result, unless a rejection list already has a
victim. -/
theorem Storage.insert_spec (h : Exact s.verified txs) :
    s.insert env tx outpoints height = .error .alreadyEvicted ∨
      ∃ r s', s.insert env tx outpoints height = .ok (r, s') ∧
        InsertReports s tx outpoints r s' := by
  unfold Storage.insert
  cases hcached : s.rejectionError env tx.transaction.id with
  | some e => exact .inr ⟨_, _, rfl, .of_error h rfl rfl⟩
  | none =>
    by_cases hheld : s.verified.contains tx.minedId = true
    · simp only [if_pos hheld]
      exact .inr ⟨_, _, rfl, .of_error h rfl rfl⟩
    · simp only [if_neg hheld]
      cases hstandard : env.rejectIfNonStandardTx s.maxDatacarrierBytes tx with
      | some e =>
        -- A non-standard transaction is rejected for its exact id, which cannot fail.
        exact .inr ⟨_, _, rfl, .of_error h rfl rfl⟩
      | none => exact insertAndEvict_spec h fun hmem => hheld (decide_eq_true hmem)

/-- Rejections leave the verified set as it is. -/
theorem Storage.rejectAll_verified {ι : Type} {ids : List ι} {id : ι → UnminedTxId}
    (h : ids.foldlM (fun s i => s.reject env (id i) reason) s = .ok s') :
    s'.verified = s.verified := by
  refine foldlM_induct (P := fun _ s' => s'.verified = s.verified) rfl ?_ h
  intro _ i s₁ s₂ hs₁ hreject
  exact (Storage.reject_eq_ok hreject).1.trans hs₁

/-! ## Bounds -/

/-- The lists of rejected transactions are no longer than allowed. -/
structure Storage.ListsBounded (s : Storage) : Prop where
  exactTip : s.tipRejectedExact.keys.card ≤ maxEvictionMemoryEntries
  effectsTip : s.tipRejectedSameEffects.keys.card ≤ maxEvictionMemoryEntries
  effectsChain : ∀ e, (s.chainRejectedSameEffects e).entries.length ≤ maxEvictionMemoryEntries

/-- The verified set costs no more than allowed either. -/
structure Storage.Bounded (s : Storage) : Prop extends s.ListsBounded where
  cost : s.verified.totalCost ≤ s.txCostLimit

variable {rest : Multiset VerifiedUnminedTx} {txId : UnminedTxId}

theorem EvictionList.insert_length {l l' : EvictionList} {evictionMemoryTime now : Nat}
    (h : l.insert evictionMemoryTime now key = .ok l')
    (hl : l.entries.length ≤ maxEvictionMemoryEntries) :
    l'.entries.length ≤ maxEvictionMemoryEntries := by
  have hpruned : (l.pruneOld evictionMemoryTime now).entries.length ≤ l.entries.length :=
    (List.dropWhile_sublist _).length_le
  unfold EvictionList.insert at h
  dsimp only at h
  split_ifs at h
  all_goals
    cases h
    simp only [List.length_append, List.length_drop, List.length_singleton]
    unfold maxEvictionMemoryEntries at *
    omega

theorem Storage.ListsBounded.withVerified (h : s.ListsBounded) (v : VerifiedSet) :
    ListsBounded { s with verified := v } :=
  ⟨h.exactTip, h.effectsTip, h.effectsChain⟩

theorem Storage.limitRejectionListMemory_bounded (h : ∀ e,
    (s.chainRejectedSameEffects e).entries.length ≤ maxEvictionMemoryEntries) :
    s.limitRejectionListMemory.ListsBounded := by
  refine ⟨?_, ?_, h⟩
  all_goals
    unfold limitRejectionListMemory
    dsimp only
    split
    · exact Nat.zero_le _
    · omega

theorem Storage.ListsBounded.reject (h : s.ListsBounded)
    (hreject : s.reject env txId reason = .ok s') : s'.ListsBounded := by
  cases reason with
  | exactTip e | sameEffectsTip e | nonStandardTransaction e =>
    cases hreject
    exact limitRejectionListMemory_bounded h.effectsChain
  | sameEffectsChain e =>
    obtain ⟨list, hlist, hreject⟩ := of_bind hreject
    cases hreject
    refine limitRejectionListMemory_bounded fun e' => ?_
    dsimp only
    split
    · exact EvictionList.insert_length hlist (h.effectsChain e)
    · exact h.effectsChain e'

/-- The storage is within its bounds, and its indexes are exact. -/
structure Storage.Sound (s : Storage) : Prop extends s.Bounded where
  exact : ∃ txs, Exact s.verified txs

theorem Storage.Bounded.reject (h : s.Bounded) (hreject : s.reject env txId reason = .ok s') :
    s'.Bounded := by
  obtain ⟨hverified, hlimit⟩ := reject_eq_ok hreject
  refine ⟨h.toListsBounded.reject hreject, ?_⟩
  rw [hverified, hlimit]
  exact h.cost

theorem Storage.Sound.reject (h : s.Sound) (hreject : s.reject env txId reason = .ok s') :
    s'.Sound := by
  refine ⟨h.toBounded.reject hreject, ?_⟩
  rw [(reject_eq_ok hreject).1]
  exact h.exact

theorem Storage.Sound.rejectAll {ι : Type} {ids : List ι} {id : ι → UnminedTxId} (h : s.Sound)
    (hrejects : ids.foldlM (fun s i => s.reject env (id i) reason) s = .ok s') : s'.Sound :=
  foldlM_induct (P := fun _ s' => s'.Sound) h (fun hs hreject => hs.reject hreject) hrejects

/-- The loop goes on until the cost is within the limit. -/
theorem Storage.evictOverLimit_bounded {rounds : Nat} {result : Inserted} (h : s.ListsBounded)
    (hloop : evictOverLimit env txId rounds s result = .ok (r, s')) : s'.Bounded := by
  induction rounds generalizing s result with
  | zero =>
    unfold evictOverLimit at hloop
    split_ifs at hloop with hcost
    cases hloop
    exact ⟨h, hcost⟩
  | succ rounds ih =>
    unfold evictOverLimit at hloop
    split_ifs at hloop with hcost
    · cases hloop
      exact ⟨h, hcost⟩
    · obtain ⟨⟨victim, s₁⟩, hround, hloop⟩ := of_bind hloop
      obtain ⟨evicted, _, hround⟩ := of_bind hround
      obtain ⟨victim, _, hround⟩ := of_okOr_bind hround
      obtain ⟨s₂, hreject, hround⟩ := of_bind hround
      cases hround
      -- Between rounds only the lists are bounded.
      exact ih ((h.withVerified evicted.1).reject hreject) hloop

theorem Storage.Bounded.insert (h : s.Bounded)
    (hinsert : s.insert env tx outpoints height = .ok (r, s')) : s'.Bounded := by
  unfold Storage.insert at hinsert
  split at hinsert
  · cases hinsert
    exact h
  split_ifs at hinsert
  · cases hinsert
    exact h
  split at hinsert
  · obtain ⟨s₁, hreject, hok⟩ := of_bind hinsert
    cases hok
    exact h.reject hreject
  have hlists := h.toListsBounded.withVerified
  unfold insertAndEvict at hinsert
  dsimp only at hinsert
  split at hinsert
  · exact evictOverLimit_bounded (hlists _) hinsert
  · obtain ⟨s₁, hreject, hloop⟩ := of_bind hinsert
    exact evictOverLimit_bounded ((hlists _).reject hreject) hloop

theorem Storage.Sound.insert (h : s.Sound)
    (hinsert : s.insert env tx outpoints height = .ok (r, s')) : s'.Sound := by
  refine ⟨h.toBounded.insert hinsert, ?_⟩
  obtain ⟨txs, hexact⟩ := h.exact
  rcases insert_spec hexact with herror | ⟨_, _, hok, hreports⟩
  · rw [herror] at hinsert
    cases hinsert
  · rw [hok] at hinsert
    cases hinsert
    exact hreports.exact

/-- Fewer transactions cost less. -/
theorem Storage.Sound.removes {v : VerifiedSet} (h : s.Sound) (hexact : Exact s.verified txs)
    (hrest : Exact v rest) (hle : rest ≤ txs) : Sound { s with verified := v } := by
  refine ⟨⟨h.toListsBounded.withVerified v, ?_⟩, rest, hrest⟩
  obtain ⟨gone, rfl⟩ := Multiset.le_iff_exists_add.mp hle
  have hcost := h.cost
  rw [hexact.cost, Multiset.map_add, Multiset.sum_add, ← hrest.cost] at hcost
  exact (Nat.le_add_right _ _).trans hcost

/-- Step lemma. -/
theorem Storage.Sound.apply {op : StorageOperation} (h : s.Sound)
    (happly : op.apply env s = .ok s') : s'.Sound := by
  obtain ⟨txs, hexact⟩ := h.exact
  cases op with
  | insert tx outpoints height =>
    obtain ⟨inserted, hinsert, hok⟩ := of_bind happly
    cases hok
    exact h.insert hinsert
  | removeExact exactWtxids =>
    obtain ⟨removed, hremove, hok⟩ := of_bind happly
    cases hok
    obtain ⟨rest, hrest, hle, _⟩ := hexact.removeAllThat env.iteration hremove
    exact h.removes hexact hrest hle
  | clearMinedDependencies minedIds =>
    cases happly
    exact h.removes hexact (hexact.clearMinedDependencies env.iteration minedIds) le_rfl
  | rejectAndRemoveSameEffects minedIds transactions =>
    obtain ⟨removedMined, hmined, happly⟩ := of_bind happly
    obtain ⟨rest, hrest, hle, _⟩ := hexact.removeAllThat env.iteration hmined
    obtain ⟨removedDuplicate, hduplicate, happly⟩ := of_bind happly
    obtain ⟨rest', hrest', hle', _⟩ := hrest.removeAllThat env.iteration hduplicate
    obtain ⟨s₁, hrejected, happly⟩ := of_bind happly
    exact ((h.removes hexact hrest' (hle'.trans hle)).rejectAll hrejected).rejectAll happly
  | clear =>
    cases happly
    exact ⟨⟨⟨Nat.zero_le _, Nat.zero_le _, fun _ => Nat.zero_le _⟩, Nat.zero_le _⟩, 0, .empty⟩
  | clearTipRejections =>
    cases happly
    exact ⟨⟨⟨Nat.zero_le _, Nat.zero_le _, h.effectsChain⟩, h.cost⟩, h.exact⟩
  | reject txId reason => exact h.reject happly
  | rejectIfNeeded txId e =>
    cases e with
    | invalid =>
      have hreject : s.reject env txId (.exactTip .failedVerification) = .ok s' := happly
      exact h.reject hreject
    | _ =>
      cases happly
      exact h
  | removeExpiredTransactions tipHeight =>
    obtain ⟨⟨ids, s₁⟩, hrun, hok⟩ := of_bind happly
    cases hok
    obtain ⟨removed, hremove, hrun⟩ := of_bind hrun
    obtain ⟨s₂, hrejects, hok⟩ := of_bind hrun
    cases hok
    obtain ⟨rest, hrest, hle, _⟩ := hexact.removeAllThat env.iteration hremove
    exact (h.removes hexact hrest hle).rejectAll hrejects

/-- Run lemma. -/
theorem StorageReaches.sound (hreach : StorageReaches s) : s.Sound := by
  induction hreach with
  | new => exact ⟨⟨⟨Nat.zero_le _, Nat.zero_le _, fun _ => Nat.zero_le _⟩, Nat.zero_le _⟩, 0,
    .empty⟩
  | step _ happly ih => exact ih.apply happly

/-- Whatever is inserted, mined, rejected and evicted, the storage stays
within its bounds. -/
theorem storage_stays_bounded (hreach : StorageReaches s) : s.Bounded :=
  hreach.sound.toBounded

end Runs

/-- Ids are visited in an order of their bytes. -/
def sampleIdIteration : Iteration UnminedTxId :=
  .byKey (fun id => Nat.pair (leNat id.minedId.data) (match id with
    | .legacy _ => 0
    | .witnessed _ authDigest => leNat authDigest.data + 1)) (by
      have hinj : ∀ a b : Hash, leNat a.data = leNat b.data → a = b := fun a b h =>
        FixedBytes.ext (leNat_injective (by rw [a.length_data, b.length_data]) h)
      intro a b h
      obtain ⟨hhash, hdigest⟩ := Nat.pair_eq_pair.mp h
      have hminedId := hinj _ _ hhash
      cases a with
      | legacy hash =>
        cases b with
        | legacy hash' => exact congrArg _ hminedId
        | witnessed hash' digest' => simp at hdigest
      | witnessed hash digest =>
        cases b with
        | legacy hash' => simp at hdigest
        | witnessed hash' digest' =>
          rw [show hash = hash' from hminedId, hinj _ _ (Nat.succ_injective hdigest)])

/-- Every transaction is standard, and the first one is drawn. -/
def sampleEnv : Env where
  toChance := sampleChance
  idIteration := sampleIdIteration
  now := 0
  rejectionOrder := [.expired, .duplicateSpend, .mined, .randomlyEvicted]
  mem_rejectionOrder := by
    intro e
    cases e <;> decide
  rejectIfNonStandardTx _ _ := none

/-- Neither the checks of the verified set nor a rejection that does not
expire keep the transaction out. -/
structure Storage.Admits (s : Storage) (tx : VerifiedUnminedTx) (outpoints : List OutPoint)
    (height : Option Nat) : Prop where
  exactTip : s.tipRejectedExact.lookup tx.transaction.id = none
  effectsTip : s.tipRejectedSameEffects.lookup tx.minedId = none
  new : tx.minedId ∉ s.verified.transactions
  checked : (s.verified.insert tx outpoints height).1 = .ok ()

section Exactness

variable {s : Storage} {txs : Multiset VerifiedUnminedTx} {tx : VerifiedUnminedTx}
  {outpoints : List OutPoint} {height : Option Nat} {o : OutPoint}

/-- At some time all rejections have expired. -/
theorem Storage.exists_expired (s : Storage) :
    ∃ now, ∀ e, ∀ entry ∈ (s.chainRejectedSameEffects e).entries,
      EvictionList.hasExpired s.evictionMemoryTime now entry.2 = true := by
  obtain ⟨last, hlast⟩ := ((sampleEnv.rejectionOrder.flatMap fun e =>
    (s.chainRejectedSameEffects e).entries).map Prod.snd).toFinset.exists_le
  refine ⟨s.evictionMemoryTime + 1 + last, ?_⟩
  intro e entry hentry
  have hle := hlast entry.2 (List.mem_toFinset.mpr (List.mem_map_of_mem
    (List.mem_flatMap.mpr ⟨e, sampleEnv.mem_rejectionOrder e, hentry⟩)))
  unfold EvictionList.hasExpired
  rw [decide_eq_true_iff]
  omega

/-- A parent of the new transaction is drawn first, and all rejections have
expired. -/
def parentEnv (o : OutPoint) (now : Nat) : Env :=
  { sampleEnv with
    now
    draw := fun keys => if o.hash ∈ keys then o.hash else sampleChance.draw keys
    draw_mem := by
      intro keys hkeys
      split
      · assumption
      · exact sampleChance.draw_mem keys hkeys }

/-- Without room, a transaction is reported as stored and gone when one that
it depends on is drawn. -/
theorem Storage.Admits.misreported (h : Exact s.verified txs)
    (hadmits : s.Admits tx outpoints height)
    (ho : o ∈ outpoints) (hover : ¬ s.verified.totalCost + tx.cost ≤ s.txCostLimit) :
    ∃ env s', s.insert env tx outpoints height = .ok (.ok tx.transaction.id, s') ∧
      tx.minedId ∉ s'.verified.transactions := by
  obtain ⟨now, hnow⟩ := s.exists_expired
  have hrejection : s.rejectionError (parentEnv o now) tx.transaction.id = none := by
    unfold rejectionError
    rw [hadmits.exactTip]
    dsimp only
    rw [show tx.transaction.id.minedId = tx.minedId from rfl, hadmits.effectsTip]
    simp only [Option.map_eq_none_iff, List.find?_eq_none]
    intro e _ hcontains
    obtain ⟨entry, hentry, hmatch⟩ := List.any_eq_true.mp hcontains
    have hexpired := (of_decide_eq_true hmatch).2
    rw [show (parentEnv o now).now = now from rfl, hnow e entry hentry] at hexpired
    cases hexpired
  rcases h.insert_of (fun _ => hadmits.new) outpoints height with ⟨e, hinsert⟩ | ⟨hinsert, hexact⟩
  · have hchecked := hadmits.checked
    rw [hinsert] at hchecked
    cases hchecked
  -- The new transaction depends on the parent, which is another one.
  have hedge : (s.verified.insertChecked tx outpoints height).transactionDependencies.Edge
      o.hash tx.minedId := by
    show tx.minedId ∈ (s.verified.transactionDependencies.add _ _).directDependents _
    rw [TransactionDependencies.directDependents_add, if_pos (List.mem_map_of_mem ho)]
    exact Finset.mem_insert_self _ _
  have hparent := (hexact.held _ _ hedge).1
  have hids : ∀ tx' ∈ { tx with height } ::ₘ txs, tx'.minedId = tx.minedId →
      tx'.transaction.id = tx.transaction.id := by
    intro tx' htx' hkey
    rcases mem_cons.mp htx' with rfl | htx'
    · rfl
    · exact absurd (h.mem_iff.mpr ⟨tx', htx', hkey⟩) hadmits.new
  have hunlisted : Unlisted { s with verified := s.verified.insertChecked tx outpoints height }
      (parentEnv o now).now := by
    intro entry hentry
    have hnone := List.dropWhile_eq_nil_iff.mpr (hnow .randomlyEvicted)
    exact absurd (hnone ▸ hentry : entry ∈ []) List.not_mem_nil
  obtain ⟨s', hloop, hgone⟩ := evictOverLimit_loses
    (s := { s with verified := s.verified.insertChecked tx outpoints height }) hexact hids hover
    hunlisted (by
      show TransactionDependencies.Edge _ (if _ then _ else _) _
      rw [if_pos (mem_keys.mpr hparent)]
      exact hedge)
  refine ⟨parentEnv o now, s', ?_, hgone⟩
  have hcontains : ¬ s.verified.contains tx.minedId = true :=
    fun hheld => hadmits.new (of_decide_eq_true hheld)
  unfold Storage.insert
  rw [hrejection]
  simp only [if_neg hcontains]
  show s.insertAndEvict _ tx outpoints height = _
  unfold insertAndEvict
  simp only [hinsert]
  exact hloop

/-- `insert` returns a result for every choice of victims, unless a
rejection list already has a victim. A transaction that is reported as
stored leaves the cost within the limit, and one that is reported as
rejected is stored only if it was before.

That every transaction that is reported as stored is there, whatever is
drawn, holds if it spends no output of the mempool or if there is room
for it, and for no other transaction that is let in. -/
theorem insert_reports_stored (hreach : StorageReaches s) (tx : VerifiedUnminedTx)
    (outpoints : List OutPoint) (height : Option Nat) :
    (∀ env, s.insert env tx outpoints height = .error .alreadyEvicted ∨
      ∃ r s', s.insert env tx outpoints height = .ok (r, s') ∧
        (∀ id, r = .ok id → id = tx.transaction.id ∧
          s'.verified.totalCost ≤ s'.txCostLimit ∧ s'.txCostLimit = s.txCostLimit ∧
          (s.HasRoom tx outpoints → s'.verified.contains tx.minedId)) ∧
        ∀ e, r = .error e →
          s'.verified.contains tx.minedId → s.verified.contains tx.minedId) ∧
      (s.Admits tx outpoints height →
        ((∀ env id s', s.insert env tx outpoints height = .ok (.ok id, s') →
          s'.verified.contains tx.minedId) ↔ s.HasRoom tx outpoints)) := by
  obtain ⟨txs, hexact⟩ := hreach.sound.exact
  constructor
  · intro env
    rcases Storage.insert_spec hexact with herror | ⟨r, s', hinsert, hreports⟩
    · exact .inl herror
    · refine .inr ⟨r, s', hinsert, ?_, ?_⟩
      · intro id hok
        obtain ⟨hid, hcost, hstored⟩ := hreports.stored id hok
        exact ⟨hid, hcost, hreports.limit, fun hroom => decide_eq_true (hstored hroom)⟩
      · intro e herror hmem
        exact decide_eq_true (hreports.rejected e herror (of_decide_eq_true hmem))
  · intro hadmits
    constructor
    · intro hall
      by_contra hroom
      obtain ⟨hne, hover⟩ := not_or.mp hroom
      obtain ⟨o, ho⟩ := List.exists_mem_of_ne_nil _ hne
      obtain ⟨env, s', hinsert, hgone⟩ := hadmits.misreported hexact ho hover
      exact hgone (of_decide_eq_true (hall env _ s' hinsert))
    · intro hroom env id s' hinsert
      rcases Storage.insert_spec hexact with herror | ⟨r, s₁, hok, hreports⟩
      · rw [herror] at hinsert
        cases hinsert
      · rw [hok] at hinsert
        cases hinsert
        exact decide_eq_true ((hreports.stored id rfl).2.2 hroom)

end Exactness

/-! ## Expiry -/

section Expiry

variable {env : Env} {s s' : Storage} {v : VerifiedSet} {txs : Multiset VerifiedUnminedTx}
  {keys : Finset Hash} {ids : Finset UnminedTxId} {tipHeight : Nat}

theorem Exact.mem_idsOf (h : Exact v txs) :
    id ∈ v.idsOf keys ↔ ∃ tx ∈ txs, tx.minedId ∈ keys ∧ tx.transaction.id = id := by
  simp only [VerifiedSet.idsOf, Finset.mem_biUnion, Option.mem_toFinset, Option.mem_def,
    Option.map_eq_some_iff, h.lookup]
  constructor
  · rintro ⟨key, hkey, tx, ⟨htx, rfl⟩, hid⟩
    exact ⟨tx, htx, hkey, hid⟩
  · rintro ⟨tx, htx, hkey, hid⟩
    exact ⟨tx.minedId, hkey, tx, ⟨htx, rfl⟩, hid⟩

theorem Exact.mem_matching (h : Exact v txs) {predicate : VerifiedUnminedTx → Bool} :
    key ∈ v.matching predicate ↔ ∃ tx ∈ txs, tx.minedId = key ∧ predicate tx = true := by
  simp only [VerifiedSet.matching, Finset.mem_filter, mem_keys, h.mem_iff,
    Option.any_eq_true, h.lookup]
  constructor
  · rintro ⟨_, tx, ⟨htx, hkey⟩, hmatch⟩
    exact ⟨tx, htx, hkey, hmatch⟩
  · rintro ⟨tx, htx, hkey, hmatch⟩
    exact ⟨⟨tx, htx, hkey⟩, tx, ⟨htx, hkey⟩, hmatch⟩

/-- `remove_expired_transactions` returns exactly the ids that are held
before and not after if, and only if, everything that depends on an
expired transaction has expired too. -/
theorem expiry_reports_removed (hreach : StorageReaches s)
    (hrun : s.removeExpiredTransactions env tipHeight = .ok (ids, s')) :
    ids = s.verified.idsOf s.verified.transactions.keys \
        s'.verified.idsOf s'.verified.transactions.keys ↔
      ∀ a b, s.verified.transactionDependencies.Edge a b → a ∈ s.expired tipHeight →
        b ∈ s.expired tipHeight := by
  obtain ⟨txs, h⟩ := hreach.sound.exact
  obtain ⟨⟨v, removed⟩, hremove, hrun⟩ := of_bind hrun
  obtain ⟨s₁, hrejects, hok⟩ := of_bind hrun
  cases hok
  obtain ⟨rest, hrest, hle, hremoves⟩ := h.removeAllThat env.iteration hremove
  rw [Storage.rejectAll_verified hrejects]
  have hkeys : ∀ key ∈ s.expired tipHeight, key ∉ v.transactions := by
    intro key hkey
    apply hremoves.removed
    obtain ⟨tx, htx, rfl, _⟩ := h.mem_matching.mp hkey
    exact (env.iteration.mem_list _ _).mpr (h.mem_matching.mpr ⟨tx, htx, rfl, decide_eq_true hkey⟩)
  -- The ids that are gone are those of the transactions that are gone.
  have hgone : ∀ id, id ∈ s.verified.idsOf s.verified.transactions.keys \
      v.idsOf v.transactions.keys ↔
        ∃ tx ∈ txs, tx.minedId ∉ v.transactions ∧ tx.transaction.id = id := by
    intro id
    rw [Finset.mem_sdiff, h.mem_idsOf, hrest.mem_idsOf]
    constructor
    · rintro ⟨⟨tx, htx, _, rfl⟩, hnot⟩
      refine ⟨tx, htx, fun hheld => ?_, rfl⟩
      obtain ⟨tx', htx', hid⟩ := hrest.mem_iff.mp hheld
      obtain rfl := h.eq_of_minedId (mem_of_le hle htx') htx hid
      exact hnot ⟨tx', htx', mem_keys.mpr hheld, rfl⟩
    · rintro ⟨tx, htx, hnot, rfl⟩
      refine ⟨⟨tx, htx, mem_keys.mpr (h.mem_iff.mpr ⟨tx, htx, rfl⟩), rfl⟩, ?_⟩
      rintro ⟨tx', _, hheld, hid⟩
      refine hnot ?_
      rw [VerifiedUnminedTx.minedId, ← hid]
      exact mem_keys.mp hheld
  rw [Finset.ext_iff]
  simp only [hgone, h.mem_idsOf]
  constructor
  · intro hall a b hab ha
    -- A dependent of an expired transaction goes with it.
    have hb : b ∉ v.transactions := fun hb => hkeys a ha (hremoves.closed a b hab hb)
    obtain ⟨tx, htx, rfl⟩ := h.mem_iff.mp (h.held a b hab).2
    obtain ⟨tx', _, hexpired, hid⟩ := (hall tx.transaction.id).mpr ⟨tx, htx, hb, rfl⟩
    rwa [VerifiedUnminedTx.minedId, ← hid]
  · intro hdependents id
    constructor
    · rintro ⟨tx, htx, hexpired, rfl⟩
      exact ⟨tx, htx, hkeys _ hexpired, rfl⟩
    · rintro ⟨tx, htx, hnot, rfl⟩
      refine ⟨tx, htx, ?_, rfl⟩
      by_contra hvalid
      -- A transaction that has not expired is kept.
      refine hnot (hremoves.kept (· ∈ s.expired tipHeight) hdependents (fun key hkey => ?_)
        tx.minedId (h.mem_iff.mpr ⟨tx, htx, rfl⟩) hvalid)
      obtain ⟨tx', _, rfl, hmatch⟩ := h.mem_matching.mp ((env.iteration.mem_list _ _).mp hkey)
      exact of_decide_eq_true hmatch

end Expiry

/-! ## Samples -/

/-- A storage for one transaction. -/
def sampleStorage : Storage where
  evictionMemoryTime := 3600
  txCostLimit := 15000
  maxDatacarrierBytes := 83

/-- The storage with transaction 1. -/
def sampleStored : Storage := { sampleStorage with verified := sampleFirst }

theorem sampleStored_reached : StorageReaches sampleStored :=
  @StorageReaches.step sampleEnv sampleStorage _ (.insert (sampleTx 1 9) [] none) (.new _ _ _) rfl

/-- Transaction 2 takes the place of transaction 1, which is evicted and put
on the list. -/
theorem storage_stays_bounded_sample :
    ∃ s', sampleStored.insert sampleEnv (sampleTx 2 8) [] none =
        .ok (.ok (.legacy (.fill 32 2)), s') ∧
      (s'.chainRejectedSameEffects .randomlyEvicted).entries = [(.fill 32 1, 0)] ∧ s'.Bounded :=
  ⟨_, rfl, by decide, storage_stays_bounded
    (@StorageReaches.step sampleEnv _ _ (.insert (sampleTx 2 8) [] none) sampleStored_reached rfl)⟩

/-- A transaction that is evicted itself is reported as rejected: the
smaller id is drawn. One that spends no output of the mempool and is
reported as stored is there, whatever is drawn. -/
theorem insert_reports_stored_sample :
    (∃ r s', sampleStored.insert sampleEnv (sampleTx 0 8) [] none = .ok (r, s') ∧
      r = .error (.storageEffectsChain .randomlyEvicted) ∧
      (s'.verified.contains (.fill 32 0) → sampleStored.verified.contains (.fill 32 0))) ∧
    ∀ env id s', sampleStored.insert env (sampleTx 2 8) [] none = .ok (.ok id, s') →
      s'.verified.contains (.fill 32 2) := by
  refine ⟨?_, ((insert_reports_stored sampleStored_reached (sampleTx 2 8) [] none).2
    ⟨rfl, rfl, by decide, by decide⟩).mpr (.inl rfl)⟩
  rcases (insert_reports_stored sampleStored_reached (sampleTx 0 8) [] none).1 sampleEnv with
    herror | ⟨r, s', hinsert, _, hrejected⟩
  · cases herror
  · have hr : r = .error (.storageEffectsChain .randomlyEvicted) := by
      cases hinsert
      rfl
    exact ⟨r, s', hinsert, hr, hrejected _ hr⟩

/-- Transaction 2 spends an output of transaction 1. Transaction 1 is
drawn and takes transaction 2 with it, which is reported as stored. -/
theorem insert_reports_missing :
    ∃ s s', StorageReaches s ∧
      s.insert sampleEnv (sampleTx 2 1) [⟨.fill 32 1, 0⟩] none =
        .ok (.ok (.legacy (.fill 32 2)), s') ∧
      s'.verified.contains (.fill 32 2) = false :=
  ⟨sampleStored, _, sampleStored_reached, rfl, by decide⟩

/-- A transaction with an expiry height. -/
def sampleExpiring (id spent : UInt8) : VerifiedUnminedTx :=
  { sampleTx id spent with
    transaction := { (sampleTx id spent).transaction with expiryHeight := some 5 } }

/-- A storage for more transactions, with one that expires. -/
def sampleExpirable : Storage :=
  { sampleStorage with
    verified := (VerifiedSet.insert {} (sampleExpiring 1 9) [] none).2
    txCostLimit := 30000 }

theorem sampleExpirable_reached : StorageReaches sampleExpirable :=
  @StorageReaches.step sampleEnv { sampleStorage with txCostLimit := 30000 } _
    (.insert (sampleExpiring 1 9) [] none) (.new _ _ _) rfl

/-- The storage with a second transaction, which spends an output of the
first one. -/
def sampleDependent (tx : VerifiedUnminedTx) : Storage :=
  { sampleExpirable with
    verified := (sampleExpirable.verified.insert tx [⟨.fill 32 1, 0⟩] none).2 }

/-- Both transactions expire, and both are reported. -/
theorem expiry_reports_removed_sample :
    ∃ (s s' : Storage) (ids : Finset UnminedTxId),
      s.removeExpiredTransactions sampleEnv 5 = .ok (ids, s') ∧
      .legacy (.fill 32 1) ∈ ids ∧ .legacy (.fill 32 2) ∈ ids ∧
      ids = s.verified.idsOf s.verified.transactions.keys \
        s'.verified.idsOf s'.verified.transactions.keys := by
  have hreach : StorageReaches (sampleDependent (sampleExpiring 2 1)) :=
    @StorageReaches.step sampleEnv _ _ (.insert (sampleExpiring 2 1) [⟨.fill 32 1, 0⟩] none)
      sampleExpirable_reached rfl
  obtain ⟨txs, h⟩ := hreach.sound.exact
  have hall : ∀ b ∈ (sampleDependent (sampleExpiring 2 1)).verified.transactions.keys,
      b ∈ (sampleDependent (sampleExpiring 2 1)).expired 5 := by decide
  obtain ⟨r, hrun⟩ : ∃ r, (sampleDependent (sampleExpiring 2 1)).removeExpiredTransactions
      sampleEnv 5 = .ok r := ⟨_, rfl⟩
  have hids : r.1 = (sampleDependent (sampleExpiring 2 1)).verified.idsOf
      ((sampleDependent (sampleExpiring 2 1)).expired 5) := by
    cases hrun
    rfl
  refine ⟨_, r.2, r.1, hrun, by rw [hids]; decide, by rw [hids]; decide,
    (expiry_reports_removed hreach hrun).mpr ?_⟩
  exact fun a b hab _ => hall b (mem_keys.mpr (h.held a b hab).2)

/-- The second transaction does not expire, goes with the first one and is
not reported. -/
theorem expiry_omits_dependent :
    ∃ s s' ids, StorageReaches s ∧ s.removeExpiredTransactions sampleEnv 5 = .ok (ids, s') ∧
      .legacy (.fill 32 2) ∈ s.verified.idsOf s.verified.transactions.keys \
        s'.verified.idsOf s'.verified.transactions.keys ∧
      .legacy (.fill 32 2) ∉ ids :=
  ⟨sampleDependent (sampleTx 2 1), _, _,
    @StorageReaches.step sampleEnv _ _ (.insert (sampleTx 2 1) [⟨.fill 32 1, 0⟩] none)
      sampleExpirable_reached rfl, rfl, by decide, by decide⟩

end Wolf.Mempool
