import Wolf.Consensus.Coinbase

/-! # The coinbase builder

`TransactionTemplate::new_coinbase` computes the miner reward, adds it
to a transaction builder as a transparent or an Ironwood output, adds
the foundation output, and builds. The builder belongs to the
transaction library: what was added to it is recorded here, whether an
addition or the final build succeeds is left open.

* `builder_agrees`: what is built passes the checks of the verifier, and
  the two reject the same totals. -/

namespace Wolf.Consensus

open Ledger List Amount

/-! ## The builder -/

/-- An Ironwood output as it is added: the outgoing viewing key, the
recipient, the value and the memo. -/
structure IronwoodOutput where
  ovk : Option Bytes
  recipient : Bytes
  value : Zatoshis
  memo : Bytes

/-- `Builder` with `BuildConfig::Coinbase`: what was added to it. -/
structure Builder where
  height : Nat
  minerData : Option Bytes
  outputs : List (Bytes × Zatoshis)
  ironwood : List IronwoodOutput

/-- What the transaction library decides. -/
structure BuilderEnv where
  addTransparentOutput : Builder → Bytes → Zatoshis → Except String Unit
  addIronwoodOutput : Builder → IronwoodOutput → Except String Unit
  build : Builder → Except String Transaction
  write : Transaction → Except TransactionError Bytes
  sigops : Transaction → Except TransactionError Nat

/-- The miner's address, as far as the builder distinguishes it. -/
inductive MinerAddress where
  | unified (orchard : Option Bytes)
  | transparent (script : Bytes)
  | other
  deriving DecidableEq

structure MinerParams where
  addr : MinerAddress
  data : Option Bytes
  memo : Option Bytes

/-- `TransactionTemplate<NegativeOrZero>`; the transaction beside its
serialization. -/
structure TransactionTemplate where
  transaction : Transaction
  data : Bytes
  fee : Amount .negativeOrZero
  sigops : Nat
  required : Bool

/-- `Zatoshis::try_from(amount)`. -/
def zatoshisTryFrom (amount : Amount .nonNegative) : Except TransactionError Zatoshis :=
  Bounded.check 0 maxSingleTransactionValue (fun _ => .other "invalid amount") amount.zatoshis

/-- An amount of the transaction library. -/
def toAmount (value : Zatoshis) : Amount .nonNegative :=
  value.widen (Int.le_refl 0) maxSingle_le_maxMoney

/-- The message when the reward output could not be added. -/
def rewardMessage : String := "Could not construct output with miner reward"

/-- The message for an address of another kind. -/
def addressMessage : String :=
  "Wcash miner rewards require a transparent address or a Unified address with an Orchard receiver"

section NewCoinbase

variable (env : BuilderEnv)

/-- `builder.add_transparent_output`. -/
def addTransparent (b : Builder) (script : Bytes) (value : Zatoshis) : Except String Builder := do
  env.addTransparentOutput b script value
  .ok { b with outputs := b.outputs ++ [(script, value)] }

/-- `builder.add_ironwood_output`. -/
def addIronwood (b : Builder) (output : IronwoodOutput) : Except String Builder := do
  env.addIronwoodOutput b output
  .ok { b with ironwood := b.ironwood ++ [output] }

/-- The output with the miner reward. An error of the builder is logged and
    ends in `ok_or`. -/
def addReward (b : Builder) (params : MinerParams) (reward : Zatoshis) :
    Except TransactionError Builder :=
  match params.addr with
  | .unified orchard =>
    okOr (orchard.bind fun recipient =>
      (addIronwood env b ⟨none, recipient, reward, params.memo.getD []⟩).toOption)
      (.coinbaseConstruction rewardMessage)
  | .transparent script =>
    okOr (addTransparent env b script reward).toOption (.coinbaseConstruction rewardMessage)
  | .other => .error (.coinbaseConstruction addressMessage)

/-- The mandatory foundation output. -/
def addFoundation (b : Builder) (height : Nat) (blockSubsidy : Amount .nonNegative) :
    Except TransactionError Builder :=
  match wcashFoundationFund height blockSubsidy with
  | none => .ok b
  | some allocation => do
    let value ← zatoshisTryFrom allocation.amount
    mapErr .coinbaseConstruction (addTransparent env b allocation.script value)

def minerSubsidy (height : Nat) (blockSubsidy : Amount .nonNegative) :
    Except AmountError (Amount .nonNegative) :=
  blockSubsidy.sub (foundationFundAmount height blockSubsidy)

/-- `TransactionTemplate::new_coinbase`. Mainnet has no funding streams and
no lockbox disbursements to add. -/
def newCoinbase (height : Nat) (params : MinerParams) (txsFee : Amount .nonNegative) :
    Except TransactionError TransactionTemplate := do
  let blockSubsidy ← mapErr .subsidy (blockSubsidy height)
  let minerSubsidy ← mapErr (fun e => .subsidy (.invalidAmount e))
    (minerSubsidy height blockSubsidy)
  rejectIf (maxSingleTransactionValue < blockSubsidy.zatoshis + txsFee.zatoshis)
    (.subsidy .wcashCoinbaseValueTooLarge)
  let minerReward ← mapErr (fun e => .subsidy (.invalidAmount e)) (minerSubsidy.add txsFee)
  let minerReward ← zatoshisTryFrom minerReward
  let builder ← addReward env ⟨height, params.data, [], []⟩ params minerReward
  let builder ← addFoundation env builder height blockSubsidy
  let transaction ← mapErr .coinbaseConstruction (env.build builder)
  let data ← env.write transaction
  let fee ← mapErr (fun e => .subsidy (.invalidAmount e)) (txsFee.neg.constrain .negativeOrZero)
  let sigops ← env.sigops transaction
  .ok ⟨transaction, data, fee, sigops, true⟩

end NewCoinbase

/-- What the builder emits. -/
structure Built (privateFromZeroOvk : Transaction → Nat → Bool) (b : Builder) (tx : Transaction) :
    Prop where
  inputs : tx.inputs = [.coinbase b.height]
  /-- Exactly the transparent outputs that were added. -/
  outputs : tx.outputs.Perm (b.outputs.map fun output => ⟨toAmount output.2, output.1⟩)
  sapling : tx.saplingBundle = none
  orchard : tx.orchardBundle = none
  transparentOnly : b.ironwood = [] → tx.ironwoodBundle = none
  /-- The Ironwood balance is minus the sum of the outputs. -/
  shielded : b.ironwood ≠ [] → ∃ bundle, tx.ironwoodBundle = some bundle ∧
    bundle.valueBalance.val = -(b.ironwood.map fun output => output.value.val).sum
  /-- Outputs encrypted with no outgoing key pass the privacy check. -/
  hidden : (∀ output ∈ b.ironwood, output.ovk = none) → privateFromZeroOvk tx b.height = true

/-- The builder emits exactly what was added to it. -/
def Emits (env : BuilderEnv) (privateFromZeroOvk : Transaction → Nat → Bool) : Prop :=
  ∀ b tx, env.build b = .ok tx → Built privateFromZeroOvk b tx

/-! ## What the checks accept -/

/-- A coinbase that pays the subsidy and the fees in one of the two modes. -/
structure Pays (privateFromZeroOvk : Transaction → Nat → Bool) (tx : Transaction) (height : Nat)
    (S F : Amount .nonNegative) : Prop where
  inputs : tx.inputs = [.coinbase height]
  sapling : tx.saplingBundle = none
  orchard : tx.orchardBundle = none
  mode :
    (tx.ironwoodBundle = none ∧ tx.outputTotal = S.zatoshis + F.zatoshis ∧
      ∃ reward, tx.outputs.Perm (reward :: foundationOutputs height S)) ∨
    (∃ bundle, tx.ironwoodBundle = some bundle ∧
      tx.outputs = foundationOutputs height S ∧
      bundle.valueBalance.val = -(S.zatoshis + F.zatoshis - foundationShare height S) ∧
      privateFromZeroOvk tx height = true)

theorem signed_ok (value : Int) (hlo : -maxMoney ≤ value) (hhi : value ≤ maxMoney) :
    ∃ a, Amount.tryFrom .negativeAllowed value = .ok a ∧ a.zatoshis = value :=
  ⟨⟨value, hlo, hhi⟩, tryFrom_of_mem hlo hhi, rfl⟩

theorem unsigned_ok (value : Int) (hlo : 0 ≤ value) (hhi : value ≤ maxMoney) :
    ∃ a, Amount.tryFrom .nonNegative value = .ok a ∧ a.zatoshis = value :=
  ⟨⟨value, hlo, hhi⟩, tryFrom_of_mem hlo hhi, rfl⟩

theorem foundationShare_le (height : Nat) (S : Amount .nonNegative) :
    0 ≤ foundationShare height S ∧ foundationShare height S ≤ S.zatoshis := by
  have hS : 0 ≤ S.zatoshis := S.lo_le
  unfold foundationShare foundationFundAmount wcashFoundationFund
  split
  · exact ⟨Int.le_refl 0, hS⟩
  · show 0 ≤ S.zatoshis * 3 / 10 ∧ S.zatoshis * 3 / 10 ≤ S.zatoshis
    omega

variable {height : Nat}

/-- The foundation output is found when it is among the outputs. -/
theorem wcashFoundationFundOutputIndex_of_mem {S : Amount .nonNegative} {outputs : List Output}
    (h : ∀ output ∈ foundationOutputs height S, output ∈ outputs) :
    ∃ index, wcashFoundationFundOutputIndex height S outputs = .ok index := by
  unfold wcashFoundationFundOutputIndex
  unfold foundationOutputs at h
  cases hfund : wcashFoundationFund height S with
  | none => exact ⟨none, rfl⟩
  | some allocation =>
    rw [hfund] at h
    have hmem : allocation.output ∈ outputs := by
      apply h
      simp
    cases hfind : outputs.findIdx? (· == allocation.output) with
    | none =>
      have hne := List.findIdx?_eq_none_iff.mp hfind _ hmem
      simp at hne
    | some index =>
      refine ⟨some index, ?_⟩
      simp only [hfind, okOr_bind]

section Accepted

variable {privateFromZeroOvk : Transaction → Nat → Bool} {tx : Transaction}
variable {S F totalInput : Amount .nonNegative}

section

variable (h : Pays privateFromZeroOvk tx height S F)

include h

theorem Pays.foundation : ∀ output ∈ foundationOutputs height S, output ∈ tx.outputs := by
  intro output houtput
  rcases h.mode with ⟨_, _, reward, hperm⟩ | ⟨_, _, heq, _⟩
  · rw [hperm.mem_iff]
    exact mem_cons_of_mem _ houtput
  · rw [heq]
    exact houtput

/-- The value that leaves the transparent outputs and the Ironwood balance. -/
theorem Pays.total : tx.outputTotal - tx.ironwoodAmount.zatoshis = S.zatoshis + F.zatoshis := by
  rcases h.mode with ⟨hnone, htotal, _⟩ | ⟨bundle, hsome, houtputs, hbalance, _⟩
  · rw [ironwoodAmount_of_none hnone]
    omega
  · have hamount : tx.ironwoodAmount.zatoshis = bundle.valueBalance.val := by
      rw [Transaction.ironwoodAmount, hsome]
      rfl
    have hshare : tx.outputTotal = foundationShare height S := by
      rw [Transaction.outputTotal, houtputs, foundationShare_eq]
    omega

/-- The Ironwood balance takes value out of the transaction. -/
theorem Pays.ironwood_bounds : tx.ironwoodAmount.zatoshis ≤ 0 ∧ 0 ≤ tx.outputTotal := by
  have hshare := foundationShare_le height S
  have hF : 0 ≤ F.zatoshis := F.lo_le
  have htotal := h.total
  rcases h.mode with ⟨hnone, hsum, _⟩ | ⟨bundle, hsome, houtputs, hbalance, _⟩
  · omega
  · have heq : tx.outputTotal = foundationShare height S := by
      rw [Transaction.outputTotal, houtputs, foundationShare_eq]
    omega

end

/-- What the foundation leaves to the miner. -/
theorem minerShare_ok (hinput : totalInput.zatoshis = S.zatoshis + F.zatoshis) :
    ∃ rest, totalInput.sub (foundationFundAmount height S) = .ok rest ∧
      rest.zatoshis = S.zatoshis + F.zatoshis - foundationShare height S := by
  have hshare := foundationShare_le height S
  have hF : 0 ≤ F.zatoshis := F.lo_le
  have hle : totalInput.zatoshis ≤ maxMoney := totalInput.le_hi
  unfold Amount.sub
  rw [hinput]
  exact unsigned_ok _ (by unfold foundationShare at hshare; omega)
    (by unfold foundationShare at hshare; omega)

section

variable (h : Pays privateFromZeroOvk tx height S F)

include h

/-- The rules on the components accept both payout modes. -/
theorem Pays.payout (hinput : totalInput.zatoshis = S.zatoshis + F.zatoshis) :
    ∃ u, payoutIsValid privateFromZeroOvk tx height totalInput S = .ok u := by
  obtain ⟨index, hindex⟩ := wcashFoundationFundOutputIndex_of_mem h.foundation
  obtain ⟨_, hcount⟩ := wcashFoundationFundOutputIndex_eq_ok hindex
  unfold payoutIsValid
  rw [h.sapling, h.orchard, hindex, mapErr_ok, ok_bind]
  rcases h.mode with ⟨hnone, _, reward, hperm⟩ | ⟨bundle, hsome, houtputs, hbalance, hprivate⟩
  · -- One output more than the foundation's, and no action.
    have hlt : index.isSome.toNat < tx.outputs.length := by
      rw [hcount, hperm.length_eq, length_cons]
      omega
    rw [Transaction.ironwoodActions_eq_nil.mpr hnone, decide_eq_true hlt]
    exact ⟨(), rfl⟩
  · -- The foundation's output alone, and an action.
    have hlt : ¬ index.isSome.toNat < tx.outputs.length := by
      rw [hcount, houtputs]
      omega
    have hactions : tx.ironwoodActions.head?.isSome = true := by
      rw [Transaction.ironwoodActions, hsome]
      cases hlist : bundle.actions with
      | nil => exact absurd hlist bundle.actions_ne
      | cons action rest => simp [hlist]
    rw [hactions, decide_eq_false hlt]
    show ∃ u, ironwoodPayoutIsValid privateFromZeroOvk tx height totalInput S = .ok u
    have hcoinbase : tx.isCoinbase = true := by
      rw [Transaction.isCoinbase, h.inputs]
    -- What is left for the miner is what the balance shields.
    have hamount : tx.ironwoodAmount.zatoshis = bundle.valueBalance.val := by
      rw [Transaction.ironwoodAmount, hsome]
      rfl
    unfold ironwoodPayoutIsValid wcashCoinbaseOutputsArePrivate
    rw [rejectIf_bind (by simp [hcoinbase]), rejectIf_of_not (by simp [hprivate])]
    obtain ⟨rest, hrest, hvalue⟩ := minerShare_ok hinput
    have hlo : 0 ≤ rest.zatoshis := rest.lo_le
    rw [hrest]
    refine ⟨(), rejectIf_of_not ?_⟩
    omega

/-- Sapling and Orchard are absent, so that the total output is the total
input. -/
theorem Pays.totalOutput
    {transparent : Amount .negativeAllowed} (htransparent : transparent.zatoshis = tx.outputTotal)
    (hle : S.zatoshis + F.zatoshis ≤ maxMoney) :
    ∃ a, totalOutputValue tx transparent (.zero _) = .ok a ∧
      a.zatoshis = S.zatoshis + F.zatoshis := by
  have htotal := h.total
  obtain ⟨hironwood, houtput⟩ := h.ironwood_bounds
  have hsapling := saplingAmount_of_none h.sapling
  have horchard := orchardAmount_of_none h.orchard
  unfold totalOutputValue Amount.sub Amount.add
  obtain ⟨a₁, h₁, v₁⟩ := signed_ok (transparent.zatoshis - tx.saplingAmount.zatoshis)
    (by omega) (by omega)
  rw [h₁, ok_bind]
  obtain ⟨a₂, h₂, v₂⟩ := signed_ok (a₁.zatoshis - tx.orchardAmount.zatoshis) (by omega) (by omega)
  rw [h₂, ok_bind]
  obtain ⟨a₃, h₃, v₃⟩ := signed_ok (a₂.zatoshis - tx.ironwoodAmount.zatoshis) (by omega) (by omega)
  rw [h₃, ok_bind, zero_zatoshis, Int.add_zero]
  obtain ⟨a₄, h₄, v₄⟩ := signed_ok a₃.zatoshis (by omega) (by omega)
  exact ⟨a₄, h₄, by omega⟩

theorem Pays.feesAreValid (hlimit : S.zatoshis + F.zatoshis ≤ maxSingleTransactionValue) :
    minerFeesAreValid privateFromZeroOvk tx height F S (.zero _) = .ok () := by
  have htotal := h.total
  obtain ⟨hironwood, houtput⟩ := h.ironwood_bounds
  have hmax := maxSingle_le_maxMoney
  have hsum : ((tx.outputs.map Output.value).map Amount.zatoshis).sum = tx.outputTotal := by
    rw [map_map]
    rfl
  have hwhole : ∃ u, minerFeesAreValid privateFromZeroOvk tx height F S (.zero _) = .ok u := by
    unfold minerFeesAreValid
    -- The transparent outputs sum up.
    obtain ⟨sum, hsumOk⟩ : ∃ sum, Amount.sum (tx.outputs.map Output.value) = .ok sum := by
      apply sumFrom_of_le
      rw [zero_zatoshis]
      omega
    have hsumValue : sum.zatoshis = tx.outputTotal := by rw [sum_eq_ok hsumOk, hsum]
    rw [hsumOk, mapErr_ok, ok_bind]
    obtain ⟨transparent, htransparent, htransparentValue⟩ :=
      signed_ok sum.zatoshis (by omega) (by omega)
    rw [Amount.constrain, htransparent, mapErr_ok, ok_bind]
    obtain ⟨output, houtputOk, houtputValue⟩ := h.totalOutput (htransparentValue.trans hsumValue)
      (by omega)
    rw [houtputOk, mapErr_ok, ok_bind, coinbaseValueLimit, rejectIf_bind (by omega)]
    obtain ⟨input, hinput, hinputValue⟩ :=
      unsigned_ok (S.zatoshis + F.zatoshis) (by omega) (by omega)
    rw [Amount.add, hinput, mapErr_ok, ok_bind]
    apply exists_bind_ok
    · unfold componentsAreValid
      split
      · exact h.payout hinputValue
      · exact ⟨(), rfl⟩
    · intro _
      refine ⟨(), rejectIf_of_not ?_⟩
      omega
  obtain ⟨_, hok⟩ := hwhole
  exact hok

theorem Pays.subsidyIsValid {block : Block} (hblock : block.transactions.head? = some tx) :
    Consensus.subsidyIsValid block S = .ok (.zero _) := by
  have hheight : block.coinbaseHeight = some height := by
    unfold Block.coinbaseHeight
    cases htxs : block.transactions with
    | nil =>
      rw [htxs] at hblock
      cases hblock
    | cons first rest =>
      rw [htxs] at hblock
      cases hblock
      simp only [h.inputs]
  obtain ⟨index, hindex⟩ := wcashFoundationFundOutputIndex_of_mem h.foundation
  unfold Consensus.subsidyIsValid
  split
  · rfl
  · rw [hheight, okOr_bind, hblock, okOr_bind, hindex, mapErr_ok, ok_bind]

end

end Accepted

/-! ## The builder's coinbase -/

section Agreement

variable {env : BuilderEnv} {privateFromZeroOvk : Transaction → Nat → Bool}
variable {S F : Amount .nonNegative} {params : MinerParams}

theorem addTransparent_eq_ok {b b' : Builder} {script : Bytes} {value : Zatoshis}
    (h : addTransparent env b script value = .ok b') :
    b' = { b with outputs := b.outputs ++ [(script, value)] } := by
  obtain ⟨_, _, h⟩ := of_bind h
  cases h
  rfl

theorem addIronwood_eq_ok {b b' : Builder} {output : IronwoodOutput}
    (h : addIronwood env b output = .ok b') :
    b' = { b with ironwood := b.ironwood ++ [output] } := by
  obtain ⟨_, _, h⟩ := of_bind h
  cases h
  rfl

/-- The foundation output is added in its term. -/
theorem addFoundation_eq_ok {b b' : Builder} (h : addFoundation env b height S = .ok b') :
    ∃ added : List (Bytes × Zatoshis), b' = { b with outputs := b.outputs ++ added } ∧
      added.map (fun output => (⟨toAmount output.2, output.1⟩ : Output)) =
        foundationOutputs height S := by
  unfold addFoundation at h
  unfold foundationOutputs
  cases hfund : wcashFoundationFund height S with
  | none =>
    rw [hfund] at h
    cases h
    exact ⟨[], by simp, rfl⟩
  | some allocation =>
    rw [hfund] at h
    obtain ⟨value, hvalue, h⟩ := of_bind h
    rw [mapErr_eq_ok] at h
    refine ⟨[(allocation.script, value)], addTransparent_eq_ok h, ?_⟩
    have hamount : toAmount value = allocation.amount := by
      apply Bounded.ext
      have hcheck : value.val = allocation.amount.zatoshis := Bounded.check_eq_ok.mp hvalue
      exact hcheck
    simp [WcashFoundationAllocation.output, hamount]

/-- The builder's coinbase pays in one of the two modes. -/
theorem newCoinbase_pays (hemits : Emits env privateFromZeroOvk) {template : TransactionTemplate}
    (hS : blockSubsidy height = .ok S) (h : newCoinbase env height params F = .ok template) :
    Pays privateFromZeroOvk template.transaction height S F := by
  rw [newCoinbase, hS, mapErr_ok] at h
  obtain ⟨rest, hrest, h⟩ := of_mapErr_bind h
  obtain ⟨_, _, h⟩ := of_bind h
  obtain ⟨reward, hreward, h⟩ := of_mapErr_bind h
  obtain ⟨value, hvalue, h⟩ := of_bind h
  obtain ⟨b₁, hb₁, h⟩ := of_bind h
  obtain ⟨b₂, hb₂, h⟩ := of_bind h
  obtain ⟨tx, htx, h⟩ := of_mapErr_bind h
  obtain ⟨_, _, h⟩ := of_two_binds h
  obtain ⟨_, _, h⟩ := of_bind h
  cases h
  have hbuilt := hemits b₂ tx htx
  obtain ⟨added, rfl, hadded⟩ := addFoundation_eq_ok hb₂
  -- The reward is what the foundation leaves.
  have hworth : value.val = S.zatoshis + F.zatoshis - foundationShare height S := by
    have hsub := sub_eq_ok.mp hrest
    have hadd := add_eq_ok.mp hreward
    have hcheck : value.val = reward.zatoshis := Bounded.check_eq_ok.mp hvalue
    unfold foundationShare
    omega
  unfold addReward at hb₁
  split at hb₁
  · -- A Unified address: the reward is shielded, the foundation output stands alone.
    rw [okOr_eq_ok] at hb₁
    obtain ⟨recipient, _, hb₁⟩ := Option.bind_eq_some_iff.mp hb₁
    have hb₁ := addIronwood_eq_ok (toOption_eq_some.mp hb₁)
    subst hb₁
    obtain ⟨bundle, hbundle, hbalance⟩ := hbuilt.shielded (by simp)
    have houtputs := hbuilt.outputs
    simp only [nil_append, hadded] at houtputs
    refine ⟨hbuilt.inputs, hbuilt.sapling, hbuilt.orchard, .inr ⟨bundle, hbundle, ?_, ?_, ?_⟩⟩
    · -- A list with at most one element has one order.
      unfold foundationOutputs at houtputs ⊢
      cases hfund : wcashFoundationFund height S with
      | none =>
        rw [hfund] at houtputs
        exact houtputs.eq_nil
      | some allocation =>
        rw [hfund] at houtputs
        exact perm_singleton.mp houtputs
    · rw [hbalance, ← hworth]
      simp
    · apply hbuilt.hidden
      intro output houtput
      simp only [nil_append, mem_singleton] at houtput
      rw [houtput]
  · -- A transparent address: the reward and the foundation output, in some order.
    rw [okOr_eq_ok] at hb₁
    have hb₁ := addTransparent_eq_ok (toOption_eq_some.mp hb₁)
    subst hb₁
    have houtputs := hbuilt.outputs
    simp only [nil_append, map_cons, singleton_append, hadded] at houtputs
    refine ⟨hbuilt.inputs, hbuilt.sapling, hbuilt.orchard,
      .inl ⟨hbuilt.transparentOnly rfl, ?_, _, houtputs⟩⟩
    rw [Transaction.outputTotal, (houtputs.map _).sum_eq, map_cons, sum_cons,
      ← foundationShare_eq]
    show value.val + _ = _
    omega
  · cases hb₁

/-- The coinbase builder and the consensus rules agree: what is built for a
total within the limit passes both checks, and beyond it both refuse. -/
theorem builder_agrees (hemits : Emits env privateFromZeroOvk) (hpos : 0 < height)
    {params : MinerParams}
    (_haddr : (∃ script, params.addr = .transparent script) ∨
      ∃ recipient, params.addr = .unified (some recipient))
    (hS : blockSubsidy height = .ok S) :
    (S.zatoshis + F.zatoshis ≤ maxSingleTransactionValue →
      ∀ template, newCoinbase env height params F = .ok template →
        ∀ block : Block, block.transactions.head? = some template.transaction →
          subsidyIsValid block S = .ok (.zero _) ∧
          minerFeesAreValid privateFromZeroOvk template.transaction height F S (.zero _) =
            .ok ()) ∧
    (maxSingleTransactionValue < S.zatoshis + F.zatoshis →
      (∃ e, newCoinbase env height params F = .error e) ∧
      ∀ tx deferred, minerFeesAreValid privateFromZeroOvk tx height F S deferred ≠ .ok ()) := by
  constructor
  · intro hlimit template htemplate block hblock
    have hpays := newCoinbase_pays hemits hS htemplate
    exact ⟨hpays.subsidyIsValid hblock, hpays.feesAreValid hlimit⟩
  · intro hlimit
    constructor
    · rw [newCoinbase, hS, mapErr_ok, ok_bind]
      cases minerSubsidy height S with
      | error e => exact ⟨.subsidy (.invalidAmount e), rfl⟩
      | ok rest =>
        rw [rejectIf_of_pos hlimit]
        exact ⟨.subsidy .wcashCoinbaseValueTooLarge, rfl⟩
    · intro tx deferred hok
      have hle := (minerFeesAreValid_eq_ok hok).limit hpos
      omega

end Agreement

/-! A builder of the least transactions that emit what was added. -/

def sampleBundle : List IronwoodOutput → Except String (Option OrchardBundle)
  | [] => .ok none
  | output :: rest => do
    let balance ← Bounded.check (-maxSingleTransactionValue) maxSingleTransactionValue
      (fun _ => "balance") (-((output :: rest).map fun output => output.value.val).sum)
    .ok (some ⟨(output :: rest).map fun _ => ⟨.fill 32 1, .fill 32 2⟩, by simp, false, true,
      balance⟩)

def sampleBuild (b : Builder) : Except String Transaction := do
  let bundle ← sampleBundle b.ironwood
  .ok ⟨.fill 32 7, 6, [.coinbase b.height],
    b.outputs.map fun output => ⟨toAmount output.2, output.1⟩, none, none, none, bundle⟩

def sampleBuilderEnv : BuilderEnv where
  addTransparentOutput := fun _ _ _ => .ok ()
  addIronwoodOutput := fun _ _ => .ok ()
  build := sampleBuild
  write := fun _ => .ok []
  sigops := fun _ => .ok 1

theorem sampleBuilderEnv_emits : Emits sampleBuilderEnv fun _ _ => true := by
  intro b tx h
  obtain ⟨bundle, hbundle, h⟩ := of_bind h
  cases h
  refine ⟨rfl, .refl _, rfl, rfl, ?_, ?_, fun _ => rfl⟩
  · intro hnil
    rw [hnil] at hbundle
    cases hbundle
    rfl
  · intro hne
    cases hlist : b.ironwood with
    | nil => exact absurd hlist hne
    | cons output rest =>
      rw [hlist] at hbundle
      obtain ⟨balance, hbalance, hbundle⟩ := of_bind hbundle
      cases hbundle
      exact ⟨_, rfl, Bounded.check_eq_ok.mp hbalance⟩

def sampleParams : MinerParams := ⟨.unified (some [1, 2, 3]), none, none⟩

def sampleExcess : Amount .nonNegative := ⟨2100000000000000, by decide, by decide⟩

theorem builder_agrees_shielded :
    (∃ template, newCoinbase sampleBuilderEnv 33000 sampleParams sampleFees = .ok template ∧
      minerFeesAreValid (fun _ _ => true) template.transaction 33000 sampleFees sampleSubsidy
        (.zero _) = .ok ()) ∧
    ∃ e, newCoinbase sampleBuilderEnv 33000 sampleParams sampleExcess = .error e := by
  have hS : blockSubsidy 33000 = .ok sampleSubsidy :=
    blockSubsidy_ramp (by decide) (by decide) (by decide)
  have haddr : (∃ script, sampleParams.addr = .transparent script) ∨
      ∃ recipient, sampleParams.addr = .unified (some recipient) := .inr ⟨_, rfl⟩
  obtain ⟨template, htemplate⟩ : ∃ template,
      newCoinbase sampleBuilderEnv 33000 sampleParams sampleFees = .ok template := by
    rw [newCoinbase, hS]
    exact ⟨_, rfl⟩
  have hwithin := (builder_agrees sampleBuilderEnv_emits (by decide) haddr hS).1
    (by decide : sampleSubsidy.zatoshis + sampleFees.zatoshis ≤ maxSingleTransactionValue)
    template htemplate ⟨.fill 32 8, .fill 32 9, 1, [template.transaction]⟩ rfl
  have hbeyond := (builder_agrees sampleBuilderEnv_emits (by decide) haddr hS).2
    (by decide : maxSingleTransactionValue < sampleSubsidy.zatoshis + sampleExcess.zatoshis)
  exact ⟨⟨template, htemplate, hwithin.2⟩, hbeyond.1⟩

end Wolf.Consensus
