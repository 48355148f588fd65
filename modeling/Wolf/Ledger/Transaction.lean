import Wolf.Framework.Exec
import Wolf.Ledger.Amount

/-! # Transactions and blocks

The parts of a transaction that carry value or identify what it spends:
transparent inputs and outputs, Sprout JoinSplits, and the Sapling,
Orchard and Ironwood bundles. Signatures, proofs, scripts other than
lock scripts, lock times and expiry heights are read by no modelled
function.

* `Transaction.valueBalance` is the change of the transaction value pool,
  pool by pool; `Block.chainValuePoolChange` is the opposite change of
  the chain value pools.
* `Transaction.valueBalance_eq_ok` and
  `Block.chainValuePoolChange_eq_ok` say what they compute, with the
  value of a spent output read from the given map. -/

namespace Wolf.Ledger

open List Amount

/-! ## Data -/

/-- A block or transaction hash. -/
abbrev Hash : Type := FixedBytes 32

/-- A nullifier, note commitment or tree root, in any pool. -/
abbrev Word : Type := FixedBytes 32

structure OutPoint where
  hash : Hash
  index : Nat
  deriving DecidableEq

inductive Input where
  | prevOut (outpoint : OutPoint)
  | coinbase (height : Nat)
  deriving DecidableEq

/-- An output. That its value is a `Zatoshis`, at most 21,000,000 coins, is
not used. -/
structure Output where
  value : Amount .nonNegative
  lockScript : Bytes
  deriving DecidableEq

structure Utxo where
  output : Output
  height : Nat
  fromCoinbase : Bool
  deriving DecidableEq

structure OrderedUtxo where
  utxo : Utxo
  txIndexInBlock : Nat
  deriving DecidableEq

/-- The bound of one value in the inherited transaction format, 21 million
coins; also `MAX_WCASH_COINBASE_VALUE`. -/
def maxSingleTransactionValue : Int := 21000000 * 100000000

theorem maxSingle_le_maxMoney : maxSingleTransactionValue ≤ maxMoney := by
  decide

/-- `Zatoshis` of the transaction library. -/
abbrev Zatoshis : Type := Bounded 0 maxSingleTransactionValue

/-- `ZatBalance` of the transaction library. -/
abbrev ZatBalance : Type := Bounded (-maxSingleTransactionValue) maxSingleTransactionValue

/-- `Amount::try_from(i64::from(balance))`, which cannot fail. -/
def ZatBalance.toAmount (b : ZatBalance) : Amount .negativeAllowed :=
  b.widen (Int.neg_le_neg maxSingle_le_maxMoney) maxSingle_le_maxMoney

/-- A JoinSplit description. -/
structure JsDescription where
  vpubOld : Zatoshis
  vpubNew : Zatoshis
  nullifiers : List Word
  commitments : List Word
  deriving DecidableEq

/-- A Sapling bundle: the nullifiers of its spends and the commitments of
its outputs. -/
structure SaplingBundle where
  nullifiers : List Word
  commitments : List Word
  valueBalance : ZatBalance
  deriving DecidableEq

/-- An Orchard action. -/
structure Action where
  nullifier : Word
  commitment : Word
  deriving DecidableEq

/-- An Orchard-shaped bundle. The library type holds a nonempty vector of
actions. -/
structure OrchardBundle where
  actions : List Action
  actions_ne : actions ≠ []
  spendsEnabled : Bool
  outputsEnabled : Bool
  valueBalance : ZatBalance
  deriving DecidableEq

structure Transaction where
  hash : Hash
  version : Nat
  inputs : List Input
  outputs : List Output
  sproutBundle : Option (List JsDescription)
  saplingBundle : Option SaplingBundle
  orchardBundle : Option OrchardBundle
  ironwoodBundle : Option OrchardBundle
  deriving DecidableEq

/-- `Block`: its hash, its parent's hash, the work of its difficulty
threshold, and its transactions. -/
structure Block where
  hash : Hash
  previousBlockHash : Hash
  work : Nat
  transactions : List Transaction
  deriving DecidableEq

/-! ## Accessors -/

namespace Input

def outpoint : Input → Option OutPoint
  | prevOut outpoint => some outpoint
  | coinbase _ => none

/-- `value_from_outputs`; the source panics on an unknown outpoint. -/
def valueFromOutputs (outputs : HashMap OutPoint Output) :
    Input → Except ValueBalanceError (Amount .nonNegative)
  | prevOut outpoint => do
    let output ← okOr (outputs.lookup outpoint) .missingOutput
    .ok output.value
  | coinbase _ => .ok (.zero _)

end Input

namespace Transaction

/-- `is_coinbase`: a single transparent input with a null prevout. -/
def isCoinbase (tx : Transaction) : Bool :=
  match tx.inputs with
  | [.coinbase _] => true
  | _ => false

/-- `is_valid_non_coinbase`: no input has a null prevout. -/
def isValidNonCoinbase (tx : Transaction) : Bool :=
  tx.inputs.all fun input => input.outpoint.isSome

def spentOutpoints (tx : Transaction) : List OutPoint :=
  tx.inputs.filterMap Input.outpoint

/-- The outputs of a transaction under their outpoints. -/
def newOutputs (tx : Transaction) : List (OutPoint × Output) :=
  tx.outputs.zipIdx.map fun (output, index) => (⟨tx.hash, index⟩, output)

def sproutJoinsplitDescriptions (tx : Transaction) : List JsDescription :=
  tx.sproutBundle.getD []

def joinsplitCount (tx : Transaction) : Nat := tx.sproutJoinsplitDescriptions.length

def ironwoodActions (tx : Transaction) : List Action :=
  (tx.ironwoodBundle.map OrchardBundle.actions).getD []

/-- An Ironwood bundle has an action. -/
theorem ironwoodActions_eq_nil {tx : Transaction} :
    tx.ironwoodActions = [] ↔ tx.ironwoodBundle = none := by
  unfold ironwoodActions
  cases hbundle : tx.ironwoodBundle with
  | none => simp
  | some bundle => simpa using bundle.actions_ne

/-! ## The value balance of a transaction -/

/-- The sum of the values of the outputs. -/
def outputTotal (tx : Transaction) : Int := (tx.outputs.map fun output => output.value.zatoshis).sum

/-- The balance of a bundle, zero without one. -/
def bundleBalance (balance : Option ZatBalance) : Amount .negativeAllowed :=
  (balance.map ZatBalance.toAmount).getD (.zero _)

/-- The amount of `sapling_value_balance`. -/
def saplingAmount (tx : Transaction) : Amount .negativeAllowed :=
  bundleBalance (tx.saplingBundle.map SaplingBundle.valueBalance)

/-- The amount of `orchard_value_balance`. -/
def orchardAmount (tx : Transaction) : Amount .negativeAllowed :=
  bundleBalance (tx.orchardBundle.map OrchardBundle.valueBalance)

/-- The amount of `ironwood_value_balance`. -/
def ironwoodAmount (tx : Transaction) : Amount .negativeAllowed :=
  bundleBalance (tx.ironwoodBundle.map OrchardBundle.valueBalance)

def transparentValueBalanceFromOutputs (tx : Transaction) (outputs : HashMap OutPoint Output) :
    Except ValueBalanceError (ValueBalance .negativeAllowed) := do
  let inputValues ← tx.inputs.mapM (Input.valueFromOutputs outputs)
  let inputValue ← mapErr .transparent (Amount.sum inputValues)
  let inputValue ← mapErr .transparent (inputValue.constrain .negativeAllowed)
  let outputValue ← mapErr .transparent (Amount.sum (tx.outputs.map Output.value))
  let outputValue ← mapErr .transparent (outputValue.constrain .negativeAllowed)
  let balance ← mapErr .transparent (inputValue.sub outputValue)
  .ok (.fromTransparentAmount balance)

/-- One step of the fold of `sprout_value_balance`. -/
def addNetValue (total : Amount .negativeAllowed) (js : JsDescription) :
    Except AmountError (Amount .negativeAllowed) := do
  let net ← Amount.tryFrom .negativeAllowed (js.vpubNew.val - js.vpubOld.val)
  total.add net

def sproutValueBalance (tx : Transaction) :
    Except ValueBalanceError (ValueBalance .negativeAllowed) := do
  let total ← mapErr .sprout (tx.sproutJoinsplitDescriptions.foldlM addNetValue (.zero _))
  .ok (.fromSproutAmount total)

/-- The outputs that `value_balance` collects: those the transaction spends. -/
def collectSpent (tx : Transaction) (utxos : HashMap OutPoint Utxo) : HashMap OutPoint Output :=
  tx.spentOutpoints.foldl (fun outputs outpoint =>
      match utxos.lookup outpoint with
      | some utxo => outputs.insert outpoint utxo.output
      | none => outputs) ∅

def valueBalance (tx : Transaction) (utxos : HashMap OutPoint Utxo) :
    Except ValueBalanceError (ValueBalance .negativeAllowed) := do
  let transparent ← tx.transparentValueBalanceFromOutputs (tx.collectSpent utxos)
  let sprout ← tx.sproutValueBalance
  let sum ← transparent.add sprout
  let sum ← sum.add (.fromSaplingAmount tx.saplingAmount)
  let sum ← sum.add (.fromOrchardAmount tx.orchardAmount)
  sum.add (.fromIronwoodAmount tx.ironwoodAmount)

end Transaction

namespace Block

def coinbaseHeight (block : Block) : Option Nat :=
  match block.transactions with
  | tx :: _ =>
    match tx.inputs with
    | .coinbase height :: _ => some height
    | _ => none
  | [] => none

/-- One step of the fold of `chain_value_pool_change`. -/
def addBalance (utxos : HashMap OutPoint Utxo) (acc : ValueBalance .negativeAllowed)
    (tx : Transaction) : Except ValueBalanceError (ValueBalance .negativeAllowed) := do
  let balance ← tx.valueBalance utxos
  acc.add balance

def chainValuePoolChange (block : Block) (utxos : HashMap OutPoint Utxo)
    (deferredPoolBalanceChange : Amount .negativeAllowed) :
    Except ValueBalanceError (ValueBalance .negativeAllowed) := do
  let txPoolSum ← block.transactions.foldlM (addBalance utxos) (.zero _)
  .ok (txPoolSum.neg.setDeferredAmount deferredPoolBalanceChange)

end Block

/-! ## What the balances compute -/

section Balances

variable {tx : Transaction} {utxos : HashMap OutPoint Utxo}
  {v r change : ValueBalance .negativeAllowed} {outputOf : OutPoint → Output} {output : Output}

/-- The value of an outpoint in a map, zero if it is unknown. -/
def valueIn (utxos : HashMap OutPoint Utxo) (outpoint : OutPoint) : Int :=
  ((utxos.lookup outpoint).map fun utxo => utxo.output.value.zatoshis).getD 0

/-- The value that the transparent inputs of a transaction bring. -/
def Transaction.inputTotal (tx : Transaction) (valueOf : OutPoint → Int) : Int :=
  (tx.spentOutpoints.map valueOf).sum

/-- What leaves the Sprout pool. -/
def Transaction.sproutNet (tx : Transaction) : Int :=
  (tx.sproutJoinsplitDescriptions.map fun js => js.vpubNew.val - js.vpubOld.val).sum

theorem collect_lookup (outpoint : OutPoint) {outpoints : List OutPoint}
    {outputs : HashMap OutPoint Output}
    (hsound : ∀ o output, outputs.lookup o = some output →
      (utxos.lookup o).map Utxo.output = some output)
    (h : (outpoints.foldl (fun outputs outpoint =>
        match utxos.lookup outpoint with
        | some utxo => outputs.insert outpoint utxo.output
        | none => outputs) outputs).lookup outpoint = some output) :
    (utxos.lookup outpoint).map Utxo.output = some output := by
  induction outpoints generalizing outputs with
  | nil => exact hsound outpoint output h
  | cons first rest ih =>
    apply ih _ h
    intro o out hout
    dsimp only at hout
    split at hout
    · rename_i utxo hutxo
      by_cases ho : o = first
      · subst ho
        rw [AList.lookup_insert] at hout
        rw [hutxo, ← hout]
        rfl
      · rw [AList.lookup_insert_ne ho] at hout
        exact hsound o out hout
    · exact hsound o out hout

/-- The values of the inputs, all of which are known. -/
theorem inputValues_sum {inputs : List Input} {values : List (Amount .nonNegative)}
    (h : inputs.mapM (Input.valueFromOutputs (tx.collectSpent utxos)) = .ok values) :
    (∀ outpoint ∈ inputs.filterMap Input.outpoint, ∃ utxo, utxos.lookup outpoint = some utxo) ∧
    (values.map Amount.zatoshis).sum =
      ((inputs.filterMap Input.outpoint).map (valueIn utxos)).sum := by
  induction inputs generalizing values with
  | nil =>
    cases h
    simp
  | cons input rest ih =>
    rw [mapM_cons, bind_eq_ok] at h
    obtain ⟨value, hvalue, h⟩ := h
    obtain ⟨others, hothers, h⟩ := of_bind h
    cases h
    obtain ⟨hknown, hsum⟩ := ih hothers
    rw [map_cons, sum_cons, hsum]
    cases input with
    | prevOut outpoint =>
      obtain ⟨output, houtput, hvalue⟩ := of_okOr_bind hvalue
      cases hvalue
      obtain ⟨utxo, hutxo, rfl⟩ := Option.map_eq_some_iff.mp
        (collect_lookup outpoint (fun o out hout => by cases hout) houtput)
      constructor
      · intro other hother
        rcases mem_cons.mp hother with rfl | hother
        · exact ⟨utxo, hutxo⟩
        · exact hknown other hother
      · simp [Input.outpoint, valueIn, hutxo]
    | coinbase height =>
      cases hvalue
      rw [zero_zatoshis, Int.zero_add]
      exact ⟨hknown, rfl⟩

/-- The transaction balance is known pool by pool. -/
structure Balanced (tx : Transaction) (utxos : HashMap OutPoint Utxo)
    (v : ValueBalance .negativeAllowed) : Prop where
  known : ∀ outpoint ∈ tx.spentOutpoints, ∃ utxo, utxos.lookup outpoint = some utxo
  transparent : v.transparent.zatoshis = tx.inputTotal (valueIn utxos) - tx.outputTotal
  sprout : v.sprout.zatoshis = tx.sproutNet
  sapling : v.sapling.zatoshis = tx.saplingAmount.zatoshis
  orchard : v.orchard.zatoshis = tx.orchardAmount.zatoshis
  deferred : v.deferred.zatoshis = 0
  ironwood : v.ironwood.zatoshis = tx.ironwoodAmount.zatoshis

theorem sproutValueBalance_eq_ok (h : tx.sproutValueBalance = .ok v) :
    ∃ a : Amount .negativeAllowed, v = .fromSproutAmount a ∧ a.zatoshis = tx.sproutNet := by
  simp only [Transaction.sproutValueBalance, bind_eq_ok, mapErr_eq_ok] at h
  obtain ⟨total, htotal, h⟩ := h
  cases h
  refine ⟨total, rfl, ?_⟩
  -- Each JoinSplit adds its net value to the running total.
  have hsum := foldlM_sum Amount.zatoshis
    (fun js : JsDescription => js.vpubNew.val - js.vpubOld.val)
    (fun js _ s s' hstep => by
      obtain ⟨net, hnet, hadd⟩ := of_bind hstep
      rw [add_eq_ok.mp hadd, tryFrom_eq_ok.mp hnet]) htotal
  rw [hsum, zero_zatoshis, Int.zero_add]
  rfl

theorem Transaction.valueBalance_eq_ok (h : tx.valueBalance utxos = .ok v) :
    Balanced tx utxos v := by
  obtain ⟨transparent, htransparent, h⟩ := of_bind h
  obtain ⟨sprout, hsprout, h⟩ := of_bind h
  obtain ⟨sum₁, h₁, h⟩ := of_bind h
  obtain ⟨sum₂, h₂, h⟩ := of_bind h
  obtain ⟨sum₃, h₃, h₄⟩ := of_bind h
  obtain ⟨values, hvalues, htransparent⟩ := of_bind htransparent
  simp only [bind_eq_ok, mapErr_eq_ok, constrain_eq_ok, sub_eq_ok] at htransparent
  obtain ⟨ins, hins, ins', hins', outs, houts, outs', houts', a, ha, htransparent⟩ := htransparent
  cases htransparent
  obtain ⟨hknown, hin⟩ := inputValues_sum hvalues
  have ha : a.zatoshis = tx.inputTotal (valueIn utxos) - tx.outputTotal := by
    rw [ha, hins', houts', sum_eq_ok hins, sum_eq_ok houts, hin, map_map]
    rfl
  obtain ⟨b, rfl, hb⟩ := sproutValueBalance_eq_ok hsprout
  have h₁ := ValueBalance.add_eq_ok h₁
  have h₂ := ValueBalance.add_eq_ok h₂
  have h₃ := ValueBalance.add_eq_ok h₃
  have h₄ := ValueBalance.add_eq_ok h₄
  -- Every summand is zero in all pools but its own.
  exact
    { known := hknown
      transparent := by
        rw [h₄.transparent, h₃.transparent, h₂.transparent, h₁.transparent]
        simpa using ha
      sprout := by
        rw [h₄.sprout, h₃.sprout, h₂.sprout, h₁.sprout]
        simpa using hb
      sapling := by
        rw [h₄.sapling, h₃.sapling, h₂.sapling, h₁.sapling]
        simp
      orchard := by
        rw [h₄.orchard, h₃.orchard, h₂.orchard, h₁.orchard]
        simp
      deferred := by
        rw [h₄.deferred, h₃.deferred, h₂.deferred, h₁.deferred]
        simp
      ironwood := by
        rw [h₄.ironwood, h₃.ironwood, h₂.ironwood, h₁.ironwood]
        simp }

/-- What the transaction adds to the transaction value pool, all pools
together. -/
def Transaction.balanceTotal (tx : Transaction) (valueOf : OutPoint → Int) : Int :=
  tx.inputTotal valueOf - tx.outputTotal + tx.sproutNet + tx.saplingAmount.zatoshis +
    tx.orchardAmount.zatoshis + tx.ironwoodAmount.zatoshis

/-- What an outpoint is worth, when it determines its output. -/
def worth (outputOf : OutPoint → Output) (outpoint : OutPoint) : Int :=
  (outputOf outpoint).value.zatoshis

/-- The map holds the right output for every outpoint it knows. -/
def HoldsOutputs (outputOf : OutPoint → Output) (utxos : HashMap OutPoint Utxo) : Prop :=
  ∀ outpoint utxo, utxos.lookup outpoint = some utxo → utxo.output = outputOf outpoint

/-- Such a map gives the inputs their value. -/
theorem Balanced.inputTotal_eq (h : Balanced tx utxos v) (hright : HoldsOutputs outputOf utxos) :
    tx.inputTotal (valueIn utxos) = tx.inputTotal (worth outputOf) := by
  unfold Transaction.inputTotal
  congr 1
  apply map_congr_left
  intro outpoint hmem
  obtain ⟨utxo, hutxo⟩ := h.known outpoint hmem
  rw [worth, ← hright outpoint utxo hutxo]
  simp [valueIn, hutxo]

theorem Balanced.total (h : Balanced tx utxos v) (hright : HoldsOutputs outputOf utxos) :
    v.totalZatoshis = tx.balanceTotal (worth outputOf) := by
  unfold ValueBalance.totalZatoshis Transaction.balanceTotal
  rw [h.transparent, h.sprout, h.sapling, h.orchard, h.deferred, h.ironwood,
    h.inputTotal_eq hright]
  omega

/-- The fold over the transactions of a block, measured in one way. -/
theorem addBalance_sum {measure : ValueBalance .negativeAllowed → Int} {weight : Transaction → Int}
    (hadd : ∀ {a b r : ValueBalance .negativeAllowed}, ValueBalance.Sum a b r →
      measure r = measure a + measure b)
    (hweight : ∀ {tx : Transaction} {v : ValueBalance .negativeAllowed}, Balanced tx utxos v →
      measure v = weight tx) {txs : List Transaction}
    (h : txs.foldlM (Block.addBalance utxos) v = .ok r) :
    measure r = measure v + (txs.map weight).sum := by
  apply foldlM_sum measure weight _ h
  intro tx _ s s' hstep
  obtain ⟨balance, hbalance, hsum⟩ := of_bind hstep
  rw [hadd (ValueBalance.add_eq_ok hsum), hweight (Transaction.valueBalance_eq_ok hbalance)]

/-- The change of the chain value pools: what the transactions take from
the transaction value pool, and the deferred term. -/
theorem Block.chainValuePoolChange_eq_ok {block : Block} {deferred : Amount .negativeAllowed}
    (h : block.chainValuePoolChange utxos deferred = .ok change)
    (hright : HoldsOutputs outputOf utxos) :
    change.totalZatoshis =
      deferred.zatoshis - (block.transactions.map fun tx => tx.balanceTotal (worth outputOf)).sum ∧
    change.transparent.zatoshis =
      -(block.transactions.map fun tx => tx.inputTotal (worth outputOf) - tx.outputTotal).sum := by
  obtain ⟨sum, hsum, h⟩ := of_bind h
  cases h
  have htotal := addBalance_sum (fun h => h.total) (fun h => h.total hright) hsum
  have htransparent := addBalance_sum (fun h => h.transparent)
    (fun h => by rw [h.transparent, h.inputTotal_eq hright]) hsum
  have hdeferred := addBalance_sum (fun h => h.deferred) (fun h => h.deferred) hsum
  constructor
  · -- The deferred amount of the sum is zero, so that the new one is all there is.
    have hzero : sum.deferred.zatoshis = 0 := by simpa using hdeferred
    have hset : (sum.neg.setDeferredAmount deferred).totalZatoshis =
        deferred.zatoshis - sum.totalZatoshis := by
      unfold ValueBalance.setDeferredAmount ValueBalance.neg ValueBalance.totalZatoshis
      simp only [neg_zatoshis]
      omega
    rw [hset, htotal]
    simp [ValueBalance.totalZatoshis]
  · rw [ValueBalance.setDeferredAmount]
    dsimp only [ValueBalance.neg]
    rw [neg_zatoshis, htransparent]
    simp

end Balances

end Wolf.Ledger
