import Mathlib.Algebra.Order.BigOperators.Group.Multiset
import Wolf.NonFinalized.Block

/-! # The indexes of a chain

The indexes that `update_chain_tip_with` keeps for the transactions of a
chain: transaction locations, created and spent outputs, nullifiers, and
the transfers of every transparent address.

`apply` makes one update and `undo` takes it back. What the indexes
contain depends on the *multiset* of the updates only, so updates can be
undone in any order as long as no address balance leaves the range of an
amount on the way. -/

namespace Wolf.NonFinalized

open Ledger List Finmap

/-! ## The transfers of one address -/

structure TransparentTransfers where
  balance : Amount .negativeAllowed
  txIds : Multiset Hash
  createdUtxos : Index OutputLocation Output
  spentUtxos : Index OutputLocation Unit

/-- The value of the output of a transfer, as it changes the balance. -/
def Transfer.delta : Transfer → Int
  | .received _ utxo => utxo.utxo.output.value.zatoshis
  | .spent _ _ utxo => -utxo.utxo.output.value.zatoshis

/-- The transaction that receives or spends. -/
def Transfer.txId : Transfer → Hash
  | .received outpoint _ => outpoint.hash
  | .spent _ spendingTx _ => spendingTx

/-- The entry of a received output. -/
def Transfer.createdEntry : Transfer → Option (OutputLocation × Output)
  | .received outpoint utxo => some (outputLocation outpoint utxo, utxo.utxo.output)
  | .spent _ _ _ => none

/-- The entry of a spent output. -/
def Transfer.spentEntry : Transfer → Option (OutputLocation × Unit)
  | .received _ _ => none
  | .spent outpoint _ utxo => some (outputLocation outpoint utxo, ())

/-- The sum of a balance and a change, which must be in range. -/
def shiftBalance (balance : Amount .negativeAllowed) (change : Int) (p : Panic) :
    Except Panic (Amount .negativeAllowed) :=
  mapErr (fun _ => p) (Amount.tryFrom .negativeAllowed (balance.zatoshis + change))

namespace TransparentTransfers

def default : TransparentTransfers where
  balance := .zero _
  txIds := 0
  createdUtxos := ∅
  spentUtxos := ∅

/-- `update_chain_tip_with`, for a created output and for an input. -/
def update (t : TransparentTransfers) : Transfer → Except Panic TransparentTransfers
  | .received outpoint utxo => do
    let balance ← shiftBalance t.balance utxo.utxo.output.value.zatoshis .addressBalanceOverflow
    let createdUtxos ← t.createdUtxos.insertNew (outputLocation outpoint utxo) utxo.utxo.output
      .duplicateAddressOutput
    .ok { t with balance, createdUtxos, txIds := outpoint.hash ::ₘ t.txIds }
  | .spent outpoint spendingTx utxo => do
    let balance ← shiftBalance t.balance (-utxo.utxo.output.value.zatoshis)
      .addressBalanceOverflow
    let spentUtxos ← t.spentUtxos.insertNew (outputLocation outpoint utxo) ()
      .duplicateAddressSpend
    .ok { t with balance, spentUtxos, txIds := spendingTx ::ₘ t.txIds }

/-- `revert_chain_with`, for a created output and for an input. -/
def revert (t : TransparentTransfers) : Transfer → Except Panic TransparentTransfers
  | .received outpoint utxo => do
    let balance ← shiftBalance t.balance (-utxo.utxo.output.value.zatoshis)
      .reversedBalanceOverflow
    let createdUtxos ← t.createdUtxos.removePresent (outputLocation outpoint utxo)
      .missingAddressOutput
    let txIds ← removeOne t.txIds outpoint.hash .missingAddressTransaction
    .ok { t with balance, createdUtxos, txIds }
  | .spent outpoint spendingTx utxo => do
    let balance ← shiftBalance t.balance utxo.utxo.output.value.zatoshis
      .reversedBalanceOverflow
    let spentUtxos ← t.spentUtxos.removePresent (outputLocation outpoint utxo)
      .missingAddressSpend
    let txIds ← removeOne t.txIds spendingTx .missingAddressTransaction
    .ok { t with balance, spentUtxos, txIds }

def isEmpty (t : TransparentTransfers) : Bool :=
  decide (t.balance.zatoshis = 0) && decide (t.txIds = 0) && decide (t.createdUtxos.keys = ∅) &&
    decide (t.spentUtxos.keys = ∅)

/-- The record of an address is that of some transfers. -/
structure Records (t : TransparentTransfers) (us : Multiset Transfer) : Prop where
  balance : t.balance.zatoshis = (us.map Transfer.delta).sum
  txIds : t.txIds = us.map Transfer.txId
  created : Holds t.createdUtxos (us.filterMap Transfer.createdEntry)
  spent : Holds t.spentUtxos (us.filterMap Transfer.spentEntry)

namespace Records

variable {t t' : TransparentTransfers} {us : Multiset Transfer} {u : Transfer}
  {balance r : Amount .negativeAllowed} {change value : Int}

theorem default : Records TransparentTransfers.default 0 where
  balance := rfl
  txIds := rfl
  created := Holds.empty
  spent := Holds.empty

theorem unique (h : Records t us) (h' : Records t' us) : t = t' := by
  have hbalance : t.balance = t'.balance := Bounded.ext (h.balance.trans h'.balance.symm)
  have hids := h.txIds.trans h'.txIds.symm
  have hcreated := h.created.unique h'.created
  have hspent := h.spent.unique h'.spent
  cases t
  simp_all

theorem shiftBalance_eq_ok {p : Panic} :
    shiftBalance balance change p = .ok r ↔ r.zatoshis = balance.zatoshis + change := by
  unfold shiftBalance
  rw [mapErr_eq_ok, Amount.tryFrom_eq_ok]

/-- Step lemma: a new transfer. -/
theorem update (h : Records t us) (hu : t.update u = .ok t') : Records t' (u ::ₘ us) := by
  cases u with
  | received outpoint utxo =>
    simp only [TransparentTransfers.update, bind_eq_ok, shiftBalance_eq_ok] at hu
    obtain ⟨balance, hbalance, created, hcreated, hu⟩ := hu
    cases hu
    refine ⟨?_, ?_, ?_, ?_⟩
    · rw [Multiset.map_cons, Multiset.sum_cons, ← h.balance, Int.add_comm]
      exact hbalance
    · rw [Multiset.map_cons, ← h.txIds]
      rfl
    · rw [Multiset.filterMap_cons_some Transfer.createdEntry _ _ rfl]
      exact h.created.insertNew hcreated
    · rw [Multiset.filterMap_cons_none _ _ rfl]
      exact h.spent
  | spent outpoint spendingTx utxo =>
    simp only [TransparentTransfers.update, bind_eq_ok, shiftBalance_eq_ok] at hu
    obtain ⟨balance, hbalance, spent, hspent, hu⟩ := hu
    cases hu
    refine ⟨?_, ?_, ?_, ?_⟩
    · rw [Multiset.map_cons, Multiset.sum_cons, ← h.balance, Int.add_comm]
      exact hbalance
    · rw [Multiset.map_cons, ← h.txIds]
      rfl
    · rw [Multiset.filterMap_cons_none _ _ rfl]
      exact h.created
    · rw [Multiset.filterMap_cons_some Transfer.spentEntry _ _ rfl]
      exact h.spent.insertNew hspent

/-- The balance before a transfer. -/
theorem balance_cons (h : Records t (u ::ₘ us)) :
    (us.map Transfer.delta).sum = t.balance.zatoshis - u.delta := by
  have hbalance := h.balance
  rw [Multiset.map_cons, Multiset.sum_cons] at hbalance
  omega

theorem removeOne_txIds (h : Records t (u ::ₘ us)) (p : Panic) :
    removeOne t.txIds u.txId p = .ok (us.map Transfer.txId) := by
  rw [h.txIds, Multiset.map_cons, removeOne_cons]

theorem shiftBalance_of_mem (p : Panic) (heq : balance.zatoshis + change = value)
    (hlo : -maxMoney ≤ value) (hhi : value ≤ maxMoney) :
    shiftBalance balance change p = .ok ⟨value, hlo, hhi⟩ := by
  subst heq
  unfold shiftBalance
  rw [Amount.tryFrom_of_mem hlo hhi]
  rfl

theorem shiftBalance_of_not_mem (p : Panic) (heq : balance.zatoshis + change = value)
    (hout : ¬ (-maxMoney ≤ value ∧ value ≤ maxMoney)) :
    shiftBalance balance change p = .error p := by
  subst heq
  have hcheck : Amount.tryFrom .negativeAllowed (balance.zatoshis + change) = .error _ :=
    dif_neg hout
  rw [shiftBalance, hcheck]
  rfl

/-- A record of fewer transfers accepts what a record accepts, if the balance
stays in range. -/
theorem update_mono {r : TransparentTransfers} {less : Multiset Transfer} (h : Records t us)
    (h' : Records t' less) (hle : less ≤ us)
    (hrange : -maxMoney ≤ ((u ::ₘ less).map Transfer.delta).sum ∧
      ((u ::ₘ less).map Transfer.delta).sum ≤ maxMoney)
    (hu : t.update u = .ok r) : ∃ r', t'.update u = .ok r' := by
  rw [Multiset.map_cons, Multiset.sum_cons, ← h'.balance, add_comm] at hrange
  have hshift := shiftBalance_of_mem Panic.addressBalanceOverflow rfl hrange.1 hrange.2
  cases u with
  | received outpoint utxo =>
    simp only [TransparentTransfers.update, bind_eq_ok] at hu
    obtain ⟨_, _, created, hcreated, _⟩ := hu
    obtain ⟨created', hcreated'⟩ := h.created.insertNew_mono h'.created
      (Multiset.filterMap_le_filterMap _ hle) hcreated
    exact ⟨_, bind_eq_ok.mpr ⟨_, hshift, bind_eq_ok.mpr ⟨_, hcreated', rfl⟩⟩⟩
  | spent outpoint spendingTx utxo =>
    simp only [TransparentTransfers.update, bind_eq_ok] at hu
    obtain ⟨_, _, spent, hspent, _⟩ := hu
    obtain ⟨spent', hspent'⟩ := h.spent.insertNew_mono h'.spent
      (Multiset.filterMap_le_filterMap _ hle) hspent
    exact ⟨_, bind_eq_ok.mpr ⟨_, hshift, bind_eq_ok.mpr ⟨_, hspent', rfl⟩⟩⟩

/-- Step lemma: a transfer is taken back if the balance stays in range. -/
theorem revert (h : Records t (u ::ₘ us)) (hlo : -maxMoney ≤ (us.map Transfer.delta).sum)
    (hhi : (us.map Transfer.delta).sum ≤ maxMoney) : ∃ t', t.revert u = .ok t' ∧ Records t' us := by
  have hsum := h.balance_cons
  have hremove := h.removeOne_txIds .missingAddressTransaction
  cases u with
  | received outpoint utxo =>
    have hcreated := h.created
    rw [Multiset.filterMap_cons_some Transfer.createdEntry _ _ rfl] at hcreated
    obtain ⟨created, herase, hcreated⟩ := hcreated.removePresent Panic.missingAddressOutput
    have hspent := h.spent
    rw [Multiset.filterMap_cons_none _ _ rfl] at hspent
    have hchange : t.balance.zatoshis + -utxo.utxo.output.value.zatoshis =
        (us.map Transfer.delta).sum := hsum.symm
    have hbalance := shiftBalance_of_mem Panic.reversedBalanceOverflow hchange hlo hhi
    refine ⟨⟨⟨_, hlo, hhi⟩, us.map Transfer.txId, created, t.spentUtxos⟩, ?_,
      ⟨rfl, rfl, hcreated, hspent⟩⟩
    rw [TransparentTransfers.revert, hbalance, ok_bind, herase, ok_bind]
    rw [show outpoint.hash = (Transfer.received outpoint utxo).txId from rfl, hremove]
    rfl
  | spent outpoint spendingTx utxo =>
    have hspent := h.spent
    rw [Multiset.filterMap_cons_some Transfer.spentEntry _ _ rfl] at hspent
    obtain ⟨spent, herase, hspent⟩ := hspent.removePresent Panic.missingAddressSpend
    have hcreated := h.created
    rw [Multiset.filterMap_cons_none _ _ rfl] at hcreated
    have hchange : t.balance.zatoshis + utxo.utxo.output.value.zatoshis =
        (us.map Transfer.delta).sum := by
      rw [hsum, Transfer.delta]
      omega
    have hbalance := shiftBalance_of_mem Panic.reversedBalanceOverflow hchange hlo hhi
    refine ⟨⟨⟨_, hlo, hhi⟩, us.map Transfer.txId, t.createdUtxos, spent⟩, ?_,
      ⟨rfl, rfl, hcreated, hspent⟩⟩
    rw [TransparentTransfers.revert, hbalance, ok_bind, herase, ok_bind]
    rw [show spendingTx = (Transfer.spent outpoint spendingTx utxo).txId from rfl, hremove]
    rfl

/-- Otherwise the source panics. -/
theorem revert_of_overflow (h : Records t (u ::ₘ us))
    (hout : ¬ (-maxMoney ≤ (us.map Transfer.delta).sum ∧ (us.map Transfer.delta).sum ≤ maxMoney)) :
    t.revert u = .error .reversedBalanceOverflow := by
  have hsum := h.balance_cons
  cases u with
  | received outpoint utxo =>
    have hchange : t.balance.zatoshis + -utxo.utxo.output.value.zatoshis =
        (us.map Transfer.delta).sum := hsum.symm
    rw [TransparentTransfers.revert,
      shiftBalance_of_not_mem Panic.reversedBalanceOverflow hchange hout]
    rfl
  | spent outpoint spendingTx utxo =>
    have hchange : t.balance.zatoshis + utxo.utxo.output.value.zatoshis =
        (us.map Transfer.delta).sum := by
      rw [hsum, Transfer.delta]
      omega
    rw [TransparentTransfers.revert,
      shiftBalance_of_not_mem Panic.reversedBalanceOverflow hchange hout]
    rfl

/-- The record of no transfers is the only empty one. -/
theorem isEmpty_iff (h : Records t us) : t.isEmpty = true ↔ us = 0 := by
  constructor
  · intro hempty
    simp only [isEmpty, Bool.and_eq_true, decide_eq_true_eq] at hempty
    have hids := h.txIds
    rw [hempty.1.1.2] at hids
    exact Multiset.map_eq_zero.mp hids.symm
  · rintro rfl
    rw [h.unique Records.default]
    rfl

end Records

end TransparentTransfers

/-! ## All indexes -/

/-- The indexes of `ChainInner` over its transactions. -/
structure Indexes where
  txLocByHash : Index Hash TransactionLocation
  createdUtxos : Index OutPoint OrderedUtxo
  spentUtxos : Index OutPoint Hash
  nullifiers : Pool → Index Word Hash
  partialTransparentTransfers : Index Address TransparentTransfers

namespace Indexes

/-- The indexes of a new chain. -/
def empty : Indexes where
  txLocByHash := ∅
  createdUtxos := ∅
  spentUtxos := ∅
  nullifiers := fun _ => ∅
  partialTransparentTransfers := ∅

/-- One update of `update_chain_tip_with`. -/
def apply (i : Indexes) : Edit → Except Fault Indexes
  | .nullifier pool nullifier txId => do
    let m ← (i.nullifiers pool).insertNew nullifier txId
      (.rejected (.duplicateNullifier pool nullifier false))
    .ok { i with nullifiers := Function.update i.nullifiers pool m }
  | .transaction hash location => do
    let m ← i.txLocByHash.insertNew hash location (.panicked .duplicateTransaction)
    .ok { i with txLocByHash := m }
  | .created outpoint utxo => do
    let m ← i.createdUtxos.insertNew outpoint utxo (.panicked .duplicateCreatedOutput)
    .ok { i with createdUtxos := m }
  | .spent outpoint txId => do
    let m ← i.spentUtxos.insertNew outpoint txId (.panicked .duplicateSpentOutput)
    .ok { i with spentUtxos := m }
  | .transfer address transfer => do
    let transfers := (i.partialTransparentTransfers.lookup address).getD .default
    let transfers ← mapErr .panicked (transfers.update transfer)
    .ok { i with
      partialTransparentTransfers := i.partialTransparentTransfers.insert address transfers }
  | .missing p => .error (.panicked p)

/-- One update of `revert_chain_with`. -/
def undo (i : Indexes) : Edit → Except Panic Indexes
  | .nullifier pool nullifier _ => do
    let m ← (i.nullifiers pool).removePresent nullifier .missingNullifier
    .ok { i with nullifiers := Function.update i.nullifiers pool m }
  | .transaction hash _ => do
    let m ← i.txLocByHash.removePresent hash .missingTransaction
    .ok { i with txLocByHash := m }
  | .created outpoint _ => do
    let m ← i.createdUtxos.removePresent outpoint .missingCreatedOutput
    .ok { i with createdUtxos := m }
  | .spent outpoint _ => do
    let m ← i.spentUtxos.removePresent outpoint .missingSpentOutpoint
    .ok { i with spentUtxos := m }
  | .transfer address transfer => do
    let transfers ← okOr (i.partialTransparentTransfers.lookup address) .missingAddress
    let transfers ← transfers.revert transfer
    .ok { i with
      partialTransparentTransfers :=
        if transfers.isEmpty then i.partialTransparentTransfers.erase address
        else i.partialTransparentTransfers.insert address transfers }
  | .missing p => .error p

end Indexes

/-! ## What the indexes hold -/

namespace Edit

def nullifierEntry (pool : Pool) : Edit → Option (Word × Hash)
  | .nullifier pool' n txId => if pool' = pool then some (n, txId) else none
  | _ => none

def transactionEntry : Edit → Option (Hash × TransactionLocation)
  | .transaction hash location => some (hash, location)
  | _ => none

def createdEntry : Edit → Option (OutPoint × OrderedUtxo)
  | .created outpoint utxo => some (outpoint, utxo)
  | _ => none

def spentEntry : Edit → Option (OutPoint × Hash)
  | .spent outpoint txId => some (outpoint, txId)
  | _ => none

/-- The transfer of an address. -/
def transferAt (address : Address) : Edit → Option Transfer
  | .transfer address' u => if address' = address then some u else none
  | _ => none

theorem eq_of_transferAt {e : Edit} {address : Address} {u : Transfer}
    (h : e.transferAt address = some u) : e = .transfer address u := by
  cases e with
  | transfer address' u' =>
    by_cases heq : address' = address
    · rw [transferAt, if_pos heq] at h
      rw [heq, Option.some.inj h]
    · rw [transferAt, if_neg heq] at h
      cases h
  | _ => cases h

end Edit

/-- The values with one more, if there is one. -/
def consOption {α : Type} : Option α → Multiset α → Multiset α
  | none, s => s
  | some a, s => a ::ₘ s

theorem filterMap_cons_option {α β : Type} (f : α → Option β) (a : α) (s : Multiset α) :
    (a ::ₘ s).filterMap f = consOption (f a) (s.filterMap f) := by
  cases h : f a with
  | none => exact Multiset.filterMap_cons_none _ _ h
  | some b => exact Multiset.filterMap_cons_some _ _ _ h

/-- The transfers of an address among some updates. -/
def transfersAt (address : Address) (edits : Multiset Edit) : Multiset Transfer :=
  edits.filterMap (Edit.transferAt address)

/-- The change of the balance of an address. -/
def balanceOf (address : Address) (edits : Multiset Edit) : Int :=
  ((transfersAt address edits).map Transfer.delta).sum

/-- Every address balance is a valid amount. -/
def BalancesInRange (edits : Multiset Edit) : Prop :=
  ∀ address, -maxMoney ≤ balanceOf address edits ∧ balanceOf address edits ≤ maxMoney

/-- The address index holds some transfers: addresses without any have no
entry. -/
def AddressIndex.Records (m : Index Address TransparentTransfers) (edits : Multiset Edit) : Prop :=
  ∀ address, (transfersAt address edits = 0 ∧ m.lookup address = none) ∨
    (transfersAt address edits ≠ 0 ∧
      ∃ t, m.lookup address = some t ∧ t.Records (transfersAt address edits))

/-- The indexes hold exactly some updates. -/
@[mk_iff]
structure Indexed (i : Indexes) (edits : Multiset Edit) : Prop where
  nullifiers : ∀ pool, Holds (i.nullifiers pool) (edits.filterMap (Edit.nullifierEntry pool))
  transactions : Holds i.txLocByHash (edits.filterMap Edit.transactionEntry)
  created : Holds i.createdUtxos (edits.filterMap Edit.createdEntry)
  spent : Holds i.spentUtxos (edits.filterMap Edit.spentEntry)
  transfers : AddressIndex.Records i.partialTransparentTransfers edits
  complete : ∀ p, Edit.missing p ∉ edits

namespace AddressIndex.Records

variable {m : Index Address TransparentTransfers} {edits : Multiset Edit}
  {address address' : Address} {u : Transfer} {t : TransparentTransfers}

/-- An update that is no transfer. -/
theorem cons_other {e : Edit} (he : ∀ address, e.transferAt address = none) :
    Records m (e ::ₘ edits) ↔ Records m edits := by
  unfold Records transfersAt
  simp only [Multiset.filterMap_cons_none _ _ (he _)]

theorem transfersAt_cons :
    transfersAt address (.transfer address u ::ₘ edits) = u ::ₘ transfersAt address edits :=
  Multiset.filterMap_cons_some _ _ _ (if_pos rfl)

theorem transfersAt_cons_ne (h : address ≠ address') :
    transfersAt address' (.transfer address u ::ₘ edits) = transfersAt address' edits :=
  Multiset.filterMap_cons_none _ _ (if_neg h)

/-- The record under an address, or a new one. -/
theorem entry (h : Records m edits) (address : Address) :
    ((m.lookup address).getD .default).Records (transfersAt address edits) := by
  rcases h address with ⟨hzero, hnone⟩ | ⟨_, t, ht, hrecords⟩
  · rw [hzero, hnone]
    exact TransparentTransfers.Records.default
  · rw [ht]
    exact hrecords

/-- The entry of an address that has transfers. -/
theorem lookup_cons (h : Records m (.transfer address u ::ₘ edits)) :
    ∃ t, m.lookup address = some t ∧ t.Records (u ::ₘ transfersAt address edits) := by
  have hat := h address
  rw [transfersAt_cons] at hat
  rcases hat with ⟨hzero, _⟩ | ⟨_, hentry⟩
  · exact absurd hzero (Multiset.cons_ne_zero)
  · exact hentry

/-- The record of one address is replaced. -/
theorem insert (h : Records m edits) (ht : t.Records (u ::ₘ transfersAt address edits)) :
    Records (m.insert address t) (.transfer address u ::ₘ edits) := by
  intro address'
  by_cases hkey : address = address'
  · subst hkey
    rw [transfersAt_cons]
    exact .inr ⟨Multiset.cons_ne_zero, t, lookup_insert _, ht⟩
  · rw [transfersAt_cons_ne hkey, lookup_insert_of_ne _ (Ne.symm hkey)]
    exact h address'

/-- The record of one address is taken back, and dropped when nothing is
left of it. -/
theorem replace (h : Records m (.transfer address u ::ₘ edits))
    (ht : t.Records (transfersAt address edits)) :
    Records (if t.isEmpty then m.erase address else m.insert address t) edits := by
  intro address'
  by_cases hkey : address = address'
  · subst hkey
    by_cases hzero : transfersAt address edits = 0
    · rw [if_pos (ht.isEmpty_iff.mpr hzero)]
      exact .inl ⟨hzero, lookup_erase _ _⟩
    · rw [if_neg (fun hempty => hzero (ht.isEmpty_iff.mp hempty))]
      exact .inr ⟨hzero, t, lookup_insert _, ht⟩
  · have hother := h address'
    rw [transfersAt_cons_ne hkey] at hother
    split
    · rw [lookup_erase_ne (Ne.symm hkey)]
      exact hother
    · rw [lookup_insert_of_ne _ (Ne.symm hkey)]
      exact hother

end AddressIndex.Records

namespace Indexed

open AddressIndex.Records (cons_other)

variable {i i' : Indexes} {edits : Multiset Edit} {e : Edit}

theorem empty : Indexed Indexes.empty 0 where
  nullifiers := fun _ => Holds.empty
  transactions := Holds.empty
  created := Holds.empty
  spent := Holds.empty
  transfers := fun _ => .inl ⟨rfl, rfl⟩
  complete := fun _ => Multiset.notMem_zero _

/-- The indexes are determined by what they hold. -/
theorem unique (h : Indexed i edits) (h' : Indexed i' edits) : i = i' := by
  have hnullifiers : i.nullifiers = i'.nullifiers := by
    funext pool
    exact (h.nullifiers pool).unique (h'.nullifiers pool)
  have htransactions := h.transactions.unique h'.transactions
  have hcreated := h.created.unique h'.created
  have hspent := h.spent.unique h'.spent
  have htransfers : i.partialTransparentTransfers = i'.partialTransparentTransfers := by
    apply ext_lookup
    intro address
    rcases h.transfers address with ⟨hzero, hnone⟩ | ⟨hne, t, ht, hrecords⟩
    · rcases h'.transfers address with ⟨_, hnone'⟩ | ⟨hne, _⟩
      · rw [hnone, hnone']
      · exact absurd hzero hne
    · rcases h'.transfers address with ⟨hzero, _⟩ | ⟨_, t', ht', hrecords'⟩
      · exact absurd hzero hne
      · rw [ht, ht', hrecords.unique hrecords']
  cases i
  simp_all

/-- What an update adds, index by index. -/
theorem cons_iff : Indexed i (e ::ₘ edits) ↔
    (∀ pool, Holds (i.nullifiers pool)
      (consOption (e.nullifierEntry pool) (edits.filterMap (Edit.nullifierEntry pool)))) ∧
    Holds i.txLocByHash (consOption e.transactionEntry (edits.filterMap Edit.transactionEntry)) ∧
    Holds i.createdUtxos (consOption e.createdEntry (edits.filterMap Edit.createdEntry)) ∧
    Holds i.spentUtxos (consOption e.spentEntry (edits.filterMap Edit.spentEntry)) ∧
    AddressIndex.Records i.partialTransparentTransfers (e ::ₘ edits) ∧
    (∀ p, Edit.missing p ≠ e) ∧ ∀ p, Edit.missing p ∉ edits := by
  simp only [indexed_iff, filterMap_cons_option, Multiset.mem_cons, not_or, forall_and]

/-- Step lemma. -/
theorem apply (h : Indexed i edits) (he : i.apply e = .ok i') : Indexed i' (e ::ₘ edits) := by
  have hpresent : ∀ p, Edit.missing p ≠ e := by
    rintro p rfl
    cases he
  cases e with
  | nullifier pool nullifier txId =>
    obtain ⟨m, hm, he⟩ := of_bind he
    cases he
    refine cons_iff.mpr ⟨?_, h.transactions, h.created, h.spent,
      (cons_other fun _ => rfl).mpr h.transfers, hpresent, h.complete⟩
    intro pool'
    by_cases hpool : pool = pool'
    · subst hpool
      rw [Edit.nullifierEntry, if_pos rfl]
      simp only [Function.update_self]
      exact (h.nullifiers pool).insertNew hm
    · rw [Edit.nullifierEntry, if_neg hpool]
      simp only [Function.update_of_ne (Ne.symm hpool)]
      exact h.nullifiers pool'
  | transaction hash location =>
    obtain ⟨m, hm, he⟩ := of_bind he
    cases he
    exact cons_iff.mpr ⟨h.nullifiers, h.transactions.insertNew hm, h.created, h.spent,
      (cons_other fun _ => rfl).mpr h.transfers, hpresent, h.complete⟩
  | created outpoint utxo =>
    obtain ⟨m, hm, he⟩ := of_bind he
    cases he
    exact cons_iff.mpr ⟨h.nullifiers, h.transactions, h.created.insertNew hm, h.spent,
      (cons_other fun _ => rfl).mpr h.transfers, hpresent, h.complete⟩
  | spent outpoint txId =>
    obtain ⟨m, hm, he⟩ := of_bind he
    cases he
    exact cons_iff.mpr ⟨h.nullifiers, h.transactions, h.created, h.spent.insertNew hm,
      (cons_other fun _ => rfl).mpr h.transfers, hpresent, h.complete⟩
  | transfer address u =>
    obtain ⟨t, ht, he⟩ := of_mapErr_bind he
    cases he
    exact cons_iff.mpr ⟨h.nullifiers, h.transactions, h.created, h.spent,
      h.transfers.insert ((h.transfers.entry address).update ht), hpresent, h.complete⟩
  | missing p => cases he

/-- Step lemma: indexes that hold less accept what the indexes accept, if
the balances stay in range. -/
theorem apply_mono {j : Indexes} {less : Multiset Edit} (h : Indexed i edits)
    (h' : Indexed i' less) (hle : less ≤ edits)
    (hrange : BalancesInRange (e ::ₘ less)) (he : i.apply e = .ok j) :
    ∃ j', i'.apply e = .ok j' := by
  have hentries : ∀ {β : Type} (f : Edit → Option β), less.filterMap f ≤ edits.filterMap f :=
    fun f => Multiset.filterMap_le_filterMap f hle
  cases e with
  | nullifier pool nullifier txId =>
    obtain ⟨m, hm, _⟩ := of_bind he
    obtain ⟨m', hm'⟩ := (h.nullifiers pool).insertNew_mono (h'.nullifiers pool) (hentries _) hm
    exact ⟨_, by rw [Indexes.apply, hm', ok_bind]⟩
  | transaction hash location =>
    obtain ⟨m, hm, _⟩ := of_bind he
    obtain ⟨m', hm'⟩ := h.transactions.insertNew_mono h'.transactions (hentries _) hm
    exact ⟨_, by rw [Indexes.apply, hm', ok_bind]⟩
  | created outpoint utxo =>
    obtain ⟨m, hm, _⟩ := of_bind he
    obtain ⟨m', hm'⟩ := h.created.insertNew_mono h'.created (hentries _) hm
    exact ⟨_, by rw [Indexes.apply, hm', ok_bind]⟩
  | spent outpoint txId =>
    obtain ⟨m, hm, _⟩ := of_bind he
    obtain ⟨m', hm'⟩ := h.spent.insertNew_mono h'.spent (hentries _) hm
    exact ⟨_, by rw [Indexes.apply, hm', ok_bind]⟩
  | transfer address u =>
    obtain ⟨t, ht, _⟩ := of_mapErr_bind he
    have hbalance := hrange address
    unfold balanceOf at hbalance
    rw [AddressIndex.Records.transfersAt_cons] at hbalance
    obtain ⟨t', ht'⟩ := (h.transfers.entry address).update_mono (h'.transfers.entry address)
      (hentries _) hbalance ht
    exact ⟨_, by rw [Indexes.apply, ht', mapErr_ok, ok_bind]⟩
  | missing p => cases he

/-- Step lemma: an update is taken back if the balances stay in range. -/
theorem undo (h : Indexed i (e ::ₘ edits)) (hrange : BalancesInRange edits) :
    ∃ i', i.undo e = .ok i' ∧ Indexed i' edits := by
  obtain ⟨hnullifiers, htransactions, hcreated, hspent, htransfers, hpresent, hcomplete⟩ :=
    cons_iff.mp h
  cases e with
  | nullifier pool nullifier txId =>
    have hpool := hnullifiers pool
    rw [Edit.nullifierEntry, if_pos rfl] at hpool
    obtain ⟨m, hm, hpool⟩ := hpool.removePresent Panic.missingNullifier
    refine ⟨{ i with nullifiers := Function.update i.nullifiers pool m },
      by rw [Indexes.undo, hm]; rfl, ?_, htransactions, hcreated, hspent,
      (cons_other fun _ => rfl).mp htransfers, hcomplete⟩
    intro pool'
    by_cases hne : pool = pool'
    · subst hne
      simp only [Function.update_self]
      exact hpool
    · have hother := hnullifiers pool'
      rw [Edit.nullifierEntry, if_neg hne] at hother
      simp only [Function.update_of_ne (Ne.symm hne)]
      exact hother
  | transaction hash location =>
    obtain ⟨m, hm, htransactions⟩ := htransactions.removePresent Panic.missingTransaction
    exact ⟨{ i with txLocByHash := m }, by rw [Indexes.undo, hm]; rfl, hnullifiers, htransactions,
      hcreated, hspent, (cons_other fun _ => rfl).mp htransfers, hcomplete⟩
  | created outpoint utxo =>
    obtain ⟨m, hm, hcreated⟩ := hcreated.removePresent Panic.missingCreatedOutput
    exact ⟨{ i with createdUtxos := m }, by rw [Indexes.undo, hm]; rfl, hnullifiers, htransactions,
      hcreated, hspent, (cons_other fun _ => rfl).mp htransfers, hcomplete⟩
  | spent outpoint txId =>
    obtain ⟨m, hm, hspent⟩ := hspent.removePresent Panic.missingSpentOutpoint
    exact ⟨{ i with spentUtxos := m }, by rw [Indexes.undo, hm]; rfl, hnullifiers, htransactions,
      hcreated, hspent, (cons_other fun _ => rfl).mp htransfers, hcomplete⟩
  | transfer address u =>
    obtain ⟨t, hlookup, ht⟩ := htransfers.lookup_cons
    obtain ⟨t', hrevert, ht'⟩ := ht.revert (hrange address).1 (hrange address).2
    refine ⟨{ i with
      partialTransparentTransfers :=
        if t'.isEmpty then i.partialTransparentTransfers.erase address
        else i.partialTransparentTransfers.insert address t' }, ?_, hnullifiers,
      htransactions, hcreated, hspent, htransfers.replace ht', hcomplete⟩
    rw [Indexes.undo, hlookup, okOr_bind, hrevert]
    rfl
  | missing p => exact absurd rfl (hpresent p)

/-- Balances that are recorded are amounts. -/
theorem inRange (h : Indexed i edits) : BalancesInRange edits := by
  intro address
  have hbalance := (h.transfers.entry address).balance
  unfold balanceOf
  rw [← hbalance]
  exact ⟨Bounded.lo_le _, Bounded.le_hi _⟩

/-- An update is taken back exactly if the balances before it are amounts;
the only way to fail is the check of an address balance. -/
theorem undo_cases (h : Indexed i (e ::ₘ edits)) :
    (∃ i', i.undo e = .ok i' ∧ Indexed i' edits) ∨
      (i.undo e = .error .reversedBalanceOverflow ∧ ¬ BalancesInRange edits) := by
  by_cases hrange : BalancesInRange edits
  · exact .inl (h.undo hrange)
  · right
    refine ⟨?_, hrange⟩
    obtain ⟨address, hout⟩ := not_forall.mp hrange
    -- The balance was in range before, so the update is a transfer of this address.
    have hin := h.inRange address
    cases hat : e.transferAt address with
    | none =>
      unfold balanceOf transfersAt at hin
      rw [Multiset.filterMap_cons_none _ _ hat] at hin
      exact absurd hin hout
    | some u =>
      obtain rfl := Edit.eq_of_transferAt hat
      obtain ⟨t, hlookup, ht⟩ := h.transfers.lookup_cons
      rw [Indexes.undo, hlookup, okOr_bind, ht.revert_of_overflow hout]
      rfl

end Indexed

/-! ## Sequences of updates -/

/-- The updates of a block, one after the other. -/
def Indexes.applyAll (i : Indexes) (edits : List Edit) : Except Fault Indexes :=
  edits.foldlM Indexes.apply i

/-- The updates of a block, taken back one after the other. -/
def Indexes.undoAll (i : Indexes) (edits : List Edit) : Except Panic Indexes :=
  edits.foldlM Indexes.undo i

/-- No address balance leaves the range of amounts while `undone` are taken
back, first to last, from indexes that hold `kept` besides. -/
def ReversalInRange (undone : List Edit) (kept : Multiset Edit) : Prop :=
  ∀ rest, rest <:+ undone → BalancesInRange (rest + kept)

namespace Indexed

variable {i i' : Indexes} {kept : Multiset Edit} {edits : List Edit}

/-- Run lemma. -/
theorem applyAll (h : Indexed i kept) (happly : i.applyAll edits = .ok i') :
    Indexed i' (edits + kept) := by
  unfold Indexes.applyAll at happly
  induction edits generalizing i kept with
  | nil =>
    rw [foldlM_nil, pure_eq_ok] at happly
    rw [← happly, Multiset.coe_nil, zero_add]
    exact h
  | cons e rest ih =>
    rw [foldlM_cons, bind_eq_ok] at happly
    obtain ⟨mid, hmid, hrest⟩ := happly
    have hstep := ih (h.apply hmid) hrest
    rw [Multiset.add_cons] at hstep
    rw [← Multiset.cons_coe, Multiset.cons_add]
    exact hstep

/-- Run lemma: indexes that hold less. -/
theorem applyAll_mono {j : Indexes} {less : Multiset Edit} (h : Indexed i kept)
    (h' : Indexed i' less) (hle : less ≤ kept)
    (hrange : ∀ part : List Edit, part <+: edits → BalancesInRange (part + less))
    (happly : i.applyAll edits = .ok j) : ∃ j', i'.applyAll edits = .ok j' := by
  unfold Indexes.applyAll at happly ⊢
  induction edits generalizing i i' kept less with
  | nil => exact ⟨i', rfl⟩
  | cons e rest ih =>
    rw [foldlM_cons, bind_eq_ok] at happly
    obtain ⟨mid, hmid, hrest⟩ := happly
    obtain ⟨mid', hmid'⟩ := h.apply_mono h' hle (hrange [e] ⟨rest, rfl⟩) hmid
    obtain ⟨j', hj'⟩ := ih (h.apply hmid) (h'.apply hmid') (Multiset.cons_le_cons e hle) (by
      intro part hpart
      rw [Multiset.add_cons, ← Multiset.cons_add, Multiset.cons_coe]
      exact hrange (e :: part) ((prefix_cons_inj e).mpr hpart)) hrest
    exact ⟨j', by rw [foldlM_cons, hmid', ok_bind, hj']⟩

/-- Run lemma: the updates are taken back exactly if no balance leaves the
range of amounts on the way. -/
theorem undoAll_cases (h : Indexed i (edits + kept)) :
    (∃ i', i.undoAll edits = .ok i' ∧ Indexed i' kept ∧ ReversalInRange edits kept) ∨
      (i.undoAll edits = .error .reversedBalanceOverflow ∧ ¬ ReversalInRange edits kept) := by
  unfold Indexes.undoAll
  induction edits generalizing i with
  | nil =>
    left
    rw [Multiset.coe_nil, zero_add] at h
    refine ⟨i, rfl, h, ?_⟩
    intro rest hrest
    rw [suffix_nil.mp hrest, Multiset.coe_nil, zero_add]
    exact h.inRange
  | cons e rest ih =>
    have hrange := h.inRange
    rw [← Multiset.cons_coe, Multiset.cons_add] at h
    rw [foldlM_cons]
    rcases h.undo_cases with ⟨mid, hmid, hindexed⟩ | ⟨herror, hout⟩
    · rw [hmid, ok_bind]
      rcases ih hindexed with ⟨i', hi', hkept, hreversal⟩ | ⟨herror, hout⟩
      · left
        refine ⟨i', hi', hkept, ?_⟩
        intro rest' hrest'
        rcases suffix_cons_iff.mp hrest' with rfl | hsuffix
        · exact hrange
        · exact hreversal rest' hsuffix
      · right
        exact ⟨herror, fun hall => hout fun rest' hsuffix =>
          hall rest' (hsuffix.trans (suffix_cons e rest))⟩
    · right
      rw [herror]
      exact ⟨rfl, fun hall => hout (hall rest (suffix_cons e rest))⟩

end Indexed

end Wolf.NonFinalized
