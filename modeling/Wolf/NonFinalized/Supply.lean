import Wolf.NonFinalized.Contains

/-! # Address balances and the supply

A chain counts the balance of an address from its own root, so the
balance is what the address holds less what it held below the root. That
is always an amount: nobody holds less than nothing or more than all
that was issued.

The balances that an update passes through on its way are another
matter. A transaction takes its inputs before it pays its outputs, but
`update_chain_tip_with` and `revert_chain_with` go through the outputs
first, and a removed block is gone through in block order once more. So
they pass through balances that nobody ever has. What they are off by is
bounded by the supply, which is far below `MAX_MONEY`.

* `WithinSupply`: the addresses hold amounts up to the supply, along
  some blocks.
* `WithinSupply.updates`, `WithinSupply.reverts`: then no balance leaves
  the range of amounts when blocks are added and removed. -/

namespace Wolf.NonFinalized

open Ledger List

/-! ## Sums along a list -/

/-- The sums along a list are between two bounds. -/
def SumsWithin (lo hi : Int) (l : List Int) : Prop :=
  ∀ p, p <+: l → lo ≤ p.sum ∧ p.sum ≤ hi

namespace SumsWithin

variable {lo hi : Int} {l p : List Int}

/-- A part of the list adds at most the distance of the bounds. -/
theorem stretch (h : SumsWithin lo hi l) (hpart : p <:+: l) :
    lo - hi ≤ p.sum ∧ p.sum ≤ hi - lo := by
  obtain ⟨before, after, rfl⟩ := hpart
  have hbefore := h before (by rw [append_assoc]; exact prefix_append _ _)
  have hboth := h (before ++ p) (prefix_append _ _)
  rw [sum_append] at hboth
  omega

/-- Each item of a list adds two lists. If they are added the other way
around, the sums along the list leave the bounds by at most their
distance. -/
theorem swap {α : Type} {xs : List α} {f g : α → List Int}
    (h : SumsWithin lo hi (xs.flatMap fun x => f x ++ g x)) :
    SumsWithin (lo - (hi - lo)) (hi + (hi - lo)) (xs.flatMap fun x => g x ++ f x) := by
  induction xs generalizing lo hi with
  | nil =>
    intro p hp
    have := h p hp
    omega
  | cons x xs ih =>
    rw [flatMap_cons, append_assoc] at h
    -- The sums in the first item, in the order in which they are bounded.
    have hfirst : ∀ p, p <+: f x → lo ≤ p.sum ∧ p.sum ≤ hi := fun p hp =>
      h p (hp.trans (prefix_append _ _))
    have hsecond : ∀ p, p <+: g x → lo ≤ (f x).sum + p.sum ∧ (f x).sum + p.sum ≤ hi := by
      intro p hp
      rw [← sum_append]
      exact h _ ((prefix_append_right_inj _).mpr (hp.trans (prefix_append _ _)))
    have hzero : lo ≤ 0 ∧ 0 ≤ hi := hfirst [] nil_prefix
    have hall := hfirst _ (prefix_refl _)
    have hboth := hsecond _ (prefix_refl _)
    rintro p ⟨rest, hp⟩
    rw [flatMap_cons] at hp
    rcases append_eq_append_iff.mp hp with ⟨after, hitem, _⟩ | ⟨p', rfl, hrest⟩
    · rcases append_eq_append_iff.mp hitem with ⟨p', rfl, hf⟩ | ⟨tail, hg, _⟩
      · have := hfirst p' ⟨after, hf.symm⟩
        rw [sum_append]
        omega
      · have := hsecond p ⟨tail, hg.symm⟩
        omega
    · -- The item is complete, and both orders have the same sum.
      have hlater : SumsWithin (lo - ((f x).sum + (g x).sum)) (hi - ((f x).sum + (g x).sum))
          (xs.flatMap fun x => f x ++ g x) := by
        intro q hq
        have := h (f x ++ (g x ++ q)) (by
          rw [prefix_append_right_inj, prefix_append_right_inj]
          exact hq)
        simp only [sum_append] at this
        omega
      have := ih hlater p' ⟨rest, hrest.symm⟩
      simp only [sum_append]
      omega

end SumsWithin

/-! ## What addresses hold -/

/-- More than all that is ever issued. -/
def supply : Int := 10 ^ 17

/-- What an update adds to the balance of an address. -/
def Edit.deltaAt (address : Address) (e : Edit) : Option Int :=
  (e.transferAt address).map Transfer.delta

def deltas (address : Address) (edits : List Edit) : List Int :=
  edits.filterMap (Edit.deltaAt address)

/-- The updates of the address index in the order in which value moves: a
transaction takes its inputs, and then pays its outputs. -/
def ContextuallyVerifiedBlock.moves (address : Output → Option Address)
    (b : ContextuallyVerifiedBlock) : List Edit :=
  b.block.transactions.flatMap fun tx => b.inputEdits address tx ++ b.outputEdits address tx

variable {H : Type}

/-- Along some blocks, every address holds an amount up to the supply.
`held` is what it holds below the blocks. -/
def WithinSupply (rules : Rules H) (bs : List ContextuallyVerifiedBlock) : Prop :=
  ∀ address, ∃ held : Nat, ∀ moved,
    moved <+: deltas address (bs.flatMap fun b => b.moves rules.address) →
      0 ≤ held + moved.sum ∧ held + moved.sum ≤ supply

variable {rules : Rules H} {address : Address} {edits part : List Edit}
  {b : ContextuallyVerifiedBlock} {bs below kept : List ContextuallyVerifiedBlock}

theorem balanceOf_eq : balanceOf address edits = (deltas address edits).sum := by
  rw [balanceOf, transfersAt, Multiset.filterMap_coe, Multiset.map_coe, Multiset.sum_coe,
    map_filterMap]
  rfl

theorem balanceOf_add (edits edits' : Multiset Edit) :
    balanceOf address (edits + edits') = balanceOf address edits + balanceOf address edits' := by
  rw [balanceOf, transfersAt, Multiset.filterMap_add, Multiset.map_add, Multiset.sum_add]
  rfl

theorem deltas_flatMap {α : Type} (xs : List α) (f : α → List Edit) :
    deltas address (xs.flatMap f) = xs.flatMap fun x => deltas address (f x) :=
  filterMap_flatMap

@[simp] theorem deltas_append (edits edits' : List Edit) :
    deltas address (edits ++ edits') = deltas address edits ++ deltas address edits' :=
  filterMap_append

@[simp] theorem deltas_transaction (hash : Hash) (location : TransactionLocation) :
    deltas address (.transaction hash location :: edits) = deltas address edits :=
  filterMap_cons_none rfl

@[simp] theorem deltas_nullifierEdits (tx : Transaction) :
    deltas address (ContextuallyVerifiedBlock.nullifierEdits tx) = [] := by
  unfold ContextuallyVerifiedBlock.nullifierEdits deltas
  rw [filterMap_flatMap, flatMap_eq_nil_iff]
  intro pool _
  rw [filterMap_map, filterMap_eq_nil_iff]
  exact fun _ _ => rfl

/-- What a block adds to the balance of an address, one by one. Blocks are
added and removed in the same order, outputs first. -/
def ContextuallyVerifiedBlock.deltas (address : Output → Option Address) (a : Address)
    (b : ContextuallyVerifiedBlock) : List Int :=
  b.block.transactions.flatMap fun tx =>
    NonFinalized.deltas a (b.outputEdits address tx) ++
      NonFinalized.deltas a (b.inputEdits address tx)

theorem deltas_zipIdx {txs : List Transaction} {f : Transaction → Nat → List Edit}
    {g : Transaction → List Int} (hf : ∀ tx index, deltas address (f tx index) = g tx) :
    deltas address (txs.zipIdx.flatMap fun item => f item.1 item.2) = txs.flatMap g := by
  rw [deltas_flatMap]
  simp only [hf]
  conv_rhs => rw [← zipIdx_map_fst 0 txs, flatMap_map]

theorem deltas_updateEdits :
    deltas address (b.updateEdits rules.address) = b.deltas rules.address address :=
  deltas_zipIdx fun tx index => by simp [ContextuallyVerifiedBlock.updateEditsOf]

theorem deltas_revertEdits :
    deltas address (b.revertEdits rules.address) = b.deltas rules.address address :=
  deltas_zipIdx fun tx index => by simp [ContextuallyVerifiedBlock.revertEditsOf]

theorem balanceOf_editsOf :
    balanceOf address (editsOf rules bs) =
      (bs.flatMap fun b => b.deltas rules.address address).sum := by
  induction bs with
  | nil => rfl
  | cons b bs ih =>
    rw [flatMap_cons, sum_append, ← ih, ← deltas_updateEdits, ← balanceOf_eq, ← balanceOf_add]
    rfl

namespace WithinSupply

/-- A part of what the blocks add to a balance is small. -/
theorem part_le (h : WithinSupply rules bs) {l : List Int}
    (hpart : l <:+: bs.flatMap fun b => b.deltas rules.address address) :
    -(3 * supply) ≤ l.sum ∧ l.sum ≤ 3 * supply := by
  obtain ⟨held, hheld⟩ := h address
  have hmoves : SumsWithin (-held) (supply - held)
      ((bs.flatMap fun b => b.block.transactions.map fun tx => (b, tx)).flatMap fun item =>
        deltas address (item.1.inputEdits rules.address item.2) ++
          deltas address (item.1.outputEdits rules.address item.2)) := by
    intro p hp
    rw [flatMap_assoc] at hp
    simp only [flatMap_map, ← deltas_append, ← deltas_flatMap] at hp
    have := hheld p hp
    omega
  have hswap := hmoves.swap.stretch (p := l) (by
    rw [flatMap_assoc]
    simp only [flatMap_map]
    exact hpart)
  omega

/-- No balance leaves the range when a block is added. -/
theorem updates (h : WithinSupply rules bs) (hblocks : below ++ [b] <:+: bs)
    (hpart : part <+: b.updateEdits rules.address) :
    BalancesInRange (part + editsOf rules below) := by
  intro address
  have hdeltas := hblocks.flatMap fun b => b.deltas rules.address address
  rw [flatMap_append, flatMap_singleton, ← deltas_updateEdits] at hdeltas
  have hle := h.part_le (l := _ ++ deltas address part)
    (((prefix_append_right_inj _).mpr (hpart.filterMap _)).isInfix.trans hdeltas)
  rw [sum_append] at hle
  rw [balanceOf_add, balanceOf_editsOf, balanceOf_eq]
  have hmax : 3 * supply ≤ maxMoney := by decide
  omega

/-- No balance leaves the range when a block is removed. -/
theorem reverts (h : WithinSupply rules bs) (hb : [b] <:+: bs) (hkept : kept <:+: bs) :
    Reverts rules b kept := by
  intro rest hrest address
  have hdeltas := hb.flatMap fun b => b.deltas rules.address address
  rw [flatMap_singleton, ← deltas_revertEdits] at hdeltas
  have hrest := h.part_le (l := deltas address rest) ((hrest.filterMap _).isInfix.trans hdeltas)
  have hkept := h.part_le (hkept.flatMap fun b => b.deltas rules.address address)
  rw [balanceOf_add, balanceOf_editsOf, balanceOf_eq]
  have hmax : 6 * supply ≤ maxMoney := by decide
  omega

theorem reverts_tip (h : WithinSupply rules bs) (hblocks : kept ++ [b] <:+: bs) :
    Reverts rules b kept :=
  h.reverts ((suffix_append _ _).isInfix.trans hblocks) ((prefix_append _ _).isInfix.trans hblocks)

theorem reverts_root (h : WithinSupply rules bs) (hblocks : b :: kept <:+: bs) :
    Reverts rules b kept :=
  h.reverts ((prefix_append [b] kept).isInfix.trans hblocks)
    ((suffix_cons b kept).isInfix.trans hblocks)

end WithinSupply

/-- A chain of fewer blocks accepts a block that the chain accepts. -/
theorem Chain.Contains.updateExceptTrees_mono {c c' d : Chain H}
    {gone all : List ContextuallyVerifiedBlock} (h : c.Contains rules (gone ++ bs))
    (h' : d.Contains rules bs) (hpools : d.chainValuePools = c.chainValuePools)
    (hsupply : WithinSupply rules all) (hblocks : bs ++ [b] <:+: all)
    (hc : c.updateExceptTrees rules b = .ok c') : ∃ d', d.updateExceptTrees rules b = .ok d' := by
  obtain ⟨hashes, hhashes, hc⟩ := of_bind hc
  obtain ⟨work, hwork, hc⟩ := of_bind hc
  obtain ⟨indexes, hindexes, hc⟩ := of_bind hc
  obtain ⟨pools, hadd, _⟩ := of_mapErr_bind hc
  obtain ⟨hashes', hhashes'⟩ := h.hashes.insertNew_mono h'.hashes (by
    unfold hashesOf
    rw [map_append, ← Multiset.coe_add]
    exact Multiset.le_add_left _ _) hhashes
  obtain ⟨hlt, _⟩ := of_rejectIf_bind hwork
  have hwork' : Chain.addWork d.partialCumulativeWork b.block.work =
      .ok (d.partialCumulativeWork + b.block.work) := by
    apply rejectIf_bind
    rw [h.work, workOf, map_append, sum_append] at hlt
    rw [h'.work, workOf]
    omega
  obtain ⟨indexes', hindexes'⟩ := h.indexes.applyAll_mono h'.indexes (by
    unfold editsOf
    rw [map_append, sum_append]
    exact Multiset.le_add_left _ _)
    (fun part hpart => hsupply.updates hblocks hpart) hindexes
  rw [← hpools] at hadd
  exact ⟨_, bind_eq_ok.mpr ⟨_, hhashes', bind_eq_ok.mpr ⟨_, hwork', bind_eq_ok.mpr ⟨_, hindexes',
    bind_eq_ok.mpr ⟨_, mapErr_eq_ok.mpr hadd, rfl⟩⟩⟩⟩⟩

/-! ## Little traffic -/

/-- The value that an update moves. -/
def Edit.traffic : Edit → Nat
  | .transfer _ u => u.delta.natAbs
  | _ => 0

/-- The balance of an address changes by at most the traffic. -/
theorem sum_le_traffic {moved : List Int} (h : moved <+: deltas address edits) :
    moved.sum.natAbs ≤ (edits.map Edit.traffic).sum := by
  induction edits generalizing moved with
  | nil => simp [prefix_nil.mp h]
  | cons e edits ih =>
    rw [map_cons, sum_cons]
    cases hat : e.deltaAt address with
    | none =>
      unfold deltas at h
      rw [filterMap_cons_none hat] at h
      exact (ih h).trans (Nat.le_add_left _ _)
    | some delta =>
      unfold deltas at h
      rw [filterMap_cons_some hat] at h
      rcases prefix_cons_iff.mp h with rfl | ⟨moved, rfl, hmoved⟩
      · exact Nat.zero_le _
      · have hlater := ih hmoved
        have hdelta : e.traffic = delta.natAbs := by
          obtain ⟨u, hu, rfl⟩ := Option.map_eq_some_iff.mp hat
          rw [Edit.eq_of_transferAt hu]
          rfl
        rw [sum_cons]
        omega

/-- Blocks that move little value are within the supply. -/
theorem withinSupply_of_traffic
    (h : 2 * ((bs.flatMap fun b => b.moves rules.address).map Edit.traffic).sum ≤ supply) :
    WithinSupply rules bs := by
  intro address
  refine ⟨((bs.flatMap fun b => b.moves rules.address).map Edit.traffic).sum, ?_⟩
  intro moved hmoved
  have := sum_le_traffic hmoved
  omega

end Wolf.NonFinalized
