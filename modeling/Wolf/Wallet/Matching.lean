import Mathlib.Data.List.Destutter
import Mathlib.Data.List.Sort
import Wolf.Framework.Bytes
import Wolf.Framework.Topological

/-! # Matching of signed transactions

Before the wallet hands out a signed transaction it compares the
outputs and inputs with those that were planned. Outputs are crossed
off a list one by one; inputs are sorted and compared.

* `matching_is_exact`: what the three checks accept. -/

namespace Wolf.Wallet

open List

/-! ## The checks -/

inductive TransferOutputRole where
  | payment
  | internalChange
  deriving DecidableEq

inductive ShieldedPool where
  | sapling
  | orchard
  | ironwood
  deriving DecidableEq

structure BoundIronwoodOutput where
  receiver : FixedBytes 43
  valueZat : Nat
  memo : Bytes
  role : TransferOutputRole
  pool : ShieldedPool
  deriving DecidableEq

/-- `ExpectedPaymentOutput`, over the addresses of the transparent pool. -/
inductive ExpectedPaymentOutput (Address : Type) where
  | ironwood (output : BoundIronwoodOutput)
  | transparentP2pkh (receiver : Address) (valueZat : Nat)

/-- A transparent output: its script and value. -/
abbrev TxOut : Type := Bytes × Nat

structure TransparentBundle (TxIn : Type) where
  vin : List TxIn
  vout : List TxOut

/-- The loop of both output checks: whether every output is found among
those that are `unmatched`, and none of them is left. -/
def crossOff {α : Type} [DecidableEq α] (unmatched : List α) : List α → Bool
  | [] => unmatched.isEmpty
  | output :: outputs =>
    match (unmatched.findIdx? (· = output)).bind (swapRemove unmatched) with
    | none => false
    | some (_, unmatched) => crossOff unmatched outputs

/-- The transparent payments that are expected. -/
def transparentPayments {Address : Type} (script : Address → Bytes)
    (expected : List (ExpectedPaymentOutput Address)) : List TxOut :=
  expected.filterMap fun
    | .transparentP2pkh receiver valueZat => some (script receiver, valueZat)
    | .ironwood _ => none

def transparentPaymentOutputsMatch {Address TxIn : Type} (script : Address → Bytes)
    (bundle : Option (TransparentBundle TxIn)) (expected : List (ExpectedPaymentOutput Address)) :
    Bool :=
  let unmatched := transparentPayments script expected
  match bundle with
  | none => unmatched.isEmpty
  | some bundle =>
    if ¬ bundle.vin.isEmpty ∨ bundle.vout.length ≠ unmatched.length then false
    else crossOff unmatched bundle.vout

def exactBoundOutputMultisetsMatch (expected actual : List BoundIronwoodOutput) : Bool :=
  if expected.length ≠ actual.length then false else crossOff expected actual

section

variable {Nullifier : Type} [LinearOrder Nullifier]

def sortUnstable (values : List Nullifier) : List Nullifier := values.insertionSort (· ≤ ·)

/-- The closure `unique_count`. -/
def uniqueCount (values : List Nullifier) : Nat :=
  ((sortUnstable values).destutter (· ≠ ·)).length

def ironwoodInputShapeMatches (expected known actual : List Nullifier) (expectedActionCount : Nat) :
    Bool :=
  actual.length = expectedActionCount ∧ uniqueCount expected = expected.length ∧
    uniqueCount known = known.length ∧ uniqueCount actual = actual.length ∧
    sortUnstable (actual.filter (· ∈ known)) = sortUnstable expected

/-! ## What they accept -/

/-- The recursion is on the outputs; what is left unmatched shrinks with
them. -/
theorem crossOff_iff {α : Type} [DecidableEq α] (unmatched outputs : List α) :
    crossOff unmatched outputs = true ↔ outputs.Perm unmatched := by
  induction outputs generalizing unmatched with
  | nil => rw [crossOff, List.isEmpty_iff, nil_perm]
  | cons output outputs ih =>
    unfold crossOff
    cases hfind : unmatched.findIdx? (· = output) with
    | none =>
      rw [findIdx?_eq_none_iff] at hfind
      have hnot : ¬ (output :: outputs).Perm unmatched := fun hperm =>
        absurd (hfind output (hperm.mem_iff.mp mem_cons_self)) (by simp)
      simp [hnot]
    | some position =>
      obtain ⟨hposition, houtput, -⟩ := findIdx?_eq_some_iff_getElem.mp hfind
      obtain ⟨rest, hremove, hperm⟩ := swapRemove_spec hposition
      rw [of_decide_eq_true houtput] at hperm
      rw [Option.bind_some, hremove]
      exact (ih rest).trans ((perm_cons output).symm.trans
        ⟨fun h => h.trans hperm.symm, fun h => h.trans hperm⟩)

theorem sortUnstable_eq_iff (a b : List Nullifier) :
    sortUnstable a = sortUnstable b ↔ a.Perm b := by
  constructor
  · intro h
    exact (perm_insertionSort _ a).symm.trans ((Perm.of_eq h).trans (perm_insertionSort _ b))
  · intro h
    exact (((perm_insertionSort _ a).trans h).trans (perm_insertionSort _ b).symm).eq_of_sortedLE
      sortedLE_insertionSort sortedLE_insertionSort

theorem uniqueCount_eq_iff (values : List Nullifier) :
    uniqueCount values = values.length ↔ values.Nodup := by
  have hperm : (sortUnstable values).Perm values := perm_insertionSort _ _
  have hsorted : (sortUnstable values).Pairwise (· ≤ ·) := pairwise_insertionSort _ _
  rw [uniqueCount, hsorted.destutter_eq_dedup, ← hperm.length_eq, ← hperm.nodup_iff,
    ← dedup_eq_self]
  exact ⟨(dedup_sublist _).eq_of_length, congrArg length⟩

/-- Outputs are compared as multisets. The inputs are pairwise different,
and those of the wallet are the expected ones. -/
theorem matching_is_exact :
    (∀ {Address TxIn : Type} (script : Address → Bytes) (bundle : Option (TransparentBundle TxIn))
      (expected : List (ExpectedPaymentOutput Address)),
      transparentPaymentOutputsMatch script bundle expected = true ↔
        bundle.elim [] (·.vin) = [] ∧
          (bundle.elim [] (·.vout)).Perm (transparentPayments script expected)) ∧
    (∀ expected actual, exactBoundOutputMultisetsMatch expected actual = true ↔
      actual.Perm expected) ∧
    ∀ (expected known actual : List Nullifier) (expectedActionCount : Nat),
      ironwoodInputShapeMatches expected known actual expectedActionCount = true ↔
        actual.length = expectedActionCount ∧ expected.Nodup ∧ known.Nodup ∧ actual.Nodup ∧
          ∀ nullifier, nullifier ∈ expected ↔ nullifier ∈ actual ∧ nullifier ∈ known := by
  refine ⟨fun script bundle expected => ?_, fun expected actual => ?_,
    fun expected known actual count => ?_⟩
  · cases bundle with
    | none => simp [transparentPaymentOutputsMatch, nil_perm]
    | some bundle =>
      dsimp only [transparentPaymentOutputsMatch, Option.elim_some]
      split_ifs with hshape
      · refine iff_of_false (by decide) fun ⟨hvin, hperm⟩ => ?_
        exact hshape.elim (fun h => h (List.isEmpty_iff.mpr hvin)) fun h => h hperm.length_eq
      · rw [not_or, not_not, List.isEmpty_iff] at hshape
        exact (crossOff_iff _ _).trans (and_iff_right hshape.1).symm
  · unfold exactBoundOutputMultisetsMatch
    split_ifs with hlength
    · exact iff_of_false (by decide) fun hperm => hlength hperm.length_eq.symm
    · exact crossOff_iff expected actual
  · simp only [ironwoodInputShapeMatches, uniqueCount_eq_iff, sortUnstable_eq_iff,
    decide_eq_true_eq]
    refine and_congr_right fun _ => and_congr_right fun hexpected => and_congr_right fun _ =>
      and_congr_right fun hactual => ?_
    rw [perm_ext_iff_of_nodup (hactual.filter _) hexpected]
    simp [iff_comm]

end

end Wolf.Wallet
