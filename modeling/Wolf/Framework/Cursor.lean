import Mathlib.Data.List.Basic
import Mathlib.Order.Basic
import Mathlib.Tactic.Common

/-! # Cursors over an ascending list

A scanner that keeps no list remembers the last element it returned and
asks for the next one of a higher rank. -/

namespace Wolf.Cursor

open List

variable {α : Type} (rank : α → Nat)

/-- The least rank that a cursor still has to see. -/
def resume : Option α → Nat
  | none => 0
  | some last => rank last + 1

/-- The cursor that has seen `p` elements of the list. -/
def seen (l : List α) : Nat → Option α
  | 0 => none
  | p + 1 => l[p]?

variable {rank} {l : List α} {p : Nat}

/-- A cursor that has seen `p` elements still has to see the others. -/
theorem filter_resume (hl : l.Pairwise fun a b => rank a < rank b) (hp : p ≤ l.length) :
    l.filter (fun a => resume rank (seen l p) ≤ rank a) = l.drop p := by
  cases p with
  | zero =>
    rw [drop_zero, filter_eq_self]
    intro a _
    exact decide_eq_true (Nat.zero_le _)
  | succ p =>
    have hlast : l[p]? = some l[p] := List.getElem?_eq_getElem hp
    have hsplit : l.take (p + 1) ++ l.drop (p + 1) = l := take_append_drop _ _
    -- The elements up to the last one seen have no higher rank, the others do.
    have hpair := pairwise_append.mp (hsplit.symm ▸ hl)
    have hmem : l[p] ∈ l.take (p + 1) := by
      rw [take_succ_eq_append_getElem hp]
      exact mem_append_right _ mem_cons_self
    have hbelow : ∀ a ∈ l.take (p + 1), rank a ≤ rank l[p] := by
      intro a ha
      rw [take_succ_eq_append_getElem hp] at ha hpair
      rcases mem_append.mp ha with ha | ha
      · exact Nat.le_of_lt ((pairwise_append.mp hpair.1).2.2 a ha _ mem_cons_self)
      · exact Nat.le_of_eq (congrArg rank (mem_singleton.mp ha))
    show l.filter (fun a => resume rank l[p]? ≤ rank a) = _
    rw [hlast]
    generalize l[p] = last at hmem hbelow
    calc l.filter (fun a => resume rank (some last) ≤ rank a)
        = (l.take (p + 1) ++ l.drop (p + 1)).filter (fun a => rank last + 1 ≤ rank a) := by
          rw [hsplit]
          rfl
      _ = [] ++ l.drop (p + 1) := by
          rw [filter_append, filter_eq_nil_iff.mpr, filter_eq_self.mpr]
          · intro a ha
            exact decide_eq_true (hpair.2.2 _ hmem a ha)
          · intro a ha hlt
            exact absurd (hbelow a ha) (Nat.not_le.mpr (of_decide_eq_true hlt))
      _ = l.drop (p + 1) := nil_append _

/-- The element that a cursor sees next. -/
theorem find_resume (hl : l.Pairwise fun a b => rank a < rank b) (hp : p ≤ l.length) :
    (l.filter (fun a => resume rank (seen l p) ≤ rank a)).head? = l[p]? := by
  rw [filter_resume hl hp, List.head?_drop]

/-! ## Starting over -/

/-- The position of a cursor after one more turn: the next one, or the
start when it has seen all `n` elements. -/
def cyclePos (n p : Nat) : Nat := if p < n then p + 1 else 0

theorem cyclePos_mod (n r : Nat) : cyclePos n (r % (n + 1)) = (r + 1) % (n + 1) := by
  have hlt : r % (n + 1) < n + 1 := Nat.mod_lt _ (Nat.succ_pos n)
  unfold cyclePos
  by_cases hend : r % (n + 1) < n
  · have hsplit : r + 1 = (n + 1) * (r / (n + 1)) + (r % (n + 1) + 1) := by
      have := Nat.div_add_mod r (n + 1)
      omega
    have hmod : (r % (n + 1) + 1) % (n + 1) = r % (n + 1) + 1 := Nat.mod_eq_of_lt (by omega)
    rw [if_pos hend, ← hmod, hsplit, Nat.mul_add_mod]
  · have hsplit : r + 1 = (n + 1) * (r / (n + 1) + 1) := by
      have := Nat.div_add_mod r (n + 1)
      rw [Nat.mul_add]
      omega
    rw [if_neg hend, hsplit, Nat.mul_mod_right]

/-- Each window of `n + 1` turns passes every position. -/
theorem exists_visit (n i : Nat) (hp : p ≤ n) : ∃ r, i ≤ r ∧ r < i + (n + 1) ∧ r % (n + 1) = p := by
  have hlt : i % (n + 1) < n + 1 := Nat.mod_lt _ (Nat.succ_pos n)
  have hdiv := Nat.div_add_mod i (n + 1)
  by_cases hle : i % (n + 1) ≤ p
  · refine ⟨(n + 1) * (i / (n + 1)) + p, by omega, by omega, ?_⟩
    rw [Nat.mul_add_mod, Nat.mod_eq_of_lt (by omega)]
  · refine ⟨(n + 1) * (i / (n + 1) + 1) + p, ?_, ?_, ?_⟩
    · rw [Nat.mul_add]
      omega
    · rw [Nat.mul_add]
      omega
    · rw [Nat.mul_add_mod, Nat.mod_eq_of_lt (by omega)]

end Wolf.Cursor
