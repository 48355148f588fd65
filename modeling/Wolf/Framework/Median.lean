import Mathlib.Data.List.Sort
import Mathlib.Order.Basic

/-! # Medians

The median of a list is the middle element of the sorted list, the
later one of two. It does not depend on the order of the list. -/

namespace Wolf

variable {α : Type} [LinearOrder α]

/-- The middle element of the sorted list. -/
def median (l : List α) : Option α := (l.insertionSort (· ≤ ·))[l.length / 2]?

theorem median_eq_some {l : List α} (hl : l ≠ []) : ∃ a, median l = some a := by
  have hpos : 0 < l.length := List.length_pos_iff.mpr hl
  have hlt : l.length / 2 < (l.insertionSort (· ≤ ·)).length := by
    rw [List.length_insertionSort]
    omega
  exact ⟨_, List.getElem?_eq_getElem hlt⟩

end Wolf
