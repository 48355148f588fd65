import Mathlib.Logic.Function.Basic
import Mathlib.Tactic.Common

/-! # Reference-counted cells

`Cells α` is a heap of `Arc<α>` values: what each cell holds and how
many references it has.

* `Handle`: a reference that was cloned or is new. Whoever owns its
  value after `unwrapOrClone` writes to a new cell (`Handle.unwrap`),
  whatever else refers to the old one. -/

namespace Wolf

structure Cells (α : Type) where
  value : Nat → α
  strong : Nat → Nat
  next : Nat

namespace Cells

variable {α : Type}

def clone (m : Cells α) (a : Nat) : Cells α :=
  { m with strong := Function.update m.strong a (m.strong a + 1) }

/-- A reference is dropped. -/
def release (m : Cells α) (a : Nat) : Cells α :=
  { m with strong := Function.update m.strong a (m.strong a - 1) }

/-- `Arc::new`, at the address `next`. -/
def alloc (m : Cells α) (v : α) : Cells α where
  value := Function.update m.value m.next v
  strong := Function.update m.strong m.next 1
  next := m.next + 1

/-- The owner of a cell writes to it. -/
def store (m : Cells α) (a : Nat) (v : α) : Cells α :=
  { m with value := Function.update m.value a v }

/-- `Arc::unwrap_or_clone`: the address of the value that is owned now. -/
def unwrapOrClone (m : Cells α) (a : Nat) : Nat × Cells α :=
  if m.strong a = 1 then (a, m) else (m.next, (m.release a).alloc (m.value a))

/-- The cells that are in use in `m` are the same in `m'`. -/
def Same (m m' : Cells α) : Prop :=
  ∀ a < m.next, m'.value a = m.value a ∧ m'.strong a = m.strong a

/-- A reference to a value on top of those in `m`. -/
structure Handle (m : Cells α) (v : α) (a : Nat) (m' : Cells α) : Prop where
  value : m'.value a = v
  unwrap : m'.unwrapOrClone a = (m.next, m.alloc v)
  release : m.Same (m'.release a)

variable {m : Cells α}

/-- A cell that is written to and dropped again leaves no trace. -/
theorem same_of_alloc (v w : α) : m.Same (((m.alloc v).store m.next w).release m.next) := by
  intro a ha
  have hne : a ≠ m.next := Nat.ne_of_lt ha
  simp [release, store, alloc, Function.update_of_ne hne]

theorem Handle.clone {a : Nat} (h : 0 < m.strong a) : Handle m (m.value a) a (m.clone a) where
  value := rfl
  unwrap := by
    -- The clone is a second reference, and dropping it gives `m` back.
    have hshared : (m.clone a).strong a ≠ 1 := by
      simp only [Cells.clone, Function.update_self]
      omega
    have hback : (m.clone a).release a = m := by
      simp [Cells.clone, Cells.release]
    rw [unwrapOrClone, if_neg hshared, hback]
    rfl
  release := by
    intro b _
    simp [Cells.clone, Cells.release]

theorem Handle.alloc (v : α) : Handle m v m.next (m.alloc v) where
  value := by simp [Cells.alloc]
  unwrap := by
    have hunique : (m.alloc v).strong m.next = 1 := by simp [Cells.alloc]
    rw [unwrapOrClone, if_pos hunique]
  release := by
    intro a ha
    have hne : a ≠ m.next := Nat.ne_of_lt ha
    simp [Cells.alloc, Cells.release, Function.update_of_ne hne]

theorem store_alloc (v w : α) : (m.alloc v).store m.next w = m.alloc w := by
  simp [store, alloc]

end Cells

end Wolf
