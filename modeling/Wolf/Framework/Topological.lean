import Mathlib.Data.List.Perm.Basic

/-! # Lists in dependency order

Such a list grows at its end. -/

namespace Wolf

open List

variable {α : Type}

/-- Everything that an element depends on stands before it. -/
def DependenciesFirst (depends : α → α → Prop) (l : List α) : Prop :=
  ∀ before a after, l = before ++ a :: after → ∀ b, depends a b → b ∈ before

namespace DependenciesFirst

variable {depends : α → α → Prop} {l : List α} {a : α}

theorem nil : DependenciesFirst depends [] := by
  intro before a after h
  simp at h

/-- An element is added after everything it depends on. -/
theorem snoc (h : DependenciesFirst depends l) (ha : ∀ b, depends a b → b ∈ l) :
    DependenciesFirst depends (l ++ [a]) := by
  intro before x after heq b hb
  rcases eq_nil_or_concat after with rfl | ⟨after, last, rfl⟩
  · -- `x` is the new element.
    obtain ⟨rfl, hx⟩ := append_inj' heq rfl
    rw [singleton_inj] at hx
    exact ha b (hx ▸ hb)
  · have hsplit : l ++ [a] = (before ++ x :: after) ++ [last] := by
      rw [heq]
      simp
    obtain ⟨hl, _⟩ := append_inj' hsplit rfl
    exact h before x after hl b hb

end DependenciesFirst

/-- `Vec::swap_remove`: the element at a position, and the list in which the
last element has taken its place. -/
def swapRemove (l : List α) (position : Nat) : Option (α × List α) :=
  match l[position]?, l.getLast? with
  | some a, some last => some (a, (l.set position last).dropLast)
  | _, _ => none

theorem swapRemove_spec {l : List α} {position : Nat} (h : position < l.length) :
    ∃ rest, swapRemove l position = some (l[position], rest) ∧ l.Perm (l[position] :: rest) := by
  obtain ⟨before, a, after, rfl, hlength⟩ :
      ∃ before a after, l = before ++ a :: after ∧ before.length = position := by
    refine ⟨l.take position, l[position], l.drop (position + 1), ?_, ?_⟩
    · rw [getElem_cons_drop, take_append_drop]
    · rw [length_take]
      omega
  subst hlength
  rw [getElem_of_append rfl rfl]
  unfold swapRemove
  rcases eq_nil_or_concat after with rfl | ⟨after, last, rfl⟩
  · refine ⟨before, by simp, ?_⟩
    exact perm_append_singleton a before
  · refine ⟨before ++ last :: after, ?_, ?_⟩
    · have hassoc : ∀ x, before ++ x :: after.concat last = (before ++ x :: after) ++ [last] := by
        intro x
        simp
      have hget : (before ++ a :: after.concat last)[before.length]? = some a := by simp
      have hlast : (before ++ a :: after.concat last).getLast? = some last := by
        rw [hassoc, List.getLast?_append]
        rfl
      have hset : (before ++ a :: after.concat last).set before.length last =
          before ++ last :: after.concat last := by simp
      rw [hget, hlast]
      show some (a, ((before ++ a :: after.concat last).set before.length last).dropLast) = _
      rw [hset, hassoc last, dropLast_concat]
    · rw [concat_eq_append]
      refine perm_middle.trans (List.Perm.cons a ?_)
      rw [← append_assoc]
      refine (perm_append_singleton last (before ++ after)).trans ?_
      exact perm_middle.symm

end Wolf
