import Mathlib.Data.List.Basic

/-! # Maps in insertion order

`indexmap::IndexMap`: a map whose entries keep the order in which their
keys were first inserted. -/

namespace Wolf

open List

/-- The entries of a map, oldest key first. -/
abbrev IndexMap (K V : Type) : Type := List (K × V)

namespace IndexMap

variable {K V : Type} [DecidableEq K]

/-- `insert`: the value of a known key is replaced in its place. -/
def insert (k : K) (v : V) : IndexMap K V → IndexMap K V
  | [] => [(k, v)]
  | entry :: rest => if entry.1 = k then (k, v) :: rest else entry :: insert k v rest

/-- `get`. -/
def get? (k : K) (m : IndexMap K V) : Option V := (m.find? fun entry => entry.1 = k).map Prod.snd

def shiftRemove (k : K) (m : IndexMap K V) : IndexMap K V := m.filter fun entry => entry.1 ≠ k

/-- `shift_remove_index(0)` while the map has more than `limit` entries. -/
def limit (limit : Nat) (m : IndexMap K V) : IndexMap K V := m.drop (m.length - limit)

section Limit

omit [DecidableEq K]

variable {n : Nat} {m : IndexMap K V}

theorem limit_subset : m.limit n ⊆ m := drop_subset _ _

theorem limit_length : (m.limit n).length ≤ n := by
  unfold limit
  rw [length_drop]
  omega

/-- An entry with few entries after it is not evicted. -/
theorem limit_split (entry : K × V) (before after : IndexMap K V)
    (h : after.length < n) :
    ∃ before', limit n (before ++ entry :: after) = before' ++ entry :: after := by
  refine ⟨before.drop ((before ++ entry :: after).length - n), ?_⟩
  unfold limit
  rw [drop_append_of_le_length]
  rw [length_append, length_cons]
  omega

end Limit

variable {k : K} {v : V} {m : IndexMap K V} {entry : K × V}

theorem mem_shiftRemove : entry ∈ m.shiftRemove k ↔ entry ∈ m ∧ entry.1 ≠ k := by
  unfold shiftRemove
  simp

theorem get?_eq_none (h : ∀ entry ∈ m, entry.1 ≠ k) : m.get? k = none := by
  unfold get?
  simpa using h

theorem mem_insert (h : entry ∈ m.insert k v) : entry = (k, v) ∨ entry ∈ m := by
  induction m with
  | nil => exact .inl (mem_singleton.mp h)
  | cons e rest ih =>
    unfold insert at h
    split at h
    · exact (mem_cons.mp h).imp_right (mem_cons_of_mem _)
    · rcases mem_cons.mp h with rfl | h
      · exact .inr mem_cons_self
      · exact (ih h).imp_right (mem_cons_of_mem _)

theorem insert_length_le : (m.insert k v).length ≤ m.length + 1 := by
  induction m with
  | nil => exact Nat.le_refl _
  | cons entry rest ih =>
    unfold insert
    split
    · exact Nat.le_succ _
    · exact Nat.succ_le_succ ih

/-- Where an entry with another key stands after an insertion. -/
theorem insert_split (entry : K × V) (hne : entry.1 ≠ k) (before after : IndexMap K V) :
    ∃ before' after', insert k v (before ++ entry :: after) = before' ++ entry :: after' ∧
      after'.length ≤ after.length + 1 := by
  induction before with
  | nil =>
    refine ⟨[], insert k v after, ?_, insert_length_le⟩
    rw [nil_append, insert, if_neg hne]
    rfl
  | cons e before ih =>
    obtain ⟨before', after', heq, hle⟩ := ih
    by_cases hkey : e.1 = k
    · refine ⟨(k, v) :: before, after, ?_, Nat.le_succ _⟩
      rw [cons_append, insert, if_pos hkey]
      rfl
    · refine ⟨e :: before', after', ?_, hle⟩
      rw [cons_append, insert, if_neg hkey, heq]
      rfl

/-- A new key goes to the end. -/
theorem insert_of_absent (h : ∀ entry ∈ m, entry.1 ≠ k) : m.insert k v = m ++ [(k, v)] := by
  induction m with
  | nil => rfl
  | cons entry rest ih =>
    rw [insert, if_neg (h entry mem_cons_self),
      ih fun e he => h e (mem_cons_of_mem _ he)]
    rfl

end IndexMap

end Wolf
