import Wolf.Framework.Result
import Mathlib.Data.List.AList

/-! # Methods on mutable state

A method that takes `&mut self` and returns a `Result` is a function
`EStateM ε σ α`: it ends in `ok` or in `error`, and in both cases with
the state it left behind. What a failed method did to the state is
therefore part of the model.

* `bind_ok` / `bind_err` invert a sequence of calls. -/

namespace Wolf

variable {ε σ τ α β : Type}

/-- `HashMap<K, V>`. Nothing depends on the order of the entries. -/
abbrev HashMap (K V : Type) : Type := AList (fun _ : K => V)

section

variable {K V : Type} [DecidableEq K] {map : HashMap K V} {key other : K} {value found : V}

/-- What is found after an insertion was inserted or was there before. -/
theorem lookup_insert_some (h : (map.insert key value).lookup other = some found) :
    other = key ∧ value = found ∨ map.lookup other = some found := by
  by_cases hkey : other = key
  · rw [hkey, AList.lookup_insert] at h
    exact .inl ⟨hkey, Option.some.inj h⟩
  · exact .inr ((AList.lookup_insert_ne hkey).symm.trans h)

/-- A new key hides nothing. -/
theorem lookup_insert_of_new (hnew : map.lookup key = none) (h : map.lookup other = some found) :
    (map.insert key value).lookup other = some found := by
  have hkey : other ≠ key := by
    intro heq
    rw [heq, hnew] at h
    cases h
  exact (AList.lookup_insert_ne hkey).trans h

end

/-- An association list without repeated keys. -/
theorem lookup_eq_some_iff_mem {α β : Type} [BEq α] [LawfulBEq α] {fields : List (α × β)}
    (hnodup : (fields.map Prod.fst).Nodup) {key : α} {value : β} :
    fields.lookup key = some value ↔ (key, value) ∈ fields := by
  induction fields with
  | nil => simp
  | cons entry rest ih =>
    obtain ⟨other, first⟩ := entry
    rw [List.map_cons, List.nodup_cons] at hnodup
    rw [List.lookup_cons, List.mem_cons]
    rcases Classical.em (key = other) with hkey | hkey
    · subst hkey
      have hrest : (key, value) ∉ rest := by
        intro hmem
        exact hnodup.1 (List.mem_map.mpr ⟨(key, value), hmem, rfl⟩)
      simp [hrest, eq_comm]
    · simp [beq_false_of_ne hkey, hkey, ih hnodup.2]

namespace Exec

variable {f : α → EStateM ε σ β} {x : EStateM ε σ α} {e : ε} {write : τ → σ → σ} {read : σ → τ}
  {a : α}

theorem bind_ok {s s'' : σ} {b : β} :
    (x >>= f) s = .ok b s'' ↔ ∃ a s', x s = .ok a s' ∧ f a s' = .ok b s'' := by
  show EStateM.bind x f s = .ok b s'' ↔ _
  unfold EStateM.bind
  cases x s with
  | ok a s' => simp
  | error e s' => simp

theorem bind_err {s s'' : σ} :
    (x >>= f) s = .error e s'' ↔
      x s = .error e s'' ∨ ∃ a s', x s = .ok a s' ∧ f a s' = .error e s'' := by
  show EStateM.bind x f s = .error e s'' ↔ _
  unfold EStateM.bind
  cases x s with
  | ok a s' => simp
  | error e s' => simp

/-- Running a sequence whose first call is known. -/
theorem bind_of_ok {s s' : σ} (h : x s = .ok a s') : (x >>= f) s = f a s' := by
  show EStateM.bind x f s = f a s'
  unfold EStateM.bind
  rw [h]

theorem bind_of_err {s s' : σ} (h : x s = .error e s') : (x >>= f) s = .error e s' := by
  show EStateM.bind x f s = .error e s'
  unfold EStateM.bind
  rw [h]

@[simp] theorem get_bind_run (f : σ → EStateM ε σ β) (s : σ) :
    ((get : EStateM ε σ σ) >>= f) s = f s s := rfl

@[simp] theorem modify_bind_run (g : σ → σ) (f : PUnit → EStateM ε σ β) (s : σ) :
    ((modify g : EStateM ε σ PUnit) >>= f) s = f ⟨⟩ (g s) := rfl

/-- A check of values, without access to the state. -/
def check : Except ε α → EStateM ε σ α
  | .ok a => pure a
  | .error e => throw e

@[simp] theorem check_ok : (check (.ok a) : EStateM ε σ α) = pure a := rfl

/-- Inverting a method that starts with a check. -/
theorem check_bind_ok {x : Except ε α} {s s' : σ} {b : β} :
    (check x >>= f) s = .ok b s' ↔ ∃ a, x = .ok a ∧ f a s = .ok b s' := by
  cases x with
  | ok a =>
    show f a s = .ok b s' ↔ _
    simp
  | error e =>
    show EStateM.Result.error e s = .ok b s' ↔ _
    simp

theorem check_bind_err {x : Except ε α} {s s' : σ} :
    (check x >>= f) s = .error e s' ↔
      (x = .error e ∧ s = s') ∨ ∃ a, x = .ok a ∧ f a s = .error e s' := by
  cases x with
  | ok a =>
    show f a s = .error e s' ↔ _
    simp
  | error e' =>
    show EStateM.Result.error e' s = .error e s' ↔ _
    simp

/-- Running a method whose first check passes. -/
theorem check_bind_of_ok {x : Except ε α} (h : x = .ok a) : (check x >>= f) = f a := by
  rw [h]
  rfl

/-- Runs a method of a field. The field is written back in both cases. -/
def onField (read : σ → τ) (write : τ → σ → σ) (x : EStateM ε τ α) : EStateM ε σ α := fun s =>
  match x (read s) with
  | .ok a t => .ok a (write t s)
  | .error e t => .error e (write t s)

theorem onField_ok {x : EStateM ε τ α} {s s' : σ} :
    onField read write x s = .ok a s' ↔ ∃ t, x (read s) = .ok a t ∧ write t s = s' := by
  unfold onField
  cases x (read s) with
  | ok b t => simp
  | error e t => simp

theorem onField_err {x : EStateM ε τ α} {s s' : σ} :
    onField read write x s = .error e s' ↔ ∃ t, x (read s) = .error e t ∧ write t s = s' := by
  unfold onField
  cases x (read s) with
  | ok b t => simp
  | error e' t => simp

end Exec

end Wolf
