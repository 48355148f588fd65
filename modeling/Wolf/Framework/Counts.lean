import Wolf.Framework.Exec
import Mathlib.Algebra.BigOperators.Group.List.Basic
import Mathlib.Data.Finset.Card
import Mathlib.Algebra.GroupWithZero.Nat

/-! # Sums over maps

A map of counters is summed over its entries. One insertion moves the
sum by the difference of the values (`sumValues_insert_add`), which is
all that conservation arguments need. The number of values that satisfy a
condition is the number of their keys (`sumValues_toNat`). -/

namespace Wolf

open List

variable {K V : Type}

/-- The sum of `f` over the values of a map. -/
def sumValues (f : V → Nat) (map : HashMap K V) : Nat :=
  (map.entries.map fun entry => f entry.2).sum

variable {map : HashMap K V}

theorem sumValues_mono {f g : V → Nat} (h : ∀ value, f value ≤ g value) :
    sumValues f map ≤ sumValues g map := by
  unfold sumValues
  induction map.entries with
  | nil => exact Nat.le_refl _
  | cons entry rest ih =>
    exact Nat.add_le_add (h entry.2) ih

theorem sumValues_one : sumValues (fun _ => 1) map = map.entries.length := by
  unfold sumValues
  simp

variable [DecidableEq K] {key : K}

/-- What a map holds at a key, and zero without an entry. -/
def valueAt (f : V → Nat) (map : HashMap K V) (key : K) : Nat :=
  (map.lookup key).elim 0 f

theorem sum_kerase (f : V → Nat) (key : K) (entries : List (Sigma fun _ : K => V)) :
    ((entries.kerase key).map fun entry => f entry.2).sum + (entries.dlookup key).elim 0 f =
      (entries.map fun entry => f entry.2).sum := by
  induction entries with
  | nil => simp
  | cons entry rest ih =>
    obtain ⟨other, value⟩ := entry
    by_cases hkey : key = other
    · subst hkey
      simp [Nat.add_comm]
    · rw [kerase_cons_ne hkey, dlookup_cons_ne _ _ hkey, map_cons, map_cons,
        sum_cons, sum_cons, Nat.add_assoc, ih]

/-- A value that grows by `n` moves the sum by `n`. -/
theorem sumValues_insert_add {f : V → Nat} {value : V} {n : Nat}
    (h : f value = valueAt f map key + n) :
    sumValues f (map.insert key value) = sumValues f map + n := by
  have herase := sum_kerase f key map.entries
  unfold valueAt AList.lookup at h
  unfold sumValues
  rw [AList.entries_insert, map_cons, sum_cons]
  dsimp only
  omega

@[simp] theorem valueAt_insert_self (f : V → Nat) (value : V) :
    valueAt f (map.insert key value) key = f value := by
  unfold valueAt
  rw [AList.lookup_insert]
  rfl

theorem valueAt_insert_ne (f : V → Nat) {other : K} (value : V) (h : other ≠ key) :
    valueAt f (map.insert key value) other = valueAt f map other := by
  unfold valueAt
  rw [AList.lookup_insert_ne h]

theorem valueAt_le_sumValues (f : V → Nat) (key : K) : valueAt f map key ≤ sumValues f map := by
  have herase := sum_kerase f key map.entries
  unfold sumValues valueAt AList.lookup
  omega

/-- A new key adds one entry. -/
theorem length_entries_insert (h : map.lookup key = none) (value : V) :
    (map.insert key value).entries.length = map.entries.length + 1 := by
  have hsum : sumValues (fun _ => 1) (map.insert key value) = sumValues (fun _ => 1) map + 1 := by
    refine sumValues_insert_add ?_
    unfold valueAt
    rw [h]
    rfl
  rw [sumValues_one, sumValues_one] at hsum
  exact hsum

/-! ### Keys that satisfy a condition -/

/-- The keys whose value satisfies `p`. -/
def keysWhere (p : V → Bool) (map : HashMap K V) : Finset K :=
  ((map.entries.filter fun entry => p entry.2).map Sigma.fst).toFinset

theorem mem_keysWhere {p : V → Bool} :
    key ∈ keysWhere p map ↔ ∃ value, map.lookup key = some value ∧ p value = true := by
  unfold keysWhere
  rw [mem_toFinset, mem_map]
  constructor
  · rintro ⟨⟨other, value⟩, hmem, rfl⟩
    rw [List.mem_filter] at hmem
    exact ⟨value, AList.mem_lookup_iff.mpr hmem.1, hmem.2⟩
  · rintro ⟨value, hlookup, hp⟩
    exact ⟨⟨key, value⟩, List.mem_filter.mpr ⟨AList.mem_lookup_iff.mp hlookup, hp⟩, rfl⟩

/-- Counting the values that satisfy `p` is counting their keys. -/
theorem sumValues_toNat (p : V → Bool) :
    sumValues (fun value => (p value).toNat) map = (keysWhere p map).card := by
  have hnodup : ((map.entries.filter fun entry => p entry.2).map Sigma.fst).Nodup :=
    List.Nodup.sublist (filter_sublist.map _) map.nodupKeys
  unfold keysWhere sumValues
  rw [toFinset_card_of_nodup hnodup, length_map]
  induction map.entries with
  | nil => rfl
  | cons entry rest ih =>
    rw [map_cons, sum_cons, ih, filter_cons]
    cases hp : p entry.2 with
    | true => simp [hp, Nat.add_comm]
    | false => simp [hp]

/-- A map whose keys are keys of another one is no larger. -/
theorem length_entries_le {V' : Type} {map' : HashMap K V'}
    (h : ∀ key value, map.lookup key = some value → ∃ value', map'.lookup key = some value') :
    map.entries.length ≤ map'.entries.length := by
  have hcard : (keysWhere (fun _ => true) map).card ≤ (keysWhere (fun _ => true) map').card := by
    refine Finset.card_le_card ?_
    intro key hkey
    obtain ⟨value, hvalue, _⟩ := mem_keysWhere.mp hkey
    obtain ⟨value', hvalue'⟩ := h key value hvalue
    exact mem_keysWhere.mpr ⟨value', hvalue', rfl⟩
  rw [← sumValues_toNat, ← sumValues_toNat] at hcard
  simpa [sumValues_one] using hcard

end Wolf
