import Mathlib.Data.List.Sort
import Wolf.Framework.UniqueIndex

/-! # Hash sets and indexes of hash sets

A hash set is a finite set together with an order in which a loop
visits it, which the program cannot control. Loops take that order as
a parameter, an `Iteration`.

A `SetIndex` keeps a set under every key. The programs here never keep
an empty set: an entry appears with its first element and goes with its
last one.

* `get_insertInto`, `get_removeFrom`: the two updates. -/

namespace Wolf

open List

/-- The order in which hash sets are visited. -/
structure Iteration (α : Type) where
  list : Finset α → List α
  nodup : ∀ s, (list s).Nodup
  mem_list : ∀ s a, a ∈ list s ↔ a ∈ s

namespace Iteration

variable {α : Type}

/-- Sets are visited in the order of a key. -/
def byKey (key : α → Nat) (hkey : Function.Injective key) : Iteration α where
  list s := Quot.liftOn s.val (fun l => l.insertionSort fun a b => key a ≤ key b) (by
    intro l l' hperm
    have hanti : Std.Antisymm fun a b : α => key a ≤ key b :=
      ⟨fun a b hab hba => hkey (Nat.le_antisymm hab hba)⟩
    have htrans : IsTrans α fun a b => key a ≤ key b := ⟨fun a b c => Nat.le_trans⟩
    have htotal : Std.Total fun a b : α => key a ≤ key b := ⟨fun a b => Nat.le_total _ _⟩
    exact List.Perm.eq_of_pairwise' (pairwise_insertionSort _ l)
      (pairwise_insertionSort _ l')
      (((perm_insertionSort _ l).trans hperm).trans (perm_insertionSort _ l').symm))
  nodup s := by
    obtain ⟨⟨l⟩, hl⟩ := s
    exact (perm_insertionSort _ l).nodup_iff.mpr hl
  mem_list s a := by
    obtain ⟨⟨l⟩, hl⟩ := s
    exact (perm_insertionSort _ l).mem_iff

end Iteration

/-- A set under every key. -/
abbrev SetIndex (K V : Type) : Type := Index K (Finset V)

namespace SetIndex

variable {K V : Type} [DecidableEq K] {m : SetIndex K V} {k k' : K} {v : V}

/-- `get(k).cloned().unwrap_or_default()`. -/
def get (m : SetIndex K V) (k : K) : Finset V := (m.lookup k).getD ∅

/-- No entry is empty. -/
def NoEmpty (m : SetIndex K V) : Prop := ∀ k s, m.lookup k = some s → s ≠ ∅

theorem get_insert (s : Finset V) :
    get (Finmap.insert k s m) k' = if k' = k then s else get m k' := by
  unfold get
  by_cases h : k' = k
  · rw [h, if_pos rfl, Finmap.lookup_insert, Option.getD_some]
  · rw [if_neg h, Finmap.lookup_insert_of_ne _ h]

theorem get_erase : get (m.erase k) k' = if k' = k then ∅ else get m k' := by
  unfold get
  by_cases h : k' = k
  · rw [h, if_pos rfl, Finmap.lookup_erase, Option.getD_none]
  · rw [if_neg h, Finmap.lookup_erase_ne h]

/-- Without empty entries, a key is present if its set is not empty. -/
theorem NoEmpty.mem_iff (h : NoEmpty m) : k ∈ m ↔ get m k ≠ ∅ := by
  rw [Finmap.mem_iff]
  constructor
  · rintro ⟨s, hs⟩
    simpa [get, hs] using h k s hs
  · intro hne
    cases hlookup : m.lookup k with
    | none => simp [get, hlookup] at hne
    | some s => exact ⟨s, rfl⟩

theorem NoEmpty.empty : NoEmpty (∅ : SetIndex K V) := by
  intro k s hs
  simp at hs

theorem NoEmpty.insert (h : NoEmpty m) {s : Finset V} (hs : s ≠ ∅) :
    NoEmpty (Finmap.insert k s m) := by
  intro k' s' hlookup
  by_cases hk : k' = k
  · rw [hk, Finmap.lookup_insert] at hlookup
    cases hlookup
    exact hs
  · rw [Finmap.lookup_insert_of_ne _ hk] at hlookup
    exact h k' s' hlookup

theorem NoEmpty.erase (h : NoEmpty m) : NoEmpty (m.erase k) := by
  intro k' s' hlookup
  by_cases hk : k' = k
  · rw [hk, Finmap.lookup_erase] at hlookup
    cases hlookup
  · rw [Finmap.lookup_erase_ne hk] at hlookup
    exact h k' s' hlookup

variable [DecidableEq V]

/-- `entry(k).or_default().insert(v)`. -/
def insertInto (m : SetIndex K V) (k : K) (v : V) : SetIndex K V :=
  Finmap.insert k (insert v (get m k)) m

/-- The element is removed from the set of a key that is present, and the
key with the last element. -/
def removeFrom (m : SetIndex K V) (k : K) (v : V) : SetIndex K V :=
  match m.lookup k with
  | none => m
  | some s => if s.erase v = ∅ then m.erase k else Finmap.insert k (s.erase v) m

theorem get_insertInto :
    get (insertInto m k v) k' = if k' = k then insert v (get m k) else get m k' :=
  get_insert _

theorem get_removeFrom :
    get (removeFrom m k v) k' = if k' = k then (get m k).erase v else get m k' := by
  unfold removeFrom
  cases hlookup : m.lookup k with
  | none =>
    have hget : get m k = ∅ := by simp [get, hlookup]
    by_cases h : k' = k
    · simp [h, hget]
    · simp [h]
  | some s =>
    have hget : get m k = s := by simp [get, hlookup]
    rw [hget]
    by_cases hempty : s.erase v = ∅
    · simp only [hempty, if_true]
      exact get_erase
    · simp only [hempty, if_false]
      exact get_insert _

theorem NoEmpty.insertInto (h : NoEmpty m) : NoEmpty (insertInto m k v) :=
  h.insert (Finset.insert_ne_empty _ _)

theorem NoEmpty.removeFrom (h : NoEmpty m) : NoEmpty (removeFrom m k v) := by
  unfold SetIndex.removeFrom
  split
  · exact h
  · split
    · exact h.erase
    · rename_i hne
      exact h.insert hne

end SetIndex

end Wolf
