import Mathlib.Data.Finmap
import Wolf.Framework.Result

/-! # Indexes with unique keys

An `Index` is a finite map whose updates insist on what they find: a
key is inserted only if it is absent and removed only if it is present.
Such an index is determined by the multiset of the entries that were
inserted and not removed, whatever the order of the updates. -/

namespace Wolf

open List

variable {K V ε : Type} [DecidableEq K]

/-- A finite map. -/
abbrev Index (K V : Type) : Type := Finmap fun _ : K => V

/-- `insert` of a key that must be absent. -/
def Index.insertNew (m : Index K V) (k : K) (v : V) (err : ε) : Except ε (Index K V) :=
  if k ∈ m then .error err else .ok (m.insert k v)

/-- `remove` of a key that must be present. -/
def Index.removePresent (m : Index K V) (k : K) (err : ε) : Except ε (Index K V) :=
  if k ∈ m then .ok (m.erase k) else .error err

/-- `MultiSet::remove`, which must find the element. -/
def removeOne (s : Multiset K) (a : K) (err : ε) : Except ε (Multiset K) :=
  if a ∈ s then .ok (s.erase a) else .error err

theorem removeOne_cons (s : Multiset K) (a : K) (err : ε) : removeOne (a ::ₘ s) a err = .ok s := by
  rw [removeOne, if_pos (Multiset.mem_cons_self a s), Multiset.erase_cons_head]

/-- The index holds exactly these entries, each under its own key. -/
structure Holds (m : Index K V) (entries : Multiset (K × V)) : Prop where
  nodup : (entries.map Prod.fst).Nodup
  lookup : ∀ k v, m.lookup k = some v ↔ (k, v) ∈ entries

namespace Holds

variable {m m' : Index K V} {entries : Multiset (K × V)} {k : K} {v : V}

theorem empty : Holds (∅ : Index K V) 0 where
  nodup := Multiset.nodup_zero
  lookup := by simp

/-- An index is determined by what it holds. -/
theorem unique (h : Holds m entries) (h' : Holds m' entries) : m = m' := by
  apply Finmap.ext_lookup
  intro k
  apply Option.ext
  intro v
  rw [h.lookup, h'.lookup]

theorem mem_iff (h : Holds m entries) : k ∈ m ↔ k ∈ entries.map Prod.fst := by
  rw [Finmap.mem_iff, Multiset.mem_map]
  constructor
  · rintro ⟨v, hv⟩
    exact ⟨(k, v), (h.lookup k v).mp hv, rfl⟩
  · rintro ⟨⟨_, v⟩, hmem, rfl⟩
    exact ⟨v, (h.lookup _ v).mpr hmem⟩

theorem insert (h : Holds m entries) (hk : k ∉ m) : Holds (m.insert k v) ((k, v) ::ₘ entries) where
  nodup := by
    rw [Multiset.map_cons, Multiset.nodup_cons]
    exact ⟨fun hmem => hk (h.mem_iff.mpr hmem), h.nodup⟩
  lookup := by
    intro k' v'
    rw [Multiset.mem_cons]
    by_cases hkey : k' = k
    · subst hkey
      rw [Finmap.lookup_insert]
      constructor
      · intro heq
        rw [Option.some.inj heq]
        exact .inl rfl
      · rintro (heq | hmem)
        · rw [(Prod.mk.inj heq).2]
        · exact absurd (h.mem_iff.mpr (Multiset.mem_map.mpr ⟨_, hmem, rfl⟩)) hk
    · rw [Finmap.lookup_insert_of_ne _ hkey, h.lookup]
      constructor
      · exact .inr
      · rintro (heq | hmem)
        · exact absurd (Prod.mk.inj heq).1 hkey
        · exact hmem

theorem erase (h : Holds m ((k, v) ::ₘ entries)) : Holds (m.erase k) entries := by
  have hnodup := h.nodup
  rw [Multiset.map_cons, Multiset.nodup_cons] at hnodup
  refine ⟨hnodup.2, ?_⟩
  intro k' v'
  by_cases hkey : k' = k
  · subst hkey
    rw [Finmap.lookup_erase]
    constructor
    · intro heq
      cases heq
    · intro hmem
      exact absurd (Multiset.mem_map.mpr ⟨_, hmem, rfl⟩) hnodup.1
  · rw [Finmap.lookup_erase_ne hkey, h.lookup, Multiset.mem_cons]
    constructor
    · rintro (heq | hmem)
      · exact absurd (Prod.mk.inj heq).1 hkey
      · exact hmem
    · exact .inr

/-- Several entries with new keys. -/
theorem insertAll {new : List (K × V)} (h : Holds m entries) (hnew : (new.map Prod.fst).Nodup)
    (habsent : ∀ k ∈ new.map Prod.fst, k ∉ m) :
    Holds (new.foldl (fun m entry => Finmap.insert entry.1 entry.2 m) m) (↑new + entries) := by
  induction new generalizing m entries with
  | nil => simpa using h
  | cons entry rest ih =>
    rw [map_cons, nodup_cons] at hnew
    have hrest : ∀ k ∈ rest.map Prod.fst, k ∉ Finmap.insert entry.1 entry.2 m := by
      intro k hk hmem
      rcases Finmap.mem_insert.mp hmem with rfl | hmem
      · exact hnew.1 hk
      · exact habsent k (mem_cons_of_mem _ hk) hmem
    have hall := ih (h.insert (habsent entry.1 mem_cons_self)) hnew.2 hrest
    rw [Multiset.add_cons, ← Multiset.cons_add, Multiset.cons_coe] at hall
    exact hall

/-- Several entries are removed. -/
theorem eraseAll {old : List (K × V)} (h : Holds m (↑old + entries)) :
    Holds ((old.map Prod.fst).foldl (fun m key => m.erase key) m) entries := by
  induction old generalizing m with
  | nil => simpa using h
  | cons entry rest ih =>
    rw [← Multiset.cons_coe, Multiset.cons_add] at h
    exact ih h.erase

theorem insertNew {err : ε} (h : Holds m entries) (hm : m.insertNew k v err = .ok m') :
    Holds m' ((k, v) ::ₘ entries) := by
  unfold Index.insertNew at hm
  split at hm
  · cases hm
  · cases hm
    exact h.insert ‹_›

/-- An index that holds less accepts what the index accepts. -/
theorem insertNew_mono {r : Index K V} {less : Multiset (K × V)} {err : ε} (h : Holds m entries)
    (h' : Holds m' less) (hle : less ≤ entries) (hm : m.insertNew k v err = .ok r) :
    ∃ r', m'.insertNew k v err = .ok r' := by
  unfold Index.insertNew at hm ⊢
  split at hm
  · cases hm
  · rename_i habsent
    refine ⟨m'.insert k v, if_neg fun hmem => habsent ?_⟩
    rw [h.mem_iff]
    exact Multiset.mem_of_le (Multiset.map_le_map hle) (h'.mem_iff.mp hmem)

/-- An entry that is held can be removed. -/
theorem removePresent (err : ε) (h : Holds m ((k, v) ::ₘ entries)) :
    ∃ m', m.removePresent k err = .ok m' ∧ Holds m' entries := by
  have hmem : k ∈ m := h.mem_iff.mpr (by simp)
  exact ⟨m.erase k, if_pos hmem, h.erase⟩

end Holds

end Wolf
