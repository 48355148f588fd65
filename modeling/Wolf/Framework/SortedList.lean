import Mathlib.Data.List.Sort
import Mathlib.Order.Basic

/-! # Sorted collections

`SortedList key` is a collection of items in strictly increasing order
of a key: a `BTreeMap` with its entries as items, or a `BTreeSet` whose
order looks at the key only.

* `mem_insert`, `mem_erase`, `mem_filter`: the items after an update. -/

namespace Wolf

open List

/-- Items in strictly increasing order of their keys. -/
@[ext]
structure SortedList {α κ : Type} [LinearOrder κ] (key : α → κ) where
  items : List α
  sorted : items.Pairwise fun a b => key a < key b

namespace SortedList

variable {α κ : Type} [LinearOrder κ] {key : α → κ} {items : List α} {s : SortedList key}
  {a x : α}

instance : Membership α (SortedList key) := ⟨fun s a => a ∈ s.items⟩

theorem mem_items : a ∈ s.items ↔ a ∈ s := Iff.rfl

/-! ## Operations -/

/-- No items. -/
def empty : SortedList key := ⟨[], List.Pairwise.nil⟩

instance : EmptyCollection (SortedList key) := ⟨empty⟩

/-- The insertion of an item before the first one with a greater key, in
place of one with the same key. -/
def insertItem (key : α → κ) (a : α) : List α → List α
  | [] => [a]
  | b :: rest =>
    if key a < key b then a :: b :: rest
    else if key a = key b then a :: rest
    else b :: insertItem key a rest

theorem mem_insertItem (h : items.Pairwise fun a b => key a < key b) :
    x ∈ insertItem key a items ↔ x = a ∨ x ∈ items ∧ key x ≠ key a := by
  induction items with
  | nil => simp [insertItem]
  | cons b rest ih =>
    obtain ⟨hb, hrest⟩ := pairwise_cons.mp h
    rw [insertItem]
    split
    · rename_i hlt
      rw [mem_cons]
      constructor
      · rintro (rfl | hmem)
        · exact .inl rfl
        · right
          refine ⟨hmem, ?_⟩
          rcases mem_cons.mp hmem with rfl | hmem
          · exact hlt.ne'
          · exact (hlt.trans (hb x hmem)).ne'
      · rintro (rfl | ⟨hmem, _⟩)
        · exact .inl rfl
        · exact .inr hmem
    · rename_i hnlt
      split
      · rename_i heq
        rw [mem_cons, mem_cons]
        constructor
        · rintro (rfl | hmem)
          · exact .inl rfl
          · right
            refine ⟨.inr hmem, ?_⟩
            rw [heq]
            exact (hb x hmem).ne'
        · rintro (rfl | ⟨rfl | hmem, hne⟩)
          · exact .inl rfl
          · exact absurd heq.symm hne
          · exact .inr hmem
      · rename_i hne
        rw [mem_cons, mem_cons, ih hrest]
        constructor
        · rintro (rfl | rfl | ⟨hmem, hkey⟩)
          · exact .inr ⟨.inl rfl, Ne.symm hne⟩
          · exact .inl rfl
          · exact .inr ⟨.inr hmem, hkey⟩
        · rintro (rfl | ⟨rfl | hmem, hkey⟩)
          · exact .inr (.inl rfl)
          · exact .inl rfl
          · exact .inr (.inr ⟨hmem, hkey⟩)

theorem insertItem_sorted (h : items.Pairwise fun a b => key a < key b) :
    (insertItem key a items).Pairwise fun a b => key a < key b := by
  induction items with
  | nil => simp [insertItem]
  | cons b rest ih =>
    obtain ⟨hb, hrest⟩ := pairwise_cons.mp h
    rw [insertItem]
    split
    · rename_i hlt
      apply List.Pairwise.cons _ h
      intro x hx
      rcases mem_cons.mp hx with rfl | hx
      · exact hlt
      · exact hlt.trans (hb x hx)
    · rename_i hnlt
      split
      · rename_i heq
        apply List.Pairwise.cons _ hrest
        intro x hx
        rw [heq]
        exact hb x hx
      · rename_i hne
        apply List.Pairwise.cons _ (ih hrest)
        intro x hx
        rcases (mem_insertItem hrest).mp hx with rfl | ⟨hx, _⟩
        · exact lt_of_le_of_ne (not_lt.mp hnlt) (Ne.symm hne)
        · exact hb x hx

/-- `BTreeMap::insert`: an item with the same key is replaced. -/
def insert (a : α) (s : SortedList key) : SortedList key :=
  ⟨insertItem key a s.items, insertItem_sorted s.sorted⟩

/-- The item with a key. -/
def find? (k : κ) (s : SortedList key) : Option α := s.items.find? fun a => key a = k

/-- `retain`. -/
def filter (p : α → Bool) (s : SortedList key) : SortedList key :=
  ⟨s.items.filter p, s.sorted.filter _⟩

/-- `remove` of a key. -/
def erase (k : κ) (s : SortedList key) : SortedList key := s.filter fun a => key a ≠ k

/-- `BTreeSet::insert`: an item with the same key is kept. -/
def insertAbsent (a : α) (s : SortedList key) : SortedList key :=
  if (s.find? (key a)).isSome then s else s.insert a

/-- The item with the least key. -/
def first? (s : SortedList key) : Option α := s.items.head?

/-- The item with the greatest key. -/
def last? (s : SortedList key) : Option α := s.items.getLast?

def popFirst (s : SortedList key) : SortedList key := ⟨s.items.tail, s.sorted.tail⟩

def popLast (s : SortedList key) : SortedList key :=
  ⟨s.items.dropLast, s.sorted.sublist (dropLast_sublist _)⟩

/-- `range(..=k).next_back()`. -/
def lastUpTo (k : κ) (s : SortedList key) : Option α := (s.filter fun a => key a ≤ k).last?

/-! ## Items -/

section Items

variable {t : SortedList key} {k : κ}

theorem mem_insert : x ∈ s.insert a ↔ x = a ∨ x ∈ s ∧ key x ≠ key a := mem_insertItem s.sorted

/-- Without an item of its key, an item is added. -/
theorem mem_insert_of_absent (h : ∀ b ∈ s, key b ≠ key a) : x ∈ s.insert a ↔ x = a ∨ x ∈ s := by
  rw [mem_insert]
  constructor
  · rintro (rfl | ⟨hx, _⟩)
    · exact .inl rfl
    · exact .inr hx
  · rintro (rfl | hx)
    · exact .inl rfl
    · exact .inr ⟨hx, h x hx⟩

@[simp] theorem mem_filter {p : α → Bool} : x ∈ s.filter p ↔ x ∈ s ∧ p x = true := List.mem_filter

@[simp] theorem mem_erase : x ∈ s.erase k ↔ x ∈ s ∧ key x ≠ k := by
  unfold erase
  simp

theorem nodup_keys (s : SortedList key) : (s.items.map key).Nodup :=
  pairwise_map.mpr (s.sorted.imp fun hlt => hlt.ne)

/-- Items with one key are equal. -/
theorem eq_of_key (ha : a ∈ s) (hx : x ∈ s) (h : key a = key x) : a = x :=
  inj_on_of_nodup_map s.nodup_keys ha hx h

theorem find?_eq_some : s.find? k = some a ↔ a ∈ s ∧ key a = k := by
  constructor
  · intro h
    exact ⟨mem_of_find?_eq_some h, by simpa using List.find?_some h⟩
  · rintro ⟨hmem, rfl⟩
    cases hfind : s.find? (key a) with
    | none =>
      have := List.find?_eq_none.mp hfind a hmem
      simp at this
    | some b =>
      have hb : b ∈ s := mem_of_find?_eq_some hfind
      have hkey : key b = key a := by simpa using List.find?_some hfind
      rw [eq_of_key hb hmem hkey]

theorem find?_eq_none : s.find? k = none ↔ ∀ b ∈ s, key b ≠ k := by
  unfold find?
  simp [List.find?_eq_none, mem_items]

theorem mem_insertAbsent : x ∈ s.insertAbsent a ↔ x ∈ s ∨ x = a ∧ ∀ b ∈ s, key b ≠ key a := by
  unfold insertAbsent
  split
  · rename_i hsome
    obtain ⟨b, hb⟩ := Option.isSome_iff_exists.mp hsome
    obtain ⟨hmem, hkey⟩ := find?_eq_some.mp hb
    constructor
    · exact .inl
    · rintro (hx | ⟨_, habsent⟩)
      · exact hx
      · exact absurd hkey (habsent b hmem)
  · rename_i hnone
    have habsent : ∀ b ∈ s, key b ≠ key a := by
      rw [Option.not_isSome_iff_eq_none] at hnone
      exact find?_eq_none.mp hnone
    rw [mem_insert_of_absent habsent, and_iff_left habsent]
    exact or_comm

theorem insertItem_length_le : (insertItem key a items).length ≤ items.length + 1 := by
  induction items with
  | nil => exact Nat.le_refl _
  | cons b rest ih =>
    unfold insertItem
    split
    · exact Nat.le_refl _
    · split
      · exact Nat.le_succ _
      · exact Nat.succ_le_succ ih

theorem insertAbsent_length_le : (s.insertAbsent a).items.length ≤ s.items.length + 1 := by
  unfold insertAbsent
  split
  · exact Nat.le_succ _
  · exact insertItem_length_le

/-- A collection is determined by its items. -/
theorem ext_mem (h : ∀ x, x ∈ s ↔ x ∈ t) : s = t := by
  apply SortedList.ext
  have hperm : s.items.Perm t.items :=
    (perm_ext_iff_of_nodup s.nodup_keys.of_map t.nodup_keys.of_map).mpr h
  apply List.Perm.eq_of_pairwise _ s.sorted t.sorted hperm
  intro a b _ _ hab hba
  exact absurd (hab.trans hba) (lt_irrefl _)

/-- The items are the sorted list of the members. -/
theorem items_eq (hsorted : items.Pairwise fun a b => key a < key b) (h : ∀ x, x ∈ s ↔ x ∈ items) :
    s.items = items :=
  congrArg SortedList.items (ext_mem (t := ⟨items, hsorted⟩) h)

/-- Inserting an item that is there. -/
theorem insert_of_mem (h : a ∈ s) : s.insert a = s := by
  apply ext_mem
  intro x
  rw [mem_insert]
  constructor
  · rintro (rfl | ⟨hx, _⟩)
    · exact h
    · exact hx
  · intro hx
    by_cases hkey : key x = key a
    · exact .inl (eq_of_key hx h hkey)
    · exact .inr ⟨hx, hkey⟩

end Items

/-! ## Ends -/

section Ends

variable {k : κ}

/-- A key above all others goes to the end. -/
theorem insert_items_of_lt {l : List α} (hl : s.items = l) (h : ∀ b ∈ l, key b < key a) :
    (s.insert a).items = l ++ [a] := by
  subst hl
  apply items_eq
  · apply pairwise_append.mpr
    refine ⟨s.sorted, pairwise_singleton _ _, ?_⟩
    intro b hb x hx
    rw [mem_singleton.mp hx]
    exact h b hb
  · intro x
    rw [mem_insert_of_absent fun b hb => (h b hb).ne, mem_append, mem_singleton]
    exact or_comm

/-- A key below all others goes to the front. -/
theorem insert_items_of_gt (h : ∀ b ∈ s, key a < key b) : (s.insert a).items = a :: s.items := by
  apply items_eq
  · exact pairwise_cons.mpr ⟨h, s.sorted⟩
  · intro x
    rw [mem_insert_of_absent fun b hb => (h b hb).ne', mem_cons]
    rfl

/-- One item is removed. -/
theorem erase_items_of_append {before after : List α} (h : s.items = before ++ a :: after) :
    (s.erase (key a)).items = before ++ after := by
  have hs := s.sorted
  rw [h, pairwise_append, pairwise_cons] at hs
  obtain ⟨_, ⟨hafter, _⟩, hbefore⟩ := hs
  change s.items.filter _ = before ++ after
  rw [h, filter_append, filter_cons_of_neg (by simp)]
  rw [filter_eq_self.mpr, filter_eq_self.mpr]
  · intro b hb
    simpa using (hafter b hb).ne'
  · intro b hb
    simpa using (hbefore b hb a mem_cons_self).ne

theorem last?_mem (h : s.last? = some a) : a ∈ s := mem_of_getLast? h

theorem last?_eq_none : s.last? = none ↔ s.items = [] := List.getLast?_eq_none_iff

end Ends

end SortedList

end Wolf
