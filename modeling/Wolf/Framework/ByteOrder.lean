import Wolf.Framework.Bytes

/-! # Byte order of encoded keys

A key-value store sorts its rows by their bytes. A `DiskFormat` carries
the order of the keys over to the bytes. The bounds of a scan need not
fit the format: of two keys that are compared one has to.

* `Rows.mem_scan`, `Rows.scan_sorted`: a scan returns the keys between
  its bounds, in their order. -/

namespace Wolf

open List

/-- A digit in front of the lower ones decides only between equal numbers. -/
theorem compare_digits {b c x y : Nat} (hb : b < 256) (hc : c < 256) :
    compare (b + 256 * x) (c + 256 * y) = (compare x y).then (compare b c) := by
  rcases Nat.lt_trichotomy x y with h | rfl | h
  · rw [Nat.compare_eq_lt.mpr h, Nat.compare_eq_lt.mpr (by omega)]
    rfl
  · rw [Nat.compare_eq_eq.mpr rfl, Ordering.eq_then]
    rcases Nat.lt_trichotomy b c with h | rfl | h
    · rw [Nat.compare_eq_lt.mpr h, Nat.compare_eq_lt.mpr (by omega)]
    · simp
    · rw [Nat.compare_eq_gt.mpr h, Nat.compare_eq_gt.mpr (by omega)]
  · rw [Nat.compare_eq_gt.mpr h, Nat.compare_eq_gt.mpr (by omega)]
    rfl

theorem compareLex_reverse {left right : Bytes} (hlen : left.length = right.length)
    (low low' : Bytes) :
    List.compareLex compare (left.reverse ++ low) (right.reverse ++ low')
      = (compare (leNat left) (leNat right)).then (List.compareLex compare low low') := by
  induction left generalizing right low low' with
  | nil =>
    obtain rfl := List.length_eq_zero_iff.mp hlen.symm
    simp
  | cons b left ih =>
    cases right with
    | nil => simp at hlen
    | cons c right =>
      simp only [List.reverse_cons, List.append_assoc, List.singleton_append]
      rw [ih (by simpa using hlen), List.compareLex_cons_cons, leNat, leNat,
        compare_digits b.toNat_lt c.toNat_lt, UInt8.compare_eq_toNat_compare_toNat,
        Ordering.then_assoc]

/-- Big-endian numbers of one width are ordered like their bytes. -/
theorem compare_reverse_leBytes {w n m : Nat} (hn : n < 256 ^ w) (hm : m < 256 ^ w) :
    compare (leBytes w n).reverse (leBytes w m).reverse = compare n m := by
  have hlen : (leBytes w n).length = (leBytes w m).length := by simp
  have h := compareLex_reverse hlen [] []
  rw [leNat_leBytes_of_lt hn, leNat_leBytes_of_lt hm] at h
  rw [append_nil, append_nil, List.compareLex_nil_nil, Ordering.then_eq] at h
  exact h

theorem compareLex_append {a a' : Bytes} (hlen : a.length = a'.length) (b b' : Bytes) :
    List.compareLex compare (a ++ b) (a' ++ b')
      = (List.compareLex compare a a').then (List.compareLex compare b b') := by
  have hlen' : a.reverse.length = a'.reverse.length := by simpa using hlen
  have happend := compareLex_reverse hlen' b b'
  have halone := compareLex_reverse hlen' [] []
  simp only [reverse_reverse, append_nil, List.compareLex_nil_nil, Ordering.then_eq]
    at happend halone
  rw [happend, halone]

section order
variable {α : Type} [Ord α] [Std.TransOrd α]

/-- `std::cmp::max`. -/
def cmpMax {α : Type} [Ord α] (x y : α) : α := if compare x y = .gt then x else y

theorem isLE_cmpMax (x y z : α) :
    (compare (cmpMax x y) z).isLE ↔ (compare x z).isLE ∧ (compare y z).isLE := by
  unfold cmpMax
  split
  case isTrue hgt =>
    have hyx : (compare y x).isLE := by simp [Std.OrientedCmp.lt_of_gt hgt]
    simp only [iff_self_and]
    exact Std.TransCmp.isLE_trans hyx
  case isFalse hle =>
    have hxy : (compare x y).isLE := Ordering.isLE_iff_ne_gt.mpr hle
    simp only [iff_and_self]
    exact Std.TransCmp.isLE_trans hxy

theorem isLE_then_self {o o' : Ordering} (h : o'.isLE) : (o.then o').isLE ↔ o.isLE := by
  cases o <;> simp [h]

/-- Between two pairs with the same first field lie only pairs with it. -/
theorem isLE_then_and_isLE_then [Std.LawfulEqOrd α] {x y : α} {o o' : Ordering} :
    ((compare x y).then o).isLE ∧ ((compare y x).then o').isLE ↔ y = x ∧ o.isLE ∧ o'.isLE := by
  by_cases heq : y = x
  · simp [heq]
  · have hne : compare x y ≠ .eq := by
      intro h
      exact heq (Std.LawfulEqOrd.eq_of_compare h).symm
    rw [Std.OrientedOrd.eq_swap (a := y) (b := x)]
    cases h : compare x y <;> simp [heq, h] at hne ⊢

end order

/-- How keys are written to and read from disk. -/
structure DiskFormat (α : Type) [Ord α] where
  asBytes : α → Bytes
  fromBytes : Bytes → α
  len : Nat
  /-- The keys that are written without loss. -/
  Fits : α → Prop
  length_asBytes : ∀ x, (asBytes x).length = len
  compare_asBytes : ∀ x y, Fits x ∨ Fits y → compare (asBytes x) (asBytes y) = compare x y
  fromBytes_asBytes : ∀ x, Fits x → fromBytes (asBytes x) = x

variable {α β γ : Type} [Ord α] [Ord β] [Ord γ]

/-- Two fields `f` and `g`, one after the other, as with `split_at`. -/
def DiskFormat.pair (first : DiskFormat α) (second : DiskFormat β) (f : γ → α) (g : γ → β)
    (mk : α → β → γ) (hmk : ∀ x, mk (f x) (g x) = x)
    (hcompare : ∀ x y, compare x y = (compare (f x) (f y)).then (compare (g x) (g y))) :
    DiskFormat γ where
  asBytes x := first.asBytes (f x) ++ second.asBytes (g x)
  fromBytes bytes :=
    mk (first.fromBytes (bytes.take first.len)) (second.fromBytes (bytes.drop first.len))
  len := first.len + second.len
  Fits x := first.Fits (f x) ∧ second.Fits (g x)
  length_asBytes x := by rw [length_append, first.length_asBytes, second.length_asBytes]
  compare_asBytes x y hfits := by
    rw [hcompare, ← first.compare_asBytes _ _ (hfits.imp And.left And.left),
      ← second.compare_asBytes _ _ (hfits.imp And.right And.right)]
    exact compareLex_append (by rw [first.length_asBytes, first.length_asBytes]) _ _
  fromBytes_asBytes x hfits := by
    rw [take_left' (first.length_asBytes _), drop_left' (first.length_asBytes _),
      first.fromBytes_asBytes _ hfits.1, second.fromBytes_asBytes _ hfits.2, hmk]

/-- The rows of a store that holds `keys`, in the order of their bytes. The
keys have been written without loss. -/
structure Rows (disk : DiskFormat α) (keys : Set α) where
  rows : List Bytes
  sorted : rows.Pairwise (compare · · = .lt)
  mem_rows : ∀ row, row ∈ rows ↔ ∃ key ∈ keys, disk.asBytes key = row
  fits : ∀ key ∈ keys, disk.Fits key

namespace Rows

variable {disk : DiskFormat α} {keys : Set α} (store : Rows disk keys) (first last : α)

/-- The keys of the rows from the bytes of `first` to those of `last`. -/
def scan : List α :=
  (store.rows.filter fun row => (compare (disk.asBytes first) row).isLE &&
    (compare row (disk.asBytes last)).isLE).map disk.fromBytes

theorem mem_scan (key : α) : key ∈ store.scan first last ↔
    key ∈ keys ∧ (compare first key).isLE ∧ (compare key last).isLE := by
  simp only [scan, mem_map, mem_filter, store.mem_rows, Bool.and_eq_true]
  constructor
  · intro hrow
    obtain ⟨_, ⟨⟨key', hkey', rfl⟩, hbounds⟩, hdecode⟩ := hrow
    rw [disk.fromBytes_asBytes _ (store.fits _ hkey')] at hdecode
    rw [disk.compare_asBytes _ _ (.inr (store.fits _ hkey')),
      disk.compare_asBytes _ _ (.inl (store.fits _ hkey'))] at hbounds
    rw [← hdecode]
    exact ⟨hkey', hbounds⟩
  · intro hkey
    obtain ⟨hkey, hbounds⟩ := hkey
    rw [← disk.compare_asBytes _ _ (.inr (store.fits _ hkey)),
      ← disk.compare_asBytes _ _ (.inl (store.fits _ hkey))] at hbounds
    exact ⟨_, ⟨⟨key, hkey, rfl⟩, hbounds⟩, disk.fromBytes_asBytes _ (store.fits _ hkey)⟩

theorem scan_sorted : (store.scan first last).Pairwise (compare · · = .lt) := by
  refine pairwise_map.mpr (Pairwise.imp_of_mem ?_ (store.sorted.filter _))
  intro row row' hrow hrow' hlt
  -- two rows of the store are the bytes of two keys that fit
  obtain ⟨key, hkey, rfl⟩ := (store.mem_rows row).mp (mem_of_mem_filter hrow)
  obtain ⟨key', hkey', rfl⟩ := (store.mem_rows row').mp (mem_of_mem_filter hrow')
  rwa [disk.fromBytes_asBytes _ (store.fits _ hkey), disk.fromBytes_asBytes _ (store.fits _ hkey'),
    ← disk.compare_asBytes _ _ (.inl (store.fits _ hkey))]

end Rows

end Wolf
