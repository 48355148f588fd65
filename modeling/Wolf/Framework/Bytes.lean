import Mathlib.Tactic.Common
import Mathlib.Data.List.Basic
import Mathlib.Data.Finset.Card
import Mathlib.Algebra.GroupWithZero.Nat

/-! # Byte strings and fixed-width integers

Arrays carry their length; checked arithmetic fails where it overflows. -/

namespace Wolf

open List

/-- A byte slice. -/
abbrev Bytes : Type := List UInt8

/-- `[u8; n]`: exactly `n` bytes. -/
structure FixedBytes (n : Nat) where
  data : Bytes
  size_eq : data.length = n
  deriving DecidableEq

instance : LawfulBEq Bytes := inferInstance

instance : LawfulBEq (FixedBytes 32) := inferInstance

namespace FixedBytes

variable {n : Nat}

@[ext] theorem ext {a b : FixedBytes n} (h : a.data = b.data) : a = b := by
  cases a; cases b; cases h; rfl

@[simp] theorem length_data (a : FixedBytes n) : a.data.length = n := a.size_eq

/-- `[x; n]`. -/
def fill (n : Nat) (x : UInt8) : FixedBytes n :=
  ⟨List.replicate n x, length_replicate⟩

/-- `array.copy_from_slice(slice)` on a zeroed array. The source panics
on a length mismatch; no caller reaches that branch. -/
def copyFromSlice (n : Nat) (slice : Bytes) : FixedBytes n :=
  if h : slice.length = n then ⟨slice, h⟩ else fill n 0

theorem copyFromSlice_data {slice : Bytes} (h : slice.length = n) :
    (copyFromSlice n slice).data = slice := by
  simp [copyFromSlice, h]

@[simp] theorem copyFromSlice_self (a : FixedBytes n) : copyFromSlice n a.data = a := by
  apply ext
  exact copyFromSlice_data a.size_eq

/-- `array.reverse()`. -/
def reverse (a : FixedBytes n) : FixedBytes n :=
  ⟨a.data.reverse, by simp⟩

@[simp] theorem reverse_reverse (a : FixedBytes n) : a.reverse.reverse = a := by
  apply ext; simp [reverse]

theorem reverse_injective : Function.Injective (reverse (n := n)) := by
  intro a b h
  have h' := congrArg reverse h
  simpa using h'

end FixedBytes

/-! ## Little-endian integers -/

/-- The `w` little-endian bytes of `n` (taken modulo `256 ^ w`). -/
def leBytes : Nat → Nat → Bytes
  | 0, _ => []
  | w + 1, n => UInt8.ofNat (n % 256) :: leBytes w (n / 256)

/-- The number with the given little-endian bytes. -/
def leNat : Bytes → Nat
  | [] => 0
  | b :: bs => b.toNat + 256 * leNat bs

@[simp] theorem length_leBytes (w n : Nat) : (leBytes w n).length = w := by
  induction w generalizing n with
  | zero => rfl
  | succ w ih => simp [leBytes, ih]

theorem leNat_lt (bs : Bytes) : leNat bs < 256 ^ bs.length := by
  induction bs with
  | nil => simp [leNat]
  | cons b bs ih =>
    have hb : b.toNat < 256 := b.toNat_lt
    have hpow : 256 ^ (b :: bs).length = 256 * 256 ^ bs.length := by
      rw [length_cons, Nat.pow_succ, Nat.mul_comm]
    rw [hpow, leNat]
    omega

theorem leNat_leBytes (w n : Nat) : leNat (leBytes w n) = n % 256 ^ w := by
  induction w generalizing n with
  | zero => simp [leBytes, leNat, Nat.mod_one]
  | succ w ih =>
    have hb : (UInt8.ofNat (n % 256)).toNat = n % 256 := by
      rw [UInt8.toNat_ofNat']; omega
    rw [leBytes, leNat, ih, hb, Nat.pow_succ, Nat.mul_comm (256 ^ w) 256,
      Nat.mod_mul]

theorem leNat_leBytes_of_lt {w n : Nat} (h : n < 256 ^ w) : leNat (leBytes w n) = n := by
  rw [leNat_leBytes, Nat.mod_eq_of_lt h]

theorem leBytes_leNat (bs : Bytes) : leBytes bs.length (leNat bs) = bs := by
  induction bs with
  | nil => rfl
  | cons b bs ih =>
    have hb : b.toNat < 256 := b.toNat_lt
    have hlow : (b.toNat + 256 * leNat bs) % 256 = b.toNat := by omega
    have hhigh : (b.toNat + 256 * leNat bs) / 256 = leNat bs := by omega
    rw [length_cons, leBytes, leNat, hlow, hhigh, ih]
    simp

@[simp] theorem FixedBytes.leBytes_leNat {n : Nat} (a : FixedBytes n) :
    leBytes n (leNat a.data) = a.data := by
  obtain ⟨data, rfl⟩ := a
  exact Wolf.leBytes_leNat data

theorem leNat_injective {a b : Bytes} (hlen : a.length = b.length) (h : leNat a = leNat b) :
    a = b := by
  have ha := leBytes_leNat a
  rw [h, hlen, leBytes_leNat] at ha
  exact ha.symm

theorem leBytes_injective {w n m : Nat} (hn : n < 256 ^ w) (hm : m < 256 ^ w)
    (h : leBytes w n = leBytes w m) : n = m := by
  have h' := congrArg leNat h
  rwa [leNat_leBytes_of_lt hn, leNat_leBytes_of_lt hm] at h'

def u32ToLeBytes (x : UInt32) : Bytes := leBytes 4 x.toNat

def u32FromLeBytes (bs : Bytes) : UInt32 := UInt32.ofNat (leNat bs)

@[simp] theorem length_u32ToLeBytes (x : UInt32) : (u32ToLeBytes x).length = 4 := by
  simp [u32ToLeBytes]

@[simp] theorem u32FromLeBytes_u32ToLeBytes (x : UInt32) : u32FromLeBytes (u32ToLeBytes x) = x := by
  have hx : x.toNat < 256 ^ 4 := x.toNat_lt
  rw [u32FromLeBytes, u32ToLeBytes, leNat_leBytes_of_lt hx]
  simp

theorem u32ToLeBytes_injective : Function.Injective u32ToLeBytes := by
  intro x y h
  have h' := congrArg u32FromLeBytes h
  rwa [u32FromLeBytes_u32ToLeBytes, u32FromLeBytes_u32ToLeBytes] at h'

theorem u32ToLeBytes_u32FromLeBytes {bs : Bytes} (h : bs.length = 4) :
    u32ToLeBytes (u32FromLeBytes bs) = bs := by
  have hlt : leNat bs < 2 ^ 32 := by
    have := leNat_lt bs
    rwa [h] at this
  have hnat : (u32FromLeBytes bs).toNat = leNat bs := by
    rw [u32FromLeBytes, UInt32.toNat_ofNat', Nat.mod_eq_of_lt hlt]
  rw [u32ToLeBytes, hnat, ← h, leBytes_leNat]

/-! ## Checked arithmetic -/

section checked
variable (w : Nat)

/-- `a.checked_add(b)` in an unsigned type of `w` bits. -/
def checkedAdd (a b : Nat) : Option Nat := if a + b < 2 ^ w then some (a + b) else none

/-- `start.checked_add(a).and_then(|n| n.checked_add(b))` and so on along
a list of summands. -/
def checkedSum (start : Nat) : List Nat → Option Nat
  | [] => some start
  | part :: parts => (checkedAdd w start part).bind fun total => checkedSum total parts

/-- `a.checked_mul(b)` in an unsigned type of `w` bits. -/
def checkedMul (a b : Nat) : Option Nat := if a * b < 2 ^ w then some (a * b) else none

/-- `a.checked_sub(b)`. -/
def checkedSub (a b : Nat) : Option Nat := if b ≤ a then some (a - b) else none

variable {w} {a b c : Nat}

theorem checkedAdd_eq_some : checkedAdd w a b = some c ↔ a + b < 2 ^ w ∧ a + b = c := by
  simp [checkedAdd]

theorem checkedAdd_of_lt (h : a + b < 2 ^ w) : checkedAdd w a b = some (a + b) := by
  simp [checkedAdd, h]

/-- A chain of checked additions succeeds when the whole sum fits. -/
theorem checkedSum_of_lt {start : Nat} {parts : List Nat} (h : start + parts.sum < 2 ^ w) :
    checkedSum w start parts = some (start + parts.sum) := by
  induction parts generalizing start with
  | nil => rfl
  | cons part parts ih =>
    rw [sum_cons] at h ⊢
    rw [checkedSum, checkedAdd_of_lt (by omega), Option.bind_some, ih (by omega), Nat.add_assoc]

theorem checkedMul_of_lt (h : a * b < 2 ^ w) : checkedMul w a b = some (a * b) := by
  simp [checkedMul, h]

theorem checkedSub_eq_some : checkedSub a b = some c ↔ b ≤ a ∧ a - b = c := by
  simp [checkedSub]

end checked

/-! ## Occurrences of a word -/

section Occurrences

variable {α : Type}

/-- `xs.windows(n)`: the contiguous sublists of length `n`. -/
def windows (n : Nat) (xs : List α) : List (List α) :=
  (List.range (xs.length + 1 - n)).map fun i => (xs.drop i).take n

/-- The number of windows equal to `m`. -/
def countOccurrences [DecidableEq α] (m xs : List α) : Nat :=
  ((windows m.length xs).filter (· = m)).length

theorem take_eq_iff_isPrefix {m xs : List α} : xs.take m.length = m ↔ m <+: xs := by
  rw [prefix_iff_eq_take]
  exact eq_comm

theorem countOccurrences_eq_card [DecidableEq α] (m xs : List α) :
    countOccurrences m xs =
      ((Finset.range (xs.length + 1 - m.length)).filter (fun i => m <+: xs.drop i)).card := by
  rw [countOccurrences, windows, filter_map, length_map]
  simp only [Function.comp_def, take_eq_iff_isPrefix]
  rfl

/-- A nonempty word occurs in one window exactly when it occurs at one position. -/
theorem countOccurrences_eq_one [DecidableEq α] {m xs : List α} (hm : m ≠ []) :
    countOccurrences m xs = 1 ↔ ∃ i, ∀ j, m <+: xs.drop j ↔ j = i := by
  have hrange : ∀ j, m <+: xs.drop j → j < xs.length + 1 - m.length := by
    intro j hj
    have hlen := hj.length_le
    have hpos := length_pos_iff.mpr hm
    rw [length_drop] at hlen
    omega
  rw [countOccurrences_eq_card, Finset.card_eq_one]
  constructor
  · rintro ⟨i, hi⟩
    refine ⟨i, fun j => ?_⟩
    rw [← Finset.mem_singleton, ← hi, Finset.mem_filter, Finset.mem_range]
    exact ⟨fun hj => ⟨hrange j hj, hj⟩, And.right⟩
  · rintro ⟨i, hi⟩
    refine ⟨i, Finset.ext fun j => ?_⟩
    rw [Finset.mem_filter, Finset.mem_range, Finset.mem_singleton, ← hi]
    exact ⟨And.right, fun hj => ⟨hrange j hj, hj⟩⟩
end Occurrences

end Wolf
