import Wolf.Framework.Bytes

/-! # Hexadecimal text

`hexEncode` writes lowercase digits; `hexDecode` reads digits of either
case. Decoding an encoded string gives the string back. -/

namespace Wolf

open List

/-- The lowercase digit of a value below 16. -/
def hexDigit (n : Nat) : UInt8 :=
  if n < 10 then UInt8.ofNat (0x30 + n) else UInt8.ofNat (0x61 + (n - 10))

/-- The value of a digit of either case. -/
def hexValue (c : UInt8) : Option Nat :=
  if 0x30 ≤ c.toNat ∧ c.toNat ≤ 0x39 then some (c.toNat - 0x30)
  else if 0x61 ≤ c.toNat ∧ c.toNat ≤ 0x66 then some (c.toNat - 0x61 + 10)
  else if 0x41 ≤ c.toNat ∧ c.toNat ≤ 0x46 then some (c.toNat - 0x41 + 10)
  else none

/-- `byte.is_ascii_digit() || (b'a'..=b'f').contains(&byte)`. -/
def isLowerHex (c : UInt8) : Bool :=
  (0x30 ≤ c.toNat ∧ c.toNat ≤ 0x39) ∨ (0x61 ≤ c.toNat ∧ c.toNat ≤ 0x66)

def hexEncode : Bytes → Bytes
  | [] => []
  | b :: bs => hexDigit (b.toNat / 16) :: hexDigit (b.toNat % 16) :: hexEncode bs

def hexDecode : Bytes → Option Bytes
  | [] => some []
  | [_] => none
  | c :: c' :: cs => do
    let high ← hexValue c
    let low ← hexValue c'
    let bytes ← hexDecode cs
    some (UInt8.ofNat (high * 16 + low) :: bytes)

/-- Bytes given in hexadecimal. -/
def ofHex (n : Nat) (text : String) : FixedBytes n :=
  FixedBytes.copyFromSlice n ((hexDecode text.toUTF8.data.toList).getD [])

variable {n : Nat}

theorem toNat_hexDigit (h : n < 16) :
    (hexDigit n).toNat = if n < 10 then 0x30 + n else 0x61 + (n - 10) := by
  unfold hexDigit
  split
  · rw [UInt8.toNat_ofNat']
    omega
  · rw [UInt8.toNat_ofNat']
    omega

theorem hexValue_hexDigit (h : n < 16) : hexValue (hexDigit n) = some n := by
  have hd := toNat_hexDigit h
  unfold hexValue
  by_cases h10 : n < 10
  · rw [if_pos h10] at hd
    rw [if_pos (by omega), hd]
    exact congrArg some (by omega)
  · rw [if_neg h10] at hd
    rw [if_neg (by omega), if_pos (by omega), hd]
    exact congrArg some (by omega)

theorem isLowerHex_hexDigit (h : n < 16) : isLowerHex (hexDigit n) = true := by
  have hd := toNat_hexDigit h
  unfold isLowerHex
  rw [decide_eq_true_iff]
  split at hd
  · exact .inl (by omega)
  · exact .inr (by omega)

@[simp] theorem length_hexEncode (bytes : Bytes) : (hexEncode bytes).length = bytes.length * 2 := by
  induction bytes with
  | nil => rfl
  | cons b bs ih =>
    rw [hexEncode, length_cons, length_cons, length_cons, ih]
    omega

theorem hexEncode_isLowerHex (bytes : Bytes) : (hexEncode bytes).all isLowerHex = true := by
  induction bytes with
  | nil => rfl
  | cons b bs ih =>
    have hb : b.toNat < 256 := b.toNat_lt
    rw [hexEncode, all_cons, all_cons, isLowerHex_hexDigit (by omega),
      isLowerHex_hexDigit (by omega), ih]
    rfl

theorem hexDecode_hexEncode (bytes : Bytes) : hexDecode (hexEncode bytes) = some bytes := by
  induction bytes with
  | nil => rfl
  | cons b bs ih =>
    have hb : b.toNat < 256 := b.toNat_lt
    rw [hexEncode, hexDecode, hexValue_hexDigit (by omega), hexValue_hexDigit (by omega), ih]
    have hsum : b.toNat / 16 * 16 + b.toNat % 16 = b.toNat := by omega
    show some (UInt8.ofNat (b.toNat / 16 * 16 + b.toNat % 16) :: bs) = some (b :: bs)
    rw [hsum]
    simp

end Wolf
