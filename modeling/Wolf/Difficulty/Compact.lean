import Mathlib.Data.Nat.Bitwise
import Mathlib.Data.Nat.Log
import Mathlib.Tactic.Positivity
import Mathlib.Tactic.Ring
import Wolf.Framework.Result

/-! # Compact difficulties

A target is a 256-bit number. Block headers hold it in a floating
point format of 32 bits: a size in bytes, and a signed mantissa of the
three leading bytes. -/

namespace Wolf.Difficulty

/-! ## The two conversions -/

/-- The panics of difficulty arithmetic. -/
inductive Panic where
  /-- A 256-bit operation overflows. -/
  | overflow
  /-- A negative number becomes a 256-bit number. -/
  | negative
  | divisionByZero
  /-- The assertions of `to_compact`. -/
  | zeroDifficulty
  | sizeTooLarge
  | mantissaTooLarge
  | invalidMantissa
  /-- A threshold of an earlier block does not expand. -/
  | invalidThreshold
  /-- A context without blocks. -/
  | emptyContext
  /-- The minimum difficulty rule on a network that is no test network. -/
  | notATestNetwork
  deriving DecidableEq

/-- The result of a 256-bit operation. -/
def u256 (n : Nat) : Except Panic Nat := if n < 2 ^ 256 then .ok n else .error .overflow

theorem u256_of_lt {n : Nat} (h : n < 2 ^ 256) : u256 n = .ok n := if_pos h

structure CompactDifficulty where
  value : UInt32
  deriving DecidableEq

def signBit : Nat := 1 <<< 23

def unsignedMantissaMask : Nat := signBit - 1

/-- The mantissa and the exponent of `to_expanded` as they are multiplied:
no bit above 2^256 may be set, and bits below 1 are dropped. -/
def normalise (m : Nat) (e : Int) : Option (Nat × Nat) :=
  if 32 ≤ e then none
  else if e = 31 ∧ 255 < m then none
  else if e = 31 then some (m <<< 16, 29)
  else if e = 30 ∧ 65535 < m then none
  else if e = 30 then some (m <<< 8, 29)
  else if e < 0 then some (m >>> (e.natAbs * 8), 0)
  else some (m, e.toNat)

/-- The product of `to_expanded`. -/
def expandFields (mantissa : Nat) (exponent : Int) : Except Panic (Option Nat) :=
  match normalise mantissa exponent with
  | none => .ok none
  | some (mantissa, exponent) => do
    let power ← u256 (256 ^ exponent)
    let result ← u256 (mantissa * power)
    .ok (if result = 0 then none else some result)

def toExpanded (c : CompactDifficulty) : Except Panic (Option Nat) :=
  if c.value.toNat &&& signBit = signBit then .ok none
  else
    expandFields (c.value.toNat &&& unsignedMantissaMask) ((c.value.toNat >>> 24 : Nat) - 3)

def bits (n : Nat) : Nat := if n = 0 then 0 else n.log2 + 1

/-- The size in bytes with room for a sign. -/
def byteSize (n : Nat) : Nat := bits n / 8 + 1

/-- The fields of `to_compact`, which are checked and put together. -/
def packFields (size mantissa : Nat) : Except Panic CompactDifficulty := do
  rejectIf (¬ size < 34) .sizeTooLarge
  rejectIf (¬ mantissa ≤ unsignedMantissaMask) .mantissaTooLarge
  rejectIf (¬ 0 < mantissa) .invalidMantissa
  .ok ⟨UInt32.ofNat (mantissa + size <<< 24)⟩

def toCompact (n : Nat) : Except Panic CompactDifficulty := do
  rejectIf (n = 0) .zeroDifficulty
  packFields (byteSize n)
    (if n ≤ unsignedMantissaMask then n <<< (8 * (3 - byteSize n))
    else n >>> (8 * (byteSize n - 3)))

/-! ## Rounding -/

/-- The number without the bytes that the format drops. -/
def roundDown (n : Nat) : Nat := n / 2 ^ (8 * (byteSize n - 3)) * 2 ^ (8 * (byteSize n - 3))

section Rounding

variable {n m : Nat}

theorem lt_two_pow_byteSize (n : Nat) : n < 2 ^ (8 * byteSize n - 1) := by
  by_cases hn : n = 0
  · subst hn
    positivity
  · have hbits : bits n = n.log2 + 1 := if_neg hn
    have hle : n.log2 + 1 ≤ 8 * byteSize n - 1 := by
      unfold byteSize
      omega
    exact Nat.lt_log2_self.trans_le (Nat.pow_le_pow_right (by decide) hle)

theorem two_pow_le_of_byteSize (hn : n ≠ 0) : 2 ^ (8 * (byteSize n - 1) - 1) ≤ n := by
  have hbits : bits n = n.log2 + 1 := if_neg hn
  have hle : 8 * (byteSize n - 1) - 1 ≤ n.log2 := by
    unfold byteSize
    omega
  exact (Nat.pow_le_pow_right (by decide) hle).trans (Nat.log2_self_le hn)

theorem byteSize_mono (h : n ≤ m) : byteSize n ≤ byteSize m := by
  by_cases hn : n = 0
  · have hzero : byteSize n = 1 := by rw [hn]; rfl
    rw [hzero]
    exact Nat.le_add_left 1 _
  · have hm : m ≠ 0 := by omega
    have hlog : n.log2 ≤ m.log2 := (Nat.le_log2 hm).mpr ((Nat.log2_self_le hn).trans h)
    unfold byteSize bits
    rw [if_neg hn, if_neg hm]
    omega

theorem roundDown_le : roundDown n ≤ n := Nat.div_mul_le_self _ _

/-- Rounding keeps the order: a number with more bytes is at least a power
of two that is kept. -/
theorem roundDown_mono (h : n ≤ m) : roundDown n ≤ roundDown m := by
  by_cases hsize : byteSize n = byteSize m
  · unfold roundDown
    rw [hsize]
    exact Nat.mul_le_mul_right _ (Nat.div_le_div_right h)
  · have hlt : byteSize n < byteSize m := lt_of_le_of_ne (byteSize_mono h) hsize
    have hm : m ≠ 0 := by
      rintro rfl
      have hzero : n = 0 := by omega
      exact hsize (by rw [hzero])
    calc
      roundDown n ≤ n := roundDown_le
      _ ≤ 2 ^ (8 * (byteSize m - 1) - 1) :=
        (lt_two_pow_byteSize n).le.trans (Nat.pow_le_pow_right (by decide) (by omega))
      _ ≤ roundDown m := by
        -- The power of two is a multiple of the unit of `m`.
        have hunit : 8 * (byteSize m - 3) ≤ 8 * (byteSize m - 1) - 1 := by omega
        obtain ⟨k, hk⟩ := Nat.exists_eq_add_of_le hunit
        rw [hk, Nat.pow_add, Nat.mul_comm]
        refine Nat.mul_le_mul_right _ ?_
        rw [Nat.le_div_iff_mul_le (by positivity), Nat.mul_comm, ← Nat.pow_add, ← hk]
        exact two_pow_le_of_byteSize hm

end Rounding

/-! ## The conversions round down -/

section Conversions

variable {n size mantissa : Nat}

/-- Fields that are packed are expanded again. -/
theorem packFields_spec (hsize : size < 34) (hmantissa : mantissa < 2 ^ 23) (hpos : 0 < mantissa) :
    ∃ c, packFields size mantissa = .ok c ∧
      toExpanded c = expandFields mantissa ((size : Int) - 3) := by
  have hvalue : (UInt32.ofNat (mantissa + size <<< 24)).toNat = mantissa + size * 2 ^ 24 := by
    rw [UInt32.toNat_ofNat', Nat.shiftLeft_eq]
    exact Nat.mod_eq_of_lt (by omega)
  have hsign : ¬ (mantissa + size * 2 ^ 24) &&& signBit = signBit := by
    have hbit : (mantissa + size * 2 ^ 24).testBit 23 = false := by
      rw [Nat.testBit_eq_decide_div_mod_eq, decide_eq_false_iff_not]
      omega
    have hpow : signBit = 2 ^ 23 := rfl
    rw [hpow, Nat.and_two_pow, hbit]
    decide
  have hpow : unsignedMantissaMask = 2 ^ 23 - 1 := rfl
  have hmask : (mantissa + size * 2 ^ 24) &&& unsignedMantissaMask = mantissa := by
    rw [hpow, Nat.and_two_pow_sub_one_eq_mod]
    omega
  have hexponent : (mantissa + size * 2 ^ 24) >>> 24 = size := by
    omega
  have hfits : mantissa ≤ unsignedMantissaMask := by omega
  refine ⟨⟨UInt32.ofNat (mantissa + size <<< 24)⟩, ?_, ?_⟩
  · unfold packFields
    rw [rejectIf_bind (not_not_intro hsize), rejectIf_bind (not_not_intro hfits),
      rejectIf_bind (not_not_intro hpos)]
  · unfold toExpanded
    simp only [hvalue, if_neg hsign, hmask, hexponent]

/-- A product that fits is not truncated. -/
theorem expandFields_of {mantissa' exponent' : Nat} {exponent : Int}
    (hnormalise : normalise mantissa exponent = some (mantissa', exponent'))
    (hexponent : exponent' ≤ 29) (hvalue : mantissa' * 256 ^ exponent' = n) (hne : n ≠ 0)
    (hn : n < 2 ^ 256) : expandFields mantissa exponent = .ok (some n) := by
  have hpower : 256 ^ exponent' < 2 ^ 256 :=
    calc
      256 ^ exponent' ≤ 256 ^ 29 := Nat.pow_le_pow_right (by decide) hexponent
      _ < 2 ^ 256 := by decide
  rw [expandFields, hnormalise]
  simp only [u256_of_lt hpower, ok_bind, hvalue, u256_of_lt hn, if_neg hne]

/-- A small number is shifted up and back down. -/
theorem normalise_small (hsize : 1 ≤ size) (hsmall : size ≤ 3) :
    normalise (n <<< (8 * (3 - size))) ((size : Int) - 3) = some (n, 0) := by
  unfold normalise
  rw [if_neg (by omega), if_neg (by omega), if_neg (by omega), if_neg (by omega),
    if_neg (by omega)]
  by_cases hneg : (size : Int) - 3 < 0
  · have habs : ((size : Int) - 3).natAbs * 8 = 8 * (3 - size) := by omega
    rw [if_pos hneg, habs, Nat.shiftLeft_shiftRight]
  · have hthree : size = 3 := by omega
    rw [if_neg hneg, hthree]
    rfl

/-- The mantissa and the exponent of a large number. -/
theorem normalise_large (hlarge : 4 ≤ size) (hsize : size ≤ 33)
    (hfits : size = 33 → mantissa < 2 ^ 16) :
    ∃ mantissa' exponent, normalise mantissa ((size : Int) - 3) = some (mantissa', exponent) ∧
      exponent ≤ 29 ∧ mantissa' * 256 ^ exponent = mantissa * 2 ^ (8 * (size - 3)) := by
  unfold normalise
  rw [if_neg (by omega), if_neg (by omega), if_neg (by omega)]
  by_cases hmax : size = 33
  · subst hmax
    rw [if_neg (by omega), if_pos (by omega)]
    refine ⟨_, _, rfl, le_refl _, ?_⟩
    rw [Nat.shiftLeft_eq]
    ring
  · rw [if_neg (by omega), if_neg (by omega), if_neg (by omega)]
    have hexponent : ((size : Int) - 3).toNat = size - 3 := by omega
    refine ⟨_, _, rfl, by omega, ?_⟩
    rw [hexponent, show 256 = 2 ^ 8 from rfl, ← Nat.pow_mul]

/-- A number that is compacted and expanded is rounded down. -/
theorem expand_compact (hpos : 0 < n) (hn : n < 2 ^ 256) :
    ∃ c, toCompact n = .ok c ∧ toExpanded c = .ok (some (roundDown n)) := by
  have hne : n ≠ 0 := by omega
  have hsize : byteSize n < 34 := by
    have hlog : n.log2 < 256 := (Nat.log2_lt hne).mpr hn
    unfold byteSize bits
    rw [if_neg hne]
    omega
  have hone : 1 ≤ byteSize n := Nat.le_add_left 1 _
  have hlt := lt_two_pow_byteSize n
  by_cases hsmall : n ≤ unsignedMantissaMask
  · have hthree : byteSize n ≤ 3 := by
      have hlog : n.log2 < 23 := (Nat.log2_lt hne).mpr (Nat.lt_of_le_pred (by decide) hsmall)
      unfold byteSize bits
      rw [if_neg hne]
      omega
    have hround : roundDown n = n := by
      unfold roundDown
      rw [show byteSize n - 3 = 0 by omega]
      simp
    have hmantissa : n <<< (8 * (3 - byteSize n)) < 2 ^ 23 := by
      rw [Nat.shiftLeft_eq]
      calc
        n * 2 ^ (8 * (3 - byteSize n))
          < 2 ^ (8 * byteSize n - 1) * 2 ^ (8 * (3 - byteSize n)) :=
            Nat.mul_lt_mul_of_pos_right hlt (by positivity)
        _ = 2 ^ 23 := by
            rw [← Nat.pow_add]
            congr 1
            omega
    have hmantissaPos : 0 < n <<< (8 * (3 - byteSize n)) := by
      rw [Nat.shiftLeft_eq]
      positivity
    obtain ⟨c, hpack, hexpand⟩ := packFields_spec hsize hmantissa hmantissaPos
    refine ⟨c, ?_, ?_⟩
    · rw [toCompact, rejectIf_bind hne, if_pos hsmall, hpack]
    · rw [hexpand, hround]
      exact expandFields_of (normalise_small hone hthree) (by decide) (Nat.mul_one n) hne hn
  · have hfour : 4 ≤ byteSize n := by
      have hge : 2 ^ 23 ≤ n := by
        have hmask : unsignedMantissaMask = 2 ^ 23 - 1 := rfl
        omega
      have hlog : 23 ≤ n.log2 := (Nat.le_log2 hne).mpr hge
      unfold byteSize bits
      rw [if_neg hne]
      omega
    have hshift : n >>> (8 * (byteSize n - 3)) = n / 2 ^ (8 * (byteSize n - 3)) :=
      Nat.shiftRight_eq_div_pow _ _
    have hmantissa : n >>> (8 * (byteSize n - 3)) < 2 ^ 23 := by
      rw [hshift, Nat.div_lt_iff_lt_mul (by positivity), ← Nat.pow_add]
      exact hlt.trans_le (Nat.pow_le_pow_right (by decide) (by omega))
    have hmantissaPos : 0 < n >>> (8 * (byteSize n - 3)) := by
      rw [hshift]
      refine Nat.div_pos ?_ (by positivity)
      exact (Nat.pow_le_pow_right (by decide) (by omega)).trans (two_pow_le_of_byteSize hne)
    have hfits : byteSize n = 33 → n >>> (8 * (byteSize n - 3)) < 2 ^ 16 := by
      intro hmax
      rw [hshift, hmax, Nat.div_lt_iff_lt_mul (by positivity), ← Nat.pow_add]
      exact hn
    obtain ⟨mantissa, exponent, hnormalise, hexponent, hvalue⟩ :=
      normalise_large hfour (by omega) hfits
    have hround : mantissa * 256 ^ exponent = roundDown n := by
      rw [hvalue, hshift]
      rfl
    have hroundPos : roundDown n ≠ 0 := by
      rw [← hround, hvalue]
      positivity
    obtain ⟨c, hpack, hexpand⟩ := packFields_spec hsize hmantissa hmantissaPos
    refine ⟨c, ?_, ?_⟩
    · rw [toCompact, rejectIf_bind hne, if_neg hsmall, hpack]
    · rw [hexpand]
      exact expandFields_of hnormalise hexponent hround hroundPos ((roundDown_le).trans_lt hn)

end Conversions

/-! ## A normal form -/

section NormalForm

variable {n k : Nat} {c : CompactDifficulty}

/-- The format drops less than one part in 2^15. -/
theorem sub_roundDown_lt (hn : n ≠ 0) : (n - roundDown n) * 2 ^ 15 < n := by
  have hsplit := Nat.div_add_mod' n (2 ^ (8 * (byteSize n - 3)))
  have hmod := Nat.mod_lt n (Nat.two_pow_pos (8 * (byteSize n - 3)))
  have hdrop : n - roundDown n = n % 2 ^ (8 * (byteSize n - 3)) := by
    unfold roundDown
    omega
  rw [hdrop]
  by_cases hsize : byteSize n ≤ 3
  · rw [show byteSize n - 3 = 0 by omega, Nat.mul_zero, Nat.pow_zero, Nat.mod_one,
      Nat.zero_mul]
    exact Nat.pos_of_ne_zero hn
  · calc
      n % 2 ^ (8 * (byteSize n - 3)) * 2 ^ 15 < 2 ^ (8 * (byteSize n - 3)) * 2 ^ 15 :=
        Nat.mul_lt_mul_of_pos_right hmod (by decide)
      _ = 2 ^ (8 * (byteSize n - 1) - 1) := by
        rw [← Nat.pow_add]
        congr 1
        omega
      _ ≤ n := two_pow_le_of_byteSize hn

theorem byteSize_le (hk : 0 < k) (h : n < 2 ^ (8 * k - 1)) : byteSize n ≤ k := by
  unfold byteSize bits
  split
  · omega
  · rename_i hn
    have hlog : n.log2 < 8 * k - 1 := (Nat.log2_lt hn).mpr h
    omega

/-- A mantissa of 23 bits is kept. -/
theorem roundDown_mantissa {mantissa exponent : Nat} (h : mantissa < 2 ^ 23) :
    roundDown (mantissa * 256 ^ exponent) = mantissa * 256 ^ exponent := by
  have hpow : 256 ^ exponent = 2 ^ (8 * exponent) := by
    rw [Nat.pow_mul]
  have hlt : mantissa * 256 ^ exponent < 2 ^ (8 * (exponent + 3) - 1) := by
    rw [hpow, show 8 * (exponent + 3) - 1 = 23 + 8 * exponent by omega, Nat.pow_add]
    exact Nat.mul_lt_mul_of_pos_right h (by positivity)
  have hsize := byteSize_le (by omega) hlt
  have hunit : 2 ^ (8 * (byteSize (mantissa * 256 ^ exponent) - 3)) ∣ 2 ^ (8 * exponent) :=
    Nat.pow_dvd_pow 2 (by omega)
  exact Nat.div_mul_cancel (hunit.trans (Dvd.intro_left mantissa (congrArg _ hpow.symm)))

/-- What is rounded down has the fields of the number itself. -/
theorem toCompact_roundDown (hn : n ≠ 0) : toCompact (roundDown n) = toCompact n := by
  by_cases hsmall : byteSize n ≤ 3
  · unfold roundDown
    rw [show byteSize n - 3 = 0 by omega, Nat.mul_zero, Nat.pow_zero, Nat.div_one, Nat.mul_one]
  · -- The leading bit is kept, and with it the size.
    have hpow : roundDown (2 ^ (8 * (byteSize n - 1) - 1)) = 2 ^ (8 * (byteSize n - 1) - 1) := by
      rw [show 8 * (byteSize n - 1) - 1 = 7 + 8 * (byteSize n - 2) by omega, Nat.pow_add,
        Nat.pow_mul]
      exact roundDown_mantissa (by decide)
    have hge := roundDown_mono (two_pow_le_of_byteSize hn)
    rw [hpow] at hge
    have hsize : byteSize (roundDown n) = byteSize n := by
      apply Nat.le_antisymm (byteSize_mono roundDown_le)
      by_contra hlt
      have hless := lt_two_pow_byteSize (roundDown n)
      have hle : 2 ^ (8 * byteSize (roundDown n) - 1) ≤ 2 ^ (8 * (byteSize n - 1) - 1) :=
        Nat.pow_le_pow_right (by decide) (by omega)
      omega
    have hlarge : ¬ roundDown n ≤ unsignedMantissaMask := by
      have hmask : 2 ^ 23 ≤ 2 ^ (8 * (byteSize n - 1) - 1) :=
        Nat.pow_le_pow_right (by decide) (by omega)
      have hvalue : unsignedMantissaMask = 2 ^ 23 - 1 := rfl
      omega
    have hshift : roundDown n >>> (8 * (byteSize n - 3)) = n >>> (8 * (byteSize n - 3)) := by
      rw [Nat.shiftRight_eq_div_pow, Nat.shiftRight_eq_div_pow]
      exact Nat.mul_div_cancel _ (Nat.two_pow_pos _)
    have hle : roundDown n ≤ n := roundDown_le
    unfold toCompact
    rw [rejectIf_bind (by omega), rejectIf_bind hn, hsize, if_neg hlarge, if_neg (by omega),
      hshift]

theorem normalise_eq_some {mantissa mantissa' exponent' : Nat} {exponent : Int}
    (hmantissa : mantissa < 2 ^ 23)
    (h : normalise mantissa exponent = some (mantissa', exponent')) :
    ∃ m e, m < 2 ^ 23 ∧ mantissa' * 256 ^ exponent' = m * 256 ^ e := by
  unfold normalise at h
  split_ifs at h <;> cases h
  · exact ⟨mantissa, 31, hmantissa, by rw [Nat.shiftLeft_eq]; ring⟩
  · exact ⟨mantissa, 30, hmantissa, by rw [Nat.shiftLeft_eq]; ring⟩
  · exact ⟨_, 0, (Nat.shiftRight_le _ _).trans_lt hmantissa, rfl⟩
  · exact ⟨mantissa, _, hmantissa, rfl⟩

theorem u256_eq_ok {result : Nat} (h : u256 n = .ok result) : n < 2 ^ 256 ∧ result = n := by
  unfold u256 at h
  split_ifs at h with hlt
  cases h
  exact ⟨hlt, rfl⟩

/-- What a compact difficulty expands to. -/
theorem toExpanded_eq_some {x : Nat} (h : toExpanded c = .ok (some x)) :
    x ≠ 0 ∧ x < 2 ^ 256 ∧ ∃ m e, m < 2 ^ 23 ∧ x = m * 256 ^ e := by
  unfold toExpanded expandFields at h
  split at h
  · cases h
  · split at h
    · cases h
    · rename_i mantissa exponent hnormalise
      have hmask : c.value.toNat &&& unsignedMantissaMask < 2 ^ 23 :=
        Nat.lt_of_le_of_lt Nat.and_le_right (by decide)
      obtain ⟨m, e, hm, hvalue⟩ := normalise_eq_some hmask hnormalise
      obtain ⟨power, hpower, h⟩ := of_bind h
      obtain ⟨result, hresult, h⟩ := of_bind h
      obtain ⟨-, rfl⟩ := u256_eq_ok hpower
      obtain ⟨hlt, rfl⟩ := u256_eq_ok hresult
      by_cases hzero : mantissa * 256 ^ exponent = 0
      · rw [if_pos hzero] at h
        cases h
      · rw [if_neg hzero] at h
        cases h
        exact ⟨hzero, hlt, m, e, hm, hvalue⟩

/-- Compacting is a normal form: it rounds down by less than one part in
2^15, the result compacts to the same value, the order is kept, and
what a compact difficulty expands to is kept as it is. -/
theorem compact_is_normal_form :
    (∀ x, 0 < x → x < 2 ^ 256 → ∃ c y, toCompact x = .ok c ∧ toExpanded c = .ok (some y) ∧
      y ≤ x ∧ (x - y) * 2 ^ 15 < x ∧ toCompact y = .ok c ∧
      ∀ x' c' y', x ≤ x' → x' < 2 ^ 256 → toCompact x' = .ok c' → toExpanded c' = .ok (some y') →
        y ≤ y') ∧
    ∀ c x, toExpanded c = .ok (some x) →
      ∃ c', toCompact x = .ok c' ∧ toExpanded c' = .ok (some x) := by
  constructor
  · intro x hpos hx
    have hne : x ≠ 0 := by omega
    obtain ⟨c, hcompact, hexpand⟩ := expand_compact hpos hx
    refine ⟨c, _, hcompact, hexpand, roundDown_le, sub_roundDown_lt hne, ?_, ?_⟩
    · rw [toCompact_roundDown hne, hcompact]
    · intro x' c' y' hle hx' hcompact' hexpand'
      obtain ⟨d, hd, hexpanded⟩ := expand_compact (by omega) hx'
      cases hcompact'.symm.trans hd
      cases hexpand'.symm.trans hexpanded
      exact roundDown_mono hle
  · intro c x h
    obtain ⟨hne, hx, mantissa, exponent, hmantissa, rfl⟩ := toExpanded_eq_some h
    obtain ⟨c', hcompact, hexpand⟩ := expand_compact (by omega) hx
    rw [roundDown_mantissa hmantissa] at hexpand
    exact ⟨c', hcompact, hexpand⟩

end NormalForm

end Wolf.Difficulty
