import Mathlib.Data.Nat.Cast.Order.Field
import Mathlib.Data.Rat.Cast.Order
import Mathlib.Order.Iterate
import Mathlib.Tactic.Linarith
import Mathlib.Tactic.FieldSimp
import Mathlib.Tactic.Ring
import Mathlib.Tactic.Positivity
import Mathlib.Tactic.GCongr

/-! # Geometric decay with floored steps

`decay a b r = r - ⌊a * r / b⌋` takes the fraction `a / b` off an
amount, rounded down. The rounding makes the exact value after many
steps irregular, so it is bracketed:

* `decay` is monotone, hence so is a run of it;
* after `k` steps the amount lies between `(1 - a / b) ^ k * r` and the
  same sequence around the offset `(b - 1) / a` (`iterate_decay_ge`,
  `iterate_decay_le`);
* `fixedPow` gives both bounds on the power in `O(log k)` operations on
  numbers of a fixed size.

A bracket for a long run is a power for its first part and single
steps for the rest, started at the bound of the first part. -/

namespace Wolf

/-! ## One step -/

/-- An amount less the fraction `a / b` of it, rounded down. -/
def decay (a b r : Nat) : Nat := r - a * r / b

variable {a b : Nat}

section

variable (hab : a ≤ b)

include hab

theorem floor_le (r : Nat) : a * r / b ≤ r :=
  Nat.div_le_of_le_mul (Nat.mul_le_mul_right r hab)

/-- Taking off a fraction keeps amounts in order. -/
theorem decay_mono (hb : 0 < b) : Monotone (decay a b) := by
  intro r s hrs
  obtain ⟨t, rfl⟩ := Nat.exists_eq_add_of_le hrs
  -- The larger amount has at most `t` more taken off.
  have hstep : a * (r + t) / b ≤ a * r / b + t := by
    calc a * (r + t) / b = (a * r + a * t) / b := by rw [Nat.mul_add]
      _ ≤ (a * r + t * b) / b := by
          apply Nat.div_le_div_right
          rw [Nat.mul_comm t b]
          exact Nat.add_le_add_left (Nat.mul_le_mul_right t hab) _
      _ = a * r / b + t := Nat.add_mul_div_right _ _ hb
  unfold decay
  omega

theorem cast_decay (r : Nat) : (decay a b r : ℚ) = r - (a * r / b : Nat) := by
  rw [decay, Nat.cast_sub (floor_le hab r)]

/-- One step keeps at least the exact fraction. -/
theorem decay_ge (r : Nat) : (1 - a / b : ℚ) * r ≤ decay a b r := by
  have hfloor : ((a * r / b : Nat) : ℚ) ≤ (a * r : Nat) / (b : ℚ) := Nat.cast_div_le
  rw [cast_decay hab]
  push_cast at hfloor
  have hring : (1 - a / b : ℚ) * r = r - a * r / b := by ring
  linarith

/-- One step keeps less than one unit more than the exact fraction. -/
theorem decay_le (hb : 0 < b) (r : Nat) : (decay a b r : ℚ) ≤ (1 - a / b) * r + (b - 1) / b := by
  have hb' : (0 : ℚ) < b := by exact_mod_cast hb
  have hrem : a * r % b + 1 ≤ b := Nat.mod_lt _ hb
  have hdiv : b * (a * r / b) + a * r % b = a * r := Nat.div_add_mod _ _
  have hrem' : ((a * r % b : Nat) : ℚ) + 1 ≤ b := by exact_mod_cast hrem
  have hdiv' : (b : ℚ) * (a * r / b : Nat) + (a * r % b : Nat) = a * r := by exact_mod_cast hdiv
  have hfloor : ((a * r : ℚ) - (b - 1)) / b ≤ (a * r / b : Nat) := by
    rw [div_le_iff₀ hb']
    linarith
  rw [cast_decay hab]
  have hring : (1 - a / b : ℚ) * r + (b - 1) / b = r - ((a * r : ℚ) - (b - 1)) / b := by
    field_simp
    ring
  linarith

/-! ## Many steps -/

theorem rate_nonneg (hb : 0 < b) : (0 : ℚ) ≤ 1 - a / b := by
  have hb' : (0 : ℚ) < b := by exact_mod_cast hb
  have hab' : (a : ℚ) ≤ b := by exact_mod_cast hab
  have := div_le_one_of_le₀ hab' hb'.le
  linarith

theorem iterate_decay_ge (hb : 0 < b) (k r : Nat) :
    (1 - a / b : ℚ) ^ k * r ≤ ((decay a b)^[k] r : Nat) := by
  induction k with
  | zero => simp
  | succ k ih =>
    rw [Function.iterate_succ_apply']
    calc (1 - a / b : ℚ) ^ (k + 1) * r = (1 - a / b) * ((1 - a / b) ^ k * r) := by ring
      _ ≤ (1 - a / b) * ((decay a b)^[k] r : Nat) :=
          mul_le_mul_of_nonneg_left ih (rate_nonneg hab hb)
      _ ≤ (decay a b ((decay a b)^[k] r) : Nat) := decay_ge hab _

end

/-- Around the offset `(b - 1) / a`, which absorbs the rounding, a run is
at most geometric. -/
theorem iterate_decay_le (ha : 0 < a) (hab : a ≤ b) (k r : Nat) :
    (((decay a b)^[k] r : Nat) : ℚ) ≤
      (b - 1) / a + (1 - a / b) ^ k * (r - (b - 1) / a) := by
  have hb : 0 < b := Nat.lt_of_lt_of_le ha hab
  induction k with
  | zero => simp
  | succ k ih =>
    rw [Function.iterate_succ_apply']
    -- The offset is the fixed point of the affine bound of one step.
    have hfix : (b - 1 : ℚ) / b = (b - 1) / a - (1 - a / b) * ((b - 1) / a) := by
      field_simp
      ring
    calc ((decay a b ((decay a b)^[k] r) : Nat) : ℚ)
        ≤ (1 - a / b) * ((decay a b)^[k] r : Nat) + (b - 1) / b := decay_le hab hb _
      _ ≤ (1 - a / b) * ((b - 1) / a + (1 - a / b) ^ k * (r - (b - 1) / a)) + (b - 1) / b := by
          have := mul_le_mul_of_nonneg_left ih (rate_nonneg hab hb)
          linarith
      _ = (b - 1) / a + (1 - a / b) ^ (k + 1) * (r - (b - 1) / a) := by
          rw [hfix]
          ring

/-! ## Fixed-point powers -/

/-- The power `(base / scale) ^ e` by repeated squaring, as a multiple of
`1 / scale`; every division is rounded down and then raised by `round`.
`fuel` bounds the number of binary digits of `e`. -/
def fixedPow (scale base round : Nat) : (fuel e : Nat) → Nat
  | 0, _ => scale
  | fuel + 1, e =>
    let square := fixedPow scale base round fuel (e / 2) ^ 2 / scale + round
    if e % 2 = 1 then square * base / scale + round else square

variable {scale base fuel e : Nat}

theorem pow_split (q : ℚ) : q ^ e = (q ^ (e / 2)) ^ 2 * if e % 2 = 1 then q else 1 := by
  conv_lhs => rw [← Nat.div_add_mod e 2, pow_add, Nat.mul_comm 2, pow_mul]
  rcases Nat.mod_two_eq_zero_or_one e with h | h
  · simp [h]
  · simp [h]

/-- A bound that each rounded division keeps is one on the whole power. -/
theorem fixedPow_rel {R : ℚ → ℚ → Prop} {round : Nat} (hs : 0 < scale) (hrefl : ∀ x, R x x)
    (htrans : ∀ {x y z}, R x y → R y z → R x z)
    (hmul : ∀ {x y z : ℚ}, 0 ≤ z → R x y → R (x * z) (y * z))
    (hround : ∀ n : Nat, R (n / scale) (n / scale + round : Nat)) (he : e < 2 ^ fuel) :
    R (((base : ℚ) / scale) ^ e * scale) (fixedPow scale base round fuel e) := by
  induction fuel generalizing e with
  | zero =>
    obtain rfl : e = 0 := by simpa using he
    simpa [fixedPow] using hrefl scale
  | succ fuel ih =>
    have hhalf := ih (e := e / 2) (by rw [Nat.pow_succ] at he; omega)
    rw [pow_split, fixedPow]
    generalize fixedPow scale base round fuel (e / 2) = root at hhalf ⊢
    generalize hq : ((base : ℚ) / scale) ^ (e / 2) = q at hhalf ⊢
    have hpos : 0 ≤ q := by
      rw [← hq]
      positivity
    have hsquare : R (q ^ 2 * scale) (root ^ 2 / scale + round : Nat) := by
      refine htrans ?_ (hround (root ^ 2))
      have hfirst := hmul hpos hhalf
      have hsecond := hmul (z := root / scale) (by positivity) hhalf
      rw [show q * scale * (root / scale) = root * q by field_simp] at hsecond
      rw [show q * scale * q = q ^ 2 * scale by ring] at hfirst
      rw [show ((root ^ 2 : Nat) : ℚ) / scale = root * (root / scale) by push_cast; ring]
      exact htrans hfirst hsecond
    rcases Nat.mod_two_eq_zero_or_one e with h | h
    · simpa [h] using hsquare
    · simp only [h, if_true]
      refine htrans ?_ (hround _)
      rw [Nat.cast_mul, mul_div_assoc, mul_right_comm]
      exact hmul (by positivity) hsquare

/-- With divisions raised by one unit the power is bounded from above. -/
theorem pow_le_fixedPow (hs : 0 < scale) (he : e < 2 ^ fuel) :
    ((base : ℚ) / scale) ^ e * scale ≤ fixedPow scale base 1 fuel e := by
  refine fixedPow_rel hs le_refl le_trans (fun hz h => mul_le_mul_of_nonneg_right h hz) ?_ he
  intro n
  have hs' : (0 : ℚ) < scale := by exact_mod_cast hs
  rw [div_le_iff₀ hs']
  have h : n ≤ (n / scale + 1) * scale := by
    rw [Nat.mul_comm]
    exact (Nat.lt_mul_div_succ n hs).le
  exact_mod_cast h

/-- With divisions rounded down the power is bounded from below. -/
theorem fixedPow_le_pow (hs : 0 < scale) (he : e < 2 ^ fuel) :
    (fixedPow scale base 0 fuel e : ℚ) ≤ ((base : ℚ) / scale) ^ e * scale :=
  fixedPow_rel (R := (· ≥ ·)) hs le_refl ge_trans (fun hz h => mul_le_mul_of_nonneg_right h hz)
    (fun _ => Nat.cast_div_le) he

/-! ## Single steps, evaluated -/

/-- `decay`, in the operations on literals that evaluate natively. -/
def decayStep (a b r : Nat) : Nat := Nat.sub r (Nat.div (Nat.mul a r) b)

def decaySteps8 (a b r : Nat) : Nat :=
  decayStep a b (decayStep a b (decayStep a b (decayStep a b
    (decayStep a b (decayStep a b (decayStep a b (decayStep a b r)))))))

def decaySteps64 (a b r : Nat) : Nat :=
  decaySteps8 a b (decaySteps8 a b (decaySteps8 a b (decaySteps8 a b
    (decaySteps8 a b (decaySteps8 a b (decaySteps8 a b (decaySteps8 a b r)))))))

/-- Passes on the value of `v`. The match makes evaluation compute `v`
first, so that a long run does not pile up unevaluated steps. -/
def force (v : Nat) (k : Nat → Nat) : Nat :=
  match v with
  | 0 => k 0
  | n + 1 => k (n + 1)

/-- `n` blocks of 64 steps. -/
def decayBlocks (a b : Nat) : Nat → Nat → Nat
  | 0, r => r
  | n + 1, r => force (decaySteps64 a b r) (decayBlocks a b n)

@[simp] theorem force_eq (v : Nat) (k : Nat → Nat) : force v k = k v := by
  cases v with
  | zero => rfl
  | succ n => rfl

theorem decayBlocks_eq (a b n r : Nat) : decayBlocks a b n r = (decay a b)^[64 * n] r := by
  have hblock : ∀ r, decaySteps64 a b r = (decay a b)^[64] r := fun _ => rfl
  induction n generalizing r with
  | zero => rfl
  | succ n ih =>
    rw [decayBlocks, force_eq, ih, hblock, ← Function.iterate_add_apply, Nat.mul_succ]

end Wolf
