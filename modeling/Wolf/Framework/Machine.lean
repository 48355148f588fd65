import Mathlib.Logic.Basic
import Mathlib.Order.Basic

/-! # Machines, runs and simulation

A `Machine` is a labelled transition system. A `Run` is one of its
infinite executions; a finite one is a run that ends by repeating a
step that changes nothing.

* `Run.invariant`: what the initial states have and every step keeps
  holds all along a run.
* `Simulation.exists_tracking`: a run of a machine is tracked, state by
  state and label by label, by a run of any machine that simulates it. -/

namespace Wolf

variable {σ τ ℓ : Type}

structure Machine (σ ℓ : Type) where
  init : σ → Prop
  step : σ → ℓ → σ → Prop

/-- An execution that starts in an initial state and only takes steps. -/
structure Run (M : Machine σ ℓ) where
  state : Nat → σ
  label : Nat → ℓ
  starts : M.init (state 0)
  steps : ∀ n, M.step (state n) (label n) (state (n + 1))

variable {M : Machine σ ℓ}

/-- Invariant rule. -/
@[elab_as_elim]
theorem Run.invariant (r : Run M) {P : Nat → Prop} (hstart : P 0)
    (hstep : ∀ n, P n → M.step (r.state n) (r.label n) (r.state (n + 1)) → P (n + 1)) (n : Nat) :
    P n := by
  induction n with
  | zero => exact hstart
  | succ n ih => exact hstep n ih (r.steps n)

/-- Every step of `M` from a related state is matched by a step of `A`
with the same label. -/
structure Simulation (M : Machine σ ℓ) (A : Machine τ ℓ) (R : σ → τ → Prop) : Prop where
  init : ∀ s, M.init s → ∃ t, A.init t ∧ R s t
  step : ∀ s l s' t, R s t → M.step s l s' → ∃ t', A.step t l t' ∧ R s' t'

/-- A run of the abstract machine beside a run of the concrete one. -/
structure Tracking {M : Machine σ ℓ} (r : Run M) (A : Machine τ ℓ) (R : σ → τ → Prop) where
  run : Run A
  label : ∀ n, run.label n = r.label n
  related : ∀ n, R (r.state n) (run.state n)

/-- Runs of a simulated machine are tracked. -/
theorem Simulation.exists_tracking {A : Machine τ ℓ} {R : σ → τ → Prop} (h : Simulation M A R)
    (r : Run M) : Nonempty (Tracking r A R) := by
  obtain ⟨t₀, hinit, hrel₀⟩ := h.init _ (r.starts)
  -- The abstract states are chosen one after the other.
  let next : ∀ n, { t // R (r.state n) t } → { t // R (r.state (n + 1)) t } := fun n t =>
    ⟨(h.step _ _ _ t.1 t.2 (r.steps n)).choose,
      (h.step _ _ _ t.1 t.2 (r.steps n)).choose_spec.2⟩
  let states : ∀ n, { t // R (r.state n) t } := fun n => Nat.rec ⟨t₀, hrel₀⟩ next n
  have hsteps : ∀ n, A.step (states n).1 (r.label n) (states (n + 1)).1 := by
    intro n
    exact (h.step _ _ _ (states n).1 (states n).2 (r.steps n)).choose_spec.1
  exact ⟨⟨fun n => (states n).1, r.label, hinit, hsteps⟩, fun _ => rfl, fun n => (states n).2⟩

end Wolf
