import Mathlib.Algebra.Group.Defs
import Wolf.Framework.Result

/-! # Bounded integers and checked sums

A sum of bounded integers is checked after every addition. -/

namespace Wolf

open List

/-- An integer between two inclusive bounds. -/
structure Bounded (lo hi : Int) where
  val : Int
  lo_le : lo ≤ val
  le_hi : val ≤ hi
  deriving DecidableEq

namespace Bounded

variable {ε : Type} {lo hi v : Int}

@[ext] theorem ext {a b : Bounded lo hi} (h : a.val = b.val) : a = b := by
  cases a; cases b; cases h; rfl

/-- The conversion of an integer; the error may carry the rejected value. -/
def check (lo hi : Int) (err : Int → ε) (v : Int) : Except ε (Bounded lo hi) :=
  if h : lo ≤ v ∧ v ≤ hi then .ok ⟨v, h.1, h.2⟩ else .error (err v)

theorem check_eq_ok {err : Int → ε} {a : Bounded lo hi} :
    check lo hi err v = .ok a ↔ a.val = v := by
  unfold check
  split
  · simp only [Except.ok.injEq, Bounded.ext_iff]
    exact eq_comm
  · rename_i h
    simp only [reduceCtorEq, false_iff]
    intro heq
    exact h ⟨heq ▸ a.lo_le, heq ▸ a.le_hi⟩

theorem check_of_mem (err : Int → ε) (hlo : lo ≤ v) (hhi : v ≤ hi) :
    check lo hi err v = .ok ⟨v, hlo, hhi⟩ :=
  dif_pos ⟨hlo, hhi⟩

/-- A value moved into a wider range. -/
def widen {lo' hi' : Int} (a : Bounded lo hi) (hlo : lo' ≤ lo) (hhi : hi ≤ hi') : Bounded lo' hi' :=
  ⟨a.val, Int.le_trans hlo a.lo_le, Int.le_trans a.le_hi hhi⟩

end Bounded

/-! ## Fallible folds -/

section Folds

variable {ε σ α M : Type} {body : σ → α → Except ε σ}

/-- What every step adds, summed over a successful fold. -/
theorem foldlM_sum [AddMonoid M] (measure : σ → M) (weight : α → M) {items : List α}
    (hstep : ∀ item ∈ items, ∀ {s s' : σ}, body s item = .ok s' →
      measure s' = measure s + weight item)
    {s s' : σ} (h : items.foldlM body s = .ok s') :
    measure s' = measure s + (items.map weight).sum := by
  induction items generalizing s with
  | nil =>
    rw [foldlM_nil, pure_eq_ok] at h
    rw [h, map_nil, sum_nil, add_zero]
  | cons item rest ih =>
    rw [foldlM_cons, bind_eq_ok] at h
    obtain ⟨mid, hmid, hrest⟩ := h
    have hitem := hstep item mem_cons_self hmid
    have hsum := ih (fun other hother => hstep other (mem_cons_of_mem _ hother)) hrest
    rw [hsum, hitem, map_cons, sum_cons, add_assoc]

end Folds

end Wolf
