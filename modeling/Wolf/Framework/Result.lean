import Mathlib.Tactic.Common

/-! # Fallible computations

The `Result` type of the sources is `Except`. This module collects
the few rules that the proofs use to take a chain of fallible steps
apart (`of_bind`, `of_rejectIf_bind`) and to run it forwards
(`ok_bind`, `rejectIf_bind`).

* `okOr o e` is `o.ok_or(e)`. -/

namespace Wolf

universe u v

variable {ε ε' : Type u} {α β : Type v} {x : Except ε α} {f : α → Except ε β} {c : Prop}
  {o : Option α} {e : ε}

/-- The early return `if c { return Err(e) }`. -/
def rejectIf (c : Prop) [Decidable c] (e : ε) : Except ε Unit :=
  if c then .error e else .ok ()

def okOr (o : Option α) (e : ε) : Except ε α :=
  match o with
  | none => .error e
  | some a => .ok a

def mapErr {ε' : Type u} (f : ε → ε') (x : Except ε α) : Except ε' α :=
  match x with
  | .ok a => .ok a
  | .error e => .error (f e)

/-! ## Taking a chain apart -/

theorem bind_eq_ok {b : β} : (x >>= f) = .ok b ↔ ∃ a, x = .ok a ∧ f a = .ok b := by
  rcases x with e | a <;> simp [bind, Except.bind]

theorem of_bind {b : β} (h : (x >>= f) = .ok b) : ∃ a, x = .ok a ∧ f a = .ok b :=
  bind_eq_ok.mp h

theorem bind_eq_error : (x >>= f) = .error e ↔ x = .error e ∨ ∃ a, x = .ok a ∧ f a = .error e := by
  rcases x with e' | a <;> simp [bind, Except.bind]

theorem rejectIf_eq_ok [Decidable c] {u : Unit} : rejectIf c e = .ok u ↔ ¬ c := by
  unfold rejectIf
  split <;> simp_all

/-- A requirement that was checked. -/
theorem of_rejectIf [Decidable (¬ c)] {u : Unit} (h : rejectIf (¬ c) e = .ok u) : c :=
  not_not.mp (rejectIf_eq_ok.mp h)

theorem okOr_eq_ok {a : α} : okOr o e = .ok a ↔ o = some a := by
  cases o <;> simp [okOr]

theorem okOr_eq_error {e' : ε} : okOr o e = .error e' ↔ o = none ∧ e = e' := by
  cases o <;> simp [okOr]

theorem mapErr_eq_ok {f : ε → ε'} {a : α} : mapErr f x = .ok a ↔ x = .ok a := by
  cases x <;> simp [mapErr]

theorem mapErr_eq_error {f : ε → ε'} {e' : ε'} :
    mapErr f x = .error e' ↔ ∃ e, x = .error e ∧ f e = e' := by
  cases x <;> simp [mapErr]

section Steps

variable {γ : Type} {g : Unit → Except ε γ} {b : γ} {d : β}

theorem of_rejectIf_bind [Decidable c] (h : (rejectIf c e >>= g) = .ok b) : ¬ c ∧ g () = .ok b := by
  obtain ⟨_, hc, h⟩ := of_bind h
  exact ⟨rejectIf_eq_ok.mp hc, h⟩

theorem of_require_bind [Decidable (¬ c)] (h : (rejectIf (¬ c) e >>= g) = .ok b) :
    c ∧ g () = .ok b := by
  obtain ⟨_, hc, h⟩ := of_bind h
  exact ⟨of_rejectIf hc, h⟩

theorem of_okOr_bind (h : (okOr o e >>= f) = .ok d) : ∃ a, o = some a ∧ f a = .ok d := by
  obtain ⟨a, ho, h⟩ := of_bind h
  exact ⟨a, okOr_eq_ok.mp ho, h⟩

/-- Two steps at once, if their results do not matter. -/
theorem of_two_binds {δ : Type v} {g : α → β → Except ε δ} {r : δ}
    (h : (x >>= fun a => f a >>= g a) = .ok r) : ∃ a b, g a b = .ok r := by
  obtain ⟨a, _, h⟩ := of_bind h
  obtain ⟨b, _, h⟩ := of_bind h
  exact ⟨a, b, h⟩

theorem of_mapErr_bind {k : ε' → ε} {x : Except ε' α} (h : (mapErr k x >>= f) = .ok d) :
    ∃ a, x = .ok a ∧ f a = .ok d := by
  obtain ⟨a, hx, h⟩ := of_bind h
  exact ⟨a, mapErr_eq_ok.mp hx, h⟩

end Steps

theorem pure_eq_ok {a b : α} : (pure a : Except ε α) = .ok b ↔ a = b := by
  simp [pure, Except.pure]

theorem exists_of_isOk (h : x.isOk = true) : ∃ a, x = .ok a := by
  cases x with
  | error e => cases h
  | ok a => exact ⟨a, rfl⟩

/-- A loop that only checks succeeds if every round does. -/
theorem forM_eq_ok {f : α → Except ε Unit} {xs : List α} :
    xs.forM f = .ok () ↔ ∀ x ∈ xs, f x = .ok () := by
  induction xs with
  | nil => simp [pure, Except.pure]
  | cons x xs ih =>
    have hcons : (x :: xs).forM f = f x >>= fun _ => xs.forM f := rfl
    rw [hcons, bind_eq_ok]
    constructor
    · rintro ⟨⟨⟩, hx, hxs⟩ y hy
      rcases List.mem_cons.mp hy with rfl | hy
      · exact hx
      · exact ih.mp hxs y hy
    · intro h
      exact ⟨(), h x List.mem_cons_self, ih.mpr fun y hy => h y (List.mem_cons_of_mem _ hy)⟩

/-! ## Running a chain forwards -/

@[simp] theorem ok_bind (a : α) : (Except.ok a >>= f) = f a := rfl

@[simp] theorem error_bind : ((Except.error e : Except ε α) >>= f) = .error e := rfl

@[simp] theorem okOr_some (a : α) : okOr (some a) e = .ok a := rfl

theorem okOr_bind (a : α) : (okOr (some a) e >>= f) = f a := rfl

@[simp] theorem mapErr_ok (f : ε → ε') (a : α) : mapErr f (Except.ok a : Except ε α) = .ok a := rfl

theorem rejectIf_of_not [Decidable c] (h : ¬ c) : rejectIf c e = .ok () := by
  simp [rejectIf, h]

/-- A chain succeeds if each of its parts does. -/
theorem exists_bind_ok (hx : ∃ a, x = .ok a) (hf : ∀ a, ∃ b, f a = .ok b) :
    ∃ b, (x >>= f) = .ok b := by
  obtain ⟨a, rfl⟩ := hx
  exact hf a

theorem rejectIf_bind {γ : Type} [Decidable c] (h : ¬ c) (f : Unit → Except ε γ) :
    (rejectIf c e >>= f) = f () := by
  rw [rejectIf_of_not h]
  rfl

theorem rejectIf_of_pos [Decidable c] (h : c) : rejectIf c e = .error e := by
  simp [rejectIf, h]

theorem toOption_eq_some {x : Except ε α} {a : α} : x.toOption = some a ↔ x = .ok a := by
  cases x <;> simp [Except.toOption]

end Wolf
