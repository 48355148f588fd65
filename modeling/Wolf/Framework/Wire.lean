import Wolf.Framework.Result
import Wolf.Framework.Bytes

/-! # Canonical wire formats

A reader of type `S → Except ε (α × S)` takes a value off the front
of a cursor; `view` says which bytes are left in a cursor. The
reader is *canonical* for a printer `print` on the values `good`
when it accepts exactly the printed form of the good values:

* `complete`: whatever `print` wrote is read back, and reading stops
  right behind it;
* `sound`: whatever is accepted is good and was printed that way.

Canonical readers compose (`convert`, `readMany`), and a canonical
reader that must use up its input is a bijection between the good
values and the accepted byte strings (`whole_iff`, `on_extension`). -/

namespace Wolf

open List

universe u

variable {S : Type} {ε : Type u} {α : Type}

/-- The reader `p` accepts exactly the printed forms of the good values. -/
structure Canonical (view : S → Bytes) (p : S → Except ε (α × S)) (print : α → Bytes)
    (good : α → Prop) : Prop where
  complete : ∀ s a rest, good a → view s = print a ++ rest →
    ∃ s', p s = .ok (a, s') ∧ view s' = rest
  sound : ∀ s a s', p s = .ok (a, s') → good a ∧ view s = print a ++ view s'

namespace Canonical

variable {view : S → Bytes} {p : S → Except ε (α × S)} {print : α → Bytes} {good : α → Prop}

/-- A canonical reader that leaves nothing behind accepts exactly the
printed form of one value. -/
theorem whole_iff (h : Canonical view p print good) {s : S} {a : α} :
    (∃ s', p s = .ok (a, s') ∧ view s' = []) ↔ good a ∧ view s = print a := by
  constructor
  · rintro ⟨s', hp, hnil⟩
    obtain ⟨hgood, hview⟩ := h.sound s a s' hp
    rw [hnil, append_nil] at hview
    exact ⟨hgood, hview⟩
  · rintro ⟨hgood, hview⟩
    apply h.complete s a [] hgood
    rw [hview, append_nil]

/-- On an extension of a printed form the reader stops at the extension. -/
theorem on_extension (h : Canonical view p print good) {s : S} {a : α} {rest : Bytes}
    (hgood : good a) (hview : view s = print a ++ rest) {b : α} {s' : S}
    (hp : p s = .ok (b, s')) : b = a ∧ view s' = rest := by
  obtain ⟨s'', hp', hrest⟩ := h.complete s a rest hgood hview
  rw [hp] at hp'
  obtain ⟨rfl, rfl⟩ := Prod.mk.inj (Except.ok.inj hp')
  exact ⟨rfl, hrest⟩

/-- A value that is converted right after it was read. -/
theorem convert (h : Canonical view p print good) {β : Type} {f : α → β} {print' : β → Bytes}
    (hf : ∀ a, good a → print' (f a) = print a)
    (hread : ∀ b, ∃ a, good a ∧ f a = b) :
    Canonical view (fun s => p s >>= fun r => .ok (f r.1, r.2)) print' fun _ => True := by
  refine ⟨?_, ?_⟩
  · intro s b rest _ hview
    obtain ⟨a, hgood, rfl⟩ := hread b
    rw [hf a hgood] at hview
    obtain ⟨s', hp, hrest⟩ := h.complete s a rest hgood hview
    refine ⟨s', ?_, hrest⟩
    rw [hp, ok_bind]
  · intro s b s' hok
    obtain ⟨⟨a, s₁⟩, hp, hok⟩ := of_bind hok
    obtain ⟨hgood, hview⟩ := h.sound s a s₁ hp
    cases hok
    exact ⟨trivial, by rw [hf a hgood, hview]⟩

end Canonical

/-! ## Repetition -/

/-- Reads `n` values one after the other. -/
def readMany (p : S → Except ε (α × S)) : Nat → S → Except ε (List α × S)
  | 0, s => .ok ([], s)
  | n + 1, s => do
    let (a, s) ← p s
    let (as, s) ← readMany p n s
    .ok (a :: as, s)

/-- Reading `n` values is canonical for the lists of `n` good values. -/
theorem Canonical.readMany {view : S → Bytes} {p : S → Except ε (α × S)} {print : α → Bytes}
    {good : α → Prop} (h : Canonical view p print good) (n : Nat) :
    Canonical view (Wolf.readMany p n) (fun as => as.flatMap print)
      (fun as => as.length = n ∧ ∀ a ∈ as, good a) := by
  induction n with
  | zero =>
    refine ⟨?_, ?_⟩
    · rintro s as rest ⟨hlen, _⟩ hview
      obtain rfl := length_eq_zero_iff.mp hlen
      exact ⟨s, rfl, by simpa using hview⟩
    · intro s as s' hok
      cases hok
      simp
  | succ n ih =>
    refine ⟨?_, ?_⟩
    · rintro s as rest ⟨hlen, hgood⟩ hview
      cases as with
      | nil => simp at hlen
      | cons a as =>
        rw [flatMap_cons, append_assoc] at hview
        obtain ⟨s₁, hp, hview₁⟩ := h.complete s a _ (hgood a (by simp)) hview
        obtain ⟨s₂, hps, hview₂⟩ := ih.complete s₁ as rest
          ⟨by simpa using hlen, fun b hb => hgood b (by simp [hb])⟩ hview₁
        refine ⟨s₂, ?_, hview₂⟩
        simp [Wolf.readMany, hp, hps]
    · intro s as s' hok
      obtain ⟨⟨a, s₁⟩, hp, hok⟩ := of_bind hok
      obtain ⟨⟨bs, s₂⟩, hps, hok⟩ := of_bind hok
      cases hok
      obtain ⟨ha, hview⟩ := h.sound s a s₁ hp
      obtain ⟨⟨hlen, hbs⟩, hview'⟩ := ih.sound s₁ bs s' hps
      refine ⟨⟨by simp [hlen], ?_⟩, ?_⟩
      · intro b hb
        rcases mem_cons.mp hb with rfl | hb
        · exact ha
        · exact hbs b hb
      · rw [hview, hview', flatMap_cons, append_assoc]

end Wolf
