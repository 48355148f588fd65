import Mathlib.Tactic.Common
import Mathlib.Data.List.Basic

/-! # Lines of a buffered reader

A buffered reader delivers its input in chunks of any size, and reading
can fail. `readLine` collects the chunks of one line, with a check of
the size reached before each chunk is kept.

* `Delivers faults reader content`: the chunks of `reader` make up
  `content`; a failing read is possible only where `faults` holds. -/

namespace Wolf

open List

variable {α E ε : Type}

/-- The successive results of `fill_buf` after the chunk is consumed. -/
abbrev Reader (α E : Type) : Type := List (Except E (List α))

/-- One line, without its terminator. -/
structure Line (α : Type) where
  bytes : List α
  terminated : Bool

/-- The chunks of the reader make up the content. -/
inductive Delivers (faults : Prop) : Reader α E → List α → Prop where
  | done : Delivers faults [] []
  | chunk {c : List α} {reader : Reader α E} {content : List α} (hne : c ≠ [])
      (h : Delivers faults reader content) : Delivers faults (.ok c :: reader) (c ++ content)
  | failed {e : E} {reader : Reader α E} {content : List α} (h : faults) :
      Delivers faults (.error e :: reader) content

/-- The reader after part of its first chunk was consumed. -/
def pushChunk (c : List α) (reader : Reader α E) : Reader α E :=
  match c with
  | [] => reader
  | _ :: _ => .ok c :: reader

/-- Reads up to the next `sep` or to the end of the input. `checkSize`
sees the length reached and whether the terminator was found. An empty
chunk is the end of the input. -/
def readLine [DecidableEq α] (sep : α) (fail : E → ε) (checkSize : Nat → Bool → Except ε Unit)
    (line : List α) : Reader α E → Except ε (Option (Line α) × Reader α E)
  | [] => .ok (if line = [] then none else some ⟨line, false⟩, [])
  | .error e :: _ => .error (fail e)
  | .ok available :: reader =>
    if available = [] then
      .ok (if line = [] then none else some ⟨line, false⟩, .ok available :: reader)
    else
      match available.idxOf? sep with
      | some position => do
        checkSize (line.length + position) true
        .ok (some ⟨line ++ available.take position, true⟩,
          pushChunk (available.drop (position + 1)) reader)
      | none => do
        checkSize (line.length + available.length) false
        readLine sep fail checkSize (line ++ available) reader

variable {reader : Reader α E} {content c : List α} {sep : α}

theorem Delivers.pushChunk {faults : Prop} (h : Delivers faults reader content) :
    Delivers faults (pushChunk c reader) (c ++ content) := by
  cases c with
  | nil => exact h
  | cons a as => exact .chunk (cons_ne_nil a as) h

/-- A chunk without separator lies inside the line. -/
theorem chunk_inside_line {body rest : List α} (hc : sep ∉ c)
    (h : c ++ content = body ++ sep :: rest) :
    ∃ body', body = c ++ body' ∧ content = body' ++ sep :: rest := by
  rcases append_eq_append_iff.mp h with ⟨body', hbody, hcontent⟩ | ⟨c', hbody, hrest⟩
  · exact ⟨body', hbody, hcontent⟩
  · cases c' with
    | nil =>
      rw [append_nil] at hbody
      exact ⟨[], by rw [append_nil, hbody], hrest.symm⟩
    | cons y ys =>
      have hy : sep = y := (List.cons.inj hrest).1
      rw [hbody] at hc
      exact absurd (hy ▸ mem_append_right _ mem_cons_self) hc

variable [DecidableEq α]

theorem idxOf?_append_sep {a b : List α} (ha : sep ∉ a) :
    (a ++ sep :: b).idxOf? sep = some a.length := by
  induction a with
  | nil => simp [List.idxOf?_cons]
  | cons z zs ih =>
    have hz : z ≠ sep := by
      intro h
      exact ha (h ▸ mem_cons_self)
    rw [cons_append, List.idxOf?_cons, ih (fun hmem => ha (mem_cons_of_mem _ hmem))]
    simp [hz]

/-- The first separator splits a list in one way. -/
theorem append_sep_inj {a b d : List α} (ha : sep ∉ a) (hc : sep ∉ c)
    (h : a ++ sep :: b = c ++ sep :: d) : a = c ∧ b = d := by
  -- It stands at one position.
  have hlength := congrArg (List.idxOf? sep) h
  rw [idxOf?_append_sep ha, idxOf?_append_sep hc] at hlength
  obtain ⟨hac, hbd⟩ := append_inj h (Option.some.inj hlength)
  exact ⟨hac, (List.cons.inj hbd).2⟩

variable {sep : α} {fail : E → ε} {checkSize : Nat → Bool → Except ε Unit} {faults : Prop}

/-- A chunk without separator is kept whole. -/
theorem readLine_chunk {line : List α} (hne : c ≠ []) (hsep : sep ∉ c)
    (hsize : checkSize (line.length + c.length) false = .ok ()) :
    readLine sep fail checkSize line (.ok c :: reader) =
      readLine sep fail checkSize (line ++ c) reader := by
  show (if c = [] then _ else _) = _
  rw [if_neg hne, List.idxOf?_eq_none_iff.mpr hsep]
  show (checkSize (line.length + c.length) false >>= _) = _
  rw [hsize]
  rfl

/-- A line with its terminator is read, and the reader stands behind it. -/
theorem readLine_terminated (fail : E → ε) (checkSize : Nat → Bool → Except ε Unit) (line : List α)
    {body rest : List α} (hd : Delivers faults reader (body ++ sep :: rest)) (hsep : sep ∉ body)
    (hsize : ∀ n ≤ line.length + body.length, checkSize n false = .ok ())
    (hlast : checkSize (line.length + body.length) true = .ok ()) :
    (∃ reader', readLine sep fail checkSize line reader
        = .ok (some ⟨line ++ body, true⟩, reader') ∧ Delivers faults reader' rest) ∨
      (faults ∧ ∃ e, readLine sep fail checkSize line reader = .error (fail e)) := by
  generalize hcontent : body ++ sep :: rest = content at hd
  induction hd generalizing line body with
  | done => exact absurd hcontent (by simp)
  | failed h => exact .inr ⟨h, _, rfl⟩
  | @chunk c reader content hne hdel ih =>
    by_cases hmem : sep ∈ c
    · -- The terminator is in this chunk.
      obtain ⟨a, b, rfl, ha⟩ := eq_append_cons_of_mem hmem
      have hsplit : body ++ sep :: rest = a ++ sep :: (b ++ content) := by
        rw [hcontent, append_assoc, cons_append]
      obtain ⟨rfl, rfl⟩ := append_sep_inj hsep ha hsplit
      left
      refine ⟨pushChunk b reader, ?_, hdel.pushChunk⟩
      show (if _ then _ else _) = _
      rw [if_neg hne, idxOf?_append_sep ha]
      show (checkSize (line.length + body.length) true >>= _) = _
      rw [hlast]
      simp [bind, Except.bind]
    · -- The chunk is a part of the line; the rest of it follows.
      obtain ⟨body', rfl, rfl⟩ := chunk_inside_line hmem hcontent.symm
      rw [readLine_chunk hne hmem (hsize _ (by rw [length_append]; omega))]
      rw [length_append, ← Nat.add_assoc, ← length_append] at hsize hlast
      have hrest := @ih (line ++ c) body' (fun h => hsep (mem_append_right _ h)) hsize hlast rfl
      rw [append_assoc] at hrest
      exact hrest

/-- What is left without a terminator is read up to the end. -/
theorem readLine_unterminated (fail : E → ε) (checkSize : Nat → Bool → Except ε Unit)
    (line : List α) (hd : Delivers faults reader content) (hsep : sep ∉ content)
    (hsize : ∀ n ≤ line.length + content.length, checkSize n false = .ok ()) :
    readLine sep fail checkSize line reader =
        .ok (if line ++ content = [] then none else some ⟨line ++ content, false⟩, []) ∨
      (faults ∧ ∃ e, readLine sep fail checkSize line reader = .error (fail e)) := by
  induction hd generalizing line with
  | done =>
    left
    rw [append_nil]
    rfl
  | failed h => exact .inr ⟨h, _, rfl⟩
  | @chunk c reader content hne hdel ih =>
    have hc : sep ∉ c := fun h => hsep (mem_append_left _ h)
    rw [readLine_chunk hne hc (hsize _ (by rw [length_append]; omega))]
    rw [length_append, ← Nat.add_assoc, ← length_append] at hsize
    have hrest := @ih (line ++ c) (fun h => hsep (mem_append_right _ h)) hsize
    rw [append_assoc] at hrest
    exact hrest

end Wolf
