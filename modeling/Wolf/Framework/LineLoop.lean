import Wolf.Framework.Lines
import Mathlib.Algebra.GroupWithZero.Nat
import Wolf.Framework.Result

/-! # Loops over the lines of a reader

A log file is replayed line by line up to its last terminator; what
follows it is a torn tail.

* `forLines`: the loop over a buffered reader. `forLines_eq_ok` says
  that it is the fold over the lines of the content, however the
  content is chunked. -/

namespace Wolf

open List

variable {α E ε σ : Type} {content : List α} {reader reader' : Reader α E} {fail : E → ε}
  {faults : Prop}

/-! ## Lines of a text -/

/-- The complete lines of a text, and what follows the last terminator. -/
def splitLines [DecidableEq α] (sep : α) : List α → List (List α) × List α
  | [] => ([], [])
  | a :: as =>
    if a = sep then ([] :: (splitLines sep as).1, (splitLines sep as).2)
    else match (splitLines sep as).1 with
      | [] => ([], a :: (splitLines sep as).2)
      | line :: lines => ((a :: line) :: lines, (splitLines sep as).2)

section

variable [DecidableEq α] {sep : α}

@[simp] theorem splitLines_nil : splitLines sep ([] : List α) = ([], []) := rfl

/-- A text without terminator is all tail. -/
theorem splitLines_of_notMem (h : sep ∉ content) : splitLines sep content = ([], content) := by
  induction content with
  | nil => rfl
  | cons a as ih =>
    have ha : a ≠ sep := fun heq => h (heq ▸ mem_cons_self)
    rw [splitLines, if_neg ha, ih fun hmem => h (mem_cons_of_mem _ hmem)]

/-- A line in front of a text. -/
theorem splitLines_line {body : List α} (rest : List α) (h : sep ∉ body) :
    splitLines sep (body ++ sep :: rest)
      = (body :: (splitLines sep rest).1, (splitLines sep rest).2) := by
  induction body with
  | nil => simp [splitLines]
  | cons a as ih =>
    have ha : a ≠ sep := fun heq => h (heq ▸ mem_cons_self)
    rw [cons_append, splitLines, if_neg ha, ih fun hmem => h (mem_cons_of_mem _ hmem)]

theorem splitLines_tail_notMem : sep ∉ (splitLines sep content).2 := by
  induction content with
  | nil => simp
  | cons a as ih =>
    rw [splitLines]
    by_cases ha : a = sep
    · rw [if_pos ha]
      exact ih
    · rw [if_neg ha]
      cases (splitLines sep as).1 with
      | nil =>
        rw [mem_cons, not_or]
        exact ⟨fun heq => ha heq.symm, ih⟩
      | cons line lines => exact ih

theorem splitLines_notMem : ∀ line ∈ (splitLines sep content).1, sep ∉ line := by
  induction content with
  | nil => simp
  | cons a as ih =>
    intro line hline
    rw [splitLines] at hline
    by_cases ha : a = sep
    · rw [if_pos ha] at hline
      rcases mem_cons.mp hline with rfl | hline
      · exact not_mem_nil
      · exact ih line hline
    · rw [if_neg ha] at hline
      cases hlines : (splitLines sep as).1 with
      | nil =>
        rw [hlines] at hline
        cases hline
      | cons first rest =>
        rw [hlines] at hline ih
        rcases mem_cons.mp hline with rfl | hline
        · rw [mem_cons, not_or]
          exact ⟨fun heq => ha heq.symm, ih first mem_cons_self⟩
        · exact ih line (mem_cons_of_mem _ hline)

/-- More text behind a text: its tail goes on. -/
theorem splitLines_append (a b : List α) :
    splitLines sep (a ++ b) =
      ((splitLines sep a).1 ++ (splitLines sep ((splitLines sep a).2 ++ b)).1,
        (splitLines sep ((splitLines sep a).2 ++ b)).2) := by
  by_cases hmem : sep ∈ a
  · -- The first line of `a` is one of `a ++ b`; the rest is shorter.
    obtain ⟨body, rest, heq, hbody⟩ := eq_append_cons_of_mem hmem
    have hlength : rest.length < a.length := by
      rw [heq, length_append, length_cons]
      omega
    have ih := splitLines_append rest b
    rw [heq, append_assoc, cons_append, splitLines_line _ hbody, splitLines_line _ hbody,
      ih]
    rfl
  · rw [splitLines_of_notMem hmem]
    rfl
termination_by a.length

/-- Complete lines, each with its terminator, and a tail. -/
theorem splitLines_flatMap {lines : List (List α)} {tail : List α}
    (hlines : ∀ line ∈ lines, sep ∉ line) (htail : sep ∉ tail) :
    splitLines sep (lines.flatMap (· ++ [sep]) ++ tail) = (lines, tail) := by
  induction lines with
  | nil => exact splitLines_of_notMem htail
  | cons line lines ih =>
    rw [flatMap_cons, append_assoc, append_assoc, singleton_append,
      splitLines_line _ (hlines line mem_cons_self),
      ih fun other hother => hlines other (mem_cons_of_mem _ hother)]

/-- The lines with their separators, and the tail, make up the content. -/
theorem splitLines_join :
    (splitLines sep content).1.flatMap (· ++ [sep]) ++ (splitLines sep content).2 = content := by
  induction content with
  | nil => rfl
  | cons a as ih =>
    rw [splitLines]
    by_cases ha : a = sep
    · rw [if_pos ha]
      simp [ih, ha]
    · rw [if_neg ha]
      cases hlines : (splitLines sep as).1 with
      | nil =>
        rw [hlines] at ih
        simpa using ih
      | cons line lines =>
        rw [hlines] at ih
        simpa using ih

/-- The lines of a prefix are the first lines, and its tail is no longer
than the line or the tail it is cut from. -/
theorem splitLines_cut {content' : List α} (h : content' <+: content) :
    (splitLines sep content').1 <+: (splitLines sep content).1 ∧
      ∀ max, (∀ line ∈ (splitLines sep content).1, line.length ≤ max) →
        (splitLines sep content).2.length ≤ max → (splitLines sep content').2.length ≤ max := by
  obtain ⟨b, rfl⟩ := h
  rw [splitLines_append]
  refine ⟨prefix_append _ _, ?_⟩
  intro max hlines htail
  by_cases hmem : sep ∈ b
  · obtain ⟨body, rest, rfl, hbody⟩ := eq_append_cons_of_mem hmem
    have hfirst : sep ∉ (splitLines sep content').2 ++ body := by
      rw [mem_append, not_or]
      exact ⟨splitLines_tail_notMem, hbody⟩
    have hline := hlines ((splitLines sep content').2 ++ body) (by
      rw [← append_assoc, splitLines_line _ hfirst]
      exact mem_append_right _ mem_cons_self)
    rw [length_append] at hline
    omega
  · have hall : sep ∉ (splitLines sep content').2 ++ b := by
      rw [mem_append, not_or]
      exact ⟨splitLines_tail_notMem, hmem⟩
    rw [splitLines_of_notMem hall, length_append] at htail
    omega

end

/-! ## Reading one line -/

/-- The number of elements that a reader can deliver. -/
def Reader.size (reader : Reader α E) : Nat :=
  (reader.map fun chunk => match chunk with
    | .ok c => c.length
    | .error _ => 0).sum

@[simp] theorem Reader.size_cons (c : List α) :
    Reader.size (.ok c :: reader) = c.length + reader.size := by
  simp [Reader.size]

theorem Reader.size_pushChunk (c : List α) :
    Reader.size (pushChunk c reader) = c.length + reader.size := by
  cases c with
  | nil => simp [pushChunk]
  | cons a as => exact Reader.size_cons _

theorem Delivers.length_le (h : Delivers False reader content) : content.length ≤ reader.size := by
  induction h with
  | done => exact Nat.zero_le _
  | failed h => exact h.elim
  | chunk _ _ ih =>
    rw [length_append, Reader.size_cons]
    omega

/-- What a line that was read says about the content. -/
theorem readLine_ok [DecidableEq α] {sep : α} {checkSize : Nat → Bool → Except ε Unit}
    {line : List α} {result : Option (Line α)} (hd : Delivers faults reader content)
    (h : readLine sep fail checkSize line reader = .ok (result, reader')) :
    (∃ body rest, content = body ++ sep :: rest ∧ sep ∉ body ∧
      result = some ⟨line ++ body, true⟩ ∧
      checkSize (line.length + body.length) true = .ok () ∧ Delivers faults reader' rest ∧
      reader'.size < reader.size) ∨
    (sep ∉ content ∧
      result = (if line ++ content = [] then none else some ⟨line ++ content, false⟩) ∧
      (content ≠ [] → checkSize (line.length + content.length) false = .ok ())) := by
  induction hd generalizing line with
  | done =>
    cases h
    refine .inr ⟨not_mem_nil, ?_, fun hne => absurd rfl hne⟩
    rw [append_nil]
  | failed _ => cases h
  | @chunk c reader content hne hdel ih =>
    have h : (if c = [] then _ else _) = _ := h
    rw [if_neg hne] at h
    by_cases hmem : sep ∈ c
    · -- The terminator is in this chunk.
      obtain ⟨a, b, rfl, ha⟩ := eq_append_cons_of_mem hmem
      rw [idxOf?_append_sep ha] at h
      obtain ⟨_, hsize, h⟩ := of_bind h
      obtain ⟨rfl, rfl⟩ := Prod.mk.inj (Except.ok.inj h)
      refine .inl ⟨a, b ++ content, by simp, ha, by simp, hsize, ?_⟩
      rw [show (a ++ sep :: b).drop (a.length + 1) = b by simp, Reader.size_pushChunk,
        Reader.size_cons, length_append, length_cons]
      exact ⟨hdel.pushChunk, by omega⟩
    · rw [List.idxOf?_eq_none_iff.mpr hmem] at h
      obtain ⟨_, hsize, h⟩ := of_bind h
      rcases ih h with
        ⟨body, rest, rfl, hbody, hresult, hcheck, hrest, hlt⟩ | ⟨hcontent, hresult, hcheck⟩
      · refine .inl ⟨c ++ body, rest, by simp, ?_, by simpa using hresult, ?_, hrest, ?_⟩
        · rw [mem_append, not_or]
          exact ⟨hmem, hbody⟩
        · rw [length_append] at hcheck ⊢
          rw [← Nat.add_assoc]
          exact hcheck
        · rw [Reader.size_cons]
          omega
      · refine .inr ⟨?_, by simpa using hresult, ?_⟩
        · rw [mem_append, not_or]
          exact ⟨hmem, hcontent⟩
        · intro _
          cases content with
          | nil =>
            rw [append_nil]
            exact hsize
          | cons a as =>
            have hlast := hcheck (cons_ne_nil a as)
            rw [length_append] at hlast ⊢
            rw [← Nat.add_assoc]
            exact hlast

/-! ## The loop -/

/-- `if size > max { return Err(tooLarge) }`. -/
def lineLimit (max : Nat) (tooLarge : ε) (size : Nat) (_ : Bool) : Except ε Unit :=
  rejectIf (max < size) tooLarge

/-- Every turn reads a line, so that one turn per element of the reader,
and one more for its end, are enough. -/
def forLinesTurns [DecidableEq α] (sep : α) (fail : E → ε) (max : Nat) (tooLarge : ε)
    (body : σ → List α → Except ε σ) : Nat → σ → Reader α E → Except ε (σ × List α)
  | 0, s, _ => .ok (s, [])
  | turns + 1, s, reader => do
    let (line, reader) ← readLine sep fail (lineLimit max tooLarge) [] reader
    match line with
    | none => .ok (s, [])
    | some line =>
      if line.terminated then do
        let s ← body s line.bytes
        forLinesTurns sep fail max tooLarge body turns s reader
      else .ok (s, line.bytes)

/-- `while let Some((line, terminated)) = read_line(reader)? { .. }`: the
body runs for every complete line, and the loop ends with the tail. -/
def forLines [DecidableEq α] (sep : α) (fail : E → ε) (max : Nat) (tooLarge : ε)
    (body : σ → List α → Except ε σ) (s : σ) (reader : Reader α E) : Except ε (σ × List α) :=
  forLinesTurns sep fail max tooLarge body (reader.size + 1) s reader

/-- What the body keeps, a fold keeps. -/
theorem foldlM_induct {body : σ → α → Except ε σ} {P : List α → σ → Prop} {s s' : σ}
    {items : List α} (hinit : P [] s)
    (hstep : ∀ {done item s s'}, P done s → body s item = .ok s' → P (done ++ [item]) s')
    (h : items.foldlM body s = .ok s') : P items s' := by
  have hfrom : ∀ {items done s}, P done s → items.foldlM body s = .ok s' →
      P (done ++ items) s' := by
    intro items
    induction items with
    | nil =>
      intro done s hs h
      rw [append_nil]
      exact Except.ok.inj h ▸ hs
    | cons item rest ih =>
      intro done s hs h
      rw [foldlM_cons] at h
      obtain ⟨next, hbody, h⟩ := of_bind h
      have hrest := ih (hstep hs hbody) h
      rwa [append_assoc, singleton_append] at hrest
  exact hfrom hinit h

/-- The lines of a text fit the limit, and the body accepts them in order. -/
structure FoldsLines [DecidableEq α] (sep : α) (max : Nat) (body : σ → List α → Except ε σ)
    (content : List α) (s : σ) (s' : σ) (tail : List α) : Prop where
  fits : ∀ line ∈ (splitLines sep content).1, line.length ≤ max
  tail_eq : (splitLines sep content).2 = tail
  tail_fits : tail.length ≤ max
  folds : (splitLines sep content).1.foldlM body s = .ok s'

section

variable [DecidableEq α] {sep : α} {max turns : Nat} {tooLarge : ε} {body : σ → List α → Except ε σ}
  {s s' : σ} {tail : List α}

/-- A line in front of a text that folds. -/
theorem FoldsLines.line {line rest : List α} {next : σ} (hsep : sep ∉ line)
    (hfits : line.length ≤ max) (hbody : body s line = .ok next)
    (h : FoldsLines sep max body rest next s' tail) :
    FoldsLines sep max body (line ++ sep :: rest) s s' tail := by
  constructor
  · rw [splitLines_line _ hsep]
    intro other hother
    rcases mem_cons.mp hother with rfl | hother
    · exact hfits
    · exact h.fits other hother
  · rw [splitLines_line _ hsep]
    exact h.tail_eq
  · exact h.tail_fits
  · rw [splitLines_line _ hsep, foldlM_cons, hbody]
    exact h.folds

/-- What a loop that ends says about the content, if its turns are not
used up. -/
theorem forLinesTurns_ok (hd : Delivers faults reader content) (hturns : reader.size < turns)
    (h : forLinesTurns sep fail max tooLarge body turns s reader = .ok (s', tail)) :
    FoldsLines sep max body content s s' tail := by
  induction turns generalizing s reader content with
  | zero => omega
  | succ turns ih =>
    obtain ⟨⟨line, reader'⟩, hread, h⟩ := of_bind h
    rcases readLine_ok hd hread with
      ⟨bytes, rest, rfl, hbytes, rfl, hsize, hrest, hlt⟩ | ⟨hcontent, hline, hsize⟩
    · obtain ⟨next, hbody, h⟩ := of_bind h
      have hsize := rejectIf_eq_ok.mp hsize
      rw [length_nil, Nat.zero_add] at hsize
      exact FoldsLines.line hbytes (Nat.le_of_not_lt hsize) hbody (ih hrest (by omega) h)
    · -- The rest of the content is the tail.
      have hresult : s = s' ∧ content = tail := by
        rw [nil_append] at hline
        by_cases hempty : content = []
        · rw [if_pos hempty] at hline
          subst hline
          obtain ⟨hs, htail⟩ := Prod.mk.inj (Except.ok.inj h)
          exact ⟨hs, hempty.trans htail⟩
        · rw [if_neg hempty] at hline
          subst hline
          exact Prod.mk.inj (Except.ok.inj h)
      obtain ⟨rfl, rfl⟩ := hresult
      have hsplit := splitLines_of_notMem hcontent
      refine ⟨?_, by rw [hsplit], ?_, by rw [hsplit]; rfl⟩
      · rw [hsplit]
        simp
      · by_cases hempty : content = []
        · rw [hempty]
          exact Nat.zero_le _
        · have hlimit := rejectIf_eq_ok.mp (hsize hempty)
          rw [length_nil, Nat.zero_add] at hlimit
          exact Nat.le_of_not_lt hlimit

theorem forLinesTurns_of_folds (hd : Delivers False reader content)
    (hturns : content.length < turns) (h : FoldsLines sep max body content s s' tail) :
    forLinesTurns sep fail max tooLarge body turns s reader = .ok (s', tail) := by
  have hlimit : ∀ {bound : Nat} {b : Bool}, bound ≤ max → ∀ n ≤ bound,
      lineLimit max tooLarge n b = .ok () := by
    intro bound b hbound n hn
    exact rejectIf_of_not (by omega)
  induction turns generalizing s reader content with
  | zero => omega
  | succ turns ih =>
    rw [forLinesTurns]
    by_cases hmem : sep ∈ content
    · obtain ⟨line, rest, rfl, hline⟩ := eq_append_cons_of_mem hmem
      have hfits := h.fits
      have htail := h.tail_eq
      have hfolds := h.folds
      rw [splitLines_line _ hline] at hfits htail hfolds
      rw [foldlM_cons] at hfolds
      obtain ⟨next, hbody, hrest⟩ := of_bind hfolds
      rw [forall_mem_cons] at hfits
      have hbound : ([] : List α).length + line.length ≤ max := by simpa using hfits.1
      rcases readLine_terminated fail (lineLimit max tooLarge) [] hd hline (hlimit hbound)
        (hlimit hbound _ (Nat.le_refl _)) with ⟨reader', hread, hdel⟩ | ⟨hfalse, _⟩
      · rw [hread, ok_bind, nil_append]
        show (body s line >>= _) = _
        rw [hbody]
        refine ih hdel ?_ ⟨hfits.2, htail, h.tail_fits, hrest⟩
        rw [length_append, length_cons] at hturns
        omega
      · exact hfalse.elim
    · have htail := h.tail_eq
      have hfolds := h.folds
      rw [splitLines_of_notMem hmem] at htail hfolds
      obtain rfl : content = tail := htail
      obtain rfl : s = s' := Except.ok.inj hfolds
      have hbound : ([] : List α).length + content.length ≤ max := by simpa using h.tail_fits
      rcases readLine_unterminated fail (lineLimit max tooLarge) [] hd hmem (hlimit hbound) with
        hread | ⟨hfalse, _⟩
      · rw [hread, ok_bind, nil_append]
        by_cases hempty : content = []
        · rw [if_pos hempty, hempty]
        · rw [if_neg hempty]
          rfl
      · exact hfalse.elim

/-- A loop that ends has folded the lines, whatever reads could fail. -/
theorem forLines_ok (hd : Delivers faults reader content)
    (h : forLines sep fail max tooLarge body s reader = .ok (s', tail)) :
    FoldsLines sep max body content s s' tail :=
  forLinesTurns_ok hd (Nat.lt_succ_self _) h

/-- The loop is the fold over the lines, however the content is chunked. -/
theorem forLines_eq_ok (hd : Delivers False reader content) :
    forLines sep fail max tooLarge body s reader = .ok (s', tail) ↔
      FoldsLines sep max body content s s' tail := by
  constructor
  · intro h
    exact forLines_ok hd h
  · intro h
    exact forLinesTurns_of_folds hd (Nat.lt_succ_of_le hd.length_le) h

end

end Wolf
