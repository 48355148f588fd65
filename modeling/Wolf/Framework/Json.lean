import Wolf.Framework.Bytes
import Mathlib.Data.Nat.Digits.Lemmas

/-! # JSON values and records

A parsed text is a tree with the keys of an object in their order and
duplicates kept; a derived deserializer decides what it accepts.

* `objectText`: the compact text of an object of scalars, and
  `parseObject`, which reads such a text back
  (`parseObject_objectText`). -/

namespace Wolf

open List

/-- Text in UTF-8. -/
def utf8 (text : String) : Bytes := text.toUTF8.data.toList

/-- A JSON value. `number` stands for the numbers that are no `u64`. -/
inductive Json where
  | null
  | bool (b : Bool)
  | uint (n : Nat)
  | number
  | string (text : Bytes)
  | array (elements : List Json)
  | object (fields : List (Bytes × Json))

namespace Json

/-! ## Deserializing a struct -/

def asString : Json → Option Bytes
  | .string text => some text
  | _ => none

def asBool : Json → Option Bool
  | .bool b => some b
  | _ => none

/-- An unsigned integer of `w` bits. -/
def asUint (w : Nat) : Json → Option Nat
  | .uint n => if n < 2 ^ w then some n else none
  | _ => none

/-- `#[serde(default)] field: Option<T>`: a missing field and `null` are
`None`. -/
def optional {α : Type} (read : Json → Option α) : Option Json → Option (Option α)
  | none => some none
  | some .null => some none
  | some value => (read value).map some

/-- `#[serde(default)] field: bool`. -/
def defaultFalse : Option Json → Option Bool
  | none => some false
  | some value => asBool value

/-- How a derived `Deserialize` with `deny_unknown_fields` finds the fields
of a struct: by name in an object, whose keys must be known and
different, or by position in an array. -/
def structFields (order : List Bytes) : Json → Option (Bytes → Option Json)
  | .object fields =>
    if (fields.map Prod.fst).Nodup ∧ ∀ key ∈ fields.map Prod.fst, key ∈ order then
      some fun name => fields.lookup name
    else none
  | .array elements =>
    if elements.length ≤ order.length then some fun name => (order.zip elements).lookup name
    else none
  | _ => none

/-! ## Compact text -/

/-- A scalar value. -/
def IsScalar : Json → Bool
  | .array _ => false
  | .object _ => false
  | .number => false
  | _ => true

/-- Text that is written without escapes. -/
def PlainText (text : Bytes) : Prop := ∀ c ∈ text, 0x20 ≤ c ∧ c ≠ 0x22 ∧ c ≠ 0x5c
  deriving Decidable

/-- A scalar whose text needs no escape. -/
def Plain : Json → Prop
  | .string text => PlainText text
  | value => value.IsScalar = true

/-- The digits of a number. -/
def decimal (n : Nat) : Bytes :=
  if n = 0 then [0x30]
  else (Nat.digits 10 n).reverse.map fun digit => UInt8.ofNat (0x30 + digit)

def nullText : Bytes := [0x6e, 0x75, 0x6c, 0x6c]

def trueText : Bytes := [0x74, 0x72, 0x75, 0x65]

def falseText : Bytes := [0x66, 0x61, 0x6c, 0x73, 0x65]

def stringText (text : Bytes) : Bytes := [0x22] ++ (text ++ [0x22])

def scalarText : Json → Bytes
  | .null => nullText
  | .bool true => trueText
  | .bool false => falseText
  | .uint n => decimal n
  | .string text => stringText text
  | _ => []

def fieldText (field : Bytes × Json) : Bytes :=
  stringText field.1 ++ ([0x3a] ++ scalarText field.2)

/-- The fields of an object up to and with its closing brace. -/
def fieldsText : List (Bytes × Json) → Bytes
  | [] => [0x7d]
  | [field] => fieldText field ++ [0x7d]
  | field :: rest => fieldText field ++ ([0x2c] ++ fieldsText rest)

/-- The compact text of an object of scalars. -/
def objectText (fields : List (Bytes × Json)) : Bytes := [0x7b] ++ fieldsText fields

/-! ## Reading it back -/

/-- Reads a fixed text. -/
def expect : Bytes → Bytes → Option Bytes
  | [], input => some input
  | c :: cs, d :: ds => if c = d then expect cs ds else none
  | _ :: _, [] => none

/-- Reads a string without escapes. -/
def readString (input : Bytes) : Option (Bytes × Bytes) := do
  let input ← expect [0x22] input
  let rest ← expect [0x22] (input.dropWhile (· ≠ 0x22))
  some (input.takeWhile (· ≠ 0x22), rest)

def isDigit (c : UInt8) : Bool := 0x30 ≤ c ∧ c ≤ 0x39

/-- The number with the given digits. -/
def digitsValue (digits : Bytes) : Nat :=
  digits.foldl (fun n c => 10 * n + (c.toNat - 0x30)) 0

/-- Reads a scalar; its first character tells which. -/
def readScalar (input : Bytes) : Option (Json × Bytes) :=
  match input with
  | 0x22 :: _ => (readString input).map fun (text, rest) => (.string text, rest)
  | 0x6e :: _ => (expect nullText input).map fun rest => (.null, rest)
  | 0x74 :: _ => (expect trueText input).map fun rest => (.bool true, rest)
  | 0x66 :: _ => (expect falseText input).map fun rest => (.bool false, rest)
  | c :: _ =>
    if isDigit c then
      some (.uint (digitsValue (input.takeWhile isDigit)), input.dropWhile isDigit)
    else none
  | [] => none

def readField (input : Bytes) : Option ((Bytes × Json) × Bytes) := do
  let (key, input) ← readString input
  let input ← expect [0x3a] input
  let (value, input) ← readScalar input
  some ((key, value), input)

/-- Reads fields up to the closing brace, at most `turns` of them. -/
def readFields : Nat → Bytes → Option (List (Bytes × Json))
  | 0, _ => none
  | turns + 1, input =>
    match readField input with
    | none => if input = [0x7d] then some [] else none
    | some (field, 0x2c :: rest) => (readFields turns rest).map (field :: ·)
    | some (field, rest) => if rest = [0x7d] then some [field] else none

/-- Reads the text of an object of scalars. -/
def parseObject (input : Bytes) : Option (List (Bytes × Json)) := do
  let rest ← expect [0x7b] input
  readFields input.length rest

/-! ## The round trip -/

@[simp] theorem expect_append (text rest : Bytes) : expect text (text ++ rest) = some rest := by
  induction text with
  | nil => rfl
  | cons c cs ih => simpa [expect] using ih

variable {text rest : Bytes} {value : Json}

theorem readString_stringText (h : PlainText text) :
    readString (stringText text ++ rest) = some (text, rest) := by
  have hquote : ∀ c ∈ text, (decide (c ≠ 0x22)) = true := by
    intro c hc
    exact decide_eq_true (h c hc).2.1
  unfold readString stringText
  rw [append_assoc, expect_append, Option.bind_eq_bind, Option.bind_some, append_assoc,
    dropWhile_append_of_pos hquote, takeWhile_append_of_pos hquote]
  simp [expect]

/-! ### Numbers -/

theorem decimal_isDigit (n : Nat) : ∀ c ∈ decimal n, isDigit c = true := by
  intro c hc
  unfold decimal at hc
  by_cases hn : n = 0
  · rw [if_pos hn, mem_singleton] at hc
    rw [hc]
    rfl
  · rw [if_neg hn] at hc
    obtain ⟨digit, hdigit, rfl⟩ := mem_map.mp hc
    have hlt : digit < 10 := Nat.digits_lt_base (by omega) (mem_reverse.mp hdigit)
    have h₁ : (0x30 : UInt8).toNat = 48 := rfl
    have h₂ : (0x39 : UInt8).toNat = 57 := rfl
    unfold isDigit
    rw [decide_eq_true_iff, UInt8.le_iff_toNat_le, UInt8.le_iff_toNat_le, UInt8.toNat_ofNat']
    omega

theorem decimal_ne_nil (n : Nat) : decimal n ≠ [] := by
  unfold decimal
  by_cases hn : n = 0
  · rw [if_pos hn]
    exact cons_ne_nil _ _
  · rw [if_neg hn]
    simpa [Nat.digits_eq_nil_iff_eq_zero] using hn

theorem digitsValue_map (digits : List Nat) (h : ∀ digit ∈ digits, digit < 10) :
    digitsValue (digits.reverse.map fun digit => UInt8.ofNat (0x30 + digit))
      = Nat.ofDigits 10 digits := by
  unfold digitsValue
  induction digits with
  | nil => rfl
  | cons digit rest ih =>
    have hdigit : (UInt8.ofNat (0x30 + digit)).toNat - 0x30 = digit := by
      have := h digit mem_cons_self
      rw [UInt8.toNat_ofNat']
      omega
    rw [reverse_cons, map_append, foldl_append,
      ih fun other hother => h other (mem_cons_of_mem _ hother), map_singleton,
      foldl_cons, foldl_nil, hdigit, Nat.ofDigits_cons, Nat.add_comm]

theorem digitsValue_decimal (n : Nat) : digitsValue (decimal n) = n := by
  unfold decimal
  by_cases hn : n = 0
  · rw [if_pos hn, hn]
    rfl
  · rw [if_neg hn, digitsValue_map _ fun digit hdigit => Nat.digits_lt_base (by omega) hdigit]
    exact Nat.ofDigits_digits 10 n

theorem length_decimal_le {n k : Nat} (hk : 0 < k) (h : n < 10 ^ k) : (decimal n).length ≤ k := by
  unfold decimal
  by_cases hn : n = 0
  · rw [if_pos hn]
    exact hk
  · rw [if_neg hn, length_map, length_reverse]
    exact (Nat.digits_length_le_iff (by omega) n).mpr h

/-! ### Scalars and fields -/

/-- What follows a value is no digit. -/
def Ends (rest : Bytes) : Prop := ∀ c, rest.head? = some c → isDigit c = false

theorem readScalar_decimal (n : Nat) (hrest : Ends rest) :
    readScalar (decimal n ++ rest) = some (.uint n, rest) := by
  have hdigits := decimal_isDigit n
  have htake : (decimal n ++ rest).takeWhile isDigit = decimal n := by
    rw [takeWhile_append_of_pos hdigits]
    cases rest with
    | nil => simp
    | cons c cs => simp [hrest c rfl]
  have hdrop : (decimal n ++ rest).dropWhile isDigit = rest := by
    rw [dropWhile_append_of_pos hdigits]
    cases rest with
    | nil => rfl
    | cons c cs => simp [hrest c rfl]
  cases hdecimal : decimal n with
  | nil => exact absurd hdecimal (decimal_ne_nil n)
  | cons c cs =>
    have hc : isDigit c = true := hdigits c (hdecimal ▸ mem_cons_self)
    rw [hdecimal] at htake hdrop
    have hvalue := digitsValue_decimal n
    rw [hdecimal] at hvalue
    unfold readScalar
    split
    iterate 4
      · rename_i heq
        obtain ⟨rfl, _⟩ := List.cons.inj heq
        cases hc
    · rename_i heq
      obtain ⟨rfl, rfl⟩ := List.cons.inj heq
      rw [if_pos hc, htake, hdrop, hvalue]
    · rename_i heq
      cases heq

theorem readScalar_scalarText (h : value.Plain) (hrest : Ends rest) :
    readScalar (value.scalarText ++ rest) = some (value, rest) := by
  cases value with
  | null => exact congrArg (Option.map fun rest => (Json.null, rest)) (expect_append nullText rest)
  | bool b =>
    cases b with
    | true =>
      exact congrArg (Option.map fun rest => (Json.bool true, rest)) (expect_append trueText rest)
    | false =>
      exact congrArg (Option.map fun rest => (Json.bool false, rest)) (expect_append falseText rest)
  | uint n => exact readScalar_decimal n hrest
  | string text =>
    exact congrArg (Option.map fun (text, rest) => (Json.string text, rest))
      (readString_stringText h)
  | number | array elements | object fields => cases h

theorem readField_fieldText {field : Bytes × Json} (hkey : PlainText field.1)
    (hvalue : field.2.Plain) (hrest : Ends rest) :
    readField (fieldText field ++ rest) = some (field, rest) := by
  unfold readField fieldText
  simp only [append_assoc, readString_stringText hkey, Option.bind_eq_bind, Option.bind_some,
    expect_append, readScalar_scalarText hvalue hrest]

variable {fields : List (Bytes × Json)}

theorem readFields_fieldsText (h : ∀ field ∈ fields, PlainText field.1 ∧ field.2.Plain)
    {turns : Nat} (hturns : fields.length < turns) :
    readFields turns (fieldsText fields) = some fields := by
  induction fields generalizing turns with
  | nil =>
    obtain ⟨turns, rfl⟩ : ∃ n, turns = n + 1 := ⟨turns - 1, by omega⟩
    rfl
  | cons field rest ih =>
    obtain ⟨turns, rfl⟩ : ∃ n, turns = n + 1 := ⟨turns - 1, by omega⟩
    rw [length_cons] at hturns
    obtain ⟨hkey, hvalue⟩ := h field mem_cons_self
    have hrest : ∀ other ∈ rest, PlainText other.1 ∧ other.2.Plain :=
      fun other hother => h other (mem_cons_of_mem _ hother)
    cases rest with
    | nil =>
      have hread : readField (fieldText field ++ [0x7d]) = some (field, [0x7d]) :=
        readField_fieldText hkey hvalue (by intro c hc; cases hc; rfl)
      unfold readFields fieldsText
      rw [hread]
      rfl
    | cons next others =>
      have hread : readField (fieldText field ++ ([0x2c] ++ fieldsText (next :: others)))
          = some (field, [0x2c] ++ fieldsText (next :: others)) :=
        readField_fieldText hkey hvalue (by intro c hc; cases hc; rfl)
      unfold readFields fieldsText
      rw [hread]
      show (readFields turns (fieldsText (next :: others))).map (field :: ·) = _
      rw [ih hrest (by omega)]
      rfl

theorem length_lt_fieldsText (fields : List (Bytes × Json)) :
    fields.length < (fieldsText fields).length := by
  induction fields with
  | nil => exact Nat.one_pos
  | cons field rest ih =>
    have hfield : 0 < (fieldText field).length := by
      unfold fieldText stringText
      simp
    cases rest with
    | nil =>
      unfold fieldsText
      rw [length_append, length_cons, length_cons]
      omega
    | cons next others =>
      unfold fieldsText
      rw [length_append, length_append, length_cons, length_singleton]
      omega

/-- What a field adds to the text of an object. -/
def fieldSize (field : Bytes × Json) : Nat := field.1.length + field.2.scalarText.length + 4

theorem length_objectText_le (fields : List (Bytes × Json)) :
    (objectText fields).length ≤ (fields.map fieldSize).sum + 2 := by
  have hfield : ∀ field, (fieldText field).length + 1 = fieldSize field := by
    unfold fieldText stringText fieldSize
    simp only [length_append, length_singleton]
    omega
  have hfields : (fieldsText fields).length ≤ (fields.map fieldSize).sum + 1 := by
    induction fields with
    | nil => exact Nat.le_refl _
    | cons field rest ih =>
      have hsize := hfield field
      rw [map_cons, sum_cons]
      cases rest with
      | nil =>
        rw [fieldsText, length_append, length_singleton]
        omega
      | cons next rest =>
        rw [fieldsText, length_append, length_append, length_singleton]
        · omega
        · exact cons_ne_nil _ _
  unfold objectText
  rw [length_append, length_singleton]
  omega

/-- The text of an object is read back as the object. -/
theorem parseObject_objectText (h : ∀ field ∈ fields, PlainText field.1 ∧ field.2.Plain) :
    parseObject (objectText fields) = some fields := by
  unfold parseObject objectText
  refine readFields_fieldsText h ?_
  have := length_lt_fieldsText fields
  rw [length_append, length_singleton]
  omega

/-! ### The text is one line -/

theorem PlainText.newline (h : PlainText text) : (0x0a : UInt8) ∉ text := by
  intro hmem
  exact absurd (h _ hmem).1 (by decide)

theorem newline_notMem_stringText (h : PlainText text) : (0x0a : UInt8) ∉ stringText text := by
  unfold stringText
  simp only [mem_append, mem_singleton, not_or]
  exact ⟨by decide, h.newline, by decide⟩

theorem newline_notMem_scalarText (h : value.Plain) : (0x0a : UInt8) ∉ value.scalarText := by
  cases value with
  | null => decide
  | bool b => cases b <;> decide
  | uint n =>
    intro hmem
    have hdigit := decimal_isDigit n _ hmem
    cases hdigit
  | string text => exact newline_notMem_stringText h
  | number | array elements | object fields => cases h

theorem newline_notMem_objectText (h : ∀ field ∈ fields, PlainText field.1 ∧ field.2.Plain) :
    (0x0a : UInt8) ∉ objectText fields := by
  have hfields : (0x0a : UInt8) ∉ fieldsText fields := by
    induction fields with
    | nil => decide
    | cons field rest ih =>
      obtain ⟨hkey, hvalue⟩ := h field mem_cons_self
      have hfield : (0x0a : UInt8) ∉ fieldText field := by
        unfold fieldText
        simp only [mem_append, mem_singleton, not_or]
        exact ⟨newline_notMem_stringText hkey, by decide, newline_notMem_scalarText hvalue⟩
      have hrest := ih fun other hother => h other (mem_cons_of_mem _ hother)
      cases rest with
      | nil =>
        unfold fieldsText
        simp only [mem_append, mem_singleton, not_or]
        exact ⟨hfield, by decide⟩
      | cons next others =>
        unfold fieldsText
        simp only [mem_append, mem_singleton, not_or]
        exact ⟨hfield, by decide, hrest⟩
  unfold objectText
  simp only [mem_append, mem_singleton, not_or]
  exact ⟨by decide, hfields⟩

end Json

end Wolf
