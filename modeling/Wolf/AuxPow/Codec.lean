import Wolf.Framework.Wire
import Wolf.AuxPow.Basic

/-! # Bounded reader and canonical CompactSize codec

`Reader` is a position in a byte slice. Every read either fails
without a value or takes the bytes it returns off the front of
`Reader.rest`; the `_canonical` theorems state this for each read in
the vocabulary of `Canonical`. -/

namespace Wolf.AuxPow

open List

/-! ## Reader -/

/-- A position in a slice; the length of a slice fits `usize`. -/
structure Reader where
  bytes : Bytes
  position : Nat
  position_le : position ≤ bytes.length
  addressable : bytes.length < 2 ^ usizeBits

namespace Reader

def new (bytes : Bytes) (h : bytes.length < 2 ^ usizeBits) : Reader :=
  ⟨bytes, 0, Nat.zero_le _, h⟩

/-- The bytes not yet read. -/
def rest (r : Reader) : Bytes := r.bytes.drop r.position

@[simp] theorem rest_new (bytes : Bytes) (h : bytes.length < 2 ^ usizeBits) :
    (new bytes h).rest = bytes := by
  simp [new, rest]

def remaining (r : Reader) : Nat := r.bytes.length - r.position

theorem remaining_eq (r : Reader) : r.remaining = r.rest.length := by
  simp [remaining, rest]

theorem position_add_le {length : Nat} {r : Reader} (h : ¬ r.remaining < length) :
    r.position + length ≤ r.bytes.length := by
  have := r.position_le
  unfold remaining at h
  omega

def readSlice (length : Nat) (field : String) (r : Reader) : Except AuxPowError (Bytes × Reader) :=
  if h : r.remaining < length then
    .error (.unexpectedEnd field length r.remaining)
  else
    match checkedAdd usizeBits r.position length with
    | none => .error .encodingLengthOverflow
    | some _ =>
      .ok (slice r.bytes r.position (r.position + length),
        ⟨r.bytes, r.position + length, position_add_le h, r.addressable⟩)

def readArray (n : Nat) (field : String) (r : Reader) :
    Except AuxPowError (FixedBytes n × Reader) := do
  let (bytes, r) ← readSlice n field r
  .ok (.copyFromSlice n bytes, r)

def readU8 (field : String) (r : Reader) : Except AuxPowError (UInt8 × Reader) := do
  let (bytes, r) ← readArray 1 field r
  .ok (bytes.data.headD 0, r)

def readU32Le (field : String) (r : Reader) : Except AuxPowError (UInt32 × Reader) := do
  let (bytes, r) ← readArray 4 field r
  .ok (u32FromLeBytes bytes.data, r)

/-- The `match prefix` of `read_compact_size`. -/
def readCompactValue (first : UInt8) (r : Reader) : Except AuxPowError (Nat × Reader) :=
  if first.toNat ≤ 0xfc then
    .ok (first.toNat, r)
  else if first = 0xfd then do
    let (bytes, r) ← readArray 2 "CompactSize u16" r
    rejectIf (leNat bytes.data < 0xfd) .nonCanonicalCompactSize
    .ok (leNat bytes.data, r)
  else if first = 0xfe then do
    let (value, r) ← readU32Le "CompactSize u32" r
    rejectIf (value.toNat < 2 ^ 16) .nonCanonicalCompactSize
    .ok (value.toNat, r)
  else do
    let (bytes, r) ← readArray 8 "CompactSize u64" r
    rejectIf (leNat bytes.data < 2 ^ 32) .nonCanonicalCompactSize
    .ok (leNat bytes.data, r)

def readCompactSize (r : Reader) : Except AuxPowError (Nat × Reader) := do
  let (first, r) ← readU8 "CompactSize prefix" r
  let (value, r) ← readCompactValue first r
  rejectIf (2 ^ usizeBits ≤ value) (.compactSizeOverflow value)
  .ok (value, r)

end Reader

/-- `encode_compact_size`: the bytes pushed to the output. -/
def encodeCompactSize (value : Nat) : Bytes :=
  if value ≤ 0xfc then [UInt8.ofNat value]
  else if value < 2 ^ 16 then 0xfd :: leBytes 2 value
  else if value < 2 ^ 32 then 0xfe :: leBytes 4 value
  else 0xff :: leBytes 8 value

def compactSizeLen (value : Nat) : Nat :=
  if value ≤ 0xfc then 1
  else if value ≤ 2 ^ 16 - 1 then 3
  else if value ≤ 2 ^ 32 - 1 then 5
  else 9

theorem length_encodeCompactSize (value : Nat) :
    (encodeCompactSize value).length = compactSizeLen value := by
  unfold encodeCompactSize compactSizeLen
  by_cases h8 : value ≤ 0xfc
  · rw [if_pos h8, if_pos h8]; rfl
  · rw [if_neg h8, if_neg h8]
    by_cases h16 : value < 2 ^ 16
    · rw [if_pos h16, if_pos (by omega)]; simp
    · rw [if_neg h16, if_neg (show ¬ value ≤ 2 ^ 16 - 1 by omega)]
      by_cases h32 : value < 2 ^ 32
      · rw [if_pos h32, if_pos (by omega)]; simp
      · rw [if_neg h32, if_neg (show ¬ value ≤ 2 ^ 32 - 1 by omega)]; simp

/-! ## Every read is canonical -/

namespace Reader

/-- A read of `length` bytes succeeds exactly when that many are left, and
then returns the first `length` of them. -/
theorem readSlice_eq_ok {length : Nat} {field : String} {r r' : Reader} {bytes : Bytes} :
    readSlice length field r = .ok (bytes, r') ↔
      bytes.length = length ∧ r.rest = bytes ++ r'.rest ∧ r'.bytes = r.bytes ∧
        r'.position = r.position + length := by
  have hpos := r.position_le
  have haddr := r.addressable
  unfold readSlice
  constructor
  · intro hok
    split at hok
    · cases hok
    · next hlen =>
      unfold remaining at hlen
      rw [checkedAdd_of_lt (by omega)] at hok
      cases hok
      refine ⟨by simp [slice]; omega, ?_, rfl, rfl⟩
      simp only [rest, slice, Nat.add_sub_cancel_left]
      rw [← drop_drop, take_append_drop]
  · rintro ⟨hlen, hrest, hbytes, hposition⟩
    have hrem : ¬ r.remaining < length := by
      rw [remaining_eq, hrest, length_append]
      omega
    rw [dif_neg hrem]
    unfold remaining at hrem
    rw [checkedAdd_of_lt (by omega)]
    have hslice : slice r.bytes r.position (r.position + length) = bytes := by
      rw [slice, Nat.add_sub_cancel_left]
      change r.rest.take length = bytes
      rw [hrest, ← hlen, take_left']
      rfl
    cases r' with | mk bs pos _ _ =>
    cases hbytes
    cases hposition
    simp only [hslice]
    rfl

theorem readSlice_canonical (length : Nat) (field : String) :
    Canonical rest (readSlice length field) (fun bytes => bytes)
      (fun bytes => bytes.length = length) := by
  refine ⟨?_, ?_⟩
  · intro r bytes rest hlen hview
    have hle : r.position + length ≤ r.bytes.length := by
      have h := congrArg List.length hview
      rw [length_append, Reader.rest, length_drop] at h
      have hpos := r.position_le
      omega
    refine ⟨⟨r.bytes, r.position + length, hle, r.addressable⟩, ?_, ?_⟩
    · refine readSlice_eq_ok.mpr ⟨hlen, ?_, rfl, rfl⟩
      simp only [Reader.rest]
      rw [← drop_drop]
      change r.rest = bytes ++ r.rest.drop length
      rw [hview, ← hlen, drop_left']
      rfl
    · change r.bytes.drop (r.position + length) = rest
      rw [← drop_drop]
      change r.rest.drop length = rest
      rw [hview, ← hlen, drop_left']
      rfl
  · intro r bytes r' hok
    obtain ⟨hlen, hrest, _, _⟩ := readSlice_eq_ok.mp hok
    exact ⟨hlen, hrest⟩

theorem readArray_canonical (n : Nat) (field : String) :
    Canonical rest (readArray n field) FixedBytes.data (fun _ => True) :=
  (readSlice_canonical n field).convert (fun _ hlen => FixedBytes.copyFromSlice_data hlen)
    fun a => ⟨a.data, a.size_eq, by simp⟩

theorem readU8_canonical (field : String) :
    Canonical rest (readU8 field) (fun b => [b]) (fun _ => True) := by
  refine (readArray_canonical 1 field).convert (f := fun a => a.data.headD 0) ?_
    fun b => ⟨⟨[b], rfl⟩, trivial, rfl⟩
  intro a _
  obtain ⟨x, hx⟩ := length_eq_one_iff.mp a.size_eq
  rw [hx]
  rfl

theorem readU32Le_canonical (field : String) :
    Canonical rest (readU32Le field) u32ToLeBytes (fun _ => True) :=
  (readArray_canonical 4 field).convert (fun a _ => u32ToLeBytes_u32FromLeBytes a.size_eq)
    fun x => ⟨⟨u32ToLeBytes x, by simp⟩, trivial, by simp⟩

/-- The bytes behind the prefix byte of a CompactSize. -/
def compactTail (value : Nat) : Bytes := (encodeCompactSize value).tail

/-- The prefix byte of a CompactSize. -/
def compactHead (value : Nat) : UInt8 := (encodeCompactSize value).headD 0

theorem encodeCompactSize_eq (value : Nat) :
    encodeCompactSize value = [compactHead value] ++ compactTail value := by
  unfold compactHead compactTail encodeCompactSize
  split_ifs <;> rfl

/-- Behind the prefix byte of a value below `2 ^ 64` the value is read back. -/
theorem readCompactValue_complete {value : Nat} (hvalue : value < 2 ^ 64) {r : Reader}
    {rest : Bytes} (hview : r.rest = compactTail value ++ rest) :
    ∃ r', readCompactValue (compactHead value) r = .ok (value, r') ∧ r'.rest = rest := by
  unfold compactTail encodeCompactSize at hview
  unfold compactHead encodeCompactSize readCompactValue
  by_cases h8 : value ≤ 0xfc
  · have hfirst : (UInt8.ofNat value).toNat = value := by
      rw [UInt8.toNat_ofNat']; omega
    rw [if_pos h8] at hview
    refine ⟨r, ?_, by simpa using hview⟩
    simp [h8, hfirst]
  · by_cases h16 : value < 2 ^ 16
    · rw [if_neg h8, if_pos h16] at hview
      obtain ⟨r', hr, hrest⟩ := (readArray_canonical 2 "CompactSize u16").complete r
        ⟨leBytes 2 value, by simp⟩ rest trivial hview
      have hle : leNat (leBytes 2 value) = value := leNat_leBytes_of_lt (by omega)
      refine ⟨r', ?_, hrest⟩
      rw [if_neg h8, if_pos h16]
      simp [hr, hle, rejectIf_of_not (show ¬ value < 0xfd by omega)]
    · by_cases h32 : value < 2 ^ 32
      · rw [if_neg h8, if_neg h16, if_pos h32] at hview
        have hnat : (UInt32.ofNat value).toNat = value := by
          rw [UInt32.toNat_ofNat', Nat.mod_eq_of_lt h32]
        obtain ⟨r', hr, hrest⟩ := (readU32Le_canonical "CompactSize u32").complete r
          (UInt32.ofNat value) rest trivial (by rw [u32ToLeBytes, hnat]; exact hview)
        refine ⟨r', ?_, hrest⟩
        rw [if_neg h8, if_neg h16, if_pos h32]
        simp [hr, hnat, rejectIf_of_not (show ¬ value < 65536 from h16)]
      · rw [if_neg h8, if_neg h16, if_neg h32] at hview
        obtain ⟨r', hr, hrest⟩ := (readArray_canonical 8 "CompactSize u64").complete r
          ⟨leBytes 8 value, by simp⟩ rest trivial hview
        have hle : leNat (leBytes 8 value) = value := leNat_leBytes_of_lt (by omega)
        refine ⟨r', ?_, hrest⟩
        rw [if_neg h8, if_neg h16, if_neg h32]
        simp [hr, hle, rejectIf_of_not (show ¬ value < 4294967296 from h32)]

/-- Whatever is accepted behind a prefix byte is the minimal encoding of
the value returned: each wide form rejects the narrower values. -/
theorem readCompactValue_sound {first : UInt8} {value : Nat} {r r' : Reader}
    (hok : readCompactValue first r = .ok (value, r')) :
    first :: r.rest = encodeCompactSize value ++ r'.rest := by
  unfold readCompactValue at hok
  split at hok
  · next h8 =>
    cases hok
    simp [encodeCompactSize, h8]
  · split at hok
    · next hfirst =>
      obtain ⟨⟨bytes, r₁⟩, hr, hok⟩ := of_bind hok
      obtain ⟨hlow, hok⟩ := of_rejectIf_bind hok
      obtain ⟨_, hview⟩ := (readArray_canonical 2 _).sound r bytes r₁ hr
      cases hok
      have hlt := leNat_lt bytes.data
      rw [bytes.size_eq] at hlt
      rw [encodeCompactSize, if_neg (by omega), if_pos (by omega), bytes.leBytes_leNat, hview,
        hfirst]
      rfl
    · split at hok
      · next hfirst =>
        obtain ⟨⟨x, r₁⟩, hr, hok⟩ := of_bind hok
        obtain ⟨hlow, hok⟩ := of_rejectIf_bind hok
        obtain ⟨_, hview⟩ := (readU32Le_canonical _).sound r x r₁ hr
        cases hok
        have hlt : x.toNat < 2 ^ 32 := x.toNat_lt
        rw [encodeCompactSize, if_neg (by omega), if_neg hlow, if_pos hlt, hview, hfirst]
        rfl
      · next h8 h16 h32 =>
        obtain ⟨⟨bytes, r₁⟩, hr, hok⟩ := of_bind hok
        obtain ⟨hlow, hok⟩ := of_rejectIf_bind hok
        obtain ⟨_, hview⟩ := (readArray_canonical 8 _).sound r bytes r₁ hr
        cases hok
        -- The only prefix byte left is 0xff.
        have hfirst : first = 0xff := by
          apply UInt8.toNat_inj.mp
          have h1 : first.toNat ≠ 0xfd := fun h => h16 (UInt8.toNat_inj.mp h)
          have h2 : first.toNat ≠ 0xfe := fun h => h32 (UInt8.toNat_inj.mp h)
          have h3 : first.toNat < 256 := first.toNat_lt
          change first.toNat = 255
          omega
        rw [encodeCompactSize, if_neg (by omega), if_neg (by omega), if_neg hlow,
          bytes.leBytes_leNat, hview, hfirst]
        rfl

theorem readCompactSize_canonical :
    Canonical rest readCompactSize encodeCompactSize (fun value => value < 2 ^ usizeBits) := by
  refine ⟨?_, ?_⟩
  · intro r value rest hvalue hview
    rw [encodeCompactSize_eq] at hview
    obtain ⟨r₁, hr₁, hview₁⟩ :=
      (readU8_canonical "CompactSize prefix").complete r _ _ trivial hview
    obtain ⟨r₂, hr₂, hview₂⟩ := readCompactValue_complete hvalue hview₁
    refine ⟨r₂, ?_, hview₂⟩
    simp [readCompactSize, hr₁, hr₂, rejectIf_of_not (Nat.not_le.mpr hvalue)]
  · intro r value r' hok
    obtain ⟨⟨first, r₁⟩, hr₁, hok⟩ := of_bind hok
    obtain ⟨⟨v, r₂⟩, hr₂, hok⟩ := of_bind hok
    obtain ⟨hlt, hok⟩ := of_rejectIf_bind hok
    obtain ⟨_, hview⟩ := (readU8_canonical _).sound r first r₁ hr₁
    cases hok
    refine ⟨Nat.not_le.mp hlt, ?_⟩
    rw [hview]
    exact readCompactValue_sound hr₂

end Reader

end Wolf.AuxPow
