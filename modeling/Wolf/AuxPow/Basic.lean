import Wolf.Framework.Result
import Wolf.Framework.Bytes

/-! # AuxPoW primitives

Constants, errors, the proof-of-work target and the parent header of
the `wcash-zcash-aux` crate.

The digest functions of the `sha2` and `blake2b_simd` crates are not
part of the repository; they are the parameters `Digests`. -/

namespace Wolf.AuxPow

open List

/-! ## Constants -/

def proofVersion : UInt8 := 2

/-- `*b"WCAZ"`. -/
def proofMagic : FixedBytes 4 := ⟨[0x57, 0x43, 0x41, 0x5a], rfl⟩

def wcashAuxiliaryChainId : UInt32 := 0x57434153

def mergedMiningMarker : Bytes := [0xfa, 0xbe, 0x6d, 0x6d]

def maxProofBytes : Nat := 256 * 1024
def maxCoinbaseBytes : Nat := 128 * 1024
def maxParentBranchDepth : Nat := 32
def maxAuthDataBranchDepth : Nat := 32
def maxAuxiliaryBranchDepth : Nat := 16

def parentHeaderBytes : Nat := 4 + 32 * 3 + 4 * 2 + 32 + 3 + 1344

/-- Bits of `usize` on the supported targets. -/
def usizeBits : Nat := 64

/-- A 32-byte digest, block ID or Merkle node in raw serialized order. -/
abbrev Hash : Type := FixedBytes 32

/-! ## Errors -/

inductive AuxPowError where
  | proofTooLarge (actual max : Nat)
  | coinbaseTooLarge (actual max : Nat)
  | invalidProofMagic (magic : FixedBytes 4)
  | unsupportedProofVersion (version : UInt8)
  | unexpectedEnd (field : String) (needed remaining : Nat)
  | nonCanonicalCompactSize
  | compactSizeOverflow (value : Nat)
  | branchTooLong (branch : String) (actual max : Nat)
  | trailingBytes (count : Nat)
  | encodingLengthOverflow
  | invalidHeaderLength (actual expected : Nat)
  | headerVersionTooLow (version : UInt32)
  | headerVersionHighBit (version : UInt32)
  | nonCanonicalSolutionLength
  | zeroTarget
  | insufficientParentWork (hashLe targetLe : Hash)
  | invalidEquihash
  | invalidParentCoinbase
  | parentCoinbaseIndexNotZero (index : UInt32)
  | parentMerkleRootMismatch
  | parentAuthDataIndexNotZero (index : UInt32)
  | parentMerkleDepthMismatch (transaction authData : Nat)
  | parentBlockCommitmentsMismatch
  | auxiliaryTreeDepthTooLarge (depth : Nat)
  | merkleIndexOutOfRange (tree : String) (index : UInt32) (treeSize : Nat)
  | auxiliaryTreeSizeMismatch (committed expected : UInt32)
  | auxiliaryIndexMismatch (actual expected : UInt32)
  | missingMinerDataCommitment
  | commitmentNotMinerDataSuffix
  | duplicateCommitmentMarker
  | auxiliaryRootMismatch
  deriving DecidableEq

/-! ## Digests -/

/-- The digest functions supplied by `sha2` and `blake2b_simd`. -/
structure Digests where
  /-- `Sha256::digest`. -/
  sha256 : Bytes → Hash
  /-- A 32-byte BLAKE2b digest under a 16-byte personalization. -/
  blake2b : Bytes → Bytes → Hash

def sha256d (d : Digests) (bytes : Bytes) : Hash :=
  d.sha256 (d.sha256 bytes).data

/-! ## Target -/

/-- A nonzero 256-bit target in little-endian numeric byte order. -/
structure Target where
  bytes : Hash
  nonzero : bytes ≠ .fill 32 0
  deriving DecidableEq

def Target.fromLeBytes (bytes : Hash) : Except AuxPowError Target :=
  if h : bytes = .fill 32 0 then .error .zeroTarget else .ok ⟨bytes, h⟩

/-- The comparison loop of `is_met_by_le_hash`, over the byte pairs from
the most significant end. -/
def Target.metFrom : List (UInt8 × UInt8) → Bool
  | [] => true
  | (h, t) :: rest =>
    match compare h.toNat t.toNat with
    | .lt => true
    | .gt => false
    | .eq => Target.metFrom rest

def Target.isMetByLeHash (t : Target) (hashLe : Hash) : Bool :=
  Target.metFrom (hashLe.data.zip t.bytes.data).reverse

/-- The byte loop decides the numeric order: the high bytes `hs`, `ts` win
unless they agree, and then the bytes `low` below them decide. -/
theorem Target.metFrom_reverse_zip (hs ts : Bytes) (low : List (UInt8 × UInt8))
    (hlen : hs.length = ts.length) :
    Target.metFrom ((hs.zip ts).reverse ++ low) = true ↔
      leNat hs < leNat ts ∨ (leNat hs = leNat ts ∧ Target.metFrom low = true) := by
  induction hs generalizing ts low with
  | nil =>
    obtain rfl := length_eq_zero_iff.mp hlen.symm
    simp
  | cons b hs ih =>
    cases ts with
    | nil => simp at hlen
    | cons c ts =>
      have hb : b.toNat < 256 := b.toNat_lt
      have hc : c.toNat < 256 := c.toNat_lt
      have hmet : Target.metFrom ((b, c) :: low) = true ↔
          b.toNat < c.toNat ∨ (b.toNat = c.toNat ∧ Target.metFrom low = true) := by
        rcases Nat.lt_trichotomy b.toNat c.toNat with h | h | h
        · have hcmp : compare b.toNat c.toNat = .lt := Nat.compare_eq_lt.mpr h
          simp [Target.metFrom, hcmp, h]
        · simp [Target.metFrom, h]
        · have hcmp : compare b.toNat c.toNat = .gt := Nat.compare_eq_gt.mpr h
          simp only [Target.metFrom, hcmp, Bool.false_eq_true, false_iff]
          omega
      rw [zip_cons_cons, reverse_cons, append_assoc, singleton_append,
        ih ts _ (by simpa using hlen), hmet, leNat, leNat]
      constructor
      · rintro (h | ⟨h, h' | ⟨h', hlow⟩⟩)
        · exact .inl (by omega)
        · exact .inl (by omega)
        · exact .inr ⟨by omega, hlow⟩
      · rintro (h | ⟨h, hlow⟩)
        · by_cases heq : leNat hs = leNat ts
          · exact .inr ⟨heq, .inl (by omega)⟩
          · exact .inl (by omega)
        · exact .inr ⟨by omega, .inr ⟨by omega, hlow⟩⟩

/-- A hash meets the target when it is numerically at most the target. -/
theorem Target.isMetByLeHash_iff (t : Target) (hashLe : Hash) :
    t.isMetByLeHash hashLe = true ↔ leNat hashLe.data ≤ leNat t.bytes.data := by
  have h := Target.metFrom_reverse_zip hashLe.data t.bytes.data [] (by simp)
  rw [append_nil] at h
  rw [Target.isMetByLeHash, h]
  simp only [Target.metFrom, and_true]
  omega

/-! ## Parent header -/

def nonceStart : Nat := 4 + 32 * 3 + 4 * 2
def solutionLengthStart : Nat := nonceStart + 32
def solutionStart : Nat := solutionLengthStart + 3
def canonicalSolutionLength : Bytes := [0xfd, 0x40, 0x05]

/-- `bytes[from..to]`. -/
def slice (bytes : Bytes) (start stop : Nat) : Bytes := (bytes.drop start).take (stop - start)

/-- One exact Equihash `(200, 9)` parent header. The fields are private
in the source and set only by `decode`, whose checks the last five
fields record. -/
structure ParentHeader where
  bytes : FixedBytes parentHeaderBytes
  version : UInt32
  advertisedNBits : UInt32
  version_eq : version = u32FromLeBytes (slice bytes.data 0 4)
  nBits_eq : advertisedNBits = u32FromLeBytes (slice bytes.data 104 108)
  version_signed : version >>> 31 = 0
  version_low : ¬ version < 4
  solution_length : slice bytes.data solutionLengthStart solutionStart = canonicalSolutionLength
  deriving DecidableEq

/-- The version 4 header whose other fields are all zero. -/
instance : Inhabited ParentHeader where
  default :=
    { bytes := ⟨[4, 0, 0, 0] ++ List.replicate 136 0 ++ canonicalSolutionLength ++
        List.replicate 1344 0, by decide +kernel⟩
      version := 4
      advertisedNBits := 0
      version_eq := by decide +kernel
      nBits_eq := by decide +kernel
      version_signed := by decide
      version_low := by decide
      solution_length := by decide +kernel }

namespace ParentHeader

/-- A header is determined by its bytes. -/
theorem ext_bytes {a b : ParentHeader} (h : a.bytes = b.bytes) : a = b := by
  cases a with | mk ab av an hav han _ _ _ =>
  cases b with | mk bb bv bn hbv hbn _ _ _ =>
  cases h
  cases hav; cases hbv; cases han; cases hbn
  rfl

def decode (bytes : Bytes) : Except AuxPowError ParentHeader :=
  if hlen : bytes.length ≠ parentHeaderBytes then
    .error (.invalidHeaderLength bytes.length parentHeaderBytes)
  else
    let version := u32FromLeBytes (slice bytes 0 4)
    if hhigh : version >>> 31 ≠ 0 then
      .error (.headerVersionHighBit version)
    else if hlow : version < 4 then
      .error (.headerVersionTooLow version)
    else if hsol : slice bytes solutionLengthStart solutionStart ≠ canonicalSolutionLength then
      .error .nonCanonicalSolutionLength
    else
      .ok
        { bytes := ⟨bytes, not_not.mp hlen⟩
          version := version
          advertisedNBits := u32FromLeBytes (slice bytes 104 108)
          version_eq := rfl
          nBits_eq := rfl
          version_signed := not_not.mp hhigh
          version_low := hlow
          solution_length := not_not.mp hsol }

variable {h : ParentHeader}

/-- Decoding accepts exactly the bytes of a header. -/
theorem decode_eq_ok {bytes : Bytes} : decode bytes = .ok h ↔ h.bytes.data = bytes := by
  constructor
  · intro hok
    unfold decode at hok
    split at hok
    · cases hok
    · simp only at hok
      split at hok
      · cases hok
      · split at hok
        · cases hok
        · split at hok
          · cases hok
          · cases hok
            rfl
  · rintro rfl
    have hlen : ¬ h.bytes.data.length ≠ parentHeaderBytes := by simp
    unfold decode
    rw [dif_neg hlen]
    simp only [← h.version_eq]
    rw [dif_neg (by simp [h.version_signed]), dif_neg h.version_low,
      dif_neg (by simp [h.solution_length])]
    exact congrArg Except.ok (ext_bytes rfl)

def merkleRoot (h : ParentHeader) : Hash := .copyFromSlice 32 (slice h.bytes.data 36 68)

def blockCommitmentsHash (h : ParentHeader) : Hash :=
  .copyFromSlice 32 (slice h.bytes.data 68 100)

/-- `block_hash`, in little-endian numeric order. -/
def blockHash (d : Digests) (h : ParentHeader) : Hash := sha256d d h.bytes.data

def checkTarget (d : Digests) (h : ParentHeader) (requiredTarget : Target) :
    Except AuxPowError Hash := do
  let blockHash := h.blockHash d
  rejectIf (¬ requiredTarget.isMetByLeHash blockHash = true)
    (.insufficientParentWork blockHash requiredTarget.bytes)
  .ok blockHash

theorem checkTarget_eq_ok {d : Digests} {t : Target} {hash : Hash} :
    h.checkTarget d t = .ok hash ↔
      leNat (h.blockHash d).data ≤ leNat t.bytes.data ∧ hash = h.blockHash d := by
  rw [checkTarget, bind_eq_ok]
  constructor
  · rintro ⟨_, hmet, hok⟩
    cases hok
    exact ⟨(t.isMetByLeHash_iff _).mp (of_rejectIf hmet), rfl⟩
  · rintro ⟨hle, rfl⟩
    exact ⟨(), rejectIf_eq_ok.mpr (not_not.mpr ((t.isMetByLeHash_iff _).mpr hle)), rfl⟩

end ParentHeader

end Wolf.AuxPow
