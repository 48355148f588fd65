import Wolf.AuxPow.Codec
import Wolf.AuxPow.Merkle

/-! # Proof framing

The AuxPoW proof record with its constructor, decoder and encoder
(`AuxPowProof::{new, decode, encode}`).

The byte format is one canonical reader: `readFields` accepts exactly
the output of `encodeFields`. `decode` adds the outer length bound,
the check for trailing bytes and `new`; the framing theorem
`framing_canonical` says that decoding and encoding are inverse. -/

namespace Wolf.AuxPow

open List

/-! ## The record -/

/-- Structurally decoded AuxPoW proof. -/
structure AuxPowProof where
  coinbaseBytes : Bytes
  parentMerkleBranch : List Hash
  parentCoinbaseIndex : UInt32
  authDataMerkleBranch : List Hash
  authDataCoinbaseIndex : UInt32
  chainHistoryRoot : Hash
  auxiliaryMerkleBranch : List Hash
  auxiliaryIndex : UInt32
  parentHeader : ParentHeader
  deriving DecidableEq

def checkBranch (name : String) (actual maximum : Nat) : Except AuxPowError Unit :=
  rejectIf (maximum < actual) (.branchTooLong name actual maximum)

namespace AuxPowProof

def checkBounds (p : AuxPowProof) : Except AuxPowError Unit := do
  rejectIf (maxCoinbaseBytes < p.coinbaseBytes.length)
    (.coinbaseTooLarge p.coinbaseBytes.length maxCoinbaseBytes)
  checkBranch "parent" p.parentMerkleBranch.length maxParentBranchDepth
  checkBranch "auth-data" p.authDataMerkleBranch.length maxAuthDataBranchDepth
  checkBranch "auxiliary" p.auxiliaryMerkleBranch.length maxAuxiliaryBranchDepth
  rejectIf (p.parentCoinbaseIndex ≠ 0) (.parentCoinbaseIndexNotZero p.parentCoinbaseIndex)
  rejectIf (p.authDataCoinbaseIndex ≠ 0) (.parentAuthDataIndexNotZero p.authDataCoinbaseIndex)
  rejectIf (p.parentMerkleBranch.length ≠ p.authDataMerkleBranch.length)
    (.parentMerkleDepthMismatch p.parentMerkleBranch.length p.authDataMerkleBranch.length)
  let treeSize ← auxiliaryTreeSize p.auxiliaryMerkleBranch.length
  rejectIf (treeSize ≤ p.auxiliaryIndex)
    (.merkleIndexOutOfRange "auxiliary" p.auxiliaryIndex treeSize.toNat)

def encodedLen (p : AuxPowProof) : Except AuxPowError Nat := do
  let branchBytes ← okOr
    ((checkedSum usizeBits p.parentMerkleBranch.length
      [p.authDataMerkleBranch.length, p.auxiliaryMerkleBranch.length]).bind fun nodes =>
        checkedMul usizeBits nodes 32)
    .encodingLengthOverflow
  okOr
    (checkedSum usizeBits proofMagic.data.length
      [1, compactSizeLen p.coinbaseBytes.length, p.coinbaseBytes.length,
        compactSizeLen p.parentMerkleBranch.length, branchBytes, 4,
        compactSizeLen p.authDataMerkleBranch.length, 4, 32,
        compactSizeLen p.auxiliaryMerkleBranch.length, 4, parentHeaderBytes])
    .encodingLengthOverflow

def new (coinbaseBytes : Bytes) (parentMerkleBranch : List Hash) (parentCoinbaseIndex : UInt32)
    (authDataMerkleBranch : List Hash) (authDataCoinbaseIndex : UInt32)
    (chainHistoryRoot : Hash) (auxiliaryMerkleBranch : List Hash) (auxiliaryIndex : UInt32)
    (parentHeader : ParentHeader) : Except AuxPowError AuxPowProof := do
  let proof : AuxPowProof :=
    { coinbaseBytes, parentMerkleBranch, parentCoinbaseIndex, authDataMerkleBranch,
      authDataCoinbaseIndex, chainHistoryRoot, auxiliaryMerkleBranch, auxiliaryIndex,
      parentHeader }
  proof.checkBounds
  let length ← proof.encodedLen
  rejectIf (maxProofBytes < length) (.proofTooLarge length maxProofBytes)
  .ok proof

end AuxPowProof

/-! ## The byte format -/

/-- `write_branch`: the bytes pushed to the output. -/
def writeBranch (branch : List Hash) : Bytes :=
  encodeCompactSize branch.length ++ branch.flatMap FixedBytes.data

def readBranch (name : String) (maximum : Nat) (r : Reader) :
    Except AuxPowError (List Hash × Reader) := do
  let (length, r) ← r.readCompactSize
  checkBranch name length maximum
  readMany (Reader.readArray 32 "Merkle branch node") length r

namespace AuxPowProof

/-- The fields of a proof in the order `encode` writes them. -/
def encodeFields (p : AuxPowProof) : Bytes :=
  proofMagic.data ++ ([proofVersion] ++ (encodeCompactSize p.coinbaseBytes.length ++
    (p.coinbaseBytes ++ (writeBranch p.parentMerkleBranch ++
    (u32ToLeBytes p.parentCoinbaseIndex ++ (writeBranch p.authDataMerkleBranch ++
    (u32ToLeBytes p.authDataCoinbaseIndex ++ (p.chainHistoryRoot.data ++
    (writeBranch p.auxiliaryMerkleBranch ++ (u32ToLeBytes p.auxiliaryIndex ++
    p.parentHeader.bytes.data))))))))))

/-- The reads of `decode`, up to the check for trailing bytes. -/
def readFields (r : Reader) : Except AuxPowError (AuxPowProof × Reader) := do
  let (magic, r) ← r.readArray 4 "proof magic"
  rejectIf (magic ≠ proofMagic) (.invalidProofMagic magic)
  let (version, r) ← r.readU8 "proof version"
  rejectIf (version ≠ proofVersion) (.unsupportedProofVersion version)
  let (coinbaseLength, r) ← r.readCompactSize
  rejectIf (maxCoinbaseBytes < coinbaseLength) (.coinbaseTooLarge coinbaseLength maxCoinbaseBytes)
  let (coinbaseBytes, r) ← r.readSlice coinbaseLength "parent coinbase transaction"
  let (parentMerkleBranch, r) ← readBranch "parent" maxParentBranchDepth r
  let (parentCoinbaseIndex, r) ← r.readU32Le "parent coinbase index"
  let (authDataMerkleBranch, r) ← readBranch "auth-data" maxAuthDataBranchDepth r
  let (authDataCoinbaseIndex, r) ← r.readU32Le "auth-data coinbase index"
  let (chainHistoryRoot, r) ← r.readArray 32 "chain-history root"
  let (auxiliaryMerkleBranch, r) ← readBranch "auxiliary" maxAuxiliaryBranchDepth r
  let (auxiliaryIndex, r) ← r.readU32Le "auxiliary index"
  let (headerBytes, r) ← r.readSlice parentHeaderBytes "parent header"
  let parentHeader ← ParentHeader.decode headerBytes
  .ok ({ coinbaseBytes, parentMerkleBranch, parentCoinbaseIndex, authDataMerkleBranch,
         authDataCoinbaseIndex, chainHistoryRoot, auxiliaryMerkleBranch, auxiliaryIndex,
         parentHeader }, r)

def decode (bytes : Bytes) : Except AuxPowError AuxPowProof :=
  if h : maxProofBytes < bytes.length then
    .error (.proofTooLarge bytes.length maxProofBytes)
  else do
    let (p, r) ← readFields (Reader.new bytes (by
      unfold maxProofBytes at h; unfold usizeBits; omega))
    rejectIf (r.remaining ≠ 0) (.trailingBytes r.remaining)
    new p.coinbaseBytes p.parentMerkleBranch p.parentCoinbaseIndex p.authDataMerkleBranch
      p.authDataCoinbaseIndex p.chainHistoryRoot p.auxiliaryMerkleBranch p.auxiliaryIndex
      p.parentHeader

def encode (p : AuxPowProof) : Except AuxPowError Bytes := do
  p.checkBounds
  let length ← p.encodedLen
  rejectIf (maxProofBytes < length) (.proofTooLarge length maxProofBytes)
  .ok p.encodeFields

end AuxPowProof

/-! ## Static bounds -/

theorem checkBranch_eq_ok {name : String} {actual maximum : Nat} {u : Unit} :
    checkBranch name actual maximum = .ok u ↔ actual ≤ maximum := by
  rw [checkBranch, rejectIf_eq_ok]
  exact Nat.not_lt

variable {p : AuxPowProof} {b : Bytes}

namespace AuxPowProof

/-- The lengths that the reads of `decode` accept. -/
structure Readable (p : AuxPowProof) : Prop where
  coinbase_le : p.coinbaseBytes.length ≤ maxCoinbaseBytes
  parent_le : p.parentMerkleBranch.length ≤ maxParentBranchDepth
  authData_le : p.authDataMerkleBranch.length ≤ maxAuthDataBranchDepth
  auxiliary_le : p.auxiliaryMerkleBranch.length ≤ maxAuxiliaryBranchDepth

/-- The static bounds of a proof. -/
structure WithinBounds (p : AuxPowProof) : Prop extends readable : Readable p where
  parentIndex_zero : p.parentCoinbaseIndex = 0
  authDataIndex_zero : p.authDataCoinbaseIndex = 0
  depth_eq : p.parentMerkleBranch.length = p.authDataMerkleBranch.length
  index_lt : p.auxiliaryIndex.toNat < 2 ^ p.auxiliaryMerkleBranch.length

theorem checkBounds_eq_ok {u : Unit} : p.checkBounds = .ok u ↔ p.WithinBounds := by
  simp only [checkBounds, bind_eq_ok, rejectIf_eq_ok, checkBranch_eq_ok, auxiliaryTreeSize_eq_ok,
    not_not, Nat.not_lt, UInt32.le_iff_toNat_le, Nat.not_le, exists_const]
  constructor
  · rintro ⟨hcb, hp, had, haux, hpi, hadi, hdepth, size, ⟨_, hsize⟩, hidx⟩
    exact ⟨⟨hcb, hp, had, haux⟩, hpi, hadi, hdepth, hsize ▸ hidx⟩
  · intro h
    have haux := h.auxiliary_le
    unfold maxAuxiliaryBranchDepth at haux
    have hpow : 2 ^ p.auxiliaryMerkleBranch.length < 2 ^ 32 :=
      Nat.pow_lt_pow_right (by omega) (by omega)
    have hsize : (UInt32.ofNat (2 ^ p.auxiliaryMerkleBranch.length)).toNat =
        2 ^ p.auxiliaryMerkleBranch.length := by
      rw [UInt32.toNat_ofNat', Nat.mod_eq_of_lt hpow]
    refine ⟨h.coinbase_le, h.parent_le, h.authData_le, h.auxiliary_le, h.parentIndex_zero,
      h.authDataIndex_zero, h.depth_eq, _, ⟨h.auxiliary_le, hsize⟩, ?_⟩
    rw [hsize]
    exact h.index_lt

end AuxPowProof

/-! ## Lengths -/

theorem length_writeBranch (branch : List Hash) :
    (writeBranch branch).length = compactSizeLen branch.length + branch.length * 32 := by
  rw [writeBranch, length_append, length_encodeCompactSize, length_flatMap]
  simp

theorem compactSizeLen_le (value : Nat) : compactSizeLen value ≤ 9 := by
  unfold compactSizeLen
  split_ifs <;> omega

namespace AuxPowProof

theorem length_encodeFields (p : AuxPowProof) :
    p.encodeFields.length =
      4 + 1 + compactSizeLen p.coinbaseBytes.length + p.coinbaseBytes.length +
        compactSizeLen p.parentMerkleBranch.length +
        (p.parentMerkleBranch.length + p.authDataMerkleBranch.length +
          p.auxiliaryMerkleBranch.length) * 32 + 4 +
        compactSizeLen p.authDataMerkleBranch.length + 4 + 32 +
        compactSizeLen p.auxiliaryMerkleBranch.length + 4 + parentHeaderBytes := by
  have hmagic : proofMagic.data.length = 4 := rfl
  simp only [encodeFields, length_append, length_encodeCompactSize, length_writeBranch,
    length_u32ToLeBytes, FixedBytes.length_data, length_singleton]
  omega

/-- A proof within its bounds fits the proof size limit. -/
theorem length_encodeFields_le (h : p.WithinBounds) : p.encodeFields.length ≤ maxProofBytes := by
  have hcb := h.coinbase_le
  have hp := h.parent_le
  have had := h.authData_le
  have haux := h.auxiliary_le
  have hheader : parentHeaderBytes = 1487 := rfl
  have c1 := compactSizeLen_le p.coinbaseBytes.length
  have c2 := compactSizeLen_le p.parentMerkleBranch.length
  have c3 := compactSizeLen_le p.authDataMerkleBranch.length
  have c4 := compactSizeLen_le p.auxiliaryMerkleBranch.length
  unfold maxCoinbaseBytes at hcb
  unfold maxParentBranchDepth at hp
  unfold maxAuthDataBranchDepth at had
  unfold maxAuxiliaryBranchDepth at haux
  unfold maxProofBytes
  rw [length_encodeFields]
  omega

/-- The checked sum of `encoded_len` is the length of the written bytes. -/
theorem encodedLen_eq (h : p.WithinBounds) : p.encodedLen = .ok p.encodeFields.length := by
  have hmagic : proofMagic.data.length = 4 := rfl
  -- No partial sum overflows, since the whole is below the size limit.
  have hle := length_encodeFields_le h
  have hmax : maxProofBytes < 2 ^ usizeBits := by decide
  have hlen := length_encodeFields p
  rw [encodedLen, checkedSum_of_lt (by simp only [sum_cons, sum_nil]; omega),
    Option.bind_some, checkedMul_of_lt (by simp only [sum_cons, sum_nil]; omega),
    okOr_bind, checkedSum_of_lt (by simp only [sum_cons, sum_nil]; omega),
    okOr_some]
  apply congrArg Except.ok
  simp only [sum_cons, sum_nil]
  omega

/-- `new` and `encode` check the bounds and the length before they return. -/
theorem checked_eq_ok {α : Type} {a a' : α} :
    (do
      p.checkBounds
      let length ← p.encodedLen
      rejectIf (maxProofBytes < length) (.proofTooLarge length maxProofBytes)
      .ok a : Except AuxPowError α) = .ok a' ↔ p.WithinBounds ∧ a = a' := by
  constructor
  · intro hok
    obtain ⟨_, hbounds, hok⟩ := of_bind hok
    have hw := checkBounds_eq_ok.mp hbounds
    rw [encodedLen_eq hw] at hok
    obtain ⟨_, hok⟩ := of_rejectIf_bind hok
    exact ⟨hw, Except.ok.inj hok⟩
  · rintro ⟨hw, rfl⟩
    rw [checkBounds_eq_ok (u := ()) |>.mpr hw, ok_bind, encodedLen_eq hw, ok_bind,
      rejectIf_bind (Nat.not_lt.mpr (length_encodeFields_le hw))]

theorem encode_eq_ok : p.encode = .ok b ↔ p.WithinBounds ∧ p.encodeFields = b := checked_eq_ok

theorem new_eq_ok {cb : Bytes} {pb ab xb : List Hash} {pi ai xi : UInt32} {root : Hash}
    {header : ParentHeader} :
    new cb pb pi ab ai root xb xi header = .ok p ↔
      p.WithinBounds ∧ ⟨cb, pb, pi, ab, ai, root, xb, xi, header⟩ = p := by
  refine checked_eq_ok.trans ⟨?_, ?_⟩ <;>
  · rintro ⟨hw, rfl⟩
    exact ⟨hw, rfl⟩

end AuxPowProof

/-! ## The format is canonical -/

theorem readBranch_canonical (name : String) {maximum : Nat} (hmax : maximum < 2 ^ usizeBits) :
    Canonical Reader.rest (readBranch name maximum) writeBranch
      (fun branch => branch.length ≤ maximum) := by
  refine ⟨?_, ?_⟩
  · intro r branch rest hlen hview
    rw [writeBranch, append_assoc] at hview
    obtain ⟨r₁, hr₁, hview₁⟩ := Reader.readCompactSize_canonical.complete r branch.length _
      (Nat.lt_of_le_of_lt hlen hmax) hview
    obtain ⟨r₂, hr₂, hview₂⟩ :=
      ((Reader.readArray_canonical 32 "Merkle branch node").readMany branch.length).complete
        r₁ branch rest ⟨rfl, fun _ _ => trivial⟩ hview₁
    refine ⟨r₂, ?_, hview₂⟩
    rw [readBranch, hr₁, ok_bind]
    dsimp only
    rw [checkBranch_eq_ok (u := ()) |>.mpr hlen]
    exact hr₂
  · intro r branch r' hok
    obtain ⟨⟨length, r₁⟩, hr₁, hok⟩ := of_bind hok
    obtain ⟨_, hmax, hok⟩ := of_bind hok
    obtain ⟨_, hview⟩ := Reader.readCompactSize_canonical.sound r length r₁ hr₁
    obtain ⟨⟨hlen, _⟩, hview'⟩ :=
      ((Reader.readArray_canonical 32 _).readMany length).sound r₁ branch r' hok
    refine ⟨hlen ▸ checkBranch_eq_ok.mp hmax, ?_⟩
    rw [hview, hview', writeBranch, hlen, append_assoc]

namespace AuxPowProof

variable {rest : Bytes}

theorem readFields_complete {r : Reader} (h : p.Readable)
    (hview : r.rest = p.encodeFields ++ rest) :
    ∃ r', readFields r = .ok (p, r') ∧ r'.rest = rest := by
  simp only [encodeFields, append_assoc] at hview
  have hcb : p.coinbaseBytes.length < 2 ^ usizeBits := by
    have := h.coinbase_le
    unfold maxCoinbaseBytes at this
    unfold usizeBits
    omega
  -- One reader state behind each field, in the order of the format.
  obtain ⟨r₁, hr₁, hview⟩ :=
    (Reader.readArray_canonical 4 "proof magic").complete r proofMagic _ trivial hview
  obtain ⟨r₂, hr₂, hview⟩ :=
    (Reader.readU8_canonical "proof version").complete r₁ proofVersion _ trivial hview
  obtain ⟨r₃, hr₃, hview⟩ := Reader.readCompactSize_canonical.complete r₂ _ _ hcb hview
  obtain ⟨r₄, hr₄, hview⟩ :=
    (Reader.readSlice_canonical _ "parent coinbase transaction").complete r₃ _ _ rfl hview
  obtain ⟨r₅, hr₅, hview⟩ :=
    (readBranch_canonical "parent" (by decide)).complete r₄ _ _ h.parent_le hview
  obtain ⟨r₆, hr₆, hview⟩ :=
    (Reader.readU32Le_canonical "parent coinbase index").complete r₅ _ _ trivial hview
  obtain ⟨r₇, hr₇, hview⟩ :=
    (readBranch_canonical "auth-data" (by decide)).complete r₆ _ _ h.authData_le hview
  obtain ⟨r₈, hr₈, hview⟩ :=
    (Reader.readU32Le_canonical "auth-data coinbase index").complete r₇ _ _ trivial hview
  obtain ⟨r₉, hr₉, hview⟩ :=
    (Reader.readArray_canonical 32 "chain-history root").complete r₈ _ _ trivial hview
  obtain ⟨r₁₀, hr₁₀, hview⟩ :=
    (readBranch_canonical "auxiliary" (by decide)).complete r₉ _ _ h.auxiliary_le hview
  obtain ⟨r₁₁, hr₁₁, hview⟩ :=
    (Reader.readU32Le_canonical "auxiliary index").complete r₁₀ _ _ trivial hview
  obtain ⟨r₁₂, hr₁₂, hview⟩ :=
    (Reader.readSlice_canonical parentHeaderBytes "parent header").complete r₁₁ _ _
      p.parentHeader.bytes.size_eq hview
  refine ⟨r₁₂, ?_, hview⟩
  have hheader : ParentHeader.decode p.parentHeader.bytes.data = .ok p.parentHeader :=
    ParentHeader.decode_eq_ok.mpr rfl
  have hlength : ¬ maxCoinbaseBytes < p.coinbaseBytes.length := Nat.not_lt.mpr h.coinbase_le
  simp only [readFields, hr₁, hr₂, hr₃, hr₄, hr₅, hr₆, hr₇, hr₈, hr₉, hr₁₀, hr₁₁, hr₁₂, hheader,
    ok_bind, rejectIf_of_not hlength, rejectIf_of_not (not_not.mpr rfl)]

theorem readFields_sound {r r' : Reader} (hok : readFields r = .ok (p, r')) :
    p.Readable ∧ r.rest = p.encodeFields ++ r'.rest := by
  obtain ⟨⟨magic, r₁⟩, hr₁, hok⟩ := of_bind hok
  obtain ⟨hmagic, hok⟩ := of_require_bind hok
  obtain ⟨⟨version, r₂⟩, hr₂, hok⟩ := of_bind hok
  obtain ⟨hversion, hok⟩ := of_require_bind hok
  obtain ⟨⟨length, r₃⟩, hr₃, hok⟩ := of_bind hok
  obtain ⟨hlength, hok⟩ := of_rejectIf_bind hok
  obtain ⟨⟨coinbase, r₄⟩, hr₄, hok⟩ := of_bind hok
  obtain ⟨⟨parent, r₅⟩, hr₅, hok⟩ := of_bind hok
  obtain ⟨⟨parentIndex, r₆⟩, hr₆, hok⟩ := of_bind hok
  obtain ⟨⟨authData, r₇⟩, hr₇, hok⟩ := of_bind hok
  obtain ⟨⟨authDataIndex, r₈⟩, hr₈, hok⟩ := of_bind hok
  obtain ⟨⟨root, r₉⟩, hr₉, hok⟩ := of_bind hok
  obtain ⟨⟨auxiliary, r₁₀⟩, hr₁₀, hok⟩ := of_bind hok
  obtain ⟨⟨index, r₁₁⟩, hr₁₁, hok⟩ := of_bind hok
  obtain ⟨⟨headerBytes, r₁₂⟩, hr₁₂, hok⟩ := of_bind hok
  obtain ⟨header, hheader, hok⟩ := of_bind hok
  cases hok
  -- What each read took off the front, from the first field to the header.
  obtain ⟨_, hv₁⟩ := (Reader.readArray_canonical 4 _).sound _ _ _ hr₁
  obtain ⟨_, hv₂⟩ := (Reader.readU8_canonical _).sound _ _ _ hr₂
  obtain ⟨_, hv₃⟩ := Reader.readCompactSize_canonical.sound _ _ _ hr₃
  obtain ⟨hlen, hv₄⟩ := (Reader.readSlice_canonical _ _).sound _ _ _ hr₄
  obtain ⟨hparent, hv₅⟩ := (readBranch_canonical _ (by decide)).sound _ _ _ hr₅
  obtain ⟨_, hv₆⟩ := (Reader.readU32Le_canonical _).sound _ _ _ hr₆
  obtain ⟨hauthData, hv₇⟩ := (readBranch_canonical _ (by decide)).sound _ _ _ hr₇
  obtain ⟨_, hv₈⟩ := (Reader.readU32Le_canonical _).sound _ _ _ hr₈
  obtain ⟨_, hv₉⟩ := (Reader.readArray_canonical 32 _).sound _ _ _ hr₉
  obtain ⟨hauxiliary, hv₁₀⟩ := (readBranch_canonical _ (by decide)).sound _ _ _ hr₁₀
  obtain ⟨_, hv₁₁⟩ := (Reader.readU32Le_canonical _).sound _ _ _ hr₁₁
  obtain ⟨_, hv₁₂⟩ := (Reader.readSlice_canonical _ _).sound _ _ _ hr₁₂
  have hheader := ParentHeader.decode_eq_ok.mp hheader
  subst hmagic hversion hlen hheader
  refine ⟨⟨Nat.not_lt.mp hlength, hparent, hauthData, hauxiliary⟩, ?_⟩
  rw [hv₁, hv₂, hv₃, hv₄, hv₅, hv₆, hv₇, hv₈, hv₉, hv₁₀, hv₁₁, hv₁₂]
  simp only [encodeFields, append_assoc]

theorem readFields_canonical : Canonical Reader.rest readFields encodeFields Readable :=
  ⟨fun _ _ _ h hview => readFields_complete h hview, fun _ _ _ hok => readFields_sound hok⟩

/-- No written form is a strict prefix of another one. -/
theorem encodeFields_eq_of_append {q : AuxPowProof} (hp : p.WithinBounds) (hq : q.WithinBounds)
    (happ : p.encodeFields ++ rest = q.encodeFields) : p.encodeFields = q.encodeFields := by
  have hlen : q.encodeFields.length < 2 ^ usizeBits :=
    Nat.lt_of_le_of_lt (length_encodeFields_le hq) (by decide)
  obtain ⟨r, hread, _⟩ := readFields_canonical.complete (Reader.new q.encodeFields hlen) q []
    hq.readable (by simp)
  obtain ⟨rfl, _⟩ := readFields_canonical.on_extension hp.readable
    ((Reader.rest_new _ hlen).trans happ.symm) hread
  rfl

/-- Decoding accepts exactly the written form of the proofs within bounds. -/
theorem decode_eq_ok : decode b = .ok p ↔ p.WithinBounds ∧ p.encodeFields = b := by
  unfold decode
  by_cases hlong : maxProofBytes < b.length
  · rw [dif_pos hlong]
    constructor
    · intro hok
      cases hok
    · rintro ⟨hw, rfl⟩
      exact absurd hlong (Nat.not_lt.mpr (length_encodeFields_le hw))
  · rw [dif_neg hlong]
    constructor
    · intro hok
      obtain ⟨⟨q, r⟩, hread, hok⟩ := of_bind hok
      obtain ⟨hrest, hok⟩ := of_require_bind hok
      have hnil : r.rest = [] := by
        rw [← length_eq_zero_iff, ← r.remaining_eq]
        exact hrest
      obtain ⟨hw, rfl⟩ := new_eq_ok.mp hok
      obtain ⟨_, hview⟩ := readFields_canonical.whole_iff.mp ⟨r, hread, hnil⟩
      exact ⟨hw, hview.symm⟩
    · rintro ⟨hw, rfl⟩
      obtain ⟨r, hread, hnil⟩ := readFields_canonical.whole_iff.mpr
        ⟨hw.readable, Reader.rest_new p.encodeFields
          (Nat.lt_of_le_of_lt (length_encodeFields_le hw) (by decide))⟩
      have hremaining : ¬ r.remaining ≠ 0 := by simp [r.remaining_eq, hnil]
      rw [hread, ok_bind]
      dsimp only
      rw [rejectIf_bind hremaining]
      exact new_eq_ok.mpr ⟨hw, rfl⟩

/-- Decoding and encoding are inverse to each other. -/
theorem decode_eq_ok_iff_encode : decode b = .ok p ↔ p.encode = .ok b := by
  rw [decode_eq_ok, encode_eq_ok]

/-- The framing is canonical: what `new` returns is written, with the
length `encoded_len` promises, and read back; what is accepted is the
written form of the result; so no proof has two encodings, and no
strict prefix or extension of an encoding is an encoding. -/
theorem framing_canonical :
    (∀ cb pb pi ab ai root xb xi header p,
      new cb pb pi ab ai root xb xi header = .ok p →
        ∃ b, p.encode = .ok b ∧ p.encodedLen = .ok b.length ∧ decode b = .ok p) ∧
    (∀ b p, decode b = .ok p → p.encode = .ok b) ∧
    (∀ b b' p, decode b = .ok p → decode b' = .ok p → b = b') ∧
    (∀ b b' p, decode b = .ok p → (b' <+: b ∨ b <+: b') → b' ≠ b → ∃ e, decode b' = .error e) := by
  refine ⟨?_, ?_, ?_, ?_⟩
  · intro cb pb pi ab ai root xb xi header p hnew
    obtain ⟨hw, _⟩ := new_eq_ok.mp hnew
    have hencode : p.encode = .ok p.encodeFields := encode_eq_ok.mpr ⟨hw, rfl⟩
    exact ⟨p.encodeFields, hencode, encodedLen_eq hw, decode_eq_ok_iff_encode.mpr hencode⟩
  · intro b p hok
    exact decode_eq_ok_iff_encode.mp hok
  · intro b b' p hb hb'
    obtain ⟨_, rfl⟩ := decode_eq_ok.mp hb
    exact (decode_eq_ok.mp hb').2
  · intro b b' p hb hext hne
    cases hb' : decode b' with
    | error e => exact ⟨e, rfl⟩
    | ok q =>
      exfalso
      obtain ⟨hw, rfl⟩ := decode_eq_ok.mp hb
      obtain ⟨hw', rfl⟩ := decode_eq_ok.mp hb'
      -- Of two written forms in prefix order the reader stops at the shorter one.
      rcases hext with ⟨rest, happ⟩ | ⟨rest, happ⟩
      · exact hne (encodeFields_eq_of_append hw' hw happ)
      · exact hne (encodeFields_eq_of_append hw hw' happ).symm

/-- Four bytes of coinbase, branches of depth two and one auxiliary neighbour. -/
def sampleProof : AuxPowProof :=
  ⟨[4, 0, 0, 128], [.fill 32 1, .fill 32 2], 0, [.fill 32 3, .fill 32 4], 0, .fill 32 5,
    [.fill 32 6], 1, default⟩

/-- The sample goes through the framing. -/
theorem framing_canonical_sample :
    ∃ b, sampleProof.encode = .ok b ∧ decode b = .ok sampleProof := by
  have hw : sampleProof.WithinBounds :=
    ⟨⟨by decide, by decide, by decide, by decide⟩, rfl, rfl, rfl, by decide⟩
  obtain ⟨b, hencode, _, hdecode⟩ :=
    framing_canonical.1 _ _ _ _ _ _ _ _ _ _ (new_eq_ok.mpr ⟨hw, rfl⟩)
  exact ⟨b, hencode, hdecode⟩

end AuxPowProof

end Wolf.AuxPow
