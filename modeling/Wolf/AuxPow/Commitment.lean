import Wolf.AuxPow.Merkle

/-! # Miner-data commitments

The version-2 carrier at the end of the coinbase miner data
(`commitment.rs`): marker, reversed auxiliary root, tree size, nonce.

`Commits` states what a carrier says, with no reference to how it is
checked. `validateMinerDataCommitment_eq_ok` shows that the checks
accept exactly the committed blocks, and `Commits.unique` that one
miner-data string commits to one block at one slot. -/

namespace Wolf.AuxPow

open List

variable {branch : List Hash} {index nonce : UInt32} {d : Digests} {minerData carrier : Bytes}
  {blockHash : Hash} {v : ValidatedCommitment} {u : Unit}

/-! ## The checks -/

/-- `AUXILIARY_LEAF_DOMAIN`, `b"Wcash/ZcashAuxPoW/leaf/v2\0"`. -/
def auxiliaryLeafDomain : Bytes :=
  [0x57, 0x63, 0x61, 0x73, 0x68, 0x2f, 0x5a, 0x63, 0x61, 0x73, 0x68, 0x41, 0x75, 0x78, 0x50, 0x6f,
    0x57, 0x2f, 0x6c, 0x65, 0x61, 0x66, 0x2f, 0x76, 0x32, 0x00]

def minerRootStart : Nat := mergedMiningMarker.length
def minerRootEnd : Nat := minerRootStart + 32
def minerTreeSizeEnd : Nat := minerRootEnd + 4
def minerDataCommitmentBytes : Nat := 44

def auxiliaryLeafForChain (d : Digests) (chainId : UInt32) (blockHash : Hash) : Hash :=
  sha256d d (auxiliaryLeafDomain ++ u32ToLeBytes chainId ++ blockHash.data)

def auxiliaryLeaf (d : Digests) (auxiliaryBlockHash : Hash) : Hash :=
  auxiliaryLeafForChain d wcashAuxiliaryChainId auxiliaryBlockHash

structure ValidatedCommitment where
  auxiliaryRoot : Hash
  treeSize : UInt32
  nonce : UInt32
  auxiliaryIndex : UInt32
  deriving DecidableEq

def countMarkers (bytes : Bytes) : Nat :=
  ((windows mergedMiningMarker.length bytes).filter (· = mergedMiningMarker)).length

def checkAuxiliaryPosition (branch : List Hash) (index nonce : UInt32) :
    Except AuxPowError Unit := do
  let treeSize ← auxiliaryTreeSize branch.length
  rejectIf (treeSize ≤ index) (.merkleIndexOutOfRange "auxiliary" index treeSize.toNat)
  let expected ← expectedAuxiliaryIndex nonce branch.length
  rejectIf (index ≠ expected) (.auxiliaryIndexMismatch index expected)

def validateMinerDataCarrier (d : Digests) (carrier : Bytes) (auxiliaryBlockHash : Hash)
    (auxiliaryBranch : List Hash) (auxiliaryIndex : UInt32) :
    Except AuxPowError ValidatedCommitment := do
  let committedTreeSize := u32FromLeBytes (slice carrier minerRootEnd minerTreeSizeEnd)
  let nonce := u32FromLeBytes (carrier.drop minerTreeSizeEnd)
  checkAuxiliaryPosition auxiliaryBranch auxiliaryIndex nonce
  let expectedTreeSize ← auxiliaryTreeSize auxiliaryBranch.length
  rejectIf (committedTreeSize ≠ expectedTreeSize)
    (.auxiliaryTreeSizeMismatch committedTreeSize expectedTreeSize)
  let auxiliaryRoot ← sha256dMerkleRoot d (auxiliaryLeaf d auxiliaryBlockHash) auxiliaryBranch
    auxiliaryIndex
  let committedRoot :=
    (FixedBytes.copyFromSlice 32 (slice carrier minerRootStart minerRootEnd)).reverse
  rejectIf (committedRoot ≠ auxiliaryRoot) .auxiliaryRootMismatch
  .ok { auxiliaryRoot, treeSize := expectedTreeSize, nonce, auxiliaryIndex }

/-- The match on the number of markers in `validate_miner_data_commitment`. -/
def checkMarkerCount : Nat → Except AuxPowError Unit
  | 0 => .error .missingMinerDataCommitment
  | 1 => .ok ()
  | _ => .error .duplicateCommitmentMarker

def validateMinerDataCommitment (d : Digests) (minerData : Bytes) (auxiliaryBlockHash : Hash)
    (auxiliaryBranch : List Hash) (auxiliaryIndex : UInt32) :
    Except AuxPowError ValidatedCommitment := do
  rejectIf (maxAuxiliaryBranchDepth < auxiliaryBranch.length)
    (.branchTooLong "auxiliary" auxiliaryBranch.length maxAuxiliaryBranchDepth)
  checkMarkerCount (countMarkers minerData)
  let carrier ← okOr
    ((some (minerData.drop (minerData.length - minerDataCommitmentBytes))).filter
      fun carrier => carrier.length = minerDataCommitmentBytes)
    .commitmentNotMinerDataSuffix
  rejectIf (carrier.take minerRootStart ≠ mergedMiningMarker) .commitmentNotMinerDataSuffix
  validateMinerDataCarrier d carrier auxiliaryBlockHash auxiliaryBranch auxiliaryIndex

/-! ## What a carrier commits to -/

/-- The root that a block, its branch and its index fold to. -/
def auxiliaryRoot (d : Digests) (blockHash : Hash) (branch : List Hash) (index : UInt32) : Hash :=
  pathRoot (sha256dPair d) (auxiliaryLeaf d blockHash) branch index.toNat

/-- The 44 bytes of a carrier. -/
def carrierBytes (root : Hash) (treeSize nonce : UInt32) : Bytes :=
  mergedMiningMarker ++ (root.reverse.data ++ (u32ToLeBytes treeSize ++ u32ToLeBytes nonce))

/-- The miner data commits to `blockHash` in the slot `index` under
`branch`, with the given tree size and nonce. -/
structure Commits (d : Digests) (minerData : Bytes) (blockHash : Hash) (branch : List Hash)
    (index treeSize nonce : UInt32) : Prop where
  depth_le : branch.length ≤ maxAuxiliaryBranchDepth
  /-- The marker occurs once, at the start of the last 44 bytes. -/
  marker_once : ∀ i, mergedMiningMarker <+: minerData.drop i ↔ i + 44 = minerData.length
  carrier : minerData.drop (minerData.length - 44) =
    carrierBytes (auxiliaryRoot d blockHash branch index) treeSize nonce
  treeSize_eq : treeSize.toNat = 2 ^ branch.length
  index_eq : expectedAuxiliaryIndex nonce branch.length = .ok index

/-- The four parts of a carrier can be read off its bytes. -/
theorem carrierBytes_injective {r₁ r₂ : Hash} {s₁ s₂ n₁ n₂ : UInt32}
    (h : carrierBytes r₁ s₁ n₁ = carrierBytes r₂ s₂ n₂) : r₁ = r₂ ∧ s₁ = s₂ ∧ n₁ = n₂ := by
  have h := append_cancel_left h
  obtain ⟨hroot, h⟩ := append_inj h (by simp)
  obtain ⟨hsize, hnonce⟩ := append_inj h (by simp [length_u32ToLeBytes])
  refine ⟨?_, u32ToLeBytes_injective hsize, u32ToLeBytes_injective hnonce⟩
  exact FixedBytes.reverse_injective (FixedBytes.ext hroot)

/-- A string of 44 bytes behind the marker is the carrier of the parts
that the checks read from it. -/
theorem eq_carrierBytes (hlen : carrier.length = 44)
    (hmarker : carrier.take minerRootStart = mergedMiningMarker) :
    carrier = carrierBytes
      (FixedBytes.copyFromSlice 32 (slice carrier minerRootStart minerRootEnd)).reverse
      (u32FromLeBytes (slice carrier minerRootEnd minerTreeSizeEnd))
      (u32FromLeBytes (carrier.drop minerTreeSizeEnd)) := by
  have hroot : (slice carrier minerRootStart minerRootEnd).length = 32 := by
    simp [slice, minerRootStart, minerRootEnd, mergedMiningMarker, hlen]
  have hsize : (slice carrier minerRootEnd minerTreeSizeEnd).length = 4 := by
    simp [slice, minerTreeSizeEnd, minerRootEnd, minerRootStart, mergedMiningMarker, hlen]
  have hnonce : (carrier.drop minerTreeSizeEnd).length = 4 := by
    simp [minerTreeSizeEnd, minerRootEnd, minerRootStart, mergedMiningMarker, hlen]
  rw [carrierBytes, FixedBytes.reverse_reverse, FixedBytes.copyFromSlice_data hroot,
    u32ToLeBytes_u32FromLeBytes hsize, u32ToLeBytes_u32FromLeBytes hnonce, ← hmarker]
  have hdrop₁ : carrier.drop minerRootEnd = (carrier.drop minerRootStart).drop 32 := by
    rw [drop_drop]
    rfl
  have hdrop₂ : carrier.drop minerTreeSizeEnd = (carrier.drop minerRootEnd).drop 4 := by
    rw [drop_drop]
    rfl
  have htail : slice carrier minerRootEnd minerTreeSizeEnd ++ carrier.drop minerTreeSizeEnd =
      carrier.drop minerRootEnd := by
    rw [hdrop₂]
    exact take_append_drop 4 _
  have hbody : slice carrier minerRootStart minerRootEnd ++ carrier.drop minerRootEnd =
      carrier.drop minerRootStart := by
    rw [hdrop₁]
    exact take_append_drop 32 _
  rw [htail, hbody, take_append_drop]

theorem checkAuxiliaryPosition_eq_ok :
    checkAuxiliaryPosition branch index nonce = .ok u ↔
      expectedAuxiliaryIndex nonce branch.length = .ok index := by
  constructor
  · intro hok
    obtain ⟨_, _, hok⟩ := of_two_binds hok
    obtain ⟨expected, hexpected, hok⟩ := of_bind hok
    have heq := of_rejectIf hok
    rw [heq]
    exact hexpected
  · intro hexpected
    obtain ⟨hle, hlt⟩ := expectedAuxiliaryIndex_lt hexpected
    obtain ⟨size, hsize, _⟩ := of_bind hexpected
    have hin : ¬ size ≤ index := by
      rw [UInt32.le_iff_toNat_le, (auxiliaryTreeSize_eq_ok.mp hsize).2]
      omega
    rw [checkAuxiliaryPosition, hsize, ok_bind, rejectIf_bind hin, hexpected]
    exact rejectIf_of_not (not_not.mpr rfl)

/-- The carrier checks accept exactly the carriers of the block. -/
theorem validateMinerDataCarrier_eq_ok (hlen : carrier.length = 44)
    (hmarker : carrier.take minerRootStart = mergedMiningMarker) :
    validateMinerDataCarrier d carrier blockHash branch index = .ok v ↔
      carrier = carrierBytes (auxiliaryRoot d blockHash branch index) v.treeSize v.nonce ∧
        v.treeSize.toNat = 2 ^ branch.length ∧
        expectedAuxiliaryIndex v.nonce branch.length = .ok index ∧
        v.auxiliaryRoot = auxiliaryRoot d blockHash branch index ∧ v.auxiliaryIndex = index := by
  have hcarrier := eq_carrierBytes hlen hmarker
  constructor
  · intro hok
    obtain ⟨_, hposition, hok⟩ := of_bind hok
    obtain ⟨size, hsize, hok⟩ := of_bind hok
    obtain ⟨hcommitted, hok⟩ := of_require_bind hok
    obtain ⟨root, hroot, hok⟩ := of_bind hok
    obtain ⟨hcommittedRoot, hok⟩ := of_require_bind hok
    cases hok
    obtain ⟨_, _, hroot⟩ := merkleRoot_eq_ok.mp hroot
    rw [hcommitted, hcommittedRoot, hroot] at hcarrier
    exact ⟨hcarrier, (auxiliaryTreeSize_eq_ok.mp hsize).2,
      checkAuxiliaryPosition_eq_ok.mp hposition, hroot, rfl⟩
  · rintro ⟨hbytes, hsize, hexpected, hroot, hindex⟩
    obtain ⟨hcommittedRoot, hcommitted, hnonce⟩ :=
      carrierBytes_injective (hcarrier.symm.trans hbytes)
    obtain ⟨hle, hlt⟩ := expectedAuxiliaryIndex_lt hexpected
    have hmerkle : sha256dMerkleRoot d (auxiliaryLeaf d blockHash) branch index =
        .ok v.auxiliaryRoot := by
      unfold maxAuxiliaryBranchDepth at hle
      exact merkleRoot_eq_ok.mpr ⟨by unfold maxParentBranchDepth; omega, hlt, hroot⟩
    rw [validateMinerDataCarrier, hnonce]
    rw [(checkAuxiliaryPosition_eq_ok (u := ())).mpr hexpected, ok_bind,
      auxiliaryTreeSize_eq_ok.mpr ⟨hle, hsize⟩, ok_bind, hcommitted,
      rejectIf_bind (not_not.mpr rfl), hmerkle, ok_bind, hcommittedRoot, ← hroot,
      rejectIf_bind (not_not.mpr rfl), ← hindex]

theorem checkMarkerCount_eq_ok {count : Nat} : checkMarkerCount count = .ok u ↔ count = 1 := by
  rcases count with _ | _ | count
  · simp [checkMarkerCount]
  · simp [checkMarkerCount]
  · simp [checkMarkerCount]

theorem Commits.length_ge {treeSize : UInt32}
    (h : Commits d minerData blockHash branch index treeSize nonce) : 44 ≤ minerData.length := by
  have hlen := congrArg List.length h.carrier
  simp [carrierBytes, mergedMiningMarker] at hlen
  omega

/-- The checks accept exactly the blocks that the miner data commits to. -/
theorem validateMinerDataCommitment_eq_ok :
    validateMinerDataCommitment d minerData blockHash branch index = .ok v ↔
      Commits d minerData blockHash branch index v.treeSize v.nonce ∧
        v.auxiliaryRoot = auxiliaryRoot d blockHash branch index ∧ v.auxiliaryIndex = index := by
  constructor
  · intro hok
    obtain ⟨hdepth, hok⟩ := of_rejectIf_bind hok
    obtain ⟨_, hone, hok⟩ := of_bind hok
    obtain ⟨carrier, hcarrier, hok⟩ := of_okOr_bind hok
    obtain ⟨hmarker, hok⟩ := of_require_bind hok
    obtain ⟨hlast, hlen⟩ := Option.filter_eq_some_iff.mp hcarrier
    have hlast : minerData.drop (minerData.length - 44) = carrier := Option.some.inj hlast
    have hlen : carrier.length = 44 := of_decide_eq_true hlen
    obtain ⟨hbytes, hsize, hexpected, hroot, hindex⟩ :=
      (validateMinerDataCarrier_eq_ok hlen hmarker).mp hok
    -- The one position of the marker is the one that the suffix shows.
    obtain ⟨i, hi⟩ := (countOccurrences_eq_one (by decide)).mp (checkMarkerCount_eq_ok.mp hone)
    have hstart : minerData.length - 44 = i := by
      apply (hi _).mp
      rw [hlast, ← hmarker]
      exact take_prefix _ _
    have hlong : 44 ≤ minerData.length := by
      rw [← hlast, length_drop] at hlen
      omega
    refine ⟨⟨Nat.not_lt.mp hdepth, ?_, hlast.trans hbytes, hsize, hexpected⟩,
      hroot, hindex⟩
    intro j
    rw [hi j]
    omega
  · rintro ⟨hcommits, hroot, hindex⟩
    have hlong := hcommits.length_ge
    have hlen : (minerData.drop (minerData.length - 44)).length = 44 := by
      rw [length_drop]
      omega
    have hmarker : (minerData.drop (minerData.length - 44)).take minerRootStart =
        mergedMiningMarker := by
      rw [hcommits.carrier]
      exact take_left
    have hone : countMarkers minerData = 1 := by
      apply (countOccurrences_eq_one (by decide)).mpr
      refine ⟨minerData.length - 44, fun j => ?_⟩
      rw [hcommits.marker_once j]
      omega
    have hfilter : (some (minerData.drop (minerData.length - minerDataCommitmentBytes))).filter
        (fun carrier => carrier.length = minerDataCommitmentBytes) =
          some (minerData.drop (minerData.length - 44)) := by
      apply Option.filter_eq_some_iff.mpr
      exact ⟨rfl, decide_eq_true hlen⟩
    rw [validateMinerDataCommitment, rejectIf_bind (Nat.not_lt.mpr hcommits.depth_le),
      (checkMarkerCount_eq_ok (u := ())).mpr hone, hfilter, okOr_bind, rejectIf_bind (not_not.mpr
      hmarker)]
    exact (validateMinerDataCarrier_eq_ok hlen hmarker).mpr
      ⟨hcommits.carrier, hcommits.treeSize_eq, hcommits.index_eq, hroot, hindex⟩

/-! ## One string commits to one block -/

/-- The pairs hashed from the leaf of a block up to its auxiliary root. -/
def auxiliaryInputs (d : Digests) (blockHash : Hash) (branch : List Hash) (index : UInt32) :
    List (Hash × Hash) :=
  pathInputs (sha256dPair d) (auxiliaryLeaf d blockHash) branch index.toNat

/-- Two blocks committed to by one string are one block in one slot under
one branch, up to a collision among the hashes taken for them: the
carrier fixes the tree size and so the depth, the nonce then fixes the
slot, and the root the path. -/
theorem Commits.unique {c₁ c₂ : Hash} {branch₁ branch₂ : List Hash}
    {index₁ index₂ size₁ size₂ nonce₁ nonce₂ : UInt32}
    (h₁ : Commits d minerData c₁ branch₁ index₁ size₁ nonce₁)
    (h₂ : Commits d minerData c₂ branch₂ index₂ size₂ nonce₂)
    (hleaf : auxiliaryLeaf d c₁ = auxiliaryLeaf d c₂ → c₁ = c₂)
    (hpair : CollisionFree (sha256dPair d)
      (auxiliaryInputs d c₁ branch₁ index₁ ++ auxiliaryInputs d c₂ branch₂ index₂)) :
    c₁ = c₂ ∧ branch₁ = branch₂ ∧ index₁ = index₂ := by
  obtain ⟨hroot, hsize, hnonce⟩ := carrierBytes_injective (h₁.carrier.symm.trans h₂.carrier)
  have hdepth : branch₁.length = branch₂.length := by
    have hpow : 2 ^ branch₁.length = 2 ^ branch₂.length := by
      rw [← h₁.treeSize_eq, ← h₂.treeSize_eq, hsize]
    exact Nat.pow_right_injective (Nat.le_refl 2) hpow
  have hindex : index₁ = index₂ := by
    have h := h₁.index_eq
    rw [hnonce, hdepth, h₂.index_eq] at h
    exact (Except.ok.inj h).symm
  subst hindex
  obtain ⟨hleaves, hbranch⟩ := pathRoot_injOn (sha256dPair d) hdepth hpair hroot
  exact ⟨hleaf hleaves, hbranch, rfl⟩

end Wolf.AuxPow
