import Wolf.AuxPow.Proof
import Wolf.AuxPow.Commitment

/-! # Acceptance of an AuxPoW proof

`validate_with_verifiers` composes the bounds, the target, the coinbase
verifier, the two parent trees, the miner-data commitment and the work
verifier. The coinbase parser and the Equihash implementation are
parameters, as they are in the source.

`Binds` states what the coinbase has to show, without the order of the
checks; `acceptance_binds_one_block` shows that the checks decide it
and that the miner data leave no choice of the Wcash block. -/

namespace Wolf.AuxPow

open List

/-! ## Validation -/

structure CoinbaseSummary where
  transactionId : Hash
  authorizingDataDigest : Hash
  minerData : Bytes
  deriving DecidableEq

/-- `CoinbaseVerifier::verify`. -/
abbrev CoinbaseVerifier : Type := Bytes → Except AuxPowError CoinbaseSummary

/-- `EquihashVerifier::verify`. -/
abbrev EquihashVerifier : Type := ParentHeader → Except AuxPowError Unit

structure ValidatedParentWork where
  header : ParentHeader
  blockHash : Hash
  requiredTarget : Target
  deriving DecidableEq

structure ValidatedAuxPow where
  parentWork : ValidatedParentWork
  coinbaseTransactionId : Hash
  coinbaseAuthorizingDataDigest : Hash
  authDataRoot : Hash
  chainHistoryRoot : Hash
  commitment : ValidatedCommitment
  deriving DecidableEq

def ParentHeader.validateWorkWith (d : Digests) (h : ParentHeader) (requiredTarget : Target)
    (verifier : EquihashVerifier) : Except AuxPowError ValidatedParentWork := do
  let blockHash ← h.checkTarget d requiredTarget
  verifier h
  .ok { header := h, blockHash, requiredTarget }

namespace AuxPowProof

def validateParentMerklePath (d : Digests) (p : AuxPowProof) (coinbase : CoinbaseSummary) :
    Except AuxPowError Unit := do
  rejectIf (p.parentCoinbaseIndex ≠ 0) (.parentCoinbaseIndexNotZero p.parentCoinbaseIndex)
  let root ← sha256dMerkleRoot d coinbase.transactionId p.parentMerkleBranch p.parentCoinbaseIndex
  rejectIf (root ≠ p.parentHeader.merkleRoot) .parentMerkleRootMismatch

def validateParentAuthDataPath (d : Digests) (p : AuxPowProof) (coinbase : CoinbaseSummary) :
    Except AuxPowError Hash := do
  rejectIf (p.authDataCoinbaseIndex ≠ 0) (.parentAuthDataIndexNotZero p.authDataCoinbaseIndex)
  rejectIf (p.parentMerkleBranch.length ≠ p.authDataMerkleBranch.length)
    (.parentMerkleDepthMismatch p.parentMerkleBranch.length p.authDataMerkleBranch.length)
  let authDataRoot ← authDataMerkleRoot d coinbase.authorizingDataDigest p.authDataMerkleBranch
    p.authDataCoinbaseIndex
  let expected := AuxPow.blockCommitmentsHash d p.chainHistoryRoot authDataRoot
  rejectIf (expected ≠ p.parentHeader.blockCommitmentsHash) .parentBlockCommitmentsMismatch
  .ok authDataRoot

def validateWithVerifiers (d : Digests) (p : AuxPowProof) (auxiliaryBlockHash : Hash)
    (requiredTarget : Target) (coinbaseVerifier : CoinbaseVerifier)
    (workVerifier : EquihashVerifier) : Except AuxPowError ValidatedAuxPow := do
  p.checkBounds
  -- Cheap target rejection happens before parsing an attacker-controlled transaction.
  let _ ← p.parentHeader.checkTarget d requiredTarget
  let coinbase ← coinbaseVerifier p.coinbaseBytes
  p.validateParentMerklePath d coinbase
  let authDataRoot ← p.validateParentAuthDataPath d coinbase
  let commitment ← validateMinerDataCommitment d coinbase.minerData auxiliaryBlockHash
    p.auxiliaryMerkleBranch p.auxiliaryIndex
  let parentWork ← p.parentHeader.validateWorkWith d requiredTarget workVerifier
  .ok
    { parentWork
      coinbaseTransactionId := coinbase.transactionId
      coinbaseAuthorizingDataDigest := coinbase.authorizingDataDigest
      authDataRoot
      chainHistoryRoot := p.chainHistoryRoot
      commitment }

/-! ## What is accepted -/

/-- The coinbase summary `s` is in both trees of the parent header, and
its miner data commit to the block. -/
structure Binds (d : Digests) (p : AuxPowProof) (blockHash : Hash) (s : CoinbaseSummary) :
    Prop where
  parentIndex_zero : p.parentCoinbaseIndex = 0
  authDataIndex_zero : p.authDataCoinbaseIndex = 0
  depth_eq : p.parentMerkleBranch.length = p.authDataMerkleBranch.length
  merkleRoot_eq : pathRoot (sha256dPair d) s.transactionId p.parentMerkleBranch 0 =
    p.parentHeader.merkleRoot
  commitments_eq : AuxPow.blockCommitmentsHash d p.chainHistoryRoot
      (pathRoot (authDataHash d) s.authorizingDataDigest p.authDataMerkleBranch 0) =
    p.parentHeader.blockCommitmentsHash
  commits : ∃ treeSize nonce,
    Commits d s.minerData blockHash p.auxiliaryMerkleBranch p.auxiliaryIndex treeSize nonce

variable {d : Digests} {p : AuxPowProof} {W : EquihashVerifier} {s : CoinbaseSummary} {t : Target}

theorem validateParentMerklePath_eq_ok {u : Unit} (hindex : p.parentCoinbaseIndex = 0)
    (hle : p.parentMerkleBranch.length ≤ maxParentBranchDepth) :
    p.validateParentMerklePath d s = .ok u ↔
      pathRoot (sha256dPair d) s.transactionId p.parentMerkleBranch 0 =
        p.parentHeader.merkleRoot := by
  have hroot : sha256dMerkleRoot d s.transactionId p.parentMerkleBranch p.parentCoinbaseIndex =
      .ok (pathRoot (sha256dPair d) s.transactionId p.parentMerkleBranch 0) := by
    rw [hindex]
    exact merkleRoot_eq_ok.mpr ⟨hle, Nat.two_pow_pos _, rfl⟩
  rw [validateParentMerklePath, rejectIf_bind (not_not.mpr hindex), hroot, ok_bind, rejectIf_eq_ok]
  exact not_not

theorem validateParentAuthDataPath_eq_ok {root : Hash} (hindex : p.authDataCoinbaseIndex = 0)
    (hdepth : p.parentMerkleBranch.length = p.authDataMerkleBranch.length)
    (hle : p.authDataMerkleBranch.length ≤ maxAuthDataBranchDepth) :
    p.validateParentAuthDataPath d s = .ok root ↔
      root = pathRoot (authDataHash d) s.authorizingDataDigest p.authDataMerkleBranch 0 ∧
        AuxPow.blockCommitmentsHash d p.chainHistoryRoot root =
          p.parentHeader.blockCommitmentsHash := by
  have hroot : authDataMerkleRoot d s.authorizingDataDigest p.authDataMerkleBranch
      p.authDataCoinbaseIndex =
      .ok (pathRoot (authDataHash d) s.authorizingDataDigest p.authDataMerkleBranch 0) := by
    rw [hindex]
    exact merkleRoot_eq_ok.mpr ⟨hle, Nat.two_pow_pos _, rfl⟩
  rw [validateParentAuthDataPath, rejectIf_bind (not_not.mpr hindex),
    rejectIf_bind (not_not.mpr hdepth), hroot, ok_bind]
  constructor
  · intro hok
    obtain ⟨hcommitments, hok⟩ := of_require_bind hok
    cases hok
    exact ⟨rfl, hcommitments⟩
  · rintro ⟨rfl, hcommitments⟩
    rw [rejectIf_bind (not_not.mpr hcommitments)]

theorem validateWorkWith_eq_ok {h : ParentHeader} {work : ValidatedParentWork} :
    h.validateWorkWith d t W = .ok work ↔
      leNat (h.blockHash d).data ≤ leNat t.bytes.data ∧ W h = .ok () ∧
        work = ⟨h, h.blockHash d, t⟩ := by
  constructor
  · intro hok
    obtain ⟨hash, htarget, hok⟩ := of_bind hok
    obtain ⟨_, hwork, hok⟩ := of_bind hok
    cases hok
    obtain ⟨hle, rfl⟩ := ParentHeader.checkTarget_eq_ok.mp htarget
    exact ⟨hle, hwork, rfl⟩
  · rintro ⟨hle, hwork, rfl⟩
    rw [ParentHeader.validateWorkWith, ParentHeader.checkTarget_eq_ok.mpr ⟨hle, rfl⟩, ok_bind,
      hwork, ok_bind]

/-- The checks accept exactly the proofs within bounds whose parent has the
work and whose coinbase binds the block. -/
theorem validateWithVerifiers_ok_iff {c : Hash} {V : CoinbaseVerifier} :
    (∃ v, p.validateWithVerifiers d c t V W = .ok v) ↔
      p.WithinBounds ∧ leNat (p.parentHeader.blockHash d).data ≤ leNat t.bytes.data ∧
        (∃ s, V p.coinbaseBytes = .ok s ∧ p.Binds d c s) ∧ W p.parentHeader = .ok () := by
  constructor
  · rintro ⟨v, hok⟩
    obtain ⟨_, hbounds, hok⟩ := of_bind hok
    obtain ⟨_, _, hok⟩ := of_bind hok
    obtain ⟨s, hs, hok⟩ := of_bind hok
    obtain ⟨_, hparent, hok⟩ := of_bind hok
    obtain ⟨root, hauthData, hok⟩ := of_bind hok
    obtain ⟨commitment, hcommitment, hok⟩ := of_bind hok
    obtain ⟨work, hwork, _⟩ := of_bind hok
    have hw := checkBounds_eq_ok.mp hbounds
    obtain ⟨hle, hequihash, _⟩ := validateWorkWith_eq_ok.mp hwork
    obtain ⟨rfl, hcommitments⟩ := (validateParentAuthDataPath_eq_ok hw.authDataIndex_zero
      hw.depth_eq hw.authData_le).mp hauthData
    obtain ⟨hcommits, _⟩ := validateMinerDataCommitment_eq_ok.mp hcommitment
    exact ⟨hw, hle, ⟨s, hs, hw.parentIndex_zero, hw.authDataIndex_zero, hw.depth_eq,
      (validateParentMerklePath_eq_ok hw.parentIndex_zero hw.parent_le).mp hparent, hcommitments,
      _, _, hcommits⟩, hequihash⟩
  · rintro ⟨hw, hle, ⟨s, hs, hbinds⟩, hequihash⟩
    obtain ⟨treeSize, nonce, hcommits⟩ := hbinds.commits
    refine ⟨{
      parentWork := ⟨p.parentHeader, p.parentHeader.blockHash d, t⟩
      coinbaseTransactionId := s.transactionId
      coinbaseAuthorizingDataDigest := s.authorizingDataDigest
      authDataRoot := pathRoot (authDataHash d) s.authorizingDataDigest p.authDataMerkleBranch 0
      chainHistoryRoot := p.chainHistoryRoot
      commitment := ⟨auxiliaryRoot d c p.auxiliaryMerkleBranch p.auxiliaryIndex, treeSize, nonce,
        p.auxiliaryIndex⟩ }, ?_⟩
    rw [validateWithVerifiers, (checkBounds_eq_ok (u := ())).mpr hw, ok_bind,
      ParentHeader.checkTarget_eq_ok.mpr ⟨hle, rfl⟩, ok_bind, hs, ok_bind,
      (validateParentMerklePath_eq_ok (u := ()) hw.parentIndex_zero hw.parent_le).mpr
      hbinds.merkleRoot_eq, (validateParentAuthDataPath_eq_ok hw.authDataIndex_zero hw.depth_eq
      hw.authData_le).mpr ⟨rfl, hbinds.commitments_eq⟩, validateMinerDataCommitment_eq_ok (v := ⟨_,
      treeSize, nonce, _⟩) |>.mpr ⟨hcommits, rfl, rfl⟩, validateWorkWith_eq_ok.mpr ⟨hle, hequihash,
      rfl⟩]
    rfl

end AuxPowProof

/-- AuxPoW acceptance binds one Wcash block. Validation accepts exactly
when the proof is within its bounds, the parent hash meets the target,
the coinbase verifier returns a summary that is bound to the header and
to the block, and the work verifier accepts. Miner data accepted for
two blocks were accepted for one block, branch and index, provided the
leaf hash does not collide on the two blocks nor the pair hash on the
pairs folded for them. -/
theorem acceptance_binds_one_block (d : Digests) :
    (∀ (p : AuxPowProof) (c : Hash) (t : Target) (V : CoinbaseVerifier) (W : EquihashVerifier),
      (∃ v, p.validateWithVerifiers d c t V W = .ok v) ↔
        p.WithinBounds ∧ leNat (p.parentHeader.blockHash d).data ≤ leNat t.bytes.data ∧
          (∃ s, V p.coinbaseBytes = .ok s ∧ p.Binds d c s) ∧ W p.parentHeader = .ok ()) ∧
    (∀ (minerData : Bytes) (c₁ c₂ : Hash) (branch₁ branch₂ : List Hash) (index₁ index₂ : UInt32)
      (v₁ v₂ : ValidatedCommitment),
      Set.InjOn (auxiliaryLeaf d) {c₁, c₂} →
      CollisionFree (sha256dPair d)
        (auxiliaryInputs d c₁ branch₁ index₁ ++ auxiliaryInputs d c₂ branch₂ index₂) →
      validateMinerDataCommitment d minerData c₁ branch₁ index₁ = .ok v₁ →
      validateMinerDataCommitment d minerData c₂ branch₂ index₂ = .ok v₂ →
        c₁ = c₂ ∧ branch₁ = branch₂ ∧ index₁ = index₂) := by
  refine ⟨fun p c t V W => AuxPowProof.validateWithVerifiers_ok_iff, ?_⟩
  intro minerData c₁ c₂ branch₁ branch₂ index₁ index₂ v₁ v₂ hleaf hpair h₁ h₂
  obtain ⟨hcommits₁, _⟩ := validateMinerDataCommitment_eq_ok.mp h₁
  obtain ⟨hcommits₂, _⟩ := validateMinerDataCommitment_eq_ok.mp h₂
  exact hcommits₁.unique hcommits₂ (fun h => hleaf (by simp) (by simp) h) hpair

/-- SHA-256 on the four strings hashed for the block `[0x11; 32]` in slot 1
of a tree of two leaves, next to `[0x22; 32]`. -/
def sampleDigests : Digests where
  sha256 := fun bytes =>
    if bytes = auxiliaryLeafDomain ++ u32ToLeBytes wcashAuxiliaryChainId ++
        (FixedBytes.fill 32 0x11).data then
      ⟨leBytes 32 0x7404895b9e623be2d2b91d14ede0a8b931187b76db71d43fdc59a556a8e44006, by simp⟩
    else if bytes = leBytes 32 0x7404895b9e623be2d2b91d14ede0a8b931187b76db71d43fdc59a556a8e44006
    then
      ⟨leBytes 32 0x7a5e54785c3b0f0f6bd94ca780b5c1686cdb9cdf9ed9ac4d5d77c55e3d217bd1, by simp⟩
    else if bytes = (FixedBytes.fill 32 0x22).data ++
        leBytes 32 0x7a5e54785c3b0f0f6bd94ca780b5c1686cdb9cdf9ed9ac4d5d77c55e3d217bd1 then
      ⟨leBytes 32 0xe7db6aa63673b8ae2d4558ec8501d94a18f77d94adf206cb2d95a0ff209d1ef0, by simp⟩
    else if bytes = leBytes 32 0xe7db6aa63673b8ae2d4558ec8501d94a18f77d94adf206cb2d95a0ff209d1ef0
    then
      ⟨leBytes 32 0xca8bff48b561d3984b34588e2b4742f4800858be0c89718ab60ded9de9532790, by simp⟩
    else .fill 32 0
  blake2b := fun _ _ => .fill 32 0

/-- The carrier of that block with nonce 0 is accepted, and binds it. -/
theorem acceptance_binds_one_block_two_leaves :
    ∃ v, validateMinerDataCommitment sampleDigests
        (carrierBytes (auxiliaryRoot sampleDigests (.fill 32 0x11) [.fill 32 0x22] 1) 2 0)
        (.fill 32 0x11) [.fill 32 0x22] 1 = .ok v ∧
      (FixedBytes.fill 32 0x11 = .fill 32 0x11 ∧
        [FixedBytes.fill 32 0x22] = [.fill 32 0x22] ∧ (1 : UInt32) = 1) := by
  have hok : ∃ v, validateMinerDataCommitment sampleDigests
      (carrierBytes (auxiliaryRoot sampleDigests (.fill 32 0x11) [.fill 32 0x22] 1) 2 0)
      (.fill 32 0x11) [.fill 32 0x22] 1 = .ok v :=
    ⟨⟨⟨leBytes 32 0xca8bff48b561d3984b34588e2b4742f4800858be0c89718ab60ded9de9532790, by simp⟩,
      2, 0, 1⟩,
      by decide +kernel⟩
  obtain ⟨v, hv⟩ := hok
  refine ⟨v, hv, (acceptance_binds_one_block sampleDigests).2 _ _ _ _ _ _ _ v v ?_ ?_ hv hv⟩
  · simp
  · intro a ha b hb _
    simp only [auxiliaryInputs, pathInputs, cons_append, nil_append, mem_cons, not_mem_nil,
      or_false, or_self] at ha hb
    rw [ha, hb]

end Wolf.AuxPow
