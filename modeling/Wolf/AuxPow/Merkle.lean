import Wolf.Framework.Merkle
import Wolf.AuxPow.Basic

/-! # Merkle paths and auxiliary slots

The SHA-256d and ZIP-244 tree roots, the block-commitments hash and
the deterministic slot of Wcash in the auxiliary tree (`merkle.rs`).

The two root functions are one loop over the branch. `merkleRoot_eq_ok`
says that the loop computes `pathRoot` and accepts exactly the indices
that the branch has a slot for. -/

namespace Wolf.AuxPow

/-! ## Tree roots -/

def sha256dPair (d : Digests) (left right : Hash) : Hash :=
  sha256d d (left.data ++ right.data)

/-- `AUTH_DATA_HASH_PERSONALIZATION`, `b"ZcashAuthDatHash"`. -/
def authDataHashPersonalization : Bytes :=
  [0x5a, 0x63, 0x61, 0x73, 0x68, 0x41, 0x75, 0x74, 0x68, 0x44, 0x61, 0x74, 0x48, 0x61, 0x73, 0x68]

/-- `BLOCK_COMMITMENTS_PERSONALIZATION`, `b"ZcashBlockCommit"`. -/
def blockCommitmentsPersonalization : Bytes :=
  [0x5a, 0x63, 0x61, 0x73, 0x68, 0x42, 0x6c, 0x6f, 0x63, 0x6b, 0x43, 0x6f, 0x6d, 0x6d, 0x69, 0x74]

def authDataHash (d : Digests) (left right : Hash) : Hash :=
  d.blake2b authDataHashPersonalization (left.data ++ right.data)

/-- The loop over the branch: the node and the index bits left at its end. -/
def foldBranch (pair : Hash → Hash → Hash) (leaf : Hash) (index : UInt32) :
    List Hash → Hash × UInt32
  | [] => (leaf, index)
  | sibling :: branch =>
    foldBranch pair (if index &&& 1 = 0 then pair leaf sibling else pair sibling leaf)
      (index >>> 1) branch

/-- The body shared by the two root functions. -/
def merkleRoot (tree : String) (maximum : Nat) (pair : Hash → Hash → Hash) (leaf : Hash)
    (branch : List Hash) (index : UInt32) : Except AuxPowError Hash := do
  rejectIf (maximum < branch.length) (.branchTooLong tree branch.length maximum)
  let (root, rest) := foldBranch pair leaf index branch
  rejectIf (rest ≠ 0) (.merkleIndexOutOfRange tree index (2 ^ branch.length))
  .ok root

def sha256dMerkleRoot (d : Digests) : Hash → List Hash → UInt32 → Except AuxPowError Hash :=
  merkleRoot "Merkle" maxParentBranchDepth (sha256dPair d)

def authDataMerkleRoot (d : Digests) : Hash → List Hash → UInt32 → Except AuxPowError Hash :=
  merkleRoot "auth-data" maxAuthDataBranchDepth (authDataHash d)

def blockCommitmentsHash (d : Digests) (chainHistoryRoot authDataRoot : Hash) : Hash :=
  d.blake2b blockCommitmentsPersonalization
    (chainHistoryRoot.data ++ authDataRoot.data ++ (FixedBytes.fill 32 0).data)

/-! ## Auxiliary slots -/

def auxiliaryTreeSize (branchDepth : Nat) : Except AuxPowError UInt32 := do
  rejectIf (maxAuxiliaryBranchDepth < branchDepth ∨ 32 ≤ branchDepth)
    (.auxiliaryTreeDepthTooLarge branchDepth)
  .ok (1 <<< UInt32.ofNat branchDepth)

/-- `expected_auxiliary_index`, in wrapping arithmetic. -/
def expectedAuxiliaryIndex (nonce : UInt32) (branchDepth : Nat) : Except AuxPowError UInt32 := do
  let size ← auxiliaryTreeSize branchDepth
  let random := nonce * 1103515245 + 12345
  let random := random + wcashAuxiliaryChainId
  let random := random * 1103515245 + 12345
  .ok (random % size)

example : expectedAuxiliaryIndex 7 3 = .ok 4 := by decide
example : expectedAuxiliaryIndex 0xffffffff 16 = .ok 38508 := by decide

/-! ## What the roots compute -/

/-- The loop hashes along the path of the index and shifts one bit out
per level. -/
theorem foldBranch_eq (pair : Hash → Hash → Hash) (leaf : Hash) (index : UInt32)
    (branch : List Hash) :
    (foldBranch pair leaf index branch).1 = pathRoot pair leaf branch index.toNat ∧
      (foldBranch pair leaf index branch).2.toNat = index.toNat / 2 ^ branch.length := by
  induction branch generalizing leaf index with
  | nil => exact ⟨rfl, by simp [foldBranch]⟩
  | cons sibling branch ih =>
    have hbit : index &&& 1 = 0 ↔ index.toNat % 2 = 0 := by
      rw [← UInt32.toNat_inj]
      simp
    have hshift : (index >>> 1).toNat = index.toNat / 2 := by
      simp [Nat.shiftRight_eq_div_pow]
    have hnode : (if index &&& 1 = 0 then pair leaf sibling else pair sibling leaf) =
        pair (pathPair leaf sibling index.toNat).1 (pathPair leaf sibling index.toNat).2 := by
      unfold pathPair
      by_cases h : index.toNat % 2 = 0
      · rw [if_pos (hbit.mpr h), if_pos h]
      · rw [if_neg (mt hbit.mp h), if_neg h]
    rw [foldBranch, hnode]
    obtain ⟨hroot, hrest⟩ := ih (pair (pathPair leaf sibling index.toNat).1
      (pathPair leaf sibling index.toNat).2) (index >>> 1)
    refine ⟨?_, ?_⟩
    · rw [hroot]
      rfl
    · rw [hrest, hshift, Nat.div_div_eq_div_mul, List.length_cons, Nat.pow_succ, Nat.mul_comm]

/-- A root function accepts the indices below `2 ^ depth` and returns the
root of the path. -/
theorem merkleRoot_eq_ok {tree : String} {maximum : Nat} {pair : Hash → Hash → Hash}
    {leaf root : Hash} {branch : List Hash} {index : UInt32} :
    merkleRoot tree maximum pair leaf branch index = .ok root ↔
      branch.length ≤ maximum ∧ index.toNat < 2 ^ branch.length ∧
        root = pathRoot pair leaf branch index.toNat := by
  obtain ⟨hroot, hrest⟩ := foldBranch_eq pair leaf index branch
  have hzero : (foldBranch pair leaf index branch).2 = 0 ↔ index.toNat < 2 ^ branch.length := by
    rw [← UInt32.toNat_inj, hrest]
    exact Nat.div_eq_zero_iff_lt (Nat.two_pow_pos _)
  rw [merkleRoot, ← hroot, ← hzero]
  constructor
  · intro hok
    obtain ⟨hlen, hok⟩ := of_rejectIf_bind hok
    obtain ⟨hindex, hok⟩ := of_require_bind hok
    cases hok
    exact ⟨Nat.not_lt.mp hlen, hindex, rfl⟩
  · rintro ⟨hlen, hindex, rfl⟩
    rw [rejectIf_bind (Nat.not_lt.mpr hlen)]
    dsimp only
    rw [rejectIf_bind (not_not.mpr hindex)]

/-- Within the depth cap the tree size is a power of two. -/
theorem auxiliaryTreeSize_eq_ok {depth : Nat} {size : UInt32} :
    auxiliaryTreeSize depth = .ok size ↔
      depth ≤ maxAuxiliaryBranchDepth ∧ size.toNat = 2 ^ depth := by
  have hshift : depth ≤ 16 → (1 <<< UInt32.ofNat depth : UInt32).toNat = 2 ^ depth := by
    intro hle
    have hpow : 2 ^ depth < 2 ^ 32 := Nat.pow_lt_pow_right (by omega) (by omega)
    rw [UInt32.toNat_shiftLeft, UInt32.toNat_ofNat', Nat.shiftLeft_eq,
      Nat.mod_eq_of_lt (show depth < 2 ^ 32 by omega), Nat.mod_eq_of_lt (show depth < 32 by omega)]
    simpa using Nat.mod_eq_of_lt hpow
  rw [auxiliaryTreeSize, bind_eq_ok]
  constructor
  · rintro ⟨_, hdepth, hok⟩
    have hle : depth ≤ 16 := by
      have := rejectIf_eq_ok.mp hdepth
      unfold maxAuxiliaryBranchDepth at this
      omega
    cases hok
    exact ⟨hle, hshift hle⟩
  · rintro ⟨hle, hsize⟩
    unfold maxAuxiliaryBranchDepth at hle
    refine ⟨(), rejectIf_eq_ok.mpr (by unfold maxAuxiliaryBranchDepth; omega), ?_⟩
    apply congrArg Except.ok
    apply UInt32.toNat_inj.mp
    rw [hshift hle, hsize]

/-- The expected slot lies in the tree. -/
theorem expectedAuxiliaryIndex_lt {nonce index : UInt32} {depth : Nat}
    (h : expectedAuxiliaryIndex nonce depth = .ok index) :
    depth ≤ maxAuxiliaryBranchDepth ∧ index.toNat < 2 ^ depth := by
  obtain ⟨size, hsize, hok⟩ := of_bind h
  obtain ⟨hle, hpow⟩ := auxiliaryTreeSize_eq_ok.mp hsize
  refine ⟨hle, ?_⟩
  rw [← Except.ok.inj hok, UInt32.toNat_mod, hpow]
  exact Nat.mod_lt _ (Nat.two_pow_pos depth)

end Wolf.AuxPow
