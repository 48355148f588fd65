import Mathlib.Data.Nat.Log
import Wolf.AuxPow.Validate

/-! # Branches of a parent template

The branches that the miner builds for its proofs (`native.rs`) and the
roots that a parent header commits to (`block/merkle.rs`).

Both trees are hashed level by level. An odd level of transaction IDs
repeats its last node; the authorizing data are filled up with zeros
once, so that no level is odd.

* `generated_branches_prove_roots`: the path checks accept a proof that
  is built from a template. -/

namespace Wolf.AuxPow

open List

/-! ## Model -/

/-- `MinerError::InvalidParentTemplate`, the panics of the four loops, and
the bound on their rounds in this model. -/
inductive TreeError where
  | invalidParentTemplate (message : String)
  | panic
  | outOfRounds

/-- `chunks_exact(2)`, with the two nodes of each chunk hashed. -/
def hashPairs (pair : Hash → Hash → Hash) : List Hash → List Hash
  | left :: right :: rest => pair left right :: hashPairs pair rest
  | _ => []

/-- `chunks(2)`, whose last chunk may be a single node. -/
def hashChunks (pair : Hash → Hash → Hash) (single : Hash → Except TreeError Hash) :
    List Hash → Except TreeError (List Hash)
  | left :: right :: rest => do
    let hashes ← hashChunks pair single rest
    .ok (pair left right :: hashes)
  | [node] => do
    let hash ← single node
    .ok [hash]
  | [] => .ok []

/-- An odd level repeats its last node. -/
def repeatLast (level : List Hash) : List Hash :=
  if level.length % 2 = 1 then level ++ level.getLast?.toList else level

/-- The loop of both branches, for the leaf at `index`. -/
def branchLoop (pad : List Hash → List Hash) (pair : Hash → Hash → Hash) :
    Nat → List Hash → Nat → Except TreeError (List Hash)
  | 0, _, _ => .error .outOfRounds
  | rounds + 1, level, index =>
    if 1 < level.length then do
      let sibling ← okOr (pad level)[index ^^^ 1]? .panic
      let branch ← branchLoop pad pair rounds (hashPairs pair (pad level)) (index / 2)
      .ok (sibling :: branch)
    else .ok []

/-- The loop of both roots. -/
def rootLoop (pair : Hash → Hash → Hash) (single : Hash → Except TreeError Hash) :
    Nat → List Hash → Except TreeError Hash
  | 0, _ => .error .outOfRounds
  | rounds + 1, hashes =>
    if 1 < hashes.length then do
      let hashes ← hashChunks pair single hashes
      rootLoop pair single rounds hashes
    else okOr hashes[0]? .panic

/-- Zeros up to `next_power_of_two`. -/
def fillLeaves (leaves : List Hash) : List Hash :=
  leaves ++ replicate (2 ^ Nat.clog 2 leaves.length - leaves.length) (.fill 32 0)

def sha256dBranch (d : Digests) (leaves : List Hash) : Except TreeError (List Hash) := do
  rejectIf (leaves = []) (.invalidParentTemplate "parent block has no transactions")
  branchLoop repeatLast (sha256dPair d) (leaves.length + 1) leaves 0

def authDataBranch (d : Digests) (leaves : List Hash) : Except TreeError (List Hash) := do
  rejectIf (leaves = []) (.invalidParentTemplate "parent block has no authorization digests")
  let level := fillLeaves leaves
  branchLoop id (authDataHash d) (level.length + 1) level 0

/-- `merkle::Root::from_iter`. -/
def merkleRootOf (d : Digests) (hashes : List Hash) : Except TreeError Hash :=
  rootLoop (sha256dPair d) (fun node => .ok (sha256dPair d node node)) (hashes.length + 1) hashes

/-- `AuthDataRoot::from_iter`: a single node is `unreachable!`. -/
def authDataRootOf (d : Digests) (hashes : List Hash) : Except TreeError Hash :=
  let hashes := fillLeaves hashes
  rootLoop (authDataHash d) (fun _ => .error .panic) (hashes.length + 1) hashes

/-! ## Levels -/

variable {pair : Hash → Hash → Hash} {single : Hash → Except TreeError Hash}

theorem repeatLast_cons (left right : Hash) (rest : List Hash) :
    repeatLast (left :: right :: rest) = left :: right :: repeatLast rest := by
  unfold repeatLast
  rw [length_cons, length_cons, Nat.add_assoc, Nat.add_mod_right]
  cases rest with
  | nil => rfl
  | cons node rest =>
    split <;> rfl

/-- The chunks of a level are the pairs of the padded level. -/
theorem hashChunks_eq : ∀ {level : List Hash},
    (level.length % 2 = 1 → ∀ node, single node = .ok (pair node node)) →
    hashChunks pair single level = .ok (hashPairs pair (repeatLast level))
  | [], _ => rfl
  | [node], hsingle => by
    rw [hashChunks, hsingle rfl node]
    rfl
  | left :: right :: rest, hsingle => by
    have hrest : hashChunks pair single rest = _ := hashChunks_eq fun hodd =>
      hsingle (by rw [length_cons, length_cons]; omega)
    rw [hashChunks, hrest, repeatLast_cons]
    rfl

theorem length_hashPairs : ∀ level : List Hash,
    (hashPairs pair (repeatLast level)).length = (level.length + 1) / 2
  | [] => rfl
  | [node] => by simp [repeatLast, hashPairs]
  | left :: right :: rest => by
    rw [repeatLast_cons, hashPairs, length_cons, length_hashPairs rest, length_cons, length_cons]
    omega

/-- How a tree treats the levels of the lengths `P`: they are padded as an
odd level of transaction IDs is, and a single node is paired with
itself. -/
structure Padding (pair : Hash → Hash → Hash) (pad : List Hash → List Hash)
    (single : Hash → Except TreeError Hash) (P : Nat → Prop) : Prop where
  pad : ∀ level, 1 < level.length → P level.length → pad level = repeatLast level
  single : ∀ n, 1 < n → P n → n % 2 = 1 → ∀ node, single node = .ok (pair node node)
  next : ∀ n, 1 < n → P n → P ((n + 1) / 2)

/-- Run lemma: the branch of the first leaf leads to the root. -/
theorem branchLoop_proves {pad : List Hash → List Hash} {P : Nat → Prop}
    (h : Padding pair pad single P) {rounds : Nat} {leaf : Hash} {rest : List Hash}
    (hP : P (leaf :: rest).length) (hrounds : (leaf :: rest).length ≤ rounds) :
    ∃ branch, branchLoop pad pair rounds (leaf :: rest) 0 = .ok branch ∧
      branch.length = Nat.clog 2 (leaf :: rest).length ∧
      rootLoop pair single rounds (leaf :: rest) = .ok (pathRoot pair leaf branch 0) := by
  induction rounds generalizing leaf rest with
  | zero => simp at hrounds
  | succ rounds ih =>
    unfold branchLoop rootLoop
    cases rest with
    | nil => exact ⟨[], rfl, by simp, rfl⟩
    | cons sibling rest =>
      have hlong : 1 < (leaf :: sibling :: rest).length := by simp
      have hlength := @length_hashPairs pair (leaf :: sibling :: rest)
      have hnext := h.next _ hlong hP
      rw [← hlength] at hnext
      rw [h.pad _ hlong hP, hashChunks_eq (h.single _ hlong hP), Nat.clog_of_two_le (by decide)
        hlong]
      rw [repeatLast_cons] at hlength hnext ⊢
      -- The next level starts with the hash of the first two nodes.
      obtain ⟨branch, hbranch, hdepth, hroot⟩ := ih hnext (by
        rw [← hashPairs]
        omega)
      refine ⟨sibling :: branch, ?_, ?_, hroot⟩
      · show (branchLoop pad pair rounds (pair leaf sibling :: _) 0 >>= _) = _
        rw [hbranch]
        rfl
      · rw [length_cons, hdepth, ← hashPairs, hlength]
        rfl

/-! ## The two trees -/

theorem padding_sha256d (pair : Hash → Hash → Hash) :
    Padding pair repeatLast (fun node => .ok (pair node node)) fun _ => True :=
  ⟨fun _ _ _ => rfl, fun _ _ _ _ _ => rfl, fun _ _ _ => trivial⟩

theorem padding_authData (pair : Hash → Hash → Hash) :
    Padding pair id (fun _ => .error .panic) fun n => ∃ k, n = 2 ^ k := by
  -- A power of two above one is even.
  have heven : ∀ {n}, 1 < n → (∃ k, n = 2 ^ k) → ∃ k, n = 2 * 2 ^ k := by
    rintro n hn ⟨k, rfl⟩
    cases k with
    | zero => simp at hn
    | succ k => exact ⟨k, Nat.pow_succ'⟩
  refine ⟨?_, ?_, ?_⟩
  · intro level hlong hP
    obtain ⟨k, hk⟩ := heven hlong hP
    exact (if_neg (by omega)).symm
  · intro n hlong hP hodd
    obtain ⟨k, hk⟩ := heven hlong hP
    omega
  · intro n hlong hP
    obtain ⟨k, hk⟩ := heven hlong hP
    exact ⟨k, by omega⟩

theorem length_fillLeaves (leaves : List Hash) :
    (fillLeaves leaves).length = 2 ^ Nat.clog 2 leaves.length := by
  have hle := Nat.le_pow_clog (b := 2) (by decide) leaves.length
  rw [fillLeaves, length_append, length_replicate]
  omega

/-- The branches of the first of `n` transactions have `⌈log₂ n⌉` siblings
and lead to the roots, and every proof that carries them with a header
that commits to the roots passes its path checks. -/
theorem generated_branches_prove_roots (d : Digests) (id digest : Hash) {ids digests : List Hash}
    (hlength : digests.length = ids.length) :
    ∃ branch authBranch root authRoot,
      sha256dBranch d (id :: ids) = .ok branch ∧
      authDataBranch d (digest :: digests) = .ok authBranch ∧
      merkleRootOf d (id :: ids) = .ok root ∧
      authDataRootOf d (digest :: digests) = .ok authRoot ∧
      branch.length = Nat.clog 2 (id :: ids).length ∧
      authBranch.length = Nat.clog 2 (id :: ids).length ∧
      (branch.length ≤ maxParentBranchDepth → sha256dMerkleRoot d id branch 0 = .ok root) ∧
      (authBranch.length ≤ maxAuthDataBranchDepth →
        authDataMerkleRoot d digest authBranch 0 = .ok authRoot) ∧
      ∀ (p : AuxPowProof) (coinbase : CoinbaseSummary),
        branch.length ≤ maxParentBranchDepth → branch.length ≤ maxAuthDataBranchDepth →
        p.parentCoinbaseIndex = 0 → p.authDataCoinbaseIndex = 0 →
        p.parentMerkleBranch = branch → p.authDataMerkleBranch = authBranch →
        coinbase.transactionId = id → coinbase.authorizingDataDigest = digest →
        p.parentHeader.merkleRoot = root →
        p.parentHeader.blockCommitmentsHash = blockCommitmentsHash d p.chainHistoryRoot authRoot →
        p.validateParentMerklePath d coinbase = .ok () ∧
          p.validateParentAuthDataPath d coinbase = .ok authRoot := by
  have hfill := length_fillLeaves (digest :: digests)
  obtain ⟨branch, hbranch, hdepth, hroot⟩ := @branchLoop_proves _ _ _ _
    (padding_sha256d (sha256dPair d)) _ id ids trivial (Nat.le_succ _)
  obtain ⟨authBranch, hauthBranch, hauthDepth, hauthRoot⟩ := @branchLoop_proves _ _ _ _
    (padding_authData (authDataHash d)) _ digest (digests ++ _) ⟨_, hfill⟩ (Nat.le_succ _)
  have hauthDepth : authBranch.length = Nat.clog 2 (id :: ids).length := by
    rw [hauthDepth]
    refine (congrArg (Nat.clog 2) hfill).trans ?_
    rw [Nat.clog_pow 2 _ (by decide), length_cons, length_cons, hlength]
  have hsame : branch.length = authBranch.length := hdepth.trans hauthDepth.symm
  refine ⟨branch, authBranch, _, _, hbranch, hauthBranch, hroot, hauthRoot, hdepth, hauthDepth,
    ?_, ?_, ?_⟩
  · exact fun hle => merkleRoot_eq_ok.mpr ⟨hle, Nat.two_pow_pos _, rfl⟩
  · exact fun hle => merkleRoot_eq_ok.mpr ⟨hle, Nat.two_pow_pos _, rfl⟩
  · rintro p coinbase hle hauthLe hindex hauthIndex rfl rfl rfl rfl hheader hcommitments
    exact ⟨(AuxPowProof.validateParentMerklePath_eq_ok hindex hle).mpr hheader.symm,
      (AuxPowProof.validateParentAuthDataPath_eq_ok hauthIndex hsame (hsame ▸ hauthLe)).mpr
        ⟨rfl, hcommitments.symm⟩⟩

theorem generated_branches_prove_roots_three :
    ∃ branch root, sha256dBranch sampleDigests [.fill 32 1, .fill 32 2, .fill 32 3] = .ok branch ∧
      merkleRootOf sampleDigests [.fill 32 1, .fill 32 2, .fill 32 3] = .ok root ∧
      branch.length = 2 ∧ sha256dMerkleRoot sampleDigests (.fill 32 1) branch 0 = .ok root := by
  obtain ⟨branch, _, root, _, hbranch, _, hroot, _, hdepth, _, hpath, _⟩ :=
    generated_branches_prove_roots sampleDigests (.fill 32 1) (.fill 32 4)
      (show [.fill 32 5, .fill 32 6].length = [.fill 32 2, .fill 32 3].length from rfl)
  have hlength : branch.length = 2 := hdepth
  exact ⟨branch, root, hbranch, hroot, hlength, hpath (by rw [hlength]; decide)⟩

end Wolf.AuxPow
