import Mathlib.Data.Set.Function

/-! # Authentication paths

A binary Merkle path hashes a leaf with one sibling per level. Bit
`k` of the index says on which side the sibling of level `k` stands.

A hash of pairs of digests into digests is never injective on the
whole type when that is finite, so the collision freedom is asked for
only on the pairs that the two paths hash. -/

namespace Wolf

universe u

variable {H : Type u} (pair : H → H → H) {index : Nat}

/-- The pair hashed at one level: the sibling is on the right of an even
index and on the left of an odd one. -/
def pathPair (node sibling : H) (index : Nat) : H × H :=
  if index % 2 = 0 then (node, sibling) else (sibling, node)

/-- The root reached from `leaf` along the siblings `branch`. -/
def pathRoot : H → List H → Nat → H
  | leaf, [], _ => leaf
  | leaf, sibling :: branch, index =>
    let inputs := pathPair leaf sibling index
    pathRoot (pair inputs.1 inputs.2) branch (index / 2)

/-- The pairs hashed from `leaf` along the siblings `branch`. -/
def pathInputs : H → List H → Nat → List (H × H)
  | _, [], _ => []
  | leaf, sibling :: branch, index =>
    let inputs := pathPair leaf sibling index
    inputs :: pathInputs (pair inputs.1 inputs.2) branch (index / 2)

/-- `pair` has no collision among the pairs in `s`. -/
def CollisionFree (s : List (H × H)) : Prop :=
  Set.InjOn (fun q : H × H => pair q.1 q.2) {q | q ∈ s}

theorem pathPair_injective {a b x y : H} (h : pathPair a x index = pathPair b y index) :
    a = b ∧ x = y := by
  unfold pathPair at h
  split at h
  · exact Prod.mk.inj h
  · exact (Prod.mk.inj h).symm

/-- Two paths of one length and one index to one root are equal, up to a
collision among the hashed pairs. -/
theorem pathRoot_injOn {leaf₁ leaf₂ : H} {branch₁ branch₂ : List H}
    (hlen : branch₁.length = branch₂.length)
    (hfree : CollisionFree pair
      (pathInputs pair leaf₁ branch₁ index ++ pathInputs pair leaf₂ branch₂ index))
    (hroot : pathRoot pair leaf₁ branch₁ index = pathRoot pair leaf₂ branch₂ index) :
    leaf₁ = leaf₂ ∧ branch₁ = branch₂ := by
  induction branch₁ generalizing leaf₁ leaf₂ branch₂ index with
  | nil =>
    cases branch₂ with
    | nil => exact ⟨hroot, rfl⟩
    | cons y branch₂ => simp at hlen
  | cons x branch₁ ih =>
    cases branch₂ with
    | nil => simp at hlen
    | cons y branch₂ =>
      -- The levels above agree by induction, so the two hashes at this
      -- level are equal, and so are the pairs they were taken of.
      obtain ⟨hhash, hbranch⟩ := ih (by simpa using hlen)
        (hfree.mono (by
          intro q hq
          simp only [pathInputs, Set.mem_ofPred_eq, List.mem_append, List.mem_cons] at hq ⊢
          rcases hq with hq | hq
          · exact .inl (.inr hq)
          · exact .inr (.inr hq))) hroot
      have hpairs := hfree (by simp [pathInputs]) (by simp [pathInputs]) hhash
      obtain ⟨hleaf, hsibling⟩ := pathPair_injective hpairs
      exact ⟨hleaf, by rw [hsibling, hbranch]⟩

end Wolf
