import Wolf.NonFinalized.Contains
import Wolf.NonFinalized.State

/-! # What the operations do to the set of chains

One inversion lemma for each operation of the non-finalized state: where
the chains of the new state come from, and which checks were passed.
Every chain is an old one, a trimmed chain with one block pushed, or an
old one without its root. All invariants of the set of chains are
derived from these lemmas. -/

namespace Wolf.NonFinalized

open Ledger List

variable {H : Type} {checks : Checks H} {rules : Rules H} {db : ZebraDb H}
  {s s' : NonFinalizedState H} {c c' p m : Chain H} {b : SemanticallyVerifiedBlock}
  {bs : List ContextuallyVerifiedBlock} {hash tip : Hash} {treestate : Treestate H}
  {chains : List (Chain H)}

/-! ## Trimmed chains -/

theorem Chain.push_blocks {b : ContextuallyVerifiedBlock} (h : c.push rules b = .ok c') :
    c'.blocks = c.blocks.insert b := by
  obtain ⟨_, _, h⟩ := of_two_binds h
  obtain ⟨_, _, h⟩ := of_two_binds h
  cases h
  rfl

theorem Chain.revertWith_blocks {b : ContextuallyVerifiedBlock} {position : RevertPosition}
    (h : c.revertWith rules b position = .ok c') : c'.blocks = c.blocks := by
  obtain ⟨_, _, h⟩ := of_two_binds h
  obtain ⟨_, _, h⟩ := of_two_binds h
  obtain ⟨_, _, h⟩ := of_two_binds h
  cases h
  rfl

theorem Chain.popRoot_subset {b : ContextuallyVerifiedBlock}
    (h : c.popRoot rules = .ok (c', b, treestate)) : c'.blocks.items ⊆ c.blocks.items := by
  obtain ⟨b', _, h⟩ := of_bind h
  obtain ⟨_, _, h⟩ := of_bind h
  obtain ⟨_, hrevert, h⟩ := of_bind h
  cases h
  rw [Chain.revertWith_blocks hrevert]
  exact fun x hx => (SortedList.mem_erase.mp hx).1

/-- Some blocks were popped off the tip of a chain. -/
def Chain.Trimmed (rules : Rules H) : Chain H → Chain H → Prop :=
  Relation.ReflTransGen fun c c' => c.popTip rules = .ok c'

/-- A trimmed chain has no other blocks. -/
theorem Chain.Trimmed.subset (h : Chain.Trimmed rules c p) : p.blocks.items ⊆ c.blocks.items := by
  induction h with
  | refl => exact Subset.refl _
  | tail _ hpop ih =>
    obtain ⟨b, _, hpop⟩ := of_bind hpop
    obtain ⟨_, _, hrevert⟩ := of_bind hpop
    rw [Chain.revertWith_blocks hrevert]
    exact fun x hx => ih (SortedList.mem_erase.mp hx).1

theorem Chain.forkAt_trimmed {rounds : Nat} (h : Chain.forkAt rules tip rounds c = .ok c') :
    Chain.Trimmed rules c c' ∧ c'.tipHash = some tip := by
  induction rounds generalizing c with
  | zero => cases h
  | succ rounds ih =>
    obtain ⟨last, hlast, h⟩ := of_okOr_bind h
    split at h
    · rename_i htip
      cases h
      refine ⟨Relation.ReflTransGen.refl, ?_⟩
      rw [Chain.tipHash, Chain.tipBlock, hlast, Option.map_some, htip]
    · obtain ⟨popped, hpop, h⟩ := of_bind h
      obtain ⟨htrimmed, htip⟩ := ih h
      exact ⟨Relation.ReflTransGen.head hpop htrimmed, htip⟩

theorem Chain.fork_trimmed (h : c.fork rules tip = .ok (some c')) :
    Chain.Trimmed rules c c' ∧ c'.tipHash = some tip := by
  unfold Chain.fork at h
  split at h
  · obtain ⟨forked, hloop, h⟩ := of_bind h
    cases h
    exact Chain.forkAt_trimmed hloop
  · cases h

/-- A trimmed chain holds the lowest blocks of the chain. -/
theorem Chain.Contains.trimmed (h : c.Contains rules bs) (htrimmed : Chain.Trimmed rules c c') :
    ∃ kept above, bs = kept ++ above ∧ c'.Contains rules kept := by
  induction htrimmed with
  | refl => exact ⟨bs, [], (append_nil _).symm, h⟩
  | tail _ hpop ih =>
    obtain ⟨kept, above, rfl, hkept⟩ := ih
    obtain ⟨kept', last, rfl, _, _, hkept'⟩ := hkept.popTip hpop
    exact ⟨kept', last :: above, append_assoc _ _ _, hkept'⟩

theorem Chain.Contains.tipHash (h : c.Contains rules bs) :
    c.tipHash = bs.getLast?.map fun b => b.hash := by
  rw [Chain.tipHash, Chain.tipBlock, SortedList.last?, h.blocks]

theorem Chain.Contains.rootHash (h : c.Contains rules bs) :
    c.rootHash = bs.head?.map fun b => b.hash := by
  rw [Chain.rootHash, SortedList.first?, h.blocks]

namespace NonFinalizedState

/-! ## Insertion -/

variable (set : SortedList (Chain.order : Chain H → Nat ×ₗ Nat))

theorem popFirst_iterate_items (n : Nat) :
    (SortedList.popFirst^[n] set).items = set.items.drop n := by
  induction n generalizing set with
  | zero => rfl
  | succ n ih =>
    rw [Function.iterate_succ_apply, ih]
    exact drop_tail

theorem limitForks_items :
    (limitForks set).items = set.items.drop (set.items.length - maxNonFinalizedChainForks) :=
  popFirst_iterate_items set _

theorem limitForks_length : (limitForks set).items.length ≤ maxNonFinalizedChainForks := by
  rw [limitForks_items, length_drop]
  omega

variable {set} {keep q : Chain H → Bool}

/-- Few chains are all kept. -/
theorem limitForks_of_le (h : set.items.length ≤ maxNonFinalizedChainForks) :
    limitForks set = set := by
  apply SortedList.ext
  rw [limitForks_items, Nat.sub_eq_zero_of_le h, drop_zero]

theorem mem_of_mem_limitForks (h : c ∈ limitForks set) : c ∈ set := by
  rw [← SortedList.mem_items, limitForks_items] at h
  exact mem_of_mem_drop h

theorem mem_insertWith (h : c ∈ (s.insertWith m keep).chainSet) :
    (c ∈ s.chainSet ∨ c = m) ∧ keep c = true := by
  obtain ⟨hmem, hkeep⟩ := SortedList.mem_filter.mp (mem_of_mem_limitForks h)
  refine ⟨?_, hkeep⟩
  rcases SortedList.mem_insertAbsent.mp hmem with hmem | ⟨rfl, _⟩
  · exact .inl hmem
  · exact .inr rfl

theorem mem_insert (h : c ∈ (s.insert m).chainSet) : c ∈ s.chainSet ∨ c = m :=
  (mem_insertWith h).1

theorem insertWith_length :
    (s.insertWith m keep).chainSet.items.length ≤ maxNonFinalizedChainForks :=
  limitForks_length _

theorem mem_chainIter : c ∈ s.chainIter ↔ c ∈ s.chainSet := mem_reverse

theorem findChain_eq_some (h : s.findChain q = some c) : c ∈ s.chainSet ∧ q c = true :=
  ⟨mem_chainIter.mp (mem_of_find?_eq_some h), List.find?_some h⟩

/-! ## Commits -/

theorem firstFork_eq_some (h : firstFork checks hash chains = .ok (some p)) :
    ∃ c ∈ chains, c.fork checks.toRules hash = .ok (some p) := by
  induction chains with
  | nil => cases h
  | cons c rest ih =>
    obtain ⟨forked, hfork, h⟩ := of_bind h
    cases forked with
    | none =>
      obtain ⟨c', hc', hfork'⟩ := ih h
      exact ⟨c', mem_cons_of_mem _ hc', hfork'⟩
    | some f =>
      cases h
      exact ⟨c, mem_cons_self, hfork⟩

/-- The parent chain is a trimmed chain that ends in the parent. -/
theorem parentChain_eq_ok {parentHash : Hash} (h : s.parentChain checks parentHash = .ok p) :
    ∃ c ∈ s.chainSet, Chain.Trimmed checks.toRules c p ∧ p.tipHash = some parentHash := by
  unfold parentChain at h
  split at h
  · rename_i c hfind
    cases h
    obtain ⟨hmem, htip⟩ := findChain_eq_some hfind
    exact ⟨p, hmem, Relation.ReflTransGen.refl, of_decide_eq_true htip⟩
  · obtain ⟨forked, hforked, h⟩ := of_mapErr_bind h
    rw [okOr_eq_ok] at h
    subst h
    obtain ⟨c, hc, hfork⟩ := firstFork_eq_some hforked
    exact ⟨c, mem_chainIter.mp hc, Chain.fork_trimmed hfork⟩

end NonFinalizedState

/-- What `validate_and_commit` checks and does: the block `b` is pushed as
`b'`, which makes `m` of `p`. -/
structure Accepted (checks : Checks H) (s : NonFinalizedState H) (db : ZebraDb H) (p : Chain H)
    (b : SemanticallyVerifiedBlock) (b' : ContextuallyVerifiedBlock) (m : Chain H) : Prop where
  notInvalidated : s.isInvalidated b.hash = false
  block : b'.toSemanticallyVerifiedBlock = b
  spends : ∃ spends, transparentSpend checks db p b = .ok spends ∧
    b'.spentOutputs = b.newOutputs ∪ spends
  push : p.push checks.toRules b' = .ok m

namespace NonFinalizedState

theorem validateAndCommit_eq_ok (h : s.validateAndCommit checks db p b = .ok m) :
    ∃ b', Accepted checks s db p b b' m := by
  obtain ⟨hrecord, h⟩ := of_rejectIf_bind h
  obtain ⟨spends, hspends, h⟩ := of_mapErr_bind h
  obtain ⟨_, _, h⟩ := of_bind h
  obtain ⟨b', hcontext, h⟩ := of_mapErr_bind h
  obtain ⟨_, _, hcontext⟩ := of_bind hcontext
  cases hcontext
  obtain ⟨_, _, h⟩ := of_bind h
  split at h
  · cases h
  · obtain ⟨_, _, hpush⟩ := of_two_binds h
    exact ⟨_, by simpa using hrecord, rfl, ⟨spends, hspends, rfl⟩, hpush⟩

/-- What `commit_block` does. -/
theorem commitBlock_eq_ok (h : s.commitBlock checks db b = .ok s') :
    ∃ c ∈ s.chainSet, ∃ p b' m, Chain.Trimmed checks.toRules c p ∧
      p.tipHash = some b.previousBlockHash ∧ Accepted checks s db p b b' m ∧
      s' = s.insertWith m fun c => c.tipHash ≠ some b.previousBlockHash := by
  obtain ⟨p, hparent, h⟩ := of_bind h
  obtain ⟨m, hcommit, h⟩ := of_bind h
  cases h
  obtain ⟨c, hc, htrimmed, htip⟩ := parentChain_eq_ok hparent
  obtain ⟨b', haccepted⟩ := validateAndCommit_eq_ok hcommit
  exact ⟨c, hc, p, b', m, htrimmed, htip, haccepted, rfl⟩

/-- What `commit_new_chain` does. -/
theorem commitNewChain_eq_ok (h : s.commitNewChain checks db b = .ok s') :
    ∃ p b' m, Chain.new checks.toRules db.tipState = .ok p ∧ Accepted checks s db p b b' m ∧
      s' = s.insert m := by
  obtain ⟨p, hnew, h⟩ := of_mapErr_bind h
  obtain ⟨m, hcommit, h⟩ := of_bind h
  cases h
  obtain ⟨b', haccepted⟩ := validateAndCommit_eq_ok hcommit
  exact ⟨p, b', m, hnew, haccepted, rfl⟩

/-! ## Finalization -/

theorem mem_reinsert (h : c ∈ (s.reinsert p).chainSet) :
    c ∈ s.chainSet ∨ c = p ∧ p.blocks.items ≠ [] := by
  unfold reinsert at h
  split at h
  · exact .inl h
  · rename_i hne
    exact (mem_insert h).imp_right fun heq => ⟨heq, hne⟩

@[simp] theorem reinsert_invalidatedBlocks :
    (s.reinsert p).invalidatedBlocks = s.invalidatedBlocks := by
  unfold reinsert
  split <;> rfl

theorem reinsert_length (h : s.chainSet.items.length ≤ maxNonFinalizedChainForks) :
    (s.reinsert p).chainSet.items.length ≤ maxNonFinalizedChainForks := by
  unfold reinsert
  split
  · exact h
  · exact insertWith_length

/-- A chain is another one without a root of the given hash. -/
def WithoutRoot (rules : Rules H) (hash : Hash) (c p : Chain H) : Prop :=
  ∃ b treestate, c.popRoot rules = .ok (p, b, treestate) ∧ b.hash = hash ∧ p.blocks.items ≠ []

theorem finalizeSideChain_eq_ok (h : finalizeSideChain checks hash s c = .ok s') :
    s' = s ∨ ∃ p b treestate, c.popRoot checks.toRules = .ok (p, b, treestate) ∧ b.hash = hash ∧
      s' = s.reinsert p := by
  obtain ⟨root, _, h⟩ := of_bind h
  split at h
  · cases h
    exact .inl rfl
  · obtain ⟨⟨p, b, treestate⟩, hpop, h⟩ := of_bind h
    obtain ⟨hassert, h⟩ := of_require_bind h
    cases h
    exact .inr ⟨p, b, treestate, hpop, hassert, rfl⟩

/-- The loop over the side chains keeps chains without their root. -/
theorem finalizeSideChains_eq_ok (h : chains.foldlM (finalizeSideChain checks hash) s = .ok s') :
    s'.invalidatedBlocks = s.invalidatedBlocks ∧
      (s.chainSet.items.length ≤ maxNonFinalizedChainForks →
        s'.chainSet.items.length ≤ maxNonFinalizedChainForks) ∧
      ∀ x ∈ s'.chainSet, x ∈ s.chainSet ∨
        ∃ c ∈ chains, WithoutRoot checks.toRules hash c x := by
  induction chains generalizing s with
  | nil =>
    cases h
    exact ⟨rfl, id, fun x hx => .inl hx⟩
  | cons c rest ih =>
    obtain ⟨s₁, hfirst, h⟩ := of_bind h
    obtain ⟨hrecords, hcount, hrest⟩ := ih h
    rcases finalizeSideChain_eq_ok hfirst with rfl | ⟨p, b, treestate, hpop, hhash, rfl⟩
    · refine ⟨hrecords, hcount, fun x hx => (hrest x hx).imp_right ?_⟩
      rintro ⟨c', hc', hwithout⟩
      exact ⟨c', mem_cons_of_mem _ hc', hwithout⟩
    · refine ⟨hrecords.trans reinsert_invalidatedBlocks, hcount ∘ reinsert_length, fun x hx => ?_⟩
      rcases hrest x hx with hx | ⟨c', hc', hwithout⟩
      · rcases mem_reinsert hx with hx | ⟨rfl, hne⟩
        · exact .inl hx
        · exact .inr ⟨c, mem_cons_self, b, treestate, hpop, hhash, hne⟩
      · exact .inr ⟨c', mem_cons_of_mem _ hc', hwithout⟩

/-- What `finalize` does: every chain that is left is an old one without its
root, which is the block that is returned. -/
theorem finalize_eq_ok {root : ContextuallyVerifiedBlock}
    (h : s.finalize checks = .ok (s', root, treestate)) :
    (∃ best popped, s.bestChain = some best ∧
      best.popRoot checks.toRules = .ok (popped, root, treestate)) ∧
    s'.invalidatedBlocks = s.invalidatedBlocks.filter (fun entry => root.height ≤ entry.1) ∧
    s'.chainSet.items.length ≤ maxNonFinalizedChainForks ∧
    ∀ x ∈ s'.chainSet, ∃ c ∈ s.chainSet, WithoutRoot checks.toRules root.hash c x := by
  obtain ⟨best, hbest, h⟩ := of_okOr_bind h
  obtain ⟨⟨popped, b, t⟩, hpop, h⟩ := of_bind h
  obtain ⟨kept, hloop, h⟩ := of_bind h
  cases h
  obtain ⟨hrecords, hcount, hchains⟩ := finalizeSideChains_eq_ok hloop
  refine ⟨⟨best, popped, hbest, hpop⟩, ?_, hcount (reinsert_length (Nat.zero_le _)), ?_⟩
  · rw [hrecords, reinsert_invalidatedBlocks]
  · intro x hx
    rcases hchains x hx with hx | ⟨c, hc, hwithout⟩
    · rcases mem_reinsert hx with hx | ⟨rfl, hne⟩
      · cases hx
      · exact ⟨best, SortedList.last?_mem hbest, root, treestate, hpop, rfl, hne⟩
    · exact ⟨c, mem_of_mem_dropLast (mem_reverse.mp hc), hwithout⟩

/-! ## Operator requests -/

/-- What a record of invalidated blocks does. -/
theorem recordInvalidated_eq_ok {blocks : List ContextuallyVerifiedBlock}
    (h : s.recordInvalidated blocks = .ok s') :
    ∃ first, blocks.head? = some first ∧ s'.chainSet = s.chainSet ∧
      s'.invalidatedBlocks =
        (s.invalidatedBlocks.insert first.height blocks).limit maxInvalidatedBlocks := by
  obtain ⟨first, hfirst, h⟩ := of_okOr_bind h
  cases h
  exact ⟨first, hfirst, rfl, rfl⟩

/-- What `invalidate_block` does: the chain with the block is removed if the
block is its root; otherwise the part below the block is kept and all
chains with the block are removed. The blocks from the one with the
given hash on are recorded. -/
theorem invalidateBlock_eq_ok (h : s.invalidateBlock checks hash = .ok (.ok s')) :
    ∃ c blocks first, (s.findChain fun c => c.containsBlockHash hash) = some c ∧
      blocks.head? = some first ∧
      s'.invalidatedBlocks =
        (s.invalidatedBlocks.insert first.height blocks).limit maxInvalidatedBlocks ∧
      ((c.rootHash = some hash ∧ blocks = c.blocks.items ∧
          s'.chainSet = s.chainSet.erase c.order) ∨
        (c.rootHash ≠ some hash ∧ ∃ f kept height, c.heightByHash.lookup hash = some height ∧
          blocks = c.childBlocks height ∧ c.fork checks.toRules hash = .ok (some f) ∧
          f.popTip checks.toRules = .ok kept ∧
          s'.chainSet = (s.insertWith kept fun c => !c.containsBlockHash hash).chainSet)) := by
  unfold invalidateBlock at h
  split at h
  · cases h
  · rename_i c hfind
    split at h
    · rename_i hroot
      obtain ⟨recorded, hrecorded, h⟩ := of_bind h
      cases h
      obtain ⟨first, hfirst, hset, hrecords⟩ := recordInvalidated_eq_ok hrecorded
      exact ⟨c, _, first, hfind, hfirst, hrecords, .inl ⟨hroot, rfl, hset⟩⟩
    · rename_i hroot
      obtain ⟨result, hresult, h⟩ := of_bind h
      obtain ⟨⟨kept, blocks⟩, hkept, h⟩ := of_okOr_bind h
      obtain ⟨recorded, hrecorded, h⟩ := of_bind h
      cases h
      subst hkept
      obtain ⟨first, hfirst, hset, hrecords⟩ := recordInvalidated_eq_ok hrecorded
      refine ⟨c, blocks, first, hfind, hfirst, hrecords, .inr ⟨hroot, ?_⟩⟩
      unfold Chain.invalidateBlock at hresult
      split at hresult
      · cases hresult
      · rename_i height hheight
        obtain ⟨forked, hfork, hresult⟩ := of_bind hresult
        cases forked with
        | none => cases hresult
        | some f =>
          obtain ⟨kept', hpop, hresult⟩ := of_bind hresult
          cases hresult
          exact ⟨f, kept, height, hheight, rfl, hfork, hpop, hset⟩

/-- Every chain after an invalidation is an old one or a trimmed one. -/
theorem invalidateBlock_trimmed (h : s.invalidateBlock checks hash = .ok (.ok s'))
    (hc : c ∈ s'.chainSet) : ∃ c₀ ∈ s.chainSet, Chain.Trimmed checks.toRules c₀ c := by
  obtain ⟨c₀, _, _, hfind, _, _, ⟨_, _, hset⟩ | ⟨_, f, kept, _, _, _, hfork, hpop, hset⟩⟩ :=
    invalidateBlock_eq_ok h
  · rw [hset] at hc
    exact ⟨c, (SortedList.mem_erase.mp hc).1, Relation.ReflTransGen.refl⟩
  · rw [hset] at hc
    rcases (mem_insertWith hc).1 with hc | rfl
    · exact ⟨c, hc, Relation.ReflTransGen.refl⟩
    · exact ⟨c₀, (findChain_eq_some hfind).1, (Chain.fork_trimmed hfork).1.tail hpop⟩

theorem splitFault_eq_ok {ε α : Type} {f : ValidateContextError → ε} {x : Except Fault α} {a : α}
    (h : splitFault f x = .ok (.ok a)) : x = .ok a := by
  rcases x with (e | e) | a'
  · cases h
  · cases h
  · cases h
    rfl

/-- What `reconsider_block` does: the recorded blocks are pushed onto a new
chain or onto a trimmed chain that ends in their parent. -/
theorem reconsiderBlock_eq_ok (h : s.reconsiderBlock checks db hash = .ok (.ok s')) :
    ∃ height root blocks p m, (height, root :: blocks) ∈ s.invalidatedBlocks ∧ root.hash = hash ∧
      ((root.previousBlockHash = db.top.hash ∧ Chain.new checks.toRules db.tipState = .ok p) ∨
        ∃ c ∈ s.chainSet, Chain.Trimmed checks.toRules c p ∧
          p.tipHash = some root.previousBlockHash) ∧
      (root :: blocks).foldlM (fun c b => c.push checks.toRules b) p = .ok m ∧
      s' = s.restore db height root.previousBlockHash m := by
  unfold reconsiderBlock at h
  split at h
  · cases h
  · rename_i height blocks hfind
    have hmem := mem_of_find?_eq_some hfind
    have hhash : blocks.head?.map (fun b => b.hash) = some hash := by
      simpa using List.find?_some hfind
    split at h
    · cases h
    · rename_i root hroot
      obtain ⟨rest, rfl⟩ : ∃ rest, blocks = root :: rest := by
        cases blocks with
        | nil => cases hroot
        | cons b rest =>
          cases hroot
          exact ⟨rest, rfl⟩
      obtain ⟨parent, hparent, h⟩ := of_bind h
      rcases parent with e | p
      · cases h
      obtain ⟨modified, hmodified, h⟩ := of_bind h
      rcases modified with e | m
      · cases h
      cases h
      refine ⟨height, root, rest, p, m, hmem, Option.some.inj hhash, ?_,
        splitFault_eq_ok hmodified, rfl⟩
      unfold reconsiderParent at hparent
      split at hparent
      · rename_i htip
        obtain ⟨p', hnew, hparent⟩ := of_bind hparent
        cases hparent
        exact .inl ⟨htip, hnew⟩
      · exact .inr (parentChain_eq_ok (splitFault_eq_ok hparent))

end NonFinalizedState

end Wolf.NonFinalized
