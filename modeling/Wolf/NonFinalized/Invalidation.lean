import Wolf.NonFinalized.BestChain

/-! # Invalidated blocks

An operator invalidates a block: it leaves the set of chains with all
its descendants, and a record of it keeps it from being committed again.

Two things stand in the way of this. If the block is the root of the
chain that is found, only this chain is removed, and other chains with
the same root stay. And records are kept under the height of the block,
so that a later invalidation at the same height replaces the record; a
record that replaces another one also takes its place in the order of
eviction.

* `invalidated_block_stays_out`: what holds as long as neither happens.
* `invalidated_block_returns`: both can happen. -/

namespace Wolf.NonFinalized

open Ledger List NonFinalizedState

variable {H : Type} {keep : Chain H → Bool} {root b' : ContextuallyVerifiedBlock}
  {b : SemanticallyVerifiedBlock} {treestate : Treestate H} {s : NonFinalizedState H}
  {checks : Checks H} {hash : Hash} {db : ZebraDb H}

/-! ## Descendants -/

/-- Some chain has the block. -/
def NonFinalizedState.HoldsBlock (s : NonFinalizedState H) (hash : Hash) : Prop :=
  ∃ c ∈ s.chainSet, ∃ b ∈ c.blocks.items, b.hash = hash

namespace NonFinalizedState

variable {checks : Checks H} {s s' : NonFinalizedState H} {db : ZebraDb H} {m p : Chain H}
  {b : ContextuallyVerifiedBlock} {hash x : Hash}

theorem isInvalidated_iff :
    s.isInvalidated hash = true ↔ ∃ entry ∈ s.invalidatedBlocks, ∃ b ∈ entry.2, b.hash = hash := by
  unfold isInvalidated
  simp

/-- The blocks of a chain that new blocks are pushed onto. -/
theorem holdsBlock_of_source {q : Prop}
    (hsource : Chain.new checks.toRules db.tipState = .ok p ∨
      ∃ c ∈ s.chainSet, Chain.Trimmed checks.toRules c p ∧ q)
    (hb : b ∈ p.blocks.items) : s.HoldsBlock b.hash := by
  rcases hsource with hnew | ⟨c, hc, htrimmed, _⟩
  · rw [(Chain.Contains.new hnew).blocks] at hb
    cases hb
  · exact ⟨c, hc, b, htrimmed.subset hb, rfl⟩

theorem holdsBlock_insertWith (h : (s.insertWith m keep).HoldsBlock hash) :
    s.HoldsBlock hash ∨ ∃ b ∈ m.blocks.items, b.hash = hash := by
  obtain ⟨c, hc, hb⟩ := h
  rcases (mem_insertWith hc).1 with hc | rfl
  · exact .inl ⟨c, hc, hb⟩
  · exact .inr hb

theorem finalize_holdsBlock (hfinalize : s.finalize checks = .ok (s', root, treestate))
    (h : s'.HoldsBlock hash) : s.HoldsBlock hash := by
  obtain ⟨_, _, _, hchains⟩ := finalize_eq_ok hfinalize
  obtain ⟨c, hc, b, hb, hhash⟩ := h
  obtain ⟨c₀, hc₀, _, _, hpop, _⟩ := hchains c hc
  exact ⟨c₀, hc₀, b, Chain.popRoot_subset hpop hb, hhash⟩

theorem invalidateBlock_holdsBlock (hinvalidate : s.invalidateBlock checks x = .ok (.ok s'))
    (h : s'.HoldsBlock hash) : s.HoldsBlock hash := by
  obtain ⟨c, hc, b, hb, hhash⟩ := h
  obtain ⟨c₀, hc₀, htrimmed⟩ := invalidateBlock_trimmed hinvalidate hc
  exact ⟨c₀, hc₀, b, htrimmed.subset hb, hhash⟩

end NonFinalizedState

/-- A commit adds one block. -/
theorem Accepted.holdsBlock {p m : Chain H} {q : Prop} (haccepted : Accepted checks s db p b b' m)
    (hsource : Chain.new checks.toRules db.tipState = .ok p ∨
      ∃ c ∈ s.chainSet, Chain.Trimmed checks.toRules c p ∧ q)
    (h : (s.insertWith m keep).HoldsBlock hash) : s.HoldsBlock hash ∨ b.hash = hash := by
  rcases holdsBlock_insertWith h with h | ⟨a, ha, rfl⟩
  · exact .inl h
  · rw [Chain.push_blocks haccepted.push] at ha
    rcases SortedList.mem_insert.mp ha with rfl | ⟨ha, _⟩
    · right
      rw [← haccepted.block]
    · exact .inl (holdsBlock_of_source hsource ha)

/-- The second block is the first one or descends from it, through blocks of
the chains. -/
def Descends (s : NonFinalizedState H) : Hash → Hash → Prop :=
  Relation.ReflTransGen fun a x => ∃ c ∈ s.chainSet, ∃ b ∈ c.blocks.items,
    b.previousBlockHash = a ∧ b.hash = x

section Descendants

variable {blockOf : Hash → Block} {s' : NonFinalizedState H} {c kept : Chain H}
  {b first first' : ContextuallyVerifiedBlock} {x : Hash}

/-- The parent of a block is the block before it. -/
theorem Linked.parent_mem {below : SemanticallyVerifiedBlock}
    {bs : List ContextuallyVerifiedBlock} (h : Linked below bs) (hb : b ∈ bs) :
    b.previousBlockHash = below.hash ∨ ∃ b' ∈ bs, b'.hash = b.previousBlockHash := by
  induction bs generalizing below with
  | nil => cases hb
  | cons b₀ bs ih =>
    rcases mem_cons.mp hb with rfl | hb
    · exact .inl h.1.parent
    · right
      rcases ih h.2 hb with hparent | ⟨b', hb', hparent⟩
      · exact ⟨b₀, mem_cons_self, hparent.symm⟩
      · exact ⟨b', mem_cons_of_mem _ hb', hparent⟩

/-- A chain with a descendant of a block has the block. -/
theorem Chain.Attached.holds_ancestor (hwell : System.WellFormed checks blockOf ⟨s, db⟩)
    (hc : c.Attached checks.toRules blockOf db) (hholds : s.HoldsBlock hash)
    (h : Descends s hash x) (hb : b ∈ c.blocks.items) (hx : b.hash = x) :
    ∃ b₀ ∈ c.blocks.items, b₀.hash = hash := by
  induction h generalizing b with
  | refl => exact ⟨b, hb, hx⟩
  | @tail a x hdescends hlast ih =>
    obtain ⟨c₁, hc₁, b₁, hb₁, hparent, hx₁⟩ := hlast
    have hsame := Known.eq (hc.known b hb) ((hwell.attached c₁ hc₁).known b₁ hb₁)
      (hx.trans hx₁.symm)
    have hprevious : b.previousBlockHash = a := by rw [hsame]; exact hparent
    rcases hc.linked.parent_mem hb with htop | ⟨b', hb', hb'hash⟩
    · -- The parent would be the finalized tip, which is in no chain.
      obtain ⟨c₂, hc₂, b₂, hb₂, hb₂hash⟩ : s.HoldsBlock a := by
        cases hdescends with
        | refl => exact hholds
        | tail _ hlast =>
          obtain ⟨c, hc, b, hb, _, hx⟩ := hlast
          exact ⟨c, hc, b, hb, hx⟩
      refine absurd ?_ ((hwell.attached c₂ hc₂).hash_ne_top hwell.top hb₂)
      rw [hb₂hash, ← hprevious]
      exact htop
    · exact ih hb' (hb'hash.trans hprevious)

/-- The later blocks of a chain descend from the earlier ones. -/
theorem descends_of_append {below rest : List ContextuallyVerifiedBlock} (hc : c ∈ s.chainSet)
    (hlinked : Linked db.top c.blocks.items) (hblocks : c.blocks.items = below ++ first :: rest)
    (hb : b ∈ first :: rest) : Descends s first.hash b.hash := by
  induction rest generalizing below first with
  | nil =>
    rw [mem_singleton.mp hb]
    exact Relation.ReflTransGen.refl
  | cons next rest ih =>
    rcases mem_cons.mp hb with rfl | hb
    · exact Relation.ReflTransGen.refl
    · have hsplit : c.blocks.items = (below ++ [first]) ++ next :: rest := by
        rw [hblocks, append_assoc]
        rfl
      have hnext := ih hsplit hb
      refine Relation.ReflTransGen.head ⟨c, hc, next, ?_, ?_, rfl⟩ hnext
      · rw [hblocks]
        simp
      · rw [hblocks, linked_append] at hlinked
        exact hlinked.2.2.1.parent

/-! ## What an invalidation leaves -/

/-- The block is the root of no chain, or one chain only has it. -/
def RootNotShared (s : NonFinalizedState H) (hash : Hash) : Prop :=
  ∀ c ∈ s.chainSet, ∀ c' ∈ s.chainSet, c.rootHash = some hash →
    c'.containsBlockHash hash = true → c' = c

/-- The block and its descendants are gone. -/
theorem invalidateBlock_removes (hwell : System.WellFormed checks blockOf ⟨s, db⟩)
    (hinvalidate : s.invalidateBlock checks hash = .ok (.ok s')) (hroot : RootNotShared s hash)
    (hc : c ∈ s'.chainSet) (hb : b ∈ c.blocks.items) : ¬ Descends s hash b.hash := by
  obtain ⟨c₀, below, first, rest, hc₀, hspec⟩ := invalidateBlock_spec hwell hinvalidate
  have hfirst : first ∈ c₀.blocks.items := by rw [hspec.blocks]; simp
  have hholds : s.HoldsBlock hash := ⟨c₀, hc₀, first, hfirst, hspec.first_hash⟩
  intro hdescends
  have hcontains : c.Attached checks.toRules blockOf db → c.containsBlockHash hash = true := by
    intro hattached
    exact hattached.contains.containsBlockHash.mpr
      (hattached.holds_ancestor hwell hholds hdescends hb rfl)
  rcases hspec.chains with ⟨rfl, hset⟩ | ⟨_, kept, htrimmed, _, hset⟩
  · rw [hset] at hc
    obtain ⟨hc, horder⟩ := SortedList.mem_erase.mp hc
    have hrootHash : c₀.rootHash = some hash := by
      rw [(hwell.attached c₀ hc₀).contains.rootHash, hspec.blocks, ← hspec.first_hash]
      rfl
    have hcontains := hcontains (hwell.attached c hc)
    exact horder (congrArg Chain.order (hroot c₀ hc₀ c hc hrootHash hcontains))
  · rw [hset] at hc
    obtain ⟨hmem, hkeep⟩ := mem_insertWith hc
    have hattached : c.Attached checks.toRules blockOf db := by
      rcases hmem with hmem | rfl
      · exact hwell.attached c hmem
      · exact ((hwell.attached c₀ hc₀).trimmed htrimmed).1
    rw [hcontains hattached] at hkeep
    cases hkeep

/-- After an invalidation below the root, no chain is dropped for the
limit. -/
theorem mem_insertWith_of_invalidated (hwell : System.WellFormed checks blockOf ⟨s, db⟩)
    (hc : c ∈ s.chainSet) (hcontains : c.containsBlockHash hash = true) {y : Chain H}
    (hy : y ∈ s.chainSet.insertAbsent kept) (hkeep : y.containsBlockHash hash = false) :
    y ∈ (s.insertWith kept fun c => !c.containsBlockHash hash).chainSet := by
  have hmem : c ∈ s.chainSet.insertAbsent kept := SortedList.mem_insertAbsent.mpr (.inl hc)
  have hcount : ((s.chainSet.insertAbsent kept).filter fun c =>
      !c.containsBlockHash hash).items.length ≤ maxNonFinalizedChainForks := by
    have hlt : ((s.chainSet.insertAbsent kept).items.filter fun c =>
        !c.containsBlockHash hash).length < (s.chainSet.insertAbsent kept).items.length :=
      length_filter_lt_length_iff_exists.mpr ⟨c, hmem, by simp [hcontains]⟩
    have hinsert : (s.chainSet.insertAbsent kept).items.length ≤ s.chainSet.items.length + 1 :=
      SortedList.insertAbsent_length_le
    have hwell := hwell.count
    exact Nat.le_of_lt_succ (Nat.lt_of_lt_of_le hlt (hinsert.trans (Nat.succ_le_succ hwell)))
  change y ∈ NonFinalizedState.limitForks _
  rw [limitForks_of_le hcount, SortedList.mem_filter, hkeep]
  exact ⟨hy, rfl⟩

/-- Chains with a common block have the same blocks below it. -/
theorem Chain.Attached.below_eq {c' : Chain H}
    {below below' rest rest' : List ContextuallyVerifiedBlock}
    (h : c.Attached checks.toRules blockOf db) (h' : c'.Attached checks.toRules blockOf db)
    (htop : Known blockOf db.top) (hblocks : c.blocks.items = below ++ first :: rest)
    (hblocks' : c'.blocks.items = below' ++ first' :: rest') (hhash : first.hash = first'.hash) :
    below.map (fun b => b.toSemanticallyVerifiedBlock) =
      below'.map fun b => b.toSemanticallyVerifiedBlock := by
  have hlinked := h.linked
  have hknown := h.known
  have hlinked' := h'.linked
  have hknown' := h'.known
  rw [hblocks] at hlinked hknown
  rw [hblocks'] at hlinked' hknown'
  rw [linked_append] at hlinked hlinked'
  refine hlinked.1.unique hlinked'.1 htop (fun b hb => hknown b (mem_append_left _ hb))
    (fun b hb => hknown' b (mem_append_left _ hb)) ?_
  rw [← hlinked.2.1.parent, ← hlinked'.2.1.parent,
    Known.eq (hknown first (by simp)) (hknown' first' (by simp)) hhash]

/-- All other blocks stay. -/
theorem invalidateBlock_keeps (hwell : System.WellFormed checks blockOf ⟨s, db⟩)
    (hinvalidate : s.invalidateBlock checks hash = .ok (.ok s'))
    (hc : c ∈ s.chainSet) (hb : b ∈ c.blocks.items) (hnot : ¬ Descends s hash b.hash) :
    s'.HoldsBlock b.hash := by
  obtain ⟨c₀, below, first, rest, hc₀, hspec⟩ := invalidateBlock_spec hwell hinvalidate
  have hattached₀ : c₀.Attached checks.toRules blockOf db := hwell.attached c₀ hc₀
  have hattached : c.Attached checks.toRules blockOf db := hwell.attached c hc
  rcases hspec.chains with ⟨rfl, hset⟩ | ⟨hbelow, kept, htrimmed, hkept, hset⟩
  · by_cases hsame : c = c₀
    · -- The removed chain has no other blocks.
      subst hsame
      have hdescends := descends_of_append hc hattached.linked hspec.blocks
        (by rw [hspec.blocks] at hb; exact hb)
      rw [hspec.first_hash] at hdescends
      exact absurd hdescends hnot
    · refine ⟨c, ?_, b, hb, rfl⟩
      rw [hset, SortedList.mem_erase]
      exact ⟨hc, fun horder => hsame (SortedList.eq_of_key hc hc₀ horder)⟩
  · have hcontains₀ : c₀.containsBlockHash hash = true := by
      rw [hattached₀.contains.containsBlockHash]
      exact ⟨first, by rw [hspec.blocks]; simp, hspec.first_hash⟩
    by_cases hcontains : c.containsBlockHash hash = true
    · -- The block is below the invalidated one, so in the chain that is left.
      obtain ⟨first', hfirst', hhash'⟩ := hattached.contains.containsBlockHash.mp hcontains
      obtain ⟨below', rest', hblocks'⟩ := append_of_mem hfirst'
      have hb' : b ∈ below' := by
        rw [hblocks'] at hb
        rcases mem_append.mp hb with hb | hb
        · exact hb
        · have hdescends := descends_of_append hc hattached.linked hblocks' hb
          rw [hhash'] at hdescends
          exact absurd hdescends hnot
      have hsame := hattached.below_eq hattached₀ hwell.top hblocks' hspec.blocks
        (hhash'.trans hspec.first_hash.symm)
      obtain ⟨y, hy, hyKeep, hyBlocks⟩ := hspec.exists_kept hwell hc₀ hbelow htrimmed hkept
      have hmem := mem_map_of_mem (f := fun b => b.toSemanticallyVerifiedBlock) hb'
      rw [hsame, ← hyBlocks, mem_map] at hmem
      obtain ⟨q, hq, hqsame⟩ := hmem
      refine ⟨y, ?_, q, hq, by rw [hqsame]⟩
      rw [hset]
      exact mem_insertWith_of_invalidated hwell hc₀ hcontains₀ hy hyKeep
    · refine ⟨c, ?_, b, hb, rfl⟩
      rw [hset]
      exact mem_insertWith_of_invalidated hwell hc₀ hcontains₀
        (SortedList.mem_insertAbsent.mpr (.inl hc)) (Bool.eq_false_iff.mpr hcontains)

end Descendants

/-! ## What keeps a block out -/

/-- The operations that a record at the height `k` survives: no
reconsideration and no other invalidation at that height. -/
def Operation.KeepsRecord (blockOf : Hash → Block) (k : Nat) : Operation → Prop
  | .reconsiderBlock _ => False
  | .invalidateBlock hash => (blockOf hash).coinbaseHeight ≠ some k
  | _ => True

def Operation.isInvalidation : Operation → Bool
  | .invalidateBlock _ => true
  | _ => false

/-- The block is in no chain, and in a record under the height `k` that at
most `n` records follow. -/
structure Blocked (hash : Hash) (k n : Nat) (s : NonFinalizedState H) : Prop where
  absent : ¬ s.HoldsBlock hash
  record : ∃ before first rest after, s.invalidatedBlocks =
    before ++ (k, first :: rest) :: after ∧ first.hash = hash ∧ after.length ≤ n

section Blocked

variable {blockOf : Hash → Block} {s' : NonFinalizedState H} {db' : ZebraDb H} {t u v : System H}
  {op : Operation} {k n : Nat}

theorem Blocked.isInvalidated (h : Blocked hash k n s) : s.isInvalidated hash = true := by
  obtain ⟨before, first, rest, after, hrecords, hfirst, _⟩ := h.record
  refine isInvalidated_iff.mpr
    ⟨(k, first :: rest), ?_, first, mem_cons_self, hfirst⟩
  rw [hrecords]
  exact mem_append_right _ mem_cons_self

/-- A commit does not bring the block back. -/
theorem Blocked.commit {p m : Chain H} (h : Blocked hash k n s)
    (hspec : CommitSpec checks blockOf s db b p b' m) : Blocked hash k n (s.insertWith m keep) where
  absent := by
    intro hholds
    rcases hspec.accepted.holdsBlock hspec.source hholds with hholds | rfl
    · exact h.absent hholds
    · -- The block itself is refused.
      have hrefused := hspec.accepted.notInvalidated
      rw [h.isInvalidated] at hrefused
      cases hrefused
  record := h.record

theorem Blocked.finalize (h : Blocked hash k n s)
    (hfinalize : s.finalize checks = .ok (s', root, treestate))
    (hdb : db.commitFinalizedDirect root treestate = .ok db') (hk : db'.top.height < k) :
    Blocked hash k n s' := by
  obtain ⟨_, hrecords, _⟩ := finalize_eq_ok hfinalize
  obtain ⟨htop, _⟩ := ZebraDb.commitFinalizedDirect_eq_ok hdb
  rw [htop] at hk
  refine ⟨fun hholds => h.absent (finalize_holdsBlock hfinalize hholds), ?_⟩
  obtain ⟨before, first, rest, after, hsplit, hfirst, hafter⟩ := h.record
  refine ⟨before.filter fun entry => root.height ≤ entry.1, first, rest,
    after.filter fun entry => root.height ≤ entry.1, ?_, hfirst,
    (length_filter_le _ _).trans hafter⟩
  rw [hrecords, hsplit, filter_append, filter_cons_of_pos (by simpa using hk.le)]

/-- Another invalidation moves the record by at most one place. -/
theorem Blocked.invalidateBlock {hash' : Hash} (hwell : System.WellFormed checks blockOf ⟨s, db⟩)
    (h : Blocked hash k n s)
    (hinvalidate : s.invalidateBlock checks hash' = .ok (.ok s'))
    (hheight : (blockOf hash').coinbaseHeight ≠ some k) (hn : n + 1 < maxInvalidatedBlocks) :
    Blocked hash k (n + 1) s' := by
  obtain ⟨c₀, below, first', rest', hc₀, hspec⟩ := invalidateBlock_spec hwell hinvalidate
  refine ⟨fun hholds => h.absent (invalidateBlock_holdsBlock hinvalidate hholds), ?_⟩
  obtain ⟨before, first, rest, after, hsplit, hfirst, hafter⟩ := h.record
  have hne : k ≠ first'.height := by
    rintro rfl
    have hknown : first'.block = blockOf first'.hash :=
      (hwell.attached c₀ hc₀).known first' (by rw [hspec.blocks]; simp)
    rw [← hspec.first_hash, ← hknown] at hheight
    exact hheight first'.height_eq
  obtain ⟨before', after', hinsert, hafter'⟩ :=
    IndexMap.insert_split (k, first :: rest) hne before after
  obtain ⟨before'', hlimit⟩ := IndexMap.limit_split (k, first :: rest) before' after'
    (show after'.length < maxInvalidatedBlocks by omega)
  refine ⟨before'', first, rest, after', ?_, hfirst, by omega⟩
  rw [hspec.records, hsplit, hinsert, hlimit]

/-- The finalized tip only moves up. -/
theorem Step.top_height_le (hwell : t.WellFormed checks blockOf)
    (hstep : Step checks blockOf t op u) : t.finalized.top.height ≤ u.finalized.top.height := by
  cases hstep with
  | commitBlock hb h | commitNewChain hb hparent h | commit hb h | invalidateBlock h
  | reconsiderBlock h => exact Nat.le_refl _
  | finalize h hdb =>
    obtain ⟨⟨best, popped, hbest, hpop⟩, _⟩ := finalize_eq_ok h
    obtain ⟨htop, _⟩ := ZebraDb.commitFinalizedDirect_eq_ok hdb
    have hattached := hwell.attached best (SortedList.last?_mem hbest)
    obtain ⟨rest, hblocks, _⟩ := hattached.contains.popRoot hpop
    rw [htop]
    exact (hattached.linked.height_lt (by rw [hblocks]; exact mem_cons_self)).le

/-- Step lemma. -/
theorem Step.blocked (hwell : t.WellFormed checks blockOf) (h : Blocked hash k n t.state)
    (hstep : Step checks blockOf t op u) (hop : op.KeepsRecord blockOf k)
    (hk : u.finalized.top.height < k)
    (hn : n + [op].countP Operation.isInvalidation < maxInvalidatedBlocks) :
    Blocked hash k (n + [op].countP Operation.isInvalidation) u.state := by
  cases hstep.spec hwell with
  | commit hknown hcommit hspec hkeep =>
    rcases hcommit with rfl | rfl | ⟨rfl, _⟩ <;> exact h.commit hspec
  | finalize hfinalize hdb => exact h.finalize hfinalize hdb hk
  | invalidateBlock hinvalidate => exact h.invalidateBlock hwell hinvalidate hop hn
  | reconsiderBlock hreconsider => cases hop

/-- Run lemma. -/
theorem Reaches.blocked {later : List Operation} (hwell : u.WellFormed checks blockOf)
    (h : Blocked hash k 0 u.state) (hrun : Reaches checks blockOf u later v)
    (hops : ∀ op ∈ later, op.KeepsRecord blockOf k) (hk : v.finalized.top.height < k)
    (hn : later.countP Operation.isInvalidation < maxInvalidatedBlocks) :
    Blocked hash k (later.countP Operation.isInvalidation) v.state := by
  induction hrun with
  | refl => exact h
  | @step w v later op hrun hstep ih =>
    have hw := hrun.wellFormed hwell
    rw [countP_append] at hn ⊢
    have hblocked := ih (fun op hop => hops op (mem_append_left _ hop))
      ((hstep.top_height_le hw).trans_lt hk) (by omega)
    exact hstep.blocked hw hblocked (hops op (mem_append_right _ mem_cons_self)) hk hn

/-- A block is invalidated in a reached state `t`, where its root is not
shared and there is no record at its height. Then it is gone with its
descendants, all other blocks stay, and no later commits,
finalizations and invalidations at other heights bring it back. -/
theorem invalidated_block_stays_out {start : System H} {ops : List Operation}
    (hstart : start.Initial blockOf) (hrun : Reaches checks blockOf start ops t)
    (hstep : Step checks blockOf t (.invalidateBlock hash) u)
    (hroot : RootNotShared t.state hash) (hk : (blockOf hash).coinbaseHeight = some k)
    (hrecords : ∀ entry ∈ t.state.invalidatedBlocks, entry.1 ≠ k) :
    (∀ c ∈ u.state.chainSet, ∀ b ∈ c.blocks.items, ¬ Descends t.state hash b.hash) ∧
    (∀ c ∈ t.state.chainSet, ∀ b ∈ c.blocks.items, ¬ Descends t.state hash b.hash →
      u.state.HoldsBlock b.hash) ∧
    ∀ later v, Reaches checks blockOf u later v → (∀ op ∈ later, op.KeepsRecord blockOf k) →
      v.finalized.top.height < k →
      later.countP Operation.isInvalidation < maxInvalidatedBlocks → ¬ v.state.HoldsBlock hash := by
  have hwell : t.WellFormed checks blockOf := hrun.wellFormed hstart.wellFormed
  have huwell := hstep.wellFormed hwell
  cases hstep with
  | @invalidateBlock s s' db _ hinvalidate =>
    refine ⟨fun c hc b hb => invalidateBlock_removes hwell hinvalidate hroot hc hb,
      fun c hc b hb => invalidateBlock_keeps hwell hinvalidate hc hb, ?_⟩
    intro later v hlater hops hv hcount
    refine (Reaches.blocked huwell ?_ hlater hops hv hcount).absent
    -- The new record is the last one.
    constructor
    · rintro ⟨c, hc, b, hb, rfl⟩
      exact invalidateBlock_removes hwell hinvalidate hroot hc hb Relation.ReflTransGen.refl
    · obtain ⟨c₀, below, first, rest, hc₀, hspec⟩ := invalidateBlock_spec hwell hinvalidate
      have hknown : first.block = blockOf first.hash :=
        (hwell.attached c₀ hc₀).known first (by rw [hspec.blocks]; simp)
      have hheight : first.height = k := by
        rw [← hspec.first_hash, ← hknown, first.height_eq] at hk
        exact Option.some.inj hk
      have hinsert : s.invalidatedBlocks.insert first.height (first :: rest) =
          s.invalidatedBlocks ++ (k, first :: rest) :: [] := by
        rw [hheight]
        exact IndexMap.insert_of_absent hrecords
      obtain ⟨before, hlimit⟩ := IndexMap.limit_split (k, first :: rest) s.invalidatedBlocks
        [] (show 0 < maxInvalidatedBlocks by decide)
      refine ⟨before, first, rest, [], ?_, hspec.first_hash, Nat.le_refl _⟩
      rw [hspec.records, hinsert, hlimit]

end Blocked

/-! ## Samples -/

/-- An executable form of `HoldsBlock`. -/
def NonFinalizedState.holdsBlock (s : NonFinalizedState H) (hash : Hash) : Bool :=
  s.chainSet.items.any fun c => c.blocks.items.any fun b => b.hash = hash

theorem NonFinalizedState.holdsBlock_iff : s.holdsBlock hash = true ↔ s.HoldsBlock hash := by
  simp [NonFinalizedState.holdsBlock, NonFinalizedState.HoldsBlock, SortedList.mem_items]

/-- A run of the sample with an invalidation, from its last state. -/
theorem sample_invalidates (hash : Hash) (later : List Operation) (p : System Unit → Bool)
    (h : (sampleSystem.applyAll sampleChecks
      (sampleOps ++ .invalidateBlock hash :: later)).any p = true) :
    ∃ t u v, sampleSystem.applyAll sampleChecks sampleOps = some t ∧
      Reaches sampleChecks sampleBlockOf sampleSystem sampleOps t ∧
      Step sampleChecks sampleBlockOf t (.invalidateBlock hash) u ∧
      u.applyAll sampleChecks later = some v ∧ p v = true := by
  obtain ⟨v, hv, hcheck⟩ := (Option.any_eq_true _ _).mp h
  unfold System.applyAll at hv
  rw [foldlM_append] at hv
  obtain ⟨t, ht, hv⟩ := Option.bind_eq_some_iff.mp hv
  obtain ⟨u, hu, hv⟩ := Option.bind_eq_some_iff.mp hv
  exact ⟨t, u, v, ht, System.applyAll_reaches ht sampleOps_known,
    System.apply_step hu (by simp [Operation.block?]), hv, hcheck⟩

/-- One of two blocks at the same height is invalidated; the other one is
extended. -/
theorem invalidated_block_stays_out_sample :
    ∃ t u v, Reaches sampleChecks sampleBlockOf sampleSystem sampleOps t ∧
      Step sampleChecks sampleBlockOf t (.invalidateBlock (.fill 32 12)) u ∧
      Reaches sampleChecks sampleBlockOf u [.commitBlock (sampleBlock 13 11 12 [])] v ∧
      t.state.HoldsBlock (.fill 32 12) ∧ ¬ v.state.HoldsBlock (.fill 32 12) := by
  obtain ⟨t, u, v, ht, hrun, hstep, hv, hcheck⟩ := sample_invalidates (.fill 32 12)
    [.commitBlock (sampleBlock 13 11 12 [])] (fun v => v.finalized.top.height < 12) (by decide)
  -- What the state before the invalidation looks like.
  have hbefore : (sampleSystem.applyAll sampleChecks sampleOps).all
      (fun t => t.state.invalidatedBlocks.isEmpty && t.state.holdsBlock (.fill 32 12) &&
        t.state.chainSet.items.all fun c => decide (c.rootHash ≠ some (.fill 32 12))) =
      true := by decide
  rw [ht] at hbefore
  simp only [Option.all_some, Bool.and_eq_true, List.isEmpty_iff, all_eq_true,
    decide_eq_true_eq] at hbefore
  obtain ⟨⟨hrecords, hholds⟩, hroots⟩ := hbefore
  have hlater : Reaches sampleChecks sampleBlockOf u
      [.commitBlock (sampleBlock 13 11 12 [])] v := by
    refine System.applyAll_reaches hv (forall_mem_singleton.mpr ?_)
    intro b hb
    cases hb
    rfl
  have hout := invalidated_block_stays_out (k := 12) sampleSystem_initial hrun hstep
    (fun c hc _ _ hroot => absurd hroot (hroots c hc)) rfl
    (fun entry hentry => by rw [hrecords] at hentry; cases hentry)
  exact ⟨t, u, v, hrun, hstep, hlater, holdsBlock_iff.mp hholds, hout.2.2 _ v hlater
    (forall_mem_singleton.mpr trivial) (of_decide_eq_true hcheck) (by decide)⟩

/-- A common root stays in the other chain. And a second invalidation at
the same height lets the first block back in. -/
theorem invalidated_block_returns :
    (∃ t u, Reaches sampleChecks sampleBlockOf sampleSystem sampleOps t ∧
      Step sampleChecks sampleBlockOf t (.invalidateBlock (.fill 32 11)) u ∧
      u.state.HoldsBlock (.fill 32 11)) ∧
    ∃ t u v, Reaches sampleChecks sampleBlockOf sampleSystem sampleOps t ∧
      Step sampleChecks sampleBlockOf t (.invalidateBlock (.fill 32 12)) u ∧
      Reaches sampleChecks sampleBlockOf u
        [.invalidateBlock (.fill 32 13), .commitBlock (sampleBlock 12 11 12 [])] v ∧
      v.finalized.top.height < 12 ∧ v.state.HoldsBlock (.fill 32 12) := by
  constructor
  · obtain ⟨t, u, v, _, hrun, hstep, hv, hcheck⟩ := sample_invalidates (.fill 32 11) []
      (fun v => v.state.holdsBlock (.fill 32 11)) (by decide)
    cases hv
    exact ⟨t, u, hrun, hstep, holdsBlock_iff.mp hcheck⟩
  · obtain ⟨t, u, v, _, hrun, hstep, hv, hcheck⟩ := sample_invalidates (.fill 32 12)
      [.invalidateBlock (.fill 32 13), .commitBlock (sampleBlock 12 11 12 [])]
      (fun v => v.finalized.top.height < 12 && v.state.holdsBlock (.fill 32 12)) (by decide)
    rw [Bool.and_eq_true] at hcheck
    refine ⟨t, u, v, hrun, hstep, System.applyAll_reaches hv ?_, of_decide_eq_true hcheck.1,
      holdsBlock_iff.mp hcheck.2⟩
    refine forall_mem_cons.mpr ⟨nofun, forall_mem_singleton.mpr ?_⟩
    intro b hb
    cases hb
    rfl

end Wolf.NonFinalized
