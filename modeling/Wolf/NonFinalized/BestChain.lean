import Wolf.NonFinalized.Forks
import Wolf.NonFinalized.Rebuild

/-! # The best chain and finalization

Chains are ordered by work and then by the hash of their tip, and the
work of a chain is counted from its root. Finalization takes the root
of the best chain off all chains that have it, so they all lose the work
of the same block, and drops all others.

The root can be taken off if the blocks of the chains stay within the
supply; otherwise the check of an address balance could fail on the way.

* `finalize_best_chain`: the invariants of the set of chains, for every
  sequence of commits and finalizations. -/

namespace Wolf.NonFinalized

open Ledger List NonFinalizedState

variable {H : Type} {rest : List ContextuallyVerifiedBlock} {hash : Hash}

/-! ## The trees of the chains -/

/-- The note commitment trees after the block with a given hash. -/
abbrev TreesOf : Type := Hash → Pool → NoteCommitmentTree

/-- No two of the trees collide. -/
def TreesDistinct (rules : Rules H) (treesOf : TreesOf) : Prop :=
  ∀ pool hash hash', rules.treeHash.root pool (treesOf hash pool) =
    rules.treeHash.root pool (treesOf hash' pool) → treesOf hash pool = treesOf hash' pool

/-- The trees after a block are those after its parent, with the
commitments of the block. -/
def Grows (treesOf : TreesOf) (b : SemanticallyVerifiedBlock) : Prop :=
  ∀ pool, treesOf b.hash pool =
    (treesOf b.previousBlockHash pool).grow (b.block.noteCommitments pool)

/-- A chain above the finalized tip, with the trees of its blocks. -/
structure Chain.Grown (rules : Rules H) (treesOf : TreesOf) (db : ZebraDb H) (c : Chain H)
    (origin : TipState H) (fresh : Bool) (es : List (Entry H)) : Prop
    extends c.Represents rules origin fresh es where
  origin_height : origin.height = db.top.height
  origin_trees : origin.trees = treesOf db.top.hash
  entry_trees : ∀ e ∈ es, e.trees = treesOf e.block.hash

section Grown

variable {rules : Rules H} {treesOf : TreesOf} {db db' : ZebraDb H} {c p m : Chain H}
  {origin : TipState H} {fresh : Bool} {es : List (Entry H)} {b : ContextuallyVerifiedBlock}

namespace Chain.Grown

theorem new (htrees : db.trees = treesOf db.top.hash)
    (h : Chain.new rules db.tipState = .ok c) : c.Grown rules treesOf db db.tipState true [] := by
  obtain ⟨c', hnew, hrep⟩ := Chain.Represents.new rules db.tipState
  rw [h] at hnew
  cases hnew
  exact ⟨hrep, rfl, htrees, fun e he => absurd he not_mem_nil⟩

section

variable (h : c.Grown rules treesOf db origin fresh es)

include h

theorem trimmed (htrimmed : Chain.Trimmed rules c p) :
    ∃ kept, p.Grown rules treesOf db origin fresh kept := by
  induction htrimmed with
  | refl => exact ⟨_, h⟩
  | tail _ hpop ih =>
    obtain ⟨kept, hkept⟩ := ih
    obtain ⟨blocks, last, hblocks, hne, hrange, _⟩ := hkept.toContains.popTip hpop
    obtain ⟨kept', es', rfl, rfl, hlast⟩ := map_eq_append_iff.mp hblocks
    obtain ⟨e, rfl, rfl⟩ := map_eq_singleton_iff.mp hlast
    rcases hkept.toRepresents.popTip (by simpa using hne) with ⟨_, p', hpop', hp'⟩ | ⟨hnot, _⟩
    · rw [hpop] at hpop'
      cases hpop'
      exact ⟨kept', hp', hkept.origin_height, hkept.origin_trees,
        fun e he => hkept.entry_trees e (mem_append_left _ he)⟩
    · exact absurd hrange hnot

/-- The trees of the tip are those after the highest block. -/
theorem tip_trees : (tipOf origin es).trees = treesOf (topOf db.top c.blocks.items).hash := by
  rw [h.blocks]
  rcases eq_nil_or_concat' es with rfl | ⟨init, last, rfl⟩
  · exact h.origin_trees
  · rw [tipOf_concat, map_append, map_singleton, topOf_concat]
    exact h.entry_trees last (mem_append_right _ mem_cons_self)

theorem tip_height (hlinked : Linked db.top c.blocks.items) :
    (tipOf origin es).height = (topOf db.top c.blocks.items).height := by
  rw [h.steps.tip_height, hlinked.top_height, h.origin_height, h.blocks, length_map]

end

theorem push (h : p.Grown rules treesOf db origin fresh es) (hlive : fresh = true ∨ es ≠ [])
    (hdistinct : TreesDistinct rules treesOf) (hlinked : Linked db.top p.blocks.items)
    (hchild : ChildOf (topOf db.top p.blocks.items) b.toSemanticallyVerifiedBlock)
    (hgrows : Grows treesOf b.toSemanticallyVerifiedBlock) (hpush : p.push rules b = .ok m) :
    ∃ es', m.Grown rules treesOf db origin fresh es' := by
  have htip := h.tip_trees
  rw [← hchild.parent] at htip
  -- Every tree of the chain is the one after some block.
  have hstates : ∀ t ∈ statesOf origin fresh es, ∃ hash, t.trees = treesOf hash := by
    intro t ht
    rcases mem_statesOf ht with rfl | ⟨e, he, rfl⟩
    · exact ⟨_, h.origin_trees⟩
    · exact ⟨_, h.entry_trees e he⟩
  have hfree : ∀ pool, rules.treeHash.CollisionFree pool
      ((statesOf origin fresh es).map (fun t => t.trees pool) ++
        [((tipOf origin es).trees pool).grow (b.block.noteCommitments pool)]) := by
    intro pool
    have hall : ∀ tree ∈ (statesOf origin fresh es).map (fun t => t.trees pool) ++
        [((tipOf origin es).trees pool).grow (b.block.noteCommitments pool)],
        ∃ hash, tree = treesOf hash pool := by
      intro tree htree
      rcases mem_append.mp htree with htree | htree
      · obtain ⟨t, ht, rfl⟩ := mem_map.mp htree
        obtain ⟨hash, hhash⟩ := hstates t ht
        exact ⟨hash, congrFun hhash pool⟩
      · rw [mem_singleton.mp htree, htip]
        exact ⟨_, (hgrows pool).symm⟩
    intro tree htree tree' htree' hroot
    obtain ⟨hash, rfl⟩ := hall tree htree
    obtain ⟨hash', rfl⟩ := hall tree' htree'
    exact hdistinct pool hash hash' hroot
  obtain ⟨e, hnext, _, hm⟩ := h.toRepresents.push hlive
    (by rw [h.tip_height hlinked]; exact hchild.height) hfree hpush
  obtain rfl := (Entry.next_eq_ok.mp hnext).1
  refine ⟨es ++ [e], hm, h.origin_height, h.origin_trees, ?_⟩
  intro e' he'
  rcases mem_append.mp he' with he' | he'
  · exact h.entry_trees e' he'
  · rw [mem_singleton.mp he']
    funext pool
    rw [hm.steps.concat.trees_eq, htip]
    exact (hgrows pool).symm

/-- Taking the root off only fails at an address balance. -/
theorem popRoot_cases (h : c.Grown rules treesOf db origin fresh es)
    (hblocks : c.blocks.items = b :: rest) :
    (Reverts rules b rest ∧ ∃ p treestate, c.popRoot rules = .ok (p, b, treestate) ∧
      treestate.trees = treesOf b.hash ∧ ∀ db' : ZebraDb H,
        db'.top = b.toSemanticallyVerifiedBlock →
        ∃ origin' es', p.Grown rules treesOf db' origin' false es') ∨
      (¬ Reverts rules b rest ∧ c.popRoot rules = .error .reversedBalanceOverflow) := by
  rw [h.blocks] at hblocks
  cases es with
  | nil => cases hblocks
  | cons e es =>
    obtain ⟨rfl, rfl⟩ := List.cons.inj hblocks
    rcases h.toRepresents.popRoot with ⟨hrange, p, hpop, hp⟩ | hnot
    · have htrees := h.entry_trees e mem_cons_self
      refine .inl ⟨hrange, p, e.treestate, hpop, htrees, ?_⟩
      intro db' htop
      refine ⟨e.tip, es, hp, ?_, ?_, fun e' he' => h.entry_trees e' (mem_cons_of_mem _ he')⟩
      · rw [htop]
        rfl
      · rw [htop]
        exact htrees
    · exact .inr hnot

end Chain.Grown

end Grown

/-- All chains of a system have the trees of their blocks. -/
structure System.Grown (checks : Checks H) (treesOf : TreesOf) (t : System H) : Prop where
  finalized : t.finalized.trees = treesOf t.finalized.top.hash
  chains : ∀ c ∈ t.state.chainSet, ∃ origin fresh es,
    c.Grown checks.toRules treesOf t.finalized origin fresh es

/-- Commits and finalizations. -/
def Operation.IsCommitOrFinalize (op : Operation) : Prop :=
  op.block?.isSome = true ∨ op = .finalize

section Systems

variable {checks : Checks H} {blockOf : Hash → Block} {treesOf : TreesOf}
  {s s' : NonFinalizedState H} {db db' : ZebraDb H} {t u : System H} {op : Operation}
  {b : SemanticallyVerifiedBlock} {c p m : Chain H} {root b' : ContextuallyVerifiedBlock}
  {treestate : Treestate H} {e : Panic}

theorem System.Grown.commit (hdistinct : TreesDistinct checks.toRules treesOf)
    (h : System.Grown checks treesOf ⟨s, db⟩) (hspec : CommitSpec checks blockOf s db b p b' m)
    (hgrows : Grows treesOf b) {keep : Chain H → Bool} :
    System.Grown checks treesOf ⟨s.insertWith m keep, db⟩ where
  finalized := h.finalized
  chains := by
    intro c hc
    rcases (mem_insertWith hc).1 with hc | rfl
    · exact h.chains c hc
    -- The parent chain is a new chain or still has a block.
    obtain ⟨origin, fresh, es, hp, hlive⟩ : ∃ origin fresh es,
        p.Grown checks.toRules treesOf db origin fresh es ∧ (fresh = true ∨ es ≠ []) := by
      rcases hspec.source with hnew | ⟨c₀, hc₀, htrimmed, hne⟩
      · exact ⟨_, _, _, Chain.Grown.new h.finalized hnew, .inl rfl⟩
      · obtain ⟨origin, fresh, es, hc₀⟩ := h.chains c₀ hc₀
        obtain ⟨kept, hp⟩ := hc₀.trimmed htrimmed
        refine ⟨origin, fresh, kept, hp, .inr ?_⟩
        rintro rfl
        exact hne hp.blocks
    obtain ⟨es', hm⟩ := hp.push hlive hdistinct hspec.parent.linked
      (by rw [hspec.accepted.block]; exact hspec.child)
      (by rw [hspec.accepted.block]; exact hgrows) hspec.accepted.push
    exact ⟨origin, fresh, es', hm⟩

theorem System.Grown.finalize (hwell : System.WellFormed checks blockOf ⟨s, db⟩)
    (h : System.Grown checks treesOf ⟨s, db⟩)
    (hfinalize : s.finalize checks = .ok (s', root, treestate))
    (hdb : db.commitFinalizedDirect root treestate = .ok db') :
    System.Grown checks treesOf ⟨s', db'⟩ := by
  obtain ⟨htop, _, htrees, _⟩ := ZebraDb.commitFinalizedDirect_eq_ok hdb
  have hknown := hwell.finalized_concat hfinalize hdb
  obtain ⟨⟨best, popped, hbest, hpop⟩, _, _, hchains⟩ := finalize_eq_ok hfinalize
  refine ⟨?_, ?_⟩
  · obtain ⟨origin, fresh, es, hgrown⟩ := h.chains best (SortedList.last?_mem hbest)
    obtain ⟨rest, hblocks, _⟩ := hgrown.toContains.self.popRoot hpop
    rcases hgrown.popRoot_cases hblocks with ⟨_, p, treestate', hpop', htrees', _⟩ | ⟨_, hpop'⟩
    · rw [hpop] at hpop'
      cases hpop'
      rw [htrees, htop, htrees']
    · rw [hpop] at hpop'
      cases hpop'
  · intro c hc
    obtain ⟨c₀, hc₀, hwithout⟩ := hchains c hc
    obtain ⟨origin, fresh, es, hgrown⟩ := h.chains c₀ hc₀
    have hknown' : Known blockOf db'.top :=
      hknown _ (mem_append_right _ mem_cons_self)
    obtain ⟨_, b, hblocks, hb⟩ :=
      (hwell.attached c₀ hc₀).withoutRoot hknown' (by rw [htop]) hwithout
    obtain ⟨b', treestate', hpop, _⟩ := hwithout
    rcases hgrown.popRoot_cases hblocks with ⟨_, p, _, hpop', _, hp⟩ | ⟨_, hpop'⟩
    · rw [hpop] at hpop'
      cases hpop'
      obtain ⟨origin', es', hp⟩ := hp db' hb.symm
      exact ⟨origin', false, es', hp⟩
    · rw [hpop] at hpop'
      cases hpop'

/-- Run lemma for commits and finalizations. -/
theorem Reaches.grown {ops : List Operation} (hdistinct : TreesDistinct checks.toRules treesOf)
    (hwell : t.WellFormed checks blockOf) (h : t.Grown checks treesOf)
    (hops : ∀ op ∈ ops, op.IsCommitOrFinalize)
    (hgrows : ∀ op ∈ ops, ∀ b ∈ op.block?, Grows treesOf b)
    (hrun : Reaches checks blockOf t ops u) : u.Grown checks treesOf := by
  induction hrun with
  | refl => exact h
  | @step v w ops op hrun hstep ih =>
    have hv := ih (fun op hop => hops op (mem_append_left _ hop))
      (fun op hop => hgrows op (mem_append_left _ hop))
    have hvwell := hrun.wellFormed hwell
    have hlast : op ∈ ops ++ [op] := mem_append_right _ mem_cons_self
    cases hstep.spec hvwell with
    | @commit s db op b p m b' keep hknown hop hspec hkeep =>
      refine hv.commit hdistinct hspec (hgrows op hlast b ?_)
      rcases hop with rfl | rfl | ⟨rfl, _⟩ <;> rfl
    | finalize hfinalize hdb => exact hv.finalize hvwell hfinalize hdb
    | invalidateBlock hinvalidate | reconsiderBlock hreconsider =>
      rcases hops _ hlast with hop | hop <;> cases hop

/-! ## What finalization keeps -/

/-- The chain without its root, if it has the given root and another
block. -/
def withoutRoot? (rules : Rules H) (hash : Hash) (c : Chain H) : Option (Chain H) :=
  if c.rootHash = some hash then
    match c.popRoot rules with
    | .ok (p, _, _) => if p.blocks.items = [] then none else some p
    | .error _ => none
  else none

/-- The blocks without the root, if it is the given one and there are
others. -/
def blocksWithoutRoot? (hash : Hash) (c : Chain H) : Option (List ContextuallyVerifiedBlock) :=
  match c.blocks.items with
  | [] => none
  | b :: rest => if b.hash = hash ∧ rest ≠ [] then some rest else none

/-- The blocks of every chain stay within the supply. -/
def ChainsWithinSupply (rules : Rules H) (s : NonFinalizedState H) : Prop :=
  ∀ c ∈ s.chainSet, WithinSupply rules c.blocks.items

section

variable {b : ContextuallyVerifiedBlock} (hattached : c.Attached checks.toRules blockOf db)
  (hp : p.Contains checks.toRules p.blocks.items) (hblocks : c.blocks.items = b :: p.blocks.items)
  (hne : p.blocks.items ≠ [])

include hattached hp hblocks hne

/-- A chain and the chain without its root have the same tip. -/
theorem tipHash_of_cons : c.tipHash = p.tipHash := by
  rw [hattached.contains.tipHash, hp.tipHash, hblocks]
  obtain ⟨b', rest, hrest⟩ := exists_cons_of_ne_nil hne
  rw [hrest, List.getLast?_cons_cons]

/-- The order of a chain from that of the chain without its root. -/
theorem order_of_cons : c.order = toLex (b.block.work + (ofLex p.order).1, (ofLex p.order).2) := by
  have hwork : c.partialCumulativeWork = b.block.work + p.partialCumulativeWork := by
    rw [hattached.contains.work, hp.work, hblocks]
    simp [workOf]
  unfold Chain.order
  rw [hwork, tipHash_of_cons hattached hp hblocks hne]
  rfl

end

/-- A chain below all others goes to the front. -/
theorem insert_items_front (hlt : ∀ x ∈ s.chainSet, p.order < x.order)
    (hcount : s.chainSet.items.length < maxNonFinalizedChainForks) :
    (s.insert p).chainSet.items = p :: s.chainSet.items := by
  have habsent : s.chainSet.find? p.order = none :=
    SortedList.find?_eq_none.mpr fun x hx => (hlt x hx).ne'
  have hinsert : (s.chainSet.insertAbsent p).items = p :: s.chainSet.items := by
    unfold SortedList.insertAbsent
    rw [habsent]
    exact SortedList.insert_items_of_gt hlt
  have hfilter : ((s.chainSet.insertAbsent p).filter fun _ => true).items =
      p :: s.chainSet.items := by
    rw [← hinsert]
    exact filter_true _
  change (NonFinalizedState.limitForks ((s.chainSet.insertAbsent p).filter fun _ => true)).items = _
  rw [limitForks_of_le, hfilter]
  rw [hfilter, length_cons]
  exact hcount

section

variable (hwell : System.WellFormed checks blockOf ⟨s, db⟩)
  (hgrown : System.Grown checks treesOf ⟨s, db⟩) (hsupply : ChainsWithinSupply checks.toRules s)

include hwell hgrown hsupply

/-- What `withoutRoot?` gives for a chain of the set. -/
theorem withoutRoot?_spec (hc : c ∈ s.chainSet) :
    (c.rootHash ≠ some hash ∧ withoutRoot? checks.toRules hash c = none ∧
      blocksWithoutRoot? hash c = none) ∨
    ∃ (b : ContextuallyVerifiedBlock) (p : Chain H) (treestate : Treestate H),
      c.rootHash = some hash ∧ b.hash = hash ∧
      c.popRoot checks.toRules = .ok (p, b, treestate) ∧
      c.blocks.items = b :: p.blocks.items ∧ p.Contains checks.toRules p.blocks.items ∧
      withoutRoot? checks.toRules hash c = (if p.blocks.items = [] then none else some p) ∧
      blocksWithoutRoot? hash c =
        (if p.blocks.items = [] then none else some p.blocks.items) := by
  have hattached : c.Attached checks.toRules blockOf db := hwell.attached c hc
  obtain ⟨b, rest, hblocks⟩ := exists_cons_of_ne_nil (hwell.nonempty c hc)
  have hroot : c.rootHash = some b.hash := by
    rw [hattached.contains.rootHash, hblocks]
    rfl
  unfold withoutRoot? blocksWithoutRoot?
  rw [hblocks, hroot]
  by_cases hhash : b.hash = hash
  · right
    obtain ⟨origin, fresh, es, hgrown⟩ := hgrown.chains c hc
    rcases hgrown.popRoot_cases hblocks with ⟨_, p, treestate, hpop, _⟩ | ⟨hnot, _⟩
    · obtain ⟨rest', hrest', _, hp⟩ := hattached.contains.popRoot hpop
      rw [hblocks] at hrest'
      obtain ⟨_, rfl⟩ := List.cons.inj hrest'
      refine ⟨b, p, treestate, congrArg some hhash, hhash, hpop, by rw [hp.blocks], hp.self, ?_, ?_⟩
      · rw [if_pos (congrArg some hhash), hpop]
      · rw [hp.blocks]
        by_cases hrest : rest = [] <;> simp [hhash, hrest]
    · exact absurd ((hsupply c hc).reverts_root (by rw [hblocks])) hnot
  · simp [hhash]

/-- Taking the same root off keeps the order. -/
theorem order_lt_of_withoutRoot {c' p' : Chain H} (hc : c ∈ s.chainSet) (hc' : c' ∈ s.chainSet)
    (hp : withoutRoot? checks.toRules hash c = some p)
    (hp' : withoutRoot? checks.toRules hash c' = some p') (hlt : c.order < c'.order) :
    p.order < p'.order := by
  rcases withoutRoot?_spec hwell hgrown hsupply hc with
    ⟨_, hnone, _⟩ | ⟨b, q, _, _, hb, _, hblocks, hq, hsome, _⟩
  · rw [hp] at hnone
    cases hnone
  rcases withoutRoot?_spec hwell hgrown hsupply hc' with
    ⟨_, hnone, _⟩ | ⟨b', q', _, _, hb', _, hblocks', hq', hsome', _⟩
  · rw [hp'] at hnone
    cases hnone
  rw [hp] at hsome
  rw [hp'] at hsome'
  split at hsome
  · cases hsome
  rename_i hne
  split at hsome'
  · cases hsome'
  rename_i hne'
  cases hsome
  cases hsome'
  -- Both roots are the same block, with the same work.
  have hsame : b.toSemanticallyVerifiedBlock = b'.toSemanticallyVerifiedBlock := by
    refine Known.eq ((hwell.attached c hc).known b ?_) ((hwell.attached c' hc').known b' ?_)
      (hb.trans hb'.symm)
    · rw [hblocks]
      exact mem_cons_self
    · rw [hblocks']
      exact mem_cons_self
  have hwork : b.block.work = b'.block.work :=
    congrArg (fun b : SemanticallyVerifiedBlock => b.block.work) hsame
  rw [order_of_cons (hwell.attached c hc) hq hblocks hne,
    order_of_cons (hwell.attached c' hc') hq' hblocks' hne', hwork, Prod.Lex.toLex_lt_toLex] at hlt
  rw [Prod.Lex.lt_iff]
  rcases hlt with hlt | ⟨heq, hlt⟩
  · exact .inl (Nat.lt_of_add_lt_add_left hlt)
  · exact .inr ⟨Nat.add_left_cancel heq, hlt⟩

/-- One round of the loop over the side chains. -/
theorem finalizeSideChain_withoutRoot (cur : NonFinalizedState H) (hc : c ∈ s.chainSet) :
    NonFinalizedState.finalizeSideChain checks hash cur c =
      .ok (((withoutRoot? checks.toRules hash c).map cur.insert).getD cur) := by
  unfold NonFinalizedState.finalizeSideChain
  rcases withoutRoot?_spec hwell hgrown hsupply hc with
    ⟨hroot, hnone, _⟩ | ⟨b, p, treestate, hroot, hb, hpop, _, _, hsome, _⟩
  · obtain ⟨b, rest, hblocks⟩ := exists_cons_of_ne_nil (hwell.nonempty c hc)
    have hfirst : c.rootHash = some b.hash := by
      rw [(hwell.attached c hc).contains.rootHash, hblocks]
      rfl
    rw [hfirst] at hroot
    rw [hfirst, okOr_bind, if_pos fun heq => hroot (congrArg some heq), hnone]
    rfl
  · rw [hroot, okOr_bind, if_neg (not_not.mpr rfl), hpop, ok_bind]
    dsimp only
    rw [rejectIf_bind (not_not.mpr hb), hsome]
    unfold NonFinalizedState.reinsert
    split <;> rfl

/-- Run lemma: the side chains are reinserted from the best one down, each
before those that are there. -/
theorem finalizeSideChains_filterMap {cur : NonFinalizedState H} {todo done : List (Chain H)}
    (hitems : s.chainSet.items = todo ++ done)
    (hcur : cur.chainSet.items = done.filterMap (withoutRoot? checks.toRules hash)) :
    ∃ last, todo.reverse.foldlM (NonFinalizedState.finalizeSideChain checks hash) cur = .ok last ∧
      last.chainSet.items = (todo ++ done).filterMap (withoutRoot? checks.toRules hash) := by
  induction todo using List.reverseRecOn generalizing done cur with
  | nil => exact ⟨cur, rfl, hcur⟩
  | append_singleton init c ih =>
    rw [append_assoc, singleton_append] at hitems
    have hmem : ∀ x ∈ c :: done, x ∈ s.chainSet := by
      intro x hx
      rw [← SortedList.mem_items, hitems]
      exact mem_append_right _ hx
    have hsorted := s.chainSet.sorted
    rw [hitems, pairwise_append, pairwise_cons] at hsorted
    rw [reverse_append, reverse_singleton, singleton_append, foldlM_cons,
      finalizeSideChain_withoutRoot hwell hgrown hsupply cur (hmem c mem_cons_self), append_assoc]
    apply ih hitems
    cases hp : withoutRoot? checks.toRules hash c with
    | none =>
      rw [filterMap_cons_none hp]
      exact hcur
    | some p =>
      rw [filterMap_cons_some hp, ← hcur]
      apply insert_items_front
      · intro x hx
        rw [← SortedList.mem_items, hcur, mem_filterMap] at hx
        obtain ⟨c', hc', hx⟩ := hx
        exact order_lt_of_withoutRoot hwell hgrown hsupply (hmem c mem_cons_self)
          (hmem c' (mem_cons_of_mem _ hc')) hp hx (hsorted.2.1.1 c' hc')
      · have hcount := hwell.count
        rw [hitems, length_append, length_cons] at hcount
        have hle := length_filterMap_le (withoutRoot? checks.toRules hash) done
        rw [hcur]
        omega

end

/-- Finalization takes the root of the best chain off all chains that have
it, in their order, and drops all others. -/
theorem finalize_filterMap {best : Chain H} (hwell : System.WellFormed checks blockOf ⟨s, db⟩)
    (hgrown : System.Grown checks treesOf ⟨s, db⟩) (hbest : s.bestChain = some best)
    (hblocks : best.blocks.items = root :: rest) (hsupply : ChainsWithinSupply checks.toRules s) :
    ∃ s' treestate, s.finalize checks = .ok (s', root, treestate) ∧
      s'.chainSet.items = s.chainSet.items.filterMap (withoutRoot? checks.toRules root.hash) := by
  have hmem := SortedList.last?_mem hbest
  obtain ⟨side, hitems⟩ := List.getLast?_eq_some_iff.mp hbest
  rcases withoutRoot?_spec hwell hgrown hsupply hmem with
    ⟨hroot, _⟩ | ⟨b, p, treestate, _, _, hpop, hblocks', _, hsome, _⟩
  · rw [(hwell.attached best hmem).contains.rootHash, hblocks] at hroot
    exact absurd rfl hroot
  rw [hblocks] at hblocks'
  obtain ⟨rfl, rfl⟩ := List.cons.inj hblocks'
  let taken : NonFinalizedState H := { s with chainSet := ∅ }
  have hfirst : (taken.reinsert p).chainSet.items =
      [best].filterMap (withoutRoot? checks.toRules root.hash) := by
    unfold NonFinalizedState.reinsert
    by_cases hne : p.blocks.items = []
    · rw [if_pos hne] at hsome ⊢
      rw [filterMap_cons_none hsome]
      rfl
    · rw [if_neg hne] at hsome ⊢
      rw [filterMap_cons_some hsome]
      exact insert_items_front (fun x hx => absurd hx not_mem_nil) (Nat.zero_lt_succ _)
  obtain ⟨last, hloop, hlast⟩ := finalizeSideChains_filterMap hwell hgrown hsupply hitems hfirst
  rw [← hitems] at hlast
  refine ⟨{ last with
    invalidatedBlocks := last.invalidatedBlocks.filter fun entry => root.height ≤ entry.1 },
    treestate, ?_, hlast⟩
  unfold NonFinalizedState.finalize
  rw [hbest, okOr_bind, hpop, ok_bind]
  dsimp only
  rw [hitems, dropLast_concat, hloop]
  rfl

/-! ## The set of chains -/

/-- The invariants of the set of chains. -/
structure ChainSetSound (s : NonFinalizedState H) : Prop where
  nonempty : ∀ c ∈ s.chainSet, c.blocks.items ≠ []
  tips : ∀ c ∈ s.chainSet, ∀ c' ∈ s.chainSet, c.tipHash = c'.tipHash → c = c'
  count : s.chainSet.items.length ≤ maxNonFinalizedChainForks
  work : ∀ c ∈ s.chainSet, c.partialCumulativeWork = workOf c.blocks.items
  exists_best : s.chainSet.items ≠ [] → ∃ best, s.bestChain = some best
  best : ∀ best, s.bestChain = some best → ∀ c ∈ s.chainSet, c ≠ best → c.order < best.order

/-- The chains with a new chain `m` in place of its parent chain, in their
order. -/
def chainsWith (s : NonFinalizedState H) (m : Chain H) (b : SemanticallyVerifiedBlock) :
    List (Chain H) :=
  ((s.chainSet.insertAbsent m).filter fun c => c.tipHash ≠ some b.previousBlockHash).items

/-- A commit of `b` adds a chain that ends in `b`. Only if there are too
many chains then, the least one is dropped. -/
def CommitDropsLeast (s : NonFinalizedState H) (b : SemanticallyVerifiedBlock)
    (s' : NonFinalizedState H) : Prop :=
  ∃ m : Chain H, m.tipHash = some b.hash ∧
    ((chainsWith s m b).length ≤ maxNonFinalizedChainForks ∧
        s'.chainSet.items = chainsWith s m b ∨
      maxNonFinalizedChainForks < (chainsWith s m b).length ∧
        ∃ least, chainsWith s m b = least :: s'.chainSet.items)

theorem System.WellFormed.chainSetSound (h : System.WellFormed checks blockOf ⟨s, db⟩) :
    ChainSetSound s where
  nonempty := h.nonempty
  tips := by
    intro c hc c' hc' htip
    obtain ⟨hash, hhash⟩ := (h.attached c hc).exists_tipHash (h.nonempty c hc)
    exact SortedList.eq_of_key hc hc'
      ((h.attached c hc).order_eq (h.attached c' hc') h.top hhash (htip ▸ hhash))
  count := h.count
  work := fun c hc => (h.attached c hc).contains.work
  exists_best := by
    intro hne
    cases hbest : s.bestChain with
    | none => exact absurd (SortedList.last?_eq_none.mp hbest) hne
    | some best => exact ⟨best, rfl⟩
  best := by
    intro best hbest c hc hne
    obtain ⟨side, hitems⟩ := List.getLast?_eq_some_iff.mp hbest
    have hsorted := s.chainSet.sorted
    rw [hitems, pairwise_append] at hsorted
    rw [← SortedList.mem_items, hitems] at hc
    rcases mem_append.mp hc with hc | hc
    · exact hsorted.2.2 c hc best mem_cons_self
    · exact absurd (mem_singleton.mp hc) hne

theorem commitDropsLeast_insertWith (hwell : System.WellFormed checks blockOf ⟨s, db⟩)
    (htip : m.tipHash = some b.hash) :
    CommitDropsLeast s b (s.insertWith m fun c => c.tipHash ≠ some b.previousBlockHash) := by
  have hcount := calc
    ((s.chainSet.insertAbsent m).filter fun c => c.tipHash ≠ some b.previousBlockHash).items.length
      ≤ (s.chainSet.insertAbsent m).items.length := length_filter_le _ _
    _ ≤ s.chainSet.items.length + 1 := SortedList.insertAbsent_length_le
    _ ≤ maxNonFinalizedChainForks + 1 := Nat.succ_le_succ hwell.count
  refine ⟨m, htip, ?_⟩
  unfold NonFinalizedState.insertWith chainsWith
  -- One chain more is inserted and at most one is dropped.
  generalize (s.chainSet.insertAbsent m).filter _ = set at hcount
  by_cases hle : set.items.length ≤ maxNonFinalizedChainForks
  · exact .inl ⟨hle, by rw [limitForks_of_le hle]⟩
  · right
    refine ⟨Nat.lt_of_not_le hle, ?_⟩
    rw [limitForks_items]
    have hone : set.items.length - maxNonFinalizedChainForks = 1 := by omega
    rw [hone]
    cases hitems : set.items with
    | nil =>
      rw [hitems] at hle
      exact absurd (Nat.zero_le _) hle
    | cons least rest => exact ⟨least, rfl⟩

/-- The finalized tip is not the tip of a chain. -/
theorem Chain.Attached.tipHash_ne_top (h : c.Attached checks.toRules blockOf db)
    (htop : Known blockOf db.top) : c.tipHash ≠ some db.top.hash := by
  intro htip
  obtain ⟨hhash, q, hq, hqtop⟩ := Chain.topOf_of_tipHash db htip
  exact h.hash_ne_top htop hq (by rw [hqtop]; exact hhash)

/-- The new chain of a commit ends in the block. -/
theorem CommitSpec.tipHash (hspec : CommitSpec checks blockOf s db b p b' m) :
    m.tipHash = some b.hash := by
  rw [hspec.attached.contains.tipHash, hspec.blocks, List.getLast?_concat, Option.map_some,
    hspec.accepted.block]

theorem commit_dropsLeast (hwell : System.WellFormed checks blockOf ⟨s, db⟩)
    (hb : Committable blockOf ⟨s, db⟩ b)
    (h : (b.previousBlockHash = db.top.hash ∧ s.commitNewChain checks db b = .ok s') ∨
      s.commitBlock checks db b = .ok s') : CommitDropsLeast s b s' := by
  rcases h with ⟨hparent, h⟩ | h
  swap
  · obtain ⟨p, b', m, hspec, _, rfl⟩ := commitBlock_spec hwell hb h
    exact commitDropsLeast_insertWith hwell hspec.tipHash
  obtain ⟨p, b', m, hspec, _, rfl⟩ := commitNewChain_spec hwell hb hparent h
  -- No chain ends in the parent, which is finalized.
  have hkeep : ((s.chainSet.insertAbsent m).filter fun _ => true) =
      (s.chainSet.insertAbsent m).filter fun c => c.tipHash ≠ some b.previousBlockHash := by
    apply SortedList.ext_mem
    intro x
    rw [SortedList.mem_filter, SortedList.mem_filter, decide_eq_true_iff, hparent]
    refine and_congr_right fun hx => ⟨fun _ => ?_, fun _ => rfl⟩
    rcases SortedList.mem_insertAbsent.mp hx with hx | ⟨rfl, _⟩
    · exact (hwell.attached x hx).tipHash_ne_top hwell.top
    · exact hspec.attached.tipHash_ne_top hwell.top
  have hinsert : s.insert m = s.insertWith m fun c => c.tipHash ≠ some b.previousBlockHash := by
    unfold NonFinalizedState.insert NonFinalizedState.insertWith
    rw [hkeep]
  rw [hinsert]
  exact commitDropsLeast_insertWith hwell hspec.tipHash

theorem Step.dropsLeast (hwell : t.WellFormed checks blockOf) (hstep : Step checks blockOf t op u)
    (hop : op.block? = some b) : CommitDropsLeast t.state b u.state := by
  cases hstep with
  | commitBlock hb h =>
    cases hop
    exact commit_dropsLeast hwell hb (.inr h)
  | commitNewChain hb hparent h =>
    cases hop
    exact commit_dropsLeast hwell hb (.inl ⟨hparent, h⟩)
  | commit hb h =>
    cases hop
    obtain ⟨hvalid, h⟩ := validateAndCommitNonFinalized_eq_ok h
    exact commit_dropsLeast hwell (committable_of_valid hb hvalid) h
  | _ => cases hop

/-- The invariants of the set of chains after any commits and
finalizations, and what the next commit and the next finalization do. -/
theorem finalize_best_chain {start : System H} {ops : List Operation}
    (hdistinct : TreesDistinct checks.toRules treesOf) (hstart : start.Initial blockOf)
    (htrees : start.finalized.trees = treesOf start.finalized.top.hash)
    (hops : ∀ op ∈ ops, op.IsCommitOrFinalize)
    (hgrows : ∀ op ∈ ops, ∀ b ∈ op.block?, Grows treesOf b)
    (hrun : Reaches checks blockOf start ops t) :
    ChainSetSound t.state ∧
    (∀ op b u, Step checks blockOf t op u → op.block? = some b →
      CommitDropsLeast t.state b u.state) ∧
    ∀ best root rest, t.state.bestChain = some best → best.blocks.items = root :: rest →
      ChainsWithinSupply checks.toRules t.state →
      ∃ s' treestate, t.state.finalize checks = .ok (s', root, treestate) ∧
        s'.chainSet.items.map (fun c => c.blocks.items) =
          t.state.chainSet.items.filterMap (blocksWithoutRoot? root.hash) ∧
        (rest ≠ [] → ∃ best', s'.bestChain = some best' ∧ best'.tipHash = best.tipHash) := by
  have hwell : t.WellFormed checks blockOf := hrun.wellFormed hstart.wellFormed
  have hgrown : t.Grown checks treesOf := by
    refine hrun.grown hdistinct hstart.wellFormed ⟨htrees, ?_⟩ hops hgrows
    intro c hc
    rw [← SortedList.mem_items, hstart.chains] at hc
    cases hc
  refine ⟨hwell.chainSetSound, fun op b u hstep hop => hstep.dropsLeast hwell hop, ?_⟩
  intro best root rest hbest hblocks hsupply
  obtain ⟨s', treestate, hfinalize, hitems⟩ :=
    finalize_filterMap hwell hgrown hbest hblocks hsupply
  refine ⟨s', treestate, hfinalize, ?_, ?_⟩
  · rw [hitems, map_filterMap]
    apply filterMap_congr
    intro c hc
    rcases withoutRoot?_spec hwell hgrown hsupply hc with
      ⟨_, hnone, hblocks⟩ | ⟨b, p, _, _, _, _, _, _, hsome, hblocks⟩
    · rw [hnone, hblocks]
      rfl
    · rw [hsome, hblocks]
      split <;> rfl
  · intro hrest
    have hmem := SortedList.last?_mem hbest
    rcases withoutRoot?_spec hwell hgrown hsupply hmem with
      ⟨hroot, _⟩ | ⟨b, p, _, _, _, _, hblocks', hp, hsome, _⟩
    · rw [(hwell.attached best hmem).contains.rootHash, hblocks] at hroot
      exact absurd rfl hroot
    rw [hblocks] at hblocks'
    obtain ⟨rfl, rfl⟩ := List.cons.inj hblocks'
    rw [if_neg hrest] at hsome
    obtain ⟨side, hside⟩ := List.getLast?_eq_some_iff.mp hbest
    refine ⟨p, ?_, ?_⟩
    · change s'.chainSet.items.getLast? = some p
      rw [hitems, hside, filterMap_append, filterMap_cons_some hsome]
      exact List.getLast?_concat
    · exact (tipHash_of_cons (hwell.attached best hmem) hp hblocks hrest).symm

end Systems

/-! ## Sample systems -/

/-- Checks that accept every block as far as they are parameters. -/
def sampleChecks : Checks Unit where
  toRules := sampleRules
  allowUnshieldedCoinbaseSpends := false
  deferredPoolBalanceChange := fun _ => ⟨0, by decide, by decide⟩
  difficultyAndTimeValid := fun _ _ _ => true
  anchorsKnown := fun _ _ _ => true
  sproutAnchorsKnown := fun _ _ _ => true
  commitmentValid := fun _ _ => true

/-- A block with identifiers for itself and its parent. -/
def sampleBlock (id parent : UInt8) (height : Nat) (transactions : List Transaction) :
    SemanticallyVerifiedBlock where
  block := ⟨.fill 32 id, .fill 32 parent, 1,
    sampleTransaction id [.coinbase height] [] :: transactions⟩
  height
  height_eq := rfl

/-- A finalized output of the first address, at the tip 10. -/
def sampleDb : ZebraDb Unit where
  lower := [sampleBlock 9 8 9 [sampleTransaction 200 [] [⟨smallValue, [1]⟩]]]
  top := sampleBlock 10 9 10 []
  trees := fun _ => ⟨[]⟩
  history := ()
  valuePools := .fromTransparentAmount smallValue

def sampleSystem : System Unit :=
  ⟨⟨∅, []⟩, sampleDb⟩

/-- The first address sends the finalized output to itself and then to a
second address. -/
def transferBlock : SemanticallyVerifiedBlock :=
  sampleBlock 11 10 11 [sampleTransaction 100 [.prevOut ⟨.fill 32 200, 0⟩] [⟨smallValue, [1]⟩],
    sampleTransaction 101 [.prevOut ⟨.fill 32 100, 0⟩] [⟨smallValue, [2]⟩]]

/-- The block with a hash, among some blocks. -/
def blockAmong (bs : List SemanticallyVerifiedBlock) (hash : Hash) : Block :=
  ((bs.find? fun b => b.hash = hash).map fun b => b.block).getD ⟨hash, hash, 0, []⟩

/-- Two chains above a common root. -/
def sampleOps : List Operation :=
  [.commitNewChain transferBlock, .commitBlock (sampleBlock 12 11 12 []),
    .commitBlock (sampleBlock 13 11 12 [])]

def sampleBlockOf : Hash → Block :=
  blockAmong (sampleDb.blocks ++ [transferBlock, sampleBlock 12 11 12 [], sampleBlock 13 11 12 []])

theorem sampleOps_known : ∀ op ∈ sampleOps, ∀ b ∈ op.block?, Known sampleBlockOf b := by
  intro op hop b hb
  simp only [sampleOps, mem_cons, not_mem_nil, or_false] at hop
  rcases hop with rfl | rfl | rfl <;> cases hb <;> rfl

theorem sampleSystem_initial : sampleSystem.Initial sampleBlockOf where
  chains := rfl
  records := rfl
  known := by
    intro b hb
    simp only [sampleSystem, ZebraDb.blocks, sampleDb, mem_append, mem_cons,
      not_mem_nil, or_false] at hb
    rcases hb with rfl | rfl <;> rfl

theorem sampleOps_commits : ∀ op ∈ sampleOps, op.IsCommitOrFinalize := by
  intro op hop
  simp only [sampleOps, mem_cons, not_mem_nil, or_false] at hop
  rcases hop with rfl | rfl | rfl <;> exact .inl rfl

/-- Blocks without commitments leave empty trees empty. -/
theorem sampleOps_grows : ∀ op ∈ sampleOps, ∀ b ∈ op.block?, Grows (fun _ _ => ⟨[]⟩) b := by
  intro op hop b hb pool
  simp only [sampleOps, mem_cons, not_mem_nil, or_false] at hop
  rcases hop with rfl | rfl | rfl <;> cases hb <;> cases pool <;> rfl

/-- Two chains with a common root are both kept. -/
theorem finalize_best_chain_sample :
    ∃ t best s' root treestate best', Reaches sampleChecks sampleBlockOf
        sampleSystem sampleOps t ∧
      ChainSetSound t.state ∧ t.state.bestChain = some best ∧
      t.state.finalize sampleChecks = .ok (s', root, treestate) ∧
      s'.chainSet.items.length = 2 ∧ s'.bestChain = some best' ∧
      best'.tipHash = best.tipHash := by
  obtain ⟨t, ht, hcheck⟩ := (Option.any_eq_true _ _).mp
    (show (sampleSystem.applyAll sampleChecks sampleOps).any (fun t =>
      (t.state.chainSet.items.all fun c => decide (2 * ((c.blocks.items.flatMap fun b =>
        b.moves sampleRules.address).map Edit.traffic).sum ≤ 40000)) &&
      (t.state.chainSet.items.filterMap (blocksWithoutRoot? (.fill 32 11))).length == 2 &&
      t.state.bestChain.any fun best =>
        (best.blocks.items.head?.any fun root => decide (root.hash = .fill 32 11)) &&
          decide (1 < best.blocks.items.length)) = true by decide)
  simp only [Bool.and_eq_true, beq_iff_eq] at hcheck
  obtain ⟨⟨htraffic, hlength⟩, hbest⟩ := hcheck
  obtain ⟨best, hbest, hblocks⟩ := (Option.any_eq_true _ _).mp hbest
  have hrun := System.applyAll_reaches ht sampleOps_known
  obtain ⟨hsound, _, hfinalize⟩ := finalize_best_chain
    (show TreesDistinct sampleRules fun _ _ => ⟨[]⟩ from fun _ _ _ _ => rfl)
    sampleSystem_initial rfl sampleOps_commits
    sampleOps_grows hrun
  rw [Bool.and_eq_true, Option.any_eq_true, decide_eq_true_eq] at hblocks
  obtain ⟨⟨root, hhead, hroot⟩, hlong⟩ := hblocks
  obtain ⟨rest, hitems⟩ := head?_eq_some_iff.mp hhead
  obtain ⟨s', treestate, hs', hchains, htip⟩ := hfinalize best root rest hbest hitems (by
    intro c hc
    have hle := of_decide_eq_true (all_eq_true.mp htraffic c hc)
    exact withinSupply_of_traffic ((Int.ofNat_le.mpr hle).trans (by decide)))
  obtain ⟨best', hbest', htip⟩ := htip (by
    rintro rfl
    rw [hitems] at hlong
    exact Nat.lt_irrefl 1 hlong)
  refine ⟨t, best, s', root, treestate, best', hrun, hsound, hbest, hs', ?_, hbest', htip⟩
  have hlen := congrArg List.length hchains
  rw [length_map, of_decide_eq_true hroot, hlength] at hlen
  exact hlen

end Wolf.NonFinalized
