import Wolf.NonFinalized.Operations

/-! # Chains above the finalized tip

The state as a system: the set of chains beside the database, and the
operations as labelled steps. A committed block comes with the context
that `initial_contextual_validity` has checked: its height is one above
that of its parent.

A block hash stands for one block (`Known`). This is the only
assumption about hashes here.

* `WellFormed`: all chains are linked to the finalized tip. -/

namespace Wolf.NonFinalized

open Ledger List NonFinalizedState

variable {H : Type} {hash : Hash} {height : Nat} {blockOf : Hash → Block}

/-! ## Linked blocks -/

/-- `b` is the next block above `a`. -/
structure ChildOf (a b : SemanticallyVerifiedBlock) : Prop where
  parent : b.previousBlockHash = a.hash
  height : b.height = a.height + 1

/-- Every block is the next one above the block before. -/
def Linked : SemanticallyVerifiedBlock → List ContextuallyVerifiedBlock → Prop
  | _, [] => True
  | below, b :: bs =>
    ChildOf below b.toSemanticallyVerifiedBlock ∧ Linked b.toSemanticallyVerifiedBlock bs

/-- The highest of some blocks above another one. -/
def topOf (below : SemanticallyVerifiedBlock) (bs : List ContextuallyVerifiedBlock) :
    SemanticallyVerifiedBlock :=
  bs.foldl (fun _ b => b.toSemanticallyVerifiedBlock) below

/-- The hash of a block stands for the block. -/
def Known (blockOf : Hash → Block) (b : SemanticallyVerifiedBlock) : Prop :=
  b.block = blockOf b.hash

theorem Known.eq {a b : SemanticallyVerifiedBlock} (ha : Known blockOf a) (hb : Known blockOf b)
    (hhash : a.hash = b.hash) : a = b := by
  have hblock : a.block = b.block := by rw [ha, hb, hhash]
  have hheight : some a.height = some b.height := by rw [← a.height_eq, ← b.height_eq, hblock]
  cases b
  cases hblock
  cases hheight
  rfl

section Linked

variable {below : SemanticallyVerifiedBlock} {bs bs' : List ContextuallyVerifiedBlock}
  {b : ContextuallyVerifiedBlock}

@[simp] theorem topOf_nil : topOf below [] = below := rfl

@[simp] theorem topOf_cons : topOf below (b :: bs) = topOf b.toSemanticallyVerifiedBlock bs := rfl

@[simp] theorem topOf_concat : topOf below (bs ++ [b]) = b.toSemanticallyVerifiedBlock := by
  rw [topOf, foldl_append]
  rfl

theorem linked_append :
    Linked below (bs ++ bs') ↔ Linked below bs ∧ Linked (topOf below bs) bs' := by
  induction bs generalizing below with
  | nil => simp [Linked]
  | cons b bs ih => simp only [cons_append, Linked, ih, topOf_cons, and_assoc]

namespace Linked

theorem top_height (h : Linked below bs) : (topOf below bs).height = below.height + bs.length := by
  induction bs generalizing below with
  | nil => rfl
  | cons b bs ih =>
    rw [topOf_cons, ih h.2, h.1.height, length_cons]
    omega

theorem height_lt (h : Linked below bs) (hb : b ∈ bs) : below.height < b.height := by
  induction bs generalizing below with
  | nil => cases hb
  | cons b₀ bs ih =>
    have hheight := h.1.height
    rcases mem_cons.mp hb with rfl | hb
    · omega
    · have := ih h.2 hb
      omega

theorem height_le_top (h : Linked below bs) (hb : b ∈ bs) : b.height ≤ (topOf below bs).height := by
  obtain ⟨init, rest, rfl⟩ := append_of_mem hb
  rw [linked_append] at h
  have hrest := h.2.2.top_height
  have htop : topOf below (init ++ b :: rest) = topOf b.toSemanticallyVerifiedBlock rest := by
    rw [topOf, foldl_append]
    rfl
  rw [htop]
  omega

theorem known_top (hbelow : Known blockOf below)
    (hknown : ∀ b ∈ bs, Known blockOf b.toSemanticallyVerifiedBlock) :
    Known blockOf (topOf below bs) := by
  rcases eq_nil_or_concat' bs with rfl | ⟨init, last, rfl⟩
  · exact hbelow
  · rw [topOf_concat]
    exact hknown last (mem_append_right _ mem_cons_self)

/-- Blocks that end in the same hash are the same. -/
theorem unique (h : Linked below bs) (h' : Linked below bs') (hbelow : Known blockOf below)
    (hknown : ∀ b ∈ bs, Known blockOf b.toSemanticallyVerifiedBlock)
    (hknown' : ∀ b ∈ bs', Known blockOf b.toSemanticallyVerifiedBlock)
    (htop : (topOf below bs).hash = (topOf below bs').hash) :
    bs.map (fun b => b.toSemanticallyVerifiedBlock) =
      bs'.map fun b => b.toSemanticallyVerifiedBlock := by
  induction bs using List.reverseRecOn generalizing bs' with
  | nil =>
    have hsame := Known.eq (known_top hbelow hknown) (known_top hbelow hknown') htop
    have hheight := congrArg SemanticallyVerifiedBlock.height hsame
    rw [h.top_height, h'.top_height, length_nil] at hheight
    rw [length_eq_zero_iff.mp (show bs'.length = 0 by omega)]
  | append_singleton init last ih =>
    have hsame := Known.eq (known_top hbelow hknown) (known_top hbelow hknown') htop
    have hheight := congrArg SemanticallyVerifiedBlock.height hsame
    rw [h.top_height, h'.top_height, length_append, length_singleton] at hheight
    rcases eq_nil_or_concat' bs' with rfl | ⟨init', last', rfl⟩
    · rw [length_nil] at hheight
      omega
    rw [topOf_concat, topOf_concat] at hsame
    rw [linked_append] at h h'
    -- The blocks below have the same hash, as the parent of the same block.
    have hparent : (topOf below init).hash = (topOf below init').hash := by
      rw [← h.2.1.parent, ← h'.2.1.parent, hsame]
    rw [map_append, map_append,
      ih h.1 h'.1 (fun b hb => hknown b (mem_append_left _ hb))
        (fun b hb => hknown' b (mem_append_left _ hb)) hparent]
    simp only [map_cons, hsame]

end Linked

end Linked

/-! ## Attached chains -/

/-- A chain whose blocks are linked to the finalized tip. -/
structure Chain.Attached (rules : Rules H) (blockOf : Hash → Block) (db : ZebraDb H)
    (c : Chain H) : Prop where
  contains : c.Contains rules c.blocks.items
  linked : Linked db.top c.blocks.items
  known : ∀ b ∈ c.blocks.items, Known blockOf b.toSemanticallyVerifiedBlock

section Attached

variable {rules : Rules H} {db db' : ZebraDb H} {c c' p m : Chain H} {b : ContextuallyVerifiedBlock}
  {bs : List ContextuallyVerifiedBlock}

/-- The blocks of a chain are those it contains. -/
theorem Chain.Contains.self (h : c.Contains rules bs) : c.Contains rules c.blocks.items := by
  rw [h.blocks]
  exact h

theorem Chain.Contains.lookup_height (h : c.Contains rules bs) :
    c.heightByHash.lookup hash = some height ↔ ∃ b ∈ bs, b.hash = hash ∧ b.height = height := by
  rw [h.hashes.lookup, hashesOf, Multiset.mem_coe, mem_map]
  simp only [Prod.mk.injEq]

theorem Chain.Contains.containsBlockHash (h : c.Contains rules bs) :
    c.containsBlockHash hash = true ↔ ∃ b ∈ bs, b.hash = hash :=
  decide_eq_true_iff.trans h.mem_heightByHash

theorem Chain.topOf_of_tipHash (db : ZebraDb H) (htip : c.tipHash = some hash) :
    (topOf db.top c.blocks.items).hash = hash ∧
      ∃ b ∈ c.blocks.items, b.toSemanticallyVerifiedBlock = topOf db.top c.blocks.items := by
  obtain ⟨last, hlast, hhash⟩ := Option.map_eq_some_iff.mp htip
  obtain ⟨init, hinit⟩ := List.getLast?_eq_some_iff.mp hlast
  rw [hinit, topOf_concat]
  exact ⟨hhash, last, mem_append_right _ mem_cons_self, rfl⟩

namespace Chain.Attached

theorem new (h : Chain.new rules db.tipState = .ok c) :
    c.Attached rules blockOf db ∧ c.blocks.items = [] := by
  have hcontains := Chain.Contains.new h
  have hempty := hcontains.blocks
  refine ⟨⟨hcontains.self, ?_, ?_⟩, hempty⟩
  · rw [hempty]
    trivial
  · rw [hempty]
    exact fun b hb => absurd hb not_mem_nil

theorem trimmed (h : c.Attached rules blockOf db) (htrimmed : Chain.Trimmed rules c p) :
    p.Attached rules blockOf db ∧ ∃ above, c.blocks.items = p.blocks.items ++ above := by
  obtain ⟨kept, above, hblocks, hkept⟩ := h.contains.trimmed htrimmed
  have hlinked := h.linked
  have hknown := h.known
  rw [hblocks] at hlinked hknown
  refine ⟨⟨hkept.self, ?_, ?_⟩, above, by rw [hkept.blocks, hblocks]⟩
  · rw [hkept.blocks]
    exact (linked_append.mp hlinked).1
  · rw [hkept.blocks]
    exact fun b hb => hknown b (mem_append_left _ hb)

theorem push (h : p.Attached rules blockOf db)
    (hknown : Known blockOf b.toSemanticallyVerifiedBlock)
    (hchild : ChildOf (topOf db.top p.blocks.items) b.toSemanticallyVerifiedBlock)
    (hpush : p.push rules b = .ok m) :
    m.Attached rules blockOf db ∧ m.blocks.items = p.blocks.items ++ [b] := by
  have hcontains := h.contains.push (b := b) (fun b' hb' => by
    have hle := h.linked.height_le_top hb'
    have hheight := hchild.height
    omega) hpush
  have hblocks := hcontains.blocks
  refine ⟨⟨hcontains.self, ?_, ?_⟩, hblocks⟩
  · rw [hblocks]
    exact linked_append.mpr ⟨h.linked, hchild, trivial⟩
  · rw [hblocks]
    intro b' hb'
    rcases mem_append.mp hb' with hb' | hb'
    · exact h.known b' hb'
    · rw [mem_singleton.mp hb']
      exact hknown

section

variable (h : c.Attached rules blockOf db)

include h

/-- The root becomes the finalized tip. -/
theorem withoutRoot (htop : Known blockOf db'.top) (hhash : db'.top.hash = hash)
    (hpop : NonFinalizedState.WithoutRoot rules hash c p) :
    p.Attached rules blockOf db' ∧ ∃ b : ContextuallyVerifiedBlock,
      c.blocks.items = b :: p.blocks.items ∧ b.toSemanticallyVerifiedBlock = db'.top := by
  obtain ⟨b, _, hpop, hroot, _⟩ := hpop
  obtain ⟨rest, hblocks, _, hrest⟩ := h.contains.popRoot hpop
  have hlinked := h.linked
  have hknown := h.known
  rw [hblocks] at hlinked hknown
  have hsame : b.toSemanticallyVerifiedBlock = db'.top :=
    Known.eq (hknown b mem_cons_self) htop (hroot.trans hhash.symm)
  refine ⟨⟨hrest.self, ?_, ?_⟩, b, by rw [hrest.blocks, hblocks], hsame⟩
  · rw [hrest.blocks, ← hsame]
    exact hlinked.2
  · rw [hrest.blocks]
    exact fun b' hb' => hknown b' (mem_cons_of_mem _ hb')

/-- The finalized tip is not a block of the chain. -/
theorem hash_ne_top (htop : Known blockOf db.top)
    (hb : b ∈ c.blocks.items) : b.hash ≠ db.top.hash := by
  intro hhash
  have hlt := h.linked.height_lt hb
  rw [Known.eq (h.known b hb) htop hhash] at hlt
  exact absurd hlt (Nat.lt_irrefl _)

section

variable (h' : c'.Attached rules blockOf db) (htop : Known blockOf db.top)
  (htip : c.tipHash = some hash) (htip' : c'.tipHash = some hash)

include h' htop htip htip'

/-- Chains with the same tip have the same blocks. -/
theorem blocks_eq :
    c.blocks.items.map (fun b => b.toSemanticallyVerifiedBlock) =
      c'.blocks.items.map fun b => b.toSemanticallyVerifiedBlock :=
  h.linked.unique h'.linked htop h.known h'.known
    ((Chain.topOf_of_tipHash db htip).1.trans (Chain.topOf_of_tipHash db htip').1.symm)

/-- Chains with the same tip are equal in the order of chains. -/
theorem order_eq : c.order = c'.order := by
  have hwork : ∀ bs : List ContextuallyVerifiedBlock, workOf bs =
      ((bs.map fun b => b.toSemanticallyVerifiedBlock).map fun b => b.block.work).sum := by
    intro bs
    rw [map_map]
    rfl
  unfold Chain.order
  rw [h.contains.work, h'.contains.work, hwork, hwork, h.blocks_eq h' htop htip htip', htip, htip']

end

theorem exists_tipHash (hne : c.blocks.items ≠ []) : ∃ hash, c.tipHash = some hash := by
  rw [h.contains.tipHash]
  obtain ⟨init, last, hlast⟩ := (eq_nil_or_concat' c.blocks.items).resolve_left hne
  rw [hlast, List.getLast?_concat]
  exact ⟨_, rfl⟩

end

end Chain.Attached

end Attached

/-! ## The system -/

/-- The non-finalized state beside the database. -/
structure System (H : Type) where
  state : NonFinalizedState H
  finalized : ZebraDb H

inductive Operation where
  | commitBlock (b : SemanticallyVerifiedBlock)
  | commitNewChain (b : SemanticallyVerifiedBlock)
  /-- `validate_and_commit_non_finalized`. -/
  | commit (b : SemanticallyVerifiedBlock)
  | finalize
  | invalidateBlock (hash : Hash)
  | reconsiderBlock (hash : Hash)

/-- The block of a commit. -/
def Operation.block? : Operation → Option SemanticallyVerifiedBlock
  | .commitBlock b => some b
  | .commitNewChain b => some b
  | .commit b => some b
  | _ => none

/-- A block may be committed: its height is one above that of its parent. -/
structure Committable (blockOf : Hash → Block) (t : System H) (b : SemanticallyVerifiedBlock) :
    Prop where
  known : Known blockOf b
  height : ∃ parentHeight, t.state.heightByHash t.finalized b.previousBlockHash =
    some parentHeight ∧ b.height = parentHeight + 1

/-- The successful operations. A finalized block is committed to the
database. -/
inductive Step (checks : Checks H) (blockOf : Hash → Block) :
    System H → Operation → System H → Prop where
  | commitBlock {s s' : NonFinalizedState H} {db : ZebraDb H} {b : SemanticallyVerifiedBlock}
      (hb : Committable blockOf ⟨s, db⟩ b) (h : s.commitBlock checks db b = .ok s') :
      Step checks blockOf ⟨s, db⟩ (.commitBlock b) ⟨s', db⟩
  | commitNewChain {s s' : NonFinalizedState H} {db : ZebraDb H} {b : SemanticallyVerifiedBlock}
      (hb : Committable blockOf ⟨s, db⟩ b) (hparent : b.previousBlockHash = db.top.hash)
      (h : s.commitNewChain checks db b = .ok s') :
      Step checks blockOf ⟨s, db⟩ (.commitNewChain b) ⟨s', db⟩
  | commit {s s' : NonFinalizedState H} {db : ZebraDb H} {b : SemanticallyVerifiedBlock}
      (hb : Known blockOf b) (h : s.validateAndCommitNonFinalized checks db b = .ok s') :
      Step checks blockOf ⟨s, db⟩ (.commit b) ⟨s', db⟩
  | finalize {s s' : NonFinalizedState H} {db db' : ZebraDb H} {root : ContextuallyVerifiedBlock}
      {treestate : Treestate H} (h : s.finalize checks = .ok (s', root, treestate))
      (hdb : db.commitFinalizedDirect root treestate = .ok db') :
      Step checks blockOf ⟨s, db⟩ .finalize ⟨s', db'⟩
  | invalidateBlock {s s' : NonFinalizedState H} {db : ZebraDb H} {hash : Hash}
      (h : s.invalidateBlock checks hash = .ok (.ok s')) :
      Step checks blockOf ⟨s, db⟩ (.invalidateBlock hash) ⟨s', db⟩
  | reconsiderBlock {s s' : NonFinalizedState H} {db : ZebraDb H} {hash : Hash}
      (h : s.reconsiderBlock checks db hash = .ok (.ok s')) :
      Step checks blockOf ⟨s, db⟩ (.reconsiderBlock hash) ⟨s', db⟩

/-- Some operations, one after the other. -/
inductive Reaches (checks : Checks H) (blockOf : Hash → Block) :
    System H → List Operation → System H → Prop where
  | refl {t : System H} : Reaches checks blockOf t [] t
  | step {t u v : System H} {ops : List Operation} {op : Operation}
      (hrun : Reaches checks blockOf t ops u) (hstep : Step checks blockOf u op v) :
      Reaches checks blockOf t (ops ++ [op]) v

/-- No chains and no records above a database of known blocks. -/
structure System.Initial (blockOf : Hash → Block) (t : System H) : Prop where
  chains : t.state.chainSet.items = []
  records : t.state.invalidatedBlocks = []
  known : ∀ b ∈ t.finalized.blocks, Known blockOf b

/-! ## Well-formed systems -/

/-- A record of invalidated blocks, under the height of the first one. -/
structure Recorded (blockOf : Hash → Block) (entry : Nat × List ContextuallyVerifiedBlock) :
    Prop where
  linked : ∃ below, Known blockOf below ∧ Linked below entry.2
  known : ∀ b ∈ entry.2, Known blockOf b.toSemanticallyVerifiedBlock
  first : ∃ first, entry.2.head? = some first ∧ first.height = entry.1

structure System.WellFormed (checks : Checks H) (blockOf : Hash → Block) (t : System H) :
    Prop where
  finalized : ∀ b ∈ t.finalized.blocks, Known blockOf b
  attached : ∀ c ∈ t.state.chainSet, c.Attached checks.toRules blockOf t.finalized
  nonempty : ∀ c ∈ t.state.chainSet, c.blocks.items ≠ []
  count : t.state.chainSet.items.length ≤ maxNonFinalizedChainForks
  records : ∀ entry ∈ t.state.invalidatedBlocks, Recorded blockOf entry

section WellFormed

variable {checks : Checks H} {s s' : NonFinalizedState H} {db : ZebraDb H} {t u : System H}
  {op : Operation} {b q : SemanticallyVerifiedBlock} {b' : ContextuallyVerifiedBlock}
  {c p m : Chain H} {db' : ZebraDb H} {root : ContextuallyVerifiedBlock} {keep : Chain H → Bool}
  {treestate : Treestate H} {ops : List Operation}

theorem System.WellFormed.top (h : t.WellFormed checks blockOf) : Known blockOf t.finalized.top :=
  h.finalized _ (mem_append_right _ mem_cons_self)

variable (h : System.WellFormed checks blockOf ⟨s, db⟩) (hb : Committable blockOf ⟨s, db⟩ b)

include h hb in
/-- The height of the parent: the state knows no other block of its hash. -/
theorem Committable.height_eq (hq : Known blockOf q)
    (hparent : q.hash = b.previousBlockHash) : b.height = q.height + 1 := by
  obtain ⟨parentHeight, hfound, hheight⟩ := hb.height
  rw [hheight]
  unfold NonFinalizedState.heightByHash at hfound
  split at hfound
  · rename_i c hfind
    obtain ⟨hc, _⟩ := findChain_eq_some hfind
    obtain ⟨q', hq', hhash, rfl⟩ := (h.attached c hc).contains.lookup_height.mp hfound
    have hsame := Known.eq ((h.attached c hc).known q' hq') hq (hhash.trans hparent.symm)
    exact congrArg (fun b => b.height + 1) hsame
  · obtain ⟨q', hq', rfl⟩ := Option.map_eq_some_iff.mp hfound
    have hhash : q'.hash = b.previousBlockHash := by simpa using List.find?_some hq'
    rw [Known.eq (h.finalized q' (mem_of_find?_eq_some hq')) hq (hhash.trans hparent.symm)]

/-- An accepted block is the next one above the tip of its parent chain. -/
theorem Accepted.attached (haccepted : Accepted checks s db p b b' m) (hknown : Known blockOf b)
    (hp : p.Attached checks.toRules blockOf db) (hchild : ChildOf (topOf db.top p.blocks.items) b) :
    m.Attached checks.toRules blockOf db ∧ m.blocks.items = p.blocks.items ++ [b'] := by
  apply hp.push _ _ haccepted.push
  · rw [haccepted.block]
    exact hknown
  · rw [haccepted.block]
    exact hchild

/-- Where the new chain of a commit comes from. -/
structure CommitSpec (checks : Checks H) (blockOf : Hash → Block) (s : NonFinalizedState H)
    (db : ZebraDb H) (b : SemanticallyVerifiedBlock) (p : Chain H) (b' : ContextuallyVerifiedBlock)
    (m : Chain H) : Prop where
  source : Chain.new checks.toRules db.tipState = .ok p ∨
    ∃ c ∈ s.chainSet, Chain.Trimmed checks.toRules c p ∧ p.blocks.items ≠ []
  parent : p.Attached checks.toRules blockOf db
  child : ChildOf (topOf db.top p.blocks.items) b
  accepted : Accepted checks s db p b b' m
  attached : m.Attached checks.toRules blockOf db
  blocks : m.blocks.items = p.blocks.items ++ [b']

section

include h hb

theorem commitBlock_spec (hcommit : s.commitBlock checks db b = .ok s') :
    ∃ p b' m, CommitSpec checks blockOf s db b p b' m ∧ p.tipHash = some b.previousBlockHash ∧
      s' = s.insertWith m fun c => c.tipHash ≠ some b.previousBlockHash := by
  obtain ⟨c, hc, p, b', m, htrimmed, htip, haccepted, rfl⟩ :=
    commitBlock_eq_ok hcommit
  -- The parent chain ends in the parent of the block.
  obtain ⟨hp, _⟩ := (h.attached c hc).trimmed htrimmed
  obtain ⟨hhash, q, hq, hqtop⟩ := Chain.topOf_of_tipHash db htip
  have hchild : ChildOf (topOf db.top p.blocks.items) b := by
    refine ⟨hhash.symm, ?_⟩
    rw [← hqtop] at hhash ⊢
    exact hb.height_eq h (hp.known q hq) hhash
  obtain ⟨hm, hblocks⟩ := haccepted.attached hb.known hp hchild
  exact ⟨p, b', m, ⟨.inr ⟨c, hc, htrimmed, ne_nil_of_mem hq⟩, hp, hchild, haccepted, hm,
    hblocks⟩, htip, rfl⟩

theorem commitNewChain_spec (hparent : b.previousBlockHash = db.top.hash)
    (hcommit : s.commitNewChain checks db b = .ok s') :
    ∃ p b' m, CommitSpec checks blockOf s db b p b' m ∧ p.blocks.items = [] ∧
      s' = s.insert m := by
  obtain ⟨p, b', m, hnew, haccepted, rfl⟩ := commitNewChain_eq_ok hcommit
  have hp : p.Attached checks.toRules blockOf db ∧ p.blocks.items = [] := Chain.Attached.new hnew
  have hchild : ChildOf (topOf db.top p.blocks.items) b := by
    rw [hp.2]
    exact ⟨hparent, hb.height_eq h h.top hparent.symm⟩
  obtain ⟨hm, hblocks⟩ := haccepted.attached hb.known hp.1 hchild
  exact ⟨p, b', m, ⟨.inl hnew, hp.1, hchild, haccepted, hm, hblocks⟩, hp.2, rfl⟩

end

/-- `initial_contextual_validity` accepts blocks that may be committed. -/
theorem committable_of_valid (hknown : Known blockOf b)
    (h : s.initialContextualValidity checks db b = .ok ()) : Committable blockOf ⟨s, db⟩ b := by
  obtain ⟨_, _, h⟩ := of_bind h
  obtain ⟨parentHeight, hparent, h⟩ := of_okOr_bind h
  obtain ⟨hheight, _⟩ := of_require_bind h
  exact ⟨hknown, parentHeight, hparent, hheight⟩

/-- A validated commit is a commit of either kind. -/
theorem validateAndCommitNonFinalized_eq_ok
    (h : s.validateAndCommitNonFinalized checks db b = .ok s') :
    s.initialContextualValidity checks db b = .ok () ∧
      ((b.previousBlockHash = db.top.hash ∧ s.commitNewChain checks db b = .ok s') ∨
        s.commitBlock checks db b = .ok s') := by
  obtain ⟨_, hvalid, h⟩ := of_mapErr_bind h
  refine ⟨hvalid, ?_⟩
  split at h
  · rename_i htop
    exact .inl ⟨htop.symm, h⟩
  · exact .inr h

/-- What a step can do. All kinds of commits are one case. -/
inductive StepSpec (checks : Checks H) (blockOf : Hash → Block) :
    System H → Operation → System H → Prop where
  | commit {s : NonFinalizedState H} {db : ZebraDb H} {op : Operation}
      {b : SemanticallyVerifiedBlock} {p m : Chain H} {b' : ContextuallyVerifiedBlock}
      {keep : Chain H → Bool} (hknown : Known blockOf b)
      (hop : op = .commitBlock b ∨ op = .commitNewChain b ∨
        op = .commit b ∧ s.initialContextualValidity checks db b = .ok ())
      (hspec : CommitSpec checks blockOf s db b p b' m)
      (hkeep : ∀ c, keep c = true ∨ c.tipHash = some b.previousBlockHash) :
      StepSpec checks blockOf ⟨s, db⟩ op ⟨s.insertWith m keep, db⟩
  | finalize {s s' : NonFinalizedState H} {db db' : ZebraDb H} {root : ContextuallyVerifiedBlock}
      {treestate : Treestate H} (h : s.finalize checks = .ok (s', root, treestate))
      (hdb : db.commitFinalizedDirect root treestate = .ok db') :
      StepSpec checks blockOf ⟨s, db⟩ .finalize ⟨s', db'⟩
  | invalidateBlock {s s' : NonFinalizedState H} {db : ZebraDb H} {hash : Hash}
      (h : s.invalidateBlock checks hash = .ok (.ok s')) :
      StepSpec checks blockOf ⟨s, db⟩ (.invalidateBlock hash) ⟨s', db⟩
  | reconsiderBlock {s s' : NonFinalizedState H} {db : ZebraDb H} {hash : Hash}
      (h : s.reconsiderBlock checks db hash = .ok (.ok s')) :
      StepSpec checks blockOf ⟨s, db⟩ (.reconsiderBlock hash) ⟨s', db⟩

include h hb in
theorem stepSpec_of_commit
    (hcommit : (b.previousBlockHash = db.top.hash ∧ s.commitNewChain checks db b = .ok s') ∨
      s.commitBlock checks db b = .ok s')
    (hop : op = .commitBlock b ∨ op = .commitNewChain b ∨
      op = .commit b ∧ s.initialContextualValidity checks db b = .ok ()) :
    StepSpec checks blockOf ⟨s, db⟩ op ⟨s', db⟩ := by
  rcases hcommit with ⟨hparent, hcommit⟩ | hcommit
  · obtain ⟨p, b', m, hspec, _, rfl⟩ := commitNewChain_spec h hb hparent hcommit
    exact StepSpec.commit hb.known hop hspec fun _ => .inl rfl
  · obtain ⟨p, b', m, hspec, htip, rfl⟩ := commitBlock_spec h hb hcommit
    refine StepSpec.commit hb.known hop hspec ?_
    intro c
    by_cases hc : c.tipHash = some b.previousBlockHash
    · exact .inr hc
    · exact .inl (decide_eq_true hc)

/-- Inversion of steps. -/
theorem Step.spec (h : t.WellFormed checks blockOf) (hstep : Step checks blockOf t op u) :
    StepSpec checks blockOf t op u := by
  cases hstep with
  | commitBlock hb hcommit => exact stepSpec_of_commit h hb (.inr hcommit) (.inl rfl)
  | commitNewChain hb hparent hcommit =>
    exact stepSpec_of_commit h hb (.inl ⟨hparent, hcommit⟩) (.inr (.inl rfl))
  | commit hb hcommit =>
    obtain ⟨hvalid, hcommit⟩ := validateAndCommitNonFinalized_eq_ok hcommit
    exact stepSpec_of_commit h (committable_of_valid hb hvalid) hcommit (.inr (.inr ⟨rfl, hvalid⟩))
  | finalize hfinalize hdb => exact .finalize hfinalize hdb
  | invalidateBlock hinvalidate => exact .invalidateBlock hinvalidate
  | reconsiderBlock hreconsider => exact .reconsiderBlock hreconsider

/-! ## Steps keep systems well formed -/

/-- The database after a finalized block. -/
theorem ZebraDb.commitFinalizedDirect_eq_ok
    (h : db.commitFinalizedDirect root treestate = .ok db') :
    db'.top = root.toSemanticallyVerifiedBlock ∧ db'.lower = db.blocks ∧
      db'.trees = treestate.trees ∧ db'.history = treestate.history := by
  obtain ⟨_, _, h⟩ := of_bind h
  cases h
  exact ⟨rfl, rfl, rfl, rfl⟩

section

include h

theorem System.WellFormed.commit
    (hm : m.Attached checks.toRules blockOf db) (hne : m.blocks.items ≠ []) :
    System.WellFormed checks blockOf ⟨s.insertWith m keep, db⟩ where
  finalized := h.finalized
  attached := by
    intro c hc
    rcases (mem_insertWith hc).1 with hc | rfl
    · exact h.attached c hc
    · exact hm
  nonempty := by
    intro c hc
    rcases (mem_insertWith hc).1 with hc | rfl
    · exact h.nonempty c hc
    · exact hne
  count := insertWith_length
  records := h.records

/-- The blocks of the finalized chain after a finalized block. -/
theorem System.WellFormed.finalized_concat
    (hfinalize : s.finalize checks = .ok (s', root, treestate))
    (hdb : db.commitFinalizedDirect root treestate = .ok db') :
    ∀ b ∈ db'.blocks, Known blockOf b := by
  obtain ⟨htop, hlower, _⟩ := ZebraDb.commitFinalizedDirect_eq_ok hdb
  obtain ⟨⟨best, popped, hbest, hpop⟩, _⟩ := finalize_eq_ok hfinalize
  have hattached := h.attached best (SortedList.last?_mem hbest)
  obtain ⟨rest, hblocks, _⟩ := hattached.contains.popRoot hpop
  intro b hb
  rw [ZebraDb.blocks, htop, hlower] at hb
  rcases mem_append.mp hb with hb | hb
  · exact h.finalized b hb
  · rw [mem_singleton.mp hb]
    apply hattached.known
    rw [hblocks]
    exact mem_cons_self

theorem System.WellFormed.finalize (hfinalize : s.finalize checks = .ok (s', root, treestate))
    (hdb : db.commitFinalizedDirect root treestate = .ok db') :
    System.WellFormed checks blockOf ⟨s', db'⟩ := by
  have hknown := h.finalized_concat hfinalize hdb
  obtain ⟨htop, _⟩ := ZebraDb.commitFinalizedDirect_eq_ok hdb
  obtain ⟨_, hrecords, hcount, hchains⟩ := finalize_eq_ok hfinalize
  refine ⟨hknown, ?_, ?_, hcount, ?_⟩
  · intro c hc
    obtain ⟨c₀, hc₀, hwithout⟩ := hchains c hc
    refine ((h.attached c₀ hc₀).withoutRoot
      (hknown _ (mem_append_right _ mem_cons_self)) ?_ hwithout).1
    rw [htop]
  · intro c hc
    obtain ⟨_, _, _, _, _, _, hne⟩ := hchains c hc
    exact hne
  · intro entry hentry
    rw [hrecords] at hentry
    exact h.records entry (mem_of_mem_filter hentry)

end

/-- The part of a chain from one of its blocks on. -/
theorem Chain.Attached.childBlocks (h : c.Attached checks.toRules blockOf db)
    (hlookup : c.heightByHash.lookup hash = some height) :
    ∃ below first rest, c.blocks.items = below ++ first :: rest ∧ first.hash = hash ∧
      first.height = height ∧ c.childBlocks height = first :: rest := by
  obtain ⟨first, hfirst, hhash, rfl⟩ := h.contains.lookup_height.mp hlookup
  obtain ⟨below, rest, hblocks⟩ := append_of_mem hfirst
  refine ⟨below, first, rest, hblocks, hhash, rfl, ?_⟩
  have hheights := h.contains.heights
  rw [hblocks, pairwise_append, pairwise_cons] at hheights
  unfold Chain.childBlocks
  rw [hblocks, filter_append, filter_eq_nil_iff.mpr, filter_eq_self.mpr,
    nil_append]
  · intro b hb
    rcases mem_cons.mp hb with rfl | hb
    · simp
    · simpa using (hheights.2.1.1 b hb).le
  · intro b hb
    simpa using hheights.2.2 b hb first mem_cons_self

/-- What an invalidation does, in terms of blocks: the chain `c` is split at
the block `first` with the given hash. -/
structure InvalidateSpec (checks : Checks H) (s : NonFinalizedState H) (hash : Hash)
    (s' : NonFinalizedState H) (c : Chain H) (below : List ContextuallyVerifiedBlock)
    (first : ContextuallyVerifiedBlock) (rest : List ContextuallyVerifiedBlock) : Prop where
  found : (s.findChain fun c => c.containsBlockHash hash) = some c
  blocks : c.blocks.items = below ++ first :: rest
  first_hash : first.hash = hash
  records : s'.invalidatedBlocks =
    (s.invalidatedBlocks.insert first.height (first :: rest)).limit maxInvalidatedBlocks
  chains : (below = [] ∧ s'.chainSet = s.chainSet.erase c.order) ∨
    (below ≠ [] ∧ ∃ kept, Chain.Trimmed checks.toRules c kept ∧ kept.blocks.items = below ∧
      s'.chainSet = (s.insertWith kept fun c => !c.containsBlockHash hash).chainSet)

section

variable (hinvalidate : s.invalidateBlock checks hash = .ok (.ok s'))

include h hinvalidate

theorem invalidateBlock_spec :
    ∃ c below first rest, c ∈ s.chainSet ∧ InvalidateSpec checks s hash s' c below first rest := by
  obtain ⟨c, blocks, first, hfind, hfirst, hrecords, hcases⟩ :=
    invalidateBlock_eq_ok hinvalidate
  obtain ⟨hc, _⟩ := findChain_eq_some hfind
  have hattached : c.Attached checks.toRules blockOf db := h.attached c hc
  rcases hcases with ⟨hroot, rfl, hset⟩ | ⟨hroot, f, kept, height, hlookup, rfl, hfork, hpop, hset⟩
  · -- The block is the root.
    obtain ⟨rest, hblocks⟩ := List.head?_eq_some_iff.mp hfirst
    have hhash : first.hash = hash := by
      rw [hattached.contains.rootHash, hblocks] at hroot
      exact Option.some.inj hroot
    rw [hblocks] at hrecords
    exact ⟨c, [], first, rest, hc, hfind, hblocks, hhash, hrecords, .inl ⟨rfl, hset⟩⟩
  · obtain ⟨below, first', rest, hblocks, hhash, _, hchild⟩ := hattached.childBlocks hlookup
    rw [hchild] at hfirst hrecords
    cases hfirst
    have hbelow : below ≠ [] := by
      rintro rfl
      rw [hattached.contains.rootHash, hblocks] at hroot
      exact hroot (congrArg some hhash)
    obtain ⟨htrimmed, htip⟩ := Chain.fork_trimmed hfork
    have htrimmed' := Relation.ReflTransGen.tail htrimmed hpop
    refine ⟨c, below, first, rest, hc, hfind, hblocks, hhash, hrecords,
      .inr ⟨hbelow, kept, htrimmed', ?_, hset⟩⟩
    -- The fork ends in the block, so that the rest is what is below it.
    obtain ⟨hf, above, habove⟩ := hattached.trimmed htrimmed
    obtain ⟨kept', last, hlast, _, _, hkept⟩ := hf.contains.popTip hpop
    rw [hf.contains.tipHash, hlast, List.getLast?_concat] at htip
    have hsplit : kept' ++ last :: above = below ++ first :: rest := by
      rw [← hblocks, habove, hlast, append_assoc]
      rfl
    have hlinked := hattached.linked
    have hknown := hattached.known
    have hlength : kept'.length = below.length := by
      rw [hblocks, ← hsplit] at hlinked hknown
      have hlast := (linked_append.mp hlinked).2.1.height
      have hkept' := (linked_append.mp hlinked).1.top_height
      rw [hsplit] at hlinked hknown
      have hfirst := (linked_append.mp hlinked).2.1.height
      have hbelow' := (linked_append.mp hlinked).1.top_height
      have hsame := Known.eq (hknown last (by rw [← hsplit]; simp)) (hknown first (by simp))
        ((Option.some.inj htip).trans hhash.symm)
      rw [hsame] at hlast
      omega
    rw [hkept.blocks]
    exact (append_inj hsplit hlength).1

theorem System.WellFormed.invalidateBlock : System.WellFormed checks blockOf ⟨s', db⟩ := by
  obtain ⟨c, below, first, rest, hc, hspec⟩ := invalidateBlock_spec h hinvalidate
  have hattached : c.Attached checks.toRules blockOf db := h.attached c hc
  -- The chains alone.
  obtain ⟨hchains, hcount⟩ : (∀ x ∈ s'.chainSet, x.Attached checks.toRules blockOf db ∧
      x.blocks.items ≠ []) ∧ s'.chainSet.items.length ≤ maxNonFinalizedChainForks := by
    rcases hspec.chains with ⟨_, hset⟩ | ⟨hbelow, kept, htrimmed, hkept, hset⟩
    · rw [hset]
      refine ⟨fun x hx => ?_, (length_filter_le _ _).trans h.count⟩
      have hx := (SortedList.mem_erase.mp hx).1
      exact ⟨h.attached x hx, h.nonempty x hx⟩
    · rw [hset]
      have hcommit : System.WellFormed checks blockOf
          ⟨s.insertWith kept fun c => !c.containsBlockHash hash, db⟩ :=
        h.commit (hattached.trimmed htrimmed).1 (by rw [hkept]; exact hbelow)
      exact ⟨fun x hx => ⟨hcommit.attached x hx, hcommit.nonempty x hx⟩, hcommit.count⟩
  refine ⟨h.finalized, fun x hx => (hchains x hx).1, fun x hx => (hchains x hx).2, hcount, ?_⟩
  intro entry hentry
  rw [hspec.records] at hentry
  rcases IndexMap.mem_insert (mem_of_mem_drop hentry) with rfl | hentry
  · have hlinked := hattached.linked
    have hknown := hattached.known
    rw [hspec.blocks] at hlinked hknown
    exact ⟨⟨_, Linked.known_top h.top fun b hb => hknown b (mem_append_left _ hb),
      (linked_append.mp hlinked).2⟩, fun b hb => hknown b (mem_append_right _ hb), first, rfl,
      rfl⟩
  · exact h.records entry hentry

end

/-- Run lemma: linked blocks are pushed. -/
theorem Chain.Attached.pushAll {bs : List ContextuallyVerifiedBlock}
    (h : p.Attached checks.toRules blockOf db) (hlinked : Linked (topOf db.top p.blocks.items) bs)
    (hknown : ∀ b ∈ bs, Known blockOf b.toSemanticallyVerifiedBlock)
    (hpush : bs.foldlM (fun c b => c.push checks.toRules b) p = .ok m) :
    m.Attached checks.toRules blockOf db ∧ m.blocks.items = p.blocks.items ++ bs := by
  induction bs generalizing p with
  | nil =>
    cases hpush
    exact ⟨h, (append_nil _).symm⟩
  | cons b bs ih =>
    obtain ⟨p', hfirst, hpush⟩ := of_bind hpush
    obtain ⟨hp', hblocks⟩ := h.push (hknown b mem_cons_self) hlinked.1 hfirst
    obtain ⟨hm, hall⟩ := ih hp' (by
      rw [hblocks, topOf_concat]
      exact hlinked.2) (fun b' hb' => hknown b' (mem_cons_of_mem _ hb')) hpush
    refine ⟨hm, ?_⟩
    rw [hall, hblocks, append_assoc]
    rfl

section

variable (hreconsider : s.reconsiderBlock checks db hash = .ok (.ok s'))

include h hreconsider

/-- What a reconsideration does, in terms of blocks: the record is put on
top of a chain. -/
theorem reconsiderBlock_spec :
    ∃ height root bs ps m, (height, root :: bs) ∈ s.invalidatedBlocks ∧
      m.Attached checks.toRules blockOf db ∧ m.blocks.items = ps ++ root :: bs ∧
      (topOf db.top ps).hash = root.previousBlockHash ∧
      s' = s.restore db height root.previousBlockHash m := by
  obtain ⟨height, root, blocks, p, m, hrecord, _, hparent, hpush, rfl⟩ :=
    reconsiderBlock_eq_ok hreconsider
  have hrecorded := h.records _ hrecord
  obtain ⟨below, hbelow, hlinked⟩ := hrecorded.linked
  -- The parent chain ends in the parent of the record.
  obtain ⟨hp, htop⟩ : p.Attached checks.toRules blockOf db ∧
      (topOf db.top p.blocks.items).hash = root.previousBlockHash := by
    rcases hparent with ⟨htop, hnew⟩ | ⟨c, hc, htrimmed, htip⟩
    · obtain ⟨hp, hempty⟩ := Chain.Attached.new hnew
      refine ⟨hp, ?_⟩
      rw [hempty]
      exact htop.symm
    · obtain ⟨hp, _⟩ := (h.attached c hc).trimmed htrimmed
      exact ⟨hp, (Chain.topOf_of_tipHash db htip).1⟩
  have hsame : topOf db.top p.blocks.items = below :=
    Known.eq (Linked.known_top h.top hp.known) hbelow (htop.trans hlinked.1.parent)
  obtain ⟨hm, hblocks⟩ := hp.pushAll (by rw [hsame]; exact hlinked) hrecorded.known hpush
  exact ⟨height, root, blocks, _, m, hrecord, hm, hblocks, htop, rfl⟩

theorem System.WellFormed.reconsiderBlock : System.WellFormed checks blockOf ⟨s', db⟩ := by
  obtain ⟨height, root, bs, ps, m, _, hm, hblocks, _, rfl⟩ := reconsiderBlock_spec h hreconsider
  apply System.WellFormed.commit (s := { s with invalidatedBlocks := _ }) _ hm
  · rw [hblocks]
    simp
  · refine ⟨h.finalized, h.attached, h.nonempty, h.count, ?_⟩
    intro entry hentry
    exact h.records entry (mem_of_mem_filter (mem_of_mem_filter hentry))

end

/-- Step lemma. -/
theorem Step.wellFormed (h : t.WellFormed checks blockOf) (hstep : Step checks blockOf t op u) :
    u.WellFormed checks blockOf := by
  cases hstep.spec h with
  | commit hknown hop hspec hkeep =>
    apply h.commit hspec.attached
    rw [hspec.blocks]
    simp
  | finalize hfinalize hdb => exact h.finalize hfinalize hdb
  | invalidateBlock hinvalidate => exact h.invalidateBlock hinvalidate
  | reconsiderBlock hreconsider => exact h.reconsiderBlock hreconsider

theorem System.Initial.wellFormed (h : t.Initial blockOf) : t.WellFormed checks blockOf where
  finalized := h.known
  attached := by
    intro c hc
    rw [← SortedList.mem_items, h.chains] at hc
    cases hc
  nonempty := by
    intro c hc
    rw [← SortedList.mem_items, h.chains] at hc
    cases hc
  count := by
    rw [h.chains]
    exact Nat.zero_le _
  records := by
    rw [h.records]
    exact fun entry hentry => absurd hentry not_mem_nil

/-- Run lemma. -/
theorem Reaches.wellFormed (h : t.WellFormed checks blockOf)
    (hrun : Reaches checks blockOf t ops u) :
    u.WellFormed checks blockOf := by
  induction hrun with
  | refl => exact h
  | step _ hstep ih => exact hstep.wellFormed ih

/-- After an insertion there is a chain with the blocks of the inserted
one: itself, or one that was there before. -/
theorem exists_of_insertAbsent {kept : Chain H} (hwell : System.WellFormed checks blockOf ⟨s, db⟩)
    (hkept : kept.Attached checks.toRules blockOf db) (hne : kept.blocks.items ≠ []) :
    ∃ y ∈ s.chainSet.insertAbsent kept, y.Attached checks.toRules blockOf db ∧
      y.blocks.items.map (fun b => b.toSemanticallyVerifiedBlock) =
        kept.blocks.items.map fun b => b.toSemanticallyVerifiedBlock := by
  by_cases habsent : ∀ x ∈ s.chainSet, x.order ≠ kept.order
  · exact ⟨kept, SortedList.mem_insertAbsent.mpr (.inr ⟨rfl, habsent⟩), hkept, rfl⟩
  · push Not at habsent
    obtain ⟨y, hy, horder⟩ := habsent
    have hyAttached : y.Attached checks.toRules blockOf db := hwell.attached y hy
    obtain ⟨tip, htip⟩ := hyAttached.exists_tipHash (hwell.nonempty y hy)
    obtain ⟨tip', htip'⟩ := hkept.exists_tipHash hne
    -- The hash of the tip is part of the order of chains.
    obtain rfl : tip = tip' := by
      have hsnd := congrArg (fun k => (ofLex k).2) horder
      have hhash : hashOrder tip = hashOrder tip' := by simpa [Chain.order, htip, htip'] using hsnd
      exact FixedBytes.ext (List.reverse_injective (leNat_injective (by simp) hhash))
    exact ⟨y, SortedList.mem_insertAbsent.mpr (.inl hy), hyAttached,
      hyAttached.blocks_eq hkept hwell.top htip htip'⟩

/-- The set is not empty after a kept chain was inserted. -/
theorem insertWith_ne_nil {y : Chain H} (hy : y ∈ s.chainSet.insertAbsent m)
    (hkeep : keep y = true) :
    (s.insertWith m keep).chainSet.items ≠ [] := by
  have hmem : y ∈ ((s.chainSet.insertAbsent m).filter keep).items :=
    SortedList.mem_filter.mpr ⟨hy, hkeep⟩
  have hpos := length_pos_of_mem hmem
  change (NonFinalizedState.limitForks _).items ≠ []
  rw [limitForks_items, ← length_pos_iff, length_drop]
  have hlimit : 0 < maxNonFinalizedChainForks := by decide
  omega

theorem topOf_congr {below : SemanticallyVerifiedBlock} {bs bs' : List ContextuallyVerifiedBlock}
    (h : bs.map (fun b => b.toSemanticallyVerifiedBlock) =
      bs'.map fun b => b.toSemanticallyVerifiedBlock) : topOf below bs = topOf below bs' := by
  have hfold : ∀ bs : List ContextuallyVerifiedBlock, topOf below bs =
      (bs.map fun b => b.toSemanticallyVerifiedBlock).foldl (fun _ b => b) below := by
    intro bs
    rw [foldl_map]
    rfl
  rw [hfold, hfold, h]

section

include h

/-- There is a chain after blocks were put on top of one, even when the
chains that end in their parent are dropped. -/
theorem insertWith_append_ne_nil {ps bs : List ContextuallyVerifiedBlock}
    (hm : m.Attached checks.toRules blockOf db) (hblocks : m.blocks.items = ps ++ bs)
    (hbs : bs ≠ []) (hkeep : ∀ c, keep c = true ∨ c.tipHash = some (topOf db.top ps).hash) :
    (s.insertWith m keep).chainSet.items ≠ [] := by
  obtain ⟨y, hy, hyAttached, hyBlocks⟩ := exists_of_insertAbsent h hm (by rw [hblocks]; simp [hbs])
  refine insertWith_ne_nil hy ((hkeep y).resolve_right ?_)
  intro htip
  -- The chain ends in the last block, which is higher than the parent.
  have hhash := (Chain.topOf_of_tipHash db htip).1
  have hlinked := hm.linked
  have hknown := hm.known
  rw [topOf_congr hyBlocks, hblocks] at hhash
  rw [hblocks] at hlinked hknown
  have hsame := Known.eq (Linked.known_top h.top hknown)
    (Linked.known_top h.top fun b hb => hknown b (mem_append_left _ hb)) hhash
  have hheight := congrArg SemanticallyVerifiedBlock.height hsame
  rw [hlinked.top_height, (linked_append.mp hlinked).1.top_height, length_append] at hheight
  have hpos := length_pos_iff.mpr hbs
  omega

/-- After a commit there is a chain. -/
theorem StepSpec.commit_ne_nil (hspec : CommitSpec checks blockOf s db b p b' m)
    (hkeep : ∀ c, keep c = true ∨ c.tipHash = some b.previousBlockHash) :
    (s.insertWith m keep).chainSet.items ≠ [] := by
  rw [hspec.child.parent] at hkeep
  exact insertWith_append_ne_nil h hspec.attached hspec.blocks (cons_ne_nil _ _) hkeep

/-- After a reconsideration there is a chain. -/
theorem reconsiderBlock_ne_nil (hreconsider : s.reconsiderBlock checks db hash = .ok (.ok s')) :
    s'.chainSet.items ≠ [] := by
  obtain ⟨height, root, bs, ps, m, _, hm, hblocks, htop, rfl⟩ :=
    reconsiderBlock_spec h hreconsider
  have hwell : System.WellFormed checks blockOf ⟨({ s with
      invalidatedBlocks := (s.invalidatedBlocks.shiftRemove height).filter fun entry =>
        db.top.height ≤ entry.1 } : NonFinalizedState H), db⟩ :=
    ⟨h.finalized, h.attached, h.nonempty, h.count, fun entry hentry =>
      h.records entry (mem_of_mem_filter (mem_of_mem_filter hentry))⟩
  refine insertWith_append_ne_nil hwell hm hblocks (cons_ne_nil _ _) fun c => ?_
  rw [htop, decide_eq_true_iff]
  exact (Classical.em _).symm

/-- The part below an invalidated block that is not the root is kept. -/
theorem InvalidateSpec.exists_kept {c : Chain H} {below rest : List ContextuallyVerifiedBlock}
    {first : ContextuallyVerifiedBlock} {kept : Chain H} (hc : c ∈ s.chainSet)
    (hspec : InvalidateSpec checks s hash s' c below first rest) (hbelow : below ≠ [])
    (htrimmed : Chain.Trimmed checks.toRules c kept) (hkept : kept.blocks.items = below) :
    ∃ y ∈ s.chainSet.insertAbsent kept, y.containsBlockHash hash = false ∧
      y.blocks.items.map (fun b => b.toSemanticallyVerifiedBlock) =
        below.map fun b => b.toSemanticallyVerifiedBlock := by
  have hattached : c.Attached checks.toRules blockOf db := h.attached c hc
  obtain ⟨y, hy, hyAttached, hyBlocks⟩ := exists_of_insertAbsent h
    (hattached.trimmed htrimmed).1 (by rw [hkept]; exact hbelow)
  rw [hkept] at hyBlocks
  refine ⟨y, hy, ?_, hyBlocks⟩
  rw [Bool.eq_false_iff, Ne, hyAttached.contains.containsBlockHash]
  rintro ⟨q, hq, hqhash⟩
  have hmem := mem_map_of_mem (f := fun b => b.toSemanticallyVerifiedBlock) hq
  rw [hyBlocks, mem_map] at hmem
  obtain ⟨q', hq', hq'same⟩ := hmem
  have hnodup := hattached.contains.hashes_nodup
  rw [hspec.blocks, map_append, map_cons, nodup_append] at hnodup
  refine hnodup.2.2 q'.hash (mem_map_of_mem hq') first.hash mem_cons_self ?_
  rw [hspec.first_hash, ← hqhash, hq'same]

end

/-! ## Executable runs -/

/-- The height of a block is one above that of its parent. -/
def System.isSequential (t : System H) (b : SemanticallyVerifiedBlock) : Bool :=
  match t.state.heightByHash t.finalized b.previousBlockHash with
  | some parentHeight => b.height == parentHeight + 1
  | none => false

/-- The result of an operation, if it succeeds. -/
def System.apply (checks : Checks H) (t : System H) : Operation → Option (System H)
  | .commitBlock b => do
    guard (t.isSequential b = true)
    let s ← (t.state.commitBlock checks t.finalized b).toOption
    some ⟨s, t.finalized⟩
  | .commitNewChain b => do
    guard (t.isSequential b = true ∧ b.previousBlockHash = t.finalized.top.hash)
    let s ← (t.state.commitNewChain checks t.finalized b).toOption
    some ⟨s, t.finalized⟩
  | .commit b => do
    let s ← (t.state.validateAndCommitNonFinalized checks t.finalized b).toOption
    some ⟨s, t.finalized⟩
  | .finalize => do
    let (s, root, treestate) ← (t.state.finalize checks).toOption
    let db ← (t.finalized.commitFinalizedDirect root treestate).toOption
    some ⟨s, db⟩
  | .invalidateBlock hash => do
    let result ← (t.state.invalidateBlock checks hash).toOption
    let s ← result.toOption
    some ⟨s, t.finalized⟩
  | .reconsiderBlock hash => do
    let result ← (t.state.reconsiderBlock checks t.finalized hash).toOption
    let s ← result.toOption
    some ⟨s, t.finalized⟩

/-- The result of some operations, if they all succeed. -/
def System.applyAll (checks : Checks H) (t : System H) (ops : List Operation) : Option (System H) :=
  ops.foldlM (System.apply checks) t

theorem System.isSequential_iff :
    t.isSequential b = true ↔ ∃ parentHeight,
      t.state.heightByHash t.finalized b.previousBlockHash = some parentHeight ∧
        b.height = parentHeight + 1 := by
  unfold System.isSequential
  split
  · rename_i parentHeight hparent
    rw [hparent]
    simp
  · rename_i hnone
    rw [hnone]
    simp

/-- An operation that succeeds is a step. -/
theorem System.apply_step (h : t.apply checks op = some u)
    (hknown : ∀ b ∈ op.block?, Known blockOf b) : Step checks blockOf t op u := by
  cases op with
  | commitBlock b =>
    obtain ⟨_, hguard, h⟩ := Option.bind_eq_some_iff.mp h
    obtain ⟨s, hs, h⟩ := Option.bind_eq_some_iff.mp h
    cases h
    refine .commitBlock ⟨hknown b rfl, System.isSequential_iff.mp ?_⟩ (toOption_eq_some.mp hs)
    simpa [guard] using hguard
  | commitNewChain b =>
    obtain ⟨_, hguard, h⟩ := Option.bind_eq_some_iff.mp h
    obtain ⟨s, hs, h⟩ := Option.bind_eq_some_iff.mp h
    cases h
    have hguard : t.isSequential b = true ∧ b.previousBlockHash = t.finalized.top.hash := by
      simpa [guard] using hguard
    exact .commitNewChain ⟨hknown b rfl, System.isSequential_iff.mp hguard.1⟩ hguard.2
      (toOption_eq_some.mp hs)
  | commit b =>
    obtain ⟨s, hs, h⟩ := Option.bind_eq_some_iff.mp h
    cases h
    exact .commit (hknown b rfl) (toOption_eq_some.mp hs)
  | finalize =>
    obtain ⟨⟨s, root, treestate⟩, hs, h⟩ := Option.bind_eq_some_iff.mp h
    obtain ⟨db, hdb, h⟩ := Option.bind_eq_some_iff.mp h
    cases h
    exact .finalize (toOption_eq_some.mp hs) (toOption_eq_some.mp hdb)
  | invalidateBlock hash | reconsiderBlock hash =>
    obtain ⟨result, hresult, h⟩ := Option.bind_eq_some_iff.mp h
    obtain ⟨s, hs, h⟩ := Option.bind_eq_some_iff.mp h
    cases h
    rw [toOption_eq_some] at hresult hs
    rw [hs] at hresult
    constructor
    exact hresult

/-- Operations that all succeed are a run. -/
theorem System.applyAll_reaches (h : t.applyAll checks ops = some u)
    (hknown : ∀ op ∈ ops, ∀ b ∈ op.block?, Known blockOf b) : Reaches checks blockOf t ops u := by
  induction ops using List.reverseRecOn generalizing u with
  | nil =>
    cases h
    exact .refl
  | append_singleton ops op ih =>
    unfold System.applyAll at h
    rw [foldlM_append] at h
    obtain ⟨v, hv, h⟩ := Option.bind_eq_some_iff.mp h
    refine .step (ih hv fun op' hop' => hknown op' (mem_append_left _ hop')) ?_
    apply System.apply_step _ (hknown op (mem_append_right _ mem_cons_self))
    simpa using h

end WellFormed

end Wolf.NonFinalized
