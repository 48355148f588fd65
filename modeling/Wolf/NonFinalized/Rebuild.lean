import Wolf.NonFinalized.Removal

/-! # Forked and finalized chains are rebuilt chains

A fork is made by taking blocks off the tip of a chain, and finalization
takes blocks off its root. Both give the chain that is built by pushing
the remaining blocks onto a new chain.

For address balances this rests on the supply. The updates of a block
are undone in block order, outputs before inputs, and the source panics
with "reversing previous balance changes is always valid" if a balance
on the way is no amount. Blocks that stay within the supply never get
there.

* `popTip_push`: `pop_tip` undoes `push`, and a fork is the chain of the
  blocks up to its tip.
* `popRoots_rebuild`: finalizing blocks equals starting later, and the
  chain that starts later can be built. -/

namespace Wolf.NonFinalized

open Ledger List Chain

variable {H : Type} {bs : List ContextuallyVerifiedBlock}

/-! ## Built chains -/

/-- Blocks are pushed one after the other. -/
def Chain.pushAll (rules : Rules H) (c : Chain H) (bs : List ContextuallyVerifiedBlock) :
    Except Fault (Chain H) :=
  bs.foldlM (fun c b => c.push rules b) c

/-- A new chain with some blocks. -/
def Chain.build (rules : Rules H) (tip : TipState H) (bs : List ContextuallyVerifiedBlock) :
    Except Fault (Chain H) := do
  let c ← mapErr Fault.panicked (Chain.new rules tip)
  c.pushAll rules bs

/-- The trees of a pool along some blocks. -/
def treesAlong (tree : NoteCommitmentTree) : List (List Word) → List NoteCommitmentTree
  | [] => [tree]
  | commitments :: rest => tree :: treesAlong (tree.grow commitments) rest

/-- Blocks that follow a tip: their heights are consecutive, and no two note
commitment trees along them have the same root. -/
structure ValidBlocks (rules : Rules H) (tip : TipState H) (bs : List ContextuallyVerifiedBlock) :
    Prop where
  heights : bs.map (fun b => b.height) = List.range' (tip.height + 1) bs.length
  collisionFree : ∀ pool, rules.treeHash.CollisionFree pool
    (treesAlong (tip.trees pool) (bs.map fun b => b.block.noteCommitments pool))

/-- The entries of some blocks. -/
def Entry.run (rules : Rules H) (below : TipState H) :
    List ContextuallyVerifiedBlock → Except ValidateContextError (List (Entry H))
  | [] => .ok []
  | b :: bs => do
    let e ← Entry.next rules below b
    let es ← Entry.run rules e.tip bs
    .ok (e :: es)

section Runs

variable {rules : Rules H} {tip : TipState H} {bs bs' : List ContextuallyVerifiedBlock}
  {b : ContextuallyVerifiedBlock} {es es' : List (Entry H)} {c : Chain H}

section

variable (h : Steps rules tip es)

include h

theorem Steps.run : Entry.run rules tip (es.map Entry.block) = .ok es := by
  induction es generalizing tip with
  | nil => rfl
  | cons e es ih =>
    rw [map_cons, Entry.run, h.1.next, ok_bind, ih h.2]
    rfl

/-- The entries of a chain are determined by its blocks. -/
theorem Steps.unique (h' : Steps rules tip es')
    (hblocks : es.map Entry.block = es'.map Entry.block) : es = es' := by
  have hrun := h.run
  rw [hblocks, h'.run] at hrun
  exact (Except.ok.inj hrun).symm

/-- The tip is as many blocks above. -/
theorem Steps.tip_height : (tipOf tip es).height = tip.height + es.length := by
  induction es generalizing tip with
  | nil => rfl
  | cons e es ih =>
    rw [tipOf_cons, ih h.2, Entry.tip_height, h.1.height, length_cons]
    omega

/-- The trees along the blocks of some entries, and one block more. -/
theorem Steps.treesAlong_concat (pool : Pool) (commitments : List Word) :
    treesAlong (tip.trees pool)
        ((es.map Entry.block).map (fun b => b.block.noteCommitments pool) ++ [commitments]) =
      (statesOf tip true es).map (fun t => t.trees pool) ++
        [((tipOf tip es).trees pool).grow commitments] := by
  induction es generalizing tip with
  | nil => rfl
  | cons e es ih =>
    have htail := ih h.2
    rw [map_cons, map_cons, cons_append, treesAlong, ← h.1.trees_eq]
    have hstates : statesOf tip true (e :: es) = tip :: statesOf e.tip true es := rfl
    rw [hstates, tipOf_cons, map_cons, cons_append, ← htail]
    rfl

/-- The trees of the later blocks are among those of all blocks. -/
theorem Steps.treesAlong_subset (pool : Pool) {rest : List (List Word)}
    {t : NoteCommitmentTree} (ht : t ∈ treesAlong ((tipOf tip es).trees pool) rest) :
    t ∈ treesAlong (tip.trees pool)
      ((es.map Entry.block).map (fun b => b.block.noteCommitments pool) ++ rest) := by
  induction es generalizing tip with
  | nil => exact ht
  | cons e es ih =>
    rw [map_cons, map_cons, cons_append, treesAlong, ← h.1.trees_eq]
    exact mem_cons_of_mem _ (ih h.2 ht)

end

theorem treesAlong_init {tree t : NoteCommitmentTree} {css css' : List (List Word)}
    (ht : t ∈ treesAlong tree css) : t ∈ treesAlong tree (css ++ css') := by
  induction css generalizing tree with
  | nil =>
    rw [mem_singleton.mp ht]
    cases css' <;> exact mem_cons_self
  | cons cs css ih =>
    rcases mem_cons.mp ht with rfl | ht
    · exact mem_cons_self
    · exact mem_cons_of_mem _ (ih ht)

theorem ValidBlocks.heights_append (h : ValidBlocks rules tip (bs ++ bs')) :
    bs.map (fun b => b.height) = List.range' (tip.height + 1) bs.length ∧
      bs'.map (fun b => b.height) = List.range' (tip.height + 1 + bs.length) bs'.length := by
  have hheights := h.heights
  rw [map_append, length_append, ← List.range'_append_1] at hheights
  exact append_inj hheights (by simp)

theorem ValidBlocks.init (h : ValidBlocks rules tip (bs ++ bs')) : ValidBlocks rules tip bs where
  heights := h.heights_append.1
  collisionFree := by
    intro pool
    apply (h.collisionFree pool).mono
    intro t ht
    rw [map_append]
    exact treesAlong_init ht

/-- The later blocks follow the last one of the earlier blocks. -/
theorem ValidBlocks.later (h : ValidBlocks rules tip (es.map Entry.block ++ bs'))
    (hsteps : Steps rules tip es) : ValidBlocks rules (tipOf tip es) bs' where
  heights := by
    rw [h.heights_append.2, hsteps.tip_height, length_map]
    congr 1
    omega
  collisionFree := by
    intro pool
    apply (h.collisionFree pool).mono
    intro t ht
    rw [map_append]
    exact hsteps.treesAlong_subset pool ht

theorem Chain.build_concat :
    Chain.build rules tip (bs ++ [b]) = Chain.build rules tip bs >>= fun c => c.push rules b := by
  unfold Chain.build Chain.pushAll
  cases Chain.new rules tip with
  | error p => rfl
  | ok c => simp [mapErr]

/-- What a push needs to know of the last block. -/
theorem ValidBlocks.last (h : ValidBlocks rules tip (es.map Entry.block ++ [b]))
    (hsteps : Steps rules tip es) :
    b.height = (tipOf tip es).height + 1 ∧
      ∀ pool, rules.treeHash.CollisionFree pool
        ((statesOf tip true es).map (fun t => t.trees pool) ++
          [((tipOf tip es).trees pool).grow (b.block.noteCommitments pool)]) := by
  constructor
  · have hlast := h.heights_append.2
    simp only [map_cons, map_nil, length_singleton, List.range'_one, List.cons.injEq,
      and_true, length_map] at hlast
    rw [hsteps.tip_height]
    omega
  · intro pool
    rw [← hsteps.treesAlong_concat pool]
    have hfree := h.collisionFree pool
    rw [map_append] at hfree
    exact hfree

/-- Run lemma: a chain represents the blocks that it is built of. -/
theorem Chain.build_represents (hvalid : ValidBlocks rules tip bs)
    (hbuild : Chain.build rules tip bs = .ok c) :
    ∃ es, es.map Entry.block = bs ∧ c.Represents rules tip true es := by
  induction bs using List.reverseRecOn generalizing c with
  | nil =>
    obtain ⟨c₀, hnew, hrep⟩ := Represents.new rules tip
    unfold Chain.build at hbuild
    rw [hnew] at hbuild
    cases hbuild
    exact ⟨[], rfl, hrep⟩
  | append_singleton bs b ih =>
    rw [build_concat] at hbuild
    obtain ⟨c₁, hbuild, hpush⟩ := of_bind hbuild
    obtain ⟨es, hes, hrep⟩ := ih hvalid.init hbuild
    subst hes
    obtain ⟨hheight, hfree⟩ := hvalid.last hrep.steps
    obtain ⟨e, hnext, _, hrep'⟩ := hrep.push (.inl rfl) hheight hfree hpush
    obtain rfl := (Entry.next_eq_ok.mp hnext).1
    exact ⟨es ++ [e], by rw [map_append]; rfl, hrep'⟩

end Runs

/-! ## Sample blocks -/

/-- Rules without history tree, in which the lock script of an output is its
address. -/
def sampleRules : Rules Unit where
  address := fun output => some output.lockScript
  treeHash := ⟨fun _ tree => .fill 32 (UInt8.ofNat tree.leaves.length), fun _ _ => .fill 32 0⟩
  pushHistory := fun _ _ _ _ _ => .ok ()
  serializedSize := fun _ => 1000

def smallValue : Amount .nonNegative := ⟨5000, by decide, by decide⟩

/-- A finalized tip with one transparent output. -/
def sampleTip : TipState Unit where
  height := 10
  trees := fun _ => ⟨[]⟩
  history := ()
  valuePools := .fromTransparentAmount smallValue

def sampleTransaction (id : UInt8) (inputs : List Input) (outputs : List Output) : Transaction where
  hash := .fill 32 id
  version := 5
  inputs
  outputs
  sproutBundle := none
  saplingBundle := none
  orchardBundle := none
  ironwoodBundle := none

/-- A block on top of the block with the identifier before its own. -/
def sampleVerified (id : UInt8) (height : Nat) (transactions : List Transaction)
    (spent : HashMap OutPoint OrderedUtxo) : ContextuallyVerifiedBlock :=
  let block : Block := ⟨.fill 32 id, .fill 32 (id - 1), 1,
    sampleTransaction id [.coinbase height] [] :: transactions⟩
  { block
    height
    height_eq := rfl
    spentOutputs := newOrderedOutputs block height ∪ spent
    chainValuePoolChange := .zero _ }

/-- A block with a coinbase transaction only. -/
def emptyBlock (id : UInt8) (height : Nat) : ContextuallyVerifiedBlock :=
  sampleVerified id height [] ∅

/-- The finalized output belongs to the first address, which sends it to
itself and then to a second address. -/
def selfTransfer (id : UInt8) (height : Nat) : ContextuallyVerifiedBlock :=
  let outpoint : OutPoint := ⟨.fill 32 200, 0⟩
  let utxo : OrderedUtxo := ⟨⟨⟨smallValue, [1]⟩, 5, false⟩, 1⟩
  sampleVerified id height
    [sampleTransaction 100 [.prevOut outpoint] [⟨smallValue, [1]⟩],
      sampleTransaction 101 [.prevOut ⟨.fill 32 100, 0⟩] [⟨smallValue, [2]⟩]]
    ((∅ : HashMap OutPoint OrderedUtxo).insert outpoint utxo)

/-- Blocks without shielded data follow the tip if their heights do. -/
theorem sampleBlocks_valid (hheights : bs.map (fun b => b.height) = List.range' 11 bs.length)
    (hempty : ∀ b ∈ bs, ∀ pool ∈ Pool.all, b.block.noteCommitments pool = []) :
    ValidBlocks sampleRules sampleTip bs where
  heights := hheights
  collisionFree := by
    have hall : ∀ (css : List (List Word)), (∀ cs ∈ css, cs = []) →
        ∀ t ∈ treesAlong ⟨[]⟩ css, t = ⟨[]⟩ := by
      intro css
      induction css with
      | nil => intro _ t ht; exact mem_singleton.mp ht
      | cons cs css ih =>
        intro hcss t ht
        obtain rfl := hcss cs mem_cons_self
        rcases mem_cons.mp ht with rfl | ht
        · rfl
        · exact ih (fun cs' hcs' => hcss cs' (mem_cons_of_mem _ hcs')) t ht
    intro pool t ht t' ht' _
    have hcss : ∀ cs ∈ bs.map (fun b => b.block.noteCommitments pool), cs = [] := by
      intro cs hcs
      obtain ⟨b, hb, rfl⟩ := mem_map.mp hcs
      exact hempty b hb pool pool.mem_all
    rw [hall _ hcss t ht, hall _ hcss t' ht']

/-! ## Blocks off the tip -/

section Tip

variable {rules : Rules H} {tip : TipState H} {b : ContextuallyVerifiedBlock} {c c' : Chain H}

/-- A prefix of a built chain is built. -/
theorem Chain.build_prefix {bs' : List ContextuallyVerifiedBlock}
    (hbuild : Chain.build rules tip (bs ++ bs') = .ok c) :
    ∃ c₀, Chain.build rules tip bs = .ok c₀ := by
  unfold Chain.build at hbuild ⊢
  obtain ⟨c₁, hnew, hbuild⟩ := of_bind hbuild
  rw [Chain.pushAll, foldlM_append, bind_eq_ok] at hbuild
  obtain ⟨c₀, hpush, _⟩ := hbuild
  exact ⟨c₀, by rw [hnew]; exact hpush⟩

/-- `pop_tip` gives back the chain before the push, exactly if that chain
has a block; and a fork is the chain that is built of the blocks up to
its tip. -/
theorem popTip_push (hvalid : ValidBlocks rules tip (bs ++ [b]))
    (hsupply : WithinSupply rules (bs ++ [b])) (hbuild : Chain.build rules tip bs = .ok c)
    (hpush : c.push rules b = .ok c') :
    (c'.popTip rules = .ok c ↔ bs ≠ []) ∧
      ∀ kept t above, bs = kept ++ [t] ++ above →
        ∃ f, Chain.build rules tip (kept ++ [t]) = .ok f ∧ c.fork rules t.hash = .ok (some f) := by
  obtain ⟨es, rfl, hrep⟩ := build_represents hvalid.init hbuild
  have hbuild' : Chain.build rules tip (es.map Entry.block ++ [b]) = .ok c' := by
    rw [build_concat, hbuild]
    exact hpush
  constructor
  · obtain ⟨es', hes', hrep'⟩ := build_represents hvalid hbuild'
    obtain ⟨es₁, last, rfl, hes₁, hlast⟩ := map_eq_append_iff.mp hes'
    obtain ⟨e, rfl, rfl⟩ := map_eq_singleton_iff.mp hlast
    obtain rfl := hrep.steps.unique hrep'.steps.init hes₁.symm
    by_cases hne : es = []
    · subst hne
      have hsingle : c'.Contains rules [e.block] := hrep'.toContains
      rw [hsingle.popTip_single]
      simp
    · rcases hrep'.popTip hne with ⟨_, c₁, hpop, hrep₁⟩ | ⟨hnot, _⟩
      · rw [hpop, hrep₁.unique hrep]
        simpa using hne
      · exact absurd (hsupply.reverts_tip infix_rfl) hnot
  · intro kept t above hsplit
    rw [hsplit] at hbuild
    obtain ⟨f, hf⟩ := build_prefix hbuild
    refine ⟨f, hf, ?_⟩
    obtain ⟨es₁, es₂, rfl, hes₁, rfl⟩ := map_eq_append_iff.mp hsplit
    obtain ⟨esk, last, rfl, rfl, hlast⟩ := map_eq_append_iff.mp hes₁
    obtain ⟨e, rfl, rfl⟩ := map_eq_singleton_iff.mp hlast
    rw [← map_singleton, ← map_append] at hf
    obtain ⟨f', hfork, hrepf'⟩ := hrep.fork hsupply (prefix_append _ _).isInfix
    have hvalid' : ValidBlocks rules tip ((esk ++ [e]).map Entry.block) := by
      have hinit := hvalid.init
      rw [map_append] at hinit
      exact hinit.init
    obtain ⟨esf, hesf, hrepf⟩ := build_represents hvalid' hf
    obtain rfl := hrepf.steps.unique hrepf'.steps hesf
    rw [hfork, hrepf'.unique hrepf]

end Tip

theorem popTip_push_sample :
    ∃ c c' f, Chain.build sampleRules sampleTip
        [emptyBlock 11 11, selfTransfer 12 12] = .ok c ∧
      c.push sampleRules (emptyBlock 13 13) = .ok c' ∧ c'.popTip sampleRules = .ok c ∧
      Chain.build sampleRules sampleTip [emptyBlock 11 11] = .ok f ∧
      c.fork sampleRules (.fill 32 11) = .ok (some f) := by
  obtain ⟨c', hc'⟩ := exists_of_isOk (x := Chain.build sampleRules sampleTip
    ([emptyBlock 11 11, selfTransfer 12 12] ++ [emptyBlock 13 13])) (by decide)
  rw [build_concat, bind_eq_ok] at hc'
  obtain ⟨c, hc, hpush⟩ := hc'
  obtain ⟨hpop, hfork⟩ := popTip_push (sampleBlocks_valid rfl (by decide))
    (withinSupply_of_traffic (by decide)) hc hpush
  obtain ⟨f, hf, hforked⟩ := hfork [] (emptyBlock 11 11) [selfTransfer 12 12] rfl
  exact ⟨c, c', f, hc, hpush, hpop.mpr (by simp), hf, hforked⟩

/-! ## Blocks off the root -/

/-- Some calls of `pop_root`, and what they return. -/
def Chain.popRoots (rules : Rules H) :
    Nat → Chain H → Except Panic (Chain H × List (ContextuallyVerifiedBlock × Treestate H))
  | 0, c => .ok (c, [])
  | k + 1, c => do
    let (popped, b, treestate) ← c.popRoot rules
    let (last, others) ← Chain.popRoots rules k popped
    .ok (last, (b, treestate) :: others)

section Root

variable {rules : Rules H} {tip origin : TipState H} {fresh : Bool} {c : Chain H}
  {es es' : List (Entry H)} {done later : List ContextuallyVerifiedBlock}

/-- Run lemma: the root is popped several times. -/
theorem Chain.Represents.popRoots (hsupply : WithinSupply rules bs)
    (h : c.Represents rules origin fresh (es ++ es'))
    (hblocks : (es ++ es').map Entry.block <:+: bs) :
    ∃ c', Chain.popRoots rules es.length c = .ok (c', es.map fun e => (e.block, e.treestate)) ∧
      c'.Represents rules (tipOf origin es) (fresh && es.isEmpty) es' := by
  induction es generalizing c origin fresh with
  | nil => exact ⟨c, rfl, by simpa using h⟩
  | cons e es ih =>
    rw [cons_append, map_cons] at hblocks
    rcases h.popRoot with ⟨_, popped, hpop, hpopped⟩ | ⟨hnot, _⟩
    · obtain ⟨c', hrest, hc'⟩ := ih hpopped ((suffix_cons _ _).isInfix.trans hblocks)
      refine ⟨c', ?_, by simpa using hc'⟩
      rw [length_cons, Chain.popRoots, hpop, ok_bind]
      dsimp only
      rw [hrest]
      rfl
    · exact absurd (hsupply.reverts_root hblocks) hnot

/-- The later blocks of a chain can be pushed onto a new chain. -/
theorem Chain.exists_build (hsupply : WithinSupply rules bs) (hsteps : Steps rules tip es)
    (hvalid : ValidBlocks rules tip (es.map Entry.block ++ later)) (hblocks : later <:+: bs)
    (hbuild : Chain.build rules tip (es.map Entry.block ++ later) = .ok c) :
    ∃ d, Chain.build rules (tipOf tip es) later = .ok d := by
  induction later using List.reverseRecOn generalizing c with
  | nil =>
    obtain ⟨d, hnew, _⟩ := Represents.new rules (tipOf tip es)
    exact ⟨d, bind_eq_ok.mpr ⟨d, mapErr_eq_ok.mpr hnew, rfl⟩⟩
  | append_singleton later b ih =>
    have hlater := hvalid.later hsteps
    rw [← append_assoc] at hvalid hbuild
    rw [build_concat] at hbuild
    obtain ⟨c₀, hbuild, hpush⟩ := of_bind hbuild
    obtain ⟨d₀, hd₀⟩ := ih hvalid.init ((prefix_append _ _).isInfix.trans hblocks) hbuild
    -- Both chains represent the later entries, one of them after the first ones.
    obtain ⟨all, hall, hrep⟩ := build_represents hvalid.init hbuild
    obtain ⟨es₁, es', rfl, hes₁, rfl⟩ := map_eq_append_iff.mp hall
    obtain rfl := (steps_append.mp hrep.steps).1.unique hsteps hes₁
    obtain ⟨es₂, hes₂, hrep₀⟩ := build_represents hlater.init hd₀
    obtain rfl := hrep₀.steps.unique (steps_append.mp hrep.steps).2 hes₂
    rw [← map_append] at hvalid
    obtain ⟨hheight, hfree⟩ := hvalid.last hrep.steps
    obtain ⟨e, hnext, ⟨updated, hupdated⟩, _⟩ := hrep.push (.inl rfl) hheight hfree hpush
    have hcontains := hrep.toContains
    rw [map_append] at hcontains
    rw [tipOf_append] at hnext
    obtain ⟨updated', hupdated'⟩ := hcontains.updateExceptTrees_mono hrep₀.toContains (by
      rw [hrep.valuePools, hrep₀.valuePools, tipOf_append]) hsupply hblocks hupdated
    obtain ⟨hheight, hfree⟩ := hlater.last hrep₀.steps
    obtain ⟨d, hd, _⟩ := hrep₀.exists_push (.inl rfl) hheight hfree hnext hupdated'
    exact ⟨d, by rw [build_concat, hd₀]; exact hd⟩

/-- Finalizing the blocks `done` of a chain, and one block more, leaves the
chain that starts after `done` without its first block. The popped
blocks come with the states after them. -/
theorem popRoots_rebuild (hvalid : ValidBlocks rules tip (done ++ later))
    (hsupply : WithinSupply rules (done ++ later))
    (hbuild : Chain.build rules tip (done ++ later) = .ok c) (hlater : later ≠ []) :
    ∃ es c' d last, Entry.run rules tip done = .ok es ∧ es.map Entry.block = done ∧
      Chain.popRoots rules done.length c = .ok (c', es.map fun e => (e.block, e.treestate)) ∧
      Chain.build rules (tipOf tip es) later = .ok d ∧
      c'.popRoot rules = .ok last ∧ d.popRoot rules = .ok last := by
  obtain ⟨all, hall, hrep⟩ := build_represents hvalid hbuild
  obtain ⟨es, es', rfl, rfl, rfl⟩ := map_eq_append_iff.mp hall
  have hsteps := steps_append.mp hrep.steps
  obtain ⟨c', hpops, hc'⟩ := hrep.popRoots hsupply (by rw [map_append])
  obtain ⟨d, hd⟩ := exists_build hsupply hsteps.1 hvalid (suffix_append _ _).isInfix hbuild
  obtain ⟨es₁, hes₁, hrepd⟩ := build_represents (hvalid.later hsteps.1) hd
  obtain rfl := hrepd.steps.unique hsteps.2 hes₁
  cases es₁ with
  | nil => exact absurd rfl hlater
  | cons e rest =>
    have hrange := hsupply.reverts_root (suffix_append (es.map Entry.block) _).isInfix
    rcases hc'.popRoot with ⟨_, c₁, hpop, hc₁⟩ | ⟨hnot, _⟩
    · rcases hrepd.popRoot with ⟨_, d₁, hpopd, hd₁⟩ | ⟨hnot, _⟩
      · rw [hc₁.unique hd₁] at hpop
        exact ⟨es, c', d, _, hsteps.1.run, rfl, by rw [length_map]; exact hpops, hd, hpop, hpopd⟩
      · exact absurd hrange hnot
    · exact absurd hrange hnot

end Root

theorem popRoots_rebuild_sample :
    ∃ c c' d last es, Chain.build sampleRules sampleTip
        ([emptyBlock 11 11] ++ [selfTransfer 12 12, emptyBlock 13 13]) = .ok c ∧
      Chain.popRoots sampleRules 1 c = .ok (c', es.map fun e => (e.block, e.treestate)) ∧
      Chain.build sampleRules (tipOf sampleTip es) [selfTransfer 12 12, emptyBlock 13 13] = .ok d ∧
      c'.popRoot sampleRules = .ok last ∧ d.popRoot sampleRules = .ok last := by
  obtain ⟨c, hc⟩ := exists_of_isOk (x := Chain.build sampleRules sampleTip
    ([emptyBlock 11 11] ++ [selfTransfer 12 12, emptyBlock 13 13])) (by decide)
  obtain ⟨es, c', d, last, _, _, hpops, hd, hc', hd'⟩ := popRoots_rebuild
    (sampleBlocks_valid rfl (by decide)) (withinSupply_of_traffic (by decide)) hc (by simp)
  exact ⟨c, c', d, last, es, hc, hpops, hd, hc', hd'⟩

end Wolf.NonFinalized
