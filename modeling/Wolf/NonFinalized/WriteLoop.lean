import Wolf.NonFinalized.Invalidation

/-! # The block write task

`WriteBlockWorkerTask::run`, after the finalized channel has closed: the
loop over the messages of the state service. A message commits a block,
or it is an operator's request to invalidate or to reconsider one.

The loop relies on a best chain in several places. After a commit there
is one, and it is long enough for every block that is finalized. After
an operator's request there may be none, whether the request succeeded
or not, and the update of the channels panics.

* `handle_expects`: the expectations of the loop after every sequence of
  messages, with the exact condition on the next one.
* `finalized_is_final`: the finalized chain only grows.
* `child_not_rejected_for_parent`: the errors that are kept for children
  are never those of a block of some chain.
* `handle_panics`: a request for an unknown block in an empty state. -/

namespace Wolf.NonFinalized

open Ledger List NonFinalizedState

variable {H : Type} {root : ContextuallyVerifiedBlock} {treestate : Treestate H} {rounds : Nat}

/-! ## The loop -/

def maxBlockReorgHeight : Nat := 1000

def parentErrorMapLimit : Nat := 2000

/-- `NonFinalizedWriteMessage`. -/
inductive WriteMessage where
  | commit (b : SemanticallyVerifiedBlock)
  | invalidate (hash : Hash)
  | reconsider (hash : Hash)

/-- The `expect`s of the loop and of `update_latest_chain_channels`. -/
inductive LoopExpect where
  | emptyNonFinalizedState
  | emptyChain
  | noBestChainLen
  | finalizedCommitFailed
  deriving DecidableEq

/-- How the task can stop: with a panic of an operation, or with one of its
own. -/
inductive Halt where
  | operation (p : Panic)
  | expect (e : LoopExpect)
  /-- The bound on the rounds of the inner loop is too small. -/
  | outOfRounds
  deriving DecidableEq

/-- The state of the task. -/
structure Worker (H : Type) where
  system : System H
  parentErrorMap : IndexMap Hash ValidateContextError

/-- `update_latest_chain_channels`: the height of the best tip. -/
def updateLatestChainChannels (s : NonFinalizedState H) : Except LoopExpect Nat := do
  let best ← okOr s.bestChain .emptyNonFinalizedState
  let tip ← okOr best.tipBlock .emptyChain
  .ok tip.height

/-- The loop that finalizes the blocks past the reorg limit, with a bound on
its rounds. -/
def finalizePastReorgLimit (checks : Checks H) : Nat → System H → Except Halt (System H)
  | rounds, t => do
    let length ← okOr t.state.bestChainLen (.expect .noBestChainLen)
    if length ≤ maxBlockReorgHeight then .ok t
    else match rounds with
      | 0 => .error .outOfRounds
      | rounds + 1 => do
        let (s, root, treestate) ← mapErr Halt.operation (t.state.finalize checks)
        let db ← mapErr (fun _ => Halt.expect .finalizedCommitFailed)
          (t.finalized.commitFinalizedDirect root treestate)
        finalizePastReorgLimit checks rounds ⟨s, db⟩

/-- The length of the longest chain: no chain can be finalized more often. -/
def longestChain (s : NonFinalizedState H) : Nat :=
  (s.chainSet.items.map fun c => c.blocks.items.length).foldr max 0

/-- The end of a request of an operator. -/
def finishRequest (w : Worker H) (s : NonFinalizedState H) : Except Halt (Worker H) := do
  let _ ← mapErr Halt.expect (updateLatestChainChannels s)
  .ok { w with system := ⟨s, w.system.finalized⟩ }

/-- A rejected block. -/
def rejectChild (w : Worker H) (b : SemanticallyVerifiedBlock) (e : ValidateContextError) :
    Worker H :=
  { w with parentErrorMap := (w.parentErrorMap.insert b.hash e).limit parentErrorMapLimit }

theorem rejectChild_system (w : Worker H) (b : SemanticallyVerifiedBlock)
    (e : ValidateContextError) : (rejectChild w b e).system = w.system := by
  simp only [rejectChild]

theorem rejectChild_parentErrorMap (w : Worker H) (b : SemanticallyVerifiedBlock)
    (e : ValidateContextError) : (rejectChild w b e).parentErrorMap =
      (w.parentErrorMap.insert b.hash e).limit parentErrorMapLimit := by
  rw [rejectChild]

/-- A committed block. -/
def acceptChild (checks : Checks H) (w : Worker H) (b : SemanticallyVerifiedBlock)
    (s : NonFinalizedState H) : Except Halt (Worker H) := do
  let _ ← mapErr Halt.expect (updateLatestChainChannels s)
  let system ← finalizePastReorgLimit checks (longestChain s) ⟨s, w.system.finalized⟩
  .ok ⟨system, w.parentErrorMap.shiftRemove b.hash⟩

/-- A block that waits to be committed. The children of a rejected block are
rejected with it. -/
def handleChild (checks : Checks H) (w : Worker H) (b : SemanticallyVerifiedBlock) :
    Except Halt (Worker H) :=
  match w.parentErrorMap.get? b.previousBlockHash with
  | some e => .ok (rejectChild w b e)
  | none =>
    match w.system.state.validateAndCommitNonFinalized checks w.system.finalized b with
    | .error (.panicked p) => .error (.operation p)
    | .error (.rejected e) => .ok (rejectChild w b e)
    | .ok s => acceptChild checks w b s

/-- One round of the loop. The reply of an operation does not matter for
the state. -/
def handle (checks : Checks H) (w : Worker H) : WriteMessage → Except Halt (Worker H)
  | .invalidate hash => do
    let result ← mapErr Halt.operation (w.system.state.invalidateBlock checks hash)
    finishRequest w (result.toOption.getD w.system.state)
  | .reconsider hash => do
    let result ← mapErr Halt.operation
      (w.system.state.reconsiderBlock checks w.system.finalized hash)
    finishRequest w (result.toOption.getD w.system.state)
  | .commit b => handleChild checks w b

/-- The hash of a block that is accepted stands for the block. Nothing is
assumed about blocks that are rejected. -/
def WriteMessage.KnownIfAccepted (checks : Checks H) (blockOf : Hash → Block) (w : Worker H) :
    WriteMessage → Prop
  | .commit b => ∀ s, w.system.state.validateAndCommitNonFinalized checks w.system.finalized b =
      .ok s → Known blockOf b
  | _ => True

/-- A message that leaves a chain, in terms of the state before it. An
invalidation leaves one unless there is none, or its block is the root of
the only one. A reconsideration without a chain needs a record above the
finalized tip whose blocks are not rejected. -/
def WriteMessage.LeavesChain (checks : Checks H) (w : Worker H) : WriteMessage → Prop
  | .commit _ => True
  | .invalidate hash => w.system.state.chainSet.items ≠ [] ∧
      ∀ c, w.system.state.chainSet.items = [c] → c.rootHash ≠ some hash
  | .reconsider hash => w.system.state.chainSet.items ≠ [] ∨
      ∃ height root bs,
        (w.system.state.invalidatedBlocks.find? fun entry =>
          (entry.2.head?.map fun b => b.hash) = some hash) = some (height, root :: bs) ∧
        root.previousBlockHash = w.system.finalized.top.hash ∧
        ∀ e, Chain.build checks.toRules w.system.finalized.tipState (root :: bs) ≠
          .error (.rejected e)

/-- Some messages, one after the other. -/
inductive Handles (checks : Checks H) (blockOf : Hash → Block) :
    Worker H → List WriteMessage → Worker H → Prop where
  | refl {w : Worker H} : Handles checks blockOf w [] w
  | step {w w' w'' : Worker H} {messages : List WriteMessage} {message : WriteMessage}
      (hrun : Handles checks blockOf w messages w') (hhandle : handle checks w' message = .ok w'')
      (hknown : message.KnownIfAccepted checks blockOf w') :
      Handles checks blockOf w (messages ++ [message]) w''

section Loop

variable {checks : Checks H} {blockOf : Hash → Block} {s s' : NonFinalizedState H} {t u : System H}
  {w w' : Worker H} {b : SemanticallyVerifiedBlock} {message : WriteMessage} {e : Halt}
  {bound : Nat}

/-! ## The update of the channels -/

/-- Chains have blocks, so a best chain is all that is needed. -/
theorem updateLatestChainChannels_ok (hwell : t.WellFormed checks blockOf)
    (hne : t.state.chainSet.items ≠ []) :
    ∃ height, updateLatestChainChannels t.state = .ok height := by
  obtain ⟨init, best, hbest⟩ := (eq_nil_or_concat' t.state.chainSet.items).resolve_left hne
  have hmem : best ∈ t.state.chainSet := by
    rw [← SortedList.mem_items, hbest]
    exact mem_append_right _ mem_cons_self
  obtain ⟨blocks, tip, htip⟩ := (eq_nil_or_concat best.blocks.items).resolve_left
    (hwell.nonempty best hmem)
  rw [concat_eq_append] at htip
  unfold updateLatestChainChannels NonFinalizedState.bestChain Chain.tipBlock SortedList.last?
  rw [hbest, List.getLast?_concat, okOr_bind, htip, List.getLast?_concat]
  exact ⟨tip.height, rfl⟩

theorem le_longestChain {c : Chain H} (hc : c ∈ s.chainSet) :
    c.blocks.items.length ≤ longestChain s := by
  have hle : ∀ (lengths : List Nat), ∀ n ∈ lengths, n ≤ lengths.foldr max 0 := by
    intro lengths
    induction lengths with
    | nil => exact fun n hn => absurd hn not_mem_nil
    | cons m rest ih =>
      intro n hn
      rcases mem_cons.mp hn with rfl | hn
      · exact Nat.le_max_left _ _
      · exact (ih n hn).trans (Nat.le_max_right _ _)
  exact hle _ _ (mem_map_of_mem hc)

/-! ## The inner loop -/

theorem reinsert_ne_nil {p : Chain H} (h : s.chainSet.items ≠ [] ∨ p.blocks.items ≠ []) :
    (s.reinsert p).chainSet.items ≠ [] := by
  unfold NonFinalizedState.reinsert
  split
  · rename_i hempty
    exact h.resolve_right (not_not.mpr hempty)
  · by_cases habsent : ∀ x ∈ s.chainSet, x.order ≠ p.order
    · exact insertWith_ne_nil (SortedList.mem_insertAbsent.mpr (.inr ⟨rfl, habsent⟩)) rfl
    · push Not at habsent
      obtain ⟨y, hy, _⟩ := habsent
      exact insertWith_ne_nil (SortedList.mem_insertAbsent.mpr (.inl hy)) rfl

theorem finalizeSideChains_ne_nil {hash : Hash} {chains : List (Chain H)}
    (hne : s.chainSet.items ≠ [])
    (h : chains.foldlM (NonFinalizedState.finalizeSideChain checks hash) s = .ok s') :
    s'.chainSet.items ≠ [] := by
  induction chains generalizing s with
  | nil =>
    cases h
    exact hne
  | cons c rest ih =>
    obtain ⟨s₁, hfirst, hrest⟩ := of_bind h
    rcases finalizeSideChain_eq_ok hfirst with rfl | ⟨p, _, _, _, _, rfl⟩
    · exact ih hne hrest
    · exact ih (reinsert_ne_nil (.inl hne)) hrest

/-- A best chain with two blocks is not the last one. -/
theorem finalize_ne_nil {length : Nat} (hwell : t.WellFormed checks blockOf)
    (hlength : t.state.bestChainLen = some length) (hlong : 1 < length)
    (h : t.state.finalize checks = .ok (s', root, treestate)) : s'.chainSet.items ≠ [] := by
  obtain ⟨best, hbest, h⟩ := of_okOr_bind h
  obtain ⟨⟨popped, b, treestate'⟩, hpop, h⟩ := of_bind h
  obtain ⟨kept, hloop, h⟩ := of_bind h
  cases h
  have hmem := SortedList.last?_mem hbest
  obtain ⟨rest, hblocks, _, hrest⟩ := (hwell.attached best hmem).contains.popRoot hpop
  have hpopped : popped.blocks.items ≠ [] := by
    unfold NonFinalizedState.bestChainLen at hlength
    rw [hbest, Option.map_some, Option.some.injEq, hblocks, length_cons] at hlength
    rw [hrest.blocks, ← length_pos_iff]
    omega
  have hkept := finalizeSideChains_ne_nil (reinsert_ne_nil (.inr hpopped)) hloop
  exact hkept

theorem exists_bestChainLen (hne : t.state.chainSet.items ≠ [])
    (hbound : ∀ c ∈ t.state.chainSet, c.blocks.items.length ≤ bound) :
    ∃ length, t.state.bestChainLen = some length ∧ length ≤ bound := by
  cases hbest : t.state.bestChain with
  | none => exact absurd (SortedList.last?_eq_none.mp hbest) hne
  | some best =>
    unfold NonFinalizedState.bestChainLen
    rw [hbest]
    exact ⟨_, rfl, hbound best (SortedList.last?_mem hbest)⟩

/-- The best chain is within the reorg limit. -/
def NonFinalizedState.WithinReorgLimit (s : NonFinalizedState H) : Prop :=
  ∃ length, s.bestChainLen = some length ∧ length ≤ maxBlockReorgHeight

/-- Rule for the inner loop: what a round keeps, the loop keeps. -/
theorem finalizePastReorgLimit_keeps {P : System H → Prop}
    (hround : ∀ t length s root treestate db, P t → t.state.bestChainLen = some length →
      maxBlockReorgHeight < length → t.state.finalize checks = .ok (s, root, treestate) →
      t.finalized.commitFinalizedDirect root treestate = .ok db → P ⟨s, db⟩)
    (ht : P t) (h : finalizePastReorgLimit checks rounds t = .ok u) :
    P u ∧ u.state.WithinReorgLimit := by
  induction rounds generalizing t with
  | zero =>
    obtain ⟨length, hlength, h⟩ := of_okOr_bind h
    split at h
    · cases h
      exact ⟨ht, length, hlength, by assumption⟩
    · cases h
  | succ rounds ih =>
    obtain ⟨length, hlength, h⟩ := of_okOr_bind h
    split at h
    · cases h
      exact ⟨ht, length, hlength, by assumption⟩
    · rename_i hlong
      obtain ⟨⟨s', root, treestate⟩, hfinalize, h⟩ := of_mapErr_bind h
      obtain ⟨db, hdb, h⟩ := of_mapErr_bind h
      exact ih (hround t length s' root treestate db ht hlength (by omega) hfinalize hdb) h

section

variable (hwell : t.WellFormed checks blockOf)

include hwell

/-- The inner loop takes finalization steps. -/
theorem finalizePastReorgLimit_ok (hne : t.state.chainSet.items ≠ [])
    (h : finalizePastReorgLimit checks rounds t = .ok u) : u.WellFormed checks blockOf := by
  refine (finalizePastReorgLimit_keeps
    (P := fun t => t.WellFormed checks blockOf ∧ t.state.chainSet.items ≠ [])
    ?_ ⟨hwell, hne⟩ h).1.1
  intro t length s root treestate db ht hlength hlong hfinalize hdb
  have hlimit : 1 ≤ maxBlockReorgHeight := by decide
  exact ⟨ht.1.finalize hfinalize hdb, finalize_ne_nil ht.1 hlength (by omega) hfinalize⟩

/-- The inner loop finds a best chain in every round, and its rounds
suffice. -/
theorem finalizePastReorgLimit_error (hne : t.state.chainSet.items ≠ [])
    (hbound : ∀ c ∈ t.state.chainSet, c.blocks.items.length ≤ rounds)
    (h : finalizePastReorgLimit checks rounds t = .error e) :
    (∃ p, e = .operation p) ∨ e = .expect .finalizedCommitFailed := by
  induction rounds generalizing t with
  | zero =>
    obtain ⟨length, hlength, hle⟩ := exists_bestChainLen hne hbound
    rw [finalizePastReorgLimit, hlength, okOr_bind, if_pos (by omega)] at h
    cases h
  | succ rounds ih =>
    obtain ⟨length, hlength, hle⟩ := exists_bestChainLen hne hbound
    rw [finalizePastReorgLimit, hlength, okOr_bind] at h
    split at h
    · cases h
    · rcases bind_eq_error.mp h with h | ⟨⟨s', root, treestate⟩, hfinalize, h⟩
      · obtain ⟨p, _, hp⟩ := mapErr_eq_error.mp h
        exact .inl ⟨p, hp.symm⟩
      · rw [mapErr_eq_ok] at hfinalize
        rcases bind_eq_error.mp h with h | ⟨db, hdb, h⟩
        · obtain ⟨_, _, he⟩ := mapErr_eq_error.mp h
          exact .inr he.symm
        · rw [mapErr_eq_ok] at hdb
          have hlimit : 1 ≤ maxBlockReorgHeight := by decide
          refine ih (hwell.finalize hfinalize hdb)
            (finalize_ne_nil hwell hlength (by omega) hfinalize) ?_ h
          -- Every chain gets shorter.
          intro c hc
          obtain ⟨_, _, _, hchains⟩ := finalize_eq_ok hfinalize
          obtain ⟨c₀, hc₀, b, _, hpop, _⟩ := hchains c hc
          obtain ⟨rest, hblocks, _, hrest⟩ := (hwell.attached c₀ hc₀).contains.popRoot hpop
          have hlength := hbound c₀ hc₀
          rw [hblocks, length_cons, ← hrest.blocks] at hlength
          omega

/-! ## Messages -/

/-- A commit leaves a chain. -/
theorem commit_ne_nil (hknown : Known blockOf b)
    (hcommit : t.state.validateAndCommitNonFinalized checks t.finalized b = .ok s) :
    System.WellFormed checks blockOf ⟨s, t.finalized⟩ ∧ s.chainSet.items ≠ [] := by
  have hstep : Step checks blockOf t (.commit b) ⟨s, t.finalized⟩ := .commit hknown hcommit
  refine ⟨hstep.wellFormed hwell, ?_⟩
  cases hstep.spec hwell with
  | commit hknown' hop hspec hkeep => exact StepSpec.commit_ne_nil hwell hspec hkeep

end

/-! ## Requests -/

/-- A request that returns leaves a chain, be it successful or not. -/
def LeavesItems {ε : Type} (s : NonFinalizedState H)
    (request : Except Panic (Except ε (NonFinalizedState H))) : Prop :=
  ∀ result, request = .ok result → (result.toOption.getD s).chainSet.items ≠ []

/-- The root of the only chain takes the chain with it. -/
theorem invalidateBlock_only {hash : Hash} {c : Chain H} (hwell : t.WellFormed checks blockOf)
    (hitems : t.state.chainSet.items = [c]) (hroot : c.rootHash = some hash) :
    ∃ s', t.state.invalidateBlock checks hash = .ok (.ok s') ∧ s'.chainSet.items = [] := by
  have hc : c ∈ t.state.chainSet := by
    rw [← SortedList.mem_items, hitems]
    exact mem_cons_self
  have hcontains := (hwell.attached c hc).contains
  obtain ⟨first, rest, hblocks⟩ := exists_cons_of_ne_nil (hwell.nonempty c hc)
  have hhas : c.containsBlockHash hash = true := by
    rw [hcontains.rootHash, hblocks] at hroot
    rw [hcontains.containsBlockHash, hblocks]
    exact ⟨first, mem_cons_self, Option.some.inj hroot⟩
  have hempty : (t.state.chainSet.erase c.order).items = [] := by
    rw [eq_nil_iff_forall_not_mem]
    intro x hx
    obtain ⟨hx, horder⟩ := SortedList.mem_erase.mp hx
    rw [← SortedList.mem_items, hitems, mem_singleton] at hx
    exact horder (congrArg Chain.order hx)
  refine ⟨{ t.state with
    chainSet := t.state.chainSet.erase c.order
    invalidatedBlocks := (t.state.invalidatedBlocks.insert first.height (first :: rest)).limit
      maxInvalidatedBlocks }, ?_, hempty⟩
  have hfind : (t.state.findChain fun c => c.containsBlockHash hash) = some c := by
    unfold NonFinalizedState.findChain NonFinalizedState.chainIter
    rw [hitems, reverse_singleton]
    exact find?_cons_of_pos (p := fun c : Chain H => c.containsBlockHash hash) hhas
  unfold NonFinalizedState.invalidateBlock
  rw [hfind]
  simp only [hroot, if_true, NonFinalizedState.recordInvalidated, hblocks, head?_cons]
  rfl

theorem invalidateBlock_leaves {hash : Hash} (hwell : t.WellFormed checks blockOf) :
    LeavesItems t.state (t.state.invalidateBlock checks hash) ↔ t.state.chainSet.items ≠ [] ∧
      ∀ c, t.state.chainSet.items = [c] → c.rootHash ≠ some hash := by
  constructor
  · intro hleaves
    constructor
    · intro hempty
      refine hleaves (.error (.blockNotFound hash)) ?_ hempty
      unfold NonFinalizedState.invalidateBlock NonFinalizedState.findChain
        NonFinalizedState.chainIter
      rw [hempty]
      rfl
    · intro c hitems hroot
      obtain ⟨s', hinvalidate, hempty⟩ := invalidateBlock_only hwell hitems hroot
      exact hleaves _ hinvalidate hempty
  · rintro ⟨hne, honly⟩ (e | s') hresult
    · exact hne
    obtain ⟨c, below, first, rest, hc, hspec⟩ := invalidateBlock_spec hwell hresult
    rcases hspec.chains with ⟨rfl, hset⟩ | ⟨hbelow, kept, htrimmed, hkept, hset⟩
    · -- Nothing is left if all chains are the one that is erased.
      intro hempty
      have hall : ∀ x, x ∈ t.state.chainSet ↔ x ∈ [c] := by
        intro x
        rw [mem_singleton]
        refine ⟨fun hx => ?_, fun hx => hx ▸ hc⟩
        by_contra hxc
        have hleft : x ∈ s'.chainSet := by
          rw [hset]
          exact SortedList.mem_erase.mpr ⟨hx, fun hkey => hxc (SortedList.eq_of_key hx hc hkey)⟩
        rw [← SortedList.mem_items, show s'.chainSet.items = [] from hempty] at hleft
        cases hleft
      refine honly c (SortedList.items_eq (pairwise_singleton _ _) hall) ?_
      rw [(hwell.attached c hc).contains.rootHash, hspec.blocks, ← hspec.first_hash]
      rfl
    · obtain ⟨y, hy, hyKeep, _⟩ := hspec.exists_kept hwell hc hbelow htrimmed hkept
      show s'.chainSet.items ≠ []
      rw [hset]
      exact insertWith_ne_nil hy (by rw [hyKeep]; rfl)

/-- A record above the finalized tip is pushed onto a new chain. -/
theorem reconsiderBlock_above {hash : Hash} {height : Nat} {first : ContextuallyVerifiedBlock}
    {bs : List ContextuallyVerifiedBlock}
    (hfind : (t.state.invalidatedBlocks.find? fun entry =>
      (entry.2.head?.map fun b => b.hash) = some hash) = some (height, first :: bs))
    (htop : first.previousBlockHash = t.finalized.top.hash) :
    t.state.reconsiderBlock checks t.finalized hash = splitFault .replayFailed
      ((Chain.build checks.toRules t.finalized.tipState (first :: bs)).map
        (t.state.restore t.finalized height first.previousBlockHash)) := by
  unfold NonFinalizedState.reconsiderBlock NonFinalizedState.reconsiderParent
    NonFinalizedState.replay Chain.build
  rw [hfind]
  simp only [head?_cons, if_pos htop]
  cases Chain.new checks.toRules t.finalized.tipState with
  | error e => rfl
  | ok c =>
    show (splitFault ReconsiderError.replayFailed (foldlM _ c (first :: bs)) >>= _) =
      splitFault ReconsiderError.replayFailed ((c.pushAll checks.toRules (first :: bs)).map _)
    rw [Chain.pushAll]
    rcases foldlM (fun c b => Chain.push checks.toRules c b) c (first :: bs) with
      (e | e) | m <;> rfl

theorem reconsiderBlock_leaves {hash : Hash} (hwell : t.WellFormed checks blockOf) :
    LeavesItems t.state (t.state.reconsiderBlock checks t.finalized hash) ↔
      t.state.chainSet.items ≠ [] ∨ ∃ height root bs,
        (t.state.invalidatedBlocks.find? fun entry =>
          (entry.2.head?.map fun b => b.hash) = some hash) = some (height, root :: bs) ∧
        root.previousBlockHash = t.finalized.top.hash ∧
        ∀ e, Chain.build checks.toRules t.finalized.tipState (root :: bs) ≠
          .error (.rejected e) := by
  constructor
  · intro hleaves
    by_cases hempty : t.state.chainSet.items = []
    swap
    · exact .inl hempty
    -- In the empty state, the request must not fail.
    have hsucceeds : ∀ e, t.state.reconsiderBlock checks t.finalized hash ≠ .ok (.error e) :=
      fun e he => hleaves _ he hempty
    refine .inr ?_
    cases hfind : t.state.invalidatedBlocks.find? fun entry =>
        (entry.2.head?.map fun b => b.hash) = some hash with
    | none =>
      refine absurd ?_ (hsucceeds (.missingInvalidatedBlock hash))
      unfold NonFinalizedState.reconsiderBlock
      rw [hfind]
    | some entry =>
      obtain ⟨height, bs⟩ := entry
      obtain ⟨first, bs, rfl⟩ : ∃ first rest, bs = first :: rest := by
        cases bs with
        | nil => simpa using List.find?_some hfind
        | cons first rest => exact ⟨first, rest, rfl⟩
      by_cases htop : first.previousBlockHash = t.finalized.top.hash
      · refine ⟨height, first, bs, rfl, htop, fun e he => hsucceeds (.replayFailed e) ?_⟩
        rw [reconsiderBlock_above hfind htop, he]
        rfl
      · -- No chain ends in the parent.
        refine absurd ?_ (hsucceeds (.parentChainNotFound hash))
        unfold NonFinalizedState.reconsiderBlock NonFinalizedState.reconsiderParent
          NonFinalizedState.parentChain NonFinalizedState.findChain NonFinalizedState.chainIter
        rw [hfind]
        simp only [head?_cons, if_neg htop, hempty]
        rfl
  · rintro hleaves (e | s') hresult
    swap
    · exact reconsiderBlock_ne_nil hwell hresult
    rcases hleaves with hne | ⟨height, first, bs, hfind, htop, hbuilt⟩
    · exact hne
    · rw [reconsiderBlock_above hfind htop] at hresult
      rcases hbuild : Chain.build checks.toRules t.finalized.tipState (first :: bs) with
        (e' | e') | m
      · exact absurd hbuild (hbuilt e')
      · rw [hbuild] at hresult
        cases hresult
      · rw [hbuild] at hresult
        cases hresult

section Request

variable {ε : Type} {request : Except Panic (Except ε (NonFinalizedState H))}
  (hwell : w.system.WellFormed checks blockOf)
  (hrequest : ∀ s, request = .ok (.ok s) → System.WellFormed checks blockOf ⟨s, w.system.finalized⟩)

include hwell hrequest

theorem requested_wellFormed {result : Except ε (NonFinalizedState H)} (h : request = .ok result) :
    System.WellFormed checks blockOf
      ⟨result.toOption.getD w.system.state, w.system.finalized⟩ := by
  cases result with
  | error e => exact hwell
  | ok s => exact hrequest s h

theorem request_wellFormed
    (h : (mapErr Halt.operation request >>= fun result =>
      finishRequest w (result.toOption.getD w.system.state)) = .ok w') :
    w'.system.WellFormed checks blockOf := by
  obtain ⟨result, hresult, h⟩ := of_mapErr_bind h
  obtain ⟨_, _, h⟩ := of_bind h
  cases h
  exact requested_wellFormed hwell hrequest hresult

/-- A request stops at the update of the channels if it leaves no chain, and
otherwise only at a panic inside of it. -/
theorem request_expects :
    LeavesItems w.system.state request ↔ ∀ e, (mapErr Halt.operation request >>= fun result =>
      finishRequest w (result.toOption.getD w.system.state)) = .error e →
      (∃ p, e = .operation p) ∨ e = .expect .finalizedCommitFailed := by
  constructor
  · intro hleaves e h
    rcases bind_eq_error.mp h with h | ⟨result, hresult, h⟩
    · obtain ⟨p, _, hp⟩ := mapErr_eq_error.mp h
      exact .inl ⟨p, hp.symm⟩
    · rw [mapErr_eq_ok] at hresult
      obtain ⟨height, hheight⟩ := updateLatestChainChannels_ok
        (requested_wellFormed hwell hrequest hresult) (hleaves result hresult)
      unfold finishRequest at h
      rw [hheight] at h
      cases h
  · intro hstops result hresult hempty
    have hnone : updateLatestChainChannels (result.toOption.getD w.system.state) =
        .error .emptyNonFinalizedState := by
      unfold updateLatestChainChannels NonFinalizedState.bestChain
      rw [SortedList.last?_eq_none.mpr hempty]
      rfl
    rcases hstops (.expect .emptyNonFinalizedState) (by
      rw [hresult, mapErr_ok, ok_bind, finishRequest, hnone]
      rfl) with ⟨p, hp⟩ | hp
    · cases hp
    · cases hp

end Request

/-- Inversion of a commit that returns. -/
theorem handle_commit (h : handle checks w (.commit b) = .ok w') :
    (∃ e, w' = rejectChild w b e) ∨ ∃ s rounds,
      w.system.state.validateAndCommitNonFinalized checks w.system.finalized b = .ok s ∧
      finalizePastReorgLimit checks rounds ⟨s, w.system.finalized⟩ = .ok w'.system ∧
      w'.parentErrorMap = w.parentErrorMap.shiftRemove b.hash := by
  unfold handle handleChild at h
  dsimp only at h
  split at h
  · exact .inl ⟨_, (Except.ok.inj h).symm⟩
  · split at h
    · cases h
    · exact .inl ⟨_, (Except.ok.inj h).symm⟩
    · rename_i s hcommit
      obtain ⟨_, _, h⟩ := of_bind h
      obtain ⟨system, hloop, h⟩ := of_bind h
      cases h
      exact .inr ⟨s, _, hcommit, hloop, rfl⟩

/-- Step lemma. -/
theorem handle_wellFormed (hwell : w.system.WellFormed checks blockOf)
    (hknown : message.KnownIfAccepted checks blockOf w) (h : handle checks w message = .ok w') :
    w'.system.WellFormed checks blockOf := by
  cases message with
  | invalidate hash => exact request_wellFormed hwell (fun _ => hwell.invalidateBlock) h
  | reconsider hash => exact request_wellFormed hwell (fun _ => hwell.reconsiderBlock) h
  | commit b =>
    rcases handle_commit h with ⟨e, rfl⟩ | ⟨s, rounds, hcommit, hloop, _⟩
    · rw [rejectChild_system]
      exact hwell
    · obtain ⟨hs, hne⟩ := commit_ne_nil hwell (hknown s hcommit) hcommit
      exact finalizePastReorgLimit_ok hs hne hloop

/-- Run lemma. -/
theorem Handles.wellFormed {messages : List WriteMessage}
    (hwell : w.system.WellFormed checks blockOf) (hrun : Handles checks blockOf w messages w') :
    w'.system.WellFormed checks blockOf := by
  induction hrun with
  | refl => exact hwell
  | step _ hhandle hknown ih => exact handle_wellFormed ih hknown hhandle

/-- In every sequence of messages, the loop only stops at a panic inside of
an operation or at a failed commit to the database if, and only if, the
next message leaves a chain. -/
theorem handle_expects {start : System H} {ops : List Operation} {messages : List WriteMessage}
    (hstart : start.Initial blockOf) (hrestored : Reaches checks blockOf start ops t)
    (hrun : Handles checks blockOf ⟨t, []⟩ messages w)
    (hknown : message.KnownIfAccepted checks blockOf w) :
    message.LeavesChain checks w ↔ ∀ e, handle checks w message = .error e →
      (∃ p, e = .operation p) ∨ e = .expect .finalizedCommitFailed := by
  have hwell : w.system.WellFormed checks blockOf :=
    hrun.wellFormed (hrestored.wellFormed hstart.wellFormed)
  cases message with
  | invalidate hash =>
    exact (invalidateBlock_leaves hwell).symm.trans
      (request_expects hwell fun _ => hwell.invalidateBlock)
  | reconsider hash =>
    exact (reconsiderBlock_leaves hwell).symm.trans
      (request_expects hwell fun _ => hwell.reconsiderBlock)
  | commit b =>
    refine ⟨fun _ e h => ?_, fun _ => trivial⟩
    unfold handle handleChild at h
    dsimp only at h
    split at h
    · cases h
    · split at h
      · cases h
        exact .inl ⟨_, rfl⟩
      · cases h
      · rename_i s hcommit
        obtain ⟨hs, hne⟩ := commit_ne_nil hwell (hknown s hcommit) hcommit
        obtain ⟨height, hheight⟩ := updateLatestChainChannels_ok hs hne
        unfold acceptChild at h
        rw [hheight, mapErr_ok, ok_bind] at h
        rcases bind_eq_error.mp h with h | ⟨system, _, h⟩
        · exact finalizePastReorgLimit_error hs hne (fun c hc => le_longestChain hc) h
        · cases h

/-! ## Finality -/

/-- Step lemma. -/
theorem handle_finalized (h : handle checks w message = .ok w') :
    w.system.finalized.blocks <+: w'.system.finalized.blocks ∧
      ∀ b, message = .commit b → w'.system = w.system ∨ w'.system.state.WithinReorgLimit := by
  cases message with
  | invalidate hash | reconsider hash =>
    obtain ⟨result, _, h⟩ := of_bind h
    obtain ⟨_, _, h⟩ := of_bind h
    cases h
    exact ⟨prefix_refl _, fun b hb => by cases hb⟩
  | commit b =>
    rcases handle_commit h with ⟨e, rfl⟩ | ⟨s, rounds, _, hloop, _⟩
    · rw [rejectChild_system]
      exact ⟨prefix_refl _, fun _ _ => .inl rfl⟩
    · refine (finalizePastReorgLimit_keeps (t := ⟨s, w.system.finalized⟩)
        (P := fun t => w.system.finalized.blocks <+: t.finalized.blocks) ?_ (prefix_refl _)
        hloop).imp_right fun hlimit _ _ => .inr hlimit
      -- A round puts one block on top.
      intro _ _ _ _ _ db ht _ _ _ hdb
      show _ <+: db.lower ++ [db.top]
      rw [(ZebraDb.commitFinalizedDirect_eq_ok hdb).2.1]
      exact ht.trans (prefix_append _ _)

/-- Whatever is committed, invalidated and reconsidered, the finalized chain
only grows at its end, every chain starts at its end, and a commit that
is accepted leaves a best chain within the reorg limit. -/
theorem finalized_is_final {start : System H} {ops : List Operation}
    {before after : List WriteMessage} (hstart : start.Initial blockOf)
    (hrestored : Reaches checks blockOf start ops t)
    (hbefore : Handles checks blockOf ⟨t, []⟩ before w)
    (hafter : Handles checks blockOf w after w') :
    w.system.finalized.blocks <+: w'.system.finalized.blocks ∧
      (∀ c ∈ w'.system.state.chainSet, Linked w'.system.finalized.top c.blocks.items) ∧
      ∀ b w'', handle checks w' (.commit b) = .ok w'' →
        w''.system = w'.system ∨ w''.system.state.WithinReorgLimit := by
  have hwell : w'.system.WellFormed checks blockOf :=
    hafter.wellFormed (hbefore.wellFormed (hrestored.wellFormed hstart.wellFormed))
  refine ⟨?_, fun c hc => (hwell.attached c hc).linked,
    fun b w'' h => (handle_finalized h).2 b rfl⟩
  clear hwell
  induction hafter with
  | refl => exact prefix_refl _
  | step _ hhandle _ ih => exact ih.trans (handle_finalized hhandle).1

end Loop

/-! ## Rejected parents -/

/-- Some chain or some invalidation record has the block. -/
def NonFinalizedState.Has (s : NonFinalizedState H) (hash : Hash) : Prop :=
  s.HoldsBlock hash ∨ s.isInvalidated hash = true

/-- A block is only committed while no chain and no record has it: the state
service sends no hash a second time unless the block was rejected. -/
def WriteMessage.New (s : NonFinalizedState H) : WriteMessage → Prop
  | .commit b => ¬ s.Has b.hash
  | _ => True

/-- Messages of the state service, one after the other. -/
inductive Delivers (checks : Checks H) : Worker H → List WriteMessage → Worker H → Prop where
  | refl {w : Worker H} : Delivers checks w [] w
  | step {w w' w'' : Worker H} {messages : List WriteMessage} {message : WriteMessage}
      (hrun : Delivers checks w messages w') (hnew : message.New w'.system.state)
      (hhandle : handle checks w' message = .ok w'') :
      Delivers checks w (messages ++ [message]) w''

/-- The rejected blocks are in no chain and in no record. -/
structure Worker.ErrorsApart (w : Worker H) : Prop where
  apart : ∀ entry ∈ w.parentErrorMap, ¬ w.system.state.Has entry.1
  length : w.parentErrorMap.length ≤ parentErrorMapLimit

section Parents

variable {checks : Checks H} {s s' : NonFinalizedState H} {db : ZebraDb H} {w w' : Worker H}
  {hash x : Hash} {b : SemanticallyVerifiedBlock}

theorem invalidateBlock_has (hinvalidate : s.invalidateBlock checks x = .ok (.ok s'))
    (h : s'.Has hash) : s.Has hash := by
  rcases h with h | h
  · exact .inl (invalidateBlock_holdsBlock hinvalidate h)
  · obtain ⟨c, blocks, _, hfind, _, hrecords, hcases⟩ :=
      invalidateBlock_eq_ok hinvalidate
    rw [isInvalidated_iff, hrecords] at h
    obtain ⟨entry, hentry, b, hb, hhash⟩ := h
    rcases IndexMap.mem_insert (IndexMap.limit_subset hentry) with rfl | hentry
    · -- The new record has blocks of the chain.
      have hsubset : blocks ⊆ c.blocks.items := by
        rcases hcases with ⟨_, rfl, _⟩ | ⟨_, _, _, _, _, rfl, _⟩
        · exact Subset.refl _
        · exact filter_sublist.subset
      exact .inl ⟨c, (findChain_eq_some hfind).1, b, hsubset hb, hhash⟩
    · exact .inr (isInvalidated_iff.mpr ⟨entry, hentry, b, hb, hhash⟩)

theorem pushAll_blocks {p m : Chain H} {b : ContextuallyVerifiedBlock}
    {blocks : List ContextuallyVerifiedBlock}
    (h : blocks.foldlM (fun c b => c.push checks.toRules b) p = .ok m)
    (hb : b ∈ m.blocks.items) : b ∈ p.blocks.items ∨ b ∈ blocks := by
  induction blocks generalizing p with
  | nil =>
    cases h
    exact .inl hb
  | cons b₀ rest ih =>
    obtain ⟨p', hpush, h⟩ := of_bind h
    rcases ih h with hb | hb
    · rw [Chain.push_blocks hpush] at hb
      rcases SortedList.mem_insert.mp hb with rfl | ⟨hb, _⟩
      · exact .inr mem_cons_self
      · exact .inl hb
    · exact .inr (mem_cons_of_mem _ hb)

theorem reconsiderBlock_has (hreconsider : s.reconsiderBlock checks db x = .ok (.ok s'))
    (h : s'.Has hash) : s.Has hash := by
  obtain ⟨height, root, blocks, p, m, hrecord, _, hsource, hpush, rfl⟩ :=
    reconsiderBlock_eq_ok hreconsider
  rcases h with h | h
  · rcases holdsBlock_insertWith h with h | ⟨b, hb, rfl⟩
    · exact .inl h
    · rcases pushAll_blocks hpush hb with hb | hb
      · exact .inl (holdsBlock_of_source (hsource.imp_left And.right) hb)
      · exact .inr (isInvalidated_iff.mpr ⟨_, hrecord, b, hb, rfl⟩)
  · obtain ⟨entry, hentry, hb⟩ := isInvalidated_iff.mp h
    have hkept : entry ∈ s.invalidatedBlocks :=
      (IndexMap.mem_shiftRemove.mp (mem_of_mem_filter hentry)).1
    exact .inr (isInvalidated_iff.mpr ⟨entry, hkept, hb⟩)

theorem commit_has (hcommit : s.validateAndCommitNonFinalized checks db b = .ok s')
    (h : s'.Has hash) : s.Has hash ∨ b.hash = hash := by
  obtain ⟨_, ⟨_, hcommit⟩ | hcommit⟩ := validateAndCommitNonFinalized_eq_ok hcommit
  · obtain ⟨p, b', m, hnew, haccepted, rfl⟩ := commitNewChain_eq_ok hcommit
    rcases h with h | h
    · exact (haccepted.holdsBlock (q := True) (.inl hnew) h).imp_left .inl
    · exact .inl (.inr h)
  · obtain ⟨c, hc, p, b', m, htrimmed, htip, haccepted, rfl⟩ :=
      commitBlock_eq_ok hcommit
    rcases h with h | h
    · exact (haccepted.holdsBlock (.inr ⟨c, hc, htrimmed, htip⟩) h).imp_left .inl
    · exact .inl (.inr h)

theorem finalizePastReorgLimit_has {t u : System H}
    (h : finalizePastReorgLimit checks rounds t = .ok u) (hhas : u.state.Has hash) :
    t.state.Has hash := by
  refine (finalizePastReorgLimit_keeps (P := fun u => u.state.Has hash → t.state.Has hash)
    ?_ id h).1 hhas
  intro _ _ s root treestate db ht _ _ hfinalize _ hs
  refine ht (hs.imp (finalize_holdsBlock hfinalize) ?_)
  obtain ⟨_, hrecords, _⟩ := finalize_eq_ok hfinalize
  rw [isInvalidated_iff, isInvalidated_iff, hrecords]
  rintro ⟨entry, hentry, hb⟩
  exact ⟨entry, mem_of_mem_filter hentry, hb⟩

theorem Worker.ErrorsApart.rejectChild {e : ValidateContextError} (h : w.ErrorsApart)
    (hnew : ¬ w.system.state.Has b.hash) : (NonFinalized.rejectChild w b e).ErrorsApart := by
  constructor
  · intro entry hentry
    rw [rejectChild_parentErrorMap] at hentry
    rcases IndexMap.mem_insert (IndexMap.limit_subset hentry) with rfl | hentry
    · exact hnew
    · exact h.apart entry hentry
  · rw [rejectChild_parentErrorMap]
    exact IndexMap.limit_length

/-- A request brings back no block that was rejected. -/
theorem request_errorsApart {ε : Type} {request : Except Panic (Except ε (NonFinalizedState H))}
    (h : w.ErrorsApart)
    (hhas : ∀ s hash, request = .ok (.ok s) → s.Has hash → w.system.state.Has hash)
    (hrequest : (mapErr Halt.operation request >>= fun result =>
      finishRequest w (result.toOption.getD w.system.state)) = .ok w') : w'.ErrorsApart := by
  obtain ⟨result, hresult, hrequest⟩ := of_mapErr_bind hrequest
  obtain ⟨_, _, hrequest⟩ := of_bind hrequest
  cases hrequest
  refine ⟨fun entry hentry hin => h.apart entry hentry ?_, h.length⟩
  cases result with
  | error e => exact hin
  | ok s => exact hhas s entry.1 hresult hin

/-- Step lemma. -/
theorem handle_errorsApart {message : WriteMessage} (h : w.ErrorsApart)
    (hnew : message.New w.system.state) (hhandle : handle checks w message = .ok w') :
    w'.ErrorsApart := by
  cases message with
  | invalidate x => exact request_errorsApart h (fun _ _ => invalidateBlock_has) hhandle
  | reconsider x => exact request_errorsApart h (fun _ _ => reconsiderBlock_has) hhandle
  | commit b =>
    rcases handle_commit hhandle with ⟨e, rfl⟩ | ⟨s, rounds, hcommit, hloop, herrors⟩
    · exact h.rejectChild hnew
    · constructor
      · intro entry hentry hin
        rw [herrors] at hentry
        obtain ⟨hentry, hne⟩ := IndexMap.mem_shiftRemove.mp hentry
        rcases commit_has hcommit (finalizePastReorgLimit_has hloop hin) with hin | heq
        · exact h.apart entry hentry hin
        · exact hne heq.symm
      · rw [herrors]
        exact (length_filter_le _ _).trans h.length

/-- From any system on, the rejected blocks are in no chain. So a block
whose parent is in some chain is not rejected for its parent. -/
theorem child_not_rejected_for_parent {start : System H} {messages : List WriteMessage}
    (hrun : Delivers checks ⟨start, []⟩ messages w) :
    (∀ entry ∈ w.parentErrorMap, ¬ w.system.state.HoldsBlock entry.1) ∧
    (∀ parentHash, w.system.state.HoldsBlock parentHash →
      w.parentErrorMap.get? parentHash = none) ∧
    w.parentErrorMap.length ≤ parentErrorMapLimit := by
  have hinv : w.ErrorsApart := by
    induction hrun with
    | refl => exact ⟨fun entry hentry => absurd hentry not_mem_nil, Nat.zero_le _⟩
    | step _ hnew hhandle ih => exact handle_errorsApart ih hnew hhandle
  refine ⟨fun entry hentry hin => hinv.apart entry hentry (.inl hin), ?_, hinv.length⟩
  intro parentHash hparent
  apply IndexMap.get?_eq_none
  rintro entry hentry rfl
  exact hinv.apart entry hentry (.inl hparent)

end Parents

/-! ## Samples -/

/-- A block is committed to the empty state, and another one is invalidated
that is not its root. -/
theorem handle_expects_sample :
    ∃ w, handle sampleChecks ⟨sampleSystem, []⟩ (.commit transferBlock) =
        .ok w ∧
      (WriteMessage.invalidate (.fill 32 99)).LeavesChain sampleChecks w ∧
      ∀ e, handle sampleChecks w (.invalidate (.fill 32 99)) = .error e →
        (∃ p, e = .operation p) ∨ e = .expect .finalizedCommitFailed := by
  obtain ⟨w, hw⟩ := exists_of_isOk (show (handle sampleChecks ⟨sampleSystem, []⟩
    (.commit transferBlock)).isOk = true by decide +kernel)
  have hother : (match handle sampleChecks ⟨sampleSystem, []⟩
      (.commit transferBlock) with
    | .ok w => !w.system.state.chainSet.items.isEmpty &&
      w.system.state.chainSet.items.all fun c => c.rootHash ≠ some (.fill 32 99)
    | .error _ => false) = true := by decide +kernel
  rw [hw] at hother
  simp only [Bool.and_eq_true, Bool.not_eq_true', isEmpty_eq_false_iff, all_eq_true,
    decide_eq_true_eq] at hother
  have hleaves : (WriteMessage.invalidate (.fill 32 99)).LeavesChain sampleChecks w :=
    ⟨hother.1, fun c hc => hother.2 c (by rw [hc]; exact mem_cons_self)⟩
  have hknown : (WriteMessage.invalidate (.fill 32 99)).KnownIfAccepted sampleChecks
      sampleBlockOf w := trivial
  exact ⟨w, hw, hleaves, (handle_expects sampleSystem_initial Reaches.refl
    (Handles.step Handles.refl hw fun _ _ => rfl) hknown).mp hleaves⟩

/-- Two commits, and then the operator invalidates the second block. -/
theorem finalized_is_final_sample :
    ∃ w w', Handles sampleChecks sampleBlockOf ⟨sampleSystem, []⟩
        [.commit transferBlock, .commit (sampleBlock 12 11 12 [])] w ∧
      handle sampleChecks w (.invalidate (.fill 32 12)) = .ok w' ∧
      w.system.finalized.blocks <+: w'.system.finalized.blocks ∧
      ∀ c ∈ w'.system.state.chainSet, Linked w'.system.finalized.top c.blocks.items := by
  obtain ⟨w', hw'⟩ := exists_of_isOk (show (handle sampleChecks ⟨sampleSystem, []⟩
    (.commit transferBlock) >>= fun w =>
      handle sampleChecks w (.commit (sampleBlock 12 11 12 [])) >>= fun w =>
        handle sampleChecks w (.invalidate (.fill 32 12))).isOk = true by decide +kernel)
  obtain ⟨w₁, hfirst, hw'⟩ := of_bind hw'
  obtain ⟨w, hsecond, hw'⟩ := of_bind hw'
  have hone : Handles sampleChecks sampleBlockOf ⟨sampleSystem, []⟩ [.commit transferBlock] w₁ :=
    Handles.step Handles.refl hfirst fun _ _ => rfl
  have hrun := Handles.step hone hsecond fun _ _ => rfl
  obtain ⟨hfinal, hlinked, _⟩ := finalized_is_final sampleSystem_initial .refl hrun
    (.step .refl hw' trivial)
  exact ⟨w, w', hrun, hw', hfinal, hlinked⟩

/-- A block without a known parent is rejected, and then another one is
committed. -/
theorem child_not_rejected_for_parent_sample :
    ∃ w, Delivers sampleChecks ⟨sampleSystem, []⟩
        [.commit (sampleBlock 12 99 12 []), .commit transferBlock] w ∧
      (∀ entry ∈ w.parentErrorMap, ¬ w.system.state.HoldsBlock entry.1) ∧
      (∀ parentHash, w.system.state.HoldsBlock parentHash →
        w.parentErrorMap.get? parentHash = none) ∧
      w.parentErrorMap.length ≤ parentErrorMapLimit := by
  have hempty : ∀ hash, ¬ sampleSystem.state.Has hash := by
    rintro hash (⟨c, hc, _⟩ | h)
    · cases hc
    · cases h
  let rejected : Worker Unit :=
    ⟨sampleSystem, [((sampleBlock 12 99 12 []).hash, .notReadyToBeCommitted)]⟩
  obtain ⟨w, hw⟩ := exists_of_isOk (show (handle sampleChecks rejected
    (.commit transferBlock)).isOk = true by decide +kernel)
  have hfirst : Delivers sampleChecks ⟨sampleSystem, []⟩
      [.commit (sampleBlock 12 99 12 [])] rejected := .step .refl (hempty _) rfl
  have hrun : Delivers sampleChecks ⟨sampleSystem, []⟩
      [.commit (sampleBlock 12 99 12 []), .commit transferBlock] w :=
    .step hfirst (hempty _) hw
  exact ⟨w, hrun, child_not_rejected_for_parent hrun⟩

/-- Nothing is there to be invalidated, and the task stops. -/
theorem handle_panics :
    sampleSystem.Initial sampleBlockOf ∧
      handle sampleChecks ⟨sampleSystem, []⟩ (.invalidate (.fill 32 99)) =
        .error (.expect .emptyNonFinalizedState) :=
  ⟨sampleSystem_initial, rfl⟩

end Wolf.NonFinalized
