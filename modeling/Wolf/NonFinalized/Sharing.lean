import Wolf.Framework.Shared
import Wolf.NonFinalized.BestChain

/-! # Rejected blocks and shared chains

The chains of `chain_set` are behind `Arc`s, and `push` changes a chain
in place before it can fail. This module models the three operations
that add blocks with the chains in reference-counted cells. What a
failing `push` leaves in its cell is a parameter (`wreck`).

* `commitBlock_refines`, `commitNewChain_refines`,
  `reconsiderBlock_refines`: with the same results as the operations on
  chains as values.
* `rejected_block_changes_nothing`: after an error, the cells of the
  set are what they were. -/

namespace Wolf.NonFinalized

open Exec Ledger List

variable {H : Type}

/-! ## Chains in cells -/

/-- `NonFinalizedState`, with `chain_set` as references in their order. -/
structure SharedState (H : Type) where
  cells : Cells (Chain H)
  chainSet : List Nat
  invalidatedBlocks : IndexMap Nat (List ContextuallyVerifiedBlock)

abbrev SharedM (ε H α : Type) := EStateM ε (SharedState H) α

namespace SharedState

variable {ε α : Type}

/-- `Arc::new`. -/
def newArc (c : Chain H) : SharedM ε H Nat := fun s =>
  .ok s.cells.next { s with cells := s.cells.alloc c }

def unwrapOrClone (a : Nat) : SharedM ε H Nat := fun s =>
  .ok (s.cells.unwrapOrClone a).1 { s with cells := (s.cells.unwrapOrClone a).2 }

/-- A fallible step while a reference is held: an error drops it. -/
def checkHolding (a : Nat) (x : Except ε α) : SharedM ε H α := fun s =>
  match x with
  | .ok v => .ok v s
  | .error e => .error e { s with cells := s.cells.release a }

/-- The set of `insert_with`. -/
def insertArc (cells : Cells (Chain H)) (a : Nat) (keep : Chain H → Bool) (set : List Nat) :
    List Nat :=
  let inserted :=
    if (set.find? fun b => (cells.value b).order = (cells.value a).order).isSome then set
    else SortedList.insertItem (fun b => (cells.value b).order) a set
  let kept := inserted.filter fun b => keep (cells.value b)
  kept.drop (kept.length - maxNonFinalizedChainForks)

/-- `insert_with`: the references that are not in the new set are dropped. -/
def insertWith (a : Nat) (keep : Chain H → Bool) : SharedM ε H Unit := fun s =>
  .ok () { s with
    chainSet := insertArc s.cells a keep s.chainSet
    cells := ((a :: s.chainSet).filter fun b => b ∉ insertArc s.cells a keep s.chainSet).foldl
      Cells.release s.cells }

section Operations

variable (checks : Checks H) (wreck : Chain H → ContextuallyVerifiedBlock → Chain H)
  (db : ZebraDb H)

/-- `push`, in place. -/
def push (a : Nat) (b : ContextuallyVerifiedBlock) : SharedM ε H (Except Fault Unit) := fun s =>
  match (s.cells.value a).push checks.toRules b with
  | .ok c => .ok (.ok ()) { s with cells := s.cells.store a c }
  | .error e => .ok (.error e) { s with cells := s.cells.store a (wreck (s.cells.value a) b) }

def parentChain (parentHash : Hash) : SharedM Fault H Nat := do
  let s ← get
  match s.chainSet.reverse.find? fun a => (s.cells.value a).tipHash = some parentHash with
  | some a => do
    set { s with cells := s.cells.clone a }
    pure a
  | none => do
    let forked ← check (mapErr Fault.panicked
      (NonFinalizedState.firstFork checks parentHash (s.chainSet.reverse.map s.cells.value)))
    let fork ← check (okOr forked (.rejected .notReadyToBeCommitted))
    newArc fork

/-- The results of the three tasks. A panic of `push` is raised before the
others are looked at. -/
def verdict (history : H) (c : Chain H) (b : ContextuallyVerifiedBlock)
    (pushed : Except Fault α) : Except Fault α :=
  match pushed with
  | .error (.panicked p) => .error (.panicked p)
  | result => do
    rejectIf (checks.commitmentValid history b.block = false) (.rejected .invalidBlockCommitment)
    rejectIf (checks.sproutAnchorsKnown db c b.toSemanticallyVerifiedBlock = false)
      (.rejected .unknownAnchor)
    result

def validateAndUpdateParallel (a : Nat) (b : ContextuallyVerifiedBlock) : SharedM Fault H Nat := do
  let s ← get
  let c := s.cells.value a
  let history ← checkHolding a (okOr c.historyTreesByHeight.last? (.panicked .missingHistoryTree))
  let own ← unwrapOrClone a
  let pushed ← push checks wreck own b
  checkHolding own (verdict checks db history.2 c b pushed)
  pure own

/-- The checks of `validate_and_commit` before the block is pushed. -/
def contextualBlock (records : IndexMap Nat (List ContextuallyVerifiedBlock)) (c : Chain H)
    (b : SemanticallyVerifiedBlock) : Except Fault ContextuallyVerifiedBlock := do
  rejectIf ((records.any fun entry => entry.2.any fun b' => b'.hash = b.hash) = true)
    (.rejected (.blockPreviouslyInvalidated b.hash))
  let spent ← mapErr Fault.rejected (transparentSpend checks db c b)
  rejectIf (checks.anchorsKnown db c b = false) (.rejected .unknownAnchor)
  mapErr (fun e => Fault.rejected (.calculateBlockChainValueChange e b.height b.hash
    b.block.transactions.length))
    (ContextuallyVerifiedBlock.withBlockAndSpentUtxos b spent
      (checks.deferredPoolBalanceChange b.height))

def validateAndCommit (a : Nat) (b : SemanticallyVerifiedBlock) : SharedM Fault H Nat := do
  let s ← get
  let contextual ← checkHolding a
    (contextualBlock checks db s.invalidatedBlocks (s.cells.value a) b)
  validateAndUpdateParallel checks wreck db a contextual

def commitBlock (b : SemanticallyVerifiedBlock) : SharedM Fault H Unit := do
  let parent ← parentChain checks b.previousBlockHash
  let modified ← validateAndCommit checks wreck db parent b
  insertWith modified fun c => c.tipHash ≠ some b.previousBlockHash

def commitNewChain (b : SemanticallyVerifiedBlock) : SharedM Fault H Unit := do
  let c ← check (mapErr Fault.panicked (Chain.new checks.toRules db.tipState))
  let a ← newArc c
  let modified ← validateAndCommit checks wreck db a b
  insertWith modified fun _ => true

/-- The errors of `reconsider_block`, beside its panics. -/
abbrev ReconsiderFault := Panic ⊕ NonFinalizedState.ReconsiderError

def ReconsiderFault.ofFault (f : ValidateContextError → NonFinalizedState.ReconsiderError) :
    Fault → ReconsiderFault
  | .rejected e => .inr (f e)
  | .panicked p => .inl p

/-- The chain that reconsidered blocks are pushed onto. -/
def reconsiderParent (hash parentHash : Hash) : SharedM ReconsiderFault H Nat :=
  if parentHash = db.top.hash then do
    let c ← check (mapErr Sum.inl (Chain.new checks.toRules db.tipState))
    newArc c
  else EStateM.adaptExcept (ReconsiderFault.ofFault fun _ => .parentChainNotFound hash)
    (parentChain checks parentHash)

/-- The loop over the reconsidered blocks. -/
def pushAll (own : Nat) : List ContextuallyVerifiedBlock → SharedM ReconsiderFault H Unit
  | [] => pure ()
  | b :: rest => do
    let pushed ← push checks wreck own b
    checkHolding own (mapErr (ReconsiderFault.ofFault .replayFailed) pushed)
    pushAll own rest

def reconsiderBlock (hash : Hash) : SharedM ReconsiderFault H Unit := do
  let s ← get
  let (height, blocks) ← check (okOr (s.invalidatedBlocks.find? fun entry =>
    (entry.2.head?.map fun b => b.hash) = some hash) (.inr (.missingInvalidatedBlock hash)))
  let root ← check (okOr blocks.head? (.inr .invalidatedBlocksEmpty))
  let parent ← reconsiderParent checks db hash root.previousBlockHash
  let own ← unwrapOrClone parent
  pushAll checks wreck own blocks
  modify fun s => { s with
    invalidatedBlocks := (s.invalidatedBlocks.shiftRemove height).filter fun entry =>
      db.top.height ≤ entry.1 }
  insertWith own fun c => c.tipHash ≠ some root.previousBlockHash

end Operations

/-! ## What the cells stand for -/

/-- The references of the set are counted. -/
def Live (s : SharedState H) : Prop :=
  ∀ a ∈ s.chainSet, a < s.cells.next ∧ 0 < s.cells.strong a

/-- The state with the chains as values. -/
structure Abstracts (s : SharedState H) (t : NonFinalizedState H) : Prop where
  chainSet : t.chainSet.items = s.chainSet.map s.cells.value
  invalidatedBlocks : t.invalidatedBlocks = s.invalidatedBlocks

/-- The set, its chains with their counts, and the records. -/
structure Unchanged (s s' : SharedState H) : Prop where
  chainSet : s'.chainSet = s.chainSet
  chains : ∀ a ∈ s.chainSet, s'.cells.value a = s.cells.value a
  strong : ∀ a ∈ s.chainSet, s'.cells.strong a = s.cells.strong a
  invalidatedBlocks : s'.invalidatedBlocks = s.invalidatedBlocks

/-- A step that makes a chain, as a new cell, or fails. -/
inductive Yields (s : SharedState H) :
    EStateM.Result ε (SharedState H) Nat → Except ε (Chain H) → Prop
  | ok (c : Chain H) : Yields s (.ok s.cells.next { s with cells := s.cells.alloc c }) (.ok c)
  | error {e : ε} {s' : SharedState H} (h : s.Unchanged s') : Yields s (.error e s') (.error e)

/-- An operation does on cells what its model does on values. -/
inductive Refines (s : SharedState H) :
    EStateM.Result ε (SharedState H) Unit → Except ε (NonFinalizedState H) → Prop
  | ok {s' : SharedState H} {t' : NonFinalizedState H} (hlive : s'.Live) (h : s'.Abstracts t') :
    Refines s (.ok () s') (.ok t')
  | error {e : ε} {s' : SharedState H} (h : s.Unchanged s') : Refines s (.error e s') (.error e)

variable {s s' s₀ : SharedState H} {t : NonFinalizedState H} {checks : Checks H} {db : ZebraDb H}
  {wreck : Chain H → ContextuallyVerifiedBlock → Chain H} {cells : Cells (Chain H)}

theorem Unchanged.refl (s : SharedState H) : s.Unchanged s :=
  ⟨rfl, fun _ _ => rfl, fun _ _ => rfl, rfl⟩

theorem Abstracts.withRecords (h : s.Abstracts t)
    (f : IndexMap Nat (List ContextuallyVerifiedBlock) →
      IndexMap Nat (List ContextuallyVerifiedBlock)) :
    Abstracts { s with invalidatedBlocks := f s.invalidatedBlocks }
      { t with invalidatedBlocks := f t.invalidatedBlocks } :=
  ⟨h.chainSet, congrArg f h.invalidatedBlocks⟩

theorem Live.unchanged (hlive : s.Live) (h : s.cells.Same cells) :
    s.Unchanged { s with cells } where
  chainSet := rfl
  chains a ha := (h a (hlive a ha).1).1
  strong a ha := (h a (hlive a ha).1).2
  invalidatedBlocks := rfl

/-! ## Insertion -/

theorem map_insertItem {κ β : Type} [LinearOrder κ] (order : β → κ) (f : α → β) (a : α)
    (l : List α) :
    (SortedList.insertItem (fun b => order (f b)) a l).map f
      = SortedList.insertItem order (f a) (l.map f) := by
  induction l with
  | nil => rfl
  | cons b rest ih =>
    simp only [SortedList.insertItem, map_cons]
    split
    · rfl
    · split
      · rfl
      · rw [map_cons, ih]

theorem insertItem_subset {κ : Type} [LinearOrder κ] (order : α → κ) (a : α) (l : List α) :
    SortedList.insertItem order a l ⊆ a :: l := by
  induction l with
  | nil => exact List.Subset.refl _
  | cons b rest ih =>
    intro x hx
    unfold SortedList.insertItem at hx
    split at hx
    · exact hx
    · split at hx
      · exact cons_subset_cons a (subset_cons_self b rest) hx
      · rcases mem_cons.mp hx with rfl | hx
        · simp
        · exact cons_subset_cons a (subset_cons_self b rest) (ih hx)

theorem insertArc_subset (cells : Cells (Chain H)) (a : Nat) (keep : Chain H → Bool)
    (set : List Nat) : insertArc cells a keep set ⊆ a :: set := by
  intro x hx
  have hx := mem_of_mem_filter (mem_of_mem_drop hx)
  split at hx
  · exact mem_cons_of_mem a hx
  · exact insertItem_subset _ a set hx

/-- The set of `insert_with`, as chains. -/
theorem map_insertArc {set : List Nat} (h : t.chainSet.items = set.map cells.value) (a : Nat)
    (keep : Chain H → Bool) :
    (t.insertWith (cells.value a) keep).chainSet.items
      = (insertArc cells a keep set).map cells.value := by
  have hinserted : (t.chainSet.insertAbsent (cells.value a)).items
      = (if (set.find? fun b => (cells.value b).order = (cells.value a).order).isSome then set
        else SortedList.insertItem (fun b => (cells.value b).order) a set).map cells.value := by
    have hfind : (t.chainSet.find? (cells.value a).order).isSome
        = (set.find? fun b => (cells.value b).order = (cells.value a).order).isSome := by
      rw [SortedList.find?, h, List.find?_map, Option.isSome_map]
      rfl
    unfold SortedList.insertAbsent
    rw [hfind]
    split
    · exact h
    · rw [map_insertItem, ← h]
      rfl
  unfold NonFinalizedState.insertWith insertArc
  rw [NonFinalizedState.limitForks_items, map_drop]
  show List.drop ((List.filter keep (t.chainSet.insertAbsent _).items).length - _)
    (List.filter keep (t.chainSet.insertAbsent _).items) = _
  rw [hinserted, filter_map, length_map]
  rfl

theorem foldl_release (dropped : List Nat) (m : Cells (Chain H)) :
    (dropped.foldl Cells.release m).value = m.value ∧
      (dropped.foldl Cells.release m).next = m.next ∧
      ∀ a ∉ dropped, (dropped.foldl Cells.release m).strong a = m.strong a := by
  induction dropped generalizing m with
  | nil => exact ⟨rfl, rfl, fun _ _ => rfl⟩
  | cons b rest ih =>
    obtain ⟨hvalue, hnext, hstrong⟩ := ih (m.release b)
    refine ⟨hvalue, hnext, ?_⟩
    intro a ha
    rw [mem_cons, not_or] at ha
    exact (hstrong a ha.2).trans (Function.update_of_ne ha.1 _ _)

/-- Inserting a new cell is inserting its chain. -/
theorem insertWith_refines (hlive : s.Live) (ht : s.Abstracts t) (c : Chain H)
    (keep : Chain H → Bool) :
    Refines s₀ (insertWith s.cells.next keep { s with cells := s.cells.alloc c } :
      EStateM.Result ε _ _) (.ok (t.insertWith c keep)) := by
  have hold : ∀ a ∈ s.chainSet, (s.cells.alloc c).value a = s.cells.value a := fun a ha =>
    Function.update_of_ne (Nat.ne_of_lt (hlive a ha).1) _ _
  have hnew : (s.cells.alloc c).value s.cells.next = c := Function.update_self ..
  have hset : t.chainSet.items = s.chainSet.map (s.cells.alloc c).value := by
    rw [ht.chainSet]
    exact (map_congr_left hold).symm
  have hitems := map_insertArc hset s.cells.next keep
  rw [hnew] at hitems
  have hsubset := insertArc_subset (s.cells.alloc c) s.cells.next keep s.chainSet
  unfold insertWith
  generalize insertArc (s.cells.alloc c) s.cells.next keep s.chainSet = chainSet at hitems hsubset
  obtain ⟨hvalue, hnext, hstrong⟩ := foldl_release
    ((s.cells.next :: s.chainSet).filter fun b => b ∉ chainSet) (s.cells.alloc c)
  refine .ok ?_ ⟨?_, ht.invalidatedBlocks⟩
  · -- A reference of the new set was not dropped.
    intro a ha
    have hkept : a ∉ (s.cells.next :: s.chainSet).filter fun b => b ∉ chainSet := by
      simp [show a ∈ chainSet from ha]
    rw [hnext, hstrong a hkept]
    rcases mem_cons.mp (hsubset ha) with rfl | hmem
    · exact ⟨Nat.lt_succ_self _, by simp [Cells.alloc]⟩
    · obtain ⟨hlt, hpos⟩ := hlive a hmem
      refine ⟨Nat.lt_succ_of_lt hlt, ?_⟩
      simpa [Cells.alloc, Function.update_of_ne (Nat.ne_of_lt hlt)] using hpos
  · rw [hvalue]
    exact hitems

/-! ## The operations -/

section Steps

variable {v : Chain H} {a : Nat} {m : Cells (Chain H)} {b : ContextuallyVerifiedBlock}

/-- The chain in a cell after `push`. -/
def pushedOr (wrecked : Chain H) : Except Fault (Chain H) → Chain H
  | .ok c => c
  | .error _ => wrecked

/-- `push` on a new cell, with the result of `push` on values. -/
theorem push_alloc :
    (push checks wreck s.cells.next b { s with cells := s.cells.alloc v } :
      EStateM.Result ε _ _)
      = .ok ((fun _ => ()) <$> v.push checks.toRules b)
          { s with cells := s.cells.alloc (pushedOr (wreck v b) (v.push checks.toRules b)) } := by
  have hvalue : (s.cells.alloc v).value s.cells.next = v := Function.update_self ..
  unfold push
  rw [hvalue]
  cases v.push checks.toRules b <;> dsimp only <;> rw [Cells.store_alloc] <;> rfl

/-- A reference to a new cell is dropped on an error. -/
theorem Live.drop_alloc (hlive : s.Live) :
    s.Unchanged { s with cells := (s.cells.alloc v).release s.cells.next } := by
  have hsame := Cells.same_of_alloc (m := s.cells) v v
  rw [Cells.store_alloc] at hsame
  exact hlive.unchanged hsame

theorem verdict_map (history : H) (f : α → ε) (x : Except Fault α) :
    verdict checks db history v b (f <$> x) = f <$> verdict checks db history v b x := by
  cases x with
  | ok y =>
    simp only [verdict, Functor.map, Except.map, rejectIf]
    split <;> [rfl; (split <;> rfl)]
  | error e =>
    cases e with
    | panicked p => rfl
    | rejected e =>
      simp only [verdict, Functor.map, Except.map, rejectIf]
      split <;> [rfl; (split <;> rfl)]

theorem verdict_ok {history : H} {x : Except Fault α} {y : α}
    (h : verdict checks db history v b x = .ok y) : x = .ok y := by
  unfold verdict at h
  split at h
  · cases h
  · obtain ⟨_, _, h⟩ := of_two_binds h
    exact h

/-- A reference that is unwrapped becomes a new cell. -/
theorem unwrapOrClone_handle (hm : Cells.Handle s.cells v a m) :
    (unwrapOrClone a : SharedM ε H Nat) { s with cells := m }
      = .ok s.cells.next { s with cells := s.cells.alloc v } := by
  unfold unwrapOrClone
  rw [hm.unwrap]

theorem validateAndUpdateParallel_yields (hlive : s.Live) (hm : Cells.Handle s.cells v a m) :
    Yields s (validateAndUpdateParallel checks wreck db a b { s with cells := m })
      (NonFinalizedState.validateAndUpdateParallel checks db v b) := by
  have hmodel : NonFinalizedState.validateAndUpdateParallel checks db v b
      = okOr v.historyTreesByHeight.last? (Fault.panicked .missingHistoryTree) >>= fun history =>
        verdict checks db history.2 v b (v.push checks.toRules b) := by
    unfold NonFinalizedState.validateAndUpdateParallel verdict
    rcases v.push checks.toRules b with (_ | _) | _ <;> rfl
  rw [hmodel]
  unfold validateAndUpdateParallel
  rw [get_bind_run]
  rw [hm.value]
  cases okOr v.historyTreesByHeight.last? (Fault.panicked .missingHistoryTree) with
  | error e => exact .error (hlive.unchanged hm.release)
  | ok history =>
    have hheld : (checkHolding a (.ok history) : SharedM Fault H _) { s with cells := m }
        = .ok history { s with cells := m } := rfl
    rw [ok_bind, bind_of_ok hheld, bind_of_ok (unwrapOrClone_handle hm),
      bind_of_ok (push_alloc), verdict_map]
    cases hverdict : verdict checks db history.2 v b (v.push checks.toRules b) with
    | error e => exact .error (hlive.drop_alloc)
    | ok c =>
      rw [verdict_ok hverdict]
      exact .ok c

theorem validateAndCommit_yields (hlive : s.Live) (ht : s.Abstracts t)
    (hm : Cells.Handle s.cells v a m) (b : SemanticallyVerifiedBlock) :
    Yields s (validateAndCommit checks wreck db a b { s with cells := m })
      (t.validateAndCommit checks db v b) := by
  have hmodel : t.validateAndCommit checks db v b
      = contextualBlock checks db s.invalidatedBlocks v b >>=
        NonFinalizedState.validateAndUpdateParallel checks db v := by
    unfold NonFinalizedState.validateAndCommit contextualBlock NonFinalizedState.isInvalidated
    rw [ht.invalidatedBlocks]
    simp only [bind_assoc]
  rw [hmodel]
  unfold validateAndCommit
  rw [get_bind_run]
  rw [hm.value]
  cases contextualBlock checks db s.invalidatedBlocks v b with
  | error e => exact .error (hlive.unchanged hm.release)
  | ok contextual => exact validateAndUpdateParallel_yields hlive hm

end Steps

/-! ## Whole operations -/

variable (checks db wreck)

section

variable (hlive : s.Live) (ht : s.Abstracts t)

include hlive ht

/-- `parent_chain` returns a reference to the chain, or fails. -/
theorem parentChain_handle (hash : Hash) :
    (∃ v a m, t.parentChain checks hash = .ok v ∧
      parentChain checks hash s = .ok a { s with cells := m } ∧ Cells.Handle s.cells v a m) ∨
    ∃ e, t.parentChain checks hash = .error e ∧ parentChain checks hash s = .error e s := by
  have hfind : t.findChain (fun c => c.tipHash = some hash) = (s.chainSet.reverse.find? fun a =>
      (s.cells.value a).tipHash = some hash).map s.cells.value := by
    rw [NonFinalizedState.findChain, NonFinalizedState.chainIter, ht.chainSet, ← map_reverse,
      List.find?_map]
    rfl
  unfold NonFinalizedState.parentChain parentChain
  rw [hfind, get_bind_run]
  cases hparent : s.chainSet.reverse.find? fun a => (s.cells.value a).tipHash = some hash with
  | some a =>
    have ha := mem_reverse.mp (mem_of_find?_eq_some hparent)
    exact .inl ⟨_, a, _, rfl, rfl, .clone (hlive a ha).2⟩
  | none =>
    rw [NonFinalizedState.chainIter, ht.chainSet, ← map_reverse]
    cases mapErr Fault.panicked (NonFinalizedState.firstFork checks hash
        (s.chainSet.reverse.map s.cells.value)) with
    | error e => exact .inr ⟨e, rfl, rfl⟩
    | ok forked =>
      cases forked with
      | none => exact .inr ⟨_, rfl, rfl⟩
      | some fork => exact .inl ⟨fork, _, _, rfl, rfl, .alloc fork⟩

/-- The chain that an operation made is inserted. -/
theorem Yields.insert {x : SharedM ε H Nat} {s₁ : SharedState H} {y : Except ε (Chain H)}
    (h : Yields s (x s₁) y) (keep : Chain H → Bool) :
    Refines s ((x >>= fun a => insertWith a keep) s₁)
      (y >>= fun c => .ok (t.insertWith c keep)) := by
  generalize hx : x s₁ = result at h
  cases h with
  | ok c =>
    rw [bind_of_ok hx, ok_bind]
    exact insertWith_refines hlive ht c keep
  | error h =>
    rw [bind_of_err hx]
    exact .error h

theorem commitBlock_refines (b : SemanticallyVerifiedBlock) :
    Refines s (commitBlock checks wreck db b s) (t.commitBlock checks db b) := by
  unfold commitBlock NonFinalizedState.commitBlock
  rcases parentChain_handle checks hlive ht b.previousBlockHash with
    ⟨v, a, m, hvalue, hrun, hm⟩ | ⟨e, hvalue, hrun⟩
  · rw [bind_of_ok hrun, hvalue, ok_bind]
    exact (validateAndCommit_yields hlive ht hm b).insert hlive ht _
  · rw [bind_of_err hrun, hvalue]
    exact .error (.refl s)

theorem commitNewChain_refines (b : SemanticallyVerifiedBlock) :
    Refines s (commitNewChain checks wreck db b s) (t.commitNewChain checks db b) := by
  unfold commitNewChain NonFinalizedState.commitNewChain
  cases mapErr Fault.panicked (Chain.new checks.toRules db.tipState) with
  | error e => exact .error (.refl s)
  | ok v => exact (validateAndCommit_yields hlive ht (.alloc v) b).insert hlive ht _

/-- A result with its panics among the errors. -/
def flatten : Except Panic (Except NonFinalizedState.ReconsiderError α) → Except ReconsiderFault α
  | .error p => .error (.inl p)
  | .ok (.error e) => .error (.inr e)
  | .ok (.ok a) => .ok a

theorem reconsiderParent_handle (hash parentHash : Hash) :
    (∃ v a m, t.reconsiderParent checks db hash parentHash = .ok (.ok v) ∧
      reconsiderParent checks db hash parentHash s = .ok a { s with cells := m } ∧
      Cells.Handle s.cells v a m) ∨
    ∃ e, flatten (t.reconsiderParent checks db hash parentHash) = .error e ∧
      reconsiderParent checks db hash parentHash s = .error e s := by
  unfold NonFinalizedState.reconsiderParent reconsiderParent
  split
  · cases Chain.new checks.toRules db.tipState with
    | error p => exact .inr ⟨.inl p, rfl, rfl⟩
    | ok v => exact .inl ⟨v, _, _, rfl, rfl, .alloc v⟩
  · unfold EStateM.adaptExcept
    rcases parentChain_handle checks hlive ht parentHash with
      ⟨v, a, m, hvalue, hrun, hm⟩ | ⟨e, hvalue, hrun⟩
    · rw [hrun, hvalue]
      exact .inl ⟨v, a, m, rfl, rfl, hm⟩
    · rw [hrun, hvalue]
      cases e <;> exact .inr ⟨_, rfl, rfl⟩

end

/-- The reconsidered blocks are pushed onto a new cell, which is dropped on
an error. -/
theorem pushAll_alloc (hlive : s.Live) (blocks : List ContextuallyVerifiedBlock) (v : Chain H) :
    (∃ c, blocks.foldlM (fun c b => c.push checks.toRules b) v = .ok c ∧
      pushAll checks wreck s.cells.next blocks { s with cells := s.cells.alloc v }
        = .ok () { s with cells := s.cells.alloc c }) ∨
    ∃ e s', blocks.foldlM (fun c b => c.push checks.toRules b) v = .error e ∧
      pushAll checks wreck s.cells.next blocks { s with cells := s.cells.alloc v }
        = .error (ReconsiderFault.ofFault .replayFailed e) s' ∧ s.Unchanged s' := by
  induction blocks generalizing v with
  | nil => exact .inl ⟨v, rfl, rfl⟩
  | cons b rest ih =>
    rw [foldlM_cons, pushAll, bind_of_ok (push_alloc)]
    cases v.push checks.toRules b with
    | error e => exact .inr ⟨e, _, rfl, rfl, hlive.drop_alloc⟩
    | ok c => exact ih c

theorem reconsiderBlock_refines (hlive : s.Live) (ht : s.Abstracts t) (hash : Hash) :
    Refines s (reconsiderBlock checks wreck db hash s)
      (flatten (t.reconsiderBlock checks db hash)) := by
  unfold reconsiderBlock NonFinalizedState.reconsiderBlock
  rw [get_bind_run, ht.invalidatedBlocks]
  cases s.invalidatedBlocks.find? fun entry =>
      (entry.2.head?.map fun b => b.hash) = some hash with
  | none => exact .error (.refl s)
  | some record =>
    obtain ⟨height, blocks⟩ := record
    rw [okOr_some, check_bind_of_ok rfl]
    dsimp only
    cases blocks.head? with
    | none => exact .error (.refl s)
    | some root =>
      rw [okOr_some, check_bind_of_ok rfl]
      dsimp only
      rcases reconsiderParent_handle checks db hlive ht hash
        root.previousBlockHash with ⟨v, a, m, hvalue, hrun, hm⟩ | ⟨e, hvalue, hrun⟩
      · rw [bind_of_ok hrun, hvalue, ok_bind, bind_of_ok (unwrapOrClone_handle hm)]
        dsimp only
        unfold NonFinalizedState.replay
        rcases pushAll_alloc checks wreck hlive blocks v with
          ⟨c, hfold, hpushed⟩ | ⟨e, s', hfold, hpushed, hsame⟩
        · rw [bind_of_ok hpushed, hfold, modify_bind_run]
          have ht' := ht.withRecords fun records =>
            (records.shiftRemove height).filter fun entry => db.top.height ≤ entry.1
          refine insertWith_refines ?_ ht' c _
          exact hlive
        · rw [bind_of_err hpushed, hfold]
          cases e <;> exact .error hsame
      · rw [bind_of_err hrun]
        cases hparent : t.reconsiderParent checks db hash root.previousBlockHash with
        | error p =>
          rw [hparent] at hvalue
          cases hvalue
          exact .error (.refl s)
        | ok result =>
          rw [hparent] at hvalue
          cases result with
          | ok c => cases hvalue
          | error e =>
            cases hvalue
            exact .error (.refl s)

/-! ## Rejected blocks -/

theorem Refines.unchanged {e : ε} {x : EStateM.Result ε (SharedState H) Unit}
    {y : Except ε (NonFinalizedState H)} (h : Refines s x y) (ht : s.Abstracts t)
    (hx : x = .error e s') : s.Unchanged s' ∧ s'.Abstracts t := by
  subst hx
  cases h with
  | error h =>
    refine ⟨h, ?_, ht.invalidatedBlocks.trans h.invalidatedBlocks.symm⟩
    rw [ht.chainSet, h.chainSet]
    exact (map_congr_left h.chains).symm

/-- A rejected block leaves the set, the chains in it and the records as
they were, whatever `push` did to the chain that it was given. -/
theorem rejected_block_changes_nothing (hlive : s.Live) (ht : s.Abstracts t) :
    (∀ b e s', commitBlock checks wreck db b s = .error (.rejected e) s' →
      s.Unchanged s' ∧ s'.Abstracts t) ∧
    (∀ b e s', commitNewChain checks wreck db b s = .error (.rejected e) s' →
      s.Unchanged s' ∧ s'.Abstracts t) ∧
    ∀ hash e s', reconsiderBlock checks wreck db hash s = .error (.inr e) s' →
      s.Unchanged s' ∧ s'.Abstracts t := by
  refine ⟨?_, ?_, ?_⟩
  · intro b e s' hrun
    exact (commitBlock_refines checks db wreck hlive ht b).unchanged ht hrun
  · intro b e s' hrun
    exact (commitNewChain_refines checks db wreck hlive ht b).unchanged ht hrun
  · intro hash e s' hrun
    exact (reconsiderBlock_refines checks db wreck hlive ht hash).unchanged ht hrun

/-- Every state is laid out in some cells, one reference for each chain. -/
theorem exists_abstracts (unused : Chain H) : ∃ s : SharedState H, s.Live ∧ s.Abstracts t := by
  refine ⟨⟨⟨fun a => t.chainSet.items.getD a unused, fun _ => 1, t.chainSet.items.length⟩,
    List.range t.chainSet.items.length, t.invalidatedBlocks⟩, ?_, ?_, rfl⟩
  · intro a ha
    exact ⟨mem_range.mp ha, Nat.one_pos⟩
  · apply ext_getElem
    · simp
    · intro i hi _
      simp [hi]

/-- Checks that find every commitment bad. -/
def strictChecks : Checks Unit := { sampleChecks with commitmentValid := fun _ _ => false }

/-- The error of a computation. -/
def failure {ε α : Type} : Except ε α → Option ε
  | .ok _ => none
  | .error e => some e

/-- A block with a bad commitment is pushed onto a copy of the best chain
and rejected. -/
theorem rejected_block_changes_nothing_sample :
    ∃ (s s' : SharedState Unit) (t : NonFinalizedState Unit), s.chainSet ≠ [] ∧ s.Live ∧
      s.Abstracts t ∧
      commitBlock strictChecks (fun c _ => c) sampleDb (sampleBlock 12 11 12 []) s
        = .error (.rejected .invalidBlockCommitment) s' ∧
      s.Unchanged s' := by
  obtain ⟨t, _, hcheck⟩ := (Option.any_eq_true _ _).mp
    (show (sampleSystem.applyAll sampleChecks [.commitNewChain transferBlock]).any (fun t =>
      !t.state.chainSet.items.isEmpty && decide (failure (t.state.commitBlock strictChecks
        sampleDb (sampleBlock 12 11 12 [])) = some (.rejected .invalidBlockCommitment))) = true by
      decide +kernel)
  rw [Bool.and_eq_true] at hcheck
  have hnonempty : t.state.chainSet.items ≠ [] := by simpa using hcheck.1
  obtain ⟨s, hlive, ht⟩ := exists_abstracts (t.state.chainSet.items.head hnonempty)
  have hrefines := commitBlock_refines strictChecks sampleDb (fun c _ => c) hlive ht
    (sampleBlock 12 11 12 [])
  have hfail := of_decide_eq_true hcheck.2
  generalize hrun : commitBlock _ _ _ _ s = run at hrefines
  generalize t.state.commitBlock _ _ _ = result at hrefines hfail
  cases hrefines with
  | ok => cases hfail
  | @error e s' _ =>
    cases hfail
    refine ⟨s, s', t.state, ?_, hlive, ht, hrun, ?_⟩
    · intro hempty
      rw [ht.chainSet, hempty] at hnonempty
      exact hnonempty rfl
    · exact ((rejected_block_changes_nothing _ _ _ hlive ht).1 _ _ _ hrun).1

end SharedState

end Wolf.NonFinalized
