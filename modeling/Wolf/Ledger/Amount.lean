import Mathlib.Algebra.Order.BigOperators.Group.List
import Mathlib.Algebra.Order.Ring.Int
import Wolf.Emission.Schedule
import Wolf.Framework.Bounded

/-! # Amounts and value balances

`Amount` is a signed number of atomic units in the range of its
constraint; every operation on amounts checks the range of its result.
A `ValueBalance` holds one amount for each pool that value can be in.

The results of this module say what a *successful* operation computed,
in plain integers: `Amount.sum_eq_ok`, `ValueBalance.add_eq_ok` and
`ValueBalance.addChainValuePoolChange_eq_ok`. -/

namespace Wolf.Ledger

open List Int

/-! ## Amounts -/

/-- `MAX_MONEY` of the Wcash build. -/
def maxMoney : Int := Emission.maxMoney

/-- The constraint markers of `Amount`. -/
inductive Constraint where
  | negativeAllowed
  | nonNegative
  | negativeOrZero
  deriving DecidableEq

namespace Constraint

/-- The lower end of `valid_range`. -/
def lo : Constraint → Int
  | negativeAllowed => -maxMoney
  | nonNegative => 0
  | negativeOrZero => -maxMoney

/-- The upper end of `valid_range`. -/
def hi : Constraint → Int
  | negativeAllowed => maxMoney
  | nonNegative => maxMoney
  | negativeOrZero => 0

theorem lo_le_zero (c : Constraint) : c.lo ≤ 0 := by
  cases c <;> decide

theorem zero_le_hi (c : Constraint) : 0 ≤ c.hi := by
  cases c <;> decide

theorem neg_maxMoney_le_lo (c : Constraint) : -maxMoney ≤ c.lo := by
  cases c <;> decide

theorem hi_le_maxMoney (c : Constraint) : c.hi ≤ maxMoney := by
  cases c <;> decide

end Constraint

/-- `amount::Error`, as far as the modelled operations return it. -/
inductive AmountError where
  | constraint (value lo hi : Int)
  | convert (value : Int)
  | sumOverflow (partialSum : Int) (remainingItems : Nat)
  deriving DecidableEq

/-- `Amount<C>`. -/
abbrev Amount (c : Constraint) : Type := Bounded c.lo c.hi

namespace Amount

variable {c : Constraint} {a r b acc : Amount c} {amounts : List (Amount c)} {value : Int}

abbrev zatoshis (a : Amount c) : Int := a.val

/-- `Amount::try_from(i64)`. -/
def tryFrom (c : Constraint) (value : Int) : Except AmountError (Amount c) :=
  Bounded.check c.lo c.hi (fun value => .constraint value c.lo c.hi) value

/-- `Amount::try_from(i128)`: the value has to fit an `i64` first. -/
def tryFromWide (c : Constraint) (value : Int) : Except AmountError (Amount c) := do
  rejectIf (¬ (-2 ^ 63 ≤ value ∧ value < 2 ^ 63)) (.convert value)
  tryFrom c value

def zero (c : Constraint) : Amount c := ⟨0, c.lo_le_zero, c.zero_le_hi⟩

/-- `+`. The `i64` sum of two amounts cannot overflow, as `MAX_MONEY` is at
most half of `i64::MAX`. -/
def add (a b : Amount c) : Except AmountError (Amount c) := tryFrom c (a.zatoshis + b.zatoshis)

/-- `-`. -/
def sub (a b : Amount c) : Except AmountError (Amount c) := tryFrom c (a.zatoshis - b.zatoshis)

def constrain (c' : Constraint) (a : Amount c) : Except AmountError (Amount c') :=
  tryFrom c' a.zatoshis

/-- Unary minus. -/
def neg (a : Amount c) : Amount .negativeAllowed where
  val := -a.zatoshis
  lo_le := by
    have h := le_trans a.le_hi c.hi_le_maxMoney
    exact neg_le_neg h
  le_hi := by
    have h := le_trans c.neg_maxMoney_le_lo a.lo_le
    exact neg_le_of_neg_le h

/-- The `try_fold` of `Sum`, with the items that are left in the iterator. -/
def sumFrom (acc : Amount c) : List (Amount c) → Except AmountError (Amount c)
  | [] => .ok acc
  | amount :: rest =>
    match acc.add amount with
    | .ok next => sumFrom next rest
    | .error _ => .error (.sumOverflow (acc.zatoshis + amount.zatoshis) rest.length)

def sum (amounts : List (Amount c)) : Except AmountError (Amount c) := sumFrom (zero c) amounts

@[simp] theorem zero_zatoshis : (zero c).zatoshis = 0 := rfl

@[simp] theorem neg_zatoshis : a.neg.zatoshis = -a.zatoshis := rfl

theorem tryFrom_eq_ok : tryFrom c value = .ok a ↔ a.zatoshis = value :=
  Bounded.check_eq_ok

theorem tryFrom_of_mem (hlo : c.lo ≤ value) (hhi : value ≤ c.hi) :
    tryFrom c value = .ok ⟨value, hlo, hhi⟩ :=
  Bounded.check_of_mem _ hlo hhi

theorem add_eq_ok : a.add b = .ok r ↔ r.zatoshis = a.zatoshis + b.zatoshis :=
  tryFrom_eq_ok

theorem sub_eq_ok : a.sub b = .ok r ↔ r.zatoshis = a.zatoshis - b.zatoshis :=
  tryFrom_eq_ok

theorem constrain_eq_ok {c' : Constraint} {r : Amount c'} :
    a.constrain c' = .ok r ↔ r.zatoshis = a.zatoshis :=
  tryFrom_eq_ok

theorem sumFrom_eq_ok (h : sumFrom acc amounts = .ok r) :
    r.zatoshis = acc.zatoshis + (amounts.map zatoshis).sum := by
  induction amounts generalizing acc with
  | nil =>
    cases h
    simp
  | cons amount rest ih =>
    rw [sumFrom] at h
    split at h
    · rename_i next hnext
      rw [ih h, add_eq_ok.mp hnext, map_cons, sum_cons, add_assoc]
    · cases h

theorem sum_eq_ok (h : sum amounts = .ok r) : r.zatoshis = (amounts.map zatoshis).sum := by
  rw [sumFrom_eq_ok h, zero_zatoshis, zero_add]

/-- A sum of nonnegative amounts succeeds when the whole sum is in range:
no partial sum is above it. -/
theorem sumFrom_of_le {amounts : List (Amount .nonNegative)} {acc : Amount .nonNegative}
    (h : acc.zatoshis + (amounts.map zatoshis).sum ≤ maxMoney) :
    ∃ r, sumFrom acc amounts = .ok r := by
  induction amounts generalizing acc with
  | nil => exact ⟨acc, rfl⟩
  | cons amount rest ih =>
    have hrest : 0 ≤ (rest.map zatoshis).sum := by
      apply sum_nonneg
      intro value hvalue
      obtain ⟨a, _, rfl⟩ := mem_map.mp hvalue
      exact a.lo_le
    have hlo : 0 ≤ acc.zatoshis + amount.zatoshis := add_nonneg acc.lo_le amount.lo_le
    rw [map_cons, sum_cons] at h
    have hle : acc.zatoshis + amount.zatoshis ≤ maxMoney := by omega
    have hadd : acc.add amount = .ok ⟨acc.zatoshis + amount.zatoshis, hlo, hle⟩ :=
      tryFrom_of_mem hlo hle
    rw [sumFrom, hadd]
    apply ih
    dsimp only [zatoshis] at h ⊢
    omega

end Amount

/-! ## Value balances -/

inductive ValueBalanceError where
  | transparent (e : AmountError)
  | sprout (e : AmountError)
  | sapling (e : AmountError)
  | orchard (e : AmountError)
  | deferred (e : AmountError)
  | ironwood (e : AmountError)
  | total (e : AmountError)
  /-- The panic of `value_from_outputs` on an unknown outpoint. -/
  | missingOutput
  deriving DecidableEq

/-- `ValueBalance<C>`. -/
structure ValueBalance (c : Constraint) where
  transparent : Amount c
  sprout : Amount c
  sapling : Amount c
  orchard : Amount c
  deferred : Amount c
  ironwood : Amount c
  deriving DecidableEq

namespace ValueBalance

variable {c c' : Constraint} {pools r : ValueBalance .nonNegative}
  {change : ValueBalance .negativeAllowed} {v : ValueBalance c}

@[simp] def zero (c : Constraint) : ValueBalance c where
  transparent := .zero c
  sprout := .zero c
  sapling := .zero c
  orchard := .zero c
  deferred := .zero c
  ironwood := .zero c

@[simp] def fromTransparentAmount (a : Amount c) : ValueBalance c :=
  { zero c with transparent := a }

@[simp] def fromSproutAmount (a : Amount c) : ValueBalance c := { zero c with sprout := a }

@[simp] def fromSaplingAmount (a : Amount c) : ValueBalance c := { zero c with sapling := a }

@[simp] def fromOrchardAmount (a : Amount c) : ValueBalance c := { zero c with orchard := a }

@[simp] def fromIronwoodAmount (a : Amount c) : ValueBalance c := { zero c with ironwood := a }

def setDeferredAmount (v : ValueBalance c) (a : Amount c) : ValueBalance c :=
  { v with deferred := a }

/-- The `i128` sum of all pools. -/
def totalZatoshis (v : ValueBalance c) : Int :=
  v.transparent.zatoshis + v.sprout.zatoshis + v.sapling.zatoshis + v.orchard.zatoshis +
    v.deferred.zatoshis + v.ironwood.zatoshis

def total (v : ValueBalance c) : Except AmountError (Amount c) :=
  Amount.tryFromWide c v.totalZatoshis

def constrain (c' : Constraint) (v : ValueBalance c) :
    Except ValueBalanceError (ValueBalance c') := do
  let transparent ← mapErr .transparent (v.transparent.constrain c')
  let sprout ← mapErr .sprout (v.sprout.constrain c')
  let sapling ← mapErr .sapling (v.sapling.constrain c')
  let orchard ← mapErr .orchard (v.orchard.constrain c')
  let deferred ← mapErr .deferred (v.deferred.constrain c')
  let ironwood ← mapErr .ironwood (v.ironwood.constrain c')
  .ok { transparent, sprout, sapling, orchard, deferred, ironwood }

/-- `+`. -/
def add (a b : ValueBalance c) : Except ValueBalanceError (ValueBalance c) := do
  let transparent ← mapErr .transparent (a.transparent.add b.transparent)
  let sprout ← mapErr .sprout (a.sprout.add b.sprout)
  let sapling ← mapErr .sapling (a.sapling.add b.sapling)
  let orchard ← mapErr .orchard (a.orchard.add b.orchard)
  let deferred ← mapErr .deferred (a.deferred.add b.deferred)
  let ironwood ← mapErr .ironwood (a.ironwood.add b.ironwood)
  .ok { transparent, sprout, sapling, orchard, deferred, ironwood }

/-- Unary minus. -/
def neg (v : ValueBalance c) : ValueBalance .negativeAllowed where
  transparent := v.transparent.neg
  sprout := v.sprout.neg
  sapling := v.sapling.neg
  orchard := v.orchard.neg
  deferred := v.deferred.neg
  ironwood := v.ironwood.neg

/-- `remaining_transaction_value`: all pools but the deferred one. -/
def remainingTransactionValue (v : ValueBalance .negativeAllowed) :
    Except AmountError (Amount .nonNegative) := do
  let sum ← v.transparent.add v.sprout
  let sum ← sum.add v.sapling
  let sum ← sum.add v.orchard
  let sum ← sum.add v.ironwood
  sum.constrain .nonNegative

def addChainValuePoolChange (pools : ValueBalance .nonNegative)
    (change : ValueBalance .negativeAllowed) :
    Except ValueBalanceError (ValueBalance .nonNegative) := do
  let pools ← pools.constrain .negativeAllowed
  let sum ← pools.add change
  let pools ← sum.constrain .nonNegative
  let _ ← mapErr .total pools.total
  .ok pools

/-- Two balances that hold the same number of units in every pool. -/
structure Same {c c' : Constraint} (a : ValueBalance c) (b : ValueBalance c') : Prop where
  transparent : a.transparent.zatoshis = b.transparent.zatoshis
  sprout : a.sprout.zatoshis = b.sprout.zatoshis
  sapling : a.sapling.zatoshis = b.sapling.zatoshis
  orchard : a.orchard.zatoshis = b.orchard.zatoshis
  deferred : a.deferred.zatoshis = b.deferred.zatoshis
  ironwood : a.ironwood.zatoshis = b.ironwood.zatoshis

/-- A balance that is the sum of two others in every pool. -/
structure Sum {c c' c'' : Constraint} (a : ValueBalance c) (b : ValueBalance c')
    (r : ValueBalance c'') : Prop where
  transparent : r.transparent.zatoshis = a.transparent.zatoshis + b.transparent.zatoshis
  sprout : r.sprout.zatoshis = a.sprout.zatoshis + b.sprout.zatoshis
  sapling : r.sapling.zatoshis = a.sapling.zatoshis + b.sapling.zatoshis
  orchard : r.orchard.zatoshis = a.orchard.zatoshis + b.orchard.zatoshis
  deferred : r.deferred.zatoshis = a.deferred.zatoshis + b.deferred.zatoshis
  ironwood : r.ironwood.zatoshis = a.ironwood.zatoshis + b.ironwood.zatoshis

theorem Sum.total {c c'' : Constraint} {a : ValueBalance c} {b : ValueBalance c'}
    {r : ValueBalance c''} (h : Sum a b r) :
    r.totalZatoshis = a.totalZatoshis + b.totalZatoshis := by
  unfold totalZatoshis
  rw [h.transparent, h.sprout, h.sapling, h.orchard, h.deferred, h.ironwood]
  omega

theorem constrain_eq_ok {r : ValueBalance c'} (h : v.constrain c' = .ok r) : Same r v := by
  simp only [constrain, bind_eq_ok, mapErr_eq_ok, Amount.constrain_eq_ok] at h
  obtain ⟨_, htransparent, _, hsprout, _, hsapling, _, horchard, _, hdeferred, _, hironwood, h⟩ := h
  cases h
  exact ⟨htransparent, hsprout, hsapling, horchard, hdeferred, hironwood⟩

theorem add_eq_ok {a b r : ValueBalance c} (h : a.add b = .ok r) : Sum a b r := by
  simp only [add, bind_eq_ok, mapErr_eq_ok, Amount.add_eq_ok] at h
  obtain ⟨_, htransparent, _, hsprout, _, hsapling, _, horchard, _, hdeferred, _, hironwood, h⟩ := h
  cases h
  exact ⟨htransparent, hsprout, hsapling, horchard, hdeferred, hironwood⟩

/-- A change that is accepted is added to every pool. -/
theorem addChainValuePoolChange_eq_ok (h : pools.addChainValuePoolChange change = .ok r) :
    Sum pools change r := by
  obtain ⟨wide, hwide, h⟩ := of_bind h
  obtain ⟨sum, hsum, h⟩ := of_bind h
  obtain ⟨narrow, hnarrow, h⟩ := of_bind h
  obtain ⟨_, _, h⟩ := of_bind h
  cases h
  have hwide := constrain_eq_ok hwide
  have hsum := add_eq_ok hsum
  have hnarrow := constrain_eq_ok hnarrow
  exact
    { transparent := by rw [hnarrow.transparent, hsum.transparent, hwide.transparent]
      sprout := by rw [hnarrow.sprout, hsum.sprout, hwide.sprout]
      sapling := by rw [hnarrow.sapling, hsum.sapling, hwide.sapling]
      orchard := by rw [hnarrow.orchard, hsum.orchard, hwide.orchard]
      deferred := by rw [hnarrow.deferred, hsum.deferred, hwide.deferred]
      ironwood := by rw [hnarrow.ironwood, hsum.ironwood, hwide.ironwood] }

theorem constrain_of_same {r : ValueBalance c'} (h : Same r v) : v.constrain c' = .ok r := by
  simp only [constrain, bind_eq_ok, mapErr_eq_ok, Amount.constrain_eq_ok]
  exact ⟨_, h.transparent, _, h.sprout, _, h.sapling, _, h.orchard, _, h.deferred, _, h.ironwood,
    rfl⟩

theorem add_of_sum {a b r : ValueBalance c} (h : Sum a b r) : a.add b = .ok r := by
  simp only [add, bind_eq_ok, mapErr_eq_ok, Amount.add_eq_ok]
  exact ⟨_, h.transparent, _, h.sprout, _, h.sapling, _, h.orchard, _, h.deferred, _, h.ironwood,
    rfl⟩

/-- The same balance, in the wider range. -/
def toNegativeAllowed (v : ValueBalance .nonNegative) : ValueBalance .negativeAllowed where
  transparent := v.transparent.widen (by decide) (by decide)
  sprout := v.sprout.widen (by decide) (by decide)
  sapling := v.sapling.widen (by decide) (by decide)
  orchard := v.orchard.widen (by decide) (by decide)
  deferred := v.deferred.widen (by decide) (by decide)
  ironwood := v.ironwood.widen (by decide) (by decide)

/-- Accepted pools have a valid total. -/
theorem addChainValuePoolChange_total (h : pools.addChainValuePoolChange change = .ok r) :
    ∃ total, r.total = .ok total := by
  obtain ⟨_, _, h⟩ := of_two_binds h
  obtain ⟨_, _, h⟩ := of_bind h
  obtain ⟨total, htotal, h⟩ := of_mapErr_bind h
  cases h
  exact ⟨total, htotal⟩

/-- A change is taken back. -/
theorem addChainValuePoolChange_neg (h : pools.addChainValuePoolChange change = .ok r)
    (htotal : ∃ total, pools.total = .ok total) :
    r.addChainValuePoolChange change.neg = .ok pools := by
  have hsum := addChainValuePoolChange_eq_ok h
  have hback : Sum r change.neg pools := by
    refine ⟨?_, ?_, ?_, ?_, ?_, ?_⟩
    · rw [hsum.transparent, neg, Amount.neg_zatoshis, add_neg_cancel_right]
    · rw [hsum.sprout, neg, Amount.neg_zatoshis, add_neg_cancel_right]
    · rw [hsum.sapling, neg, Amount.neg_zatoshis, add_neg_cancel_right]
    · rw [hsum.orchard, neg, Amount.neg_zatoshis, add_neg_cancel_right]
    · rw [hsum.deferred, neg, Amount.neg_zatoshis, add_neg_cancel_right]
    · rw [hsum.ironwood, neg, Amount.neg_zatoshis, add_neg_cancel_right]
  have hback' : Sum r.toNegativeAllowed change.neg pools.toNegativeAllowed :=
    ⟨hback.transparent, hback.sprout, hback.sapling, hback.orchard, hback.deferred, hback.ironwood⟩
  have hr : Same r.toNegativeAllowed r := ⟨rfl, rfl, rfl, rfl, rfl, rfl⟩
  have hpools : Same pools pools.toNegativeAllowed := ⟨rfl, rfl, rfl, rfl, rfl, rfl⟩
  obtain ⟨total, htotal⟩ := htotal
  unfold addChainValuePoolChange
  rw [constrain_of_same hr, ok_bind, add_of_sum hback', ok_bind, constrain_of_same hpools, ok_bind,
    htotal]
  rfl

theorem remainingTransactionValue_eq_ok {v : ValueBalance .negativeAllowed}
    {fee : Amount .nonNegative} (h : v.remainingTransactionValue = .ok fee) :
    fee.zatoshis = v.totalZatoshis - v.deferred.zatoshis := by
  simp only [remainingTransactionValue, bind_eq_ok, Amount.add_eq_ok, Amount.constrain_eq_ok] at h
  unfold totalZatoshis
  omega

end ValueBalance

end Wolf.Ledger
