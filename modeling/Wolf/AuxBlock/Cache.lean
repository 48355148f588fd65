import Wolf.Framework.Bytes
import Wolf.Framework.SetIndex
import Wolf.Framework.Topological

/-! # The cache of auxiliary block candidates

`createauxblock` reserves a candidate under its hash, publishes it, and
hands out leases on it. A lease is a random token with which its owner
can retire it. `submitauxblock` protects a candidate from retirement
as soon as a submission for it begins.

Entries expire after a fixed time. The tokens of expired and retired
leases are remembered for a while, in a list of bounded length. -/

namespace Wolf.AuxBlock

/-! ## Entries and tokens -/

abbrev Hash : Type := FixedBytes 32

abbrev Token : Type := FixedBytes 32

def auxBlockMaxActiveLeases : Nat := 16

def auxBlockRetiredTokenCapacity : Nat := 64

inductive CandidateLookupError where
  | unknown
  | expired
  deriving DecidableEq

inductive CandidateInsertError where
  | full
  | publishing
  deriving DecidableEq

inductive CandidateRetirement where
  | retired
  | alreadyAbsent
  | submissionStarted
  deriving DecidableEq

inductive CandidateRetirementError where
  | unauthorized
  deriving DecidableEq

inductive PublishPanic where
  /-- The reservation is gone. -/
  | noReservation
  /-- The token of the reservation changed. -/
  | tokenChanged
  /-- The candidate was published before. -/
  | notPublishing
  deriving DecidableEq

structure CandidateLease where
  id : Hash
  retireToken : Token
  needsPublication : Bool
  deriving DecidableEq

inductive CacheEntryState where
  | publishing
  | published
  | submissionStarted
  deriving DecidableEq

structure CacheEntry (Block : Type) where
  candidate : Block
  createdAt : Nat
  activeRetireTokens : List Token
  state : CacheEntryState

structure RetiredCandidateToken where
  id : Hash
  token : Token
  retiredAt : Nat
  deriving DecidableEq

structure CacheInner (Block : Type) where
  entries : Index Hash (CacheEntry Block) := ∅
  retiredTokens : List RetiredCandidateToken := []

/-- `AuxBlockCandidateCache`, and the hash of a block. -/
structure AuxBlockCandidateCache (Block : Type) where
  hash : Block → Hash
  capacity : Nat
  ttl : Nat

/-- What a call reads besides its arguments: the time, random tokens, and
the order in which the entries are visited. -/
structure Call where
  now : Nat
  draws : List Token
  iteration : Iteration Hash

/-! ## The operations -/

variable {Block : Type}

/-- The age of an entry or a token, zero for a time in the future. -/
def age (now createdAt : Nat) : Nat := now - createdAt

def containsRetiredToken (tokens : List RetiredCandidateToken) (id : Hash) (expected : Token) :
    Bool :=
  tokens.any fun retired => retired.id = id ∧ retired.token = expected

def tokenIndex (tokens : List Token) (expected : Token) : Option Nat :=
  tokens.findIdx? fun token => token = expected

/-- The list of tokens after `swap_remove` at the index of a token. -/
def removeToken (tokens : List Token) (expected : Token) : Option (List Token) :=
  (tokenIndex tokens expected).bind fun index => (swapRemove tokens index).map Prod.snd

/-- The loop of `unique_retire_token` over the random tokens. -/
def uniqueRetireToken (draws : List Token) (retiredTokens : List RetiredCandidateToken) (id : Hash)
    (activeTokens : List Token) : Option Token :=
  draws.find? fun token =>
    token ∉ activeTokens ∧ containsRetiredToken retiredTokens id token = false

namespace CacheInner

variable (inner : CacheInner Block)

def rememberRetiredToken (id : Hash) (token : Token) (now : Nat) : CacheInner Block :=
  if containsRetiredToken inner.retiredTokens id token then inner
  else
    let kept :=
      if auxBlockRetiredTokenCapacity ≤ inner.retiredTokens.length then
        inner.retiredTokens.drop 1
      else inner.retiredTokens
    { inner with retiredTokens := kept ++ [⟨id, token, now⟩] }

def expireEntry (id : Hash) (now : Nat) : CacheInner Block :=
  match inner.entries.lookup id with
  | none => inner
  | some entry =>
    entry.activeRetireTokens.foldl (fun inner token => inner.rememberRetiredToken id token now)
      { inner with entries := inner.entries.erase id }

/-- The ids of the expired entries. -/
def expiredIds (now ttl : Nat) : Finset Hash :=
  inner.entries.keys.filter fun id =>
    (inner.entries.lookup id).any fun entry => ttl ≤ age now entry.createdAt

/-- The retired tokens that are not too old. -/
def retainRecent (now ttl : Nat) : CacheInner Block :=
  { inner with
    retiredTokens := inner.retiredTokens.filter fun retired => age now retired.retiredAt < ttl }

def purgeExpired (call : Call) (ttl : Nat) : CacheInner Block :=
  let inner := inner.retainRecent call.now ttl
  (call.iteration.list (inner.expiredIds call.now ttl)).foldl
    (fun inner id => inner.expireEntry id call.now) inner

def discardUnpublished (lease : CandidateLease) : CacheInner Block :=
  match inner.entries.lookup lease.id with
  | none => inner
  | some entry =>
    match removeToken entry.activeRetireTokens lease.retireToken with
    | none => inner
    | some tokens =>
      match entry.state, lease.needsPublication with
      | .publishing, true => { inner with entries := inner.entries.erase lease.id }
      | .published, false =>
        if tokens = [] then { inner with entries := inner.entries.erase lease.id }
        else
          { inner with
            entries := inner.entries.insert lease.id { entry with activeRetireTokens := tokens } }
      | .submissionStarted, false =>
        { inner with
          entries := inner.entries.insert lease.id { entry with activeRetireTokens := tokens } }
      | _, _ => inner

/-- `publish`, which panics if the reservation is gone or not its own. -/
def publish (lease : CandidateLease) : Except PublishPanic Unit × CacheInner Block :=
  if lease.needsPublication = false then (.ok (), inner)
  else
    match inner.entries.lookup lease.id with
    | none => (.error .noReservation, inner)
    | some entry =>
      if (tokenIndex entry.activeRetireTokens lease.retireToken).isNone then
        (.error .tokenChanged, inner)
      else if entry.state ≠ .publishing then (.error .notPublishing, inner)
      else
        (.ok (), { inner with
          entries := inner.entries.insert lease.id { entry with state := .published } })

def remove (id : Hash) : CacheInner Block := { inner with entries := inner.entries.erase id }

/-- The part of `retire` behind the lookup of the token. -/
def retireEntry (id : Hash) (token : Token) (now : Nat) (entry : CacheEntry Block)
    (tokens : List Token) :
    Except CandidateRetirementError CandidateRetirement × CacheInner Block :=
  match entry.state with
  | .publishing => (.error .unauthorized, inner)
  | .published =>
    let entries :=
      if tokens = [] then inner.entries.erase id
      else inner.entries.insert id { entry with activeRetireTokens := tokens }
    (.ok .retired, { inner with entries }.rememberRetiredToken id token now)
  | .submissionStarted => (.ok .submissionStarted, inner)

end CacheInner

namespace AuxBlockCandidateCache

variable (cache : AuxBlockCandidateCache Block) (call : Call) (inner : CacheInner Block)

/-- `insert` of a candidate after expired entries are gone, or nothing if
all random tokens are taken. -/
def insertPurged (candidate : Block) :
    Option (Except CandidateInsertError CandidateLease × CacheInner Block) :=
  let id := cache.hash candidate
  match inner.entries.lookup id with
  | some existing =>
    if existing.state = .publishing then some (.error .publishing, inner)
    else if auxBlockMaxActiveLeases ≤ existing.activeRetireTokens.length then
      some (.error .full, inner)
    else
      (uniqueRetireToken call.draws inner.retiredTokens id existing.activeRetireTokens).map
        fun token =>
          (.ok ⟨id, token, false⟩, { inner with
            entries := inner.entries.insert id
              { existing with activeRetireTokens := existing.activeRetireTokens ++ [token] } })
  | none =>
    if cache.capacity ≤ inner.entries.keys.card then some (.error .full, inner)
    else
      (uniqueRetireToken call.draws inner.retiredTokens id []).map fun token =>
        (.ok ⟨id, token, true⟩, { inner with
          entries := inner.entries.insert id ⟨candidate, call.now, [token], .publishing⟩ })

def insert (candidate : Block) :
    Option (Except CandidateInsertError CandidateLease × CacheInner Block) :=
  cache.insertPurged call (inner.purgeExpired call cache.ttl) candidate

def beginSubmission (id : Hash) : Except CandidateLookupError Block × CacheInner Block :=
  match inner.entries.lookup id with
  | none => (.error .unknown, inner)
  | some entry =>
    if cache.ttl ≤ age call.now entry.createdAt then
      (.error .expired, inner.expireEntry id call.now)
    else if entry.state = .publishing then (.error .unknown, inner)
    else
      (.ok entry.candidate, { inner with
        entries := inner.entries.insert id { entry with state := .submissionStarted } })

/-- `retire` after expired entries are gone. -/
def retirePurged (id : Hash) (retireToken : Token) :
    Except CandidateRetirementError CandidateRetirement × CacheInner Block :=
  if containsRetiredToken inner.retiredTokens id retireToken then (.ok .alreadyAbsent, inner)
  else
    match inner.entries.lookup id with
    | none => (.ok .alreadyAbsent, inner)
    | some entry =>
      match removeToken entry.activeRetireTokens retireToken with
      | none => (.error .unauthorized, inner)
      | some tokens => inner.retireEntry id retireToken call.now entry tokens

def retire (id : Hash) (retireToken : Token) :
    Except CandidateRetirementError CandidateRetirement × CacheInner Block :=
  retirePurged call (inner.purgeExpired call cache.ttl) id retireToken

end AuxBlockCandidateCache

inductive CacheOperation (Block : Type) where
  | insert (candidate : Block)
  | publish (lease : CandidateLease)
  | discardUnpublished (lease : CandidateLease)
  | beginSubmission (id : Hash)
  | retire (id : Hash) (retireToken : Token)
  | remove (id : Hash)

/-- What an operation returns. -/
inductive CacheOutcome (Block : Type) where
  | inserted (result : Except CandidateInsertError CandidateLease)
  | published (result : Except PublishPanic Unit)
  | discarded
  | submission (result : Except CandidateLookupError Block)
  | retirement (result : Except CandidateRetirementError CandidateRetirement)
  | removed

/-- An operation, which holds the lock. -/
def AuxBlockCandidateCache.apply (cache : AuxBlockCandidateCache Block) (call : Call)
    (inner : CacheInner Block) :
    CacheOperation Block → Option (CacheOutcome Block × CacheInner Block)
  | .insert candidate =>
    (cache.insert call inner candidate).map fun r => (.inserted r.1, r.2)
  | .publish lease => some (.published (inner.publish lease).1, (inner.publish lease).2)
  | .discardUnpublished lease => some (.discarded, inner.discardUnpublished lease)
  | .beginSubmission id =>
    some (.submission (cache.beginSubmission call inner id).1,
      (cache.beginSubmission call inner id).2)
  | .retire id retireToken =>
    some (.retirement (cache.retire call inner id retireToken).1,
      (cache.retire call inner id retireToken).2)
  | .remove id => some (.removed, inner.remove id)

/-- The states that the operations of all threads lead to, in the order in
which they take the lock, with what they returned. -/
inductive CacheReaches (cache : AuxBlockCandidateCache Block) :
    List (CacheOperation Block × CacheOutcome Block) → CacheInner Block → Prop where
  | empty : CacheReaches cache [] {}
  | step {history : List (CacheOperation Block × CacheOutcome Block)}
      {inner inner' : CacheInner Block} {call : Call} {op : CacheOperation Block}
      {outcome : CacheOutcome Block} (hreach : CacheReaches cache history inner)
      (h : cache.apply call inner op = some (outcome, inner')) :
      CacheReaches cache (history ++ [(op, outcome)]) inner'

/-- The candidate of the last call that reserved an id. -/
def lastReserved (history : List (CacheOperation Block × CacheOutcome Block)) (id : Hash) :
    Option Block :=
  history.foldl (fun last event =>
    match event with
    | (.insert candidate, .inserted (.ok lease)) =>
      if lease.id = id ∧ lease.needsPublication then some candidate else last
    | _ => last) none

end Wolf.AuxBlock
