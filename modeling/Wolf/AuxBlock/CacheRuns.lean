import Wolf.AuxBlock.Cache

/-! # Every interleaving of cache operations

* `CacheInvariant`: bounds, no token is active and retired, and every
  entry holds the candidate that was reserved last under its id.
* `cache_is_sound`: both along every run.
* `retire_purges_started`: a retirement removes other entries that have
  expired, with or without a submission. -/

namespace Wolf.AuxBlock

open List

variable {Block : Type}

/-! ## Tokens -/

section Tokens

variable {tokens rest : List Token} {token : Token} {retired : List RetiredCandidateToken}
  {id : Hash}

theorem containsRetiredToken_eq_false :
    containsRetiredToken retired id token = false ↔
      ∀ r ∈ retired, r.id = id → r.token ≠ token := by
  simp [containsRetiredToken]

theorem removeToken_eq_none : removeToken tokens token = none ↔ token ∉ tokens := by
  unfold removeToken tokenIndex
  constructor
  · intro h hmem
    obtain ⟨index, hindex⟩ : ∃ i, tokens.findIdx? (fun t => decide (t = token)) = some i := by
      rw [← Option.isSome_iff_exists]
      simpa using hmem
    obtain ⟨hlt, _⟩ := List.findIdx?_eq_some_iff_getElem.mp hindex
    obtain ⟨rest, hswap, _⟩ := swapRemove_spec hlt
    rw [hindex, Option.bind_some, hswap] at h
    cases h
  · intro hnot
    have hindex : tokens.findIdx? (fun t => decide (t = token)) = none := by
      rw [List.findIdx?_eq_none_iff]
      intro t ht
      simpa using fun heq : t = token => hnot (heq ▸ ht)
    rw [hindex]
    rfl

/-- A token is taken out once. -/
theorem removeToken_eq_some (h : removeToken tokens token = some rest) :
    tokens.Perm (token :: rest) := by
  obtain ⟨index, hindex, h⟩ := Option.bind_eq_some_iff.mp h
  obtain ⟨hlt, htoken, _⟩ := List.findIdx?_eq_some_iff_getElem.mp hindex
  obtain ⟨rest', hswap, hperm⟩ := swapRemove_spec hlt
  rw [hswap] at h
  cases h
  -- The element at the index is the token that was looked for.
  rwa [of_decide_eq_true htoken] at hperm

end Tokens

/-! ## The invariant -/

/-- What holds of the entry of an id. -/
structure EntryInvariant (cache : AuxBlockCandidateCache Block)
    (history : List (CacheOperation Block × CacheOutcome Block))
    (retired : List RetiredCandidateToken) (id : Hash) (e : CacheEntry Block) : Prop where
  leases : e.activeRetireTokens.length ≤ auxBlockMaxActiveLeases
  nodup : e.activeRetireTokens.Nodup
  /-- No token is active and retired for one id. -/
  disjoint : ∀ r ∈ retired, r.id = id → r.token ∉ e.activeRetireTokens
  candidate : cache.hash e.candidate = id ∧ lastReserved history id = some e.candidate

/-- The invariant of the cache after a history. -/
structure CacheInvariant (cache : AuxBlockCandidateCache Block)
    (history : List (CacheOperation Block × CacheOutcome Block)) (inner : CacheInner Block) :
    Prop where
  capacity : inner.entries.keys.card ≤ cache.capacity
  retired : inner.retiredTokens.length ≤ auxBlockRetiredTokenCapacity
  entry : ∀ {id e}, inner.entries.lookup id = some e →
    EntryInvariant cache history inner.retiredTokens id e

section Invariant

variable {cache : AuxBlockCandidateCache Block}
  {history : List (CacheOperation Block × CacheOutcome Block)} {inner inner' : CacheInner Block}
  {id id' : Hash} {e x : CacheEntry Block} {token : Token} {candidate : Block} {call : Call}
  {op : CacheOperation Block} {result : Except CandidateInsertError CandidateLease}
  {outcome : CacheOutcome Block}

theorem keys_insert (m : Index Hash (CacheEntry Block)) :
    (m.insert id e).keys = insert id m.keys := by
  ext key
  rw [Finmap.mem_keys, Finmap.mem_insert, Finset.mem_insert, Finmap.mem_keys]

theorem lookup_insert_cases {m : Index Hash (CacheEntry Block)}
    (hx : (m.insert id e).lookup id' = some x) :
    id' = id ∧ x = e ∨ id' ≠ id ∧ m.lookup id' = some x := by
  by_cases hid : id' = id
  · rw [hid, Finmap.lookup_insert] at hx
    exact .inl ⟨hid, (Option.some.inj hx).symm⟩
  · rw [Finmap.lookup_insert_of_ne _ hid] at hx
    exact .inr ⟨hid, hx⟩

theorem CacheInvariant.empty : CacheInvariant cache [] {} where
  capacity := by simp
  retired := by simp
  entry := by simp

variable (h : CacheInvariant cache history inner)

section

include h

theorem CacheInvariant.erase (id : Hash) :
    CacheInvariant cache history { inner with entries := inner.entries.erase id } := by
  refine ⟨?_, h.retired, ?_⟩
  · show (inner.entries.erase id).keys.card ≤ _
    rw [Finmap.keys_erase]
    exact (Finset.card_erase_le).trans h.capacity
  · intro id' e hlookup
    by_cases hid : id' = id
    · rw [hid, Finmap.lookup_erase] at hlookup
      cases hlookup
    · rw [Finmap.lookup_erase_ne hid] at hlookup
      exact h.entry hlookup

/-- An entry changes its state or its tokens. -/
theorem CacheInvariant.update {e' : CacheEntry Block}
    (hlookup : inner.entries.lookup id = some e) (hcandidate : e'.candidate = e.candidate)
    (hlength : e'.activeRetireTokens.length ≤ auxBlockMaxActiveLeases)
    (hnodup : e'.activeRetireTokens.Nodup)
    (hfresh : ∀ r ∈ inner.retiredTokens, r.id = id → r.token ∉ e'.activeRetireTokens) :
    CacheInvariant cache history { inner with entries := inner.entries.insert id e' } := by
  refine ⟨?_, h.retired, ?_⟩
  · show (inner.entries.insert id e').keys.card ≤ _
    have hmem : id ∈ inner.entries.keys :=
      Finmap.mem_keys.mpr (Finmap.mem_of_lookup_eq_some hlookup)
    rw [keys_insert, Finset.insert_eq_of_mem hmem]
    exact h.capacity
  · intro id' x hx
    rcases lookup_insert_cases hx with ⟨rfl, rfl⟩ | ⟨_, hx⟩
    · exact ⟨hlength, hnodup, hfresh, hcandidate ▸ (h.entry hlookup).candidate⟩
    · exact h.entry hx

/-- A token that is not active is remembered. -/
theorem CacheInvariant.rememberRetiredToken
    (hinactive : ∀ e, inner.entries.lookup id = some e → token ∉ e.activeRetireTokens) (now : Nat) :
    CacheInvariant cache history (inner.rememberRetiredToken id token now) ∧
      (inner.rememberRetiredToken id token now).entries = inner.entries := by
  unfold CacheInner.rememberRetiredToken
  split
  · exact ⟨h, rfl⟩
  · have hold : ∀ r ∈ (if auxBlockRetiredTokenCapacity ≤ inner.retiredTokens.length then
        inner.retiredTokens.drop 1 else inner.retiredTokens), r ∈ inner.retiredTokens := by
      intro r hr
      split at hr
      · exact mem_of_mem_drop hr
      · exact hr
    refine ⟨⟨h.capacity, ?_, fun hx => { h.entry hx with disjoint := ?_ }⟩, rfl⟩
    · have hle := h.retired
      by_cases hfull : auxBlockRetiredTokenCapacity ≤ inner.retiredTokens.length
      · simp only [if_pos hfull, length_append, length_drop, length_singleton]
        simp only [auxBlockRetiredTokenCapacity] at hle hfull ⊢
        omega
      · simp only [if_neg hfull, length_append, length_singleton]
        omega
    · intro r hr hid
      rcases mem_append.mp hr with hr | hr
      · exact (h.entry hx).disjoint r (hold r hr) hid
      · rw [mem_singleton] at hr
        subst hr
        subst hid
        exact hinactive _ hx

theorem CacheInvariant.expireEntry (id : Hash)
    (now : Nat) : CacheInvariant cache history (inner.expireEntry id now) ∧
      (inner.expireEntry id now).entries = inner.entries.erase id := by
  unfold CacheInner.expireEntry
  cases hlookup : inner.entries.lookup id with
  | none =>
    refine ⟨h, ?_⟩
    apply Finmap.ext_lookup
    intro id'
    by_cases hid : id' = id
    · rw [hid, Finmap.lookup_erase, hlookup]
    · rw [Finmap.lookup_erase_ne hid]
  | some e =>
    -- The entry is gone, so none of its tokens is active when it is remembered.
    have hloop : ∀ (tokens : List Token) (acc : CacheInner Block),
        CacheInvariant cache history acc → acc.entries = inner.entries.erase id →
        CacheInvariant cache history
          (tokens.foldl (fun acc token => acc.rememberRetiredToken id token now) acc) ∧
        (tokens.foldl (fun acc token => acc.rememberRetiredToken id token now) acc).entries =
          inner.entries.erase id := by
      intro tokens
      induction tokens with
      | nil => exact fun acc hacc hentries => ⟨hacc, hentries⟩
      | cons token tokens ih =>
        intro acc hacc hentries
        have hgone : ∀ x, acc.entries.lookup id = some x → token ∉ x.activeRetireTokens := by
          intro x hx
          rw [hentries, Finmap.lookup_erase] at hx
          cases hx
        obtain ⟨hnext, hsame⟩ := hacc.rememberRetiredToken hgone now
        exact ih _ hnext (hsame.trans hentries)
    exact hloop _ _ (h.erase id) rfl

/-- Expired entries are removed, and no other entry changes. -/
theorem CacheInvariant.purgeExpired (call : Call)
    (ttl : Nat) : CacheInvariant cache history (inner.purgeExpired call ttl) ∧
      ∀ id, (inner.purgeExpired call ttl).entries.lookup id =
        (inner.entries.lookup id).filter fun e => age call.now e.createdAt < ttl := by
  unfold CacheInner.purgeExpired
  have hretained : CacheInvariant cache history (inner.retainRecent call.now ttl) := by
    refine ⟨h.capacity, (length_filter_le _ _).trans h.retired, ?_⟩
    exact fun hlookup => { h.entry hlookup with
      disjoint := fun r hr => (h.entry hlookup).disjoint r (List.mem_filter.mp hr).1 }
  have hentries : (inner.retainRecent call.now ttl).entries = inner.entries := rfl
  generalize inner.retainRecent call.now ttl = retained at hretained hentries ⊢
  have hloop : ∀ (ids : List Hash) (acc : CacheInner Block), CacheInvariant cache history acc →
      CacheInvariant cache history (ids.foldl (fun acc id => acc.expireEntry id call.now) acc) ∧
      ∀ id, (ids.foldl (fun acc id => acc.expireEntry id call.now) acc).entries.lookup id =
        if id ∈ ids then none else acc.entries.lookup id := by
    intro ids
    induction ids with
    | nil => exact fun acc hacc => ⟨hacc, fun id => by simp⟩
    | cons first ids ih =>
      intro acc hacc
      obtain ⟨hnext, hsame⟩ := hacc.expireEntry first call.now
      obtain ⟨hinv, hrest⟩ := ih _ hnext
      refine ⟨hinv, ?_⟩
      intro id
      rw [foldl_cons, hrest, hsame]
      by_cases hid : id = first
      · rw [hid, Finmap.lookup_erase, ite_self, if_pos mem_cons_self]
      · simp only [Finmap.lookup_erase_ne hid, mem_cons, hid, false_or]
  obtain ⟨hinv, hlookup⟩ :=
    hloop (call.iteration.list (retained.expiredIds call.now ttl)) retained hretained
  refine ⟨hinv, ?_⟩
  intro id
  rw [hlookup, hentries]
  have hexpired : id ∈ call.iteration.list (retained.expiredIds call.now ttl) ↔
      ∃ e, inner.entries.lookup id = some e ∧ ttl ≤ age call.now e.createdAt := by
    rw [call.iteration.mem_list, CacheInner.expiredIds, Finset.mem_filter, hentries,
      Finmap.mem_keys, Finmap.mem_iff]
    simp only [Option.any_eq_true, decide_eq_true_eq]
    exact ⟨fun hid => hid.2, fun ⟨e, he, hage⟩ => ⟨⟨e, he⟩, e, he, hage⟩⟩
  by_cases hmem : id ∈ call.iteration.list (retained.expiredIds call.now ttl)
  · obtain ⟨e, he, hage⟩ := hexpired.mp hmem
    rw [if_pos hmem, he, Option.filter_some, if_neg (by simpa using hage)]
  · rw [if_neg hmem]
    cases hold : inner.entries.lookup id with
    | none => rfl
    | some e =>
      have hage : age call.now e.createdAt < ttl := by
        by_contra hge
        exact hmem (hexpired.mpr ⟨e, hold, Nat.le_of_not_lt hge⟩)
      rw [Option.filter_some, if_pos (by simpa using hage)]

end

theorem uniqueRetireToken_eq_some {draws : List Token} {retired : List RetiredCandidateToken}
    {active : List Token} (h : uniqueRetireToken draws retired id active = some token) :
    token ∉ active ∧ ∀ r ∈ retired, r.id = id → r.token ≠ token := by
  have htoken := List.find?_some h
  simp only [decide_eq_true_eq] at htoken
  exact ⟨htoken.1, containsRetiredToken_eq_false.mp htoken.2⟩

include h in
/-- The history decides about candidates only through reservations. -/
theorem CacheInvariant.of_history {event : CacheOperation Block × CacheOutcome Block}
    (hsame : ∀ id, lastReserved (history ++ [event]) id = lastReserved history id) :
    CacheInvariant cache (history ++ [event]) inner :=
  ⟨h.capacity, h.retired, fun hlookup => { h.entry hlookup with
    candidate := by
      rw [hsame]
      exact (h.entry hlookup).candidate }⟩

/-! ## The operations keep the invariant -/

/-- What an insertion does: nothing, or it adds a lease to an entry that is
not being published, or it reserves an id that has no entry. -/
theorem insertPurged_cases
    (hinsert : cache.insertPurged call inner candidate = some (result, inner')) :
    (∃ error, result = .error error ∧ inner' = inner) ∨
    (∃ existing token, inner.entries.lookup (cache.hash candidate) = some existing ∧
      existing.state ≠ .publishing ∧
      existing.activeRetireTokens.length < auxBlockMaxActiveLeases ∧
      uniqueRetireToken call.draws inner.retiredTokens (cache.hash candidate)
        existing.activeRetireTokens = some token ∧
      result = .ok ⟨cache.hash candidate, token, false⟩ ∧
      inner' = { inner with
        entries := inner.entries.insert (cache.hash candidate)
          { existing with activeRetireTokens := existing.activeRetireTokens ++ [token] } }) ∨
    ∃ token, inner.entries.lookup (cache.hash candidate) = none ∧
      inner.entries.keys.card < cache.capacity ∧
      uniqueRetireToken call.draws inner.retiredTokens (cache.hash candidate) [] = some token ∧
      result = .ok ⟨cache.hash candidate, token, true⟩ ∧
      inner' = { inner with
        entries := inner.entries.insert (cache.hash candidate)
          ⟨candidate, call.now, [token], .publishing⟩ } := by
  unfold AuxBlockCandidateCache.insertPurged at hinsert
  cases hlookup : inner.entries.lookup (cache.hash candidate) with
  | some existing =>
    simp only [hlookup] at hinsert
    by_cases hpublishing : existing.state = .publishing
    · rw [if_pos hpublishing] at hinsert
      cases hinsert
      exact .inl ⟨_, rfl, rfl⟩
    rw [if_neg hpublishing] at hinsert
    by_cases hfull : auxBlockMaxActiveLeases ≤ existing.activeRetireTokens.length
    · rw [if_pos hfull] at hinsert
      cases hinsert
      exact .inl ⟨_, rfl, rfl⟩
    rw [if_neg hfull] at hinsert
    obtain ⟨token, htoken, hresult⟩ := Option.map_eq_some_iff.mp hinsert
    cases hresult
    exact .inr (.inl
      ⟨existing, token, rfl, hpublishing, Nat.lt_of_not_le hfull, htoken, rfl, rfl⟩)
  | none =>
    simp only [hlookup] at hinsert
    by_cases hfull : cache.capacity ≤ inner.entries.keys.card
    · rw [if_pos hfull] at hinsert
      cases hinsert
      exact .inl ⟨_, rfl, rfl⟩
    rw [if_neg hfull] at hinsert
    obtain ⟨token, htoken, hresult⟩ := Option.map_eq_some_iff.mp hinsert
    cases hresult
    exact .inr (.inr ⟨token, rfl, Nat.lt_of_not_le hfull, htoken, rfl, rfl⟩)

include h in
theorem CacheInvariant.insertPurged
    (hinsert : cache.insertPurged call inner candidate = some (result, inner')) :
    CacheInvariant cache (history ++ [(.insert candidate, .inserted result)]) inner' := by
  have hskip : ∀ r : Except CandidateInsertError CandidateLease,
      (∀ lease, r = .ok lease → lease.needsPublication = false) →
      CacheInvariant cache history inner' →
      CacheInvariant cache (history ++ [(.insert candidate, .inserted r)]) inner' := by
    intro r hr hinv
    refine hinv.of_history ?_
    cases r with
    | error e => simp [lastReserved, foldl_append]
    | ok lease => simp [lastReserved, foldl_append, hr lease rfl]
  rcases insertPurged_cases hinsert with ⟨error, rfl, rfl⟩ |
    ⟨existing, token, hlookup, _, hroom, htoken, rfl, rfl⟩ | ⟨token, _, hroom, htoken, rfl, rfl⟩
  · exact hskip _ (fun lease heq => by cases heq) h
  · obtain ⟨hinactive, hfresh⟩ := uniqueRetireToken_eq_some htoken
    refine hskip _ (fun lease heq => by cases heq; rfl) (h.update hlookup rfl ?_ ?_ ?_)
    · simp only [length_append, length_singleton]
      omega
    · exact concat_eq_append ▸ List.Nodup.concat hinactive (h.entry hlookup).nodup
    · intro r hr hid hmem
      rcases mem_append.mp hmem with hmem | hmem
      · exact (h.entry hlookup).disjoint r hr hid hmem
      · exact hfresh r hr hid (mem_singleton.mp hmem)
  -- A candidate is reserved under an id that has no entry.
  · have hlast : ∀ id, lastReserved (history ++
          [(.insert candidate, .inserted (.ok ⟨cache.hash candidate, token, true⟩))]) id =
        if cache.hash candidate = id then some candidate else lastReserved history id := by
      simp [lastReserved]
    refine ⟨?_, h.retired, ?_⟩
    · show (inner.entries.insert _ _).keys.card ≤ _
      rw [keys_insert]
      exact (Finset.card_insert_le _ _).trans hroom
    · intro id x hx
      rcases lookup_insert_cases hx with ⟨rfl, rfl⟩ | ⟨hid, hx⟩
      · refine ⟨by simp [auxBlockMaxActiveLeases], nodup_singleton token, ?_, rfl, ?_⟩
        · intro r hr hid
          simpa using (uniqueRetireToken_eq_some htoken).2 r hr hid
        · rw [hlast, if_pos rfl]
      · refine { h.entry hx with candidate := ?_ }
        rw [hlast, if_neg (Ne.symm hid)]
        exact (h.entry hx).candidate

/-- An entry after a call that does not remove it: it keeps its candidate,
and a submission that has begun stays begun. -/
structure Kept (e e' : CacheEntry Block) : Prop where
  candidate : e'.candidate = e.candidate
  createdAt : e'.createdAt = e.createdAt
  started : e.state = .submissionStarted → e'.state = .submissionStarted

theorem Kept.refl (e : CacheEntry Block) : Kept e e := ⟨rfl, rfl, fun h => h⟩

/-- What the other operations do, apart from the removal of expired
entries. -/
inductive Touches (op : CacheOperation Block) (inner : CacheInner Block) :
    CacheInner Block → Prop where
  | same : Touches op inner inner
  | updated {id : Hash} {e e' : CacheEntry Block} (hlookup : inner.entries.lookup id = some e)
      (hkept : Kept e e') (htokens : e'.activeRetireTokens.Subperm e.activeRetireTokens) :
      Touches op inner { inner with entries := inner.entries.insert id e' }
  | erased {id : Hash} {e : CacheEntry Block} (hlookup : inner.entries.lookup id = some e)
      (hcause : e.state = .publishing ∨ ∃ token, e.activeRetireTokens = [token] ∧
        e.state = .published ∧ (op = .retire id token ∨
          ∃ lease, op = .discardUnpublished lease ∧ lease.id = id ∧ lease.retireToken = token)) :
      Touches op inner { inner with entries := inner.entries.erase id }
  | remembered {next : CacheInner Block} {id : Hash} {token : Token} {now : Nat}
      (h : Touches op inner next)
      (hinactive : ∀ e, next.entries.lookup id = some e → token ∉ e.activeRetireTokens) :
      Touches op inner (next.rememberRetiredToken id token now)

include h in
theorem CacheInvariant.touches (htouches : Touches op inner inner') :
    CacheInvariant cache history inner' := by
  induction htouches with
  | same => exact h
  | updated hlookup hkept htokens =>
    refine h.update hlookup hkept.candidate (htokens.length_le.trans (h.entry hlookup).leases) ?_ ?_
    · exact Multiset.nodup_of_le (Multiset.coe_le.mpr htokens) (h.entry hlookup).nodup
    · exact fun r hr hid hmem => (h.entry hlookup).disjoint r hr hid (htokens.subset hmem)
  | erased _ _ => exact h.erase _
  | remembered _ hinactive ih => exact (ih.rememberRetiredToken hinactive _).1

/-- An entry loses one of its tokens. -/
theorem Touches.dropToken {tokens : List Token} (hlookup : inner.entries.lookup id = some e)
    (hperm : e.activeRetireTokens.Perm (token :: tokens)) :
    Touches op inner
      { inner with entries := inner.entries.insert id { e with activeRetireTokens := tokens } } :=
  .updated hlookup ⟨rfl, rfl, fun h => h⟩
    ((sublist_cons_self token tokens).subperm.trans hperm.symm.subperm)

theorem perm_singleton_of_last {tokens rest : List Token} (h : tokens.Perm (token :: rest))
    (hlast : rest = []) : tokens = [token] := by
  rw [hlast] at h
  exact perm_singleton.mp h

theorem touches_publish (op : CacheOperation Block) (lease : CandidateLease) :
    Touches op inner (inner.publish lease).2 := by
  unfold CacheInner.publish
  split
  · exact .same
  · split
    · exact .same
    · rename_i e hlookup
      split
      · exact .same
      · split
        · exact .same
        · rename_i hpublishing
          refine .updated hlookup ⟨rfl, rfl, fun hstarted => ?_⟩ (List.Subperm.refl _)
          rw [not_not, hstarted] at hpublishing
          cases hpublishing

theorem touches_discardUnpublished (lease : CandidateLease) :
    Touches (.discardUnpublished lease) inner (inner.discardUnpublished lease) := by
  unfold CacheInner.discardUnpublished
  split
  · exact .same
  · rename_i e hlookup
    split
    · exact .same
    · rename_i tokens htokens
      have hperm := removeToken_eq_some htokens
      split
      · exact .erased hlookup (.inl ‹_›)
      · split
        · rename_i hlast
          exact .erased hlookup (.inr ⟨lease.retireToken, perm_singleton_of_last hperm hlast, ‹_›,
            .inr ⟨lease, rfl, rfl, rfl⟩⟩)
        · exact .dropToken hlookup hperm
      · exact .dropToken hlookup hperm
      · exact .same

include h in
theorem touches_retirePurged :
    Touches (.retire id token) inner
      (AuxBlockCandidateCache.retirePurged call inner id token).2 := by
  unfold AuxBlockCandidateCache.retirePurged
  split
  · exact .same
  · split
    · exact .same
    · rename_i e hlookup
      split
      · exact .same
      · rename_i tokens htokens
        have hperm := removeToken_eq_some htokens
        unfold CacheInner.retireEntry
        split
        · exact .same
        · -- The token is not active any more when it is remembered.
          rename_i hpublished
          by_cases hlast : tokens = []
          · simp only [if_pos hlast]
            refine .remembered (.erased hlookup (.inr
              ⟨token, perm_singleton_of_last hperm hlast, hpublished, .inl rfl⟩)) ?_
            intro x hx
            rw [Finmap.lookup_erase] at hx
            cases hx
          · simp only [if_neg hlast]
            refine .remembered (.dropToken hlookup hperm) ?_
            intro x hx
            rw [Finmap.lookup_insert] at hx
            cases hx
            exact (nodup_cons.mp (hperm.nodup_iff.mp (h.entry hlookup).nodup)).1
        · exact .same

/-- A submission does not begin with an expired entry. -/
theorem beginSubmission_cases (op : CacheOperation Block) (id : Hash) :
    (∃ e, inner.entries.lookup id = some e ∧ cache.ttl ≤ age call.now e.createdAt ∧
        (cache.beginSubmission call inner id).2 = inner.expireEntry id call.now) ∨
      Touches op inner (cache.beginSubmission call inner id).2 := by
  unfold AuxBlockCandidateCache.beginSubmission
  split
  · exact .inr .same
  · rename_i e hlookup
    split
    · exact .inl ⟨e, hlookup, ‹_›, rfl⟩
    · split
      · exact .inr .same
      · exact .inr (.updated hlookup ⟨rfl, rfl, fun _ => rfl⟩ (List.Subperm.refl _))

include h in
/-- Step lemma. -/
theorem CacheInvariant.apply (happly : cache.apply call inner op = some (outcome, inner')) :
    CacheInvariant cache (history ++ [(op, outcome)]) inner' := by
  cases op with
  | insert candidate =>
    obtain ⟨⟨result, s⟩, hinsert, hresult⟩ := Option.map_eq_some_iff.mp happly
    cases hresult
    exact (h.purgeExpired call cache.ttl).1.insertPurged hinsert
  | publish lease =>
    cases happly
    exact (h.touches (touches_publish (.publish lease) lease)).of_history fun id => by
      simp [lastReserved]
  | discardUnpublished lease =>
    cases happly
    exact (h.touches (touches_discardUnpublished lease)).of_history fun id => by
      simp [lastReserved]
  | beginSubmission id =>
    cases happly
    refine CacheInvariant.of_history ?_ fun id => by simp [lastReserved, foldl_append]
    rcases beginSubmission_cases (.beginSubmission id) id with ⟨_, _, _, hexpired⟩ | htouches
    · rw [hexpired]
      exact (h.expireEntry id call.now).1
    · exact h.touches htouches
  | retire id token =>
    cases happly
    have hpurged := (h.purgeExpired call cache.ttl).1
    exact (hpurged.touches (touches_retirePurged hpurged)).of_history fun id => by
      simp [lastReserved]
  | remove id =>
    cases happly
    exact (h.erase id).of_history fun id => by simp [lastReserved, foldl_append]

/-- Run lemma. -/
theorem CacheReaches.invariant (hreach : CacheReaches cache history inner) :
    CacheInvariant cache history inner := by
  induction hreach with
  | empty => exact .empty
  | step _ happly ih => exact ih.apply happly

/-! ## What happens to an entry -/

/-- What an operation does to an unexpired entry that is not being
published. -/
inductive EntryStep (op : CacheOperation Block) (id : Hash) (e : CacheEntry Block) :
    Option (CacheEntry Block) → Prop where
  | kept (e' : CacheEntry Block) (h : Kept e e') : EntryStep op id e (some e')
  | removed (h : op = .remove id) : EntryStep op id e none
  | lastLease (token : Token) (htokens : e.activeRetireTokens = [token])
      (hstate : e.state = .published)
      (h : op = .retire id token ∨
        ∃ lease, op = .discardUnpublished lease ∧ lease.id = id ∧ lease.retireToken = token) :
      EntryStep op id e none

section

variable (hlookup : inner.entries.lookup id = some e)

include hlookup

/-- An update of one entry keeps every other one. -/
theorem EntryStep.update {x' : CacheEntry Block} (hx : inner.entries.lookup id' = some x)
    (hkept : Kept x x') : EntryStep op id e ((inner.entries.insert id' x').lookup id) := by
  by_cases hid : id = id'
  · subst hid
    rw [hlookup] at hx
    cases hx
    rw [Finmap.lookup_insert]
    exact .kept x' hkept
  · rw [Finmap.lookup_insert_of_ne _ hid, hlookup]
    exact .kept e (.refl e)

theorem EntryStep.same : EntryStep op id e (inner.entries.lookup id) := by
  rw [hlookup]
  exact .kept e (.refl e)

end

/-- Remembered tokens are apart from the entries. -/
theorem rememberRetiredToken_entries (now : Nat) :
    (inner.rememberRetiredToken id token now).entries = inner.entries := by
  unfold CacheInner.rememberRetiredToken
  split <;> rfl

section

variable (hlookup : inner.entries.lookup id = some e)

include hlookup

theorem Touches.entryStep (h : Touches op inner inner') (hstate : e.state ≠ .publishing) :
    EntryStep op id e (inner'.entries.lookup id) := by
  induction h with
  | same => exact .same hlookup
  | updated hx hkept _ => exact .update hlookup hx hkept
  | @erased id' x hx hcause =>
    show EntryStep op id e ((inner.entries.erase id').lookup id)
    by_cases hid : id = id'
    · subst hid
      cases hlookup.symm.trans hx
      rw [Finmap.lookup_erase]
      rcases hcause with hpublishing | ⟨token, htokens, hpublished, hop⟩
      · exact absurd hpublishing hstate
      · exact .lastLease token htokens hpublished hop
    · rw [Finmap.lookup_erase_ne hid]
      exact .same hlookup
  | remembered _ _ ih =>
    rw [rememberRetiredToken_entries]
    exact ih

/-- A retirement without a live token of the entry changes nothing. -/
theorem retirePurged_unauthorized (htoken : token ∉ e.activeRetireTokens) :
    (AuxBlockCandidateCache.retirePurged call inner id token).2 = inner := by
  unfold AuxBlockCandidateCache.retirePurged
  split
  · rfl
  · rw [hlookup]
    simp only [removeToken_eq_none.mpr htoken]

include h in
/-- Entries that are not expired survive the purge. -/
theorem CacheInvariant.lookup_purged (hage : age call.now e.createdAt < cache.ttl) :
    (inner.purgeExpired call cache.ttl).entries.lookup id = some e := by
  rw [(h.purgeExpired call cache.ttl).2, hlookup, Option.filter_some, if_pos (by simpa using hage)]

include h in
/-- What an operation does to an unexpired entry. -/
theorem CacheInvariant.entryStep
    (happly : cache.apply call inner op = some (outcome, inner')) (hstate : e.state ≠ .publishing)
    (hage : age call.now e.createdAt < cache.ttl) :
    EntryStep op id e (inner'.entries.lookup id) := by
  have hpurged := h.lookup_purged hlookup hage
  cases op with
  | insert candidate =>
    obtain ⟨⟨result, s⟩, hinsert, hresult⟩ := Option.map_eq_some_iff.mp happly
    cases hresult
    rcases insertPurged_cases hinsert with ⟨error, rfl, rfl⟩ |
      ⟨existing, token, hexisting, _, _, _, rfl, rfl⟩ | ⟨token, hnone, _, _, rfl, rfl⟩
    · exact .same hpurged
    · exact .update hpurged hexisting ⟨rfl, rfl, fun h => h⟩
    · -- The id of the entry is not the one that is reserved.
      have hid : id ≠ cache.hash candidate := by
        rintro rfl
        rw [hnone] at hpurged
        cases hpurged
      dsimp only
      rw [Finmap.lookup_insert_of_ne _ hid]
      exact .same hpurged
  | publish lease =>
    cases happly
    exact (touches_publish _ lease).entryStep hlookup hstate
  | discardUnpublished lease =>
    cases happly
    exact (touches_discardUnpublished lease).entryStep hlookup hstate
  | beginSubmission id' =>
    cases happly
    rcases beginSubmission_cases _ id' with ⟨x, hx, hexpired, hinner⟩ | htouches
    · have hid : id ≠ id' := by
        rintro rfl
        cases hlookup.symm.trans hx
        exact absurd hage (Nat.not_lt.mpr hexpired)
      rw [hinner, (h.expireEntry id' call.now).2, Finmap.lookup_erase_ne hid]
      exact .same hlookup
    · exact htouches.entryStep hlookup hstate
  | retire id' token =>
    cases happly
    exact (touches_retirePurged (h.purgeExpired call cache.ttl).1).entryStep hpurged hstate
  | remove id' =>
    cases happly
    by_cases hid : id = id'
    · subst hid
      show EntryStep _ id e ((inner.entries.erase id).lookup id)
      rw [Finmap.lookup_erase]
      exact .removed rfl
    · show EntryStep _ id e ((inner.entries.erase id').lookup id)
      rw [Finmap.lookup_erase_ne hid]
      exact .same hlookup

end

/-! ## The cache -/

/-- Along every interleaving, the cache keeps its bounds, and no token is
active and retired for one id. The next operation, at whatever time it
reads, removes an unexpired entry that was published only if it is its
removal, or the end of its last lease before a submission began. A
retirement without a live token changes no unexpired entry, and a
submission begins with the candidate reserved under its id, which is
published. -/
theorem cache_is_sound (hreach : CacheReaches cache history inner) :
    inner.entries.keys.card ≤ cache.capacity ∧
    (∀ id e, inner.entries.lookup id = some e →
      e.activeRetireTokens.length ≤ auxBlockMaxActiveLeases) ∧
    inner.retiredTokens.length ≤ auxBlockRetiredTokenCapacity ∧
    (∀ id e token, inner.entries.lookup id = some e → token ∈ e.activeRetireTokens →
      containsRetiredToken inner.retiredTokens id token = false) ∧
    ∀ call op outcome inner', cache.apply call inner op = some (outcome, inner') →
      (∀ id e, inner.entries.lookup id = some e → e.state ≠ .publishing →
        age call.now e.createdAt < cache.ttl → EntryStep op id e (inner'.entries.lookup id)) ∧
      (∀ id e, inner.entries.lookup id = some e → e.state = .submissionStarted →
        age call.now e.createdAt < cache.ttl →
        ((∃ id' token, op = .retire id' token) ∨ ∃ lease, op = .discardUnpublished lease) →
        ∃ e', inner'.entries.lookup id = some e' ∧ Kept e e') ∧
      (∀ id e token, op = .retire id token → inner.entries.lookup id = some e →
        age call.now e.createdAt < cache.ttl → token ∉ e.activeRetireTokens →
        inner'.entries.lookup id = some e) ∧
      ∀ id block, op = .beginSubmission id → outcome = .submission (.ok block) →
        lastReserved history id = some block ∧ cache.hash block = id ∧
        ∃ e, inner.entries.lookup id = some e ∧ e.candidate = block ∧ e.state ≠ .publishing := by
  have h := hreach.invariant
  refine ⟨h.capacity, fun id e hlookup => (h.entry hlookup).leases, h.retired, ?_, ?_⟩
  · intro id e token hlookup htoken
    rw [containsRetiredToken_eq_false]
    rintro r hr hid rfl
    exact (h.entry hlookup).disjoint r hr hid htoken
  · intro call op outcome inner' happly
    refine ⟨fun id e hlookup hstate hage => h.entryStep hlookup happly hstate hage, ?_, ?_, ?_⟩
    · intro id e hlookup hstarted hage hop
      have hne : e.state ≠ .publishing := by simp [hstarted]
      have hstep := h.entryStep hlookup happly hne hage
      cases hnew : inner'.entries.lookup id with
      | some e' =>
        rw [hnew] at hstep
        cases hstep with
        | kept _ hkept => exact ⟨e', rfl, hkept⟩
      | none =>
        rw [hnew] at hstep
        cases hstep with
        | removed hremove =>
          rcases hop with ⟨_, _, rfl⟩ | ⟨_, rfl⟩ <;> cases hremove
        | lastLease token _ hpublished _ =>
          rw [hstarted] at hpublished
          cases hpublished
    · rintro id e token rfl hlookup hage htoken
      cases happly
      have hpurged := h.lookup_purged hlookup hage
      show (AuxBlockCandidateCache.retirePurged call _ id token).2.entries.lookup id = _
      rw [retirePurged_unauthorized hpurged htoken]
      exact hpurged
    · rintro id block rfl houtcome
      cases happly
      have hresult := CacheOutcome.submission.inj houtcome
      unfold AuxBlockCandidateCache.beginSubmission at hresult
      cases hlookup : inner.entries.lookup id with
      | none =>
        rw [hlookup] at hresult
        cases hresult
      | some e =>
        simp only [hlookup] at hresult
        split at hresult
        · cases hresult
        · split at hresult
          · cases hresult
          · rename_i hstate
            cases hresult
            obtain ⟨hhash, hlast⟩ := (h.entry hlookup).candidate
            exact ⟨hlast, hhash, e, rfl, rfl, hstate⟩

end Invariant

/-! ## Samples -/

/-- Blocks are their own hashes. -/
def sampleCache : AuxBlockCandidateCache Hash where
  hash := fun block => block
  capacity := 16
  ttl := 600

def sampleCall (now : Nat) : Call where
  now
  draws := [.fill 32 7]
  iteration := .byKey (fun hash => leNat hash.data) fun a b h => FixedBytes.ext
    (leNat_injective (by rw [a.length_data, b.length_data]) h)

def sampleLease : CandidateLease := ⟨.fill 32 1, .fill 32 7, true⟩

/-- Candidate 1 is reserved at time 0. -/
def sampleReserved : CacheInner Hash :=
  ((sampleCache.apply (sampleCall 0) {} (.insert (.fill 32 1))).map Prod.snd).getD {}

/-- It is published. -/
def samplePublished : CacheInner Hash := (sampleReserved.publish sampleLease).2

/-- A submission has begun for it. -/
def sampleStarted : CacheInner Hash :=
  (sampleCache.beginSubmission (sampleCall 0) samplePublished (.fill 32 1)).2

def sampleHistory : List (CacheOperation Hash × CacheOutcome Hash) :=
  [(.insert (.fill 32 1), .inserted (.ok sampleLease)), (.publish sampleLease, .published (.ok ())),
    (.beginSubmission (.fill 32 1), .submission (.ok (.fill 32 1)))]

theorem sampleStarted_reached : CacheReaches sampleCache sampleHistory sampleStarted := by
  have hreserved : CacheReaches sampleCache
    ([] ++ [(.insert (.fill 32 1), .inserted (.ok sampleLease))])
      sampleReserved := @CacheReaches.step _ _ _ _ _ (sampleCall 0) _ _ .empty rfl
  have hpublished := @CacheReaches.step _ _ _ _ samplePublished (sampleCall 0)
    (.publish sampleLease) (.published (.ok ())) hreserved rfl
  exact @CacheReaches.step _ _ _ _ sampleStarted (sampleCall 0) (.beginSubmission (.fill 32 1))
    (.submission (.ok (.fill 32 1))) hpublished rfl

/-- A retirement does not remove the candidate of a submission. -/
theorem cache_is_sound_sample :
    ∃ e e', sampleStarted.entries.lookup (.fill 32 1) = some e ∧
      (sampleCache.retire (sampleCall 599) sampleStarted (.fill 32 1) (.fill 32 7)).2.entries.lookup
        (.fill 32 1) = some e' ∧ Kept e e' := by
  obtain ⟨_, _, _, _, hstep⟩ := cache_is_sound sampleStarted_reached
  obtain ⟨_, hstarted, _⟩ := hstep (sampleCall 599) (.retire (.fill 32 1) (.fill 32 7)) _ _ rfl
  have hlookup : sampleStarted.entries.lookup (.fill 32 1) =
      some ⟨.fill 32 1, 0, [.fill 32 7], .submissionStarted⟩ := rfl
  obtain ⟨e', hnew, hkept⟩ := hstarted _ _ hlookup rfl (by decide) (.inl ⟨_, _, rfl⟩)
  exact ⟨_, e', hlookup, hnew, hkept⟩

/-- A retirement with a token that is not live removes an entry that has
expired, although a submission has begun for it. -/
theorem retire_purges_started :
    ∃ (inner inner' : CacheInner Hash) (history : List (CacheOperation Hash × CacheOutcome Hash))
      (call : Call) (id : Hash) (e : CacheEntry Hash) (token : Token) (outcome : CacheOutcome Hash),
      CacheReaches sampleCache history inner ∧ inner.entries.lookup id = some e ∧
      e.state = .submissionStarted ∧ token ∉ e.activeRetireTokens ∧
      sampleCache.apply call inner (.retire id token) = some (outcome, inner') ∧
      inner'.entries.lookup id = none :=
  ⟨sampleStarted, _, sampleHistory, sampleCall 600, .fill 32 1, _, .fill 32 9, _,
    sampleStarted_reached, rfl, rfl, by decide, rfl, rfl⟩

end Wolf.AuxBlock
