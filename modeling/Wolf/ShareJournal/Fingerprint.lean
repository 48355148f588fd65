import Wolf.ShareJournal.Readable

/-! # The fingerprint of a record

Replays are told from conflicts by two hashes of the fields of a
record. A text is hashed after its length and an optional field after
a mark of its presence, so the hashed bytes give the fields back.

* `fingerprint_separates`: equal fingerprints have equal fields. -/

namespace Wolf.ShareJournal

open List

/-! ## Delimited encodings -/

/-- An encoding that can be told from what follows it. -/
def Delimited {α : Type} (valid : α → Prop) (encode : α → Bytes) : Prop :=
  ∀ ⦃a b s t⦄, valid a → valid b → encode a ++ s = encode b ++ t → a = b ∧ s = t

theorem delimited_leBytes (w : Nat) : Delimited (· < 256 ^ w) (leBytes w) := by
  intro a b s t ha hb h
  obtain ⟨hbytes, hrest⟩ := append_inj h (by simp)
  exact ⟨leBytes_injective ha hb hbytes, hrest⟩

theorem delimited_fingerprintBytes : Delimited (·.length < 256 ^ 8) fingerprintBytes := by
  intro a b s t ha hb h
  rw [fingerprintBytes, fingerprintBytes, append_assoc, append_assoc] at h
  obtain ⟨hlength, h⟩ := delimited_leBytes 8 ha hb h
  exact append_inj h hlength

theorem Delimited.optional {α : Type} {valid : α → Prop} {encode : α → Bytes}
    (h : Delimited valid encode) :
    Delimited (fun o => ∀ a ∈ o, valid a) (fingerprintOptional encode) := by
  intro a b s t ha hb heq
  cases a <;> cases b <;> injection heq with hmark hrest
  · exact ⟨rfl, hrest⟩
  · cases hmark
  · cases hmark
  · obtain ⟨rfl, htail⟩ := h (ha _ rfl) (hb _ rfl) hrest
    exact ⟨rfl, htail⟩

/-! ## The hashed messages -/

/-- The ranges of the source's integers, and of the length of a text. -/
structure InRange (record : PersistedShareKey) : Prop where
  texts : ∀ field ∈ [some record.record, some record.jobId, record.worker,
    record.workerAuthentication, record.parentHashLe, record.shareTarget, record.wcashBlockHash,
    record.wcashBlock, record.zcashBlock], ∀ text ∈ field, text.length < 2 ^ 64
  heights : ∀ field ∈ [record.wcashHeight, record.zcashHeight], ∀ height ∈ field, height < 2 ^ 32
  acceptedAt : ∀ time ∈ record.acceptedAt, time < 2 ^ 64

theorem bool_of_byte {a b : Bool} (h : UInt8.ofNat a.toNat = UInt8.ofNat b.toNat) : a = b := by
  cases a <;> cases b <;> first | rfl | cases h

/-- The fingerprint tells records apart, if no two of the four hashed
messages collide. -/
theorem fingerprint_separates {x : External} {a b : PersistedShareKey} (ha : InRange a)
    (hb : InRange b)
    (hsha : Set.InjOn x.sha256 {shareMessage a, shareMessage b, recordMessage x a,
      recordMessage x b})
    (h : persistedJournalRecordFingerprint x a = persistedJournalRecordFingerprint x b) :
    a.record = b.record ∧ a.jobId = b.jobId ∧ a.acceptedAt = b.acceptedAt ∧
      a.worker = b.worker ∧ a.workerAuthentication = b.workerAuthentication ∧
      a.parentHashLe = b.parentHashLe ∧ a.shareTarget = b.shareTarget ∧
      a.wcashCandidate = b.wcashCandidate ∧ a.zcashCandidate = b.zcashCandidate ∧
      a.wcashBlockHash = b.wcashBlockHash ∧ a.wcashHeight = b.wcashHeight ∧
      a.zcashHeight = b.zcashHeight ∧ a.wcashBlock = b.wcashBlock ∧
      a.zcashBlock = b.zcashBlock := by
  have text := delimited_fingerprintBytes.optional
  have height := (delimited_leBytes 4).optional
  have hmessage : recordMessage x a = recordMessage x b := hsha (by simp) (by simp) h
  simp only [recordMessage, append_assoc, append_cancel_left_eq] at hmessage
  obtain ⟨hacceptedAt, hdigest⟩ :=
    (delimited_leBytes 8).optional ha.acceptedAt hb.acceptedAt hmessage
  have hshare : shareMessage a = shareMessage b := hsha (by simp) (by simp) (FixedBytes.ext hdigest)
  simp only [shareMessage, append_assoc, append_cancel_left_eq] at hshare
  obtain ⟨hrecord, hshare⟩ :=
    delimited_fingerprintBytes (ha.texts _ mem_cons_self _ rfl)
      (hb.texts _ mem_cons_self _ rfl) hshare
  obtain ⟨hjobId, hshare⟩ :=
    delimited_fingerprintBytes (ha.texts (some a.jobId) (by simp) _ rfl)
      (hb.texts (some b.jobId) (by simp) _ rfl) hshare
  obtain ⟨hworker, hshare⟩ := text (ha.texts _ (by simp)) (hb.texts _ (by simp)) hshare
  obtain ⟨hauthentication, hshare⟩ := text (ha.texts _ (by simp)) (hb.texts _ (by simp)) hshare
  obtain ⟨hparentHash, hshare⟩ := text (ha.texts _ (by simp)) (hb.texts _ (by simp)) hshare
  obtain ⟨htarget, hshare⟩ := text (ha.texts _ (by simp)) (hb.texts _ (by simp)) hshare
  injection hshare with hwcash hshare
  injection hshare with hzcash hshare
  obtain ⟨hblockHash, hshare⟩ := text (ha.texts _ (by simp)) (hb.texts _ (by simp)) hshare
  obtain ⟨hwcashHeight, hshare⟩ := height (ha.heights _ (by simp)) (hb.heights _ (by simp)) hshare
  obtain ⟨hzcashHeight, hshare⟩ := height (ha.heights _ (by simp)) (hb.heights _ (by simp)) hshare
  obtain ⟨hwcashBlock, hshare⟩ := text (ha.texts _ (by simp)) (hb.texts _ (by simp)) hshare
  rw [← append_nil (fingerprintOptional _ a.zcashBlock),
    ← append_nil (fingerprintOptional _ b.zcashBlock)] at hshare
  obtain ⟨hzcashBlock, -⟩ := text (ha.texts _ (by simp)) (hb.texts _ (by simp)) hshare
  exact ⟨hrecord, hjobId, hacceptedAt, hworker, hauthentication, hparentHash, htarget,
    bool_of_byte hwcash, bool_of_byte hzcash, hblockHash, hwcashHeight, hzcashHeight, hwcashBlock,
    hzcashBlock⟩

def sampleKey : PersistedShareKey where
  version := 1
  record := RecordKind.winnerOutbox.name
  jobId := hexEncode (.fill 32 0x0f : Hex32).data
  acceptedAt := some 1700000001
  worker := some (utf8 "account.rig-1")
  workerAuthentication := some (utf8 "operator")
  shareTarget := some (utf8 "0007ffff" ++ hexEncode (replicate 28 0))
  parentHashLe := some (hexEncode (.fill 32 0x53 : Hex32).data)
  wcashCandidate := true
  zcashCandidate := false
  wcashBlockHash := some (hexEncode (.fill 32 0x21 : Hex32).data)
  wcashHeight := some 17
  zcashHeight := some 9
  wcashBlock := some (utf8 "5a5a")

/-- SHA-256, on the two messages of the sample. -/
def sampleSha256 (input : Bytes) : Hex32 :=
  if input = shareMessage sampleKey then
    ofHex 32 "f8625b9dfd03753224c83fb94ab94490b52caf721dc3477ab656931534a6cdee"
  else ofHex 32 "a39a0912a323f68fbd1a00c51cccebc0a8f3303107983dc56035b68eed78a6ea"

/-- Records that differ in a field that is not hashed. -/
theorem fingerprint_separates_sample :
    let x := plainExternal sampleSha256
    persistedJournalRecordFingerprint x sampleKey =
      persistedJournalRecordFingerprint x { sampleKey with version := 2 } ∧
      sampleKey.worker = { sampleKey with version := 2 }.worker := by
  intro x
  have hrange : InRange sampleKey := ⟨by decide +kernel, by decide +kernel, by decide +kernel⟩
  have hshare : shareMessage { sampleKey with version := 2 } = shareMessage sampleKey := rfl
  have hrecord : recordMessage x { sampleKey with version := 2 } = recordMessage x sampleKey := rfl
  have hne : x.sha256 (shareMessage sampleKey) ≠ x.sha256 (recordMessage x sampleKey) := by
    decide +kernel
  refine ⟨rfl, (fingerprint_separates (x := x) (b := { sampleKey with version := 2 }) hrange
    ⟨hrange.texts, hrange.heights, hrange.acceptedAt⟩ ?_ rfl).2.2.2.1⟩
  rw [hshare, hrecord]
  generalize shareMessage sampleKey = share, recordMessage x sampleKey = record at hne ⊢
  rintro u (rfl | rfl | rfl | rfl) v (rfl | rfl | rfl | rfl) huv
  all_goals first | rfl | exact absurd huv hne | exact absurd huv.symm hne

end Wolf.ShareJournal
