import Wolf.Framework.ByteOrder

/-! # Address ranges of the finalized state

The keys of the address indexes (`disk_format/block.rs`,
`disk_format/transparent.rs`) and the scans over them
(`zebra_db/transparent.rs`). Heights and output indexes have three
bytes on disk; larger ones are written as the largest three-byte value.

* `address_scans_are_exact`: a scan returns the entries of the address
  in the height range, in chain order. -/

namespace Wolf.FinalizedState

open List

/-! ## The disk format -/

def u32ToBeBytes (x : UInt32) : Bytes := (u32ToLeBytes x).reverse

/-- `truncate_zero_be_bytes`. It panics on fewer than `diskLen` bytes; no
caller passes so few. -/
def truncateZeroBeBytes (memBytes : Bytes) (diskLen : Nat) : Option Bytes :=
  let discardedBytes := memBytes.length - diskLen
  if discardedBytes = 0 then some memBytes
  else if (memBytes.take discardedBytes).all (· = 0) then some (memBytes.drop discardedBytes)
  else none

/-- `expand_zero_be_bytes`. It panics on more than `memSize` bytes. -/
def expandZeroBeBytes (memSize : Nat) (diskBytes : Bytes) : Bytes :=
  if diskBytes.length = memSize then diskBytes
  else replicate (memSize - diskBytes.length) 0 ++ diskBytes

/-- `MAX_ON_DISK_HEIGHT` and `MAX_ON_DISK_OUTPUT_INDEX`. -/
def maxOnDisk : UInt32 := 0xffffff

/-- `Height::as_bytes` and `OutputIndex::as_bytes`. -/
def u32AsBytes (x : UInt32) : Bytes :=
  match truncateZeroBeBytes (u32ToBeBytes x) 3 with
  | some b => b
  | none => (truncateZeroBeBytes (u32ToBeBytes maxOnDisk) 3).getD []

/-- `Height::from_bytes` and `OutputIndex::from_bytes`. -/
def u32FromBytes (diskBytes : Bytes) : UInt32 :=
  u32FromLeBytes (expandZeroBeBytes 4 diskBytes).reverse

structure TransactionLocation where
  height : UInt32
  index : UInt16
  deriving DecidableEq

instance : Ord TransactionLocation where
  compare x y := (compare x.height y.height).then (compare x.index y.index)

/-- `OutputLocation`, also as `AddressLocation`: the first output of an
address. -/
structure OutputLocation where
  transactionLocation : TransactionLocation
  outputIndex : UInt32
  deriving DecidableEq

instance : Ord OutputLocation where
  compare x y := (compare x.transactionLocation y.transactionLocation).then
    (compare x.outputIndex y.outputIndex)

def OutputLocation.height (x : OutputLocation) : UInt32 := x.transactionLocation.height

/-- `AddressUnspentOutput` and `AddressTransaction`, with the output or
transaction location of the entry. -/
structure AddressEntry (Location : Type) where
  addressLocation : OutputLocation
  location : Location
  deriving DecidableEq

instance {Location : Type} [Ord Location] : Ord (AddressEntry Location) where
  compare x y := (compare x.addressLocation y.addressLocation).then
    (compare x.location y.location)

abbrev AddressUnspentOutput := AddressEntry OutputLocation

abbrev AddressTransaction := AddressEntry TransactionLocation

/-- `AddressUnspentOutput::address_iterator_range` for the heights from
`start` to `stop`. -/
def AddressUnspentOutput.addressIteratorRange (addressLocation : OutputLocation)
    (start stop : UInt32) : AddressUnspentOutput × AddressUnspentOutput :=
  (⟨addressLocation, cmpMax addressLocation ⟨⟨start, 0⟩, 0⟩⟩,
    ⟨addressLocation, ⟨⟨stop, 0xffff⟩, 0xffffffff⟩⟩)

def AddressTransaction.addressIteratorRange (addressLocation : OutputLocation)
    (start stop : UInt32) : AddressTransaction × AddressTransaction :=
  (⟨addressLocation, cmpMax addressLocation.transactionLocation ⟨start, 0⟩⟩,
    ⟨addressLocation, ⟨stop, 0xffff⟩⟩)

/-! ## Fields on disk -/

theorem u32ToBeBytes_eq (x : UInt32) :
    u32ToBeBytes x = UInt8.ofNat (x.toNat / 16777216) :: (leBytes 3 x.toNat).reverse := by
  have hx := x.toNat_lt
  have htop : x.toNat / 256 / 256 / 256 % 256 = x.toNat / 16777216 := by omega
  simp [u32ToBeBytes, u32ToLeBytes, leBytes, htop]

/-- A field on disk is the number in three bytes, capped. -/
theorem u32AsBytes_eq (x : UInt32) : u32AsBytes x = (leBytes 3 (min x.toNat 16777215)).reverse := by
  have hx := x.toNat_lt
  unfold u32AsBytes
  by_cases hfits : x.toNat < 16777216
  · have htop : x.toNat / 16777216 = 0 := by omega
    have hmin : min x.toNat 16777215 = x.toNat := by omega
    simp [truncateZeroBeBytes, u32ToBeBytes_eq, htop, hmin]
  · have htop : UInt8.ofNat (x.toNat / 16777216) ≠ 0 := by
      intro h
      have h' := congrArg UInt8.toNat h
      simp only [UInt8.toNat_ofNat', UInt8.reduceToNat] at h'
      omega
    have hmin : min x.toNat 16777215 = 16777215 := by omega
    have hnone : truncateZeroBeBytes (u32ToBeBytes x) 3 = none := by
      simp [truncateZeroBeBytes, u32ToBeBytes_eq, htop]
    rw [hnone, hmin]
    decide

/-- A value below the largest one compares as it is with every value. -/
theorem compare_u32AsBytes (x y : UInt32) (hfits : x < maxOnDisk ∨ y < maxOnDisk) :
    compare (u32AsBytes x) (u32AsBytes y) = compare x y := by
  have hfits' : x.toNat < 16777215 ∨ y.toNat < 16777215 := hfits
  rw [u32AsBytes_eq, u32AsBytes_eq, compare_reverse_leBytes (by omega) (by omega),
    UInt32.compare_eq_toNat_compare_toNat]
  rcases Nat.lt_trichotomy x.toNat y.toNat with h | h | h
  · rw [Nat.compare_eq_lt.mpr h, Nat.compare_eq_lt.mpr (by omega)]
  · simp [h]
  · rw [Nat.compare_eq_gt.mpr h, Nat.compare_eq_gt.mpr (by omega)]

theorem u32FromBytes_u32AsBytes (x : UInt32) (hfits : x < maxOnDisk) :
    u32FromBytes (u32AsBytes x) = x := by
  have hx : x.toNat < 16777215 := hfits
  have hmin : min x.toNat 16777215 = x.toNat := by omega
  have htop : x.toNat / 16777216 = 0 := by omega
  have hexpand : expandZeroBeBytes 4 (leBytes 3 x.toNat).reverse = u32ToBeBytes x := by
    simp [expandZeroBeBytes, u32ToBeBytes_eq, htop]
  rw [u32AsBytes_eq, hmin, u32FromBytes, hexpand, u32ToBeBytes, reverse_reverse,
    u32FromLeBytes_u32ToLeBytes]

/-- Heights and output indexes. -/
def u32Disk : DiskFormat UInt32 where
  asBytes := u32AsBytes
  fromBytes := u32FromBytes
  len := 3
  Fits x := x < maxOnDisk
  length_asBytes x := by rw [u32AsBytes_eq, length_reverse, length_leBytes]
  compare_asBytes := compare_u32AsBytes
  fromBytes_asBytes := u32FromBytes_u32AsBytes

/-- `TransactionIndex`. -/
def indexDisk : DiskFormat UInt16 where
  asBytes x := (leBytes 2 x.toNat).reverse
  fromBytes diskBytes := UInt16.ofNat (leNat diskBytes.reverse)
  len := 2
  Fits _ := True
  length_asBytes x := by rw [length_reverse, length_leBytes]
  compare_asBytes x y _ := by
    rw [compare_reverse_leBytes x.toNat_lt y.toNat_lt, UInt16.compare_eq_toNat_compare_toNat]
  fromBytes_asBytes x _ := by
    rw [reverse_reverse, leNat_leBytes_of_lt x.toNat_lt, UInt16.ofNat_toNat]

def TransactionLocation.disk : DiskFormat TransactionLocation :=
  u32Disk.pair indexDisk height index mk (fun _ => rfl) fun _ _ => rfl

def OutputLocation.disk : DiskFormat OutputLocation :=
  TransactionLocation.disk.pair u32Disk transactionLocation outputIndex mk (fun _ => rfl)
    fun _ _ => rfl

/-- `AddressUnspentOutput` and `AddressTransaction`. -/
def entryDisk {Location : Type} [Ord Location] (disk : DiskFormat Location) :
    DiskFormat (AddressEntry Location) :=
  OutputLocation.disk.pair disk (·.addressLocation) (·.location) .mk (fun _ => rfl) fun _ _ => rfl

/-! ## The scans -/

/-- The rows of an address index. No entry is before the first output of
its address, `own`. -/
structure AddressIndex {Location : Type} [Ord Location] (disk : DiskFormat Location)
    (own : OutputLocation → Location) (entries : Set (AddressEntry Location)) extends
    Rows (entryDisk disk) entries where
  own_isLE : ∀ x ∈ entries, (compare (own x.addressLocation) x.location).isLE

/-- `utxo_loc_by_transparent_addr_loc`. -/
abbrev UtxoIndex := AddressIndex OutputLocation.disk id

/-- `tx_loc_by_transparent_addr_loc`. -/
abbrev TxIndex := AddressIndex TransactionLocation.disk OutputLocation.transactionLocation

/-- `address_utxo_locations`. A call without a limit takes `usize::MAX`
rows, which are all. -/
def addressUtxoLocations {entries : Set AddressUnspentOutput} (index : UtxoIndex entries)
    (addressLocation : OutputLocation) (start stop : UInt32) (limit : Option Nat) :
    List AddressUnspentOutput :=
  let range := AddressUnspentOutput.addressIteratorRange addressLocation start stop
  let found := index.scan range.1 range.2
  found.take (limit.getD found.length)

def addressTransactionLocations {entries : Set AddressTransaction} (index : TxIndex entries)
    (addressLocation : OutputLocation) (start stop : UInt32) : List AddressTransaction :=
  let range := AddressTransaction.addressIteratorRange addressLocation start stop
  index.scan range.1 range.2

/-! ## The bounds -/

instance : Std.TransOrd TransactionLocation := inferInstanceAs <| Std.TransCmp <|
  compareLex (compareOn TransactionLocation.height) (compareOn TransactionLocation.index)

instance : Std.TransOrd OutputLocation := inferInstanceAs <| Std.TransCmp <|
  compareLex (compareOn OutputLocation.transactionLocation) (compareOn OutputLocation.outputIndex)

instance : Std.LawfulEqOrd OutputLocation where
  eq_of_compare {x y} h := by
    obtain ⟨⟨height, index⟩, outputIndex⟩ := x
    obtain ⟨⟨height', index'⟩, outputIndex'⟩ := y
    replace h : ((compare height height').then (compare index index')).then
      (compare outputIndex outputIndex') = .eq := h
    simpa [Ordering.then_eq_eq, and_assoc] using h

theorem TransactionLocation.isLE_start (start : UInt32) (x : TransactionLocation) :
    (compare ⟨start, 0⟩ x).isLE ↔ start ≤ x.height := by
  have hindex : (compare 0 x.index).isLE := Std.isLE_compare.mpr (by grind)
  exact (isLE_then_self hindex).trans Std.isLE_compare

theorem TransactionLocation.isLE_stop (stop : UInt32) (x : TransactionLocation) :
    (compare x ⟨stop, 0xffff⟩).isLE ↔ x.height ≤ stop := by
  have hindex : (compare x.index 0xffff).isLE := Std.isLE_compare.mpr (by grind)
  exact (isLE_then_self hindex).trans Std.isLE_compare

theorem OutputLocation.isLE_start (start : UInt32) (x : OutputLocation) :
    (compare ⟨⟨start, 0⟩, 0⟩ x).isLE ↔ start ≤ x.height := by
  have hindex : (compare 0 x.outputIndex).isLE := Std.isLE_compare.mpr (by grind)
  exact (isLE_then_self hindex).trans (x.transactionLocation.isLE_start start)

theorem OutputLocation.isLE_stop (stop : UInt32) (x : OutputLocation) :
    (compare x ⟨⟨stop, 0xffff⟩, 0xffffffff⟩).isLE ↔ x.height ≤ stop := by
  have hindex : (compare x.outputIndex 0xffffffff).isLE := Std.isLE_compare.mpr (by grind)
  exact (isLE_then_self hindex).trans (x.transactionLocation.isLE_stop stop)

/-! ## The scans are exact -/

section exact
variable {Location : Type} [Ord Location]

/-- The scan found the entries of the address `a` with heights from `start`
to `stop`, in chain order, and every entry is read back as it was
written. -/
structure ScanIsExact (disk : DiskFormat Location) (height : Location → UInt32)
    (entries : Set (AddressEntry Location)) (a : OutputLocation) (start stop : UInt32)
    (found : List (AddressEntry Location)) : Prop where
  mem_iff : ∀ x, x ∈ found ↔ x ∈ entries ∧ x.addressLocation = a ∧
    start ≤ height x.location ∧ height x.location ≤ stop
  sorted : found.Pairwise (compare · · = .lt)
  decode : ∀ x ∈ entries, (entryDisk disk).fromBytes ((entryDisk disk).asBytes x) = x

theorem AddressIndex.scanIsExact [Std.TransOrd Location] {disk : DiskFormat Location}
    {own : OutputLocation → Location} {entries : Set (AddressEntry Location)}
    (index : AddressIndex disk own entries) {height : Location → UInt32} {start stop : UInt32}
    {first last : Location} (hfirst : ∀ x, (compare first x).isLE ↔ start ≤ height x)
    (hlast : ∀ x, (compare x last).isLE ↔ height x ≤ stop) (a : OutputLocation) :
    ScanIsExact disk height entries a start stop
      (index.scan ⟨a, cmpMax (own a) first⟩ ⟨a, last⟩) := by
  refine ⟨?_, index.scan_sorted _ _, fun x hx => DiskFormat.fromBytes_asBytes _ x (index.fits x hx)⟩
  intro x
  rw [index.mem_scan]
  apply and_congr_right
  intro hx
  -- Both bounds start with the bytes of `a`.
  refine isLE_then_and_isLE_then.trans (and_congr_right ?_)
  intro ha
  have hown := index.own_isLE x hx
  rw [ha] at hown
  simp only [isLE_cmpMax, hown, hfirst, hlast, true_and]

end exact

/-- Scans are exact although their bounds may have heights and indexes that
do not fit on disk. -/
theorem address_scans_are_exact {outputs : Set AddressUnspentOutput}
    {transactions : Set AddressTransaction} (utxos : UtxoIndex outputs)
    (txs : TxIndex transactions) (a : OutputLocation) (start stop : UInt32) :
    ScanIsExact OutputLocation.disk OutputLocation.height outputs a start stop
      (addressUtxoLocations utxos a start stop none) ∧
    ScanIsExact TransactionLocation.disk TransactionLocation.height transactions a start stop
      (addressTransactionLocations txs a start stop) := by
  constructor
  · have hscan := utxos.scanIsExact (OutputLocation.isLE_start start)
      (OutputLocation.isLE_stop stop) a
    simp only [addressUtxoLocations, Option.getD_none]
    rw [take_of_length_le (Nat.le_refl _)]
    exact hscan
  · exact txs.scanIsExact (TransactionLocation.isLE_start start)
      (TransactionLocation.isLE_stop stop) a

/-! ## A sample -/

/-- The index of some entries, in the order of their bytes. -/
def AddressIndex.ofList {Location : Type} [Ord Location] {disk : DiskFormat Location}
    {own : OutputLocation → Location} (entries : List (AddressEntry Location))
    (hsorted : (entries.map (entryDisk disk).asBytes).Pairwise (compare · · = .lt))
    (hentries : ∀ x ∈ entries, (entryDisk disk).Fits x ∧
      (compare (own x.addressLocation) x.location).isLE) :
    AddressIndex disk own {x | x ∈ entries} where
  rows := entries.map (entryDisk disk).asBytes
  sorted := hsorted
  mem_rows row := by simp
  fits x hx := (hentries x hx).1
  own_isLE x hx := (hentries x hx).2

def sampleAddress : OutputLocation := ⟨⟨5, 1⟩, 0⟩

/-- Two outputs of one address, and one of another. -/
def sampleOutputs : List AddressUnspentOutput :=
  [⟨sampleAddress, sampleAddress⟩, ⟨sampleAddress, ⟨⟨7, 0⟩, 2⟩⟩, ⟨⟨⟨6, 0⟩, 3⟩, ⟨⟨6, 0⟩, 3⟩⟩]

def sampleTransactions : List AddressTransaction :=
  sampleOutputs.map fun x => ⟨x.addressLocation, x.location.transactionLocation⟩

def sampleUtxos : UtxoIndex {x | x ∈ sampleOutputs} :=
  .ofList _ (by decide) (by
    simp only [entryDisk, DiskFormat.pair, OutputLocation.disk, TransactionLocation.disk, u32Disk,
      indexDisk]
    decide)

def sampleTxs : TxIndex {x | x ∈ sampleTransactions} :=
  .ofList _ (by decide) (by
    simp only [entryDisk, DiskFormat.pair, OutputLocation.disk, TransactionLocation.disk, u32Disk,
      indexDisk]
    decide)

/-- A range that starts between the entries and ends at a height that has no
place on disk, and one with all entries of the address. -/
theorem address_scans_are_exact_sample :
    ScanIsExact OutputLocation.disk OutputLocation.height {x | x ∈ sampleOutputs} sampleAddress
        6 0xffffffff [⟨sampleAddress, ⟨⟨7, 0⟩, 2⟩⟩] ∧
      ScanIsExact TransactionLocation.disk TransactionLocation.height {x | x ∈ sampleTransactions}
        sampleAddress 5 7 [⟨sampleAddress, ⟨5, 1⟩⟩, ⟨sampleAddress, ⟨7, 0⟩⟩] :=
  ⟨(address_scans_are_exact sampleUtxos sampleTxs sampleAddress 6 0xffffffff).1,
    (address_scans_are_exact sampleUtxos sampleTxs sampleAddress 5 7).2⟩

end Wolf.FinalizedState
