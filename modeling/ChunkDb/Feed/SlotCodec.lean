/-
# The slot file

`SerializeFeedSlotRecords` and `ParseFeedSlotRecords` of `feed_slot_records.cpp`.  The file
has one of three versions, chosen from what the records hold: without filters and owners,
with filters, and with owners, where a flag of the header says whether there are filters.

A set of records that passes `ValidateRecords` is written and read back, and a file that is
accepted, of any version, gives records that are written and read back.
-/
import ChunkDb.Feed.Slots
import ChunkDb.StoreManifestSpec
import Mathlib.Data.String.Basic

open LittleEndian ByteReader List

namespace ChunkDb

/-! ## Writing -/

/-- `kMagic`: "CKSL". -/
def kSlotsMagic : Bytes := [0x43, 0x4B, 0x53, 0x4C]
def kOwnerVersion : ℕ := 3
def kFilterHeaderFlag : ℕ := 1
def kFilterFlags : ℕ := 2 ||| 4 ||| 8 ||| 16 ||| 32
def kOwnerFlag : ℕ := 64

/-- The flags byte of a slot. -/
def slotFlags (lost area columnIds noBefore chunks schemaFilterLost owner : Bool) : ℕ :=
  (if lost then 1 else 0) ||| (if area then 2 else 0) ||| (if columnIds then 4 else 0)
    ||| (if noBefore then 8 else 0) ||| (if chunks then 16 else 0)
    ||| (if schemaFilterLost then 32 else 0) ||| (if owner then kOwnerFlag else 0)

/-- The flags byte of a slot record. -/
def FeedSlotRecord.flags (slot : FeedSlotRecord) : ℕ :=
  slotFlags slot.lost slot.filters.area.isSome slot.filters.columnIds.isSome slot.filters.noBefore
    slot.filters.chunks slot.schemaFilterLost slot.owner.isSome

/-- `std::bit_cast<std::uint64_t>` of an axis, as bytes. -/
def axisBytes (axis : Int64) : Bytes := leBytes 8 axis.toUInt64.toNat

/-- The bytes of a filter area. -/
def encodeArea (area : FeedArea) : Bytes :=
  axisBytes area.first.x ++ axisBytes area.first.y ++ axisBytes area.last.x ++ axisBytes area.last.y

/-- The bytes of the owner of a slot. -/
def encodeOwner (owner : String) : Bytes := leBytes 1 owner.length ++ textBytes owner

/-- The bytes of one slot. -/
def encodeSlotRecord (slot : FeedSlotRecord) : Bytes :=
  leBytes 1 slot.name.length ++ leBytes 1 slot.flags
    ++ leBytes 2 (slot.filters.columnIds.elim 0 List.length) ++ leBytes 8 slot.written
    ++ textBytes slot.name ++ slot.filters.area.elim [] encodeArea
    ++ slot.filters.columnIds.elim [] (fun ids => ids.flatMap (leBytes 4))
    ++ slot.owner.elim [] encodeOwner

/-- A slot that only the filter format can hold. -/
def FeedSlotRecord.extended (slot : FeedSlotRecord) : Bool :=
  !slot.filters.empty || slot.schemaFilterLost

/-- `extended`: the records need the filter format or had it before. -/
def FeedSlotRecords.extended (records : FeedSlotRecords) : Bool :=
  records.filterFormat || records.slots.any FeedSlotRecord.extended

/-- `owned`: some slot has an owner. -/
def FeedSlotRecords.owned (records : FeedSlotRecords) : Bool :=
  records.slots.any fun slot => slot.owner.isSome

/-- The version a file of the records has. -/
def FeedSlotRecords.version (records : FeedSlotRecords) : ℕ :=
  if records.owned then kOwnerVersion else if records.extended then 2 else 1

/-- The flags of the header. -/
def FeedSlotRecords.headerFlags (records : FeedSlotRecords) : ℕ :=
  if records.owned && records.extended then kFilterHeaderFlag else 0

/-- The bytes of the file before its checksum. -/
def FeedSlotRecords.body (records : FeedSlotRecords) : Bytes :=
  kSlotsMagic ++ leBytes 2 records.version ++ leBytes 2 records.headerFlags ++ records.epoch.bytes
    ++ leBytes 8 records.durableWatermark ++ leBytes 4 records.slots.length
    ++ records.slots.flatMap encodeSlotRecord

/-- `SerializeFeedSlotRecords`. -/
def serializeFeedSlotRecords (records : FeedSlotRecords) : Fallible Bytes := do
  validateRecords records
  return withCrc records.body

/-! ## Reading -/

/-- `allowed_flags`: what the flags of a slot may be in a file. -/
def allowedSlotFlags (filterFormat owners : Bool) : ℕ :=
  1 ||| (if filterFormat then kFilterFlags else 0) ||| (if owners then kOwnerFlag else 0)

/-- A number that a truncated file does not hold. -/
def slotLe (n : ℕ) (what : String) : ByteReader Exn ℕ := ByteReader.le n (badRecords what)

/-- An axis of a filter area. -/
def readAxis : ByteReader Exn Int64 := do
  let bits ← slotLe 8 "truncated filter area"
  return (UInt64.ofNat bits).toInt64

/-- The filter area of a slot. -/
def readArea : ByteReader Exn FeedArea := do
  let firstX ← readAxis
  let firstY ← readAxis
  let lastX ← readAxis
  let lastY ← readAxis
  return ⟨⟨firstX, firstY⟩, ⟨lastX, lastY⟩⟩

/-- The projection of a slot. -/
def readColumnIds (columns : ℕ) : ByteReader Exn (List ℕ) :=
  ByteReader.times (slotLe 4 "truncated projection ids") columns

/-- The owner of a slot. -/
def readOwner : ByteReader Exn String := do
  let length ← slotLe 1 "truncated slot owner"
  let owner ← ByteReader.take length (badRecords "truncated slot owner")
  return bytesText owner

/-- A field that is there when a flag is set. -/
def readIf {A : Type} (present : Bool) (read : ByteReader Exn A) : ByteReader Exn (Option A) :=
  if present then do
    let a ← read
    return some a
  else return none

/-- One round of the loop of `ParseFeedSlotRecords`. -/
def readSlotRecord (filterFormat owners : Bool) : ByteReader Exn FeedSlotRecord := do
  let length ← slotLe 1 "truncated slot record"
  let flags ← slotLe 1 "truncated slot record"
  let columns ← slotLe 2 "truncated slot record"
  let written ← slotLe 8 "truncated slot record"
  check (require (flags &&& allowedSlotFlags filterFormat owners = flags ∧
      (flags.testBit 2 = false ↔ columns = 0) ∧ columns ≤ kMaxColumnsPerTable)
    (badRecords "slot flags or projection count"))
  let name ← ByteReader.take length (badRecords "truncated slot name")
  let area ← readIf (flags.testBit 1) readArea
  let columnIds ← readIf (flags.testBit 2) (readColumnIds columns)
  let owner ← readIf (flags.testBit 6) readOwner
  return ⟨bytesText name, written, flags.testBit 0,
    ⟨area, columnIds, flags.testBit 3, flags.testBit 4⟩, flags.testBit 5, owner⟩

/-- The version of a file and the flags of its header are some of those that are written. -/
def KnownSlotsHeader (version headerFlags : ℕ) : Prop :=
  1 ≤ version ∧ version ≤ kOwnerVersion ∧
    headerFlags ≤ if version = kOwnerVersion then kFilterHeaderFlag else 0

instance (version headerFlags : ℕ) : Decidable (KnownSlotsHeader version headerFlags) := by
  unfold KnownSlotsHeader
  infer_instance

/-- `ParseFeedSlotRecords`. -/
def parseFeedSlotRecords (bytes : Bytes) (epoch : StoreId) : Fallible FeedSlotRecords := do
  require (kSlotsFixedBytes ≤ bytes.length ∧ bytes.length ≤ kMaxSlotRecordsBytes)
    (badRecords "size")
  let version := readLe 2 bytes 4
  let headerFlags := readLe 2 bytes 6
  require (bytes.take 4 = kSlotsMagic ∧ KnownSlotsHeader version headerFlags)
    (badRecords "magic, version or reserved field")
  let crcAt := bytes.length - 4
  require (readLe 4 bytes crcAt = crc32 (bytes.take crcAt)) (badRecords "checksum")
  require (storeIdAt bytes 8 = epoch) (badRecords "epoch differs from table")
  let filterFormat := decide (version = 2) || headerFlags.testBit 0
  let count := readLe 4 bytes 32
  require (count ≤ kMaxSlots) (badRecords "too many slot records")
  let (slots, rest) ← (readSlotRecord filterFormat (version = kOwnerVersion)).times count
    ((bytes.take crcAt).drop 36)
  require (rest = []) (badRecords "trailing bytes")
  let records : FeedSlotRecords := ⟨storeIdAt bytes 8, readLe 8 bytes 24, slots, filterFormat⟩
  validateRecords records
  return records

/-! ## Names -/

theorem utf8ByteSize_eq_length {text : String} (h : ∀ c ∈ text.toList, c.toNat < 128) :
    text.utf8ByteSize = text.length := by
  have hlen : ∀ chars : List Char, (∀ c ∈ chars, c.toNat < 128) →
      String.utf8Len chars = chars.length := by
    intro chars
    induction chars with
    | nil => intro _; rfl
    | cons c chars ih =>
      intro hall
      have hc : c.utf8Size = 1 := by
        rw [Char.utf8Size_eq_one_iff, UInt32.le_iff_toNat_le]
        exact Nat.le_of_lt_succ (hall c mem_cons_self)
      rw [String.utf8Len_cons, ih fun c' hc' => hall c' (mem_cons_of_mem _ hc'), hc, length_cons]
  have hsize := hlen text.toList h
  rwa [← String.utf8ByteSize_ofList, String.ofList_toList, String.length_toList] at hsize

/-- A user name is at most 63 characters, each of them one byte. -/
structure UserNameFits (name : String) : Prop where
  length_lt : name.length < 256
  chars_lt : ∀ c ∈ name.toList, c.toNat < 256
  size_eq : name.utf8ByteSize = name.length

theorem userNameFits_of_isValidUserName {name : String} (h : isValidUserName name = true) :
    UserNameFits name := by
  unfold isValidUserName at h
  cases hlist : name.toList with
  | nil =>
    rw [hlist] at h
    cases h
  | cons first rest =>
    rw [hlist] at h
    simp only [Bool.and_eq_true, decide_eq_true_eq] at h
    obtain ⟨⟨hlength, -⟩, hall⟩ := h
    have hchars : ∀ c ∈ name.toList, c.toNat < 128 := by
      intro c hc
      rw [hlist] at hc
      have hlower := all_eq_true.1 hall c hc
      simp only [Bool.or_eq_true, Bool.and_eq_true, decide_eq_true_eq, beq_iff_eq] at hlower
      rcases hlower with ((⟨-, hz⟩ | rfl) | ⟨-, h9⟩)
      · exact lt_of_le_of_lt (UInt32.le_iff_toNat_le.1 hz) (by decide)
      · decide
      · exact lt_of_le_of_lt (UInt32.le_iff_toNat_le.1 h9) (by decide)
    refine ⟨?_, fun c hc => (hchars c hc).trans (by decide), utf8ByteSize_eq_length hchars⟩
    rw [← String.length_toList, hlist, length_cons]
    omega

/-! ## Flags -/

/-- The flags of a slot are read back. -/
theorem testBit_slotFlags : ∀ lost area columnIds noBefore chunks schemaFilterLost owner : Bool,
    let flags := slotFlags lost area columnIds noBefore chunks schemaFilterLost owner
    flags < 256 ∧ flags.testBit 0 = lost ∧ flags.testBit 1 = area ∧ flags.testBit 2 = columnIds ∧
      flags.testBit 3 = noBefore ∧ flags.testBit 4 = chunks ∧
      flags.testBit 5 = schemaFilterLost ∧ flags.testBit 6 = owner := by
  decide

/-- The flags of a slot are allowed in a file of its format. -/
theorem slotFlags_allowed : ∀ lost area columnIds noBefore chunks schemaFilterLost owner : Bool,
    ∀ filterFormat owners : Bool,
      ((area || columnIds || noBefore || chunks || schemaFilterLost) → filterFormat) →
      (owner → owners) →
      let flags := slotFlags lost area columnIds noBefore chunks schemaFilterLost owner
      flags &&& allowedSlotFlags filterFormat owners = flags := by
  decide

/-- Without the filter format no slot has a filter. -/
theorem testBit_of_allowed {flags i : ℕ} {owners : Bool}
    (h : flags &&& allowedSlotFlags false owners = flags) (hi : 1 ≤ i) (hi' : i ≤ 5) :
    flags.testBit i = false := by
  have hallowed : (allowedSlotFlags false owners).testBit i = false := by
    interval_cases i <;> cases owners <;> rfl
  rw [← h, Nat.testBit_and, hallowed, Bool.and_false]

/-! ## One slot -/

section Fields

variable (rest : Bytes)

theorem readAxis_axisBytes (axis : Int64) : readAxis (axisBytes axis ++ rest) = .ok (axis, rest) := by
  have hlt : axis.toUInt64.toNat < 256 ^ 8 := axis.toUInt64.toNat_lt
  rw [readAxis, slotLe, axisBytes, le_bind hlt, UInt64.ofNat_toNat, Int64.toInt64_toUInt64]
  rfl

theorem readArea_encodeArea (area : FeedArea) :
    readArea (encodeArea area ++ rest) = .ok (area, rest) := by
  simp only [readArea, encodeArea, append_assoc]
  iterate 4 rw [bind_of_eq_ok (readAxis_axisBytes _ _)]
  rfl

theorem readColumnIds_flatMap {ids : List ℕ} (h : ∀ id ∈ ids, id < 256 ^ 4) :
    readColumnIds ids.length (ids.flatMap (leBytes 4) ++ rest) = .ok (ids, rest) :=
  times_flatMap (fun id hid rest => le_leBytes (h id hid) _ rest) rest

theorem readOwner_encodeOwner {owner : String} (h : UserNameFits owner) :
    readOwner (encodeOwner owner ++ rest) = .ok (owner, rest) := by
  simp only [readOwner, slotLe, encodeOwner, append_assoc]
  rw [le_bind h.length_lt, take_bind (length_textBytes owner), bytesText_textBytes h.chars_lt]
  rfl

/-- An optional field is read back. -/
theorem readIf_elim {A : Type} {read : ByteReader Exn A} {write : A → Bytes} {value : Option A}
    (h : ∀ a ∈ value, read (write a ++ rest) = .ok (a, rest)) :
    readIf value.isSome read (value.elim [] write ++ rest) = .ok (value, rest) := by
  cases value with
  | none => rfl
  | some a =>
    rw [Option.isSome_some, readIf, if_pos rfl, Option.elim_some, bind_of_eq_ok (h a rfl)]
    rfl

end Fields

/-- What the fields of a slot are worth in a file. -/
structure FeedSlotRecord.Encodable (slot : FeedSlotRecord) : Prop where
  name : UserNameFits slot.name
  written : slot.written < 256 ^ 8
  columnCount : ∀ ids ∈ slot.filters.columnIds, ids ≠ [] ∧ ids.length ≤ kMaxColumnsPerTable
  columnIds : ∀ ids ∈ slot.filters.columnIds, ∀ id ∈ ids, id < 256 ^ 4
  owner : ∀ owner ∈ slot.owner, UserNameFits owner

namespace FeedSlotRecord.Encodable

variable {slot : FeedSlotRecord}

/-- The count of a projection says whether there is one. -/
theorem columns_spec (h : slot.Encodable) :
    (slot.filters.columnIds.isSome = false ↔ slot.filters.columnIds.elim 0 List.length = 0) ∧
      slot.filters.columnIds.elim 0 List.length ≤ kMaxColumnsPerTable := by
  cases hids : slot.filters.columnIds with
  | none => simp
  | some ids =>
    obtain ⟨hne, hle⟩ := h.columnCount ids hids
    simpa using ⟨hne, hle⟩

/-- A slot is read back in a file of its format. -/
theorem read_encode (h : slot.Encodable) {filterFormat owners : Bool}
    (hextended : slot.extended → filterFormat) (howner : slot.owner.isSome → owners)
    (rest : Bytes) :
    readSlotRecord filterFormat owners (encodeSlotRecord slot ++ rest) = .ok (slot, rest) := by
  obtain ⟨hflags, h0, h1, h2, h3, h4, h5, h6⟩ := testBit_slotFlags slot.lost
    slot.filters.area.isSome slot.filters.columnIds.isSome slot.filters.noBefore slot.filters.chunks
    slot.schemaFilterLost slot.owner.isSome
  have hallowed : slot.flags &&& allowedSlotFlags filterFormat owners = slot.flags := by
    refine slotFlags_allowed _ _ _ _ _ _ _ _ _ (fun hany => hextended ?_) howner
    simpa [FeedSlotRecord.extended, FeedSlotFilters.empty, or_assoc, ← Option.isSome_iff_ne_none]
      using hany
  obtain ⟨hcolumns, hmax⟩ := h.columns_spec
  have hcount : slot.filters.columnIds.elim 0 List.length < 256 ^ 2 := hmax.trans_lt (by decide)
  have hids : ∀ ids ∈ slot.filters.columnIds,
      readColumnIds (slot.filters.columnIds.elim 0 List.length)
        (ids.flatMap (leBytes 4) ++ (slot.owner.elim [] encodeOwner ++ rest))
          = .ok (ids, slot.owner.elim [] encodeOwner ++ rest) := by
    intro ids hmem
    rw [Option.mem_def.1 hmem]
    exact readColumnIds_flatMap _ (h.columnIds ids hmem)
  simp only [readSlotRecord, slotLe, encodeSlotRecord, append_assoc]
  rw [le_bind h.name.length_lt, le_bind hflags, le_bind hcount, le_bind h.written,
    check_bind (require_of ⟨hallowed, by rw [FeedSlotRecord.flags, h2]; exact hcolumns, hmax⟩ _),
    take_bind (length_textBytes slot.name)]
  simp only [FeedSlotRecord.flags, h0, h1, h2, h3, h4, h5, h6]
  rw [bind_of_eq_ok (readIf_elim _ fun area _ => readArea_encodeArea _ area),
    bind_of_eq_ok (readIf_elim _ hids),
    bind_of_eq_ok (readIf_elim _ fun owner ho => readOwner_encodeOwner _ (h.owner owner ho)),
    bytesText_textBytes h.name.chars_lt]
  rfl

end FeedSlotRecord.Encodable

/-! ## The records of a file -/

/-- What the loop of `ValidateRecords` has checked. -/
theorem validateSlots_mem {watermark : ℕ} {names : List String} {size : ℕ}
    {slots : List FeedSlotRecord} (h : validateSlots watermark names size slots = .ok ()) :
    ∀ slot ∈ slots, isValidUserName slot.name = true ∧ slot.written ≤ watermark ∧
      validateSlotRecord slot = .ok () := by
  induction slots generalizing names size with
  | nil => simp
  | cons slot slots ih =>
    simp only [validateSlots, requireValidFeedSlotName, check_bind_eq_ok, require_eq_ok] at h
    obtain ⟨hname, -, hwritten, hslot, -, h⟩ := h
    rw [forall_mem_cons]
    exact ⟨⟨hname, hwritten, hslot⟩, ih h⟩

/-- The sizes of the slots add up to no more than a file may have. -/
theorem validateSlots_size {watermark : ℕ} {names : List String} {size : ℕ}
    {slots : List FeedSlotRecord} (hsize : size ≤ kMaxSlotRecordsBytes)
    (h : validateSlots watermark names size slots = .ok ()) :
    size + (slots.map FeedSlotRecord.encodedSize).sum ≤ kMaxSlotRecordsBytes := by
  induction slots generalizing names size with
  | nil => simpa using hsize
  | cons slot slots ih =>
    simp only [validateSlots, check_bind_eq_ok, require_eq_ok] at h
    obtain ⟨-, -, -, -, hle, h⟩ := h
    have hsum := ih hle h
    rw [map_cons, sum_cons]
    omega

/-- The numbers of the records fit the types that the source gives them. -/
structure FeedSlotRecords.Representable (records : FeedSlotRecords) : Prop where
  durableWatermark : records.durableWatermark < 2 ^ 64
  columnIds : ∀ slot ∈ records.slots, ∀ ids ∈ slot.filters.columnIds, ∀ id ∈ ids, id < 2 ^ 32

namespace FeedSlotRecords

variable {records : FeedSlotRecords}

/-- Records that pass the validation can be written. -/
theorem encodable_of_validateRecords (hvalid : validateRecords records = .ok ())
    (hfits : records.Representable) : ∀ slot ∈ records.slots, slot.Encodable := by
  intro slot hmem
  simp only [validateRecords, require_bind] at hvalid
  obtain ⟨hname, hwritten, hslot⟩ := validateSlots_mem hvalid.2.2 slot hmem
  simp only [validateSlotRecord, check_bind_eq_ok, require_eq_ok] at hslot
  obtain ⟨-, -, hcount, -, howner⟩ := hslot
  refine ⟨userNameFits_of_isValidUserName hname, ?_, hcount, hfits.columnIds slot hmem,
    fun owner ho => userNameFits_of_isValidUserName (howner owner ho)⟩
  exact hwritten.trans_lt hfits.durableWatermark

theorem length_encodeArea (area : FeedArea) : (encodeArea area).length = 32 := by
  simp [encodeArea, axisBytes]

theorem length_flatMap_leBytes (ids : List ℕ) :
    (ids.flatMap (leBytes 4)).length = ids.length * 4 := by
  induction ids with
  | nil => rfl
  | cons id ids ih =>
    rw [flatMap_cons, length_append, ih, length_leBytes, length_cons]
    omega

/-- A slot takes the bytes that the validation counts. -/
theorem length_encodeSlotRecord {slot : FeedSlotRecord} (h : slot.Encodable) :
    (encodeSlotRecord slot).length = slot.encodedSize := by
  obtain ⟨name, written, lost, ⟨area, columnIds, noBefore, chunks⟩, schemaFilterLost, owner⟩ := slot
  have hname : name.utf8ByteSize = name.length := h.name.size_eq
  have harea : (area.elim [] encodeArea).length = if area.isSome then 32 else 0 := by
    cases area with
    | none => rfl
    | some area => exact length_encodeArea area
  have hids : (columnIds.elim [] fun ids => ids.flatMap (leBytes 4)).length
      = (columnIds.map (·.length * 4)).getD 0 := by
    cases columnIds with
    | none => rfl
    | some ids => exact length_flatMap_leBytes ids
  have howner : (owner.elim [] encodeOwner).length = (owner.map (1 + ·.utf8ByteSize)).getD 0 := by
    cases owner with
    | none => rfl
    | some owner =>
      have hsize : owner.utf8ByteSize = owner.length := (h.owner owner rfl).size_eq
      simp [encodeOwner, hsize]
  simp only [encodeSlotRecord, FeedSlotRecord.encodedSize, length_append, length_leBytes,
    length_textBytes, harea, hids, howner, hname]

theorem length_slots (h : ∀ slot ∈ records.slots, slot.Encodable) :
    (records.slots.flatMap encodeSlotRecord).length
      = (records.slots.map FeedSlotRecord.encodedSize).sum := by
  rw [length_flatMap, map_congr_left fun slot hmem => length_encodeSlotRecord (h slot hmem)]

/-! ## The fields of a written file -/

variable (records)

/-- The fields of a written file, in order. -/
theorem fieldsAt_file :
    FieldsAt [.raw kSlotsMagic, .num 2 records.version, .num 2 records.headerFlags,
      .raw records.epoch.bytes, .num 8 records.durableWatermark, .num 4 records.slots.length]
      (withCrc records.body) 0 := by
  simp only [withCrc, body, append_assoc]
  exact fieldsAt_encodeFields _ _

theorem length_body :
    records.body.length = 36 + (records.slots.flatMap encodeSlotRecord).length := by
  simp only [body, length_append, length_leBytes, records.epoch.length_eq]
  rfl

theorem version_lt : records.version < 256 ^ 2 := by
  unfold version
  split
  · decide
  · split <;> decide

theorem headerFlags_lt : records.headerFlags < 256 ^ 2 := by
  unfold headerFlags
  split <;> decide

theorem slots_file : ((withCrc records.body).take ((withCrc records.body).length - 4)).drop 36
    = records.slots.flatMap encodeSlotRecord := by
  rw [take_withCrc, body]
  refine drop_left' ?_
  simp [kSlotsMagic, records.epoch.length_eq]

/-- The header says which version the file has and whether it has the filter format. -/
theorem header_spec : KnownSlotsHeader records.version records.headerFlags ∧
    (decide (records.version = 2) || records.headerFlags.testBit 0) = records.extended ∧
    (records.owned → records.version = kOwnerVersion) := by
  unfold version headerFlags
  cases records.owned <;> cases records.extended <;> decide

end FeedSlotRecords

/-! ## What the parser accepts -/

theorem readIf_eq_ok {A : Type} {present : Bool} {read : ByteReader Exn A} {bytes rest : Bytes}
    {value : Option A} (h : readIf present read bytes = .ok (value, rest)) :
    value.isSome = present ∧ ∀ a ∈ value, ∃ bytes rest, read bytes = .ok (a, rest) := by
  cases present with
  | false =>
    obtain ⟨rfl, -⟩ := pure_eq_ok.1 h
    simp
  | true =>
    simp only [readIf, if_true, ByteReader.bind_eq_ok, pure_eq_ok] at h
    obtain ⟨a, mid, ha, rfl, -⟩ := h
    refine ⟨rfl, fun a' ha' => ?_⟩
    cases ha'
    exact ⟨bytes, mid, ha⟩

/-- A slot that was read has column ids of four bytes, and filters only in the filter
format. -/
theorem readSlotRecord_spec {filterFormat owners : Bool} {bytes rest : Bytes}
    {slot : FeedSlotRecord} (h : readSlotRecord filterFormat owners bytes = .ok (slot, rest)) :
    (∀ ids ∈ slot.filters.columnIds, ∀ id ∈ ids, id < 2 ^ 32) ∧ (slot.extended → filterFormat) := by
  simp only [readSlotRecord, ByteReader.bind_eq_ok, check_eq_ok, pure_eq_ok, require_eq_ok] at h
  obtain ⟨length, _, -, flags, _, -, columns, _, -, written, _, -, _, _, ⟨⟨hallowed, -⟩, -⟩, name, _,
    -, area, _, harea, columnIds, _, hids, owner, _, -, rfl, -⟩ := h
  obtain ⟨harea, -⟩ := readIf_eq_ok harea
  obtain ⟨hsome, hids⟩ := readIf_eq_ok hids
  constructor
  · intro ids hmem
    obtain ⟨bytes, rest, hread⟩ := hids ids hmem
    exact times_forall (fun hid => (le_eq_ok.1 hid).1) hread
  · cases filterFormat with
    | true => exact fun _ => rfl
    | false =>
      -- no flag of a filter is set
      have hbit : ∀ i, 1 ≤ i → i ≤ 5 → flags.testBit i = false :=
        fun i hi hi' => testBit_of_allowed hallowed hi hi'
      rw [hbit 1 (by decide) (by decide), Option.isSome_eq_false_iff] at harea
      rw [hbit 2 (by decide) (by decide), Option.isSome_eq_false_iff] at hsome
      simp [FeedSlotRecord.extended, FeedSlotFilters.empty, harea, hsome,
        hbit 3 (by decide) (by decide), hbit 4 (by decide) (by decide),
        hbit 5 (by decide) (by decide)]

namespace FeedSlotRecords

/-- Records that were parsed pass the validation, and the filter format is set when some slot
needs it. -/
theorem of_parse {bytes : Bytes} {epoch : StoreId} {records : FeedSlotRecords}
    (h : parseFeedSlotRecords bytes epoch = .ok records) :
    records.epoch = epoch ∧ validateRecords records = .ok () ∧ records.Representable ∧
      records.extended = records.filterFormat := by
  simp only [parseFeedSlotRecords, require_bind] at h
  obtain ⟨-, -, -, hepoch, -, h⟩ := h
  obtain ⟨⟨slots, rest⟩, hslots, h⟩ := bind_eq_ok.1 h
  simp only [check_bind_eq_ok] at h
  obtain ⟨-, hvalid, h⟩ := h
  cases h
  have hspec := times_forall readSlotRecord_spec hslots
  refine ⟨hepoch, hvalid, ⟨readLe_lt 8 bytes 24, fun slot hmem => (hspec slot hmem).1⟩, ?_⟩
  rw [extended, Bool.or_eq_left_iff_imp, any_eq_true]
  rintro ⟨slot, hmem, hextended⟩
  exact (hspec slot hmem).2 hextended

/-- Records that pass the validation are written and read back. -/
theorem parse_serialize {records : FeedSlotRecords} (hvalid : validateRecords records = .ok ())
    (hfits : records.Representable) :
    serializeFeedSlotRecords records = .ok (withCrc records.body) ∧
      parseFeedSlotRecords (withCrc records.body) records.epoch
        = .ok { records with filterFormat := records.extended } := by
  have hencodable := records.encodable_of_validateRecords hvalid hfits
  obtain ⟨hheader, hformat, howned⟩ := records.header_spec
  constructor
  · rw [serializeFeedSlotRecords, hvalid, ok_bind]
    rfl
  have hchecks := hvalid
  simp only [validateRecords, require_bind] at hchecks
  obtain ⟨-, hcount, hloop⟩ := hchecks
  have hsize := validateSlots_size (by decide) hloop
  rw [← length_slots hencodable] at hsize
  have hlength : (withCrc records.body).length
      = kSlotsFixedBytes + (records.slots.flatMap encodeSlotRecord).length := by
    rw [length_withCrc, length_body, kSlotsFixedBytes]
    omega
  have hslot : ∀ slot ∈ records.slots, ∀ rest,
      readSlotRecord records.extended (records.version = kOwnerVersion)
        (encodeSlotRecord slot ++ rest) = .ok (slot, rest) := by
    intro slot hmem
    refine (hencodable slot hmem).read_encode (fun hext => ?_) (fun hown => ?_)
    · rw [extended, Bool.or_eq_true, any_eq_true]
      exact Or.inr ⟨slot, hmem, hext⟩
    · exact decide_eq_true (howned (any_eq_true.2 ⟨slot, hmem, hown⟩))
  have hslots := times_flatMap hslot []
  rw [append_nil] at hslots
  have hfields := records.fieldsAt_file
  simp only [FieldsAt, records.epoch.length_eq, show kSlotsMagic.length = 4 from rfl,
    drop_zero] at hfields
  obtain ⟨hmagic, hversion, hflags, hepoch, hwatermark, hslotCount, -⟩ := hfields
  simp only [parseFeedSlotRecords, hversion records.version_lt, hflags records.headerFlags_lt,
    storeIdAt_eq hepoch, hwatermark hfits.durableWatermark, hslotCount (hcount.trans_lt (by decide)),
    slots_file, hformat]
  rw [require_of ⟨by omega, by omega⟩, ok_bind, require_of ⟨hmagic, hheader⟩,
    ok_bind, require_of (checksum_withCrc records.body), ok_bind, require_of trivial,
    ok_bind, require_of hcount, ok_bind, hslots, ok_bind]
  dsimp only
  -- the validation does not read the mark of the format
  have hvalid' : validateRecords ⟨records.epoch, records.durableWatermark, records.slots,
      records.extended⟩ = .ok () := hvalid
  rw [require_of rfl, ok_bind, hvalid', ok_bind]
  rfl

end FeedSlotRecords

/-- Slot records that pass `ValidateRecords` are written and read back under their epoch, with
the mark of the filter format set when it was set or some slot has a filter or a schema loss;
and the records of a file that is accepted, of any version, are written and read back as they
are. -/
theorem feed_slot_records_codec :
    (∀ records : FeedSlotRecords, records.Representable → validateRecords records = .ok () →
      ∃ file, serializeFeedSlotRecords records = .ok file ∧
        parseFeedSlotRecords file records.epoch = .ok { records with
          filterFormat := records.filterFormat ||
            records.slots.any fun slot => !slot.filters.empty || slot.schemaFilterLost }) ∧
    ∀ (bytes : Bytes) (epoch : StoreId) (records : FeedSlotRecords),
      parseFeedSlotRecords bytes epoch = .ok records →
      ∃ file, serializeFeedSlotRecords records = .ok file ∧
        parseFeedSlotRecords file epoch = .ok records := by
  constructor
  · intro records hfits hvalid
    obtain ⟨hserialize, hparse⟩ := FeedSlotRecords.parse_serialize hvalid hfits
    exact ⟨_, hserialize, hparse⟩
  · intro bytes epoch records h
    obtain ⟨rfl, hvalid, hfits, hextended⟩ := FeedSlotRecords.of_parse h
    obtain ⟨hserialize, hparse⟩ := FeedSlotRecords.parse_serialize hvalid hfits
    rw [hextended] at hparse
    exact ⟨_, hserialize, hparse⟩

/-- A slot with a filter, a projection and an owner beside one without any of them. -/
def filteredSlots : FeedSlotRecords where
  epoch := StoreId.ofByte 1
  durableWatermark := 9
  slots := [⟨"mirror", 7, true, ⟨some ⟨⟨-2, 0⟩, ⟨3, 5⟩⟩, some [4, 1], true, false⟩, true, some "ada"⟩,
    ⟨"audit", 9, false, ⟨none, none, false, false⟩, false, none⟩]
  filterFormat := false

theorem feed_slot_records_codec_filtered :
    filteredSlots.Representable ∧ validateRecords filteredSlots = .ok () ∧
      ∃ file, serializeFeedSlotRecords filteredSlots = .ok file ∧
        parseFeedSlotRecords file (StoreId.ofByte 1)
          = .ok { filteredSlots with filterFormat := true } := by
  have hfits : filteredSlots.Representable := ⟨by decide, by decide⟩
  have hvalid : validateRecords filteredSlots = .ok () := by decide +kernel
  exact ⟨hfits, hvalid, feed_slot_records_codec.1 filteredSlots hfits hvalid⟩

end ChunkDb
