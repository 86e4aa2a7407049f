/-
# Frames are read back as they were built

What a `WalFrameBuilder` accepts, `ParseFrame` reads back: the header with both
checksums, the TLV fields, and the records, provided they fit the layout of the
frame's schema version.  A frame cut anywhere stops the reader as one that reaches
the end of the file.  The reader and the builder check the order of value records
against states of their own; `ParsedRecords.Tracks` relates the two.
-/
import ChunkDb.Wal.Parse

open LittleEndian List

namespace ChunkDb

open WalRecord

/-! ## What the builder's checks give -/

namespace BuilderState

/-- The builder's own checks of a record: sizes that fit their fields, and value
records in key order or one replacement. -/
def Accepts (state : BuilderState) : WalRecord → Prop
  | .span byteOffset bytes => bytes ≠ [] ∧ byteOffset + bytes.length ≤ kMaxUInt32
  | .varPut key value => state.hasVarReplace = false ∧ (∀ last ∈ state.lastVarKey, last < key)
      ∧ value.length ≤ kMaxUInt32
  | .varDel key => state.hasVarReplace = false ∧ ∀ last ∈ state.lastVarKey, last < key
  | .varReplace _ => state.hasVarReplace = false ∧ state.lastVarKey = none

/-- The builder after a record. -/
def next (state : BuilderState) : WalRecord → BuilderState
  | .span _ _ => { state with recordCount := state.recordCount + 1 }
  | .varPut key _ | .varDel key =>
    { state with recordCount := state.recordCount + 1, lastVarKey := some key }
  | .varReplace _ => { state with recordCount := state.recordCount + 1, hasVarReplace := true }

theorem append_eq_ok {state result : BuilderState} {record : WalRecord}
    (h : state.append record = .ok result) :
    state.recordCount < kMaxUInt32 ∧ record.body.length ≤ kMaxUInt32 ∧ state.Accepts record
      ∧ result = state.next record := by
  have hmax : kMaxUInt32 = 2 ^ 32 - 1 := rfl
  cases record <;>
    simp only [append, requireVarOrder, beginRecord, check_bind_eq_ok, require_eq_ok,
      not_or, not_exists, not_and, not_le, Bool.not_eq_true] at h
  case span byteOffset bytes =>
    obtain ⟨hne, ⟨hsize, hoffset⟩, hcount, h⟩ := h
    have hpos := length_pos_iff.mpr hne
    refine ⟨hcount, ?_, ⟨hne, by omega⟩, (Except.ok.inj h).symm⟩
    simp only [body, length_append, length_leBytes]
    unfold kWalSpanOffsetSize at hsize
    omega
  case varPut key value =>
    obtain ⟨⟨hreplace, horder⟩, ⟨hsize, hcount⟩, h⟩ := h
    refine ⟨hcount, ?_, ⟨hreplace, horder, by omega⟩, (Except.ok.inj h).symm⟩
    rw [body, ChunkVars.length_encodeEntry]
    exact hsize
  case varDel key =>
    obtain ⟨⟨hreplace, horder⟩, ⟨_, hcount⟩, h⟩ := h
    refine ⟨hcount, ?_, ⟨hreplace, horder⟩, (Except.ok.inj h).symm⟩
    simp [body, kMaxUInt32]
  case varReplace vars =>
    obtain ⟨⟨hreplace, hlast⟩, ⟨hsize, hcount⟩, h⟩ := h
    refine ⟨hcount, ?_, ⟨hreplace, by simpa using hlast⟩, (Except.ok.inj h).symm⟩
    rw [body, ChunkVars.length_encode]
    exact hsize

theorem recordCount_next (state : BuilderState) (record : WalRecord) :
    (state.next record).recordCount = state.recordCount + 1 := by
  cases record <;> rfl

theorem appendAll_recordCount {state result : BuilderState} {records : List WalRecord}
    (h : state.appendAll records = .ok result) (hle : state.recordCount ≤ kMaxUInt32) :
    result.recordCount = state.recordCount + records.length ∧ result.recordCount ≤ kMaxUInt32 := by
  induction records generalizing state with
  | nil =>
    cases h
    exact ⟨rfl, hle⟩
  | cons record records ih =>
    rw [appendAll, bind_eq_ok] at h
    obtain ⟨next, hnext, hrest⟩ := h
    obtain ⟨hlt, _, _, rfl⟩ := append_eq_ok hnext
    rw [length_cons]
    have hcount := recordCount_next state record
    have := ih hrest (by omega)
    omega

end BuilderState

/-- A frame that was built. -/
structure FrameInput.Built (input : FrameInput) : Prop where
  tlvArea_le : input.tlvArea.length ≤ kMaxUInt16
  recordArea_le : input.recordArea.length ≤ kMaxUInt32
  records_ne : input.records ≠ []
  records_le : input.records.length ≤ kMaxUInt32
  appended : ∃ state, BuilderState.appendAll ⟨0, none, false⟩ input.records = .ok state

theorem FrameInput.buildFrame_eq_ok {input : FrameInput} {frame : Bytes}
    (h : input.buildFrame = .ok frame) : input.Built ∧ frame = input.frameBytes := by
  unfold buildFrame at h
  simp only [require_bind] at h
  rw [bind_eq_ok] at h
  obtain ⟨_, _, htlv, state, happend, h⟩ := h
  simp only [require_bind] at h
  obtain ⟨hne, hbody, h⟩ := h
  obtain ⟨hcount, hle⟩ := BuilderState.appendAll_recordCount happend (Nat.zero_le _)
  refine ⟨⟨htlv, hbody, ?_, by omega, state, happend⟩, (Except.ok.inj h).symm⟩
  rintro hnil
  simp [hnil] at hcount
  exact hne hcount

/-! ## Reading back the header -/

namespace FrameInput

variable (input : FrameInput)

@[simp] theorem length_headerFields :
    input.headerFields.length = kWalFrameFixedHeaderSize - 4 + input.tlvArea.length := by
  simp only [headerFields, length_append, length_leBytes, kWalFrameFixedHeaderSize]

/-- The header a built frame is read back with. -/
def header : FrameHeader where
  revision := input.revision.toNat
  commitTimeMs := input.commitTimeMs.toNat
  flags := if input.gc then kWalFrameGc else 0
  tlvSize := input.tlvArea.length
  recordCount := input.records.length
  bodySize := input.recordArea.length

theorem total_header :
    input.header.total = 32 + input.tlvArea.length + 4 + input.recordArea.length + 4 := rfl

@[simp] theorem length_frameBytes : input.frameBytes.length = input.header.total := by
  simp only [frameBytes, length_append, length_leBytes, length_headerFields, header,
    FrameHeader.total, FrameHeader.headerSize, kWalFrameMagic, kWalFrameFixedHeaderSize,
    kWalFrameHeaderCrcSize, kWalFrameTrailerSize, length_cons, length_nil]
  omega

theorem take_frameBytes (rest : Bytes) : (input.frameBytes ++ rest).take 4 = kWalFrameMagic := by
  simp only [frameBytes, append_assoc]
  exact take_left' rfl

theorem read_frameBytes (h : input.Built) (rest : Bytes) :
    FrameHeader.read (input.frameBytes ++ rest) = input.header := by
  have htlv := h.tlvArea_le
  have hcount := h.records_le
  have hbody := h.recordArea_le
  unfold kMaxUInt16 at htlv
  unfold kMaxUInt32 at hcount hbody
  have hfields : FieldsAt [.raw kWalFrameMagic, .num 8 input.revision.toNat,
      .num 8 input.commitTimeMs.toNat, .num 2 (if input.gc then kWalFrameGc else 0),
      .num 2 input.tlvArea.length, .num 4 input.records.length, .num 4 input.recordArea.length]
      (input.frameBytes ++ rest) 0 := by
    simp only [frameBytes, headerFields, append_assoc]
    exact fieldsAt_encodeFields _ _
  simp only [FieldsAt, show kWalFrameMagic.length = 4 from rfl] at hfields
  obtain ⟨-, hrevision, htime, hflags, htlvSize, hrecords, hsize, -⟩ := hfields
  simp only [FrameHeader.read, header, hrevision input.revision.toNat_lt,
    htime input.commitTimeMs.toNat_lt, hflags (by split <;> decide), htlvSize (by omega),
    hrecords (by omega), hsize (by omega)]

theorem headerCrcMatches_frameBytes (rest : Bytes) :
    headerCrcMatches (input.frameBytes ++ rest) input.tlvArea.length = true := by
  have hfields := input.length_headerFields
  have hdrop : (input.frameBytes ++ rest).drop 4 = input.headerFields
      ++ (leBytes 4 (crc32 input.headerFields) ++ (input.recordArea
        ++ (leBytes 4 (crc32 input.recordArea) ++ rest))) := by
    simp only [frameBytes, append_assoc]
    exact drop_left' rfl
  have hsize : kWalFrameFixedHeaderSize + input.tlvArea.length - 4 = input.headerFields.length := by
    rw [hfields]
    unfold kWalFrameFixedHeaderSize
    omega
  have hread : readLe 4 (input.frameBytes ++ rest) (kWalFrameFixedHeaderSize + input.tlvArea.length)
      = crc32 input.headerFields := by
    simp only [frameBytes, append_assoc]
    rw [← append_assoc]
    refine readLe_middle 4 _ _ _ _ ?_ (crc32_lt _)
    simp only [length_append, hfields, kWalFrameMagic, kWalFrameFixedHeaderSize,
      length_cons, length_nil]
    omega
  rw [headerCrcMatches, hdrop, hsize, take_left, hread]
  simp

/-- The record area is where the header says. -/
theorem recordArea_frameBytes (rest : Bytes) :
    ((input.frameBytes ++ rest).drop input.header.headerSize).take input.header.bodySize
        = input.recordArea
      ∧ readLe 4 (input.frameBytes ++ rest) (input.header.headerSize + input.header.bodySize)
        = crc32 input.recordArea := by
  have hfields := input.length_headerFields
  have hhead : (kWalFrameMagic ++ input.headerFields ++ leBytes 4 (crc32 input.headerFields)).length
      = input.header.headerSize := by
    simp only [length_append, hfields, kWalFrameMagic, length_leBytes, header,
      FrameHeader.headerSize, kWalFrameFixedHeaderSize, kWalFrameHeaderCrcSize, length_cons,
      length_nil]
    omega
  constructor
  · rw [frameBytes, append_assoc, append_assoc, drop_left' hhead]
    exact take_left' rfl
  · rw [frameBytes, append_assoc]
    refine readLe_middle 4 _ _ _ _ ?_ (crc32_lt _)
    rw [length_append, hhead]
    rfl

/-- A built frame passes both checksums, whatever follows it. -/
theorem parseFrameHeader_frameBytes (h : input.Built) (rest : Bytes) :
    parseFrameHeader (input.frameBytes ++ rest) = .ok input.header := by
  have hlen : (input.frameBytes ++ rest).length = input.header.total + rest.length := by
    rw [length_append, length_frameBytes]
  have htotal : input.header.total = input.header.headerSize + input.recordArea.length + 4 := rfl
  have hsize : input.header.headerSize = 32 + input.tlvArea.length + 4 := rfl
  have hfixed : kWalFrameFixedHeaderSize = 32 := rfl
  obtain ⟨harea, hcrc⟩ := input.recordArea_frameBytes rest
  unfold parseFrameHeader
  simp only [input.read_frameBytes h rest]
  rw [if_neg (by omega), if_neg (by rw [take_frameBytes]; simp), if_neg (by omega),
    if_neg (by rw [show input.header.tlvSize = input.tlvArea.length from rfl,
      headerCrcMatches_frameBytes]; simp),
    if_neg (by omega), if_neg (by rw [harea, hcrc]; simp)]

end FrameInput

/-! ## Reading back the fields and records -/

variable (slotsEnabled maySkipUnknown : Bool)

/-- Rounds beyond one per byte change nothing. -/
theorem parseTlvs_of_le (fuel : ℕ) (fields : TlvFields)
    (area : Bytes) (h : area.length ≤ fuel) :
    parseTlvs slotsEnabled maySkipUnknown fuel fields area
      = parseTlvs slotsEnabled maySkipUnknown area.length fields area := by
  have hmono : ∀ (n m : ℕ) (fields : TlvFields) (area : Bytes), area.length ≤ n → area.length ≤ m →
      parseTlvs slotsEnabled maySkipUnknown n fields area
        = parseTlvs slotsEnabled maySkipUnknown m fields area := by
    intro n
    induction n with
    | zero =>
      intro m fields area hn _
      rw [eq_nil_of_length_eq_zero (Nat.le_zero.mp hn)]
      cases m <;> rfl
    | succ n ih =>
      intro m fields area hn hm
      cases m with
      | zero =>
        rw [eq_nil_of_length_eq_zero (Nat.le_zero.mp hm)]
        rfl
      | succ m =>
        rw [parseTlvs, parseTlvs]
        by_cases hnil : area = []
        · rw [if_pos hnil, if_pos hnil]
        · have hpos := length_pos_iff.mpr hnil
          have hheader : kWalTlvHeaderSize = 4 := rfl
          rw [if_neg hnil, if_neg hnil]
          dsimp only
          congr 3
          funext fields
          exact ih m fields _ (by rw [length_drop]; omega) (by rw [length_drop]; omega)
  exact hmono fuel area.length fields area h le_rfl

/-- One field at the head of the area is taken into account. -/
theorem parseTlvs_tlv (fields : TlvFields) (type : ℕ)
    (value rest : Bytes) (htype : type < 2 ^ 16) (hvalue : value.length < 2 ^ 16) :
    parseTlvs slotsEnabled maySkipUnknown (FrameInput.tlv type value ++ rest).length fields
        (FrameInput.tlv type value ++ rest)
      = (readTlv slotsEnabled maySkipUnknown fields type value >>= fun fields =>
          parseTlvs slotsEnabled maySkipUnknown rest.length fields rest) := by
  set area := FrameInput.tlv type value ++ rest with harea
  have hsplit : area = leBytes 2 type ++ (leBytes 2 value.length ++ (value ++ rest)) := by
    simp only [harea, FrameInput.tlv, append_assoc]
  have hlen : area.length = 3 + value.length + rest.length + 1 := by
    rw [hsplit]
    simp only [length_append, length_leBytes]
    omega
  have h0 : readLe 2 area 0 = type := by
    rw [hsplit]
    exact readLe_leBytes 2 _ _ (by omega)
  have h2 : readLe 2 area 2 = value.length := by
    rw [hsplit]
    exact readLe_middle 2 _ _ _ 2 (by simp) (by omega)
  have hdrop : area.drop kWalTlvHeaderSize = value ++ rest := by
    rw [hsplit, ← append_assoc]
    exact drop_left' (by simp [kWalTlvHeaderSize])
  have hheader : kWalTlvHeaderSize = 4 := rfl
  rw [hlen, parseTlvs, if_neg (by rw [← length_eq_zero_iff]; omega), if_neg (by omega)]
  simp only [h0, h2]
  rw [if_neg (by omega), ← drop_drop, hdrop, take_left, drop_left]
  congr 1
  funext fields
  exact parseTlvs_of_le _ _ _ _ _ (by omega)

namespace FrameInput

variable (input : FrameInput)

/-- The TLV fields a built frame is read back with. -/
def tlvFields : TlvFields where
  haveTag := input.tag ≠ []
  schema := if input.schemaVersion > 1 then some input.schemaVersion else none
  user := if input.userBytes = [] then none else some input.userBytes

theorem getD_schema (h : 0 < input.schemaVersion) :
    input.tlvFields.schema.getD 1 = input.schemaVersion := by
  unfold tlvFields
  dsimp only
  split
  · rfl
  · rw [Option.getD_none]
    omega

section Tlvs

variable {input} (slotsEnabled maySkipUnknown : Bool) (fields : TlvFields) (rest : Bytes)

theorem parseTlvs_tagTlv (hlen : input.tagTlv.length < 2 ^ 16) (hnone : fields.haveTag = false) :
    parseTlvs slotsEnabled maySkipUnknown (input.tagTlv ++ rest).length fields (input.tagTlv ++ rest)
      = parseTlvs slotsEnabled maySkipUnknown rest.length
          { fields with haveTag := input.tlvFields.haveTag } rest := by
  unfold tagTlv tlvFields at *
  by_cases hnil : input.tag = []
  · simp [hnil, ← hnone]
  · simp only [if_neg hnil] at hlen ⊢
    simp only [tlv, length_append] at hlen
    rw [parseTlvs_tlv _ _ _ _ _ _ (by decide) (by omega)]
    simp [readTlv, hnone, hnil, bind, Except.bind]

theorem parseTlvs_schemaTlv (hversion : input.schemaVersion < 2 ^ 64) (hnone : fields.schema = none) :
    parseTlvs slotsEnabled maySkipUnknown (input.schemaTlv ++ rest).length fields
        (input.schemaTlv ++ rest)
      = parseTlvs slotsEnabled maySkipUnknown rest.length
          { fields with schema := input.tlvFields.schema } rest := by
  unfold schemaTlv tlvFields
  by_cases hone : input.schemaVersion > 1
  · simp only [if_pos hone]
    rw [parseTlvs_tlv _ _ _ _ _ _ (by decide) (by rw [length_leBytes]; norm_num)]
    simp [readTlv, hnone, kWalTlvTag, kWalTlvSchema, bind, Except.bind,
      leNat_leBytes_of_lt 8 input.schemaVersion (by simpa using hversion)]
  · simp [hone, ← hnone]

theorem parseTlvs_userTlv (hlen : input.userTlv.length < 2 ^ 16) (hnone : fields.user = none)
    (huser : input.userBytes ≠ [] → slotsEnabled = true) :
    parseTlvs slotsEnabled maySkipUnknown input.userTlv.length fields input.userTlv
      = .ok { fields with user := input.tlvFields.user } := by
  unfold userTlv tlvFields at *
  by_cases hnil : input.userBytes = []
  · simp [hnil, parseTlvs, ← hnone]
  · simp only [if_neg hnil] at hlen ⊢
    simp only [tlv, length_append] at hlen
    rw [← append_nil (tlv _ _), parseTlvs_tlv _ _ _ _ _ _ (by decide) (by omega)]
    simp [readTlv, kWalTlvUser, kWalTlvTag, kWalTlvSchema, huser hnil, hnone, hnil, parseTlvs, bind,
      Except.bind]

end Tlvs

/-- The TLV area of a built frame is read back. -/
theorem parseTlvs_tlvArea (slotsEnabled maySkipUnknown : Bool) (h : input.Built)
    (hversion : input.schemaVersion < 2 ^ 64)
    (huser : input.userBytes ≠ [] → slotsEnabled = true) :
    parseTlvs slotsEnabled maySkipUnknown input.tlvArea.length ⟨false, none, none⟩ input.tlvArea
      = .ok input.tlvFields := by
  have htlv := h.tlvArea_le
  simp only [tlvArea, length_append, kMaxUInt16] at htlv
  rw [tlvArea, parseTlvs_tagTlv _ _ _ _ (by omega) rfl, parseTlvs_schemaTlv _ _ _ _ hversion rfl,
    parseTlvs_userTlv _ _ _ (by omega) rfl huser]

end FrameInput

/-- A record the layout's shape has room for. -/
def FrameShape.Fits (shape : FrameShape) : WalRecord → Prop
  | .span byteOffset bytes => byteOffset + bytes.length ≤ shape.stateSize
      ∧ spanShapeValid byteOffset (byteOffset + bytes.length) shape.payloadBoundary shape.stateSize
        = true
  | .varPut key _ | .varDel key =>
    shape.varsEnabled = true ∧ key.blockIndex.toNat < shape.blockCount
  | .varReplace vars => shape.varsEnabled = true ∧ vars.encodedSize ≤ kVarMaxChunkBytesLimit
      ∧ ∀ e ∈ vars.entries, e.1.blockIndex.toNat < shape.blockCount

/-- The records read so far with one more. -/
def ParsedRecords.add (records : ParsedRecords) : WalRecord → ParsedRecords
  | .span byteOffset bytes => { records with spans := records.spans ++ [(byteOffset, bytes)] }
  | .varPut key value => { records with varOps := records.varOps ++ [(key, some value)] }
  | .varDel key => { records with varOps := records.varOps ++ [(key, none)] }
  | .varReplace vars => { records with varReplace := some vars }

/-- Reader and builder agree on the value records so far. -/
structure ParsedRecords.Tracks (records : ParsedRecords) (state : BuilderState) : Prop where
  lastKey : records.varOps.getLast?.map Prod.fst = state.lastVarKey
  replaced : records.varReplace.isSome = state.hasVarReplace

variable {records : ParsedRecords} {state : BuilderState} {shape : FrameShape}

theorem ParsedRecords.Tracks.add (h : records.Tracks state) (record : WalRecord) :
    (records.add record).Tracks (state.next record) := by
  obtain ⟨hlast, hreplaced⟩ := h
  cases record
  case span => exact ⟨hlast, hreplaced⟩
  case varPut key value => exact ⟨by simp [ParsedRecords.add, BuilderState.next], hreplaced⟩
  case varDel key => exact ⟨by simp [ParsedRecords.add, BuilderState.next], hreplaced⟩
  case varReplace vars => exact ⟨hlast, rfl⟩

theorem parseVarRecord_key (htracks : records.Tracks state) (hreplace : state.hasVarReplace = false)
    {key : VarKey} (horder : ∀ last ∈ state.lastVarKey, last < key)
    (henabled : shape.varsEnabled = true) (hblock : key.blockIndex.toNat < shape.blockCount)
    (type : UInt8) (htype : type ≠ kWalRecordVarReplace) (tail : Bytes)
    (hshape : if type = kWalRecordVarPut then
        ∃ value : Bytes, value.length < 2 ^ 32 ∧ tail = leBytes 4 value.length ++ value
      else tail = []) :
    parseVarRecord shape records type
        (leBytes 4 key.columnId.toNat ++ leBytes 4 key.blockIndex.toNat ++ tail)
      = .ok { records with varOps := records.varOps
          ++ [(key, if type = kWalRecordVarPut then some (tail.drop 4) else none)] } := by
  set body := leBytes 4 key.columnId.toNat ++ leBytes 4 key.blockIndex.toNat ++ tail with hbody
  have hcolumn := key.columnId.toNat_lt
  have hindex := key.blockIndex.toNat_lt
  have hlen : body.length = 8 + tail.length := by
    simp only [hbody, length_append, length_leBytes]
  have h0 : readLe 4 body 0 = key.columnId.toNat := by
    rw [hbody, append_assoc]
    exact readLe_leBytes 4 _ _ (by simpa using hcolumn)
  have h4 : readLe 4 body 4 = key.blockIndex.toNat := by
    rw [hbody, append_assoc]
    exact readLe_middle 4 _ _ _ 4 (by simp) (by simpa using hindex)
  have hnoreplace : ¬ (records.varReplace.isSome = true) := by
    rw [htracks.replaced, hreplace]
    simp
  have hafter : ¬ ∃ last ∈ records.varOps.getLast?, key ≤ last.1 := by
    rintro ⟨last, hlast, hle⟩
    have hmem : last.1 ∈ state.lastVarKey := by
      rw [← htracks.lastKey, hlast]
      rfl
    exact absurd (horder _ hmem) (not_lt.mpr hle)
  have hheader : kVarEntryHeaderBytes = 12 := rfl
  unfold parseVarRecord
  rw [if_neg (by simp [henabled]), if_neg hnoreplace, if_neg htype]
  simp only [h0, h4, UInt32.ofNat_toNat]
  by_cases hput : type = kWalRecordVarPut
  · rw [if_pos hput] at hshape
    obtain ⟨value, hvalue, htail⟩ := hshape
    have htlen : tail.length = 4 + value.length := by
      rw [htail, length_append, length_leBytes]
    have h8 : readLe 4 body 8 = value.length := by
      rw [hbody, htail]
      exact readLe_middle 4 _ _ _ 8 (by simp) (by omega)
    have hdrop : body.drop kVarEntryHeaderBytes = tail.drop 4 := by
      rw [hbody, hheader, drop_append, drop_of_length_le (by simp)]
      simp
    rw [if_neg (by simp only [hput, true_and, not_true_eq_false, false_and, or_false]; omega),
      if_neg (by omega), if_neg hafter, if_neg (by rw [h8]; omega), if_pos hput, if_pos hput, hdrop]
  · rw [if_neg hput] at hshape
    rw [if_neg (by simp only [hput, false_and, not_false_eq_true, true_and, false_or, hlen, hshape,
        length_nil]; simp),
      if_neg (by omega), if_neg hafter, if_neg (by simp [hput]), if_neg hput, if_neg hput]

/-- A record the builder and the layout accept is read back. -/
theorem parseRecord_of_fits {record : WalRecord} (htracks : records.Tracks state)
    (haccepts : state.Accepts record) (hfits : shape.Fits record) :
    parseRecord shape records record.type record.body = .ok (records.add record) := by
  cases record with
  | span byteOffset bytes =>
    obtain ⟨hne, hmax⟩ := haccepts
    obtain ⟨hend, hshape⟩ := hfits
    have hpos := length_pos_iff.mpr hne
    unfold kMaxUInt32 at hmax
    have h0 : readLe 4 (leBytes 4 byteOffset ++ bytes) 0 = byteOffset :=
      readLe_leBytes 4 _ _ (by omega)
    have hdrop : (leBytes 4 byteOffset ++ bytes).drop kWalSpanOffsetSize = bytes :=
      drop_left' (by simp [kWalSpanOffsetSize])
    have hoffset : kWalSpanOffsetSize = 4 := rfl
    simp only [parseRecord, type, body, if_true, parseSpanRecord, h0, hdrop]
    rw [if_neg (by rw [length_append, length_leBytes]; omega), if_neg (by omega),
      if_neg (by simp [hshape])]
    rfl
  | varPut key value =>
    obtain ⟨hreplace, horder, hvalue⟩ := haccepts
    obtain ⟨henabled, hblock⟩ := hfits
    unfold kMaxUInt32 at hvalue
    have h := parseVarRecord_key htracks hreplace horder henabled hblock kWalRecordVarPut
      (by decide) (leBytes 4 value.length ++ value) (by
        rw [if_pos rfl]
        exact ⟨value, by omega, rfl⟩)
    have hbody : (varPut key value).body = leBytes 4 key.columnId.toNat
        ++ leBytes 4 key.blockIndex.toNat ++ (leBytes 4 value.length ++ value) := by
      simp [body, ChunkVars.encodeEntry]
    rw [if_pos rfl, drop_left' (length_leBytes ..)] at h
    rw [hbody]
    exact h
  | varDel key =>
    obtain ⟨hreplace, horder⟩ := haccepts
    obtain ⟨henabled, hblock⟩ := hfits
    have h := parseVarRecord_key htracks hreplace horder henabled hblock kWalRecordVarDel
      (by decide) [] (by rw [if_neg (by decide)])
    rw [if_neg (by decide), append_nil] at h
    exact h
  | varReplace vars =>
    obtain ⟨hreplace, hlast⟩ := haccepts
    obtain ⟨henabled, hsize, hblock⟩ := hfits
    have hops : records.varOps = [] := by
      have := htracks.lastKey
      rw [hlast, Option.map_eq_none_iff, getLast?_eq_none_iff] at this
      exact this
    have hnoreplace : ¬ (records.varReplace.isSome = true) := by
      rw [htracks.replaced, hreplace]
      simp
    have hdecode := ChunkVars.decode_encode vars shape.blockCount hsize hblock
    change parseVarRecord shape records kWalRecordVarReplace vars.encode = _
    unfold parseVarRecord
    rw [if_neg (by simp [henabled]), if_neg hnoreplace, if_pos rfl, if_neg (by simp [hops]),
      hdecode]
    rfl

/-- The records the reader collects from these. -/
def ParsedRecords.addAll (records : ParsedRecords) (added : List WalRecord) : ParsedRecords :=
  added.foldl ParsedRecords.add records

theorem ParsedRecords.mem_spans_addAll {added : List WalRecord} {span : ℕ × Bytes}
    (h : span ∈ (records.addAll added).spans) :
    span ∈ records.spans ∨ .span span.1 span.2 ∈ added := by
  induction added generalizing records with
  | nil => exact .inl h
  | cons record added ih =>
    rcases ih h with hrecord | hadded
    · cases record with
      | span byteOffset bytes =>
        rcases mem_append.mp hrecord with hold | hnew
        · exact .inl hold
        · obtain rfl := mem_singleton.mp hnew
          exact .inr mem_cons_self
      | varPut key value => exact .inl hrecord
      | varDel key => exact .inl hrecord
      | varReplace vars => exact .inl hrecord
    · exact .inr (mem_cons_of_mem _ hadded)

/-- The records a builder took are read back one after the other. -/
theorem parseRecords_flatMap (added : List WalRecord) {result : BuilderState}
    (htracks : records.Tracks state) (happend : state.appendAll added = .ok result)
    (hfits : ∀ record ∈ added, shape.Fits record) :
    parseRecords shape added.length records (added.flatMap WalRecord.encode)
      = .ok (records.addAll added) := by
  induction added generalizing records state with
  | nil => rfl
  | cons record added ih =>
    rw [BuilderState.appendAll, bind_eq_ok] at happend
    obtain ⟨next, hnext, hrest⟩ := happend
    obtain ⟨_, hbody, haccepts, rfl⟩ := BuilderState.append_eq_ok hnext
    have hrecord := parseRecord_of_fits htracks haccepts (hfits record mem_cons_self)
    set tail := added.flatMap encode with htail
    have harea : (record :: added).flatMap encode
        = [record.type] ++ (leBytes 4 record.body.length ++ (record.body ++ tail)) := by
      simp [encode, htail]
    have hheader : kWalRecordHeaderSize = 5 := rfl
    have hdrop : ((record :: added).flatMap encode).drop kWalRecordHeaderSize
        = record.body ++ tail := by
      rw [harea, ← append_assoc]
      exact drop_left' (by simp [kWalRecordHeaderSize])
    have hsize : readLe 4 ((record :: added).flatMap encode) 1 = record.body.length := by
      unfold kMaxUInt32 at hbody
      rw [harea]
      exact readLe_middle 4 _ _ _ 1 rfl (by omega)
    have htype : ((record :: added).flatMap encode).getD 0 0 = record.type := by
      rw [harea]
      rfl
    rw [length_cons, parseRecords]
    simp only [hsize, htype, hdrop]
    rw [if_neg (by rw [harea]; simp [hheader]), if_neg (by rw [length_append]; omega),
      take_left, drop_left, hrecord]
    exact ih (htracks.add record) hrest fun r hr => hfits r (mem_cons_of_mem _ hr)

/-! ## The whole frame -/

namespace FrameInput

variable (input : FrameInput)

/-- The records a built frame is read back with. -/
def parsedRecords : ParsedRecords := ParsedRecords.addAll ⟨[], [], none⟩ input.records

/-- The frame a built frame is read back as. -/
def parsed : ParsedFrame where
  revision := input.revision.toNat
  schemaVersion := input.schemaVersion
  commitTimeMs := input.commitTimeMs.toNat
  user := input.tlvFields.user
  gc := input.gc
  size := input.header.total
  spans := input.parsedRecords.spans
  varOps := input.parsedRecords.varOps
  varReplace := input.parsedRecords.varReplace
  recordCount := input.records.length

/-- What a writer of the table promises of the frames it builds: a version the table has, a
user or collection marker only with slots, records inside the layout of the version, and a
collection marker only on a frame that resets the whole state. -/
structure Fits (geometry : Geometry) (slotsEnabled : Bool) (layout : ChunkLayout) : Prop where
  version_pos : 0 < input.schemaVersion
  version_le : input.schemaVersion ≤ geometry.layout.schema.version
  user_slots : input.userBytes ≠ [] → slotsEnabled = true
  gc_slots : input.gc = true → slotsEnabled = true
  layoutAt_eq : geometry.layoutAt input.schemaVersion = .ok layout
  records_fit : ∀ record ∈ input.records, (frameShape geometry layout false).Fits record
  gc_reset : input.gc = true → isEmptyReset (frameShape geometry layout false)
    input.tlvFields.haveTag input.records.length input.parsedRecords = true

variable {input} {geometry : Geometry} {slotsEnabled : Bool} {layout : ChunkLayout}

/-- The TLV area is where the header says. -/
theorem tlvArea_frameBytes (rest : Bytes) :
    ((input.frameBytes ++ rest).drop kWalFrameFixedHeaderSize).take input.header.tlvSize
      = input.tlvArea := by
  have hsplit : input.frameBytes ++ rest = (kWalFrameMagic ++ leBytes 8 input.revision.toNat
      ++ leBytes 8 input.commitTimeMs.toNat ++ leBytes 2 (if input.gc then kWalFrameGc else 0)
      ++ leBytes 2 input.tlvArea.length ++ leBytes 4 input.records.length
      ++ leBytes 4 input.recordArea.length)
      ++ (input.tlvArea ++ (leBytes 4 (crc32 input.headerFields) ++ (input.recordArea
        ++ (leBytes 4 (crc32 input.recordArea) ++ rest)))) := by
    simp only [frameBytes, headerFields, append_assoc]
  rw [hsplit, drop_left' (by simp [kWalFrameMagic, kWalFrameFixedHeaderSize])]
  exact take_left' rfl

/-- The fields of a frame the writer built for this table are accepted. -/
theorem parseFrameFields_frameBytes (h : input.Built) (hfits : input.Fits geometry slotsEnabled layout)
    (hversion : geometry.layout.schema.version < 2 ^ 64) (maySkipUnknown : Bool) (rest : Bytes) :
    parseFrameFields geometry slotsEnabled maySkipUnknown input.header (input.frameBytes ++ rest)
      = .ok input.tlvFields := by
  have hle := hfits.version_le
  have hpos := hfits.version_pos
  have hcount : input.header.recordCount ≠ 0 := fun h0 =>
    h.records_ne (eq_nil_of_length_eq_zero h0)
  have hflags : ¬ (input.header.flags &&& (kMaxUInt16 - kWalFrameGc) ≠ 0
      ∨ (input.header.flags ≠ 0 ∧ slotsEnabled = false)) := by
    unfold header
    cases hgc : input.gc
    · simp
    · simp only [if_true, hfits.gc_slots hgc, Bool.true_eq_false, and_false, or_false]
      decide
  unfold parseFrameFields
  rw [if_neg hflags, if_neg hcount, tlvArea_frameBytes]
  dsimp only
  rw [input.parseTlvs_tlvArea _ _ h (by omega) hfits.user_slots]
  simp only [bind, Except.bind, input.getD_schema hpos]
  rw [if_neg (by omega)]

theorem fits_maySkipUnknown {shape : FrameShape} {record : WalRecord} (h : shape.Fits record)
    (maySkipUnknown : Bool) : { shape with maySkipUnknown }.Fits record := by
  cases record <;> exact h

/-- A frame built for the table is read back whole, whatever follows it. -/
theorem parseFrame_frameBytes (h : input.Built) (hfits : input.Fits geometry slotsEnabled layout)
    (hversion : geometry.layout.schema.version < 2 ^ 64) (maySkipUnknown : Bool) (rest : Bytes) :
    parseFrame geometry maySkipUnknown slotsEnabled (input.frameBytes ++ rest)
      = .ok (.ok input.parsed) := by
  obtain ⟨state, happend⟩ := h.appended
  have hrecords : parseRecords (frameShape geometry layout maySkipUnknown) input.header.recordCount
      ⟨[], [], none⟩ input.recordArea = .ok input.parsedRecords :=
    parseRecords_flatMap input.records ⟨rfl, rfl⟩ happend fun record hmem =>
      fits_maySkipUnknown (hfits.records_fit record hmem) maySkipUnknown
  have hgc : decide (input.header.flags &&& kWalFrameGc ≠ 0) = input.gc := by
    rw [show input.header.flags = if input.gc then kWalFrameGc else 0 from rfl]
    cases input.gc <;> decide
  have hreset : ¬ (input.gc = true ∧ isEmptyReset (frameShape geometry layout maySkipUnknown)
      input.tlvFields.haveTag input.header.recordCount input.parsedRecords = false) := by
    rintro ⟨hmarked, hreset⟩
    have : isEmptyReset (frameShape geometry layout maySkipUnknown) input.tlvFields.haveTag
        input.header.recordCount input.parsedRecords = true := hfits.gc_reset hmarked
    rw [this] at hreset
    exact Bool.noConfusion hreset
  have hparsed : parseFrameRecords (frameShape geometry layout maySkipUnknown) input.header
      input.tlvFields (input.frameBytes ++ rest) = .ok input.parsed := by
    unfold parseFrameRecords
    rw [(input.recordArea_frameBytes rest).1]
    dsimp only
    rw [hrecords]
    simp only [bind, Except.bind, hgc]
    rw [if_neg hreset]
    simp only [parsed, input.getD_schema hfits.version_pos, header]
  unfold parseFrame
  rw [input.parseFrameHeader_frameBytes h rest]
  simp only [parseFrameFields_frameBytes h hfits hversion maySkipUnknown rest,
    input.getD_schema hfits.version_pos, hfits.layoutAt_eq, ok_bind, hparsed]
  rfl

end FrameInput

/-! ## Frames that are cut short -/

theorem FrameHeader.read_take (rest : Bytes) (k : ℕ) (h : kWalFrameFixedHeaderSize ≤ k) :
    FrameHeader.read (rest.take k) = FrameHeader.read rest := by
  unfold kWalFrameFixedHeaderSize at h
  unfold FrameHeader.read
  rw [readLe_take _ _ _ _ (by omega), readLe_take _ _ _ _ (by omega), readLe_take _ _ _ _ (by omega),
    readLe_take _ _ _ _ (by omega), readLe_take _ _ _ _ (by omega), readLe_take _ _ _ _ (by omega)]

theorem headerCrcMatches_take (rest : Bytes) (k tlvSize : ℕ)
    (h : kWalFrameFixedHeaderSize + tlvSize + 4 ≤ k) :
    headerCrcMatches (rest.take k) tlvSize = headerCrcMatches rest tlvSize := by
  unfold headerCrcMatches
  rw [readLe_take _ _ _ _ (by omega), drop_take, take_take, min_eq_left (by omega)]

/-- A frame cut anywhere stops the reader, as one that reaches the end of the file. -/
theorem FrameInput.parseFrameHeader_take (input : FrameInput) (h : input.Built) (k : ℕ)
    (hk : k < input.header.total) :
    ∃ reason, parseFrameHeader (input.frameBytes.take k) = .error ⟨reason, true, false⟩ := by
  have hread : FrameHeader.read input.frameBytes = input.header := by
    simpa using input.read_frameBytes h []
  have hcrc : headerCrcMatches input.frameBytes input.header.tlvSize = true := by
    have := input.headerCrcMatches_frameBytes []
    rwa [append_nil] at this
  have hmagic : input.frameBytes.take 4 = kWalFrameMagic := by
    simpa using input.take_frameBytes []
  have hlen : (input.frameBytes.take k).length = k := by
    rw [length_take, length_frameBytes]
    omega
  have hsize : input.header.headerSize = kWalFrameFixedHeaderSize + input.header.tlvSize + 4 := rfl
  unfold parseFrameHeader
  rw [hlen]
  by_cases hfixed : k < kWalFrameFixedHeaderSize
  · exact ⟨_, if_pos hfixed⟩
  rw [if_neg hfixed, take_take, min_eq_left (by unfold kWalFrameFixedHeaderSize at hfixed; omega),
    if_neg (not_not_intro hmagic)]
  simp only [FrameHeader.read_take _ k (not_lt.mp hfixed), hread]
  by_cases hheader : k < input.header.headerSize
  · exact ⟨_, if_pos hheader⟩
  · rw [if_neg hheader, headerCrcMatches_take _ _ _ (by omega), hcrc, if_neg (by simp), if_pos hk]
    exact ⟨"partial_frame_body", by simp [hk.le]⟩

end ChunkDb
