/-
# Parsing WAL frames

`ParseFrame` (`wal_replay.cpp`) reads and checks one whole frame without applying
it.  The model works on the rest of the file from the frame on.  A frame that fails
gives a `Stop`: its reason, whether the frame provably reaches the end of the file,
and whether it was intact (whole, with both checksums valid).
-/
import ChunkDb.Wal.Frame
import ChunkDb.Translate

open LittleEndian

namespace ChunkDb

/-- Why a frame was not accepted. -/
structure Stop where
  reason : String
  reachesEnd : Bool
  intact : Bool
  deriving DecidableEq, Repr

/-- `ParsedFrame`; spans and value records carry their bytes. -/
structure ParsedFrame where
  revision : ℕ
  schemaVersion : ℕ
  commitTimeMs : ℕ
  user : Option Bytes
  gc : Bool
  size : ℕ
  spans : List (ℕ × Bytes)
  varOps : List VarChange
  varReplace : Option ChunkVars
  recordCount : ℕ
  deriving DecidableEq

/-! ## The frame header -/

/-- The fields of the fixed header that parsing goes on with, and where the frame ends. -/
structure FrameHeader where
  revision : ℕ
  commitTimeMs : ℕ
  flags : ℕ
  tlvSize : ℕ
  recordCount : ℕ
  bodySize : ℕ
  deriving DecidableEq, Repr

namespace FrameHeader

/-- The bytes before the records. -/
def headerSize (header : FrameHeader) : ℕ :=
  kWalFrameFixedHeaderSize + header.tlvSize + kWalFrameHeaderCrcSize

/-- The bytes of the whole frame. -/
def total (header : FrameHeader) : ℕ :=
  header.headerSize + header.bodySize + kWalFrameTrailerSize

/-- The fields of the fixed header. -/
def read (rest : Bytes) : FrameHeader where
  revision := readLe 8 rest 4
  commitTimeMs := readLe 8 rest 12
  flags := readLe 2 rest 20
  tlvSize := readLe 2 rest 22
  recordCount := readLe 4 rest 24
  bodySize := readLe 4 rest 28

end FrameHeader

/-- The checksum of a header with this much TLV area matches. -/
def headerCrcMatches (rest : Bytes) (tlvSize : ℕ) : Bool :=
  crc32 ((rest.drop 4).take (kWalFrameFixedHeaderSize + tlvSize - 4))
    == readLe 4 rest (kWalFrameFixedHeaderSize + tlvSize)

/-- `ParseFrame` up to the body checksum. -/
def parseFrameHeader (rest : Bytes) : Except Stop FrameHeader :=
  if rest.length < kWalFrameFixedHeaderSize then .error ⟨"partial_frame_header", true, false⟩
  else if rest.take 4 ≠ kWalFrameMagic then .error ⟨"frame_magic_mismatch", false, false⟩
  else
    let header := FrameHeader.read rest
    if rest.length < header.headerSize then .error ⟨"partial_frame_header", true, false⟩
    else if headerCrcMatches rest header.tlvSize = false then
      .error ⟨"frame_header_crc_mismatch", false, false⟩
    else
      -- the header is valid from here on, and with it the extent it declares
      let reachesEnd : Bool := header.total ≥ rest.length
      if header.total > rest.length then .error ⟨"partial_frame_body", reachesEnd, false⟩
      else if crc32 ((rest.drop header.headerSize).take header.bodySize)
          ≠ readLe 4 rest (header.headerSize + header.bodySize) then
        .error ⟨"frame_crc_mismatch", reachesEnd, false⟩
      else .ok header

/-! ## TLV fields -/

/-- The TLV fields met so far. -/
structure TlvFields where
  haveTag : Bool
  schema : Option ℕ
  user : Option Bytes
  deriving DecidableEq

/-- One TLV field taken into account; a reason when it may not stand there. -/
def readTlv (slotsEnabled maySkipUnknown : Bool) (fields : TlvFields) (type : ℕ) (value : Bytes) :
    Except String TlvFields :=
  if type = kWalTlvTag then
    if fields.haveTag then .error "tlv_duplicate_tag"
    else if value = [] then .error "tlv_empty_tag"
    else .ok { fields with haveTag := true }
  else if type = kWalTlvSchema then
    if fields.schema.isSome ∨ value.length ≠ 8 then .error "tlv_schema_invalid"
    else .ok { fields with schema := some (leNat value) }
  else if type = kWalTlvUser then
    if slotsEnabled = false then .error "tlv_user_without_slots"
    else if fields.user.isSome then .error "tlv_duplicate_user"
    else if value = [] then .error "tlv_empty_user"
    else .ok { fields with user := some value }
  else if maySkipUnknown then .ok fields
  else .error "tlv_unknown_type"

/-- The loop over the TLV area. -/
def parseTlvs (slotsEnabled maySkipUnknown : Bool) : ℕ → TlvFields → Bytes → Except String TlvFields
  | 0, fields, _ => .ok fields
  | fuel + 1, fields, area =>
    if area = [] then .ok fields
    else if area.length < kWalTlvHeaderSize then .error "tlv_out_of_frame"
    else
      let length := readLe 2 area 2
      if area.length - kWalTlvHeaderSize < length then .error "tlv_out_of_frame"
      else do
        let fields ← readTlv slotsEnabled maySkipUnknown fields (readLe 2 area 0)
          ((area.drop kWalTlvHeaderSize).take length)
        parseTlvs slotsEnabled maySkipUnknown fuel fields (area.drop (kWalTlvHeaderSize + length))

/-! ## Records -/

/-- `FrameShape`. -/
structure FrameShape where
  payloadBoundary : ℕ
  stateSize : ℕ
  blockCount : ℕ
  varsEnabled : Bool
  maySkipUnknown : Bool
  deriving DecidableEq, Repr

/-- The records met so far. -/
structure ParsedRecords where
  spans : List (ℕ × Bytes)
  varOps : List VarChange
  varReplace : Option ChunkVars
  deriving DecidableEq

/-- `SpanShapeValid`. -/
def spanShapeValid (byteOffset finish payloadBoundary stateSize : ℕ) : Bool :=
  finish ≤ payloadBoundary || payloadBoundary ≤ byteOffset
    || (byteOffset == 0 && finish == stateSize)

/-- A span record. -/
def parseSpanRecord (shape : FrameShape) (records : ParsedRecords) (body : Bytes) :
    Except String ParsedRecords :=
  if body.length ≤ kWalSpanOffsetSize then .error "record_span_empty"
  else
    let offset := readLe 4 body 0
    let data := body.drop kWalSpanOffsetSize
    if offset > shape.stateSize ∨ data.length > shape.stateSize - offset then
      .error "record_out_of_range"
    else if spanShapeValid offset (offset + data.length) shape.payloadBoundary shape.stateSize
        = false then
      .error "record_region_straddle"
    else .ok { records with spans := records.spans ++ [(offset, data)] }

/-- `ParseVarRecord`. -/
def parseVarRecord (shape : FrameShape) (records : ParsedRecords) (type : UInt8) (body : Bytes) :
    Except String ParsedRecords :=
  if shape.varsEnabled = false then .error "record_vars_without_columns"
  else if records.varReplace.isSome then .error "record_vars_order"
  else if type = kWalRecordVarReplace then
    if records.varOps ≠ [] then .error "record_vars_order"
    else
      match ChunkVars.decode body shape.blockCount with
      | .error _ => .error "record_vars_invalid"
      | .ok vars => .ok { records with varReplace := some vars }
  else
    let put := type = kWalRecordVarPut
    if (put ∧ body.length < kVarEntryHeaderBytes) ∨ (¬ put ∧ body.length ≠ 8) then
      .error "record_vars_invalid"
    else
      let key : VarKey := ⟨UInt32.ofNat (readLe 4 body 0), UInt32.ofNat (readLe 4 body 4)⟩
      if key.blockIndex.toNat ≥ shape.blockCount then .error "record_out_of_range"
      else if ∃ last ∈ records.varOps.getLast?, key ≤ last.1 then .error "record_vars_order"
      else if put ∧ body.length ≠ kVarEntryHeaderBytes + readLe 4 body 8 then
        .error "record_vars_invalid"
      else
        let value := if put then some (body.drop kVarEntryHeaderBytes) else none
        .ok { records with varOps := records.varOps ++ [(key, value)] }

/-- One record by its type. -/
def parseRecord (shape : FrameShape) (records : ParsedRecords) (type : UInt8) (body : Bytes) :
    Except String ParsedRecords :=
  if type = kWalRecordSpan then parseSpanRecord shape records body
  else if type = kWalRecordVarPut ∨ type = kWalRecordVarDel ∨ type = kWalRecordVarReplace then
    parseVarRecord shape records type body
  else if shape.maySkipUnknown then .ok records
  else .error "record_unknown_type"

/-- The loop over the records, as many as the header counts. -/
def parseRecords (shape : FrameShape) : ℕ → ParsedRecords → Bytes → Except String ParsedRecords
  | 0, records, area => if area = [] then .ok records else .error "frame_body_size_mismatch"
  | count + 1, records, area =>
    if area.length < kWalRecordHeaderSize then .error "record_out_of_frame"
    else
      let size := readLe 4 area 1
      let after := area.drop kWalRecordHeaderSize
      if after.length < size then .error "record_out_of_frame"
      else do
        let records ← parseRecord shape records (area.getD 0 0) (after.take size)
        parseRecords shape count records (after.drop size)

/-- A collection marker may only reset the complete state to empty. -/
def isEmptyReset (shape : FrameShape) (haveTag : Bool) (recordCount : ℕ) (records : ParsedRecords) :
    Bool :=
  match records.spans with
  | [payload, presence] =>
    !haveTag && records.varOps = [] && recordCount == (if shape.varsEnabled then 3 else 2)
      && (if shape.varsEnabled then records.varReplace == some SortedMap.empty
          else records.varReplace == none)
      && payload.1 == 0 && payload.2.length == shape.payloadBoundary
      && presence.1 == shape.payloadBoundary
      && presence.2.length == shape.stateSize - shape.payloadBoundary
      && payload.2.all (· == 0) && presence.2.all (· == 0)
  | _ => false

/-! ## The whole frame -/

/-- The shape of the state a layout's records are checked against. -/
def frameShape (geometry : Geometry) (layout : ChunkLayout) (maySkipUnknown : Bool) : FrameShape where
  payloadBoundary := layout.payloadBytes
  stateSize := layout.payloadBytes + geometry.presenceBitmapBytes
  blockCount := layout.blockCount
  varsEnabled := layout.hasVarColumns
  maySkipUnknown

/-- `ParseFrame` after both checksums, up to the schema version its records need. -/
def parseFrameFields (geometry : Geometry) (slotsEnabled maySkipUnknown : Bool) (header : FrameHeader)
    (rest : Bytes) : Except String TlvFields :=
  if header.flags &&& (kMaxUInt16 - kWalFrameGc) ≠ 0 ∨ (header.flags ≠ 0 ∧ slotsEnabled = false) then
    .error "frame_flags_unknown"
  else if header.recordCount = 0 then .error "frame_empty"
  else do
    let area := (rest.drop kWalFrameFixedHeaderSize).take header.tlvSize
    let fields ← parseTlvs slotsEnabled maySkipUnknown area.length ⟨false, none, none⟩ area
    let version := fields.schema.getD 1
    if version = 0 ∨ version > geometry.layout.schema.version then .error "frame_schema_version"
    else .ok fields

/-- `ParseFrame` after the layout of its records is known. -/
def parseFrameRecords (shape : FrameShape) (header : FrameHeader) (fields : TlvFields)
    (rest : Bytes) : Except String ParsedFrame := do
  let area := (rest.drop header.headerSize).take header.bodySize
  let records ← parseRecords shape header.recordCount ⟨[], [], none⟩ area
  let gc : Bool := header.flags &&& kWalFrameGc ≠ 0
  if gc ∧ isEmptyReset shape fields.haveTag header.recordCount records = false then
    .error "frame_gc_invalid"
  else
    .ok { revision := header.revision, schemaVersion := fields.schema.getD 1,
          commitTimeMs := header.commitTimeMs, user := fields.user, gc, size := header.total,
          spans := records.spans, varOps := records.varOps, varReplace := records.varReplace,
          recordCount := header.recordCount }

/-- `ParseFrame`. -/
def parseFrame (geometry : Geometry) (maySkipUnknown slotsEnabled : Bool) (rest : Bytes) :
    Fallible (Except Stop ParsedFrame) :=
  match parseFrameHeader rest with
  | .error stop => .ok (.error stop)
  | .ok header =>
    -- the frame is whole: what fails from here on is damage
    let stop := fun reason : String => (⟨reason, header.total ≥ rest.length, true⟩ : Stop)
    match parseFrameFields geometry slotsEnabled maySkipUnknown header rest with
    | .error reason => .ok (.error (stop reason))
    | .ok fields => do
      let layout ← geometry.layoutAt (fields.schema.getD 1)
      let shape := frameShape geometry layout maySkipUnknown
      return (parseFrameRecords shape header fields rest).mapError stop

end ChunkDb
