/-
# WAL frames as they are built

A frame holds the records of one mutation (`wal_writer.cpp`): a fixed header, TLV
fields, a header checksum, the records and a checksum over them.  `FrameInput` is
what a `WalFrameBuilder` is given over its life, and `buildFrame` the bytes it
leaves in the batch or the exception of the call that refused.
-/
import ChunkDb.Vars
import ChunkDb.Crc32

open LittleEndian

namespace ChunkDb

/-- `kWalFrameMagic`: "FRM2". -/
def kWalFrameMagic : Bytes := [0x46, 0x52, 0x4D, 0x32]
def kWalFrameFixedHeaderSize : ℕ := 32
def kWalFrameHeaderCrcSize : ℕ := 4
def kWalFrameTrailerSize : ℕ := 4
def kWalFrameGc : ℕ := 1
def kWalRecordHeaderSize : ℕ := 5
def kWalRecordSpan : UInt8 := 1
def kWalSpanOffsetSize : ℕ := 4
def kWalRecordVarPut : UInt8 := 2
def kWalRecordVarDel : UInt8 := 3
def kWalRecordVarReplace : UInt8 := 4
def kWalTlvHeaderSize : ℕ := 4
def kWalTlvTag : ℕ := 1
def kWalTlvSchema : ℕ := 2
def kWalTlvUser : ℕ := 3
def kMaxUInt16 : ℕ := 2 ^ 16 - 1
def kMaxUInt32 : ℕ := 2 ^ 32 - 1

/-! ## Records -/

/-- A record, as one call of the builder appends it. -/
inductive WalRecord
  | span (byteOffset : ℕ) (bytes : Bytes)
  | varPut (key : VarKey) (value : Bytes)
  | varDel (key : VarKey)
  | varReplace (vars : ChunkVars)
  deriving DecidableEq

namespace WalRecord

/-- The type byte of a record. -/
def type : WalRecord → UInt8
  | span _ _ => kWalRecordSpan
  | varPut _ _ => kWalRecordVarPut
  | varDel _ => kWalRecordVarDel
  | varReplace _ => kWalRecordVarReplace

/-- What follows the record header. -/
def body : WalRecord → Bytes
  | span byteOffset bytes => leBytes 4 byteOffset ++ bytes
  | varPut key value => ChunkVars.encodeEntry (key, value)
  | varDel key => leBytes 4 key.columnId.toNat ++ leBytes 4 key.blockIndex.toNat
  | varReplace vars => vars.encode

/-- The bytes of a record. -/
def encode (record : WalRecord) : Bytes :=
  record.type :: (leBytes 4 record.body.length ++ record.body)

end WalRecord

/-- The builder between two calls: the records so far, the key of the last value
record, and whether all values are replaced. -/
structure BuilderState where
  recordCount : ℕ
  lastVarKey : Option VarKey
  hasVarReplace : Bool
  deriving DecidableEq

namespace BuilderState

/-- `RequireVarOrder`. -/
def requireVarOrder (state : BuilderState) (key : VarKey) : Fallible Unit :=
  require (¬ (state.hasVarReplace = true ∨ ∃ last ∈ state.lastVarKey, key ≤ last))
    ⟨.logicError, "value records of a WAL frame out of order"⟩

/-- `BeginRecord`. -/
def beginRecord (state : BuilderState) (bodySize : ℕ) : Fallible Unit := do
  require (bodySize ≤ kMaxUInt32) ⟨.invalidArgument, "WAL record too large"⟩
  require (state.recordCount < kMaxUInt32) ⟨.invalidArgument, "WAL frame record count overflow"⟩

/-- `AppendSpan`, `AppendVarPut`, `AppendVarDel` and `AppendVarReplace`. -/
def append (state : BuilderState) (record : WalRecord) : Fallible BuilderState :=
  match record with
  | .span byteOffset bytes => do
    require (bytes ≠ []) ⟨.invalidArgument, "WAL delta payload must not be empty"⟩
    require (bytes.length ≤ kMaxUInt32 - kWalSpanOffsetSize
        ∧ bytes.length ≤ kMaxUInt32 - byteOffset)
      ⟨.invalidArgument, "WAL span too large"⟩
    require (state.recordCount < kMaxUInt32) ⟨.invalidArgument, "WAL frame record count overflow"⟩
    return { state with recordCount := state.recordCount + 1 }
  | .varPut key value => do
    state.requireVarOrder key
    state.beginRecord (kVarEntryHeaderBytes + value.length)
    return { state with recordCount := state.recordCount + 1, lastVarKey := some key }
  | .varDel key => do
    state.requireVarOrder key
    state.beginRecord 8
    return { state with recordCount := state.recordCount + 1, lastVarKey := some key }
  | .varReplace vars => do
    require (¬ (state.hasVarReplace = true ∨ state.lastVarKey.isSome = true))
      ⟨.logicError, "value records of a WAL frame out of order"⟩
    state.beginRecord vars.encodedSize
    return { state with recordCount := state.recordCount + 1, hasVarReplace := true }

/-- All records appended, one call after the other. -/
def appendAll (state : BuilderState) : List WalRecord → Fallible BuilderState
  | [] => .ok state
  | record :: records => do
    let state ← state.append record
    state.appendAll records

end BuilderState

/-! ## Frames -/

/-- What a frame is built from: the arguments of the `WalFrameBuilder` constructor, the
records appended to it and the arguments of `Finish`. -/
structure FrameInput where
  schemaVersion : ℕ
  tag : Bytes
  user : Option Bytes
  gc : Bool
  records : List WalRecord
  revision : UInt64
  commitTimeMs : UInt64
  deriving DecidableEq

namespace FrameInput

variable (input : FrameInput)

/-- A TLV field. -/
def tlv (type : ℕ) (value : Bytes) : Bytes := leBytes 2 type ++ leBytes 2 value.length ++ value

/-- The user's name as it is written; none and an empty one are the same. -/
def userBytes : Bytes := input.user.getD []

/-- The tag, when there is one. -/
def tagTlv : Bytes := if input.tag = [] then [] else tlv kWalTlvTag input.tag

/-- The schema version, when it is not the first. -/
def schemaTlv : Bytes :=
  if input.schemaVersion > 1 then tlv kWalTlvSchema (leBytes 8 input.schemaVersion) else []

/-- The user, when there is one. -/
def userTlv : Bytes := if input.userBytes = [] then [] else tlv kWalTlvUser input.userBytes

/-- The TLV area. -/
def tlvArea : Bytes := input.tagTlv ++ (input.schemaTlv ++ input.userTlv)

/-- The record bytes. -/
def recordArea : Bytes := input.records.flatMap WalRecord.encode

/-- The header after the magic, which its checksum covers. -/
def headerFields : Bytes :=
  leBytes 8 input.revision.toNat ++ leBytes 8 input.commitTimeMs.toNat
    ++ leBytes 2 (if input.gc then kWalFrameGc else 0) ++ leBytes 2 input.tlvArea.length
    ++ leBytes 4 input.records.length ++ leBytes 4 input.recordArea.length ++ input.tlvArea

/-- The bytes of the frame. -/
def frameBytes : Bytes :=
  kWalFrameMagic ++ input.headerFields ++ leBytes 4 (crc32 input.headerFields) ++ input.recordArea
    ++ leBytes 4 (crc32 input.recordArea)

/-- The frame a builder leaves in the batch, or what it throws. -/
def buildFrame : Fallible Bytes := do
  require (input.tag.length ≤ kMaxUInt16 - 2 * kWalTlvHeaderSize - 8)
    ⟨.invalidArgument, "WAL frame tag is too long"⟩
  require (input.userBytes.length ≤ kMaxUInt16) ⟨.invalidArgument, "WAL frame user is too long"⟩
  require (input.tlvArea.length ≤ kMaxUInt16) ⟨.invalidArgument, "WAL frame TLV area is too long"⟩
  let state ← BuilderState.appendAll ⟨0, none, false⟩ input.records
  require (state.recordCount ≠ 0) ⟨.invalidArgument, "WAL frame must contain at least one record"⟩
  require (input.recordArea.length ≤ kMaxUInt32) ⟨.invalidArgument, "WAL frame body too large"⟩
  return input.frameBytes

end FrameInput

end ChunkDb
