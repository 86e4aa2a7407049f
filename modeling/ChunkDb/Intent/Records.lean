/-
# Intent records

A conditional write publishes an intent for the WAL of its chunk, a transaction one for
all the WALs it writes (`conditional_intent.cpp`, `txn_intent.cpp`).  A rollback intent
says where a WAL ended before the write; the commit form of it, which replaces it, says
that the write is to be kept.
-/
import ChunkDb.Wal.Header

open LittleEndian

namespace ChunkDb

/-- `ConditionalIntentState` and `TxnIntentState`. -/
inductive IntentState
  | rollback
  | committed
  deriving DecidableEq, Repr

/-- The coordinates as messages have them. -/
def ChunkCoord.text (coord : ChunkCoord) : String :=
  "(" ++ toString coord.x.toInt ++ "," ++ toString coord.y.toInt ++ ")"

/-! ## Conditional intents -/

/-- "CKRB". -/
def kRollbackIntentMagic : Bytes := [0x43, 0x4B, 0x52, 0x42]

/-- "CKRC". -/
def kCommittedIntentMagic : Bytes := [0x43, 0x4B, 0x52, 0x43]

def kRollbackIntentRecordSize : ℕ := 16

/-- `SerializeConditionalIntent`. -/
def serializeConditionalIntent (state : IntentState) (committedWalSize : ℕ) : Bytes :=
  let magic := match state with
    | .rollback => kRollbackIntentMagic
    | .committed => kCommittedIntentMagic
  let bytes := magic ++ leBytes 8 committedWalSize
  bytes ++ leBytes 4 (crc32 bytes)

/-- `TryParseConditionalIntent`. -/
def tryParseConditionalIntent (bytes : Bytes) : Option (IntentState × ℕ) :=
  if bytes.length ≠ kRollbackIntentRecordSize ∨ readLe 4 bytes 12 ≠ crc32 (bytes.take 12) then none
  else if bytes.take 4 = kRollbackIntentMagic then some (.rollback, readLe 8 bytes 4)
  else if bytes.take 4 = kCommittedIntentMagic then some (.committed, readLe 8 bytes 4)
  else none

/-- A written record is read back. -/
theorem tryParse_serializeConditionalIntent (state : IntentState) {committedWalSize : ℕ}
    (h : committedWalSize < 256 ^ 8) :
    tryParseConditionalIntent (serializeConditionalIntent state committedWalSize)
      = some (state, committedWalSize) := by
  cases state with
  | rollback =>
    obtain ⟨hlength, hmagic, hsize, hcrc⟩ := checkedRecord_fields
      (show kRollbackIntentMagic.length = 4 from rfl) h
      (rfl : serializeConditionalIntent .rollback committedWalSize = _)
    rw [tryParseConditionalIntent, kRollbackIntentRecordSize,
      if_neg (not_or.mpr ⟨not_not.mpr hlength, not_not.mpr hcrc⟩), if_pos hmagic, hsize]
  | committed =>
    obtain ⟨hlength, hmagic, hsize, hcrc⟩ := checkedRecord_fields
      (show kCommittedIntentMagic.length = 4 from rfl) h
      (rfl : serializeConditionalIntent .committed committedWalSize = _)
    have hother : kCommittedIntentMagic ≠ kRollbackIntentMagic := by decide
    rw [tryParseConditionalIntent, kRollbackIntentRecordSize,
      if_neg (not_or.mpr ⟨not_not.mpr hlength, not_not.mpr hcrc⟩), hmagic, if_neg hother, if_pos rfl, hsize]

/-! ## Transaction intents -/

/-- "CKTB". -/
def kTxnRollbackMagic : Bytes := [0x43, 0x4B, 0x54, 0x42]

/-- "CKTC". -/
def kTxnCommittedMagic : Bytes := [0x43, 0x4B, 0x54, 0x43]

def kTxnIntentFixedBytes : ℕ := 4 + 8 + 4 + 4
def kTxnIntentEntryBytes : ℕ := 24
def kMaxTxnWrittenChunks : ℕ := 64

/-- `TxnIntentEntry`. -/
structure TxnIntentEntry where
  coord : ChunkCoord
  walBoundary : ℕ
  deriving DecidableEq

/-- `TxnIntent`. -/
structure TxnIntent where
  state : IntentState
  version : ℕ
  entries : List TxnIntentEntry
  deriving DecidableEq

def TxnIntentEntry.bytes (entry : TxnIntentEntry) : Bytes :=
  leBytes 8 entry.coord.x.toUInt64.toNat ++ leBytes 8 entry.coord.y.toUInt64.toNat
    ++ leBytes 8 entry.walBoundary

/-- `SerializeTxnIntent`. -/
def serializeTxnIntent (intent : TxnIntent) : Bytes :=
  let magic := match intent.state with
    | .rollback => kTxnRollbackMagic
    | .committed => kTxnCommittedMagic
  let bytes := magic ++ leBytes 8 intent.version ++ leBytes 4 intent.entries.length
    ++ intent.entries.flatMap TxnIntentEntry.bytes
  bytes ++ leBytes 4 (crc32 bytes)

/-- The entry at this place of the record. -/
def TxnIntentEntry.read (bytes : Bytes) (place : ℕ) : TxnIntentEntry :=
  ⟨⟨(UInt64.ofNat (readLe 8 bytes place)).toInt64, (UInt64.ofNat (readLe 8 bytes (place + 8))).toInt64⟩,
    readLe 8 bytes (place + 16)⟩

/-- `TryParseTxnIntent`. -/
def tryParseTxnIntent (bytes : Bytes) : Option TxnIntent :=
  let count := readLe 4 bytes 12
  if bytes.length < kTxnIntentFixedBytes then none
  else if count = 0 ∨ count > kMaxTxnWrittenChunks
      ∨ bytes.length ≠ kTxnIntentFixedBytes + kTxnIntentEntryBytes * count
      ∨ readLe 4 bytes (bytes.length - 4) ≠ crc32 (bytes.take (bytes.length - 4)) then none
  else
    let entries := (List.range count).map fun i =>
      TxnIntentEntry.read bytes (16 + kTxnIntentEntryBytes * i)
    if bytes.take 4 = kTxnRollbackMagic then some ⟨.rollback, readLe 8 bytes 4, entries⟩
    else if bytes.take 4 = kTxnCommittedMagic then some ⟨.committed, readLe 8 bytes 4, entries⟩
    else none

/-- The entries that a rollback intent has for a chunk. -/
def TxnIntent.boundariesFor (intent : TxnIntent) (coord : ChunkCoord) : List ℕ :=
  match intent.state with
  | .rollback => (intent.entries.filter (·.coord = coord)).map (·.walBoundary)
  | .committed => []

/-- The smaller of a boundary and the one found so far. -/
def lowerBoundary (boundary : Option ℕ) (next : ℕ) : Option ℕ :=
  some (min (boundary.getD next) next)

/-- The loop of `TxnRollbackBoundaryForChunk` over the intents. -/
def txnRollbackBoundaryFrom (coord : ChunkCoord) : Option ℕ → List Bytes → Fallible (Option ℕ)
  | boundary, [] => .ok boundary
  | boundary, bytes :: rest =>
    match tryParseTxnIntent bytes with
    | none => runtimeError ("read-only chunk snapshot contains a malformed transaction intent for chunk "
        ++ coord.text)
    | some intent => txnRollbackBoundaryFrom coord
        ((intent.boundariesFor coord).foldl lowerBoundary boundary) rest

/-- `TxnRollbackBoundaryForChunk`. -/
def txnRollbackBoundaryForChunk (intents : List Bytes) (coord : ChunkCoord) : Fallible (Option ℕ) :=
  txnRollbackBoundaryFrom coord none intents

end ChunkDb
