/-
# Chunk images

`SerializeChunkImage` and `ParseChunkImage` (`chunk_format.cpp`): a fixed header, a
directory of sections, a checksum over both, and the bodies of the sections.  The values
of text and bytes columns and the schema version have a section only where there are any.
-/
import ChunkDb.Zrle
import ChunkDb.Translate
import ChunkDb.Wal.Header

open LittleEndian

namespace ChunkDb

/-- `CheckpointCompression`. -/
inductive CheckpointCompression
  | none
  | zrle
  deriving DecidableEq, Repr

/-- `kImageMagic`: "CHKIMAGE". -/
def kImageMagic : Bytes := [0x43, 0x48, 0x4B, 0x49, 0x4D, 0x41, 0x47, 0x45]
def kImageFormatVersion : ℕ := 1
def kImageFixedHeaderSize : ℕ := 72
def kImageSectionEntrySize : ℕ := 16
def kImageMaxSections : ℕ := 64
def kImageSectionPayload : ℕ := 1
def kImageSectionPresence : ℕ := 2
def kImageSectionVars : ℕ := 3
def kImageSectionSchema : ℕ := 4
def kImageSectionFlagZrle : ℕ := 1
def kMaxImageSectionRawBytes : ℕ := 64 * 1024 * 1024

/-! ## Writing -/

/-- `ImageSection`, with what its directory entry is made of. -/
structure ImageSection where
  type : ℕ
  flags : ℕ
  raw : Bytes
  body : Bytes
  deriving DecidableEq

/-- `AppendSection`. -/
def appendSection (type : ℕ) (raw : Bytes) : CheckpointCompression → Fallible ImageSection
  | .none => .ok ⟨type, 0, raw, raw⟩
  | .zrle => do
    let body ← zrleCompress raw
    return ⟨type, kImageSectionFlagZrle, raw, body⟩

/-- The directory entry of a section. -/
def ImageSection.entry (part : ImageSection) : Bytes :=
  leBytes 2 part.type ++ leBytes 2 part.flags ++ leBytes 4 part.body.length
    ++ leBytes 4 part.raw.length ++ leBytes 4 (crc32 part.raw)

/-- A section that is there only if it is needed. -/
def optionalSection (needed : Prop) [Decidable needed] (type : ℕ) (raw : Bytes)
    (compression : CheckpointCompression) : Fallible (List ImageSection) :=
  if needed then ([·]) <$> appendSection type raw compression else .ok []

/-- The sections of a state. -/
def imageSections (schemaVersion : ℕ) (state : ChunkState) (compression : CheckpointCompression) :
    Fallible (List ImageSection) := do
  let payload ← appendSection kImageSectionPayload state.payload compression
  let presence ← appendSection kImageSectionPresence state.presence compression
  let vars ← optionalSection (state.vars.entries ≠ []) kImageSectionVars state.vars.encode
    compression
  -- images of a table that never changed its columns stay as they were
  let schema ← optionalSection (1 < schemaVersion) kImageSectionSchema (leBytes 8 schemaVersion)
    .none
  return payload :: presence :: (vars ++ schema)

/-- What an image says of itself. -/
structure ImageLabel where
  chunkCoord : ChunkCoord
  storeId : StoreId
  revision : UInt64
  commitTimeMs : UInt64

/-- The fixed header; no image uses a feature. -/
def imageFixedHeader (label : ImageLabel) (sectionCount : ℕ) : Bytes :=
  kImageMagic ++ leBytes 2 kImageFormatVersion ++ leBytes 2 sectionCount
    ++ leBytes 4 0 ++ leBytes 4 0 ++ leBytes 4 0 ++ label.storeId.bytes
    ++ leBytes 8 label.chunkCoord.x.toUInt64.toNat ++ leBytes 8 label.chunkCoord.y.toUInt64.toNat
    ++ leBytes 8 label.revision.toNat ++ leBytes 8 label.commitTimeMs.toNat

/-- The header and the directory. -/
def imageHead (label : ImageLabel) (sections : List ImageSection) : Bytes :=
  imageFixedHeader label sections.length ++ sections.flatMap ImageSection.entry

/-- The bytes of an image with these sections. -/
def imageBytes (label : ImageLabel) (sections : List ImageSection) : Bytes :=
  imageHead label sections ++ leBytes 4 (crc32 (imageHead label sections))
    ++ sections.flatMap ImageSection.body

/-- `SerializeChunkImage`. -/
def serializeChunkImage (geometry : Geometry) (label : ImageLabel) (state : ChunkState)
    (compression : CheckpointCompression) : Fallible Bytes := do
  require (state.payload.length = geometry.layout.payloadBytes
      ∧ state.presence.length = geometry.presenceBitmapBytes)
    ⟨.invalidArgument, "chunk state size does not match geometry"⟩
  require (label.revision ≠ 0) ⟨.invalidArgument, "chunk image revision must not be zero"⟩
  let sections ← imageSections geometry.layout.schema.version state compression
  return imageBytes label sections

/-! ## Reading -/

/-- `ChunkStateImage`. -/
structure ChunkStateImage where
  features : FeatureFlags
  revision : ℕ
  commitTimeMs : ℕ
  schemaVersion : ℕ
  state : ChunkState

/-- `ImageSectionEntry`. -/
structure ImageSectionEntry where
  type : ℕ
  flags : ℕ
  storedSize : ℕ
  rawSize : ℕ
  crc : ℕ
  deriving DecidableEq, Repr

/-- Entry `index` of the directory. -/
def ImageSectionEntry.read (bytes : Bytes) (index : ℕ) : ImageSectionEntry :=
  let start := kImageFixedHeaderSize + index * kImageSectionEntrySize
  { type := readLe 2 bytes start
    flags := readLe 2 bytes (start + 2)
    storedSize := readLe 4 bytes (start + 4)
    rawSize := readLe 4 bytes (start + 8)
    crc := readLe 4 bytes (start + 12) }

/-- The loop that looks for the schema version: `count` entries from `index` on, with the
bodies from `offset` on. -/
def readSchemaVersion (bytes : Bytes) : ℕ → ℕ → ℕ → Fallible ℕ
  | 0, _, _ => .ok 1
  | count + 1, index, offset =>
    let entry := ImageSectionEntry.read bytes index
    -- the other loop reports it
    if bytes.length - offset < entry.storedSize then .ok 1
    else if entry.type = kImageSectionSchema then do
      require (entry.flags = 0 ∧ entry.storedSize = 8 ∧ entry.rawSize = 8)
        ⟨.runtimeError, "chunk image schema section is malformed"⟩
      require (crc32 ((bytes.drop offset).take 8) = entry.crc)
        ⟨.runtimeError, "chunk image section 4 checksum mismatch"⟩
      return readLe 8 bytes offset
    else readSchemaVersion bytes count (index + 1) (offset + entry.storedSize)

/-- What the loop over the sections has read. -/
structure SectionsRead where
  bodyAt : ℕ
  previousType : Option ℕ
  payload : Option Bytes
  presence : Option Bytes
  vars : Option Bytes
  deriving DecidableEq

/-- The raw size a section of this type must have, where its type fixes it. -/
def knownSectionRawSize (geometry : Geometry) (layout : ChunkLayout) (type : ℕ) : Option ℕ :=
  if type = kImageSectionPayload then some layout.payloadBytes
  else if type = kImageSectionPresence then some geometry.presenceBitmapBytes
  else none

/-- A section that was read whole. -/
def SectionsRead.take (sections : SectionsRead) (geometry : Geometry) (entry : ImageSectionEntry)
    (raw : Bytes) : SectionsRead :=
  let next := { sections with
    previousType := some entry.type, bodyAt := sections.bodyAt + entry.storedSize }
  if entry.type = kImageSectionPayload then { next with payload := some raw }
  else if entry.type = kImageSectionPresence then
    { next with presence := some (maskUnusedPresenceBits geometry.config.chunkBlockCount raw) }
  else if entry.type = kImageSectionVars then { next with vars := some raw }
  else next

/-- The raw bytes of a section. -/
def sectionRaw (entry : ImageSectionEntry) (body : Bytes) : Fallible Bytes :=
  if entry.flags &&& kImageSectionFlagZrle ≠ 0 then zrleDecompress body entry.rawSize else .ok body

/-- One section: its checks, in their order. -/
def readSection (bytes : Bytes) (geometry : Geometry) (layout : ChunkLayout) (maySkipUnknown : Bool)
    (sections : SectionsRead) (entry : ImageSectionEntry) : Fallible SectionsRead := do
  let name := "chunk image section " ++ toString entry.type
  require (∀ previous ∈ sections.previousType, previous < entry.type)
    ⟨.runtimeError, "chunk image sections are not in ascending type order"⟩
  require (entry.flags &&& (2 ^ 16 - 1 - kImageSectionFlagZrle) = 0)
    ⟨.runtimeError, name ++ " has unknown flags"⟩
  require (entry.flags &&& kImageSectionFlagZrle ≠ 0 ∨ entry.storedSize = entry.rawSize)
    ⟨.runtimeError, name ++ " stored and raw sizes differ"⟩
  require (entry.storedSize ≤ bytes.length - sections.bodyAt)
    ⟨.runtimeError, name ++ " extends past the end of the image"⟩
  require (entry.type ∈ [kImageSectionPayload, kImageSectionPresence, kImageSectionVars,
      kImageSectionSchema] ∨ maySkipUnknown = true)
    ⟨.runtimeError, "unknown " ++ name⟩
  require (entry.rawSize ≤ kMaxImageSectionRawBytes)
    ⟨.runtimeError, name ++ " declares " ++ toString entry.rawSize ++ " raw bytes, more than "
      ++ toString kMaxImageSectionRawBytes⟩
  require (∀ size ∈ knownSectionRawSize geometry layout entry.type, entry.rawSize = size)
    ⟨.runtimeError, name ++ " has the wrong size for the store geometry"⟩
  require (entry.type = kImageSectionVars →
      entry.rawSize ≠ 0 ∧ entry.rawSize ≤ kVarMaxChunkBytesLimit)
    ⟨.runtimeError, name ++ " (VARS) has size " ++ toString entry.rawSize⟩
  let raw ← sectionRaw entry ((bytes.drop sections.bodyAt).take entry.storedSize)
  require (crc32 raw = entry.crc) ⟨.runtimeError, name ++ " checksum mismatch"⟩
  return sections.take geometry entry raw

/-- The loop over the sections. -/
def readSections (bytes : Bytes) (geometry : Geometry) (layout : ChunkLayout)
    (maySkipUnknown : Bool) : ℕ → ℕ → SectionsRead → Fallible SectionsRead
  | 0, _, sections => .ok sections
  | count + 1, index, sections => do
    let sections ← readSection bytes geometry layout maySkipUnknown sections
      (ImageSectionEntry.read bytes index)
    readSections bytes geometry layout maySkipUnknown count (index + 1) sections

/-- The values of a VARS section; a defect of theirs is one of the image. -/
def readVars (geometry : Geometry) (layout : ChunkLayout) (presence : Bytes) :
    Option Bytes → Fallible ChunkVars
  | none => .ok SortedMap.empty
  | some data =>
    let checked : Fallible ChunkVars := do
      let vars ← ChunkVars.decode data geometry.config.chunkBlockCount
      layout.requireValidVars vars presence
      return vars
    checked.mapError fun exn =>
      if exn.kind = .invalidArgument then
        ⟨.runtimeError, "chunk image VARS section is damaged: " ++ exn.what⟩
      else exn

/-- The feature flags an image records. -/
def imageFeatures (bytes : Bytes) : FeatureFlags :=
  ⟨UInt32.ofNat (readLe 4 bytes 12), UInt32.ofNat (readLe 4 bytes 16),
    UInt32.ofNat (readLe 4 bytes 20)⟩

/-- The checks of an image's header; what is left to read are its sections. -/
def checkImageHeader (bytes : Bytes) (chunkCoord : ChunkCoord) (storeId : StoreId)
    (storeFeatures : FeatureFlags) : Fallible Unit := do
  require (kImageFixedHeaderSize + 4 ≤ bytes.length) ⟨.runtimeError, "chunk image too small"⟩
  require (bytes.take 8 = kImageMagic) ⟨.runtimeError, "not a 2.0 chunk image (bad magic)"⟩
  require (readLe 2 bytes 8 = kImageFormatVersion)
    ⟨.runtimeError, "unsupported chunk image version " ++ toString (readLe 2 bytes 8)⟩
  require (readLe 2 bytes 10 ≤ kImageMaxSections)
    ⟨.runtimeError, "chunk image has too many sections"⟩
  let directoryEnd := kImageFixedHeaderSize + readLe 2 bytes 10 * kImageSectionEntrySize
  require (directoryEnd + 4 ≤ bytes.length)
    ⟨.runtimeError, "chunk image too small for its section directory"⟩
  require (readLe 4 bytes directoryEnd = crc32 (bytes.take directoryEnd))
    ⟨.runtimeError, "chunk image header checksum mismatch"⟩
  require (isSubsetOf (imageFeatures bytes) storeFeatures = true)
    ⟨.runtimeError, "chunk image uses features the store does not ("
      ++ describeFeatures (imageFeatures bytes) ++ ")"⟩
  require ((bytes.drop 24).take 16 = storeId.bytes)
    ⟨.runtimeError, "chunk image belongs to another store"⟩
  require ((UInt64.ofNat (readLe 8 bytes 40)).toInt64 = chunkCoord.x
      ∧ (UInt64.ofNat (readLe 8 bytes 48)).toInt64 = chunkCoord.y)
    ⟨.runtimeError, "chunk coordinate mismatch"⟩
  require (readLe 8 bytes 56 ≠ 0) ⟨.runtimeError, "chunk image revision is zero"⟩

/-- `ParseChunkImage`. -/
def parseChunkImage (bytes : Bytes) (geometry : Geometry) (chunkCoord : ChunkCoord)
    (storeId : StoreId) (storeFeatures : FeatureFlags) : Fallible ChunkStateImage := do
  checkImageHeader bytes chunkCoord storeId storeFeatures
  let sectionCount := readLe 2 bytes 10
  let bodiesAt := kImageFixedHeaderSize + sectionCount * kImageSectionEntrySize + 4
  let schemaVersion ← readSchemaVersion bytes sectionCount 0 bodiesAt
  require (schemaVersion ≠ 0 ∧ schemaVersion ≤ geometry.layout.schema.version)
    ⟨.runtimeError, "chunk image is of schema version " ++ toString schemaVersion
      ++ ", the table is at " ++ toString geometry.layout.schema.version⟩
  let layout ← geometry.layoutAt schemaVersion
  let sections ← readSections bytes geometry layout (maySkipUnknownTypes (imageFeatures bytes))
    sectionCount 0 ⟨bodiesAt, none, none, none, none⟩
  require (sections.bodyAt = bytes.length)
    ⟨.runtimeError, "chunk image has bytes after its last section"⟩
  match sections.payload, sections.presence with
  | some payload, some presence => do
    let vars ← readVars geometry layout presence sections.vars
    return ⟨imageFeatures bytes, readLe 8 bytes 56, readLe 8 bytes 64, schemaVersion,
      ⟨payload, presence, vars⟩⟩
  | _, _ => runtimeError "chunk image lacks its payload or presence section"

end ChunkDb
