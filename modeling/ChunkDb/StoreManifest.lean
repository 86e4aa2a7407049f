/-
# Table manifests

The manifest of a table (`table.manifest`) as `store_manifest.cpp` writes and reads it:
feature flags, an identity, an area of options, its geometry and its schema.  The lineage of a restored table is kept as two
options of its own, which the parser takes out of the area and the serializer puts at its
end.
-/
import ChunkDb.Image
import ChunkDb.SchemaCodec
import ChunkDb.Lib.Tlv

open LittleEndian

namespace ChunkDb

/-! ## Features -/

def kFeatureTableLineage : UInt32 := 4
/-! ## Parts of a manifest -/

/-- `StoreId{}`. -/
def StoreId.zero : StoreId := ⟨List.replicate 16 0, rfl⟩

/-- The id at an offset. -/
def storeIdAt (bytes : Bytes) (offset : ℕ) : StoreId :=
  ⟨(bytes.drop offset).takeD 16 0, List.takeD_length ..⟩

/-- Magic, version, a reserved field and the feature flags. -/
def manifestStart (magic : Bytes) (version : ℕ) (features : FeatureFlags) : Bytes :=
  magic ++ leBytes 2 version ++ leBytes 2 0 ++ leBytes 4 features.incompat.toNat
    ++ leBytes 4 features.roCompat.toNat ++ leBytes 4 features.compat.toNat

def kFlagsOffset : ℕ := 8

/-- The feature flags of a manifest. -/
def manifestFeatures (bytes : Bytes) : FeatureFlags :=
  ⟨UInt32.ofNat (readLe 4 bytes kFlagsOffset), UInt32.ofNat (readLe 4 bytes (kFlagsOffset + 4)),
    UInt32.ofNat (readLe 4 bytes (kFlagsOffset + 8))⟩

/-- A file with its checksum. -/
def withCrc (bytes : Bytes) : Bytes := bytes ++ leBytes 4 (crc32 bytes)

/-- The checks of the checksum and of the reserved field. -/
def requireIntactManifest (bytes : Bytes) : Fallible Unit := do
  require (readLe 4 bytes (bytes.length - 4) = crc32 (bytes.take (bytes.length - 4)))
    ⟨.runtimeError, "checksum mismatch"⟩
  require (readLe 2 bytes 6 = 0) ⟨.runtimeError, "reserved field is not zero"⟩

/-- Rethrows an exception as a `std::runtime_error` with a text before its own. -/
def rethrow {A : Type} (text : String) (result : Fallible A) : Fallible A :=
  result.mapError fun exn => ⟨.runtimeError, text ++ exn.what⟩

/-- Rethrows `std::invalid_argument` as a `std::runtime_error`. -/
def rethrowInvalidArgument {A : Type} (text : String) (result : Fallible A) : Fallible A :=
  result.mapError fun exn =>
    if exn.kind = .invalidArgument then ⟨.runtimeError, text ++ exn.what⟩ else exn

/-! ## Options -/

def truncatedOption : Exn := ⟨.runtimeError, "truncated option entry"⟩

def optionOverruns (type : ℕ) : Exn :=
  ⟨.runtimeError, "option " ++ toString type ++ " overruns the options area"⟩

/-- `ValidateOptions`. -/
def validateOptions (options : Bytes) (features : FeatureFlags) (isKnown : ℕ → Bool) :
    Fallible Unit :=
  Tlv.fold truncatedOption optionOverruns
    (fun () entry => require (isKnown entry.type = true ∨ maySkipUnknownTypes features = true)
      ⟨.runtimeError, "unknown option type " ++ toString entry.type⟩) () options

def kOptionDurabilityMode : ℕ := 1
def kOptionCheckpointUpdates : ℕ := 2
def kOptionCheckpointWalBytes : ℕ := 3
def kOptionWalGroupCommitUpdates : ℕ := 4
def kOptionCheckpointCompression : ℕ := 5
def kOptionVarMaxChunkBytes : ℕ := 6
def kOptionFeedBufferBytes : ℕ := 8
def kOptionSlotMaxBytes : ℕ := 9
def kOptionParentEpoch : ℕ := 10
def kOptionForkRevision : ℕ := 11

/-- `IsKnownTableOptionType`. -/
def isKnownTableOptionType (type : ℕ) : Bool :=
  (kOptionDurabilityMode ≤ type ∧ type ≤ kOptionVarMaxChunkBytes)
    || type = kOptionFeedBufferBytes || type = kOptionSlotMaxBytes

/-- `IsKnownTableManifestType`. -/
def isKnownTableManifestType (type : ℕ) : Bool :=
  isKnownTableOptionType type || type = kOptionParentEpoch || type = kOptionForkRevision

/-- `DurabilityMode`. -/
inductive DurabilityMode
  | relaxed
  | fsyncWal
  | fsyncCheckpoint
  deriving DecidableEq, Repr

def durabilityModeOf : ℕ → Option DurabilityMode
  | 0 => some .relaxed
  | 1 => some .fsyncWal
  | 2 => some .fsyncCheckpoint
  | _ => none

def checkpointCompressionOf : ℕ → Option CheckpointCompression
  | 0 => some .none
  | 1 => some .zrle
  | _ => none

def kDefaultWalGroupCommitUpdates : ℕ := 8
def kDefaultVarMaxChunkBytes : ℕ := 1024 * 1024

/-- `TableOptions`. -/
structure TableOptions where
  durabilityMode : DurabilityMode := .relaxed
  checkpointUpdateInterval : ℕ := 256
  checkpointWalBytes : ℕ := 1024 * 1024
  walGroupCommitUpdates : ℕ := kDefaultWalGroupCommitUpdates
  checkpointCompression : CheckpointCompression := .none
  varMaxChunkBytes : ℕ := kDefaultVarMaxChunkBytes
  feedBufferBytes : Option ℕ := none
  slotMaxBytes : Option ℕ := none

/-- `RequireValidVarLimit`. -/
def requireValidVarLimit (maxChunkBytes : ℕ) : Fallible Unit :=
  require (¬ (maxChunkBytes ≤ kVarEntryHeaderBytes ∨ kVarMaxChunkBytesLimit < maxChunkBytes))
    ⟨.invalidArgument, "var_max_chunk_bytes must be between " ++ toString (kVarEntryHeaderBytes + 1)
      ++ " and " ++ toString kVarMaxChunkBytesLimit⟩

/-- What `DecodeTableOptions` does with an entry whose value is one byte. -/
def TableOptions.setByte (options : TableOptions) (type value : ℕ) : Fallible TableOptions :=
  if type = kOptionDurabilityMode then
    match durabilityModeOf value with
    | none => runtimeError ("unknown durability mode " ++ toString value)
    | some mode => .ok { options with durabilityMode := mode }
  else
    match checkpointCompressionOf value with
    | none => runtimeError ("unknown checkpoint compression " ++ toString value)
    | some compression => .ok { options with checkpointCompression := compression }

/-- What `DecodeTableOptions` does with an entry whose value is a number. -/
def TableOptions.setNumber (options : TableOptions) (type value : ℕ) : Fallible TableOptions := do
  require (value ≠ 0) ⟨.runtimeError, "option " ++ toString type ++ " has value " ++ toString value⟩
  if type = kOptionCheckpointUpdates then return { options with checkpointUpdateInterval := value }
  else if type = kOptionCheckpointWalBytes then return { options with checkpointWalBytes := value }
  else if type = kOptionWalGroupCommitUpdates then
    return { options with walGroupCommitUpdates := value }
  else if type = kOptionFeedBufferBytes then return { options with feedBufferBytes := some value }
  else if type = kOptionSlotMaxBytes then return { options with slotMaxBytes := some value }
  else do
    rethrowInvalidArgument "" (requireValidVarLimit value)
    return { options with varMaxChunkBytes := value }

/-- One entry of `DecodeTableOptions`: the types seen so far and the options. -/
def decodeTableOption (decoded : List ℕ × TableOptions) (entry : Tlv.Entry) :
    Fallible (List ℕ × TableOptions) :=
  if isKnownTableOptionType entry.type = false then .ok decoded
  else do
    require (entry.type ∉ decoded.1)
      ⟨.runtimeError, "option " ++ toString entry.type ++ " appears twice"⟩
    let isByte := entry.type = kOptionDurabilityMode ∨ entry.type = kOptionCheckpointCompression
    require (entry.value.length = if isByte then 1 else 8)
      ⟨.runtimeError, "option " ++ toString entry.type ++ " has length "
        ++ toString entry.value.length⟩
    let options ←
      if isByte then decoded.2.setByte entry.type (leNat entry.value)
      else decoded.2.setNumber entry.type (leNat entry.value)
    return (entry.type :: decoded.1, options)

/-- `DecodeTableOptions`. -/
def decodeTableOptions (options : Bytes) : Fallible TableOptions := do
  let decoded ← Tlv.fold truncatedOption optionOverruns decodeTableOption ([], {}) options
  return decoded.2

/-! ## Table manifests -/

/-- `TableLineage`. -/
structure TableLineage where
  parentEpoch : StoreId
  forkRevision : UInt64
  deriving DecidableEq

/-- `StoreManifest`. -/
structure StoreManifest where
  features : FeatureFlags
  geometry : GeometryConfig
  storeId : StoreId
  options : Bytes
  schema : TableSchema
  lineage : Option TableLineage

/-- `RequireValidLineage`. -/
def requireValidLineage (manifest : StoreManifest) : Fallible Unit :=
  match manifest.lineage with
  | none => .ok ()
  | some lineage => do
    require (manifest.features.incompat &&& kFeatureTableLineage ≠ 0)
      ⟨.invalidArgument, "lineage metadata requires table_lineage feature"⟩
    require (lineage.parentEpoch ≠ .zero) ⟨.invalidArgument, "lineage parent epoch is zero"⟩
    require (lineage.parentEpoch ≠ manifest.storeId)
      ⟨.invalidArgument, "lineage parent epoch equals the table epoch"⟩

/-- An option that belongs to the lineage. -/
def isLineageOption (type : ℕ) : Bool := type = kOptionParentEpoch || type = kOptionForkRevision

/-- One entry of the first loop of `DecodeLineage`. -/
def decodeLineageOption (found : Option StoreId × Option UInt64) (entry : Tlv.Entry) :
    Fallible (Option StoreId × Option UInt64) :=
  if entry.type = kOptionParentEpoch then do
    require (found.1 = none) ⟨.runtimeError, "lineage parent epoch appears twice"⟩
    require (entry.value.length = 16) ⟨.runtimeError, "lineage parent epoch has invalid length"⟩
    return (some (storeIdAt entry.value 0), found.2)
  else if entry.type = kOptionForkRevision then do
    require (found.2 = none) ⟨.runtimeError, "lineage fork revision appears twice"⟩
    require (entry.value.length = 8) ⟨.runtimeError, "lineage fork revision has invalid length"⟩
    return (found.1, some (UInt64.ofNat (leNat entry.value)))
  else return found

/-- The second loop of `DecodeLineage`: the area without the options of the lineage. -/
def withoutLineage (options : Bytes) : Fallible Bytes :=
  Tlv.fold truncatedOption optionOverruns
    (fun kept entry => return if isLineageOption entry.type then kept else kept ++ entry.encode)
    [] options

/-- `DecodeLineage`. -/
def decodeLineage (manifest : StoreManifest) : Fallible StoreManifest := do
  let (parent, fork) ←
    Tlv.fold truncatedOption optionOverruns decodeLineageOption (none, none) manifest.options
  require (parent.isSome = fork.isSome)
    ⟨.runtimeError, "lineage parent epoch and fork revision must both be present"⟩
  match parent, fork with
  | some parent, some fork => do
    let manifest := { manifest with lineage := some ⟨parent, fork⟩ }
    rethrowInvalidArgument "" (requireValidLineage manifest)
    let options ← withoutLineage manifest.options
    return { manifest with options := options }
  | _, _ => return manifest

/-- `kStoreManifestMagic`: "CKMF". -/
def kStoreManifestMagic : Bytes := [0x43, 0x4B, 0x4D, 0x46]
def kStoreManifestVersion : ℕ := 4
def kStoreManifestMinSize : ℕ := 64
def kStoreManifestMaxSize : ℕ := 1024 * 1024
def kGeometryOffset : ℕ := 20
def kStoreIdOffset : ℕ := 36
def kOptionsSizeOffset : ℕ := 52
def kOptionsOffset : ℕ := 56

/-- The options of the lineage, as `SerializeStoreManifest` appends them. -/
def lineageEntries (lineage : Option TableLineage) : List Tlv.Entry :=
  lineage.elim [] fun lineage =>
    [⟨kOptionParentEpoch, lineage.parentEpoch.bytes⟩,
      ⟨kOptionForkRevision, leBytes 8 lineage.forkRevision.toNat⟩]

/-- The options area of a table manifest. -/
def StoreManifest.optionsArea (manifest : StoreManifest) : Bytes :=
  manifest.options ++ Tlv.encodeAll (lineageEntries manifest.lineage)

/-- The geometry fields of a table manifest. -/
def geometryFields (geometry : GeometryConfig) : Bytes :=
  leBytes 4 geometry.largeChunkWidthChunks ++ leBytes 4 geometry.largeChunkHeightChunks
    ++ leBytes 4 geometry.chunkWidthBlocks ++ leBytes 4 geometry.chunkHeightBlocks

/-- The bytes of a table manifest before its checksum. -/
def StoreManifest.body (manifest : StoreManifest) (schema : Bytes) : Bytes :=
  manifestStart kStoreManifestMagic kStoreManifestVersion manifest.features
    ++ geometryFields manifest.geometry ++ manifest.storeId.bytes
    ++ leBytes 4 manifest.optionsArea.length ++ manifest.optionsArea
    ++ leBytes 4 schema.length ++ schema

/-- `SerializeStoreManifest`. -/
def serializeStoreManifest (manifest : StoreManifest) : Fallible Bytes := do
  requireValidLineage manifest
  require (manifest.geometry.blockBits = fixedBitsPerBlock manifest.schema.columns)
    ⟨.invalidArgument, "store manifest geometry block_bits "
      ++ toString manifest.geometry.blockBits ++ " does not match the schema's "
      ++ toString (fixedBitsPerBlock manifest.schema.columns) ++ " fixed bits per block"⟩
  let schema ← encodeTableSchema manifest.schema
  require (kStoreManifestMinSize + manifest.optionsArea.length + schema.length
      ≤ kStoreManifestMaxSize)
    ⟨.invalidArgument, "store manifest options and schema are too large"⟩
  return withCrc (manifest.body schema)

/-- The `Geometry` constructor, of which the parser uses that it does not throw. -/
def GeometryConfig.construct (config : GeometryConfig) (schema : TableSchema) : Fallible Unit := do
  config.check schema
  let _ ← ChunkLayout.make schema config.chunkBlockCount kMaxChunkPayloadBytes
  return ()

/-- The geometry of a table manifest, its block width that of the schema. -/
def manifestGeometry (bytes : Bytes) (schema : TableSchema) : GeometryConfig :=
  { largeChunkWidthChunks := readLe 4 bytes kGeometryOffset
    largeChunkHeightChunks := readLe 4 bytes (kGeometryOffset + 4)
    chunkWidthBlocks := readLe 4 bytes (kGeometryOffset + 8)
    chunkHeightBlocks := readLe 4 bytes (kGeometryOffset + 12)
    blockBits := fixedBitsPerBlock schema.columns }

/-- What `ParseStoreManifest` checks before it looks at a field. -/
def requireStoreManifestFrame (bytes : Bytes) : Fallible Unit := do
  require (6 ≤ bytes.length ∧ bytes.take 4 = kStoreManifestMagic) ⟨.runtimeError, "bad magic"⟩
  let version := readLe 2 bytes 4
  require (¬ (1 ≤ version ∧ version ≤ 3))
    ⟨.runtimeError, "manifest version " ++ toString version
      ++ " was written by a 2.0 development build that predates text and bytes columns; this "
      ++ "build does not open it"⟩
  require (version = kStoreManifestVersion)
    ⟨.runtimeError, "unsupported manifest version " ++ toString version ++ ", expected "
      ++ toString kStoreManifestVersion⟩
  require (kStoreManifestMinSize ≤ bytes.length ∧ bytes.length ≤ kStoreManifestMaxSize)
    ⟨.runtimeError, "size is " ++ toString bytes.length ++ " bytes, expected "
      ++ toString kStoreManifestMinSize ++ ".." ++ toString kStoreManifestMaxSize⟩
  requireIntactManifest bytes
  let crcOffset := bytes.length - 4
  let optionsSize := readLe 4 bytes kOptionsSizeOffset
  require (optionsSize ≤ crcOffset - kOptionsOffset - 4)
    ⟨.runtimeError, "options size " ++ toString optionsSize ++ " overruns the file"⟩
  let schemaSize := readLe 4 bytes (kOptionsOffset + optionsSize)
  require (schemaSize = crcOffset - (kOptionsOffset + optionsSize) - 4)
    ⟨.runtimeError, "schema size " ++ toString schemaSize ++ " does not match the file size"⟩

/-- `ParseStoreManifest`. -/
def parseStoreManifest (bytes : Bytes) : Fallible StoreManifest := do
  requireStoreManifestFrame bytes
  let optionsSize := readLe 4 bytes kOptionsSizeOffset
  let schemaSizeOffset := kOptionsOffset + optionsSize
  let schemaSize := readLe 4 bytes schemaSizeOffset
  let features := manifestFeatures bytes
  let schema ← rethrow "invalid schema: "
    (decodeTableSchema ((bytes.drop (schemaSizeOffset + 4)).take schemaSize))
  require (fixedBitsPerBlock schema.columns ≠ 0)
    ⟨.runtimeError, "unsupported schema: a table needs at least one fixed-width column"⟩
  let geometry := manifestGeometry bytes schema
  rethrowInvalidArgument "invalid geometry: " (geometry.construct schema)
  let storeId := storeIdAt bytes kStoreIdOffset
  require (storeId ≠ .zero) ⟨.runtimeError, "store id is zero"⟩
  let options := (bytes.drop kOptionsOffset).take optionsSize
  validateOptions options features isKnownTableManifestType
  let manifest ← decodeLineage ⟨features, geometry, storeId, options, schema, none⟩
  let _ ← decodeTableOptions manifest.options
  return manifest

end ChunkDb
