/-
# Loading a chunk

`LoadChunkPayload` (`chunk_cache.cpp`) builds a chunk from its files.  A writer reads the
image and replays the WAL over it.  A read-only store reads a stable snapshot of the
files of the chunk, with the intents that were pending, and replays the WAL only up to
the smallest boundary of a rollback intent.  It keeps what it loads and loads it again
when the generation has moved on (`RefreshReadOnlyChunk`).

The manifest of the table is in place: `RequireStoreStillOnDisk` passes.
-/
import ChunkDb.Image
import ChunkDb.Intent.Records
import ChunkDb.Wal.Replay

namespace ChunkDb

/-- What the store knows of a chunk before it reads its files. -/
structure ChunkLoader where
  geometry : Geometry
  chunkCoord : ChunkCoord
  storeId : StoreId
  features : FeatureFlags

/-- `SnapshotGenerationObservation`: the session and the mapped counter. -/
abbrev SnapshotGenerationObservation := UInt64 × UInt64

/-- The order of `std::pair`. -/
def observedBefore (a b : SnapshotGenerationObservation) : Prop :=
  a.1 < b.1 ∨ a.1 = b.1 ∧ a.2 ≤ b.2

instance (a b : SnapshotGenerationObservation) : Decidable (observedBefore a b) :=
  inferInstanceAs (Decidable (_ ∨ _))

/-- `ReadOnlyChunkDiskSnapshot`: the files of a chunk and the transaction intents, in the order
of their names. -/
structure ChunkDiskSnapshot where
  image : Option Bytes
  wal : Option Bytes
  intent : Option Bytes
  txnIntents : List Bytes
  generation : SnapshotGenerationObservation

/-- `LoadedChunkPayload`; `walBytes` and `walHeaderWritten` are for a writer's appends. -/
structure LoadedChunkPayload where
  state : ChunkState
  schemaVersion : ℕ := 0
  revision : ℕ := 0
  commitTimeMs : ℕ := 0
  walBytes : ℕ := 0
  walHeaderWritten : Bool := false
  readOnlyGeneration : SnapshotGenerationObservation := (0, 0)

/-- How much of the WAL a read-only store replays: whether an intent limits it, and the size
that the intents record. -/
structure ReplayLimit where
  rollbackBoundary : Bool
  committedWalSize : ℕ

namespace ChunkLoader

variable (loader : ChunkLoader)

/-- `EmptyPayload` and `EmptyPresenceBitmap`. -/
def emptyState : ChunkState :=
  ⟨List.replicate loader.geometry.layout.payloadBytes 0,
    List.replicate loader.geometry.presenceBitmapBytes 0, SortedMap.empty⟩

/-- The state of the image, if there is one. -/
def loadImage : Option Bytes → Fallible LoadedChunkPayload
  | none => .ok { state := loader.emptyState }
  | some bytes => do
    let image ← parseChunkImage bytes loader.geometry loader.chunkCoord loader.storeId loader.features
    return { state := image.state, schemaVersion := image.schemaVersion, revision := image.revision,
             commitTimeMs := image.commitTimeMs }

/-- `ReplayWal` over what was loaded. -/
def replayOver (loaded : LoadedChunkPayload) (wal : Bytes) : Fallible Replayed :=
  replayWal wal loader.geometry loader.chunkCoord loader.storeId loader.features
    ⟨loaded.revision, loaded.schemaVersion, loaded.state⟩

/-- What was loaded, with the state that replay left. -/
def replayedPayload (loaded : LoadedChunkPayload) (replayed : Replayed) : LoadedChunkPayload :=
  { loaded with state := replayed.state, schemaVersion := loader.geometry.layout.schema.version }

end ChunkLoader

/-- The revision of the last frame that replay applied. -/
def LoadedChunkPayload.withReplay (loaded : LoadedChunkPayload) (result : WalReplayResult) :
    LoadedChunkPayload :=
  if result.appliedFrames > 0 then
    { loaded with revision := result.revision, commitTimeMs := result.commitTimeMs }
  else loaded

/-! ## The read-only load -/

namespace ChunkDiskSnapshot

/-- The limit that the pending intents set. -/
def replayLimit (snapshot : ChunkDiskSnapshot) (coord : ChunkCoord) : Fallible ReplayLimit := do
  let (intentState, committedWalSize) ←
    match snapshot.intent with
    | none => .ok (IntentState.committed, 0)
    | some bytes =>
      match tryParseConditionalIntent bytes with
      | some intent => .ok intent
      | none => runtimeError ("read-only chunk snapshot contains a malformed conditional intent "
          ++ "for chunk " ++ coord.text)
  -- a transaction intent that has not reached its commit form limits the WAL as a CKRB does
  let rollback := intentState = .rollback
  match ← txnRollbackBoundaryForChunk snapshot.txnIntents coord with
  | some boundary =>
    return ⟨true, if rollback then min committedWalSize boundary else boundary⟩
  | none => return ⟨rollback, committedWalSize⟩

/-- The bytes of the WAL that are replayed. -/
def replayBytes (snapshot : ChunkDiskSnapshot) (coord : ChunkCoord) (limit : ReplayLimit) :
    Fallible Bytes :=
  if limit.rollbackBoundary then
    match snapshot.wal with
    | none =>
      if limit.committedWalSize ≠ 0 then
        runtimeError ("read-only chunk snapshot is missing the WAL required by CKRB boundary "
          ++ toString limit.committedWalSize ++ " for chunk " ++ coord.text)
      else .ok []
    | some wal =>
      if wal.length < limit.committedWalSize then
        runtimeError ("read-only chunk snapshot WAL is shorter than CKRB boundary "
          ++ toString limit.committedWalSize ++ " for chunk " ++ coord.text)
      else .ok (wal.take limit.committedWalSize)
  else .ok (snapshot.wal.getD [])

end ChunkDiskSnapshot

/-- Whether a read-only store takes the end of a WAL for the tail of a crash. -/
def ReplayLimit.acceptsTail (limit : ReplayLimit) (result : WalReplayResult) : Bool :=
  result.stoppedAtCrashTail && decide (limit.committedWalSize ≤ result.validEnd)

namespace ChunkLoader

variable (loader : ChunkLoader)

/-- The part of the read-only load after the image: the WAL, as far as the intents let it. -/
def replayReadOnly (loaded : LoadedChunkPayload) (limit : ReplayLimit) (bytes : Bytes) :
    Fallible LoadedChunkPayload :=
  if bytes = [] then .ok loaded
  else do
    let replayed ← loader.replayOver loaded bytes
    let loaded := loader.replayedPayload loaded replayed
    if replayed.result.tornCreation then return loaded
    else do
      require (¬ (replayed.result.replayable = false
          ∨ replayed.result.tailTruncatedOrCorrupt = true ∧ limit.acceptsTail replayed.result = false))
        ⟨.runtimeError, "read-only chunk snapshot rejected WAL for chunk " ++ loader.chunkCoord.text
          ++ ": " ++ (if replayed.result.stopReason = "" then "non-replayable or corrupt WAL"
            else replayed.result.stopReason)⟩
      require (replayed.result.varsProblem = "")
        ⟨.runtimeError, "read-only chunk snapshot of chunk " ++ loader.chunkCoord.text
          ++ " has inconsistent text and bytes values: " ++ replayed.result.varsProblem⟩
      return loaded.withReplay replayed.result

/-- `LoadChunkPayload` of a read-only store. -/
def loadReadOnly (snapshot : ChunkDiskSnapshot) : Fallible LoadedChunkPayload := do
  let image ← loader.loadImage snapshot.image
  let loaded := { image with readOnlyGeneration := snapshot.generation }
  let limit ← snapshot.replayLimit loader.chunkCoord
  let bytes ← snapshot.replayBytes loader.chunkCoord limit
  loader.replayReadOnly loaded limit bytes

/-! ## A writer's load -/

/-- The part of a writer's load after the image, with the WAL that it leaves: a tail that a crash
left is trimmed, and the WAL of an interrupted creation is removed. -/
def replayWriter (loaded : LoadedChunkPayload) (wal : Bytes) :
    Fallible (LoadedChunkPayload × Option Bytes) := do
  let replayed ← loader.replayOver loaded wal
  let loaded := loader.replayedPayload loaded replayed
  if replayed.result.tornCreation then return (loaded, none)
  else do
    require (replayed.result.replayable = true)
      ⟨.runtimeError, "WAL cannot be replayed (" ++ replayed.result.stopReason
        ++ "); refusing to load chunk " ++ loader.chunkCoord.text⟩
    require (¬ (replayed.result.tailTruncatedOrCorrupt = true
        ∧ replayed.result.stoppedAtCrashTail = false))
      ⟨.runtimeError, "WAL is damaged before its end (" ++ replayed.result.stopReason ++ " at byte "
        ++ toString replayed.result.validEnd ++ " of " ++ toString wal.length
        ++ "); refusing to load chunk " ++ loader.chunkCoord.text⟩
    require (replayed.result.varsProblem = "")
      ⟨.runtimeError, "WAL leaves inconsistent text and bytes values ("
        ++ replayed.result.varsProblem ++ "); refusing to load chunk " ++ loader.chunkCoord.text⟩
    let kept := if replayed.result.tailTruncatedOrCorrupt then wal.take replayed.result.validEnd
      else wal
    return ({ loaded.withReplay replayed.result with
      walBytes := replayed.result.validEnd, walHeaderWritten := true }, some kept)

/-- `LoadChunkPayload` of a writer. -/
def loadWriter (image wal : Option Bytes) : Fallible (LoadedChunkPayload × Option Bytes) := do
  let loaded ← loader.loadImage image
  match wal with
  | none => return (loaded, none)
  | some wal => loader.replayWriter loaded wal

/-- The state that `GetOrLoadRegularChunk` of a writer serves of a chunk with these files. -/
def openState (image wal : Option Bytes) : Fallible ChunkState := do
  let (loaded, _) ← loader.loadWriter image wal
  bringToCurrentSchema loader.geometry loaded.schemaVersion loaded.state

end ChunkLoader

/-! ## The chunks a read-only store serves -/

/-- `RegularChunk`, as far as a load sets it. -/
structure RegularChunk where
  state : ChunkState
  version : ℕ
  written : Bool
  commitTimeMs : ℕ
  walBytes : ℕ
  walHeaderWritten : Bool
  readOnlyGeneration : SnapshotGenerationObservation

namespace ChunkLoader

variable (loader : ChunkLoader)

/-- `GetOrLoadRegularChunk` of a read-only store whose cache does not hold the chunk;
`nextChunkVersion` is the token of a chunk with no revision. -/
def getOrLoadRegularChunk (snapshot : ChunkDiskSnapshot) (nextChunkVersion : ℕ) :
    Fallible RegularChunk := do
  let loaded ← loader.loadReadOnly snapshot
  let state ← bringToCurrentSchema loader.geometry loaded.schemaVersion loaded.state
  return {
    state
    version := if loaded.revision ≠ 0 then loaded.revision else nextChunkVersion
    written := loaded.revision != 0
    commitTimeMs := loaded.commitTimeMs
    walBytes := loaded.walBytes
    walHeaderWritten := loaded.walHeaderWritten
    readOnlyGeneration := loaded.readOnlyGeneration }

/-- `RefreshReadOnlyChunk` of a chunk that the cache holds; `now` is the stable generation, if
one was observed. -/
def refreshReadOnlyChunk (now : Option SnapshotGenerationObservation) (snapshot : ChunkDiskSnapshot)
    (nextChunkVersion : ℕ) (chunk : RegularChunk) : Fallible RegularChunk :=
  if now = some chunk.readOnlyGeneration then .ok chunk
  else do
    let loaded ← loader.loadReadOnly snapshot
    let state ← bringToCurrentSchema loader.geometry loaded.schemaVersion loaded.state
    if observedBefore loaded.readOnlyGeneration chunk.readOnlyGeneration then return chunk
    else return {
      state
      version := if loaded.revision ≠ 0 then loaded.revision else nextChunkVersion
      written := loaded.revision != 0 || loaded.schemaVersion != 0 || loaded.walHeaderWritten
      commitTimeMs := loaded.commitTimeMs
      walBytes := loaded.walBytes
      walHeaderWritten := loaded.walHeaderWritten
      readOnlyGeneration := loaded.readOnlyGeneration }

end ChunkLoader

end ChunkDb
