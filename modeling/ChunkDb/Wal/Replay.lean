/-
# Replaying a WAL

`ReplayWal` (`wal_replay.cpp`) applies the frames of a WAL to the state of an image.
The loop works on the rest of the file from the cursor on.  `FrameOutcome` is what
one round of it decides: stop, skip a frame the image holds, or apply it.
-/
import ChunkDb.Wal.Header
import ChunkDb.Wal.Parse
import ChunkDb.SchemaSteps

open LittleEndian

namespace ChunkDb

/-- `WalReplayResult`. -/
structure WalReplayResult where
  appliedRecords : ℕ := 0
  appliedFrames : ℕ := 0
  skippedFrames : ℕ := 0
  revision : ℕ := 0
  commitTimeMs : ℕ := 0
  replayable : Bool := false
  tornCreation : Bool := false
  tailTruncatedOrCorrupt : Bool := false
  stoppedAtCrashTail : Bool := false
  validEnd : ℕ := 0
  stopReason : String := ""
  varsProblem : String := ""
  deriving DecidableEq, Repr

/-- `WalFrameBoundary`. -/
structure WalFrameBoundary where
  revision : ℕ
  finish : ℕ
  deriving DecidableEq, Repr

/-- What replay starts from: the state of an image, the revision and the schema version it
is of; version 0 is the empty state of no image. -/
structure ReplayBase where
  revision : ℕ
  version : ℕ
  state : ChunkState

/-- What `ReplayWal` leaves. -/
structure Replayed where
  result : WalReplayResult
  state : ChunkState
  boundaries : List WalFrameBoundary
  deriving DecidableEq

/-! ## Where a stop may be a crash -/

/-- A frame header with a valid checksum starts here. -/
def isValidFrameHeader (bytes : Bytes) : Bool :=
  kWalFrameFixedHeaderSize ≤ bytes.length && bytes.take 4 == kWalFrameMagic
    && kWalFrameFixedHeaderSize + readLe 2 bytes 22 + kWalFrameHeaderCrcSize ≤ bytes.length
    && headerCrcMatches bytes (readLe 2 bytes 22)

/-- `HasValidFrameHeaderAfter`; `rest` is the file from the cursor on. -/
def hasValidFrameHeaderAfter (rest : Bytes) : Bool :=
  (List.range rest.length).any fun skipped => isValidFrameHeader (rest.drop (skipped + 1))

/-- Whether a stop has the shape a crash leaves. -/
def stoppedAtCrashTail (stop : Stop) (rest : Bytes) : Bool :=
  !stop.intact && (stop.reachesEnd || !hasValidFrameHeaderAfter rest)

/-! ## The state between frames -/

/-- Payload and presence in one, with the version they are laid out by, and the values. -/
structure ReplayState where
  version : ℕ
  bytes : Bytes
  vars : ChunkVars
  deriving DecidableEq

/-- `set_state`. -/
def ReplayState.of (version : ℕ) (state : ChunkState) : ReplayState :=
  ⟨version, state.payload ++ state.presence, state.vars⟩

/-- The parts of a state with this many payload bytes. -/
def ReplayState.split (state : ReplayState) (payloadBytes : ℕ) : ChunkState :=
  ⟨state.bytes.take payloadBytes, state.bytes.drop payloadBytes, state.vars⟩

@[simp] theorem ReplayState.version_of (version : ℕ) (state : ChunkState) :
    (ReplayState.of version state).version = version := rfl

theorem ReplayState.split_of {state : ChunkState} {payloadBytes : ℕ}
    (h : state.payload.length = payloadBytes) (version : ℕ) :
    (ReplayState.of version state).split payloadBytes = state := by
  rw [split, of, List.take_left' h, List.drop_left' h]

/-- `move_state_to`; the empty state takes the version as it is. -/
def moveStateTo (geometry : Geometry) (basePresence : Bytes) (version : ℕ) (state : ReplayState) :
    Fallible ReplayState := do
  let target ← geometry.layoutAt version
  if state.version = 0 then
    return ReplayState.of version ⟨List.replicate target.payloadBytes 0, basePresence, state.vars⟩
  else
    let source ← geometry.layoutAt state.version
    let moved ← translateSteps geometry (version - state.version) state.version
      (state.split source.payloadBytes)
    return ReplayState.of version moved

/-- The state is moved when it is of another version. -/
def bringStateTo (geometry : Geometry) (basePresence : Bytes) (version : ℕ) (state : ReplayState) :
    Fallible ReplayState :=
  if version = state.version then .ok state else moveStateTo geometry basePresence version state

/-- Only the empty state takes its presence from the base. -/
theorem bringStateTo_presence {state : ReplayState} (h : 0 < state.version) (geometry : Geometry)
    (presence basePresence : Bytes) (version : ℕ) :
    bringStateTo geometry presence version state
      = bringStateTo geometry basePresence version state := by
  simp only [bringStateTo, moveStateTo, if_neg h.ne']

/-- `ApplyFrameVars`. -/
def applyFrameVars (frame : ParsedFrame) (vars : ChunkVars) : Fallible ChunkVars :=
  match frame.varReplace with
  | some replacement => .ok replacement
  | none =>
    match frame.varOps with
    | [(key, some value)] => vars.assign key value
    | [(key, none)] => .ok (vars.remove key)
    | changes => vars.merge changes

/-- The values after a frame; most frames have no value records. -/
def varsAfterFrame (frame : ParsedFrame) (vars : ChunkVars) : Fallible ChunkVars :=
  if frame.varOps ≠ [] ∨ frame.varReplace.isSome then applyFrameVars frame vars else .ok vars

/-- The spans of a frame copied into the state. -/
def copySpans (bytes : Bytes) (spans : List (ℕ × Bytes)) : Bytes :=
  spans.foldl (fun bytes span => copyInto bytes span.1 span.2) bytes

theorem length_copySpans (data : Bytes) (spans : List (ℕ × Bytes))
    (hinside : ∀ r ∈ spans, r.1 + r.2.length ≤ data.length) :
    (copySpans data spans).length = data.length :=
  length_foldl_eq _ _ _ rfl fun d hd r hr => by
    rw [length_copyInto _ _ _ (by rw [hd]; exact hinside r hr), hd]

/-- A frame applied to a state of its version. -/
def applyFrame (frame : ParsedFrame) (state : ReplayState) : Fallible ReplayState := do
  let vars ← varsAfterFrame frame state.vars
  return { state with vars, bytes := copySpans state.bytes frame.spans }

/-- A collection marker over a state with present blocks. -/
def gcOverPresent (geometry : Geometry) (frame : ParsedFrame) (state : ReplayState) :
    Fallible Bool :=
  if frame.gc then do
    let layout ← geometry.layoutAt state.version
    return (state.bytes.drop layout.payloadBytes).any (· != 0)
  else .ok false

/-! ## The loop -/

/-- What stays the same over a replay. -/
structure Replayer where
  geometry : Geometry
  maySkipUnknown : Bool
  slotsEnabled : Bool
  baseRevision : ℕ
  basePresence : Bytes

/-- What one round decides. -/
inductive FrameOutcome
  | stopped (reason : String) (crashTail : Bool)
  | skipped (frame : ParsedFrame)
  | applied (frame : ParsedFrame) (state : ReplayState)

namespace Replayer

variable (replayer : Replayer)

/-- The part of a round after the revision checks. -/
def applyAccepted (frame : ParsedFrame) (state : ReplayState) : Fallible FrameOutcome :=
  if frame.schemaVersion < state.version then .ok (.stopped "frame_schema_version_order" false)
  else do
    let state ← bringStateTo replayer.geometry replayer.basePresence frame.schemaVersion state
    let refused ← gcOverPresent replayer.geometry frame state
    if refused then return .stopped "frame_gc_present_state" false
    else
      let state ← applyFrame frame state
      return .applied frame state

/-- One round of the loop. -/
def replayFrame (previousRevision : ℕ) (state : ReplayState) (rest : Bytes) :
    Fallible FrameOutcome := do
  match ← parseFrame replayer.geometry replayer.maySkipUnknown replayer.slotsEnabled rest with
  | .error stop => return .stopped stop.reason (stoppedAtCrashTail stop rest)
  | .ok frame =>
    if frame.revision ≤ previousRevision then
      let stop : Stop := ⟨"frame_revision_order", frame.size ≥ rest.length, true⟩
      return .stopped stop.reason (stoppedAtCrashTail stop rest)
    else if frame.revision ≤ replayer.baseRevision then return .skipped frame
    else replayer.applyAccepted frame state

end Replayer

/-- Where replay stands between two rounds. -/
structure ReplayProgress where
  state : ReplayState
  previousRevision : ℕ
  cursor : ℕ
  result : WalReplayResult
  boundaries : List WalFrameBoundary
  deriving DecidableEq

namespace ReplayProgress

variable (progress : ReplayProgress)

/-- After a stop. -/
def stop (reason : String) (crashTail : Bool) : ReplayProgress :=
  { progress with result := { progress.result with
      tailTruncatedOrCorrupt := true, stopReason := reason, stoppedAtCrashTail := crashTail } }

/-- After a frame, applied or not. -/
def advance (frame : ParsedFrame) : ReplayProgress :=
  { progress with
    previousRevision := frame.revision
    cursor := progress.cursor + frame.size
    boundaries := progress.boundaries ++ [⟨frame.revision, progress.cursor + frame.size⟩] }

/-- After a frame the image holds. -/
def skip (frame : ParsedFrame) : ReplayProgress :=
  { progress.advance frame with result := { progress.result with
      skippedFrames := progress.result.skippedFrames + 1 } }

/-- After a frame that gave the state `state`. -/
def apply (frame : ParsedFrame) (state : ReplayState) : ReplayProgress :=
  { progress.advance frame with
    state
    result := { progress.result with
      appliedRecords := progress.result.appliedRecords + frame.recordCount
      appliedFrames := progress.result.appliedFrames + 1
      revision := frame.revision
      commitTimeMs := frame.commitTimeMs } }

end ReplayProgress

namespace Replayer

variable (replayer : Replayer)

/-- The loop; every frame has bytes, so the bytes left bound its rounds. -/
def replayLoop : ℕ → ReplayProgress → Bytes → Fallible ReplayProgress
  | 0, progress, _ => .ok progress
  | fuel + 1, progress, rest =>
    if rest = [] then .ok progress
    else do
      match ← replayer.replayFrame progress.previousRevision progress.state rest with
      | .stopped reason crashTail => return progress.stop reason crashTail
      | .skipped frame => replayLoop fuel (progress.skip frame) (rest.drop frame.size)
      | .applied frame state => replayLoop fuel (progress.apply frame state) (rest.drop frame.size)

/-- What is wrong with the values replay ends with, if anything. -/
def varsProblem (vars : ChunkVars) (presence : Bytes) : String :=
  if vars.encodedSize > kVarMaxChunkBytesLimit then
    "values take " ++ toString vars.encodedSize ++ " bytes, more than "
      ++ toString kVarMaxChunkBytesLimit
  else
    match replayer.geometry.layout.requireValidVars vars presence with
    | .ok () => ""
    | .error exn => exn.what

/-- `SplitChunkStateBytes`. -/
def splitChunkStateBytes (geometry : Geometry) (state : ReplayState) : Fallible ChunkState :=
  if state.bytes.length ≠ geometry.layout.payloadBytes + geometry.presenceBitmapBytes then
    invalidArgument "chunk state size does not match geometry"
  else
    let parts := state.split geometry.layout.payloadBytes
    .ok { parts with
      presence := maskUnusedPresenceBits geometry.config.chunkBlockCount parts.presence }

/-- The state in the current version, in its parts. -/
def currentState (state : ReplayState) : Fallible ChunkState := do
  let state ← bringStateTo replayer.geometry replayer.basePresence
    replayer.geometry.layout.schema.version state
  splitChunkStateBytes replayer.geometry state

/-- The end of replay: the state in the current version, and a check of its values. -/
def finish (progress : ReplayProgress) : Fallible Replayed := do
  let state ← replayer.currentState progress.state
  return {
    result := { progress.result with
      validEnd := progress.cursor
      varsProblem := replayer.varsProblem state.vars state.presence }
    state
    boundaries := progress.boundaries }

end Replayer

/-- What is wrong with the header of a WAL, if anything. -/
def walHeaderError (wal : Bytes) (chunkCoord : ChunkCoord) (storeId : StoreId)
    (storeFeatures : FeatureFlags) : Option String :=
  if wal.length < kWalHeaderSize then some "WAL file too small"
  else
    match validateWalHeader wal chunkCoord storeId storeFeatures with
    | .ok () => none
    | .error exn => some exn.what

/-- The end of replay of a file whose header is not valid: nothing applies. -/
def replayWithoutHeader (wal : Bytes) (geometry : Geometry) (chunkCoord : ChunkCoord)
    (storeId : StoreId) (base : ReplayBase) (headerError : String) : Fallible Replayed := do
  let state ← bringToCurrentSchema geometry base.version base.state
  if isInterruptedCreation wal chunkCoord storeId then
    return ⟨{ tornCreation := true, stopReason := "torn_creation" }, state, []⟩
  else
    return ⟨{ stopReason := "invalid_header: " ++ headerError }, state, []⟩

/-- The state replay starts with. -/
def initialState (geometry : Geometry) (base : ReplayBase) : Fallible ReplayState := do
  require (base.version ≤ geometry.layout.schema.version)
    ⟨.invalidArgument, "chunk state is of a schema version the table does not have"⟩
  if base.version = 0 then return ⟨0, [], base.state.vars⟩
  else
    let layout ← geometry.layoutAt base.version
    require (base.state.payload.length = layout.payloadBytes
        ∧ base.state.presence.length = geometry.presenceBitmapBytes)
      ⟨.invalidArgument, "chunk state size does not match its schema version"⟩
    return ReplayState.of base.version base.state

/-- What a replay of a file with these features over the base works with. -/
def Replayer.of (geometry : Geometry) (fileFeatures storeFeatures : FeatureFlags)
    (base : ReplayBase) : Replayer where
  geometry
  maySkipUnknown := maySkipUnknownTypes (unionFeatures fileFeatures storeFeatures)
  slotsEnabled := ChunkDb.slotsEnabled storeFeatures
  baseRevision := base.revision
  basePresence := base.state.presence

/-- Where replay starts: after the header, with nothing applied. -/
def ReplayProgress.start (state : ReplayState) : ReplayProgress where
  state
  previousRevision := 0
  cursor := kWalHeaderSize
  result := { replayable := true }
  boundaries := []

/-- `ReplayWal`. -/
def replayWal (wal : Bytes) (geometry : Geometry) (chunkCoord : ChunkCoord) (storeId : StoreId)
    (storeFeatures : FeatureFlags) (base : ReplayBase) : Fallible Replayed :=
  match walHeaderError wal chunkCoord storeId storeFeatures with
  | some headerError => replayWithoutHeader wal geometry chunkCoord storeId base headerError
  | none => do
    let replayer := Replayer.of geometry (walHeaderFeatures wal) storeFeatures base
    let state ← initialState geometry base
    let progress ← replayer.replayLoop wal.length (.start state) (wal.drop kWalHeaderSize)
    replayer.finish progress

end ChunkDb
