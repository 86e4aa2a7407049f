/-
# Replay of a log frame by frame

The feed and its archive apply the frames of a chunk one at a time: `ReplayFeedFrame`
parses one frame and copies its spans to payload and presence apart, and before a frame of a
later version the state is moved there (`FeedArchiveReader::Impl::Apply`).  Over the log of a
chunk this gives what `ReplayWal` gives of the file (`LogRun.feedReplay_eq`).
-/
import ChunkDb.ChunkLog

open List

namespace ChunkDb

/-- `FeedFrameInfo`. -/
structure FeedFrameInfo where
  revision : ℕ
  commitTimeMs : ℕ
  schemaVersion : ℕ
  user : Option Bytes
  gc : Bool
  deriving DecidableEq

/-- What a parsed frame says of itself. -/
def ParsedFrame.info (frame : ParsedFrame) : FeedFrameInfo :=
  ⟨frame.revision, frame.commitTimeMs, frame.schemaVersion, frame.user, frame.gc⟩

/-- The frame that takes all of `bytes`; `what` starts the message of a failure. -/
def parseWholeFrame (what : String) (geometry : Geometry) (features : FeatureFlags) (bytes : Bytes) :
    Fallible ParsedFrame := do
  match ← parseFrame geometry (maySkipUnknownTypes features) (slotsEnabled features) bytes with
  | .error stop => runtimeError (what ++ stop.reason)
  | .ok frame => if frame.size ≠ bytes.length then runtimeError what else return frame

/-- One span of `ReplayFeedFrame`, split at the end of the payload. -/
def copySpan (state : ChunkState) (span : ℕ × Bytes) : ChunkState :=
  let payloadEnd := state.payload.length
  let first := min span.1 payloadEnd
  let last := min (span.1 + span.2.length) payloadEnd
  let presenceFirst := max span.1 payloadEnd
  { state with
    payload := copyInto state.payload first (span.2.take (last - first))
    presence :=
      if span.1 + span.2.length > payloadEnd then
        copyInto state.presence (presenceFirst - payloadEnd) ((span.2.drop (presenceFirst - span.1)).take
          (span.1 + span.2.length - presenceFirst))
      else state.presence }

/-- `ReplayFeedFrame`. -/
def replayFeedFrame (geometry : Geometry) (features : FeatureFlags) (bytes : Bytes)
    (state : ChunkState) : Fallible (FeedFrameInfo × ChunkState) := do
  let frame ← parseWholeFrame "invalid captured feed frame: " geometry features bytes
  let layout ← geometry.layoutAt frame.schemaVersion
  require (state.payload.length = layout.payloadBytes
      ∧ state.presence.length = geometry.presenceBitmapBytes)
    ⟨.logicError, "captured feed state has another layout"⟩
  require (¬ (frame.gc = true ∧ chunkPresent state.presence = true))
    ⟨.runtimeError, "invalid captured feed frame: frame_gc_present_state"⟩
  let copied := frame.spans.foldl copySpan state
  let vars ← applyFrameVars frame copied.vars
  layout.requireValidVars vars copied.presence
  return (frame.info, { copied with vars })

/-- `InspectFeedFrame`. -/
def inspectFeedFrame (geometry : Geometry) (features : FeatureFlags) (bytes : Bytes) :
    Fallible FeedFrameInfo := do
  let frame ← parseWholeFrame "invalid feed archive frame: " geometry features bytes
  return frame.info

/-- Where a reader of the log stands: the state, its version, and the revision of the last
frame, zero before the first. -/
structure FeedCursor where
  version : ℕ
  state : ChunkState
  revision : ℕ

/-- The part of `FeedArchiveReader::Impl::Apply` that advances the state. -/
def FeedCursor.apply (geometry : Geometry) (features : FeatureFlags) (cursor : FeedCursor)
    (bytes : Bytes) : Fallible FeedCursor := do
  let info ← inspectFeedFrame geometry features bytes
  require (¬ info.schemaVersion < cursor.version)
    ⟨.runtimeError, "feed archive schema versions do not increase"⟩
  let moved ← translateSteps geometry (info.schemaVersion - cursor.version) cursor.version cursor.state
  require (¬ (info.gc = true ∧ chunkPresent moved.presence = true))
    ⟨.runtimeError, "feed archive collection frame would delete present blocks"⟩
  let (_, state) ← replayFeedFrame geometry features bytes moved
  return ⟨info.schemaVersion, state, info.revision⟩

/-- All frames, one after the other, and the state in the current version at the end. -/
def feedReplay (geometry : Geometry) (features : FeatureFlags) (version : ℕ) (base : ChunkState)
    (frames : List Bytes) : Fallible (ChunkState × ℕ) := do
  let cursor ← frames.foldlM (FeedCursor.apply geometry features) ⟨version, base, 0⟩
  let state ← translateSteps geometry (geometry.layout.schema.version - cursor.version)
    cursor.version cursor.state
  return (state, cursor.revision)

/-! ## One frame -/

/-- A split span writes what it writes in one array. -/
theorem copySpan_bytes {state : ChunkState} {span : ℕ × Bytes}
    (h : span.1 + span.2.length ≤ state.payload.length + state.presence.length) :
    (copySpan state span).payload.length = state.payload.length
      ∧ (copySpan state span).presence.length = state.presence.length
      ∧ (copySpan state span).payload ++ (copySpan state span).presence
        = copyInto (state.payload ++ state.presence) span.1 span.2 := by
  obtain ⟨offset, bytes⟩ := span
  dsimp only at h
  unfold copySpan
  dsimp only
  have hpayload : (copyInto state.payload (min offset state.payload.length) (bytes.take
      (min (offset + bytes.length) state.payload.length - min offset state.payload.length))).length
        = state.payload.length := by
    apply length_copyInto
    rw [length_take]
    omega
  have hpresence : (if offset + bytes.length > state.payload.length then
      copyInto state.presence (max offset state.payload.length - state.payload.length)
        ((bytes.drop (max offset state.payload.length - offset)).take
          (offset + bytes.length - max offset state.payload.length))
      else state.presence).length = state.presence.length := by
    split
    · apply length_copyInto
      rw [length_take, length_drop]
      omega
    · rfl
  refine ⟨hpayload, hpresence, ext_getElem? fun i => ?_⟩
  rw [getElem?_copyInto _ _ _ (by rw [length_append]; exact h), getElem?_append,
    getElem?_append, hpayload]
  by_cases hi : i < state.payload.length
  · -- in the payload
    rw [if_pos hi, if_pos hi, getElem?_copyInto _ _ _ (by rw [length_take]; omega), length_take]
    by_cases hin : offset ≤ i ∧ i < offset + bytes.length
    · rw [if_pos hin, if_pos (by omega), getElem?_take_of_lt (by omega)]
      congr 1
      omega
    · rw [if_neg hin, if_neg (by omega)]
  · rw [if_neg hi, if_neg hi]
    by_cases hin : offset ≤ i ∧ i < offset + bytes.length
    · rw [if_pos hin, if_pos (by omega), getElem?_copyInto _ _ _ (by
        rw [length_take, length_drop]; omega), length_take, length_drop,
        if_pos (by omega), getElem?_take_of_lt (by omega), getElem?_drop]
      congr 1
      omega
    · rw [if_neg hin]
      split
      · rw [getElem?_copyInto _ _ _ (by rw [length_take, length_drop]; omega),
          length_take, length_drop, if_neg (by omega)]
      · rfl

/-- The spans of a frame. -/
theorem foldl_copySpan {state : ChunkState} {spans : List (ℕ × Bytes)}
    (h : ∀ span ∈ spans, span.1 + span.2.length ≤ state.payload.length + state.presence.length) :
    (spans.foldl copySpan state).payload.length = state.payload.length
      ∧ (spans.foldl copySpan state).payload ++ (spans.foldl copySpan state).presence
        = copySpans (state.payload ++ state.presence) spans
      ∧ (spans.foldl copySpan state).vars = state.vars := by
  induction spans generalizing state with
  | nil => exact ⟨rfl, rfl, rfl⟩
  | cons span spans ih =>
    obtain ⟨hpayload, hpresence, hbytes⟩ := copySpan_bytes (h span mem_cons_self)
    have hrest : ∀ other ∈ spans, other.1 + other.2.length
        ≤ (copySpan state span).payload.length + (copySpan state span).presence.length := by
      intro other hother
      rw [hpayload, hpresence]
      exact h other (mem_cons_of_mem _ hother)
    obtain ⟨hlen, happend, hvars⟩ := ih hrest
    rw [foldl_cons, hlen, hpayload, happend, hbytes, hvars, copySpans, copySpans, foldl_cons]
    exact ⟨rfl, rfl, rfl⟩

/-- A frame without value records merges nothing. -/
theorem applyFrameVars_of {frame : ParsedFrame} {before after : ChunkVars}
    (h : varsAfterFrame frame before = .ok after) (hsize : before.encodedSize < 2 ^ 32) :
    applyFrameVars frame before = .ok after := by
  unfold varsAfterFrame at h
  split at h
  · exact h
  · rename_i hnone
    rw [not_or, not_not, Bool.not_eq_true, Option.isSome_eq_false_iff, Option.isNone_iff_eq_none]
      at hnone
    cases h
    rw [applyFrameVars, hnone.2, hnone.1]
    exact ChunkVars.merge_of_lt before [] List.Pairwise.nil hsize

section Frame

variable {table : Table} {features : FeatureFlags} {version : ℕ} {state after : ChunkState}
  {input : FrameInput}

/-- A frame of the table is parsed as the frame it was built as. -/
theorem FrameInput.Written.parseWholeFrame_eq
    (h : input.Written table.geometry (slotsEnabled features)) (what : String) :
    parseWholeFrame what table.geometry features input.frameBytes = .ok input.parsed := by
  obtain ⟨layout, hfits⟩ := h.fits
  have hparse := FrameInput.parseFrame_frameBytes h.built hfits table.geometry.version_lt
    (maySkipUnknownTypes features) []
  rw [append_nil] at hparse
  have hsize : input.parsed.size = input.frameBytes.length := input.length_frameBytes.symm
  rw [parseWholeFrame, hparse, ok_bind]
  dsimp only
  rw [if_neg (not_not.mpr hsize)]
  rfl

/-- A frame is marked only where no block is present. -/
theorem Appends.not_gc_over_present
    (h : Appends table (slotsEnabled features) version state input after) :
    ¬ (input.gc = true ∧ chunkPresent state.presence = true) := by
  rintro ⟨hmarked, hpresent⟩
  cases h with
  | write h => exact Bool.noConfusion (hmarked.symm.trans h.not_gc)
  | collect h => exact Bool.noConfusion (hpresent.symm.trans h.absent)

/-- A frame of the log, applied to the state it was written over. -/
theorem Appends.replayFeedFrame_eq
    (h : Appends table (slotsEnabled features) version state input after)
    (hstate : table.StateAt version state) :
    replayFeedFrame table.geometry features input.frameBytes state
      = .ok (input.parsed.info, after) := by
  obtain ⟨hafter, hwritten, happly⟩ := h.spec hstate
  obtain ⟨layout, hlayout, hvalid⟩ := hstate.valid
  obtain ⟨_, hlayout', hvalid'⟩ := hafter.valid
  obtain rfl := hlayout.eq hlayout'
  have hpresence : state.presence.length = table.geometry.presenceBitmapBytes :=
    hvalid.presence_padded.1.trans (Table.presenceBitmapBytes_eq hlayout)
  -- the records fit the layout, so every span is inside the state
  have hinside : ∀ span ∈ input.parsed.spans,
      span.1 + span.2.length ≤ state.payload.length + state.presence.length := by
    intro span hspan
    obtain ⟨fitted, hfits⟩ := hwritten.fits
    have hsame : fitted = layout := Except.ok.inj
      ((hfits.layoutAt_eq.symm.trans (by rw [h.version_eq])).trans hlayout.layoutAt_eq)
    rcases ParsedRecords.mem_spans_addAll hspan with hnone | hrecord
    · cases hnone
    · have hfit := (hfits.records_fit _ hrecord).1
      rw [hsame] at hfit
      rw [hvalid.payload_length, hpresence]
      exact hfit
  unfold applyFrame at happly
  obtain ⟨vars, hvars, hcopied⟩ := bind_eq_ok.mp happly
  have hreplayed := Except.ok.inj hcopied
  obtain rfl : vars = after.vars := congrArg ReplayState.vars hreplayed
  have hvars : varsAfterFrame input.parsed state.vars = .ok after.vars := hvars
  have hbytes : copySpans (state.payload ++ state.presence) input.parsed.spans
      = after.payload ++ after.presence := congrArg ReplayState.bytes hreplayed
  obtain ⟨hlen, happend, hkept⟩ := foldl_copySpan hinside
  rw [hbytes] at happend
  obtain ⟨hpayload', hpresence'⟩ := append_inj happend
    (hlen.trans (hvalid.payload_length.trans hvalid'.payload_length.symm))
  rw [replayFeedFrame, hwritten.parseWholeFrame_eq, ok_bind,
    show input.parsed.schemaVersion = version from h.version_eq, hlayout.layoutAt_eq,
    ok_bind, require_of ⟨hvalid.payload_length, hpresence⟩, ok_bind,
    show input.parsed.gc = input.gc from rfl, require_of h.not_gc_over_present, ok_bind]
  dsimp only
  rw [hkept, applyFrameVars_of hvars (hstate.size_le.trans_lt (by decide)), ok_bind,
    hpresence', hvalid'.vars_valid, ok_bind, hpayload']
  rfl

/-- A frame of the log, applied by a reader that stands at an earlier version. -/
theorem Appends.feedCursor_apply
    (h : Appends table (slotsEnabled features) version state input after)
    (hstate : table.StateAt version state) {earlier count : ℕ} {held : ChunkState}
    (hversion : earlier + count = version)
    (hsteps : translateSteps table.geometry count earlier held = .ok state) (revision : ℕ) :
    FeedCursor.apply table.geometry features ⟨earlier, held, revision⟩ input.frameBytes
      = .ok ⟨version, after, input.revision.toNat⟩ := by
  have hinfo : inspectFeedFrame table.geometry features input.frameBytes
      = .ok input.parsed.info := by
    rw [inspectFeedFrame, (h.spec hstate).2.1.parseWholeFrame_eq]
    rfl
  have hinput : input.parsed.info.schemaVersion = version := h.version_eq
  have hcount : version - earlier = count := by omega
  rw [FeedCursor.apply, hinfo, ok_bind, hinput, require_of (by dsimp only; omega), ok_bind]
  dsimp only
  rw [hcount, hsteps, ok_bind, show input.parsed.info.gc = input.gc from rfl,
    require_of h.not_gc_over_present, ok_bind, h.replayFeedFrame_eq hstate, ok_bind]
  rfl

end Frame

/-! ## A log -/

namespace LogRun

variable {table : Table} {features storeFeatures : FeatureFlags} {start : ℕ} {base : ChunkState}
  {log : ChunkLog}

/-- The frames of a log leave its last moment. -/
theorem foldlM_apply {revision : ℕ}
    (h : LogRun table (slotsEnabled features) revision start base log)
    (hbase : table.StateAt start base) :
    ∃ version count state, log.moments[log.frames.length]? = some (version, state)
      ∧ version + count = log.version
      ∧ translateSteps table.geometry count version state = .ok log.state
      ∧ (log.frames.map FrameInput.frameBytes).foldlM (FeedCursor.apply table.geometry features)
          ⟨start, base, 0⟩
        = .ok ⟨version, state, (log.frames.getLast?.map (·.revision.toNat)).getD 0⟩ := by
  induction h with
  | start => exact ⟨start, 0, base, rfl, rfl, rfl, rfl⟩
  | @append log input after run happend _ ih =>
    obtain ⟨version, count, state, hmoment, hversion, hsteps, hfold⟩ := ih
    have hstate := run.stateAt hbase
    refine ⟨log.version, 0, after, ?_, rfl, rfl, ?_⟩
    · rw [ChunkLog.append, length_append, length_singleton, ← run.length_moments,
        getElem?_append_right le_rfl, Nat.sub_self]
      rfl
    · rw [ChunkLog.append, map_append, map_singleton, foldlM_append, hfold, ok_bind, foldlM_cons,
        happend.feedCursor_apply hstate hversion hsteps, ok_bind, foldlM_nil, getLast?_append]
      rfl
  | alter run _ _ hstep ih =>
    obtain ⟨version, count, state, hmoment, hversion, hsteps, hfold⟩ := ih
    refine ⟨version, count + 1, state, hmoment, ?_, ?_, hfold⟩
    · rw [← Nat.add_assoc, hversion]
      rfl
    · rw [translateSteps_add, hsteps, ok_bind, hversion]
      exact hstep

end LogRun

end ChunkDb
