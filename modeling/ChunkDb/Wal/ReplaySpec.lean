/-
# Replay of frames that were written

Replay of a valid header and written frames passes over the frames in order: those the
image holds are skipped and the others applied, each to the state the frames before it
left.  What follows the frames is left to the loop.
-/
import ChunkDb.Wal.Replay
import ChunkDb.Wal.ParseSpec

open List

namespace ChunkDb

open ReplayProgress

/-! ## The state along a list of frames -/

/-- The frames the image does not hold. -/
def newFrames (baseRevision : ℕ) (frames : List ParsedFrame) : List ParsedFrame :=
  frames.filter (baseRevision < ·.revision)

@[simp] theorem newFrames_cons (baseRevision : ℕ) (frame : ParsedFrame)
    (frames : List ParsedFrame) :
    newFrames baseRevision (frame :: frames)
      = if frame.revision ≤ baseRevision then newFrames baseRevision frames
        else frame :: newFrames baseRevision frames := by
  rw [newFrames, filter_cons]
  by_cases h : frame.revision ≤ baseRevision
  · rw [if_pos h, if_neg (by simpa using h)]
    rfl
  · rw [if_neg h, if_pos (by simpa using h)]
    rfl

namespace Replayer

variable (replayer : Replayer)

/-- The state after a frame: moved to the frame's version, then written. -/
def stateAfterFrame (frame : ParsedFrame) (state : ReplayState) : Fallible ReplayState := do
  let state ← bringStateTo replayer.geometry replayer.basePresence frame.schemaVersion state
  applyFrame frame state

/-- The state after frames, of which those the image holds are passed over. -/
def stateAfter : ReplayState → List ParsedFrame → Fallible ReplayState
  | state, [] => .ok state
  | state, frame :: frames =>
    if frame.revision ≤ replayer.baseRevision then stateAfter state frames
    else do
      let state ← replayer.stateAfterFrame frame state
      stateAfter state frames

/-- A frame written for this state: of its version or a later one, and a collection marker
only where no block is present. -/
structure Takes (state : ReplayState) (frame : ParsedFrame) : Prop where
  version_le : state.version ≤ frame.schemaVersion
  gc_empty : ∀ moved, bringStateTo replayer.geometry replayer.basePresence frame.schemaVersion state
    = .ok moved → gcOverPresent replayer.geometry frame moved = .ok false

/-- Every frame the image does not hold was written for the state before it. -/
def TakesAll : ReplayState → List ParsedFrame → Prop
  | _, [] => True
  | state, frame :: frames =>
    if frame.revision ≤ replayer.baseRevision then TakesAll state frames
    else replayer.Takes state frame
      ∧ ∀ next, replayer.stateAfterFrame frame state = .ok next → TakesAll next frames

/-- A collection marker stands only where no block is present. -/
def MarksEmpty : ReplayState → List ParsedFrame → Prop
  | _, [] => True
  | state, frame :: frames =>
    if frame.revision ≤ replayer.baseRevision then MarksEmpty state frames
    else (∀ moved, bringStateTo replayer.geometry replayer.basePresence frame.schemaVersion state
        = .ok moved → gcOverPresent replayer.geometry frame moved = .ok false)
      ∧ ∀ next, replayer.stateAfterFrame frame state = .ok next → MarksEmpty next frames

variable {replayer}

variable {state : ReplayState}

theorem version_bringStateTo {geometry : Geometry} {basePresence : Bytes} {version : ℕ}
    {moved : ReplayState} (h : bringStateTo geometry basePresence version state = .ok moved) :
    moved.version = version := by
  unfold bringStateTo at h
  split at h
  · rename_i heq
    exact (Except.ok.inj h) ▸ heq.symm
  · unfold moveStateTo at h
    obtain ⟨target, _, h⟩ := bind_eq_ok.mp h
    split at h
    · exact (Except.ok.inj h) ▸ rfl
    · simp only [bind_eq_ok] at h
      obtain ⟨_, _, _, _, h⟩ := h
      exact (Except.ok.inj h) ▸ rfl

theorem version_stateAfterFrame {frame : ParsedFrame} {next : ReplayState}
    (h : replayer.stateAfterFrame frame state = .ok next) : next.version = frame.schemaVersion := by
  rw [stateAfterFrame, bind_eq_ok] at h
  obtain ⟨moved, hmoved, h⟩ := h
  rw [applyFrame, bind_eq_ok] at h
  obtain ⟨vars, _, h⟩ := h
  rw [← version_bringStateTo hmoved, ← Except.ok.inj h]

/-- Frames in the order of their versions, with markers only where no block is present. -/
theorem TakesAll.of_versions (state : ReplayState) (frames : List ParsedFrame)
    (hversions : (state.version :: (newFrames replayer.baseRevision frames).map
      ParsedFrame.schemaVersion).Pairwise (· ≤ ·))
    (hmarks : replayer.MarksEmpty state frames) : replayer.TakesAll state frames := by
  induction frames generalizing state with
  | nil => trivial
  | cons frame frames ih =>
    rw [MarksEmpty] at hmarks
    rw [newFrames_cons] at hversions
    rw [TakesAll]
    by_cases hskip : frame.revision ≤ replayer.baseRevision
    · rw [if_pos hskip] at hmarks hversions ⊢
      exact ih state hversions hmarks
    · rw [if_neg hskip] at hmarks hversions ⊢
      obtain ⟨hfirst, hversions⟩ := pairwise_cons.mp hversions
      refine ⟨⟨hfirst _ mem_cons_self, hmarks.1⟩, fun next hnext => ?_⟩
      refine ih next ?_ (hmarks.2 next hnext)
      rw [version_stateAfterFrame hnext]
      exact hversions

theorem MarksEmpty.of_not_gc (replayer : Replayer) (state : ReplayState)
    {frames : List ParsedFrame} (h : ∀ frame ∈ frames, frame.gc = false) :
    replayer.MarksEmpty state frames := by
  induction frames generalizing state with
  | nil => trivial
  | cons frame frames ih =>
    have hrest := fun other hother => h other (mem_cons_of_mem _ hother)
    rw [MarksEmpty]
    split
    · exact ih state hrest
    · refine ⟨fun moved _ => ?_, fun next _ => ih next hrest⟩
      rw [gcOverPresent, h frame mem_cons_self]
      rfl

theorem Takes.applyAccepted_eq {frame : ParsedFrame} (h : replayer.Takes state frame) :
    replayer.applyAccepted frame state
      = (replayer.stateAfterFrame frame state).map (FrameOutcome.applied frame) := by
  rw [applyAccepted, if_neg (not_lt.mpr h.version_le), stateAfterFrame]
  cases hmove : bringStateTo replayer.geometry replayer.basePresence frame.schemaVersion state with
  | error e => rfl
  | ok moved =>
    simp only [ok_bind, h.gc_empty moved hmove]
    cases applyFrame frame moved <;> rfl

theorem stateAfter_append (state : ReplayState) (first second : List ParsedFrame) :
    replayer.stateAfter state (first ++ second)
      = (replayer.stateAfter state first >>= fun state => replayer.stateAfter state second) := by
  induction first generalizing state with
  | nil => rfl
  | cons frame first ih =>
    simp only [cons_append, stateAfter]
    split
    · exact ih state
    · simp only [bind_assoc, ih]

end Replayer

/-! ## The loop over built frames -/

namespace ReplayProgress

/-- The same place with another state. -/
def withState (progress : ReplayProgress) (state : ReplayState) : ReplayProgress :=
  { progress with state }

/-- The counters after a frame, with the state as it was. -/
def pass (baseRevision : ℕ) (progress : ReplayProgress) (frame : ParsedFrame) : ReplayProgress :=
  if frame.revision ≤ baseRevision then progress.skip frame
  else progress.apply frame progress.state

/-- The counters after frames. -/
def passAll (baseRevision : ℕ) (progress : ReplayProgress) (frames : List ParsedFrame) :
    ReplayProgress :=
  frames.foldl (pass baseRevision) progress

theorem passAll_withState (baseRevision : ℕ) (progress : ReplayProgress) (state final : ReplayState)
    (frames : List ParsedFrame) :
    ((progress.withState state).passAll baseRevision frames).withState final
      = (progress.passAll baseRevision frames).withState final := by
  induction frames generalizing progress state with
  | nil => rfl
  | cons frame frames ih =>
    have hpass : (progress.withState state).pass baseRevision frame
        = (progress.pass baseRevision frame).withState state := by
      unfold pass
      split <;> rfl
    simp only [passAll, foldl_cons, hpass]
    exact ih _ state

end ReplayProgress

/-- The bytes of frames, one after the other. -/
def framesBytes (frames : List FrameInput) : Bytes := frames.flatMap FrameInput.frameBytes

@[simp] theorem framesBytes_cons (input : FrameInput) (frames : List FrameInput) :
    framesBytes (input :: frames) = input.frameBytes ++ framesBytes frames := rfl

theorem length_le_framesBytes (frames : List FrameInput) :
    frames.length ≤ (framesBytes frames).length := by
  induction frames with
  | nil => exact Nat.zero_le _
  | cons input frames ih =>
    have htotal := input.total_header
    rw [framesBytes_cons, length_append, input.length_frameBytes, length_cons]
    omega

/-- A frame a writer of the table built and appended. -/
structure FrameInput.Written (geometry : Geometry) (slotsEnabled : Bool) (input : FrameInput) :
    Prop where
  built : input.Built
  fits : ∃ layout, input.Fits geometry slotsEnabled layout

theorem Geometry.version_lt (geometry : Geometry) : geometry.layout.schema.version < 2 ^ 64 := by
  have := (validateTableSchema_eq_ok geometry.layout.valid).2.1
  exact this.trans_lt (by decide)

namespace Replayer

variable {replayer : Replayer}

/-- A round on a frame that was written: it is skipped or applied. -/
theorem replayFrame_written {input : FrameInput} {previous : ℕ} {state : ReplayState}
    (h : input.Written replayer.geometry replayer.slotsEnabled)
    (hprevious : previous < input.revision.toNat) (rest : Bytes) :
    replayer.replayFrame previous state (input.frameBytes ++ rest)
      = if input.parsed.revision ≤ replayer.baseRevision then .ok (.skipped input.parsed)
        else replayer.applyAccepted input.parsed state := by
  obtain ⟨layout, hfits⟩ := h.fits
  have hrevision : input.parsed.revision = input.revision.toNat := rfl
  rw [replayFrame, FrameInput.parseFrame_frameBytes h.built hfits replayer.geometry.version_lt]
  simp only [ok_bind, hrevision, if_neg (not_le.mpr hprevious)]
  rfl

/-- One turn of the loop over a frame that was written. -/
theorem replayLoop_frame {input : FrameInput} {progress : ReplayProgress} {fuel : ℕ}
    (h : input.Written replayer.geometry replayer.slotsEnabled)
    (hprevious : progress.previousRevision < input.revision.toNat)
    (htakes : ¬ input.parsed.revision ≤ replayer.baseRevision →
      replayer.Takes progress.state input.parsed) (rest : Bytes) :
    replayer.replayLoop (fuel + 1) progress (input.frameBytes ++ rest)
      = if input.parsed.revision ≤ replayer.baseRevision then
          replayer.replayLoop fuel (progress.skip input.parsed) rest
        else replayer.stateAfterFrame input.parsed progress.state >>= fun state =>
          replayer.replayLoop fuel (progress.apply input.parsed state) rest := by
  have hne : input.frameBytes ++ rest ≠ [] := by
    simp [FrameInput.frameBytes, kWalFrameMagic]
  have hdrop : (input.frameBytes ++ rest).drop input.parsed.size = rest :=
    drop_left' input.length_frameBytes
  rw [replayLoop, if_neg hne, replayFrame_written h hprevious]
  by_cases hskip : input.parsed.revision ≤ replayer.baseRevision
  · simp only [if_pos hskip, ok_bind, hdrop]
  · simp only [if_neg hskip, (htakes hskip).applyAccepted_eq]
    cases replayer.stateAfterFrame input.parsed progress.state with
    | error e => rfl
    | ok state => simp only [Except.map, ok_bind, hdrop]

/-- The loop passes over frames that were written, and goes on with what follows them. -/
theorem replayLoop_frames (frames : List FrameInput) (progress : ReplayProgress) {fuel : ℕ}
    (hwritten : ∀ input ∈ frames, input.Written replayer.geometry replayer.slotsEnabled)
    (hincreasing : (progress.previousRevision :: frames.map (·.revision.toNat)).Pairwise (· < ·))
    (htakes : replayer.TakesAll progress.state (frames.map FrameInput.parsed)) (rest : Bytes) :
    replayer.replayLoop (fuel + frames.length) progress (framesBytes frames ++ rest)
      = (replayer.stateAfter progress.state (frames.map FrameInput.parsed) >>= fun state =>
          replayer.replayLoop fuel ((progress.passAll replayer.baseRevision
            (frames.map FrameInput.parsed)).withState state) rest) := by
  induction frames generalizing progress with
  | nil => rfl
  | cons input frames ih =>
    have hframes := fun other hother => hwritten other (mem_cons_of_mem _ hother)
    obtain ⟨hfirst, hincreasing⟩ := pairwise_cons.mp hincreasing
    have hbytes : framesBytes (input :: frames) ++ rest
        = input.frameBytes ++ (framesBytes frames ++ rest) := by
      simp [framesBytes]
    rw [map_cons, TakesAll] at htakes
    rw [hbytes, length_cons, ← Nat.add_assoc,
      replayLoop_frame (hwritten input mem_cons_self)
        (hfirst _ (by simp)) (fun h => (by rw [if_neg h] at htakes; exact htakes.1)),
      map_cons, stateAfter]
    by_cases hskip : input.parsed.revision ≤ replayer.baseRevision
    · -- the image holds the frame: only the counters change
      rw [if_pos hskip] at htakes
      rw [if_pos hskip, if_pos hskip, ih (progress.skip input.parsed) hframes hincreasing htakes]
      simp only [passAll, foldl_cons, ReplayProgress.pass, if_pos hskip]
      rfl
    · rw [if_neg hskip] at htakes
      rw [if_neg hskip, if_neg hskip, bind_assoc]
      cases hnext : replayer.stateAfterFrame input.parsed progress.state with
      | error e => rfl
      | ok next =>
        rw [ok_bind, ok_bind,
          ih (progress.apply input.parsed next) hframes hincreasing (htakes.2 next hnext)]
        congr 1
        funext state
        congr 1
        simp only [passAll, foldl_cons, ReplayProgress.pass, if_neg hskip]
        exact passAll_withState replayer.baseRevision
          (progress.apply input.parsed progress.state) next state _

end Replayer

/-! ## The counters -/

namespace ReplayProgress

variable (baseRevision : ℕ) (progress : ReplayProgress) (frames : List ParsedFrame)

@[simp] theorem cursor_pass (frame : ParsedFrame) :
    (progress.pass baseRevision frame).cursor = progress.cursor + frame.size := by
  unfold pass
  split <;> rfl

/-- Every frame moves the cursor past it. -/
theorem cursor_passAll :
    (progress.passAll baseRevision frames).cursor
      = progress.cursor + (frames.map ParsedFrame.size).sum := by
  induction frames generalizing progress with
  | nil => rfl
  | cons frame frames ih =>
    rw [passAll, foldl_cons, ← passAll, ih, cursor_pass, map_cons, sum_cons, Nat.add_assoc]

/-- The boundaries of frames that start at `cursor`. -/
def boundariesFrom : ℕ → List ParsedFrame → List WalFrameBoundary
  | _, [] => []
  | cursor, frame :: frames =>
    ⟨frame.revision, cursor + frame.size⟩ :: boundariesFrom (cursor + frame.size) frames

/-- Every frame leaves its boundary. -/
theorem boundaries_passAll :
    (progress.passAll baseRevision frames).boundaries
      = progress.boundaries ++ boundariesFrom progress.cursor frames := by
  induction frames generalizing progress with
  | nil => exact (append_nil _).symm
  | cons frame frames ih =>
    have hpass : (progress.pass baseRevision frame).boundaries
        = progress.boundaries ++ [⟨frame.revision, progress.cursor + frame.size⟩] := by
      unfold pass
      split <;> rfl
    rw [passAll, foldl_cons, ← passAll, ih, hpass, cursor_pass, append_assoc, boundariesFrom]
    rfl

/-- What the counters say of frames: how many are skipped and applied, and which was the last. -/
theorem result_passAll :
    (progress.passAll baseRevision frames).result = { progress.result with
      appliedRecords := progress.result.appliedRecords
        + ((newFrames baseRevision frames).map ParsedFrame.recordCount).sum
      appliedFrames := progress.result.appliedFrames + (newFrames baseRevision frames).length
      skippedFrames := progress.result.skippedFrames
        + (frames.length - (newFrames baseRevision frames).length)
      revision := ((newFrames baseRevision frames).getLast?.map ParsedFrame.revision).getD
        progress.result.revision
      commitTimeMs := ((newFrames baseRevision frames).getLast?.map ParsedFrame.commitTimeMs).getD
        progress.result.commitTimeMs } := by
  induction frames generalizing progress with
  | nil => simp [passAll, newFrames]
  | cons frame frames ih =>
    have hle : (newFrames baseRevision frames).length ≤ frames.length := length_filter_le ..
    rw [passAll, foldl_cons, ← passAll, ih, newFrames_cons, pass]
    by_cases hskip : frame.revision ≤ baseRevision
    · simp only [if_pos hskip, skip, WalReplayResult.mk.injEq, length_cons, true_and, and_true]
      omega
    · simp only [if_neg hskip, apply, length_cons, map_cons, sum_cons,
        WalReplayResult.mk.injEq, and_true, getLast?_cons, Option.map_some, Option.getD_some]
      refine ⟨by omega, by omega, by omega, ?_, ?_⟩ <;>
        cases (newFrames baseRevision frames).getLast? <;> rfl

end ReplayProgress

/-! ## The whole file -/

section WholeFile

variable {geometry : Geometry} {features storeFeatures : FeatureFlags} {base : ReplayBase}
  (chunkCoord : ChunkCoord) (storeId : StoreId)

/-- Replay of a file with a valid header is the loop over what follows the header. -/
theorem replayWal_buildWalHeader (hfeatures : isSubsetOf features storeFeatures = true)
    (rest : Bytes) :
    replayWal (buildWalHeader chunkCoord storeId features ++ rest) geometry chunkCoord storeId
        storeFeatures base
      = (initialState geometry base >>= fun state =>
          (Replayer.of geometry features storeFeatures base).replayLoop (kWalHeaderSize + rest.length)
              (.start state) rest
            >>= (Replayer.of geometry features storeFeatures base).finish) := by
  have hlen : (buildWalHeader chunkCoord storeId features ++ rest).length
      = kWalHeaderSize + rest.length := by
    rw [length_append, length_buildWalHeader]
  have hheader : walHeaderError (buildWalHeader chunkCoord storeId features ++ rest) chunkCoord storeId
      storeFeatures = none := by
    rw [walHeaderError, if_neg (by omega), validateWalHeader_buildWalHeader _ _ _ hfeatures]
  rw [replayWal, hheader]
  dsimp only
  rw [walHeaderFeatures_buildWalHeader, hlen, drop_left' (length_buildWalHeader ..)]

/-- Replay of a file of written frames, up to what follows them. -/
theorem replayWal_frames (hfeatures : isSubsetOf features storeFeatures = true)
    (frames : List FrameInput)
    (hwritten : ∀ input ∈ frames, input.Written geometry (slotsEnabled storeFeatures))
    (hincreasing : (0 :: frames.map (·.revision.toNat)).Pairwise (· < ·))
    {state : ReplayState} (hstate : initialState geometry base = .ok state)
    (htakes : (Replayer.of geometry features storeFeatures base).TakesAll state
      (frames.map FrameInput.parsed)) (rest : Bytes) :
    ∃ fuel, rest.length < fuel ∧
      replayWal (buildWalHeader chunkCoord storeId features ++ (framesBytes frames ++ rest)) geometry
          chunkCoord storeId storeFeatures base
        = ((Replayer.of geometry features storeFeatures base).stateAfter state
              (frames.map FrameInput.parsed) >>= fun after =>
            (Replayer.of geometry features storeFeatures base).replayLoop fuel
                (((ReplayProgress.start state).passAll base.revision
                  (frames.map FrameInput.parsed)).withState after) rest
              >>= (Replayer.of geometry features storeFeatures base).finish) := by
  have hcount := length_le_framesBytes frames
  refine ⟨kWalHeaderSize + (framesBytes frames ++ rest).length - frames.length, ?_, ?_⟩
  · rw [length_append]
    unfold kWalHeaderSize
    omega
  · rw [replayWal_buildWalHeader _ _ hfeatures, hstate, ok_bind]
    have hfuel : kWalHeaderSize + (framesBytes frames ++ rest).length
        = kWalHeaderSize + (framesBytes frames ++ rest).length - frames.length + frames.length := by
      rw [length_append]
      omega
    rw [hfuel, Replayer.replayLoop_frames frames (.start state) hwritten hincreasing htakes rest,
      bind_assoc, Nat.add_sub_cancel]
    rfl

end WholeFile

/-! ## The end of the file -/

/-- What replay reports of frames it passed over. -/
def passedResult (baseRevision : ℕ) (frames : List ParsedFrame) : WalReplayResult where
  appliedRecords := ((newFrames baseRevision frames).map ParsedFrame.recordCount).sum
  appliedFrames := (newFrames baseRevision frames).length
  skippedFrames := frames.length - (newFrames baseRevision frames).length
  revision := ((newFrames baseRevision frames).getLast?.map ParsedFrame.revision).getD 0
  commitTimeMs := ((newFrames baseRevision frames).getLast?.map ParsedFrame.commitTimeMs).getD 0
  replayable := true
  validEnd := kWalHeaderSize + (frames.map ParsedFrame.size).sum

/-- What replay gives for frames it passed over: the state after them in the current version. -/
def Replayer.passed (replayer : Replayer) (frames : List ParsedFrame) (cut : Bool)
    (reason : String) (after : ReplayState) : Fallible Replayed := do
  let current ← replayer.currentState after
  return {
    result := { passedResult replayer.baseRevision frames with
      tailTruncatedOrCorrupt := cut
      stoppedAtCrashTail := cut
      stopReason := reason
      varsProblem := replayer.varsProblem current.vars current.presence }
    state := current
    boundaries := ReplayProgress.boundariesFrom kWalHeaderSize frames }

theorem Replayer.finish_passAll (replayer : Replayer) (state after : ReplayState)
    (frames : List ParsedFrame) :
    replayer.finish (((ReplayProgress.start state).passAll replayer.baseRevision frames).withState
      after) = replayer.passed frames false "" after := by
  unfold finish passed
  simp only [withState, result_passAll, cursor_passAll, boundaries_passAll]
  simp [start, passedResult]

theorem Replayer.finish_stop_passAll (replayer : Replayer) (state after : ReplayState)
    (frames : List ParsedFrame) (reason : String) :
    replayer.finish ((((ReplayProgress.start state).passAll replayer.baseRevision frames).withState
      after).stop reason true) = replayer.passed frames true reason after := by
  unfold finish passed stop
  simp only [withState, result_passAll, cursor_passAll, boundaries_passAll]
  simp [start, passedResult]

/-- On a part of a frame the loop stops, as at a crash. -/
theorem replayLoop_torn {input : FrameInput} (h : input.Built) {k : ℕ}
    (hk : k < input.header.total) (hne : input.frameBytes.take k ≠ []) :
    ∃ reason, ∀ (replayer : Replayer) (fuel : ℕ) (progress : ReplayProgress),
      replayer.replayLoop (fuel + 1) progress (input.frameBytes.take k)
        = .ok (progress.stop reason true) := by
  obtain ⟨reason, hstop⟩ := input.parseFrameHeader_take h k hk
  refine ⟨reason, fun replayer fuel progress => ?_⟩
  rw [Replayer.replayLoop, if_neg hne, Replayer.replayFrame, parseFrame, hstop]
  rfl

/-- What a crash leaves of an append: nothing, or the first bytes of a frame. -/
def TornFrame (torn : Bytes) : Prop :=
  torn = [] ∨ ∃ input : FrameInput, input.Built ∧ ∃ k < input.header.total,
    torn = input.frameBytes.take k

variable {geometry : Geometry} {base : ReplayBase} {state : ReplayState} {frames : List FrameInput}

/-- Replay of written frames and what a crash left of another one. -/
theorem replayWal_frames_torn {features storeFeatures : FeatureFlags} (chunkCoord : ChunkCoord)
    (storeId : StoreId) (hfeatures : isSubsetOf features storeFeatures = true)
    (frames : List FrameInput)
    (hwritten : ∀ input ∈ frames, input.Written geometry (slotsEnabled storeFeatures))
    (hincreasing : (0 :: frames.map (·.revision.toNat)).Pairwise (· < ·))
    (hstate : initialState geometry base = .ok state)
    (htakes : (Replayer.of geometry features storeFeatures base).TakesAll state
      (frames.map FrameInput.parsed)) {torn : Bytes} (htorn : TornFrame torn) :
    ∃ reason, (torn = [] → reason = "") ∧
      replayWal (buildWalHeader chunkCoord storeId features ++ (framesBytes frames ++ torn)) geometry
          chunkCoord storeId storeFeatures base
        = ((Replayer.of geometry features storeFeatures base).stateAfter state
              (frames.map FrameInput.parsed)
            >>= (Replayer.of geometry features storeFeatures base).passed
              (frames.map FrameInput.parsed) (torn != []) reason) := by
  obtain ⟨fuel, hfuel, hreplay⟩ := replayWal_frames chunkCoord storeId hfeatures frames hwritten
    hincreasing hstate htakes torn
  obtain ⟨fuel, rfl⟩ : ∃ n, fuel = n + 1 := ⟨fuel - 1, by omega⟩
  by_cases hne : torn = []
  · refine ⟨"", fun _ => rfl, ?_⟩
    rw [hreplay, hne]
    congr 1
    funext after
    rw [Replayer.replayLoop, if_pos rfl, ok_bind]
    exact Replayer.finish_passAll _ state after _
  · obtain ⟨input, hbuilt, k, hk, rfl⟩ := htorn.resolve_left hne
    obtain ⟨reason, hstop⟩ := replayLoop_torn hbuilt hk hne
    refine ⟨reason, fun h => absurd h hne, ?_⟩
    have hcut : (input.frameBytes.take k != []) = true := bne_iff_ne.mpr hne
    rw [hreplay, hcut]
    congr 1
    funext after
    rw [hstop, ok_bind]
    exact Replayer.finish_stop_passAll _ state after _ reason

/-! ## Frames above the image -/

/-- Frames above the revision of the image are all applied. -/
theorem newFrames_eq_self {baseRevision : ℕ}
    (h : (baseRevision :: frames.map (·.revision.toNat)).Pairwise (· < ·)) :
    newFrames baseRevision (frames.map FrameInput.parsed) = frames.map FrameInput.parsed := by
  refine filter_eq_self.mpr fun frame hframe => ?_
  obtain ⟨input, hinput, rfl⟩ := mem_map.mp hframe
  exact decide_eq_true ((pairwise_cons.mp h).1 _ (mem_map.mpr ⟨input, hinput, rfl⟩))

theorem sum_size_parsed (frames : List FrameInput) :
    ((frames.map FrameInput.parsed).map ParsedFrame.size).sum = (framesBytes frames).length := by
  induction frames with
  | nil => rfl
  | cons input frames ih =>
    rw [map_cons, map_cons, sum_cons, ih, framesBytes_cons, length_append, input.length_frameBytes]
    rfl

theorem version_initialState (h : initialState geometry base = .ok state) :
    state.version = base.version := by
  rw [initialState, check_bind_eq_ok] at h
  obtain ⟨_, h⟩ := h
  split at h
  · rename_i hzero
    rw [← Except.ok.inj h, hzero]
  · obtain ⟨layout, _, h⟩ := bind_eq_ok.mp h
    rw [check_bind_eq_ok] at h
    rw [← Except.ok.inj h.2]
    rfl

/-- Frames in order above the image, with markers only where no block is present. -/
theorem Replayer.takesAll_of_initialState {features storeFeatures : FeatureFlags}
    (hrevisions : (base.revision :: frames.map (·.revision.toNat)).Pairwise (· < ·))
    (hversions : (base.version :: frames.map (·.schemaVersion)).Pairwise (· ≤ ·))
    (hstate : initialState geometry base = .ok state)
    (hmarks : (Replayer.of geometry features storeFeatures base).MarksEmpty state
      (frames.map FrameInput.parsed)) :
    (Replayer.of geometry features storeFeatures base).TakesAll state
      (frames.map FrameInput.parsed) := by
  refine TakesAll.of_versions state _ ?_ hmarks
  have hnew := newFrames_eq_self hrevisions
  rw [version_initialState hstate, Replayer.of, hnew, map_map]
  exact hversions

theorem pairwise_zero_of_cons {first : ℕ} {rest : List ℕ} (h : (first :: rest).Pairwise (· < ·)) :
    (0 :: rest).Pairwise (· < ·) := by
  obtain ⟨hfirst, hrest⟩ := pairwise_cons.mp h
  exact pairwise_cons.mpr ⟨fun a ha => (Nat.zero_le _).trans_lt (hfirst a ha), hrest⟩

/-- What replay reports of frames that are all above the image. -/
theorem passedResult_eq {baseRevision : ℕ}
    (h : (baseRevision :: frames.map (·.revision.toNat)).Pairwise (· < ·)) :
    passedResult baseRevision (frames.map FrameInput.parsed) = {
      appliedRecords := (frames.map (·.records.length)).sum
      appliedFrames := frames.length
      revision := (frames.getLast?.map (·.revision.toNat)).getD 0
      commitTimeMs := (frames.getLast?.map (·.commitTimeMs.toNat)).getD 0
      replayable := true
      validEnd := kWalHeaderSize + (framesBytes frames).length } := by
  rw [passedResult, newFrames_eq_self h, sum_size_parsed, map_map, length_map,
    Nat.sub_self, getLast?_map, Option.map_map, Option.map_map]
  rfl

/-! ## Frames of a small table -/

/-- A frame that sets the first cell of a chunk of 2 × 2 cells to level 7. -/
def levelFrame (revision : UInt64) : FrameInput where
  schemaVersion := 1
  tag := []
  user := none
  gc := false
  records := [.span 0 [7], .span 4 [1]]
  revision
  commitTimeMs := 0

theorem written_levelFrame (revision : UInt64) (slotsEnabled : Bool) :
    (levelFrame revision).Written smallShape.table.geometry slotsEnabled where
  -- the revision is in neither of the two areas
  built := {
    tlvArea_le := by
      change (levelFrame 0).tlvArea.length ≤ kMaxUInt16
      decide +kernel
    recordArea_le := by
      change (levelFrame 0).recordArea.length ≤ kMaxUInt32
      decide +kernel
    records_ne := cons_ne_nil _ _
    records_le := by
      change 2 ≤ kMaxUInt32
      decide
    appended := ⟨_, rfl⟩ }
  fits := ⟨smallShape.cellsLayout, {
    version_pos := Nat.one_pos
    version_le := by
      change 1 ≤ 2
      decide
    user_slots := by simp [FrameInput.userBytes, levelFrame]
    gc_slots := by simp [levelFrame]
    layoutAt_eq := smallShape.isLayout_one.layoutAt_eq
    records_fit := by
      intro record hrecord
      have hcases : record = .span 0 [7] ∨ record = .span 4 [1] := by
        simpa [levelFrame] using hrecord
      rcases hcases with rfl | rfl <;> exact ⟨by decide, by decide⟩
    gc_reset := by simp [levelFrame] }⟩

/-- The empty chunk at version 1. -/
def emptyBase : ReplayBase := ⟨0, 1, ⟨[0, 0, 0, 0], [0], SortedMap.empty⟩⟩

/-- The identity of a new store. -/
def zeroStore : StoreId := ⟨List.replicate 16 0, by decide⟩

theorem initialState_emptyBase :
    initialState smallShape.table.geometry emptyBase = .ok (ReplayState.of 1 emptyBase.state) := by
  rw [initialState]
  decide +kernel

end ChunkDb
