/-
# WALs cut short by a crash

A crash leaves the first bytes of a WAL.  Replay of them applies the frames wholly
inside and nothing of the cut one, and says that a crash may have left the file so.
-/
import ChunkDb.Wal.ReplaySpec

open List

namespace ChunkDb

/-! ## What a cut keeps -/

/-- The frames wholly inside the first `n` bytes after the header. -/
def framesWithin : ℕ → List FrameInput → List FrameInput
  | _, [] => []
  | n, input :: frames =>
    if input.frameBytes.length ≤ n then
      input :: framesWithin (n - input.frameBytes.length) frames
    else []

/-- The first `n` bytes of frames are the frames wholly inside, and a part of the next one. -/
theorem take_framesBytes (n : ℕ) (frames : List FrameInput) (hbuilt : ∀ input ∈ frames, input.Built)
    (hn : n ≤ (framesBytes frames).length) :
    framesWithin n frames <+: frames ∧ ∃ torn, TornFrame torn
      ∧ (framesBytes frames).take n = framesBytes (framesWithin n frames) ++ torn := by
  induction frames generalizing n with
  | nil => exact ⟨ nil_prefix, [], .inl rfl, by simp [framesBytes, framesWithin]⟩
  | cons input frames ih =>
    rw [framesBytes_cons, length_append] at hn
    by_cases hle : input.frameBytes.length ≤ n
    · obtain ⟨hfirst, torn, htorn, htake⟩ := ih (n - input.frameBytes.length)
        (fun other hother => hbuilt other (mem_cons_of_mem _ hother)) (by omega)
      rw [framesWithin, if_pos hle, framesBytes_cons, framesBytes_cons, take_append,
        take_of_length_le hle, htake]
      exact ⟨(prefix_cons_inj input).mpr hfirst, torn, htorn, (append_assoc ..).symm⟩
    · rw [framesWithin, if_neg hle]
      refine ⟨ nil_prefix, input.frameBytes.take n, .inr ⟨input,
        hbuilt input mem_cons_self, n, ?_, rfl⟩, ?_⟩
      · rw [← input.length_frameBytes]
        omega
      · rw [framesBytes_cons, take_append_of_le_length (by omega)]
        rfl

theorem Replayer.TakesAll.of_append {replayer : Replayer} {state : ReplayState}
    {first second : List ParsedFrame} (h : replayer.TakesAll state (first ++ second)) :
    replayer.TakesAll state first := by
  induction first generalizing state with
  | nil => trivial
  | cons frame first ih =>
    rw [cons_append, TakesAll] at h
    rw [TakesAll]
    split at h
    · rename_i hskip
      rw [if_pos hskip]
      exact ih h
    · rename_i hskip
      rw [if_neg hskip]
      exact ⟨h.1, fun next hnext => ih (h.2 next hnext)⟩

/-- A cut inside the header is what a crash leaves of a file that was being made. -/
theorem replayWal_take_header {geometry : Geometry} {storeFeatures : FeatureFlags}
    {base : ReplayBase} (chunkCoord : ChunkCoord) (storeId : StoreId) (features : FeatureFlags)
    (rest : Bytes) {n : ℕ} (hn : n < kWalHeaderSize) :
    replayWal ((buildWalHeader chunkCoord storeId features ++ rest).take n) geometry chunkCoord
        storeId storeFeatures base
      = (bringToCurrentSchema geometry base.version base.state).map fun current =>
          ⟨{ tornCreation := true, stopReason := "torn_creation" }, current, []⟩ := by
  have hlen := length_buildWalHeader chunkCoord storeId features
  rw [take_append_of_le_length (by omega)]
  have hshort : ((buildWalHeader chunkCoord storeId features).take n).length < kWalHeaderSize := by
    rw [length_take]
    omega
  rw [replayWal, walHeaderError, if_pos hshort]
  dsimp only
  rw [replayWithoutHeader, isInterruptedCreation_take _ _ _ _ hn]
  cases bringToCurrentSchema geometry base.version base.state <;> rfl

/-! ## Replay of a cut file -/

section Cut

variable {geometry : Geometry} {features storeFeatures : FeatureFlags}
  {base : ReplayBase} (chunkCoord : ChunkCoord) (storeId : StoreId)
  (hfeatures : isSubsetOf features storeFeatures = true) (frames : List FrameInput)
  (hwritten : ∀ input ∈ frames, input.Written geometry (slotsEnabled storeFeatures))
  (hrevisions : (base.revision :: frames.map (·.revision.toNat)).Pairwise (· < ·))
  (hversions : (base.version :: frames.map (·.schemaVersion)).Pairwise (· ≤ ·))
  {state : ReplayState} (hstate : initialState geometry base = .ok state)
  (hmarks : (Replayer.of geometry features storeFeatures base).MarksEmpty state
    (frames.map FrameInput.parsed))

include hfeatures hwritten hrevisions hversions hstate hmarks

/-- A cut past the header: replay passes the frames wholly inside, and stops as at a crash where a
part of another one is left. -/
theorem replayWal_take_frames {n : ℕ} (hle : kWalHeaderSize ≤ n)
    (hn : n ≤ kWalHeaderSize + (framesBytes frames).length) :
    let replayer := Replayer.of geometry features storeFeatures base
    let inside := framesWithin (n - kWalHeaderSize) frames
    let validEnd := kWalHeaderSize + (framesBytes inside).length
    (base.revision :: inside.map (·.revision.toNat)).Pairwise (· < ·) ∧
    ∃ reason, replayWal ((buildWalHeader chunkCoord storeId features ++ framesBytes frames).take n)
        geometry chunkCoord storeId storeFeatures base
      = (replayer.stateAfter state (inside.map FrameInput.parsed)
          >>= replayer.passed (inside.map FrameInput.parsed) (n != validEnd)
            (if n = validEnd then "" else reason)) := by
  intro replayer inside validEnd
  have hcut : (buildWalHeader chunkCoord storeId features ++ framesBytes frames).take n
      = buildWalHeader chunkCoord storeId features
        ++ (framesBytes frames).take (n - kWalHeaderSize) := by
    have hlen := length_buildWalHeader chunkCoord storeId features
    simp only [take_append, take_of_length_le (hlen.trans_le hle), hlen]
  obtain ⟨⟨later, hsplit⟩, torn, htorn, htake⟩ := take_framesBytes (n - kWalHeaderSize) frames
    (fun input hinput => (hwritten input hinput).built) (by omega)
  change inside ++ later = frames at hsplit
  change _ = framesBytes inside ++ torn at htake
  clear_value inside
  subst hsplit
  -- a cut frame is left exactly when the cut is past the last whole one
  have hbytes : n = kWalHeaderSize + (framesBytes inside).length + torn.length := by
    have := congrArg List.length htake
    rw [length_take, length_append] at this
    omega
  have htakes := Replayer.takesAll_of_initialState hrevisions hversions hstate hmarks
  rw [map_append] at htakes hrevisions
  have hinsideRev := (pairwise_append.mp (cons_append ▸ hrevisions)).1
  obtain ⟨reason, hreason, hreplay⟩ := replayWal_frames_torn chunkCoord storeId hfeatures inside
    (fun input hinput => hwritten input (mem_append_left _ hinput))
    (pairwise_zero_of_cons hinsideRev) hstate htakes.of_append htorn
  refine ⟨hinsideRev, reason, ?_⟩
  have hbne : (torn != []) = (n != validEnd) := by
    rw [Bool.eq_iff_iff, bne_iff_ne, bne_iff_ne, ne_eq, ← length_eq_zero_iff]
    omega
  have hstop : reason = if n = validEnd then "" else reason := by
    split
    · exact hreason (length_eq_zero_iff.mp (by omega))
    · rfl
  rw [hcut, htake, hreplay, hbne, ← hstop]

/-- Replay of the first `n` bytes of a WAL of written frames. -/
theorem replayWal_take (n : ℕ) (hn : n ≤ kWalHeaderSize + (framesBytes frames).length) :
    let replayer := Replayer.of geometry features storeFeatures base
    let inside := framesWithin (n - kWalHeaderSize) frames
    let validEnd := kWalHeaderSize + (framesBytes inside).length
    let cut := (buildWalHeader chunkCoord storeId features ++ framesBytes frames).take n
    (n < kWalHeaderSize →
      replayWal cut geometry chunkCoord storeId storeFeatures base
        = (bringToCurrentSchema geometry base.version base.state).map fun current =>
            ⟨{ tornCreation := true, stopReason := "torn_creation" }, current, []⟩)
    ∧ (kWalHeaderSize ≤ n →
      ∃ reason, replayWal cut geometry chunkCoord storeId storeFeatures base = do
        let after ← replayer.stateAfter state (inside.map FrameInput.parsed)
        let current ← replayer.currentState after
        return {
          result := {
            appliedRecords := (inside.map (·.records.length)).sum
            appliedFrames := inside.length
            skippedFrames := 0
            revision := (inside.getLast?.map (·.revision.toNat)).getD 0
            commitTimeMs := (inside.getLast?.map (·.commitTimeMs.toNat)).getD 0
            replayable := true
            tornCreation := false
            tailTruncatedOrCorrupt := n != validEnd
            stoppedAtCrashTail := n != validEnd
            validEnd
            stopReason := if n = validEnd then "" else reason
            varsProblem := replayer.varsProblem current.vars current.presence }
          state := current
          boundaries := ReplayProgress.boundariesFrom kWalHeaderSize
            (inside.map FrameInput.parsed) }) := by
  intro replayer inside validEnd cut
  refine ⟨fun hlt => replayWal_take_header chunkCoord storeId features _ hlt, fun hle => ?_⟩
  obtain ⟨hinside, reason, hreplay⟩ := replayWal_take_frames chunkCoord storeId hfeatures frames
    hwritten hrevisions hversions hstate hmarks hle hn
  refine ⟨reason, hreplay.trans ?_⟩
  have hresult := passedResult_eq hinside
  congr 1
  funext after
  rw [Replayer.passed]
  congr 1
  funext current
  simp only [Replayer.of, hresult]
  rfl

end Cut

/-- Two frames of 60 bytes, cut in the second one. -/
theorem replayWal_take_levelFrames :
    (replayWal ((buildWalHeader ⟨0, 0⟩ zeroStore ⟨0, 0, 0⟩
        ++ framesBytes [levelFrame 1, levelFrame 2]).take 150) smallShape.table.geometry ⟨0, 0⟩
        zeroStore ⟨0, 0, 0⟩ emptyBase).map (fun replayed => (replayed.result.appliedFrames,
          replayed.result.validEnd, replayed.result.stoppedAtCrashTail, replayed.state.payload))
      = .ok (1, 120, true, [7, 0, 0, 0]) := by
  have hframes : ∀ input ∈ [levelFrame 1, levelFrame 2], ∃ revision, input = levelFrame revision := by
    simp
  obtain ⟨reason, hreplay⟩ := (replayWal_take ⟨0, 0⟩ zeroStore
    (show isSubsetOf ⟨0, 0, 0⟩ ⟨0, 0, 0⟩ = true by decide) [levelFrame 1, levelFrame 2]
    (fun input hinput => by
      obtain ⟨revision, rfl⟩ := hframes input hinput
      exact written_levelFrame _ _)
    (by decide) (by decide) initialState_emptyBase
    (.of_not_gc _ _ (fun frame hframe => by
      obtain ⟨input, hinput, rfl⟩ := mem_map.mp hframe
      obtain ⟨revision, rfl⟩ := hframes input hinput
      rfl))
    150 (by decide +kernel)).2 (by decide)
  have hinside : framesWithin (150 - kWalHeaderSize) [levelFrame 1, levelFrame 2]
      = [levelFrame 1] := by
    decide +kernel
  have hafter : (Replayer.of smallShape.table.geometry ⟨0, 0, 0⟩ ⟨0, 0, 0⟩ emptyBase).stateAfter
      (ReplayState.of 1 emptyBase.state) [(levelFrame 1).parsed]
        = .ok ⟨1, [7, 0, 0, 0, 1], SortedMap.empty⟩ := by
    decide +kernel
  have hcurrent : (Replayer.of smallShape.table.geometry ⟨0, 0, 0⟩ ⟨0, 0, 0⟩ emptyBase).currentState
      ⟨1, [7, 0, 0, 0, 1], SortedMap.empty⟩
        = .ok ⟨[7, 0, 0, 0], [1], ⟨[(⟨2, 0⟩, List.replicate 60 0x2E)],
          keysAscending_singleton _⟩⟩ := by
    decide +kernel
  have hend : (framesBytes [levelFrame 1]).length = 60 := by
    decide +kernel
  rw [hreplay]
  simp only [hinside, hend, map_cons, map_nil, hafter, hcurrent, ok_bind]
  rfl

/-- Of a file cut before its header the end of the header is not reported. -/
theorem validEnd_take_zero :
    (replayWal ((buildWalHeader ⟨0, 0⟩ zeroStore ⟨0, 0, 0⟩ ++ framesBytes []).take 0)
        smallShape.table.geometry ⟨0, 0⟩ zeroStore ⟨0, 0, 0⟩ emptyBase).map (·.result.validEnd)
      = .ok 0 ∧ 0 ≠ kWalHeaderSize := by
  decide +kernel

end ChunkDb
