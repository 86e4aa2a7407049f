/-
# The WAL refines the writes

`ChunkRun` is what happens to a chunk in memory: writes, each with the frame built for
it, and steps to the next schema version.  Replay of the frames of a run over the state
the run started from gives the state it ended in (`ChunkRun.replayWal_eq`), as long as
every schema step finds room for the values it adds.  Without that room replay still
gives the state, but finds fault with its values (`ChunkRun.varsProblem_of_no_room`).
-/
import ChunkDb.ChunkLog

namespace ChunkDb

/-- What happens to a chunk in memory: writes, each with its frame, and steps to the next
schema version.  Every step meets `StepFits` in the state it starts from. -/
inductive ChunkRun (table : Table) (slotsEnabled : Bool) (start : ℕ) (base : ChunkState) :
    List FrameInput → ℕ → ChunkState → Prop
  | refl : ChunkRun table slotsEnabled start base [] start base
  | write {frames version state input after} (run : ChunkRun table slotsEnabled start base frames
      version state) (h : Commits table slotsEnabled version state input after) :
      ChunkRun table slotsEnabled start base (frames ++ [input]) version after
  | migrate {frames version state after} (run : ChunkRun table slotsEnabled start base frames
      version state) (hlt : version < table.version) (hfits : StepFits table.geometry version state)
      (h : translateSteps table.geometry 1 version state = .ok after) :
      ChunkRun table slotsEnabled start base frames (version + 1) after

section Step

variable {table : Table} {version : ℕ} {state : ChunkState} {source : ChunkLayout}

/-- What the step to the current version gives, and how much of it are values. -/
theorem Table.StateAt.translateChunk_current (hstate : table.StateAt version state)
    (hversion : version + 1 = table.version) (hsource : table.IsLayout version source)
    (hfits : NarrowingFits source table.geometry.layout state) :
    ∃ next : ChunkState, table.geometry.layout.ValidState next
      ∧ next.vars.encodedSize
        ≤ state.vars.encodedSize + addedBytes source table.geometry.layout state.presence
      ∧ (next.vars.encodedSize ≤ kVarMaxChunkBytesLimit ↔ state.vars.encodedSize
        + addedBytes source table.geometry.layout state.presence ≤ kVarMaxChunkBytesLimit)
      ∧ translateChunk source table.geometry.layout state
        = if next.vars.encodedSize < 2 ^ 32 then .ok next
          else .error ChunkVars.exceedsFourGiB := by
  obtain ⟨hpos, _, ⟨layout, hlayout, hvalid⟩, hsize⟩ := hstate
  obtain rfl := hlayout.eq hsource
  obtain ⟨target, htarget⟩ := table.exists_layout version.succ_pos hversion.le
  obtain rfl := (hversion ▸ htarget : table.IsLayout table.version target).eq_current
  have hlimit : kVarMaxChunkBytesLimit < 2 ^ 32 := by decide
  obtain ⟨next, hnext, _, hle, hgrows, htranslate⟩ := translateChunk_spec
    (hlayout.adjacent hpos (by omega) htarget)
    (hlayout.blockCount_eq.trans htarget.blockCount_eq.symm)
    (htarget.blockCount_eq.trans_le table.blockCount_le) hvalid hfits (hsize.trans_lt hlimit)
  refine ⟨next, hnext, hle, ⟨fun hnextSize => ?_, fun hroom => hle.trans hroom⟩, htranslate⟩
  by_cases hadded : addedBytes layout table.geometry.layout state.presence = 0
  · rw [hadded]
    exact hsize
  · rw [← hgrows hadded]
    exact hnextSize

end Step

namespace ChunkRun

variable {table : Table} {features storeFeatures : FeatureFlags} {base : ReplayBase}
  {frames : List FrameInput} {version : ℕ} {state : ChunkState}

/-- A run whose revisions increase leaves a log. -/
theorem exists_log {slotsEnabled : Bool} {start revision : ℕ} {base : ChunkState}
    (hrun : ChunkRun table slotsEnabled start base frames version state)
    (hrevisions : (revision :: frames.map (·.revision.toNat)).Pairwise (· < ·)) :
    ∃ log, LogRun table slotsEnabled revision start base log ∧ log.frames = frames
      ∧ log.version = version ∧ log.state = state := by
  induction hrun with
  | refl => exact ⟨_, .start, rfl, rfl, rfl⟩
  | write _ h ih =>
    rw [List.map_append, ← List.cons_append] at hrevisions
    obtain ⟨hold, -, hnew⟩ := List.pairwise_append.mp hrevisions
    obtain ⟨log, hlog, rfl, rfl, rfl⟩ := ih hold
    exact ⟨_, .append hlog (.write h) fun r hr => hnew r hr _ (by simp), rfl, rfl, rfl⟩
  | migrate _ hlt hfits h ih =>
    obtain ⟨log, hlog, rfl, rfl, rfl⟩ := ih hrevisions
    exact ⟨_, .alter hlog hlt hfits h, rfl, rfl, rfl⟩

/-- Replay of the frames of a run over the state the run started from gives the state the run
ended in, with every frame applied and nothing to report. -/
theorem replayWal_eq (chunkCoord : ChunkCoord) (storeId : StoreId)
    (hfeatures : isSubsetOf features storeFeatures = true)
    (hbase : table.StateAt base.version base.state) {final : ChunkState}
    (hrun : ChunkRun table (slotsEnabled storeFeatures) base.version base.state frames table.version
      final)
    (hrevisions : (base.revision :: frames.map (·.revision.toNat)).Pairwise (· < ·)) :
    let wal := buildWalHeader chunkCoord storeId features ++ framesBytes frames
    replayWal wal table.geometry chunkCoord storeId storeFeatures base = .ok {
      result := {
        appliedRecords := (frames.map (·.records.length)).sum
        appliedFrames := frames.length
        skippedFrames := 0
        revision := (frames.getLast?.map (·.revision.toNat)).getD 0
        commitTimeMs := (frames.getLast?.map (·.commitTimeMs.toNat)).getD 0
        replayable := true
        tornCreation := false
        tailTruncatedOrCorrupt := false
        stoppedAtCrashTail := false
        validEnd := wal.length
        stopReason := ""
        varsProblem := "" }
      state := final
      boundaries := ReplayProgress.boundariesFrom kWalHeaderSize (frames.map FrameInput.parsed) } := by
  intro wal
  have hwal : wal.length = kWalHeaderSize + (framesBytes frames).length := by
    rw [List.length_append, length_buildWalHeader]
  obtain ⟨log, hlog, rfl, hversion, rfl⟩ := hrun.exists_log hrevisions
  obtain ⟨earlier, count, replayed, hmoment, hcount, hsteps⟩ := hlog.last_moment
  have hstart : table.Starts ⟨base.state, base.version, base.revision, 0, 0, false, (0, 0)⟩
      base.version base.state := .image hbase
  have hreplay := hlog.replayWal_log chunkCoord storeId hfeatures hstart hmoment
    (hcount.trans hversion)
  rw [hsteps] at hreplay
  rw [hwal]
  refine hreplay.trans ?_
  rw [Except.map, (ChunkVars.sizeProblem_eq_empty_iff _).mpr (hlog.stateAt hbase).size_le]
  rfl

/-- Where the step to the current version has no room, replay finds fault with the values. -/
theorem varsProblem_of_no_room (chunkCoord : ChunkCoord) (storeId : StoreId)
    (hfeatures : isSubsetOf features storeFeatures = true)
    (hbase : table.StateAt base.version base.state)
    (hrun : ChunkRun table (slotsEnabled storeFeatures) base.version base.state frames version state)
    (hrevisions : (base.revision :: frames.map (·.revision.toNat)).Pairwise (· < ·))
    (hversion : version + 1 = table.version) {source : ChunkLayout}
    (hsource : table.IsLayout version source)
    (hfits : NarrowingFits source table.geometry.layout state)
    (hover : kVarMaxChunkBytesLimit
      < state.vars.encodedSize + addedBytes source table.geometry.layout state.presence)
    (hlt : state.vars.encodedSize + addedBytes source table.geometry.layout state.presence < 2 ^ 32) :
    ∃ final replayed, translateSteps table.geometry 1 version state = .ok final
      ∧ replayWal (buildWalHeader chunkCoord storeId features ++ framesBytes frames) table.geometry
          chunkCoord storeId storeFeatures base = .ok replayed
      ∧ replayed.state = final ∧ replayed.result.varsProblem ≠ "" := by
  obtain ⟨log, hlog, rfl, rfl, rfl⟩ := hrun.exists_log hrevisions
  have hstate := hlog.stateAt hbase
  obtain ⟨target, htarget⟩ := table.exists_layout log.version.succ_pos hversion.le
  obtain rfl := (hversion ▸ htarget : table.IsLayout table.version target).eq_current
  obtain ⟨final, _, hle, hroom, htranslate⟩ :=
    hstate.translateChunk_current hversion hsource hfits
  rw [if_pos (by omega)] at htranslate
  have hstep : translateSteps table.geometry 1 log.version log.state = .ok final := by
    simp only [translateSteps, hsource.layoutAt_eq, htarget.layoutAt_eq, htranslate, ok_bind]
  obtain ⟨earlier, count, replayed, hmoment, hcount, hsteps⟩ := hlog.last_moment
  have hall : translateSteps table.geometry (count + 1) earlier replayed = .ok final := by
    rw [translateSteps_add, hsteps, ok_bind, hcount, hstep]
  have hstart : table.Starts ⟨base.state, base.version, base.revision, 0, 0, false, (0, 0)⟩
      base.version base.state := .image hbase
  have hreplay := hlog.replayWal_log chunkCoord storeId hfeatures hstart hmoment
    (show earlier + (count + 1) = table.version by omega)
  rw [hall] at hreplay
  refine ⟨final, _, hstep, hreplay, rfl, fun hempty => ?_⟩
  have := hroom.mp ((ChunkVars.sizeProblem_eq_empty_iff _).mp hempty)
  omega

end ChunkRun

/-! ## A chunk that a new column fills -/

namespace CellsShape

variable (shape : CellsShape) {n : ℕ}

/-- A write to a full chunk in version 1 and the step to version 2: where the notes take more
than a chunk may have, replay finds fault with the values. -/
theorem varsProblem_fullState (hn : shape.count = 8 * n)
    (hover : kVarMaxChunkBytesLimit < 72 * (8 * n)) (hlt : 72 * (8 * n) < 2 ^ 32) :
    shape.table.StateAt 1 (fullState n)
      ∧ Commits shape.table false 1 (fullState n) levelSetFrame (levelState n)
      ∧ NarrowingFits shape.cellsLayout shape.notedLayout (levelState n)
      ∧ ∃ final replayed, translateSteps shape.table.geometry 1 1 (levelState n) = .ok final
        ∧ replayWal (buildWalHeader ⟨0, 0⟩ zeroStore ⟨0, 0, 0⟩ ++ framesBytes [levelSetFrame])
            shape.table.geometry ⟨0, 0⟩ zeroStore ⟨0, 0, 0⟩ ⟨0, 1, fullState n⟩ = .ok replayed
        ∧ replayed.state = final ∧ replayed.result.varsProblem ≠ "" := by
  have hbase := shape.stateAt_fullState hn
  have hcommits := shape.commits_fullState hn
  have hadded := shape.size_after_step hn
  have hrevisions : (0 :: [levelSetFrame].map (·.revision.toNat)).Pairwise (· < ·) := by decide
  obtain ⟨final, replayed, hstep, hreplay, hstate, hproblem⟩ :=
    @ChunkRun.varsProblem_of_no_room shape.table ⟨0, 0, 0⟩ ⟨0, 0, 0⟩ ⟨0, 1, fullState n⟩
      [levelSetFrame] 1 (levelState n) ⟨0, 0⟩ zeroStore (by decide) hbase (.write .refl hcommits)
      hrevisions rfl _ shape.isLayout_one (shape.narrowingFits _) (hover.trans_eq hadded.symm)
      (hadded.trans_lt hlt)
  exact ⟨hbase, hcommits, shape.narrowingFits _, final, replayed, hstep, hreplay, hstate, hproblem⟩

/-- A step with room for the notes. -/
theorem stepFits_levelState (hn : shape.count = 8 * n)
    (hroom : 72 * (8 * n) ≤ kVarMaxChunkBytesLimit) :
    StepFits shape.table.geometry 1 (levelState n) := by
  have hlayouts : ∀ source target, shape.table.geometry.layoutAt 1 = .ok source →
      shape.table.geometry.layoutAt (1 + 1) = .ok target →
      source = shape.cellsLayout ∧ target = shape.notedLayout := fun source target hs ht =>
    ⟨Except.ok.inj (hs.symm.trans shape.isLayout_one.layoutAt_eq),
      Except.ok.inj (ht.symm.trans shape.isLayout_two.layoutAt_eq)⟩
  constructor
  · intro source target hs ht
    obtain ⟨rfl, rfl⟩ := hlayouts source target hs ht
    exact shape.narrowingFits _
  · intro source target hs ht
    obtain ⟨rfl, rfl⟩ := hlayouts source target hs ht
    exact (shape.size_after_step hn).trans_le hroom

end CellsShape

/-- In a full chunk of 1024 × 1024 cells the notes of version 2 take 72 MiB. -/
theorem varsProblem_largeShape :
    largeShape.table.StateAt 1 (fullState 131072)
      ∧ Commits largeShape.table false 1 (fullState 131072) levelSetFrame (levelState 131072)
      ∧ NarrowingFits largeShape.cellsLayout largeShape.notedLayout (levelState 131072)
      ∧ ∃ final replayed,
        translateSteps largeShape.table.geometry 1 1 (levelState 131072) = .ok final
        ∧ replayWal (buildWalHeader ⟨0, 0⟩ zeroStore ⟨0, 0, 0⟩ ++ framesBytes [levelSetFrame])
            largeShape.table.geometry ⟨0, 0⟩ zeroStore ⟨0, 0, 0⟩ ⟨0, 1, fullState 131072⟩
          = .ok replayed
        ∧ replayed.state = final ∧ replayed.result.varsProblem ≠ "" :=
  largeShape.varsProblem_fullState rfl (by decide) (by decide)

/-- With eight cells there is room for the notes. -/
theorem replayWal_eightShape :
    ∃ final, translateSteps eightShape.table.geometry 1 1 (levelState 1) = .ok final
      ∧ (replayWal (buildWalHeader ⟨0, 0⟩ zeroStore ⟨0, 0, 0⟩ ++ framesBytes [levelSetFrame])
            eightShape.table.geometry ⟨0, 0⟩ zeroStore ⟨0, 0, 0⟩ ⟨0, 1, fullState 1⟩).map
          (fun replayed => (replayed.state, replayed.result.appliedFrames,
            replayed.result.varsProblem)) = .ok (final, 1, "") := by
  have hbase := eightShape.stateAt_fullState (show eightShape.count = 8 * 1 from rfl)
  have hcommits := eightShape.commits_fullState (show eightShape.count = 8 * 1 from rfl)
  have hfits := eightShape.stepFits_levelState (show eightShape.count = 8 * 1 from rfl) (by decide)
  obtain ⟨_, _, ⟨layout, hlayout, hvalid⟩, hsize⟩ := (hcommits.spec hbase).1
  obtain ⟨_, final, _, _, _, _, hstep⟩ :=
    Table.translateSteps_one Nat.one_pos (by decide) hlayout hvalid hsize hfits
  refine ⟨final, hstep, ?_⟩
  rw [ChunkRun.replayWal_eq ⟨0, 0⟩ zeroStore (show isSubsetOf ⟨0, 0, 0⟩ ⟨0, 0, 0⟩ = true by decide)
    hbase (.migrate (.write .refl hcommits) (by decide) hfits hstep) (by decide)]
  rfl

end ChunkDb
