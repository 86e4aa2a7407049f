/-
# Chunks after a change of columns

A chunk that is moved to the next schema version is written as an image and read again,
with what its WAL still holds replayed over it.  This goes well exactly when the values
the change adds leave the chunk within its 64 MiB (`translateChunk_readable_iff`).
-/
import ChunkDb.ChunkRun
import ChunkDb.ImageSpec

namespace ChunkDb

/-! ## The image of a changed chunk -/

/-- The image of a state is read back, and whatever the WAL of the chunk holds is replayed over
it without fault: frames from before the image, and those of any further writes. -/
structure Readable (table : Table) (features storeFeatures : FeatureFlags) (label : ImageLabel)
    (compression : CheckpointCompression) (state : ChunkState) : Prop where
  parses : ∃ bytes, serializeChunkImage table.geometry label state compression = .ok bytes
    ∧ parseChunkImage bytes table.geometry label.chunkCoord label.storeId storeFeatures
      = .ok ⟨⟨0, 0, 0⟩, label.revision.toNat, label.commitTimeMs.toNat, table.version, state⟩
  replays : ∀ old frames final,
    (∀ input ∈ old, input.Written table.geometry (slotsEnabled storeFeatures)) →
    (∀ input ∈ old, input.revision.toNat ≤ label.revision.toNat) →
    (0 :: (old ++ frames).map (·.revision.toNat)).Pairwise (· < ·) →
    (label.revision.toNat :: frames.map (·.revision.toNat)).Pairwise (· < ·) →
    ChunkRun table (slotsEnabled storeFeatures) table.version state frames table.version final →
    ∃ replayed, replayWal (buildWalHeader label.chunkCoord label.storeId features
          ++ framesBytes (old ++ frames)) table.geometry label.chunkCoord label.storeId storeFeatures
          ⟨label.revision.toNat, table.version, state⟩ = .ok replayed
      ∧ replayed.state = final ∧ replayed.result.varsProblem = ""

section Change

variable {table : Table} {version : ℕ} {state : ChunkState} {source : ChunkLayout}

/-- A chunk moved to the next schema version is readable exactly when there is room for the
values the change adds. -/
theorem translateChunk_readable_iff (hstate : table.StateAt version state)
    (hversion : version + 1 = table.version) (hsource : table.IsLayout version source)
    (hfits : NarrowingFits source table.geometry.layout state) (label : ImageLabel)
    (hrevision : label.revision ≠ 0) (compression : CheckpointCompression)
    {features storeFeatures : FeatureFlags} (hfeatures : isSubsetOf features storeFeatures = true) :
    (∃ after, translateChunk source table.geometry.layout state = .ok after
        ∧ Readable table features storeFeatures label compression after)
      ↔ state.vars.encodedSize + addedBytes source table.geometry.layout state.presence
        ≤ kVarMaxChunkBytesLimit := by
  obtain ⟨next, hnext, _, hroom, htranslate⟩ := hstate.translateChunk_current hversion hsource hfits
  have hlimit : kVarMaxChunkBytesLimit < 2 ^ 32 := by decide
  rw [← hroom]
  constructor
  · rintro ⟨after, hafter, hread⟩
    obtain ⟨bytes, hserialize, hparse⟩ := hread.parses
    rw [htranslate] at hafter
    split at hafter
    · rename_i hlt
      cases hafter
      exact encodedSize_le_of_parse hserialize hlt hparse
    · exact nomatch hafter
  · intro hsize
    rw [if_pos (hsize.trans_lt hlimit)] at htranslate
    obtain ⟨layout, hlayout⟩ := table.exists_layout (hversion ▸ version.succ_pos) le_rfl
    obtain rfl := hlayout.eq_current
    refine ⟨next, htranslate, parseChunkImage_serialize hnext hsize hrevision compression
      storeFeatures, ?_⟩
    intro old frames final holdWritten hold hincreasing hrevisions hrun
    have hbase : table.StateAt table.version next :=
      ⟨hversion ▸ version.succ_pos, le_rfl, ⟨_, hlayout, hnext⟩, hsize⟩
    have hstart : table.Starts ⟨next, table.version, label.revision.toNat, 0, 0, false, (0, 0)⟩
        table.version next := .image hbase
    obtain ⟨log, hlog, rfl, hfinal, rfl⟩ := hrun.exists_log hrevisions
    obtain ⟨earlier, count, replayed, hmoment, hcount, hsteps⟩ := hlog.last_moment
    have hreplay := hlog.replayWal_over label.chunkCoord label.storeId hfeatures hstart holdWritten
      hold hincreasing hmoment (hcount.trans hfinal)
    rw [hsteps] at hreplay
    exact ⟨_, hreplay, rfl, (ChunkVars.sizeProblem_eq_empty_iff _).mpr (hlog.stateAt hbase).size_le⟩

end Change

/-! ## Full chunks -/

/-- The image of chunk (0, 0) at revision 1. -/
def firstLabel : ImageLabel := ⟨⟨0, 0⟩, zeroStore, 1, 0⟩

theorem CellsShape.size_fullState (shape : CellsShape) {n : ℕ} (hn : shape.count = 8 * n) :
    (fullState n).vars.encodedSize
      + addedBytes shape.cellsLayout shape.table.geometry.layout (fullState n).presence
        = 72 * (8 * n) :=
  shape.size_after_step hn

/-- With eight cells there is room for the notes. -/
theorem readable_eightShape :
    ∃ after, translateChunk eightShape.cellsLayout eightShape.table.geometry.layout (fullState 1)
        = .ok after
      ∧ Readable eightShape.table ⟨0, 0, 0⟩ ⟨0, 0, 0⟩ firstLabel .zrle after := by
  have hcount : eightShape.count = 8 * 1 := rfl
  refine (translateChunk_readable_iff (eightShape.stateAt_fullState hcount) rfl
    eightShape.isLayout_one (eightShape.narrowingFits _) firstLabel (by decide) .zrle
    (by decide)).mpr ?_
  rw [eightShape.size_fullState hcount]
  decide

/-- Where the notes take more than a chunk may have, the image is not accepted. -/
theorem CellsShape.not_readable (shape : CellsShape) {n : ℕ} (hn : shape.count = 8 * n)
    (hover : kVarMaxChunkBytesLimit < 72 * (8 * n)) (hlt : 72 * (8 * n) < 2 ^ 32) :
    shape.table.StateAt 1 (fullState n)
      ∧ NarrowingFits shape.cellsLayout shape.table.geometry.layout (fullState n)
      ∧ ∃ after bytes,
        translateChunk shape.cellsLayout shape.table.geometry.layout (fullState n) = .ok after
        ∧ serializeChunkImage shape.table.geometry firstLabel after .none = .ok bytes
        ∧ ∀ image, parseChunkImage bytes shape.table.geometry ⟨0, 0⟩ zeroStore ⟨0, 0, 0⟩
          ≠ .ok image := by
  have hstate := shape.stateAt_fullState hn
  have hfits : NarrowingFits shape.cellsLayout shape.table.geometry.layout (fullState n) :=
    shape.narrowingFits _
  refine ⟨hstate, hfits, ?_⟩
  obtain ⟨next, hnext, hle, hroom, htranslate⟩ := hstate.translateChunk_current rfl
    shape.isLayout_one hfits
  rw [shape.size_fullState hn] at hle hroom
  have hsize : next.vars.encodedSize < 2 ^ 32 := hle.trans_lt hlt
  rw [if_pos hsize] at htranslate
  have hserialize : ∃ bytes,
      serializeChunkImage shape.table.geometry firstLabel next .none = .ok bytes := by
    have hpadded := hnext.presence_padded
    rw [shape.table.geometry.blockCount_eq] at hpadded
    rw [serializeChunkImage, require_of ⟨hnext.payload_length, hpadded.1⟩, ok_bind,
      require_of (by decide), ok_bind, imageSections, optionalSection, optionalSection]
    split <;> split <;> exact ⟨_, rfl⟩
  obtain ⟨bytes, hserialize⟩ := hserialize
  refine ⟨next, bytes, htranslate, hserialize, fun image hparse => ?_⟩
  have := hroom.mp (encodedSize_le_of_parse hserialize hsize hparse)
  omega

/-- In a full chunk of 1024 × 1024 cells the notes of version 2 take 72 MiB. -/
theorem not_readable_largeShape :
    largeShape.table.StateAt 1 (fullState 131072)
      ∧ NarrowingFits largeShape.cellsLayout largeShape.table.geometry.layout (fullState 131072)
      ∧ ∃ after bytes, translateChunk largeShape.cellsLayout largeShape.table.geometry.layout
          (fullState 131072) = .ok after
        ∧ serializeChunkImage largeShape.table.geometry firstLabel after .none = .ok bytes
        ∧ ∀ image, parseChunkImage bytes largeShape.table.geometry ⟨0, 0⟩ zeroStore ⟨0, 0, 0⟩
          ≠ .ok image :=
  largeShape.not_readable rfl (by decide) (by decide)

end ChunkDb
