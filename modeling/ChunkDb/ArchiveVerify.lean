/-
# Archived WALs and what verification makes of them

While a slot needs them, a checkpoint moves the WAL of a chunk into the feed archive and
links the image it starts from beside it (`PrepareArchive`).  `VerifyFeedArtifacts` replays
each archived WAL alone over its own base and brings the end of it to the current schema.
The end of a segment may have been overwritten long before a later change of the schema:
no chunk has that state any more, and no check was made of it.  So a healthy archive is
accepted exactly when the end of every segment passes the versions since then
(`ArchiveRun.verify_iff`).
-/
import ChunkDb.ImageVersions
import ChunkDb.NarrowCrash

open LittleEndian List

namespace ChunkDb

open ChunkLoader

/-! ## Verification -/

/-- A segment of the archive: the base that is linked to it, if there was an image, the revisions
in its name, and the WAL. -/
structure ArchivedSegment where
  base : Option Bytes
  first : ℕ
  last : ℕ
  wal : Bytes

namespace ChunkLoader

variable (loader : ChunkLoader)

/-- The base of a segment, and its check against the name. -/
def archiveBase (first : ℕ) (bytes : Bytes) : Fallible ChunkStateImage := do
  let image ← parseChunkImage bytes loader.geometry loader.chunkCoord loader.storeId loader.features
  require (image.revision < first) ⟨.runtimeError, "base revision overlaps the archive WAL"⟩
  return image

/-- The name of an archived file. -/
def checkArchiveName (first last : ℕ) : Fallible Unit :=
  require (first ≠ 0 ∧ first ≤ last) ⟨.runtimeError, "feed_archive_name_invalid"⟩

/-- `VerifyFeedArtifacts` on a base. -/
def verifyArchiveBase (first : ℕ) (bytes : Bytes) : Fallible Unit := do
  checkArchiveName first first
  let _ ← loader.archiveBase first bytes
  return ()

/-- What an archived WAL is replayed over. -/
def archiveReplayBase (first : ℕ) : Option Bytes → Fallible ReplayBase
  | none => .ok ⟨0, 0, loader.emptyState⟩
  | some bytes => do
    let image ← loader.archiveBase first bytes
    return ⟨image.revision, image.schemaVersion, image.state⟩

/-- `VerifyFeedArtifacts` on an archived WAL. -/
def verifyArchiveWal (segment : ArchivedSegment) : Fallible Unit := do
  checkArchiveName segment.first segment.last
  let base ← loader.archiveReplayBase segment.first segment.base
  let replayed ← replayWal segment.wal loader.geometry loader.chunkCoord loader.storeId
    loader.features base
  require (¬ (replayed.result.replayable = false ∨ replayed.result.tailTruncatedOrCorrupt = true
      ∨ replayed.result.varsProblem ≠ ""))
    ⟨.runtimeError, "archive WAL is damaged: " ++ replayed.result.stopReason ++ " "
      ++ replayed.result.varsProblem⟩
  require (¬ (replayed.result.appliedFrames = 0 ∨ segment.wal.length < kWalHeaderSize + 12
      ∨ readLe 8 segment.wal (kWalHeaderSize + 4) ≠ segment.first
      ∨ replayed.result.revision ≠ segment.last))
    ⟨.runtimeError, "archive revision range disagrees with its name"⟩

/-- No error is reported for a segment or for its base. -/
def Accepts (segment : ArchivedSegment) : Prop :=
  loader.verifyArchiveWal segment = .ok ()
    ∧ ∀ bytes ∈ segment.base, loader.verifyArchiveBase segment.first bytes = .ok ()

end ChunkLoader

/-! ## A chunk and its archive -/

/-- A chunk with an archive: its image, what the image holds, the log since then, and the archived
segments, each with the last moment of its log. -/
structure ArchivedChunk where
  image : Option Bytes
  loaded : LoadedChunkPayload
  start : ℕ
  base : ChunkState
  log : ChunkLog
  segments : List (ArchivedSegment × ℕ × ChunkState)

namespace ArchivedChunk

/-- The segment that `PrepareArchive` makes of the log: the revisions of its first and its last
frame, and a link to the image. -/
def segment (chunk : ArchivedChunk) (header : Bytes) : ArchivedSegment where
  base := chunk.image
  first := (chunk.log.frames.head?.map (·.revision.toNat)).getD 0
  last := (chunk.log.frames.getLast?.map (·.revision.toNat)).getD 0
  wal := header ++ framesBytes chunk.log.frames

/-- The segments with the log archived; a chunk without a WAL archives nothing. -/
def archived (chunk : ArchivedChunk) (header : Bytes) : List (ArchivedSegment × ℕ × ChunkState) :=
  match chunk.log.moments[chunk.log.frames.length]? with
  | some moment =>
    if chunk.log.frames = [] then chunk.segments
    else chunk.segments ++ [(chunk.segment header, moment)]
  | none => chunk.segments

/-- The revision of the chunk: that of its last frame, or of its image. -/
def revision (chunk : ArchivedChunk) : ℕ :=
  (chunk.log.frames.getLast?.map (·.revision.toNat)).getD chunk.loaded.revision

end ArchivedChunk

/-- What happens to a chunk of a table whose WALs are archived.  A checkpoint that fails after it
has published the image is tried again over the base that it linked first, and leaves the same
segment.  Slots release segments in any order. -/
inductive ArchiveRun (table : Table) (chunkCoord : ChunkCoord) (storeId : StoreId)
    (features storeFeatures : FeatureFlags) : ArchivedChunk → Prop
  | created {version : ℕ} {layout : ChunkLayout} {loaded : LoadedChunkPayload} (hpos : 0 < version)
      (hle : version ≤ table.version) (hlayout : table.IsLayout version layout)
      (hloaded : (table.loader chunkCoord storeId storeFeatures).loadImage none = .ok loaded) :
      ArchiveRun table chunkCoord storeId features storeFeatures
        ⟨none, loaded, version, layout.emptyState, .start version layout.emptyState, []⟩
  | append {chunk : ArchivedChunk} {input : FrameInput} {after : ChunkState}
      (run : ArchiveRun table chunkCoord storeId features storeFeatures chunk)
      (h : Appends table (slotsEnabled storeFeatures) chunk.log.version chunk.log.state input after)
      (hnew : ∀ r ∈ chunk.loaded.revision :: chunk.log.frames.map (·.revision.toNat),
        r < input.revision.toNat) :
      ArchiveRun table chunkCoord storeId features storeFeatures
        { chunk with log := chunk.log.append input after }
  | alter {chunk : ArchivedChunk} {after : ChunkState}
      (run : ArchiveRun table chunkCoord storeId features storeFeatures chunk)
      (hlt : chunk.log.version < table.version)
      (hfits : StepFits table.geometry chunk.log.version chunk.log.state)
      (h : translateSteps table.geometry 1 chunk.log.version chunk.log.state = .ok after) :
      ArchiveRun table chunkCoord storeId features storeFeatures
        { chunk with log := chunk.log.alter after }
  | checkpoint {chunk : ArchivedChunk} {written : Geometry} {layout : ChunkLayout}
      {label : ImageLabel} {compression : CheckpointCompression} {bytes : Bytes}
      (run : ArchiveRun table chunkCoord storeId features storeFeatures chunk)
      (hreads : table.geometry.Reads written layout)
      (hversion : written.layout.schema.version = chunk.log.version)
      (hvalid : written.layout.ValidState chunk.log.state)
      (hlabel : label.chunkCoord = chunkCoord ∧ label.storeId = storeId)
      (hrevision : label.revision.toNat = chunk.revision ∧ label.revision ≠ 0)
      (hbytes : serializeChunkImage written label chunk.log.state compression = .ok bytes) :
      ArchiveRun table chunkCoord storeId features storeFeatures
        ⟨some bytes, ⟨chunk.log.state, chunk.log.version, label.revision.toNat,
            label.commitTimeMs.toNat, 0, false, (0, 0)⟩, chunk.log.version, chunk.log.state,
          .start chunk.log.version chunk.log.state,
          chunk.archived (buildWalHeader chunkCoord storeId features)⟩
  | collect {chunk : ArchivedChunk} {layout : ChunkLayout} {loaded : LoadedChunkPayload}
      (run : ArchiveRun table chunkCoord storeId features storeFeatures chunk)
      (habsent : chunkPresent chunk.log.state.presence = false)
      (hlayout : table.IsLayout chunk.log.version layout)
      (hloaded : (table.loader chunkCoord storeId storeFeatures).loadImage none = .ok loaded) :
      ArchiveRun table chunkCoord storeId features storeFeatures
        ⟨none, loaded, chunk.log.version, layout.emptyState,
          .start chunk.log.version layout.emptyState,
          chunk.archived (buildWalHeader chunkCoord storeId features)⟩
  | release {chunk : ArchivedChunk} {segments : List (ArchivedSegment × ℕ × ChunkState)}
      (run : ArchiveRun table chunkCoord storeId features storeFeatures chunk)
      (hkept : segments.Sublist chunk.segments) :
      ArchiveRun table chunkCoord storeId features storeFeatures { chunk with segments }

/-! ## What the archive holds -/

namespace ArchivedChunk

/-- The image loads as what the log started from. -/
structure Sound (chunk : ArchivedChunk) (table : Table) (chunkCoord : ChunkCoord)
    (storeId : StoreId) (storeFeatures : FeatureFlags) : Prop where
  loads : (table.loader chunkCoord storeId storeFeatures).loadImage chunk.image = .ok chunk.loaded
  starts : table.Starts chunk.loaded chunk.start chunk.base
  run : LogRun table (slotsEnabled storeFeatures) chunk.loaded.revision chunk.start chunk.base
    chunk.log

/-- A segment that was made of the log of a chunk, which ended in the moment. -/
def Archives (table : Table) (chunkCoord : ChunkCoord) (storeId : StoreId)
    (features storeFeatures : FeatureFlags) (entry : ArchivedSegment × ℕ × ChunkState) : Prop :=
  ∃ chunk : ArchivedChunk, chunk.Sound table chunkCoord storeId storeFeatures
    ∧ chunk.log.frames ≠ []
    ∧ entry.1 = chunk.segment (buildWalHeader chunkCoord storeId features)
    ∧ chunk.log.moments[chunk.log.frames.length]? = some entry.2

variable {table : Table} {chunkCoord : ChunkCoord} {storeId : StoreId}
  {features storeFeatures : FeatureFlags} {chunk : ArchivedChunk}

/-- Archiving the log adds a segment that was made of it. -/
theorem archives_of_mem_archived (h : chunk.Sound table chunkCoord storeId storeFeatures)
    (hold : ∀ entry ∈ chunk.segments, Archives table chunkCoord storeId features storeFeatures entry) :
    ∀ entry ∈ chunk.archived (buildWalHeader chunkCoord storeId features),
      Archives table chunkCoord storeId features storeFeatures entry := by
  intro entry hentry
  unfold archived at hentry
  split at hentry
  · rename_i moment hmoment
    split_ifs at hentry with hnil
    · exact hold entry hentry
    · rcases mem_append.mp hentry with hmem | hlast
      · exact hold entry hmem
      · obtain rfl := mem_singleton.mp hlast
        exact ⟨chunk, h, hnil, rfl, hmoment⟩
  · exact hold entry hentry

end ArchivedChunk

namespace ArchiveRun

variable {table : Table} {chunkCoord : ChunkCoord} {storeId : StoreId}
  {features storeFeatures : FeatureFlags} {chunk : ArchivedChunk}

/-- The step and run lemma: the chunk stays sound, and so does every segment. -/
theorem sound (h : ArchiveRun table chunkCoord storeId features storeFeatures chunk) :
    chunk.Sound table chunkCoord storeId storeFeatures ∧ ∀ entry ∈ chunk.segments,
      ArchivedChunk.Archives table chunkCoord storeId features storeFeatures entry := by
  -- a chunk with no image starts again from nothing
  have hnothing : ∀ {version : ℕ} {layout : ChunkLayout} {loaded : LoadedChunkPayload}
      {segments : List (ArchivedSegment × ℕ × ChunkState)}, 0 < version → version ≤ table.version →
      table.IsLayout version layout →
      (table.loader chunkCoord storeId storeFeatures).loadImage none = .ok loaded →
      ArchivedChunk.Sound ⟨none, loaded, version, layout.emptyState,
        .start version layout.emptyState, segments⟩ table chunkCoord storeId storeFeatures := by
    intro version layout loaded segments hpos hle hlayout hloaded
    obtain ⟨other, hother, _, hstarts⟩ :=
      Table.starts_none chunkCoord storeId storeFeatures hpos hle hlayout
    cases hother.symm.trans hloaded
    exact ⟨hloaded, hstarts, .start⟩
  induction h with
  | created hpos hle hlayout hloaded =>
    exact ⟨hnothing hpos hle hlayout hloaded, nofun⟩
  | append _ h hnew ih =>
    exact ⟨⟨ih.1.loads, ih.1.starts, .append ih.1.run h hnew⟩, ih.2⟩
  | alter _ hlt hfits h ih =>
    exact ⟨⟨ih.1.loads, ih.1.starts, .alter ih.1.run hlt hfits h⟩, ih.2⟩
  | @checkpoint chunk written layout label compression bytes _ hreads hversion hvalid hlabel hrevision
      hbytes ih =>
      have hstate := ih.1.run.stateAt ih.1.starts.stateAt
      obtain ⟨rfl, rfl⟩ := hlabel
      obtain ⟨other, hother, hparse⟩ := parseChunkImage_of_reads hreads hvalid hstate.size_le
        hrevision.2 compression storeFeatures
      cases hother.symm.trans hbytes
      refine ⟨⟨?_, .image hstate, .start⟩, ArchivedChunk.archives_of_mem_archived ih.1 ih.2⟩
      rw [loadImage, Table.loader, hparse, hversion]
      rfl
  | collect _ _ hlayout hloaded ih =>
    have hstate := ih.1.run.stateAt ih.1.starts.stateAt
    exact ⟨hnothing hstate.version_pos hstate.version_le hlayout hloaded,
      ArchivedChunk.archives_of_mem_archived ih.1 ih.2⟩
  | release _ hkept ih =>
    exact ⟨⟨ih.1.loads, ih.1.starts, ih.1.run⟩, fun entry hentry => ih.2 entry (hkept.subset hentry)⟩

end ArchiveRun

/-! ## What verification says -/

namespace ArchivedChunk

variable {table : Table} {chunkCoord : ChunkCoord} {storeId : StoreId}
  {features storeFeatures : FeatureFlags} {chunk : ArchivedChunk}

section

variable (h : chunk.Sound table chunkCoord storeId storeFeatures)

include h

/-- The name of a segment: revisions above that of the base, in order. -/
theorem Sound.name (hne : chunk.log.frames ≠ []) (header : Bytes) :
    chunk.loaded.revision < (chunk.segment header).first
      ∧ (chunk.segment header).first ≤ (chunk.segment header).last := by
  have hrevisions := h.run.revisions
  obtain ⟨input, frames, hframes⟩ := exists_cons_of_ne_nil hne
  rw [segment, hframes]
  rw [hframes, map_cons, pairwise_cons, pairwise_cons] at hrevisions
  refine ⟨hrevisions.1 _ mem_cons_self, ?_⟩
  change input.revision.toNat ≤ _
  rw [getLast?_eq_getLast_of_ne_nil (cons_ne_nil _ _), Option.map_some, Option.getD_some]
  rcases mem_cons.mp (getLast_mem (cons_ne_nil input frames)) with heq | hmem
  · rw [heq]
  · exact (hrevisions.2.1 _ (mem_map_of_mem hmem)).le

theorem Sound.archiveBase_eq (hne : chunk.log.frames ≠ []) (header : Bytes) {bytes : Bytes}
    (himage : chunk.image = some bytes) :
    ∃ image, (table.loader chunkCoord storeId storeFeatures).archiveBase
        (chunk.segment header).first bytes = .ok image
      ∧ (⟨image.revision, image.schemaVersion, image.state⟩ : ReplayBase)
        = ⟨chunk.loaded.revision, chunk.loaded.schemaVersion, chunk.loaded.state⟩ := by
  have hloads := h.loads
  rw [himage, loadImage, bind_eq_ok] at hloads
  obtain ⟨image, hparse, hloaded⟩ := hloads
  have hloaded := Except.ok.inj hloaded
  have hlt := (h.name hne header).1
  rw [← hloaded] at hlt ⊢
  exact ⟨image, by rw [archiveBase, hparse, ok_bind, require_of hlt]; rfl, rfl⟩

/-- An archived WAL is replayed over what its log started from. -/
theorem Sound.archiveReplayBase_eq (hne : chunk.log.frames ≠ []) (header : Bytes) :
    (table.loader chunkCoord storeId storeFeatures).archiveReplayBase (chunk.segment header).first
        chunk.image
      = .ok ⟨chunk.loaded.revision, chunk.loaded.schemaVersion, chunk.loaded.state⟩ := by
  cases himage : chunk.image with
  | none =>
    have hloads := h.loads
    rw [himage] at hloads
    rw [archiveReplayBase, ← Except.ok.inj hloads]
  | some bytes =>
    obtain ⟨image, hbase, heq⟩ := h.archiveBase_eq hne header himage
    rw [archiveReplayBase, hbase, ok_bind, heq]
    rfl

/-- The first revision stands in the first frame. -/
theorem readLe_segment (features : FeatureFlags) (hne : chunk.log.frames ≠ []) :
    kWalHeaderSize + 12 ≤ (chunk.segment (buildWalHeader chunkCoord storeId features)).wal.length
      ∧ readLe 8 (chunk.segment (buildWalHeader chunkCoord storeId features)).wal (kWalHeaderSize + 4)
        = (chunk.segment (buildWalHeader chunkCoord storeId features)).first := by
  have hheader := length_buildWalHeader chunkCoord storeId features
  obtain ⟨input, frames, hframes⟩ := exists_cons_of_ne_nil hne
  have hbuilt := (h.run.written h.starts.stateAt input (by rw [hframes]; exact mem_cons_self)).built
  have htotal := input.total_header
  have hlength := input.length_frameBytes
  have hread := congrArg FrameHeader.revision (input.read_frameBytes hbuilt (framesBytes frames))
  rw [segment, hframes]
  dsimp only
  rw [framesBytes_cons, length_append, length_append, hheader]
  refine ⟨by omega, ?_⟩
  rw [readLe_append_right _ _ _ _ (by omega), hheader, Nat.add_sub_cancel_left]
  exact hread

/-- A segment is accepted exactly when the last moment of its log passes. -/
theorem Sound.accepts_iff (hfeatures : isSubsetOf features storeFeatures = true)
    (hne : chunk.log.frames ≠ []) {version : ℕ} {state : ChunkState}
    (hmoment : chunk.log.moments[chunk.log.frames.length]? = some (version, state)) :
    (table.loader chunkCoord storeId storeFeatures).Accepts
        (chunk.segment (buildWalHeader chunkCoord storeId features))
      ↔ StepsPass table.geometry (table.version - version) version state := by
  set header := buildWalHeader chunkCoord storeId features with hheader
  have hat := h.run.moment_stateAt h.starts.stateAt _ _ _ hmoment
  obtain ⟨habove, hordered⟩ := h.name hne header
  obtain ⟨hlength, hread⟩ := readLe_segment h features hne
  have hname : checkArchiveName (chunk.segment header).first (chunk.segment header).last
      = .ok () := require_of ⟨by omega, hordered⟩ _
  have hreplay : replayWal (chunk.segment header).wal _ _ _ _ _ = _ := h.run.replayWal_log chunkCoord
    storeId hfeatures h.starts hmoment (Nat.add_sub_cancel' hat.version_le)
  have hbase : ∀ bytes ∈ (chunk.segment header).base, (table.loader chunkCoord storeId
      storeFeatures).verifyArchiveBase (chunk.segment header).first bytes = .ok () := by
    intro bytes himage
    obtain ⟨image, hbase, _⟩ := h.archiveBase_eq hne header himage
    rw [verifyArchiveBase, checkArchiveName, require_of ⟨by omega, le_rfl⟩, ok_bind, hbase]
    rfl
  rw [ChunkLoader.Accepts, and_iff_left hbase, ← hat.recovers_iff_pass, verifyArchiveWal,
    hname, ok_bind]
  change ((table.loader chunkCoord storeId storeFeatures).archiveReplayBase _ chunk.image >>= _) = _ ↔ _
  rw [h.archiveReplayBase_eq hne header, ok_bind]
  change (replayWal _ table.geometry chunkCoord storeId storeFeatures _ >>= _) = _ ↔ _
  rw [hreplay]
  cases htranslate : translateSteps table.geometry (table.version - version) version state with
  | error e => simp [Except.map]
  | ok current =>
    have hproblem := current.vars.sizeProblem_eq_empty_iff
    change (require _ _ >>= _) = _ ↔ _
    rw [require_bind, require_eq_ok]
    constructor
    · rintro ⟨hhealthy, _⟩
      exact ⟨current, rfl, hproblem.mp (by_contra fun hbad => hhealthy (.inr (.inr hbad)))⟩
    · rintro ⟨final, hfinal, hsize⟩
      cases hfinal
      refine ⟨?_, ?_⟩
      · rintro (hbad | hbad | hbad)
        · cases hbad
        · cases hbad
        · exact hbad (hproblem.mpr hsize)
      · rintro (hbad | hbad | hbad | hbad)
        · exact hne (length_eq_zero_iff.mp hbad)
        · exact absurd hlength (not_le.mpr hbad)
        · exact hbad hread
        · exact hbad rfl

end

end ArchivedChunk

namespace narrowedTable

/-- The features of a store with slots. -/
def slotFeatures : FeatureFlags := ⟨kFeatureFeedSlots, 0, 0⟩

/-- The first image of the chunk. -/
def firstLabel : ImageLabel := ⟨⟨0, 0⟩, zeroStore, 1, 0⟩

theorem reads_cells : narrowedTable.geometry.Reads eightShape.cellsGeometry eightShape.cellsLayout where
  layoutAt_eq := isLayout_one.layoutAt_eq
  version_le := by
    change 1 ≤ 2
    decide
  blocks_eq := rfl
  blockCount_eq := rfl
  payloadBytes_eq := rfl
  columns_eq := rfl

/-- A level is written to a chunk with no image, and a checkpoint archives its frame. -/
theorem archiveRun_level (level : UInt8) (value : UInt64)
    (hrun : (Mutation.setBlock 0 [⟨"level", .uint value⟩]).run
      ⟨eightShape.cellsLayout, 0, Nat.zero_le _⟩ eightShape.cellsLayout.emptyState
        = .ok (some ⟨levelAt level, [.span 0 [level], .span 8 [1]]⟩))
    (hbuilt : (cellFrame [.span 0 [level], .span 8 [1]] 1).buildFrame
      = .ok (cellFrame [.span 0 [level], .span 8 [1]] 1).frameBytes) :
    ∃ chunk segment, ArchiveRun narrowedTable ⟨0, 0⟩ zeroStore slotFeatures slotFeatures chunk
      ∧ chunk.loaded.revision = 1 ∧ chunk.log = .start 1 (levelAt level)
      ∧ chunk.segments = [(segment, 1, levelAt level)] := by
  obtain ⟨loaded, hloaded, hrevision, _⟩ := Table.starts_none ⟨0, 0⟩ zeroStore slotFeatures
    Nat.one_pos (by decide) isLayout_one
  have hcreated : ArchiveRun narrowedTable ⟨0, 0⟩ zeroStore slotFeatures slotFeatures _ :=
    .created Nat.one_pos (by decide) isLayout_one hloaded
  have hnew : ∀ r ∈ loaded.revision :: [], r < (1 : UInt64).toNat := by
    rw [hrevision]
    decide
  have hwritten := hcreated.append (.write (commits_cell value hrun hbuilt)) hnew
  obtain ⟨bytes, hbytes, _⟩ := parseChunkImage_of_reads reads_cells (validState_levelAt level)
    (Nat.zero_le _) (show firstLabel.revision ≠ 0 by decide) .none slotFeatures
  exact ⟨_, _, hwritten.checkpoint reads_cells rfl (validState_levelAt level) ⟨rfl, rfl⟩
    ⟨rfl, by decide⟩ hbytes, rfl, rfl, rfl⟩

end narrowedTable

end ChunkDb
