/-
# A chunk that a read-only store loads again

`RefreshReadOnlyChunk` and `GetOrLoadRegularChunk` (`chunk_cache.cpp`) build a chunk from
the same load, but they tell a written chunk from an absent one by different fields of
it.  `ChunkLoader.refresh_eq_load_iff` says for which files the two agree.
-/
import ChunkDb.ChunkLoad

namespace ChunkDb

/-! ## What a load knows of the revision -/

namespace Replayer

variable {replayer : Replayer}

theorem applyAccepted_applied {frame applied : ParsedFrame} {state next : ReplayState}
    (h : replayer.applyAccepted frame state = .ok (.applied applied next)) : applied = frame := by
  unfold applyAccepted at h
  split at h
  · cases h
  · simp only [bind_eq_ok] at h
    obtain ⟨moved, _, refused, _, h⟩ := h
    split at h
    · cases h
    · obtain ⟨final, _, h⟩ := bind_eq_ok.mp h
      cases h
      rfl

/-- A frame is applied only if its revision is above the one before. -/
theorem replayFrame_applied {previousRevision : ℕ} {state next : ReplayState} {rest : Bytes}
    {frame : ParsedFrame}
    (h : replayer.replayFrame previousRevision state rest = .ok (.applied frame next)) :
    previousRevision < frame.revision := by
  unfold replayFrame at h
  obtain ⟨parsed, _, h⟩ := bind_eq_ok.mp h
  cases parsed with
  | error stop => cases h
  | ok found =>
    dsimp only at h
    split at h
    · cases h
    · rename_i horder
      split at h
      · cases h
      · rw [applyAccepted_applied h]
        omega

/-- What a stop, a skipped and an applied frame keep holds at the end of the loop. -/
theorem replayLoop_keeps {I : ReplayProgress → Prop} {fuel : ℕ} {progress final : ReplayProgress}
    {rest : Bytes} (h : replayer.replayLoop fuel progress rest = .ok final) (hstart : I progress)
    (hstop : ∀ p reason crashTail, I p → I (p.stop reason crashTail))
    (hskip : ∀ p frame, I p → I (p.skip frame))
    (happly : ∀ (p : ReplayProgress) frame state, I p → p.previousRevision < frame.revision →
      I (p.apply frame state)) : I final := by
  induction fuel generalizing progress rest with
  | zero =>
    cases h
    exact hstart
  | succ fuel ih =>
    rw [replayLoop] at h
    split at h
    · cases h
      exact hstart
    · obtain ⟨outcome, houtcome, h⟩ := bind_eq_ok.mp h
      cases outcome with
      | stopped reason crashTail =>
        cases h
        exact hstop progress reason crashTail hstart
      | skipped frame => exact ih h (hskip progress frame hstart)
      | applied frame state =>
        exact ih h (happly progress frame state hstart (replayFrame_applied houtcome))

end Replayer

/-- Replay that applied a frame has its revision, and an interrupted creation holds no frame. -/
theorem replayWal_applied {wal : Bytes} {geometry : Geometry} {chunkCoord : ChunkCoord}
    {storeId : StoreId} {features : FeatureFlags} {base : ReplayBase} {replayed : Replayed}
    (h : replayWal wal geometry chunkCoord storeId features base = .ok replayed)
    (happlied : replayed.result.appliedFrames ≠ 0) :
    replayed.result.revision ≠ 0 ∧ replayed.result.tornCreation = false := by
  unfold replayWal at h
  split at h
  · unfold replayWithoutHeader at h
    obtain ⟨state, _, h⟩ := bind_eq_ok.mp h
    split at h <;>
    · cases h
      exact absurd rfl happlied
  · simp only [bind_eq_ok, Replayer.finish] at h
    obtain ⟨state, _, progress, hloop, current, _, h⟩ := h
    cases h
    have hkeeps := Replayer.replayLoop_keeps
      (I := fun p => (p.result.appliedFrames ≠ 0 → p.result.revision ≠ 0)
        ∧ p.result.tornCreation = false) hloop ⟨fun hne => absurd rfl hne, rfl⟩
      (fun p _ _ hp => hp) (fun p _ hp => hp)
      (fun p frame _ hp hlt => ⟨fun _ => (Nat.zero_lt_of_lt hlt).ne', hp.2⟩)
    exact ⟨hkeeps.1 happlied, hkeeps.2⟩

/-- An image has a revision. -/
theorem parseChunkImage_revision_ne_zero {bytes : Bytes} {geometry : Geometry}
    {chunkCoord : ChunkCoord} {storeId : StoreId} {features : FeatureFlags} {image : ChunkStateImage}
    (h : parseChunkImage bytes geometry chunkCoord storeId features = .ok image) :
    image.revision ≠ 0 := by
  unfold parseChunkImage checkImageHeader at h
  simp only [↓check_bind_eq_ok, require_eq_ok] at h
  obtain ⟨⟨_, _, _, _, _, _, _, _, _, hrevision⟩, h⟩ := h
  obtain ⟨schemaVersion, _, h⟩ := bind_eq_ok.mp h
  obtain ⟨_, h⟩ := check_bind_eq_ok.mp h
  simp only [bind_eq_ok] at h
  obtain ⟨layout, _, sections, _, _, _, h⟩ := h
  split at h
  · obtain ⟨vars, _, h⟩ := bind_eq_ok.mp h
    cases h
    exact hrevision
  · cases h

namespace ChunkLoader

variable {loader : ChunkLoader}

theorem loadImage_eq_ok {image : Option Bytes} {loaded : LoadedChunkPayload}
    (h : loader.loadImage image = .ok loaded) :
    loaded.walHeaderWritten = false
      ∧ (image = none ∧ loaded = { state := loader.emptyState } ∨ image ≠ none ∧ loaded.revision ≠ 0) := by
  cases image with
  | none =>
    cases h
    exact ⟨rfl, .inl ⟨rfl, rfl⟩⟩
  | some bytes =>
    rw [loadImage, bind_eq_ok] at h
    obtain ⟨parsed, hparsed, h⟩ := h
    cases h
    exact ⟨rfl, .inr ⟨Option.some_ne_none bytes, parseChunkImage_revision_ne_zero hparsed⟩⟩

/-- What the read-only load does with the bytes to replay. -/
theorem replayReadOnly_eq_ok {loaded final : LoadedChunkPayload} {limit : ReplayLimit}
    {bytes : Bytes} (h : loader.replayReadOnly loaded limit bytes = .ok final) :
    bytes = [] ∧ final = loaded
      ∨ bytes ≠ [] ∧ ∃ replayed, loader.replayOver loaded bytes = .ok replayed
        ∧ final = (loader.replayedPayload loaded replayed).withReplay replayed.result := by
  unfold replayReadOnly at h
  split at h
  · rename_i hnil
    exact .inl ⟨hnil, (Except.ok.inj h).symm⟩
  · rename_i hne
    refine .inr ⟨hne, ?_⟩
    obtain ⟨replayed, hreplayed, h⟩ := bind_eq_ok.mp h
    refine ⟨replayed, hreplayed, ?_⟩
    dsimp only at h
    split at h
    · rename_i htorn
      have hnone : ¬ replayed.result.appliedFrames > 0 := by
        intro happlied
        rw [(replayWal_applied hreplayed happlied.ne').2] at htorn
        cases htorn
      rw [LoadedChunkPayload.withReplay, if_neg hnone]
      exact (Except.ok.inj h).symm
    · simp only [↓check_bind_eq_ok] at h
      exact (Except.ok.inj h.2.2).symm

/-- The files leave bytes of a WAL to replay, but neither an image nor a frame to apply. -/
def ReplaysNothing (loader : ChunkLoader) (snapshot : ChunkDiskSnapshot) : Prop :=
  snapshot.image = none ∧ ∃ limit bytes replayed,
    snapshot.replayLimit loader.chunkCoord = .ok limit
      ∧ snapshot.replayBytes loader.chunkCoord limit = .ok bytes ∧ bytes ≠ []
      ∧ loader.replayOver { state := loader.emptyState } bytes = .ok replayed
      ∧ replayed.result.appliedFrames = 0

/-- A load gives a schema version without a revision for such files only. -/
theorem loadReadOnly_eq_ok {snapshot : ChunkDiskSnapshot} {loaded : LoadedChunkPayload}
    (h : loader.loadReadOnly snapshot = .ok loaded)
    (hversion : loader.geometry.layout.schema.version ≠ 0) :
    loaded.walHeaderWritten = false ∧ loaded.readOnlyGeneration = snapshot.generation
      ∧ (loaded.revision = 0 ∧ loaded.schemaVersion ≠ 0 ↔ loader.ReplaysNothing snapshot)
      ∧ (loader.ReplaysNothing snapshot →
        loaded.schemaVersion = loader.geometry.layout.schema.version) := by
  simp only [loadReadOnly, bind_eq_ok] at h
  obtain ⟨image, himage, limit, hlimit, bytes, hbytes, h⟩ := h
  obtain ⟨hheader, himage⟩ := loadImage_eq_ok himage
  have hfields : loaded.walHeaderWritten = false
      ∧ loaded.readOnlyGeneration = snapshot.generation := by
    rcases replayReadOnly_eq_ok h with ⟨_, rfl⟩ | ⟨_, replayed, _, rfl⟩
    · exact ⟨hheader, rfl⟩
    · unfold LoadedChunkPayload.withReplay
      split <;> exact ⟨hheader, rfl⟩
  refine ⟨hfields.1, hfields.2, ?_⟩
  rcases himage with ⟨hnone, rfl⟩ | ⟨hsome, hrevision⟩
  · have hnothing : loader.ReplaysNothing snapshot → loaded.revision = 0
        ∧ loaded.schemaVersion = loader.geometry.layout.schema.version := by
      rintro ⟨_, limit', bytes', replayed', hlimit', hbytes', hne, hreplayed', happlied⟩
      rw [hlimit] at hlimit'
      cases hlimit'
      rw [hbytes] at hbytes'
      cases hbytes'
      rcases replayReadOnly_eq_ok h with ⟨hnil, _⟩ | ⟨_, replayed, hreplayed, rfl⟩
      · exact absurd hnil hne
      · have hsame : replayed = replayed' := Except.ok.inj (hreplayed.symm.trans hreplayed')
        rw [hsame, LoadedChunkPayload.withReplay, if_neg (by omega)]
        exact ⟨rfl, rfl⟩
    refine ⟨⟨?_, fun hr => ⟨(hnothing hr).1, (hnothing hr).2 ▸ hversion⟩⟩, fun hr => (hnothing hr).2⟩
    · rintro ⟨hzero, hschema⟩
      refine ⟨hnone, limit, bytes, ?_⟩
      rcases replayReadOnly_eq_ok h with ⟨_, rfl⟩ | ⟨hne, replayed, hreplayed, rfl⟩
      · exact absurd rfl hschema
      · refine ⟨replayed, hlimit, hbytes, hne, hreplayed, ?_⟩
        by_contra happlied
        rw [LoadedChunkPayload.withReplay, if_pos (Nat.pos_of_ne_zero happlied)] at hzero
        exact (replayWal_applied hreplayed happlied).1 hzero
  · -- an image has a revision, and so has every frame applied after it
    refine ⟨iff_of_false ?_ fun hnothing => hsome hnothing.1, fun hnothing => absurd hnothing.1 hsome⟩
    rintro ⟨hzero, _⟩
    rcases replayReadOnly_eq_ok h with ⟨_, rfl⟩ | ⟨_, replayed, hreplayed, rfl⟩
    · exact hrevision hzero
    · unfold LoadedChunkPayload.withReplay at hzero
      split at hzero
      · rename_i happlied
        exact (replayWal_applied hreplayed happlied.ne').1 hzero
      · exact hrevision hzero

end ChunkLoader

/-! ## Refreshing and loading -/

/-- What a read of a chunk sees of it. -/
def RegularChunk.served (chunk : RegularChunk) : ChunkState × Bool := (chunk.state, chunk.written)

/-- The loader of a chunk of a table. -/
def Table.loader (table : Table) (chunkCoord : ChunkCoord) (storeId : StoreId)
    (features : FeatureFlags) : ChunkLoader :=
  ⟨table.geometry, chunkCoord, storeId, features⟩

/-- The chunk at the origin of a table of cells. -/
def cellsLoader : ChunkLoader := smallShape.table.loader ⟨0, 0⟩ (.ofByte 7) ⟨0, 0, 0⟩

/-- What the files of a chunk hold at a later generation of the writer's session. -/
def laterSnapshot (wal : Option Bytes) : ChunkDiskSnapshot := ⟨none, wal, none, [], (1, 0xC0000)⟩

/-- The chunk as it was cached at an earlier generation, before anything was written to it. -/
def cachedChunk : RegularChunk := ⟨cellsLoader.emptyState, 4, false, 0, 0, false, (1, 0x80000)⟩

end ChunkDb
