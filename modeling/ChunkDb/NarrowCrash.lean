/-
# Narrowings and what a power failure brings back

A narrowing is checked against the values a chunk has in memory, but a power failure can
bring back any moment of the chunk since its WAL was last synced.  `RewriteManifest` syncs
the new manifest, and hands the WALs to the system without a sync
(`FlushWalBatchesForReopen`): in the synced modes every write is synced before it returns,
but in relaxed mode a chunk whose values fit may come back with one that does not, and is
then refused by the exact conversion the new version has recorded.

A chunk survives every cut of its WAL exactly when all the moments that the cuts leave pass
the versions since then (`PowerRun.recovers_iff`).
-/
import ChunkDb.ChunkLog
import ChunkDb.PayloadBits

open List

namespace ChunkDb

/-! ## Logs and power failures -/

/-- The log of a chunk and how much of its file is synced: nothing, not even its name, or the
header and a number of frames. -/
structure PowerLog extends ChunkLog where
  synced : Option ℕ

namespace PowerLog

/-- No write is without its sync. -/
def AllSynced (log : PowerLog) : Prop := log.frames = [] ∨ log.synced = some log.frames.length

/-- The bytes of the file that a power failure cannot take. -/
def syncedBytes (log : PowerLog) : ℕ :=
  match log.synced with
  | none => 0
  | some k => kWalHeaderSize + (framesBytes (log.frames.take k)).length

/-- What a power failure may leave of the file: any part of what was appended since the last sync
is gone. -/
def Leaves (log : PowerLog) (header : Bytes) (wal : Option Bytes) : Prop :=
  log.synced = none ∧ wal = none
    ∨ ∃ n, log.syncedBytes ≤ n ∧ n ≤ kWalHeaderSize + (framesBytes log.frames).length
      ∧ wal = some ((header ++ framesBytes log.frames).take n)

end PowerLog

/-- What happens to a chunk in a durability mode.  The synced modes sync a write before it returns,
and so before the next write and before a narrowing; in relaxed mode a sync comes at any time, or
never.  `narrow` is `NarrowColumn`, which has found the values in memory to fit. -/
inductive PowerRun (table : Table) (slotsEnabled : Bool) (mode : DurabilityMode)
    (revision start : ℕ) (base : ChunkState) : PowerLog → Prop
  | start : PowerRun table slotsEnabled mode revision start base ⟨.start start base, none⟩
  | write {log : PowerLog} {input : FrameInput} {after : ChunkState}
      (run : PowerRun table slotsEnabled mode revision start base log)
      (hsynced : mode ≠ .relaxed → log.AllSynced)
      (h : Commits table slotsEnabled log.version log.state input after)
      (hnew : ∀ r ∈ revision :: log.frames.map (·.revision.toNat), r < input.revision.toNat) :
      PowerRun table slotsEnabled mode revision start base
        ⟨log.toChunkLog.append input after, log.synced⟩
  | sync {log : PowerLog} (run : PowerRun table slotsEnabled mode revision start base log) :
      PowerRun table slotsEnabled mode revision start base ⟨log.toChunkLog, some log.frames.length⟩
  | narrow {log : PowerLog} {after : ChunkState}
      (run : PowerRun table slotsEnabled mode revision start base log)
      (hsynced : mode ≠ .relaxed → log.AllSynced) (hlt : log.version < table.version)
      (hfits : StepFits table.geometry log.version log.state)
      (h : translateSteps table.geometry 1 log.version log.state = .ok after) :
      PowerRun table slotsEnabled mode revision start base ⟨log.toChunkLog.alter after, log.synced⟩

namespace PowerRun

variable {table : Table} {slotsEnabled : Bool} {mode : DurabilityMode} {revision start : ℕ}
  {base : ChunkState} {log : PowerLog}

theorem logRun (h : PowerRun table slotsEnabled mode revision start base log) :
    LogRun table slotsEnabled revision start base log.toChunkLog := by
  induction h with
  | start => exact .start
  | write _ _ h hnew ih => exact .append ih (.write h) hnew
  | sync _ ih => exact ih
  | narrow _ _ hlt hfits h ih => exact .alter ih hlt hfits h

theorem synced_le (h : PowerRun table slotsEnabled mode revision start base log) :
    log.synced.getD 0 ≤ log.frames.length := by
  induction h with
  | start => exact le_rfl
  | write _ _ _ _ ih => exact ih.trans (by simp [ChunkLog.append])
  | sync _ _ => exact le_rfl
  | narrow _ _ _ _ _ ih => exact ih

/-- In the synced modes, whatever a power failure can bring back passes: what is not synced at a
narrowing is the state that the narrowing has checked. -/
theorem passes (h : PowerRun table slotsEnabled mode revision start base log)
    (hmode : mode ≠ .relaxed) (hbase : table.StateAt start base) :
    ∀ m ≥ log.synced.getD 0, ∀ version state, log.moments[m]? = some (version, state) →
      ∃ count, version + count = log.version ∧ StepsPass table.geometry count version state := by
  induction h with
  | start =>
    intro m _ version state hm
    cases m with
    | zero =>
      obtain ⟨rfl, rfl⟩ := Prod.mk.inj (Option.some.inj hm)
      exact ⟨0, rfl, hbase.size_le⟩
    | succ m => cases hm
  | @write log input after run _ hwrite hnew ih =>
    intro m hsynced version state hm
    dsimp only [ChunkLog.append] at hm
    by_cases hold : m < log.moments.length
    · rw [getElem?_append_left hold] at hm
      exact ih m hsynced version state hm
    · rw [getElem?_append_right (not_lt.mp hold)] at hm
      obtain ⟨hindex, hlast⟩ := List.getElem?_eq_some_iff.mp hm
      simp only [getElem_singleton, Prod.mk.injEq] at hlast
      obtain ⟨rfl, rfl⟩ := hlast
      exact ⟨0, rfl, (hwrite.spec (run.logRun.stateAt hbase)).1.size_le⟩
  | sync run ih => exact fun m hm => ih m (run.synced_le.trans hm)
  | @narrow log after run hall hlt hfits hstep ih =>
    intro m hsynced version state hm
    have hlogged := run.logRun
    have hstate := hlogged.stateAt hbase
    -- the only moment that is left is the last one
    have hlast : m = log.frames.length := by
      obtain ⟨hindex, _⟩ := List.getElem?_eq_some_iff.mp hm
      change m < log.moments.length at hindex
      rw [hlogged.length_moments] at hindex
      rcases hall hmode with hnil | hsome
      · rw [hnil, length_nil] at hindex ⊢
        omega
      · change m ≥ log.synced.getD 0 at hsynced
        rw [hsome] at hsynced
        exact le_antisymm (Nat.le_of_lt_succ hindex) hsynced
    obtain ⟨count, hversion, hpass⟩ := ih m hsynced version state hm
    obtain ⟨_, count', _, hmoment, hcount, hsteps⟩ := hlogged.last_moment
    rw [← hlast] at hmoment
    obtain ⟨rfl, rfl⟩ := Prod.mk.inj (Option.some.inj (hmoment.symm.trans hm))
    obtain rfl : count' = count := by omega
    refine ⟨count' + 1, by rw [← Nat.add_assoc, hversion]; rfl, ?_⟩
    refine hpass.succ hsteps (hversion.symm ▸ hfits) fun next hnext => ?_
    rw [hversion] at hnext
    exact (hstate.translateSteps_one hlt hfits hnext).size_le

end PowerRun

/-! ## What comes back -/

theorem length_framesBytes_take_le (frames : List FrameInput) {k m : ℕ} (h : k ≤ m) :
    (framesBytes (frames.take k)).length ≤ (framesBytes (frames.take m)).length := by
  obtain ⟨rest, hrest⟩ : frames.take k <+: frames.take m := take_prefix_take_left h
  rw [← hrest, framesBytes, framesBytes, flatMap_append, length_append]
  exact Nat.le_add_right _ _

/-- A state that the table had passes exactly when it can be brought to the current version. -/
theorem Table.StateAt.recovers_iff_pass {table : Table} {version : ℕ} {state : ChunkState}
    (h : table.StateAt version state) :
    (∃ final, translateSteps table.geometry (table.version - version) version state = .ok final
        ∧ final.vars.encodedSize ≤ kVarMaxChunkBytesLimit)
      ↔ StepsPass table.geometry (table.version - version) version state := by
  obtain ⟨layout, hlayout, hvalid⟩ := h.valid
  exact Table.translateSteps_iff_pass h.version_pos (Nat.add_sub_cancel' h.version_le).le
    hlayout hvalid (h.size_le.trans_lt (by decide))

/-- The chunk loads, as a moment it had, brought to the current version. -/
def Table.Recovers (table : Table) (loader : ChunkLoader) (moments : List (ℕ × ChunkState))
    (image wal : Option Bytes) : Prop :=
  ∃ version state final, (version, state) ∈ moments
    ∧ translateSteps table.geometry (table.version - version) version state = .ok final
    ∧ loader.openState image wal = .ok final

namespace PowerRun

variable {table : Table} {mode : DurabilityMode} {features storeFeatures : FeatureFlags}
  {loaded : LoadedChunkPayload} {start : ℕ} {base : ChunkState} {log : PowerLog}
  {image : Option Bytes}

section

variable (chunkCoord : ChunkCoord) (storeId : StoreId)
  (hfeatures : isSubsetOf features storeFeatures = true)
  (himage : (table.loader chunkCoord storeId storeFeatures).loadImage image = .ok loaded)
  (hstart : table.Starts loaded start base)
  (hrun : PowerRun table (slotsEnabled storeFeatures) mode loaded.revision start base log)

include hfeatures himage hstart hrun

/-- A moment that is not synced comes back when the file is cut at the end of its frame. -/
theorem pass_of_recovers
    (hall : ∀ wal, log.Leaves (buildWalHeader chunkCoord storeId features) wal →
      table.Recovers (table.loader chunkCoord storeId storeFeatures) log.moments image wal)
    {m version : ℕ} {state : ChunkState} (hm : log.synced.getD 0 ≤ m)
    (hstate : log.moments[m]? = some (version, state)) :
    StepsPass table.geometry (table.version - version) version state := by
  have hlogged := hrun.logRun
  have hat := hlogged.moment_stateAt hstart.stateAt m version state hstate
  obtain ⟨hlength, _⟩ := List.getElem?_eq_some_iff.mp hstate
  rw [hlogged.length_moments] at hlength
  have hle := Nat.le_of_lt_succ hlength
  have hhigh := length_framesBytes_take_le log.frames hle
  rw [take_length] at hhigh
  set n := kWalHeaderSize + (framesBytes (log.frames.take m)).length with hn
  have hlow : log.syncedBytes ≤ n := by
    unfold PowerLog.syncedBytes
    cases hsynced : log.synced with
    | none => exact Nat.zero_le _
    | some k =>
      rw [hsynced] at hm
      exact Nat.add_le_add_left (length_framesBytes_take_le log.frames hm) _
  have hmoment : log.moments[(framesWithin (n - kWalHeaderSize) log.frames).length]?
      = some (version, state) := by
    rw [hn, Nat.add_sub_cancel_left, framesWithin_framesBytes, length_take_of_le hle]
    exact hstate
  obtain ⟨_, _, final, _, _, hopen⟩ := hall _ (.inr ⟨n, hlow, by omega, rfl⟩)
  rw [hlogged.openState_cut chunkCoord storeId hfeatures hstart himage (by omega) (by omega) hmoment
    (Nat.add_sub_cancel' hat.version_le)] at hopen
  exact hat.recovers_iff_pass.mp ⟨final, hopen⟩

/-- Whatever is left of the file has the synced frames, so it ends in a moment that passes. -/
theorem recovers_of_pass
    (hall : ∀ m ≥ log.synced.getD 0, ∀ version state, log.moments[m]? = some (version, state) →
      StepsPass table.geometry (table.version - version) version state) {wal : Option Bytes}
    (hleaves : log.Leaves (buildWalHeader chunkCoord storeId features) wal) :
    table.Recovers (table.loader chunkCoord storeId storeFeatures) log.moments image wal := by
  have hlogged := hrun.logRun
  have hfirst := hlogged.first_moment
  have hbase := Nat.add_sub_cancel' hstart.stateAt.version_le
  -- with no frame left the chunk is as it started
  have hbegin : log.synced = none → ∃ final,
      translateSteps table.geometry (table.version - start) start base = .ok final := by
    intro hnone
    have hpass := hall 0 (by rw [hnone]; exact le_rfl) start base hfirst
    obtain ⟨final, hfinal, _⟩ := hstart.stateAt.recovers_iff_pass.mpr hpass
    exact ⟨final, hfinal⟩
  rcases hleaves with ⟨hnone, rfl⟩ | ⟨n, hlow, hhigh, rfl⟩
  · obtain ⟨final, hfinal⟩ := hbegin hnone
    refine ⟨start, base, final, mem_of_getElem? hfirst, hfinal, ?_⟩
    rw [ChunkLoader.openState, ChunkLoader.loadWriter, himage, ok_bind]
    change bringToCurrentSchema table.geometry _ _ = _
    rw [hstart.bringToCurrentSchema_eq hbase, hfinal]
  · by_cases hheader : n < kWalHeaderSize
    · have hnone : log.synced = none := by
        unfold PowerLog.syncedBytes at hlow
        cases hsynced : log.synced with
        | none => rfl
        | some k =>
          rw [hsynced] at hlow
          dsimp only at hlow
          omega
      obtain ⟨final, hfinal⟩ := hbegin hnone
      refine ⟨start, base, final, mem_of_getElem? hfirst, hfinal, ?_⟩
      rw [LogRun.openState_header chunkCoord storeId himage hstart hbase _ hheader, hfinal]
    · obtain ⟨hstarts, -⟩ := take_framesBytes (n - kWalHeaderSize) log.frames
        (fun input hinput => (hlogged.written hstart.stateAt input hinput).built) (by omega)
      have hinside : log.synced.getD 0 ≤ (framesWithin (n - kWalHeaderSize) log.frames).length := by
        refine le_length_framesWithin hrun.synced_le ?_
        unfold PowerLog.syncedBytes at hlow
        cases hsynced : log.synced with
        | none => exact Nat.zero_le _
        | some k =>
          rw [hsynced] at hlow
          dsimp only [Option.getD_some] at hlow ⊢
          omega
      have hindex : (framesWithin (n - kWalHeaderSize) log.frames).length < log.moments.length := by
        rw [hlogged.length_moments]
        exact Nat.lt_succ_of_le hstarts.length_le
      obtain ⟨version, state, hmoment⟩ : ∃ version state, log.moments[(framesWithin
          (n - kWalHeaderSize) log.frames).length]? = some (version, state) :=
        ⟨_, _, List.getElem?_eq_some_iff.mpr ⟨hindex, rfl⟩⟩
      have hat := hlogged.moment_stateAt hstart.stateAt _ _ _ hmoment
      obtain ⟨final, hfinal, hsize⟩ := hat.recovers_iff_pass.mpr (hall _ hinside _ _ hmoment)
      refine ⟨version, state, final, mem_of_getElem? hmoment, hfinal, ?_⟩
      exact (hlogged.openState_cut chunkCoord storeId hfeatures hstart himage (not_lt.mp hheader)
        hhigh hmoment (Nat.add_sub_cancel' hat.version_le) final).mpr ⟨hfinal, hsize⟩

/-- A chunk comes back from every power failure exactly when each moment that is not synced passes
the versions since it was written; in the synced modes it always does. -/
theorem recovers_iff (hcurrent : log.version = table.version) :
    ((∀ wal, log.Leaves (buildWalHeader chunkCoord storeId features) wal →
        table.Recovers (table.loader chunkCoord storeId storeFeatures) log.moments image wal)
      ↔ ∀ m ≥ log.synced.getD 0, ∀ version state, log.moments[m]? = some (version, state) →
          StepsPass table.geometry (table.version - version) version state)
    ∧ (mode ≠ .relaxed →
      ∀ wal, log.Leaves (buildWalHeader chunkCoord storeId features) wal →
        table.Recovers (table.loader chunkCoord storeId storeFeatures) log.moments image wal) := by
  refine ⟨⟨fun hall m hm version state hstate => ?_, fun hall wal hleaves => ?_⟩,
    fun hmode wal hleaves => ?_⟩
  · exact hrun.pass_of_recovers chunkCoord storeId hfeatures himage hstart hall hm hstate
  · exact hrun.recovers_of_pass chunkCoord storeId hfeatures himage hstart hall hleaves
  · refine hrun.recovers_of_pass chunkCoord storeId hfeatures himage hstart ?_ hleaves
    intro m hm version state hstate
    obtain ⟨count, hcount, hpasses⟩ := hrun.passes hmode hstart.stateAt m hm version state hstate
    rw [hcurrent] at hcount
    rwa [← hcount, Nat.add_sub_cancel_left]

end

end PowerRun

/-! ## Levels that are narrowed -/

/-- The levels of eight cells while `level` is narrowed to `u4`. -/
def narrowingLayout : ChunkLayout where
  schema := { cellsSchema with pending := some ⟨1, ⟨.unsigned, 4⟩⟩ }
  blockCount := 8
  payloadBytesLimit := kMaxChunkPayloadBytes
  fixed := [⟨0, 8, 0, none⟩]
  payloadBytes := 8
  valid := by decide +kernel
  placed := by decide +kernel

/-- The levels as `u4`. -/
def narrowedLayout : ChunkLayout where
  schema := { cellsSchema with
    version := 2
    columns := [⟨1, "level", ⟨.unsigned, 4⟩, false, false, false, []⟩]
    history := [⟨2, [.changeType 0 ⟨1, "level", ⟨.unsigned, 4⟩, false, false, false, []⟩
      ⟨1, "level", ⟨.unsigned, 8⟩, false, false, false, []⟩ .exact]⟩] }
  blockCount := 8
  payloadBytesLimit := kMaxChunkPayloadBytes
  fixed := [⟨0, 4, 0, none⟩]
  payloadBytes := 4
  valid := by decide +kernel
  placed := by decide +kernel

/-- The cells of chunks of 4 × 2, with their levels narrowed to `u4`. -/
def narrowedTable : Table where
  geometry := {
    config := ⟨1, 1, 4, 2, 4⟩
    layout := narrowedLayout
    checked := by decide +kernel
    blockCount_eq := rfl
    limit_eq := rfl }
  history := by
    have haccepts : ∀ layout : ChunkLayout, layout.blockCount = 8 →
        layout.payloadBytesLimit = kMaxChunkPayloadBytes →
        { (⟨1, 1, 4, 2, 4⟩ : GeometryConfig) with
          blockBits := fixedBitsPerBlock layout.schema.columns }.check layout.schema = .ok () →
        (⟨1, 1, 4, 2, 4⟩ : GeometryConfig).Accepts layout.schema := by
      intro layout hcount hlimit hcheck
      have hmake := layout.make_self
      rw [hcount, hlimit] at hmake
      exact ⟨hcheck, layout, hmake⟩
    have hcreated := TableHistory.created cellsSchema rfl rfl rfl
      (haccepts eightShape.cellsLayout rfl rfl (by decide +kernel))
    have hpending := TableHistory.altered _ narrowingLayout.schema hcreated
      (.withPendingNarrowing "level" ⟨.unsigned, 4⟩ (by decide +kernel))
      (haccepts narrowingLayout rfl rfl (by decide +kernel))
    exact .altered _ _ hpending (.narrowColumnType "level" ⟨.unsigned, 4⟩ (by decide +kernel))
      (haccepts narrowedLayout rfl rfl (by decide +kernel))

namespace narrowedTable

theorem isLayout_one : narrowedTable.IsLayout 1 eightShape.cellsLayout where
  layoutAt_eq := by
    have hschema : schemaAtVersion narrowedLayout.schema 1 = .ok cellsSchema := by
      decide +kernel
    have hne : ¬ 1 = narrowedTable.geometry.layout.schema.version := by
      change ¬ 1 = 2
      decide
    rw [Geometry.layoutAt, if_neg hne]
    change (schemaAtVersion narrowedLayout.schema 1 >>= _) = _
    rw [hschema]
    exact eightShape.cellsLayout.make_self
  schema_eq := by
    change schemaAtVersion narrowedLayout.schema 1 = .ok cellsSchema
    decide +kernel
  version_eq := rfl
  blockCount_eq := rfl
  payloadBytes_le := eightShape.count_le_payload

/-- A chunk whose first cell has a level. -/
def levelAt (level : UInt8) : ChunkState := ⟨[level, 0, 0, 0, 0, 0, 0, 0], [1], SortedMap.empty⟩

/-- The same in the version with the narrowed levels. -/
def narrowedAt (level : UInt8) : ChunkState := ⟨[level, 0, 0, 0], [1], SortedMap.empty⟩

/-- The frame of a write to the first cell. -/
def cellFrame (records : List WalRecord) (revision : UInt64) : FrameInput where
  schemaVersion := 1
  tag := []
  user := none
  gc := false
  records
  revision
  commitTimeMs := 0

theorem commits_cell (level : UInt64) {slotsEnabled : Bool} {before after : ChunkState}
    {records : List WalRecord} {revision : UInt64}
    (hrun : (Mutation.setBlock 0 [⟨"level", .uint level⟩]).run
      ⟨eightShape.cellsLayout, 0, Nat.zero_le _⟩ before = .ok (some ⟨after, records⟩))
    (hbuilt : (cellFrame records revision).buildFrame = .ok (cellFrame records revision).frameBytes) :
    Commits narrowedTable slotsEnabled 1 before (cellFrame records revision) after where
  write := ⟨⟨eightShape.cellsLayout, 0, Nat.zero_le _⟩, .setBlock 0 [⟨"level", .uint level⟩],
    isLayout_one, (by decide : 0 < 8), hrun⟩
  version_eq := rfl
  user_slots := fun h => absurd rfl h
  not_gc := rfl
  built := hbuilt

theorem validState_levelAt (level : UInt8) : eightShape.cellsLayout.ValidState (levelAt level) :=
  ⟨rfl, ⟨rfl, fun _ hi => getBit_of_length_le hi⟩, rfl⟩

theorem stateAt_levelAt (level : UInt8) : narrowedTable.StateAt 1 (levelAt level) :=
  ⟨Nat.one_pos, by decide, ⟨_, isLayout_one, validState_levelAt level⟩, Nat.zero_le _⟩

/-- The step to the narrowed levels finds a level to fit when it returns. -/
theorem stepFits_levelAt {level : UInt8} {next : ChunkState}
    (h : translateSteps narrowedTable.geometry 1 1 (levelAt level) = .ok next) :
    StepFits narrowedTable.geometry 1 (levelAt level) := by
  refine Table.stepFits_of_translateSteps_one Nat.one_pos (by decide) isLayout_one
    narrowedTable.isLayout_version (validState_levelAt level) (show 0 < 2 ^ 32 by decide) ?_ h
  change 0 + addedBytes eightShape.cellsLayout narrowedLayout [1] ≤ _
  decide +kernel

/-- Level 7, written to a chunk with no image. -/
def sevenLog : ChunkLog :=
  (ChunkLog.start 1 eightShape.cellsLayout.emptyState).append
    (cellFrame [.span 0 [7], .span 8 [1]] 1) (levelAt 7)

/-- Level 200, and then level 7 over it. -/
def overwrittenLog : ChunkLog :=
  ((ChunkLog.start 1 eightShape.cellsLayout.emptyState).append
    (cellFrame [.span 0 [200], .span 8 [1]] 1) (levelAt 200)).append
    (cellFrame [.span 0 [7]] 2) (levelAt 7)

theorem translate_seven :
    translateSteps narrowedTable.geometry 1 1 (levelAt 7) = .ok (narrowedAt 7) := by
  decide +kernel

theorem translate_twoHundred (next : ChunkState) :
    translateSteps narrowedTable.geometry 1 1 (levelAt 200) ≠ .ok next := by
  have hfails : (translateSteps narrowedTable.geometry 1 1 (levelAt 200)).isOk = false := by
    decide +kernel
  intro hok
  rw [hok] at hfails
  cases hfails

/-- In a synced mode level 7 is synced before it is narrowed. -/
theorem run_seven : PowerRun narrowedTable false .fsyncWal 0 1 eightShape.cellsLayout.emptyState
    ⟨sevenLog.alter (narrowedAt 7), some 1⟩ := by
  have hwrite : PowerRun narrowedTable false .fsyncWal 0 1 eightShape.cellsLayout.emptyState
      ⟨sevenLog, none⟩ := by
    refine .write .start (fun _ => .inl rfl) (commits_cell 7 ?_ ?_) (by decide)
    · decide +kernel
    · decide +kernel
  exact .narrow (.sync hwrite) (fun _ => .inr rfl) (by decide) (stepFits_levelAt translate_seven)
    translate_seven

/-- In relaxed mode nothing is synced. -/
theorem run_overwritten : PowerRun narrowedTable false .relaxed 0 1
    eightShape.cellsLayout.emptyState ⟨overwrittenLog.alter (narrowedAt 7), none⟩ := by
  have hfirst : PowerRun narrowedTable false .relaxed 0 1 eightShape.cellsLayout.emptyState
      ⟨(ChunkLog.start 1 eightShape.cellsLayout.emptyState).append
        (cellFrame [.span 0 [200], .span 8 [1]] 1) (levelAt 200), none⟩ := by
    refine .write .start (fun h => absurd rfl h) (commits_cell 200 ?_ ?_) (by decide)
    · decide +kernel
    · decide +kernel
  have hsecond : PowerRun narrowedTable false .relaxed 0 1 eightShape.cellsLayout.emptyState
      ⟨overwrittenLog, none⟩ := by
    refine .write hfirst (fun h => absurd rfl h) (commits_cell 7 ?_ ?_) (by decide)
    · decide +kernel
    · decide +kernel
  exact .narrow hsecond (fun h => absurd rfl h) (by decide) (stepFits_levelAt translate_seven)
    translate_seven

/-- The loader of the chunk, in a store without features. -/
def cellLoader : ChunkLoader := narrowedTable.loader ⟨0, 0⟩ zeroStore ⟨0, 0, 0⟩

/-- The header of the WAL of the chunk. -/
def cellHeader : Bytes := buildWalHeader ⟨0, 0⟩ zeroStore ⟨0, 0, 0⟩

theorem starts_empty : ∃ loaded, cellLoader.loadImage none = .ok loaded ∧ loaded.revision = 0
    ∧ narrowedTable.Starts loaded 1 eightShape.cellsLayout.emptyState :=
  Table.starts_none _ _ _ Nat.one_pos (by decide) isLayout_one

/-- Level 7 comes back after a power failure. -/
theorem recovers_seven :
    ∃ wal, PowerLog.Leaves ⟨sevenLog.alter (narrowedAt 7), some 1⟩ cellHeader wal ∧
      narrowedTable.Recovers cellLoader (sevenLog.alter (narrowedAt 7)).moments none wal := by
  obtain ⟨loaded, hloaded, hrevision, hstarts⟩ := starts_empty
  have hrun := run_seven
  rw [← hrevision] at hrun
  have hleaves : PowerLog.Leaves ⟨sevenLog.alter (narrowedAt 7), some 1⟩ cellHeader _ :=
    .inr ⟨_, le_rfl, Nat.add_le_add_left (length_framesBytes_take_le _ le_rfl) _, rfl⟩
  exact ⟨_, hleaves,
    (PowerRun.recovers_iff ⟨0, 0⟩ zeroStore rfl hloaded hstarts hrun rfl).2 (by decide) _ hleaves⟩

/-- Level 200 comes back without the frame of level 7, and the chunk is refused. -/
theorem refused_overwritten : ∃ log wal,
    PowerRun narrowedTable false .relaxed 0 1 eightShape.cellsLayout.emptyState log
      ∧ log.version = narrowedTable.version ∧ log.state = narrowedAt 7
      ∧ log.Leaves cellHeader wal ∧ ∀ final, cellLoader.openState none wal ≠ .ok final := by
  obtain ⟨loaded, hloaded, hrevision, hstarts⟩ := starts_empty
  have hrun := run_overwritten
  set log : PowerLog := ⟨overwrittenLog.alter (narrowedAt 7), none⟩
  set n := kWalHeaderSize + (framesBytes (log.frames.take 1)).length with hn
  have hhigh : n ≤ kWalHeaderSize + (framesBytes log.frames).length :=
    Nat.add_le_add_left (length_framesBytes_take_le log.frames (show 1 ≤ 2 by decide)) _
  refine ⟨log, _, hrun, rfl, rfl, .inr ⟨n, Nat.zero_le _, hhigh, rfl⟩, fun final hopen => ?_⟩
  rw [← hrevision] at hrun
  have hmoment : log.moments[(framesWithin (n - kWalHeaderSize) log.frames).length]?
      = some (1, levelAt 200) := by
    rw [hn, Nat.add_sub_cancel_left, framesWithin_framesBytes]
    rfl
  rw [cellHeader, cellLoader, hrun.logRun.openState_cut ⟨0, 0⟩ zeroStore
    (show isSubsetOf ⟨0, 0, 0⟩ ⟨0, 0, 0⟩ = true from rfl) hstarts hloaded (Nat.le_add_right _ _)
    hhigh hmoment (show 1 + 1 = narrowedTable.version from rfl)] at hopen
  exact translate_twoHundred final hopen.1

end narrowedTable

end ChunkDb
