/-
# The log of a chunk and its moments

A chunk starts from its image or from nothing, and its log takes a frame for every write and
for a collection that did not get further.
`ChunkLog.moments` has the states right after each number of frames, each in the version it
was written in.  Replay of the first frames over the image gives the moment they left,
brought to the current version (`LogRun.replays`); a file that is cut anywhere loads that way
(`LogRun.openState_cut`).
-/
import ChunkDb.ChunkRefresh
import ChunkDb.CollectFrame
import ChunkDb.StoreManifest
import ChunkDb.TranslateReturns

open List

namespace ChunkDb

open ChunkLoader

/-! ## What replay has of a chunk -/

/-- Replay has the state of a chunk at one of its versions: the state itself, or nothing so far,
where the chunk had no block. -/
inductive Table.Holds (table : Table) (basePresence : Bytes) : ReplayState → ℕ → ChunkState → Prop
  | state {version : ℕ} {state : ChunkState} (h : table.StateAt version state) :
      Table.Holds table basePresence (.of version state) version state
  | nothing {version : ℕ} {layout : ChunkLayout} (hpos : 0 < version)
      (hle : version ≤ table.version) (hlayout : table.IsLayout version layout)
      (hpresence : basePresence = List.replicate table.geometry.presenceBitmapBytes 0) :
      Table.Holds table basePresence ⟨0, [], SortedMap.empty⟩ version layout.emptyState

theorem Table.stateAt_emptyState {table : Table} {version : ℕ} {layout : ChunkLayout}
    (hpos : 0 < version) (hle : version ≤ table.version) (hlayout : table.IsLayout version layout) :
    table.StateAt version layout.emptyState :=
  ⟨hpos, hle, ⟨layout, hlayout, layout.validState_emptyState⟩, Nat.zero_le _⟩

/-- What the steps to the current version leave is valid there. -/
theorem Table.StateAt.valid_current {table : Table} {version count : ℕ} {state final : ChunkState}
    (h : table.StateAt version state) (hversion : version + count = table.version)
    (hsteps : translateSteps table.geometry count version state = .ok final) :
    table.geometry.layout.ValidState final := by
  obtain ⟨source, hsource, hvalid⟩ := h.valid
  obtain ⟨target, htarget, hfinal⟩ := Table.valid_of_translateSteps h.version_pos hversion.le hsource
    hvalid (h.size_le.trans_lt (by decide)) hsteps
  rw [hversion] at htarget
  obtain rfl := htarget.eq_current
  exact hfinal

namespace Table.Holds

variable {table : Table} {basePresence : Bytes} {replayed : ReplayState} {version count : ℕ}
  {state : ChunkState}

theorem stateAt (h : table.Holds basePresence replayed version state) :
    table.StateAt version state := by
  cases h with
  | state h => exact h
  | nothing hpos hle hlayout _ => exact Table.stateAt_emptyState hpos hle hlayout

/-- Replay's state is moved to a later version as the chunk is. -/
theorem bringStateTo_eq (h : table.Holds basePresence replayed version state)
    (hle : version + count ≤ table.version) :
    bringStateTo table.geometry basePresence (version + count) replayed
      = (translateSteps table.geometry count version state).map (ReplayState.of (version + count)) := by
  cases h with
  | state h =>
    obtain ⟨source, hsource, hvalid⟩ := h.valid
    have hpos := h.version_pos
    obtain ⟨target, htarget⟩ := table.exists_layout (Nat.add_pos_left hpos count) hle
    cases count with
    | zero => exact if_pos rfl
    | succ count =>
      have hne : version + (count + 1) ≠ version := by omega
      rw [bringStateTo, ReplayState.version_of, if_neg hne, moveStateTo, htarget.layoutAt_eq,
        ok_bind, ReplayState.version_of, if_neg hpos.ne', hsource.layoutAt_eq,
        ok_bind, ReplayState.split_of hvalid.payload_length, Nat.add_sub_cancel_left]
      cases translateSteps table.geometry (count + 1) version state <;> rfl
  | nothing hpos hversion hlayout hpresence =>
    obtain ⟨target, htarget⟩ := table.exists_layout (Nat.add_pos_left hpos count) hle
    have hne : version + count ≠ 0 := by omega
    rw [Table.translateSteps_emptyState count hpos hle hlayout htarget, bringStateTo,
      if_neg hne, moveStateTo, htarget.layoutAt_eq, ok_bind, if_pos rfl, hpresence,
      ← Table.presenceBitmapBytes_eq htarget]
    rfl

/-- At the end of replay, the state in the current version. -/
theorem currentState_eq (h : table.Holds basePresence replayed version state)
    {replayer : Replayer} (hgeometry : replayer.geometry = table.geometry)
    (hpresence : replayer.basePresence = basePresence) (hversion : version + count = table.version) :
    replayer.currentState replayed = translateSteps table.geometry count version state := by
  have hmove := h.bringStateTo_eq hversion.le
  rw [Replayer.currentState, hgeometry, hpresence]
  change (bringStateTo table.geometry _ table.version _ >>= _) = _
  rw [hversion] at hmove
  rw [hmove]
  cases htranslate : translateSteps table.geometry count version state with
  | error e => rfl
  | ok final => exact splitChunkStateBytes_of (h.stateAt.valid_current hversion htranslate) _

end Table.Holds

/-! ## The log -/

/-- The log of a chunk since its image: the frames, and the version and the state that the chunk
had right after each number of them. -/
structure ChunkLog where
  frames : List FrameInput
  moments : List (ℕ × ChunkState)
  version : ℕ
  state : ChunkState

namespace ChunkLog

/-- A chunk before its first write. -/
def start (version : ℕ) (base : ChunkState) : ChunkLog := ⟨[], [(version, base)], version, base⟩

/-- A frame is appended. -/
def append (log : ChunkLog) (input : FrameInput) (after : ChunkState) : ChunkLog :=
  ⟨log.frames ++ [input], log.moments ++ [(log.version, after)], log.version, after⟩

/-- A change of the schema appends nothing. -/
def alter (log : ChunkLog) (after : ChunkState) : ChunkLog :=
  { log with version := log.version + 1, state := after }

end ChunkLog

/-- A frame that takes a chunk at `version` from one state to another: that of a write, or that of
a collection. -/
inductive Appends (table : Table) (slotsEnabled : Bool) (version : ℕ) (state : ChunkState)
    (input : FrameInput) : ChunkState → Prop
  | write {after : ChunkState} (h : Commits table slotsEnabled version state input after) :
      Appends table slotsEnabled version state input after
  | collect {layout : ChunkLayout} (h : Collects table slotsEnabled version state input layout) :
      Appends table slotsEnabled version state input layout.emptyState

namespace Appends

variable {table : Table} {slotsEnabled : Bool} {version : ℕ} {state after : ChunkState}
  {input : FrameInput}

theorem version_eq (h : Appends table slotsEnabled version state input after) :
    input.schemaVersion = version := by
  cases h with
  | write h => exact h.version_eq
  | collect h => exact h.version_eq

/-- The frame leaves a state of the same version, replay accepts it, and it turns the one state
into the other. -/
theorem spec (h : Appends table slotsEnabled version state input after)
    (hstate : table.StateAt version state) :
    table.StateAt version after ∧ input.Written table.geometry slotsEnabled
      ∧ applyFrame input.parsed (ReplayState.of version state)
        = .ok (ReplayState.of version after) := by
  cases h with
  | write h => exact h.spec hstate
  | collect h => exact h.spec hstate

/-- A frame is marked only where no block is present. -/
theorem gcOverPresent_eq (h : Appends table slotsEnabled version state input after)
    (hstate : table.StateAt version state) :
    gcOverPresent table.geometry input.parsed (ReplayState.of version state) = .ok false := by
  unfold gcOverPresent
  cases h with
  | write h =>
    have hmark : input.parsed.gc = false := h.not_gc
    rw [hmark]
    rfl
  | collect h =>
    obtain ⟨layout, hlayout, hvalid⟩ := hstate.valid
    have habsent := h.absent
    split
    · rw [ReplayState.version_of, hlayout.layoutAt_eq, ok_bind, ReplayState.of,
        drop_left' hvalid.payload_length]
      rw [chunkPresent, any_eq_false] at habsent
      refine congrArg Except.ok (any_eq_false.mpr fun byte hbyte => ?_)
      simpa using habsent byte hbyte
    · rfl

end Appends

theorem Replayer.MarksEmpty.snoc {replayer : Replayer} {state : ReplayState}
    {frames : List ParsedFrame} {frame : ParsedFrame} (h : replayer.MarksEmpty state frames)
    (hlast : ∀ after, replayer.stateAfter state frames = .ok after →
      ¬ frame.revision ≤ replayer.baseRevision → ∀ moved,
        bringStateTo replayer.geometry replayer.basePresence frame.schemaVersion after = .ok moved →
          gcOverPresent replayer.geometry frame moved = .ok false) :
    replayer.MarksEmpty state (frames ++ [frame]) := by
  induction frames generalizing state with
  | nil =>
    rw [nil_append, MarksEmpty]
    split
    · trivial
    · rename_i hnew
      exact ⟨hlast state rfl hnew, fun _ _ => trivial⟩
  | cons head frames ih =>
    rw [MarksEmpty] at h
    rw [cons_append, MarksEmpty]
    simp only [stateAfter] at hlast
    split
    · rename_i hskip
      rw [if_pos hskip] at h hlast
      exact ih h hlast
    · rename_i hskip
      rw [if_neg hskip] at h hlast
      refine ⟨h.1, fun next hnext => ih (h.2 next hnext) ?_⟩
      simpa only [hnext, ok_bind] using hlast

/-- The log of a chunk that starts from `base` with `revision`: frames, with revisions that
increase, and changes of the schema. -/
inductive LogRun (table : Table) (slotsEnabled : Bool) (revision start : ℕ) (base : ChunkState) :
    ChunkLog → Prop
  | start : LogRun table slotsEnabled revision start base (.start start base)
  | append {log : ChunkLog} {input : FrameInput} {after : ChunkState}
      (run : LogRun table slotsEnabled revision start base log)
      (h : Appends table slotsEnabled log.version log.state input after)
      (hnew : ∀ r ∈ revision :: log.frames.map (·.revision.toNat), r < input.revision.toNat) :
      LogRun table slotsEnabled revision start base (log.append input after)
  | alter {log : ChunkLog} {after : ChunkState}
      (run : LogRun table slotsEnabled revision start base log) (hlt : log.version < table.version)
      (hfits : StepFits table.geometry log.version log.state)
      (h : translateSteps table.geometry 1 log.version log.state = .ok after) :
      LogRun table slotsEnabled revision start base (log.alter after)

namespace LogRun

variable {table : Table} {slotsEnabled : Bool} {revision start : ℕ} {base : ChunkState}
  {log : ChunkLog}

section

variable (h : LogRun table slotsEnabled revision start base log)

include h

theorem stateAt (hbase : table.StateAt start base) : table.StateAt log.version log.state := by
  induction h with
  | start => exact hbase
  | append _ h _ ih => exact (h.spec ih).1
  | alter _ hlt hfits h ih => exact ih.translateSteps_one hlt hfits h

/-- Replay accepts every frame of the log. -/
theorem written (hbase : table.StateAt start base) :
    ∀ input ∈ log.frames, input.Written table.geometry slotsEnabled := by
  induction h with
  | start => exact nofun
  | append run h _ ih =>
    intro input hinput
    rcases mem_append.mp hinput with hold | hlast
    · exact ih input hold
    · obtain rfl := mem_singleton.mp hlast
      exact (h.spec (run.stateAt hbase)).2.1
  | alter _ _ _ _ ih => exact ih

/-- The frames are in the order of their versions. -/
theorem versions :
    (start :: log.frames.map (·.schemaVersion)).Pairwise (· ≤ ·)
      ∧ ∀ v ∈ start :: log.frames.map (·.schemaVersion), v ≤ log.version := by
  induction h with
  | start => simp [ChunkLog.start]
  | append _ h _ ih =>
    obtain ⟨hsorted, hle⟩ := ih
    rw [ChunkLog.append, map_append, map_singleton, h.version_eq, ← cons_append]
    refine ⟨pairwise_append.mpr ⟨hsorted, pairwise_singleton .., ?_⟩, ?_⟩
    · simpa using hle
    · intro v hv
      rcases mem_append.mp hv with hold | hlast
      · exact hle v hold
      · exact (mem_singleton.mp hlast).le
  | alter _ _ _ _ ih => exact ⟨ih.1, fun v hv => (ih.2 v hv).trans (Nat.le_succ _)⟩

theorem revisions : (revision :: log.frames.map (·.revision.toNat)).Pairwise (· < ·) := by
  induction h with
  | start => simp [ChunkLog.start]
  | append _ _ hnew ih =>
    rw [ChunkLog.append, map_append, ← cons_append]
    refine pairwise_append.mpr ⟨ih, pairwise_singleton .., fun r hr last hlast => ?_⟩
    obtain rfl := mem_singleton.mp hlast
    exact hnew r hr
  | alter _ _ _ _ ih => exact ih

theorem length_moments : log.moments.length = log.frames.length + 1 := by
  induction h with
  | start => rfl
  | append _ _ _ ih => simp only [ChunkLog.append, length_append, length_singleton, ih]
  | alter _ _ _ _ ih => exact ih

theorem first_moment : log.moments[0]? = some (start, base) := by
  induction h with
  | start => rfl
  | @append log input after run _ _ ih =>
    rw [ChunkLog.append, getElem?_append_left (by rw [run.length_moments]; omega)]
    exact ih
  | alter _ _ _ _ ih => exact ih

/-- Only steps to later versions come after the last moment. -/
theorem last_moment :
    ∃ version count state, log.moments[log.frames.length]? = some (version, state)
      ∧ version + count = log.version
      ∧ translateSteps table.geometry count version state = .ok log.state := by
  induction h with
  | start => exact ⟨start, 0, base, rfl, rfl, rfl⟩
  | @append log input after run _ _ _ =>
    refine ⟨log.version, 0, after, ?_, rfl, rfl⟩
    rw [ChunkLog.append, length_append, length_singleton, ← run.length_moments,
      getElem?_append_right le_rfl, Nat.sub_self]
    rfl
  | alter _ _ _ hstep ih =>
    obtain ⟨version, count, state, hmoment, hversion, hsteps⟩ := ih
    refine ⟨version, count + 1, state, hmoment, ?_, ?_⟩
    · rw [← Nat.add_assoc, hversion]
      rfl
    · rw [translateSteps_add, hsteps, ok_bind, hversion]
      exact hstep

/-- Every moment is a state of the table. -/
theorem moment_stateAt (hbase : table.StateAt start base) :
    ∀ (m version : ℕ) (state : ChunkState),
      log.moments[m]? = some (version, state) → table.StateAt version state := by
  induction h with
  | start =>
    intro m version state hm
    cases m with
    | zero =>
      obtain ⟨rfl, rfl⟩ := Prod.mk.inj (Option.some.inj hm)
      exact hbase
    | succ m => cases hm
  | @append log input after run happend _ ih =>
    intro m version state hm
    rcases mem_append.mp (mem_of_getElem? hm) with hold | hnew
    · obtain ⟨k, hk⟩ := getElem?_of_mem hold
      exact ih k version state hk
    · obtain ⟨rfl, rfl⟩ := Prod.mk.inj (mem_singleton.mp hnew)
      exact (happend.spec (run.stateAt hbase)).1
  | alter _ _ _ _ ih => exact ih

/-- The run lemma: replay of the first frames has the moment they left. -/
theorem replays {replayer : Replayer} (hgeometry : replayer.geometry = table.geometry)
    (hrevision : replayer.baseRevision = revision) {first : ReplayState}
    (hstart : table.Holds replayer.basePresence first start base) :
    ∀ (m version : ℕ) (state : ChunkState), log.moments[m]? = some (version, state) →
      ∃ replayed, table.Holds replayer.basePresence replayed version state
        ∧ replayer.stateAfter first ((log.frames.take m).map FrameInput.parsed) = .ok replayed := by
  induction h with
  | start =>
    intro m version state hm
    cases m with
    | zero =>
      obtain ⟨rfl, rfl⟩ := Prod.mk.inj (Option.some.inj hm)
      exact ⟨first, hstart, rfl⟩
    | succ m => cases hm
  | @append log input after run happend hnew ih =>
    intro m version state hm
    by_cases hold : m < log.moments.length
    · rw [ChunkLog.append, getElem?_append_left hold] at hm
      have hle : m ≤ log.frames.length := by
        rw [run.length_moments] at hold
        omega
      rw [ChunkLog.append, take_append_of_le_length hle]
      exact ih m version state hm
    · -- the moment of the new frame: the last one moved to its version, with the frame applied
      rw [ChunkLog.append, getElem?_append_right (not_lt.mp hold)] at hm
      obtain ⟨hindex, hlast⟩ := List.getElem?_eq_some_iff.mp hm
      obtain ⟨hindex, rfl, rfl⟩ : m = log.moments.length ∧ log.version = version ∧ after = state := by
        simp only [length_singleton, getElem_singleton, Prod.mk.injEq] at hindex hlast
        exact ⟨by omega, hlast⟩
      obtain ⟨before, count, left, hmoment, hversion, hsteps⟩ := run.last_moment
      obtain ⟨replayed, hholds, hafter⟩ := ih _ _ _ hmoment
      have hstate := run.stateAt hstart.stateAt
      have hmove := hholds.bringStateTo_eq (hversion.trans_le hstate.version_le)
      rw [hsteps, hversion, ← hgeometry] at hmove
      rw [take_length] at hafter
      refine ⟨_, .state (happend.spec hstate).1, ?_⟩
      rw [ChunkLog.append, take_of_length_le (by rw [hindex, run.length_moments]; simp),
        map_append, map_singleton]
      refine Replayer.stateAfter_snoc hafter hmove happend.version_eq (happend.spec hstate).2.2 ?_
      rw [hrevision]
      exact hnew revision mem_cons_self
  | alter _ _ _ _ ih => exact ih

/-- A marked frame finds no block present. -/
theorem marksEmpty {replayer : Replayer} (hgeometry : replayer.geometry = table.geometry)
    (hrevision : replayer.baseRevision = revision) {first : ReplayState}
    (hstart : table.Holds replayer.basePresence first start base) :
    replayer.MarksEmpty first (log.frames.map FrameInput.parsed) := by
  induction h with
  | start => trivial
  | @append log input after run happend _ ih =>
    have hstate := run.stateAt hstart.stateAt
    obtain ⟨before, count, left, hmoment, hversion, hsteps⟩ := run.last_moment
    obtain ⟨replayed, hholds, hafter⟩ := run.replays hgeometry hrevision hstart _ _ _ hmoment
    have hmove := hholds.bringStateTo_eq (hversion.trans_le hstate.version_le)
    rw [hsteps, hversion] at hmove
    rw [take_length] at hafter
    rw [ChunkLog.append, map_append, map_singleton]
    refine ih.snoc fun other hother _ moved hmoved => ?_
    cases hother.symm.trans hafter
    have hparsed : input.parsed.schemaVersion = log.version := happend.version_eq
    rw [hgeometry, hparsed, hmove] at hmoved
    rw [← Except.ok.inj hmoved, hgeometry]
    exact happend.gcOverPresent_eq hstate
  | alter _ _ _ _ ih => exact ih

end

end LogRun

/-! ## What a load starts from -/

/-- The state of an image, or that of no image. -/
inductive Table.Starts (table : Table) : LoadedChunkPayload → ℕ → ChunkState → Prop
  | image {loaded : LoadedChunkPayload} (h : table.StateAt loaded.schemaVersion loaded.state) :
      Table.Starts table loaded loaded.schemaVersion loaded.state
  | nothing {loaded : LoadedChunkPayload} {version : ℕ} {layout : ChunkLayout} (hpos : 0 < version)
      (hle : version ≤ table.version) (hlayout : table.IsLayout version layout)
      (hversion : loaded.schemaVersion = 0)
      (hstate : loaded.state = table.geometry.layout.emptyState) :
      Table.Starts table loaded version layout.emptyState

theorem Table.isLayout_version (table : Table) :
    table.IsLayout table.version table.geometry.layout := by
  obtain ⟨layout, hlayout⟩ := table.exists_layout table.history.version_pos le_rfl
  exact hlayout.eq_current ▸ hlayout

/-- A chunk that has no image starts from nothing, in any version. -/
theorem Table.starts_none {table : Table} (chunkCoord : ChunkCoord) (storeId : StoreId)
    (features : FeatureFlags) {version : ℕ} {layout : ChunkLayout} (hpos : 0 < version)
    (hle : version ≤ table.version) (hlayout : table.IsLayout version layout) :
    ∃ loaded, (table.loader chunkCoord storeId features).loadImage none = .ok loaded
      ∧ loaded.revision = 0 ∧ table.Starts loaded version layout.emptyState := by
  refine ⟨_, rfl, rfl, .nothing hpos hle hlayout rfl ?_⟩
  rw [emptyState, ChunkLayout.emptyState, Table.presenceBitmapBytes_eq table.isLayout_version]
  rfl

namespace Table.Starts

variable {table : Table} {loaded : LoadedChunkPayload} {start count : ℕ} {base : ChunkState}

theorem stateAt (h : table.Starts loaded start base) : table.StateAt start base := by
  cases h with
  | image h => exact h
  | nothing hpos hle hlayout _ _ => exact Table.stateAt_emptyState hpos hle hlayout

theorem holds (h : table.Starts loaded start base) :
    ∃ first, initialState table.geometry ⟨loaded.revision, loaded.schemaVersion, loaded.state⟩
        = .ok first ∧ table.Holds loaded.state.presence first start base := by
  cases h with
  | image h =>
    have hinitial : initialState table.geometry
        ⟨loaded.revision, loaded.schemaVersion, loaded.state⟩ = _ := initialState_of h
    exact ⟨_, hinitial, .state h⟩
  | nothing hpos hle hlayout hversion hstate =>
    refine ⟨⟨0, [], SortedMap.empty⟩, ?_, .nothing hpos hle hlayout ?_⟩
    · rw [initialState, hversion, require_of (Nat.zero_le _), ok_bind, if_pos rfl, hstate]
      rfl
    · rw [hstate, ← Table.presenceBitmapBytes_eq table.isLayout_version]
      rfl

theorem bringToCurrentSchema_eq (h : table.Starts loaded start base)
    (hversion : start + count = table.version) :
    bringToCurrentSchema table.geometry loaded.schemaVersion loaded.state
      = translateSteps table.geometry count start base := by
  cases h with
  | image h =>
    have hcount : table.geometry.layout.schema.version - loaded.schemaVersion = count := by
      change table.version - _ = _
      omega
    rw [bringToCurrentSchema, if_neg h.version_pos.ne', hcount]
  | nothing hpos hle hlayout hzero hstate =>
    rw [Table.translateSteps_emptyState count hpos hversion.le hlayout
      (hversion ▸ table.isLayout_version), bringToCurrentSchema, if_pos hzero, hstate]
    rfl

end Table.Starts

/-! ## A log that is cut -/

/-- A cut at the end of a frame keeps the frames up to it. -/
theorem framesWithin_framesBytes (frames : List FrameInput) (m : ℕ) :
    framesWithin (framesBytes (frames.take m)).length frames = frames.take m := by
  induction frames generalizing m with
  | nil => simp [framesWithin]
  | cons input frames ih =>
    have htotal := input.total_header
    have hlength := input.length_frameBytes
    cases m with
    | zero => exact if_neg (by rw [take_zero]; change ¬ _ ≤ 0; omega)
    | succ m =>
      rw [take_succ_cons, framesBytes_cons, length_append, framesWithin,
        if_pos (by omega), Nat.add_sub_cancel_left, ih]

theorem le_length_framesWithin {frames : List FrameInput} {k n : ℕ} (hk : k ≤ frames.length)
    (h : (framesBytes (frames.take k)).length ≤ n) : k ≤ (framesWithin n frames).length := by
  induction frames generalizing k n with
  | nil => exact hk.trans (Nat.zero_le _)
  | cons input frames ih =>
    cases k with
    | zero => exact Nat.zero_le _
    | succ k =>
      rw [take_succ_cons, framesBytes_cons, length_append] at h
      rw [framesWithin, if_pos (by omega), length_cons]
      have := ih (Nat.le_of_succ_le_succ hk) (show _ ≤ n - input.frameBytes.length by omega)
      omega

/-- A state of the current version is served as it is. -/
theorem bringToCurrentSchema_self {geometry : Geometry} (h : geometry.layout.schema.version ≠ 0)
    (state : ChunkState) :
    bringToCurrentSchema geometry geometry.layout.schema.version state = .ok state := by
  rw [bringToCurrentSchema, if_neg h, Nat.sub_self]
  rfl

/-- A WAL that ends with its last frame, or where a crash cut it, is served if replay finds no
fault with the values. -/
theorem ChunkLoader.openState_of_replay {loader : ChunkLoader} {image : Option Bytes} {wal : Bytes}
    {loaded : LoadedChunkPayload} {replayed : Replayed} (himage : loader.loadImage image = .ok loaded)
    (hreplay : loader.replayOver loaded wal = .ok replayed)
    (htorn : replayed.result.tornCreation = false) (hreplayable : replayed.result.replayable = true)
    (htail : replayed.result.stoppedAtCrashTail = replayed.result.tailTruncatedOrCorrupt)
    (hversion : loader.geometry.layout.schema.version ≠ 0) (final : ChunkState) :
    loader.openState image (some wal) = .ok final
      ↔ replayed.state = final ∧ replayed.result.varsProblem = "" := by
  have hdamage : ¬ (replayed.result.tailTruncatedOrCorrupt = true
      ∧ replayed.result.stoppedAtCrashTail = false) := by
    rw [htail]
    simp
  have hversion' : ∀ loaded : LoadedChunkPayload,
      (LoadedChunkPayload.withReplay loaded replayed.result).schemaVersion = loaded.schemaVersion
        ∧ (LoadedChunkPayload.withReplay loaded replayed.result).state = loaded.state := by
    intro loaded
    unfold LoadedChunkPayload.withReplay
    split <;> exact ⟨rfl, rfl⟩
  rw [openState, loadWriter, himage, ok_bind]
  dsimp only
  rw [replayWriter, hreplay, ok_bind, htorn, if_neg Bool.false_ne_true,
    require_of hreplayable, ok_bind, require_of hdamage, ok_bind]
  by_cases hproblem : replayed.result.varsProblem = ""
  · rw [require_of hproblem, ok_bind]
    change bringToCurrentSchema _ (LoadedChunkPayload.withReplay _ _).schemaVersion
      (LoadedChunkPayload.withReplay _ _).state = _ ↔ _
    rw [(hversion' _).1, (hversion' _).2]
    change bringToCurrentSchema _ loader.geometry.layout.schema.version replayed.state = _ ↔ _
    rw [bringToCurrentSchema_self hversion]
    simp [hproblem]
  · simp [require, hproblem]

/-- What replay reports of values that take too much. -/
def ChunkVars.sizeProblem (vars : ChunkVars) : String :=
  if vars.encodedSize ≤ kVarMaxChunkBytesLimit then ""
  else "values take " ++ toString vars.encodedSize ++ " bytes, more than "
    ++ toString kVarMaxChunkBytesLimit

theorem ChunkVars.sizeProblem_eq_empty_iff (vars : ChunkVars) :
    vars.sizeProblem = "" ↔ vars.encodedSize ≤ kVarMaxChunkBytesLimit := by
  unfold sizeProblem
  split
  · rename_i hle
    exact iff_of_true rfl hle
  · rename_i hle
    refine iff_of_false (fun hempty => ?_) hle
    have := congrArg String.length hempty
    simp [String.length_append] at this

/-- In a valid state the values can only take too much. -/
theorem varsProblem_eq {replayer : Replayer} {state : ChunkState}
    (h : replayer.geometry.layout.ValidState state) :
    replayer.varsProblem state.vars state.presence = state.vars.sizeProblem := by
  unfold Replayer.varsProblem ChunkVars.sizeProblem
  by_cases hle : state.vars.encodedSize ≤ kVarMaxChunkBytesLimit
  · rw [if_neg (not_lt.mpr hle), if_pos hle, h.vars_valid]
  · rw [if_pos (not_le.mp hle), if_neg hle]

namespace LogRun

variable {table : Table} {features storeFeatures : FeatureFlags} {loaded : LoadedChunkPayload}
  {start : ℕ} {base : ChunkState} {log : ChunkLog} {image : Option Bytes}

/-- What a cut of the log inside the header loads as: the chunk as it started. -/
theorem openState_header (chunkCoord : ChunkCoord) (storeId : StoreId)
    (himage : (table.loader chunkCoord storeId storeFeatures).loadImage image = .ok loaded)
    (hstart : table.Starts loaded start base) {count n : ℕ}
    (hversion : start + count = table.version) (rest : Bytes) (hn : n < kWalHeaderSize) :
    (table.loader chunkCoord storeId storeFeatures).openState image
        (some ((buildWalHeader chunkCoord storeId features ++ rest).take n))
      = translateSteps table.geometry count start base := by
  have hreplay : replayWal _ table.geometry chunkCoord storeId storeFeatures
      ⟨loaded.revision, loaded.schemaVersion, loaded.state⟩ = _ :=
    replayWal_take_header chunkCoord storeId features rest hn
  rw [hstart.bringToCurrentSchema_eq hversion] at hreplay
  rw [openState, loadWriter, himage, ok_bind]
  dsimp only
  rw [replayWriter, replayOver, Table.loader, hreplay]
  cases translateSteps table.geometry count start base with
  | error e => rfl
  | ok current =>
    exact bringToCurrentSchema_self table.history.version_pos.ne' current

section

variable (chunkCoord : ChunkCoord) (storeId : StoreId)
  (hfeatures : isSubsetOf features storeFeatures = true) (hstart : table.Starts loaded start base)
  (hrun : LogRun table (slotsEnabled storeFeatures) loaded.revision start base log)

include hstart hrun

theorem versions_loaded :
    (loaded.schemaVersion :: log.frames.map (·.schemaVersion)).Pairwise (· ≤ ·) := by
  obtain ⟨hfirst, hrest⟩ := pairwise_cons.mp hrun.versions.1
  cases hstart with
  | image _ => exact hrun.versions.1
  | nothing _ _ _ hzero _ =>
    exact pairwise_cons.mpr ⟨fun v _ => hzero.trans_le (Nat.zero_le _), hrest⟩

include hfeatures

/-- Replay of a cut of the log: it ends in the moment its last whole frame left, in the current
version. -/
theorem replayWal_cut {n : ℕ} (hlow : kWalHeaderSize ≤ n) (hhigh : n ≤ kWalHeaderSize + (framesBytes log.frames).length)
    {version count : ℕ} {state : ChunkState}
    (hmoment : log.moments[(framesWithin (n - kWalHeaderSize) log.frames).length]?
      = some (version, state)) (hversion : version + count = table.version) :
    let inside := framesWithin (n - kWalHeaderSize) log.frames
    let cut := n != kWalHeaderSize + (framesBytes inside).length
    ∃ reason, replayWal
        ((buildWalHeader chunkCoord storeId features ++ framesBytes log.frames).take n) table.geometry
        chunkCoord storeId storeFeatures ⟨loaded.revision, loaded.schemaVersion, loaded.state⟩
      = (translateSteps table.geometry count version state).map fun current =>
          ⟨{ passedResult loaded.revision (inside.map FrameInput.parsed) with
             tailTruncatedOrCorrupt := cut
             stoppedAtCrashTail := cut
             stopReason := reason
             varsProblem := current.vars.sizeProblem }, current,
            ReplayProgress.boundariesFrom kWalHeaderSize (inside.map FrameInput.parsed)⟩ := by
  intro inside cut
  set loadedBase : ReplayBase := ⟨loaded.revision, loaded.schemaVersion, loaded.state⟩
  set replayer := Replayer.of table.geometry features storeFeatures loadedBase
  obtain ⟨first, hfirst, hholds⟩ := hstart.holds
  have hmarks := hrun.marksEmpty (rfl : replayer.geometry = table.geometry) rfl hholds
  obtain ⟨-, reason, hreplay⟩ := replayWal_take_frames chunkCoord storeId hfeatures log.frames
    (hrun.written hstart.stateAt) hrun.revisions (hrun.versions_loaded hstart) hfirst hmarks hlow
    hhigh
  obtain ⟨hstarts, -⟩ := take_framesBytes (n - kWalHeaderSize) log.frames
    (fun input hinput => (hrun.written hstart.stateAt input hinput).built) (by omega)
  have hreplays := hrun.replays (rfl : replayer.geometry = table.geometry) rfl hholds
  obtain ⟨replayed, hreplayed, hafter⟩ := hreplays _ _ _ hmoment
  rw [← prefix_iff_eq_take.mp hstarts] at hafter
  rw [hafter, ok_bind, Replayer.passed, hreplayed.currentState_eq rfl rfl hversion] at hreplay
  refine ⟨if n = kWalHeaderSize + (framesBytes inside).length then "" else reason, hreplay.trans ?_⟩
  cases hsteps : translateSteps table.geometry count version state with
  | error e => rfl
  | ok current =>
    have hproblem : replayer.varsProblem current.vars current.presence = _ :=
      varsProblem_eq (hreplayed.stateAt.valid_current hversion hsteps)
    rw [ok_bind, hproblem]
    rfl

/-- Replay of a log behind frames that the image holds: it ends in the last moment of the log, in
the current version. -/
theorem replayWal_over {old : List FrameInput}
    (holdWritten : ∀ input ∈ old, input.Written table.geometry (slotsEnabled storeFeatures))
    (hold : ∀ input ∈ old, input.revision.toNat ≤ loaded.revision)
    (hincreasing : (0 :: (old ++ log.frames).map (·.revision.toNat)).Pairwise (· < ·))
    {version count : ℕ} {state : ChunkState}
    (hmoment : log.moments[log.frames.length]? = some (version, state))
    (hversion : version + count = table.version) :
    replayWal (buildWalHeader chunkCoord storeId features ++ framesBytes (old ++ log.frames))
        table.geometry chunkCoord storeId storeFeatures
        ⟨loaded.revision, loaded.schemaVersion, loaded.state⟩
      = (translateSteps table.geometry count version state).map fun current =>
          ⟨convergedResult old log.frames current.vars.sizeProblem, current,
            ReplayProgress.boundariesFrom kWalHeaderSize
              ((old ++ log.frames).map FrameInput.parsed)⟩ := by
  set loadedBase : ReplayBase := ⟨loaded.revision, loaded.schemaVersion, loaded.state⟩
  set replayer := Replayer.of table.geometry features storeFeatures loadedBase
  obtain ⟨first, hfirst, hholds⟩ := hstart.holds
  have hskip : ∀ frame ∈ old.map FrameInput.parsed, frame.revision ≤ replayer.baseRevision := by
    intro frame hframe
    obtain ⟨input, hinput, rfl⟩ := mem_map.mp hframe
    exact hold input hinput
  have htakes : replayer.TakesAll first ((old ++ log.frames).map FrameInput.parsed) := by
    refine Replayer.TakesAll.of_versions _ _ ?_ ?_
    · rw [show replayer.baseRevision = loaded.revision from rfl,
        newFrames_append hold hrun.revisions, map_map, version_initialState hfirst]
      exact hrun.versions_loaded hstart
    · rw [map_append]
      exact Replayer.marksEmpty_skip hskip (hrun.marksEmpty rfl rfl hholds)
  have hwritten : ∀ input ∈ old ++ log.frames,
      input.Written table.geometry (slotsEnabled storeFeatures) := fun input hinput =>
    (mem_append.mp hinput).elim (holdWritten input) (hrun.written hstart.stateAt input)
  obtain ⟨replayed, hreplayed, hafter⟩ :=
    hrun.replays (rfl : replayer.geometry = table.geometry) rfl hholds _ _ _ hmoment
  rw [take_length] at hafter
  have hstate : replayer.stateAfter first ((old ++ log.frames).map FrameInput.parsed)
      = .ok replayed := by
    rw [map_append, Replayer.stateAfter_append, Replayer.stateAfter_skip hskip, ok_bind, hafter]
  rw [replayWal_whole chunkCoord storeId hfeatures old log.frames hwritten hold hrun.revisions
    hincreasing hfirst htakes, hstate, ok_bind, hreplayed.currentState_eq rfl rfl hversion]
  cases hsteps : translateSteps table.geometry count version state with
  | error e => rfl
  | ok current =>
    have hproblem : replayer.varsProblem current.vars current.presence = _ :=
      varsProblem_eq (hreplayed.stateAt.valid_current hversion hsteps)
    simp only [Except.map, ← hproblem]
    rfl

/-- Replay of the whole log. -/
theorem replayWal_log {version count : ℕ} {state : ChunkState}
    (hmoment : log.moments[log.frames.length]? = some (version, state))
    (hversion : version + count = table.version) :
    replayWal (buildWalHeader chunkCoord storeId features ++ framesBytes log.frames) table.geometry
        chunkCoord storeId storeFeatures ⟨loaded.revision, loaded.schemaVersion, loaded.state⟩
      = (translateSteps table.geometry count version state).map fun current =>
          ⟨convergedResult [] log.frames current.vars.sizeProblem, current,
            ReplayProgress.boundariesFrom kWalHeaderSize (log.frames.map FrameInput.parsed)⟩ := by
  have hover := hrun.replayWal_over chunkCoord storeId hfeatures hstart
    (fun _ h => absurd h not_mem_nil) (fun _ h => absurd h not_mem_nil)
    (pairwise_zero_of_cons hrun.revisions) hmoment hversion
  rwa [nil_append] at hover

/-- What a cut of the log loads as: the moment its last whole frame left. -/
theorem openState_cut
    (himage : (table.loader chunkCoord storeId storeFeatures).loadImage image = .ok loaded) {n : ℕ}
    (hlow : kWalHeaderSize ≤ n) (hhigh : n ≤ kWalHeaderSize + (framesBytes log.frames).length)
    {version count : ℕ} {state : ChunkState}
    (hmoment : log.moments[(framesWithin (n - kWalHeaderSize) log.frames).length]?
      = some (version, state)) (hversion : version + count = table.version) (final : ChunkState) :
    (table.loader chunkCoord storeId storeFeatures).openState image
        (some ((buildWalHeader chunkCoord storeId features ++ framesBytes log.frames).take n))
        = .ok final
      ↔ translateSteps table.geometry count version state = .ok final
        ∧ final.vars.encodedSize ≤ kVarMaxChunkBytesLimit := by
  obtain ⟨reason, hreplay⟩ := hrun.replayWal_cut chunkCoord storeId hfeatures hstart hlow
    hhigh hmoment hversion
  cases hsteps : translateSteps table.geometry count version state with
  | error e =>
    rw [hsteps] at hreplay
    rw [openState, loadWriter, himage, ok_bind]
    dsimp only
    rw [replayWriter, replayOver, Table.loader, hreplay]
    simp [Except.map]
  | ok current =>
    rw [hsteps] at hreplay
    rw [openState_of_replay himage hreplay rfl rfl rfl table.history.version_pos.ne',
      Except.ok.injEq]
    refine and_congr_right fun heq => ?_
    rw [← heq]
    exact current.vars.sizeProblem_eq_empty_iff

end

end LogRun

end ChunkDb
