/-
# A WAL that outlives a checkpoint

A checkpoint writes an image of a chunk and then removes its WAL.  After a crash between
the two the whole WAL is replayed over the new image: the frames the image holds are
skipped and the others lead to the same state (`replayWal_checkpoint`).  The image may be
of a later version than the last frame it holds, so moving a state in two goes has to be
moving it in one (`Table.Sized.bringStateTo_trans`).
-/
import ChunkDb.Wal.ReplaySpec

open List

namespace ChunkDb

open Replayer FrameInput ReplayState

/-! ## States of the size of their layout -/

/-- A state replay may have: the empty one of no image, or one of the size its version's
layout has. -/
inductive Table.Sized (table : Table) : ReplayState → Prop
  | none : Table.Sized table ⟨0, [], SortedMap.empty⟩
  | some {state : ReplayState} {layout : ChunkLayout} (hpos : 0 < state.version)
      (hle : state.version ≤ table.version) (hlayout : table.IsLayout state.version layout)
      (hlength : state.bytes.length = layout.payloadBytes + table.geometry.presenceBitmapBytes) :
      Table.Sized table state

variable {table : Table} {version revision : ℕ} {state : ReplayState}
  {first second : List FrameInput}

theorem Table.presenceBitmapBytes_eq {layout : ChunkLayout} (h : table.IsLayout version layout) :
    bytesForBits layout.blockCount = table.geometry.presenceBitmapBytes := by
  rw [h.blockCount_eq]
  rfl

/-- The parts of a state, put together again. -/
theorem ReplayState.of_split (state : ReplayState) (payloadBytes : ℕ) :
    ReplayState.of state.version (state.split payloadBytes) = state := by
  rw [of, split, take_append_drop]

/-- Several versions further the payload has the size of the layout there. -/
theorem length_translateSteps (count : ℕ) {target : ChunkLayout} {state next : ChunkState}
    (htarget : table.IsLayout (version + count) target) (hpos : 0 < count)
    (h : translateSteps table.geometry count version state = .ok next) :
    next.payload.length = target.payloadBytes ∧ next.presence = state.presence := by
  induction count generalizing version state with
  | zero => omega
  | succ count ih =>
    rw [translateSteps] at h
    simp only [bind_eq_ok] at h
    obtain ⟨source, _, middle, hmiddle, moved, hmoved, h⟩ := h
    obtain ⟨hlen, hpresence⟩ := length_translateChunk hmoved
    cases count with
    | zero =>
      cases h
      cases hmiddle.symm.trans htarget.layoutAt_eq
      exact ⟨hlen, hpresence⟩
    | succ count =>
      have htarget' : table.IsLayout (version + 1 + (count + 1)) target := by
        rwa [Nat.add_right_comm, Nat.add_assoc]
      obtain ⟨hlen', hpresence'⟩ := ih htarget' (Nat.succ_pos _) h
      exact ⟨hlen', hpresence'.trans hpresence⟩

namespace Table.Sized

variable {table : Table} {state moved : ReplayState} {version : ℕ} {presence : Bytes}

/-- A sized state is moved to a sized one. -/
theorem bringStateTo (h : table.Sized state)
    (hpresence : presence = List.replicate table.geometry.presenceBitmapBytes 0 ∨ 0 < state.version)
    (hpos : 0 < version) (hle : version ≤ table.version)
    (hlower : state.version ≤ version)
    (hmoved : ChunkDb.bringStateTo table.geometry presence version state = .ok moved) :
    table.Sized moved := by
  obtain ⟨target, htarget⟩ := table.exists_layout hpos hle
  have hversion := version_bringStateTo hmoved
  unfold ChunkDb.bringStateTo at hmoved
  split at hmoved
  · rwa [← Except.ok.inj hmoved]
  · rename_i hne
    rw [moveStateTo, htarget.layoutAt_eq, ok_bind] at hmoved
    refine .some (hversion ▸ hpos) (hversion ▸ hle) (hversion ▸ htarget) ?_
    cases h with
    | none =>
      rw [if_pos rfl] at hmoved
      cases hmoved
      have hzeros := hpresence.resolve_right (lt_irrefl 0)
      simp [ReplayState.of, hzeros]
    | some hstart _ hlayout hlength =>
      rename_i layout
      rw [if_neg hstart.ne', hlayout.layoutAt_eq, ok_bind, bind_eq_ok] at hmoved
      obtain ⟨next, hnext, hmoved⟩ := hmoved
      cases hmoved
      have hcount : state.version + (version - state.version) = version := by omega
      obtain ⟨hlen, hsame⟩ := length_translateSteps _ (hcount.symm ▸ htarget) (by omega) hnext
      rw [ReplayState.of, length_append, hlen, hsame, ReplayState.split, length_drop, hlength]
      omega

/-- Moving a state in two goes is moving it in one. -/
theorem bringStateTo_trans (h : table.Sized state)
    (hpresence : presence = List.replicate table.geometry.presenceBitmapBytes 0 ∨ 0 < state.version)
    (hpos : 0 < version) {later : ℕ} (hlower : state.version ≤ version) (hupper : version ≤ later)
    (hle : later ≤ table.version)
    (hmoved : ChunkDb.bringStateTo table.geometry presence version state = .ok moved)
    (presence' : Bytes) :
    ChunkDb.bringStateTo table.geometry presence' later moved
      = ChunkDb.bringStateTo table.geometry presence later state := by
  have hversion := version_bringStateTo hmoved
  obtain ⟨middle, hmiddle⟩ := table.exists_layout hpos (hupper.trans hle)
  obtain ⟨target, htarget⟩ := table.exists_layout (hpos.trans_le hupper) hle
  by_cases hsame : version = state.version
  · -- nothing was moved, and a state of a version does not need the presence of the base
    rw [ChunkDb.bringStateTo, if_pos hsame] at hmoved
    cases hmoved
    exact bringStateTo_presence (by omega) _ _ _ _
  · by_cases hlast : later = version
    · rw [hlast, hmoved, ChunkDb.bringStateTo, if_pos hversion.symm]
    · have hmove := hmoved
      rw [ChunkDb.bringStateTo, if_neg hsame, moveStateTo, hmiddle.layoutAt_eq, ok_bind] at hmove
      rw [ChunkDb.bringStateTo, if_neg (by omega : ¬ later = moved.version), moveStateTo,
        htarget.layoutAt_eq, ok_bind, if_neg (by omega : ¬ moved.version = 0), hversion,
        hmiddle.layoutAt_eq, ok_bind, ChunkDb.bringStateTo,
        if_neg (by omega : ¬ later = state.version), moveStateTo, htarget.layoutAt_eq, ok_bind]
      have hcount : version + (later - version) = later := by omega
      cases h with
      | none =>
        rw [if_pos rfl] at hmove ⊢
        cases hmove
        have hzeros := hpresence.resolve_right (lt_irrefl 0)
        have hsplit : (of version ⟨List.replicate middle.payloadBytes 0, presence,
            SortedMap.empty⟩).split middle.payloadBytes = middle.emptyState := by
          rw [split_of length_replicate, ChunkLayout.emptyState, hzeros,
            presenceBitmapBytes_eq hmiddle]
        rw [hsplit, translateSteps_emptyState _ hpos (hcount.trans_le hle) hmiddle
          (hcount.symm ▸ htarget), ok_bind, ChunkLayout.emptyState, hzeros,
          presenceBitmapBytes_eq htarget]
      | some hstart _ hlayout hlength =>
        rename_i layout
        rw [if_neg hstart.ne', hlayout.layoutAt_eq, ok_bind] at hmove ⊢
        obtain ⟨next, hnext, hmove⟩ := bind_eq_ok.mp hmove
        cases hmove
        have hfirst : state.version + (version - state.version) = version := by omega
        obtain ⟨hlen, _⟩ := length_translateSteps _ (hfirst.symm ▸ hmiddle) (by omega) hnext
        have hsteps : later - state.version
            = (version - state.version) + (later - version) := by omega
        rw [split_of hlen, hsteps, translateSteps_add, hnext, ok_bind, hfirst]

/-- A frame whose records fit is applied within the state. -/
theorem applyFrame (h : table.Sized state) {input : FrameInput} {layout : ChunkLayout}
    {slotsEnabled : Bool} (hfits : input.Fits table.geometry slotsEnabled layout)
    (hversion : state.version = input.schemaVersion) {next : ReplayState}
    (hnext : ChunkDb.applyFrame input.parsed state = .ok next) : table.Sized next := by
  rw [ChunkDb.applyFrame, bind_eq_ok] at hnext
  obtain ⟨vars, _, hnext⟩ := hnext
  cases hnext
  cases h with
  | none =>
    have := hfits.version_pos
    rw [← hversion] at this
    exact absurd this (lt_irrefl 0)
  | some hstart hle hlayout hlength =>
    refine .some hstart hle hlayout ?_
    rw [← hlength]
    refine length_copySpans _ _ fun span hspan => ?_
    have hrecord := (ParsedRecords.mem_spans_addAll hspan).resolve_left not_mem_nil
    have hfit := (hfits.records_fit _ hrecord).1
    rw [hversion] at hlayout
    cases hlayout.layoutAt_eq.symm.trans hfits.layoutAt_eq
    rw [hlength]
    exact hfit

end Table.Sized

/-! ## Replay from a later state -/

namespace Replayer

variable {replayer other : Replayer} {state : ReplayState}

variable {frames : List ParsedFrame}

theorem stateAfter_skip (h : ∀ frame ∈ frames, frame.revision ≤ replayer.baseRevision) :
    replayer.stateAfter state frames = .ok state := by
  induction frames with
  | nil => rfl
  | cons frame frames ih =>
    rw [stateAfter, if_pos (h frame mem_cons_self)]
    exact ih fun later hlater => h later (mem_cons_of_mem _ hlater)

theorem marksEmpty_skip {first second : List ParsedFrame}
    (h : ∀ frame ∈ first, frame.revision ≤ replayer.baseRevision)
    (hsecond : replayer.MarksEmpty state second) : replayer.MarksEmpty state (first ++ second) := by
  induction first with
  | nil => exact hsecond
  | cons frame first ih =>
    rw [cons_append, MarksEmpty, if_pos (h frame mem_cons_self)]
    exact ih fun later hlater => h later (mem_cons_of_mem _ hlater)

theorem marksEmpty_append {first second : List ParsedFrame}
    (h : replayer.MarksEmpty state (first ++ second)) {after : ReplayState}
    (hafter : replayer.stateAfter state first = .ok after) : replayer.MarksEmpty after second := by
  induction first generalizing state with
  | nil =>
    cases hafter
    exact h
  | cons frame first ih =>
    rw [cons_append, MarksEmpty] at h
    rw [stateAfter] at hafter
    by_cases hskip : frame.revision ≤ replayer.baseRevision
    · rw [if_pos hskip] at h hafter
      exact ih h hafter
    · rw [if_neg hskip] at h hafter
      obtain ⟨next, hnext, hafter⟩ := bind_eq_ok.mp hafter
      exact ih (h.2 next hnext) hafter

/-- Frames both replays apply. -/
structure SameFrames (replayer other : Replayer) (frames : List ParsedFrame) : Prop where
  geometry_eq : other.geometry = replayer.geometry
  new : ∀ frame ∈ frames, ¬ frame.revision ≤ replayer.baseRevision
  new_other : ∀ frame ∈ frames, ¬ frame.revision ≤ other.baseRevision
  version_pos : ∀ frame ∈ frames, 0 < frame.schemaVersion

theorem SameFrames.tail {frame : ParsedFrame} (h : SameFrames replayer other (frame :: frames)) :
    SameFrames replayer other frames :=
  ⟨h.geometry_eq, fun later hlater => h.new later (mem_cons_of_mem _ hlater),
    fun later hlater => h.new_other later (mem_cons_of_mem _ hlater),
    fun later hlater => h.version_pos later (mem_cons_of_mem _ hlater)⟩

theorem currentState_congr (hgeometry : other.geometry = replayer.geometry)
    (hpos : 0 < state.version) : other.currentState state = replayer.currentState state := by
  rw [currentState, currentState, hgeometry,
    bringStateTo_presence hpos _ other.basePresence replayer.basePresence]

/-- Two replays of the same frames over the same state of some version go the same way. -/
theorem SameFrames.congr (h : SameFrames replayer other frames) (hpos : 0 < state.version) :
    (other.stateAfter state frames >>= other.currentState)
        = (replayer.stateAfter state frames >>= replayer.currentState)
      ∧ (replayer.MarksEmpty state frames → other.MarksEmpty state frames) := by
  induction frames generalizing state with
  | nil => exact ⟨currentState_congr h.geometry_eq hpos, fun _ => trivial⟩
  | cons frame frames ih =>
    have hframe : other.stateAfterFrame frame state = replayer.stateAfterFrame frame state := by
      rw [stateAfterFrame, stateAfterFrame, h.geometry_eq,
        bringStateTo_presence hpos _ other.basePresence replayer.basePresence]
    have hnext : ∀ {next}, replayer.stateAfterFrame frame state = .ok next → 0 < next.version :=
      fun hok => version_stateAfterFrame hok ▸ h.version_pos frame mem_cons_self
    rw [stateAfter, stateAfter, if_neg (h.new frame mem_cons_self),
      if_neg (h.new_other frame mem_cons_self), hframe, MarksEmpty, MarksEmpty,
      if_neg (h.new frame mem_cons_self), if_neg (h.new_other frame mem_cons_self),
      h.geometry_eq, hframe]
    constructor
    · cases hok : replayer.stateAfterFrame frame state with
      | error e => rfl
      | ok next => exact (ih h.tail (hnext hok)).1
    · rintro ⟨hmark, hrest⟩
      refine ⟨fun moved hmoved => ?_, fun next hok => (ih h.tail (hnext hok)).2 (hrest next hok)⟩
      rw [bringStateTo_presence hpos _ other.basePresence replayer.basePresence] at hmoved
      exact hmark moved hmoved

end Replayer

/-- Replay goes on from a state that was moved to a later version as it does from the state. -/
theorem Table.Sized.converges {replayer other : Replayer} {image : ReplayState}
    {frames : List ParsedFrame} (hsized : table.Sized state)
    (hgeometry : replayer.geometry = table.geometry)
    (hsame : Replayer.SameFrames replayer other frames)
    (hpresence : replayer.basePresence = List.replicate table.geometry.presenceBitmapBytes 0
      ∨ 0 < state.version) (hpos : 0 < version) (hlower : state.version ≤ version)
    (hle : version ≤ table.version) (hupper : ∀ frame ∈ frames, version ≤ frame.schemaVersion
      ∧ frame.schemaVersion ≤ table.version)
    (himage : ChunkDb.bringStateTo table.geometry replayer.basePresence version state = .ok image) :
    (other.stateAfter image frames >>= other.currentState)
        = (replayer.stateAfter state frames >>= replayer.currentState)
      ∧ (replayer.MarksEmpty state frames → other.MarksEmpty image frames) := by
  have hmove : ∀ later, version ≤ later → later ≤ table.version →
      ChunkDb.bringStateTo other.geometry other.basePresence later image
        = ChunkDb.bringStateTo replayer.geometry replayer.basePresence later state := by
    intro later hlow hhigh
    rw [hsame.geometry_eq, hgeometry]
    exact hsized.bringStateTo_trans hpresence hpos hlower hlow hhigh himage _
  cases frames with
  | nil =>
    refine ⟨?_, fun _ => trivial⟩
    change other.currentState image = replayer.currentState state
    have hcurrent : other.geometry.layout.schema.version = table.version := by
      rw [hsame.geometry_eq, hgeometry]
      rfl
    rw [currentState, currentState, hmove _ (hle.trans_eq hcurrent.symm)
      hcurrent.le, hsame.geometry_eq]
  | cons frame frames =>
    have hframe : other.stateAfterFrame frame image = replayer.stateAfterFrame frame state := by
      obtain ⟨hlow, hhigh⟩ := hupper frame mem_cons_self
      rw [stateAfterFrame, stateAfterFrame, hmove _ hlow hhigh]
    have hnext : ∀ {next}, replayer.stateAfterFrame frame state = .ok next → 0 < next.version :=
      fun hok => version_stateAfterFrame hok ▸ hsame.version_pos frame mem_cons_self
    rw [stateAfter, stateAfter, if_neg (hsame.new frame mem_cons_self),
      if_neg (hsame.new_other frame mem_cons_self), hframe, Replayer.MarksEmpty,
      Replayer.MarksEmpty, if_neg (hsame.new frame mem_cons_self),
      if_neg (hsame.new_other frame mem_cons_self), hframe]
    constructor
    · cases hok : replayer.stateAfterFrame frame state with
      | error e => rfl
      | ok next => exact (hsame.tail.congr (hnext hok)).1
    · rintro ⟨hmark, hrest⟩
      obtain ⟨hlow, hhigh⟩ := hupper frame mem_cons_self
      refine ⟨fun moved hmoved => ?_,
        fun next hok => (hsame.tail.congr (hnext hok)).2 (hrest next hok)⟩
      rw [hmove _ hlow hhigh] at hmoved
      rw [hsame.geometry_eq]
      exact hmark moved hmoved

/-- Frames that fit keep the size of the state. -/
theorem Table.Sized.stateAfter {replayer : Replayer} {after : ReplayState} (h : table.Sized state)
    (hgeometry : replayer.geometry = table.geometry)
    (hpresence : replayer.basePresence = List.replicate table.geometry.presenceBitmapBytes 0
      ∨ 0 < state.version) (frames : List FrameInput)
    (hwritten : ∀ input ∈ frames, input.Written table.geometry replayer.slotsEnabled)
    (hversions : (state.version :: frames.map (·.schemaVersion)).Pairwise (· ≤ ·))
    (hafter : replayer.stateAfter state (frames.map FrameInput.parsed) = .ok after) :
    table.Sized after ∧ (replayer.basePresence
      = List.replicate table.geometry.presenceBitmapBytes 0 ∨ 0 < after.version) := by
  induction frames generalizing state with
  | nil =>
    cases hafter
    exact ⟨h, hpresence⟩
  | cons input frames ih =>
    have hrest := fun later hlater => hwritten later (mem_cons_of_mem _ hlater)
    obtain ⟨hlow, htail⟩ := pairwise_cons.mp hversions
    rw [map_cons, stateAfter] at hafter
    by_cases hskip : input.parsed.revision ≤ replayer.baseRevision
    · rw [if_pos hskip] at hafter
      refine ih h hpresence hrest (pairwise_cons.mpr ⟨?_, (pairwise_cons.mp htail).2⟩) hafter
      exact fun v hv => hlow v (mem_cons_of_mem _ hv)
    · rw [if_neg hskip, bind_eq_ok] at hafter
      obtain ⟨next, hnext, hafter⟩ := hafter
      obtain ⟨layout, hfits⟩ := (hwritten input mem_cons_self).fits
      have hversion := version_stateAfterFrame hnext
      rw [stateAfterFrame, bind_eq_ok, hgeometry] at hnext
      obtain ⟨moved, hmoved, hnext⟩ := hnext
      have hsized := (h.bringStateTo hpresence hfits.version_pos hfits.version_le
        (hlow _ mem_cons_self) hmoved).applyFrame hfits (version_bringStateTo hmoved) hnext
      refine ih hsized (.inr (hversion ▸ hfits.version_pos)) hrest ?_ hafter
      rw [hversion]
      exact htail

theorem Table.sized_initialState {base : ReplayBase}
    (hempty : base.version = 0 → base.state.vars = SortedMap.empty)
    (h : initialState table.geometry base = .ok state) : table.Sized state := by
  rw [initialState, require_bind] at h
  obtain ⟨hle, h⟩ := h
  split at h
  · rename_i hzero
    rw [← Except.ok.inj h, hempty hzero]
    exact .none
  · rename_i hne
    obtain ⟨layout, hlayout, h⟩ := bind_eq_ok.mp h
    rw [require_bind] at h
    obtain ⟨⟨hpayload, hpresence⟩, h⟩ := h
    cases h
    obtain ⟨layout', hlayout'⟩ := table.exists_layout (Nat.pos_of_ne_zero hne) hle
    cases hlayout.symm.trans hlayout'.layoutAt_eq
    refine .some (Nat.pos_of_ne_zero hne) hle hlayout' ?_
    rw [ReplayState.of, length_append, hpayload, hpresence]

/-- Replay starts from an image as the state it holds. -/
theorem Table.Sized.initialState_image {image : ReplayState} (h : table.Sized image)
    (hpos : 0 < image.version) {layout : ChunkLayout}
    (hlayout : table.IsLayout image.version layout) (revision : ℕ) :
    initialState table.geometry ⟨revision, image.version, image.split layout.payloadBytes⟩
      = .ok image := by
  cases h with
  | none => exact absurd hpos (lt_irrefl 0)
  | some _ hle hlayout' hlength =>
    obtain rfl := hlayout.eq hlayout'
    have hversion : image.version ≤ table.geometry.layout.schema.version := hle
    have hsizes : (image.split layout.payloadBytes).payload.length = layout.payloadBytes
        ∧ (image.split layout.payloadBytes).presence.length
          = table.geometry.presenceBitmapBytes := by
      simp only [split, length_take, length_drop, hlength]
      omega
    rw [initialState, require_of hversion, ok_bind, if_neg hpos.ne', hlayout.layoutAt_eq,
      ok_bind, require_of hsizes, ok_bind, of_split]
    rfl

/-! ## Convergence -/

/-- The revision of the last frame, or the one before the frames. -/
def lastRevision (revision : ℕ) (frames : List FrameInput) : ℕ :=
  (frames.getLast?.map (·.revision.toNat)).getD revision

/-- The revision a loaded chunk has (`chunk_cache.cpp`): the last applied frame's, or the image's. -/
def loadedRevision (imageRevision : ℕ) (result : WalReplayResult) : ℕ :=
  if result.appliedFrames > 0 then result.revision else imageRevision

/-- What replay reports of frames of which the image holds the first ones. -/
def convergedResult (skipped applied : List FrameInput) (varsProblem : String) :
    WalReplayResult where
  appliedRecords := (applied.map (·.records.length)).sum
  appliedFrames := applied.length
  skippedFrames := skipped.length
  revision := lastRevision 0 applied
  commitTimeMs := (applied.getLast?.map (·.commitTimeMs.toNat)).getD 0
  replayable := true
  tornCreation := false
  tailTruncatedOrCorrupt := false
  stoppedAtCrashTail := false
  validEnd := kWalHeaderSize + (framesBytes (skipped ++ applied)).length
  stopReason := ""
  varsProblem

theorem lastRevision_append (revision : ℕ) (first second : List FrameInput) :
    lastRevision revision (first ++ second) = lastRevision (lastRevision revision first) second := by
  unfold lastRevision
  rw [getLast?_append]
  cases second.getLast? <;> rfl

/-- In a list of increasing revisions the last one is the highest. -/
theorem le_lastRevision {frames : List FrameInput}
    (h : (revision :: frames.map (·.revision.toNat)).Pairwise (· < ·)) :
    revision ≤ lastRevision revision frames
      ∧ ∀ input ∈ frames, input.revision.toNat ≤ lastRevision revision frames := by
  induction frames generalizing revision with
  | nil => exact ⟨le_rfl, nofun⟩
  | cons input frames ih =>
    obtain ⟨hfirst, hrest⟩ := pairwise_cons.mp h
    obtain ⟨hle, hall⟩ := ih hrest
    have hlast : lastRevision revision (input :: frames)
        = lastRevision input.revision.toNat frames := by
      have := lastRevision_append revision [input] frames
      rwa [singleton_append] at this
    rw [hlast]
    constructor
    · exact ((hfirst _ mem_cons_self).le).trans hle
    · intro other hother
      rcases mem_cons.mp hother with rfl | hother
      · exact hle
      · exact hall other hother

/-- The frames above an image that was taken after the first ones are the others. -/
theorem newFrames_lastRevision
    (h : (revision :: (first ++ second).map (·.revision.toNat)).Pairwise (· < ·)) :
    (∀ input ∈ first, input.revision.toNat ≤ lastRevision revision first)
      ∧ (lastRevision revision first :: second.map (·.revision.toNat)).Pairwise (· < ·) := by
  rw [map_append, ← cons_append] at h
  obtain ⟨hfirst, hsecond, hbetween⟩ := pairwise_append.mp h
  refine ⟨(le_lastRevision hfirst).2, pairwise_cons.mpr ⟨fun r hr => ?_, hsecond⟩⟩
  have hmem : lastRevision revision first ∈ revision :: first.map (·.revision.toNat) := by
    unfold lastRevision
    cases hlast : first.getLast? with
    | none => exact mem_cons_self
    | some input =>
      exact mem_cons_of_mem _ (mem_map_of_mem (mem_of_getLast? hlast))
  exact hbetween _ hmem _ hr

theorem newFrames_append (hfirst : ∀ input ∈ first, input.revision.toNat ≤ revision)
    (hsecond : (revision :: second.map (·.revision.toNat)).Pairwise (· < ·)) :
    newFrames revision ((first ++ second).map FrameInput.parsed)
      = second.map FrameInput.parsed := by
  have hnone : newFrames revision (first.map parsed) = [] := by
    refine filter_eq_nil_iff.mpr fun frame hframe => ?_
    obtain ⟨input, hinput, rfl⟩ := mem_map.mp hframe
    rw [decide_eq_true_eq, not_lt]
    exact hfirst input hinput
  rw [map_append, newFrames, filter_append, ← newFrames, ← newFrames, hnone,
    newFrames_eq_self hsecond, nil_append]

theorem passedResult_eq_convergedResult (hfirst : ∀ input ∈ first, input.revision.toNat ≤ revision)
    (hsecond : (revision :: second.map (·.revision.toNat)).Pairwise (· < ·)) :
    passedResult revision ((first ++ second).map FrameInput.parsed)
      = convergedResult first second "" := by
  rw [passedResult, newFrames_append hfirst hsecond, sum_size_parsed, map_map, length_map,
    length_map, length_append, Nat.add_sub_cancel, getLast?_map, Option.map_map, Option.map_map]
  rfl

theorem loadedRevision_convergedResult (revision : ℕ) (skipped applied : List FrameInput)
    (problem : String) :
    loadedRevision revision (convergedResult skipped applied problem)
      = lastRevision revision applied := by
  unfold loadedRevision convergedResult lastRevision
  cases applied with
  | nil => rfl
  | cons input applied =>
    rw [getLast?_cons]
    exact if_pos (Nat.succ_pos _)

/-- Replay of a whole file of written frames: the state after them in the current version, and
the report on them. -/
theorem replayWal_whole {geometry : Geometry} {features storeFeatures : FeatureFlags}
    {base : ReplayBase} (chunkCoord : ChunkCoord) (storeId : StoreId)
    (hfeatures : isSubsetOf features storeFeatures = true) (first second : List FrameInput)
    (hwritten : ∀ input ∈ first ++ second, input.Written geometry (slotsEnabled storeFeatures))
    (hfirst : ∀ input ∈ first, input.revision.toNat ≤ base.revision)
    (hsecond : (base.revision :: second.map (·.revision.toNat)).Pairwise (· < ·))
    (hincreasing : (0 :: (first ++ second).map (·.revision.toNat)).Pairwise (· < ·))
    (hstate : initialState geometry base = .ok state)
    (htakes : (Replayer.of geometry features storeFeatures base).TakesAll state
      ((first ++ second).map FrameInput.parsed)) :
    replayWal (buildWalHeader chunkCoord storeId features ++ framesBytes (first ++ second)) geometry
        chunkCoord storeId storeFeatures base
      = ((Replayer.of geometry features storeFeatures base).stateAfter state
            ((first ++ second).map FrameInput.parsed)
          >>= (Replayer.of geometry features storeFeatures base).currentState).map fun current =>
            ⟨convergedResult first second
                ((Replayer.of geometry features storeFeatures base).varsProblem current.vars
                  current.presence),
              current, ReplayProgress.boundariesFrom kWalHeaderSize
                ((first ++ second).map FrameInput.parsed)⟩ := by
  obtain ⟨reason, hreason, hreplay⟩ := replayWal_frames_torn chunkCoord storeId hfeatures
    (first ++ second) hwritten hincreasing hstate htakes (.inl rfl)
  obtain rfl := hreason rfl
  rw [append_nil] at hreplay
  have hresult : passedResult (of geometry features storeFeatures base).baseRevision
      ((first ++ second).map parsed) = convergedResult first second "" :=
    passedResult_eq_convergedResult hfirst hsecond
  rw [hreplay]
  cases (of geometry features storeFeatures base).stateAfter state
      ((first ++ second).map parsed) with
  | error e => rfl
  | ok after =>
    simp only [ok_bind, passed]
    cases (of geometry features storeFeatures base).currentState after with
    | error e => rfl
    | ok current =>
      rw [ok_bind, hresult]
      rfl

/-- Replay over the image of a checkpoint taken after the first frames, laid out by any version
from theirs to the next frame's, ends as replay over the base does. -/
theorem replayWal_checkpoint {table : Table} {features storeFeatures : FeatureFlags}
    {base : ReplayBase} (chunkCoord : ChunkCoord) (storeId : StoreId)
    (hfeatures : isSubsetOf features storeFeatures = true) (first second : List FrameInput)
    (hwritten : ∀ input ∈ first ++ second,
      input.Written table.geometry (slotsEnabled storeFeatures))
    (hrevisions : (base.revision :: (first ++ second).map (·.revision.toNat)).Pairwise (· < ·))
    (hversions : (base.version :: (first ++ second).map (·.schemaVersion)).Pairwise (· ≤ ·))
    (hempty : base.version = 0 → base.state.vars = SortedMap.empty
      ∧ base.state.presence = List.replicate table.geometry.presenceBitmapBytes 0)
    {start state image : ReplayState} (hstart : initialState table.geometry base = .ok start)
    (hmarks : (Replayer.of table.geometry features storeFeatures base).MarksEmpty start
      ((first ++ second).map FrameInput.parsed))
    (hstate : (Replayer.of table.geometry features storeFeatures base).stateAfter start
      (first.map FrameInput.parsed) = .ok state)
    {version : ℕ} {layout : ChunkLayout} (hpos : 0 < version) (hlower : state.version ≤ version)
    (hupper : ∀ input ∈ second, version ≤ input.schemaVersion) (hle : version ≤ table.version)
    (hlayout : table.IsLayout version layout)
    (himage : bringStateTo table.geometry base.state.presence version state = .ok image) :
    let wal := buildWalHeader chunkCoord storeId features ++ framesBytes (first ++ second)
    let replayer := Replayer.of table.geometry features storeFeatures base
    let checkpoint : ReplayBase :=
      ⟨lastRevision base.revision first, version, image.split layout.payloadBytes⟩
    let final := replayer.stateAfter start ((first ++ second).map parsed) >>= replayer.currentState
    let report (skipped applied : List FrameInput) (current : ChunkState) : Replayed :=
      ⟨convergedResult skipped applied (replayer.varsProblem current.vars current.presence),
        current, ReplayProgress.boundariesFrom kWalHeaderSize ((first ++ second).map parsed)⟩
    replayWal wal table.geometry chunkCoord storeId storeFeatures base
        = final.map (report [] (first ++ second))
      ∧ replayWal wal table.geometry chunkCoord storeId storeFeatures checkpoint
        = final.map (report first second)
      ∧ ∀ current, loadedRevision base.revision (report [] (first ++ second) current).result
          = max checkpoint.revision (lastRevision base.revision (first ++ second))
        ∧ loadedRevision checkpoint.revision (report first second current).result
          = max checkpoint.revision (lastRevision base.revision (first ++ second)) := by
  intro wal replayer checkpoint final report
  obtain ⟨hold, hnew⟩ := newFrames_lastRevision hrevisions
  obtain ⟨hfirst, hsecond⟩ : (base.version :: first.map (·.schemaVersion)).Pairwise (· ≤ ·)
      ∧ (second.map (·.schemaVersion)).Pairwise (· ≤ ·) := by
    rw [map_append, ← cons_append] at hversions
    obtain ⟨hfirst, hsecond, _⟩ := pairwise_append.mp hversions
    exact ⟨hfirst, hsecond⟩
  have hsecondFits : ∀ input ∈ second, 0 < input.schemaVersion
      ∧ input.schemaVersion ≤ table.version := by
    intro input hinput
    obtain ⟨_, hfits⟩ := (hwritten input (mem_append_right _ hinput)).fits
    exact ⟨hfits.version_pos, hfits.version_le⟩
  have hpresence : replayer.basePresence = List.replicate table.geometry.presenceBitmapBytes 0
      ∨ 0 < start.version := by
    rw [version_initialState hstart]
    rcases Nat.eq_zero_or_pos base.version with hzero | hver
    · exact .inl (hempty hzero).2
    · exact .inr hver
  -- the state the image is of, and what replay makes of both from there on
  obtain ⟨hsized, hpresence⟩ := (Table.sized_initialState (fun h => (hempty h).1) hstart).stateAfter
    rfl hpresence first (fun input hinput => hwritten input (mem_append_left _ hinput))
    (version_initialState hstart ▸ hfirst) hstate
  have hsame : Replayer.SameFrames replayer
      (of table.geometry features storeFeatures checkpoint)
      (second.map parsed) := by
    refine ⟨rfl, ?_, ?_, ?_⟩ <;> intro frame hframe <;>
      obtain ⟨input, hinput, rfl⟩ := mem_map.mp hframe
    · exact not_le.mpr ((pairwise_cons.mp hrevisions).1 _
        (mem_map_of_mem (mem_append_right _ hinput)))
    · exact not_le.mpr ((pairwise_cons.mp hnew).1 _ (mem_map_of_mem hinput))
    · exact (hsecondFits input hinput).1
  have hupper' : ∀ frame ∈ second.map parsed, version ≤ frame.schemaVersion
      ∧ frame.schemaVersion ≤ table.version := by
    intro frame hframe
    obtain ⟨input, hinput, rfl⟩ := mem_map.mp hframe
    exact ⟨hupper input hinput, (hsecondFits input hinput).2⟩
  obtain ⟨hfinal, hmarked⟩ := hsized.converges rfl hsame hpresence hpos hlower hle hupper' himage
  have hversion := version_bringStateTo himage
  have hskip : ∀ frame ∈ first.map parsed, frame.revision ≤ lastRevision base.revision first := by
    intro frame hframe
    obtain ⟨input, hinput, rfl⟩ := mem_map.mp hframe
    exact hold input hinput
  refine ⟨?_, ?_, fun current => ?_⟩
  · exact replayWal_whole chunkCoord storeId hfeatures [] (first ++ second) hwritten
      nofun hrevisions
      (pairwise_zero_of_cons hrevisions) hstart
      (takesAll_of_initialState hrevisions hversions hstart hmarks)
  · have hinitial : initialState table.geometry checkpoint = .ok image := by
      have := (hsized.bringStateTo hpresence hpos hle hlower himage).initialState_image
        (hversion ▸ hpos) (hversion ▸ hlayout) checkpoint.revision
      rwa [hversion] at this
    set other := of table.geometry features storeFeatures checkpoint
    have htakes : other.TakesAll image ((first ++ second).map parsed) := by
      refine .of_versions image _ ?_ ?_
      · have hframes : newFrames other.baseRevision ((first ++ second).map parsed)
            = second.map parsed := newFrames_append hold hnew
        rw [hframes, map_map, hversion]
        refine pairwise_cons.mpr ⟨fun v hv => ?_, hsecond⟩
        obtain ⟨input, hinput, rfl⟩ := mem_map.mp hv
        exact hupper input hinput
      · rw [map_append] at hmarks ⊢
        exact marksEmpty_skip hskip (hmarked (marksEmpty_append hmarks hstate))
    have hsteps : final = (other.stateAfter image ((first ++ second).map parsed)
        >>= other.currentState) := by
      have hreached : replayer.stateAfter start (first.map parsed) = .ok state := hstate
      have hskipped : other.stateAfter image (first.map parsed) = .ok image :=
        stateAfter_skip hskip
      simp only [final]
      rw [map_append, stateAfter_append, stateAfter_append, hreached, hskipped, ok_bind, ok_bind]
      exact hfinal.symm
    rw [hsteps]
    exact replayWal_whole chunkCoord storeId hfeatures first second hwritten hold hnew
      (pairwise_zero_of_cons hrevisions) hinitial htakes
  · have hle := (le_lastRevision hnew).1
    rw [loadedRevision_convergedResult, loadedRevision_convergedResult, ← lastRevision_append,
      lastRevision_append base.revision first second, max_eq_right hle]
    exact ⟨rfl, rfl⟩

/-- The values of a chunk with a note in the first cell. -/
def firstNote : ChunkVars := ⟨[(⟨2, 0⟩, List.replicate 60 0x2E)], keysAscending_singleton _⟩

/-- A checkpoint in version 2 after a frame of version 1: the frame is skipped. -/
theorem replayWal_checkpoint_levelFrame :
    (replayWal (buildWalHeader ⟨0, 0⟩ zeroStore ⟨0, 0, 0⟩ ++ framesBytes ([levelFrame 1] ++ []))
        smallShape.table.geometry ⟨0, 0⟩ zeroStore ⟨0, 0, 0⟩
        ⟨1, 2, ⟨[7, 0, 0, 0], [1], firstNote⟩⟩).map
          (fun replayed => (replayed.state, replayed.result.skippedFrames))
      = (replayWal (buildWalHeader ⟨0, 0⟩ zeroStore ⟨0, 0, 0⟩ ++ framesBytes ([levelFrame 1] ++ []))
          smallShape.table.geometry ⟨0, 0⟩ zeroStore ⟨0, 0, 0⟩ emptyBase).map
          (fun replayed => (replayed.state, 1)) := by
  have hframes : ∀ input ∈ [levelFrame 1] ++ [], input = levelFrame 1 := by
    simp
  have hstate : (of smallShape.table.geometry ⟨0, 0, 0⟩ ⟨0, 0, 0⟩ emptyBase).stateAfter
      (of 1 emptyBase.state) ([levelFrame 1].map parsed)
        = .ok ⟨1, [7, 0, 0, 0, 1], SortedMap.empty⟩ := by
    decide +kernel
  have himage : bringStateTo smallShape.table.geometry emptyBase.state.presence 2
      ⟨1, [7, 0, 0, 0, 1], SortedMap.empty⟩ = .ok ⟨2, [7, 0, 0, 0, 1], firstNote⟩ := by
    decide +kernel
  obtain ⟨hbase, hcheckpoint, _⟩ := replayWal_checkpoint ⟨0, 0⟩ zeroStore
    (show isSubsetOf ⟨0, 0, 0⟩ ⟨0, 0, 0⟩ = true by decide) [levelFrame 1] []
    (fun input hinput => hframes input hinput ▸ written_levelFrame _ _) (by decide) (by decide)
    (fun hzero => absurd hzero Nat.one_ne_zero) initialState_emptyBase
    (.of_not_gc _ _ (fun frame hframe => by
      obtain ⟨input, hinput, rfl⟩ := mem_map.mp hframe
      rw [hframes input hinput]
      rfl))
    hstate Nat.two_pos (by decide) nofun le_rfl
    smallShape.isLayout_two himage
  have hsplit : (⟨2, [7, 0, 0, 0, 1], firstNote⟩ : ReplayState).split
      smallShape.notedLayout.payloadBytes = ⟨[7, 0, 0, 0], [1], firstNote⟩ := rfl
  rw [hsplit] at hcheckpoint
  rw [hbase]
  refine (congrArg _ hcheckpoint).trans ?_
  rw [Fallible.map_map, Fallible.map_map]
  rfl

end ChunkDb
