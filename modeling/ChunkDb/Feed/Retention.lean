/-
# Feed archives and retention

What a table keeps for its slots: closed WAL segments, the images they start from, and
the current WALs.  A checkpoint moves a WAL into the archive (`PrepareArchive`,
`CheckpointChunk`) and `Retain` removes what no slot needs.  Both hold the checkpoint
publish lock, so the system is in at most one of them; their file operations are single
steps, and either may fail between any two of them.

Slot operations that take neither the publish lock nor the exclusive table run beside a
checkpoint.  `Retain` holds the lock of the records, so none runs beside it.
-/
import ChunkDb.Feed.SlotsSpec
import ChunkDb.VersionClock

open Relation List Function

namespace ChunkDb

/-! ## Files -/

/-- What the archive reads of a WAL frame: its revision and its size. -/
structure ArchivedFrame where
  revision : ℕ
  bytes : ℕ
  deriving DecidableEq

/-- The current WAL of a chunk: its whole frames, and whether a cut one follows. -/
structure LiveWal where
  frames : List ArchivedFrame
  torn : Bool

/-- A closed WAL range `C_<cx>_<cy>.<first>-<last>.wal`. -/
structure Segment where
  coord : ChunkCoord
  first : ℕ
  last : ℕ
  frames : List ArchivedFrame
  first_le : first ≤ last
  revision_le : ∀ frame ∈ frames, frame.revision ≤ last

/-- A base image `C_<cx>_<cy>.<first>.chk`: the chunk before the frame `first`. -/
structure BaseImage where
  coord : ChunkCoord
  first : ℕ
  revision : ℕ
  bytes : ℕ
  revision_lt : revision < first

/-- The part of a file name that a segment and its base share. -/
def Segment.stem (segment : Segment) : ChunkCoord × ℕ := (segment.coord, segment.first)

def BaseImage.stem (base : BaseImage) : ChunkCoord × ℕ := (base.coord, base.first)

/-- The file name of a segment. -/
def Segment.name (segment : Segment) : ChunkCoord × ℕ × ℕ :=
  (segment.coord, segment.first, segment.last)

/-- Who holds the publish lock, and how far it is. -/
inductive PublishHolder
  | free
  /-- a checkpoint has read whether an archive is required -/
  | checkpointing (coord : ChunkCoord) (archive : Bool)
  /-- the base is linked; the WAL is to be moved to `target`, or removed -/
  | prepared (coord : ChunkCoord) (archive : Bool) (target : Option Segment)
  /-- the new image is in place -/
  | published (coord : ChunkCoord) (archive : Bool) (target : Option Segment)
  /-- `Retain` removes segments; the base of the one just removed comes next -/
  | removing (minimum : ℕ) (base : Option (ChunkCoord × ℕ))
  /-- `Retain` removes bases without a segment -/
  | sweeping (minimum : ℕ)

/-- A store with slots: the slots, the number of pinned readers, and the files. -/
structure ArchiveStore where
  trace : SlotTrace
  readers : ℕ
  wal : ChunkCoord → Option LiveWal
  image : ChunkCoord → Option (ℕ × ℕ)
  segments : List Segment
  bases : List BaseImage
  holder : PublishHolder

/-- The slots in `chunkdb.slots`. -/
abbrev ArchiveStore.durableSlots (s : ArchiveStore) : List FeedSlotRecord :=
  s.trace.state.file.slots

/-- `ArchiveRequired`. -/
def ArchiveStore.archiveRequired (s : ArchiveStore) : Bool :=
  s.trace.state.active || s.readers != 0

/-! ## `PrepareArchive` -/

/-- The loop of `PrepareArchive` over the frames, with the range so far. -/
def walRangeLoop : ℕ → ℕ → List ArchivedFrame → Fallible (ℕ × ℕ)
  | first, last, [] => .ok (first, last)
  | first, last, frame :: frames =>
    if frame.revision ≤ last then runtimeError "archive WAL revisions do not increase"
    else walRangeLoop (if first = 0 then frame.revision else first) frame.revision frames

/-- The range of a WAL; `(0, 0)` when it has no frames. -/
def walRange (wal : LiveWal) : Fallible (ℕ × ℕ) := do
  let range ← walRangeLoop 0 0 wal.frames
  require (wal.torn = false) ⟨.runtimeError, "partial WAL cannot be archived"⟩
  return range

theorem walRangeLoop_spec {frames : List ArchivedFrame} :
    ∀ {first last first' last' : ℕ}, walRangeLoop first last frames = .ok (first', last') →
      first ≤ last → (last = 0 → first = 0) →
      first' ≤ last' ∧ last ≤ last' ∧ (∀ frame ∈ frames, frame.revision ≤ last') ∧
        (first' = 0 → first = 0 ∧ frames = []) := by
  induction frames with
  | nil =>
    intro first last first' last' h hle _
    cases h
    exact ⟨hle, le_rfl, by simp, fun h => ⟨h, rfl⟩⟩
  | cons frame frames ih =>
    intro first last first' last' h hle hzero
    unfold walRangeLoop at h
    split at h
    · exact nomatch h
    next hlt =>
    have hlt : last < frame.revision := not_le.1 hlt
    have hfirst : (if first = 0 then frame.revision else first) ≠ 0 := by
      split
      · omega
      · assumption
    obtain ⟨hle', hlast, hframes, hset⟩ := ih h (by split <;> omega) (fun h => by omega)
    refine ⟨hle', by omega, ?_, fun h0 => absurd (hset h0).1 hfirst⟩
    rintro other (_ | ⟨_, hother⟩)
    · exact hlast
    · exact hframes other hother

theorem walRange_spec {wal : LiveWal} {first last : ℕ} (h : walRange wal = .ok (first, last)) :
    first ≤ last ∧ (∀ frame ∈ wal.frames, frame.revision ≤ last) ∧
      (first = 0 → wal.frames = []) := by
  unfold walRange at h
  obtain ⟨range, hrange, h⟩ := bind_eq_ok.1 h
  obtain ⟨-, h⟩ := check_bind_eq_ok.1 h
  cases h
  obtain ⟨hle, -, hframes, hset⟩ := walRangeLoop_spec hrange le_rfl fun _ => rfl
  exact ⟨hle, hframes, fun h => (hset h).2⟩

/-- The base `PrepareArchive` links: the image, when none is linked and the image does not
contain the WAL already. -/
def ArchiveStore.linkBase (s : ArchiveStore) (coord : ChunkCoord) (first : ℕ) : List BaseImage :=
  if s.bases.any fun base => base.stem = (coord, first) then s.bases
  else match s.image coord with
    | none => s.bases
    | some (revision, bytes) =>
      if h : revision < first then ⟨coord, first, revision, bytes, h⟩ :: s.bases else s.bases

/-- `PrepareArchive`: the bases after it and the segment the WAL is to become, if it has
frames. -/
def ArchiveStore.prepareArchive (s : ArchiveStore) (coord : ChunkCoord) :
    Fallible (List BaseImage × Option Segment) :=
  match s.wal coord with
  | none => .ok (s.bases, none)
  | some wal =>
    match h : walRange wal with
    | .error e => .error e
    | .ok (first, last) =>
      if first = 0 then .ok (s.bases, none)
      else .ok (s.linkBase coord first,
        some ⟨coord, first, last, wal.frames, (walRange_spec h).1, (walRange_spec h).2.1⟩)

/-! ## Retention -/

/-- Bytes are counted in 64 bits and stop at the top. -/
def addBytes (bytes more : ℕ) : ℕ := min (bytes + more) kMaxUInt64

/-- The size of a segment with its base. -/
def ArchiveStore.segmentBytes (s : ArchiveStore) (segment : Segment) : ℕ :=
  (segment.frames.map ArchivedFrame.bytes).sum +
    (s.bases.find? fun base => base.stem = segment.stem).elim 0 BaseImage.bytes

/-- A base without a segment, which a current WAL may still need. -/
def ArchiveStore.pendingBase (s : ArchiveStore) (base : BaseImage) : Bool :=
  (s.segments.all fun segment => segment.stem ≠ base.stem) && (s.wal base.coord).isSome

/-- `RetainedBytes` for one position. -/
def ArchiveStore.retainedBytes (s : ArchiveStore) (written : ℕ) : ℕ :=
  (s.segments.filter fun segment => written < segment.last).foldl
    (fun bytes segment => addBytes bytes (s.segmentBytes segment))
    ((s.bases.filter s.pendingBase).foldl (fun bytes base => addBytes bytes base.bytes) 0)

/-- The lowest position of a slot that is not lost. -/
def FeedSlotRecords.minimum (records : FeedSlotRecords) : ℕ :=
  records.slots.foldl
    (fun minimum slot => if slot.lost then minimum else min minimum slot.written) kMaxUInt64

theorem minimum_foldl_le {slots : List FeedSlotRecord} :
    ∀ {start : ℕ}, slots.foldl
        (fun minimum slot => if slot.lost then minimum else min minimum slot.written) start ≤ start ∧
      ∀ slot ∈ slots, slot.lost = false → slots.foldl
        (fun minimum slot => if slot.lost then minimum else min minimum slot.written) start ≤
          slot.written := by
  induction slots with
  | nil => exact fun {start} => ⟨le_rfl, by simp⟩
  | cons slot slots ih =>
    intro start
    rw [foldl_cons]
    refine ⟨ih.1.trans ?_, ?_⟩
    · split
      · exact le_rfl
      · exact min_le_left _ _
    · rintro other (_ | ⟨_, hother⟩) hlost
      · rw [hlost]
        exact ih.1.trans (min_le_right _ _)
      · exact ih.2 other hother hlost

theorem FeedSlotRecords.minimum_le {records : FeedSlotRecords} {slot : FeedSlotRecord}
    (hmem : slot ∈ records.slots) (hlost : slot.lost = false) : records.minimum ≤ slot.written :=
  minimum_foldl_le.2 slot hmem hlost

/-! ## Steps -/

/-- Whether a slot operation may run beside the holder of the publish lock.  `Retain` takes
the lock itself and is made of its own steps. -/
def PublishHolder.Allows : PublishHolder → SlotOp → Prop
  | _, .retain .. => False
  | .free, _ => True
  | .removing .., _ => False
  | .sweeping .., _ => False
  | _, .create .. => False
  | _, _ => True

/-- Whether a checkpoint holds the lock of a chunk. -/
def PublishHolder.Holds : PublishHolder → ChunkCoord → Prop
  | .checkpointing coord _, c => c = coord
  | .prepared coord _ _, c => c = coord
  | .published coord _ _, c => c = coord
  | _, _ => False

/-- One step of a store with slots. -/
inductive ArchiveStep : ArchiveStore → ArchiveStore → Prop
  /-- an operation on the slots -/
  | slotOp (s : ArchiveStore) (op : SlotOp) (hallow : s.holder.Allows op) :
      ArchiveStep s { s with trace := s.trace.apply op }
  /-- another part of the store fails closed -/
  | poison (s : ArchiveStore) :
      ArchiveStep s { s with trace := s.trace.put { s.trace.state with poisoned := true } }
  | pin (s : ArchiveStore) (hfree : s.holder = .free) :
      ArchiveStep s { s with readers := s.readers + 1 }
  | unpin (s : ArchiveStore) : ArchiveStep s { s with readers := s.readers - 1 }
  /-- frames are appended to a WAL, perhaps with a cut one -/
  | append (s : ArchiveStore) (coord : ChunkCoord) (frames : List ArchivedFrame) (torn : Bool)
      (hnot : ¬s.holder.Holds coord) :
      ArchiveStep s { s with
        wal := update s.wal coord (some ⟨(s.wal coord).elim [] LiveWal.frames ++ frames, torn⟩) }
  /-- `CheckpointChunk` reads whether an archive is required -/
  | checkpoint (s : ArchiveStore) (coord : ChunkCoord) (hfree : s.holder = .free)
      (hok : s.trace.state.poisoned = false) :
      ArchiveStep s { s with holder := .checkpointing coord s.archiveRequired }
  | prepare (s : ArchiveStore) (coord : ChunkCoord) (bases : List BaseImage)
      (target : Option Segment) (hholder : s.holder = .checkpointing coord true)
      (hprepare : s.prepareArchive coord = .ok (bases, target)) :
      ArchiveStep s { s with bases := bases, holder := .prepared coord true target }
  | skip (s : ArchiveStore) (coord : ChunkCoord) (hholder : s.holder = .checkpointing coord false) :
      ArchiveStep s { s with holder := .prepared coord false none }
  /-- the image is replaced, or removed when the chunk is empty -/
  | publish (s : ArchiveStore) (coord : ChunkCoord) (archive : Bool) (target : Option Segment)
      (image : Option (ℕ × ℕ)) (hholder : s.holder = .prepared coord archive target) :
      ArchiveStep s { s with
        image := update s.image coord image, holder := .published coord archive target }
  /-- `MovePathNoReplace` -/
  | moveWal (s : ArchiveStore) (coord : ChunkCoord) (archive : Bool) (segment : Segment)
      (hholder : s.holder = .published coord archive (some segment))
      (hnew : ∀ other ∈ s.segments, other.name ≠ segment.name) :
      ArchiveStep s { s with
        segments := segment :: s.segments, wal := update s.wal coord none
        holder := .free }
  | removeWal (s : ArchiveStore) (coord : ChunkCoord) (archive : Bool)
      (hholder : s.holder = .published coord archive none) :
      ArchiveStep s { s with wal := update s.wal coord none, holder := .free }
  /-- `Retain` marks the slots beyond the limit and fails, or leaves because of readers -/
  | retainStop (s : ArchiveStore) (outcome : PersistOutcome) (hfree : s.holder = .free) :
      ArchiveStep s { s with trace := s.trace.apply (.retain s.retainedBytes outcome) }
  /-- `Retain` goes on to remove files -/
  | retain (s : ArchiveStore) (outcome : PersistOutcome) (hfree : s.holder = .free)
      (hok : ((SlotOp.retain s.retainedBytes outcome).run s.trace.state).2 = none)
      (hreaders : s.readers = 0) :
      ArchiveStep s { s with
        trace := s.trace.apply (.retain s.retainedBytes outcome)
        holder := .removing
          (s.trace.apply (.retain s.retainedBytes outcome)).state.records.minimum none }
  | removeSegment (s : ArchiveStore) (minimum : ℕ) (segment : Segment)
      (hholder : s.holder = .removing minimum none) (hmem : segment ∈ s.segments)
      (hle : segment.last ≤ minimum) :
      ArchiveStep s { s with
        segments := s.segments.filter fun other => other.name ≠ segment.name
        holder := .removing minimum (some segment.stem) }
  | removeSegmentBase (s : ArchiveStore) (minimum : ℕ) (stem : ChunkCoord × ℕ)
      (hholder : s.holder = .removing minimum (some stem)) :
      ArchiveStep s { s with
        bases := s.bases.filter fun base => base.stem ≠ stem
        holder := .removing minimum none }
  | sweep (s : ArchiveStore) (minimum : ℕ) (hholder : s.holder = .removing minimum none) :
      ArchiveStep s { s with holder := .sweeping minimum }
  | removeBase (s : ArchiveStore) (minimum : ℕ) (base : BaseImage)
      (hholder : s.holder = .sweeping minimum) (hmem : base ∈ s.bases) (hle : base.first ≤ minimum)
      (hsegment : ∀ segment ∈ s.segments, segment.stem ≠ base.stem)
      (hwal : s.wal base.coord = none) :
      ArchiveStep s { s with bases := s.bases.filter fun other => other.stem ≠ base.stem }
  /-- the holder is done, or throws and leaves what it did -/
  | release (s : ArchiveStore) : ArchiveStep s { s with holder := .free }

/-! ## What a step removes -/

/-- A change of version `v` that the files held before a step and do not after it. -/
inductive ArchiveStore.Removes (s s' : ArchiveStore) (v : ℕ) : Prop
  | segment (segment : Segment) (frame : ArchivedFrame) (hmem : segment ∈ s.segments)
      (hnot : segment ∉ s'.segments) (hframe : frame ∈ segment.frames) (hv : frame.revision = v)
  | base (base : BaseImage) (hmem : base ∈ s.bases) (hnot : base ∉ s'.bases)
      (hv : v ≤ base.revision)
  | wal (coord : ChunkCoord) (wal : LiveWal) (frame : ArchivedFrame)
      (hmem : s.wal coord = some wal) (hframe : frame ∈ wal.frames) (hv : frame.revision = v)
      (hnot : ∀ wal', s'.wal coord = some wal' → frame ∉ wal'.frames)
      (hmoved : ∀ segment ∈ s'.segments, segment.coord = coord → frame ∉ segment.frames)

/-- No slot in the file needs history any more. -/
def ArchiveStore.AllLost (s : ArchiveStore) : Prop := ∀ slot ∈ s.durableSlots, slot.lost = true

/-- No slot in the file is behind a position. -/
def ArchiveStore.Passed (s : ArchiveStore) (position : ℕ) : Prop :=
  ∀ slot ∈ s.durableSlots, slot.lost = false → position ≤ slot.written

/-- What a checkpoint knows once it has its target: the segment is the current WAL, and
there is none only for a WAL without frames or where no slot needs history. -/
def ArchiveStore.TargetFits (s : ArchiveStore) (coord : ChunkCoord) (archive : Bool) :
    Option Segment → Prop
  | some segment =>
    segment.coord = coord ∧ ∃ wal, s.wal coord = some wal ∧ wal.frames = segment.frames
  | none => archive = true → ∀ wal, s.wal coord = some wal → wal.frames = []

/-- What the holder of the publish lock relies on. -/
def ArchiveStore.HolderFits (s : ArchiveStore) : PublishHolder → Prop
  | .free => True
  | .checkpointing _ archive => archive = false → s.AllLost
  | .prepared coord archive target =>
    (archive = false → s.AllLost) ∧ s.TargetFits coord archive target
  | .published coord archive target =>
    (archive = false → s.AllLost) ∧ s.TargetFits coord archive target
  | .removing minimum base => s.Passed minimum ∧ ∀ stem ∈ base, stem.2 ≤ minimum
  | .sweeping minimum => s.Passed minimum

/-- The invariant of the store. -/
structure ArchiveStore.Inv (s : ArchiveStore) : Prop where
  trace : s.trace.Inv
  holder : s.HolderFits s.holder

/-- A slot operation beside a checkpoint gives no slot a new need. -/
theorem SlotTrace.Inv.allLost_apply {t : SlotTrace} (hinv : t.Inv) {op : SlotOp}
    (hop : op.isCreate = false) (hlost : ∀ slot ∈ t.state.file.slots, slot.lost = true) :
    ∀ slot ∈ (t.apply op).state.file.slots, slot.lost = true := by
  intro b hb
  have hlater := ((apply_path hinv op).spec hinv).2
  have hgen := hinv.generation_apply hop
  have hname : b.name ∈ t.state.file.slots.map FeedSlotRecord.name := by
    by_contra hnot
    have hlt := hlater.file.fresh b hb hnot
    rw [hgen] at hlt
    exact lt_irrefl _ hlt
  obtain ⟨a, ha, hab⟩ := mem_map.1 hname
  exact (hlater.file.slot_le a ha b hb hab.symm (congrFun hgen a.name)).lost (hlost a ha)

theorem PublishHolder.Allows.isCreate {holder : PublishHolder} {op : SlotOp}
    (h : holder.Allows op) (hholder : holder ≠ .free) : op.isCreate = false := by
  cases op with
  | create =>
    cases holder with
    | free => exact absurd rfl hholder
    | _ => exact h.elim
  | _ => rfl

variable {s s' : ArchiveStore} {coord : ChunkCoord} {target : Option Segment} {v : ℕ}

/-- The current WAL of a checkpoint is not appended to. -/
theorem ArchiveStore.TargetFits.congr {archive : Bool} (h : s.TargetFits coord archive target)
    (hwal : s'.wal coord = s.wal coord) : s'.TargetFits coord archive target := by
  cases target with
  | none => exact fun ha wal hw => h ha wal (hwal ▸ hw)
  | some segment =>
    obtain ⟨hcoord, wal, hw, hframes⟩ := h
    exact ⟨hcoord, wal, hwal.trans hw, hframes⟩

theorem ArchiveStore.targetFits_prepareArchive {bases : List BaseImage}
    (h : s.prepareArchive coord = .ok (bases, target)) : s.TargetFits coord true target := by
  unfold ArchiveStore.prepareArchive at h
  split at h
  · next hwal =>
    cases h
    exact fun _ wal hw => nomatch hwal.symm.trans hw
  · next wal hwal =>
    split at h
    · exact nomatch h
    next first last hrange =>
    split at h
    · next hzero =>
      cases h
      intro _ wal' hw
      cases hwal.symm.trans hw
      exact (walRange_spec hrange).2.2 hzero
    · cases h
      exact ⟨rfl, wal, hwal, rfl⟩

/-- What depends only on the slots and the current WALs. -/
theorem ArchiveStore.HolderFits.congr {holder : PublishHolder} (h : s.HolderFits holder)
    (hslots : s'.durableSlots = s.durableSlots)
    (hwal : ∀ coord, holder.Holds coord → s'.wal coord = s.wal coord) : s'.HolderFits holder := by
  have hlost : s.AllLost → s'.AllLost := fun h slot hslot => h slot (hslots ▸ hslot)
  have hpassed : ∀ {position}, s.Passed position → s'.Passed position :=
    fun h slot hslot => h slot (hslots ▸ hslot)
  cases holder with
  | free => exact trivial
  | checkpointing coord archive => exact fun ha => hlost (h ha)
  | prepared coord archive target =>
    exact ⟨fun ha => hlost (h.1 ha), h.2.congr (hwal coord rfl)⟩
  | published coord archive target =>
    exact ⟨fun ha => hlost (h.1 ha), h.2.congr (hwal coord rfl)⟩
  | removing minimum base => exact ⟨hpassed h.1, h.2⟩
  | sweeping minimum => exact hpassed h

/-- A `Retain` that does not throw leaves the store serving. -/
theorem SlotsState.markLost_ok {s : SlotsState} {retainedBytes : ℕ → ℕ} {outcome : PersistOutcome}
    (h : ((SlotOp.retain retainedBytes outcome).run s).2 = none) :
    ((SlotOp.retain retainedBytes outcome).run s).1.poisoned = false := by
  change (s.markLost retainedBytes outcome).done.2 = none at h
  change (s.markLost retainedBytes outcome).1.poisoned = false
  unfold SlotsState.markLost at h ⊢
  split at h
  · exact nomatch h
  next hok =>
  have hok : s.poisoned = false := Bool.not_eq_true _ ▸ hok
  rw [if_neg (by simp [hok])]
  dsimp only at h ⊢
  split at h
  · next hempty => rwa [if_pos hempty]
  · next hempty =>
    rw [if_neg hempty]
    rcases s.persist_cases
        { s.records with slots := s.records.slots.map (s.giveUp retainedBytes) } outcome with
      ⟨e, hs⟩ | ⟨b, hvalid, e, hs⟩ | ⟨b, hvalid, hs⟩
    · rw [hs] at h
      exact nomatch h
    · rw [hs] at h
      exact nomatch h
    · rw [hs]
      exact hok

theorem ArchiveStep.trace_spec (h : ArchiveStep s s') (hinv : s.trace.Inv) :
    s'.trace.Inv ∧ s.trace.Later s'.trace := by
  have hrefl : s.trace.Path s.trace := .refl
  cases h with
  | slotOp op hallow => exact (SlotTrace.apply_path hinv op).spec hinv
  | poison =>
    have hpath : s.trace.Path _ := .single (.poison s.trace)
    exact hpath.spec hinv
  | retainStop outcome hfree => exact (SlotTrace.apply_path hinv _).spec hinv
  | retain outcome hfree hok hreaders => exact (SlotTrace.apply_path hinv _).spec hinv
  | _ => exact hrefl.spec hinv

theorem ArchiveStep.inv (h : ArchiveStep s s') (hinv : s.Inv) : s'.Inv := by
  refine ⟨(h.trace_spec hinv.trace).1, ?_⟩
  have hholder := hinv.holder
  cases h with
  | slotOp op hallow =>
    have hlost : s.holder ≠ .free → s.AllLost →
        ArchiveStore.AllLost { s with trace := s.trace.apply op } :=
      fun hne => hinv.trace.allLost_apply (hallow.isCreate hne)
    change ArchiveStore.HolderFits _ s.holder
    cases hs : s.holder with
    | free => exact trivial
    | checkpointing coord archive =>
      rw [hs] at hholder hlost
      exact fun ha => hlost (by simp) (hholder ha)
    | prepared coord archive target =>
      rw [hs] at hholder hlost
      exact ⟨fun ha => hlost (by simp) (hholder.1 ha), hholder.2.congr rfl⟩
    | published coord archive target =>
      rw [hs] at hholder hlost
      exact ⟨fun ha => hlost (by simp) (hholder.1 ha), hholder.2.congr rfl⟩
    | removing minimum base =>
      rw [hs] at hallow
      cases op <;> exact hallow.elim
    | sweeping minimum =>
      rw [hs] at hallow
      cases op <;> exact hallow.elim
  | poison => exact hholder.congr rfl fun _ _ => rfl
  | pin hfree => exact hholder.congr rfl fun _ _ => rfl
  | unpin => exact hholder.congr rfl fun _ _ => rfl
  | append coord frames torn hnot =>
    refine hholder.congr rfl fun c hc => ?_
    have hne : c ≠ coord := by
      rintro rfl
      exact hnot hc
    exact update_of_ne hne ..
  | checkpoint coord hfree hok =>
    intro harchive
    have hactive : s.trace.state.active = false := (Bool.or_eq_false_iff.1 harchive).1
    exact hinv.trace.active_spec hactive
  | prepare coord bases target hs hprepare =>
    exact ⟨nofun, (ArchiveStore.targetFits_prepareArchive hprepare).congr rfl⟩
  | skip coord hs =>
    rw [hs] at hholder
    exact ⟨hholder, nofun⟩
  | publish coord archive target image hs =>
    rw [hs] at hholder
    exact ⟨hholder.1, hholder.2.congr rfl⟩
  | moveWal coord archive segment hs hnew => exact trivial
  | removeWal coord archive hs => exact trivial
  | retainStop outcome hfree =>
    change ArchiveStore.HolderFits _ s.holder
    rw [hfree]
    exact trivial
  | retain outcome hfree hok hreaders =>
    refine ⟨fun slot hslot hlost => ?_, nofun⟩
    -- the marks are in the file, so the file has the slots the minimum is over
    have hnext := ((SlotTrace.apply_path hinv.trace
      (.retain s.retainedBytes outcome)).spec hinv.trace).1
    refine FeedSlotRecords.minimum_le ?_ hlost
    change slot ∈ (s.trace.apply (.retain s.retainedBytes outcome)).slots
    rw [hnext.agree (SlotsState.markLost_ok hok)]
    exact hslot
  | removeSegment minimum segment hs hmem hle =>
    rw [hs] at hholder
    refine ⟨hholder.1, fun stem hstem => ?_⟩
    cases hstem
    exact segment.first_le.trans hle
  | removeSegmentBase minimum stem hs =>
    rw [hs] at hholder
    exact ⟨hholder.1, nofun⟩
  | sweep minimum hs =>
    rw [hs] at hholder
    exact hholder.1
  | removeBase minimum base hs hmem hle hsegment hwal => exact hholder.congr rfl fun _ _ => rfl
  | release => exact trivial

/-! ## Safety -/

/-- A step that keeps every file removes nothing. -/
theorem ArchiveStore.Removes.elim_kept (h : s.Removes s' v)
    (hsegments : ∀ segment ∈ s.segments, segment ∈ s'.segments)
    (hbases : ∀ base ∈ s.bases, base ∈ s'.bases)
    (hwal : ∀ coord wal, s.wal coord = some wal → ∀ frame ∈ wal.frames,
      (∃ wal', s'.wal coord = some wal' ∧ frame ∈ wal'.frames) ∨
        ∃ segment ∈ s'.segments, segment.coord = coord ∧ frame ∈ segment.frames) : False := by
  cases h with
  | segment segment frame hmem hnot hframe hv => exact hnot (hsegments segment hmem)
  | base base hmem hnot hv => exact hnot (hbases base hmem)
  | wal coord wal frame hmem hframe hv hnot hmoved =>
    rcases hwal coord wal hmem frame hframe with ⟨wal', hw, hf⟩ | ⟨segment, hs, hcoord, hf⟩
    · exact hnot wal' hw hf
    · exact hmoved segment hs hcoord hf

/-- A step that touches only slots, readers, images and who holds the lock. -/
theorem ArchiveStore.Removes.elim_same (h : s.Removes s' v) (hsegments : s'.segments = s.segments)
    (hbases : s'.bases = s.bases) (hwal : s'.wal = s.wal) : False :=
  h.elim_kept (fun _ h => hsegments ▸ h) (fun _ h => hbases ▸ h) fun coord wal hw _ hf =>
    .inl ⟨wal, (congrFun hwal coord).trans hw, hf⟩

theorem ArchiveStore.mem_linkBase {first : ℕ} {base : BaseImage} (h : base ∈ s.bases) :
    base ∈ s.linkBase coord first := by
  unfold ArchiveStore.linkBase
  split
  · exact h
  split
  · exact h
  split
  · exact mem_cons_of_mem _ h
  · exact h

theorem ArchiveStore.mem_prepareArchive {bases : List BaseImage}
    (h : s.prepareArchive coord = .ok (bases, target)) {base : BaseImage} (hmem : base ∈ s.bases) :
    base ∈ bases := by
  unfold ArchiveStore.prepareArchive at h
  split at h
  · cases h
    exact hmem
  split at h
  · exact nomatch h
  split at h
  · cases h
    exact hmem
  · cases h
    exact s.mem_linkBase hmem

/-- Whatever a step removes is at or below the position of every slot in the file that is
not lost. -/
theorem ArchiveStep.safe (h : ArchiveStep s s') (hinv : s.Inv) (hremoves : s.Removes s' v) :
    s.Passed v := by
  have hholder := hinv.holder
  cases h with
  | slotOp op hallow => exact (hremoves.elim_same rfl rfl rfl).elim
  | poison => exact (hremoves.elim_same rfl rfl rfl).elim
  | pin hfree => exact (hremoves.elim_same rfl rfl rfl).elim
  | unpin => exact (hremoves.elim_same rfl rfl rfl).elim
  | checkpoint coord hfree hok => exact (hremoves.elim_same rfl rfl rfl).elim
  | skip coord hs => exact (hremoves.elim_same rfl rfl rfl).elim
  | publish coord archive target image hs => exact (hremoves.elim_same rfl rfl rfl).elim
  | retainStop outcome hfree => exact (hremoves.elim_same rfl rfl rfl).elim
  | retain outcome hfree hok hreaders => exact (hremoves.elim_same rfl rfl rfl).elim
  | sweep minimum hs => exact (hremoves.elim_same rfl rfl rfl).elim
  | release => exact (hremoves.elim_same rfl rfl rfl).elim
  | prepare coord bases target hs hprepare =>
    refine (hremoves.elim_kept (fun _ h => h)
      (fun _ h => ArchiveStore.mem_prepareArchive hprepare h) ?_).elim
    exact fun _ wal hw _ hf => .inl ⟨wal, hw, hf⟩
  | append coord frames torn hnot =>
    refine (hremoves.elim_kept (fun _ h => h) (fun _ h => h) ?_).elim
    intro c wal hw frame hf
    rcases eq_or_ne c coord with rfl | hne
    · refine .inl ⟨_, update_self .., ?_⟩
      rw [hw]
      exact mem_append_left _ hf
    · exact .inl ⟨wal, (update_of_ne hne ..).trans hw, hf⟩
  | moveWal coord archive segment hs hnew =>
    rw [hs] at hholder
    obtain ⟨hcoord, wal, hwal, hframes⟩ := hholder.2
    refine (hremoves.elim_kept (fun _ h => mem_cons_of_mem _ h) (fun _ h => h) ?_).elim
    intro c wal' hw frame hf
    rcases eq_or_ne c coord with rfl | hne
    · cases hwal.symm.trans hw
      exact .inr ⟨segment, mem_cons_self, hcoord, hframes ▸ hf⟩
    · exact .inl ⟨wal', (update_of_ne hne ..).trans hw, hf⟩
  | removeWal coord archive hs =>
    rw [hs] at hholder
    cases archive with
    | false =>
      intro slot hslot hlost
      have := hholder.1 rfl slot hslot
      rw [hlost] at this
      exact nomatch this
    | true =>
      refine (hremoves.elim_kept (fun _ h => h) (fun _ h => h) ?_).elim
      intro c wal hw frame hf
      rcases eq_or_ne c coord with rfl | hne
      · rw [hholder.2 rfl wal hw] at hf
        exact nomatch hf
      · exact .inl ⟨wal, (update_of_ne hne ..).trans hw, hf⟩
  | removeSegment minimum segment hs hmem hle =>
    rw [hs] at hholder
    suffices hv : v ≤ minimum from fun slot hslot hlost => hv.trans (hholder.1 slot hslot hlost)
    cases hremoves with
    | segment other frame hother hnot hframe hv =>
      have hname : other.name = segment.name := by
        by_contra hne
        exact hnot (mem_filter.2 ⟨hother, by simpa using hne⟩)
      have hlast : other.last = segment.last := congrArg (·.2.2) hname
      calc v = frame.revision := hv.symm
        _ ≤ other.last := other.revision_le frame hframe
        _ = segment.last := hlast
        _ ≤ minimum := hle
    | base base hbase hnot hv => exact absurd hbase hnot
    | wal coord wal frame hw hframe hv hnot hmoved => exact absurd hframe (hnot wal hw)
  | removeSegmentBase minimum stem hs =>
    rw [hs] at hholder
    suffices hv : v ≤ minimum from fun slot hslot hlost => hv.trans (hholder.1 slot hslot hlost)
    cases hremoves with
    | segment other frame hother hnot hframe hv => exact absurd hother hnot
    | base base hbase hnot hv =>
      have hstem : base.stem = stem := by
        by_contra hne
        exact hnot (mem_filter.2 ⟨hbase, by simpa using hne⟩)
      calc v ≤ base.revision := hv
        _ ≤ base.first := base.revision_lt.le
        _ = stem.2 := congrArg Prod.snd hstem
        _ ≤ minimum := hholder.2 stem rfl
    | wal coord wal frame hw hframe hv hnot hmoved => exact absurd hframe (hnot wal hw)
  | removeBase minimum base hs hmem hle hsegment hwal =>
    rw [hs] at hholder
    suffices hv : v ≤ minimum from fun slot hslot hlost => hv.trans (hholder slot hslot hlost)
    cases hremoves with
    | segment other frame hother hnot hframe hv => exact absurd hother hnot
    | base other hother hnot hv =>
      have hstem : other.stem = base.stem := by
        by_contra hne
        exact hnot (mem_filter.2 ⟨hother, by simpa using hne⟩)
      calc v ≤ other.revision := hv
        _ ≤ other.first := other.revision_lt.le
        _ = base.first := congrArg Prod.snd hstem
        _ ≤ minimum := hle
    | wal coord wal frame hw hframe hv hnot hmoved => exact absurd hframe (hnot wal hw)

/-- The store as it is opened, with whatever files are there. -/
structure ArchiveStore.Opened (records : FeedSlotRecords) (maxBytes : ℕ) (s : ArchiveStore) :
    Prop where
  trace : s.trace = SlotTrace.opened records maxBytes
  holder : s.holder = .free

/-- The run of a store keeps the invariant, and the slots of the file move on. -/
theorem ArchiveStore.run_spec {u : ArchiveStore} (h : ReflTransGen ArchiveStep s u) (hinv : s.Inv) :
    u.Inv ∧ s.trace.Later u.trace :=
  Runs.invariant (I := fun u : ArchiveStore => u.Inv ∧ s.trace.Later u.trace) h
    ⟨hinv, hinv.trace.later_same rfl rfl le_rfl rfl⟩
    fun _ _ hu hstep =>
      ⟨hstep.inv hu.1, hu.2.trans (hstep.trace_spec hu.1.trace).2⟩

/-- **Retention is safe.**  In every run of a store with slots, a step removes no change
above the durable position of a slot that is not lost; and a slot that is behind what a
step removes is marked lost in the file before the step, and in the file of every later
state in which it still exists. -/
theorem retention_safe {records : FeedSlotRecords} (hvalid : validateRecords records = .ok ())
    {maxBytes : ℕ} {start s s' : ArchiveStore} (hstart : start.Opened records maxBytes)
    (hrun : ReflTransGen ArchiveStep start s) (hstep : ArchiveStep s s') :
    (∀ slot ∈ s.durableSlots, slot.lost = false → ∀ v, s.Removes s' v → v ≤ slot.written) ∧
    (∀ slot ∈ s.durableSlots, (∃ v, s.Removes s' v ∧ slot.written < v) →
      slot.lost = true ∧ ∀ u, ReflTransGen ArchiveStep s' u → ∀ later ∈ u.durableSlots,
        later.name = slot.name →
        u.trace.generation slot.name = s.trace.generation slot.name → later.lost = true) := by
  have hinit : start.Inv := by
    refine ⟨?_, ?_⟩
    · rw [hstart.trace]
      exact SlotTrace.inv_opened hvalid maxBytes
    · rw [hstart.holder]
      exact trivial
  have hinv : s.Inv := (ArchiveStore.run_spec hrun hinit).1
  have hsafe : ∀ slot ∈ s.durableSlots, slot.lost = false → ∀ v, s.Removes s' v →
      v ≤ slot.written := fun slot hslot hlost v hv => hstep.safe hinv hv slot hslot hlost
  refine ⟨hsafe, ?_⟩
  rintro slot hslot ⟨v, hv, hlt⟩
  have hlost : slot.lost = true := by
    cases h : slot.lost with
    | true => rfl
    | false => exact absurd (hsafe slot hslot h v hv) (not_le.2 hlt)
  refine ⟨hlost, fun u hu later hlater hname hgen => ?_⟩
  have hmoved := (ArchiveStore.run_spec (.head hstep hu) hinv).2
  exact (hmoved.file.slot_le slot hslot later hlater hname hgen).lost hlost

/-- A segment of revisions 1 and 2. -/
def oneSegment : Segment := ⟨⟨0, 0⟩, 1, 2, [⟨1, 10⟩, ⟨2, 10⟩], by decide, by decide⟩

/-- A store with one slot at revision 3 and that segment. -/
def oneSegmentStore : ArchiveStore :=
  ⟨SlotTrace.opened oneSlotRecords 100, 0, fun _ => none, fun _ => none, [oneSegment], [], .free⟩

/-- The store once `Retain` has found that the slot is at 3. -/
def removingStore : ArchiveStore :=
  { oneSegmentStore with
    trace := oneSegmentStore.trace.apply (.retain oneSegmentStore.retainedBytes .written)
    holder := .removing 3 none }

theorem retain_oneSegmentStore : ArchiveStep oneSegmentStore removingStore := by
  have h := ArchiveStep.retain oneSegmentStore .written rfl (by decide) rfl
  rwa [show (oneSegmentStore.trace.apply
    (.retain oneSegmentStore.retainedBytes .written)).state.records.minimum = 3 by decide] at h

/-- The segment below the slot is removed, and nothing above it is. -/
theorem retention_safe_one_segment :
    ∃ s, ArchiveStep removingStore s ∧ removingStore.Removes s 2 ∧
      ∀ slot ∈ removingStore.durableSlots, slot.lost = false → 2 ≤ slot.written := by
  have hstep := ArchiveStep.removeSegment removingStore 3 oneSegment rfl mem_cons_self (by decide)
  have hremoves : removingStore.Removes
      { removingStore with
        segments := removingStore.segments.filter fun other => other.name ≠ oneSegment.name
        holder := .removing 3 (some oneSegment.stem) } 2 :=
    .segment oneSegment ⟨2, 10⟩ mem_cons_self
      (fun h => absurd rfl (of_decide_eq_true (mem_filter.1 h).2)) (by decide) rfl
  refine ⟨_, hstep, hremoves, fun slot hslot hlost => ?_⟩
  exact (retention_safe (by decide) ⟨rfl, rfl⟩ (.single retain_oneSegmentStore) hstep).1
    slot hslot hlost 2 hremoves

end ChunkDb
