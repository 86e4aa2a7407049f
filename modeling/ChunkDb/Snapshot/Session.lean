/-
# Writer sessions

The checked record `chunkdb.snapshot` holds the session of the writer, odd from before
its recovery until it closes (`snapshot_generation.cpp`).  A lifetime prepares the live
map, replaces the record, recovers, opens guards and closes; it may stop at any moment,
and a power loss may take back every rename of the record that was not synced.

`SnapshotSessions.Step` is one step of the lifetimes of a store, one after another: the
lease keeps a second writer out.  Three fields record what no process can see: whether a
lifetime got past its initialization since the last clean close, the generation of that
close, and the sessions the lifetimes used.
-/
import ChunkDb.Crc32
import ChunkDb.Lib.ReplacedFile
import ChunkDb.Snapshot.Fence

open LittleEndian List

namespace ChunkDb

/-! ## The record -/

def kSnapshotGenerationRecordSize : ℕ := 16

/-- "CKSG". -/
def kSnapshotGenerationMagic : Bytes := [0x43, 0x4B, 0x53, 0x47]

/-- `SerializeSnapshotGenerationRecord`. -/
def serializeSnapshotGenerationRecord (generation : UInt64) : Bytes :=
  let bytes := kSnapshotGenerationMagic ++ leBytes 8 generation.toNat
  bytes ++ leBytes 4 (crc32 bytes)

/-- `TryParseSnapshotGenerationRecord`. -/
def tryParseSnapshotGenerationRecord (bytes : Bytes) : Option UInt64 :=
  if bytes.length ≠ kSnapshotGenerationRecordSize ∨ bytes.take 4 ≠ kSnapshotGenerationMagic then
    none
  else if crc32 (bytes.take 12) ≠ readLe 4 bytes 12 then none
  else some (UInt64.ofNat (readLe 8 bytes 4))

theorem tryParse_serialize (generation : UInt64) :
    tryParseSnapshotGenerationRecord (serializeSnapshotGenerationRecord generation)
      = some generation := by
  obtain ⟨hlength, hmagic, hgeneration, hcrc⟩ := checkedRecord_fields
    (show kSnapshotGenerationMagic.length = 4 from rfl) generation.toNat_lt
    (rfl : serializeSnapshotGenerationRecord generation = _)
  rw [tryParseSnapshotGenerationRecord, kSnapshotGenerationRecordSize,
    if_neg (not_or.mpr ⟨not_not.mpr hlength, not_not.mpr hmagic⟩), hcrc, if_neg (not_not.mpr rfl),
    hgeneration, UInt64.ofNat_toNat]

/-! ## What the functions decide -/

/-- The persisted generation; a missing record is an implicit stable zero. -/
def persistedGeneration : Option Bytes → Fallible UInt64
  | none => .ok 0
  | some bytes =>
    match tryParseSnapshotGenerationRecord bytes with
    | some generation => .ok generation
    | none => runtimeError "snapshot generation metadata is malformed"

/-- The session of a new lifetime; after a crash the odd value is skipped, not reused. -/
def recoveryGeneration (persisted : UInt64) : Fallible UInt64 :=
  if persisted > 0xFFFFFFFFFFFFFFFF - 2 then
    runtimeError "snapshot generation exhausted; refusing to wrap"
  else .ok (if persisted &&& 1 = 0 then persisted + 1 else persisted + 2)

/-- What `InitializeSnapshotGeneration` computes from the record it finds. -/
def initialGeneration (artifact : Option Bytes) : Fallible UInt64 :=
  persistedGeneration artifact >>= recoveryGeneration

/-- The check of `FinishSnapshotGenerationRecovery`. -/
def finishRecovery (session : UInt64) : Fallible Unit :=
  require (¬ (session &&& 1 = 0 ∨ session = 0xFFFFFFFFFFFFFFFF))
    ⟨.runtimeError, "invalid snapshot generation at recovery completion"⟩

/-- The generation that `CloseSnapshotGeneration` publishes, if it does. -/
def closeGeneration (session counter : UInt64) : Option UInt64 :=
  if counter &&& (kGenerationOdd ||| kGenerationFailed ||| kGenerationCountMask) ≠ 0 then none
  else some (session + 1)

theorem persistedGeneration_serialize (generation : UInt64) :
    persistedGeneration (some (serializeSnapshotGenerationRecord generation)) = .ok generation := by
  rw [persistedGeneration, tryParse_serialize]

/-- A session is odd and above what was persisted. -/
theorem recoveryGeneration_eq_ok {persisted session : UInt64}
    (h : recoveryGeneration persisted = .ok session) :
    isOddGeneration session = true ∧ persisted < session := by
  unfold recoveryGeneration at h
  split at h
  · simp [runtimeError] at h
  · rename_i hroom
    rw [gt_iff_lt, UInt64.lt_iff_toNat_lt] at hroom
    change ¬ 2 ^ 64 - 3 < persisted.toNat at hroom
    have hparity := toNat_and_odd persisted
    rw [UInt64.lt_iff_toNat_lt, isOddGeneration, beq_iff_eq]
    split at h
    · rename_i heven
      change persisted &&& kGenerationOdd = 0 at heven
      cases h
      rw [heven] at hparity
      change 0 = persisted.toNat % 2 at hparity
      rw [UInt64.toNat_add]
      change (persisted.toNat + 1) % 2 ^ 64 % 2 = 1 ∧ persisted.toNat < (persisted.toNat + 1) % 2 ^ 64
      omega
    · rename_i hodd
      change ¬ persisted &&& kGenerationOdd = 0 at hodd
      cases h
      have hone := and_odd_ne_zero_iff.mp hodd
      rw [isOddGeneration, beq_iff_eq] at hone
      rw [UInt64.toNat_add]
      change (persisted.toNat + 2) % 2 ^ 64 % 2 = 1 ∧ persisted.toNat < (persisted.toNat + 2) % 2 ^ 64
      omega

/-- A close publishes only over an even counter. -/
theorem closeGeneration_eq_some {session counter generation : UInt64}
    (h : closeGeneration session counter = some generation) :
    isOddGeneration counter = false ∧ generation = session + 1 := by
  unfold closeGeneration at h
  split at h
  · cases h
  · rename_i hclear
    rw [not_not] at hclear
    refine ⟨?_, (Option.some.inj h).symm⟩
    have hodd : counter &&& kGenerationOdd = 0 := by
      have hmask : (kGenerationOdd ||| kGenerationFailed ||| kGenerationCountMask) &&& kGenerationOdd
          = kGenerationOdd := by decide +kernel
      rw [← hmask, ← UInt64.and_assoc, hclear]
      exact UInt64.zero_and
    by_contra hne
    rw [Bool.not_eq_false] at hne
    exact and_odd_ne_zero_iff.mpr hne hodd

/-! ## The lifetimes of a store -/

/-- How far a lifetime has come. -/
inductive SessionPhase (T : Type)
  /-- No writer is open. -/
  | closed
  /-- The live map holds the session; the record does not yet. -/
  | mapped (session : UInt64)
  /-- The record is replaced, its directory not yet synced. -/
  | replaced (session : UInt64)
  /-- Recovery, and then guards. -/
  | writing (session : UInt64) (fence : SnapshotFence T)
  /-- The close record is replaced, its directory not yet synced. -/
  | closing

/-- The record, the current lifetime, whether files hold an incomplete change while no writer
is open, and the history. -/
structure SnapshotSessions (T : Type) where
  record : ReplacedFile (Option Bytes)
  phase : SessionPhase T
  damaged : Bool
  opened : Bool
  lastClose : UInt64
  sessions : List UInt64

/-- Some change of files is incomplete. -/
def SnapshotFence.incomplete {T : Type} [Fintype T] (s : SnapshotFence T) : Bool :=
  s.damaged || decide (∃ t, true ∈ (s.threads t).torn)

namespace SnapshotSessions

variable {T : Type} [DecidableEq T] [Fintype T]

/-- A store that no writer has opened. -/
def initial (T : Type) : SnapshotSessions T :=
  ⟨⟨none, []⟩, .closed, false, false, 0, []⟩

/-- Some change of files is incomplete. -/
def incomplete (s : SnapshotSessions T) : Bool :=
  match s.phase with
  | .writing _ fence => fence.incomplete
  | _ => s.damaged

/-- One step of a lifetime, or the end of it. -/
inductive Step : SnapshotSessions T → SnapshotSessions T → Prop
  -- `InitializeSnapshotGeneration`
  | initializeThrow (s : SnapshotSessions T) {e : Exn} (hphase : s.phase = .closed)
      (h : initialGeneration s.record.visible = .error e) : Step s s
  | map (s : SnapshotSessions T) {session : UInt64} (hphase : s.phase = .closed)
      (h : initialGeneration s.record.visible = .ok session) :
      Step s { s with phase := .mapped session }
  | replace (s : SnapshotSessions T) {session : UInt64} (hphase : s.phase = .mapped session) :
      Step s { s with
        record := s.record.replace (some (serializeSnapshotGenerationRecord session))
        phase := .replaced session }
  | sync (s : SnapshotSessions T) {session : UInt64} (hphase : s.phase = .replaced session) :
      Step s { s with
        record := s.record.sync
        phase := .writing session (.initial T s.damaged)
        opened := true
        sessions := session :: s.sessions }
  -- recovery changes files, and completes every change
  | recoveryChange (s : SnapshotSessions T) {session : UInt64} {fence : SnapshotFence T}
      (hphase : s.phase = .writing session fence) (h : fence.counter = kGenerationOdd) :
      Step s { s with phase := .writing session { fence with damaged := true } }
  | recover (s : SnapshotSessions T) {session : UInt64} {fence : SnapshotFence T}
      (hphase : s.phase = .writing session fence) (h : fence.counter = kGenerationOdd)
      (hfinish : finishRecovery session = .ok ()) :
      Step s { s with
        phase := .writing session { fence with counter := kGenerationEpochStep, damaged := false } }
  -- the guards of all threads
  | guards (s : SnapshotSessions T) {session : UInt64} {fence fence' : SnapshotFence T}
      (hphase : s.phase = .writing session fence) (hstep : SnapshotFence.Step fence fence')
      (hrecovered : fence.counter = kGenerationOdd → fence'.counter = fence.counter) :
      Step s { s with phase := .writing session fence' }
  -- `CloseSnapshotGeneration`
  | closeReplace (s : SnapshotSessions T) {session generation : UInt64} {fence : SnapshotFence T}
      (hphase : s.phase = .writing session fence)
      (h : closeGeneration session fence.counter = some generation) :
      Step s { s with
        record := s.record.replace (some (serializeSnapshotGenerationRecord generation))
        phase := .closing
        damaged := fence.incomplete
        opened := false
        lastClose := generation }
  | closeSync (s : SnapshotSessions T) (hphase : s.phase = .closing) :
      Step s { s with record := s.record.sync, phase := .closed }
  -- the process stops where it is: it dies, it throws, or its close publishes nothing
  | stop (s : SnapshotSessions T) :
      Step s { s with phase := .closed, damaged := s.incomplete }
  | powerLoss (s : SnapshotSessions T) {left : Option Bytes} (h : s.record.Survives left) :
      Step s { s with record := .lost left, phase := .closed, damaged := s.incomplete }

/-- What the lifetimes of a store can come to. -/
def Reachable (s : SnapshotSessions T) : Prop :=
  Relation.ReflTransGen Step (initial T) s

/-! ## What holds of every lifetime -/

/-- What a phase has established. -/
def PhaseSound (s : SnapshotSessions T) : Prop :=
  match s.phase with
  | .closed => True
  | .mapped session => isOddGeneration session = true ∧ ∀ used ∈ s.sessions, used < session
  | .replaced session =>
    (isOddGeneration session = true ∧ ∀ used ∈ s.sessions, used < session)
      ∧ s.record.visible = some (serializeSnapshotGenerationRecord session)
  | .writing session fence =>
    s.opened = true ∧ isOddGeneration session = true
      ∧ (∀ left, s.record.Survives left → left = some (serializeSnapshotGenerationRecord session))
      ∧ fence.Fenced ∧ (completedEpochs fence.counter ≠ 0 → session ≠ 0xFFFFFFFFFFFFFFFF)
  | .closing => True

/-- A version of the record bounds the sessions used so far; an even one is the record of the
last clean close, and no lifetime was opened since. -/
def RecordSound (s : SnapshotSessions T) (left : Option Bytes) : Prop :=
  ∃ generation, persistedGeneration left = .ok generation
    ∧ (∀ used ∈ s.sessions, used ≤ generation)
    ∧ (isOddGeneration generation = false → generation = s.lastClose ∧ s.opened = false)

/-- What holds between any two steps. -/
structure Sound (s : SnapshotSessions T) : Prop where
  record : ∀ left, s.record.Survives left → s.RecordSound left
  coherent : s.opened = false → s.incomplete = false
  increasing : s.sessions.Pairwise (· > ·)
  phase : s.PhaseSound

end SnapshotSessions

/-- A counter that is even leaves no change incomplete. -/
theorem SnapshotFence.Fenced.incomplete_of_even {T : Type} [Fintype T] {s : SnapshotFence T}
    (h : s.Fenced) (heven : isOddGeneration s.counter = false) :
    s.incomplete = false ∧ completedEpochs s.counter ≠ 0 := by
  obtain ⟨hopen, habandoned⟩ := h.even heven
  have hepochs : completedEpochs s.counter ≠ 0 := by
    intro hzero
    rw [(h.recovering hzero).1] at heven
    cases heven
  refine ⟨?_, hepochs⟩
  rw [SnapshotFence.incomplete, Bool.or_eq_false_iff, decide_eq_false_iff_not]
  constructor
  · by_contra hd
    rcases h.damage (by simpa using hd) with ha | hzero
    · rw [ha] at habandoned
      cases habandoned
    · exact hepochs hzero
  · rintro ⟨t, ht⟩
    have hle := s.length_torn_le_openGuards t
    have hpos := length_pos_of_mem ht
    omega

/-- Before recovery has finished only its end writes the counter. -/
theorem SnapshotFence.Fenced.step_recovering {T : Type} [DecidableEq T] [Fintype T]
    {s s' : SnapshotFence T} (h : s.Fenced) (hzero : completedEpochs s.counter = 0)
    (hstep : SnapshotFence.Step s s') :
    s'.counter = s.counter ∨ s.counter = kGenerationOdd := by
  obtain ⟨hodd, hopen⟩ := h.recovering hzero
  have hguards : activeGuards s.counter = 0 := h.guards.trans hopen
  cases hstep with
  | recover hcounter => exact .inr hcounter
  | beginSwap t ht hdesired =>
    obtain ⟨_, hsome, _⟩ := beginDesired_eq_ok hdesired
    exact absurd hguards (hsome hodd)
  | finishSwap t ht hdesired =>
    obtain ⟨hne, _⟩ := (h.threads t).finishing _ ht
    exact absurd hguards hne
  | abandonSwap t ht =>
    have hne := h.activeGuards_ne_zero (t := t) (by rw [ht]; exact cons_ne_nil _ _)
    exact absurd hguards hne
  | _ => exact .inl rfl

/-- Recovery may leave files incomplete until it ends. -/
theorem SnapshotFence.Fenced.recoveryChange {T : Type} [Fintype T] {s : SnapshotFence T}
    (h : s.Fenced) (hcounter : s.counter = kGenerationOdd) :
    ({ s with damaged := true } : SnapshotFence T).Fenced := by
  refine .of_fields h.threads ⟨rfl, h.guards, h.failed, rfl⟩ h.odd_of_guard h.odd_of_failed h.room
    h.recovering fun _ => .inr ?_
  dsimp only
  rw [hcounter]
  decide +kernel

namespace SnapshotSessions

variable {T : Type} [DecidableEq T] [Fintype T] {s s' : SnapshotSessions T}

omit [DecidableEq T] in
theorem sound_initial : (initial T).Sound := by
  refine ⟨fun left h => ?_, fun _ => rfl, List.Pairwise.nil, trivial⟩
  rw [mem_singleton.mp h]
  exact ⟨0, rfl, nofun, fun _ => ⟨rfl, rfl⟩⟩

omit [DecidableEq T] in
/-- The record that a lifetime leaves when it stops. -/
theorem Sound.quit (h : s.Sound) {record : ReplacedFile (Option Bytes)}
    (hrecord : ∀ left, record.Survives left → s.record.Survives left) :
    ({ s with record := record, phase := .closed, damaged := s.incomplete }
      : SnapshotSessions T).Sound :=
  ⟨fun left hleft => h.record left (hrecord left hleft), h.coherent, h.increasing, trivial⟩

omit [DecidableEq T] in
/-- What recovery and the guards have established. -/
theorem Sound.writing (h : s.Sound) {session : UInt64} {fence : SnapshotFence T}
    (hphase : s.phase = .writing session fence) :
    s.opened = true ∧ isOddGeneration session = true
      ∧ (∀ left, s.record.Survives left → left = some (serializeSnapshotGenerationRecord session))
      ∧ fence.Fenced
      ∧ (completedEpochs fence.counter ≠ 0 → session ≠ 0xFFFFFFFFFFFFFFFF) := by
  have hsound := h.phase
  rwa [PhaseSound, hphase] at hsound

omit [DecidableEq T] in
/-- A step of recovery or of the guards. -/
theorem Sound.fence (h : s.Sound) {session : UInt64} {fence fence' : SnapshotFence T}
    (hphase : s.phase = .writing session fence) (hfenced : fence'.Fenced)
    (hepochs : completedEpochs fence'.counter ≠ 0 → session ≠ 0xFFFFFFFFFFFFFFFF) :
    ({ s with phase := .writing session fence' } : SnapshotSessions T).Sound := by
  obtain ⟨hopened, hodd, hrecord, _⟩ := h.writing hphase
  refine ⟨h.record, fun hnot => ?_, h.increasing, hopened, hodd, hrecord, hfenced, hepochs⟩
  cases hopened.symm.trans hnot

omit [DecidableEq T] [Fintype T] in
/-- The record of an odd session that bounds the sessions used. -/
theorem recordSound_session {session : UInt64} (hodd : isOddGeneration session = true)
    (hused : ∀ used ∈ s.sessions, used ≤ session) :
    s.RecordSound (some (serializeSnapshotGenerationRecord session)) :=
  ⟨session, persistedGeneration_serialize session, hused, fun heven => by
    cases hodd.symm.trans heven⟩

omit [DecidableEq T] in
/-- Outside recovery and guards the files are complete as they were left. -/
theorem Sound.complete (h : s.Sound) {phase : SessionPhase T} (hphase : s.phase = phase)
    (hnot : incomplete { s with phase := phase } = s.damaged) (hopened : s.opened = false) :
    s.damaged = false := by
  subst hphase
  exact hnot.symm.trans (h.coherent hopened)

/-- Every step of a lifetime keeps what holds. -/
theorem Sound.step (h : s.Sound) (hstep : Step s s') : s'.Sound := by
  have hphase' := h.phase
  cases hstep with
  | initializeThrow => exact h
  | @map session hphase hsession =>
    obtain ⟨generation, hpersisted, hused, _⟩ := h.record _ s.record.survives_visible
    rw [initialGeneration, hpersisted, ok_bind] at hsession
    obtain ⟨hodd, hlt⟩ := recoveryGeneration_eq_ok hsession
    refine ⟨h.record, h.complete hphase rfl, h.increasing, hodd, fun used hmem => ?_⟩
    exact UInt64.lt_of_le_of_lt (hused used hmem) hlt
  | @replace session hphase =>
    rw [PhaseSound, hphase] at hphase'
    obtain ⟨hodd, hlt⟩ := hphase'
    refine ⟨fun left hleft => ?_, h.complete hphase rfl, h.increasing, ⟨hodd, hlt⟩, rfl⟩
    rcases ReplacedFile.survives_replace.mp hleft with rfl | hleft
    · exact recordSound_session hodd fun used hmem => UInt64.le_of_lt (hlt used hmem)
    · exact h.record left hleft
  | @sync session hphase =>
    rw [PhaseSound, hphase] at hphase'
    obtain ⟨⟨hodd, hlt⟩, hvisible⟩ := hphase'
    refine ⟨fun left hleft => ?_, nofun, ?_, rfl, hodd, fun left hleft => ?_,
      SnapshotFence.fenced_initial T s.damaged, fun hne => absurd ?_ hne⟩
    · rw [ReplacedFile.survives_sync.mp hleft, hvisible]
      refine recordSound_session hodd fun used hmem => ?_
      rcases mem_cons.mp hmem with rfl | hmem
      · exact UInt64.le_refl _
      · exact UInt64.le_of_lt (hlt used hmem)
    · exact pairwise_cons.mpr ⟨hlt, h.increasing⟩
    · rw [ReplacedFile.survives_sync.mp hleft, hvisible]
    · change completedEpochs kGenerationOdd = 0
      decide +kernel
  | @recoveryChange session fence hphase hcounter =>
    obtain ⟨_, _, _, hfenced, hepochs⟩ := h.writing hphase
    exact h.fence hphase (hfenced.recoveryChange hcounter) hepochs
  | @recover session fence hphase hcounter hfinish =>
    obtain ⟨_, _, _, hfenced, _⟩ := h.writing hphase
    rw [finishRecovery, require_eq_ok, not_or] at hfinish
    exact h.fence hphase (hfenced.step (.recover fence hcounter)) fun _ => hfinish.2
  | @guards session fence fence' hphase hguard hrecovered =>
    obtain ⟨_, _, _, hfenced, hepochs⟩ := h.writing hphase
    refine h.fence hphase (hfenced.step hguard) fun hne => ?_
    by_cases hzero : completedEpochs fence.counter = 0
    · have hsame : fence'.counter = fence.counter :=
        (hfenced.step_recovering hzero hguard).elim id hrecovered
      rw [hsame] at hne
      exact absurd hzero hne
    · exact hepochs hzero
  | @closeReplace session generation fence hphase hclose =>
    obtain ⟨_, hodd, hrecord, hfenced, hepochs⟩ := h.writing hphase
    obtain ⟨heven, rfl⟩ := closeGeneration_eq_some hclose
    obtain ⟨hcomplete, hne⟩ := hfenced.incomplete_of_even heven
    refine ⟨fun left hleft => ?_, fun _ => hcomplete, h.increasing, trivial⟩
    have hsession : ∀ used ∈ s.sessions, used ≤ session := by
      obtain ⟨generation, hpersisted, hused, _⟩ := h.record _ s.record.survives_visible
      rw [hrecord _ s.record.survives_visible, persistedGeneration_serialize] at hpersisted
      rw [Except.ok.inj hpersisted]
      exact hused
    rcases ReplacedFile.survives_replace.mp hleft with rfl | hleft
    · refine ⟨session + 1, persistedGeneration_serialize _, fun used hmem => ?_, fun _ => ⟨rfl, rfl⟩⟩
      have hle := UInt64.le_iff_toNat_le.mp (hsession used hmem)
      have hmax : session.toNat ≠ 2 ^ 64 - 1 := fun hmax =>
        hepochs hne (UInt64.toNat_inj.mp hmax)
      have hlt := session.toNat_lt
      rw [UInt64.le_iff_toNat_le, UInt64.toNat_add]
      change used.toNat ≤ (session.toNat + 1) % 2 ^ 64
      omega
    · rw [hrecord left hleft]
      exact recordSound_session hodd hsession
  | closeSync hphase =>
    refine ⟨fun left hleft => ?_, h.complete hphase rfl, h.increasing, trivial⟩
    rw [ReplacedFile.survives_sync.mp hleft]
    exact h.record _ s.record.survives_visible
  | stop => exact h.quit fun _ hleft => hleft
  | powerLoss hleft =>
    refine h.quit fun left' hleft' => ?_
    rw [ReplacedFile.survives_lost.mp hleft']
    exact hleft

theorem Reachable.sound (h : s.Reachable) : s.Sound :=
  Runs.invariant (I := Sound) h sound_initial fun _ _ hs hstep => hs.step hstep

/-- A lifetime stops counting as opened by closing with no open and no failed guard. -/
theorem Sound.close_of_step (h : s.Sound) (hstep : Step s s') (hopened : s.opened = true)
    (hclosed : s'.opened = false) :
    ∃ session fence, s.phase = .writing session fence ∧ fence.openGuards = 0
      ∧ fence.abandoned = false
      ∧ s'.record.visible = some (serializeSnapshotGenerationRecord (session + 1)) := by
  cases hstep with
  | @closeReplace session generation fence hphase hclose =>
    obtain ⟨_, _, _, hfenced, _⟩ := h.writing hphase
    obtain ⟨heven, rfl⟩ := closeGeneration_eq_some hclose
    obtain ⟨hopen, habandoned⟩ := hfenced.even heven
    exact ⟨session, fence, hphase, hopen, habandoned, rfl⟩
  | sync => cases hclosed
  -- no other step ends what was opened
  | _ =>
    rw [hopened] at hclosed
    cases hclosed

/-- In every run of lifetimes, with a stop or a power loss at any moment: while a lifetime
recovers or writes, every version of the record that can survive is its own odd session; what
was opened since the last clean close is fenced by an odd record, and ends with a close that
saw no open and no failed guard; the sessions used are strictly increasing; and an even version
of the record is that of the last clean close, with no lifetime opened since and every change of
files complete. -/
theorem snapshotSessions_of_reachable (h : s.Reachable) :
    (∀ session fence, s.phase = .writing session fence → s.opened = true
      ∧ ∀ left, s.record.Survives left → persistedGeneration left = .ok session
        ∧ isOddGeneration session = true)
    ∧ (s.opened = true → ∀ left, s.record.Survives left →
        ∃ generation, persistedGeneration left = .ok generation ∧ isOddGeneration generation = true)
    ∧ (∀ s', Step s s' → s.opened = true → s'.opened = false →
        ∃ session fence, s.phase = .writing session fence ∧ fence.openGuards = 0
          ∧ fence.abandoned = false
          ∧ s'.record.visible = some (serializeSnapshotGenerationRecord (session + 1)))
    ∧ s.sessions.Pairwise (· > ·)
    ∧ (∀ left generation, s.record.Survives left → persistedGeneration left = .ok generation →
        isOddGeneration generation = false →
        generation = s.lastClose ∧ s.opened = false ∧ s.incomplete = false) := by
  have hs := h.sound
  refine ⟨?_, ?_, fun s' hstep => hs.close_of_step hstep, hs.increasing, ?_⟩
  · intro session fence hphase
    obtain ⟨hopened, hodd, hrecord, _⟩ := hs.writing hphase
    refine ⟨hopened, fun left hleft => ⟨?_, hodd⟩⟩
    rw [hrecord left hleft]
    exact persistedGeneration_serialize session
  · intro hopened left hleft
    obtain ⟨generation, hpersisted, _, heven⟩ := hs.record left hleft
    refine ⟨generation, hpersisted, ?_⟩
    by_contra hnot
    rw [(heven (by simpa using hnot)).2] at hopened
    cases hopened
  · intro left generation hleft hpersisted hnot
    obtain ⟨generation', hpersisted', _, heven⟩ := hs.record left hleft
    rw [hpersisted] at hpersisted'
    cases hpersisted'
    obtain ⟨hlast, hopened⟩ := heven hnot
    exact ⟨hlast, hopened, hs.coherent hopened⟩

/-- The first writer of a store, initialized. -/
def firstWriter : SnapshotSessions Unit :=
  ⟨⟨some (serializeSnapshotGenerationRecord 1), []⟩, .writing 1 (.initial Unit false), false, true, 0,
    [1]⟩

theorem firstWriter_reachable : firstWriter.Reachable := by
  have hmap := @Step.map Unit _ _ (initial Unit) 1 rfl (by decide +kernel)
  have hreplace := Step.replace (T := Unit) { initial Unit with phase := .mapped 1 } rfl
  have hsync := Step.sync (T := Unit) { initial Unit with
    record := (initial Unit).record.replace (some (serializeSnapshotGenerationRecord 1))
    phase := .replaced 1 } rfl
  exact .tail (.tail (.single hmap) hreplace) hsync

theorem snapshotSessions_of_firstWriter :
    persistedGeneration firstWriter.record.visible = .ok 1 ∧ isOddGeneration 1 = true :=
  ((snapshotSessions_of_reachable firstWriter_reachable).1 1 (.initial Unit false) rfl).2
    firstWriter.record.visible firstWriter.record.survives_visible

end SnapshotSessions

end ChunkDb
