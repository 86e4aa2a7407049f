/-
# What holds in every run of a table

A write takes its version under the locks of its chunks and loads the open count after it; a
snapshot counts itself before it reads the clock.  So a write above a snapshot has reserved the
state it replaces, and every write above a registered snapshot is covered: a state of its chunk,
tagged above the snapshot and not above the write, is kept or still to publish.

* `TxnStore.Inv` : the invariant, with `ThreadOk` for each thread;
* `ThreadOk.frame` : what the other threads of a step have to leave alone.
-/
import ChunkDb.Txn.HistorySpec
import ChunkDb.Txn.Log

namespace ChunkDb

/-- The version of a write that is not committed yet. -/
def TxnThread.taken : TxnThread → Option ℕ
  | .versioned _ _ version | .prepared _ _ version _ => some version
  | _ => none

/-- The states a thread still has to publish. -/
def TxnThread.pending : TxnThread → List TxnKeptState
  | .publishing _ left => left
  | _ => []

namespace TxnStore

/-- The version of a snapshot. -/
def snapshotVersion (s : TxnStore) (id : ℕ) : ℕ := (s.history.snapshot id).version

/-- A snapshot is registered. -/
def Registered (s : TxnStore) (id : ℕ) : Prop := (s.history.snapshot id).registered = true

/-- All writes to the chunk up to the version are committed. -/
def Sealed (s : TxnStore) (coord : ChunkCoord) (version : ℕ) : Prop :=
  version < s.clock ∧ ∀ t taken, (s.threads t).taken = some taken →
    (coord, true) ∈ (s.threads t).held → version < taken

/-- A state of the chunk waits to be published. -/
def Pending (s : TxnStore) (coord : ChunkCoord) (tag : ℕ) : Prop :=
  ∃ t, ∃ kept ∈ (s.threads t).pending, kept.coord = coord ∧ kept.tag = tag

/-- The state that the committed write of the tag replaced. -/
structure Replaced (initial : ChunkCoord → StoredState) (s : TxnStore) (kept : TxnKeptState) :
    Prop where
  committed : ∃ write ∈ writesTo s.log kept.coord, write.1 = kept.tag
  state_eq : kept.state = stateBelow initial s.log kept.coord kept.tag

/-- A write that holds its locks, and whose snapshot nothing has changed since. -/
structure Validated (s : TxnStore) (w : TxnWrite) : Prop where
  valid : w.Valid
  lt_next : ∀ id ∈ w.snapshot?, id < s.nextSnapshot
  ended : ∀ id ∈ w.snapshot?, ¬ s.Registered id
  unchanged : ∀ id ∈ w.snapshot?, ∀ coord ∈ w.coords, ∀ write ∈ writesTo s.log coord,
    write.1 ≤ s.snapshotVersion id

/-- A write with its version. -/
structure Versioned (s : TxnStore) (w : TxnWrite) (changes : List (ChunkCoord × ChunkState))
    (version : ℕ) : Prop extends s.Validated w where
  lt_clock : version < s.clock
  changes_eq : changes = w.changes s.chunks
  writes_lt : ∀ coord ∈ w.coords, ∀ write ∈ writesTo s.log coord, write.1 < version
  commits_lt : ∀ coord, (coord, true) ∈ w.targets → ∀ commit ∈ s.log, coord ∈ commit.write.coords →
    commit.version < version
  commits_ne : ∀ commit ∈ s.log, commit.version ≠ version
  snapshot_lt : ∀ id ∈ w.snapshot?, s.snapshotVersion id < version

/-- The reservations of a write: none when every snapshot is at or above it. -/
def Reserved (s : TxnStore) (w : TxnWrite) (changes : List (ChunkCoord × ChunkState))
    (version : ℕ) (keeps : List TxnKeptState) : Prop :=
  (keeps = [] ∧ (∀ id, s.Registered id → version ≤ s.snapshotVersion id)
    ∧ ∀ sampled, s.registering = some (.sampled sampled) → version ≤ sampled)
  ∨ keeps = changes.map fun change =>
      w.prepareKeep s.history.overhead change.1 version (s.chunks change.1)

/-- The states of a committed write that are still to publish. -/
structure Publishing (initial : ChunkCoord → StoredState) (s : TxnStore) (w : TxnWrite)
    (left : List TxnKeptState) : Prop where
  nodup : (left.map TxnKeptState.coord).Nodup
  mem_targets : ∀ kept ∈ left, (kept.coord, true) ∈ w.targets
  bytes_eq : ∀ kept ∈ left, kept.bytes = keptStateBytes s.history.overhead kept.state
  replaced : ∀ kept ∈ left, s.Replaced initial kept
  tags_lt : ∀ kept ∈ left, ∀ other, s.history.Keeps other → other.coord = kept.coord →
    other.tag < kept.tag

/-- A read that has copied the current state: it is the snapshot's, or another one is kept. -/
structure Reading (initial : ChunkCoord → StoredState) (s : TxnStore) (id : ℕ) (coord : ChunkCoord)
    (copied : StoredState) : Prop where
  lt_next : id < s.nextSnapshot
  isSealed : s.Sealed coord (s.snapshotVersion id)
  copied_eq : copied = stateBelow initial s.log coord (s.snapshotVersion id + 1)
    ∨ (s.Registered id → ∃ kept, s.history.Keeps kept ∧ kept.coord = coord
      ∧ s.snapshotVersion id < kept.tag)

/-- What holds of a thread. -/
def ThreadOk (initial : ChunkCoord → StoredState) (s : TxnStore) : TxnThread → Prop
  | .idle => True
  | .reading id coord copied => s.Reading initial id coord copied
  | .locking w held todo =>
    w.Valid ∧ (∀ id ∈ w.snapshot?, id < s.nextSnapshot) ∧ held ++ todo = w.targets
  | .validated w => s.Validated w
  | .versioned w changes version => s.Versioned w changes version
  | .prepared w changes version keeps =>
    s.Versioned w changes version ∧ s.Reserved w changes version keeps
  | .publishing w left => s.Publishing initial w left

/-- A committed write: it made its changes from the states just below its version, and in a
transaction these are the snapshot's. -/
structure Committed (initial : ChunkCoord → StoredState) (s : TxnStore) (commit : TxnCommit) :
    Prop where
  changes_eq : commit.changes
    = commit.write.changes fun coord => stateBelow initial s.log coord commit.version
  snapshot_lt : ∀ id ∈ commit.write.snapshot?, s.snapshotVersion id < commit.version
  lt_next : ∀ id ∈ commit.write.snapshot?, id < s.nextSnapshot
  unchanged : ∀ id ∈ commit.write.snapshot?, ∀ coord ∈ commit.write.coords,
    ∀ write ∈ writesTo s.log coord, write.1 < commit.version → write.1 ≤ s.snapshotVersion id

/-- A read that has returned. -/
structure Returned (initial : ChunkCoord → StoredState) (s : TxnStore) (read : TxnRead) : Prop where
  lt_next : read.id < s.nextSnapshot
  version_eq : read.version = s.snapshotVersion read.id
  isSealed : s.Sealed read.coord read.version
  state_eq : read.state = stateBelow initial s.log read.coord (read.version + 1)

/-- The snapshots that are counted and not registered yet. -/
def counting (s : TxnStore) : ℕ := s.registering.elim 0 fun _ => 1

/-- The invariant of the runs. -/
structure Inv (initial : ChunkCoord → StoredState) (s : TxnStore) : Prop where
  rep : s.history.Rep s.counting
  locks : ∀ t t', t ≠ t' → ∀ coord other, (coord, true) ∈ (s.threads t).held →
    (coord, other) ∉ (s.threads t').held
  threadOk : ∀ t, s.ThreadOk initial (s.threads t)
  taken_ne : ∀ t t', t ≠ t' → ∀ version, (s.threads t).taken = some version →
    (s.threads t').taken ≠ some version
  snapshot_lt : ∀ id, s.snapshotVersion id < s.clock
  sampled_lt : ∀ version, s.registering = some (.sampled version) → version < s.clock
  commits_lt : ∀ commit ∈ s.log, commit.version < s.clock
  fresh : ∀ id, s.Registered id → id < s.nextSnapshot
  chunks_eq : ∀ coord, s.chunks coord = stateBelow initial s.log coord s.clock
  increasing : ∀ coord, ((writesTo s.log coord).map Prod.fst).Pairwise (· < ·)
  nodup : (s.log.map TxnCommit.version).Nodup
  kept : ∀ kept, s.history.Keeps kept → s.Replaced initial kept
  covered : ∀ id, s.Registered id → ∀ coord, ∀ write ∈ writesTo s.log coord,
    s.snapshotVersion id < write.1 → (∃ kept, s.history.Keeps kept ∧ kept.coord = coord
      ∧ s.snapshotVersion id < kept.tag ∧ kept.tag ≤ write.1) ∨ s.Pending coord write.1
  sampled : ∀ version, s.registering = some (.sampled version) → ∀ coord,
    ∀ write ∈ writesTo s.log coord, version < write.1 → s.Pending coord write.1
  reads : ∀ read ∈ s.reads, s.Returned initial read
  commits : ∀ commit ∈ s.log, s.Committed initial commit

/-! ## What the other threads leave alone -/

/-- What every step leaves of the clock, the snapshots and the states kept for them. -/
structure Onward (s s' : TxnStore) : Prop where
  clock_le : s.clock ≤ s'.clock
  next_le : s.nextSnapshot ≤ s'.nextSnapshot
  overhead_eq : s'.history.overhead = s.history.overhead
  version_eq : ∀ id < s.nextSnapshot, s'.snapshotVersion id = s.snapshotVersion id
  registered_of : ∀ id < s.nextSnapshot, s'.Registered id → s.Registered id
  registered_new : ∀ id, s.nextSnapshot ≤ id → s'.Registered id →
    s.registering = some (.sampled (s'.snapshotVersion id))
  sampled_of : ∀ version, s'.registering = some (.sampled version) →
    s.registering = some (.sampled version) ∨ s.clock ≤ version + 1
  keeps_of : ∀ id < s.nextSnapshot, s'.Registered id → ∀ kept, s.history.Keeps kept →
    s.snapshotVersion id < kept.tag → s'.history.Keeps kept
  sealed_of : ∀ coord version, s.Sealed coord version → s'.Sealed coord version

theorem Inv.onward {initial : ChunkCoord → StoredState} {s : TxnStore} (hinv : s.Inv initial) :
    Onward s s where
  clock_le := le_rfl
  next_le := le_rfl
  overhead_eq := rfl
  version_eq := fun _ _ => rfl
  registered_of := fun _ _ hid => hid
  registered_new := fun id hge hid => absurd (hinv.fresh id hid) (not_lt.mpr hge)
  sampled_of := fun _ => .inl
  keeps_of := fun _ _ _ _ hkept _ => hkept
  sealed_of := fun _ _ hsealed => hsealed

/-- What a step of the others leaves to a thread. -/
structure Frame (initial : ChunkCoord → StoredState) (s s' : TxnStore) (thread : TxnThread) :
    Prop extends Onward s s' where
  keeps_held : ∀ kept, s'.history.Keeps kept →
    s.history.Keeps kept ∨ (kept.coord, true) ∉ thread.held
  below_eq : ∀ coord version, s.Sealed coord version →
    stateBelow initial s'.log coord (version + 1) = stateBelow initial s.log coord (version + 1)
  writes_eq : ∀ target ∈ thread.held, writesTo s'.log target.1 = writesTo s.log target.1
  chunks_eq : ∀ target ∈ thread.held, s'.chunks target.1 = s.chunks target.1
  commits_of : ∀ commit ∈ s'.log, commit ∈ s.log
    ∨ (∀ coord, (coord, true) ∈ thread.held → coord ∉ commit.write.coords)
      ∧ thread.taken ≠ some commit.version

section Frame

variable {initial : ChunkCoord → StoredState} {s s' : TxnStore}

theorem Reading.frame {id : ℕ} {coord : ChunkCoord} {copied : StoredState}
    (hreading : s.Reading initial id coord copied)
    (hframe : Frame initial s s' (.reading id coord copied)) :
    s'.Reading initial id coord copied := by
  have hversion := hframe.version_eq id hreading.lt_next
  refine ⟨hreading.lt_next.trans_le hframe.next_le, ?_, ?_⟩
  · rw [hversion]
    exact hframe.sealed_of _ _ hreading.isSealed
  · rw [hversion, hframe.below_eq _ _ hreading.isSealed]
    refine hreading.copied_eq.imp_right fun hkept hid => ?_
    obtain ⟨kept, hkeeps, hcoord, hlt⟩ := hkept (hframe.registered_of id hreading.lt_next hid)
    exact ⟨kept, hframe.keeps_of id hreading.lt_next hid kept hkeeps hlt, hcoord, hlt⟩

variable {thread : TxnThread} {w : TxnWrite}

theorem Validated.frame (hvalidated : s.Validated w) (hheld : thread.held = w.targets)
    (hframe : Frame initial s s' thread) : s'.Validated w where
  valid := hvalidated.valid
  lt_next := fun id hid => (hvalidated.lt_next id hid).trans_le hframe.next_le
  ended := fun id hid hreg =>
    hvalidated.ended id hid (hframe.registered_of id (hvalidated.lt_next id hid) hreg)
  unchanged := by
    intro id hid coord hcoord write hwrite
    obtain ⟨exclusive, htarget⟩ := TxnWrite.mem_coords.mp hcoord
    rw [hframe.writes_eq (coord, exclusive) (hheld ▸ htarget)] at hwrite
    rw [hframe.version_eq id (hvalidated.lt_next id hid)]
    exact hvalidated.unchanged id hid coord hcoord write hwrite

theorem Versioned.frame {changes : List (ChunkCoord × ChunkState)} {version : ℕ}
    (hversioned : s.Versioned w changes version) (hheld : thread.held = w.targets)
    (htaken : thread.taken = some version) (hframe : Frame initial s s' thread) :
    s'.Versioned w changes version where
  toValidated := hversioned.toValidated.frame hheld hframe
  lt_clock := hversioned.lt_clock.trans_le hframe.clock_le
  changes_eq := by
    rw [hversioned.changes_eq]
    exact (TxnWrite.changes_congr fun coord hcoord =>
      hframe.chunks_eq (coord, true) (hheld ▸ hcoord)).symm
  writes_lt := by
    intro coord hcoord write hwrite
    obtain ⟨exclusive, htarget⟩ := TxnWrite.mem_coords.mp hcoord
    rw [hframe.writes_eq (coord, exclusive) (hheld ▸ htarget)] at hwrite
    exact hversioned.writes_lt coord hcoord write hwrite
  commits_lt := by
    intro coord hcoord commit hcommit hmem
    rcases hframe.commits_of commit hcommit with hold | ⟨hnot, _⟩
    · exact hversioned.commits_lt coord hcoord commit hold hmem
    · exact absurd hmem (hnot coord (hheld ▸ hcoord))
  commits_ne := by
    intro commit hcommit
    rcases hframe.commits_of commit hcommit with hold | ⟨_, hnot⟩
    · exact hversioned.commits_ne commit hold
    · exact fun heq => hnot (heq ▸ htaken)
  snapshot_lt := by
    intro id hid
    rw [hframe.version_eq id (hversioned.lt_next id hid)]
    exact hversioned.snapshot_lt id hid

theorem Reserved.frame {changes : List (ChunkCoord × ChunkState)} {version : ℕ}
    {keeps : List TxnKeptState} (hreserved : s.Reserved w changes version keeps)
    (hversioned : s.Versioned w changes version) (hheld : thread.held = w.targets)
    (hframe : Frame initial s s' thread) : s'.Reserved w changes version keeps := by
  refine hreserved.imp ?_ ?_
  · rintro ⟨hnone, hregistered, hsampled⟩
    refine ⟨hnone, fun id hid => ?_, fun sampled hphase => ?_⟩
    · by_cases hnew : s.nextSnapshot ≤ id
      · exact hsampled _ (hframe.registered_new id hnew hid)
      · rw [hframe.version_eq id (not_le.mp hnew)]
        exact hregistered id (hframe.registered_of id (not_le.mp hnew) hid)
    · rcases hframe.sampled_of sampled hphase with hold | hclock
      · exact hsampled sampled hold
      · exact Nat.le_of_lt_succ (hversioned.lt_clock.trans_le hclock)
  · intro hkeeps
    rw [hkeeps, hframe.overhead_eq]
    refine List.map_congr_left fun change hchange => ?_
    rw [hversioned.changes_eq] at hchange
    rw [hframe.chunks_eq (change.1, true) (hheld ▸ TxnWrite.mem_targets_of_mem_changes hchange)]

theorem Replaced.of_writesTo {kept : TxnKeptState} (hreplaced : s.Replaced initial kept)
    (hwrites : writesTo s'.log kept.coord = writesTo s.log kept.coord) :
    s'.Replaced initial kept := by
  refine ⟨?_, ?_⟩
  · rw [hwrites]
    exact hreplaced.committed
  · rw [stateBelow_of_writesTo hwrites]
    exact hreplaced.state_eq

theorem Publishing.frame {left : List TxnKeptState} (hpublishing : s.Publishing initial w left)
    (hframe : Frame initial s s' (.publishing w left)) : s'.Publishing initial w left where
  nodup := hpublishing.nodup
  mem_targets := hpublishing.mem_targets
  bytes_eq := by
    rw [hframe.overhead_eq]
    exact hpublishing.bytes_eq
  replaced := fun kept hkept => (hpublishing.replaced kept hkept).of_writesTo
    (hframe.writes_eq _ (hpublishing.mem_targets kept hkept))
  tags_lt := by
    intro kept hkept other hother hcoord
    rcases hframe.keeps_held other hother with hold | hnot
    · exact hpublishing.tags_lt kept hkept other hold hcoord
    · exact absurd (hpublishing.mem_targets kept hkept) (hcoord ▸ hnot)

/-- A thread that is left alone stays as it was. -/
theorem ThreadOk.frame (hok : s.ThreadOk initial thread) (hframe : Frame initial s s' thread) :
    s'.ThreadOk initial thread := by
  cases thread with
  | idle => trivial
  | reading id coord copied => exact Reading.frame hok hframe
  | locking w held todo =>
    exact ⟨hok.1, fun id hid => (hok.2.1 id hid).trans_le hframe.next_le, hok.2.2⟩
  | validated w => exact Validated.frame hok rfl hframe
  | versioned w changes version => exact Versioned.frame hok rfl rfl hframe
  | prepared w changes version keeps =>
    exact ⟨Versioned.frame hok.1 rfl rfl hframe, Reserved.frame hok.2 hok.1 rfl hframe⟩
  | publishing w left => exact Publishing.frame hok hframe

end Frame

end TxnStore

end ChunkDb
