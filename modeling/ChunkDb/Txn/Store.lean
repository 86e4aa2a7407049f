/-
# Writes, transactions and snapshot reads of one table

The threads of a table take its chunks' locks, the history's lock and versions of the clock one
step at a time (`PrepareTxnKeepLocked` and `FinishOrdinaryMutationLocked` of `block_ops.cpp`,
`ReadChunkStateAt` and `CommitTransaction` of `txn_commit.cpp`, `Register` of `txn_history.cpp`).

`TxnStep` is one such step of any thread, and `TxnRun` a run of the table from its opening.  What
the steps have committed and read is written down beside the state, in `log` and `reads`.
-/
import ChunkDb.Txn.History

namespace ChunkDb

/-! ## The writes -/

/-- A write: of one chunk, from the contents it finds, or the writes of a transaction in the order
of their chunks. -/
inductive TxnWrite
  | plain (wholeChunk : Bool) (coord : ChunkCoord) (update : ChunkState → ChunkState)
  | transaction (id : ℕ) (reads : List ChunkCoord) (writes : List (ChunkCoord × ChunkState))

namespace TxnWrite

/-- The snapshot that the write ends. -/
def snapshot? : TxnWrite → Option ℕ
  | .plain .. => none
  | .transaction id _ _ => some id

/-- A transaction writes at least one chunk and each one once. -/
def Valid : TxnWrite → Prop
  | .plain .. => True
  | .transaction _ _ writes => writes ≠ [] ∧ (writes.map Prod.fst).Pairwise (· < ·)

/-- `targets`: the chunks in the order of their locks, and whether the lock is exclusive. -/
def targets : TxnWrite → List (ChunkCoord × Bool)
  | .plain _ coord _ => [(coord, true)]
  | .transaction _ reads writes =>
    (writes.map (fun write => (write.1, true))
      ++ (reads.dedup.filter (· ∉ writes.map Prod.fst)).map (fun coord => (coord, false))).mergeSort
      (fun lhs rhs => lhs.1 ≤ rhs.1)

/-- The chunks that the write reads or writes. -/
def coords (w : TxnWrite) : List ChunkCoord := w.targets.map Prod.fst

/-- `changes`: a transaction leaves a chunk alone that has the contents already. -/
def changes (chunks : ChunkCoord → StoredState) : TxnWrite → List (ChunkCoord × ChunkState)
  | .plain _ coord update => [(coord, update (chunks coord).toChunkState)]
  | .transaction _ _ writes => writes.filter fun write => write.2 ≠ (chunks write.1).toChunkState

/-- The reservation of the replaced state: whole for a write of a block, without payload and
presence for a write of a chunk (`PrepareTxnKeepLocked`), and empty for a transaction. -/
def prepareKeep (overhead : ℕ) (coord : ChunkCoord) (version : ℕ) (state : StoredState) :
    TxnWrite → TxnKeptState
  | .plain false _ _ => .reserve overhead coord version state
  | .plain true _ _ => .reserve overhead coord version { state with payload := [], presence := [] }
  | .transaction .. => .reserve overhead coord version ⟨⟨[], [], .empty⟩, 0, false⟩

/-- What the reservation is filled with once the write is committed. -/
def fillKeep (overhead : ℕ) (previous : StoredState) (kept : TxnKeptState) : TxnWrite → TxnKeptState
  | .plain false _ _ => kept
  | .plain true _ _ => kept.fillPayload overhead previous.payload previous.presence
  | .transaction .. => kept.fill overhead previous

end TxnWrite

/-- Memory takes the new states. -/
def applyChanges (version : ℕ) (changes : List (ChunkCoord × ChunkState))
    (chunks : ChunkCoord → StoredState) (coord : ChunkCoord) : StoredState :=
  match changes.lookup coord with
  | some state => ⟨state, version, true⟩
  | none => chunks coord

/-! ## The table -/

/-- A committed write. -/
structure TxnCommit where
  version : ℕ
  write : TxnWrite
  changes : List (ChunkCoord × ChunkState)

/-- What a read at a snapshot returned. -/
structure TxnRead where
  id : ℕ
  version : ℕ
  coord : ChunkCoord
  state : StoredState

/-- Where a thread stands. -/
inductive TxnThread
  | idle
  /-- In `ReadChunkStateAt`, with the copied current state. -/
  | reading (id : ℕ) (coord : ChunkCoord) (copied : StoredState)
  | locking (w : TxnWrite) (held todo : List (ChunkCoord × Bool))
  /-- All chunks are locked, and a transaction is validated. -/
  | validated (w : TxnWrite)
  | versioned (w : TxnWrite) (changes : List (ChunkCoord × ChunkState)) (version : ℕ)
  /-- The open count is loaded: no reservations, or one for each change. -/
  | prepared (w : TxnWrite) (changes : List (ChunkCoord × ChunkState)) (version : ℕ)
      (keeps : List TxnKeptState)
  /-- Committed, with the states still to publish. -/
  | publishing (w : TxnWrite) (left : List TxnKeptState)

/-- The chunk locks a thread holds. -/
def TxnThread.held : TxnThread → List (ChunkCoord × Bool)
  | .idle | .reading .. => []
  | .locking _ held _ => held
  | .validated w | .versioned w .. | .prepared w .. | .publishing w _ => w.targets

/-- How far `Register` is, which holds the history's lock. -/
inductive Registering
  | counted
  | sampled (version : ℕ)

/-- The table with its threads; `nextSnapshot` numbers the snapshots. -/
structure TxnStore where
  clock : ℕ
  history : TxnHistory
  chunks : ChunkCoord → StoredState
  registering : Option Registering
  threads : ℕ → TxnThread
  nextSnapshot : ℕ
  log : List TxnCommit
  reads : List TxnRead

namespace TxnStore

/-- The table as it is opened. -/
def opened (clock limitBytes overhead : ℕ) (node : ℕ → TxnKeptState)
    (initial : ChunkCoord → StoredState) : TxnStore where
  clock
  history := .new limitBytes overhead node
  chunks := initial
  registering := none
  threads := fun _ => .idle
  nextSnapshot := 0
  log := []
  reads := []

/-- A thread goes on. -/
def setThread (s : TxnStore) (t : ℕ) (thread : TxnThread) : TxnStore :=
  { s with threads := Function.update s.threads t thread }

/-- The lock of a chunk can be taken. -/
def Free (s : TxnStore) (coord : ChunkCoord) (exclusive : Bool) : Prop :=
  ∀ t, ∀ other, (coord, other) ∈ (s.threads t).held → exclusive = false ∧ other = false

end TxnStore

/-- One step of a thread. -/
inductive TxnStep : TxnStore → TxnStore → Prop
  /-- The loads of chunks without files take versions too. -/
  | raiseClock {s : TxnStore} (clock : ℕ) : s.clock ≤ clock → TxnStep s { s with clock }
  /-- `ExpireLocked`, of `ChangedSince` or of a read that fails. -/
  | expire {s : TxnStore} (now : ℕ) : s.registering = none →
      TxnStep s { s with history := s.history.expireLocked now }
  | endSnapshot {s : TxnStore} (id : ℕ) : s.registering = none →
      TxnStep s { s with history := s.history.endSnapshot id }
  | registerCount {s : TxnStore} (now : ℕ) : s.registering = none →
      TxnStep s { s with history := s.history.registerCount now, registering := some .counted }
  | registerSample {s : TxnStore} : s.registering = some .counted →
      TxnStep s { s with registering := some (.sampled (s.clock - 1)) }
  | registerPublish {s : TxnStore} (version deadline : ℕ) :
      s.registering = some (.sampled version) →
      TxnStep s { s with
        history := s.history.registerPublish s.nextSnapshot version deadline
        registering := none
        nextSnapshot := s.nextSnapshot + 1 }
  | registerFail {s : TxnStore} (phase : Registering) : s.registering = some phase →
      TxnStep s { s with history := s.history.registerFail, registering := none }
  /-- A read copies the current state under the chunk's shared lock. -/
  | readCopy {s : TxnStore} (t id : ℕ) (coord : ChunkCoord) : s.threads t = .idle →
      id < s.nextSnapshot → s.Free coord false →
      TxnStep s (s.setThread t (.reading id coord (s.chunks coord)))
  | readVisit {s : TxnStore} (t id now : ℕ) (coord : ChunkCoord) (copied : StoredState)
      (found : Option StoredState) : s.threads t = .reading id coord copied →
      s.registering = none → (s.history.visitAt now id coord).2 = .ok found →
      TxnStep s { s.setThread t .idle with
        history := (s.history.visitAt now id coord).1
        reads := s.reads ++ [⟨id, (s.history.snapshot id).version, coord, found.getD copied⟩] }
  | readFails {s : TxnStore} (t id now : ℕ) (coord : ChunkCoord) (copied : StoredState)
      (error : TxnError) : s.threads t = .reading id coord copied →
      s.registering = none → (s.history.visitAt now id coord).2 = .error error →
      TxnStep s { s.setThread t .idle with history := (s.history.visitAt now id coord).1 }
  /-- The commit of a transaction that wrote nothing. -/
  | commitEmpty {s : TxnStore} (id now : ℕ) : s.registering = none →
      TxnStep s { s with history := (s.history.validateAndEnd now id []).1 }
  | begin {s : TxnStore} (t : ℕ) (w : TxnWrite) : s.threads t = .idle → w.Valid →
      (∀ id ∈ w.snapshot?, id < s.nextSnapshot) →
      TxnStep s (s.setThread t (.locking w [] w.targets))
  | lock {s : TxnStore} (t : ℕ) (w : TxnWrite) (held todo : List (ChunkCoord × Bool))
      (target : ChunkCoord × Bool) : s.threads t = .locking w held (target :: todo) →
      s.Free target.1 target.2 →
      TxnStep s (s.setThread t (.locking w (held ++ [target]) todo))
  /-- A plain write has nothing to validate. -/
  | ready {s : TxnStore} (t : ℕ) (w : TxnWrite) (held : List (ChunkCoord × Bool)) :
      s.threads t = .locking w held [] → w.snapshot? = none →
      TxnStep s (s.setThread t (.validated w))
  | validate {s : TxnStore} (t id now : ℕ) (w : TxnWrite) (held : List (ChunkCoord × Bool)) :
      s.threads t = .locking w held [] → w.snapshot? = some id → s.registering = none →
      (s.history.validateAndEnd now id w.coords).2 = .ok () →
      TxnStep s { s.setThread t (.validated w) with
        history := (s.history.validateAndEnd now id w.coords).1 }
  | validateFails {s : TxnStore} (t id now : ℕ) (w : TxnWrite) (held : List (ChunkCoord × Bool))
      (error : TxnError) : s.threads t = .locking w held [] → w.snapshot? = some id →
      s.registering = none → (s.history.validateAndEnd now id w.coords).2 = .error error →
      TxnStep s { s.setThread t .idle with
        history := (s.history.validateAndEnd now id w.coords).1 }
  /-- `NextChunkVersion`. -/
  | takeVersion {s : TxnStore} (t : ℕ) (w : TxnWrite) : s.threads t = .validated w →
      w.changes s.chunks ≠ [] →
      TxnStep s { s.setThread t (.versioned w (w.changes s.chunks) s.clock) with
        clock := s.clock + 1 }
  /-- The open count is loaded after the version was taken. -/
  | prepare {s : TxnStore} (t : ℕ) (w : TxnWrite) (changes : List (ChunkCoord × ChunkState))
      (version : ℕ) : s.threads t = .versioned w changes version →
      TxnStep s (s.setThread t (.prepared w changes version
        (if s.history.openCount = 0 then [] else changes.map fun change =>
          w.prepareKeep s.history.overhead change.1 version (s.chunks change.1))))
  /-- The commit point, after which memory takes the new states. -/
  | commit {s : TxnStore} (t : ℕ) (w : TxnWrite) (changes : List (ChunkCoord × ChunkState))
      (version : ℕ) (keeps : List TxnKeptState) :
      s.threads t = .prepared w changes version keeps →
      TxnStep s { s.setThread t (.publishing w (keeps.map fun kept =>
          w.fillKeep s.history.overhead (s.chunks kept.coord) kept)) with
        chunks := applyChanges version changes s.chunks
        log := s.log ++ [⟨version, w, changes⟩] }
  | publish {s : TxnStore} (t now : ℕ) (w : TxnWrite) (kept : TxnKeptState)
      (left : List TxnKeptState) : s.threads t = .publishing w (kept :: left) →
      s.registering = none →
      TxnStep s { s.setThread t (.publishing w left) with
        history := (s.history.publish now (some kept)).1 }
  /-- The locks are released. -/
  | done {s : TxnStore} (t : ℕ) (w : TxnWrite) : s.threads t = .publishing w [] →
      TxnStep s (s.setThread t .idle)
  /-- A write that fails before its commit point, or has nothing to change. -/
  | abort {s : TxnStore} (t : ℕ) : (∀ w left, s.threads t ≠ .publishing w left) →
      TxnStep s (s.setThread t .idle)

/-- A run of the table from its opening. -/
inductive TxnRun (initial : ChunkCoord → StoredState) : TxnStore → Prop
  | opened (clock limitBytes overhead : ℕ) (node : ℕ → TxnKeptState) : 0 < clock →
      TxnRun initial (.opened clock limitBytes overhead node initial)
  | step {s s' : TxnStore} : TxnRun initial s → TxnStep s s' → TxnRun initial s'

end ChunkDb
