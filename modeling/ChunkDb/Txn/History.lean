/-
# The history of a table's open transactions

`TxnHistory` keeps, for the snapshots that are registered, the states that later writes replaced
(`txn_history.hpp`, `txn_history.cpp`).  The kept states are nodes of a multimap by chunk, and
are linked among themselves in the order of their tags, the versions of the writes.

`TxnHistory.Core` says how the two structures, the counters and the snapshots fit together; it
holds of every step between two loops of the code.  `TxnHistory.Rep` adds that nothing is kept
which no snapshot needs, and holds after every operation.  `TxnHistory.Shrinks` is what may be
lost on the way: snapshots, and states that none of the snapshots left can read.
-/
import ChunkDb.Coords
import ChunkDb.Lib.LinkedList
import ChunkDb.Lib.MultiMap
import ChunkDb.Translate

namespace ChunkDb

/-! ## The model -/

/-- `ChunkState`: the contents of a chunk with its version. -/
structure StoredState extends ChunkState where
  version : ℕ
  written : Bool
  deriving DecidableEq

/-- `TxnConflictReason`. -/
inductive TxnConflictReason
  | chunkChanged
  | duration
  | historyLimit
  | tableChanged
  deriving DecidableEq

/-- `ConflictMessage`. -/
def conflictMessage : TxnConflictReason → String
  | .chunkChanged => "a chunk the transaction read or wrote changed after its snapshot"
  | .duration => "the transaction was open longer than its duration limit"
  | .historyLimit => "the table's kept states for open transactions reached their byte limit"
  | .tableChanged => "the table was altered or dropped during the transaction"

/-- What the operations of a transaction throw. -/
inductive TxnError
  | conflict (reason : TxnConflictReason) (message : String)
  | invalidArgument (message : String)
  deriving DecidableEq

/-- `TransactionConflictError`. -/
def TxnError.ofReason (reason : TxnConflictReason) : TxnError :=
  .conflict reason (conflictMessage reason)

/-- `TxnSnapshot`; its places in the two maps are its version and its deadline. -/
structure TxnSnapshot where
  version : ℕ := 0
  deadline : ℕ := 0
  registered : Bool := false
  endReason : Option TxnConflictReason := none
  deriving DecidableEq

/-- `TxnKeptState` without its links. -/
structure TxnKeptState where
  tag : ℕ
  coord : ChunkCoord
  state : StoredState
  bytes : ℕ

/-- What a state counts toward the limit. -/
def keptStateBytes (overhead : ℕ) (state : StoredState) : ℕ :=
  state.payload.length + state.presence.length + state.vars.encodedSize + overhead

namespace TxnKeptState

/-- `Reserve`. -/
def reserve (overhead : ℕ) (coord : ChunkCoord) (tag : ℕ) (state : StoredState) : TxnKeptState :=
  ⟨tag, coord, state, keptStateBytes overhead state⟩

/-- `Fill`. -/
def fill (overhead : ℕ) (kept : TxnKeptState) (state : StoredState) : TxnKeptState :=
  { kept with state, bytes := keptStateBytes overhead state }

/-- `FillPayload`. -/
def fillPayload (overhead : ℕ) (kept : TxnKeptState) (payload presence : Bytes) : TxnKeptState :=
  kept.fill overhead { kept.state with payload, presence }

end TxnKeptState

/-- `TxnHistory`.  Nodes and snapshots are known by numbers, as by their addresses; `overhead` is
what a node counts beside its state, `sizeof(TxnKeptState) + 64`. -/
structure TxnHistory where
  limitBytes : ℕ
  overhead : ℕ
  openCount : ℕ
  byVersion : MultiMap ℕ ℕ
  byDeadline : MultiMap ℕ ℕ
  kept : MultiMap ChunkCoord ℕ
  links : LinkedList ℕ
  keptBytes : ℕ
  node : ℕ → TxnKeptState
  nextNode : ℕ
  snapshot : ℕ → TxnSnapshot

namespace TxnHistory

/-- A new history. -/
def new (limitBytes overhead : ℕ) (node : ℕ → TxnKeptState) : TxnHistory where
  limitBytes
  overhead
  openCount := 0
  byVersion := .empty
  byDeadline := .empty
  kept := .empty
  links := .empty
  keptBytes := 0
  node
  nextNode := 0
  snapshot := fun _ => {}

variable (h : TxnHistory)

/-- `UnregisterLocked`. -/
def unregisterLocked (id : ℕ) (reason : Option TxnConflictReason) : TxnHistory :=
  { h with
    byVersion := h.byVersion.erase (h.snapshot id).version id
    byDeadline := h.byDeadline.erase (h.snapshot id).deadline id
    snapshot := Function.update h.snapshot id
      { h.snapshot id with registered := false, endReason := reason }
    openCount := h.openCount - 1 }

/-- `EraseLocked`. -/
def eraseLocked (node : ℕ) : TxnHistory :=
  { h with
    links := h.links.unlink node
    keptBytes := h.keptBytes - (h.node node).bytes
    kept := h.kept.erase (h.node node).coord node }

/-- The node that the loop of `PruneLocked` drops next. -/
def prunable : Option ℕ :=
  match h.links.oldest with
  | none => none
  | some node =>
    match h.byVersion.first? with
    | none => some node
    | some (version, _) => if (h.node node).tag ≤ version then some node else none

/-- The loop of `PruneLocked`. -/
def pruneLoop : ℕ → TxnHistory → TxnHistory
  | 0, h => h
  | fuel + 1, h =>
    match h.prunable with
    | none => h
    | some node => pruneLoop fuel (h.eraseLocked node)

/-- `PruneLocked`. -/
def pruneLocked : TxnHistory := pruneLoop h.kept.entries.length h

/-- The loop of `ExpireLocked`: with what is left, whether a snapshot expired. -/
def expireLoop (now : ℕ) : ℕ → TxnHistory → Bool → TxnHistory × Bool
  | 0, h, expired => (h, expired)
  | fuel + 1, h, expired =>
    match h.byDeadline.first? with
    | none => (h, expired)
    | some (deadline, id) =>
      if deadline ≤ now then expireLoop now fuel (h.unregisterLocked id (some .duration)) true
      else (h, expired)

/-- `ExpireLocked`. -/
def expireLocked (now : ℕ) : TxnHistory :=
  let (left, expired) := expireLoop now h.byDeadline.entries.length h false
  if expired then left.pruneLocked else left

/-- `needed` of `Publish`: a registered snapshot is older than the write, and no kept state of the
chunk is tagged above the newest snapshot. -/
def needed (state : TxnKeptState) : Bool :=
  match h.byVersion.first? with
  | none => false
  | some (oldest, _) =>
    if state.tag ≤ oldest then false
    else
      match (h.kept.equalRange state.coord).getLast?, h.byVersion.last? with
      | some node, some (newest, _) => !(newest < (h.node node).tag)
      | _, _ => true

/-- The loop of `Publish` that makes room: the oldest snapshots go first. -/
def evictLoop (state : TxnKeptState) : ℕ → TxnHistory → TxnHistory
  | 0, h => h
  | fuel + 1, h =>
    if h.needed state ∧ h.limitBytes < h.keptBytes + state.bytes then
      match h.byVersion.first? with
      | none => h
      | some (_, id) =>
        evictLoop state fuel (h.unregisterLocked id (some .historyLimit)).pruneLocked
    else h

/-- The node goes into the map, and behind the newest one that is not tagged above it. -/
def insertKept (state : TxnKeptState) : TxnHistory :=
  let before := h.links.walkBack (fun node => state.tag < (h.node node).tag)
    h.kept.entries.length h.links.newest
  { h with
    kept := h.kept.emplace state.coord h.nextNode
    node := Function.update h.node h.nextNode state
    nextNode := h.nextNode + 1
    links := h.links.link before h.nextNode
    keptBytes := h.keptBytes + state.bytes }

/-- `Publish`, with the reservation that is left. -/
def publish (now : ℕ) (reservation : Option TxnKeptState) : TxnHistory × Option TxnKeptState :=
  match reservation with
  | none => (h, none)
  | some state =>
    let h := h.expireLocked now
    if h.needed state then
      let h := evictLoop state h.byVersion.entries.length h
      if h.needed state then (h.insertKept state, none) else (h, some state)
    else (h, some state)

/-- `Register`, up to the count. -/
def registerCount (now : ℕ) : TxnHistory :=
  let h := h.expireLocked now
  { h with openCount := h.openCount + 1 }

/-- `Register`, from the version it read. -/
def registerPublish (id version deadline : ℕ) : TxnHistory :=
  { h with
    byVersion := h.byVersion.emplace version id
    byDeadline := h.byDeadline.emplace deadline id
    snapshot := Function.update h.snapshot id ⟨version, deadline, true, none⟩ }

/-- `Register` when the snapshot cannot be published. -/
def registerFail : TxnHistory := { h with openCount := h.openCount - 1 }

/-- `End`. -/
def endSnapshot (id : ℕ) : TxnHistory :=
  if (h.snapshot id).registered then (h.unregisterLocked id none).pruneLocked else h

/-- `RequireRegisteredLocked`. -/
def requireRegistered (id : ℕ) : Except TxnError Unit :=
  if (h.snapshot id).registered then .ok ()
  else
    match (h.snapshot id).endReason with
    | some reason => .error (.ofReason reason)
    | none => .error (.invalidArgument "the transaction has ended")

/-- `OldestAboveLocked`. -/
def oldestAbove (coord : ChunkCoord) (version : ℕ) : Option TxnKeptState :=
  ((h.kept.equalRange coord).map h.node).find? (fun kept => version < kept.tag)

/-- `VisitAt`: the kept state that the snapshot reads instead of the current one. -/
def visitAt (now id : ℕ) (coord : ChunkCoord) : TxnHistory × Except TxnError (Option StoredState) :=
  let h := h.expireLocked now
  (h, (h.requireRegistered id).map fun _ =>
    (h.oldestAbove coord (h.snapshot id).version).map TxnKeptState.state)

/-- `ChangedSince`. -/
def changedSince (now id : ℕ) (coord : ChunkCoord) : TxnHistory × Except TxnError Bool :=
  let h := h.expireLocked now
  (h, (h.requireRegistered id).map fun _ => (h.oldestAbove coord (h.snapshot id).version).isSome)

/-- `ValidateAndEnd`. -/
def validateAndEnd (now id : ℕ) (coords : List ChunkCoord) : TxnHistory × Except TxnError Unit :=
  let h := h.expireLocked now
  match h.requireRegistered id with
  | .error e => (h, .error e)
  | .ok _ =>
    let changed := coords.any fun coord => (h.oldestAbove coord (h.snapshot id).version).isSome
    ((h.unregisterLocked id none).pruneLocked,
      if changed then .error (.ofReason .chunkChanged) else .ok ())

end TxnHistory

end ChunkDb
