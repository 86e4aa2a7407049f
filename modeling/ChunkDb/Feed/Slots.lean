/-
# Feed slots

The slot records of a table (`feed_slot_records.cpp`) and the operations on them
(`feed_slots.cpp`).  Every operation edits a copy of the records, persists the copy and
only then installs it.  `chunkdb.slots` is replaced by an atomic write, which can fail
before the replacement or after it; an operation takes that outcome as an argument.
Acknowledgements are staged beside the records and merged by `flushAcks`.

The directory listing behind `RetainedBytes` is a function of a position here; the files
it counts are in `ChunkDb.Feed.Retention`.
-/
import ChunkDb.Schema
import ChunkDb.Wal.Header

namespace ChunkDb

/-! ## Records -/

/-- `FeedArea`: two opposite corners, both inside. -/
structure FeedArea where
  first : ChunkCoord
  last : ChunkCoord
  deriving DecidableEq

/-- `FeedSlotFilters`. -/
structure FeedSlotFilters where
  area : Option FeedArea
  columnIds : Option (List ℕ)
  noBefore : Bool
  chunks : Bool
  deriving DecidableEq

def FeedSlotFilters.empty (filters : FeedSlotFilters) : Bool :=
  filters.area.isNone && filters.columnIds.isNone && !filters.noBefore && !filters.chunks

/-- `FeedSlotRecord`. -/
structure FeedSlotRecord where
  name : String
  written : ℕ
  lost : Bool
  filters : FeedSlotFilters
  schemaFilterLost : Bool
  owner : Option String
  deriving DecidableEq

/-- `FeedSlotRecords`: what `chunkdb.slots` holds. -/
structure FeedSlotRecords where
  epoch : StoreId
  durableWatermark : ℕ
  slots : List FeedSlotRecord
  filterFormat : Bool
  deriving DecidableEq

/-- `FeedPosition`. -/
structure FeedPosition where
  epoch : StoreId
  revision : ℕ
  deriving DecidableEq

/-- What an operation on slots throws. -/
inductive SlotError
  | thrown (e : Exn)
  | notFound (what : String)
  | lost (what reason : String)
  | filters (what : String)
  | outcomeUnknown (what : String)
  | failClosed
  deriving DecidableEq

/-! ## Validation -/

/-- `IsValidUserName`, which is also the rule for the name of a slot. -/
def isValidUserName (name : String) : Bool :=
  let lowerOrUnderscore := fun c : Char => ('a' ≤ c && c ≤ 'z') || c == '_'
  match name.toList with
  | [] => false
  | first :: rest =>
    decide (rest.length + 1 ≤ 63) && lowerOrUnderscore first
      && (first :: rest).all (fun c => lowerOrUnderscore c || ('0' ≤ c && c ≤ '9'))

/-- `RequireValidFeedSlotName`. -/
def requireValidFeedSlotName (name : String) : Fallible Unit :=
  require (isValidUserName name)
    ⟨.invalidArgument, "slot names are 1 to 63 bytes: [a-z_][a-z0-9_]*"⟩

/-- `RequireValidFeedSlotOwner`. -/
def requireValidFeedSlotOwner (owner : String) : Fallible Unit :=
  require (isValidUserName owner)
    ⟨.invalidArgument, "slot owners are user names, 1 to 63 bytes: [a-z_][a-z0-9_]*"⟩

/-- `kFixedBytes`: the header of `chunkdb.slots` and its checksum. -/
def kSlotsFixedBytes : ℕ := 4 + 2 + 2 + 16 + 8 + 4 + 4
def kMaxSlotRecordsBytes : ℕ := 1024 * 1024
def kMaxSlots : ℕ := 1024

/-- `BadRecords`. -/
def badRecords (why : String) : Exn := ⟨.runtimeError, "invalid chunkdb.slots: " ++ why⟩

/-- The bytes one slot takes in the file. -/
def FeedSlotRecord.encodedSize (slot : FeedSlotRecord) : ℕ :=
  12 + slot.name.utf8ByteSize + (if slot.filters.area.isSome then 32 else 0)
    + (slot.filters.columnIds.map (·.length * 4)).getD 0
    + (slot.owner.map (1 + ·.utf8ByteSize)).getD 0

/-- The checks of one slot that look at nothing but the slot. -/
def validateSlotRecord (slot : FeedSlotRecord) : Fallible Unit := do
  require (slot.schemaFilterLost → slot.lost) (badRecords "schema loss without lost state")
  require (∀ area ∈ slot.filters.area, area.first.x ≤ area.last.x ∧ area.first.y ≤ area.last.y)
    (badRecords "reversed filter area")
  require (∀ ids ∈ slot.filters.columnIds, ids ≠ [] ∧ ids.length ≤ kMaxColumnsPerTable)
    (badRecords "projection size")
  require (∀ ids ∈ slot.filters.columnIds, 0 ∉ ids ∧ ids.Nodup)
    (badRecords "zero or duplicate projection id")
  require (∀ owner ∈ slot.owner, isValidUserName owner) (badRecords "owner is not a user name")

/-- The loop of `ValidateRecords`, with the names and the size seen so far. -/
def validateSlots (durableWatermark : ℕ) : List String → ℕ → List FeedSlotRecord → Fallible Unit
  | _, _, [] => .ok ()
  | names, encodedSize, slot :: slots => do
    requireValidFeedSlotName slot.name
    require (slot.name ∉ names) (badRecords "duplicate name")
    require (slot.written ≤ durableWatermark) (badRecords "position above durable watermark")
    validateSlotRecord slot
    require (encodedSize + slot.encodedSize ≤ kMaxSlotRecordsBytes) (badRecords "size")
    validateSlots durableWatermark (slot.name :: names) (encodedSize + slot.encodedSize) slots

/-- `ValidateRecords`. -/
def validateRecords (records : FeedSlotRecords) : Fallible Unit := do
  require (records.epoch.bytes.any (· != 0)) (badRecords "zero epoch")
  require (records.slots.length ≤ kMaxSlots) (badRecords "too many slot records")
  validateSlots records.durableWatermark [] kSlotsFixedBytes records.slots

/-- The names of the records, in order. -/
def FeedSlotRecords.names (records : FeedSlotRecords) : List String :=
  records.slots.map FeedSlotRecord.name

/-- `std::find_if` for the slot of a name. -/
def FeedSlotRecords.find (records : FeedSlotRecords) (name : String) : Option FeedSlotRecord :=
  records.slots.find? (·.name == name)

/-- The records with one function run over the slot of a name. -/
def FeedSlotRecords.edit (records : FeedSlotRecords) (name : String)
    (f : FeedSlotRecord → FeedSlotRecord) : FeedSlotRecords :=
  { records with slots := records.slots.map fun slot => if slot.name = name then f slot else slot }

/-! ## The state -/

/-- A store's slots: `records_`, what `chunkdb.slots` holds, the staged
acknowledgements, `feed_slots_active_` and whether the store is fail-closed. -/
structure SlotsState where
  records : FeedSlotRecords
  file : FeedSlotRecords
  pending : String → Option ℕ
  active : Bool
  poisoned : Bool
  maxBytes : ℕ

/-- What an operation leaves: the state, and its result or what it threw. -/
abbrev SlotResult (A : Type) := SlotsState × Except SlotError A

/-- How the atomic write of `chunkdb.slots` ends: an exception before the file is
replaced, one after it, or none. -/
inductive PersistOutcome
  | written
  | failed (e : Exn)
  | unknown (e : Exn)

/-- `Persist`. -/
def SlotsState.persist (s : SlotsState) (next : FeedSlotRecords) (outcome : PersistOutcome) :
    SlotResult Unit :=
  let next := { next with
    filterFormat := next.filterFormat ||
      next.slots.any fun slot => !slot.filters.empty || slot.schemaFilterLost }
  match validateRecords next with
  | .error e => (s, .error (.thrown e))
  | .ok () =>
    match outcome with
    | .failed e => (s, .error (.thrown e))
    | .unknown e =>
      -- the replacement exists, but its durability is ambiguous
      ({ s with file := next, active := true, poisoned := true },
        .error (.outcomeUnknown ("feed slot record publication failed: " ++ e.what)))
    | .written =>
      ({ s with records := next, file := next, active := next.slots.any (!·.lost) }, .ok ())

/-- `SyncImpl`.  `flush` is what the flush and the syncs of the WALs threw, if they did. -/
def SlotsState.syncImpl (s : SlotsState) (completed : ℕ) (flush : Option SlotError)
    (outcome : PersistOutcome) : SlotResult Bool :=
  if s.poisoned then (s, .error .failClosed)
  else match flush with
    | some e => (s, .error e)
    | none =>
      if completed ≤ s.records.durableWatermark then (s, .ok false)
      else
        let next := { s.records with durableWatermark := completed }
        if next.slots.isEmpty then ({ s with records := next }, .ok true)
        else match s.persist next outcome with
          | (s, .error e) => (s, .error e)
          | (s, .ok ()) => (s, .ok true)

/-- `Sync`: whatever `SyncImpl` throws freezes the store. -/
def SlotsState.sync (s : SlotsState) (completed : ℕ) (flush : Option SlotError)
    (outcome : PersistOutcome) : SlotResult Bool :=
  match s.syncImpl completed flush outcome with
  | (s, .error e) => ({ s with poisoned := true }, .error e)
  | (s, .ok advanced) => (s, .ok advanced)

/-- `FeedSlot`, what `Create` answers. -/
structure FeedSlot where
  name : String
  position : FeedPosition
  durableWatermark : ℕ
  lost : Bool
  filters : FeedSlotFilters
  schemaFilterLost : Bool
  owner : Option String
  deriving DecidableEq

/-- The answer for an existing slot, which `IF NOT EXISTS` gives when the filters agree. -/
def SlotsState.existing (s : SlotsState) (found : FeedSlotRecord) (filters : FeedSlotFilters) :
    Except SlotError FeedSlot :=
  if found.filters ≠ filters then .error (.filters "feed slot filters differ from existing slot")
  else .ok ⟨found.name, ⟨s.records.epoch, found.written⟩, s.records.durableWatermark, found.lost,
    found.filters, found.schemaFilterLost, found.owner⟩

/-- The end of `Create`, under the lock, after `Sync`. -/
def SlotsState.createSynced (s : SlotsState) (name : String) (completed : ℕ) (ifNotExists : Bool)
    (filters : FeedSlotFilters) (owner : Option String) (outcome : PersistOutcome) :
    SlotResult FeedSlot :=
  match s.records.find name with
  | some found =>
    if ifNotExists then (s, s.existing found filters)
    else (s, .error (.thrown ⟨.invalidArgument, "feed slot already exists: " ++ name⟩))
  | none =>
    let slot : FeedSlotRecord := ⟨name, completed, false, filters, false, owner⟩
    match s.persist { s.records with slots := s.records.slots ++ [slot] } outcome with
    | (s, .error e) => (s, .error e)
    | (s, .ok ()) =>
      (s, .ok ⟨name, ⟨s.records.epoch, completed⟩, s.records.durableWatermark, false, filters,
        false, owner⟩)

/-- `Create`. -/
def SlotsState.create (s : SlotsState) (name : String) (completed : ℕ) (ifNotExists : Bool)
    (filters : FeedSlotFilters) (owner : Option String) (flush : Option SlotError)
    (syncOutcome outcome : PersistOutcome) : SlotResult FeedSlot :=
  match requireValidFeedSlotName name with
  | .error e => (s, .error (.thrown e))
  | .ok () =>
    if s.poisoned then (s, .error .failClosed)
    else match (if ifNotExists then s.records.find name else none) with
      | some found => (s, s.existing found filters)
      | none =>
        match s.sync completed flush syncOutcome with
        | (s, .error e) => (s, .error e)
        | (s, .ok _) => s.createSynced name completed ifNotExists filters owner outcome

/-- `Drop`, called by `Table::DropFeedSlot`, which refuses a fail-closed store first. -/
def SlotsState.drop (s : SlotsState) (name : String) (ifExists : Bool)
    (outcome : PersistOutcome) : SlotResult Unit :=
  match requireValidFeedSlotName name with
  | .error e => (s, .error (.thrown e))
  | .ok () =>
    if s.poisoned then (s, .error .failClosed)
    else match s.records.find name with
      | none =>
        (s, if ifExists then .ok () else .error (.notFound ("unknown feed slot: " ++ name)))
      | some _ =>
        let next := { s.records with slots := s.records.slots.eraseP (·.name == name) }
        match s.persist next outcome with
        | (s, .error e) => (s, .error e)
        | (s, .ok ()) => ({ s with pending := Function.update s.pending name none }, .ok ())

/-- `BindOwner`. -/
def SlotsState.bindOwner (s : SlotsState) (name owner : String) (outcome : PersistOutcome) :
    SlotResult Unit :=
  match requireValidFeedSlotOwner owner with
  | .error e => (s, .error (.thrown e))
  | .ok () =>
    if s.poisoned then (s, .error .failClosed)
    else match s.records.find name with
      | none => (s, .error (.notFound ("unknown feed slot: " ++ name)))
      | some found =>
        if found.owner.isSome then (s, .ok ())
        else s.persist (s.records.edit name fun slot => { slot with owner := some owner }) outcome

/-- `FeedSlotLostError` for a slot. -/
def FeedSlotRecord.lostError (slot : FeedSlotRecord) : SlotError :=
  if slot.schemaFilterLost then .lost "feed slot projected column was dropped" "schema_filter"
  else .lost "feed slot exceeded its retention limit" "retention_limit"

/-- `Advance`. -/
def SlotsState.advance (s : SlotsState) (name : String) (position : FeedPosition)
    (outcome : PersistOutcome) : SlotResult Unit :=
  match requireValidFeedSlotName name with
  | .error e => (s, .error (.thrown e))
  | .ok () =>
    if s.poisoned then (s, .error .failClosed)
    else match s.records.find name with
      | none => (s, .error (.notFound ("unknown feed slot: " ++ name)))
      | some found =>
        if found.lost then (s, .error found.lostError)
        else if position.epoch ≠ s.records.epoch ∨ position.revision < found.written ∨
            s.records.durableWatermark < position.revision then
          (s, .error (.thrown ⟨.invalidArgument,
            "feed slot position has wrong epoch, decreases or exceeds durable watermark"⟩))
        else if position.revision = found.written then (s, .ok ())
        else
          s.persist (s.records.edit name fun slot => { slot with written := position.revision })
            outcome

/-- `StageAck`. -/
def SlotsState.stageAck (s : SlotsState) (name : String) (position : FeedPosition) :
    SlotResult Unit :=
  if s.poisoned then (s, .error .failClosed)
  else match s.records.find name with
    | none => (s, .error (.notFound ("unknown feed slot: " ++ name)))
    | some found =>
      if found.lost then (s, .error found.lostError)
      else if position.epoch ≠ s.records.epoch then
        (s, .error (.thrown ⟨.invalidArgument, "ACK belongs to another epoch"⟩))
      else if position.revision ≤ found.written then (s, .ok ())
      else
        let pending := max ((s.pending name).getD 0) position.revision
        ({ s with pending := Function.update s.pending name (some pending) }, .ok ())

/-- What `FlushAcks` makes of one slot: the staged position, once the watermark covers it. -/
def SlotsState.acknowledge (s : SlotsState) (slot : FeedSlotRecord) : FeedSlotRecord :=
  match s.pending slot.name with
  | none => slot
  | some revision =>
    if slot.lost ∨ s.records.durableWatermark < revision ∨ revision ≤ slot.written then slot
    else { slot with written := revision }

/-- `erase_if` at the end of `FlushAcks`. -/
def SlotsState.discardAcks (s : SlotsState) : SlotsState :=
  { s with
    pending := fun name =>
      match s.records.find name with
      | none => none
      | some slot =>
        match s.pending name with
        | none => none
        | some revision => if slot.lost ∨ revision ≤ slot.written then none else some revision }

/-- `FlushAcks`.  `due` holds when the flush is forced or 100 ms have passed; the test
whether anything is staged is the loop finding nothing. -/
def SlotsState.flushAcks (s : SlotsState) (due : Bool) (outcome : PersistOutcome) :
    SlotResult Bool :=
  if s.poisoned then (s, .error .failClosed)
  else if !due then (s, .ok false)
  else
    let slots := s.records.slots.map s.acknowledge
    if slots = s.records.slots then (s.discardAcks, .ok false)
    else match s.persist { s.records with slots := slots } outcome with
      | (s, .error e) => (s, .error e)
      | (s, .ok ()) => (s.discardAcks, .ok true)

/-- Whether `Retain` gives a slot up. -/
def SlotsState.exceeds (s : SlotsState) (retainedBytes : ℕ → ℕ) (slot : FeedSlotRecord) : Bool :=
  !slot.lost && decide (s.maxBytes < retainedBytes slot.written)

/-- The slot `Retain` makes of one. -/
def SlotsState.giveUp (s : SlotsState) (retainedBytes : ℕ → ℕ) (slot : FeedSlotRecord) :
    FeedSlotRecord :=
  if s.exceeds retainedBytes slot then { slot with lost := true } else slot

/-- The part of `Retain` that marks slots: the lost marks are persisted before any file
is removed. -/
def SlotsState.markLost (s : SlotsState) (retainedBytes : ℕ → ℕ) (outcome : PersistOutcome) :
    SlotResult Unit :=
  if s.poisoned then (s, .error .failClosed)
  else
    let lost := (s.records.slots.filter (s.exceeds retainedBytes)).map FeedSlotRecord.name
    let slots := s.records.slots.map (s.giveUp retainedBytes)
    if lost.isEmpty then (s, .ok ())
    else match s.persist { s.records with slots := slots } outcome with
      | (s, .error e) => (s, .error e)
      | (s, .ok ()) =>
        ({ s with pending := fun name => if name ∈ lost then none else s.pending name }, .ok ())

end ChunkDb
