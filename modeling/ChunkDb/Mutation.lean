/-
# The writes that change a chunk

Every write path works on the chunk in memory and builds one WAL frame from what it
changed (`block_ops.cpp`, `chunk_ops.cpp`, `txn_commit.cpp`).  Here a write is a
function of the state it finds: it throws, changes nothing, or gives the state after
it and the records of its frame.  Version checks, locks and files are not part of it.
-/
import ChunkDb.Wal.Replay

open ByteBits

namespace ChunkDb

/-- The state a write leaves, and the records of its frame. -/
structure Mutated where
  state : ChunkState
  records : List WalRecord
  deriving DecidableEq

/-- What the write paths use of a table: the layout of the current schema, and
`var_max_chunk_bytes`. -/
structure Writer where
  layout : ChunkLayout
  varMaxChunkBytes : ℕ
  limit_le : varMaxChunkBytes ≤ kVarMaxChunkBytesLimit

/-! ## Text and bytes values -/

/-- `VarUpdate::empty`. -/
def VarUpdate.isEmpty (update : VarUpdate) : Bool := update.changes = [] && update.replace.isNone

/-- `RequireVarWrite`: values over the limit may still shrink. -/
def Writer.requireVarWrite (writer : Writer) (current : ChunkVars) (update : VarUpdate) :
    Fallible Unit :=
  if update.isEmpty then .ok ()
  else
    let after := varsSizeAfter current update
    require (¬ (after > writer.varMaxChunkBytes ∧ after > current.encodedSize))
      ⟨.invalidArgument, "the text and bytes values of the chunk would take " ++ toString after
        ++ " bytes, more than var_max_chunk_bytes (" ++ toString writer.varMaxChunkBytes ++ ")"⟩

/-- An update applied, unless it is empty. -/
def updateVars (vars : ChunkVars) (update : VarUpdate) : Fallible ChunkVars :=
  if update.isEmpty then .ok vars else applyVarUpdate vars update

/-- `AppendVarUpdate`: the records of an update that gave `vars`. -/
def varUpdateRecords (vars : ChunkVars) (update : VarUpdate) : List WalRecord :=
  if update.replace.isSome then [.varReplace vars]
  else update.changes.map fun change =>
    match vars.find change.1 with
    | some value => .varPut change.1 value
    | none => .varDel change.1

/-- `VarUpdateForState`: the values of absent blocks go. -/
def varUpdateForState (current : ChunkVars) (presence : Bytes) : VarUpdate where
  changes := (current.entries.filter fun entry => !getBit presence entry.1.blockIndex.toNat).map
    fun entry => (entry.1, none)
  replace := none

/-! ## Values that are being narrowed -/

/-- The error of a value that is being narrowed away. -/
def narrowedAway (column : Column) (pending : PendingNarrowing) (value : String) : Exn :=
  ⟨.invalidArgument, "column " ++ column.name ++ " is being narrowed to "
    ++ columnTypeName pending.type ++ ", which does not hold " ++ value⟩

/-- The part of `RequirePendingFits` for one block of a fixed-width column. -/
def requireBlockFits (column : Column) (fixed : FixedColumn) (pending : PendingNarrowing)
    (payload presence : Bytes) (block : ℕ) : Fallible Unit :=
  if getBit presence block = false
      ∨ ∃ validity ∈ fixed.validity, getBit payload (validity * 8 + block) = false then .ok ()
  else do
    let value ← decodeColumnValue column
      (readValueBits payload (fixed.values * 8 + block * fixed.width) fixed.width)
    require (valueFits pending.type value = true)
      (narrowedAway column pending ("the value of block index " ++ toString block))

/-- `RequirePendingFits`; without `vars` the write keeps the values of text and bytes columns. -/
def ChunkLayout.requirePendingFits (layout : ChunkLayout) (payload presence : Bytes)
    (vars : Option ChunkVars) : Fallible Unit :=
  match layout.schema.pending with
  | none => .ok ()
  | some pending =>
    match layout.indexOfId pending.columnId with
    | none => .ok ()
    | some index =>
      match layout.schema.columns[index]?, layout.fixedColumnAt index, vars with
      | some column, none, some vars =>
        checkAll (fun entry : VarKey × Bytes =>
          require (¬ (entry.1.columnId = column.id
              ∧ valueFits pending.type (decodeVarValue column entry.2) = false))
            (narrowedAway column pending
              ("the value of block index " ++ toString entry.1.blockIndex.toNat))) vars.entries
      | some column, some fixed, _ =>
        checkAll (requireBlockFits column fixed pending payload presence)
          (List.range layout.blockCount)
      | _, _, _ => .ok ()

/-! ## Writing one block by columns -/

/-- `ColumnAssignment`. -/
structure ColumnAssignment where
  column : String
  value : ColumnValue

/-- `BlockWrite::Edit` with the bytes of its value. -/
structure BlockEdit where
  fixed : FixedColumn
  null : Bool
  value : Bytes
  deriving DecidableEq

/-- `BlockWrite`; `given` holds the indexes of the columns the caller gave. -/
structure BlockWrite where
  edits : List BlockEdit
  varChanges : List VarChange
  given : List ℕ
  deriving DecidableEq

namespace BlockWrite

/-- `BlockWrite::Add` followed by a copy of the value into the new edit. -/
def add (write : BlockWrite) (fixed : FixedColumn) (null : Bool) (value : Bytes) : BlockWrite :=
  { write with edits := write.edits
      ++ [⟨fixed, null, copyInto (List.replicate (bytesForBits fixed.width) 0) 0 value⟩] }

/-- A change of a text or bytes value. -/
def change (write : BlockWrite) (column : Column) (block : ℕ) (value : Option Bytes) : BlockWrite :=
  { write with varChanges := write.varChanges ++ [(⟨column.id, UInt32.ofNat block⟩, value)] }

/-- A given value may not be narrowed away. -/
def requireValueFits (layout : ChunkLayout) (column : Column) (value : ColumnValue) :
    Fallible Unit :=
  match layout.schema.pending with
  | none => .ok ()
  | some pending =>
    require (¬ (pending.columnId = column.id ∧ valueFits pending.type value = false))
      (narrowedAway column pending "this value")

/-- A column that was given. -/
def assignColumn (layout : ChunkLayout) (block index : ℕ) (column : Column) (value : ColumnValue)
    (write : BlockWrite) : Fallible BlockWrite := do
  requireValueFits layout column value
  require (¬ (value = .null ∧ column.nullable = false))
    ⟨.invalidArgument, "column " ++ column.name ++ " cannot be NULL"⟩
  match layout.fixedColumnAt index with
  | none =>
    -- no entry is NULL, or the empty value of a column that cannot be NULL
    if value = .null then return write.change column block none
    else
      let bytes ← encodeVarValue column value
      return write.change column block
        (if bytes = [] ∧ column.nullable = false then none else some bytes)
  | some fixed =>
    if value = .null then return write.add fixed true []
    else
      let bytes ← encodeColumnValue column value
      return write.add fixed false bytes

/-- One assignment of `PrepareSetBlockWrite`. -/
def assign (layout : ChunkLayout) (block : ℕ) (write : BlockWrite) (assignment : ColumnAssignment) :
    Fallible BlockWrite :=
  match layout.schema.columns.findIdx? (·.name = assignment.column) with
  | none => invalidArgument ("the table has no column " ++ assignment.column)
  | some index =>
    if index ∈ write.given then
      invalidArgument ("column " ++ assignment.column ++ " is given twice")
    else
      match layout.schema.columns[index]? with
      | none => invalidArgument ("the table has no column " ++ assignment.column)
      | some column =>
        assignColumn layout block index column assignment.value
          { write with given := write.given ++ [index] }

/-- `PrepareSetBlockWrite`. -/
def prepareSet (layout : ChunkLayout) (block : ℕ) (values : List ColumnAssignment) :
    Fallible BlockWrite :=
  values.foldlM (assign layout block) ⟨[], [], []⟩

/-- A column of a new block that was not given. -/
def addNewColumn (layout : ChunkLayout) (block : ℕ) (write : BlockWrite) (index : ℕ)
    (column : Column) : Fallible BlockWrite :=
  if index ∈ write.given then .ok write
  else if column.required then
    invalidArgument ("column " ++ column.name ++ " is REQUIRED: a new block must give it")
  else
    match layout.fixedColumnAt index with
    | none =>
      if column.hasDefault ∧ (column.defaultValue ≠ [] ∨ column.nullable) then
        .ok (write.change column block (some column.defaultValue))
      else .ok write
    | some fixed =>
      if column.hasDefault then .ok (write.add fixed false column.defaultValue)
      else .ok (write.add fixed column.nullable [])

/-- `AddNewBlockColumns`. -/
def addNewColumns (layout : ChunkLayout) (block : ℕ) (write : BlockWrite) : Fallible BlockWrite :=
  layout.schema.columns.zipIdx.foldlM
    (fun write entry => addNewColumn layout block write entry.2 entry.1) write

/-- `PrepareUnsetBlockWrite`. -/
def prepareUnset (layout : ChunkLayout) (block : ℕ) : BlockWrite where
  edits := layout.fixed.map fun fixed =>
    ⟨fixed, fixed.validity.isSome, List.replicate (bytesForBits fixed.width) 0⟩
  varChanges := (layout.schema.columns.filter fun column => !isFixedWidth column.type.kind).map
    fun column => (⟨column.id, UInt32.ofNat block⟩, none)
  given := []

end BlockWrite

/-- The ranges of the payload an edit touches, with their bytes after it. -/
def BlockEdit.ranges (block : ℕ) (payload : Bytes) (edit : BlockEdit) : List (ℕ × Bytes) :=
  let bit := edit.fixed.values * 8 + block * edit.fixed.width
  let first := bit / 8
  let size := (bit + edit.fixed.width - 1) / 8 - first + 1
  let value := writeValueBits ((payload.drop first).take size) (bit - first * 8) edit.value
    edit.fixed.width
  (first, value) :: edit.fixed.validity.toList.map fun validity =>
    let byte := validity + block / 8
    (byte, [putByteBit (payload.getD byte 0) (block % 8) (!edit.null)])

/-- The ranges that differ from the payload. -/
def changedRanges (payload : Bytes) (ranges : List (ℕ × Bytes)) : List (ℕ × Bytes) :=
  ranges.filter fun range => (payload.drop range.1).take range.2.length ≠ range.2

/-- A span record of these bytes of the state. -/
def spanOf (bytes : Bytes) (base offset size : ℕ) : WalRecord :=
  .span (base + offset) ((bytes.drop offset).take size)

/-- The span of the presence byte of a block, when it changed. -/
def presenceSpan (layout : ChunkLayout) (block : ℕ) (before after : Bytes) : List WalRecord :=
  if before.getD (block / 8) 0 = after.getD (block / 8) 0 then []
  else [spanOf after layout.payloadBytes (block / 8) 1]

/-- `WriteBlockColumnsLocked`. -/
def Writer.writeBlockColumns (writer : Writer) (block : ℕ) (write : BlockWrite) (present : Bool)
    (state : ChunkState) : Fallible (Option Mutated) := do
  let sorted := write.varChanges.mergeSort fun a b => a.1 ≤ b.1
  let update : VarUpdate := ⟨sorted.filter fun change => state.vars.find change.1 ≠ change.2, none⟩
  writer.requireVarWrite state.vars update
  let ranges := write.edits.flatMap (BlockEdit.ranges block state.payload)
  let changed := changedRanges state.payload ranges
  let payload := copySpans state.payload ranges
  let presence := putBit state.presence block present
  let presenceRecords := presenceSpan writer.layout block state.presence presence
  if presenceRecords = [] ∧ update.isEmpty ∧ changed = [] then return none
  else
    let vars ← updateVars state.vars update
    return some ⟨⟨payload, presence, vars⟩,
      changed.map (fun range => spanOf payload 0 range.1 range.2.length) ++ presenceRecords
        ++ varUpdateRecords vars update⟩

/-- `SetBlock`. -/
def Writer.setBlock (writer : Writer) (block : ℕ) (values : List ColumnAssignment)
    (state : ChunkState) : Fallible (Option Mutated) := do
  let write ← BlockWrite.prepareSet writer.layout block values
  if getBit state.presence block then writer.writeBlockColumns block write true state
  else
    let write ← BlockWrite.addNewColumns writer.layout block write
    writer.writeBlockColumns block write true state

/-! ## Writing one block of a table of bit strings -/

/-- `bit_string_blocks`. -/
def ChunkLayout.bitStringBlocks (layout : ChunkLayout) : Bool :=
  match layout.schema.columns with
  | [column] => column.type.kind == .bits && !column.nullable
  | _ => false

/-- `BitCodec::WriteBits`. -/
def writeBits (data : Bytes) (bitOffset : ℕ) (digits : List Char) : Bytes :=
  digits.zipIdx.foldl (fun data digit => putBit data (bitOffset + digit.2) (digit.1 == '1')) data

/-- The bits of a block: `block_bits`, which match the columns. -/
def ChunkLayout.blockBits (layout : ChunkLayout) : ℕ := fixedBitsPerBlock layout.schema.columns

/-- `WriteBlockBitsLocked`. -/
def Writer.writeBlockBits (writer : Writer) (block : ℕ) (digits : List Char) (present : Bool)
    (state : ChunkState) : Option Mutated :=
  let bit := block * writer.layout.blockBits
  let first := bit / 8
  let size := (bit + digits.length - 1) / 8 - first + 1
  let next := writeBits ((state.payload.drop first).take size) (bit - first * 8) digits
  let payload := copyInto state.payload first next
  let presence := putBit state.presence block present
  let payloadRecords := if next = (state.payload.drop first).take size then []
    else [spanOf payload 0 first size]
  let presenceRecords := presenceSpan writer.layout block state.presence presence
  if payloadRecords = [] ∧ presenceRecords = [] then none
  else some ⟨⟨payload, presence, state.vars⟩, payloadRecords ++ presenceRecords⟩

/-- `RequireBitStringBlocks`. -/
def Writer.requireBitStringBlocks (writer : Writer) : Fallible Unit :=
  require (writer.layout.bitStringBlocks = true)
    ⟨.invalidArgument, "bit strings need a table with one bits(N) column; this table has columns"⟩

/-- `IsBitString`. -/
def isBitString (digits : List Char) : Bool := digits.all fun c => c == '0' || c == '1'

/-- The bits of a block may not be narrowed away. -/
def ChunkLayout.requireBitsFit (layout : ChunkLayout) (digits : List Char) : Fallible Unit :=
  match layout.schema.pending with
  | none => .ok ()
  | some pending =>
    require (valueFits pending.type (.bits digits) = true)
      ⟨.invalidArgument, "the block's bits are being narrowed to " ++ columnTypeName pending.type
        ++ ", which does not hold this value"⟩

/-- `SetBlockBits`. -/
def Writer.setBlockBits (writer : Writer) (block : ℕ) (digits : List Char) (state : ChunkState) :
    Fallible (Option Mutated) := do
  writer.requireBitStringBlocks
  require (digits.length = writer.layout.blockBits)
    ⟨.invalidArgument, "bit string length does not match configured block_bits"⟩
  require (isBitString digits = true) ⟨.invalidArgument, "bit string must contain only 0 and 1"⟩
  writer.layout.requireBitsFit digits
  return writer.writeBlockBits block digits true state

/-- `UnsetBlock`. -/
def Writer.unsetBlock (writer : Writer) (block : ℕ) (state : ChunkState) :
    Fallible (Option Mutated) :=
  if writer.layout.bitStringBlocks = false then
    writer.writeBlockColumns block (BlockWrite.prepareUnset writer.layout block) false state
  else
    .ok (writer.writeBlockBits block (List.replicate writer.layout.blockBits '0') false state)

/-! ## Writing a whole chunk -/

/-- The span of a whole array. -/
def wholeSpan (offset : ℕ) (bytes : Bytes) : WalRecord := .span offset bytes

/-- `ApplyChunkStateLocked`: a plain write of a whole chunk. -/
def Writer.applyChunkState (writer : Writer) (payload presence : Bytes) (update : VarUpdate)
    (state : ChunkState) : Fallible (Option Mutated) :=
  if payload = state.payload ∧ presence = state.presence ∧ update.isEmpty then .ok none
  else do
    let vars ← updateVars state.vars update
    let payloadRecords := if payload = state.payload then [] else [wholeSpan 0 payload]
    let presenceRecords := if presence = state.presence then []
      else [wholeSpan writer.layout.payloadBytes presence]
    return some ⟨⟨payload, presence, vars⟩,
      payloadRecords ++ presenceRecords ++ varUpdateRecords vars update⟩

/-- `ApplyFullChunkStateLocked`: a conditional write of a whole chunk. -/
def Writer.applyFullChunkState (writer : Writer) (payload presence : Bytes) (update : VarUpdate)
    (state : ChunkState) : Fallible (Option Mutated) :=
  if payload = state.payload ∧ presence = state.presence ∧ update.isEmpty then .ok none
  else do
    writer.layout.requirePendingFits payload presence none
    let vars ← updateVars state.vars update
    return some ⟨⟨payload, presence, vars⟩,
      [wholeSpan 0 payload, wholeSpan writer.layout.payloadBytes presence]
        ++ varUpdateRecords vars update⟩

/-- The size checks of a given state, and its canonical form: no bits past the arrays, and
none in absent blocks. -/
def Writer.canonicalState (writer : Writer) (payload presence : Bytes) :
    Fallible (Bytes × Bytes) := do
  require (payload.length = writer.layout.payloadBytes)
    ⟨.invalidArgument, "payload byte length does not match configured chunk size"⟩
  require (presence.length = bytesForBits writer.layout.blockCount)
    ⟨.invalidArgument, "presence byte length does not match configured chunk block count"⟩
  let payload ← writer.layout.maskPadding payload
  let presence := maskUnusedPresenceBits writer.layout.blockCount presence
  let payload ← writer.layout.clearEmptyValues presence payload
  return (payload, presence)

/-- `SetChunkStateBytes`. -/
def Writer.setChunkStateBytes (writer : Writer) (payload presence : Bytes) (state : ChunkState) :
    Fallible (Option Mutated) := do
  let (payload, presence) ← writer.canonicalState payload presence
  writer.layout.requirePendingFits payload presence none
  writer.applyChunkState payload presence (varUpdateForState state.vars presence) state

/-- `CasChunkStateBytes`. -/
def Writer.casChunkStateBytes (writer : Writer) (payload presence : Bytes) (state : ChunkState) :
    Fallible (Option Mutated) := do
  let (payload, presence) ← writer.canonicalState payload presence
  writer.applyFullChunkState payload presence (varUpdateForState state.vars presence) state

/-- `ChunkBatchOp`, with the index of its block. -/
structure ChunkBatchOp where
  set : Bool
  block : ℕ
  digits : List Char

/-- `ApplyChunkBatch`. -/
def Writer.applyChunkBatch (writer : Writer) (ops : List ChunkBatchOp) (state : ChunkState) :
    Fallible (Option Mutated) := do
  writer.requireBitStringBlocks
  checkAll (fun op : ChunkBatchOp => do
    require (op.set = true → op.digits.length = writer.layout.blockBits)
      ⟨.invalidArgument, "bit string length does not match configured block_bits"⟩
    require (op.set = true → isBitString op.digits = true)
      ⟨.invalidArgument, "bit string must contain only 0 and 1"⟩) ops
  let payload := ops.foldl (fun payload op => writeBits payload (op.block * writer.layout.blockBits)
    (if op.set then op.digits else List.replicate writer.layout.blockBits '0')) state.payload
  let presence := ops.foldl (fun presence op => putBit presence op.block op.set) state.presence
  writer.applyFullChunkState payload presence ⟨[], none⟩ state

/-- `WriteChunkState`; conditional when a version is expected. -/
def Writer.writeChunkState (writer : Writer) (given : ChunkState) (conditional : Bool)
    (state : ChunkState) : Fallible (Option Mutated) := do
  let (payload, presence) ← writer.canonicalState given.payload given.presence
  writer.layout.requireValidVars given.vars presence
  writer.layout.requirePendingFits payload presence (some given.vars)
  let update : VarUpdate :=
    ⟨[], if given.vars.encode = state.vars.encode then none else some given.vars⟩
  writer.requireVarWrite state.vars update
  if conditional then writer.applyFullChunkState payload presence update state
  else writer.applyChunkState payload presence update state

/-! ## Transactions -/

/-- `kTxnSpanMergeGap`. -/
def kTxnSpanMergeGap : ℕ := 16

/-- One round of `AppendDiffSpans`: the ranges closed so far, and the open one. -/
def diffStep (before after : Bytes) (ranges : List (ℕ × ℕ) × Option (ℕ × ℕ)) (i : ℕ) :
    List (ℕ × ℕ) × Option (ℕ × ℕ) :=
  if before.getD i 0 = after.getD i 0 then ranges
  else
    match ranges.2 with
    | none => (ranges.1, some (i, i + 1))
    | some (first, last) =>
      if i - last ≤ kTxnSpanMergeGap then (ranges.1, some (first, i + 1))
      else (ranges.1 ++ [(first, last)], some (i, i + 1))

/-- The ranges in which two arrays differ, those close to each other as one. -/
def diffRanges (before after : Bytes) : List (ℕ × ℕ) :=
  let ranges := (List.range after.length).foldl (diffStep before after) ([], none)
  ranges.1 ++ ranges.2.toList

/-- `AppendDiffSpans`. -/
def diffSpans (base : ℕ) (before after : Bytes) : List WalRecord :=
  (diffRanges before after).map fun range => spanOf after base range.1 (range.2 - range.1)

/-- The loop of `AppendVarDiff` over two lists of entries, as changes; every round takes an
entry off one of them. -/
def varDiffLoop : ℕ → List (VarKey × Bytes) → List (VarKey × Bytes) → List VarChange
  | 0, _, _ => []
  | fuel + 1, olds, news =>
    match olds, news with
    | [], [] => []
    | old :: olds, [] => (old.1, none) :: varDiffLoop fuel olds []
    | [], new :: news => (new.1, some new.2) :: varDiffLoop fuel [] news
    | old :: olds, new :: news =>
      if old.1 < new.1 then (old.1, none) :: varDiffLoop fuel olds (new :: news)
      else if new.1 < old.1 then (new.1, some new.2) :: varDiffLoop fuel (old :: olds) news
      else if old.2 = new.2 then varDiffLoop fuel olds news
      else (new.1, some new.2) :: varDiffLoop fuel olds news

/-- `AppendVarDiff`, as changes. -/
def varDiff (before after : ChunkVars) : List VarChange :=
  varDiffLoop (before.entries.length + after.entries.length) before.entries after.entries

/-- The record of a change. -/
def WalRecord.ofChange : VarChange → WalRecord
  | (key, some value) => .varPut key value
  | (key, none) => .varDel key

/-- What `CommitTransaction` does to one chunk it writes. -/
def Writer.commitChunk (writer : Writer) (given : ChunkState) (state : ChunkState) :
    Fallible (Option Mutated) := do
  let (payload, presence) ← writer.canonicalState given.payload given.presence
  writer.layout.requireValidVars given.vars presence
  writer.layout.requirePendingFits payload presence (some given.vars)
  require (¬ (given.vars.encodedSize > writer.varMaxChunkBytes
      ∧ given.vars.encodedSize > state.vars.encodedSize))
    ⟨.invalidArgument, "the text and bytes values of the chunk would take "
      ++ toString given.vars.encodedSize ++ " bytes, more than var_max_chunk_bytes ("
      ++ toString writer.varMaxChunkBytes ++ ")"⟩
  if payload = state.payload ∧ presence = state.presence ∧ given.vars = state.vars then return none
  else
    return some ⟨⟨payload, presence, given.vars⟩,
      diffSpans 0 state.payload payload
        ++ diffSpans writer.layout.payloadBytes state.presence presence
        ++ (varDiff state.vars given.vars).map WalRecord.ofChange⟩

/-! ## All of them -/

/-- A write of a chunk. -/
inductive Mutation
  | setBlock (block : ℕ) (values : List ColumnAssignment)
  | setBlockBits (block : ℕ) (digits : List Char)
  | unsetBlock (block : ℕ)
  | setChunkStateBytes (payload presence : Bytes)
  | casChunkStateBytes (payload presence : Bytes)
  | applyChunkBatch (ops : List ChunkBatchOp)
  | writeChunkState (given : ChunkState) (conditional : Bool)
  | commitChunk (given : ChunkState)

/-- The blocks a write names are blocks of the chunk, as `LocalBlockIndex` gives them. -/
def Mutation.InChunk (blockCount : ℕ) : Mutation → Prop
  | setBlock block _ | setBlockBits block _ | unsetBlock block => block < blockCount
  | applyChunkBatch ops => ∀ op ∈ ops, op.block < blockCount
  | _ => True

/-- What a write does. -/
def Mutation.run (mutation : Mutation) (writer : Writer) (state : ChunkState) :
    Fallible (Option Mutated) :=
  match mutation with
  | setBlock block values => writer.setBlock block values state
  | setBlockBits block digits => writer.setBlockBits block digits state
  | unsetBlock block => writer.unsetBlock block state
  | setChunkStateBytes payload presence => writer.setChunkStateBytes payload presence state
  | casChunkStateBytes payload presence => writer.casChunkStateBytes payload presence state
  | applyChunkBatch ops => writer.applyChunkBatch ops state
  | writeChunkState given conditional => writer.writeChunkState given conditional state
  | commitChunk given => writer.commitChunk given state

end ChunkDb
