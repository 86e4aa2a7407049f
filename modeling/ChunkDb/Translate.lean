/-
# Translating chunks between schema versions

`TranslateChunk` (`chunk_layout.cpp`) turns the state of a chunk from one schema
version into the next: columns are copied, converted, filled with their default
or dropped.  `ChunkLayout.ValidState` says what a state of a layout is.
-/
import ChunkDb.Layout

open ByteBits List

namespace ChunkDb

/-- The contents of a chunk. -/
structure ChunkState where
  payload : Bytes
  presence : Bytes
  vars : ChunkVars
  deriving DecidableEq

/-- `ConversionOf`: what the step that made `target` does with the values of a column. -/
def conversionOf (source target : TableSchema) (columnId : UInt32) : Fallible Conversion :=
  if target.version ≠ source.version + 1 then
    logicError "a type change is translated one version at a time"
  else
    match target.history.getLast? with
    | none => logicError "a type change is translated one version at a time"
    | some step =>
      let recorded := step.changes.findSome? (fun
        | .changeType _ column _ conversion => if column.id = columnId then some conversion else none
        | _ => none)
      match recorded with
      | none => logicError ("column " ++ toString columnId.toNat
          ++ " changed its type without a recorded change")
      | some conversion => .ok conversion

/-- A converted text or bytes value as it is stored: a NULL, or an empty value of a
column that cannot be NULL, is no entry. -/
def storedVar (after : Column) (value : ColumnValue) : Fallible (Option Bytes) :=
  if value = .null then .ok none
  else do
    let bytes ← encodeVarValue after value
    return if bytes = [] ∧ after.nullable = false then none else some bytes

/-- What a stored value turns into when the type of its column changes. -/
def convertVar (before after : Column) (conversion : Conversion) (bytes : Bytes) :
    Fallible (Option Bytes) := do
  let value ← convertValue after conversion (decodeVarValue before bytes)
  storedVar after value

/-- The changes a type change makes to the values of a text or bytes column. -/
def convertVars (before after : Column) (conversion : Conversion) :
    List (VarKey × Bytes) → Fallible (List VarChange)
  | [] => .ok []
  | (key, bytes) :: entries =>
    if key.columnId ≠ after.id then convertVars before after conversion entries
    else do
      let stored ← convertVar before after conversion bytes
      let changes ← convertVars before after conversion entries
      return if stored = some bytes then changes else (key, stored) :: changes

/-- The value of a block in a fixed-width column. -/
def readFixed (column : Column) (fixed : FixedColumn) (payload : Bytes) (block : ℕ) :
    Fallible ColumnValue :=
  if ∀ validity ∈ fixed.validity, getBit payload (validity * 8 + block) = true then
    decodeColumnValue column
      (readValueBits payload (fixed.values * 8 + block * fixed.width) fixed.width)
  else .ok .null

/-- A value put in a block of a fixed-width column that was NULL. -/
def writeFixed (column : Column) (fixed : FixedColumn) (next : Bytes) (block : ℕ)
    (value : ColumnValue) : Fallible Bytes :=
  if value = .null then .ok next
  else do
    let encoded ← encodeColumnValue column value
    let next := writeValueBits next (fixed.values * 8 + block * fixed.width) encoded fixed.width
    return match fixed.validity with
      | none => next
      | some validity => putBit next (validity * 8 + block) true

/-- The present blocks of a chunk, in order. -/
def presentBlocks (blockCount : ℕ) (presence : Bytes) : List ℕ :=
  (List.range blockCount).filter (fun block => getBit presence block)

/-- The loop of `ConvertColumn` over the blocks of a fixed-width column. -/
def convertFixed (before after : Column) (conversion : Conversion) (oldFixed newFixed : FixedColumn)
    (payload : Bytes) : List ℕ → Bytes → Fallible Bytes
  | [], next => .ok next
  | block :: blocks, next => do
    let value ← readFixed before oldFixed payload block
    let value ← convertValue after conversion value
    let next ← writeFixed after newFixed next block value
    convertFixed before after conversion oldFixed newFixed payload blocks next

/-- What a new block would get in a fixed-width column added since. -/
def addFixed (column : Column) (fixed : FixedColumn) (next : Bytes) (block : ℕ) : Bytes :=
  let next :=
    if column.hasDefault then
      writeValueBits next (fixed.values * 8 + block * fixed.width) column.defaultValue fixed.width
    else next
  match fixed.validity with
  | none => next
  | some validity =>
    if column.hasDefault = true ∨ column.nullable = false then
      putBit next (validity * 8 + block) true
    else next

/-- What the present blocks get in a text or bytes column added since. -/
def addVars (column : Column) (blocks : List ℕ) : List VarChange :=
  if column.hasDefault = true ∧ (column.defaultValue ≠ [] ∨ column.nullable = true) then
    blocks.map (fun block => (⟨column.id, UInt32.ofNat block⟩, some column.defaultValue))
  else []

/-- One round of the loop of `TranslateChunk` over the columns of `target`: the
payload so far and the changes to the values. -/
def translateColumn (source target : ChunkLayout) (presence payload : Bytes) (vars : ChunkVars)
    (index : ℕ) (column : Column) (next : Bytes) : Fallible (Bytes × List VarChange) :=
  let blocks := presentBlocks target.blockCount presence
  match source.indexOfId column.id with
  | none =>
    match target.fixedColumnAt index with
    | none => .ok (next, addVars column blocks)
    | some fixed => .ok (blocks.foldl (addFixed column fixed) next, [])
  | some sourceIndex =>
    match source.schema.columns[sourceIndex]? with
    | none => .error ⟨.outOfRange, "columns"⟩
    | some before =>
      if before.type ≠ column.type then do
        let conversion ← conversionOf source.schema target.schema column.id
        match target.fixedColumnAt index with
        | none => do
          let changes ← convertVars before column conversion vars.entries
          return (next, changes)
        | some newFixed =>
          match source.fixedColumnAt sourceIndex with
          | none => .error ⟨.outOfRange, "fixed columns"⟩
          | some oldFixed => do
            let next ← convertFixed before column conversion oldFixed newFixed payload blocks next
            return (next, [])
      else
        match target.fixedColumnAt index, source.fixedColumnAt sourceIndex with
        | some fixed, some old =>
          -- byte-aligned arrays of the same size: one copy each
          let next := copyInto next fixed.values
            ((payload.drop old.values).take (bytesForBits (target.blockCount * fixed.width)))
          match fixed.validity, old.validity with
          | some validity, some oldValidity =>
            .ok (copyInto next validity
              ((payload.drop oldValidity).take (bytesForBits target.blockCount)), [])
          | _, _ => .ok (next, [])
        | _, _ => .ok (next, [])

/-- The loop of `TranslateChunk` over the columns of `target`. -/
def translateColumns (source target : ChunkLayout) (presence payload : Bytes) (vars : ChunkVars) :
    ℕ → List Column → Bytes → Fallible (Bytes × List VarChange)
  | _, [], next => .ok (next, [])
  | index, column :: columns, next => do
    let (next, changes) ← translateColumn source target presence payload vars index column next
    let (next, rest) ← translateColumns source target presence payload vars (index + 1) columns next
    return (next, changes ++ rest)

/-- The values of dropped columns go. -/
def dropVars (target : ChunkLayout) (vars : ChunkVars) : List VarChange :=
  (vars.entries.filter (fun entry => (target.varColumn entry.1.columnId).isNone)).map
    (fun entry => (entry.1, none))

/-- The values after the changes, in key order. -/
def mergeChanges (vars : ChunkVars) (changes : List VarChange) : Fallible ChunkVars :=
  let changes := changes.mergeSort (fun a b => a.1 ≤ b.1)
  if changes = [] then .ok vars else vars.merge changes

/-- `TranslateChunk`. -/
def translateChunk (source target : ChunkLayout) (state : ChunkState) : Fallible ChunkState :=
  if source.blockCount ≠ target.blockCount ∨ state.payload.length ≠ source.payloadBytes
      ∨ state.presence.length ≠ bytesForBits target.blockCount then
    invalidArgument "chunk state does not match the layout it is translated from"
  else do
    let (next, changes) ← translateColumns source target state.presence state.payload state.vars 0
      target.schema.columns (List.replicate target.payloadBytes 0)
    let vars ← mergeChanges state.vars (changes ++ dropVars target state.vars)
    return { state with payload := next, vars }

/-! ## Valid states -/

/-- The bytes are a value the text or bytes column stores. -/
structure Column.Stores (column : Column) (bytes : Bytes) : Prop where
  length_le : bytes.length ≤ column.type.size
  nullable_of_nil : bytes = [] → column.nullable = true
  utf8 : column.type.kind = .text → isUtf8 bytes = true

/-- A value of a present block, in a text or bytes column of the layout. -/
structure ChunkLayout.ValidVar (layout : ChunkLayout) (presence : Bytes) (column : Column)
    (entry : VarKey × Bytes) : Prop where
  mem : column ∈ layout.schema.columns
  id_eq : column.id = entry.1.columnId
  isVar : fixedWidthBits column.type = 0
  block_lt : entry.1.blockIndex.toNat < layout.blockCount
  present : getBit presence entry.1.blockIndex.toNat = true
  stores : column.Stores entry.2

variable {layout : ChunkLayout} {columnId : UInt32}

theorem ChunkLayout.varColumn_eq_some {column : Column} :
    layout.varColumn columnId = some column ↔
      column ∈ layout.schema.columns ∧ column.id = columnId ∧ fixedWidthBits column.type = 0 := by
  constructor
  · intro h
    have hprop := find?_some h
    simp only [Bool.decide_and, Bool.and_eq_true, decide_eq_true_eq] at hprop
    exact ⟨mem_of_find?_eq_some h, hprop⟩
  · rintro ⟨hmem, hid, hwidth⟩
    obtain ⟨found, hfound⟩ : ∃ found, layout.varColumn columnId = some found := by
      rw [← Option.isSome_iff_exists, varColumn, find?_isSome]
      exact ⟨column, hmem, by simp [hid, hwidth]⟩
    have hprop := find?_some hfound
    simp only [Bool.decide_and, Bool.and_eq_true, decide_eq_true_eq] at hprop
    rw [hfound, layout.columnsValid.eq_of_id_eq (mem_of_find?_eq_some hfound) hmem
      (hprop.1.trans hid.symm)]

theorem ChunkLayout.requireValidVar_eq_ok {presence : Bytes} {entry : VarKey × Bytes} :
    layout.requireValidVar presence entry = .ok () ↔ ∃ column, layout.ValidVar presence column entry := by
  unfold requireValidVar
  constructor
  · intro h
    split at h
    · simp [invalidArgument] at h
    · rename_i column hcolumn
      obtain ⟨hmem, hid, hwidth⟩ := varColumn_eq_some.mp hcolumn
      simp only [require_bind] at h
      obtain ⟨⟨hblock, hpresent⟩, hlen, hempty, htext⟩ := h
      exact ⟨column, hmem, hid, hwidth, hblock, hpresent, hlen,
        fun hnil => by simpa [hnil] using hempty, fun hkind => by simpa [hkind] using htext⟩
  · rintro ⟨column, h⟩
    rw [varColumn_eq_some.mpr ⟨h.mem, h.id_eq, h.isVar⟩]
    simp only [check_bind_eq_ok, require_eq_ok]
    refine ⟨⟨h.block_lt, h.present⟩, h.stores.length_le, ?_, ?_⟩
    · rintro ⟨hnil, hnull⟩
      simp [h.stores.nullable_of_nil hnil] at hnull
    · rintro ⟨hkind, hutf8⟩
      simp [h.stores.utf8 hkind] at hutf8

/-- A state the layout holds: arrays of the right size, no presence bits past the
blocks, and valid text and bytes values. -/
structure ChunkLayout.ValidState (layout : ChunkLayout) (state : ChunkState) : Prop where
  payload_length : state.payload.length = layout.payloadBytes
  presence_padded : PaddedTo layout.blockCount state.presence
  vars_valid : layout.requireValidVars state.vars state.presence = .ok ()

theorem ChunkLayout.requireValidVars_eq_ok {presence : Bytes} {vars : ChunkVars} :
    layout.requireValidVars vars presence = .ok () ↔
      ∀ entry ∈ vars.entries, ∃ column, layout.ValidVar presence column entry := by
  rw [requireValidVars, checkAll_eq_ok]
  simp only [requireValidVar_eq_ok]

theorem ChunkLayout.ValidState.validVar {state : ChunkState} (h : layout.ValidState state)
    {entry : VarKey × Bytes} (hentry : entry ∈ state.vars.entries) :
    ∃ column, layout.ValidVar state.presence column entry :=
  requireValidVars_eq_ok.mp h.vars_valid entry hentry

/-- The value of a stored entry is one its column stores. -/
theorem ChunkLayout.ValidState.stores {state : ChunkState} (h : layout.ValidState state)
    {column : Column} (hcolumn : column ∈ layout.schema.columns) {e : VarKey × Bytes}
    (he : e ∈ state.vars.entries) (hid : e.1.columnId = column.id) : column.Stores e.2 := by
  obtain ⟨column', hvar⟩ := h.validVar he
  have heq : column' = column := layout.columnsValid.eq_of_id_eq hvar.mem hcolumn
    (hvar.id_eq.trans hid)
  exact heq ▸ hvar.stores

theorem ChunkLayout.indexOfId_eq_some {index : ℕ} (h : layout.indexOfId columnId = some index) :
    ∃ column, layout.schema.columns[index]? = some column ∧ column.id = columnId := by
  obtain ⟨hlt, hid, _⟩ := findIdx?_eq_some_iff_getElem.mp h
  exact ⟨_, getElem?_eq_getElem hlt, by simpa using hid⟩

theorem ChunkLayout.indexOfId_eq_none :
    layout.indexOfId columnId = none ↔ ∀ column ∈ layout.schema.columns, column.id ≠ columnId := by
  rw [indexOfId, findIdx?_eq_none_iff]
  simp

end ChunkDb
