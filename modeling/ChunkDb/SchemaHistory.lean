/-
# Schema versions

A table's schema and the steps that made it (`schema.cpp`).  Each version above 1
records the change that made it, and the schema of an earlier version is the
current one with the later steps undone (`schemaAtVersion`).

`AlterStep` is one accepted schema change of ALTER TABLE.  The main results say
that undoing the last step of an altered schema gives back the schema before it
(`undoLastStep_of_nextVersion`), and what a step may do to a column
(`Adjacent`): translation between versions rests on both.
-/
import ChunkDb.Values

open List

namespace ChunkDb

/-- `SchemaChange`, with the fields its kind uses. -/
inductive SchemaChange
  | addColumn (position : ℕ) (column : Column)
  | dropColumn (position : ℕ) (column : Column)
  | renameColumn (position : ℕ) (column : Column) (oldName : String)
  | changeType (position : ℕ) (column previous : Column) (conversion : Conversion)
  deriving DecidableEq, Repr

/-- `SchemaStep`. -/
structure SchemaStep where
  version : ℕ
  changes : List SchemaChange
  deriving DecidableEq, Repr

/-- `PendingNarrowing`. -/
structure PendingNarrowing where
  columnId : UInt32
  type : ColumnType
  deriving DecidableEq, Repr

/-- `TableSchema`. -/
structure TableSchema where
  version : ℕ
  nextColumnId : UInt32
  columns : List Column
  history : List SchemaStep
  pending : Option PendingNarrowing
  deriving DecidableEq, Repr

/-- `FixedBitsPerBlock`. -/
def fixedBitsPerBlock (columns : List Column) : ℕ :=
  min (columns.map (fun column => fixedWidthBits column.type)).sum 0xFFFFFFFF

/-! ## Validation -/

/-- What `ValidateColumns` checks of one column, after those of `names` and `ids`. -/
def validateColumn (nextColumnId : UInt32) (names : List String) (ids : List UInt32)
    (column : Column) : Fallible Unit := do
  require (isValidName column.name = true)
    ⟨.invalidArgument, "column name '" ++ column.name ++ "' must be 1 to "
      ++ toString kMaxColumnNameBytes ++ " characters: a-z, 0-9 and _, not starting with a digit"⟩
  require (column.name ∉ names) ⟨.invalidArgument, "column " ++ column.name ++ " appears twice"⟩
  require (¬ (column.id = 0 ∨ column.id ≥ nextColumnId ∨ column.id ∈ ids))
    ⟨.invalidArgument, "column " ++ column.name ++ " has an invalid id"⟩
  validateColumnType column
  require (¬ (column.nullable = true ∧ column.required = true))
    ⟨.invalidArgument, "column " ++ column.name ++ " cannot be both NULL and REQUIRED"⟩
  validateDefault column

/-- The loop of `ValidateColumns`. -/
def validateColumnLoop (nextColumnId : UInt32) :
    List String → List UInt32 → List Column → Fallible Unit
  | _, _, [] => .ok ()
  | names, ids, column :: columns => do
    validateColumn nextColumnId names ids column
    validateColumnLoop nextColumnId (column.name :: names) (column.id :: ids) columns

/-- `ValidateColumns`. -/
def validateColumns (schema : TableSchema) : Fallible Unit := do
  require (schema.columns ≠ []) ⟨.invalidArgument, "a table needs at least one column"⟩
  require (schema.columns.length ≤ kMaxColumnsPerTable)
    ⟨.invalidArgument, "a table has at most " ++ toString kMaxColumnsPerTable ++ " columns"⟩
  validateColumnLoop schema.nextColumnId [] [] schema.columns
  let fixedBits := (schema.columns.map (fun column => fixedWidthBits column.type)).sum
  require (fixedBits ≤ kMaxFixedBitsPerBlock)
    ⟨.invalidArgument, "the fixed-width columns of a block take " ++ toString fixedBits
      ++ " bits, at most " ++ toString kMaxFixedBitsPerBlock⟩

/-- One change undone: the columns and the next id before it. -/
def undoChange (version : ℕ) (change : SchemaChange) (columns : List Column) (nextId : UInt32) :
    Fallible (List Column × UInt32) :=
  let mismatch : Exn := ⟨.invalidArgument,
    "schema history: version " ++ toString version ++ " does not match its columns"⟩
  match change with
  | .addColumn position column => do
    require (columns[position]? = some column) mismatch
    -- adding is the only change that takes an id
    return (columns.eraseIdx position, column.id)
  | .dropColumn position column => do
    require (position ≤ columns.length) mismatch
    return (columns.insertIdx position column, nextId)
  | .renameColumn position column oldName => do
    require (columns[position]? = some column) mismatch
    return (columns.set position { column with name := oldName }, nextId)
  | .changeType position column previous _ => do
    require (columns[position]? = some column ∧ previous.id = column.id) mismatch
    return (columns.set position previous, nextId)

/-- `UndoLastStep`.  The code has no answer for an empty history, and never asks. -/
def undoLastStep (schema : TableSchema) : Fallible TableSchema :=
  match schema.history.getLast? with
  | none => .error ⟨.outOfRange, "schema history"⟩
  | some step => do
    let (columns, nextId) ← step.changes.reverse.foldlM
      (fun acc change => undoChange step.version change acc.1 acc.2)
      (schema.columns, schema.nextColumnId)
    return { version := step.version - 1, nextColumnId := nextId, columns,
             history := schema.history.dropLast, pending := none }

/-- The loop of `ValidateTableSchema`: every earlier version is a valid schema too. -/
def validateHistoryLoop : ℕ → TableSchema → Fallible Unit
  | 0, _ => .ok ()
  | fuel + 1, earlier =>
    match earlier.history.getLast? with
    | none => .ok ()
    | some step => do
      require (step.version = earlier.version ∧ step.changes ≠ [])
        ⟨.invalidArgument,
          "schema history step for version " ++ toString step.version ++ " is malformed"⟩
      let earlier ← undoLastStep earlier
      validateColumns earlier
      validateHistoryLoop fuel earlier

/-- The default of a column as a value. -/
def decodeDefault (column : Column) : Fallible ColumnValue :=
  if isFixedWidth column.type.kind then decodeColumnValue column column.defaultValue
  else .ok (decodeVarValue column column.defaultValue)

/-- `ValidatePending`. -/
def validatePending (schema : TableSchema) : Fallible Unit :=
  match schema.pending with
  | none => .ok ()
  | some pending =>
    match schema.columns.find? (fun column => column.id = pending.columnId) with
    | none => invalidArgument "the narrowing in progress names no column of the table"
    | some column => do
      require (¬ (familyOf pending.type.kind ≠ familyOf column.type.kind
          ∨ pending.type = column.type ∨ widens column.type pending.type = true))
        ⟨.invalidArgument, "column " ++ column.name ++ " cannot be narrowed from "
          ++ columnTypeName column.type ++ " to " ++ columnTypeName pending.type⟩
      validateColumnType
        { column with type := pending.type, hasDefault := false, defaultValue := [] }
      if column.hasDefault then
        let value ← decodeDefault column
        require ((fit pending.type value).isSome = true)
          ⟨.invalidArgument, "column " ++ column.name ++ ": its DEFAULT does not fit "
            ++ columnTypeName pending.type ++ "; change it first"⟩

/-- `ValidateTableSchema`. -/
def validateTableSchema (schema : TableSchema) : Fallible Unit := do
  require (schema.version ≠ 0) ⟨.invalidArgument, "schema version must be at least 1"⟩
  validateColumns schema
  require (schema.version - 1 ≤ kMaxSchemaVersions)
    ⟨.invalidArgument,
      "a table has at most " ++ toString (kMaxSchemaVersions + 1) ++ " schema versions"⟩
  require (schema.history.length = schema.version - 1)
    ⟨.invalidArgument, "schema history has " ++ toString schema.history.length
      ++ " steps for version " ++ toString schema.version⟩
  validateHistoryLoop schema.history.length schema
  validatePending schema

/-- The loop of `SchemaAtVersion`. -/
def schemaAtVersionLoop (version : ℕ) : ℕ → TableSchema → Fallible TableSchema
  | 0, earlier => .ok earlier
  | fuel + 1, earlier =>
    if earlier.version > version then do
      let earlier ← undoLastStep earlier
      schemaAtVersionLoop version fuel earlier
    else .ok earlier

/-- `SchemaAtVersion`. -/
def schemaAtVersion (schema : TableSchema) (version : ℕ) : Fallible TableSchema :=
  if version = 0 ∨ version > schema.version then
    invalidArgument ("the table has no schema version " ++ toString version ++ " (current "
      ++ toString schema.version ++ ")")
  else schemaAtVersionLoop version (schema.history.length + 1) schema

/-! ## Changes -/

/-- `ColumnIndex`. -/
def columnIndex (schema : TableSchema) (name : String) : Fallible ℕ :=
  match schema.columns.findIdx? (fun column => column.name = name) with
  | none => invalidArgument ("the table has no column " ++ name)
  | some position => .ok position

/-- `NextVersion`. -/
def nextVersion (schema : TableSchema) (change : SchemaChange) (next : TableSchema) :
    Fallible TableSchema := do
  require (schema.pending = none) ⟨.invalidArgument, "a narrowing of this table is in progress"⟩
  let next := { next with
    version := schema.version + 1
    history := next.history ++ [⟨schema.version + 1, [change]⟩] }
  validateTableSchema next
  return next

/-- `AddColumn`. -/
def addColumn (schema : TableSchema) (column : Column) (allowRequiredWithoutDefault : Bool) :
    Fallible TableSchema := do
  require (¬ (column.required = true ∧ column.hasDefault = false
      ∧ allowRequiredWithoutDefault = false))
    ⟨.invalidArgument, "column " ++ column.name
      ++ ": a REQUIRED column added to a table needs a DEFAULT for the blocks it has"⟩
  let column := { column with id := schema.nextColumnId }
  nextVersion schema (.addColumn schema.columns.length column)
    { schema with nextColumnId := schema.nextColumnId + 1, columns := schema.columns ++ [column] }

/-- `DropColumn`. -/
def dropColumn (schema : TableSchema) (name : String) : Fallible TableSchema := do
  let position ← columnIndex schema name
  match schema.columns[position]? with
  | none => .error ⟨.outOfRange, "columns"⟩
  | some dropped =>
    let columns := schema.columns.eraseIdx position
    require (fixedBitsPerBlock columns ≠ 0)
      ⟨.invalidArgument,
        "column " ++ dropped.name ++ " is the last fixed-width column; a table needs one"⟩
    nextVersion schema (.dropColumn position dropped) { schema with columns }

/-- `RenameColumn`. -/
def renameColumn (schema : TableSchema) (name newName : String) : Fallible TableSchema := do
  let position ← columnIndex schema name
  match schema.columns[position]? with
  | none => .error ⟨.outOfRange, "columns"⟩
  | some column =>
    let renamed := { column with name := newName }
    nextVersion schema (.renameColumn position renamed name)
      { schema with columns := schema.columns.set position renamed }

/-- The default of a column whose type changes: it follows the values, and must fit
as they do. -/
def fitDefault (before : Column) (type : ColumnType) (conversion : Conversion)
    (value : ColumnValue) : Fallible ColumnValue :=
  match fit type value with
  | some fitted => .ok fitted
  | none =>
    if conversion = .default ∨ conversion = .exact then
      invalidArgument ("column " ++ before.name ++ ": its DEFAULT does not fit "
        ++ columnTypeName type ++ "; change it first")
    else if conversion = .clamp then .ok (clamp type value)
    else .ok (truncate type value)

/-- The default bytes of `after`, the column `before` with its type changed. -/
def changedDefault (before after : Column) (conversion : Conversion) : Fallible Bytes :=
  if before.hasDefault = false then .ok before.defaultValue
  else do
    let value ← decodeDefault before
    let fitted ← fitDefault before after.type conversion value
    if isFixedWidth after.type.kind then encodeColumnValue after fitted
    else encodeVarValue after fitted

/-- `ChangeTypeAt`. -/
def changeTypeAt (schema : TableSchema) (position : ℕ) (type : ColumnType)
    (conversion : Conversion) : Fallible TableSchema := do
  match schema.columns[position]? with
  | none => .error ⟨.outOfRange, "columns"⟩
  | some before =>
    let after := { before with type }
    validateColumnType after
    let defaultValue ← changedDefault before after conversion
    let after := { after with defaultValue }
    nextVersion schema (.changeType position after before conversion)
      { schema with columns := schema.columns.set position after }

/-- `ChangeColumnType`. -/
def changeColumnType (schema : TableSchema) (name : String) (type : ColumnType)
    (conversion : Conversion) : Fallible TableSchema := do
  let position ← columnIndex schema name
  match schema.columns[position]? with
  | none => .error ⟨.outOfRange, "columns"⟩
  | some before =>
    let family := familyOf before.type.kind
    require (familyOf type.kind = family)
      ⟨.invalidArgument, "column " ++ before.name ++ " cannot change from "
        ++ columnTypeName before.type ++ " to " ++ columnTypeName type
        ++ ": add a column of the new type, copy the values and drop this one"⟩
    require (before.type ≠ type)
      ⟨.invalidArgument, "column " ++ before.name ++ " is already " ++ columnTypeName type⟩
    require (¬ (conversion = .exact ∧ widens before.type type = false))
      ⟨.invalidArgument, "column " ++ before.name ++ ": " ++ columnTypeName type
        ++ " does not hold every " ++ columnTypeName before.type
        ++ " value; say what happens to those that do not fit (CLAMP, DEFAULT or TRUNCATE)"⟩
    require (takesConversion family conversion = true)
      ⟨.invalidArgument, "column " ++ before.name ++ ": " ++ columnTypeName before.type
        ++ " values cannot be " ++ (if conversion = .clamp then "clamped" else "truncated")⟩
    changeTypeAt schema position type conversion

/-- `WithPendingNarrowing`. -/
def withPendingNarrowing (schema : TableSchema) (name : String) (type : ColumnType) :
    Fallible TableSchema := do
  require (schema.pending = none)
    ⟨.invalidArgument, "another narrowing of this table is in progress"⟩
  let position ← columnIndex schema name
  match schema.columns[position]? with
  | none => .error ⟨.outOfRange, "columns"⟩
  | some column =>
    let next := { schema with pending := some ⟨column.id, type⟩ }
    validateTableSchema next
    return next

/-- `WithoutPendingNarrowing`. -/
def withoutPendingNarrowing (schema : TableSchema) : TableSchema := { schema with pending := none }

/-- `NarrowColumnType`. -/
def narrowColumnType (schema : TableSchema) (name : String) (type : ColumnType) :
    Fallible TableSchema := do
  let position ← columnIndex schema name
  match schema.columns[position]? with
  | none => .error ⟨.outOfRange, "columns"⟩
  | some column =>
    require (schema.pending = some ⟨column.id, type⟩)
      ⟨.invalidArgument, "column " ++ name ++ " has no narrowing to " ++ columnTypeName type
        ++ " in progress"⟩
    changeTypeAt (withoutPendingNarrowing schema) position type .exact

/-- A schema change ALTER TABLE accepts. -/
inductive AlterStep (schema next : TableSchema) : Prop
  | addColumn (column : Column) (allowRequiredWithoutDefault : Bool)
      (h : addColumn schema column allowRequiredWithoutDefault = .ok next)
  | dropColumn (name : String) (h : dropColumn schema name = .ok next)
  | renameColumn (name newName : String) (h : renameColumn schema name newName = .ok next)
  | changeColumnType (name : String) (type : ColumnType) (conversion : Conversion)
      (h : changeColumnType schema name type conversion = .ok next)
  | withPendingNarrowing (name : String) (type : ColumnType)
      (h : withPendingNarrowing schema name type = .ok next)
  | narrowColumnType (name : String) (type : ColumnType)
      (h : narrowColumnType schema name type = .ok next)
  | withoutPendingNarrowing (h : next = withoutPendingNarrowing schema)

/-! ## What a valid schema keeps -/

/-- The rules for the columns of one version, as far as reading chunks needs them. -/
structure ColumnsValid (schema : TableSchema) : Prop where
  typeValid : ∀ column ∈ schema.columns, column.type.Valid
  defaultValid : ∀ column ∈ schema.columns, column.DefaultValid
  idsBelow : ∀ column ∈ schema.columns, column.id < schema.nextColumnId
  idsDistinct : (schema.columns.map Column.id).Nodup
  fixedBits : (schema.columns.map (fun column => fixedWidthBits column.type)).sum
    ≤ kMaxFixedBitsPerBlock

theorem validateColumn_eq_ok {nextColumnId : UInt32} {names : List String} {ids : List UInt32}
    {column : Column} (h : validateColumn nextColumnId names ids column = .ok ()) :
    column.type.Valid ∧ column.DefaultValid ∧ column.id < nextColumnId ∧ column.id ∉ ids := by
  unfold validateColumn at h
  simp only [require_bind, validateColumnType] at h
  obtain ⟨_, _, hid, htype, _, hdefault⟩ := h
  rw [not_or, not_or] at hid
  exact ⟨htype, defaultValid_of_validateDefault column hdefault, UInt32.not_le.mp hid.2.1, hid.2.2⟩

theorem validateColumnLoop_eq_ok {nextColumnId : UInt32} (names : List String) (ids : List UInt32)
    (columns : List Column) (h : validateColumnLoop nextColumnId names ids columns = .ok ()) :
    (∀ column ∈ columns, column.type.Valid ∧ column.DefaultValid ∧ column.id < nextColumnId)
      ∧ (columns.map Column.id).Nodup ∧ ∀ column ∈ columns, column.id ∉ ids := by
  induction columns generalizing names ids with
  | nil => simp
  | cons column columns ih =>
    rw [validateColumnLoop, check_bind_eq_ok] at h
    obtain ⟨hcolumn, hrest⟩ := h
    obtain ⟨htype, hdefault, hbelow, hnew⟩ := validateColumn_eq_ok hcolumn
    obtain ⟨hvalid, hnodup, hdistinct⟩ := ih _ _ hrest
    refine ⟨?_, ?_, ?_⟩
    · rintro c (_ | ⟨_, hc⟩)
      · exact ⟨htype, hdefault, hbelow⟩
      · exact hvalid c hc
    · rw [map_cons, nodup_cons]
      refine ⟨?_, hnodup⟩
      intro hmem
      obtain ⟨c, hc, heq⟩ := mem_map.mp hmem
      exact hdistinct c hc (by rw [heq]; exact mem_cons_self)
    · rintro c (_ | ⟨_, hc⟩)
      · exact hnew
      · exact fun hmem => hdistinct c hc (mem_cons_of_mem _ hmem)

variable {schema next : TableSchema} {change : SchemaChange} {position : ℕ} {before after : Column}

theorem columnsValid_of_validateColumns (h : validateColumns schema = .ok ()) :
    ColumnsValid schema := by
  unfold validateColumns at h
  simp only [check_bind_eq_ok, require_eq_ok] at h
  obtain ⟨_, _, hloop, hbits⟩ := h
  obtain ⟨hvalid, hnodup, _⟩ := validateColumnLoop_eq_ok [] [] schema.columns hloop
  exact ⟨fun c hc => (hvalid c hc).1, fun c hc => (hvalid c hc).2.1, fun c hc => (hvalid c hc).2.2,
    hnodup, hbits⟩

theorem validateTableSchema_eq_ok (h : validateTableSchema schema = .ok ()) :
    schema.version = schema.history.length + 1 ∧ schema.version ≤ kMaxSchemaVersions + 1
      ∧ ColumnsValid schema ∧ validatePending schema = .ok () := by
  unfold validateTableSchema at h
  simp only [check_bind_eq_ok, require_eq_ok] at h
  obtain ⟨hzero, hcolumns, hmax, hlength, _, hpending⟩ := h
  exact ⟨by omega, by omega, columnsValid_of_validateColumns hcolumns, hpending⟩

/-! ## What a step does -/

/-- The schema `after` is the version right after `before`: columns are told apart by
id, a column keeps whether it may be NULL, a new type is a recorded change, and a
step with a new column does nothing else. -/
structure Adjacent (before after : TableSchema) : Prop where
  version : after.version = before.version + 1
  undo : undoLastStep after = .ok before
  nullable : ∀ b ∈ before.columns, ∀ c ∈ after.columns, b.id = c.id → b.nullable = c.nullable
  changed : ∀ b ∈ before.columns, ∀ c ∈ after.columns, b.id = c.id → b.type ≠ c.type →
    ∃ position conversion,
      after.history.getLast? = some ⟨after.version, [.changeType position c b conversion]⟩
        ∧ TypeChange b.type c.type conversion
  added : ∀ c ∈ after.columns, (∀ b ∈ before.columns, b.id ≠ c.id) →
    ∀ b ∈ before.columns, b ∈ after.columns

/-- A column stands in one place. -/
theorem ColumnsValid.index_eq (h : ColumnsValid schema) {i j : ℕ} {column : Column}
    (hi : schema.columns[i]? = some column) (hj : schema.columns[j]? = some column) : i = j := by
  obtain ⟨hlt, _⟩ := List.getElem?_eq_some_iff.mp hi
  exact (getElem?_inj hlt (List.Nodup.of_map _ h.idsDistinct)).mp (hi.trans hj.symm)

/-- Ids tell the columns of a valid schema apart. -/
theorem ColumnsValid.eq_of_id_eq (h : ColumnsValid schema) {a b : Column} (ha : a ∈ schema.columns)
    (hb : b ∈ schema.columns) (heq : a.id = b.id) : a = b :=
  inj_on_of_nodup_map h.idsDistinct ha hb heq

theorem nextVersion_eq_ok {result : TableSchema} (h : nextVersion schema change next = .ok result) :
    schema.pending = none ∧ validateTableSchema result = .ok ()
      ∧ result = { next with
          version := schema.version + 1
          history := next.history ++ [⟨schema.version + 1, [change]⟩] } := by
  unfold nextVersion at h
  simp only [check_bind_eq_ok, require_eq_ok] at h
  obtain ⟨hpending, hvalid, hresult⟩ := h
  cases hresult
  exact ⟨hpending, hvalid, rfl⟩

/-- Undoing the step `NextVersion` records undoes its change. -/
theorem undoLastStep_of_nextVersion {result : TableSchema}
    (h : nextVersion schema change next = .ok result) (hhistory : next.history = schema.history)
    (hundo : undoChange (schema.version + 1) change next.columns next.nextColumnId
      = .ok (schema.columns, schema.nextColumnId)) : undoLastStep result = .ok schema := by
  obtain ⟨hpending, _, rfl⟩ := nextVersion_eq_ok h
  unfold undoLastStep
  simp only [getLast?_concat, reverse_singleton, foldlM_cons, foldlM_nil, dropLast_concat, hundo]
  simp only [hhistory, bind, Except.bind, pure, Except.pure, Nat.add_sub_cancel, ← hpending]

theorem undoLastStep_eq_ok {earlier : TableSchema} (h : undoLastStep schema = .ok earlier) :
    schema.history.length = earlier.history.length + 1 := by
  unfold undoLastStep at h
  split at h
  · simp at h
  · rename_i step hlast
    obtain ⟨_, _, h⟩ := bind_eq_ok.mp h
    cases h
    have hne : schema.history ≠ [] := by
      intro hnil
      simp [hnil] at hlast
    have hpos := length_pos_iff.mpr hne
    rw [length_dropLast]
    omega

theorem columnIndex_eq_ok {name : String} (h : columnIndex schema name = .ok position) :
    ∃ column, schema.columns[position]? = some column ∧ column.name = name := by
  unfold columnIndex at h
  split at h
  · simp [invalidArgument] at h
  · rename_i found hfound
    cases h
    obtain ⟨hlt, hname, _⟩ := findIdx?_eq_some_iff_getElem.mp hfound
    exact ⟨_, getElem?_eq_getElem hlt, by simpa using hname⟩

/-- Giving up a narrowing keeps the schema valid. -/
theorem validateTableSchema_withoutPending (h : validateTableSchema schema = .ok ()) :
    validateTableSchema (withoutPendingNarrowing schema) = .ok () := by
  have hloop : ∀ fuel, validateHistoryLoop fuel (withoutPendingNarrowing schema)
      = validateHistoryLoop fuel schema := by
    intro fuel
    cases fuel <;> rfl
  unfold validateTableSchema at h ⊢
  simp only [check_bind_eq_ok, require_eq_ok] at h ⊢
  obtain ⟨hzero, hcolumns, hmax, hlength, hhistory, _⟩ := h
  exact ⟨hzero, hcolumns, hmax, hlength, (hloop _).trans hhistory, rfl⟩

/-- What a change puts in the place of a column, and how it is recorded. -/
inductive Replaces (position : ℕ) (before : Column) : Column → SchemaChange → Prop
  | rename (name : String) : Replaces position before { before with name }
      (.renameColumn position { before with name } before.name)
  | retype {type : ColumnType} {conversion : Conversion} (defaultValue : Bytes)
      (h : TypeChange before.type type conversion) :
      Replaces position before { before with type, defaultValue }
        (.changeType position { before with type, defaultValue } before conversion)

/-- What the next version is made of: a column is added or dropped, or another takes its place. -/
inductive NextColumns (schema next : TableSchema) : Prop
  | add (column : Column) (hid : column.id = schema.nextColumnId)
      (h : nextVersion schema (.addColumn schema.columns.length column)
        { schema with
          nextColumnId := schema.nextColumnId + 1
          columns := schema.columns ++ [column] } = .ok next)
  | drop {position : ℕ} {dropped : Column} (hget : schema.columns[position]? = some dropped)
      (h : nextVersion schema (.dropColumn position dropped)
        { schema with columns := schema.columns.eraseIdx position } = .ok next)
  | replace {position : ℕ} {before after : Column} {change : SchemaChange}
      (hget : schema.columns[position]? = some before)
      (hreplaces : Replaces position before after change)
      (h : nextVersion schema change { schema with columns := schema.columns.set position after }
        = .ok next)

/-- A changed type is the next version, with a default of its own. -/
theorem changeTypeAt_eq_ok (hvalid : ColumnsValid schema) {type : ColumnType}
    {conversion : Conversion} (hget : schema.columns[position]? = some before)
    (hdiffer : before.type ≠ type) (hfamily : familyOf type.kind = familyOf before.type.kind)
    (htakes : takesConversion (familyOf before.type.kind) conversion = true)
    (h : changeTypeAt schema position type conversion = .ok next) :
    TypeChange before.type type conversion ∧ ∃ defaultValue,
      nextVersion schema (.changeType position { before with type, defaultValue } before conversion)
        { schema with columns := schema.columns.set position { before with type, defaultValue } }
        = .ok next := by
  unfold changeTypeAt at h
  simp only [hget] at h
  rw [check_bind_eq_ok, bind_eq_ok] at h
  obtain ⟨htype, defaultValue, _, hnext⟩ := h
  rw [validateColumnType, require_eq_ok] at htype
  exact ⟨⟨hvalid.typeValid _ (mem_of_getElem? hget), htype, hdiffer, hfamily.symm,
    hfamily ▸ htakes⟩, defaultValue, hnext⟩

/-- What `ChangeColumnType` accepts. -/
theorem changeColumnType_eq_ok (hvalid : ColumnsValid schema) {name : String} {type : ColumnType}
    {conversion : Conversion} (h : changeColumnType schema name type conversion = .ok next) :
    ∃ position before, columnIndex schema name = .ok position ∧
      schema.columns[position]? = some before ∧ TypeChange before.type type conversion ∧
      (conversion = .exact → widens before.type type = true) ∧ ∃ defaultValue,
        nextVersion schema
          (.changeType position { before with type, defaultValue } before conversion)
          { schema with columns := schema.columns.set position { before with type, defaultValue } }
          = .ok next := by
  unfold changeColumnType at h
  obtain ⟨position, hindex, h⟩ := bind_eq_ok.1 h
  obtain ⟨before, hget, _⟩ := columnIndex_eq_ok hindex
  simp only [hget, require_bind] at h
  obtain ⟨hfamily, hdiffer, hexact, htakes, h⟩ := h
  obtain ⟨hchange, hnext⟩ := changeTypeAt_eq_ok hvalid hget hdiffer hfamily htakes h
  exact ⟨position, before, hindex, hget, hchange, fun h => by simpa [h] using hexact, hnext⟩

/-- A narrowing ends as the one in progress was checked. -/
theorem nextColumns_of_narrowColumnType (hvalid : ColumnsValid schema)
    (hpending : validatePending schema = .ok ()) {name : String} {type : ColumnType}
    (h : narrowColumnType schema name type = .ok next) :
    NextColumns (withoutPendingNarrowing schema) next := by
  unfold narrowColumnType at h
  obtain ⟨position, hindex, h⟩ := bind_eq_ok.mp h
  obtain ⟨column, hget, _⟩ := columnIndex_eq_ok hindex
  simp only [hget, require_bind] at h
  obtain ⟨hnarrowing, hchange⟩ := h
  have hvalid' : ColumnsValid (withoutPendingNarrowing schema) :=
    ⟨hvalid.typeValid, hvalid.defaultValid, hvalid.idsBelow, hvalid.idsDistinct, hvalid.fixedBits⟩
  -- the pending narrowing is of the same column, found by its id
  have hfind : schema.columns.find? (fun c => c.id = column.id) = some column := by
    obtain ⟨found, hfound⟩ : ∃ found, schema.columns.find? (fun c => c.id = column.id) = some found := by
      rw [← Option.isSome_iff_exists, find?_isSome]
      exact ⟨column, mem_of_getElem? hget, by simp⟩
    have hid : found.id = column.id := by simpa using find?_some hfound
    rw [hfound, hvalid.eq_of_id_eq (mem_of_find?_eq_some hfound) (mem_of_getElem? hget) hid]
  unfold validatePending at hpending
  simp only [hnarrowing, hfind, require_bind, not_or, not_not] at hpending
  obtain ⟨⟨hfamily, hdiffer, _⟩, _⟩ := hpending
  obtain ⟨hchange, defaultValue, hnext⟩ :=
    changeTypeAt_eq_ok hvalid' hget (Ne.symm hdiffer) hfamily rfl hchange
  exact .replace hget (.retype defaultValue hchange) hnext

/-- What an accepted change does: it notes or gives up a narrowing, or makes the next version. -/
theorem alterStep_effect (hvalid : validateTableSchema schema = .ok ()) (h : AlterStep schema next) :
    (next = { schema with pending := next.pending } ∧ validateTableSchema next = .ok ())
      ∨ NextColumns (withoutPendingNarrowing schema) next := by
  obtain ⟨_, _, hcolumns, hpending⟩ := validateTableSchema_eq_ok hvalid
  have hdone : ∀ change result, nextVersion schema change result = .ok next →
      withoutPendingNarrowing schema = schema := by
    intro change result hnext
    have hnone := (nextVersion_eq_ok hnext).1
    cases schema
    simp_all [withoutPendingNarrowing]
  cases h with
  | addColumn column allow h =>
    unfold addColumn at h
    rw [check_bind_eq_ok] at h
    rw [hdone _ _ h.2]
    exact .inr (.add _ rfl h.2)
  | dropColumn name h =>
    unfold dropColumn at h
    obtain ⟨position, hindex, h⟩ := bind_eq_ok.1 h
    obtain ⟨dropped, hget, _⟩ := columnIndex_eq_ok hindex
    simp only [hget, check_bind_eq_ok] at h
    rw [hdone _ _ h.2]
    exact .inr (.drop hget h.2)
  | renameColumn name newName h =>
    unfold renameColumn at h
    obtain ⟨position, hindex, h⟩ := bind_eq_ok.1 h
    obtain ⟨column, hget, rfl⟩ := columnIndex_eq_ok hindex
    simp only [hget] at h
    rw [hdone _ _ h]
    exact .inr (.replace hget (.rename newName) h)
  | changeColumnType name type conversion h =>
    obtain ⟨position, before, _, hget, hchange, _, defaultValue, h⟩ :=
      changeColumnType_eq_ok hcolumns h
    rw [hdone _ _ h]
    exact .inr (.replace hget (.retype defaultValue hchange) h)
  | withPendingNarrowing name type h =>
    unfold withPendingNarrowing at h
    rw [check_bind_eq_ok, bind_eq_ok] at h
    obtain ⟨_, position, hindex, h⟩ := h
    obtain ⟨column, hget, _⟩ := columnIndex_eq_ok hindex
    simp only [hget, check_bind_eq_ok] at h
    obtain ⟨hnext, h⟩ := h
    cases h
    exact .inl ⟨rfl, hnext⟩
  | narrowColumnType name type h =>
    exact .inr (nextColumns_of_narrowColumnType hcolumns hpending h)
  | withoutPendingNarrowing h =>
    subst h
    exact .inl ⟨rfl, validateTableSchema_withoutPending hvalid⟩

/-- A column put in the place of another with its id: it is the only one to differ. -/
theorem ColumnsValid.eq_or_of_mem_set (hvalid : ColumnsValid schema)
    (hget : schema.columns[position]? = some before) (hid : after.id = before.id) {b c : Column}
    (hb : b ∈ schema.columns) (hc : c ∈ schema.columns.set position after) (heq : b.id = c.id) :
    b = c ∨ (b = before ∧ c = after) := by
  rcases mem_or_eq_of_mem_set hc with hc | rfl
  · exact .inl (hvalid.eq_of_id_eq hb hc heq)
  · exact .inr ⟨hvalid.eq_of_id_eq hb (mem_of_getElem? hget) (heq.trans hid), rfl⟩

/-- No column put in the place of another has a new id. -/
theorem exists_id_of_mem_set {columns : List Column} {c : Column}
    (hget : columns[position]? = some before) (hid : after.id = before.id)
    (hc : c ∈ columns.set position after) : ∃ b ∈ columns, b.id = c.id := by
  rcases mem_or_eq_of_mem_set hc with hc | rfl
  · exact ⟨c, hc, rfl⟩
  · exact ⟨before, mem_of_getElem? hget, hid.symm⟩

theorem set_set_getElem? {columns : List Column} (hget : columns[position]? = some before)
    (after : Column) :
    (columns.set position after).set position before = columns
      ∧ (columns.set position after)[position]? = some after := by
  obtain ⟨hlt, rfl⟩ := List.getElem?_eq_some_iff.mp hget
  refine ⟨by rw [set_set, set_getElem_self], ?_⟩
  simp [hlt]

theorem Replaces.id_eq (h : Replaces position before after change) : after.id = before.id := by
  cases h <;> rfl

/-- The step from a schema to the next version, as reading older chunks needs it. -/
theorem NextColumns.adjacent (h : NextColumns schema next) (hvalid : ColumnsValid schema) :
    Adjacent schema next := by
  have hsame : ∀ {P : Column → Column → Prop}, (∀ b ∈ schema.columns, ∀ c ∈ next.columns,
      b.id = c.id → b = c) → (∀ b, P b b) →
      ∀ b ∈ schema.columns, ∀ c ∈ next.columns, b.id = c.id → P b c := by
    intro P heq hrefl b hb c hc hid
    rw [heq b hb c hc hid]
    exact hrefl c
  cases h with
  | add column hnew hnext =>
    obtain ⟨_, _, hresult⟩ := nextVersion_eq_ok hnext
    -- the only column of `next` that has the id of one of `schema` is that one
    have hsame' : ∀ b ∈ schema.columns, ∀ c ∈ next.columns, b.id = c.id → b = c := by
      intro b hb c hc heq
      rw [hresult] at hc
      rcases mem_append.mp hc with hc | hc
      · exact hvalid.eq_of_id_eq hb hc heq
      · rw [mem_singleton.mp hc, hnew] at heq
        have hlt := hvalid.idsBelow b hb
        rw [heq] at hlt
        exact absurd hlt (UInt32.lt_irrefl _)
    refine ⟨by rw [hresult], ?_, hsame hsame' fun _ => rfl,
      hsame hsame' fun _ hne => absurd rfl hne, ?_⟩
    · apply undoLastStep_of_nextVersion hnext rfl
      simp [undoChange, require, eraseIdx_append_of_length_le, hnew, bind, Except.bind, pure,
        Except.pure]
    · intro c _ _ b hb
      rw [hresult]
      exact mem_append_left _ hb
  | @drop position dropped hget hnext =>
    obtain ⟨_, _, hresult⟩ := nextVersion_eq_ok hnext
    obtain ⟨hlt, heq⟩ := List.getElem?_eq_some_iff.mp hget
    have hsame' : ∀ b ∈ schema.columns, ∀ c ∈ next.columns, b.id = c.id → b = c := by
      intro b hb c hc hid
      rw [hresult] at hc
      exact hvalid.eq_of_id_eq hb (mem_of_mem_eraseIdx hc) hid
    refine ⟨by rw [hresult], ?_, hsame hsame' fun _ => rfl,
      hsame hsame' fun _ hne => absurd rfl hne, ?_⟩
    · apply undoLastStep_of_nextVersion hnext rfl
      have hle : position ≤ (schema.columns.eraseIdx position).length := by
        rw [length_eraseIdx_of_lt hlt]
        omega
      have hback : (schema.columns.eraseIdx position).insertIdx position dropped
          = schema.columns := by
        rw [← heq]
        exact insertIdx_eraseIdx_getElem hlt
      simp [undoChange, require, hle, hback, bind, Except.bind, pure, Except.pure]
    · intro c hc hnew
      rw [hresult] at hc
      exact absurd rfl (hnew c (mem_of_mem_eraseIdx hc))
  | @replace position before after change hget hreplaces hnext =>
    obtain ⟨_, _, hresult⟩ := nextVersion_eq_ok hnext
    obtain ⟨hback, hset⟩ := set_set_getElem? hget after
    have hcases : ∀ b ∈ schema.columns, ∀ c ∈ next.columns, b.id = c.id →
        b = c ∨ (b = before ∧ c = after) := by
      intro b hb c hc hid
      rw [hresult] at hc
      exact hvalid.eq_or_of_mem_set hget hreplaces.id_eq hb hc hid
    refine ⟨by rw [hresult], ?_, ?_, ?_, ?_⟩
    · apply undoLastStep_of_nextVersion hnext rfl
      cases hreplaces <;>
        simp [undoChange, require, hset, hback, bind, Except.bind, pure, Except.pure]
    · intro b hb c hc hid
      rcases hcases b hb c hc hid with rfl | ⟨rfl, rfl⟩
      · rfl
      · cases hreplaces <;> rfl
    · intro b hb c hc hid hne
      rcases hcases b hb c hc hid with rfl | ⟨rfl, rfl⟩
      · exact absurd rfl hne
      · cases hreplaces with
        | rename name => exact absurd rfl hne
        | retype defaultValue htype => exact ⟨position, _, by simp [hresult], htype⟩
    · intro c hc hnew
      rw [hresult] at hc
      obtain ⟨b, hb, hid⟩ := exists_id_of_mem_set hget hreplaces.id_eq hc
      exact absurd hid (hnew b hb)

/-- An accepted change makes the next version, or begins or gives up a narrowing. -/
theorem alterStep_cases (hvalid : validateTableSchema schema = .ok ()) (h : AlterStep schema next) :
    (next = { schema with pending := next.pending })
      ∨ Adjacent (withoutPendingNarrowing schema) next := by
  have hbase := validateTableSchema_withoutPending hvalid
  exact (alterStep_effect hvalid h).imp (·.1) (·.adjacent (validateTableSchema_eq_ok hbase).2.2.1)

/-! ## Earlier versions -/

/-- A pending narrowing of the later schema plays no part in what a step did. -/
theorem Adjacent.with_pending {before after : TableSchema} (h : Adjacent before after)
    (pending : Option PendingNarrowing) : Adjacent before { after with pending } :=
  ⟨h.version, h.undo, h.nullable, h.changed, h.added⟩

theorem schemaAtVersion_self (schema : TableSchema) (h : schema.version ≠ 0) :
    schemaAtVersion schema schema.version = .ok schema := by
  unfold schemaAtVersion
  rw [if_neg (by omega), schemaAtVersionLoop, if_neg (by omega)]

/-- Versions up to the previous one are those of the schema before the step. -/
theorem Adjacent.schemaAtVersion_eq {before after : TableSchema} (h : Adjacent before after)
    {version : ℕ} (hpos : 0 < version) (hle : version ≤ before.version) :
    schemaAtVersion after version = schemaAtVersion before version := by
  have hversion := h.version
  unfold schemaAtVersion
  rw [if_neg (by omega), if_neg (by omega), schemaAtVersionLoop, if_pos (by omega), h.undo,
    undoLastStep_eq_ok h.undo]
  rfl

end ChunkDb
