/-
# The schema area

A table manifest holds the table's schema as bytes (`EncodeTableSchema`,
`DecodeTableSchema` of `schema.cpp`).  The decoder accepts only what the encoder writes
(`encodeTableSchema_of_decode`), so a schema that is read and written back is unchanged,
byte for byte.
-/
import ChunkDb.SchemaHistory
import ChunkDb.Lib.ByteReader

open LittleEndian ByteReader List

namespace ChunkDb

/-! ## Codes -/

/-- The byte of a `ColumnKind`. -/
def ColumnKind.code : ColumnKind → ℕ
  | .unsigned => 1
  | .signed => 2
  | .bool => 3
  | .float32 => 4
  | .float64 => 5
  | .bits => 6
  | .text => 7
  | .bytes => 8

/-- The kind of a byte, for those `IsKnownKind` accepts. -/
def columnKindOf : ℕ → Option ColumnKind
  | 1 => some .unsigned
  | 2 => some .signed
  | 3 => some .bool
  | 4 => some .float32
  | 5 => some .float64
  | 6 => some .bits
  | 7 => some .text
  | 8 => some .bytes
  | _ => none

theorem code_of_columnKindOf {code : ℕ} {kind : ColumnKind} (h : columnKindOf code = some kind) :
    kind.code = code := by
  unfold columnKindOf at h
  split at h <;> cases h <;> rfl

/-- The byte of a `Conversion`. -/
def Conversion.code : Conversion → ℕ
  | .exact => 0
  | .clamp => 1
  | .default => 2
  | .truncate => 3

def conversionOfCode : ℕ → Option Conversion
  | 0 => some .exact
  | 1 => some .clamp
  | 2 => some .default
  | 3 => some .truncate
  | _ => none

theorem code_of_conversionOfCode {code : ℕ} {conversion : Conversion}
    (h : conversionOfCode code = some conversion) : conversion.code = code := by
  unfold conversionOfCode at h
  split at h <;> cases h <;> rfl

/-! ## Columns -/

/-- The flags byte of a column: `kFlagNullable`, `kFlagRequired`, `kFlagHasDefault`. -/
def Column.flags (column : Column) : ℕ :=
  (if column.nullable then 1 else 0) + (if column.required then 2 else 0)
    + (if column.hasDefault then 4 else 0)

/-- `EncodeColumn`. -/
def encodeColumn (column : Column) : Bytes :=
  leBytes 4 column.id.toNat ++ leBytes 1 column.type.kind.code ++ leBytes 4 column.type.size
    ++ leBytes 1 column.flags ++ leBytes 1 column.name.length ++ textBytes column.name
    ++ (if column.hasDefault then
      leBytes 4 column.defaultValue.length ++ column.defaultValue else [])

/-- A reader of the schema area. -/
abbrev SchemaReader (A : Type) := ByteReader Exn A

def schemaTruncated : Exn := ⟨.runtimeError, "schema area is truncated"⟩

/-- `Le`. -/
def schemaLe (n : ℕ) : SchemaReader ℕ := ByteReader.le n schemaTruncated

/-- `Bytes`. -/
def schemaBytes (n : ℕ) : SchemaReader Bytes := ByteReader.take n schemaTruncated

/-- The kind of a column type, read from its byte. -/
def readColumnKind : SchemaReader ColumnKind := do
  let code ← schemaLe 1
  ByteReader.lift <| match columnKindOf code with
    | some kind => .ok kind
    | none => runtimeError ("unknown column type " ++ toString code)

/-- The default of a column, when its flags say it has one. -/
def readDefault (hasDefault : Bool) : SchemaReader Bytes :=
  if hasDefault then do
    let length ← schemaLe 4
    check (require (length ≤ kMaxVariableValueBytes)
      ⟨.runtimeError, "column default of " ++ toString length ++ " bytes"⟩)
    schemaBytes length
  else pure []

/-- `DecodeColumn`. -/
def decodeColumn : SchemaReader Column := do
  let id ← schemaLe 4
  let kind ← readColumnKind
  let size ← schemaLe 4
  let flags ← schemaLe 1
  check (require (flags < 8) ⟨.runtimeError, "unknown column flags " ++ toString flags⟩)
  let nameLength ← schemaLe 1
  let name ← schemaBytes nameLength
  let defaultValue ← readDefault (flags.testBit 2)
  return ⟨UInt32.ofNat id, bytesText name, ⟨kind, size⟩, flags.testBit 0, flags.testBit 1,
    flags.testBit 2, defaultValue⟩

theorem canonical_readColumnKind : Canonical readColumnKind (fun kind => leBytes 1 kind.code) := by
  intro bytes rest kind h
  simp only [readColumnKind, schemaLe, ByteReader.bind_eq_ok, lift_eq_ok, le_eq_ok] at h
  obtain ⟨code, mid, ⟨-, rfl⟩, h, rfl⟩ := h
  split at h
  · next kind' hkind =>
    cases h
    rw [← code_of_columnKindOf hkind]
  · cases h

theorem canonical_readDefault (hasDefault : Bool) :
    Canonical (readDefault hasDefault) (fun value =>
      if hasDefault then leBytes 4 value.length ++ value else []) := by
  intro bytes rest value h
  unfold readDefault at h
  cases hasDefault with
  | false =>
    obtain ⟨rfl, rfl⟩ := pure_eq_ok.1 h
    rfl
  | true =>
    simp only [if_true, schemaLe, schemaBytes, ByteReader.bind_eq_ok, check_eq_ok, le_eq_ok, take_eq_ok] at h
    obtain ⟨length, mid, ⟨-, rfl⟩, u, mid', ⟨-, rfl⟩, rfl, rfl⟩ := h
    simp only [if_true, append_assoc]

theorem toNat_ofNat_uint32 {n : ℕ} (h : n < 256 ^ 4) : (UInt32.ofNat n).toNat = n := by
  rw [UInt32.toNat_ofNat']
  exact Nat.mod_eq_of_lt h

/-- The three flags are the bits of the flags byte. -/
theorem flags_of_testBit : ∀ flags < 8,
    ((if flags.testBit 0 then 1 else 0) + (if flags.testBit 1 then 2 else 0)
      + (if flags.testBit 2 then 4 else 0)) = flags := by
  decide

theorem canonical_decodeColumn : Canonical decodeColumn encodeColumn := by
  intro bytes rest column h
  simp only [decodeColumn, schemaLe, schemaBytes, ByteReader.bind_eq_ok, check_eq_ok,
    pure_eq_ok, le_eq_ok, take_eq_ok, require_eq_ok] at h
  obtain ⟨id, _, ⟨hid, rfl⟩, kind, _, hkind, size, _, ⟨-, rfl⟩, flags, _, ⟨-, rfl⟩, _, _,
    ⟨hflags, rfl⟩, nameLength, _, ⟨-, rfl⟩, name, _, ⟨hname, rfl⟩, value, _, hvalue, rfl, rfl⟩ := h
  rw [canonical_readColumnKind hkind, canonical_readDefault _ hvalue]
  have hflags' : Column.flags ⟨UInt32.ofNat id, bytesText name, ⟨kind, size⟩, flags.testBit 0,
      flags.testBit 1, flags.testBit 2, value⟩ = flags := flags_of_testBit flags hflags
  have hid' : (UInt32.ofNat id).toNat = id := toNat_ofNat_uint32 hid
  simp only [encodeColumn, hflags', hid', length_bytesText, textBytes_bytesText, hname,
    append_assoc]

/-! ## Changes -/

/-- One change of `EncodeTableSchema`. -/
def encodeChange : SchemaChange → Bytes
  | .addColumn position column => leBytes 1 1 ++ leBytes 4 position ++ encodeColumn column
  | .dropColumn position column => leBytes 1 2 ++ leBytes 4 position ++ encodeColumn column
  | .renameColumn position column oldName =>
    leBytes 1 3 ++ leBytes 4 position ++ encodeColumn column
      ++ leBytes 1 oldName.length ++ textBytes oldName
  | .changeType position column previous conversion =>
    leBytes 1 4 ++ leBytes 4 position ++ encodeColumn column
      ++ encodeColumn previous ++ leBytes 1 conversion.code

/-- The byte of a `Conversion`, read. -/
def readConversion : SchemaReader Conversion := do
  let code ← schemaLe 1
  ByteReader.lift <| match conversionOfCode code with
    | some conversion => .ok conversion
    | none => runtimeError ("unknown type conversion " ++ toString code)

/-- One change of `DecodeTableSchema`. -/
def decodeChange : SchemaReader SchemaChange := do
  let kind ← schemaLe 1
  check (require (1 ≤ kind ∧ kind ≤ 4) ⟨.runtimeError, "unknown schema change " ++ toString kind⟩)
  let position ← schemaLe 4
  let column ← decodeColumn
  if kind = 1 then return .addColumn position column
  else if kind = 2 then return .dropColumn position column
  else if kind = 3 then do
    let length ← schemaLe 1
    let name ← schemaBytes length
    return .renameColumn position column (bytesText name)
  else do
    let previous ← decodeColumn
    let conversion ← readConversion
    return .changeType position column previous conversion

theorem canonical_readConversion :
    Canonical readConversion (fun conversion => leBytes 1 conversion.code) := by
  intro bytes rest conversion h
  simp only [readConversion, schemaLe, ByteReader.bind_eq_ok, lift_eq_ok, le_eq_ok] at h
  obtain ⟨code, mid, ⟨-, rfl⟩, h, rfl⟩ := h
  split at h
  · next conversion' hconversion =>
    cases h
    rw [← code_of_conversionOfCode hconversion]
  · cases h

theorem canonical_decodeChange : Canonical decodeChange encodeChange := by
  intro bytes rest change h
  simp only [decodeChange, schemaLe, ByteReader.bind_eq_ok, check_eq_ok, le_eq_ok, require_eq_ok] at h
  obtain ⟨kind, _, ⟨-, rfl⟩, _, _, ⟨hkind, rfl⟩, position, _, ⟨-, rfl⟩, column, mid, hcolumn, h⟩ := h
  rw [canonical_decodeColumn hcolumn]
  split at h
  · next hone =>
    obtain ⟨rfl, rfl⟩ := pure_eq_ok.1 h
    simp only [encodeChange, hone, append_assoc]
  split at h
  · next htwo =>
    obtain ⟨rfl, rfl⟩ := pure_eq_ok.1 h
    simp only [encodeChange, htwo, append_assoc]
  split at h
  · next hthree =>
    simp only [schemaBytes, ByteReader.bind_eq_ok, pure_eq_ok, le_eq_ok, take_eq_ok] at h
    obtain ⟨length, _, ⟨-, rfl⟩, name, _, ⟨hname, rfl⟩, rfl, rfl⟩ := h
    simp only [encodeChange, hthree, length_bytesText, textBytes_bytesText, hname, append_assoc]
  · simp only [ByteReader.bind_eq_ok, pure_eq_ok] at h
    obtain ⟨previous, _, hprevious, conversion, _, hconversion, rfl, rfl⟩ := h
    rw [canonical_decodeColumn hprevious, canonical_readConversion hconversion]
    have hfour : kind = 4 := by omega
    simp only [encodeChange, hfour, append_assoc]

/-! ## Schemas -/

/-- One step of the history. -/
def encodeStep (step : SchemaStep) : Bytes :=
  leBytes 4 step.changes.length ++ step.changes.flatMap encodeChange

/-- The narrowing in progress, if there is one. -/
def encodePending (pending : Option PendingNarrowing) : Bytes :=
  pending.elim [] fun pending =>
    leBytes 1 1 ++ leBytes 4 pending.columnId.toNat ++ leBytes 1 pending.type.kind.code
      ++ leBytes 4 pending.type.size

/-- The bytes `EncodeTableSchema` writes. -/
def schemaArea (schema : TableSchema) : Bytes :=
  leBytes 8 schema.version ++ leBytes 4 schema.nextColumnId.toNat
    ++ leBytes 4 schema.columns.length ++ schema.columns.flatMap encodeColumn
    ++ schema.history.flatMap encodeStep ++ encodePending schema.pending

/-- `EncodeTableSchema`. -/
def encodeTableSchema (schema : TableSchema) : Fallible Bytes := do
  validateTableSchema schema
  return schemaArea schema

/-- The step that made a version, read. -/
def decodeStep (version : ℕ) : SchemaReader SchemaStep := do
  let count ← schemaLe 4
  check (require (¬(count = 0 ∨ count > kMaxColumnsPerTable * 2))
    ⟨.runtimeError, "schema version " ++ toString version ++ " has " ++ toString count
      ++ " changes"⟩)
  let changes ← ByteReader.times decodeChange count
  return ⟨version, changes⟩

/-- One step for each version, from `version` on. -/
def decodeHistory : ℕ → ℕ → SchemaReader (List SchemaStep)
  | 0, _ => pure []
  | n + 1, version => do
    let step ← decodeStep version
    let steps ← decodeHistory n (version + 1)
    return step :: steps

/-- The narrowing in progress, where bytes are left. -/
def readPending : SchemaReader (Option PendingNarrowing) := do
  if ← ByteReader.atEnd then return none
  else
    let marker ← schemaLe 1
    check (require (marker = 1) ⟨.runtimeError, "schema area has trailing bytes"⟩)
    let columnId ← schemaLe 4
    let kind ← readColumnKind
    let size ← schemaLe 4
    return some ⟨UInt32.ofNat columnId, ⟨kind, size⟩⟩

/-- The reads of `DecodeTableSchema`. -/
def readSchema : SchemaReader TableSchema := do
  let version ← schemaLe 8
  let nextColumnId ← schemaLe 4
  let count ← schemaLe 4
  check (require (count ≤ kMaxColumnsPerTable)
    ⟨.runtimeError, "schema area declares " ++ toString count ++ " columns"⟩)
  let columns ← ByteReader.times decodeColumn count
  check (require (¬(version = 0 ∨ version - 1 > kMaxSchemaVersions))
    ⟨.runtimeError, "schema version " ++ toString version ++ " is out of range"⟩)
  let history ← decodeHistory (version - 1) 2
  let pending ← readPending
  let atEnd ← ByteReader.atEnd
  check (require (atEnd = true) ⟨.runtimeError, "schema area has trailing bytes"⟩)
  return ⟨version, UInt32.ofNat nextColumnId, columns, history, pending⟩

/-- `DecodeTableSchema`. -/
def decodeTableSchema (bytes : Bytes) : Fallible TableSchema := do
  let (schema, _) ← readSchema bytes
  validateTableSchema schema
  return schema

theorem canonical_decodeStep (version : ℕ) : Canonical (decodeStep version) encodeStep := by
  intro bytes rest step h
  simp only [decodeStep, schemaLe, ByteReader.bind_eq_ok, check_eq_ok, pure_eq_ok, le_eq_ok] at h
  obtain ⟨count, _, ⟨-, rfl⟩, _, _, ⟨-, rfl⟩, changes, _, hchanges, rfl, rfl⟩ := h
  obtain ⟨hlen, rfl⟩ := canonical_decodeChange.times hchanges
  rw [encodeStep, hlen, append_assoc]

theorem canonical_decodeHistory (n version : ℕ) :
    Canonical (decodeHistory n version) (List.flatMap encodeStep) := by
  induction n generalizing version with
  | zero =>
    intro bytes rest steps h
    obtain ⟨rfl, rfl⟩ := pure_eq_ok.1 h
    rfl
  | succ n ih =>
    intro bytes rest steps h
    simp only [decodeHistory, ByteReader.bind_eq_ok, pure_eq_ok] at h
    obtain ⟨step, _, hstep, tail, _, htail, rfl, rfl⟩ := h
    rw [canonical_decodeStep version hstep, ih (version + 1) htail, flatMap_cons, append_assoc]

theorem canonical_readPending : Canonical readPending encodePending := by
  intro bytes rest pending h
  simp only [readPending, ByteReader.bind_eq_ok, atEnd_eq_ok] at h
  obtain ⟨atEnd, _, ⟨hatEnd, rfl⟩, h⟩ := h
  split at h
  · obtain ⟨rfl, rfl⟩ := pure_eq_ok.1 h
    rfl
  · simp only [schemaLe, ByteReader.bind_eq_ok, check_eq_ok, pure_eq_ok, le_eq_ok, require_eq_ok] at h
    obtain ⟨_, _, ⟨-, rfl⟩, _, _, ⟨rfl, rfl⟩, columnId, _, ⟨hid, rfl⟩, kind, _, hkind, size, _,
      ⟨-, rfl⟩, rfl, rfl⟩ := h
    rw [canonical_readColumnKind hkind]
    simp only [encodePending, Option.elim_some, toNat_ofNat_uint32 hid, append_assoc]

/-- The decoder accepts only what the encoder writes. -/
theorem schemaArea_of_readSchema {bytes rest : Bytes} {schema : TableSchema}
    (h : readSchema bytes = .ok (schema, rest)) : bytes = schemaArea schema := by
  simp only [readSchema, schemaLe, ByteReader.bind_eq_ok, check_eq_ok,
    atEnd_eq_ok, pure_eq_ok, le_eq_ok, require_eq_ok] at h
  obtain ⟨version, _, ⟨-, rfl⟩, nextColumnId, _, ⟨hnext, rfl⟩, count, _, ⟨-, rfl⟩, _, _, ⟨-, rfl⟩,
    columns, _, hcolumns, _, _, ⟨-, rfl⟩, history, _, hhistory, pending, _, hpending, atEnd, _,
    ⟨hatEnd, rfl⟩, _, _, ⟨rfl, rfl⟩, rfl, rfl⟩ := h
  obtain ⟨hlen, rfl⟩ := canonical_decodeColumn.times hcolumns
  rw [canonical_decodeHistory _ _ hhistory, canonical_readPending hpending, isEmpty_iff.1 hatEnd]
  simp only [schemaArea, toNat_ofNat_uint32 hnext, hlen, append_assoc, append_nil]

/-- A schema that was read is written back as the bytes it was read from. -/
theorem encodeTableSchema_of_decode {bytes : Bytes} {schema : TableSchema}
    (h : decodeTableSchema bytes = .ok schema) : encodeTableSchema schema = .ok bytes := by
  unfold decodeTableSchema at h
  obtain ⟨⟨schema', rest⟩, hread, h⟩ := bind_eq_ok.1 h
  obtain ⟨hvalid, h⟩ := check_bind_eq_ok.1 h
  cases h
  unfold encodeTableSchema
  rw [hvalid, ok_bind, schemaArea_of_readSchema hread]
  rfl

end ChunkDb
