/-
# The schema area is read back

Every schema that accepted changes lead to is given back by the bytes `EncodeTableSchema` writes
for it.  What a step of the history holds is bounded by the schemas on both sides of it, which
`ValidateTableSchema` accepted (`AlterStep.recorded`); so each column, each change and the
narrowing in progress fit their fields.
-/
import ChunkDb.SchemaCodec
import ChunkDb.SchemaRuns

open LittleEndian ByteReader List

namespace ChunkDb

/-! ## Codes -/

theorem columnKindOf_code (kind : ColumnKind) : columnKindOf kind.code = some kind := by
  cases kind <;> rfl

theorem conversionOfCode_code (conversion : Conversion) :
    conversionOfCode conversion.code = some conversion := by
  cases conversion <;> rfl

theorem readColumnKind_code (kind : ColumnKind) (rest : Bytes) :
    readColumnKind (leBytes 1 kind.code ++ rest) = .ok (kind, rest) := by
  have hlt : kind.code < 256 ^ 1 := by cases kind <;> decide
  unfold readColumnKind schemaLe
  rw [le_bind hlt, columnKindOf_code]
  rfl

theorem readConversion_code (conversion : Conversion) (rest : Bytes) :
    readConversion (leBytes 1 conversion.code ++ rest) = .ok (conversion, rest) := by
  have hlt : conversion.code < 256 ^ 1 := by cases conversion <;> decide
  unfold readConversion schemaLe
  rw [le_bind hlt, conversionOfCode_code]
  rfl

/-! ## Names -/

/-- A name that fits its length byte, one byte a character. -/
structure NameFits (name : String) : Prop where
  length_lt : name.length < 256
  chars_lt : ∀ c ∈ name.toList, c.toNat < 256

theorem nameFits_of_isValidName {name : String} (h : isValidName name = true) : NameFits name := by
  unfold isValidName at h
  cases hlist : name.toList with
  | nil =>
    rw [hlist] at h
    cases h
  | cons first rest =>
    rw [hlist] at h
    simp only [Bool.and_eq_true, decide_eq_true_eq] at h
    obtain ⟨⟨hlength, -⟩, hall⟩ := h
    refine ⟨?_, fun c hc => ?_⟩
    · rw [← String.length_toList, hlist, length_cons]
      exact hlength.trans_lt (by decide)
    · -- every character of a name is below `z`
      have hrule := all_eq_true.mp hall c (hlist ▸ hc)
      simp only [Bool.or_eq_true, Bool.and_eq_true, decide_eq_true_eq, beq_iff_eq] at hrule
      rcases hrule with (⟨-, hz⟩ | rfl) | ⟨-, hnine⟩
      · exact lt_of_le_of_lt (UInt32.le_iff_toNat_le.mp hz) (by decide)
      · decide
      · exact lt_of_le_of_lt (UInt32.le_iff_toNat_le.mp hnine) (by decide)

/-! ## Columns -/

/-- A column that fits its fields. -/
structure Column.Encodable (column : Column) : Prop where
  size_lt : column.type.size < 256 ^ 4
  name : NameFits column.name
  default_length : column.defaultValue.length ≤ kMaxVariableValueBytes
  default_eq : column.hasDefault = false → column.defaultValue = []

theorem ColumnType.Valid.size_le {type : ColumnType} (h : type.Valid) :
    type.size ≤ kMaxVariableValueBytes := by
  have hmax : (columnTypeRule type.kind).1.2 ≤ kMaxVariableValueBytes := by
    cases type.kind <;> decide
  exact h.2.trans hmax

variable {column : Column} {schema : TableSchema}

theorem encodable_of_validateColumn {nextColumnId : UInt32} {names : List String}
    {ids : List UInt32} (h : validateColumn nextColumnId names ids column = .ok ()) :
    column.Encodable := by
  unfold validateColumn at h
  simp only [require_bind, validateColumnType] at h
  obtain ⟨hname, _, _, htype, _, hdefault⟩ := h
  have hsize := htype.size_le
  have hmax : kMaxVariableValueBytes < 256 ^ 4 := by decide
  refine ⟨hsize.trans_lt hmax, nameFits_of_isValidName hname, ?_, ?_⟩
  · unfold validateDefault at hdefault
    split at hdefault
    · rw [(require_eq_ok _ _).mp hdefault]
      exact Nat.zero_le _
    · split at hdefault
      · next hfixed =>
        simp only [require_bind] at hdefault
        have hwidth : fixedWidthBits column.type = column.type.size := if_pos hfixed
        rw [hdefault.1, hwidth]
        have : bytesForBits column.type.size ≤ column.type.size := by
          have := htype.size_pos
          unfold bytesForBits
          omega
        exact this.trans hsize
      · simp only [require_bind] at hdefault
        exact hdefault.1.trans hsize
  · intro hnone
    unfold validateDefault at hdefault
    rw [if_pos hnone] at hdefault
    exact (require_eq_ok _ _).mp hdefault

theorem encodable_of_validateColumnLoop {nextColumnId : UInt32} {names : List String}
    {ids : List UInt32} {columns : List Column}
    (h : validateColumnLoop nextColumnId names ids columns = .ok ()) :
    ∀ column ∈ columns, column.Encodable := by
  induction columns generalizing names ids with
  | nil => exact nofun
  | cons column columns ih =>
    rw [validateColumnLoop, check_bind_eq_ok] at h
    rintro c (_ | ⟨_, hc⟩)
    · exact encodable_of_validateColumn h.1
    · exact ih h.2 c hc

/-- The columns of a valid schema fit their fields and the count. -/
theorem encodable_of_validateTableSchema (h : validateTableSchema schema = .ok ()) :
    schema.columns.length ≤ kMaxColumnsPerTable ∧ ∀ column ∈ schema.columns, column.Encodable := by
  unfold validateTableSchema validateColumns at h
  simp only [bind_assoc, check_bind_eq_ok, require_eq_ok] at h
  exact ⟨h.2.2.1, encodable_of_validateColumnLoop h.2.2.2.1⟩

theorem testBit_flags (column : Column) : column.flags < 8
    ∧ column.flags.testBit 0 = column.nullable ∧ column.flags.testBit 1 = column.required
    ∧ column.flags.testBit 2 = column.hasDefault := by
  have hbits : ∀ a b c : Bool,
      let flags := (if a then 1 else 0) + (if b then 2 else 0) + (if c then 4 else 0)
      flags < 8 ∧ flags.testBit 0 = a ∧ flags.testBit 1 = b ∧ flags.testBit 2 = c := by decide
  exact hbits column.nullable column.required column.hasDefault

theorem readDefault_encode (h : column.Encodable) (rest : Bytes) :
    readDefault column.hasDefault ((if column.hasDefault then
      leBytes 4 column.defaultValue.length ++ column.defaultValue else []) ++ rest)
      = .ok (column.defaultValue, rest) := by
  unfold readDefault
  cases hdefault : column.hasDefault with
  | false =>
    rw [h.default_eq hdefault]
    rfl
  | true =>
    have hlength := h.default_length
    have hlt : column.defaultValue.length < 256 ^ 4 := hlength.trans_lt (by decide)
    simp only [if_true, append_assoc]
    unfold schemaLe schemaBytes
    rw [le_bind hlt, check_bind (require_of hlength _)]
    exact take_append rfl _ _

/-- A column that fits its fields is read back. -/
theorem decodeColumn_encodeColumn (h : column.Encodable) (rest : Bytes) :
    decodeColumn (encodeColumn column ++ rest) = .ok (column, rest) := by
  obtain ⟨hflags, hnullable, hrequired, hdefault⟩ := testBit_flags column
  have hid : column.id.toNat < 256 ^ 4 := column.id.toNat_lt
  have hbyte : column.flags < 256 ^ 1 := hflags.trans (by decide)
  have hname : (textBytes column.name).length = column.name.length := length_textBytes _
  simp only [encodeColumn, append_assoc]
  unfold decodeColumn schemaLe schemaBytes
  rw [le_bind hid, bind_of_eq_ok (readColumnKind_code _ _), le_bind h.size_lt, le_bind hbyte,
    check_bind (require_of hflags _), le_bind h.name.length_lt, take_bind hname, hdefault,
    bind_of_eq_ok (readDefault_encode h rest), hnullable, hrequired, UInt32.ofNat_toNat,
    bytesText_textBytes h.name.chars_lt]
  rfl

/-! ## Changes and steps -/

/-- A change that fits its fields. -/
def SchemaChange.Encodable : SchemaChange → Prop
  | .addColumn position column | .dropColumn position column =>
    position ≤ kMaxColumnsPerTable ∧ column.Encodable
  | .renameColumn position column oldName =>
    position ≤ kMaxColumnsPerTable ∧ column.Encodable ∧ NameFits oldName
  | .changeType position column previous _ =>
    position ≤ kMaxColumnsPerTable ∧ column.Encodable ∧ previous.Encodable

theorem SchemaChange.Encodable.position_lt {position : ℕ} (h : position ≤ kMaxColumnsPerTable) :
    position < 256 ^ 4 :=
  h.trans_lt (by decide)

/-- A change that fits its fields is read back. -/
theorem decodeChange_encodeChange {change : SchemaChange} (h : change.Encodable) (rest : Bytes) :
    decodeChange (encodeChange change ++ rest) = .ok (change, rest) := by
  -- the marker and the position of every kind of change, and its column
  have hhead : ∀ (kind position : ℕ) (column : Column) (tail : Bytes), 1 ≤ kind → kind ≤ 4 →
      position ≤ kMaxColumnsPerTable → column.Encodable →
      decodeChange (leBytes 1 kind ++ (leBytes 4 position ++ (encodeColumn column ++ tail)))
        = (if kind = 1 then pure (.addColumn position column)
          else if kind = 2 then pure (.dropColumn position column)
          else if kind = 3 then do
            let length ← schemaLe 1
            let name ← schemaBytes length
            pure (.renameColumn position column (bytesText name))
          else do
            let previous ← decodeColumn
            let conversion ← readConversion
            pure (.changeType position column previous conversion) :
              SchemaReader SchemaChange) tail := by
    intro kind position column tail hlow hhigh hposition hcolumn
    have hkind : kind < 256 ^ 1 := by omega
    unfold decodeChange
    rw [show schemaLe 1 = ByteReader.le 1 schemaTruncated from rfl,
      show schemaLe 4 = ByteReader.le 4 schemaTruncated from rfl, le_bind hkind,
      check_bind (require_of ⟨hlow, hhigh⟩ _),
      le_bind (SchemaChange.Encodable.position_lt hposition),
      bind_of_eq_ok (decodeColumn_encodeColumn hcolumn _)]
  cases change with
  | addColumn position column =>
    simp only [encodeChange, append_assoc]
    rw [hhead 1 position column rest (by decide) (by decide) h.1 h.2]
    rfl
  | dropColumn position column =>
    simp only [encodeChange, append_assoc]
    rw [hhead 2 position column rest (by decide) (by decide) h.1 h.2]
    rfl
  | renameColumn position column oldName =>
    obtain ⟨hposition, hcolumn, hname⟩ := h
    have hlength : (textBytes oldName).length = oldName.length := length_textBytes _
    simp only [encodeChange, append_assoc]
    rw [hhead 3 position column _ (by decide) (by decide) hposition hcolumn, if_neg (by decide),
      if_neg (by decide), if_pos rfl]
    unfold schemaLe schemaBytes
    rw [le_bind hname.length_lt, take_bind hlength, bytesText_textBytes hname.chars_lt]
    rfl
  | changeType position column previous conversion =>
    obtain ⟨hposition, hcolumn, hprevious⟩ := h
    simp only [encodeChange, append_assoc]
    rw [hhead 4 position column _ (by decide) (by decide) hposition hcolumn, if_neg (by decide),
      if_neg (by decide), if_neg (by decide), bind_of_eq_ok (decodeColumn_encodeColumn hprevious _),
      bind_of_eq_ok (readConversion_code _ _)]
    rfl

/-- A step that fits its fields. -/
structure SchemaStep.Encodable (step : SchemaStep) : Prop where
  changes_ne : step.changes ≠ []
  changes_le : step.changes.length ≤ kMaxColumnsPerTable * 2
  changes : ∀ change ∈ step.changes, change.Encodable

theorem decodeStep_encodeStep {step : SchemaStep} (h : step.Encodable) (rest : Bytes) :
    decodeStep step.version (encodeStep step ++ rest) = .ok (step, rest) := by
  have hlength : step.changes.length < 256 ^ 4 := h.changes_le.trans_lt (by decide)
  have hcount : ¬ (step.changes.length = 0 ∨ step.changes.length > kMaxColumnsPerTable * 2) := by
    rw [not_or, not_lt]
    exact ⟨fun hzero => h.changes_ne (length_eq_zero_iff.mp hzero), h.changes_le⟩
  rw [encodeStep, append_assoc]
  unfold decodeStep schemaLe
  rw [le_bind hlength,
    check_bind (require_of hcount _),
    bind_of_eq_ok (times_flatMap
      (fun change hchange tail => decodeChange_encodeChange (h.changes change hchange) tail) rest)]
  rfl

/-- The steps of a history are read back, one for each version. -/
theorem decodeHistory_encode {steps : List SchemaStep} {version : ℕ}
    (hversions : steps.map SchemaStep.version = List.range' version steps.length)
    (h : ∀ step ∈ steps, step.Encodable) (rest : Bytes) :
    decodeHistory steps.length version (steps.flatMap encodeStep ++ rest) = .ok (steps, rest) := by
  induction steps generalizing version with
  | nil => rfl
  | cons step steps ih =>
    rw [map_cons, length_cons, range'_succ, List.cons.injEq] at hversions
    obtain ⟨rfl, htail⟩ := hversions
    rw [flatMap_cons, append_assoc, length_cons, decodeHistory,
      bind_of_eq_ok (decodeStep_encodeStep (h step mem_cons_self) _),
      bind_of_eq_ok (ih htail fun s hs => h s (mem_cons_of_mem _ hs))]
    rfl

/-- The narrowing in progress is read back from the end of the area. -/
theorem readPending_encodePending {pending : Option PendingNarrowing}
    (h : ∀ narrowing ∈ pending, narrowing.type.size < 256 ^ 4) :
    readPending (encodePending pending) = .ok (pending, []) := by
  cases pending with
  | none => rfl
  | some narrowing =>
    have hid : narrowing.columnId.toNat < 256 ^ 4 := narrowing.columnId.toNat_lt
    have hsize := h narrowing rfl
    have hmore : (leBytes 1 1 ++ (leBytes 4 narrowing.columnId.toNat
        ++ (leBytes 1 narrowing.type.kind.code ++ leBytes 4 narrowing.type.size))).isEmpty
        = false := rfl
    simp only [encodePending, Option.elim_some, append_assoc]
    unfold readPending schemaLe
    rw [bind_of_eq_ok (atEnd_eq_ok.mpr ⟨hmore, rfl⟩), if_neg Bool.false_ne_true,
      le_bind (show 1 < 256 ^ 1 by decide), check_bind (require_of rfl _), le_bind hid,
      bind_of_eq_ok (readColumnKind_code _ _), ← append_nil (leBytes 4 narrowing.type.size),
      le_bind hsize, UInt32.ofNat_toNat]
    rfl

/-! ## What the changes record -/

/-- What a change leaves in the history: nothing, or one step that fits its fields. -/
def Records (schema next : TableSchema) : Prop :=
  next.history = schema.history ∨ ∃ change : SchemaChange, change.Encodable
    ∧ next.history = schema.history ++ [⟨schema.version + 1, [change]⟩]

/-- **Every accepted change records a step that fits its fields.** -/
theorem AlterStep.records {next : TableSchema} (h : AlterStep schema next)
    (hvalid : validateTableSchema schema = .ok ()) : Records schema next := by
  obtain ⟨hcount, hcolumns⟩ := encodable_of_validateTableSchema hvalid
  rcases alterStep_effect hvalid h with ⟨hsame, -⟩ | hnext
  · rw [hsame]
    exact .inl rfl
  · cases hnext with
    | add column hid h =>
      obtain ⟨-, hnext, rfl⟩ := nextVersion_eq_ok h
      refine .inr ⟨.addColumn _ column, ⟨hcount, ?_⟩, rfl⟩
      exact (encodable_of_validateTableSchema hnext).2 _ (mem_append_right _ (mem_singleton_self _))
    | drop hget h =>
      obtain ⟨-, hnext, rfl⟩ := nextVersion_eq_ok h
      exact .inr ⟨.dropColumn .., ⟨(List.getElem?_eq_some_iff.mp hget).1.le.trans hcount,
        hcolumns _ (mem_of_getElem? hget)⟩, rfl⟩
    | replace hget hreplaces h =>
      obtain ⟨-, hnext, rfl⟩ := nextVersion_eq_ok h
      have hlt := (List.getElem?_eq_some_iff.mp hget).1
      have hbefore := hcolumns _ (mem_of_getElem? hget)
      have hafter := (encodable_of_validateTableSchema hnext).2 _ (mem_set hlt _)
      refine .inr ⟨_, ?_, rfl⟩
      cases hreplaces with
      | rename name => exact ⟨hlt.le.trans hcount, hafter, hbefore.name⟩
      | retype defaultValue htype => exact ⟨hlt.le.trans hcount, hafter, hbefore⟩

/-- A schema whose history can be written and read. -/
structure Recorded (schema : TableSchema) : Prop where
  valid : validateTableSchema schema = .ok ()
  versions : schema.history.map SchemaStep.version = List.range' 2 schema.history.length
  steps : ∀ step ∈ schema.history, step.Encodable

theorem Recorded.step {next : TableSchema} (h : Recorded schema) (hstep : AlterStep schema next) :
    Recorded next := by
  obtain ⟨hvalid, hversions, hsteps⟩ := h
  have hversion := (validateTableSchema_eq_ok hvalid).1
  refine ⟨(hstep.keepsIds hvalid).valid, ?_, ?_⟩
  · rcases hstep.records hvalid with hsame | ⟨change, -, hnext⟩
    · rw [hsame]
      exact hversions
    · rw [hnext, map_append, hversions, length_append, length_singleton, range'_concat, hversion]
      simp [Nat.add_comm, Nat.add_left_comm]
  · rcases hstep.records hvalid with hsame | ⟨change, hchange, hnext⟩
    · rw [hsame]
      exact hsteps
    · rw [hnext]
      intro step hmem
      rcases mem_append.mp hmem with hold | hnew
      · exact hsteps step hold
      · obtain rfl := mem_singleton.mp hnew
        refine ⟨cons_ne_nil _ _, show 1 ≤ kMaxColumnsPerTable * 2 by decide, fun other hother => ?_⟩
        obtain rfl := mem_singleton.mp hother
        exact hchange

theorem Alters.recorded {first : TableSchema} (h : Alters first schema)
    (hfirst : validateTableSchema first = .ok ()) (hversion : first.version = 1) :
    Recorded schema := by
  refine Runs.invariant (I := Recorded) h ⟨hfirst, ?_, ?_⟩ fun _ _ hrecorded step =>
    hrecorded.step step
  all_goals
    have hlength := (validateTableSchema_eq_ok hfirst).1
    have hnil : first.history = [] := length_eq_zero_iff.mp (by omega)
    rw [hnil]
  · rfl
  · exact nofun

theorem size_lt_of_validatePending (h : validatePending schema = .ok ()) :
    ∀ narrowing ∈ schema.pending, narrowing.type.size < 256 ^ 4 := by
  intro narrowing hmem
  unfold validatePending at h
  rw [Option.mem_def.mp hmem] at h
  dsimp only at h
  split at h
  · cases h
  · simp only [check_bind_eq_ok, validateColumnType, require_eq_ok] at h
    exact (ColumnType.Valid.size_le h.2.1).trans_lt (by decide)

/-- A recorded schema is given back by its area. -/
theorem Recorded.readSchema_schemaArea (h : Recorded schema) :
    readSchema (schemaArea schema) = .ok (schema, []) := by
  obtain ⟨hvalid, hversions, hsteps⟩ := h
  obtain ⟨hversion, hmax, _, hpending⟩ := validateTableSchema_eq_ok hvalid
  obtain ⟨hcount, hcolumns⟩ := encodable_of_validateTableSchema hvalid
  have hv : schema.version < 256 ^ 8 := hmax.trans_lt (by decide)
  have hnext : schema.nextColumnId.toNat < 256 ^ 4 := schema.nextColumnId.toNat_lt
  have hc : schema.columns.length < 256 ^ 4 := hcount.trans_lt (by decide)
  have hrange : ¬ (schema.version = 0 ∨ schema.version - 1 > kMaxSchemaVersions) := by omega
  have hhistory : schema.version - 1 = schema.history.length := by omega
  simp only [schemaArea, append_assoc]
  unfold readSchema
  rw [show schemaLe 8 = ByteReader.le 8 schemaTruncated from rfl,
    show schemaLe 4 = ByteReader.le 4 schemaTruncated from rfl,
    le_bind hv,
    le_bind hnext,
    le_bind hc,
    check_bind (require_of hcount _),
    bind_of_eq_ok (times_flatMap
      (fun column hcolumn tail => decodeColumn_encodeColumn (hcolumns column hcolumn) tail) _),
    check_bind (require_of hrange _),
    hhistory, bind_of_eq_ok (decodeHistory_encode hversions hsteps _),
    bind_of_eq_ok (readPending_encodePending (size_lt_of_validatePending hpending)),
    bind_of_eq_ok (atEnd_eq_ok.mpr ⟨rfl, rfl⟩),
    check_bind ((require_eq_ok (([] : Bytes).isEmpty = true) _).mpr rfl), UInt32.ofNat_toNat]
  rfl

theorem Recorded.decode_encode (h : Recorded schema) :
    encodeTableSchema schema = .ok (schemaArea schema)
      ∧ decodeTableSchema (schemaArea schema) = .ok schema := by
  refine ⟨?_, ?_⟩
  · unfold encodeTableSchema
    rw [h.valid]
    rfl
  · unfold decodeTableSchema
    rw [h.readSchema_schemaArea, ok_bind]
    dsimp only
    rw [h.valid]
    rfl

/-- **The schema codec.**  A schema that accepted changes lead to from a valid schema of version 1
is given back by its bytes; and the decoder accepts only bytes that the encoder writes for a valid
schema. -/
theorem schema_codec {first schema : TableSchema} (hfirst : validateTableSchema first = .ok ())
    (hversion : first.version = 1) (h : Alters first schema) :
    (∃ bytes, encodeTableSchema schema = .ok bytes ∧ decodeTableSchema bytes = .ok schema)
    ∧ ∀ bytes decoded, decodeTableSchema bytes = .ok decoded →
      validateTableSchema decoded = .ok () ∧ encodeTableSchema decoded = .ok bytes := by
  refine ⟨⟨_, (h.recorded hfirst hversion).decode_encode⟩, fun bytes decoded hdecode => ?_⟩
  have hencode := encodeTableSchema_of_decode hdecode
  refine ⟨?_, hencode⟩
  unfold encodeTableSchema at hencode
  exact (check_bind_eq_ok.1 hencode).1

theorem schema_codec_noted :
    ∃ bytes, encodeTableSchema notedSchema = .ok bytes
      ∧ decodeTableSchema bytes = .ok notedSchema := by
  have hvalid : validateTableSchema cellsSchema = .ok () := by decide +kernel
  exact (schema_codec hvalid rfl (.single (.addColumn noteColumn false addColumn_cellsSchema))).1

end ChunkDb
