/-
# Translation keeps states valid

A valid state of one schema version translates to a valid state of the next
(`translateChunk_spec`).  Two things are needed beyond what the schema rules give:
values that an exact narrowing must keep fit the new type (`NarrowingFits`), and
the values a new text or bytes column puts in every present block (`addedBytes`)
leave the section below 4 GiB.  Nothing else makes the values grow.

The proof goes by column (`columnReturns`): `ColumnChanges` says what the
translation of one column does to the values, and the changes of all columns are
merged at once.
-/
import ChunkDb.TranslatePayload

open ByteBits SortedMap List

namespace ChunkDb

open ChunkLayout

/-! ## Text and bytes values -/

theorem isFixedWidth_eq_false_of_width {type : ColumnType} (hvalid : type.Valid)
    (h : fixedWidthBits type = 0) : isFixedWidth type.kind = false :=
  (fixedWidthBits_eq_zero_iff hvalid).mp h

variable {column after before : Column} {conversion : Conversion} {source target : ChunkLayout}
  {state : ChunkState}

theorem hasType_decodeVarValue (hvar : isFixedWidth column.type.kind = false) {bytes : Bytes}
    (h : column.Stores bytes) : HasType column.type (decodeVarValue column bytes) :=
  hasType_varValue column.type (familyOf_variable hvar) bytes h.length_le h.utf8

theorem bytesOf_decodeVarValue (column : Column) (bytes : Bytes) :
    bytesOf (decodeVarValue column bytes) = bytes := bytesOf_varValue column.type bytes

/-- A value the column can hold is stored, or stands for no entry. -/
theorem storedVar_spec (hvar : isFixedWidth after.type.kind = false) {value : ColumnValue}
    (h : after.Holds value) :
    ∃ stored, storedVar after value = .ok stored
      ∧ ∀ bytes ∈ stored, after.Stores bytes ∧ bytes = bytesOf value := by
  unfold storedVar
  rcases h with ⟨rfl, _⟩ | htype
  · exact ⟨none, rfl, by simp⟩
  · obtain ⟨hok, hlen, hutf8⟩ := encodeVarValue_of_hasType after value hvar htype
    rw [if_neg htype.ne_null, hok]
    refine ⟨_, rfl, ?_⟩
    intro bytes hbytes
    split at hbytes
    · simp at hbytes
    · rename_i hstored
      cases hbytes
      exact ⟨⟨hlen, fun hnil => by simpa [hnil] using hstored, hutf8⟩, rfl⟩

/-- The changes a type change makes, from what each value turns into. -/
def changesOf (columnId : UInt32) (stored : VarKey × Bytes → Option Bytes)
    (entries : List (VarKey × Bytes)) : List VarChange :=
  (entries.filter (fun e => e.1.columnId = columnId ∧ stored e ≠ some e.2)).map
    (fun e => (e.1, stored e))

/-- Every value of a text or bytes column converts to one the changed column stores,
no longer than it was, or to no entry. -/
theorem convertVars_spec (hchange : TypeChange before.type after.type conversion)
    (hdefault : after.DefaultValid) (hvar : isFixedWidth after.type.kind = false)
    (entries : List (VarKey × Bytes))
    (hstores : ∀ e ∈ entries, e.1.columnId = after.id → before.Stores e.2)
    (hexact : conversion = .exact → ∀ e ∈ entries, e.1.columnId = after.id →
      valueFits after.type (decodeVarValue before e.2) = true) :
    ∃ stored : VarKey × Bytes → Option Bytes,
      convertVars before after conversion entries = .ok (changesOf after.id stored entries)
        ∧ ∀ e ∈ entries, e.1.columnId = after.id →
            ∀ bytes ∈ stored e, after.Stores bytes ∧ bytes.length ≤ e.2.length := by
  have hbefore : isFixedWidth before.type.kind = false := by rw [hchange.isFixedWidth_eq, hvar]
  have hone : ∀ e ∈ entries, e.1.columnId = after.id → ∃ stored,
      convertVar before after conversion e.2 = .ok stored
        ∧ ∀ bytes ∈ stored, after.Stores bytes ∧ bytes.length ≤ e.2.length := by
    intro e he hid
    obtain ⟨converted, hconvert, hholds⟩ := convertValue_spec before.type after conversion hchange
      hdefault _ (.inr (hasType_decodeVarValue hbefore (hstores e he hid)))
      (fun hx => hexact hx e he hid)
    obtain ⟨stored, hstored, hbytes⟩ := storedVar_spec hvar hholds
    refine ⟨stored, by rw [convertVar, hconvert]; exact hstored, ?_⟩
    intro bytes hb
    obtain ⟨hst, rfl⟩ := hbytes bytes hb
    have hlen := length_convertValue_le before.type after conversion hchange hdefault hvar _ _ hconvert
    rw [bytesOf_decodeVarValue] at hlen
    exact ⟨hst, hlen⟩
  refine ⟨fun e => (convertVar before after conversion e.2).toOption.join, ?_, ?_⟩
  · clear hstores hexact
    induction entries with
    | nil => rfl
    | cons e entries ih =>
      have htail := ih (fun e' he' => hone e' (mem_cons_of_mem _ he'))
      rw [convertVars, changesOf]
      by_cases hid : e.1.columnId = after.id
      · obtain ⟨stored, hok, _⟩ := hone e mem_cons_self hid
        rw [if_neg (by simpa using hid), hok, htail]
        simp only [ok_bind]
        by_cases hsame : stored = some e.2
        · rw [if_pos hsame, filter_cons_of_neg (by simp [hok, hsame, Except.toOption])]
          rfl
        · rw [if_neg hsame,
            filter_cons_of_pos (by simp [hid, hok, hsame, Except.toOption]), map_cons]
          simp [hok, Except.toOption, changesOf]
          rfl
      · rw [if_pos hid, filter_cons_of_neg (by simp [hid])]
        exact htail
  · intro e he hid bytes hb
    obtain ⟨stored, hok, hbytes⟩ := hone e he hid
    refine hbytes bytes ?_
    simpa [hok, Except.toOption] using hb

/-! ## Fixed-width values -/

section Fixed

variable {column : Column} {fixed : FixedColumn} {blockCount payloadBytes : ℕ}

variable {block : ℕ}

/-- A block of a fixed-width column reads as NULL or as a value of its type. -/
theorem readFixed_spec (hvalid : column.type.Valid)
    (hplaced : PlacedColumn blockCount column payloadBytes fixed) {payload : Bytes}
    (hlen : payload.length = payloadBytes) (hblock : block < blockCount) :
    ∃ value, readFixed column fixed payload block = .ok value ∧ column.Holds value := by
  unfold readFixed
  split
  · have hpadded := paddedTo_readValueBits payload (fixed.values * 8 + block * fixed.width) fixed.width
      (by rw [hlen]; exact value_bits_le hplaced.values_le hblock)
    rw [hplaced.width_eq] at hpadded ⊢
    obtain ⟨value, hok, htype, _⟩ := decodeColumnValue_spec hvalid hplaced.isFixedWidth_eq hpadded
    exact ⟨value, hok, .inr htype⟩
  · rename_i hnull
    refine ⟨.null, rfl, .inl ⟨rfl, ?_⟩⟩
    rw [← hplaced.validity_isSome]
    cases hv : fixed.validity with
    | none => simp [hv] at hnull
    | some validity => rfl

/-- A value the column can hold is written. -/
theorem writeFixed_spec (hvalid : column.type.Valid)
    (hplaced : PlacedColumn blockCount column payloadBytes fixed) (next : Bytes) (block : ℕ)
    {value : ColumnValue} (hholds : column.Holds value) :
    ∃ written, writeFixed column fixed next block value = .ok written := by
  unfold writeFixed
  rcases hholds with ⟨rfl, _⟩ | htype
  · exact ⟨next, rfl⟩
  · obtain ⟨encoded, hok, _⟩ := encodeColumnValue_of_hasType hvalid hplaced.isFixedWidth_eq htype
    rw [if_neg htype.ne_null, hok]
    exact ⟨_, rfl⟩

end Fixed

/-- A type change converts every block of a fixed-width column. -/
theorem convertFixed_spec {oldFixed newFixed : FixedColumn} {blockCount oldBytes newBytes : ℕ}
    (hchange : TypeChange before.type after.type conversion) (hdefault : after.DefaultValid)
    (hnullable : before.nullable = after.nullable)
    (hold : PlacedColumn blockCount before oldBytes oldFixed)
    (hnew : PlacedColumn blockCount after newBytes newFixed) {payload : Bytes}
    (hpayload : payload.length = oldBytes) (blocks : List ℕ)
    (hblocks : ∀ block ∈ blocks, block < blockCount)
    (hexact : conversion = .exact → ∀ block ∈ blocks, ∀ value,
      readFixed before oldFixed payload block = .ok value → valueFits after.type value = true)
    (next : Bytes) : ∃ converted,
      convertFixed before after conversion oldFixed newFixed payload blocks next = .ok converted := by
  induction blocks generalizing next with
  | nil => exact ⟨next, rfl⟩
  | cons block blocks ih =>
    have hblock := hblocks block mem_cons_self
    obtain ⟨value, hread, hholds⟩ := readFixed_spec hchange.sourceValid hold hpayload hblock
    have hvalue : (value = .null ∧ after.nullable = true) ∨ HasType before.type value := by
      rcases hholds with ⟨hnull, hb⟩ | htype
      · exact .inl ⟨hnull, by rw [← hnullable]; exact hb⟩
      · exact .inr htype
    obtain ⟨converted, hconvert, hholds'⟩ := convertValue_spec before.type after conversion hchange
      hdefault value hvalue (fun hx => hexact hx block mem_cons_self value hread)
    obtain ⟨written, hwrite⟩ := writeFixed_spec hchange.targetValid hnew next block hholds'
    rw [convertFixed, hread, ok_bind, hconvert, ok_bind, hwrite, ok_bind]
    exact ih (fun b hb => hblocks b (mem_cons_of_mem _ hb))
      (fun hx b hb => hexact hx b (mem_cons_of_mem _ hb)) written

/-! ## One column -/

/-- Where a step narrows a column exactly, the values of the state fit the new type. -/
def NarrowingFits (source target : ChunkLayout) (state : ChunkState) : Prop :=
  ∀ index before after, source.schema.columns[index]? = some before →
    after ∈ target.schema.columns → before.id = after.id →
    conversionOf source.schema target.schema after.id = .ok .exact →
    widens before.type after.type = false →
    (∀ fixed, source.fixedColumnAt index = some fixed →
      ∀ block ∈ presentBlocks target.blockCount state.presence, ∀ value,
        readFixed before fixed state.payload block = .ok value → valueFits after.type value = true)
    ∧ ∀ e ∈ state.vars.entries, e.1.columnId = after.id →
        valueFits after.type (decodeVarValue before e.2) = true

/-- The values a column of `target` puts in the present blocks because `source` does
not have it. -/
def addedVars (source target : ChunkLayout) (presence : Bytes) (column : Column) : List VarChange :=
  if source.indexOfId column.id = none ∧ fixedWidthBits column.type = 0 then
    addVars column (presentBlocks target.blockCount presence)
  else []

/-- The bytes a change leaves at its key. -/
def changeBytes (change : VarChange) : ℕ := weight ChunkVars.entryBytes (put change.1 change.2)

/-- What the translation of one column does to the values. -/
structure ColumnChanges (source target : ChunkLayout) (state : ChunkState) (column : Column)
    (changes : List VarChange) : Prop where
  id_eq : ∀ c ∈ changes, c.1.columnId = column.id
  isVar : changes ≠ [] → fixedWidthBits column.type = 0
  nodup : (changes.map Prod.fst).Nodup
  stores : ∀ c ∈ changes, ∀ bytes ∈ c.2, column.Stores bytes
  block_lt : ∀ c ∈ changes, c.1.blockIndex.toNat < target.blockCount
  present : ∀ c ∈ changes, getBit state.presence c.1.blockIndex.toNat = true
  kept : ∀ e ∈ state.vars.entries, e.1.columnId = column.id → fixedWidthBits column.type = 0 →
    e.1 ∉ changes.map Prod.fst → column.Stores e.2
  shrinks : source.indexOfId column.id ≠ none →
    ∀ c ∈ changes, changeBytes c ≤ state.vars.bytesAt c.1
  added : source.indexOfId column.id = none →
    changes = addedVars source target state.presence column
  same : column ∈ source.schema.columns → changes = []

theorem ColumnChanges.nil
    (hkept : ∀ e ∈ state.vars.entries, e.1.columnId = column.id → fixedWidthBits column.type = 0 →
      column.Stores e.2)
    (hadded : source.indexOfId column.id = none →
      addedVars source target state.presence column = []) :
    ColumnChanges source target state column [] where
  id_eq := by simp
  isVar := by simp
  nodup := by simp
  stores := by simp
  block_lt := by simp
  present := by simp
  kept := fun e he hid hvar _ => hkept e he hid hvar
  shrinks := by simp
  added := fun hnone => (hadded hnone).symm
  same := fun _ => rfl

/-- No value is of a column the source layout does not have. -/
theorem ChunkLayout.ValidState.columnId_ne {layout : ChunkLayout} (h : layout.ValidState state)
    {columnId : UInt32} (hnone : layout.indexOfId columnId = none) {e : VarKey × Bytes}
    (he : e ∈ state.vars.entries) : e.1.columnId ≠ columnId := by
  obtain ⟨column, hvar⟩ := h.validVar he
  rw [← hvar.id_eq]
  exact indexOfId_eq_none.mp hnone column hvar.mem

/-- A new text or bytes column: every present block gets the default. -/
theorem columnChanges_addVars (hstate : source.ValidState state)
    (hblocks : target.blockCount ≤ 2 ^ 32) (hvalid : column.type.Valid)
    (hdefault : column.DefaultValid) (hnone : source.indexOfId column.id = none)
    (hvar : fixedWidthBits column.type = 0) :
    ColumnChanges source target state column
      (addVars column (presentBlocks target.blockCount state.presence)) := by
  have hadded : addVars column (presentBlocks target.blockCount state.presence)
      = addedVars source target state.presence column := by
    rw [addedVars, if_pos ⟨hnone, hvar⟩]
  have hsame : column ∈ source.schema.columns → False := fun hmem =>
    indexOfId_eq_none.mp hnone column hmem rfl
  by_cases hput : column.hasDefault = true ∧ (column.defaultValue ≠ [] ∨ column.nullable = true)
  · have hmem : ∀ c ∈ addVars column (presentBlocks target.blockCount state.presence),
        ∃ block, block < target.blockCount ∧ getBit state.presence block = true
          ∧ c = (⟨column.id, UInt32.ofNat block⟩, some column.defaultValue) := by
      intro c hc
      rw [addVars, if_pos hput] at hc
      obtain ⟨block, hblock, rfl⟩ := mem_map.mp hc
      exact ⟨block, (mem_presentBlocks.mp hblock).1, (mem_presentBlocks.mp hblock).2, rfl⟩
    have hindex : ∀ block, block < target.blockCount → (UInt32.ofNat block).toNat = block :=
      fun block hlt => UInt32.toNat_ofNat_of_lt' (lt_of_lt_of_le hlt hblocks)
    refine ⟨?_, fun _ => hvar, ?_, ?_, ?_, ?_, ?_, fun hne => absurd hnone hne, fun _ => hadded,
      fun hmem => (hsame hmem).elim⟩
    · intro c hc
      obtain ⟨block, _, _, rfl⟩ := hmem c hc
      rfl
    · rw [addVars, if_pos hput, map_map]
      apply List.Nodup.map_on
      · intro a ha b hb heq
        have hab := congrArg (fun key : VarKey => key.blockIndex.toNat) heq
        simp only [Function.comp] at hab
        rwa [hindex a (mem_presentBlocks.mp ha).1, hindex b (mem_presentBlocks.mp hb).1] at hab
      · exact List.Nodup.filter _ nodup_range
    · intro c hc bytes hb
      obtain ⟨block, _, _, rfl⟩ := hmem c hc
      cases hb
      have hbytes := hdefault hput.1
      rw [if_neg (by simp [isFixedWidth_eq_false_of_width hvalid hvar])] at hbytes
      exact ⟨hbytes.1, fun hnil => by simpa [hnil] using hput.2, hbytes.2⟩
    · intro c hc
      obtain ⟨block, hlt, _, rfl⟩ := hmem c hc
      rwa [hindex block hlt]
    · intro c hc
      obtain ⟨block, hlt, hpresent, rfl⟩ := hmem c hc
      rwa [hindex block hlt]
    · intro e he hid
      exact absurd hid (hstate.columnId_ne hnone he)
  · have hnil : addVars column (presentBlocks target.blockCount state.presence) = [] := by
      rw [addVars, if_neg hput]
    rw [hnil]
    exact .nil (fun e he hid => absurd hid (hstate.columnId_ne hnone he)) fun _ =>
      hadded.symm.trans hnil

theorem changeBytes_le_bytesAt {vars : ChunkVars} {key : VarKey} {bytes : Bytes}
    (hmem : (key, bytes) ∈ vars.entries) {stored : Option Bytes}
    (hle : ∀ b ∈ stored, b.length ≤ bytes.length) :
    changeBytes (key, stored) ≤ vars.bytesAt key := by
  have hfind := (find_eq_some_iff vars key bytes).mpr hmem
  rw [changeBytes, ChunkVars.bytesAt, hfind]
  cases stored with
  | none => simp [put, weight]
  | some b =>
    have := hle b rfl
    simp only [put, weight, map_cons, map_nil, sum_cons, sum_nil, ChunkVars.entryBytes]
    omega

/-- A text or bytes column of another type: every value converts. -/
theorem columnChanges_convertVars (hstate : source.ValidState state)
    (hblocks : source.blockCount = target.blockCount) (hbefore : before ∈ source.schema.columns)
    (hid : before.id = after.id) (hchange : TypeChange before.type after.type conversion)
    (hdefault : after.DefaultValid) (hvar : fixedWidthBits after.type = 0)
    (hexact : conversion = .exact → ∀ e ∈ state.vars.entries, e.1.columnId = after.id →
      valueFits after.type (decodeVarValue before e.2) = true) :
    ∃ changes, convertVars before after conversion state.vars.entries = .ok changes
      ∧ ColumnChanges source target state after changes := by
  have hsome : source.indexOfId after.id ≠ none := fun hnone =>
    indexOfId_eq_none.mp hnone before hbefore hid
  have hstores : ∀ e ∈ state.vars.entries, e.1.columnId = after.id → before.Stores e.2 :=
    fun e he heq => hstate.stores hbefore he (heq.trans hid.symm)
  obtain ⟨stored, hok, hspec⟩ := convertVars_spec hchange hdefault
    (isFixedWidth_eq_false_of_width hchange.targetValid hvar) state.vars.entries hstores hexact
  have hmem : ∀ c ∈ changesOf after.id stored state.vars.entries,
      ∃ e ∈ state.vars.entries, e.1.columnId = after.id ∧ c = (e.1, stored e) := by
    intro c hc
    obtain ⟨e, he, rfl⟩ := mem_map.mp hc
    obtain ⟨he, hprop⟩ := mem_filter.mp he
    simp only [Bool.decide_and, Bool.and_eq_true, decide_eq_true_eq] at hprop
    exact ⟨e, he, hprop.1, rfl⟩
  refine ⟨_, hok, ?_, fun _ => hvar, ?_, ?_, ?_, ?_, ?_, ?_, fun hnone => absurd hnone hsome, ?_⟩
  · intro c hc
    obtain ⟨e, _, heq, rfl⟩ := hmem c hc
    exact heq
  · rw [changesOf, map_map]
    apply List.Nodup.sublist
      (List.Sublist.map (Prod.fst ∘ fun e : VarKey × Bytes => (e.1, stored e)) filter_sublist)
    exact pairwise_map.mpr (state.vars.ascending.imp (fun hlt => ne_of_lt hlt))
  · intro c hc bytes hb
    obtain ⟨e, he, heq, rfl⟩ := hmem c hc
    exact (hspec e he heq bytes hb).1
  · intro c hc
    obtain ⟨e, he, _, rfl⟩ := hmem c hc
    obtain ⟨column, hcolumn⟩ := hstate.validVar he
    rw [← hblocks]
    exact hcolumn.block_lt
  · intro c hc
    obtain ⟨e, he, _, rfl⟩ := hmem c hc
    obtain ⟨column, hcolumn⟩ := hstate.validVar he
    exact hcolumn.present
  · intro e he heq _ hnot
    -- a value no change names converts to itself
    have hself : stored e = some e.2 := by
      by_contra hne
      apply hnot
      rw [changesOf, map_map]
      exact mem_map.mpr ⟨e, mem_filter.mpr ⟨he, by simp [heq, hne]⟩, rfl⟩
    exact (hspec e he heq e.2 hself).1
  · intro _ c hc
    obtain ⟨e, he, heq, rfl⟩ := hmem c hc
    exact changeBytes_le_bytesAt he (fun b hb => (hspec e he heq b hb).2)
  · intro hmem'
    have : after = before := source.columnsValid.eq_of_id_eq hmem' hbefore hid.symm
    exact absurd (congrArg Column.type this).symm hchange.differ

/-- The recorded conversion of a column whose type changed. -/
theorem Adjacent.conversionOf_eq {before after : TableSchema} (h : Adjacent before after) {b c : Column}
    (hb : b ∈ before.columns) (hc : c ∈ after.columns) (hid : b.id = c.id) (hne : b.type ≠ c.type) :
    ∃ conversion, conversionOf before after c.id = .ok conversion
      ∧ TypeChange b.type c.type conversion := by
  obtain ⟨position, conversion, hlast, hchange⟩ := h.changed b hb c hc hid hne
  refine ⟨conversion, ?_, hchange⟩
  rw [conversionOf, if_neg (by simp [h.version]), hlast]
  simp

section Columns

variable {source target : ChunkLayout} {state : ChunkState} {index : ℕ} {column : Column}
  {next : Bytes}

/-- The translation of one column of `target` returns, with the changes it must make to the
values. -/
def ColumnReturns (source target : ChunkLayout) (state : ChunkState) (index : ℕ)
    (column : Column) (next : Bytes) : Prop :=
  ∃ translated changes,
    translateColumn source target state.presence state.payload state.vars index column next
        = .ok (translated, changes)
      ∧ ColumnChanges source target state column changes

/-- A column added since: blocks get its default. -/
theorem columnReturns_new (hcount : target.blockCount ≤ 2 ^ 32)
    (hstate : source.ValidState state) (hcolumn : target.schema.columns[index]? = some column)
    (hindex : source.indexOfId column.id = none) :
    ColumnReturns source target state index column next := by
  have hmem := mem_of_getElem? hcolumn
  unfold ColumnReturns translateColumn
  simp only [hindex]
  cases hfixed : target.fixedColumnAt index with
  | none =>
    exact ⟨next, _, rfl, columnChanges_addVars hstate hcount
      (target.columnsValid.typeValid column hmem) (target.columnsValid.defaultValid column hmem)
      hindex (target.fixedColumnAt_eq_none hfixed hcolumn)⟩
  | some fixed =>
    have hplaced := placedColumn_of_fixedColumnAt hcolumn hfixed
    refine ⟨_, [], rfl, .nil (fun e he hid => absurd hid (hstate.columnId_ne hindex he))
      fun _ => if_neg fun h => hplaced.width_ne ?_⟩
    rw [hplaced.width_eq]
    exact h.2

/-- A column of the same type: its arrays are copied, and its values stay. -/
theorem columnReturns_kept (hstate : source.ValidState state) {sourceIndex : ℕ} {before : Column}
    (hindex : source.indexOfId column.id = some sourceIndex)
    (hbefore : source.schema.columns[sourceIndex]? = some before) (hid : before.id = column.id)
    (hnullable : before.nullable = column.nullable) (htype : before.type = column.type) :
    ColumnReturns source target state index column next := by
  have hchanges : ColumnChanges source target state column [] := by
    refine .nil ?_ (fun hnone => by simp [hindex] at hnone)
    intro e he heq _
    have hst := hstate.stores (mem_of_getElem? hbefore) he (heq.trans hid.symm)
    exact ⟨by rw [← htype]; exact hst.length_le,
      fun hnil => by rw [← hnullable]; exact hst.nullable_of_nil hnil,
      fun hk => hst.utf8 (by rw [htype]; exact hk)⟩
  unfold ColumnReturns translateColumn
  simp only [hindex, hbefore]
  rw [if_neg (by simpa using htype)]
  split
  · split <;> exact ⟨_, [], rfl, hchanges⟩
  · exact ⟨next, [], rfl, hchanges⟩

/-- Under an exact conversion every value fits: a widening keeps them, and a narrowing has been
checked. -/
theorem NarrowingFits.fits (hfits : NarrowingFits source target state)
    (hblocks : source.blockCount = target.blockCount) (hstate : source.ValidState state)
    {sourceIndex : ℕ} {before : Column} (hcolumn : column ∈ target.schema.columns)
    (hbefore : source.schema.columns[sourceIndex]? = some before) (hid : before.id = column.id)
    {conversion : Conversion}
    (hconversion : conversionOf source.schema target.schema column.id = .ok conversion)
    (hchange : TypeChange before.type column.type conversion) (hexact : conversion = .exact) :
    (∀ fixed, source.fixedColumnAt sourceIndex = some fixed →
      ∀ block ∈ presentBlocks target.blockCount state.presence, ∀ value,
        readFixed before fixed state.payload block = .ok value → valueFits column.type value = true)
    ∧ ∀ e ∈ state.vars.entries, e.1.columnId = column.id →
        valueFits column.type (decodeVarValue before e.2) = true := by
  cases hwidens : widens before.type column.type with
  | false => exact hfits sourceIndex before column hbefore hcolumn hid (hexact ▸ hconversion) hwidens
  | true =>
    refine ⟨fun fixed hfixed block hblock value hread => ?_, fun e he heq => ?_⟩
    · obtain ⟨value', hread', hholds⟩ := readFixed_spec hchange.sourceValid
        (placedColumn_of_fixedColumnAt hbefore hfixed) hstate.payload_length
        (hblocks ▸ (mem_presentBlocks.mp hblock).1)
      cases hread.symm.trans hread'
      exact valueFits_of_widens hchange hwidens _ (hholds.imp And.left id)
    · obtain ⟨stored, hvar⟩ := hstate.validVar he
      obtain rfl := source.columnsValid.eq_of_id_eq hvar.mem (mem_of_getElem? hbefore)
        (hvar.id_eq.trans (heq.trans hid.symm))
      exact valueFits_of_widens hchange hwidens _ (.inr (hasType_decodeVarValue
        (isFixedWidth_eq_false_of_width hchange.sourceValid hvar.isVar) hvar.stores))

/-- A column of another type: its values are converted. -/
theorem columnReturns_changed (hblocks : source.blockCount = target.blockCount)
    (hstate : source.ValidState state) (hfits : NarrowingFits source target state)
    (hcolumn : target.schema.columns[index]? = some column) {sourceIndex : ℕ} {before : Column}
    (hindex : source.indexOfId column.id = some sourceIndex)
    (hbefore : source.schema.columns[sourceIndex]? = some before) (hid : before.id = column.id)
    (hnullable : before.nullable = column.nullable) {conversion : Conversion}
    (hconversion : conversionOf source.schema target.schema column.id = .ok conversion)
    (hchange : TypeChange before.type column.type conversion) :
    ColumnReturns source target state index column next := by
  have hmem := mem_of_getElem? hcolumn
  have hdefault := target.columnsValid.defaultValid column hmem
  have hexact := hfits.fits hblocks hstate hmem hbefore hid hconversion hchange
  unfold ColumnReturns translateColumn
  simp only [hindex, hbefore]
  rw [if_pos hchange.differ, hconversion, ok_bind]
  cases hfixed : target.fixedColumnAt index with
  | none =>
    obtain ⟨changes, hok, hchanges⟩ := columnChanges_convertVars hstate hblocks
      (mem_of_getElem? hbefore) hid hchange hdefault
      (target.fixedColumnAt_eq_none hfixed hcolumn) fun hx => (hexact hx).2
    dsimp only
    rw [hok]
    exact ⟨next, changes, rfl, hchanges⟩
  | some newFixed =>
    have hplaced := placedColumn_of_fixedColumnAt hcolumn hfixed
    dsimp only
    cases hold : source.fixedColumnAt sourceIndex with
    | none =>
      -- a fixed-width column was one before
      have hwidth := source.fixedColumnAt_eq_none hold hbefore
      have hb := isFixedWidth_eq_false_of_width hchange.sourceValid hwidth
      rw [hchange.isFixedWidth_eq, ← fixedWidthBits_eq_zero_iff hchange.targetValid,
        ← hplaced.width_eq] at hb
      exact absurd hb hplaced.width_ne
    | some oldFixed =>
      obtain ⟨converted, hok⟩ := convertFixed_spec hchange hdefault hnullable
        (hblocks ▸ placedColumn_of_fixedColumnAt hbefore hold) hplaced hstate.payload_length
        (presentBlocks target.blockCount state.presence)
        (fun block hblock => (mem_presentBlocks.mp hblock).1)
        (fun hx => (hexact hx).1 oldFixed hold) next
      dsimp only
      rw [hok]
      refine ⟨converted, [], rfl, .nil ?_ (fun hnone => by simp [hindex] at hnone)⟩
      intro e he _ hvar
      rw [← hplaced.width_eq] at hvar
      exact absurd hvar hplaced.width_ne

theorem columnReturns (hadjacent : Adjacent source.schema target.schema)
    (hblocks : source.blockCount = target.blockCount) (hcount : target.blockCount ≤ 2 ^ 32)
    (hstate : source.ValidState state) (hfits : NarrowingFits source target state)
    (hcolumn : target.schema.columns[index]? = some column) :
    ColumnReturns source target state index column next := by
  cases hindex : source.indexOfId column.id with
  | none => exact columnReturns_new hcount hstate hcolumn hindex
  | some sourceIndex =>
    obtain ⟨before, hbefore, hid⟩ := indexOfId_eq_some hindex
    have hbmem := mem_of_getElem? hbefore
    have hmem := mem_of_getElem? hcolumn
    have hnullable := hadjacent.nullable before hbmem column hmem hid
    by_cases htype : before.type = column.type
    · exact columnReturns_kept hstate hindex hbefore hid hnullable htype
    · obtain ⟨conversion, hconversion, hchange⟩ :=
        hadjacent.conversionOf_eq hbmem hmem hid htype
      exact columnReturns_changed hblocks hstate hfits hcolumn hindex hbefore hid hnullable
        hconversion hchange

end Columns

/-! ## The whole chunk -/

/-- The changes the columns make together: each is one of its column, and no two are
of the same value. -/
theorem translateColumns_spec (hadjacent : Adjacent source.schema target.schema)
    (hblocks : source.blockCount = target.blockCount) (hcount : target.blockCount ≤ 2 ^ 32)
    (hstate : source.ValidState state) (hfits : NarrowingFits source target state) (index : ℕ)
    (columns : List Column) (hcolumns : ∀ i column, columns[i]? = some column →
      target.schema.columns[index + i]? = some column) (hids : (columns.map Column.id).Nodup)
    (next : Bytes) :
    ∃ translated changes,
      translateColumns source target state.presence state.payload state.vars index columns next
          = .ok (translated, changes)
        ∧ ∃ parts : List (Column × List VarChange), parts.map Prod.fst = columns
            ∧ changes = parts.flatMap Prod.snd
            ∧ ∀ part ∈ parts, ColumnChanges source target state part.1 part.2 := by
  induction columns generalizing index next with
  | nil => exact ⟨next, [], rfl, [], rfl, rfl, by simp⟩
  | cons column columns ih =>
    obtain ⟨translated, changes, hok, hchanges⟩ : ColumnReturns source target state _ column next :=
      columnReturns hadjacent hblocks hcount hstate hfits (hcolumns 0 column rfl)
    obtain ⟨translated', changes', hok', parts, hparts, hflat, hall⟩ :=
      ih (index + 1) (fun i c hc => by
        have := hcolumns (i + 1) c (by simpa using hc)
        rwa [show index + (i + 1) = index + 1 + i by omega] at this)
        (nodup_cons.mp hids).2 translated
    rw [Nat.add_zero] at hok
    refine ⟨translated', changes ++ changes', ?_, (column, changes) :: parts, ?_, ?_, ?_⟩
    · rw [translateColumns, hok, ok_bind]
      dsimp only
      rw [hok']
      rfl
    · rw [map_cons, hparts]
    · rw [flatMap_cons, hflat]
    · rintro part (_ | ⟨_, hpart⟩)
      · exact hchanges
      · exact hall part hpart

/-- The keys of sorted changes that are all different are in ascending order. -/
theorem keysAscending_mergeSort {changes : List VarChange} (h : (changes.map Prod.fst).Nodup) :
    KeysAscending (changes.mergeSort (fun a b => a.1 ≤ b.1)) := by
  have hsorted : (changes.mergeSort (fun a b => a.1 ≤ b.1)).Pairwise
      (fun a b => decide (a.1 ≤ b.1) = true) := pairwise_mergeSort
    (by intro a b c hab hbc; simp only [decide_eq_true_eq] at *; exact le_trans hab hbc)
    (by intro a b; simp only [Bool.or_eq_true, decide_eq_true_eq]; exact le_total _ _) changes
  have hperm := mergeSort_perm changes (fun a b => decide (a.1 ≤ b.1))
  have hnodup : ((changes.mergeSort (fun a b => a.1 ≤ b.1)).map Prod.fst).Nodup :=
    ((hperm.map Prod.fst).nodup_iff).mpr h
  rw [List.Nodup, pairwise_map] at hnodup
  apply (hsorted.and hnodup).imp
  intro a b hab
  exact lt_of_le_of_ne (by simpa using hab.1) hab.2

/-- What the changes to the values of a chunk are: those of its columns, and the
values of dropped columns. -/
structure ChunkChanges (source target : ChunkLayout) (state : ChunkState)
    (changes : List VarChange) : Prop where
  nodup : (changes.map Prod.fst).Nodup
  valid : ∀ c ∈ changes, ∀ bytes ∈ c.2, ∃ column, target.ValidVar state.presence column (c.1, bytes)
  kept : ∀ e ∈ state.vars.entries, e.1 ∉ changes.map Prod.fst →
    ∃ column, target.ValidVar state.presence column e

theorem mem_dropVars {vars : ChunkVars} {c : VarChange} :
    c ∈ dropVars target vars ↔
      ∃ e ∈ vars.entries, target.varColumn e.1.columnId = none ∧ c = (e.1, none) := by
  simp only [dropVars, mem_map, mem_filter, Option.isNone_iff_eq_none]
  constructor
  · rintro ⟨e, ⟨he, hnone⟩, rfl⟩
    exact ⟨e, he, hnone, rfl⟩
  · rintro ⟨e, he, hnone, rfl⟩
    exact ⟨e, ⟨he, hnone⟩, rfl⟩

theorem nodup_keys_dropVars (target : ChunkLayout) (vars : ChunkVars) :
    ((dropVars target vars).map Prod.fst).Nodup := by
  rw [dropVars, map_map]
  apply List.Nodup.sublist (List.Sublist.map _ filter_sublist)
  exact pairwise_map.mpr (vars.ascending.imp (fun hlt => ne_of_lt hlt))

section Parts

variable {source target : ChunkLayout} {state : ChunkState} {parts : List (Column × List VarChange)}

/-- Changes of different columns are of different values. -/
theorem nodup_keys_parts (hids : ((parts.map Prod.fst).map Column.id).Nodup)
    (hall : ∀ part ∈ parts, ColumnChanges source target state part.1 part.2) :
    ((parts.flatMap Prod.snd).map Prod.fst).Nodup := by
  induction parts with
  | nil => simp
  | cons part parts ih =>
    simp only [map_cons, nodup_cons] at hids
    rw [flatMap_cons, map_append, nodup_append]
    refine ⟨(hall part mem_cons_self).nodup,
      ih hids.2 (fun p hp => hall p (mem_cons_of_mem _ hp)), ?_⟩
    intro key hkey key' hkey' heq
    obtain ⟨c, hc, rfl⟩ := mem_map.mp hkey
    obtain ⟨c', hc', rfl⟩ := mem_map.mp hkey'
    obtain ⟨p, hp, hcp⟩ := mem_flatMap.mp hc'
    apply hids.1
    refine mem_map.mpr ⟨p.1, mem_map_of_mem hp, ?_⟩
    rw [← (hall p (mem_cons_of_mem _ hp)).id_eq c' hcp, ← heq, (hall part mem_cons_self).id_eq c hc]

theorem chunkChanges_of_parts (hblocks : source.blockCount = target.blockCount)
    (hstate : source.ValidState state) (hparts : parts.map Prod.fst = target.schema.columns)
    (hall : ∀ part ∈ parts, ColumnChanges source target state part.1 part.2) :
    ChunkChanges source target state (parts.flatMap Prod.snd ++ dropVars target state.vars) := by
  have hids : ((parts.map Prod.fst).map Column.id).Nodup := by
    rw [hparts]
    exact target.columnsValid.idsDistinct
  have hcolumn : ∀ part ∈ parts, part.1 ∈ target.schema.columns := by
    intro part hpart
    rw [← hparts]
    exact mem_map_of_mem hpart
  -- a change of a column is of a text or bytes column of `target`
  have hvarColumn : ∀ part ∈ parts, ∀ c ∈ part.2, target.varColumn c.1.columnId = some part.1 := by
    intro part hpart c hc
    exact varColumn_eq_some.mpr ⟨hcolumn part hpart, ((hall part hpart).id_eq c hc).symm,
      (hall part hpart).isVar (ne_nil_of_mem hc)⟩
  constructor
  · rw [map_append, nodup_append]
    refine ⟨nodup_keys_parts hids hall, nodup_keys_dropVars _ _, ?_⟩
    intro key hkey key' hkey' heq
    obtain ⟨c, hc, rfl⟩ := mem_map.mp hkey
    obtain ⟨part, hpart, hcp⟩ := mem_flatMap.mp hc
    obtain ⟨c', hc', rfl⟩ := mem_map.mp hkey'
    obtain ⟨e, _, hnone, rfl⟩ := mem_dropVars.mp hc'
    have hsome := hvarColumn part hpart c hcp
    rw [heq, hnone] at hsome
    simp at hsome
  · intro c hc bytes hb
    rcases mem_append.mp hc with hc | hc
    · obtain ⟨part, hpart, hcp⟩ := mem_flatMap.mp hc
      have h := hall part hpart
      exact ⟨part.1, hcolumn part hpart, (h.id_eq c hcp).symm, h.isVar (ne_nil_of_mem hcp),
        h.block_lt c hcp, h.present c hcp, h.stores c hcp bytes hb⟩
    · obtain ⟨e, _, _, rfl⟩ := mem_dropVars.mp hc
      simp at hb
  · intro e he hnot
    rw [map_append, mem_append, not_or] at hnot
    obtain ⟨column, hold⟩ := hstate.validVar he
    cases hvar : target.varColumn e.1.columnId with
    | none =>
      refine absurd ?_ hnot.2
      exact mem_map.mpr ⟨(e.1, none), mem_dropVars.mpr ⟨e, he, hvar, rfl⟩, rfl⟩
    | some after =>
      obtain ⟨hmem, hid, hwidth⟩ := varColumn_eq_some.mp hvar
      rw [← hparts] at hmem
      obtain ⟨part, hpart, rfl⟩ := mem_map.mp hmem
      refine ⟨part.1, hcolumn part hpart, hid, hwidth, by rw [← hblocks]; exact hold.block_lt,
        hold.present, (hall part hpart).kept e he hid.symm hwidth ?_⟩
      intro hkey
      obtain ⟨c, hc, hce⟩ := mem_map.mp hkey
      exact hnot.1 (mem_map.mpr ⟨c, mem_flatMap.mpr ⟨part, hpart, hc⟩, hce⟩)

end Parts

/-- The bytes the columns that `source` lacks add to the values. -/
def addedBytes (source target : ChunkLayout) (presence : Bytes) : ℕ :=
  ((target.schema.columns.flatMap (addedVars source target presence)).map changeBytes).sum

section Sizes

variable {source target : ChunkLayout} {state : ChunkState} {parts : List (Column × List VarChange)}

theorem sum_changeBytes_parts_le
    (hall : ∀ part ∈ parts, ColumnChanges source target state part.1 part.2) :
    ((parts.flatMap Prod.snd).map changeBytes).sum
      ≤ ((parts.flatMap Prod.snd).map (fun c => state.vars.bytesAt c.1)).sum
        + (((parts.map Prod.fst).flatMap (addedVars source target state.presence)).map
            changeBytes).sum := by
  induction parts with
  | nil => simp
  | cons part parts ih =>
    have htail := ih (fun p hp => hall p (mem_cons_of_mem _ hp))
    have hpart := hall part mem_cons_self
    have hhead : (part.2.map changeBytes).sum
        ≤ (part.2.map (fun c => state.vars.bytesAt c.1)).sum
          + ((addedVars source target state.presence part.1).map changeBytes).sum := by
      cases hindex : source.indexOfId part.1.id with
      | none =>
        rw [← hpart.added hindex]
        omega
      | some i =>
        have hle := hpart.shrinks (by simp [hindex])
        have := sum_le_sum hle
        omega
    simp only [flatMap_cons, map_cons, map_append, sum_append]
    omega

theorem sum_changeBytes_dropVars (target : ChunkLayout) (vars : ChunkVars) :
    ((dropVars target vars).map changeBytes).sum = 0 := by
  apply sum_eq_zero
  intro n hn
  obtain ⟨c, hc, rfl⟩ := mem_map.mp hn
  obtain ⟨e, _, _, rfl⟩ := mem_dropVars.mp hc
  simp [changeBytes, put, weight]

/-- A step that adds values changes nothing else. -/
theorem changes_of_added (hadjacent : Adjacent source.schema target.schema)
    (hstate : source.ValidState state) (hparts : parts.map Prod.fst = target.schema.columns)
    (hall : ∀ part ∈ parts, ColumnChanges source target state part.1 part.2)
    (hadded : addedBytes source target state.presence ≠ 0) :
    dropVars target state.vars = []
      ∧ ∀ part ∈ parts, part.2 = addedVars source target state.presence part.1 := by
  -- some column is new, so every column of `source` is one of `target`
  have hkeep : ∀ b ∈ source.schema.columns, b ∈ target.schema.columns := by
    by_contra hnot
    apply hadded
    apply sum_eq_zero
    intro n hn
    obtain ⟨c, hc, rfl⟩ := mem_map.mp hn
    obtain ⟨column, hcolumn, hc⟩ := mem_flatMap.mp hc
    rw [addedVars] at hc
    split at hc
    · rename_i hnew
      exact absurd (hadjacent.added column hcolumn (indexOfId_eq_none.mp hnew.1)) hnot
    · simp at hc
  constructor
  · rw [eq_nil_iff_forall_not_mem]
    intro c hc
    obtain ⟨e, he, hnone, rfl⟩ := mem_dropVars.mp hc
    obtain ⟨column, hvar⟩ := hstate.validVar he
    have hsome : target.varColumn e.1.columnId = some column :=
      varColumn_eq_some.mpr ⟨hkeep column hvar.mem, hvar.id_eq, hvar.isVar⟩
    rw [hnone] at hsome
    simp at hsome
  · intro part hpart
    cases hindex : source.indexOfId part.1.id with
    | none => exact (hall part hpart).added hindex
    | some i =>
      obtain ⟨before, hbefore, hid⟩ := indexOfId_eq_some hindex
      have hbmem := mem_of_getElem? hbefore
      have hmem : part.1 ∈ target.schema.columns := by
        rw [← hparts]
        exact mem_map_of_mem hpart
      have heq : before = part.1 := target.columnsValid.eq_of_id_eq (hkeep before hbmem) hmem hid
      rw [(hall part hpart).same (heq ▸ hbmem), addedVars, if_neg (by simp [hindex])]

end Sizes

theorem encodedSize_merge_mergeSort (vars : ChunkVars) (changes : List VarChange)
    (h : KeysAscending (changes.mergeSort (fun a b => a.1 ≤ b.1))) :
    ChunkVars.encodedSize (SortedMap.merge vars _ h) + (changes.map (fun c => vars.bytesAt c.1)).sum
      = vars.encodedSize + (changes.map changeBytes).sum := by
  have hperm := mergeSort_perm changes (fun a b => decide (a.1 ≤ b.1))
  have hweight := weight_merge ChunkVars.entryBytes vars _ h
  rw [← (hperm.map changeBytes).sum_eq, ← (hperm.map (fun c => vars.bytesAt c.1)).sum_eq]
  exact hweight

/-- A valid state translates to a valid state of the next version, as long as its
values stay below 4 GiB: they grow by what a new column puts in the present blocks,
and by nothing else. -/
theorem translateChunk_spec (hadjacent : Adjacent source.schema target.schema)
    (hblocks : source.blockCount = target.blockCount) (hcount : target.blockCount ≤ 2 ^ 32)
    (hstate : source.ValidState state) (hfits : NarrowingFits source target state)
    (hsize : state.vars.encodedSize < 2 ^ 32) :
    ∃ next : ChunkState, target.ValidState next ∧ next.presence = state.presence
      ∧ next.vars.encodedSize ≤ state.vars.encodedSize + addedBytes source target state.presence
      ∧ (addedBytes source target state.presence ≠ 0 → next.vars.encodedSize
          = state.vars.encodedSize + addedBytes source target state.presence)
      ∧ translateChunk source target state
          = if next.vars.encodedSize < 2 ^ 32 then .ok next else .error ChunkVars.exceedsFourGiB := by
  have hcolumns : ∀ i column, target.schema.columns[i]? = some column →
      target.schema.columns[0 + i]? = some column := fun i c hc => by simpa using hc
  obtain ⟨payload, changes, hok, parts, hparts, rfl, hall⟩ := translateColumns_spec hadjacent
    hblocks hcount hstate hfits 0 target.schema.columns hcolumns target.columnsValid.idsDistinct
    (List.replicate target.payloadBytes 0)
  have hlen := (payloadInvariant_length target state.presence state.payload).translateColumns _ 0
    hcolumns length_replicate hok
  have hchanges := chunkChanges_of_parts hblocks hstate hparts hall
  set changes := parts.flatMap Prod.snd ++ dropVars target state.vars with hdef
  have hascending := keysAscending_mergeSort hchanges.nodup
  have hperm := mergeSort_perm changes (fun a b => decide (a.1 ≤ b.1))
  set vars : ChunkVars := SortedMap.merge state.vars _ hascending with hvars
  have hweight := encodedSize_merge_mergeSort state.vars changes hascending
  rw [← hvars] at hweight
  refine ⟨⟨payload, state.presence, vars⟩, ⟨hlen, by rw [← hblocks]; exact hstate.presence_padded, ?_⟩,
    rfl, ?_, ?_, ?_⟩
  · rw [requireValidVars_eq_ok]
    rintro ⟨key, bytes⟩ he
    rcases (mem_merge state.vars _ hascending key bytes).mp he with hc | ⟨hnot, hold⟩
    · exact hchanges.valid (key, some bytes) (hperm.mem_iff.mp hc) bytes rfl
    · refine hchanges.kept (key, bytes) hold ?_
      rwa [← (hperm.map Prod.fst).mem_iff]
  · have hle := sum_changeBytes_parts_le hall
    rw [hparts] at hle
    have hdrop := sum_changeBytes_dropVars target state.vars
    rw [hdef] at hweight
    simp only [map_append, sum_append] at hweight
    unfold addedBytes
    dsimp only
    omega
  · intro hadded
    obtain ⟨hdrop, hsame⟩ := changes_of_added hadjacent hstate hparts hall hadded
    have hnew : (changes.map changeBytes).sum = addedBytes source target state.presence := by
      rw [hdef, hdrop, append_nil, addedBytes, ← hparts]
      congr 2
      rw [flatMap_map]
      exact flatMap_congr hsame
    have hold : (changes.map (fun c => state.vars.bytesAt c.1)).sum = 0 := by
      apply sum_eq_zero
      intro n hn
      obtain ⟨c, hc, rfl⟩ := mem_map.mp hn
      rw [hdef, hdrop, append_nil] at hc
      obtain ⟨part, hpart, hc⟩ := mem_flatMap.mp hc
      have hid := (hall part hpart).id_eq c hc
      rw [hsame part hpart, addedVars] at hc
      split at hc
      · rename_i hnone
        have hfind : state.vars.find c.1 = none := by
          rw [find_eq_none_iff]
          intro v hv
          exact hstate.columnId_ne hnone.1 hv hid
        simp [ChunkVars.bytesAt, hfind, put, weight]
      · simp at hc
    dsimp only
    omega
  · rw [translateChunk, if_neg (by simp [hblocks, hstate.payload_length, hstate.presence_padded.1]),
      hok, ok_bind]
    dsimp only
    rw [← hdef, mergeChanges]
    by_cases hnil : changes.mergeSort (fun a b => a.1 ≤ b.1) = []
    · have hsame : vars = state.vars := by
        apply SortedMap.ext
        simp only [hvars, SortedMap.merge, hnil, mergeEntries]
      rw [if_pos hnil, hsame, if_pos hsize]
      rfl
    · rw [if_neg hnil, ChunkVars.merge, dif_pos hascending, ← hvars]
      dsimp only
      split <;> rfl

end ChunkDb
