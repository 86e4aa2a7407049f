/-
# Chunk forms and their projection

A chunk form is the state of a chunk as a feed sends it (`feed_protocol.cpp`).  A reader of
some columns gets a form of those columns only.  `EncodeChunkForm` cuts the section of a
fixed column out of the payload, from where its values begin to where those of the next
column do; `ChunkFeedEntry` takes a captured full form apart and encodes the chosen columns.

That a section is the column's values and validity bits, and nothing more, rests on how the
`ChunkLayout` constructor places the columns: one directly behind the other.
-/
import ChunkDb.Feed.Slots
import ChunkDb.TranslateReturns

namespace ChunkDb

open LittleEndian List

/-! ## The model -/

/-- `bytes_of`. -/
def formBytes (data : Bytes) (offset size : ℕ) : Bytes := (data.drop offset).take size

/-- Where the first column that begins after `values` begins, or the payload ends. -/
def sectionEnd (fixed : List FixedColumn) (payloadBytes values : ℕ) : ℕ :=
  ((fixed.find? fun other => other.values > values).map (·.values)).getD payloadBytes

namespace ChunkLayout

/-- `SectionOf`: where the bytes of a fixed column begin, and how many they are. -/
def sectionOf (layout : ChunkLayout) (fixed : FixedColumn) : ℕ × ℕ :=
  (fixed.values, sectionEnd layout.fixed layout.payloadBytes fixed.values - fixed.values)

/-- The loop of `EncodeChunkForm` over the columns: the bytes it appends, and `var_ids`. -/
def formColumns (layout : ChunkLayout) (payload : Bytes) : List ℕ → Bytes × List UInt32
  | [] => ([], [])
  | index :: columns =>
    let (form, varIds) := layout.formColumns payload columns
    match layout.fixedColumnAt index with
    | some fixed =>
      let (offset, size) := layout.sectionOf fixed
      (formBytes payload offset size ++ form, varIds)
    | none => (form, (layout.schema.columns[index]?.map (·.id)).toList ++ varIds)

/-- `EncodeChunkForm`. -/
def encodeChunkForm (layout : ChunkLayout) (version : ℕ) (state : ChunkState)
    (columns : List ℕ) : Bytes :=
  let form := leBytes 8 version ++ leBytes 8 layout.schema.version ++ state.presence
  if columns.isEmpty then form ++ state.payload ++ state.vars.encode
  else
    let (sections, varIds) := layout.formColumns state.payload columns
    form ++ sections
      ++ (state.vars.entries.filter (varIds.contains ·.1.columnId)).flatMap ChunkVars.encodeEntry

end ChunkLayout

/-- `FeedEntry::Kind`. -/
inductive FeedEntryKind
  | change
  | chunks
  | schema
  | resync
  | progress
  | ended
  deriving DecidableEq, Repr

/-- `FeedChunkForm`; without a form, the chunk was deleted. -/
structure FeedChunkForm where
  chunk : ChunkCoord
  version : ℕ
  form : Option Bytes
  deriving DecidableEq

/-- `FeedEntry`, without the blocks of a change and the columns of a schema. -/
structure FeedEntry where
  kind : FeedEntryKind
  position : FeedPosition
  commitTimeMs : ℕ
  user : Option String
  schemaVersion : ℕ
  chunkFormsComplete : Bool
  chunkForms : List FeedChunkForm
  deriving DecidableEq

/-- The chunk is one of the area. -/
def FeedArea.holds (area : FeedArea) (chunk : ChunkCoord) : Bool :=
  !(chunk.x < area.first.x || chunk.x > area.last.x
    || chunk.y < area.first.y || chunk.y > area.last.y)

/-- The columns of `ids`, by their indexes. -/
def ChunkLayout.selectColumns (layout : ChunkLayout) (ids : List UInt32) :
    Except SlotError (List ℕ) :=
  ids.mapM fun id =>
    match layout.indexOfId id with
    | none => .error (.lost "feed projected column was dropped" "schema_filter")
    | some index => .ok index

/-- What `ChunkFeedEntry` does with one captured form. -/
def projectForm (geometry : Geometry) (layout : ChunkLayout) (selected : List ℕ) (version : ℕ)
    (form : Bytes) : Fallible Bytes := do
  let presenceSize := geometry.presenceBitmapBytes
  let fixedSize := 16 + presenceSize + layout.payloadBytes
  require (fixedSize ≤ form.length) ⟨.logicError, "captured chunk form is truncated"⟩
  let vars ← ChunkVars.decode (form.drop fixedSize) geometry.config.chunkBlockCount
  return layout.encodeChunkForm version
    ⟨formBytes form (16 + presenceSize) layout.payloadBytes, formBytes form 16 presenceSize, vars⟩
    selected

/-- What `ChunkFeedEntry` does with a chunk of the area. -/
def projectChunk (geometry : Geometry) (layout : ChunkLayout) (ids : Option (List UInt32))
    (selected : List ℕ) (chunk : FeedChunkForm) : Except SlotError FeedChunkForm :=
  match ids, chunk.form with
  | some _, some form => do
    let projected ← (projectForm geometry layout selected chunk.version form).mapError .thrown
    return { chunk with form := some projected }
  | _, _ => return chunk

/-- `ChunkFeedEntry`; `none` when no chunk of the entry is in the area. -/
def chunkFeedEntry (entry : FeedEntry) (geometry : Geometry) (area : Option FeedArea)
    (ids : Option (List UInt32)) : Except SlotError (Option FeedEntry) :=
  if entry.kind ≠ .change ∧ entry.kind ≠ .chunks then .ok (some entry)
  else if entry.chunkFormsComplete = false then
    .error (.thrown ⟨.logicError, "chunk feed requires a complete preimage"⟩)
  else do
    let layout ← (geometry.layoutAt entry.schemaVersion).mapError .thrown
    let selected ← layout.selectColumns (ids.getD [])
    let chunkForms ← (entry.chunkForms.filter fun chunk => area.all (·.holds chunk.chunk)).mapM
      (projectChunk geometry layout ids selected)
    if chunkForms.isEmpty then return none
    else return some { entry with
      kind := .chunks
      chunkFormsComplete := true
      chunkForms := chunkForms }

/-! ## Sections -/

/-- Where the arrays of a fixed column end. -/
def FixedColumn.finish (fixed : FixedColumn) (blockCount : ℕ) : ℕ :=
  fixed.values + bytesForBits (blockCount * fixed.width)
    + if fixed.validity.isSome then bytesForBits blockCount else 0

/-- The value bytes of a fixed column and its validity bytes. -/
def FixedColumn.arrays (fixed : FixedColumn) (blockCount : ℕ) (payload : Bytes) : Bytes :=
  formBytes payload fixed.values (bytesForBits (blockCount * fixed.width))
    ++ (fixed.validity.map (formBytes payload · (bytesForBits blockCount))).getD []

/-- What the constructor's loop, entered at `offset`, says of the columns as a whole: they
lie one directly behind the other. -/
structure Adjoining (blockCount offset : ℕ) (fixed : List FixedColumn) (payloadBytes : ℕ) :
    Prop where
  first : (fixed.head?.map (·.values)).getD payloadBytes = offset
  after : ∀ f ∈ fixed, offset ≤ f.values
  ordered : fixed.Pairwise fun f g => f.finish blockCount ≤ g.values
  validity : ∀ f ∈ fixed, ∀ v ∈ f.validity, v = f.values + bytesForBits (blockCount * f.width)
  empty : blockCount = 0 → payloadBytes = offset ∧ ∀ f ∈ fixed, f.values = offset
  ends : ∀ f ∈ fixed, sectionEnd fixed payloadBytes f.values = f.finish blockCount

variable {blockCount payloadBytes : ℕ} {fixed : List FixedColumn} {layout : ChunkLayout}
  {state : ChunkState} {geometry : Geometry}

/-- The section of the column in front ends where the columns behind it begin. -/
theorem Adjoining.sectionEnd_of_lt {offset values : ℕ}
    (h : Adjoining blockCount offset fixed payloadBytes) (hlt : values < offset) :
    sectionEnd fixed payloadBytes values = offset := by
  have hfirst := h.first
  cases fixed with
  | nil => exact hfirst
  | cons next fixed =>
    obtain rfl : next.values = offset := hfirst
    rw [sectionEnd, find?_cons_of_pos (by simpa using hlt)]
    rfl

/-- In a chunk without blocks no column begins after another. -/
theorem Adjoining.sectionEnd_of_empty {offset : ℕ} (h : Adjoining 0 offset fixed payloadBytes) :
    sectionEnd fixed payloadBytes offset = offset := by
  have hnone : fixed.find? (fun other => other.values > offset) = none := by
    rw [find?_eq_none]
    intro f hf
    simp [(h.empty rfl).2 f hf]
  rw [sectionEnd, hnone]
  exact (h.empty rfl).1

theorem sectionEnd_cons {first : FixedColumn} {values : ℕ} (h : first.values ≤ values) :
    sectionEnd (first :: fixed) payloadBytes values = sectionEnd fixed payloadBytes values := by
  rw [sectionEnd, find?_cons_of_neg (by simpa using h)]
  rfl

/-- One column placed in front of those that begin where it ends. -/
theorem Adjoining.cons {first : FixedColumn} (hwidth : first.width ≠ 0)
    (hvalidity : ∀ v ∈ first.validity, v = first.values + bytesForBits (blockCount * first.width))
    (h : Adjoining blockCount (first.finish blockCount) fixed payloadBytes) :
    Adjoining blockCount first.values (first :: fixed) payloadBytes := by
  have hle : first.values ≤ first.finish blockCount := by
    unfold FixedColumn.finish
    omega
  have hsame : blockCount = 0 → first.finish blockCount = first.values := by
    rintro rfl
    simp [FixedColumn.finish, bytesForBits]
  refine ⟨rfl, ?_, .cons h.after h.ordered, ?_, ?_, ?_⟩
  · rintro f (_ | ⟨_, hf⟩)
    · exact le_rfl
    · exact hle.trans (h.after f hf)
  · rintro f (_ | ⟨_, hf⟩)
    · exact hvalidity
    · exact h.validity f hf
  · intro hzero
    rw [← hsame hzero]
    refine ⟨(h.empty hzero).1, ?_⟩
    rintro f (_ | ⟨_, hf⟩)
    · exact (hsame hzero).symm
    · exact (h.empty hzero).2 f hf
  · rintro f (_ | ⟨_, hf⟩)
    · rw [sectionEnd_cons le_rfl]
      rcases Nat.eq_zero_or_pos blockCount with rfl | hpos
      · rw [← hsame rfl]
        exact h.sectionEnd_of_empty
      · -- a column with a width takes at least a byte
        refine h.sectionEnd_of_lt ?_
        have := le_bytesForBits (blockCount * first.width)
        have := Nat.mul_pos hpos (Nat.pos_of_ne_zero hwidth)
        unfold FixedColumn.finish
        omega
    · rw [sectionEnd_cons (hle.trans (h.after f hf))]
      exact h.ends f hf

theorem placeColumns_adjoining {limit : ℕ} (columns : List Column) (index offset : ℕ)
    (h : placeColumns blockCount limit index offset columns = .ok (fixed, payloadBytes)) :
    Adjoining blockCount offset fixed payloadBytes := by
  induction columns generalizing index offset fixed payloadBytes with
  | nil =>
    cases h
    exact ⟨rfl, by simp, .nil, by simp, by simp, by simp⟩
  | cons column columns ih =>
    rw [placeColumns] at h
    split at h
    · exact ih _ _ h
    · rename_i hwidth
      simp only [require_bind] at h
      rw [bind_eq_ok] at h
      obtain ⟨-, ⟨rest, bytes⟩, hrest, h⟩ := h
      cases h
      have hcons : ∀ first : FixedColumn, first.values = offset →
          first.width = fixedWidthBits column.type →
          first.validity = (if column.nullable then
            some (offset + bytesForBits (blockCount * fixedWidthBits column.type)) else none) →
          Adjoining blockCount offset (first :: rest) bytes := by
        rintro first rfl hwidth' hvalidity
        refine Adjoining.cons (hwidth' ▸ hwidth) ?_ ?_
        · intro v hv
          cases hnull : column.nullable <;> simp_all
        · convert ih _ _ hrest using 1
          rw [FixedColumn.finish, hwidth', hvalidity]
          cases column.nullable <;> rfl
      exact hcons _ rfl rfl rfl

/-- The section of a fixed column is its values and its validity bits. -/
theorem ChunkLayout.formBytes_sectionOf (layout : ChunkLayout) {fixed : FixedColumn}
    (h : fixed ∈ layout.fixed) (payload : Bytes) :
    formBytes payload (layout.sectionOf fixed).1 (layout.sectionOf fixed).2
      = fixed.arrays layout.blockCount payload := by
  have hadjoining := placeColumns_adjoining _ _ _ layout.placed
  have hvalidity := hadjoining.validity fixed h
  rw [sectionOf, hadjoining.ends fixed h, FixedColumn.finish, FixedColumn.arrays]
  cases hv : fixed.validity with
  | none => simp
  | some validity =>
    obtain rfl := hvalidity validity hv
    simp only [Option.isSome_some, if_true, Option.map_some, Option.getD_some, formBytes]
    rw [Nat.add_assoc, Nat.add_sub_cancel_left, take_add, drop_drop]

/-! ## The form of some columns -/

/-- The loop appends the arrays of the fixed columns in the requested order, -/
theorem ChunkLayout.formColumns_fst (layout : ChunkLayout) (payload : Bytes) (columns : List ℕ) :
    (layout.formColumns payload columns).1
      = (columns.filterMap layout.fixedColumnAt).flatMap (·.arrays layout.blockCount payload) := by
  induction columns with
  | nil => rfl
  | cons index columns ih =>
    rw [formColumns]
    cases hfixed : layout.fixedColumnAt index with
    | none =>
      rw [filterMap_cons_none hfixed]
      exact ih
    | some fixed =>
      rw [filterMap_cons_some hfixed, flatMap_cons, ← ih,
        ← layout.formBytes_sectionOf (mem_of_find?_eq_some hfixed)]

/-- and keeps the ids of the others. -/
theorem ChunkLayout.mem_formColumns_snd (layout : ChunkLayout) (payload : Bytes)
    (columns : List ℕ) (id : UInt32) :
    id ∈ (layout.formColumns payload columns).2 ↔
      ∃ index ∈ columns, layout.fixedColumnAt index = none
        ∧ ∃ column, layout.schema.columns[index]? = some column ∧ column.id = id := by
  induction columns with
  | nil => simp [formColumns]
  | cons index columns ih =>
    rw [formColumns]
    cases hfixed : layout.fixedColumnAt index with
    | none => simp [ih, hfixed]
    | some fixed => simp [ih, hfixed]

/-- The entry is of one of the columns. -/
def ChunkLayout.entryOf (layout : ChunkLayout) (columns : List ℕ) (entry : VarKey × Bytes) : Bool :=
  columns.any fun index => layout.schema.columns[index]?.any (·.id = entry.1.columnId)

/-- For the entries of a valid state, the ids kept are those of the selected columns. -/
theorem ChunkLayout.ValidState.contains_formColumns (h : layout.ValidState state) (columns : List ℕ)
    {entry : VarKey × Bytes} (hentry : entry ∈ state.vars.entries) :
    (layout.formColumns state.payload columns).2.contains entry.1.columnId
      = layout.entryOf columns entry := by
  obtain ⟨varColumn, hvar⟩ := h.validVar hentry
  rw [Bool.eq_iff_iff, contains_iff_mem, mem_formColumns_snd, entryOf, any_eq_true]
  simp only [Option.any_eq_true, decide_eq_true_eq]
  constructor
  · rintro ⟨index, hindex, -, hcolumn⟩
    exact ⟨index, hindex, hcolumn⟩
  · rintro ⟨index, hindex, column, hcolumn, hid⟩
    refine ⟨index, hindex, ?_, column, hcolumn, hid⟩
    -- a fixed column with the entry's id would be the entry's column, which has no width
    cases hfixed : layout.fixedColumnAt index with
    | none => rfl
    | some fixed =>
      obtain ⟨column', hcolumn', hplaced⟩ := layout.fixedColumnAt_eq_some hfixed
      obtain rfl := Option.some.inj (hcolumn.symm.trans hcolumn')
      obtain rfl := layout.columnsValid.eq_of_id_eq hvar.mem (mem_of_getElem? hcolumn)
        (hvar.id_eq.trans hid.symm)
      exact absurd (hplaced.width_eq.trans hvar.isVar) hplaced.width_ne

theorem ChunkLayout.ValidState.encodeChunkForm_eq (h : layout.ValidState state) (version : ℕ)
    {columns : List ℕ} (hne : columns ≠ []) :
    layout.encodeChunkForm version state columns
      = leBytes 8 version ++ leBytes 8 layout.schema.version ++ state.presence
        ++ (columns.filterMap layout.fixedColumnAt).flatMap
            (·.arrays layout.blockCount state.payload)
        ++ (state.vars.entries.filter (layout.entryOf columns)).flatMap ChunkVars.encodeEntry := by
  rw [encodeChunkForm, if_neg (by simpa using hne)]
  dsimp only
  rw [formColumns_fst, filter_congr fun entry hentry => h.contains_formColumns columns hentry]

/-! ## Projection -/

theorem Geometry.blockCount_of_layoutAt {version : ℕ} (h : geometry.layoutAt version = .ok layout) :
    layout.blockCount = geometry.config.chunkBlockCount := by
  rw [layoutAt] at h
  split at h
  · cases h
    exact geometry.blockCount_eq
  · obtain ⟨schema, -, hmake⟩ := bind_eq_ok.mp h
    exact (ChunkLayout.make_eq_ok hmake).2.1

/-- A state a chunk may have, as the feed captures it. -/
structure ChunkLayout.Canonical (layout : ChunkLayout) (state : ChunkState) : Prop where
  valid : layout.ValidState state
  size_le : state.vars.encodedSize ≤ kVarMaxChunkBytesLimit

/-- A full form projects to the form of the state. -/
theorem ChunkLayout.Canonical.projectForm_eq (h : layout.Canonical state)
    (hcount : layout.blockCount = geometry.config.chunkBlockCount) (selected : List ℕ) (version : ℕ) :
    projectForm geometry layout selected version (layout.encodeChunkForm version state [])
      = .ok (layout.encodeChunkForm version state selected) := by
  have hpresence : geometry.presenceBitmapBytes = state.presence.length := by
    rw [h.valid.presence_padded.1, hcount, Geometry.presenceBitmapBytes]
  have hhead : (leBytes 8 version ++ leBytes 8 layout.schema.version).length = 16 := by simp
  have hform : layout.encodeChunkForm version state []
      = (leBytes 8 version ++ leBytes 8 layout.schema.version)
        ++ (state.presence ++ (state.payload ++ state.vars.encode)) := by
    simp [encodeChunkForm]
  have hvars : ChunkVars.decode state.vars.encode geometry.config.chunkBlockCount
      = .ok state.vars := by
    refine state.vars.decode_encode _ h.size_le fun entry hentry => ?_
    obtain ⟨_, hvar⟩ := h.valid.validVar hentry
    rw [← hcount]
    exact hvar.block_lt
  rw [projectForm, hform, hpresence, ← h.valid.payload_length, ← hhead,
    require_of (by simp only [length_append]; omega), ok_bind, formBytes, formBytes]
  simp only [← drop_drop, drop_left, take_left]
  rw [hvars]
  rfl

theorem mapM_map_eq_ok {A B C : Type} {step : B → Except SlotError C} {f : A → B} {g : A → C}
    (l : List A) (h : ∀ a ∈ l, step (f a) = .ok (g a)) : (l.map f).mapM step = .ok (l.map g) := by
  induction l with
  | nil => rfl
  | cons a l ih =>
    rw [map_cons, mapM_cons, h a mem_cons_self, ih fun b hb => h b (mem_cons_of_mem _ hb)]
    rfl

/-- The ids are those of the selected columns. -/
def ChunkLayout.Selects (layout : ChunkLayout) (ids : List UInt32) (selected : List ℕ) : Prop :=
  List.Forall₂ (fun id index => ∃ column,
    layout.schema.columns[index]? = some column ∧ column.id = id) ids selected

theorem ChunkLayout.Selects.selectColumns_eq {ids : List UInt32} {selected : List ℕ}
    (h : layout.Selects ids selected) : layout.selectColumns ids = .ok selected := by
  induction h with
  | nil => rfl
  | cons hfirst _ ih =>
    obtain ⟨column, hcolumn, rfl⟩ := hfirst
    rw [selectColumns] at ih ⊢
    rw [mapM_cons, indexOfId_of_getElem hcolumn, ih]
    rfl

/-- A chunk as a commit left it, or its deletion. -/
structure CapturedChunk where
  chunk : ChunkCoord
  version : ℕ
  state : Option ChunkState

/-- The form of some columns of a captured chunk. -/
def CapturedChunk.form (layout : ChunkLayout) (columns : List ℕ) (captured : CapturedChunk) :
    FeedChunkForm :=
  ⟨captured.chunk, captured.version,
    captured.state.map (layout.encodeChunkForm captured.version · columns)⟩

theorem projectChunk_form (ids : List UInt32) (selected : List ℕ)
    (hcount : layout.blockCount = geometry.config.chunkBlockCount) {captured : CapturedChunk}
    (h : ∀ state ∈ captured.state, layout.Canonical state) :
    projectChunk geometry layout (some ids) selected (captured.form layout [])
      = .ok (captured.form layout selected) := by
  obtain ⟨chunk, version, _ | state⟩ := captured
  · rfl
  · have hprojected := (h state rfl).projectForm_eq hcount selected version
    simp only [projectChunk, CapturedChunk.form, Option.map_some, hprojected]
    rfl

/-- The form of some columns is the versions, the presence bits, the arrays of the fixed
columns in the requested order and the entries of the others in key order.  `ChunkFeedEntry`
makes of captured full forms the forms of the same columns. -/
theorem chunk_form_projection (layout : ChunkLayout) (columns : List ℕ) (hne : columns ≠ []) :
    (∀ state version, layout.Canonical state →
      layout.encodeChunkForm version state columns
          = leBytes 8 version ++ leBytes 8 layout.schema.version ++ state.presence
            ++ (columns.filterMap layout.fixedColumnAt).flatMap
                (·.arrays layout.blockCount state.payload)
            ++ (state.vars.entries.filter (layout.entryOf columns)).flatMap ChunkVars.encodeEntry
        ∧ KeysAscending (state.vars.entries.filter (layout.entryOf columns)))
    ∧ ∀ (geometry : Geometry) (entry : FeedEntry) (area : Option FeedArea) (ids : List UInt32)
        (captured : List CapturedChunk),
      geometry.layoutAt entry.schemaVersion = .ok layout → layout.Selects ids columns →
      (entry.kind = .change ∨ entry.kind = .chunks) → entry.chunkFormsComplete = true →
      entry.chunkForms = captured.map (·.form layout []) →
      (∀ c ∈ captured, ∀ state ∈ c.state, layout.Canonical state) →
      chunkFeedEntry entry geometry area (some ids)
        = .ok (match (captured.filter fun c => area.all (·.holds c.chunk)) with
          | [] => none
          | kept => some { entry with
              kind := .chunks
              chunkForms := kept.map (·.form layout columns) }) := by
  refine ⟨fun state version h => ⟨h.valid.encodeChunkForm_eq version hne,
    state.vars.ascending.filter _⟩, ?_⟩
  intro geometry entry area ids captured hlayout hselects hkind hcomplete hforms hcanonical
  have hchange : ¬ (entry.kind ≠ .change ∧ entry.kind ≠ .chunks) := by tauto
  rw [chunkFeedEntry, if_neg hchange, if_neg (by simp [hcomplete]), hlayout]
  have hcount := geometry.blockCount_of_layoutAt hlayout
  have hprojected := mapM_map_eq_ok (captured.filter fun c => area.all (·.holds c.chunk))
    fun c hc => projectChunk_form ids columns hcount (hcanonical c (mem_of_mem_filter hc))
  have hkept : (entry.chunkForms.filter fun chunk => area.all (·.holds chunk.chunk))
      = (captured.filter fun c => area.all (·.holds c.chunk)).map (·.form layout []) := by
    rw [hforms, filter_map]
    rfl
  simp only [bind, Except.bind, Except.mapError, Option.getD_some, hselects.selectColumns_eq, hkept,
    hprojected]
  cases captured.filter fun c => area.all (·.holds c.chunk) with
  | nil => rfl
  | cons c kept =>
    rw [map_cons, isEmpty_cons, if_neg (by decide)]
    simp [pure, Except.pure, hcomplete]

/-- A chunk of eight cells, the first of them present and noted. -/
def notedCell : ChunkState := ⟨[7, 0, 0, 0, 0, 0, 0, 0], [1], ⟨[(⟨2, 0⟩, [0x68, 0x69])], by decide⟩⟩

/-- The change that wrote it. -/
def notedEntry : FeedEntry :=
  ⟨.change, ⟨zeroStore, 3⟩, 0, none, 2, true,
    [CapturedChunk.form eightShape.notedLayout [] ⟨⟨0, 0⟩, 3, some notedCell⟩]⟩

theorem canonical_notedCell : eightShape.notedLayout.Canonical notedCell where
  valid := by
    refine ⟨rfl, ⟨rfl, fun i hi => ?_⟩, by decide +kernel⟩
    have hbyte : notedCell.presence.length ≤ i / 8 := (Nat.le_div_iff_mul_le (by decide)).mpr hi
    rw [ByteBits.getBit, getD_eq_default _ _ hbyte]
    simp
  size_le := by decide

/-- A reader of the notes gets the note of the first cell. -/
theorem chunk_form_projection_notedCell :
    eightShape.notedLayout.encodeChunkForm 3 notedCell [1]
        = leBytes 8 3 ++ leBytes 8 2 ++ [1] ++ [] ++ ChunkVars.encodeEntry (⟨2, 0⟩, [0x68, 0x69])
      ∧ chunkFeedEntry notedEntry eightShape.table.geometry none (some [2])
        = .ok (some { notedEntry with
            kind := .chunks
            chunkForms :=
              [⟨⟨0, 0⟩, 3, some (eightShape.notedLayout.encodeChunkForm 3 notedCell [1])⟩] }) := by
  obtain ⟨hform, hproject⟩ := chunk_form_projection eightShape.notedLayout [1] (by decide)
  refine ⟨(hform notedCell 3 canonical_notedCell).1, ?_⟩
  refine hproject _ notedEntry none [2] [⟨⟨0, 0⟩, 3, some notedCell⟩] ?_ ?_ (.inl rfl) rfl rfl ?_
  · rfl
  · exact .cons ⟨noteColumn, rfl, rfl⟩ .nil
  · simp [canonical_notedCell]

end ChunkDb
