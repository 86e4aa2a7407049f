/-
# Chunk layouts

How one schema version lays out the payload of a chunk (`chunk_layout.cpp`): each
fixed-width column is an array of values, followed by an array of validity bits
when the column may be NULL; text and bytes values live apart, in `ChunkVars`.

A `ChunkLayout` can only be built the way its constructor builds it, so the
arrays lie inside the payload (`ChunkLayout.fixed_bounds`).  `TableHistory` holds
the schemas a table goes through; every version of a table has a layout
(`Table.exists_layout`), and the layouts of neighbouring versions come from
adjacent schemas (`Table.IsLayout.adjacent`).
-/
import ChunkDb.SchemaHistory
import ChunkDb.Vars

open ByteBits List

namespace ChunkDb

/-- `ChunkLayout::FixedColumn`: a column by its index, the bits of a value, and where
in the payload its values and its validity bits begin. -/
structure FixedColumn where
  column : ℕ
  width : ℕ
  values : ℕ
  validity : Option ℕ
  deriving DecidableEq, Repr

/-- The loop of the `ChunkLayout` constructor, from column `index` and `offset` on. -/
def placeColumns (blockCount maxPayloadBytes : ℕ) :
    ℕ → ℕ → List Column → Fallible (List FixedColumn × ℕ)
  | _, offset, [] => .ok ([], offset)
  | index, offset, column :: columns =>
    let width := fixedWidthBits column.type
    if width = 0 then placeColumns blockCount maxPayloadBytes (index + 1) offset columns
    else do
      let validity := offset + bytesForBits (blockCount * width)
      let next := if column.nullable then validity + bytesForBits blockCount else validity
      require (next ≤ maxPayloadBytes)
        ⟨.invalidArgument, "chunk payload must be <= " ++ toString maxPayloadBytes ++ " bytes"⟩
      let (fixed, payloadBytes) ← placeColumns blockCount maxPayloadBytes (index + 1) next columns
      return (⟨index, width, offset, if column.nullable then some validity else none⟩ :: fixed,
        payloadBytes)

/-- `ChunkLayout`. -/
structure ChunkLayout where
  schema : TableSchema
  blockCount : ℕ
  payloadBytesLimit : ℕ
  fixed : List FixedColumn
  payloadBytes : ℕ
  valid : validateTableSchema schema = .ok ()
  placed : placeColumns blockCount payloadBytesLimit 0 0 schema.columns = .ok (fixed, payloadBytes)

/-- The `ChunkLayout` constructor. -/
def ChunkLayout.make (schema : TableSchema) (blockCount maxPayloadBytes : ℕ) :
    Fallible ChunkLayout :=
  match hvalid : validateTableSchema schema with
  | .error e => .error e
  | .ok () =>
    match hplaced : placeColumns blockCount maxPayloadBytes 0 0 schema.columns with
    | .error e => .error e
    | .ok (fixed, payloadBytes) =>
      .ok ⟨schema, blockCount, maxPayloadBytes, fixed, payloadBytes, hvalid, hplaced⟩

namespace ChunkLayout

/-- `FixedColumnAt`. -/
def fixedColumnAt (layout : ChunkLayout) (index : ℕ) : Option FixedColumn :=
  layout.fixed.find? (fun fixed => fixed.column = index)

/-- `IndexOfId`. -/
def indexOfId (layout : ChunkLayout) (columnId : UInt32) : Option ℕ :=
  layout.schema.columns.findIdx? (fun column => column.id = columnId)

/-- `VarColumn`: the text or bytes column of this id. -/
def varColumn (layout : ChunkLayout) (columnId : UInt32) : Option Column :=
  layout.schema.columns.find? (fun column => column.id = columnId ∧ fixedWidthBits column.type = 0)

/-- `has_var_columns`. -/
def hasVarColumns (layout : ChunkLayout) : Bool :=
  layout.schema.columns.any (fun column => fixedWidthBits column.type = 0)

/-- What `RequireValidVars` checks of one value. -/
def requireValidVar (layout : ChunkLayout) (presence : Bytes) (entry : VarKey × Bytes) :
    Fallible Unit :=
  let where_ := "column " ++ toString entry.1.columnId.toNat ++ " block "
    ++ toString entry.1.blockIndex.toNat
  match layout.varColumn entry.1.columnId with
  | none => invalidArgument (where_ ++ ": no text or bytes column has this id")
  | some column => do
    require (entry.1.blockIndex.toNat < layout.blockCount
        ∧ getBit presence entry.1.blockIndex.toNat = true)
      ⟨.invalidArgument, where_ ++ ": a value of an absent block"⟩
    require (entry.2.length ≤ column.type.size)
      ⟨.invalidArgument, where_ ++ ": longer than " ++ columnTypeName column.type⟩
    require (¬ (entry.2 = [] ∧ column.nullable = false))
      ⟨.invalidArgument, where_ ++ ": an empty value stored in a column that cannot be NULL"⟩
    require (¬ (column.type.kind = .text ∧ isUtf8 entry.2 = false))
      ⟨.invalidArgument, where_ ++ ": text that is not UTF-8"⟩

/-- `RequireValidVars`. -/
def requireValidVars (layout : ChunkLayout) (vars : ChunkVars) (presence : Bytes) : Fallible Unit :=
  checkAll (layout.requireValidVar presence) vars.entries

end ChunkLayout

/-! ## Bits of a payload -/

/-- The bytes from `offset` on overwritten (`memcpy`). -/
def copyInto (data : Bytes) (offset : ℕ) (bytes : Bytes) : Bytes :=
  data.take offset ++ bytes ++ data.drop (offset + bytes.length)

/-- `ClearBits`. -/
def clearBits (data : Bytes) (bitOffset width : ℕ) : Bytes :=
  if bitOffset % 8 = 0 ∧ width % 8 = 0 then
    copyInto data (bitOffset / 8) (List.replicate (width / 8) 0)
  else (List.range width).foldl (fun data i => putBit data (bitOffset + i) false) data

/-- `ClearTail`: the bits of a byte range from `usedBits` on are zeroed. -/
def clearTail (data : Bytes) (begin_ bytes usedBits : ℕ) : Bytes :=
  (List.range (bytes * 8 - usedBits)).foldl
    (fun data i => putBit data (begin_ * 8 + (usedBits + i)) false) data

/-- `WriteValueBits`. -/
def writeValueBits (payload : Bytes) (bitOffset : ℕ) (value : Bytes) (width : ℕ) : Bytes :=
  if bitOffset % 8 = 0 ∧ width % 8 = 0 then
    copyInto payload (bitOffset / 8) (value.take (width / 8))
  else
    (List.range width).foldl (fun payload i => putBit payload (bitOffset + i) (getBit value i))
      payload

/-- `ReadValueBits` into a buffer of `(width + 7) / 8` bytes. -/
def readValueBits (payload : Bytes) (bitOffset width : ℕ) : Bytes :=
  if bitOffset % 8 = 0 ∧ width % 8 = 0 then (payload.drop (bitOffset / 8)).take (width / 8)
  else
    (List.range width).foldl
      (fun value i => if getBit payload (bitOffset + i) then putBit value i true else value)
      (List.replicate (bytesForBits width) 0)

/-- `MaskPadding`: the bits of an array past its last value are zeroed. -/
def ChunkLayout.maskPadding (layout : ChunkLayout) (payload : Bytes) : Fallible Bytes :=
  if payload.length ≠ layout.payloadBytes then
    invalidArgument "payload size does not match the table's columns"
  else
    .ok (layout.fixed.foldl (fun payload fixed =>
      let valueBits := layout.blockCount * fixed.width
      let payload := clearTail payload fixed.values (bytesForBits valueBits) valueBits
      match fixed.validity with
      | none => payload
      | some validity =>
        clearTail payload validity (bytesForBits layout.blockCount) layout.blockCount) payload)

/-- One round of the loop of `ClearEmptyValues` over groups of eight blocks: a block
keeps its value when it is present and, in a NULL column, has one. -/
def clearEmptyGroup (blockCount : ℕ) (fixed : FixedColumn) (presence data : Bytes) (group : ℕ) :
    Bytes :=
  let present : UInt8 := presence.getD group 0
  let kept : UInt8 :=
    match fixed.validity with
    | none => present
    | some validity => present &&& data.getD (validity + group) 0
  let data :=
    if kept = 0xFF then data
    else
      (List.range (min blockCount (group * 8 + 8) - group * 8)).foldl (fun data i =>
        if kept.toNat.testBit i then data
        else clearBits data (fixed.values * 8 + (group * 8 + i) * fixed.width) fixed.width) data
  match fixed.validity with
  | none => data
  | some validity => data.modify (validity + group) (· &&& present)

/-- `ClearEmptyValues`. -/
def ChunkLayout.clearEmptyValues (layout : ChunkLayout) (presence payload : Bytes) :
    Fallible Bytes :=
  if payload.length ≠ layout.payloadBytes ∨ presence.length ≠ bytesForBits layout.blockCount then
    invalidArgument "chunk state size does not match the table's columns"
  else
    .ok (layout.fixed.foldl (fun payload fixed =>
      (List.range (bytesForBits layout.blockCount)).foldl
        (clearEmptyGroup layout.blockCount fixed presence) payload) payload)

/-- `MaskUnusedPresenceBits`. -/
def maskUnusedPresenceBits (blockCount : ℕ) (presence : Bytes) : Bytes :=
  let trailingBits := presence.length * 8 - blockCount
  if trailingBits = 0 then presence
  else presence.modify (presence.length - 1) (· &&& (0xFF >>> UInt8.ofNat trailingBits))

/-! ## Geometry -/

def kMaxLargeChunkDimensionChunks : ℕ := 1000000
def kMaxChunkDimensionBlocks : ℕ := 4096
def kMaxChunkBlockCount : ℕ := 1048576
def kMaxBlockBits : ℕ := 65535
def kMaxChunkPayloadBytes : ℕ := 64 * 1024 * 1024

/-- `GeometryConfig`. -/
structure GeometryConfig where
  largeChunkWidthChunks : ℕ
  largeChunkHeightChunks : ℕ
  chunkWidthBlocks : ℕ
  chunkHeightBlocks : ℕ
  blockBits : ℕ
  deriving DecidableEq, Repr

/-- `ChunkBlockCount`. -/
def GeometryConfig.chunkBlockCount (config : GeometryConfig) : ℕ :=
  config.chunkWidthBlocks * config.chunkHeightBlocks

/-- `RequireAtMost`. -/
def requireAtMost (value limit : ℕ) (name : String) : Fallible Unit :=
  require (value ≤ limit) ⟨.invalidArgument, name ++ " must be <= " ++ toString limit⟩

/-- The checks of the `Geometry` constructor. -/
def GeometryConfig.check (config : GeometryConfig) (schema : TableSchema) : Fallible Unit := do
  require (¬ (config.largeChunkWidthChunks = 0 ∨ config.largeChunkHeightChunks = 0))
    ⟨.invalidArgument, "large chunk dimensions must be > 0"⟩
  require (¬ (config.chunkWidthBlocks = 0 ∨ config.chunkHeightBlocks = 0))
    ⟨.invalidArgument, "chunk dimensions must be > 0"⟩
  require (config.blockBits ≠ 0) ⟨.invalidArgument, "block_bits must be > 0"⟩
  requireAtMost config.largeChunkWidthChunks kMaxLargeChunkDimensionChunks
    "large_chunk_width_chunks"
  requireAtMost config.largeChunkHeightChunks kMaxLargeChunkDimensionChunks
    "large_chunk_height_chunks"
  requireAtMost config.chunkWidthBlocks kMaxChunkDimensionBlocks "chunk_width_blocks"
  requireAtMost config.chunkHeightBlocks kMaxChunkDimensionBlocks "chunk_height_blocks"
  requireAtMost config.blockBits kMaxBlockBits "block_bits"
  require (config.chunkBlockCount ≤ kMaxChunkBlockCount)
    ⟨.invalidArgument, "chunk_width_blocks * chunk_height_blocks must be <= "
      ++ toString kMaxChunkBlockCount⟩
  require (config.blockBits ≤ kMaxChunkPayloadBytes * 8 / config.chunkBlockCount)
    ⟨.invalidArgument, "chunk payload must be <= " ++ toString kMaxChunkPayloadBytes ++ " bytes"⟩
  require (config.blockBits = fixedBitsPerBlock schema.columns)
    ⟨.invalidArgument, "block_bits " ++ toString config.blockBits ++ " does not match the columns' "
      ++ toString (fixedBitsPerBlock schema.columns) ++ " fixed bits per block"⟩

/-- `Geometry`: the shape of the chunks of a table and the layout of its current schema. -/
structure Geometry where
  config : GeometryConfig
  layout : ChunkLayout
  checked : config.check layout.schema = .ok ()
  blockCount_eq : layout.blockCount = config.chunkBlockCount
  limit_eq : layout.payloadBytesLimit = kMaxChunkPayloadBytes

/-- `LayoutAt`. -/
def Geometry.layoutAt (geometry : Geometry) (version : ℕ) : Fallible ChunkLayout :=
  if version = geometry.layout.schema.version then .ok geometry.layout
  else do
    let schema ← schemaAtVersion geometry.layout.schema version
    ChunkLayout.make schema geometry.config.chunkBlockCount geometry.layout.payloadBytesLimit

/-- `ChunkPresenceBitmapBytes`. -/
def Geometry.presenceBitmapBytes (geometry : Geometry) : ℕ :=
  bytesForBits geometry.config.chunkBlockCount

/-! ## Where the arrays lie -/

/-- What the constructor's loop says of one array it places: its column, and that the
array ends within the payload. -/
structure PlacedColumn (blockCount : ℕ) (column : Column) (payloadBytes : ℕ)
    (fixed : FixedColumn) : Prop where
  width_eq : fixed.width = fixedWidthBits column.type
  width_ne : fixed.width ≠ 0
  values_le : fixed.values + bytesForBits (blockCount * fixed.width) ≤ payloadBytes
  validity_isSome : fixed.validity.isSome = column.nullable
  validity_le : ∀ validity ∈ fixed.validity, validity + bytesForBits blockCount ≤ payloadBytes

theorem PlacedColumn.isFixedWidth_eq {blockCount payloadBytes : ℕ} {column : Column}
    {fixed : FixedColumn} (h : PlacedColumn blockCount column payloadBytes fixed) :
    isFixedWidth column.type.kind = true := by
  by_contra hvar
  refine h.width_ne (h.width_eq.trans ?_)
  rw [fixedWidthBits, if_neg hvar]

theorem placeColumns_spec {blockCount limit : ℕ} (columns : List Column) (index offset : ℕ)
    {fixed : List FixedColumn} {payloadBytes : ℕ}
    (h : placeColumns blockCount limit index offset columns = .ok (fixed, payloadBytes)) :
    offset ≤ payloadBytes ∧ (offset ≤ limit → payloadBytes ≤ limit)
      ∧ (∀ f ∈ fixed, ∃ i column, f.column = index + i ∧ columns[i]? = some column
          ∧ PlacedColumn blockCount column payloadBytes f)
      ∧ (∀ i column, columns[i]? = some column → fixedWidthBits column.type ≠ 0 →
          ∃ f ∈ fixed, f.column = index + i) := by
  induction columns generalizing index offset fixed payloadBytes with
  | nil =>
    cases h
    simp
  | cons column columns ih =>
    rw [placeColumns] at h
    split at h
    · -- text or bytes: nothing is placed
      rename_i hwidth
      obtain ⟨hle, hlimit, hplaced, hfound⟩ := ih _ _ h
      refine ⟨hle, hlimit, ?_, ?_⟩
      · intro f hf
        obtain ⟨i, c, hi, hc, hp⟩ := hplaced f hf
        exact ⟨i + 1, c, by omega, by simpa using hc, hp⟩
      · intro i c hc hne
        cases i with
        | zero =>
          obtain rfl : column = c := by simpa using hc
          exact absurd hwidth hne
        | succ i =>
          obtain ⟨f, hf, hi⟩ := hfound i c (by simpa using hc) hne
          exact ⟨f, hf, by omega⟩
    · rename_i hwidth
      simp only [require_bind] at h
      rw [bind_eq_ok] at h
      obtain ⟨hnext, ⟨rest, bytes⟩, hrest, h⟩ := h
      cases h
      obtain ⟨hle, hlimit, hplaced, hfound⟩ := ih _ _ hrest
      have hafter : offset + bytesForBits (blockCount * fixedWidthBits column.type) ≤ bytes := by
        split at hle <;> omega
      refine ⟨by omega, fun _ => hlimit hnext, ?_, ?_⟩
      · rintro f (_ | ⟨_, hf⟩)
        · refine ⟨0, column, rfl, rfl, rfl, hwidth, hafter, ?_, ?_⟩
          · cases column.nullable <;> rfl
          · intro validity hvalidity
            dsimp only at hvalidity
            split at hvalidity
            · rename_i hnull
              rw [if_pos hnull] at hle
              rwa [← Option.some.inj hvalidity]
            · simp at hvalidity
        · obtain ⟨i, c, hi, hc, hp⟩ := hplaced f hf
          exact ⟨i + 1, c, by omega, by simpa using hc, hp⟩
      · intro i c hc hne
        cases i with
        | zero => exact ⟨_, mem_cons_self, rfl⟩
        | succ i =>
          obtain ⟨f, hf, hi⟩ := hfound i c (by simpa using hc) hne
          exact ⟨f, mem_cons_of_mem _ hf, by omega⟩

namespace ChunkLayout

variable (layout : ChunkLayout)

theorem columnsValid : ColumnsValid layout.schema := (validateTableSchema_eq_ok layout.valid).2.2.1

theorem payloadBytes_le : layout.payloadBytes ≤ layout.payloadBytesLimit :=
  (placeColumns_spec _ _ _ layout.placed).2.1 (Nat.zero_le _)

/-- Every array the layout places is that of a column, and lies in the payload. -/
theorem fixed_bounds {fixed : FixedColumn} (h : fixed ∈ layout.fixed) :
    ∃ column, layout.schema.columns[fixed.column]? = some column
      ∧ PlacedColumn layout.blockCount column layout.payloadBytes fixed := by
  obtain ⟨i, column, hi, hcolumn, hplaced⟩ := (placeColumns_spec _ _ _ layout.placed).2.2.1 fixed h
  exact ⟨column, by rw [hi, Nat.zero_add]; exact hcolumn, hplaced⟩

theorem fixedColumnAt_eq_some {index : ℕ} {fixed : FixedColumn}
    (h : layout.fixedColumnAt index = some fixed) :
    ∃ column, layout.schema.columns[index]? = some column
      ∧ PlacedColumn layout.blockCount column layout.payloadBytes fixed := by
  have hindex : fixed.column = index := by simpa using find?_some h
  rw [← hindex]
  exact layout.fixed_bounds (mem_of_find?_eq_some h)

/-- A column without an array is one of text or bytes. -/
theorem fixedColumnAt_eq_none {index : ℕ} (h : layout.fixedColumnAt index = none) {column : Column}
    (hcolumn : layout.schema.columns[index]? = some column) : fixedWidthBits column.type = 0 := by
  by_contra hne
  obtain ⟨f, hf, hi⟩ := (placeColumns_spec _ _ _ layout.placed).2.2.2 index column hcolumn hne
  rw [fixedColumnAt, find?_eq_none] at h
  exact h f hf (by simp [hi])

end ChunkLayout

/-! ## Sizes -/

theorem length_copyInto (data : Bytes) (offset : ℕ) (bytes : Bytes)
    (h : offset + bytes.length ≤ data.length) : (copyInto data offset bytes).length = data.length := by
  simp only [copyInto, length_append, length_take, length_drop]
  omega

/-- A loop whose rounds keep the size keeps it. -/
theorem length_foldl_eq {A : Type} {size : ℕ} (f : Bytes → A → Bytes) (l : List A) (data : Bytes)
    (hdata : data.length = size)
    (h : ∀ data : Bytes, data.length = size → ∀ a ∈ l, (f data a).length = size) :
    (l.foldl f data).length = size :=
  List.foldlRecOn (motive := fun data => data.length = size) l f hdata h

theorem length_clearBits (data : Bytes) (bitOffset width : ℕ)
    (h : bitOffset + width ≤ 8 * data.length) : (clearBits data bitOffset width).length = data.length := by
  unfold clearBits
  split
  · exact length_copyInto _ _ _ (by rw [length_replicate]; omega)
  · exact length_foldl_eq _ _ _ rfl (fun d hd _ _ => (length_putBit d _ _).trans hd)

theorem length_writeValueBits (payload : Bytes) (bitOffset : ℕ) (value : Bytes) (width : ℕ)
    (h : bitOffset + width ≤ 8 * payload.length) :
    (writeValueBits payload bitOffset value width).length = payload.length := by
  unfold writeValueBits
  split
  · apply length_copyInto
    rw [length_take]
    omega
  · exact length_foldl_eq _ _ _ rfl (fun d hd _ _ => (length_putBit d _ _).trans hd)

/-- A value read from the payload has no bits past its width. -/
theorem paddedTo_readValueBits (payload : Bytes) (bitOffset width : ℕ)
    (h : bitOffset + width ≤ 8 * payload.length) :
    PaddedTo width (readValueBits payload bitOffset width) := by
  unfold readValueBits bytesForBits
  split
  · rename_i haligned
    have hlen : ((payload.drop (bitOffset / 8)).take (width / 8)).length = width / 8 := by
      rw [length_take, length_drop]
      omega
    refine ⟨by rw [hlen]; unfold bytesForBits; omega, ?_⟩
    intro i hi
    rw [getBit, getD_eq_default _ _ (by omega)]
    simp
  · -- bit by bit: no round touches a bit from the width on
    have hkeep : ∀ (n : ℕ) (value : Bytes) (j : ℕ), n ≤ j →
        getBit ((List.range n).foldl (fun value i =>
          if getBit payload (bitOffset + i) then putBit value i true else value) value) j
          = getBit value j := by
      intro n
      induction n with
      | zero => intros; rfl
      | succ n ih =>
        intro value j hj
        rw [range_succ, foldl_append, foldl_cons, foldl_nil]
        split
        · rw [getBit_putBit_ne _ _ _ _ (by omega), ih value j (by omega)]
        · exact ih value j (by omega)
    refine ⟨?_, ?_⟩
    · apply length_foldl_eq _ _ _ (length_replicate ..)
      intro d hd i _
      split
      · exact (length_putBit d _ _).trans hd
      · exact hd
    · intro i hi
      rw [hkeep width _ i hi, getBit]
      by_cases hin : i / 8 < (width + 7) / 8
      · rw [getD_eq_getElem _ _ (by simpa using hin), getElem_replicate]
        simp
      · rw [getD_eq_default _ _ (by simpa using hin)]
        simp

/-- The bits of one value lie in the array of its column. -/
theorem value_bits_le {values blockCount width size block : ℕ}
    (h : values + bytesForBits (blockCount * width) ≤ size) (hblock : block < blockCount) :
    values * 8 + block * width + width ≤ 8 * size := by
  have hbits := le_bytesForBits (blockCount * width)
  have hmul : (block + 1) * width ≤ blockCount * width := Nat.mul_le_mul_right _ hblock
  rw [Nat.add_mul, Nat.one_mul] at hmul
  omega

theorem length_clearEmptyGroup (blockCount : ℕ) (fixed : FixedColumn) (presence data : Bytes)
    (group : ℕ) (h : fixed.values + bytesForBits (blockCount * fixed.width) ≤ data.length) :
    (clearEmptyGroup blockCount fixed presence data group).length = data.length := by
  have hloop : ∀ kept : UInt8, ((List.range (min blockCount (group * 8 + 8) - group * 8)).foldl
      (fun data i => if kept.toNat.testBit i then data
        else clearBits data (fixed.values * 8 + (group * 8 + i) * fixed.width) fixed.width)
      data).length = data.length := by
    intro kept
    apply length_foldl_eq _ _ _ rfl
    intro d hd i hi
    rw [mem_range] at hi
    split
    · exact hd
    · rw [length_clearBits, hd]
      rw [hd]
      exact value_bits_le h (by omega)
  unfold clearEmptyGroup
  dsimp only
  cases fixed.validity with
  | none =>
    dsimp only
    split
    · rfl
    · exact hloop _
  | some validity =>
    dsimp only
    rw [length_modify]
    split
    · rfl
    · exact hloop _

namespace ChunkLayout

theorem length_clearEmptyValues {layout : ChunkLayout} {presence payload cleared : Bytes}
    (h : layout.clearEmptyValues presence payload = .ok cleared) :
    cleared.length = layout.payloadBytes := by
  unfold clearEmptyValues at h
  split at h
  · simp [invalidArgument] at h
  · rename_i hlen
    rw [not_or, not_ne_iff] at hlen
    rw [← Except.ok.inj h]
    apply length_foldl_eq _ _ _ hlen.1
    intro d hd fixed hfixed
    obtain ⟨column, _, hplaced⟩ := layout.fixed_bounds hfixed
    apply length_foldl_eq _ _ _ hd
    intro d hd group _
    rw [length_clearEmptyGroup _ _ _ _ _ (by rw [hd]; exact hplaced.values_le), hd]

end ChunkLayout

/-- Masking a bitmap of the chunk's size clears the bits of no block. -/
theorem getBit_maskUnusedPresenceBits (blockCount : ℕ) (presence : Bytes)
    (hlen : presence.length = bytesForBits blockCount) (i : ℕ) :
    getBit (maskUnusedPresenceBits blockCount presence) i
      = (getBit presence i && decide (i < blockCount)) := by
  have hout : presence.length ≤ i / 8 → getBit presence i = false := by
    intro hle
    rw [getBit, getD_eq_default _ _ hle]
    simp
  unfold bytesForBits at hlen
  unfold maskUnusedPresenceBits
  dsimp only
  split
  · by_cases hi : i < blockCount
    · simp [hi]
    · rw [hout (by omega)]
      rfl
  · rename_i htrailing
    by_cases hlast : presence.length - 1 = i / 8
    · -- the last byte keeps its low bits
      have hmask : (0xFF >>> UInt8.ofNat (presence.length * 8 - blockCount) : UInt8).toNat.testBit (i % 8)
          = decide (i < blockCount) := by
        have hsmall : presence.length * 8 - blockCount < 8 := by omega
        rw [UInt8.toNat_shiftRight, UInt8.toNat_ofNat', Nat.mod_eq_of_lt (by omega : _ < 2 ^ 8),
          Nat.mod_eq_of_lt hsmall, Nat.testBit_shiftRight,
          show (255 : UInt8).toNat = 2 ^ 8 - 1 from rfl, Nat.testBit_two_pow_sub_one]
        apply decide_eq_decide.mpr
        omega
      have hin : i / 8 < presence.length := by omega
      rw [getBit, getBit, getD_eq_getElem?_getD, getElem?_modify, hlast,
        getElem?_eq_getElem hin, getD_eq_getElem _ _ hin]
      simp only [if_true, Option.map_some, Option.map_eq_map, Option.getD_some, UInt8.toNat_and,
        Nat.testBit_and, hmask]
    · have hkeep : getBit (presence.modify (presence.length - 1)
          (· &&& (0xFF >>> UInt8.ofNat (presence.length * 8 - blockCount)))) i = getBit presence i := by
        rw [getBit, getBit, getD_eq_getElem?_getD, getElem?_modify, getD_eq_getElem?_getD]
        simp [hlast]
      rw [hkeep]
      by_cases hi : i < blockCount
      · simp [hi]
      · rw [hout (by omega)]
        rfl

@[simp] theorem length_maskUnusedPresenceBits (blockCount : ℕ) (presence : Bytes) :
    (maskUnusedPresenceBits blockCount presence).length = presence.length := by
  unfold maskUnusedPresenceBits
  dsimp only
  split
  · rfl
  · exact length_modify ..

theorem paddedTo_maskUnusedPresenceBits (blockCount : ℕ) (presence : Bytes)
    (hlen : presence.length = bytesForBits blockCount) :
    PaddedTo blockCount (maskUnusedPresenceBits blockCount presence) := by
  refine ⟨by rw [length_maskUnusedPresenceBits, hlen], ?_⟩
  intro i hi
  rw [getBit_maskUnusedPresenceBits _ _ hlen]
  simp [hi]

/-- A bitmap without bits past its blocks is not changed by masking. -/
theorem PaddedTo.mask_eq {blockCount : ℕ} {presence : Bytes} (h : PaddedTo blockCount presence) :
    maskUnusedPresenceBits blockCount presence = presence := by
  apply ext_getBit
  · exact length_maskUnusedPresenceBits _ _
  · intro i _
    rw [getBit_maskUnusedPresenceBits _ _ h.1]
    by_cases hi : i < blockCount
    · simp [hi]
    · rw [h.2 i (by omega)]
      rfl

/-! ## The versions of a table -/

/-- The geometry of a table, with the block size its columns take, accepts a schema. -/
def GeometryConfig.Accepts (config : GeometryConfig) (schema : TableSchema) : Prop :=
  { config with blockBits := fixedBitsPerBlock schema.columns }.check schema = .ok ()
    ∧ ∃ layout, ChunkLayout.make schema config.chunkBlockCount kMaxChunkPayloadBytes = .ok layout

/-- The schemas a table of this geometry goes through: one of version 1 as the table
is created, and then what ALTER TABLE makes of it. -/
inductive TableHistory (config : GeometryConfig) : TableSchema → Prop
  | created (schema : TableSchema) (hversion : schema.version = 1) (hhistory : schema.history = [])
      (hpending : schema.pending = none) (haccepts : config.Accepts schema) : TableHistory config schema
  | altered (schema next : TableSchema) (h : TableHistory config schema) (step : AlterStep schema next)
      (haccepts : config.Accepts next) : TableHistory config next

namespace ChunkLayout

theorem make_eq_ok {schema : TableSchema} {blockCount limit : ℕ} {layout : ChunkLayout}
    (h : make schema blockCount limit = .ok layout) :
    layout.schema = schema ∧ layout.blockCount = blockCount ∧ layout.payloadBytesLimit = limit := by
  unfold make at h
  split at h
  · simp at h
  · split at h
    · simp at h
    · cases h
      exact ⟨rfl, rfl, rfl⟩

/-- A layout is what its schema and sizes make. -/
theorem make_self (layout : ChunkLayout) :
    make layout.schema layout.blockCount layout.payloadBytesLimit = .ok layout := by
  obtain ⟨schema, blockCount, limit, fixed, payloadBytes, hvalid, hplaced⟩ := layout
  unfold make
  split
  · rename_i e herror
    rw [hvalid] at herror
    simp at herror
  · split
    · rename_i e herror
      rw [hplaced] at herror
      simp at herror
    · rename_i fixed' bytes' hok
      rw [hplaced] at hok
      cases hok
      rfl

end ChunkLayout

namespace TableHistory

variable {config : GeometryConfig} {schema : TableSchema}

theorem accepts (h : TableHistory config schema) : config.Accepts schema := by
  cases h with
  | created _ _ _ haccepts => assumption
  | altered _ _ _ haccepts => assumption

theorem valid (h : TableHistory config schema) : validateTableSchema schema = .ok () := by
  obtain ⟨_, layout, hlayout⟩ := h.accepts
  rw [← (ChunkLayout.make_eq_ok hlayout).1]
  exact layout.valid

theorem version_pos (h : TableHistory config schema) : 0 < schema.version := by
  have := (validateTableSchema_eq_ok h.valid).1
  omega

end TableHistory

namespace TableHistory

variable {config : GeometryConfig} {schema : TableSchema}

theorem withoutPending (h : TableHistory config schema) :
    TableHistory config (withoutPendingNarrowing schema) := by
  obtain ⟨hcheck, layout, hlayout⟩ := h.accepts
  obtain ⟨rfl, hblocks, hlimit⟩ := ChunkLayout.make_eq_ok hlayout
  refine altered _ _ h (.withoutPendingNarrowing rfl) ⟨hcheck, ?_⟩
  rw [← hblocks, ← hlimit]
  exact ⟨_, ChunkLayout.make_self ⟨withoutPendingNarrowing layout.schema, layout.blockCount,
    layout.payloadBytesLimit, layout.fixed, layout.payloadBytes,
    validateTableSchema_withoutPending layout.valid, layout.placed⟩⟩

/-- A schema is of version 1, or the version right after another the table had. -/
theorem version_cases (h : TableHistory config schema) :
    schema.version = 1 ∨ ∃ before, TableHistory config before ∧ Adjacent before schema := by
  induction h with
  | created schema hversion _ _ _ => exact .inl hversion
  | altered schema next h step _ ih =>
    rcases alterStep_cases h.valid step with heq | hadjacent
    · rcases ih with hversion | ⟨before, hbefore, hadjacent⟩
      · exact .inl (by rw [heq]; exact hversion)
      · exact .inr ⟨before, hbefore, by rw [heq]; exact hadjacent.with_pending _⟩
    · exact .inr ⟨_, h.withoutPending, hadjacent⟩

/-- Every version of the table has a schema. -/
theorem exists_schemaAtVersion (h : TableHistory config schema) {version : ℕ} (hpos : 0 < version)
    (hle : version ≤ schema.version) :
    ∃ earlier, schemaAtVersion schema version = .ok earlier ∧ earlier.version = version
      ∧ TableHistory config earlier := by
  induction hn : schema.version using Nat.strong_induction_on generalizing schema with
  | _ n ih =>
    by_cases heq : version = schema.version
    · exact ⟨schema, by rw [heq, schemaAtVersion_self _ h.version_pos.ne'], heq.symm, h⟩
    · rcases h.version_cases with hone | ⟨before, hbefore, hadjacent⟩
      · omega
      · have hversion := hadjacent.version
        rw [hadjacent.schemaAtVersion_eq hpos (by omega)]
        exact ih before.version (by omega) hbefore (by omega) rfl

/-- The schemas of neighbouring versions are adjacent. -/
theorem adjacent_schemaAtVersion (h : TableHistory config schema) {version : ℕ} (hpos : 0 < version)
    (hlt : version < schema.version) {earlier later : TableSchema}
    (hearlier : schemaAtVersion schema version = .ok earlier)
    (hlater : schemaAtVersion schema (version + 1) = .ok later) : Adjacent earlier later := by
  induction hn : schema.version using Nat.strong_induction_on generalizing schema with
  | _ n ih =>
    rcases h.version_cases with hone | ⟨before, hbefore, hadjacent⟩
    · omega
    · have hversion := hadjacent.version
      rw [hadjacent.schemaAtVersion_eq hpos (by omega)] at hearlier
      by_cases heq : version + 1 = schema.version
      · have hbv : version = before.version := by omega
        rw [hbv, schemaAtVersion_self _ hbefore.version_pos.ne'] at hearlier
        rw [heq, schemaAtVersion_self _ h.version_pos.ne'] at hlater
        cases hearlier
        cases hlater
        exact hadjacent
      · rw [hadjacent.schemaAtVersion_eq (by omega) (by omega)] at hlater
        exact ih before.version (by omega) hbefore (by omega) hearlier hlater rfl

end TableHistory

/-- A table: its geometry, whose schema came about by accepted changes. -/
structure Table where
  geometry : Geometry
  history : TableHistory geometry.config geometry.layout.schema

namespace Table

variable (table : Table)

/-- The current schema version. -/
def version : ℕ := table.geometry.layout.schema.version

/-- The blocks of a chunk. -/
def blockCount : ℕ := table.geometry.config.chunkBlockCount

/-- What a layout of one of the table's versions is. -/
structure IsLayout (version : ℕ) (layout : ChunkLayout) : Prop where
  layoutAt_eq : table.geometry.layoutAt version = .ok layout
  schema_eq : schemaAtVersion table.geometry.layout.schema version = .ok layout.schema
  version_eq : layout.schema.version = version
  blockCount_eq : layout.blockCount = table.blockCount
  payloadBytes_le : layout.payloadBytes ≤ kMaxChunkPayloadBytes

/-- Every version has a layout. -/
theorem exists_layout {version : ℕ} (hpos : 0 < version) (hle : version ≤ table.version) :
    ∃ layout, table.IsLayout version layout := by
  have hlimit := table.geometry.limit_eq
  by_cases heq : version = table.geometry.layout.schema.version
  · refine ⟨table.geometry.layout, by rw [Geometry.layoutAt, if_pos heq], ?_, heq.symm,
      table.geometry.blockCount_eq, ?_⟩
    · rw [heq, schemaAtVersion_self _ (by omega)]
    · rw [← hlimit]
      exact table.geometry.layout.payloadBytes_le
  · obtain ⟨earlier, hschema, hversion, hhistory⟩ :=
      table.history.exists_schemaAtVersion hpos hle
    obtain ⟨_, layout, hmake⟩ := hhistory.accepts
    obtain ⟨hearlier, hblocks, hmax⟩ := ChunkLayout.make_eq_ok hmake
    refine ⟨layout, ?_, by rw [hearlier]; exact hschema, by rw [hearlier]; exact hversion, hblocks, ?_⟩
    · rw [Geometry.layoutAt, if_neg heq, hschema, hlimit]
      exact hmake
    · rw [← hmax]
      exact layout.payloadBytes_le

theorem IsLayout.eq {table : Table} {version : ℕ} {a b : ChunkLayout}
    (ha : table.IsLayout version a) (hb : table.IsLayout version b) : a = b :=
  Except.ok.inj (ha.layoutAt_eq.symm.trans hb.layoutAt_eq)

/-- The layouts of neighbouring versions are those of adjacent schemas. -/
theorem IsLayout.adjacent {table : Table} {version : ℕ} {earlier later : ChunkLayout}
    (hpos : 0 < version) (hlt : version < table.version) (hearlier : table.IsLayout version earlier)
    (hlater : table.IsLayout (version + 1) later) : Adjacent earlier.schema later.schema :=
  table.history.adjacent_schemaAtVersion hpos hlt hearlier.schema_eq hlater.schema_eq

end Table

/-! ## A table with two versions -/

/-- `CREATE TABLE cells (level u8)`. -/
def cellsSchema : TableSchema where
  version := 1
  nextColumnId := 2
  columns := [⟨1, "level", ⟨.unsigned, 8⟩, false, false, false, []⟩]
  history := []
  pending := none

/-- The column `note text(64)` with a default of 60 bytes. -/
def noteColumn : Column where
  id := 2
  name := "note"
  type := ⟨.text, 64⟩
  nullable := false
  required := false
  hasDefault := true
  defaultValue := List.replicate 60 0x2E

/-- The columns after `ALTER TABLE cells ADD COLUMN note ...`. -/
def notedSchema : TableSchema where
  version := 2
  nextColumnId := 3
  columns := cellsSchema.columns ++ [noteColumn]
  history := [⟨2, [.addColumn 1 noteColumn]⟩]
  pending := none

theorem addColumn_cellsSchema : addColumn cellsSchema noteColumn false = .ok notedSchema := by
  decide +kernel

/-- A size of chunks the table may have. -/
structure CellsShape where
  width : ℕ
  height : ℕ
  width_pos : 0 < width := by decide
  height_pos : 0 < height := by decide
  width_le : width ≤ kMaxChunkDimensionBlocks := by decide
  height_le : height ≤ kMaxChunkDimensionBlocks := by decide
  count_le : width * height ≤ kMaxChunkBlockCount := by decide

namespace CellsShape

variable (shape : CellsShape)

/-- The cells of a chunk. -/
def count : ℕ := shape.width * shape.height

/-- One chunk to a large chunk; a cell takes the bits of its level. -/
def config : GeometryConfig := ⟨1, 1, shape.width, shape.height, 8⟩

theorem bytesForBits_count : bytesForBits (shape.count * 8) = shape.count := by
  unfold bytesForBits
  omega

theorem count_le_payload : shape.count ≤ kMaxChunkPayloadBytes := shape.count_le.trans (by decide)

theorem check_config {schema : TableSchema} (h : fixedBitsPerBlock schema.columns = 8) :
    shape.config.check schema = .ok () := by
  have hwidth := shape.width_pos
  have hheight := shape.height_pos
  have hpos : 0 < shape.count := Nat.mul_pos hwidth hheight
  have hroom : 8 ≤ kMaxChunkPayloadBytes * 8 / shape.count := by
    rw [Nat.le_div_iff_mul_le hpos]
    exact (Nat.mul_le_mul_left 8 shape.count_le).trans (by decide)
  unfold GeometryConfig.check requireAtMost config
  simp only [check_bind_eq_ok, require_eq_ok]
  exact ⟨by decide, by omega, by decide, by decide, by decide, shape.width_le, shape.height_le,
    by decide, shape.count_le, hroom, h.symm⟩

/-- The layout of version 1: the levels. -/
def cellsLayout : ChunkLayout where
  schema := cellsSchema
  blockCount := shape.count
  payloadBytesLimit := kMaxChunkPayloadBytes
  fixed := [⟨0, 8, 0, none⟩]
  payloadBytes := shape.count
  valid := by decide +kernel
  placed := by
    simp [placeColumns, cellsSchema, fixedWidthBits, isFixedWidth, shape.bytesForBits_count,
      require, shape.count_le_payload]

/-- The layout of version 2: the notes take no fixed space. -/
def notedLayout : ChunkLayout where
  schema := notedSchema
  blockCount := shape.count
  payloadBytesLimit := kMaxChunkPayloadBytes
  fixed := [⟨0, 8, 0, none⟩]
  payloadBytes := shape.count
  valid := by decide +kernel
  placed := by
    simp [placeColumns, notedSchema, cellsSchema, noteColumn, fixedWidthBits, isFixedWidth,
      shape.bytesForBits_count, require, shape.count_le_payload]

/-- The table with both versions. -/
def table : Table where
  geometry := {
    config := shape.config
    layout := shape.notedLayout
    checked := shape.check_config rfl
    blockCount_eq := rfl
    limit_eq := rfl }
  history := by
    have haccepts : ∀ layout : ChunkLayout, layout.blockCount = shape.config.chunkBlockCount →
        layout.payloadBytesLimit = kMaxChunkPayloadBytes →
        fixedBitsPerBlock layout.schema.columns = 8 → shape.config.Accepts layout.schema := by
      intro layout hcount hlimit hbits
      have hmake := layout.make_self
      rw [hcount, hlimit] at hmake
      refine ⟨?_, layout, hmake⟩
      rw [hbits]
      exact shape.check_config hbits
    exact .altered cellsSchema notedSchema
      (.created _ rfl rfl rfl (haccepts shape.cellsLayout rfl rfl rfl))
      (.addColumn noteColumn false addColumn_cellsSchema)
      (haccepts shape.notedLayout rfl rfl rfl)

theorem isLayout_one : shape.table.IsLayout 1 shape.cellsLayout where
  layoutAt_eq := by
    have hschema : schemaAtVersion notedSchema 1 = .ok cellsSchema := by decide +kernel
    have hne : ¬ 1 = shape.table.geometry.layout.schema.version := by
      change ¬ 1 = 2
      decide
    rw [Geometry.layoutAt, if_neg hne]
    change (schemaAtVersion notedSchema 1 >>= _) = _
    rw [hschema]
    exact shape.cellsLayout.make_self
  schema_eq := by
    change schemaAtVersion notedSchema 1 = .ok cellsSchema
    decide +kernel
  version_eq := rfl
  blockCount_eq := rfl
  payloadBytes_le := shape.count_le_payload

theorem isLayout_two : shape.table.IsLayout 2 shape.notedLayout where
  layoutAt_eq := rfl
  schema_eq := by
    change schemaAtVersion notedSchema 2 = .ok notedSchema
    decide +kernel
  version_eq := rfl
  blockCount_eq := rfl
  payloadBytes_le := shape.count_le_payload

end CellsShape

/-- Chunks of 2 × 2 cells. -/
def smallShape : CellsShape where
  width := 2
  height := 2

/-- Chunks of 4 × 2 cells. -/
def eightShape : CellsShape where
  width := 4
  height := 2

/-- Chunks of 1024 × 1024 cells. -/
def largeShape : CellsShape where
  width := 1024
  height := 1024

end ChunkDb
