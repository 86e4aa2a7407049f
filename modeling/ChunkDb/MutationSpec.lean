/-
# Every write describes its change

One statement for every write path: the records a write puts in its frame describe the
change it made, and the state it leaves is valid.
-/
import ChunkDb.Describes

open ByteBits SortedMap List

namespace ChunkDb

/-! ## Whole-chunk writes -/

/-- Values that passed `RequireVarWrite` are within the limit of a chunk, or did not grow. -/
theorem Writer.size_le_max_of_requireVarWrite {writer : Writer} {before after : ChunkVars}
    {update : VarUpdate} (hwrite : writer.requireVarWrite before update = .ok ())
    (hafter : updateVars before update = .ok after) :
    after.encodedSize ≤ max kVarMaxChunkBytesLimit before.encodedSize := by
  have hlimit := writer.limit_le
  unfold requireVarWrite updateVars at *
  cases hempty : update.isEmpty
  · rw [hempty, if_neg (by simp)] at hafter hwrite
    rw [require_eq_ok, varsSizeAfter_eq hafter] at hwrite
    omega
  · rw [hempty, if_pos rfl] at hafter
    rw [← Except.ok.inj hafter]
    exact le_max_right _ _

/-- The records are spans of the array after a write that cover what it changed. -/
def LogsChange (base : ℕ) (before after : Bytes) (records : List WalRecord) : Prop :=
  ∃ ranges, Covers before after ranges
    ∧ records = (spansOf after base ranges).map fun span => WalRecord.span span.1 span.2

theorem logsChange_wholeSpan (base : ℕ) {before after : Bytes}
    (hlen : before.length = after.length) :
    LogsChange base before after [wholeSpan base after] :=
  ⟨_, Covers.whole hlen, by simp [wholeSpan, spansOf]⟩

/-- Some ranges and some update describe the write. -/
def Mutated.Described (layout : ChunkLayout) (before : ChunkState) (m : Mutated) : Prop :=
  ∃ payloadRanges presenceRanges update,
    m.Describes layout before payloadRanges presenceRanges update

variable {layout : ChunkLayout}

/-- The records of the two arrays and of the update describe a write. -/
theorem Mutated.described_of {before after : ChunkState} {update : VarUpdate}
    {payloadRecords presenceRecords : List WalRecord}
    (hpayload : LogsChange 0 before.payload after.payload payloadRecords)
    (hpresence : LogsChange layout.payloadBytes before.presence after.presence presenceRecords)
    (hgives : update.Gives before.vars after.vars) (hvalid : layout.ValidState after)
    (hsize : after.vars.encodedSize ≤ kVarMaxChunkBytesLimit) :
    Mutated.Described layout before
      ⟨after, payloadRecords ++ presenceRecords ++ varUpdateRecords after.vars update⟩ := by
  obtain ⟨payloadRanges, hpayload, rfl⟩ := hpayload
  obtain ⟨presenceRanges, hpresence, rfl⟩ := hpresence
  refine ⟨payloadRanges, presenceRanges, update, ?_, hpayload, hpresence, hgives, hvalid, hsize⟩
  dsimp only
  rw [hgives.varUpdateRecords_eq, map_append]

/-- The arrays a whole-chunk write is given are those of a valid state. -/
structure Writer.Canonical (writer : Writer) (payload presence : Bytes) : Prop where
  payload_length : payload.length = writer.layout.payloadBytes
  presence_padded : PaddedTo writer.layout.blockCount presence

theorem Writer.canonicalState_eq_ok {writer : Writer} {payload presence : Bytes}
    {result : Bytes × Bytes} (h : writer.canonicalState payload presence = .ok result) :
    writer.Canonical result.1 result.2 := by
  unfold canonicalState at h
  simp only [require_bind] at h
  obtain ⟨_, hpresence, h⟩ := h
  simp only [bind_eq_ok] at h
  obtain ⟨masked, _, cleared, hcleared, h⟩ := h
  cases h
  exact ⟨ChunkLayout.length_clearEmptyValues hcleared,
    paddedTo_maskUnusedPresenceBits _ _ hpresence⟩

section WholeChunk

variable {writer : Writer} {payload presence : Bytes} {update : VarUpdate} {state : ChunkState}
  {m : Mutated}

section

variable (hstate : writer.layout.ValidState state) (hcanonical : writer.Canonical payload presence)
  (hreplace : ∀ vars ∈ update.replace, state.vars ≠ vars)
  (hvars : ∀ vars, updateVars state.vars update = .ok vars →
    writer.layout.requireValidVars vars presence = .ok ()
      ∧ vars.encodedSize ≤ kVarMaxChunkBytesLimit)

include hstate hcanonical hreplace hvars

theorem Writer.applyChunkState_described
    (h : writer.applyChunkState payload presence update state = .ok (some m)) :
    m.Described writer.layout state := by
  unfold applyChunkState at h
  split at h
  · simp at h
  · obtain ⟨vars, hok, h⟩ := bind_eq_ok.mp h
    cases h
    obtain ⟨hvalid, hsize⟩ := hvars vars hok
    have hspan : ∀ (base : ℕ) (before after : Bytes), before.length = after.length →
        LogsChange base before after (if after = before then [] else [wholeSpan base after]) := by
      intro base before after hlen
      by_cases heq : after = before
      · exact ⟨[], by rw [heq]; exact Covers.refl before, by rw [if_pos heq]; rfl⟩
      · rw [if_neg heq]
        exact logsChange_wholeSpan base hlen
    exact Mutated.described_of
      (hspan _ _ _ (hstate.payload_length.trans hcanonical.payload_length.symm))
      (hspan _ _ _ (hstate.presence_padded.1.trans hcanonical.presence_padded.1.symm))
      (updateVars_gives hok hreplace)
      ⟨hcanonical.payload_length, hcanonical.presence_padded, hvalid⟩ hsize

theorem Writer.applyFullChunkState_described
    (h : writer.applyFullChunkState payload presence update state = .ok (some m)) :
    m.Described writer.layout state := by
  unfold applyFullChunkState at h
  split at h
  · simp at h
  · rw [check_bind_eq_ok, bind_eq_ok] at h
    obtain ⟨_, vars, hok, h⟩ := h
    cases h
    obtain ⟨hvalid, hsize⟩ := hvars vars hok
    exact Mutated.described_of
      (logsChange_wholeSpan _ (hstate.payload_length.trans hcanonical.payload_length.symm))
      (logsChange_wholeSpan _ (hstate.presence_padded.1.trans hcanonical.presence_padded.1.symm))
      (updateVars_gives hok hreplace)
      ⟨hcanonical.payload_length, hcanonical.presence_padded, hvalid⟩ hsize

end

/-- Taking out the values of absent blocks leaves values of present ones. -/
theorem updateVars_forState {layout : ChunkLayout} (hstate : layout.ValidState state)
    {vars : ChunkVars}
    (h : updateVars state.vars (varUpdateForState state.vars presence) = .ok vars) :
    layout.requireValidVars vars presence = .ok () ∧ vars.encodedSize ≤ state.vars.encodedSize := by
  obtain ⟨hascending, rfl⟩ := (updateVars_gives h (by simp [varUpdateForState])).merged rfl
  set changes := (varUpdateForState state.vars presence).changes with hchanges
  have hmem : ∀ change, change ∈ changes ↔ ∃ entry ∈ state.vars.entries,
      getBit presence entry.1.blockIndex.toNat = false ∧ (entry.1, none) = change := by
    intro change
    simp only [hchanges, varUpdateForState, mem_map, mem_filter, Bool.not_eq_true', and_assoc]
  constructor
  · rw [ChunkLayout.requireValidVars_eq_ok]
    rintro ⟨key, value⟩ hentry
    rcases (mem_merge _ _ hascending key value).mp hentry with hput | ⟨hnot, hold⟩
    · obtain ⟨entry, _, _, hchange⟩ := (hmem _).mp hput
      simp at hchange
    · obtain ⟨column, hvalid⟩ := hstate.validVar hold
      refine ⟨column, hvalid.mem, hvalid.id_eq, hvalid.isVar, hvalid.block_lt, ?_, hvalid.stores⟩
      by_contra habsent
      exact hnot (mem_map.mpr
        ⟨_, (hmem _).mpr ⟨_, hold, Bool.eq_false_of_not_eq_true habsent, rfl⟩, rfl⟩)
  · have hweight := weight_merge ChunkVars.entryBytes state.vars changes hascending
    have hnone : (changes.map fun c => weight ChunkVars.entryBytes (put c.1 c.2)).sum = 0 := by
      apply sum_eq_zero
      intro n hn
      obtain ⟨c, hc, rfl⟩ := mem_map.mp hn
      obtain ⟨entry, _, _, rfl⟩ := (hmem c).mp hc
      rfl
    rw [hnone] at hweight
    exact le_trans (Nat.le_add_right _ _) hweight.le

end WholeChunk

/-! ## Block writes -/

theorem PaddedTo.putBit {width : ℕ} {bytes : Bytes} (h : PaddedTo width bytes) {i : ℕ}
    (hi : i < width) (value : Bool) : PaddedTo width (putBit bytes i value) := by
  have hin : i / 8 < bytes.length := by
    have := le_bytesForBits width
    rw [h.1]
    omega
  refine ⟨by rw [length_putBit, h.1], fun j hj => ?_⟩
  rw [getBit_putBit _ _ _ hin, if_neg (by omega)]
  exact h.2 j hj

theorem ChunkLayout.ValidState.presenceByte_lt {state : ChunkState} (h : layout.ValidState state)
    {block : ℕ} (hblock : block < layout.blockCount) : block / 8 < state.presence.length := by
  have := le_bytesForBits layout.blockCount
  rw [h.presence_padded.1]
  omega

theorem logsChange_presenceSpan (layout : ChunkLayout) (block : ℕ) (before : Bytes)
    (present : Bool) (hblock : block / 8 < before.length) :
    LogsChange layout.payloadBytes before (putBit before block present)
      (presenceSpan layout block before (putBit before block present)) := by
  have hcovers := Covers.presenceByte before block present hblock
  unfold presenceSpan
  split
  · -- the byte is as it was, and with it the whole bitmap
    rename_i hsame
    refine ⟨[], ⟨hcovers.length_eq, by simp, fun i hne => ?_⟩, rfl⟩
    obtain ⟨r, hr, hlow, hhigh⟩ := hcovers.covers i hne
    obtain rfl := mem_singleton.mp hr
    obtain rfl : i = block / 8 := by omega
    have hlen : block / 8 < (putBit before block present).length := by rwa [length_putBit]
    rw [getElem?_eq_getElem hblock, getElem?_eq_getElem hlen] at hne
    rw [getD_eq_getElem _ _ hblock, getD_eq_getElem _ _ hlen] at hsame
    exact absurd (congrArg some hsame) hne
  · exact ⟨_, hcovers, rfl⟩

/-- A value's bits lie in the bytes its range takes. -/
theorem range_bits (bit width : ℕ) :
    bit - bit / 8 * 8 + width ≤ 8 * ((bit + width - 1) / 8 - bit / 8 + 1) := by
  omega

/-- Writing `width` bits inside a window leaves what is around the window. -/
structure InWindow (width : ℕ) (put : Bytes → ℕ → Bytes) : Prop where
  around : ∀ before window after j, j + width ≤ 8 * window.length →
    put (before ++ (window ++ after)) (8 * before.length + j) = before ++ (put window j ++ after)
  length_eq : ∀ window j, j + width ≤ 8 * window.length → (put window j).length = window.length

/-- Written aside in the bytes the bits touch and copied back, the bits are as written in place. -/
theorem InWindow.copyInto {width : ℕ} {put : Bytes → ℕ → Bytes} (h : InWindow width put)
    (hwidth : width ≠ 0) {data : Bytes} {bit : ℕ} (hbit : bit + width ≤ 8 * data.length) :
    copyInto data (bit / 8) (put ((data.drop (bit / 8)).take ((bit + width - 1) / 8 - bit / 8 + 1))
      (bit - bit / 8 * 8)) = put data bit := by
  set size := (bit + width - 1) / 8 - bit / 8 + 1 with hsize
  set window := (data.drop (bit / 8)).take size with hwindow
  have hlength : window.length = size := by
    rw [hwindow, length_take, length_drop]
    omega
  have hfits : bit - bit / 8 * 8 + width ≤ 8 * window.length := by
    rw [hlength]
    exact range_bits bit width
  have hfirst : (data.take (bit / 8)).length = bit / 8 := length_take_of_le (by omega)
  have hdata : data = data.take (bit / 8) ++ (window ++ data.drop (bit / 8 + size)) := by
    rw [hwindow, ← drop_drop, take_append_drop, take_append_drop]
  have haround := h.around (data.take (bit / 8)) window (data.drop (bit / 8 + size)) _ hfits
  rw [← hdata, hfirst, show 8 * (bit / 8) + (bit - bit / 8 * 8) = bit by omega] at haround
  rw [haround, ChunkDb.copyInto, h.length_eq _ _ hfits, hlength, append_assoc]

theorem putBit_window (before window after : Bytes) {j : ℕ} (value : Bool)
    (h : j < 8 * window.length) :
    putBit (before ++ (window ++ after)) (8 * before.length + j) value
      = before ++ (putBit window j value ++ after) := by
  have hdiv : (8 * before.length + j) / 8 = before.length + j / 8 := by omega
  have hmod : (8 * before.length + j) % 8 = j % 8 := by omega
  apply ext_getElem?
  intro i
  grind [putBit]

theorem foldl_putBit_window {A : Type} (before window after : Bytes) (place : A → ℕ)
    (value : A → Bool) (l : List A) (h : ∀ a ∈ l, place a < 8 * window.length) :
    l.foldl (fun data a => putBit data (8 * before.length + place a) (value a))
        (before ++ (window ++ after))
      = before ++ (l.foldl (fun data a => putBit data (place a) (value a)) window ++ after) := by
  induction l generalizing window with
  | nil => rfl
  | cons a l ih =>
    rw [foldl_cons, putBit_window _ _ _ _ (h a mem_cons_self), foldl_cons]
    refine ih _ fun b hb => ?_
    rw [length_putBit]
    exact h b (mem_cons_of_mem _ hb)

theorem inWindow_writeValueBits (value : Bytes) (width : ℕ) :
    InWindow width fun data j => writeValueBits data j value width := by
  refine ⟨fun before window after j h => ?_, fun window j h => length_writeValueBits _ _ _ _ h⟩
  have hdiv : (8 * before.length + j) / 8 = before.length + j / 8 := by omega
  have hmod : (8 * before.length + j) % 8 = j % 8 := by omega
  unfold writeValueBits
  rw [hdiv, hmod]
  split
  · have hlen : (value.take (width / 8)).length ≤ width / 8 := length_take_le _ _
    rw [copyInto, take_length_add_append, Nat.add_assoc, drop_length_add_append,
      take_append_of_le_length (by omega), drop_append_of_le_length (by omega)]
    simp [copyInto]
  · simp only [Nat.add_assoc]
    refine foldl_putBit_window before window after (j + ·) (getBit value) _ fun i hi => ?_
    have := mem_range.mp hi
    omega

section Ranges

variable {layout : ChunkLayout} {block : ℕ} {payload : Bytes} {edit : BlockEdit}
  (hfixed : edit.fixed ∈ layout.fixed) (hblock : block < layout.blockCount)
  (hpayload : payload.length = layout.payloadBytes)

include hfixed hblock hpayload

/-- The ranges of an edit: the bytes of the value, which copied back give the value written in
place, and the byte of the validity bit. -/
theorem BlockEdit.ranges_eq : ∃ first value, edit.ranges block payload
      = (first, value) :: edit.fixed.validity.toList.map (fun validity => (validity + block / 8,
          [putByteBit (payload.getD (validity + block / 8) 0) (block % 8) (!edit.null)]))
    ∧ edit.fixed.values ≤ first
    ∧ first + value.length ≤ edit.fixed.values + bytesForBits (layout.blockCount * edit.fixed.width)
    ∧ copyInto payload first value = writeValueBits payload
      (edit.fixed.values * 8 + block * edit.fixed.width) edit.value edit.fixed.width := by
  obtain ⟨column, _, hplaced⟩ := layout.fixed_bounds hfixed
  have hvalues := hplaced.values_le
  have hbits := value_bits_le (le_refl (edit.fixed.values + bytesForBits (layout.blockCount * edit.fixed.width))) hblock
  have hwidth := hplaced.width_ne
  set bit := edit.fixed.values * 8 + block * edit.fixed.width with hbit
  have hwindow := inWindow_writeValueBits edit.value edit.fixed.width
  refine ⟨bit / 8, _, rfl, by omega, ?_, hwindow.copyInto hwidth (by omega)⟩
  simp only [← hbit]
  have hlength : ((payload.drop (bit / 8)).take
      ((bit + edit.fixed.width - 1) / 8 - bit / 8 + 1)).length
      = (bit + edit.fixed.width - 1) / 8 - bit / 8 + 1 := by
    rw [length_take, length_drop]
    omega
  rw [hwindow.length_eq _ _ (by rw [hlength]; exact range_bits _ _), hlength]
  omega

/-- The ranges of an edit lie in the payload. -/
theorem BlockEdit.ranges_inside :
    ∀ r ∈ edit.ranges block payload, r.1 + r.2.length ≤ payload.length := by
  obtain ⟨column, _, hplaced⟩ := layout.fixed_bounds hfixed
  obtain ⟨first, value, hranges, _, hhigh, _⟩ := BlockEdit.ranges_eq hfixed hblock hpayload
  rw [hranges]
  rintro r (_ | ⟨_, hr⟩)
  · exact hhigh.trans (hplaced.values_le.trans_eq hpayload.symm)
  · obtain ⟨validity, hvalidity, rfl⟩ := mem_map.mp hr
    have hle := hplaced.validity_le validity (Option.mem_toList.mp hvalidity)
    have hcount := le_bytesForBits layout.blockCount
    simp only [length_singleton]
    omega

end Ranges

/-- What a prepared block write is about: arrays of the layout, and values its text and bytes
columns store in this block. -/
structure BlockWrite.Prepared (layout : ChunkLayout) (block : ℕ) (write : BlockWrite) : Prop where
  edits_fixed : ∀ edit ∈ write.edits, edit.fixed ∈ layout.fixed
  changes_valid : ∀ key value, (key, some value) ∈ write.varChanges →
    key.blockIndex = UInt32.ofNat block ∧ ∃ column ∈ layout.schema.columns,
      column.id = key.columnId ∧ fixedWidthBits column.type = 0 ∧ column.Stores value

section WriteBlockColumns

variable {writer : Writer} {block : ℕ} {write : BlockWrite} {present : Bool} {state : ChunkState}
  {m : Mutated}

/-- A write of a block: one that sets it may store values, and one that unsets it gives up
all the block has. -/
structure BlockWrite.Writes (layout : ChunkLayout) (block : ℕ) (present : Bool)
    (write : BlockWrite) : Prop extends write.Prepared layout block where
  sets : ∀ key value, (key, some value) ∈ write.varChanges → present = true
  unsets : present = false → ∀ column ∈ layout.schema.columns, fixedWidthBits column.type = 0 →
    (⟨column.id, UInt32.ofNat block⟩, none) ∈ write.varChanges

variable {layout : ChunkLayout}

/-- A prepared write that sets the block. -/
theorem BlockWrite.Prepared.writes (h : write.Prepared layout block) :
    write.Writes layout block true :=
  ⟨h, fun _ _ _ => rfl, by simp⟩

theorem BlockWrite.Writes.requireValidVars (hwrites : write.Writes layout block present)
    (hstate : layout.ValidState state) (hcount : layout.blockCount ≤ 2 ^ 32)
    (hblock : block < layout.blockCount) {changes : List VarChange}
    (hchanges : ∀ change, change ∈ changes ↔ change ∈ write.varChanges
      ∧ state.vars.find change.1 ≠ change.2) (hascending : KeysAscending changes) :
    layout.requireValidVars (SortedMap.merge state.vars changes hascending)
      (putBit state.presence block present) = .ok () := by
  have hin := hstate.presenceByte_lt hblock
  have hindex : (UInt32.ofNat block).toNat = block :=
    UInt32.toNat_ofNat_of_lt' (lt_of_lt_of_le hblock hcount)
  rw [ChunkLayout.requireValidVars_eq_ok]
  rintro ⟨key, value⟩ hentry
  rcases (mem_merge _ _ hascending key value).mp hentry with hput | ⟨hnot, hold⟩
  · have hwrite := ((hchanges _).mp hput).1
    obtain ⟨hkey, column, hmem, hid, hvar, hstores⟩ := hwrites.changes_valid key value hwrite
    obtain rfl := hwrites.sets key value hwrite
    refine ⟨column, hmem, hid, hvar, ?_, ?_, hstores⟩
    · rw [hkey, hindex]
      exact hblock
    · rw [hkey, hindex, getBit_putBit _ _ _ hin, if_pos rfl]
  · obtain ⟨column, hvalid⟩ := hstate.validVar hold
    refine ⟨column, hvalid.mem, hvalid.id_eq, hvalid.isVar, hvalid.block_lt, ?_, hvalid.stores⟩
    rw [getBit_putBit _ _ _ hin]
    by_cases hsame : block = key.blockIndex.toNat
    · rw [if_pos hsame]
      by_contra hfalse
      -- an unset block has a deletion for every key it holds
      have hgone := hwrites.unsets (Bool.eq_false_of_not_eq_true hfalse) column hvalid.mem
        hvalid.isVar
      have hkeyeq : (⟨column.id, UInt32.ofNat block⟩ : VarKey) = key := by
        rw [hvalid.id_eq, hsame, UInt32.ofNat_toNat]
      rw [hkeyeq] at hgone
      apply hnot
      refine mem_map.mpr ⟨(key, none), (hchanges _).mpr ⟨hgone, ?_⟩, rfl⟩
      rw [(find_eq_some_iff state.vars key value).mpr hold]
      simp
    · rw [if_neg hsame]
      exact hvalid.present

theorem BlockWrite.Prepared.ranges_inside (hprepared : write.Prepared layout block)
    (hstate : layout.ValidState state) (hblock : block < layout.blockCount) :
    ∀ r ∈ write.edits.flatMap (BlockEdit.ranges block state.payload),
      r.1 + r.2.length ≤ state.payload.length := by
  intro r hr
  obtain ⟨edit, hedit, hr⟩ := mem_flatMap.mp hr
  exact BlockEdit.ranges_inside (hprepared.edits_fixed edit hedit) hblock hstate.payload_length r hr

theorem Writer.writeBlockColumns_described (hstate : writer.layout.ValidState state)
    (hsize : state.vars.encodedSize ≤ kVarMaxChunkBytesLimit)
    (hcount : writer.layout.blockCount ≤ 2 ^ 32) (hblock : block < writer.layout.blockCount)
    (hwrites : write.Writes writer.layout block present)
    (h : writer.writeBlockColumns block write present state = .ok (some m)) :
    m.Described writer.layout state := by
  unfold writeBlockColumns at h
  dsimp only at h
  obtain ⟨hlimit, h⟩ := check_bind_eq_ok.mp h
  split at h
  · exact absurd (Except.ok.inj h) (by simp)
  · obtain ⟨vars, hok, h⟩ := bind_eq_ok.mp h
    cases h
    have hinside := hwrites.ranges_inside hstate hblock
    have hgives := updateVars_gives hok (by simp)
    refine Mutated.described_of ⟨_, Covers.ranges hinside, by simp [spansOf, spanOf]⟩
      (logsChange_presenceSpan _ _ _ _ (hstate.presenceByte_lt hblock)) hgives ⟨?_, ?_, ?_⟩ ?_
    · exact (length_copySpans _ _ hinside).trans hstate.payload_length
    · exact hstate.presence_padded.putBit hblock present
    · obtain ⟨hascending, rfl⟩ := hgives.merged rfl
      refine hwrites.requireValidVars hstate hcount hblock ?_ hascending
      intro change
      simp [mem_filter]
    · exact (writer.size_le_max_of_requireVarWrite hlimit hok).trans (max_le le_rfl hsize)

end WriteBlockColumns

/-! ## Prepared block writes -/

/-- An invariant of the rounds of a loop holds after it. -/
theorem Fallible.foldlM_invariant {A B : Type} {f : B → A → Fallible B} {P : B → Prop} {l : List A}
    {b result : B} (h : l.foldlM f b = .ok result) (hb : P b)
    (hstep : ∀ b a b', P b → a ∈ l → f b a = .ok b' → P b') : P result := by
  induction l generalizing b with
  | nil =>
    cases h
    exact hb
  | cons a l ih =>
    rw [foldlM_cons, bind_eq_ok] at h
    obtain ⟨next, hnext, hrest⟩ := h
    exact ih hrest (hstep b a next hb mem_cons_self hnext)
      fun b x b' hb' hx => hstep b x b' hb' (mem_cons_of_mem _ hx)

theorem encodeVarValue_eq_ok {column : Column} {value : ColumnValue} {bytes : Bytes}
    (h : encodeVarValue column value = .ok bytes) :
    bytes.length ≤ column.type.size ∧ (column.type.kind = .text → isUtf8 bytes = true) := by
  unfold encodeVarValue at h
  cases hkind : column.type.kind <;> cases value <;>
    simp only [hkind, invalidArgument, reduceCtorEq, if_true, if_false, pure_bind,
      Fallible.error_bind, require_bind] at h
  case text.text v =>
    obtain rfl := Except.ok.inj h.2.2
    exact ⟨h.2.1, fun _ => h.1⟩
  case bytes.bytes v =>
    obtain rfl := Except.ok.inj h.2
    exact ⟨h.1, nofun⟩

namespace BlockWrite

variable {layout : ChunkLayout} {block : ℕ} {write next : BlockWrite}

/-- What the round of a column does to a write: it adds an edit of the column's array, a change
of its value in this block, or nothing. -/
inductive Adds (layout : ChunkLayout) (block index : ℕ) (write : BlockWrite) : BlockWrite → Prop
  | nothing : Adds layout block index write write
  | edit {fixed : FixedColumn} (hfixed : layout.fixedColumnAt index = some fixed) (null : Bool)
      (value : Bytes) : Adds layout block index write (write.add fixed null value)
  | change {column : Column} (hcolumn : column ∈ layout.schema.columns)
      (hvar : fixedWidthBits column.type = 0) {value : Option Bytes}
      (hvalue : ∀ bytes ∈ value, column.Stores bytes) :
      Adds layout block index write (write.change column block value)

variable {index : ℕ}

theorem Prepared.adds (h : write.Prepared layout block) (hadds : write.Adds layout block index next) :
    next.Prepared layout block := by
  cases hadds with
  | nothing => exact h
  | edit hfixed null value =>
    refine ⟨fun edit hedit => ?_, h.changes_valid⟩
    rcases mem_append.mp hedit with hedit | hedit
    · exact h.edits_fixed edit hedit
    · obtain rfl := mem_singleton.mp hedit
      exact mem_of_find?_eq_some hfixed
  | change hcolumn hvar hvalue =>
    refine ⟨h.edits_fixed, fun key bytes hmem => ?_⟩
    rcases mem_append.mp hmem with hmem | hmem
    · exact h.changes_valid key bytes hmem
    · obtain ⟨rfl, rfl⟩ := Prod.mk.inj (mem_singleton.mp hmem)
      exact ⟨rfl, _, hcolumn, rfl, hvar, hvalue bytes rfl⟩

theorem adds_assignColumn {column : Column} (hcolumn : layout.schema.columns[index]? = some column)
    {value : ColumnValue} (hok : assignColumn layout block index column value write = .ok next) :
    write.Adds layout block index next := by
  unfold assignColumn at hok
  simp only [check_bind_eq_ok, require_eq_ok] at hok
  obtain ⟨_, _, hok⟩ := hok
  have hmem := mem_of_getElem? hcolumn
  split at hok
  · rename_i hnone
    have hvar := layout.fixedColumnAt_eq_none hnone hcolumn
    split at hok
    · cases hok
      exact .change hmem hvar (by simp)
    · obtain ⟨bytes, hbytes, hok⟩ := bind_eq_ok.mp hok
      cases hok
      obtain ⟨hlen, hutf8⟩ := encodeVarValue_eq_ok hbytes
      refine .change hmem hvar fun stored hstored => ?_
      split at hstored
      · simp at hstored
      · rename_i hnil
        cases hstored
        exact ⟨hlen, fun hempty => by simpa [hempty] using hnil, hutf8⟩
  · rename_i fixed hfixed
    split at hok
    · cases hok
      exact .edit hfixed _ _
    · obtain ⟨bytes, _, hok⟩ := bind_eq_ok.mp hok
      cases hok
      exact .edit hfixed _ _

/-- An assignment is of a column that was not given before. -/
theorem adds_assign {assignment : ColumnAssignment}
    (hok : assign layout block write assignment = .ok next) :
    ∃ index, index ∉ write.given
      ∧ { write with given := write.given ++ [index] }.Adds layout block index next := by
  unfold assign at hok
  split at hok
  · simp [invalidArgument] at hok
  · rename_i index _
    split at hok
    · simp [invalidArgument] at hok
    · rename_i hgiven
      split at hok
      · simp [invalidArgument] at hok
      · rename_i column hcolumn
        exact ⟨index, hgiven, adds_assignColumn hcolumn hok⟩

theorem prepared_prepareSet {values : List ColumnAssignment}
    (h : prepareSet layout block values = .ok write) : write.Prepared layout block := by
  refine Fallible.foldlM_invariant h ⟨by simp, by simp⟩ ?_
  intro write assignment next hwrite _ hnext
  obtain ⟨index, _, hadds⟩ := adds_assign hnext
  refine Prepared.adds ?_ hadds
  exact ⟨hwrite.edits_fixed, hwrite.changes_valid⟩

theorem adds_addNewColumn {column : Column} (hcolumn : layout.schema.columns[index]? = some column)
    (hok : addNewColumn layout block write index column = .ok next) :
    next = write ∨ index ∉ write.given ∧ write.Adds layout block index next := by
  have hcmem := mem_of_getElem? hcolumn
  unfold addNewColumn at hok
  split at hok
  · exact .inl (Except.ok.inj hok).symm
  · rename_i hgiven
    refine .inr ⟨hgiven, ?_⟩
    split at hok
    · simp [invalidArgument] at hok
    · split at hok
      · rename_i hnone
        have hvar := layout.fixedColumnAt_eq_none hnone hcolumn
        split at hok
        · rename_i hdefault
          cases hok
          refine .change hcmem hvar fun bytes hbytes => ?_
          cases hbytes
          have hfixed := isFixedWidth_eq_false_of_width (layout.columnsValid.typeValid column hcmem) hvar
          have hstored := layout.columnsValid.defaultValid column hcmem hdefault.1
          rw [hfixed, if_neg (by simp)] at hstored
          exact ⟨hstored.1, fun hnil => hdefault.2.resolve_left (not_not_intro hnil), hstored.2⟩
        · cases hok
          exact .nothing
      · rename_i fixed hfixed
        split at hok
        · cases hok
          exact .edit hfixed _ _
        · cases hok
          exact .edit hfixed _ _

theorem prepared_addNewColumns (hwrite : write.Prepared layout block)
    (h : write.addNewColumns layout block = .ok next) : next.Prepared layout block := by
  refine Fallible.foldlM_invariant h hwrite ?_
  rintro write ⟨column, index⟩ next hwrite hmem hnext
  rw [mem_zipIdx_iff_getElem?] at hmem
  rcases adds_addNewColumn hmem hnext with rfl | ⟨_, hadds⟩
  · exact hwrite
  · exact hwrite.adds hadds

theorem writes_prepareUnset : (prepareUnset layout block).Writes layout block false := by
  have hnone : ∀ key value, (key, some value) ∉ (prepareUnset layout block).varChanges := by
    intro key value hmem
    obtain ⟨column, _, hchange⟩ := mem_map.mp hmem
    simp at hchange
  refine ⟨⟨fun edit hedit => ?_, fun key value hmem => absurd hmem (hnone key value)⟩,
    fun key value hmem => absurd hmem (hnone key value), fun _ column hcolumn hvar => ?_⟩
  · obtain ⟨fixed, hfixed, rfl⟩ := mem_map.mp hedit
    exact hfixed
  · refine mem_map.mpr ⟨column, mem_filter.mpr ⟨hcolumn, ?_⟩, rfl⟩
    rw [isFixedWidth_eq_false_of_width (layout.columnsValid.typeValid column hcolumn) hvar]
    rfl

end BlockWrite

/-! ## Tables of bit strings -/

@[simp] theorem length_writeBits (data : Bytes) (bitOffset : ℕ) (digits : List Char) :
    (writeBits data bitOffset digits).length = data.length :=
  length_foldl_eq _ _ _ rfl fun d hd _ _ => (length_putBit d _ _).trans hd

section BitStrings

variable {layout : ChunkLayout} {state : ChunkState}

/-- The bits of a block lie in the payload of a table of bit strings. -/
theorem ChunkLayout.blockBits_le (h : layout.bitStringBlocks = true) {block : ℕ}
    (hblock : block < layout.blockCount) :
    0 < layout.blockBits
      ∧ block * layout.blockBits + layout.blockBits ≤ 8 * layout.payloadBytes := by
  unfold bitStringBlocks at h
  split at h
  · rename_i column hcolumns
    simp only [Bool.and_eq_true, beq_iff_eq, Bool.not_eq_true'] at h
    have hcolumn : layout.schema.columns[0]? = some column := by rw [hcolumns]; rfl
    have hwidth : layout.blockBits = fixedWidthBits column.type := by
      have hmax := layout.columnsValid.fixedBits
      rw [hcolumns, map_singleton, sum_singleton] at hmax
      rw [blockBits, fixedBitsPerBlock, hcolumns, map_singleton, sum_singleton]
      exact min_eq_left (hmax.trans (by decide))
    have hne : fixedWidthBits column.type ≠ 0 := by
      have hvalid := layout.columnsValid.typeValid column (mem_of_getElem? hcolumn)
      rw [ne_eq, fixedWidthBits_eq_zero_iff hvalid]
      simp [isFixedWidth, h.1]
    obtain ⟨fixed, hfixed, hindex⟩ := (placeColumns_spec _ _ _ layout.placed).2.2.2 0 column hcolumn hne
    obtain ⟨other, hother, hplaced⟩ := layout.fixed_bounds hfixed
    rw [hindex, Nat.add_zero, hcolumn] at hother
    cases hother
    have := value_bits_le hplaced.values_le hblock
    rw [hplaced.width_eq, ← hwidth] at this
    exact ⟨by omega, by omega⟩
  · simp at h

/-- A table of bit strings has no text or bytes values. -/
theorem ChunkLayout.ValidState.vars_eq_empty (hstate : layout.ValidState state)
    (h : layout.bitStringBlocks = true) : state.vars = SortedMap.empty := by
  apply SortedMap.ext
  apply eq_nil_iff_forall_not_mem.mpr
  intro entry hentry
  obtain ⟨column, hvalid⟩ := hstate.validVar hentry
  unfold bitStringBlocks at h
  split at h
  · rename_i only hcolumns
    simp only [Bool.and_eq_true, beq_iff_eq, Bool.not_eq_true'] at h
    have hmem := hvalid.mem
    rw [hcolumns, mem_singleton] at hmem
    subst hmem
    have hzero := hvalid.isVar
    have hvalidtype := layout.columnsValid.typeValid column hvalid.mem
    rw [fixedWidthBits_eq_zero_iff hvalidtype] at hzero
    simp [isFixedWidth, h.1] at hzero
  · simp at h

theorem requireValidVars_empty (layout : ChunkLayout) (presence : Bytes) :
    layout.requireValidVars SortedMap.empty presence = .ok () := rfl

theorem VarUpdate.gives_refl (vars : ChunkVars) : VarUpdate.Gives ⟨[], none⟩ vars vars :=
  ⟨by simp, fun _ => ⟨List.Pairwise.nil, rfl⟩, by simp⟩

end BitStrings

/-! ## Every write -/

section EveryWrite

variable {writer : Writer} {state : ChunkState} {m : Mutated}

section

variable (hstate : writer.layout.ValidState state)
  (hsize : state.vars.encodedSize ≤ kVarMaxChunkBytesLimit)

include hstate hsize

variable {block : ℕ}

theorem Writer.writeBlockBits_described (hbits : writer.layout.bitStringBlocks = true)
    (hblock : block < writer.layout.blockCount) {digits : List Char} {present : Bool}
    (hdigits : digits.length = writer.layout.blockBits)
    (h : writer.writeBlockBits block digits present state = some m) :
    m.Described writer.layout state := by
  obtain ⟨hpos, hle⟩ := ChunkLayout.blockBits_le hbits hblock
  unfold writeBlockBits at h
  dsimp only at h
  rw [Option.ite_none_left_eq_some] at h
  obtain rfl := Option.some.inj h.2
  clear h
  set bit := block * writer.layout.blockBits with hbit
  set size := (bit + digits.length - 1) / 8 - bit / 8 + 1 with hsizedef
  set next := writeBits ((state.payload.drop (bit / 8)).take size) (bit - bit / 8 * 8) digits
    with hnext
  have hslice : ((state.payload.drop (bit / 8)).take size).length = size := by
    rw [length_take, length_drop, hstate.payload_length]
    omega
  have hlen : next.length = size := by rw [hnext, length_writeBits, hslice]
  have hranges : ∀ r ∈ [(bit / 8, next)], r.1 + r.2.length ≤ state.payload.length := by
    intro r hr
    obtain rfl := mem_singleton.mp hr
    rw [hlen, hstate.payload_length]
    omega
  have hpayload : LogsChange 0 state.payload (copyInto state.payload (bit / 8) next)
      (if next = (state.payload.drop (bit / 8)).take size then []
        else [spanOf (copyInto state.payload (bit / 8) next) 0 (bit / 8) size]) := by
    refine ⟨_, Covers.ranges hranges, ?_⟩
    by_cases hsame : next = (state.payload.drop (bit / 8)).take size
    · rw [if_pos hsame]
      simp [changedRanges, hlen, ← hsame, spansOf]
    · rw [if_neg hsame]
      simp [changedRanges, hlen, Ne.symm hsame, spansOf, spanOf]
  set after : ChunkState :=
    ⟨copyInto state.payload (bit / 8) next, putBit state.presence block present, state.vars⟩
  have hvalid : writer.layout.ValidState after := by
    refine ⟨(length_copySpans _ _ hranges).trans hstate.payload_length,
      hstate.presence_padded.putBit hblock present, ?_⟩
    rw [show after.vars = SortedMap.empty from hstate.vars_eq_empty hbits]
    exact requireValidVars_empty _ _
  have hgives : VarUpdate.Gives ⟨[], none⟩ state.vars after.vars := VarUpdate.gives_refl state.vars
  have hdescribed : Mutated.Described writer.layout state ⟨after, _⟩ :=
    Mutated.described_of hpayload (logsChange_presenceSpan _ _ _ _
      (hstate.presenceByte_lt hblock)) hgives hvalid hsize
  simpa [varUpdateRecords] using hdescribed

theorem Writer.applyChunkBatch_described {ops : List ChunkBatchOp}
    (hops : ∀ op ∈ ops, op.block < writer.layout.blockCount)
    (h : writer.applyChunkBatch ops state = .ok (some m)) : m.Described writer.layout state := by
  unfold applyChunkBatch at h
  rw [check_bind_eq_ok, check_bind_eq_ok] at h
  obtain ⟨hbits, _, h⟩ := h
  rw [requireBitStringBlocks, require_eq_ok] at hbits
  refine applyFullChunkState_described hstate ⟨?_, ?_⟩ (by simp) ?_ h
  · exact length_foldl_eq _ _ _ hstate.payload_length
      fun d hd _ _ => (length_writeBits d _ _).trans hd
  · refine List.foldlRecOn (motive := PaddedTo writer.layout.blockCount) ops _
      hstate.presence_padded ?_
    intro presence hpadded op hop
    exact hpadded.putBit (hops op hop) _
  · intro vars hvars
    cases hvars
    refine ⟨?_, hsize⟩
    rw [hstate.vars_eq_empty hbits]
    exact requireValidVars_empty _ _

theorem Writer.setBlock_described (hcount : writer.layout.blockCount ≤ 2 ^ 32)
    (hblock : block < writer.layout.blockCount) {values : List ColumnAssignment}
    (h : writer.setBlock block values state = .ok (some m)) : m.Described writer.layout state := by
  unfold setBlock at h
  obtain ⟨write, hwrite, h⟩ := bind_eq_ok.mp h
  have hprepared := BlockWrite.prepared_prepareSet hwrite
  split at h
  · exact writer.writeBlockColumns_described hstate hsize hcount hblock hprepared.writes h
  · obtain ⟨all, hall, h⟩ := bind_eq_ok.mp h
    exact writer.writeBlockColumns_described hstate hsize hcount hblock
      (BlockWrite.prepared_addNewColumns hprepared hall).writes h

theorem Writer.unsetBlock_described (hcount : writer.layout.blockCount ≤ 2 ^ 32)
    (hblock : block < writer.layout.blockCount) (h : writer.unsetBlock block state = .ok (some m)) :
    m.Described writer.layout state := by
  unfold unsetBlock at h
  split at h
  · exact writer.writeBlockColumns_described hstate hsize hcount hblock
      BlockWrite.writes_prepareUnset h
  · rename_i hbits
    exact writer.writeBlockBits_described hstate hsize (by simpa using hbits) hblock
      (length_replicate ..) (Except.ok.inj h)

end

/-- Values with the same encoding are the same. -/
theorem ChunkVars.eq_of_encode_eq {layout : ChunkLayout} {vars vars' : ChunkVars}
    {presence presence' : Bytes} (hvars : layout.requireValidVars vars presence = .ok ())
    (hvars' : layout.requireValidVars vars' presence' = .ok ())
    (hsize : vars'.encodedSize < 2 ^ 32) (h : vars.encode = vars'.encode) : vars = vars' := by
  have hdecode : ∀ {vars : ChunkVars} {presence : Bytes},
      layout.requireValidVars vars presence = .ok () → vars.encodedSize < 2 ^ 32 →
      ChunkVars.decodeEntries layout.blockCount vars.encode.length none vars.encode
        = .ok vars.entries := by
    intro vars presence hvars hsize
    refine vars.decodeEntries_self hsize fun e he => ?_
    obtain ⟨column, hvalid⟩ := ChunkLayout.requireValidVars_eq_ok.mp hvars e he
    exact hvalid.block_lt
  have hlen : vars.encodedSize = vars'.encodedSize := by
    rw [← ChunkVars.length_encode, h, ChunkVars.length_encode]
  have hentries := hdecode hvars (by omega)
  rw [h, hdecode hvars' hsize] at hentries
  exact SortedMap.ext (Except.ok.inj hentries).symm

/-- The values a typed whole-chunk write leaves. -/
theorem Writer.valid_of_updateVars (hstate : writer.layout.ValidState state)
    (hsize : state.vars.encodedSize < 2 ^ 32) {given vars : ChunkVars} {presence : Bytes}
    (hvalid : writer.layout.requireValidVars given presence = .ok ())
    (hok : updateVars state.vars
      ⟨[], if given.encode = state.vars.encode then none else some given⟩ = .ok vars) :
    writer.layout.requireValidVars vars presence = .ok () := by
  by_cases hsame : given.encode = state.vars.encode
  · rw [if_pos hsame] at hok
    rw [← Except.ok.inj hok, ← ChunkVars.eq_of_encode_eq hvalid hstate.vars_valid hsize hsame]
    exact hvalid
  · rw [if_neg hsame] at hok
    rw [← Except.ok.inj hok]
    exact hvalid

theorem Writer.writeChunkState_described (hstate : writer.layout.ValidState state)
    (hsize : state.vars.encodedSize ≤ kVarMaxChunkBytesLimit) {given : ChunkState}
    {conditional : Bool} (h : writer.writeChunkState given conditional state = .ok (some m)) :
    m.Described writer.layout state := by
  unfold writeChunkState at h
  obtain ⟨⟨payload, presence⟩, hcanonical, h⟩ := bind_eq_ok.mp h
  have hcanonical := writer.canonicalState_eq_ok hcanonical
  simp only [check_bind_eq_ok] at h
  obtain ⟨hvalid, _, hwrite, h⟩ := h
  set update : VarUpdate :=
    ⟨[], if given.vars.encode = state.vars.encode then none else some given.vars⟩ with hupdate
  have hreplace : ∀ vars ∈ update.replace, state.vars ≠ vars := by
    rintro vars hvars rfl
    simp only [hupdate] at hvars
    split at hvars
    · simp at hvars
    · rename_i hne
      exact hne (by rw [Option.some.inj hvars])
  have hvars : ∀ vars, updateVars state.vars update = .ok vars →
      writer.layout.requireValidVars vars presence = .ok ()
        ∧ vars.encodedSize ≤ kVarMaxChunkBytesLimit := by
    intro vars hok
    exact ⟨writer.valid_of_updateVars hstate (hsize.trans_lt (by decide)) hvalid hok,
      (writer.size_le_max_of_requireVarWrite hwrite hok).trans (max_le le_rfl hsize)⟩
  split at h
  · exact applyFullChunkState_described hstate hcanonical hreplace hvars h
  · exact applyChunkState_described hstate hcanonical hreplace hvars h

/-- The records `AppendDiffSpans` and `AppendVarDiff` write for two states of a chunk. -/
def ChunkLayout.diffRecords (layout : ChunkLayout) (before after : ChunkState) : List WalRecord :=
  diffSpans 0 before.payload after.payload
    ++ diffSpans layout.payloadBytes before.presence after.presence
    ++ (varDiff before.vars after.vars).map WalRecord.ofChange

/-- The ranges of an array a transaction logs, as offsets and lengths. -/
def diffLengths (before after : Bytes) : List (ℕ × ℕ) :=
  (diffRanges before after).map fun r => (r.1, r.2 - r.1)

/-- The difference of two valid states describes the change from the one to the other. -/
theorem ChunkLayout.ValidState.describes_diff {layout : ChunkLayout} {before after : ChunkState}
    (hbefore : layout.ValidState before) (hafter : layout.ValidState after)
    (hsize : after.vars.encodedSize ≤ kVarMaxChunkBytesLimit) :
    Mutated.Describes layout before ⟨after, layout.diffRecords before after⟩
      (diffLengths before.payload after.payload) (diffLengths before.presence after.presence)
      ⟨varDiff before.vars after.vars, none⟩ := by
  have hlenp : before.payload.length = after.payload.length :=
    hbefore.payload_length.trans hafter.payload_length.symm
  have hlenq : before.presence.length = after.presence.length :=
    hbefore.presence_padded.1.trans hafter.presence_padded.1.symm
  refine ⟨?_, Covers.diff hlenp, Covers.diff hlenq,
    ⟨by simp, fun _ => ⟨keysAscending_varDiff _ _, (merge_varDiff _ _).symm⟩, ?_⟩, hafter, hsize⟩
  · simp [diffRecords, diffLengths, diffSpans, spansOf, spanOf, VarUpdate.records, Function.comp_def]
  · rintro ⟨key, value⟩ hmem
    exact (mem_varDiff.mp hmem).2

theorem Writer.commitChunk_described (hstate : writer.layout.ValidState state)
    (hsize : state.vars.encodedSize ≤ kVarMaxChunkBytesLimit) {given : ChunkState}
    (h : writer.commitChunk given state = .ok (some m)) : m.Described writer.layout state := by
  unfold commitChunk at h
  obtain ⟨⟨payload, presence⟩, hcanonical, h⟩ := bind_eq_ok.mp h
  have hcanonical := writer.canonicalState_eq_ok hcanonical
  simp only [check_bind_eq_ok, require_eq_ok] at h
  obtain ⟨hvalid, _, hlimit, h⟩ := h
  have hmax := writer.limit_le
  split at h
  · exact absurd (Except.ok.inj h) (by simp)
  · cases h
    have hafter : writer.layout.ValidState ⟨payload, presence, given.vars⟩ :=
      ⟨hcanonical.payload_length, hcanonical.presence_padded, hvalid⟩
    exact ⟨_, _, _, hstate.describes_diff hafter (by dsimp only; omega)⟩

/-- Every write describes what it did in its frame. -/
theorem Mutation.run_described (hstate : writer.layout.ValidState state)
    (hsize : state.vars.encodedSize ≤ kVarMaxChunkBytesLimit)
    (hcount : writer.layout.blockCount ≤ 2 ^ 32) {mutation : Mutation}
    (hblocks : mutation.InChunk writer.layout.blockCount)
    (h : mutation.run writer state = .ok (some m)) : m.Described writer.layout state := by
  have hgone : ∀ presence vars,
      updateVars state.vars (varUpdateForState state.vars presence) = .ok vars →
      writer.layout.requireValidVars vars presence = .ok ()
        ∧ vars.encodedSize ≤ kVarMaxChunkBytesLimit :=
    fun _ _ hvars => (updateVars_forState hstate hvars).imp_right (·.trans hsize)
  cases mutation with
  | setBlock block values => exact writer.setBlock_described hstate hsize hcount hblocks h
  | setBlockBits block digits =>
    rw [run, Writer.setBlockBits] at h
    simp only [check_bind_eq_ok, Writer.requireBitStringBlocks, require_eq_ok] at h
    obtain ⟨hbits, hdigits, _, _, h⟩ := h
    exact writer.writeBlockBits_described hstate hsize hbits hblocks hdigits (Except.ok.inj h)
  | unsetBlock block => exact writer.unsetBlock_described hstate hsize hcount hblocks h
  | setChunkStateBytes payload presence =>
    rw [run, Writer.setChunkStateBytes, bind_eq_ok] at h
    obtain ⟨⟨payload, presence⟩, hcanonical, h⟩ := h
    rw [check_bind_eq_ok] at h
    exact writer.applyChunkState_described hstate (writer.canonicalState_eq_ok hcanonical)
      (by simp [varUpdateForState]) (hgone presence) h.2
  | casChunkStateBytes payload presence =>
    rw [run, Writer.casChunkStateBytes, bind_eq_ok] at h
    obtain ⟨⟨payload, presence⟩, hcanonical, h⟩ := h
    exact writer.applyFullChunkState_described hstate (writer.canonicalState_eq_ok hcanonical)
      (by simp [varUpdateForState]) (hgone presence) h
  | applyChunkBatch ops => exact writer.applyChunkBatch_described hstate hsize hblocks h
  | writeChunkState given conditional => exact writer.writeChunkState_described hstate hsize h
  | commitChunk given => exact writer.commitChunk_described hstate hsize h

end EveryWrite

end ChunkDb
