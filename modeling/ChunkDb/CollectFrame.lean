/-
# The frame that empties a chunk

`CheckpointChunk` collects a chunk without blocks: it removes the image and then the WAL.
Between the two the WAL may be replayed over no image, so a last frame sets the whole state
to the empty one.  Whatever replay has before that frame, it has the empty state after it
(`Collects.applyFrame_eq`).
-/
import ChunkDb.Refinement
import ChunkDb.Wal.Checkpoint

open ByteBits List

namespace ChunkDb

/-- `ChunkPresent`: the chunk has a block. -/
def chunkPresent (presence : Bytes) : Bool := presence.any (· ≠ 0)

namespace ChunkLayout

variable (layout : ChunkLayout)

/-- The spans of the collection frame: a payload and a bitmap of zeros. -/
def resetSpans : List (ℕ × Bytes) :=
  [(0, List.replicate layout.payloadBytes 0),
    (layout.payloadBytes, List.replicate (bytesForBits layout.blockCount) 0)]

/-- The records of the collection frame. -/
def resetRecords : List WalRecord :=
  layout.resetSpans.map (fun span => WalRecord.span span.1 span.2)
    ++ if layout.hasVarColumns then [.varReplace SortedMap.empty] else []

/-- The spans set a state of the layout's size to zeros. -/
theorem copySpans_resetSpans {bytes : Bytes}
    (h : bytes.length = layout.payloadBytes + bytesForBits layout.blockCount) :
    copySpans bytes layout.resetSpans
      = List.replicate layout.payloadBytes 0 ++ List.replicate (bytesForBits layout.blockCount) 0 := by
  rw [resetSpans, copySpans, foldl_cons, foldl_cons, foldl_nil]
  simp only [copyInto, length_replicate, take_zero, nil_append, Nat.zero_add]
  rw [take_append_of_le_length (by simp), take_of_length_le (by simp),
    drop_eq_nil_of_le (by simp [h])]
  simp

end ChunkLayout

/-- A collection frame, for a chunk without blocks; it is marked when WALs are archived. -/
structure Collects (table : Table) (slotsEnabled : Bool) (version : ℕ) (state : ChunkState)
    (input : FrameInput) (layout : ChunkLayout) : Prop where
  isLayout : table.IsLayout version layout
  absent : chunkPresent state.presence = false
  records_eq : input.records = layout.resetRecords
  version_eq : input.schemaVersion = version
  tag_eq : input.tag = []
  user_slots : input.userBytes ≠ [] → slotsEnabled = true
  gc_slots : input.gc = true → slotsEnabled = true
  built : input.buildFrame = .ok input.frameBytes

namespace Collects

variable {table : Table} {slotsEnabled : Bool} {version : ℕ} {state : ChunkState}
  {input : FrameInput} {layout : ChunkLayout}

section

variable (h : Collects table slotsEnabled version state input layout)

include h

theorem parsedRecords_eq :
    input.parsedRecords
      = ⟨layout.resetSpans, [], if layout.hasVarColumns then some SortedMap.empty else none⟩ := by
  rw [FrameInput.parsedRecords, h.records_eq, ChunkLayout.resetRecords, ParsedRecords.addAll,
    foldl_append, ← ParsedRecords.addAll, ← ParsedRecords.addAll, ParsedRecords.addAll_spans]
  split <;> simp [ParsedRecords.addAll, ParsedRecords.add]

/-- After the frame replay has the empty state, whatever it had before. -/
theorem applyFrame_eq {replayed : ReplayState} (hversion : replayed.version = version)
    (hlength : replayed.bytes.length = layout.payloadBytes + bytesForBits layout.blockCount)
    (hvars : layout.hasVarColumns = false → replayed.vars = SortedMap.empty) :
    applyFrame input.parsed replayed = .ok (.of version layout.emptyState) := by
  have hafter : varsAfterFrame input.parsed replayed.vars = .ok SortedMap.empty := by
    unfold varsAfterFrame applyFrameVars FrameInput.parsed
    simp only [h.parsedRecords_eq]
    cases hhas : layout.hasVarColumns with
    | true => simp
    | false => simp [hvars hhas]
  have hspans : input.parsed.spans = layout.resetSpans := congrArg ParsedRecords.spans h.parsedRecords_eq
  rw [applyFrame, hafter, ok_bind, hspans, layout.copySpans_resetSpans hlength]
  exact congrArg Except.ok (by rw [← hversion]; rfl)

theorem fits (hpos : 0 < version) (hle : version ≤ table.version) :
    input.Fits table.geometry slotsEnabled layout where
  version_pos := h.version_eq ▸ hpos
  version_le := h.version_eq ▸ hle
  user_slots := h.user_slots
  gc_slots := h.gc_slots
  layoutAt_eq := h.version_eq ▸ h.isLayout.layoutAt_eq
  records_fit := by
    have hpresence := Table.presenceBitmapBytes_eq h.isLayout
    intro record hrecord
    rw [h.records_eq, ChunkLayout.resetRecords, ChunkLayout.resetSpans] at hrecord
    simp only [map_cons, map_nil, cons_append, nil_append, mem_cons] at hrecord
    rcases hrecord with rfl | rfl | hvars
    · refine ⟨?_, spanShapeValid_of_le _ _ ?_⟩ <;> simp [frameShape]
    · refine ⟨?_, spanShapeValid_of_ge _ _ le_rfl⟩
      simp [frameShape, hpresence]
    · split at hvars
      · rename_i hhas
        obtain rfl := mem_singleton.mp hvars
        exact ⟨hhas, Nat.zero_le _, fun e he => absurd he not_mem_nil⟩
      · exact absurd hvars not_mem_nil
  gc_reset := by
    intro _
    have hpresence := Table.presenceBitmapBytes_eq h.isLayout
    have htag : input.tlvFields.haveTag = false := by
      rw [FrameInput.tlvFields, h.tag_eq]
      rfl
    rw [h.parsedRecords_eq, h.records_eq, htag]
    unfold isEmptyReset ChunkLayout.resetSpans ChunkLayout.resetRecords ChunkLayout.resetSpans
    cases hhas : layout.hasVarColumns <;> simp [frameShape, hhas, hpresence]

/-- A valid state without blocks has no text or bytes values. -/
theorem vars_eq_empty (hvalid : layout.ValidState state) : state.vars = SortedMap.empty := by
  apply SortedMap.ext
  refine eq_nil_iff_forall_not_mem.mpr fun entry hentry => ?_
  obtain ⟨_, hvar⟩ := hvalid.validVar hentry
  have habsent := h.absent
  rw [chunkPresent, any_eq_false] at habsent
  have hbit := hvar.present
  rw [getBit, getD_eq_getElem?_getD] at hbit
  cases hbyte : state.presence[entry.1.blockIndex.toNat / 8]? with
  | none =>
    rw [hbyte] at hbit
    simp at hbit
  | some byte =>
    have hzero : byte = 0 := by simpa using habsent byte (mem_of_getElem? hbyte)
    rw [hbyte, hzero] at hbit
    simp at hbit

/-- A collection frame leaves the empty state of the version. -/
theorem spec (hstate : table.StateAt version state) :
    table.StateAt version layout.emptyState ∧ input.Written table.geometry slotsEnabled
      ∧ applyFrame input.parsed (ReplayState.of version state)
        = .ok (ReplayState.of version layout.emptyState) := by
  obtain ⟨other, hother, hvalid⟩ := hstate.valid
  obtain rfl := h.isLayout.eq hother
  refine ⟨⟨hstate.version_pos, hstate.version_le, ⟨layout, hother, layout.validState_emptyState⟩,
    Nat.zero_le _⟩, ⟨(FrameInput.buildFrame_eq_ok h.built).1, layout,
      h.fits hstate.version_pos hstate.version_le⟩, h.applyFrame_eq rfl ?_ fun _ => ?_⟩
  · rw [ReplayState.of, length_append, hvalid.payload_length, hvalid.presence_padded.1]
  · exact h.vars_eq_empty hvalid

end

end Collects

end ChunkDb
