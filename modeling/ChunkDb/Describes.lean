/-
# Frames that describe a write

A write describes its change when its records hold spans that cover the bytes that
changed and the values that changed.  Such records fit the layout of the write, and
replaying their frame over the state before the write gives the state after it.
-/
import ChunkDb.Diff
import ChunkDb.Wal.ParseSpec

open SortedMap List

namespace ChunkDb

open ChunkVars

/-- The records of an update that gave `vars`: one replacement, or one for each change. -/
def VarUpdate.records (update : VarUpdate) (vars : ChunkVars) : List WalRecord :=
  if update.replace.isSome then [.varReplace vars] else update.changes.map WalRecord.ofChange

/-- An update that turns `before` into `after`, and changes something wherever it says so. -/
structure VarUpdate.Gives (update : VarUpdate) (before after : ChunkVars) : Prop where
  replaced : ∀ vars ∈ update.replace, vars = after ∧ update.changes = [] ∧ before ≠ after
  merged : update.replace = none →
    ∃ h : KeysAscending update.changes, after = SortedMap.merge before update.changes h
  real : ∀ change ∈ update.changes, before.find change.1 ≠ change.2

namespace VarUpdate.Gives

variable {update : VarUpdate} {before after : ChunkVars}

theorem varUpdateRecords_eq (h : update.Gives before after) :
    varUpdateRecords after update = update.records after := by
  unfold varUpdateRecords records
  split
  · rfl
  · rename_i hreplace
    obtain ⟨hascending, rfl⟩ := h.merged (by simpa using hreplace)
    apply map_congr_left
    rintro ⟨key, value⟩ hmem
    rw [find_merge before hascending hmem]
    cases value <;> rfl

end VarUpdate.Gives

theorem checkChanges_real {vars : ChunkVars} {last : Option VarKey} {changes : List VarChange}
    (h : checkChanges vars last changes = .ok ()) :
    ∀ change ∈ changes, vars.find change.1 ≠ change.2 := by
  induction changes generalizing last with
  | nil => simp
  | cons change changes ih =>
    simp only [checkChanges, require_bind] at h
    rintro other (_ | ⟨_, hother⟩)
    · exact h.2.1
    · exact ih h.2.2 other hother

/-- What an update that was applied gives; a replacement has to be of other values. -/
theorem updateVars_gives {before after : ChunkVars} {update : VarUpdate}
    (h : updateVars before update = .ok after)
    (hreplace : ∀ vars ∈ update.replace, before ≠ vars) : update.Gives before after := by
  obtain ⟨changes, replacement⟩ := update
  unfold updateVars at h
  split at h
  · rename_i hempty
    simp only [VarUpdate.isEmpty, Bool.and_eq_true, decide_eq_true_eq, Option.isNone_iff_eq_none]
      at hempty
    obtain ⟨rfl, rfl⟩ := hempty
    cases h
    exact ⟨by simp, fun _ => ⟨List.Pairwise.nil, rfl⟩, by simp⟩
  · rcases applyVarUpdate_eq_ok h with ⟨hsome, hnil⟩ | ⟨hnone, hmerge⟩
    · dsimp only at hsome hnil hreplace
      subst hsome hnil
      refine ⟨?_, by simp, by simp⟩
      intro vars hvars
      cases hvars
      exact ⟨rfl, rfl, hreplace _ rfl⟩
    · dsimp only at hnone
      subst hnone
      refine ⟨by simp, fun _ => hmerge, ?_⟩
      simp only [applyVarUpdate, check_bind_eq_ok] at h
      exact checkChanges_real h.1

/-! ## The frame of a write -/

/-- What a write is to have done: its records are the spans of ranges that hold every byte
it changed and the records of its value changes, and the state it leaves is valid. -/
structure Mutated.Describes (layout : ChunkLayout) (before : ChunkState) (m : Mutated)
    (payloadRanges presenceRanges : List (ℕ × ℕ)) (update : VarUpdate) : Prop where
  records_eq : m.records
    = (spansOf m.state.payload 0 payloadRanges
        ++ spansOf m.state.presence layout.payloadBytes presenceRanges).map
          (fun span => WalRecord.span span.1 span.2)
      ++ update.records m.state.vars
  payload_covers : Covers before.payload m.state.payload payloadRanges
  presence_covers : Covers before.presence m.state.presence presenceRanges
  vars_given : update.Gives before.vars m.state.vars
  valid : layout.ValidState m.state
  size_le : m.state.vars.encodedSize ≤ kVarMaxChunkBytesLimit

theorem ParsedRecords.addAll_spans (records : ParsedRecords) (spans : List (ℕ × Bytes)) :
    records.addAll (spans.map fun span => WalRecord.span span.1 span.2)
      = { records with spans := records.spans ++ spans } := by
  induction spans generalizing records with
  | nil => simp [addAll]
  | cons span spans ih =>
    rw [map_cons, addAll, foldl_cons, ← addAll, ih]
    simp [add]

theorem ParsedRecords.addAll_changes (records : ParsedRecords) (changes : List VarChange) :
    records.addAll (changes.map WalRecord.ofChange)
      = { records with varOps := records.varOps ++ changes } := by
  induction changes generalizing records with
  | nil => simp [addAll]
  | cons change changes ih =>
    obtain ⟨key, value⟩ := change
    rw [map_cons, addAll, foldl_cons, ← addAll, ih]
    cases value <;> simp [WalRecord.ofChange, add]

theorem ParsedRecords.addAll_records (spans : List (ℕ × Bytes)) (update : VarUpdate)
    (vars : ChunkVars) :
    ParsedRecords.addAll ⟨[], [], none⟩
        (spans.map (fun span => WalRecord.span span.1 span.2) ++ update.records vars)
      = if update.replace.isSome then ⟨spans, [], some vars⟩ else ⟨spans, update.changes, none⟩ := by
  rw [addAll, foldl_append, ← addAll, ← addAll, addAll_spans, VarUpdate.records]
  split
  · simp [addAll, add]
  · rw [addAll_changes]
    rfl

theorem ChunkVars.assign_of_lt {vars : ChunkVars} {key : VarKey} {value : Bytes}
    (h : ChunkVars.encodedSize (SortedMap.merge vars [(key, some value)] (keysAscending_singleton _))
      < 2 ^ 32) :
    vars.assign key value
      = .ok (SortedMap.merge vars [(key, some value)] (keysAscending_singleton _)) := by
  have hweight : encodedSize (SortedMap.merge vars [(key, some value)] (keysAscending_singleton _))
      + vars.bytesAt key = vars.encodedSize + (kVarEntryHeaderBytes + value.length) := by
    have := weight_merge entryBytes vars [(key, some value)] (keysAscending_singleton _)
    simpa [weight, put, entryBytes, bytesAt, encodedSize] using this
  have hle : vars.bytesAt key ≤ vars.encodedSize := by
    have := weight_find_le entryBytes vars [(key, some value)] (keysAscending_singleton _)
    simpa [bytesAt, encodedSize] using this
  unfold assign
  rw [require_of (by omega)]
  exact congrArg Except.ok (assign_eq_merge vars key value)

/-- The value records of a frame are merged into any values. -/
theorem varsAfterFrame_merge {frame : ParsedFrame} {changes : List VarChange} (before : ChunkVars)
    (hascending : KeysAscending changes)
    (hsize : ChunkVars.encodedSize (SortedMap.merge before changes hascending) < 2 ^ 32)
    (hops : frame.varOps = changes) (hreplace : frame.varReplace = none) :
    varsAfterFrame frame before = .ok (SortedMap.merge before changes hascending) := by
  unfold varsAfterFrame applyFrameVars
  rw [hops, hreplace]
  -- one change has its own way, more are merged
  cases changes with
  | nil => rfl
  | cons first rest =>
    obtain ⟨key, value⟩ := first
    cases rest with
    | nil =>
      cases value with
      | some value => exact assign_of_lt hsize
      | none => exact congrArg Except.ok (remove_eq_merge before key)
    | cons second rest =>
      cases value with
      | some value => exact merge_of_lt before _ hascending hsize
      | none => exact merge_of_lt before _ hascending hsize

/-- A frame that replaces the values. -/
theorem varsAfterFrame_replace {frame : ParsedFrame} {vars : ChunkVars} (before : ChunkVars)
    (hreplace : frame.varReplace = some vars) : varsAfterFrame frame before = .ok vars := by
  unfold varsAfterFrame applyFrameVars
  rw [hreplace]
  simp

/-- The value records of a frame do what the update did. -/
theorem VarUpdate.Gives.varsAfterFrame_eq {update : VarUpdate} {before after : ChunkVars}
    (h : update.Gives before after) (hsize : after.encodedSize < 2 ^ 32) {frame : ParsedFrame}
    (hframe : (frame.varOps, frame.varReplace)
      = if update.replace.isSome then ([], some after) else (update.changes, none)) :
    varsAfterFrame frame before = .ok after := by
  cases hreplace : update.replace with
  | some vars =>
    rw [hreplace, Option.isSome_some, if_pos rfl, Prod.mk.injEq] at hframe
    exact varsAfterFrame_replace before hframe.2
  | none =>
    obtain ⟨hascending, rfl⟩ := h.merged hreplace
    rw [hreplace, Option.isSome_none, if_neg (by simp), Prod.mk.injEq] at hframe
    exact varsAfterFrame_merge before hascending hsize hframe.1 hframe.2

/-- A valid value makes a layout one with text or bytes columns. -/
theorem ChunkLayout.ValidVar.hasVarColumns {layout : ChunkLayout} {presence : Bytes} {column : Column}
    {entry : VarKey × Bytes} (h : layout.ValidVar presence column entry) :
    layout.hasVarColumns = true := by
  unfold ChunkLayout.hasVarColumns
  rw [any_eq_true]
  refine ⟨column, h.mem, ?_⟩
  have := h.isVar
  simpa using this

theorem spanShapeValid_of_le {finish payloadBoundary : ℕ} (byteOffset stateSize : ℕ)
    (h : finish ≤ payloadBoundary) :
    spanShapeValid byteOffset finish payloadBoundary stateSize = true := by
  simp [spanShapeValid, h]

theorem spanShapeValid_of_ge {byteOffset payloadBoundary : ℕ} (finish stateSize : ℕ)
    (h : payloadBoundary ≤ byteOffset) :
    spanShapeValid byteOffset finish payloadBoundary stateSize = true := by
  simp [spanShapeValid, h]

/-- What a frame has to know of a layout's state. -/
def ChunkLayout.shape (layout : ChunkLayout) : FrameShape where
  payloadBoundary := layout.payloadBytes
  stateSize := layout.payloadBytes + bytesForBits layout.blockCount
  blockCount := layout.blockCount
  varsEnabled := layout.hasVarColumns
  maySkipUnknown := false

namespace Mutated.Describes

variable {layout : ChunkLayout} {before : ChunkState} {m : Mutated}
  {payloadRanges presenceRanges : List (ℕ × ℕ)} {update : VarUpdate}

section

variable (h : m.Describes layout before payloadRanges presenceRanges update)

include h

/-- The value records of a write are about blocks of the chunk, in a table that has them. -/
theorem fits_update (hbefore : layout.ValidState before) {record : WalRecord}
    (hrecord : record ∈ update.records m.state.vars) : layout.shape.Fits record := by
  -- an entry of either state is valid in it
  have hentry : ∀ key value, (key, value) ∈ before.vars.entries ∨ (key, value) ∈ m.state.vars.entries →
      layout.hasVarColumns = true ∧ key.blockIndex.toNat < layout.blockCount := by
    rintro key value (hmem | hmem)
    · obtain ⟨column, hvalid⟩ := hbefore.validVar hmem
      exact ⟨hvalid.hasVarColumns, hvalid.block_lt⟩
    · obtain ⟨column, hvalid⟩ := h.valid.validVar hmem
      exact ⟨hvalid.hasVarColumns, hvalid.block_lt⟩
  unfold VarUpdate.records at hrecord
  split at hrecord
  · rename_i hsome
    obtain rfl := mem_singleton.mp hrecord
    obtain ⟨vars, hvars⟩ := Option.isSome_iff_exists.mp hsome
    have hne := (h.vars_given.replaced vars hvars).2.2
    refine ⟨?_, h.size_le, fun e he => (hentry e.1 e.2 (.inr he)).2⟩
    by_contra hnone
    apply hne
    apply ext_mem
    rintro ⟨key, value⟩
    constructor
    · exact fun he => absurd (hentry key value (.inl he)).1 hnone
    · exact fun he => absurd (hentry key value (.inr he)).1 hnone
  · rename_i hnone
    obtain ⟨⟨key, value⟩, hmem, rfl⟩ := mem_map.mp hrecord
    have hreal := h.vars_given.real _ hmem
    cases value with
    | some value =>
      obtain ⟨hascending, hafter⟩ := h.vars_given.merged (by simpa using hnone)
      refine hentry key value (.inr ?_)
      rw [hafter]
      exact (mem_merge _ _ _ _ _).mpr (.inl hmem)
    | none =>
      obtain ⟨old, hold⟩ := Option.ne_none_iff_exists'.mp hreal
      exact hentry key old (.inl ((find_eq_some_iff _ _ _).mp hold))

/-- The records of a write fit the layout it was made in. -/
theorem fits (hbefore : layout.ValidState before) :
    ∀ record ∈ m.records, layout.shape.Fits record := by
  have hpayload := h.valid.payload_length
  have hpresence := h.valid.presence_padded.1
  intro record hrecord
  rw [h.records_eq, map_append] at hrecord
  rcases mem_append.mp hrecord with hspan | hvar
  · rcases mem_append.mp hspan with hspan | hspan
    · obtain ⟨span, hmem, rfl⟩ := mem_map.mp hspan
      obtain ⟨r, hr, rfl⟩ := mem_map.mp hmem
      have hin := h.payload_covers.inside r hr
      have hlen := length_spansOf h.payload_covers hr
      refine ⟨?_, spanShapeValid_of_le _ _ ?_⟩
      · simp only [ChunkLayout.shape, hlen]
        omega
      · simp only [ChunkLayout.shape, hlen]
        omega
    · obtain ⟨span, hmem, rfl⟩ := mem_map.mp hspan
      obtain ⟨r, hr, rfl⟩ := mem_map.mp hmem
      have hin := h.presence_covers.inside r hr
      have hlen := length_spansOf h.presence_covers hr
      refine ⟨?_, spanShapeValid_of_ge _ _ (Nat.le_add_right _ _)⟩
      simp only [ChunkLayout.shape, hlen]
      omega
  · exact h.fits_update hbefore hvar

/-- What is parsed of the frame of a write. -/
theorem parsed_eq {input : FrameInput} (hinput : input.records = m.records) :
    input.parsed.spans = spansOf m.state.payload 0 payloadRanges
        ++ spansOf m.state.presence m.state.payload.length presenceRanges
      ∧ (input.parsed.varOps, input.parsed.varReplace)
        = if update.replace.isSome then ([], some m.state.vars) else (update.changes, none) := by
  have hparsed : input.parsedRecords = if update.replace.isSome
      then ⟨spansOf m.state.payload 0 payloadRanges
        ++ spansOf m.state.presence layout.payloadBytes presenceRanges, [], some m.state.vars⟩
      else ⟨spansOf m.state.payload 0 payloadRanges
        ++ spansOf m.state.presence layout.payloadBytes presenceRanges, update.changes, none⟩ := by
    rw [FrameInput.parsedRecords, hinput, h.records_eq, ParsedRecords.addAll_records]
  rw [h.valid.payload_length]
  simp only [FrameInput.parsed, hparsed]
  constructor <;> split <;> rfl

/-- Replaying the frame of a write over the state the write found gives the state it left. -/
theorem applyFrame_eq {input : FrameInput} (hinput : input.records = m.records) (version : ℕ) :
    applyFrame input.parsed (ReplayState.of version before) = .ok (ReplayState.of version m.state) := by
  obtain ⟨hspans, hframe⟩ := h.parsed_eq hinput
  have hvars : varsAfterFrame input.parsed before.vars = .ok m.state.vars :=
    h.vars_given.varsAfterFrame_eq (h.size_le.trans_lt (by decide)) hframe
  unfold applyFrame
  rw [show (ReplayState.of version before).vars = before.vars from rfl, hvars, ok_bind,
    hspans, show (ReplayState.of version before).bytes = before.payload ++ before.presence from rfl,
    copySpans_spansOf h.payload_covers h.presence_covers]
  rfl

end

end Mutated.Describes

end ChunkDb
