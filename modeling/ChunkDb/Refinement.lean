/-
# Writes and the frames built for them

A state of a chunk at one of its table's versions (`Table.StateAt`), and a write on it with the
frame it logs (`Commits`): replay accepts the frame, and it turns the state before the write
into the one after it.  The records of a difference of two states do the same
(`Table.StateAt.diff_exact`).
-/
import ChunkDb.MutationSpec
import ChunkDb.Wal.CrashPrefix

open ByteBits List

namespace ChunkDb

/-! ## Writes and their frames -/

/-- A state of a chunk at one of the table's versions, as images and writes have them. -/
structure Table.StateAt (table : Table) (version : ℕ) (state : ChunkState) : Prop where
  version_pos : 0 < version
  version_le : version ≤ table.version
  valid : ∃ layout, table.IsLayout version layout ∧ layout.ValidState state
  size_le : state.vars.encodedSize ≤ kVarMaxChunkBytesLimit

/-- A write on a chunk at `version` and the frame built for it. -/
structure Commits (table : Table) (slotsEnabled : Bool) (version : ℕ) (state : ChunkState)
    (input : FrameInput) (after : ChunkState) : Prop where
  write : ∃ (writer : Writer) (mutation : Mutation), table.IsLayout version writer.layout
    ∧ mutation.InChunk table.blockCount
    ∧ mutation.run writer state = .ok (some ⟨after, input.records⟩)
  version_eq : input.schemaVersion = version
  user_slots : input.userBytes ≠ [] → slotsEnabled = true
  not_gc : input.gc = false
  built : input.buildFrame = .ok input.frameBytes

variable {table : Table} {version : ℕ} {layout : ChunkLayout} {before after state : ChunkState}
  {replayer : Replayer}

/-- The frame of a change is one the table's replay takes. -/
theorem Mutated.Describes.fits_table {slotsEnabled : Bool} {m : Mutated}
    {payloadRanges presenceRanges : List (ℕ × ℕ)} {update : VarUpdate}
    (h : m.Describes layout before payloadRanges presenceRanges update)
    (hbefore : table.StateAt version before) (hlayout : table.IsLayout version layout)
    {input : FrameInput} (hinput : input.records = m.records)
    (hversion : input.schemaVersion = version) (huser : input.userBytes ≠ [] → slotsEnabled = true)
    (hgc : input.gc = false) : input.Fits table.geometry slotsEnabled layout := by
  obtain ⟨_, hlayout', hvalid⟩ := hbefore.valid
  obtain rfl := hlayout.eq hlayout'
  have hshape : layout.shape = frameShape table.geometry layout false := by
    rw [ChunkLayout.shape, frameShape, Geometry.presenceBitmapBytes, hlayout.blockCount_eq]
    rfl
  exact {
    version_pos := hversion ▸ hbefore.version_pos
    version_le := hversion ▸ hbefore.version_le
    user_slots := huser
    gc_slots := by simp [hgc]
    layoutAt_eq := hversion ▸ hlayout.layoutAt_eq
    records_fit := hshape ▸ hinput ▸ h.fits hvalid
    gc_reset := by simp [hgc] }

/-- A frame with these records is parsed, and turns the one state into the other. -/
def Table.Replays (table : Table) (version : ℕ) (before after : ChunkState)
    (records : List WalRecord) : Prop :=
  ∀ (input : FrameInput) (slotsEnabled maySkipUnknown : Bool) (rest : Bytes),
    input.records = records → input.schemaVersion = version →
    (input.userBytes ≠ [] → slotsEnabled = true) → input.gc = false →
    input.buildFrame = .ok input.frameBytes →
    ∃ frame, parseFrame table.geometry maySkipUnknown slotsEnabled (input.frameBytes ++ rest)
        = .ok (.ok frame)
      ∧ applyFrame frame (ReplayState.of version before) = .ok (ReplayState.of version after)

theorem Mutated.Describes.replays {m : Mutated} {payloadRanges presenceRanges : List (ℕ × ℕ)}
    {update : VarUpdate} (h : m.Describes layout before payloadRanges presenceRanges update)
    (hbefore : table.StateAt version before) (hlayout : table.IsLayout version layout) :
    table.Replays version before m.state m.records := by
  intro input slotsEnabled maySkipUnknown rest hinput hversion huser hgc hbuilt
  have hfits := h.fits_table hbefore hlayout hinput hversion huser hgc
  exact ⟨input.parsed, FrameInput.parseFrame_frameBytes (FrameInput.buildFrame_eq_ok hbuilt).1 hfits
    table.geometry.version_lt maySkipUnknown rest, h.applyFrame_eq hinput version⟩

namespace Commits

variable {table : Table} {slotsEnabled : Bool} {version : ℕ} {state after : ChunkState}
  {input : FrameInput}

/-- A write leaves a state of the same version, its frame is one replay accepts, and the frame
turns the state before the write into the one after it. -/
theorem spec (h : Commits table slotsEnabled version state input after)
    (hstate : table.StateAt version state) :
    table.StateAt version after ∧ input.Written table.geometry slotsEnabled
      ∧ applyFrame input.parsed (ReplayState.of version state)
        = .ok (ReplayState.of version after) := by
  obtain ⟨writer, mutation, hlayout, hblocks, hrun⟩ := h.write
  obtain ⟨layout, hlayout', hvalid⟩ := hstate.valid
  obtain rfl := hlayout.eq hlayout'
  obtain ⟨payloadRanges, presenceRanges, update, hdescribes⟩ := Mutation.run_described hvalid
    hstate.size_le (hlayout.blockCount_eq.trans_le table.blockCount_le)
    (hlayout.blockCount_eq ▸ hblocks) hrun
  have hfits := hdescribes.fits_table hstate hlayout rfl h.version_eq h.user_slots h.not_gc
  exact ⟨⟨hstate.version_pos, hstate.version_le, ⟨writer.layout, hlayout, hdescribes.valid⟩,
    hdescribes.size_le⟩, ⟨(FrameInput.buildFrame_eq_ok h.built).1, writer.layout, hfits⟩,
    hdescribes.applyFrame_eq rfl version⟩

end Commits

/-! ## Differences of two states -/

/-- Nothing is logged exactly when the states are equal. -/
theorem ChunkLayout.ValidState.diffRecords_eq_nil_iff (hbefore : layout.ValidState before)
    (hafter : layout.ValidState after) : layout.diffRecords before after = [] ↔ before = after := by
  have hpayload := diffRanges_eq_nil_iff (hbefore.payload_length.trans hafter.payload_length.symm)
  have hpresence := diffRanges_eq_nil_iff
    (hbefore.presence_padded.1.trans hafter.presence_padded.1.symm)
  unfold ChunkLayout.diffRecords diffSpans
  simp only [append_eq_nil_iff, map_eq_nil_iff, hpayload, hpresence, varDiff_eq_nil_iff]
  constructor
  · rintro ⟨⟨hp, hq⟩, hv⟩
    obtain ⟨_, _, _⟩ := before
    obtain rfl := hp
    obtain rfl := hq
    obtain rfl := hv
    rfl
  · rintro rfl
    exact ⟨⟨rfl, rfl⟩, rfl⟩

/-- The difference of two states of a version: its ranges are exact, its records turn the one
state into the other, in memory and as a frame that is parsed and applied, and there are none
exactly when the states are equal. -/
theorem Table.StateAt.diff_exact {table : Table} {version : ℕ} {before after : ChunkState}
    {layout : ChunkLayout} (hlayout : table.IsLayout version layout)
    (hbefore : table.StateAt version before) (hafter : table.StateAt version after) :
    ExactRanges before.payload after.payload (diffRanges before.payload after.payload)
      ∧ ExactRanges before.presence after.presence (diffRanges before.presence after.presence)
      ∧ copySpans (before.payload ++ before.presence)
          (spansOf after.payload 0 (diffLengths before.payload after.payload)
            ++ spansOf after.presence after.payload.length
                (diffLengths before.presence after.presence))
        = after.payload ++ after.presence
      ∧ SortedMap.merge before.vars (varDiff before.vars after.vars)
          (keysAscending_varDiff before.vars after.vars) = after.vars
      ∧ (∀ (input : FrameInput) (slotsEnabled maySkipUnknown : Bool) (rest : Bytes),
        input.records = layout.diffRecords before after → input.schemaVersion = version →
        (input.userBytes ≠ [] → slotsEnabled = true) → input.gc = false →
        input.buildFrame = .ok input.frameBytes →
        ∃ frame, parseFrame table.geometry maySkipUnknown slotsEnabled (input.frameBytes ++ rest)
            = .ok (.ok frame)
          ∧ applyFrame frame (ReplayState.of version before) = .ok (ReplayState.of version after))
      ∧ (layout.diffRecords before after = [] ↔ before = after) := by
  obtain ⟨_, hlayout', hvalid⟩ := hbefore.valid
  obtain rfl := hlayout.eq hlayout'
  obtain ⟨_, hlayout', hvalid'⟩ := hafter.valid
  obtain rfl := hlayout.eq hlayout'
  have hdescribes := hvalid.describes_diff hvalid' hafter.size_le
  refine ⟨exactRanges_diff hdescribes.payload_covers.length_eq,
    exactRanges_diff hdescribes.presence_covers.length_eq,
    copySpans_spansOf hdescribes.payload_covers hdescribes.presence_covers,
    merge_varDiff _ _, hdescribes.replays hbefore hlayout, hvalid.diffRecords_eq_nil_iff hvalid'⟩

theorem Table.StateAt.translateSteps_one (hstate : table.StateAt version state)
    (hlt : version < table.version) (hfits : StepFits table.geometry version state)
    (h : translateSteps table.geometry 1 version state = .ok after) :
    table.StateAt (version + 1) after := by
  obtain ⟨layout, hlayout, hvalid⟩ := hstate.valid
  obtain ⟨target, next, htarget, hnext, _, hsize, hok⟩ :=
    Table.translateSteps_one hstate.version_pos hlt hlayout hvalid hstate.size_le hfits
  cases h.symm.trans hok
  exact ⟨version.succ_pos, hlt, ⟨target, htarget, hnext⟩, hsize⟩

/-- Replay of one more frame: its state is moved to the version of the frame, and the frame gives
the state after it. -/
theorem Replayer.stateAfter_snoc {first replayed : ReplayState} {frames : List ParsedFrame}
    {input : FrameInput} (hafter : replayer.stateAfter first frames = .ok replayed)
    (hmove : bringStateTo replayer.geometry replayer.basePresence version replayed
      = .ok (ReplayState.of version state)) (hversion : input.schemaVersion = version)
    (happly : applyFrame input.parsed (ReplayState.of version state)
      = .ok (ReplayState.of version after)) (hnew : replayer.baseRevision < input.revision.toNat) :
    replayer.stateAfter first (frames ++ [input.parsed]) = .ok (ReplayState.of version after) := by
  have hskip : ¬ input.parsed.revision ≤ replayer.baseRevision := not_le.mpr hnew
  have hparsed : input.parsed.schemaVersion = version := hversion
  rw [Replayer.stateAfter_append, hafter, ok_bind, Replayer.stateAfter, if_neg hskip,
    Replayer.stateAfterFrame, hparsed, hmove, ok_bind, happly]
  rfl

/-! ## The ends of replay -/

theorem Table.IsLayout.eq_current (h : table.IsLayout table.version layout) :
    layout = table.geometry.layout :=
  Except.ok.inj (h.layoutAt_eq.symm.trans (if_pos rfl))

/-- A state of the current version is split into its parts as it was. -/
theorem splitChunkStateBytes_of {geometry : Geometry} (h : geometry.layout.ValidState state)
    (version : ℕ) :
    Replayer.splitChunkStateBytes geometry (ReplayState.of version state) = .ok state := by
  have hpadded := h.presence_padded
  rw [geometry.blockCount_eq] at hpadded
  have hlength : (ReplayState.of version state).bytes.length
      = geometry.layout.payloadBytes + geometry.presenceBitmapBytes := by
    rw [ReplayState.of, length_append, h.payload_length, hpadded.1]
    rfl
  rw [Replayer.splitChunkStateBytes, if_neg (not_not.mpr hlength),
    ReplayState.split_of h.payload_length]
  dsimp only
  rw [hpadded.mask_eq]

theorem initialState_of {base : ReplayBase} (h : table.StateAt base.version base.state) :
    initialState table.geometry base = .ok (ReplayState.of base.version base.state) := by
  obtain ⟨layout, hlayout, hvalid⟩ := h.valid
  have hpresence : base.state.presence.length = table.geometry.presenceBitmapBytes := by
    rw [hvalid.presence_padded.1, hlayout.blockCount_eq]
    rfl
  have hversion : base.version ≤ table.geometry.layout.schema.version := h.version_le
  rw [initialState, require_of hversion, ok_bind, if_neg h.version_pos.ne',
    hlayout.layoutAt_eq, ok_bind, require_of ⟨hvalid.payload_length, hpresence⟩]
  rfl

/-! ## A chunk that a new column fills -/

theorem getBit_replicate (n i : ℕ) : getBit (List.replicate n 0xFF) i = decide (i < 8 * n) := by
  have hbyte : ∀ k < 8, (0xFF : UInt8).toNat.testBit k = true := by decide
  rw [getBit, getD_eq_getElem?_getD, getElem?_replicate]
  by_cases h : i / 8 < n
  · rw [if_pos h, Option.getD_some, hbyte _ (Nat.mod_lt _ (by decide)), decide_eq_true (by omega)]
  · rw [if_neg h, decide_eq_false (by omega)]
    simp

theorem presentBlocks_replicate (n : ℕ) :
    (presentBlocks (8 * n) (List.replicate n 0xFF)).length = 8 * n := by
  have hall : presentBlocks (8 * n) (List.replicate n 0xFF) = List.range (8 * n) := by
    refine filter_eq_self.mpr fun block hblock => ?_
    rw [getBit_replicate, decide_eq_true (mem_range.mp hblock)]
  rw [hall, length_range]

/-- A chunk with every cell present, at level 0. -/
def fullState (n : ℕ) : ChunkState :=
  ⟨List.replicate (8 * n) 0, List.replicate n 0xFF, SortedMap.empty⟩

/-- The same chunk with the first cell at level 7. -/
def levelState (n : ℕ) : ChunkState :=
  ⟨copySpans (List.replicate (8 * n) 0) [(0, [7])], List.replicate n 0xFF, SortedMap.empty⟩

/-- The frame of a write of level 7 to the first cell. -/
def levelSetFrame : FrameInput where
  schemaVersion := 1
  tag := []
  user := none
  gc := false
  records := [.span 0 [7]]
  revision := 1
  commitTimeMs := 0

namespace CellsShape

variable (shape : CellsShape)

theorem narrowingFits (state : ChunkState) :
    NarrowingFits shape.cellsLayout shape.notedLayout state := by
  intro index before after _ _ _ hconversion
  have hnone : conversionOf shape.cellsLayout.schema shape.notedLayout.schema after.id
      = logicError ("column " ++ toString after.id.toNat
          ++ " changed its type without a recorded change") := rfl
  rw [hnone] at hconversion
  simp [logicError] at hconversion

/-- The notes put 72 bytes into every cell. -/
theorem addedBytes_noted (presence : Bytes) :
    addedBytes shape.cellsLayout shape.notedLayout presence
      = 72 * (presentBlocks shape.count presence).length := by
  have hlevel : ∀ column ∈ cellsSchema.columns,
      addedVars shape.cellsLayout shape.notedLayout presence column = [] := by
    intro column hcolumn
    obtain rfl := mem_singleton.mp hcolumn
    rfl
  have hnote : addedVars shape.cellsLayout shape.notedLayout presence noteColumn
      = (presentBlocks shape.count presence).map
          (fun block => (⟨2, UInt32.ofNat block⟩, some (List.replicate 60 0x2E))) := by
    rfl
  have hcolumns : shape.notedLayout.schema.columns = cellsSchema.columns ++ [noteColumn] := rfl
  rw [addedBytes, hcolumns, flatMap_append, flatMap_eq_nil_iff.mpr hlevel,
    flatMap_singleton, hnote, nil_append, map_map]
  have hbytes : ∀ block : ℕ, (changeBytes ∘ fun block : ℕ =>
      ((⟨2, UInt32.ofNat block⟩, some (List.replicate 60 0x2E)) : VarChange)) block = 72 :=
    fun block => rfl
  rw [map_congr_left (fun block _ => hbytes block), map_const', sum_replicate,
    smul_eq_mul, Nat.mul_comm]

variable {n : ℕ}

theorem stateAt_fullState (hn : shape.count = 8 * n) : shape.table.StateAt 1 (fullState n) where
  version_pos := Nat.one_pos
  version_le := by
    change 1 ≤ 2
    decide
  valid := by
    refine ⟨_, shape.isLayout_one, ?_, ⟨?_, fun i hi => ?_⟩, rfl⟩
    · rw [fullState, length_replicate, ← hn]
      rfl
    · change List.length (List.replicate n _) = bytesForBits shape.count
      rw [length_replicate, hn, bytesForBits]
      omega
    · change shape.count ≤ i at hi
      rw [fullState, getBit_replicate, decide_eq_false (by omega)]
  size_le := Nat.zero_le _

/-- A write of level 7 to the first cell of a full chunk. -/
theorem run_setBlock (n : ℕ) {limit : ℕ} (hlimit : limit ≤ kVarMaxChunkBytesLimit) :
    (Mutation.setBlock 0 [⟨"level", .uint 7⟩]).run ⟨shape.cellsLayout, limit, hlimit⟩
        (fullState (n + 1)) = .ok (some ⟨levelState (n + 1), [.span 0 [7]]⟩) := by
  have hprepare : BlockWrite.prepareSet shape.cellsLayout 0 [⟨"level", .uint 7⟩]
      = .ok ⟨[⟨⟨0, 8, 0, none⟩, false, [7]⟩], [], [0]⟩ := rfl
  have hpresent : getBit (fullState (n + 1)).presence 0 = true := by
    rw [fullState, getBit_replicate, decide_eq_true (by omega)]
  have hpresence : putBit (fullState (n + 1)).presence 0 true = (fullState (n + 1)).presence := by
    refine ext_getBit _ _ (length_putBit ..) fun i _ => ?_
    rw [getBit_putBit _ _ _ (by simp [fullState])]
    split
    · rename_i h
      rw [← h, hpresent]
    · rfl
  have hranges : BlockEdit.ranges 0 (fullState (n + 1)).payload ⟨⟨0, 8, 0, none⟩, false, [7]⟩
      = [(0, [7])] := rfl
  have hchanged : changedRanges (fullState (n + 1)).payload [(0, [7])] = [(0, [7])] := rfl
  rw [Mutation.run, Writer.setBlock, hprepare, ok_bind, if_pos hpresent, Writer.writeBlockColumns]
  have hsorted : ([] : List VarChange).mergeSort (fun a b => a.1 ≤ b.1) = [] := mergeSort_nil ..
  dsimp only
  rw [flatMap_singleton, hranges, hchanged, hpresence, hsorted]
  have hspan : presenceSpan shape.cellsLayout 0 (fullState (n + 1)).presence
      (fullState (n + 1)).presence = [] := if_pos rfl
  rw [hspan]
  rfl

theorem commits_fullState (hn : shape.count = 8 * n) :
    Commits shape.table false 1 (fullState n) levelSetFrame (levelState n) := by
  have hpos : 0 < shape.count := Nat.mul_pos shape.width_pos shape.height_pos
  obtain ⟨n, rfl⟩ : ∃ m, n = m + 1 := ⟨n - 1, by omega⟩
  exact {
    write := ⟨⟨shape.cellsLayout, kVarMaxChunkBytesLimit, le_rfl⟩,
      .setBlock 0 [⟨"level", .uint 7⟩], shape.isLayout_one, hpos, shape.run_setBlock n le_rfl⟩
    version_eq := rfl
    user_slots := by decide
    not_gc := rfl
    built := by decide +kernel }

theorem size_after_step (hn : shape.count = 8 * n) :
    (levelState n).vars.encodedSize
      + addedBytes shape.cellsLayout shape.notedLayout (levelState n).presence = 72 * (8 * n) := by
  change 0 + _ = _
  rw [shape.addedBytes_noted, hn, Nat.zero_add]
  exact congrArg (72 * ·) (presentBlocks_replicate n)

end CellsShape

/-- The difference of one level in a chunk of eight cells. -/
theorem diff_exact_eightShape :
    eightShape.cellsLayout.diffRecords (fullState 1) (levelState 1) = levelSetFrame.records
      ∧ ∃ frame, parseFrame eightShape.table.geometry false false (levelSetFrame.frameBytes ++ [])
            = .ok (.ok frame)
          ∧ applyFrame frame (ReplayState.of 1 (fullState 1))
            = .ok (ReplayState.of 1 (levelState 1)) := by
  have hbefore := eightShape.stateAt_fullState (show eightShape.count = 8 * 1 from rfl)
  have hafter :=
    ((eightShape.commits_fullState (show eightShape.count = 8 * 1 from rfl)).spec hbefore).1
  have hrecords : eightShape.cellsLayout.diffRecords (fullState 1) (levelState 1)
      = levelSetFrame.records := by decide +kernel
  obtain ⟨_, _, _, _, hframe, _⟩ := Table.StateAt.diff_exact eightShape.isLayout_one hbefore hafter
  exact ⟨hrecords, hframe levelSetFrame false false [] hrecords.symm rfl (by decide) rfl
    (by decide +kernel)⟩

end ChunkDb
