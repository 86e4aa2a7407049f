/-
# A state carried through several schema versions

`BringToCurrentSchema` (`chunk_format.cpp`) and replay's `move_state_to` translate a
state one version at a time.  `translateSteps` is that loop; its specification
follows from the one of a single step, as long as every step meets `StepFits` in the
state it starts from.
-/
import ChunkDb.TranslateSpec

open ByteBits List

namespace ChunkDb

/-- `count` versions further, one `TranslateChunk` at a time. -/
def translateSteps (geometry : Geometry) : ℕ → ℕ → ChunkState → Fallible ChunkState
  | 0, _, state => .ok state
  | count + 1, version, state => do
    let source ← geometry.layoutAt version
    let target ← geometry.layoutAt (version + 1)
    let state ← translateChunk source target state
    translateSteps geometry count (version + 1) state

/-- `BringToCurrentSchema`; version 0 is the empty state of no image. -/
def bringToCurrentSchema (geometry : Geometry) (version : ℕ) (state : ChunkState) :
    Fallible ChunkState :=
  if version = 0 then
    .ok { state with payload := List.replicate geometry.layout.payloadBytes 0
                     vars := SortedMap.empty }
  else translateSteps geometry (geometry.layout.schema.version - version) version state

/-- Translating in two goes is translating in one. -/
theorem translateSteps_add (geometry : Geometry) (first second version : ℕ) (state : ChunkState) :
    translateSteps geometry (first + second) version state
      = (translateSteps geometry first version state
          >>= translateSteps geometry second (version + first)) := by
  induction first generalizing version state with
  | zero => simp [translateSteps]
  | succ first ih =>
    rw [Nat.add_right_comm, translateSteps, translateSteps]
    simp only [bind_assoc, ih, Nat.add_assoc, Nat.add_comm 1]

/-! ## What every step needs -/

/-- A step from `version` on keeps every value: an exact narrowing's values fit, and what
a new column puts in the present blocks stays within the limit of a chunk's values. -/
structure StepFits (geometry : Geometry) (version : ℕ) (state : ChunkState) : Prop where
  narrowing : ∀ source target, geometry.layoutAt version = .ok source →
    geometry.layoutAt (version + 1) = .ok target → NarrowingFits source target state
  room : ∀ source target, geometry.layoutAt version = .ok source →
    geometry.layoutAt (version + 1) = .ok target →
    state.vars.encodedSize + addedBytes source target state.presence ≤ kVarMaxChunkBytesLimit

namespace Table

variable {table : Table}

theorem blockCount_le (table : Table) : table.blockCount ≤ 2 ^ 32 := by
  have hchecked := table.geometry.checked
  unfold GeometryConfig.check requireAtMost at hchecked
  simp only [require_bind] at hchecked
  obtain ⟨_, _, _, _, _, _, _, _, hcount, _⟩ := hchecked
  exact hcount.trans (by decide)

/-- One version further. -/
theorem translateSteps_one {version : ℕ} {source : ChunkLayout} {state : ChunkState}
    (hpos : 0 < version) (hlt : version < table.version) (hsource : table.IsLayout version source)
    (hstate : source.ValidState state) (hsize : state.vars.encodedSize ≤ kVarMaxChunkBytesLimit)
    (hfits : StepFits table.geometry version state) :
    ∃ target next, table.IsLayout (version + 1) target ∧ target.ValidState next
      ∧ next.presence = state.presence ∧ next.vars.encodedSize ≤ kVarMaxChunkBytesLimit
      ∧ translateSteps table.geometry 1 version state = .ok next := by
  obtain ⟨target, htarget⟩ := table.exists_layout version.succ_pos hlt
  have hlimit : kVarMaxChunkBytesLimit < 2 ^ 32 := by decide
  have hroom := hfits.room source target hsource.layoutAt_eq htarget.layoutAt_eq
  obtain ⟨next, hvalid, hpresence, hle, _, htranslate⟩ := translateChunk_spec
    (hsource.adjacent hpos hlt htarget) (hsource.blockCount_eq.trans htarget.blockCount_eq.symm)
    (htarget.blockCount_eq.trans_le table.blockCount_le) hstate
    (hfits.narrowing source target hsource.layoutAt_eq htarget.layoutAt_eq) (by omega)
  rw [if_pos (by omega)] at htranslate
  refine ⟨target, next, htarget, hvalid, hpresence, hle.trans hroom, ?_⟩
  simp only [translateSteps, hsource.layoutAt_eq, htarget.layoutAt_eq, htranslate, ok_bind]

end Table

/-! ## The empty chunk -/

/-- A chunk of the layout with no block. -/
def ChunkLayout.emptyState (layout : ChunkLayout) : ChunkState :=
  ⟨List.replicate layout.payloadBytes 0, List.replicate (bytesForBits layout.blockCount) 0,
    SortedMap.empty⟩

theorem presentBlocks_zeros (blockCount n : ℕ) :
    presentBlocks blockCount (List.replicate n 0) = [] := by
  refine filter_eq_nil_iff.mpr fun block _ => ?_
  rw [getBit_zeros]
  exact Bool.false_ne_true

theorem copyInto_zeros {offset n m : ℕ} (h : offset + m ≤ n) :
    copyInto (List.replicate n 0) offset (List.replicate m 0) = List.replicate n 0 := by
  simp only [copyInto, take_replicate, drop_replicate, length_replicate, replicate_append_replicate]
  congr 1
  omega

/-- Zeros stay zeros where no block is present. -/
theorem payloadInvariant_zeros (target : ChunkLayout) (n m : ℕ) :
    PayloadInvariant target (List.replicate n 0) (List.replicate m 0)
      (fun data => data = List.replicate target.payloadBytes 0) where
  add _ _ _ _ _ hblock _ := by
    rw [presentBlocks_zeros] at hblock
    exact absurd hblock not_mem_nil
  write _ _ _ _ _ _ _ hblock _ _ := by
    rw [presentBlocks_zeros] at hblock
    exact absurd hblock not_mem_nil
  copy offset first size data hle hdata := by
    rw [hdata, drop_replicate, take_replicate]
    exact copyInto_zeros (by omega)

theorem ChunkLayout.validState_emptyState (layout : ChunkLayout) :
    layout.ValidState layout.emptyState :=
  ⟨length_replicate, ⟨length_replicate, fun i _ => getBit_zeros _ i⟩, rfl⟩

theorem ChunkVars.eq_empty_of_encodedSize {vars : ChunkVars} (h : vars.encodedSize = 0) :
    vars = SortedMap.empty := by
  apply SortedMap.ext
  cases hentries : vars.entries with
  | nil => rfl
  | cons entry rest =>
    have hentry : entry ∈ vars.entries := by
      rw [hentries]
      exact mem_cons_self
    have hle := ChunkVars.encodedSize_le_of_mem hentry
    rw [h] at hle
    simp [ChunkVars.entryBytes, kVarEntryHeaderBytes] at hle

namespace Table

variable {table : Table}

/-- The empty chunk of one version translates to that of the next. -/
theorem translateSteps_emptyState_one {version : ℕ} {source target : ChunkLayout} (hpos : 0 < version)
    (hlt : version < table.version) (hsource : table.IsLayout version source)
    (htarget : table.IsLayout (version + 1) target) :
    translateSteps table.geometry 1 version source.emptyState = .ok target.emptyState := by
  have hblocks : source.blockCount = target.blockCount :=
    hsource.blockCount_eq.trans htarget.blockCount_eq.symm
  have hfits : NarrowingFits source target source.emptyState := by
    intro index before after _ _ _ _ _
    constructor
    · intro fixed _ block hblock
      rw [ChunkLayout.emptyState, presentBlocks_zeros] at hblock
      exact absurd hblock not_mem_nil
    · intro e he
      exact absurd he not_mem_nil
  have hadded : addedBytes source target source.emptyState.presence = 0 := by
    have hnone : ∀ column, addedVars source target source.emptyState.presence column = [] := by
      intro column
      rw [addedVars, ChunkLayout.emptyState, presentBlocks_zeros, addVars]
      split
      · split <;> rfl
      · rfl
    rw [addedBytes, flatMap_eq_nil_iff.mpr (fun column _ => hnone column)]
    rfl
  obtain ⟨next, hvalid, hpresence, hle, _, htranslate⟩ := translateChunk_spec
    (hsource.adjacent hpos hlt htarget) hblocks
    (htarget.blockCount_eq.trans_le table.blockCount_le) source.validState_emptyState hfits
    (show 0 < 2 ^ 32 by decide)
  have hzero : next.vars.encodedSize = 0 := Nat.le_zero.mp (by rw [hadded] at hle; exact hle)
  rw [hzero, if_pos (by decide)] at htranslate
  have hpayload : next.payload = List.replicate target.payloadBytes 0 :=
    (PayloadInvariant.translateChunk (P := fun data => data = List.replicate target.payloadBytes 0)
      (payloadInvariant_zeros target _ _) rfl htranslate).1
  have hnext : next = target.emptyState := by
    obtain ⟨payload, presence, vars⟩ := next
    obtain rfl := ChunkVars.eq_empty_of_encodedSize hzero
    simp only [ChunkLayout.emptyState, ChunkState.mk.injEq, and_true] at hpayload hpresence ⊢
    exact ⟨hpayload, by rw [hpresence, hblocks]⟩
  simp only [translateSteps, hsource.layoutAt_eq, htarget.layoutAt_eq, htranslate, ok_bind, hnext]

theorem translateSteps_emptyState (count : ℕ) {version : ℕ} {source target : ChunkLayout}
    (hpos : 0 < version) (hle : version + count ≤ table.version)
    (hsource : table.IsLayout version source) (htarget : table.IsLayout (version + count) target) :
    translateSteps table.geometry count version source.emptyState = .ok target.emptyState := by
  induction count generalizing version source with
  | zero => rw [hsource.eq htarget, translateSteps]
  | succ count ih =>
    obtain ⟨middle, hmiddle⟩ := table.exists_layout version.succ_pos (by omega)
    rw [Nat.add_comm count, translateSteps_add,
      translateSteps_emptyState_one hpos (by omega) hsource hmiddle, ok_bind]
    refine ih (by omega) (by omega) hmiddle ?_
    rwa [Nat.add_assoc, Nat.add_comm 1]

end Table

end ChunkDb
