/-
# The payload a translation leaves

`PayloadInvariant` is a rule for `TranslateChunk`: what every single write to the new
payload keeps holds of the payload it leaves.  The first use of it is that the payload has
the size of the new layout.
-/
import ChunkDb.Translate

open ByteBits

namespace ChunkDb

/-! ## Sizes of single writes -/

theorem mem_presentBlocks {blockCount block : ℕ} {presence : Bytes} :
    block ∈ presentBlocks blockCount presence ↔ block < blockCount ∧ getBit presence block = true := by
  simp [presentBlocks]

/-- The array of a column of `target` is placed by the column. -/
theorem placedColumn_of_fixedColumnAt {target : ChunkLayout} {index : ℕ} {column : Column}
    (hcolumn : target.schema.columns[index]? = some column)
    {fixed : FixedColumn} (hfixed : target.fixedColumnAt index = some fixed) :
    PlacedColumn target.blockCount column target.payloadBytes fixed := by
  obtain ⟨column', hcolumn', hplaced⟩ := target.fixedColumnAt_eq_some hfixed
  obtain rfl : column = column' := Option.some.inj (hcolumn.symm.trans hcolumn')
  exact hplaced

theorem length_addFixed {column : Column} {fixed : FixedColumn} {blockCount payloadBytes block : ℕ}
    (hplaced : PlacedColumn blockCount column payloadBytes fixed) {next : Bytes} (hlen : next.length = payloadBytes) (hblock : block < blockCount) :
    (addFixed column fixed next block).length = payloadBytes := by
  have hwritten := length_writeValueBits next (fixed.values * 8 + block * fixed.width)
    column.defaultValue fixed.width (by rw [hlen]; exact value_bits_le hplaced.values_le hblock)
  unfold addFixed
  dsimp only
  split
  · split
    · rw [hwritten, hlen]
    · exact hlen
  · split
    · rw [length_putBit]
      split
      · rw [hwritten, hlen]
      · exact hlen
    · split
      · rw [hwritten, hlen]
      · exact hlen

theorem length_copyInto_take {next : Bytes} {size offset : ℕ} (hnext : next.length = size) (bytes : Bytes)
    {count : ℕ} (hle : offset + count ≤ size) :
    (copyInto next offset (bytes.take count)).length = size := by
  rw [length_copyInto, hnext]
  rw [hnext]
  exact le_trans (Nat.add_le_add_left (List.length_take_le _ _) _) hle

/-! ## What translation does to the payload -/

section Payload

variable {source target : ChunkLayout} {presence payload : Bytes} {vars : ChunkVars}

/-- What every write of a translation to the payload keeps: a default or a converted value in a
present block, and a copy of an array. -/
structure PayloadInvariant (target : ChunkLayout) (presence payload : Bytes) (P : Bytes → Prop) :
    Prop where
  add : ∀ column fixed block data, PlacedColumn target.blockCount column target.payloadBytes fixed →
    block ∈ presentBlocks target.blockCount presence → P data → P (addFixed column fixed data block)
  write : ∀ column fixed block value data written,
    PlacedColumn target.blockCount column target.payloadBytes fixed →
    block ∈ presentBlocks target.blockCount presence → P data →
    writeFixed column fixed data block value = .ok written → P written
  copy : ∀ offset first size data, offset + size ≤ target.payloadBytes → P data →
    P (copyInto data offset ((payload.drop first).take size))

namespace PayloadInvariant

variable {P : Bytes → Prop}

theorem convertFixed (hP : PayloadInvariant target presence payload P) {before column : Column}
    {conversion : Conversion} {oldFixed fixed : FixedColumn}
    (hplaced : PlacedColumn target.blockCount column target.payloadBytes fixed) (blocks : List ℕ)
    (hblocks : ∀ block ∈ blocks, block ∈ presentBlocks target.blockCount presence)
    {next converted : Bytes} (hnext : P next)
    (h : ChunkDb.convertFixed before column conversion oldFixed fixed payload blocks next
      = .ok converted) : P converted := by
  induction blocks generalizing next with
  | nil =>
    rw [← Except.ok.inj h]
    exact hnext
  | cons block blocks ih =>
    rw [ChunkDb.convertFixed] at h
    simp only [bind_eq_ok] at h
    obtain ⟨value, _, value', _, written, hwritten, h⟩ := h
    exact ih (fun other hother => hblocks other (List.mem_cons_of_mem _ hother))
      (hP.write _ _ _ _ _ _ hplaced (hblocks block List.mem_cons_self) hnext hwritten) h

theorem translateColumn (hP : PayloadInvariant target presence payload P) {column : Column}
    {index : ℕ} {next result : Bytes} {changes : List VarChange}
    (hcolumn : target.schema.columns[index]? = some column) (hnext : P next)
    (h : ChunkDb.translateColumn source target presence payload vars index column next
      = .ok (result, changes)) : P result := by
  unfold ChunkDb.translateColumn at h
  split at h
  · -- a column added since
    split at h
    · rwa [← (Prod.mk.inj (Except.ok.inj h)).1]
    · rename_i fixed hfixed
      rw [← (Prod.mk.inj (Except.ok.inj h)).1]
      exact List.foldlRecOn (motive := P) _ _ hnext fun data hdata block hblock =>
        hP.add _ _ _ _ (placedColumn_of_fixedColumnAt hcolumn hfixed) hblock hdata
  · split at h
    · simp at h
    · split at h
      · -- a column of another type
        obtain ⟨conversion, _, h⟩ := bind_eq_ok.mp h
        split at h
        · obtain ⟨_, _, h⟩ := bind_eq_ok.mp h
          rwa [← (Prod.mk.inj (Except.ok.inj h)).1]
        · rename_i fixed hfixed
          split at h
          · simp at h
          · obtain ⟨converted, hconverted, h⟩ := bind_eq_ok.mp h
            rw [← (Prod.mk.inj (Except.ok.inj h)).1]
            exact hP.convertFixed (placedColumn_of_fixedColumnAt hcolumn hfixed) _
              (fun _ hblock => hblock) hnext hconverted
      · -- a column of the same type
        split at h
        · rename_i fixed old hfixed hold
          have hplaced := placedColumn_of_fixedColumnAt hcolumn hfixed
          have hvalues := hP.copy _ old.values _ _ hplaced.values_le hnext
          dsimp only at h
          split at h
          · rename_i validity oldValidity hvalidity _
            rw [← (Prod.mk.inj (Except.ok.inj h)).1]
            exact hP.copy _ _ _ _ (hplaced.validity_le validity hvalidity) hvalues
          · rwa [← (Prod.mk.inj (Except.ok.inj h)).1]
        · rwa [← (Prod.mk.inj (Except.ok.inj h)).1]

theorem translateColumns (hP : PayloadInvariant target presence payload P) (columns : List Column)
    (index : ℕ) (hcolumns : ∀ i column, columns[i]? = some column →
      target.schema.columns[index + i]? = some column)
    {next result : Bytes} {changes : List VarChange} (hnext : P next)
    (h : ChunkDb.translateColumns source target presence payload vars index columns next
      = .ok (result, changes)) : P result := by
  induction columns generalizing index next result changes with
  | nil => rwa [← (Prod.mk.inj (Except.ok.inj h)).1]
  | cons column columns ih =>
    rw [ChunkDb.translateColumns] at h
    simp only [bind_eq_ok, Prod.exists] at h
    obtain ⟨written, _, hwritten, rest, _, hrest, h⟩ := h
    rw [← (Prod.mk.inj (Except.ok.inj h)).1]
    refine ih (index + 1) ?_ (hP.translateColumn (hcolumns 0 column rfl) hnext hwritten) hrest
    intro i other hother
    rw [Nat.add_assoc, Nat.add_comm 1]
    exact hcolumns (i + 1) other hother

/-- The payload of a translated chunk comes from the zeros by such writes. -/
theorem translateChunk {state next : ChunkState}
    (hP : PayloadInvariant target state.presence state.payload P)
    (hzeros : P (List.replicate target.payloadBytes 0))
    (h : ChunkDb.translateChunk source target state = .ok next) :
    P next.payload ∧ next.presence = state.presence := by
  unfold ChunkDb.translateChunk at h
  split at h
  · simp [invalidArgument] at h
  · simp only [bind_eq_ok, Prod.exists] at h
    obtain ⟨written, _, hwritten, vars, _, h⟩ := h
    cases h
    refine ⟨hP.translateColumns _ 0 (fun i column hcolumn => ?_) hzeros hwritten, rfl⟩
    rwa [Nat.zero_add]

end PayloadInvariant

/-- Every write of a translation keeps the size. -/
theorem payloadInvariant_length (target : ChunkLayout) (presence payload : Bytes) :
    PayloadInvariant target presence payload (fun data => data.length = target.payloadBytes) where
  add _ _ _ _ hplaced hblock hdata :=
    length_addFixed hplaced hdata (mem_presentBlocks.mp hblock).1
  write _ fixed block value data written hplaced hblock hdata h := by
    unfold writeFixed at h
    split at h
    · rw [← Except.ok.inj h, hdata]
    · obtain ⟨encoded, _, h⟩ := bind_eq_ok.mp h
      have hwritten := length_writeValueBits data (fixed.values * 8 + block * fixed.width) encoded
        fixed.width (by
          rw [hdata]
          exact value_bits_le hplaced.values_le (mem_presentBlocks.mp hblock).1)
      rw [← Except.ok.inj h]
      split
      · rw [hwritten, hdata]
      · rw [length_putBit, hwritten, hdata]
  copy _ first _ _ hle hdata := length_copyInto_take hdata (payload.drop first) hle

theorem length_translateChunk {state next : ChunkState}
    (h : translateChunk source target state = .ok next) :
    next.payload.length = target.payloadBytes ∧ next.presence = state.presence :=
  (payloadInvariant_length target _ _).translateChunk List.length_replicate h

end Payload

end ChunkDb
