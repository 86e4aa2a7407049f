/-
# What a translation that returns says

`translateChunk_spec` says when a state translates.  Here is the other direction: a
translation that returned has found its exact narrowings to fit
(`narrowingFits_of_translateChunk`), so a state is brought to a later version exactly when
it passes every step on the way (`Table.translateSteps_iff_pass`).
-/
import ChunkDb.Refinement

open List

namespace ChunkDb

/-! ## A translation that returns -/

section Returns

variable {source target : ChunkLayout} {state next : ChunkState}

theorem valueFits_of_convertValue {column : Column} {value new : ColumnValue}
    (h : convertValue column .exact value = .ok new) : valueFits column.type value = true := by
  unfold convertValue at h
  split_ifs at h with hnull
  · rw [hnull]
    rfl
  · cases hfit : fit column.type value with
    | none =>
      rw [hfit] at h
      simp [logicError] at h
    | some fitted => exact valueFits_of_isSome (by rw [hfit]; rfl)

theorem valueFits_of_convertFixed {before after : Column} {oldFixed newFixed : FixedColumn}
    {payload data result : Bytes} {blocks : List ℕ}
    (h : convertFixed before after .exact oldFixed newFixed payload blocks data = .ok result) :
    ∀ block ∈ blocks, ∀ value, readFixed before oldFixed payload block = .ok value →
      valueFits after.type value = true := by
  induction blocks generalizing data with
  | nil => simp
  | cons first blocks ih =>
    rw [convertFixed] at h
    simp only [bind_eq_ok] at h
    obtain ⟨value, hvalue, converted, hconvert, _, _, hrest⟩ := h
    intro block hblock other hother
    rcases mem_cons.mp hblock with rfl | hlater
    · cases hvalue.symm.trans hother
      exact valueFits_of_convertValue hconvert
    · exact ih hrest block hlater other hother

theorem valueFits_of_convertVars {before after : Column} {entries : List (VarKey × Bytes)}
    {changes : List VarChange}
    (h : convertVars before after .exact entries = .ok changes) :
    ∀ entry ∈ entries, entry.1.columnId = after.id →
      valueFits after.type (decodeVarValue before entry.2) = true := by
  induction entries generalizing changes with
  | nil => simp
  | cons first entries ih =>
    obtain ⟨key, bytes⟩ := first
    rw [convertVars] at h
    intro entry hentry hid
    split_ifs at h with hother
    · rcases mem_cons.mp hentry with rfl | hlater
      · exact absurd hid hother
      · exact ih h entry hlater hid
    · simp only [bind_eq_ok, convertVar] at h
      obtain ⟨stored, ⟨converted, hconvert, _⟩, rest, hrest, _⟩ := h
      rcases mem_cons.mp hentry with rfl | hlater
      · exact valueFits_of_convertValue hconvert
      · exact ih hrest entry hlater hid

/-- Every column of a translation that returns was translated. -/
theorem translateColumn_of_ok {presence payload : Bytes} {vars : ChunkVars}
    (columns : List Column) (index : ℕ) {data : Bytes} {result : Bytes × List VarChange}
    (h : translateColumns source target presence payload vars index columns data = .ok result) :
    ∀ k column, columns[k]? = some column → ∃ data result,
      translateColumn source target presence payload vars (index + k) column data = .ok result := by
  induction columns generalizing index data result with
  | nil => simp
  | cons first columns ih =>
    rw [translateColumns] at h
    simp only [bind_eq_ok, Prod.exists] at h
    obtain ⟨after, changes, hfirst, final, rest, hrest, _⟩ := h
    intro k column hk
    cases k with
    | zero =>
      cases hk
      exact ⟨_, _, hfirst⟩
    | succ k =>
      obtain ⟨d, r, hr⟩ := ih (index + 1) hrest k column hk
      exact ⟨d, r, by rwa [Nat.add_right_comm] at hr⟩

theorem indexOfId_of_getElem {layout : ChunkLayout} {index : ℕ} {column : Column}
    (h : layout.schema.columns[index]? = some column) :
    layout.indexOfId column.id = some index := by
  cases hfound : layout.indexOfId column.id with
  | none => exact absurd rfl (ChunkLayout.indexOfId_eq_none.mp hfound column (mem_of_getElem? h))
  | some found =>
    obtain ⟨other, hother, hid⟩ := ChunkLayout.indexOfId_eq_some hfound
    obtain rfl := layout.columnsValid.eq_of_id_eq (mem_of_getElem? hother) (mem_of_getElem? h) hid
    rw [layout.columnsValid.index_eq hother h]

/-- A column with an array has no text or bytes values. -/
theorem columnId_ne_of_fixed {layout : ChunkLayout} (hstate : layout.ValidState state) {index : ℕ}
    {fixed : FixedColumn} {column : Column} (hfixed : layout.fixedColumnAt index = some fixed)
    (hcolumn : layout.schema.columns[index]? = some column) {entry : VarKey × Bytes}
    (hentry : entry ∈ state.vars.entries) : entry.1.columnId ≠ column.id := by
  intro hid
  obtain ⟨stored, hstored⟩ := hstate.validVar hentry
  obtain rfl : stored = column := layout.columnsValid.eq_of_id_eq hstored.mem
    (mem_of_getElem? hcolumn) (hstored.id_eq.trans hid)
  obtain ⟨placed, hplaced, harray⟩ := layout.fixedColumnAt_eq_some hfixed
  obtain rfl := Option.some.inj (hplaced.symm.trans hcolumn)
  exact harray.width_ne (harray.width_eq.trans hstored.isVar)

/-- A translation returns only when the values of an exact narrowing fit. -/
theorem narrowingFits_of_translateChunk (hadjacent : Adjacent source.schema target.schema)
    (hstate : source.ValidState state) (h : translateChunk source target state = .ok next) :
    NarrowingFits source target state := by
  intro index before after hbefore hafter hid hconversion hwidens
  unfold translateChunk at h
  split at h
  · simp [invalidArgument] at h
  obtain ⟨result, hcolumns, _⟩ := bind_eq_ok.mp h
  obtain ⟨k, hk⟩ := getElem?_of_mem hafter
  obtain ⟨data, translated, htranslate⟩ := translateColumn_of_ok _ 0 hcolumns k after hk
  have hindex : source.indexOfId after.id = some index := hid ▸ indexOfId_of_getElem hbefore
  have htype : before.type ≠ after.type := by
    intro heq
    rw [heq, widens_self] at hwidens
    cases hwidens
  unfold translateColumn at htranslate
  simp only [hindex, hbefore, if_pos htype, hconversion, ok_bind, Nat.zero_add] at htranslate
  cases htarget : target.fixedColumnAt k with
  | none =>
    rw [htarget] at htranslate
    simp only [bind_eq_ok] at htranslate
    obtain ⟨changes, hconvert, _⟩ := htranslate
    refine ⟨fun fixed hfixed => ?_, valueFits_of_convertVars hconvert⟩
    -- the types are of one family, so neither column has an array
    exfalso
    obtain ⟨_, _, _, hchange⟩ := hadjacent.changed before (mem_of_getElem? hbefore) after
      hafter hid htype
    obtain ⟨placed, hplaced, harray⟩ := source.fixedColumnAt_eq_some hfixed
    obtain rfl := Option.some.inj (hplaced.symm.trans hbefore)
    have hzero := target.fixedColumnAt_eq_none htarget hk
    have hwide := harray.isFixedWidth_eq
    rw [hchange.isFixedWidth_eq] at hwide
    rw [fixedWidthBits_eq_zero_iff hchange.targetValid, hwide] at hzero
    cases hzero
  | some newFixed =>
    rw [htarget] at htranslate
    dsimp only at htranslate
    cases hsource : source.fixedColumnAt index with
    | none =>
      rw [hsource] at htranslate
      cases htranslate
    | some oldFixed =>
      rw [hsource] at htranslate
      simp only [bind_eq_ok] at htranslate
      obtain ⟨_, hconvert, _⟩ := htranslate
      refine ⟨fun fixed hfixed => ?_, fun entry hentry hkey => ?_⟩
      · cases hfixed
        exact valueFits_of_convertFixed hconvert
      · exact absurd (hkey.trans hid.symm) (columnId_ne_of_fixed hstate hsource hbefore hentry)

end Returns

/-! ## States that pass -/

/-- What a state needs to be brought `count` versions further: an exact narrowing's values fit, the
values stay below 4 GiB, and at the end they are within the limit of a chunk. -/
def StepsPass (geometry : Geometry) : ℕ → ℕ → ChunkState → Prop
  | 0, _, state => state.vars.encodedSize ≤ kVarMaxChunkBytesLimit
  | count + 1, version, state =>
    (∀ source target, geometry.layoutAt version = .ok source →
      geometry.layoutAt (version + 1) = .ok target → NarrowingFits source target state
        ∧ state.vars.encodedSize + addedBytes source target state.presence < 2 ^ 32)
    ∧ ∀ next, translateSteps geometry 1 version state = .ok next →
        StepsPass geometry count (version + 1) next

/-- The step after the last one, when it has room. -/
theorem StepsPass.succ {geometry : Geometry} {count version : ℕ} {state next : ChunkState}
    (h : StepsPass geometry count version state)
    (hsteps : translateSteps geometry count version state = .ok next)
    (hfits : StepFits geometry (version + count) next)
    (hsize : ∀ after, translateSteps geometry 1 (version + count) next = .ok after →
      after.vars.encodedSize ≤ kVarMaxChunkBytesLimit) :
    StepsPass geometry (count + 1) version state := by
  induction count generalizing version state with
  | zero =>
    cases hsteps
    refine ⟨fun source target hsource htarget => ⟨hfits.narrowing _ _ hsource htarget, ?_⟩, hsize⟩
    exact (hfits.room _ _ hsource htarget).trans_lt (by decide)
  | succ count ih =>
    obtain ⟨hstep, hrest⟩ := h
    refine ⟨hstep, fun after hafter => ?_⟩
    have hone := hsteps
    rw [Nat.add_comm count, translateSteps_add, hafter, ok_bind] at hone
    have hversion : version + (count + 1) = version + 1 + count := by omega
    rw [hversion] at hfits hsize
    exact ih (hrest after hafter) hone hfits hsize

namespace Table

variable {table : Table} {version count : ℕ} {source : ChunkLayout} {state next : ChunkState}

/-- What a step that returns says of the state it started from. -/
theorem pass_of_translateSteps_one (hpos : 0 < version) (hlt : version < table.version)
    (hsource : table.IsLayout version source) (hstate : source.ValidState state)
    (hsize : state.vars.encodedSize < 2 ^ 32)
    (h : translateSteps table.geometry 1 version state = .ok next) :
    ∃ target, table.IsLayout (version + 1) target ∧ NarrowingFits source target state
      ∧ state.vars.encodedSize + addedBytes source target state.presence < 2 ^ 32
      ∧ target.ValidState next ∧ next.vars.encodedSize < 2 ^ 32 := by
  obtain ⟨target, htarget⟩ := table.exists_layout version.succ_pos hlt
  have hadjacent := hsource.adjacent hpos hlt htarget
  simp only [translateSteps, hsource.layoutAt_eq, htarget.layoutAt_eq, ok_bind, bind_eq_ok] at h
  obtain ⟨translated, htranslate, hsame⟩ := h
  cases hsame
  have hfits := narrowingFits_of_translateChunk hadjacent hstate htranslate
  obtain ⟨expected, hvalid, _, _, hgrown, hspec⟩ := translateChunk_spec hadjacent
    (hsource.blockCount_eq.trans htarget.blockCount_eq.symm)
    (htarget.blockCount_eq.trans_le table.blockCount_le) hstate hfits hsize
  rw [htranslate] at hspec
  split_ifs at hspec with hbelow
  cases hspec
  refine ⟨target, htarget, hfits, ?_, hvalid, hbelow⟩
  by_cases hzero : addedBytes source target state.presence = 0
  · omega
  · have := hgrown hzero
    omega

/-- A step that returns, with room for the values it adds, fits. -/
theorem stepFits_of_translateSteps_one {target : ChunkLayout} (hpos : 0 < version)
    (hlt : version < table.version) (hsource : table.IsLayout version source)
    (htarget : table.IsLayout (version + 1) target) (hstate : source.ValidState state)
    (hsize : state.vars.encodedSize < 2 ^ 32)
    (hroom : state.vars.encodedSize + addedBytes source target state.presence
      ≤ kVarMaxChunkBytesLimit)
    (h : translateSteps table.geometry 1 version state = .ok next) :
    StepFits table.geometry version state := by
  obtain ⟨other, hother, hfits, _⟩ := pass_of_translateSteps_one hpos hlt hsource hstate hsize h
  have hsame := hother.eq htarget
  rw [hsame] at hfits
  refine ⟨fun s t hs ht => ?_, fun s t hs ht => ?_⟩
  · cases hs.symm.trans hsource.layoutAt_eq
    cases ht.symm.trans htarget.layoutAt_eq
    exact hfits
  · cases hs.symm.trans hsource.layoutAt_eq
    cases ht.symm.trans htarget.layoutAt_eq
    exact hroom

/-- A state that is brought further is valid in the version it reaches. -/
theorem valid_of_translateSteps (hpos : 0 < version) (hle : version + count ≤ table.version)
    (hsource : table.IsLayout version source) (hstate : source.ValidState state)
    (hsize : state.vars.encodedSize < 2 ^ 32)
    (h : translateSteps table.geometry count version state = .ok next) :
    ∃ target, table.IsLayout (version + count) target ∧ target.ValidState next := by
  induction count generalizing version source state with
  | zero =>
    cases h
    exact ⟨source, hsource, hstate⟩
  | succ count ih =>
    rw [Nat.add_comm count, translateSteps_add, bind_eq_ok] at h
    obtain ⟨middle, hmiddle, hrest⟩ := h
    obtain ⟨layout, hlayout, _, _, hvalid, hbelow⟩ :=
      pass_of_translateSteps_one hpos (by omega) hsource hstate hsize hmiddle
    obtain ⟨target, htarget, hnext⟩ := ih version.succ_pos (by omega) hlayout hvalid hbelow hrest
    exact ⟨target, by rwa [Nat.add_comm count, ← Nat.add_assoc], hnext⟩

/-- A state is brought further, to one with no more values than a chunk may have, exactly when it
passes. -/
theorem translateSteps_iff_pass (hpos : 0 < version) (hle : version + count ≤ table.version)
    (hsource : table.IsLayout version source) (hstate : source.ValidState state)
    (hsize : state.vars.encodedSize < 2 ^ 32) :
    (∃ next, translateSteps table.geometry count version state = .ok next
        ∧ next.vars.encodedSize ≤ kVarMaxChunkBytesLimit)
      ↔ StepsPass table.geometry count version state := by
  induction count generalizing version source state with
  | zero => simp [translateSteps, StepsPass]
  | succ count ih =>
    constructor
    · rintro ⟨next, hnext, hlimit⟩
      rw [Nat.add_comm count, translateSteps_add, bind_eq_ok] at hnext
      obtain ⟨middle, hmiddle, hrest⟩ := hnext
      obtain ⟨layout, hlayout, hfits, hroom, hvalid, hbelow⟩ :=
        pass_of_translateSteps_one hpos (by omega) hsource hstate hsize hmiddle
      refine ⟨fun s t hs ht => ?_, fun other hother => ?_⟩
      · cases hs.symm.trans hsource.layoutAt_eq
        cases ht.symm.trans hlayout.layoutAt_eq
        exact ⟨hfits, hroom⟩
      · cases hother.symm.trans hmiddle
        exact (ih version.succ_pos (by omega) hlayout hvalid hbelow).mp ⟨next, hrest, hlimit⟩
    · rintro ⟨hstep, hrest⟩
      obtain ⟨layout, hlayout⟩ := table.exists_layout version.succ_pos (by omega)
      obtain ⟨hfits, hroom⟩ := hstep source layout hsource.layoutAt_eq hlayout.layoutAt_eq
      obtain ⟨middle, hvalid, _, hgrown, _, htranslate⟩ := translateChunk_spec
        (hsource.adjacent hpos (by omega) hlayout)
        (hsource.blockCount_eq.trans hlayout.blockCount_eq.symm)
        (hlayout.blockCount_eq.trans_le table.blockCount_le) hstate hfits hsize
      rw [if_pos (by omega)] at htranslate
      have hmiddle : translateSteps table.geometry 1 version state = .ok middle := by
        simp only [translateSteps, hsource.layoutAt_eq, hlayout.layoutAt_eq, htranslate, ok_bind]
      obtain ⟨next, hnext, hlimit⟩ := (ih version.succ_pos (by omega) hlayout hvalid
        (by omega)).mpr (hrest middle hmiddle)
      refine ⟨next, ?_, hlimit⟩
      rw [Nat.add_comm count, translateSteps_add, hmiddle, ok_bind]
      exact hnext

end Table

end ChunkDb
