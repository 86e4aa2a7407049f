/-
# Variable-length values of a chunk

`ChunkVars` (`chunk_vars.cpp`): the text and bytes values of a chunk, sorted by
column and block, at most one per key.  The model keeps the entries; the encoded
VARS section the code holds is `ChunkVars.encode`, and `encodedSize` its length.

* `ChunkVars.decode_encode` : a section in the limits decodes to the values it encodes;
* `applyVarUpdate_eq_ok`, `varsSizeAfter_eq` : an update is a replacement or one merge of its
  changes, and its size is known before.
-/
import ChunkDb.Basic
import ChunkDb.Lib.SortedMap

open LittleEndian SortedMap List

namespace ChunkDb

def kVarEntryHeaderBytes : ℕ := 12
def kVarMaxChunkBytesLimit : ℕ := 64 * 1024 * 1024

/-- `VarKey`. -/
structure VarKey where
  columnId : UInt32
  blockIndex : UInt32
  deriving Repr

/-- `VarKey::packed`. -/
def VarKey.packed (key : VarKey) : ℕ := key.columnId.toNat * 2 ^ 32 + key.blockIndex.toNat

theorem VarKey.packed_injective : Function.Injective VarKey.packed := by
  intro a b h
  have ha := a.blockIndex.toNat_lt
  have hb := b.blockIndex.toNat_lt
  unfold packed at h
  obtain ⟨ac, ab⟩ := a
  obtain ⟨bc, bb⟩ := b
  simp only [VarKey.mk.injEq, ← UInt32.toNat_inj] at *
  omega

/-- Keys are ordered by column, then block. -/
instance : LinearOrder VarKey := LinearOrder.lift' VarKey.packed VarKey.packed_injective

/-- `VarChange`: the value afterwards, or `none` when it is removed. -/
abbrev VarChange := VarKey × Option Bytes

/-- `ChunkVars`. -/
abbrev ChunkVars := SortedMap VarKey Bytes

namespace ChunkVars

/-- The encoded bytes of one entry. -/
def entryBytes (entry : VarKey × Bytes) : ℕ := kVarEntryHeaderBytes + entry.2.length

/-- `encoded_size`. -/
def encodedSize (vars : ChunkVars) : ℕ := weight entryBytes vars.entries

/-- `WriteHeader` and the value. -/
def encodeEntry (entry : VarKey × Bytes) : Bytes :=
  leBytes 4 entry.1.columnId.toNat ++ leBytes 4 entry.1.blockIndex.toNat
    ++ leBytes 4 entry.2.length ++ entry.2

/-- `Encode`. -/
def encode (vars : ChunkVars) : Bytes := vars.entries.flatMap encodeEntry

theorem length_encodeEntry (entry : VarKey × Bytes) :
    (encodeEntry entry).length = entryBytes entry := by
  simp only [encodeEntry, length_append, length_leBytes, entryBytes, kVarEntryHeaderBytes]

@[simp] theorem length_encode (vars : ChunkVars) : vars.encode.length = vars.encodedSize := by
  simp only [encode, length_flatMap, length_encodeEntry, encodedSize, weight]

/-- What the code throws when the section outgrows its `u32` offsets. -/
def exceedsFourGiB : Exn :=
  ⟨.lengthError, "variable-length values of one chunk exceed 4 GiB"⟩

/-- The encoded bytes of the value at a key, none when there is none. -/
def bytesAt (vars : ChunkVars) (key : VarKey) : ℕ := weight entryBytes (put key (vars.find key))

/-- `Assign`. -/
def assign (vars : ChunkVars) (key : VarKey) (value : Bytes) : Fallible ChunkVars := do
  require (vars.encodedSize - vars.bytesAt key + (kVarEntryHeaderBytes + value.length) < 2 ^ 32)
    exceedsFourGiB
  return SortedMap.assign vars key value

/-- `Merge`. -/
def merge (vars : ChunkVars) (changes : List VarChange) : Fallible ChunkVars :=
  if h : KeysAscending changes then
    let merged : ChunkVars := SortedMap.merge vars changes h
    if merged.encodedSize < 2 ^ 32 then .ok merged else .error exceedsFourGiB
  else logicError "value changes are not in strictly ascending key order"

/-- `KeyText`. -/
def keyText (key : VarKey) : String :=
  "column " ++ toString key.columnId.toNat ++ " block " ++ toString key.blockIndex.toNat

/-- The loop of `Decode`: the entries of the rest of the section, after `last`. -/
def decodeEntries (blockCount : ℕ) : ℕ → Option VarKey → Bytes → Fallible (List (VarKey × Bytes))
  | 0, _, _ => .ok []
  | fuel + 1, last, rest =>
    if rest = [] then .ok []
    else do
      require (kVarEntryHeaderBytes ≤ rest.length)
        ⟨.invalidArgument, "VARS entry header extends past the section"⟩
      let key : VarKey := ⟨UInt32.ofNat (readLe 4 rest 0), UInt32.ofNat (readLe 4 rest 4)⟩
      let valueBytes := readLe 4 rest 8
      require (key.blockIndex.toNat < blockCount)
        ⟨.invalidArgument, "VARS entry for " ++ keyText key ++ ", the chunk has "
          ++ toString blockCount ++ " blocks"⟩
      require (∀ k ∈ last, k < key)
        ⟨.invalidArgument, "VARS keys are not strictly ascending (" ++ keyText key ++ " after "
          ++ keyText (last.getD key) ++ ")"⟩
      require (valueBytes ≤ rest.length - kVarEntryHeaderBytes)
        ⟨.invalidArgument, "VARS value of " ++ keyText key ++ " extends past the section"⟩
      let entries ← decodeEntries blockCount fuel (some key)
        (rest.drop (kVarEntryHeaderBytes + valueBytes))
      return (key, (rest.drop kVarEntryHeaderBytes).take valueBytes) :: entries

/-- Decoded entries follow each other, and `last`, in key order. -/
theorem keysAscending_decodeEntries {blockCount fuel : ℕ} {last : Option VarKey} {rest : Bytes}
    {entries : List (VarKey × Bytes)} (h : decodeEntries blockCount fuel last rest = .ok entries) :
    KeysAscending entries ∧ ∀ k ∈ last, ∀ e ∈ entries, k < e.1 := by
  induction fuel generalizing last rest entries with
  | zero =>
    cases h
    simp [KeysAscending]
  | succ fuel ih =>
    rw [decodeEntries] at h
    split at h
    · cases h
      simp [KeysAscending]
    · simp only [require_bind] at h
      obtain ⟨_, _, hlast, _, h⟩ := h
      obtain ⟨tail, htail, h⟩ := bind_eq_ok.mp h
      cases h
      obtain ⟨hascending, hafter⟩ := ih htail
      refine ⟨pairwise_cons.mpr ⟨hafter _ rfl, hascending⟩, ?_⟩
      rintro k hk e (_ | ⟨_, he⟩)
      · exact hlast k hk
      · exact lt_trans (hlast k hk) (hafter _ rfl e he)

/-- `Decode`. -/
def decode (data : Bytes) (blockCount : ℕ) : Fallible ChunkVars :=
  if data.length > kVarMaxChunkBytesLimit then
    invalidArgument ("VARS section of " ++ toString data.length ++ " bytes exceeds "
      ++ toString kVarMaxChunkBytesLimit)
  else
    match h : decodeEntries blockCount data.length none data with
    | .error e => .error e
    | .ok entries => .ok ⟨entries, (keysAscending_decodeEntries h).1⟩

end ChunkVars

/-- `VarUpdate`: changes in ascending key order, or a replacement of all values. -/
structure VarUpdate where
  changes : List VarChange
  replace : Option ChunkVars

/-- `VarsSizeAfter`. -/
def varsSizeAfter (vars : ChunkVars) (update : VarUpdate) : ℕ :=
  match update.replace with
  | some vars => vars.encodedSize
  | none =>
    update.changes.foldl (fun size change =>
      size - vars.bytesAt change.1 + weight ChunkVars.entryBytes (put change.1 change.2))
      vars.encodedSize

/-- What `ApplyVarUpdate` checks before the first change: keys in order, and every
change real. -/
def checkChanges (vars : ChunkVars) : Option VarKey → List VarChange → Fallible Unit
  | _, [] => .ok ()
  | last, change :: changes => do
    require (∀ k ∈ last, k < change.1)
      ⟨.logicError, "value changes are not in strictly ascending key order"⟩
    require (vars.find change.1 ≠ change.2) ⟨.logicError, "a value change does not change anything"⟩
    checkChanges vars (some change.1) changes

/-- `ApplyVarUpdate`. -/
def applyVarUpdate (vars : ChunkVars) (update : VarUpdate) : Fallible ChunkVars :=
  match update.replace with
  | some replacement => do
    require (update.changes = []) ⟨.logicError, "a value update has both changes and a replacement"⟩
    return replacement
  | none => do
    checkChanges vars none update.changes
    match update.changes with
    | [(key, some value)] => vars.assign key value
    | [(key, none)] => return vars.remove key
    | changes => vars.merge changes

namespace ChunkVars

variable (vars : ChunkVars)

theorem merge_of_lt (changes : List VarChange) (h : KeysAscending changes)
    (hsize : encodedSize (SortedMap.merge vars changes h) < 2 ^ 32) :
    vars.merge changes = .ok (SortedMap.merge vars changes h) := by
  unfold merge
  rw [dif_pos h]
  dsimp only
  rw [if_pos hsize]

theorem merge_eq_ok {vars merged : ChunkVars} {changes : List VarChange}
    (h : vars.merge changes = .ok merged) :
    ∃ hascending : KeysAscending changes, merged = SortedMap.merge vars changes hascending := by
  unfold merge at h
  split at h
  · rename_i hascending
    dsimp only at h
    split at h
    · exact ⟨hascending, (Except.ok.inj h).symm⟩
    · simp at h
  · simp [logicError] at h

/-! ## The encoded section -/

theorem encodedSize_le_of_mem {vars : ChunkVars} {entry : VarKey × Bytes}
    (h : entry ∈ vars.entries) : entryBytes entry ≤ vars.encodedSize :=
  le_sum_of_mem (mem_map_of_mem h)

/-- One entry at the head of a section is read back. -/
theorem decodeEntries_cons (blockCount fuel : ℕ) (last : Option VarKey) (entry : VarKey × Bytes)
    (rest : Bytes) (hvalue : entry.2.length < 2 ^ 32) (hblock : entry.1.blockIndex.toNat < blockCount)
    (hlast : ∀ k ∈ last, k < entry.1) :
    decodeEntries blockCount (fuel + 1) last (encodeEntry entry ++ rest)
      = (do
          let entries ← decodeEntries blockCount fuel (some entry.1) rest
          return entry :: entries) := by
  obtain ⟨⟨columnId, blockIndex⟩, value⟩ := entry
  have hcolumn := columnId.toNat_lt
  have hindex := blockIndex.toNat_lt
  dsimp only at hvalue hblock
  set data := encodeEntry (⟨columnId, blockIndex⟩, value) ++ rest with hdata
  have hsplit : data = leBytes 4 columnId.toNat ++ (leBytes 4 blockIndex.toNat
      ++ (leBytes 4 value.length ++ (value ++ rest))) := by
    simp [hdata, encodeEntry]
  have hlen : data.length = 12 + value.length + rest.length := by
    simp [hsplit]
    omega
  have h0 : readLe 4 data 0 = columnId.toNat := by
    rw [hsplit]
    exact readLe_leBytes 4 _ _ (by simpa using hcolumn)
  have h4 : readLe 4 data 4 = blockIndex.toNat := by
    rw [hsplit, readLe_append_right _ _ _ _ (by simp), length_leBytes]
    exact readLe_leBytes 4 _ _ (by simpa using hindex)
  have h8 : readLe 4 data 8 = value.length := by
    rw [hsplit, readLe_append_right _ _ _ _ (by simp), length_leBytes,
      readLe_append_right _ _ _ _ (by simp), length_leBytes]
    exact readLe_leBytes 4 _ _ (by simpa using hvalue)
  have hdrop : data.drop kVarEntryHeaderBytes = value ++ rest := by
    rw [hsplit, ← append_assoc, ← append_assoc]
    exact drop_left' (by simp [kVarEntryHeaderBytes])
  rw [decodeEntries, if_neg (by rw [← length_eq_zero_iff]; omega)]
  have hheader : kVarEntryHeaderBytes = 12 := rfl
  rw [h0, h4, h8, UInt32.ofNat_toNat, UInt32.ofNat_toNat]
  dsimp only
  rw [require_of (by omega), require_of hblock, require_of hlast, require_of (by omega),
    ← drop_drop, hdrop, drop_left, take_left]
  rfl

theorem decodeEntries_encode (blockCount fuel : ℕ) (last : Option VarKey)
    (entries : List (VarKey × Bytes)) (hfuel : (entries.flatMap encodeEntry).length ≤ fuel)
    (hascending : KeysAscending entries) (hlast : ∀ k ∈ last, ∀ e ∈ entries, k < e.1)
    (hvalue : ∀ e ∈ entries, e.2.length < 2 ^ 32)
    (hblock : ∀ e ∈ entries, e.1.blockIndex.toNat < blockCount) :
    decodeEntries blockCount fuel last (entries.flatMap encodeEntry) = .ok entries := by
  induction entries generalizing fuel last with
  | nil => cases fuel <;> rfl
  | cons entry entries ih =>
    obtain ⟨hhead, htail⟩ := pairwise_cons.mp hascending
    rw [flatMap_cons] at hfuel ⊢
    rw [length_append, length_encodeEntry, entryBytes, kVarEntryHeaderBytes] at hfuel
    obtain ⟨fuel, rfl⟩ : ∃ f, fuel = f + 1 := ⟨fuel - 1, by omega⟩
    rw [decodeEntries_cons _ _ _ _ _ (hvalue _ mem_cons_self) (hblock _ mem_cons_self)
        (fun k hk => hlast k hk _ mem_cons_self),
      ih fuel (some entry.1) (by omega) htail ?_ (fun e he => hvalue e (mem_cons_of_mem _ he))
        (fun e he => hblock e (mem_cons_of_mem _ he))]
    · rfl
    · rintro k hk e he
      rw [← Option.some.inj hk]
      exact hhead e he

/-- The entries of an encoded section are those it holds. -/
theorem decodeEntries_self {blockCount : ℕ} (hsize : vars.encodedSize < 2 ^ 32)
    (hblock : ∀ e ∈ vars.entries, e.1.blockIndex.toNat < blockCount) :
    decodeEntries blockCount vars.encode.length none vars.encode = .ok vars.entries := by
  refine decodeEntries_encode blockCount _ none vars.entries le_rfl vars.ascending (by simp) ?_ hblock
  intro e he
  have := encodedSize_le_of_mem he
  unfold entryBytes at this
  omega

/-- The encoded section decodes to the values it holds. -/
theorem decode_encode (blockCount : ℕ)
    (hsize : vars.encodedSize ≤ kVarMaxChunkBytesLimit)
    (hblock : ∀ e ∈ vars.entries, e.1.blockIndex.toNat < blockCount) :
    decode vars.encode blockCount = .ok vars := by
  have hentries := vars.decodeEntries_self (hsize.trans_lt (by decide)) hblock
  unfold decode
  rw [if_neg (by rw [length_encode]; omega)]
  split
  · rename_i e herror
    rw [hentries] at herror
    simp at herror
  · rename_i entries hok
    rw [hentries] at hok
    congr 1
    exact SortedMap.ext (Except.ok.inj hok).symm

end ChunkVars

/-! ## Updates -/

theorem keysAscending_of_checkChanges {vars : ChunkVars} {last : Option VarKey}
    {changes : List VarChange} (h : checkChanges vars last changes = .ok ()) :
    KeysAscending changes ∧ ∀ k ∈ last, ∀ c ∈ changes, k < c.1 := by
  induction changes generalizing last with
  | nil => simp [KeysAscending]
  | cons change changes ih =>
    simp only [checkChanges, require_bind] at h
    obtain ⟨hlast, _, hrest⟩ := h
    obtain ⟨hascending, hafter⟩ := ih hrest
    refine ⟨pairwise_cons.mpr ⟨hafter _ rfl, hascending⟩, ?_⟩
    rintro k hk c (_ | ⟨_, hc⟩)
    · exact hlast k hk
    · exact lt_trans (hlast k hk) (hafter _ rfl c hc)

/-- An update replaces all values, or merges its changes. -/
theorem applyVarUpdate_eq_ok {vars result : ChunkVars} {update : VarUpdate}
    (h : applyVarUpdate vars update = .ok result) :
    (update.replace = some result ∧ update.changes = [])
      ∨ (update.replace = none ∧ ∃ hascending : KeysAscending update.changes,
          result = SortedMap.merge vars update.changes hascending) := by
  obtain ⟨changes, replacement⟩ := update
  cases replacement with
  | some replacement =>
    simp only [applyVarUpdate, require_bind] at h
    obtain ⟨hnil, h⟩ := h
    exact .inl ⟨congrArg some (Except.ok.inj h), hnil⟩
  | none =>
    simp only [applyVarUpdate, check_bind_eq_ok] at h
    obtain ⟨hcheck, h⟩ := h
    have hascending := (keysAscending_of_checkChanges hcheck).1
    refine .inr ⟨rfl, hascending, ?_⟩
    split at h
    · -- one value set in place
      unfold ChunkVars.assign at h
      rw [check_bind_eq_ok] at h
      rw [← Except.ok.inj h.2, assign_eq_merge]
    · rw [← Except.ok.inj h, remove_eq_merge]
    · obtain ⟨_, rfl⟩ := ChunkVars.merge_eq_ok h
      rfl

theorem foldl_sizes (vars : ChunkVars) (changes : List VarChange) (size : ℕ)
    (h : (changes.map (fun c => vars.bytesAt c.1)).sum ≤ size) :
    changes.foldl (fun size change =>
        size - vars.bytesAt change.1 + weight ChunkVars.entryBytes (put change.1 change.2)) size
      + (changes.map (fun c => vars.bytesAt c.1)).sum
      = size + (changes.map (fun c => weight ChunkVars.entryBytes (put c.1 c.2))).sum := by
  induction changes generalizing size with
  | nil => rfl
  | cons change changes ih =>
    simp only [map_cons, sum_cons, foldl_cons] at h ⊢
    have := ih (size - vars.bytesAt change.1
      + weight ChunkVars.entryBytes (put change.1 change.2)) (by omega)
    omega

/-- `VarsSizeAfter` is the size of the section after the update. -/
theorem varsSizeAfter_eq {vars result : ChunkVars} {update : VarUpdate}
    (h : applyVarUpdate vars update = .ok result) :
    varsSizeAfter vars update = result.encodedSize := by
  rcases applyVarUpdate_eq_ok h with ⟨hreplace, _⟩ | ⟨hreplace, hascending, rfl⟩
  · simp [varsSizeAfter, hreplace]
  · have hmerge : ChunkVars.encodedSize (SortedMap.merge vars update.changes hascending)
        + (update.changes.map (fun c => vars.bytesAt c.1)).sum
        = vars.encodedSize
          + (update.changes.map (fun c => weight ChunkVars.entryBytes (put c.1 c.2))).sum :=
      weight_merge ChunkVars.entryBytes vars update.changes hascending
    have hfold := foldl_sizes vars update.changes vars.encodedSize
      (weight_find_le ChunkVars.entryBytes vars update.changes hascending)
    simp only [varsSizeAfter, hreplace]
    omega

end ChunkDb
