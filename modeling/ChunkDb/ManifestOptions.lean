/-
# Table options in a manifest

`EncodeTableOptions` and `ReplaceTableOptions` of `store_manifest.cpp`: the options of a
table are written in front of the options of types this build does not know, which are
copied as they are.

A parsed manifest is written and read back unchanged.  After its options are replaced it
decodes to the new options, and its lineage and the unknown options are the old ones; it
is written and read back whenever it still has the size that a manifest may have.
-/
import ChunkDb.StoreManifestSpec

open LittleEndian List Option

namespace ChunkDb

open TableOptions

/-! ## Writing table options -/

/-- The byte of a `DurabilityMode`. -/
def DurabilityMode.code : DurabilityMode → ℕ
  | .relaxed => 0
  | .fsyncWal => 1
  | .fsyncCheckpoint => 2

/-- The byte of a `CheckpointCompression`. -/
def CheckpointCompression.code : CheckpointCompression → ℕ
  | .none => 0
  | .zrle => 1

/-- `AppendOption` for a value of one byte. -/
def byteOption (type value : ℕ) : Tlv.Entry := ⟨type, leBytes 1 value⟩

/-- `AppendOption` for a value of eight bytes. -/
def numberOption (type value : ℕ) : Tlv.Entry := ⟨type, leBytes 8 value⟩

/-- The options that every table writes. -/
def requiredOptionEntries (options : TableOptions) : List Tlv.Entry :=
  [byteOption kOptionDurabilityMode options.durabilityMode.code,
    numberOption kOptionCheckpointUpdates options.checkpointUpdateInterval,
    numberOption kOptionCheckpointWalBytes options.checkpointWalBytes,
    numberOption kOptionWalGroupCommitUpdates options.walGroupCommitUpdates,
    byteOption kOptionCheckpointCompression options.checkpointCompression.code,
    numberOption kOptionVarMaxChunkBytes options.varMaxChunkBytes]

/-- The options of a table in the order in which they are written. -/
def tableOptionEntries (options : TableOptions) : List Tlv.Entry :=
  requiredOptionEntries options
    ++ (options.feedBufferBytes.map (numberOption kOptionFeedBufferBytes)).toList
    ++ (options.slotMaxBytes.map (numberOption kOptionSlotMaxBytes)).toList

/-- `EncodeTableOptions`. -/
def encodeTableOptions (options : TableOptions) : Bytes := Tlv.encodeAll (tableOptionEntries options)

/-- `ReplaceTableOptions`. -/
def replaceTableOptions (manifest : StoreManifest) (options : TableOptions) :
    Fallible StoreManifest := do
  validateOptions manifest.options manifest.features isKnownTableOptionType
  let replacement ← Tlv.fold truncatedOption optionOverruns
    (fun kept entry =>
      return if isKnownTableOptionType entry.type then kept else kept ++ entry.encode)
    (encodeTableOptions options) manifest.options
  return { manifest with options := replacement }

/-- The records of an options area that have a type this build does not know. -/
def unknownOptionRecords (options : Bytes) : Fallible (List Bytes) :=
  Tlv.fold truncatedOption optionOverruns
    (fun records entry =>
      return if isKnownTableOptionType entry.type then records else records ++ [entry.encode])
    [] options

/-! ## Valid options -/

/-- A size that an option may have. -/
def OptionSize (value : ℕ) : Prop := value ≠ 0 ∧ value < 256 ^ 8

instance (value : ℕ) : Decidable (OptionSize value) := by
  unfold OptionSize
  infer_instance

/-- Options a table may have: no size is zero, and the limit of var sections is one that
`RequireValidVarLimit` accepts. -/
structure TableOptions.Valid (options : TableOptions) : Prop where
  checkpointUpdateInterval : OptionSize options.checkpointUpdateInterval
  checkpointWalBytes : OptionSize options.checkpointWalBytes
  walGroupCommitUpdates : OptionSize options.walGroupCommitUpdates
  varMaxChunkBytes : requireValidVarLimit options.varMaxChunkBytes = .ok ()
  feedBufferBytes : ∀ value ∈ options.feedBufferBytes, OptionSize value
  slotMaxBytes : ∀ value ∈ options.slotMaxBytes, OptionSize value

theorem optionSize_of_requireValidVarLimit {value : ℕ} (h : requireValidVarLimit value = .ok ()) :
    OptionSize value := by
  rw [requireValidVarLimit, require_eq_ok, kVarEntryHeaderBytes, kVarMaxChunkBytesLimit] at h
  constructor <;> omega

/-! ## Reading them back -/

@[simp] theorem durabilityModeOf_code (mode : DurabilityMode) :
    durabilityModeOf mode.code = some mode := by
  cases mode <;> rfl

variable (compression : CheckpointCompression)

@[simp] theorem checkpointCompressionOf_code :
    checkpointCompressionOf compression.code = some compression := by
  cases compression <;> rfl

theorem DurabilityMode.code_lt (mode : DurabilityMode) : mode.code < 256 ^ 1 := by
  cases mode <;> decide

theorem CheckpointCompression.code_lt :
    compression.code < 256 ^ 1 := by
  cases compression <;> decide

section Decode

variable {seen : List ℕ} {options options' : TableOptions} {type value : ℕ}

/-- An option of one byte is read back. -/
theorem decodeTableOption_byteOption (hvalue : value < 256 ^ 1)
    (htype : type = kOptionDurabilityMode ∨ type = kOptionCheckpointCompression)
    (hseen : type ∉ seen) (hset : options.setByte type value = .ok options') :
    decodeTableOption (seen, options) (byteOption type value) = .ok (type :: seen, options') := by
  have hknown : ¬ isKnownTableOptionType type = false := by
    rcases htype with rfl | rfl <;> decide
  rw [decodeTableOption, byteOption, if_neg hknown, require_of hseen, ok_bind]
  dsimp only
  rw [if_pos htype, if_pos htype, require_of (length_leBytes 1 value), ok_bind,
    leNat_leBytes_of_lt _ _ hvalue, hset]
  rfl

/-- An option of eight bytes is read back. -/
theorem decodeTableOption_numberOption (hvalue : value < 256 ^ 8)
    (hknown : isKnownTableOptionType type = true)
    (htype : ¬ (type = kOptionDurabilityMode ∨ type = kOptionCheckpointCompression))
    (hseen : type ∉ seen) (hset : options.setNumber type value = .ok options') :
    decodeTableOption (seen, options) (numberOption type value) = .ok (type :: seen, options') := by
  rw [decodeTableOption, numberOption, if_neg (by simp [hknown]), require_of hseen, ok_bind]
  dsimp only
  rw [if_neg htype, if_neg htype, require_of (length_leBytes 8 value), ok_bind,
    leNat_leBytes_of_lt _ _ hvalue, hset]
  rfl

end Decode

/-- The limit of var sections is the one number that is checked once more. -/
theorem setNumber_varMaxChunkBytes (options : TableOptions) {value : ℕ}
    (h : requireValidVarLimit value = .ok ()) :
    options.setNumber kOptionVarMaxChunkBytes value
      = .ok { options with varMaxChunkBytes := value } := by
  rw [setNumber, require_of (optionSize_of_requireValidVarLimit h).1, ok_bind,
    if_neg (by decide), if_neg (by decide), if_neg (by decide), if_neg (by decide),
    if_neg (by decide), rethrowInvalidArgument_eq_ok.2 h]
  rfl

/-- The options that every table writes are read back. -/
theorem decode_requiredOptionEntries {options : TableOptions} (h : options.Valid) :
    ∃ seen : List ℕ, (requiredOptionEntries options).foldlM decodeTableOption ([], {}) =
        .ok (seen, { options with feedBufferBytes := none, slotMaxBytes := none }) ∧
      kOptionFeedBufferBytes ∉ seen ∧ kOptionSlotMaxBytes ∉ seen := by
  obtain ⟨mode, interval, walBytes, groupCommit, compression, varMax, feed, slot⟩ := options
  have hvar := optionSize_of_requireValidVarLimit h.varMaxChunkBytes
  refine ⟨[6, 5, 4, 3, 2, 1], ?_, by decide, by decide⟩
  simp only [requiredOptionEntries, foldlM_cons, foldlM_nil]
  rw [decodeTableOption_byteOption mode.code_lt (Or.inl rfl) (by decide)
      (by rw [setByte, if_pos rfl, durabilityModeOf_code]), ok_bind,
    decodeTableOption_numberOption h.checkpointUpdateInterval.2 rfl (by decide) (by decide)
      (by rw [setNumber, require_of h.checkpointUpdateInterval.1]; rfl),
    ok_bind,
    decodeTableOption_numberOption h.checkpointWalBytes.2 rfl (by decide) (by decide)
      (by rw [setNumber, require_of h.checkpointWalBytes.1]; rfl), ok_bind,
    decodeTableOption_numberOption h.walGroupCommitUpdates.2 rfl (by decide) (by decide)
      (by rw [setNumber, require_of h.walGroupCommitUpdates.1]; rfl),
    ok_bind,
    decodeTableOption_byteOption compression.code_lt (Or.inr rfl) (by decide)
      (by rw [setByte, if_neg (by decide), checkpointCompressionOf_code]),
    ok_bind,
    decodeTableOption_numberOption hvar.2 rfl (by decide) (by decide)
      (setNumber_varMaxChunkBytes _ h.varMaxChunkBytes), ok_bind]
  rfl

/-- An option that a table may leave out. -/
theorem decode_optionalEntry {seen : List ℕ} {options : TableOptions} (type : ℕ)
    {size : Option ℕ} (set : Option ℕ → TableOptions) (hnone : set none = options)
    (hknown : isKnownTableOptionType type = true)
    (htype : ¬ (type = kOptionDurabilityMode ∨ type = kOptionCheckpointCompression))
    (hseen : type ∉ seen) (hsize : ∀ value ∈ size, OptionSize value)
    (hset : ∀ value, value ≠ 0 → options.setNumber type value = .ok (set (some value))) :
    ∃ seen' : List ℕ, (size.map (numberOption type)).toList.foldlM decodeTableOption
        (seen, options) = .ok (seen', set size) ∧ ∀ other ∉ seen, other ≠ type → other ∉ seen' := by
  cases size with
  | none => exact ⟨seen, by rw [hnone]; rfl, fun other hother _ => hother⟩
  | some value =>
    obtain ⟨hne, hlt⟩ := hsize value rfl
    refine ⟨type :: seen, ?_, fun other hother hne => by simp [hother, hne]⟩
    rw [map_some, toList_some, foldlM_cons,
      decodeTableOption_numberOption hlt hknown htype hseen (hset value hne)]
    rfl

/-- The options of a table are read back. -/
theorem decode_tableOptionEntries {options : TableOptions} (h : options.Valid) :
    ∃ seen : List ℕ,
      (tableOptionEntries options).foldlM decodeTableOption ([], {}) = .ok (seen, options) := by
  obtain ⟨seen, hrequired, hfeed, hslot⟩ := decode_requiredOptionEntries h
  obtain ⟨seen', hfeeds, hother⟩ := decode_optionalEntry kOptionFeedBufferBytes
    (fun size => { options with feedBufferBytes := size, slotMaxBytes := none }) rfl rfl (by decide)
    hfeed h.feedBufferBytes (fun value hne => by rw [setNumber, require_of hne]; rfl)
  obtain ⟨seen'', hslots, -⟩ := decode_optionalEntry kOptionSlotMaxBytes
    (fun size => { options with slotMaxBytes := size }) rfl rfl (by decide)
    (hother _ hslot (by decide)) h.slotMaxBytes
    (fun value hne => by rw [setNumber, require_of hne]; rfl)
  exact ⟨seen'', by
    rw [tableOptionEntries, foldlM_append, foldlM_append, hrequired, ok_bind,
      hfeeds, ok_bind, hslots]⟩

theorem decodeTableOption_of_unknown {entries : List Tlv.Entry} {decoded : List ℕ × TableOptions}
    (h : ∀ entry ∈ entries, isKnownTableOptionType entry.type = false) :
    entries.foldlM decodeTableOption decoded = .ok decoded := by
  induction entries with
  | nil => rfl
  | cons entry entries ih =>
    rw [foldlM_cons, decodeTableOption, if_pos (h entry mem_cons_self), ok_bind]
    exact ih fun e he => h e (mem_cons_of_mem _ he)

/-! ## Replacing the options of a manifest -/

/-- The entries of an area whose types this build does not know. -/
def unknownEntries (entries : List Tlv.Entry) : List Tlv.Entry :=
  entries.filter fun entry => !isKnownTableOptionType entry.type

section Replace

variable {entries : List Tlv.Entry} {options : TableOptions}

/-- An option that is written: of a known type, and of one byte or eight. -/
theorem mem_tableOptionEntries {entry : Tlv.Entry} (h : entry ∈ tableOptionEntries options) :
    isKnownTableOptionType entry.type = true ∧ entry.value.length ≤ 8 := by
  simp only [tableOptionEntries, requiredOptionEntries, mem_append, mem_cons,
    not_mem_nil, or_false, mem_toList, map_eq_some_iff] at h
  obtain ((rfl | rfl | rfl | rfl | rfl | rfl) | ⟨value, -, rfl⟩) | ⟨value, -, rfl⟩ := h
  all_goals exact ⟨rfl, by simp [byteOption, numberOption]⟩

theorem le_of_isKnownTableOptionType {type : ℕ} (h : isKnownTableOptionType type = true) :
    type ≤ kOptionSlotMaxBytes := by
  simp only [isKnownTableOptionType, Bool.or_eq_true, decide_eq_true_eq] at h
  rw [kOptionVarMaxChunkBytes, kOptionFeedBufferBytes, kOptionSlotMaxBytes] at h
  rw [kOptionSlotMaxBytes]
  omega

theorem fits_tableOptionEntries (options : TableOptions) :
    ∀ entry ∈ tableOptionEntries options, entry.Fits := by
  intro entry he
  obtain ⟨hknown, hlength⟩ := mem_tableOptionEntries he
  exact ⟨lt_of_le_of_lt (le_of_isKnownTableOptionType hknown) (by decide),
    lt_of_le_of_lt hlength (by decide)⟩

/-- A known option is none of the lineage. -/
theorem isLineageOption_of_isKnown {type : ℕ} (h : isKnownTableOptionType type = true) :
    isLineageOption type = false := by
  have hle := le_of_isKnownTableOptionType h
  have hparent : type ≠ kOptionParentEpoch := by
    rintro rfl
    exact absurd hle (by decide)
  have hfork : type ≠ kOptionForkRevision := by
    rintro rfl
    exact absurd hle (by decide)
  simp [isLineageOption, hparent, hfork]

theorem mem_unknownEntries {entry : Tlv.Entry} :
    entry ∈ unknownEntries entries ↔
      entry ∈ entries ∧ isKnownTableOptionType entry.type = false := by
  simp [unknownEntries]

/-- The new entries hold the same unknown ones. -/
theorem unknownEntries_replaced (options : TableOptions) (entries : List Tlv.Entry) :
    unknownEntries (tableOptionEntries options ++ unknownEntries entries)
      = unknownEntries entries := by
  have hnone : (tableOptionEntries options).filter
      (fun entry => !isKnownTableOptionType entry.type) = [] := by
    rw [filter_eq_nil_iff]
    intro entry he
    simp [(mem_tableOptionEntries he).1]
  rw [unknownEntries, filter_append, hnone, nil_append]
  exact filter_eq_self.2 fun entry he => by simp [(mem_unknownEntries.1 he).2]

theorem fits_replaced (hfits : ∀ entry ∈ entries, entry.Fits) :
    ∀ entry ∈ tableOptionEntries options ++ unknownEntries entries, entry.Fits := by
  intro entry he
  rcases mem_append.1 he with he | he
  · exact fits_tableOptionEntries options entry he
  · exact hfits entry (mem_unknownEntries.1 he).1

theorem unknownOptionRecords_encodeAll (hfits : ∀ entry ∈ entries, entry.Fits) :
    unknownOptionRecords (Tlv.encodeAll entries)
      = .ok ((unknownEntries entries).flatMap fun entry => [entry.encode]) := by
  rw [unknownOptionRecords, Tlv.fold_encodeAll _ _ _ hfits, foldlM_append_unless, nil_append]
  rfl

/-- The new area decodes to the new options. -/
theorem decodeTableOptions_replaced (hvalid : options.Valid)
    (hfits : ∀ entry ∈ entries, entry.Fits) :
    decodeTableOptions (Tlv.encodeAll (tableOptionEntries options ++ unknownEntries entries))
      = .ok options := by
  obtain ⟨seen, hdecode⟩ := decode_tableOptionEntries hvalid
  rw [decodeTableOptions, Tlv.fold_encodeAll _ _ _ (fits_replaced hfits), foldlM_append,
    hdecode, ok_bind, decodeTableOption_of_unknown fun entry he => (mem_unknownEntries.1 he).2]
  rfl

theorem replaceTableOptions_encodeAll {manifest : StoreManifest}
    (hoptions : manifest.options = Tlv.encodeAll entries) (hfits : ∀ entry ∈ entries, entry.Fits)
    (hallowed : ∀ entry ∈ entries, AllowedOption manifest.features isKnownTableOptionType entry)
    (options : TableOptions) :
    replaceTableOptions manifest options =
      .ok { manifest with
        options := Tlv.encodeAll (tableOptionEntries options ++ unknownEntries entries) } := by
  rw [replaceTableOptions, hoptions, (validateOptions_encodeAll hfits).2 hallowed, ok_bind,
    Tlv.fold_encodeAll _ _ _ hfits, foldlM_append_unless, ok_bind, Tlv.encodeAll_append]
  rfl

end Replace

namespace StoreManifest

variable {manifest : StoreManifest} {options : TableOptions} {schema : Bytes}

/-- The entries of a well formed manifest may stand in a replaced area. -/
theorem WellFormed.allowed_tableOption (h : manifest.WellFormed) :
    ∃ entries, manifest.options = Tlv.encodeAll entries ∧ (∀ entry ∈ entries, entry.Fits) ∧
      (∀ entry ∈ entries, isLineageOption entry.type = false) ∧
      ∀ entry ∈ entries, AllowedOption manifest.features isKnownTableOptionType entry := by
  obtain ⟨entries, hentries, hfits, hother, hallowed⟩ := h.options
  refine ⟨entries, hentries, hfits, hother, fun entry he => ?_⟩
  rcases hallowed entry he with hknown | hskip
  · have hlineage := hother entry he
    simp only [isKnownTableManifestType, Bool.or_assoc, Bool.or_eq_true] at hknown
    simp only [isLineageOption, Bool.or_eq_false_iff] at hlineage
    exact Or.inl (by simpa [hlineage.1, hlineage.2] using hknown)
  · exact Or.inr hskip

/-- A manifest whose options were replaced is well formed when it is not too large. -/
theorem WellFormed.replaced (h : manifest.WellFormed) (hvalid : options.Valid)
    {entries : List Tlv.Entry} (hfits : ∀ entry ∈ entries, entry.Fits)
    (hother : ∀ entry ∈ entries, isLineageOption entry.type = false)
    (hallowed : ∀ entry ∈ entries, AllowedOption manifest.features isKnownTableOptionType entry)
    {replaced : StoreManifest}
    (hreplaced : replaced = { manifest with
      options := Tlv.encodeAll (tableOptionEntries options ++ unknownEntries entries) })
    (hschema : decodeTableSchema schema = .ok manifest.schema)
    (hsize : kStoreManifestMinSize + replaced.optionsArea.length + schema.length
      ≤ kStoreManifestMaxSize) : replaced.WellFormed := by
  subst hreplaced
  refine ⟨⟨schema, hschema, hsize⟩, h.supported, h.blockBits, h.geometry, h.id_ne,
    ⟨_, rfl, fits_replaced hfits, ?_, ?_⟩, ⟨options, decodeTableOptions_replaced hvalid hfits⟩, ?_⟩
  · intro entry he
    rcases mem_append.1 he with he | he
    · exact isLineageOption_of_isKnown (mem_tableOptionEntries he).1
    · exact hother entry (mem_unknownEntries.1 he).1
  · intro entry he
    rcases mem_append.1 he with he | he
    · exact Or.inl (by simp [isKnownTableManifestType, (mem_tableOptionEntries he).1])
    · rcases hallowed entry (mem_unknownEntries.1 he).1 with hknown | hskip
      · exact Or.inl (by simp [isKnownTableManifestType, hknown])
      · exact Or.inr hskip
  · -- the check of the lineage reads no options
    exact h.lineage

/-- The size is the last thing that the serializer checks. -/
theorem serialize_of_tooLarge (hlineage : requireValidLineage manifest = .ok ())
    (hbits : manifest.geometry.blockBits = fixedBitsPerBlock manifest.schema.columns)
    (hschema : encodeTableSchema manifest.schema = .ok schema)
    (hsize : ¬ kStoreManifestMinSize + manifest.optionsArea.length + schema.length
      ≤ kStoreManifestMaxSize) :
    serializeStoreManifest manifest =
      .error ⟨.invalidArgument, "store manifest options and schema are too large"⟩ := by
  rw [serializeStoreManifest, hlineage, ok_bind, require_of hbits, ok_bind,
    hschema, ok_bind, require, if_neg hsize]
  rfl

end StoreManifest

/-- A manifest that was parsed is written and read back unchanged.  With its options replaced
by valid ones it decodes to these, its lineage and the records of unknown types stay as they
were, and it is written and read back unless it is larger than a manifest may be, which the
serializer refuses. -/
theorem store_manifest_round_trip {bytes : Bytes} {manifest : StoreManifest}
    (h : parseStoreManifest bytes = .ok manifest) :
    (∃ file, serializeStoreManifest manifest = .ok file ∧ parseStoreManifest file = .ok manifest) ∧
    ∀ options : TableOptions, options.Valid →
      ∃ replaced schema records, replaceTableOptions manifest options = .ok replaced ∧
        decodeTableOptions replaced.options = .ok options ∧
        replaced.lineage = manifest.lineage ∧
        unknownOptionRecords manifest.options = .ok records ∧
        unknownOptionRecords replaced.options = .ok records ∧
        encodeTableSchema manifest.schema = .ok schema ∧
        if kStoreManifestMinSize + replaced.optionsArea.length + schema.length
            ≤ kStoreManifestMaxSize then
          ∃ file, serializeStoreManifest replaced = .ok file ∧
            parseStoreManifest file = .ok replaced
        else serializeStoreManifest replaced =
          .error ⟨.invalidArgument, "store manifest options and schema are too large"⟩ := by
  have hwell := StoreManifest.wellFormed_of_parse h
  refine ⟨hwell.parse_serialize, fun options hvalid => ?_⟩
  obtain ⟨entries, hentries, hfits, hother, hallowed⟩ := hwell.allowed_tableOption
  obtain ⟨schema, hdecode, -⟩ := hwell.schema
  have hencode := encodeTableSchema_of_decode hdecode
  refine ⟨_, schema, (unknownEntries entries).flatMap fun entry => [entry.encode],
    replaceTableOptions_encodeAll hentries hfits hallowed options,
    decodeTableOptions_replaced hvalid hfits, rfl, ?_, ?_, hencode, ?_⟩
  · rw [hentries, unknownOptionRecords_encodeAll hfits]
  · rw [unknownOptionRecords_encodeAll (fits_replaced hfits), unknownEntries_replaced]
  · split
    case isTrue hsize =>
      exact (hwell.replaced hvalid hfits hother hallowed rfl hdecode hsize).parse_serialize
    case isFalse hsize =>
      -- the lineage and the geometry are those of the manifest that was parsed
      exact StoreManifest.serialize_of_tooLarge hwell.lineage hwell.blockBits hencode hsize

/-! ## A table of a later build -/

/-- Options a table may have. -/
theorem valid_default : TableOptions.Valid {} :=
  ⟨by decide, by decide, by decide, by decide, by simp, by simp⟩

/-- The manifest of a table `cells` that a later build wrote, with options of its own. -/
def laterManifest (entries : List Tlv.Entry) : StoreManifest :=
  ⟨⟨0, 0, 0x80000000⟩, ⟨1, 1, 4, 4, 8⟩, StoreId.ofByte 2, Tlv.encodeAll entries, cellsSchema, none⟩

/-- An option of a type this build does not know. -/
def laterOption (length : ℕ) : Tlv.Entry := ⟨100, List.replicate length 1⟩

section Later

variable {lengths : List ℕ}

theorem fits_laterOptions (h : ∀ length ∈ lengths, length < 256 ^ 2) :
    ∀ entry ∈ lengths.map laterOption, entry.Fits := by
  intro entry he
  obtain ⟨length, hlength, rfl⟩ := mem_map.1 he
  exact ⟨show 100 < 256 ^ 2 by decide, by simpa [laterOption] using h length hlength⟩

theorem allowed_laterOptions (isKnown : ℕ → Bool) :
    ∀ entry ∈ lengths.map laterOption,
      AllowedOption (laterManifest (lengths.map laterOption)).features isKnown entry := by
  intro entry _
  exact Or.inr (show maySkipUnknownTypes ⟨0, 0, 0x80000000⟩ = true by decide)

theorem unknownEntries_laterOptions :
    unknownEntries (lengths.map laterOption) = lengths.map laterOption := by
  refine filter_eq_self.2 fun entry he => ?_
  obtain ⟨length, -, rfl⟩ := mem_map.1 he
  rfl

theorem length_laterOptions :
    (Tlv.encodeAll (lengths.map laterOption)).length = 4 * lengths.length + lengths.sum := by
  induction lengths with
  | nil => rfl
  | cons length lengths ih =>
    rw [map_cons, Tlv.encodeAll_cons, length_append, ih, Tlv.length_encode, laterOption,
      length_replicate, length_cons, sum_cons, Tlv.headerSize]
    omega

/-- Such a manifest is accepted as long as it is not too large. -/
theorem wellFormed_laterManifest (h : ∀ length ∈ lengths, length < 256 ^ 2)
    (hsize : 4 * lengths.length + lengths.sum ≤ kStoreManifestMaxSize - 96) :
    (laterManifest (lengths.map laterOption)).WellFormed := by
  have hschema : decodeTableSchema (schemaArea cellsSchema) = .ok cellsSchema := by decide +kernel
  have hlength : (schemaArea cellsSchema).length = 32 := by decide +kernel
  have hunknown : ∀ entry ∈ lengths.map laterOption, isKnownTableOptionType entry.type = false := by
    intro entry he
    obtain ⟨length, -, rfl⟩ := mem_map.1 he
    rfl
  have hgeometry : GeometryConfig.construct ⟨1, 1, 4, 4, 8⟩ cellsSchema = .ok () := by
    decide +kernel
  refine ⟨⟨_, hschema, ?_⟩, show fixedBitsPerBlock cellsSchema.columns ≠ 0 by decide,
    show 8 = fixedBitsPerBlock cellsSchema.columns by decide, hgeometry,
    show StoreId.ofByte 2 ≠ .zero by decide, ⟨_, rfl, fits_laterOptions h, ?_,
    allowed_laterOptions _⟩, ⟨{}, ?_⟩, rfl⟩
  · rw [hlength, StoreManifest.optionsArea, laterManifest, length_append, length_laterOptions,
      kStoreManifestMinSize]
    rw [kStoreManifestMaxSize] at hsize ⊢
    simp only [lineageEntries, elim_none, Tlv.encodeAll_nil, length_nil]
    omega
  · intro entry he
    obtain ⟨length, -, rfl⟩ := mem_map.1 he
    rfl
  · rw [decodeTableOptions, laterManifest, Tlv.fold_encodeAll _ _ _ (fits_laterOptions h),
      decodeTableOption_of_unknown hunknown]
    rfl

/-- The size of such a manifest after its options were replaced by the default ones. -/
theorem length_replaced_laterManifest (h : ∀ length ∈ lengths, length < 256 ^ 2) :
    ∃ replaced, replaceTableOptions (laterManifest (lengths.map laterOption)) {} = .ok replaced ∧
      replaced.optionsArea.length = 58 + (4 * lengths.length + lengths.sum) := by
  refine ⟨_, replaceTableOptions_encodeAll rfl (fits_laterOptions h) (allowed_laterOptions _) _, ?_⟩
  rw [StoreManifest.optionsArea, laterManifest, unknownEntries_laterOptions, Tlv.encodeAll_append,
    length_append, length_append, length_laterOptions]
  rfl

end Later

theorem store_manifest_round_trip_later :
    ∃ bytes replaced, parseStoreManifest bytes = .ok (laterManifest [laterOption 3]) ∧
      replaceTableOptions (laterManifest [laterOption 3]) {} = .ok replaced ∧
      decodeTableOptions replaced.options = .ok {} ∧
      unknownOptionRecords replaced.options = .ok [(laterOption 3).encode] ∧
      ∃ file, serializeStoreManifest replaced = .ok file ∧
        parseStoreManifest file = .ok replaced := by
  have hlengths : ∀ length ∈ [3], length < 256 ^ 2 := by decide
  have hwell := wellFormed_laterManifest hlengths (by decide)
  obtain ⟨bytes, -, hparse⟩ := hwell.parse_serialize
  obtain ⟨replaced, schema, records, hreplace, hdecode, -, hbefore, hafter, hschema, hfile⟩ :=
    (store_manifest_round_trip hparse).2 {} valid_default
  obtain ⟨replaced', hreplace', hlength⟩ := length_replaced_laterManifest hlengths
  cases hreplace.symm.trans hreplace'
  have hrecords : unknownOptionRecords (laterManifest [laterOption 3]).options
      = .ok [(laterOption 3).encode] := by decide +kernel
  cases hbefore.symm.trans hrecords
  have harea : encodeTableSchema cellsSchema = .ok (schemaArea cellsSchema) := by decide +kernel
  cases hschema.symm.trans harea
  rw [if_pos (by rw [hlength]; decide +kernel)] at hfile
  exact ⟨bytes, replaced, hparse, hreplace, hdecode, hafter, hfile⟩

/-- The options of a manifest that is as large as a manifest may be. -/
def fullLengths : List ℕ := List.replicate 15 65535 ++ [65391]

/-- A manifest that is accepted and that has no room for the options of its table. -/
theorem replaced_manifest_too_large :
    ∃ bytes replaced, parseStoreManifest bytes = .ok (laterManifest (fullLengths.map laterOption)) ∧
      TableOptions.Valid {} ∧
      replaceTableOptions (laterManifest (fullLengths.map laterOption)) {} = .ok replaced ∧
      serializeStoreManifest replaced =
        .error ⟨.invalidArgument, "store manifest options and schema are too large"⟩ := by
  have hlengths : ∀ length ∈ fullLengths, length < 256 ^ 2 := by decide
  have hwell := wellFormed_laterManifest hlengths (by decide)
  obtain ⟨bytes, -, hparse⟩ := hwell.parse_serialize
  obtain ⟨replaced, hreplace, hlength⟩ := length_replaced_laterManifest hlengths
  have heq := replaceTableOptions_encodeAll rfl (fits_laterOptions hlengths)
    (allowed_laterOptions isKnownTableOptionType) {}
  cases hreplace.symm.trans heq
  have harea : encodeTableSchema cellsSchema = .ok (schemaArea cellsSchema) := by decide +kernel
  have hschema : (schemaArea cellsSchema).length = 32 := by decide +kernel
  refine ⟨bytes, _, hparse, valid_default, heq, ?_⟩
  have hsize : ¬ kStoreManifestMinSize + (58 + (4 * fullLengths.length + fullLengths.sum)) + 32
      ≤ kStoreManifestMaxSize := by decide
  rw [← hlength, ← hschema] at hsize
  exact StoreManifest.serialize_of_tooLarge rfl hwell.blockBits harea hsize

end ChunkDb
