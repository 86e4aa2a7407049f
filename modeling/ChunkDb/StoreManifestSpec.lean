/-
# Manifests are read back as they were written

`StoreManifest.WellFormed` says what the parser of a table manifest accepts.  A parsed
manifest is well formed, and a well formed one is written and read back unchanged.
-/
import ChunkDb.StoreManifest

open LittleEndian List Option

namespace ChunkDb

open Tlv

/-! ## Parts of a manifest -/

theorem storeIdAt_eq {bytes : Bytes} {offset : ℕ} {id : StoreId}
    (h : (bytes.drop offset).take 16 = id.bytes) : storeIdAt bytes offset = id := by
  obtain ⟨idBytes, hlen⟩ := id
  have hlong : 16 ≤ (bytes.drop offset).length := by
    have hlength := congrArg List.length h
    rw [length_take, hlen] at hlength
    omega
  simp only [storeIdAt, StoreId.mk.injEq]
  rw [takeD_eq_take _ hlong, h]

@[simp] theorem length_withCrc (bytes : Bytes) : (withCrc bytes).length = bytes.length + 4 := by
  simp [withCrc]

theorem take_withCrc (body : Bytes) : (withCrc body).take ((withCrc body).length - 4) = body := by
  have hsize : (withCrc body).length - 4 = body.length := by simp
  rw [hsize, withCrc, take_left]

/-- The checksum of a file is read back. -/
theorem checksum_withCrc (body : Bytes) :
    readLe 4 (withCrc body) ((withCrc body).length - 4)
      = crc32 ((withCrc body).take ((withCrc body).length - 4)) := by
  have hsize : (withCrc body).length - 4 = body.length := by simp
  rw [take_withCrc, hsize, withCrc, ← append_nil (leBytes 4 (crc32 body))]
  exact readLe_middle 4 _ _ _ _ rfl (crc32_lt _)

theorem requireIntactManifest_withCrc {body : Bytes} (hreserved : readLe 2 (withCrc body) 6 = 0) :
    requireIntactManifest (withCrc body) = .ok () := by
  rw [requireIntactManifest, require_of (checksum_withCrc body), ok_bind, require_of hreserved]

theorem rethrow_eq_ok {A : Type} {text : String} {result : Fallible A} {a : A} :
    rethrow text result = .ok a ↔ result = .ok a := by
  cases result <;> simp [rethrow, Except.mapError]

theorem rethrowInvalidArgument_eq_ok {A : Type} {text : String} {result : Fallible A} {a : A} :
    rethrowInvalidArgument text result = .ok a ↔ result = .ok a := by
  cases result <;> simp [rethrowInvalidArgument, Except.mapError]

/-! ## Options -/

/-- What an entry of an options area may be. -/
def AllowedOption (features : FeatureFlags) (isKnown : ℕ → Bool) (entry : Tlv.Entry) : Prop :=
  isKnown entry.type = true ∨ maySkipUnknownTypes features = true

variable {entries : List Tlv.Entry} {found : Option StoreId × Option UInt64}

/-- An area that `ValidateOptions` accepts: entries, each of a known type unless unknown types
may be skipped. -/
theorem validateOptions_encodeAll {features : FeatureFlags} {isKnown : ℕ → Bool}
    (hfits : ∀ entry ∈ entries, entry.Fits) :
    validateOptions (Tlv.encodeAll entries) features isKnown = .ok () ↔
      ∀ entry ∈ entries, AllowedOption features isKnown entry := by
  rw [validateOptions, fold_encodeAll _ _ _ hfits]
  clear hfits
  induction entries with
  | nil => simp [pure, Except.pure]
  | cons entry entries ih =>
    rw [foldlM_cons, require_bind, ih, forall_mem_cons]
    rfl

theorem exists_entries_of_validateOptions {options : Bytes} {features : FeatureFlags}
    {isKnown : ℕ → Bool} (h : validateOptions options features isKnown = .ok ()) :
    ∃ entries, options = Tlv.encodeAll entries ∧ (∀ entry ∈ entries, entry.Fits) ∧
      ∀ entry ∈ entries, AllowedOption features isKnown entry := by
  obtain ⟨entries, rfl, hfits⟩ := exists_entries_of_fold h
  exact ⟨entries, rfl, hfits, (validateOptions_encodeAll hfits).1 h⟩

/-! ## Lineage -/

theorem isKnown_lineageEntries (lineage : Option TableLineage) :
    ∀ entry ∈ lineageEntries lineage, isKnownTableManifestType entry.type = true := by
  cases lineage with
  | none => simp [lineageEntries]
  | some lineage =>
    simp only [lineageEntries, elim_some, forall_mem_cons]
    exact ⟨rfl, rfl, by simp⟩

/-- The bytes that the options of the lineage take, for the parts found so far. -/
def lineageSize (found : Option StoreId × Option UInt64) : ℕ :=
  (if found.1.isSome then 20 else 0) + if found.2.isSome then 12 else 0

/-- One entry of the first loop: one of another type changes nothing, one of the lineage adds
its part, and nothing found is forgotten. -/
theorem decodeLineageOption_spec {found' : Option StoreId × Option UInt64} {entry : Tlv.Entry}
    (h : decodeLineageOption found entry = .ok found') :
    (isLineageOption entry.type = false ∧ found' = found) ∨
      (isLineageOption entry.type = true ∧
        lineageSize found' = lineageSize found + entry.encode.length) := by
  unfold decodeLineageOption at h
  split at h
  case isTrue htype =>
    simp only [require_bind] at h
    obtain ⟨hnone, hlen, h⟩ := h
    cases h
    refine Or.inr ⟨by simp [isLineageOption, htype], ?_⟩
    simp only [lineageSize, hnone, hlen, length_encode, headerSize, isSome_none,
      isSome_some, if_true]
    simp
    omega
  case isFalse htype =>
    split at h
    case isTrue htype' =>
      simp only [require_bind] at h
      obtain ⟨hnone, hlen, h⟩ := h
      cases h
      refine Or.inr ⟨by simp [isLineageOption, htype'], ?_⟩
      simp only [lineageSize, hnone, hlen, length_encode, headerSize, isSome_none,
        isSome_some, if_true]
      simp
    case isFalse htype' =>
      cases h
      exact Or.inl ⟨by simp [isLineageOption, htype, htype'], rfl⟩

/-- The entries of an area that are not of the lineage. -/
def keptEntries (entries : List Tlv.Entry) : List Tlv.Entry :=
  entries.filter fun entry => !isLineageOption entry.type

/-- The first loop takes out of the area what it finds. -/
theorem decodeLineageOptions_length {found' : Option StoreId × Option UInt64}
    (h : entries.foldlM decodeLineageOption found = .ok found') :
    (Tlv.encodeAll entries).length + lineageSize found
      = (Tlv.encodeAll (keptEntries entries)).length + lineageSize found' := by
  induction entries generalizing found with
  | nil =>
    cases h
    rfl
  | cons entry entries ih =>
    rw [foldlM_cons] at h
    obtain ⟨mid, hmid, h⟩ := bind_eq_ok.1 h
    have ih := ih h
    rw [encodeAll_cons, length_append]
    rcases decodeLineageOption_spec hmid with ⟨hother, rfl⟩ | ⟨hlineage, hsize⟩
    · rw [keptEntries, filter_cons_of_pos (by simp [hother]), encodeAll_cons,
        length_append, ← keptEntries]
      omega
    · rw [keptEntries, filter_cons_of_neg (by simp [hlineage]), ← keptEntries]
      omega

/-- A loop that copies the entries of all but some types. -/
theorem foldlM_append_unless {B : Type} (skip : ℕ → Bool) (piece : Tlv.Entry → List B)
    (entries : List Tlv.Entry) (kept : List B) :
    entries.foldlM (fun kept (entry : Tlv.Entry) =>
        (return if skip entry.type then kept else kept ++ piece entry : Fallible (List B))) kept
      = .ok (kept ++ (entries.filter fun entry => !skip entry.type).flatMap piece) := by
  induction entries generalizing kept with
  | nil => simp [pure, Except.pure]
  | cons entry entries ih =>
    rw [foldlM_cons, pure_bind, ih]
    cases hskip : skip entry.type
    · rw [filter_cons_of_pos (by simp [hskip])]
      simp
    · rw [filter_cons_of_neg (by simp [hskip])]
      simp

/-- The second loop. -/
theorem withoutLineage_encodeAll (hfits : ∀ entry ∈ entries, entry.Fits) :
    withoutLineage (Tlv.encodeAll entries) = .ok (Tlv.encodeAll (keptEntries entries)) := by
  rw [withoutLineage, fold_encodeAll _ _ _ hfits, foldlM_append_unless, nil_append]
  rfl

/-- What is taken out of an area is not empty. -/
theorem keptEntries_eq_self_or_shorter (entries : List Tlv.Entry) :
    keptEntries entries = entries ∨
      (Tlv.encodeAll (keptEntries entries)).length < (Tlv.encodeAll entries).length := by
  induction entries with
  | nil => exact Or.inl rfl
  | cons entry entries ih =>
    rw [encodeAll_cons, length_append, length_encode, headerSize]
    cases hlineage : isLineageOption entry.type
    · rw [keptEntries, filter_cons_of_pos (by simp [hlineage]), ← keptEntries,
        encodeAll_cons, length_append, length_encode, headerSize]
      rcases ih with heq | hlt
      · exact Or.inl (by rw [heq])
      · exact Or.inr (by omega)
    · rw [keptEntries, filter_cons_of_neg (by simp [hlineage]), ← keptEntries]
      rcases ih with heq | hlt
      · exact Or.inr (by rw [heq]; omega)
      · exact Or.inr (by omega)

theorem length_lineageEntries (lineage : TableLineage) :
    (Tlv.encodeAll (lineageEntries (some lineage))).length = 32 := by
  simp [lineageEntries, headerSize, lineage.parentEpoch.length_eq]

theorem fits_lineageEntries (lineage : Option TableLineage) :
    ∀ entry ∈ lineageEntries lineage, entry.Fits := by
  cases lineage with
  | none => simp [lineageEntries]
  | some lineage =>
    simp only [lineageEntries, elim_some, forall_mem_cons]
    have hparent : kOptionParentEpoch < 256 ^ 2 := by decide
    have hfork : kOptionForkRevision < 256 ^ 2 := by decide
    refine ⟨⟨hparent, ?_⟩, ⟨hfork, ?_⟩, by simp⟩
    · rw [lineage.parentEpoch.length_eq]
      decide
    · rw [length_leBytes]
      decide

/-- `DecodeLineage`: the options of the lineage leave the area and nothing else changes. -/
theorem decodeLineage_spec {manifest manifest' : StoreManifest}
    (hoptions : manifest.options = Tlv.encodeAll entries) (hfits : ∀ entry ∈ entries, entry.Fits)
    (hnone : manifest.lineage = none) (h : decodeLineage manifest = .ok manifest') :
    (∃ lineage, manifest' =
      { manifest with options := Tlv.encodeAll (keptEntries entries), lineage := lineage }) ∧
      requireValidLineage manifest' = .ok () ∧
      manifest'.optionsArea.length = manifest.options.length := by
  unfold decodeLineage at h
  rw [hoptions, fold_encodeAll _ _ _ hfits] at h
  obtain ⟨⟨parent, fork⟩, hloop, h⟩ := bind_eq_ok.1 h
  have hlength := decodeLineageOptions_length hloop
  obtain ⟨hboth, h⟩ := check_bind_eq_ok.1 h
  rw [require_eq_ok] at hboth
  match parent, fork with
  | some parent, some fork =>
    obtain ⟨hvalid, h⟩ := check_bind_eq_ok.1 h
    rw [rethrowInvalidArgument_eq_ok] at hvalid
    rw [withoutLineage_encodeAll hfits] at h
    cases h
    refine ⟨⟨_, rfl⟩, hvalid, ?_⟩
    rw [hoptions, StoreManifest.optionsArea, length_append, length_lineageEntries]
    simp only [lineageSize, isSome_none, isSome_some, if_true] at hlength
    simpa using hlength.symm
  | none, none =>
    cases h
    have hkept : keptEntries entries = entries := by
      rcases keptEntries_eq_self_or_shorter entries with heq | hlt
      · exact heq
      · omega
    refine ⟨⟨none, by rw [hkept, ← hoptions, ← hnone]⟩, by rw [requireValidLineage, hnone], ?_⟩
    rw [StoreManifest.optionsArea, hnone]
    simp [lineageEntries]
  | some parent, none => simp at hboth
  | none, some fork => simp at hboth

theorem decodeLineageOption_of_other {entry : Tlv.Entry} (h : isLineageOption entry.type = false) :
    decodeLineageOption found entry = .ok found := by
  simp only [isLineageOption, Bool.or_eq_false_iff, decide_eq_false_iff_not] at h
  rw [decodeLineageOption, if_neg h.1, if_neg h.2]
  rfl

theorem decodeLineageOptions_of_other (h : ∀ entry ∈ entries, isLineageOption entry.type = false) :
    entries.foldlM decodeLineageOption found = .ok found := by
  induction entries with
  | nil => rfl
  | cons entry entries ih =>
    rw [foldlM_cons, decodeLineageOption_of_other (h entry mem_cons_self), ok_bind]
    exact ih fun e he => h e (mem_cons_of_mem _ he)

/-- The options of the lineage are read back. -/
theorem decodeLineageOptions_lineageEntries (lineage : TableLineage) :
    (lineageEntries (some lineage)).foldlM decodeLineageOption (none, none)
      = .ok (some lineage.parentEpoch, some lineage.forkRevision) := by
  have hparent : decodeLineageOption (none, none)
      ⟨kOptionParentEpoch, lineage.parentEpoch.bytes⟩ = .ok (some lineage.parentEpoch, none) := by
    have hid : storeIdAt lineage.parentEpoch.bytes 0 = lineage.parentEpoch :=
      storeIdAt_eq (take_of_length_le lineage.parentEpoch.length_eq.le)
    rw [decodeLineageOption, if_pos rfl, require_of rfl, ok_bind,
      require_of lineage.parentEpoch.length_eq, ok_bind, hid]
    rfl
  have hfork : decodeLineageOption (some lineage.parentEpoch, none)
      ⟨kOptionForkRevision, leBytes 8 lineage.forkRevision.toNat⟩
        = .ok (some lineage.parentEpoch, some lineage.forkRevision) := by
    have htype : kOptionForkRevision ≠ kOptionParentEpoch := by decide
    rw [decodeLineageOption, if_neg htype, if_pos rfl, require_of rfl, ok_bind,
      require_of (length_leBytes 8 _), ok_bind,
      leNat_leBytes_of_lt _ _ (by simpa using lineage.forkRevision.toNat_lt), UInt64.ofNat_toNat]
    rfl
  rw [lineageEntries, elim_some, foldlM_cons, hparent, ok_bind, foldlM_cons, hfork, ok_bind]
  rfl

theorem keptEntries_append_lineageEntries
    (h : ∀ entry ∈ entries, isLineageOption entry.type = false) (lineage : Option TableLineage) :
    keptEntries (entries ++ lineageEntries lineage) = entries := by
  have hlineage : (lineageEntries lineage).filter (fun entry => !isLineageOption entry.type) = [] := by
    cases lineage with
    | none => rfl
    | some lineage => rfl
  rw [keptEntries, filter_append, hlineage, append_nil, filter_eq_self]
  intro entry he
  simp [h entry he]

/-- The options area of a manifest gives back its options and its lineage. -/
theorem decodeLineage_optionsArea {manifest : StoreManifest}
    (hoptions : manifest.options = Tlv.encodeAll entries) (hfits : ∀ entry ∈ entries, entry.Fits)
    (hother : ∀ entry ∈ entries, isLineageOption entry.type = false)
    (hvalid : requireValidLineage manifest = .ok ()) :
    decodeLineage { manifest with options := manifest.optionsArea, lineage := none }
      = .ok manifest := by
  obtain ⟨features, geometry, storeId, options, schema, lineage⟩ := manifest
  subst hoptions
  have hall : ∀ entry ∈ entries ++ lineageEntries lineage, entry.Fits := by
    intro entry he
    rcases mem_append.1 he with he | he
    · exact hfits entry he
    · exact fits_lineageEntries lineage entry he
  have harea : StoreManifest.optionsArea
      ⟨features, geometry, storeId, encodeAll entries, schema, lineage⟩
        = encodeAll (entries ++ lineageEntries lineage) := by
    rw [StoreManifest.optionsArea, encodeAll_append]
  rw [harea, decodeLineage, fold_encodeAll _ _ _ hall, foldlM_append,
    decodeLineageOptions_of_other hother, ok_bind]
  cases lineage with
  | none => simp [lineageEntries, pure, Except.pure, require, bind, Except.bind]
  | some lineage =>
    rw [decodeLineageOptions_lineageEntries, ok_bind]
    have hboth : (some lineage.parentEpoch).isSome = (some lineage.forkRevision).isSome := rfl
    -- the check reads no options
    have hvalid : requireValidLineage ⟨features, geometry, storeId,
        encodeAll (entries ++ lineageEntries (some lineage)), schema, some lineage⟩ = .ok () :=
      hvalid
    dsimp only
    rw [require_of hboth, ok_bind, rethrowInvalidArgument_eq_ok.2 hvalid, ok_bind,
      withoutLineage_encodeAll hall, ok_bind, keptEntries_append_lineageEntries hother]
    rfl

/-! ## Table manifests -/

/-- What `ParseStoreManifest` accepts. -/
structure StoreManifest.WellFormed (manifest : StoreManifest) : Prop where
  schema : ∃ area, decodeTableSchema area = .ok manifest.schema ∧
    kStoreManifestMinSize + manifest.optionsArea.length + area.length ≤ kStoreManifestMaxSize
  supported : fixedBitsPerBlock manifest.schema.columns ≠ 0
  blockBits : manifest.geometry.blockBits = fixedBitsPerBlock manifest.schema.columns
  geometry : manifest.geometry.construct manifest.schema = .ok ()
  id_ne : manifest.storeId ≠ .zero
  options : ∃ entries, manifest.options = Tlv.encodeAll entries ∧
    (∀ entry ∈ entries, entry.Fits) ∧ (∀ entry ∈ entries, isLineageOption entry.type = false) ∧
    ∀ entry ∈ entries, AllowedOption manifest.features isKnownTableManifestType entry
  decodes : ∃ options, decodeTableOptions manifest.options = .ok options
  lineage : requireValidLineage manifest = .ok ()

namespace StoreManifest

/-- The frame of a file that is accepted: its parts fill it. -/
theorem length_of_frame {bytes : Bytes} (h : requireStoreManifestFrame bytes = .ok ()) :
    bytes.length = kStoreManifestMinSize + readLe 4 bytes kOptionsSizeOffset
        + readLe 4 bytes (kOptionsOffset + readLe 4 bytes kOptionsSizeOffset) ∧
      bytes.length ≤ kStoreManifestMaxSize := by
  simp only [requireStoreManifestFrame, check_bind_eq_ok, require_eq_ok] at h
  obtain ⟨-, -, -, ⟨hmin, hmax⟩, -, hoptions, hschema⟩ := h
  refine ⟨?_, hmax⟩
  simp only [kStoreManifestMinSize, kOptionsOffset] at *
  omega

theorem wellFormed_of_parse {bytes : Bytes} {manifest : StoreManifest}
    (h : parseStoreManifest bytes = .ok manifest) : manifest.WellFormed := by
  unfold parseStoreManifest at h
  obtain ⟨hframe, h⟩ := check_bind_eq_ok.1 h
  obtain ⟨schema, hschema, h⟩ := bind_eq_ok.1 h
  simp only [check_bind_eq_ok, require_eq_ok, rethrowInvalidArgument_eq_ok] at h
  obtain ⟨hsupported, hgeometry, hid, hoptions, h⟩ := h
  obtain ⟨parsed, hlineage, h⟩ := bind_eq_ok.1 h
  obtain ⟨decoded, hdecoded, h⟩ := bind_eq_ok.1 h
  cases h
  rw [rethrow_eq_ok] at hschema
  obtain ⟨entries, hentries, hfits, hallowed⟩ := exists_entries_of_validateOptions hoptions
  obtain ⟨⟨lineage, rfl⟩, hvalid, harea⟩ := decodeLineage_spec hentries hfits rfl hlineage
  obtain ⟨hlen, hmax⟩ := length_of_frame hframe
  have hkept : ∀ entry ∈ keptEntries entries, entry ∈ entries ∧ isLineageOption entry.type = false := by
    intro entry he
    simpa [keptEntries] using he
  refine ⟨⟨_, hschema, ?_⟩, hsupported, rfl, hgeometry, hid,
    ⟨_, rfl, fun entry he => hfits entry (hkept entry he).1, fun entry he => (hkept entry he).2,
      fun entry he => hallowed entry (hkept entry he).1⟩, ⟨decoded, hdecoded⟩, hvalid⟩
  rw [harea, length_take, length_take, length_drop, length_drop]
  simp only [kStoreManifestMinSize, kOptionsOffset] at *
  omega

variable (manifest : StoreManifest) (area : Bytes)

/-- The fields of a written manifest, in order. -/
theorem fieldsAt_file :
    FieldsAt [.raw kStoreManifestMagic, .num 2 kStoreManifestVersion, .num 2 0,
      .num 4 manifest.features.incompat.toNat, .num 4 manifest.features.roCompat.toNat,
      .num 4 manifest.features.compat.toNat, .num 4 manifest.geometry.largeChunkWidthChunks,
      .num 4 manifest.geometry.largeChunkHeightChunks, .num 4 manifest.geometry.chunkWidthBlocks,
      .num 4 manifest.geometry.chunkHeightBlocks, .raw manifest.storeId.bytes,
      .num 4 manifest.optionsArea.length, .raw manifest.optionsArea, .num 4 area.length, .raw area]
      (withCrc (manifest.body area)) 0 := by
  simp only [withCrc, body, manifestStart, geometryFields, append_assoc]
  exact fieldsAt_encodeFields _ _

/-- The areas follow the first 52 bytes. -/
theorem fieldsAt_options :
    FieldsAt [.num 4 manifest.optionsArea.length, .raw manifest.optionsArea, .num 4 area.length,
      .raw area] (withCrc (manifest.body area)) kOptionsSizeOffset := by
  obtain ⟨-, -, -, -, -, -, -, -, -, -, -, hrest⟩ := manifest.fieldsAt_file area
  rwa [manifest.storeId.length_eq] at hrest

theorem length_file : (withCrc (manifest.body area)).length
    = kStoreManifestMinSize + manifest.optionsArea.length + area.length := by
  simp only [withCrc, body, manifestStart, geometryFields, length_append, length_leBytes,
    manifest.storeId.length_eq, show kStoreManifestMagic.length = 4 from rfl, kStoreManifestMinSize]
  omega

/-- Sizes that the `Geometry` constructor accepts fit their fields. -/
theorem geometry_file (hcheck : manifest.geometry.construct manifest.schema = .ok ())
    (hbits : manifest.geometry.blockBits = fixedBitsPerBlock manifest.schema.columns) :
    manifestGeometry (withCrc (manifest.body area)) manifest.schema = manifest.geometry := by
  obtain ⟨hcheck, -⟩ := check_bind_eq_ok.1 hcheck
  simp only [GeometryConfig.check, requireAtMost, require_bind] at hcheck
  obtain ⟨-, -, -, hlargeWidth, hlargeHeight, hwidth, hheight, -⟩ := hcheck
  rw [kMaxLargeChunkDimensionChunks] at hlargeWidth hlargeHeight
  rw [kMaxChunkDimensionBlocks] at hwidth hheight
  obtain ⟨-, -, -, -, -, -, h0, h4, h8, h12, -⟩ := manifest.fieldsAt_file area
  exact (GeometryConfig.mk.injEq ..).mpr
    ⟨h0 (by omega), h4 (by omega), h8 (by omega), h12 (by omega), hbits.symm⟩

/-- The frame of a written manifest is accepted. -/
theorem frame_file (hsize : kStoreManifestMinSize + manifest.optionsArea.length + area.length
      ≤ kStoreManifestMaxSize) :
    requireStoreManifestFrame (withCrc (manifest.body area)) = .ok () := by
  have hlen := manifest.length_file area
  simp only [kStoreManifestMinSize, kStoreManifestMaxSize] at hsize hlen
  obtain ⟨hmagic, hversion, hreserved, -⟩ := manifest.fieldsAt_file area
  obtain ⟨hoptions, -, hschema, -⟩ := manifest.fieldsAt_options area
  have hmagic : (withCrc (manifest.body area)).take 4 = kStoreManifestMagic := hmagic
  have hversion : readLe 2 (withCrc (manifest.body area)) 4 = kStoreManifestVersion :=
    hversion (by decide)
  have hschema : readLe 4 (withCrc (manifest.body area))
      (kOptionsOffset + manifest.optionsArea.length) = area.length := hschema (by omega)
  simp only [requireStoreManifestFrame, check_bind_eq_ok, require_eq_ok, hmagic, hversion,
    requireIntactManifest_withCrc (hreserved (by decide)), hoptions (by omega), hschema, hlen,
    kStoreManifestMinSize, kStoreManifestMaxSize]
  rw [kOptionsOffset]
  exact ⟨⟨by omega, trivial⟩, by decide, trivial, ⟨by omega, by omega⟩, trivial, by omega, by omega⟩

variable {manifest}

/-- A well formed table manifest is read back. -/
theorem WellFormed.parse_serialize (h : manifest.WellFormed) :
    ∃ bytes, serializeStoreManifest manifest = .ok bytes ∧
      parseStoreManifest bytes = .ok manifest := by
  obtain ⟨area, hdecode, hsize⟩ := h.schema
  obtain ⟨entries, hentries, hfits, hother, hallowed⟩ := h.options
  obtain ⟨decoded, hdecoded⟩ := h.decodes
  refine ⟨withCrc (manifest.body area), ?_, ?_⟩
  · rw [serializeStoreManifest, h.lineage, ok_bind, require_of h.blockBits,
      ok_bind, encodeTableSchema_of_decode hdecode, ok_bind, require_of hsize]
    rfl
  have hshort : manifest.optionsArea.length < 256 ^ 4 ∧ area.length < 256 ^ 4 := by
    simp only [kStoreManifestMinSize, kStoreManifestMaxSize] at hsize
    omega
  obtain ⟨-, -, -, hfeatures⟩ := manifest.fieldsAt_file area
  have hid : storeIdAt (withCrc (manifest.body area)) kStoreIdOffset = manifest.storeId := by
    obtain ⟨-, -, -, -, -, -, -, hid, -⟩ := hfeatures
    rw [manifest.storeId.length_eq] at hid
    exact storeIdAt_eq hid
  have hfeatures : manifestFeatures (withCrc (manifest.body area)) = manifest.features :=
    features_eq_of_fieldsAt hfeatures
  obtain ⟨hoptionsSize, hoptions, hschemaSize, hschema, -⟩ := manifest.fieldsAt_options area
  have hschemaSize : readLe 4 (withCrc (manifest.body area))
      (kOptionsOffset + manifest.optionsArea.length) = area.length := hschemaSize hshort.2
  have hoptions : ((withCrc (manifest.body area)).drop kOptionsOffset).take
      manifest.optionsArea.length = manifest.optionsArea := hoptions
  have hschema : ((withCrc (manifest.body area)).drop
      (kOptionsOffset + manifest.optionsArea.length + 4)).take area.length = area := hschema
  have hvalid : validateOptions manifest.optionsArea manifest.features isKnownTableManifestType
      = .ok () := by
    rw [optionsArea, hentries, ← encodeAll_append, validateOptions_encodeAll]
    · intro entry he
      rcases mem_append.1 he with he | he
      · exact hallowed entry he
      · exact Or.inl (isKnown_lineageEntries _ entry he)
    · intro entry he
      rcases mem_append.1 he with he | he
      · exact hfits entry he
      · exact fits_lineageEntries _ entry he
  have hlineage := decodeLineage_optionsArea hentries hfits hother h.lineage
  simp only [parseStoreManifest, manifest.frame_file area hsize, ok_bind,
    hoptionsSize hshort.1, hschemaSize, hschema, hoptions, rethrow_eq_ok.2 hdecode, hid, hfeatures,
    manifest.geometry_file area h.geometry h.blockBits]
  rw [require_of h.supported, ok_bind, rethrowInvalidArgument_eq_ok.2 h.geometry, ok_bind,
    require_of h.id_ne, ok_bind, hvalid, ok_bind, hlineage, ok_bind, hdecoded]
  rfl

end StoreManifest

end ChunkDb
