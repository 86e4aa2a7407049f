/-
# Images are read back

* `parseChunkImage_serialize` : the image of a state is accepted and read as that state;
* `encodedSize_le_of_parse` : an accepted image has at most 64 MiB of values.
-/
import ChunkDb.Image

open LittleEndian List

namespace ChunkDb

open ImageSection

/-! ## Sections in the file -/

/-- The directory entry of a section as it is read. -/
def ImageSection.asEntry (part : ImageSection) : ImageSectionEntry :=
  ⟨part.type, part.flags, part.body.length, part.raw.length, crc32 part.raw⟩

@[simp] theorem ImageSection.length_entry (part : ImageSection) : part.entry.length = 16 := by
  simp only [entry, length_append, length_leBytes]

theorem length_flatMap_entry (sections : List ImageSection) :
    (sections.flatMap ImageSection.entry).length = sections.length * 16 := by
  induction sections with
  | nil => rfl
  | cons part sections ih =>
    rw [flatMap_cons, length_append, ih, part.length_entry, length_cons]
    omega

@[simp] theorem length_imageFixedHeader (label : ImageLabel) (sectionCount : ℕ) :
    (imageFixedHeader label sectionCount).length = 72 := by
  simp only [imageFixedHeader, length_append, length_leBytes, label.storeId.length_eq,
    kImageMagic, length_cons, length_nil]

theorem length_imageHead (label : ImageLabel) (sections : List ImageSection) :
    (imageHead label sections).length = 72 + sections.length * 16 := by
  rw [imageHead, length_append, length_imageFixedHeader, length_flatMap_entry]

/-- A section whose sizes and type fit in their fields. -/
structure ImageSection.Sized (part : ImageSection) : Prop where
  type_lt : part.type < 2 ^ 16
  flags_lt : part.flags < 2 ^ 16
  body_lt : part.body.length < 2 ^ 32
  raw_lt : part.raw.length < 2 ^ 32

variable {part : ImageSection} {index : ℕ} {sections done rest : List ImageSection}
  {bytes raw : Bytes} {geometry : Geometry} {state : ChunkState} {label : ImageLabel}

theorem fieldsAt_entry {before : Bytes} (hbefore : before.length = 72 + index * 16)
    (part : ImageSection) (after : Bytes) :
    FieldsAt [.num 2 part.type, .num 2 part.flags, .num 4 part.body.length, .num 4 part.raw.length,
      .num 4 (crc32 part.raw)] (before ++ (part.entry ++ after)) (72 + index * 16) := by
  simp only [entry, append_assoc]
  exact fieldsAt_append _ before _ hbefore.symm

/-- The raw size is read back even where the stored one does not fit. -/
theorem rawSize_read (hraw : part.raw.length < 2 ^ 32) {before : Bytes}
    (hbefore : before.length = 72 + index * 16) (after : Bytes) :
    (ImageSectionEntry.read (before ++ (part.entry ++ after)) index).rawSize = part.raw.length := by
  obtain ⟨-, -, -, hsize, -⟩ := fieldsAt_entry hbefore part after
  exact hsize hraw

theorem read_entry (h : part.Sized) {before : Bytes} (hbefore : before.length = 72 + index * 16)
    (after : Bytes) :
    ImageSectionEntry.read (before ++ (part.entry ++ after)) index = part.asEntry := by
  obtain ⟨htype, hflags, hstored, hraw, hcrc, -⟩ := fieldsAt_entry hbefore part after
  rw [asEntry, ← htype h.type_lt, ← hflags h.flags_lt, ← hstored h.body_lt,
    ← hraw h.raw_lt, ← hcrc (crc32_lt _)]
  rfl

/-- A file with these sections: their entries in the directory, and their bodies in order
to the end of the file. -/
structure HoldsSections (bytes : Bytes) (sections : List ImageSection) : Prop where
  entry_eq : ∀ {done part rest}, sections = done ++ part :: rest →
    ImageSectionEntry.read bytes done.length = part.asEntry
  bodies_eq : bytes.drop (72 + sections.length * 16 + 4) = sections.flatMap ImageSection.body
  length_eq : bytes.length
    = 72 + sections.length * 16 + 4 + (sections.flatMap ImageSection.body).length

theorem length_imageBytes (label : ImageLabel) (sections : List ImageSection) :
    (imageBytes label sections).length
      = 72 + sections.length * 16 + 4 + (sections.flatMap ImageSection.body).length := by
  rw [imageBytes, length_append, length_append, length_imageHead, length_leBytes]

/-- The bytes of an image, opened at the entry of a section. -/
theorem imageBytes_eq (label : ImageLabel) (done : List ImageSection) (part : ImageSection)
    (rest : List ImageSection) :
    ∃ before after, before.length = 72 + done.length * 16
      ∧ imageBytes label (done ++ part :: rest) = before ++ (part.entry ++ after) := by
  refine ⟨imageFixedHeader label (done ++ part :: rest).length ++ done.flatMap entry,
    rest.flatMap entry ++ (leBytes 4 (crc32 (imageHead label (done ++ part :: rest)))
      ++ (done ++ part :: rest).flatMap body), ?_, ?_⟩
  · rw [length_append, length_imageFixedHeader, length_flatMap_entry]
  · rw [imageBytes]
    nth_rewrite 1 [imageHead]
    rw [flatMap_append, flatMap_cons]
    simp only [append_assoc]

theorem holdsSections_imageBytes (label : ImageLabel) (h : ∀ part ∈ sections, part.Sized) :
    HoldsSections (imageBytes label sections) sections where
  entry_eq := by
    rintro done part rest rfl
    obtain ⟨before, after, hbefore, hbytes⟩ := imageBytes_eq label done part rest
    rw [hbytes]
    exact read_entry (h part (by simp)) hbefore after
  bodies_eq := by
    rw [imageBytes]
    refine drop_left' ?_
    rw [length_append, length_imageHead, length_leBytes]
  length_eq := length_imageBytes label sections

/-- The body of a section stands where the bodies before it end. -/
theorem HoldsSections.drop_eq (h : HoldsSections bytes (done ++ rest)) :
    bytes.drop (72 + (done ++ rest).length * 16 + 4 + (done.flatMap ImageSection.body).length)
      = rest.flatMap ImageSection.body := by
  rw [← drop_drop, h.bodies_eq, flatMap_append, drop_left' rfl]

theorem HoldsSections.body_le (h : HoldsSections bytes (done ++ part :: rest)) :
    72 + (done ++ part :: rest).length * 16 + 4 + (done.flatMap ImageSection.body).length
      + part.body.length ≤ bytes.length := by
  have hbodies : ((done ++ part :: rest).flatMap body).length
      = (done.flatMap body).length + (part.body.length + (rest.flatMap body).length) := by
    rw [flatMap_append, flatMap_cons, length_append, length_append]
  have hlen := h.length_eq
  omega

theorem length_bodies_concat (done : List ImageSection) (part : ImageSection) :
    ((done ++ [part]).flatMap ImageSection.body).length
      = (done.flatMap ImageSection.body).length + part.body.length := by
  rw [flatMap_append, length_append, flatMap_cons, flatMap_nil, append_nil]

/-! ## The loops over the sections -/

/-- A section that is accepted: its type is known, its sizes are within their limits, and its
body gives its raw bytes. -/
structure ImageSection.Readable (geometry : Geometry) (layout : ChunkLayout)
    (part : ImageSection) : Prop where
  type_mem : part.type ∈ [kImageSectionPayload, kImageSectionPresence, kImageSectionVars,
    kImageSectionSchema]
  raw_le : part.raw.length ≤ kMaxImageSectionRawBytes
  body_lt : part.body.length < 2 ^ 32
  expands : (part.flags = 0 ∧ part.body = part.raw)
    ∨ (part.flags = kImageSectionFlagZrle ∧ zrleDecompress part.body part.raw.length = .ok part.raw)
  known : ∀ size ∈ knownSectionRawSize geometry layout part.type, part.raw.length = size
  vars_ne : part.type = kImageSectionVars → part.raw ≠ []

namespace ImageSection.Readable

variable {geometry : Geometry} {layout : ChunkLayout} {part : ImageSection}

theorem sized (h : part.Readable geometry layout) : part.Sized where
  type_lt := by
    have := h.type_mem
    simp only [kImageSectionPayload, kImageSectionPresence, kImageSectionVars,
      kImageSectionSchema, mem_cons, not_mem_nil, or_false] at this
    omega
  flags_lt := by
    rcases h.expands with ⟨hflags, _⟩ | ⟨hflags, _⟩ <;> rw [hflags] <;> decide
  body_lt := h.body_lt
  raw_lt := h.raw_le.trans_lt (by decide)

/-- The checks of an accepted section pass. -/
theorem readSection_eq (h : part.Readable geometry layout) {bytes more : Bytes}
    {sections : SectionsRead} (hbody : bytes.drop sections.bodyAt = part.body ++ more)
    (hbodyAt : sections.bodyAt + part.body.length ≤ bytes.length)
    (horder : ∀ previous ∈ sections.previousType, previous < part.type) (maySkipUnknown : Bool) :
    readSection bytes geometry layout maySkipUnknown sections part.asEntry
      = .ok (sections.take geometry part.asEntry part.raw) := by
  have hlimit : part.raw.length ≤ kVarMaxChunkBytesLimit := h.raw_le
  have hraw : sectionRaw part.asEntry ((bytes.drop sections.bodyAt).take part.body.length)
      = .ok part.raw := by
    rw [hbody, take_left' rfl, sectionRaw]
    rcases h.expands with ⟨hflags, hplain⟩ | ⟨hflags, hzrle⟩
    · rw [if_neg (by simp [asEntry, hflags]), hplain]
    · rw [if_pos (by simp [asEntry, hflags, kImageSectionFlagZrle])]
      exact hzrle
  have hflags : part.flags &&& (2 ^ 16 - 1 - kImageSectionFlagZrle) = 0
      ∧ (part.flags &&& kImageSectionFlagZrle ≠ 0 ∨ part.body.length = part.raw.length) := by
    rcases h.expands with ⟨hflags, hplain⟩ | ⟨hflags, _⟩
    · rw [hflags, hplain]
      simp
    · rw [hflags]
      exact ⟨by decide, Or.inl (by decide)⟩
  have hvars : part.type = kImageSectionVars →
      part.raw.length ≠ 0 ∧ part.raw.length ≤ kVarMaxChunkBytesLimit := fun htype =>
    ⟨fun hzero => h.vars_ne htype (eq_nil_of_length_eq_zero hzero), hlimit⟩
  unfold readSection
  simp only [require_bind]
  refine ⟨horder, hflags.1, hflags.2, ?_, Or.inl h.type_mem, h.raw_le, h.known, hvars, ?_⟩
  · exact Nat.le_sub_of_add_le (by rw [Nat.add_comm]; exact hbodyAt)
  · rw [show part.asEntry.storedSize = part.body.length from rfl, hraw, ok_bind, require_bind]
    exact ⟨rfl, rfl⟩

end ImageSection.Readable

/-- A section taken with what its entry says. -/
def SectionsRead.takePart (geometry : Geometry) (sections : SectionsRead) (part : ImageSection) :
    SectionsRead :=
  sections.take geometry part.asEntry part.raw

/-- The loop over accepted sections in ascending order of their types takes them all. -/
theorem readSections_eq {layout : ChunkLayout} (hholds : HoldsSections bytes (done ++ rest))
    (hread : ∀ part ∈ rest, part.Readable geometry layout)
    (hascending : (rest.map ImageSection.type).Pairwise (· < ·)) {sections : SectionsRead}
    (hbodyAt : sections.bodyAt
      = 72 + (done ++ rest).length * 16 + 4 + (done.flatMap ImageSection.body).length)
    (hprevious : ∀ previous ∈ sections.previousType, ∀ part ∈ rest, previous < part.type)
    (maySkipUnknown : Bool) :
    readSections bytes geometry layout maySkipUnknown rest.length done.length sections
      = .ok (rest.foldl (SectionsRead.takePart geometry) sections) := by
  induction rest generalizing done sections with
  | nil => rfl
  | cons part rest ih =>
    obtain ⟨hpart, hrest⟩ := forall_mem_cons.mp hread
    obtain ⟨hbelow, hascending⟩ := pairwise_cons.mp hascending
    have hdrop := hholds.drop_eq
    rw [← hbodyAt, flatMap_cons] at hdrop
    have hend : sections.bodyAt + part.body.length ≤ bytes.length := by
      rw [hbodyAt]
      exact hholds.body_le
    have htake : (sections.take geometry part.asEntry part.raw).bodyAt
          = sections.bodyAt + part.body.length
        ∧ (sections.take geometry part.asEntry part.raw).previousType = some part.type := by
      unfold SectionsRead.take
      dsimp only
      split_ifs <;> exact ⟨rfl, rfl⟩
    have hsplit : done ++ part :: rest = (done ++ [part]) ++ rest := by simp
    rw [length_cons, readSections, hholds.entry_eq rfl,
      hpart.readSection_eq hdrop hend (fun previous hprev =>
        hprevious previous hprev part mem_cons_self), ok_bind, foldl_cons]
    have hlength : done.length + 1 = (done ++ [part]).length := by
      rw [length_append, length_singleton]
    rw [hlength]
    refine ih (hsplit ▸ hholds) hrest hascending ?_ ?_
    · rw [htake.1, hbodyAt, ← hsplit, length_bodies_concat, Nat.add_assoc _ _ part.body.length]
    · rw [htake.2]
      rintro previous hprev other hother
      obtain rfl := Option.mem_some_iff.mp hprev
      exact hbelow _ (mem_map_of_mem hother)

/-- The loop that looks for the schema version finds the section that has it. -/
theorem readSchemaVersion_eq (hholds : HoldsSections bytes (done ++ rest))
    (hschema : ∀ part ∈ rest, part.type = kImageSectionSchema →
      part.flags = 0 ∧ part.body = part.raw ∧ part.raw.length = 8) :
    readSchemaVersion bytes rest.length done.length
        (72 + (done ++ rest).length * 16 + 4 + (done.flatMap ImageSection.body).length)
      = .ok (((rest.find? (·.type = kImageSectionSchema)).map fun part => leNat part.raw).getD 1) := by
  induction rest generalizing done with
  | nil => rfl
  | cons part rest ih =>
    have hdrop := hholds.drop_eq
    rw [flatMap_cons] at hdrop
    have hend := hholds.body_le
    rw [length_cons, readSchemaVersion, hholds.entry_eq rfl]
    change (if bytes.length - _ < part.body.length then _
      else if part.type = kImageSectionSchema then _ else _) = _
    rw [if_neg (by omega)]
    by_cases htype : part.type = kImageSectionSchema
    · obtain ⟨hflags, hbody, hraw⟩ := hschema part mem_cons_self htype
      have hbytes : (bytes.drop (72 + (done ++ part :: rest).length * 16 + 4
          + (done.flatMap body).length)).take 8 = part.raw := by
        rw [hdrop, hbody]
        exact take_left' hraw
      have hstored : part.asEntry.storedSize = 8 := (congrArg List.length hbody).trans hraw
      have hcrc : crc32 part.raw = part.asEntry.crc := rfl
      rw [if_pos htype, require_of ⟨hflags, hstored, hraw⟩, ok_bind, hbytes, require_of hcrc,
        ok_bind, find?_cons_of_pos (by simpa using htype), readLe, hbytes]
      rfl
    · rw [if_neg htype, find?_cons_of_neg (by simpa using htype)]
      have hsplit : done ++ part :: rest = (done ++ [part]) ++ rest := by simp
      have hnext := ih (hsplit ▸ hholds) fun other hother =>
        hschema other (mem_cons_of_mem _ hother)
      rw [← hsplit, length_bodies_concat, length_append, length_singleton,
        ← Nat.add_assoc _ _ part.body.length] at hnext
      rw [← hnext]
      rfl

/-! ## The sections of a state -/

/-- What `AppendSection` makes of raw bytes is read back. -/
theorem appendSection_spec (type : ℕ) (hraw : raw.length < 2 ^ 32)
    (compression : CheckpointCompression) :
    ∃ part, appendSection type raw compression = .ok part ∧ part.type = type ∧ part.raw = raw
      ∧ part.body.length ≤ raw.length + kZrleMaxOverheadBytes
      ∧ ((part.flags = 0 ∧ part.body = part.raw)
        ∨ (part.flags = kImageSectionFlagZrle
          ∧ zrleDecompress part.body part.raw.length = .ok part.raw)) := by
  cases compression with
  | none => exact ⟨_, rfl, rfl, rfl, Nat.le_add_right _ _, Or.inl ⟨rfl, rfl⟩⟩
  | zrle =>
    obtain ⟨data, hcompress, hexpand⟩ := zrleDecompress_zrleCompress hraw
    refine ⟨⟨type, kImageSectionFlagZrle, raw, data⟩, ?_, rfl, rfl,
      length_zrleCompress_le hcompress, Or.inr ⟨rfl, hexpand⟩⟩
    rw [appendSection, hcompress]
    rfl

/-- A section within its limits is accepted. -/
theorem readable_appendSection (geometry : Geometry) (layout : ChunkLayout) {type : ℕ}
    (htype : type ∈ [kImageSectionPayload, kImageSectionPresence, kImageSectionVars,
      kImageSectionSchema]) (hraw : raw.length ≤ kMaxImageSectionRawBytes)
    (hknown : ∀ size ∈ knownSectionRawSize geometry layout type, raw.length = size)
    (hvars : type = kImageSectionVars → raw ≠ []) (compression : CheckpointCompression) :
    ∃ part, appendSection type raw compression = .ok part ∧ part.type = type ∧ part.raw = raw
      ∧ part.Readable geometry layout := by
  have hlt : raw.length < 2 ^ 32 := hraw.trans_lt (by decide)
  obtain ⟨part, hpart, htypeEq, hrawEq, hbody, hexpands⟩ := appendSection_spec type hlt compression
  subst htypeEq hrawEq
  refine ⟨part, hpart, rfl, rfl, htype, hraw, ?_, hexpands, hknown, hvars⟩
  unfold kMaxImageSectionRawBytes at hraw
  unfold kZrleMaxOverheadBytes at hbody
  omega

theorem Geometry.blockCount_le (geometry : Geometry) :
    geometry.config.chunkBlockCount ≤ kMaxChunkBlockCount := by
  have hchecked := geometry.checked
  unfold GeometryConfig.check requireAtMost at hchecked
  simp only [require_bind] at hchecked
  obtain ⟨_, _, _, _, _, _, _, _, hcount, _⟩ := hchecked
  exact hcount

theorem Geometry.payloadBytes_le (geometry : Geometry) :
    geometry.layout.payloadBytes ≤ kMaxImageSectionRawBytes :=
  geometry.layout.payloadBytes_le.trans geometry.limit_eq.le

theorem Geometry.presenceBitmapBytes_le (geometry : Geometry) :
    geometry.presenceBitmapBytes ≤ kMaxImageSectionRawBytes := by
  have := geometry.blockCount_le
  unfold presenceBitmapBytes bytesForBits
  unfold kMaxChunkBlockCount at this
  unfold kMaxImageSectionRawBytes
  omega

/-- The sections of a state: its payload and presence, and the optional ones. -/
structure SectionsOf (geometry : Geometry) (state : ChunkState) (sections : List ImageSection) :
    Prop where
  readable : ∀ part ∈ sections, part.Readable geometry geometry.layout
  ascending : (sections.map ImageSection.type).Pairwise (· < ·)
  schema : ∀ part ∈ sections, part.type = kImageSectionSchema →
    part.flags = 0 ∧ part.body = part.raw ∧ part.raw.length = 8
  version : ((sections.find? (·.type = kImageSectionSchema)).map fun part => leNat part.raw).getD 1
    = geometry.layout.schema.version
  length_le : sections.length ≤ 4
  taken : ∀ start, ∃ previousType, sections.foldl (SectionsRead.takePart geometry)
      ⟨start, none, none, none, none⟩
    = ⟨start + (sections.flatMap ImageSection.body).length, previousType, some state.payload,
        some (maskUnusedPresenceBits geometry.config.chunkBlockCount state.presence),
        if state.vars.entries = [] then none else some state.vars.encode⟩

/-- The section of the values, where there are any. -/
theorem varsSections_spec (geometry : Geometry) {vars : ChunkVars}
    (hsize : vars.encodedSize ≤ kVarMaxChunkBytesLimit) (compression : CheckpointCompression) :
    ∃ sections, optionalSection (vars.entries ≠ []) kImageSectionVars vars.encode compression
        = .ok sections
      ∧ ((vars.entries = [] ∧ sections = []) ∨ (vars.entries ≠ [] ∧ ∃ part, sections = [part]
        ∧ part.type = kImageSectionVars ∧ part.raw = vars.encode
        ∧ part.Readable geometry geometry.layout)) := by
  by_cases hnil : vars.entries = []
  · exact ⟨[], if_neg (not_not.mpr hnil), Or.inl ⟨hnil, rfl⟩⟩
  · have hne : vars.encode ≠ [] := by
      obtain ⟨entry, rest, hentries⟩ := exists_cons_of_ne_nil hnil
      intro hempty
      have hlength := congrArg List.length hempty
      rw [ChunkVars.encode, hentries, flatMap_cons, length_append,
        ChunkVars.length_encodeEntry, length_nil] at hlength
      unfold ChunkVars.entryBytes kVarEntryHeaderBytes at hlength
      omega
    obtain ⟨part, hpart, htype, hraw, hread⟩ := readable_appendSection geometry geometry.layout
      (show kImageSectionVars ∈ _ by decide) (show vars.encode.length ≤ _ by
        rw [ChunkVars.length_encode]; exact hsize)
      (fun size h => by cases h) (fun _ => hne) compression
    refine ⟨[part], ?_, Or.inr ⟨hnil, part, rfl, htype, hraw, hread⟩⟩
    rw [optionalSection, if_pos hnil, hpart]
    rfl

/-- The section of the schema version, where it is past the first. -/
theorem schemaSections_spec (geometry : Geometry) {version : ℕ} (hpos : 0 < version)
    (hversion : version < 2 ^ 64) :
    ∃ sections, optionalSection (1 < version) kImageSectionSchema (leBytes 8 version) .none
        = .ok sections
      ∧ ((version = 1 ∧ sections = []) ∨ ∃ part, sections = [part]
        ∧ part.type = kImageSectionSchema ∧ leNat part.raw = version
        ∧ (part.flags = 0 ∧ part.body = part.raw ∧ part.raw.length = 8)
        ∧ part.Readable geometry geometry.layout) := by
  by_cases hone : 1 < version
  · have hlen : (leBytes 8 version).length = 8 := length_leBytes 8 version
    refine ⟨[⟨kImageSectionSchema, 0, leBytes 8 version, leBytes 8 version⟩], if_pos hone,
      Or.inr ⟨_, rfl, rfl, leNat_leBytes_of_lt 8 version (by simpa using hversion),
        ⟨rfl, rfl, hlen⟩, ?_, hlen.trans_le (by decide), hlen.trans_lt (by decide),
        Or.inl ⟨rfl, rfl⟩, nofun, ?_⟩⟩
    · change kImageSectionSchema ∈ _
      decide
    · exact fun h => absurd h (by decide : ¬ kImageSectionSchema = kImageSectionVars)
  · exact ⟨[], if_neg hone, Or.inl ⟨by omega, rfl⟩⟩

/-- The sections `SerializeChunkImage` writes for a valid state. -/
theorem exists_sectionsOf (hvalid : geometry.layout.ValidState state)
    (hsize : state.vars.encodedSize ≤ kVarMaxChunkBytesLimit) (compression : CheckpointCompression) :
    ∃ sections, imageSections geometry.layout.schema.version state compression = .ok sections
      ∧ SectionsOf geometry state sections := by
  have hpresence : state.presence.length = geometry.presenceBitmapBytes := by
    rw [hvalid.presence_padded.1, geometry.blockCount_eq]
    rfl
  obtain ⟨hhistory, hversionMax, _⟩ := validateTableSchema_eq_ok geometry.layout.valid
  obtain ⟨payload, hpayload, htype1, hraw1, hread1⟩ := readable_appendSection geometry
    geometry.layout (show kImageSectionPayload ∈ _ by decide)
    (hvalid.payload_length.trans_le geometry.payloadBytes_le)
    (fun size h => hvalid.payload_length.trans (Option.some.inj h))
    (fun h => absurd h (by decide)) compression
  obtain ⟨present, hpresent, htype2, hraw2, hread2⟩ := readable_appendSection geometry
    geometry.layout (show kImageSectionPresence ∈ _ by decide)
    (hpresence.trans_le geometry.presenceBitmapBytes_le)
    (fun size h => hpresence.trans (Option.some.inj h))
    (fun h => absurd h (by decide)) compression
  obtain ⟨vars, hvars, hvarsCases⟩ := varsSections_spec geometry hsize compression
  obtain ⟨schema, hschema, hschemaCases⟩ := schemaSections_spec geometry
    (show 0 < geometry.layout.schema.version by omega) (hversionMax.trans_lt (by decide))
  refine ⟨payload :: present :: (vars ++ schema), ?_, ?_⟩
  · rw [imageSections, hpayload, ok_bind, hpresent, ok_bind, hvars, ok_bind, hschema]
    rfl
  · rcases hvarsCases with ⟨hnil, rfl⟩ | ⟨hne, part3, rfl, htype3, hraw3, hread3⟩ <;>
    rcases hschemaCases with ⟨hone, rfl⟩ | ⟨part4, rfl, htype4, hraw4, hplain4, hread4⟩ <;>
    constructor <;>
    simp_all [SectionsRead.takePart, SectionsRead.take, asEntry, kImageSectionPayload,
      kImageSectionPresence, kImageSectionVars, kImageSectionSchema, Nat.add_assoc]

/-! ## The header -/

/-- The fields of the fixed header are read back. -/
theorem fieldsAt_imageBytes (label : ImageLabel) (sections : List ImageSection) :
    FieldsAt [.raw kImageMagic, .num 2 kImageFormatVersion, .num 2 sections.length, .num 4 0,
      .num 4 0, .num 4 0, .raw label.storeId.bytes, .num 8 label.chunkCoord.x.toUInt64.toNat,
      .num 8 label.chunkCoord.y.toUInt64.toNat, .num 8 label.revision.toNat,
      .num 8 label.commitTimeMs.toNat] (imageBytes label sections) 0 := by
  simp only [imageBytes, imageHead, imageFixedHeader, append_assoc]
  exact fieldsAt_encodeFields _ _

theorem imageFeatures_imageBytes (label : ImageLabel) (sections : List ImageSection) :
    imageFeatures (imageBytes label sections) = ⟨0, 0, 0⟩ := by
  obtain ⟨-, -, -, hfields⟩ := fieldsAt_imageBytes label sections
  exact @features_eq_of_fieldsAt _ _ ⟨0, 0, 0⟩ _ hfields

/-- The header of an image is accepted by the store and for the chunk it names. -/
theorem checkImageHeader_imageBytes (hrevision : label.revision ≠ 0)
    (hcount : sections.length ≤ kImageMaxSections) (storeFeatures : FeatureFlags) :
    checkImageHeader (imageBytes label sections) label.chunkCoord label.storeId storeFeatures
      = .ok () := by
  have hlen := length_imageBytes label sections
  have hfields := fieldsAt_imageBytes label sections
  simp only [FieldsAt, label.storeId.length_eq, show kImageMagic.length = 8 from rfl,
    drop_zero] at hfields
  obtain ⟨hmagic, hversion, hsections, -, -, -, hstore, hx, hy, hrev, -⟩ := hfields
  have hcrc : readLe 4 (imageBytes label sections) (72 + sections.length * 16)
      = crc32 ((imageBytes label sections).take (72 + sections.length * 16)) := by
    rw [imageBytes, append_assoc, ← length_imageHead label sections, take_left' rfl]
    exact readLe_middle 4 _ _ _ _ rfl (crc32_lt _)
  have hrevision : label.revision.toNat ≠ 0 := fun h =>
    hrevision (UInt64.toNat_inj.mp h)
  have hsubset : isSubsetOf ⟨0, 0, 0⟩ storeFeatures = true := by
    simp [isSubsetOf]
  unfold checkImageHeader
  simp only [check_bind_eq_ok, require_eq_ok, hversion (by decide),
    hsections (hcount.trans_lt (by decide)), hx label.chunkCoord.x.toUInt64.toNat_lt,
    hy label.chunkCoord.y.toUInt64.toNat_lt, hrev label.revision.toNat_lt,
    imageFeatures_imageBytes, hmagic, hstore, hsubset, UInt64.ofNat_toNat, hlen,
    kImageFixedHeaderSize, kImageSectionEntrySize, hcrc, true_and]
  refine ⟨by omega, hcount, by omega, ?_, hrevision⟩
  constructor <;> simp

/-! ## Images of states -/

/-- The geometry of a store that reads what one of `written` wrote: its layout of that schema
version has the columns and the sizes of the layout written in. -/
structure Geometry.Reads (reader written : Geometry) (layout : ChunkLayout) : Prop where
  layoutAt_eq : reader.layoutAt written.layout.schema.version = .ok layout
  version_le : written.layout.schema.version ≤ reader.layout.schema.version
  blocks_eq : reader.config.chunkBlockCount = written.config.chunkBlockCount
  blockCount_eq : layout.blockCount = written.layout.blockCount
  payloadBytes_eq : layout.payloadBytes = written.layout.payloadBytes
  columns_eq : layout.schema.columns = written.layout.schema.columns

theorem Geometry.reads_self (geometry : Geometry) : geometry.Reads geometry geometry.layout :=
  ⟨by rw [Geometry.layoutAt, if_pos rfl], le_rfl, rfl, rfl, rfl, rfl⟩

section Reads

variable {reader written : Geometry} {layout : ChunkLayout}

/-- A section sized for the layout written in is sized for the one read in. -/
theorem Geometry.Reads.readable (h : reader.Reads written layout) {part : ImageSection}
    (hpart : part.Readable written written.layout) : part.Readable reader layout := by
  refine ⟨hpart.type_mem, hpart.raw_le, hpart.body_lt, hpart.expands, ?_, hpart.vars_ne⟩
  have hknown := hpart.known
  unfold knownSectionRawSize Geometry.presenceBitmapBytes at hknown ⊢
  rw [h.payloadBytes_eq, h.blocks_eq]
  exact hknown

theorem Geometry.Reads.takePart_eq (h : reader.Reads written layout) :
    SectionsRead.takePart reader = SectionsRead.takePart written := by
  funext sections part
  simp only [SectionsRead.takePart, SectionsRead.take, h.blocks_eq]

theorem Geometry.Reads.requireValidVars (h : reader.Reads written layout) {vars : ChunkVars}
    {presence : Bytes} (hvars : written.layout.requireValidVars vars presence = .ok ()) :
    layout.requireValidVars vars presence = .ok () := by
  rw [ChunkLayout.requireValidVars_eq_ok] at hvars ⊢
  intro entry hentry
  obtain ⟨column, hvar⟩ := hvars entry hentry
  exact ⟨column, by rw [h.columns_eq]; exact hvar.mem, hvar.id_eq, hvar.isVar,
    by rw [h.blockCount_eq]; exact hvar.block_lt, hvar.present, hvar.stores⟩

/-- The image of a valid state within the limit of its values is accepted by every store that
knows its schema version, and read back as that state. -/
theorem parseChunkImage_of_reads (hreads : reader.Reads written layout) {state : ChunkState}
    (hvalid : written.layout.ValidState state)
    (hsize : state.vars.encodedSize ≤ kVarMaxChunkBytesLimit) {label : ImageLabel}
    (hrevision : label.revision ≠ 0) (compression : CheckpointCompression)
    (storeFeatures : FeatureFlags) :
    ∃ bytes, serializeChunkImage written label state compression = .ok bytes
      ∧ parseChunkImage bytes reader label.chunkCoord label.storeId storeFeatures
        = .ok ⟨⟨0, 0, 0⟩, label.revision.toNat, label.commitTimeMs.toNat,
            written.layout.schema.version, state⟩ := by
  have hpadded := hvalid.presence_padded
  rw [written.blockCount_eq] at hpadded
  obtain ⟨sections, hsections, hof⟩ := exists_sectionsOf hvalid hsize compression
  refine ⟨imageBytes label sections, ?_, ?_⟩
  · rw [serializeChunkImage, require_of ⟨hvalid.payload_length, hpadded.1⟩, ok_bind,
      require_of hrevision, ok_bind, hsections]
    rfl
  have hcount : sections.length ≤ kImageMaxSections := hof.length_le.trans (by decide)
  obtain ⟨hhistory, _⟩ := validateTableSchema_eq_ok written.layout.valid
  have hholds := holdsSections_imageBytes label fun part hpart => (hof.readable part hpart).sized
  have hversion := @readSchemaVersion_eq [] _ _ hholds hof.schema
  rw [hof.version] at hversion
  obtain ⟨previousType, htaken⟩ := hof.taken (72 + sections.length * 16 + 4)
  rw [← hreads.takePart_eq] at htaken
  have hread := @readSections_eq [] _ _ _ _ hholds
    (fun part hpart => hreads.readable (hof.readable part hpart)) hof.ascending
    ⟨72 + sections.length * 16 + 4, none, none, none, none⟩ rfl nofun
  obtain ⟨-, -, hreadCount, -, -, -, hrest⟩ := fieldsAt_imageBytes label sections
  have hreadCount : readLe 2 (imageBytes label sections) 10 = sections.length :=
    hreadCount (hcount.trans_lt (by decide))
  simp only [FieldsAt, label.storeId.length_eq, show kImageMagic.length = 8 from rfl] at hrest
  obtain ⟨-, -, -, hrev, htime, -⟩ := hrest
  have hvars : readVars reader layout state.presence
      (if state.vars.entries = [] then none else some state.vars.encode) = .ok state.vars := by
    split
    · rename_i hnil
      exact congrArg Except.ok (SortedMap.ext hnil.symm)
    · have hblocks : ∀ e ∈ state.vars.entries,
          e.1.blockIndex.toNat < reader.config.chunkBlockCount := by
        intro e he
        obtain ⟨column, hvar⟩ := hvalid.validVar he
        rw [hreads.blocks_eq, ← written.blockCount_eq]
        exact hvar.block_lt
      rw [readVars, ChunkVars.decode_encode _ _ hsize hblocks, ok_bind,
        hreads.requireValidVars hvalid.vars_valid]
      rfl
  rw [parseChunkImage, checkImageHeader_imageBytes hrevision hcount, ok_bind]
  rw [hreadCount, imageFeatures_imageBytes, hrev label.revision.toNat_lt,
    htime label.commitTimeMs.toNat_lt]
  change (readSchemaVersion (imageBytes label sections) sections.length 0
    (72 + sections.length * 16 + 4) >>= _) = _
  have hversion : readSchemaVersion (imageBytes label sections) sections.length 0
    (72 + sections.length * 16 + 4) = .ok written.layout.schema.version := hversion
  rw [hversion, ok_bind, require_of ⟨by omega, hreads.version_le⟩, ok_bind,
    hreads.layoutAt_eq, ok_bind]
  change (readSections (imageBytes label sections) reader layout _ sections.length
    ([] : List ImageSection).length ⟨72 + sections.length * 16 + 4, none, none, none, none⟩ >>= _) = _
  rw [hread, htaken, ok_bind, require_of hholds.length_eq.symm, ok_bind]
  dsimp only
  rw [hpadded.mask_eq, hvars]
  rfl

end Reads

/-- The image of a valid state within the limit of its values is accepted and read back as
that state. -/
theorem parseChunkImage_serialize (hvalid : geometry.layout.ValidState state)
    (hsize : state.vars.encodedSize ≤ kVarMaxChunkBytesLimit) (hrevision : label.revision ≠ 0)
    (compression : CheckpointCompression) (storeFeatures : FeatureFlags) :
    ∃ bytes, serializeChunkImage geometry label state compression = .ok bytes
      ∧ parseChunkImage bytes geometry label.chunkCoord label.storeId storeFeatures
        = .ok ⟨⟨0, 0, 0⟩, label.revision.toNat, label.commitTimeMs.toNat,
            geometry.layout.schema.version, state⟩ :=
  parseChunkImage_of_reads geometry.reads_self hvalid hsize hrevision compression storeFeatures

/-! ## Too many values -/

/-- The loop accepts no section of more than 64 MiB. -/
theorem rawSize_le_of_readSections {layout : ChunkLayout} {maySkipUnknown : Bool} {count : ℕ}
    {sections result : SectionsRead}
    (h : readSections bytes geometry layout maySkipUnknown count index sections = .ok result)
    {i : ℕ} (hi : i < count) :
    (ImageSectionEntry.read bytes (index + i)).rawSize ≤ kMaxImageSectionRawBytes := by
  induction count generalizing index sections i with
  | zero => omega
  | succ count ih =>
    rw [readSections, bind_eq_ok] at h
    obtain ⟨next, hnext, h⟩ := h
    cases i with
    | zero =>
      unfold readSection at hnext
      simp only [require_bind] at hnext
      exact hnext.2.2.2.2.2.1
    | succ i =>
      have := ih h (show i < count by omega)
      rwa [show index + (i + 1) = index + 1 + i by omega]

theorem length_optionalSection_le {needed : Prop} [Decidable needed] {type : ℕ}
    {compression : CheckpointCompression}
    (h : optionalSection needed type raw compression = .ok sections) : sections.length ≤ 1 := by
  unfold optionalSection at h
  split at h
  · obtain ⟨part, _, rfl⟩ := Fallible.map_eq_ok h
    exact le_rfl
  · rw [← Except.ok.inj h]
    exact Nat.zero_le _

/-- An accepted image has at most 64 MiB of values. -/
theorem encodedSize_le_of_parse {compression : CheckpointCompression}
    (hserialize : serializeChunkImage geometry label state compression = .ok bytes)
    (hsize : state.vars.encodedSize < 2 ^ 32) {storeFeatures : FeatureFlags}
    {image : ChunkStateImage}
    (h : parseChunkImage bytes geometry label.chunkCoord label.storeId storeFeatures = .ok image) :
    state.vars.encodedSize ≤ kVarMaxChunkBytesLimit := by
  by_cases hnil : state.vars.entries = []
  · rw [ChunkVars.encodedSize, hnil]
    exact Nat.zero_le _
  unfold serializeChunkImage imageSections at hserialize
  simp only [check_bind_eq_ok, bind_assoc] at hserialize
  obtain ⟨_, _, hserialize⟩ := hserialize
  simp only [bind_eq_ok] at hserialize
  obtain ⟨payload, _, presence, _, vars, hvars, schema, hschema, sections, hsections, hbytes⟩ :=
    hserialize
  cases hsections
  cases hbytes
  rw [optionalSection, if_pos hnil] at hvars
  obtain ⟨part, hpart, rfl⟩ := Fallible.map_eq_ok hvars
  have hlength : state.vars.encode.length < 2 ^ 32 := by
    rw [ChunkVars.length_encode]
    exact hsize
  obtain ⟨part', hpart', _, hraw, _⟩ := appendSection_spec kImageSectionVars hlength compression
  cases hpart.symm.trans hpart'
  have hcount := length_optionalSection_le hschema
  change parseChunkImage (imageBytes label ([payload, presence] ++ part :: schema)) _ _ _ _ = _ at h
  -- the entry of the values is the third of the directory
  obtain ⟨before, after, hbefore, hbytes⟩ := imageBytes_eq label [payload, presence] part schema
  have hentry := rawSize_read (hraw ▸ hlength) hbefore after
  rw [← hbytes] at hentry
  have hsections : readLe 2 (imageBytes label ([payload, presence] ++ part :: schema)) 10
      = schema.length + 3 := (fieldsAt_imageBytes label _).2.2.1 (by simp; omega)
  rw [parseChunkImage, check_bind_eq_ok, hsections] at h
  obtain ⟨_, h⟩ := h
  obtain ⟨version, _, h⟩ := bind_eq_ok.mp h
  obtain ⟨_, h⟩ := check_bind_eq_ok.mp h
  obtain ⟨layout, _, h⟩ := bind_eq_ok.mp h
  obtain ⟨read, hread, _⟩ := bind_eq_ok.mp h
  have hle := rawSize_le_of_readSections hread (show 2 < schema.length + 3 by omega)
  rw [Nat.zero_add] at hle
  rw [← ChunkVars.length_encode, ← hraw, ← hentry]
  exact hle

end ChunkDb
