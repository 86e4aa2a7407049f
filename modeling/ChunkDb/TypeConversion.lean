/-
# Values under a type change

What `ConvertValue` (`schema.cpp`) makes of the values of a column whose type changes within the
integers, the bits, text or bytes.  A value that fits the new type is kept: the same number or
bytes, or its digits with zeros added or taken away.  Of another one CLAMP keeps the nearest
number, TRUNCATE the longest start that ends with a character, and DEFAULT nothing.
-/
import ChunkDb.Layout

namespace ChunkDb

open List

/-! ## What a conversion should give -/

/-- The value is one that the type takes as it is. -/
def FitsType (type : ColumnType) (value : ColumnValue) : Prop :=
  match familyOf type.kind with
  | .integer => (rangeOf type).1 ≤ integerOf value ∧ integerOf value ≤ (rangeOf type).2
  | .bits => '1' ∉ (digitsOf value).drop type.size
  | .text | .bytes => (bytesOf value).length ≤ type.size
  | .float | .bool => True

/-- The same number, digits padded or cut by zeros, or bytes. -/
def SameValue (type : ColumnType) (value converted : ColumnValue) : Prop :=
  match familyOf type.kind with
  | .integer => integerOf converted = integerOf value
  | .bits => digitsOf converted = (digitsOf value ++ List.replicate type.size '0').take type.size
  | .text | .bytes => bytesOf converted = bytesOf value
  | .float | .bool => True

/-- No number of the type is nearer. -/
def Nearest (type : ColumnType) (value converted : ColumnValue) : Prop :=
  ∀ other, (rangeOf type).1 ≤ other → other ≤ (rangeOf type).2 →
    |integerOf converted - integerOf value| ≤ |other - integerOf value|

/-- The start of this many bytes is a value of the type: of a text, whole characters. -/
def EndsCharacter (type : ColumnType) (bytes : Bytes) (keep : ℕ) : Prop :=
  type.kind = .text → isUtf8 (bytes.take keep) = true

/-- The longest start of the value that is within the size and ends with a character. -/
def LongestStart (type : ColumnType) (value converted : ColumnValue) : Prop :=
  if type.kind = .bits then digitsOf converted = (digitsOf value).take type.size
  else ∃ keep ≤ type.size, bytesOf converted = (bytesOf value).take keep ∧
    EndsCharacter type (bytesOf value) keep ∧
    ∀ other ≤ type.size, EndsCharacter type (bytesOf value) other → other ≤ keep

/-- The default of the column, else NULL where it may be, else zero or nothing. -/
def IsFallback (column : Column) (converted : ColumnValue) : Prop :=
  if column.hasDefault then decodeDefault column = .ok converted
  else if column.nullable then converted = .null
  else integerOf converted = 0 ∧ (∀ digit ∈ digitsOf converted, digit = '0') ∧
    bytesOf converted = []

/-- The encoder of the column accepts the value. -/
def Encodes (column : Column) (value : ColumnValue) : Prop :=
  ∃ bytes, (if isFixedWidth column.type.kind then encodeColumnValue column value
    else encodeVarValue column value) = .ok bytes

/-- What a conversion of a value to the type of `target` gives. -/
structure Converts (target : Column) (conversion : Conversion) (value converted : ColumnValue) :
    Prop where
  typed : (HasType target.type converted ∧ Encodes target converted) ∨
    (converted = .null ∧ conversion = .default ∧ ¬ FitsType target.type value)
  kept : FitsType target.type value → SameValue target.type value converted
  clamped : conversion = .clamp → Nearest target.type value converted
  truncated : conversion = .truncate → ¬ FitsType target.type value →
    LongestStart target.type value converted
  defaulted : conversion = .default → ¬ FitsType target.type value → IsFallback target converted

/-! ## What it gives -/

/-- A type among the integers, the bits, text and bytes. -/
def ColumnType.Discrete (type : ColumnType) : Prop :=
  familyOf type.kind ≠ .float ∧ familyOf type.kind ≠ .bool

section Convert

variable {type source : ColumnType} {target : Column} {conversion : Conversion}
  {value : ColumnValue}

/-- `Fit` decides what the type takes as it is. -/
theorem fit_spec (hvalid : type.Valid) (hdiscrete : type.Discrete) (value : ColumnValue) :
    (FitsType type value ∧ ∃ fitted, fit type value = some fitted ∧ SameValue type value fitted) ∨
      (¬ FitsType type value ∧ fit type value = none) := by
  obtain ⟨hfloat, hbool⟩ := hdiscrete
  unfold fit FitsType SameValue
  cases hf : familyOf type.kind <;> simp only
  case integer =>
    split_ifs with hout
    · exact Or.inr ⟨by omega, rfl⟩
    · exact Or.inl ⟨by omega, _, rfl, integerOf_integerValue hvalid hf (by omega) (by omega)⟩
  case float => exact absurd hf hfloat
  case bool => exact absurd hf hbool
  case bits =>
    split_ifs with hshort hone
    · refine Or.inl ⟨by simp [drop_eq_nil_of_le hshort], _, rfl, ?_⟩
      rw [digitsOf, take_append, take_of_length_le hshort, take_replicate,
        Nat.min_eq_left (Nat.sub_le _ _)]
    · exact Or.inr ⟨not_not.2 hone, rfl⟩
    · refine Or.inl ⟨hone, _, rfl, ?_⟩
      rw [take_append_of_le_length (by omega), digitsOf]
  all_goals
    split_ifs with hlong
    · exact Or.inr ⟨by omega, rfl⟩
    · exact Or.inl ⟨by omega, _, rfl, bytesOf_varValue ..⟩

theorem nearest_clamp (hvalid : type.Valid) (hfamily : familyOf type.kind = .integer)
    (value : ColumnValue) : Nearest type value (clamp type value) := by
  intro other hlow hhigh
  rw [clamp, if_pos hfamily, integerOf_integerValue hvalid hfamily (le_max_left _ _)
    (max_le (hlow.trans hhigh) (min_le_right _ _))]
  rcases le_total (rangeOf type).1 (integerOf value) with hbelow | hbelow
  · rcases le_total (integerOf value) (rangeOf type).2 with habove | habove
    · rw [min_eq_left habove, max_eq_right hbelow, sub_self, abs_zero]
      exact abs_nonneg _
    · rw [min_eq_right habove, max_eq_right (hlow.trans hhigh), abs_of_nonpos (by omega),
        abs_of_nonpos (by omega)]
      omega
  · rw [min_eq_left (hbelow.trans (hlow.trans hhigh)), max_eq_left hbelow,
      abs_of_nonneg (by omega), abs_of_nonneg (by omega)]
    omega

/-- The walk back stops at the last place where a character starts. -/
theorem le_characterStart {bytes : Bytes} {keep other : ℕ} (hle : other ≤ keep)
    (hstart : isContinuation (bytes.getD other 0) = false) : other ≤ characterStart bytes keep := by
  induction keep with
  | zero => exact hle
  | succ keep ih =>
    rw [characterStart]
    split_ifs with hcontinues
    · rcases Nat.lt_or_eq_of_le hle with hlt | rfl
      · exact ih (by omega)
      · rw [hstart] at hcontinues
        cases hcontinues
    · exact hle

theorem longestStart_truncate (hsource : HasType source value)
    (hsame : familyOf source.kind = familyOf type.kind) :
    LongestStart type value (truncate type value) := by
  unfold LongestStart truncate
  by_cases hbits : type.kind = .bits
  · rw [if_pos hbits, if_pos hbits, digitsOf]
  rw [if_neg hbits, if_neg hbits]
  dsimp only
  by_cases htext : type.kind = .text
  · rw [htext] at hsame
    have hutf8 := hsource.isUtf8_bytesOf hsame
    rw [if_pos htext]
    refine ⟨_, characterStart_le _ _, bytesOf_varValue .., fun _ => isUtf8_take_characterStart _ hutf8 _, ?_⟩
    intro other hle hends
    refine le_characterStart hle ?_
    cases hget : (bytesOf value)[other]? with
    | none => rw [getD_eq_getElem?_getD, hget]; rfl
    | some b =>
      rw [getD_eq_getElem?_getD, hget]
      exact (isUtf8_take_iff _ _ hutf8).1 (hends htext) b hget
  · rw [if_neg htext]
    exact ⟨_, le_rfl, bytesOf_varValue .., fun h => absurd h htext, fun other hle _ => hle⟩

theorem isFallback_of_fallbackOf {converted : ColumnValue}
    (h : fallbackOf target = .ok converted) : IsFallback target converted := by
  unfold fallbackOf at h
  unfold IsFallback
  split_ifs at h ⊢ with hdefault hfixed hnullable
  · rw [decodeDefault, if_pos hfixed, h]
  · rw [decodeDefault, if_neg hfixed, h]
  · exact (Except.ok.inj h).symm
  · cases hf : familyOf target.type.kind <;> simp only [hf] at h <;> obtain rfl := Except.ok.inj h
    case integer =>
      unfold integerValue
      split <;> exact ⟨rfl, by simp [digitsOf], rfl⟩
    case float =>
      unfold floatValue
      split <;> exact ⟨rfl, by simp [digitsOf], rfl⟩
    case bool => exact ⟨rfl, by simp [digitsOf], rfl⟩
    case bits => exact ⟨rfl, fun digit hdigit => eq_of_mem_replicate hdigit, rfl⟩
    all_goals
      unfold varValue
      split <;> exact ⟨rfl, by simp [digitsOf], rfl⟩

theorem encodes_of_hasType (hvalid : target.type.Valid) (h : HasType target.type value) :
    Encodes target value := by
  unfold Encodes
  split_ifs with hfixed
  · obtain ⟨bytes, hbytes, -⟩ := encodeColumnValue_of_hasType hvalid hfixed h
    exact ⟨bytes, hbytes⟩
  · exact ⟨_, (encodeVarValue_of_hasType target value (by simpa using hfixed) h).1⟩

/-- `ConvertValue` under a change that the rules allow. -/
theorem convertValue_converts (hchange : TypeChange source target.type conversion)
    (hdefault : target.DefaultValid) (hdiscrete : target.type.Discrete)
    (hexact : conversion = .exact → widens source target.type = true)
    (hvalue : HasType source value) :
    ∃ converted, convertValue target conversion value = .ok converted ∧
      Converts target conversion value converted := by
  obtain ⟨converted, hconvert, hholds⟩ := convertValue_spec source target conversion hchange
    hdefault value (Or.inr hvalue) fun h => valueFits_of_widens hchange (hexact h) value (Or.inr hvalue)
  refine ⟨converted, hconvert, ?_⟩
  have hvalid := hchange.targetValid
  have htakes := hchange.takes
  unfold convertValue at hconvert
  rw [if_neg hvalue.ne_null] at hconvert
  have hclamp : conversion = .clamp → familyOf target.type.kind = .integer := by
    rintro rfl
    simpa [takesConversion, hdiscrete.1] using htakes
  have htruncate : conversion = .truncate → familyOf target.type.kind = .text ∨
      familyOf target.type.kind = .bytes ∨ familyOf target.type.kind = .bits := by
    rintro rfl
    simpa [takesConversion, or_assoc] using htakes
  rcases fit_spec hvalid hdiscrete value with ⟨hfits, fitted, hfit, hsame⟩ | ⟨hout, hfit⟩
  · rw [hfit] at hconvert
    cases hconvert
    have htyped := hasType_of_fit source target.type hvalid hchange.family value _ hvalue hfit
    refine ⟨Or.inl ⟨htyped, encodes_of_hasType hvalid htyped⟩, fun _ => hsame, ?_,
      fun _ hout => absurd hfits hout, fun _ hout => absurd hfits hout⟩
    intro hconversion other _ _
    rw [SameValue, hclamp hconversion] at hsame
    rw [hsame, sub_self, abs_zero]
    exact abs_nonneg _
  · rw [hfit] at hconvert
    refine ⟨?_, fun hfits => absurd hfits hout, ?_, ?_, ?_⟩
    · rcases hholds with ⟨rfl, -⟩ | htyped
      · refine Or.inr ⟨rfl, ?_, hout⟩
        -- the other conversions give values of the type
        cases conversion with
        | default => rfl
        | exact => cases hconvert
        | clamp =>
          exact absurd (Except.ok.inj hconvert)
            (hasType_clamp _ hvalid (Or.inl (hclamp rfl)) value).ne_null
        | truncate =>
          exact absurd (Except.ok.inj hconvert)
            (hasType_truncate source _ hchange.family (htruncate rfl) value hvalue hfit).ne_null
      · exact Or.inl ⟨htyped, encodes_of_hasType hvalid htyped⟩
    · rintro rfl
      cases hconvert
      exact nearest_clamp hvalid (hclamp rfl) value
    · rintro rfl -
      cases hconvert
      exact longestStart_truncate hvalue hchange.family
    · rintro rfl -
      exact isFallback_of_fallbackOf hconvert

end Convert

/-- An accepted change of a column type within the integers, bits, text or bytes converts every
stored value: NULL stays NULL, and of any other one comes what `Converts` says.  An exact
conversion to a type that holds every value of the old one never throws. -/
theorem type_conversion_laws {schema next : TableSchema} {name : String} {type : ColumnType}
    {conversion : Conversion} (hvalid : validateTableSchema schema = .ok ())
    (h : changeColumnType schema name type conversion = .ok next) (hdiscrete : type.Discrete) :
    ∃ position before after, columnIndex schema name = .ok position ∧
      schema.columns[position]? = some before ∧ next.columns[position]? = some after ∧
      after.type = type ∧ convertValue after conversion .null = .ok .null ∧
      ∀ value, HasType before.type value →
        (∃ converted, convertValue after conversion value = .ok converted ∧
          Converts after conversion value converted) ∧
        (holdsEveryValue before.type type = true →
          ∃ converted, convertValue after .exact value = .ok converted) := by
  obtain ⟨-, -, hcolumns, -⟩ := validateTableSchema_eq_ok hvalid
  obtain ⟨position, before, hindex, hbefore, hchange, hexact, defaultValue, hversion⟩ :=
    changeColumnType_eq_ok hcolumns h
  obtain ⟨-, hnext, rfl⟩ := nextVersion_eq_ok hversion
  obtain ⟨-, -, hnextColumns, -⟩ := validateTableSchema_eq_ok hnext
  have hafter := (set_set_getElem? hbefore { before with type, defaultValue }).2
  have hdefault := hnextColumns.defaultValid _ (mem_of_getElem? hafter)
  set after : Column := { before with type, defaultValue }
  refine ⟨position, before, after, hindex, hbefore, hafter, rfl, rfl, fun value hvalue =>
    ⟨convertValue_converts hchange hdefault hdiscrete hexact hvalue, fun hholds => ?_⟩⟩
  rw [holdsEveryValue, Bool.and_eq_true] at hholds
  have hchange : TypeChange before.type type .exact := { hchange with takes := rfl }
  obtain ⟨converted, hconvert, -⟩ :=
    convertValue_converts hchange hdefault hdiscrete (fun _ => hholds.2) hvalue
  exact ⟨converted, hconvert⟩

/-- Notes cut to four bytes: a last letter of two bytes goes as a whole. -/
theorem type_conversion_laws_note :
    ∃ next after converted, changeColumnType notedSchema "note" ⟨.text, 4⟩ .truncate = .ok next ∧
      next.columns[1]? = some after ∧
      convertValue after .truncate (.text [0x61, 0x62, 0x63, 0xC3, 0xA9]) = .ok converted ∧
      Converts after .truncate (.text [0x61, 0x62, 0x63, 0xC3, 0xA9]) converted := by
  have hok : (changeColumnType notedSchema "note" ⟨.text, 4⟩ .truncate).isOk = true := by
    decide +kernel
  cases h : changeColumnType notedSchema "note" ⟨.text, 4⟩ .truncate with
  | error e =>
    rw [h] at hok
    cases hok
  | ok next =>
    have hindex : columnIndex notedSchema "note" = .ok 1 := by decide +kernel
    obtain ⟨position, before, after, hposition, hbefore, hafter, -, -, hvalues⟩ :=
      type_conversion_laws (by decide +kernel) h ⟨by decide, by decide⟩
    cases hindex.symm.trans hposition
    obtain rfl := Option.some.inj (hbefore.symm.trans (show _ = some noteColumn from rfl))
    obtain ⟨⟨converted, hconvert, hconverts⟩, -⟩ := hvalues (.text [0x61, 0x62, 0x63, 0xC3, 0xA9])
      ⟨rfl, by decide, by decide +kernel⟩
    exact ⟨next, after, converted, rfl, hafter, hconvert, hconverts⟩

end ChunkDb
