/-
# Column values

Values of one column (`schema.cpp`): the encoding of fixed-width and variable
values, and the conversion of a value when its column changes type.  Floats are
kept as their IEEE 754 bit patterns.

`HasType` says when a value is one a type holds.  A conversion the schema rules
allow always ends in such a value or in NULL (`convertValue_spec`), which the
encoders accept (`encodeColumnValue_of_hasType`, `encodeVarValue_of_hasType`).
-/
import ChunkDb.Schema

open LittleEndian ByteBits List

namespace ChunkDb

/-- `ColumnValue`; `null` is `std::monostate`. -/
inductive ColumnValue
  | null
  | uint (v : UInt64)
  | int (v : Int64)
  | bool (v : Bool)
  | f32 (v : BitVec 32)
  | f64 (v : BitVec 64)
  | bits (digits : List Char)
  | text (v : Bytes)
  | bytes (v : Bytes)
  deriving DecidableEq

/-- `ValueTypeName`. -/
def valueTypeName : ColumnValue → String
  | .null => "NULL"
  | .uint _ => "an unsigned integer"
  | .int _ => "a signed integer"
  | .bool _ => "a bool"
  | .f32 _ => "an f32"
  | .f64 _ => "an f64"
  | .bits digits => "bits(" ++ toString digits.length ++ ")"
  | .text _ => "text"
  | .bytes _ => "bytes"

/-- What `ValueOf` throws for a value of another type. -/
def wrongType (column : Column) (value : ColumnValue) : Exn :=
  ⟨.invalidArgument, "column " ++ column.name ++ " is " ++ columnTypeName column.type ++ ", not "
    ++ valueTypeName value⟩

/-! ## Encoding -/

/-- The digits of a bits value set into `bytes` from bit `i` on. -/
def encodeDigits (column : Column) : ℕ → List Char → Bytes → Fallible Bytes
  | _, [], bytes => .ok bytes
  | i, d :: digits, bytes =>
    if d ≠ '0' ∧ d ≠ '1' then
      invalidArgument ("column " ++ column.name ++ ": a bits value holds only 0 and 1")
    else encodeDigits column (i + 1) digits (if d = '1' then putBit bytes i true else bytes)

/-- The bits of an integer, bool or float value as one number. -/
def rawValue (column : Column) (value : ColumnValue) : Fallible ℕ :=
  let width := fixedWidthBits column.type
  match column.type.kind, value with
  | .unsigned, .uint v =>
    if width < 64 ∧ v.toNat >>> width ≠ 0 then
      invalidArgument ("column " ++ column.name ++ " is " ++ columnTypeName column.type ++ ": "
        ++ toString v.toNat ++ " is out of range 0.." ++ toString (2 ^ width - 1))
    else .ok v.toNat
  | .signed, .int v =>
    let max : ℤ := 2 ^ (width - 1) - 1
    if width < 64 ∧ (v.toInt < -max - 1 ∨ v.toInt > max) then
      invalidArgument ("column " ++ column.name ++ " is " ++ columnTypeName column.type ++ ": "
        ++ toString v.toInt ++ " is out of range " ++ toString (-max - 1) ++ ".." ++ toString max)
    else .ok v.toUInt64.toNat
  | .bool, .bool v => .ok (if v then 1 else 0)
  | .float32, .f32 v => .ok v.toNat
  | .float64, .f64 v => .ok v.toNat
  | _, value => .error (wrongType column value)

/-- `EncodeColumnValue` into a buffer of `(width + 7) / 8` bytes. -/
def encodeColumnValue (column : Column) (value : ColumnValue) : Fallible Bytes :=
  let width := fixedWidthBits column.type
  if width = 0 then
    invalidArgument ("column " ++ column.name ++ ": text and bytes columns are not supported yet")
  else if value = .null then invalidArgument ("column " ++ column.name ++ " cannot be NULL")
  else if column.type.kind = .bits then
    match value with
    | .bits digits =>
      if digits.length ≠ width then .error (wrongType column value)
      else encodeDigits column 0 digits (List.replicate (bytesForBits width) 0)
    | value => .error (wrongType column value)
  else do
    let raw ← rawValue column value
    let raw := if width < 64 then raw &&& (2 ^ width - 1) else raw
    let rawBytes := min (bytesForBits width) 8
    return leBytes rawBytes raw ++ List.replicate (bytesForBits width - rawBytes) 0

/-- The number with the bits above the sign bit as copies of it. -/
def signExtend (width raw : ℕ) : ℕ :=
  if width < 64 ∧ raw.testBit (width - 1) then raw ||| (2 ^ 64 - 2 ^ width) else raw

/-- `DecodeColumnValue`. -/
def decodeColumnValue (column : Column) (bytes : Bytes) : Fallible ColumnValue :=
  let width := fixedWidthBits column.type
  let raw := leNat (bytes.take (min (bytesForBits width) 8))
  match column.type.kind with
  | .bits => .ok (.bits ((List.range width).map (fun i => if getBit bytes i then '1' else '0')))
  | .unsigned => .ok (.uint (UInt64.ofNat raw))
  | .signed => .ok (.int (Int64.ofNat (signExtend width raw)))
  | .bool => .ok (.bool (raw != 0))
  | .float32 => .ok (.f32 (BitVec.ofNat 32 raw))
  | .float64 => .ok (.f64 (BitVec.ofNat 64 raw))
  | _ =>
    invalidArgument ("column " ++ column.name ++ ": text and bytes columns are not supported yet")

/-- `EncodeVarValue`. -/
def encodeVarValue (column : Column) (value : ColumnValue) : Fallible Bytes := do
  if value = .null then invalidArgument ("column " ++ column.name ++ " cannot be NULL")
  let bytes ← match column.type.kind, value with
    | .text, .text v => do
      require (isUtf8 v = true)
        ⟨.invalidArgument, "column " ++ column.name ++ ": the text is not UTF-8"⟩
      pure v
    | .bytes, .bytes v => pure v
    | .text, value => .error (wrongType column value)
    | .bytes, value => .error (wrongType column value)
    | _, _ => invalidArgument ("column " ++ column.name ++ " is " ++ columnTypeName column.type
        ++ ", not text or bytes")
  require (bytes.length ≤ column.type.size)
    ⟨.invalidArgument, "column " ++ column.name ++ " is " ++ columnTypeName column.type ++ ": "
      ++ toString bytes.length ++ " bytes are too long"⟩
  return bytes

/-- `DecodeVarValue`. -/
def decodeVarValue (column : Column) (bytes : Bytes) : ColumnValue :=
  if column.type.kind = .text then .text bytes else .bytes bytes

/-! ## Floats by their bits -/

/-- Round the quotient of `m` by `2 ^ shift` to nearest, ties to even. -/
def roundShift (m shift : ℕ) : ℕ :=
  let q := m >>> shift
  let rest := m - q * 2 ^ shift
  let half := 2 ^ shift / 2
  if shift = 0 ∨ rest < half ∨ (rest = half ∧ q % 2 = 0) then q else q + 1

/-- `static_cast<double>(float)`. -/
def floatToDouble (f : BitVec 32) : BitVec 64 :=
  let sign := f.toNat / 2 ^ 31
  let exponent := f.toNat / 2 ^ 23 % 2 ^ 8
  let fraction := f.toNat % 2 ^ 23
  let magnitude :=
    if exponent = 255 then
      2047 * 2 ^ 52 + (if fraction = 0 then 0 else 2 ^ 51 ||| fraction * 2 ^ 29)
    else if exponent = 0 then
      -- a subnormal number becomes normal: its top bit turns into the hidden one
      if fraction = 0 then 0
      else (fraction.log2 + 874) * 2 ^ 52 + (fraction - 2 ^ fraction.log2) * 2 ^ (52 - fraction.log2)
    else (exponent + 896) * 2 ^ 52 + fraction * 2 ^ 29
  BitVec.ofNat 64 (sign * 2 ^ 63 + magnitude)

/-- `static_cast<float>(double)`, rounding to nearest. -/
def doubleToFloat (d : BitVec 64) : BitVec 32 :=
  let sign := d.toNat / 2 ^ 63
  let exponent := d.toNat / 2 ^ 52 % 2 ^ 11
  let fraction := d.toNat % 2 ^ 52
  let magnitude :=
    if exponent = 2047 then
      255 * 2 ^ 23 + (if fraction = 0 then 0 else 2 ^ 22 ||| fraction / 2 ^ 29)
    else if 897 ≤ exponent then
      -- a carry out of the fraction raises the exponent by itself
      min (255 * 2 ^ 23) ((exponent - 897) * 2 ^ 23 + roundShift (2 ^ 52 + fraction) 29)
    else roundShift ((if exponent = 0 then 0 else 2 ^ 52) + fraction) (29 + (897 - max exponent 1))
  BitVec.ofNat 32 (sign * 2 ^ 31 + magnitude)

/-- The bits of `static_cast<double>(std::numeric_limits<float>::max())`. -/
def floatMaxAsDouble : ℕ := 0x47EFFFFFE0000000

/-- `std::isfinite`. -/
def isFiniteDouble (d : BitVec 64) : Bool := d.toNat / 2 ^ 52 % 2 ^ 11 != 2047

/-- `std::fabs(number) > max float`: magnitudes compare as their bits. -/
def exceedsFloatMax (d : BitVec 64) : Bool := floatMaxAsDouble < d.toNat % 2 ^ 63

/-- `std::clamp(number, -limit, limit)` with the largest float as limit; a NaN is
below neither bound. -/
def clampDouble (d : BitVec 64) : BitVec 64 :=
  let nan := d.toNat / 2 ^ 52 % 2 ^ 11 = 2047 ∧ d.toNat % 2 ^ 52 ≠ 0
  if ¬ nan ∧ exceedsFloatMax d then BitVec.ofNat 64 (d.toNat / 2 ^ 63 * 2 ^ 63 + floatMaxAsDouble)
  else d

/-! ## Type changes -/

/-- `Family`. -/
inductive Family
  | integer
  | float
  | bool
  | bits
  | text
  | bytes
  deriving DecidableEq, Repr

/-- `FamilyOf`. -/
def familyOf : ColumnKind → Family
  | .unsigned => .integer
  | .signed => .integer
  | .float32 => .float
  | .float64 => .float
  | .bool => .bool
  | .bits => .bits
  | .text => .text
  | .bytes => .bytes

/-- `Widens`: `target` holds every value of `source` of its family. -/
def widens (source target : ColumnType) : Bool :=
  match source.kind, target.kind with
  | .unsigned, .signed => target.size > source.size
  | .signed, .unsigned => false
  | .float32, _ => true
  | .float64, kind => kind == .float64
  | _, _ => target.size ≥ source.size

variable (type : ColumnType)

theorem widens_self : widens type type = true := by
  unfold widens
  cases type.kind <;> simp

/-- `Conversion`: what a type change does with a value that does not fit. -/
inductive Conversion
  | exact
  | clamp
  | default
  | truncate
  deriving DecidableEq, Repr

/-- `IntegerOf`. -/
def integerOf : ColumnValue → ℤ
  | .uint v => v.toNat
  | .int v => v.toInt
  | _ => 0

/-- `RangeOf`. -/
def rangeOf (type : ColumnType) : ℤ × ℤ :=
  if type.kind = .unsigned then (0, 2 ^ type.size - 1)
  else (-2 ^ (type.size - 1), 2 ^ (type.size - 1) - 1)

/-- `IntegerValue`. -/
def integerValue (type : ColumnType) (number : ℤ) : ColumnValue :=
  if type.kind = .unsigned then .uint (UInt64.ofNat number.toNat) else .int (Int64.ofInt number)

/-- `FloatOf`. -/
def floatOf : ColumnValue → BitVec 64
  | .f32 v => floatToDouble v
  | .f64 v => v
  | _ => 0

/-- `FloatValue`. -/
def floatValue (type : ColumnType) (number : BitVec 64) : ColumnValue :=
  if type.kind = .float32 then .f32 (doubleToFloat number) else .f64 number

/-- The digits of a bits value. -/
def digitsOf : ColumnValue → List Char
  | .bits digits => digits
  | _ => []

/-- `BytesOf`. -/
def bytesOf : ColumnValue → Bytes
  | .text v => v
  | .bytes v => v
  | _ => []

/-- `VarValue`. -/
def varValue (type : ColumnType) (bytes : Bytes) : ColumnValue :=
  if type.kind = .text then .text bytes else .bytes bytes

/-- `Fit`: the value as one of type `target`, when it fits. -/
def fit (target : ColumnType) (value : ColumnValue) : Option ColumnValue :=
  match familyOf target.kind with
  | .integer =>
    let number := integerOf value
    if number < (rangeOf target).1 ∨ number > (rangeOf target).2 then none else some (integerValue target number)
  | .float =>
    let number := floatOf value
    if target.kind = .float32 ∧ isFiniteDouble number ∧ exceedsFloatMax number then none
    else some (floatValue target number)
  | .bool => some value
  | .bits =>
    let digits := digitsOf value
    if digits.length ≤ target.size then
      some (.bits (digits ++ List.replicate (target.size - digits.length) '0'))
    else if '1' ∈ digits.drop target.size then none
    else some (.bits (digits.take target.size))
  | .text | .bytes =>
    let bytes := bytesOf value
    if bytes.length > target.size then none else some (varValue target bytes)

/-- `FallbackOf`: what a column takes for a value that does not fit. -/
def fallbackOf (column : Column) : Fallible ColumnValue :=
  if column.hasDefault then
    if isFixedWidth column.type.kind then decodeColumnValue column column.defaultValue
    else .ok (decodeVarValue column column.defaultValue)
  else if column.nullable then .ok .null
  else
    match familyOf column.type.kind with
    | .integer => .ok (integerValue column.type 0)
    | .float => .ok (floatValue column.type 0)
    | .bool => .ok (.bool false)
    | .bits => .ok (.bits (List.replicate column.type.size '0'))
    | .text | .bytes => .ok (varValue column.type [])

/-- `Clamp`. -/
def clamp (target : ColumnType) (value : ColumnValue) : ColumnValue :=
  if familyOf target.kind = .integer then
    integerValue target (max (rangeOf target).1 (min (integerOf value) (rangeOf target).2))
  else floatValue target (clampDouble (floatOf value))

/-- Back from `keep` to the start of a character. -/
def characterStart (bytes : Bytes) : ℕ → ℕ
  | 0 => 0
  | keep + 1 => if isContinuation (bytes.getD (keep + 1) 0) then characterStart bytes keep else keep + 1

/-- `Truncate`. -/
def truncate (target : ColumnType) (value : ColumnValue) : ColumnValue :=
  if target.kind = .bits then .bits ((digitsOf value).take target.size)
  else
    let bytes := bytesOf value
    let keep := if target.kind = .text then characterStart bytes target.size else target.size
    varValue target (bytes.take keep)

/-- `TakesConversion`. -/
def takesConversion (family : Family) : Conversion → Bool
  | .exact => true
  | .default => true
  | .clamp => family == .integer || family == .float
  | .truncate => family == .text || family == .bytes || family == .bits

/-- `HoldsEveryValue`. -/
def holdsEveryValue (source target : ColumnType) : Bool :=
  familyOf source.kind == familyOf target.kind && widens source target

/-- `ConvertValue`. -/
def convertValue (target : Column) (conversion : Conversion) (value : ColumnValue) :
    Fallible ColumnValue :=
  if value = .null then .ok .null
  else
    match fit target.type value with
    | some fitted => .ok fitted
    | none =>
      match conversion with
      | .exact =>
        logicError ("column " ++ target.name ++ ": a value does not fit " ++ columnTypeName target.type)
      | .clamp => .ok (clamp target.type value)
      | .default => fallbackOf target
      | .truncate => .ok (truncate target.type value)

/-- `ValueFits`. -/
def valueFits (type : ColumnType) (value : ColumnValue) : Bool :=
  value == .null || (fit type value).isSome

theorem valueFits_of_isSome {type : ColumnType} {value : ColumnValue}
    (h : (fit type value).isSome = true) : valueFits type value = true := by
  rw [valueFits, h, Bool.or_true]

/-! ## Values of a type -/

/-- The value is of the type's own kind and in its range. -/
def HasType (type : ColumnType) : ColumnValue → Prop
  | .null => False
  | .uint v => type.kind = .unsigned ∧ v.toNat < 2 ^ type.size
  | .int v => type.kind = .signed ∧ -2 ^ (type.size - 1) ≤ v.toInt ∧ v.toInt < 2 ^ (type.size - 1)
  | .bool _ => type.kind = .bool
  | .f32 _ => type.kind = .float32
  | .f64 _ => type.kind = .float64
  | .bits digits => type.kind = .bits ∧ digits.length = type.size ∧ ∀ d ∈ digits, d = '0' ∨ d = '1'
  | .text v => type.kind = .text ∧ v.length ≤ type.size ∧ isUtf8 v = true
  | .bytes v => type.kind = .bytes ∧ v.length ≤ type.size

theorem HasType.ne_null {type : ColumnType} {value : ColumnValue} (h : HasType type value) :
    value ≠ .null := by
  rintro rfl
  exact h

/-- A buffer of one fixed-width value: its bytes, with the bits past the width zero. -/
def PaddedTo (width : ℕ) (bytes : Bytes) : Prop :=
  bytes.length = bytesForBits width ∧ ∀ i, width ≤ i → getBit bytes i = false

/-- A padded buffer of at most 64 bits holds a number of that many bits. -/
theorem PaddedTo.leNat_lt {width : ℕ} {bytes : Bytes} (h : PaddedTo width bytes) :
    leNat bytes < 2 ^ width := by
  apply Nat.lt_pow_two_of_testBit
  intro i hi
  rw [testBit_leNat]
  exact h.2 i hi

/-- An integer in the range of a type is kept. -/
theorem integerOf_integerValue {type : ColumnType} (hvalid : type.Valid)
    (hfamily : familyOf type.kind = .integer) {number : ℤ} (hlow : (rangeOf type).1 ≤ number)
    (hhigh : number ≤ (rangeOf type).2) : integerOf (integerValue type number) = number := by
  obtain ⟨hmin, hmax⟩ := hvalid
  cases hkind : type.kind <;> simp only [hkind, familyOf, reduceCtorEq] at hfamily
  · -- uN
    simp only [hkind, columnTypeRule] at hmax
    simp only [rangeOf, hkind, if_true] at hlow hhigh
    have hpow : (2 : ℤ) ^ type.size ≤ 2 ^ 64 := pow_le_pow_right₀ (by norm_num) hmax
    simp only [integerValue, hkind, if_true, integerOf]
    rw [UInt64.toNat_ofNat_of_lt' (by change _ < 2 ^ 64; omega)]
    omega
  · -- iN
    simp only [hkind, columnTypeRule] at hmax hmin
    simp only [rangeOf, hkind, reduceCtorEq, if_false] at hlow hhigh
    have hpow : (2 : ℤ) ^ (type.size - 1) ≤ 2 ^ 63 := pow_le_pow_right₀ (by norm_num) (by omega)
    simp only [integerValue, hkind, reduceCtorEq, if_false, integerOf]
    rw [Int64.toInt_ofInt_of_le (by omega) (by omega)]

/-- An integer in the range of a type is a value of the type. -/
theorem hasType_integerValue (hvalid : type.Valid)
    (hfamily : familyOf type.kind = .integer) (number : ℤ) (hlow : (rangeOf type).1 ≤ number)
    (hhigh : number ≤ (rangeOf type).2) : HasType type (integerValue type number) := by
  have hkept := integerOf_integerValue hvalid hfamily hlow hhigh
  cases hkind : type.kind <;> simp only [hkind, familyOf, reduceCtorEq] at hfamily <;>
    simp only [integerValue, integerOf, rangeOf, HasType, hkind, reduceCtorEq, if_true, if_false,
      true_and] at hkept hlow hhigh ⊢
  · zify
    omega
  · omega

/-- A value of an integer type lies in the type's range. -/
theorem integerOf_mem_range (hfamily : familyOf type.kind = .integer)
    (value : ColumnValue) (h : HasType type value) :
    (rangeOf type).1 ≤ integerOf value ∧ integerOf value ≤ (rangeOf type).2 := by
  cases value <;> simp only [HasType] at h
  case uint v =>
    have hlt : (v.toNat : ℤ) < 2 ^ type.size := by exact_mod_cast h.2
    simp only [rangeOf, h.1, if_true, integerOf]
    omega
  case int v =>
    simp only [rangeOf, h.1, reduceCtorEq, if_false, integerOf]
    omega
  all_goals simp [h, familyOf] at hfamily

/-- Every integer type holds zero. -/
theorem zero_mem_rangeOf : (rangeOf type).1 ≤ 0 ∧ 0 ≤ (rangeOf type).2 := by
  have hpos : (1 : ℤ) ≤ 2 ^ type.size := one_le_pow₀ (by norm_num)
  have hpos' : (1 : ℤ) ≤ 2 ^ (type.size - 1) := one_le_pow₀ (by norm_num)
  unfold rangeOf
  split <;> dsimp only <;> omega

theorem HasType.digits {type : ColumnType} {value : ColumnValue} (h : HasType type value) :
    ∀ d ∈ digitsOf value, d = '0' ∨ d = '1' := by
  cases value with
  | bits digits => exact h.2.2
  | _ => exact nofun

theorem HasType.isUtf8_bytesOf {type : ColumnType} {value : ColumnValue} (h : HasType type value)
    (hfamily : familyOf type.kind = .text) : isUtf8 (bytesOf value) = true := by
  cases value with
  | text v => exact h.2.2
  | bytes v => simp [h.1, familyOf] at hfamily
  | _ => rfl

theorem kind_eq_bits {kind : ColumnKind} (h : familyOf kind = .bits) : kind = .bits := by
  cases kind <;> simp_all [familyOf]

theorem familyOf_variable {kind : ColumnKind} (h : isFixedWidth kind = false) :
    familyOf kind = .text ∨ familyOf kind = .bytes := by
  cases kind <;> simp_all [isFixedWidth, familyOf]

theorem bytesOf_varValue (bytes : Bytes) :
    bytesOf (varValue type bytes) = bytes := by
  unfold varValue
  split <;> rfl

theorem hasType_floatValue (hfamily : familyOf type.kind = .float)
    (number : BitVec 64) : HasType type (floatValue type number) := by
  cases hkind : type.kind <;> simp_all [floatValue, HasType, familyOf]

/-- Bytes within a variable type's size, valid text for a text type, are a value of it. -/
theorem hasType_varValue
    (hfamily : familyOf type.kind = .text ∨ familyOf type.kind = .bytes) (bytes : Bytes)
    (hlen : bytes.length ≤ type.size) (hutf8 : type.kind = .text → isUtf8 bytes = true) :
    HasType type (varValue type bytes) := by
  cases hkind : type.kind <;> simp_all [varValue, HasType, familyOf]

/-! ## Numbers of a type -/

section Codec

variable {type : ColumnType} {column : Column} {value : ColumnValue} {bytes : Bytes} {raw : ℕ}

/-- The number a value is stored as, for the kinds stored as one number. -/
def rawOf : ColumnValue → ℕ
  | .uint v => v.toNat
  | .int v => v.toUInt64.toNat
  | .bool v => if v then 1 else 0
  | .f32 v => v.toNat
  | .f64 v => v.toNat
  | _ => 0

/-- The value of the type that is stored as the number. -/
def ofRaw (type : ColumnType) (raw : ℕ) : ColumnValue :=
  match type.kind with
  | .signed => .int (Int64.ofNat (signExtend type.size raw))
  | .bool => .bool (raw != 0)
  | .float32 => .f32 (BitVec.ofNat 32 raw)
  | .float64 => .f64 (BitVec.ofNat 64 raw)
  | _ => .uint (UInt64.ofNat raw)

/-- A valid type whose values are stored as one number. -/
structure ColumnType.IsNumber (type : ColumnType) : Prop where
  valid : type.Valid
  fixed : isFixedWidth type.kind = true
  not_bits : type.kind ≠ .bits

theorem ColumnType.IsNumber.size_le (h : type.IsNumber) : type.size ≤ 64 := by
  obtain ⟨⟨_, hmax⟩, hfixed, hbits⟩ := h
  cases hk : type.kind <;> simp only [hk, columnTypeRule] at hmax <;>
    first | omega | simp_all [isFixedWidth]

/-- Sign extension as bit vectors have it. -/
theorem ofNat_signExtend {width : ℕ} (hle : width ≤ 64) (hraw : raw < 2 ^ width) :
    Int64.ofNat (signExtend width raw)
      = Int64.ofBitVec ((BitVec.ofNat width raw).signExtend 64) := by
  have hpow : (2 : ℕ) ^ width ≤ 2 ^ 64 := Nat.pow_le_pow_right (by norm_num) hle
  have hor : raw ||| (2 ^ 64 - 2 ^ width) = raw + (2 ^ 64 - 2 ^ width) := by
    have hsplit : (2 : ℕ) ^ 64 - 2 ^ width = 2 ^ width * (2 ^ (64 - width) - 1) := by
      rw [Nat.mul_sub, ← pow_add, Nat.add_sub_cancel' hle, Nat.mul_one]
    rw [hsplit, Nat.or_comm, ← Nat.two_pow_add_eq_or_of_lt hraw, Nat.add_comm]
  have hmsb : (BitVec.ofNat width raw).msb = raw.testBit (width - 1) := by
    rw [BitVec.msb_eq_getLsbD_last, BitVec.getLsbD_ofNat]
    rcases Nat.eq_zero_or_pos width with rfl | hpos
    · rw [show raw = 0 by omega, Nat.zero_testBit, Bool.and_false]
    · rw [decide_eq_true (by omega), Bool.true_and]
  have hnat : signExtend width raw = ((BitVec.ofNat width raw).signExtend 64).toNat := by
    rw [BitVec.toNat_signExtend, hmsb, BitVec.toNat_setWidth, BitVec.toNat_ofNat,
      Nat.mod_eq_of_lt hraw, Nat.mod_eq_of_lt (hraw.trans_le hpow), signExtend, hor]
    rcases Nat.lt_or_eq_of_le hle with hlt | rfl
    · simp only [hlt, true_and]
      split <;> rfl
    · simp
  rw [hnat, Int64.ofNat, BitVec.ofNat_toNat, BitVec.setWidth_eq]
  rfl

/-- What is read of a number is a value of the type, stored as that number. -/
theorem hasType_ofRaw (h : type.IsNumber) (hraw : raw < 2 ^ type.size) :
    HasType type (ofRaw type raw) ∧ rawOf (ofRaw type raw) % 2 ^ type.size = raw := by
  have hle := h.size_le
  have hpow : (2 : ℕ) ^ type.size ≤ 2 ^ 64 := Nat.pow_le_pow_right (by norm_num) hle
  obtain ⟨⟨hmin, hmax⟩, hfixed, hbits⟩ := h
  unfold ofRaw
  cases hk : type.kind <;> simp only [hk, columnTypeRule] at hmin hmax
  case unsigned =>
    have hkept : (UInt64.ofNat raw).toNat = raw := UInt64.toNat_ofNat_of_lt' (hraw.trans_le hpow)
    simp only [HasType, rawOf, hkept, Nat.mod_eq_of_lt hraw]
    exact ⟨⟨hk, hraw⟩, trivial⟩
  case signed =>
    have hlow : ((BitVec.ofNat type.size raw).signExtend 64).toNat % 2 ^ type.size = raw := by
      have hcut : ((BitVec.ofNat type.size raw).signExtend 64).setWidth type.size
          = BitVec.ofNat type.size raw := by
        apply BitVec.eq_of_getLsbD_eq
        intro i hi
        rw [BitVec.getLsbD_setWidth, BitVec.getLsbD_signExtend, if_pos hi]
        simp [hi, hi.trans_le hle]
      rw [← BitVec.toNat_setWidth, hcut, BitVec.toNat_ofNat, Nat.mod_eq_of_lt hraw]
    simp only [ofNat_signExtend hle hraw, HasType, rawOf, Int64.toInt_ofBitVec,
      BitVec.toInt_signExtend_of_le hle]
    exact ⟨⟨hk, BitVec.le_toInt _, BitVec.toInt_lt⟩, hlow⟩
  case bool =>
    have hsize : type.size = 1 := by omega
    rw [hsize] at hraw ⊢
    refine ⟨hk, ?_⟩
    interval_cases raw <;> rfl
  case float32 | float64 =>
    rw [hmax.antisymm hmin] at hraw ⊢
    refine ⟨hk, ?_⟩
    simp only [rawOf, BitVec.toNat_ofNat, Nat.mod_eq_of_lt hraw]
  case bits => exact absurd hk hbits
  all_goals simp [hk, isFixedWidth] at hfixed

/-- A value of the type is the one its stored number stands for. -/
theorem ofRaw_rawOf (h : type.IsNumber) (htype : HasType type value) :
    ofRaw type (rawOf value % 2 ^ type.size) = value := by
  have hle := h.size_le
  obtain ⟨⟨hmin, hmax⟩, hfixed, hbits⟩ := h
  unfold ofRaw
  cases value <;> simp only [HasType] at htype
  case uint v => simp only [htype.1, rawOf, Nat.mod_eq_of_lt htype.2, UInt64.ofNat_toNat]
  case int v =>
    obtain ⟨hk, hlow, hhigh⟩ := htype
    simp only [hk, columnTypeRule] at hmin ⊢
    have hdouble : (2 : ℤ) ^ type.size = 2 * 2 ^ (type.size - 1) := by
      rw [← pow_succ', Nat.sub_add_cancel (by omega)]
    have hturn : v.toInt = Int.bmod v.toUInt64.toNat (2 ^ 64) := BitVec.toInt_eq_toNat_bmod _
    rw [ColumnValue.int.injEq, ← Int64.toInt_inj, ofNat_signExtend hle (Nat.mod_lt _ (by positivity)),
      Int64.toInt_ofBitVec, BitVec.toInt_signExtend_of_le hle, BitVec.toInt_eq_toNat_bmod,
      BitVec.toNat_ofNat, Nat.mod_mod, rawOf, Int.natCast_mod, Int.emod_bmod,
      ← Int.bmod_bmod_of_dvd (pow_dvd_pow 2 hle), ← hturn]
    apply Int.bmod_eq_of_le <;> push_cast <;> omega
  case bool v =>
    simp only [htype, columnTypeRule] at hmin hmax ⊢
    rw [show type.size = 1 by omega]
    cases v <;> rfl
  case f32 v | f64 v =>
    simp only [htype, columnTypeRule] at hmin hmax ⊢
    rw [hmax.antisymm hmin, rawOf, Nat.mod_eq_of_lt v.isLt, BitVec.ofNat_toNat,
      BitVec.setWidth_eq]
  case bits => exact absurd htype.1 hbits
  all_goals simp [htype.1, isFixedWidth] at hfixed

/-- A number of the column's type is stored as its low bits. -/
theorem encodeColumnValue_number (h : column.type.IsNumber) (htype : HasType column.type value) :
    encodeColumnValue column value
      = .ok (leBytes (bytesForBits column.type.size) (rawOf value % 2 ^ column.type.size)) := by
  have hle := h.size_le
  have hpos := h.valid.size_pos
  have hwidth : fixedWidthBits column.type = column.type.size := if_pos h.fixed
  have hraw : rawValue column value = .ok (rawOf value) ∧ rawOf value < 2 ^ 64 := by
    cases value <;> simp only [HasType] at htype
    case uint v =>
      have hshift : v.toNat >>> column.type.size = 0 := by
        rw [Nat.shiftRight_eq_div_pow]
        exact Nat.div_eq_of_lt htype.2
      exact ⟨by simp [rawValue, htype.1, hwidth, hshift, rawOf], v.toNat_lt⟩
    case int v =>
      simp only [rawValue, htype.1, hwidth]
      exact ⟨if_neg (by omega), v.toUInt64.toNat_lt⟩
    case bool v => exact ⟨by simp [rawValue, htype, rawOf], by cases v <;> decide⟩
    case f32 v => exact ⟨by simp [rawValue, htype, rawOf], v.isLt.trans (by decide)⟩
    case f64 v => exact ⟨by simp [rawValue, htype, rawOf], v.isLt⟩
    case bits => exact absurd htype.1 h.not_bits
    all_goals simpa [htype.1, isFixedWidth] using h.fixed
  have hbytes : min (bytesForBits column.type.size) 8 = bytesForBits column.type.size := by
    unfold bytesForBits
    omega
  have hlow : (if column.type.size < 64 then rawOf value &&& (2 ^ column.type.size - 1)
      else rawOf value) = rawOf value % 2 ^ column.type.size := by
    split
    · exact Nat.and_two_pow_sub_one_eq_mod _ _
    · rw [show column.type.size = 64 by omega, Nat.mod_eq_of_lt hraw.2]
  unfold encodeColumnValue
  simp only [hwidth, if_neg hpos.ne', if_neg htype.ne_null, if_neg h.not_bits, hraw.1,
    ok_bind, hlow, hbytes, Nat.sub_self, replicate_zero, append_nil]
  rfl

/-- A padded buffer of a number holds the value it stands for. -/
theorem decodeColumnValue_number (h : column.type.IsNumber)
    (hbytes : PaddedTo column.type.size bytes) :
    decodeColumnValue column bytes = .ok (ofRaw column.type (leNat bytes)) := by
  have hle := h.size_le
  have hwidth : fixedWidthBits column.type = column.type.size := if_pos h.fixed
  have hall : bytes.take (min (bytesForBits column.type.size) 8) = bytes := by
    apply take_of_length_le
    rw [hbytes.1]
    unfold bytesForBits
    omega
  unfold decodeColumnValue ofRaw
  simp only [hwidth, hall]
  obtain ⟨_, hfixed, hbits⟩ := h
  cases hk : column.type.kind <;> first | rfl | exact absurd hk hbits | simp [hk, isFixedWidth] at hfixed

/-! ## Digits -/

/-- The digits are the bits of the buffer. -/
theorem encodeDigits_spec (column : Column) (i : ℕ) {digits : List Char} (bytes : Bytes)
    (hdigits : ∀ d ∈ digits, d = '0' ∨ d = '1') (hroom : i + digits.length ≤ 8 * bytes.length)
    (hzero : ∀ j, i ≤ j → getBit bytes j = false) :
    ∃ out, encodeDigits column i digits bytes = .ok out ∧ out.length = bytes.length
      ∧ ∀ j, getBit out j = if i ≤ j then digits[j - i]? == some '1' else getBit bytes j := by
  induction digits generalizing i bytes with
  | nil =>
    refine ⟨bytes, rfl, rfl, fun j => ?_⟩
    split
    · rename_i hle
      rw [hzero j hle]
      rfl
    · rfl
  | cons d digits ih =>
    rw [length_cons] at hroom
    have hd := hdigits d mem_cons_self
    have hhead : ∀ k, getBit (if d = '1' then putBit bytes i true else bytes) k
        = if i = k then d == '1' else getBit bytes k := by
      intro k
      rcases hd with rfl | rfl
      · rw [if_neg (by decide)]
        split
        · rename_i hk
          rw [← hk, hzero i le_rfl]
          rfl
        · rfl
      · rw [if_pos rfl, getBit_putBit _ _ _ (by omega)]
        rfl
    have hlen : (if d = '1' then putBit bytes i true else bytes).length = bytes.length := by
      split <;> simp
    obtain ⟨out, hout, houtlen, hbits⟩ := ih (i + 1) (if d = '1' then putBit bytes i true else bytes)
      (fun a ha => hdigits a (mem_cons_of_mem _ ha)) (by omega) (fun k hk => by
        rw [hhead, if_neg (by omega), hzero k (by omega)])
    refine ⟨out, ?_, houtlen.trans hlen, fun j => ?_⟩
    · rw [encodeDigits, if_neg (by tauto), hout]
    · rw [hbits, hhead]
      by_cases hlt : i + 1 ≤ j
      · rw [if_pos hlt, if_pos (by omega), show j - i = j - (i + 1) + 1 by omega,
          getElem?_cons_succ]
      · rw [if_neg hlt]
        by_cases heq : i = j
        · rw [if_pos heq, if_pos (by omega), heq, Nat.sub_self, getElem?_cons_zero]
          rfl
        · rw [if_neg heq, if_neg (by omega)]

/-- A bits value is stored as its digits. -/
theorem encodeColumnValue_bits {digits : List Char} (hpos : 0 < column.type.size)
    (htype : HasType column.type (.bits digits)) :
    ∃ bytes, encodeColumnValue column (.bits digits) = .ok bytes
      ∧ PaddedTo column.type.size bytes ∧ ∀ j, getBit bytes j = (digits[j]? == some '1') := by
  obtain ⟨hkind, hlength, hdigits⟩ := htype
  have hwidth : fixedWidthBits column.type = column.type.size := if_pos (by rw [hkind]; rfl)
  have hroom := le_bytesForBits column.type.size
  obtain ⟨out, hout, hlen, hbit⟩ := encodeDigits_spec column 0
    (List.replicate (bytesForBits column.type.size) 0) hdigits
    (by rw [length_replicate]; omega) (fun j _ => getBit_zeros _ j)
  simp only [Nat.zero_le, if_true, Nat.sub_zero] at hbit
  refine ⟨out, ?_, ⟨hlen.trans length_replicate, fun i hi => ?_⟩, hbit⟩
  · simp only [encodeColumnValue, hwidth, hkind, if_neg hpos.ne', reduceCtorEq, if_false, if_true,
      hlength, ne_eq, not_true_eq_false, hout]
  · rw [hbit, getElem?_eq_none (by omega)]
    rfl

/-! ## One value -/

theorem paddedTo_leBytes {width : ℕ} (h : raw < 2 ^ width) :
    PaddedTo width (leBytes (bytesForBits width) raw)
      ∧ leNat (leBytes (bytesForBits width) raw) = raw := by
  have hfits : raw < 256 ^ bytesForBits width := by
    calc raw < 2 ^ width := h
      _ ≤ 2 ^ (8 * bytesForBits width) :=
          Nat.pow_le_pow_right (by norm_num) (le_bytesForBits width)
      _ = 256 ^ bytesForBits width := by rw [pow_mul]; norm_num
  have hnat := leNat_leBytes_of_lt _ raw hfits
  refine ⟨⟨length_leBytes _ _, fun i hi => ?_⟩, hnat⟩
  rw [← testBit_leNat, hnat]
  exact Nat.testBit_lt_two_pow (h.trans_le (Nat.pow_le_pow_right (by norm_num) hi))

/-- A value of the column's type is stored in a buffer without bits past the width, and comes
back from there. -/
theorem encodeColumnValue_of_hasType (hvalid : column.type.Valid)
    (hfixed : isFixedWidth column.type.kind = true) (h : HasType column.type value) :
    ∃ bytes, encodeColumnValue column value = .ok bytes
      ∧ PaddedTo (fixedWidthBits column.type) bytes ∧ decodeColumnValue column bytes = .ok value := by
  have hwidth : fixedWidthBits column.type = column.type.size := if_pos hfixed
  rw [hwidth]
  by_cases hbits : column.type.kind = .bits
  · cases value <;> simp only [HasType, hbits, reduceCtorEq, false_and] at h
    rename_i digits
    obtain ⟨bytes, hencode, hpadded, hbit⟩ := encodeColumnValue_bits hvalid.size_pos ⟨hbits, h.2⟩
    refine ⟨bytes, hencode, hpadded, ?_⟩
    simp only [decodeColumnValue, hbits, hwidth, Except.ok.injEq, ColumnValue.bits.injEq]
    apply ext_getElem (by simp [h.2.1])
    intro n hn hn'
    rw [getElem_map, getElem_range, hbit, getElem?_eq_getElem hn']
    rcases h.2.2 _ (getElem_mem hn') with hd | hd <;> rw [hd] <;> rfl
  · obtain ⟨hpadded, hnat⟩ := paddedTo_leBytes (Nat.mod_lt (rawOf value) (Nat.two_pow_pos column.type.size))
    have hnumber : column.type.IsNumber := ⟨hvalid, hfixed, hbits⟩
    refine ⟨_, encodeColumnValue_number hnumber h, hpadded, ?_⟩
    rw [decodeColumnValue_number hnumber hpadded, hnat, ofRaw_rawOf hnumber h]

/-- A padded buffer decodes to a value of the column's type, and is what that value is stored
as. -/
theorem decodeColumnValue_spec (hvalid : column.type.Valid)
    (hfixed : isFixedWidth column.type.kind = true)
    (h : PaddedTo (fixedWidthBits column.type) bytes) :
    ∃ value, decodeColumnValue column bytes = .ok value ∧ HasType column.type value
      ∧ encodeColumnValue column value = .ok bytes := by
  have hwidth : fixedWidthBits column.type = column.type.size := if_pos hfixed
  rw [hwidth] at h
  by_cases hbits : column.type.kind = .bits
  · have htype : HasType column.type (.bits ((List.range column.type.size).map
        fun i => if getBit bytes i then '1' else '0')) := by
      refine ⟨hbits, by simp, fun d hd => ?_⟩
      obtain ⟨i, _, rfl⟩ := mem_map.mp hd
      split <;> simp
    obtain ⟨out, hencode, hpadded, hbit⟩ := encodeColumnValue_bits hvalid.size_pos htype
    have hout : out = bytes := by
      apply ext_getBit _ _ (hpadded.1.trans h.1.symm)
      intro i _
      by_cases hi : i < column.type.size
      · rw [hbit, getElem?_map, getElem?_range hi, Option.map_some]
        cases getBit bytes i <;> rfl
      · rw [hpadded.2 i (by omega), h.2 i (by omega)]
    exact ⟨_, by simp only [decodeColumnValue, hbits, hwidth], htype, hout ▸ hencode⟩
  · have hnumber : column.type.IsNumber := ⟨hvalid, hfixed, hbits⟩
    obtain ⟨htype, hraw⟩ := hasType_ofRaw hnumber h.leNat_lt
    refine ⟨_, decodeColumnValue_number hnumber h, htype, ?_⟩
    rw [encodeColumnValue_number hnumber htype, hraw, ← h.1, leBytes_leNat]

end Codec

variable (column : Column)

/-- A value of a variable column is encoded as its bytes. -/
theorem encodeVarValue_of_hasType (value : ColumnValue)
    (hfixed : isFixedWidth column.type.kind = false) (h : HasType column.type value) :
    encodeVarValue column value = .ok (bytesOf value)
      ∧ (bytesOf value).length ≤ column.type.size
      ∧ (column.type.kind = .text → isUtf8 (bytesOf value) = true) := by
  cases value <;> simp only [HasType] at h
  case text v =>
    refine ⟨?_, h.2.1, fun _ => h.2.2⟩
    simp [encodeVarValue, h.1, h.2.1, h.2.2, require, bytesOf, bind, Except.bind, pure, Except.pure]
  case bytes v =>
    refine ⟨?_, h.2, fun htext => by simp [h.1] at htext⟩
    simp [encodeVarValue, h.1, h.2, require, bytesOf, bind, Except.bind, pure, Except.pure]
  all_goals simp [h, isFixedWidth] at hfixed

/-! ## Conversions -/

variable (source target : ColumnType)

/-- `Fit` gives a value of the new type. -/
theorem hasType_of_fit (hvalid : target.Valid)
    (hfamily : familyOf source.kind = familyOf target.kind) (value fitted : ColumnValue)
    (h : HasType source value) (hfit : fit target value = some fitted) : HasType target fitted := by
  unfold fit at hfit
  cases hf : familyOf target.kind <;> simp only [hf] at hfit
  case integer =>
    split at hfit
    · simp at hfit
    · cases hfit
      exact hasType_integerValue target hvalid hf _ (by omega) (by omega)
  case float =>
    split at hfit
    · simp at hfit
    · cases hfit
      exact hasType_floatValue target hf _
  case bool =>
    cases hfit
    rw [hf] at hfamily
    cases value <;> simp only [HasType] at h ⊢ <;> simp [h, familyOf] at hfamily
    cases hkind : target.kind <;> simp_all [familyOf]
  case bits =>
    split at hfit
    · cases hfit
      refine ⟨kind_eq_bits hf, by simp; omega, ?_⟩
      intro d hd
      rcases mem_append.mp hd with hd | hd
      · exact h.digits d hd
      · exact .inl (eq_of_mem_replicate hd)
    · split at hfit
      · simp at hfit
      · cases hfit
        exact ⟨kind_eq_bits hf, by simp; omega, fun d hd => h.digits d (mem_of_mem_take hd)⟩
  all_goals
    split at hfit
    · simp at hfit
    · cases hfit
      refine hasType_varValue target (by simp [hf]) _ (by omega) fun htext => ?_
      rw [htext] at hfamily
      exact h.isUtf8_bytesOf hfamily

/-- A wider type holds every value. -/
theorem fit_isSome_of_widens
    (hfamily : familyOf source.kind = familyOf target.kind) (hne : source ≠ target)
    (hsource : source.Valid) (htarget : target.Valid) (hwidens : widens source target = true)
    (value : ColumnValue) (h : HasType source value) : (fit target value).isSome := by
  unfold fit
  cases hf : familyOf target.kind <;> simp only
  case integer =>
    rw [hf] at hfamily
    have hrange := integerOf_mem_range source hfamily value h
    have hpos := hsource.size_pos
    rw [if_neg]
    · rfl
    · cases hs : source.kind <;> simp only [hs, familyOf, reduceCtorEq] at hfamily <;>
        cases ht : target.kind <;> simp only [ht, familyOf, reduceCtorEq] at hf <;>
        simp only [widens, hs, ht, decide_eq_true_eq, Bool.false_eq_true, ge_iff_le, gt_iff_lt]
          at hwidens <;>
        simp only [rangeOf, hs, ht, reduceCtorEq, if_true, if_false] at hrange ⊢
      · have := pow_le_pow_right₀ (show (1 : ℤ) ≤ 2 by norm_num) hwidens
        omega
      · have := pow_le_pow_right₀ (show (1 : ℤ) ≤ 2 by norm_num) (show source.size ≤ target.size - 1 by omega)
        omega
      · have := pow_le_pow_right₀ (show (1 : ℤ) ≤ 2 by norm_num)
          (show source.size - 1 ≤ target.size - 1 by omega)
        omega
  case float =>
    -- the only widening is to f64, which takes any double
    have hkind : target.kind ≠ .float32 := by
      intro h32
      rw [hf] at hfamily
      cases hs : source.kind <;> simp only [hs, familyOf, reduceCtorEq] at hfamily
      · apply hne
        obtain ⟨hs1, hs2⟩ := hsource
        obtain ⟨ht1, ht2⟩ := htarget
        simp only [hs, h32, columnTypeRule] at hs1 hs2 ht1 ht2
        have hsize : source.size = target.size := by omega
        have hkinds := hs.trans h32.symm
        cases source
        cases target
        simp_all only
      · simp [widens, hs, h32] at hwidens
    simp [hkind]
  case bool => rfl
  case bits =>
    rw [hf] at hfamily
    have hkind := kind_eq_bits hf
    cases value <;> simp only [HasType] at h <;> simp [h, familyOf] at hfamily
    simp only [widens, h.1, hkind, ge_iff_le, decide_eq_true_eq] at hwidens
    rw [if_pos (by simp only [digitsOf]; omega)]
    rfl
  all_goals
    rw [hf] at hfamily
    cases value <;> simp only [HasType] at h <;> simp [h, familyOf] at hfamily
    simp only [widens, h.1, ge_iff_le, decide_eq_true_eq] at hwidens
    rw [if_neg (by simp only [bytesOf]; omega)]
    rfl

/-- `Clamp` gives a value of a numeric type. -/
theorem hasType_clamp (target : ColumnType) (hvalid : target.Valid)
    (hfamily : familyOf target.kind = .integer ∨ familyOf target.kind = .float)
    (value : ColumnValue) : HasType target (clamp target value) := by
  unfold clamp
  rcases hfamily with hf | hf
  · obtain ⟨hlow, hhigh⟩ := zero_mem_rangeOf target
    rw [if_pos hf]
    exact hasType_integerValue target hvalid hf _ (le_max_left _ _)
      (max_le (hlow.trans hhigh) (min_le_right _ _))
  · rw [if_neg (by simp [hf])]
    exact hasType_floatValue target hf _

theorem characterStart_le (bytes : Bytes) (keep : ℕ) : characterStart bytes keep ≤ keep := by
  induction keep with
  | zero => exact le_rfl
  | succ keep ih =>
    rw [characterStart]
    split <;> omega

/-- A text cut at the start of a character is valid. -/
theorem isUtf8_take_characterStart (bytes : Bytes) (h : isUtf8 bytes = true) (keep : ℕ) :
    isUtf8 (bytes.take (characterStart bytes keep)) = true := by
  induction keep with
  | zero => rfl
  | succ keep ih =>
    rw [characterStart]
    split
    · exact ih
    · rename_i hstart
      rw [isUtf8_take_iff _ _ h]
      intro b hb
      rw [getD_eq_getElem?_getD, hb, Option.getD_some] at hstart
      simpa using hstart

/-- `Truncate` gives a value of the type when the value did not fit. -/
theorem hasType_truncate
    (hsame : familyOf source.kind = familyOf target.kind)
    (hfamily : familyOf target.kind = .text ∨ familyOf target.kind = .bytes
      ∨ familyOf target.kind = .bits)
    (value : ColumnValue) (h : HasType source value) (hfit : fit target value = none) :
    HasType target (truncate target value) := by
  unfold truncate
  by_cases hbits : target.kind = .bits
  · rw [if_pos hbits]
    refine ⟨hbits, ?_, fun d hd => h.digits d (mem_of_mem_take hd)⟩
    -- a value of fewer digits would have fitted
    have hlen : ¬ (digitsOf value).length ≤ target.size := by
      intro hle
      simp [fit, hbits, familyOf, hle] at hfit
    rw [length_take]
    omega
  · have hvar : familyOf target.kind = .text ∨ familyOf target.kind = .bytes := by
      rcases hfamily with hf | hf | hf
      · exact .inl hf
      · exact .inr hf
      · exact absurd (kind_eq_bits hf) hbits
    have hkeep : (if target.kind = .text then characterStart (bytesOf value) target.size
        else target.size) ≤ target.size := by
      split
      · exact characterStart_le _ _
      · exact le_rfl
    rw [if_neg hbits]
    refine hasType_varValue target hvar _ ?_ ?_
    · rw [length_take]
      omega
    · intro htext
      rw [htext] at hsame
      rw [if_pos htext]
      exact isUtf8_take_characterStart _ (h.isUtf8_bytesOf hsame) _

/-- The column's default, when it has one, encodes a value of its type. -/
def Column.DefaultValid (column : Column) : Prop :=
  column.hasDefault = true →
    if isFixedWidth column.type.kind then PaddedTo (fixedWidthBits column.type) column.defaultValue
    else column.defaultValue.length ≤ column.type.size
      ∧ (column.type.kind = .text → isUtf8 column.defaultValue = true)

/-- A buffer whose last byte is below the width's leftover bits is padded. -/
theorem paddedTo_of_getLastD (width : ℕ) (bytes : Bytes) (hlen : bytes.length = bytesForBits width)
    (hlast : width % 8 ≠ 0 → bytes.getLastD 0 >>> UInt8.ofNat (width % 8) = 0) :
    PaddedTo width bytes := by
  refine ⟨hlen, ?_⟩
  intro i hi
  unfold bytesForBits at hlen
  unfold getBit
  by_cases hin : i / 8 < bytes.length
  · -- the bit is in the last byte, above the leftover bits
    have hmod : width % 8 ≠ 0 := by omega
    have hget : bytes.getD (i / 8) 0 = bytes.getLastD 0 := by
      have hidx : i / 8 = bytes.length - 1 := by omega
      rw [hidx, getLastD_eq_getLast?, getLast?_eq_getElem?, getD_eq_getElem?_getD]
    have hshift := congrArg UInt8.toNat (hlast hmod)
    rw [UInt8.toNat_shiftRight, UInt8.toNat_ofNat', Nat.mod_eq_of_lt (by omega : width % 8 < 2 ^ 8),
      Nat.mod_mod] at hshift
    obtain ⟨j, hj⟩ : ∃ j, i % 8 = width % 8 + j := ⟨i % 8 - width % 8, by omega⟩
    rw [hget, hj, ← Nat.testBit_shiftRight, hshift]
    simp
  · rw [getD_eq_default _ _ (by omega)]
    simp

theorem defaultValid_of_validateDefault
    (h : validateDefault column = .ok ()) : column.DefaultValid := by
  intro hdefault
  unfold validateDefault at h
  rw [if_neg (by simp [hdefault])] at h
  cases hfixed : isFixedWidth column.type.kind
  · simp only [hfixed, Bool.false_eq_true, if_false, bind, Except.bind] at h ⊢
    split at h
    · simp at h
    · rename_i hlen
      rw [require_eq_ok] at h hlen
      exact ⟨hlen, fun htext => by simpa [htext] using h⟩
  · simp only [hfixed, if_true, bind, Except.bind] at h ⊢
    split at h
    · simp at h
    · rename_i hlen
      rw [require_eq_ok] at h hlen
      exact paddedTo_of_getLastD _ _ hlen (fun hmod => by simpa [hmod] using h)

/-- A value the column can hold: one of its type, or NULL where it may be. -/
def Column.Holds (column : Column) (value : ColumnValue) : Prop :=
  (value = .null ∧ column.nullable = true) ∨ HasType column.type value

/-- `FallbackOf` never throws, and gives a value the column can hold. -/
theorem fallbackOf_spec (hvalid : column.type.Valid)
    (hdefault : column.DefaultValid) :
    ∃ value, fallbackOf column = .ok value ∧ column.Holds value := by
  unfold fallbackOf
  by_cases hhas : column.hasDefault = true
  · have h := hdefault hhas
    rw [if_pos hhas]
    by_cases hfixed : isFixedWidth column.type.kind = true
    · rw [if_pos hfixed] at h ⊢
      obtain ⟨value, hok, htype, _⟩ := decodeColumnValue_spec hvalid hfixed h
      exact ⟨value, hok, .inr htype⟩
    · rw [if_neg hfixed] at h ⊢
      exact ⟨_, rfl, .inr (hasType_varValue column.type
        (familyOf_variable (Bool.eq_false_of_not_eq_true hfixed)) _ h.1 h.2)⟩
  · rw [if_neg hhas]
    split
    · exact ⟨_, rfl, .inl ⟨rfl, ‹_›⟩⟩
    · obtain ⟨hlow, hhigh⟩ := zero_mem_rangeOf column.type
      cases hf : familyOf column.type.kind <;> refine ⟨_, rfl, .inr ?_⟩
      case integer => exact hasType_integerValue column.type hvalid hf 0 hlow hhigh
      case float => exact hasType_floatValue column.type hf 0
      case bool => cases hk : column.type.kind <;> simp_all [familyOf, HasType]
      case bits =>
        refine ⟨kind_eq_bits hf, by simp, ?_⟩
        intro d hd
        exact .inl (eq_of_mem_replicate hd)
      all_goals exact hasType_varValue column.type (by simp [hf]) [] (by simp) (fun _ => rfl)

/-- A type change as the schema rules allow it: within a family, with a conversion
that family takes. -/
structure TypeChange (source target : ColumnType) (conversion : Conversion) : Prop where
  sourceValid : source.Valid
  targetValid : target.Valid
  differ : source ≠ target
  family : familyOf source.kind = familyOf target.kind
  takes : takesConversion (familyOf target.kind) conversion = true

/-- The change keeps the width fixed or variable. -/
theorem TypeChange.isFixedWidth_eq {source target : ColumnType} {conversion : Conversion}
    (h : TypeChange source target conversion) :
    isFixedWidth source.kind = isFixedWidth target.kind := by
  have hfamily := h.family
  cases hs : source.kind <;> cases ht : target.kind <;> simp [hs, ht, familyOf] at hfamily <;> rfl

/-- `ConvertValue` gives a value the changed column can hold.  An exact conversion
needs a value that fits; every other one takes any value. -/
theorem convertValue_spec (source : ColumnType) (target : Column) (conversion : Conversion)
    (hchange : TypeChange source target.type conversion) (hdefault : target.DefaultValid)
    (value : ColumnValue) (hvalue : (value = .null ∧ target.nullable = true) ∨ HasType source value)
    (hexact : conversion = .exact → valueFits target.type value = true) :
    ∃ converted, convertValue target conversion value = .ok converted ∧ target.Holds converted := by
  rcases hvalue with ⟨rfl, hnull⟩ | htype
  · exact ⟨.null, rfl, .inl ⟨rfl, hnull⟩⟩
  · unfold convertValue
    rw [if_neg htype.ne_null]
    cases hfit : fit target.type value with
    | some fitted =>
      exact ⟨fitted, rfl, .inr
        (hasType_of_fit source target.type hchange.targetValid hchange.family value _ htype hfit)⟩
    | none =>
      have htakes := hchange.takes
      cases conversion
      case exact => simp [valueFits, hfit, htype.ne_null] at hexact
      case clamp =>
        refine ⟨_, rfl, .inr (hasType_clamp _ hchange.targetValid ?_ value)⟩
        simpa [takesConversion] using htakes
      case default => exact fallbackOf_spec target hchange.targetValid hdefault
      case truncate =>
        refine ⟨_, rfl, .inr (hasType_truncate source _ hchange.family ?_ value htype hfit)⟩
        simpa [takesConversion, or_assoc] using htakes

/-- A converted text or bytes value is no longer than it was. -/
theorem length_convertValue_le (source : ColumnType) (target : Column) (conversion : Conversion)
    (hchange : TypeChange source target.type conversion) (hdefault : target.DefaultValid)
    (hvar : isFixedWidth target.type.kind = false) (value converted : ColumnValue)
    (h : convertValue target conversion value = .ok converted) :
    (bytesOf converted).length ≤ (bytesOf value).length := by
  have hfamily := familyOf_variable hvar
  have hfitEq : fit target.type value
      = if (bytesOf value).length > target.type.size then none
        else some (varValue target.type (bytesOf value)) := by
    unfold fit
    rcases hfamily with hf | hf <;> simp only [hf]
  unfold convertValue at h
  split at h
  · cases h
    simp [bytesOf]
  · rw [hfitEq] at h
    by_cases hlong : (bytesOf value).length > target.type.size
    · -- what replaces a value that is too long fits the new type
      simp only [hlong, if_true] at h
      have htakes := hchange.takes
      cases conversion
      case exact => simp [logicError] at h
      case clamp => rcases hfamily with hf | hf <;> simp [hf, takesConversion] at htakes
      case default =>
        obtain ⟨fallback, hok, hholds⟩ := fallbackOf_spec target hchange.targetValid hdefault
        rw [hok] at h
        obtain rfl := Except.ok.inj h
        rcases hholds with ⟨rfl, _⟩ | htype
        · simp [bytesOf]
        · have := (encodeVarValue_of_hasType target fallback hvar htype).2.1
          omega
      case truncate =>
        cases h
        have hbits : target.type.kind ≠ .bits := by
          rintro hk
          simp [hk, isFixedWidth] at hvar
        unfold truncate
        rw [if_neg hbits, bytesOf_varValue, length_take]
        omega
    · simp only [hlong, if_false] at h
      rw [← Except.ok.inj h, bytesOf_varValue]

/-- Every value of a type fits a wider one. -/
theorem valueFits_of_widens {source target : ColumnType} {conversion : Conversion}
    (hchange : TypeChange source target conversion) (hwidens : widens source target = true)
    (value : ColumnValue) (h : value = .null ∨ HasType source value) :
    valueFits target value = true := by
  rcases h with rfl | h
  · simp [valueFits]
  · simp [valueFits, fit_isSome_of_widens source target hchange.family hchange.differ
      hchange.sourceValid hchange.targetValid hwidens value h]

end ChunkDb
