/-
# WAL file headers

The header a chunk's WAL starts with (`chunk_format.cpp`, `wal_replay.cpp`): how it
is built, what `ValidateWalHeader` checks, and how a file cut while its header was
written is recognised (`isInterruptedCreation`).

* `validateWalHeader_buildWalHeader` : a built header is accepted, whatever follows;
* `isInterruptedCreation_take` : a prefix of a built header is an interrupted creation.
-/
import ChunkDb.Crc32

open LittleEndian List

namespace ChunkDb

/-- `ChunkCoord`. -/
structure ChunkCoord where
  x : Int64
  y : Int64
  deriving DecidableEq

/-- `StoreId`: 16 bytes. -/
structure StoreId where
  bytes : Bytes
  length_eq : bytes.length = 16
  deriving DecidableEq

/-- The id of sixteen equal bytes. -/
def StoreId.ofByte (byte : UInt8) : StoreId := ⟨List.replicate 16 byte, length_replicate ..⟩

/-- `FeatureFlags`. -/
structure FeatureFlags where
  incompat : UInt32
  roCompat : UInt32
  compat : UInt32
  deriving DecidableEq, Repr

def kFeatureFeedSlots : UInt32 := 1

/-- `kKnownFeatures`: all five features of the registry, each an incompat bit. -/
def kKnownFeatures : FeatureFlags := ⟨31, 0, 0⟩

/-- `UnionFeatures`. -/
def unionFeatures (lhs rhs : FeatureFlags) : FeatureFlags :=
  ⟨lhs.incompat ||| rhs.incompat, lhs.roCompat ||| rhs.roCompat, lhs.compat ||| rhs.compat⟩

/-- `UnknownFeatures`. -/
def unknownFeatures (flags : FeatureFlags) : FeatureFlags :=
  ⟨flags.incompat &&& ~~~kKnownFeatures.incompat, flags.roCompat &&& ~~~kKnownFeatures.roCompat,
    flags.compat &&& ~~~kKnownFeatures.compat⟩

/-- `IsSubsetOf`. -/
def isSubsetOf (lhs rhs : FeatureFlags) : Bool :=
  lhs.incompat &&& ~~~rhs.incompat == 0 && lhs.roCompat &&& ~~~rhs.roCompat == 0
    && lhs.compat &&& ~~~rhs.compat == 0

/-- `MaySkipUnknownTypes`. -/
def maySkipUnknownTypes (flags : FeatureFlags) : Bool :=
  let unknown := unknownFeatures flags
  unknown.incompat != 0 || unknown.roCompat != 0 || unknown.compat != 0

/-- The store keeps feed slots, and with them users and collection marks in its frames. -/
def slotsEnabled (flags : FeatureFlags) : Bool := flags.incompat &&& kFeatureFeedSlots != 0

/-- `DescribeFeatures`. -/
def describeFeatures (flags : FeatureFlags) : String :=
  let hex := fun value : UInt32 => "0x" ++ String.ofList (Nat.toDigits 16 value.toNat)
  "incompat=" ++ hex flags.incompat ++ " ro_compat=" ++ hex flags.roCompat
    ++ " compat=" ++ hex flags.compat

/-- `kWalMagic`: "CHKWALOG". -/
def kWalMagic : Bytes := [0x43, 0x48, 0x4B, 0x57, 0x41, 0x4C, 0x4F, 0x47]
def kWalFormatVersion : ℕ := 1
def kWalHeaderSize : ℕ := 60

/-- What the checksum of a WAL header covers. -/
def walHeaderFields (chunkCoord : ChunkCoord) (storeId : StoreId) (features : FeatureFlags) : Bytes :=
  kWalMagic ++ leBytes 2 kWalFormatVersion ++ leBytes 2 0 ++ leBytes 4 features.incompat.toNat
    ++ leBytes 4 features.roCompat.toNat ++ leBytes 4 features.compat.toNat ++ storeId.bytes
    ++ leBytes 8 chunkCoord.x.toUInt64.toNat ++ leBytes 8 chunkCoord.y.toUInt64.toNat

/-- `BuildWalHeader`. -/
def buildWalHeader (chunkCoord : ChunkCoord) (storeId : StoreId) (features : FeatureFlags) : Bytes :=
  let fields := walHeaderFields chunkCoord storeId features
  fields ++ leBytes 4 (crc32 fields)

/-- The feature flags a WAL header records. -/
def walHeaderFeatures (wal : Bytes) : FeatureFlags :=
  ⟨UInt32.ofNat (readLe 4 wal 12), UInt32.ofNat (readLe 4 wal 16), UInt32.ofNat (readLe 4 wal 20)⟩

/-- `ValidateWalHeader`. -/
def validateWalHeader (wal : Bytes) (chunkCoord : ChunkCoord) (storeId : StoreId)
    (storeFeatures : FeatureFlags) : Fallible Unit := do
  require (kWalHeaderSize ≤ wal.length) ⟨.runtimeError, "WAL file too small"⟩
  require (wal.take 8 = kWalMagic) ⟨.runtimeError, "not a 2.0 WAL (bad magic)"⟩
  require (readLe 4 wal (kWalHeaderSize - 4) = crc32 (wal.take (kWalHeaderSize - 4)))
    ⟨.runtimeError, "WAL header checksum mismatch"⟩
  require (readLe 2 wal 8 = kWalFormatVersion)
    ⟨.runtimeError, "unsupported WAL version " ++ toString (readLe 2 wal 8)⟩
  require (readLe 2 wal 10 = 0) ⟨.runtimeError, "WAL header reserved field is not zero"⟩
  require (isSubsetOf (walHeaderFeatures wal) storeFeatures = true)
    ⟨.runtimeError, "WAL uses features the store does not ("
      ++ describeFeatures (walHeaderFeatures wal) ++ ")"⟩
  require ((wal.drop 24).take 16 = storeId.bytes) ⟨.runtimeError, "WAL belongs to another store"⟩
  require ((UInt64.ofNat (readLe 8 wal 40)).toInt64 = chunkCoord.x
      ∧ (UInt64.ofNat (readLe 8 wal 48)).toInt64 = chunkCoord.y)
    ⟨.runtimeError, "WAL chunk coordinate mismatch"⟩

/-- How far a file agrees with the expected header, from byte `position` on: up to the
checksum, and not looking at the feature flags. -/
def matchedLength (expected : Bytes) : ℕ → Bytes → ℕ
  | position, [] => position
  | position, b :: rest =>
    if position < kWalHeaderSize - 4 ∧ ((12 ≤ position ∧ position < 24) ∨ b = expected.getD position 0) then
      matchedLength expected (position + 1) rest
    else position

/-- `IsInterruptedCreation`. -/
def isInterruptedCreation (wal : Bytes) (chunkCoord : ChunkCoord) (storeId : StoreId) : Bool :=
  let expected := buildWalHeader chunkCoord storeId ⟨0, 0, 0⟩
  let matched := matchedLength expected 0 wal
  -- no frame can follow a header whose checksum never completed
  let matched := if matched = kWalHeaderSize - 4 then min wal.length kWalHeaderSize else matched
  (wal.drop matched).all (· == 0)

/-! ## Built headers -/

/-- Feature flags in three fields. -/
theorem features_eq_of_fieldsAt {bytes : Bytes} {offset : ℕ} {features : FeatureFlags}
    {fields : List Field} (h : FieldsAt (.num 4 features.incompat.toNat ::
      .num 4 features.roCompat.toNat :: .num 4 features.compat.toNat :: fields) bytes offset) :
    ⟨UInt32.ofNat (readLe 4 bytes offset), UInt32.ofNat (readLe 4 bytes (offset + 4)),
      UInt32.ofNat (readLe 4 bytes (offset + 4 + 4))⟩ = features := by
  obtain ⟨hincompat, hroCompat, hcompat, -⟩ := h
  rw [hincompat features.incompat.toNat_lt, hroCompat features.roCompat.toNat_lt,
    hcompat features.compat.toNat_lt]
  simp only [UInt32.ofNat_toNat]

section Built

variable (chunkCoord : ChunkCoord) (storeId : StoreId) (features : FeatureFlags)

@[simp] theorem length_walHeaderFields :
    (walHeaderFields chunkCoord storeId features).length = kWalHeaderSize - 4 := by
  simp [walHeaderFields, kWalMagic, storeId.length_eq, kWalHeaderSize]

@[simp] theorem length_buildWalHeader :
    (buildWalHeader chunkCoord storeId features).length = kWalHeaderSize := by
  simp [buildWalHeader, kWalHeaderSize]

/-- The fields of a built header are read back, whatever follows it. -/
theorem fieldsAt_buildWalHeader (rest : Bytes) :
    FieldsAt [.raw kWalMagic, .num 2 kWalFormatVersion, .num 2 0, .num 4 features.incompat.toNat,
      .num 4 features.roCompat.toNat, .num 4 features.compat.toNat, .raw storeId.bytes,
      .num 8 chunkCoord.x.toUInt64.toNat, .num 8 chunkCoord.y.toUInt64.toNat]
      (buildWalHeader chunkCoord storeId features ++ rest) 0 := by
  simp only [buildWalHeader, walHeaderFields, append_assoc]
  exact fieldsAt_encodeFields _ _

theorem walHeaderFeatures_buildWalHeader (rest : Bytes) :
    walHeaderFeatures (buildWalHeader chunkCoord storeId features ++ rest) = features := by
  obtain ⟨-, -, -, hfields⟩ := fieldsAt_buildWalHeader chunkCoord storeId features rest
  exact features_eq_of_fieldsAt hfields

/-- A built header is accepted by a store that has its features. -/
theorem validateWalHeader_buildWalHeader {storeFeatures : FeatureFlags}
    (h : isSubsetOf features storeFeatures = true) (rest : Bytes) :
    validateWalHeader (buildWalHeader chunkCoord storeId features ++ rest) chunkCoord storeId
      storeFeatures = .ok () := by
  have hfields := fieldsAt_buildWalHeader chunkCoord storeId features rest
  simp only [FieldsAt, storeId.length_eq, show kWalMagic.length = 8 from rfl, drop_zero] at hfields
  obtain ⟨hmagic, hversion, hreserved, -, -, -, hstore, hx, hy, -⟩ := hfields
  have hcrc : readLe 4 (buildWalHeader chunkCoord storeId features ++ rest) (kWalHeaderSize - 4)
      = crc32 ((buildWalHeader chunkCoord storeId features ++ rest).take (kWalHeaderSize - 4)) := by
    have hfields := length_walHeaderFields chunkCoord storeId features
    rw [buildWalHeader, append_assoc, ← hfields, take_left]
    exact readLe_middle 4 _ _ _ _ rfl (crc32_lt _)
  unfold validateWalHeader
  simp only [require_bind, hversion (by decide), hreserved (by decide),
    hx chunkCoord.x.toUInt64.toNat_lt, hy chunkCoord.y.toUInt64.toNat_lt, hcrc, hmagic, hstore,
    walHeaderFeatures_buildWalHeader, h, UInt64.ofNat_toNat, length_append, length_buildWalHeader]
  simp

end Built

/-! ## Interrupted creation -/

/-- The walk over a prefix of a header passes all of it. -/
theorem matchedLength_of_agrees (expected : Bytes) (position : ℕ) (wal : Bytes)
    (hle : position + wal.length ≤ kWalHeaderSize - 4)
    (h : ∀ i < wal.length, (12 ≤ position + i ∧ position + i < 24)
      ∨ wal.getD i 0 = expected.getD (position + i) 0) :
    matchedLength expected position wal = position + wal.length := by
  induction wal generalizing position with
  | nil => rfl
  | cons b rest ih =>
    rw [length_cons] at hle h
    have h0 := h 0 (by omega)
    rw [matchedLength, if_pos ⟨by omega, by simpa using h0⟩, ih (position + 1) (by omega) ?_]
    · rw [length_cons]
      omega
    · intro i hi
      have := h (i + 1) (by omega)
      rw [getD_cons_succ] at this
      rwa [show position + 1 + i = position + (i + 1) by omega]

theorem matchedLength_append (expected : Bytes) (position : ℕ) (wal rest : Bytes)
    (hlen : position + wal.length = kWalHeaderSize - 4)
    (h : matchedLength expected position wal = kWalHeaderSize - 4) :
    matchedLength expected position (wal ++ rest) = kWalHeaderSize - 4 := by
  induction wal generalizing position with
  | nil =>
    rw [length_nil, Nat.add_zero] at hlen
    cases rest with
    | nil => exact h
    | cons b rest => rw [nil_append, matchedLength, if_neg (by omega), hlen]
  | cons b wal ih =>
    rw [length_cons] at hlen
    rw [matchedLength] at h
    split at h
    · rename_i hcond
      rw [cons_append, matchedLength, if_pos hcond]
      exact ih (position + 1) (by omega) h
    · omega

/-- Lists that differ in a middle part and at the end agree elsewhere. -/
theorem getD_append_middle (a f f' b c c' : Bytes) (hlen : f.length = f'.length) (i : ℕ)
    (hi : i < a.length + f.length + b.length) (hout : ¬ (a.length ≤ i ∧ i < a.length + f.length)) :
    (a ++ (f ++ (b ++ c))).getD i 0 = (a ++ (f' ++ (b ++ c'))).getD i 0 := by
  by_cases hlow : i < a.length
  · rw [getD_append _ _ _ _ hlow, getD_append _ _ _ _ hlow]
  · have hside : ∀ g d : Bytes, g.length = f.length →
        (a ++ (g ++ (b ++ d))).getD i 0 = b.getD (i - a.length - f.length) 0 := by
      intro g d hg
      rw [getD_append_right _ _ _ _ (by omega), getD_append_right _ _ _ _ (by omega),
        getD_append _ _ _ _ (by omega), hg]
    rw [hside f c rfl, hside f' c' hlen.symm]

/-- Two headers of a chunk differ only in their feature flags and checksums. -/
theorem getD_buildWalHeader (chunkCoord : ChunkCoord) (storeId : StoreId)
    (features features' : FeatureFlags) (i : ℕ) (hi : i < kWalHeaderSize - 4)
    (hout : ¬ (12 ≤ i ∧ i < 24)) :
    (buildWalHeader chunkCoord storeId features).getD i 0
      = (buildWalHeader chunkCoord storeId features').getD i 0 := by
  have hsplit : ∀ f : FeatureFlags, buildWalHeader chunkCoord storeId f
      = (kWalMagic ++ leBytes 2 kWalFormatVersion ++ leBytes 2 0)
        ++ ((leBytes 4 f.incompat.toNat ++ leBytes 4 f.roCompat.toNat ++ leBytes 4 f.compat.toNat)
        ++ ((storeId.bytes ++ leBytes 8 chunkCoord.x.toUInt64.toNat
          ++ leBytes 8 chunkCoord.y.toUInt64.toNat)
          ++ leBytes 4 (crc32 (walHeaderFields chunkCoord storeId f)))) := by
    intro f
    simp only [buildWalHeader, walHeaderFields, append_assoc]
  have hid := storeId.length_eq
  simp only [kWalHeaderSize] at hi
  rw [hsplit features, hsplit features']
  apply getD_append_middle
  · simp
  · simp [kWalMagic, hid]
    omega
  · simpa [kWalMagic] using hout

/-- A file cut inside its header is an interrupted creation. -/
theorem isInterruptedCreation_take (chunkCoord : ChunkCoord) (storeId : StoreId)
    (features : FeatureFlags) (n : ℕ) (hn : n < kWalHeaderSize) :
    isInterruptedCreation ((buildWalHeader chunkCoord storeId features).take n) chunkCoord storeId
      = true := by
  set wal := (buildWalHeader chunkCoord storeId features).take n with hwal
  have hlen : wal.length = n := by
    rw [hwal, length_take, length_buildWalHeader]
    omega
  set expected := buildWalHeader chunkCoord storeId ⟨0, 0, 0⟩ with hexpected
  -- the walk passes the file up to the checksum
  have hshort : ∀ k ≤ n, k ≤ kWalHeaderSize - 4 → matchedLength expected 0 (wal.take k) = k := by
    intro k hk hk'
    have hlk : (wal.take k).length = k := by
      rw [length_take]
      omega
    rw [matchedLength_of_agrees expected 0 (wal.take k) (by omega), hlk, Nat.zero_add]
    intro i hi
    rw [hlk] at hi
    by_cases hout : 12 ≤ 0 + i ∧ 0 + i < 24
    · exact .inl hout
    · right
      rw [Nat.zero_add] at hout ⊢
      rw [hexpected, ← getD_buildWalHeader chunkCoord storeId features _ i (by omega) hout, hwal,
        take_take, getD_eq_getElem?_getD, getD_eq_getElem?_getD, getElem?_take_of_lt (by omega)]
  have hmatched : matchedLength expected 0 wal = min n (kWalHeaderSize - 4) := by
    by_cases hle : n ≤ kWalHeaderSize - 4
    · have := hshort n le_rfl hle
      rwa [take_of_length_le (by omega), ← Nat.min_eq_left hle] at this
    · have hk := hshort (kWalHeaderSize - 4) (by omega) le_rfl
      have hlk : (wal.take (kWalHeaderSize - 4)).length = kWalHeaderSize - 4 := by
        rw [length_take]
        omega
      have := matchedLength_append expected 0 (wal.take (kWalHeaderSize - 4))
        (wal.drop (kWalHeaderSize - 4)) (by omega) hk
      rw [take_append_drop] at this
      omega
  unfold isInterruptedCreation
  simp only [← hexpected, hmatched]
  have hall : wal.length ≤ if min n (kWalHeaderSize - 4) = kWalHeaderSize - 4
      then min wal.length kWalHeaderSize else min n (kWalHeaderSize - 4) := by
    split <;> omega
  rw [drop_of_length_le hall]
  rfl

end ChunkDb
