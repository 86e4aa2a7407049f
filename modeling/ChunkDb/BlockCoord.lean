/-
# Blocks, chunks and local offsets

`Geometry::BlockToChunk` and `Geometry::BlockToLocal` (`geometry.cpp`) split the coordinates of
a block into those of its chunk and an offset in it, by divisions that round down.
`BlockCoordinate` (`chunk_store_internal.hpp`) goes back, and so does `Absolute`
(`feed_archive.cpp`), with ranges tested by unsigned divisions since the first chunk of an axis
may begin below the smallest coordinate.
-/
import ChunkDb.Coords

namespace ChunkDb

open Int64

/-! ## Divisions that round down -/

/-- `Geometry::FloorDiv`. -/
def floorDiv (value divisor : Int64) : Int64 :=
  let quotient := value / divisor
  let remainder := value % divisor
  if remainder ≠ 0 ∧ decide (remainder > 0) ≠ decide (divisor > 0) then quotient - 1 else quotient

/-- `Geometry::FloorMod`. -/
def floorMod (value divisor : Int64) : Int64 :=
  let mod := value % divisor
  if mod < 0 then mod + divisor else mod

/-- A number that a signed word of 64 bits holds. -/
def InInt64 (value : ℤ) : Prop := -2 ^ 63 ≤ value ∧ value < 2 ^ 63

instance (value : ℤ) : Decidable (InInt64 value) := inferInstanceAs (Decidable (_ ∧ _))

/-- The exact result of each operation of `FloorDiv` and `FloorMod` is in the range of the type,
where the operation is reached. -/
def FloorInRange (value divisor : Int64) : Prop :=
  InInt64 (value.toInt.tdiv divisor.toInt) ∧
    (value.toInt.tmod divisor.toInt < 0 → InInt64 (value.toInt.tdiv divisor.toInt - 1) ∧
      InInt64 (value.toInt.tmod divisor.toInt + divisor.toInt))

/-- The truncated quotient and remainder are the ones of the integers, or one quotient too high. -/
theorem trunc_cases (value : ℤ) {divisor : ℤ} (hpos : 0 < divisor) :
    (value.tdiv divisor = value / divisor ∧ value.tmod divisor = value % divisor) ∨
      (value.tdiv divisor = value / divisor + 1 ∧ value.tmod divisor = value % divisor - divisor ∧
        value < 0) := by
  rw [Int.tdiv_eq_ediv, Int.tmod_eq_emod, Int.sign_eq_one_of_pos hpos]
  split_ifs with hround
  · exact Or.inl ⟨add_zero _, sub_zero _⟩
  · exact Or.inr ⟨rfl, by rw [Int.natAbs_of_nonneg hpos.le], by omega⟩

section Floor

variable (value : Int64) {divisor : Int64} (hpos : 0 < divisor.toInt)
include hpos

theorem floorInRange : FloorInRange value divisor := by
  have hlow := value.le_toInt
  have hhigh := value.toInt_lt
  have hdivisor := divisor.toInt_lt
  have hmod := Int.emod_nonneg value.toInt hpos.ne'
  have hmodlt := Int.emod_lt_of_pos value.toInt hpos
  have hupper : value.toInt / divisor.toInt < 2 ^ 63 := Int.ediv_lt_of_lt_mul hpos (by nlinarith)
  have hlower : -2 ^ 63 ≤ value.toInt / divisor.toInt :=
    (Int.le_ediv_iff_mul_le hpos).mpr (by nlinarith)
  rcases trunc_cases value.toInt hpos with ⟨hdiv, hrest⟩ | ⟨hdiv, hrest, hneg⟩
  · rw [FloorInRange, hdiv, hrest]
    exact ⟨⟨hlower, hupper⟩, fun hlt => absurd hlt hmod.not_gt⟩
  · have hquotient := Int.ediv_neg_of_neg_of_pos hneg hpos
    rw [FloorInRange, hdiv, hrest, InInt64, InInt64, InInt64]
    omega

/-- The machine's quotient and remainder are the truncated ones. -/
theorem toInt_div_mod : (value / divisor).toInt = value.toInt.tdiv divisor.toInt ∧
    (value % divisor).toInt = value.toInt.tmod divisor.toInt := by
  obtain ⟨hlow, hhigh⟩ := (floorInRange value hpos).1
  refine ⟨?_, toInt_mod ..⟩
  rw [toInt_div]
  exact Int.bmod_eq_of_le_mul_two (by omega) (by omega)

/-- The quotient is the one of the integers. -/
theorem toInt_floorDiv : (floorDiv value divisor).toInt = value.toInt / divisor.toInt := by
  obtain ⟨hquotient, hremainder⟩ := toInt_div_mod value hpos
  have hmod := Int.emod_nonneg value.toInt hpos.ne'
  have hmodlt := Int.emod_lt_of_pos value.toInt hpos
  obtain ⟨-, hrange⟩ := floorInRange value hpos
  have hdpos : divisor > 0 := by
    rw [gt_iff_lt, lt_iff_toInt_lt, toInt_zero]
    exact hpos
  simp only [floorDiv, hdpos, decide_true, ne_eq, decide_eq_true_eq, gt_iff_lt,
    ← toInt_inj, lt_iff_toInt_lt, hremainder, toInt_zero]
  rcases trunc_cases value.toInt hpos with ⟨hdiv, hrest⟩ | ⟨hdiv, hrest, -⟩
  · rw [if_neg (by omega), hquotient, hdiv]
  · obtain ⟨⟨hlow, hhigh⟩, -⟩ := hrange (by omega)
    rw [if_pos (by omega), toInt_sub, hquotient, toInt_one,
      Int.bmod_eq_of_le_mul_two (by omega) (by omega), hdiv, add_sub_cancel_right]

/-- The remainder is the one of the integers. -/
theorem toInt_floorMod : (floorMod value divisor).toInt = value.toInt % divisor.toInt := by
  obtain ⟨-, hremainder⟩ := toInt_div_mod value hpos
  have hmod := Int.emod_nonneg value.toInt hpos.ne'
  have hmodlt := Int.emod_lt_of_pos value.toInt hpos
  obtain ⟨-, hrange⟩ := floorInRange value hpos
  simp only [floorMod, lt_iff_toInt_lt, hremainder, toInt_zero]
  rcases trunc_cases value.toInt hpos with ⟨-, hrest⟩ | ⟨-, hrest, -⟩
  · rw [if_neg (by omega), hremainder, hrest]
  · obtain ⟨-, hlow, hhigh⟩ := hrange (by omega)
    rw [if_pos (by omega), toInt_add, hremainder,
      Int.bmod_eq_of_le_mul_two (by omega) (by omega), hrest, sub_add_cancel]

end Floor

/-! ## The chunk of a block -/

/-- `Geometry::BlockToChunk`. -/
def blockToChunk (width height : UInt32) (blockX blockY : Int64) : ChunkCoord :=
  ⟨floorDiv blockX (.ofNat width.toNat), floorDiv blockY (.ofNat height.toNat)⟩

/-- `Geometry::BlockToLocal`. -/
def blockToLocal (width height : UInt32) (blockX blockY : Int64) : UInt32 × UInt32 :=
  ((floorMod blockX (.ofNat width.toNat)).toUInt64.toUInt32,
    (floorMod blockY (.ofNat height.toNat)).toUInt64.toUInt32)

/-- A chunk and an offset in it that name a block, along one axis. -/
def Decomposes (block : Int64) (width : UInt32) (chunk offset : ℤ) : Prop :=
  block.toInt = chunk * width.toNat + offset ∧ 0 ≤ offset ∧ offset < width.toNat

section Axis

variable {width : UInt32} (hwidth : 0 < width)

theorem toInt_width (width : UInt32) : (Int64.ofNat width.toNat).toInt = width.toNat := by
  have := width.toNat_lt
  exact toInt_ofNat_of_lt (by omega)

include hwidth

theorem toInt_width_pos : 0 < (Int64.ofNat width.toNat).toInt := by
  rw [toInt_width]
  exact_mod_cast UInt32.lt_iff_toNat_lt.1 hwidth

theorem toNat_floorMod (block : Int64) :
    ((floorMod block (.ofNat width.toNat)).toUInt64.toUInt32.toNat : ℤ)
      = block.toInt % width.toNat := by
  have hmod := toInt_floorMod block (toInt_width_pos hwidth)
  have hpos := toInt_width_pos hwidth
  rw [toInt_width] at hmod hpos
  have hlow := Int.emod_nonneg block.toInt hpos.ne'
  have hhigh := Int.emod_lt_of_pos block.toInt hpos
  have hlt := width.toNat_lt
  have hword := BitVec.toInt_eq_toNat_cond (floorMod block (.ofNat width.toNat)).toBitVec
  rw [toInt_toBitVec] at hword
  have hnat : (floorMod block (.ofNat width.toNat)).toBitVec.toNat
      = (floorMod block (.ofNat width.toNat)).toUInt64.toNat := rfl
  rw [UInt64.toNat_toUInt32]
  omega

/-- One pair names the block, the floored quotient and remainder. -/
theorem decomposes_iff (block : Int64) (chunk offset : ℤ) :
    Decomposes block width chunk offset ↔
      chunk = (floorDiv block (.ofNat width.toNat)).toInt ∧
        offset = (floorMod block (.ofNat width.toNat)).toUInt64.toUInt32.toNat := by
  have hpos := toInt_width_pos hwidth
  rw [toNat_floorMod hwidth, toInt_floorDiv block hpos]
  rw [toInt_width] at hpos ⊢
  rw [eq_comm, eq_comm (a := offset), Int.ediv_emod_unique hpos, Decomposes, eq_comm, add_comm,
    mul_comm]

end Axis

/-! ## The block of a chunk -/

/-- `BlockCoordinate`. -/
def blockCoordinate (chunk : Int64) (width : UInt32) (offset : UInt64) : Option Int64 :=
  let factor := width.toUInt64
  if chunk ≥ 0 then
    let limit := maxValue.toUInt64 - offset
    if chunk.toUInt64 > limit / factor then none
    else some (chunk.toUInt64 * factor + offset).toInt64
  else
    let magnitude := 0 - chunk.toUInt64
    let limit := ((1 : UInt64) <<< 63) + offset
    if magnitude > limit / factor then none
    else some (0 - (magnitude * factor - offset)).toInt64

/-- `Absolute` of the feed archive. -/
def absolute (chunk : Int64) (width : UInt32) (offset : UInt64) : Option Int64 :=
  let factor := width.toUInt64
  if chunk ≥ 0 then
    let limit := maxValue.toUInt64 - offset
    if chunk.toUInt64 > limit / factor then none
    else some (chunk.toUInt64 * factor + offset).toInt64
  else
    let magnitude := 0 - chunk.toUInt64
    if magnitude > (((1 : UInt64) <<< 63) + offset) / factor then none
    else some (0 - (magnitude * factor - offset)).toInt64

theorem toInt_toInt64 {word : UInt64} (h : word.toNat < 2 ^ 63) :
    word.toInt64.toInt = word.toNat := by
  refine BitVec.toInt_eq_toNat_of_lt (x := word.toBitVec) ?_
  rw [UInt64.toNat_toBitVec]
  omega

section Block

variable (chunk : Int64) {width : UInt32} (hwidth : 0 < width) {offset : UInt64}
  (hoffset : offset.toNat < 2 ^ 63)
include hwidth hoffset

/-- A value is returned exactly when the exact one is in range.  The code takes it apart into a
sign and a magnitude; in the ring of the words it is the same sum. -/
theorem blockCoordinate_eq :
    blockCoordinate chunk width offset =
      if InInt64 (chunk.toInt * width.toNat + offset.toNat) then
        some (chunk * width.toUInt64.toInt64 + offset.toInt64)
      else none := by
  have hpos := UInt32.lt_iff_toNat_lt.1 hwidth
  have hword : chunk.toInt = if 2 * chunk.toUInt64.toNat < 2 ^ 64 then
      (chunk.toUInt64.toNat : ℤ) else chunk.toUInt64.toNat - (2 ^ 64 : ℕ) :=
    BitVec.toInt_eq_toNat_cond chunk.toBitVec
  have hlt := chunk.toUInt64.toNat_lt
  have hmax : maxValue.toUInt64.toNat = 2 ^ 63 - 1 := by decide
  have hmin : ((1 : UInt64) <<< 63).toNat = 2 ^ 63 := by decide
  simp only [blockCoordinate, gt_iff_lt, UInt64.lt_iff_toNat_lt, UInt64.toNat_div,
    UInt32.toNat_toUInt64, Nat.div_lt_iff_lt_mul hpos]
  by_cases hsign : chunk ≥ 0
  · have hproduct : ((chunk.toUInt64.toNat * width.toNat : ℕ) : ℤ) = chunk.toInt * width.toNat := by
      have : 0 ≤ chunk.toInt := le_iff_toInt_le.1 hsign
      rw [Nat.cast_mul, show (chunk.toUInt64.toNat : ℤ) = chunk.toInt by omega]
    have hlimit : (maxValue.toUInt64 - offset).toNat = 2 ^ 63 - 1 - offset.toNat := by
      rw [UInt64.toNat_sub_of_le _ _ (by rw [UInt64.le_iff_toNat_le]; omega), hmax]
    have hvalue : (chunk.toUInt64 * width.toUInt64 + offset).toInt64
        = chunk * width.toUInt64.toInt64 + offset.toInt64 := by
      rw [UInt64.toInt64_add, UInt64.toInt64_mul, toInt64_toUInt64]
    rw [if_pos hsign, hlimit, hvalue]
    split_ifs
    all_goals first
      | rfl
      | simp only [InInt64] at *; omega
  · have hproduct : (((0 - chunk.toUInt64).toNat * width.toNat : ℕ) : ℤ)
        = -(chunk.toInt * width.toNat) := by
      have : chunk.toInt < 0 := by simpa [le_iff_toInt_le] using hsign
      have hmagnitude : ((0 - chunk.toUInt64).toNat : ℤ) = -chunk.toInt := by
        rw [UInt64.toNat_sub, UInt64.toNat_zero]
        omega
      rw [Nat.cast_mul, hmagnitude, neg_mul]
    have hlimit : (((1 : UInt64) <<< 63) + offset).toNat = 2 ^ 63 + offset.toNat := by
      rw [UInt64.toNat_add, hmin, Nat.mod_eq_of_lt (by omega)]
    have hvalue : (0 - ((0 - chunk.toUInt64) * width.toUInt64 - offset)).toInt64
        = chunk * width.toUInt64.toInt64 + offset.toInt64 := by
      simp only [UInt64.toInt64_sub, UInt64.toInt64_mul, toInt64_toUInt64]
      have : UInt64.toInt64 0 = 0 := rfl
      grind
    rw [if_neg hsign, hlimit, hvalue]
    split_ifs
    all_goals first
      | rfl
      | simp only [InInt64] at *; omega

theorem toInt_of_mem_blockCoordinate :
    ∀ value ∈ blockCoordinate chunk width offset,
      value.toInt = chunk.toInt * width.toNat + offset.toNat := by
  intro value hvalue
  rw [blockCoordinate_eq chunk hwidth hoffset, Option.mem_ite_none_right] at hvalue
  obtain ⟨⟨hlow, hhigh⟩, hvalue⟩ := hvalue
  cases hvalue
  have hlt := width.toNat_lt
  have hwide : width.toUInt64.toNat < 2 ^ 63 := by
    rw [UInt32.toNat_toUInt64]
    omega
  rw [toInt_add, toInt_mul, toInt_toInt64 hwide, toInt_toInt64 hoffset,
    UInt32.toNat_toUInt64, Int.bmod_add_bmod]
  exact Int.bmod_eq_of_le_mul_two (by omega) (by omega)

theorem isSome_blockCoordinate : (blockCoordinate chunk width offset).isSome ↔
    InInt64 (chunk.toInt * width.toNat + offset.toNat) := by
  rw [blockCoordinate_eq chunk hwidth hoffset]
  split_ifs with hrange
  · exact iff_of_true rfl hrange
  · exact iff_of_false Bool.false_ne_true hrange

end Block

/-- A block is told again from its chunk and its offset. -/
theorem Decomposes.blockCoordinate_eq {block chunk : Int64} {width offset : UInt32}
    (hwidth : 0 < width) (h : Decomposes block width chunk.toInt offset.toNat) :
    blockCoordinate chunk width offset.toUInt64 = some block := by
  have hlt := offset.toNat_lt
  have hoffset : offset.toUInt64.toNat < 2 ^ 63 := by
    rw [UInt32.toNat_toUInt64]
    omega
  have hsome : (blockCoordinate chunk width offset.toUInt64).isSome := by
    rw [isSome_blockCoordinate chunk hwidth hoffset, UInt32.toNat_toUInt64, ← h.1]
    exact ⟨block.le_toInt, block.toInt_lt⟩
  obtain ⟨value, hvalue⟩ := Option.isSome_iff_exists.1 hsome
  have hexact := toInt_of_mem_blockCoordinate chunk hwidth hoffset value hvalue
  rw [UInt32.toNat_toUInt64, ← h.1, toInt_inj] at hexact
  rw [hvalue, hexact]

/-- Coordinates decompose in one way.  Over all coordinates of 64 bits `BlockToChunk` and
`BlockToLocal` give the one chunk and the one offset below the width that name the block, no
operation on the way leaves the range of its type, and `BlockCoordinate` gives the block back.
Of any chunk and offset `BlockCoordinate` gives a value exactly when the exact one is in range,
and then that one (the offsets in a chunk are far below the bound); `Absolute` is the same function. -/
theorem coordinates_decompose {width height : UInt32} (hwidth : 0 < width) (hheight : 0 < height) :
    (∀ blockX blockY : Int64,
      let chunk := blockToChunk width height blockX blockY
      let offset := blockToLocal width height blockX blockY
      (∀ c o, Decomposes blockX width c o ↔ c = chunk.x.toInt ∧ o = offset.1.toNat) ∧
      (∀ c o, Decomposes blockY height c o ↔ c = chunk.y.toInt ∧ o = offset.2.toNat) ∧
      FloorInRange blockX (.ofNat width.toNat) ∧ FloorInRange blockY (.ofNat height.toNat) ∧
      blockCoordinate chunk.x width offset.1.toUInt64 = some blockX ∧
      blockCoordinate chunk.y height offset.2.toUInt64 = some blockY) ∧
    (∀ (chunk : Int64) (offset : UInt64), offset.toNat < 2 ^ 63 →
      ((blockCoordinate chunk width offset).isSome ↔
        InInt64 (chunk.toInt * width.toNat + offset.toNat)) ∧
      ∀ value ∈ blockCoordinate chunk width offset,
        value.toInt = chunk.toInt * width.toNat + offset.toNat) ∧
    absolute = blockCoordinate := by
  refine ⟨fun blockX blockY => ?_, fun chunk offset hoffset => ?_, rfl⟩
  · have hx := decomposes_iff hwidth blockX
    have hy := decomposes_iff hheight blockY
    exact ⟨hx, hy, floorInRange _ (toInt_width_pos hwidth), floorInRange _ (toInt_width_pos hheight),
      ((hx _ _).2 ⟨rfl, rfl⟩).blockCoordinate_eq hwidth,
      ((hy _ _).2 ⟨rfl, rfl⟩).blockCoordinate_eq hheight⟩
  · exact ⟨isSome_blockCoordinate chunk hwidth hoffset,
      toInt_of_mem_blockCoordinate chunk hwidth hoffset⟩

/-- The chunk of width 3 that holds the smallest coordinate begins one block below it. -/
theorem coordinates_decompose_minValue :
    blockToChunk 3 7 Int64.minValue 0 = ⟨-3074457345618258603, 0⟩ ∧
      blockCoordinate (-3074457345618258603) 3 1 = some Int64.minValue ∧
      blockCoordinate (-3074457345618258603) 3 0 = none := by
  have h := (@coordinates_decompose 3 7 (by decide) (by decide)).1 minValue 0
  exact ⟨by decide, h.2.2.2.2.1, by decide⟩

end ChunkDb
