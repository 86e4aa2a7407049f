/-
# The order of the chunk coordinates

Chunks are listed, locked and kept in the order of their coordinates, x first and then y.
-/
import ChunkDb.Wal.Header

namespace ChunkDb

/-- `ChunkCoordLess`. -/
def chunkCoordLess (lhs rhs : ChunkCoord) : Bool :=
  if lhs.x ≠ rhs.x then lhs.x < rhs.x else lhs.y < rhs.y

/-- The coordinates as a pair of integers in lexicographic order. -/
def ChunkCoord.key (coord : ChunkCoord) : ℤ ×ₗ ℤ := toLex (coord.x.toInt, coord.y.toInt)

theorem ChunkCoord.key_injective : Function.Injective ChunkCoord.key := by
  rintro ⟨x, y⟩ ⟨x', y'⟩ h
  obtain ⟨hx, hy⟩ := Prod.mk.inj (toLex_inj.mp h)
  obtain rfl : x = x' := Int64.toInt_inj.mp hx
  obtain rfl : y = y' := Int64.toInt_inj.mp hy
  rfl

instance : LinearOrder ChunkCoord := LinearOrder.lift' ChunkCoord.key ChunkCoord.key_injective

theorem ChunkCoord.lt_iff {a b : ChunkCoord} :
    a < b ↔ a.x.toInt < b.x.toInt ∨ a.x.toInt = b.x.toInt ∧ a.y.toInt < b.y.toInt :=
  Prod.Lex.toLex_lt_toLex

theorem ChunkCoord.le_iff {a b : ChunkCoord} :
    a ≤ b ↔ a.x.toInt < b.x.toInt ∨ a.x.toInt = b.x.toInt ∧ a.y.toInt ≤ b.y.toInt :=
  Prod.Lex.toLex_le_toLex

/-- The order is the one of `ChunkCoordLess`. -/
theorem chunkCoordLess_iff {a b : ChunkCoord} : chunkCoordLess a b = true ↔ a < b := by
  rw [ChunkCoord.lt_iff, chunkCoordLess, ← Int64.lt_iff_toInt_lt, ← Int64.lt_iff_toInt_lt,
    Int64.toInt_inj]
  by_cases hx : a.x = b.x
  · simp [hx, Int64.lt_iff_toInt_lt]
  · simp [hx]

end ChunkDb
