/-
# Scanning the populated chunks, page by page

`ScanPopulatedChunks` lists the chunks that hold blocks, in the order of their coordinates
(x, then y), one page after another (`world_read.cpp`).  The files are kept by large chunk,
and the large chunks are visited in the order of *their* coordinates, which is another
one; a bounded window (`ScanWindow`) collects the candidates of a page, and whole large
chunks are left out when nothing in them can enter it.

Coordinates are 64-bit integers with the arithmetic of the machine.  Where the code adds one
to a coordinate, multiplies or divides it, the result is the exact one, or for the corners of
a large chunk the exact one cut off at the ends of the range.
-/
import ChunkDb.BlockCoord
import ChunkDb.Layout
import ChunkDb.Lib.ScanWindow

namespace ChunkDb

open List Int64

/-! ## Large chunks -/

/-- `LargeChunkCoord`. -/
structure LargeChunkCoord where
  x : Int64
  y : Int64
  deriving DecidableEq

/-- The coordinates as a pair of integers in lexicographic order. -/
def LargeChunkCoord.key (coord : LargeChunkCoord) : ℤ ×ₗ ℤ := toLex (coord.x.toInt, coord.y.toInt)

theorem LargeChunkCoord.key_injective : Function.Injective LargeChunkCoord.key := by
  rintro ⟨x, y⟩ ⟨x', y'⟩ h
  obtain ⟨hx, hy⟩ := Prod.mk.inj (toLex_inj.mp h)
  obtain rfl : x = x' := toInt_inj.mp hx
  obtain rfl : y = y' := toInt_inj.mp hy
  rfl

instance : LinearOrder LargeChunkCoord :=
  LinearOrder.lift' LargeChunkCoord.key LargeChunkCoord.key_injective

theorem LargeChunkCoord.x_le_of_lt {a b : LargeChunkCoord} (h : a < b) : a.x.toInt ≤ b.x.toInt := by
  have hlex : a.x.toInt < b.x.toInt ∨ a.x.toInt = b.x.toInt ∧ a.y.toInt < b.y.toInt :=
    Prod.Lex.toLex_lt_toLex.mp h
  omega

/-- `SaturatingMul`. -/
def saturatingMul (value factor : Int64) : Int64 :=
  if minValue.toInt ≤ value.toInt * factor.toInt
      ∧ value.toInt * factor.toInt ≤ maxValue.toInt then value * factor
  else if value < 0 then minValue else maxValue

/-- `SaturatingAdd`. -/
def saturatingAdd (value delta : Int64) : Int64 :=
  if minValue.toInt ≤ value.toInt + delta.toInt
      ∧ value.toInt + delta.toInt ≤ maxValue.toInt then value + delta
  else if delta < 0 then minValue else maxValue

/-- `LargeChunkBox`: the rectangle of chunk coordinates a large chunk covers. -/
structure LargeChunkBox where
  minCoord : ChunkCoord
  maxCoord : ChunkCoord

/-- `MakeLargeChunkBox`. -/
def makeLargeChunkBox (largeX largeY width height : Int64) : LargeChunkBox :=
  let minX := saturatingMul largeX width
  let minY := saturatingMul largeY height
  ⟨⟨minX, minY⟩, ⟨saturatingAdd minX (width - 1), saturatingAdd minY (height - 1)⟩⟩

/-- The computation of `LowestBoxCoordAfter`, over the numbers of any type. -/
def lowestPairAfter {α : Type} [LT α] [DecidableLT α] [DecidableEq α] [Add α] [OfNat α 1]
    (low high cursor : α × α) : Option (α × α) :=
  if cursor.1 < low.1 then some low
  else if cursor.1 > high.1 then none
  else if cursor.2 < low.2 then some (cursor.1, low.2)
  else if cursor.2 < high.2 then some (cursor.1, cursor.2 + 1)
  else if cursor.1 = high.1 then none
  else some (cursor.1 + 1, low.2)

/-- `LowestBoxCoordAfter`. -/
def lowestBoxCoordAfter (box : LargeChunkBox) (cursor : ChunkCoord) : Option ChunkCoord :=
  (lowestPairAfter (box.minCoord.x, box.minCoord.y) (box.maxCoord.x, box.maxCoord.y)
    (cursor.x, cursor.y)).map fun pair => ⟨pair.1, pair.2⟩

/-! ## Exact arithmetic -/

/-- The exact product, cut off at the ends of the range. -/
theorem toInt_saturatingMul (value : Int64) {factor : Int64} (hpos : 0 < factor.toInt) :
    (saturatingMul value factor).toInt
      = max (-2 ^ 63) (min (2 ^ 63 - 1) (value.toInt * factor.toInt)) := by
  rw [saturatingMul, toInt_minValue, toInt_maxValue]
  split_ifs with hfits hneg
  · rw [toInt_mul, Int.bmod_eq_of_le_mul_two (by omega) (by omega)]
    omega
  · have : value.toInt < 0 := lt_iff_toInt_lt.mp hneg
    have hprod : value.toInt * factor.toInt < 0 := Int.mul_neg_of_neg_of_pos this hpos
    rw [toInt_minValue]
    omega
  · have : 0 ≤ value.toInt := by
      have := mt lt_iff_toInt_lt.mpr hneg
      simpa using this
    have hprod : 0 ≤ value.toInt * factor.toInt := Int.mul_nonneg this hpos.le
    rw [toInt_maxValue]
    omega

/-- The exact sum, cut off at the ends of the range. -/
theorem toInt_saturatingAdd (value : Int64) {delta : Int64} (hnonneg : 0 ≤ delta.toInt) :
    (saturatingAdd value delta).toInt = min (2 ^ 63 - 1) (value.toInt + delta.toInt) := by
  have hlow := value.le_toInt
  rw [saturatingAdd, toInt_minValue, toInt_maxValue]
  split_ifs with hfits hneg
  · rw [toInt_add, Int.bmod_eq_of_le_mul_two (by omega) (by omega)]
    omega
  · have : delta.toInt < 0 := lt_iff_toInt_lt.mp hneg
    omega
  · rw [toInt_maxValue]
    omega

/-- A successor below another coordinate is exact. -/
theorem toInt_add_one {value high : Int64} (h : value < high) :
    (value + 1).toInt = value.toInt + 1 := by
  have hlow := value.le_toInt
  have hhigh := high.toInt_lt
  have hlt := lt_iff_toInt_lt.mp h
  rw [toInt_add, toInt_one, Int.bmod_eq_of_le_mul_two (by omega) (by omega)]

/-- The numbers of a pair. -/
def pairToInt (pair : Int64 × Int64) : ℤ × ℤ := (pair.1.toInt, pair.2.toInt)

/-- `LowestBoxCoordAfter` computes what the same steps compute on integers: nowhere does a
coordinate wrap. -/
theorem lowestPairAfter_exact (low high cursor : Int64 × Int64) :
    (lowestPairAfter low high cursor).map pairToInt
      = lowestPairAfter (pairToInt low) (pairToInt high) (pairToInt cursor) := by
  unfold lowestPairAfter
  simp only [pairToInt, gt_iff_lt, ← lt_iff_toInt_lt, toInt_inj]
  split_ifs with hbelow habove hleft hinside hlast
  · rfl
  · rfl
  · rfl
  · rw [Option.map_some, pairToInt, toInt_add_one hinside]
  · rfl
  · have hlt : cursor.1 < high.1 := by
      rw [lt_iff_toInt_lt] at habove ⊢
      rw [← toInt_inj] at hlast
      omega
    rw [Option.map_some, pairToInt, toInt_add_one hlt]

/-! ## The rectangle of a large chunk -/

/-- The coordinates a rectangle holds. -/
def LargeChunkBox.Holds (box : LargeChunkBox) (coord : ChunkCoord) : Prop :=
  box.minCoord.x.toInt ≤ coord.x.toInt ∧ coord.x.toInt ≤ box.maxCoord.x.toInt
    ∧ box.minCoord.y.toInt ≤ coord.y.toInt ∧ coord.y.toInt ≤ box.maxCoord.y.toInt

/-- The coordinates of the rectangle after the cursor begin where `LowestBoxCoordAfter` says. -/
theorem le_of_lowestBoxCoordAfter {box : LargeChunkBox} {cursor coord : ChunkCoord}
    (hholds : box.Holds coord) (hafter : cursor < coord) :
    ∃ lowest, lowestBoxCoordAfter box cursor = some lowest ∧ lowest ≤ coord := by
  obtain ⟨hminX, hmaxX, hminY, hmaxY⟩ := hholds
  have hexact := lowestPairAfter_exact (box.minCoord.x, box.minCoord.y)
    (box.maxCoord.x, box.maxCoord.y) (cursor.x, cursor.y)
  rw [ChunkCoord.lt_iff] at hafter
  have hfind : ∃ pair, lowestPairAfter (box.minCoord.x.toInt, box.minCoord.y.toInt)
        (box.maxCoord.x.toInt, box.maxCoord.y.toInt) (cursor.x.toInt, cursor.y.toInt) = some pair
      ∧ (pair.1 < coord.x.toInt ∨ pair.1 = coord.x.toInt ∧ pair.2 ≤ coord.y.toInt) := by
    unfold lowestPairAfter
    dsimp only
    split_ifs
    all_goals first
      | exact ⟨_, rfl, by dsimp only; omega⟩
      | omega
  obtain ⟨pair, hpair, hle⟩ := hfind
  simp only [pairToInt] at hexact
  rw [hpair, Option.map_eq_some_iff] at hexact
  obtain ⟨found, hfound, rfl⟩ := hexact
  exact ⟨⟨found.1, found.2⟩, by rw [lowestBoxCoordAfter, hfound]; rfl, ChunkCoord.le_iff.mpr hle⟩

/-- The size of a large chunk, and the one below it. -/
theorem toInt_size {size : ℕ} (hpos : 0 < size) (hle : size ≤ kMaxLargeChunkDimensionChunks) :
    (Int64.ofNat size).toInt = size ∧ (Int64.ofNat size - 1).toInt = size - 1 := by
  rw [kMaxLargeChunkDimensionChunks] at hle
  have hsize : (ofNat size).toInt = size := toInt_ofNat_of_lt (by omega)
  refine ⟨hsize, ?_⟩
  rw [toInt_sub, hsize, toInt_one, Int.bmod_eq_of_le_mul_two (by omega) (by omega)]

/-- A position lies in the stretch of its quotient. -/
theorem saturating_bounds (value : Int64) {size : ℕ} (hpos : 0 < size)
    (hle : size ≤ kMaxLargeChunkDimensionChunks) :
    (saturatingMul (floorDiv value (.ofNat size)) (.ofNat size)).toInt ≤ value.toInt
      ∧ value.toInt ≤ (saturatingAdd (saturatingMul (floorDiv value (.ofNat size)) (.ofNat size))
          (.ofNat size - 1)).toInt := by
  obtain ⟨hsize, hpred⟩ := toInt_size hpos hle
  have hlow := value.le_toInt
  have hhigh := value.toInt_lt
  have hmod := Int.emod_nonneg value.toInt (b := size) (by omega)
  have hmodlt := Int.emod_lt_of_pos value.toInt (b := size) (by omega)
  have hdivide := Int.mul_ediv_add_emod value.toInt size
  rw [toInt_saturatingAdd _ (by rw [hpred]; omega), toInt_saturatingMul _ (by rw [hsize]; omega),
    toInt_floorDiv _ (by rw [hsize]; omega), hpred, hsize, mul_comm]
  omega

/-! ## The chunks of a store -/

/-- `ChunkToLarge`. -/
def chunkToLarge (width height : ℕ) (coord : ChunkCoord) : LargeChunkCoord :=
  ⟨floorDiv coord.x (.ofNat width), floorDiv coord.y (.ofNat height)⟩

/-- The size of the large chunks. -/
structure LargeChunkSize where
  width : ℕ
  height : ℕ
  width_pos : 0 < width
  height_pos : 0 < height
  width_le : width ≤ kMaxLargeChunkDimensionChunks
  height_le : height ≤ kMaxLargeChunkDimensionChunks

namespace LargeChunkSize

variable (size : LargeChunkSize)

/-- The large chunk of a chunk. -/
def largeOf (coord : ChunkCoord) : LargeChunkCoord := chunkToLarge size.width size.height coord

/-- The rectangle of a large chunk. -/
def box (key : LargeChunkCoord) : LargeChunkBox :=
  makeLargeChunkBox key.x key.y (.ofNat size.width) (.ofNat size.height)

/-- What to do with a large chunk. -/
inductive Visit
  | skip
  | visit
  | stop
  deriving DecidableEq

/-- `classify`: the verdict, and the window with what it left out marked. -/
def classify (window : ScanWindow ChunkCoord) (key : LargeChunkCoord) :
    Visit × ScanWindow ChunkCoord :=
  let box := size.box key
  if window.closedAt ⟨box.minCoord.x, minValue⟩ then (.stop, window.markOverflowed)
  else
    match window.cursor with
    | none =>
      if window.closedAt box.minCoord then (.skip, window.markOverflowed) else (.visit, window)
    | some cursor =>
      match lowestBoxCoordAfter box cursor with
      | none => (.skip, window)
      | some lowest =>
        if window.closedAt lowest then (.skip, window.markOverflowed) else (.visit, window)

variable {size}

theorem holds_box (coord : ChunkCoord) : (size.box (size.largeOf coord)).Holds coord := by
  obtain ⟨hminX, hmaxX⟩ := saturating_bounds coord.x size.width_pos size.width_le
  obtain ⟨hminY, hmaxY⟩ := saturating_bounds coord.y size.height_pos size.height_le
  exact ⟨hminX, hmaxX, hminY, hmaxY⟩

theorem toInt_width_pos : 0 < (Int64.ofNat size.width).toInt := by
  have := size.width_pos
  rw [(toInt_size size.width_pos size.width_le).1]
  omega

/-- Large chunks further along begin further along. -/
theorem minCoord_mono {a b : LargeChunkCoord} (h : a.x.toInt ≤ b.x.toInt) :
    (size.box a).minCoord.x.toInt ≤ (size.box b).minCoord.x.toInt := by
  have hpos := size.toInt_width_pos
  change (saturatingMul a.x _).toInt ≤ (saturatingMul b.x _).toInt
  rw [toInt_saturatingMul _ hpos, toInt_saturatingMul _ hpos]
  have := Int.mul_le_mul_of_nonneg_right h hpos.le
  omega

/-- What the verdict on a large chunk means. -/
theorem classify_cases (window : ScanWindow ChunkCoord) (key : LargeChunkCoord) :
    (size.classify window key = (.stop, window.markOverflowed)
        ∧ window.closedAt ⟨(size.box key).minCoord.x, Int64.minValue⟩)
      ∨ (size.classify window key = (.skip, window)
        ∧ ∀ coord, (size.box key).Holds coord → ¬ window.after coord)
      ∨ (size.classify window key = (.skip, window.markOverflowed)
        ∧ ∃ lowest, window.closedAt lowest
          ∧ ∀ coord, (size.box key).Holds coord → window.after coord → lowest ≤ coord)
      ∨ size.classify window key = (.visit, window) := by
  unfold classify
  dsimp only
  by_cases hstop : window.closedAt ⟨(size.box key).minCoord.x, minValue⟩
  · exact .inl ⟨if_pos hstop, hstop⟩
  · simp only [if_neg hstop]
    cases hcursor : window.cursor with
    | none =>
      dsimp only
      split_ifs with hclosed
      · refine .inr (.inr (.inl ⟨rfl, _, hclosed, fun coord hholds _ => ?_⟩))
        obtain ⟨hminX, _, hminY, _⟩ := hholds
        rw [ChunkCoord.le_iff]
        omega
      · exact .inr (.inr (.inr rfl))
    | some cursor =>
      dsimp only
      cases hlowest : lowestBoxCoordAfter (size.box key) cursor with
      | none =>
        refine .inr (.inl ⟨rfl, fun coord hholds hafter => ?_⟩)
        obtain ⟨lowest, hsome, _⟩ := le_of_lowestBoxCoordAfter hholds (hafter cursor hcursor)
        rw [hlowest] at hsome
        cases hsome
      | some lowest =>
        dsimp only
        split_ifs with hclosed
        · refine .inr (.inr (.inl ⟨rfl, lowest, hclosed, fun coord hholds hafter => ?_⟩))
          obtain ⟨found, hsome, hle⟩ :=
            le_of_lowestBoxCoordAfter hholds (hafter cursor hcursor)
          rw [hlowest] at hsome
          rwa [Option.some.inj hsome]
        · exact .inr (.inr (.inr rfl))

end LargeChunkSize

/-- What a scan finds: the large chunks of the catalog in ascending order, the coordinates
that the cache and the directory of each of them hold, whether their chunks still hold
blocks or not, and the chunks that do. -/
structure ScanWorld extends LargeChunkSize where
  catalog : List LargeChunkCoord
  ascending : catalog.Pairwise (· < ·)
  entries : LargeChunkCoord → List ChunkCoord
  populated : Finset ChunkCoord
  listed : ∀ coord ∈ populated, chunkToLarge width height coord ∈ catalog
    ∧ coord ∈ entries (chunkToLarge width height coord)

namespace ScanWorld

variable (world : ScanWorld)

/-- The walk of `CollectScanCandidates` over the large chunks. -/
def collect : List LargeChunkCoord → ScanWindow ChunkCoord → ScanWindow ChunkCoord
  | [], window => window
  | key :: keys, window =>
    match world.classify window key with
    | (.stop, window) => window
    | (.skip, window) => collect keys window
    | (.visit, window) => collect keys ((world.entries key).foldl ScanWindow.insert window)

/-- `CollectScanCandidates`: the walk begins at the column of the cursor. -/
def collectScanCandidates (window : ScanWindow ChunkCoord) : ScanWindow ChunkCoord :=
  match window.cursor with
  | none => world.collect world.catalog window
  | some cursor =>
    world.collect (world.catalog.dropWhile fun key => key.x < (world.largeOf cursor).x) window

/-- `ChunkScanPage`. -/
structure ChunkScanPage where
  coords : List ChunkCoord
  hasMore : Bool
  deriving DecidableEq

/-- The loop of a pass over its candidates: the page, and whether it was full. -/
def probe (limit : ℕ) : List ChunkCoord → List ChunkCoord → List ChunkCoord × Bool
  | page, [] => (page, false)
  | page, coord :: coords =>
    if coord ∉ world.populated then probe limit page coords
    else if limit ≤ page.length then (page, true)
    else probe limit (page ++ [coord]) coords

/-- The passes of `ScanPopulatedChunks`, at most `fuel` of them. -/
def passes (limit : ℕ) : ℕ → Option ChunkCoord → List ChunkCoord → Option ChunkScanPage
  | 0, _, _ => none
  | fuel + 1, cursor, page =>
    if limit < page.length then some ⟨page, false⟩
    else
      let candidates := world.collectScanCandidates (.empty cursor (limit + 1 - page.length))
      let (page, full) := world.probe limit page candidates.kept
      if full then some ⟨page, true⟩
      else if candidates.overflowed = false then some ⟨page, false⟩
      else passes limit fuel candidates.kept.getLast? page

/-- `kMaxChunkScanLimit`. -/
def kMaxChunkScanLimit : ℕ := 1024

/-- `ScanPopulatedChunks`, with at most `fuel` passes. -/
def scanPopulatedChunks (fuel : ℕ) (cursor : Option ChunkCoord) (limit : ℕ) :
    Fallible (Option ChunkScanPage) := do
  require (limit ≠ 0 ∧ limit ≤ kMaxChunkScanLimit)
    ⟨.invalidArgument, "scan limit must be between 1 and " ++ toString kMaxChunkScanLimit⟩
  return world.passes limit fuel cursor []

/-- The pages from a cursor on, each from the last coordinate of the one before, until a page
says that nothing follows. -/
def pages (limit passFuel : ℕ) : ℕ → Option ChunkCoord → Fallible (Option (List ChunkScanPage))
  | 0, _ => .ok none
  | fuel + 1, cursor => do
    match ← world.scanPopulatedChunks passFuel cursor limit with
    | none => return none
    | some page =>
      if page.hasMore = false then return some [page]
      else
        match ← pages limit passFuel fuel page.coords.getLast? with
        | none => return none
        | some rest => return some (page :: rest)

/-! ## The walk over the large chunks -/

variable {world}

/-- The walk covers every coordinate its large chunks hold. -/
theorem collect_spec (keys : List LargeChunkCoord)
    (hsorted : keys.Pairwise fun a b => a.x.toInt ≤ b.x.toInt) {window : ScanWindow ChunkCoord}
    (hwindow : window.Sound) :
    ScanWindow.Extends (fun coord => ∃ key ∈ keys, coord ∈ world.entries key) window
        (world.collect keys window)
      ∧ ∀ coord, world.largeOf coord ∈ keys → coord ∈ world.entries (world.largeOf coord) →
          (world.collect keys window).Covers coord := by
  induction keys generalizing window with
  | nil => exact ⟨hwindow.extends, by simp⟩
  | cons key keys ih =>
    obtain ⟨hhead, htail⟩ := pairwise_cons.mp hsorted
    have hmono : ∀ coord : ChunkCoord, (∃ k ∈ keys, coord ∈ world.entries k) →
        ∃ k ∈ key :: keys, coord ∈ world.entries k :=
      fun _ ⟨k, hk, hin⟩ => ⟨k, mem_cons_of_mem _ hk, hin⟩
    rcases world.classify_cases window key with ⟨heq, hclosed⟩ | ⟨heq, hbefore⟩
        | ⟨heq, lowest, hclosed, hle⟩ | heq <;> rw [collect, heq]
    · -- this large chunk and the later ones begin at or after a column the window is closed at
      refine ⟨hwindow.extends_markOverflowed hclosed, fun coord hkey _ => ?_⟩
      refine hwindow.covers_markOverflowed hclosed (ChunkCoord.le_iff.mpr ?_)
      have hmin : (world.box key).minCoord.x.toInt ≤ coord.x.toInt := by
        refine (LargeChunkSize.minCoord_mono ?_).trans (LargeChunkSize.holds_box coord).1
        rcases mem_cons.mp hkey with hself | hlater
        · rw [hself]
        · exact hhead _ hlater
      have := coord.y.minValue_le_toInt
      dsimp only
      omega
    · obtain ⟨hextends, hcovers⟩ := ih htail hwindow
      refine ⟨hextends.mono hmono, fun coord hkey hin => ?_⟩
      rcases mem_cons.mp hkey with hself | hlater
      · exact hextends.covers _ (.inl (hbefore coord (hself ▸ LargeChunkSize.holds_box coord)))
      · exact hcovers coord hlater hin
    · have hmarked := hwindow.extends_markOverflowed
        (P := fun coord => ∃ k ∈ keys, coord ∈ world.entries k) hclosed
      obtain ⟨hextends, hcovers⟩ := ih htail hmarked.sound
      refine ⟨(hmarked.trans hextends).mono hmono, fun coord hkey hin => ?_⟩
      rcases mem_cons.mp hkey with hself | hlater
      · refine hextends.covers _ ?_
        by_cases hafter : window.after coord
        · exact hwindow.covers_markOverflowed hclosed (hle coord (hself ▸ LargeChunkSize.holds_box coord) hafter)
        · exact .inl hafter
      · exact hcovers coord hlater hin
    · obtain ⟨hlisted, hall⟩ := hwindow.foldl_insert (world.entries key)
      obtain ⟨hextends, hcovers⟩ := ih htail hlisted.sound
      refine ⟨(hlisted.mono fun coord hin => ⟨key, mem_cons_self, hin⟩).trans
        (hextends.mono hmono), fun coord hkey hin => ?_⟩
      rcases mem_cons.mp hkey with hself | hlater
      · exact hextends.covers _ (hall coord (hself ▸ hin))
      · exact hcovers coord hlater hin

/-- A pass covers every populated chunk. -/
theorem collectScanCandidates_spec {window : ScanWindow ChunkCoord} (hwindow : window.Sound) :
    ScanWindow.Extends (fun coord => ∃ key ∈ world.catalog, coord ∈ world.entries key) window
        (world.collectScanCandidates window)
      ∧ ∀ coord ∈ world.populated, (world.collectScanCandidates window).Covers coord := by
  have hsorted : world.catalog.Pairwise fun a b => a.x.toInt ≤ b.x.toInt :=
    world.ascending.imp LargeChunkCoord.x_le_of_lt
  unfold collectScanCandidates
  cases hcursor : window.cursor with
  | none =>
    obtain ⟨hextends, hcovers⟩ := world.collect_spec world.catalog hsorted hwindow
    exact ⟨hextends, fun coord hin => hcovers coord (world.listed coord hin).1
      (world.listed coord hin).2⟩
  | some cursor =>
    dsimp only
    have hsub := dropWhile_sublist (l := world.catalog)
      (fun key => decide (key.x < (world.largeOf cursor).x))
    obtain ⟨hextends, hcovers⟩ := world.collect_spec _ (hsorted.sublist hsub) hwindow
    refine ⟨hextends.mono fun coord ⟨key, hkey, hin⟩ => ⟨key, hsub.subset hkey, hin⟩,
      fun coord hin => ?_⟩
    by_cases hafter : window.after coord
    · obtain ⟨hkey, hentry⟩ := world.listed coord hin
      refine hcovers coord ?_ hentry
      -- a large chunk left of the cursor's column holds nothing after the cursor
      rw [← takeWhile_append_dropWhile (p := fun key : LargeChunkCoord =>
        decide (key.x < (world.largeOf cursor).x)) (l := world.catalog),
        mem_append] at hkey
      refine hkey.resolve_left fun hearly => ?_
      have hlt := all_eq_true.mp all_takeWhile _ hearly
      have hpos := world.toInt_width_pos
      simp only [LargeChunkSize.largeOf, chunkToLarge, decide_eq_true_eq, lt_iff_toInt_lt,
        toInt_floorDiv _ hpos] at hlt
      have hx : coord.x.toInt < cursor.x.toInt := by
        by_contra hge
        exact absurd (Int.ediv_le_ediv hpos (by omega)) (not_le.mpr hlt)
      have := ChunkCoord.lt_iff.mp (hafter cursor hcursor)
      omega
    · exact hextends.covers _ (.inl hafter)

/-! ## The pages -/

/-- The coordinates after a cursor. -/
def After (cursor : Option ChunkCoord) (coord : ChunkCoord) : Prop := ∀ c ∈ cursor, c < coord

instance (cursor : Option ChunkCoord) (coord : ChunkCoord) : Decidable (After cursor coord) := by
  unfold After
  infer_instance

/-- What a page must be: the first populated chunks after the cursor, and whether there are
more of them. -/
structure PageAfter (world : ScanWorld) (limit : ℕ) (cursor : Option ChunkCoord)
    (page : ChunkScanPage) : Prop where
  ascending : page.coords.Pairwise (· < ·)
  populated : ∀ coord ∈ page.coords, coord ∈ world.populated ∧ After cursor coord
  length_le : page.coords.length ≤ limit
  rest : ∀ coord ∈ world.populated, After cursor coord → coord ∉ page.coords →
    page.hasMore = true ∧ ∀ x ∈ page.coords, x < coord
  more : page.hasMore = true → page.coords.length = limit
    ∧ ∃ coord ∈ world.populated, ∀ x ∈ page.coords, x < coord

/-- Between two passes: the page holds the populated chunks up to the cursor of the pass. -/
structure Passed (world : ScanWorld) (limit : ℕ) (cursor passCursor : Option ChunkCoord)
    (page : List ChunkCoord) : Prop where
  ascending : page.Pairwise (· < ·)
  populated : ∀ coord ∈ page, coord ∈ world.populated ∧ After cursor coord
  length_le : page.length ≤ limit
  before : ∀ x ∈ page, ∀ coord, After passCursor coord → x < coord
  after : ∀ coord, After passCursor coord → After cursor coord
  seen : ∀ coord ∈ world.populated, After cursor coord → coord ∈ page ∨ After passCursor coord

/-- The candidates of the whole store. -/
def candidates (world : ScanWorld) : Finset ChunkCoord :=
  (world.catalog.flatMap world.entries).toFinset

/-- The populated ones among some candidates. -/
def found (world : ScanWorld) (coords : List ChunkCoord) : List ChunkCoord :=
  coords.filter (· ∈ world.populated)

theorem probe_eq (limit : ℕ) (page coords : List ChunkCoord) (hpage : page.length ≤ limit) :
    world.probe limit page coords = (page ++ (world.found coords).take (limit - page.length),
      decide (limit - page.length < (world.found coords).length)) := by
  induction coords generalizing page with
  | nil => simp [probe, found]
  | cons coord coords ih =>
    rw [probe, found]
    by_cases hin : coord ∈ world.populated
    · rw [if_neg (not_not.mpr hin), filter_cons_of_pos (by simpa using hin)]
      by_cases hfull : limit ≤ page.length
      · have hzero : limit - page.length = 0 := by omega
        rw [if_pos hfull, hzero]
        simp
      · obtain ⟨n, hn⟩ : ∃ n, limit - page.length = n + 1 := ⟨limit - page.length - 1, by omega⟩
        have hlength : limit - (page ++ [coord]).length = n := by simp; omega
        rw [if_neg hfull, ih _ (by simp; omega), hlength, hn, found]
        simp
    · rw [if_pos hin, filter_cons_of_neg (by simpa using hin)]
      exact ih page hpage

/-- The end of a pass: the window, which covers the populated chunks, goes on from the page. -/
structure PassEnd (world : ScanWorld) (limit : ℕ) (cursor : Option ChunkCoord)
    (page : List ChunkCoord) (window : ScanWindow ChunkCoord) : Prop extends
    Passed world limit cursor window.cursor page where
  sound : window.Sound
  covers : ∀ coord ∈ world.populated, window.Covers coord

namespace PassEnd

variable {limit : ℕ} {cursor : Option ChunkCoord} {page : List ChunkCoord} {coord : ChunkCoord}
  {window : ScanWindow ChunkCoord} (h : PassEnd world limit cursor page window)

include h

theorem mem_found (hin : coord ∈ world.found window.kept) :
    coord ∈ world.populated ∧ After window.cursor coord := by
  obtain ⟨hkept, hpop⟩ := mem_filter.mp hin
  exact ⟨by simpa using hpop, h.sound.after coord hkept⟩

/-- The candidates of the pass that are populated go on where the page ends. -/
theorem ascending_append {some : List ChunkCoord} (hsome : some.Sublist (world.found window.kept)) :
    (page ++ some).Pairwise (· < ·) := by
  refine pairwise_append.mpr ⟨h.ascending, (h.sound.sorted.filter _).sublist hsome, ?_⟩
  exact fun x hx coord hcoord => h.before x hx coord (h.mem_found (hsome.subset hcoord)).2

theorem populated_append {some : List ChunkCoord} (hsome : some.Sublist (world.found window.kept)) :
    ∀ coord ∈ page ++ some, coord ∈ world.populated ∧ After cursor coord := by
  intro coord hcoord
  rcases mem_append.mp hcoord with hold | hnew
  · exact h.populated coord hold
  · exact (h.mem_found (hsome.subset hnew)).imp_right (h.after coord)

/-- Where a populated chunk is after a pass: on the page, or past what the window left out. -/
theorem mem_or_above (hpop : coord ∈ world.populated) (hafter : After cursor coord)
    (hnot : coord ∉ page) : After window.cursor coord ∧ (coord ∈ world.found window.kept
      ∨ window.overflowed = true ∧ ∀ x ∈ window.kept, x < coord) := by
  have hpass := (h.seen coord hpop hafter).resolve_left hnot
  refine ⟨hpass, ?_⟩
  rcases h.covers coord hpop with hbefore | hkept | habove
  · exact absurd hpass hbefore
  · exact .inl (mem_filter.mpr ⟨hkept, by simpa using hpop⟩)
  · exact .inr habove

/-- A page cut off from the candidates of a pass is the next page. -/
theorem page_of_full (hfull : limit - page.length < (world.found window.kept).length) :
    PageAfter world limit cursor
      ⟨page ++ (world.found window.kept).take (limit - page.length), true⟩ := by
  set found := world.found window.kept with hfound
  have hsorted : found.Pairwise (· < ·) := h.sound.sorted.filter _
  have hlength := h.length_le
  have hsplit := take_append_drop (limit - page.length) found
  have hcut : ∀ x ∈ found.take (limit - page.length), ∀ coord ∈ found.drop (limit - page.length),
      x < coord := by
    rw [← hsplit] at hsorted
    exact (pairwise_append.mp hsorted).2.2
  refine ⟨h.ascending_append (take_sublist _ _), h.populated_append (take_sublist _ _), ?_, ?_, ?_⟩
  · simp only [length_append, length_take]
    omega
  · intro coord hpop hafter hnot
    rw [mem_append, not_or] at hnot
    obtain ⟨hpass, hwhere⟩ := h.mem_or_above hpop hafter hnot.1
    refine ⟨rfl, fun x hx => ?_⟩
    rcases mem_append.mp hx with hold | hnew
    · exact h.before x hold coord hpass
    · rcases hwhere with hin | ⟨_, habove⟩
      · rw [← hfound, ← hsplit, mem_append] at hin
        exact hcut x hnew coord (hin.resolve_left hnot.2)
      · exact habove x (mem_filter.mp (mem_of_mem_take hnew)).1
  · -- the first candidate that found no room shows that there are more
    intro _
    refine ⟨by simp only [length_append, length_take]; omega, ?_⟩
    obtain ⟨hpop, hpass⟩ := h.mem_found (getElem_mem hfull)
    have hlate : found[limit - page.length] ∈ found.drop (limit - page.length) := by
      rw [drop_eq_getElem_cons hfull]
      exact mem_cons_self
    refine ⟨_, hpop, fun x hx => ?_⟩
    rcases mem_append.mp hx with hold | hnew
    · exact h.before x hold _ hpass
    · exact hcut x hnew _ hlate

/-- A pass that takes all of its candidates goes on after them. -/
theorem append (hroom : (world.found window.kept).length ≤ limit - page.length) {last : ChunkCoord}
    (hlast : window.kept.getLast? = some last) :
    Passed world limit cursor (some last) (page ++ world.found window.kept) := by
  have hlength := h.length_le
  have hin := mem_of_getLast? hlast
  have hafter : ∀ coord, After (some last) coord → After window.cursor coord :=
    fun coord hcoord c hc => (h.sound.after last hin c hc).trans (hcoord last rfl)
  refine ⟨h.ascending_append (List.Sublist.refl _), h.populated_append (List.Sublist.refl _), ?_, ?_,
    fun coord hcoord => h.after coord (hafter coord hcoord), ?_⟩
  · rw [length_append]
    omega
  · intro x hx coord hcoord
    rcases mem_append.mp hx with hold | hnew
    · exact h.before x hold coord (hafter coord hcoord)
    · exact (ScanWindow.le_last_of_sorted h.sound.sorted hlast x
        (mem_filter.mp hnew).1).trans_lt (hcoord last rfl)
  · intro coord hpop hcoord
    by_cases hold : coord ∈ page
    · exact .inl (mem_append_left _ hold)
    · rcases (h.mem_or_above hpop hcoord hold).2 with hnew | ⟨_, habove⟩
      · exact .inl (mem_append_right _ hnew)
      · refine .inr fun c hc => ?_
        rw [← Option.some.inj hc]
        exact habove last hin

/-- A pass whose window left nothing out ends the scan. -/
theorem page_of_end (hroom : (world.found window.kept).length ≤ limit - page.length)
    (hover : window.overflowed = false) :
    PageAfter world limit cursor ⟨page ++ world.found window.kept, false⟩ := by
  have hlength := h.length_le
  refine ⟨h.ascending_append (List.Sublist.refl _), h.populated_append (List.Sublist.refl _), ?_, ?_,
    nofun⟩
  · rw [length_append]
    omega
  · intro coord hpop hcoord hnot
    exfalso
    rw [mem_append, not_or] at hnot
    rcases (h.mem_or_above hpop hcoord hnot.1).2 with hnew | ⟨hyes, _⟩
    · exact hnot.2 hnew
    · rw [hover] at hyes
      cases hyes

end PassEnd

/-- The candidates after a cursor: a pass leaves fewer of them. -/
def remaining (world : ScanWorld) (cursor : Option ChunkCoord) : Finset ChunkCoord :=
  world.candidates.filter (After cursor)

/-- What is left after an element that was left before. -/
theorem filter_after_ssubset {coords : Finset ChunkCoord} {cursor : Option ChunkCoord}
    {last : ChunkCoord} (hin : last ∈ coords) (hlater : After cursor last) :
    coords.filter (After (some last)) ⊂ coords.filter (After cursor) := by
  refine (Finset.ssubset_iff_of_subset fun coord hcoord => ?_).mpr
    ⟨last, Finset.mem_filter.mpr ⟨hin, hlater⟩, ?_⟩
  · obtain ⟨hcoord, hafter⟩ := Finset.mem_filter.mp hcoord
    exact Finset.mem_filter.mpr ⟨hcoord, fun c hc => (hlater c hc).trans (hafter last rfl)⟩
  · exact fun hself => lt_irrefl _ ((Finset.mem_filter.mp hself).2 last rfl)

/-- The passes end with the next page. -/
theorem passes_spec {limit : ℕ} {cursor : Option ChunkCoord} (fuel : ℕ)
    {passCursor : Option ChunkCoord} {page : List ChunkCoord}
    (h : Passed world limit cursor passCursor page)
    (hfuel : (world.remaining passCursor).card < fuel) :
    ∃ result, world.passes limit fuel passCursor page = some result
      ∧ PageAfter world limit cursor result := by
  induction fuel generalizing passCursor page with
  | zero => omega
  | succ fuel ih =>
    have hlength := h.length_le
    obtain ⟨hextends, hcovers⟩ := world.collectScanCandidates_spec
      (ScanWindow.sound_empty passCursor (limit + 1 - page.length) (by omega))
    set window := world.collectScanCandidates (.empty passCursor (limit + 1 - page.length))
      with hwindow
    have hcursor : window.cursor = passCursor := hextends.cursor_eq
    have hsound := hextends.sound
    rw [← hcursor] at h
    have hend : PassEnd world limit cursor page window := ⟨h, hsound, hcovers⟩
    rw [passes, if_neg (by omega)]
    simp only [← hwindow, probe_eq limit page window.kept hlength, decide_eq_true_eq]
    by_cases hfull : limit - page.length < (world.found window.kept).length
    · rw [if_pos hfull]
      exact ⟨_, rfl, hend.page_of_full hfull⟩
    · rw [if_neg hfull, take_of_length_le (by omega)]
      by_cases hover : window.overflowed = false
      · rw [if_pos hover]
        exact ⟨_, rfl, hend.page_of_end (by omega) hover⟩
      · rw [if_neg hover]
        obtain ⟨last, hlast⟩ : ∃ last, window.kept.getLast? = some last :=
          ⟨_, getLast?_eq_some_getLast (hsound.kept_ne_nil (by simpa using hover))⟩
        rw [hlast]
        refine ih (hend.append (by omega) hlast) ?_
        have hin := mem_of_getLast? hlast
        -- the last candidate is behind the next cursor
        have hcandidate : last ∈ world.candidates := by
          rcases hextends.kept last hin with hnone | ⟨key, hkey, hentry⟩
          · cases hnone
          · exact mem_toFinset.mpr (mem_flatMap.mpr ⟨key, hkey, hentry⟩)
        have hlater : After passCursor last := hcursor ▸ hsound.after last hin
        have hless : (world.remaining (some last)).card < (world.remaining passCursor).card :=
          Finset.card_lt_card (filter_after_ssubset hcandidate hlater)
        omega

/-- A page is the next one after its cursor. -/
theorem scanPopulatedChunks_spec {limit fuel : ℕ} (hpos : 0 < limit)
    (hle : limit ≤ kMaxChunkScanLimit) (cursor : Option ChunkCoord)
    (hfuel : world.candidates.card < fuel) :
    ∃ page, world.scanPopulatedChunks fuel cursor limit = .ok (some page)
      ∧ PageAfter world limit cursor page := by
  have hstart : Passed world limit cursor cursor [] :=
    ⟨.nil, by simp, Nat.zero_le _, by simp, fun _ => id, fun _ _ => .inr⟩
  obtain ⟨page, hpage, hspec⟩ := passes_spec fuel hstart
    ((Finset.card_le_card (Finset.filter_subset _ _)).trans_lt hfuel)
  refine ⟨page, ?_, hspec⟩
  have hlimit : limit ≠ 0 ∧ limit ≤ kMaxChunkScanLimit := ⟨hpos.ne', hle⟩
  rw [scanPopulatedChunks, require, if_pos hlimit, hpage]
  rfl

/-- The pages from a cursor on list the populated chunks after it. -/
theorem pages_spec {limit passFuel : ℕ} (hpos : 0 < limit) (hle : limit ≤ kMaxChunkScanLimit)
    (hpass : world.candidates.card < passFuel) (fuel : ℕ) (cursor : Option ChunkCoord)
    (hfuel : (world.populated.filter (After cursor)).card < fuel) :
    ∃ result, world.pages limit passFuel fuel cursor = .ok (some result)
      ∧ (result.flatMap ChunkScanPage.coords).Pairwise (· < ·)
      ∧ (∀ coord, coord ∈ result.flatMap ChunkScanPage.coords
          ↔ coord ∈ world.populated ∧ After cursor coord)
      ∧ ∀ page ∈ result, page.coords.length ≤ limit := by
  induction fuel generalizing cursor with
  | zero => omega
  | succ fuel ih =>
    obtain ⟨page, hscan, hpage⟩ := scanPopulatedChunks_spec hpos hle cursor hpass
    rw [pages, hscan]
    by_cases hmore : page.hasMore = false
    · refine ⟨[page], by simp [hmore, pure, Except.pure], ?_, fun coord => ?_, ?_⟩
      · simpa using hpage.ascending
      · rw [flatMap_singleton]
        refine ⟨hpage.populated coord, fun ⟨hpop, hafter⟩ => ?_⟩
        by_contra hnot
        have := (hpage.rest coord hpop hafter hnot).1
        rw [hmore] at this
        cases this
      · simpa using hpage.length_le
    · rw [Bool.not_eq_false] at hmore
      obtain ⟨hfull, _⟩ := hpage.more hmore
      obtain ⟨last, hlast⟩ : ∃ last, page.coords.getLast? = some last :=
        ⟨_, getLast?_eq_some_getLast (ne_nil_of_length_pos (by omega))⟩
      have hin := mem_of_getLast? hlast
      have hbelow := ScanWindow.le_last_of_sorted hpage.ascending hlast
      obtain ⟨hpop, hafterLast⟩ := hpage.populated last hin
      have hcard := Finset.card_lt_card (filter_after_ssubset hpop hafterLast)
      obtain ⟨rest, hrest, hsorted, hmem, hlengths⟩ := ih (some last) (by omega)
      refine ⟨page :: rest, by simp [hmore, hlast, hrest, pure, Except.pure], ?_, fun coord => ?_, ?_⟩
      · rw [flatMap_cons]
        refine pairwise_append.mpr ⟨hpage.ascending, hsorted, fun x hx coord hcoord => ?_⟩
        exact (hbelow x hx).trans_lt (((hmem coord).mp hcoord).2 last rfl)
      · rw [flatMap_cons, mem_append, hmem]
        constructor
        · rintro (hold | ⟨hcoord, hafter⟩)
          · exact hpage.populated coord hold
          · exact ⟨hcoord, fun c hc => (hafterLast c hc).trans (hafter last rfl)⟩
        · rintro ⟨hcoord, hafter⟩
          by_cases hold : coord ∈ page.coords
          · exact .inl hold
          · refine .inr ⟨hcoord, fun c hc => ?_⟩
            rw [← Option.some.inj hc]
            exact (hpage.rest coord hcoord hafter hold).2 last hin
      · intro p hp
        rcases mem_cons.mp hp with rfl | hlater
        · exact hpage.length_le
        · exact hlengths p hlater

/-! ## A whole scan -/

/-- No coordinate wraps: quotients are those of the integers, the corners of a large chunk are
the exact ones cut off at the ends of the range, and the first coordinate of one after a
cursor is what the same steps give on integers. -/
structure ExactArithmetic (world : ScanWorld) : Prop where
  quotient : ∀ coord, (world.largeOf coord).x.toInt = coord.x.toInt / world.width
    ∧ (world.largeOf coord).y.toInt = coord.y.toInt / world.height
  minCoord : ∀ key, (world.box key).minCoord.x.toInt
        = max (-2 ^ 63) (min (2 ^ 63 - 1) (key.x.toInt * world.width))
    ∧ (world.box key).minCoord.y.toInt
        = max (-2 ^ 63) (min (2 ^ 63 - 1) (key.y.toInt * world.height))
  maxCoord : ∀ key, (world.box key).maxCoord.x.toInt
        = min (2 ^ 63 - 1) ((world.box key).minCoord.x.toInt + (world.width - 1))
    ∧ (world.box key).maxCoord.y.toInt
        = min (2 ^ 63 - 1) ((world.box key).minCoord.y.toInt + (world.height - 1))
  successor : ∀ low high cursor : Int64 × Int64, (lowestPairAfter low high cursor).map pairToInt
    = lowestPairAfter (pairToInt low) (pairToInt high) (pairToInt cursor)

theorem exactArithmetic (world : ScanWorld) : world.ExactArithmetic := by
  have hwidth := world.width_pos
  have hheight := world.height_pos
  obtain ⟨hw, hw'⟩ := toInt_size world.width_pos world.width_le
  obtain ⟨hh, hh'⟩ := toInt_size world.height_pos world.height_le
  refine ⟨fun coord => ⟨?_, ?_⟩, fun key => ⟨?_, ?_⟩, fun key => ⟨?_, ?_⟩, lowestPairAfter_exact⟩
  · rw [LargeChunkSize.largeOf, chunkToLarge, toInt_floorDiv _ (by omega), hw]
  · rw [LargeChunkSize.largeOf, chunkToLarge, toInt_floorDiv _ (by omega), hh]
  · rw [LargeChunkSize.box, makeLargeChunkBox, toInt_saturatingMul _ (by omega), hw]
  · rw [LargeChunkSize.box, makeLargeChunkBox, toInt_saturatingMul _ (by omega), hh]
  · rw [LargeChunkSize.box, makeLargeChunkBox, toInt_saturatingAdd _ (by omega), hw']
  · rw [LargeChunkSize.box, makeLargeChunkBox, toInt_saturatingAdd _ (by omega), hh']

/-- Following the pages of a scan from the start visits every populated chunk once, in ascending
order, in finitely many pages of at most `limit` chunks. -/
theorem pages_exact (world : ScanWorld) (limit : ℕ) (hpos : 0 < limit)
    (hle : limit ≤ kMaxChunkScanLimit) (passFuel fuel : ℕ)
    (hpass : world.candidates.card < passFuel) (hfuel : world.populated.card < fuel) :
    ∃ result, world.pages limit passFuel fuel none = .ok (some result)
      ∧ (result.flatMap ChunkScanPage.coords).Pairwise (fun a b => chunkCoordLess a b = true)
      ∧ (∀ coord, coord ∈ result.flatMap ChunkScanPage.coords ↔ coord ∈ world.populated)
      ∧ (∀ page ∈ result, page.coords.length ≤ limit)
      ∧ world.ExactArithmetic := by
  obtain ⟨result, hresult, hsorted, hmem, hlengths⟩ := pages_spec hpos hle hpass fuel none
    ((Finset.card_le_card (Finset.filter_subset _ _)).trans_lt hfuel)
  refine ⟨result, hresult, hsorted.imp chunkCoordLess_iff.mpr, fun coord => ?_, hlengths,
    world.exactArithmetic⟩
  rw [hmem]
  exact and_iff_left nofun

/-- The store that holds these chunks and nothing else. -/
def ofPopulated (width height : ℕ) (hwidth : 0 < width ∧ width ≤ kMaxLargeChunkDimensionChunks)
    (hheight : 0 < height ∧ height ≤ kMaxLargeChunkDimensionChunks)
    (populated : Finset ChunkCoord) : ScanWorld where
  width := width
  height := height
  width_pos := hwidth.1
  height_pos := hheight.1
  width_le := hwidth.2
  height_le := hheight.2
  catalog := (populated.image (chunkToLarge width height)).sort (· ≤ ·)
  ascending := (Finset.sortedLT_sort _).pairwise
  entries := fun key => (populated.filter fun coord => chunkToLarge width height coord = key).sort
  populated := populated
  listed := by
    intro coord hin
    rw [Finset.mem_sort, Finset.mem_sort, Finset.mem_filter]
    exact ⟨Finset.mem_image_of_mem _ hin, hin, rfl⟩

/-- Chunks at the corners of the range and next to its middle. -/
def corners : ScanWorld := ofPopulated 3 1000000 (by decide) (by decide)
  {⟨Int64.minValue, Int64.minValue⟩, ⟨Int64.minValue, Int64.maxValue⟩, ⟨0, -1⟩,
    ⟨Int64.maxValue, Int64.minValue⟩, ⟨Int64.maxValue, Int64.maxValue⟩}

/-- The corners, two chunks a page. -/
theorem pages_exact_corners :
    ∃ result, corners.pages 2 (corners.candidates.card + 1) (corners.populated.card + 1) none
        = .ok (some result)
      ∧ (result.flatMap ChunkScanPage.coords).Pairwise (fun a b => chunkCoordLess a b = true)
      ∧ (∀ coord, coord ∈ result.flatMap ChunkScanPage.coords ↔ coord ∈ corners.populated)
      ∧ (∀ page ∈ result, page.coords.length ≤ 2)
      ∧ corners.ExactArithmetic :=
  pages_exact corners 2 (by decide) (by decide) _ _ (Nat.lt_succ_self _) (Nat.lt_succ_self _)

end ScanWorld

end ChunkDb
